import Escape.Proofs.Analysis.Requests

/-!
# Completed graphs of a run

Whatever was asked for before, the full graphs that are known are completed: states and use points
are pushed to the end, and all pointers have their contents. So a question never has to make a node,
and a call or a release gets at all memory below its operands.

- `Analysis.AtRest.complete`: full graphs are completed.
- `Analysis.run_completed`: **completed graphs are closed, and all pointers have their contents.**
- `Analysis.canEscapeTo_of_chain`: **the memory below an operand can escape to its call or
  release.**
-/

namespace Escape

open Escape.Graph
variable {p : Program} {s : Scope} {f : FuncId} {info : FuncInfo} {a a' : Analysis} {v r : ValueId}
  {g : Graph} {n m c d : NodeId} {i : InstId} {blocks : List BlockId}

/-! ### What is known about a function between requests -/

/-- A pointer that is no function reference and whose root is not undefined enters graphs. -/
theorem Scope.anchor?_of_root (hf : s.isFunctionRef v = .ok false) (hp : s.isPointer v = .ok true)
    (hr : s.root v = .ok r) (hd : s.Defined r) : ∃ a, s.anchor? v = .ok (some a) ∧ a.root = r := by
  obtain ⟨x, hx, -⟩ := bind_ok.mp hd
  obtain ⟨b, hb⟩ : ∃ b, s.isArgument r = .ok b := by
    rw [Scope.isArgument, argumentIndex?_of_value hx]
    exact ⟨_, rfl⟩
  exact anchor?_of hf hp hr hd hb

namespace Analysis

/-- A full graph is what completing a graph in the making leads to. -/
theorem AtRest.graph (h : AtRest p a) (hf : a.infos.find? f = some info)
    (hs : Scope.of? p f = some s) : ∃ g, Grown s g ∧ Update.complete s g = .ok info.graph := by
  obtain ⟨s', hs', hsane⟩ := h.sane f info hf
  cases hs.symm.trans hs'
  exact hsane.final (h.final f info hf).1

/-- Only values that are not undefined have a node. -/
theorem AtRest.defined (h : AtRest p a) (hf : a.infos.find? f = some info)
    (hs : Scope.of? p f = some s) (hn : info.graph.At r n) : s.Defined r := by
  obtain ⟨g, hg, hok⟩ := h.graph hf hs
  rcases (Update.complete_forward (roots_defined s) hg.settled hok).2 r n hn with hd | ⟨m, hm⟩
  · exact hd
  · exact (hg.keyed r m hm).1

/-- **Full graphs are completed.** -/
theorem AtRest.complete (h : AtRest p a) (hf : a.infos.find? f = some info)
    (hs : Scope.of? p f = some s) (hv : info.graph.valid = true) (hplaced : s.OperandsPlaced) :
    ∃ blocks, s.func.reachableBlocks = .ok blocks ∧ Update.Complete s blocks info.graph := by
  obtain ⟨g, hg, hok⟩ := h.graph hf hs
  have hvalid := (Update.complete_forward (roots_defined s) hg.settled hok).1.2.valid.symm.trans hv
  obtain ⟨blocks, -, -, hblocks, -⟩ := Update.complete_ok hvalid hok
  exact ⟨blocks, hblocks, Update.complete_spec hg.settled hvalid hg.unused hplaced hblocks hok⟩

/-! ### Closed and filled -/

/-- **Completed graphs are closed, and all pointers have their contents.** Take any run of requests
on a program in which every operand in a reachable block is undefined or a value of a reachable
block. In every full graph that was not given up, states do not fall along points-to and defer
edges, so there is nothing left to push, and use points are use points of what is pointed to. Every
pointer of a reachable block has a node and a content, unless it is a function reference or its root
is undefined. -/
theorem run_completed (hp : p.Built) (hplaced : p.OperandsPlaced)
    (hstart : a.infos = {}) {requests : List Request} (hrun : a.run p requests = .ok a')
    (hf : a'.info? f = some info) (hs : Scope.of? p f = some s) (hv : info.graph.valid = true) :
    (∀ n, (info.graph.node n).merged = false →
      (∀ m ∈ info.graph.successors n, (info.graph.node n).state ≤ (info.graph.node m).state) ∧
        ∀ c, info.graph.content? n = some c →
          ∀ u ∈ (info.graph.node n).usePoints.bits, u ∈ (info.graph.node c).usePoints.bits) ∧
      info.graph.propagate = (info.graph, false) ∧
      ∀ blocks v r, s.func.reachableBlocks = .ok blocks → s.Placed blocks v →
      s.isPointer v = .ok true →
        s.isFunctionRef v = .ok false → s.root v = .ok r → s.isUndefined r = .ok false →
          ∃ n c, info.graph.nodeOf? s v = .ok (some n) ∧
          info.graph.contentOf? s v = .ok (some c) := by
  obtain ⟨hrest, -⟩ := (atRest_of_empty hstart).run hp.sound hrun
  obtain ⟨blocks, hblocks, hcomplete⟩ := hrest.complete hf hs hv (hplaced f s hs)
  refine ⟨fun n hn => ⟨hcomplete.closed n hn, hcomplete.covered n hn⟩,
    hcomplete.closed.propagate, ?_⟩
  intro blocks' v r hblocks' hplace hpointer href hr hd
  cases hblocks.symm.trans hblocks'
  obtain ⟨anchor, ha, rfl⟩ := Scope.anchor?_of_root href hpointer hr hd
  obtain ⟨n, c, hn, hc, -⟩ := hcomplete.filled v hplace hpointer anchor ha
  have hnode : info.graph.nodeOf? s v = .ok (some n) :=
    nodeOf?_iff.mpr ⟨hv, hpointer, anchor.root, hr, hn⟩
  exact ⟨n, c, hnode, contentOf?_iff.mpr ⟨n, hnode, hc⟩⟩

end Analysis

/-- Steps that build a program with a class of nodes, each of which refers to another one. The first
function publishes a node and returns it, the second one only looks at a node, and the third one
passes a new node to each of them. -/
def nodeSteps : List Step := [
  .intern (.object { name := "Node" }),
  .setFields ⟨0⟩ [⟨0⟩],
  .declare "publish" [⟨⟨0⟩, .guaranteed⟩] (some ⟨0⟩),
  .value ⟨0⟩ (.globalAddr "last" false) (some ⟨0⟩),
  .inst ⟨0⟩ (.store ⟨0⟩ ⟨1⟩) none,
  .inst ⟨0⟩ (.ret (some ⟨0⟩)) none,
  .declare "inspect" [⟨⟨0⟩, .guaranteed⟩] none,
  .inst ⟨0⟩ (.ret none) none,
  .declare "main" [] none,
  .value ⟨0⟩ (.allocRef ⟨0⟩) none,
  .value ⟨0⟩ (.call (.direct ⟨0⟩) [⟨0⟩] none) (some ⟨0⟩),
  .value ⟨0⟩ (.allocRef ⟨0⟩) none,
  .value ⟨0⟩ (.refElementAddr ⟨2⟩ 0) none,
  .inst ⟨0⟩ (.call (.direct ⟨1⟩) [⟨2⟩] none) none,
  .inst ⟨0⟩ (.strongRelease ⟨1⟩) none,
  .inst ⟨0⟩ (.ret none) none]

/-- What steps build, if they can be run. -/
def built (steps : List Step) : Draft := (({} : Draft).run steps).getD {}

/-- Steps that can be run build a program. -/
theorem built_program {steps : List Step} (h : (({} : Draft).run steps).isSome) :
    (built steps).program.Built := by
  obtain ⟨d, hd⟩ := Option.isSome_iff_exists.mp h
  exact ⟨steps, d, hd, by rw [built, hd]; rfl⟩

/-- The program of the example. -/
def nodes : Program := (built nodeSteps).program

theorem nodes_built : nodes.Built := built_program (by decide +kernel)

theorem nodes_placed : nodes.OperandsPlaced := by decide +kernel

namespace Analysis

/-- The nodes of the third function after all graphs were dropped and computed again. -/
theorem run_completed_nodes : ∃ a', (ofConfig Preset.balanced.config).run nodes
      [.lookup ⟨0⟩, .canEscapeTo ⟨2⟩ ⟨2⟩ ⟨4⟩, .invalidate ⟨0⟩, .recompute ⟨2⟩] = .ok a' ∧
    ∃ info ∈ a'.info? ⟨2⟩, ∃ s ∈ Scope.of? nodes ⟨2⟩, info.graph.valid = true ∧
      info.graph.propagate = (info.graph, false) ∧
      ∃ n c, info.graph.nodeOf? s ⟨3⟩ = .ok (some n) ∧
      info.graph.contentOf? s ⟨3⟩ = .ok (some c) := by
  have hrun : ∃ a', (ofConfig Preset.balanced.config).run nodes
      [.lookup ⟨0⟩, .canEscapeTo ⟨2⟩ ⟨2⟩ ⟨4⟩, .invalidate ⟨0⟩, .recompute ⟨2⟩] = .ok a' ∧
      ∃ info ∈ a'.info? ⟨2⟩, ∃ s ∈ Scope.of? nodes ⟨2⟩, info.graph.valid = true ∧
        s.func.reachableBlocks = .ok [⟨0⟩] ∧ s.Placed [⟨0⟩] ⟨3⟩ ∧ s.isPointer ⟨3⟩ = .ok true ∧
        s.isFunctionRef ⟨3⟩ = .ok false ∧ s.root ⟨3⟩ = .ok ⟨3⟩ ∧ s.isUndefined ⟨3⟩ = .ok false := by
    decide +kernel
  obtain ⟨a', hrun, info, hf, s, hs, hv, hblocks, hplace, hpointer, href, hroot, hd⟩ := hrun
  obtain ⟨-, hpropagate, hfilled⟩ := run_completed nodes_built nodes_placed rfl hrun hf hs hv
  exact ⟨a', hrun, info, hf, s, hs, hv, hpropagate,
    hfilled [⟨0⟩] ⟨3⟩ ⟨3⟩ hblocks hplace hpointer href hroot hd⟩

end Analysis

/-! ### Memory below an operand -/

/-- The call or release has the operand. -/
def Scope.Takes (s : Scope) (i : InstId) (v : ValueId) : Prop :=
  ∃ inst, s.func.inst i = .ok inst ∧ (inst.op.isRelease || inst.op.isCall) = true ∧
    v ∈ inst.op.operands

instance (s : Scope) (i : InstId) (v : ValueId) : Decidable (s.Takes i v) :=
  inferInstanceAs (Decidable (∃ inst, s.func.inst i = .ok inst ∧ _))

namespace Graph

/-- What uses a node uses everything below it. -/
theorem UsedBy.chain (hcomplete : Update.Complete s blocks g) (hc : (g.node c).merged = false)
    (h : UsedBy g i c) (hchain : ReflTransGen (fun n m => g.content? n = some m) c d) :
    (g.node d).merged = false ∧ UsedBy g i d := by
  induction hchain with
  | refl => exact ⟨hc, h⟩
  | tail _ hstep ih =>
    obtain ⟨hlive, huse⟩ := ih
    refine ⟨(hcomplete.settled.live_content hstep).2, ?_⟩
    rcases huse with hglobal | ⟨u, hu, hbit⟩
    · -- what a global node points to is global
      have hle := hcomplete.closed _ hlive _ (List.mem_append_left _ (Option.mem_toList.mpr hstep))
      rw [hglobal] at hle
      exact .inl (globalEscaping_le hle)
    · exact .inr ⟨u, hu, hcomplete.covered _ hlive _ hstep u hbit⟩

/-- A test that a node passes. -/
theorem someInterior_of_test {test : NodeId → Bool} (hn : g.Has n) (h : test n = true) :
    g.someInterior test n = true := by
  obtain ⟨k, hk⟩ := Nat.exists_eq_succ_of_ne_zero (Nat.ne_zero_of_lt hn)
  rw [someInterior, show g.size = k + 1 from hk, someAlong, h, Bool.true_or]

end Graph

namespace Analysis

/-- What is known about a function is looked up. -/
theorem AtRest.infoFor_eq (h : AtRest p a) (hf : a.info? f = some info)
    (hs : Scope.of? p f = some s) : a.infoFor p f = .ok (.ok (a, info)) := by
  obtain ⟨-, -, hfunc⟩ := Scope.of?_spec hs
  have hc := (h.final f info hf).1
  have hensure : a.ensure p f = .ok a := by
    unfold Analysis.ensure
    rw [hf, Option.any_some, if_pos hc]
    rfl
  unfold Analysis.infoFor
  rw [hfunc, if_neg (by simp), hensure, ok_bind, hf]
  rfl

/-- Asking a full graph that was not given up. -/
theorem AtRest.askGraph_eq (h : AtRest p a) (hf : a.info? f = some info)
    (hs : Scope.of? p f = some s) (hv : info.graph.valid = true) (question : Graph → Checked Bool)
    {b : Bool} (hb : question info.graph = .ok b) : a.askGraph p f question = .ok (a, b) := by
  unfold Analysis.askGraph
  rw [h.infoFor_eq hf hs, ok_bind]
  dsimp only
  rw [if_pos hv, hb]
  rfl

/-- **The memory below an operand can escape to its call or release.** Take any run of requests on a
program in which every operand in a reachable block is undefined or a value of a reachable block. If
a call or release has an operand with a content, other than a function reference, and the content of
a value is on the points-to path that starts there, the value can escape to the call or release. -/
theorem canEscapeTo_of_chain (hp : p.Built) (hplaced : p.OperandsPlaced)
    (hstart : a.infos = {}) {requests : List Request} (hrun : a.run p requests = .ok a')
    (hf : a'.info? f = some info) (hs : Scope.of? p f = some s) (hv : info.graph.valid = true)
    {user : InstId} (huser : s.Reaches user) {o : ValueId} (ho : s.Takes user o)
    (href : s.isFunctionRef o = .ok false) (hc : info.graph.contentOf? s o = .ok (some c))
    (hd : info.graph.contentOf? s v = .ok (some d))
    (hchain : ReflTransGen (fun n m => info.graph.content? n = some m) c d) :
    a'.canEscapeTo p f v user = .ok (a', true) := by
  obtain ⟨hrest, -⟩ := (atRest_of_empty hstart).run hp.sound hrun
  obtain ⟨blocks, hblocks, hcomplete⟩ := hrest.complete hf hs hv (hplaced f s hs)
  have hfunc := hp.sound.of? hs
  -- the content of the operand is used
  obtain ⟨n, hn, hcn⟩ := contentOf?_iff.mp hc
  obtain ⟨-, hpointer, r, hr, hat⟩ := nodeOf?_iff.mp hn
  obtain ⟨anchor, ha, rfl⟩ := Scope.anchor?_of_root href hpointer hr (hrest.defined hf hs hat)
  obtain ⟨inst, hinst, hkind, ho⟩ := ho
  obtain ⟨blocks', hblocks', b, hb, blk, hblk, hmem⟩ := huser
  cases hblocks.symm.trans hblocks'
  have huse := (hcomplete.uses b hb blk hblk user hmem).1 inst hinst hkind o ho
    anchor n c ha hat hcn
  -- so is everything below it
  obtain ⟨hlive, hused⟩ := huse.chain hcomplete (hcomplete.settled.live_content hcn).2 hchain
  have hpoint := isUsePoint_of_usedBy hcomplete.settled hlive hused
  obtain ⟨m, hm, hdm⟩ := contentOf?_iff.mp hd
  obtain ⟨-, hvp, root, hroot, -⟩ := nodeOf?_iff.mp hm
  obtain ⟨x, hx⟩ := Scope.value_of_isPointer hvp
  obtain ⟨unique, hunique⟩ := Scope.isUnique_ok hfunc hx hroot
  obtain ⟨y, hy⟩ := Scope.value_of_base? (Scope.root_spec hfunc hx hroot).1
  obtain ⟨exclusive, hexclusive⟩ := Scope.isExclusive_ok hfunc hy
  have hanswer : info.graph.canEscapeTo s v user = .ok true := by
    unfold Graph.canEscapeTo
    rw [hd, ok_bind]
    dsimp only
    rw [hroot, ok_bind, hexclusive, ok_bind,
      someInterior_of_test (hcomplete.settled.live_content hdm).1 (by rw [hpoint, Bool.or_true])]
    rfl
  unfold Analysis.canEscapeTo
  rw [hs]
  dsimp only
  rw [hunique, ok_bind]
  cases unique with
  | false => rfl
  | true => exact hrest.askGraph_eq hf hs hv (fun g => g.canEscapeTo s v user) hanswer

/-- The third function of the example passes a node to the second one. The field of the node is
below the node. -/
theorem canEscapeTo_of_chain_field : ∃ a',
    (ofConfig Preset.balanced.config).run nodes [.lookup ⟨2⟩] = .ok a' ∧ ∃ info ∈ a'.info? ⟨2⟩,
    ∃ s ∈ Scope.of? nodes ⟨2⟩, info.graph.contentOf? s ⟨2⟩ = .ok (some ⟨2⟩) ∧
      info.graph.content? ⟨2⟩ = some ⟨3⟩ ∧ info.graph.contentOf? s ⟨3⟩ = .ok (some ⟨3⟩) ∧
      a'.canEscapeTo nodes ⟨2⟩ ⟨3⟩ ⟨4⟩ = .ok (a', true) := by
  have hrun : ∃ a', (ofConfig Preset.balanced.config).run nodes [.lookup ⟨2⟩] = .ok a' ∧
      ∃ info ∈ a'.info? ⟨2⟩, ∃ s ∈ Scope.of? nodes ⟨2⟩, info.graph.valid = true ∧ s.Reaches ⟨4⟩ ∧
        s.Takes ⟨4⟩ ⟨2⟩ ∧ s.isFunctionRef ⟨2⟩ = .ok false ∧
        info.graph.contentOf? s ⟨2⟩ = .ok (some ⟨2⟩) ∧ info.graph.content? ⟨2⟩ = some ⟨3⟩ ∧
        info.graph.contentOf? s ⟨3⟩ = .ok (some ⟨3⟩) := by
    decide +kernel
  obtain ⟨a', hrun, info, hf, s, hs, hv, huser, ho, href, hc, hstep, hd⟩ := hrun
  exact ⟨a', hrun, info, hf, s, hs, hc, hstep, hd,
    canEscapeTo_of_chain nodes_built nodes_placed rfl hrun hf hs hv huser ho href hc hd
    (.single hstep)⟩

end Analysis

/-- Steps that build a function in which a function reference of a class type is cast, selected
together with a new object, and passed to a call. -/
def referenceSteps : List Step := [
  .intern (.object { name := "Node" }),
  .declare "inspect" [⟨⟨0⟩, .guaranteed⟩] none,
  .inst ⟨0⟩ (.ret none) none,
  .declare "main" [] none,
  .append ⟨0⟩ (.functionRef ⟨0⟩) [⟨0⟩],
  .value ⟨0⟩ (.upcast ⟨0⟩) (some ⟨0⟩),
  .value ⟨0⟩ (.allocRef ⟨0⟩) none,
  .value ⟨0⟩ (.integerLiteral 0) none,
  .value ⟨0⟩ (.select ⟨3⟩ [⟨1⟩, ⟨2⟩] none) (some ⟨0⟩),
  .inst ⟨0⟩ (.call (.direct ⟨0⟩) [⟨0⟩] none) none,
  .inst ⟨0⟩ (.ret none) none]

/-- The program with the function reference. -/
def references : Program := (built referenceSteps).program

namespace Analysis

/-- **A function reference is no use of the memory it points to.** It enters no graph by itself, but
a cast of it does, under the same root. Here the operand of the call and the new object share their
content, and still the object cannot escape to the call. -/
theorem functionRef_unused : references.Built ∧ references.OperandsPlaced ∧
    ∃ a', (ofConfig Preset.balanced.config).run references [.lookup ⟨1⟩] = .ok a' ∧
      ∃ info ∈ a'.info? ⟨1⟩, ∃ s ∈ Scope.of? references ⟨1⟩, info.graph.valid = true ∧
      s.Reaches ⟨5⟩ ∧
        s.Takes ⟨5⟩ ⟨0⟩ ∧ info.graph.contentOf? s ⟨0⟩ = .ok (some ⟨3⟩) ∧
        info.graph.contentOf? s ⟨2⟩ = .ok (some ⟨3⟩) ∧
        ∃ r, a'.canEscapeTo references ⟨1⟩ ⟨2⟩ ⟨5⟩ = .ok r ∧ r.2 = false :=
  ⟨built_program (by decide +kernel), by decide +kernel, by decide +kernel⟩

end Analysis

end Escape
