import Escape.Proofs.Analysis.Completed

/-!
# Values that are made from a pointer

A value that is made from a pointer shares its identity. Only the chain of bases tells which pointer
that is, and all that follows the chain, to find a node, to make one, or to tell whether a value is
unique, ends at the same root.

- `Scope.root_ends`: every value has a root, which is where its chain of bases ends.
- `Graph.enter_comm`: two descriptions of one pointer have one node, whichever of them comes first.
- `Analysis.identity_of_base`: **a value and its base are one pointer** to graphs and to the
  analysis.
-/

namespace Escape

variable {p : Program} {f : FuncId} {s : Scope} {v b r : ValueId}

namespace Scope

/-- Every value has a root, and the chain of bases leads there. -/
theorem root_ends (ho : s.func.Ordered) (hv : v.index < s.func.values.size) :
    ∃ r, s.root v = .ok r ∧ s.base? r = .ok none ∧
    ReflTransGen (fun v b => s.base? v = .ok (some b)) v r := by
  induction hk : v.index using Nat.strongRecOn generalizing v with
  | ind k ih =>
    obtain ⟨x, hx⟩ := value_of_lt hv
    obtain ⟨b?, hb⟩ := base?_ok ho hx
    cases b? with
    | none => exact ⟨v, root_of_base?_none hb, hb, .refl⟩
    | some b =>
      have hlt := base?_lt ho hb
      obtain ⟨r, hr, hend, hchain⟩ := ih b.index (hk ▸ hlt) (Nat.lt_trans hlt hv) rfl
      exact ⟨r, (root_of_base? ho hb).trans hr, hend, .head hb hchain⟩

theorem isUnique_of_base? (ho : s.func.Ordered) (hb : s.base? v = .ok (some b)) :
    s.isUnique v = s.isUnique b := by
  rw [isUnique, isUnique, root_of_base? ho hb]

/-- The anchor of a pointer is made from its root and its kind. -/
theorem anchor?_of_pointer (href : s.isFunctionRef v = .ok false) (hp : s.isPointer v = .ok true)
    (hr : s.root v = .ok r) {u a : Bool} (hu : s.isUndefined r = .ok u)
    (ha : s.isArgument r = .ok a) : ∃ k,
    s.anchor? v = .ok (if u then none else some ⟨r, a, k⟩) := by
  obtain ⟨k, hk, hp⟩ := bind_ok.mp hp
  have hp : k.isPointer = true := Checked.pure_ok.mp hp
  refine ⟨k = .referenceOnly, ?_⟩
  simp only [anchor?, href, hk, hr, hu, ha, hp, ok_bind]
  cases u <;> rfl

end Scope

namespace Graph

variable {g : Graph} {n m : NodeId} {a : Bool}

/-! ### Entering a graph twice -/

theorem modify_modify (g : Graph) (n : NodeId) (f₁ f₂ : Node → Node) :
    (g.modify n f₁).modify n f₂ = g.modify n (f₂ ∘ f₁) := by
  have hnodes : (g.nodes.modify n.index f₁).modify n.index f₂ =
      g.nodes.modify n.index (f₂ ∘ f₁) := by
    refine Array.ext (by simp) fun i _ _ => ?_
    simp only [Array.getElem_modify]
    split <;> rfl
  simp only [modify, hnodes]

/-- The node that a value is found at. -/
def locate (g : Graph) (v : ValueId) (n : NodeId) : Graph :=
  { g with values := g.values.insert v n }

theorem enter_locate {k : Bool} (hn : (g.node n).mergeTo = none) :
    (g.locate r n).enter ⟨r, a, k⟩ =
      ((g.modify n (·.mergeFlags false k)).locate r n |>.locate r n, n) := by
  have hfind : (g.locate r n).values.find? r = some n := by
    rw [locate, AssocMap.find?_insert, if_pos rfl]
  have hroot : (g.locate r n).representative n = n := representative_of_root hn
  simp only [enter, hfind, hroot]
  rfl

/-- Entering leads to a node that was not merged, and flags of the node are met in any order. -/
theorem enter_eq (hf : Forest g) (r : ValueId) (a : Bool) : ∃ (n : NodeId) (F : Bool → Graph),
    (∀ k, g.enter ⟨r, a, k⟩ = ((F k).locate r n, n)) ∧ (∀ k, ((F k).node n).mergeTo = none) ∧
      ∀ k k', (F k).modify n (·.mergeFlags false k') = (F k').modify n (·.mergeFlags false k) := by
  cases hr : g.values.find? r with
  | some m =>
    refine ⟨g.representative m, fun k => g.modify (g.representative m) (·.mergeFlags false k),
      fun k => ?_, fun k => ?_, fun k k' => ?_⟩
    · simp only [enter, hr]
      rfl
    · rw [node_modify_field Node.mergeTo]
      exact hf.mergeTo_representative m
    · rw [modify_modify, modify_modify]
      congr 1
      funext x
      simp only [Function.comp_apply, Node.mergeFlags, Bool.and_right_comm]
  | none =>
    let x (k : Bool) : Node := {
      kind := if a then .argument else .value
      value := some r
      state := if a && !g.summary then .argumentReachable else .noEscape
      referenceOnly := k }
    refine ⟨⟨g.size⟩, fun k => (g.addNode (x k)).1, fun k => ?_, fun k => ?_, fun k k' => ?_⟩
    · simp only [enter, hr]
      rfl
    · exact congrArg Node.mergeTo (node_addNode_self g (x k))
    · refine (modify_addNode g (x k) _).trans (Eq.trans ?_ (modify_addNode g (x k') _).symm)
      simp only [x, Node.mergeFlags, Bool.and_comm]

/-- **Two descriptions of one pointer have one node**, and it does not matter which one comes first.
-/
theorem enter_comm (hf : Forest g) (r : ValueId) (a k k' : Bool) : ∃ n g₁ g₂ h,
    g.enter ⟨r, a, k⟩ = (g₁, n) ∧ g₁.enter ⟨r, a, k'⟩ = (h, n) ∧
      g.enter ⟨r, a, k'⟩ = (g₂, n) ∧ g₂.enter ⟨r, a, k⟩ = (h, n) := by
  obtain ⟨n, F, hfirst, hroot, hcomm⟩ := enter_eq hf r a
  refine ⟨n, _, _, _, hfirst k, enter_locate (hroot k), hfirst k', ?_⟩
  rw [enter_locate (hroot k'), hcomm k' k]

theorem nodeFor_of_anchor? {anchor : Scope.Anchor} (hvalid : g.valid = true)
    (h : s.anchor? v = .ok (some anchor)) :
    g.nodeFor s v = .ok ((g.enter anchor).1, some (g.enter anchor).2) := by
  simp only [nodeFor, hvalid, h, ok_bind, Bool.not_true, Bool.false_eq_true, if_false]
  rfl

theorem nodeFor_of_anchor?_none (h : s.anchor? v = .ok none) : g.nodeFor s v = .ok (g, none) := by
  simp only [nodeFor, h, ok_bind]
  cases g.valid <;> rfl

/-- A value and its base have one node, whichever of them asks for it first. The base of a value
with an undefined root has no node either. -/
theorem nodeFor_of_base? (ho : s.func.Ordered) (hb : s.base? v = .ok (some b))
    (hpv : s.isPointer v = .ok true) (hpb : s.isPointer b = .ok true)
    (hfv : s.isFunctionRef v = .ok false) (hfb : s.isFunctionRef b = .ok false)
    (hvalid : g.valid = true) (hf : Forest g) :
    ∃ r n? g₁ g₂ h, s.root v = .ok r ∧ s.isUndefined r = .ok n?.isNone ∧
      g.nodeFor s v = .ok (g₁, n?) ∧ g₁.nodeFor s b = .ok (h, n?) ∧
      g.nodeFor s b = .ok (g₂, n?) ∧ g₂.nodeFor s v = .ok (h, n?) := by
  obtain ⟨x, hx⟩ := Scope.value_of_base? hb
  obtain ⟨r, hr, hend, -⟩ := Scope.root_ends ho (Scope.lt_size_of_value hx)
  obtain ⟨y, hy⟩ := Scope.value_of_base? hend
  have hu := Scope.isUndefined_of_value hy
  obtain ⟨a, ha⟩ : ∃ a, s.isArgument r = .ok a :=
    ⟨_, by rw [Scope.isArgument, Scope.argumentIndex?_of_value hy]; rfl⟩
  obtain ⟨k, hk⟩ := Scope.anchor?_of_pointer hfv hpv hr hu ha
  obtain ⟨k', hk'⟩ := Scope.anchor?_of_pointer hfb hpb
    ((Scope.root_of_base? ho hb).symm.trans hr) hu ha
  by_cases horigin : y.origin = .undefined
  · rw [if_pos (decide_eq_true horigin)] at hk hk'
    exact ⟨r, none, g, g, g, hr, hu.trans (by rw [decide_eq_true horigin]; rfl),
      nodeFor_of_anchor?_none hk, nodeFor_of_anchor?_none hk', nodeFor_of_anchor?_none hk',
      nodeFor_of_anchor?_none hk⟩
  · rw [if_neg (by simpa using horigin)] at hk hk'
    obtain ⟨n, g₁, g₂, h, h₁, h₂, h₃, h₄⟩ := enter_comm hf r a k k'
    have hfirst := nodeFor_of_anchor? hvalid hk
    have hfirst' := nodeFor_of_anchor? hvalid hk'
    rw [h₁] at hfirst
    rw [h₃] at hfirst'
    have hsecond := nodeFor_of_anchor? ((nodeFor_valid hfirst).trans hvalid) hk'
    have hsecond' := nodeFor_of_anchor? ((nodeFor_valid hfirst').trans hvalid) hk
    rw [h₂] at hsecond
    rw [h₄] at hsecond'
    exact ⟨r, some n, g₁, g₂, h, hr, hu.trans (by rw [decide_eq_false horigin]; rfl), hfirst,
      hsecond, hfirst', hsecond'⟩

theorem nodeOf?_of_base? (ho : s.func.Ordered) (hb : s.base? v = .ok (some b))
    (hpv : s.isPointer v = .ok true) (hpb : s.isPointer b = .ok true) :
    g.nodeOf? s v = g.nodeOf? s b := by
  rw [nodeOf?, nodeOf?, hpv, hpb, Scope.root_of_base? ho hb]

theorem canEscapeTo_of_base? (ho : s.func.Ordered) (hb : s.base? v = .ok (some b))
    (hpv : s.isPointer v = .ok true) (hpb : s.isPointer b = .ok true) (user : InstId) :
    g.canEscapeTo s v user = g.canEscapeTo s b user := by
  rw [canEscapeTo, canEscapeTo, contentOf?, contentOf?, nodeOf?_of_base? ho hb hpv hpb,
    Scope.root_of_base? ho hb]

end Graph

namespace Analysis

/-- **A value and its base are one pointer.** If the results of instructions are younger than what
the instructions read, every chain of bases ends, at the root of the value it starts from. In a
graph that was not given up, and whose merge links end as they do after all edits, a pointer has the
node of its base, whichever of the two asks for it first, and both leave the same graph behind.
Looking them up, and asking which instructions they can escape to, is the same. -/
theorem identity_of_base (hs : Scope.of? p f = some s) (ho : s.func.Ordered) :
    (∀ v, v.index < s.func.values.size → ∃ r, s.root v = .ok r ∧ s.base? r = .ok none ∧
      ReflTransGen (fun v b => s.base? v = .ok (some b)) v r) ∧
    ∀ v b, s.base? v = .ok (some b) → s.isPointer v = .ok true → s.isPointer b = .ok true →
      s.isFunctionRef v = .ok false → s.isFunctionRef b = .ok false →
      (∀ g : Graph, g.valid = true → g.Forest → ∃ r n? g₁ g₂ h,
        s.root v = .ok r ∧ s.isUndefined r = .ok n?.isNone ∧
          g.nodeFor s v = .ok (g₁, n?) ∧ g₁.nodeFor s b = .ok (h, n?) ∧
          g.nodeFor s b = .ok (g₂, n?) ∧ g₂.nodeFor s v = .ok (h, n?)) ∧
      (∀ g : Graph, g.nodeOf? s v = g.nodeOf? s b) ∧
      ∀ (a : Analysis) (user : InstId), a.canEscapeTo p f v user = a.canEscapeTo p f b user := by
  refine ⟨fun v => Scope.root_ends ho, fun v b hb hpv hpb hfv hfb => ⟨fun g => ?_, fun g => ?_,
    fun a user => ?_⟩⟩
  · exact Graph.nodeFor_of_base? ho hb hpv hpb hfv hfb
  · exact Graph.nodeOf?_of_base? ho hb hpv hpb
  · simp only [canEscapeTo, hs, Scope.isUnique_of_base? ho hb,
      Graph.canEscapeTo_of_base? ho hb hpv hpb user]

end Analysis

/-- Steps that build a function with two objects. A cast of the first one is turned into a raw
pointer. -/
def castSteps : List Step := [
  .intern (.object { name := "Node" }),
  .setFields ⟨0⟩ [⟨0⟩],
  .declare "main" [] none,
  .value ⟨0⟩ (.allocRef ⟨0⟩) none,
  .value ⟨0⟩ (.allocRef ⟨0⟩) none,
  .value ⟨0⟩ (.upcast ⟨0⟩) (some ⟨0⟩),
  .value ⟨0⟩ (.refToRawPointer ⟨2⟩) none,
  .inst ⟨0⟩ (.strongRelease ⟨1⟩) none,
  .inst ⟨0⟩ (.ret none) none]

/-- The program of the example. -/
def casts : Program := (built castSteps).program

/-- Edits that put the first object at a content, which is then merged away. -/
def rebindEdits : List Graph.Edit :=
  [.enter ⟨⟨1⟩, false, true⟩, .contents ⟨0⟩ [(true, false)], .enterReturn,
    .contents ⟨2⟩ [(true, true)], .bind ⟨0⟩ ⟨1⟩, .defer ⟨0⟩ ⟨2⟩]

namespace Analysis

/-- The raw pointer is at the node that its content was merged into, and the release of the other
object does not get at it. -/
theorem identity_of_base_casts : ∃ s ∈ Scope.of? casts ⟨0⟩, s.base? ⟨3⟩ = .ok (some ⟨2⟩) ∧
    (∃ g, (Graph.full ⟨0⟩).run rebindEdits = .ok g ∧ (g.node ⟨1⟩).merged = true ∧
      g.nodeOf? s ⟨3⟩ = .ok (some ⟨3⟩) ∧
      ∃ n? g₁ g₂ h, g.nodeFor s ⟨3⟩ = .ok (g₁, n?) ∧ g₁.nodeFor s ⟨2⟩ = .ok (h, n?) ∧
        g.nodeFor s ⟨2⟩ = .ok (g₂, n?) ∧ g₂.nodeFor s ⟨3⟩ = .ok (h, n?)) ∧
    ((ofConfig Preset.balanced.config).canEscapeTo casts ⟨0⟩ ⟨3⟩ ⟨4⟩).map Prod.snd = .ok false := by
  have hscope : ∃ s ∈ Scope.of? casts ⟨0⟩, s.base? ⟨3⟩ = .ok (some ⟨2⟩) ∧
    s.isPointer ⟨3⟩ = .ok true ∧
      s.isPointer ⟨2⟩ = .ok true ∧ s.isFunctionRef ⟨3⟩ = .ok false ∧
      s.isFunctionRef ⟨2⟩ = .ok false ∧ ∃ g, (Graph.full ⟨0⟩).run rebindEdits = .ok g ∧
      g.valid = true ∧ (g.node ⟨1⟩).merged = true ∧
        g.nodeOf? s ⟨2⟩ = .ok (some ⟨3⟩) := by
    decide +kernel
  have hanswer : ((ofConfig Preset.balanced.config).canEscapeTo casts ⟨0⟩ ⟨2⟩ ⟨4⟩).map Prod.snd =
      .ok false := by
    decide +kernel
  obtain ⟨s, hs, hb, hpv, hpb, hfv, hfb, g, hrun, hvalid, hmerged, hnode⟩ := hscope
  have hon : Graph.Along (fun g e => e.OnLive g ∧ True) (Graph.full ⟨0⟩) rebindEdits := by
    decide +kernel
  have hstart : (Graph.full ⟨0⟩).Settled := Graph.settled_of_empty rfl (fun _ => rfl) rfl rfl
  obtain ⟨hsettled, -⟩ := Graph.Settled.run (Q := fun _ => True) rebindEdits _ hstart hon hrun
  have hbuilt : casts.Built := built_program (by decide +kernel)
  obtain ⟨-, hsame⟩ := identity_of_base hs (hbuilt.sound.of? hs).ordered
  obtain ⟨hfor, hof, hescape⟩ := hsame ⟨3⟩ ⟨2⟩ hb hpv hpb hfv hfb
  obtain ⟨-, n?, g₁, g₂, h, -, -, hnodes⟩ := hfor g hvalid hsettled.forest
  exact ⟨s, hs, hb, ⟨g, hrun, hmerged, (hof g).trans hnode, n?, g₁, g₂, h, hnodes⟩,
    (congrArg (Except.map Prod.snd) (hescape _ ⟨4⟩)).trans hanswer⟩

end Analysis

end Escape
