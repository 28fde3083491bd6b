import Escape.Proofs.Analysis.Aliasing
import Escape.Proofs.Analysis.Origins

/-!
# Arguments of blocks

An argument of a block stands for the values that flow in over the edges to the block. When a
function is drawn, the node of the argument defers to the nodes of these values one after another,
up to the first value that does not enter graphs; then the argument escapes, and the remaining
values are left out. It escapes and nothing is linked if an edge passes nothing.

- `Func.mem_incoming_iff`: the values that flow in are those that edges pass.
- `Graph.linkBlocks_fed`: all arguments are linked.
- `Analysis.blockArg_shares`: **an argument has the content of every value that flows in before the
  first one without a node.**
- `Analysis.blockArg_unlinked`: **it need not have the content of a later one.**
-/

namespace Escape

open Escape.Graph

variable {p : Program} {s : Scope} {f : FuncId} {info : FuncInfo} {a a' : Analysis} {v w : ValueId}
  {g g' : Graph} {n m c d : NodeId} {b : BlockId} {blk : Block} {blocks : List BlockId} {k : Nat}

/-! ### What flows in -/

namespace Func

variable {fn : Func} {edges : List (BlockId × Option (List ValueId))}

theorem mem_passedTo_iff {ws : List ValueId} (h : passedTo b k edges = some ws) :
    w ∈ ws ↔ ∃ args, (b, some args) ∈ edges ∧ args[k]? = some w := by
  induction edges generalizing ws with
  | nil =>
    cases h
    simp
  | cons edge edges ih =>
    obtain ⟨target, args?⟩ := edge
    unfold passedTo at h
    split at h
    · rename_i htarget
      subst htarget
      obtain ⟨args, hargs, hrest⟩ := Option.bind_eq_some_iff.mp h
      subst hargs
      obtain ⟨v, hv, h⟩ := Option.bind_eq_some_iff.mp hrest
      obtain ⟨vs, hvs, h⟩ := Option.bind_eq_some_iff.mp h
      cases h
      rw [List.mem_cons, ih hvs]
      constructor
      · rintro (rfl | ⟨args', hmem, hw⟩)
        · exact ⟨args, List.mem_cons_self, hv⟩
        · exact ⟨args', List.mem_cons_of_mem _ hmem, hw⟩
      · rintro ⟨args', hmem, hw⟩
        rcases List.mem_cons.mp hmem with heq | hmem
        · cases heq
          exact .inl (Option.some.inj (hw.symm.trans hv))
        · exact .inr ⟨args', hmem, hw⟩
    · rename_i htarget
      rw [ih h]
      refine exists_congr fun args => and_congr_left fun _ => ?_
      rw [List.mem_cons, or_iff_right fun heq => htarget (congrArg Prod.fst heq).symm]

/-- The values that flow in are those that edges of the predecessors pass. -/
theorem mem_incoming_iff {preds : List BlockId} {ws : List ValueId}
    (h : fn.incoming b k preds = .ok (some ws)) :
    w ∈ ws ↔ ∃ q ∈ preds, ∃ edges args, fn.edges q = .ok edges ∧ (b, some args) ∈ edges ∧
    args[k]? = some w := by
  induction preds generalizing ws with
  | nil =>
    cases h
    simp
  | cons q preds ih =>
    unfold incoming at h
    obtain ⟨edges, hedges, h⟩ := bind_ok.mp h
    split at h
    · cases h
    · rename_i vs hvs
      obtain ⟨more?, hmore, h⟩ := bind_ok.mp h
      obtain ⟨more, rfl, rfl⟩ := Option.map_eq_some_iff.mp (Checked.pure_ok.mp h)
      rw [List.mem_append, mem_passedTo_iff hvs, ih hmore]
      constructor
      · rintro (⟨args, hmem, hw⟩ | ⟨q', hq', rest⟩)
        · exact ⟨q, List.mem_cons_self, edges, args, hedges, hmem, hw⟩
        · exact ⟨q', List.mem_cons_of_mem _ hq', rest⟩
      · rintro ⟨q', hq', edges', args, hedges', hmem, hw⟩
        rcases List.mem_cons.mp hq' with rfl | hq'
        · cases hedges.symm.trans hedges'
          exact .inl ⟨args, hmem, hw⟩
        · exact .inr ⟨q', hq', edges', args, hedges', hmem, hw⟩

end Func

namespace Scope

/-- The value enters graphs. -/
def Enters (s : Scope) (v : ValueId) : Prop := ∃ anchor, s.anchor? v = .ok (some anchor)

/-- Something unknown flows in: an edge passes nothing, or a value that does not enter graphs. -/
def Leaks (s : Scope) : Option (List ValueId) → Prop
  | none => True
  | some ws => ∃ w ∈ ws, s.anchor? w = .ok none

/-- A pointer among the arguments of a block is a root that enters graphs. -/
theorem blockArg_anchor (hfunc : s.func.Sound) (hb : b ≠ Func.entry)
    (hblk : s.func.block b = .ok blk) (hv : v ∈ blk.args) (hp : s.isPointer v = .ok true) :
    ∃ anchor, s.anchor? v = .ok (some anchor) ∧ s.root v = .ok anchor.root := by
  have hindex : b.index ≠ 0 := by
    intro h
    cases b
    exact hb (congrArg BlockId.mk h)
  obtain ⟨x, j, hx, ho⟩ := hfunc.blockArgs b.index blk hindex (Checked.get_ok.mp hblk) v hv
  have hx : s.func.value v = .ok x := Checked.get_ok.mpr hx
  have hdef : s.func.definition? v = .ok none := by
    rw [Func.definition?, Func.definer?, hx, ok_bind, ho]
    rfl
  have href : s.isFunctionRef v = .ok false := by
    rw [isFunctionRef, hdef]
    rfl
  have hroot : s.root v = .ok v := by
    refine root_of_base?_none ?_
    rw [base?, hdef]
    rfl
  have hdefined : s.Defined v := by
    rw [Defined, isUndefined_of_value hx, ho]
    rfl
  obtain ⟨anchor, ha, rfl⟩ := anchor?_of_root href hp hroot hdefined
  exact ⟨anchor, ha, hroot⟩

end Scope

/-! ### Linking -/

namespace Graph

/-- The value has a node that `n` is, or defers to, if it enters graphs. -/
def Receives (s : Scope) (g : Graph) (n : NodeId) (w : ValueId) : Prop :=
  ∀ anchor, s.anchor? w = .ok (some anchor) → ∃ m, g.At anchor.root m ∧ g.Tied n m

/-- What linking says of the node of an argument that the values in `ws?` flow into. -/
structure Fed (s : Scope) (g : Graph) (n : NodeId) (ws? : Option (List ValueId)) : Prop where
  leaks : s.Leaks ws? → (g.node (g.representative n)).state = .globalEscaping
  receives : ∀ before w after, ws? = some (before ++ w :: after) → (∀ x ∈ before, s.Enters x) →
    Receives s g n w

theorem Tied.congr {n' m' : NodeId} (hn : g.representative n' = g.representative n)
    (hm : g.representative m' = g.representative m) (h : g.Tied n m) : g.Tied n' m' := by
  rwa [Tied, hn, hm]

theorem Receives.later (h : Receives s g n w) (hf : Forward g g') : Receives s g' n w := by
  intro anchor ha
  obtain ⟨m, hat, htied⟩ := h anchor ha
  refine ⟨g'.representative m, hf.2.values _ _ hat, (hf.2.tied n m htied).congr rfl ?_⟩
  exact hf.1.forest.representative_representative m

theorem Receives.congr (h : Receives s g n w) {n' : NodeId}
    (hn : g.representative n' = g.representative n) : Receives s g n' w := by
  intro anchor ha
  obtain ⟨m, hat, htied⟩ := h anchor ha
  exact ⟨m, hat, htied.congr hn rfl⟩

namespace Fed

variable {ws? : Option (List ValueId)}

theorem later (h : Fed s g n ws?) (hf : Forward g g') : Fed s g' n ws? where
  leaks hl := by
    refine globalEscaping_le ?_
    rw [← h.leaks hl]
    exact hf.2.state n
  receives before w after hws hin := (h.receives before w after hws hin).later hf

theorem congr (h : Fed s g n ws?) {n' : NodeId} (hn : g.representative n' = g.representative n) :
    Fed s g n' ws? where
  leaks hl := by
    rw [hn]
    exact h.leaks hl
  receives before w after hws hin := (h.receives before w after hws hin).congr hn

end Fed

/-- Linking a node to what flows in. -/
theorem linkIncoming_fed (ws : List ValueId) (n : NodeId) (g : Graph) {g' : Graph}
    (hs : Settled g) (hv : g.valid = true) (hn : g.Has n) (hok : linkIncoming s ws n g = .ok g') :
    Fed s g' n (some ws) := by
  induction ws generalizing n g g' with
  | nil =>
    refine ⟨fun hl => ?_, fun before w after h => ?_⟩
    · obtain ⟨w, hw, -⟩ := hl
      cases hw
    · exact absurd (Option.some.inj h).symm
        (List.append_ne_nil_of_right_ne_nil _ (List.cons_ne_nil _ _))
  | cons v ws ih =>
    obtain ⟨⟨g₁, m?⟩, h₁, hok⟩ := bind_ok.mp hok
    obtain ⟨hev₁, hlive⟩ := nodeFor_builds hs h₁
    have hn₁ : g₁.Has n := Nat.lt_of_lt_of_le hn hev₁.size_le
    rcases nodeFor_at hs hv h₁ with ⟨rfl, hnone⟩ | ⟨m, anchor, rfl, ha, hat⟩
    · -- the rest is left out
      cases hok
      refine ⟨fun _ => isGlobal_setGlobal hev₁.settled hn₁, fun before w after h hin => ?_⟩
      cases before with
      | nil =>
        cases h
        exact fun anchor ha => absurd (hnone.symm.trans ha) nofun
      | cons x before =>
        cases h
        obtain ⟨anchor, ha⟩ := hin v List.mem_cons_self
        cases hnone.symm.trans ha
    · obtain ⟨⟨g₂, n₂⟩, h₂, hok⟩ := bind_ok.mp hok
      obtain ⟨hev₂, rfl, htied⟩ := defer_evolves (P := s.Defined) (B := s.Inner) hev₁.settled
        (hlive m rfl) h₂
      have hhas : g₂.Has n := Nat.lt_of_lt_of_le hn₁ hev₂.size_le
      have hev := linkIncoming_builds ws _ g₂ hev₂.settled hok
      have hrest := ih _ g₂ hev₂.settled ((hev₁.trans hev₂).valid.trans hv)
        (hev₂.settled.forest.has_representative hhas) hok
      replace hrest := hrest.congr (hev.merge n).symm
      refine ⟨fun hl => ?_, fun before w after h hin => ?_⟩
      · obtain ⟨w, hw, hnone⟩ := hl
        rcases List.mem_cons.mp hw with rfl | hw
        · cases hnone.symm.trans ha
        · exact hrest.leaks ⟨w, hw, hnone⟩
      · cases before with
        | nil =>
          cases h
          have hreceives : Receives s g₂ n v := by
            intro anchor' ha'
            cases ha.symm.trans ha'
            refine ⟨g₂.representative m, hev₂.values _ _ hat, htied.congr rfl ?_⟩
            exact hev₂.settled.forest.representative_representative m
          exact hreceives.later hev.forward
        | cons x before =>
          cases h
          exact hrest.receives before w after rfl fun x hx => hin x (List.mem_cons_of_mem _ hx)

/-- The node of argument `k` of the block `b` is fed by what flows in from `preds`. -/
def ArgFed (s : Scope) (preds : List BlockId) (b : BlockId) (g : Graph)
    (arg : ValueId × Nat) : Prop :=
  ∀ anchor, s.anchor? arg.1 = .ok (some anchor) →
    ∃ n ws?, g.At anchor.root n ∧ s.func.incoming b arg.2 preds = .ok ws? ∧ Fed s g n ws?

theorem ArgFed.later {arg : ValueId × Nat} (h : ArgFed s blocks b g arg) (hf : Forward g g') :
    ArgFed s blocks b g' arg := by
  intro anchor ha
  obtain ⟨n, ws?, hat, hin, hfed⟩ := h anchor ha
  refine ⟨g'.representative n, ws?, hf.2.values _ _ hat, hin, (hfed.later hf).congr ?_⟩
  exact hf.1.forest.representative_representative n

theorem linkArgument_fed {arg : ValueId × Nat} (hs : Settled g) (hv : g.valid = true)
    (hok : linkArgument s blocks b g arg = .ok g') : ArgFed s blocks b g' arg := by
  intro anchor ha
  obtain ⟨⟨g₁, n?⟩, h₁, hok⟩ := bind_ok.mp hok
  obtain ⟨hev₁, -⟩ := nodeFor_builds hs h₁
  rcases nodeFor_at hs hv h₁ with ⟨-, hnone⟩ | ⟨n, anchor', rfl, ha', hat⟩
  · cases hnone.symm.trans ha
  · cases ha.symm.trans ha'
    have hhas := (hat.live hev₁.settled).1
    obtain ⟨ws?, hin, hok⟩ := bind_ok.mp hok
    obtain ⟨hfollows, hfed⟩ : Forward g₁ g' ∧ Fed s g' n ws? := by
      cases ws? with
      | none =>
        cases hok
        exact ⟨(setGlobal_evolves (P := s.Defined) (B := s.Inner) hev₁.settled n).forward,
          fun _ => isGlobal_setGlobal hev₁.settled hhas, nofun⟩
      | some ws =>
        exact ⟨(linkIncoming_builds ws n g₁ hev₁.settled hok).forward,
          linkIncoming_fed ws n g₁ hev₁.settled (hev₁.valid.trans hv) hhas hok⟩
    refine ⟨g'.representative n, ws?, hfollows.2.values _ _ hat, hin, hfed.congr ?_⟩
    exact hfollows.1.forest.representative_representative n

/-- **All arguments of all blocks but the entry are linked.** -/
theorem linkBlocks_fed (hs : Settled g) (hv : g.valid = true)
    (hok : g.linkBlocks s blocks = .ok g') : ∀ b ∈ blocks, b ≠ Func.entry → ∀ blk,
    s.func.block b = .ok blk → ∀ arg ∈ blk.args.zipIdx,
      ArgFed s blocks b g' arg := by
  have hall := foldlM_of_ok (P := fun done k => Builds s g k ∧ ∀ b ∈ done, ∀ blk,
    s.func.block b = .ok blk → ∀ arg ∈ blk.args.zipIdx,
    ArgFed s blocks b k arg) ?_ ⟨.refl hs, nofun⟩ hok
  · intro b hb hentry
    exact hall.2 b (List.mem_filter.mpr ⟨hb, by simpa using hentry⟩)
  · rintro done b rest k k' - ⟨hev, hdone⟩ hstep
    obtain ⟨blk, hblk, hstep⟩ := bind_ok.mp hstep
    have hargs := foldlM_of_ok (P := fun done k' => Builds s k k' ∧ ∀ arg ∈ done,
      ArgFed s blocks b k' arg) ?_ ⟨.refl hev.settled, nofun⟩ hstep
    · refine ⟨hev.trans hargs.1, fun b' hb' blk' hblk' arg harg => ?_⟩
      rcases List.mem_append.mp hb' with hb' | hb'
      · exact (hdone b' hb' blk' hblk' arg harg).later hargs.1.forward
      · cases List.mem_singleton.mp hb'
        cases hblk.symm.trans hblk'
        exact hargs.2 arg harg
    · rintro done arg rest k₁ k₂ - ⟨hev₁, hdone₁⟩ hlink
      have hev₂ := linkArgument_builds hev₁.settled hlink
      refine ⟨hev₁.trans hev₂, fun arg' harg' => ?_⟩
      rcases List.mem_append.mp harg' with harg' | harg'
      · exact (hdone₁ arg' harg').later hev₂.forward
      · cases List.mem_singleton.mp harg'
        exact linkArgument_fed hev₁.settled ((hev.trans hev₁).valid.trans hv) hlink

/-- Nodes that are tied agree on their contents in a graph that passes the check. -/
theorem Tied.content_eq (hs : Settled g) (hv : g.valid = true) (hcheck : g.check false = .ok ())
    (hn : g.Live n) (hm : g.Live m) (ht : g.Tied n m) (hc : g.content? n = some c)
    (hd : g.content? m = some d) : d = c := by
  rw [Tied, hs.representative_of_live hn.2, hs.representative_of_live hm.2] at ht
  rcases ht with rfl | hdefers
  · exact Option.some.inj (hd.symm.trans hc)
  · exact (content?_eq_of_check hs hv hcheck hdefers hc hd).symm

end Graph

namespace Analysis

/-- In a full graph the arguments of the reachable blocks are linked. -/
theorem Traceable.fed (h : Traceable p a) (hp : p.Sound) (hf : a.infos.find? f = some info)
    (hs : Scope.of? p f = some s) (hv : info.graph.valid = true)
    (hblocks : s.func.reachableBlocks = .ok blocks) (hb : b ∈ blocks) (hentry : b ≠ Func.entry)
    (hblk : s.func.block b = .ok blk) (hk : blk.args[k]? = some v) :
    ArgFed s blocks b info.graph (v, k) := by
  obtain ⟨deep, calls, g₀, hdraw, hlater⟩ := h.drawn f info s hf hs
  have hv₀ : g₀.valid = true := hlater.2.valid.symm.trans hv
  obtain ⟨blocks', is, g, hblocks', -, hinsts, ⟨hvalid, hlink⟩ | ⟨hvalid, rfl⟩⟩ := draw_ok hdraw
  · cases hblocks.symm.trans hblocks'
    have hsettled := (drawInsts_grown (hp.of? hs).results is _ .of_empty
      hinsts).settled
    have hall := linkBlocks_fed hsettled hvalid hlink b hb hentry blk hblk (v, k)
      (List.mk_mem_zipIdx_iff_getElem?.mpr hk)
    exact hall.later hlater
  · cases hvalid.symm.trans hv₀

/-- **An argument of a block has the content of what flows in.** Take any run of requests, and a
pointer `v` among the arguments of a reachable block other than the entry, in a full graph that was
not given up. It has a node and a content. If an edge to the block passes nothing in its place, or a
value that does not enter graphs, the node escapes globally. Otherwise, and up to the first such
value in any case, the node is or defers to the node of each value that flows in. In a graph that
passes the check it has the content of each of them, and may alias them if both are addresses or
both are references. -/
theorem blockArg_shares (hp : p.Built) (hstart : a.infos = {}) {requests : List Request}
    (hrun : a.run p requests = .ok a') (hf : a'.info? f = some info) (hs : Scope.of? p f = some s)
    (hvalid : info.graph.valid = true) (hblocks : s.func.reachableBlocks = .ok blocks)
    (hb : b ∈ blocks) (hentry : b ≠ Func.entry) (hblk : s.func.block b = .ok blk)
    (hk : blk.args[k]? = some v) (hpointer : s.isPointer v = .ok true) :
    ∃ n c ws?, info.graph.nodeOf? s v = .ok (some n) ∧ info.graph.contentOf? s v = .ok (some c) ∧
      s.func.incoming b k blocks = .ok ws? ∧
      (∀ ws w, ws? = some ws → (w ∈ ws ↔ ∃ q ∈ blocks, ∃ edges args, s.func.edges q = .ok edges ∧
        (b, some args) ∈ edges ∧ args[k]? = some w)) ∧
      (s.Leaks ws? → (info.graph.node n).state = .globalEscaping) ∧
      ∀ before w after, ws? = some (before ++ w :: after) →
      (∀ x ∈ before, s.Enters x) → s.Enters w →
        ∃ m, info.graph.nodeOf? s w = .ok (some m) ∧ info.graph.Tied n m ∧
          (a.config.verifyGraphs = true ∨ info.graph.check false = .ok () →
            (∀ d, info.graph.contentOf? s w = .ok (some d) → d = c) ∧
            (s.Placed blocks w → info.graph.contentOf? s w = .ok (some c)) ∧
            (s.SameKind v w →
              a'.mayAlias p f v w = .ok (a', true) ∧ a'.mayAlias p f w v = .ok (a', true))) := by
  obtain ⟨hend, hsame⟩ := (traceable_of_empty hstart).run hp.sound hrun
  have hfunc := hp.sound.of? hs
  obtain ⟨g, hg, hok⟩ := hend.toAtRest.graph hf hs
  have hv := (Update.complete_forward (roots_anything s) hg.settled hok).1
  have hsettled := hv.1
  have hfilled := (Update.complete_filled hg.settled (hv.2.valid.symm.trans hvalid) hblocks hok).1
  -- the argument
  have hmem := List.mem_of_getElem? hk
  obtain ⟨anchor, ha, hroot⟩ := Scope.blockArg_anchor hfunc hentry hblk hmem hpointer
  obtain ⟨n, ws?, hat, hin, hfed⟩ :=
    hend.fed hp.sound hf hs hvalid hblocks hb hentry hblk hk anchor ha
  obtain ⟨n', c, hat', hc, -⟩ := hfilled v (.inr ⟨b, hb, blk, hblk, .inl hmem⟩) hpointer anchor ha
  cases hat.unique hat'
  have hn : info.graph.nodeOf? s v = .ok (some n) :=
    nodeOf?_iff.mpr ⟨hvalid, hpointer, anchor.root, hroot, hat⟩
  have hlive := hat.live hsettled
  refine ⟨n, c, ws?, hn, contentOf?_iff.mpr ⟨n, hn, hc⟩, hin, ?_, fun hl => ?_, ?_⟩
  · rintro ws w rfl
    exact Func.mem_incoming_iff hin
  · rw [← hfed.leaks hl, hsettled.representative_of_live hlive.2]
  · -- a value that flows in
    rintro before w after hws hbefore ⟨anchor', ha'⟩
    obtain ⟨m, hatw, htied⟩ := hfed.receives before w after hws hbefore anchor' ha'
    obtain ⟨-, hpointer', hroot', -⟩ := Scope.anchor?_ok ha'
    have hm : info.graph.nodeOf? s w = .ok (some m) :=
      nodeOf?_iff.mpr ⟨hvalid, hpointer', anchor'.root, hroot', hatw⟩
    refine ⟨m, hm, htied, fun hverify => ?_⟩
    have hcheck := hend.passes hsame hf hverify
    have hshared (d : NodeId) (hd : info.graph.contentOf? s w = .ok (some d)) : d = c := by
      obtain ⟨m', hm', hdm⟩ := contentOf?_iff.mp hd
      cases hm.symm.trans hm'
      exact htied.content_eq hsettled hvalid hcheck hlive (hatw.live hsettled) hc hdm
    refine ⟨hshared, fun hplaced => ?_, fun hkind => ?_⟩
    · obtain ⟨m', d, hatw', hd, -⟩ := hfilled w hplaced hpointer' anchor' ha'
      cases hatw.unique hatw'
      have hd := contentOf?_iff.mpr ⟨m, hm, hd⟩
      rw [hd, hshared d hd]
    · obtain ⟨u, e, hid⟩ := identified_of_node hfunc hn
      obtain ⟨u', e', hid'⟩ := identified_of_node hfunc hm
      refine hend.mayAlias_of_shared hf hs hid hid' hkind fun c' d hc' hd => ?_
      cases (contentOf?_iff.mpr ⟨n, hn, hc⟩).symm.trans hc'
      exact (hshared d hd).symm

end Analysis

/-- Steps that build a function with a new object and an undefined value. Depending on a condition
it passes the one or the other of two values to a block. -/
def joinSteps (first second : ValueId) : List Step := [
  .intern (.object { name := "Node" }),
  .intern .scalar,
  .declare "choose" [⟨⟨1⟩, .guaranteed⟩] none,
  .value ⟨0⟩ (.allocRef ⟨0⟩) none,
  .undefined ⟨0⟩,
  .addBlock [⟨0⟩],
  .inst ⟨0⟩ (.condBranch ⟨0⟩ ⟨1⟩ [first] ⟨1⟩ [second]) none,
  .inst ⟨1⟩ (.ret none) none]

/-- The program of the function. -/
def join (first second : ValueId) : Program := (built (joinSteps first second)).program

namespace Analysis

set_option synthInstance.maxSize 1024

/-- The object is passed first. The argument of the block escapes because of the undefined value,
and has the content of the object. -/
theorem blockArg_shares_first : ∃ a', (ofConfig Preset.balanced.config).run (join ⟨1⟩ ⟨2⟩)
    [.lookup ⟨0⟩] = .ok a' ∧ ∃ info ∈ a'.info? ⟨0⟩, ∃ s ∈ Scope.of? (join ⟨1⟩ ⟨2⟩) ⟨0⟩, ∃ n c,
    info.graph.nodeOf? s ⟨3⟩ = .ok (some n) ∧
      (info.graph.node n).state = .globalEscaping ∧ info.graph.contentOf? s ⟨3⟩ = .ok (some c) ∧
      info.graph.contentOf? s ⟨1⟩ = .ok (some c) ∧
      a'.mayAlias (join ⟨1⟩ ⟨2⟩) ⟨0⟩ ⟨3⟩ ⟨1⟩ = .ok (a', true) ∧
      a'.mayAlias (join ⟨1⟩ ⟨2⟩) ⟨0⟩ ⟨1⟩ ⟨3⟩ = .ok (a', true) := by
  have hbuilt : (join ⟨1⟩ ⟨2⟩).Built := built_program (by decide +kernel)
  have hrun : ∃ a', (ofConfig Preset.balanced.config).run (join ⟨1⟩ ⟨2⟩) [.lookup ⟨0⟩] = .ok a' ∧
      ∃ info ∈ a'.info? ⟨0⟩, ∃ s ∈ Scope.of? (join ⟨1⟩ ⟨2⟩) ⟨0⟩, info.graph.valid = true ∧
        s.func.reachableBlocks = .ok [⟨0⟩, ⟨1⟩] ∧
        (∃ blk, s.func.block ⟨1⟩ = .ok blk ∧ blk.args[0]? = some ⟨3⟩) ∧ s.isPointer ⟨3⟩ = .ok true ∧
        s.func.incoming ⟨1⟩ 0 [⟨0⟩, ⟨1⟩] = .ok (some [⟨1⟩, ⟨2⟩]) ∧
        s.anchor? ⟨1⟩ = .ok (some ⟨⟨1⟩, false, true⟩) ∧ s.anchor? ⟨2⟩ = .ok none ∧
        s.Placed [⟨0⟩, ⟨1⟩] ⟨1⟩ ∧ s.isReference ⟨1⟩ = .ok true ∧ s.isReference ⟨3⟩ = .ok true := by
    decide +kernel
  obtain ⟨a', hrun, info, hf, s, hs, hvalid, hblocks, ⟨blk, hblk, hk⟩, hpointer, hin, henters,
    hleaks, hplaced, hkind, hkind'⟩ := hrun
  obtain ⟨n, c, ws?, hn, hc, hin', -, hglobal, hflows⟩ :=
    blockArg_shares hbuilt rfl hrun hf hs hvalid hblocks
    (List.mem_cons_of_mem _ List.mem_cons_self) (by decide) hblk hk hpointer
  cases hin.symm.trans hin'
  obtain ⟨m, -, -, hshared⟩ := hflows [] ⟨1⟩ [⟨2⟩] rfl nofun ⟨_, henters⟩
  obtain ⟨-, hcw, halias⟩ := hshared (.inl rfl)
  exact ⟨a', hrun, info, hf, s, hs, n, c, hn,
    hglobal ⟨⟨2⟩, List.mem_cons_of_mem _ List.mem_cons_self, hleaks⟩, hc, hcw hplaced,
    halias (.inr ⟨hkind', hkind⟩)⟩

/-- **What flows in after a value without a node is not linked.** The undefined value is passed
first. The argument of the block may be the object, and both have contents of their own in a graph
that passes the check, so they are told apart. -/
theorem blockArg_unlinked : (join ⟨2⟩ ⟨1⟩).Built ∧ (join ⟨2⟩ ⟨1⟩).OperandsPlaced ∧
    ∃ a', (ofConfig Preset.balanced.config).run (join ⟨2⟩ ⟨1⟩) [.lookup ⟨0⟩] = .ok a' ∧
      ∃ info ∈ a'.info? ⟨0⟩, ∃ s ∈ Scope.of? (join ⟨2⟩ ⟨1⟩) ⟨0⟩, info.graph.valid = true ∧
        info.graph.check false = .ok () ∧ s.func.reachableBlocks = .ok [⟨0⟩, ⟨1⟩] ∧
        s.func.edges ⟨0⟩ = .ok [(⟨1⟩, some [⟨2⟩]), (⟨1⟩, some [⟨1⟩])] ∧
        info.graph.contentOf? s ⟨3⟩ = .ok (some ⟨4⟩) ∧
        info.graph.contentOf? s ⟨1⟩ = .ok (some ⟨2⟩) ∧ ∃ r,
        a'.mayAlias (join ⟨2⟩ ⟨1⟩) ⟨0⟩ ⟨3⟩ ⟨1⟩ = .ok r ∧ r.2 = false :=
  ⟨built_program (by decide +kernel), by decide +kernel, by decide +kernel⟩

end Analysis

end Escape
