import Escape.Proofs.Analysis.Completed

/-!
# May two values alias?

The answers of a full graph that was not given up, in terms of the contents of the two values. They
are compared only if one of the values is unique and its content does not escape inside the
function.

- `Graph.mayAlias_eq`, `Graph.sameContent_of_sameKind`: when contents are compared, and how.
- `Analysis.AtRest.mayAlias_eq`: a question between requests reads one graph and changes nothing.
- `Analysis.query_of_global`: **what escapes globally may alias all that is not unique, and escape
  anywhere.**
-/

namespace Escape

open Escape.Graph

variable {p : Program} {s : Scope} {f : FuncId} {info : FuncInfo} {a a' : Analysis}
  {v w r : ValueId} {g : Graph} {n m c d : NodeId} {blocks : List BlockId} {u u' e e' b : Bool}

/-! ### What is asked of a value -/

namespace Scope

/-- The value is known to be unique or not, its root to be an exclusive parameter or not, and its
content can be looked up in any graph. -/
structure Identified (s : Scope) (v : ValueId) (unique exclusive : Bool) : Prop where
  isUnique : s.isUnique v = .ok unique
  root : ∃ r, s.root v = .ok r ∧ s.isExclusive r = .ok exclusive
  isPointer : ∃ b, s.isPointer v = .ok b

theorem value_of_isUnique (h : s.isUnique v = .ok u) : ∃ x, s.func.value v = .ok x := by
  obtain ⟨r, hr, h⟩ := bind_ok.mp h
  obtain ⟨l, hl, -⟩ := bind_ok.mp h
  obtain ⟨o, ho, -⟩ := bind_ok.mp hl
  obtain ⟨t, -, ho⟩ := bind_ok.mp ho
  obtain ⟨op?, hop, -⟩ := bind_ok.mp ho
  -- there is some value, so the chain of bases begins at `v`
  obtain ⟨x, hx⟩ := value_of_definition? hop
  obtain ⟨k, hk⟩ := Nat.exists_eq_succ_of_ne_zero (Nat.ne_zero_of_lt (lt_size_of_value hx))
  rw [Scope.root, hk] at hr
  obtain ⟨base?, hbase, -⟩ := bind_ok.mp hr
  exact value_of_base? hbase

/-- Every value of a sound function can be asked about. -/
theorem identified_of_value (hfunc : s.func.Sound) {x : Value} (hx : s.func.value v = .ok x) :
    ∃ u e, s.Identified v u e := by
  obtain ⟨r, hr⟩ := root_ok hfunc.ordered hx
  obtain ⟨u, hu⟩ := isUnique_ok hfunc hx hr
  obtain ⟨y, hy⟩ := value_of_base? (root_spec hfunc hx hr).1
  obtain ⟨e, he⟩ := isExclusive_ok hfunc hy
  exact ⟨u, e, hu, ⟨r, hr, he⟩, isPointer_of_value hx⟩

theorem identified (hfunc : s.func.Sound) (h : s.isUnique v = .ok u) : ∃ e, s.Identified v u e := by
  obtain ⟨x, hx⟩ := value_of_isUnique h
  obtain ⟨u', e, hid⟩ := identified_of_value hfunc hx
  cases h.symm.trans hid.isUnique
  exact ⟨e, hid⟩

/-- An address is no reference to an object. -/
theorem isReference_of_isAddress (h : s.isAddress v = .ok true) : s.isReference v = .ok false := by
  obtain ⟨ty, hty, h⟩ := bind_ok.mp h
  obtain ⟨inner?, hinner, h⟩ := bind_ok.mp h
  obtain ⟨t, ht, hinner⟩ := bind_ok.mp hinner
  rw [isReference, hty, ok_bind, ht, ok_bind]
  cases t with
  | address _ => rfl
  | _ =>
    cases hinner
    cases h

theorem isAddress_of_isReference (h : s.isReference v = .ok true) : s.isAddress v = .ok false := by
  obtain ⟨ty, hty, h⟩ := bind_ok.mp h
  obtain ⟨t, ht, h⟩ := bind_ok.mp h
  rw [isAddress, hty, ok_bind, TypeTable.isAddress, TypeTable.pointee?, ht, ok_bind]
  cases t with
  | object _ | box _ => rfl
  | _ => cases h

/-- Both values are addresses, or both are references to objects. -/
def SameKind (s : Scope) (v w : ValueId) : Prop :=
  s.isAddress v = .ok true ∧ s.isAddress w = .ok true ∨ s.isReference v = .ok true ∧
    s.isReference w = .ok true

theorem SameKind.symm (h : s.SameKind v w) : s.SameKind w v := h.imp And.symm And.symm

end Scope

namespace Graph

theorem identified_of_node (hfunc : s.func.Sound) (hn : g.nodeOf? s v = .ok (some n)) :
    ∃ u e, s.Identified v u e := by
  obtain ⟨-, hpointer, -⟩ := nodeOf?_iff.mp hn
  obtain ⟨x, hx⟩ := Scope.value_of_isPointer hpointer
  exact Scope.identified_of_value hfunc hx

theorem contentOf?_of_identified (g : Graph) (h : s.Identified v u e) :
    ∃ c?, g.contentOf? s v = .ok c? := by
  obtain ⟨-, ⟨r, hr, -⟩, b, hb⟩ := h
  unfold contentOf? nodeOf?
  split
  · exact ⟨none, rfl⟩
  · rw [hb, hr]
    cases b <;> exact ⟨_, rfl⟩

theorem escapesInside_of_identified (g : Graph) (n : NodeId) (h : s.Identified v u e) :
    g.escapesInside s n v = .ok ((g.node n).state.escapesInside e) := by
  obtain ⟨-, ⟨r, hr, he⟩, -⟩ := h
  rw [escapesInside, hr, ok_bind, he]
  rfl

/-! ### When contents are compared -/

/-- A value without content may be anything. -/
theorem mayAlias_of_none (hv : s.Identified v u e) (hw : s.Identified w u' e')
    (hnone : g.contentOf? s v = .ok none ∨ g.contentOf? s w = .ok none) :
    g.mayAlias s v w u u' = .ok true := by
  obtain ⟨c?, hc⟩ := g.contentOf?_of_identified hv
  obtain ⟨d?, hd⟩ := g.contentOf?_of_identified hw
  rw [hc, hd] at hnone
  unfold mayAlias
  rw [hc, hd, ok_bind, ok_bind]
  rcases hnone with hnone | hnone <;> cases hnone
  · rfl
  · cases c? <;> rfl

/-- The value is unique, and its content stays inside the function. -/
def alone (g : Graph) (unique exclusive : Bool) (c : NodeId) : Bool :=
  unique && !(g.node c).state.escapesInside exclusive

/-- Contents are compared if one of them is known to belong to its value alone. -/
theorem mayAlias_eq (hv : s.Identified v u e) (hw : s.Identified w u' e')
    (hc : g.contentOf? s v = .ok (some c)) (hd : g.contentOf? s w = .ok (some d)) :
    g.mayAlias s v w u u' =
      if g.alone u e c || g.alone u' e' d then g.sameContent s v w c d else .ok true := by
  unfold mayAlias
  rw [hc, hd, ok_bind, ok_bind]
  dsimp only
  rw [g.escapesInside_of_identified c hv, g.escapesInside_of_identified d hw, ok_bind, ok_bind]
  show (if (!g.alone u e c && !g.alone u' e' d) = true then _ else _) = _
  cases g.alone u e c <;> cases g.alone u' e' d <;> rfl

theorem mayAlias_of_not_unique (hok : g.mayAlias s v w false false = .ok b) : b = true := by
  unfold mayAlias at hok
  obtain ⟨c?, -, hok⟩ := bind_ok.mp hok
  obtain ⟨d?, -, hok⟩ := bind_ok.mp hok
  split at hok
  · obtain ⟨_, -, hok⟩ := bind_ok.mp hok
    obtain ⟨_, -, hok⟩ := bind_ok.mp hok
    cases hok
    rfl
  · cases hok
    rfl

/-- Values that are not known to be alone may alias. -/
theorem mayAlias_of_not_alone (hv : s.Identified v u e) (hw : s.Identified w u' e')
    (hc : ∀ c, g.contentOf? s v = .ok (some c) → g.alone u e c = false)
    (hd : ∀ d, g.contentOf? s w = .ok (some d) → g.alone u' e' d = false) :
    g.mayAlias s v w u u' = .ok true := by
  obtain ⟨c?, hc?⟩ := g.contentOf?_of_identified hv
  obtain ⟨d?, hd?⟩ := g.contentOf?_of_identified hw
  cases c? with
  | none => exact mayAlias_of_none hv hw (.inl hc?)
  | some c =>
    cases d? with
    | none => exact mayAlias_of_none hv hw (.inr hd?)
    | some d =>
      rw [mayAlias_eq hv hw hc? hd?, hc c hc?, hd d hd?, Bool.or_self, if_neg Bool.false_ne_true]

theorem not_alone_of_not_unique (g : Graph) (e : Bool) (c : NodeId) : g.alone false e c = false :=
  rfl

theorem not_alone_of_global (u e : Bool) (hc : (g.node c).state = .globalEscaping) :
    g.alone u e c = false := by
  rw [alone, hc]
  exact Bool.and_false u

/-- Contents of values of the same kind are compared with each other. -/
theorem sameContent_of_sameKind (h : s.SameKind v w) :
    g.sameContent s v w c d = .ok (decide (c = d)) := by
  unfold sameContent
  rcases h with ⟨hv, hw⟩ | ⟨hv, hw⟩
  · rw [hv, hw, Scope.isReference_of_isAddress hv, Scope.isReference_of_isAddress hw]
    rfl
  · rw [hv, hw, Scope.isAddress_of_isReference hv, Scope.isAddress_of_isReference hw]
    rfl

/-- Values of the same kind with the same content may alias. -/
theorem mayAlias_of_shared (hv : s.Identified v u e) (hw : s.Identified w u' e')
    (hkind : s.SameKind v w) (hshared : ∀ c d, g.contentOf? s v = .ok (some c) →
      g.contentOf? s w = .ok (some d) → c = d) :
    g.mayAlias s v w u u' = .ok true := by
  obtain ⟨c?, hc⟩ := g.contentOf?_of_identified hv
  obtain ⟨d?, hd⟩ := g.contentOf?_of_identified hw
  cases c? with
  | none => exact mayAlias_of_none hv hw (.inl hc)
  | some c =>
    cases d? with
    | none => exact mayAlias_of_none hv hw (.inr hd)
    | some d =>
      rw [mayAlias_eq hv hw hc hd, sameContent_of_sameKind hkind,
        decide_eq_true (hshared c d hc hd), ite_self]

end Graph

namespace Analysis

/-- The answer is that of the graph. This holds of a graph that was given up, too: no value has a
content in it. -/
theorem AtRest.mayAlias_eq (h : AtRest p a) (hf : a.info? f = some info)
    (hs : Scope.of? p f = some s) (hu : s.isUnique v = .ok u) (hu' : s.isUnique w = .ok u')
    (hb : info.graph.mayAlias s v w u u' = .ok b) : a.mayAlias p f v w = .ok (a, b) := by
  unfold Analysis.mayAlias
  rw [hs]
  dsimp only
  rw [hu, hu', ok_bind, ok_bind]
  split
  · rename_i hnot
    obtain ⟨rfl, rfl⟩ : u = false ∧ u' = false := by simpa using hnot
    rw [mayAlias_of_not_unique hb]
    rfl
  · cases hv : info.graph.valid with
    | true => exact h.askGraph_eq hf hs hv (fun g => g.mayAlias s v w u u') hb
    | false =>
      have hnone (x : ValueId) : info.graph.contentOf? s x = .ok none := by
        rw [contentOf?, nodeOf?, hv]
        rfl
      rw [Graph.mayAlias, hnone, hnone] at hb
      cases hb
      unfold Analysis.askGraph
      rw [h.infoFor_eq hf hs, ok_bind]
      dsimp only
      rw [hv]
      rfl

/-- Values of the same kind with the same content may alias, whichever is asked about first. -/
theorem AtRest.mayAlias_of_shared (h : AtRest p a) (hf : a.info? f = some info)
    (hs : Scope.of? p f = some s) (hid : s.Identified v u e) (hid' : s.Identified w u' e')
    (hkind : s.SameKind v w) (hshared : ∀ c d, info.graph.contentOf? s v = .ok (some c) →
      info.graph.contentOf? s w = .ok (some d) → c = d) :
    a.mayAlias p f v w = .ok (a, true) ∧ a.mayAlias p f w v = .ok (a, true) :=
  ⟨h.mayAlias_eq hf hs hid.isUnique hid'.isUnique (Graph.mayAlias_of_shared hid hid' hkind hshared),
    h.mayAlias_eq hf hs hid'.isUnique hid.isUnique
      (Graph.mayAlias_of_shared hid' hid hkind.symm fun d c hd hc => (hshared c d hc hd).symm)⟩

/-- The answer is that of the graph, too, if the question is where a value can escape to. -/
theorem AtRest.canEscapeTo_eq (h : AtRest p a) (hf : a.info? f = some info)
    (hs : Scope.of? p f = some s) (hv : info.graph.valid = true) (hu : s.isUnique v = .ok u)
    {user : InstId} (hb : info.graph.canEscapeTo s v user = .ok true) :
    a.canEscapeTo p f v user = .ok (a, true) := by
  unfold Analysis.canEscapeTo
  rw [hs]
  dsimp only
  rw [hu, ok_bind]
  cases u with
  | false => rfl
  | true => exact h.askGraph_eq hf hs hv (fun g => g.canEscapeTo s v user) hb

/-! ### What escapes globally -/

/-- What a global node points to is global. -/
theorem global_content (hcomplete : Update.Complete s blocks g) (hn : g.nodeOf? s v = .ok (some n))
    (hglobal : (g.node n).state = .globalEscaping) (hc : g.contentOf? s v = .ok (some c)) :
    (g.node c).state = .globalEscaping := by
  obtain ⟨m, hm, hcm⟩ := contentOf?_iff.mp hc
  cases hn.symm.trans hm
  obtain ⟨-, -, r, -, hat⟩ := nodeOf?_iff.mp hn
  have hle := hcomplete.closed n (hat.live hcomplete.settled).2 c
    (List.mem_append_left _ (Option.mem_toList.mpr hcm))
  rw [hglobal] at hle
  exact globalEscaping_le hle

/-- **Values that escape globally get conservative answers.** Take any run of requests on a program
in which every operand in a reachable block is undefined or a value of a reachable block. In a full
graph that was not given up, a value whose node escapes globally can escape to every instruction. It
may alias every value that is not unique, and every value whose node escapes globally as well. -/
theorem query_of_global (hp : p.Built) (hplaced : p.OperandsPlaced)
    (hstart : a.infos = {}) {requests : List Request} (hrun : a.run p requests = .ok a')
    (hf : a'.info? f = some info) (hs : Scope.of? p f = some s) (hv : info.graph.valid = true)
    (hn : info.graph.nodeOf? s v = .ok (some n))
    (hglobal : (info.graph.node n).state = .globalEscaping) :
    (∀ user, a'.canEscapeTo p f v user = .ok (a', true)) ∧
      ∀ w, (s.isUnique w = .ok false ∨ ∃ m, info.graph.nodeOf? s w = .ok (some m) ∧
          (info.graph.node m).state = .globalEscaping) →
        a'.mayAlias p f v w = .ok (a', true) ∧ a'.mayAlias p f w v = .ok (a', true) := by
  obtain ⟨hrest, -⟩ := (atRest_of_empty hstart).run hp.sound hrun
  obtain ⟨blocks, -, hcomplete⟩ := hrest.complete hf hs hv (hplaced f s hs)
  have hfunc := hp.sound.of? hs
  obtain ⟨u, e, hid⟩ := identified_of_node hfunc hn
  have halone (c : NodeId) (hc : info.graph.contentOf? s v = .ok (some c)) :
    info.graph.alone u e c = false :=
    not_alone_of_global u e (global_content hcomplete hn hglobal hc)
  refine ⟨fun user => ?_, fun w hw => ?_⟩
  · refine hrest.canEscapeTo_eq hf hs hv hid.isUnique ?_
    obtain ⟨c?, hc?⟩ := info.graph.contentOf?_of_identified hid
    obtain ⟨r, hr, he⟩ := hid.root
    unfold Graph.canEscapeTo
    rw [hc?, ok_bind]
    cases c? with
    | none => rfl
    | some c =>
      have hc := global_content hcomplete hn hglobal hc?
      obtain ⟨m, -, hcm⟩ := contentOf?_iff.mp hc?
      dsimp only
      rw [hr, ok_bind, he, ok_bind,
        someInterior_of_test (hcomplete.settled.live_content hcm).1 (by rw [hc]; rfl)]
      rfl
  · obtain ⟨u', e', hid', halone'⟩ : ∃ u' e', s.Identified w u' e' ∧
        ∀ d, info.graph.contentOf? s w = .ok (some d) → info.graph.alone u' e' d = false := by
      rcases hw with hw | ⟨m, hm, hm'⟩
      · obtain ⟨e', hid'⟩ := Scope.identified hfunc hw
        exact ⟨false, e', hid', fun d _ => info.graph.not_alone_of_not_unique e' d⟩
      · obtain ⟨u', e', hid'⟩ := identified_of_node hfunc hm
        exact ⟨u', e', hid', fun d hd => not_alone_of_global u' e'
          (global_content hcomplete hm hm' hd)⟩
    exact ⟨hrest.mayAlias_eq hf hs hid.isUnique hid'.isUnique
      (mayAlias_of_not_alone hid hid' halone halone'),
      hrest.mayAlias_eq hf hs hid'.isUnique hid.isUnique
      (mayAlias_of_not_alone hid' hid halone' halone)⟩

/-- The first object of the third function is published by a callee, which also returns it. It may
be the result of the call, and can escape to the release of the result. -/
theorem query_of_global_published : ∃ a',
    (ofConfig Preset.balanced.config).run nodes [.lookup ⟨2⟩] = .ok a' ∧ ∃ info ∈ a'.info? ⟨2⟩,
    ∃ s ∈ Scope.of? nodes ⟨2⟩, info.graph.nodeOf? s ⟨0⟩ = .ok (some ⟨0⟩) ∧
      (info.graph.node ⟨0⟩).state = .globalEscaping ∧ s.isUnique ⟨0⟩ = .ok true ∧
      s.isUnique ⟨1⟩ = .ok false ∧ (∀ user, a'.canEscapeTo nodes ⟨2⟩ ⟨0⟩ user = .ok (a', true)) ∧
      a'.mayAlias nodes ⟨2⟩ ⟨0⟩ ⟨1⟩ = .ok (a', true) ∧
      a'.mayAlias nodes ⟨2⟩ ⟨1⟩ ⟨0⟩ = .ok (a', true) := by
  have hrun : ∃ a', (ofConfig Preset.balanced.config).run nodes [.lookup ⟨2⟩] = .ok a' ∧
      ∃ info ∈ a'.info? ⟨2⟩, ∃ s ∈ Scope.of? nodes ⟨2⟩, info.graph.valid = true ∧
        info.graph.nodeOf? s ⟨0⟩ = .ok (some ⟨0⟩) ∧ (info.graph.node ⟨0⟩).state = .globalEscaping ∧
        s.isUnique ⟨0⟩ = .ok true ∧ s.isUnique ⟨1⟩ = .ok false := by
    decide +kernel
  obtain ⟨a', hrun, info, hf, s, hs, hv, hn, hglobal, hunique, hother⟩ := hrun
  obtain ⟨hescape, halias⟩ := query_of_global nodes_built nodes_placed rfl hrun hf hs hv hn hglobal
  exact ⟨a', hrun, info, hf, s, hs, hn, hglobal, hunique, hother, hescape, halias ⟨1⟩ (.inl hother)⟩

end Analysis

end Escape
