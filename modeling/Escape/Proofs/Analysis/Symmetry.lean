import Escape.Proofs.Analysis.Aliasing

/-!
# Aliasing in both directions

Whether two values may address the same memory does not depend on which of them is named first, and
a value may always alias itself. A question that gets no answer stops while graphs are computed,
whichever values it is about. This does happen to programs that are in order.

- `Graph.sameContent_comm`, `Graph.mayAlias_comm`, `Graph.mayAlias_self`: the answers of one graph.
- `Analysis.AtRest.askGraph_again`: asking once more gives the same answer.
- `Analysis.mayAlias_both_ways`: **answers are symmetric, reflexive and lasting**, if there are any.
-/

namespace Escape

open Escape.Graph

variable {p : Program} {s : Scope} {f : FuncId} {a a' : Analysis} {v w : ValueId} {g : Graph}
  {c d : NodeId} {u u' e e' b : Bool}

/-! ### Kinds of values -/

namespace Scope

/-- The types of all values are in the table. -/
def Typed (s : Scope) : Prop := ∀ x ∈ s.func.values, x.ty.index < s.program.types.size

instance (s : Scope) : Decidable s.Typed := inferInstanceAs (Decidable (∀ x ∈ s.func.values, _))

/-- The value is known to be an address or not, and to be a reference to an object or not. -/
structure Kinded (s : Scope) (v : ValueId) (address reference : Bool) : Prop where
  isAddress : s.isAddress v = .ok address
  isReference : s.isReference v = .ok reference
  disjoint : (address && reference) = false

theorem Typed.kinded (ht : s.Typed) {x : Value} (hx : s.func.value v = .ok x) :
    ∃ address reference, s.Kinded v address reference := by
  have hty : s.func.typeOf v = .ok x.ty := by
    rw [Func.typeOf, hx]
    rfl
  obtain ⟨t, hget⟩ : ∃ t, s.program.types.get x.ty = .ok t := by
    have hlt := ht x (Array.mem_of_getElem? (Checked.get_ok.mp hx))
    rw [TypeTable.get, Checked.get_ok.mpr (Array.getElem?_eq_getElem hlt)]
    exact ⟨_, rfl⟩
  cases t with
  | address inner =>
    have haddress : s.isAddress v = .ok true := by
      rw [isAddress, hty, ok_bind, TypeTable.isAddress, TypeTable.pointee?, hget]
      rfl
    exact ⟨true, false, haddress, isReference_of_isAddress haddress, rfl⟩
  | object _ | box _ =>
    have hreference : s.isReference v = .ok true := by
      rw [isReference, hty, ok_bind, hget]
      rfl
    exact ⟨false, true, isAddress_of_isReference hreference, hreference, rfl⟩
  | _ =>
    refine ⟨false, false, ?_, ?_, rfl⟩
    · rw [isAddress, hty, ok_bind, TypeTable.isAddress, TypeTable.pointee?, hget]
      rfl
    · rw [isReference, hty, ok_bind, hget]
      rfl

end Scope

/-! ### The answers of a graph -/

namespace Graph

variable {address reference address' reference' : Bool}

theorem sameContent_eq (hv : s.Kinded v address reference) (hw : s.Kinded w address' reference') :
    g.sameContent s v w c d = .ok (
      if (address && address') || (reference && reference') then decide (c = d)
      else if address && reference' then decide (some c = g.fieldContent? d)
      else if address' && reference then decide (g.fieldContent? c = some d)
      else true) := by
  simp only [sameContent, hv.isAddress, hv.isReference, hw.isAddress, hw.isReference, ok_bind]
  split
  · rfl
  · split
    · rfl
    · split <;> rfl

/-- Contents are compared in the same way from both sides. -/
theorem sameContent_comm (hv : s.Kinded v address reference) (hw : s.Kinded w address' reference') :
    ∃ b, g.sameContent s v w c d = .ok b ∧ g.sameContent s w v d c = .ok b := by
  rw [sameContent_eq hv hw, sameContent_eq hw hv]
  refine ⟨_, rfl, congrArg Except.ok ?_⟩
  cases address <;> cases reference <;> cases address' <;> cases reference' <;> simp_all [eq_comm]

/-- A content is the same as itself. -/
theorem sameContent_self (hv : s.Kinded v address reference) :
    g.sameContent s v v c c = .ok true := by
  rw [sameContent_eq hv hv]
  cases address <;> cases reference <;> simp_all

/-- **A graph gives the same answer in both directions.** -/
theorem mayAlias_comm (g : Graph) (hid : s.Identified v u e) (hid' : s.Identified w u' e')
    (hv : s.Kinded v address reference) (hw : s.Kinded w address' reference') :
    ∃ b, g.mayAlias s v w u u' = .ok b ∧ g.mayAlias s w v u' u = .ok b := by
  obtain ⟨c?, hc⟩ := g.contentOf?_of_identified hid
  obtain ⟨d?, hd⟩ := g.contentOf?_of_identified hid'
  cases c? with
  | none => exact ⟨true, mayAlias_of_none hid hid' (.inl hc), mayAlias_of_none hid' hid (.inr hc)⟩
  | some c =>
    cases d? with
    | none => exact ⟨true, mayAlias_of_none hid hid' (.inr hd), mayAlias_of_none hid' hid (.inl hd)⟩
    | some d =>
      rw [mayAlias_eq hid hid' hc hd, mayAlias_eq hid' hid hd hc, Bool.or_comm (g.alone u' e' d)]
      split
      · exact sameContent_comm hv hw
      · exact ⟨true, rfl, rfl⟩

/-- **A value may alias itself** in every graph. -/
theorem mayAlias_self (g : Graph) (hid : s.Identified v u e) (hv : s.Kinded v address reference) :
    g.mayAlias s v v u u = .ok true := by
  obtain ⟨c?, hc⟩ := g.contentOf?_of_identified hid
  cases c? with
  | none => exact mayAlias_of_none hid hid (.inl hc)
  | some c => rw [mayAlias_eq hid hid hc hc, sameContent_self hv, ite_self]

end Graph

/-! ### The answers of an analysis -/

namespace Analysis

/-- A question that every graph answers stops only if the graphs of the function cannot be computed.
-/
theorem askGraph_cases (hs : Scope.of? p f = some s) {question : Graph → Checked Bool}
    {Q : Bool → Prop} (htrue : Q true) (hq : ∀ g, ∃ b, question g = .ok b ∧ Q b) :
    (∃ a' b, a.askGraph p f question = .ok (a', b) ∧ Q b) ∨
      ∃ why, a.ensure p f = .error why ∧ a.askGraph p f question = .error why := by
  obtain ⟨-, -, hfunc⟩ := Scope.of?_spec hs
  unfold Analysis.askGraph Analysis.infoFor
  rw [hfunc, if_neg (by simp)]
  cases a.ensure p f with
  | error why => exact .inr ⟨why, rfl, rfl⟩
  | ok a₁ =>
    refine .inl ?_
    rw [ok_bind]
    cases a₁.info? f with
    | none => exact ⟨a, true, rfl, htrue⟩
    | some info =>
      obtain ⟨b, hb, hQ⟩ := hq info.graph
      rw [pure_bind]
      dsimp only
      split
      · exact ⟨a₁, b, by rw [hb]; rfl, hQ⟩
      · exact ⟨a₁, true, rfl, htrue⟩

/-- Asking once more gives the same answer, and computes nothing. -/
theorem AtRest.askGraph_again (h : AtRest p a) (hp : p.Sound) (hs : Scope.of? p f = some s)
    {question : Graph → Checked Bool} (hok : a.askGraph p f question = .ok (a', b)) :
    a'.askGraph p f question = .ok (a', b) := by
  obtain ⟨r, hinfo, hrest⟩ := bind_ok.mp hok
  rcases h.infoFor hp hinfo with ⟨why, rfl⟩ | ⟨a₁, info, rfl, hlearns, hf⟩
  · cases hrest
    exact hok
  · have ha : a' = a₁ := by
      dsimp only at hrest
      split at hrest
      · obtain ⟨b', -, hrest⟩ := bind_ok.mp hrest
        cases hrest
        rfl
      · cases hrest
        rfl
    subst ha
    unfold Analysis.askGraph
    rw [hlearns.rest.infoFor_eq hf hs, ok_bind]
    exact hrest

/-- A question about two values that can be told unique or not. -/
theorem mayAlias_of_unique (hs : Scope.of? p f = some s) (hu : s.isUnique v = .ok u)
    (hu' : s.isUnique w = .ok u') : a.mayAlias p f v w =
    if !u && !u' then .ok (a, true) else a.askGraph p f fun g => g.mayAlias s v w u u' := by
  unfold Analysis.mayAlias
  rw [hs]
  dsimp only
  rw [hu, hu', ok_bind, ok_bind]
  rfl

/-- **Aliasing is symmetric and reflexive**, unless there is no answer. Take any run of requests on
a built program, and two values of a function whose values have types of the table. If the graphs of
the function can be computed, the question whether the values may alias is answered. The answer is
the same for the two values in the other order, it is the same when it is asked for again, and it is
`true` for a value and itself. If the graphs cannot be computed, the question stops as the
computation does, in whichever order the values are named. -/
theorem mayAlias_both_ways (hp : p.Built) (hstart : a.infos = {}) {requests : List Request}
    (hrun : a.run p requests = .ok a') (hs : Scope.of? p f = some s) (ht : s.Typed)
    (hv : v.index < s.func.values.size) (hw : w.index < s.func.values.size) :
    (∃ a'' b, (a'.mayAlias p f v w = .ok (a'', b) ∧ a'.mayAlias p f w v = .ok (a'', b)) ∧
      (a''.mayAlias p f v w = .ok (a'', b) ∧ a''.mayAlias p f w v = .ok (a'', b)) ∧
        (v = w → b = true)) ∨
    ∃ why, a'.ensure p f = .error why ∧ a'.mayAlias p f v w = .error why ∧
    a'.mayAlias p f w v = .error why := by
  obtain ⟨hrest, -⟩ := (atRest_of_empty hstart).run hp.sound hrun
  have hfunc := hp.sound.of? hs
  obtain ⟨x, hx⟩ := Scope.value_of_lt hv
  obtain ⟨y, hy⟩ := Scope.value_of_lt hw
  obtain ⟨u, e, hid⟩ := Scope.identified_of_value hfunc hx
  obtain ⟨u', e', hid'⟩ := Scope.identified_of_value hfunc hy
  obtain ⟨address, reference, hkind⟩ := ht.kinded hx
  obtain ⟨address', reference', hkind'⟩ := ht.kinded hy
  have hforth (a : Analysis) := mayAlias_of_unique (a := a) hs hid.isUnique hid'.isUnique
  -- the two questions are the same to every graph
  have hback (a : Analysis) : a.mayAlias p f w v = a.mayAlias p f v w := by
    rw [mayAlias_of_unique hs hid'.isUnique hid.isUnique, hforth, Bool.and_comm (!u')]
    congr 2
    funext g
    obtain ⟨b, hb, hb'⟩ := g.mayAlias_comm hid hid' hkind hkind'
    rw [hb, hb']
  simp only [hback, and_self]
  have hquestion (g : Graph) : ∃ b, g.mayAlias s v w u u' = .ok b ∧ (v = w → b = true) := by
    obtain ⟨b, hb, -⟩ := g.mayAlias_comm hid hid' hkind hkind'
    refine ⟨b, hb, fun hvw => ?_⟩
    subst hvw
    cases hid.isUnique.symm.trans hid'.isUnique
    cases hb.symm.trans (g.mayAlias_self hid hkind)
    rfl
  simp only [hforth]
  split
  · exact .inl ⟨a', true, rfl, rfl, fun _ => rfl⟩
  · refine (askGraph_cases hs (fun _ => rfl) hquestion).imp_left ?_
    rintro ⟨a'', b, hok, hself⟩
    exact ⟨a'', b, hok, hrest.askGraph_again hp.sound hs hok, hself⟩

/-- In the third function of the example the two new nodes are told apart, in both directions. The
address of the field of the second one may be in the memory that the second one points to. The first
question computes the graphs. -/
theorem mayAlias_both_ways_nodes : ∃ a' a'' : Analysis,
    ((ofConfig Preset.balanced.config).mayAlias nodes ⟨2⟩ ⟨2⟩ ⟨0⟩ = .ok (a', false) ∧
      a'.mayAlias nodes ⟨2⟩ ⟨0⟩ ⟨2⟩ = .ok (a', false)) ∧
    ((ofConfig Preset.balanced.config).mayAlias nodes ⟨2⟩ ⟨2⟩ ⟨3⟩ = .ok (a'', true) ∧
      a''.mayAlias nodes ⟨2⟩ ⟨3⟩ ⟨2⟩ = .ok (a'', true)) := by
  have hscope : ∃ s ∈ Scope.of? nodes ⟨2⟩, s.Typed ∧ s.func.values.size = 4 := by decide +kernel
  obtain ⟨s, hs, ht, hsize⟩ := hscope
  have hrun : (ofConfig Preset.balanced.config).run nodes [] =
    .ok (ofConfig Preset.balanced.config) := rfl
  have hanswer (w : ValueId) (b : Bool) (hw : w.index < 4)
      (heval : ((ofConfig Preset.balanced.config).mayAlias nodes ⟨2⟩ ⟨2⟩ w).map Prod.snd = .ok b) :
      ∃ a', (ofConfig Preset.balanced.config).mayAlias nodes ⟨2⟩ ⟨2⟩ w = .ok (a', b) ∧
        a'.mayAlias nodes ⟨2⟩ w ⟨2⟩ = .ok (a', b) := by
    have htwo : (⟨2⟩ : ValueId).index < s.func.values.size := by
      rw [hsize]
      decide
    rcases mayAlias_both_ways nodes_built rfl hrun hs ht htwo (hsize ▸ hw) with
      ⟨a', b', ⟨hforth, -⟩, ⟨-, hback⟩, -⟩ | ⟨why, -, hstop, -⟩
    · rw [hforth] at heval
      cases heval
      exact ⟨a', hforth, hback⟩
    · rw [hstop] at heval
      cases heval
  obtain ⟨a', hfirst⟩ := hanswer ⟨0⟩ false (by decide) (by decide +kernel)
  obtain ⟨a'', hsecond⟩ := hanswer ⟨3⟩ true (by decide) (by decide +kernel)
  exact ⟨a', a'', hfirst, hsecond⟩

end Analysis

/-- Steps that build a function that stores a node at an address, and passes the address of a field
of the node on to itself. -/
def relaySteps : List Step := [
  .intern (.object { name := "Node" }),
  .setFields ⟨0⟩ [⟨0⟩],
  .internUnique (.address ⟨0⟩),
  .declare "relay" [⟨⟨0⟩, .guaranteed⟩, ⟨⟨1⟩, .exclusive⟩] (some ⟨0⟩),
  .value ⟨0⟩ (.refElementAddr ⟨0⟩ 0) none,
  .inst ⟨0⟩ (.store ⟨0⟩ ⟨1⟩) none,
  .value ⟨0⟩ (.load ⟨2⟩) none,
  .value ⟨0⟩ (.call (.direct ⟨0⟩) [⟨0⟩, ⟨2⟩] none) (some ⟨0⟩),
  .inst ⟨0⟩ (.ret (some ⟨3⟩)) none]

/-- The program with that function. -/
def relay : Program := (built relaySteps).program

/-- **A value without an answer.** The program is built, and its types are in the table, but the
question whether the address parameter may alias itself stops at an edge to a merged node. -/
theorem mayAlias_self_stops : relay.Built ∧ ∃ s ∈ Scope.of? relay ⟨0⟩, s.Typed ∧
    (⟨1⟩ : ValueId).index < s.func.values.size ∧
    ((Analysis.ofConfig Preset.balanced.config).mayAlias relay ⟨0⟩ ⟨1⟩ ⟨1⟩).map Prod.snd =
    .error .edgeToMerged := by
  refine ⟨built_program (by decide +kernel), ?_⟩
  decide +kernel

end Escape
