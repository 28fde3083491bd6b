import Escape.Proofs.Program.Built
import Escape.Scope

/-!
# Scopes of sound functions

In a sound function a value is younger than its base, so following bases comes to an end, and what
is asked about a value that exists has an answer.

- `Scope.root_spec`: the root of a value has no base.
- `Scope.root_of_base?`: a value has the root of its base.
- `Scope.isUnique_ok`: whether a value is unique can be told.
- `Scope.argument_spec`, `Scope.result_spec`: parameters, and results of instructions.
-/

namespace Escape

namespace Scope

variable {s : Scope} {v r b : ValueId} {x : Value} {i : InstId} {inst : Inst} {op : Operation}

/-- A value that may enter a graph. -/
abbrev Defined (s : Scope) (v : ValueId) : Prop := s.isUndefined v = .ok false

/-- A value that is not a parameter. -/
abbrev Inner (s : Scope) (v : ValueId) : Prop := s.isArgument v = .ok false

/-! ### Origins -/

theorem isUndefined_of_value (hx : s.func.value v = .ok x) :
    s.isUndefined v = .ok (decide (x.origin = .undefined)) := by
  rw [isUndefined, hx]
  rfl

theorem argumentIndex?_of_value (hx : s.func.value v = .ok x) : s.func.argumentIndex? v =
    .ok (match x.origin with
      | .argument i => some i
      | _ => none) := by
  rw [Func.argumentIndex?, hx, ok_bind]
  cases x.origin <;> rfl

/-- What defines a value is known, and reads older values. -/
theorem definition?_of_value (ho : s.func.Ordered) (hx : s.func.value v = .ok x) :
    ∃ op?, s.func.definition? v = .ok op? ∧ ∀ op, op? = some op → ∀ o ∈ op.operands,
    o.index < v.index := by
  rw [Func.definition?, Func.definer?, hx, ok_bind]
  cases horigin : x.origin with
  | result i k =>
    obtain ⟨inst, hinst, hlt⟩ := ho v.index x i k (Checked.get_ok.mp hx) horigin
    have hinst : s.func.inst i = .ok inst := Checked.get_ok.mpr hinst
    refine ⟨some inst.op, ?_, fun op hop => ?_⟩
    · rw [pure_bind]
      simp only [hinst, ok_bind]
      rfl
    · cases hop
      exact hlt
  | argument k => exact ⟨none, rfl, nofun⟩
  | blockArg b k => exact ⟨none, rfl, nofun⟩
  | undefined => exact ⟨none, rfl, nofun⟩

/-- Only values have definitions. -/
theorem value_of_definition? {op? : Option Operation} (h : s.func.definition? v = .ok op?) :
    ∃ x, s.func.value v = .ok x := by
  obtain ⟨i?, hi, -⟩ := bind_ok.mp h
  obtain ⟨x, hx, -⟩ := bind_ok.mp hi
  exact ⟨x, hx⟩

theorem value_of_isPointer {p : Bool} (h : s.isPointer v = .ok p) :
    ∃ x, s.func.value v = .ok x := by
  obtain ⟨k, hk, -⟩ := bind_ok.mp h
  obtain ⟨ty, hty, -⟩ := bind_ok.mp hk
  obtain ⟨x, hx, -⟩ := bind_ok.mp hty
  exact ⟨x, hx⟩

/-! ### Bases and roots -/

/-- A sole pointer is one of the values. -/
theorem mem_of_solePointer? : ∀ {vs : List ValueId}, s.solePointer? vs = .ok (some b) → b ∈ vs
  | [], h => by cases h
  | v :: vs, h => by
    obtain ⟨p, -, h⟩ := bind_ok.mp h
    cases p with
    | true =>
      obtain ⟨q, -, h⟩ := bind_ok.mp h
      cases q with
      | true =>
        cases h
        exact List.mem_cons_self
      | false => cases h
    | false => exact List.mem_cons_of_mem _ (mem_of_solePointer? h)

/-- A base is an operand. -/
theorem mem_operands_of_baseOf? (h : s.baseOf? v op = .ok (some b)) : b ∈ op.operands := by
  unfold baseOf? at h
  split at h
  case h_14 =>
    obtain ⟨k, -, h⟩ := bind_ok.mp h
    obtain ⟨k', -, h⟩ := bind_ok.mp h
    obtain ⟨-, hb⟩ := Option.ite_none_right_eq_some.mp (Checked.pure_ok.mp h)
    cases hb
    exact List.mem_singleton_self _
  case h_15 | h_16 => exact mem_of_solePointer? h
  case h_17 =>
    obtain ⟨p, -, h⟩ := bind_ok.mp h
    obtain ⟨-, hb⟩ := Option.ite_none_right_eq_some.mp (Checked.pure_ok.mp h)
    cases hb
    exact List.mem_singleton_self _
  case h_18 => cases h
  all_goals
    cases h
    exact List.mem_cons_self

/-- **A value is younger than its base.** -/
theorem base?_lt (ho : s.func.Ordered) (h : s.base? v = .ok (some b)) : b.index < v.index := by
  obtain ⟨op?, hop, h⟩ := bind_ok.mp h
  obtain ⟨x, hx⟩ := value_of_definition? hop
  obtain ⟨op?', hop', hlt⟩ := definition?_of_value ho hx
  cases hop.symm.trans hop'
  cases op? with
  | none => cases h
  | some op => exact hlt op rfl b (mem_operands_of_baseOf? h)

/-- With a bound above the value the search ends at a root. -/
theorem chase_spec (ho : s.func.Ordered) : ∀ (bound : Nat) (v : ValueId), v.index < bound →
    s.chase bound v = .ok r → s.base? r = .ok none ∧ r.index ≤ v.index := by
  intro bound
  induction bound with
  | zero => exact fun v hv => absurd hv (Nat.not_lt_zero _)
  | succ bound ih =>
    intro v hv h
    obtain ⟨b?, hb, h⟩ := bind_ok.mp h
    cases b? with
    | none =>
      cases h
      exact ⟨hb, Nat.le_refl _⟩
    | some b =>
      have hlt := base?_lt ho hb
      obtain ⟨hroot, hle⟩ := ih b (by omega) h
      exact ⟨hroot, by omega⟩

/-- A value without a base is its own root. -/
theorem root_of_base?_none (h : s.base? v = .ok none) : s.root v = .ok v := by
  unfold root
  cases s.func.values.size with
  | zero => rfl
  | succ k =>
    rw [chase, h]
    rfl

theorem lt_size_of_value (hx : s.func.value v = .ok x) : v.index < s.func.values.size :=
  (Array.getElem?_eq_some_iff.mp (Checked.get_ok.mp hx)).1

/-- **The root of a value** has no base, and is its own root. -/
theorem root_spec (hs : s.func.Sound) (hx : s.func.value v = .ok x) (hr : s.root v = .ok r) :
    s.base? r = .ok none ∧ s.root r = .ok r := by
  obtain ⟨hbase, -⟩ := chase_spec hs.ordered _ v (lt_size_of_value hx) hr
  exact ⟨hbase, root_of_base?_none hbase⟩

/-- How far bases may be followed does not matter, once it is further than the value is old. -/
theorem chase_of_lt (ho : s.func.Ordered) : ∀ (bound bound' : Nat) (v : ValueId), v.index < bound →
    v.index < bound' → s.chase bound v = s.chase bound' v := by
  intro bound
  induction bound with
  | zero => exact fun bound' v hv => absurd hv (Nat.not_lt_zero _)
  | succ bound ih =>
    intro bound' v hv hv'
    obtain ⟨bound', rfl⟩ := Nat.exists_eq_succ_of_ne_zero (Nat.ne_zero_of_lt hv')
    rw [chase, chase]
    cases hb : s.base? v with
    | error e => rfl
    | ok b? =>
      cases b? with
      | none => rfl
      | some b =>
        have hlt := base?_lt ho hb
        exact ih bound' b (by omega) (by omega)

theorem value_of_base? {b? : Option ValueId} (h : s.base? v = .ok b?) :
    ∃ x, s.func.value v = .ok x := by
  obtain ⟨op?, hop, -⟩ := bind_ok.mp h
  exact value_of_definition? hop

/-- **A value has the root of its base.** -/
theorem root_of_base? (ho : s.func.Ordered) (h : s.base? v = .ok (some b)) :
    s.root v = s.root b := by
  obtain ⟨x, hx⟩ := value_of_base? h
  have hlt := base?_lt ho h
  have hv := lt_size_of_value hx
  obtain ⟨k, hk⟩ := Nat.exists_eq_succ_of_ne_zero (Nat.ne_zero_of_lt hv)
  rw [root, root, hk, chase, h, ok_bind]
  exact chase_of_lt ho _ _ b (by omega) (by omega)

/-! Every value of a sound function has a root. -/

theorem value_of_lt (h : v.index < s.func.values.size) : ∃ x, s.func.value v = .ok x :=
  ⟨_, Checked.get_ok.mpr (Array.getElem?_eq_getElem h)⟩

theorem isPointer_of_value (hx : s.func.value v = .ok x) : ∃ b, s.isPointer v = .ok b := by
  rw [isPointer, kind, Func.typeOf, hx]
  exact ⟨_, rfl⟩

theorem noPointer_ok : ∀ {vs : List ValueId}, (∀ v ∈ vs, ∃ x, s.func.value v = .ok x) →
    ∃ b, solePointer?.noPointer s vs = .ok b
  | [], _ => ⟨true, rfl⟩
  | v :: vs, h => by
    obtain ⟨x, hx⟩ := h v List.mem_cons_self
    obtain ⟨b, hb⟩ := isPointer_of_value hx
    rw [solePointer?.noPointer, hb]
    cases b with
    | true => exact ⟨false, rfl⟩
    | false => exact noPointer_ok fun w hw => h w (List.mem_cons_of_mem _ hw)

theorem solePointer?_ok : ∀ {vs : List ValueId}, (∀ v ∈ vs, ∃ x, s.func.value v = .ok x) →
    ∃ b?, s.solePointer? vs = .ok b?
  | [], _ => ⟨none, rfl⟩
  | v :: vs, h => by
    obtain ⟨x, hx⟩ := h v List.mem_cons_self
    obtain ⟨b, hb⟩ := isPointer_of_value hx
    have hrest (w : ValueId) (hw : w ∈ vs) := h w (List.mem_cons_of_mem _ hw)
    rw [solePointer?, hb]
    cases b with
    | true =>
      obtain ⟨q, hq⟩ := noPointer_ok hrest
      exact ⟨if q then some v else none, by rw [ok_bind, if_pos rfl, hq]; rfl⟩
    | false => exact solePointer?_ok hrest

theorem baseOf?_ok (hx : s.func.value v = .ok x)
    (hops : ∀ o ∈ op.operands, ∃ y, s.func.value o = .ok y) : ∃ b?, s.baseOf? v op = .ok b? := by
  unfold baseOf?
  split
  case h_14 o =>
    obtain ⟨y, hy⟩ := hops o List.mem_cons_self
    rw [kind, kind, Func.typeOf, Func.typeOf, hy, hx]
    exact ⟨_, rfl⟩
  case h_15 | h_16 => exact solePointer?_ok hops
  case h_17 o =>
    obtain ⟨y, hy⟩ := hops o List.mem_cons_self
    obtain ⟨b, hb⟩ := isPointer_of_value hy
    exact ⟨if b then some o else none, by rw [hb]; rfl⟩
  all_goals exact ⟨_, rfl⟩

/-- Every value can be asked for its base. -/
theorem base?_ok (ho : s.func.Ordered) (hx : s.func.value v = .ok x) :
    ∃ b?, s.base? v = .ok b? := by
  obtain ⟨op?, hop, hlt⟩ := definition?_of_value ho hx
  rw [base?, hop, ok_bind]
  cases op? with
  | none => exact ⟨none, rfl⟩
  | some op =>
    refine baseOf?_ok hx fun o hmem => value_of_lt ?_
    exact Nat.lt_trans (hlt op rfl o hmem) (lt_size_of_value hx)

theorem chase_ok (ho : s.func.Ordered) :
    ∀ (bound : Nat) (v : ValueId), v.index < s.func.values.size → ∃ r, s.chase bound v = .ok r := by
  intro bound
  induction bound with
  | zero => exact fun v _ => ⟨v, rfl⟩
  | succ bound ih =>
    intro v hv
    obtain ⟨x, hx⟩ := value_of_lt hv
    obtain ⟨b?, hb⟩ := base?_ok ho hx
    rw [chase, hb, ok_bind]
    cases b? with
    | none => exact ⟨v, rfl⟩
    | some b => exact ih b (Nat.lt_trans (base?_lt ho hb) hv)

/-- Every value can be asked for its root. -/
theorem root_ok (ho : s.func.Ordered) (hx : s.func.value v = .ok x) : ∃ r, s.root v = .ok r :=
  chase_ok ho _ v (lt_size_of_value hx)

/-! ### Unique values -/

section

variable (hs : s.func.Sound)
include hs

theorem isExclusive_ok (hx : s.func.value v = .ok x) : ∃ e, s.isExclusive v = .ok e := by
  rw [isExclusive, Func.isExclusive, argumentIndex?_of_value hx, ok_bind]
  cases ho : x.origin with
  | argument i =>
    obtain ⟨-, hi⟩ := hs.argument v.index x i (Checked.get_ok.mp hx) ho
    refine ⟨s.func.params[i].convention = .exclusive, ?_⟩
    simp only [List.getElem?_eq_getElem hi]
    rfl
  | blockArg b k => exact ⟨_, rfl⟩
  | result i k => exact ⟨_, rfl⟩
  | undefined => exact ⟨_, rfl⟩

theorem isUnique_ok (hx : s.func.value v = .ok x) (hr : s.root v = .ok r) :
    ∃ u, s.isUnique v = .ok u := by
  obtain ⟨hbase, hroot⟩ := root_spec hs hx hr
  obtain ⟨y, hy⟩ := value_of_base? hbase
  obtain ⟨op?, hop, -⟩ := definition?_of_value hs.ordered hy
  have hlocal : ∃ l, s.isLocal r = .ok l := by
    rw [isLocal, localObject?, hroot, ok_bind, hop, ok_bind]
    cases op? with
    | none => exact ⟨_, rfl⟩
    | some op => exact ⟨_, rfl⟩
  obtain ⟨l, hl⟩ := hlocal
  rw [isUnique, hr, ok_bind, hl, ok_bind]
  cases l with
  | true => exact ⟨true, rfl⟩
  | false => exact isExclusive_ok hs hy

/-! ### Parameters and results -/

/-- The arguments are the first values. -/
theorem arguments_eq :
    s.func.arguments = .ok ((List.range s.func.params.length).map ValueId.mk) := by
  obtain ⟨blk, hblk, hargs⟩ := hs.entry
  have hblk : s.func.block Func.entry = .ok blk := Checked.get_ok.mpr hblk
  rw [Func.arguments, hblk, ok_bind, hargs]
  rfl

/-- The parameters are the first values. -/
theorem argument_index {args : List ValueId} (hargs : s.func.arguments = .ok args)
    {j : Nat} (hj : args[j]? = some v) : v.index = j := by
  rw [arguments_eq hs] at hargs
  cases hargs
  obtain ⟨hlt, rfl⟩ := List.getElem?_eq_some_iff.mp hj
  rw [List.getElem_map, List.getElem_range]

/-- A parameter is a root that may enter a graph. -/
theorem argument_spec {args : List ValueId} (hargs : s.func.arguments = .ok args)
    (hv : v ∈ args) : s.Defined v ∧ s.isArgument v = .ok true ∧ s.root v = .ok v ∧
      s.isFunctionRef v = .ok false := by
  rw [arguments_eq hs] at hargs
  cases hargs
  obtain ⟨i, hi, rfl⟩ := List.mem_map.mp hv
  obtain ⟨x, hx, ho⟩ := hs.params i (List.mem_range.mp hi)
  have hx : s.func.value ⟨i⟩ = .ok x := Checked.get_ok.mpr hx
  have hdef : s.func.definition? ⟨i⟩ = .ok none := by
    rw [Func.definition?, Func.definer?, hx, ok_bind, ho]
    rfl
  refine ⟨?_, ?_, root_of_base?_none ?_, ?_⟩
  · rw [Defined, isUndefined_of_value hx, ho]
    rfl
  · rw [isArgument, argumentIndex?_of_value hx, ho]
    rfl
  · rw [base?, hdef]
    rfl
  · rw [isFunctionRef, hdef]
    rfl

end

/-- A result may enter a graph, and is not a parameter. -/
theorem result_spec (hs : s.func.ResultsTraced) (hinst : s.func.inst i = .ok inst)
    (hr : r ∈ inst.results) : s.Defined r ∧ s.Inner r := by
  obtain ⟨x, k, hx, ho⟩ := hs i.index inst (Checked.get_ok.mp hinst) r hr
  have hx : s.func.value r = .ok x := Checked.get_ok.mpr hx
  constructor
  · rw [Defined, isUndefined_of_value hx, ho]
    rfl
  · rw [Inner, isArgument, argumentIndex?_of_value hx, ho]
    rfl

end Scope

end Escape
