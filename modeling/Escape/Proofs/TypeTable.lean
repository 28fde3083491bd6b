import Escape.Proofs.Checked
import Escape.TypeTable
import Mathlib.Order.Bounds.Basic

/-!
# Cached kinds stay right

The pointer kind of a type is worked out when the type is interned, from the kinds that its parts
have in the table by then. The parts of an aggregate come before it and keep their kinds. The one
thing that changes later is a class, which is a reference whatever it holds. So a cached kind is at
any time the one that the table as it stands gives by recursion, also where classes refer to each
other in a circle.

- `TypeTable.Op`, `TypeTable.build`: the operations on a table, and sequences of them.
- `TypeTable.kind_exact`: **cached kinds are the kinds by recursion.**
-/

namespace Escape

/-- The kind of a compound is the least one above the kinds of all parts. -/
theorem PointerKind.joinAll_isLUB (ks : List PointerKind) : IsLUB {k | k ∈ ks} (joinAll ks) := by
  suffices H : ∀ (ks : List PointerKind) (acc : PointerKind), acc ≤ ks.foldl join acc ∧
      (∀ k ∈ ks, k ≤ ks.foldl join acc) ∧ ∀ b, acc ≤ b → (∀ k ∈ ks, k ≤ b) →
      ks.foldl join acc ≤ b by
    obtain ⟨-, hupper, hleast⟩ := H ks noPointer
    exact ⟨hupper, fun b hb => hleast b (Nat.zero_le _) hb⟩
  intro ks
  induction ks with
  | nil =>
    exact fun acc => ⟨Nat.le_refl _, fun _ hk => absurd hk List.not_mem_nil, fun b hacc _ => hacc⟩
  | cons k ks ih =>
    intro acc
    obtain ⟨hacc, hks, hleast⟩ := ih (join acc k)
    refine ⟨le_trans (le_join_left acc k) hacc, List.forall_mem_cons.mpr ⟨?_, hks⟩,
      fun b hb hall => ?_⟩
    · exact le_trans (le_join_right acc k) hacc
    · obtain ⟨hk, hks⟩ := List.forall_mem_cons.mp hall
      exact hleast b (join_le hb hk) hks

/-- The types of the elements, if the type is an aggregate. -/
def Ty.elements : Ty → List TypeId
  | .aggregate elements => elements
  | .scalar | .rawPointer | .object _ | .box _ | .address _ | .function _ | .unknown => []

namespace TypeTable

variable {t t' : TypeTable} {id : TypeId} {ty : Ty} {k : PointerKind}

/-- The kind of a type, by recursion on the type that the table holds under its name. An aggregate
has the join of the kinds of its elements; all other kinds can be seen at once. -/
inductive HasKind (t : TypeTable) : TypeId → PointerKind → Prop
  | scalar {id : TypeId} (h : t.get id = .ok .scalar) : HasKind t id .noPointer
  | thinFunction {id : TypeId} (h : t.get id = .ok (.function false)) : HasKind t id .noPointer
  | object {id : TypeId} {c : ClassTy} (h : t.get id = .ok (.object c)) :
    HasKind t id .referenceOnly
  | box {id inner : TypeId} (h : t.get id = .ok (.box inner)) : HasKind t id .referenceOnly
  | thickFunction {id : TypeId} (h : t.get id = .ok (.function true)) : HasKind t id .referenceOnly
  | rawPointer {id : TypeId} (h : t.get id = .ok .rawPointer) : HasKind t id .anyPointer
  | address {id inner : TypeId} (h : t.get id = .ok (.address inner)) : HasKind t id .anyPointer
  | unknown {id : TypeId} (h : t.get id = .ok .unknown) : HasKind t id .anyPointer
  | aggregate {id : TypeId} {elements : List TypeId} {part : TypeId → PointerKind} {k : PointerKind}
      (h : t.get id = .ok (.aggregate elements)) (parts : ∀ e ∈ elements, HasKind t e (part e))
      (join : IsLUB {part e | e ∈ elements} k) : HasKind t id k

/-! ### Operations -/

/-- An operation on a table. Scalars, addresses and boxes are interned by `internUnique`. -/
inductive Op where
  | intern (ty : Ty)
  | internUnique (ty : Ty)
  | setFields (id : TypeId) (fields : List TypeId)
  | setDeinit (id : TypeId) (deinit : FuncId)

namespace Op

/-- Carries out an operation. -/
def apply (t : TypeTable) : Op → TypeTable
  | intern ty => (t.intern ty).1
  | internUnique ty => (t.internUnique ty).1
  | setFields id fields => t.setFields id fields
  | setDeinit id deinit => t.setDeinit id deinit

/-- The elements of an aggregate that is to be interned are in the table. The fields of a class need
not be. -/
def Grounded (t : TypeTable) : Op → Prop
  | intern ty | internUnique ty => ∀ p ∈ ty.elements, p.index < t.size
  | setFields _ _ | setDeinit _ _ => True

instance (t : TypeTable) : (op : Op) → Decidable (op.Grounded t)
  | intern ty | internUnique ty => inferInstanceAs (Decidable (∀ p ∈ ty.elements, p.index < t.size))
  | setFields _ _ | setDeinit _ _ => inferInstanceAs (Decidable True)

end Op

/-- Carries out operations in order, all of which have to be grounded. -/
def build (t : TypeTable) : List Op → Option TypeTable
  | [] => some t
  | op :: rest => if op.Grounded t then (op.apply t).build rest else none

/-! ### What operations keep -/

/-- Cached kinds agree with those of the parts, and the parts of an aggregate come before it. -/
structure Current (t : TypeTable) : Prop where
  kinds : ∀ (i : Nat) (e : TypeEntry), t.entries[i]? = some e → e.kind = t.kindOf e.ty
  earlier : ∀ (i : Nat) (e : TypeEntry), t.entries[i]? = some e → ∀ p ∈ e.ty.elements, p.index < i

/-- The kind of a type depends on nothing but the kinds of its elements. -/
theorem kindOf_congr (h : ∀ p ∈ ty.elements, t'.kind p = t.kind p) :
    t'.kindOf ty = t.kindOf ty := by
  cases ty with
  | aggregate elements => exact congrArg PointerKind.joinAll (List.map_congr_left h)
  | function thick => cases thick <;> rfl
  | scalar | rawPointer | object | box | address | unknown => rfl

theorem kindOf_aggregate_isLUB (t : TypeTable) (elements : List TypeId) :
    IsLUB {t.kind e | e ∈ elements} (t.kindOf (.aggregate elements)) := by
  have hjoin := PointerKind.joinAll_isLUB (elements.map t.kind)
  simp only [List.mem_map] at hjoin
  exact hjoin

/-- Known types keep their kinds. -/
theorem kind_intern (hid : id.index < t.size) (ty : Ty) : (t.intern ty).1.kind id = t.kind id := by
  have hne : id.index ≠ t.entries.size := Nat.ne_of_lt hid
  simp only [kind, intern, Array.getElem?_push, if_neg hne]

/-- Changing a class leaves the kind and the elements of every type alone. -/
theorem of_getElem?_modifyClass {f : ClassTy → ClassTy} {i : Nat} {e' : TypeEntry}
    (h : (t.modifyClass id f).entries[i]? = some e') :
    ∃ e, t.entries[i]? = some e ∧ e'.kind = e.kind ∧
      e'.ty.elements = e.ty.elements ∧ t.kindOf e'.ty = t.kindOf e.ty := by
  rw [modifyClass, Array.getElem?_modify] at h
  split at h
  · obtain ⟨e, he, rfl⟩ := Option.map_eq_some_iff.mp h
    refine ⟨e, he, ?_⟩
    split
    · rename_i c hc
      rw [hc]
      exact ⟨rfl, rfl, rfl⟩
    · exact ⟨rfl, rfl, rfl⟩
  · exact ⟨e', h, rfl, rfl, rfl⟩

namespace Current

/-- No entry is out of date at first. -/
theorem empty : Current {} where
  kinds _ _ h := by cases h
  earlier _ _ h := by cases h

variable (h : Current t)
include h

theorem intern (hty : ∀ p ∈ ty.elements, p.index < t.size) : Current (t.intern ty).1 := by
  have hentries (i : Nat) : (t.intern ty).1.entries[i]? =
      if i = t.size then some ⟨ty, t.kindOf ty⟩ else t.entries[i]? :=
    Array.getElem?_push
  refine ⟨fun i e he => ?_, fun i e he => ?_⟩
  · rw [hentries] at he
    split at he
    · cases he
      exact (kindOf_congr fun p hp => kind_intern (hty p hp) ty).symm
    · have hi : i < t.size := (Array.getElem?_eq_some_iff.mp he).1
      rw [h.kinds i e he]
      exact (kindOf_congr fun p hp => kind_intern (Nat.lt_trans (h.earlier i e he p hp) hi) ty).symm
  · rw [hentries] at he
    split at he
    · rename_i hi
      cases he
      exact fun p hp => hi ▸ hty p hp
    · exact h.earlier i e he

theorem internUnique (hty : ∀ p ∈ ty.elements, p.index < t.size) :
    Current (t.internUnique ty).1 := by
  unfold TypeTable.internUnique
  split
  · exact h
  · exact h.intern hty

theorem modifyClass (id : TypeId) (f : ClassTy → ClassTy) : Current (t.modifyClass id f) := by
  refine ⟨fun i e' he' => ?_, fun i e' he' => ?_⟩
  · obtain ⟨e, he, hkind, -, hof⟩ := of_getElem?_modifyClass he'
    rw [hkind, h.kinds i e he, ← hof]
    exact (kindOf_congr fun p _ => kind_modifyClass t id p f).symm
  · obtain ⟨e, he, -, helements, -⟩ := of_getElem?_modifyClass he'
    rw [helements]
    exact h.earlier i e he

/-- **One step** keeps the entries current. -/
theorem apply {op : Op} (hop : op.Grounded t) : Current (op.apply t) := by
  cases op with
  | intern ty => exact h.intern hop
  | internUnique ty => exact h.internUnique hop
  | setFields id fields => exact h.modifyClass id _
  | setDeinit id deinit => exact h.modifyClass id _

/-- **A whole run** keeps the entries current. -/
theorem build {ops : List Op} (hops : t.build ops = some t') : Current t' := by
  induction ops generalizing t with
  | nil =>
    cases hops
    exact h
  | cons op rest ih =>
    rw [TypeTable.build] at hops
    split at hops
    · rename_i hop
      exact ih (h.apply hop) hops
    · cases hops

/-! ### Kinds by recursion -/

theorem kind_of_get (hget : t.get id = .ok ty) : t.kind id = t.kindOf ty := by
  obtain ⟨e, he, hty⟩ := bind_ok.mp hget
  cases hty
  rw [← h.kinds id.index e (Checked.get_ok.mp he), kind, Checked.get_ok.mp he]

theorem kind_of_hasKind (hk : t.HasKind id k) : t.kind id = k := by
  induction hk with
  | @aggregate id elements part k hget _ hjoin ih =>
    have hparts : {t.kind e | e ∈ elements} = {part e | e ∈ elements} :=
      Set.ext fun k => exists_congr fun e => and_congr_right fun he => by rw [ih e he]
    have hcached := kindOf_aggregate_isLUB t elements
    rw [hparts] at hcached
    rw [h.kind_of_get hget]
    exact PointerKind.le_antisymm (hcached.2 hjoin.1) (hjoin.2 hcached.1)
  | scalar hget | thinFunction hget | object hget | box hget | thickFunction hget
  | rawPointer hget | address hget | unknown hget => exact h.kind_of_get hget

theorem hasKind (hid : id.index < t.size) : t.HasKind id (t.kind id) := by
  -- elements come before their aggregate, so the induction is on the position in the table
  induction hn : id.index using Nat.strongRecOn generalizing id with
  | ind n ih =>
    have he : t.entries[id.index]? = some t.entries[id.index] := Array.getElem?_eq_getElem hid
    have hget : t.get id = .ok t.entries[id.index].ty := by
      rw [get, Checked.get_ok.mpr he]
      rfl
    rw [h.kind_of_get hget]
    cases hty : t.entries[id.index].ty with
    | scalar => exact .scalar (hty ▸ hget)
    | rawPointer => exact .rawPointer (hty ▸ hget)
    | object c => exact .object (hty ▸ hget)
    | box inner => exact .box (hty ▸ hget)
    | address inner => exact .address (hty ▸ hget)
    | unknown => exact .unknown (hty ▸ hget)
    | function thick =>
      cases thick with
      | false => exact .thinFunction (hty ▸ hget)
      | true => exact .thickFunction (hty ▸ hget)
    | aggregate elements =>
      have hearlier := h.earlier id.index _ he
      rw [hty] at hearlier
      have hparts : ∀ e ∈ elements, t.HasKind e (t.kind e) := fun e hmem =>
        ih e.index (hn ▸ hearlier e hmem) (Nat.lt_trans (hearlier e hmem) hid) rfl
      exact .aggregate (hty ▸ hget) hparts (kindOf_aggregate_isLUB t elements)

end Current

/-- **Cached kinds never go stale.** In every table that operations build, however classes were
changed after they had been interned, the kind that is cached for a type is the one kind that the
type has by recursion. -/
theorem kind_exact {ops : List Op} (hops : ({} : TypeTable).build ops = some t)
    (hid : id.index < t.size) : t.HasKind id k ↔ t.kind id = k := by
  have h : Current t := Current.empty.build hops
  refine ⟨h.kind_of_hasKind, ?_⟩
  rintro rfl
  exact h.hasKind hid

/-- Two classes that refer to each other, and an aggregate of an aggregate in which the first one is
used. The first class gets fields of all these types, its own among them, after they were interned.
-/
def circular : List Op :=
  [.internUnique .scalar, .intern (.object { name := "Node" }),
    .intern (.object { name := "Edge" }), .internUnique (.aggregate [⟨0⟩, ⟨1⟩]),
    .internUnique (.address ⟨3⟩), .intern (.aggregate [⟨3⟩, ⟨0⟩]),
    .internUnique (.aggregate [⟨5⟩, ⟨4⟩]), .setFields ⟨1⟩ [⟨1⟩, ⟨2⟩, ⟨5⟩, ⟨6⟩],
    .setFields ⟨2⟩ [⟨1⟩], .setDeinit ⟨1⟩ ⟨0⟩]

theorem kind_exact_circular : ∃ t, ({} : TypeTable).build circular = some t ∧
    t.get ⟨1⟩ = .ok (.object ⟨"Node", [⟨1⟩, ⟨2⟩, ⟨5⟩, ⟨6⟩], some ⟨0⟩⟩) ∧
    (∀ k, t.HasKind ⟨5⟩ k ↔ .referenceOnly = k) ∧ ∀ k, t.HasKind ⟨6⟩ k ↔ .anyPointer = k := by
  obtain ⟨t, ht⟩ : ∃ t, ({} : TypeTable).build circular = some t :=
    Option.isSome_iff_exists.mp (by decide +kernel)
  have hfacts : ∀ t ∈ ({} : TypeTable).build circular, t.size = 7 ∧
      t.get ⟨1⟩ = .ok (.object ⟨"Node", [⟨1⟩, ⟨2⟩, ⟨5⟩, ⟨6⟩], some ⟨0⟩⟩) ∧
      t.kind ⟨5⟩ = .referenceOnly ∧ t.kind ⟨6⟩ = .anyPointer := by
    decide +kernel
  obtain ⟨hsize, hget, hfive, hsix⟩ := hfacts t ht
  refine ⟨t, ht, hget, fun k => ?_, fun k => ?_⟩
  · rw [kind_exact ht (by rw [hsize]; decide), hfive]
  · rw [kind_exact ht (by rw [hsize]; decide), hsix]

end TypeTable

end Escape
