/-!
# Association maps

A finite map kept as a list of its entries. Inserting under a present key replaces the entry in
place, so writing back what is already there changes nothing. The view of a map is `find?`; the
lemmas say what each operation does to it.
-/

namespace Escape

universe u v

/-- A finite map, at most one entry per key. -/
structure AssocMap (κ : Type u) (α : Type v) where
  entries : List (κ × α) := []
deriving Inhabited

namespace AssocMap

variable {κ : Type u} {α : Type v} [DecidableEq κ]

/-- The map without entries. -/
def empty : AssocMap κ α := {}

/-- The value of the first entry under `k`. -/
def lookup (k : κ) : List (κ × α) → Option α
  | [] => none
  | (k', a) :: rest => if k' = k then some a else lookup k rest

/-- Replaces the first entry under `k`, or adds one at the end. -/
def write (k : κ) (a : α) : List (κ × α) → List (κ × α)
  | [] => [(k, a)]
  | (k', a') :: rest => if k' = k then (k, a) :: rest else (k', a') :: write k a rest

/-- The value stored under `k`. -/
def find? (m : AssocMap κ α) (k : κ) : Option α := lookup k m.entries

/-- Whether `k` has an entry. -/
def contains (m : AssocMap κ α) (k : κ) : Bool := (m.find? k).isSome

/-- Stores `a` under `k`. -/
def insert (m : AssocMap κ α) (k : κ) (a : α) : AssocMap κ α := ⟨write k a m.entries⟩

/-- Drops the entry of `k`. -/
def erase (m : AssocMap κ α) (k : κ) : AssocMap κ α := ⟨m.entries.filter fun e => e.1 ≠ k⟩

/-- Changes every stored value. -/
def mapValues (m : AssocMap κ α) (f : α → α) : AssocMap κ α := ⟨m.entries.map fun e => (e.1, f e.2)⟩

/-- Changes the value under `k`, if there is one. -/
def modify (m : AssocMap κ α) (k : κ) (f : α → α) : AssocMap κ α :=
  match m.find? k with
  | some a => m.insert k (f a)
  | none => m

/-- The number of entries. -/
def size (m : AssocMap κ α) : Nat := m.entries.length

/-! ## What the operations do to `find?` -/

@[simp] theorem find?_empty (k : κ) : (empty : AssocMap κ α).find? k = none := rfl

theorem lookup_write (k k' : κ) (a : α) (l : List (κ × α)) :
    lookup k' (write k a l) = if k = k' then some a else lookup k' l := by
  induction l with
  | nil => by_cases h : k = k' <;> simp [write, lookup, h]
  | cons e rest ih =>
    obtain ⟨k'', a''⟩ := e
    by_cases h : k'' = k <;> by_cases h' : k = k' <;> grind [write, lookup]

@[simp] theorem find?_insert (m : AssocMap κ α) (k k' : κ) (a : α) :
    (m.insert k a).find? k' = if k = k' then some a else m.find? k' :=
  lookup_write k k' a m.entries

theorem lookup_filter (k k' : κ) (l : List (κ × α)) :
    lookup k' (l.filter fun e => e.1 ≠ k) = if k = k' then none else lookup k' l := by
  induction l with
  | nil => simp [lookup]
  | cons e rest ih =>
    obtain ⟨k'', a''⟩ := e
    by_cases h : k'' = k <;> by_cases h' : k = k' <;> simp_all [lookup]

@[simp] theorem find?_erase (m : AssocMap κ α) (k k' : κ) :
    (m.erase k).find? k' = if k = k' then none else m.find? k' :=
  lookup_filter k k' m.entries

@[simp] theorem find?_modify (m : AssocMap κ α) (k k' : κ) (f : α → α) :
    (m.modify k f).find? k' = if k = k' then (m.find? k).map f else m.find? k' := by
  unfold modify
  cases h : m.find? k with
  | none => by_cases hk : k = k' <;> simp_all
  | some a => by_cases hk : k = k' <;> simp [hk]

theorem lookup_map (k : κ) (f : α → α) (l : List (κ × α)) :
    lookup k (l.map fun e => (e.1, f e.2)) = (lookup k l).map f := by
  induction l with
  | nil => rfl
  | cons e rest ih =>
    obtain ⟨k', a⟩ := e
    by_cases h : k' = k <;> simp [lookup, h, ih]

@[simp] theorem find?_mapValues (m : AssocMap κ α) (k : κ) (f : α → α) :
    (m.mapValues f).find? k = (m.find? k).map f :=
  lookup_map k f m.entries

/-- Writing back the stored value changes nothing. -/
theorem write_lookup {k : κ} {a : α} {l : List (κ × α)} (h : lookup k l = some a) :
    write k a l = l := by
  induction l with
  | nil => simp [lookup] at h
  | cons e rest ih =>
    obtain ⟨k', a'⟩ := e
    by_cases hk : k' = k <;> simp_all [lookup, write]

end AssocMap

end Escape
