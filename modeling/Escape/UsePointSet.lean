/-!
# Use-point sets

A use point is a small number that stands for an instruction. A set of use points is kept as the
increasing list of its members. Operations that may change a set also tell whether they did.
-/

namespace Escape

/-- A finite set of use points, as an increasing list. -/
structure UsePointSet where
  bits : List Nat := []
deriving DecidableEq, Inhabited

namespace UsePointSet

/-- Puts `i` into an increasing list, unless it is there. -/
def place (i : Nat) : List Nat → List Nat
  | [] => [i]
  | b :: rest => if i < b then i :: b :: rest else if i = b then b :: rest else b :: place i rest

/-- Merges a list with the list of `a` and `as`, where `tail` merges a list with `as`. -/
def mergeFrom (a : Nat) (as : List Nat) (tail : List Nat → List Nat) : List Nat → List Nat
  | [] => a :: as
  | b :: bs =>
    if a < b then a :: tail (b :: bs)
    else if b < a then b :: mergeFrom a as tail bs
    else a :: tail bs

/-- Merges two increasing lists: the smaller one of the first entries is taken over, and both are
dropped if they are equal. -/
def merge : List Nat → List Nat → List Nat
  | [] => fun bs => bs
  | a :: as => mergeFrom a as (merge as)

/-- Whether `i` is a member. -/
def contains (s : UsePointSet) (i : Nat) : Bool := i ∈ s.bits

/-- Adds `i`. -/
def insert (s : UsePointSet) (i : Nat) : UsePointSet × Bool :=
  if s.contains i then (s, false) else (⟨place i s.bits⟩, true)

/-- Takes `i` out. -/
def erase (s : UsePointSet) (i : Nat) : UsePointSet × Bool :=
  if s.contains i then (⟨s.bits.filter (· ≠ i)⟩, true) else (s, false)

/-- Adds all members of `t`. The set grew if and only if it has more members than before. -/
def union (s t : UsePointSet) : UsePointSet × Bool :=
  let merged := merge s.bits t.bits
  (⟨merged⟩, merged.length ≠ s.bits.length)

/-- The number of members. -/
def size (s : UsePointSet) : Nat := s.bits.length

/-- Whether there are no members. -/
def isEmpty (s : UsePointSet) : Bool := s.bits.isEmpty

@[simp] theorem mem_place {i j : Nat} {l : List Nat} : j ∈ place i l ↔ j = i ∨ j ∈ l := by
  induction l with
  | nil => simp [place]
  | cons b rest ih =>
    unfold place
    split
    · simp
    · split
      · simp_all
      · simp only [List.mem_cons, ih]
        grind

theorem merge_nil (as : List Nat) : merge as [] = as := by
  cases as <;> rfl

theorem merge_cons_cons (a b : Nat) (as bs : List Nat) : merge (a :: as) (b :: bs) =
    if a < b then a :: merge as (b :: bs)
    else if b < a then b :: merge (a :: as) bs
    else a :: merge as bs :=
  rfl

@[simp] theorem mem_merge {j : Nat} {as bs : List Nat} : j ∈ merge as bs ↔ j ∈ as ∨ j ∈ bs := by
  induction as generalizing bs with
  | nil => simp [merge]
  | cons a as ihas =>
    induction bs with
    | nil => simp [merge_nil]
    | cons b bs ihbs =>
      rw [merge_cons_cons]
      split
      · simp only [List.mem_cons, ihas, or_assoc]
      · split
        · simp only [List.mem_cons, ihbs]
          grind
        · have hab : a = b := by omega
          simp only [List.mem_cons, ihas]
          grind

end UsePointSet

end Escape
