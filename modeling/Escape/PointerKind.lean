/-!
# Pointer kinds

What kind of pointers a value of some type may hold. The three kinds form a chain, and the kind of a
compound is the join of the kinds of its parts.
-/

namespace Escape

/-- What a value may point with. -/
inductive PointerKind where
  /-- Plain data. -/
  | noPointer
  /-- Strong references to objects and nothing else. -/
  | referenceOnly
  /-- Addresses, raw pointers, or anything not statically known. -/
  | anyPointer
deriving DecidableEq, Inhabited

namespace PointerKind

/-- Position in the chain. -/
def rank : PointerKind → Nat
  | noPointer => 0
  | referenceOnly => 1
  | anyPointer => 2

instance : LE PointerKind := ⟨fun a b => a.rank ≤ b.rank⟩
instance : LT PointerKind := ⟨fun a b => a.rank < b.rank⟩
instance (a b : PointerKind) : Decidable (a ≤ b) := inferInstanceAs (Decidable (a.rank ≤ b.rank))
instance (a b : PointerKind) : Decidable (a < b) := inferInstanceAs (Decidable (a.rank < b.rank))

/-- The larger of two kinds. -/
def join (a b : PointerKind) : PointerKind := if a ≤ b then b else a

/-- Whether a value of this kind points anywhere at all. -/
def isPointer (k : PointerKind) : Bool := k ≠ noPointer

/-- The kind of a compound with parts of the kinds `ks`. -/
def joinAll (ks : List PointerKind) : PointerKind := ks.foldl join noPointer

theorem le_trans {a b c : PointerKind} (hab : a ≤ b) (hbc : b ≤ c) : a ≤ c := Nat.le_trans hab hbc

theorem le_antisymm {a b : PointerKind} (hab : a ≤ b) (hba : b ≤ a) : a = b := by
  revert hab hba
  cases a <;> cases b <;> decide

theorem join_comm (a b : PointerKind) : join a b = join b a := by
  cases a <;> cases b <;> rfl

theorem join_assoc (a b c : PointerKind) : join (join a b) c = join a (join b c) := by
  cases a <;> cases b <;> cases c <;> rfl

@[simp] theorem join_self (a : PointerKind) : join a a = a := by
  cases a <;> rfl

theorem le_join_left (a b : PointerKind) : a ≤ join a b := by
  cases a <;> cases b <;> decide

theorem le_join_right (a b : PointerKind) : b ≤ join a b := by
  cases a <;> cases b <;> decide

theorem join_le {a b c : PointerKind} (ha : a ≤ c) (hb : b ≤ c) : join a b ≤ c := by
  unfold join
  split
  · exact hb
  · exact ha

end PointerKind

end Escape
