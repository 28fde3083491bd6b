/-!
# Escape states

How far outside a function the memory of a node is visible. The four states form a chain, states are
combined by taking the larger one, and the state of a node only ever grows.
-/

namespace Escape

/-- How far memory is visible outside the function that is analyzed. -/
inductive EscapeState where
  /-- Not visible outside the function. -/
  | noEscape
  /-- Reachable from the returned value. -/
  | returned
  /-- Reachable from an argument. -/
  | argumentReachable
  /-- Reachable from a global, from unknown code or from anything else. -/
  | globalEscaping
deriving DecidableEq, Inhabited

namespace EscapeState

/-- Position in the chain. -/
def rank : EscapeState → Nat
  | noEscape => 0
  | returned => 1
  | argumentReachable => 2
  | globalEscaping => 3

instance : LE EscapeState := ⟨fun a b => a.rank ≤ b.rank⟩
instance : LT EscapeState := ⟨fun a b => a.rank < b.rank⟩
instance (a b : EscapeState) : Decidable (a ≤ b) := inferInstanceAs (Decidable (a.rank ≤ b.rank))
instance (a b : EscapeState) : Decidable (a < b) := inferInstanceAs (Decidable (a.rank < b.rank))

/-- The larger of two states. -/
def join (a b : EscapeState) : EscapeState := if a ≤ b then b else a

/-- Whether anything outside the body can see the memory, the caller included. -/
def escapes (s : EscapeState) : Bool := s ≠ noEscape

/-- Whether unidentified pointers inside the function may alias the memory. An exclusive argument
aliases no other argument. -/
def escapesInside (exclusive : Bool) : EscapeState → Bool
  | noEscape | returned => false
  | argumentReachable => !exclusive
  | globalEscaping => true

/-- The letter that stands for the state in a rendered graph. -/
def marker : EscapeState → String
  | noEscape => ""
  | returned => "R"
  | argumentReachable => "A"
  | globalEscaping => "G"

instance : ToString EscapeState where
  toString
    | noEscape => "NoEscape"
    | returned => "Returned"
    | argumentReachable => "ArgumentReachable"
    | globalEscaping => "GlobalEscaping"

/-! ## Laws of the chain -/

theorem le_refl (a : EscapeState) : a ≤ a := Nat.le_refl _

theorem le_trans {a b c : EscapeState} (hab : a ≤ b) (hbc : b ≤ c) : a ≤ c := Nat.le_trans hab hbc

theorem le_antisymm {a b : EscapeState} (hab : a ≤ b) (hba : b ≤ a) : a = b := by
  revert hab hba
  cases a <;> cases b <;> decide

theorem join_comm (a b : EscapeState) : join a b = join b a := by
  cases a <;> cases b <;> rfl

theorem join_assoc (a b c : EscapeState) : join (join a b) c = join a (join b c) := by
  cases a <;> cases b <;> cases c <;> rfl

@[simp] theorem join_self (a : EscapeState) : join a a = a := by
  cases a <;> rfl

theorem le_join_left (a b : EscapeState) : a ≤ join a b := by
  cases a <;> cases b <;> decide

theorem le_join_right (a b : EscapeState) : b ≤ join a b := by
  cases a <;> cases b <;> decide

theorem join_le {a b c : EscapeState} (ha : a ≤ c) (hb : b ≤ c) : join a b ≤ c := by
  unfold join
  split
  · exact hb
  · exact ha

theorem join_eq_left_iff {a b : EscapeState} : join a b = a ↔ b ≤ a := by
  cases a <;> cases b <;> decide

end EscapeState

end Escape
