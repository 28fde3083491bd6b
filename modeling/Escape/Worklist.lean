import Escape.Fault

/-!
# Worklists and walks

A worklist holds entries in the order in which they were added and takes each entry once, also after
it was taken off again. A walk explores a directed graph breadth first: it looks at the successors
of every entry of its frontier, and a verdict on each new successor decides whether the walk goes on
from there. Main definitions:

* `Worklist`: entries in order of arrival, each at most once;
* `Walk.start`: the walk from one entry under a verdict;
* `closure`: everything that can be reached, in the order of discovery.
-/

namespace Escape

/-- Entries in order of arrival, with all entries that were ever added. -/
structure Worklist (α : Type) where
  items : Array α := #[]
  visited : List α := []
deriving Inhabited

namespace Worklist

variable {α : Type} [DecidableEq α]

/-- Whether `a` was ever added. -/
def contains (w : Worklist α) (a : α) : Bool := a ∈ w.visited

/-- Adds `a` unless it was added before. -/
def push (w : Worklist α) (a : α) : Worklist α :=
  if w.contains a then w else ⟨w.items.push a, a :: w.visited⟩

/-- Takes off the entry added last. It still counts as added. -/
def pop (w : Worklist α) : Worklist α × Option α :=
  ({ w with items := w.items.pop }, w.items.back?)

/-- The entry at position `i`. -/
def get (w : Worklist α) (i : Nat) : Checked α := Checked.get w.items i

@[simp] theorem contains_push (w : Worklist α) (a b : α) :
    (w.push a).contains b = (decide (b = a) || w.contains b) := by
  unfold push
  split <;> rename_i h
  · by_cases hb : b = a <;> simp_all
  · simp [contains]

/-- Adding an entry twice is adding it once. -/
theorem push_push_self (w : Worklist α) (a : α) : (w.push a).push a = w.push a := by
  rw [push, if_pos (by simp)]

end Worklist

/-- What to do with an entry that a walk has come to. -/
inductive Verdict where
  /-- Go on to the successors of the entry. -/
  | follow
  /-- Do not go on from the entry. -/
  | backtrack
  /-- Give up the whole walk. -/
  | halt
deriving DecidableEq

/-- A walk in progress: the entries it goes on from, the entries judged so far, and whether it was
given up. An entry that is not followed is judged anew each time the walk comes to it. -/
structure Walk (α : Type) where
  frontier : Worklist α := {}
  trail : Array α := #[]
  halted : Bool := false
deriving Inhabited

namespace Walk

variable {α : Type} [DecidableEq α]

/-- Judges one entry, unless the walk was given up or follows it already. -/
def visit (verdict : α → Verdict) (w : Walk α) (a : α) : Walk α :=
  if w.halted || w.frontier.contains a then w
  else
    match verdict a with
    | .follow => { w with frontier := w.frontier.push a, trail := w.trail.push a }
    | .backtrack => { w with trail := w.trail.push a }
    | .halt => { w with trail := w.trail.push a, halted := true }

/-- Handles the entries of the frontier from position `i` on, at most `bound` of them. -/
def run (next : α → List α) (verdict : α → Verdict) : (bound i : Nat) → Walk α → Walk α
  | 0, _, w => w
  | bound + 1, i, w =>
    if w.halted then w
    else
      match w.frontier.items[i]? with
      | none => w
      | some a => run next verdict bound (i + 1) ((next a).foldl (visit verdict) w)

/-- The walk from `a`, which is not judged itself. The walk follows at most `bound` entries. -/
def start (next : α → List α) (verdict : α → Verdict) (bound : Nat) (a : α) : Walk α :=
  run next verdict bound 0 { frontier := Worklist.push {} a }

end Walk

/-- The entries reachable from `a` by `next`, `a` first and the others in the order of discovery. It
is complete if there are at most `bound` of them. -/
def closure {α : Type} [DecidableEq α] (next : α → List α) (bound : Nat) (a : α) : List α :=
  (Walk.start next (fun _ => .follow) bound a).frontier.items.toList

end Escape
