import Escape.Graph.Violation

/-!
# Faults

A computation on a program or a graph stops with a fault when it is asked about something that is
not there, or when a rule that its steps rely on turns out to be broken. Faults end a computation;
errors that a caller is meant to handle are ordinary results.
-/

namespace Escape

/-- Why a computation had to stop. -/
inductive Fault where
  /-- An identifier that names nothing. -/
  | outOfRange
  /-- Instructions are to be appended to a function that was not declared. -/
  | unknownFunction (f : FuncId)
  /-- A points-to edge would lead to a node that is merged or about to be. -/
  | edgeToMerged
  /-- A points-to edge would lead to a node that is not a content. -/
  | edgeToNonContent
  /-- A defer edge would lead to a merged node. -/
  | deferToMerged
  /-- A node waits to be merged but has no target. -/
  | mergeWithoutTarget
  /-- One of two nodes to be merged is not a content. -/
  | mergeNonContent
  /-- A node without content was to be pointed elsewhere. -/
  | repointUninitialized
  /-- Use points were to be computed on a graph that has some already. -/
  | prematureUsePoints
  /-- One of the graphs of a splice was given up before. -/
  | spliceInvalid
  /-- The finished graph of the function named `name` is not well formed. -/
  | brokenGraph (name : String) (f : FuncId) (why : Violation)
deriving DecidableEq

/-- The report on a graph that is not well formed. -/
def Violation.report (f : FuncId) (why : Violation) : String :=
  "Graph invariant violated in " ++ toString f ++ ": " ++ why.message

/-- The text that goes with a fault, if it has one of its own. -/
def Fault.message? : Fault → Option String
  | outOfRange | mergeNonContent | spliceInvalid => none
  | unknownFunction f => some ("unknown function " ++ toString f)
  | edgeToMerged => some "edge to a merged node"
  | edgeToNonContent => some "points-to edge must target content"
  | deferToMerged => some "defer edge to a merged node"
  | mergeWithoutTarget => some "node scheduled to merge without target"
  | repointUninitialized => some "merging content should not initialize points-to"
  | prematureUsePoints => some "premature use point computation"
  | brokenGraph name f why =>
    some ("broken connection graph of " ++ name ++ ": " ++ why.report f)

/-- A computation that may stop with a fault. -/
abbrev Checked (α : Type) : Type := Except Fault α

/-- The entry at position `i`, which has to exist. -/
def Checked.get {α : Type} (xs : Array α) (i : Nat) : Checked α :=
  match xs[i]? with
  | some a => .ok a
  | none => .error .outOfRange

@[simp] theorem Checked.get_of_lt {α : Type} {xs : Array α} {i : Nat} (h : i < xs.size) :
    Checked.get xs i = .ok xs[i] := by
  simp [Checked.get, h]

end Escape
