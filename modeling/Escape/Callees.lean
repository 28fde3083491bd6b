import Escape.Program

/-!
# Callees and destructors

Two questions that the analysis cannot answer by itself: which functions a call may invoke, and
whether the destructor of a class may capture what its fields point to. Both are asked of functions
that a client supplies; the ones defined here answer from the program and from a list of names.
-/

namespace Escape

/-- What a call may invoke. -/
inductive Callees where
  /-- One of exactly these functions. -/
  | precise (fs : List FuncId)
  /-- Anything. -/
  | unknown
deriving DecidableEq

/-- Tells what the call `site` of a function may invoke. -/
abbrev Resolver := Program → (caller : FuncId) → (site : InstId) → Checked Callees

namespace Resolver

/-- Follows a function value, through closures and copies, to the function reference it comes from.
At most `bound` links are followed. -/
def chase (fn : Func) : (bound : Nat) → (v : ValueId) → Checked (Option FuncId)
  | 0, _ => return none
  | bound + 1, v => do
    match ← fn.definition? v with
    | some (.functionRef f) => return some f
    | some (.partialApply v _) | some (.copyValue v) | some (.beginBorrow v) => chase fn bound v
    | _ => return none

/-- The function that a call names, directly or through a function value. -/
def target? (fn : Func) : Callee → Checked (Option FuncId)
  | .direct f => return some f
  | .value v => chase fn (fn.values.size + 1) v

/-- Whether a function has a body: its entry block is brought to an end. -/
def hasBody (p : Program) (f : FuncId) : Checked Bool := do
  match p.func? f with
  | some fn => return (← fn.terminator? Func.entry).isSome
  | none => return false

/-- Resolves direct calls and calls of function references. A function without a body is external,
and a call of it may do anything. -/
def fromBodies : Resolver := fun p caller site => do
  match p.func? caller with
  | none => return .unknown
  | some fn =>
    match (← fn.inst site).op with
    | .call callee _ _ =>
      match ← target? fn callee with
      | some f => return if ← hasBody p f then .precise [f] else .unknown
      | none => return .unknown
    | _ => return .unknown

/-- Gives every call the same answer. -/
def always (callees : Callees) : Resolver := fun _ _ _ => return callees

/-- Answers from the first row for the call, if there is one, and otherwise as `rest` does. -/
def fromTable (rows : List (FuncId × InstId × Callees)) (rest : Resolver) : Resolver :=
  fun p caller site =>
    match rows.find? fun r => r.1 = caller && r.2.1 = site with
    | some r => return r.2.2
    | none => rest p caller site

end Resolver

/-- Tells whether the destructor of a class may let what the fields point to get elsewhere. -/
abbrev DeinitPolicy := ClassTy → Bool

/-- The destructors of the named classes only release the fields. -/
def DeinitPolicy.named (names : List String) : DeinitPolicy := fun c => c.name ∉ names

/-- All destructors behave alike. -/
def DeinitPolicy.always (captures : Bool) : DeinitPolicy := fun _ => captures

end Escape
