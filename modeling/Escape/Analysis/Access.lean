import Escape.Analysis.Fixpoint

/-!
# Graphs on demand

Graphs are computed when they are first asked for, and kept until the program changes. Whoever
changes a function reports it: `Analysis.invalidate` drops the graphs of the function and of
everything that calls it, directly or not, and `Analysis.forget` takes a single instruction out of
the graphs before it is deleted. Main definitions:

* `Analysis.infoFor`: what is known about a function once its graphs are computed;
* `Analysis.invalidate`, `Analysis.forget`: reports of changes;
* `Analysis.verify`: checks the graphs of a function.
-/

namespace Escape

/-- Why a request could not be met. -/
inductive AccessError where
  /-- The function is not part of the program. -/
  | unknownFunction (f : FuncId)
  /-- A graph of the function is not well formed. -/
  | broken (f : FuncId) (why : Violation)
  /-- The settings are not acceptable. -/
  | settings (why : ConfigError)

/-- The text that reports the error. A few reports on settings are left to whoever read them. -/
def AccessError.message? : AccessError → Option String
  | unknownFunction f => some ("Unknown function " ++ toString f)
  | broken f why => some (why.report f)
  | settings why => why.message?.map ("Configuration error: " ++ ·)

namespace Analysis

/-- A fresh analysis, if the settings are within their ranges. -/
def start (config : Config) : Except AccessError Analysis :=
  (ofConfig? config).mapError .settings

/-! ## Computing graphs -/

/-- Computes the graphs of a declared function, unless that was done before. -/
def ensure (a : Analysis) (p : Program) (f : FuncId) : Checked Analysis :=
  if (a.info? f).any (·.computed) then return a else a.update p f

/-- What is known about a function once its graphs are computed. -/
def infoFor (a : Analysis) (p : Program) (f : FuncId) :
    Checked (Except AccessError (Analysis × FuncInfo)) := do
  if (p.func? f).isNone then return .error (.unknownFunction f)
  let a ← a.ensure p f
  match a.info? f with
  | some info => return .ok (a, info)
  | none => return .error (.unknownFunction f)

/-! ## Changes of the program -/

/-- The functions that are known to call `f`, directly or not, and `f` itself. -/
def dependents (a : Analysis) (f : FuncId) : List FuncId :=
  let callers := fun f => ((a.info? f).map (·.callers)).getD [] |>.map (·.caller)
  closure callers (a.infos.entries.foldl (fun n e => n + e.2.callers.length) 1) f

/-- Drops what is known about a function and about everything that calls it. -/
def invalidate (a : Analysis) (f : FuncId) : Analysis :=
  let gone := a.dependents f
  let infos : Infos := ⟨a.infos.entries.filter (·.1 ∉ gone)⟩
  { a with infos := infos.mapValues (·.filterCallers (·.caller ∉ gone)) }

/-- Drops all that is known. -/
def invalidateAll (a : Analysis) : Analysis := { a with infos := {} }

/-- Computes the graphs of a function anew. -/
def recompute (a : Analysis) (p : Program) (f : FuncId) :
    Checked (Except AccessError Analysis) := do
  if (p.func? f).isNone then return .error (.unknownFunction f)
  return .ok (← (a.invalidate f).update p f)

/-- Takes an instruction of a function out of the graphs before it is deleted: its results lose
their nodes, it is no use point any more, and it calls nothing. -/
def forget (a : Analysis) (p : Program) (f : FuncId) (i : InstId) : Checked Analysis := do
  let results ← match p.func? f with
    | some func => pure (← func.inst i).results
    | none => pure []
  let infos := a.infos.modify f fun info => { info with graph := info.graph.forget i results }
  return { a with infos := infos.mapValues (·.filterCallers (· ≠ ⟨f, i⟩)) }

/-! ## Checks -/

/-- Checks the graphs of a function. A function without graphs passes. -/
def verify (a : Analysis) (f : FuncId) : Except AccessError Unit :=
  match a.info? f with
  | some info => info.check.mapError (.broken f)
  | none => .ok ()

/-- Whether the graphs of all functions are well formed. -/
def verifyAll (a : Analysis) : Bool := a.infos.entries.all fun e => e.2.check.isOk

end Analysis

end Escape
