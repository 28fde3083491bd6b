import Escape.Callees
import Escape.Config
import Escape.Graph.Check
import Escape.Graph.UsePoint

/-!
# State of the analysis

What is known about each function: its full graph, the summary for its callers, the calls that were
found to invoke it, and marks that order the functions within one update. An update computes the
graphs of one function and of everything it calls. Every update has a number, and a function is
stamped with the numbers of the updates that visited it and that built its graphs.
-/

namespace Escape

/-- A call or release `site` of `caller`. -/
structure CallSite where
  caller : FuncId
  site : InstId
deriving DecidableEq

/-- What is known about a function. -/
structure FuncInfo where
  graph : Graph
  summary : Graph
  callers : List CallSite := []
  /-- The graph changed since the summary was last derived from it. -/
  stale : Bool := false
  /-- The graphs are final. -/
  computed : Bool := false
  /-- The update that last built the graphs. -/
  builtIn : Nat := 0
  /-- The update that last visited the function. -/
  visitedIn : Nat := 0
  /-- The position in the order of that update. -/
  position : Option Nat := none
deriving Inhabited

namespace FuncInfo

/-- Nothing is known yet. -/
def fresh (f : FuncId) : FuncInfo := { graph := .full f, summary := .ofCallers f }

/-- Records a call site, once. -/
def addCaller (site : CallSite) (info : FuncInfo) : FuncInfo :=
  if site ∈ info.callers then info else { info with callers := info.callers ++ [site] }

/-- Drops call sites. -/
def filterCallers (keep : CallSite → Bool) (info : FuncInfo) : FuncInfo :=
  { info with callers := info.callers.filter keep }

/-- Checks both graphs. -/
def check (info : FuncInfo) : Except Violation Unit := do
  info.graph.check false
  info.summary.check false

end FuncInfo

/-- The functions that were analyzed. -/
abbrev Infos := AssocMap FuncId FuncInfo

/-- An update in progress: its number, what is known about the functions, and the functions it came
to, callees before their callers except along recursive calls. -/
structure Update where
  number : Nat
  infos : Infos
  order : Array FuncId := #[]

namespace Update

/-- Changes what is known about a function; at first nothing is. -/
def modify (u : Update) (f : FuncId) (change : FuncInfo → FuncInfo) : Update :=
  { u with infos := u.infos.insert f (change ((u.infos.find? f).getD (.fresh f))) }

/-- Whether a function was visited in this update. -/
def isVisited (u : Update) (info : FuncInfo) : Bool := info.visitedIn = u.number

/-- Whether the graphs of a function were built in this update. -/
def isRebuilt (u : Update) (info : FuncInfo) : Bool := info.builtIn = u.number

/-- Visits a function. Its graphs are emptied to be built anew, unless they are final or the
function was visited before; tells whether they are to be built. -/
def visit (u : Update) (f : FuncId) : Update × Bool :=
  let info := (u.infos.find? f).getD (.fresh f)
  if u.isVisited info then (u, false)
  else
    let info := { info with visitedIn := u.number, position := none }
    if info.computed then (u.modify f fun _ => info, false)
    else
      (u.modify f fun _ => { info with
        graph := .full f, summary := .ofCallers f, builtIn := u.number, stale := true }, true)

/-- Puts a function at the end of the order, unless it has a place in it. -/
def place (u : Update) (f : FuncId) : Update :=
  match u.infos.find? f with
  | none => u
  | some info =>
    if info.position.isSome && u.isVisited info then u
    else
      { u.modify f fun info => { info with position := some u.order.size } with
        order := u.order.push f }

/-- Whether `caller` comes after `callee` in the order, so that it sees the summary of `callee` in
the same pass. -/
def isAfter (u : Update) (caller callee : FuncInfo) : Bool :=
  match caller.position, callee.position with
  | some a, some b => u.isVisited caller && decide (b < a)
  | _, _ => false

end Update

/-- The analysis: its settings, the two questions to its client, and what it knows so far. -/
structure Analysis where
  config : Config
  resolver : Resolver
  policy : DeinitPolicy
  infos : Infos := {}
  /-- The number of updates so far. -/
  updates : Nat := 0

namespace Analysis

/-- A fresh analysis that answers both questions by itself. -/
def ofConfig (config : Config) : Analysis where
  config
  resolver := .fromBodies
  policy := .named config.nonCapturingDeinits

instance : Inhabited Analysis := ⟨.ofConfig default⟩

/-- A fresh analysis with settings that are within their ranges. -/
def ofConfig? (config : Config) : Except ConfigError Analysis := do
  config.validate
  return .ofConfig config

/-- Asks another client which functions a call may invoke. -/
def withResolver (a : Analysis) (resolver : Resolver) : Analysis := { a with resolver, infos := {} }

/-- Asks another client about destructors. -/
def withPolicy (a : Analysis) (policy : DeinitPolicy) : Analysis := { a with policy, infos := {} }

/-- What is known about a function. -/
def info? (a : Analysis) (f : FuncId) : Option FuncInfo := a.infos.find? f

/-- How many functions something is known about. -/
def size (a : Analysis) : Nat := a.infos.size

end Analysis

end Escape
