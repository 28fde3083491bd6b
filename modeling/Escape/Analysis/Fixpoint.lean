import Escape.Analysis.Summary

/-!
# Updates

An update builds the graphs of a function and of the functions it calls, and then passes over these
functions, callees first. A pass derives the summary of each function and splices it into the graphs
of its callers. Passes are repeated as long as a caller changes that a pass came to before its
callee. After a limited number of passes the callers are finished conservatively instead: everything
that their call sites touch escapes. In the end all contents are made, states and use points are
worked out, and the graphs are checked. Main definitions:

* `Update.refreshSummary`, `Update.spliceIntoCallers`, `Update.escapeCallSites`: the parts of a
  pass;
* `Update.passes`: all passes;
* `Update.finish`: the final work on the graphs;
* `Analysis.update`: a whole update.
-/

namespace Escape

namespace Update

/-! ## Passes -/

/-- Derives the summary of a function, if its graph has changed. Tells whether the summary did. -/
def refreshSummary (p : Program) (u : Update) (f : FuncId) : Checked (Update × Bool) := do
  match u.infos.find? f with
  | none => return (u, false)
  | some info =>
    if !info.stale then return (u, false)
    let (summary, graph, changed) ← Graph.summarize p info.summary info.graph.propagate.1
    return (u.modify f fun info => { info with graph, summary, stale := false }, changed)

/-- Splices the summary of `callee` into its callers, as far as this update built them. Tells
whether one of them changed that does not come after the callee. -/
def spliceAt (p : Program) (callee : FuncId) : List CallSite → (summary : Graph) → Update → Bool →
    Checked (Graph × Update × Bool)
  | [], summary, u, again => return (summary, u, again)
  | site :: rest, summary, u, again => do
    match u.infos.find? site.caller with
    | none => spliceAt p callee rest summary u again
    | some caller =>
      if !u.isRebuilt caller then spliceAt p callee rest summary u again
      else
        let (graph, summary, changed) ← caller.graph.spliceCall p site summary callee
        let u := u.modify site.caller fun info =>
          { info with graph, stale := info.stale || changed }
        let after := match u.infos.find? site.caller, u.infos.find? callee with
          | some caller, some callee => u.isAfter caller callee
          | _, _ => false
        spliceAt p callee rest summary u (again || (changed && !after))

/-- Splices the summary of a function into all its callers. -/
def spliceIntoCallers (p : Program) (u : Update) (f : FuncId) : Checked (Update × Bool) := do
  match u.infos.find? f with
  | none => return (u, false)
  | some info =>
    let (summary, u, again) ← spliceAt p f info.callers info.summary u false
    return (u.modify f fun info => { info with summary }, again)

/-- Lets everything escape that a call site touches, if this update built its function. -/
def escapeCallSite (p : Program) (acc : Update × Bool) (site : CallSite) :
    Checked (Update × Bool) := do
  let (u, _) := acc
  match Scope.of? p site.caller, u.infos.find? site.caller with
  | some s, some caller =>
    if !u.isRebuilt caller then return acc
    let graph ← caller.graph.escapeAll s site.site
    return (u.modify site.caller fun info => { info with graph, stale := true }, true)
  | _, _ => return acc

/-- Lets everything escape that the call sites of a function touch. -/
def escapeCallSites (p : Program) (u : Update) (f : FuncId) : Checked (Update × Bool) := do
  match u.infos.find? f with
  | none => return (u, false)
  | some info => info.callers.foldlM (escapeCallSite p) (u, false)

/-- Handles one function in pass number `pass` of at most `limit` ordinary ones. In the first pass
all summaries are spliced in, also those of functions whose graphs are reused. -/
def passOver (p : Program) (limit pass : Nat) (acc : Update × Bool) (f : FuncId) :
    Checked (Update × Bool) := do
  let (u, again) := acc
  let (u, changed) ← u.refreshSummary p f
  let (u, more) ←
    if pass < limit then
      if pass = 0 || changed then u.spliceIntoCallers p f else pure (u, false)
    else if pass = limit then u.escapeCallSites p f
    else pure (u, false)
  return (u, again || more)

/-- Passes over all functions of the update, starting with pass number `pass`, until no further pass
is needed. A pass beyond the limit only brings summaries up to date and asks for no other. -/
def passes (p : Program) (limit : Nat) : (bound pass : Nat) → Update → Checked Update
  | 0, _, u => return u
  | bound + 1, pass, u => do
    let (u, again) ← u.order.toList.foldlM (passOver p limit pass) (u, false)
    if again then passes p limit bound (pass + 1) u else return u

/-! ## Final work -/

/-- The pointers among the parameters, and among the block arguments and results of the given
blocks. -/
def pointerValues (s : Scope) (blocks : List BlockId) : Checked (List ValueId) := do
  let inBlock : BlockId → Checked (List ValueId) := fun b => do
    let blk ← s.func.block b
    let results ← blk.insts.mapM fun i => return (← s.func.inst i).results
    return (if b = Func.entry then [] else blk.args) ++ results.flatten
  let values := (← s.func.arguments) ++ (← blocks.mapM inBlock).flatten
  values.filterM s.isPointer

/-- Makes the contents of all pointers, and works out states and use points. -/
def complete (s : Scope) (g : Graph) : Checked Graph := do
  if !g.valid then return g
  let blocks ← s.func.reachableBlocks
  let g ← (← pointerValues s blocks).foldlM (fun g v => return (← g.contentFor s v).1) g
  g.propagate.1.computeUsePoints s blocks

/-- Finishes the graphs of a function, if this update built them. -/
def finish (p : Program) (verify : Bool) (u : Update) (f : FuncId) : Checked Update := do
  match u.infos.find? f, Scope.of? p f with
  | some info, some s =>
    if !u.isRebuilt info then return u
    let info := { info with computed := true, graph := ← complete s info.graph }
    if verify then
      if let .error why := info.check then throw (.brokenGraph s.func.name f why)
    return u.modify f fun _ => info
  | _, _ => return u

end Update

namespace Analysis

/-- Computes the graphs of a function and of everything it calls. -/
def update (a : Analysis) (p : Program) (f : FuncId) : Checked Analysis := do
  let number := a.updates + 1
  let u ← a.build p a.config.maxRecursionDepth f { number, infos := a.infos }
  let u := u.place f
  let limit := a.config.maxGraphMerges
  let u ← Update.passes p limit (limit + 2) 0 u
  let u ← u.order.toList.foldlM (Update.finish p a.config.verifyGraphs) u
  return { a with infos := u.infos, updates := number }

end Analysis

end Escape
