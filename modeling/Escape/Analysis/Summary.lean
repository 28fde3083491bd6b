import Escape.Analysis.Build
import Escape.Graph.Splice

/-!
# Summaries and calls

A summary of a function is derived by splicing its full graph into the graph of its parameters and
its returned value. A call is accounted for by splicing the summary of the callee into the graph of
the caller, with the parameters standing for the values that the call passes.
-/

namespace Escape.Graph

/-! ## Summaries -/

/-- Maps the nodes of parameters in a full graph to their nodes in a summary. -/
def pairParams (s : Scope) : List ValueId → (full summary : Graph) → NodeMap →
    Checked (Graph × Graph × NodeMap)
  | [], full, summary, m => return (full, summary, m)
  | v :: rest, full, summary, m => do
    match ← full.nodeFor s v with
    | (full, none) => pairParams s rest full summary m
    | (full, some n) =>
      match ← summary.nodeFor s v with
      | (summary, none) => pairParams s rest full summary m
      | (summary, some k) => pairParams s rest full summary (m.add n k)

/-- Brings a summary up to date with the full graph of its function. A graph that was given up takes
its summary with it. Yields the summary, the full graph, in which parameters have nodes by now, and
whether the summary changed. -/
def summarize (p : Program) (summary full : Graph) : Checked (Graph × Graph × Bool) := do
  if !full.valid then return (summary.invalidate, full, summary.valid)
  match full.owner.bind (Scope.of? p) with
  | none => return (summary, full, false)
  | some s =>
    let (full, summary, m) ← pairParams s (← s.func.arguments) full summary {}
    let (summary, m) := match full.returnNode with
      | some r =>
        let (summary, k) := summary.ensureReturn
        (summary, m.add r k)
      | none => (summary, m)
    let (summary, _, changed) ← summary.splice full m
    return (summary, full, changed)

/-! ## Calls -/

/-- The value that a call site binds to parameter `index`: the argument of the call, or the closure
for the parameters that its context supplies. A release binds the released value to the first
parameter. -/
def boundTo (op : Operation) (index : Nat) : Option ValueId :=
  match op with
  | .call callee args _ =>
    match args[index]?, callee with
    | some v, _ => some v
    | none, .value v => some v
    | none, .direct _ => none
  | _ => if op.isRelease && index = 0 then op.operands.head? else none

/-- Maps the nodes of parameters in the summary of a callee to the nodes of the values bound to them
in the graph of a caller. -/
def pairArgs (callee caller : Scope) : List (ValueId × Option ValueId) → (summary g : Graph) →
    NodeMap → Checked (Graph × Graph × NodeMap)
  | [], summary, g, m => return (summary, g, m)
  | (param, arg) :: rest, summary, g, m => do
    match ← summary.nodeFor callee param, arg with
    | (summary, none), _ | (summary, some _), none => pairArgs callee caller rest summary g m
    | (summary, some n), some v =>
      match ← g.nodeFor caller v with
      | (g, none) => pairArgs callee caller rest summary g m
      | (g, some k) => pairArgs callee caller rest summary g (m.add n k)

/-- Maps the node of the returned value of a callee to the node of the result of the call. -/
def pairResult (caller : Scope) (site : InstId) (summary g : Graph) (m : NodeMap) :
    Checked (Graph × NodeMap) := do
  match summary.returnNode with
  | none => return (g, m)
  | some r =>
    match ← caller.func.result? site with
    | none => return (g, m)
    | some v =>
      match ← g.nodeFor caller v with
      | (g, none) => return (g, m)
      | (g, some k) => return (g, m.add r k)

/-- Splices the summary of a callee into the graph of a caller at a call site. If the summary was
given up, everything the call touches escapes. Yields both graphs, and whether the graph of the
caller changed. -/
def spliceCall (p : Program) (g : Graph) (site : CallSite) (summary : Graph) (callee : FuncId) :
    Checked (Graph × Graph × Bool) := do
  if !g.valid then return (g, summary, false)
  match Scope.of? p site.caller, Scope.of? p callee with
  | some s, some t =>
    if !summary.valid then return (← g.escapeAll s site.site, summary, true)
    let params ← t.func.arguments
    let op := (← s.func.inst site.site).op
    let pairs := params.zipIdx.map fun (v, i) => (v, boundTo op i)
    let (summary, g, m) ← pairArgs t s pairs summary g {}
    let (g, m) ← pairResult s site.site summary g m
    let (g, _, changed) ← g.splice summary m
    return (g, summary, changed)
  | _, _ => return (g, summary, false)

end Escape.Graph
