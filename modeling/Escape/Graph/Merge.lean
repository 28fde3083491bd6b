import Escape.Graph.Web

/-!
# Merging

A defer edge between two nodes with different contents merges the contents, which may in turn merge
what they point to, and so on. Merges are scheduled and then carried out one at a time. Main
definitions:

* `Graph.schedule`: marks a content to be merged into another one;
* `Graph.absorb`: carries out one scheduled merge, which may schedule others;
* `Graph.settle`: carries out all scheduled merges;
* `Graph.defer`: adds a defer edge.
-/

namespace Escape.Graph

/-! ## Scheduling -/

/-- Lets `dst` take over the flags of `src`. Two descriptions of one memory are interior if one of
them is; but where one of the nodes is the content of the other, the outcome is what the content
says of itself. -/
def inheritFlags (g : Graph) (src dst : NodeId) : Graph :=
  let s := g.node src
  let d := g.node dst
  let interior :=
    if d.pointsTo.target? = some src then s.interior
    else if s.pointsTo.target? = some dst then d.interior
    else d.interior || s.interior
  g.modify dst fun x => { x with interior, referenceOnly := x.referenceOnly && s.referenceOnly }

/-- Schedules content `src` to be merged into content `dst`, unless one node represents both. -/
def schedule (g : Graph) (src dst : NodeId) : Graph :=
  let src := g.representative src
  let dst := g.representative dst
  if src = dst then g
  else
    let g := (g.inheritFlags src dst).modify src fun x => { x with mergeTo := some dst }
    { g with pending := src :: g.pending }

/-! ## One merge -/

/-- Moves an edge that comes in at `src`: a points-to edge now leads to `dst`, and a defer edge is
unlinked. -/
def redirectPred (src dst : NodeId) (g : Graph) (p : Pred) : Checked Graph :=
  match p.kind with
  | .pointsTo => if p.node = src then return g else g.setEdge p.node dst
  | .defer =>
    return g.modify p.node fun x => { x with defersTo := x.defersTo.filter (· ≠ src) }

/-- Moves the points-to edge of `src` over to `dst`, unless `dst` has an edge of its own. -/
def moveEdge (g : Graph) (src dst : NodeId) : Checked Graph :=
  match (g.node src).pointsTo with
  | .edge c =>
    let redirect := fun m => if m = src then dst else m
    let g := g.modify c (·.erasePred ⟨.pointsTo, src⟩)
    match (g.node dst).pointsTo with
    | .none => g.spread dst (redirect c) true
    | .inferred d =>
      let d := redirect d
      return (g.modify dst fun x => { x with pointsTo := .edge d }).modify d
        (·.addPred ⟨.pointsTo, dst⟩)
    | .edge _ => return g
  | .none | .inferred _ => return g

/-- Moves a defer edge between `src` and `other` over to `dst`, and lets `dst` and `other` agree on
their content. -/
def moveDefer (src dst : NodeId) (g : Graph) (other : NodeId) (isSuccessor : Bool) :
    Checked Graph := do
  if other = dst then return g
  let g ← if (g.node other).pointsTo.target? = some src then g.repoint other dst else pure g
  let (g, _) ← if isSuccessor then g.addDefer dst other else g.addDefer other dst
  match (g.node other).pointsTo.target?, (g.node dst).pointsTo.target? with
  | some _, some c => g.repoint other c
  | some c, none => g.spread dst c false
  | none, some c => g.spread other c false
  | none, none => return g

/-- Lets the web around the origin of an edge to `n` point to `n` as well. -/
def alignPred (n : NodeId) (g : Graph) (p : Pred) : Checked Graph :=
  match p.kind with
  | .pointsTo =>
    let align := fun (g : Graph) m => if (g.node m).pointsTo.isSet then g.repoint m n else pure g
    (g.neighbours p.node).foldlM align g
  | .defer => pure g

/-- Aligns the webs around all edges to `n`, from position `i` of their list on. Nodes that come to
point to `n` on the way are listed at the end. -/
def alignPreds (n : NodeId) : (bound i : Nat) → Graph → Checked Graph
  | 0, _, g => return g
  | bound + 1, i, g =>
    match (g.node n).preds[i]? with
    | none => return g
    | some p => do alignPreds n bound (i + 1) (← alignPred n g p)

/-- Lets `dst` represent the value of `src`, if it has none of its own. -/
def moveValue (g : Graph) (src dst : NodeId) : Graph :=
  match (g.node src).value, (g.node dst).value with
  | some v, none =>
    { g.modify dst fun x => { x with value := some v } with values := g.values.insert v dst }
  | _, _ => g

/-- Merges the scheduled node `src` into the node that represents it. -/
def absorb (g : Graph) (src : NodeId) : Checked Graph := do
  let dst := g.representative src
  if dst = src then throw .mergeWithoutTarget
  if !((g.node src).isContent && (g.node dst).isContent) then throw .mergeNonContent
  -- unlink the edges of `src`
  let preds := (g.node src).preds
  let g ← preds.foldlM (redirectPred src dst) g
  let defers := (g.node src).defersTo
  let g := defers.foldl (fun g d => g.modify d (·.erasePred ⟨.defer, src⟩)) g
  -- the contents of both sides are to be merged as well
  let content := (g.node src).pointsTo.target?
  let g ← g.moveEdge src dst
  let g := match (g.node dst).pointsTo.target?, content with
    | some d, some c => if d = src then g else g.schedule (if c = src then dst else c) d
    | _, _ => g
  let g ← if (g.node dst).pointsTo.target? = some src then g.repoint dst dst else pure g
  -- the defer edges of `src` become edges of `dst`
  let deferrers := preds.filterMap fun p => if p.kind = .defer then some p.node else none
  let g ← deferrers.foldlM (fun g m => moveDefer src dst g m false) g
  let g ← defers.foldlM (fun g m => moveDefer src dst g m true) g
  -- nodes that pointed to `src` point to `dst` by now, and their webs follow
  let g ← alignPreds dst ((g.node dst).preds.length + g.size) 0 g
  let g := (g.modify dst (·.raise (g.node src).state)).copyUsePoints src dst
  return (g.moveValue src dst).modify src Node.tombstone

/-- Carries out at most `bound` scheduled merges, and those that they schedule. -/
def settleUpTo : (bound : Nat) → Graph → Checked Graph
  | 0, g => return g
  | bound + 1, g => do
    match g.pending with
    | [] => return g
    | n :: rest => settleUpTo bound (← { g with pending := rest }.absorb n)

/-- Carries out all scheduled merges. No node is scheduled twice, so there are no more merges than
nodes besides those that are pending now. -/
def settle (g : Graph) : Checked Graph := settleUpTo (g.pending.length + g.size) g

/-! ## Defer edges -/

/-- Adds a defer edge from `src` to `dst`. If both have contents, the contents are merged; if one
has, the other gets it. Yields the node that `src` has become, and whether anything changed. -/
def deferTracked (g : Graph) (src dst : NodeId) : Checked (Graph × NodeId × Bool) := do
  if src = dst then return (g, src, false)
  g.require src
  if dst ∈ (g.node src).defersTo then return (g, src, false)
  g.require dst
  let srcContent := (g.node src).pointsTo.target?
  let dstContent := (g.node dst).pointsTo.target?
  let (g, merged) ← match srcContent, dstContent with
    | some c, some d => if c = d then pure (g, false) else pure (← (g.schedule c d).settle, true)
    | _, _ => pure (g, false)
  let s := g.representative src
  let d := g.representative dst
  let (g, added) ← g.addDefer s d
  let g ← match srcContent, dstContent with
    | none, some c => g.spread s c false
    | some c, none => g.spread d c false
    | _, _ => pure g
  return (g, g.representative src, merged || added)

/-- Adds a defer edge from `src` to `dst`. Yields the node that `src` has become. -/
def defer (g : Graph) (src dst : NodeId) : Checked (Graph × NodeId) := do
  let (g, n, _) ← g.deferTracked src dst
  return (g, n)

end Escape.Graph
