import Escape.Graph.Basic
import Escape.Graph.Web

/-!
# Checking a graph

The structural rules of connection graphs, checked node by node. `Graph.check` reports the first
violation it comes to. Inside a merge some nodes may still wait to be merged; then the rules on webs
are not checked.
-/

namespace Escape.Graph

/-- Reports `v` if the condition fails. -/
def ensure (c : Bool) (v : Violation) : Except Violation Unit := if c then .ok () else .error v

/-- A tombstone leads on to another node, is a content, and is linked to nothing. -/
def checkTombstone (g : Graph) (n : NodeId) : Except Violation Unit := do
  let x := g.node n
  ensure x.mergeTo.isSome (.missingMergeTarget n)
  ensure (!x.pointsTo.isSet && x.defersTo.isEmpty && x.preds.isEmpty && x.usePoints.isEmpty
    && x.isContent) (.linkedTombstone n)

/-- What `n` points to is live, and an edge leads to a content that lists it. An interior node
points somewhere. -/
def checkPointsTo (g : Graph) (n : NodeId) : Except Violation Unit :=
  match (g.node n).pointsTo with
  | .none => ensure (!(g.node n).interior) (.interiorWithoutContent n)
  | .inferred c => ensure (!(g.node c).merged) (.edgeToMergedNode n c)
  | .edge c => do
    ensure (!(g.node c).merged) (.edgeToMergedNode n c)
    ensure (g.node c).isContent (.pointsToNonContent n c)
    ensure (⟨.pointsTo, n⟩ ∈ (g.node c).preds) (.missingPredecessor n c)

/-- A defer edge leads to another, live node that lists it. -/
def checkDefer (g : Graph) (n d : NodeId) : Except Violation Unit := do
  ensure (d ≠ n) (.deferSelfEdge n)
  ensure (!(g.node d).merged) (.edgeToMergedNode n d)
  ensure (⟨.defer, n⟩ ∈ (g.node d).preds) (.missingPredecessor n d)

/-- An edge that is listed at `n` is an edge. -/
def checkPred (g : Graph) (n : NodeId) (p : Pred) : Except Violation Unit :=
  let linked : Bool := match p.kind with
    | .pointsTo => (g.node p.node).pointsTo = .edge n
    | .defer => n ∈ (g.node p.node).defersTo
  ensure linked (.danglingPredecessor n p.node)

/-- The rules on one node and its edges. -/
def checkNode (g : Graph) (allowPending : Bool) (n : NodeId) : Except Violation Unit := do
  if (g.node n).merged then g.checkTombstone n
  else
    ensure (allowPending || (g.node n).mergeTo.isNone) (.pendingMerge n)
    g.checkPointsTo n
    (g.node n).defersTo.forM (g.checkDefer n)
    (g.node n).preds.forM (g.checkPred n)

/-- The nodes joined to `n` by a defer edge: those it defers to, then those that defer to it. -/
def webNeighbours (g : Graph) (n : NodeId) : List NodeId :=
  (g.node n).defersTo ++ (g.node n).deferPreds

/-- A node that points somewhere has an edge or a neighbour in its web, and agrees on its content
with every node of the web that points anywhere. -/
def checkWeb (g : Graph) (n : NodeId) : Except Violation Unit :=
  match (g.node n).pointsTo.target? with
  | none => .ok ()
  | some c => do
    ensure ((g.node n).pointsTo.isEdge || !(g.webNeighbours n).isEmpty) (.inferredWithoutDefers n)
    (closure g.webNeighbours g.size n).forM fun m =>
      match g.content? m with
      | some d => ensure (d = g.representative c) (.inconsistentWeb n m c d)
      | none => .ok ()

/-- Checks all structural rules. A graph that was given up breaks none. -/
def check (g : Graph) (allowPending : Bool) : Except Violation Unit :=
  if !g.valid then .ok ()
  else do
    g.nodeIds.forM (g.checkNode allowPending)
    if !allowPending then g.liveNodes.forM g.checkWeb

end Escape.Graph
