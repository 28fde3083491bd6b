import Escape.Ident

/-!
# Violations

The ways in which a connection graph can fail to be well formed, with the nodes at fault.
-/

namespace Escape

/-- A broken structural rule of a connection graph. -/
inductive Violation where
  | linkedTombstone (node : NodeId)
  | missingMergeTarget (node : NodeId)
  | pendingMerge (node : NodeId)
  | missingPredecessor (source target : NodeId)
  | danglingPredecessor (node pred : NodeId)
  | deferSelfEdge (node : NodeId)
  | edgeToMergedNode (node target : NodeId)
  | pointsToNonContent (node target : NodeId)
  | interiorWithoutContent (node : NodeId)
  | inferredWithoutDefers (node : NodeId)
  | inconsistentWeb (node other expected found : NodeId)
deriving DecidableEq

/-- The text that reports a violation. -/
def Violation.message : Violation → String
  | linkedTombstone n => "merged node " ++ toString n ++ " is still linked into the graph"
  | missingMergeTarget n => "merged node " ++ toString n ++ " has no merge target"
  | pendingMerge n => "node " ++ toString n ++ " is scheduled to merge outside of a merge"
  | missingPredecessor s t =>
    "edge " ++ toString s ++ " -> " ++ toString t ++ " has no matching predecessor entry"
  | danglingPredecessor n p =>
    "predecessor entry " ++ toString p ++ " of " ++ toString n ++ " has no matching edge"
  | deferSelfEdge n => "node " ++ toString n ++ " defers to itself"
  | edgeToMergedNode n t =>
    "node " ++ toString n ++ " has an edge to merged node " ++ toString t
  | pointsToNonContent n t =>
    "points-to edge of " ++ toString n ++ " targets non-content node " ++ toString t
  | interiorWithoutContent n => "interior node " ++ toString n ++ " has no content"
  | inferredWithoutDefers n =>
    "node " ++ toString n ++ " has an inferred points-to but no defer edges"
  | inconsistentWeb n other expected found =>
    "defer web of " ++ toString n ++ " disagrees on content: " ++ toString expected ++ " vs "
      ++ toString found ++ " at " ++ toString other

end Escape
