import Escape.Graph.Basic
import Escape.Worklist

/-!
# Traversals

Walks along the edges of a graph: along defer edges in either direction, under a verdict on each
node, and along all edges.
-/

namespace Escape.Graph

/-- The nodes that `n` points or defers to. -/
def successors (g : Graph) (n : NodeId) : List NodeId :=
  (g.content? n).toList ++ (g.node n).defersTo

/-- Walks along defer edges from `n`. -/
def walkForward (g : Graph) (verdict : NodeId → Verdict) (n : NodeId) : Walk NodeId :=
  Walk.start (fun m => (g.node m).defersTo) verdict g.size n

/-- Walks against defer edges from `n`. -/
def walkBackward (g : Graph) (verdict : NodeId → Verdict) (n : NodeId) : Walk NodeId :=
  Walk.start (fun m => (g.node m).deferPreds) verdict g.size n

/-- All nodes that can be reached from what represents `n`. -/
def reach (g : Graph) (n : NodeId) : List NodeId :=
  closure g.successors g.size (g.representative n)

/-- Whether what represents `dst` can be reached from what represents `src`. -/
def isReachable (g : Graph) (src dst : NodeId) : Bool := g.representative dst ∈ g.reach src

/-- What `n` points to, and what represents the nodes it defers to. -/
def heirs (g : Graph) (n : NodeId) : List NodeId :=
  (g.content? n).toList ++ (g.node n).defersTo.map g.representative

/-- Whether a node that escapes globally can be reached from what represents `n`. Unlike other
searches, this one goes from merged nodes on to what represents them. -/
def reachesGlobal (g : Graph) (n : NodeId) : Bool :=
  (closure g.heirs g.size (g.representative n)).any fun m => (g.node m).state = .globalEscaping

/-- Whether a node passes the test on the path that starts at a node and goes on by `next`, among
the first `bound` nodes of the path. -/
def someAlong (next : NodeId → Option NodeId) (test : NodeId → Bool) : (bound : Nat) → NodeId → Bool
  | 0, _ => false
  | bound + 1, n => test n || (next n).any (someAlong next test bound)

/-- Whether `n`, its content, the content of that, and so on, hold a node that passes the test. A
path that comes back to a node holds no further ones, so the number of nodes bounds it. -/
def someContent (g : Graph) (test : NodeId → Bool) (n : NodeId) : Bool :=
  someAlong g.content? test g.size n

/-- The same within the object of `n`: the path goes on from interior nodes only. -/
def someInterior (g : Graph) (test : NodeId → Bool) (n : NodeId) : Bool :=
  someAlong g.fieldContent? test g.size n

end Escape.Graph
