import Escape.Graph.Basic

/-!
# Escape states in a graph

What a node points or defers to is visible at least as far as the node itself. States are raised at
single nodes first and pushed along the edges later, in sweeps over all nodes until one of them
changes nothing.
-/

namespace Escape.Graph

/-- Raises the state of what represents `n`. Tells whether it was smaller. -/
def raise (g : Graph) (n : NodeId) (s : EscapeState) : Graph × Bool :=
  let r := g.representative n
  (g.modify r (·.raise s), decide ((g.node r).state < s))

/-- Lets what represents `n` escape globally. -/
def setGlobal (g : Graph) (n : NodeId) : Graph := (g.raise n .globalEscaping).1

/-- Raises a node to a state, and remembers whether any node grew. -/
def raiseTo (s : EscapeState) (acc : Graph × Bool) (n : NodeId) : Graph × Bool :=
  (acc.1.modify n (·.raise s), acc.2 || decide ((acc.1.node n).state < s))

/-- Pushes the state of `n` along the edges that leave it. -/
def pushState (acc : Graph × Bool) (n : NodeId) : Graph × Bool :=
  let g := acc.1
  if (g.node n).merged then acc
  else ((g.content? n).toList ++ (g.node n).defersTo).foldl (raiseTo (g.node n).state) acc

/-- Pushes the state of every node along its edges, in order of the nodes. -/
def sweepStates (g : Graph) : Graph × Bool := g.nodeIds.foldl pushState (g, false)

/-- Sweeps until nothing changes, at most `bound` times. -/
def propagateUpTo : (bound : Nat) → Graph → Graph × Bool
  | 0, g => (g, false)
  | bound + 1, g =>
    let (g', changed) := g.sweepStates
    if changed then ((propagateUpTo bound g').1, true) else (g', false)

/-- Pushes states along all edges until nothing changes. Tells whether anything did. Each sweep but
the last raises a node, and each node can be raised three times. -/
def propagate (g : Graph) : Graph × Bool := propagateUpTo (3 * g.size + 1) g

end Escape.Graph
