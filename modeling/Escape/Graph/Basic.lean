import Escape.AssocMap
import Escape.Fault
import Escape.Graph.Node

/-!
# Connection graphs

A connection graph is a table of nodes with a map from values to nodes, a node for the returned
value, and a numbering of the instructions that serve as use points. Nodes are never taken out of
the table; a merged node leads on to the node that represents it. A graph can be given up: it is
then empty and not valid. Main definitions:

* `Graph.node`, `Graph.modify`, `Graph.addNode`: the table of nodes;
* `Graph.representative`: where the merge links of a node lead;
* `Graph.content?`: the content that a node points to.
-/

namespace Escape

/-- A connection graph. -/
structure Graph where
  /-- The function that the graph describes. -/
  owner : Option FuncId := none
  /-- A summary describes what callers of the function can see. -/
  summary : Bool := false
  /-- Cleared when the graph is given up. -/
  valid : Bool := true
  nodes : Array Node := #[]
  values : AssocMap ValueId NodeId := {}
  returnNode : Option NodeId := none
  /-- The use point of each instruction that has one. -/
  usePoints : AssocMap InstId Nat := {}
  /-- The instruction of each use point, `none` once it was deleted. -/
  users : Array (Option InstId) := #[]
  /-- The nodes that wait to be merged, the next one first. -/
  pending : List NodeId := []
deriving Inhabited

namespace Graph

/-- The empty graph of everything a function does. -/
def full (f : FuncId) : Graph := { owner := some f }

/-- The empty graph of what callers of a function can see. -/
def ofCallers (f : FuncId) : Graph := { owner := some f, summary := true }

/-- Drops all nodes, and makes the graph valid again. -/
def clear (g : Graph) : Graph := { owner := g.owner, summary := g.summary }

/-- Gives the graph up. -/
def invalidate (g : Graph) : Graph := { g.clear with valid := false }

/-! ## The table of nodes -/

/-- The number of nodes, tombstones included. -/
def size (g : Graph) : Nat := g.nodes.size

/-- The node that `n` names; a bare node if there is none. -/
def node (g : Graph) (n : NodeId) : Node := g.nodes.getD n.index {}

/-- Changes a node. -/
def modify (g : Graph) (n : NodeId) (f : Node → Node) : Graph :=
  { g with nodes := g.nodes.modify n.index f }

/-- Adds a node. -/
def addNode (g : Graph) (n : Node) : Graph × NodeId :=
  ({ g with nodes := g.nodes.push n }, ⟨g.size⟩)

/-- Stops unless `n` names a node. -/
def require (g : Graph) (n : NodeId) : Checked Unit :=
  if n.index < g.size then .ok () else .error .outOfRange

/-- Passes `n` on if it names a node. -/
def accept (g : Graph) (n : NodeId) : Checked NodeId := do
  g.require n
  return n

/-- All nodes of the table, in order. -/
def nodeIds (g : Graph) : List NodeId := (List.range g.size).map NodeId.mk

/-- Whether a node was not merged into another one. -/
def isLive (g : Graph) (n : NodeId) : Bool := !(g.node n).merged

/-- The nodes that are not tombstones, in order. -/
def liveNodes (g : Graph) : List NodeId := g.nodeIds.filter g.isLive

/-! ## Merge links and contents -/

/-- Follows at most `bound` merge links. -/
def followLinks (g : Graph) : (bound : Nat) → (n : NodeId) → NodeId
  | 0, n => n
  | bound + 1, n =>
    match (g.node n).mergeTo with
    | some m => g.followLinks bound m
    | none => n

/-- The node that `n` is merged into, or waits to be merged into; `n` itself if there is none. Merge
links form no cycle, so there are fewer of them than nodes. -/
def representative (g : Graph) (n : NodeId) : NodeId := g.followLinks g.size n

/-- The content that a node points to. -/
def content? (g : Graph) (n : NodeId) : Option NodeId :=
  (g.node n).pointsTo.target?.map g.representative

/-- The content of what the fields of an object point to. Only an interior node has one. -/
def fieldContent? (g : Graph) (n : NodeId) : Option NodeId :=
  if (g.node n).interior then g.content? n else none

/-- The node of the returned value, made on first request. -/
def ensureReturn (g : Graph) : Graph × NodeId :=
  match g.returnNode with
  | some n => (g, n)
  | none =>
    let (g, n) := g.addNode { kind := .returned }
    ({ g with returnNode := some n }, n)

/-! ## What the operations do to the nodes -/

@[simp] theorem size_modify (g : Graph) (n : NodeId) (f : Node → Node) :
    (g.modify n f).size = g.size := by
  simp [modify, size]

@[simp] theorem size_addNode (g : Graph) (n : Node) : (g.addNode n).1.size = g.size + 1 := by
  simp [addNode, size]

theorem node_modify_self {g : Graph} {n : NodeId} (h : n.index < g.size) (f : Node → Node) :
    (g.modify n f).node n = f (g.node n) := by
  simp only [size] at h
  simp only [modify, node, Array.getD_eq_getD_getElem?, Array.getElem?_modify]
  simp [h]

theorem node_modify_of_ne {g : Graph} {n m : NodeId} (h : m ≠ n) (f : Node → Node) :
    (g.modify n f).node m = g.node m := by
  have hi : n.index ≠ m.index := fun e => h (by cases n; cases m; simp_all)
  simp [modify, node, Array.getD_eq_getD_getElem?, Array.getElem?_modify, hi]

theorem node_addNode_of_lt {g : Graph} {m : NodeId} (h : m.index < g.size) (n : Node) :
    (g.addNode n).1.node m = g.node m := by
  simp only [size] at h
  simp [addNode, node, Array.getD_eq_getD_getElem?, Array.getElem?_push, Nat.ne_of_lt h]

@[simp] theorem node_addNode_self (g : Graph) (n : Node) :
    (g.addNode n).1.node (g.addNode n).2 = n := by
  simp [addNode, node, size, Array.getD_eq_getD_getElem?]

end Graph

end Escape
