import Escape.EscapeState
import Escape.Ident
import Escape.UsePointSet

/-!
# Nodes

A node of a connection graph stands for a pointer value, for the memory that pointers address, or
for the returned value. A node points to the content of the memory it addresses, by an edge of its
own or by inference along defer edges, and it defers to nodes that have to agree with it on their
content. Every edge is also listed at its target. A node that was merged into another one stays
behind as a tombstone that only says where it went.
-/

namespace Escape

/-- What a node stands for. -/
inductive NodeKind where
  /-- A pointer value. -/
  | value
  /-- Memory that pointers address. -/
  | content
  /-- A parameter of the function. -/
  | argument
  /-- The returned value. -/
  | returned
deriving DecidableEq, Inhabited

/-- The three letters that stand for a kind in a rendered graph. -/
def NodeKind.tag : NodeKind → String
  | value => "Val"
  | content => "Con"
  | argument => "Arg"
  | returned => "Ret"

/-- The two kinds of edges. -/
inductive EdgeKind where
  | pointsTo
  | defer
deriving DecidableEq

/-- The entry of an edge at its target: the kind of the edge and the node it comes from. -/
structure Pred where
  kind : EdgeKind
  node : NodeId
deriving DecidableEq

/-- What a node points to. -/
inductive Pointee where
  /-- Nothing yet. -/
  | none
  /-- A content that the node has by inference, because its defer web has it. -/
  | inferred (content : NodeId)
  /-- A content that the node has by an edge of its own. -/
  | edge (content : NodeId)
deriving DecidableEq, Inhabited

namespace Pointee

/-- The content pointed to. -/
def target? : Pointee → Option NodeId
  | none => Option.none
  | inferred c | edge c => some c

/-- Whether there is a content. -/
def isSet (p : Pointee) : Bool := p.target?.isSome

/-- Whether the content is had by an edge. -/
def isEdge : Pointee → Bool
  | edge _ => true
  | none | inferred _ => false

end Pointee

/-- A node of a connection graph. -/
structure Node where
  kind : NodeKind := .value
  /-- A value that the node represents, if any. -/
  value : Option ValueId := none
  pointsTo : Pointee := .none
  defersTo : List NodeId := []
  preds : List Pred := []
  usePoints : UsePointSet := {}
  state : EscapeState := .noEscape
  /-- The node that this one is merged into, or waits to be merged into. -/
  mergeTo : Option NodeId := none
  /-- Whether the node is a tombstone. -/
  merged : Bool := false
  /-- Whether the content is embedded in the object that its predecessor points to. -/
  interior : Bool := false
  /-- Whether the memory holds references to objects and no other pointers. -/
  referenceOnly : Bool := false
deriving DecidableEq, Inhabited

namespace Node

/-- Whether the node stands for memory. -/
def isContent (n : Node) : Bool := n.kind = .content

/-- Raises the state of a node; a smaller state has no effect. -/
def raise (s : EscapeState) (n : Node) : Node := { n with state := n.state.join s }

/-- Takes over the flags of another description of the same memory: it is interior if one of them
says so, and holds references only if both do. -/
def mergeFlags (interior referenceOnly : Bool) (n : Node) : Node :=
  { n with
    interior := n.interior || interior
    referenceOnly := n.referenceOnly && referenceOnly }

/-- The nodes that defer to a node. -/
def deferPreds (n : Node) : List NodeId :=
  n.preds.filterMap fun p => if p.kind = .defer then some p.node else none

/-- Lists an edge at its target. -/
def addPred (p : Pred) (n : Node) : Node := { n with preds := n.preds ++ [p] }

/-- Unlists an edge at its target: the last entry takes the place of the first `p`. -/
def erasePred (p : Pred) (n : Node) : Node :=
  match n.preds.findIdx? (· = p), n.preds.getLast? with
  | some i, some last => { n with preds := (n.preds.set i last).dropLast }
  | _, _ => n

/-- Adds use points. -/
def addUsePoints (s : UsePointSet) (n : Node) : Node :=
  { n with usePoints := (n.usePoints.union s).1 }

/-- What remains of a node that was merged into another one. -/
def tombstone (n : Node) : Node :=
  { n with
    merged := true
    value := none
    pointsTo := .none
    defersTo := []
    preds := []
    usePoints := {} }

end Node

end Escape
