import Escape.Graph.UsePoint

/-!
# Rendered graphs

Three views of a graph for people and tools: one line of text per live node, such as

    n2 Con [int] %4 Esc: A, Succ: (n3), n5

a graph in the DOT language, and a snapshot of the live nodes as plain data.
-/

namespace Escape.Graph

/-! ## Text -/

/-- How far the memory of a node escapes, or, if it does not, by which instructions it is used. -/
def renderState (g : Graph) (n : NodeId) : String :=
  let x := g.node n
  if x.state = .noEscape && !x.usePoints.isEmpty then
    ",".intercalate ((g.usersOf n).map toString)
  else x.state.marker

/-- The successors of a node: its content in parentheses, or in brackets if it is inferred, then the
nodes it defers to. -/
def renderSuccessors (g : Graph) (n : NodeId) : List String :=
  let content := match (g.node n).pointsTo with
    | .none => []
    | .edge c => ["(" ++ toString (g.representative c) ++ ")"]
    | .inferred c => ["[" ++ toString (g.representative c) ++ "]"]
  content ++ (g.node n).defersTo.map toString

/-- The line of one node. -/
def renderNode (g : Graph) (n : NodeId) : String :=
  let x := g.node n
  let flags := (if x.interior then " [int]" else "") ++ (if x.referenceOnly then " [ref]" else "")
  let value := match x.value with
    | some v => " " ++ toString v
    | none => ""
  let successors := match g.renderSuccessors n with
    | [] => ""
    | texts => " " ++ ", ".intercalate texts
  toString n ++ " " ++ x.kind.tag ++ flags ++ value ++ " Esc: " ++ g.renderState n ++ ", Succ:"
    ++ successors

/-- The lines of all live nodes, in order. -/
def render (g : Graph) : List String :=
  if g.valid then g.liveNodes.map g.renderNode else ["<invalid>"]

/-! ## DOT -/

/-- The label of a node in the DOT language. -/
def dotLabel (g : Graph) (n : NodeId) : String :=
  let x := g.node n
  let marker := x.state.marker
  toString n ++ " " ++ x.kind.tag ++ (if marker.isEmpty then "" else " " ++ marker)

/-- The edges of a node in the DOT language. What a node points to by inference is no edge. -/
def dotEdges (g : Graph) (n : NodeId) : List (NodeId × NodeId × String) :=
  let content := match (g.node n).pointsTo with
    | .edge c => [(n, c, "pt")]
    | .none | .inferred _ => []
  content ++ (g.node n).defersTo.map fun d => (n, d, "defer")

/-- The live nodes and the edges between them in the DOT language, line by line. Nodes are numbered
in order. -/
def dot (g : Graph) : List String :=
  let live := g.liveNodes
  let line := fun subject label => "    " ++ subject ++ " [ label = \"" ++ label ++ "\" ]"
  let nodes := live.mapIdx fun i n => line (toString i) (g.dotLabel n)
  let edges := (live.flatMap g.dotEdges).filterMap fun (src, dst, label) => do
    let i ← live.findIdx? (· = src)
    let j ← live.findIdx? (· = dst)
    return line (toString i ++ " -> " ++ toString j) label
  ["digraph \x7b"] ++ nodes ++ edges ++ ["\x7d"]

/-! ## Snapshots -/

/-- A live node as plain data. -/
structure NodeSnapshot where
  id : NodeId
  kind : NodeKind
  state : EscapeState
  value : Option ValueId
  pointsTo : Option NodeId
  defersTo : List NodeId
  users : List InstId

/-- A graph as plain data. -/
structure Snapshot where
  valid : Bool
  summary : Bool
  nodes : List NodeSnapshot

/-- The live nodes of a graph as plain data; none if it was given up. -/
def snapshot (g : Graph) : Snapshot where
  valid := g.valid
  summary := g.summary
  nodes := if !g.valid then [] else g.liveNodes.map fun n =>
    let x := g.node n
    { id := n, kind := x.kind, state := x.state, value := x.value, pointsTo := g.content? n,
      defersTo := x.defersTo, users := g.usersOf n }

end Escape.Graph
