import Escape.Graph.Basic
import Escape.Worklist

/-!
# Defer webs

Nodes that are joined by defer edges, in either direction, form a web, and all nodes of a web that
point anywhere point to the same content. Some nodes of the web have it by an edge; the nodes that
defer to them have it by inference. Main definitions:

* `Graph.setEdge`, `Graph.addDefer`: the two kinds of edges;
* `Graph.spread`: gives a content to the part of a web that has none;
* `Graph.repoint`: gives another content to a web.
-/

namespace Escape.Graph

/-! ## Edges -/

/-- Makes `content` the edge of `n`. -/
def setEdge (g : Graph) (n content : NodeId) : Checked Graph :=
  if (g.node content).mergeTo.isSome then .error .edgeToMerged
  else if !(g.node content).isContent then .error .edgeToNonContent
  else .ok ((g.modify n fun x => { x with pointsTo := .edge content }).modify content
    (·.addPred ⟨.pointsTo, n⟩))

/-- Whether a defer edge from `src` to `dst` would be new. -/
def canDefer (g : Graph) (src dst : NodeId) : Bool := src ≠ dst && dst ∉ (g.node src).defersTo

/-- Adds a defer edge, and nothing else. Tells whether it was new. -/
def addDefer (g : Graph) (src dst : NodeId) : Checked (Graph × Bool) :=
  if (g.node dst).merged then .error .deferToMerged
  else if g.canDefer src dst then
    .ok ((g.modify src fun x => { x with defersTo := x.defersTo ++ [dst] }).modify dst
      (·.addPred ⟨.defer, src⟩), true)
  else .ok (g, false)

/-- The nodes joined to `n` by a defer edge: those that defer to it, then those it defers to. -/
def neighbours (g : Graph) (n : NodeId) : List NodeId :=
  (g.node n).deferPreds ++ (g.node n).defersTo

/-- Adds the use points of `src` to `dst`. -/
def copyUsePoints (g : Graph) (src dst : NodeId) : Graph :=
  if src = dst then g else g.modify dst (·.addUsePoints (g.node src).usePoints)

/-! ## Giving a content to a web -/

/-- Lets `n` point to `content` by inference. -/
def infer (content : NodeId) (g : Graph) (n : NodeId) : Graph :=
  (g.modify n fun x => { x with pointsTo := .inferred content }).copyUsePoints n content

/-- The nodes without content that defer to `n`. -/
def bareDeferrers (g : Graph) (n : NodeId) : List NodeId :=
  (g.node n).deferPreds.filter fun m => !(g.node m).pointsTo.isSet

/-- Lets `n` point to `content` by an edge, if it points nowhere yet. -/
def ensureEdge (content : NodeId) (g : Graph) (n : NodeId) : Checked Graph :=
  if (g.node n).pointsTo.isSet then return g
  else return (← g.setEdge n content).copyUsePoints n content

/-- Lets `n` point to `content`, by an edge if it points nowhere yet, and passes the content on to
all nodes without one that defer to `n`, directly or through each other. -/
def give (content : NodeId) (g : Graph) (n : NodeId) : Checked Graph := do
  let g ← ensureEdge content g n
  return (closure g.bareDeferrers g.size n).tail.foldl (infer content) g

/-- Looks through the part of the web of `n` that has no content: the walk goes on from nodes
without content and turns back at the others. -/
def survey (g : Graph) (n : NodeId) : Walk NodeId :=
  let verdict := fun m => if (g.node m).pointsTo.isSet then Verdict.backtrack else .follow
  Walk.run g.neighbours verdict g.size 0 (Walk.visit verdict {} n)

/-- Gives `content` to the part of the web of `n` that has none; the rest of the web points to it
already. The leaves of the web get an edge, and so does `n` if `own` is set. Where this leaves out a
cycle of defer edges, one node of the cycle gets an edge. -/
def spread (g : Graph) (n content : NodeId) (own : Bool) : Checked Graph := do
  let seen := g.survey n
  let sources := seen.trail.toList.filter fun m =>
    (g.node m).pointsTo.isSet || (g.node m).defersTo.isEmpty
  let sources := if own then n :: sources else sources
  let g ← sources.reverse.foldlM (give content) g
  seen.frontier.items.toList.reverse.foldlM
    (fun g m => if (g.node m).pointsTo.isSet then pure g else give content g m) g

/-! ## Giving another content to a web -/

/-- Lets `n`, which points somewhere, point to `content` in the same way. -/
def repointNode (content : NodeId) (g : Graph) (n : NodeId) : Checked Graph :=
  match (g.node n).pointsTo with
  | .edge old => (g.modify old (·.erasePred ⟨.pointsTo, n⟩)).setEdge n content
  | .inferred _ => return g.modify n fun x => { x with pointsTo := .inferred content }
  | .none => return g

/-- Whether `n` points to something other than `content`. -/
def isStale (g : Graph) (content n : NodeId) : Bool :=
  match (g.node n).pointsTo.target? with
  | some c => c ≠ content
  | none => false

/-- Lets `n` point to `content` if it points elsewhere, and lists it as turned. The pair holds the
graph as it is by now and the nodes turned so far. -/
def turn (content : NodeId) (s : Graph × Worklist NodeId) (n : NodeId) :
    Checked (Graph × Worklist NodeId) := do
  if s.2.contains n || !s.1.isStale content n then return s
  return (← repointNode content s.1 n, s.2.push n)

/-- Turns the neighbours that `n` has by now. -/
def turnNeighbours (content : NodeId) (s : Graph × Worklist NodeId) (n : NodeId) :
    Checked (Graph × Worklist NodeId) :=
  (s.1.neighbours n).foldlM (turn content) s

/-- Goes through the nodes that were turned, from position `i` on and at most `bound` of them. Nodes
that are turned on the way are listed at the end. -/
def turnWeb (content : NodeId) : (bound i : Nat) → Graph × Worklist NodeId → Checked Graph
  | 0, _, s => return s.1
  | bound + 1, i, s =>
    match s.2.items[i]? with
    | none => return s.1
    | some n => do turnWeb content bound (i + 1) (← turnNeighbours content s n)

/-- Lets `n` and the web around it point to what represents `content`, where they point elsewhere.
-/
def repoint (g : Graph) (n content : NodeId) : Checked Graph :=
  let content := g.representative content
  match (g.node n).pointsTo.target? with
  | none => .error .repointUninitialized
  | some old =>
    if old = content then .ok g
    else do turnWeb content g.size 0 (← turn content (g, {}) n)

end Escape.Graph
