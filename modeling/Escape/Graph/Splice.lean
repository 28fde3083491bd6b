import Escape.Graph.Content
import Escape.Graph.State

/-!
# Splicing graphs

What a source graph says about some of its nodes is carried over to a destination graph. A node map
starts with the nodes on which the graphs agree, and the splice extends it to the contents reachable
from them. States of the source are relative to its function, so of those only a global escape is
carried over.
-/

namespace Escape

/-- Nodes of a source graph with the destination nodes they stand for, in the order in which they
were added. -/
structure NodeMap where
  pairs : AssocMap NodeId NodeId := {}
deriving Inhabited

namespace NodeMap

/-- Maps `src` to `dst`, unless `src` is mapped already. -/
def add (m : NodeMap) (src dst : NodeId) : NodeMap :=
  if m.pairs.contains src then m else ⟨m.pairs.insert src dst⟩

/-- The number of mapped nodes. -/
def size (m : NodeMap) : Nat := m.pairs.size

/-- The source node added as number `i`. -/
def source? (m : NodeMap) (i : Nat) : Option NodeId := m.pairs.entries[i]?.map (·.1)

/-- All mapped nodes of the source, in order. -/
def sources (m : NodeMap) : List NodeId := m.pairs.entries.map (·.1)

/-- What represents, in the graph `g`, the node that `src` stands for. -/
def get? (m : NodeMap) (g : Graph) (src : NodeId) : Option NodeId :=
  (m.pairs.find? src).map g.representative

/-- As `get?`, for a map whose nodes are not known to exist. -/
def resolve? (m : NodeMap) (g : Graph) (src : NodeId) : Checked (Option NodeId) := do
  if let some dst := m.pairs.find? src then g.require dst
  return m.get? g src

end NodeMap

namespace Graph

/-- Carries over what the source node `src`, standing for `dst`, points to. Below a node that
escapes globally nothing is carried over, except that an interior node needs a content. -/
def spliceContent (source : Graph) (src dst : NodeId) (g : Graph) (m : NodeMap) :
    Checked (Graph × NodeMap × Bool) := do
  let isGlobal : Bool := (source.node src).state = .globalEscaping
  let (g, raised) := if isGlobal then g.raise dst .globalEscaping else (g, false)
  let x := g.node dst
  if isGlobal && (!x.interior || x.pointsTo.isSet) then return (g, m, raised)
  match source.content? src with
  | none => return (g, m, raised)
  | some c =>
    match ← m.resolve? g c, g.content? dst with
    | none, some d => return (g, m.add c d, raised)
    | none, none =>
      let y := source.node c
      let (g, d) ← g.createContent dst y.interior y.referenceOnly
      return (g, m.add c d, true)
    | some d, some d' => if d' = d then return (g, m, raised) else return (g.schedule d' d, m, true)
    | some d, none => return (← g.spread dst d true, m, true)

/-- Carries over the contents of the mapped nodes from number `i` on. Contents that are new to the
map are added at its end. -/
def spliceContents (source : Graph) : (bound i : Nat) → Graph → NodeMap → Bool →
    Checked (Graph × NodeMap × Bool)
  | 0, _, g, m, changed => return (g, m, changed)
  | bound + 1, i, g, m, changed => do
    match m.pairs.entries[i]? with
    | none => return (g, m, changed)
    | some (src, dst) =>
      g.require dst
      source.require src
      let (g, m, c) ← spliceContent source src (g.representative dst) g m
      spliceContents source bound (i + 1) g m (changed || c)

/-- Carries over one node that `src`, standing for `dst`, defers to, directly or through others.
Yields the node that `dst` has become. -/
def spliceDefer (source : Graph) (m : NodeMap) (acc : Graph × NodeId × Bool) (n : NodeId) :
    Checked (Graph × NodeId × Bool) := do
  let (g, dst, changed) := acc
  match m.get? g n with
  | some d =>
    let (g, dst, c) ← g.deferTracked dst d
    return (g, dst, changed || c)
  | none =>
    if (source.node n).state = .globalEscaping then
      let (g, c) := g.raise dst .globalEscaping
      return (g, dst, changed || c)
    else return acc

/-- Carries over everything that the mapped node `src` defers to. -/
def spliceDefers (source : Graph) (m : NodeMap) (acc : Graph × Bool) (src : NodeId) :
    Checked (Graph × Bool) := do
  let (g, changed) := acc
  match m.get? g src with
  | none => return acc
  | some dst =>
    let reached := closure (fun n => (source.node n).defersTo) source.size src
    let (g, _, changed) ← reached.foldlM (spliceDefer source m) (g, dst, changed)
    return (g, changed)

/-- Carries over what `source` says about the mapped nodes and what can be reached from them. Yields
the extended map, and whether the graph changed. The map grows by nodes of the source only. -/
def splice (g source : Graph) (m : NodeMap) : Checked (Graph × NodeMap × Bool) := do
  if !(g.valid && source.valid) then throw .spliceInvalid
  let (g, m, changed) ← spliceContents source (m.size + source.size) 0 g m false
  let g ← g.settle
  let (g, changed) ← m.sources.foldlM (spliceDefers source m) (g, changed)
  return (g, m, changed)

end Graph

end Escape
