import Escape.Graph.Content
import Escape.Graph.State
import Escape.Scope

/-!
# Values and their nodes

Values of one root share a node, which is made when it is first asked for. A loaded value is bound
to the content it was loaded from. Main definitions:

* `Graph.nodeFor`, `Graph.nodeOf?`: the node of a value, with and without making it;
* `Graph.contentFor`, `Graph.contentOf?`: the content of the memory a value points to;
* `Graph.bind`: maps a value to an existing node.
-/

namespace Escape.Graph

/-! ## Nodes of values -/

/-- The node of an anchor, made on first request. A parameter of a full graph is reachable from its
argument. -/
def enter (g : Graph) (a : Scope.Anchor) : Graph × NodeId :=
  match g.values.find? a.root with
  | some n =>
    let n := g.representative n
    let g := g.modify n (·.mergeFlags false a.referenceOnly)
    ({ g with values := g.values.insert a.root n }, n)
  | none =>
    let (g, n) := g.addNode {
      kind := if a.isArgument then .argument else .value
      value := some a.root
      state := if a.isArgument && !g.summary then .argumentReachable else .noEscape
      referenceOnly := a.referenceOnly }
    ({ g with values := g.values.insert a.root n }, n)

/-- The node of a value, made on first request. A value that is no pointer, a function reference or
undefined has none, and neither has any value in a graph that was given up. -/
def nodeFor (g : Graph) (s : Scope) (v : ValueId) : Checked (Graph × Option NodeId) := do
  if !g.valid then return (g, none)
  match ← s.anchor? v with
  | none => return (g, none)
  | some a =>
    let (g, n) := g.enter a
    return (g, some n)

/-- The node of a value, if it was made. -/
def nodeOf? (g : Graph) (s : Scope) (v : ValueId) : Checked (Option NodeId) := do
  if !g.valid then return none
  if !(← s.isPointer v) then return none
  return (g.values.find? (← s.root v)).map g.representative

/-- Maps a value to an existing node. A value that has a node already defers to the new one. -/
def bind (g : Graph) (v : ValueId) (n : NodeId) : Checked Graph := do
  g.require n
  let n := g.representative n
  match g.values.find? v with
  | some existing => return (← g.defer existing n).1
  | none =>
    let g := g.modify n fun x => { x with value := x.value <|> some v }
    return { g with values := g.values.insert v n }

/-! ## Contents of values -/

/-- The content of the memory at an address. -/
def ensureAtAddress (g : Graph) (s : Scope) (address : ValueId) (n : NodeId) :
    Checked (Graph × NodeId) := do
  g.ensureContent n false (← s.pointeeReferenceOnly address)

/-- The object that a reference points to. Without a value nothing is known of its fields. -/
def ensureReferenced (g : Graph) (s : Scope) (reference : Option ValueId) (n : NodeId) :
    Checked (Graph × NodeId) :=
  g.ensureObject n <| match reference with
    | some v => s.fieldsReferenceOnly v
    | none => return false

/-- The content of the memory a value points to, made on first request. -/
def contentFor (g : Graph) (s : Scope) (v : ValueId) : Checked (Graph × Option NodeId) := do
  match ← g.nodeFor s v with
  | (g, none) => return (g, none)
  | (g, some n) =>
    if ← s.isAddress v then
      let (g, c) ← g.ensureAtAddress s v n
      return (g, some c)
    else if (g.node n).referenceOnly then
      let (g, c) ← g.ensureReferenced s (some v) n
      return (g, some c)
    else
      let (g, c) ← g.ensureUnknown n
      return (g, some c)

/-- The content of the memory a value points to, if it was made. -/
def contentOf? (g : Graph) (s : Scope) (v : ValueId) : Checked (Option NodeId) :=
  return (← g.nodeOf? s v).bind g.content?

/-! ## States of values -/

/-- Lets what represents a node escape globally, if there is one. -/
def setGlobal? (g : Graph) : Option NodeId → Graph
  | some n => g.setGlobal n
  | none => g

/-- Lets a value and the memory it points to escape globally. -/
def setValueGlobal (g : Graph) (s : Scope) (v : ValueId) : Checked Graph := do
  let (g, n) ← g.nodeFor s v
  let (g, c) ← (g.setGlobal? n).contentFor s v
  return g.setGlobal? c

/-- Whether any pointer of the function may alias the memory of node `n`, which belongs to `v`. -/
def escapesInside (g : Graph) (s : Scope) (n : NodeId) (v : ValueId) : Checked Bool :=
  return (g.node n).state.escapesInside (← s.isExclusive (← s.root v))

end Escape.Graph
