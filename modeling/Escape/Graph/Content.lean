import Escape.Graph.Merge

/-!
# Contents

The memory that a node addresses is its content, made when it is first asked for. The content of a
reference is an object: an interior node for the object itself, which points on to a node for what
its fields point to.
-/

namespace Escape.Graph

/-- A fresh content for `n`, shared by the whole web of `n`. -/
def createContent (g : Graph) (n : NodeId) (interior referenceOnly : Bool) :
    Checked (Graph × NodeId) := do
  let (g, c) := g.addNode { kind := .content, interior, referenceOnly }
  return (← g.spread n c true, c)

/-- The content of `n`, made on first request. An existing content takes over the flags; a new one
starts with the state and the use points of `n`. -/
def ensureContent (g : Graph) (n : NodeId) (interior referenceOnly : Bool) :
    Checked (Graph × NodeId) := do
  g.require n
  match g.content? n with
  | some c => return (g.modify c (·.mergeFlags interior referenceOnly), c)
  | none =>
    let (g, c) ← g.createContent n interior referenceOnly
    return ((g.modify c (·.raise (g.node n).state)).copyUsePoints n c, c)

/-- The content of a pointer that may address anything. -/
def ensureUnknown (g : Graph) (n : NodeId) : Checked (Graph × NodeId) :=
  g.ensureContent n false false

/-- The object that a reference points to, with a content for what its fields point to. If the
content of the reference is not interior there are no fields to tell apart. `fieldsReferenceOnly` is
asked only if there are. -/
def ensureObject (g : Graph) (n : NodeId) (fieldsReferenceOnly : Checked Bool) :
    Checked (Graph × NodeId) := do
  let (g, object) ← g.ensureContent n true false
  if !(g.node object).interior then return (g, object)
  let (g, _) ← g.ensureContent object false (← fieldsReferenceOnly)
  return (g, object)

end Escape.Graph
