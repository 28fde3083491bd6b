import Escape.Data
import Escape.Graph.Render

/-!
# Graphs as data

States and kinds of nodes, and snapshots of graphs. A snapshot leaves out what a node does not have.
-/

namespace Escape

instance : ToData EscapeState := ⟨fun s => .text (toString s)⟩

instance : OfData EscapeState :=
  ⟨Data.member? [.noEscape, .returned, .argumentReachable, .globalEscaping] toString⟩

instance : ToData UsePointSet := ⟨fun s => .record [("bits", toData s.bits)]⟩

/-- Use points are 32 bits wide. The members are taken as they are listed. -/
instance : OfData UsePointSet where
  ofData? d := do
    match ← (← d.asRecord? ["bits"]).field? "bits" with
    | .list items => return ⟨← items.mapM (·.nat? UInt32.size)⟩
    | _ => none

instance : ToData NodeKind where
  toData
    | .value => .text "Value"
    | .content => .text "Content"
    | .argument => .text "Argument"
    | .returned => .text "Return"

namespace Graph

/-- An optional field of a record. -/
def optionalField {α : Type} [ToData α] (name : String) (a : Option α) : List (String × Data) :=
  (a.map fun a => (name, toData a)).toList

/-- A field for a list, left out if the list is empty. -/
def listField {α : Type} [ToData α] (name : String) (xs : List α) : List (String × Data) :=
  if xs.isEmpty then [] else [(name, toData xs)]

instance : ToData NodeSnapshot where
  toData n := .record <|
    [("id", toData n.id), ("kind", toData n.kind), ("state", toData n.state)]
      ++ optionalField "value" n.value ++ optionalField "points_to" n.pointsTo
      ++ listField "defers_to" n.defersTo ++ listField "use_points" n.users

instance : ToData Snapshot where
  toData s := .record [("valid", toData s.valid), ("summary", toData s.summary),
    ("nodes", toData s.nodes)]

end Graph

end Escape
