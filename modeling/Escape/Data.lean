import Escape.Ident

/-!
# Plain data

Programs, settings and graphs are exchanged with tools as plain data: numbers, texts, lists and
records. `ToData` writes a value as data and `OfData` reads it back. Reading follows four rules:

* a record is read from its fields by name, or from the list of all its fields in order;
* fields with unknown names are skipped, and an optional field may be missing or null;
* a variant is the text of its name, or a record with one field of that name;
* a number is whole and fits its width: 32 bits for identifiers, 64 bits for the rest.
-/

namespace Escape

/-- Plain data. -/
inductive Data where
  | null
  | bool (b : Bool)
  /-- The decimal number `digits / 10 ^ places`, as it is written. -/
  | number (digits : Int) (places : Nat)
  | text (s : String)
  | list (items : List Data)
  | record (fields : List (String × Data))
deriving Inhabited

/-- Types with values that can be written as data. -/
class ToData (α : Type) where
  toData : α → Data

/-- Types with values that can be read from data. -/
class OfData (α : Type) where
  ofData? : Data → Option α

export ToData (toData)
export OfData (ofData?)

namespace Data

/-! ## Numbers -/

/-- The whole number that the data is, if it lies from `min` up to but not including `bound`. -/
def int? (min bound : Int) : Data → Option Int
  | number n 0 => if min ≤ n ∧ n < bound then some n else none
  | _ => none

/-- The natural number below `bound` that the data is. -/
def nat? (bound : Nat) (d : Data) : Option Nat := (d.int? 0 bound).map Int.toNat

/-! ## Records and variants -/

/-- The data of a field of a record. -/
def field? : Data → String → Option Data
  | record fields, name => fields.lookup name
  | _, _ => none

/-- The value of a field. -/
def get? {α : Type} [OfData α] (d : Data) (name : String) : Option α := d.field? name >>= ofData?

/-- The value of an optional field. -/
def opt? {α : Type} [OfData α] (d : Data) (name : String) : Option (Option α) :=
  match d.field? name with
  | none | some null => some none
  | some d => some <$> ofData? d

/-- The data as a record with the given fields: a record, or the list of all fields in order. -/
def asRecord? (names : List String) : Data → Option Data
  | record fields => some (record fields)
  | list items => if items.length = names.length then some (record (names.zip items)) else none
  | _ => none

/-- The name of a variant, and the data that comes with it. -/
def variant? : Data → Option (String × Data)
  | text name => some (name, null)
  | record [(name, body)] => some (name, body)
  | _ => none

/-- The member of an enumeration that the data names. -/
def member? {α : Type} (members : List α) (name : α → String) (d : Data) : Option α :=
  match d.variant? with
  | some (found, null) => members.find? (name · = found)
  | _ => none

/-- A variant with fields. -/
def variant (name : String) (fields : List (String × Data)) : Data := record [(name, record fields)]

end Data

/-! ## Values of basic types -/

instance : ToData Data := ⟨id⟩

instance : OfData Data := ⟨some⟩

instance : ToData Bool := ⟨.bool⟩

instance : OfData Bool where
  ofData?
    | .bool b => some b
    | _ => none

instance : ToData String := ⟨.text⟩

instance : OfData String where
  ofData?
    | .text s => some s
    | _ => none

instance : ToData Int := ⟨(.number · 0)⟩

/-- Numbers with a sign have 64 bits. -/
instance : OfData Int := ⟨Data.int? (-0x8000000000000000) 0x8000000000000000⟩

instance : ToData Nat := ⟨fun n => .number n 0⟩

/-- Counts and positions have 64 bits. -/
instance : OfData Nat := ⟨Data.nat? UInt64.size⟩

instance {α : Type} [ToData α] : ToData (List α) := ⟨fun xs => .list (xs.map toData)⟩

instance {α : Type} [OfData α] : OfData (List α) where
  ofData?
    | .list items => items.mapM ofData?
    | _ => none

instance {α : Type} [ToData α] : ToData (Array α) := ⟨fun xs => toData xs.toList⟩

instance {α : Type} [OfData α] : OfData (Array α) := ⟨fun d => List.toArray <$> ofData? d⟩

instance {α : Type} [ToData α] : ToData (Option α) where
  toData
    | some a => toData a
    | none => .null

instance {α : Type} [OfData α] : OfData (Option α) where
  ofData?
    | .null => some none
    | d => some <$> ofData? d

/-! ## Identifiers -/

instance : ToData FuncId := ⟨fun f => toData f.index⟩

instance : OfData FuncId := ⟨fun d => FuncId.mk <$> d.nat? UInt32.size⟩

instance : ToData ValueId := ⟨fun v => toData v.index⟩

instance : OfData ValueId := ⟨fun d => ValueId.mk <$> d.nat? UInt32.size⟩

instance : ToData InstId := ⟨fun i => toData i.index⟩

instance : OfData InstId := ⟨fun d => InstId.mk <$> d.nat? UInt32.size⟩

instance : ToData BlockId := ⟨fun b => toData b.index⟩

instance : OfData BlockId := ⟨fun d => BlockId.mk <$> d.nat? UInt32.size⟩

instance : ToData TypeId := ⟨fun t => toData t.index⟩

instance : OfData TypeId := ⟨fun d => TypeId.mk <$> d.nat? UInt32.size⟩

instance : ToData NodeId := ⟨fun n => toData n.index⟩

instance : OfData NodeId := ⟨fun d => NodeId.mk <$> d.nat? UInt32.size⟩

end Escape
