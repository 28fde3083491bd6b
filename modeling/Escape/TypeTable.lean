import Escape.Fault
import Escape.PointerKind

/-!
# Types

Types are interned into a table and named by their position in it. The pointer kind of a type is
worked out once, when the type is interned, from the cached kinds of its parts. A class is a
reference whatever its fields are, so its fields may be replaced later, and classes may refer to
themselves, without any cached kind going stale.
-/

namespace Escape

/-- A class of reference-counted objects. -/
structure ClassTy where
  name : String
  /-- The stored properties, in declaration order. -/
  fields : List TypeId := []
  /-- The destructor, if it is a known function of the program. -/
  deinit : Option FuncId := none
deriving DecidableEq, Inhabited

/-- A type of the intermediate representation. -/
inductive Ty where
  /-- Integers, floating-point numbers, booleans. -/
  | scalar
  | rawPointer
  /-- A reference to an object of a class. -/
  | object (cls : ClassTy)
  /-- A heap box that holds one value of the inner type. -/
  | box (inner : TypeId)
  /-- The address of a value of the inner type. -/
  | address (inner : TypeId)
  /-- A struct, tuple or enum of the element types. -/
  | aggregate (elements : List TypeId)
  /-- A thin function reference, or a thick closure with a context. -/
  | function (thick : Bool)
  /-- A generic type of unknown layout. -/
  | unknown
deriving DecidableEq, Inhabited

/-- An interned type with its pointer kind. -/
structure TypeEntry where
  ty : Ty
  kind : PointerKind
deriving DecidableEq, Inhabited

/-- The interned types of a program. -/
structure TypeTable where
  entries : Array TypeEntry := #[]
deriving DecidableEq, Inhabited

namespace TypeTable

/-- The number of interned types. -/
def size (t : TypeTable) : Nat := t.entries.size

/-- The cached pointer kind of a type. What is not in the table may hold any pointer. -/
def kind (t : TypeTable) (id : TypeId) : PointerKind :=
  match t.entries[id.index]? with
  | some e => e.kind
  | none => .anyPointer

/-- The pointer kind of `ty`, from the cached kinds of its parts. -/
def kindOf (t : TypeTable) : Ty → PointerKind
  | .scalar | .function false => .noPointer
  | .object _ | .box _ | .function true => .referenceOnly
  | .rawPointer | .address _ | .unknown => .anyPointer
  | .aggregate elements => .joinAll (elements.map t.kind)

/-- Adds a type to the table, even if an equal one is present. -/
def intern (t : TypeTable) (ty : Ty) : TypeTable × TypeId :=
  (⟨t.entries.push ⟨ty, t.kindOf ty⟩⟩, ⟨t.size⟩)

/-- The first type equal to `ty`, which is added if there is none. -/
def internUnique (t : TypeTable) (ty : Ty) : TypeTable × TypeId :=
  match t.entries.findIdx? (·.ty = ty) with
  | some i => (t, ⟨i⟩)
  | none => t.intern ty

/-- Changes the class that `id` names. Other types stay as they are. -/
def modifyClass (t : TypeTable) (id : TypeId) (f : ClassTy → ClassTy) : TypeTable :=
  ⟨t.entries.modify id.index fun e =>
    match e.ty with
    | .object c => { e with ty := .object (f c) }
    | _ => e⟩

/-- Replaces the stored properties of a class. -/
def setFields (t : TypeTable) (id : TypeId) (fields : List TypeId) : TypeTable :=
  t.modifyClass id fun c => { c with fields }

/-- Names the destructor of a class. -/
def setDeinit (t : TypeTable) (id : TypeId) (deinit : FuncId) : TypeTable :=
  t.modifyClass id fun c => { c with deinit := some deinit }

/-- The type that `id` names. -/
def get (t : TypeTable) (id : TypeId) : Checked Ty :=
  return (← Checked.get t.entries id.index).ty

/-- What an address type points to. -/
def pointee? (t : TypeTable) (id : TypeId) : Checked (Option TypeId) := do
  match ← t.get id with
  | .address inner => return some inner
  | _ => return none

/-- Whether values of the type are addresses. -/
def isAddress (t : TypeTable) (id : TypeId) : Checked Bool :=
  return (← t.pointee? id).isSome

/-- The class of a reference type. -/
def class? (t : TypeTable) (id : TypeId) : Checked (Option ClassTy) := do
  match ← t.get id with
  | .object c => return some c
  | _ => return none

/-- The pointer kind of everything stored in an object: the join over the fields of a class, the
kind of the value in a box, and anything for the rest. -/
def storedKind (t : TypeTable) (id : TypeId) : Checked PointerKind := do
  match ← t.get id with
  | .object c => return .joinAll (c.fields.map t.kind)
  | .box inner => return t.kind inner
  | _ => return .anyPointer

/-! ## Small laws -/

@[simp] theorem size_intern (t : TypeTable) (ty : Ty) : (t.intern ty).1.size = t.size + 1 := by
  simp [intern, size]

@[simp] theorem size_modifyClass (t : TypeTable) (id : TypeId) (f : ClassTy → ClassTy) :
    (t.modifyClass id f).size = t.size := by
  simp [modifyClass, size]

/-- Changing a class leaves every cached kind alone. -/
@[simp] theorem kind_modifyClass (t : TypeTable) (id id' : TypeId) (f : ClassTy → ClassTy) :
    (t.modifyClass id f).kind id' = t.kind id' := by
  simp only [kind, modifyClass, Array.getElem?_modify]
  by_cases h : id.index = id'.index
  · cases he : t.entries[id'.index]? with
    | none => simp [h]
    | some e =>
      simp only [h, ↓reduceIte, Option.map_some]
      cases e.ty <;> rfl
  · simp [h]

end TypeTable

end Escape
