import Escape.Program

/-!
# Pointer identity

The questions that a connection graph asks about the values of a function. Projections, casts and
compounds of a single pointer share the identity of the pointer they are made from, their base;
following bases to the end leads to the root. A value enters a graph under its root, unless it is no
pointer, a function reference, or undefined. Main definitions:

* `Scope`: a function seen within its program;
* `Scope.base?`, `Scope.root`: the identity of a pointer;
* `Scope.anchor?`: the identity under which a value enters a graph;
* `Scope.isUnique`: nothing else in the function aliases the value without being made from it.
-/

namespace Escape

/-- A function together with the program it belongs to. -/
structure Scope where
  program : Program
  id : FuncId
  func : Func

namespace Scope

/-- The scope of a declared function. -/
def of? (p : Program) (f : FuncId) : Option Scope := (p.func? f).map fun func => ⟨p, f, func⟩

variable (s : Scope)

/-! ## Kinds -/

/-- The pointer kind of a value. -/
def kind (v : ValueId) : Checked PointerKind := return s.program.types.kind (← s.func.typeOf v)

/-- Whether a value holds a pointer. -/
def isPointer (v : ValueId) : Checked Bool := return (← s.kind v).isPointer

/-- Whether a value holds references and no other pointers. -/
def isReferenceOnly (v : ValueId) : Checked Bool := return (← s.kind v) = .referenceOnly

/-- Whether a value is an address. -/
def isAddress (v : ValueId) : Checked Bool := do s.program.types.isAddress (← s.func.typeOf v)

/-- Whether a value is a reference to an object or a box, as opposed to an address or a compound. -/
def isReference (v : ValueId) : Checked Bool := do
  match ← s.program.types.get (← s.func.typeOf v) with
  | .object _ | .box _ => return true
  | _ => return false

/-- Whether a value is undefined. -/
def isUndefined (v : ValueId) : Checked Bool := return (← s.func.value v).origin = .undefined

/-- Whether a value is a parameter. -/
def isArgument (v : ValueId) : Checked Bool := return (← s.func.argumentIndex? v).isSome

/-- Whether a value is a thin function reference. -/
def isFunctionRef (v : ValueId) : Checked Bool := do
  match ← s.func.definition? v with
  | some (.functionRef _) => return true
  | _ => return false

/-- Whether a value is an address that is never written, so that nothing escapes through it. -/
def isReadOnly (v : ValueId) : Checked Bool := do
  match ← s.func.definition? v with
  | some (.functionRef _) | some .stringLiteral | some (.globalAddr _ true) => return true
  | _ => return false

/-! ## Base and root -/

/-- The pointers among the given values, as far as needed to tell whether there is exactly one. -/
def solePointer? : List ValueId → Checked (Option ValueId)
  | [] => return none
  | v :: rest => do
    if ← s.isPointer v then
      return if ← noPointer rest then some v else none
    else solePointer? rest
where
  /-- Whether none of the given values is a pointer. -/
  noPointer : List ValueId → Checked Bool
    | [] => return true
    | v :: rest => do if ← s.isPointer v then return false else noPointer rest

/-- The operand whose pointer identity the result `v` of `op` shares. -/
def baseOf? (v : ValueId) (op : Operation) : Checked (Option ValueId) :=
  match op with
  | .structExtract o _ | .tupleExtract o _ | .uncheckedEnumData o | .upcast o | .uncheckedRefCast o
  | .uncheckedAddrCast o | .refToRawPointer o | .rawPointerToRef o
  | .structElementAddr o _ | .tupleElementAddr o _ | .beginAccess o
  | .indexAddr o _ | .markDependence o _ => return some o
  | .checkedCast o => return if (← s.kind o) = (← s.kind v) then some o else none
  | .struct os | .tuple os => s.solePointer? os
  | .enum (some o) => return if ← s.isPointer o then some o else none
  | _ => return none

/-- The operand whose pointer identity a value shares. -/
def base? (v : ValueId) : Checked (Option ValueId) := do
  match ← s.func.definition? v with
  | some op => s.baseOf? v op
  | none => return none

/-- Follows at most `bound` bases from `v`. -/
def chase : (bound : Nat) → (v : ValueId) → Checked ValueId
  | 0, v => return v
  | bound + 1, v => do
    match ← s.base? v with
    | some b => chase bound b
    | none => return v

/-- The value at the end of the chain of bases. A chain without a repetition has fewer links than
the function has values. -/
def root (v : ValueId) : Checked ValueId := s.chase s.func.values.size v

/-! ## Identified objects -/

/-- The allocation that `v` points to, if its root is one. -/
def localObject? (v : ValueId) : Checked (Option Operation) := do
  match ← s.func.definition? (← s.root v) with
  | some op => return if op.isAllocation then some op else none
  | none => return none

/-- Whether the root of a value is an allocation in the function. -/
def isLocal (v : ValueId) : Checked Bool := return (← s.localObject? v).isSome

/-- The exact class of a value that points to a local object. -/
def localClass? (v : ValueId) : Checked (Option TypeId) := do
  match ← s.localObject? v with
  | some (.allocRef cls) => return some cls
  | _ => return none

/-- Whether a value is a parameter that aliases nothing else. -/
def isExclusive (v : ValueId) : Checked Bool := s.func.isExclusive v

/-- Whether a value is made from a fresh allocation or from an exclusive parameter. -/
def isUnique (v : ValueId) : Checked Bool := do
  let r ← s.root v
  if ← s.isLocal r then return true
  s.isExclusive r

/-! ## Entering a graph -/

/-- The identity under which a pointer enters a graph. -/
structure Anchor where
  root : ValueId
  isArgument : Bool
  referenceOnly : Bool
deriving DecidableEq

/-- The anchor of a value. Data, function references and undefined values have none. -/
def anchor? (v : ValueId) : Checked (Option Anchor) := do
  if ← s.isFunctionRef v then return none
  let kind ← s.kind v
  if !kind.isPointer then return none
  let root ← s.root v
  if ← s.isUndefined root then return none
  return some ⟨root, ← s.isArgument root, kind = .referenceOnly⟩

/-- Whether the fields of the object that `v` refers to hold references and no other pointers. -/
def fieldsReferenceOnly (v : ValueId) : Checked Bool := do
  if !(← s.isReference v) then return false
  return (← s.program.types.storedKind (← s.func.typeOf v)) = .referenceOnly

/-- Whether the memory at address `v` holds references and no other pointers. -/
def pointeeReferenceOnly (v : ValueId) : Checked Bool := do
  match ← s.program.types.pointee? (← s.func.typeOf v) with
  | some ty => return s.program.types.kind ty = .referenceOnly
  | none => return false

end Scope

end Escape
