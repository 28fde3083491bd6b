import Escape.Data
import Escape.Operation

/-!
# Operations as data

An operation is a variant whose fields are its parts, such as a record with the one field `Load`
that holds a record with the field `address`.
-/

namespace Escape

/-! ## Callees and container operations -/

instance : ToData Callee where
  toData
    | .direct f => .record [("Direct", toData f)]
    | .value v => .record [("Value", toData v)]

instance : OfData Callee where
  ofData? d := do
    match ← d.variant? with
    | ("Direct", d) => return .direct (← ofData? d)
    | ("Value", d) => return .value (← ofData? d)
    | _ => none

/-- The name of a container operation. -/
def ContainerOp.name : ContainerOp → String
  | isNativeTypeChecked => "IsNativeTypeChecked"
  | checkSubscript => "CheckSubscript"
  | checkIndex => "CheckIndex"
  | getCount => "GetCount"
  | getCapacity => "GetCapacity"
  | makeMutable => "MakeMutable"
  | getElement => "GetElement"
  | getElementAddress => "GetElementAddress"
  | setElement => "SetElement"
  | withUnsafeMutableBufferPointer => "WithUnsafeMutableBufferPointer"

/-- All container operations. -/
def ContainerOp.all : List ContainerOp :=
  [isNativeTypeChecked, checkSubscript, checkIndex, getCount, getCapacity, makeMutable, getElement,
    getElementAddress, setElement, withUnsafeMutableBufferPointer]

instance : ToData ContainerOp := ⟨fun op => .text op.name⟩

instance : OfData ContainerOp := ⟨Data.member? ContainerOp.all ContainerOp.name⟩

/-! ## Operations -/

namespace Operation

/-- The data of an operation. -/
def data : Operation → Data
  | allocStack t => .variant "AllocStack" [("ty", toData t)]
  | allocRef t => .variant "AllocRef" [("class", toData t)]
  | allocBox t => .variant "AllocBox" [("boxed", toData t)]
  | deallocStack v => .variant "DeallocStack" [("operand", toData v)]
  | deallocRef v => .variant "DeallocRef" [("operand", toData v)]
  | deallocBox v => .variant "DeallocBox" [("operand", toData v)]
  | load a => .variant "Load" [("address", toData a)]
  | store v a => .variant "Store" [("value", toData v), ("address", toData a)]
  | copyAddr s d b =>
    .variant "CopyAddr" [("src", toData s), ("dest", toData d), ("is_init", toData b)]
  | destroyAddr a => .variant "DestroyAddr" [("address", toData a)]
  | refElementAddr o i => .variant "RefElementAddr" [("object", toData o), ("field", toData i)]
  | refTailAddr o => .variant "RefTailAddr" [("object", toData o)]
  | projectBox o => .variant "ProjectBox" [("boxed", toData o)]
  | structElementAddr a i =>
    .variant "StructElementAddr" [("address", toData a), ("field", toData i)]
  | tupleElementAddr a i => .variant "TupleElementAddr" [("address", toData a), ("index", toData i)]
  | indexAddr b i => .variant "IndexAddr" [("base", toData b), ("index", toData i)]
  | beginAccess a => .variant "BeginAccess" [("address", toData a)]
  | endAccess a => .variant "EndAccess" [("access", toData a)]
  | struct vs => .variant "Struct" [("elements", toData vs)]
  | tuple vs => .variant "Tuple" [("elements", toData vs)]
  | enum v => .variant "Enum" [("payload", toData v)]
  | structExtract v i => .variant "StructExtract" [("operand", toData v), ("field", toData i)]
  | tupleExtract v i => .variant "TupleExtract" [("operand", toData v), ("index", toData i)]
  | uncheckedEnumData v => .variant "UncheckedEnumData" [("operand", toData v)]
  | select c vs d =>
    .variant "Select" [("condition", toData c), ("cases", toData vs), ("default", toData d)]
  | upcast v => .variant "Upcast" [("operand", toData v)]
  | uncheckedRefCast v => .variant "UncheckedRefCast" [("operand", toData v)]
  | uncheckedAddrCast v => .variant "UncheckedAddrCast" [("operand", toData v)]
  | refToRawPointer v => .variant "RefToRawPointer" [("operand", toData v)]
  | rawPointerToRef v => .variant "RawPointerToRef" [("operand", toData v)]
  | checkedCast v => .variant "CheckedCast" [("operand", toData v)]
  | uncheckedRefCastAddr s d =>
    .variant "UncheckedRefCastAddr" [("src", toData s), ("dest", toData d)]
  | markDependence v b => .variant "MarkDependence" [("value", toData v), ("base", toData b)]
  | copyValue v => .variant "CopyValue" [("operand", toData v)]
  | beginBorrow v => .variant "BeginBorrow" [("operand", toData v)]
  | endBorrow v => .variant "EndBorrow" [("operand", toData v)]
  | strongRetain v => .variant "StrongRetain" [("operand", toData v)]
  | retainValue v => .variant "RetainValue" [("operand", toData v)]
  | strongRelease v => .variant "StrongRelease" [("operand", toData v)]
  | releaseValue v => .variant "ReleaseValue" [("operand", toData v)]
  | destroyValue v => .variant "DestroyValue" [("operand", toData v)]
  | fixLifetime v => .variant "FixLifetime" [("operand", toData v)]
  | debugValue v => .variant "DebugValue" [("operand", toData v)]
  | functionRef f => .variant "FunctionRef" [("function", toData f)]
  | stringLiteral => .text "StringLiteral"
  | integerLiteral n => .variant "IntegerLiteral" [("value", toData n)]
  | globalAddr name c => .variant "GlobalAddr" [("name", toData name), ("constant", toData c)]
  | partialApply f vs => .variant "PartialApply" [("callee", toData f), ("args", toData vs)]
  | call f vs c =>
    .variant "Apply" [("callee", toData f), ("args", toData vs), ("semantics", toData c)]
  | builtin name vs => .variant "Builtin" [("name", toData name), ("args", toData vs)]
  | branch b vs => .variant "Branch" [("target", toData b), ("args", toData vs)]
  | condBranch c b vs b' vs' =>
    .variant "CondBranch" [("condition", toData c), ("true_target", toData b),
      ("true_args", toData vs), ("false_target", toData b'), ("false_args", toData vs')]
  | switch v bs => .variant "Switch" [("operand", toData v), ("targets", toData bs)]
  | ret v => .variant "Return" [("value", toData v)]
  | raise v => .variant "Throw" [("value", toData v)]
  | unreachable => .text "Unreachable"

/-- Reads the operation of the given name from its fields. -/
def ofFields? (name : String) (d : Data) : Option Operation := do
  match name with
  | "AllocStack" => return allocStack (← d.get? "ty")
  | "AllocRef" => return allocRef (← d.get? "class")
  | "AllocBox" => return allocBox (← d.get? "boxed")
  | "DeallocStack" => return deallocStack (← d.get? "operand")
  | "DeallocRef" => return deallocRef (← d.get? "operand")
  | "DeallocBox" => return deallocBox (← d.get? "operand")
  | "Load" => return load (← d.get? "address")
  | "Store" => return store (← d.get? "value") (← d.get? "address")
  | "CopyAddr" => return copyAddr (← d.get? "src") (← d.get? "dest") (← d.get? "is_init")
  | "DestroyAddr" => return destroyAddr (← d.get? "address")
  | "RefElementAddr" => return refElementAddr (← d.get? "object") (← d.get? "field")
  | "RefTailAddr" => return refTailAddr (← d.get? "object")
  | "ProjectBox" => return projectBox (← d.get? "boxed")
  | "StructElementAddr" => return structElementAddr (← d.get? "address") (← d.get? "field")
  | "TupleElementAddr" => return tupleElementAddr (← d.get? "address") (← d.get? "index")
  | "IndexAddr" => return indexAddr (← d.get? "base") (← d.get? "index")
  | "BeginAccess" => return beginAccess (← d.get? "address")
  | "EndAccess" => return endAccess (← d.get? "access")
  | "Struct" => return struct (← d.get? "elements")
  | "Tuple" => return tuple (← d.get? "elements")
  | "Enum" => return enum (← d.opt? "payload")
  | "StructExtract" => return structExtract (← d.get? "operand") (← d.get? "field")
  | "TupleExtract" => return tupleExtract (← d.get? "operand") (← d.get? "index")
  | "UncheckedEnumData" => return uncheckedEnumData (← d.get? "operand")
  | "Select" => return select (← d.get? "condition") (← d.get? "cases") (← d.opt? "default")
  | "Upcast" => return upcast (← d.get? "operand")
  | "UncheckedRefCast" => return uncheckedRefCast (← d.get? "operand")
  | "UncheckedAddrCast" => return uncheckedAddrCast (← d.get? "operand")
  | "RefToRawPointer" => return refToRawPointer (← d.get? "operand")
  | "RawPointerToRef" => return rawPointerToRef (← d.get? "operand")
  | "CheckedCast" => return checkedCast (← d.get? "operand")
  | "UncheckedRefCastAddr" => return uncheckedRefCastAddr (← d.get? "src") (← d.get? "dest")
  | "MarkDependence" => return markDependence (← d.get? "value") (← d.get? "base")
  | "CopyValue" => return copyValue (← d.get? "operand")
  | "BeginBorrow" => return beginBorrow (← d.get? "operand")
  | "EndBorrow" => return endBorrow (← d.get? "operand")
  | "StrongRetain" => return strongRetain (← d.get? "operand")
  | "RetainValue" => return retainValue (← d.get? "operand")
  | "StrongRelease" => return strongRelease (← d.get? "operand")
  | "ReleaseValue" => return releaseValue (← d.get? "operand")
  | "DestroyValue" => return destroyValue (← d.get? "operand")
  | "FixLifetime" => return fixLifetime (← d.get? "operand")
  | "DebugValue" => return debugValue (← d.get? "operand")
  | "FunctionRef" => return functionRef (← d.get? "function")
  | "IntegerLiteral" => return integerLiteral (← d.get? "value")
  | "GlobalAddr" => return globalAddr (← d.get? "name") (← d.get? "constant")
  | "PartialApply" => return partialApply (← d.get? "callee") (← d.get? "args")
  | "Apply" => return call (← d.get? "callee") (← d.get? "args") (← d.opt? "semantics")
  | "Builtin" => return builtin (← d.get? "name") (← d.get? "args")
  | "Branch" => return branch (← d.get? "target") (← d.get? "args")
  | "CondBranch" =>
    return condBranch (← d.get? "condition") (← d.get? "true_target") (← d.get? "true_args")
      (← d.get? "false_target") (← d.get? "false_args")
  | "Switch" => return switch (← d.get? "operand") (← d.get? "targets")
  | "Return" => return ret (← d.opt? "value")
  | "Throw" => return raise (← d.get? "value")
  | _ => none

/-- Reads an operation. Only the two operations without fields may be named by a text. -/
def read? (d : Data) : Option Operation := do
  match ← d.variant? with
  | ("StringLiteral", .null) => return stringLiteral
  | ("Unreachable", .null) => return unreachable
  | (name, .record fields) => ofFields? name (.record fields)
  | _ => none

end Operation

instance : ToData Operation := ⟨Operation.data⟩

instance : OfData Operation := ⟨Operation.read?⟩

end Escape
