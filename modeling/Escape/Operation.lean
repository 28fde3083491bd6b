import Escape.Ident

/-!
# Operations

What an instruction does: a closed set of operations, the values each of them reads, and, for the
operations that end a block, where control goes next and which values it passes along. `builtin`
stands for everything else.
-/

namespace Escape

/-- The target of a call. -/
inductive Callee where
  /-- A function known from the call itself. -/
  | direct (f : FuncId)
  /-- A function value: a function reference, a closure, or anything else. -/
  | value (v : ValueId)
deriving DecidableEq

/-- A container operation with a known meaning. The last argument of such a call is the container.
-/
inductive ContainerOp where
  | isNativeTypeChecked
  | checkSubscript
  | checkIndex
  | getCount
  | getCapacity
  | makeMutable
  /-- The loaded element is the result or is written to the first of at least three arguments. -/
  | getElement
  /-- The result is the address of an element. -/
  | getElementAddress
  /-- The first argument becomes an element. -/
  | setElement
  /-- The first argument is a closure that gets at the storage. -/
  | withUnsafeMutableBufferPointer
deriving DecidableEq

/-- Whether the operation neither captures nor releases anything. -/
def ContainerOp.hasNoEffect : ContainerOp → Bool
  | isNativeTypeChecked | checkSubscript | checkIndex | getCount | getCapacity | makeMutable => true
  | getElement | getElementAddress | setElement | withUnsafeMutableBufferPointer => false

/-- What an instruction does. -/
inductive Operation where
  -- allocation
  | allocStack (ty : TypeId)
  | allocRef (cls : TypeId)
  | allocBox (boxed : TypeId)
  | deallocStack (operand : ValueId)
  | deallocRef (operand : ValueId)
  | deallocBox (operand : ValueId)
  -- memory
  | load (address : ValueId)
  | store (value address : ValueId)
  | copyAddr (src dest : ValueId) (isInit : Bool)
  | destroyAddr (address : ValueId)
  | refElementAddr (object : ValueId) (field : Nat)
  | refTailAddr (object : ValueId)
  | projectBox (boxed : ValueId)
  | structElementAddr (address : ValueId) (field : Nat)
  | tupleElementAddr (address : ValueId) (index : Nat)
  | indexAddr (base index : ValueId)
  | beginAccess (address : ValueId)
  | endAccess (access : ValueId)
  -- aggregates and projections
  | struct (elements : List ValueId)
  | tuple (elements : List ValueId)
  | enum (payload : Option ValueId)
  | structExtract (operand : ValueId) (field : Nat)
  | tupleExtract (operand : ValueId) (index : Nat)
  | uncheckedEnumData (operand : ValueId)
  | select (condition : ValueId) (cases : List ValueId) (default : Option ValueId)
  -- casts
  | upcast (operand : ValueId)
  | uncheckedRefCast (operand : ValueId)
  | uncheckedAddrCast (operand : ValueId)
  | refToRawPointer (operand : ValueId)
  | rawPointerToRef (operand : ValueId)
  | checkedCast (operand : ValueId)
  | uncheckedRefCastAddr (src dest : ValueId)
  | markDependence (value base : ValueId)
  -- ownership
  | copyValue (operand : ValueId)
  | beginBorrow (operand : ValueId)
  | endBorrow (operand : ValueId)
  | strongRetain (operand : ValueId)
  | retainValue (operand : ValueId)
  | strongRelease (operand : ValueId)
  | releaseValue (operand : ValueId)
  | destroyValue (operand : ValueId)
  | fixLifetime (operand : ValueId)
  | debugValue (operand : ValueId)
  -- literals and references
  | functionRef (f : FuncId)
  | stringLiteral
  | integerLiteral (value : Int)
  | globalAddr (name : String) (constant : Bool)
  -- calls
  | partialApply (callee : ValueId) (args : List ValueId)
  | call (callee : Callee) (args : List ValueId) (container : Option ContainerOp)
  | builtin (name : String) (args : List ValueId)
  -- ends of a block
  | branch (target : BlockId) (args : List ValueId)
  | condBranch (condition : ValueId) (trueTarget : BlockId) (trueArgs : List ValueId)
      (falseTarget : BlockId) (falseArgs : List ValueId)
  | switch (operand : ValueId) (targets : List BlockId)
  | ret (value : Option ValueId)
  | raise (value : ValueId)
  | unreachable
deriving DecidableEq

namespace Operation

/-- The values an operation reads, in operand order. -/
def operands : Operation → List ValueId
  | allocStack _ | allocRef _ | allocBox _ => []
  | functionRef _ | stringLiteral | integerLiteral _ | globalAddr _ _ | unreachable => []
  | deallocStack v | deallocRef v | deallocBox v => [v]
  | load a | destroyAddr a | beginAccess a | endAccess a => [a]
  | store v a => [v, a]
  | copyAddr s d _ | uncheckedRefCastAddr s d => [s, d]
  | refElementAddr o _ | refTailAddr o | projectBox o => [o]
  | structElementAddr a _ | tupleElementAddr a _ => [a]
  | indexAddr b i => [b, i]
  | struct vs | tuple vs => vs
  | enum payload => payload.toList
  | structExtract v _ | tupleExtract v _ | uncheckedEnumData v => [v]
  | select condition cases default => condition :: cases ++ default.toList
  | upcast v | uncheckedRefCast v | uncheckedAddrCast v | refToRawPointer v | rawPointerToRef v
  | checkedCast v => [v]
  | markDependence v b => [v, b]
  | copyValue v | beginBorrow v | endBorrow v | strongRetain v | retainValue v | strongRelease v
  | releaseValue v | destroyValue v | fixLifetime v | debugValue v => [v]
  | partialApply callee args => callee :: args
  | call (.direct _) args _ => args
  | call (.value v) args _ => v :: args
  | builtin _ args => args
  | branch _ args => args
  | condBranch condition _ trueArgs _ falseArgs => condition :: trueArgs ++ falseArgs
  | switch v _ => [v]
  | ret value => value.toList
  | raise v => [v]

/-- Whether the operation ends a block. -/
def isTerminator : Operation → Bool
  | branch .. | condBranch .. | switch .. | ret .. | raise .. | unreachable => true
  | _ => false

/-- The control-flow edges that leave the operation, with the values passed to the arguments of the
target, or `none` where they are not passed explicitly. -/
def edges : Operation → List (BlockId × Option (List ValueId))
  | branch target args => [(target, some args)]
  | condBranch _ t targs e eargs => [(t, some targs), (e, some eargs)]
  | switch _ targets => targets.map fun t => (t, none)
  | _ => []

/-- The blocks that may run next. -/
def successors (op : Operation) : List BlockId := op.edges.map (·.1)

/-- Whether the operation makes a fresh object or stack slot. -/
def isAllocation : Operation → Bool
  | allocStack _ | allocRef _ | allocBox _ => true
  | _ => false

/-- Whether the operation ends the lifetime of a reference, and so may run a destructor. -/
def isRelease : Operation → Bool
  | strongRelease _ | releaseValue _ | destroyValue _ => true
  | _ => false

/-- Whether the operation is a call. -/
def isCall : Operation → Bool
  | call .. => true
  | _ => false

end Operation

end Escape
