import Escape.Scope

/-!
# Effects

What an instruction means for the connection graph of its function. Projections and casts share the
node of their base and constant addresses are never written, so both have no effect of their own.
What is not modelled lets everything escape that the instruction touches.
-/

namespace Escape

/-- The effect of an instruction on the graph of its function. -/
inductive Effect where
  /-- Nothing to record. -/
  | none
  /-- A fresh object or stack slot. -/
  | allocate (result : ValueId)
  /-- The result is the memory that `address` points to. -/
  | mapToContent (result address : ValueId)
  /-- The memory at `address` becomes `value`. -/
  | store (value address : ValueId)
  /-- The memory at `dest` becomes what is in the memory at `src`. -/
  | copyAddr (src dest : ValueId)
  /-- The result is a copy of the operand, and escapes if the operand has no node. -/
  | copy (result operand : ValueId)
  /-- The result may be any of the operands. -/
  | defer (result : ValueId) (operands : List ValueId)
  /-- Both addresses lead to the same memory. -/
  | deferAddresses (dest src : ValueId)
  /-- The last reference to the operand may end here. -/
  | release (operand : ValueId)
  /-- The value stored at the address is destroyed. -/
  | destroyAddr (address : ValueId)
  | ret (value : ValueId)
  /-- A call, possibly of a well-known container operation. -/
  | call (container : Option ContainerOp)
  /-- Every pointer operand and result escapes. -/
  | escapeAll
deriving DecidableEq

namespace Effect

/-- An effect on the result, if there is one. -/
def onResult (result : Option ValueId) (effect : ValueId → Effect) : Effect :=
  match result with
  | some r => effect r
  | Option.none => none

/-- The effect of an operation by itself, given its first result. -/
def ofOperation (s : Scope) (result : Option ValueId) : Operation → Checked Effect
  | .call _ _ container => return call container
  | .strongRelease v | .releaseValue v | .destroyValue v => return release v
  | .allocStack _ | .allocRef _ | .allocBox _ => return onResult result allocate
  | .deallocStack _ | .deallocRef _ | .deallocBox _ | .strongRetain _ | .retainValue _
  | .fixLifetime _ | .debugValue _ | .endBorrow _ | .endAccess _ | .integerLiteral _
  | .stringLiteral | .functionRef _ | .branch .. | .condBranch .. | .switch .. | .unreachable =>
    return none
  | .load address => do
    match result with
    | some r => return if ← s.isPointer r then mapToContent r address else none
    | Option.none => return none
  | .refElementAddr o _ | .refTailAddr o | .projectBox o =>
    return onResult result (mapToContent · o)
  | .store value address => return store value address
  | .copyAddr src dest isInit => return if isInit then copyAddr src dest else escapeAll
  | .destroyAddr address => return destroyAddr address
  | .copyValue v | .beginBorrow v => return onResult result (copy · v)
  | .partialApply callee args => return onResult result (defer · (callee :: args))
  | .select _ cases default => return onResult result (defer · (cases ++ default.toList))
  | .struct vs | .tuple vs => return onResult result (defer · vs)
  | .enum payload => return onResult result (defer · payload.toList)
  | .uncheckedRefCastAddr src dest => return deferAddresses dest src
  | .ret (some v) => return ret v
  | .ret Option.none => return none
  | .structExtract .. | .tupleExtract .. | .uncheckedEnumData _ | .upcast _ | .uncheckedRefCast _
  | .uncheckedAddrCast _ | .refToRawPointer _ | .rawPointerToRef _ | .checkedCast _
  | .markDependence .. | .structElementAddr .. | .tupleElementAddr .. | .indexAddr ..
  | .beginAccess _ | .globalAddr .. | .builtin .. | .raise _ => return escapeAll

/-- The effect of an instruction. -/
def of (s : Scope) (i : InstId) : Checked Effect := do
  let inst ← s.func.inst i
  if let some r := inst.results.head? then
    if (← s.base? r).isSome then return none
    if ← s.isReadOnly r then return none
  ofOperation s inst.results.head? inst.op

end Effect

end Escape
