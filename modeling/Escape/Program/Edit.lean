import Escape.Program

/-!
# Editing programs

Programs are built by steps that intern types, declare functions, and append blocks and instructions
to the function that is current. A step that faults keeps what it did before it came to the fault.
The operands of an instruction are not looked at, except where the type of its result depends on the
type of an operand. Main definitions:

* `Draft`: a program that is being built, and the current function;
* `Edit`: a computation on drafts;
* `resultType`: the type of the result of an operation;
* `Step`: one step, run by `Step.run`.
-/

namespace Escape

/-- A program that is being built, with the function that instructions are appended to. -/
structure Draft where
  program : Program := {}
  current : FuncId := ⟨0⟩
deriving DecidableEq, Inhabited

/-- A computation on a draft. A fault keeps the draft as it was when the fault arose. -/
abbrev Edit (α : Type) : Type := EStateM Fault Draft α

namespace Edit

/-- Asks about the draft without changing it. -/
def check {α : Type} (c : Checked α) : Edit α :=
  match c with
  | .ok a => pure a
  | .error e => throw e

/-- Changes the type table. -/
def withTypes (change : TypeTable → TypeTable × TypeId) : Edit TypeId :=
  modifyGet fun d =>
    let (types, id) := change d.program.types
    (id, { d with program := { d.program with types } })

/-- The current function, which has to be declared. -/
def func : Edit Func := do
  let d ← get
  match d.program.func? d.current with
  | some fn => return fn
  | none => throw (.unknownFunction d.current)

/-- Replaces the current function. -/
def setFunc (fn : Func) : Edit Unit :=
  modify fun d => { d with program := d.program.setFunc d.current fn }

/-- Appends an instruction with results of the given types to a block of the current function. -/
def append (b : BlockId) (op : Operation) (resultTys : List TypeId) : Edit InstId := do
  let (fn, i) := (← func).addInst b op resultTys
  setFunc fn
  check (discard (fn.block b))
  setFunc (fn.appendTo b i)
  return i

/-! ## Types of results -/

/-- The interned types. -/
def types : Edit TypeTable := return (← get).program.types

/-- The type of a value of the current function. -/
def typeOf (v : ValueId) : Edit TypeId := do check ((← func).typeOf v)

/-- The given type, or the type of unknown layout. -/
def orUnknown : Option TypeId → Edit TypeId
  | some ty => return ty
  | none => withTypes (·.internUnique .unknown)

/-- The type of addresses of values of type `ty`. -/
def addressOf (ty : TypeId) : Edit TypeId := withTypes (·.internUnique (.address ty))

/-- The type of the result of `op` in the current function, if it has one. Where the operands do not
determine it, `given` does: it is the type of the result itself, or of what the result is the
address of. -/
def resultType (op : Operation) (given : Option TypeId) : Edit (Option TypeId) := do
  match op with
  | .allocStack ty => some <$> addressOf ty
  | .allocRef cls => return some cls
  | .allocBox boxed => some <$> withTypes (·.internUnique (.box boxed))
  | .load address =>
    let ty ← typeOf address
    some <$> orUnknown (← check ((← types).pointee? ty))
  | .refElementAddr object field =>
    let ty ← typeOf object
    let cls ← check ((← types).class? ty)
    let fieldTy ← orUnknown (cls.bind (·.fields[field]?))
    some <$> addressOf fieldTy
  | .projectBox boxed =>
    let ty ← typeOf boxed
    let inner : Option TypeId ← do
      match ← check ((← types).get ty) with
      | .box inner => pure (some inner)
      | _ => pure none
    some <$> (addressOf =<< orUnknown inner)
  | .refTailAddr _ | .structElementAddr _ _ | .globalAddr _ _ =>
    match given with
    | some ty => some <$> addressOf ty
    | none => return none
  | .indexAddr v _ | .beginAccess v | .markDependence v _ | .copyValue v | .beginBorrow v =>
    some <$> typeOf v
  | .refToRawPointer _ | .stringLiteral => some <$> withTypes (·.internUnique .rawPointer)
  | .integerLiteral _ => some <$> withTypes (·.internUnique .scalar)
  | .functionRef _ => some <$> withTypes (·.internUnique (.function false))
  | .partialApply _ _ => some <$> withTypes (·.internUnique (.function true))
  | _ => return given

/-- Appends an instruction; the type of its result, if it has one, is worked out by `resultType`. -/
def emit (b : BlockId) (op : Operation) (given : Option TypeId) : Edit InstId := do
  discard func
  let ty ← resultType op given
  append b op ty.toList

end Edit

/-! ## Steps -/

/-- What a step answers. -/
inductive Reply where
  | nothing
  /-- The identifier of something made or found. -/
  | index (n : Nat)
  | flag (b : Bool)
deriving DecidableEq

/-- One step of building a program. -/
inductive Step where
  | intern (ty : Ty)
  | internUnique (ty : Ty)
  | setFields (ty : TypeId) (fields : List TypeId)
  | setDeinit (ty : TypeId) (deinit : FuncId)
  /-- Declares a function and makes it the current one. -/
  | declare (name : String) (params : List Param) (returnTy : Option TypeId)
  /-- Makes a declared function the current one. -/
  | enter (f : FuncId)
  | find (name : String)
  | removeInst (f : FuncId) (i : InstId)
  | entry
  | argument (index : Nat)
  | typeOf (v : ValueId)
  | addBlock (argTys : List TypeId)
  | blockArg (b : BlockId) (index : Nat)
  | undefined (ty : TypeId)
  | result (i : InstId)
  /-- Appends an instruction with results of the given types. -/
  | append (b : BlockId) (op : Operation) (resultTys : List TypeId)
  /-- Appends an instruction and answers it. -/
  | inst (b : BlockId) (op : Operation) (given : Option TypeId)
  /-- Appends an instruction and answers its result. -/
  | value (b : BlockId) (op : Operation) (given : Option TypeId)
deriving DecidableEq

namespace Step

/-- Runs one step. -/
def run : Step → Edit Reply
  | intern ty => return .index (← Edit.withTypes (·.intern ty)).index
  | internUnique ty => return .index (← Edit.withTypes (·.internUnique ty)).index
  | setFields ty fields => do
    discard (Edit.withTypes fun t => (t.setFields ty fields, ty))
    return .nothing
  | setDeinit ty deinit => do
    discard (Edit.withTypes fun t => (t.setDeinit ty deinit, ty))
    return .nothing
  | declare name params returnTy => do
    let (program, f) := (← get).program.declare name params returnTy
    set ({ program, current := f } : Draft)
    return .index f.index
  | enter f => do
    if ((← get).program.func? f).isNone then throw (.unknownFunction f)
    modify fun d => { d with current := f }
    return .index f.index
  | find name => do
    match (← get).program.find? name with
    | some f => return .index f.index
    | none => return .nothing
  | removeInst f i => do
    match (← get).program.func? f with
    | some fn =>
      let fn ← Edit.check (fn.removeInst i)
      modify fun d => { d with program := d.program.setFunc f fn }
      return .flag true
    | none => return .flag false
  | entry => do
    discard Edit.func
    return .index Func.entry.index
  | argument index => do
    let args ← Edit.check (← Edit.func).arguments
    return .index (← Edit.check (Checked.get args.toArray index)).index
  | typeOf v => return .index (← Edit.typeOf v).index
  | addBlock argTys => do
    let (fn, b) := (← Edit.func).addBlock argTys
    Edit.setFunc fn
    return .index b.index
  | blockArg b index => do
    let blk ← Edit.check ((← Edit.func).block b)
    return .index (← Edit.check (Checked.get blk.args.toArray index)).index
  | undefined ty => do
    let (fn, v) := (← Edit.func).addValue ty .undefined
    Edit.setFunc fn
    return .index v.index
  | result i => do
    match ← Edit.check ((← Edit.func).result? i) with
    | some v => return .index v.index
    | none => return .nothing
  | append b op resultTys => return .index (← Edit.append b op resultTys).index
  | inst b op given => return .index (← Edit.emit b op given).index
  | value b op given => do
    let i ← Edit.emit b op given
    match ← Edit.check ((← Edit.func).result? i) with
    | some v => return .index v.index
    | none => return .nothing

end Step

end Escape
