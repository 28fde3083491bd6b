import Escape.Operation
import Escape.TypeTable
import Escape.Worklist

/-!
# Functions

A function is a table of basic blocks, a table of instructions and a table of values that refer to
each other by position. Block 0 is the entry, and its arguments are the parameters of the function.
An instruction that is removed from its block stays in the table of instructions.
-/

namespace Escape

/-- How a parameter is passed. -/
inductive Convention where
  | owned
  | guaranteed
  /-- An address that aliases nothing else in the function. -/
  | exclusive
deriving DecidableEq

/-- A parameter of a function. -/
structure Param where
  ty : TypeId
  convention : Convention
deriving DecidableEq

/-- Where a value comes from. -/
inductive Origin where
  /-- A parameter of the function. -/
  | argument (index : Nat)
  /-- An argument of a block other than the entry. -/
  | blockArg (block : BlockId) (index : Nat)
  /-- A result of an instruction. -/
  | result (inst : InstId) (index : Nat)
  /-- No particular value. -/
  | undefined
deriving DecidableEq

/-- A value with its type. -/
structure Value where
  ty : TypeId
  origin : Origin
deriving DecidableEq

/-- A basic block: its arguments and its instructions in order. -/
structure Block where
  args : List ValueId := []
  insts : List InstId := []
deriving DecidableEq, Inhabited

/-- An instruction: an operation, its results and the block it was appended to. -/
structure Inst where
  op : Operation
  results : List ValueId
  block : BlockId
  /-- Set once the instruction was removed from its block. -/
  deleted : Bool := false
deriving DecidableEq

/-- A function of a program. -/
structure Func where
  name : String
  params : List Param
  returnTy : Option TypeId
  blocks : Array Block := #[]
  insts : Array Inst := #[]
  values : Array Value := #[]
deriving DecidableEq

namespace Func

/-- The block in which a function starts. -/
def entry : BlockId := ⟨0⟩

/-! ## Tables -/

/-- The block that `b` names. -/
def block (f : Func) (b : BlockId) : Checked Block := Checked.get f.blocks b.index

/-- The instruction that `i` names. -/
def inst (f : Func) (i : InstId) : Checked Inst := Checked.get f.insts i.index

/-- The value that `v` names. -/
def value (f : Func) (v : ValueId) : Checked Value := Checked.get f.values v.index

/-- The values of the parameters. -/
def arguments (f : Func) : Checked (List ValueId) := return (← f.block entry).args

/-- The type of a value. -/
def typeOf (f : Func) (v : ValueId) : Checked TypeId := return (← f.value v).ty

/-- The first result of an instruction. -/
def result? (f : Func) (i : InstId) : Checked (Option ValueId) := return (← f.inst i).results.head?

/-- The instruction that defines a value, if it is a result. -/
def definer? (f : Func) (v : ValueId) : Checked (Option InstId) := do
  match (← f.value v).origin with
  | .result i _ => return some i
  | _ => return none

/-- The operation that defines a value, if it is a result. -/
def definition? (f : Func) (v : ValueId) : Checked (Option Operation) := do
  match ← f.definer? v with
  | some i => return some (← f.inst i).op
  | none => return none

/-- The position of a value among the parameters, if it is one. -/
def argumentIndex? (f : Func) (v : ValueId) : Checked (Option Nat) := do
  match (← f.value v).origin with
  | .argument i => return some i
  | _ => return none

/-- Whether a value is a parameter that aliases nothing else. -/
def isExclusive (f : Func) (v : ValueId) : Checked Bool := do
  match ← f.argumentIndex? v with
  | some i =>
    match f.params[i]? with
    | some p => return p.convention = .exclusive
    | none => throw .outOfRange
  | none => return false

/-! ## Control flow -/

/-- The last instruction of a block, if it ends the block. -/
def terminator? (f : Func) (b : BlockId) : Checked (Option InstId) := do
  match (← f.block b).insts.getLast? with
  | some i => return if (← f.inst i).op.isTerminator then some i else none
  | none => return none

/-- The control-flow edges that leave a block. -/
def edges (f : Func) (b : BlockId) : Checked (List (BlockId × Option (List ValueId))) := do
  match ← f.terminator? b with
  | some i => return (← f.inst i).op.edges
  | none => return []

/-- The blocks that may run right after `b`. -/
def successors (f : Func) (b : BlockId) : Checked (List BlockId) := return (← f.edges b).map (·.1)

/-- The blocks that may run right after `b`; none if `b` does not exist. -/
def next (f : Func) (b : BlockId) : List BlockId :=
  match f.successors b with
  | .ok bs => bs
  | .error _ => []

/-- The blocks reachable from the entry, breadth first. Every one of them has to exist. A search
that handles more blocks than there are has come to one that does not. -/
def reachableBlocks (f : Func) : Checked (List BlockId) := do
  let found := closure f.next (f.blocks.size + 1) entry
  found.forM fun b => discard (f.successors b)
  return found

/-- The values that `edges` pass to argument `index` of `block`, or `none` if one passes none. -/
def passedTo (block : BlockId) (index : Nat) :
    List (BlockId × Option (List ValueId)) → Option (List ValueId)
  | [] => some []
  | (target, args) :: rest =>
    if target = block then do
      let v ← (← args)[index]?
      return v :: (← passedTo block index rest)
    else passedTo block index rest

/-- The values that flow into argument `index` of `block` from the blocks `preds`, or `none` if one
of them does not pass it. -/
def incoming (f : Func) (block : BlockId) (index : Nat) :
    (preds : List BlockId) → Checked (Option (List ValueId))
  | [] => return some []
  | b :: rest => do
    match passedTo block index (← f.edges b) with
    | none => return none
    | some vs => return (← f.incoming block index rest).map (vs ++ ·)

/-- The instructions of the given blocks, in order. -/
def instsOf (f : Func) (bs : List BlockId) : Checked (List InstId) := do
  return (← bs.mapM fun b => return (← f.block b).insts).flatten

/-! ## Changes -/

/-- Adds a value. -/
def addValue (f : Func) (ty : TypeId) (origin : Origin) : Func × ValueId :=
  ({ f with values := f.values.push ⟨ty, origin⟩ }, ⟨f.values.size⟩)

/-- Adds one value per type; `origin` tells where the value at each position comes from. -/
def addValues (f : Func) (tys : List TypeId) (origin : Nat → Origin) : Func × List ValueId :=
  ({ f with values := f.values ++ (tys.mapIdx fun i ty => ⟨ty, origin i⟩).toArray },
    (List.range tys.length).map fun i => ⟨f.values.size + i⟩)

/-- A function with an empty entry block that holds its parameters. -/
def declare (name : String) (params : List Param) (returnTy : Option TypeId) : Func :=
  let bare : Func := { name, params, returnTy }
  let (f, args) := bare.addValues (params.map (·.ty)) .argument
  { f with blocks := #[{ args }] }

/-- Adds a block with arguments of the given types. -/
def addBlock (f : Func) (argTys : List TypeId) : Func × BlockId :=
  let b : BlockId := ⟨f.blocks.size⟩
  let (f, args) := f.addValues argTys (.blockArg b)
  ({ f with blocks := f.blocks.push { args } }, b)

/-- Adds an instruction with results of the given types to the table, but to no block. -/
def addInst (f : Func) (b : BlockId) (op : Operation) (resultTys : List TypeId) : Func × InstId :=
  let i : InstId := ⟨f.insts.size⟩
  let (f, results) := f.addValues resultTys (.result i)
  ({ f with insts := f.insts.push { op, results, block := b } }, i)

/-- Puts an instruction at the end of a block. -/
def appendTo (f : Func) (b : BlockId) (i : InstId) : Func :=
  { f with blocks := f.blocks.modify b.index fun blk => { blk with insts := blk.insts ++ [i] } }

/-- Takes an instruction out of its block. Its operands and results stay in the tables. -/
def removeInst (f : Func) (i : InstId) : Checked Func := do
  let b := (← f.inst i).block
  discard (f.block b)
  return { f with
    blocks := f.blocks.modify b.index fun blk => { blk with insts := blk.insts.filter (· ≠ i) }
    insts := f.insts.modify i.index fun inst => { inst with deleted := true } }

end Func

end Escape
