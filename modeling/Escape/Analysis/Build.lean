import Escape.Analysis.Info
import Escape.Effect

/-!
# Building graphs

The graph of a function is built by applying the effect of every instruction of its reachable blocks
once and then linking block arguments to the values that flow into them. A call of known functions
has no effect at this point: the callees are built as well, down to a limited depth, and their
summaries are spliced in later. Main definitions:

* `Graph.escapeAll`: everything an instruction touches escapes;
* `Graph.applyContainer`, `Graph.applyRelease`: container operations and releases;
* `Graph.applyEffect`: all effects that concern the function alone;
* `Analysis.build`: the graphs of a function and of its callees.
-/

namespace Escape

namespace Graph

/-! ## Conservative effects -/

/-- Lets a value escape, unless it is a constant address. -/
def escapeOperand (s : Scope) (g : Graph) (v : ValueId) : Checked Graph := do
  if ← s.isReadOnly v then return g
  g.setValueGlobal s v

/-- Lets every pointer operand and result of an instruction escape. -/
def escapeAll (g : Graph) (s : Scope) (i : InstId) : Checked Graph := do
  let inst ← s.func.inst i
  let g ← inst.op.operands.foldlM (escapeOperand s) g
  inst.results.foldlM (fun g r => g.setValueGlobal s r) g

/-- Lets the unknown content of `n` escape. -/
def escapeUnknown (g : Graph) (n : NodeId) : Checked Graph := do
  let (g, c) ← g.ensureUnknown n
  return g.setGlobal c

/-! ## Container operations -/

/-- The node that an element is loaded into: the result of the call, or the memory at the first of
at least three arguments. -/
def loadedElement (g : Graph) (s : Scope) (args : List ValueId) :
    (result : Option ValueId) → Checked (Graph × Option NodeId)
  | some r => g.nodeFor s r
  | none =>
    match args with
    | dest :: _ :: _ :: _ => g.contentFor s dest
    | _ => return (g, none)

/-- Lets the elements of a container `object` defer to an element, if both have a node. -/
def linkElement (g : Graph) (object : NodeId) (element : Option NodeId) :
    Checked (Graph × Bool) := do
  match element, g.fieldContent? object with
  | some n, some storage => return ((← g.defer storage n).1, true)
  | _, _ => return (g, false)

/-- Lets everything in the storage of a container escape, given the container's content. -/
def escapeStorage (g : Graph) (container : NodeId) : Checked Graph := do
  let (g, object) ← g.ensureContent container true false
  if !(g.node object).interior then return g.setGlobal object
  let (g, storage) ← g.ensureContent object false true
  return g.setGlobal storage

/-- Applies an operation on a container with content `object`. -/
def applyContainerTo (g : Graph) (s : Scope) (object : NodeId) (args : List ValueId)
    (result : Option ValueId) : ContainerOp → Checked (Graph × Bool)
  | .getElement => do
    if let some r := result then
      if !(← s.isPointer r) then return (g, true)
    let (g, element) ← g.loadedElement s args result
    g.linkElement object element
  | .getElementAddress => do
    match result with
    | none => return (g, false)
    | some r =>
      match ← g.nodeFor s r with
      | (g, some n) => return ((← g.defer object n).1, true)
      | (g, none) => return (g, false)
  | .setElement => do
    match args with
    | [] => return (g, false)
    | element :: _ =>
      match ← g.nodeFor s element with
      | (g, some n) => g.linkElement object (some n)
      | (g, none) => return (g, true)
  | .withUnsafeMutableBufferPointer => do
    let g ← match args with
      | [] => pure g
      | body :: _ => g.setValueGlobal s body
    return (← g.escapeStorage object, true)
  | _ => return (g, false)

/-- Applies a container operation by its known meaning. Yields `false` if the call has to be treated
like any other; what was done to the graph stays. -/
def applyContainer (g : Graph) (s : Scope) (site : InstId) (op : ContainerOp) :
    Checked (Graph × Bool) := do
  if op.hasNoEffect then return (g, true)
  let inst ← s.func.inst site
  match inst.op with
  | .call _ args _ =>
    match args.getLast? with
    | none => return (g, false)
    | some container =>
      match ← g.contentFor s container with
      | (g, none) => return (g, false)
      | (g, some object) => g.applyContainerTo s object args inst.results.head? op
  | _ => return (g, false)

/-! ## Releases -/

/-- Whether all pointers among the given values pass the test. -/
def allPointers (s : Scope) (test : ValueId → Checked Bool) : List ValueId → Checked Bool
  | [] => return true
  | v :: rest => do
    if ← s.isPointer v then
      if !(← test v) then return false
    allPointers s test rest

/-- Whether the destructor that runs when `v` dies only releases its fields. Follows bases and, for
a closure, everything it captures; at most `bound` steps deep. -/
def deinitKeepsFields (s : Scope) (policy : DeinitPolicy) : (bound : Nat) → ValueId → Checked Bool
  | 0, _ => return false
  | bound + 1, v => do
    match ← s.program.types.get (← s.func.typeOf v) with
    | .box _ => return true
    | .object cls => if !policy cls then return true
    | _ => pure ()
    match ← s.func.definition? v with
    | some (.functionRef _) => return true
    | some (.partialApply callee args) =>
      allPointers s (deinitKeepsFields s policy bound) (callee :: args)
    | _ =>
      match ← s.base? v with
      | some b => deinitKeepsFields s policy bound b
      | none => return false

/-- Releases a value. The last release runs a destructor, which may capture what the fields of the
object point to, but not the object. A destructor that only releases the fields may still end the
lifetime of what they refer to. -/
def applyRelease (g : Graph) (s : Scope) (policy : DeinitPolicy) (released : ValueId) :
    Checked Graph := do
  match ← g.contentFor s released with
  | (g, none) => return g
  | (g, some object) =>
    match g.fieldContent? object with
    | none => g.escapeUnknown object
    | some field =>
      if ← deinitKeepsFields s policy (s.func.values.size + 1) released then
        let (g, referenced) ← g.ensureReferenced s none field
        g.escapeUnknown ((g.content? referenced).getD referenced)
      else if (← s.program.types.storedKind (← s.func.typeOf released)) ≠ .noPointer then
        g.escapeUnknown field
      else return g

/-! ## Effects -/

/-- Lets `n` defer to each of the given values that has a node. -/
def deferToAll (s : Scope) : List ValueId → NodeId → Graph → Checked Graph
  | [], _, g => return g
  | v :: rest, n, g => do
    match ← g.nodeFor s v with
    | (g, some m) =>
      let (g, n) ← g.defer n m
      deferToAll s rest n g
    | (g, none) => deferToAll s rest n g

/-- Applies an effect that concerns the function alone. Calls and releases are up to the analysis.
-/
def applyEffect (g : Graph) (s : Scope) (i : InstId) : Effect → Checked Graph
  | .none | .release _ | .call _ => return g
  | .allocate result => return (← g.nodeFor s result).1
  | .mapToContent result address => do
    match ← g.contentFor s address with
    | (g, some c) => g.bind result c
    | (g, none) => g.setValueGlobal s result
  | .store value address => do
    match ← g.nodeFor s value with
    | (g, none) => return g
    | (g, some n) =>
      match ← g.contentFor s address with
      | (g, some c) => return (← g.defer c n).1
      | (g, none) => g.setValueGlobal s value
  | .copyAddr src dest => do
    match ← g.contentFor s src with
    | (g, none) => g.escapeAll s i
    | (g, some loaded) =>
      match ← g.contentFor s dest with
      | (g, some c) => return (← g.defer c loaded).1
      | (g, none) => g.setValueGlobal s src
  | .copy result operand => do
    match ← g.nodeFor s operand with
    | (g, none) => g.setValueGlobal s result
    | (g, some n) =>
      match ← g.nodeFor s result with
      | (g, some r) => return (← g.defer r n).1
      | (g, none) => return g
  | .defer result operands => do
    match ← g.nodeFor s result with
    | (g, some r) => deferToAll s operands r g
    | (g, none) => return g
  | .deferAddresses dest src => do
    let (g, d) ← g.nodeFor s dest
    match d, ← g.nodeFor s src with
    | some d, (g, some n) => return (← g.defer d n).1
    | _, (g, _) => return g
  | .destroyAddr address => do
    match ← g.contentFor s address with
    | (g, none) => return g
    | (g, some c) => g.escapeUnknown ((g.fieldContent? c).getD c)
  | .ret value => do
    match ← g.nodeFor s value with
    | (g, none) => return g
    | (g, some n) =>
      let (g, r) := g.ensureReturn
      let (g, _) ← g.defer r n
      match ← g.contentFor s value with
      | (g, some c) => return (g.raise c .returned).1
      | (g, none) => return g
  | .escapeAll => g.escapeAll s i

/-! ## Block arguments -/

/-- Lets the node `n` of a block argument defer to the values that flow in. It escapes if one of
them has no node; then the rest is left out. -/
def linkIncoming (s : Scope) : List ValueId → NodeId → Graph → Checked Graph
  | [], _, g => return g
  | v :: rest, n, g => do
    match ← g.nodeFor s v with
    | (g, some m) =>
      let (g, n) ← g.defer n m
      linkIncoming s rest n g
    | (g, none) => return g.setGlobal n

/-- Links argument `index` of a block to the values that flow in from `preds`. It escapes if one of
them does not pass it. -/
def linkArgument (s : Scope) (preds : List BlockId) (b : BlockId) (g : Graph)
    (arg : ValueId × Nat) : Checked Graph := do
  match ← g.nodeFor s arg.1 with
  | (g, none) => return g
  | (g, some n) =>
    match ← s.func.incoming b arg.2 preds with
    | none => return g.setGlobal n
    | some vs => linkIncoming s vs n g

/-- Links the arguments of all blocks but the entry. -/
def linkBlocks (g : Graph) (s : Scope) (blocks : List BlockId) : Checked Graph :=
  (blocks.filter (· ≠ Func.entry)).foldlM
    (fun g b => do (← s.func.block b).args.zipIdx.foldlM (linkArgument s blocks b) g) g

end Graph

namespace Analysis

/-! ## Calls and functions -/

/-- Builds a function within an update. -/
abbrev Builder := FuncId → Update → Checked Update

/-- Records a call site at each callee, and builds the callees that this update has not come to. -/
def buildCallees (descend : Builder) (site : CallSite) : List FuncId → Update → Checked Update
  | [], u => return u
  | f :: rest, u => do
    let u := u.modify f (·.addCaller site)
    if (u.infos.find? f).any u.isVisited then buildCallees descend site rest u
    else buildCallees descend site rest ((← descend f u).place f)

/-- The destructor that a release of `v` runs, if `v` is a local object of a class with a known one.
-/
def destructor? (s : Scope) (v : ValueId) : Checked (Option FuncId) := do
  match ← s.localClass? v with
  | none => return none
  | some cls =>
    match (← s.program.types.class? cls).bind (·.deinit) with
    | none => return none
    | some f => return if (s.program.func? f).isSome then some f else none

/-- The functions that a call may invoke, if they are known and all declared. -/
def knownCallees (a : Analysis) (s : Scope) (site : InstId) : Checked (Option (List FuncId)) := do
  match ← a.resolver s.program s.id site with
  | .unknown => return none
  | .precise fs =>
    return if !fs.isEmpty && fs.all fun f => (s.program.func? f).isSome then some fs else none

/-- Applies the effect of an instruction. `descend` builds callees; without it the depth is used up
and callees are unknown. -/
def applyInst (a : Analysis) (descend : Option Builder) (s : Scope) (i : InstId) (u : Update)
    (g : Graph) : Checked (Update × Graph) := do
  let site : CallSite := ⟨s.id, i⟩
  match ← Effect.of s i with
  | .release v =>
    match descend with
    | none => return (u, ← g.applyRelease s a.policy v)
    | some descend =>
      match ← destructor? s v with
      | some f => return (← buildCallees descend site [f] u, g)
      | none => return (u, ← g.applyRelease s a.policy v)
  | .call container =>
    let (g, done) ← match container with
      | some op => if a.config.modelContainers then g.applyContainer s i op else pure (g, false)
      | none => pure (g, false)
    if done then return (u, g)
    match descend with
    | none => return (u, ← g.escapeAll s i)
    | some descend =>
      match ← a.knownCallees s i with
      | some fs => return (← buildCallees descend site fs u, g)
      | none => return (u, ← g.escapeAll s i)
  | effect => return (u, ← g.applyEffect s i effect)

/-- Applies the effects of instructions in order. A graph that grows beyond the limit is given up.
-/
def applyInsts (a : Analysis) (descend : Option Builder) (s : Scope) :
    List InstId → Update → Graph → Checked (Update × Graph)
  | [], u, g => return (u, g)
  | i :: rest, u, g => do
    let (u, g) ← a.applyInst descend s i u g
    if a.config.maxNodes < g.size then return (u, g.invalidate)
    a.applyInsts descend s rest u g

/-- Builds the graph of a function, unless that is done already. -/
def buildWith (a : Analysis) (p : Program) (descend : Option Builder) : Builder := fun f u => do
  match Scope.of? p f with
  | none => return u
  | some s =>
    let (u, todo) := u.visit f
    if !todo then return u
    let blocks ← s.func.reachableBlocks
    let (u, g) ← a.applyInsts descend s (← s.func.instsOf blocks) u (.full f)
    let g ← if g.valid then g.linkBlocks s blocks else pure g
    return u.modify f fun info => { info with graph := g }

/-- Builds the graph of a function, and of functions that it calls through at most `depth` calls. -/
def build (a : Analysis) (p : Program) : (depth : Nat) → Builder
  | 0 => a.buildWith p none
  | depth + 1 => a.buildWith p (some (a.build p depth))

end Analysis

end Escape
