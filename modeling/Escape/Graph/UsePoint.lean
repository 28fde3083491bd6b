import Escape.Graph.Values

/-!
# Use points

Calls and releases may end the lifetime of the memory that their operands point to. Such an
instruction is a use point of that memory, and of all memory that can be reached from there. Memory
that escapes globally needs no use points: anything may use it.
-/

namespace Escape.Graph

/-- The use point of an instruction, numbered on first request. -/
def numberUser (g : Graph) (i : InstId) : Graph × Nat :=
  match g.usePoints.find? i with
  | some u => (g, u)
  | none =>
    let u := g.users.size
    ({ g with usePoints := g.usePoints.insert i u, users := g.users.push (some i) }, u)

/-- Makes an instruction a use point of what represents `n`, unless that escapes globally. -/
def addUsePoint (g : Graph) (n : NodeId) (i : InstId) : Graph × Option Nat :=
  let n := g.representative n
  if (g.node n).state = .globalEscaping then (g, none)
  else
    let (g, u) := g.numberUser i
    (g.modify n (·.addUsePoints ⟨[u]⟩), some u)

/-- Whether an instruction may end the lifetime of the memory of `n`. -/
def isUsePoint (g : Graph) (n : NodeId) (i : InstId) : Bool :=
  let x := g.node (g.representative n)
  if x.state = .globalEscaping then true
  else
    match g.usePoints.find? i with
    | some u => x.usePoints.contains u
    | none => false

/-- The instructions that are use points of what represents `n`. -/
def usersOf (g : Graph) (n : NodeId) : List InstId :=
  (g.node (g.representative n)).usePoints.bits.filterMap fun u => g.users[u]?.join

/-- Forgets an instruction that is about to be deleted: its results lose their nodes, and its use
point is retired. -/
def forget (g : Graph) (i : InstId) (results : List ValueId) : Graph :=
  let g := results.foldl forgetValue g
  match g.usePoints.find? i with
  | some u =>
    { g with
      usePoints := g.usePoints.erase i
      users := g.users.setIfInBounds u none
      nodes := g.nodes.map fun x => { x with usePoints := (x.usePoints.erase u).1 } }
  | none => g
where
  /-- Takes a value off its node. -/
  forgetValue (g : Graph) (v : ValueId) : Graph :=
    match g.values.find? v with
    | some n =>
      let g := g.modify (g.representative n) fun x =>
        { x with value := if x.value = some v then none else x.value }
      { g with values := g.values.erase v }
    | none => g

/-! ## All use points of a function -/

/-- Makes `i` a use point of the memory that its operands point to. The number is taken when the
first operand whose memory does not escape globally comes up. -/
def useOperands (s : Scope) (i : InstId) : List ValueId → Option Nat → Graph → Checked Graph
  | [], _, g => return g
  | v :: rest, number, g => do
    match ← g.contentFor s v, number with
    | (g, none), number => useOperands s i rest number g
    | (g, some c), none =>
      let (g, number) := g.addUsePoint c i
      useOperands s i rest number g
    | (g, some c), some u => useOperands s i rest number (g.modify c (·.addUsePoints ⟨[u]⟩))

/-- Makes a call or a release a use point of the memory that its operands point to. -/
def useInst (s : Scope) (g : Graph) (i : InstId) : Checked Graph := do
  let op := (← s.func.inst i).op
  if op.isRelease || op.isCall then useOperands s i op.operands none g else return g

/-- Pushes the use points of `n` on to what it points to. -/
def pushUsePoints (acc : Graph × Bool) (n : NodeId) : Graph × Bool :=
  let g := acc.1
  if (g.node n).merged then acc
  else
    match g.content? n with
    | some c =>
      if c = n then acc
      else
        let grown := ((g.node c).usePoints.union (g.node n).usePoints).2
        (g.copyUsePoints n c, acc.2 || grown)
    | none => acc

/-- Pushes use points along points-to edges until nothing changes, at most `bound` times. -/
def propagateUsePoints : (bound : Nat) → Graph → Graph
  | 0, g => g
  | bound + 1, g =>
    let (g', changed) := g.nodeIds.foldl pushUsePoints (g, false)
    if changed then propagateUsePoints bound g' else g'

/-- Works out the use points of all memory from the instructions of the given blocks. The graph must
not have use points yet. Each sweep but the last adds a use point to a node. -/
def computeUsePoints (g : Graph) (s : Scope) (blocks : List BlockId) : Checked Graph := do
  if !g.nodes.all (·.usePoints.isEmpty) then throw .prematureUsePoints
  let g ← (← s.func.instsOf blocks).foldlM (useInst s) g
  return propagateUsePoints (g.size * g.users.size + 1) g

end Escape.Graph
