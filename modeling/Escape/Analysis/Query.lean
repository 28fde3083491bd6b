import Escape.Analysis.Access
import Escape.Graph.Traverse

/-!
# Queries

The questions that optimizations ask. A query computes the graphs it needs and otherwise only reads
them. What the graphs do not settle is answered with `true`: an unknown function, a graph that was
given up, a value without a node. The answer `false` means

* of `Analysis.canEscapeTo`: the call or release cannot get at the memory of the value;
* of `Analysis.mayAlias`: the two values never address the same memory;
* of `Analysis.mayRelease`: releasing one value cannot free the memory of the other;
* of `Analysis.canParameterEscape`: no callee lets the argument outlive the call.
-/

namespace Escape

namespace Graph

/-! ## Questions to one graph -/

/-- Whether `user`, a call or a release, may get at the memory that the unique value `v` points to.
-/
def canEscapeTo (g : Graph) (s : Scope) (v : ValueId) (user : InstId) : Checked Bool := do
  match ← g.contentOf? s v with
  | none => return true
  | some c =>
    let exclusive ← s.isExclusive (← s.root v)
    return g.someInterior
      (fun n => (g.node n).state.escapesInside exclusive || g.isUsePoint n user) c

/-- Whether two contents may be the same memory, by the kinds of the values that point to them. What
a reference points to holds the fields one level below, and the address of a field points there. -/
def sameContent (g : Graph) (s : Scope) (v w : ValueId) (c d : NodeId) : Checked Bool := do
  let addressV ← s.isAddress v
  let addressW ← s.isAddress w
  let referenceV ← s.isReference v
  let referenceW ← s.isReference w
  if (addressV && addressW) || (referenceV && referenceW) then return c = d
  if addressV && referenceW then return some c = g.fieldContent? d
  if addressW && referenceV then return g.fieldContent? c = some d
  return true

/-- Whether two values, each known to be unique or not, may address the same memory. -/
def mayAlias (g : Graph) (s : Scope) (v w : ValueId) (uniqueV uniqueW : Bool) : Checked Bool := do
  let cv ← g.contentOf? s v
  let cw ← g.contentOf? s w
  match cv, cw with
  | some c, some d =>
    let uniqueV := uniqueV && !(← g.escapesInside s c v)
    let uniqueW := uniqueW && !(← g.escapesInside s d w)
    if !uniqueV && !uniqueW then return true
    g.sameContent s v w c d
  | _, _ => return true

/-- Whether releasing an object may free the memory `live`, or any memory that escapes inside the
function if `live` is not unique. -/
def freesContent (g : Graph) (object live : NodeId) (liveUnique : Bool) : Bool :=
  g.someContent
    (fun n => n = live || (!liveUnique && (g.node n).state.escapesInside false)) object

/-- Whether releasing a value, or the reference that is stored at an address, may free the memory
that `live` points to. An exclusive parameter has a reference count of its own, so it is unique also
if the released value leads to it. -/
def mayRelease (g : Graph) (s : Scope) (released live : ValueId) : Checked Bool := do
  match ← g.contentOf? s live with
  | none => return true
  | some l =>
    let unique ← s.isUnique live
    let unique := unique && !(← g.escapesInside s l live)
    if !unique then
      if !(← s.isLocal released) then return true
    match ← g.contentOf? s released with
    | none => return true
    | some c =>
      if ← s.isAddress released then
        match g.content? c with
        | some object => return g.freesContent object l unique
        | none => return !unique && (g.node c).state.escapesInside false
      else return g.freesContent c l unique

/-- Whether the summary lets the parameter `v`, or with `inside` the memory it points to, escape
globally or be returned. -/
def letsEscape (g : Graph) (s : Scope) (v : ValueId) (inside : Bool) : Checked Bool := do
  if !g.valid then return true
  match ← g.nodeOf? s v with
  | none => return true
  | some n =>
    match if inside then g.content? n else some n with
    | none => return false
    | some m => return g.reachesGlobal m || g.returnNode.any (g.isReachable · m)

end Graph

namespace Analysis

/-! ## Questions to the analysis -/

/-- Asks the full graph of a function; the answer is `true` if there is no valid one. -/
def askGraph (a : Analysis) (p : Program) (f : FuncId) (question : Graph → Checked Bool) :
    Checked (Analysis × Bool) := do
  match ← a.infoFor p f with
  | .error _ => return (a, true)
  | .ok (a, info) =>
    if info.graph.valid then return (a, ← question info.graph) else return (a, true)

/-- Whether `user`, a call or a release, may get at the memory that `v` points to. -/
def canEscapeTo (a : Analysis) (p : Program) (f : FuncId) (v : ValueId) (user : InstId) :
    Checked (Analysis × Bool) := do
  match Scope.of? p f with
  | none => return (a, true)
  | some s =>
    if !(← s.isUnique v) then return (a, true)
    a.askGraph p f fun g => g.canEscapeTo s v user

/-- Whether two values may address the same memory. -/
def mayAlias (a : Analysis) (p : Program) (f : FuncId) (v w : ValueId) :
    Checked (Analysis × Bool) := do
  match Scope.of? p f with
  | none => return (a, true)
  | some s =>
    let uniqueV ← s.isUnique v
    let uniqueW ← s.isUnique w
    if !uniqueV && !uniqueW then return (a, true)
    a.askGraph p f fun g => g.mayAlias s v w uniqueV uniqueW

/-- Whether releasing one value may free memory that another one points to. -/
def mayRelease (a : Analysis) (p : Program) (f : FuncId) (released live : ValueId) :
    Checked (Analysis × Bool) := do
  match Scope.of? p f with
  | none => return (a, true)
  | some s => a.askGraph p f fun g => g.mayRelease s released live

/-- Whether a callee lets its parameter number `index` escape. -/
def calleeLetsEscape (a : Analysis) (p : Program) (callee : FuncId) (index : Nat) (inside : Bool) :
    Checked (Analysis × Bool) := do
  match Scope.of? p callee with
  | none => return (a, true)
  | some s =>
    match (← s.func.arguments)[index]? with
    | none => return (a, true)
    | some v =>
      if !(← s.isPointer v) then return (a, false)
      match ← a.infoFor p callee with
      | .error _ => return (a, true)
      | .ok (a, info) => return (a, ← info.summary.letsEscape s v inside)

/-- Whether one of the callees lets its parameter number `index` escape. -/
def someLetsEscape (p : Program) (index : Nat) (inside : Bool) :
    List FuncId → Analysis → Checked (Analysis × Bool)
  | [], a => return (a, false)
  | f :: rest, a => do
    let (a, escapes) ← a.calleeLetsEscape p f index inside
    if escapes then return (a, true) else someLetsEscape p index inside rest a

/-- Whether argument number `index` of a call, or with `inside` the memory it points to, may escape
through one of the callees. -/
def canParameterEscape (a : Analysis) (p : Program) (site : CallSite) (index : Nat)
    (inside : Bool) : Checked (Analysis × Bool) := do
  match ← a.resolver p site.caller site.site with
  | .unknown | .precise [] => return (a, true)
  | .precise fs => someLetsEscape p index inside fs a

end Analysis

end Escape
