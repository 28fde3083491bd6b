import Escape.Proofs.Graph.Closed
import Escape.Proofs.Graph.Monotone
import Mathlib.Order.Bounds.Basic

/-!
# What pushing states computes

Sweeps change states in place and in the order of the nodes, so a sweep sees states that it has
changed itself. Still the outcome depends on the edges alone: a node ends up with the largest state
that any node had from which it can be reached. From above, a state is only ever taken from a node
that already has the state of a node further up; from below, no state falls along an edge in the
end.

- `Graph.propagate_exact`: **pushing states computes the least states that are closed.**
-/

namespace Escape.Graph

variable {g g' : Graph} {n m k : NodeId} {s : EscapeState}

/-! ### States that reach a node -/

/-- An edge that states are pushed along: it leaves a live node. -/
def Flows (g : Graph) (n m : NodeId) : Prop := (g.node n).merged = false ∧ m ∈ g.successors n

/-- The states of the live nodes from which `n` can be reached, `n` included. -/
def inflow (g : Graph) (n : NodeId) : Set EscapeState :=
  { s | ∃ m, g.Live m ∧ ReflTransGen g.Flows m n ∧ (g.node m).state = s }

/-- A node from which a live node can be reached is live itself. -/
theorem live_of_flows (hpath : ReflTransGen g.Flows m n) (hn : g.Live n) : g.Live m := by
  rcases hpath.cases_head with rfl | ⟨k, hflow, -⟩
  · exact hn
  · exact ⟨has_of_mem_successors hflow.2, hflow.1⟩

/-- In a closed graph no state falls along a path. -/
theorem Closed.le_of_path (hc : Closed g) (hpath : ReflTransGen g.Flows m n) :
    (g.node m).state ≤ (g.node n).state := by
  induction hpath with
  | refl => exact EscapeState.le_refl _
  | tail _ hflow ih => exact EscapeState.le_trans ih (hc _ hflow.1 _ hflow.2)

theorem Raises.flows (h : Raises g g') : g'.Flows = g.Flows := by
  funext n m
  rw [Flows, Flows, h.field Node.merged, h.successors]

/-- From `g` to `g'` states were raised, each to that of a node from which it can be reached. -/
structure Sourced (g g' : Graph) : Prop extends Raises g g' where
  source : ∀ n, ∃ m, ReflTransGen g.Flows m n ∧ (g'.node n).state = (g.node m).state

namespace Sourced

theorem refl (g : Graph) : Sourced g g := ⟨.refl g, fun n => ⟨n, .refl, rfl⟩⟩

/-- Raising `k` to a state that has reached it. -/
theorem raise (h : Sourced g g') (hm : ReflTransGen g.Flows m k) :
    Sourced g (g'.modify k (·.raise (g.node m).state)) := by
  refine ⟨h.toRaises.trans (modify_raises g' k _), fun n => ?_⟩
  obtain ⟨m', hm', hstate⟩ := h.source n
  rw [node_modify]
  split
  · rename_i hn
    obtain ⟨rfl, -⟩ := hn
    show ∃ m', _ ∧ EscapeState.join _ _ = _
    unfold EscapeState.join
    split
    · exact ⟨m, hm, rfl⟩
    · exact ⟨m', hm', hstate⟩
  · exact ⟨m', hm', hstate⟩

/-- Pushing the state of one node on. -/
theorem pushState {acc : Graph × Bool} (h : Sourced g acc.1) (n : NodeId) :
    Sourced g (pushState acc n).1 := by
  cases hm : (acc.1.node n).merged with
  | true => rwa [pushState_of_merged hm]
  | false =>
    have hlive : (g.node n).merged = false := by rw [← hm, h.field Node.merged]
    obtain ⟨m, hpath, hstate⟩ := h.source n
    rw [pushState_of_live hm, hstate]
    -- the state that is pushed stays the same while the successors are raised to it
    refine List.foldlRecOn (motive := fun a : Graph × Bool => Sourced g a.1) _ _ h
      fun a ha k hk => ?_
    exact ha.raise (hpath.tail ⟨hlive, h.successors n ▸ hk⟩)

theorem propagate (g : Graph) : Sourced g g.propagate.1 :=
  propagateUpTo_induct (fun _ n h => h.pushState n) _ (.refl g)

/-- Where no state falls along an edge, a node has the largest of the states that reach it. -/
theorem isGreatest (h : Sourced g g') (hc : Closed g') (hn : g.Live n) :
    IsGreatest (g.inflow n) (g'.node n).state := by
  obtain ⟨m, hpath, hstate⟩ := h.source n
  refine ⟨⟨m, live_of_flows hpath hn, hpath, hstate.symm⟩, ?_⟩
  rintro _ ⟨m, -, hpath, rfl⟩
  exact EscapeState.le_trans (h.state m) (hc.le_of_path (h.flows ▸ hpath))

end Sourced

/-- What pushing states reports is a change of a state. -/
theorem propagate_changed_iff (hc : Contained g) :
    g.propagate.2 = true ↔ ∃ n, (g.propagate.1.node n).state ≠ (g.node n).state := by
  have hsplit : g.propagate = if g.sweepStates.2 then
    ((Graph.propagateUpTo (3 * g.size) g.sweepStates.1).1, true)
      else (g.sweepStates.1, false) := propagateUpTo_succ _ g
  cases hsweep : g.sweepStates.2 with
  | false =>
    rw [hsweep, if_neg Bool.false_ne_true] at hsplit
    rw [hsplit, (sweepStates_false hsweep).1]
    simp
  | true =>
    rw [hsweep, if_pos rfl] at hsplit
    have hlt := sweepStates_true hc hsweep
    have hr := propagateUpTo_raises (3 * g.size) g.sweepStates.1
    have hgrew := total_le_total (w := stateRank) hr.size hr.state
    rw [hsplit]
    refine ⟨fun _ => ?_, fun _ => rfl⟩
    by_contra! hsame
    have hsize := hr.size.trans (sweepStates_raises g).size
    have hback := total_le_total (w := stateRank) hsize.symm fun n => Nat.le_of_eq
      (congrArg EscapeState.rank (hsame n))
    omega

/-- **Pushing states to the end is exact**, in every graph whose edges lead to nodes of its table.
Nothing but states changes, and each live node has the largest state in the end that any live node
had from which it can be reached along points-to and defer edges. A change is reported exactly if a
state changed, and doing it again changes nothing. -/
theorem propagate_exact (h : Contained g) :
    Raises g g.propagate.1 ∧
      (∀ n, g.Live n → IsGreatest (g.inflow n) (g.propagate.1.node n).state) ∧
      (g.propagate.2 = true ↔ ∃ n, (g.propagate.1.node n).state ≠ (g.node n).state) ∧
      g.propagate.1.propagate = (g.propagate.1, false) := by
  have hclosed := h.propagate_closed
  exact ⟨propagate_raises g, fun n => (Sourced.propagate g).isGreatest hclosed,
    propagate_changed_iff h, hclosed.propagate⟩

/-- The memory that two values share escapes with one of them, and what it points to does, too. -/
theorem propagate_exact_object : ∃ g, (full ⟨0⟩).run (objectEdits.take 7) = .ok g ∧
    (g.node ⟨3⟩).state = .argumentReachable ∧ IsGreatest (g.inflow ⟨3⟩) .globalEscaping ∧
    g.propagate.2 = true ∧ g.propagate.1.propagate.2 = false := by
  have hrun : ∃ g, (full ⟨0⟩).run (objectEdits.take 7) = .ok g ∧
    (g.node ⟨3⟩).state = .argumentReachable ∧
      g.Live ⟨3⟩ ∧ (g.propagate.1.node ⟨3⟩).state = .globalEscaping := by decide +kernel
  have hplain : Along (fun g e => e.OnLive g ∧ e.Plain g) (full ⟨0⟩) objectEdits := by
    decide +kernel
  obtain ⟨g, hg, hbefore, hlive, hafter⟩ := hrun
  have hs : Settled g := (Settled.run (Q := fun _ => True) _ _ ⟨(IsStart.full ⟨0⟩).stable.toShape,
    (IsStart.full ⟨0⟩).stable.settled⟩ ((hplain.take 7).mono fun _ _ h => ⟨h.1, trivial⟩) hg).1
  obtain ⟨-, hgreatest, hchanged, hagain⟩ := propagate_exact hs.contained
  refine ⟨g, hg, hbefore, hafter ▸ hgreatest ⟨3⟩ hlive, hchanged.mpr ⟨⟨3⟩, ?_⟩,
    congrArg Prod.snd hagain⟩
  rw [hbefore, hafter]
  exact nofun

end Escape.Graph
