import Escape.Graph.Traverse
import Escape.Proofs.Graph.Evolves
import Mathlib.Algebra.GroupWithZero.Nat
import Mathlib.Algebra.Order.BigOperators.Group.List
import Mathlib.Algebra.Order.Group.Nat

/-!
# Pushing states to the end

A sweep that changes nothing leaves a graph in which no state falls along an edge. Every other sweep
raises a node, which happens at most three times to each of them, so the sweeps that `propagate` may
take suffice.

- `Graph.propagate_closed`: pushing states along all edges closes a graph.
- `Closed.propagate`: a closed graph stays what it is.
-/

namespace Escape.Graph

variable {g g' : Graph} {n m : NodeId} {s : EscapeState} {acc : Graph × Bool} {w : Node → Nat}

/-- What a live node points or defers to is visible at least as far as the node itself. -/
def Closed (g : Graph) : Prop :=
  ∀ n, (g.node n).merged = false → ∀ m ∈ g.successors n, (g.node n).state ≤ (g.node m).state

/-- Missing nodes have no successors. -/
theorem has_of_mem_successors (hm : m ∈ g.successors n) : g.Has n := by
  rcases List.mem_append.mp hm with hc | hd
  · exact has_of_content? (Option.mem_toList.mp hc)
  · exact Defers.has hd

instance (g : Graph) : Decidable (Closed g) :=
  decidable_of_iff (∀ n ∈ g.nodeIds, (g.node n).merged = false → ∀ m ∈ g.successors n,
      (g.node n).state ≤ (g.node m).state)
    ⟨fun h n hn m hm => h n (mem_nodeIds.mpr (has_of_mem_successors hm)) hn m hm, fun h n _ => h n⟩

theorem Settled.has_of_successor (hs : Settled g) (hm : m ∈ g.successors n) : g.Has m := by
  rcases List.mem_append.mp hm with hc | hd
  · exact (hs.live_content (Option.mem_toList.mp hc)).1
  · exact hs.has_of_defers hd

/-- Edges lead to nodes of the table. -/
def Contained (g : Graph) : Prop := ∀ n m, m ∈ g.successors n → g.Has m

theorem Settled.contained (hs : Settled g) : Contained g := fun _ _ => hs.has_of_successor

theorem SameEdges.successors (h : SameEdges g g') (hf : Forest g) (n : NodeId) :
    g'.successors n = g.successors n := by
  rw [Graph.successors, Graph.successors, h.content? hf, h.defersTo]

/-- States that did not change leave a graph closed. -/
theorem Closed.sameEdges (h : Closed g) (he : SameEdges g g') (hf : Forest g)
    (hs : ∀ n, (g'.node n).state = (g.node n).state) : Closed g' := by
  intro n hn m hm
  rw [he.merged] at hn
  rw [he.successors hf] at hm
  rw [hs, hs]
  exact h n hn m hm

/-! ### Sums over the nodes of a graph -/

/-- The sum of a weight over all nodes. -/
def total (w : Node → Nat) (g : Graph) : Nat := (g.nodeIds.map fun n => w (g.node n)).sum

/-- A bounded weight has a bounded sum. -/
theorem total_le {k : Nat} (h : ∀ n, w (g.node n) ≤ k) : total w g ≤ g.size * k := by
  have hle := List.sum_le_card_nsmul (g.nodeIds.map fun n => w (g.node n)) k (by
    intro x hx
    obtain ⟨n, -, rfl⟩ := List.mem_map.mp hx
    exact h n)
  rwa [List.length_map, length_nodeIds] at hle

/-- The sum grows if one node gains and none loses. -/
theorem total_lt (hs : g'.size = g.size) (hle : ∀ n, w (g.node n) ≤ w (g'.node n)) (hn : g.Has n)
    (hlt : w (g.node n) < w (g'.node n)) : total w g < total w g' := by
  rw [total, total, show g'.nodeIds = g.nodeIds by rw [nodeIds, nodeIds, hs]]
  exact List.sum_lt_sum _ _ (fun k _ => hle k) ⟨n, mem_nodeIds.mpr hn, hlt⟩

theorem total_le_total (hs : g'.size = g.size) (hle : ∀ n, w (g.node n) ≤ w (g'.node n)) :
    total w g ≤ total w g' := by
  rw [total, total, show g'.nodeIds = g.nodeIds by rw [nodeIds, nodeIds, hs]]
  exact List.sum_le_sum fun n _ => hle n

/-! ### Reported changes -/

/-- A loop that reports no change does nothing, if each of its steps does nothing when it reports
none. -/
theorem foldl_unreported {f : Graph × Bool → NodeId → Graph × Bool} {Q : Graph → NodeId → Prop}
    (step : ∀ acc n, (f acc n).2 = false → f acc n = acc ∧ acc.2 = false ∧ Q acc.1 n) :
    ∀ {l : List NodeId} {acc : Graph × Bool}, (l.foldl f acc).2 = false →
      l.foldl f acc = acc ∧ acc.2 = false ∧ ∀ n ∈ l, Q acc.1 n
  | [], _, h => ⟨rfl, h, nofun⟩
  | n :: l, acc, h => by
    obtain ⟨hfold, hflag, hrest⟩ := foldl_unreported step (l := l) h
    obtain ⟨hsame, hacc, hn⟩ := step acc n hflag
    rw [hsame] at hfold hrest
    rw [List.foldl_cons, hsame]
    exact ⟨hfold, hacc, List.forall_mem_cons.mpr ⟨hn, hrest⟩⟩

/-- From `acc` to `acc'` the sum of a weight does not fall, and it grows if a change comes to be
reported. -/
structure Gains (w : Node → Nat) (acc acc' : Graph × Bool) : Prop where
  le : total w acc.1 ≤ total w acc'.1
  lt : acc'.2 = true → acc.2 = true ∨ total w acc.1 < total w acc'.1

theorem Gains.refl (w : Node → Nat) (acc : Graph × Bool) : Gains w acc acc := ⟨Nat.le_refl _, .inl⟩

theorem Gains.trans {acc' acc'' : Graph × Bool} (h : Gains w acc acc') (h' : Gains w acc' acc'') :
    Gains w acc acc'' := by
  refine ⟨Nat.le_trans h.le h'.le, fun hflag => ?_⟩
  rcases h'.lt hflag with hflag | hlt
  · exact (h.lt hflag).imp_right fun hlt => Nat.lt_of_lt_of_le hlt h'.le
  · exact .inr (Nat.lt_of_le_of_lt h.le hlt)

/-! ### One sweep -/

/-- The rank of the state of a node. -/
abbrev stateRank (x : Node) : Nat := x.state.rank

theorem stateRank_le (x : Node) : stateRank x ≤ 3 := by
  cases h : x.state <;> simp [stateRank, h, EscapeState.rank]

/-- Without a report the state was high enough. -/
theorem raiseTo_unreported (h : (raiseTo s acc m).2 = false) :
    raiseTo s acc m = acc ∧ acc.2 = false ∧ s ≤ (acc.1.node m).state := by
  obtain ⟨hacc, hm⟩ := Bool.or_eq_false_iff.mp h
  have hle : s ≤ (acc.1.node m).state := Nat.le_of_not_lt (of_decide_eq_false hm)
  exact ⟨by rw [raiseTo, modify_raise_of_le hle, hm, Bool.or_false], hacc, hle⟩

/-- A report means a higher state. -/
theorem raiseTo_gains (hm : acc.1.Has m) : Gains stateRank acc (raiseTo s acc m) := by
  have hr := modify_raises acc.1 m s
  refine ⟨total_le_total hr.size hr.state,
    fun h => (Bool.or_eq_true_iff.mp h).imp_right fun hlt => ?_⟩
  refine total_lt hr.size hr.state hm (Nat.lt_of_lt_of_le (of_decide_eq_true hlt) ?_)
  show s ≤ ((acc.1.modify m _).node m).state
  rw [node_modify_self hm]
  exact EscapeState.le_join_right _ _

theorem pushState_of_merged (h : (acc.1.node n).merged = true) :
    pushState acc n = acc := if_pos h

theorem pushState_of_live (h : (acc.1.node n).merged = false) :
    pushState acc n = (acc.1.successors n).foldl (raiseTo (acc.1.node n).state) acc :=
  if_neg (by rw [h]; exact Bool.false_ne_true)

/-- Pushing a state reports no change only if it falls along no edge. -/
theorem pushState_unreported (h : (pushState acc n).2 = false) :
    pushState acc n = acc ∧ acc.2 = false ∧ ((acc.1.node n).merged = false →
      ∀ m ∈ acc.1.successors n, (acc.1.node n).state ≤ (acc.1.node m).state) := by
  cases hm : (acc.1.node n).merged with
  | true =>
    rw [pushState_of_merged hm] at h ⊢
    exact ⟨rfl, h, nofun⟩
  | false =>
    rw [pushState_of_live hm] at h ⊢
    obtain ⟨hsame, hacc, hle⟩ := foldl_unreported
      (Q := fun g m => (acc.1.node n).state ≤ (g.node m).state) (fun _ _ => raiseTo_unreported) h
    exact ⟨hsame, hacc, fun _ => hle⟩

theorem Raises.has (h : Raises g g') : g'.Has n ↔ g.Has n := by rw [Has, Has, h.size]

theorem Raises.settled (h : Raises g g') (hs : Settled g) : Settled g' :=
  ⟨h.shape hs.toShape, h.pending.trans hs.pending⟩

/-- Successors do not depend on states. -/
theorem Raises.successors (h : Raises g g') (n : NodeId) : g'.successors n = g.successors n := by
  have hrep := representative_congr h.size (h.field Node.mergeTo)
  have hdefers := h.field Node.defersTo (fun _ => rfl) n
  rw [Graph.successors, Graph.successors, content?_eq, content?_eq, hdefers, target?, target?,
    h.field Node.pointsTo, funext hrep]

theorem Raises.contained (h : Raises g g') (hc : Contained g) : Contained g' := fun n m hm =>
  h.has.mpr (hc n m (h.successors n ▸ hm))

theorem pushState_gains (hc : Contained acc.1) (n : NodeId) :
    Gains stateRank acc (pushState acc n) := by
  cases hm : (acc.1.node n).merged with
  | true =>
    rw [pushState_of_merged hm]
    exact .refl _ _
  | false =>
    rw [pushState_of_live hm]
    exact (List.foldlRecOn (motive := fun a : Graph × Bool => Raises acc.1 a.1 ∧
      Gains stateRank acc a) _ _ ⟨.refl _, .refl _ _⟩ fun a ⟨hr, hg⟩ m hsucc =>
        ⟨hr.trans (modify_raises a.1 m _), hg.trans (raiseTo_gains (hr.has.mpr (hc n m hsucc)))⟩).2

/-! ### All sweeps -/

/-- A sweep without a report finds the states closed. -/
theorem sweepStates_false (h : g.sweepStates.2 = false) : g.sweepStates.1 = g ∧ Closed g := by
  obtain ⟨hfold, -, hle⟩ := foldl_unreported (Q := fun g n => (g.node n).merged = false →
    ∀ m ∈ g.successors n, (g.node n).state ≤ (g.node m).state) (fun _ _ => pushState_unreported) h
  refine ⟨congrArg Prod.fst hfold, fun n hn m hm => ?_⟩
  by_cases hhas : g.Has n
  · exact hle n (mem_nodeIds.mpr hhas) hn m hm
  · rw [node_of_not_has hhas]
    exact Nat.zero_le _

/-- A sweep that reports a change raises a state. -/
theorem sweepStates_true (hc : Contained g) (h : g.sweepStates.2 = true) :
    total stateRank g < total stateRank g.sweepStates.1 := by
  have hgains : Raises g g.sweepStates.1 ∧ Gains stateRank (g, false) g.sweepStates :=
    List.foldlRecOn (motive := fun a : Graph × Bool => Raises g a.1 ∧
      Gains stateRank (g, false) a) _ _ ⟨.refl g, .refl _ _⟩ fun a ⟨hr, hg⟩ n _ =>
        ⟨hr.trans (pushState_raises a n), hg.trans (pushState_gains (hr.contained hc) n)⟩
  exact (hgains.2.lt h).resolve_left Bool.false_ne_true

/-- Sweeps again after a report. -/
theorem propagateUpTo_succ (bound : Nat) (g : Graph) : propagateUpTo (bound + 1) g =
    if g.sweepStates.2 then ((propagateUpTo bound g.sweepStates.1).1, true) else
      (g.sweepStates.1, false) :=
  rfl

/-- Each sweep but the last raises a node. -/
theorem propagateUpTo_closed (bound : Nat) (g : Graph) (hg : Contained g)
    (hb : g.size * 3 < bound + total stateRank g) : Closed (propagateUpTo bound g).1 := by
  induction bound generalizing g with
  | zero =>
    have := total_le (g := g) fun n => stateRank_le (g.node n)
    omega
  | succ bound ih =>
    cases hc : g.sweepStates.2 with
    | false =>
      obtain ⟨hsame, hclosed⟩ := sweepStates_false hc
      rw [propagateUpTo_succ, hc]
      show Closed g.sweepStates.1
      rwa [hsame]
    | true =>
      have hr := sweepStates_raises g
      have hlt := sweepStates_true hg hc
      rw [propagateUpTo_succ, hc]
      refine ih _ (hr.contained hg) ?_
      rw [hr.size]
      omega

/-- **Propagation closes** the states. -/
theorem Contained.propagate_closed (hg : Contained g) : Closed g.propagate.1 :=
  propagateUpTo_closed _ g hg (by omega)

/-- **Pushing states to the end.** -/
theorem propagate_closed (hs : Settled g) : Closed g.propagate.1 := hs.contained.propagate_closed

/-- In a closed graph there is nothing left to push. -/
theorem Closed.propagate (h : Closed g) : g.propagate = (g, false) := by
  have hsweep : g.sweepStates = (g, false) := by
    refine List.foldlRecOn (motive := fun acc => acc = (g, false)) _ _ rfl ?_
    rintro _ rfl n -
    cases hm : (g.node n).merged with
    | true => exact pushState_of_merged hm
    | false =>
      rw [pushState_of_live hm]
      refine List.foldlRecOn (motive := fun acc => acc = (g, false)) _ _ rfl ?_
      rintro _ rfl m hsucc
      have hle := h n hm m hsucc
      have hlt : decide ((g.node m).state < (g.node n).state) = false :=
        decide_eq_false (Nat.not_lt.mpr hle)
      rw [raiseTo, modify_raise_of_le hle, hlt, Bool.or_false]
  rw [Graph.propagate, propagateUpTo_succ, hsweep]
  rfl

end Escape.Graph
