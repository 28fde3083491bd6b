import Escape.Proofs.Graph.Extends

/-!
# Raising states

Raising the state of a node, and pushing states along the edges, changes nothing but states, and no
state falls.

- `Graph.propagate_raises`: pushing states along all edges is one.
-/

namespace Escape.Graph

variable {g g' g'' : Graph} {n m : NodeId} {s : EscapeState} {pend : NodeId → Prop}

/-- From `g` to `g'` states grow, and nothing else changes. -/
structure Raises (g g' : Graph) : Prop where
  rest : g' = { g with nodes := g'.nodes }
  size : g'.size = g.size
  same : ∀ n, { g'.node n with state := .noEscape } = { g.node n with state := .noEscape }
  state : ∀ n, (g.node n).state ≤ (g'.node n).state

namespace Raises

theorem refl (g : Graph) : Raises g g :=
  ⟨rfl, rfl, fun _ => rfl, fun _ => EscapeState.le_refl _⟩

variable (h : Raises g g')
include h

/-- States may rise in several steps. -/
theorem trans (h' : Raises g' g'') : Raises g g'' where
  rest := by rw [h'.rest, h.rest]
  size := h'.size.trans h.size
  same n := (h'.same n).trans (h.same n)
  state n := EscapeState.le_trans (h.state n) (h'.state n)

/-- What does not depend on the state of a node stays. -/
theorem field {α : Type} (p : Node → α)
    (hp : ∀ x : Node, p { x with state := .noEscape } = p x := by intros; rfl) (n : NodeId) :
    p (g'.node n) = p (g.node n) := by
  rw [← hp, h.same, hp]

/-- States are no edges. -/
theorem sameEdges : SameEdges g g' :=
  .of_links h.size (h.field Node.links)

theorem pending : g'.pending = g.pending := by rw [h.rest]

theorem values : g'.values = g.values := by rw [h.rest]

theorem header : g'.header = g.header := by rw [h.rest]; rfl

theorem returnNode : g'.returnNode = g.returnNode := by rw [h.rest]

theorem valid : g'.valid = g.valid := by rw [h.rest]

/-- The shape of a graph says nothing of states. -/
theorem shape (hs : Shape g pend) : Shape g' pend :=
  hs.congr h.size (h.field Node.frame) h.values h.returnNode

/-- Nothing is lost when states rise. -/
theorem toExtends : Extends g g' :=
  .of_sameEdges h.sameEdges (fun n _ => h.state n)
    (fun v n hv => ⟨n, by rw [h.values]; exact hv, rfl⟩)
    (fun n v _ hv => by rw [h.field Node.value]; exact hv) h.returnNode h.header

end Raises

/-- One state is joined with another. -/
theorem modify_raises (g : Graph) (n : NodeId) (s : EscapeState) :
    Raises g (g.modify n (·.raise s)) where
  rest := rfl
  size := size_modify g n _
  same m := node_modify_field (fun x => { x with state := .noEscape }) ..
  state m := by
    rw [node_modify]
    split
    · exact EscapeState.le_join_left _ _
    · exact EscapeState.le_refl _

theorem raise_raises (g : Graph) (n : NodeId) (s : EscapeState) : Raises g (g.raise n s).1 :=
  modify_raises g _ s

/-- Raising a node that is high enough already changes nothing. -/
theorem modify_raise_of_le (h : s ≤ (g.node n).state) : g.modify n (·.raise s) = g := by
  refine modify_eq_self ?_
  rw [Node.raise, EscapeState.join_eq_left_iff.mpr h]

/-- A state is pushed on to the successors of a node. -/
theorem pushState_raises (acc : Graph × Bool) (n : NodeId) : Raises acc.1 (pushState acc n).1 := by
  unfold pushState
  dsimp only
  split
  · exact .refl _
  · exact List.foldlRecOn (motive := fun a : Graph × Bool => Raises acc.1 a.1) _ _ (.refl _)
      fun a ha k _ => ha.trans (modify_raises a.1 k _)

/-- All states are pushed on once. -/
theorem sweepStates_raises (g : Graph) : Raises g g.sweepStates.1 :=
  List.foldlRecOn (motive := fun a : Graph × Bool => Raises g a.1) _ _ (.refl g)
    fun a ha n _ => ha.trans (pushState_raises a n)

/-- What pushing the state of a node keeps is kept by all sweeps. -/
theorem propagateUpTo_induct {P : Graph → Prop}
    (step : ∀ (acc : Graph × Bool) (n : NodeId), P acc.1 → P (pushState acc n).1) :
    ∀ (bound : Nat) {g : Graph}, P g → P (propagateUpTo bound g).1
  | 0, _, h => h
  | bound + 1, g, h => by
    have hsweep : P g.sweepStates.1 :=
      List.foldlRecOn (motive := fun acc : Graph × Bool => P acc.1) _ _ h
        fun acc hacc n _ => step acc n hacc
    unfold propagateUpTo
    dsimp only
    split
    · exact propagateUpTo_induct step bound hsweep
    · exact hsweep

theorem propagateUpTo_raises (bound : Nat) (g : Graph) : Raises g (propagateUpTo bound g).1 :=
  propagateUpTo_induct (P := Raises g)
    (fun acc n h => h.trans (pushState_raises acc n)) bound (.refl g)

/-- Pushing states along all edges changes nothing but states. -/
theorem propagate_raises (g : Graph) : Raises g g.propagate.1 := propagateUpTo_raises _ g

end Escape.Graph
