import Escape.Proofs.Graph.Runs

/-!
# Contents can be redirected

A node that is said to have a content without an edge of its own got it from a node that it defers
to. Following defer edges therefore leads to a node with an edge, and that edge is all there is to
redirect when the content changes.

- `Steady.reaches_edge`: from a node with a content, defer edges lead to an edge to that content.
- `Graph.run_progress`: **so it is in every graph that edits make.**
- `Graph.cycle_without_edge`: a defer cycle that is left by a defer edge need not have an edge
  itself.
-/

namespace Escape.Graph

variable {g : Graph} {n m c : NodeId}

/-- Nodes on a path of defer edges have the same content. -/
theorem Coherent.target?_path {pend : NodeId → Prop} (h : Coherent g pend)
    (hp : ReflTransGen g.Defers n m) : g.target? m = g.target? n := by
  induction hp with
  | refl => rfl
  | tail _ hd ih => rw [← h.agree _ _ hd, ih]

/-- From a node with a content, defer edges lead to an edge to that content. -/
theorem Steady.reaches_edge (h : Steady g) (hc : g.content? n = some c) :
    ∃ e, ReflTransGen g.Defers n e ∧ g.Live e ∧ (g.node e).pointsTo = .edge c := by
  rw [h.content?_eq] at hc
  obtain ⟨e, hp, he⟩ := h.progress n (by rw [hc]; rfl)
  have hte : g.target? e = some c := (h.target?_path hp).trans hc
  refine ⟨e, hp, ⟨has_of_target? hte, h.live_of_target hte⟩, ?_⟩
  -- all nodes on the way have the content `c`, so the edge at its end leads there
  rcases target?_eq_some_iff.mp hte with hinferred | hedge
  · rw [HasEdge, hinferred] at he
    cases he
  · exact hedge

/-- A run of edits of live nodes, from a steady graph. -/
theorem Steady.run : ∀ (edits : List Edit) (g : Graph), Steady g →
    Along (fun g e => e.OnLive g ∧ e.Unspliced g) g edits → ∃ g', g.run edits = .ok g' ∧
    Steady g' := by
  intro edits
  induction edits with
  | nil => exact fun g h _ => ⟨g, rfl, h⟩
  | cons e rest ih =>
    intro g h ha
    obtain ⟨g₁, hok, hs, -⟩ := h.edit ha.1.1 ha.1.2
    obtain ⟨g', hok', hs'⟩ := ih g₁ hs (ha.2 g₁ hok)
    refine ⟨g', ?_, hs'⟩
    rw [Graph.run, List.foldlM_cons, hok]
    exact hok'

/-- **Progress.** A run of edits of live nodes, none of which splices a graph, never stops with a
fault. In the graph that it makes, defer edges lead from every node with a content to a node with an
edge to that content. So if no defer edge leads out of a set of nodes, such as a cycle, and one of
the nodes has a content, then one of them has an edge to it. -/
theorem run_progress {start : Graph} (hstart : IsStart start) {edits : List Edit}
    (h : Along (fun g e => e.OnLive g ∧ e.Unspliced g) start edits) :
    ∃ g, start.run edits = .ok g ∧
      (∀ n c, g.Live n → g.content? n = some c →
        ∃ e, ReflTransGen g.Defers n e ∧ g.Live e ∧ (g.node e).pointsTo = .edge c) ∧
      ∀ S : NodeId → Prop, (∀ n m, S n → g.Defers n m → S m) → ∀ n c, S n → g.content? n = some c →
        ∃ e, S e ∧ (g.node e).pointsTo = .edge c := by
  obtain ⟨g, hok, hs⟩ := Steady.run edits start hstart.stable.toSteady h
  refine ⟨g, hok, fun n c _ hc => hs.reaches_edge hc, fun S hS n c hn hc => ?_⟩
  obtain ⟨e, hp, -, he⟩ := hs.reaches_edge hc
  refine ⟨e, ?_, he⟩
  -- the way to the edge does not leave the set
  clear hc he
  induction hp with
  | refl => exact hn
  | tail _ hd ih => exact hS _ _ ih hd

/-- Two values that defer to each other and get an interior content, a third one with a content of
its own, and a defer edge that merges the two contents. -/
def cycleEdits : List Edit :=
  [.enter ⟨⟨0⟩, true, true⟩, .enter ⟨⟨1⟩, true, true⟩, .enter ⟨⟨2⟩, true, true⟩, .defer ⟨0⟩ ⟨1⟩,
    .defer ⟨1⟩ ⟨0⟩, .contents ⟨0⟩ [(true, false)], .contents ⟨2⟩ [(false, false), (true, true)],
    .defer ⟨2⟩ ⟨1⟩]

/-- One of the two values of the example has an edge to the merged content. -/
theorem run_progress_cycle : ∃ g, (full ⟨0⟩).run cycleEdits = .ok g ∧ g.Defers ⟨0⟩ ⟨1⟩ ∧
    g.Defers ⟨1⟩ ⟨0⟩ ∧ ∃ e, (e = ⟨0⟩ ∨ e = ⟨1⟩) ∧ (g.node e).pointsTo = .edge ⟨3⟩ := by
  have hon : Along (fun g e => e.OnLive g ∧ e.Unspliced g) (full ⟨0⟩) cycleEdits := by
    decide +kernel
  obtain ⟨g, hok, -, hclosed⟩ := run_progress (.full ⟨0⟩) hon
  have hends : ∃ g, (full ⟨0⟩).run cycleEdits = .ok g ∧ (g.node ⟨0⟩).defersTo = [⟨1⟩] ∧
      (g.node ⟨1⟩).defersTo = [⟨0⟩] ∧ g.content? ⟨0⟩ = some ⟨3⟩ := by decide +kernel
  obtain ⟨g', hok', h₀, h₁, hc⟩ := hends
  cases hok.symm.trans hok'
  refine ⟨g, hok, by rw [Defers, h₀]; exact List.mem_singleton_self _,
    by rw [Defers, h₁]; exact List.mem_singleton_self _,
    hclosed (fun n => n = ⟨0⟩ ∨ n = ⟨1⟩) ?_ ⟨0⟩ ⟨3⟩ (.inl rfl) hc⟩
  rintro n m (rfl | rfl) hd
  · rw [Defers, h₀] at hd
    exact .inr (List.mem_singleton.mp hd)
  · rw [Defers, h₁] at hd
    exact .inl (List.mem_singleton.mp hd)

/-- **A defer cycle need not have an edge itself.** Here two values defer to each other, and one of
them defers to a third value, which has the edge to their content. -/
theorem cycle_without_edge : ∃ g, (full ⟨0⟩).run
    [.enter ⟨⟨0⟩, true, true⟩, .enter ⟨⟨1⟩, true, true⟩, .enter ⟨⟨2⟩, true, true⟩,
      .contents ⟨2⟩ [(false, false)],
      .defer ⟨0⟩ ⟨2⟩, .defer ⟨1⟩ ⟨0⟩, .defer ⟨0⟩ ⟨1⟩] = .ok g ∧
    (g.node ⟨0⟩).defersTo = [⟨2⟩, ⟨1⟩] ∧ (g.node ⟨1⟩).defersTo = [⟨0⟩] ∧
    (g.node ⟨0⟩).pointsTo = .inferred ⟨3⟩ ∧ (g.node ⟨1⟩).pointsTo = .inferred ⟨3⟩ := by
  decide +kernel

end Escape.Graph
