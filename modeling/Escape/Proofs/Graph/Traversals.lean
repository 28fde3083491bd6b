import Escape.Proofs.Graph.Closed
import Escape.Proofs.Graph.Monotone
import Escape.Proofs.Graph.WellFormed

/-!
# Traversals are exact

All searches of a graph walk through a frontier that grows while they go on, in graphs whose edges
form cycles. What they find is what can be reached. Walks along defer edges judge what they come to,
and judge it once; against the edges they go by the entries of edges at their targets.

- `Graph.mem_reach_iff`: the search along all edges.
- `Graph.walk_covers`: a walk that stays in the table.
- `Graph.traversals_exact`: **searches and walks find exactly what is reachable.**
-/

namespace Escape.Graph

variable {g : Graph} {n m s : NodeId}

/-- A points-to edge or a defer edge leads from `n` to `m`. -/
def Edge (g : Graph) (n m : NodeId) : Prop := g.content? n = some m ∨ g.Defers n m

theorem mem_successors : m ∈ g.successors n ↔ g.Edge n m := by
  rw [successors, List.mem_append, Option.mem_toList]
  exact Iff.rfl

/-- What can be reached by steps within the table is the starting point, or in the table. -/
theorem reachable_mem {next : NodeId → List NodeId} (hnext : ∀ n, ∀ m ∈ next n, g.Has m)
    (h : ReflTransGen (fun n m => m ∈ next n) s m) : m ∈ s :: g.nodeIds := by
  rcases h.cases_tail with rfl | ⟨k, -, hm⟩
  · exact List.mem_cons_self
  · exact List.mem_cons_of_mem _ (mem_nodeIds.mpr (hnext k m hm))

theorem length_cons_nodeIds (g : Graph) (s : NodeId) : (s :: g.nodeIds).length ≤ g.size + 1 := by
  rw [List.length_cons, length_nodeIds]

/-- The search along all edges finds what is reachable along them. -/
theorem mem_reach_iff (h : Contained g) :
    m ∈ g.reach n ↔ ReflTransGen g.Edge (g.representative n) m := by
  rw [reach, mem_closure_iff_of_le (fun b => reachable_mem h) (g.length_cons_nodeIds _)]
  simp only [mem_successors]

/-- Where defer edges lead to nodes that represent themselves, nothing is gone on to but successors.
-/
theorem heirs_eq_successors (h : ∀ n d, g.Defers n d → g.representative d = d) :
    g.heirs = g.successors := by
  funext n
  rw [heirs, successors, List.map_congr_left (h n), List.map_id']

/-- A walk that follows everything and stays in the table covers what is reachable. -/
theorem walk_covers {next : NodeId → List NodeId} (hnext : ∀ n, ∀ m ∈ next n, g.Has m)
    (s : NodeId) : (Walk.start next (fun _ => .follow) g.size s).Covers s
    (ReflTransGen (fun n m => m ∈ next n) s) :=
  Walk.start_covers (fun _ => reachable_mem hnext) (g.length_cons_nodeIds s)

theorem walkForward_covers (h : Contained g) (s : NodeId) :
    (g.walkForward (fun _ => .follow) s).Covers s (ReflTransGen g.Defers s) :=
  walk_covers (fun _ _ hm => h _ _ (mem_successors.mpr (.inr hm))) s

/-- Where edges are listed at their targets, walking by the entries is walking against the edges. -/
theorem walkBackward_covers (hlisted : ∀ n d, g.Defers n d ↔ ⟨.defer, n⟩ ∈ (g.node d).preds)
    (s : NodeId) : (g.walkBackward (fun _ => .follow) s).Covers s fun m =>
    ReflTransGen g.Defers m s := by
  have hback : ∀ n m, m ∈ (g.node n).deferPreds ↔ g.Defers m n :=
    fun n m => mem_deferPreds.trans (hlisted m n).symm
  have hcovers : (g.walkBackward (fun _ => .follow) s).Covers s
      (ReflTransGen (fun n m => m ∈ (g.node n).deferPreds) s) :=
    walk_covers (fun n m hm => ((hback n m).mp hm).has) s
  simp only [hback] at hcovers
  refine ⟨hcovers.going, hcovers.once, fun m => (hcovers.judged m).trans
    (and_congr_right fun _ => ?_)⟩
  exact Relation.reflTransGen_swap

/-- **Searches and walks find exactly what is reachable.** In a graph that passes its check, one
node is found to be reachable from another exactly if edges lead from what represents the one to
what represents the other, and a node is found to reach one that escapes globally exactly if edges
lead there. Walks that follow everything are not given up, and judge each node once that defer edges
lead to, or come from, and no other node. A graph that was given up passes the check whatever it
holds, so there edges have to be listed at their targets, and lead to nodes that represent
themselves where the search for what escapes resolves them. -/
theorem traversals_exact (hcheck : g.check false = .ok ()) (htable : Contained g)
    (hgiven : g.valid = false → ∀ n d, g.Defers n d ↔ ⟨.defer, n⟩ ∈ (g.node d).preds) :
    (∀ a b, g.isReachable a b = true ↔ ReflTransGen g.Edge (g.representative a)
      (g.representative b)) ∧
      ((g.valid = false → ∀ n d, g.Defers n d → g.representative d = d) → ∀ a,
        g.reachesGlobal a = true ↔
        ∃ m, ReflTransGen g.Edge (g.representative a) m ∧ (g.node m).state = .globalEscaping) ∧
      (∀ s, (g.walkForward (fun _ => .follow) s).Covers s (ReflTransGen g.Defers s)) ∧
      ∀ s, (g.walkBackward (fun _ => .follow) s).Covers s fun m => ReflTransGen g.Defers m s := by
  have hlisted : ∀ n d, g.Defers n d ↔ ⟨.defer, n⟩ ∈ (g.node d).preds := by
    cases hv : g.valid with
    | false => exact hgiven hv
    | true => exact (wellFormed_of_check hv hcheck).defer_listed
  refine ⟨fun a b => ?_, fun hself a => ?_, walkForward_covers htable, walkBackward_covers hlisted⟩
  · rw [isReachable, decide_eq_true_iff, mem_reach_iff htable]
  · have hroots : ∀ n d, g.Defers n d → g.representative d = d := by
      cases hv : g.valid with
      | false => exact hself hv
      | true =>
        have hw := wellFormed_of_check hv hcheck
        exact fun n d hd => representative_of_root (hw.unscheduled d (hw.defer_live n d hd))
    simp only [reachesGlobal, heirs_eq_successors hroots, List.any_eq_true, decide_eq_true_iff]
    exact exists_congr fun m => and_congr_left fun _ => mem_reach_iff htable

/-- Three values that defer to each other in a circle. The first two have contents of their own when
the circle is begun, so that one of these is merged into the other. The returned value defers to the
circle, and the memory within the object escapes. -/
def circleEdits : List Edit :=
  [.enter ⟨⟨0⟩, true, true⟩, .enter ⟨⟨1⟩, false, true⟩, .enter ⟨⟨2⟩, false, true⟩,
    .contents ⟨0⟩ [(true, false), (false, true)], .contents ⟨1⟩ [(false, false)], .defer ⟨0⟩ ⟨1⟩,
    .defer ⟨1⟩ ⟨2⟩, .defer ⟨2⟩ ⟨0⟩, .enterReturn, .defer ⟨6⟩ ⟨1⟩, .raise ⟨4⟩ .globalEscaping]

/-- From the returned value edges lead to the content that was merged, and on to what escapes, but
from neither of them back to the circle. -/
theorem traversals_exact_circle : ∃ g, (full ⟨0⟩).run circleEdits = .ok g ∧ g.isLive ⟨3⟩ = false ∧
    ReflTransGen g.Edge ⟨6⟩ (g.representative ⟨3⟩) ∧
    ¬ ReflTransGen g.Edge (g.representative ⟨3⟩) ⟨0⟩ ∧
    (∃ m, ReflTransGen g.Edge ⟨6⟩ m ∧ (g.node m).state = .globalEscaping) ∧
    (g.walkForward (fun _ => .follow) ⟨6⟩).trail = #[⟨1⟩, ⟨2⟩, ⟨0⟩] ∧
    ReflTransGen g.Defers ⟨6⟩ ⟨0⟩ ∧ (g.walkBackward (fun _ => .follow) ⟨0⟩).trail =
    #[⟨2⟩, ⟨1⟩, ⟨6⟩] ∧ ¬ ReflTransGen g.Defers ⟨0⟩ ⟨6⟩ := by
  have hrun : ∃ g, (full ⟨0⟩).run circleEdits = .ok g ∧ g.valid = true ∧ g.check false = .ok () ∧
      g.isLive ⟨3⟩ = false ∧ g.representative ⟨0⟩ = ⟨0⟩ ∧ g.representative ⟨6⟩ = ⟨6⟩ ∧
      g.isReachable ⟨6⟩ ⟨3⟩ = true ∧ g.isReachable ⟨3⟩ ⟨0⟩ = false ∧ g.reachesGlobal ⟨6⟩ = true ∧
      (g.walkForward (fun _ => .follow) ⟨0⟩).trail = #[⟨1⟩, ⟨2⟩] ∧
      (g.walkForward (fun _ => .follow) ⟨6⟩).trail = #[⟨1⟩, ⟨2⟩, ⟨0⟩] ∧
      (g.walkBackward (fun _ => .follow) ⟨0⟩).trail = #[⟨2⟩, ⟨1⟩, ⟨6⟩] := by
    decide +kernel
  have halong : Along (fun g e => e.OnLive g ∧ e.Plain g) (full ⟨0⟩) circleEdits := by
    decide +kernel
  obtain ⟨g, hg, hv, hcheck, hdead, hzero, hsix, hto, hfrom, hglobal, hcircle, hforward,
    hbackward⟩ := hrun
  have hs : Settled g := (Settled.run (Q := fun _ => True) _ _ ⟨(IsStart.full ⟨0⟩).stable.toShape,
    (IsStart.full ⟨0⟩).stable.settled⟩ (halong.mono fun _ _ h => ⟨h.1, trivial⟩) hg).1
  have hvalid : ∀ {P : Prop}, g.valid = false → P := fun h => by rw [hv] at h; cases h
  obtain ⟨hreach, hescape, hwalk, -⟩ := traversals_exact hcheck hs.contained hvalid
  refine ⟨g, hg, hdead, ?_, ?_, ?_, hforward, ?_, hbackward, ?_⟩
  · exact hsix ▸ (hreach ⟨6⟩ ⟨3⟩).mp hto
  · rw [← hzero, ← hreach ⟨3⟩ ⟨0⟩, hfrom]
    exact Bool.false_ne_true
  · exact hsix ▸ (hescape hvalid ⟨6⟩).mp hglobal
  · exact (((hwalk ⟨6⟩).judged ⟨0⟩).mp (by simp [hforward])).2
  · intro h
    have hmem := ((hwalk ⟨0⟩).judged ⟨6⟩).mpr ⟨by decide, h⟩
    simp [hcircle] at hmem

end Escape.Graph
