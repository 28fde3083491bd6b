import Escape.Graph.Check
import Escape.Proofs.Graph.Coherent

/-!
# What the check of a graph means

- `Graph.checkNode_ok`, `Graph.checkWeb_ok`: what it means that a node passes the checks.
- `Graph.check_ok`: a graph passes if all its nodes do.
- `Stable.check_ok`: **a stable graph passes the check.**
-/

namespace Escape.Graph

variable {g : Graph} {n m : NodeId}

theorem ensure_ok {c : Bool} {v : Violation} : ensure c v = .ok () ↔ c = true := by
  unfold ensure
  cases c <;> simp

/-- Two checks in a row. -/
theorem andThen_ok {x y : Except Violation Unit} :
    (x >>= fun _ => y) = .ok () ↔ x = .ok () ∧ y = .ok () := by
  rw [bind_ok]
  exact ⟨fun ⟨_, hx, hy⟩ => ⟨hx, hy⟩, fun ⟨hx, hy⟩ => ⟨(), hx, hy⟩⟩

/-- A tombstone knows its merge and has nothing left. -/
theorem checkTombstone_ok : g.checkTombstone n = .ok () ↔ (g.node n).mergeTo.isSome ∧
    (g.node n).pointsTo.isSet = false ∧ (g.node n).defersTo = [] ∧ (g.node n).preds = [] ∧
    (g.node n).usePoints.isEmpty ∧ (g.node n).isContent := by
  unfold checkTombstone
  rw [andThen_ok, ensure_ok, ensure_ok]
  simp [and_assoc]

/-- Contents are live, and edges to them are entered. -/
theorem checkPointsTo_ok : g.checkPointsTo n = .ok () ↔
    (g.target? n = none → (g.node n).interior = false) ∧
    (∀ c, g.target? n = some c → (g.node c).merged = false) ∧
    ∀ c, (g.node n).pointsTo = .edge c →
      (g.node c).isContent ∧ ⟨.pointsTo, n⟩ ∈ (g.node c).preds := by
  unfold checkPointsTo target?
  cases (g.node n).pointsTo with
  | none => simp [ensure_ok, Pointee.target?]
  | inferred c => simp [ensure_ok, Pointee.target?]
  | edge c =>
    rw [andThen_ok, andThen_ok, ensure_ok, ensure_ok, ensure_ok]
    simp [Pointee.target?]

/-- Defer edges lead to other live nodes and are entered. -/
theorem checkDefer_ok {d : NodeId} : g.checkDefer n d = .ok () ↔
    d ≠ n ∧ (g.node d).merged = false ∧ ⟨.defer, n⟩ ∈ (g.node d).preds := by
  unfold checkDefer
  rw [andThen_ok, andThen_ok, ensure_ok, ensure_ok, ensure_ok]
  simp

/-- An entry stands for an edge. -/
theorem checkPred_ok {p : Pred} : g.checkPred n p = .ok () ↔
    match p.kind with
    | .pointsTo => (g.node p.node).pointsTo = .edge n
    | .defer => g.Defers p.node n := by
  unfold checkPred
  rw [ensure_ok]
  cases p.kind <;> simp [Defers]

/-- What a node has to pass depends on whether it was merged. -/
theorem checkNode_ok : g.checkNode false n = .ok () ↔
    ((g.node n).merged = true → g.checkTombstone n = .ok ()) ∧
    ((g.node n).merged = false → (g.node n).mergeTo = none ∧ g.checkPointsTo n = .ok () ∧
      (∀ d ∈ (g.node n).defersTo, g.checkDefer n d = .ok ()) ∧
      ∀ p ∈ (g.node n).preds, g.checkPred n p = .ok ()) := by
  unfold checkNode
  cases (g.node n).merged with
  | true => simp
  | false =>
    simp only [Bool.false_eq_true, if_false, false_implies, true_and, forall_const]
    rw [andThen_ok, andThen_ok, andThen_ok, ensure_ok, Checked.forM_ok, Checked.forM_ok]
    simp

/-- A web has one content, and a reason for it. -/
theorem checkWeb_ok : g.checkWeb n = .ok () ↔ ∀ c, g.target? n = some c →
    (g.HasEdge n ∨ g.webNeighbours n ≠ []) ∧
    ∀ m ∈ closure g.webNeighbours g.size n, ∀ d, g.content? m = some d →
    d = g.representative c := by
  unfold checkWeb target? HasEdge
  cases (g.node n).pointsTo.target? with
  | none => simp
  | some c =>
    rw [andThen_ok, ensure_ok, Checked.forM_ok]
    simp only [Bool.or_eq_true, Bool.not_eq_true', List.isEmpty_eq_false_iff, Option.some.injEq,
      forall_eq']
    refine and_congr_right fun _ => forall₂_congr fun m _ => ?_
    cases g.content? m with
    | none => simp
    | some d => simp [ensure_ok]

/-- A graph passes if each node passes the checks. -/
theorem check_ok (hv : g.valid = true) : g.check false = .ok () ↔
    (∀ n, g.Has n → g.checkNode false n = .ok ()) ∧
    ∀ n, g.Has n → (g.node n).merged = false → g.checkWeb n = .ok () := by
  unfold check
  simp only [hv, Bool.not_true, Bool.false_eq_true, if_false, Bool.not_false, if_true]
  rw [andThen_ok, Checked.forM_ok, Checked.forM_ok]
  simp only [mem_nodeIds, liveNodes, List.mem_filter, isLive, Bool.not_eq_true', and_imp]

/-! ### Stable graphs -/

/-- Nothing is listed at a tombstone. -/
theorem Coherent.tomb_preds {pend : NodeId → Prop} (h : Coherent g pend)
    (hn : (g.node n).merged = true) : (g.node n).preds = [] := by
  refine List.eq_nil_iff_forall_not_mem.mpr fun p hp => ?_
  have hlive : (g.node n).merged = false := by
    obtain ⟨kind, m⟩ := p
    cases kind with
    | pointsTo => exact h.target_live m n (target?_of_edge (h.linked.of_edge m n not_false hp).2)
    | defer => exact h.defers_live m n (h.linked.of_defer m n not_false hp).2
  rw [hn] at hlive
  cases hlive

/-- The nodes of a stable graph pass. -/
theorem Stable.checkNode_ok (h : Stable g) (n : NodeId) : g.checkNode false n = .ok () := by
  refine Graph.checkNode_ok.mpr ⟨fun hm => ?_, fun hm => ⟨?_, ?_, fun d hd => ?_, fun p hp => ?_⟩⟩
  · refine checkTombstone_ok.mpr ⟨h.tomb_links n hm, ?_, h.tomb_defersTo n hm, h.tomb_preds hm, ?_,
      h.tomb_content n hm⟩
    · rw [h.tomb_pointsTo n hm]
      rfl
    · rw [h.tomb_usePoints n hm]
      rfl
  · exact h.forest.representative_eq_self_iff.mp (h.representative_of_live hm not_false)
  · refine checkPointsTo_ok.mpr ⟨fun hnone => ?_, h.target_live n, fun c hc => ⟨?_, ?_⟩⟩
    · by_contra hi
      have := h.interior n hm (by simpa using hi)
      rw [hnone] at this
      cases this
    · exact h.target_content n c (target?_of_edge hc)
    · exact (h.linked.edge n c not_false hc).2
  · refine checkDefer_ok.mpr ⟨fun e => ?_, h.defers_live n d hd,
      (h.linked.defer n d not_false hd).2⟩
    subst e
    exact h.linked.irrefl d not_false hd
  · refine checkPred_ok.mpr ?_
    obtain ⟨kind, m⟩ := p
    cases kind with
    | pointsTo => exact (h.linked.of_edge m n not_false hp).2
    | defer => exact (h.linked.of_defer m n not_false hp).2

/-- The webs of a stable graph pass. -/
theorem Stable.checkWeb_ok (h : Stable g) (n : NodeId) : g.checkWeb n = .ok () := by
  refine Graph.checkWeb_ok.mpr fun c hc => ⟨?_, fun m hm d hd => ?_⟩
  · obtain ⟨e, hpath, he⟩ := h.progress n (by rw [hc]; rfl)
    rcases hpath.cases_head with rfl | ⟨b, hnb, -⟩
    · exact .inl he
    · exact .inr (List.append_ne_nil_of_left_ne_nil (List.ne_nil_of_mem hnb) _)
  · -- the content is the same all over the web
    have hweb : g.target? m = some c := by
      refine closure_induct (P := fun m => g.target? m = some c) hc (fun a b ha hb => ?_) m hm
      rw [← ha]
      rcases List.mem_append.mp hb with hb | hb
      · exact (h.agree a b hb).symm
      · exact h.agree b a (h.linked.of_defer b a not_false (mem_deferPreds.mp hb)).2
    rw [content?_eq, hweb] at hd
    cases hd
    rfl

/-- **Stable graphs pass** the checks. -/
theorem Stable.check_ok (h : Stable g) : g.check false = .ok () := by
  by_cases hv : g.valid = true
  · exact (Graph.check_ok hv).mpr ⟨fun n _ => h.checkNode_ok n, fun n _ _ => h.checkWeb_ok n⟩
  · unfold check
    rw [if_pos (by simpa using hv)]

end Escape.Graph
