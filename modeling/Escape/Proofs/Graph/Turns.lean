import Escape.Proofs.Graph.Linked
import Mathlib.Data.List.Perm.Subperm

/-!
# Another content for a web

A web is turned to another content node by node. The nodes that were turned are gone through while
more of them are listed, and the neighbours of a node are read from the graph as it is by then: the
entries of moved edges have changed their places, but who is a neighbour has not changed.

- `Turned.repointing`: **the loop ends by itself** within as many rounds as there are nodes.
- `Graph.repointing_repoint`: so turning a web is this loop, with the same outcome.
- `Graph.repoint_cases`: what was turned once the loop has ended.
-/

namespace Escape

/-- Taking off the entry of a points-to edge leaves all entries of defer edges. -/
theorem Node.mem_deferPreds_erasePred {x : Node} {n m : NodeId} :
    m ∈ (x.erasePred ⟨.pointsTo, n⟩).deferPreds ↔ m ∈ x.deferPreds := by
  rw [Graph.mem_deferPreds, Graph.mem_deferPreds, (x.erasePred_perm _).mem_iff]
  exact List.mem_erase_of_ne (by simp)

namespace Graph

variable {g g' k k' : Graph} {n m a b x : NodeId} {done : List NodeId} {i : Nat}
  {s s' : Graph × Worklist NodeId}

theorem isStale_iff : g.isStale x n = true ↔ ∃ c, g.target? n = some c ∧ c ≠ x := by
  unfold isStale target?
  cases (g.node n).pointsTo.target? with
  | none => simp
  | some c => simp

theorem has_of_isStale (h : g.isStale x n = true) : g.Has n := by
  obtain ⟨c, hc, -⟩ := isStale_iff.mp h
  exact has_of_target? hc

/-- Pointing a node elsewhere moves entries, but joins and parts no nodes. -/
theorem repointNode_neighbours (hok : repointNode x g n = .ok g') :
    b ∈ g'.neighbours a ↔ b ∈ g.neighbours a := by
  have hdefers := (repointNode_assigns hok).defersTo a
  unfold repointNode at hok
  rw [neighbours, neighbours, List.mem_append, List.mem_append, hdefers]
  refine or_congr_left ?_
  split at hok
  · rename_i old _
    obtain ⟨-, hc, rfl⟩ := setEdge_ok.mp hok
    have herase : b ∈ ((g.modify old (·.erasePred ⟨.pointsTo, n⟩)).node a).deferPreds ↔
        b ∈ (g.node a).deferPreds := by
      rw [node_modify]
      split
      · exact Node.mem_deferPreds_erasePred
      · exact Iff.rfl
    rw [← herase, mem_deferPreds, mem_deferPreds, preds_linkEdge (has_of_isContent hc)]
    split
    · simp
    · exact Iff.rfl
  · cases hok
    rw [node_modify_field Node.deferPreds]
  · cases hok
    exact Iff.rfl

/-! ### Nodes that are turned -/

/-- From `g` to `k` the nodes in `done` were turned to `x`, one after the other. The first one is
`n`, and every other one is a neighbour of one before it. -/
inductive Turns (x n : NodeId) (g : Graph) : List NodeId → Graph → Prop
  | start : Turns x n g [] g
  | turn {done : List NodeId} {k k' : Graph} {m : NodeId} : Turns x n g done k →
    (m = n ∨ ∃ a ∈ done, m ∈ g.neighbours a) → m ∉ done → k.isStale x m = true →
    repointNode x k m = .ok k' → Turns x n g (done ++ [m]) k'

namespace Turns

variable (h : Turns x n g done k)
include h

theorem nodup : done.Nodup := by
  induction h with
  | start => exact .nil
  | turn _ _ hnew _ _ ih => exact ih.append (List.nodup_singleton _) (by simpa using hnew)

theorem neighbours : b ∈ k.neighbours a ↔ b ∈ g.neighbours a := by
  induction h with
  | start => exact Iff.rfl
  | turn _ _ _ _ hok ih => exact (repointNode_neighbours hok).trans ih

/-- A turned node points to `x` in the way it pointed before. -/
theorem pointsTo (m : NodeId) : (k.node m).pointsTo =
    if m ∈ done then (g.node m).pointsTo.retarget x else (g.node m).pointsTo := by
  induction h with
  | start => simp
  | @turn done k k' a _ _ hnew _ hok ih =>
    rw [(repointNode_assigns hok).pointsTo]
    by_cases hm : m = a
    · subst hm
      rw [if_pos rfl, ih, if_neg hnew, if_pos (by simp)]
    · rw [if_neg hm, ih]
      simp [hm]

/-- What was not turned yet points where it pointed before. -/
theorem isStale (hm : m ∉ done) : k.isStale x m = g.isStale x m := by
  rw [Graph.isStale, h.pointsTo, if_neg hm, Graph.isStale]

theorem stale : ∀ m ∈ done, g.isStale x m = true := by
  induction h with
  | start => simp
  | turn h _ hnew hstale _ ih =>
    rw [h.isStale hnew] at hstale
    intro m hm
    rcases List.mem_append.mp hm with hm | hm
    · exact ih m hm
    · exact List.mem_singleton.mp hm ▸ hstale

/-- No node is turned twice, so that no more are turned than there are. -/
theorem length_le : done.length ≤ g.size := by
  rw [← length_nodeIds]
  exact (h.nodup.subperm fun m hm => mem_nodeIds.mpr (has_of_isStale (h.stale m hm))).length_le

end Turns

/-! ### The loop -/

/-- A state of the loop: the nodes listed are those that were turned. -/
structure Turned (x n : NodeId) (g : Graph) (s : Graph × Worklist NodeId) : Prop where
  turns : Turns x n g s.2.items.toList s.1
  visited : ∀ a, s.2.contains a = true ↔ a ∈ s.2.items.toList

namespace Turned

theorem start : Turned x n g (g, {}) := ⟨.start, by simp [Worklist.contains]⟩

/-- A node is turned unless it was turned before or points to `x` already. -/
theorem turn (h : Turned x n g s) (hm : m = n ∨ ∃ a ∈ s.2.items.toList, m ∈ g.neighbours a)
    (hok : turn x s m = .ok s') : Turned x n g s' ∧ s.2.items.toList <+: s'.2.items.toList ∧
      (g.isStale x m = true → m ∈ s'.2.items.toList) := by
  unfold Graph.turn at hok
  split at hok
  · rename_i hskip
    cases hok
    refine ⟨h, List.prefix_rfl, fun hstale => ?_⟩
    by_contra hnew
    rw [← h.turns.isStale hnew] at hstale
    simp [hstale, h.visited, hnew] at hskip
  · rename_i hgo
    obtain ⟨k, hk, hok⟩ := bind_ok.mp hok
    cases hok
    simp only [Bool.or_eq_true, Bool.not_eq_true', not_or, Bool.not_eq_true,
      Bool.not_eq_false] at hgo
    have hnew : m ∉ s.2.items.toList := fun hin => by
      rw [(h.visited m).mpr hin] at hgo
      cases hgo.1
    have hitems : (s.2.push m).items.toList = s.2.items.toList ++ [m] := by
      simp [Worklist.push, hgo.1]
    refine ⟨⟨?_, fun a => ?_⟩, ?_, fun _ => ?_⟩
    · rw [hitems]
      exact h.turns.turn hm hnew hgo.2 hk
    · rw [hitems, Worklist.contains_push, Bool.or_eq_true, decide_eq_true_iff, h.visited]
      simp [or_comm]
    · rw [hitems]
      exact List.prefix_append _ _
    · rw [hitems]
      simp

/-- One round turns all neighbours of a turned node that point elsewhere. -/
theorem turnNeighbours (h : Turned x n g s) (ha : a ∈ s.2.items.toList)
    (hok : turnNeighbours x s a = .ok s') : Turned x n g s' ∧
      s.2.items.toList <+: s'.2.items.toList ∧
      ∀ b ∈ g.neighbours a, g.isStale x b = true → b ∈ s'.2.items.toList := by
  have hlist : ∀ b, b ∈ s.1.neighbours a ↔ b ∈ g.neighbours a := fun b => h.turns.neighbours
  suffices hround : Turned x n g s' ∧ s.2.items.toList <+: s'.2.items.toList ∧
      ∀ b ∈ s.1.neighbours a, g.isStale x b = true → b ∈ s'.2.items.toList from
    ⟨hround.1, hround.2.1, fun b hb => hround.2.2 b ((hlist b).mpr hb)⟩
  refine foldlM_of_ok (P := fun seen s' => Turned x n g s' ∧
    s.2.items.toList <+: s'.2.items.toList ∧
    ∀ b ∈ seen, g.isStale x b = true → b ∈ s'.2.items.toList) ?_ ⟨h, List.prefix_rfl, by simp⟩ hok
  rintro seen b rest s₁ s₂ hsplit ⟨h₁, hgrows, hseen⟩ hstep
  have hb : b ∈ g.neighbours a := (hlist b).mp (by rw [hsplit]; simp)
  obtain ⟨h₂, hgrows', hnew⟩ := h₁.turn (.inr ⟨a, hgrows.subset ha, hb⟩) hstep
  refine ⟨h₂, hgrows.trans hgrows', fun c hc hstale => ?_⟩
  rcases List.mem_append.mp hc with hc | hc
  · exact hgrows'.subset (hseen c hc hstale)
  · cases List.mem_singleton.mp hc
    exact hnew hstale

end Turned

/-- Goes through the turned nodes from position `i` on, until there are no more. -/
inductive Repointing (x : NodeId) : Nat → Graph × Worklist NodeId → Checked Graph → Prop
  | done {i : Nat} {s : Graph × Worklist NodeId} : s.2.items[i]? = none →
    Repointing x i s (.ok s.1)
  | fault {i : Nat} {s : Graph × Worklist NodeId} {n : NodeId} {e : Fault} :
    s.2.items[i]? = some n → turnNeighbours x s n = .error e → Repointing x i s (.error e)
  | step {i : Nat} {s s' : Graph × Worklist NodeId} {n : NodeId} {r : Checked Graph} :
    s.2.items[i]? = some n → turnNeighbours x s n = .ok s' → Repointing x (i + 1) s' r →
    Repointing x i s r

/-- **The loop ends by itself**, after at most as many rounds as there are nodes. -/
theorem Turned.repointing (bound : Nat) {i : Nat} {s : Graph × Worklist NodeId}
    (h : Turned x n g s) (hb : g.size ≤ i + bound) : Repointing x i s (turnWeb x bound i s) := by
  induction bound generalizing i s with
  | zero =>
    refine .done (Array.getElem?_eq_none ?_)
    have := h.turns.length_le
    rw [Array.length_toList] at this
    omega
  | succ bound ih =>
    unfold turnWeb
    cases ha : s.2.items[i]? with
    | none => exact .done ha
    | some a =>
      dsimp only
      cases hround : Graph.turnNeighbours x s a with
      | error e => exact .fault ha hround
      | ok s' =>
        have hmem : a ∈ s.2.items.toList := Array.mem_toList_iff.mpr (Array.mem_of_getElem? ha)
        exact .step ha hround (ih (h.turnNeighbours hmem hround).1 (by omega))

/-- Once the loop has ended, the neighbours of turned nodes that pointed elsewhere were turned. -/
theorem Repointing.closed {r : Checked Graph} (hloop : Repointing x i s r) (hr : r = .ok g')
    (h : Turned x n g s) (hseen : ∀ j < i, ∀ a, s.2.items[j]? = some a → ∀ b ∈ g.neighbours a,
      g.isStale x b = true → b ∈ s.2.items.toList) :
    ∃ done, Turns x n g done g' ∧ s.2.items.toList <+: done ∧
      ∀ a ∈ done, ∀ b ∈ g.neighbours a, g.isStale x b = true → b ∈ done := by
  -- The invariant `hseen` is about the nodes in front of position `i`.
  induction hloop with
  | @done i s hend =>
    cases hr
    refine ⟨_, h.turns, List.prefix_rfl, fun a ha => ?_⟩
    obtain ⟨j, hj, rfl⟩ := List.getElem_of_mem ha
    rw [Array.getElem?_eq_none_iff] at hend
    rw [Array.length_toList] at hj
    exact hseen j (by omega) _ (by simp [hj])
  | fault => cases hr
  | @step i s s' a r ha hround _ ih =>
    have hmem : a ∈ s.2.items.toList := Array.mem_toList_iff.mpr (Array.mem_of_getElem? ha)
    obtain ⟨h', ⟨new, hnew⟩, hall⟩ := h.turnNeighbours hmem hround
    have hsofar : ∀ j < i + 1, ∀ c, s'.2.items[j]? = some c → ∀ b ∈ g.neighbours c,
        g.isStale x b = true → b ∈ s'.2.items.toList := by
      intro j hj c hc b hb hstale
      have hi : i < s.2.items.size := (Array.getElem?_eq_some_iff.mp ha).1
      have hold : s.2.items[j]? = some c := by
        rwa [← Array.getElem?_toList, ← hnew, List.getElem?_append_left (by simp; omega),
          Array.getElem?_toList] at hc
      rcases Nat.lt_succ_iff_lt_or_eq.mp hj with hj | rfl
      · exact hnew ▸ List.mem_append_left _ (hseen j hj c hold b hb hstale)
      · cases ha.symm.trans hold
        exact hall b hb hstale
    obtain ⟨done, hdone, hgrows, hclosed⟩ := ih hr h' hsofar
    exact ⟨done, hdone, (List.prefix_append _ _).trans (hnew ▸ hgrows), hclosed⟩

/-- A web is turned by the loop without a bound, once its first node was turned. -/
theorem repointing_repoint {c old : NodeId} (hrep : g.representative c = x)
    (hold : g.target? n = some old) (hne : old ≠ x) :
    (∃ e, turn x (g, {}) n = .error e ∧ g.repoint n c = .error e) ∨
      ∃ s, turn x (g, {}) n = .ok s ∧ Repointing x 0 s (g.repoint n c) := by
  have heq : g.repoint n c = (do turnWeb x g.size 0 (← turn x (g, {}) n)) := by
    unfold repoint
    simp only [hrep]
    rw [show (g.node n).pointsTo.target? = some old from hold]
    exact if_neg hne
  rw [heq]
  cases hs : turn x (g, {}) n with
  | error e => exact .inl ⟨e, rfl, rfl⟩
  | ok s =>
    obtain ⟨hstart, -⟩ := Turned.start.turn (.inl rfl) hs
    exact .inr ⟨s, rfl, hstart.repointing g.size (Nat.le_of_eq (Nat.zero_add _).symm)⟩

/-- **What `repoint` turns**: nothing, if the node points to `x` already. Otherwise the node, and
all neighbours of turned nodes that point elsewhere. -/
theorem repoint_cases {c : NodeId} (hrep : g.representative c = x) (hok : g.repoint n c = .ok g') :
    g.isStale x n = false ∧ g' = g ∨ ∃ done, n ∈ done ∧ Turns x n g done g' ∧
      ∀ a ∈ done, ∀ b ∈ g.neighbours a, g.isStale x b = true → b ∈ done := by
  by_cases hstale : g.isStale x n = true
  · obtain ⟨old, hold, hne⟩ := isStale_iff.mp hstale
    rcases repointing_repoint hrep hold hne with ⟨e, -, hfault⟩ | ⟨s, hs, hloop⟩
    · cases hfault.symm.trans hok
    · obtain ⟨hstart, -, hn⟩ := Turned.start.turn (.inl rfl) hs
      obtain ⟨done, hdone, hgrows, hclosed⟩ := hloop.closed hok hstart
        fun j hj => absurd hj (Nat.not_lt_zero j)
      exact .inr ⟨done, hgrows.subset (hn hstale), hdone, hclosed⟩
  · refine .inl ⟨Bool.eq_false_iff.mpr hstale, ?_⟩
    unfold repoint at hok
    simp only [hrep] at hok
    split at hok
    · cases hok
    · rename_i old hold
      rw [if_pos (by_contra fun hne => hstale (isStale_iff.mpr ⟨old, hold, hne⟩))] at hok
      exact (Except.ok.inj hok).symm

theorem turn_total (hm : (g.node x).mergeTo = none) (hc : (g.node x).isContent)
    (hr : Rewires g s.1) (a : NodeId) : ∃ s', turn x s a = .ok s' ∧ Rewires g s'.1 := by
  unfold turn
  split
  · exact ⟨s, rfl, hr⟩
  · obtain ⟨k, hk⟩ := repointNode_total (n := a) ((hr.mergeTo x).trans hm)
      ((hr.isContent x).trans hc)
    exact ⟨(k, s.2.push a), by rw [hk]; rfl, hr.trans (repointNode_assigns hk).toRewires⟩

/-- Turning a web does not fail if the new content is one and has not been merged. -/
theorem turnWeb_total (hm : (g.node x).mergeTo = none) (hc : (g.node x).isContent) :
    ∀ (bound i : Nat) (s : Graph × Worklist NodeId), Rewires g s.1 →
      ∃ g', turnWeb x bound i s = .ok g' := by
  intro bound
  induction bound with
  | zero => exact fun _ s _ => ⟨s.1, rfl⟩
  | succ bound ih =>
    intro i s hr
    unfold turnWeb
    split
    · exact ⟨s.1, rfl⟩
    · rename_i a _
      obtain ⟨s', hs', hr'⟩ := foldlM_total (P := fun _ s => Rewires g s.1) (f := turn x)
        (l := s.1.neighbours a) (fun _ b _ s _ hr => turn_total hm hc hr b) hr
      rw [show turnNeighbours x s a = .ok s' from hs', ok_bind]
      exact ih (i + 1) s' hr'

/-- Pointing a web elsewhere does not fail if it points anywhere, and the content is one and has not
been merged. -/
theorem repoint_total {c : NodeId} (hset : (g.target? n).isSome)
    (hrep : g.representative c = x) (hm : (g.node x).mergeTo = none)
    (hc : (g.node x).isContent) : ∃ g', g.repoint n c = .ok g' := by
  obtain ⟨old, hold⟩ := Option.isSome_iff_exists.mp hset
  unfold repoint
  simp only [hrep]
  rw [show (g.node n).pointsTo.target? = some old from hold]
  dsimp only
  split
  · exact ⟨g, rfl⟩
  · obtain ⟨s, hs, hr⟩ := turn_total (s := (g, {})) hm hc (.refl g) n
    rw [hs, ok_bind]
    exact turnWeb_total hm hc g.size 0 s hr

end Graph

end Escape
