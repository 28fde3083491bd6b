import Escape.Proofs.Graph.Reports
import Escape.Proofs.Graph.Rooted

/-!
# What becomes of nodes

Merges let a node be represented by others, step after step. What a node was lives on in the node
that represents it, and whatever the later node is comes from one that it represents. Little is
asked of the graph: its edges and entries may contradict each other, and the links of old tombstones
may lead in circles.

- `Grounded.settle`, `Grounded.deferTracked`: merges and defer edges are of this kind.
-/

namespace Escape.Graph

variable {g g' g'' : Graph} {n m c s d src dst : NodeId} {T R : NodeId → Prop}
  {queue queue' : List NodeId}

/-! ### Graphs with the same links -/

/-- From `g` to `g'` nodes are added, and no merges are scheduled or carried out. -/
structure SameLinks (g g' : Graph) : Prop where
  size_le : g.size ≤ g'.size
  mergeTo : ∀ n, (g'.node n).mergeTo = (g.node n).mergeTo
  merged : ∀ n, (g'.node n).merged = (g.node n).merged

theorem SameLinks.of_nodes (h : g'.nodes = g.nodes) : SameLinks g g' := by
  have hnode : ∀ n, g'.node n = g.node n := fun n => by rw [node, h, ← node]
  exact ⟨Nat.le_of_eq (by rw [size, size, h]), fun n => by rw [hnode], fun n => by rw [hnode]⟩

theorem SameEdges.sameLinks (h : SameEdges g g') : SameLinks g g' :=
  ⟨h.size_le, h.mergeTo, h.merged⟩

theorem Rewires.sameLinks (h : Rewires g g') : SameLinks g g' :=
  ⟨Nat.le_of_eq h.size.symm, h.mergeTo, h.merged⟩

namespace SameLinks

variable (h : SameLinks g g')
include h

theorem rooted (hn : g.Rooted n) : g'.Rooted n := (hn.congr h.size_le h.mergeTo).1

theorem representative (hn : g.Rooted n) : g'.representative n = g.representative n :=
  (hn.congr h.size_le h.mergeTo).2

theorem live (hn : g.Live n) : g'.Live n :=
  ⟨Nat.lt_of_lt_of_le hn.1 h.size_le, (h.merged n).trans hn.2⟩

/-- A node that is new is not linked to others. -/
theorem rooted_new (hn : g'.Has n) (hnew : ¬ g.Has n) : g'.Rooted n :=
  .of_root hn (by rw [h.mergeTo, node_of_not_has hnew])

end SameLinks

/-! ### Pending merges -/

/-- Merge links come to an end from live nodes and from what is pointed to, and the nodes in `queue`
are those that wait to be merged. -/
structure Grounded (g : Graph) (queue : List NodeId) : Prop where
  points : PointsInto g.Rooted g
  live : ∀ n, g.Live n → g.Rooted n
  tomb : ∀ n, (g.node n).merged = true → (g.node n).mergeTo.isSome
  nodup : queue.Nodup
  waits : ∀ n, n ∈ queue ↔ (g.node n).merged = false ∧ (g.node n).mergeTo.isSome

namespace Grounded

variable (h : Grounded g queue)
include h

theorem firm : Firm g.Rooted g :=
  ⟨⟨h.points, fun _ hc => hc.representative⟩, fun _ hc => hc⟩

/-- A node without a link is no tombstone. -/
theorem not_merged (hn : (g.node n).mergeTo = none) : (g.node n).merged = false := by
  by_contra hm
  have hsome := h.tomb n (by simpa using hm)
  rw [hn] at hsome
  cases hsome

/-- What represents a node is live. -/
theorem live_representative (hn : g.Rooted n) : g.Live (g.representative n) :=
  ⟨hn.has_representative, h.not_merged hn.mergeTo_representative⟩

theorem rooted_of_waits (hn : n ∈ queue) : g.Rooted n := by
  have hw := (h.waits n).mp hn
  refine h.live n ⟨has_of_node_ne fun e => ?_, hw.1⟩
  rw [e] at hw
  cases hw.2

omit h in
/-- If nothing waits the live nodes represent themselves. -/
theorem representative_of_live (h : Grounded g []) (hn : g.Live n) : g.representative n = n := by
  refine representative_of_root ?_
  by_contra hm
  exact List.not_mem_nil ((h.waits n).mpr ⟨hn.2, Option.isSome_iff_ne_none.mpr hm⟩)

theorem sameLinks (hl : SameLinks g g') (hp : PointsInto g'.Rooted g') : Grounded g' queue where
  points := hp
  live n hn := by
    by_cases hold : g.Has n
    · exact hl.rooted (h.live n ⟨hold, (hl.merged n).symm.trans hn.2⟩)
    · exact hl.rooted_new hn.1 hold
  tomb n := by
    rw [hl.merged, hl.mergeTo]
    exact h.tomb n
  nodup := h.nodup
  waits n := by
    rw [hl.merged, hl.mergeTo]
    exact h.waits n

/-- No edge is touched. -/
theorem sameEdges (he : SameEdges g g') : Grounded g' queue :=
  h.sameLinks he.sameLinks fun n c hc => he.sameLinks.rooted
    (h.points n c (by rwa [target?, he.pointsTo] at hc))

end Grounded

theorem Enqueues.isSome (h : Enqueues T g g') (hn : (g.node n).mergeTo.isSome) :
    (g'.node n).mergeTo.isSome := by
  rcases h with ⟨hm, -⟩ | ⟨s, d, -, -, hl, -⟩
  · rwa [hm]
  · rw [hl.mergeTo]
    split
    · rfl
    · exact hn

/-! ### Nodes that come together -/

/-- From `g` to `g'` nodes are added and merged, and none are taken apart. -/
structure Coarsens (g g' : Graph) : Prop where
  size_le : g.size ≤ g'.size
  rooted : ∀ n, g.Rooted n → g'.Rooted n
  merge : ∀ n, g.Rooted n → g'.representative (g.representative n) = g'.representative n
  rooted_new : ∀ n, g'.Has n → ¬ g.Has n → g'.Rooted n

namespace Coarsens

theorem has (h : Coarsens g g') (hn : g.Has n) : g'.Has n := Nat.lt_of_lt_of_le hn h.size_le

/-- Nodes with one representative have one later. -/
theorem representative_eq (h : Coarsens g g') (hn : g.Rooted n) (hm : g.Rooted m)
    (heq : g.representative n = g.representative m) :
    g'.representative n = g'.representative m := by
  rw [← h.merge n hn, heq, h.merge m hm]

theorem trans (h : Coarsens g g') (h' : Coarsens g' g'') : Coarsens g g'' where
  size_le := Nat.le_trans h.size_le h'.size_le
  rooted n hn := h'.rooted n (h.rooted n hn)
  merge n hn :=
    h'.representative_eq (h.rooted _ hn.representative) (h.rooted n hn) (h.merge n hn)
  rooted_new n hn hnew := by
    by_cases hmid : g'.Has n
    · exact h'.rooted n (h.rooted_new n hmid hnew)
    · exact h'.rooted_new n hn hmid

end Coarsens

theorem SameLinks.coarsens (h : SameLinks g g') : Coarsens g g' where
  size_le := h.size_le
  rooted _ hn := h.rooted hn
  merge n hn := by
    rw [h.representative hn.representative, h.representative hn, hn.representative_representative]
  rooted_new _ := h.rooted_new

theorem Enqueues.coarsens (h : Enqueues T g g') (hsize : g'.size = g.size) : Coarsens g g' := by
  have hno : ∀ n, g'.Has n → ¬ g.Has n → g'.Rooted n :=
    fun n hn hnew => absurd (by rwa [Has, ← hsize]) hnew
  rcases h with ⟨hm, -⟩ | ⟨s, d, -, -, hl, -⟩
  · have hcongr := fun n (hn : g.Rooted n) => hn.congr (Nat.le_of_eq hsize.symm) hm
    refine ⟨Nat.le_of_eq hsize.symm, fun n hn => (hcongr n hn).1, fun n hn => ?_, hno⟩
    rw [(hcongr _ hn.representative).2, (hcongr n hn).2, hn.representative_representative]
  · refine ⟨Nat.le_of_eq hsize.symm, fun n hn => (hl.rooted hn).1, fun n hn => ?_, hno⟩
    rw [(hl.rooted hn.representative).2, (hl.rooted hn).2, hn.representative_representative]

/-- A step at which the nodes in `dead` become tombstones, and at most one merge is scheduled. -/
theorem Grounded.enqueues (dead : List NodeId) (h : Grounded g (dead ++ g.pending))
    (hsize : g'.size = g.size) (hmerged : ∀ n,
      (g'.node n).merged = (decide (n ∈ dead) || (g.node n).merged))
    (hpoints : PointsInto g.Rooted g') (hl : Enqueues g.Rooted g g') : Grounded g' g'.pending := by
  have hc := hl.coarsens hsize
  have hlive : ∀ n, (g'.node n).merged = false ↔ n ∉ dead ∧ (g.node n).merged = false := fun n => by
    rw [hmerged, Bool.or_eq_false_iff, decide_eq_false_iff_not]
  have hdisjoint := List.disjoint_of_nodup_append h.nodup
  -- what was in the queue is in it still, unless it is dead
  have hqueue : ∀ n, n ∈ g.pending ↔ (g'.node n).merged = false ∧
    (g.node n).mergeTo.isSome := fun n => by
    rw [hlive, and_assoc, ← h.waits, List.mem_append]
    exact ⟨fun hn => ⟨fun hd => hdisjoint hd hn, .inr hn⟩, fun hn => hn.2.resolve_left hn.1⟩
  refine ⟨fun n c hn => hc.rooted c (hpoints n c hn),
    fun n hn => hc.rooted n (h.live n ⟨?_, ((hlive n).mp hn.2).2⟩),
    fun n hn => hl.isSome ?_, ?_, fun n => ?_⟩
  · have := hn.1
    rwa [Has, hsize] at this
  · rw [hmerged, Bool.or_eq_true, decide_eq_true_iff] at hn
    exact hn.elim (fun hd => ((h.waits n).mp (List.mem_append_left _ hd)).2) (h.tomb n)
  · rcases hl with ⟨-, hp⟩ | ⟨s, d, -, -, hl, hp⟩
    · rw [hp]
      exact (List.nodup_append.mp h.nodup).2.1
    · rw [hp]
      refine List.nodup_cons.mpr ⟨fun hs => ?_, (List.nodup_append.mp h.nodup).2.1⟩
      have := ((hqueue s).mp hs).2
      rw [hl.root_src] at this
      cases this
  · rcases hl with ⟨hm, hp⟩ | ⟨s, d, -, -, hl, hp⟩
    · rw [hp, hm]
      exact hqueue n
    · rw [hp, hl.mergeTo, List.mem_cons]
      by_cases hn : n = s
      · subst hn
        have hroot : (g.node n).mergeTo.isSome = false := by rw [hl.root_src]; rfl
        have hnew : (g'.node n).merged = false := by
          refine (hlive n).mpr ⟨fun hd => ?_, h.not_merged hl.root_src⟩
          have := ((h.waits n).mp (List.mem_append_left _ hd)).2
          rw [hroot] at this
          cases this
        simp [hnew]
      · simp only [hn, false_or, if_false]
        exact hqueue n

/-! ### Heirs -/

/-- One of the nodes `R` has the representative of `n`. -/
def Meets (R : NodeId → Prop) (g : Graph) (n : NodeId) : Prop :=
  ∃ b, R b ∧ g.Rooted b ∧ g.representative b = g.representative n

theorem Meets.coarsens (hc : Coarsens g g') (hn : g.Rooted n) (h : Meets R g n) : Meets R g' n := by
  obtain ⟨b, hR, hb, hrep⟩ := h
  exact ⟨b, hR, hc.rooted b hb, hc.representative_eq hb hn hrep⟩

/-- From `g` to `g'` nodes are added and merged, and states are inherited. A state that is not is
the one of a new node, or a global escape of a node that represents one of `R`. -/
structure Inherits (R : NodeId → Prop) (g g' : Graph) : Prop extends Coarsens g g' where
  heir : ∀ n, g.Live n → ∃ m, g'.Live m ∧ g'.representative m = g'.representative n ∧
    (g.node n).state ≤ (g'.node m).state
  origin : ∀ m, g'.Live m → ((g'.node m).state = .globalEscaping ∧ Meets R g' m) ∨
    (g'.node m).state = .noEscape ∨
    ∃ n, g.Live n ∧ g'.representative n = g'.representative m ∧ (g.node n).state = (g'.node m).state

namespace Inherits

theorem trans (hg : Grounded g queue) (hg' : Grounded g' queue') (h : Inherits R g g')
    (h' : Inherits R g' g'') : Inherits R g g'' where
  toCoarsens := h.toCoarsens.trans h'.toCoarsens
  heir n hn := by
    obtain ⟨m, hm, hrep, hstate⟩ := h.heir n hn
    obtain ⟨k, hk, hrep', hstate'⟩ := h'.heir m hm
    exact ⟨k, hk, hrep'.trans (h'.representative_eq (hg'.live m hm) (h.rooted n (hg.live n hn))
      hrep), EscapeState.le_trans hstate hstate'⟩
  origin k hk := by
    rcases h'.origin k hk with hglobal | hnone | ⟨m, hm, hrep', hstate'⟩
    · exact .inl hglobal
    · exact .inr (.inl hnone)
    · rw [← hstate']
      rcases h.origin m hm with ⟨hglobal, hmeets⟩ | hnone | ⟨n, hn, hrep, hstate⟩
      · obtain ⟨b, hR, hb, hrep⟩ := hmeets.coarsens h'.toCoarsens (hg'.live m hm)
        exact .inl ⟨hglobal, b, hR, hb, hrep.trans hrep'⟩
      · exact .inr (.inl hnone)
      · have hlater := h'.representative_eq (h.rooted n (hg.live n hn)) (hg'.live m hm) hrep
        exact .inr (.inr ⟨n, hn, hlater.trans hrep', hstate⟩)

/-- Without merges a node is its own heir. -/
theorem of_sameLinks (h : SameLinks g g') (hstate : ∀ n, (g'.node n).state = (g.node n).state ∨
    ((g'.node n).state = .globalEscaping ∧ Meets R g' n)) : Inherits R g g' where
  toCoarsens := h.coarsens
  heir n hn := by
    refine ⟨n, h.live hn, rfl, ?_⟩
    rcases hstate n with heq | ⟨hglobal, -⟩
    · rw [heq]
      exact EscapeState.le_refl _
    · rw [hglobal]
      cases (g.node n).state <;> decide
  origin m hm := by
    rcases hstate m with heq | hglobal
    · by_cases hold : g.Has m
      · exact .inr (.inr ⟨m, ⟨hold, (h.merged m).symm.trans hm.2⟩, rfl, heq.symm⟩)
      · rw [heq, node_of_not_has hold]
        exact .inr (.inl rfl)
    · exact .inl hglobal

theorem refl (g : Graph) : Inherits R g g := of_sameLinks (.of_nodes rfl) fun _ => .inl rfl

end Inherits

/-- The graph `g'` is grounded, and inherits from `g`. -/
structure Descends (R : NodeId → Prop) (g g' : Graph) : Prop where
  grounded : Grounded g' g'.pending
  inherits : Inherits R g g'

namespace Descends

theorem refl (h : Grounded g g.pending) : Descends R g g := ⟨h, .refl g⟩

theorem trans (hg : Grounded g queue) (h : Descends R g g') (h' : Descends R g' g'') :
    Descends R g g'' :=
  ⟨h'.grounded, .trans hg h.grounded h.inherits h'.inherits⟩

end Descends

/-- From `g` to `g'` the live node `src` becomes a tombstone, and no other node does. -/
structure Buries (g g' : Graph) (src : NodeId) : Prop where
  live : g.Live src
  size : g'.size = g.size
  merged : ∀ n, (g'.node n).merged = (decide (n = src) || (g.node n).merged)

namespace Buries

theorem live_iff (h : Buries g g' src) : g'.Live n ↔ n ≠ src ∧ g.Live n := by
  rw [Live, Live, Has, Has, h.size, h.merged, Bool.or_eq_false_iff, decide_eq_false_iff_not]
  exact ⟨fun h => ⟨h.2.1, h.1, h.2.2⟩, fun h => ⟨h.2.1, h.1, h.2.2⟩⟩

theorem liveCount_lt (h : Buries g g' src) : g'.liveCount < g.liveCount :=
  Graph.liveCount_lt h.size h.live.1 h.live.2 h.merged

end Buries

/-- The node that is merged leaves its state to the other one, and all others keep theirs. -/
theorem Absorbs.inherits (ha : Absorbs g.Rooted g g' src dst) (hb : Buries g g' src)
    (hdst : g.Live dst) (hrep : g.representative src = dst) (hne : dst ≠ src)
    (hroot : g.Rooted src) : Inherits R g g' := by
  have hc := ha.enqueues.coarsens ha.size
  have hsame : g'.representative dst = g'.representative src := by
    rw [← hrep]
    exact hc.merge src hroot
  refine ⟨hc, fun n hn => ?_, fun m hm => ?_⟩
  · by_cases hs : n = src
    · refine ⟨dst, hb.live_iff.mpr ⟨hne, hdst⟩, by rw [hs, hsame], ?_⟩
      rw [ha.state, if_pos rfl, hs]
      exact EscapeState.le_join_right _ _
    · refine ⟨n, hb.live_iff.mpr ⟨hs, hn⟩, rfl, ?_⟩
      rw [ha.state]
      split
      · exact EscapeState.le_join_left _ _
      · exact EscapeState.le_refl _
  · refine .inr (.inr ?_)
    rw [ha.state]
    by_cases hd : m = dst
    · subst hd
      rw [if_pos rfl, EscapeState.join]
      split
      · exact ⟨src, hb.live, hsame.symm, rfl⟩
      · exact ⟨m, hdst, rfl, rfl⟩
    · rw [if_neg hd]
      exact ⟨m, (hb.live_iff.mp hm).2, rfl, rfl⟩

/-! ### Operations -/

namespace Grounded

variable (h : Grounded g g.pending)
include h

/-- Nodes are added, edges change, and some of `R` come to escape globally. -/
theorem descends (hl : SameLinks g g') (hp : PointsInto g'.Rooted g')
    (hpending : g'.pending = g.pending)
    (hstate : ∀ n, (g'.node n).state = (g.node n).state ∨
      ((g'.node n).state = .globalEscaping ∧ Meets R g' n)) :
    Descends R g g' :=
  ⟨hpending ▸ h.sameLinks hl hp, .of_sameLinks hl hstate⟩

/-- Edges change, but not to where links never end. -/
theorem redirects (hr : Redirects g.Rooted g g') : Descends R g g' :=
  h.descends hr.sameLinks (fun n c hc => hr.sameLinks.rooted (hr.points n c hc)) hr.pending
    fun n => .inl (hr.state n)

theorem schedule (hs : g.Rooted s) (hd : g.Rooted d) : Descends R g (g.schedule s d) := by
  have hr := schedule_readies h.firm hs hd
  have hc := hr.enqueues.coarsens hr.size
  have hlive : ∀ {n}, (g.schedule s d).Live n ↔ g.Live n := fun {n} => by
    rw [Live, Live, Has, Has, hr.size, hr.merged]
  refine ⟨Grounded.enqueues [] h hr.size (fun n => ?_) hr.firm.points hr.enqueues, hc,
    fun n hn => ?_, fun m hm => .inr (.inr ⟨m, hlive.mp hm, rfl, (hr.state m).symm⟩)⟩
  · rw [hr.merged]
    simp
  · exact ⟨n, hlive.mpr hn, rfl, by rw [hr.state]; exact EscapeState.le_refl _⟩

omit h in
/-- **One merge.** -/
theorem absorb (h : Grounded g (src :: g.pending)) (hok : g.absorb src = .ok g') :
    Descends R g g' ∧ Buries g g' src := by
  have hsrc : g.Rooted src := h.rooted_of_waits List.mem_cons_self
  obtain ⟨dst, hrep, hne, -, -, ha⟩ := absorb_spec h.firm hsrc hok
  have hb : Buries g g' src :=
    ⟨⟨hsrc.has, ((h.waits src).mp List.mem_cons_self).1⟩, ha.size, ha.merged⟩
  have hdst : g.Live dst := hrep ▸ h.live_representative hsrc
  refine ⟨⟨Grounded.enqueues [src] h ha.size (fun n => ?_) ha.points ha.enqueues,
    ha.inherits hb hdst hrep hne hsrc⟩, hb⟩
  rw [ha.merged]
  simp

/-- The next node of the queue is merged. -/
theorem settle_step {rest : List NodeId} (hp : g.pending = n :: rest)
    (hok : { g with pending := rest }.absorb n = .ok g') : Descends R g g' ∧ Buries g g' n := by
  have h₀ : Grounded { g with pending := rest } (n :: rest) := hp ▸ h.sameEdges (.of_nodes rfl)
  have hpop : Inherits R g { g with pending := rest } :=
    .of_sameLinks (.of_nodes rfl) fun _ => .inl rfl
  obtain ⟨hd, hb⟩ := h₀.absorb hok
  exact ⟨⟨hd.grounded, .trans h h₀ hpop hd.inherits⟩, hb.live, hb.size, hb.merged⟩

omit h in
/-- Only live nodes wait. -/
theorem live_of_waits (h : Grounded g queue) (hn : n ∈ queue) : n ∈ g.liveNodes :=
  mem_liveNodes.mpr ⟨(h.rooted_of_waits hn).has, ((h.waits n).mp hn).1⟩

theorem pending_eq_nil (hb : g.liveCount = 0) : g.pending = [] := by
  refine List.eq_nil_iff_forall_not_mem.mpr fun n hn => ?_
  have := List.length_pos_of_mem (h.live_of_waits hn)
  rw [liveCount] at hb
  omega

/-- **All merges.** None is left. -/
theorem settle (hok : g.settle = .ok g') : Descends R g g' ∧ g'.pending = [] :=
  settle_empties (P := Descends R g) (fun k k' n rest hk hp h₁ => by
      obtain ⟨hd, hb⟩ := hk.grounded.settle_step hp h₁
      exact ⟨.trans h hk hd, hb.liveCount_lt⟩)
    (fun _ hk _ => hk.grounded.live_of_waits) (.refl h) hok

theorem mergeContents {merged : Bool} (hok : g.mergeContents n m = .ok (g', merged)) :
    Descends R g g' ∧ (g.pending = [] → g'.pending = []) := by
  rcases mergeContents_cases hok with ⟨rfl, -⟩ | ⟨c, d, hc, hd, -, hs, -⟩
  · exact ⟨.refl h, id⟩
  · have h₁ : Descends R g (g.schedule c d) := h.schedule (h.points n c hc) (h.points m d hd)
    obtain ⟨h₂, hp₂⟩ := h₁.grounded.settle hs
    exact ⟨.trans h h₁ h₂, fun _ => hp₂⟩

/-- **A defer edge**, with the merge of contents that it asks for. -/
theorem deferTracked {changed : Bool}
    (hok : g.deferTracked n m = .ok (g', c, changed)) :
    Descends R g g' ∧ (g.pending = [] → g'.pending = []) := by
  rcases deferTracked_ok hok with ⟨-, rfl, -⟩ | ⟨-, -, -, -, -, g₁, g₂, _, _, h₁, h₂, h₃, -⟩
  · exact ⟨.refl h, id⟩
  · obtain ⟨hd₁, hp₁⟩ := h.mergeContents (R := R) h₁
    have hdefer := addDefer_redirects hd₁.grounded.points h₂
    have hroot : ∀ n c, g.target? n = some c → g₁.Rooted c :=
      fun n c hc => hd₁.inherits.rooted c (h.points n c hc)
    have hshare := shareContent_redirects hdefer.points (hroot n) (hroot m) h₃
    have hr := hdefer.trans hshare
    exact ⟨.trans h hd₁ (hd₁.grounded.redirects hr), fun hp => hr.pending.trans (hp₁ hp)⟩

/-- **A new content**, which points nowhere and does not escape. -/
theorem createContent {interior referenceOnly : Bool}
    (hok : g.createContent n interior referenceOnly = .ok (g', c)) :
    Descends R g g' ∧ g'.Rooted c := by
  obtain ⟨g₁, h₁, hok⟩ := bind_ok.mp hok
  cases hok
  have hfresh := Node.fresh_content interior referenceOnly
  have he : SameEdges g (g.addNode (freshContent interior referenceOnly)).1 := .addNode hfresh
  have hadd : Descends R g (g.addNode (freshContent interior referenceOnly)).1 := by
    refine h.descends he.sameLinks (h.sameEdges he).points rfl fun n => .inl ?_
    exact addNode_field Node.state (by rfl) n
  have hnew := he.sameLinks.rooted_new (has_addNode g _) (not_has_addNode g _)
  have hr := spread_redirects hadd.grounded.points hnew h₁
  exact ⟨.trans h hadd (hadd.grounded.redirects hr), hr.sameLinks.rooted hnew⟩

end Grounded

end Escape.Graph
