import Escape.Proofs.Graph.Absorb
import Escape.Proofs.Graph.Extends

/-!
# Merges in any graph

What a merge does to nodes, links and states, whatever the edges of the graph look like. All that is
asked for is a set of nodes from which merge links come to an end, and which holds everything that
is pointed to: merges are scheduled between such nodes only.

- `Graph.Absorbs`, `Graph.absorb_spec`: what one merge does.
-/

namespace Escape.Graph

variable {g g' g'' : Graph} {n m c s d src dst : NodeId} {T : NodeId → Prop}

/-! ### Nodes with a root -/

/-- The merge links lead from `n` to a node of the table that has none. -/
def Rooted (g : Graph) (n : NodeId) : Prop := ∃ k r, g.Leads k n r ∧ g.Has r

namespace Rooted

theorem of_root (hn : g.Has n) (hm : (g.node n).mergeTo = none) : g.Rooted n := ⟨0, n, .root hm, hn⟩

variable (h : g.Rooted n)
include h

theorem leads : ∃ k, g.Leads k n (g.representative n) := by
  obtain ⟨k, r, hr, -⟩ := h
  exact ⟨k, hr.representative_eq ▸ hr⟩

theorem has_representative : g.Has (g.representative n) := by
  obtain ⟨k, r, hr, hhas⟩ := h
  rwa [hr.representative_eq]

theorem mergeTo_representative : (g.node (g.representative n)).mergeTo = none := by
  obtain ⟨k, hk⟩ := h.leads
  exact hk.mergeTo_end

theorem representative : g.Rooted (g.representative n) :=
  of_root h.has_representative h.mergeTo_representative

theorem representative_representative :
    g.representative (g.representative n) = g.representative n :=
  representative_of_root h.mergeTo_representative

theorem has : g.Has n := by
  obtain ⟨k, r, hr, hhas⟩ := h
  cases hr with
  | root _ => exact hhas
  | link hm _ =>
    refine has_of_node_ne fun e => ?_
    rw [e] at hm
    cases hm

omit h in
/-- A graph with the same links has the same roots. -/
theorem congr (hs : g.size ≤ g'.size) (hm : ∀ n, (g'.node n).mergeTo = (g.node n).mergeTo)
    (h : g.Rooted n) : g'.Rooted n ∧ g'.representative n = g.representative n := by
  obtain ⟨k, r, hr, hhas⟩ := h
  have hr' := hr.congr hm
  exact ⟨⟨k, r, hr', Nat.lt_of_lt_of_le hhas hs⟩,
    by rw [hr'.representative_eq, hr.representative_eq]⟩

/-- What passes along merge links holds of the representative. -/
theorem induct {P : NodeId → Prop} (step : ∀ n m, (g.node n).mergeTo = some m → P n → P m)
    (hn : P n) : P (g.representative n) := by
  obtain ⟨k, hk⟩ := h.leads
  generalize g.representative n = r at hk
  induction hk with
  | root _ => exact hn
  | @link k n m r hm rest ih =>
    refine ih ?_ (step n m hm hn)
    obtain ⟨k', r', hr', hhas⟩ := h
    obtain ⟨rfl, rfl⟩ := hr'.unique (.link hm rest)
    exact ⟨k, _, rest, hhas⟩

end Rooted

/-- A new link moves what `s` represented over to `d`. -/
theorem Links.rooted (h : Links g g' s d) (hn : g.Rooted n) :
    g'.Rooted n ∧ g'.representative n =
    if g.representative n = s then d else g.representative n := by
  obtain ⟨k, hk⟩ := hn.leads
  obtain ⟨k', hk'⟩ := h.leads hk
  refine ⟨⟨k', _, hk', ?_⟩, hk'.representative_eq⟩
  rw [Has, h.size]
  split
  · exact h.has
  · exact hn.has_representative

theorem Rooted.links_schedule (hs : g.Rooted s) (hd : g.Rooted d)
    (h : g.representative s ≠ g.representative d) :
    Links g (g.schedule s d) (g.representative s) (g.representative d) :=
  links_schedule_of_roots hs.has_representative hd.has_representative hs.mergeTo_representative
    hd.mergeTo_representative h

/-! ### The phases of a merge -/

/-- What is pointed to is in `T`, and with a node what represents it. -/
structure Within (T : NodeId → Prop) (g : Graph) : Prop where
  points : PointsInto T g
  closed : ∀ c, T c → T (g.representative c)

/-- No edge leads out of the set of all nodes. -/
theorem Within.all (g : Graph) : Within (fun _ => True) g := ⟨.all g, fun _ _ => trivial⟩

theorem Within.rewires (h : Within T g) (hr : Rewires g g') (hp : PointsInto T g') :
    Within T g' where
  points := hp
  closed c hc := by
    rw [hr.representative]
    exact h.closed c hc

theorem Within.redirects (h : Within T g) (hr : Redirects T g g') : Within T g' :=
  h.rewires hr.toRewires hr.points

section

variable (h : PointsInto T g)
include h

/-- A defer edge is cut only if it leads to a node that is merged. -/
theorem redirectPred_redirects {p : Pred} (hd : T dst) (hsrc : g.Gone src)
    (hok : redirectPred src dst g p = .ok g') : Redirects T g g' := by
  unfold redirectPred at hok
  split at hok
  · split at hok
    · cases hok
      exact .refl h
    · exact setEdge_redirects h hd hok
  · cases hok
    refine .modify h _ (.inl rfl) (fun d hd => ?_) fun _ hU => hU _
    by_cases hds : d = src
    · exact .inr (hds ▸ hsrc)
    · exact .inl (List.mem_filter.mpr ⟨hd, by simpa using hds⟩)

theorem unlink_redirects (hd : T dst) (hsrc : g.Gone src) (hok : g.unlink src dst = .ok g') :
    Redirects T g g' := by
  obtain ⟨g₁, h₁, hok⟩ := bind_ok.mp hok
  cases hok
  have hpreds := Redirects.foldlM h (fun _ _ _ hr hk => redirectPred_redirects hk hd
    (hr.gone.mpr hsrc)) h₁
  exact hpreds.trans (.foldl (fun k a hk => .erasePred hk a _) _ hpreds.points)

theorem dropEdge_redirects (src : NodeId) : Redirects T g (g.dropEdge src) := by
  unfold dropEdge
  split
  · exact .erasePred h _ _
  · exact .refl h
  · exact .refl h

/-- A node that is pointed to is in `T`, also under its new name. -/
theorem PointsInto.rename (hd : T dst) (hc : g.target? n = some c) : T (rename src dst c) := by
  unfold Graph.rename
  split
  · exact hd
  · exact h n c hc

theorem takeEdge_redirects (hd : T dst) (hok : g.takeEdge src dst = .ok g') : Redirects T g g' := by
  unfold takeEdge at hok
  split at hok
  · rename_i c hc
    split at hok
    · exact spread_redirects h (h.rename hd (target?_of_edge hc)) hok
    · rename_i d hd'
      cases hok
      exact linkEdge_redirects h dst (h.rename hd (target?_of_inferred hd'))
    · cases hok
      exact .refl h
  · cases hok
    exact .refl h
  · cases hok
    exact .refl h

end

section

variable (h : Within T g)
include h

theorem fixOther_redirects (hd : T dst) (hok : g.fixOther src dst n = .ok g') :
    Redirects T g g' := by
  unfold fixOther at hok
  split at hok
  · exact repoint_redirects h.points (h.closed dst hd) hok
  · cases hok
    exact .refl h.points

theorem reconcile_redirects (hok : g.reconcile dst n = .ok g') : Redirects T g g' := by
  unfold reconcile at hok
  split at hok
  · rename_i c _ hc
    exact repoint_redirects h.points (h.closed _ (h.points _ _ hc)) hok
  · rename_i c hc _
    exact spread_redirects h.points (h.points _ _ hc) hok
  · rename_i c _ hc
    exact spread_redirects h.points (h.points _ _ hc) hok
  · cases hok
    exact .refl h.points

theorem moveDefer_redirects {isSuccessor : Bool} (hd : T dst)
    (hok : moveDefer src dst g n isSuccessor = .ok g') : Redirects T g g' := by
  by_cases hn : n = dst
  · rw [moveDefer, if_pos hn] at hok
    cases hok
    exact .refl h.points
  · rw [moveDefer_eq hn] at hok
    obtain ⟨g₁, h₁, hok⟩ := bind_ok.mp hok
    obtain ⟨⟨g₂, b⟩, h₂, hok⟩ := bind_ok.mp hok
    have hfix := fixOther_redirects h hd h₁
    have hadd : Redirects T g₁ g₂ := by
      unfold addEither at h₂
      split at h₂
      · exact addDefer_redirects hfix.points h₂
      · exact addDefer_redirects hfix.points h₂
    have h₂ := hfix.trans hadd
    exact h₂.trans (reconcile_redirects (h.redirects h₂) hok)

theorem foldlM_moveDefer_redirects {isSuccessor : Bool} {l : List NodeId} (hd : T dst)
    (hok : l.foldlM (fun g m => moveDefer src dst g m isSuccessor) g = .ok g') : Redirects T g g' :=
  .foldlM h.points (fun _ _ _ hr hk => moveDefer_redirects (h.rewires hr hk) hd) hok

theorem alignPred_redirects {p : Pred} (hn : T n) (hok : alignPred n g p = .ok g') :
    Redirects T g g' := by
  unfold alignPred at hok
  split at hok
  · refine .foldlM h.points (fun k a k' hr hk hok => ?_) hok
    split at hok
    · exact repoint_redirects hk ((h.rewires hr hk).closed n hn) hok
    · cases hok
      exact .refl hk
  · cases hok
    exact .refl h.points

end

theorem alignPreds_redirects {bound i : Nat} (hn : T n) (h : Within T g)
    (hok : alignPreds n bound i g = .ok g') : Redirects T g g' :=
  alignPreds_induct (P := Redirects T g)
    (fun _ _ _ hk _ h₁ => hk.trans (alignPred_redirects (h.redirects hk) hn h₁)) _ _
    (.refl h.points) hok

theorem shareContent_redirects {c? d? : Option NodeId} (h : PointsInto T g)
    (hc : ∀ c, c? = some c → T c) (hd : ∀ d, d? = some d → T d)
    (hok : g.shareContent n m c? d? = .ok g') : Redirects T g g' := by
  unfold shareContent at hok
  split at hok
  · exact spread_redirects h (hd _ rfl) hok
  · exact spread_redirects h (hc _ rfl) hok
  · cases hok
    exact .refl h

/-! ### One merge -/

/-- From `g` to `g'` the list of pending merges is the same, as are the links; or one link is new,
between roots in `T`, and its origin waits in front of the others. -/
def Enqueues (T : NodeId → Prop) (g g' : Graph) : Prop :=
  (∀ n, (g'.node n).mergeTo = (g.node n).mergeTo) ∧ g'.pending = g.pending ∨
    ∃ s d, T s ∧ T d ∧ Links g g' s d ∧ g'.pending = s :: g.pending

theorem Enqueues.congr (h : Enqueues T g g') (hs : g''.size = g'.size)
    (hm : ∀ n, (g''.node n).mergeTo = (g'.node n).mergeTo) (hp : g''.pending = g'.pending) :
    Enqueues T g g'' := by
  refine h.imp (fun h => ⟨fun n => (hm n).trans (h.1 n), hp.trans h.2⟩) ?_
  rintro ⟨s, d, hTs, hTd, hl, hpend⟩
  exact ⟨s, d, hTs, hTd, ⟨hs.trans hl.size, hl.root_src, hl.root_dst, hl.ne, hl.has, fun n =>
    (hm n).trans (hl.mergeTo n)⟩, hp.trans hpend⟩

/-- What is pointed to is in `T`, and `T` holds rooted nodes only, each with what represents it. -/
structure Firm (T : NodeId → Prop) (g : Graph) : Prop extends Within T g where
  rooted : ∀ c, T c → g.Rooted c

theorem Firm.redirects (h : Firm T g) (hr : Redirects T g g') : Firm T g' where
  toWithin := h.toWithin.redirects hr
  rooted c hc := ((h.rooted c hc).congr (Nat.le_of_eq hr.size.symm) hr.mergeTo).1

theorem schedule_enqueues (h : Firm T g) (hs : T s) (hd : T d) : Enqueues T g (g.schedule s d) := by
  by_cases hne : g.representative s = g.representative d
  · rw [schedule_eq_self hne]
    exact .inl ⟨fun _ => rfl, rfl⟩
  · exact .inr ⟨_, _, h.closed s hs, h.closed d hd,
      (h.rooted s hs).links_schedule (h.rooted d hd) hne, by
      rw [schedule_of_ne hne]⟩

/-- A set that is closed stays so when two of its nodes are linked. -/
theorem Firm.enqueues (h : Firm T g) (hl : Enqueues T g g') (hsize : g'.size = g.size)
    (hp : PointsInto T g') : Firm T g' := by
  rcases hl with ⟨hm, -⟩ | ⟨s, d, hs, hd, hl, -⟩
  · have hcongr := fun c hc => (h.rooted c hc).congr (Nat.le_of_eq hsize.symm) hm
    refine ⟨⟨hp, fun c hc => ?_⟩, fun c hc => (hcongr c hc).1⟩
    rw [(hcongr c hc).2]
    exact h.closed c hc
  · refine ⟨⟨hp, fun c hc => ?_⟩, fun c hc => (hl.rooted (h.rooted c hc)).1⟩
    rw [(hl.rooted (h.rooted c hc)).2]
    split
    · exact hd
    · exact h.closed c hc

/-- From `g` to `g'` the node `src` is merged into `dst`, and at most one merge is scheduled. -/
structure Absorbs (T : NodeId → Prop) (g g' : Graph) (src dst : NodeId) : Prop where
  size : g'.size = g.size
  kind : ∀ n, (g'.node n).kind = (g.node n).kind
  merged : ∀ n, (g'.node n).merged = (decide (n = src) || (g.node n).merged)
  state : ∀ n, (g'.node n).state =
    if n = dst then (g.node n).state.join (g.node src).state else (g.node n).state
  points : PointsInto T g'
  enqueues : Enqueues T g g'

/-- The graph from the moment on at which the contents of both nodes are matched, up to edges. -/
structure Readies (T : NodeId → Prop) (g g' : Graph) : Prop where
  size : g'.size = g.size
  kind : ∀ n, (g'.node n).kind = (g.node n).kind
  merged : ∀ n, (g'.node n).merged = (g.node n).merged
  state : ∀ n, (g'.node n).state = (g.node n).state
  firm : Firm T g'
  enqueues : Enqueues T g g'

theorem Readies.redirects (h : Readies T g g') (hr : Redirects T g' g'') : Readies T g g'' where
  size := hr.size.trans h.size
  kind n := (hr.kind n).trans (h.kind n)
  merged n := (hr.merged n).trans (h.merged n)
  state n := (hr.state n).trans (h.state n)
  firm := h.firm.redirects hr
  enqueues := h.enqueues.congr hr.size hr.mergeTo hr.pending

/-- Edges may change before as well. -/
theorem Readies.after (hr : Redirects T g g') (h : Readies T g' g'') : Readies T g g'' where
  size := h.size.trans hr.size
  kind n := (h.kind n).trans (hr.kind n)
  merged n := (h.merged n).trans (hr.merged n)
  state n := (h.state n).trans (hr.state n)
  firm := h.firm
  enqueues := by
    refine h.enqueues.imp (fun h =>
      ⟨fun n => (h.1 n).trans (hr.mergeTo n), h.2.trans hr.pending⟩) ?_
    rintro ⟨s, d, hs, hd, hl, hp⟩
    exact ⟨s, d, hs, hd, ⟨hl.size.trans hr.size, (hr.mergeTo s).symm.trans hl.root_src,
      (hr.mergeTo d).symm.trans hl.root_dst, hl.ne, hr.has.mp hl.has, fun n => by
        rw [hl.mergeTo, hr.mergeTo]⟩, hp.trans (congrArg _ hr.pending)⟩

theorem Redirects.readies (h : Firm T g) (hr : Redirects T g g') : Readies T g g' :=
  ⟨hr.size, hr.kind, hr.merged, hr.state, h.redirects hr, .inl ⟨hr.mergeTo, hr.pending⟩⟩

/-- Scheduling touches no edges. -/
theorem schedule_points (h : PointsInto T g) (s d : NodeId) : PointsInto T (g.schedule s d) :=
  fun n c hc => by
  rw [target?, schedule_field Node.pointsTo] at hc
  exact h n c hc

theorem schedule_readies (h : Firm T g) (hs : T s) (hd : T d) : Readies T g (g.schedule s d) where
  size := size_schedule g s d
  kind n := schedule_field Node.kind ..
  merged n := schedule_field Node.merged ..
  state n := schedule_field Node.state ..
  firm := h.enqueues (schedule_enqueues h hs hd) (size_schedule g s d)
    (schedule_points h.points s d)
  enqueues := schedule_enqueues h hs hd

theorem matchContents_readies {content : Option NodeId} (src : NodeId) (h : Firm T g) (hd : T dst)
    (hc : ∀ c, content = some c → T c) : Readies T g (g.matchContents src dst content) := by
  have hstay : Readies T g g := Redirects.readies h (.refl h.points)
  unfold matchContents
  split
  · rename_i d c hd'
    split
    · exact hstay
    · refine schedule_readies h ?_ (h.points dst d hd')
      unfold rename
      split
      · exact hd
      · exact hc c rfl
  · exact hstay

/-- Burying a node finishes its merge. -/
theorem Readies.bury (h : Readies T g g') (hsrc : T src) (hdst : T dst) (hne : dst ≠ src) :
    Absorbs T g (g'.bury src dst) src dst := by
  have hhas := (h.firm.rooted src hsrc).has
  have hhas' := (h.firm.rooted dst hdst).has
  have hfield := fun {α : Type} (p : Node → α) (ht : ∀ x, p (Node.tombstone x) = p x) hp n =>
    bury_field (k := g') p hne hhas' hhas ht hp n
  obtain ⟨hsize, -, hpending, -⟩ := inherit_rest g' src dst
  have hsize : (g'.bury src dst).size = g'.size := (size_modify _ src _).trans hsize
  have hmergeTo := hfield Node.mergeTo (fun _ => rfl) fun _ _ _ _ => rfl
  refine ⟨hsize.trans h.size, fun n => ?_, fun n => ?_, fun n => ?_, fun n c hc => ?_,
    h.enqueues.congr hsize hmergeTo hpending⟩
  · rw [hfield Node.kind (fun _ => rfl) fun _ _ _ _ => rfl, h.kind]
  · by_cases hn : n = src
    · rw [bury_node hne hhas' hhas, if_pos hn, decide_eq_true hn]
      rfl
    · rw [bury_field_of_ne Node.merged hne hhas' hhas hn, h.merged,
        decide_eq_false hn, Bool.false_or]
  · rw [bury_node hne hhas' hhas, ← h.state, ← h.state]
    by_cases hn : n = src
    · rw [if_pos hn, if_neg (hn ▸ hne.symm), hn]
      rfl
    · rw [if_neg hn]
      by_cases hn' : n = dst
      · rw [if_pos hn', if_pos hn', hn']
      · rw [if_neg hn', if_neg hn']
  · by_cases hn : n = src
    · rw [target?, bury_node hne hhas' hhas, if_pos hn] at hc
      cases hc
    · rw [target?, bury_field_of_ne Node.pointsTo hne hhas' hhas hn] at hc
      exact h.firm.points n c hc

/-- A node with another representative is gone. -/
theorem gone_of_representative (hrep : g.representative src = dst) (hne : dst ≠ src) :
    g.Gone src := by
  refine Option.isSome_iff_ne_none.mpr fun hroot => hne ?_
  rw [← hrep, representative_of_root hroot]

/-- A merge changes edges, matches the contents of both nodes, changes edges again, and buries the
node. -/
theorem absorb_phases (hok : g.absorb src = .ok g') : ∃ dst content k k', g.Gone src ∧
    Redirects (fun _ => True) g k ∧ Redirects (fun _ => True) (k.matchContents src dst content) k' ∧
    g' = k'.bury src dst := by
  obtain ⟨dst, hrep, hne, -, -, g₁, g₂, g₃, g₄, g₅, g₆, h₁, h₂, h₃, h₄, h₅, h₆, rfl⟩ :=
    absorb_ok.mp hok
  have hsrc := gone_of_representative hrep hne
  have hr₁ := unlink_redirects (.all g) trivial hsrc h₁
  have hr₂ := (hr₁.trans (dropEdge_redirects (.all g₁) src)).trans
    (takeEdge_redirects (.all _) trivial h₂)
  have hr₃ := fixOther_redirects (.all _) trivial h₃
  have hr₄ := hr₃.trans (foldlM_moveDefer_redirects (.all _) trivial h₄)
  have hr₅ := hr₄.trans (foldlM_moveDefer_redirects (.all _) trivial h₅)
  exact ⟨dst, _, g₂, g₆, hsrc, hr₂, hr₅.trans (alignPreds_redirects trivial (.all _) h₆), rfl⟩

/-- **What one merge does.** -/
theorem absorb_spec (h : Firm T g) (hsrc : T src) (hok : g.absorb src = .ok g') :
    ∃ dst, g.representative src = dst ∧ dst ≠ src ∧ (g.node src).isContent ∧
    (g.node dst).isContent ∧
      Absorbs T g g' src dst := by
  obtain ⟨dst, hrep, hne, hsc, hdc, g₁, g₂, g₃, g₄, g₅, g₆, h₁, h₂, h₃, h₄, h₅, h₆, rfl⟩ :=
    absorb_ok.mp hok
  have hdst : T dst := hrep ▸ h.closed src hsrc
  have hr₁ := unlink_redirects h.points hdst (gone_of_representative hrep hne) h₁
  have hdrop := dropEdge_redirects hr₁.points src
  have hr₂ := (hr₁.trans hdrop).trans (takeEdge_redirects hdrop.points hdst h₂)
  have hmatch := Readies.after hr₂ (matchContents_readies src (h.redirects hr₂) hdst
    (hr₁.points src))
  -- from the scheduled merge on only edges change again
  have hm₃ := hmatch.redirects (fixOther_redirects hmatch.firm.toWithin hdst h₃)
  have hm₄ := hm₃.redirects (foldlM_moveDefer_redirects hm₃.firm.toWithin hdst h₄)
  have hm₅ := hm₄.redirects (foldlM_moveDefer_redirects hm₄.firm.toWithin hdst h₅)
  have hm₆ := hm₅.redirects (alignPreds_redirects hdst hm₅.firm.toWithin h₆)
  exact ⟨dst, hrep, hne, hsc, hdc, hm₆.bury hsrc hdst hne⟩

end Escape.Graph
