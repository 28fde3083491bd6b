import Escape.Proofs.Graph.Merging

/-!
# One merge after the other

A merge of the graph in front of which a bridge is being built does not fail, and leaves the webs in
order. If it schedules another merge, then exactly one, and that finds the same situation again.

- `Waiting.run`: all phases of a merge, up to the burial.
- `Waiting.absorb`: what a merge comes to.
- `Graph.settleUpTo_waiting`: carrying out all merges, one after the other.
-/

namespace Escape.Graph

variable {g g' k₀ k : Graph} {src dst f t x n m : NodeId}

/-- The neighbours of `src` have the content of `src`. -/
theorem Waiting.content?_neighbour (h : Waiting g src dst f t) (hj : g.Joined n src) :
    g.content? n = g.content? src := by
  rw [content?_eq, content?_eq, h.agree_joined hj]

theorem Waiting.unlink (h : Waiting g src dst f t) : ∃ k, g.unlink src dst = .ok k := by
  obtain ⟨k, hk⟩ : ∃ k, (g.node src).preds.foldlM (redirectPred src dst) g = .ok k :=
    redirect_total h.root h.dst_content
  exact ⟨k.dropDefers src, by rw [Graph.unlink, hk]; rfl⟩

/-- Once `dst` does not point to `src` any more its content stays. -/
theorem Matched.fixOther (h : Matched g k src dst x) : ∃ k', k.fixOther src dst dst = .ok k' ∧
    Ready g k' src dst x ∧ Moves k k' src (Settles g k src dst) := by
  obtain ⟨k', hok, ht, hv, hne, hx, hsame⟩ := h.toTracked.fixOther h.ne
  refine ⟨k', hok, ⟨ht, fun c hc => ?_⟩, hv⟩
  by_cases hs : k.target? dst = some src
  · rw [hx hs] at hc
    cases hc
    exact ht.settles_x.1
  · rw [hsame hs] at hc ⊢
    refine h.root c hc fun e => hs (e ▸ hc)

/-- **All phases of a merge, up to the burial.** -/
theorem Waiting.run (h : Waiting g src dst f t) : ∃ k₀ k x, Merging g k₀ k src dst f t x ∧
    Aligned k src dst x ∧ g.absorb src = .ok (k.bury src dst) := by
  obtain ⟨g₁, h₁⟩ := h.unlink
  have hcut := unlink_cutOff h.linked h.ne h.has_dst h₁
  obtain ⟨g₂, h₂, htaken⟩ := hcut.takeEdge h
  obtain ⟨x, hmatch⟩ := htaken.matchContents h
  have hsrc : g₁.target? src = g.target? src := by
    have := hcut.pointsTo_src
    rw [dropEdge_field Node.pointsTo fun x q => x.erasePred_pointsTo q] at this
    exact congrArg Pointee.target? this
  rw [← hsrc] at hmatch
  set k₀ := g₂.matchContents src dst (g₁.target? src)
  obtain ⟨g₃, h₃, hr₃, hv₃⟩ := hmatch.fixOther
  -- the defer edges of `src`
  have hlive : ∀ k', Moves k₀ k' src (Settles g k₀ src dst) → ∀ m, g.Has m →
      (g.node m).merged = false → k'.Has m ∧ (k'.node m).merged = false := by
    intro k' hv m hm hml
    refine ⟨hv.toRewires.has.mpr ?_, by rw [hv.merged, hmatch.merged]; exact hml⟩
    rw [Has, hmatch.size]
    exact hm
  have hback : ∀ k', Moves k₀ k' src (Settles g k₀ src dst) → ∀ z, Settles g k' src dst z →
      Settles g k₀ src dst z := fun k' hv z => (Settles.rewires hv.toRewires).mp
  have hpred : ∀ m, m ∈ (g.node src).deferPreds ↔ g.Defers m src := fun m => h.linked.mem_deferPreds
  have hsucc : ∀ m, m ∈ (g₁.node src).defersTo ↔ m ≠ src ∧ g.Defers src m :=
    fun m => hcut.mem_defersTo
  have hirr : ¬ g.Defers src src := h.linked.irrefl src not_false
  obtain ⟨g₄, h₄, hr₄, hv₄, hset₄⟩ := hr₃.moveDefers false
    (l := (g.node src).deferPreds) fun m hm => by
      have hd := (hpred m).mp hm
      obtain ⟨hhas, hml⟩ := hlive g₃ hv₃ m hd.has (h.live_of_defers hd)
      exact ⟨fun e => hirr (e ▸ hd), h.content?_neighbour (.inl hd), hhas, hml, hd⟩
  have hv₀₄ := hv₃.trans (hv₄.mono (hback g₃ hv₃))
  obtain ⟨g₅, h₅, hr₅, hv₅, hset₅⟩ := hr₄.moveDefers true
    (l := (g₁.node src).defersTo) fun m hm => by
      obtain ⟨hms, hd⟩ := (hsucc m).mp hm
      obtain ⟨hhas, hml⟩ := hlive g₄ hv₀₄ m (h.has_of_defers hd) (h.defers_live src m hd)
      exact ⟨hms, h.content?_neighbour (.inr hd), hhas, hml, hd⟩
  have hv₀₅ := hv₀₄.trans (hv₅.mono (hback g₄ hv₀₄))
  -- a content that stays is given up for another one that stays
  have hnear : ∀ k' k'', Moves k' k'' src (Settles g k₀ src dst) → ∀ o, o ≠ src →
      (∀ c, k'.target? o = some c → Settles g k₀ src dst c) →
      ∀ c, k''.target? o = some c → Settles g k₀ src dst c := by
    intro k' k'' hv o ho hold c hc
    rcases hv.moved o ho with e | ⟨z, hz, e⟩
    · exact hold c (by rw [target?, ← e]; exact hc)
    · rw [hc] at e
      cases e
      exact hz
  have hm₅ : Merging g k₀ g₅ src dst f t x := by
    refine ⟨h, hmatch, hr₅, hv₀₅, fun o ho hj => ?_⟩
    rcases hj with hd | hd
    · exact hnear g₄ g₅ (hv₅.mono (hback g₄ hv₀₄)) o ho fun c hc =>
        hback g₃ hv₃ c (hset₄ o ((hpred o).mpr hd) c hc)
    · exact fun c hc => hback g₄ hv₀₄ c (hset₅ o ((hsucc o).mpr ⟨ho, hd⟩) c hc)
  obtain ⟨g₆, h₆, hr₆, ha₆, hal⟩ := hr₅.alignPreds fun hx a b => hm₅.unsettled_web hx
  have hv₆ : Moves g₅ g₆ src (Settles g k₀ src dst) :=
    ha₆.toMoves.mono fun z (hz : z = x) => hz ▸ hmatch.settles_x
  refine ⟨k₀, g₆, x, ⟨h, hmatch, hr₆, hv₀₅.trans hv₆, fun o ho hj => ?_⟩, hal, ?_⟩
  · exact hnear g₅ g₆ hv₆ o ho (hm₅.near o ho hj)
  · exact absorb_ok.mpr ⟨dst, h.representative_src, h.ne, h.src_content, h.dst_content, g₁, g₂, g₃,
      g₄, g₅, g₆, h₁, h₂, h₃, h₄, h₅, h₆, rfl⟩

/-! ### The graph after the burial -/

/-- The graph after a merge, as far as its webs are concerned. -/
structure Buried (g k g' : Graph) (src dst : NodeId) : Prop where
  shape : Shape g' (· ∈ g'.pending)
  carries : Carries g g' (rename src dst)
  pointsTo : ∀ n, n ≠ src → (g'.node n).pointsTo = (k.node n).pointsTo
  defersTo : ∀ n, n ≠ src → (g'.node n).defersTo = (k.node n).defersTo
  tomb : (g'.node src).pointsTo = .none ∧ (g'.node src).defersTo = []
  representative : ∀ n, g'.representative n = k.representative n
  mergeTo : ∀ n, (g'.node n).mergeTo = (k.node n).mergeTo
  interior : ∀ n, (g'.node n).interior = (k.node n).interior
  isContent : ∀ n, (g'.node n).isContent = (k.node n).isContent
  merged : ∀ n, (g'.node n).merged = (decide (n = src) || (g.node n).merged)
  tomb_usePoints : ∀ n, (g'.node n).merged = true → (g'.node n).usePoints = {}
  pending : g'.pending = k.pending
  size : g'.size = g.size

theorem Merging.buried (h : Merging g k₀ k src dst f t x) (hp : g.pending = [])
    (hok : g.absorb src = .ok (k.bury src dst)) : Buried g k (k.bury src dst) src dst := by
  have hs : Shape g (g.waitsWith src) := by
    have e : g.waitsWith src = (· = src) := by
      funext n
      simp [waitsWith, hp]
    rw [e]
    exact h.waiting.toShape
  obtain ⟨hshape, -, hc, hsize, hmerged⟩ := absorb_shape hs (by simp [hp]) hok
  rw [h.waiting.representative_src] at hc
  have hne := h.waiting.ne
  have hd : k.Has dst := h.ready.has_dst
  have hsrc : k.Has src := by
    refine has_of_node_ne fun e => ?_
    have := h.ready.src_links
    rw [e] at this
    cases this
  have hmt := bury_field Node.mergeTo hne hd hsrc
  refine ⟨hshape, hc, ?_, ?_, ?_, ?_, hmt, ?_, ?_, hmerged, ?_, ?_, hsize⟩
  · exact fun n hn => bury_field_of_ne Node.pointsTo hne hd hsrc hn
  · exact fun n hn => bury_field_of_ne Node.defersTo hne hd hsrc hn
  · rw [bury_node hne hd hsrc, if_pos rfl]
    exact ⟨rfl, rfl⟩
  · refine representative_congr ?_ hmt
    rw [bury_eq, size_modify, (inherit_rest k src dst).1]
  · exact bury_field Node.interior hne hd hsrc
  · exact bury_field Node.isContent hne hd hsrc
  · intro n hn
    rw [bury_node hne hd hsrc]
    by_cases hns : n = src
    · rw [if_pos hns]
      rfl
    · rw [hmerged] at hn
      have hgn : (g.node n).merged = true := by simpa [hns] using hn
      have hnd : n ≠ dst := fun e => by
        rw [e, h.waiting.dst_live] at hgn
        cases hgn
      rw [if_neg hns, if_neg hnd]
      refine h.ready.tomb_usePoints n ?_
      rw [h.moves.merged, h.matched.merged]
      exact hgn
  · exact (inherit_rest k src dst).2.2.1

namespace Buried

variable (hb : Buried g k g' src dst)
include hb

theorem target? (hn : n ≠ src) : g'.target? n = k.target? n :=
  congrArg Pointee.target? (hb.pointsTo n hn)

theorem target?_src : g'.target? src = none :=
  target?_eq_none_iff.mpr hb.tomb.1

theorem content? (hn : n ≠ src) : g'.content? n = k.content? n := by
  rw [content?_eq, content?_eq, hb.target? hn]
  exact congrArg (Option.map · _) (funext hb.representative)

theorem ne_src (hs : (g'.target? n).isSome) : n ≠ src := by
  rintro rfl
  rw [hb.target?_src] at hs
  cases hs

theorem defers (hd : g'.Defers n m) : n ≠ src ∧ k.Defers n m := by
  have hn : n ≠ src := by
    rintro rfl
    rw [Defers, hb.tomb.2] at hd
    cases hd
  exact ⟨hn, by rw [Defers, ← hb.defersTo n hn]; exact hd⟩

/-- Defer edges are kept, under their new names. -/
theorem renamed (hd : Renamed g src dst n m) : n = m ∨ g'.Defers n m := by
  obtain ⟨a, b, hab, rfl, rfl⟩ := hd
  exact hb.carries.defers a b hab

theorem renamed_path (hp : ReflTransGen (Renamed g src dst) n m) : ReflTransGen g'.Defers n m := by
  induction hp with
  | refl => exact .refl
  | tail _ hs ih =>
    rcases hb.renamed hs with rfl | hd
    · exact ih
    · exact ih.tail hd

theorem renamedWeb_path (hp : RenamedWeb g src dst n m) : ReflTransGen (g'.Bridge f t) n m := by
  induction hp with
  | refl => exact .refl
  | tail _ hs ih =>
    rcases hs with hs | hs
    · rcases hb.renamed hs with rfl | hd
      · exact ih
      · exact ih.tail (.inl (.inl hd))
    · rcases hb.renamed hs with rfl | hd
      · exact ih
      · exact ih.tail (.inl (.inr hd))

end Buried

section Bridge

variable (h : Merging g k₀ k src dst f t x) (hal : Aligned k src dst x)
  (hb : Buried g k g' src dst)
include h hb

/-- If `src` had a content, `dst` has one. -/
theorem Merging.isSome_dst (hs : (g.target? src).isSome) : (k.target? dst).isSome := by
  -- setting out from `dst`, content passes along the old defer edges
  have hpass : ∀ a b, ReflTransGen (Renamed g src dst) a b → a ≠ src → (k.target? b).isSome →
      (k.target? a).isSome := by
    intro a b hp ha hb'
    induction hp using Relation.ReflTransGen.head_induction_on with
    | refl => exact hb'
    | @head u v huv hp ih =>
      have hv : v ≠ src := by
        obtain ⟨-, w, -, -, rfl⟩ := huv
        exact rename_ne h.waiting.ne w
      rcases hb.renamed huv with rfl | hd
      · exact ih ha
      · exact (h.ready.isSome_joined ha hv (.inl (hb.defers hd).2) not_false).mpr (ih hv)
  obtain ⟨e, hp, he⟩ := h.waiting.progress src hs
  have hp' : ReflTransGen (Renamed g src dst) (rename src dst src) (rename src dst e) :=
    hp.lift (rename src dst) fun a b hab => ⟨a, b, hab, rfl, rfl⟩
  rw [rename_src] at hp'
  by_cases hes : e = src
  · rw [hes] at he
    rw [HasEdge, ← h.matched.source, ← h.moves.source] at he
    obtain ⟨e', hp'', he'⟩ := h.ready.anchored he
    exact hpass dst e' hp'' h.waiting.ne he'.target?_isSome
  · rw [rename_self hes] at hp'
    exact hpass dst e hp' h.waiting.ne (h.ready.keeps e hes he.target?_isSome)

/-- Old contents, under the new name of the node. -/
theorem Merging.content?_rename {ρ : NodeId → NodeId} {y : NodeId}
    (hkept : ∀ n y, n ≠ src → g.content? n = some y → k.content? n = some (ρ y))
    (hown : ∀ y, g.content? src = some y → (k.content? dst).isSome → k.content? dst = some (ρ y))
    (hy : g.content? n = some y) : g'.content? (rename src dst n) = some (ρ y) := by
  rw [hb.content? (rename_ne h.waiting.ne n)]
  by_cases hn : n = src
  · rw [hn] at hy
    rw [hn, rename_src]
    refine hown y hy ?_
    rw [content?_eq, Option.isSome_map]
    refine h.isSome_dst hb ?_
    rw [← Option.isSome_map, ← content?_eq, hy]
    rfl
  · rw [rename_self hn]
    exact hkept n y hn hy

/-- Ways across the bridge are kept, under their new names. -/
theorem Merging.bridge_path {a b : NodeId} (hp : ReflTransGen (g.Bridge f t) a b) :
    ReflTransGen (g'.Bridge (rename src dst f) (rename src dst t)) (rename src dst a)
      (rename src dst b) := by
  induction hp with
  | refl => exact .refl
  | @tail u v _ huv ih =>
    rcases huv with (hd | hd) | ⟨rfl, rfl⟩ | ⟨rfl, rfl⟩
    · rcases hb.renamed ⟨u, v, hd, rfl, rfl⟩ with e | hd'
      · exact e ▸ ih
      · exact ih.tail (.inl (.inl hd'))
    · rcases hb.renamed ⟨v, u, hd, rfl, rfl⟩ with e | hd'
      · exact e ▸ ih
      · exact ih.tail (.inl (.inr hd'))
    · exact ih.tail (.inr (.inl ⟨rfl, rfl⟩))
    · exact ih.tail (.inr (.inr ⟨rfl, rfl⟩))

/-- A node with a content belongs to the web of `dst`, and then the content was the one of `src` or
`dst`, or it had another content before. -/
theorem Merging.conn_cases {ρ : NodeId → NodeId} {c : NodeId}
    (hkept : ∀ n y, n ≠ src → g.content? n = some y → k.content? n = some (ρ y))
    (hown : ∀ y, g.content? src = some y → (k.content? dst).isSome → k.content? dst = some (ρ y))
    (hn : g'.content? n = some c) :
    (ReflTransGen (g'.Bridge (rename src dst f) (rename src dst t)) n dst ∧
      ∃ y, (g.content? src = some y ∨ g.content? dst = some y) ∧ c = ρ y) ∨
    n ≠ src ∧ ∃ y, g.content? n = some y ∧ c = ρ y ∧
      ¬ (g.content? src = some y ∨ g.content? dst = some y) := by
  have hns : n ≠ src := hb.ne_src (by
    rw [← Option.isSome_map, ← content?_eq, hn]
    rfl)
  rw [hb.content? hns] at hn
  cases hy : g.content? n with
  | some y =>
    have hcy : c = ρ y := by
      rw [hkept n y hns hy] at hn
      exact (Option.some.inj hn).symm
    by_cases hend : g.content? src = some y ∨ g.content? dst = some y
    · refine .inl ⟨?_, y, hend, hcy⟩
      rcases hend with hs | hd
      · have := h.bridge_path hb (h.waiting.conn n src y hy hs)
        rwa [rename_self hns, rename_src] at this
      · have := h.bridge_path hb (h.waiting.conn n dst y hy hd)
        rwa [rename_self hns, rename_self h.waiting.ne] at this
    · exact .inr ⟨hns, y, rfl, hcy, hend⟩
  | none =>
    -- a node that had no content has the one of `dst`
    have hweb : RenamedWeb g src dst n dst := by
      refine h.ready.fresh n hns ?_ ?_
      · rwa [content?_eq, Option.map_eq_none_iff] at hy
      · rw [← Option.isSome_map, ← content?_eq, hn]
        rfl
    have hd : k.content? dst = some c := by
      rw [← h.ready.filled n hns hy (by rw [hn]; rfl), hn]
    refine .inl ⟨hb.renamedWeb_path hweb, ?_⟩
    rcases h.ready.origin (by rw [hd]; rfl) with hs | hs
    · obtain ⟨y, hy⟩ := Option.isSome_iff_exists.mp hs
      rw [hkept dst y h.waiting.ne hy] at hd
      exact ⟨y, .inr hy, (Option.some.inj hd).symm⟩
    · obtain ⟨y, hy⟩ := Option.isSome_iff_exists.mp hs
      rw [hown y hy (by rw [hd]; rfl)] at hd
      exact ⟨y, .inl hy, (Option.some.inj hd).symm⟩

/-- Nodes with one content belong to one web once the bridge is built, as before the merge. -/
theorem Merging.conn {c : NodeId} (hn : g'.content? n = some c) (hm : g'.content? m = some c) :
    ReflTransGen (g'.Bridge (rename src dst f) (rename src dst t)) n m := by
  obtain ⟨ρ, hkept, hown, hinj, -⟩ := h.follow
  -- the contents of `src` and `dst` have become no other content
  have hsep : ∀ n y z, g.content? n = some y → (g.content? src = some z ∨ g.content? dst = some z) →
      ρ y = ρ z → g.content? src = some y ∨ g.content? dst = some y := by
    rintro n y z hy hz e
    have hz' : ∃ m, g.content? m = some z := hz.elim (fun hz => ⟨src, hz⟩) fun hz => ⟨dst, hz⟩
    obtain ⟨m, hm⟩ := hz'
    rcases hinj n m y z hy hm e with rfl | ⟨hy, -⟩
    · exact hz
    · exact hy
  rcases h.conn_cases hb hkept hown hn with ⟨hpn, z, hz, hcz⟩ | ⟨hns, y, hy, hcy, hno⟩ <;>
    rcases h.conn_cases hb hkept hown hm with ⟨hpm, z', hz', hcz'⟩ | ⟨hms, y', hy', hcy', hno'⟩
  · exact hpn.trans (Bridge.path_symm hpm)
  · exact absurd (hsep m y' z hy' hz (hcy'.symm.trans hcz)) hno'
  · exact absurd (hsep n y z' hy hz' (hcy.symm.trans hcz')) hno
  · rcases hinj n m y y' hy hy' (hcy.symm.trans hcy') with rfl | ⟨hend, -⟩
    · have := h.bridge_path hb (h.waiting.conn n m y hy hy')
      rwa [rename_self hns, rename_self hms] at this
    · exact absurd hend hno

include hal

/-- **The webs after a merge.** -/
theorem Merging.bridged :
    Bridged g' (· ∈ g'.pending) (rename src dst f) (rename src dst t) := by
  obtain ⟨ρ, hkept, hown, -, -⟩ := h.follow
  have hw := h.waiting
  obtain ⟨y, hy⟩ := Option.isSome_iff_exists.mp hw.filled
  have hf := h.content?_rename hb hkept hown hy
  have ht := h.content?_rename hb hkept hown (hw.level ▸ hy)
  refine {
    toShape := hb.shape
    tomb_usePoints := hb.tomb_usePoints
    target_live := fun n c hc => ?_
    target_content := fun n c hc => ?_
    agree := fun n m hd => ?_
    progress := fun n hs => ?_
    from_has := hb.carries.has f hw.from_has
    from_live := hb.carries.live f hw.from_has hw.from_live
    to_has := hb.carries.has t hw.to_has
    to_live := hb.carries.live t hw.to_has hw.to_live
    level := by rw [hf, ht]
    filled := by rw [hf]; rfl
    conn := fun n m c hn hm => h.conn hb hn hm }
  · have hn := hb.ne_src (by rw [hc]; rfl)
    rw [hb.target? hn] at hc
    have hcs : c ≠ src := fun e => h.target?_ne_src hal hn (e ▸ hc)
    have hcl := h.ready.target_live n c hn hc
    rw [h.moves.merged, h.matched.merged] at hcl
    rw [hb.merged, hcl]
    simp [hcs]
  · have hn := hb.ne_src (by rw [hc]; rfl)
    rw [hb.target? hn] at hc
    rw [hb.isContent]
    exact h.ready.target_content n c hn hc
  · obtain ⟨hn, hd⟩ := hb.defers hd
    have hm : m ≠ src := (h.ready.linked.defer n m hn hd).1
    rw [hb.target? hn, hb.target? hm]
    exact h.agree hal hn hm (.inl hd)
  · have hn := hb.ne_src hs
    rw [hb.target? hn] at hs
    have hedge : ∀ e, e ≠ src → k.HasEdge e → g'.HasEdge e := fun e hes he => by
      rw [HasEdge, hb.pointsTo e hes]
      exact he
    obtain ⟨e, hp, he⟩ := h.ready.progress n hn hs
    -- A path to an edge of `src` goes on to where that edge went.
    rcases he with he | ⟨rfl, he⟩
    · exact ⟨e, hb.renamed_path hp, hedge e (ne_of_renamed hw.ne hn hp) he⟩
    · obtain ⟨e', hp', he'⟩ := h.ready.anchored he
      exact ⟨e', hb.renamed_path (hp.trans hp'), hedge e' (ne_of_renamed hw.ne hw.ne hp') he'⟩

omit hal in
/-- An interior node has a content, or it is to take over one that has. -/
theorem Merging.interior (hfurnished : FurnishedBy g src dst) (hl : (g'.node n).merged = false)
    (hi : (g'.node n).interior = true) : (g'.target? n).isSome ∨ ∃ c d,
    Scheduled g k₀ src dst c d ∧ n = d ∧
      (g'.target? (rename src dst c)).isSome := by
  have hw := h.waiting
  have hset : ∀ m, m ≠ src → (g.node m).merged = false → (g.node m).interior = true →
      (k.target? m).isSome := by
    intro m hm hml hmi
    rcases hfurnished m hml hmi with hs | ⟨rfl, hs⟩
    · exact h.ready.keeps m hm hs
    · exact h.isSome_dst hb hs
  rw [hb.merged, Bool.or_eq_false_iff, decide_eq_false_iff_not] at hl
  obtain ⟨hn, hl⟩ := hl
  rw [hb.interior, h.moves.interior] at hi
  rw [hb.target? hn]
  rcases h.matched.plan with ⟨hidle, -⟩ | ⟨c, d, hsch⟩
  · exact .inl (hset n hn hl (by rwa [hidle.interior] at hi))
  · rcases hsch.interior n hi with hi | ⟨rfl, hs | hs | hi⟩
    · exact .inl (hset n hn hl hi)
    · exact .inl (h.moves.sets n hn hs)
    · refine .inr ⟨c, n, hsch, rfl, ?_⟩
      rw [hb.target? (rename_ne hw.ne c)]
      exact h.moves.sets _ (rename_ne hw.ne c) hs
    · refine .inr ⟨c, n, hsch, rfl, ?_⟩
      rw [hb.target? (rename_ne hw.ne c)]
      exact hset _ (rename_ne hw.ne c) (hw.live_rename (hw.target_live src c hsch.content)) hi

/-- If a node points to what is scheduled, the bridge leads from there to what it is to be merged
with. -/
theorem Merging.crossing {c d : NodeId} (hsch : Scheduled g k₀ src dst c d)
    (hn : g'.target? n = some (rename src dst c)) :
    g'.target? (rename src dst f) = some (rename src dst c) ∧
        g'.target? (rename src dst t) = some d ∨
      g'.target? (rename src dst f) = some d ∧
        g'.target? (rename src dst t) = some (rename src dst c) := by
  have hw := h.waiting
  have hlinks : (k.node (rename src dst c)).mergeTo = some d := by
    rw [h.moves.mergeTo, hsch.mergeTo, if_pos rfl]
  have hns : n ≠ src := hb.ne_src (by rw [hn]; rfl)
  rw [hb.target? hns] at hn
  -- one end points to what is scheduled, and the other end does not
  have hends : ∃ a b, (a = f ∧ b = t ∨ a = t ∧ b = f) ∧ a ≠ src ∧
      k.target? a = some (rename src dst c) ∧
      k.target? (rename src dst b) ≠ some (rename src dst c) := by
    have hdst : k.target? dst ≠ some (rename src dst c) := fun e => by
      rw [h.ready.settled _ e] at hlinks
      cases hlinks
    by_cases hx : x = dst
    · have hcd : rename src dst c ≠ dst := fun e => by
        have := h.ready.rep_dst.trans hx
        rw [h.ready.forest.representative_eq_self_iff, ← e, hlinks] at this
        cases this
      have hcs : c ≠ src := fun e => hcd (by rw [e, rename_src])
      rw [rename_self hcs] at hn hcd hdst hlinks ⊢
      have hstays : ¬ Settles g k₀ src dst c := fun hs => by
        rw [h.moves.mergeTo, hs.1] at hlinks
        cases hlinks
      obtain ⟨a, b, hab, ⟨has, ha⟩, hb', -⟩ := h.trapped hsch.content hcs hcd hstays hns hn
      refine ⟨a, b, hab, has, ha, ?_⟩
      by_cases hbs : b = src
      · rw [hbs, rename_src]
        exact hdst
      · rw [rename_self hbs]
        exact fun e => hb' ⟨hbs, e⟩
    · obtain ⟨c', hsch', hc'⟩ := h.scheduled_dst hx
      cases hsch.content.symm.trans hsch'.content
      rw [hc'] at hn hdst ⊢
      obtain ⟨a, b, hab, ha, hb', -⟩ :=
        h.unsettled_trapped hx ⟨hns, dst, hn, h.dst_links hx⟩
      refine ⟨a, b, hab, ha.1, target?_of_edge (h.unsettled_alone hx hal ha).1, ?_⟩
      by_cases hbs : b = src
      · rw [hbs, rename_src]
        exact hdst
      · rw [rename_self hbs]
        exact fun e => hb' ⟨hbs, dst, e, h.dst_links hx⟩
  obtain ⟨a, b, hab, has, ha, hb'⟩ := hends
  have hbr := h.bridged hal hb
  have ha' : g'.target? (rename src dst a) = some (rename src dst c) := by
    rw [rename_self has, hb.target? has]
    exact ha
  -- the other end points to something that what is scheduled will become
  have hlevel : g'.content? (rename src dst b) = g'.content? (rename src dst a) := by
    rcases hab with ⟨rfl, rfl⟩ | ⟨rfl, rfl⟩
    · exact hbr.level.symm
    · exact hbr.level
  have hrep : g'.representative (rename src dst c) = d := by
    have hl := hsch.links hw h.matched.size
    rw [hb.representative, h.moves.representative, hl.representative hw.forest,
      representative_of_root hl.root_src, if_pos rfl]
  have hbd : g'.target? (rename src dst b) = some d := by
    rw [content?_eq g' (rename src dst a), ha', Option.map_some, hrep] at hlevel
    obtain ⟨u, hu, hur⟩ := Option.map_eq_some_iff.mp hlevel
    have hu : g'.target? (rename src dst b) = some u := hu
    rw [hu]
    have hul := hbr.target_live _ u hu
    rw [hb.merged, Bool.or_eq_false_iff, decide_eq_false_iff_not] at hul
    have hroot : (k₀.node u).mergeTo = none := by
      by_contra hm
      rcases h.waits (by rw [h.matched.merged]; exact hul.2) (Option.isSome_iff_ne_none.mpr hm) with
        e | ⟨c', d', hsch', e⟩
      · exact hul.1 e
      · cases hsch.content.symm.trans hsch'.content
        rw [hb.target? (rename_ne hw.ne b), e] at hu
        exact hb' hu
    rw [hb.representative, h.moves.representative, representative_of_root hroot] at hur
    rw [hur]
  rcases hab with ⟨rfl, rfl⟩ | ⟨rfl, rfl⟩
  · exact .inl ⟨ha', hbd⟩
  · exact .inr ⟨hbd, ha'⟩

end Bridge

/-! ### All merges -/

/-- Every node that has a content in `g` has, carried on to `ψ`, what represents that content in
`g'`. -/
def KeepsContents (g g' : Graph) (ψ : NodeId → NodeId) : Prop :=
  ∀ n y, g.content? n = some y → g'.content? (ψ n) = some (g'.representative y)

instance (g g' : Graph) (ψ : NodeId → NodeId) : Decidable (KeepsContents g g' ψ) :=
  decidable_of_iff (∀ n ∈ g.nodeIds, ∀ y ∈ g.content? n,
    g'.content? (ψ n) = some (g'.representative y))
    ⟨fun h n y hy => h n (mem_nodeIds.mpr (has_of_content? hy)) y hy, fun h n _ => h n⟩

/-- The webs are in order up to the bridge, and nothing is pending. -/
structure Joinable (g : Graph) (f t : NodeId) : Prop extends Bridged g nobody f t where
  settled : g.pending = []

/-- **What a merge comes to.** Nothing is pending afterwards, or one more merge. Contents are kept,
unless the content of `src` is forgotten; then nothing is pending. -/
theorem Waiting.absorb (h : Waiting g src dst f t) (hp : g.pending = []) :
    ∃ g', g.absorb src = .ok g' ∧ g'.liveCount < g.liveCount ∧ Carries g g' (rename src dst) ∧
      (Joinable g' (rename src dst f) (rename src dst t) ∧ (FurnishedBy g src dst → Furnished g') ∨
        ∃ s d, g'.pending = [s] ∧ Waiting g' s d (rename src dst f) (rename src dst t) ∧
          (FurnishedBy g src dst → FurnishedBy g' s d)) ∧
      (¬ g.Drops src dst → KeepsContents g g' (rename src dst)) ∧
      (g.Drops src dst → g'.pending = [] ∧ ¬ KeepsContents g g' (rename src dst)) ∧
      ∀ m y, g'.content? m = some y →
        ∃ n, (g.content? n).isSome ∧ g'.content? (rename src dst n) = some y := by
  obtain ⟨k₀, k, x, hm, hal, hok⟩ := h.run
  have hb := hm.buried hp hok
  have hbr := hm.bridged hal hb
  obtain ⟨ρ, hkept, hown, -, hρ⟩ := hm.follow
  have hsrc : g.Has src := h.has_of_waits rfl
  refine ⟨k.bury src dst, hok, liveCount_lt hb.size hsrc h.src_live hb.merged,
    hb.carries, ?_, ?_, ?_, ?_⟩
  · rcases hm.matched.plan with ⟨hi, -⟩ | ⟨c, d, hsch⟩
    · have hpend : (k.bury src dst).pending = [] := by
        rw [hb.pending, hm.moves.pending, hi.pending, hp]
      refine .inl ⟨⟨by simpa only [hpend, List.not_mem_nil] using hbr, hpend⟩,
        fun hfurnished n hl hin => ?_⟩
      rcases hm.interior hb hfurnished hl hin with hs | ⟨c, d, hsch, -⟩
      · exact hs
      · have hpc := hsch.pending
        rw [hi.pending, hp] at hpc
        cases hpc
    · have hpend : (k.bury src dst).pending = [rename src dst c] := by
        rw [hb.pending, hm.moves.pending, hsch.pending, hp]
      have hl := hsch.links h hm.matched.size
      have hmt : ∀ n, ((k.bury src dst).node n).mergeTo =
          if n = rename src dst c then some d else (g.node n).mergeTo := fun n => by
        rw [hb.mergeTo, hm.moves.mergeTo, hsch.mergeTo]
      have hcon : ∀ n, ((k.bury src dst).node n).isContent = (g.node n).isContent := fun n => by
        rw [hb.isContent, hm.moves.isContent, hm.matched.isContent]
      refine .inr ⟨rename src dst c, d, hpend, ?_, fun hfurnished n hln hin => ?_⟩
      · exact {
          toBridged := by simpa only [hpend, List.mem_singleton] using hbr
          link := by rw [hmt, if_pos rfl]
          root := by
            rw [hmt, if_neg (Ne.symm hsch.ne)]
            exact hl.root_dst
          src_content := by
            rw [hcon]
            exact h.content_rename (h.target_content src c hsch.content)
          dst_content := by
            rw [hcon]
            obtain ⟨d₀, hd₀, hd⟩ := Option.map_eq_some_iff.mp hsch.meets
            rw [← hd, h.representative_live (h.target_live dst d₀ hd₀)]
            exact h.content_rename (h.target_content dst d₀ hd₀)
          crossing := fun n hn => hm.crossing hal hb hsch hn }
      · rcases hm.interior hb hfurnished hln hin with hs | ⟨c', d', hsch', rfl, hs⟩
        · exact .inl hs
        · cases hsch.content.symm.trans hsch'.content
          cases hsch.meets.symm.trans hsch'.meets
          exact .inr ⟨rfl, hs⟩
  · intro hnd n y hy
    rw [hm.content?_rename hb hkept hown hy, hρ hnd, hb.representative]
  · intro hdr
    constructor
    · rcases hm.matched.plan with ⟨hi, -⟩ | ⟨c, d, hsch⟩
      · rw [hb.pending, hm.moves.pending, hi.pending, hp]
      · -- what is scheduled would be represented by something else
        have hl := hsch.links h hm.matched.size
        have hrep := hm.matched.still hdr (rename src dst c)
        rw [hl.representative h.forest, representative_of_root hl.root_src, if_pos rfl] at hrep
        exact absurd hrep.symm hsch.ne
    · intro hkeep
      obtain ⟨hd, c, hc, hcs, hcd⟩ := hdr
      have hdr : g.Drops src dst := ⟨hd, c, hc, hcs, hcd⟩
      have hy : g.content? src = some c := by
        rw [h.content?_eq_rename, target?_of_inferred hc, Option.map_some, rename_self hcs]
      have hnew := hkeep src c hy
      rw [rename_src, hb.content? h.ne, hm.ready.drop hdr, hb.representative, hm.ready.still hdr,
        h.representative_live (h.target_live src c (target?_of_inferred hc)),
        rename_self hcs] at hnew
      exact hcd (Option.some.inj hnew).symm
  · intro m y hy
    have hms : m ≠ src := hb.ne_src (by
      rw [content?_eq] at hy
      obtain ⟨c, hc, -⟩ := Option.map_eq_some_iff.mp hy
      rw [hc]
      rfl)
    cases hgm : g.content? m with
    | some y' => exact ⟨m, by rw [hgm]; rfl, by rwa [rename_self hms]⟩
    | none =>
      -- the node has the content that the merged node has
      have hkm : k.content? m = some y := by rwa [← hb.content? hms]
      have hkd := hm.ready.filled m hms hgm (by rw [hkm]; rfl)
      have hd : (k.bury src dst).content? dst = some y := by
        rw [hb.content? h.ne, ← hkd, hkm]
      rcases hm.ready.origin (by rw [← hkd, hkm]; rfl) with ho | ho
      · exact ⟨dst, ho, by rwa [rename_self h.ne]⟩
      · exact ⟨src, ho, by rwa [rename_src]⟩

/-- Nodes with one content still have one content once the webs around them are merged. -/
theorem Bridged.content?_carried {pend : NodeId → Prop} {ψ : NodeId → NodeId} {a b c : NodeId}
    (h : Bridged g pend f t) (h' : Bridged g' nobody (ψ f) (ψ t)) (hc : Carries g g' ψ)
    (ha : g.content? a = some c) (hb : g.content? b = some c) :
    g'.content? (ψ a) = g'.content? (ψ b) := by
  have hstep : ∀ u v, g.Defers u v → g'.content? (ψ u) = g'.content? (ψ v) := fun u v huv => by
    rcases hc.defers u v huv with e | hd
    · rw [e]
    · rw [content?_eq, content?_eq, h'.agree _ _ hd]
  have hpath := h.conn a b c ha hb
  clear hb
  induction hpath with
  | refl => rfl
  | @tail u v _ huv ih =>
    rw [ih]
    rcases huv with (hd | hd) | ⟨rfl, rfl⟩ | ⟨rfl, rfl⟩
    · exact hstep u v hd
    · exact (hstep v u hd).symm
    · exact h'.level
    · exact h'.level.symm

/-- Some merge, among the next ones, forgets a content. -/
def ForgetsUpTo : Nat → Graph → Prop
  | 0, _ => False
  | bound + 1, g => ∃ n rest, g.pending = n :: rest ∧
    (Drops { g with pending := rest } n (g.representative n) ∨
      ∃ g', { g with pending := rest }.absorb n = .ok g' ∧ ForgetsUpTo bound g')

/-- Carrying out the pending merges forgets a content. -/
def Forgets (g : Graph) : Prop := ForgetsUpTo (g.pending.length + g.size) g

theorem KeepsContents.trans {g'' : Graph} {ψ χ : NodeId → NodeId} (h : KeepsContents g g' ψ)
    (h' : KeepsContents g' g'' χ) (hm : ∀ n y, g.content? n = some y →
      g''.representative (g'.representative y) = g''.representative y) :
    KeepsContents g g'' (χ ∘ ψ) := by
  intro n y hy
  rw [Function.comp_apply, h' _ _ (h n y hy), hm n y hy]

theorem settleUpTo_nil (hp : g.pending = []) (bound : Nat) : settleUpTo bound g = .ok g := by
  cases bound with
  | zero => rfl
  | succ bound =>
    unfold settleUpTo
    rw [hp]
    rfl

/-- Carrying out merges one after the other, as long as each leaves at most one to do. -/
theorem settleUpTo_waiting (bound : Nat) (g : Graph) (s d f t : NodeId) (hp : g.pending = [s])
    (hw : Waiting g s d f t) (hle : g.liveCount ≤ bound) :
    ∃ g' ψ, settleUpTo bound g = .ok g' ∧ Joinable g' (ψ f) (ψ t) ∧ (FurnishedBy g s d →
    Furnished g') ∧ Carries g g' ψ ∧ (KeepsContents g g' ψ ↔ ¬ ForgetsUpTo bound g) := by
  -- Each merge leaves fewer live nodes, which is what the bound counts.
  induction bound generalizing g s d f t with
  | zero =>
    have hmem : s ∈ g.liveNodes := mem_liveNodes.mpr ⟨hw.has_of_waits rfl, hw.src_live⟩
    have := List.length_pos_of_mem hmem
    rw [liveCount] at hle
    omega
  | succ bound ih =>
    have hw₀ := hw.setPending []
    obtain ⟨g₁, hok, hlt, hc, hout, hkeep, hdrop, htrace⟩ := hw₀.absorb rfl
    have hc₀ : Carries g g₁ (rename s d) := hc.ofSetPending
    have hcon : ∀ n, Graph.content? { g with pending := [] } n = g.content? n := fun n => by
      rw [content?_eq, content?_eq]
      exact congrArg (Option.map · _) (funext (representative_congr (by rfl) fun _ => by rfl))
    have hkeeps : KeepsContents { g with pending := [] } g₁ (rename s d) ↔
        KeepsContents g g₁ (rename s d) := by
      simp only [KeepsContents, hcon]
    have hforget : ForgetsUpTo (bound + 1) g ↔
        Drops { g with pending := [] } s d ∨ ForgetsUpTo bound g₁ := by
      constructor
      · rintro ⟨n, rest, hpn, hor⟩
        rw [hp] at hpn
        cases hpn
        rw [hw.representative_src] at hor
        refine hor.imp_right ?_
        rintro ⟨g', hok', hf⟩
        cases hok.symm.trans hok'
        exact hf
      · intro hor
        refine ⟨s, [], hp, ?_⟩
        rw [hw.representative_src]
        exact hor.imp_right fun hf => ⟨g₁, hok, hf⟩
    have hunfold : settleUpTo (bound + 1) g = settleUpTo bound g₁ := by
      conv_lhs => unfold settleUpTo
      rw [hp]
      dsimp only
      rw [hok, ok_bind]
    rcases hout with ⟨hj, hfurnished⟩ | ⟨s', d', hp', hw', hfurnished⟩
    -- It was the last merge.
    · refine ⟨g₁, rename s d, by rw [hunfold, settleUpTo_nil hj.settled], hj, hfurnished, hc₀, ?_⟩
      have hno : ¬ ForgetsUpTo bound g₁ := by
        cases bound with
        | zero => exact id
        | succ bound =>
          rintro ⟨n, rest, hpn, -⟩
          rw [hj.settled] at hpn
          cases hpn
      rw [hforget, ← hkeeps]
      by_cases hd : Drops { g with pending := [] } s d
      · exact iff_of_false (hdrop hd).2 fun hnot => hnot (.inl hd)
      · exact iff_of_true (hkeep hd) fun hor => hor.elim hd hno
    -- Another merge is left, so this one has forgotten nothing.
    · obtain ⟨g', ψ, hok', hj, hfurnished', hc', hiff⟩ := ih g₁ s' d' _ _ hp' hw' (by
        have : Graph.liveCount { g with pending := [] } = g.liveCount := rfl
        omega)
      have hnd : ¬ Drops { g with pending := [] } s d := fun hd => by
        rw [(hdrop hd).1] at hp'
        cases hp'
      refine ⟨g', ψ ∘ rename s d, hunfold.trans hok', hj, fun h => hfurnished' (hfurnished h),
        hc₀.trans hc' hw.toShape hw'.toShape, ?_⟩
      rw [hforget]
      have hk₁ : KeepsContents g g₁ (rename s d) := hkeeps.mp (hkeep hnd)
      have hmerge : ∀ n y, g.content? n = some y →
          g'.representative (g₁.representative y) = g'.representative y :=
        fun n y hy => hc'.merge y (hc₀.has_mono (hw.has_content hy))
      rw [or_iff_right hnd, ← hiff]
      constructor
      · intro hk m y hy
        obtain ⟨n, hn, hny⟩ := htrace m y hy
        obtain ⟨c, hnc⟩ := Option.isSome_iff_exists.mp hn
        rw [hcon] at hnc
        rw [hw'.toBridged.content?_carried hj.toBridged hc' hy hny]
        rw [hk₁ n c hnc] at hny
        cases hny
        rw [hmerge n c hnc]
        exact hk n c hnc
      · exact fun hk => hk₁.trans hk hmerge

end Escape.Graph
