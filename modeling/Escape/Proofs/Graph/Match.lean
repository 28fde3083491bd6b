import Escape.Proofs.Graph.Rejoin

/-!
# Matching contents

The first part of a merge. The merged node is cut off, its edge passes on to `dst`, and the contents
of both are scheduled to be merged, unless they are the same.
-/

namespace Escape.Graph

variable {g k k' : Graph} {src dst f t n m d x : NodeId}

/-- A node that pointed to `d` has an edge to it under its new name, or still has it by inference.
-/
def Known (g k : Graph) (src dst : NodeId) : Prop :=
  ∀ n d, n ≠ src → g.target? n = some d → (k.node n).pointsTo = .edge (rename src dst d) ∨
    (k.node n).pointsTo = .inferred d ∧ (g.node n).pointsTo = .inferred d

namespace Known

theorem target? (h : Known g k src dst) (hn : n ≠ src) (hd : g.target? n = some d) :
    k.target? n = some d ∨ k.target? n = some (rename src dst d) := by
  rcases h n d hn hd with e | ⟨e, -⟩
  · exact .inr (target?_of_edge e)
  · exact .inl (target?_of_inferred e)

theorem hasEdge (h : Known g k src dst) (hn : n ≠ src) (he : g.HasEdge n) : k.HasEdge n := by
  obtain ⟨d, hd⟩ := hasEdge_iff.mp he
  rcases h n d hn (target?_of_edge hd) with e | ⟨-, e⟩
  · exact hasEdge_iff.mpr ⟨_, e⟩
  · rw [hd] at e
    cases e

/-- Contents are known if merge links are the same as before. -/
theorem content? (h : Known g k src dst) (hw : Waiting g src dst f t) (hr : Rewires g k)
    (hn : n ≠ src) (hd : g.target? n = some d) : k.content? n = g.content? n := by
  have hdl := hw.target_live n d hd
  have hrn : g.representative (rename src dst d) = rename src dst d := by
    rw [← hw.representative_live hdl]
    exact hw.forest.representative_representative d
  rw [hr.content?, content?_eq, hd, Option.map_some, hw.representative_live hdl]
  rcases h.target? hn hd with e | e
  · rw [e, Option.map_some, hw.representative_live hdl]
  · rw [e, Option.map_some, hrn]

end Known

theorem rename_self (h : n ≠ src) : rename src dst n = n := if_neg h

theorem rename_src (src dst : NodeId) : rename src dst src = dst := if_pos rfl

/-- What an old name stands for is called the old or the new name. -/
theorem alias_rename {u : NodeId} (hu : u = d ∨ u = rename src dst d) :
    u = rename src dst d ∨ Alias src dst x u ∧ d = src := by
  rcases hu with rfl | rfl
  · by_cases h : u = src
    · exact .inr ⟨.inl h, h⟩
    · exact .inl (rename_self h).symm
  · exact .inl rfl

namespace Waiting

variable (h : Waiting g src dst f t)
include h

theorem has_dst : g.Has dst := has_of_isContent h.dst_content

theorem src_links : (g.node src).mergeTo.isSome := by
  rw [h.link]
  rfl

theorem live_rename (hn : (g.node n).merged = false) :
    (g.node (rename src dst n)).merged = false := by
  unfold rename
  split
  · exact h.dst_live
  · exact hn

theorem content_rename (hn : (g.node n).isContent) : (g.node (rename src dst n)).isContent := by
  unfold rename
  split
  · exact h.dst_content
  · exact hn

/-- A live node other than `src` has no merge link. -/
theorem mergeTo_live (hn : (g.node n).merged = false) (hns : n ≠ src) :
    (g.node n).mergeTo = none := by
  by_contra hm
  exact hns ((h.waits n).mpr ⟨hn, Option.isSome_iff_ne_none.mpr hm⟩)

theorem mergeTo_rename (hn : (g.node n).merged = false) :
    (g.node (rename src dst n)).mergeTo = none :=
  h.mergeTo_live (h.live_rename hn) (rename_ne h.ne n)

/-- The node `dst` represents `src` and itself while nothing else is scheduled. -/
theorem stage (hr : Rewires g k) : Stage k src dst dst where
  ne := h.ne
  dst_live := (hr.merged dst).trans h.dst_live
  dst_content := (hr.isContent dst).trans h.dst_content
  rep_dst := (hr.representative dst).trans (representative_of_root h.root)
  rep_src := (hr.representative src).trans h.representative_src
  roots c hc hcc := by
    rw [hr.merged] at hc ⊢
    rw [hr.isContent] at hcc ⊢
    rw [hr.representative, h.representative_live hc]
    exact ⟨h.live_rename hc, h.content_rename hcc⟩

/-- The rules in the middle of a merge hold of a graph with known contents. -/
theorem midway (hm : Mid k src) (hr : Rewires g k)
    (hdef : ∀ a b, k.Defers a b ↔ g.Defers a b ∧ b ≠ src) (hknown : Known g k src dst)
    (hnone : ∀ n, n ≠ src → g.target? n = none → k.target? n = none)
    (hsrc : (k.node src).pointsTo = (g.node src).pointsTo)
    (huse : ∀ n, (k.node n).usePoints = (g.node n).usePoints) :
    Midway g k src dst dst fun _ _ => False := by
  have hold : ∀ n c, n ≠ src → k.target? n = some c → ∃ d, g.target? n = some d ∧
      (c = d ∨ c = rename src dst d) := by
    intro n c hn hc
    cases hd : g.target? n with
    | none =>
      rw [hnone n hn hd] at hc
      cases hc
    | some d =>
      refine ⟨d, rfl, ?_⟩
      rcases hknown.target? hn hd with e | e
      · exact .inl (Option.some.inj (hc.symm.trans e))
      · exact .inr (Option.some.inj (hc.symm.trans e))
  refine ⟨hm, h.stage hr, ?_, ?_, ?_, ?_, ?_, ?_, ?_, ?_⟩
  · intro n c hn hc
    rw [hr.merged]
    obtain ⟨d, hd, rfl | rfl⟩ := hold n c hn hc
    · exact h.target_live n c hd
    · exact h.live_rename (h.target_live n d hd)
  · intro n c hn hc
    rw [hr.isContent]
    obtain ⟨d, hd, rfl | rfl⟩ := hold n c hn hc
    · exact h.target_content n c hd
    · exact h.content_rename (h.target_content n d hd)
  · intro a b ha hb hj _
    have hagree : g.target? a = g.target? b := by
      refine h.agree_joined ?_
      exact hj.imp (fun hd => ((hdef a b).mp hd).1) fun hd => ((hdef b a).mp hd).1
    cases hd : g.target? a with
    | none => exact .inl (by rw [hnone a ha hd, hnone b hb (hagree.symm.trans hd)])
    | some d =>
      -- both names are the old or the new one, and those differ for `src` only
      have hcase : ∀ n, n ≠ src → g.target? n = some d → ∃ u, k.target? n = some u ∧
          (u = rename src dst d ∨ Alias src dst dst u ∧ d = src) := by
        intro n hn hnd
        rcases hknown.target? hn hnd with e | e
        · exact ⟨d, e, alias_rename (.inl rfl)⟩
        · exact ⟨_, e, .inl rfl⟩
      obtain ⟨u, hu, hua⟩ := hcase a ha hd
      obtain ⟨v, hv, hva⟩ := hcase b hb (hagree.symm.trans hd)
      have hnew : d = src → Alias src dst dst (rename src dst d) := fun e =>
        .inr (.inl (by rw [e, rename_src]))
      rcases hua with rfl | ⟨hua, e⟩
      · rcases hva with rfl | ⟨hva, e⟩
        · exact .inl (hu.trans hv.symm)
        · exact .inr ⟨_, v, ⟨hu, hnew e⟩, hv, hva⟩
      · rcases hva with rfl | ⟨hva, -⟩
        · exact .inr ⟨u, _, ⟨hu, hua⟩, hv, hnew e⟩
        · exact .inr ⟨u, v, ⟨hu, hua⟩, hv, hva⟩
  · intro a b ha hd
    obtain ⟨hd, hb⟩ := (hdef a b).mp hd
    exact ⟨a, b, hd, rename_self ha, rename_self hb⟩
  · intro n hn hs
    obtain ⟨d, hd⟩ := Option.isSome_iff_exists.mp hs
    rcases hknown.target? hn hd with e | e <;> rw [e] <;> rfl
  · intro n hn hd hs
    rw [hnone n hn hd] at hs
    cases hs
  · intro n hn hs
    obtain ⟨c, hc⟩ := Option.isSome_iff_exists.mp hs
    obtain ⟨d, hd, -⟩ := hold n c hn hc
    obtain ⟨e, hp, he⟩ := h.progress n (by rw [hd]; rfl)
    have hp' : ReflTransGen (Renamed g src dst) (rename src dst n) (rename src dst e) :=
      hp.lift (rename src dst) fun a b hab => ⟨a, b, hab, rfl, rfl⟩
    rw [rename_self hn] at hp'
    refine ⟨_, hp', ?_⟩
    by_cases hes : e = src
    · exact .inr ⟨by rw [hes, rename_src], by rw [HasEdge, hsrc, ← HasEdge, ← hes]; exact he⟩
    · rw [rename_self hes]
      exact .inl (hknown.hasEdge hes he)
  · intro n hn
    rw [huse]
    exact h.tomb_usePoints n (by rwa [hr.merged] at hn)

end Waiting

section

variable (hc : CutOff g k src dst)
include hc

theorem CutOff.known : Known g k src dst := by
  intro n d hn hd
  rw [hc.pointsTo n hn]
  rcases target?_eq_some_iff.mp hd with e | e
  · rw [e]
    exact .inr ⟨rfl, rfl⟩
  · rw [e]
    by_cases hds : d = src
    · rw [if_pos (by rw [hds]), hds, rename_src]
      exact .inl rfl
    · rw [if_neg fun e => hds (Pointee.edge.inj e), rename_self hds]
      exact .inl rfl

variable (hw : Waiting g src dst f t)
include hw

/-- Cutting the node off. -/
theorem CutOff.midway : Midway g k src dst dst fun _ _ => False := by
  refine hw.midway (hc.mid hw.toShape hw.has_dst hw.src_links) hc.toRewires
    (fun a b => hc.defers_iff) hc.known (fun n hn hd => ?_) hc.pointsTo_src hc.usePoints
  rw [target?_eq_none_iff] at hd ⊢
  rw [hc.pointsTo n hn, hd]
  rfl

omit hw in
theorem CutOff.target?_none (hn : n ≠ src) : g.target? n = none ↔ k.target? n = none := by
  rw [target?_eq_none_iff, target?_eq_none_iff, hc.pointsTo n hn]
  by_cases h : (g.node n).pointsTo = .edge src
  · rw [if_pos h, h]
    simp
  · rw [if_neg h]

/-! ### The edge of the merged node -/

omit hw in
omit hc in
/-- The graph once `src` is cut off and its edge has passed on to `dst`. Nodes that had no content
have the one of `dst` if they have any, and that comes from `src`. -/
structure Taken (g k : Graph) (src dst : NodeId) : Prop
    extends Midway g k src dst dst (fun _ _ => False), Rewires g k where
  known : Known g k src dst
  unknown : ∀ n z, n ≠ src → g.target? n = none → k.target? n = some z → k.target? dst = some z ∧
    g.target? dst = none ∧ ∃ c, (g.node src).pointsTo = .edge c ∧ z = rename src dst c
  defers : ∀ a b, g.Defers a b → b ≠ src → k.Defers a b
  source : (k.node src).pointsTo = (g.node src).pointsTo
  inferred : ¬ g.HasEdge src → ∀ n d, n ≠ src → (g.node n).pointsTo = .inferred d →
    (k.node n).pointsTo = .inferred d
  taken : g.HasEdge src → ∃ c, k.target? dst = some c ∧ c ≠ src
  anchored : k.HasEdge src → ∃ e, ReflTransGen (Renamed g src dst) dst e ∧ k.HasEdge e

/-- Nothing has to be done if `src` has no edge, or `dst` has one. -/
theorem CutOff.taken (h : g.HasEdge src → k.HasEdge dst) : Taken g k src dst where
  toMidway := hc.midway hw
  toRewires := hc.toRewires
  known := hc.known
  unknown n z hn hd hz := by
    rw [(hc.target?_none hn).mp hd] at hz
    cases hz
  defers a b hd hb := hc.defers_iff.mpr ⟨hd, hb⟩
  source := hc.pointsTo_src
  inferred _ n d hn hd := by rw [hc.pointsTo n hn, hd]; rfl
  taken he := by
    obtain ⟨c, hcd⟩ := hasEdge_iff.mp (h he)
    exact ⟨c, target?_of_edge hcd, (hc.linked.edge dst c hw.ne hcd).1⟩
  anchored he := by
    rw [HasEdge, hc.pointsTo_src] at he
    exact ⟨dst, .refl, h he⟩

/-- An inferred content of `dst` becomes an edge. -/
theorem CutOff.taken_link {c : NodeId}
    (hsrc : (k.node src).pointsTo = .edge c) (hd : (k.node dst).pointsTo = .inferred d) :
    Taken g (k.linkEdge dst (rename src dst d)) src dst := by
  have hm := hc.midway hw
  have hok : k.takeEdge src dst = .ok (k.linkEdge dst (rename src dst d)) := by
    unfold takeEdge
    rw [hsrc, hd]
    rfl
  have hasd : k.Has dst := hm.has_dst
  obtain ⟨hmid, -⟩ := takeEdge_advances hm.toMid hw.ne hasd hm.dst_live (fun e he => by
    rw [target?, hc.pointsTo_src] at he
    exact hc.toRewires.has.mpr (hw.target_has src e he)) hok
  have ha := assigns_linkEdge (c := rename src dst d) hasd
  have hgd : (g.node dst).pointsTo = .inferred d := by
    have := hc.pointsTo dst hw.ne
    rw [hd] at this
    split at this
    · cases this
    · exact this.symm
  have hdst : ((k.linkEdge dst (rename src dst d)).node dst).pointsTo =
      .edge (rename src dst d) := by
    rw [ha.pointsTo, if_pos rfl]
  have hother : ∀ n, n ≠ dst → ((k.linkEdge dst (rename src dst d)).node n).pointsTo =
      (k.node n).pointsTo := fun n hn => by rw [ha.pointsTo, if_neg hn]
  have hknown : Known g (k.linkEdge dst (rename src dst d)) src dst := by
    intro n d' hn hd'
    by_cases hnd : n = dst
    · rw [hnd, target?_of_inferred hgd] at hd'
      cases hd'
      exact .inl (hnd ▸ hdst)
    · rw [hother n hnd]
      exact hc.known n d' hn hd'
  -- Only `dst` changes, and it had a content before.
  have hnone : ∀ n, n ≠ src → g.target? n = none →
      (k.linkEdge dst (rename src dst d)).target? n = none := by
    intro n hn hg
    have hnd : n ≠ dst := by
      rintro rfl
      rw [target?_of_inferred hgd] at hg
      cases hg
    rw [target?, hother n hnd]
    exact (hc.target?_none hn).mp hg
  have hsrc' : ((k.linkEdge dst (rename src dst d)).node src).pointsTo = (g.node src).pointsTo := by
    rw [hother src hw.ne.symm, hc.pointsTo_src]
  have hedge : g.HasEdge src := hasEdge_iff.mpr ⟨c, hc.pointsTo_src.symm.trans hsrc⟩
  have hr := hc.toRewires.trans ha.toRewires
  refine ⟨hw.midway hmid hr (fun a b => ?_) hknown hnone hsrc' (fun n => ?_), hr, hknown, ?_,
    fun a b hab hb => ?_, hsrc', fun hno => absurd hedge hno,
    fun _ => ⟨_, target?_of_edge hdst, rename_ne hw.ne d⟩,
    fun _ => ⟨dst, .refl, hasEdge_iff.mpr ⟨_, hdst⟩⟩⟩
  · rw [Defers, ha.defersTo]
    exact hc.defers_iff
  · rw [linkEdge, node_modify_field Node.usePoints, node_modify_field Node.usePoints, hc.usePoints]
  · intro n z hn hg hz
    rw [hnone n hn hg] at hz
    cases hz
  · rw [Defers, ha.defersTo]
    exact hc.defers_iff.mpr ⟨hab, hb⟩

/-- The content of `src` becomes the content of `dst` and the web around it. -/
theorem CutOff.taken_spread {c : NodeId}
    (hsrc : (k.node src).pointsTo = .edge c) (hd : (k.node dst).pointsTo = .none) :
    ∃ k', k.spread dst (rename src dst c) true = .ok k' ∧ Taken g k' src dst := by
  have hm := hc.midway hw
  have hr := hc.toRewires
  have hgsrc : (g.node src).pointsTo = .edge c := hc.pointsTo_src.symm.trans hsrc
  have hcl := hw.target_live src c (target?_of_edge hgsrc)
  have hcc := hw.target_content src c (target?_of_edge hgsrc)
  have hbare : k.target? dst = none := target?_eq_none_iff.mpr hd
  have hgbare : g.target? dst = none := (hc.target?_none hw.ne).mpr hbare
  obtain ⟨k', V, hok, hV, hVweb, hm', hv⟩ := hm.spread (z := rename src dst c) true hw.ne hm.has_dst
    hm.dst_live hbare ((hr.mergeTo _).trans (hw.mergeTo_rename hcl))
    ((hr.merged _).trans (hw.live_rename hcl)) ((hr.isContent _).trans (hw.content_rename hcc))
    (fun _ _ => False.elim) (.inl rfl)
  have hVdst : V dst := hV.covers dst .refl
  have hset : ∀ n d, n ≠ src → g.target? n = some d → (k'.node n).pointsTo = (k.node n).pointsTo :=
    fun n d hn hg => hV.pointsTo_of_isSome (by
      rcases hc.known.target? hn hg with e | e <;> rw [e] <;> rfl)
  refine ⟨k', hok, hm', hr.trans hV.toRewires, fun n d hn hg => ?_, fun n z hn hg hz => ?_,
    fun a b hab hb => hv.defers a b (hc.defers_iff.mpr ⟨hab, hb⟩), hv.source.trans hc.pointsTo_src,
    fun hno => absurd (hasEdge_iff.mpr ⟨c, hgsrc⟩) hno,
    fun _ => ⟨_, hV.target dst hVdst, rename_ne hw.ne c⟩, fun _ => ?_⟩
  · rw [hset n d hn hg]
    exact hc.known n d hn hg
  · by_cases hVn : V n
    · rw [hV.target n hVn] at hz
      cases hz
      exact ⟨hV.target dst hVdst, hgbare, c, hgsrc, rfl⟩
    · rw [hV.toFills.target?_of_not hVn, (hc.target?_none hn).mp hg] at hz
      cases hz
  · -- the web around `dst` had no content, so it has an edge now
    obtain ⟨e, hp, he⟩ := hV.grounded dst hVdst
    have hnone : ∀ e, ReflTransGen k.Defers dst e → k.target? e = none := by
      intro e hp
      induction hp with
      | refl => exact hbare
      | @tail a b hp hab ih =>
        have ha := (hm.renamed_of_defers hw.ne hp).2
        have hb := (hm.linked.defer a b ha hab).1
        have hiff := hm.isSome_joined ha hb (.inl hab) not_false
        rw [ih] at hiff
        simpa using hiff
    obtain ⟨hp', -⟩ := hm.renamed_of_defers hw.ne hp
    rcases he with he | he
    · exact ⟨e, hp', he⟩
    · rw [hnone e hp] at he
      cases he

/-- **The edge of `src` passes on to `dst`.** -/
theorem CutOff.takeEdge : ∃ k', k.takeEdge src dst = .ok k' ∧ Taken g k' src dst := by
  have hno : ∀ p, (k.node src).pointsTo = p → p.isEdge = false → ¬ g.HasEdge src :=
    fun p hp he h => by
    rw [HasEdge, ← hc.pointsTo_src, hp, he] at h
    cases h
  unfold Graph.takeEdge
  cases hsrc : (k.node src).pointsTo with
  | none => exact ⟨k, rfl, hc.taken hw fun h => absurd h (hno _ hsrc rfl)⟩
  | inferred c => exact ⟨k, rfl, hc.taken hw fun h => absurd h (hno _ hsrc rfl)⟩
  | edge c =>
    cases hd : (k.node dst).pointsTo with
    | none => exact hc.taken_spread hw hsrc hd
    | inferred d => exact ⟨_, rfl, hc.taken_link hw hsrc hd⟩
    | edge d => exact ⟨k, rfl, hc.taken hw fun _ => hasEdge_iff.mpr ⟨d, hd⟩⟩

end

/-! ### The contents of both sides -/

/-- Nothing was scheduled. -/
structure Idle (g k : Graph) : Prop where
  mergeTo : ∀ n, (k.node n).mergeTo = (g.node n).mergeTo
  pending : k.pending = g.pending
  interior : ∀ n, (k.node n).interior = (g.node n).interior

/-- The content `c` of `src`, under its new name, was scheduled to be merged into `d`. -/
structure Scheduled (g k : Graph) (src dst c d : NodeId) : Prop where
  content : g.target? src = some c
  meets : g.content? dst = some d
  ne : rename src dst c ≠ d
  ne_src : d ≠ src
  mergeTo : ∀ n, (k.node n).mergeTo =
    if n = rename src dst c then some d else (g.node n).mergeTo
  pending : k.pending = rename src dst c :: g.pending
  interior : ∀ n, (k.node n).interior = true → (g.node n).interior = true ∨ n = d ∧
    ((k.target? d).isSome ∨ (k.target? (rename src dst c)).isSome ∨
      (g.node (rename src dst c)).interior = true)

/-- The graph once the contents of `src` and `dst` are matched. -/
structure Matched (g k : Graph) (src dst x : NodeId) : Prop extends Tracked g k src dst x where
  known : Known g k src dst
  unknown : ∀ n z, n ≠ src → g.target? n = none → k.target? n = some z → Settles g k src dst z
  root : ∀ c, k.target? dst = some c → c ≠ src → (k.node c).mergeTo = none
  plan : Idle g k ∧ x = dst ∨ ∃ c d, Scheduled g k src dst c d
  merged : ∀ n, (k.node n).merged = (g.node n).merged
  isContent : ∀ n, (k.node n).isContent = (g.node n).isContent
  defers : ∀ a b, g.Defers a b → b ≠ src → k.Defers a b
  source : (k.node src).pointsTo = (g.node src).pointsTo
  size : k.size = g.size

/-- What is scheduled becomes one merge link. -/
theorem Scheduled.links {c : NodeId} (h : Scheduled g k src dst c d) (hw : Waiting g src dst f t)
    (hs : k.size = g.size) : Links g k (rename src dst c) d := by
  have hcl := hw.target_live src c h.content
  obtain ⟨d₀, hd₀, hd⟩ := Option.map_eq_some_iff.mp h.meets
  have hdl := hw.target_live dst d₀ hd₀
  rw [hw.representative_live hdl] at hd
  refine ⟨hs, hw.mergeTo_rename hcl, ?_, h.ne, ?_, h.mergeTo⟩
  · rw [← hd]
    exact hw.mergeTo_rename hdl
  · rw [← hd]
    exact rename_has hw.has_dst (hw.target_has dst d₀ hd₀)

namespace Taken

theorem representative_rename (hw : Waiting g src dst f t) (h : Taken g k src dst)
    (hn : (g.node n).merged = false) : k.representative (rename src dst n) = rename src dst n := by
  rw [h.toRewires.representative, representative_of_root (hw.mergeTo_rename hn)]

variable (h : Taken g k src dst)
include h

/-- What `dst` points to is its old content, or the content of `src`. -/
theorem target?_dst (hd : k.target? dst = some d) :
    (∃ d₀, g.target? dst = some d₀ ∧ (d = d₀ ∨ d = rename src dst d₀)) ∨
      ∃ c, (g.node src).pointsTo = .edge c ∧ d = rename src dst c := by
  cases hg : g.target? dst with
  | none =>
    obtain ⟨-, -, hc⟩ := h.unknown dst d h.ne hg hd
    exact .inr hc
  | some d₀ =>
    refine .inl ⟨d₀, rfl, ?_⟩
    rcases h.known.target? h.ne hg with e | e
    · exact .inl (Option.some.inj (hd.symm.trans e))
    · exact .inr (Option.some.inj (hd.symm.trans e))

/-- If `dst` points to `src` in the end, both have their contents by inference. -/
theorem inferred_of_src (hd : k.target? dst = some src) :
    (g.node dst).pointsTo = .inferred src ∧ ¬ g.HasEdge src := by
  have hno : ¬ g.HasEdge src := fun he => by
    obtain ⟨c, hc, hne⟩ := h.taken he
    rw [hd] at hc
    exact hne (Option.some.inj hc).symm
  refine ⟨?_, hno⟩
  cases hg : g.target? dst with
  | none =>
    obtain ⟨-, -, c, hc, -⟩ := h.unknown dst src h.ne hg hd
    exact absurd (hasEdge_iff.mpr ⟨c, hc⟩) hno
  | some d₀ =>
    rcases h.known dst d₀ h.ne hg with e | ⟨e, eg⟩
    · rw [target?_of_edge e] at hd
      exact absurd (Option.some.inj hd) (rename_ne h.ne d₀)
    · rw [target?_of_inferred e] at hd
      cases hd
      exact eg

/-- The content of `src` is forgotten exactly if `dst` still points to `src`. -/
theorem target?_of_drops (hdr : g.Drops src dst) : k.target? dst = some src := by
  obtain ⟨hd, c, hc, -⟩ := hdr
  refine target?_of_inferred (h.inferred (fun he => ?_) dst src h.ne hd)
  rw [HasEdge, hc] at he
  cases he

variable (hw : Waiting g src dst f t)
include hw

/-- Nothing has to be scheduled if one side has no content, if both have the same, or if `dst`
points to `src`. -/
theorem matched_idle (hidle : ∀ c d, g.target? src = some c → k.target? dst = some d → d ≠ src →
      rename src dst c = d) : Matched g k src dst dst := by
  have hr := h.toRewires
  have hroot : ∀ n y, g.content? n = some y → k.representative y = y := fun n y hy => by
    obtain ⟨u, -, hu⟩ := Option.map_eq_some_iff.mp hy
    rw [hr.representative, ← hu]
    exact hw.forest.representative_representative u
  have hlive : ∀ c, (k.node c).merged = false → c ≠ src → (k.node c).mergeTo = none :=
    fun c hc hcs => (hr.mergeTo c).trans (hw.mergeTo_live ((hr.merged c).symm.trans hc) hcs)
  refine ⟨⟨h.toMidway, ?_, ?_, ?_, ?_, ?_, ?_, ?_, ?_⟩, h.known, ?_, ?_, .inl ⟨⟨?_, ?_, ?_⟩, rfl⟩,
    ?_, ?_, h.defers, h.source, hr.size⟩
  · intro n y hn hy
    obtain ⟨d, hd, -⟩ := Option.map_eq_some_iff.mp hy
    refine .inl ?_
    rw [h.known.content? hw hr hn hd, hy, hroot n y hy]
  · intro n hn hnone hs
    rw [content?_eq, Option.map_eq_none_iff] at hnone
    rw [content?_eq, Option.isSome_map] at hs
    obtain ⟨z, hz⟩ := Option.isSome_iff_exists.mp hs
    rw [content?_eq, content?_eq, hz, (h.unknown n z hn hnone hz).1]
  · intro y hy hs
    obtain ⟨c, hc, rfl⟩ := Option.map_eq_some_iff.mp hy
    rw [content?_eq, Option.isSome_map] at hs
    obtain ⟨d, hd⟩ := Option.isSome_iff_exists.mp hs
    have hcl := hw.target_live src c hc
    rw [hw.representative_live hcl, h.representative_rename hw hcl, content?_eq, hd,
      Option.map_some]
    by_cases hds : d = src
    · -- `dst` points to `src`
      rw [hds] at hd
      obtain ⟨hdi, hno⟩ := h.inferred_of_src hd
      rw [hds, h.rep_src]
      by_cases hcd : rename src dst c = dst
      · exact .inl (by rw [hcd])
      · refine .inr ⟨hdi, c, ?_, fun e => hcd (by rw [e, rename_src]), fun e => hcd ?_⟩
        · rcases target?_eq_some_iff.mp hc with e | e
          · exact e
          · exact absurd (hasEdge_iff.mpr ⟨c, e⟩) hno
        · rw [e, rename_self h.ne]
    · rw [← hidle c d hc hd hds, h.representative_rename hw hcl]
      exact .inl rfl
  · intro hs
    rw [content?_eq, Option.isSome_map] at hs
    obtain ⟨d, hd⟩ := Option.isSome_iff_exists.mp hs
    rw [content?_eq, content?_eq, Option.isSome_map, Option.isSome_map]
    rcases h.target?_dst hd with ⟨d₀, hd₀, -⟩ | ⟨c, hc, -⟩
    · exact .inl (by rw [hd₀]; rfl)
    · exact .inr (by rw [target?_of_edge hc]; rfl)
  · intro hdr
    rw [content?_eq, h.target?_of_drops hdr, Option.map_some, h.rep_src]
  · exact fun _ n => hr.representative n
  · exact fun _ c hc hcs => hlive c hc hcs
  · exact h.anchored
  · intro n z hn hnone hz
    obtain ⟨hzd, -, c, hc, rfl⟩ := h.unknown n z hn hnone hz
    refine ⟨hlive _ (h.target_live n _ hn hz) (rename_ne h.ne c), fun hdr => ?_⟩
    obtain ⟨-, c', hc', -⟩ := hdr
    rw [hc] at hc'
    cases hc'
  · exact fun c hc hcs => hlive c (h.target_live dst c h.ne hc) hcs
  · exact hr.mergeTo
  · exact hr.pending
  · exact hr.interior
  · exact hr.merged
  · exact hr.isContent

/-- Different contents are scheduled to be merged. -/
theorem matched_schedule {c : NodeId}
    (hc : g.target? src = some c) (hd : k.target? dst = some d) (hds : d ≠ src)
    (hne : rename src dst c ≠ d) : ∃ x, Matched g (k.schedule (rename src dst c) d) src dst x := by
  have hr := h.toRewires
  have hcl := hw.target_live src c hc
  have hdl := h.target_live dst d h.ne hd
  have hrc := h.representative_rename hw hcl
  have hdroot : (k.node d).mergeTo = none :=
    (hr.mergeTo d).trans (hw.mergeTo_live ((hr.merged d).symm.trans hdl) hds)
  have hrd : k.representative d = d := representative_of_root hdroot
  have hasc : k.Has (rename src dst c) :=
    hr.has.mpr (rename_has hw.has_dst (hw.target_has src c hc))
  have hasd : k.Has d := h.target_has dst d h.ne hd
  have hlinks : Links k (k.schedule (rename src dst c) d) (rename src dst c) d := by
    have := links_schedule h.forest hasc hasd (by rw [hrc, hrd]; exact hne)
    rwa [hrc, hrd] at this
  have hpend : (k.schedule (rename src dst c) d).pending = rename src dst c :: k.pending := by
    rw [schedule_of_ne (by rw [hrc, hrd]; exact hne), hrc]
  have hsch := schedules_schedule h.forest hasc hasd
  set k' := k.schedule (rename src dst c) d with hk'
  have hrep : ∀ n, k'.representative n =
      if k.representative n = rename src dst c then d else k.representative n :=
    hlinks.representative h.forest
  have hcongr : ∀ n m, k.representative n = k.representative m →
      k'.representative n = k'.representative m := fun n m e =>
    hsch.representative_congr h.forest e
  have htar := hsch.target?
  have hpt := hsch.pointsTo
  have hmap : ∀ n, k'.content? n = (k.target? n).map k'.representative := fun n => by
    rw [content?_eq, htar]
  have hnodrop : ¬ g.Drops src dst := fun hdr => by
    rw [h.target?_of_drops hdr] at hd
    exact hds (Option.some.inj hd).symm
  have hdst : k'.content? dst = some d := by
    rw [hmap, hd, Option.map_some, hrep, hrd, if_neg (Ne.symm hne)]
  have hmid : Midway g k' src dst (k'.representative dst) fun _ _ => False := by
    refine h.schedules hsch fun e he hec => ?_
    rw [hrep]
    split
    · exact ⟨hdl, h.target_content dst d h.ne hd⟩
    · exact h.roots e he hec
  refine ⟨k'.representative dst,
    ⟨⟨hmid, ?_, ?_, ?_, ?_, ?_, ?_, ?_, ?_⟩, ?_, ?_, ?_,
    .inr ⟨c, d, ⟨hc, ?_, hne, hds, ?_, ?_, ?_⟩⟩,
      ?_, ?_, fun a b hab hb => hsch.defers_iff.mpr (h.defers a b hab hb),
      (hpt src).trans h.source, hsch.size.trans hr.size⟩⟩
  · intro n y hn hy
    obtain ⟨u, hu, -⟩ := Option.map_eq_some_iff.mp hy
    have hold : k.content? n = some y := (h.known.content? hw hr hn hu).trans hy
    obtain ⟨v, hv, hvy⟩ := Option.map_eq_some_iff.mp hold
    refine .inl ?_
    rw [hmap, show k.target? n = some v from hv, Option.map_some, ← hvy]
    exact congrArg some (hcongr v _ (h.forest.representative_representative v).symm)
  · intro n hn hnone hs
    rw [content?_eq, Option.map_eq_none_iff] at hnone
    rw [hmap, Option.isSome_map] at hs
    obtain ⟨z, hz⟩ := Option.isSome_iff_exists.mp hs
    rw [hmap, hmap, hz, (h.unknown n z hn hnone hz).1]
  · intro y hy _
    rw [content?_eq, hc, Option.map_some, hw.representative_live hcl] at hy
    cases hy
    refine .inl ?_
    rw [hdst, hrep, hrc, if_pos rfl]
  · intro _
    exact .inr (by rw [content?_eq, hc]; rfl)
  · exact fun hdr => absurd hdr hnodrop
  · exact fun hdr => absurd hdr hnodrop
  · intro hnone
    rw [htar, hd] at hnone
    cases hnone
  · intro he
    obtain ⟨e, hp, hee⟩ := h.anchored (hsch.hasEdge_iff.mp he)
    exact ⟨e, hp, hsch.hasEdge_iff.mpr hee⟩
  · intro n u hn hu
    rw [hpt]
    exact h.known n u hn hu
  · -- nodes without content cannot have got one, since `dst` had its own
    intro n z hn hnone hz
    rw [htar] at hz
    obtain ⟨hzd, -, c', hc', rfl⟩ := h.unknown n z hn hnone hz
    rw [hd] at hzd
    rw [target?_of_edge hc'] at hc
    cases hc
    exact absurd (Option.some.inj hzd).symm hne
  · intro e he _
    rw [htar, hd] at he
    cases he
    rw [hlinks.mergeTo, if_neg (Ne.symm hne)]
    exact hdroot
  · rcases h.target?_dst hd with ⟨d₀, hd₀, hor⟩ | ⟨c', hc', rfl⟩
    · rw [hw.content?_eq_rename, hd₀, Option.map_some]
      rcases hor with rfl | rfl
      · rw [rename_self hds]
      · rfl
    · rw [target?_of_edge hc'] at hc
      cases hc
      exact absurd rfl hne
  · intro n
    rw [hlinks.mergeTo, hr.mergeTo]
  · rw [hpend, hr.pending]
  · intro n hi
    rw [htar, htar]
    rcases schedule_interior hrc hrd hne hi with hi | ⟨rfl, ht | ht | hi⟩
    · exact .inl (by rwa [hr.interior] at hi)
    · exact .inr ⟨rfl, .inl (by rw [ht]; rfl)⟩
    · exact .inr ⟨rfl, .inr (.inl (by rw [ht]; rfl))⟩
    · exact .inr ⟨rfl, .inr (.inr (by rwa [hr.interior] at hi))⟩
  · exact fun n => (hsch.merged n).trans (hr.merged n)
  · exact fun n => (hsch.isContent n).trans (hr.isContent n)

/-- **The contents of both sides are matched.** -/
theorem matchContents : ∃ x, Matched g (k.matchContents src dst (g.target? src)) src dst x := by
  unfold Graph.matchContents
  cases hd : k.target? dst with
  | none => exact ⟨dst, h.matched_idle hw fun c d _ hd' => by rw [hd] at hd'; cases hd'⟩
  | some d =>
    cases hc : g.target? src with
    | none => exact ⟨dst, h.matched_idle hw fun c d hc' => by rw [hc] at hc'; cases hc'⟩
    | some c =>
      dsimp only
      by_cases hds : d = src
      · rw [if_pos hds]
        refine ⟨dst, h.matched_idle hw fun c d' _ hd' hne => absurd ?_ hne⟩
        rw [hd] at hd'
        exact (Option.some.inj hd').symm.trans hds
      · rw [if_neg hds]
        by_cases hne : rename src dst c = d
        · have hcl := hw.target_live src c hc
          rw [schedule_eq_self (by rw [hne])]
          refine ⟨dst, h.matched_idle hw fun c' d' hc' hd' _ => ?_⟩
          rw [hc] at hc'
          rw [hd] at hd'
          cases hc'
          cases hd'
          exact hne
        · exact h.matched_schedule hw hc hd hds hne

end Taken

end Escape.Graph
