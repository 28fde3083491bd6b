import Escape.Proofs.Graph.Align
import Escape.Proofs.Graph.Match

/-!
# Webs after a merge

What the phases of a merge come to. Nodes that have not been given a content that stays are trapped:
they cannot be reached from the merged node except across the bridge. Either there are none, or
there is a single one, which nothing is joined to.

- `Merging.target?_ne_src`: in the end no node points to the merged node.
- `Merging.agree`: in the end joined nodes agree on their content.
- `Merging.follow`: where the contents of the graph before the merge have gone.
-/

namespace Escape.Graph

variable {g k₀ k : Graph} {src dst f t x n m a b : NodeId}

/-- From `g`, in which `src` waits to be merged, contents were matched in `k₀`, and since then nodes
have moved to contents that stay. The neighbours of `src` have done so. -/
structure Merging (g k₀ k : Graph) (src dst f t x : NodeId) : Prop where
  waiting : Waiting g src dst f t
  matched : Matched g k₀ src dst x
  ready : Ready g k src dst x
  moves : Moves k₀ k src (Settles g k₀ src dst)
  near : ∀ o, o ≠ src → g.Joined o src → ∀ c, k.target? o = some c → Settles g k₀ src dst c

namespace Merging

section

variable (h : Merging g k₀ k src dst f t x)
include h

/-- The live nodes with a merge link are `src` and what is scheduled. -/
theorem waits {c : NodeId} (hl : (k₀.node c).merged = false) (hm : (k₀.node c).mergeTo.isSome) :
    c = src ∨ ∃ c₀ d, Scheduled g k₀ src dst c₀ d ∧ c = rename src dst c₀ := by
  by_cases hs : c = src
  · exact .inl hs
  · rw [h.matched.merged] at hl
    have hg := h.waiting.mergeTo_live hl hs
    rcases h.matched.plan with ⟨hi, -⟩ | ⟨c₀, d, hsch⟩
    · rw [hi.mergeTo, hg] at hm
      cases hm
    · refine .inr ⟨c₀, d, hsch, ?_⟩
      by_contra hne
      rw [hsch.mergeTo, if_neg hne, hg] at hm
      cases hm

omit h in
theorem settles_root {z : NodeId} (hz : Settles g k₀ src dst z) : ¬ (k₀.node z).mergeTo.isSome := by
  rw [hz.1]
  exact Bool.false_ne_true

/-- A node without a content that stays points where it did before the merge. -/
theorem unsettled_known (ha : Unsettled k src a) :
    ∃ v d, k.target? a = some v ∧ (k₀.node v).mergeTo.isSome ∧ (k₀.node v).merged = false ∧
      g.target? a = some d ∧ (v = d ∨ v = rename src dst d) ∧
      (k.node a).pointsTo = (k₀.node a).pointsTo := by
  obtain ⟨⟨has, v, hv, hm⟩, hpt⟩ := ha.of_moves h.moves fun z hz => hz.1
  cases hd : g.target? a with
  | none => exact absurd hm (settles_root (h.matched.unknown a v has hd hv))
  | some d =>
    refine ⟨v, d, ?_, hm, h.matched.target_live a v has hv, rfl, ?_, hpt⟩
    · rw [target?, hpt]
      exact hv
    · rcases h.matched.known.target? has hd with e | e
      · exact .inl (Option.some.inj (hv.symm.trans e))
      · exact .inr (Option.some.inj (hv.symm.trans e))

/-- Neighbours of `src` have a content that stays. -/
theorem unsettled_apart (ha : Unsettled k src a) : ¬ g.Joined a src := by
  intro hj
  obtain ⟨v, -, hv, hm, -⟩ := h.unsettled_known ha
  exact settles_root (h.near a ha.1 hj v hv) hm

theorem settled_dst : ¬ Unsettled k src dst := by
  rintro ⟨-, v, hv, hm⟩
  rw [h.ready.settled v hv] at hm
  cases hm

/-- A neighbour of an unsettled node is unsettled, or has an edge to `dst`. -/
theorem unsettled_joined (ha : Unsettled k src a) (hb : b ≠ src) (hj : g.Joined a b) :
    Unsettled k src b ∨ k.HasEdge b ∧ k.target? b = some dst := by
  obtain ⟨v, d, hv, hm, -, hd, -, -⟩ := h.unsettled_known ha
  have hdb : g.target? b = some d := (h.waiting.agree_joined hj).symm.trans hd
  have hj₀ : k₀.Joined a b := hj.imp (h.matched.defers a b · hb) (h.matched.defers b a · ha.1)
  have hsrc : (k₀.node src).mergeTo.isSome := h.matched.src_links
  -- both had the same content, and have it under its old or its new name
  have hbase : ∀ c, k₀.target? a = some c → (k₀.node c).mergeTo.isSome →
      (∃ u, k₀.target? b = some u ∧ (k₀.node u).mergeTo.isSome) ∨
        True ∧ k₀.HasEdge b ∧ k₀.target? b = some dst := by
    intro c hc hmc
    by_cases hds : d = src
    · subst hds
      rcases h.matched.known b d hb hdb with e | ⟨e, -⟩
      · rw [rename_src] at e
        exact .inr ⟨trivial, hasEdge_iff.mpr ⟨_, e⟩, target?_of_edge e⟩
      · exact .inl ⟨d, target?_of_inferred e, hsrc⟩
    · have hname : ∀ n, n ≠ src → g.target? n = some d → k₀.target? n = some d := by
        intro n hn hnd
        rcases h.matched.known.target? hn hnd with e | e
        · exact e
        · rwa [rename_self hds] at e
      rw [hname a ha.1 hd] at hc
      cases hc
      exact .inl ⟨d, hname b hb hdb, hmc⟩
  rcases h.moves.trap (fun z hz => settles_root hz) ha.1 hb hj₀ hbase hv
    hm with ⟨u, hu, hmu⟩ | ⟨-, he⟩
  · exact .inl ⟨hb, u, hu, by rw [h.moves.mergeTo]; exact hmu⟩
  · exact .inr he

/-! ### While `dst` represents itself -/

omit h in
/-- In the end no node points to `src`, if `dst` represents itself. -/
theorem target?_ne_src_root (h : Merging g k₀ k src dst f t dst) (hal : Aligned k src dst dst)
    (hn : n ≠ src) : k.target? n ≠ some src := by
  have hroot : (k₀.node dst).mergeTo = none :=
    h.matched.forest.representative_eq_self_iff.mp h.matched.rep_dst
  have hun : ∀ u, u ≠ src → k.target? u = some src → Unsettled k src u := fun u hu ht =>
    ⟨hu, src, ht, h.ready.src_links⟩
  have hold : ∀ u, u ≠ src → k.target? u = some src → g.target? u = some src := by
    intro u hu ht
    obtain ⟨v, d, hv, -, -, hd, hvd, -⟩ := h.unsettled_known (hun u hu ht)
    rw [ht] at hv
    cases hv
    rcases hvd with rfl | e
    · exact hd
    · exact absurd e.symm (rename_ne h.waiting.ne d)
  intro ht
  obtain ⟨e, hp, he⟩ := h.waiting.progress n (by rw [hold n hn ht]; rfl)
  -- follow the defer edges to the edge that the content comes from
  induction hp using Relation.ReflTransGen.head_induction_on with
  | refl =>
    obtain ⟨v, d, hv, -, -, -, -, hpt⟩ := h.unsettled_known (hun e hn ht)
    rcases h.matched.known e src hn (hold e hn ht) with e' | ⟨-, e'⟩
    · rw [rename_src] at e'
      rw [target?_of_edge (hpt.trans e')] at ht
      exact h.waiting.ne (Option.some.inj ht)
    · rw [HasEdge, e'] at he
      cases he
  | @head u v huv _ ih =>
    by_cases hvs : v = src
    · exact h.unsettled_apart (hun u hn ht) (.inl (hvs ▸ huv))
    · rcases h.unsettled_joined (hun u hn ht) hvs (.inl huv) with hv | ⟨hev, htv⟩
      · refine ih hvs ?_
        obtain ⟨w, d, hw, hmw, -, hd, hwd, -⟩ := h.unsettled_known hv
        rw [← h.waiting.agree u v huv, hold u hn ht] at hd
        cases hd
        rcases hwd with rfl | rfl
        · exact hw
        · rw [rename_src, hroot] at hmw
          cases hmw
      · -- an edge to `dst` has its neighbours point to `dst`
        obtain ⟨c, hc⟩ := hasEdge_iff.mp hev
        rw [target?_of_edge hc] at htv
        cases htv
        have hjk : k.Joined v u :=
          .inr (h.moves.defers u v (h.matched.defers u v huv hvs))
        rw [hal v hvs hc u hjk hn] at ht
        exact h.waiting.ne (Option.some.inj ht)

/-! ### While `dst` is to be merged in turn -/

/-- If something else represents `dst`, the content of `src` is `dst` itself, and it was scheduled.
-/
theorem scheduled_dst (hx : x ≠ dst) :
    ∃ c, Scheduled g k₀ src dst c x ∧ rename src dst c = dst := by
  have hm : (k₀.node dst).mergeTo ≠ none := fun e => hx (by
    rw [← h.matched.rep_dst, representative_of_root e])
  rcases h.matched.plan with ⟨-, e⟩ | ⟨c, d, hsch⟩
  · exact absurd e hx
  · have hc : rename src dst c = dst := by
      by_contra hne
      rw [hsch.mergeTo, if_neg (Ne.symm hne)] at hm
      exact hm h.waiting.root
    obtain ⟨d₀, hd₀, hd⟩ := Option.map_eq_some_iff.mp hsch.meets
    have hdl := h.waiting.target_live dst d₀ hd₀
    rw [h.waiting.representative_live hdl] at hd
    have hdroot : (k₀.node d).mergeTo = none := by
      rw [hsch.mergeTo, if_neg (Ne.symm hsch.ne), ← hd]
      exact h.waiting.mergeTo_rename hdl
    have hlink : (k₀.node dst).mergeTo = some d := by rw [hsch.mergeTo, if_pos hc.symm]
    have hxd : x = d := by
      rw [← h.matched.rep_dst, h.matched.forest.representative_link hlink,
        representative_of_root hdroot]
    exact ⟨c, hxd ▸ hsch, hc⟩

end

section Scheduled

variable (h : Merging g k₀ k src dst f t x) (hx : x ≠ dst)
include h hx

theorem dst_links : (k.node dst).mergeTo.isSome := by
  obtain ⟨c, hsch, hc⟩ := h.scheduled_dst hx
  rw [h.moves.mergeTo, hsch.mergeTo, if_pos hc.symm]
  rfl

section

variable (ha : Unsettled k src a)
include ha

theorem unsettled_closed (hb : b ≠ src) (hj : g.Joined a b) : Unsettled k src b := by
  rcases h.unsettled_joined ha hb hj with hb' | ⟨-, ht⟩
  · exact hb'
  · exact ⟨hb, dst, ht, h.dst_links hx⟩

theorem unsettled_target? : k.target? a = some src ∨ k.target? a = some dst := by
  obtain ⟨c, hsch, hc⟩ := h.scheduled_dst hx
  obtain ⟨v, -, hv, hm, hl, -⟩ := h.unsettled_known ha
  rcases h.waits hl hm with rfl | ⟨c', d', hsch', rfl⟩
  · exact .inl hv
  · have hcc := hsch.content.symm.trans hsch'.content
    cases hcc
    exact .inr (hc ▸ hv)

/-- Unsettled nodes have the content of `src`. -/
theorem unsettled_content? : g.content? a = some dst ∧ g.content? src = some dst := by
  obtain ⟨c, hsch, hc⟩ := h.scheduled_dst hx
  obtain ⟨v, d, hv, -, -, hd, hvd, -⟩ := h.unsettled_known ha
  rw [h.waiting.content?_eq_rename, h.waiting.content?_eq_rename, hsch.content, hd, Option.map_some,
    Option.map_some, hc]
  refine ⟨congrArg some ?_, rfl⟩
  have hv : v = src ∨ v = dst := by
    rcases h.unsettled_target? hx ha with e | e
    · exact .inl (Option.some.inj (hv.symm.trans e))
    · exact .inr (Option.some.inj (hv.symm.trans e))
  rcases hvd with rfl | rfl
  · rcases hv with rfl | rfl
    · exact rename_src _ _
    · exact rename_self h.waiting.ne
  · exact hv.resolve_left (rename_ne h.waiting.ne d)

omit ha in
/-- Unsettled nodes are trapped behind the bridge. -/
theorem unsettled_trapped (hn : Unsettled k src n) :
    ∃ a b, (a = f ∧ b = t ∨ a = t ∧ b = f) ∧ Unsettled k src a ∧ ¬ Unsettled k src b ∧
      ∀ m, Unsettled k src m → ReflTransGen (fun u v => g.Joined u v ∧ Unsettled k src v) m a :=
  h.waiting.trapped (fun hs => hs.1 rfl) (fun _ _ ha hj hb => h.unsettled_closed hx ha hb hj)
    (fun _ ha => h.unsettled_apart ha)
    (fun _ ha => ⟨dst, (h.unsettled_content? hx ha).1, (h.unsettled_content? hx ha).2⟩) hn

/-- Unsettled nodes form one web. -/
theorem unsettled_web (hb : Unsettled k src b) :
    ReflTransGen (fun u v => k.Joined u v ∧ Unsettled k src v) a b := by
  obtain ⟨e, -, -, -, -, hreach⟩ := h.unsettled_trapped hx ha
  have hkeep : ∀ u v, Unsettled k src u → Unsettled k src v → g.Joined u v → k.Joined u v := by
    intro u v hu hv hj
    exact hj.imp (fun hd => h.moves.defers u v (h.matched.defers u v hd hv.1))
      fun hd => h.moves.defers v u (h.matched.defers v u hd hu.1)
  -- go from `a` to the end of the bridge, and the same way back to `b`
  have hpath : ∀ m, Unsettled k src m →
      ReflTransGen (fun u v => k.Joined u v ∧ Unsettled k src v) m e ∧
        ReflTransGen (fun u v => k.Joined u v ∧ Unsettled k src v) e m := by
    intro m hm
    have hp := hreach m hm
    induction hp using Relation.ReflTransGen.head_induction_on with
    | refl => exact ⟨.refl, .refl⟩
    | @head u v huv _ ih =>
      have hj := hkeep u v hm huv.2 huv.1
      exact ⟨(ih huv.2).1.head ⟨hj, huv.2⟩, (ih huv.2).2.tail ⟨hj.symm, hm⟩⟩
  exact (hpath a ha).1.trans (hpath b hb).2

end

/-- Among unsettled nodes there is one with an edge to `dst`. -/
theorem unsettled_edge (hn : Unsettled k src n) :
    ∃ e, Unsettled k src e ∧ (k.node e).pointsTo = .edge dst := by
  obtain ⟨-, d, -, -, -, hd, -, -⟩ := h.unsettled_known hn
  obtain ⟨e, hp, he⟩ := h.waiting.progress n (by rw [hd]; rfl)
  clear hd
  induction hp using Relation.ReflTransGen.head_induction_on with
  | refl =>
    obtain ⟨v, d, hv, hm, hl, hd, -, hpt⟩ := h.unsettled_known hn
    refine ⟨e, hn, ?_⟩
    rcases h.matched.known e d hn.1 hd with e' | ⟨-, e'⟩
    · rw [hpt, e']
      have ht := target?_of_edge (hpt.trans e')
      rcases h.unsettled_target? hx hn with es | es
      · exact absurd (Option.some.inj (ht.symm.trans es)) (rename_ne h.waiting.ne d)
      · rw [Option.some.inj (ht.symm.trans es)]
    · rw [HasEdge, e'] at he
      cases he
  | @head u v huv _ ih =>
    have hvs : v ≠ src := fun e => h.unsettled_apart hn (.inl (e ▸ huv))
    exact ih (h.unsettled_closed hx hn hvs (.inl huv))

variable (hal : Aligned k src dst x)
include hal

/-- In the end there is at most one unsettled node. It has an edge to `dst`, and nothing is joined
to it. -/
theorem unsettled_alone (hn : Unsettled k src n) :
    (k.node n).pointsTo = .edge dst ∧ ∀ m, m ≠ src → ¬ k.Joined n m := by
  obtain ⟨e, he, hedge⟩ := h.unsettled_edge hx hn
  have hnot : ∀ u, Unsettled k src u → ¬ k.Joined e u := by
    intro u hu hj
    obtain ⟨hus, c, hc, hm⟩ := hu
    rw [hal e he.1 hedge u hj hus] at hc
    cases hc
    rw [h.ready.settles_x.1] at hm
    cases hm
  -- a way to the node with the edge would have to end with a neighbour of it
  have hne : n = e := by
    rcases (h.unsettled_web hx he hn).cases_head with e' | ⟨u, hu, -⟩
    · exact e'.symm
    · exact absurd hu.1 (hnot u hu.2)
  subst hne
  refine ⟨hedge, fun m hm hj => hnot m (h.unsettled_closed hx hn hm ?_) hj⟩
  -- the edge was there before the merge
  have hnd : n ≠ dst := fun e => h.settled_dst (e ▸ hn)
  have hname : ∀ u, rename src dst u = n → u = n := by
    intro u hu
    by_cases hus : u = src
    · rw [hus, rename_src] at hu
      exact absurd hu.symm hnd
    · rwa [rename_self hus] at hu
  have hold : ∀ u v, g.Joined u v → rename src dst u = n → rename src dst v = m → g.Joined n m := by
    intro u v huv hu hv
    rw [hname u hu] at huv
    by_cases hvs : v = src
    · exact absurd (hvs ▸ huv) (h.unsettled_apart hn)
    · rw [rename_self hvs] at hv
      exact hv ▸ huv
  rcases hj with hd | hd
  · obtain ⟨u, v, huv, hu, hv⟩ := h.ready.within n m hn.1 hd
    exact hold u v (.inl huv) hu hv
  · obtain ⟨u, v, huv, hu, hv⟩ := h.ready.within m n hm hd
    exact hold v u (.inr huv) hv hu

end Scheduled

/-! ### Where contents have gone -/

section

variable (h : Merging g k₀ k src dst f t x)
include h

/-- Nodes that keep the content `c` of `src`, although it does not stay, are trapped behind the
bridge. -/
theorem trapped {c : NodeId} (hc : g.target? src = some c)
    (hcs : c ≠ src) (hcd : c ≠ dst) (hstays : ¬ Settles g k₀ src dst c) (hn : n ≠ src)
    (ht : k.target? n = some c) :
    ∃ a b, (a = f ∧ b = t ∨ a = t ∧ b = f) ∧ (a ≠ src ∧ k.target? a = some c) ∧
      ¬ (b ≠ src ∧ k.target? b = some c) ∧ g.target? a = some c := by
  have hZ : ∀ z, Settles g k₀ src dst z → ¬ z = c := fun z hz e => hstays (e ▸ hz)
  have hrc : rename src dst c = c := rename_self hcs
  have hbase : ∀ a, a ≠ src → (k₀.target? a = some c ↔ g.target? a = some c) := by
    intro a ha
    constructor
    · intro ht
      cases hg : g.target? a with
      | none => exact absurd rfl (hZ c (h.matched.unknown a c ha hg ht))
      | some d =>
        rcases h.matched.known.target? ha hg with e | e
        · rw [← e, ht]
        · rw [ht] at e
          have e := Option.some.inj e
          by_cases hds : d = src
          · rw [hds, rename_src] at e
            exact absurd e hcd
          · rw [rename_self hds] at e
            rw [e]
    · intro hg
      rcases h.matched.known.target? ha hg with e | e
      · exact e
      · rwa [hrc] at e
  have hold : ∀ a, a ≠ src → k.target? a = some c → g.target? a = some c := by
    intro a ha ht
    have hpt := h.moves.target?_eq ha ht hstays
    exact (hbase a ha).mp (by rw [target?, ← hpt]; exact ht)
  -- Nodes that keep `c` are joined to nodes that keep it, except for `src`.
  have hclosed : ∀ a b, (a ≠ src ∧ k.target? a = some c) → g.Joined a b → b ≠ src →
      b ≠ src ∧ k.target? b = some c := by
    rintro a b ⟨has, hta⟩ hj hb
    have hgb := (h.waiting.agree_joined hj).symm.trans (hold a has hta)
    have hj₀ : k₀.Joined a b := hj.imp (h.matched.defers a b · hb) (h.matched.defers b a · has)
    have hb₀ : ∀ u, k₀.target? a = some u → u = c → (∃ d, k₀.target? b = some d ∧ d = c) ∨
        False ∧ k₀.HasEdge b ∧ k₀.target? b = some dst :=
      fun _ _ _ => .inl ⟨c, (hbase b hb).mpr hgb, rfl⟩
    rcases h.moves.trap hZ has hb hj₀ hb₀ hta rfl with ⟨d, hd, rfl⟩ | ⟨hf, -⟩
    · exact ⟨hb, hd⟩
    · exact hf.elim
  have hapart : ∀ a, (a ≠ src ∧ k.target? a = some c) → ¬ g.Joined a src := by
    rintro a ⟨has, hta⟩ hj
    exact hstays (h.near a has hj c hta)
  have hclass : ∀ a, (a ≠ src ∧ k.target? a = some c) →
      ∃ y, g.content? a = some y ∧ g.content? src = some y := by
    rintro a ⟨has, hta⟩
    refine ⟨c, ?_, ?_⟩
    · rw [h.waiting.content?_eq_rename, hold a has hta, Option.map_some, hrc]
    · rw [h.waiting.content?_eq_rename, hc, Option.map_some, hrc]
  obtain ⟨a, b, hab, ha, hb, -⟩ :=
    h.waiting.trapped (fun hs => hs.1 rfl) hclosed hapart hclass ⟨hn, ht⟩
  exact ⟨a, b, hab, ha, hb, hold a ha.1 ha.2⟩

/-- If the content `c` of `src` is forgotten, no other node has it in the end: the bridge leads from
the web of `src` to the web of `dst`, so nothing with another content is behind it. -/
theorem target?_ne_of_drops (hdr : g.Drops src dst) {c : NodeId}
    (hc : (g.node src).pointsTo = .inferred c) (hn : n ≠ src) : k.target? n ≠ some c := by
  obtain ⟨hd, c', hc', hcs, hcd⟩ := hdr
  have hdr : g.Drops src dst := ⟨hd, c', hc', hcs, hcd⟩
  rw [hc] at hc'
  cases hc'
  intro ht
  obtain ⟨a, b, hab, -, -, hga⟩ := h.trapped (target?_of_inferred hc) hcs hcd
    (fun hs => hcd (hs.2 hdr)) hn ht
  rcases h.waiting.crossing dst (target?_of_inferred hd) with ⟨hf, ht'⟩ | ⟨hf, ht'⟩ <;>
    rcases hab with ⟨rfl, rfl⟩ | ⟨rfl, rfl⟩
  · exact hcs (Option.some.inj (hga.symm.trans hf))
  · exact hcd (Option.some.inj (hga.symm.trans ht'))
  · exact hcd (Option.some.inj (hga.symm.trans hf))
  · exact hcs (Option.some.inj (hga.symm.trans ht'))

/-- What a node points to is its own representative. -/
theorem representative_content? {y : NodeId}
    (hy : g.content? n = some y) : g.representative y = y := by
  obtain ⟨u, -, hu⟩ := Option.map_eq_some_iff.mp hy
  rw [← hu]
  exact h.waiting.forest.representative_representative u

/-- **Where the contents before the merge have gone.** Contents that have become the same were the
contents of `src` and `dst`. If none is forgotten, each has gone to what represents it. -/
theorem follow : ∃ ρ : NodeId → NodeId,
    (∀ n y, n ≠ src → g.content? n = some y → k.content? n = some (ρ y)) ∧
    (∀ y, g.content? src = some y → (k.content? dst).isSome → k.content? dst = some (ρ y)) ∧
    (∀ n m y z, g.content? n = some y → g.content? m = some z → ρ y = ρ z → y = z ∨
      (g.content? src = some y ∨ g.content? dst = some y) ∧
      (g.content? src = some z ∨ g.content? dst = some z)) ∧
    (¬ g.Drops src dst → ρ = k.representative) := by
  by_cases hdr : g.Drops src dst
  -- The content `c` of `src` is forgotten; `dst` takes its place.
  · obtain ⟨hd, c, hc, hcs, hcd⟩ := hdr
    have hdr : g.Drops src dst := ⟨hd, c, hc, hcs, hcd⟩
    have hsrc : g.content? src = some c := by
      rw [h.waiting.content?_eq_rename, target?_of_inferred hc, Option.map_some, rename_self hcs]
    have hdst : g.content? dst = some dst := by
      rw [h.waiting.content?_eq_rename, target?_of_inferred hd, Option.map_some, rename_src]
    have hno : ∀ n, n ≠ src → k.content? n ≠ some c := by
      intro n hn hk
      obtain ⟨u, hu, hur⟩ := Option.map_eq_some_iff.mp hk
      have hul : (g.node u).merged = false := by
        rw [← h.matched.merged, ← h.moves.merged]
        exact h.ready.target_live n u hn hu
      rw [h.ready.still hdr, h.waiting.representative_live hul] at hur
      by_cases hus : u = src
      · rw [hus, rename_src] at hur
        exact hcd hur.symm
      · rw [rename_self hus] at hur
        rw [hur] at hu
        exact h.target?_ne_of_drops hdr hc hn hu
    refine ⟨fun y => if y = c then dst else y, fun n y hn hy => ?_, fun y hy _ => ?_,
      fun n m y z hy hz e => ?_, fun hnd => absurd hdr hnd⟩
    · dsimp only
      rcases h.ready.kept n y hn hy with e | ⟨-, e, e'⟩
      · rw [h.ready.still hdr, h.representative_content? hy] at e
        have hyc : y ≠ c := fun hyc => hno n hn (hyc ▸ e)
        rw [if_neg hyc, e]
      · rw [hsrc] at e
        cases e
        rw [if_pos rfl, e']
    · rw [hsrc] at hy
      cases hy
      dsimp only
      rw [if_pos rfl]
      exact h.ready.drop hdr
    · dsimp only at e
      by_cases hyc : y = c
      · rw [if_pos hyc] at e
        by_cases hzc : z = c
        · exact .inl (hyc.trans hzc.symm)
        · rw [if_neg hzc] at e
          exact .inr ⟨.inl (hyc ▸ hsrc), .inr (e ▸ hdst)⟩
      · rw [if_neg hyc] at e
        by_cases hzc : z = c
        · rw [if_pos hzc] at e
          exact .inr ⟨.inr (e ▸ hdst), .inl (hzc ▸ hsrc)⟩
        · rw [if_neg hzc] at e
          exact .inl e
  -- Nothing is forgotten: contents meet only if they were scheduled to.
  · refine ⟨k.representative, fun n y hn hy => ?_, fun y hy hs => ?_, fun n m y z hy hz e => ?_,
      fun _ => rfl⟩
    · exact (h.ready.kept n y hn hy).resolve_right fun hd => hdr hd.1
    · exact (h.ready.own y hy hs).resolve_right hdr
    · rw [h.moves.representative, h.moves.representative] at e
      have hry := h.representative_content? hy
      have hrz := h.representative_content? hz
      rcases h.matched.plan with ⟨hi, -⟩ | ⟨c, d, hsch⟩
      · rw [representative_congr h.matched.size hi.mergeTo,
          representative_congr h.matched.size hi.mergeTo, hry, hrz] at e
        exact .inl e
      · have hl := hsch.links h.waiting h.matched.size
        have hcs : g.content? src = some (rename src dst c) := by
          rw [h.waiting.content?_eq_rename, hsch.content, Option.map_some]
        rw [hl.representative h.waiting.forest, hl.representative h.waiting.forest, hry, hrz] at e
        by_cases hyc : y = rename src dst c
        · rw [if_pos hyc] at e
          by_cases hzc : z = rename src dst c
          · exact .inl (hyc.trans hzc.symm)
          · rw [if_neg hzc] at e
            exact .inr ⟨.inl (hyc ▸ hcs), .inr (e ▸ hsch.meets)⟩
        · rw [if_neg hyc] at e
          by_cases hzc : z = rename src dst c
          · rw [if_pos hzc] at e
            exact .inr ⟨.inr (e ▸ hsch.meets), .inl (hzc ▸ hcs)⟩
          · rw [if_neg hzc] at e
            exact .inl e

end

/-! ### In the end -/

section Aligned

variable (h : Merging g k₀ k src dst f t x) (hal : Aligned k src dst x)
include h hal

/-- **In the end no node points to the merged node.** -/
theorem target?_ne_src (hn : n ≠ src) : k.target? n ≠ some src := by
  by_cases hx : x = dst
  · subst hx
    exact h.target?_ne_src_root hal hn
  · intro ht
    obtain ⟨hedge, -⟩ := h.unsettled_alone hx hal ⟨hn, src, ht, h.ready.src_links⟩
    rw [target?_of_edge hedge] at ht
    exact h.waiting.ne (Option.some.inj ht)

/-- **In the end joined nodes agree on their content.** -/
theorem agree (ha : a ≠ src) (hb : b ≠ src) (hj : k.Joined a b) : k.target? a = k.target? b := by
  rcases h.ready.level a b ha hb hj not_false with e | ⟨u, v, ⟨hu, hua⟩, hv, hva⟩
  · exact e
  · have hend : ∀ n m w, n ≠ src → m ≠ src → k.Joined n m → k.target? n = some w →
        Alias src dst x w → w = x := by
      intro n m w hn hm hj hw hwa
      rcases hwa with rfl | rfl | rfl
      · exact absurd hw (h.target?_ne_src hal hn)
      · by_contra hne
        have hun : Unsettled k src n := ⟨hn, w, hw, h.dst_links (Ne.symm hne)⟩
        exact (h.unsettled_alone (Ne.symm hne) hal hun).2 m hm hj
      · rfl
    rw [hu, hv, hend a b u ha hb hj hu hua, hend b a v hb ha hj.symm hv hva]

end Aligned

end Merging

end Escape.Graph
