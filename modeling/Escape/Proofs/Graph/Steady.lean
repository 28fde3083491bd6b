import Escape.Proofs.Graph.Cascade

/-!
# Steady graphs under change

Graphs made without splicing stay steady: a defer edge is added after the contents at its ends were
merged, and a new content is shared by a whole web.

- `Unlevel.spread`: giving it that content makes the graph steady.
- `Joinable.addDefer`: a defer edge between two nodes with the same content.
- `Steady.deferTracked`: **adding a defer edge succeeds and keeps a graph steady.** It also says
  which points-to facts are kept, and that interior nodes keep having contents.
-/

namespace Escape.Graph

variable {g g' k : Graph} {n m z f t : NodeId}

/-- Ways along defer edges can be gone back. -/
theorem Joined.path_symm (h : ReflTransGen g.Joined n m) : ReflTransGen g.Joined m n := by
  induction h with
  | refl => exact .refl
  | tail _ hs ih => exact ih.head hs.symm

theorem Steady.sameEdges (h : Steady g) (he : SameEdges g g') (hs : Shape g' nobody)
    (hu : ∀ n, (g'.node n).merged = true → (g'.node n).usePoints = {}) (hp : g'.pending = []) :
    Steady g' where
  toCoherent := h.toCoherent.sameEdges he hs hu
  settled := hp
  conn n m c hn hm := by
    rw [he.target?] at hn hm
    exact (h.conn n m c hn hm).lift id fun a b hab => he.joined_iff.mpr hab

/-! ### A content for the rest of a web -/

/-- The rules, but for the node `n`: it has no content, while nodes joined to it may have the
content `z`. -/
structure Unlevel (k : Graph) (n z : NodeId) : Prop extends Shape k nobody where
  tomb_usePoints : ∀ m, (k.node m).merged = true → (k.node m).usePoints = {}
  target_live : ∀ m c, k.target? m = some c → (k.node c).merged = false
  target_content : ∀ m c, k.target? m = some c → (k.node c).isContent
  level : ∀ a b, k.Joined a b → k.target? a = k.target? b ∨ a = n ∧ k.target? b = some z ∨
    b = n ∧ k.target? a = some z
  progress : ∀ m, (k.target? m).isSome → ∃ e, ReflTransGen k.Defers m e ∧ k.HasEdge e
  settled : k.pending = []
  conn : ∀ a b c, k.target? a = some c → k.target? b = some c → ReflTransGen k.Joined a b
  reach : ∀ a, k.target? a = some z → ReflTransGen k.Joined n a
  bare : k.target? n = none

namespace Unlevel

/-- An edge between a node with a content and one without is one of those at `n`. -/
theorem mixed (h : Unlevel k n z) {a b : NodeId} (hj : k.Joined a b) (ha : (k.target? a).isSome)
    (hb : k.target? b = none) : b = n ∧ k.target? a = some z := by
  rcases h.level a b hj with e | ⟨rfl, -⟩ | hbn
  · rw [e, hb] at ha
    cases ha
  · rw [h.bare] at ha
    cases ha
  · exact hbn

theorem joined_of_bareWeb (h : Unlevel k n z) (hw : k.BareWeb n m) : ReflTransGen k.Joined n m := by
  induction hw with
  | refl => exact .refl
  | tail _ hs ih => exact ih.tail ((h.linked.mem_neighbours not_false).mp hs.1).2

theorem sealed_self (h : Unlevel k n z) : k.Sealed n := by
  rintro a b ⟨ha, -⟩ hb hbare
  have hj := ((h.linked.mem_neighbours not_false).mp hb).2
  rw [(h.mixed hj ha hbare).1]
  exact .refl

/-- Once the part of its web that has no content gets `z`, all rules hold. -/
theorem spread (own : Bool) (h : Unlevel k n z) (hn : k.Has n) (hlive : (k.node n).merged = false)
    (hzl : (k.node z).merged = false) (hzc : (k.node z).isContent) :
    ∃ k', k.spread n z own = .ok k' ∧ Steady k' ∧ Rewires k k' ∧
      (∀ m, (k.target? m).isSome → k'.target? m = k.target? m) ∧ k'.target? n = some z ∧
      ∀ a b, k'.Defers a b ↔ k.Defers a b := by
  have hroot : (k.node z).mergeTo = none :=
    h.forest.representative_eq_self_iff.mp (h.representative_of_live hzl not_false)
  obtain ⟨k', hok⟩ : ∃ k', k.spread n z own = .ok k' := spread_total hroot hzc
  obtain ⟨V, hV, -⟩ := spread_spec h.linked not_false not_false hn h.bare hok
  obtain ⟨hs, -, hp, -⟩ := h.toShape.spread hn hlive (fun _ => h.bare) (has_of_isContent hzc) hok
  have hVweb : ∀ m, V m → k.BareWeb n m := hV.within h.sealed_self
  have hVn : V n := hV.covers n .refl
  have hT := hV.toFills.takes
  -- the new part ends at nodes that have the content
  have hedge : ∀ a b, k.Joined a b → V b → ¬ V a → k.target? a = some z := by
    intro a b hj hVb hVa
    have hmem : a ∈ k.neighbours b := (h.linked.mem_neighbours not_false).mpr ⟨not_false, hj.symm⟩
    have hsa : (k.target? a).isSome := by
      by_contra hnone
      exact hVa (hV.covers a ((hVweb b hVb).tail ⟨hmem, by simpa using hnone⟩))
    exact (h.mixed hj hsa (hV.bare b hVb)).2
  have hagree : ∀ a b, k.Joined a b → k'.target? a = k'.target? b := by
    intro a b hj
    by_cases hor : V a ∨ V b
    · exact hT.target?_eq (hedge a b hj) (hedge b a hj.symm) hor
    · obtain ⟨hVa, hVb⟩ := not_or.mp hor
      rw [hT.target?_of_not hVa, hT.target?_of_not hVb]
      rcases h.level a b hj with e | ⟨rfl, -⟩ | ⟨rfl, -⟩
      · exact e
      · exact absurd hVn hVa
      · exact absurd hVn hVb
  have hpath : ∀ {a b}, ReflTransGen k.Defers a b → ReflTransGen k'.Defers a b := fun hp =>
    hp.lift id fun a b => hV.defers_iff.mpr
  have hground : ∀ m, (k.target? m).isSome → ∃ e, ReflTransGen k'.Defers m e ∧ k'.HasEdge e := by
    intro m hm
    obtain ⟨e, hp, he⟩ := h.progress m hm
    exact ⟨e, hpath hp, hV.hasEdge_mono he⟩
  have hreach : ∀ m, k'.target? m = some z → ReflTransGen k.Joined n m := by
    intro m hm
    by_cases hVm : V m
    · exact h.joined_of_bareWeb (hVweb m hVm)
    · exact h.reach m (by rw [← hT.target?_of_not hVm, hm])
  have hjoin : ∀ {a b}, ReflTransGen k.Joined a b → ReflTransGen k'.Joined a b := fun hp =>
    hp.lift id fun a b => hT.joined_iff.mpr
  refine ⟨k', hok, ⟨⟨hs, ?_, ?_, ?_, ?_, ?_⟩, by rw [hp, h.settled], ?_⟩, hV.toRewires,
    fun m hm => hV.target?_of_isSome hm, hV.target n hVn, fun a b => hV.defers_iff⟩
  · intro m hm
    rw [hV.merged] at hm
    rw [hV.usePoints_of_ne, h.tomb_usePoints m hm]
    rintro rfl
    rw [hzl] at hm
    cases hm
  · intro m c hc
    rw [hV.merged]
    exact hT.of_target (P := fun c => (k.node c).merged = false) hzl (h.target_live m) hc
  · intro m c hc
    rw [hV.isContent]
    exact hT.of_target (P := fun c => (k.node c).isContent) hzc (h.target_content m) hc
  · exact fun a b hd => hagree a b (.inl (hV.defers_iff.mp hd))
  · intro m hm
    by_cases hVm : V m
    · obtain ⟨e, hp, he | he⟩ := hV.grounded m hVm
      · exact ⟨e, hpath hp, he⟩
      · obtain ⟨e', hp', he'⟩ := hground e he
        exact ⟨e', (hpath hp).trans hp', he'⟩
    · exact hground m (by rwa [hT.target?_of_not hVm] at hm)
  · intro a b c ha hb
    by_cases hcz : c = z
    · subst hcz
      exact hjoin ((Joined.path_symm (hreach a ha)).trans (hreach b hb))
    · have hnot : ∀ m, k'.target? m = some c → k.target? m = some c := by
        intro m hm
        rw [← hT.target?_of_not, hm]
        intro hVm
        rw [hV.target m hVm] at hm
        cases hm
        exact hcz rfl
      exact hjoin (h.conn a b c (hnot a ha) (hnot b hb))

end Unlevel

/-! ### A defer edge between nodes with one content -/

section AddsDefer

variable (h : AddsDefer g g' f t)
include h

theorem AddsDefer.joined_iff {a b : NodeId} : g'.Joined a b ↔ g.Bridge f t a b := by
  rw [Joined, h.defers_iff, h.defers_iff, Bridge, Joined]
  tauto

theorem AddsDefer.hasEdge_iff : g'.HasEdge n ↔ g.HasEdge n := by
  rw [HasEdge, h.pointsTo, ← HasEdge]

variable (hg : Coherent g nobody)
include hg

theorem AddsDefer.tomb_usePoints (n : NodeId)
    (hn : (g'.node n).merged = true) : (g'.node n).usePoints = {} := by
  rw [h.merged] at hn
  rw [h.usePoints, hg.tomb_usePoints n hn]

theorem AddsDefer.target_live (n c : NodeId)
    (hc : g'.target? n = some c) : (g'.node c).merged = false := by
  rw [h.target?] at hc
  rw [h.merged]
  exact hg.target_live n c hc

theorem AddsDefer.target_content (n c : NodeId)
    (hc : g'.target? n = some c) : (g'.node c).isContent := by
  rw [h.target?] at hc
  rw [h.isContent]
  exact hg.target_content n c hc

omit hg in
theorem AddsDefer.furnished (hg : Furnished g) : Furnished g' := by
  intro n hl hi
  rw [h.merged] at hl
  rw [h.interior] at hi
  rw [h.target?]
  exact hg n hl hi

/-- Webs make progress along a new defer edge as they did before. -/
theorem AddsDefer.progress (hn : (g'.target? n).isSome) :
    ∃ e, ReflTransGen g'.Defers n e ∧ g'.HasEdge e := by
  obtain ⟨e, hp, he⟩ := hg.progress n (by rwa [h.target?] at hn)
  exact ⟨e, hp.lift id fun a b hab => h.defers_iff.mpr (.inl hab), h.hasEdge_iff.mpr he⟩

end AddsDefer

theorem Coherent.linkDefer (h : Coherent g nobody) (hf : g.Has f) (ht : g.Has t)
    (hlf : (g.node f).merged = false) (hlt : (g.node t).merged = false) (hne : f ≠ t)
    (hnew : ¬ g.Defers f t) (hsame : g.target? f = g.target? t) :
    Coherent (g.linkDefer f t) nobody := by
  have ha := addsDefer_linkDefer (m := t) hf
  refine ⟨h.toShape.linkDefer hf ht hlf hlt hne hnew, ha.tomb_usePoints h, ha.target_live h,
    ha.target_content h, fun a b hd => ?_, fun n hn => ha.progress h hn⟩
  rw [ha.target?, ha.target?]
  rcases ha.defers_iff.mp hd with hd | ⟨rfl, rfl⟩
  · exact h.agree a b hd
  · exact hsame

/-- A bridge is built by one defer edge. -/
theorem Joinable.addDefer (h : Joinable g f t) : ∃ g' b, g.addDefer f t = .ok (g', b) ∧ Steady g' ∧
    (Furnished g → Furnished g') ∧ Extends g g' ∧ ∀ n, g'.target? n = g.target? n := by
  obtain ⟨g', b, hok⟩ := addDefer_total (n := f) h.to_live
  obtain ⟨-, he, hp, -, -, ht⟩ := h.toShape.addDefer h.from_has h.to_has h.from_live hok
  have hsame : g.target? f = g.target? t := by
    rw [← h.content?_eq, ← h.content?_eq]
    exact h.level
  have hconn : ∀ n m c, g.target? n = some c → g.target? m = some c →
      ReflTransGen (g.Bridge f t) n m := fun n m c hn hm =>
    h.conn n m c (by rw [h.content?_eq, hn]) (by rw [h.content?_eq, hm])
  suffices hs : Steady g' ∧ (Furnished g → Furnished g') from ⟨g', b, hok, hs.1, hs.2, he, ht⟩
  obtain ⟨-, ⟨rfl, -, hor⟩ | ⟨rfl, -, hne, hnew⟩⟩ := addDefer_cases hok
  · refine ⟨⟨h.toCoherent, h.settled, fun n m c hn hm => ?_⟩, id⟩
    -- the bridge leads nowhere new
    have hpath := hconn n m c hn hm
    clear hn hm
    induction hpath with
    | refl => exact .refl
    | @tail u v _ huv ih =>
      rcases huv with hj | ⟨rfl, rfl⟩ | ⟨rfl, rfl⟩
      · exact ih.tail hj
      · rcases hor with rfl | hd
        · exact ih
        · exact ih.tail (.inl hd)
      · rcases hor with rfl | hd
        · exact ih
        · exact ih.tail (.inr hd)
  · have ha := addsDefer_linkDefer (m := t) h.from_has
    refine ⟨⟨h.toCoherent.linkDefer h.from_has h.to_has h.from_live h.to_live hne hnew hsame,
      by rw [hp, h.settled], fun n m c hn hm => ?_⟩, ha.furnished⟩
    rw [ht] at hn hm
    exact (hconn n m c hn hm).lift id fun a b hab => ha.joined_iff.mpr hab

/-! ### A defer edge to or from a node without content -/

variable (h : Steady g)
include h

/-- After a defer edge between a node with a content and one without, only the latter breaks the
rules. -/
theorem Steady.unlevel {e o : NodeId} (hf : g.Has f) (ht : g.Has t)
    (hlf : (g.node f).merged = false) (hlt : (g.node t).merged = false) (hne : f ≠ t)
    (hnew : ¬ g.Defers f t) (hends : e = f ∧ o = t ∨ e = t ∧ o = f) (he : g.target? e = none)
    (ho : g.target? o = some z) : Unlevel (g.linkDefer f t) e z := by
  have ha := addsDefer_linkDefer (m := t) hf
  have hbridge : ∀ {a b}, g.Bridge f t a b → g.Joined a b ∨ a = e ∧ b = o ∨ a = o ∧ b = e := by
    rintro a b (hj | hb)
    · exact .inl hj
    · rcases hends with ⟨rfl, rfl⟩ | ⟨rfl, rfl⟩
      · exact .inr hb
      · exact .inr hb.symm
  have heo : (g.linkDefer f t).Joined e o := by
    refine ha.joined_iff.mpr (.inr ?_)
    rcases hends with hends | ⟨rfl, rfl⟩
    · exact .inl hends
    · exact .inr ⟨rfl, rfl⟩
  have hlift : ∀ {a b}, ReflTransGen g.Joined a b → ReflTransGen (g.linkDefer f t).Joined a b :=
    fun hp => hp.lift id fun a b hab => ha.joined_iff.mpr (.inl hab)
  have hg := h.toCoherent
  refine ⟨h.toShape.linkDefer hf ht hlf hlt hne hnew, ha.tomb_usePoints hg, ha.target_live hg,
    ha.target_content hg, fun a b hj => ?_, fun n hn => ha.progress hg hn,
    by rw [ha.pending, h.settled], fun a b c hac hbc => ?_, fun a hac => ?_, by rw [ha.target?, he]⟩
  · rw [ha.target?, ha.target?]
    rcases hbridge (ha.joined_iff.mp hj) with hj | ⟨rfl, rfl⟩ | ⟨rfl, rfl⟩
    · exact .inl (h.agree_joined hj)
    · exact .inr (.inl ⟨rfl, ho⟩)
    · exact .inr (.inr ⟨rfl, ho⟩)
  · rw [ha.target?] at hac hbc
    exact hlift (h.conn a b c hac hbc)
  · rw [ha.target?] at hac
    exact (hlift (h.conn o a z ho hac)).head heo

/-! ### The merge of two contents -/

omit h in
theorem Carries.eq_representative {ψ : NodeId → NodeId} (hc : Carries g g' ψ)
    (hs : Shape g' nobody) (hn : g.Has n) (hlive : (g.node n).merged = false) :
    ψ n = g'.representative n := by
  rw [← hc.represents n hn, hs.representative_of_live (hc.live n hn hlive) not_false]

/-- A steady graph with one merge scheduled. -/
theorem Steady.waiting {c d : NodeId} (hc : g.target? f = some c)
    (hd : g.target? t = some d) (hne : c ≠ d) :
    (g.schedule c d).pending = [c] ∧ Waiting (g.schedule c d) c d f t ∧
      (Furnished g → FurnishedBy (g.schedule c d) c d) ∧ Carries g (g.schedule c d) id := by
  have hrc : g.representative c = c := h.representative_of_live (h.target_live f c hc) not_false
  have hrd : g.representative d = d := h.representative_of_live (h.target_live t d hd) not_false
  have hhc := h.target_has f c hc
  have hhd := h.target_has t d hd
  have hpend : (fun n => n ∈ g.pending) = nobody := by
    funext n
    rw [h.settled]
    exact propext (List.mem_nil_iff n)
  obtain ⟨hs, -, hcarry⟩ := schedule_shape (by rw [hpend]; exact h.toShape)
    (by rw [h.settled]; exact .nil) hhc hhd
  have hlinks := links_schedule h.forest hhc hhd (by rw [hrc, hrd]; exact hne)
  rw [hrc, hrd] at hlinks
  have hp : (g.schedule c d).pending = [c] := by
    rw [schedule_of_ne (by rw [hrc, hrd]; exact hne), hrc, h.settled]
  simp only [hp, List.mem_singleton] at hs
  have hsch := schedules_schedule h.forest hhc hhd
  have hm := hsch.merged
  have hk := hsch.isContent
  have htgt := hsch.target?
  have hrep : ∀ n y, g.target? n = some y →
      (g.schedule c d).representative y = if y = c then d else y := fun n y hy => by
    rw [hlinks.representative h.forest, h.representative_of_live (h.target_live n y hy) not_false]
  have hcon : ∀ n, (g.schedule c d).content? n =
      (g.target? n).map fun y => if y = c then d else y := by
    intro n
    rw [content?_eq, htgt]
    cases hy : g.target? n with
    | none => rfl
    | some y => exact congrArg some (hrep n y hy)
  -- nodes with the two contents are connected over the bridge
  have hpath : ∀ {a b}, ReflTransGen g.Joined a b →
    ReflTransGen ((g.schedule c d).Bridge f t) a b :=
    fun hp => hp.lift id fun a b hab => .inl (hab.imp hsch.defers_iff.mpr hsch.defers_iff.mpr)
  have hcross : ∀ n m, g.target? n = some c → g.target? m = some d →
      ReflTransGen ((g.schedule c d).Bridge f t) n m := fun n m hn hm =>
    ((hpath (h.conn n f c hn hc)).tail (.inr (.inl ⟨rfl, rfl⟩))).trans (hpath (h.conn t m d hd hm))
  suffices hw : Waiting (g.schedule c d) c d f t by
    refine ⟨hp, hw, fun hfurnished n hl hi => ?_, hcarry⟩
    rw [hm] at hl
    rw [htgt, htgt]
    rcases schedule_interior hrc hrd hne hi with hi | ⟨rfl, hor⟩
    · exact .inl (hfurnished n hl hi)
    · rcases hor with he | he | he
      · exact .inl (by rw [he]; rfl)
      · exact .inr ⟨rfl, by rw [he]; rfl⟩
      · exact .inr ⟨rfl, hfurnished c (h.target_live f c hc) he⟩
  refine {
    toCoherent := h.toCoherent.schedules hsch hs
    from_has := by rw [Has, size_schedule]; exact has_of_target? hc
    from_live := by rw [hm]; exact h.live_of_target hc
    to_has := by rw [Has, size_schedule]; exact has_of_target? hd
    to_live := by rw [hm]; exact h.live_of_target hd
    level := by
      rw [hcon, hcon, hc, hd, Option.map_some, Option.map_some, if_pos rfl, if_neg (Ne.symm hne)]
    filled := by rw [hcon, hc]; rfl
    conn := fun n m y hn hm => ?_
    link := by rw [hlinks.mergeTo, if_pos rfl]
    root := by rw [hlinks.mergeTo, if_neg (Ne.symm hne)]; exact hlinks.root_dst
    src_content := by rw [hk]; exact h.target_content f c hc
    dst_content := by rw [hk]; exact h.target_content t d hd
    crossing := fun n _ => .inl ⟨by rw [htgt, hc], by rw [htgt, hd]⟩ }
  · rw [hcon] at hn hm
    obtain ⟨u, hu, rfl⟩ := Option.map_eq_some_iff.mp hn
    obtain ⟨v, hv, huv⟩ := Option.map_eq_some_iff.mp hm
    by_cases huc : u = c
    · subst huc
      rw [if_pos rfl] at huv
      split at huv
      · rename_i hvu
        subst hvu
        exact hpath (h.conn n m v hu hv)
      · subst huv
        exact hcross n m hu hv
    · rw [if_neg huc] at huv
      split at huv
      · rename_i hvc
        subst hvc huv
        exact Bridge.path_symm (hcross m n hv hu)
      · subst huv
        exact hpath (h.conn n m v hu hv)

/-- The merges of two contents all succeed, and the webs can be joined afterwards. -/
theorem Steady.settle {c d : NodeId} (hc : g.target? f = some c)
    (hd : g.target? t = some d) (hne : c ≠ d) : ∃ g', (g.schedule c d).settle = .ok g' ∧
      Joinable g' (g'.representative f) (g'.representative t) ∧ (Furnished g → Furnished g') ∧
      (KeepsContents g g' g'.representative ↔ ¬ (g.schedule c d).Forgets) := by
  obtain ⟨hp, hw, hfurnished, hcarry⟩ := h.waiting hc hd hne
  obtain ⟨g', ψ, hok, hj, hfurnished', hc', hiff⟩ :=
    settleUpTo_waiting ((g.schedule c d).pending.length +
    (g.schedule c d).size) _ c d f t hp hw
      (Nat.le_trans (liveCount_le_size _) (Nat.le_add_left _ _))
  have hψ : ∀ n, (g.schedule c d).Has n → ((g.schedule c d).node n).merged = false →
      ψ n = g'.representative n := fun n hn hl => hc'.eq_representative hj.toShape hn hl
  rw [hψ f hw.from_has hw.from_live, hψ t hw.to_has hw.to_live] at hj
  refine ⟨g', hok, hj, fun h => hfurnished' (hfurnished h), Iff.trans ?_ hiff⟩
  -- contents before and after scheduling have the same representative in the end
  have hcon : ∀ n y, g.content? n = some y → ∃ y', (g.schedule c d).content? n = some y' ∧
      g'.representative y' = g'.representative y ∧ ψ n = g'.representative n := by
    intro n y hy
    rw [h.content?_eq] at hy
    have hhas : (g.schedule c d).Has y := hcarry.has_mono (h.target_has n y hy)
    have htgt : (g.schedule c d).target? n = some y := by
      rw [target?, schedule_field Node.pointsTo]
      exact hy
    refine ⟨_, by rw [content?_eq, htgt, Option.map_some], hc'.merge y hhas, ?_⟩
    exact hψ n (has_of_target? htgt) (hw.live_of_target htgt)
  constructor
  · intro hk n y' hy'
    obtain ⟨u, hu, rfl⟩ := Option.map_eq_some_iff.mp ((content?_eq _ n).symm.trans hy')
    rw [target?, schedule_field Node.pointsTo, ← target?, ← h.content?_eq] at hu
    obtain ⟨y'', hy'', hrep, hψn⟩ := hcon n u hu
    cases hy'.symm.trans hy''
    rw [hψn, hrep]
    exact hk n u hu
  · intro hk n y hy
    obtain ⟨y', hy', hrep, hψn⟩ := hcon n y hy
    rw [← hψn, ← hrep]
    exact hk n y' hy'

/-! ### Any defer edge -/

omit h in
/-- Adding the defer edge forgets the content of a node. -/
def DeferForgets (g : Graph) (f t : NodeId) : Prop :=
  f ≠ t ∧ ¬ g.Defers f t ∧ ∃ c d, g.target? f = some c ∧ g.target? t = some d ∧ c ≠ d ∧
    (g.schedule c d).Forgets

omit h in
/-- Without merges contents are kept. -/
theorem KeepsContents.of_extends (hs : Shape g nobody) (he : Extends g g')
    (ht : ∀ n, (g.target? n).isSome → g'.target? n = g.target? n) :
    KeepsContents g g' g'.representative := by
  intro n y hy
  rw [content?_eq] at hy
  obtain ⟨c, hc, rfl⟩ := Option.map_eq_some_iff.mp hy
  have hn : g'.representative n = n := by
    rw [he.representative hs.forest]
    exact hs.representative_of_live (hs.live_of_target hc) not_false
  rw [hn, content?_eq, ht n (by rw [hc]; rfl), hc, Option.map_some, he.representative hs.forest,
    he.representative hs.forest, hs.forest.representative_representative]

/-- A defer edge between two nodes that agree on their content. -/
theorem Steady.linkDefer (hf : g.Has f) (ht : g.Has t)
    (hlf : (g.node f).merged = false) (hlt : (g.node t).merged = false) (hne : f ≠ t)
    (hnew : ¬ g.Defers f t) (hsame : g.target? f = g.target? t) :
    Steady (g.linkDefer f t) ∧ (Furnished g → Furnished (g.linkDefer f t)) := by
  have ha := addsDefer_linkDefer (m := t) hf
  refine ⟨⟨h.toCoherent.linkDefer hf ht hlf hlt hne hnew hsame, by rw [ha.pending, h.settled],
    fun n m c hn hm => ?_⟩, ha.furnished⟩
  rw [ha.target?] at hn hm
  exact (h.conn n m c hn hm).lift id fun a b hab => ha.joined_iff.mpr (.inl hab)

/-- A defer edge to or from a node without content: the node gets the content of the other end. -/
theorem Steady.joinBare {e o : NodeId} (hf : g.Has f) (ht : g.Has t)
    (hlf : (g.node f).merged = false) (hlt : (g.node t).merged = false) (hne : f ≠ t)
    (hnew : ¬ g.Defers f t) (hends : e = f ∧ o = t ∨ e = t ∧ o = f) (he : g.target? e = none)
    (ho : g.target? o = some z) : ∃ g', (g.linkDefer f t).spread e z false = .ok g' ∧ Steady g' ∧
      (Furnished g → Furnished g') ∧ Extends g g' ∧ ∀ n, (g.target? n).isSome →
      g'.target? n = g.target? n := by
  have ha := addsDefer_linkDefer (m := t) hf
  have hu := h.unlevel hf ht hlf hlt hne hnew hends he ho
  have hhe : (g.linkDefer f t).Has e ∧ ((g.linkDefer f t).node e).merged = false := by
    rw [ha.toRewires.has, ha.merged]
    rcases hends with ⟨rfl, -⟩ | ⟨rfl, -⟩
    · exact ⟨hf, hlf⟩
    · exact ⟨ht, hlt⟩
  obtain ⟨g', hok, hs, hr, hkeep, -, hdef⟩ := hu.spread false hhe.1 hhe.2
    (by rw [ha.merged]; exact h.target_live o z ho)
    (by rw [ha.isContent]; exact h.target_content o z ho)
  have hkeep' : ∀ n, (g.target? n).isSome → g'.target? n = g.target? n := fun n hn => by
    rw [hkeep n (by rwa [ha.target?]), ha.target?]
  refine ⟨g', hok, hs, fun hfurnished n hl hi => ?_,
    .of_rewires (ha.toRewires.trans hr) fun a b hd =>
    (hdef a b).mpr (ha.defers_iff.mpr (.inl hd)), hkeep'⟩
  rw [hr.merged, ha.merged] at hl
  rw [hr.interior, ha.interior] at hi
  have := hfurnished n hl hi
  rw [hkeep' n this]
  exact this

omit h in
/-- A new defer edge is added in three phases. -/
theorem deferTracked_of_phases {g₁ g₂ g₃ : Graph} {b b' : Bool} (hne : f ≠ t) (hf : g.Has f)
    (ht : g.Has t) (hnew : ¬ g.Defers f t) (h₁ : g.mergeContents f t = .ok (g₁, b))
    (h₂ : g₁.addDefer (g₁.representative f) (g₁.representative t) = .ok (g₂, b'))
    (h₃ : g₂.shareContent (g₁.representative f) (g₁.representative t) (g.target? f) (g.target? t) =
      .ok g₃) : g.deferTracked f t = .ok (g₃, g₃.representative f, b || b') := by
  have hd : t ∉ (g.node f).defersTo := hnew
  rw [deferTracked_eq, if_neg hne, require_ok.mpr hf, ok_bind, if_neg hd, require_ok.mpr ht,
    ok_bind, h₁, ok_bind]
  dsimp only
  rw [h₂, ok_bind]
  rw [h₃]
  rfl

omit h in
theorem mergeContents_of_eq (hcd : ∀ c d, g.target? f = some c → g.target? t = some d → c = d) :
    g.mergeContents f t = .ok (g, false) := by
  unfold mergeContents
  split
  · rename_i c d hc hd
    rw [if_pos (hcd c d hc hd)]
    rfl
  · rfl

omit h in
theorem linkDefer_of_new (hlt : (g.node t).merged = false) (hne : f ≠ t) (hnew : ¬ g.Defers f t) :
    g.addDefer f t = .ok (g.linkDefer f t, true) := by
  obtain ⟨g', b, hok⟩ := addDefer_total (n := f) hlt
  obtain ⟨-, ⟨-, -, hor⟩ | ⟨rfl, rfl, -⟩⟩ := addDefer_cases hok
  · exact absurd hor (not_or.mpr ⟨hne, hnew⟩)
  · exact hok

/-- A new defer edge between nodes that do not have different contents. -/
theorem Steady.join (hf : g.Has f) (ht : g.Has t)
    (hlf : (g.node f).merged = false) (hlt : (g.node t).merged = false) (hne : f ≠ t)
    (hnew : ¬ g.Defers f t) (hcd : ∀ c d, g.target? f = some c → g.target? t = some d → c = d) :
    ∃ g', (g.linkDefer f t).shareContent f t (g.target? f) (g.target? t) = .ok g' ∧ Steady g' ∧
      (Furnished g → Furnished g') ∧ Extends g g' ∧ ∀ n, (g.target? n).isSome →
      g'.target? n = g.target? n := by
  have ha := addsDefer_linkDefer (m := t) hf
  have hextends : Extends g (g.linkDefer f t) :=
    .of_rewires ha.toRewires fun _ _ hd => ha.defers_iff.mpr (.inl hd)
  cases hc : g.target? f with
  | none =>
    cases hd : g.target? t with
    | none =>
      obtain ⟨hs, hfurnished⟩ := h.linkDefer hf ht hlf hlt hne hnew (by rw [hc, hd])
      exact ⟨_, rfl, hs, hfurnished, hextends, fun n _ => ha.target? n⟩
    | some d => exact h.joinBare hf ht hlf hlt hne hnew (.inl ⟨rfl, rfl⟩) hc hd
  | some c =>
    cases hd : g.target? t with
    | none => exact h.joinBare hf ht hlf hlt hne hnew (.inr ⟨rfl, rfl⟩) hd hc
    | some d =>
      cases hcd c d hc hd
      obtain ⟨hs, hfurnished⟩ := h.linkDefer hf ht hlf hlt hne hnew (by rw [hc, hd])
      exact ⟨_, rfl, hs, hfurnished, hextends, fun n _ => ha.target? n⟩

/-- **Adding a defer edge succeeds and keeps a graph steady.** Interior nodes keep having contents,
and contents are kept unless one of the merges forgets a content. -/
theorem Steady.deferTracked (hf : g.Has f) (ht : g.Has t)
    (hlf : (g.node f).merged = false) (hlt : (g.node t).merged = false) :
    ∃ g' r b, g.deferTracked f t = .ok (g', r, b) ∧ Steady g' ∧ (Furnished g → Furnished g') ∧
      (KeepsContents g g' g'.representative ↔ ¬ g.DeferForgets f t) := by
  have hrep : ∀ n, (g.node n).merged = false → g.representative n = n := fun n hn =>
    h.representative_of_live hn not_false
  have hsame : KeepsContents g g g.representative :=
    .of_extends h.toShape (.refl g) fun _ _ => rfl
  by_cases hne : f = t
  · refine ⟨g, f, false, by rw [deferTracked_eq, if_pos hne]; rfl, h, id, ?_⟩
    exact iff_of_true hsame fun hx => hx.1 hne
  by_cases hnew : g.Defers f t
  · refine ⟨g, f, false, ?_, h, id, iff_of_true hsame fun hx => hx.2.1 hnew⟩
    have hd : t ∈ (g.node f).defersTo := hnew
    rw [deferTracked_eq, if_neg hne, require_ok.mpr hf, ok_bind, if_pos hd]
    rfl
  -- Contents that differ are merged before the edge is made.
  by_cases hcd : ∀ c d, g.target? f = some c → g.target? t = some d → c = d
  · obtain ⟨g', hok, hs, hfurnished, he, hkeep⟩ := h.join hf ht hlf hlt hne hnew hcd
    have hadd : g.addDefer (g.representative f) (g.representative t) =
        .ok (g.linkDefer f t, true) := by
      rw [hrep f hlf, hrep t hlt]
      exact linkDefer_of_new hlt hne hnew
    refine ⟨g', _, _, deferTracked_of_phases hne hf ht hnew (mergeContents_of_eq hcd) hadd ?_, hs,
      hfurnished, iff_of_true (.of_extends h.toShape he hkeep) ?_⟩
    · rw [hrep f hlf, hrep t hlt]
      exact hok
    · rintro ⟨-, -, c, d, hc, hd, hcd', -⟩
      exact hcd' (hcd c d hc hd)
  · push Not at hcd
    obtain ⟨c, d, hc, hd, hcd⟩ := hcd
    obtain ⟨g₁, hok₁, hj, hfurnished, hiff⟩ := h.settle hc hd hcd
    have hmerge : g.mergeContents f t = .ok (g₁, true) := by
      unfold mergeContents
      rw [hc, hd]
      dsimp only
      rw [if_neg hcd, hok₁]
      rfl
    obtain ⟨g', b, hok, hs, hfurnished', he, ht'⟩ := hj.addDefer
    refine ⟨_, _, _, deferTracked_of_phases hne hf ht hnew hmerge hok (by rw [hc, hd]; rfl), hs,
      fun h => hfurnished' (hfurnished h), ?_⟩
    have hforget : g.DeferForgets f t ↔ (g.schedule c d).Forgets := by
      constructor
      · rintro ⟨-, -, c', d', hc', hd', -, hfg⟩
        cases hc.symm.trans hc'
        cases hd.symm.trans hd'
        exact hfg
      · exact fun hfg => ⟨hne, hnew, c, d, hc, hd, hcd, hfg⟩
    rw [hforget, ← hiff]
    have hrep' : g'.representative = g₁.representative := funext (he.representative hj.forest)
    have hcon' : ∀ n, g'.content? n = g₁.content? n := fun n => by
      rw [content?_eq, content?_eq, ht', hrep']
    simp only [KeepsContents, hrep', hcon']

omit h in
theorem Stable.deferTracked (h : Stable g) (hf : g.Has f) (ht : g.Has t)
    (hlf : (g.node f).merged = false) (hlt : (g.node t).merged = false) :
    ∃ g' r b, g.deferTracked f t = .ok (g', r, b) ∧ Stable g' ∧
      (KeepsContents g g' g'.representative ↔ ¬ g.DeferForgets f t) := by
  obtain ⟨g', r, b, hok, hs, hfurnished, hkeep⟩ := h.toSteady.deferTracked hf ht hlf hlt
  exact ⟨g', r, b, hok, ⟨hs, hfurnished h.interior⟩, hkeep⟩

/-! ### New contents -/

/-- A node without content gets a new one, together with its web. -/
theorem Steady.createContent (hn : g.Has n) (hlive : (g.node n).merged = false)
    (hbare : g.target? n = none) (interior referenceOnly : Bool) :
    ∃ g' c, g.createContent n interior referenceOnly = .ok (g', c) ∧ Steady g' ∧
      (∀ m, (g.target? m).isSome → g'.target? m = g.target? m) ∧ g'.target? n = some c ∧
      ∀ m, (g'.node m).interior = true → (g.node m).interior = true ∨ interior = true ∧ m = c := by
  let x : Node := { kind := .content, interior, referenceOnly }
  have hx : x.Fresh := Node.fresh_content interior referenceOnly
  have he : SameEdges g (g.addNode x).1 := .addNode hx
  have hxc : (g.addNode x).1.node (g.addNode x).2 = x := node_addNode_self g x
  have hs : Steady (g.addNode x).1 := by
    refine h.sameEdges he (h.toShape.addNode hx) (fun m hm => ?_) h.settled
    rw [he.merged] at hm
    rw [addNode_field Node.usePoints hx.usePoints, h.tomb_usePoints m hm]
  have hu : Unlevel (g.addNode x).1 n (g.addNode x).2 :=
    ⟨hs.toShape, hs.tomb_usePoints, hs.target_live, hs.target_content,
      fun a b hj => .inl (hs.agree_joined hj), hs.progress, hs.settled, hs.conn, fun a ha => by
        rw [he.target?] at ha
        exact absurd (h.target_has a _ ha) (not_has_addNode g x), by rw [he.target?, hbare]⟩
  obtain ⟨g', hok, hs', hr, hkeep, hset, -⟩ := hu.spread true (he.has hn)
    (by rw [he.merged]; exact hlive) (by rw [hxc]) (by rw [hxc]; rfl)
  refine ⟨g', (g.addNode x).2, ?_, hs', fun m hm => ?_, hset, fun m hm => ?_⟩
  · unfold Graph.createContent
    dsimp only
    rw [hok]
    rfl
  · rw [hkeep m (by rwa [he.target?]), he.target?]
  · rw [hr.interior, node_addNode] at hm
    split at hm
    · rename_i e
      exact .inr ⟨hm, e⟩
    · exact .inl hm

/-- The content of a node, made on first request. It may lack a content that an interior node needs;
otherwise the graph is as it was. -/
theorem Steady.ensureContent (hn : g.Has n) (hlive : (g.node n).merged = false)
    (interior referenceOnly : Bool) :
    ∃ g' c, g.ensureContent n interior referenceOnly = .ok (g', c) ∧ Steady g' ∧
      (∀ m, (g.target? m).isSome → g'.target? m = g.target? m) ∧ g'.target? n = some c ∧
      ∀ m, (g'.node m).interior = true → (g.node m).interior = true ∨ interior = true ∧ m = c := by
  have hreq := require_ok.mpr hn
  cases hc : g.target? n with
  | some c =>
    have hcon : g.content? n = some c := by rw [h.content?_eq, hc]
    have he : SameEdges g (g.modify c (·.mergeFlags interior referenceOnly)) :=
      .modify g c
    refine ⟨g.modify c (·.mergeFlags interior referenceOnly), c, ?_,
      h.sameEdges he (h.toShape.modify ..) (fun m hm => ?_) h.settled,
      fun m _ => he.target? m, by rw [he.target?, hc], fun m hm => ?_⟩
    · unfold Graph.ensureContent
      rw [hreq, ok_bind, hcon]
      rfl
    · rw [he.merged] at hm
      rw [node_modify_field Node.usePoints, h.tomb_usePoints m hm]
    · rw [node_modify] at hm
      split at hm
      · rename_i e
        rw [Node.mergeFlags, Bool.or_eq_true] at hm
        exact hm.imp_right fun hi => ⟨hi, e.1⟩
      · exact .inl hm
  | none =>
    have hcon : g.content? n = none := by rw [h.content?_eq, hc]
    obtain ⟨g₁, c, hok, hs, hkeep, hset, hint⟩ :=
      h.createContent hn hlive hc interior referenceOnly
    -- The new content takes over the state and the use points of `n`.
    have hlc : (g₁.node c).merged = false := hs.target_live n c hset
    let g₂ := g₁.modify c (·.raise (g₁.node n).state)
    have he : SameEdges g₁ g₂ := .modify g₁ c
    have he' : SameEdges g₂ (g₂.copyUsePoints n c) :=
      .of_links (Rewires.copyUsePoints g₂ n c).size
        (copyUsePoints_field Node.links (fun _ _ => by rfl) g₂ n c)
    have hs₂ : Shape g₂ nobody := hs.toShape.modify ..
    refine ⟨g₂.copyUsePoints n c, c, ?_,
      hs.sameEdges (he.trans he') (hs₂.copyUsePoints n c) (fun m hm => ?_) ?_,
      fun m hm => ?_, ?_, fun m hm => ?_⟩
    · unfold Graph.ensureContent
      rw [hreq, ok_bind, hcon]
      rw [hok]
      rfl
    · rw [he'.merged, he.merged] at hm
      have hmc : m ≠ c := by
        rintro rfl
        rw [hlc] at hm
        cases hm
      rw [copyUsePoints_usePoints_of_ne hmc, node_modify_field Node.usePoints,
        hs.tomb_usePoints m hm]
    · rw [(Rewires.copyUsePoints g₂ n c).pending]
      exact hs.settled
    · rw [he'.target?, he.target?, hkeep m hm]
    · rw [he'.target?, he.target?, hset]
    · rw [copyUsePoints_field Node.interior, node_modify_field Node.interior] at hm
      exact hint m hm

end Escape.Graph
