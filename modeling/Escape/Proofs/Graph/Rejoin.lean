import Escape.Proofs.Graph.Midway

/-!
# Moving defer edges

The middle part of a merge: the defer edges of `src` become defer edges of `dst`, one after the
other, and `dst` agrees on its content with each of its new neighbours.

- `Ready.moveDefer`, `Ready.moveDefers`: moving edges keeps them and does not fail.
-/

namespace Escape.Graph

variable {g k k' : Graph} {src dst x n m z other : NodeId} {X : NodeId → NodeId → Prop} {c : NodeId}

/-- Merging `src` into `dst` forgets what `src` points to: both have their contents by inference,
and `dst` points to `src`. -/
def Drops (g : Graph) (src dst : NodeId) : Prop :=
  (g.node dst).pointsTo = .inferred src ∧
    ∃ c, (g.node src).pointsTo = .inferred c ∧ c ≠ src ∧ c ≠ dst

/-- The contents that nodes may take in the middle of a merge. -/
def Settles (g k : Graph) (src dst z : NodeId) : Prop :=
  (k.node z).mergeTo = none ∧ (g.Drops src dst → z = dst)

theorem Settles.rewires (hr : Rewires k k') : Settles g k' src dst z ↔ Settles g k src dst z := by
  rw [Settles, Settles, hr.mergeTo]

/-- The rules in the middle of a merge, once the contents of `src` and `dst` are matched. A content
in `g` is what represents it now, and nodes without one have the content of `dst` if they have any.
-/
structure Tracked (g k : Graph) (src dst x : NodeId) : Prop
    extends Midway g k src dst x (fun _ _ => False) where
  kept : ∀ n y, n ≠ src → g.content? n = some y → k.content? n = some (k.representative y) ∨
    g.Drops src dst ∧ g.content? src = some y ∧ k.content? n = some dst
  filled : ∀ n, n ≠ src → g.content? n = none → (k.content? n).isSome →
    k.content? n = k.content? dst
  own : ∀ y, g.content? src = some y → (k.content? dst).isSome →
    k.content? dst = some (k.representative y) ∨ g.Drops src dst
  origin : (k.content? dst).isSome → (g.content? dst).isSome ∨ (g.content? src).isSome
  drop : g.Drops src dst → k.content? dst = some dst
  still : g.Drops src dst → ∀ n, k.representative n = g.representative n
  idle : k.target? dst = none → ∀ c, (k.node c).merged = false → c ≠ src →
    (k.node c).mergeTo = none
  anchored : k.HasEdge src → ∃ e, ReflTransGen (Renamed g src dst) dst e ∧ k.HasEdge e

/-- The rules in the middle of a merge, once `dst` has a content that stays. -/
structure Ready (g k : Graph) (src dst x : NodeId) : Prop extends Tracked g k src dst x where
  settled : ∀ c, k.target? dst = some c → (k.node c).mergeTo = none

/-- The changed part of a web had one content. -/
theorem Repoints.content?_eq {R : NodeId → Prop} (hR : Repoints k k' n z R)
    (h : Midway g k src dst x X) (hoff : ∀ m, R m → m ≠ src)
    (hX : ∀ a b, X a b → R a → ¬ R b) (hm : R m) : k.content? m = k.content? n := by
  have hn : R n := hR.started m hm
  have hall : ∀ m, ReflTransGen (fun a b => b ∈ k.neighbours a ∧ k.isStale z b = true) n m →
      R m ∧ k.content? m = k.content? n := by
    intro m hpath
    induction hpath with
    | refl => exact ⟨hn, rfl⟩
    | @tail a b _ hab ih =>
      have hb : R b := hR.closed a b ih.1 hab.1 hab.2
      obtain ⟨-, hj⟩ := (h.linked.mem_neighbours (hoff a ih.1)).mp hab.1
      refine ⟨hb, ?_⟩
      rw [← ih.2]
      exact (h.content?_joined (hoff a ih.1) (hoff b hb) hj fun hXab => hX a b hXab ih.1 hb).symm
  exact (hall m (hR.reach m hm)).2

/-- A web that takes the content it has, under another name, keeps all contents. -/
theorem Repoints.content?_of_eq {R : NodeId → Prop} (hR : Repoints k k' n z R)
    (h : Midway g k src dst x X) (hoff : ∀ m, R m → m ≠ src)
    (hX : ∀ a b, X a b → R a → ¬ R b) (hz : k.representative z = z) (hn : k.content? n = some z)
    (m : NodeId) : k'.content? m = k.content? m := by
  rw [hR.toRewires.content?]
  by_cases hm : R m
  · rw [hR.target? hm, hR.content?_eq h hoff hX hm, hn, Option.map_some, hz]
  · rw [hR.target?_of_not hm, Graph.content?_eq]

theorem Fills.content? {V : NodeId → Prop} (hV : Fills k k' z V) (hm : V m) :
    k'.content? m = some (k.representative z) := by
  rw [hV.toRewires.content?, hV.target m hm, Option.map_some]

theorem Fills.content?_of_not {V : NodeId → Prop} (hV : Fills k k' z V) (hm : ¬ V m) :
    k'.content? m = k.content? m := by
  rw [hV.toRewires.content?, hV.target?_of_not hm, content?_eq]

/-- Nodes that point to what they pointed to keep their contents. -/
theorem Rewires.content?_of_target (hr : Rewires k k') (htar : ∀ a, k'.target? a = k.target? a)
    (a : NodeId) : k'.content? a = k.content? a := by
  rw [hr.content?, htar, content?_eq]

/-- A node that pointed to a content points to the new one. -/
theorem Repoints.target?_start {R : NodeId → Prop} (hR : Repoints k k' n z R)
    (hs : (k.target? n).isSome) : k'.target? n = some z := by
  by_cases hn : R n
  · exact hR.target? hn
  · obtain ⟨c, hc⟩ := Option.isSome_iff_exists.mp hs
    rw [hR.target?_of_not hn, hc]
    by_contra hne
    exact hn (hR.start (isStale_iff.mpr ⟨c, hc, fun e => hne (congrArg some e)⟩))

/-- A new edge keeps the rule once its ends point to the same content. -/
theorem Midway.close (h : Midway g k src dst x fun a b => a = dst ∧ b = other ∨ a = other ∧ b = dst)
    (e : k.target? other = k.target? dst) : Midway g k src dst x fun _ _ => False :=
  { h with
    level := by
      intro a b ha hb hj _
      by_cases hX : a = dst ∧ b = other ∨ a = other ∧ b = dst
      · rcases hX with ⟨rfl, rfl⟩ | ⟨rfl, rfl⟩
        · exact .inl e.symm
        · exact .inl e
      · exact h.level a b ha hb hj hX }

namespace Tracked

section

variable (h : Tracked g k src dst x)
include h

theorem representative_x : k.representative x = x := by
  rw [← h.rep_dst]
  exact h.forest.representative_representative dst

theorem settles_x : Settles g k src dst x := by
  refine ⟨?_, fun hd => ?_⟩
  · rw [← h.rep_dst]
    exact h.forest.mergeTo_representative dst
  · -- what represents a content is its own representative
    obtain ⟨c, -, hc⟩ := Option.map_eq_some_iff.mp (h.drop hd)
    rw [← h.rep_dst, ← hc]
    exact h.forest.representative_representative c

/-- Moving nodes to other contents keeps the rules if contents are kept and nodes without one get
the content of `dst`. -/
theorem of_moves (hm : Midway g k' src dst x fun _ _ => False)
    (hv : Moves k k' src (Settles g k src dst))
    (hkept : ∀ n y, n ≠ src → g.content? n = some y → k'.content? n = k.content? n ∨
      g.Drops src dst ∧ g.content? src = some y ∧ k'.content? n = some dst)
    (hfilled : ∀ n, n ≠ src → g.content? n = none → (k'.content? n).isSome →
      k'.content? n = k'.content? dst)
    (hdst : k'.content? dst = k.content? dst ∨ k.content? dst = none ∧
      ∃ y, g.content? src = some y ∧ k'.content? dst = some (k.representative y)) :
    Tracked g k' src dst x where
  toMidway := hm
  kept n y hn hy := by
    rw [hv.representative]
    rcases hkept n y hn hy with e | e
    · rw [e]
      exact h.kept n y hn hy
    · exact .inr e
  filled := hfilled
  own y hy hs := by
    rw [hv.representative]
    rcases hdst with e | ⟨-, y', hy', e⟩
    · rw [e] at hs ⊢
      exact h.own y hy hs
    · rw [hy] at hy'
      cases hy'
      exact .inl e
  origin hs := by
    rcases hdst with e | ⟨-, y, hy, -⟩
    · rw [e] at hs
      exact h.origin hs
    · exact .inr (by rw [hy]; rfl)
  drop hd := by
    rcases hdst with e | ⟨e, -⟩
    · rw [e]
      exact h.drop hd
    · rw [h.drop hd] at e
      cases e
  still hd n := (hv.representative n).trans (h.still hd n)
  idle hnone c hc hcs := by
    rw [hv.mergeTo]
    refine h.idle ?_ c (by rwa [hv.merged] at hc) hcs
    -- No content is lost, so `dst` had none before either.
    by_contra hs
    have := hv.sets dst h.ne (Option.isSome_iff_ne_none.mpr hs)
    rw [hnone] at this
    cases this
  anchored hs := by
    rw [HasEdge, hv.source] at hs
    obtain ⟨e, hp, he⟩ := h.anchored hs
    exact ⟨e, hp, hv.edges e (ne_of_renamed h.ne h.ne hp) he⟩

/-- Moving nodes to the contents they have, under other names. -/
theorem of_content (hm : Midway g k' src dst x fun _ _ => False)
    (hv : Moves k k' src (Settles g k src dst)) (hk : ∀ n, k'.content? n = k.content? n) :
    Tracked g k' src dst x :=
  h.of_moves hm hv (fun n _ _ _ => .inl (hk n))
    (fun n hn hnone hs => by rw [hk, hk]; exact h.filled n hn hnone (by rwa [hk] at hs))
    (.inl (hk dst))

/-- Letting a node that points to `src` point to `x` instead. -/
theorem fixOther (ho : other ≠ src) :
    ∃ k', k.fixOther src dst other = .ok k' ∧ Tracked g k' src dst x ∧
      Moves k k' src (Settles g k src dst) ∧ k'.target? other ≠ some src ∧
      (k.target? other = some src → k'.target? other = some x) ∧
      (k.target? other ≠ some src → k' = k) := by
  unfold Graph.fixOther
  by_cases hsrc : k.target? other = some src
  · rw [if_pos hsrc]
    obtain ⟨k', R, hok, hR, hoff, hm, hv⟩ := h.repoint ho (by rw [hsrc]; rfl) h.dst_live
      h.dst_content h.rep_dst fun _ _ => False.elim
    have hv' := hv.mono fun z (hz : z = x) => hz ▸ h.settles_x
    have hk := hR.content?_of_eq h.toMidway hoff (fun _ _ => False.elim) h.representative_x (by
      rw [content?_eq, hsrc]
      exact congrArg some h.rep_src)
    have hxs : x ≠ src := h.rep_dst ▸ h.ne_representative dst
    have ht : k'.target? other = some x := hR.target?_start (by rw [hsrc]; rfl)
    refine ⟨k', hok, h.of_content hm hv' hk, hv', ?_, fun _ => ht, fun hne => absurd hsrc hne⟩
    rw [ht]
    exact fun e => hxs (Option.some.inj e)
  · rw [if_neg hsrc]
    exact ⟨k, rfl, h, .refl _ _ _, hsrc, fun e => absurd e hsrc, fun _ => rfl⟩

end

/-- The rules hold in full if the content of `dst` stays. -/
theorem ready (h : Tracked g k' src dst x) (hr : Ready g k src dst x)
    (hv : Moves k k' src (Settles g k src dst)) : Ready g k' src dst x where
  toTracked := h
  settled c hc := by
    rw [hv.mergeTo]
    rcases hv.moved dst h.ne with e | ⟨z, hz, e⟩
    · exact hr.settled c (by rw [target?, ← e]; exact hc)
    · rw [hc] at e
      cases e
      exact hz.1

end Tracked

namespace Ready

section

variable (h : Ready g k src dst x)
include h

theorem content?_dst (hc : k.target? dst = some c) : k.content? dst = some c := by
  rw [content?_eq, hc, Option.map_some, representative_of_root (h.settled c hc)]

theorem settles_dst (hc : k.target? dst = some c) : Settles g k src dst c := by
  refine ⟨h.settled c hc, fun hd => ?_⟩
  have := (h.content?_dst hc).symm.trans (h.drop hd)
  exact Option.some.inj this

/-- What a neighbour of `src` has as content, `dst` has too, unless the content is forgotten. -/
theorem content?_neighbour (ho : other ≠ src)
    (hagree : g.content? other = g.content? src) (hs : (k.content? other).isSome)
    (hd : (k.content? dst).isSome) : k.content? other = k.content? dst ∨
      g.Drops src dst ∧ ∃ y, g.content? src = some y ∧
      k.content? other = some (k.representative y) := by
  cases hy : g.content? src with
  | none => exact .inl (h.filled other ho (hagree.trans hy) hs)
  | some y =>
    rcases h.kept other y ho (hagree.trans hy) with e | ⟨hdrop, -, e⟩
    · rcases h.own y hy hd with e' | hdrop
      · exact .inl (e.trans e'.symm)
      · exact .inr ⟨hdrop, y, rfl, e⟩
    · exact .inl (e.trans (h.drop hdrop).symm)

/-- If `dst` has no content, a neighbour of `src` can have one only from `src`. -/
theorem content?_source (ho : other ≠ src)
    (hagree : g.content? other = g.content? src) (hs : (k.content? other).isSome)
    (hd : k.content? dst = none) :
    ∃ y, g.content? src = some y ∧ k.content? other = some (k.representative y) := by
  cases hy : g.content? src with
  | none =>
    have := h.filled other ho (hagree.trans hy) hs
    rw [this, hd] at hs
    cases hs
  | some y =>
    rcases h.kept other y ho (hagree.trans hy) with e | ⟨hdrop, -, -⟩
    · exact ⟨y, rfl, e⟩
    · rw [h.drop hdrop] at hd
      cases hd

/-- A node that had a content points to one. -/
theorem not_bare {y : NodeId} (hn : n ≠ src) (hy : g.content? n = some y) : k.target? n ≠ none := by
  have hsome := h.keeps n hn (by rw [← Option.isSome_map, ← content?_eq, hy]; rfl)
  exact Option.isSome_iff_ne_none.mp hsome

end

section Reconcile

variable (h : Ready g k src dst x) (ho : other ≠ src) (hod : other ≠ dst)
  (hagree : g.content? other = g.content? src)
  (hm : Midway g k' src dst x fun a b => a = dst ∧ b = other ∨ a = other ∧ b = dst)
  (hv : Moves k k' src fun _ => False) (htar : ∀ a, k'.target? a = k.target? a)
include h ho hod hagree hm hv htar

/-- Both ends of the new edge have a content. -/
theorem reconcile_repoint (hs : (k'.target? other).isSome) (hc : k'.target? dst = some c) :
    ∃ k'', k'.repoint other c = .ok k'' ∧ Ready g k'' src dst x ∧
      Moves k' k'' src (Settles g k src dst) ∧ k''.target? other = some c := by
  have hcon := hv.toRewires.content?_of_target htar
  have hck : k.target? dst = some c := (htar dst).symm.trans hc
  have hset := h.settles_dst hck
  have hrc : k'.representative c = c := (hv.representative c).trans (representative_of_root hset.1)
  obtain ⟨k'', R, hok, hR, hoff, hm', hv'⟩ := hm.repoint ho hs (hm.target_live dst c h.ne hc)
    (hm.target_content dst c h.ne hc) hrc (by
      rintro a b (⟨rfl, -⟩ | ⟨rfl, -⟩)
      · rw [hc]; rfl
      · exact hs)
  have hRdst : ¬ R dst := by
    intro hRd
    obtain ⟨d, hd, hne⟩ := isStale_iff.mp (hR.stale dst hRd)
    rw [hc] at hd
    exact hne (Option.some.inj hd).symm
  have hX : ∀ a b, (a = dst ∧ b = other ∨ a = other ∧ b = dst) → R a → ¬ R b := by
    rintro a b (⟨rfl, -⟩ | ⟨-, rfl⟩) hRa hRb
    · exact hRdst hRa
    · exact hRdst hRb
  have hother : k''.target? other = some c := hR.target?_start hs
  have hm'' := hm'.close (by rw [hother, hR.target?_of_not hRdst, hc])
  have hv'' : Moves k' k'' src (Settles g k src dst) := hv'.mono fun z (hz : z = c) => hz ▸ hset
  have hvk : Moves k k'' src (Settles g k src dst) := (hv.mono fun _ => False.elim).trans hv''
  have hso : (k.content? other).isSome := by
    rw [content?_eq, Option.isSome_map, ← htar]
    exact hs
  have hcd : k.content? dst = some c := h.content?_dst hck
  refine ⟨k'', hok, ?_, hv'', hother⟩
  rcases h.content?_neighbour ho hagree hso (by rw [hcd]; rfl) with heq | ⟨hdrop, y, hy, hyo⟩
  · -- the neighbour has the content already, under this name or another
    refine (h.toTracked.of_content hm'' hvk fun n => ?_).ready h hvk
    rw [hR.content?_of_eq hm hoff hX hrc (by rw [hcon, heq, hcd]) n, hcon]
  · -- the content of the neighbour is forgotten
    have hcdst : c = dst := hset.2 hdrop
    have hR' : ∀ n, R n → k.content? n = some (k.representative y) ∧ k''.content? n = some dst := by
      intro n hn
      refine ⟨by rw [← hcon, hR.content?_eq hm hoff hX hn, hcon, hyo], ?_⟩
      rw [content?_eq, hR.target? hn, Option.map_some, hR.representative, hrc, hcdst]
    have hkeep : ∀ n, ¬ R n → k''.content? n = k.content? n := fun n hn => by
      rw [hR.toRewires.content?, hR.target?_of_not hn, ← hcon, content?_eq]
    have hroot : ∀ n y, g.content? n = some y → k.representative y = y := fun n y hny => by
      obtain ⟨u, -, hu⟩ := Option.map_eq_some_iff.mp hny
      rw [← hu, ← h.still hdrop]
      exact h.forest.representative_representative u
    refine (h.toTracked.of_moves hm'' hvk (fun n y' hn hy' => ?_) (fun n hn hnone hsn => ?_)
      (.inl (hkeep dst hRdst))).ready h hvk
    · by_cases hRn : R n
      · obtain ⟨e₁, e₂⟩ := hR' n hRn
        rcases h.kept n y' hn hy' with e | ⟨-, -, e⟩
        · rw [e, hroot n y' hy', hroot src y hy] at e₁
          cases e₁
          exact .inr ⟨hdrop, hy, e₂⟩
        · exact .inl (e₂.trans e.symm)
      · exact .inl (hkeep n hRn)
    · rw [hkeep dst hRdst, h.drop hdrop]
      by_cases hRn : R n
      · exact (hR' n hRn).2
      · rw [hkeep n hRn] at hsn ⊢
        rw [h.filled n hn hnone hsn, h.drop hdrop]

omit hod in
/-- Only the other end of the new edge has a content. -/
theorem reconcile_spread_dst (hsrc : c ≠ src) (hc : k'.target? other = some c)
    (hd : k'.target? dst = none) : ∃ k'', k'.spread dst c false = .ok k'' ∧ Ready g k'' src dst x ∧
      Moves k' k'' src (Settles g k src dst) ∧ k''.target? other = some c ∧
        Settles g k src dst c := by
  have hcon := hv.toRewires.content?_of_target htar
  have hdk : k.target? dst = none := (htar dst).symm.trans hd
  have hdc : k.content? dst = none := by rw [content?_eq, hdk]; rfl
  have hck : k.target? other = some c := (htar other).symm.trans hc
  have hroot : (k.node c).mergeTo = none := h.idle hdk c (h.target_live other c ho hck) hsrc
  have hset : Settles g k src dst c := ⟨hroot, fun hdrop => by
    rw [h.drop hdrop] at hdc
    cases hdc⟩
  obtain ⟨k'', V, hok, hV, hVweb, hm', hv'⟩ :=
    hm.spread (z := c) false h.ne hm.has_dst hm.dst_live hd
    ((hv.mergeTo c).trans hroot) (hm.target_live other c ho hc)
      (hm.target_content other c ho hc) (by
      rintro a b (⟨rfl, rfl⟩ | ⟨rfl, rfl⟩)
      · exact .inl ⟨rfl, hc⟩
      · exact .inr ⟨rfl, hc⟩) (.inl rfl)
  have hv'' : Moves k' k'' src (Settles g k src dst) := hv'.mono fun z (hz : z = c) => hz ▸ hset
  have hvk : Moves k k'' src (Settles g k src dst) := (hv.mono fun _ => False.elim).trans hv''
  have hrest : ∀ n, ¬ V n → k''.content? n = k.content? n := fun n hn => by
    rw [hV.toFills.content?_of_not hn, hcon]
  have hVdst : V dst := hV.covers dst .refl
  have hVo : ¬ V other := fun hVo => by
    rw [hV.bare other hVo] at hc
    cases hc
  obtain ⟨y, hy, hyo⟩ := h.content?_source ho hagree (by rw [content?_eq, hck]; rfl) hdc
  refine ⟨k'', hok, (h.toTracked.of_moves hm' hvk (fun n y hn hny => .inl (hrest n fun hVn => ?_))
    (fun n hn hnone hs => ?_) (.inr ⟨hdc, y, hy, ?_⟩)).ready h hvk, hv'',
    (hV.toFills.target?_of_not hVo).trans hc, hset⟩
  · exact h.not_bare hn hny ((htar n).symm.trans (hV.bare n hVn))
  · by_cases hVn : V n
    · rw [hV.toFills.content? hVn, hV.toFills.content? hVdst]
    · rw [hrest n hVn] at hs
      rw [h.filled n hn hnone hs, hdc] at hs
      cases hs
  · rw [hV.toFills.content? hVdst, ← hyo, hv.representative, content?_eq, hck, Option.map_some]

/-- Only `dst` has a content. -/
theorem reconcile_spread_other (hj : k'.Joined other dst) (hasn : k.Has other)
    (hlive : (k.node other).merged = false) (ht : k'.target? other = none)
    (hc : k'.target? dst = some c) :
    ∃ k'', k'.spread other c false = .ok k'' ∧ Ready g k'' src dst x ∧
      Moves k' k'' src (Settles g k src dst) ∧ k''.target? other = some c := by
  have hcon := hv.toRewires.content?_of_target htar
  have hck : k.target? dst = some c := (htar dst).symm.trans hc
  have hset := h.settles_dst hck
  obtain ⟨k'', V, hok, hV, hVweb, hm', hv'⟩ :=
    hm.spread (z := c) false ho (hv.toRewires.has.mpr hasn)
    ((hv.merged other).trans hlive) ht ((hv.mergeTo c).trans hset.1) (hm.target_live dst c h.ne hc)
    (hm.target_content dst c h.ne hc) (by
      rintro a b (⟨rfl, rfl⟩ | ⟨rfl, rfl⟩)
      · exact .inr ⟨rfl, hc⟩
      · exact .inl ⟨rfl, hc⟩) (.inr hj)
  have hv'' : Moves k' k'' src (Settles g k src dst) := hv'.mono fun z (hz : z = c) => hz ▸ hset
  have hvk : Moves k k'' src (Settles g k src dst) := (hv.mono fun _ => False.elim).trans hv''
  have hrest : ∀ n, ¬ V n → k''.content? n = k.content? n := fun n hn => by
    rw [hV.toFills.content?_of_not hn, hcon]
  have hVdst : ¬ V dst := fun hVd => by
    rw [hV.bare dst hVd] at hc
    cases hc
  refine ⟨k'', hok, (h.toTracked.of_moves hm' hvk (fun n y hn hny => .inl (hrest n fun hVn => ?_))
    (fun n hn hnone hs => ?_) (.inl (hrest dst hVdst))).ready h hvk, hv'',
    hV.target other (hV.covers other .refl)⟩
  · exact h.not_bare hn hny ((htar n).symm.trans (hV.bare n hVn))
  · rw [hrest dst hVdst]
    by_cases hVn : V n
    · rw [hV.toFills.content? hVn, hv.representative, representative_of_root hset.1,
        h.content?_dst hck]
    · rw [hrest n hVn] at hs ⊢
      exact h.filled n hn hnone hs

/-- `dst` and its new neighbour agree on their content. -/
theorem reconcile (hj : k'.Joined other dst) (hasn : k.Has other)
    (hlive : (k.node other).merged = false) (hsrc : k.target? other ≠ some src) :
    ∃ k'', k'.reconcile dst other = .ok k'' ∧ Ready g k'' src dst x ∧
      Moves k' k'' src (Settles g k src dst) ∧
      ∀ c, k''.target? other = some c → Settles g k src dst c := by
  unfold Graph.reconcile
  cases ht : k'.target? other with
  | some d =>
    cases hd : k'.target? dst with
    | some c =>
      obtain ⟨k'', hok, hr, hv', he⟩ :=
        h.reconcile_repoint ho hod hagree hm hv htar (by rw [ht]; rfl) hd
      refine ⟨k'', hok, hr, hv', fun c' hc' => ?_⟩
      rw [he] at hc'
      cases hc'
      exact h.settles_dst ((htar dst).symm.trans hd)
    | none =>
      obtain ⟨k'', hok, hr, hv', he, hset⟩ := h.reconcile_spread_dst ho hagree hm hv htar (by
        rintro rfl
        exact hsrc ((htar other).symm.trans ht)) ht hd
      refine ⟨k'', hok, hr, hv', fun c' hc' => ?_⟩
      rw [he] at hc'
      cases hc'
      exact hset
  | none =>
    cases hd : k'.target? dst with
    | some c =>
      obtain ⟨k'', hok, hr, hv', he⟩ :=
        h.reconcile_spread_other ho hod hagree hm hv htar hj hasn hlive ht hd
      refine ⟨k'', hok, hr, hv', fun c' hc' => ?_⟩
      rw [he] at hc'
      cases hc'
      exact h.settles_dst ((htar dst).symm.trans hd)
    | none =>
      have hm' := hm.close (ht.trans hd.symm)
      have hvk := hv.mono fun z (hz : False) => hz.elim (C := Settles g k src dst z)
      have hready := (h.toTracked.of_content hm' hvk (hv.toRewires.content?_of_target htar)).ready
        h hvk
      refine ⟨k', rfl, hready, .refl _ _ _, fun c hc => ?_⟩
      rw [ht] at hc
      cases hc

end Reconcile

/-- Moving one defer edge from `src` to `dst`. -/
theorem moveDefer {isSuccessor : Bool} (h : Ready g k src dst x) (ho : other ≠ src)
    (hagree : g.content? other = g.content? src) (hasn : k.Has other)
    (hlive : (k.node other).merged = false)
    (hedge : if isSuccessor then g.Defers src other else g.Defers other src) :
    ∃ k', moveDefer src dst k other isSuccessor = .ok k' ∧ Ready g k' src dst x ∧
      Moves k k' src (Settles g k src dst) ∧
      ∀ c, k'.target? other = some c → Settles g k src dst c := by
  by_cases hod : other = dst
  · unfold Graph.moveDefer
    rw [if_pos hod]
    exact ⟨k, rfl, h, .refl _ _ _, fun c hc => h.settles_dst (hod ▸ hc)⟩
  rw [moveDefer_eq hod]
  obtain ⟨k₁, hok₁, ht₁, hv₁, hsrc, -, -⟩ := h.toTracked.fixOther ho
  have h₁ := ht₁.ready h hv₁
  have hasn₁ : k₁.Has other := hv₁.toRewires.has.mpr hasn
  have hlive₁ : (k₁.node other).merged = false := (hv₁.merged other).trans hlive
  have hrs : rename src dst src = dst := if_pos rfl
  have hro : rename src dst other = other := if_neg ho
  -- the new edge, in its direction
  obtain ⟨k₂, b, hok₂, hj, hpt, hm₂, hv₂⟩ : ∃ k₂ b,
    k₁.addEither dst other isSuccessor = .ok (k₂, b) ∧
      k₂.Joined other dst ∧ (∀ a, (k₂.node a).pointsTo = (k₁.node a).pointsTo) ∧
      Midway g k₂ src dst x (fun a b => a = dst ∧ b = other ∨ a = other ∧ b = dst) ∧
      Moves k₁ k₂ src fun _ => False := by
    unfold addEither
    cases isSuccessor with
    | true =>
      obtain ⟨k₂, b, hok, hd, hpt, hm, hv⟩ :=
        h₁.addDefer h.ne ho h₁.has_dst hasn₁ h₁.dst_live hlive₁
        (Ne.symm hod) ⟨src, other, hedge, hrs, hro⟩
      exact ⟨k₂, b, hok, .inr hd, hpt, hm, hv⟩
    | false =>
      obtain ⟨k₂, b, hok, hd, hpt, hm, hv⟩ :=
        h₁.addDefer ho h.ne hasn₁ h₁.has_dst hlive₁ h₁.dst_live
        hod ⟨other, src, hedge, hro, hrs⟩
      exact ⟨k₂, b, hok, .inl hd, hpt, hm.weaken fun _ _ hX => hX.symm, hv⟩
  obtain ⟨k₃, hok₃, h₃, hv₃, hset⟩ :=
    h₁.reconcile ho hod hagree hm₂ hv₂ (fun a => congrArg Pointee.target? (hpt a)) hj
      hasn₁ hlive₁ hsrc
  have hback : ∀ z, Settles g k₁ src dst z → Settles g k src dst z := fun z =>
    (Settles.rewires hv₁.toRewires).mp
  refine ⟨k₃, ?_, h₃, (hv₁.trans (hv₂.mono fun _ => False.elim)).trans (hv₃.mono hback),
    fun c hc => hback c (hset c hc)⟩
  rw [hok₁, ok_bind, hok₂, ok_bind, hok₃]

/-- Moving several defer edges from `src` to `dst`. Their other ends point to contents that stay. -/
theorem moveDefers (isSuccessor : Bool) {l : List NodeId} (h : Ready g k src dst x)
    (hl : ∀ m ∈ l, m ≠ src ∧ g.content? m = g.content? src ∧ k.Has m ∧ (k.node m).merged = false ∧
      if isSuccessor then g.Defers src m else g.Defers m src) :
    ∃ k', l.foldlM (fun g m => Graph.moveDefer src dst g m isSuccessor) k = .ok k' ∧
      Ready g k' src dst x ∧ Moves k k' src (Settles g k src dst) ∧
      ∀ m ∈ l, ∀ c, k'.target? m = some c → Settles g k src dst c := by
  refine foldlM_total (P := fun done k' => Ready g k' src dst x ∧
    Moves k k' src (Settles g k src dst) ∧
    ∀ m ∈ done, ∀ c, k'.target? m = some c → Settles g k src dst c) ?_ ⟨h, .refl _ _ _, by simp⟩
  rintro done a rest k₁ hsplit ⟨h₁, hv₁, hdone⟩
  obtain ⟨has, hagree, hasa, hlive, hedge⟩ := hl a (by rw [hsplit]; simp)
  obtain ⟨k₂, hok, h₂, hv₂, hset⟩ := h₁.moveDefer has hagree (hv₁.toRewires.has.mpr hasa)
    ((hv₁.merged a).trans hlive) hedge
  have hback : ∀ z, Settles g k₁ src dst z → Settles g k src dst z := fun z =>
    (Settles.rewires hv₁.toRewires).mp
  refine ⟨k₂, hok, h₂, hv₁.trans (hv₂.mono hback), fun m hm c hc => ?_⟩
  rcases List.mem_append.mp hm with hm | hm
  · -- an earlier end has kept its content, or moved on to another one that stays
    have hms : m ≠ src := (hl m (by rw [hsplit]; simp [hm])).1
    rcases hv₂.moved m hms with e | ⟨z, hz, e⟩
    · exact hdone m hm c (by rw [target?, ← e]; exact hc)
    · rw [hc] at e
      cases e
      exact hback c hz
  · rw [List.mem_singleton.mp hm] at hc
    exact hback c (hset c hc)

end Ready

end Escape.Graph
