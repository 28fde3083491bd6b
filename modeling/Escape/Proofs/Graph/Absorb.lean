import Escape.Proofs.Graph.Shape

/-!
# Merging keeps the shape

One merge, in any graph that has the shape, also while other merges are pending. Between cutting the
node off and burying it the phases only rewire the rest of the graph.

- `Graph.absorb_shape`: a merge that completes keeps the shape, and the graph describes at least
  what it did before.
-/

namespace Escape.Graph

variable {g g' k k' : Graph} {src dst n m x : NodeId} {pend : NodeId → Prop} {R : NodeId → Prop}
  {other : NodeId} {isSuccessor : Bool}

/-! ### In the middle of a merge -/

/-- The node `src` is cut off and about to be buried; the rest of the graph has the shape. -/
structure Mid (k : Graph) (src : NodeId) : Prop where
  linked : Linked k (· = src)
  forest : Forest k
  src_links : (k.node src).mergeTo.isSome
  target_has : ∀ n c, n ≠ src → k.target? n = some c → k.Has c
  tomb_pointsTo : ∀ n, (k.node n).merged = true → (k.node n).pointsTo = .none
  tomb_defersTo : ∀ n, (k.node n).merged = true → (k.node n).defersTo = []
  defers_live : ∀ n m, k.Defers n m → (k.node m).merged = false

/-- From `k` to `k'` edges are moved. Nothing is taken away, and no node comes to point to the node
`src`, which is cut off. -/
structure Shifts (k k' : Graph) (src : NodeId) : Prop extends Rewires k k', Sustains k k' where
  avoids : ∀ n, k.target? n ≠ some src → k'.target? n ≠ some src

/-- From `k` to `k'` edges are moved, and contents are passed on as before. Nothing is said of the
defer edges that leave `src`. -/
structure Advances (k k' : Graph) (src : NodeId) : Prop extends Shifts k k' src where
  passes : ∀ except : NodeId → NodeId → Prop, (∀ b, except src b) → k.Passes except →
    k'.Passes except

theorem Shifts.refl (k : Graph) (src : NodeId) : Shifts k k src := ⟨.refl k, .refl k, fun _ h => h⟩

theorem Shifts.trans {k'' : Graph} (h : Shifts k k' src) (h' : Shifts k' k'' src) :
    Shifts k k'' src :=
  ⟨h.toRewires.trans h'.toRewires, h.toSustains.trans h'.toSustains,
    fun n hn => h'.avoids n (h.avoids n hn)⟩

theorem Advances.refl (k : Graph) (src : NodeId) : Advances k k src := ⟨.refl k src, fun _ _ h => h⟩

theorem Advances.trans {k'' : Graph} (h : Advances k k' src) (h' : Advances k' k'' src) :
    Advances k k'' src :=
  ⟨h.toShifts.trans h'.toShifts, fun except hsrc hp => h'.passes except hsrc
    (h.passes except hsrc hp)⟩

section

variable (h : Repoints k k' n x R)
include h

theorem Repoints.target? (hm : R m) : k'.target? m = some x := by
  obtain ⟨c, hc, -⟩ := isStale_iff.mp (h.stale m hm)
  rw [Graph.target?, h.pointsTo m hm]
  rcases target?_eq_some_iff.mp hc with e | e <;> rw [e] <;> rfl

theorem Repoints.target?_of_not (hm : ¬ R m) : k'.target? m = k.target? m := by
  rw [Graph.target?, h.pointsTo_of_not m hm, ← Graph.target?]

theorem Repoints.defers_iff {a b : NodeId} : k'.Defers a b ↔ k.Defers a b := by
  rw [Defers, h.defersTo, ← Defers]

theorem Repoints.hasEdge_iff : k'.HasEdge m ↔ k.HasEdge m := by
  by_cases hm : R m
  · rw [HasEdge, h.pointsTo m hm, HasEdge, Pointee.isEdge_retarget]
  · rw [HasEdge, h.pointsTo_of_not m hm, ← HasEdge]

omit h in
theorem Fills.target?_of_not {V : NodeId → Prop} (h : Fills k k' x V) (hm : ¬ V m) :
    k'.target? m = k.target? m := by
  rw [Graph.target?, h.pointsTo_of_not m hm, ← Graph.target?]

theorem Repoints.holds_iff (m : NodeId) : k'.Holds m ↔ k.Holds m := by
  by_cases hm : R m
  · obtain ⟨c, hc, -⟩ := isStale_iff.mp (h.stale m hm)
    simp [Holds, h.target? hm, hc]
  · rw [Holds, h.target?_of_not hm]

theorem Repoints.advances (hx : x ≠ src) : Advances k k' src := by
  refine ⟨⟨h.toRewires, .of_holds h.holds_iff (fun _ => h.hasEdge_iff.mpr)
    fun _ _ => h.defers_iff.mpr, fun m hm => ?_⟩,
    fun _ _ hp => hp.congr h.holds_iff fun _ _ => h.defers_iff.mp⟩
  by_cases hR : R m
  · rw [h.target? hR]
    exact fun e => hx (Option.some.inj e)
  · rwa [h.target?_of_not hR]

end

theorem Spreads.advances {V : NodeId → Prop} (h : Spreads k k' n x V) (hl : Linked k (· = src))
    (hx : x ≠ src) : Advances k k' src := by
  refine ⟨⟨h.toRewires, .of_fills h.toFills h.grounded, fun m hm => ?_⟩, fun except hsrc =>
    h.toFills.passes hl h.closed fun a b ha => ha ▸ hsrc b⟩
  by_cases hV : V m
  · rw [h.target m hV]
    exact fun e => hx (Option.some.inj e)
  · rwa [h.toFills.target?_of_not hV]

section

variable (h : AddsDefer k k' n m)
include h

theorem AddsDefer.defers_iff {a b : NodeId} : k'.Defers a b ↔ k.Defers a b ∨ a = n ∧ b = m := by
  rw [Defers, h.defersTo]
  split <;> simp_all [Defers]

theorem AddsDefer.target? (a : NodeId) : k'.target? a = k.target? a := by
  rw [Graph.target?, h.pointsTo, ← Graph.target?]

theorem AddsDefer.holds_iff (a : NodeId) : k'.Holds a ↔ k.Holds a := by
  rw [Holds, h.target?]

theorem AddsDefer.sustains : Sustains k k' := by
  refine .of_holds h.holds_iff (fun a ha => ?_) fun a b hab => h.defers_iff.mpr (.inl hab)
  rwa [HasEdge, h.pointsTo]

/-- A new defer edge passes no content on yet. -/
theorem AddsDefer.passes {except : NodeId → NodeId → Prop}
    (hp : k.Passes except) : k'.Passes fun a b => except a b ∨ a = n ∧ b = m := by
  intro a b hab hd hb
  rw [h.holds_iff] at hb ⊢
  rcases h.defers_iff.mp hd with hd | hseam
  · exact hp a b (fun he => hab (.inl he)) hd hb
  · exact absurd (.inr hseam) hab

end

/-- One defer edge more, unless it was there. -/
theorem addDefer_sustains {b : Bool} (hn : k.Has n) (hok : k.addDefer n m = .ok (k', b)) :
    Sustains k k' ∧ ∀ except, k.Passes except → k'.Passes fun a b => except a b ∨
    a = n ∧ b = m := by
  obtain ⟨-, ⟨rfl, -, -⟩ | ⟨rfl, -, -, -⟩⟩ := addDefer_cases hok
  · exact ⟨.refl k', fun _ hp => hp.mono fun _ _ => .inl⟩
  · have ha := addsDefer_linkDefer (m := m) hn
    exact ⟨ha.sustains, fun _ => ha.passes⟩

namespace Mid

variable (h : Mid k src)
include h

/-- The node about to be buried represents nothing. -/
theorem ne_representative (n : NodeId) : k.representative n ≠ src := by
  intro e
  have := h.forest.mergeTo_representative n
  rw [e] at this
  have hl := h.src_links
  rw [this] at hl
  cases hl

/-- A tombstone is joined to nothing. -/
theorem live_of_joined (hj : k.Joined n m) : (k.node n).merged = false := by
  by_contra hm
  rcases hj with hd | hd
  · rw [Defers, h.tomb_defersTo n (by simpa using hm)] at hd
    cases hd
  · exact hm (h.defers_live m n hd)

/-- Rewiring without new defer edges. -/
theorem rewires (hr : Rewires k k') (hl : Linked k' (· = src))
    (ht : ∀ n c, n ≠ src → k'.target? n = some c → k.Has c)
    (hp : ∀ n, (k.node n).merged = true → (k'.node n).pointsTo = .none)
    (hd : ∀ n, (k'.node n).defersTo = (k.node n).defersTo) : Mid k' src where
  linked := hl
  forest := h.forest.rewires hr
  src_links := by rw [hr.mergeTo]; exact h.src_links
  target_has n c hn hc := hr.has.mpr (ht n c hn hc)
  tomb_pointsTo n hm := hp n (by rwa [hr.merged] at hm)
  tomb_defersTo n hm := by
    rw [hd]
    exact h.tomb_defersTo n (by rwa [hr.merged] at hm)
  defers_live n m hnm := by
    rw [Defers, hd] at hnm
    rw [hr.merged]
    exact h.defers_live n m hnm

theorem repoint {content : NodeId} (hn : n ≠ src) (hc : k.Has content)
    (hok : k.repoint n content = .ok k') : Mid k' src ∧ Advances k k' src := by
  obtain ⟨R, hR, hl, -⟩ := repoint_spec h.linked hn (h.ne_representative content) rfl hok
  refine ⟨h.rewires hR.toRewires hl (fun a c ha hac => ?_) (fun a ha => ?_) hR.defersTo,
    hR.advances (h.ne_representative content)⟩
  · by_cases hRa : R a
    · rw [hR.target? hRa] at hac
      cases hac
      exact h.forest.has_representative hc
    · rw [hR.target?_of_not hRa] at hac
      exact h.target_has a c ha hac
  · have hbare := h.tomb_pointsTo a ha
    rw [hR.pointsTo_of_not a fun hRa => ?_, hbare]
    obtain ⟨c, hc, -⟩ := isStale_iff.mp (hR.stale a hRa)
    rw [target?_eq_none_iff.mpr hbare] at hc
    cases hc

theorem spread {own : Bool} (hn : n ≠ src) (hasn : k.Has n)
    (hlive : (k.node n).merged = false) (hb : k.target? n = none) (hx : x ≠ src) (hasx : k.Has x)
    (hok : k.spread n x own = .ok k') : Mid k' src ∧ Advances k k' src := by
  obtain ⟨V, hV, hl⟩ := spread_spec h.linked hn hx hasn hb hok
  refine ⟨h.rewires hV.toRewires hl (fun a c ha hac => ?_) (fun a ha => ?_) hV.defersTo,
    hV.advances h.linked hx⟩
  · by_cases hVa : V a
    · rw [hV.target a hVa] at hac
      cases hac
      exact hasx
    · rw [hV.toFills.target?_of_not hVa] at hac
      exact h.target_has a c ha hac
  · rw [hV.pointsTo_of_not a fun hVa => ?_, h.tomb_pointsTo a ha]
    rcases hV.near a hVa with rfl | ⟨b, hj⟩
    · rw [hlive] at ha
      cases ha
    · rw [h.live_of_joined hj] at ha
      cases ha

theorem addDefer {b : Bool} (hn : n ≠ src) (hm : m ≠ src) (hasn : k.Has n)
    (hasm : k.Has m) (hlive : (k.node n).merged = false) (hne : n ≠ m)
    (hok : k.addDefer n m = .ok (k', b)) : Mid k' src ∧ Shifts k k' src ∧ k'.Defers n m ∧
      ∀ except, k.Passes except → k'.Passes fun a b => except a b ∨ a = n ∧ b = m := by
  obtain ⟨hsus, hpass⟩ := addDefer_sustains hasn hok
  obtain ⟨hlivem, ⟨rfl, -, hor⟩ | ⟨rfl, -, -, hnew⟩⟩ := addDefer_cases hok
  · exact ⟨h, .refl k' src, hor.resolve_left hne, hpass⟩
  · have ha := addsDefer_linkDefer (m := m) hasn
    refine ⟨?_, ⟨ha.toRewires, hsus, fun a haa => by rwa [ha.target?]⟩,
      ha.defers_iff.mpr (.inr ⟨rfl, rfl⟩), hpass⟩
    exact {
      linked := h.linked.linkDefer hn hm hasn hasm hne hnew
      forest := h.forest.rewires ha.toRewires
      src_links := by rw [ha.mergeTo]; exact h.src_links
      target_has := fun a c hasrc hac => by
        rw [ha.target?] at hac
        exact ha.toRewires.has.mpr (h.target_has a c hasrc hac)
      tomb_pointsTo := fun a hma => by
        rw [ha.merged] at hma
        rw [ha.pointsTo]
        exact h.tomb_pointsTo a hma
      tomb_defersTo := fun a hma => by
        rw [ha.merged] at hma
        rw [ha.defersTo, if_neg, h.tomb_defersTo a hma]
        rintro rfl
        rw [hlive] at hma
        cases hma
      defers_live := fun a c hac => by
        rw [ha.merged]
        rcases ha.defers_iff.mp hac with hac | ⟨-, rfl⟩
        · exact h.defers_live a c hac
        · exact hlivem }

end Mid

/-- Nothing is renamed to `src`. -/
theorem rename_ne (hne : dst ≠ src) (c : NodeId) : rename src dst c ≠ src := by
  unfold rename
  split
  · exact hne
  · assumption

theorem rename_has (hd : k.Has dst) {c : NodeId} (hc : k.Has c) : k.Has (rename src dst c) := by
  unfold rename
  split
  · exact hd
  · exact hc

/-! ### The phases -/

theorem takeEdge_advances (h : Mid k src) (hne : dst ≠ src) (hd : k.Has dst)
    (hlive : (k.node dst).merged = false)
    (hsrc : ∀ c, k.target? src = some c → k.Has c) (hok : k.takeEdge src dst = .ok k') :
    Mid k' src ∧ Advances k k' src := by
  unfold takeEdge at hok
  split at hok
  · rename_i c hc
    have hasc : k.Has c := hsrc c (target?_of_edge hc)
    split at hok
    · rename_i hnone
      exact h.spread hne hd hlive (target?_eq_none_iff.mpr hnone) (rename_ne hne c)
        (rename_has hd hasc) hok
    · rename_i d hdd
      -- An inferred content becomes an edge: the same nodes hold one.
      cases hok
      have hasd : k.Has (rename src dst d) :=
        rename_has hd (h.target_has dst d hne (target?_of_inferred hdd))
      have ha := assigns_linkEdge (c := rename src dst d) hd
      have hno : ¬ k.HasEdge dst := by simp [HasEdge, hdd, Pointee.isEdge]
      refine ⟨h.rewires ha.toRewires (h.linked.linkEdge hne (rename_ne hne d) hd hasd hno) ?_ ?_
        ha.defersTo, ?_⟩
      · intro a e hasrc hae
        rw [target?, ha.pointsTo] at hae
        split at hae
        · cases hae
          exact hasd
        · exact h.target_has a e hasrc hae
      · intro a hma
        rw [ha.pointsTo, if_neg, h.tomb_pointsTo a hma]
        rintro rfl
        rw [hlive] at hma
        cases hma
      · have hholds : ∀ a, (k.linkEdge dst (rename src dst d)).Holds a ↔ k.Holds a := fun a => by
          rw [Holds, target?, ha.pointsTo]
          split
          · rename_i e
            simp [Holds, e, target?_of_inferred hdd, Pointee.target?]
          · rfl
        have hdefers : ∀ a b, (k.linkEdge dst (rename src dst d)).Defers a b ↔
          k.Defers a b := fun a b => by
          rw [Defers, ha.defersTo, ← Defers]
        refine ⟨⟨ha.toRewires, .of_holds hholds (fun a haa => ?_) fun a b => (hdefers a b).mpr,
          fun a haa => ?_⟩, fun _ _ hp => hp.congr hholds fun a b => (hdefers a b).mp⟩
        · rw [HasEdge, ha.pointsTo]
          split
          · rfl
          · exact haa
        · rw [target?, ha.pointsTo]
          split
          · exact fun e => rename_ne hne d (Option.some.inj e)
          · exact haa
    · cases hok
      exact ⟨h, .refl _ _⟩
  · cases hok
    exact ⟨h, .refl _ _⟩
  · cases hok
    exact ⟨h, .refl _ _⟩

/-- If `src` has an edge, `dst` can defer to a node that has one. -/
theorem takeEdge_comes (h : Mid k src) (hne : dst ≠ src) (hd : k.Has dst)
    (hp : k.Passes fun a _ => a = src) (he : k.HasEdge src) (hok : k.takeEdge src dst = .ok k') :
    ∃ e, ReflTransGen k'.Defers dst e ∧ k'.HasEdge e := by
  unfold takeEdge at hok
  split at hok
  · rename_i c hc
    split at hok
    · rename_i hnone
      have hbare : k.target? dst = none := target?_eq_none_iff.mpr hnone
      obtain ⟨V, hV, -⟩ := spread_spec h.linked hne (rename_ne hne c) hd hbare hok
      obtain ⟨e, hpath, he⟩ := hV.grounded dst (hV.covers dst .refl)
      refine ⟨e, hpath.lift id fun _ _ => hV.defers_iff.mpr, he.resolve_right fun hholds => ?_⟩
      -- `dst` would have had the content of `e`
      have hdst := hp.path h.linked hne hpath hholds
      rw [Holds, hbare] at hdst
      cases hdst
    · rename_i d hdd
      cases hok
      refine ⟨dst, .refl, ?_⟩
      rw [HasEdge, (assigns_linkEdge hd).pointsTo, if_pos rfl]
      rfl
    · rename_i d hdd
      cases hok
      exact ⟨dst, .refl, by rw [HasEdge, hdd]; rfl⟩
  · rename_i hnone
    rw [HasEdge, hnone] at he
    cases he
  · rename_i d hinf
    rw [HasEdge, hinf] at he
    cases he

/-- Adds a defer edge between `dst` and `other`. -/
def addEither (k : Graph) (dst other : NodeId) (isSuccessor : Bool) : Checked (Graph × Bool) :=
  if isSuccessor then k.addDefer dst other else k.addDefer other dst

/-- Lets `dst` and `other` agree on their content. -/
def reconcile (k : Graph) (dst other : NodeId) : Checked Graph :=
  match k.target? other, k.target? dst with
  | some _, some c => k.repoint other c
  | some c, none => k.spread dst c false
  | none, some c => k.spread other c false
  | none, none => return k

/-- The steps of `moveDefer` for a node other than `dst`. -/
theorem moveDefer_eq (ho : other ≠ dst) :
    moveDefer src dst k other isSuccessor = (do
      let k₁ ← k.fixOther src dst other
      let k₂ ← k₁.addEither dst other isSuccessor
      k₂.1.reconcile dst other) := by
  unfold moveDefer
  rw [if_neg ho]
  show (if k.target? other = some src then _ else _) = _
  unfold fixOther addEither
  by_cases hsrc : k.target? other = some src
  · rw [if_pos hsrc, if_pos hsrc]
    cases isSuccessor <;> rfl
  · rw [if_neg hsrc, if_neg hsrc]
    cases isSuccessor <;> rfl

/-- Spreading leaves the node that it starts at with a content. -/
theorem spread_holds {own : Bool} {off : NodeId → Prop} (h : Linked k off) (hn : ¬ off n)
    (hx : ¬ off x) (hasn : k.Has n) (hb : k.target? n = none) (hok : k.spread n x own = .ok k') :
    k'.Holds n := by
  obtain ⟨V, hV, -⟩ := spread_spec h hn hx hasn hb hok
  rw [Holds, hV.target n (hV.covers n .refl)]
  rfl

section

variable (h : Mid k src)
include h

theorem reconcile_advances (hne : dst ≠ src) (ho : other ≠ src) (hd : k.Has dst) (hho : k.Has other)
    (hlive : (k.node dst).merged = false)
    (hlive' : (k.node other).merged = false) (hsrc : k.target? other ≠ some src)
    (hsrc' : k.target? dst ≠ some src) (hok : k.reconcile dst other = .ok k') :
    Mid k' src ∧ Advances k k' src ∧ (k'.Holds dst ↔ k'.Holds other) := by
  unfold reconcile at hok
  split at hok
  · rename_i c hother hc
    obtain ⟨hm, ha⟩ := h.repoint ho (h.target_has dst c hne hc) hok
    have hdst : k'.Holds dst := ha.holds dst (by simp [Holds, hc])
    have hother : k'.Holds other := ha.holds other (by simp [Holds, hother])
    exact ⟨hm, ha, iff_of_true hdst hother⟩
  · rename_i c hc hnone
    obtain ⟨hm, ha⟩ := h.spread hne hd hlive hnone (fun e => hsrc (e ▸ hc))
      (h.target_has other c ho hc) hok
    have hother : k'.Holds other := ha.holds other (by simp [Holds, hc])
    exact ⟨hm, ha, iff_of_true
      (spread_holds h.linked hne (fun e => hsrc (e ▸ hc)) hd hnone hok) hother⟩
  · rename_i c hnone hc
    obtain ⟨hm, ha⟩ := h.spread ho hho hlive' hnone (fun e => hsrc' (e ▸ hc))
      (h.target_has dst c hne hc) hok
    have hdst : k'.Holds dst := ha.holds dst (by simp [Holds, hc])
    exact ⟨hm, ha, iff_of_true hdst
      (spread_holds h.linked ho (fun e => hsrc' (e ▸ hc)) hho hnone hok)⟩
  · rename_i hnone hnone'
    cases hok
    exact ⟨h, .refl _ _, by simp [Holds, hnone, hnone']⟩

theorem fixOther_advances (ho : other ≠ src) (hd : k.Has dst)
    (hok : k.fixOther src dst other = .ok k') :
    Mid k' src ∧ Advances k k' src ∧ k'.target? other ≠ some src := by
  unfold fixOther at hok
  split at hok
  · rename_i hsrc
    obtain ⟨R, hR, -, -⟩ := repoint_spec h.linked ho (h.ne_representative dst) rfl hok
    have hstale : k.isStale (k.representative dst) other = true :=
      isStale_iff.mpr ⟨src, hsrc, (h.ne_representative dst).symm⟩
    obtain ⟨hm, ha⟩ := h.repoint ho hd hok
    refine ⟨hm, ha, ?_⟩
    rw [hR.target? (hR.start hstale)]
    exact fun e => h.ne_representative dst (Option.some.inj e)
  · rename_i hsrc
    cases hok
    exact ⟨h, .refl _ _, hsrc⟩

theorem addEither_advances {b : Bool} (hne : dst ≠ src) (ho : other ≠ src) (hd : k.Has dst)
    (hho : k.Has other)
    (hlive : (k.node dst).merged = false) (hlive' : (k.node other).merged = false)
    (hod : other ≠ dst) (hok : k.addEither dst other isSuccessor = .ok (k', b)) :
    Mid k' src ∧ Shifts k k' src ∧
      (if isSuccessor then k'.Defers dst other else k'.Defers other dst) ∧
      ∃ x y, (x = dst ∧ y = other ∨ x = other ∧ y = dst) ∧
        ∀ except, k.Passes except → k'.Passes fun a b => except a b ∨ a = x ∧ b = y := by
  unfold addEither at hok
  cases isSuccessor with
  | true =>
    obtain ⟨hm, ha, hnew, hp⟩ := h.addDefer hne ho hd hho hlive hod.symm hok
    exact ⟨hm, ha, hnew, dst, other, .inl ⟨rfl, rfl⟩, hp⟩
  | false =>
    obtain ⟨hm, ha, hnew, hp⟩ := h.addDefer ho hne hho hd hlive' hod hok
    exact ⟨hm, ha, hnew, other, dst, .inr ⟨rfl, rfl⟩, hp⟩

/-- Moving one defer edge. -/
theorem moveDefer_advances (hne : dst ≠ src) (ho : other ≠ src) (hd : k.Has dst) (hho : k.Has other)
    (hlive : (k.node dst).merged = false)
    (hlive' : (k.node other).merged = false) (hsrc : k.target? dst ≠ some src)
    (hok : moveDefer src dst k other isSuccessor = .ok k') :
    Mid k' src ∧ Advances k k' src ∧ (other ≠ dst →
      if isSuccessor then k'.Defers dst other else k'.Defers other dst) := by
  by_cases hod : other = dst
  · unfold moveDefer at hok
    rw [if_pos hod] at hok
    cases hok
    exact ⟨h, .refl _ _, fun e => absurd hod e⟩
  · rw [moveDefer_eq hod] at hok
    obtain ⟨k₁, h₁, hok⟩ := bind_ok.mp hok
    obtain ⟨⟨k₂, b⟩, h₂, hok⟩ := bind_ok.mp hok
    obtain ⟨hm₁, ha₁, hsrc₁⟩ := fixOther_advances h ho hd h₁
    obtain ⟨hm₂, ha₂, hnew, x, y, hxy, hp₂⟩ :=
      addEither_advances hm₁ hne ho (ha₁.toRewires.has.mpr hd)
      (ha₁.toRewires.has.mpr hho) ((ha₁.merged dst).trans hlive) ((ha₁.merged other).trans hlive')
      hod h₂
    have ha₁₂ := ha₁.toShifts.trans ha₂
    obtain ⟨hm₃, ha₃, hagree⟩ := reconcile_advances hm₂ hne ho (ha₁₂.toRewires.has.mpr hd)
      (ha₁₂.toRewires.has.mpr hho) ((ha₁₂.merged dst).trans hlive)
      ((ha₁₂.merged other).trans hlive') (ha₂.avoids other hsrc₁) (ha₁₂.avoids dst hsrc) hok
    refine ⟨hm₃, ⟨ha₁₂.trans ha₃.toShifts, fun except hsrc hp => ?_⟩, fun _ => ?_⟩
    · -- both ends of the new defer edge have a content in the end, or none
      have hseam : k'.Holds y → k'.Holds x := by
        rcases hxy with ⟨rfl, rfl⟩ | ⟨rfl, rfl⟩
        · exact hagree.mpr
        · exact hagree.mp
      exact (ha₃.passes _ (fun b => .inl (hsrc b))
        (hp₂ except (ha₁.passes except hsrc hp))).seam hseam
    · cases isSuccessor with
      | true => exact ha₃.defers _ _ hnew
      | false => exact ha₃.defers _ _ hnew

/-- Moving several defer edges. -/
theorem moveDefers_advances {l : List NodeId} (hne : dst ≠ src) (hd : k.Has dst)
    (hlive : (k.node dst).merged = false)
    (hl : ∀ m ∈ l, m ≠ src ∧ k.Has m ∧ (k.node m).merged = false) (hsrc : k.target? dst ≠ some src)
    (hok : l.foldlM (fun g m => moveDefer src dst g m isSuccessor) k = .ok k') :
    Mid k' src ∧ Advances k k' src ∧ ∀ m ∈ l, m ≠ dst →
      if isSuccessor then k'.Defers dst m else k'.Defers m dst := by
  refine foldlM_of_ok (P := fun done k' => Mid k' src ∧ Advances k k' src ∧
    ∀ m ∈ done, m ≠ dst → if isSuccessor then k'.Defers dst m else k'.Defers m dst) ?_ ?_ hok
  · rintro done a rest k₁ k₂ hsplit ⟨hm, ha, hdone⟩ hstep
    obtain ⟨hasrc, hasa, hlivea⟩ := hl a (by rw [hsplit]; simp)
    obtain ⟨hm', ha', hnew⟩ := moveDefer_advances hm hne hasrc (ha.toRewires.has.mpr hd)
      (ha.toRewires.has.mpr hasa) ((ha.merged dst).trans hlive) ((ha.merged a).trans hlivea)
      (ha.avoids dst hsrc) hstep
    refine ⟨hm', ha.trans ha', fun b hb hbd => ?_⟩
    rcases List.mem_append.mp hb with hb | hb
    · have := hdone b hb hbd
      cases isSuccessor with
      | true => exact ha'.defers _ _ this
      | false => exact ha'.defers _ _ this
    · rw [List.mem_singleton.mp hb] at hbd ⊢
      exact hnew hbd
  · exact ⟨h, .refl k src, by simp⟩

theorem alignPred_advances {p : Pred} (hp : p.kind = .pointsTo → p.node ≠ src)
    (hd : k.Has dst) (hok : alignPred dst k p = .ok k') : Mid k' src ∧ Advances k k' src := by
  unfold alignPred at hok
  split at hok
  · rename_i hkind
    have hnb : ∀ m ∈ k.neighbours p.node, m ≠ src := fun m hm =>
      ((h.linked.mem_neighbours (hp hkind)).mp hm).1
    refine foldlM_of_ok (P := fun _ k' => Mid k' src ∧ Advances k k' src) ?_
      ⟨h, .refl k src⟩ hok
    rintro done a rest k₁ k₂ hsplit ⟨hm, ha⟩ hstep
    split at hstep
    · obtain ⟨hm', ha'⟩ := hm.repoint (hnb a (by rw [hsplit]; simp)) (ha.toRewires.has.mpr hd) hstep
      exact ⟨hm', ha.trans ha'⟩
    · cases hstep
      exact ⟨hm, ha⟩
  · cases hok
    exact ⟨h, .refl _ _⟩

end

/-- The loop over the entries at `dst`. -/
theorem alignPreds_advances {bound i : Nat} (hne : dst ≠ src) (h : Mid k src) (hd : k.Has dst)
    (hok : alignPreds dst bound i k = .ok k') : Mid k' src ∧ Advances k k' src := by
  refine alignPreds_induct (P := fun k' => Mid k' src ∧ Advances k k' src)
    (fun k₁ p k₂ ⟨hm, ha⟩ hp h₁ => ?_) _ _ ⟨h, .refl _ _⟩ hok
  have hpsrc : p.kind = .pointsTo → p.node ≠ src := by
    intro hkind
    obtain ⟨_, a⟩ := p
    cases hkind
    exact (hm.linked.of_edge a dst hne hp).1
  obtain ⟨hm', ha'⟩ := alignPred_advances hm hpsrc (ha.toRewires.has.mpr hd) h₁
  exact ⟨hm', ha.trans ha'⟩

/-! ### Scheduling the contents -/

/-- From `k` to `k'` nothing is scheduled, or one merge: a root is linked to another root, and waits
in front of the others. Edges stay as they are. -/
structure Schedules (k k' : Graph) : Prop where
  size : k'.size = k.size
  field : ∀ {α : Type} (p : Node → α),
    (∀ x t i r, p { x with mergeTo := t, interior := i, referenceOnly := r } = p x) →
    ∀ n, p (k'.node n) = p (k.node n)
  values : k'.values = k.values
  returnNode : k'.returnNode = k.returnNode
  header : k'.header = k.header
  links : k' = k ∨ ∃ s d, k.Has s ∧ Links k k' s d ∧ k'.pending = s :: k.pending

theorem Schedules.refl (k : Graph) : Schedules k k :=
  ⟨rfl, fun _ _ _ => rfl, rfl, rfl, rfl, .inl rfl⟩

theorem schedules_schedule (hf : Forest k) (hn : k.Has n) (hm : k.Has m) :
    Schedules k (k.schedule n m) where
  size := size_schedule k n m
  field p hp a := schedule_field p hp n m a
  values := (schedule_rest k n m).1
  returnNode := (schedule_rest k n m).2.1
  header := (schedule_rest k n m).2.2
  links := by
    rcases schedule_cases hf hn hm with ⟨-, e⟩ | ⟨hl, hp⟩
    · exact .inl e
    · exact .inr ⟨_, _, hf.has_representative hn, hl, hp⟩

namespace Schedules

variable (h : Schedules k k')
include h

theorem has : k'.Has n ↔ k.Has n := by rw [Has, Has, h.size]

theorem pointsTo : ∀ n, (k'.node n).pointsTo = (k.node n).pointsTo :=
  h.field Node.pointsTo fun _ _ _ _ => rfl

theorem defersTo : ∀ n, (k'.node n).defersTo = (k.node n).defersTo :=
  h.field Node.defersTo fun _ _ _ _ => rfl

theorem merged : ∀ n, (k'.node n).merged = (k.node n).merged :=
  h.field Node.merged fun _ _ _ _ => rfl

theorem isContent : ∀ n, (k'.node n).isContent = (k.node n).isContent :=
  h.field Node.isContent fun _ _ _ _ => rfl

theorem target? (n : NodeId) : k'.target? n = k.target? n :=
  congrArg Pointee.target? (h.pointsTo n)

theorem hasEdge_iff : k'.HasEdge n ↔ k.HasEdge n := by
  rw [HasEdge, h.pointsTo, ← HasEdge]

theorem defers_iff {a b : NodeId} : k'.Defers a b ↔ k.Defers a b := by
  rw [Defers, h.defersTo, ← Defers]

theorem sustains : Sustains k k' :=
  .of_holds (fun n => by rw [Holds, h.target?]) (fun _ => h.hasEdge_iff.mpr)
    fun _ _ => h.defers_iff.mpr

theorem passes {except : NodeId → NodeId → Prop} (hp : k.Passes except) : k'.Passes except :=
  hp.congr (fun n => by rw [Holds, h.target?]) fun _ _ => h.defers_iff.mp

theorem mergeTo_isSome (hn : (k.node n).mergeTo.isSome) : (k'.node n).mergeTo.isSome := by
  rcases h.links with e | ⟨s, d, -, hl, -⟩
  · rw [e]
    exact hn
  · rw [hl.mergeTo]
    split
    · rfl
    · exact hn

/-- A link from root to root makes no cycle. -/
theorem forest (hf : Forest k) : Forest k' := by
  rcases h.links with e | ⟨s, d, -, hl, -⟩
  · rw [e]
    exact hf
  · exact hl.forest hf

/-- Representatives only grow together. -/
theorem representative_congr (hf : Forest k)
    (e : k.representative n = k.representative m) : k'.representative n = k'.representative m := by
  rcases h.links with e' | ⟨s, d, -, hl, -⟩
  · rw [e']
    exact e
  · rw [hl.representative hf, hl.representative hf, e]

theorem linked {off : NodeId → Prop} (hl : Linked k off) : Linked k' off :=
  hl.congr h.pointsTo h.defersTo (h.field _ fun _ _ _ _ => rfl)

theorem mid (hm : Mid k src) : Mid k' src where
  linked := h.linked hm.linked
  forest := h.forest hm.forest
  src_links := h.mergeTo_isSome hm.src_links
  target_has n c hn hc := by
    rw [h.target?] at hc
    exact h.has.mpr (hm.target_has n c hn hc)
  tomb_pointsTo n hn := by
    rw [h.merged] at hn
    rw [h.pointsTo]
    exact hm.tomb_pointsTo n hn
  tomb_defersTo n hn := by
    rw [h.merged] at hn
    rw [h.defersTo]
    exact hm.tomb_defersTo n hn
  defers_live n m hd := by
    rw [h.merged]
    exact hm.defers_live n m (h.defers_iff.mp hd)

end Schedules

theorem matchContents_schedules (h : Mid k src) (hne : dst ≠ src) (hd : k.Has dst)
    {content : Option NodeId} (hc : ∀ c, content = some c → k.Has c) :
    Schedules k (k.matchContents src dst content) := by
  unfold matchContents
  split
  · rename_i d c hdst
    split
    · exact .refl k
    · exact schedules_schedule h.forest (rename_has hd (hc c rfl)) (h.target_has dst d hne hdst)
  · exact .refl k

/-! ### All phases before the burial -/

variable {h : Graph}

/-- From `g` to `k` all phases of merging `src` into `dst` were run, except that `src` is not buried
yet. -/
structure Merges (g k : Graph) (src dst : NodeId) : Prop where
  mid : Mid k src
  size : k.size = g.size
  field : ∀ {α : Type} (p : Node → α), (∀ x pt df pr us mt i r, p { x with
    pointsTo := pt, defersTo := df, preds := pr, usePoints := us, mergeTo := mt, interior := i,
    referenceOnly := r } = p x) → ∀ n, p (k.node n) = p (g.node n)
  values : k.values = g.values
  returnNode : k.returnNode = g.returnNode
  header : k.header = g.header
  merge : ∀ a b, g.representative a = g.representative b → k.representative a = k.representative b
  links : ∀ n, (g.node n).mergeTo.isSome → (k.node n).mergeTo.isSome
  waits : (∀ n, (k.node n).mergeTo = (g.node n).mergeTo) ∧ k.pending = g.pending ∨
    ∃ s d, g.Has s ∧ (g.node s).mergeTo = none ∧ k.pending = s :: g.pending ∧
      ∀ n, (k.node n).mergeTo = if n = s then some d else (g.node n).mergeTo
  defers : ∀ a b, g.Defers a b →
    rename src dst a = rename src dst b ∨ k.Defers (rename src dst a) (rename src dst b)
  supplies : Supplied g nobody → Supplied k (· = src) ∧ ∀ n, g.Holds n → k.Holds (rename src dst n)

theorem Merges.value (hmg : Merges g k src dst) : ∀ n, (k.node n).value = (g.node n).value :=
  hmg.field Node.value fun _ _ _ _ _ _ _ _ => rfl

theorem Merges.merged (hmg : Merges g k src dst) : ∀ n, (k.node n).merged = (g.node n).merged :=
  hmg.field Node.merged fun _ _ _ _ _ _ _ _ => rfl

section

variable (hc : CutOff g h src dst)
include hc

theorem CutOff.mid (hs : Shape g pend) (hd : g.Has dst) (hsrc : (g.node src).mergeTo.isSome) :
    Mid h src where
  linked := hc.linked
  forest := hs.forest.rewires hc.toRewires
  src_links := by rw [hc.mergeTo]; exact hsrc
  target_has n c hn ht := by
    rw [target?, hc.pointsTo n hn] at ht
    refine hc.toRewires.has.mpr ?_
    split at ht
    · cases ht
      exact hd
    · exact hs.target_has n c ht
  tomb_pointsTo n hm := by
    rw [hc.merged] at hm
    by_cases hn : n = src
    · rw [hn, hc.pointsTo_src, ← hn, hs.tomb_pointsTo n hm]
    · rw [hc.pointsTo n hn, hs.tomb_pointsTo n hm]
      rfl
  tomb_defersTo n hm := by
    rw [hc.merged] at hm
    rw [hc.defersTo, hs.tomb_defersTo n hm]
    rfl
  defers_live n m hd := by
    rw [Defers, hc.defersTo] at hd
    rw [hc.merged]
    exact hs.defers_live n m (List.mem_filter.mp hd).1

theorem CutOff.defers_iff {a b : NodeId} : h.Defers a b ↔ g.Defers a b ∧ b ≠ src := by
  simp [Defers, hc.defersTo]

theorem CutOff.holds_iff (n : NodeId) : h.Holds n ↔ g.Holds n := by
  by_cases hn : n = src
  · rw [hn, Holds, target?, hc.pointsTo_src, ← target?]
  · rw [Holds, target?, hc.pointsTo n hn]
    split
    · rename_i he
      simp [Holds, target?_of_edge he, Pointee.target?]
    · rfl

theorem CutOff.edges_iff (n : NodeId) : h.HasEdge n ↔ g.HasEdge n := by
  by_cases hn : n = src
  · rw [hn, HasEdge, hc.pointsTo_src, ← HasEdge]
  · rw [HasEdge, hc.pointsTo n hn]
    split
    · rename_i he
      simp [HasEdge, he, Pointee.isEdge]
    · rfl

end

/-- What the cut-off node deferred to. -/
theorem CutOff.mem_defersTo (hc : CutOff g (h.dropEdge src) src dst) :
    m ∈ (h.node src).defersTo ↔ m ≠ src ∧ g.Defers src m := by
  rw [← dropEdge_field Node.defersTo fun x q => x.erasePred_defersTo q]
  exact hc.defers_iff.trans and_comm

theorem Linked.mem_deferPreds (hl : Linked g nobody) :
    m ∈ (g.node n).deferPreds ↔ g.Defers m n := by
  rw [Graph.mem_deferPreds]
  exact ⟨fun hin => (hl.of_defer m n not_false hin).2, fun hd => (hl.defer m n not_false hd).2⟩

/-- Every defer edge is kept under the new names if `dst` has taken over those of `src`, in and out.
-/
theorem defers_renamed (hl : Linked g nobody) (hkeep : ∀ a b, g.Defers a b → b ≠ src → k.Defers a b)
    (hin : ∀ a, g.Defers a src → a ≠ dst → k.Defers a dst)
    (hout : ∀ b, b ≠ src → g.Defers src b → b ≠ dst → k.Defers dst b) {a b : NodeId}
    (hab : g.Defers a b) : rename src dst a = rename src dst b ∨ k.Defers (rename src dst a)
    (rename src dst b) := by
  unfold rename
  by_cases hb : b = src
  · rw [hb] at hab
    have ha : a ≠ src := fun e => hl.irrefl src not_false (e ▸ hab)
    rw [if_neg ha, if_pos hb]
    exact or_iff_not_imp_left.mpr (hin a hab)
  · rw [if_neg hb]
    by_cases ha : a = src
    · rw [if_pos ha]
      exact or_iff_not_imp_left.mpr fun hbd => hout b hb (ha ▸ hab) (Ne.symm hbd)
    · rw [if_neg ha]
      exact .inr (hkeep a b hab hb)

/-- **A merge leaves no node without content.** The node `src` had its content from an edge. Either
that is its own, and `dst` took it over, or the way to it starts with a node that `dst` now defers
to. -/
theorem CutOff.supplies (hc : CutOff g h src dst) (hne : dst ≠ src) (hl : Linked g nobody)
    (hlk : Linked k (· = src)) (hsus : Sustains h k) (hpass : k.Passes fun a _ => a = src)
    (hedge : h.HasEdge src → ∃ e, ReflTransGen k.Defers dst e ∧ k.HasEdge e)
    (hdefers : ∀ a b, g.Defers a b →
      rename src dst a = rename src dst b ∨ k.Defers (rename src dst a) (rename src dst b))
    (hsup : Supplied g nobody) :
    Supplied k (· = src) ∧ ∀ n, g.Holds n → k.Holds (rename src dst n) := by
  have hrename : ∀ n, n ≠ src → rename src dst n = n := fun n hn => if_neg hn
  have hkeep : ∀ n, g.Holds n → k.Holds n := fun n hn => hsus.holds n ((hc.holds_iff n).mpr hn)
  have hpath : ∀ a b, ReflTransGen g.Defers a b →
      ReflTransGen k.Defers (rename src dst a) (rename src dst b) := by
    intro a b hp
    refine hp.lift' (rename src dst) fun a b hab => ?_
    show ReflTransGen k.Defers (rename src dst a) (rename src dst b)
    rcases hdefers a b hab with e | hd
    · rw [e]
    · exact .single hd
  refine ⟨⟨hpass, fun n hn hholds => ?_⟩, fun n hholds => ?_⟩
  · obtain ⟨e, hp, he | he⟩ := hsus.comes n hholds
    · exact ⟨e, hp, he⟩
    · obtain ⟨e', hp', he'⟩ := hsup.comes e not_false ((hc.holds_iff e).mp he)
      have hp' := hpath e e' hp'
      rw [hrename e (hlk.path_not_off hn hp)] at hp'
      by_cases hsrc : e' = src
      · -- the way ends at `src`, and goes on from `dst`
        rw [hsrc, rename, if_pos rfl] at hp'
        obtain ⟨e'', hp'', he''⟩ := hedge ((hc.edges_iff src).mpr (hsrc ▸ he'))
        exact ⟨e'', (hp.trans hp').trans hp'', he''⟩
      · rw [hrename e' hsrc] at hp'
        exact ⟨e', hp.trans hp', hsus.edges e' ((hc.edges_iff e').mpr he')⟩
  · by_cases hn : n = src
    · rw [hn, rename, if_pos rfl]
      rw [hn] at hholds
      obtain ⟨e, hp, he⟩ := hsup.comes src not_false hholds
      rcases hp.cases_head with rfl | ⟨m, hd, hp⟩
      · obtain ⟨e, hp, he⟩ := hedge ((hc.edges_iff _).mpr he)
        exact hpass.path hlk hne hp he.target?_isSome
      · have hm : k.Holds m := hkeep m (hsup.passes.path hl not_false hp he.target?_isSome)
        have hmsrc : m ≠ src := fun e => hl.irrefl src not_false (e ▸ hd)
        rcases hdefers src m hd with e | hd
        · rw [hrename m hmsrc, rename, if_pos rfl] at e
          rwa [e]
        · rw [hrename m hmsrc, rename, if_pos rfl] at hd
          exact hpass dst m hne hd hm
    · rw [hrename n hn]
      exact hkeep n hholds

/-- **The phases before the burial**, whatever else is pending. -/
theorem absorb_merges (hs : Shape g pend) (hsrc : (g.node src).mergeTo.isSome)
    (hok : g.absorb src = .ok g') : ∃ k dst, g.representative src = dst ∧ dst ≠ src ∧
      (g.node src).isContent ∧ Merges g k src dst ∧ g' = k.bury src dst := by
  obtain ⟨dst, hrep, hne, hsc, hdc, g₁, g₂, g₃, g₄, g₅, g₆, h₁, h₂, h₃, h₄, h₅, h₆, rfl⟩ :=
    absorb_ok.mp hok
  have hd : g.Has dst := has_of_isContent hdc
  have hlive : (g.node dst).merged = false := hrep ▸ hs.merged_representative src
  have hcut := unlink_cutOff hs.linked hne hd h₁
  have hm₁ := hcut.mid hs hd hsrc
  set g₁' := g₁.dropEdge src with hg₁'
  have hr₁ := hcut.toRewires
  have htsrc : ∀ c, g₁'.target? src = some c → g₁'.Has c := fun c hc => by
    rw [target?, hcut.pointsTo_src] at hc
    exact hr₁.has.mpr (hs.target_has src c hc)
  obtain ⟨hm₂, ha₂⟩ := takeEdge_advances hm₁ hne (hr₁.has.mpr hd) ((hr₁.merged dst).trans hlive)
    htsrc h₂
  have hr₂ := hr₁.trans ha₂.toRewires
  have hcontent : ∀ c, g₁.target? src = some c → g₂.Has c := fun c hc => by
    refine ha₂.toRewires.has.mpr (htsrc c ?_)
    rw [hg₁', target?, dropEdge_field Node.pointsTo fun x q => x.erasePred_pointsTo q]
    exact hc
  have hsch := matchContents_schedules hm₂ hne (hr₂.has.mpr hd) hcontent
  set g₂' := g₂.matchContents src dst (g₁.target? src)
  have hm₂' := hsch.mid hm₂
  have hd₂' : g₂'.Has dst := hsch.has.mpr (hr₂.has.mpr hd)
  obtain ⟨hm₃, ha₃, hown⟩ := fixOther_advances hm₂' hne hd₂' h₃
  -- everything but the schedule is the same as before
  have hfield : ∀ {α : Type} (p : Node → α), (∀ x pt df pr us mt i r, p { x with
      pointsTo := pt, defersTo := df, preds := pr, usePoints := us, mergeTo := mt, interior := i,
      referenceOnly := r } = p x) → ∀ n, p (g₃.node n) = p (g.node n) := by
    intro α p hp n
    have hbare : ∀ x : Node, p x.bare = p x := fun x =>
      hp x .none [] [] {} x.mergeTo x.interior x.referenceOnly
    rw [ha₃.toRewires.field p hbare, hsch.field p fun x t i r =>
      hp x x.pointsTo x.defersTo x.preds x.usePoints t i r, hr₂.field p hbare]
  have hmerged := hfield Node.merged fun _ _ _ _ _ _ _ _ => rfl
  have hsize₃ : g₃.size = g.size := by rw [ha₃.size, hsch.size, hr₂.size]
  have hhas₃ : ∀ n, g.Has n → g₃.Has n := fun n hn => by rw [Has, hsize₃]; exact hn
  obtain ⟨hm₄, ha₄, hnew₄⟩ := moveDefers_advances hm₃ hne (hhas₃ dst hd)
    ((hmerged dst).trans hlive) (fun m hm => by
      have hmd := hs.linked.mem_deferPreds.mp hm
      exact ⟨fun e => hs.linked.irrefl src not_false (e ▸ hmd), hhas₃ m hmd.has,
        (hmerged m).trans (hs.live_of_defers hmd)⟩) hown h₄
  obtain ⟨hm₅, ha₅, hnew₅⟩ := moveDefers_advances hm₄ hne (ha₄.toRewires.has.mpr (hhas₃ dst hd))
    ((ha₄.merged dst).trans ((hmerged dst).trans hlive)) (fun m hm => by
      obtain ⟨hms, hmd⟩ := hcut.mem_defersTo.mp hm
      exact ⟨hms, ha₄.toRewires.has.mpr (hhas₃ m (hs.has_of_defers hmd)),
        (ha₄.merged m).trans ((hmerged m).trans (hs.defers_live src m hmd))⟩)
    (ha₄.avoids dst hown) h₅
  obtain ⟨hm₆, ha₆⟩ := alignPreds_advances hne hm₅
    (ha₅.toRewires.has.mpr (ha₄.toRewires.has.mpr (hhas₃ dst hd))) h₆
  have hr₃₆ := (ha₄.trans ha₅).trans ha₆
  have hdefers : ∀ a b, g.Defers a b → rename src dst a = rename src dst b ∨
      g₆.Defers (rename src dst a) (rename src dst b) := by
    refine fun a b => defers_renamed hs.linked (fun a b hab hb => ?_) (fun a ha had => ?_)
      fun b hb hab hbd => ?_
    · exact hr₃₆.defers a b (ha₃.defers a b (hsch.defers_iff.mpr
        (ha₂.defers a b (hcut.defers_iff.mpr ⟨hab, hb⟩))))
    · exact ha₆.defers _ _ (ha₅.defers _ _ (hnew₄ a (hs.linked.mem_deferPreds.mpr ha) had))
    · exact ha₆.defers _ _ (hnew₅ b (hcut.mem_defersTo.mpr ⟨hb, hab⟩) hbd)
  refine ⟨g₆, dst, hrep, hne, hsc, ⟨hm₆, hr₃₆.size.trans hsize₃, ?_, ?_, ?_, ?_, ?_, ?_, ?_,
    hdefers, ?_⟩, rfl⟩
  · intro α p hp n
    exact (hr₃₆.toRewires.field p (fun x => hp x .none [] [] {} x.mergeTo x.interior
      x.referenceOnly) n).trans (hfield p hp n)
  · rw [hr₃₆.values, ha₃.values, hsch.values, hr₂.values]
  · rw [hr₃₆.returnNode, ha₃.returnNode, hsch.returnNode, hr₂.returnNode]
  · rw [hr₃₆.header, ha₃.header, hsch.header, hr₂.header]
  · intro a b hab
    rw [hr₃₆.representative, hr₃₆.representative, ha₃.representative, ha₃.representative]
    refine hsch.representative_congr hm₂.forest ?_
    rw [hr₂.representative, hr₂.representative, hab]
  · intro n hn
    rw [hr₃₆.mergeTo, ha₃.mergeTo]
    exact hsch.mergeTo_isSome (by rw [hr₂.mergeTo]; exact hn)
  · have hmt : ∀ n, (g₆.node n).mergeTo = (g₂'.node n).mergeTo := fun n => by
      rw [hr₃₆.mergeTo, ha₃.mergeTo]
    have hpend : g₆.pending = g₂'.pending := by rw [hr₃₆.pending, ha₃.pending]
    rcases hsch.links with e | ⟨s, d, hass, hl, hp⟩
    · refine .inl ⟨fun n => ?_, ?_⟩
      · rw [hmt, e, hr₂.mergeTo]
      · rw [hpend, e, hr₂.pending]
    · refine .inr ⟨s, d, hr₂.has.mp hass, ?_, ?_, fun n => ?_⟩
      · rw [← hr₂.mergeTo]
        exact hl.root_src
      · rw [hpend, hp, hr₂.pending]
      · rw [hmt, hl.mergeTo, hr₂.mergeTo]
  · intro hsup
    have ha₂₃ : Sustains g₂ g₃ := hsch.sustains.trans ha₃.toSustains
    have hp₁ : g₁'.Passes fun a _ => a = src := by
      intro a b _ hab hb
      have hd := (hcut.defers_iff.mp hab).1
      exact (hcut.holds_iff a).mpr (hsup.passes a b not_false hd ((hcut.holds_iff b).mp hb))
    have hpass : g₆.Passes fun a _ => a = src :=
      hr₃₆.passes _ (fun _ => rfl) (ha₃.passes _ (fun _ => rfl)
        (hsch.passes (ha₂.passes _ (fun _ => rfl) hp₁)))
    refine hcut.supplies hne hs.linked hm₆.linked
      (ha₂.toSustains.trans (ha₂₃.trans hr₃₆.toSustains)) hpass (fun he => ?_) hdefers hsup
    obtain ⟨e, hp, he⟩ := takeEdge_comes hm₁ hne (hr₁.has.mpr hd) hp₁ he h₂
    have hrest := ha₂₃.trans hr₃₆.toSustains
    exact ⟨e, hp.lift id hrest.defers, hrest.edges e he⟩

/-! ### Burying a node -/

/-- The value that the remaining node has after a merge. -/
def mergedValue (k : Graph) (src dst : NodeId) : Option ValueId :=
  (k.node dst).value <|> (k.node src).value

theorem moveValue_node (hd : k.Has dst) (n : NodeId) : (k.moveValue src dst).node n =
    if n = dst then { k.node n with value := k.mergedValue src dst } else k.node n := by
  unfold moveValue mergedValue
  split
  · rename_i v hs hdv
    show (k.modify dst _).node n = _
    rw [node_modify_of_has hd, hs, hdv]
    rfl
  · rename_i hnot
    split
    · rename_i hn
      have hv : ((k.node dst).value <|> (k.node src).value) = (k.node dst).value := by
        cases hdv : (k.node dst).value with
        | some w => rfl
        | none =>
          cases hsv : (k.node src).value with
          | none => rfl
          | some v => exact absurd hdv (hnot v hsv)
      rw [hv, hn]
    · rfl

theorem moveValue_rest (k : Graph) (src dst : NodeId) : (k.moveValue src dst).size = k.size ∧
    (k.moveValue src dst).returnNode = k.returnNode ∧
    (k.moveValue src dst).pending = k.pending ∧ (k.moveValue src dst).header = k.header := by
  unfold moveValue
  split
  · exact ⟨size_modify k dst _, rfl, rfl, rfl⟩
  · exact ⟨rfl, rfl, rfl, rfl⟩

/-- A value moves to the remaining node if that has none of its own. -/
theorem moveValue_values (k : Graph) (src dst : NodeId) (v : ValueId) :
    (k.moveValue src dst).values.find? v = k.values.find? v ∨
      (k.node src).value = some v ∧ (k.node dst).value = none ∧
        (k.moveValue src dst).values.find? v = some dst := by
  unfold moveValue
  split
  · rename_i w hs hd
    show (k.values.insert w dst).find? v = _ ∨ _
    by_cases hwv : w = v
    · refine .inr ⟨hwv ▸ hs, hd, ?_⟩
      show (k.values.insert w dst).find? v = _
      rw [AssocMap.find?_insert, if_pos hwv]
    · rw [AssocMap.find?_insert, if_neg hwv]
      exact .inl rfl
  · exact .inl rfl

/-- The graph before the buried node becomes a tombstone. -/
def inherit (k : Graph) (src dst : NodeId) : Graph :=
  ((k.modify dst (·.raise (k.node src).state)).copyUsePoints src dst).moveValue src dst

theorem bury_eq (k : Graph) (src dst : NodeId) :
    k.bury src dst = (k.inherit src dst).modify src Node.tombstone := rfl

/-- Inheriting leaves everything but the remaining node alone. -/
theorem inherit_node (hne : dst ≠ src) (hd : k.Has dst) (n : NodeId) :
    (k.inherit src dst).node n = if n = dst then
      { k.node dst with
        state := (k.node dst).state.join (k.node src).state
        usePoints := ((k.node dst).usePoints.union (k.node src).usePoints).1
        value := k.mergedValue src dst } else k.node n := by
  have hcopy : ∀ n, ((k.modify dst (·.raise (k.node src).state)).copyUsePoints src dst).node n =
      if n = dst then { k.node dst with
        state := (k.node dst).state.join (k.node src).state
        usePoints := ((k.node dst).usePoints.union (k.node src).usePoints).1 } else k.node n := by
    intro n
    rw [copyUsePoints, if_neg hne.symm, node_modify_of_has ((has_modify _).mpr hd),
      node_modify_of_has hd, node_modify_of_has hd, if_neg hne.symm]
    by_cases hn : n = dst
    · simp only [hn, if_true]
      rfl
    · simp only [hn, if_false]
  have hd' : ((k.modify dst (·.raise (k.node src).state)).copyUsePoints src dst).Has dst :=
    (Rewires.copyUsePoints _ _ _).has.mpr ((has_modify _).mpr hd)
  rw [inherit, moveValue_node hd', mergedValue, hcopy, hcopy, hcopy, if_pos rfl, if_neg hne.symm]
  by_cases hn : n = dst
  · simp only [hn, if_true]
    rfl
  · simp only [hn, if_false]

theorem inherit_rest (k : Graph) (src dst : NodeId) : (k.inherit src dst).size = k.size ∧
    (k.inherit src dst).returnNode = k.returnNode ∧ (k.inherit src dst).pending = k.pending ∧
    (k.inherit src dst).header = k.header := by
  obtain ⟨hs, hr, hp, hh⟩ := moveValue_rest
    ((k.modify dst (·.raise (k.node src).state)).copyUsePoints src dst) src dst
  have hc := Rewires.copyUsePoints (k.modify dst (·.raise (k.node src).state)) src dst
  exact ⟨hs.trans (hc.size.trans (size_modify k dst _)), hr.trans hc.returnNode,
    hp.trans hc.pending, hh.trans hc.header⟩

theorem bury_rest (k : Graph) (src dst : NodeId) : (k.bury src dst).size = k.size ∧
    (k.bury src dst).returnNode = k.returnNode ∧ (k.bury src dst).pending = k.pending ∧
    (k.bury src dst).header = k.header := by
  obtain ⟨hs, hrest⟩ := inherit_rest k src dst
  exact ⟨(size_modify _ src _).trans hs, hrest⟩

/-- What a burial does to each node. -/
theorem bury_node (hne : dst ≠ src) (hd : k.Has dst) (hsrc : k.Has src) (n : NodeId) :
    (k.bury src dst).node n =
      if n = src then (k.node src).tombstone
      else if n = dst then
        { k.node dst with
          state := (k.node dst).state.join (k.node src).state
          usePoints := ((k.node dst).usePoints.union (k.node src).usePoints).1
          value := k.mergedValue src dst }
      else k.node n := by
  have hhas : (k.inherit src dst).Has src := by
    rw [Has, (inherit_rest k src dst).1]
    exact hsrc
  rw [bury_eq, node_modify_of_has hhas, inherit_node hne hd]
  by_cases hn : n = src
  · rw [if_pos hn, if_pos hn, if_neg (hn ▸ hne.symm), hn]
  · rw [if_neg hn, if_neg hn]

/-- A field that burials neither clear nor join. -/
theorem bury_field {α : Type} (p : Node → α) (hne : dst ≠ src) (hd : k.Has dst) (hsrc : k.Has src)
    (ht : ∀ x, p (Node.tombstone x) = p x := by intros; rfl)
    (hp : ∀ x st us v, p { x with state := st, usePoints := us, value := v } = p x := by
      intros; rfl) (n : NodeId) :
    p ((k.bury src dst).node n) = p (k.node n) := by
  rw [bury_node hne hd hsrc]
  by_cases hn : n = src
  · rw [if_pos hn, ht, hn]
  · rw [if_neg hn]
    by_cases hn' : n = dst
    · rw [if_pos hn', hp, hn']
    · rw [if_neg hn']

/-- A field that burials clear only. -/
theorem bury_field_of_ne {α : Type} (p : Node → α) (hne : dst ≠ src) (hd : k.Has dst)
    (hsrc : k.Has src) (hn : n ≠ src)
    (hp : ∀ x st us v, p { x with state := st, usePoints := us, value := v } = p x := by
      intros; rfl) : p ((k.bury src dst).node n) = p (k.node n) := by
  rw [bury_node hne hd hsrc, if_neg hn]
  by_cases hn' : n = dst
  · rw [if_pos hn', hp, hn']
  · rw [if_neg hn']

/-- What tombstones never have, the other nodes keep. -/
theorem bury_iff (P : Node → Prop) (hne : dst ≠ src) (hd : k.Has dst) (hsrc : k.Has src)
    (ht : ∀ x, ¬ P (Node.tombstone x))
    (hp : ∀ x st us v, P { x with state := st, usePoints := us, value := v } = P x := by
      intros; rfl) : P ((k.bury src dst).node n) ↔ n ≠ src ∧ P (k.node n) := by
  by_cases hn : n = src
  · rw [bury_node hne hd hsrc, if_pos hn]
    exact iff_of_false (ht _) fun h => h.1 hn
  · rw [bury_field_of_ne P hne hd hsrc hn hp]
    exact ⟨fun h => ⟨hn, h⟩, And.right⟩

/-- A value that the buried node had is mapped to the remaining one, if at all elsewhere. -/
theorem bury_values (hne : dst ≠ src) (v : ValueId) :
    (k.bury src dst).values.find? v = k.values.find? v ∨
      (k.node src).value = some v ∧ (k.bury src dst).values.find? v = some dst := by
  have hr := Rewires.copyUsePoints (k.modify dst (·.raise (k.node src).state)) src dst
  have hvals : ((k.modify dst (·.raise (k.node src).state)).copyUsePoints
    src dst).values = k.values :=
    hr.values
  rcases moveValue_values ((k.modify dst (·.raise (k.node src).state)).copyUsePoints src dst) src
    dst v with h | ⟨hv, -, h⟩
  · exact .inl (by rw [← hvals]; exact h)
  · refine .inr ⟨?_, h⟩
    rw [hr.value, node_modify_of_ne hne.symm] at hv
    exact hv

/-! ### A whole merge -/

/-- The nodes that still wait while `src` is being merged are the pending ones. -/
abbrev waitsWith (g : Graph) (src : NodeId) : NodeId → Prop := fun n => n = src ∨ n ∈ g.pending

theorem Merges.has_src (hmg : Merges g k src dst) : k.Has src := by
  refine has_of_node_ne fun e => ?_
  have := hmg.mid.src_links
  rw [e] at this
  cases this

theorem Merges.has_dst (hmg : Merges g k src dst) (hf : Forest g)
    (hrep : g.representative src = dst) : k.Has dst := by
  have hsrc : g.Has src := by
    rw [Has, ← hmg.size]
    exact hmg.has_src
  rw [Has, hmg.size, ← hrep]
  exact hf.has_representative hsrc

section Merge

variable (hs : Shape g (g.waitsWith src)) (hrep : g.representative src = dst) (hne : dst ≠ src)
  (hmg : Merges g k src dst)
include hs hrep hne hmg

/-- After the burial all edges are entered. -/
theorem Merges.linked_bury : Linked (k.bury src dst) nobody := by
  have hd := hmg.has_dst hs.forest hrep
  have hsrc := hmg.has_src
  have hl := hmg.mid.linked
  have hedge : ∀ n c, ((k.bury src dst).node n).pointsTo = .edge c ↔ n ≠ src ∧
    (k.node n).pointsTo = .edge c :=
    fun n c => bury_iff (·.pointsTo = .edge c) hne hd hsrc fun _ => nofun
  have hdefer : ∀ n m, (k.bury src dst).Defers n m ↔ n ≠ src ∧ k.Defers n m := fun n m =>
    bury_iff (m ∈ ·.defersTo) hne hd hsrc fun _ => List.not_mem_nil
  have hpred : ∀ n p, p ∈ ((k.bury src dst).node n).preds ↔ n ≠ src ∧
    p ∈ (k.node n).preds := fun n p =>
    bury_iff (p ∈ ·.preds) hne hd hsrc fun _ => List.not_mem_nil
  refine ⟨fun n c _ he => ?_, fun n c _ hin => ?_, fun n m _ hdm => ?_, fun n m _ hin => ?_,
    fun n _ => ?_, fun n _ => ?_, fun n _ hdm => ?_⟩
  · obtain ⟨hn, he⟩ := (hedge n c).mp he
    exact ⟨not_false, (hpred c _).mpr (hl.edge n c hn he)⟩
  · obtain ⟨hc, hin⟩ := (hpred c _).mp hin
    exact ⟨not_false, (hedge n c).mpr (hl.of_edge n c hc hin)⟩
  · obtain ⟨hn, hdm⟩ := (hdefer n m).mp hdm
    exact ⟨not_false, (hpred m _).mpr (hl.defer n m hn hdm)⟩
  · obtain ⟨hm, hin⟩ := (hpred m _).mp hin
    exact ⟨not_false, (hdefer n m).mpr (hl.of_defer n m hm hin)⟩
  · by_contra hdup
    obtain ⟨hn, hdup⟩ := (bury_iff (¬ ·.preds.Nodup) hne hd hsrc
      fun _ h => h List.nodup_nil).mp hdup
    exact hdup (hl.preds_nodup n hn)
  · by_contra hdup
    obtain ⟨hn, hdup⟩ := (bury_iff (¬ ·.defersTo.Nodup) hne hd hsrc
      fun _ h => h List.nodup_nil).mp hdup
    exact hdup (hl.defers_nodup n hn)
  · obtain ⟨hn, hdm⟩ := (hdefer n n).mp hdm
    exact hl.irrefl n hn hdm

theorem Merges.representative_bury (n : NodeId) :
    (k.bury src dst).representative n = k.representative n := by
  refine representative_congr (bury_rest k src dst).1 ?_ n
  exact bury_field Node.mergeTo hne (hmg.has_dst hs.forest hrep) hmg.has_src

omit hne in
/-- Both nodes of a merge have the same representative. -/
theorem Merges.representative_dst : k.representative dst = k.representative src := by
  refine hmg.merge dst src ?_
  rw [← hrep]
  exact hs.forest.representative_representative src

/-- Values that shared a node with the merged one still do. -/
theorem Merges.values_bury {v : ValueId} {n : NodeId} (hv : g.values.find? v = some n) :
    ∃ n', (k.bury src dst).values.find? v = some n' ∧
      k.representative n' = k.representative n := by
  rcases bury_values (k := k) hne v with h | ⟨hval, h⟩
  · exact ⟨n, by rw [h, hmg.values, hv], rfl⟩
  · refine ⟨dst, h, ?_⟩
    rw [hmg.value] at hval
    obtain ⟨m, hm, hmr⟩ := hs.value_mapped src v hval
    rw [hv] at hm
    cases hm
    rw [hmg.representative_dst hs hrep]
    exact (hmg.merge n src hmr).symm

/-- One more tombstone. -/
theorem Merges.merged_bury (n : NodeId) :
    ((k.bury src dst).node n).merged = (decide (n = src) || (g.node n).merged) := by
  have hd := hmg.has_dst hs.forest hrep
  by_cases hn : n = src
  · rw [bury_node hne hd hmg.has_src, if_pos hn]
    simp [hn, Node.tombstone]
  · rw [bury_field_of_ne Node.merged hne hd hmg.has_src hn,
      hmg.merged]
    simp [hn]

omit hrep hne in
/-- What waits after the merge are the nodes but `src` that have a link, and no tombstones. -/
theorem Merges.mem_pending (hnd : src ∉ g.pending) (n : NodeId) :
    n ∈ k.pending ↔ (n ≠ src ∧ (g.node n).merged = false) ∧ (k.node n).mergeTo.isSome := by
  have hw := hs.waits n
  rcases hmg.waits with ⟨hm, hp⟩ | ⟨s, d, -, hroot, hp, hm⟩
  · rw [hm, hp]
    constructor
    · intro hin
      obtain ⟨hl, hsome⟩ := hw.mp (.inr hin)
      exact ⟨⟨fun e => hnd (e ▸ hin), hl⟩, hsome⟩
    · rintro ⟨⟨hns, hl⟩, hsome⟩
      exact (hw.mpr ⟨hl, hsome⟩).resolve_left hns
  · -- the new one is a root of `g`, which `src` and tombstones are not
    have hunlinked : ¬ (g.node s).mergeTo.isSome := by simp [hroot]
    have hssrc : s ≠ src := fun e => hunlinked ((hs.waits s).mp (.inl e)).2
    have hslive : (g.node s).merged = false := by
      by_contra hms
      exact hunlinked (hs.tomb_links s (by simpa using hms))
    rw [hm, hp, List.mem_cons]
    constructor
    · rintro (rfl | hin)
      · exact ⟨⟨hssrc, hslive⟩, by rw [if_pos rfl]; rfl⟩
      · obtain ⟨hl, hsome⟩ := hw.mp (.inr hin)
        refine ⟨⟨fun e => hnd (e ▸ hin), hl⟩, ?_⟩
        split
        · rfl
        · exact hsome
    · rintro ⟨⟨hns, hl⟩, hsome⟩
      by_cases hn : n = s
      · exact .inl hn
      · rw [if_neg hn] at hsome
        exact .inr ((hw.mpr ⟨hl, hsome⟩).resolve_left hns)

/-- A node that had the value before the merge has the representative of the one that has it now. -/
theorem Merges.value_origin {v : ValueId} (hv : ((k.bury src dst).node n).value = some v) :
    ∃ m, (g.node m).value = some v ∧ k.representative m = k.representative n := by
  rw [bury_node hne (hmg.has_dst hs.forest hrep) hmg.has_src] at hv
  by_cases hns : n = src
  · rw [if_pos hns] at hv
    cases hv
  · rw [if_neg hns] at hv
    by_cases hnd : n = dst
    · rw [if_pos hnd] at hv
      have hv : k.mergedValue src dst = some v := hv
      rw [mergedValue, hmg.value, hmg.value] at hv
      cases hdv : (g.node dst).value with
      | some w =>
        rw [hdv] at hv
        exact ⟨dst, by rw [hdv]; exact hv, by rw [hnd]⟩
      | none =>
        rw [hdv] at hv
        exact ⟨src, hv, by rw [hnd, hmg.representative_dst hs hrep]⟩
    · rw [if_neg hnd, hmg.value] at hv
      exact ⟨n, hv, rfl⟩

/-- After the burial the graph has its shape. -/
theorem Merges.shape_bury (hsc : (g.node src).isContent) (hnd : src ∉ g.pending) :
    Shape (k.bury src dst) (· ∈ (k.bury src dst).pending) := by
  have hd := hmg.has_dst hs.forest hrep
  have hsrc := hmg.has_src
  have hnode := bury_node hne hd hsrc
  obtain ⟨hsize, hreturn, hpend, -⟩ := bury_rest k src dst
  have hmt := bury_field Node.mergeTo hne hd hsrc
  have hkind := bury_field Node.isContent hne hd hsrc
  have hmerged := hmg.merged_bury hs hrep hne
  have hlive : (g.node dst).merged = false := hrep ▸ hs.merged_representative src
  have hreps := hmg.representative_bury hs hrep hne
  have htomb : ∀ n, n ≠ src → ((k.bury src dst).node n).merged = true → (g.node n).merged = true ∧
      (k.node n).merged = true := fun n hns hn => by
    rw [hmerged] at hn
    have hm : (g.node n).merged = true := by simpa [hns] using hn
    exact ⟨hm, by rwa [hmg.merged]⟩
  refine {
    linked := hmg.linked_bury hs hrep hne
    forest := hmg.mid.forest.congr (Nat.le_of_eq hsize.symm) hmt
    waits := fun n => ?_
    tomb_links := fun n hn => ?_
    tomb_pointsTo := fun n hn => ?_
    tomb_defersTo := fun n hn => ?_
    tomb_content := fun n hn => ?_
    tomb_value := fun n hn => ?_
    defers_live := fun n m hdm => ?_
    target_has := fun n c hc => ?_
    value_mapped := fun n v hv => ?_
    values_has := fun v n hv => ?_
    return_has := fun n hn => ?_ }
  · rw [hmt, hpend, hmerged, Bool.or_eq_false_iff, decide_eq_false_iff_not]
    exact hmg.mem_pending hs hnd n
  · rw [hmt]
    rw [hmerged, Bool.or_eq_true, decide_eq_true_eq] at hn
    rcases hn with rfl | hn
    · exact hmg.mid.src_links
    · exact hmg.links n (hs.tomb_links n hn)
  · by_contra he
    obtain ⟨hns, he⟩ := (bury_iff (·.pointsTo ≠ .none) hne hd hsrc fun _ h => h rfl).mp he
    exact he (hmg.mid.tomb_pointsTo n (htomb n hns hn).2)
  · by_contra he
    obtain ⟨hns, he⟩ := (bury_iff (·.defersTo ≠ []) hne hd hsrc fun _ h => h rfl).mp he
    exact he (hmg.mid.tomb_defersTo n (htomb n hns hn).2)
  · rw [hkind, hmg.field Node.isContent fun _ _ _ _ _ _ _ _ => rfl]
    rw [hmerged, Bool.or_eq_true, decide_eq_true_eq] at hn
    rcases hn with rfl | hn
    · exact hsc
    · exact hs.tomb_content n hn
  · rw [hnode]
    split
    · rfl
    · rename_i hns
      have hm := (htomb n hns hn).1
      rw [if_neg (fun e => by rw [← e, hm] at hlive; cases hlive),
        hmg.value]
      exact hs.tomb_value n hm
  · obtain ⟨hn, hdm⟩ := (bury_iff (m ∈ ·.defersTo) hne hd hsrc fun _ => List.not_mem_nil).mp hdm
    have hm : m ≠ src := (hmg.mid.linked.defer n m hn hdm).1
    rw [hmerged, ← hmg.merged, hmg.mid.defers_live n m hdm]
    simp [hm]
  · obtain ⟨hn, hc⟩ := (bury_iff (·.pointsTo.target? = some c) hne hd hsrc fun _ => nofun).mp hc
    rw [Has, hsize]
    exact hmg.mid.target_has n c hn hc
  · rw [hreps]
    simp only [hreps]
    obtain ⟨m, hmv, hmr⟩ := hmg.value_origin hs hrep hne hv
    obtain ⟨m', hm', hrm'⟩ := hs.value_mapped m v hmv
    obtain ⟨n', hn', hrn'⟩ := hmg.values_bury hs hrep hne hm'
    exact ⟨n', hn', by rw [hrn', ← hmr]; exact hmg.merge _ _ hrm'⟩
  · rw [Has, hsize]
    rcases bury_values (k := k) hne v with h | ⟨-, h⟩
    · rw [h, hmg.values] at hv
      rw [hmg.size]
      exact hs.values_has v n hv
    · rw [h] at hv
      cases hv
      exact hd
  · rw [hreturn, hmg.returnNode] at hn
    rw [Has, hsize, hmg.size]
    exact hs.return_has n hn

/-- Only the buried node loses its edges. -/
theorem Merges.supplies_bury : Supplies g (k.bury src dst) (rename src dst) := by
  intro hsup
  have hd := hmg.has_dst hs.forest hrep
  have hsrc := hmg.has_src
  have hdefers : ∀ a b, (k.bury src dst).Defers a b ↔ a ≠ src ∧ k.Defers a b := fun a b =>
    bury_iff (b ∈ ·.defersTo) hne hd hsrc fun _ => List.not_mem_nil
  have hholds : ∀ n, (k.bury src dst).Holds n ↔ n ≠ src ∧ k.Holds n := fun n =>
    bury_iff (·.pointsTo.target?.isSome) hne hd hsrc fun _ => nofun
  obtain ⟨hk, hkeep⟩ := hmg.supplies hsup
  refine ⟨⟨fun a b _ hab hb => ?_, fun n _ hn => ?_⟩,
    fun n hn => (hholds _).mpr ⟨rename_ne hne n, hkeep n hn⟩⟩
  · obtain ⟨ha, hab⟩ := (hdefers a b).mp hab
    exact (hholds a).mpr ⟨ha, hk.passes a b ha hab ((hholds b).mp hb).2⟩
  · obtain ⟨hnsrc, hn⟩ := (hholds n).mp hn
    obtain ⟨e, hp, he⟩ := hk.comes n hnsrc hn
    have hpath : ReflTransGen (k.bury src dst).Defers n e ∧ e ≠ src := by
      clear he
      induction hp with
      | refl => exact ⟨.refl, hnsrc⟩
      | tail _ hab ih =>
        exact ⟨ih.1.tail ((hdefers _ _).mpr ⟨ih.2, hab⟩), (hmg.mid.linked.defer _ _ ih.2 hab).1⟩
    refine ⟨e, hpath.1, ?_⟩
    exact (bury_iff (·.pointsTo.isEdge) hne hd hsrc fun _ => nofun).mpr ⟨hpath.2, he⟩

/-- After the burial `dst` carries on what `src` had. -/
theorem Merges.carries_bury (hsc : (g.node src).isContent) :
    Carries g (k.bury src dst) (rename src dst) := by
  have hd := hmg.has_dst hs.forest hrep
  have hsrc := hmg.has_src
  have hnode := bury_node hne hd hsrc
  obtain ⟨hsize, hreturn, -, hheader⟩ := bury_rest k src dst
  have hreps := hmg.representative_bury hs hrep hne
  have hlive : (g.node dst).merged = false := hrep ▸ hs.merged_representative src
  have hkind : ∀ n, ((k.bury src dst).node n).kind = (g.node n).kind := fun n => by
    rw [bury_field Node.kind hne hd hsrc, hmg.field Node.kind fun _ _ _ _ _ _ _ _ => rfl]
  have hstate : ∀ n, (k.node n).state = (g.node n).state :=
    hmg.field Node.state fun _ _ _ _ _ _ _ _ => rfl
  refine {
    size_le := Nat.le_of_eq (hsize.trans hmg.size).symm
    kind := fun n _ => hkind n
    merge := fun n _ => by
      rw [hreps, hreps]
      exact hmg.merge _ _ (hs.forest.representative_representative n)
    has := fun n hn => by
      rw [Has, hsize]
      exact rename_has hd (by rw [Has, hmg.size]; exact hn)
    live := fun n _ hn => ?_
    represents := fun n _ => ?_
    fixed := fun n _ hn => ?_
    state := fun n _ => ?_
    defers := fun a b hab => ?_
    values := fun v n hv => ?_
    keys := fun v hv => ?_
    named := fun n v _ hc hv => ?_
    returnNode := fun n hn => ?_
    returned := fun n hn => .inl ?_
    header := hheader.trans hmg.header
    supplies := hmg.supplies_bury hs hrep hne }
  · rw [bury_field_of_ne Node.merged hne hd hsrc (rename_ne hne n),
      hmg.merged]
    unfold rename
    split
    · exact hlive
    · exact hn
  · rw [hreps, hreps]
    unfold rename
    split
    · rename_i e
      rw [e, hmg.representative_dst hs hrep]
    · rfl
  -- Only contents are renamed.
  · refine if_neg fun e => ?_
    rw [e, hsc] at hn
    cases hn
  · rw [hnode, if_neg (rename_ne hne n)]
    unfold rename
    by_cases hns : n = src
    · rw [if_pos hns, if_pos rfl, hns, ← hstate]
      exact EscapeState.le_join_right _ _
    · rw [if_neg hns]
      split
      · rename_i e
        rw [e, ← hstate]
        exact EscapeState.le_join_left _ _
      · rw [hstate]
        exact EscapeState.le_refl _
  · refine (hmg.defers a b hab).imp_right fun h => ?_
    rw [Defers, bury_field_of_ne Node.defersTo hne hd hsrc (rename_ne hne a)]
    exact h
  · obtain ⟨n', hn', hr⟩ := hmg.values_bury hs hrep hne hv
    exact ⟨n', hn', by rw [hreps, hreps, hr]⟩
  -- A value that moves was the one of `src`.
  · rcases bury_values (k := k) hne v with h | ⟨hsv, -⟩
    · rwa [h, hmg.values] at hv
    · rw [hmg.value] at hsv
      obtain ⟨m, hm, -⟩ := hs.value_mapped src v hsv
      rw [hm]
      rfl
  · rw [← hmg.value n] at hv
    have hns : n ≠ src := fun e => by
      rw [e, hsc] at hc
      cases hc
    rw [hnode, if_neg hns]
    split
    · rename_i e
      rw [e] at hv
      show k.mergedValue src dst = some v
      rw [mergedValue, hv]
      rfl
    · exact hv
  · rwa [hreturn, hmg.returnNode]
  · rwa [hreturn, hmg.returnNode] at hn

omit hrep hne in
/-- No node waits twice. -/
theorem Merges.nodup_bury (hnd : (src :: g.pending).Nodup) : (k.bury src dst).pending.Nodup := by
  rw [(bury_rest k src dst).2.2.1]
  rcases hmg.waits with ⟨-, hp⟩ | ⟨s, d, -, hroot, hp, -⟩
  · rw [hp]
    exact (List.nodup_cons.mp hnd).2
  · rw [hp]
    refine List.nodup_cons.mpr ⟨fun hin => ?_, (List.nodup_cons.mp hnd).2⟩
    have := ((hs.waits s).mp (.inr hin)).2
    rw [hroot] at this
    cases this

end Merge

/-- **A merge that completes keeps the shape, and the graph describes at least what it did.** The
merged node, and no other, becomes a tombstone. -/
theorem absorb_shape (hs : Shape g (g.waitsWith src)) (hnd : (src :: g.pending).Nodup)
    (hok : g.absorb src = .ok g') :
    Shape g' (· ∈ g'.pending) ∧ g'.pending.Nodup ∧
      Carries g g' (rename src (g.representative src)) ∧ g'.size = g.size ∧
      ∀ n, (g'.node n).merged = (decide (n = src) || (g.node n).merged) := by
  have hne : g.representative src ≠ src := by
    obtain ⟨_, rfl, hne, -⟩ := absorb_ok.mp hok
    exact hne
  have hsrc : (g.node src).mergeTo.isSome :=
    Option.isSome_iff_ne_none.mpr fun e => hne (representative_of_root e)
  obtain ⟨k, dst, rfl, -, hsc, hmg, rfl⟩ := absorb_merges hs hsrc hok
  refine ⟨hmg.shape_bury hs rfl hne hsc (List.nodup_cons.mp hnd).1, hmg.nodup_bury hs hnd,
    hmg.carries_bury hs rfl hne hsc, (bury_rest k src _).1.trans hmg.size,
    hmg.merged_bury hs rfl hne⟩

end Escape.Graph
