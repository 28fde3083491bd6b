import Escape.Proofs.Graph.Rejoin

/-!
# Bringing webs in line

The last part of a merge before the burial. Some nodes got an edge to `dst` when the edges to `src`
were redirected, and their webs may still point to `src`. They are given what represents `dst`.

- `Ready.alignPreds`: the loop over the edges to `dst` ends with this, and does not fail.

While `dst` represents itself its list of entries only grows at its end, so the loop comes to all of
them. If `dst` is to be merged in turn the list can shrink, but then the loop has nothing left to
do.
-/

namespace Escape.Graph

variable {g k k' k'' : Graph} {src dst x n m p : NodeId}

/-- From `k` to `k'` nodes come to point to `x`. Defer edges stay as they are, and entries of `x`
are added at the end. -/
structure Aligns (k k' : Graph) (src x : NodeId) : Prop extends Moves k k' src (· = x) where
  back : ∀ a b, k'.Defers a b → k.Defers a b
  grows : Grows (k.node x).preds (k'.node x).preds

namespace Aligns

theorem refl (k : Graph) (src x : NodeId) : Aligns k k src x :=
  ⟨.refl k src _, fun _ _ h => h, .refl _⟩

theorem trans (h : Aligns k k' src x) (h' : Aligns k' k'' src x) : Aligns k k'' src x :=
  ⟨h.toMoves.trans h'.toMoves, fun a b hd => h.back a b (h'.back a b hd), h.grows.trans h'.grows⟩

theorem joined_iff (h : Aligns k k' src x) {a b : NodeId} : k'.Joined a b ↔ k.Joined a b :=
  ⟨Or.imp (h.back a b) (h.back b a), Or.imp (h.defers a b) (h.defers b a)⟩

/-- Nodes that point to `x` go on to do so. -/
theorem target?_of_eq (h : Aligns k k' src x) (hn : n ≠ src) (ht : k.target? n = some x) :
    k'.target? n = some x := by
  rcases h.moved n hn with e | ⟨z, rfl, e⟩
  · rw [target?, e]
    exact ht
  · exact e

end Aligns

/-- The web around `p` points to `x`. -/
def AlignedAt (k : Graph) (src x p : NodeId) : Prop :=
  ∀ m, k.Joined p m → m ≠ src → k.target? m = some x

theorem AlignedAt.mono (h : AlignedAt k src x p) (ha : Aligns k k' src x) : AlignedAt k' src x p :=
  fun m hj hm => ha.target?_of_eq hm (h m (ha.joined_iff.mp hj) hm)

/-- The webs around all nodes with an edge to `dst` point to `x`. -/
def Aligned (k : Graph) (src dst x : NodeId) : Prop :=
  ∀ p, p ≠ src → (k.node p).pointsTo = .edge dst → AlignedAt k src x p

/-- Node `n` points to something that is going to be merged. -/
def Unsettled (k : Graph) (src n : NodeId) : Prop :=
  n ≠ src ∧ ∃ c, k.target? n = some c ∧ (k.node c).mergeTo.isSome

/-- No node comes to be unsettled while nodes move to roots. -/
theorem Unsettled.of_moves {Z : NodeId → Prop} (hv : Moves k k' src Z)
    (hZ : ∀ z, Z z → (k.node z).mergeTo = none) (h : Unsettled k' src n) :
    Unsettled k src n ∧ (k'.node n).pointsTo = (k.node n).pointsTo := by
  obtain ⟨hn, c, hc, hm⟩ := h
  rw [hv.mergeTo] at hm
  have e := hv.target?_eq hn hc fun hz => by
    rw [hZ c hz] at hm
    cases hm
  exact ⟨⟨hn, c, by rw [target?, ← e]; exact hc, hm⟩, e⟩

/-- A round of `alignPred`. -/
def alignNode (dst : NodeId) (k : Graph) (m : NodeId) : Checked Graph :=
  if (k.node m).pointsTo.isSet then k.repoint m dst else pure k

namespace Ready

variable (h : Ready g k src dst x)
include h

/-- One neighbour is given what represents `dst`. -/
theorem alignNode (hm : m ≠ src) (hcon : (k.target? m).isSome → k.content? m = some x) :
    ∃ k', alignNode dst k m = .ok k' ∧ Ready g k' src dst x ∧ Aligns k k' src x ∧
      ((k.target? m).isSome → k'.target? m = some x) := by
  unfold Graph.alignNode
  rw [isSet_eq]
  by_cases hs : (k.target? m).isSome
  · rw [if_pos hs]
    obtain ⟨k', R, hok, hR, hoff, hm', hv⟩ := h.repoint hm hs h.dst_live h.dst_content h.rep_dst
      fun _ _ => False.elim
    have hv' := hv.mono fun z (hz : z = x) => hz ▸ h.settles_x
    have hk := hR.content?_of_eq h.toMidway hoff (fun _ _ => False.elim)
      h.representative_x (hcon hs)
    exact ⟨k', hok, (h.toTracked.of_content hm' hv' hk).ready h hv',
      ⟨hv, fun a b => hR.defers_iff.mp, hR.grows⟩, fun _ => hR.target?_start hs⟩
  · rw [if_neg hs]
    exact ⟨k, rfl, h, .refl _ _ _, fun h' => absurd h' hs⟩

omit h in
/-- The neighbours of a node with an edge to `dst` have the content `x`. -/
theorem content?_near (h : Ready g k' src dst x) (ha : Aligns k k' src x) (hp : p ≠ src)
    (hedge : (k.node p).pointsTo = .edge dst) (hm : m ≠ src) (hj : k.Joined p m) :
    k'.content? m = some x := by
  rw [← h.content?_joined hp hm (ha.joined_iff.mpr hj) not_false, content?_eq]
  rcases ha.moved p hp with e | ⟨z, rfl, e⟩
  · rw [target?_of_edge (e.trans hedge), Option.map_some, h.rep_dst]
  · rw [e, Option.map_some, h.representative_x]

/-- The neighbours of one node with an edge to `dst`. -/
theorem alignPred (hp : p ≠ src) (hedge : (k.node p).pointsTo = .edge dst) :
    ∃ k', alignPred dst k ⟨.pointsTo, p⟩ = .ok k' ∧ Ready g k' src dst x ∧ Aligns k k' src x ∧
      AlignedAt k' src x p := by
  have hnb : ∀ m, m ∈ k.neighbours p ↔ m ≠ src ∧ k.Joined p m := fun m =>
    h.linked.mem_neighbours hp
  obtain ⟨k', hok, h', ha, hdone⟩ := foldlM_total (f := Graph.alignNode dst)
    (l := k.neighbours p) (P := fun done k₁ => Ready g k₁ src dst x ∧ Aligns k k₁ src x ∧
      ∀ m ∈ done, k₁.target? m = some x) (b := k) (by
    rintro done m rest k₁ hsplit ⟨h₁, ha₁, hdone⟩
    obtain ⟨hms, hj⟩ := (hnb m).mp (by rw [hsplit]; simp)
    have hcon := h₁.content?_near ha₁ hp hedge hms hj
    have hs : (k₁.target? m).isSome := by
      rw [← Option.isSome_map, ← content?_eq, hcon]
      rfl
    obtain ⟨k₂, hok, h₂, ha₂, ht⟩ := h₁.alignNode hms fun _ => hcon
    refine ⟨k₂, hok, h₂, ha₁.trans ha₂, fun a hmem => ?_⟩
    rcases List.mem_append.mp hmem with hmem | hmem
    · exact ha₂.target?_of_eq ((hnb a).mp (by rw [hsplit]; simp [hmem])).1 (hdone a hmem)
    · rw [List.mem_singleton.mp hmem]
      exact ht hs) ⟨h, .refl _ _ _, by simp⟩
  exact ⟨k', hok, h', ha, fun m hj hm => hdone m ((hnb m).mpr ⟨hm, ha.joined_iff.mp hj⟩)⟩

/-- One round of the loop over the entries of `dst`. An entry for a defer edge is passed over. -/
theorem alignEntry {q : Pred} (hq : q ∈ (k.node dst).preds) :
    ∃ k', Graph.alignPred dst k q = .ok k' ∧ Ready g k' src dst x ∧ Aligns k k' src x ∧
      (q.kind = .pointsTo → AlignedAt k' src x q.node) := by
  obtain ⟨kind, p⟩ := q
  cases kind with
  | defer => exact ⟨k, rfl, h, .refl _ _ _, nofun⟩
  | pointsTo =>
    obtain ⟨hp, hedge⟩ := h.linked.of_edge p dst h.ne hq
    obtain ⟨k', hok, h', ha, hat⟩ := h.alignPred hp hedge
    exact ⟨k', hok, h', ha, fun _ => hat⟩

/-! ### While `dst` represents itself -/

/-- Behind the entries that were there, `dst` has at most one more for each node. -/
theorem length_preds_le {l : List Pred}
    (hl : Grows l (k.node dst).preds) : (k.node dst).preds.length ≤ l.length + k.size := by
  obtain ⟨new, hnew, hkind⟩ := hl
  have hnd : new.Nodup :=
    (List.nodup_append.mp (hnew ▸ h.linked.preds_nodup dst h.ne)).2.1
  have hsub : new ⊆ k.nodeIds.map (Pred.mk .pointsTo) := by
    rintro ⟨_, a⟩ hq
    cases hkind _ hq
    obtain ⟨-, he⟩ := h.linked.of_edge a dst h.ne (by rw [hnew]; simp [hq])
    exact List.mem_map.mpr ⟨a, mem_nodeIds.mpr (has_of_target? (target?_of_edge he)), rfl⟩
  have hle := (List.subperm_of_subset hnd hsub).length_le
  rw [List.length_map, length_nodeIds] at hle
  rw [hnew, List.length_append]
  omega

/-- Once the loop is past the end of the list all webs are in line. -/
theorem aligned_of_length_le {i : Nat} (hi : (k.node dst).preds.length ≤ i)
    (hdone : ∀ j < i, ∀ p, (k.node dst).preds[j]? = some ⟨.pointsTo, p⟩ → AlignedAt k src x p) :
    Aligned k src dst x := by
  intro p hp hedge
  obtain ⟨j, hj⟩ := List.getElem?_of_mem (h.linked.edge p dst hp hedge).2
  have hlt : j < (k.node dst).preds.length := by
    by_contra hge
    rw [List.getElem?_eq_none (by omega)] at hj
    cases hj
  exact hdone j (by omega) p hj

omit h in
/-- The loop over the entries of `dst`, from position `i` on. The list grows at its end only, so the
webs around the entries in front of `i` stay in line. -/
theorem alignPreds_root {l : List Pred} (bound i : Nat) (k : Graph) (h : Ready g k src dst dst)
    (hl : Grows l (k.node dst).preds) (hi : i + bound = l.length + k.size)
    (hdone : (∀ j < i, ∀ p, (k.node dst).preds[j]? = some ⟨.pointsTo, p⟩ → AlignedAt k src dst p)) :
    ∃ k', alignPreds dst bound i k = .ok k' ∧ Ready g k' src dst dst ∧ Aligns k k' src dst ∧
    Aligned k' src dst dst := by
  induction bound generalizing i k with
  | zero =>
    have := h.length_preds_le hl
    exact ⟨k, rfl, h, .refl _ _ _, h.aligned_of_length_le (by omega) hdone⟩
  | succ bound ih =>
    unfold Graph.alignPreds
    cases hq : (k.node dst).preds[i]? with
    | none =>
      exact ⟨k, rfl, h, .refl _ _ _,
        h.aligned_of_length_le (List.getElem?_eq_none_iff.mp hq) hdone⟩
    | some q =>
      obtain ⟨k₁, hok₁, h₁, ha₁, hat⟩ := h.alignEntry (List.mem_of_getElem? hq)
      have hi' := (List.getElem?_eq_some_iff.mp hq).1
      -- Entries are added at the end, so position `j` still has its entry.
      obtain ⟨new, hnew, -⟩ := ha₁.grows
      obtain ⟨k', hok, h', ha, hal⟩ := ih (i + 1) k₁ h₁ (hl.trans ha₁.grows)
        (by rw [ha₁.size]; omega) fun j hj p hp => by
          rw [hnew, List.getElem?_append_left (by omega)] at hp
          rcases Nat.lt_succ_iff_lt_or_eq.mp hj with hj | rfl
          · exact (hdone j hj p hp).mono ha₁
          · cases hq.symm.trans hp
            exact hat rfl
      refine ⟨k', ?_, h', ha₁.trans ha, hal⟩
      show (do alignPreds dst bound (i + 1) (← Graph.alignPred dst k q)) = _
      rw [hok₁]
      exact hok

/-! ### While `dst` is to be merged in turn -/

theorem mergeTo_x : ∀ z, z = x → (k.node z).mergeTo = none := by
  rintro z rfl
  exact h.settles_x.1

/-- If unsettled nodes form one web, the first change settles them all. -/
theorem alignNode_cases (hx : x ≠ dst) (hconn : ∀ a b, Unsettled k src a → Unsettled k src b →
      ReflTransGen (fun u v => k.Joined u v ∧ Unsettled k src v) a b)
    (hp : p ≠ src) (hedge : (k.node p).pointsTo = .edge dst) (hm : m ≠ src) (hj : k.Joined p m)
    (hok : Graph.alignNode dst k m = .ok k') : k' = k ∨ ∀ n, ¬ Unsettled k' src n := by
  have hlinks : ∀ u, u = src ∨ u = dst → (k.node u).mergeTo.isSome := by
    rintro u (rfl | rfl)
    · exact h.src_links
    · refine Option.isSome_iff_ne_none.mpr fun e => hx ?_
      rw [← h.rep_dst, representative_of_root e]
  unfold Graph.alignNode at hok
  rw [isSet_eq] at hok
  split at hok
  · rename_i hs
    obtain ⟨c, hc⟩ := Option.isSome_iff_exists.mp hs
    by_cases hcx : c = x
    · -- the neighbour points to `x` already
      refine .inl ?_
      unfold Graph.repoint at hok
      rw [show (k.node m).pointsTo.target? = some c from hc] at hok
      dsimp only at hok
      rw [if_pos (hcx.trans h.rep_dst.symm)] at hok
      cases hok
      rfl
    · right
      obtain ⟨k₁, R, hok₁, hR, hoff, -, hv⟩ := h.repoint hm hs h.dst_live h.dst_content h.rep_dst
        fun _ _ => False.elim
      cases hok₁.symm.trans hok
      have hms : Unsettled k src m := by
        refine ⟨hm, c, hc, hlinks c ?_⟩
        rcases h.level p m hp hm hj not_false with e | ⟨u, v, -, ev, hv⟩
        · rw [target?_of_edge hedge, hc] at e
          exact .inr (Option.some.inj e).symm
        · rw [hc] at ev
          cases ev
          rcases hv with hv | hv | hv
          · exact .inl hv
          · exact .inr hv
          · exact absurd hv hcx
      have hstale : ∀ n, Unsettled k src n → k.isStale x n = true := by
        rintro n ⟨-, d, hd, hdm⟩
        refine isStale_iff.mpr ⟨d, hd, fun e => ?_⟩
        rw [h.mergeTo_x d e] at hdm
        cases hdm
      intro n hn
      obtain ⟨hn₀, e⟩ := hn.of_moves hv h.mergeTo_x
      have hRn : R n := by
        have hpath := hconn m n hms hn₀
        clear hn hn₀ e
        induction hpath with
        | refl => exact hR.start (hstale m hms)
        | @tail a b _ hab ih =>
          refine hR.closed a b ih ?_ (hstale b hab.2)
          exact (h.linked.mem_neighbours (hoff a ih)).mpr ⟨hab.2.1, hab.1⟩
      obtain ⟨-, d, hd, hdm⟩ := hn
      rw [hR.target? hRn] at hd
      cases hd
      rw [hR.mergeTo, h.settles_x.1] at hdm
      cases hdm
  · cases hok
    exact .inl rfl

theorem alignPred_cases (hx : x ≠ dst) (hconn : ∀ a b, Unsettled k src a → Unsettled k src b →
      ReflTransGen (fun u v => k.Joined u v ∧ Unsettled k src v) a b)
    {q : Pred} (hq : q ∈ (k.node dst).preds) (hok : Graph.alignPred dst k q = .ok k') :
    k' = k ∨ ∀ n, ¬ Unsettled k' src n := by
  obtain ⟨_ | _, p⟩ := q
  case defer =>
    cases hok
    exact .inl rfl
  obtain ⟨hp, hedge⟩ := h.linked.of_edge p dst h.ne hq
  have hinv := foldlM_of_ok (f := Graph.alignNode dst) (l := k.neighbours p)
    (P := fun _ k₁ => k₁ = k ∨ Ready g k₁ src dst x ∧ Aligns k k₁ src x ∧ ∀ n, ¬ Unsettled k₁ src n)
    (b := k) (by
    rintro done m rest k₁ k₂ hsplit hk₁ hstep
    obtain ⟨hms, hj⟩ := (h.linked.mem_neighbours hp).mp (show m ∈ k.neighbours p by
      rw [hsplit]; simp)
    rcases hk₁ with rfl | ⟨h₁, ha₁, hno⟩
    · obtain ⟨k₃, hok₃, h₃, ha₃, -⟩ :=
        h.alignNode hms fun _ => h.content?_near (.refl _ _ _) hp hedge hms hj
      cases hok₃.symm.trans hstep
      exact (h.alignNode_cases hx hconn hp hedge hms hj hstep).imp_right fun hno => ⟨h₃, ha₃, hno⟩
    · obtain ⟨k₃, hok₃, h₃, ha₃, -⟩ :=
        h₁.alignNode hms fun _ => h₁.content?_near ha₁ hp hedge hms hj
      cases hok₃.symm.trans hstep
      exact .inr ⟨h₃, ha₁.trans ha₃, fun n hn => hno n (hn.of_moves ha₃.toMoves h₁.mergeTo_x).1⟩)
    (.inl rfl) hok
  exact hinv.imp_right fun hk => hk.2.2

omit h in
/-- The loop does not fail. -/
theorem alignPreds_total : ∀ (bound i : Nat) (k : Graph), Ready g k src dst x →
    ∃ k', alignPreds dst bound i k = .ok k' ∧ Ready g k' src dst x ∧ Aligns k k' src x := by
  intro bound
  induction bound with
  | zero => exact fun i k h => ⟨k, rfl, h, .refl _ _ _⟩
  | succ bound ih =>
    intro i k h
    unfold Graph.alignPreds
    cases hq : (k.node dst).preds[i]? with
    | none => exact ⟨k, rfl, h, .refl _ _ _⟩
    | some q =>
      obtain ⟨k₁, hok₁, h₁, ha₁, -⟩ := h.alignEntry (List.mem_of_getElem? hq)
      obtain ⟨k', hok, h', ha⟩ := ih (i + 1) k₁ h₁
      refine ⟨k', ?_, h', ha₁.trans ha⟩
      show (do alignPreds dst bound (i + 1) (← Graph.alignPred dst k q)) = _
      rw [hok₁]
      exact hok

omit h in
/-- Either nothing is unsettled in the end, or the loop has changed nothing and come to every entry.
-/
theorem alignPreds_cases (hx : x ≠ dst) : ∀ (bound i : Nat), Ready g k src dst x →
    (∀ a b, Unsettled k src a → Unsettled k src b →
      ReflTransGen (fun u v => k.Joined u v ∧ Unsettled k src v) a b) →
    alignPreds dst bound i k = .ok k' → (∀ n, ¬ Unsettled k' src n) ∨ k' = k ∧
      ∀ j p, i ≤ j → j < i + bound → (k.node dst).preds[j]? = some ⟨.pointsTo, p⟩ →
        AlignedAt k src x p := by
  intro bound
  induction bound with
  | zero =>
    intro i h hconn hok
    cases hok
    exact .inr ⟨rfl, fun j p hij hj => absurd hj (by omega)⟩
  | succ bound ih =>
    intro i h hconn hok
    unfold Graph.alignPreds at hok
    cases hq : (k.node dst).preds[i]? with
    | none =>
      rw [hq] at hok
      cases hok
      refine .inr ⟨rfl, fun j p hij _ hj => ?_⟩
      rw [List.getElem?_eq_none (by rw [List.getElem?_eq_none_iff] at hq; omega)] at hj
      cases hj
    | some q =>
      rw [hq] at hok
      obtain ⟨k₁, hok₁, hrest⟩ := bind_ok.mp hok
      have hmem := List.mem_of_getElem? hq
      obtain ⟨k₂, hok₂, h₂, -, hat⟩ := h.alignEntry hmem
      cases hok₂.symm.trans hok₁
      -- A round that changes the graph leaves nothing unsettled.
      rcases h.alignPred_cases hx hconn hmem hok₁ with rfl | hno
      · refine (ih (i + 1) h hconn hrest).imp_right (And.imp_right fun hdone j p hij hj hp => ?_)
        by_cases hji : j = i
        · cases hq.symm.trans (hji ▸ hp)
          exact hat rfl
        · exact hdone j p (by omega) (by omega) hp
      · obtain ⟨k₃, hok₃, -, ha₃⟩ := alignPreds_total bound (i + 1) k₁ h₂
        cases hok₃.symm.trans hrest
        exact .inl fun n hn => hno n (hn.of_moves ha₃.toMoves h₂.mergeTo_x).1

/-- **All webs are in line after the loop.** If `dst` is to be merged in turn, this takes that the
unsettled nodes form one web. -/
theorem alignPreds (hconn : x ≠ dst → ∀ a b, Unsettled k src a → Unsettled k src b →
      ReflTransGen (fun u v => k.Joined u v ∧ Unsettled k src v) a b) :
    ∃ k', alignPreds dst ((k.node dst).preds.length + k.size) 0 k = .ok k' ∧
      Ready g k' src dst x ∧ Aligns k k' src x ∧ Aligned k' src dst x := by
  by_cases hx : x = dst
  · subst hx
    exact alignPreds_root _ 0 k h (.refl _) (by omega) fun j hj => absurd hj (by omega)
  · obtain ⟨k', hok, h', ha⟩ := alignPreds_total ((k.node dst).preds.length + k.size) 0 k h
    refine ⟨k', hok, h', ha, ?_⟩
    rcases alignPreds_cases hx _ 0 h (hconn hx) hok with hno | ⟨rfl, hdone⟩
    · intro p hp hedge
      refine absurd ⟨hp, dst, target?_of_edge hedge, ?_⟩ (hno p)
      refine Option.isSome_iff_ne_none.mpr fun e => hx ?_
      rw [← h'.rep_dst, representative_of_root e]
    · exact h'.aligned_of_length_le (Nat.le_add_right _ k'.size) fun j hj p hp =>
        hdone j p (Nat.zero_le _) (by omega) hp

end Ready

end Escape.Graph
