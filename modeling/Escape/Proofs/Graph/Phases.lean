import Escape.Proofs.Graph.MergeLinks
import Escape.Proofs.Graph.Webs

/-!
# The phases of a merge

A merge cuts the node off, settles what the remaining node points to, moves the defer edges over,
brings the webs around in line, and buries the node.

- `Graph.absorb_ok`: a merge is its phases, one after the other.
- `Graph.unlink_cutOff`: the first phase cuts the node off.
-/

namespace Escape.Graph

variable {g g' h : Graph} {src dst n m c : NodeId}

/-! ### Names for the phases -/

/-- Unlists the defer edges that leave `src`. -/
def dropDefers (g : Graph) (src : NodeId) : Graph :=
  (g.node src).defersTo.foldl (fun g d => g.modify d (·.erasePred ⟨.defer, src⟩)) g

/-- Unlists the points-to edge of `src`. -/
def dropEdge (g : Graph) (src : NodeId) : Graph :=
  match (g.node src).pointsTo with
  | .edge c => g.modify c (·.erasePred ⟨.pointsTo, src⟩)
  | .none | .inferred _ => g

/-- Unlinks the edges of `src`, except for its points-to edge. -/
def unlink (g : Graph) (src dst : NodeId) : Checked Graph :=
  return (← (g.node src).preds.foldlM (redirectPred src dst) g).dropDefers src

/-- What `c` is called once `src` is merged into `dst`. -/
def rename (src dst c : NodeId) : NodeId := if c = src then dst else c

/-- Lets `dst` have an edge if `src`, which is cut off, has one. -/
def takeEdge (g : Graph) (src dst : NodeId) : Checked Graph :=
  match (g.node src).pointsTo with
  | .edge c =>
    match (g.node dst).pointsTo with
    | .none => g.spread dst (rename src dst c) true
    | .inferred d => return g.linkEdge dst (rename src dst d)
    | .edge _ => return g
  | .none | .inferred _ => return g

/-- Schedules `content`, which `src` points to, to be merged with what `dst` points to. -/
def matchContents (g : Graph) (src dst : NodeId) (content : Option NodeId) : Graph :=
  match g.target? dst, content with
  | some d, some c => if d = src then g else g.schedule (rename src dst c) d
  | _, _ => g

/-- Lets `other` point to `dst` if it pointed to `src`. -/
def fixOther (g : Graph) (src dst other : NodeId) : Checked Graph :=
  if g.target? other = some src then g.repoint other dst else pure g

/-- Lets `dst` take over what is left of `src`, and makes `src` a tombstone. -/
def bury (g : Graph) (src dst : NodeId) : Graph :=
  (((g.modify dst (·.raise (g.node src).state)).copyUsePoints src dst).moveValue src dst).modify src
    Node.tombstone

theorem moveEdge_eq (g : Graph) (src dst : NodeId) :
    g.moveEdge src dst = (g.dropEdge src).takeEdge src dst := by
  unfold moveEdge takeEdge dropEdge
  cases hp : (g.node src).pointsTo with
  | none => simp [hp]
  | inferred d => simp [hp]
  | edge d =>
    have : ((g.modify d (·.erasePred ⟨.pointsTo, src⟩)).node src).pointsTo = .edge d := by
      rw [node_modify_field Node.pointsTo fun x => x.erasePred_pointsTo _, hp]
    simp only [this]
    rfl

theorem dropDefers_field {α : Type} (p : Node → α) (hp : ∀ x q, p (Node.erasePred q x) = p x)
    (g : Graph) (src n : NodeId) : p ((g.dropDefers src).node n) = p (g.node n) := by
  unfold dropDefers
  generalize (g.node src).defersTo = l
  induction l generalizing g with
  | nil => rfl
  | cons d l ih =>
    rw [List.foldl_cons, ih]
    exact node_modify_field p (fun x => hp x _) g d n

/-- What aligning the webs around one edge keeps is kept by the loop over all of them. -/
theorem alignPreds_induct {P : Graph → Prop} {n : NodeId}
    (step : ∀ g p g', P g → p ∈ (g.node n).preds → alignPred n g p = .ok g' → P g') :
    ∀ (bound i : Nat) {g : Graph}, P g → alignPreds n bound i g = .ok g' → P g'
  | 0, _, g, h, hok => by
    cases hok
    exact h
  | bound + 1, i, g, h, hok => by
    unfold alignPreds at hok
    split at hok
    · cases hok
      exact h
    · rename_i p hp
      obtain ⟨g₁, h₁, hok⟩ := bind_ok.mp hok
      exact alignPreds_induct step bound (i + 1) (step g p g₁ h (List.mem_of_getElem? hp) h₁) hok

/-- All phases of a merge before the webs are aligned, with the node that `src` is merged into. -/
def prepare (g : Graph) (src : NodeId) : Checked (NodeId × Graph) :=
  let dst := g.representative src
  if dst = src then .error .mergeWithoutTarget
  else if !((g.node src).isContent && (g.node dst).isContent) then .error .mergeNonContent
  else do
    let g₁ ← g.unlink src dst
    let g₂ ← (g₁.dropEdge src).takeEdge src dst
    let g₃ ← (g₂.matchContents src dst (g₁.target? src)).fixOther src dst dst
    let g₄ ← (g.node src).deferPreds.foldlM (fun g m => moveDefer src dst g m false) g₃
    let g₅ ← (g₁.node src).defersTo.foldlM (fun g m => moveDefer src dst g m true) g₄
    return (dst, g₅)

/-- **The phases of a merge.** -/
theorem absorb_eq (g : Graph) (src : NodeId) : g.absorb src = do
    let r ← g.prepare src
    let k ← alignPreds r.1 ((r.2.node r.1).preds.length + r.2.size) 0 r.2
    return k.bury src r.1 := by
  unfold absorb prepare unlink
  dsimp only
  split
  · rfl
  split
  · rfl
  simp only [bind_assoc, pure_bind]
  refine congrArg _ (funext fun g₁ => ?_)
  rw [moveEdge_eq, dropDefers_field Node.defersTo fun x q => x.erasePred_defersTo q]
  refine congrArg _ (funext fun g₂ => ?_)
  show (if (g₂.matchContents src (g.representative src) ((g₁.dropDefers src).target? src)).target?
    (g.representative src) = some src then _ else _) = _
  unfold fixOther
  by_cases hown : (g₂.matchContents src (g.representative src)
      ((g₁.dropDefers src).target? src)).target? (g.representative src) = some src
  · rw [if_pos hown, if_pos hown]
    rfl
  · rw [if_neg hown, if_neg hown]
    rfl

theorem absorb_ok : g.absorb src = .ok g' ↔ ∃ dst, g.representative src = dst ∧ dst ≠ src ∧
    (g.node src).isContent ∧ (g.node dst).isContent ∧ ∃ g₁ g₂ g₃ g₄ g₅ g₆,
      g.unlink src dst = .ok g₁ ∧
      (g₁.dropEdge src).takeEdge src dst = .ok g₂ ∧
      (g₂.matchContents src dst (g₁.target? src)).fixOther src dst dst = .ok g₃ ∧
      (g.node src).deferPreds.foldlM (fun g m => moveDefer src dst g m false) g₃ = .ok g₄ ∧
      (g₁.node src).defersTo.foldlM (fun g m => moveDefer src dst g m true) g₄ = .ok g₅ ∧
      alignPreds dst ((g₅.node dst).preds.length + g₅.size) 0 g₅ = .ok g₆ ∧
      g₆.bury src dst = g' := by
  rw [absorb_eq, prepare]
  by_cases hne : g.representative src = src
  · rw [if_pos hne]
    exact ⟨fun h => (nomatch h), fun ⟨_, hd, hne', _⟩ => absurd (hd.symm.trans hne) hne'⟩
  · by_cases hcc : (g.node src).isContent && (g.node (g.representative src)).isContent
    · simp only [hne, hcc, if_false, Bool.not_true, bind_assoc, pure_bind, bind_ok, Checked.pure_ok,
        exists_eq_left', exists_and_left, Bool.false_eq_true]
      simp only [Bool.and_eq_true] at hcc
      simp [hne, hcc]
    · rw [if_neg hne, if_pos (by rw [Bool.eq_false_iff.mpr hcc]; rfl)]
      refine ⟨fun h => (nomatch h), ?_⟩
      rintro ⟨_, rfl, -, hs, hd, -⟩
      exact absurd (by rw [hs, hd]; rfl) hcc

/-! ### Cutting a node off -/

/-- From `g` to `h` the node `src` was cut off: edges that led to it lead to `dst`, and defer edges
to it are gone. Its own fields still say what it pointed and deferred to. -/
structure CutOff (g h : Graph) (src dst : NodeId) : Prop extends Rewires g h where
  pointsTo : ∀ n, n ≠ src → (h.node n).pointsTo =
    if (g.node n).pointsTo = .edge src then .edge dst else (g.node n).pointsTo
  pointsTo_src : (h.node src).pointsTo = (g.node src).pointsTo
  defersTo : ∀ n, (h.node n).defersTo = (g.node n).defersTo.filter (· ≠ src)
  usePoints : ∀ n, (h.node n).usePoints = (g.node n).usePoints
  linked : Linked h (· = src)

/-- What the loop over the entries of `src` has done once it handled those in `done`. -/
structure Redirected (g h : Graph) (src dst : NodeId) (done : List Pred) : Prop
    extends Rewires g h where
  pointsTo : ∀ n, (h.node n).pointsTo =
    if n ≠ src ∧ ⟨.pointsTo, n⟩ ∈ done then .edge dst else (g.node n).pointsTo
  defersTo : ∀ n, (h.node n).defersTo = if ⟨.defer, n⟩ ∈ done then
    (g.node n).defersTo.filter (· ≠ src) else (g.node n).defersTo
  usePoints : ∀ n, (h.node n).usePoints = (g.node n).usePoints
  preds : ∀ n, (h.node n).preds = if n = dst then
    (g.node n).preds ++ done.filter (fun p => p.kind = .pointsTo ∧ p.node ≠ src)
    else (g.node n).preds

theorem Redirected.refl (g : Graph) (src dst : NodeId) : Redirected g g src dst [] :=
  ⟨.refl g, by simp, by simp, fun _ => rfl, by simp⟩

theorem Redirected.step {done : List Pred} {p : Pred} (hh : Redirected g h src dst done)
    (hnew : p ∉ done) (hp : g.Has p.node) (hd : g.Has dst)
    (hok : redirectPred src dst h p = .ok g') : Redirected g g' src dst (done ++ [p]) := by
  obtain ⟨k, a⟩ := p
  unfold redirectPred at hok
  cases k with
  | pointsTo =>
    dsimp only at hok
    split at hok
    · rename_i ha
      cases hok
      refine ⟨hh.toRewires, fun n => ?_, fun n => ?_, hh.usePoints, fun n => ?_⟩
      · rw [hh.pointsTo]
        by_cases hn : n = src <;> simp [hn, ha]
      · rw [hh.defersTo]
        simp
      · rw [hh.preds]
        simp [ha]
    · rename_i ha
      obtain ⟨-, -, rfl⟩ := setEdge_ok.mp hok
      have hl := assigns_linkEdge (c := dst) (hh.toRewires.has.mpr hp)
      refine ⟨hh.toRewires.trans hl.toRewires, fun n => ?_, fun n => ?_, fun n => ?_, fun n => ?_⟩
      · rw [hl.pointsTo, hh.pointsTo]
        by_cases hn : n = a
        · simp [hn, ha]
        · simp [hn]
      · rw [hl.defersTo, hh.defersTo]
        simp
      · rw [linkEdge, node_modify_field Node.usePoints,
          node_modify_field Node.usePoints, hh.usePoints]
      · rw [preds_linkEdge (hh.toRewires.has.mpr hd), hh.preds]
        by_cases hn : n = dst
        · simp [hn, ha]
        · simp [hn]
  | defer =>
    cases hok
    refine ⟨hh.toRewires.trans (.modify h a), fun n => ?_, fun n => ?_, fun n => ?_, fun n => ?_⟩
    · rw [node_modify_field Node.pointsTo, hh.pointsTo]
      simp
    · rw [node_modify_of_has (hh.toRewires.has.mpr hp)]
      by_cases hn : n = a
      · rw [if_pos hn, if_pos (by simp [hn])]
        show (h.node n).defersTo.filter _ = _
        rw [hh.defersTo, if_neg (by rw [hn]; exact hnew)]
      · rw [if_neg hn, hh.defersTo]
        simp [hn]
    · rw [node_modify_field Node.usePoints, hh.usePoints]
    · rw [node_modify_field Node.preds, hh.preds]
      simp

theorem redirect_spec (hl : Linked g nobody) (hd : g.Has dst)
    (hok : (g.node src).preds.foldlM (redirectPred src dst) g = .ok h) :
    Redirected g h src dst (g.node src).preds := by
  refine foldlM_of_ok (P := fun done k => Redirected g k src dst done) ?_ (.refl g src dst) hok
  intro done p rest k k' hsplit hk hstep
  have hnd : (done ++ p :: rest).Nodup := hsplit ▸ hl.preds_nodup src not_false
  refine hk.step (fun hp => (List.disjoint_of_nodup_append hnd) hp List.mem_cons_self) ?_ hd hstep
  have hmem : p ∈ (g.node src).preds := by rw [hsplit]; simp
  obtain ⟨k, a⟩ := p
  cases k with
  | pointsTo => exact has_of_target? (target?_of_edge (hl.of_edge a src not_false hmem).2)
  | defer => exact (hl.of_defer a src not_false hmem).2.has

theorem redirect_total (hd : (g.node dst).mergeTo = none) (hc : (g.node dst).isContent) :
    ∃ h, (g.node src).preds.foldlM (redirectPred src dst) g = .ok h := by
  obtain ⟨h, hh, -⟩ := foldlM_total (f := redirectPred src dst) (l := (g.node src).preds)
    (P := fun _ k => Rewires g k) (b := g) (fun _ p _ k _ hr => by
      unfold redirectPred
      cases p.kind with
      | pointsTo =>
        dsimp only
        split
        · exact ⟨k, rfl, hr⟩
        · refine ⟨_, setEdge_ok.mpr ⟨(hr.mergeTo dst).trans hd,
            (hr.isContent dst).trans hc, rfl⟩, ?_⟩
          exact hr.trans ((Rewires.modify k _).trans (.modify _ _))
      | defer => exact ⟨_, rfl, hr.trans (.modify k _)⟩) (.refl g)
  exact ⟨h, hh⟩

/-- Erasing one entry from the lists of several nodes. -/
theorem foldl_erasePred_preds {p : Pred} {l : List NodeId} : ∀ {g : Graph} {n : NodeId},
    (g.node n).preds.Nodup →
    (((l.foldl (fun g d => g.modify d (·.erasePred p)) g).node n).preds.Nodup ∧
      ∀ q, q ∈ ((l.foldl (fun g d => g.modify d (·.erasePred p)) g).node n).preds ↔
        q ∈ (g.node n).preds ∧ ¬ (n ∈ l ∧ q = p)) := by
  induction l with
  | nil => exact fun h => ⟨h, by simp⟩
  | cons a l ih =>
    intro g n h
    by_cases hn : n = a ∧ g.Has a
    · have hnode : (g.modify a (·.erasePred p)).node n = (g.node n).erasePred p := by
        rw [node_modify, if_pos hn]
      obtain ⟨hnd, hmem⟩ := ih (g := g.modify a (·.erasePred p)) (n := n)
        (by rw [hnode]; exact Node.erasePred_nodup h)
      refine ⟨hnd, fun q => ?_⟩
      rw [List.foldl_cons, hmem, hnode, Node.mem_erasePred h]
      simp only [List.mem_cons, hn.1, true_or, true_and, ne_eq]
      exact ⟨fun hq => hq.1, fun hq => ⟨hq, fun e => hq.2 e.2⟩⟩
    · have hnode : (g.modify a (·.erasePred p)).node n = g.node n := by
        rw [node_modify, if_neg hn]
      obtain ⟨hnd, hmem⟩ := ih (g := g.modify a (·.erasePred p)) (n := n) (by rw [hnode]; exact h)
      refine ⟨hnd, fun q => ?_⟩
      rw [List.foldl_cons, hmem, hnode, List.mem_cons]
      by_cases hna : n = a
      · -- a node outside of the table lists nothing
        have hempty : (g.node n).preds = [] := by
          rw [node_of_not_has fun hh => hn ⟨hna, hna ▸ hh⟩]
        simp [hempty]
      · simp [hna]

theorem dropDefers_rewires (g : Graph) (src : NodeId) : Rewires g (g.dropDefers src) := by
  unfold dropDefers
  generalize (g.node src).defersTo = l
  induction l generalizing g with
  | nil => exact .refl g
  | cons d l ih => exact (Rewires.modify g d fun x => x.erasePred_bare _).trans (ih _)

theorem dropEdge_rewires (g : Graph) (src : NodeId) : Rewires g (g.dropEdge src) := by
  unfold dropEdge
  split
  · exact .modify g _ fun x => x.erasePred_bare _
  · exact .refl g
  · exact .refl g

theorem dropEdge_field {α : Type} (p : Node → α) (hp : ∀ x q, p (Node.erasePred q x) = p x)
    (g : Graph) (src n : NodeId) : p ((g.dropEdge src).node n) = p (g.node n) := by
  unfold dropEdge
  split
  · exact node_modify_field p (fun x => hp x _) g _ n
  · rfl
  · rfl

theorem dropEdge_preds (hn : (g.node n).preds.Nodup) :
    ((g.dropEdge src).node n).preds.Nodup ∧ ∀ q, q ∈ ((g.dropEdge src).node n).preds ↔
      q ∈ (g.node n).preds ∧ ¬ ((g.node src).pointsTo = .edge n ∧ q = ⟨.pointsTo, src⟩) := by
  unfold dropEdge
  split
  · rename_i c hc
    rw [node_modify]
    split
    · rename_i hnc
      refine ⟨Node.erasePred_nodup hn, fun q => ?_⟩
      rw [Node.mem_erasePred hn]
      simp [hc, hnc.1]
    · rename_i hnc
      refine ⟨hn, fun q => ⟨fun hq => ⟨hq, ?_⟩, And.left⟩⟩
      rintro ⟨he, rfl⟩
      rw [hc] at he
      cases he
      exact hnc ⟨rfl, has_of_pred hq⟩
  · rename_i hc
    exact ⟨hn, fun q => by simp [hc]⟩
  · rename_i hc
    exact ⟨hn, fun q => by simp [hc]⟩

/-- The lists of entries once `src` was cut off: what is left of them, and what is new at `dst`. -/
theorem cut_preds (hl : Linked g nobody) (hne : dst ≠ src)
    (hr : Redirected g h src dst (g.node src).preds) (n : NodeId) :
    ((((h.dropDefers src).dropEdge src).node n).preds.Nodup ∧
      ∀ q, q ∈ (((h.dropDefers src).dropEdge src).node n).preds ↔
        (q ∈ (g.node n).preds ∨ n = dst ∧ q ∈ (g.node src).preds ∧ q.kind = .pointsTo ∧
          q.node ≠ src) ∧
        ¬ ((h.node src).defersTo.contains n ∧ q = ⟨.defer, src⟩) ∧
        ¬ ((g.node src).pointsTo = .edge n ∧ q = ⟨.pointsTo, src⟩)) := by
  have hnodup : (h.node n).preds.Nodup := by
    rw [hr.preds]
    split
    · rename_i hn
      refine (hl.preds_nodup n not_false).append ((hl.preds_nodup src not_false).filter _) ?_
      rintro ⟨k, a⟩ hin hnew
      simp only [List.mem_filter, decide_eq_true_eq] at hnew
      obtain ⟨hsrc, rfl, -⟩ := hnew
      have := (hl.of_edge a n not_false hin).2.symm.trans (hl.of_edge a src not_false hsrc).2
      cases this
      exact hne hn.symm
    · exact hl.preds_nodup n not_false
  obtain ⟨hnd, hmem⟩ := foldl_erasePred_preds (p := ⟨.defer, src⟩)
    (l := (h.node src).defersTo) hnodup
  obtain ⟨hnd', hmem'⟩ : (((h.dropDefers src).dropEdge src).node n).preds.Nodup ∧ _ :=
    dropEdge_preds hnd
  refine ⟨hnd', fun q => ?_⟩
  have hsrc : ((h.dropDefers src).node src).pointsTo = (g.node src).pointsTo := by
    rw [dropDefers_field Node.pointsTo fun x q => x.erasePred_pointsTo q, hr.pointsTo]
    simp
  rw [hmem', hsrc, dropDefers, hmem, hr.preds]
  by_cases hn : n = dst
  · simp [hn, and_assoc]
  · simp [hn, and_assoc]

/-- **The first phase cuts the node off.** -/
theorem unlink_cutOff (hl : Linked g nobody) (hne : dst ≠ src) (hd : g.Has dst)
    (hok : g.unlink src dst = .ok h) : CutOff g (h.dropEdge src) src dst := by
  obtain ⟨g₁, h₁, hok⟩ := bind_ok.mp hok
  cases hok
  have hr := redirect_spec hl hd h₁
  have hpt : ∀ n, (⟨.pointsTo, n⟩ : Pred) ∈ (g.node src).preds ↔ (g.node n).pointsTo = .edge src :=
    fun n => ⟨fun hin => (hl.of_edge n src not_false hin).2,
      fun he => (hl.edge n src not_false he).2⟩
  have hdf : ∀ n, (⟨.defer, n⟩ : Pred) ∈ (g.node src).preds ↔ g.Defers n src :=
    fun n => ⟨fun hin => (hl.of_defer n src not_false hin).2,
      fun he => (hl.defer n src not_false he).2⟩
  set k := (g₁.dropDefers src).dropEdge src with hk
  have hfield : ∀ {α : Type} (p : Node → α) (_ : ∀ x q, p (Node.erasePred q x) = p x) n,
      p (k.node n) = p (g₁.node n) := fun p hp n => by
    rw [hk, dropEdge_field p hp, dropDefers_field p hp]
  have hpoints : ∀ n, n ≠ src → (k.node n).pointsTo =
      if (g.node n).pointsTo = .edge src then .edge dst else (g.node n).pointsTo := fun n hn => by
    rw [hfield Node.pointsTo (fun x q => x.erasePred_pointsTo q), hr.pointsTo]
    simp [hn, hpt]
  have hdefers : ∀ n, (k.node n).defersTo = (g.node n).defersTo.filter (· ≠ src) := fun n => by
    rw [hfield Node.defersTo (fun x q => x.erasePred_defersTo q), hr.defersTo]
    split
    · rfl
    · rename_i hnot
      rw [eq_comm, List.filter_eq_self]
      intro d hd
      simp only [decide_eq_true_eq]
      rintro rfl
      exact hnot ((hdf n).mpr hd)
  have hdefers' : ∀ a n, k.Defers a n ↔ g.Defers a n ∧ n ≠ src := fun a n => by
    simp [Defers, hdefers]
  have hdefers₁ : ∀ n, n ≠ src → ((g₁.node src).defersTo.contains n ↔ g.Defers src n) := by
    intro n hn
    have : (g₁.node src).defersTo = (g.node src).defersTo.filter (· ≠ src) := by
      rw [← hdefers, hfield Node.defersTo (fun x q => x.erasePred_defersTo q)]
    rw [this]
    simp [Defers, hn]
  have hpreds := cut_preds hl hne hr
  -- who is listed at a node other than `src`, and for which edge
  have hedge : ∀ a n, n ≠ src → ((⟨.pointsTo, a⟩ : Pred) ∈ (k.node n).preds ↔
      a ≠ src ∧ (k.node a).pointsTo = .edge n) := by
    intro a n hn
    rw [(hpreds n).2]
    constructor
    · rintro ⟨hin | ⟨rfl, hin, -, ha⟩, -, hkeep⟩
      · have hval := (hl.of_edge a n not_false hin).2
        have ha : a ≠ src := by
          rintro rfl
          exact hkeep ⟨hval, rfl⟩
        refine ⟨ha, ?_⟩
        rw [hpoints a ha, if_neg, hval]
        rw [hval]
        exact fun e => hn (Pointee.edge.inj e)
      · exact ⟨ha, by rw [hpoints a ha, if_pos ((hpt a).mp hin)]⟩
    · rintro ⟨ha, he⟩
      rw [hpoints a ha] at he
      refine ⟨?_, by simp, by simp [ha]⟩
      split at he
      · rename_i hsrc
        cases he
        exact .inr ⟨rfl, (hpt a).mpr hsrc, rfl, ha⟩
      · exact .inl (hl.edge a n not_false he).2
  have hdefer : ∀ a n, n ≠ src → ((⟨.defer, a⟩ : Pred) ∈ (k.node n).preds ↔
      a ≠ src ∧ k.Defers a n) := by
    intro a n hn
    rw [(hpreds n).2, hdefers₁ n hn]
    constructor
    · rintro ⟨hin | ⟨-, -, hkind, -⟩, hkeep, -⟩
      · have hval := (hl.of_defer a n not_false hin).2
        exact ⟨fun ha => hkeep ⟨ha ▸ hval, by rw [ha]⟩, (hdefers' a n).mpr ⟨hval, hn⟩⟩
      · cases hkind
    · rintro ⟨ha, hval⟩
      exact ⟨.inl (hl.defer a n not_false ((hdefers' a n).mp hval).1).2, by simp [ha], by simp⟩
  refine ⟨(hr.toRewires.trans (dropDefers_rewires g₁ src)).trans (dropEdge_rewires _ src), hpoints,
    ?_, hdefers, fun n => ?_, ⟨?_, ?_, ?_, ?_, fun n _ => (hpreds n).1, fun n _ => ?_,
    fun n _ => ?_⟩⟩
  · rw [hfield Node.pointsTo (fun x q => x.erasePred_pointsTo q), hr.pointsTo]
    simp
  · rw [hfield Node.usePoints (fun x q => x.erasePred_usePoints q), hr.usePoints]
  · intro a n ha he
    have hn : n ≠ src := by
      rintro rfl
      rw [hpoints a ha] at he
      split at he
      · exact hne (Pointee.edge.inj he)
      · rename_i hnot
        exact hnot he
    exact ⟨hn, (hedge a n hn).mpr ⟨ha, he⟩⟩
  · exact fun a n hn hin => (hedge a n hn).mp hin
  · intro a n ha hd
    have hn : n ≠ src := ((hdefers' a n).mp hd).2
    exact ⟨hn, (hdefer a n hn).mpr ⟨ha, hd⟩⟩
  · exact fun a n hn hin => (hdefer a n hn).mp hin
  · rw [hdefers]
    exact (hl.defers_nodup n not_false).filter _
  · exact fun hd => hl.irrefl n not_false ((hdefers' n n).mp hd).1

end Escape.Graph
