import Escape.Proofs.Graph.Inheritance

/-!
# Merging comes to an end

The loops of a merge are bounded by numbers of nodes. Here are the loops without these bounds, and
the reasons why they end by themselves, so that the bounds are never reached. The list of the
entries of a node is gone through while entries are added at its end, but an entry is added only for
a node whose edge led elsewhere and leads here from then on. The walks over webs inside a merge come
to each node once, and never leave the table of nodes. The queue of pending merges is worked off
while merges are added to it, but every merge costs a live node.

- `Graph.survey_extra`, `Graph.closure_bareDeferrers_extra`, and `Graph.repointing_repoint` for webs
  that get another content: the walks over webs end.
- `Graph.aligning_alignPreds`, `Graph.absorbing_absorb`, `Grounded.settling`: these end, with the
  same outcome.
-/

namespace Escape.Graph

variable {g g' : Graph} {n m k x src dst : NodeId} {r : Checked Graph}

/-! ### The loops -/

/-- Aligns the webs around all edges to `n`, from position `i` of their list on and until the list
ends. -/
inductive Aligning (n : NodeId) : Nat → Graph → Checked Graph → Prop
  | done {i : Nat} {g : Graph} : (g.node n).preds[i]? = none → Aligning n i g (.ok g)
  | fault {i : Nat} {g : Graph} {p : Pred} {e : Fault} : (g.node n).preds[i]? = some p →
    alignPred n g p = .error e → Aligning n i g (.error e)
  | step {i : Nat} {g g' : Graph} {p : Pred} {r : Checked Graph} : (g.node n).preds[i]? = some p →
    alignPred n g p = .ok g' → Aligning n (i + 1) g' r → Aligning n i g r

/-- Merges `src`, whatever the loop over the entries takes. -/
inductive Absorbing (g : Graph) (src : NodeId) : Checked Graph → Prop
  | refused {e : Fault} : g.prepare src = .error e → Absorbing g src (.error e)
  | aligned {dst : NodeId} {k : Graph} {r : Checked Graph} : g.prepare src = .ok (dst, k) →
    Aligning dst 0 k r → Absorbing g src (r.map fun k => k.bury src dst)

/-- Works off the queue, the merges that come to it on the way included. The list names the nodes
that were taken off the queue, in order. -/
inductive Settling : Graph → List NodeId → Checked Graph → Prop
  | done {g : Graph} : g.pending = [] → Settling g [] (.ok g)
  | fault {g : Graph} {n : NodeId} {rest : List NodeId} {e : Fault} : g.pending = n :: rest →
    Absorbing { g with pending := rest } n (.error e) → Settling g [n] (.error e)
  | merge {g g' : Graph} {n : NodeId} {rest log : List NodeId} {r : Checked Graph} :
    g.pending = n :: rest → Absorbing { g with pending := rest } n (.ok g') → Settling g' log r →
    Settling g (n :: log) r

/-- The loop over the entries has one outcome. -/
theorem Aligning.unique {i : Nat} {r' : Checked Graph} (h : Aligning n i g r)
    (h' : Aligning n i g r') : r = r' := by
  -- By induction on the first run: both read the same entry.
  induction h with
  | done hend =>
    cases h' with
    | done _ => rfl
    | fault hp _ => cases hend.symm.trans hp
    | step hp _ _ => cases hend.symm.trans hp
  | fault hp hstep =>
    cases h' with
    | done hend => cases hend.symm.trans hp
    | fault hp' hstep' =>
      cases hp.symm.trans hp'
      cases hstep.symm.trans hstep'
      rfl
    | step hp' hstep' _ =>
      cases hp.symm.trans hp'
      cases hstep.symm.trans hstep'
  | step hp hstep _ ih =>
    cases h' with
    | done hend => cases hend.symm.trans hp
    | fault hp' hstep' =>
      cases hp.symm.trans hp'
      cases hstep.symm.trans hstep'
    | step hp' hstep' h' =>
      cases hp.symm.trans hp'
      cases hstep.symm.trans hstep'
      exact ih h'

theorem Absorbing.unique {r' : Checked Graph} (h : Absorbing g src r)
    (h' : Absorbing g src r') : r = r' := by
  cases h with
  | refused hp =>
    cases h' with
    | refused hp' =>
      cases hp.symm.trans hp'
      rfl
    | aligned hp' _ => cases hp.symm.trans hp'
  | aligned hp ha =>
    cases h' with
    | refused hp' => cases hp.symm.trans hp'
    | aligned hp' ha' =>
      cases hp.symm.trans hp'
      rw [ha.unique ha']

/-- Working off the queue has one outcome, and takes nodes off it in one order. -/
theorem Settling.unique {log log' : List NodeId} {r' : Checked Graph} (h : Settling g log r)
    (h' : Settling g log' r') : log = log' ∧ r = r' := by
  -- By induction on the first run: both take the same node off.
  induction h generalizing log' with
  | done hend =>
    cases h' with
    | done _ => exact ⟨rfl, rfl⟩
    | fault hp _ => cases hend.symm.trans hp
    | merge hp _ _ => cases hend.symm.trans hp
  | fault hp ha =>
    cases h' with
    | done hend => cases hend.symm.trans hp
    | fault hp' ha' =>
      cases hp.symm.trans hp'
      exact ⟨rfl, ha.unique ha'⟩
    | merge hp' ha' _ =>
      cases hp.symm.trans hp'
      cases ha.unique ha'
  | merge hp ha _ ih =>
    cases h' with
    | done hend => cases hend.symm.trans hp
    | fault hp' ha' =>
      cases hp.symm.trans hp'
      cases ha.unique ha'
    | merge hp' ha' h' =>
      cases hp.symm.trans hp'
      cases ha.unique ha'
      obtain ⟨rfl, rfl⟩ := ih h'
      exact ⟨rfl, rfl⟩

/-! ### Entries -/

/-- The nodes with an edge to something other than `n`. -/
def strays (g : Graph) (n : NodeId) : List NodeId :=
  g.nodeIds.filter fun k => (g.node k).pointsTo.isEdge && decide ((g.node k).pointsTo ≠ .edge n)

/-- How many entries `n` can come to have: while it represents itself, those that it has and one for
each edge to another node. Otherwise its web is given what represents it, and no entry is added. -/
def capacity (g : Graph) (n : NodeId) : Nat :=
  (g.node n).preds.length + if g.representative n = n then (g.strays n).length else 0

theorem capacity_le (g : Graph) (n : NodeId) : g.capacity n ≤ (g.node n).preds.length + g.size := by
  refine Nat.add_le_add_left ?_ _
  split
  · rw [← length_nodeIds]
    exact List.length_filter_le _ _
  · exact Nat.zero_le _

/-- An edge that is turned to `n` is one stray less. -/
theorem length_strays_lt (hs : g'.size = g.size) (hk : g.Has k)
    (hedge : (g.node k).pointsTo.isEdge = true) (hother : (g.node k).pointsTo ≠ .edge n)
    (hp : ∀ m, (g'.node m).pointsTo = if m = k then .edge n else (g.node m).pointsTo) :
    (g'.strays n).length < (g.strays n).length := by
  have hnodup : (k :: g'.strays n).Nodup := by
    refine List.nodup_cons.mpr ⟨fun h => ?_, g'.nodeIds_nodup.filter _⟩
    have := (List.mem_filter.mp h).2
    simp [hp] at this
  refine (List.subperm_of_subset hnodup fun m hm => ?_).length_le
  rcases List.mem_cons.mp hm with rfl | hm
  · exact List.mem_filter.mpr ⟨mem_nodeIds.mpr hk, by simp [hedge, hother]⟩
  · obtain ⟨hhas, hstray⟩ := List.mem_filter.mp hm
    rw [hp] at hstray
    split at hstray
    · simp at hstray
    · rw [mem_nodeIds, Has, hs] at hhas
      exact List.mem_filter.mpr ⟨mem_nodeIds.mpr hhas, hstray⟩

theorem length_preds_erasePred (p : Pred) (x : Node) :
    (x.erasePred p).preds.length ≤ x.preds.length := by
  rw [(x.erasePred_perm p).length_eq]
  exact List.length_erase_le

/-- A node whose edge leads elsewhere is given an edge to `x`, which represents `n`. -/
theorem turnEdge_capacity {old : NodeId} (hx : g.representative n = x)
    (hold : (g.node k).pointsTo = .edge old) (hother : old ≠ x)
    (hok : (g.modify old (·.erasePred ⟨.pointsTo, k⟩)).setEdge k x = .ok g') :
    g'.capacity n ≤ g.capacity n := by
  have hk : g.Has k := has_of_node_ne fun e => by
    rw [e] at hold
    cases hold
  have herase : Rewires g (g.modify old (·.erasePred ⟨.pointsTo, k⟩)) :=
    .modify g old fun x => x.erasePred_bare _
  have hentries : ((g.modify old (·.erasePred ⟨.pointsTo, k⟩)).node n).preds.length ≤
      (g.node n).preds.length := by
    rw [node_modify]
    split
    · exact length_preds_erasePred _ _
    · exact Nat.le_refl _
  have hpoints : ∀ m, ((g.modify old (·.erasePred ⟨.pointsTo, k⟩)).node m).pointsTo =
    (g.node m).pointsTo :=
    node_modify_field Node.pointsTo (fun x => x.erasePred_pointsTo _) g old
  obtain ⟨-, hcontent, rfl⟩ := setEdge_ok.mp hok
  generalize g.modify old (·.erasePred ⟨.pointsTo, k⟩) = g₁ at herase hentries hpoints hcontent
  have hlink := assigns_linkEdge (c := x) (herase.has.mpr hk)
  have hrep : (g₁.linkEdge k x).representative n = x :=
    (hlink.representative n).trans ((herase.representative n).trans hx)
  have hp : ∀ m, ((g₁.linkEdge k x).node m).pointsTo =
      if m = k then .edge x else (g.node m).pointsTo := fun m => by
    rw [hlink.pointsTo, hpoints]
  have hpreds := preds_linkEdge (n := k) (has_of_isContent hcontent) n
  rw [capacity, capacity, hrep, hx, hpreds]
  by_cases hn : x = n
  · subst hn
    -- The entry that is added here was a stray before.
    have hlt := length_strays_lt (hlink.size.trans herase.size) hk (by rw [hold]; rfl)
      (by rw [hold]; exact fun e => hother (Pointee.edge.inj e)) hp
    rw [if_pos rfl, if_pos rfl, if_pos rfl, List.length_append, List.length_singleton]
    omega
  · rw [if_neg (Ne.symm hn), if_neg hn, if_neg hn]
    exact hentries

theorem repointNode_capacity (hx : g.representative n = x) (hother : g.target? k ≠ some x)
    (hok : repointNode x g k = .ok g') :
    g'.capacity n ≤ g.capacity n := by
  unfold repointNode at hok
  split at hok
  · rename_i old hold
    exact turnEdge_capacity hx hold (fun e => hother (e ▸ target?_of_edge hold)) hok
  · rename_i old hold
    cases hok
    have hr : Rewires g (g.modify k fun y => { y with pointsTo := .inferred x }) :=
      .modify g k
    refine Nat.add_le_add ?_ ?_
    · rw [node_modify_field Node.preds]
    · rw [hr.representative n]
      split
      · -- what is inferred is no edge, before and after
        rw [strays, strays, ← List.countP_eq_length_filter, ← List.countP_eq_length_filter,
          nodeIds, hr.size]
        refine List.countP_mono_left fun m _ hm => ?_
        rw [node_modify] at hm
        split at hm
        · cases hm
        · exact hm
      · exact Nat.le_refl _
  · cases hok
    exact Nat.le_refl _

/-- A web that is given what represents `n`. No node of the web is turned twice. -/
theorem repoint_capacity (hok : g.repoint m n = .ok g') : g'.capacity n ≤ g.capacity n := by
  rcases repoint_cases rfl hok with ⟨-, rfl⟩ | ⟨done, -, hturns, -⟩
  · exact Nat.le_refl _
  · suffices hall : Rewires g g' ∧ g'.capacity n ≤ g.capacity n from hall.2
    clear hok
    induction hturns with
    | start => exact ⟨.refl g, Nat.le_refl _⟩
    | turn _ _ _ hstale hstep ih =>
      obtain ⟨t, ht, hne⟩ := isStale_iff.mp hstale
      exact ⟨ih.1.trans (repointNode_assigns hstep).toRewires, Nat.le_trans
        (repointNode_capacity (ih.1.representative n)
        (fun e => hne (Option.some.inj (ht.symm.trans e))) hstep) ih.2⟩

theorem alignPred_capacity {p : Pred} (hok : alignPred n g p = .ok g') :
    g'.capacity n ≤ g.capacity n := by
  unfold alignPred at hok
  split at hok
  · refine foldlM_of_ok (P := fun _ k => k.capacity n ≤ g.capacity n) ?_ (Nat.le_refl _) hok
    intro _ m _ k k' _ hle hstep
    split at hstep
    · exact Nat.le_trans (repoint_capacity hstep) hle
    · cases hstep
      exact hle
  · cases hok
    exact Nat.le_refl _

/-- **The loop over the entries ends by itself**, after at most as many rounds as entries can come
to be. -/
theorem aligning_alignPreds (bound i : Nat) (g : Graph) (hb : g.capacity n ≤ i + bound) :
    Aligning n i g (alignPreds n bound i g) := by
  induction bound generalizing i g with
  | zero =>
    refine .done (List.getElem?_eq_none ?_)
    unfold capacity at hb
    omega
  | succ bound ih =>
    unfold alignPreds
    cases hp : (g.node n).preds[i]? with
    | none => exact .done hp
    | some p =>
      dsimp only
      cases hstep : alignPred n g p with
      | error e => exact .fault hp hstep
      | ok g' =>
        refine .step hp hstep (ih (i + 1) g' ?_)
        have := alignPred_capacity hstep
        omega

/-! ### Webs -/

section Webs

variable {off : NodeId → Prop}

/-- **Looking through a web ends by itself**: with more rounds the walk comes to the same nodes. -/
theorem survey_extra (h : Linked g off) (hoff : ¬ off n) (hasn : g.Has n) (hn : g.target? n = none)
    (extra : Nat) :
    Walk.run g.neighbours g.surveyVerdict (g.size + extra) 0 (g.surveyStart n) = g.survey n := by
  obtain ⟨hfound, -⟩ := survey_spec h hoff hasn hn
  refine Walk.run_extra (U := g.nodeIds) g.surveyVerdict_ne_halt extra g.size 0 _
    (surveyStart_spec hn).1 (Nat.le_of_eq g.length_nodeIds) fun m hm => ?_
  exact mem_nodeIds.mpr (((hfound m).mp hm).has h hoff hasn)

/-- **Passing on a content ends by itself**: with more rounds it comes to the same nodes. -/
theorem closure_bareDeferrers_extra (h : Linked g off) (hoff : ¬ off n) (hasn : g.Has n)
    (extra : Nat) : closure g.bareDeferrers (g.size + extra) n =
    closure g.bareDeferrers g.size n := by
  refine closure_extra (U := g.nodeIds) (fun m hm => ?_) (Nat.le_of_eq g.length_nodeIds) extra
  -- what defers to a node of the table is a node of the table
  suffices hin : ¬ off m ∧ g.Has m from mem_nodeIds.mpr hin.2
  refine closure_induct (P := fun m => ¬ off m ∧ g.Has m) ⟨hoff, hasn⟩ ?_ m hm
  rintro b c ⟨hb, -⟩ hc
  obtain ⟨hcoff, hdefers, -⟩ := (mem_bareDeferrers h hb).mp hc
  exact ⟨hcoff, hdefers.has⟩

end Webs

/-! ### Merges -/

/-- **A merge ends by itself.** -/
theorem absorbing_absorb (g : Graph) (src : NodeId) : Absorbing g src (g.absorb src) := by
  rw [absorb_eq]
  cases hp : g.prepare src with
  | error e => exact .refused hp
  | ok r =>
    obtain ⟨dst, k⟩ := r
    have haligned := Absorbing.aligned hp
      (aligning_alignPreds ((k.node dst).preds.length + k.size) 0 k (by
      rw [Nat.zero_add]
      exact capacity_le k dst))
    show Absorbing g src (alignPreds dst ((k.node dst).preds.length + k.size) 0 k >>= fun k => pure
      (k.bury src dst))
    cases hr : alignPreds dst ((k.node dst).preds.length + k.size) 0 k with
    | error e =>
      rw [hr] at haligned
      exact haligned
    | ok k' =>
      rw [hr] at haligned
      exact haligned

/-- **All merges end by themselves**, and no node is merged twice. -/
theorem Grounded.settling (bound : Nat) {g : Graph} (h : Grounded g g.pending)
    (hb : g.liveCount ≤ bound) : ∃ log, Settling g log (Graph.settleUpTo bound g) ∧
    log.Nodup ∧ ∀ n ∈ log, g.Live n := by
  induction bound generalizing g with
  | zero =>
    exact ⟨[], .done (h.pending_eq_nil (Nat.le_zero.mp hb)), .nil, nofun⟩
  | succ bound ih =>
    unfold Graph.settleUpTo
    cases hp : g.pending with
    | nil => exact ⟨[], .done hp, .nil, nofun⟩
    | cons n rest =>
      have hlive : g.Live n := by
        have hmem : n ∈ g.pending := hp ▸ List.mem_cons_self
        exact ⟨(h.rooted_of_waits hmem).has, ((h.waits n).mp hmem).1⟩
      have hmerge := absorbing_absorb { g with pending := rest } n
      dsimp only
      cases hok : Graph.absorb { g with pending := rest } n with
      | error e =>
        rw [hok] at hmerge
        exact ⟨[n], .fault hp hmerge, List.nodup_singleton n,
          fun m hm => List.mem_singleton.mp hm ▸ hlive⟩
      | ok g' =>
        rw [hok] at hmerge
        obtain ⟨hd, hb'⟩ := h.settle_step (R := fun _ => False) hp hok
        have hlt := hb'.liveCount_lt
        obtain ⟨log, hlog, hnodup, hbefore⟩ := ih hd.grounded (by omega)
        refine ⟨n :: log, .merge hp hmerge hlog, List.nodup_cons.mpr ⟨fun hn => ?_, hnodup⟩,
          fun m hm => ?_⟩
        -- Later merges are of live nodes, and `n` is none any more.
        · exact (hb'.live_iff.mp (hbefore n hn)).1 rfl
        · rcases List.mem_cons.mp hm with rfl | hm
          · exact hlive
          · exact (hb'.live_iff.mp (hbefore m hm)).2

end Escape.Graph
