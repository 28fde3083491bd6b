import Escape.Proofs.Checked
import Escape.Proofs.Graph.Table
import Mathlib.Data.List.Nodup

/-!
# Edges and their entries

Every edge is listed at its target, and only edges are listed. While a node is being merged it is
cut off from the rest, so the statement leaves out a set of nodes.

- `Linked.assign`: entries and edges still agree after such a change.
- `Linked.addDefer`: the same for a new defer edge.
-/

namespace Escape

/-! ### Lists of entries -/

/-- Taking the last entry to the place of an erased one is erasing, up to the order. -/
theorem Node.erasePred_perm (p : Pred) (x : Node) :
    (x.erasePred p).preds.Perm (x.preds.erase p) := by
  unfold erasePred
  by_cases hp : p ∈ x.preds
  · obtain ⟨l, r, hnp, hl, hr⟩ := List.exists_erase_eq hp
    have hidx : x.preds.findIdx? (· = p) = some l.length := by
      rw [hl, List.findIdx?_append, List.findIdx?_eq_none_iff.mpr]
      · simp [List.findIdx?_cons]
      · intro q hq
        simp only [decide_eq_false_iff_not]
        rintro rfl
        exact hnp hq
    rw [hr]
    rcases List.eq_nil_or_concat r with rfl | ⟨r', q, rfl⟩
    · have hlast : x.preds.getLast? = some p := by simp [hl]
      simp only [hidx, hlast]
      simp [hl]
    · have hlast : x.preds.getLast? = some q := by simp [hl, List.getLast?_cons]
      simp only [hidx, hlast]
      have : (x.preds.set l.length q).dropLast = l ++ q :: r' := by
        rw [hl, List.set_append_right _ _ (Nat.le_refl _)]
        simp only [Nat.sub_self, List.set_cons_zero]
        rw [show l ++ q :: (r'.concat q) = (l ++ q :: r') ++ [q] by simp, List.dropLast_concat]
      rw [this]
      refine List.Perm.append_left l ?_
      rw [List.concat_eq_append]
      exact (List.perm_append_singleton q r').symm
  · have hidx : x.preds.findIdx? (· = p) = none := by
      rw [List.findIdx?_eq_none_iff]
      intro q hq
      simp only [decide_eq_false_iff_not]
      rintro rfl
      exact hp hq
    simp only [hidx]
    rw [List.erase_of_not_mem hp]

theorem Node.erasePred_bare (p : Pred) (x : Node) : (x.erasePred p).bare = x.bare := by
  unfold erasePred
  split <;> rfl

theorem Node.erasePred_pointsTo (p : Pred) (x : Node) : (x.erasePred p).pointsTo = x.pointsTo := by
  unfold erasePred
  split <;> rfl

theorem Node.erasePred_defersTo (p : Pred) (x : Node) : (x.erasePred p).defersTo = x.defersTo := by
  unfold erasePred
  split <;> rfl

theorem Node.erasePred_usePoints (p : Pred) (x : Node) :
    (x.erasePred p).usePoints = x.usePoints := by
  unfold erasePred
  split <;> rfl

theorem Node.mem_erasePred {p q : Pred} {x : Node} (h : x.preds.Nodup) :
    q ∈ (x.erasePred p).preds ↔ q ∈ x.preds ∧ q ≠ p := by
  rw [(x.erasePred_perm p).mem_iff, h.mem_erase_iff, and_comm]

theorem Node.erasePred_nodup {p : Pred} {x : Node} (h : x.preds.Nodup) :
    (x.erasePred p).preds.Nodup :=
  (x.erasePred_perm p).nodup_iff.mpr (h.erase p)

/-- Points to `c` in the same way, if anywhere. -/
def Pointee.retarget (c : NodeId) : Pointee → Pointee
  | none => none
  | inferred _ => inferred c
  | edge _ => edge c

theorem Pointee.isEdge_retarget (c : NodeId) (p : Pointee) : (p.retarget c).isEdge = p.isEdge := by
  cases p <;> rfl

namespace Graph

/-- Outside of the nodes that are `off`, every edge is listed at its target, only edges are listed,
and none of them has to do with a node that is off. -/
structure Linked (g : Graph) (off : NodeId → Prop) : Prop where
  edge : ∀ n c, ¬ off n → (g.node n).pointsTo = .edge c →
    ¬ off c ∧ ⟨.pointsTo, n⟩ ∈ (g.node c).preds
  of_edge : ∀ n c, ¬ off c → ⟨.pointsTo, n⟩ ∈ (g.node c).preds →
    ¬ off n ∧ (g.node n).pointsTo = .edge c
  defer : ∀ n m, ¬ off n → g.Defers n m → ¬ off m ∧ ⟨.defer, n⟩ ∈ (g.node m).preds
  of_defer : ∀ n m, ¬ off m → ⟨.defer, n⟩ ∈ (g.node m).preds → ¬ off n ∧ g.Defers n m
  preds_nodup : ∀ n, ¬ off n → (g.node n).preds.Nodup
  defers_nodup : ∀ n, ¬ off n → (g.node n).defersTo.Nodup
  irrefl : ∀ n, ¬ off n → ¬ g.Defers n n

variable {g g' : Graph} {n m c : NodeId} {off : NodeId → Prop}

section

variable (h : Linked g off)
include h

/-- The neighbours of a node in its web are what is joined to it and not off. -/
theorem Linked.mem_neighbours (hn : ¬ off n) : m ∈ g.neighbours n ↔ ¬ off m ∧ g.Joined n m := by
  rw [neighbours, List.mem_append, mem_deferPreds]
  constructor
  · rintro (hm | hm)
    · exact (h.of_defer m n hn hm).imp_right .inr
    · exact ⟨(h.defer n m hn hm).1, .inl hm⟩
  · rintro ⟨hoff, hm | hm⟩
    · exact .inr hm
    · exact .inl (h.defer m n hoff hm).2

theorem Linked.has_edge (hn : ¬ off n) (he : (g.node n).pointsTo = .edge c) : g.Has c :=
  has_of_pred (h.edge n c hn he).2

theorem Linked.has_defer (hn : ¬ off n) (hd : g.Defers n m) : g.Has m :=
  has_of_pred (h.defer n m hn hd).2

theorem Linked.has_neighbour (hn : ¬ off n) (hm : m ∈ g.neighbours n) : g.Has m := by
  obtain ⟨-, hj | hj⟩ := (h.mem_neighbours hn).mp hm
  · exact h.has_defer hn hj
  · exact hj.has

omit h in
/-- Cutting off no node at all. -/
abbrev nobody : NodeId → Prop := fun _ => False

/-! ### One node gets another pointee -/

omit h in
/-- The graph `g'` differs from `g` in what `n` points to, and perhaps in use points. -/
structure Assigns (g g' : Graph) (n : NodeId) (p : Pointee) : Prop extends Rewires g g' where
  pointsTo : ∀ m, (g'.node m).pointsTo = if m = n then p else (g.node m).pointsTo
  defersTo : ∀ m, (g'.node m).defersTo = (g.node m).defersTo

/-- Entries and edges agree after a node got another pointee, if its old entry is gone and it has a
new entry where it now has an edge. -/
theorem Linked.assign {p : Pointee} (ha : Assigns g g' n p) (hn : ¬ off n)
    (hp : ∀ c, p = .edge c → ¬ off c) (hpreds : ∀ m q, ¬ off m → (q ∈ (g'.node m).preds ↔
      q ∈ (g.node m).preds ∧ q ≠ ⟨.pointsTo, n⟩ ∨ q = ⟨.pointsTo, n⟩ ∧ p = .edge m))
    (hnodup : ∀ m, ¬ off m → (g'.node m).preds.Nodup) : Linked g' off where
  edge m c hm hc := by
    rw [ha.pointsTo] at hc
    split at hc
    · rename_i hmn
      exact ⟨hp c hc, (hpreds c _ (hp c hc)).mpr (.inr ⟨by rw [hmn], hc⟩)⟩
    · rename_i hmn
      obtain ⟨hoff, hin⟩ := h.edge m c hm hc
      exact ⟨hoff, (hpreds c _ hoff).mpr (.inl ⟨hin, fun e => hmn (congrArg Pred.node e)⟩)⟩
  of_edge m c hc hin := by
    rw [ha.pointsTo]
    rcases (hpreds c _ hc).mp hin with ⟨hin, hne⟩ | ⟨he, hpc⟩
    · obtain ⟨hoff, hmc⟩ := h.of_edge m c hc hin
      exact ⟨hoff, by rw [if_neg fun e => hne (by rw [e]), hmc]⟩
    · have hmn : m = n := congrArg Pred.node he
      exact ⟨hmn ▸ hn, by rw [if_pos hmn, hpc]⟩
  defer m d hm hd := by
    rw [Defers, ha.defersTo] at hd
    obtain ⟨hoff, hin⟩ := h.defer m d hm hd
    exact ⟨hoff, (hpreds d _ hoff).mpr (.inl ⟨hin, by simp⟩)⟩
  of_defer m d hd hin := by
    rw [Defers, ha.defersTo]
    rcases (hpreds d _ hd).mp hin with ⟨hin, -⟩ | ⟨he, -⟩
    · exact h.of_defer m d hd hin
    · cases he
  preds_nodup := hnodup
  defers_nodup m hm := by rw [ha.defersTo]; exact h.defers_nodup m hm
  irrefl m hm hd := by
    rw [Defers, ha.defersTo] at hd
    exact h.irrefl m hm hd

/-! ### The changes that the operations make -/

omit h in
theorem Rewires.copyUsePoints (g : Graph) (n m : NodeId) : Rewires g (g.copyUsePoints n m) := by
  unfold Graph.copyUsePoints
  split
  · exact .refl g
  · exact .modify g m

omit h in
/-- Copying use points touches no edge. -/
theorem copyUsePoints_field {α : Type} (p : Node → α)
    (hp : ∀ x s, p (x.addUsePoints s) = p x := by intros; rfl) (g : Graph) (n m k : NodeId) :
    p ((g.copyUsePoints n m).node k) = p (g.node k) := by
  unfold copyUsePoints
  split
  · rfl
  · exact node_modify_field p (fun x => hp x _) g m k

/-- Entries and edges do not depend on anything else. -/
theorem Linked.congr (hp : ∀ n, (g'.node n).pointsTo = (g.node n).pointsTo)
    (hd : ∀ n, (g'.node n).defersTo = (g.node n).defersTo)
    (hpr : ∀ n, (g'.node n).preds = (g.node n).preds) : Linked g' off where
  edge n c := by rw [hp, hpr]; exact h.edge n c
  of_edge n c := by rw [hp, hpr]; exact h.of_edge n c
  defer n m := by rw [Defers, hd, hpr]; exact h.defer n m
  of_defer n m := by rw [Defers, hd, hpr]; exact h.of_defer n m
  preds_nodup n := by rw [hpr]; exact h.preds_nodup n
  defers_nodup n := by rw [hd]; exact h.defers_nodup n
  irrefl n := by rw [Defers, hd]; exact h.irrefl n

theorem Linked.copyUsePoints (n m : NodeId) : Linked (g.copyUsePoints n m) off :=
  h.congr (copyUsePoints_field _ (fun _ _ => rfl) g n m)
    (copyUsePoints_field _ (fun _ _ => rfl) g n m) (copyUsePoints_field _ (fun _ _ => rfl) g n m)

omit h in
/-- Lets `n` point to `c` by an edge, and lists the edge at `c`. -/
def linkEdge (g : Graph) (n c : NodeId) : Graph :=
  (g.modify n fun x => { x with pointsTo := .edge c }).modify c (·.addPred ⟨.pointsTo, n⟩)

omit h in
theorem setEdge_ok : g.setEdge n c = .ok g' ↔
    (g.node c).mergeTo = none ∧ (g.node c).isContent ∧ g' = g.linkEdge n c := by
  unfold setEdge linkEdge
  cases hm : (g.node c).mergeTo <;> cases hc : (g.node c).isContent <;> simp [eq_comm]

omit h in
theorem assigns_linkEdge (hn : g.Has n) : Assigns g (g.linkEdge n c) n (.edge c) where
  toRewires := (Rewires.modify g n).trans (Rewires.modify _ c)
  pointsTo m := by
    rw [linkEdge, node_modify_field Node.pointsTo, node_modify_of_has hn]
    split <;> rfl
  defersTo m := by
    rw [linkEdge, node_modify_field Node.defersTo, node_modify_field Node.defersTo]

omit h in
theorem preds_linkEdge (hc : g.Has c) (m : NodeId) : ((g.linkEdge n c).node m).preds =
    if m = c then (g.node m).preds ++ [⟨.pointsTo, n⟩] else (g.node m).preds := by
  rw [linkEdge, node_modify_of_has ((has_modify _).mpr hc)]
  split
  · exact congrArg (· ++ _) (node_modify_field Node.preds ..)
  · exact node_modify_field Node.preds ..

/-- A node without an edge gets one. -/
theorem Linked.linkEdge (hn : ¬ off n) (hc : ¬ off c) (hasn : g.Has n)
    (hasc : g.Has c) (hno : ¬ g.HasEdge n) : Linked (g.linkEdge n c) off := by
  have hnot : ∀ m, ¬ off m → (⟨.pointsTo, n⟩ : Pred) ∉ (g.node m).preds := fun m hm hin =>
    hno (hasEdge_iff.mpr ⟨m, (h.of_edge n m hm hin).2⟩)
  refine h.assign (assigns_linkEdge hasn) hn (fun d hd => by cases hd; exact hc) ?_ ?_
  · intro m q hm
    rw [preds_linkEdge hasc]
    by_cases hmc : m = c
    · subst hmc
      rw [if_pos rfl, List.mem_append, List.mem_singleton]
      refine or_congr ⟨fun hq => ⟨hq, fun e => hnot m hm (e ▸ hq)⟩, And.left⟩ (by simp)
    · rw [if_neg hmc]
      refine ⟨fun hq => .inl ⟨hq, fun e => hnot m hm (e ▸ hq)⟩, ?_⟩
      rintro (hq | ⟨-, hq⟩)
      · exact hq.1
      · cases hq
        exact absurd rfl hmc
  · intro m hm
    rw [preds_linkEdge hasc]
    split
    · rename_i hmc
      exact (h.preds_nodup m hm).append (List.nodup_singleton _) (by simpa using hnot m hm)
    · exact h.preds_nodup m hm

omit h in
/-- A node without an edge comes to point somewhere by inference. -/
theorem assigns_infer (hn : g.Has n) : Assigns g (infer c g n) n (.inferred c) where
  toRewires := (Rewires.modify g n).trans (Rewires.copyUsePoints _ n c)
  pointsTo m := by
    rw [infer, copyUsePoints_field Node.pointsTo, node_modify_of_has hn]
    split <;> rfl
  defersTo m := by
    rw [infer, copyUsePoints_field Node.defersTo, node_modify_field Node.defersTo]

omit h in
theorem preds_infer (m : NodeId) : ((infer c g n).node m).preds = (g.node m).preds := by
  rw [infer, copyUsePoints_field Node.preds, node_modify_field Node.preds]

/-- Pointees that are not edges are not listed anywhere. -/
theorem Linked.assign_inferred (ha : Assigns g g' n (.inferred c))
    (hpreds : ∀ m, (g'.node m).preds = (g.node m).preds) (hn : ¬ off n) (hno : ¬ g.HasEdge n) :
    Linked g' off := by
  refine h.assign ha hn (fun d hd => by cases hd) ?_ fun m hm => ?_
  · intro m q hm
    rw [hpreds]
    refine ⟨fun hq => .inl ⟨hq, ?_⟩, ?_⟩
    · rintro rfl
      exact hno (hasEdge_iff.mpr ⟨m, (h.of_edge n m hm hq).2⟩)
    · rintro (hq | ⟨-, hq⟩)
      · exact hq.1
      · cases hq
  · rw [hpreds]
    exact h.preds_nodup m hm

theorem Linked.infer (hn : ¬ off n) (hasn : g.Has n) (hno : ¬ g.HasEdge n) :
    Linked (infer c g n) off :=
  h.assign_inferred (assigns_infer hasn) preds_infer hn hno

/-! ### A node keeps its way of pointing -/

omit h in
/-- Whatever the entries are, pointing a node elsewhere changes what this node points to. -/
theorem repointNode_assigns (hok : repointNode c g n = .ok g') :
    Assigns g g' n ((g.node n).pointsTo.retarget c) := by
  unfold repointNode at hok
  split at hok
  · rename_i old hold
    obtain ⟨-, -, rfl⟩ := setEdge_ok.mp hok
    have hr : Rewires g (g.modify old (·.erasePred ⟨.pointsTo, n⟩)) :=
      .modify g old fun x => x.erasePred_bare _
    have hl := assigns_linkEdge (c := c) (hr.has.mpr (has_of_target? (target?_of_edge hold)))
    rw [hold]
    refine ⟨hr.trans hl.toRewires, fun m => ?_, fun m => ?_⟩
    · rw [hl.pointsTo, node_modify_field Node.pointsTo fun x => x.erasePred_pointsTo _]
      rfl
    · rw [hl.defersTo, node_modify_field Node.defersTo fun x => x.erasePred_defersTo _]
  · rename_i old hold
    cases hok
    rw [hold]
    refine ⟨.modify g n, fun m => ?_, node_modify_field Node.defersTo (fun _ => by rfl) g n⟩
    rw [node_modify_of_has (has_of_target? (target?_of_inferred hold))]
    split <;> rfl
  · rename_i hnone
    cases hok
    rw [hnone]
    refine ⟨.refl g, fun m => ?_, fun _ => rfl⟩
    split
    · rename_i hm
      rw [hm, hnone]
      rfl
    · rfl

/-- Pointing a node elsewhere moves its entry. -/
theorem repointNode_spec (hn : ¬ off n) (hc : ¬ off c) (hok : repointNode c g n = .ok g') :
    Assigns g g' n ((g.node n).pointsTo.retarget c) ∧ Linked g' off := by
  have ha := repointNode_assigns hok
  refine ⟨ha, ?_⟩
  unfold repointNode at hok
  split at hok
  · rename_i old hold
    rw [hold] at ha
    obtain ⟨-, hcc, rfl⟩ := setEdge_ok.mp hok
    set g₁ := g.modify old (·.erasePred ⟨.pointsTo, n⟩) with hg₁
    have hasc : g₁.Has c := has_of_isContent hcc
    -- the entry at the old content is gone, so no list has an entry of `n` left
    have hpreds₁ : ∀ m, ¬ off m → (g₁.node m).preds.Nodup ∧
        ∀ q, q ∈ (g₁.node m).preds ↔ q ∈ (g.node m).preds ∧ q ≠ ⟨.pointsTo, n⟩ := by
      intro m hm
      rw [hg₁, node_modify_of_has (h.has_edge hn hold)]
      split
      · exact ⟨Node.erasePred_nodup (h.preds_nodup m hm),
          fun q => Node.mem_erasePred (h.preds_nodup m hm)⟩
      · rename_i hmo
        refine ⟨h.preds_nodup m hm, fun q => ⟨fun hq => ⟨hq, ?_⟩, And.left⟩⟩
        rintro rfl
        have := (h.of_edge n m hm hq).2.symm.trans hold
        cases this
        exact hmo rfl
    refine h.assign ha hn (fun d hd => by cases hd; exact hc) ?_ ?_
    · intro m q hm
      rw [preds_linkEdge hasc, ← (hpreds₁ m hm).2 q]
      by_cases hmc : m = c
      · simp [hmc, Pointee.retarget]
      · simp [hmc, Ne.symm hmc, Pointee.retarget]
    · intro m hm
      rw [preds_linkEdge hasc]
      split
      · refine (hpreds₁ m hm).1.append (List.nodup_singleton _) ?_
        simp [(hpreds₁ m hm).2]
      · exact (hpreds₁ m hm).1
  · rename_i old hold
    cases hok
    rw [hold] at ha
    refine h.assign_inferred ha (node_modify_field Node.preds (fun _ => by rfl) g n) hn ?_
    simp [HasEdge, hold, Pointee.isEdge]
  · cases hok
    exact h

end

/-- Pointing a node elsewhere does not fail if the content is one and has not been merged. -/
theorem repointNode_total (hm : (g.node c).mergeTo = none) (hc : (g.node c).isContent) :
    ∃ g', repointNode c g n = .ok g' := by
  unfold repointNode
  split
  · rename_i old _
    have hr : Rewires g (g.modify old (·.erasePred ⟨.pointsTo, n⟩)) :=
      .modify g old fun x => x.erasePred_bare _
    exact ⟨_, setEdge_ok.mpr ⟨(hr.mergeTo c).trans hm, (hr.isContent c).trans hc, rfl⟩⟩
  · exact ⟨_, rfl⟩
  · exact ⟨_, rfl⟩

/-! ### A new defer edge -/

/-- Lets `n` defer to `m`, and lists the edge at `m`. -/
def linkDefer (g : Graph) (n m : NodeId) : Graph :=
  (g.modify n fun x => { x with defersTo := x.defersTo ++ [m] }).modify m (·.addPred ⟨.defer, n⟩)

/-- A defer edge is added where it is new. -/
theorem addDefer_cases {b : Bool} (h : g.addDefer n m = .ok (g', b)) :
    (g.node m).merged = false ∧
      (g' = g ∧ b = false ∧ (n = m ∨ g.Defers n m) ∨
        g' = g.linkDefer n m ∧ b = true ∧ n ≠ m ∧ ¬ g.Defers n m) := by
  unfold addDefer at h
  split at h
  · cases h
  · rename_i hm
    refine ⟨by simpa using hm, ?_⟩
    split at h
    · rename_i hcan
      cases h
      simp only [canDefer, Bool.and_eq_true, decide_eq_true_eq] at hcan
      exact .inr ⟨rfl, rfl, hcan.1, hcan.2⟩
    · rename_i hcan
      cases h
      simp only [canDefer, Bool.and_eq_true, decide_eq_true_eq, not_and_or, not_not] at hcan
      exact .inl ⟨rfl, rfl, hcan⟩

theorem addDefer_total (hm : (g.node m).merged = false) :
    ∃ g' b, g.addDefer n m = .ok (g', b) := by
  unfold addDefer
  rw [if_neg (by simp [hm])]
  split
  · exact ⟨_, _, rfl⟩
  · exact ⟨_, _, rfl⟩

/-- The graph `g'` differs from `g` in what `n` defers to: `m` comes last. -/
structure AddsDefer (g g' : Graph) (n m : NodeId) : Prop extends Rewires g g' where
  pointsTo : ∀ k, (g'.node k).pointsTo = (g.node k).pointsTo
  defersTo : ∀ k, (g'.node k).defersTo =
    if k = n then (g.node k).defersTo ++ [m] else (g.node k).defersTo
  usePoints : ∀ k, (g'.node k).usePoints = (g.node k).usePoints

theorem addsDefer_linkDefer (hn : g.Has n) : AddsDefer g (g.linkDefer n m) n m where
  toRewires := (Rewires.modify g n).trans (Rewires.modify _ m)
  pointsTo k := by
    rw [linkDefer, node_modify_field Node.pointsTo, node_modify_field Node.pointsTo]
  defersTo k := by
    rw [linkDefer, node_modify_field Node.defersTo, node_modify_of_has hn]
    split <;> rfl
  usePoints k := by
    rw [linkDefer, node_modify_field Node.usePoints, node_modify_field Node.usePoints]

theorem preds_linkDefer (hm : g.Has m) (k : NodeId) : ((g.linkDefer n m).node k).preds =
    if k = m then (g.node k).preds ++ [⟨.defer, n⟩] else (g.node k).preds := by
  rw [linkDefer, node_modify_of_has ((has_modify _).mpr hm)]
  split
  · exact congrArg (· ++ _) (node_modify_field Node.preds ..)
  · exact node_modify_field Node.preds ..

theorem Linked.linkDefer (h : Linked g off) (hn : ¬ off n) (hm : ¬ off m) (hasn : g.Has n)
    (hasm : g.Has m) (hne : n ≠ m) (hnew : ¬ g.Defers n m) : Linked (g.linkDefer n m) off := by
  have ha := addsDefer_linkDefer (m := m) hasn
  have hmem : ∀ k q, q ∈ ((g.linkDefer n m).node k).preds ↔
      q ∈ (g.node k).preds ∨ k = m ∧ q = ⟨.defer, n⟩ := by
    intro k q
    rw [preds_linkDefer hasm]
    split <;> simp_all
  have hdef : ∀ a b, (g.linkDefer n m).Defers a b ↔ g.Defers a b ∨ a = n ∧ b = m := by
    intro a b
    rw [Defers, ha.defersTo]
    split <;> simp_all [Defers]
  refine ⟨?_, ?_, ?_, ?_, ?_, ?_, ?_⟩
  · intro a d hoff hd
    rw [ha.pointsTo] at hd
    obtain ⟨hoffd, hin⟩ := h.edge a d hoff hd
    exact ⟨hoffd, (hmem d _).mpr (.inl hin)⟩
  · intro a d hoff hin
    rw [ha.pointsTo]
    rcases (hmem d _).mp hin with hin | ⟨-, he⟩
    · exact h.of_edge a d hoff hin
    · cases he
  · intro a b hoff hd
    rcases (hdef a b).mp hd with hd | ⟨rfl, rfl⟩
    · obtain ⟨hoffb, hin⟩ := h.defer a b hoff hd
      exact ⟨hoffb, (hmem b _).mpr (.inl hin)⟩
    · exact ⟨hm, (hmem b _).mpr (.inr ⟨rfl, rfl⟩)⟩
  · intro a b hoff hin
    rcases (hmem b _).mp hin with hin | ⟨rfl, he⟩
    · exact (h.of_defer a b hoff hin).imp_right fun hd => (hdef a b).mpr (.inl hd)
    · cases he
      exact ⟨hn, (hdef n b).mpr (.inr ⟨rfl, rfl⟩)⟩
  · intro k hk
    rw [preds_linkDefer hasm]
    split
    · rename_i hkm
      refine (h.preds_nodup k hk).append (List.nodup_singleton _) ?_
      rw [List.disjoint_singleton, hkm]
      exact fun hin => hnew (h.of_defer n m hm hin).2
    · exact h.preds_nodup k hk
  · intro k hk
    rw [ha.defersTo]
    split
    · rename_i hkn
      refine (h.defers_nodup k hk).append (List.nodup_singleton _) ?_
      rw [List.disjoint_singleton, hkn]
      exact hnew
    · exact h.defers_nodup k hk
  · intro k hk hd
    rcases (hdef k k).mp hd with hd | ⟨rfl, rfl⟩
    · exact h.irrefl k hk hd
    · exact hne rfl

end Graph

end Escape
