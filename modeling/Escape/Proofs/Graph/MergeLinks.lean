import Escape.Proofs.Graph.Table
import Mathlib.Data.List.Perm.Subperm

/-!
# Merge links

Merge links form a forest: they lead from every node to one that has none. The links of a chain
start at different nodes of the table, so the bound in `Graph.representative` is never reached, and
`Graph.representative` is the end of the chain.

- `Forest.representative_link`, `Forest.mergeTo_representative`: the two equations that determine
  `Graph.representative`.
- `links_schedule`: scheduling a merge links one root to another, which keeps the forest.
-/

namespace Escape.Graph

variable {g g' : Graph} {n m r r' : NodeId} {k k' : Nat} {src dst : NodeId}

/-- The merge links lead from `n` to `r`, which has none, in `k` steps. -/
inductive Leads (g : Graph) : Nat → NodeId → NodeId → Prop
  | root {n : NodeId} (h : (g.node n).mergeTo = none) : Leads g 0 n n
  | link {k : Nat} {n m r : NodeId} (h : (g.node n).mergeTo = some m) (rest : Leads g k m r) :
    Leads g (k + 1) n r

namespace Leads

theorem congr (hm : ∀ n, (g'.node n).mergeTo = (g.node n).mergeTo) (h : g.Leads k n r) :
    g'.Leads k n r := by
  induction h with
  | root hn => exact .root ((hm _).trans hn)
  | link hn _ ih => exact .link ((hm _).trans hn) ih

variable (h : g.Leads k n r)
include h

theorem mergeTo_end : (g.node r).mergeTo = none := by
  induction h with
  | root h => exact h
  | link _ _ ih => exact ih

/-- A node starts one chain only. -/
theorem unique (h' : g.Leads k' n r') : k = k' ∧ r = r' := by
  induction h generalizing k' with
  | root h =>
    cases h' with
    | root _ => exact ⟨rfl, rfl⟩
    | link hm _ => rw [h] at hm; cases hm
  | link hm _ ih =>
    cases h' with
    | root hn => rw [hm] at hn; cases hn
    | link hm' rest' =>
      rw [hm] at hm'
      cases hm'
      obtain ⟨hk, hr⟩ := ih rest'
      exact ⟨congrArg (· + 1) hk, hr⟩

/-- The links of a chain start at different nodes: the node with `j` links to go appears once. -/
theorem starts : ∃ l : List NodeId, l.length = k ∧ l.Nodup ∧ (∀ x ∈ l, g.Has x) ∧
      ∀ x ∈ l, ∃ j ≤ k, g.Leads j x r := by
  induction h with
  | root _ => exact ⟨[], rfl, .nil, by simp, by simp⟩
  | @link k n m r hm rest ih =>
    obtain ⟨l, hl, hnd, hhas, hj⟩ := ih
    refine ⟨n :: l, by simp [hl], List.nodup_cons.mpr ⟨fun hn => ?_, hnd⟩, ?_, ?_⟩
    · obtain ⟨j, hjk, hlead⟩ := hj n hn
      have := (hlead.unique (.link hm rest)).1
      omega
    · refine List.forall_mem_cons.mpr ⟨has_of_node_ne fun he => ?_, hhas⟩
      rw [he] at hm
      cases hm
    · refine List.forall_mem_cons.mpr ⟨⟨k + 1, Nat.le_refl _, .link hm rest⟩, fun x hx => ?_⟩
      obtain ⟨j, hjk, hlead⟩ := hj x hx
      exact ⟨j, by omega, hlead⟩

theorem length_le_size : k ≤ g.size := by
  obtain ⟨l, hl, hnd, hhas, -⟩ := h.starts
  rw [← hl, ← length_nodeIds]
  exact (List.subperm_of_subset hnd fun x hx => mem_nodeIds.mpr (hhas x hx)).length_le

theorem followLinks_eq {bound : Nat} (hb : k ≤ bound) : g.followLinks bound n = r := by
  induction h generalizing bound with
  | root h =>
    cases bound with
    | zero => rfl
    | succ bound => simp [followLinks, h]
  | link h _ ih =>
    obtain ⟨bound, rfl⟩ : ∃ b, bound = b + 1 := ⟨bound - 1, by omega⟩
    simpa [followLinks, h] using ih (by omega)

theorem representative_eq : g.representative n = r :=
  h.followLinks_eq h.length_le_size

end Leads

/-- Merge links lead from every node to one that has none, and never out of the table. -/
structure Forest (g : Graph) : Prop where
  ends : ∀ n, ∃ k r, g.Leads k n r
  has : ∀ n m, (g.node n).mergeTo = some m → g.Has m

theorem representative_of_root (h : (g.node n).mergeTo = none) : g.representative n = n :=
  (Leads.root h).representative_eq

namespace Forest

variable (h : Forest g)
include h

theorem leads (n : NodeId) : ∃ k, g.Leads k n (g.representative n) := by
  obtain ⟨k, r, hr⟩ := h.ends n
  exact ⟨k, hr.representative_eq ▸ hr⟩

theorem mergeTo_representative (n : NodeId) : (g.node (g.representative n)).mergeTo = none := by
  obtain ⟨k, hk⟩ := h.leads n
  exact hk.mergeTo_end

theorem representative_link (hm : (g.node n).mergeTo = some m) :
    g.representative n = g.representative m := by
  obtain ⟨k, hk⟩ := h.leads m
  exact (Leads.link hm hk).representative_eq

theorem representative_representative (n : NodeId) :
    g.representative (g.representative n) = g.representative n :=
  representative_of_root (h.mergeTo_representative n)

theorem representative_eq_self_iff : g.representative n = n ↔ (g.node n).mergeTo = none := by
  refine ⟨fun e => ?_, representative_of_root⟩
  rw [← e]
  exact h.mergeTo_representative n

/-- What passes along merge links holds of the representative. -/
theorem representative_induct {P : NodeId → Prop}
    (step : ∀ n m, (g.node n).mergeTo = some m → P n → P m) (hn : P n) :
    P (g.representative n) := by
  obtain ⟨k, hk⟩ := h.leads n
  generalize g.representative n = r at hk
  induction hk with
  | root _ => exact hn
  | link hm _ ih => exact ih (step _ _ hm hn)

theorem has_representative (hn : g.Has n) : g.Has (g.representative n) :=
  h.representative_induct (P := g.Has) (fun n m hm _ => h.has n m hm) hn

/-- A graph with the same merge links is a forest too. -/
theorem congr (hs : g.size ≤ g'.size)
    (hm : ∀ n, (g'.node n).mergeTo = (g.node n).mergeTo) : Forest g' where
  ends n := by
    obtain ⟨k, r, hr⟩ := h.ends n
    exact ⟨k, r, hr.congr hm⟩
  has n m hnm := by
    rw [hm n] at hnm
    exact Nat.lt_of_lt_of_le (h.has n m hnm) hs

/-- Merge links alone decide which node represents another, whatever other nodes there are. -/
theorem representative_congr (hm : ∀ n, (g'.node n).mergeTo = (g.node n).mergeTo)
    (n : NodeId) : g'.representative n = g.representative n := by
  obtain ⟨k, hk⟩ := h.leads n
  exact (hk.congr hm).representative_eq

theorem rewires (hr : Rewires g g') : Forest g' := h.congr (Nat.le_of_eq hr.size.symm) hr.mergeTo

end Forest

/-! ### A new link -/

/-- The graph `g'` has one merge link more than `g`, from the root `s` to the root `d`. -/
structure Links (g g' : Graph) (s d : NodeId) : Prop where
  size : g'.size = g.size
  root_src : (g.node s).mergeTo = none
  root_dst : (g.node d).mergeTo = none
  ne : s ≠ d
  has : g.Has d
  mergeTo : ∀ n, (g'.node n).mergeTo = if n = s then some d else (g.node n).mergeTo

namespace Links

variable {s d : NodeId}

theorem leads (h : Links g g' s d) (hl : g.Leads k n r) :
    ∃ k', g'.Leads k' n (if r = s then d else r) := by
  induction hl with
  | @root n hn =>
    by_cases hns : n = s
    · rw [if_pos hns]
      refine ⟨1, .link ((h.mergeTo n).trans (if_pos hns)) (.root ?_)⟩
      rw [h.mergeTo, if_neg (Ne.symm h.ne), h.root_dst]
    · rw [if_neg hns]
      exact ⟨0, .root (by rw [h.mergeTo, if_neg hns, hn])⟩
  | @link k n m r hm _ ih =>
    obtain ⟨k', hk'⟩ := ih
    have hns : n ≠ s := by
      rintro rfl
      rw [h.root_src] at hm
      cases hm
    exact ⟨k' + 1, .link (by rw [h.mergeTo, if_neg hns, hm]) hk'⟩

theorem forest (h : Links g g' s d) (hf : Forest g) : Forest g' where
  ends n := by
    obtain ⟨k, r, hr⟩ := hf.ends n
    obtain ⟨k', hk'⟩ := h.leads hr
    exact ⟨k', _, hk'⟩
  has n m hnm := by
    rw [h.mergeTo] at hnm
    rw [Has, h.size]
    split at hnm
    · cases hnm
      exact h.has
    · exact hf.has n m hnm

/-- The new link moves what `s` represented over to `d`. -/
theorem representative (h : Links g g' s d) (hf : Forest g) (n : NodeId) :
    g'.representative n = if g.representative n = s then d else g.representative n := by
  obtain ⟨k, hk⟩ := hf.leads n
  obtain ⟨k', hk'⟩ := h.leads hk
  exact hk'.representative_eq

end Links

/-! ### Scheduling -/

theorem schedule_eq_self (h : g.representative src = g.representative dst) :
    g.schedule src dst = g := by
  simp [schedule, h]

/-- A merge that is new waits in front of the others. -/
theorem schedule_of_ne (h : g.representative src ≠ g.representative dst) :
    g.schedule src dst =
      { (g.inheritFlags (g.representative src) (g.representative dst)).modify
          (g.representative src) fun x => { x with mergeTo := some (g.representative dst) } with
        pending := g.representative src :: g.pending } := by
  simp only [schedule, h, if_false]
  rfl

theorem size_schedule (g : Graph) (src dst : NodeId) : (g.schedule src dst).size = g.size := by
  by_cases h : g.representative src = g.representative dst
  · rw [schedule_eq_self h]
  · rw [schedule_of_ne h]
    simp [size, inheritFlags, modify]

/-- Scheduling changes merge links and flags only. -/
theorem schedule_field {α : Type} (p : Node → α)
    (hp : ∀ x t i r, p { x with mergeTo := t, interior := i, referenceOnly := r } = p x := by
      intros; rfl) (src dst n : NodeId) : p ((g.schedule src dst).node n) = p (g.node n) := by
  by_cases h : g.representative src = g.representative dst
  · rw [schedule_eq_self h]
  · rw [schedule_of_ne h]
    refine (node_modify_field p ?_ _ _ n).trans (node_modify_field p ?_ g _ n)
    · exact fun x => hp x _ x.interior x.referenceOnly
    · exact fun x => hp x x.mergeTo _ _

/-- A merge that is new becomes one merge link, if both nodes are represented by roots. -/
theorem links_schedule_of_roots (hs : g.Has (g.representative src))
    (hd : g.Has (g.representative dst)) (hsroot : (g.node (g.representative src)).mergeTo = none)
    (hdroot : (g.node (g.representative dst)).mergeTo = none)
    (h : g.representative src ≠ g.representative dst) :
    Links g (g.schedule src dst) (g.representative src) (g.representative dst) where
  size := size_schedule g src dst
  root_src := hsroot
  root_dst := hdroot
  ne := h
  has := hd
  mergeTo n := by
    have hsrc : (g.inheritFlags (g.representative src) (g.representative dst)).Has
        (g.representative src) := (has_modify _).mpr hs
    rw [schedule_of_ne h]
    show ((Graph.modify _ _ _).node n).mergeTo = _
    rw [node_modify]
    by_cases hn : n = g.representative src
    · rw [if_pos ⟨hn, hsrc⟩, if_pos hn]
    · rw [if_neg (fun hc => hn hc.1), if_neg hn]
      refine node_modify_field Node.mergeTo ?_ g _ n
      exact fun _ => rfl

theorem links_schedule (hf : Forest g) (hs : g.Has src) (hd : g.Has dst)
    (h : g.representative src ≠ g.representative dst) :
    Links g (g.schedule src dst) (g.representative src) (g.representative dst) :=
  links_schedule_of_roots (hf.has_representative hs) (hf.has_representative hd)
    (hf.mergeTo_representative src) (hf.mergeTo_representative dst) h

/-- Scheduling does nothing, or makes one merge link and lets its origin wait. -/
theorem schedule_cases (hf : Forest g) (hs : g.Has src) (hd : g.Has dst) :
    g.representative src = g.representative dst ∧ g.schedule src dst = g ∨
      Links g (g.schedule src dst) (g.representative src) (g.representative dst) ∧
        (g.schedule src dst).pending = g.representative src :: g.pending := by
  by_cases h : g.representative src = g.representative dst
  · exact .inl ⟨h, schedule_eq_self h⟩
  · exact .inr ⟨links_schedule hf hs hd h, by rw [schedule_of_ne h]⟩

theorem schedule_rest (g : Graph) (src dst : NodeId) :
    (g.schedule src dst).values = g.values ∧ (g.schedule src dst).returnNode = g.returnNode ∧
      (g.schedule src dst).header = g.header := by
  by_cases h : g.representative src = g.representative dst
  · rw [schedule_eq_self h]
    exact ⟨rfl, rfl, rfl⟩
  · rw [schedule_of_ne h]
    exact ⟨rfl, rfl, rfl⟩

/-- A node is interior after scheduling only if it was, or if it is to take over another node that
is interior or has to do with its content. -/
theorem schedule_interior {s d n : NodeId} (hs : g.representative src = s)
    (hd : g.representative dst = d) (h : s ≠ d)
    (hi : ((g.schedule src dst).node n).interior = true) : (g.node n).interior = true ∨ n = d ∧
      (g.target? d = some s ∨ g.target? s = some d ∨ (g.node s).interior = true) := by
  rw [schedule_of_ne (by rw [hs, hd]; exact h), hs, hd] at hi
  replace hi : (((g.inheritFlags s d).modify s fun x => { x with mergeTo := some d }).node
    n).interior = true := hi
  rw [node_modify_field Node.interior] at hi
  unfold inheritFlags at hi
  rw [node_modify] at hi
  split at hi
  · rename_i hn
    obtain ⟨rfl, -⟩ := hn
    split at hi
    · rename_i ht
      exact .inr ⟨rfl, .inl ht⟩
    · split at hi
      · rename_i ht
        exact .inr ⟨rfl, .inr (.inl ht)⟩
      · rw [Bool.or_eq_true] at hi
        exact hi.imp_right fun hi => ⟨rfl, .inr (.inr hi)⟩
  · exact .inl hi

end Escape.Graph
