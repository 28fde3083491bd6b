import Escape.Proofs.Graph.Redirects
import Escape.Proofs.Walk

/-!
# Contents of webs

The two operations that give contents to whole webs, described by the set of nodes that they change.

- `Graph.repoint_spec`, `Graph.spread_spec`: what `repoint` and `spread` do.
- `Graph.repoint_total`, `Graph.spread_total`: they do not fail on a content that is not merged.
-/

namespace Escape.Graph

variable {g g' g'' : Graph} {n m x : NodeId} {off : NodeId → Prop}

/-! ### Another content for a web -/

/-- Edges are listed behind the entries that were there. -/
def Grows (l l' : List Pred) : Prop := ∃ new, l' = l ++ new ∧ ∀ q ∈ new, q.kind = .pointsTo

theorem Grows.refl (l : List Pred) : Grows l l := ⟨[], by simp, by simp⟩

theorem Grows.trans {l l' l'' : List Pred} (h : Grows l l') (h' : Grows l' l'') : Grows l l'' := by
  obtain ⟨new, rfl, hn⟩ := h
  obtain ⟨new', rfl, hn'⟩ := h'
  refine ⟨new ++ new', by simp, fun q hq => ?_⟩
  rcases List.mem_append.mp hq with hq | hq
  · exact hn q hq
  · exact hn' q hq

/-- From `g` to `g'` the nodes in `R` come to point to `x`, and all keep their way of pointing. They
are the part of the web of `n` that can be reached through nodes that point elsewhere. -/
structure Repoints (g g' : Graph) (n x : NodeId) (R : NodeId → Prop) : Prop
    extends Rewires g g' where
  pointsTo : ∀ m, R m → (g'.node m).pointsTo = (g.node m).pointsTo.retarget x
  pointsTo_of_not : ∀ m, ¬ R m → (g'.node m).pointsTo = (g.node m).pointsTo
  defersTo : ∀ m, (g'.node m).defersTo = (g.node m).defersTo
  usePoints : ∀ m, (g'.node m).usePoints = (g.node m).usePoints
  stale : ∀ m, R m → g.isStale x m = true
  start : g.isStale x n = true → R n
  started : ∀ m, R m → R n
  closed : ∀ a b, R a → b ∈ g.neighbours a → g.isStale x b = true → R b
  reach : ∀ m, R m → ReflTransGen (fun a b => b ∈ g.neighbours a ∧ g.isStale x b = true) n m
  grows : Grows (g.node x).preds (g'.node x).preds

/-- What a loop of `repointNode` has done once it handled the nodes in `done`. -/
structure Repointed (g h : Graph) (x : NodeId) (off : NodeId → Prop)
    (done : List NodeId) : Prop extends Rewires g h where
  pointsTo : ∀ m, (h.node m).pointsTo =
    if m ∈ done then (g.node m).pointsTo.retarget x else (g.node m).pointsTo
  defersTo : ∀ m, (h.node m).defersTo = (g.node m).defersTo
  usePoints : ∀ m, (h.node m).usePoints = (g.node m).usePoints
  linked : Linked h off
  grows : Grows (g.node x).preds (h.node x).preds

theorem repointNode_usePoints (hok : repointNode x g n = .ok g') (m : NodeId) :
    (g'.node m).usePoints = (g.node m).usePoints := by
  unfold repointNode at hok
  split at hok
  · obtain ⟨-, -, rfl⟩ := setEdge_ok.mp hok
    rw [linkEdge, node_modify_field Node.usePoints, node_modify_field Node.usePoints,
      node_modify_field Node.usePoints (fun x => x.erasePred_usePoints _)]
  · cases hok
    exact node_modify_field Node.usePoints ..
  · cases hok
    rfl

/-- An edge that is moved to `x` is listed last. -/
theorem repointNode_grows (hn : g.isStale x n = true) (hok : repointNode x g n = .ok g') :
    Grows (g.node x).preds (g'.node x).preds := by
  obtain ⟨c, hc, hne⟩ := isStale_iff.mp hn
  unfold repointNode at hok
  split at hok
  · rename_i old hold
    rw [target?_of_edge hold] at hc
    cases hc
    obtain ⟨-, hxc, rfl⟩ := setEdge_ok.mp hok
    rw [preds_linkEdge (has_of_isContent hxc), if_pos rfl, node_modify_of_ne hne.symm]
    exact ⟨_, rfl, by simp⟩
  · cases hok
    rw [node_modify_field Node.preds]
    exact .refl _
  · cases hok
    exact .refl _

/-- **What turning nodes does**, where entries and edges agree. -/
theorem Turns.repointed {done : List NodeId} {k : Graph} (h : Linked g off) (hn : ¬ off n)
    (hx : ¬ off x) (ht : Turns x n g done k) : Repointed g k x off done ∧
    (∀ m ∈ done, ¬ off m) ∧ ∀ m ∈ done,
      ReflTransGen (fun a b => b ∈ g.neighbours a ∧ g.isStale x b = true) n m := by
  induction ht with
  | start => exact ⟨⟨.refl g, by simp, fun _ => rfl, fun _ => rfl, h, .refl _⟩, by simp, by simp⟩
  | @turn done k k' a ht hfrom hnew hstale hok ih =>
    obtain ⟨hd, hoff, hreach⟩ := ih
    obtain ⟨ha, hreach'⟩ : ¬ off a ∧
        ReflTransGen (fun a b => b ∈ g.neighbours a ∧ g.isStale x b = true) n a := by
      rcases hfrom with rfl | ⟨b, hb, hab⟩
      · exact ⟨hn, .refl⟩
      · exact ⟨((h.mem_neighbours (hoff b hb)).mp hab).1,
          (hreach b hb).tail ⟨hab, ht.isStale hnew ▸ hstale⟩⟩
    obtain ⟨hassign, hl⟩ := repointNode_spec hd.linked ha hx hok
    refine ⟨⟨hd.toRewires.trans hassign.toRewires, (ht.turn hfrom hnew hstale hok).pointsTo,
      fun m => ?_, fun m => ?_, hl, hd.grows.trans (repointNode_grows hstale hok)⟩, fun m hm => ?_,
      fun m hm => ?_⟩
    · rw [hassign.defersTo, hd.defersTo]
    · rw [repointNode_usePoints hok, hd.usePoints]
    · rcases List.mem_append.mp hm with hm | hm
      · exact hoff m hm
      · exact List.mem_singleton.mp hm ▸ ha
    · rcases List.mem_append.mp hm with hm | hm
      · exact hreach m hm
      · exact List.mem_singleton.mp hm ▸ hreach'

/-- **What `repoint` does**: the web around `n` comes to point to what represents `content`. -/
theorem repoint_spec {content : NodeId} (h : Linked g off) (hn : ¬ off n) (hx : ¬ off x)
    (hrep : g.representative content = x) (hok : g.repoint n content = .ok g') :
    ∃ R, Repoints g g' n x R ∧ Linked g' off ∧ ∀ m, R m → ¬ off m := by
  rcases repoint_cases hrep hok with ⟨hfresh, rfl⟩ | ⟨done, hfirst, hturns, hclosed⟩
  · exact ⟨fun _ => False, ⟨.refl _, by simp, fun _ _ => rfl, fun _ => rfl, fun _ => rfl, by simp,
      by simp [hfresh], by simp, by simp, by simp, .refl _⟩, h, by simp⟩
  · obtain ⟨hdone, hoff, hreach⟩ := hturns.repointed h hn hx
    refine ⟨(· ∈ done), ⟨hdone.toRewires, fun m hm => ?_, fun m hm => ?_, hdone.defersTo,
      hdone.usePoints, hturns.stale, fun _ => hfirst, fun _ _ => hfirst,
      fun a b ha hb => hclosed a ha b hb, hreach, hdone.grows⟩, hdone.linked, hoff⟩
    · rw [hdone.pointsTo, if_pos hm]
    · rw [hdone.pointsTo, if_neg hm]

/-! ### A content for nodes that have none -/

/-- From `g` to `g'` the nodes in `V`, which pointed nowhere, come to point to `x`. -/
structure Fills (g g' : Graph) (x : NodeId) (V : NodeId → Prop) : Prop extends Rewires g g' where
  bare : ∀ m, V m → g.target? m = none
  target : ∀ m, V m → g'.target? m = some x
  pointsTo_of_not : ∀ m, ¬ V m → (g'.node m).pointsTo = (g.node m).pointsTo
  defersTo : ∀ m, (g'.node m).defersTo = (g.node m).defersTo
  usePoints_of_ne : ∀ m, m ≠ x → (g'.node m).usePoints = (g.node m).usePoints

namespace Fills

variable {V W : NodeId → Prop}

theorem refl (g : Graph) (x : NodeId) : Fills g g x fun _ => False :=
  ⟨.refl g, by simp, by simp, fun _ _ => rfl, fun _ => rfl, fun _ _ => rfl⟩

variable (h : Fills g g' x V)
include h

theorem trans (h' : Fills g' g'' x W) : Fills g g'' x fun m => V m ∨ W m where
  toRewires := h.toRewires.trans h'.toRewires
  bare m hm := by
    by_cases hV : V m
    · exact h.bare m hV
    · have := h'.bare m (hm.resolve_left hV)
      rwa [target?, h.pointsTo_of_not m hV] at this
  target m hm := by
    by_cases hW : W m
    · exact h'.target m hW
    · rw [target?, h'.pointsTo_of_not m hW]
      exact h.target m (hm.resolve_right hW)
  pointsTo_of_not m hm := by
    rw [h'.pointsTo_of_not m fun e => hm (.inr e), h.pointsTo_of_not m fun e => hm (.inl e)]
  defersTo m := (h'.defersTo m).trans (h.defersTo m)
  usePoints_of_ne m hm := (h'.usePoints_of_ne m hm).trans (h.usePoints_of_ne m hm)

/-- A node that points somewhere is left alone. -/
theorem pointsTo_of_isSome (hm : (g.target? m).isSome) :
    (g'.node m).pointsTo = (g.node m).pointsTo :=
  h.pointsTo_of_not m fun hV => by simp [h.bare m hV] at hm

theorem target?_of_isSome (hm : (g.target? m).isSome) : g'.target? m = g.target? m := by
  rw [target?, h.pointsTo_of_isSome hm, ← target?]

theorem isSome_mono (hm : (g.target? m).isSome) : (g'.target? m).isSome := by
  rw [h.target?_of_isSome hm]
  exact hm

theorem hasEdge_mono (hm : g.HasEdge m) : g'.HasEdge m := by
  rw [HasEdge, h.pointsTo_of_isSome hm.target?_isSome]
  exact hm

theorem defers_iff : g'.Defers n m ↔ g.Defers n m := by
  rw [Defers, h.defersTo, ← Defers]

end Fills

/-- One node that pointed nowhere comes to point somewhere. -/
theorem Assigns.fills {p : Pointee} (h : Assigns g g' n p) (hbare : g.target? n = none)
    (hp : p.target? = some x)
    (hu : ∀ m, m ≠ x → (g'.node m).usePoints = (g.node m).usePoints) : Fills g g' x (· = n) where
  toRewires := h.toRewires
  bare m hm := hm ▸ hbare
  target m hm := by rw [target?, h.pointsTo, if_pos hm, hp]
  pointsTo_of_not m hm := by rw [h.pointsTo, if_neg hm]
  defersTo := h.defersTo
  usePoints_of_ne := hu

theorem not_hasEdge_of_bare (h : g.target? n = none) : ¬ g.HasEdge n := fun he => by
  have := he.target?_isSome
  simp [h] at this

theorem copyUsePoints_usePoints_of_ne {k : NodeId} (h : k ≠ m) :
    ((g.copyUsePoints n m).node k).usePoints = (g.node k).usePoints := by
  unfold copyUsePoints
  split
  · rfl
  · rw [node_modify_of_ne h]

/-- Inference at a node that pointed nowhere. -/
theorem fills_infer (hn : g.Has n) (hbare : g.target? n = none) :
    Fills g (infer x g n) x (· = n) :=
  (assigns_infer hn).fills hbare rfl fun m hm => by
    rw [infer, copyUsePoints_usePoints_of_ne hm,
      node_modify_field Node.usePoints]

/-- What `ensureEdge` does to a node that points nowhere. -/
theorem ensureEdge_spec (h : Linked g off) (hn : ¬ off n) (hx : ¬ off x) (hasn : g.Has n)
    (hok : ensureEdge x g n = .ok g') :
    ∃ V, Fills g g' x V ∧ Linked g' off ∧ (∀ m, V m → m = n) ∧
      (g.target? n = none → V n ∧ g'.HasEdge n) := by
  unfold ensureEdge at hok
  rw [isSet_eq] at hok
  split at hok
  · rename_i hset
    cases hok
    exact ⟨_, .refl g x, h, by simp, fun hb => by simp [hb] at hset⟩
  · rename_i hset
    have hbare : g.target? n = none := by simpa using hset
    obtain ⟨g₁, h₁, hok⟩ := bind_ok.mp hok
    cases hok
    obtain ⟨-, hxc, rfl⟩ := setEdge_ok.mp h₁
    have ha := assigns_linkEdge (c := x) hasn
    have hl := h.linkEdge hn hx hasn (has_of_isContent hxc) (not_hasEdge_of_bare hbare)
    have hf : Fills g ((g.linkEdge n x).copyUsePoints n x) x (· = n) := by
      refine Assigns.fills (p := .edge x) ⟨ha.toRewires.trans (.copyUsePoints _ n x), ?_, ?_⟩ hbare
        rfl ?_
      · intro m
        rw [copyUsePoints_field Node.pointsTo, ha.pointsTo]
      · intro m
        rw [copyUsePoints_field Node.defersTo, ha.defersTo]
      · intro m hm
        rw [copyUsePoints_usePoints_of_ne hm, linkEdge,
          node_modify_field Node.usePoints,
          node_modify_field Node.usePoints]
    refine ⟨_, hf, hl.copyUsePoints n x, fun _ hm => hm, fun _ => ⟨rfl, ?_⟩⟩
    rw [HasEdge, copyUsePoints_field Node.pointsTo, ha.pointsTo, if_pos rfl]
    rfl

theorem mem_bareDeferrers (h : Linked g off) (hn : ¬ off n) :
    m ∈ g.bareDeferrers n ↔ ¬ off m ∧ g.Defers m n ∧ g.target? m = none := by
  rw [bareDeferrers, List.mem_filter, mem_deferPreds, isSet_eq]
  simp only [Bool.not_eq_true', Option.isSome_eq_false_iff, Option.isNone_iff_eq_none]
  constructor
  · rintro ⟨hp, hb⟩
    obtain ⟨hoff, hd⟩ := h.of_defer m n hn hp
    exact ⟨hoff, hd, hb⟩
  · rintro ⟨hoff, hd, hb⟩
    exact ⟨(h.defer m n hoff hd).2, hb⟩

/-- Inference at several nodes that pointed nowhere. -/
theorem foldl_infer_spec {l : List NodeId} : ∀ {g : Graph}, Linked g off → l.Nodup →
    (∀ m ∈ l, ¬ off m ∧ g.Has m ∧ g.target? m = none) →
    Fills g (l.foldl (infer x) g) x (· ∈ l) ∧ Linked (l.foldl (infer x) g) off := by
  induction l with
  | nil => exact fun h _ _ => ⟨by simpa using Fills.refl _ x, h⟩
  | cons a l ih =>
    intro g h hnd hl
    obtain ⟨hoff, hhas, hbare⟩ := hl a List.mem_cons_self
    have hf := fills_infer (x := x) hhas hbare
    obtain ⟨hfl, hlk⟩ := ih (h.infer (c := x) hoff hhas (not_hasEdge_of_bare hbare))
      (List.nodup_cons.mp hnd).2 fun m hm => by
        obtain ⟨hoffm, hhasm, hbarem⟩ := hl m (List.mem_cons_of_mem a hm)
        have hne : ¬ m = a := fun e => (List.nodup_cons.mp hnd).1 (e ▸ hm)
        refine ⟨hoffm, hf.toRewires.has.mpr hhasm, ?_⟩
        rw [target?, hf.pointsTo_of_not m hne, ← target?, hbarem]
    refine ⟨?_, hlk⟩
    simpa only [List.foldl_cons, List.mem_cons] using hf.trans hfl

/-- **What `give` does**: `n` and the nodes without content that defer to it, directly or through
each other, come to point to `x`. -/
theorem give_spec (h : Linked g off) (hn : ¬ off n) (hx : ¬ off x) (hasn : g.Has n)
    (hok : give x g n = .ok g') :
    ∃ V, Fills g g' x V ∧ Linked g' off ∧ (g.target? n = none → V n ∧ g'.HasEdge n) ∧
      (∀ m, V m → ReflTransGen g.Defers m n) ∧
      (∀ P : NodeId → Prop, P n → (∀ a b, P a → ¬ off b → g.Defers b a → g.target? b = none → P b) →
        ∀ m, V m → P m) ∧
      ∀ a b, V b → a ∈ g.bareDeferrers b → V a := by
  unfold give at hok
  obtain ⟨g₁, h₁, hok⟩ := bind_ok.mp hok
  cases hok
  obtain ⟨V, hf, hl, hVn, hbare⟩ := ensureEdge_spec h hn hx hasn h₁
  set web := closure g₁.bareDeferrers g₁.size n with hweb
  have hin : ∀ m ∈ web, ¬ off m ∧ ReflTransGen g.Defers m n ∧ (m = n ∨ g₁.target? m = none) := by
    refine closure_induct ⟨hn, .refl, .inl rfl⟩ ?_
    rintro b c ⟨hb, hreach, -⟩ hc
    obtain ⟨hoff, hd, hbare⟩ := (mem_bareDeferrers hl hb).mp hc
    exact ⟨hoff, hreach.head (hf.defers_iff.mp hd), .inr hbare⟩
  obtain ⟨l, hl'⟩ := closure_eq_cons g₁.bareDeferrers g₁.size n
  have hnd := closure_nodup g₁.bareDeferrers g₁.size n
  rw [hl'] at hnd
  have htail : ∀ m ∈ l, ¬ off m ∧ g₁.Has m ∧ g₁.target? m = none := by
    intro m hm
    have hmw : m ∈ web := by rw [hweb, hl']; exact List.mem_cons_of_mem n hm
    obtain ⟨hoff, hreach, hor⟩ := hin m hmw
    have hne : m ≠ n := fun e => (List.nodup_cons.mp hnd).1 (e ▸ hm)
    refine ⟨hoff, ?_, hor.resolve_left hne⟩
    rcases hreach.cases_head with e | ⟨c, hc, -⟩
    · exact absurd e hne
    · exact (hf.defers_iff.mpr hc).has
  obtain ⟨hfl, hlk⟩ := foldl_infer_spec (x := x) hl (List.nodup_cons.mp hnd).2 htail
  rw [hweb, hl', List.tail_cons]
  have hmem : ∀ m, m ∈ web ↔ m = n ∨ m ∈ l := fun m => by rw [hweb, hl', List.mem_cons]
  refine ⟨_, hf.trans hfl, hlk,
    fun hb => ⟨.inl (hbare hb).1, hfl.hasEdge_mono (hbare hb).2⟩, ?_, ?_, ?_⟩
  · rintro m (hm | hm)
    · rw [hVn m hm]
    · exact (hin m ((hmem m).mpr (.inr hm))).2.1
  · intro P hPn hstep m hm
    have hall : ∀ m ∈ web, ¬ off m ∧ P m := by
      refine closure_induct ⟨hn, hPn⟩ ?_
      rintro b c ⟨hb, hPb⟩ hc
      obtain ⟨hoff, hd, hbare⟩ := (mem_bareDeferrers hl hb).mp hc
      refine ⟨hoff, hstep b c hPb hoff (hf.defers_iff.mp hd) ?_⟩
      by_contra hsome
      rw [hf.target?_of_isSome (Option.isSome_iff_ne_none.mpr hsome)] at hbare
      exact hsome hbare
    rcases hm with hm | hm
    · exact hVn m hm ▸ hPn
    · exact (hall m ((hmem m).mpr (.inr hm))).2
  · intro a b hb ha
    have hbw : b ∈ web := (hmem b).mpr (hb.imp_left (hVn b))
    obtain ⟨haoff, hd, ha⟩ := (mem_bareDeferrers h (hin b hbw).1).mp ha
    by_cases ha₁ : g₁.target? a = none
    · -- the closure has all such nodes, since it never leaves the graph
      have haw : a ∈ web := by
        refine closure_closed (U := g₁.nodeIds) (fun c hc => ?_) (Nat.le_of_eq g₁.length_nodeIds)
          hbw ((mem_bareDeferrers hl (hin b hbw).1).mpr ⟨haoff, hf.defers_iff.mpr hd, ha₁⟩)
        rcases (hmem c).mp hc with rfl | hc
        · exact mem_nodeIds.mpr (hf.toRewires.has.mpr hasn)
        · exact mem_nodeIds.mpr (htail c hc).2.1
      rcases (hmem a).mp haw with rfl | haw
      · exact .inl (hbare ha).1
      · exact .inr haw
    · refine .inl (by_contra fun hVa => ha₁ ?_)
      rw [target?, hf.pointsTo_of_not a hVa, ← target?, ha]

theorem ensureEdge_total (hm : (g.node x).mergeTo = none) (hc : (g.node x).isContent) :
    ∃ g', ensureEdge x g n = .ok g' := by
  unfold ensureEdge
  split
  · exact ⟨g, rfl⟩
  · exact ⟨_, by rw [setEdge_ok.mpr ⟨hm, hc, rfl⟩]; rfl⟩

theorem give_total (hm : (g.node x).mergeTo = none) (hc : (g.node x).isContent) :
    ∃ g', give x g n = .ok g' := by
  obtain ⟨g₁, h₁⟩ := ensureEdge_total (n := n) hm hc
  exact ⟨_, by rw [give, h₁]; rfl⟩

/-! ### The part of a web that has no content -/

/-- The verdict of `survey`: go on from nodes without content. -/
def surveyVerdict (g : Graph) (m : NodeId) : Verdict :=
  if (g.node m).pointsTo.isSet then .backtrack else .follow

theorem surveyVerdict_ne_halt (g : Graph) (m : NodeId) : g.surveyVerdict m ≠ .halt := by
  unfold surveyVerdict
  split <;> simp

theorem surveyVerdict_eq_follow : g.surveyVerdict m = .follow ↔ g.target? m = none := by
  unfold surveyVerdict
  rw [isSet_eq]
  cases g.target? m <;> simp

/-- The node `m` can be reached from `n` through nodes of the web that have no content. -/
def BareWeb (g : Graph) (n m : NodeId) : Prop :=
  ReflTransGen (fun a b => b ∈ g.neighbours a ∧ g.target? b = none) n m

theorem BareWeb.bare (h : g.BareWeb n m) (hn : g.target? n = none) : g.target? m = none := by
  cases h with
  | refl => exact hn
  | tail _ hb => exact hb.2

theorem BareWeb.not_off (hl : Linked g off) (h : g.BareWeb n m) (hn : ¬ off n) : ¬ off m := by
  induction h with
  | refl => exact hn
  | tail _ hb ih => exact ((hl.mem_neighbours ih).mp hb.1).1

theorem BareWeb.has (hl : Linked g off) (h : g.BareWeb n m) (hn : ¬ off n)
    (hasn : g.Has n) : g.Has m := by
  cases h with
  | refl => exact hasn
  | tail hp hb => exact hl.has_neighbour (BareWeb.not_off hl hp hn) hb.1

/-- The walk of `survey` before its first round. -/
def surveyStart (g : Graph) (n : NodeId) : Walk NodeId := Walk.visit g.surveyVerdict {} n

theorem surveyStart_spec (hn : g.target? n = none) : (g.surveyStart n).Tidy ∧
    (g.surveyStart n).found = [n] ∧ ∀ m ∈ (g.surveyStart n).trail, m = n := by
  have hfollow : g.surveyVerdict n = .follow := surveyVerdict_eq_follow.mpr hn
  have hv : g.surveyStart n = { frontier := Worklist.push {} n, trail := #[n] } := by
    simp [surveyStart, Walk.visit, hfollow, Worklist.contains]
  rw [hv]
  refine ⟨⟨(Walk.tidy_singleton n).nodup, (Walk.tidy_singleton n).visited, rfl⟩, ?_, by simp⟩
  exact Walk.found_singleton n

/-- `survey` finds the part of the web that has no content, and comes to nothing besides that part
and its neighbours. -/
theorem survey_spec (h : Linked g off) (hoff : ¬ off n) (hasn : g.Has n) (hn : g.target? n = none) :
    (∀ m, m ∈ (g.survey n).found ↔ g.BareWeb n m) ∧
      ∀ m ∈ (g.survey n).trail, g.BareWeb n m ∨
        (g.target? m).isSome ∧ ∃ a, g.BareWeb n a ∧ m ∈ g.neighbours a := by
  obtain ⟨htidy, hfound, htrail⟩ := surveyStart_spec hn
  have hrun : g.survey n = Walk.run g.neighbours g.surveyVerdict g.size 0 (g.surveyStart n) := rfl
  have hreach : ∀ m ∈ (g.survey n).found, g.BareWeb n m := by
    rw [hrun]
    refine Walk.run_induct g.surveyVerdict_ne_halt htidy ?_ ?_ _ _
    · intro a ha
      rw [hfound, List.mem_singleton] at ha
      rw [ha]
      exact .refl
    · intro a b ha hb hf
      exact ha.tail ⟨hb, surveyVerdict_eq_follow.mp hf⟩
  -- The bound is the size of the graph, so the walk comes to its end.
  have hexp : (g.survey n).Explored g.neighbours g.surveyVerdict := by
    rw [hrun]
    refine Walk.run_explored (U := g.nodeIds) g.surveyVerdict_ne_halt _ _ _ htidy (Nat.zero_le _)
      (fun j hj => absurd hj (by omega)) (Nat.le_of_eq g.length_nodeIds) fun a ha => ?_
    exact mem_nodeIds.mpr ((hreach a ha).has h hoff hasn)
  have hall : ∀ m, g.BareWeb n m → m ∈ (g.survey n).found := by
    intro m hm
    induction hm with
    | refl =>
      have hgrows : (g.surveyStart n).found <+: (g.survey n).found :=
        Walk.run_found_grows g.surveyVerdict_ne_halt htidy g.size 0
      exact hgrows.subset (by rw [hfound]; exact List.mem_cons_self)
    | tail _ hb ih => exact (hexp _ ih _ hb.1).1 (surveyVerdict_eq_follow.mpr hb.2)
  refine ⟨fun m => ⟨hreach m, hall m⟩, fun m hm => ?_⟩
  rcases Walk.run_of_trail g.surveyVerdict_ne_halt htidy _ _ m hm with hm | ⟨a, ha, hma⟩
  · rw [htrail m hm]
    exact .inl .refl
  · by_cases hb : g.target? m = none
    · exact .inl ((hreach a ha).tail ⟨hma, hb⟩)
    · exact .inr ⟨Option.isSome_iff_ne_none.mpr hb, a, hreach a ha, hma⟩

/-- A node that has a content and borders on the part of the web of `n` that has none. -/
def Borders (g : Graph) (n m : NodeId) : Prop :=
  (g.target? m).isSome ∧ ∃ a, g.BareWeb n a ∧ m ∈ g.neighbours a

/-- The nodes that border on the part of the web of `n` that has no content have no other neighbours
without content. -/
def Sealed (g : Graph) (n : NodeId) : Prop :=
  ∀ a b, g.Borders n a → b ∈ g.neighbours a → g.target? b = none → g.BareWeb n b

/-- From `g` to `g'` the part of the web of `n` that has no content comes to point to `x`. Each of
these nodes can defer to one that has an edge, or that had a content before, and with a node all
come that defer to it and have no content. -/
structure Spreads (g g' : Graph) (n x : NodeId) (V : NodeId → Prop) : Prop
    extends Fills g g' x V where
  covers : ∀ m, g.BareWeb n m → V m
  near : ∀ m, V m → m = n ∨ ∃ a, g.Joined m a
  grounded : ∀ m, V m → ∃ e, ReflTransGen g.Defers m e ∧ (g'.HasEdge e ∨ (g.target? e).isSome)
  within : g.Sealed n → ∀ m, V m → g.BareWeb n m
  closed : ∀ a b, V b → a ∈ g.bareDeferrers b → V a

/-- What `spread` has done once it went through some of its sources. -/
structure Spreading (g h : Graph) (n x : NodeId) (off : NodeId → Prop) (V : NodeId → Prop) : Prop
    extends Fills g h x V where
  linked : Linked h off
  near : ∀ m, V m → m = n ∨ ∃ a, g.Joined m a
  grounded : ∀ m, V m → ∃ e, ReflTransGen g.Defers m e ∧ (h.HasEdge e ∨ (g.target? e).isSome)
  within : g.Sealed n → ∀ m, V m → g.BareWeb n m
  closed : ∀ a b, V b → a ∈ g.bareDeferrers b → V a

theorem Spreading.give {h h' : Graph} {V : NodeId → Prop} {s : NodeId} (hg : Linked g off)
    (hh : Spreading g h n x off V) (hoff : ¬ off n) (hx : ¬ off x)
    (hs : g.BareWeb n s ∨ g.Borders n s) (hass : g.Has s) (hok : give x h s = .ok h') :
    (∃ W, Spreading g h' n x off W) ∧ (h'.target? s).isSome ∧
      ∀ m, (h.target? m).isSome → (h'.target? m).isSome := by
  have hsoff : ¬ off s := by
    rcases hs with hs | ⟨-, a, ha, hsa⟩
    · exact BareWeb.not_off hg hs hoff
    · exact ((hg.mem_neighbours (BareWeb.not_off hg ha hoff)).mp hsa).1
  obtain ⟨W, hf, hl, hself, hpath, hind, hclosed⟩ :=
    give_spec hh.linked hsoff hx (hh.toRewires.has.mpr hass) hok
  have hbare : ∀ m, h.target? m = none → g.target? m = none := fun m hm => by
    by_contra hne
    rw [hh.target?_of_isSome (Option.isSome_iff_ne_none.mpr hne)] at hm
    exact hne hm
  have hpath : ∀ m, W m → ReflTransGen g.Defers m s := fun m hm =>
    (hpath m hm).lift id fun _ _ hab => hh.defers_iff.mp hab
  refine ⟨⟨_, hh.toFills.trans hf, hl, ?_, ?_, ?_, ?_⟩, ?_, fun m hm => hf.isSome_mono hm⟩
  · rintro m (hm | hm)
    · exact hh.near m hm
    · rcases (hpath m hm).cases_head with rfl | ⟨c, hc, -⟩
      · rcases hs with hs | ⟨-, a, ha, hsa⟩
        · rcases Relation.ReflTransGen.cases_tail hs with rfl | ⟨c, hp, hc⟩
          · exact .inl rfl
          · exact .inr ⟨c, ((hg.mem_neighbours (BareWeb.not_off hg hp hoff)).mp hc.1).2.symm⟩
        · exact .inr ⟨a, ((hg.mem_neighbours (BareWeb.not_off hg ha hoff)).mp hsa).2.symm⟩
      · exact .inr ⟨c, .inl hc⟩
  · -- what is new can defer to `s`, and `s` has an edge now or was grounded before
    rintro m (hm | hm)
    · obtain ⟨e, hp, he⟩ := hh.grounded m hm
      exact ⟨e, hp, he.imp_left hf.hasEdge_mono⟩
    · by_cases hb : h.target? s = none
      · exact ⟨s, hpath m hm, .inl (hself hb).2⟩
      · by_cases hgs : g.target? s = none
        · have hVs : V s := by
            by_contra hV
            rw [target?, hh.pointsTo_of_not s hV] at hb
            exact hb hgs
          obtain ⟨e, hp, he⟩ := hh.grounded s hVs
          exact ⟨e, (hpath m hm).trans hp, he.imp_left hf.hasEdge_mono⟩
        · exact ⟨s, hpath m hm, .inr (Option.isSome_iff_ne_none.mpr hgs)⟩
  · rintro hseal m (hm | hm)
    · exact hh.within hseal m hm
    · have hor : ¬ off m ∧ (g.BareWeb n m ∨ g.Borders n m) := by
        refine hind (fun m => ¬ off m ∧ (g.BareWeb n m ∨ g.Borders n m)) ⟨hsoff, hs⟩ ?_ m hm
        rintro a b ⟨ha, hab⟩ hb hd hbb
        have hnb : b ∈ g.neighbours a :=
          (hg.mem_neighbours ha).mpr ⟨hb, .inr (hh.defers_iff.mp hd)⟩
        refine ⟨hb, .inl ?_⟩
        rcases hab with hab | hab
        · exact hab.tail ⟨hnb, hbare b hbb⟩
        · exact hseal a b hab hnb (hbare b hbb)
      rcases hor.2 with hw | ⟨hsome, -⟩
      · exact hw
      · rw [hbare m (hf.bare m hm)] at hsome
        cases hsome
  · rintro a b (hb | hb) ha
    · exact .inl (hh.closed a b hb ha)
    · have hboff : ¬ off b := hind (fun m => ¬ off m) hsoff (fun _ _ _ hb _ _ => hb) b hb
      obtain ⟨haoff, hd, ha⟩ := (mem_bareDeferrers hg hboff).mp ha
      by_cases hVa : V a
      · exact .inl hVa
      · refine .inr (hclosed a b hb ((mem_bareDeferrers hh.linked hboff).mpr
          ⟨haoff, hh.defers_iff.mpr hd, ?_⟩))
        rw [target?, hh.pointsTo_of_not a hVa, ← target?, ha]
  · by_cases hb : h.target? s = none
    · exact (hself hb).2.target?_isSome
    · exact hf.isSome_mono (Option.isSome_iff_ne_none.mpr hb)

/-- **What `spread` does**: the part of the web of `n` that has no content gets one. -/
theorem spread_spec {own : Bool} (h : Linked g off) (hoff : ¬ off n) (hx : ¬ off x)
    (hasn : g.Has n) (hn : g.target? n = none) (hok : g.spread n x own = .ok g') :
    ∃ V, Spreads g g' n x V ∧ Linked g' off := by
  obtain ⟨hfound, htrail⟩ := survey_spec h hoff hasn hn
  have hhas : ∀ m, g.BareWeb n m ∨ g.Borders n m → ¬ off m ∧ g.Has m := by
    rintro m (hm | ⟨hm, a, ha, hma⟩)
    · exact ⟨hm.not_off h hoff, hm.has h hoff hasn⟩
    · have haoff := BareWeb.not_off h ha hoff
      exact ⟨((h.mem_neighbours haoff).mp hma).1, h.has_neighbour haoff hma⟩
  unfold spread at hok
  obtain ⟨g₁, h₁, hok⟩ := bind_ok.mp hok
  -- the sources belong to the web or border on it
  have hg₁ : ∃ V, Spreading g g₁ n x off V := by
    refine foldlM_of_ok (P := fun _ k => ∃ V, Spreading g k n x off V) ?_ ?_ h₁
    · intro done a rest k k' hl hk hstep
      obtain ⟨V, hk⟩ := hk
      have ha : g.BareWeb n a ∨ g.Borders n a := by
        have hmem : a ∈ done ++ a :: rest := by simp
        rw [← hl, List.mem_reverse] at hmem
        split at hmem
        · rcases List.mem_cons.mp hmem with rfl | hmem
          · exact .inl .refl
          · exact htrail a (Array.mem_toList_iff.mp (List.mem_filter.mp hmem).1)
        · exact htrail a (Array.mem_toList_iff.mp (List.mem_filter.mp hmem).1)
      exact (hk.give h hoff hx ha (hhas a ha).2 hstep).1
    · exact ⟨_, .refl g x, h, by simp, by simp, by simp, by simp⟩
  -- afterwards every node that was found has a content
  have hg' : ∃ V, Spreading g g' n x off V ∧ ∀ m ∈ (g.survey n).found, (g'.target? m).isSome := by
    have := foldlM_of_ok (P := fun done k => ∃ V, Spreading g k n x off V ∧
      ∀ m ∈ done, (k.target? m).isSome) ?_ ?_ hok
    · obtain ⟨V, hV, hall⟩ := this
      exact ⟨V, hV, fun m hm => hall m (List.mem_reverse.mpr hm)⟩
    · rintro done a rest k k' hl ⟨V, hk, hdone⟩ hstep
      have ha : g.BareWeb n a := by
        have hmem : a ∈ done ++ a :: rest := by simp
        rw [← hl, List.mem_reverse] at hmem
        exact (hfound a).mp hmem
      split at hstep
      · rename_i hset
        cases hstep
        refine ⟨V, hk, fun m hm => ?_⟩
        rcases List.mem_append.mp hm with hm | hm
        · exact hdone m hm
        · rw [List.mem_singleton.mp hm]
          exact hset
      · obtain ⟨⟨W, hW⟩, hset, hkeep⟩ :=
          hk.give h hoff hx (.inl ha) (hhas a (.inl ha)).2 hstep
        refine ⟨W, hW, fun m hm => ?_⟩
        rcases List.mem_append.mp hm with hm | hm
        · exact hkeep m (hdone m hm)
        · rw [List.mem_singleton.mp hm]
          exact hset
    · obtain ⟨V, hV⟩ := hg₁
      exact ⟨V, hV, by simp⟩
  obtain ⟨V, hV, hall⟩ := hg'
  refine ⟨V, ⟨hV.toFills, fun m hm => ?_, hV.near, hV.grounded, hV.within, hV.closed⟩, hV.linked⟩
  by_contra hnot
  have hset := hall m ((hfound m).mpr hm)
  rw [target?, hV.pointsTo_of_not m hnot, ← target?, hm.bare hn] at hset
  cases hset

/-- A node that has a content is the whole part of its web that `survey` looks at. -/
theorem survey_of_target (hn : (g.target? n).isSome) : g.survey n = { trail := #[n] } := by
  have hstart : Walk.visit g.surveyVerdict {} n = { trail := #[n] } := by
    rw [Walk.visit, surveyVerdict, isSet_eq, hn]
    rfl
  show Walk.run g.neighbours g.surveyVerdict g.size 0 (Walk.visit g.surveyVerdict {} n) = _
  rw [hstart]
  cases g.size <;> rfl

/-- From a node that has a content, `spread` reaches the nodes without one that defer to it. -/
theorem spread_of_target (hn : (g.target? n).isSome) : g.spread n x false = give x g n := by
  have hset : (g.node n).pointsTo.isSet = true := hn
  simp only [spread, survey_of_target hn, List.filter, hset, Bool.true_or, List.reverse_singleton,
    List.foldlM_cons, List.foldlM_nil, Bool.false_eq_true, if_false]
  cases give x g n <;> rfl

/-- The nodes that `spread` gives a content to, whether or not it starts at one of them. -/
theorem spread_fills {own : Bool} (h : Linked g off) (hoff : ¬ off n) (hx : ¬ off x)
    (hasn : g.Has n) (hown : own = true → g.target? n = none) (hok : g.spread n x own = .ok g') :
    ∃ V, Fills g g' x V ∧ Linked g' off ∧ (∀ m, V m → m = n ∨ ∃ a, g.Joined m a) ∧
      (∀ m, V m → ∃ e, ReflTransGen g.Defers m e ∧ (g'.HasEdge e ∨ (g.target? e).isSome)) ∧
      ∀ a b, V b → a ∈ g.bareDeferrers b → V a := by
  cases htgt : g.target? n with
  | none =>
    obtain ⟨V, hV, hl⟩ := spread_spec h hoff hx hasn htgt hok
    exact ⟨V, hV.toFills, hl, hV.near, hV.grounded, hV.closed⟩
  | some c =>
    cases own with
    | true => exact absurd (hown rfl) (by simp [htgt])
    | false =>
      rw [spread_of_target (by rw [htgt]; rfl)] at hok
      obtain ⟨V, hV, hl, -, hreach, -, hclosed⟩ := give_spec h hoff hx hasn hok
      refine ⟨V, hV, hl, fun m hm => ?_,
        fun m hm => ⟨n, hreach m hm, .inr (by simp [htgt])⟩, hclosed⟩
      rcases (hreach m hm).cases_head with rfl | ⟨a, ha, -⟩
      · exact .inl rfl
      · exact .inr ⟨a, .inl ha⟩

/-- Spreading a content does not fail if it is one and has not been merged. -/
theorem spread_total {own : Bool} (hm : (g.node x).mergeTo = none) (hc : (g.node x).isContent) :
    ∃ g', g.spread n x own = .ok g' := by
  have hgive : ∀ h, Rewires g h → ∀ a, ∃ h', give x h a = .ok h' ∧ Rewires g h' := by
    intro h hr a
    obtain ⟨h', hh'⟩ := give_total (n := a) ((hr.mergeTo x).trans hm) ((hr.isContent x).trans hc)
    exact ⟨h', hh', hr.trans (give_redirects (.all h) trivial hh').toRewires⟩
  unfold spread
  dsimp only
  obtain ⟨g₁, h₁, hr₁⟩ := foldlM_total (f := give x) (P := fun _ h => Rewires g h)
    (fun _ a _ h _ hr => hgive h hr a) (.refl g)
  rw [h₁]
  obtain ⟨g₂, h₂, -⟩ := foldlM_total (P := fun _ h => Rewires g h)
    (f := fun g m => if (g.node m).pointsTo.isSet then pure g else give x g m)
    (l := (g.survey n).frontier.items.toList.reverse) (fun _ a _ h _ hr => by
      split
      · exact ⟨h, rfl, hr⟩
      · exact hgive h hr a) hr₁
  exact ⟨g₂, h₂⟩

end Escape.Graph
