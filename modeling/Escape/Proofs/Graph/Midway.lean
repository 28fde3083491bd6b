import Escape.Proofs.Graph.Coherent

/-!
# Webs in the middle of a merge

What the rules on webs become while content `src` is being merged into `dst`. Nodes of one web may
still name their content differently, by names that stand for the same node.

- `Graph.Takes`, `Midway.takes`: some nodes take a content that all their neighbours take or have,
  and the rules are kept.
- `Midway.repoint`, `Midway.spread`, `Midway.addDefer`: the three kinds of changes.
-/

namespace Escape.Graph

variable {g k k' k'' : Graph} {src dst x n m z : NodeId} {X : NodeId → NodeId → Prop}

/-- The defer edges of `g`, with `src` called `dst`. -/
def Renamed (g : Graph) (src dst a b : NodeId) : Prop :=
  ∃ a₀ b₀, g.Defers a₀ b₀ ∧ rename src dst a₀ = a ∧ rename src dst b₀ = b

/-- The nodes that a web of `g` joins, with `src` called `dst`. -/
def RenamedWeb (g : Graph) (src dst : NodeId) : NodeId → NodeId → Prop :=
  ReflTransGen fun a b => Renamed g src dst a b ∨ Renamed g src dst b a

theorem RenamedWeb.symm (h : RenamedWeb g src dst n m) : RenamedWeb g src dst m n := by
  induction h with
  | refl => exact .refl
  | tail _ hs ih => exact ih.head hs.symm

theorem ne_of_renamed (hne : dst ≠ src) (hn : n ≠ src) (h : ReflTransGen (Renamed g src dst) n m) :
    m ≠ src := by
  cases h with
  | refl => exact hn
  | tail _ hs =>
    obtain ⟨_, _, -, -, rfl⟩ := hs
    exact rename_ne hne _

/-- While `src` is merged into `dst`, the node `x` stands for both. What stands for a live content
is one too. -/
structure Stage (k : Graph) (src dst x : NodeId) : Prop where
  ne : dst ≠ src
  dst_live : (k.node dst).merged = false
  dst_content : (k.node dst).isContent
  rep_dst : k.representative dst = x
  rep_src : k.representative src = x
  roots : ∀ c, (k.node c).merged = false → (k.node c).isContent →
    (k.node (k.representative c)).merged = false ∧ (k.node (k.representative c)).isContent

theorem Stage.rewires (h : Stage k src dst x) (hr : Rewires k k') : Stage k' src dst x where
  ne := h.ne
  dst_live := (hr.merged dst).trans h.dst_live
  dst_content := (hr.isContent dst).trans h.dst_content
  rep_dst := (hr.representative dst).trans h.rep_dst
  rep_src := (hr.representative src).trans h.rep_src
  roots c := by
    rw [hr.representative, hr.merged, hr.merged, hr.isContent, hr.isContent]
    exact h.roots c

/-- The names under which nodes may point to `x` in the middle of a merge. -/
def Alias (src dst x u : NodeId) : Prop := u = src ∨ u = dst ∨ u = x

/-- The rules on webs in the middle of a merge. Joined nodes have the same content, or point to `x`
under different names. The pairs in `X` may still break this rule. The edge of `src` is to become an
edge of `dst`, so it counts as one. -/
structure Midway (g k : Graph) (src dst x : NodeId) (X : NodeId → NodeId → Prop) : Prop
    extends Mid k src, Stage k src dst x where
  target_live : ∀ n c, n ≠ src → k.target? n = some c → (k.node c).merged = false
  target_content : ∀ n c, n ≠ src → k.target? n = some c → (k.node c).isContent
  level : ∀ a b, a ≠ src → b ≠ src → k.Joined a b → ¬ X a b →
    k.target? a = k.target? b ∨
      ∃ u v, (k.target? a = some u ∧ Alias src dst x u) ∧ k.target? b = some v ∧ Alias src dst x v
  within : ∀ a b, a ≠ src → k.Defers a b → Renamed g src dst a b
  keeps : ∀ n, n ≠ src → (g.target? n).isSome → (k.target? n).isSome
  fresh : ∀ n, n ≠ src → g.target? n = none → (k.target? n).isSome → RenamedWeb g src dst n dst
  progress : ∀ n, n ≠ src → (k.target? n).isSome →
    ∃ e, ReflTransGen (Renamed g src dst) n e ∧ (k.HasEdge e ∨ e = dst ∧ k.HasEdge src)
  tomb_usePoints : ∀ n, (k.node n).merged = true → (k.node n).usePoints = {}

/-- From `k` to `k'` some nodes take contents in `Z`, and defer edges are added. -/
structure Moves (k k' : Graph) (src : NodeId) (Z : NodeId → Prop) : Prop extends Rewires k k' where
  defers : ∀ a b, k.Defers a b → k'.Defers a b
  source : (k'.node src).pointsTo = (k.node src).pointsTo
  moved : ∀ n, n ≠ src → (k'.node n).pointsTo = (k.node n).pointsTo ∨
    ∃ z, Z z ∧ k'.target? n = some z
  edges : ∀ n, n ≠ src → k.HasEdge n → k'.HasEdge n
  sets : ∀ n, n ≠ src → (k.target? n).isSome → (k'.target? n).isSome
  closed : ∀ a b, a ≠ src → b ≠ src → k.Joined a b → k'.target? b ≠ k.target? b →
    k'.target? a = k.target? a → ∃ z, Z z ∧ k.target? a = some z

namespace Moves

variable {Z Z' : NodeId → Prop}

theorem refl (k : Graph) (src : NodeId) (Z : NodeId → Prop) : Moves k k src Z :=
  ⟨.refl k, fun _ _ h => h, rfl, fun _ _ => .inl rfl, fun _ _ h => h, fun _ _ h => h,
    fun _ _ _ _ _ h => absurd rfl h⟩

variable (h : Moves k k' src Z)
include h

theorem mono (hZ : ∀ z, Z z → Z' z) : Moves k k' src Z' :=
  ⟨h.toRewires, h.defers, h.source, fun n hn => (h.moved n hn).imp_right
    fun ⟨z, hz, e⟩ => ⟨z, hZ z hz, e⟩, h.edges, h.sets, fun a b ha hb hj hne he =>
      (h.closed a b ha hb hj hne he).imp fun z hz => ⟨hZ z hz.1, hz.2⟩⟩

/-- A node whose content is not among the new ones has kept it. -/
theorem target?_eq (hn : n ≠ src) {c : NodeId} (hc : k'.target? n = some c)
    (hZ : ¬ Z c) : (k'.node n).pointsTo = (k.node n).pointsTo := by
  rcases h.moved n hn with e | ⟨z, hz, e⟩
  · exact e
  · rw [hc] at e
    cases e
    exact absurd hz hZ

theorem trans (h' : Moves k' k'' src Z) : Moves k k'' src Z where
  toRewires := h.toRewires.trans h'.toRewires
  defers a b hd := h'.defers a b (h.defers a b hd)
  source := h'.source.trans h.source
  moved n hn := by
    rcases h'.moved n hn with e | hz
    · rcases h.moved n hn with e' | ⟨z, hz, e'⟩
      · exact .inl (e.trans e')
      · exact .inr ⟨z, hz, by rw [target?, e]; exact e'⟩
    · exact .inr hz
  edges n hn he := h'.edges n hn (h.edges n hn he)
  sets n hn hs := h'.sets n hn (h.sets n hn hs)
  closed a b ha hb hj hne he := by
    have hj' : k'.Joined a b := hj.imp (h.defers a b) (h.defers b a)
    by_cases hea : k'.target? a = k.target? a
    · by_cases heb : k'.target? b = k.target? b
      · rw [← hea]
        exact h'.closed a b ha hb hj' (by rw [heb]; exact hne) (by rw [he, hea])
      · exact h.closed a b ha hb hj heb hea
    · -- the neighbour went away and came back, so its content is one of the new ones
      rcases h'.moved a ha with e | ⟨z, hz, e⟩
      · exact absurd (show k'.target? a = k.target? a by rw [← he, target?, ← e]; rfl) hea
      · exact ⟨z, hz, by rw [← he, e]⟩

/-- Contents that no node can take stay where they are: if a node has one and its neighbour had one
as well, the neighbour still has. If `e` holds, the neighbour may instead have an edge to `dst`. -/
theorem trap {P : NodeId → Prop} {e : Prop} {a b : NodeId}
    (hP : ∀ z, Z z → ¬ P z) (ha : a ≠ src) (hb : b ≠ src) (hj : k.Joined a b)
    (base : ∀ c, k.target? a = some c → P c →
      (∃ d, k.target? b = some d ∧ P d) ∨ e ∧ k.HasEdge b ∧ k.target? b = some dst)
    {c : NodeId} (hc : k'.target? a = some c) (hPc : P c) :
    (∃ d, k'.target? b = some d ∧ P d) ∨ e ∧ k'.HasEdge b ∧ k'.target? b = some dst := by
  have hpt := h.target?_eq ha hc fun hz => hP c hz hPc
  have hka : k.target? a = some c := by rw [target?, ← hpt]; exact hc
  have hkb : k'.target? b = k.target? b := by
    by_contra hne
    obtain ⟨z, hz, e⟩ := h.closed a b ha hb hj hne (hc.trans hka.symm)
    rw [hka] at e
    cases e
    exact hP c hz hPc
  rw [hkb]
  exact (base c hka hPc).imp_right fun ht => ⟨ht.1, h.edges b hb ht.2.1, ht.2.2⟩

end Moves

/-- From `k` to `k'` the nodes in `V`, and no others, come to point to `z`. -/
structure Takes (k k' : Graph) (z : NodeId) (V : NodeId → Prop) : Prop extends Rewires k k' where
  elsewhere : ∀ m, V m → k.target? m ≠ some z
  target : ∀ m, V m → k'.target? m = some z
  pointsTo_of_not : ∀ m, ¬ V m → (k'.node m).pointsTo = (k.node m).pointsTo
  defersTo : ∀ m, (k'.node m).defersTo = (k.node m).defersTo
  edges : ∀ m, k.HasEdge m → k'.HasEdge m

theorem Repoints.takes {R : NodeId → Prop} (h : Repoints k k' n z R) : Takes k k' z R where
  toRewires := h.toRewires
  elsewhere m hm e := by
    obtain ⟨c, hc, hne⟩ := isStale_iff.mp (h.stale m hm)
    exact hne (Option.some.inj (hc.symm.trans e))
  target _ := h.target?
  pointsTo_of_not := h.pointsTo_of_not
  defersTo := h.defersTo
  edges _ := h.hasEdge_iff.mpr

theorem Fills.takes {V : NodeId → Prop} (h : Fills k k' z V) : Takes k k' z V where
  toRewires := h.toRewires
  elsewhere m hm e := by
    rw [h.bare m hm] at e
    cases e
  target := h.target
  pointsTo_of_not := h.pointsTo_of_not
  defersTo := h.defersTo
  edges _ := h.hasEdge_mono

namespace Takes

variable {V : NodeId → Prop} {a b : NodeId}

variable (h : Takes k k' z V)
include h

theorem target?_of_not (hm : ¬ V m) : k'.target? m = k.target? m := by
  rw [target?, h.pointsTo_of_not m hm, ← target?]

theorem joined_iff : k'.Joined a b ↔ k.Joined a b := by
  rw [Joined, Defers, Defers, h.defersTo, h.defersTo, ← Defers, ← Defers, ← Joined]

theorem isSome_mono (hm : (k.target? m).isSome) : (k'.target? m).isSome := by
  by_cases hV : V m
  · rw [h.target m hV]
    rfl
  · rwa [h.target?_of_not hV]

/-- What is true of `z` and of what a node pointed to is true of what it points to. -/
theorem of_target {P : NodeId → Prop} {c : NodeId} (hz : P z)
    (hP : ∀ c, k.target? m = some c → P c) (hc : k'.target? m = some c) : P c := by
  by_cases hV : V m
  · rw [h.target m hV] at hc
    cases hc
    exact hz
  · exact hP c (by rwa [h.target?_of_not hV] at hc)

/-- Two nodes agree if one takes `z`, and the other takes it or has it. -/
theorem target?_eq (ha : V b → ¬ V a → k.target? a = some z)
    (hb : V a → ¬ V b → k.target? b = some z) (hor : V a ∨ V b) : k'.target? a = k'.target? b := by
  by_cases hVa : V a
  · by_cases hVb : V b
    · rw [h.target a hVa, h.target b hVb]
    · rw [h.target a hVa, h.target?_of_not hVb, hb hVa hVb]
  · have hVb := hor.resolve_left hVa
    rw [h.target b hVb, h.target?_of_not hVa, ha hVb hVa]

theorem moves (hoff : ∀ m, V m → m ≠ src)
    (hnear : ∀ a b, a ≠ src → V b → k.Joined a b → ¬ V a → k.target? a = some z) :
    Moves k k' src (· = z) where
  toRewires := h.toRewires
  defers a b hd := by rwa [Defers, h.defersTo]
  source := h.pointsTo_of_not src fun hs => hoff src hs rfl
  moved m _ := by
    by_cases hV : V m
    · exact .inr ⟨z, rfl, h.target m hV⟩
    · exact .inl (h.pointsTo_of_not m hV)
  edges m _ := h.edges m
  sets _ _ := h.isSome_mono
  closed a b ha _ hj hne he := by
    have hVb : V b := by_contra fun hVb => hne (h.target?_of_not hVb)
    have hVa : ¬ V a := fun hVa => h.elsewhere a hVa (he.symm.trans (h.target a hVa))
    exact ⟨z, rfl, hnear a b ha hVb hj hVa⟩

end Takes

namespace Midway

section

variable (h : Midway g k src dst x X)
include h

theorem has_dst : k.Has dst := has_of_isContent h.dst_content

theorem representative_alias {u : NodeId} (hu : Alias src dst x u) : k.representative u = x := by
  rcases hu with rfl | rfl | rfl
  · exact h.rep_src
  · exact h.rep_dst
  · rw [← h.rep_dst]
    exact h.forest.representative_representative _

/-- More pairs may break the rule. -/
theorem weaken {Y : NodeId → NodeId → Prop} (hXY : ∀ a b, X a b → Y a b) : Midway g k src dst x Y :=
  { h with level := fun a b ha hb hj hY => h.level a b ha hb hj fun hX => hY (hXY a b hX) }

/-- Joined nodes both have a content, or neither has. -/
theorem isSome_joined {a b : NodeId} (ha : a ≠ src) (hb : b ≠ src)
    (hj : k.Joined a b) (hX : ¬ X a b) : (k.target? a).isSome ↔ (k.target? b).isSome := by
  rcases h.level a b ha hb hj hX with e | ⟨u, v, ⟨ea, -⟩, eb, -⟩
  · rw [e]
  · rw [ea, eb]
    exact Iff.rfl

theorem content?_joined {a b : NodeId} (ha : a ≠ src) (hb : b ≠ src)
    (hj : k.Joined a b) (hX : ¬ X a b) : k.content? a = k.content? b := by
  rw [content?_eq, content?_eq]
  rcases h.level a b ha hb hj hX with e | ⟨u, v, ⟨ea, hu⟩, eb, hv⟩
  · rw [e]
  · rw [ea, eb, Option.map_some, Option.map_some, h.representative_alias hu,
      h.representative_alias hv]

/-- Nodes that take a content with their neighbours keep the rules. Those that were bare belong to
the web of `dst`, and can defer to an edge. -/
theorem takes {V : NodeId → Prop} {Y : NodeId → NodeId → Prop}
    (hV : Takes k k' z V) (hmid : Mid k' src) (hzl : (k.node z).merged = false)
    (hzc : (k.node z).isContent) (hnear : ∀ a b, a ≠ src → V b → k.Joined a b → ¬ V a →
      k.target? a = some z)
    (hY : ∀ a b, ¬ V a → ¬ V b → X a b → Y a b)
    (huse : ∀ m, m ≠ z → (k'.node m).usePoints = (k.node m).usePoints)
    (hfresh : ∀ m, V m → k.target? m = none → RenamedWeb g src dst m dst ∧
      ∃ e, ReflTransGen (Renamed g src dst) m e ∧ (k'.HasEdge e ∨ e = dst ∧ k'.HasEdge src)) :
    Midway g k' src dst x Y where
  toMid := hmid
  toStage := h.toStage.rewires hV.toRewires
  target_live m c hm hc := by
    rw [hV.merged]
    exact hV.of_target (P := fun c => (k.node c).merged = false) hzl (h.target_live m · hm) hc
  target_content m c hm hc := by
    rw [hV.isContent]
    exact hV.of_target (P := fun c => (k.node c).isContent) hzc (h.target_content m · hm) hc
  level a b ha hb hj hYab := by
    have hj := hV.joined_iff.mp hj
    by_cases hor : V a ∨ V b
    · exact .inl (hV.target?_eq (fun hVb => hnear a b ha hVb hj)
        (fun hVa => hnear b a hb hVa hj.symm) hor)
    · obtain ⟨hVa, hVb⟩ := not_or.mp hor
      rw [hV.target?_of_not hVa, hV.target?_of_not hVb]
      exact h.level a b ha hb hj fun hX => hYab (hY a b hVa hVb hX)
  within a b ha hd := h.within a b ha (by rwa [Defers, hV.defersTo] at hd)
  keeps m hm hs := hV.isSome_mono (h.keeps m hm hs)
  fresh m hm hnone hs := by
    by_cases hbare : k.target? m = none
    · refine (hfresh m (by_contra fun hVm => ?_) hbare).1
      rw [hV.target?_of_not hVm, hbare] at hs
      cases hs
    · exact h.fresh m hm hnone (Option.isSome_iff_ne_none.mpr hbare)
  progress m hm hs := by
    by_cases hbare : k.target? m = none
    · refine (hfresh m (by_contra fun hVm => ?_) hbare).2
      rw [hV.target?_of_not hVm, hbare] at hs
      cases hs
    · obtain ⟨e, hp, he⟩ := h.progress m hm (Option.isSome_iff_ne_none.mpr hbare)
      exact ⟨e, hp, he.imp (hV.edges e) (And.imp_right (hV.edges src))⟩
  tomb_usePoints m hm := by
    rw [hV.merged] at hm
    rw [huse m (by rintro rfl; rw [hzl] at hm; cases hm)]
    exact h.tomb_usePoints m hm

/-- Giving another content to a web in the middle of a merge. -/
theorem repoint {content : NodeId} (hn : n ≠ src)
    (hset : (k.target? n).isSome) (hlive : (k.node content).merged = false)
    (hcon : (k.node content).isContent) (hz : k.representative content = z)
    (hX : ∀ a b, X a b → (k.target? a).isSome) :
    ∃ k' R, k.repoint n content = .ok k' ∧ Repoints k k' n z R ∧ (∀ m, R m → m ≠ src) ∧
      Midway g k' src dst x X ∧ Moves k k' src (· = z) := by
  obtain ⟨hzl, hzc⟩ := hz ▸ h.roots content hlive hcon
  have hzroot : (k.node z).mergeTo = none := hz ▸ h.forest.mergeTo_representative content
  have hzsrc : z ≠ src := hz ▸ h.ne_representative content
  obtain ⟨k', hok⟩ := repoint_total hset hz hzroot hzc
  obtain ⟨R, hR, hlk, hoff⟩ := repoint_spec h.linked hn hzsrc hz hok
  obtain ⟨hmid, -⟩ := h.toMid.repoint hn (has_of_isContent hcon) hok
  have hsome : ∀ m, R m → (k.target? m).isSome := fun m hm => by
    obtain ⟨c, hc, -⟩ := isStale_iff.mp (hR.stale m hm)
    rw [hc]
    rfl
  -- a neighbour of a changed node either changes too or has the content already
  have hnear : ∀ a b, a ≠ src → R b → k.Joined a b → ¬ R a → k.target? a = some z := by
    intro a b ha hb hj hna
    have hsa : (k.target? a).isSome := by
      by_cases hXab : X a b
      · exact hX a b hXab
      · exact (h.isSome_joined ha (hoff b hb) hj hXab).mpr (hsome b hb)
    obtain ⟨c, hc⟩ := Option.isSome_iff_exists.mp hsa
    by_contra hne
    refine hna (hR.closed b a hb ((h.linked.mem_neighbours (hoff b hb)).mpr ⟨ha, hj.symm⟩)
      (isStale_iff.mpr ⟨c, hc, fun e => hne (hc.trans (congrArg some e))⟩))
  refine ⟨k', R, hok, hR, hoff, h.takes hR.takes hmid hzl hzc hnear (fun _ _ _ _ hXab => hXab)
    (fun m _ => hR.usePoints m) fun m hm hbare => ?_, hR.takes.moves hoff hnear⟩
  have := hsome m hm
  rw [hbare] at this
  cases this

omit h in
/-- Scheduling a merge of the contents. The names of `dst` are the same, and what represents it is
one more. -/
theorem schedules (h : Midway g k src dst dst X) (hsch : Schedules k k')
    (hroots : ∀ c, (k.node c).merged = false → (k.node c).isContent →
      (k.node (k'.representative c)).merged = false ∧ (k.node (k'.representative c)).isContent) :
    Midway g k' src dst (k'.representative dst) X where
  toMid := hsch.mid h.toMid
  ne := h.ne
  dst_live := by rw [hsch.merged]; exact h.dst_live
  dst_content := by rw [hsch.isContent]; exact h.dst_content
  rep_dst := rfl
  rep_src := hsch.representative_congr h.forest (by rw [h.rep_src, h.rep_dst])
  roots c := by
    rw [hsch.merged, hsch.merged, hsch.isContent, hsch.isContent]
    exact hroots c
  target_live m c hm hc := by
    rw [hsch.target?] at hc
    rw [hsch.merged]
    exact h.target_live m c hm hc
  target_content m c hm hc := by
    rw [hsch.target?] at hc
    rw [hsch.isContent]
    exact h.target_content m c hm hc
  level a b ha hb hj hXab := by
    have hal : ∀ u, Alias src dst dst u → Alias src dst (k'.representative dst) u := by
      rintro u (hu | hu | hu)
      · exact .inl hu
      · exact .inr (.inl hu)
      · exact .inr (.inl hu)
    rw [hsch.target?, hsch.target?]
    rcases h.level a b ha hb (hj.imp hsch.defers_iff.mp hsch.defers_iff.mp) hXab with
      e | ⟨u, v, ⟨hu, hua⟩, hv, hva⟩
    · exact .inl e
    · exact .inr ⟨u, v, ⟨hu, hal u hua⟩, hv, hal v hva⟩
  within a b ha hab := h.within a b ha (hsch.defers_iff.mp hab)
  keeps m hm hs := by
    rw [hsch.target?]
    exact h.keeps m hm hs
  fresh m hm hnone hs := by
    rw [hsch.target?] at hs
    exact h.fresh m hm hnone hs
  progress m hm hs := by
    rw [hsch.target?] at hs
    obtain ⟨e, hp, he⟩ := h.progress m hm hs
    exact ⟨e, hp, by rwa [hsch.hasEdge_iff, hsch.hasEdge_iff]⟩
  tomb_usePoints m hm := by
    rw [hsch.merged] at hm
    rw [hsch.field Node.usePoints fun _ _ _ _ => rfl]
    exact h.tomb_usePoints m hm

/-- Defer edges away from `src` were there before, up to names. -/
theorem renamed_of_defers (hn : n ≠ src)
    (hp : ReflTransGen k.Defers n m) : ReflTransGen (Renamed g src dst) n m ∧ m ≠ src := by
  induction hp with
  | refl => exact ⟨.refl, hn⟩
  | tail _ hd ih => exact ⟨ih.1.tail (h.within _ _ ih.2 hd), (h.linked.defer _ _ ih.2 hd).1⟩

theorem renamed_of_joined {a b : NodeId} (ha : a ≠ src) (hb : b ≠ src)
    (hj : k.Joined a b) : Renamed g src dst a b ∨ Renamed g src dst b a :=
  hj.imp (h.within a b ha) (h.within b a hb)

theorem renamedWeb_of_bareWeb (hn : n ≠ src) (hw : k.BareWeb n m) : RenamedWeb g src dst n m := by
  induction hw with
  | refl => exact .refl
  | tail hp hs ih =>
    have hb := BareWeb.not_off h.linked hp hn
    obtain ⟨hc, hj⟩ := (h.linked.mem_neighbours hb).mp hs.1
    exact Relation.ReflTransGen.tail ih (h.renamed_of_joined hb hc hj)

end

/-- Giving a content to a part of a web that has none, in the middle of a merge. If there is an edge
between `n` and a node with that content, it may be a new one. -/
theorem spread (own : Bool) (h : Midway g k src dst x X) (hn : n ≠ src) (hasn : k.Has n)
    (hlive : (k.node n).merged = false) (hb : k.target? n = none)
    (hroot : (k.node z).mergeTo = none) (hzl : (k.node z).merged = false)
    (hzc : (k.node z).isContent)
    (hX : ∀ a b, X a b → a = n ∧ k.target? b = some z ∨ b = n ∧ k.target? a = some z)
    (hnear : n = dst ∨ k.Joined n dst) :
    ∃ k' V, k.spread n z own = .ok k' ∧ Spreads k k' n z V ∧ (∀ m, V m → k.BareWeb n m) ∧
      Midway g k' src dst x (fun _ _ => False) ∧ Moves k k' src (· = z) := by
  have hzsrc : z ≠ src := by
    rintro rfl
    have := h.src_links
    rw [hroot] at this
    cases this
  obtain ⟨k', hok⟩ : ∃ k', k.spread n z own = .ok k' := spread_total hroot hzc
  obtain ⟨V, hV, hlk⟩ := spread_spec h.linked hn hzsrc hasn hb hok
  obtain ⟨hmid, -⟩ := h.toMid.spread hn hasn hlive hb hzsrc (has_of_isContent hzc) hok
  -- an edge between a node with content and one without is a new one
  have hmixed : ∀ a b, a ≠ src → b ≠ src → k.Joined a b → (k.target? a).isSome →
      k.target? b = none → b = n ∧ k.target? a = some z := by
    intro a b ha hb' hj hsa hnb
    have hXab : X a b := by
      by_contra hnot
      have := (h.isSome_joined ha hb' hj hnot).mp hsa
      rw [hnb] at this
      cases this
    rcases hX a b hXab with ⟨rfl, -⟩ | hor
    · rw [hb] at hsa
      cases hsa
    · exact hor
  have hseal : k.Sealed n := by
    rintro a b ⟨hsa, c, hc, hac⟩ hba hnb
    have hcs := BareWeb.not_off h.linked hc hn
    obtain ⟨has, hj⟩ := (h.linked.mem_neighbours hcs).mp hac
    obtain ⟨hbs, hj'⟩ := (h.linked.mem_neighbours has).mp hba
    rw [(hmixed a b has hbs hj' hsa hnb).1]
    exact .refl
  have hVweb : ∀ m, V m → k.BareWeb n m := hV.within hseal
  have hVsrc : ∀ m, V m → m ≠ src := by
    intro m hm
    have := BareWeb.not_off h.linked (hVweb m hm) hn
    exact this
  have hnear' : ∀ a b, a ≠ src → V b → k.Joined a b → ¬ V a → k.target? a = some z := by
    intro a b ha hVb hj hVa
    have hmem := (h.linked.mem_neighbours (hVsrc b hVb)).mpr ⟨ha, hj.symm⟩
    have hsa : (k.target? a).isSome := by
      by_contra hnone
      exact hVa (hV.covers a ((hVweb b hVb).tail ⟨hmem, by simpa using hnone⟩))
    exact (hmixed a b ha (hVsrc b hVb) hj hsa (hV.bare b hVb)).2
  have hVn : V n := hV.covers n .refl
  have hlast : RenamedWeb g src dst n dst := by
    rcases hnear with rfl | hj
    · exact .refl
    · exact .single (h.renamed_of_joined hn h.ne hj)
  refine ⟨k', V, hok, hV, hVweb, h.takes hV.toFills.takes hmid hzl hzc hnear'
    (fun a b hVa hVb hXab => ?_) hV.usePoints_of_ne fun m hVm _ => ⟨?_, ?_⟩,
    hV.toFills.takes.moves hVsrc hnear'⟩
  · rcases hX a b hXab with ⟨rfl, -⟩ | ⟨rfl, -⟩
    · exact hVa hVn
    · exact hVb hVn
  · exact (h.renamedWeb_of_bareWeb hn (hVweb m hVm)).symm.trans hlast
  · obtain ⟨e, hp, he⟩ := hV.grounded m hVm
    obtain ⟨hp, hes⟩ := h.renamed_of_defers (hVsrc m hVm) hp
    rcases he with he | he
    · exact ⟨e, hp, .inl he⟩
    · obtain ⟨e', hp', he'⟩ := h.progress e hes he
      exact ⟨e', hp.trans hp', he'.imp hV.hasEdge_mono (And.imp_right hV.hasEdge_mono)⟩

/-- Adding a defer edge in the middle of a merge; the edge may break the rule on webs. -/
theorem addDefer (h : Midway g k src dst x fun _ _ => False) (hn : n ≠ src) (hm : m ≠ src)
    (hasn : k.Has n) (hasm : k.Has m) (hlive : (k.node n).merged = false)
    (hlive' : (k.node m).merged = false) (hne : n ≠ m) (hren : Renamed g src dst n m) :
    ∃ k' b, k.addDefer n m = .ok (k', b) ∧ k'.Defers n m ∧
      (∀ a, (k'.node a).pointsTo = (k.node a).pointsTo) ∧
      Midway g k' src dst x (fun a b => a = n ∧ b = m ∨ a = m ∧ b = n) ∧
      Moves k k' src fun _ => False := by
  obtain ⟨k', b, hok⟩ := addDefer_total (g := k) (n := n) hlive'
  obtain ⟨hmid, -, hnew, -⟩ := h.toMid.addDefer hn hm hasn hasm hlive hne hok
  refine ⟨k', b, hok, hnew, ?_⟩
  obtain ⟨-, ⟨rfl, -, -⟩ | ⟨rfl, -, -, -⟩⟩ := addDefer_cases hok
  · exact ⟨fun _ => rfl, h.weaken fun _ _ => False.elim, .refl _ _ _⟩
  · have ha := addsDefer_linkDefer (m := m) hasn
    -- The new edge joins `n` and `m`, and no other nodes.
    have hold : ∀ a b, (k.linkDefer n m).Joined a b → k.Joined a b ∨ a = n ∧ b = m ∨
        a = m ∧ b = n := by
      rintro a b (hj | hj)
      · exact (ha.defers_iff.mp hj).imp .inl .inl
      · exact (ha.defers_iff.mp hj).imp .inr fun e => .inr e.symm
    refine ⟨ha.pointsTo, ⟨hmid, h.toStage.rewires ha.toRewires, ?_, ?_, ?_, ?_, ?_, ?_, ?_, ?_⟩,
      ⟨ha.toRewires, fun a b hd => ha.defers_iff.mpr (.inl hd), ha.pointsTo src,
        fun a _ => .inl (ha.pointsTo a), ?_, ?_, ?_⟩⟩
    · intro a c hasrc hc
      rw [ha.target?] at hc
      rw [ha.merged]
      exact h.target_live a c hasrc hc
    · intro a c hasrc hc
      rw [ha.target?] at hc
      rw [ha.isContent]
      exact h.target_content a c hasrc hc
    · intro a b hasrc hb hj hX
      rw [ha.target?, ha.target?]
      exact h.level a b hasrc hb ((hold a b hj).resolve_right hX) not_false
    · intro a b hasrc hd
      rcases ha.defers_iff.mp hd with hd | ⟨rfl, rfl⟩
      · exact h.within a b hasrc hd
      · exact hren
    · intro a hasrc hs
      rw [ha.target?]
      exact h.keeps a hasrc hs
    · intro a hasrc hnone hs
      rw [ha.target?] at hs
      exact h.fresh a hasrc hnone hs
    · intro a hasrc hs
      rw [ha.target?] at hs
      obtain ⟨e, hp, he⟩ := h.progress a hasrc hs
      exact ⟨e, hp, by rwa [HasEdge, HasEdge, ha.pointsTo, ha.pointsTo]⟩
    · intro a hma
      rw [ha.merged] at hma
      rw [ha.usePoints]
      exact h.tomb_usePoints a hma
    · intro a _ he
      rw [HasEdge, ha.pointsTo]
      exact he
    · intro a _ hs
      rw [ha.target?]
      exact hs
    · intro a b _ _ _ hne' _
      exact absurd (ha.target? b) hne'

end Midway

end Escape.Graph
