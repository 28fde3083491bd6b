import Escape.Proofs.Graph.Cascade
import Escape.Proofs.Graph.Models

/-!
# A splice adds no more than it has to

A splice is sound for every model: if the destination describes the model, and what the source says
about the mapped nodes is true there, then the result describes the model as well. Every graph that
is settled, closed and level is itself a model, in which all that escapes globally is one and the
same place outside. So the states that a splice leads to are the least ones: no graph that says what
the destination and the source say has lower ones.

- `Satisfies.splice`: a splice is sound.
- `Graph.splice_least`: the states after a splice are the least ones.
-/

namespace Escape

namespace NodeMap

variable {m : NodeMap} {a c d : NodeId} {e : NodeId × NodeId}

theorem mem_sources_of_mem (h : e ∈ m.pairs.entries) : e.1 ∈ m.sources :=
  List.mem_map.mpr ⟨e, h, rfl⟩

theorem find?_of_mem_sources (h : a ∈ m.sources) : ∃ b, m.pairs.find? a = some b := by
  have hlookup : ∀ l : List (NodeId × NodeId), a ∈ l.map (·.1) → ∃ b,
      AssocMap.lookup a l = some b := by
    intro l
    induction l with
    | nil => exact nofun
    | cons e l ih =>
      intro hel
      unfold AssocMap.lookup
      split
      · exact ⟨_, rfl⟩
      · rename_i hne
        exact ih ((List.mem_cons.mp hel).resolve_left (Ne.symm hne))
  exact hlookup _ h

theorem not_mem_sources_iff : a ∉ m.sources ↔ m.pairs.find? a = none := by
  refine ⟨fun h => Option.eq_none_iff_forall_ne_some.mpr fun b hb => h (mem_sources hb),
    fun h hmem => ?_⟩
  obtain ⟨b, hb⟩ := find?_of_mem_sources hmem
  cases h.symm.trans hb

theorem entries_add (h : m.pairs.find? c = none) :
    (m.add c d).pairs.entries = m.pairs.entries ++ [(c, d)] := by
  have hnew : ¬ m.pairs.contains c = true := by simp [AssocMap.contains, h]
  rw [add, if_neg hnew]
  exact AssocMap.write_of_lookup_none h

theorem mem_add (h : e ∈ (m.add c d).pairs.entries) :
    e ∈ m.pairs.entries ∨ e = (c, d) ∧ m.pairs.find? c = none := by
  cases hc : m.pairs.find? c with
  | none =>
    rw [entries_add hc] at h
    rcases List.mem_append.mp h with h | h
    · exact .inl h
    · exact .inr ⟨List.mem_singleton.mp h, rfl⟩
  | some b =>
    have hold : m.pairs.contains c = true := by simp [AssocMap.contains, hc]
    rw [add, if_pos hold] at h
    exact .inl h

theorem get?_of_resolve? {g : Graph} {o : Option NodeId} (h : m.resolve? g c = .ok o) :
    m.get? g c = o := by
  unfold resolve? at h
  cases hf : m.pairs.find? c with
  | none =>
    rw [hf] at h
    exact Except.ok.inj h
  | some e =>
    rw [hf] at h
    obtain ⟨_, -, h⟩ := bind_ok.mp h
    exact Except.ok.inj h

end NodeMap

namespace Graph

variable {g : Graph} {n k : NodeId}

/-- The node `n` and everything that it defers to, directly or through others. -/
def deferred (g : Graph) (n : NodeId) : List NodeId :=
  closure (fun n => (g.node n).defersTo) g.size n

theorem path_of_mem_deferred (h : k ∈ g.deferred n) : ReflTransGen g.Defers n k :=
  closure_induct .refl (fun _ _ hb hc => hb.tail hc) k h

/-- The splice of a source lets the mapped node `a` escape: it escapes globally in the source, or it
defers to a node that does and stands for nothing. -/
def LetsOut (source : Graph) (m : NodeMap) (a : NodeId) : Prop :=
  ∃ k ∈ source.deferred a, (source.node k).state = .globalEscaping ∧ (k = a ∨ k ∉ m.sources)

instance (source : Graph) (m : NodeMap) (a : NodeId) : Decidable (source.LetsOut m a) :=
  inferInstanceAs (Decidable (∃ _ ∈ _, _))

theorem letsOut_of_global (m : NodeMap) (h : (g.node n).state = .globalEscaping) : g.LetsOut m n :=
  ⟨n, mem_closure_self _ _ _, h, .inl rfl⟩

end Graph

namespace Reading

variable {α : Type} {r r' r'' : Reading α} {n : NodeId}

/-- From `r` to `r'` nodes were added. -/
structure Extends (r r' : Reading α) : Prop where
  size_le : r.size ≤ r'.size
  means : ∀ n, r.Has n → r'.means n = r.means n
  dead : r'.dead = r.dead

theorem Extends.refl (r : Reading α) : r.Extends r := ⟨Nat.le_refl _, fun _ _ => rfl, rfl⟩

theorem Extends.has (h : r.Extends r') (hn : r.Has n) : r'.Has n := Nat.lt_of_lt_of_le hn h.size_le

theorem Extends.trans (h : r.Extends r') (h' : r'.Extends r'') : r.Extends r'' where
  size_le := Nat.le_trans h.size_le h'.size_le
  means n hn := (h'.means n (h.has hn)).trans (h.means n hn)
  dead := h'.dead.trans h.dead

/-- The reading of a graph with one more node, which stands for `a`. -/
def push (r : Reading α) (a : α) : Reading α :=
  { r with means := fun n => if n.index = r.size then a else r.means n, size := r.size + 1 }

theorem extends_push (r : Reading α) (a : α) : r.Extends (r.push a) where
  size_le := Nat.le_succ _
  means _ hn := if_neg (Nat.ne_of_lt hn)
  dead := rfl

end Reading

namespace Model

variable {α : Type} {M : Model α} {r r' : Reading α} {σ : NodeId → α} {g g' source : Graph}
  {m m' : NodeMap} {n src dst : NodeId} {x : Node}

/-- What a source says about the mapped nodes is true, with `σ` telling what its nodes stand for. -/
structure Accepts (M : Model α) (source : Graph) (m : NodeMap) (σ : NodeId → α) : Prop where
  content : ∀ a ∈ m.sources, ∀ c, source.content? a = some c → M.Points (σ a) (σ c)
  defers : ∀ a ∈ m.sources, ∀ b ∈ m.sources, b ∈ source.deferred a → M.Defers (σ a) (σ b)
  out : ∀ a ∈ m.sources, source.LetsOut m a → M.state (σ a) = .globalEscaping

/-- Each mapped node stands for what the node it is mapped to does. -/
def Respects (r : Reading α) (m : NodeMap) (σ : NodeId → α) : Prop :=
  ∀ e ∈ m.pairs.entries, r.Has e.2 ∧ r.means e.2 = σ e.1

theorem Respects.add {c d : NodeId} (h : Respects r m σ) (hd : r.Has d) (he : r.means d = σ c) :
    Respects r (m.add c d) σ := by
  intro e hmem
  rcases NodeMap.mem_add hmem with hmem | ⟨rfl, -⟩
  · exact h e hmem
  · exact ⟨hd, he⟩

theorem Respects.extend (h : Respects r m σ) (hr : r.Extends r') : Respects r' m σ := by
  intro e hmem
  obtain ⟨hhas, he⟩ := h e hmem
  exact ⟨hr.has hhas, (hr.means e.2 hhas).trans he⟩

/-- What a mapped node is mapped to, up to merges. -/
theorem Respects.get {a b : NodeId} (h : Respects r m σ) (hg : M.Satisfies r g)
    (hb : m.get? g a = some b) : a ∈ m.sources ∧ r.Has b ∧ r.means b = σ a := by
  obtain ⟨e, he, rfl⟩ := Option.map_eq_some_iff.mp hb
  obtain ⟨hhas, hmeans⟩ := h (a, e) (AssocMap.mem_of_lookup he)
  obtain ⟨hrep, hrepmeans⟩ := hg.representative hhas
  exact ⟨NodeMap.mem_sources he, hrep, hrepmeans.trans hmeans⟩

/-! ### New nodes -/

theorem Allows.extend (h : M.Allows r n x) (hr : r.Extends r') (hn : r.Has n) :
    M.Allows r' n x where
  merge m hm := by
    obtain ⟨hhas, he⟩ := h.merge m hm
    exact ⟨hr.has hhas, by rw [hr.means m hhas, hr.means n hn, he]⟩
  points c hc := by
    obtain ⟨hhas, hp⟩ := h.points c hc
    exact ⟨hr.has hhas, by rw [hr.means c hhas, hr.means n hn]; exact hp⟩
  defers m hm := by
    obtain ⟨hhas, hd⟩ := h.defers m hm
    exact ⟨hr.has hhas, by rw [hr.means m hhas, hr.means n hn]; exact hd⟩
  preds p hp := by
    obtain ⟨hhas, he⟩ := h.preds p hp
    exact ⟨hr.has hhas, by rw [hr.means p.node hhas, hr.means n hn]; exact he⟩
  dead := by rw [hr.dead]; exact h.dead
  state := by rw [hr.dead, hr.means n hn]; exact h.state

/-- A fresh node says nothing that could be false. -/
theorem Allows.fresh (hx : x.Fresh) (hstate : x.state = .noEscape) (hdead : ¬ r.dead n) :
    M.Allows r n x where
  merge m hm := nomatch hx.mergeTo.symm.trans hm
  points c hc := by
    rw [hx.pointsTo] at hc
    cases hc
  defers m hm := by
    rw [hx.defersTo] at hm
    cases hm
  preds p hp := by
    rw [hx.preds] at hp
    cases hp
  dead h := absurd h hdead
  state _ := by rw [hstate]; exact Nat.zero_le _

namespace Satisfies

/-- A fresh content for `n` may stand for anything that `n` points to. -/
theorem createContent {c : NodeId} {interior referenceOnly : Bool} {a : α} (h : M.Satisfies r g)
    (hn : r.Has n) (hp : M.Points (r.means n) a)
    (hok : g.createContent n interior referenceOnly = .ok (g', c)) :
    M.Satisfies (r.push a) g' ∧ (r.push a).Has c ∧ (r.push a).means c = a := by
  obtain ⟨g₁, h₁, hok⟩ := bind_ok.mp hok
  cases hok
  have hr := r.extends_push a
  have hmeans : (r.push a).means ⟨g.size⟩ = a := if_pos h.size
  have hnew : (r.push a).Has ⟨g.size⟩ := h.size ▸ Nat.lt_succ_self r.size
  refine ⟨?_, hnew, hmeans⟩
  have hadd : M.Satisfies (r.push a) (g.addNode (Graph.freshContent interior referenceOnly)).1 := by
    refine ⟨by rw [Graph.size_addNode, h.size]; rfl, fun k => ?_⟩
    rw [Graph.node_addNode]
    -- no tombstone is outside of the table
    have hlive : ∀ k, ¬ r.Has k → ¬ r.dead k := fun k hk hdead => by
      have := (h.node k).dead hdead
      rw [Graph.node_of_not_has (mt h.has.mp hk)] at this
      cases this
    split
    · rename_i hk
      subst hk
      exact .fresh (Graph.Node.fresh_content interior referenceOnly) rfl
        (hlive _ (mt h.has.mpr (Graph.not_has_addNode g {})))
    · by_cases hk : r.Has k
      · exact (h.node k).extend hr hk
      · rw [Graph.node_of_not_has (mt h.has.mp hk)]
        exact .fresh ⟨rfl, rfl, rfl, rfl, rfl, rfl, rfl⟩ rfl (hlive k hk)
  exact hadd.spread (hr.has hn) hnew (by rw [hr.means n hn, hmeans]; exact hp) h₁

/-- Carrying over the contents of one node. -/
theorem spliceContent {M' : NodeMap} {changed : Bool} (h : M.Satisfies r g)
    (hacc : M.Accepts source m' σ) (hsrc : src ∈ m'.sources) (hdst : r.Has dst)
    (he : r.means dst = σ src) (hm : Respects r m σ)
    (hok : Graph.spliceContent source src dst g m = .ok (g', M', changed)) :
    ∃ r', r.Extends r' ∧ M.Satisfies r' g' ∧ Respects r' M' σ := by
  rw [Graph.spliceContent_eq] at hok
  have h₁ : M.Satisfies r
      (Graph.raiseIf (decide ((source.node src).state = .globalEscaping)) g dst).1 := by
    unfold Graph.raiseIf
    split
    · rename_i hglobal
      refine h.raise hdst ?_
      rw [he, hacc.out src hsrc (Graph.letsOut_of_global m' (of_decide_eq_true hglobal))]
      exact EscapeState.le_refl _
    · exact h
  generalize Graph.raiseIf (decide ((source.node src).state = .globalEscaping)) g
    dst = acc at h₁ hok
  obtain ⟨g₁, raised⟩ := acc
  have hstay : ∃ r', r.Extends r' ∧ M.Satisfies r' g₁ ∧ Respects r' m σ := ⟨r, .refl r, h₁, hm⟩
  have hpoints : ∀ {c}, source.content? src = some c → M.Points (r.means dst) (σ c) := fun hc =>
    he ▸ hacc.content src hsrc _ hc
  -- a mapped content stands for what the source says
  have hmapped : ∀ {c d}, m.resolve? g₁ c = .ok (some d) → r.Has d ∧ r.means d = σ c := fun hd =>
    (hm.get h₁ (NodeMap.get?_of_resolve? hd)).2
  cases Graph.carryContent_ok hok with
  | stop _ => exact hstay
  | same _ _ => exact hstay
  | adopt hc _ hd =>
    obtain ⟨hdr, hdp⟩ := h₁.content hd
    exact ⟨r, .refl r, h₁, hm.add hdr (M.unique hdp (hpoints hc))⟩
  | @create c _ _ hc _ _ h₂ =>
    obtain ⟨hg₂, hdr, hmeans⟩ := h₁.createContent hdst (hpoints hc) h₂
    have hr := r.extends_push (σ c)
    exact ⟨_, hr, hg₂, (hm.extend hr).add hdr hmeans⟩
  | merge hc hd hd' _ =>
    obtain ⟨hdr, hmeans⟩ := hmapped hd
    obtain ⟨hdr', hdp'⟩ := h₁.content hd'
    exact ⟨r, .refl r, h₁.schedule hdr' hdr ((M.unique hdp' (hpoints hc)).trans hmeans.symm), hm⟩
  | give hc hd _ h₂ =>
    obtain ⟨hdr, hmeans⟩ := hmapped hd
    exact ⟨r, .refl r, h₁.spread hdst hdr (hmeans ▸ hpoints hc) h₂, hm⟩

/-- Carrying over the contents of all mapped nodes. -/
theorem spliceContents (bound i : Nat) (r : Reading α) (g : Graph) (m : NodeMap) (changed : Bool)
    {g' : Graph} {m' : NodeMap} {changed' : Bool} (hq : Graph.Queued g) (h : M.Satisfies r g)
    (hm : Respects r m σ) (hacc : M.Accepts source m' σ)
    (hok : Graph.spliceContents source bound i g m changed = .ok (g', m', changed')) :
    ∃ r', r.Extends r' ∧ M.Satisfies r' g' ∧ Respects r' m' σ := by
  induction bound generalizing i r g m changed g' m' changed' with
  | zero =>
    cases hok
    exact ⟨r, .refl r, h, hm⟩
  | succ bound ih =>
    have hgrows := (Graph.spliceContents_spec _ _ _ _ _ hq hok).1.grows
    rcases Graph.spliceContents_succ_ok hok with ⟨-, rfl, rfl, -⟩ |
      ⟨src, dst, g₁, m₁, c, hentry, hdst, h₁, hok⟩
    · exact ⟨r, .refl r, h, hm⟩
    · have hmem := List.mem_of_getElem? hentry
      have hforest := hq.shape.forest
      have hq₁ := (Graph.spliceContent_spec hq (hforest.has_representative hdst)
        (hforest.representative_representative dst) h₁).1.queued
      obtain ⟨hhas, hmeans⟩ := hm _ hmem
      obtain ⟨hrep, hrepmeans⟩ := h.representative hhas
      obtain ⟨r₁, hr₁, hg₁, hm₁⟩ := h.spliceContent hacc
        (NodeMap.mem_sources_of_mem (hgrows.subset hmem)) hrep (hrepmeans.trans hmeans) hm h₁
      obtain ⟨r', hr', hg', hm'⟩ := ih (i + 1) r₁ g₁ m₁ _ hq₁ hg₁ hm₁ hacc hok
      exact ⟨r', hr₁.trans hr', hg', hm'⟩

/-- Carrying over one node that `src` defers to, where `dst` stands for `src`. -/
theorem spliceDefer {dst' : NodeId} {changed changed' : Bool} (h : M.Satisfies r g)
    (hs : Graph.Settled g) (hacc : M.Accepts source m σ) (hm : Respects r m σ)
    (hsrc : src ∈ m.sources) (hn : n ∈ source.deferred src) (hdst : r.Has dst)
    (he : r.means dst = σ src) (hok : Graph.spliceDefer source m (g, dst, changed) n =
      .ok (g', dst', changed')) : M.Satisfies r g' := by
  cases Graph.spliceDefer_ok hok with
  | link hd h₁ =>
    obtain ⟨hmaps, -, hdmeans⟩ := hm.get h hd
    exact h.deferTracked hs (by rw [he, hdmeans]; exact hacc.defers src hsrc n hmaps hn) h₁
  | raise hnone hglobal =>
    have hunmapped : n ∉ m.sources := NodeMap.not_mem_sources_iff.mpr
      (Option.map_eq_none_iff.mp hnone)
    refine h.raise hdst ?_
    rw [he, hacc.out src hsrc ⟨n, hn, hglobal, .inr hunmapped⟩]
    exact EscapeState.le_refl _
  | skip _ _ => exact h

/-- Carrying over everything that a mapped node defers to. -/
theorem spliceDefers {changed changed' : Bool} (h : M.Satisfies r g) (hs : Graph.Settled g)
    (hacc : M.Accepts source m σ) (hm : Respects r m σ)
    (hok : Graph.spliceDefers source m (g, changed) src = .ok (g', changed')) :
    M.Satisfies r g' := by
  rcases Graph.spliceDefers_ok hok with ⟨-, e⟩ | ⟨dst, g₁, k, c, hdst, h₁, e⟩
  · cases e
    exact h
  · cases e
    obtain ⟨hsrc, hhas, hmeans⟩ := hm.get h hdst
    have hlive : (g.node dst).merged = false := by
      obtain ⟨b, -, rfl⟩ := Option.map_eq_some_iff.mp hdst
      exact hs.merged_representative b
    -- the node that is carried along always stands for `src`
    refine (foldlM_of_ok (P := fun _ acc => Graph.Settled acc.1 ∧ M.Satisfies r acc.1 ∧
      (acc.1.node acc.2.1).merged = false ∧ r.Has acc.2.1 ∧ r.means acc.2.1 = σ src) ?_
      ⟨hs, h, hlive, hhas, hmeans⟩ h₁).2.1
    rintro done n rest ⟨g₂, k₂, c₂⟩ ⟨g₃, k₃, c₃⟩ hl ⟨hs₂, hg₂, hlive₂, hhas₂, hmeans₂⟩ hstep
    dsimp only at hs₂ hg₂ hlive₂ hhas₂ hmeans₂ ⊢
    have hn : n ∈ source.deferred src := by
      rw [Graph.deferred, hl]
      exact List.mem_append_right _ List.mem_cons_self
    have hg₃ := hg₂.spliceDefer hs₂ hacc hm hsrc hn hhas₂ hmeans₂ hstep
    obtain ⟨hev, rfl, -⟩ := Graph.spliceDefer_spec (P := fun _ => True)
      (B := fun _ => True) hs₂ hlive₂ hstep
    obtain ⟨hrep, hrepmeans⟩ := hg₃.representative hhas₂
    exact ⟨hev.settled, hg₃, hev.settled.merged_representative k₂, hrep, hrepmeans.trans hmeans₂⟩

/-- **A splice is sound for every model** that accepts what the source says about the mapped nodes.
-/
theorem splice {changed : Bool} (h : M.Satisfies r g) (hs : Graph.Settled g) (hm : Respects r m σ)
    (hacc : M.Accepts source m' σ) (hok : g.splice source m = .ok (g', m', changed)) :
    ∃ r', r.Extends r' ∧ M.Satisfies r' g' := by
  obtain ⟨g₁, c₁, g₂, h₁, h₂, h₃⟩ := Graph.splice_ok hok
  have hq₁ := (Graph.spliceContents_spec _ _ _ _ _ hs.queued h₁).1.queued
  obtain ⟨hs₂, hp₂, -⟩ := Graph.settle_shape hq₁.shape hq₁.nodup h₂
  obtain ⟨r', hr', hg₁, hm₁⟩ := spliceContents _ _ r g m _ hs.queued h hm hacc h₁
  refine ⟨r', hr', (foldlM_of_ok (P := fun _ acc => Graph.Settled acc.1 ∧ M.Satisfies r' acc.1) ?_
    ⟨⟨hs₂, hp₂⟩, hg₁.settle hq₁ h₂⟩ h₃).2⟩
  rintro done a rest ⟨g₄, c₄⟩ ⟨g₅, c₅⟩ - ⟨hs₄, hg₄⟩ hstep
  exact ⟨(Graph.spliceDefers_spec (P := fun _ => True) (B := fun _ => True) hs₄ hstep).1.settled,
    hg₄.spliceDefers hs₄ hacc hm₁ hstep⟩

end Satisfies

end Model

/-! ### Graphs as models -/

namespace Graph

variable {g g' h source : Graph} {m m' : NodeMap} {n k c : NodeId}

/-- The nodes of a web agree on their content. -/
def Level (g : Graph) : Prop := ∀ n m, g.Defers n m → g.content? n = g.content? m

instance (g : Graph) : Decidable (Level g) :=
  decidable_of_iff (∀ n ∈ g.nodeIds, ∀ m ∈ (g.node n).defersTo, g.content? n = g.content? m)
    ⟨fun h n m hd => h n (mem_nodeIds.mpr (Defers.has hd)) m hd, fun h n _ => h n⟩

/-- A graph from which no more conclusions can be drawn. -/
structure Saturated (g : Graph) : Prop extends Settled g where
  closed : Closed g
  level : Level g

theorem Closed.le_content (h : Closed g) (hs : Settled g) (hc : g.content? n = some c) :
    (g.node n).state ≤ (g.node c).state := by
  refine h n ?_ c (List.mem_append_left _ (Option.mem_toList.mpr hc))
  rw [← hs.representative_of_content hc]
  exact hs.merged_representative n

theorem Closed.le_path (h : Closed g) (hs : Settled g) (hp : ReflTransGen g.Defers n k) :
    (g.node n).state ≤ (g.node k).state := by
  induction hp with
  | refl => exact EscapeState.le_refl _
  | tail _ hd ih =>
    exact EscapeState.le_trans ih (h _ (hs.live_of_defers hd) _ (List.mem_append_right _ hd))

theorem Level.path (h : Level g) (hp : ReflTransGen g.Defers n k) :
    g.content? n = g.content? k := by
  induction hp with
  | refl => rfl
  | tail _ hd ih => exact ih.trans (h _ _ hd)

/-- What lies behind a node that escapes globally does so as well. -/
theorem Closed.content_global (h : Closed g) (hs : Settled g) (hc : g.content? n = some c)
    (hn : (g.node n).state = .globalEscaping) : (g.node c).state = .globalEscaping :=
  globalEscaping_le (hn ▸ h.le_content hs hc)

theorem Closed.path_global (h : Closed g) (hs : Settled g) (hp : ReflTransGen g.Defers n k)
    (hn : (g.node n).state = .globalEscaping) : (g.node k).state = .globalEscaping :=
  globalEscaping_le (hn ▸ h.le_path hs hp)

/-- Where a node is: outside, if it escapes globally. -/
def place (h : Graph) (n : NodeId) : Option NodeId :=
  if (h.node n).state = .globalEscaping then none else some n

theorem place_of_global (hn : (h.node n).state = .globalEscaping) : h.place n = none := if_pos hn

theorem place_of_not_global (hn : (h.node n).state ≠ .globalEscaping) :
  h.place n = some n := if_neg hn

/-- How far a place can be seen. -/
def stateAt (h : Graph) : Option NodeId → EscapeState
  | none => .globalEscaping
  | some n => (h.node n).state

theorem stateAt_place (h : Graph) (n : NodeId) : h.stateAt (h.place n) = (h.node n).state := by
  unfold place
  split
  · rename_i hn
    exact hn.symm
  · rfl

theorem stateAt_le (h : Graph) (x : Option NodeId) : h.stateAt x ≤ h.stateAt none := by
  show h.stateAt x ≤ .globalEscaping
  cases h.stateAt x <;> decide

/-- What a place points to. Outside everything points outside, and so does a node without content
whose web reaches there. -/
def PointsAt (h : Graph) : Option NodeId → Option NodeId → Prop
  | none, a => a = none
  | some n, a => (∃ c, h.content? n = some c ∧ a = h.place c) ∨ h.content? n = none ∧ a = none ∧
      ∃ k, ReflTransGen h.Joined n k ∧ (h.node k).state = .globalEscaping

/-- One place defers to another one. -/
def DefersAt (h : Graph) (x y : Option NodeId) : Prop :=
  x = none ∧ y = none ∨ ∃ n k, ReflTransGen h.Defers n k ∧ x = h.place n ∧ y = h.place k

namespace Saturated

theorem pointsAt (hs : Saturated h) (hc : h.content? n = some c) :
    h.PointsAt (h.place n) (h.place c) := by
  by_cases hn : (h.node n).state = .globalEscaping
  · rw [place_of_global hn]
    exact place_of_global (hs.closed.content_global hs.toSettled hc hn)
  · rw [place_of_not_global hn]
    exact .inl ⟨c, hc, rfl⟩

/-- A node that defers to the outside points outside. -/
theorem pointsAt_of_global (hs : Saturated h) (hp : ReflTransGen h.Defers n k)
    (hk : (h.node k).state = .globalEscaping) {a : Option NodeId} :
    h.PointsAt (some n) a ↔ a = none := by
  have hout : ∀ c, h.content? n = some c → h.place c = none := fun c hc =>
    place_of_global (hs.closed.content_global hs.toSettled (hs.level.path hp ▸ hc) hk)
  constructor
  · rintro (⟨c, hc, rfl⟩ | ⟨-, ha, -⟩)
    · exact hout c hc
    · exact ha
  · rintro rfl
    cases hc : h.content? n with
    | none => exact .inr ⟨hc, rfl, k, hp.lift id fun _ _ => .inl, hk⟩
    | some c => exact .inl ⟨c, hc, (hout c hc).symm⟩

theorem agreeAt (hs : Saturated h) (hp : ReflTransGen h.Defers n k) {a : Option NodeId} :
    h.PointsAt (h.place n) a ↔ h.PointsAt (h.place k) a := by
  by_cases hk : (h.node k).state = .globalEscaping
  · rw [place_of_global hk]
    by_cases hn : (h.node n).state = .globalEscaping
    · rw [place_of_global hn]
    · rw [place_of_not_global hn]
      exact hs.pointsAt_of_global hp hk
  · have hn : (h.node n).state ≠ .globalEscaping := fun hn =>
      hk (hs.closed.path_global hs.toSettled hp hn)
    rw [place_of_not_global hn, place_of_not_global hk]
    simp only [PointsAt, hs.level.path hp]
    have hjoined : ReflTransGen h.Joined n k := hp.lift id fun _ _ => .inl
    have hweb : ∀ j, ReflTransGen h.Joined n j ↔ ReflTransGen h.Joined k j := fun j =>
      ⟨(Joined.path_symm hjoined).trans, hjoined.trans⟩
    simp only [hweb]

end Saturated

/-- **A saturated graph is a model.** -/
def world (hs : Saturated h) : Model (Option NodeId) where
  Points := h.PointsAt
  Defers := h.DefersAt
  state := h.stateAt
  unique {x a b} ha hb := by
    cases x with
    | none => exact ha.trans hb.symm
    | some n =>
      rcases ha with ⟨c, hc, rfl⟩ | ⟨hc, rfl, -⟩ <;> rcases hb with ⟨d, hd, rfl⟩ | ⟨hd, rfl, -⟩
      · rw [Option.some.inj (hc.symm.trans hd)]
      · cases hc.symm.trans hd
      · cases hc.symm.trans hd
      · rfl
  agree {x y a} hd := by
    rcases hd with ⟨rfl, rfl⟩ | ⟨n, k, hp, rfl, rfl⟩
    · exact Iff.rfl
    · exact hs.agreeAt hp
  points_le {x a} ha := by
    cases x with
    | none => exact ha ▸ EscapeState.le_refl _
    | some n =>
      rcases ha with ⟨c, hc, rfl⟩ | ⟨-, rfl, -⟩
      · rw [stateAt_place]
        exact hs.closed.le_content hs.toSettled hc
      · exact h.stateAt_le (some n)
  defers_le {x y} hd := by
    rcases hd with ⟨rfl, rfl⟩ | ⟨n, k, hp, rfl, rfl⟩
    · exact EscapeState.le_refl _
    · rw [stateAt_place, stateAt_place]
      exact hs.closed.le_path hs.toSettled hp

/-- The reading of a graph in one that says at least what it does. -/
def readingIn (g h : Graph) : Reading (Option NodeId) where
  means n := h.place (h.representative n)
  size := g.size
  dead n := (g.node n).merged = true

/-- A saturated graph that keeps the contents of another one, and says all else that it says, is a
model of it. -/
theorem Saturated.satisfies (hs : Saturated h) (hg : Settled g) (hf : Follows g h)
    (hk : KeepsContents g h h.representative) : (world hs).Satisfies (g.readingIn h) g := by
  have hpoints : ∀ n c, g.target? n = some c → (world hs).Points (h.place (h.representative n))
      (h.place (h.representative c)) := fun n c hc => by
    rw [← hf.merge c]
    exact hs.pointsAt (hk n _ (by rw [content?_eq, hc]; rfl))
  have hdefers : ∀ n k, g.Defers n k → (world hs).Defers (h.place (h.representative n))
      (h.place (h.representative k)) := fun n k hd => by
    have htied : g.Tied n k := .inr (by
      rw [hg.representative_of_live (hg.live_of_defers hd),
        hg.representative_of_live (hg.defers_live n k hd)]
      exact hd)
    refine .inr ⟨h.representative n, h.representative k, ?_, rfl, rfl⟩
    rcases hf.tied n k htied with e | hd
    · rw [e]
    · exact .single hd
  refine ⟨rfl, fun n => ?_⟩
  exact {
    merge := fun m hm => ⟨hg.forest.has n m hm, by
      show h.place _ = h.place _
      rw [← hf.merge n, hg.forest.representative_link hm, hf.merge m]⟩
    points := fun c hc => ⟨hg.target_has n c hc, hpoints n c hc⟩
    defers := fun k hd => ⟨hg.has_of_defers hd, hdefers n k hd⟩
    preds := fun p hp => by
      obtain ⟨kind, k⟩ := p
      cases kind with
      | pointsTo =>
        obtain ⟨-, he⟩ := hg.linked.of_edge k n not_false hp
        have htarget := target?_of_edge he
        exact ⟨has_of_target? htarget, hpoints k n htarget⟩
      | defer =>
        obtain ⟨-, hd⟩ := hg.linked.of_defer k n not_false hp
        exact ⟨hd.has, hdefers k n hd⟩
    dead := id
    state := fun hlive => by
      show _ ≤ h.stateAt (h.place _)
      rw [stateAt_place]
      have := hf.state n
      rwa [hg.representative_of_live (Bool.eq_false_iff.mpr hlive)] at this }

/-- **The states after a splice are the least ones.** Take a saturated graph that says what the
destination says and keeps its contents, and in which what the source says about the mapped nodes is
true. There no node of the destination has a lower state than after the splice. -/
theorem splice_least {changed : Bool} {σ : NodeId → Option NodeId} (hs : Saturated h)
    (hg : Settled g) (hf : Follows g h) (hk : KeepsContents g h h.representative)
    (hacc : (world hs).Accepts source m' σ) (hm : Model.Respects (g.readingIn h) m σ)
    (hok : g.splice source m = .ok (g', m', changed)) (hn : g.Has n) :
    (g'.propagate.1.node (g'.propagate.1.representative n)).state ≤
    (h.node (h.representative n)).state := by
  obtain ⟨r', hr', hg'⟩ := (hs.satisfies hg hf hk).splice hg hm hacc hok
  have hev := (splice_spec (P := fun _ => True) (B := fun _ => True) hg hok).1
  have hset := (propagate_raises g').settled hev.settled
  have hsat := hg'.propagate
  obtain ⟨-, hmeans⟩ := hsat.representative (hr'.has hn)
  have hlive : ¬ r'.dead (g'.propagate.1.representative n) := fun hdead => by
    have := (hsat.node _).dead hdead
    rw [hset.merged_representative] at this
    cases this
  have hle := (hsat.node _).state hlive
  rw [hmeans, hr'.means n hn] at hle
  exact (stateAt_place h _).symm ▸ hle

end Graph

end Escape
