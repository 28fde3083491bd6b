import Escape.Proofs.Graph.Edits

/-!
# How graphs evolve

Operations that do not forget anything move a settled graph forward: merged nodes stay merged,
states do not fall, and what was tied together by defer edges stays tied.

- `Evolves.of_carries`, `Evolves.of_extends`: operations with and without merges are of this kind.
-/

namespace Escape.Graph

variable {g g' g'' : Graph} {n m : NodeId} {v r : ValueId} {P B : ValueId → Prop}

/-- A graph of the right shape in which nothing waits to be merged. -/
structure Settled (g : Graph) : Prop extends Shape g nobody where
  pending : g.pending = []

namespace Settled

variable (h : Settled g)
include h

theorem representative_of_live (hn : (g.node n).merged = false) : g.representative n = n :=
  h.toShape.representative_of_live hn not_false

/-- Only contents are merged. -/
theorem representative_of_not_content (hn : (g.node n).isContent = false) :
    g.representative n = n := by
  refine h.representative_of_live ?_
  by_contra hm
  rw [h.tomb_content n (by simpa using hm)] at hn
  cases hn

theorem live_representative (hn : g.Has n) : g.Live (g.representative n) :=
  ⟨h.forest.has_representative hn, h.merged_representative n⟩

theorem live_content {c : NodeId} (hc : g.content? n = some c) : g.Live c := by
  rw [content?_eq, Option.map_eq_some_iff] at hc
  obtain ⟨t, ht, rfl⟩ := hc
  exact h.live_representative (h.target_has n t ht)

/-- A node with a content represents itself. -/
theorem representative_of_content {c : NodeId} (hc : g.content? n = some c) :
    g.representative n = n := by
  rw [content?_eq, Option.map_eq_some_iff] at hc
  obtain ⟨t, ht, -⟩ := hc
  exact h.representative_of_live (h.live_of_target ht)

theorem representative_of_holds (hn : g.Holds n) : g.representative n = n := by
  obtain ⟨c, hc⟩ := Option.isSome_iff_exists.mp hn
  exact h.representative_of_live (h.live_of_target hc)

theorem of_nodes (hn : g'.nodes = g.nodes) (hv : g'.values = g.values)
    (hr : g'.returnNode = g.returnNode) (hp : g'.pending = g.pending) : Settled g' :=
  ⟨h.toShape.of_nodes hn hv hr, hp.trans h.pending⟩

end Settled

/-! ### Facts that are never lost -/

/-- What represents `n` is what represents `m`, or defers to it. -/
def Tied (g : Graph) (n m : NodeId) : Prop :=
  g.representative n = g.representative m ∨ g.Defers (g.representative n) (g.representative m)

/-- The root `r` is mapped to a node that `n` represents. -/
def At (g : Graph) (r : ValueId) (n : NodeId) : Prop :=
  ∃ m, g.values.find? r = some m ∧ g.representative m = n

theorem At.unique (h : g.At r n) (h' : g.At r m) : n = m := by
  obtain ⟨k, hk, rfl⟩ := h
  obtain ⟨k', hk', rfl⟩ := h'
  rw [Option.some.inj (hk.symm.trans hk')]

theorem At.live (hs : Settled g) (h : g.At r n) : g.Live n := by
  obtain ⟨k, hk, rfl⟩ := h
  exact hs.live_representative (hs.values_has r k hk)

theorem at_iff_map : g.At r n ↔ (g.values.find? r).map g.representative = some n := by
  rw [Option.map_eq_some_iff]
  rfl

/-- The graph `g'` says at least what `g` did. -/
structure Follows (g g' : Graph) : Prop where
  size_le : g.size ≤ g'.size
  kind : ∀ n, g.Has n → (g'.node n).kind = (g.node n).kind
  merge : ∀ n, g'.representative (g.representative n) = g'.representative n
  state : ∀ n, (g.node (g.representative n)).state ≤ (g'.node (g'.representative n)).state
  tied : ∀ n m, g.Tied n m → g'.Tied n m
  values : ∀ r n, g.At r n → g'.At r (g'.representative n)
  returnNode : ∀ n, g.returnNode = some n → g'.returnNode = some n
  returned : ∀ n, g'.returnNode = some n → g.returnNode = some n ∨ g'.Has n ∧
    (g'.node n).kind = .returned
  label : g'.label = g.label

namespace Follows

theorem refl (hf : Forest g) : Follows g g where
  size_le := Nat.le_refl _
  kind _ _ := rfl
  merge := hf.representative_representative
  state _ := EscapeState.le_refl _
  tied _ _ h := h
  values r n h := by
    obtain ⟨m, hm, rfl⟩ := h
    exact ⟨m, hm, (hf.representative_representative m).symm⟩
  returnNode _ h := h
  returned _ h := .inl h
  label := rfl

variable (h : Follows g g')
include h

theorem has (hn : g.Has n) : g'.Has n := Nat.lt_of_lt_of_le hn h.size_le

theorem trans (h' : Follows g' g'') : Follows g g'' where
  size_le := Nat.le_trans h.size_le h'.size_le
  kind n hn := (h'.kind n (h.has hn)).trans (h.kind n hn)
  merge n := by rw [← h'.merge (g.representative n), h.merge, h'.merge]
  state n := EscapeState.le_trans (h.state n) (h'.state n)
  tied n m ht := h'.tied n m (h.tied n m ht)
  values r n hr := by
    have := h'.values r _ (h.values r n hr)
    rwa [h'.merge] at this
  returnNode n hr := h'.returnNode n (h.returnNode n hr)
  returned n hr := by
    rcases h'.returned n hr with hr' | hnew
    · refine (h.returned n hr').imp_right fun ⟨hn, hk⟩ => ⟨h'.has hn, ?_⟩
      rw [h'.kind n hn, hk]
    · exact .inr hnew
  label := h'.label.trans h.label

theorem valid : g'.valid = g.valid := (congrArg (·.2.2) h.label :)

theorem isGlobal (hn : (g.node (g.representative n)).state = .globalEscaping) :
    (g'.node (g'.representative n)).state = .globalEscaping := by
  have := h.state n
  rw [hn] at this
  revert this
  cases (g'.node (g'.representative n)).state <;> decide

end Follows

/-! ### Which values enter a graph -/

/-- The node `n` was made for the value `v`. -/
def Names (g : Graph) (n : NodeId) (v : ValueId) : Prop :=
  ((g.node n).kind = .argument ∨ (g.node n).kind = .value) ∧ (g.node n).value = some v

theorem Names.isContent (h : g.Names n v) : (g.node n).isContent = false := by
  rw [Node.isContent]
  rcases h.1 with hk | hk <;> rw [hk] <;> rfl

/-- All values that have a node are in `P`, and each of them has the node that was made for it,
unless it is in `B`. -/
def Keyed (P B : ValueId → Prop) (g : Graph) : Prop :=
  ∀ v n, g.At v n → P v ∧ (B v ∨ g.Names n v)

/-- The graph `g'` says at least what the settled graph `g` did. No value outside of `P` enters the
graph, and no value outside of `B` is bound to the node of another one. Contents are kept. -/
structure Evolves (P B : ValueId → Prop) (g g' : Graph) : Prop extends Follows g g' where
  settled : Settled g'
  keyed : Keyed P B g → Keyed P B g'
  header : g'.header = g.header
  supplies : Supplies g g' g'.representative

namespace Evolves

theorem refl (hs : Settled g) : Evolves P B g g :=
  ⟨.refl hs.forest, hs, id, rfl, (Supplies.refl g).congr fun _ => hs.representative_of_holds⟩

theorem trans (h : Evolves P B g g') (h' : Evolves P B g' g'') : Evolves P B g g'' :=
  ⟨h.toFollows.trans h'.toFollows, h'.settled, h'.keyed ∘ h.keyed, h'.header.trans h.header,
    (h.supplies.trans h'.supplies).congr fun n _ => (h'.merge n).symm⟩

end Evolves

/-- From `g` to `g'` nothing is lost, and nothing is pending in the end. -/
def Forward (g g' : Graph) : Prop := Settled g' ∧ Follows g g'

theorem Forward.refl (hs : Settled g) : Forward g g := ⟨hs, .refl hs.forest⟩

theorem Forward.trans (h : Forward g g') (h' : Forward g' g'') : Forward g g'' :=
  ⟨h'.1, h.2.trans h'.2⟩

theorem Evolves.forward (h : Evolves P B g g') : Forward g g' := ⟨h.settled, h.toFollows⟩

section Carries

variable {ψ : NodeId → NodeId}

/-- Where nothing is pending, nodes are carried on to their representatives. -/
theorem Carries.eq_representative_of_live (hc : Carries g g' ψ) (hs' : Settled g') (hn : g.Has n)
    (hl : (g.node n).merged = false) : ψ n = g'.representative n := by
  rw [← hc.represents n hn, hs'.representative_of_live (hc.live n hn hl)]

theorem Follows.of_carries (hs : Settled g) (hs' : Settled g') (hc : Carries g g' ψ) :
    Follows g g' := by
  have hmerge : ∀ n, g'.representative (g.representative n) = g'.representative n := fun n => by
    by_cases hn : g.Has n
    · exact hc.merge n hn
    · have hroot : (g.node n).mergeTo = none := by rw [node_of_not_has hn]
      rw [representative_of_root hroot]
  have hψ : ∀ n, g.Has n → ψ (g.representative n) = g'.representative n := fun n hn => by
    rw [hc.eq_representative_of_live hs' (hs.forest.has_representative hn)
      (hs.merged_representative n), hmerge]
  refine { hc with
    merge := hmerge
    state := fun n => ?_
    tied := fun n m ht => ?_
    values := fun r n hr => ?_
    label := label_of_header hc.header }
  · by_cases hn : g.Has n
    · have := hc.state _ (hs.forest.has_representative hn)
      rwa [hψ n hn] at this
    · have hroot : (g.node n).mergeTo = none := by rw [node_of_not_has hn]
      rw [representative_of_root hroot, node_of_not_has hn]
      exact Nat.zero_le _
  · rcases ht with e | hd
    · exact .inl (by rw [← hmerge n, e, hmerge m])
    · have hnode : ∀ k, g.Has (g.representative k) → ψ (g.representative k) = g'.representative k :=
        fun k hk => by rw [hc.eq_representative_of_live hs' hk (hs.merged_representative k), hmerge]
      have hn := hnode n hd.has
      have hm := hnode m (hs.has_of_defers hd)
      rcases hc.defers _ _ hd with e | hd'
      · exact .inl (by rw [← hn, e, hm])
      · exact .inr (by rw [← hn, ← hm]; exact hd')
  · obtain ⟨k, hk, rfl⟩ := hr
    obtain ⟨k', hk', e⟩ := hc.values r k hk
    exact ⟨k', hk', by rw [e, hmerge]⟩

/-- A node that was made for a value is never merged. -/
theorem Names.follows (hf : Follows g g') (hs' : Settled g') (hn : g.Has n)
    (hval : (g.node n).value = some v → (g'.node n).value = some v) (h : g.Names n v) :
    g'.representative n = n ∧ g'.Names n v := by
  have hnames : g'.Names n v := ⟨by rw [hf.kind n hn]; exact h.1, hval h.2⟩
  exact ⟨hs'.representative_of_not_content hnames.isContent, hnames⟩

/-- Values that had a node before keep it. -/
theorem Keyed.old (hf : Follows g g') (hs : Settled g) (hs' : Settled g')
    (hval : ∀ n v, g.Has n → (g.node n).isContent = false → (g.node n).value = some v →
      (g'.node n).value = some v)
    (hk : Keyed P B g) (hold : g.At v m) (hnew : g'.At v n) : P v ∧ (B v ∨ g'.Names n v) := by
  obtain ⟨hp, hb⟩ := hk v m hold
  refine ⟨hp, hb.imp_right fun hnames => ?_⟩
  have hm := (hold.live hs).1
  obtain ⟨hrep, hnames'⟩ := hnames.follows hf hs' hm (hval m v hm hnames.isContent)
  have := hnew.unique (hf.values v m hold)
  rwa [this, hrep]

/-- **Operations that merge nodes.** -/
theorem Evolves.of_carries (hs : Settled g) (hs' : Settled g') (hc : Carries g g' ψ) :
    Evolves P B g g' where
  toFollows := .of_carries hs hs' hc
  settled := hs'
  keyed hk v n hv := by
    obtain ⟨k, hk', -⟩ := id hv
    obtain ⟨m, hm⟩ := Option.isSome_iff_exists.mp (hc.keys v (by rw [hk']; rfl))
    exact hk.old (.of_carries hs hs' hc) hs hs' hc.named ⟨m, hm, rfl⟩ hv
  header := hc.header
  supplies := hc.supplies.congr fun n hn => by
    obtain ⟨c, hnc⟩ := Option.isSome_iff_exists.mp hn
    exact (hc.eq_representative_of_live hs' (has_of_target? hnc) (hs.live_of_target hnc)).symm

end Carries

variable (hs : Settled g)
include hs

/-- Operations that merge nothing, as far as no value enters the graph. -/
theorem Follows.of_extends (he : Extends g g') : Follows g g' := by
  have hrep := he.representative hs.forest
  refine { he with
    merge := fun n => by rw [hrep, hrep, hs.forest.representative_representative]
    state := fun n => ?_
    tied := fun n m ht => ?_
    values := fun r n hr => ?_
    label := label_of_header he.header }
  · rw [hrep]
    by_cases hn : g.Has (g.representative n)
    · exact he.state _ hn
    · rw [node_of_not_has hn]
      exact Nat.zero_le _
  · rw [Tied, hrep, hrep]
    exact ht.imp_right (he.defers _ _)
  · obtain ⟨k, hk, rfl⟩ := hr
    obtain ⟨k', hk', e⟩ := he.values r k hk
    exact ⟨k', hk', by rw [hrep, hrep, e, hs.forest.representative_representative]⟩

/-- **Operations that merge nothing.** A value that enters the graph has to be accounted for. -/
theorem Evolves.of_extends (hs' : Settled g') (he : Extends g g') (hsup : Supplies g g' id)
    (hnew : ∀ v n, g.values.find? v = none → g'.At v n → P v ∧ (B v ∨ g'.Names n v)) :
    Evolves P B g g' where
  toFollows := .of_extends hs he
  settled := hs'
  keyed hk v n hv := by
    cases hold : g.values.find? v with
    | none => exact hnew v n hold hv
    | some m =>
      exact hk.old (.of_extends hs he) hs hs' (fun n v hn _ => he.named n v hn) ⟨m, hold, rfl⟩ hv
  header := he.header
  supplies := hsup.congr fun n hn => by
    rw [he.representative hs.forest, hs.representative_of_holds hn]
    rfl

/-- Operations that merge nothing and map no value. -/
theorem Evolves.of_extends_values (hs' : Settled g') (he : Extends g g')
    (hsup : Supplies g g' id) (hv : g'.values = g.values) : Evolves P B g g' :=
  .of_extends hs hs' he hsup fun v n hold hnew => by
    obtain ⟨k, hk, -⟩ := hnew
    rw [hv, hold] at hk
    cases hk

/-! ### Single operations -/

theorem Evolves.raises (h : Raises g g') : Evolves P B g g' :=
  .of_extends_values hs ⟨h.shape hs.toShape, h.pending.trans hs.pending⟩ h.toExtends
    h.sameEdges.supplies h.values

/-- The node of an anchor is live, and the root of the anchor is at this node. -/
theorem enter_evolves (a : Scope.Anchor) (ha : P a.root) :
    Evolves P B g (g.enter a).1 ∧ (g.enter a).1.Live (g.enter a).2 ∧
      (g.enter a).1.At a.root (g.enter a).2 := by
  obtain ⟨hshape, hext⟩ := enter_extends hs.toShape a
  have hrep := hext.representative hs.forest
  have hs' : Settled (g.enter a).1 :=
    ⟨hshape, (enter_quiet hs.toShape a).pending.trans hs.pending⟩
  have hat : (g.enter a).1.At a.root (g.enter a).2 := by
    rcases enter_cases g a with ⟨k, f, -, -, e⟩ | ⟨x, -, -, hx, -, e⟩
    · refine ⟨g.representative k, ?_, ?_⟩
      · rw [e]
        show (g.values.insert _ _).find? _ = _
        rw [AssocMap.find?_insert, if_pos rfl]
      · rw [e] at hrep ⊢
        rw [hrep, hs.forest.representative_representative]
    · refine ⟨(g.addNode x).2, ?_, ?_⟩
      · rw [e]
        show ((g.addNode x).1.values.insert _ _).find? _ = _
        rw [AssocMap.find?_insert, if_pos rfl]
      · rw [e] at hrep ⊢
        rw [hrep, representative_of_root]
        rw [node_of_not_has (not_has_addNode g x)]
  refine ⟨.of_extends hs hs' hext (enter_quiet hs.toShape a).supplies fun v n hold hnew => ?_,
    hat.live hs', hat⟩
  rcases enter_cases g a with ⟨k, f, hk, -, e⟩ | ⟨x, -, hfresh, hx, -, e⟩
  · -- no value is new if the root has a node
    obtain ⟨k', hk', -⟩ := hnew
    rw [e] at hk'
    replace hk' : (g.values.insert a.root _).find? v = some k' := hk'
    rw [AssocMap.find?_insert] at hk'
    split at hk'
    · rename_i hav
      rw [← hav, hk] at hold
      cases hold
    · rw [hold] at hk'
      cases hk'
  · have hv : v = a.root := by
      obtain ⟨k', hk', -⟩ := id hnew
      rw [e] at hk'
      replace hk' : (g.values.insert a.root _).find? v = some k' := hk'
      rw [AssocMap.find?_insert] at hk'
      split at hk'
      · rename_i hav
        exact hav.symm
      · rw [hold] at hk'
        cases hk'
    subst hv
    refine ⟨ha, .inr ?_⟩
    rw [hnew.unique hat, e]
    show ((((g.addNode x).1.modify _ _).node _).kind = _ ∨
      (((g.addNode x).1.modify _ _).node _).kind = _) ∧
      (((g.addNode x).1.modify _ _).node _).value = _
    rw [node_modify_of_has (has_addNode g x), if_pos rfl, node_addNode_self]
    refine ⟨hx, ?_⟩
    rw [hfresh.value]
    rfl

theorem ensureReturn_evolves : Evolves P B g g.ensureReturn.1 ∧
    g.ensureReturn.1.returnNode = some g.ensureReturn.2 := by
  obtain ⟨hshape, hext⟩ := ensureReturn_extends hs.toShape
  refine ⟨.of_extends_values hs ⟨hshape, (ensureReturn_quiet g).pending.trans hs.pending⟩ hext
    (ensureReturn_quiet g).supplies ?_, ?_⟩
  · rcases ensureReturn_cases g with ⟨n, -, e⟩ | ⟨x, -, -, -, -, e⟩ <;> rw [e]
    rfl
  · rcases ensureReturn_cases g with ⟨n, hn, e⟩ | ⟨x, -, -, -, -, e⟩ <;> rw [e]
    exact hn

omit hs in
/-- A content as it is made. -/
abbrev freshContent (interior referenceOnly : Bool) : Node :=
  { kind := .content, interior, referenceOnly }

omit hs in
/-- The content of a node is there already, or it is new and spread over the web of the node. -/
theorem ensureContent_cases {interior referenceOnly : Bool} {c : NodeId} (hs : Shape g nobody)
    (hok : g.ensureContent n interior referenceOnly = .ok (g', c)) :
    (g.content? n = some c ∧ g' = g.modify c (·.mergeFlags interior referenceOnly)) ∨
      (g.target? n = none ∧ c = (g.addNode (freshContent interior referenceOnly)).2 ∧ ∃ g₁ V,
        Spreads (g.addNode (freshContent interior referenceOnly)).1 g₁ n c V ∧
          g' = (g₁.modify c (·.raise (g₁.node n).state)).copyUsePoints n c) := by
  obtain ⟨_, hn, hok⟩ := bind_ok.mp hok
  split at hok
  · rename_i hc
    cases hok
    exact .inl ⟨hc, rfl⟩
  · rename_i hc
    have hbare : g.target? n = none := by simpa [content?_eq] using hc
    obtain ⟨⟨g₁, d⟩, h₁, hok⟩ := bind_ok.mp hok
    cases hok
    obtain ⟨g₂, h₂, h₁⟩ := bind_ok.mp h₁
    cases h₁
    have hx := Node.fresh_content interior referenceOnly
    have hadd := SameEdges.addNode (g := g) hx
    obtain ⟨V, hV, -⟩ := spread_spec (hs.addNode hx).linked not_false not_false
      (hadd.has (require_ok.mp hn)) (by rw [hadd.target?, hbare]) h₂
    exact .inr ⟨hbare, rfl, g₁, V, hV, rfl⟩

/-- The content of a node is live. -/
theorem ensureContent_evolves {interior referenceOnly : Bool} {c : NodeId}
    (hn : (g.node n).merged = false)
    (hok : g.ensureContent n interior referenceOnly = .ok (g', c)) :
    Evolves P B g g' ∧ g'.Live c ∧ g'.content? n = some c := by
  obtain ⟨hshape, hext, hp, hv⟩ := ensureContent_extends hs.toShape hn hok
  have hs' : Settled g' := ⟨hshape, hp.trans hs.pending⟩
  have hc : g'.content? n = some c := by
    rcases ensureContent_cases hs.toShape hok with ⟨hc, rfl⟩ | ⟨-, hnew, g₁, V, hV, hg'⟩
    · rw [(SameEdges.modify g c).content? hs.forest]
      exact hc
    · have ht : g'.target? n = some c := by
        rw [hg', target?, copyUsePoints_field Node.pointsTo, node_modify_field Node.pointsTo]
        exact hV.target n (hV.covers n .refl)
      rw [content?_eq, ht, Option.map_some, hext.representative hs.forest, representative_of_root]
      rw [hnew, node_of_not_has (not_has_addNode g _)]
  exact ⟨.of_extends_values hs hs' hext (ensureContent_supplies hs.toShape hok) hv,
    hs'.live_content hc, hc⟩

/-- A defer edge, with all merges that it causes. -/
theorem deferTracked_evolves {f t k : NodeId} {changed : Bool}
    (ht : (g.node t).merged = false) (hok : g.deferTracked f t = .ok (g', k, changed)) :
    Evolves P B g g' ∧ k = g'.representative f ∧ g'.Tied f t := by
  obtain ⟨hs', hp', hk, ⟨ψ, hc⟩, htied⟩ := deferTracked_shape hs.toShape hs.pending ht hok
  exact ⟨.of_carries hs ⟨hs', hp'⟩ hc, hk, htied⟩

theorem defer_evolves {f t k : NodeId} (ht : (g.node t).merged = false)
    (hok : g.defer f t = .ok (g', k)) :
    Evolves P B g g' ∧ k = g'.representative f ∧ g'.Tied f t := by
  obtain ⟨⟨g₁, k₁, b⟩, h₁, hok⟩ := bind_ok.mp hok
  cases hok
  exact deferTracked_evolves hs ht h₁

/-- Binding a value to a node. -/
theorem bind_evolves (hP : P v) (hB : B v) (hok : g.bind v n = .ok g') : Evolves P B g g' := by
  obtain ⟨_, hn, hok⟩ := bind_ok.mp hok
  have hlive := hs.live_representative (require_ok.mp hn)
  split at hok
  · obtain ⟨⟨g₁, k⟩, h₁, hok⟩ := bind_ok.mp hok
    cases hok
    exact (defer_evolves hs hlive.2 h₁).1
  · rename_i hv
    cases hok
    refine .of_extends hs ⟨hs.toShape.mapValue hlive.1 hlive.2 hv, hs.pending⟩ (.mapValue hv)
      (SameEdges.mapValue g v _).supplies ?_
    intro w m hold hnew
    obtain ⟨k, hk, -⟩ := hnew
    replace hk : (g.values.insert v _).find? w = some k := hk
    rw [AssocMap.find?_insert] at hk
    split at hk
    · rename_i e
      rw [← e]
      exact ⟨hP, .inl hB⟩
    · rw [hold] at hk
      cases hk

end Escape.Graph
