import Escape.Proofs.Graph.Closed
import Escape.Proofs.Graph.Values

/-!
# Operations that only add nodes

Asking for the node of a value adds at most a node without edges. Asking for a content adds at most
nodes below the nodes that are there, and nothing that is new leads back to what is old. Such
operations do not touch the states of a graph that is closed, even if states are pushed along the
edges again.

- `Graph.Appends.propagate`: the old nodes of a closed graph keep their states.
-/

namespace Escape.Graph

variable {g g' g'' : Graph} {n m c : NodeId} {r v : ValueId} {s : Scope} {P : ValueId → Prop}

theorem Extends.at_old (he : Extends g g') (hf : Forest g) (h : g.At r n) : g'.At r n := by
  obtain ⟨m, hm, rfl⟩ := h
  obtain ⟨m', hm', hrep⟩ := he.values r m hm
  exact ⟨m', hm', by rw [he.representative hf, hrep]⟩

/-! ### Nodes without edges -/

/-- Nodes without edges were added, none of which escapes globally. Values and the returned value
may have got one of them. -/
structure Admits (g g' : Graph) : Prop extends SameEdges g g' where
  state : ∀ n, g.Has n → (g'.node n).state = (g.node n).state
  calm : ∀ n, ¬ g.Has n → (g'.node n).state ≠ .globalEscaping
  at_old : ∀ r n, g.At r n → g'.At r n
  at_new : ∀ r n, g'.At r n → g.At r n ∨ ¬ g.Has n
  return_old : ∀ n, g.returnNode = some n → g'.returnNode = some n
  return_new : ∀ n, g'.returnNode = some n → g.returnNode = some n ∨ ¬ g.Has n
  label : g'.label = g.label

namespace Admits

theorem refl (g : Graph) : Admits g g where
  toSameEdges := .refl g
  state _ _ := rfl
  calm n hn := by rw [node_of_not_has hn]; exact EscapeState.noConfusion
  at_old _ _ h := h
  at_new _ _ h := .inl h
  return_old _ h := h
  return_new _ h := .inl h
  label := rfl

theorem trans (h : Admits g g') (h' : Admits g' g'') : Admits g g'' where
  toSameEdges := h.toSameEdges.trans h'.toSameEdges
  state n hn := (h'.state n (h.has hn)).trans (h.state n hn)
  calm n hn := by
    by_cases hn' : g'.Has n
    · rw [h'.state n hn']
      exact h.calm n hn
    · exact h'.calm n hn'
  at_old r n hr := h'.at_old r n (h.at_old r n hr)
  at_new r n hr := by
    rcases h'.at_new r n hr with hr | hn
    · exact h.at_new r n hr
    · exact .inr fun hg => hn (h.has hg)
  return_old n hn := h'.return_old n (h.return_old n hn)
  return_new n hn := by
    rcases h'.return_new n hn with hn | hn
    · exact h.return_new n hn
    · exact .inr fun hg => hn (h.has hg)
  label := h'.label.trans h.label

/-- New nodes lead nowhere, so they do not disturb the states. -/
theorem closed (h : Admits g g') (hs : Settled g) (hc : Closed g) : Closed g' := by
  intro n hn m hm
  rw [h.merged] at hn
  rw [h.successors hs.forest] at hm
  rw [h.state n (has_of_mem_successors hm), h.state m (hs.has_of_successor hm)]
  exact hc n hn m hm

end Admits

theorem node_of_nodes (h : g'.nodes = g.nodes) (n : NodeId) : g'.node n = g.node n := by
  rw [node, node, h]

theorem SameEdges.at_iff (he : SameEdges g g') (hf : Forest g) (hv : g'.values = g.values) :
    g'.At r n ↔ g.At r n := by
  rw [At, At, hv]
  simp only [he.representative hf]

section

variable (hs : Settled g)
include hs

/-- The flags of a node change, and a value is mapped to what represents its node. -/
theorem remap_admits {k : NodeId} (hk : g.values.find? r = some k) {b : Bool}
    (hn : g'.nodes = (g.modify (g.representative k) (Node.mergeFlags false b)).nodes)
    (hv : g'.values = g.values.insert r (g.representative k)) (hr : g'.returnNode = g.returnNode)
    (hl : g'.label = g.label) : Admits g g' := by
  have he : SameEdges g g' :=
    (SameEdges.modify g _ (f := Node.mergeFlags false b) fun _ => rfl).trans (.of_nodes hn)
  have hrep := he.representative hs.forest
  have hfind (r' : ValueId) : g'.values.find? r' =
      if r = r' then some (g.representative k) else g.values.find? r' := by
    rw [hv, AssocMap.find?_insert]
  exact {
    toSameEdges := he
    state := fun n _ => by
      rw [node_of_nodes hn]
      exact node_modify_field (f := Node.mergeFlags false b) Node.state (fun _ => rfl) g _ n
    calm := fun n hno => by
      rw [node_of_nodes hn, node_of_not_has fun h => hno ((has_modify _).mp h)]
      exact EscapeState.noConfusion
    at_old := by
      rintro r' n ⟨m, hm, rfl⟩
      by_cases hrr : r = r'
      · rw [← hrr, hk] at hm
        cases hm
        exact ⟨_, by rw [hfind, if_pos hrr], by rw [hrep, hs.forest.representative_representative]⟩
      · exact ⟨m, by rw [hfind, if_neg hrr, hm], hrep m⟩
    at_new := by
      rintro r' n ⟨m, hm, rfl⟩
      rw [hfind] at hm
      rw [hrep]
      split at hm
      · rename_i hrr
        cases hm
        exact .inl ⟨k, hrr ▸ hk, (hs.forest.representative_representative k).symm⟩
      · exact .inl ⟨m, hm, rfl⟩
    return_old := fun n h => by rw [hr, h]
    return_new := fun n h => .inl (by rw [← hr, h])
    label := hl }

/-- A new node. -/
theorem addNode_admits {x : Node} (hx : x.Fresh) (hst : x.state ≠ .globalEscaping) :
    Admits g (g.addNode x).1 where
  toSameEdges := .addNode hx
  state n hn := by rw [node_addNode_of_lt hn]
  calm n hn := by
    rw [node_addNode]
    split
    · exact hst
    · rw [node_of_not_has hn]
      exact EscapeState.noConfusion
  at_old _ _ := (Extends.addNode hx).at_old hs.forest
  at_new r n := by
    rintro ⟨m, hm, hmn⟩
    rw [(SameEdges.addNode hx).representative hs.forest] at hmn
    exact .inl ⟨m, hm, hmn⟩
  return_old _ hn := hn
  return_new _ hn := .inl hn
  label := rfl

/-- The node of an anchor. -/
theorem enter_admits (a : Scope.Anchor) : Admits g (g.enter a).1 := by
  rcases enter_cases g a with ⟨k, f, hk, rfl, e⟩ | ⟨x, hk, hx, -, ⟨-, hst⟩, e⟩
  · rw [e]
    exact remap_admits hs hk rfl rfl rfl rfl
  · rw [e]
    have hadd := addNode_admits hs hx hst
    have hmap := SameEdges.mapValue (g.addNode x).1 a.root (g.addNode x).2
    have hrep := (hadd.toSameEdges.trans hmap).representative hs.forest
    have hstate (n : NodeId) : (((g.addNode x).1.mapValue a.root (g.addNode x).2).node n).state =
        ((g.addNode x).1.node n).state :=
      node_modify_field (f := fun y => { y with value := y.value <|> some a.root }) Node.state
        (fun _ => rfl) _ _ n
    exact {
      toSameEdges := hadd.toSameEdges.trans hmap
      state := fun n hn => (hstate n).trans (hadd.state n hn)
      calm := fun n hn => by rw [hstate]; exact hadd.calm n hn
      at_old := fun r n hr => Extends.at_old (g := (g.addNode x).1) (Extends.mapValue hk)
        (hadd.forest hs.forest) (hadd.at_old r n hr)
      at_new := by
        rintro r n ⟨m, hm, hmn⟩
        replace hm : (g.values.insert a.root (g.addNode x).2).find? r = some m := hm
        rw [hrep] at hmn
        rw [AssocMap.find?_insert] at hm
        split at hm
        · cases hm
          refine .inr ?_
          have hnew := not_has_addNode g x
          rw [← hmn, representative_of_root (by rw [node_of_not_has hnew])]
          exact hnew
        · exact .inl ⟨m, hm, hmn⟩
      return_old := fun _ hn => hn
      return_new := fun _ hn => .inl hn
      label := rfl }

/-- The node of a value. -/
theorem nodeFor_admits {n? : Option NodeId} (hok : g.nodeFor s v = .ok (g', n?)) : Admits g g' := by
  rcases nodeFor_ok hok with ⟨-, rfl, -⟩ | ⟨a, -, -, rfl, -⟩
  · exact .refl _
  · exact enter_admits hs a

/-- The node of the returned value. -/
theorem ensureReturn_admits : Admits g g.ensureReturn.1 := by
  rcases ensureReturn_cases g with ⟨k, -, e⟩ | ⟨x, hr, hx, -, ⟨-, hst⟩, e⟩
  · rw [e]
    exact .refl g
  · rw [e]
    have hadd := addNode_admits hs hx hst
    exact {
      toSameEdges := hadd.toSameEdges.trans (.of_nodes rfl)
      state := hadd.state
      calm := hadd.calm
      at_old := by
        intro r n h
        refine Iff.mpr ?_ (hadd.at_old r n h)
        exact SameEdges.at_iff (.of_nodes rfl) (hadd.forest hs.forest) rfl
      at_new := by
        intro r n h
        refine hadd.at_new r n (Iff.mp ?_ h)
        exact SameEdges.at_iff (.of_nodes rfl) (hadd.forest hs.forest) rfl
      return_old := fun n hn => by rw [hr] at hn; cases hn
      return_new := fun n hn => by cases hn; exact .inr (not_has_addNode g x)
      label := rfl }

end

/-! ### Contents -/

/-- Nodes were added, and some nodes got a new content. Nothing that is new leads to an old node. -/
structure Appends (g g' : Graph) : Prop where
  size_le : g.size ≤ g'.size
  kind : ∀ n, g.Has n → (g'.node n).kind = (g.node n).kind
  mergeTo : ∀ n, (g'.node n).mergeTo = (g.node n).mergeTo
  merged : ∀ n, (g'.node n).merged = (g.node n).merged
  defersTo : ∀ n, (g'.node n).defersTo = (g.node n).defersTo
  state : ∀ n, g.Has n → (g'.node n).state = (g.node n).state
  referenceOnly : ∀ n, g.Has n → (g'.node n).referenceOnly = true → (g.node n).referenceOnly = true
  kept : ∀ n c, g.target? n = some c → g'.target? n = some c
  gained : ∀ n c, g.target? n = none → g'.target? n = some c → ¬ g.Has c
  at_old : ∀ r n, g.At r n → g'.At r n
  returnNode : g'.returnNode = g.returnNode
  label : g'.label = g.label

namespace Appends

theorem refl (g : Graph) : Appends g g :=
  ⟨Nat.le_refl _, fun _ _ => rfl, fun _ => rfl, fun _ => rfl, fun _ => rfl, fun _ _ => rfl,
    fun _ _ h => h, fun _ _ h => h, fun _ _ h h' => (nomatch h.symm.trans h'),
    fun _ _ h => h, rfl, rfl⟩

section

variable (h : Appends g g')
include h

theorem has (hn : g.Has n) : g'.Has n := Nat.lt_of_lt_of_le hn h.size_le

theorem trans (h' : Appends g' g'') : Appends g g'' where
  size_le := Nat.le_trans h.size_le h'.size_le
  kind n hn := (h'.kind n (h.has hn)).trans (h.kind n hn)
  mergeTo n := (h'.mergeTo n).trans (h.mergeTo n)
  merged n := (h'.merged n).trans (h.merged n)
  defersTo n := (h'.defersTo n).trans (h.defersTo n)
  state n hn := (h'.state n (h.has hn)).trans (h.state n hn)
  referenceOnly n hn hr := h.referenceOnly n hn (h'.referenceOnly n (h.has hn) hr)
  kept n c hc := h'.kept n c (h.kept n c hc)
  gained n c hnone hc := by
    cases ht : g'.target? n with
    | none => exact fun hg => h'.gained n c ht hc (h.has hg)
    | some d =>
      cases (h'.kept n d ht).symm.trans hc
      exact h.gained n c hnone ht
  at_old r n hr := h'.at_old r n (h.at_old r n hr)
  returnNode := h'.returnNode.trans h.returnNode
  label := h'.label.trans h.label

theorem valid : g'.valid = g.valid := (congrArg (·.2.2) h.label :)

theorem representative (hf : Forest g) (n : NodeId) : g'.representative n = g.representative n :=
  hf.representative_congr h.mergeTo n

theorem content? (hf : Forest g) (hc : g.content? n = some c) : g'.content? n = some c := by
  rw [content?_eq, Option.map_eq_some_iff] at hc ⊢
  obtain ⟨t, ht, rfl⟩ := hc
  exact ⟨t, h.kept n t ht, h.representative hf t⟩

/-- What is new leads nowhere that is old. -/
theorem successor_of_has (hs : Settled g) (hm : m ∈ g'.successors n) (hold : g.Has m) :
    m ∈ g.successors n := by
  rw [successors, List.mem_append, Option.mem_toList] at hm ⊢
  rcases hm with hc | hd
  · rw [content?_eq, Option.map_eq_some_iff] at hc
    obtain ⟨t, ht, rfl⟩ := hc
    rw [h.representative hs.forest] at hold ⊢
    cases hg : g.target? n with
    | some d =>
      cases (h.kept n d hg).symm.trans ht
      exact .inl (by rw [content?_eq, hg]; rfl)
    | none =>
      -- a content that is new represents itself
      have hnew := h.gained n t hg ht
      rw [representative_of_root (by rw [node_of_not_has hnew])] at hold
      exact absurd hold hnew
  · rw [h.defersTo] at hd
    exact .inr hd

end

theorem of_sameEdges (he : SameEdges g g')
    (hst : ∀ n, g.Has n → (g'.node n).state = (g.node n).state)
    (href : ∀ n, g.Has n → (g'.node n).referenceOnly = true → (g.node n).referenceOnly = true)
    (hat : ∀ r n, g.At r n → g'.At r n) (hret : g'.returnNode = g.returnNode)
    (hl : g'.label = g.label) : Appends g g' := by
  refine { he with
    state := hst
    referenceOnly := href
    kept := fun n c hc => by rw [he.target?, hc]
    gained := fun n c hnone hc => ?_
    at_old := hat
    returnNode := hret
    label := hl }
  rw [he.target?, hnone] at hc
  cases hc

end Appends

theorem referenceOnly_of_mergeFlags {x : Node} {interior referenceOnly : Bool}
    (h : (x.mergeFlags interior referenceOnly).referenceOnly = true) : x.referenceOnly = true :=
  (Bool.and_eq_true_iff.mp h).1

section

variable (hs : Settled g)
include hs

/-- The flags of a node change. -/
theorem mergeFlags_appends (n : NodeId) (interior referenceOnly : Bool) :
    Appends g (g.modify n (·.mergeFlags interior referenceOnly)) := by
  have he : SameEdges g (g.modify n (·.mergeFlags interior referenceOnly)) :=
    .modify g n
  refine .of_sameEdges he ?_ ?_ (fun r m => (he.at_iff hs.forest rfl).mpr) rfl rfl
  · exact fun m _ => node_modify_field Node.state ..
  · intro m _ hm
    rw [node_modify] at hm
    split at hm
    · exact referenceOnly_of_mergeFlags hm
    · exact hm

/-- The use points of a node grow. -/
theorem addUsePoints_appends (n : NodeId) (u : UsePointSet) :
    Appends g (g.modify n (·.addUsePoints u)) := by
  have he : SameEdges g (g.modify n (·.addUsePoints u)) := .modify g n
  refine .of_sameEdges he ?_ ?_ (fun r m => (he.at_iff hs.forest rfl).mpr) rfl rfl
  · exact fun m _ => node_modify_field Node.state ..
  · intro m _ hm
    rwa [node_modify_field Node.referenceOnly] at hm

theorem enter_appends (a : Scope.Anchor) : Appends g (g.enter a).1 := by
  have had := enter_admits hs a
  refine .of_sameEdges had.toSameEdges had.state (fun n hn href => ?_) had.at_old ?_ had.label
  · rcases enter_cases g a with ⟨k, f, -, rfl, e⟩ | ⟨x, -, -, -, -, e⟩
    · rw [e] at href
      replace href : ((g.modify _ _).node n).referenceOnly = true := href
      rw [node_modify] at href
      split at href
      · exact referenceOnly_of_mergeFlags href
      · exact href
    · rw [e] at href
      replace href : (((g.addNode x).1.modify _ _).node n).referenceOnly = true := href
      rwa [node_modify_field Node.referenceOnly, node_addNode_of_lt hn] at href
  · rcases enter_cases g a with ⟨k, f, -, -, e⟩ | ⟨x, -, -, -, -, e⟩ <;> rw [e] <;> rfl

theorem nodeFor_appends {n? : Option NodeId} (hok : g.nodeFor s v = .ok (g', n?)) :
    Appends g g' := by
  rcases nodeFor_ok hok with ⟨-, rfl, -⟩ | ⟨a, -, -, rfl, -⟩
  · exact .refl _
  · exact enter_appends hs a

/-- A content that is new belongs to nodes that had none. -/
theorem ensureContent_appends {interior referenceOnly : Bool}
    (hn : (g.node n).merged = false) (hok :
      g.ensureContent n interior referenceOnly = .ok (g', c)) :
    Appends g g' := by
  obtain ⟨-, he, -, hv⟩ := ensureContent_extends hs.toShape hn hok
  rcases ensureContent_cases hs.toShape hok with ⟨-, rfl⟩ | ⟨-, hc, g₁, V, hV, hg'⟩
  · exact mergeFlags_appends hs c interior referenceOnly
  · have hx := Node.fresh_content interior referenceOnly
    have hadd := SameEdges.addNode (g := g) hx
    have hnew : ¬ g.Has c := hc ▸ not_has_addNode g _
    -- after the content was spread only the content itself changes
    have hlast {α : Type} (p : Node → α) (hp : ∀ x st, p (x.raise st) = p x)
        (hu : ∀ x u, p (x.addUsePoints u) = p x) (m : NodeId) : p (g'.node m) = p (g₁.node m) := by
      rw [hg', copyUsePoints_field p hu, node_modify_field p fun x => hp x _]
    have htarget (m : NodeId) : g'.target? m = g₁.target? m := by
      rw [target?, target?, hlast Node.pointsTo (fun _ _ => rfl) fun _ _ => rfl]
    refine {
      size_le := he.size_le, kind := he.kind, mergeTo := he.mergeTo, merged := he.merged
      defersTo := fun m => ?_, state := fun m hm => ?_, referenceOnly := fun m hm href => ?_
      kept := fun m d hd => ?_, gained := fun m d hnone hd => ?_
      at_old := fun r m => he.at_old hs.forest, returnNode := ?_, label :=
      label_of_header he.header }
    · rw [hlast Node.defersTo (fun _ _ => rfl) fun _ _ => rfl, hV.defersTo, hadd.defersTo]
    · have hne : m ≠ c := fun e => hnew (e ▸ hm)
      rw [hg', copyUsePoints_field Node.state, node_modify_of_ne hne, hV.state,
        node_addNode_of_lt hm]
    · rw [hlast Node.referenceOnly (fun _ _ => rfl) fun _ _ => rfl,
        hV.field Node.referenceOnly, node_addNode_of_lt hm] at href
      exact href
    · have hd' : (g.addNode (freshContent interior referenceOnly)).1.target? m = some d := by
        rw [hadd.target?, hd]
      rw [htarget, hV.toFills.target?_of_isSome (by rw [hd']; rfl), hd']
    · rw [htarget] at hd
      by_cases hm : V m
      · cases (hV.target m hm).symm.trans hd
        exact hnew
      · rw [target?, hV.pointsTo_of_not m hm, ← target?, hadd.target?, hnone] at hd
        cases hd
    · rw [hg', show (((g₁.modify c _).copyUsePoints n c).returnNode) = g₁.returnNode from ?_]
      · exact hV.returnNode
      · unfold copyUsePoints
        split <;> rfl

/-- The object of a reference, with its fields. -/
theorem ensureObject_appends {fields : Checked Bool} (hn : (g.node n).merged = false)
    (hok : g.ensureObject n fields = .ok (g', c)) : Appends g g' := by
  obtain ⟨g₁, h₁, hrest⟩ := ensureObject_cases hok
  have happ := ensureContent_appends hs hn h₁
  rcases hrest with ⟨-, rfl⟩ | ⟨-, b, d, h₂⟩
  · exact happ
  · obtain ⟨hev, hlive, -⟩ := ensureContent_evolves (P := anything) (B := anything) hs hn h₁
    exact happ.trans (ensureContent_appends hev.settled hlive.2 h₂)

/-- The content of a value. -/
theorem contentFor_appends {c? : Option NodeId}
    (hok : g.contentFor s v = .ok (g', c?)) : Appends g g' := by
  rcases contentFor_cases hok with ⟨-, h₁⟩ | ⟨g₁, n, c, -, h₁, hways⟩
  · exact nodeFor_appends hs h₁
  · obtain ⟨hev, hlive⟩ := nodeFor_evolves (P := anything) (B := anything) (roots_anything s) hs h₁
    have hn := (hlive n rfl).1.2
    refine (nodeFor_appends hs h₁).trans ?_
    rcases hways with ⟨-, b, h₂⟩ | ⟨-, -, fields, h₂⟩ | ⟨-, -, h₂⟩
    · exact ensureContent_appends hev.settled hn h₂
    · exact ensureObject_appends hev.settled hn h₂
    · exact ensureContent_appends hev.settled hn h₂

end

/-- What was there is still there. -/
theorem Appends.follows (h : Appends g g') (hs : Settled g) : Follows g g' := by
  have hrep := h.representative hs.forest
  refine {
    size_le := h.size_le, kind := h.kind, merge := fun n => ?_, state := fun n => ?_
    tied := fun n m ht => ?_, values := fun r n hr => ?_
    returnNode := fun n hn => by rw [h.returnNode, hn]
    returned := fun n hn => .inl (by rw [← h.returnNode, hn]), label := h.label }
  · rw [hrep, hrep, hs.forest.representative_representative]
  · rw [hrep]
    by_cases hn : g.Has (g.representative n)
    · rw [h.state _ hn]
      exact EscapeState.le_refl _
    · rw [node_of_not_has hn]
      exact Nat.zero_le _
  · rw [Tied, hrep, hrep, Defers, h.defersTo]
    exact ht
  · rw [hrep, hs.representative_of_live (hr.live hs).2]
    exact h.at_old r n hr

/-- From `g` to `g'` only nodes were added, nothing is pending in the end, and all values that have
entered the graph are in `P`. -/
structure Deepens (P : ValueId → Prop) (g g' : Graph) : Prop extends Appends g g' where
  settled : Settled g'
  entered : ∀ r n, g'.At r n → P r ∨ ∃ m, g.At r m

theorem Deepens.refl (hs : Settled g) : Deepens P g g := ⟨.refl g, hs, fun _ n h => .inr ⟨n, h⟩⟩

theorem Deepens.trans (h : Deepens P g g') (h' : Deepens P g' g'') : Deepens P g g'' where
  toAppends := h.toAppends.trans h'.toAppends
  settled := h'.settled
  entered r n hr := by
    rcases h'.entered r n hr with hp | ⟨m, hm⟩
    · exact .inl hp
    · exact h.entered r m hm

theorem Deepens.forward (h : Deepens P g g') (hs : Settled g) : Forward g g' :=
  ⟨h.settled, h.follows hs⟩

theorem contentFor_deepens (hP : s.Roots P) (hs : Settled g) {c? : Option NodeId}
    (hok : g.contentFor s v = .ok (g', c?)) : Deepens P g g' := by
  have hev := (contentFor_evolves (P := fun r => P r ∨ ∃ m, g.At r m) (B := anything)
    (fun v a ha => .inl (hP v a ha)) hs hok).1
  exact ⟨contentFor_appends hs hok, hev.settled,
    fun r n hr => (hev.keyed (fun r n hr => ⟨.inr ⟨n, hr⟩, .inl trivial⟩) r n hr).1⟩

/-- A change that maps no value. -/
theorem Deepens.of_values (ha : Appends g g') (hs' : Settled g')
    (hv : g'.values = g.values) : Deepens P g g' where
  toAppends := ha
  settled := hs'
  entered r n hr := by
    obtain ⟨k, hk, -⟩ := hr
    exact .inr ⟨g.representative k, k, by rw [← hv]; exact hk, rfl⟩

/-! ### Use points -/

theorem addUsePoints_deepens (hs : Settled g) (n : NodeId) (u : UsePointSet) :
    Deepens P g (g.modify n (·.addUsePoints u)) :=
  .of_values (addUsePoints_appends hs n u)
    ⟨hs.toShape.modify (f := fun x => x.addUsePoints u) (fun _ => by rfl) n, hs.pending⟩ rfl

theorem addUsePoint_deepens (hs : Settled g) (n : NodeId) (i : InstId) :
    Deepens P g (g.addUsePoint n i).1 := by
  unfold addUsePoint
  dsimp only
  split
  · exact .refl hs
  · obtain ⟨hn, hv, hr, hp, hl⟩ := numberUser_nodes g i
    have hs' : Settled (g.numberUser i).1 := hs.of_nodes hn hv hr hp
    have he : SameEdges g (g.numberUser i).1 := .of_nodes hn
    refine (Deepens.of_values (.of_sameEdges he (fun m _ => ?_) (fun m _ href => ?_)
      (fun r m => (he.at_iff hs.forest hv).mpr) hr hl) hs' hv).trans (addUsePoints_deepens hs' _ _)
    · rw [node_of_nodes hn]
    · rwa [node_of_nodes hn] at href

theorem useOperands_deepens (hP : s.Roots P) {i : InstId} (vs : List ValueId)
    (number : Option Nat) (g : Graph) (hs : Settled g)
    (hok : useOperands s i vs number g = .ok g') : Deepens P g g' := by
  induction vs generalizing number g with
  | nil =>
    cases hok
    exact .refl hs
  | cons v rest ih =>
    obtain ⟨⟨g₁, c?⟩, h₁, hok⟩ := bind_ok.mp hok
    have hd₁ := contentFor_deepens hP hs h₁
    cases c? with
    | none => exact hd₁.trans (ih number g₁ hd₁.settled hok)
    | some c =>
      cases number with
      | none =>
        have hd₂ := hd₁.trans (addUsePoint_deepens hd₁.settled c i)
        exact hd₂.trans (ih _ _ hd₂.settled hok)
      | some u =>
        have hd₂ := hd₁.trans (addUsePoints_deepens hd₁.settled c ⟨[u]⟩)
        exact hd₂.trans (ih _ _ hd₂.settled hok)

theorem useInst_deepens (hP : s.Roots P) {i : InstId} (hs : Settled g)
    (hok : useInst s g i = .ok g') : Deepens P g g' := by
  obtain ⟨inst, -, hok⟩ := bind_ok.mp hok
  dsimp only at hok
  split at hok
  · exact useOperands_deepens hP _ _ g hs hok
  · cases hok
    exact .refl hs

/-- What pushing the use points of one node does. -/
theorem pushUsePoints_cases (acc : Graph × Bool) (n : NodeId) :
    (pushUsePoints acc n = acc ∧
      ((acc.1.node n).merged = false → ∀ c, acc.1.content? n = some c → c = n)) ∨
      ∃ c, acc.1.content? n = some c ∧ pushUsePoints acc n =
        (acc.1.modify c (·.addUsePoints (acc.1.node n).usePoints),
          acc.2 || ((acc.1.node c).usePoints.union (acc.1.node n).usePoints).2) := by
  unfold pushUsePoints
  dsimp only
  split
  · rename_i hm
    exact .inl ⟨rfl, fun h => by rw [h] at hm; cases hm⟩
  · split
    · rename_i c hc
      split
      · rename_i hcn
        exact .inl ⟨rfl, fun _ d hd => (Option.some.inj (hd.symm.trans hc)).trans hcn⟩
      · rename_i hcn
        exact .inr ⟨c, hc, by rw [copyUsePoints, if_neg (Ne.symm hcn)]⟩
    · rename_i hc
      exact .inl ⟨rfl, fun _ d hd => by rw [hc] at hd; cases hd⟩

theorem pushUsePoints_deepens {acc : Graph × Bool} (hs : Settled acc.1) (n : NodeId) :
    Deepens P acc.1 (pushUsePoints acc n).1 := by
  rcases pushUsePoints_cases acc n with ⟨e, -⟩ | ⟨c, -, e⟩
  · rw [e]
    exact .refl hs
  · rw [e]
    exact addUsePoints_deepens hs c _

/-- What pushing the use points of a node on keeps is kept by all sweeps. -/
theorem propagateUsePoints_induct {Q : Graph → Prop}
    (step : ∀ (acc : Graph × Bool) (n : NodeId), Q acc.1 → Q (pushUsePoints acc n).1) :
    ∀ (bound : Nat) {g : Graph}, Q g → Q (propagateUsePoints bound g)
  | 0, _, h => h
  | bound + 1, g, h => by
    have hsweep : Q (g.nodeIds.foldl pushUsePoints (g, false)).1 :=
      List.foldlRecOn (motive := fun acc : Graph × Bool => Q acc.1) _ _ h
        fun acc hacc n _ => step acc n hacc
    unfold propagateUsePoints
    dsimp only
    split
    · exact propagateUsePoints_induct step bound hsweep
    · exact hsweep

theorem propagateUsePoints_deepens (bound : Nat) (hs : Settled g) :
    Deepens P g (propagateUsePoints bound g) :=
  propagateUsePoints_induct (Q := Deepens P g)
    (fun _ n h => h.trans (pushUsePoints_deepens h.settled n)) bound (.refl hs)

/-- The steps of working out use points. -/
theorem computeUsePoints_ok {blocks : List BlockId} (hok : g.computeUsePoints s blocks = .ok g') :
    g.nodes.all (·.usePoints.isEmpty) = true ∧ ∃ insts g₁, s.func.instsOf blocks = .ok insts ∧
      insts.foldlM (useInst s) g = .ok g₁ ∧
      g' = propagateUsePoints (g₁.size * g₁.users.size + 1) g₁ := by
  unfold computeUsePoints at hok
  split at hok
  · cases hok
  · rename_i hall
    obtain ⟨insts, hinsts, hok⟩ := bind_ok.mp hok
    obtain ⟨g₁, h₁, hok⟩ := bind_ok.mp hok
    cases hok
    exact ⟨by simpa using hall, insts, g₁, hinsts, h₁, rfl⟩

theorem computeUsePoints_deepens (hP : s.Roots P) (hs : Settled g) {blocks : List BlockId}
    (hok : g.computeUsePoints s blocks = .ok g') : Deepens P g g' := by
  obtain ⟨-, insts, g₁, -, h₁, rfl⟩ := computeUsePoints_ok hok
  have hd : Deepens P g g₁ := foldlM_of_ok (P := fun _ k => Deepens P g k)
    (fun _ i _ k k' _ hk hstep => hk.trans (useInst_deepens hP hk.settled hstep)) (.refl hs) h₁
  exact hd.trans (propagateUsePoints_deepens _ hd.settled)

/-! ### States of what is old -/

/-- From `g'` to `h` states were raised, but not those of the nodes of `g`. -/
structure Spares (g g' h : Graph) : Prop extends Raises g' h where
  spared : ∀ n, g.Has n → (h.node n).state = (g.node n).state

theorem Spares.modify {h : Graph} {st : EscapeState} (hh : Spares g g' h)
    (hle : g.Has m → st ≤ (g.node m).state) : Spares g g' (h.modify m (·.raise st)) where
  toRaises := hh.toRaises.trans (modify_raises h m st)
  spared n hn := by
    rw [← hh.spared n hn, node_modify]
    split
    · rename_i hm
      obtain ⟨rfl, -⟩ := hm
      refine EscapeState.join_eq_left_iff.mpr ?_
      rw [hh.spared n hn]
      exact hle hn
    · rfl

/-- An old node pushes nothing to an old node, and a new node only to new ones. -/
theorem Spares.pushState {acc : Graph × Bool} (hh : Spares g g' acc.1) (h : Appends g g')
    (hs : Settled g) (hs' : Settled g') (hc : Closed g) (n : NodeId) :
    Spares g g' (pushState acc n).1 := by
  cases hm : (acc.1.node n).merged with
  | true => rwa [pushState_of_merged hm]
  | false =>
    rw [pushState_of_live hm]
    refine List.foldlRecOn (motive := fun a : Graph × Bool => Spares g g' a.1) _ _ hh
      fun a ha m hsucc => ?_
    refine ha.modify fun hold => ?_
    rw [hh.sameEdges.successors hs'.forest] at hsucc
    have hsucc' := h.successor_of_has hs hsucc hold
    have hn : g.Has n := by
      by_contra hno
      simp [successors, Graph.content?, node_of_not_has hno, Pointee.target?] at hsucc'
    rw [hh.spared n hn]
    refine hc n ?_ m hsucc'
    rw [← h.merged, ← hh.sameEdges.merged, hm]

/-- Pushing states to the end changes those of new nodes only, if the old ones were closed. -/
theorem Appends.propagate (h : Appends g g') (hs : Settled g) (hs' : Settled g') (hc : Closed g) :
    Appends g g'.propagate.1 := by
  have hk : Spares g g' g'.propagate.1 :=
    propagateUpTo_induct (fun _ n hh => hh.pushState h hs hs' hc n) _ ⟨.refl g', h.state⟩
  have he := hk.sameEdges
  exact {
    size_le := Nat.le_trans h.size_le he.size_le
    kind := fun n hn => (he.kind n (h.has hn)).trans (h.kind n hn)
    mergeTo := fun n => (he.mergeTo n).trans (h.mergeTo n)
    merged := fun n => (he.merged n).trans (h.merged n)
    defersTo := fun n => (he.defersTo n).trans (h.defersTo n)
    state := hk.spared
    referenceOnly := fun n hn href => h.referenceOnly n hn (by
      rwa [hk.field Node.referenceOnly] at href)
    kept := fun n c hn => by rw [he.target?]; exact h.kept n c hn
    gained := fun n c hnone hn => h.gained n c hnone (by rw [← he.target?]; exact hn)
    at_old := fun r n hr => (he.at_iff hs'.forest hk.values).mpr (h.at_old r n hr)
    returnNode := hk.returnNode.trans h.returnNode
    label := (label_of_header hk.header).trans h.label }

end Escape.Graph
