import Escape.Graph.UsePoint
import Escape.Proofs.Graph.Settle

/-!
# Operations without merges

Most operations add nodes, edges or facts about nodes, and merge nothing. They keep the shape of a
graph, and every node stays where it is.

- `Shape.addNode`, `Shape.mapValue`, `Shape.remapValue`, `Shape.forgetValue`, `Shape.spread`,
  `Shape.addDefer`: single operations.
- `Graph.deferTracked_shape`: a defer edge with all merges that it causes.
-/

namespace Escape

/-- A node without its value, its state, its flags and its use points. -/
def Node.links (x : Node) : Node := { x.frame with value := none }

/-- A node as it is made: without value, edges and use points. -/
structure Node.Fresh (x : Node) : Prop where
  value : x.value = none
  pointsTo : x.pointsTo = .none
  defersTo : x.defersTo = []
  preds : x.preds = []
  usePoints : x.usePoints = {}
  mergeTo : x.mergeTo = none
  merged : x.merged = false

namespace Graph

variable {g g' g'' : Graph} {n m x : NodeId} {v : ValueId} {pend : NodeId → Prop}
  {interior referenceOnly : Bool} {c : NodeId}

/-! ### Graphs with the same edges -/

/-- The graph `g'` has the edges and the merge links of `g`. It may have more nodes. -/
structure SameEdges (g g' : Graph) : Prop where
  size_le : g.size ≤ g'.size
  kind : ∀ n, g.Has n → (g'.node n).kind = (g.node n).kind
  pointsTo : ∀ n, (g'.node n).pointsTo = (g.node n).pointsTo
  defersTo : ∀ n, (g'.node n).defersTo = (g.node n).defersTo
  preds : ∀ n, (g'.node n).preds = (g.node n).preds
  mergeTo : ∀ n, (g'.node n).mergeTo = (g.node n).mergeTo
  merged : ∀ n, (g'.node n).merged = (g.node n).merged

namespace SameEdges

theorem refl (g : Graph) : SameEdges g g :=
  ⟨Nat.le_refl _, fun _ _ => rfl, fun _ => rfl, fun _ => rfl, fun _ => rfl,
    fun _ => rfl, fun _ => rfl⟩

theorem trans (h : SameEdges g g') (h' : SameEdges g' g'') : SameEdges g g'' where
  size_le := Nat.le_trans h.size_le h'.size_le
  kind n hn := (h'.kind n (Nat.lt_of_lt_of_le hn h.size_le)).trans (h.kind n hn)
  pointsTo n := (h'.pointsTo n).trans (h.pointsTo n)
  defersTo n := (h'.defersTo n).trans (h.defersTo n)
  preds n := (h'.preds n).trans (h.preds n)
  mergeTo n := (h'.mergeTo n).trans (h.mergeTo n)
  merged n := (h'.merged n).trans (h.merged n)

/-- Values, states, flags and use points are no edges. -/
theorem of_links (hs : g'.size = g.size) (h : ∀ n, (g'.node n).links = (g.node n).links) :
    SameEdges g g' where
  size_le := Nat.le_of_eq hs.symm
  kind n _ := (congrArg Node.kind (h n) :)
  pointsTo n := (congrArg Node.pointsTo (h n) :)
  defersTo n := (congrArg Node.defersTo (h n) :)
  preds n := (congrArg Node.preds (h n) :)
  mergeTo n := (congrArg Node.mergeTo (h n) :)
  merged n := (congrArg Node.merged (h n) :)

theorem of_nodes (h : g'.nodes = g.nodes) : SameEdges g g' :=
  of_links (by rw [size, h, ← size]) fun n => by rw [node, h, ← node]

theorem modify (g : Graph) (n : NodeId) {f : Node → Node}
    (h : ∀ x, (f x).links = x.links := by intros; rfl) : SameEdges g (g.modify n f) :=
  of_links (size_modify g n f) (node_modify_field Node.links h g n)

variable (h : SameEdges g g')
include h

theorem has (hn : g.Has n) : g'.Has n := Nat.lt_of_lt_of_le hn h.size_le

theorem forest (hf : Forest g) : Forest g' := hf.congr h.size_le h.mergeTo

theorem representative (hf : Forest g) (n : NodeId) : g'.representative n = g.representative n :=
  hf.representative_congr h.mergeTo n

theorem target? (n : NodeId) : g'.target? n = g.target? n := by
  rw [Graph.target?, h.pointsTo, ← Graph.target?]

theorem content? (hf : Forest g) (n : NodeId) : g'.content? n = g.content? n := by
  rw [content?_eq, content?_eq, h.target?]
  exact congrArg (Option.map · _) (funext (h.representative hf))

theorem hasEdge_iff : g'.HasEdge n ↔ g.HasEdge n := by
  rw [HasEdge, h.pointsTo, ← HasEdge]

theorem defers_iff : g'.Defers n m ↔ g.Defers n m := by
  rw [Defers, h.defersTo, ← Defers]

theorem joined_iff : g'.Joined n m ↔ g.Joined n m := by
  rw [Joined, h.defers_iff, h.defers_iff, ← Joined]

theorem supplies : Supplies g g' id := .of_eq h.pointsTo h.defersTo

end SameEdges

/-- The shape is a matter of edges and of values. -/
theorem Shape.sameEdges (h : Shape g pend) (he : SameEdges g g')
    (htomb : ∀ n, (g.node n).merged = true → (g'.node n).value = none)
    (hmap : ∀ n v, (g'.node n).value = some v →
      ∃ m, g'.values.find? v = some m ∧ g.representative m = g.representative n)
    (hval : ∀ v n, g'.values.find? v = some n → g'.Has n)
    (hret : ∀ n, g'.returnNode = some n → g'.Has n) : Shape g' pend where
  linked := h.linked.congr he.pointsTo he.defersTo he.preds
  forest := he.forest h.forest
  waits n := by rw [he.merged, he.mergeTo]; exact h.waits n
  tomb_links n := by rw [he.merged, he.mergeTo]; exact h.tomb_links n
  tomb_pointsTo n := by rw [he.merged, he.pointsTo]; exact h.tomb_pointsTo n
  tomb_defersTo n := by rw [he.merged, he.defersTo]; exact h.tomb_defersTo n
  tomb_content n hn := by
    rw [he.merged] at hn
    have hc := h.tomb_content n hn
    rw [Node.isContent, he.kind n (has_of_isContent hc)]
    exact hc
  tomb_value n hn := htomb n (by rwa [he.merged] at hn)
  defers_live n m hd := by
    rw [he.merged]
    exact h.defers_live n m (he.defers_iff.mp hd)
  target_has n c hc := by
    rw [he.target?] at hc
    exact he.has (h.target_has n c hc)
  value_mapped n v hv := by
    obtain ⟨m, hm, hr⟩ := hmap n v hv
    exact ⟨m, hm, by rw [he.representative h.forest, he.representative h.forest, hr]⟩
  values_has := hval
  return_has := hret

/-! ### Graphs that say more -/

/-- The graph `g'` has the nodes, links and defer edges of `g`, and states have not fallen. -/
structure Extends (g g' : Graph) : Prop where
  size_le : g.size ≤ g'.size
  kind : ∀ n, g.Has n → (g'.node n).kind = (g.node n).kind
  mergeTo : ∀ n, (g'.node n).mergeTo = (g.node n).mergeTo
  merged : ∀ n, (g'.node n).merged = (g.node n).merged
  state : ∀ n, g.Has n → (g.node n).state ≤ (g'.node n).state
  defers : ∀ n m, g.Defers n m → g'.Defers n m
  values : ∀ v n, g.values.find? v = some n →
    ∃ n', g'.values.find? v = some n' ∧ g.representative n' = g.representative n
  named : ∀ n v, g.Has n → (g.node n).value = some v → (g'.node n).value = some v
  returnNode : ∀ n, g.returnNode = some n → g'.returnNode = some n
  returned : ∀ n, g'.returnNode = some n → g.returnNode = some n ∨ g'.Has n ∧
    (g'.node n).kind = .returned
  header : g'.header = g.header

namespace Extends

theorem refl (g : Graph) : Extends g g :=
  ⟨Nat.le_refl _, fun _ _ => rfl, fun _ => rfl, fun _ => rfl, fun _ _ => EscapeState.le_refl _,
    fun _ _ h => h, fun _ n h => ⟨n, h, rfl⟩, fun _ _ _ h => h, fun _ h => h, fun _ h => .inl h,
    rfl⟩

theorem has (h : Extends g g') (hn : g.Has n) : g'.Has n := Nat.lt_of_lt_of_le hn h.size_le

theorem representative (h : Extends g g') (hf : Forest g) (n : NodeId) :
    g'.representative n = g.representative n :=
  hf.representative_congr h.mergeTo n

theorem trans (h : Extends g g') (h' : Extends g' g'') (hf : Forest g) : Extends g g'' where
  size_le := Nat.le_trans h.size_le h'.size_le
  kind n hn := (h'.kind n (h.has hn)).trans (h.kind n hn)
  mergeTo n := (h'.mergeTo n).trans (h.mergeTo n)
  merged n := (h'.merged n).trans (h.merged n)
  state n hn := EscapeState.le_trans (h.state n hn) (h'.state n (h.has hn))
  defers n m hd := h'.defers n m (h.defers n m hd)
  values v n hv := by
    obtain ⟨n₁, hv₁, hr₁⟩ := h.values v n hv
    obtain ⟨n₂, hv₂, hr₂⟩ := h'.values v n₁ hv₁
    rw [h.representative hf, h.representative hf] at hr₂
    exact ⟨n₂, hv₂, hr₂.trans hr₁⟩
  named n v hn hv := h'.named n v (h.has hn) (h.named n v hn hv)
  returnNode n hr := h'.returnNode n (h.returnNode n hr)
  returned n hr := by
    rcases h'.returned n hr with hr' | hnew
    · refine (h.returned n hr').imp_right fun ⟨hn, hk⟩ => ⟨h'.has hn, ?_⟩
      rw [h'.kind n hn, hk]
    · exact .inr hnew
  header := h'.header.trans h.header

/-- Every node stays where it is. -/
theorem conveys (h : Extends g g') (hf : Forest g)
    (hk : ∀ v, (g'.values.find? v).isSome → (g.values.find? v).isSome) : Conveys g g' id where
  size_le := h.size_le
  kind := h.kind
  merge n _ := by rw [h.representative hf, h.representative hf, hf.representative_representative]
  has _ hn := h.has hn
  live n _ hn := by rw [id, h.merged]; exact hn
  represents _ _ := rfl
  fixed _ _ _ := rfl
  state := h.state
  defers n m hd := .inr (h.defers n m hd)
  values v n hv := by
    obtain ⟨n', hv', hr⟩ := h.values v n hv
    exact ⟨n', hv', by rw [h.representative hf, h.representative hf, hr]⟩
  keys := hk
  named n v hn _ hv := h.named n v hn hv
  returnNode := h.returnNode
  returned := h.returned
  header := h.header

theorem of_sameEdges (he : SameEdges g g')
    (hs : ∀ n, g.Has n → (g.node n).state ≤ (g'.node n).state)
    (hv : ∀ v n, g.values.find? v = some n →
      ∃ n', g'.values.find? v = some n' ∧ g.representative n' = g.representative n)
    (hnamed : ∀ n v, g.Has n → (g.node n).value = some v → (g'.node n).value = some v)
    (hr : g'.returnNode = g.returnNode) (hh : g'.header = g.header) : Extends g g' :=
  ⟨he.size_le, he.kind, he.mergeTo, he.merged, hs, fun _ _ => he.defers_iff.mpr, hv, hnamed,
    fun n hn => by rw [hr]; exact hn, fun n hn => .inl (by rw [← hr]; exact hn), hh⟩

theorem of_rewires (hr : Rewires g g') (hd : ∀ n m, g.Defers n m → g'.Defers n m) :
    Extends g g' where
  size_le := Nat.le_of_eq hr.size.symm
  kind n _ := hr.kind n
  mergeTo := hr.mergeTo
  merged := hr.merged
  state n _ := by rw [hr.state]; exact EscapeState.le_refl _
  defers := hd
  values v n hv := ⟨n, by rw [hr.values]; exact hv, rfl⟩
  named n v _ hv := by rw [hr.value]; exact hv
  returnNode n hn := by rw [hr.returnNode]; exact hn
  returned n hn := .inl (by rw [← hr.returnNode]; exact hn)
  header := hr.header

end Extends

/-! ### Nodes and values -/

/-! ### Changes of one node -/

theorem Shape.modify (h : Shape g pend) {f : Node → Node}
    (hf : ∀ x, (f x).frame = x.frame := by intros; rfl) (n : NodeId) : Shape (g.modify n f) pend :=
  h.congr (size_modify g n f) (node_modify_field Node.frame hf g n) (by rfl) (by rfl)

theorem Extends.modify (g : Graph) (n : NodeId) {f : Node → Node} (hs : ∀ x, x.state ≤ (f x).state)
    (hf : ∀ x, (f x).frame = x.frame := by intros; rfl) : Extends g (g.modify n f) := by
  refine .of_sameEdges (.modify g n fun x => ?_) (fun m _ => ?_) (fun v m hv => ⟨m, hv, rfl⟩)
    (fun m v _ hv => ?_) rfl rfl
  · rw [Node.links, hf, ← Node.links]
  · rw [node_modify]
    split
    · exact hs _
    · exact EscapeState.le_refl _
  · have hval : ∀ x, (f x).value = x.value := fun x =>
      (congrArg Node.value (hf x) :)
    rw [node_modify_field Node.value hval]
    exact hv

theorem Shape.copyUsePoints (h : Shape g pend) (n m : NodeId) :
    Shape (g.copyUsePoints n m) pend := by
  unfold Graph.copyUsePoints
  split
  · exact h
  · exact h.modify ..

theorem Extends.copyUsePoints (g : Graph) (n m : NodeId) : Extends g (g.copyUsePoints n m) := by
  unfold Graph.copyUsePoints
  split
  · exact .refl g
  · exact .modify g m fun _ => EscapeState.le_refl _

/-! ### New nodes -/

theorem node_addNode (g : Graph) (x : Node) (n : NodeId) :
    (g.addNode x).1.node n = if n = (g.addNode x).2 then x else g.node n := by
  split
  · rename_i hn
    rw [hn, node_addNode_self]
  · rename_i hn
    by_cases hg : g.Has n
    · exact node_addNode_of_lt hg x
    · have hne : n.index ≠ g.size := fun e => hn (by cases n; cases e; rfl)
      have hng : ¬ (g.addNode x).1.Has n := by
        rw [Has, size_addNode]
        rw [Has] at hg
        omega
      rw [node_of_not_has hng, node_of_not_has hg]

/-- A new node can be changed before it is added. -/
theorem modify_addNode (g : Graph) (x : Node) (f : Node → Node) :
    (g.addNode x).1.modify (g.addNode x).2 f = (g.addNode (f x)).1 := by
  have hpush : (g.nodes.push x).modify g.nodes.size f = g.nodes.push (f x) := by
    refine Array.ext (by simp) fun i hi _ => ?_
    rw [Array.getElem_modify, Array.getElem_push, Array.getElem_push]
    have : i < g.nodes.size + 1 := by simpa using hi
    split <;> split <;> first | rfl | omega
  simp only [addNode, modify, size, hpush]

theorem not_has_addNode (g : Graph) (x : Node) : ¬ g.Has (g.addNode x).2 := Nat.lt_irrefl _

theorem has_addNode (g : Graph) (x : Node) : (g.addNode x).1.Has (g.addNode x).2 := by
  rw [Has, size_addNode]
  exact Nat.lt_succ_self _

/-- What a new node has in common with no node at all. -/
theorem addNode_field {α : Type} (p : Node → α) {x : Node} (hp : p x = p {}) (n : NodeId) :
    p ((g.addNode x).1.node n) = p (g.node n) := by
  rw [node_addNode]
  split
  · rename_i hn
    rw [hp, hn, node_of_not_has (not_has_addNode g x)]
  · rfl

theorem SameEdges.addNode {x : Node} (hx : x.Fresh) : SameEdges g (g.addNode x).1 where
  size_le := by rw [size_addNode]; exact Nat.le_succ _
  kind n hn := by rw [node_addNode_of_lt hn]
  pointsTo := addNode_field Node.pointsTo hx.pointsTo
  defersTo := addNode_field Node.defersTo hx.defersTo
  preds := addNode_field Node.preds hx.preds
  mergeTo := addNode_field Node.mergeTo hx.mergeTo
  merged := addNode_field Node.merged hx.merged

theorem Extends.addNode {x : Node} (hx : x.Fresh) : Extends g (g.addNode x).1 := by
  refine .of_sameEdges (.addNode hx) (fun n hn => ?_) (fun v n hv => ⟨n, hv, rfl⟩)
    (fun n v hn hv => ?_) rfl rfl
  · rw [node_addNode_of_lt hn]
    exact EscapeState.le_refl _
  · rw [node_addNode_of_lt hn]
    exact hv

theorem Shape.addNode (h : Shape g pend) {x : Node} (hx : x.Fresh) :
    Shape (g.addNode x).1 pend := by
  have he : SameEdges g (g.addNode x).1 := .addNode hx
  have hv : ∀ n, ((g.addNode x).1.node n).value = (g.node n).value :=
    addNode_field Node.value hx.value
  refine h.sameEdges he (fun n hn => ?_) (fun n v hnv => ?_) (fun v n hvn => ?_) fun n hr => ?_
  · rw [hv]
    exact h.tomb_value n hn
  · rw [hv] at hnv
    exact h.value_mapped n v hnv
  · exact he.has (h.values_has v n hvn)
  · exact he.has (h.return_has n hr)

/-! ### Values -/

/-- Maps `v`, which has no node, to `n`. -/
def mapValue (g : Graph) (v : ValueId) (n : NodeId) : Graph :=
  { g.modify n fun x => { x with value := x.value <|> some v } with values := g.values.insert v n }

theorem SameEdges.mapValue (g : Graph) (v : ValueId) (n : NodeId) : SameEdges g (g.mapValue v n) :=
  of_links (size_modify g n _) (node_modify_field Node.links (fun _ => by rfl) g n)

theorem Extends.mapValue (hv : g.values.find? v = none) : Extends g (g.mapValue v n) := by
  refine .of_sameEdges (.mapValue g v n) (fun m _ => ?_) (fun w m hw => ⟨m, ?_, rfl⟩)
    (fun m w _ hw => ?_) rfl rfl
  · show _ ≤ ((g.modify n _).node m).state
    rw [node_modify_field Node.state]
    exact EscapeState.le_refl _
  · show (g.values.insert v n).find? w = some m
    rw [AssocMap.find?_insert, if_neg, hw]
    rintro rfl
    rw [hv] at hw
    cases hw
  · show ((g.modify n _).node m).value = _
    rw [node_modify]
    split
    · dsimp only
      rw [hw]
      rfl
    · exact hw

section

variable (h : Shape g pend)
include h

theorem Shape.mapValue (hn : g.Has n) (hlive : (g.node n).merged = false)
    (hv : g.values.find? v = none) : Shape (g.mapValue v n) pend := by
  have hnode : ∀ m, ((g.mapValue v n).node m).value =
      if m = n then (g.node m).value <|> some v else (g.node m).value := fun m => by
    show ((g.modify n _).node m).value = _
    rw [node_modify_of_has hn]
    split <;> rfl
  have hfind : ∀ w m, g.values.find? w = some m → (g.mapValue v n).values.find? w = some m := by
    intro w m hw
    show (g.values.insert v n).find? w = some m
    rw [AssocMap.find?_insert, if_neg, hw]
    rintro rfl
    rw [hv] at hw
    cases hw
  refine h.sameEdges (.mapValue g v n) (fun m hm => ?_) (fun m w hw => ?_)
    (fun w m hw => ?_) fun m hr => ?_
  · rw [hnode, if_neg, h.tomb_value m hm]
    rintro rfl
    rw [hlive] at hm
    cases hm
  · rw [hnode] at hw
    have hold : (g.node m).value = some w →
        ∃ k, (g.mapValue v n).values.find? w = some k ∧
        g.representative k = g.representative m := by
      intro hw
      obtain ⟨k, hk, hr⟩ := h.value_mapped m w hw
      exact ⟨k, hfind w k hk, hr⟩
    split at hw
    · rename_i hmn
      cases hx : (g.node m).value with
      | some u =>
        rw [hx] at hw
        cases hw
        exact hold hx
      | none =>
        rw [hx] at hw
        cases hw
        exact ⟨n, by show (g.values.insert v n).find? v = some n; simp, by rw [hmn]⟩
    · exact hold hw
  · replace hw : (g.values.insert v n).find? w = some m := hw
    rw [AssocMap.find?_insert] at hw
    split at hw
    · cases hw
      exact (has_modify _).mpr hn
    · exact (has_modify _).mpr (h.values_has w m hw)
  · exact (has_modify _).mpr (h.return_has m hr)

/-- The shape is a matter of nodes, values and the returned node. -/
theorem Shape.of_nodes (hn : g'.nodes = g.nodes) (hv : g'.values = g.values)
    (hr : g'.returnNode = g.returnNode) : Shape g' pend :=
  h.congr (by rw [size, hn, ← size]) (fun n => by rw [node, hn, ← node]) hv hr

/-- Maps `v` to what represents the node that it is mapped to. -/
theorem Shape.remapValue (hv : g.values.find? v = some n) :
    Shape { g with values := g.values.insert v (g.representative n) } pend := by
  refine h.sameEdges (.of_nodes rfl) h.tomb_value (fun m w hw => ?_) (fun w m hw => ?_) h.return_has
  · obtain ⟨k, hk, hr⟩ := h.value_mapped m w hw
    show ∃ k, (g.values.insert v (g.representative n)).find? w = some k ∧ _
    rw [AssocMap.find?_insert]
    split
    · rename_i e
      subst e
      cases hv.symm.trans hk
      exact ⟨_, rfl, by rw [h.forest.representative_representative, hr]⟩
    · exact ⟨k, hk, hr⟩
  · replace hw : (g.values.insert v (g.representative n)).find? w = some m := hw
    rw [AssocMap.find?_insert] at hw
    split at hw
    · cases hw
      exact h.forest.has_representative (h.values_has v n hv)
    · exact h.values_has w m hw

omit h in
theorem Extends.remapValue (hf : Forest g) (hv : g.values.find? v = some n) :
    Extends g { g with values := g.values.insert v (g.representative n) } := by
  refine .of_sameEdges (.of_nodes rfl) (fun _ _ => EscapeState.le_refl _) (fun w m hw => ?_)
    (fun _ _ _ hw => hw) rfl rfl
  show ∃ k, (g.values.insert v (g.representative n)).find? w = some k ∧ _
  rw [AssocMap.find?_insert]
  split
  · rename_i e
    subst e
    cases hv.symm.trans hw
    exact ⟨_, rfl, hf.representative_representative n⟩
  · exact ⟨m, hw, rfl⟩

omit h in
/-- Takes `v` off its node. -/
theorem Shape.forgetValue (h : Shape g nobody) (v : ValueId) :
    Shape (forget.forgetValue g v) nobody := by
  unfold forget.forgetValue
  split
  · rename_i n hv
    have hvalue : ∀ m w, ((g.modify (g.representative n) fun x =>
        { x with value := if x.value = some v then none else x.value }).node m).value = some w →
        w ≠ v ∧ (g.node m).value = some w := by
      intro m w hw
      rw [node_modify_of_has (h.forest.has_representative (h.values_has v n hv))] at hw
      have hself : m = g.representative n → w ≠ v ∧ (g.node m).value = some w := by
        intro e
        rw [if_pos e] at hw
        split at hw
        · cases hw
        · rename_i hne
          exact ⟨fun e => hne (e ▸ hw), hw⟩
      by_cases e : m = g.representative n
      · exact hself e
      · rw [if_neg e] at hw
        -- only what represents the node of `v` has the value `v`
        refine ⟨fun hwv => e ?_, hw⟩
        subst hwv
        obtain ⟨k, hk, hr⟩ := h.value_mapped m w hw
        cases hv.symm.trans hk
        rw [hr]
        refine (h.representative_of_live ?_ not_false).symm
        by_contra hm
        rw [h.tomb_value m (by simpa using hm)] at hw
        cases hw
    refine h.sameEdges (.of_links (size_modify g _ _)
      (node_modify_field Node.links (fun _ => by rfl) g _)) (fun m hm => ?_) (fun m w hw => ?_)
      (fun w m hw => ?_) fun m hr => ?_
    · rw [Option.eq_none_iff_forall_ne_some]
      intro w hw
      have := (hvalue m w hw).2
      rw [h.tomb_value m hm] at this
      cases this
    · obtain ⟨hne, hold⟩ := hvalue m w hw
      obtain ⟨k, hk, hr⟩ := h.value_mapped m w hold
      refine ⟨k, ?_, hr⟩
      show (g.values.erase v).find? w = some k
      rw [AssocMap.find?_erase, if_neg (Ne.symm hne), hk]
    · replace hw : (g.values.erase v).find? w = some m := hw
      rw [AssocMap.find?_erase] at hw
      split at hw
      · cases hw
      · exact (has_modify _).mpr (h.values_has w m hw)
    · exact (has_modify _).mpr (h.return_has m hr)
  · exact h

omit h in
/-- The node of an anchor is the node that represents it, or a new one. -/
theorem enter_cases (g : Graph) (a : Scope.Anchor) :
    (∃ n f, g.values.find? a.root = some n ∧ f = Node.mergeFlags false a.referenceOnly ∧
      g.enter a = ({ g.modify (g.representative n) f with
        values := g.values.insert a.root (g.representative n) }, g.representative n)) ∨
    ∃ x : Node, g.values.find? a.root = none ∧ x.Fresh ∧ (x.kind = .argument ∨ x.kind = .value) ∧
      (x.interior = false ∧ x.state ≠ .globalEscaping) ∧
      g.enter a = ((g.addNode x).1.mapValue a.root (g.addNode x).2, (g.addNode x).2) := by
  unfold enter
  cases hv : g.values.find? a.root with
  | some n => exact .inl ⟨n, _, rfl, rfl, rfl⟩
  | none =>
    refine .inr ⟨{
      kind := if a.isArgument then .argument else .value
      state := if a.isArgument && !g.summary then .argumentReachable else .noEscape
      referenceOnly := a.referenceOnly }, rfl, ⟨rfl, rfl, rfl, rfl, rfl, rfl, rfl⟩,
      ?_, ⟨rfl, ?_⟩, ?_⟩
    · cases a.isArgument with
      | true => exact .inl rfl
      | false => exact .inr rfl
    · dsimp only
      split <;> decide
    · rw [mapValue, modify_addNode]
      rfl

theorem enter_extends (a : Scope.Anchor) : Shape (g.enter a).1 pend ∧ Extends g (g.enter a).1 := by
  rcases enter_cases g a with ⟨n, f, hv, rfl, e⟩ | ⟨x, hv, hx, -, -, e⟩
  · rw [e]
    have hm : Shape (g.modify (g.representative n) (Node.mergeFlags false a.referenceOnly)) pend :=
      h.modify ..
    have he : Extends g (g.modify (g.representative n) (Node.mergeFlags false a.referenceOnly)) :=
      .modify g _ fun _ => EscapeState.le_refl _
    have hr := he.representative h.forest n
    have hs := hm.remapValue (v := a.root) hv
    have he' := Extends.remapValue (v := a.root) hm.forest hv
    rw [hr] at hs he'
    exact ⟨hs, he.trans he' h.forest⟩
  · rw [e]
    have he : Extends g (g.addNode x).1 := .addNode hx
    refine ⟨(h.addNode hx).mapValue (has_addNode g x) ?_ hv, he.trans (.mapValue hv) h.forest⟩
    rw [node_addNode_self]
    exact hx.merged

omit h in
theorem ensureReturn_cases (g : Graph) :
    (∃ n, g.returnNode = some n ∧ g.ensureReturn = (g, n)) ∨
      ∃ x : Node, g.returnNode = none ∧ x.Fresh ∧ x.kind = .returned ∧
        (x.interior = false ∧ x.state ≠ .globalEscaping) ∧
        g.ensureReturn = ({ (g.addNode x).1 with returnNode := some (g.addNode x).2 },
          (g.addNode x).2) := by
  unfold ensureReturn
  cases hr : g.returnNode with
  | some n => exact .inl ⟨n, rfl, rfl⟩
  | none =>
    exact .inr ⟨_, rfl, ⟨rfl, rfl, rfl, rfl, rfl, rfl, rfl⟩, rfl, ⟨rfl, EscapeState.noConfusion⟩,
      rfl⟩

theorem ensureReturn_extends : Shape g.ensureReturn.1 pend ∧ Extends g g.ensureReturn.1 := by
  rcases ensureReturn_cases g with ⟨n, -, e⟩ | ⟨x, hr, hx, hkind, -, e⟩
  · rw [e]
    exact ⟨h, .refl g⟩
  · rw [e]
    have hs := h.addNode hx
    constructor
    · refine hs.sameEdges (.of_nodes rfl) hs.tomb_value hs.value_mapped hs.values_has fun n hn => ?_
      cases hn
      exact has_addNode g x
    · have he : Extends g (g.addNode x).1 := .addNode hx
      refine ⟨he.size_le, he.kind, he.mergeTo, he.merged, he.state, he.defers, he.values, he.named,
        (fun n hn => by rw [hr] at hn; cases hn), fun n hn => ?_, he.header⟩
      cases hn
      refine .inr ⟨has_addNode g x, ?_⟩
      show ((g.addNode x).1.node (g.addNode x).2).kind = _
      rw [node_addNode_self, hkind]

/-! ### Edges -/

theorem Shape.live_of_joined (hj : g.Joined n m) : (g.node n).merged = false := by
  rcases hj with hd | hd
  · exact h.live_of_defers hd
  · exact h.defers_live m n hd

/-- A change of edges that leaves tombstones alone keeps the shape. -/
theorem Shape.rewires (hr : Rewires g g') (hl : Linked g' nobody)
    (htomb : ∀ n, (g.node n).merged = true →
      (g'.node n).pointsTo = (g.node n).pointsTo ∧ (g'.node n).defersTo = (g.node n).defersTo)
    (hlive : ∀ n m, g'.Defers n m → (g.node m).merged = false)
    (hhas : ∀ n c, g'.target? n = some c → g.Has c) : Shape g' pend where
  linked := hl
  forest := h.forest.rewires hr
  waits n := by rw [hr.merged, hr.mergeTo]; exact h.waits n
  tomb_links n := by rw [hr.merged, hr.mergeTo]; exact h.tomb_links n
  tomb_pointsTo n hn := by
    rw [hr.merged] at hn
    rw [(htomb n hn).1, h.tomb_pointsTo n hn]
  tomb_defersTo n hn := by
    rw [hr.merged] at hn
    rw [(htomb n hn).2, h.tomb_defersTo n hn]
  tomb_content n := by rw [hr.merged, hr.isContent]; exact h.tomb_content n
  tomb_value n := by rw [hr.merged, hr.value]; exact h.tomb_value n
  defers_live n m hd := by rw [hr.merged]; exact hlive n m hd
  target_has n c hc := hr.has.mpr (hhas n c hc)
  value_mapped n v hv := by
    rw [hr.value] at hv
    obtain ⟨m, hm, hrep⟩ := h.value_mapped n v hv
    exact ⟨m, by rw [hr.values]; exact hm, by rw [hr.representative, hr.representative, hrep]⟩
  values_has v n hv := hr.has.mpr (h.values_has v n (by rwa [hr.values] at hv))
  return_has n hn := hr.has.mpr (h.return_has n (by rwa [hr.returnNode] at hn))

/-- Giving a content to the part of a web that has none. -/
theorem Shape.spread {own : Bool} (hn : g.Has n)
    (hlive : (g.node n).merged = false) (hown : own = true → g.target? n = none) (hx : g.Has x)
    (hok : g.spread n x own = .ok g') :
    Shape g' pend ∧ Extends g g' ∧ g'.pending = g.pending ∧ g'.values = g.values := by
  obtain ⟨V, hV, hl, hnear, -⟩ := spread_fills h.linked not_false not_false hn hown hok
  refine ⟨h.rewires hV.toRewires hl (fun m hm => ⟨?_, hV.defersTo m⟩) (fun a b hd => ?_)
    (fun m c hc => ?_), .of_rewires hV.toRewires fun _ _ => hV.defers_iff.mpr,
    hV.pending, hV.values⟩
  · refine hV.pointsTo_of_not m fun hVm => ?_
    rcases hnear m hVm with rfl | ⟨b, hj⟩
    · rw [hlive] at hm
      cases hm
    · rw [h.live_of_joined hj] at hm
      cases hm
  · exact h.defers_live a b (hV.defers_iff.mp hd)
  · by_cases hVm : V m
    · rw [hV.target m hVm] at hc
      cases hc
      exact hx
    · rw [target?, hV.pointsTo_of_not m hVm] at hc
      exact h.target_has m c hc

/-- A content that is spread comes along defer edges, and is passed on. -/
theorem Shape.spread_sustains {own : Bool} (hn : g.Has n)
    (hown : own = true → g.target? n = none) (hok : g.spread n x own = .ok g') :
    Sustains g g' ∧ ∀ except, g.Passes except → g'.Passes except := by
  obtain ⟨V, hV, -, -, hgrounded, hclosed⟩ := spread_fills h.linked not_false not_false hn hown hok
  exact ⟨.of_fills hV hgrounded, fun _ => hV.passes h.linked hclosed fun _ _ ha => ha.elim⟩

/-- Adding a defer edge, and nothing else. -/
theorem Shape.linkDefer (hn : g.Has n) (hm : g.Has m)
    (hln : (g.node n).merged = false) (hlm : (g.node m).merged = false) (hne : n ≠ m)
    (hnew : ¬ g.Defers n m) : Shape (g.linkDefer n m) pend := by
  have ha := addsDefer_linkDefer (m := m) hn
  refine h.rewires ha.toRewires (h.linked.linkDefer not_false not_false hn hm hne hnew)
    (fun k hk => ⟨ha.pointsTo k, ?_⟩) (fun a b hd => ?_) fun a c hc => ?_
  · rw [ha.defersTo, if_neg]
    rintro rfl
    rw [hln] at hk
    cases hk
  · rcases ha.defers_iff.mp hd with hd | ⟨-, rfl⟩
    · exact h.defers_live a b hd
    · exact hlm
  · rw [ha.target?] at hc
    exact h.target_has a c hc

theorem Shape.addDefer {b : Bool} (hn : g.Has n) (hm : g.Has m)
    (hln : (g.node n).merged = false) (hok : g.addDefer n m = .ok (g', b)) :
    Shape g' pend ∧ Extends g g' ∧ g'.pending = g.pending ∧ g'.values = g.values ∧
      (n = m ∨ g'.Defers n m) ∧ ∀ k, g'.target? k = g.target? k := by
  obtain ⟨hlm, ⟨rfl, -, hor⟩ | ⟨rfl, -, hne, hnew⟩⟩ := addDefer_cases hok
  · exact ⟨h, .refl _, rfl, rfl, hor, fun _ => rfl⟩
  · have ha := addsDefer_linkDefer (m := m) hn
    exact ⟨h.linkDefer hn hm hln hlm hne hnew,
      .of_rewires ha.toRewires fun _ _ hd => ha.defers_iff.mpr (.inl hd), ha.pending, ha.values,
      .inr (ha.defers_iff.mpr (.inr ⟨rfl, rfl⟩)), ha.target?⟩

end

/-! ### Merges -/

/-- Scheduling a merge keeps the shape; the merged content waits. -/
theorem schedule_shape (h : Shape g (· ∈ g.pending)) (hnd : g.pending.Nodup) (hn : g.Has n)
    (hm : g.Has m) : Shape (g.schedule n m) (· ∈ (g.schedule n m).pending) ∧
      (g.schedule n m).pending.Nodup ∧ Carries g (g.schedule n m) id := by
  rcases schedule_cases h.forest hn hm with ⟨-, e⟩ | ⟨hl, hp⟩
  · rw [e]
    exact ⟨h, hnd, .refl h.forest⟩
  · have hsch := schedules_schedule h.forest hn hm
    have hvalue := hsch.field Node.value fun _ _ _ _ => rfl
    -- Roots do not wait.
    have hroot : g.representative n ∉ g.pending := fun hmem => by
      have := ((h.waits _).mp hmem).2
      rw [hl.root_src] at this
      cases this
    refine ⟨?_, ?_, ?_⟩
    · exact {
        linked := hsch.linked h.linked
        forest := hsch.forest h.forest
        waits := fun k => by
          rw [hp, List.mem_cons, h.waits k, hsch.merged, hl.mergeTo]
          by_cases hk : k = g.representative n
          · subst hk
            rw [if_pos rfl]
            simp [h.merged_representative n]
          · rw [if_neg hk]
            simp [hk]
        tomb_links := fun k hk => hsch.mergeTo_isSome (h.tomb_links k (hsch.merged k ▸ hk))
        tomb_pointsTo := fun k => by rw [hsch.merged, hsch.pointsTo]; exact h.tomb_pointsTo k
        tomb_defersTo := fun k => by rw [hsch.merged, hsch.defersTo]; exact h.tomb_defersTo k
        tomb_content := fun k => by rw [hsch.merged, hsch.isContent]; exact h.tomb_content k
        tomb_value := fun k => by rw [hsch.merged, hvalue]; exact h.tomb_value k
        defers_live := fun a b => by rw [hsch.defers_iff, hsch.merged]; exact h.defers_live a b
        target_has := fun a c => by rw [hsch.target?, hsch.has]; exact h.target_has a c
        value_mapped := fun k v => by
          rw [hvalue, hsch.values]
          intro hv
          obtain ⟨a, ha, hr⟩ := h.value_mapped k v hv
          exact ⟨a, ha, hsch.representative_congr h.forest hr⟩
        values_has := fun v k => by rw [hsch.values, hsch.has]; exact h.values_has v k
        return_has := fun k => by rw [hsch.returnNode, hsch.has]; exact h.return_has k }
    · rw [hp]
      exact List.nodup_cons.mpr ⟨hroot, hnd⟩
    · exact {
        size_le := Nat.le_of_eq hl.size.symm
        kind := fun k _ => schedule_field Node.kind ..
        merge := fun k _ =>
          hsch.representative_congr h.forest (h.forest.representative_representative k)
        has := fun k hk => hsch.has.mpr hk
        live := fun k _ hk => (hsch.merged k).trans hk
        represents := fun _ _ => rfl
        fixed := fun _ _ _ => rfl
        state := fun k _ => by
          rw [id, schedule_field Node.state]
          exact EscapeState.le_refl _
        defers := fun a b hd => .inr (hsch.defers_iff.mpr hd)
        values := fun v k hv => ⟨k, by rw [hsch.values]; exact hv, rfl⟩
        keys := fun v hv => by rwa [hsch.values] at hv
        named := fun k v _ _ hv => (hvalue k).trans hv
        returnNode := fun k hk => hsch.returnNode.trans hk
        returned := fun k hk => .inl (hsch.returnNode.symm.trans hk)
        header := hsch.header
        supplies := .of_eq hsch.pointsTo hsch.defersTo }

/-- Merges the contents of `f` and `t`, where both have one. Tells whether there was a merge. -/
def mergeContents (g : Graph) (f t : NodeId) : Checked (Graph × Bool) :=
  match g.target? f, g.target? t with
  | some c, some d =>
    if c = d then pure (g, false) else do
      let g' ← (g.schedule c d).settle
      pure (g', true)
  | _, _ => pure (g, false)

/-- Of the contents of `f` and `t`, gives the one to the other node if there is no other one. -/
def shareContent (g : Graph) (f t : NodeId) (c d : Option NodeId) : Checked Graph :=
  match c, d with
  | none, some d => g.spread f d false
  | some c, none => g.spread t c false
  | _, _ => pure g

/-- The phases of adding a defer edge. -/
theorem deferTracked_eq (g : Graph) (f t : NodeId) : g.deferTracked f t =
    (if f = t then pure (g, f, false) else do
      g.require f
      if t ∈ (g.node f).defersTo then pure (g, f, false) else do
        g.require t
        let (g₁, merged) ← g.mergeContents f t
        let (g₂, added) ← g₁.addDefer (g₁.representative f) (g₁.representative t)
        let g₃ ← g₂.shareContent (g₁.representative f) (g₁.representative t)
          (g.target? f) (g.target? t)
        pure (g₃, g₃.representative f, merged || added)) := by
  unfold deferTracked mergeContents shareContent target?
  cases (g.node f).pointsTo.target? with
  | none => cases (g.node t).pointsTo.target? <;> rfl
  | some c =>
    cases (g.node t).pointsTo.target? with
    | none => rfl
    | some d =>
      by_cases hcd : c = d
      · simp only [if_pos hcd]
      · simp only [if_neg hcd, bind_assoc]

/-- A defer edge that is new, after the merge of the contents at its ends. -/
theorem deferTracked_ok {f t r : NodeId} {changed : Bool}
    (hok : g.deferTracked f t = .ok (g', r, changed)) :
    (f = t ∨ g.Has f ∧ g.Defers f t) ∧ g' = g ∧ r = f ∧ changed = false ∨
      f ≠ t ∧ ¬ g.Defers f t ∧ g.Has f ∧ g.Has t ∧ r = g'.representative f ∧
        ∃ g₁ g₂ merged added, g.mergeContents f t = .ok (g₁, merged) ∧
          g₁.addDefer (g₁.representative f) (g₁.representative t) = .ok (g₂, added) ∧
          g₂.shareContent (g₁.representative f) (g₁.representative t) (g.target? f) (g.target? t) =
            .ok g' ∧ changed = (merged || added) := by
  rw [deferTracked_eq] at hok
  split at hok
  · rename_i hft
    cases hok
    exact .inl ⟨.inl hft, rfl, rfl, rfl⟩
  · rename_i hft
    obtain ⟨_, hf, hok⟩ := bind_ok.mp hok
    split at hok
    · rename_i hd
      cases hok
      exact .inl ⟨.inr ⟨require_ok.mp hf, hd⟩, rfl, rfl, rfl⟩
    · rename_i hd
      obtain ⟨_, ht, hok⟩ := bind_ok.mp hok
      obtain ⟨⟨g₁, merged⟩, h₁, hok⟩ := bind_ok.mp hok
      obtain ⟨⟨g₂, added⟩, h₂, hok⟩ := bind_ok.mp hok
      obtain ⟨g₃, h₃, hok⟩ := bind_ok.mp hok
      cases hok
      exact .inr ⟨hft, hd, require_ok.mp hf, require_ok.mp ht, rfl, g₁, g₂, merged, added, h₁,
        h₂, h₃, rfl⟩

section

variable (h : Shape g nobody)
include h

variable (hp : g.pending = [])
include hp

/-- Merging two contents keeps the shape. If one of the nodes has no content nothing happens. -/
theorem mergeContents_shape {f t : NodeId} {merged : Bool}
    (hok : g.mergeContents f t = .ok (g', merged)) :
    Shape g' nobody ∧ g'.pending = [] ∧ (∃ ψ, Carries g g' ψ) ∧
      (g.target? f = none ∨ g.target? t = none → g' = g) := by
  unfold mergeContents at hok
  split at hok
  · rename_i c d hc hd
    split at hok
    · cases hok
      exact ⟨h, hp, ⟨id, .refl h.forest⟩, fun _ => rfl⟩
    · obtain ⟨g₁, h₁, hok⟩ := bind_ok.mp hok
      cases hok
      have hpend : (fun n => n ∈ g.pending) = nobody := by
        funext n
        rw [hp]
        exact propext (List.mem_nil_iff n)
      have hs : Shape g (· ∈ g.pending) := by rw [hpend]; exact h
      obtain ⟨hs', hnd', hc'⟩ := schedule_shape hs (by rw [hp]; exact .nil) (h.target_has f c hc)
        (h.target_has t d hd)
      obtain ⟨hs₁, hp₁, ψ, hc₁⟩ := settle_shape hs' hnd' h₁
      refine ⟨hs₁, hp₁, ⟨ψ ∘ id, hc'.trans hc₁ hs hs'⟩, fun hor => ?_⟩
      rw [hc, hd] at hor
      simp at hor
  · cases hok
    exact ⟨h, hp, ⟨id, .refl h.forest⟩, fun _ => rfl⟩

/-- A node that has a content still has one once the contents at the ends are merged. -/
theorem mergeContents_holds {f t : NodeId} {merged : Bool}
    (hok : g.mergeContents f t = .ok (g', merged)) (hs : Supplied g nobody) (hn : g.Holds n) :
    g'.Holds (g'.representative n) := by
  obtain ⟨hs', -, ⟨ψ, hc⟩, -⟩ := mergeContents_shape h hp hok
  obtain ⟨c, hnc⟩ := Option.isSome_iff_exists.mp hn
  have hhas := has_of_target? hnc
  have hlive := hc.live n hhas (h.live_of_target hnc)
  rw [← hc.represents n hhas, hs'.representative_of_live hlive not_false]
  exact (hc.supplies hs).2 n hn

/-- The new defer edge passes the content of `t` on to `f`. -/
theorem deferTracked_supplies {f t : NodeId} {g₁ g₂ : Graph} {merged added : Bool}
    (hlt : (g.node t).merged = false) (hhf : g.Has f) (hht : g.Has t)
    (h₁ : g.mergeContents f t = .ok (g₁, merged))
    (h₂ : g₁.addDefer (g₁.representative f) (g₁.representative t) = .ok (g₂, added))
    (h₃ : g₂.shareContent (g₁.representative f) (g₁.representative t) (g.target? f) (g.target? t) =
      .ok g') {ψ : NodeId → NodeId} (hψ : Supplies g g₁ ψ) : Supplies g g' ψ := by
  intro hs
  obtain ⟨hs₁, -, ⟨_, hc₁⟩, hsame⟩ := mergeContents_shape h hp h₁
  have hhf₁ := hs₁.forest.has_representative (hc₁.has_mono hhf)
  have hht₁ := hs₁.forest.has_representative (hc₁.has_mono hht)
  obtain ⟨hs₂, he₂, -, -, -, htarget⟩ := hs₁.addDefer hhf₁ hht₁ (hs₁.merged_representative f) h₂
  obtain ⟨hsus₂, hpass₂⟩ := addDefer_sustains hhf₁ h₂
  obtain ⟨hsus₃, hpass₃, hseam⟩ : Sustains g₂ g' ∧ (∀ except, g₂.Passes except → g'.Passes except) ∧
      (g'.Holds (g₁.representative t) → g'.Holds (g₁.representative f)) := by
    unfold shareContent at h₃
    split at h₃
    · have hadd := hs₂.spread_sustains (he₂.has hhf₁) (fun h => by cases h) h₃
      refine ⟨hadd.1, hadd.2, fun _ => ?_⟩
      cases hb : g₂.target? (g₁.representative f) with
      | none => exact spread_holds hs₂.linked not_false not_false (he₂.has hhf₁) hb h₃
      | some c => exact hadd.1.holds _ (by simp [Holds, hb])
    · rename_i c hcf hct
      have hadd := hs₂.spread_sustains (he₂.has hht₁) (fun h => by cases h) h₃
      have hf := mergeContents_holds h hp h₁ hs (by simp [Holds, hcf] : g.Holds f)
      exact ⟨hadd.1, hadd.2, fun _ => hadd.1.holds _ (hsus₂.holds _ hf)⟩
    · rename_i hnone hsome
      cases h₃
      refine ⟨.refl _, fun _ hp => hp, fun ht => ?_⟩
      cases hcf : g.target? f with
      | some c => exact hsus₂.holds _ (mergeContents_holds h hp h₁ hs (by simp [Holds, hcf]))
      | none =>
        -- without a content at either end nothing was merged, and `t` still has none
        have hct : g.target? t = none :=
          Option.eq_none_iff_forall_ne_some.mpr fun d hd => hnone d hcf hd
        rw [Holds, htarget, hsame (.inl hcf), h.representative_of_live hlt not_false, hct] at ht
        cases ht
  have hsup : Supplies g₁ g' id := .of_sustains (hsus₂.trans hsus₃) fun hp =>
    (hpass₃ _ (hpass₂ _ hp)).seam hseam
  exact hψ.trans hsup hs

/-- **Adding a defer edge** keeps the shape and everything the graph says, and the edge is there
afterwards unless its ends became one node. The origin of the edge may be a tombstone; what
represents it defers then. -/
theorem deferTracked_shape {f t r : NodeId} {changed : Bool} (hlt : (g.node t).merged = false)
    (hok : g.deferTracked f t = .ok (g', r, changed)) :
    Shape g' nobody ∧ g'.pending = [] ∧ r = g'.representative f ∧ (∃ ψ, Carries g g' ψ) ∧
      (g'.representative f = g'.representative t ∨
        g'.Defers (g'.representative f) (g'.representative t)) := by
  have hrep : ∀ n, (g.node n).merged = false → g.representative n = n := fun n hn =>
    h.representative_of_live hn not_false
  rcases deferTracked_ok hok with
    ⟨hor, rfl, rfl, -⟩ | ⟨-, -, hhf, hht, rfl, g₁, g₂, merged, added, h₁, h₂, h₃, -⟩
  · have hlf : (g'.node r).merged = false := by
      rcases hor with rfl | ⟨-, hd⟩
      · exact hlt
      · exact h.live_of_defers hd
    refine ⟨h, hp, (hrep _ hlf).symm, ⟨id, .refl h.forest⟩, ?_⟩
    rcases hor with rfl | ⟨-, hd⟩
    · exact .inl rfl
    · rw [hrep _ hlf, hrep _ hlt]
      exact .inr hd
  · obtain ⟨hs₁, hp₁, ⟨ψ, hc₁⟩, hsame⟩ := mergeContents_shape h hp h₁
    have hhf₁ := hs₁.forest.has_representative (hc₁.has_mono hhf)
    have hht₁ := hs₁.forest.has_representative (hc₁.has_mono hht)
    obtain ⟨hs₂, he₂, hp₂, hv₂, hd₂, -⟩ := hs₁.addDefer hhf₁ hht₁ (hs₁.merged_representative f) h₂
    have hsup := deferTracked_supplies h hp hlt hhf hht h₁ h₂ h₃ hc₁.supplies
    -- a node without content gets one only if there was no merge
    have hshare : Shape g' nobody ∧ Extends g₂ g' ∧ g'.pending = g₂.pending ∧
        g'.values = g₂.values := by
      unfold shareContent at h₃
      split at h₃
      · rename_i d hcf hct
        have hg := hsame (.inl hcf)
        subst hg
        refine hs₂.spread (he₂.has hhf₁) ?_ (fun h => by cases h)
          (he₂.has (h.target_has t d hct)) h₃
        rw [he₂.merged, hs₁.merged_representative]
      · rename_i c hcf hct
        have hg := hsame (.inr hct)
        subst hg
        refine hs₂.spread (he₂.has hht₁) ?_ (fun h => by cases h)
          (he₂.has (h.target_has f c hcf)) h₃
        rw [he₂.merged, hs₁.merged_representative]
      · cases h₃
        exact ⟨hs₂, .refl _, rfl, rfl⟩
    obtain ⟨hs₃, he₃, hp₃, hv₃⟩ := hshare
    have he := he₂.trans he₃ hs₁.forest
    have hkeys : ∀ v, (g'.values.find? v).isSome → (g₁.values.find? v).isSome := fun v hv => by
      rwa [hv₃, hv₂] at hv
    refine ⟨hs₃, by rw [hp₃, hp₂, hp₁], rfl,
      ⟨_, hc₁.toConveys.trans (he.conveys hs₁.forest hkeys) h hs₁, hsup⟩, ?_⟩
    rw [he.representative hs₁.forest, he.representative hs₁.forest]
    exact hd₂.imp_right (he₃.defers _ _)

end

/-! ### Contents -/

theorem Node.fresh_content (interior referenceOnly : Bool) :
    Node.Fresh { kind := .content, interior, referenceOnly } :=
  ⟨rfl, rfl, rfl, rfl, rfl, rfl, rfl⟩

variable (h : Shape g pend)
include h

theorem createContent_extends (hn : g.Has n) (hlive : (g.node n).merged = false)
    (hbare : g.target? n = none) (hok : g.createContent n interior referenceOnly = .ok (g', c)) :
    Shape g' pend ∧ Extends g g' ∧ g'.pending = g.pending ∧ g'.values = g.values := by
  obtain ⟨g₁, h₁, hok⟩ := bind_ok.mp hok
  cases hok
  have hx := Node.fresh_content interior referenceOnly
  have he : Extends g (g.addNode _).1 := .addNode hx
  obtain ⟨hs', he', hp', hv'⟩ := (h.addNode hx).spread (he.has hn) (by rw [he.merged]; exact hlive)
    (fun _ => by rw [(SameEdges.addNode hx).target?]; exact hbare) (has_addNode g _) h₁
  exact ⟨hs', he.trans he' h.forest, hp', hv'⟩

theorem createContent_supplies (hn : g.Has n) (hbare : g.target? n = none)
    (hok : g.createContent n interior referenceOnly = .ok (g', c)) : Supplies g g' id := by
  obtain ⟨g₁, h₁, hok⟩ := bind_ok.mp hok
  cases hok
  have hx := Node.fresh_content interior referenceOnly
  have hadd := SameEdges.addNode (g := g) hx
  obtain ⟨hsus, hpass⟩ := (h.addNode hx).spread_sustains (hadd.has hn)
    (fun _ => by rw [hadd.target?]; exact hbare) h₁
  exact hadd.supplies.trans (.of_sustains hsus (hpass _))

/-- The content of a node, made on first request. -/
theorem ensureContent_extends (hlive : (g.node n).merged = false)
    (hok : g.ensureContent n interior referenceOnly = .ok (g', c)) :
    Shape g' pend ∧ Extends g g' ∧ g'.pending = g.pending ∧ g'.values = g.values := by
  obtain ⟨_, hn, hok⟩ := bind_ok.mp hok
  split at hok
  · cases hok
    exact ⟨h.modify .., .modify g _ fun _ => EscapeState.le_refl _, rfl, rfl⟩
  · rename_i hbare
    obtain ⟨⟨g₁, c₁⟩, h₁, hok⟩ := bind_ok.mp hok
    cases hok
    obtain ⟨hs₁, he₁, hp₁, hv₁⟩ :=
      createContent_extends h (require_ok.mp hn) hlive (by simpa [content?_eq] using hbare) h₁
    have hs₂ : Shape (g₁.modify c (·.raise (g₁.node n).state)) pend :=
      hs₁.modify ..
    have he₂ : Extends g₁ (g₁.modify c (·.raise (g₁.node n).state)) :=
      .modify g₁ _ fun _ => EscapeState.le_join_left _ _
    refine ⟨hs₂.copyUsePoints _ _, (he₁.trans he₂ h.forest).trans (.copyUsePoints _ _ _) h.forest,
      ?_, ?_⟩
    · rw [(Rewires.copyUsePoints _ n c).pending]
      exact hp₁
    · rw [(Rewires.copyUsePoints _ n c).values]
      exact hv₁

theorem ensureContent_supplies (hok : g.ensureContent n interior referenceOnly = .ok (g', c)) :
    Supplies g g' id := by
  obtain ⟨_, hn, hok⟩ := bind_ok.mp hok
  split at hok
  · cases hok
    exact (SameEdges.modify g _).supplies
  · rename_i hbare
    obtain ⟨⟨g₁, c₁⟩, h₁, hok⟩ := bind_ok.mp hok
    cases hok
    have hs₁ := createContent_supplies h (require_ok.mp hn) (by simpa [content?_eq] using hbare) h₁
    have hs₂ : Supplies g₁ (g₁.modify c (·.raise (g₁.node n).state)) id :=
      (SameEdges.modify g₁ c).supplies
    refine (hs₁.trans hs₂).trans (.of_eq (fun m => ?_) fun m => ?_)
    · exact copyUsePoints_field Node.pointsTo (fun _ _ => rfl) ..
    · exact copyUsePoints_field Node.defersTo (fun _ _ => rfl) ..

end Graph

end Escape
