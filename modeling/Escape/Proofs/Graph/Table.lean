import Escape.Graph.Merge

/-!
# The table of nodes under change

What the edges of a graph are, and what an operation leaves alone.

- `Graph.target?`, `Graph.HasEdge`, `Graph.Defers`: the edges of a graph, as relations on its nodes.
-/

namespace Escape

/-- A node without its edges and use points. -/
def Node.bare (x : Node) : Node :=
  { x with pointsTo := .none, defersTo := [], preds := [], usePoints := {} }

namespace Graph

variable {g g' g'' : Graph} {n m : NodeId} {c : NodeId}

/-! ### Nodes -/

/-- The graph has the node `n`. -/
def Has (g : Graph) (n : NodeId) : Prop := n.index < g.size

instance (g : Graph) (n : NodeId) : Decidable (g.Has n) := inferInstanceAs (Decidable (_ < _))

/-- The table is listed whole. -/
theorem mem_nodeIds : n ∈ g.nodeIds ↔ g.Has n := by
  simp only [nodeIds, List.mem_map, List.mem_range, Has]
  exact ⟨fun ⟨i, hi, he⟩ => he ▸ hi, fun h => ⟨n.index, h, rfl⟩⟩

theorem length_nodeIds (g : Graph) : g.nodeIds.length = g.size := by simp [nodeIds]

/-- No node is listed twice. -/
theorem nodeIds_nodup (g : Graph) : g.nodeIds.Nodup :=
  List.Pairwise.map _ (fun _ _ h e => h (NodeId.mk.inj e)) List.nodup_range

/-- Nodes can be required if the table has them. -/
theorem require_ok : g.require n = .ok () ↔ g.Has n := by
  unfold require Has
  split <;> simp_all

/-- A node outside of the table is bare. -/
theorem node_of_not_has (h : ¬ g.Has n) : g.node n = {} := by
  have : g.nodes.size ≤ n.index := Nat.le_of_not_lt h
  simp [node, Array.getD_eq_getD_getElem?, this]

/-- What the table does not have is read as a new node. -/
theorem has_of_node_ne (h : g.node n ≠ {}) : g.Has n :=
  Decidable.byContradiction fun hn => h (node_of_not_has hn)

/-- A change of a node that is missing does nothing. -/
theorem node_modify (g : Graph) (n m : NodeId) (f : Node → Node) :
    (g.modify n f).node m = if m = n ∧ g.Has n then f (g.node m) else g.node m := by
  by_cases hm : m = n
  · subst hm
    by_cases hn : g.Has m
    · simp only [hn, and_self, if_true]
      exact node_modify_self hn f
    · have hs : ¬ (g.modify m f).Has m := by simpa [Has] using hn
      simp only [hn, and_false, if_false]
      rw [node_of_not_has hs, node_of_not_has hn]
  · simp only [hm, false_and, if_false]
    exact node_modify_of_ne hm f

theorem node_modify_of_has (h : g.Has n) (f : Node → Node) (m : NodeId) :
    (g.modify n f).node m = if m = n then f (g.node m) else g.node m := by
  rw [node_modify]
  simp only [h, and_true]

@[simp] theorem has_modify (f : Node → Node) : (g.modify n f).Has m ↔ g.Has m := by
  simp [Has]

/-- A change that does nothing to the node it is made to. -/
theorem modify_eq_self {f : Node → Node} (h : f (g.node n) = g.node n) : g.modify n f = g := by
  have hnodes : g.nodes.modify n.index f = g.nodes := by
    refine Array.ext (by simp) fun i h₁ h₂ => ?_
    rw [Array.getElem_modify]
    split
    · rename_i e
      have hnode : g.node n = g.nodes[i] := by
        simp [node, Array.getD_eq_getD_getElem?, e, h₂]
      rw [← hnode, h]
    · rfl
  rw [modify, hnodes]

/-- A field that the change of a node leaves alone. -/
theorem node_modify_field {α : Type} {f : Node → Node} (p : Node → α)
    (h : ∀ x, p (f x) = p x := by intros; rfl) (g : Graph) (n m : NodeId) :
    p ((g.modify n f).node m) = p (g.node m) := by
  rw [node_modify]
  split
  · exact h _
  · rfl

/-- What a graph describes, and whether it still does. -/
def label (g : Graph) : Option FuncId × Bool × Bool := (g.owner, g.summary, g.valid)

/-- What a graph describes, and the numbers of its use points. -/
def header (g : Graph) : (Option FuncId × Bool × Bool) × AssocMap InstId Nat × Array
    (Option InstId) :=
  (g.label, g.usePoints, g.users)

theorem label_of_header (h : g'.header = g.header) : g'.label = g.label := congrArg Prod.fst h

/-! ### Edges -/

/-- What `n` points to, before merge links are followed. -/
def target? (g : Graph) (n : NodeId) : Option NodeId := (g.node n).pointsTo.target?

/-- Node `n` points to something by an edge of its own. -/
def HasEdge (g : Graph) (n : NodeId) : Prop := (g.node n).pointsTo.isEdge = true

/-- Node `n` defers to `m`. -/
def Defers (g : Graph) (n m : NodeId) : Prop := m ∈ (g.node n).defersTo

/-- A defer edge leads from one of the two nodes to the other. -/
def Joined (g : Graph) (n m : NodeId) : Prop := g.Defers n m ∨ g.Defers m n

theorem Joined.symm (h : g.Joined n m) : g.Joined m n := Or.symm h

/-- The content of a node is what represents its target. -/
theorem content?_eq (g : Graph) (n : NodeId) :
    g.content? n = (g.target? n).map g.representative := rfl

theorem isSet_eq (g : Graph) (n : NodeId) : (g.node n).pointsTo.isSet = (g.target? n).isSome := rfl

/-- Inferred targets are no edges. -/
theorem hasEdge_iff : g.HasEdge n ↔ ∃ c, (g.node n).pointsTo = .edge c := by
  unfold HasEdge
  cases (g.node n).pointsTo <;> simp [Pointee.isEdge]

theorem target?_of_edge (h : (g.node n).pointsTo = .edge c) : g.target? n = some c := by
  simp [target?, h, Pointee.target?]

theorem target?_of_inferred (h : (g.node n).pointsTo = .inferred c) :
    g.target? n = some c := by
  simp [target?, h, Pointee.target?]

theorem target?_eq_none_iff : g.target? n = none ↔ (g.node n).pointsTo = .none := by
  unfold target?
  cases (g.node n).pointsTo <;> simp [Pointee.target?]

/-- A target is inferred, or there is an edge to it. -/
theorem target?_eq_some_iff :
    g.target? n = some c ↔ (g.node n).pointsTo = .inferred c ∨ (g.node n).pointsTo = .edge c := by
  unfold target?
  cases (g.node n).pointsTo <;> simp [Pointee.target?]

theorem HasEdge.target?_isSome (h : g.HasEdge n) : (g.target? n).isSome := by
  obtain ⟨c, hc⟩ := hasEdge_iff.mp h
  rw [target?_of_edge hc]
  rfl

/-- A missing node has no target. -/
theorem has_of_target? (h : g.target? n = some c) : g.Has n := by
  refine has_of_node_ne fun he => ?_
  rw [target?, he] at h
  exact absurd h (by simp [Pointee.target?])

/-- A missing node has no content. -/
theorem has_of_content? (h : g.content? n = some c) : g.Has n := by
  obtain ⟨d, hd, -⟩ := Option.map_eq_some_iff.mp h
  exact has_of_target? hd

/-- A missing node defers to nothing. -/
theorem Defers.has (h : g.Defers n m) : g.Has n := by
  refine has_of_node_ne fun he => ?_
  rw [Defers, he] at h
  exact absurd h (by simp)

/-- No edge is entered at a missing node. -/
theorem has_of_pred {p : Pred} (h : p ∈ (g.node n).preds) : g.Has n := by
  refine has_of_node_ne fun he => ?_
  rw [he] at h
  exact absurd h (by simp)

/-- A missing node is no content. -/
theorem has_of_isContent (h : (g.node n).isContent) : g.Has n := by
  refine has_of_node_ne fun he => ?_
  rw [he] at h
  exact absurd h (by decide)

/-- The origins of the defer edges to a node. -/
theorem mem_deferPreds {x : Node} : m ∈ x.deferPreds ↔ ⟨.defer, m⟩ ∈ x.preds := by
  simp only [Node.deferPreds, List.mem_filterMap]
  constructor
  · rintro ⟨⟨k, p⟩, hp, he⟩
    split at he
    · rename_i hk
      cases hk
      cases he
      exact hp
    · cases he
  · intro h
    exact ⟨_, h, rfl⟩

/-! ### Changes of edges -/

/-- The graph `g'` differs from `g` in edges and use points only. -/
structure Rewires (g g' : Graph) : Prop where
  size : g'.size = g.size
  rest : g' = { g with nodes := g'.nodes }
  same : ∀ n, (g'.node n).bare = (g.node n).bare

namespace Rewires

theorem refl (g : Graph) : Rewires g g := ⟨rfl, rfl, fun _ => rfl⟩

variable (h : Rewires g g')
include h

/-- Edges may be changed in several steps. -/
theorem trans (h' : Rewires g' g'') : Rewires g g'' where
  size := h'.size.trans h.size
  rest := by rw [h'.rest, h.rest]
  same n := (h'.same n).trans (h.same n)

omit h in
/-- The edges of one node are changed. -/
theorem modify (g : Graph) (n : NodeId) {f : Node → Node}
    (h : ∀ x, (f x).bare = x.bare := by intros; rfl) : Rewires g (g.modify n f) where
  size := size_modify g n f
  rest := rfl
  same m := node_modify_field Node.bare h g n m

/-- Rewiring adds no nodes. -/
theorem has : g'.Has n ↔ g.Has n := by
  rw [Has, Has, h.size]

/-- Rewiring keeps whatever does not depend on edges and use points. -/
theorem field {α : Type} (p : Node → α) (hp : ∀ x, p x.bare = p x := by intros; rfl) (n : NodeId) :
    p (g'.node n) = p (g.node n) := by
  rw [← hp, h.same, hp]

/-- Nodes keep their kinds. -/
theorem kind (n : NodeId) : (g'.node n).kind = (g.node n).kind :=
  h.field Node.kind (fun _ => rfl) n

theorem isContent (n : NodeId) : (g'.node n).isContent = (g.node n).isContent := by
  simp only [Node.isContent, h.kind]

/-- Nodes keep their values. -/
theorem value (n : NodeId) : (g'.node n).value = (g.node n).value :=
  h.field Node.value (fun _ => rfl) n

/-- Nodes keep their states. -/
theorem state (n : NodeId) : (g'.node n).state = (g.node n).state :=
  h.field Node.state (fun _ => rfl) n

/-- Nodes keep their merge links. -/
theorem mergeTo (n : NodeId) : (g'.node n).mergeTo = (g.node n).mergeTo :=
  h.field Node.mergeTo (fun _ => rfl) n

/-- The same nodes are tombstones. -/
theorem merged (n : NodeId) : (g'.node n).merged = (g.node n).merged :=
  h.field Node.merged (fun _ => rfl) n

theorem interior (n : NodeId) : (g'.node n).interior = (g.node n).interior :=
  h.field Node.interior (fun _ => rfl) n

/-- The same nodes wait for a merge. -/
theorem pending : g'.pending = g.pending := by rw [h.rest]

/-- Values stay with their nodes. -/
theorem values : g'.values = g.values := by rw [h.rest]

theorem returnNode : g'.returnNode = g.returnNode := by rw [h.rest]

theorem header : g'.header = g.header := by rw [h.rest]; rfl

end Rewires

/-- Merge links alone decide which node represents another. -/
theorem followLinks_congr (h : ∀ n, (g'.node n).mergeTo = (g.node n).mergeTo) (bound : Nat) :
    ∀ n, g'.followLinks bound n = g.followLinks bound n := by
  induction bound with
  | zero => exact fun _ => rfl
  | succ bound ih =>
    intro n
    simp only [followLinks, h n]
    split
    · exact ih _
    · rfl

/-- Representatives depend on the merge links alone. -/
theorem representative_congr (hs : g'.size = g.size)
    (h : ∀ n, (g'.node n).mergeTo = (g.node n).mergeTo) (n : NodeId) :
    g'.representative n = g.representative n := by
  rw [representative, representative, hs, followLinks_congr h]

/-- Nodes keep their representatives. -/
theorem Rewires.representative (h : Rewires g g') (n : NodeId) :
    g'.representative n = g.representative n :=
  representative_congr h.size h.mergeTo n

/-- Contents change with the targets only. -/
theorem Rewires.content? (h : Rewires g g') (n : NodeId) :
    g'.content? n = (g'.target? n).map g.representative := by
  rw [content?_eq]
  exact congrArg (Option.map · _) (funext h.representative)

end Graph

end Escape
