import Escape.Proofs.Graph.MergeForest
import Escape.Proofs.Graph.UsePoints

/-!
# Handing use points on

Use points are numbered for a graph as a whole. Making contents, adding edges and merging nodes
numbers none: the use points of a node are taken over from other nodes, which is to say that they
are handed on.

- `Graph.absorb_hands`, `Graph.defer_hands`, `Graph.ensureContent_hands`: merges, defer edges and
  contents hand on.
-/

namespace Escape.Graph

variable {g g' g'' : Graph} {n m c src : NodeId} {s : Scope} {v : ValueId}
  {interior referenceOnly : Bool}

/-- From `g` to `g'` no instruction gets a number or loses it, and all use points were use points of
nodes before. -/
structure Hands (g g' : Graph) : Prop where
  usePoints : g'.usePoints = g.usePoints
  users : g'.users = g.users
  uses : ∀ U, UsesIn U g → UsesIn U g'

namespace Hands

theorem refl (g : Graph) : Hands g g := ⟨rfl, rfl, fun _ h => h⟩

theorem trans (h : Hands g g') (h' : Hands g' g'') : Hands g g'' :=
  ⟨h'.usePoints.trans h.usePoints, h'.users.trans h.users, fun U hU => h'.uses U (h.uses U hU)⟩

/-- Nodes keep their use points. -/
theorem of_eq (hp : g'.usePoints = g.usePoints) (hu : g'.users = g.users)
    (hn : ∀ n, (g'.node n).usePoints = (g.node n).usePoints) : Hands g g' :=
  ⟨hp, hu, fun U h n => by rw [hn]; exact h n⟩

theorem of_nodes (h : g'.nodes = g.nodes) (hp : g'.usePoints = g.usePoints)
    (hu : g'.users = g.users) : Hands g g' :=
  of_eq hp hu fun n => by rw [node, node, h]

theorem modify (g : Graph) (n : NodeId) {f : Node → Node}
    (hf : ∀ x, (f x).usePoints = x.usePoints := by intros; rfl) : Hands g (g.modify n f) :=
  of_eq rfl rfl (node_modify_field Node.usePoints hf g n)

theorem addNode (g : Graph) {x : Node} (hx : x.usePoints = {}) : Hands g (g.addNode x).1 :=
  of_eq rfl rfl (addNode_field Node.usePoints hx)

theorem raises (h : Raises g g') : Hands g g' :=
  of_eq (congrArg (·.2.1) h.header) (congrArg (·.2.2) h.header)
    (h.field Node.usePoints)

end Hands

/-- Changes of edges make up no use points. -/
theorem Redirects.hands {T : NodeId → Prop} (h : Redirects T g g') : Hands g g' :=
  ⟨by rw [h.rest], by rw [h.rest], h.uses⟩

theorem copyUsePoints_hands (g : Graph) (n m : NodeId) : Hands g (g.copyUsePoints n m) :=
  (copyUsePoints_redirects (.all g) n m).hands

/-! ### Merges -/

theorem schedule_hands (g : Graph) (n m : NodeId) : Hands g (g.schedule n m) := by
  by_cases h : g.representative n = g.representative m
  · rw [schedule_eq_self h]
    exact .refl g
  · refine .of_eq ?_ ?_ (schedule_field Node.usePoints (fun _ _ _ _ => rfl) n m)
    · rw [schedule_of_ne h]
      rfl
    · rw [schedule_of_ne h]
      rfl

theorem matchContents_hands (g : Graph) (src dst : NodeId) (content : Option NodeId) :
    Hands g (g.matchContents src dst content) := by
  unfold matchContents
  split
  · split
    · exact .refl g
    · exact schedule_hands g _ _
  · exact .refl g

/-- The node that stays takes over the use points of the other one, which keeps none. -/
theorem bury_hands (g : Graph) (src dst : NodeId) : Hands g (g.bury src dst) := by
  have hvalue (g : Graph) : Hands g (g.moveValue src dst) := by
    unfold moveValue
    split
    · rename_i v _ _
      have hmove : Hands g (g.modify dst fun x => { x with value := some v }) :=
        .modify g dst
      exact hmove.trans (.of_nodes rfl rfl rfl)
    · exact .refl g
  have hraise : Hands g (g.modify dst (·.raise (g.node src).state)) := .modify g dst
  refine ((hraise.trans (copyUsePoints_hands _ src dst)).trans (hvalue _)).trans
    ⟨rfl, rfl, fun U h => ?_⟩
  exact h.modify src fun _ _ => .empty

/-- **A merge hands use points on.** -/
theorem absorb_hands (hok : g.absorb src = .ok g') : Hands g g' := by
  obtain ⟨dst, content, k, k', -, hr, hr', rfl⟩ := absorb_phases hok
  exact (hr.hands.trans ((matchContents_hands k src dst content).trans hr'.hands)).trans
    (bury_hands k' src dst)

theorem settle_hands (hok : g.settle = .ok g') : Hands g g' := by
  refine settle_induct (P := Hands g) (fun k k' n rest hk _ h₁ => ?_) (.refl g) hok
  have hpop : Hands k { k with pending := rest } := .of_nodes rfl rfl rfl
  exact hk.trans (hpop.trans (absorb_hands h₁))

/-- **A defer edge hands use points on**, with the merges that it asks for. -/
theorem defer_hands (hok : g.defer n m = .ok (g', c)) : Hands g g' := by
  obtain ⟨⟨g₀, k, changed⟩, h₀, hok⟩ := bind_ok.mp hok
  cases hok
  rcases deferTracked_ok h₀ with ⟨-, rfl, -⟩ | ⟨-, -, -, -, -, g₁, g₂, _, _, h₁, h₂, h₃, -⟩
  · exact .refl _
  · have hmerge : Hands g g₁ := by
      rcases mergeContents_cases h₁ with ⟨rfl, -⟩ | ⟨c, d, -, -, -, hs, -⟩
      · exact .refl _
      · exact (schedule_hands g c d).trans (settle_hands hs)
    have hdefer := addDefer_redirects (.all g₁) h₂
    have hshare := shareContent_redirects (.all g₂) (fun _ _ => trivial) (fun _ _ => trivial) h₃
    exact hmerge.trans (hdefer.trans hshare).hands

/-! ### Nodes and contents -/

theorem mapValue_hands (g : Graph) (v : ValueId) (n : NodeId) : Hands g (g.mapValue v n) := by
  have hvalue : Hands g (g.modify n fun x => { x with value := x.value <|> some v }) :=
    .modify g n
  exact hvalue.trans (.of_nodes rfl rfl rfl)

theorem enter_hands (g : Graph) (a : Scope.Anchor) : Hands g (g.enter a).1 := by
  rcases enter_cases g a with ⟨n, f, -, rfl, e⟩ | ⟨x, -, hx, -, -, e⟩
  · rw [e]
    exact (Hands.modify g _).trans (.of_nodes rfl rfl rfl)
  · rw [e]
    exact (Hands.addNode g hx.usePoints).trans (mapValue_hands _ _ _)

theorem ensureReturn_hands (g : Graph) : Hands g g.ensureReturn.1 := by
  rcases ensureReturn_cases g with ⟨n, -, e⟩ | ⟨x, -, hx, -, -, e⟩
  · rw [e]
    exact .refl g
  · rw [e]
    exact (Hands.addNode g hx.usePoints).trans (.of_nodes rfl rfl rfl)

theorem ensureContent_hands (hok : g.ensureContent n interior referenceOnly = .ok (g', c)) :
    Hands g g' := by
  obtain ⟨_, -, hok⟩ := bind_ok.mp hok
  split at hok
  · cases hok
    exact .modify g _
  · obtain ⟨⟨g₁, c₁⟩, h₁, hok⟩ := bind_ok.mp hok
    cases hok
    obtain ⟨g₂, h₂, h₁⟩ := bind_ok.mp h₁
    cases h₁
    have hadd := Hands.addNode g (Node.fresh_content interior referenceOnly).usePoints
    have hnew := hadd.trans (spread_redirects (.all _) trivial h₂).hands
    exact (hnew.trans (.modify _ _)).trans (copyUsePoints_hands _ n _)

/-- The content of a value is made by entering the value and making contents. -/
theorem contentFor_induct {P : Graph → Prop} (henter : ∀ g a, P g → P (g.enter a).1)
    (hcontent : ∀ g n interior referenceOnly g' c, P g →
      g.ensureContent n interior referenceOnly = .ok (g', c) → P g')
    {c? : Option NodeId} (h : P g) (hok : g.contentFor s v = .ok (g', c?)) : P g' := by
  have hnode {k : Graph} {n? : Option NodeId} (hok : g.nodeFor s v = .ok (k, n?)) : P k := by
    rcases nodeFor_ok hok with ⟨-, rfl, -⟩ | ⟨a, -, -, rfl, -⟩
    · exact h
    · exact henter g a h
  rcases contentFor_cases hok with ⟨-, h₁⟩ | ⟨g₁, n, c, -, h₁,
    ⟨-, b, h₂⟩ | ⟨-, -, fields, h₂⟩ | ⟨-, -, h₂⟩⟩
  · exact hnode h₁
  · exact hcontent _ _ _ _ _ _ (hnode h₁) h₂
  · obtain ⟨g₂, h₃, ⟨-, rfl⟩ | ⟨-, b, d, h₄⟩⟩ := ensureObject_cases h₂
    · exact hcontent _ _ _ _ _ _ (hnode h₁) h₃
    · exact hcontent _ _ _ _ _ _ (hcontent _ _ _ _ _ _ (hnode h₁) h₃) h₄
  · exact hcontent _ _ _ _ _ _ (hnode h₁) h₂

end Escape.Graph
