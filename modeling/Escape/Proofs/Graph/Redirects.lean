import Escape.Proofs.Graph.Turns
import Escape.Proofs.UsePointSet

/-!
# Changes of edges

Most of what is done to a graph changes edges and use points, and nothing else about its nodes.
Whatever the edges look like, such a change takes no content from a node, cuts defer edges only at
nodes that are merged or wait to be, and makes up no use points.

- `Graph.spread_redirects`, `Graph.repoint_redirects`: giving a content, or another one, to a web.
-/

namespace Escape.Graph

variable {g g' g'' : Graph} {n m c : NodeId} {T : NodeId → Prop} {U : Nat → Prop}

/-- All use points of nodes are in `U`. -/
def UsesIn (U : Nat → Prop) (g : Graph) : Prop := ∀ n, (g.node n).usePoints.In U

/-- The use points of one node are changed. -/
theorem UsesIn.modify (h : UsesIn U g) (n : NodeId) {f : Node → Node}
    (hf : ∀ x : Node, x.usePoints.In U → (f x).usePoints.In U) : UsesIn U (g.modify n f) := by
  intro m
  rw [node_modify]
  split
  · exact hf _ (h m)
  · exact h m

/-- The node is merged, or waits to be merged. -/
def Gone (g : Graph) (n : NodeId) : Prop := (g.node n).mergeTo.isSome

/-- Whatever is pointed to is in `T`. -/
def PointsInto (T : NodeId → Prop) (g : Graph) : Prop := ∀ n c, g.target? n = some c → T c

theorem PointsInto.all (g : Graph) : PointsInto (fun _ => True) g := fun _ _ _ => trivial

/-- From `g` to `g'` edges and use points change, and whatever is pointed to then is in `T`. No node
loses its content, defer edges are cut only if they lead to nodes that are gone, and use points come
from nodes that had them. -/
structure Redirects (T : NodeId → Prop) (g g' : Graph) : Prop extends Rewires g g' where
  points : PointsInto T g'
  content : ∀ n, (g.node n).pointsTo.isSet → (g'.node n).pointsTo.isSet
  defers : ∀ n d, g.Defers n d → g'.Defers n d ∨ g.Gone d
  uses : ∀ U, UsesIn U g → UsesIn U g'

/-- The same nodes are gone. -/
theorem Rewires.gone (h : Rewires g g') : g'.Gone n ↔ g.Gone n := by
  rw [Gone, Gone, h.mergeTo]

namespace Redirects

section

variable (h : PointsInto T g)
include h

theorem refl : Redirects T g g := ⟨.refl g, h, fun _ => id, fun _ _ => .inl, fun _ => id⟩

omit h in
/-- Edges may be moved in several steps. -/
theorem trans (h : Redirects T g g') (h' : Redirects T g' g'') : Redirects T g g'' where
  toRewires := h.toRewires.trans h'.toRewires
  points := h'.points
  content n hn := h'.content n (h.content n hn)
  defers n d hd := by
    rcases h.defers n d hd with hd | hgone
    · exact (h'.defers n d hd).imp_right h.toRewires.gone.mp
    · exact .inr hgone
  uses U hU := h'.uses U (h.uses U hU)

/-- A change of one node. -/
theorem modify (n : NodeId) {f : Node → Node}
    (hpoints : (f (g.node n)).pointsTo = (g.node n).pointsTo ∨ ∃ c,
      (f (g.node n)).pointsTo.target? = some c ∧ T c)
    (hdefers : ∀ d ∈ (g.node n).defersTo, d ∈ (f (g.node n)).defersTo ∨ g.Gone d)
    (huses : ∀ U, UsesIn U g → (f (g.node n)).usePoints.In U)
    (hbare : ∀ x, (f x).bare = x.bare := by intros; rfl) : Redirects T g (g.modify n f) := by
  refine ⟨.modify g n hbare, fun m c hc => ?_, fun m hm => ?_, fun m d hd => ?_, fun U hU m => ?_⟩
  · rw [target?, node_modify] at hc
    split at hc
    · rename_i hm
      rw [hm.1] at hc
      rcases hpoints with hsame | ⟨d, hd, hT⟩
      · rw [hsame] at hc
        exact h n c hc
      · exact Option.some.inj (hd.symm.trans hc) ▸ hT
    · exact h m c hc
  · rw [node_modify]
    split
    · rename_i hmn
      rw [hmn.1] at hm ⊢
      rcases hpoints with hsame | ⟨d, hd, -⟩
      · rwa [hsame]
      · rw [Pointee.isSet, hd]
        rfl
    · exact hm
  · rw [Defers, node_modify]
    split
    · rename_i hm
      rw [hm.1] at hd ⊢
      exact hdefers d hd
    · exact .inl hd
  · rw [node_modify]
    split
    · rename_i hm
      rw [hm.1]
      exact huses U hU
    · exact hU m

/-- A node points to another node of `T`. -/
theorem assign (n : NodeId) {p : Pointee} (hp : p.target? = some c) (hc : T c) :
    Redirects T g (g.modify n fun x => { x with pointsTo := p }) :=
  .modify h n (.inr ⟨c, hp, hc⟩) (fun _ => .inl) fun _ hU => hU n

/-- Entries for edges are no edges. -/
theorem addPred (n : NodeId) (p : Pred) : Redirects T g (g.modify n (·.addPred p)) :=
  .modify h n (.inl rfl) (fun _ => .inl) fun _ hU => hU n

theorem erasePred (n : NodeId) (p : Pred) : Redirects T g (g.modify n (·.erasePred p)) := by
  refine .modify h n (.inl (Node.erasePred_pointsTo p _)) (fun d hd => .inl ?_) (fun U hU => ?_)
    fun x => x.erasePred_bare p
  · rwa [Node.erasePred_defersTo]
  · rw [Node.erasePred_usePoints]
    exact hU n

/-- A loop, the rounds of which are such changes. -/
theorem foldlM {α : Type} {f : Graph → α → Checked Graph} {l : List α}
    (step : ∀ k a k', Rewires g k → PointsInto T k → f k a = .ok k' → Redirects T k k')
    (hok : l.foldlM f g = .ok g') : Redirects T g g' := by
  refine foldlM_of_ok (P := fun _ k => Redirects T g k) ?_ (.refl h) hok
  intro _ a _ k k' _ hk hstep
  exact hk.trans (step k a k' hk.toRewires hk.points hstep)

end

/-- Redirections add up along a loop. -/
theorem foldl {α : Type} {f : Graph → α → Graph}
    (step : ∀ k a, PointsInto T k → Redirects T k (f k a)) :
    ∀ (l : List α) {g : Graph}, PointsInto T g → Redirects T g (l.foldl f g)
  | [], _, h => .refl h
  | a :: l, g, h => (step g a h).trans (foldl step l (step g a h).points)

end Redirects

variable (h : PointsInto T g)
include h

/-- Makes an edge into `T`. -/
theorem linkEdge_redirects (n : NodeId) (hc : T c) : Redirects T g (g.linkEdge n c) := by
  have hedge := Redirects.assign h n (p := .edge c) rfl hc
  exact hedge.trans (.addPred hedge.points c _)

theorem setEdge_redirects (hc : T c) (hok : g.setEdge n c = .ok g') : Redirects T g g' := by
  obtain ⟨-, -, rfl⟩ := setEdge_ok.mp hok
  exact linkEdge_redirects h n hc

/-- Makes a defer edge, which `T` does not limit. -/
theorem addDefer_redirects {b : Bool} (hok : g.addDefer n m = .ok (g', b)) : Redirects T g g' := by
  obtain ⟨-, ⟨rfl, -, -⟩ | ⟨rfl, -, -, -⟩⟩ := addDefer_cases hok
  · exact .refl h
  · have hsrc := Redirects.modify h n
      (f := fun x => { x with defersTo := x.defersTo ++ [m] }) (.inl rfl)
      (fun _ hd => .inl (List.mem_append_left _ hd)) fun _ hU => hU n
    exact hsrc.trans (.addPred hsrc.points m _)

/-- A node takes over the use points of another. -/
theorem copyUsePoints_redirects (n m : NodeId) : Redirects T g (g.copyUsePoints n m) := by
  unfold copyUsePoints
  split
  · exact .refl h
  · exact .modify h m (.inl rfl) (fun _ => .inl) fun _ hU => (hU m).union (hU n)

omit h in
/-- Infers a target in `T`. -/
theorem infer_redirects (hc : T c) (g : Graph) (n : NodeId) (h : PointsInto T g) :
    Redirects T g (infer c g n) := by
  have hinfer := Redirects.assign h n (p := .inferred c) rfl hc
  exact hinfer.trans (copyUsePoints_redirects hinfer.points n c)

/-- One node takes a content on. -/
theorem give_redirects (hc : T c) (hok : give c g n = .ok g') : Redirects T g g' := by
  unfold give ensureEdge at hok
  obtain ⟨g₁, h₁, hok⟩ := bind_ok.mp hok
  cases hok
  have hown : Redirects T g g₁ := by
    split at h₁
    · cases h₁
      exact .refl h
    · obtain ⟨g₂, h₂, h₁⟩ := bind_ok.mp h₁
      cases h₁
      have hset := setEdge_redirects h hc h₂
      exact hset.trans (copyUsePoints_redirects hset.points n c)
  exact hown.trans (.foldl (infer_redirects hc) _ hown.points)

/-- All nodes of a web take a content on. -/
theorem spread_redirects {own : Bool} (hc : T c) (hok : g.spread n c own = .ok g') :
    Redirects T g g' := by
  obtain ⟨g₁, h₁, h₂⟩ := bind_ok.mp hok
  have hfirst := Redirects.foldlM h (fun _ _ _ _ hk => give_redirects hk hc) h₁
  refine hfirst.trans (.foldlM hfirst.points (fun k a k' _ hk hok => ?_) h₂)
  split at hok
  · cases hok
    exact .refl hk
  · exact give_redirects hk hc hok

/-- One node turns to another content. -/
theorem repointNode_redirects (hc : T c) (hok : repointNode c g n = .ok g') : Redirects T g g' := by
  unfold repointNode at hok
  split at hok
  · rename_i old _
    have hdrop := Redirects.erasePred h old ⟨.pointsTo, n⟩
    exact hdrop.trans (setEdge_redirects hdrop.points hc hok)
  · cases hok
    exact .assign h n rfl hc
  · cases hok
    exact .refl h

/-- All nodes of a web turn to another content. -/
theorem repoint_redirects (hc : T (g.representative c)) (hok : g.repoint n c = .ok g') :
    Redirects T g g' := by
  rcases repoint_cases rfl hok with ⟨-, rfl⟩ | ⟨done, -, hturns, -⟩
  · exact .refl h
  · clear hok
    induction hturns with
    | start => exact .refl h
    | turn _ _ _ _ hstep ih => exact ih.trans (repointNode_redirects ih.points hc hstep)

end Escape.Graph
