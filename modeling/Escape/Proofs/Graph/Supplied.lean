import Escape.Proofs.Graph.Webs
import Mathlib.Logic.Relation

/-!
# Where contents come from

A content is given to a web where one of its nodes has an edge. The other nodes of the web only say
what they infer along defer edges. So a node that has a content can defer to one that has an edge,
and what a node defers to passes its content on. These two facts make sure that no node is left
without the content it had when nodes are merged.
-/

namespace Escape.Graph

variable {g g' g'' : Graph} {n m x : NodeId} {off : NodeId → Prop} {except : NodeId → NodeId → Prop}
  {ψ χ : NodeId → NodeId}

/-- The node has a content. -/
abbrev Holds (g : Graph) (n : NodeId) : Prop := (g.target? n).isSome

/-- What a node defers to passes its content on to it, along all defer edges that are not excepted.
-/
def Passes (g : Graph) (except : NodeId → NodeId → Prop) : Prop :=
  ∀ a b, ¬ except a b → g.Defers a b → g.Holds b → g.Holds a

/-- Contents come along defer edges from nodes that have an edge. This is said of the nodes that are
not cut off. -/
structure Supplied (g : Graph) (off : NodeId → Prop) : Prop where
  passes : g.Passes fun a _ => off a
  comes : ∀ n, ¬ off n → g.Holds n → ∃ e, ReflTransGen g.Defers n e ∧ g.HasEdge e

/-- From `g` to `g'` contents still come from edges, and the node `ψ n` has a content if `n` had
one. -/
def Supplies (g g' : Graph) (ψ : NodeId → NodeId) : Prop :=
  Supplied g nobody → Supplied g' nobody ∧ ∀ n, g.Holds n → g'.Holds (ψ n)

/-- From `g` to `g'` no content, edge or defer edge is taken away. A content is new only where a
defer edge leads to an edge, or to what had one before. -/
structure Sustains (g g' : Graph) : Prop where
  holds : ∀ n, g.Holds n → g'.Holds n
  edges : ∀ n, g.HasEdge n → g'.HasEdge n
  defers : ∀ n m, g.Defers n m → g'.Defers n m
  comes : ∀ n, g'.Holds n → ∃ e, ReflTransGen g'.Defers n e ∧ (g'.HasEdge e ∨ g.Holds e)

/-! ### Passing contents on -/

/-- Defer edges do not lead to a node that is cut off. -/
theorem Linked.path_not_off (hl : Linked g off) (hn : ¬ off n)
    (hp : ReflTransGen g.Defers n m) : ¬ off m := by
  induction hp with
  | refl => exact hn
  | tail _ hd ih => exact (hl.defer _ _ ih hd).1

namespace Passes

theorem mono {except' : NodeId → NodeId → Prop} (h : g.Passes except)
    (hsub : ∀ a b, except a b → except' a b) : g.Passes except' :=
  fun a b hab => h a b fun he => hab (hsub a b he)

/-- An exception is not needed if the edge passes a content on. -/
theorem seam (h : g.Passes fun a b => except a b ∨ a = n ∧ b = m) (hnm : g.Holds m → g.Holds n) :
    g.Passes except := by
  intro a b hab hd hb
  by_cases hseam : a = n ∧ b = m
  · rw [hseam.1]
    exact hnm (hseam.2 ▸ hb)
  · exact h a b (fun he => he.elim hab hseam) hd hb

theorem congr (h : g.Passes except) (hh : ∀ n, g'.Holds n ↔ g.Holds n)
    (hd : ∀ a b, g'.Defers a b → g.Defers a b) : g'.Passes except :=
  fun a b hab hdab hb => (hh a).mpr (h a b hab (hd a b hdab) ((hh b).mp hb))

/-- A node that can defer to one with a content has one. -/
theorem path (h : g.Passes fun a _ => off a) (hl : Linked g off) (hn : ¬ off n)
    (hp : ReflTransGen g.Defers n m) (hm : g.Holds m) : g.Holds n := by
  induction hp with
  | refl => exact hm
  | tail hp hd ih => exact ih (h _ _ (hl.path_not_off hn hp) hd hm)

end Passes

/-- Nodes that get a content pass it on, if those that defer to them get it as well. -/
theorem Fills.passes {V : NodeId → Prop} (hV : Fills g g' x V) (hl : Linked g off)
    (hclosed : ∀ a b, V b → a ∈ g.bareDeferrers b → V a) (hoff : ∀ a b, off a → except a b)
    (h : g.Passes except) : g'.Passes except := by
  intro a b hab hd hb
  have haoff : ¬ off a := fun ho => hab (hoff a b ho)
  have hd := hV.defers_iff.mp hd
  by_cases ha : g.Holds a
  · exact hV.isSome_mono ha
  · -- a node without content either defers to a new one, and is filled with it, or did not
    -- pass before
    have hVa : V a := by
      by_cases hVb : V b
      · have hbare : g.target? a = none := by simpa using ha
        exact hclosed a b hVb ((mem_bareDeferrers hl (hl.defer a b haoff hd).1).mpr
          ⟨haoff, hd, hbare⟩)
      · rw [Holds, target?, hV.pointsTo_of_not b hVb] at hb
        exact absurd (h a b hab hd hb) ha
    rw [Holds, hV.target a hVa]
    rfl

/-! ### Steps that take nothing away -/

namespace Sustains

theorem refl (g : Graph) : Sustains g g :=
  ⟨fun _ h => h, fun _ h => h, fun _ _ h => h, fun n h => ⟨n, .refl, .inr h⟩⟩

theorem trans (h : Sustains g g') (h' : Sustains g' g'') : Sustains g g'' where
  holds n hn := h'.holds n (h.holds n hn)
  edges n hn := h'.edges n (h.edges n hn)
  defers n m hd := h'.defers n m (h.defers n m hd)
  comes n hn := by
    obtain ⟨e, hp, he | he⟩ := h'.comes n hn
    · exact ⟨e, hp, .inl he⟩
    · obtain ⟨e', hp', he'⟩ := h.comes e he
      exact ⟨e', hp.trans (hp'.lift id h'.defers), he'.imp_left (h'.edges e')⟩

/-- No content is new. -/
theorem of_holds (hh : ∀ n, g'.Holds n ↔ g.Holds n) (he : ∀ n, g.HasEdge n → g'.HasEdge n)
    (hd : ∀ a b, g.Defers a b → g'.Defers a b) : Sustains g g' :=
  ⟨fun n => (hh n).mpr, he, hd, fun n hn => ⟨n, .refl, .inr ((hh n).mp hn)⟩⟩

theorem of_fills {V : NodeId → Prop} (hV : Fills g g' x V)
    (hg : ∀ m, V m → ∃ e, ReflTransGen g.Defers m e ∧ (g'.HasEdge e ∨ g.Holds e)) :
    Sustains g g' where
  holds _ := hV.isSome_mono
  edges _ := hV.hasEdge_mono
  defers _ _ := hV.defers_iff.mpr
  comes n hn := by
    by_cases hVn : V n
    · obtain ⟨e, hp, he⟩ := hg n hVn
      exact ⟨e, hp.lift id fun _ _ => hV.defers_iff.mpr, he⟩
    · rw [Holds, target?, hV.pointsTo_of_not n hVn] at hn
      exact ⟨n, .refl, .inr hn⟩

end Sustains

namespace Supplies

theorem refl (g : Graph) : Supplies g g id := fun h => ⟨h, fun _ hn => hn⟩

theorem trans (h : Supplies g g' ψ) (h' : Supplies g' g'' χ) : Supplies g g'' (χ ∘ ψ) := by
  intro hs
  obtain ⟨hs', hh⟩ := h hs
  obtain ⟨hs'', hh'⟩ := h' hs'
  exact ⟨hs'', fun n hn => hh' _ (hh n hn)⟩

theorem of_sustains (h : Sustains g g')
    (hp : (g.Passes fun a _ => nobody a) → g'.Passes fun a _ => nobody a) : Supplies g g' id := by
  intro hs
  refine ⟨⟨hp hs.passes, fun n _ hn => ?_⟩, h.holds⟩
  obtain ⟨e, hpath, he | he⟩ := h.comes n hn
  · exact ⟨e, hpath, he⟩
  · -- what had a content before leads on to an edge, which is still there
    obtain ⟨e', hpath', he'⟩ := hs.comes e not_false he
    exact ⟨e', hpath.trans (hpath'.lift id h.defers), h.edges e' he'⟩

theorem congr (h : Supplies g g' ψ) (hψ : ∀ n, g.Holds n → χ n = ψ n) : Supplies g g' χ := by
  intro hs
  obtain ⟨hs', hh⟩ := h hs
  refine ⟨hs', fun n hn => ?_⟩
  rw [hψ n hn]
  exact hh n hn

/-- Contents and defer edges stay as they are. -/
theorem of_eq (hp : ∀ n, (g'.node n).pointsTo = (g.node n).pointsTo)
    (hd : ∀ n, (g'.node n).defersTo = (g.node n).defersTo) : Supplies g g' id := by
  have hh : ∀ n, g'.Holds n ↔ g.Holds n := fun n => by rw [Holds, target?, hp, ← target?]
  refine of_sustains (.of_holds hh ?_ ?_) fun h => h.congr hh ?_
  · intro n hn
    rwa [HasEdge, hp]
  · intro a b hab
    rwa [Defers, hd]
  · intro a b hab
    rwa [Defers, hd] at hab

end Supplies

end Escape.Graph
