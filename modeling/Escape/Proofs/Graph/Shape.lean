import Escape.Proofs.Graph.Phases
import Escape.Proofs.Graph.Supplied
import Escape.Graph.Values

/-!
# The shape of a graph

What holds of every graph that the operations make, also while merges are pending: edges and their
entries agree, merge links form a forest, and tombstones have no edges. The other nodes with a merge
link are those that wait to be merged.
-/

namespace Escape

/-- A node without its state, its flags and its use points. -/
def Node.frame (x : Node) : Node :=
  { x with state := .noEscape, interior := false, referenceOnly := false, usePoints := {} }

namespace Graph

variable {g g' g'' : Graph} {n m : NodeId} {pend : NodeId → Prop}

/-- The shape of a graph in which the nodes in `pend` wait to be merged. -/
structure Shape (g : Graph) (pend : NodeId → Prop) : Prop where
  linked : Linked g nobody
  forest : Forest g
  waits : ∀ n, pend n ↔ (g.node n).merged = false ∧ (g.node n).mergeTo.isSome
  tomb_links : ∀ n, (g.node n).merged = true → (g.node n).mergeTo.isSome
  tomb_pointsTo : ∀ n, (g.node n).merged = true → (g.node n).pointsTo = .none
  tomb_defersTo : ∀ n, (g.node n).merged = true → (g.node n).defersTo = []
  tomb_content : ∀ n, (g.node n).merged = true → (g.node n).isContent
  tomb_value : ∀ n, (g.node n).merged = true → (g.node n).value = none
  defers_live : ∀ n m, g.Defers n m → (g.node m).merged = false
  target_has : ∀ n c, g.target? n = some c → g.Has c
  value_mapped : ∀ n v, (g.node n).value = some v →
    ∃ m, g.values.find? v = some m ∧ g.representative m = g.representative n
  values_has : ∀ v n, g.values.find? v = some n → g.Has n
  return_has : ∀ n, g.returnNode = some n → g.Has n

namespace Shape

variable (h : Shape g pend)
include h

/-- The shape does not depend on states, flags, use points and the list of pending merges. -/
theorem congr (hs : g'.size = g.size)
    (hn : ∀ n, (g'.node n).frame = (g.node n).frame) (hv : g'.values = g.values)
    (hr : g'.returnNode = g.returnNode) : Shape g' pend := by
  have field : ∀ {α : Type} (p : Node → α) (_ : ∀ x, p x.frame = p x) n,
      p (g'.node n) = p (g.node n) := fun p hp n => by rw [← hp, hn, hp]
  have hm := field Node.mergeTo fun _ => rfl
  have hd := field Node.merged fun _ => rfl
  have hp := field Node.pointsTo fun _ => rfl
  have hf := field Node.defersTo fun _ => rfl
  have hrep := representative_congr hs hm
  have hhas : ∀ n, g'.Has n ↔ g.Has n := fun n => by rw [Has, Has, hs]
  exact {
    linked := h.linked.congr hp hf (field Node.preds fun _ => rfl)
    forest := h.forest.congr (Nat.le_of_eq hs.symm) hm
    waits := fun n => by rw [hd, hm]; exact h.waits n
    tomb_links := fun n => by rw [hd, hm]; exact h.tomb_links n
    tomb_pointsTo := fun n => by rw [hd, hp]; exact h.tomb_pointsTo n
    tomb_defersTo := fun n => by rw [hd, hf]; exact h.tomb_defersTo n
    tomb_content := fun n => by
      rw [hd, field Node.isContent fun _ => rfl]
      exact h.tomb_content n
    tomb_value := fun n => by rw [hd, field Node.value fun _ => rfl]; exact h.tomb_value n
    defers_live := fun n m => by rw [Defers, hf, hd]; exact h.defers_live n m
    target_has := fun n c => by rw [target?, hp, hhas]; exact h.target_has n c
    value_mapped := fun n v => by
      rw [field Node.value fun _ => rfl, hv]
      simp only [hrep]
      exact h.value_mapped n v
    values_has := fun v n => by rw [hv, hhas]; exact h.values_has v n
    return_has := fun n => by rw [hr, hhas]; exact h.return_has n }

/-- A node that neither is a tombstone nor waits is its own representative. -/
theorem representative_of_live (hn : (g.node n).merged = false)
    (hp : ¬ pend n) : g.representative n = n := by
  refine representative_of_root ?_
  by_contra hm
  exact hp ((h.waits n).mpr ⟨hn, Option.isSome_iff_ne_none.mpr hm⟩)

/-- Only nodes of the table wait. -/
theorem has_of_waits (hp : pend n) : g.Has n := by
  refine has_of_node_ne fun e => ?_
  have := ((h.waits n).mp hp).2
  rw [e] at this
  cases this

/-- No tombstone is a representative. -/
theorem merged_representative (n : NodeId) : (g.node (g.representative n)).merged = false := by
  by_contra hm
  have := h.tomb_links _ (by simpa using hm)
  rw [h.forest.mergeTo_representative] at this
  cases this

/-- Tombstones point nowhere. -/
theorem live_of_target {c : NodeId} (ht : g.target? n = some c) : (g.node n).merged = false := by
  by_contra hm
  rw [target?, h.tomb_pointsTo n (by simpa using hm)] at ht
  cases ht

/-- Tombstones defer to nothing. -/
theorem live_of_defers (hd : g.Defers n m) : (g.node n).merged = false := by
  by_contra hm
  rw [Defers, h.tomb_defersTo n (by simpa using hm)] at hd
  cases hd

theorem has_of_defers (hd : g.Defers n m) : g.Has m :=
  h.linked.has_defer not_false hd

end Shape

/-! ### What one graph keeps of another -/

/-- The graph `g'` describes at least what `g` did, with each live node `n` carried on to `ψ n`.
Nothing is said of contents. -/
structure Conveys (g g' : Graph) (ψ : NodeId → NodeId) : Prop where
  size_le : g.size ≤ g'.size
  kind : ∀ n, g.Has n → (g'.node n).kind = (g.node n).kind
  merge : ∀ n, g.Has n → g'.representative (g.representative n) = g'.representative n
  has : ∀ n, g.Has n → g'.Has (ψ n)
  live : ∀ n, g.Has n → (g.node n).merged = false → (g'.node (ψ n)).merged = false
  represents : ∀ n, g.Has n → g'.representative (ψ n) = g'.representative n
  fixed : ∀ n, g.Has n → (g.node n).isContent = false → ψ n = n
  state : ∀ n, g.Has n → (g.node n).state ≤ (g'.node (ψ n)).state
  defers : ∀ n m, g.Defers n m → ψ n = ψ m ∨ g'.Defers (ψ n) (ψ m)
  values : ∀ v n, g.values.find? v = some n →
    ∃ n', g'.values.find? v = some n' ∧ g'.representative n' = g'.representative n
  keys : ∀ v, (g'.values.find? v).isSome → (g.values.find? v).isSome
  named : ∀ n v, g.Has n → (g.node n).isContent = false → (g.node n).value = some v →
    (g'.node n).value = some v
  returnNode : ∀ n, g.returnNode = some n → g'.returnNode = some n
  returned : ∀ n, g'.returnNode = some n → g.returnNode = some n ∨ g'.Has n ∧
    (g'.node n).kind = .returned
  header : g'.header = g.header

/-- The graph `g'` describes at least what `g` did, with each live node `n` carried on to `ψ n`.
Nodes that have a content keep one. -/
structure Carries (g g' : Graph) (ψ : NodeId → NodeId) : Prop extends Conveys g g' ψ where
  supplies : Supplies g g' ψ

section Carries

variable {ψ χ : NodeId → NodeId}

namespace Conveys

/-- Every graph carries on itself. -/
theorem refl (hf : Forest g) : Conveys g g id where
  size_le := Nat.le_refl _
  kind _ _ := rfl
  merge n _ := hf.representative_representative n
  has _ h := h
  live _ _ h := h
  represents _ _ := rfl
  fixed _ _ _ := rfl
  state _ _ := EscapeState.le_refl _
  defers _ _ h := .inr h
  values _ n h := ⟨n, h, rfl⟩
  keys _ h := h
  named _ _ _ _ h := h
  returnNode _ h := h
  returned _ h := .inl h
  header := rfl

/-- Nodes stay in the table. -/
theorem has_mono (h : Conveys g g' ψ) (hn : g.Has n) : g'.Has n :=
  Nat.lt_of_lt_of_le hn h.size_le

/-- What is carried on twice is carried on. -/
theorem trans {pend' : NodeId → Prop} (h : Conveys g g' ψ) (h' : Conveys g' g'' χ)
    (hs : Shape g pend) (hs' : Shape g' pend') : Conveys g g'' (χ ∘ ψ) where
  size_le := Nat.le_trans h.size_le h'.size_le
  kind n hn := (h'.kind n (h.has_mono hn)).trans (h.kind n hn)
  merge n hn := by
    have hrn : g.Has (g.representative n) := hs.forest.has_representative hn
    rw [← h'.merge _ (h.has_mono hrn), h.merge n hn, h'.merge n (h.has_mono hn)]
  has n hn := h'.has _ (h.has n hn)
  live n hn hm := h'.live _ (h.has n hn) (h.live n hn hm)
  represents n hn := by
    show g''.representative (χ (ψ n)) = _
    rw [h'.represents _ (h.has n hn), ← h'.merge _ (h.has n hn), h.represents n hn,
      h'.merge n (h.has_mono hn)]
  fixed n hh hn := by
    show χ (ψ n) = n
    rw [h.fixed n hh hn]
    refine h'.fixed n (h.has_mono hh) ?_
    rw [Node.isContent, h.kind n hh]
    exact hn
  state n hn := EscapeState.le_trans (h.state n hn) (h'.state _ (h.has n hn))
  defers n m hd := by
    rcases h.defers n m hd with e | hd
    · exact .inl (congrArg χ e)
    · exact h'.defers _ _ hd
  values v n hv := by
    obtain ⟨n', hv', hr⟩ := h.values v n hv
    obtain ⟨n'', hv'', hr'⟩ := h'.values v n' hv'
    refine ⟨n'', hv'', ?_⟩
    rw [hr', ← h'.merge n' (hs'.values_has v n' hv'), hr,
      h'.merge n (h.has_mono (hs.values_has v n hv))]
  keys v hv := h.keys v (h'.keys v hv)
  named n v hn hc hv := by
    refine h'.named n v (h.has_mono hn) ?_ (h.named n v hn hc hv)
    rw [Node.isContent, h.kind n hn]
    exact hc
  returnNode n hr := h'.returnNode n (h.returnNode n hr)
  returned n hr := by
    rcases h'.returned n hr with hr' | hnew
    · refine (h.returned n hr').imp_right fun hn => ⟨h'.has_mono hn.1, ?_⟩
      rw [h'.kind n hn.1, hn.2]
    · exact .inr hnew
  header := h'.header.trans h.header

end Conveys

theorem Carries.refl (hf : Forest g) : Carries g g id := ⟨.refl hf, .refl g⟩

theorem Carries.trans {pend' : NodeId → Prop} (h : Carries g g' ψ) (h' : Carries g' g'' χ)
    (hs : Shape g pend) (hs' : Shape g' pend') : Carries g g'' (χ ∘ ψ) :=
  ⟨h.toConveys.trans h'.toConveys hs hs', h.supplies.trans h'.supplies⟩

end Carries

end Graph

end Escape
