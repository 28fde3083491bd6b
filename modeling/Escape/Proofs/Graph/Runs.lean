import Escape.Proofs.Graph.Edits

/-!
# What runs make

- `Graph.run_sound`: a run of plain edits succeeds, and the graph passes the check after every edit.
-/

namespace Escape.Graph

variable {g g' : Graph} {n m : NodeId}

/-- A graph without nodes and values is stable. -/
theorem stable_of_empty (hn : g.nodes = #[]) (hv : ∀ v, g.values.find? v = none)
    (hr : g.returnNode = none) (hp : g.pending = []) : Stable g := by
  have hnode : ∀ n, g.node n = {} := fun n => by rw [node, hn]; rfl
  have htgt : ∀ n c, g.target? n ≠ some c := fun n c => by
    rw [target?, hnode]
    intro h
    cases h
  have hdef : ∀ n m, ¬ g.Defers n m := fun n m => by
    rw [Defers, hnode]
    exact List.not_mem_nil
  have hlive : ∀ {P : Prop} n, (g.node n).merged = true → P := fun n hm => by
    rw [hnode] at hm
    cases hm
  exact {
    linked := {
      edge := fun n c _ he => absurd (target?_of_edge he) (htgt n c)
      of_edge := fun n c _ hp => by rw [hnode] at hp; cases hp
      defer := fun n m _ hd => absurd hd (hdef n m)
      of_defer := fun n m _ hp => by rw [hnode] at hp; cases hp
      preds_nodup := fun n _ => by rw [hnode]; exact .nil
      defers_nodup := fun n _ => by rw [hnode]; exact .nil
      irrefl := fun n _ => hdef n n }
    forest := ⟨fun n => ⟨0, n, .root (by rw [hnode])⟩, fun n m hm => by rw [hnode] at hm; cases hm⟩
    waits := fun n => by simp [hnode, nobody]
    tomb_links := fun n hm => hlive n hm
    tomb_pointsTo := fun n hm => hlive n hm
    tomb_defersTo := fun n hm => hlive n hm
    tomb_content := fun n hm => hlive n hm
    tomb_value := fun n hm => hlive n hm
    defers_live := fun n m hd => absurd hd (hdef n m)
    target_has := fun n c hc => absurd hc (htgt n c)
    value_mapped := fun n v hv => by rw [hnode] at hv; cases hv
    values_has := fun v n hn => by rw [hv] at hn; cases hn
    return_has := fun n hn => by rw [hr] at hn; cases hn
    tomb_usePoints := fun n hm => hlive n hm
    target_live := fun n c hc => absurd hc (htgt n c)
    target_content := fun n c hc => absurd hc (htgt n c)
    agree := fun n m hd => absurd hd (hdef n m)
    progress := fun n hs => by
      obtain ⟨c, hc⟩ := Option.isSome_iff_exists.mp hs
      exact absurd hc (htgt n c)
    settled := hp
    conn := fun n m c hc _ => absurd hc (htgt n c)
    interior := fun n _ hi => by rw [hnode] at hi; cases hi }

/-- The graphs that runs start from: empty ones, of any function. -/
def IsStart (g : Graph) : Prop := ∃ owner summary, g = { owner, summary }

theorem IsStart.full (f : FuncId) : IsStart (full f) := ⟨some f, false, rfl⟩

theorem IsStart.stable (h : IsStart g) : Stable g := by
  obtain ⟨_, _, rfl⟩ := h
  exact stable_of_empty rfl (fun _ => rfl) rfl rfl

theorem IsStart.valid (h : IsStart g) : g.valid = true := by
  obtain ⟨_, _, rfl⟩ := h
  rfl

/-- A run of plain edits of live nodes, from a stable graph. -/
theorem Stable.run : ∀ (edits : List Edit) (g : Graph), Stable g →
    Along (fun g e => e.OnLive g ∧ e.Plain g) g edits →
    ∃ g', g.run edits = .ok g' ∧ Stable g' ∧ g'.label = g.label := by
  intro edits
  induction edits with
  | nil => exact fun g h _ => ⟨g, rfl, h, rfl⟩
  | cons e rest ih =>
    intro g h ha
    obtain ⟨g₁, hok, hs, hh⟩ := h.edit ha.1.1 ha.1.2
    obtain ⟨g', hok', hs', hh'⟩ := ih g₁ hs (ha.2 g₁ hok)
    refine ⟨g', ?_, hs', hh'.trans hh⟩
    rw [Graph.run, List.foldlM_cons, hok]
    exact hok'

/-- **Structural soundness.** A run of plain edits of live nodes never stops with a fault. After
every edit the graph is valid and passes the check, and the ends of a defer edge point to the same
content, or both point nowhere. -/
theorem run_sound {start : Graph} (hstart : IsStart start) {edits : List Edit}
    (h : Along (fun g e => e.OnLive g ∧ e.Plain g) start edits) (k : Nat) :
    ∃ g, start.run (edits.take k) = .ok g ∧ g.valid = true ∧ g.check false = .ok () ∧
      ∀ n m, g.Defers n m → g.content? n = g.content? m := by
  obtain ⟨g, hok, hs, hh⟩ := Stable.run _ start hstart.stable (h.take k)
  refine ⟨g, hok, ?_, hs.check_ok, fun n m hd => ?_⟩
  · have hv : g.valid = start.valid := congrArg (·.2.2) hh
    rw [hv, hstart.valid]
  · rw [content?_eq, content?_eq, hs.agree n m hd]

/-- Two values, the object that the first one points to, the memory that the second one points to,
and a defer edge that merges the two. -/
def objectEdits : List Edit :=
  [.enter ⟨⟨0⟩, true, true⟩, .enter ⟨⟨1⟩, false, true⟩,
    .contents ⟨0⟩ [(true, false), (false, true)], .contents ⟨1⟩ [(false, false)], .bind ⟨2⟩ ⟨4⟩,
    .defer ⟨0⟩ ⟨1⟩, .raise ⟨1⟩ .globalEscaping, .propagate]

theorem run_sound_object : ∃ g, (full ⟨0⟩).run objectEdits = .ok g ∧ g.valid = true ∧
    g.check false = .ok () ∧ ∀ n m, g.Defers n m → g.content? n = g.content? m := by
  have hon : Along (fun g e => e.OnLive g ∧ e.Plain g) (full ⟨0⟩) objectEdits := by decide +kernel
  exact run_sound (.full ⟨0⟩) hon 8

end Escape.Graph
