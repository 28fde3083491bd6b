import Escape.Proofs.Graph.Absorb

/-!
# Carrying out all merges

Every merge makes one live node a tombstone, so the bound on the number of merges is never reached
and no merge is left pending.

- `Graph.settle_induct`: what every merge keeps is kept by all of them.
- `Graph.settle_shape`: settling keeps the shape, leaves nothing pending, and the graph describes at
  least what it did before.
-/

namespace Escape.Graph

variable {g g' : Graph} {n m : NodeId}

/-- The number of nodes that are not tombstones. -/
def liveCount (g : Graph) : Nat := g.liveNodes.length

theorem mem_liveNodes : n ∈ g.liveNodes ↔ g.Has n ∧ (g.node n).merged = false := by
  simp [liveNodes, isLive, mem_nodeIds]

theorem liveCount_le_size (g : Graph) : g.liveCount ≤ g.size := by
  rw [liveCount, liveNodes, ← length_nodeIds]
  exact List.length_filter_le _ _

/-- One more tombstone is one live node less. -/
theorem liveCount_lt (hs : g'.size = g.size) (hn : g.Has n) (hlive : (g.node n).merged = false)
    (hm : ∀ m, (g'.node m).merged = (decide (m = n) || (g.node m).merged)) :
    g'.liveCount < g.liveCount := by
  have hnd : (n :: g'.liveNodes).Nodup := by
    refine List.nodup_cons.mpr ⟨fun h => ?_, g'.nodeIds_nodup.filter _⟩
    have := (mem_liveNodes.mp h).2
    simp [hm] at this
  refine (List.subperm_of_subset hnd ?_).length_le
  rintro a ha
  rcases List.mem_cons.mp ha with rfl | ha
  · exact mem_liveNodes.mpr ⟨hn, hlive⟩
  · obtain ⟨hhas, hla⟩ := mem_liveNodes.mp ha
    rw [hm, Bool.or_eq_false_iff] at hla
    exact mem_liveNodes.mpr ⟨by rw [Has, ← hs]; exact hhas, hla.2⟩

/-- A graph with a list of pending merges has the shape it has with any other. -/
theorem Shape.setPending {pend : NodeId → Prop} (hs : Shape g pend) (l : List NodeId) :
    Shape { g with pending := l } pend :=
  hs.congr rfl (fun _ => rfl) rfl rfl

theorem Carries.ofSetPending {ψ : NodeId → NodeId} {l : List NodeId}
    (h : Carries { g with pending := l } g' ψ) : Carries g g' ψ := by
  refine ⟨⟨h.size_le, h.kind, fun n hn => ?_, h.has, h.live, h.represents, h.fixed, h.state,
    h.defers, h.values, h.keys, h.named, h.returnNode, h.returned, h.header⟩,
    (Supplies.of_eq (fun _ => by rfl) fun _ => by rfl).trans h.supplies⟩
  have hrep : Graph.representative { g with pending := l } n = g.representative n :=
    representative_congr (by rfl) (fun _ => by rfl) n
  rw [← hrep]
  exact h.merge n hn

/-- One round of settling. -/
theorem settle_step {rest : List NodeId} (hs : Shape g (· ∈ g.pending)) (hnd : g.pending.Nodup)
    (hp : g.pending = n :: rest) (hok : { g with pending := rest }.absorb n = .ok g') :
    Shape g' (· ∈ g'.pending) ∧ g'.pending.Nodup ∧ g'.liveCount < g.liveCount ∧
      ∃ ψ, Carries g g' ψ := by
  have hs₀ : Shape { g with pending := rest } (waitsWith { g with pending := rest } n) := by
    have := hs.setPending rest
    simpa only [hp, List.mem_cons] using this
  obtain ⟨hs', hnd', hc, hsize, hm⟩ := absorb_shape hs₀ (hp ▸ hnd) hok
  have hn : n ∈ g.pending := by rw [hp]; exact List.mem_cons_self
  exact ⟨hs', hnd', liveCount_lt hsize (hs.has_of_waits hn) ((hs.waits n).mp hn).1 hm, _,
    hc.ofSetPending⟩

/-- What every single merge keeps is kept by all that the bound allows. -/
theorem settleUpTo_induct {P : Nat → Graph → Prop} (step : ∀ bound g g' n rest, P (bound + 1) g →
    g.pending = n :: rest → { g with pending := rest }.absorb n = .ok g' → P bound g') :
    ∀ (bound : Nat) {g : Graph}, P bound g → settleUpTo bound g = .ok g' →
      ∃ left, P left g' ∧ (g'.pending = [] ∨ left = 0)
  | 0, g, h, hok => by
    cases hok
    exact ⟨0, h, .inr rfl⟩
  | bound + 1, g, h, hok => by
    unfold settleUpTo at hok
    split at hok
    · rename_i hp
      cases hok
      exact ⟨bound + 1, h, .inl hp⟩
    · rename_i n rest hp
      obtain ⟨g₁, h₁, hok⟩ := bind_ok.mp hok
      exact settleUpTo_induct step bound (step bound g g₁ n rest h hp h₁) hok

theorem settle_induct {P : Graph → Prop} (step : ∀ g g' n rest, P g → g.pending = n :: rest →
    { g with pending := rest }.absorb n = .ok g' → P g') (h : P g)
    (hok : g.settle = .ok g') : P g' := by
  obtain ⟨-, h', -⟩ := settleUpTo_induct (P := fun _ => P) (fun _ => step) _ h hok
  exact h'

/-- No merge is left if only live nodes wait and each merge makes one of them a tombstone. -/
theorem settle_empties {P : Graph → Prop} (step : ∀ g g' n rest, P g → g.pending = n :: rest →
    { g with pending := rest }.absorb n = .ok g' → P g' ∧ g'.liveCount < g.liveCount)
    (hlive : ∀ g, P g → ∀ n ∈ g.pending, n ∈ g.liveNodes) (h : P g) (hok : g.settle = .ok g') :
    P g' ∧ g'.pending = [] := by
  obtain ⟨left, ⟨h', hle⟩, hnil | rfl⟩ :=
    settleUpTo_induct (P := fun bound g => P g ∧ g.liveCount ≤ bound)
    (fun bound g g₁ n rest ⟨h, hle⟩ hp h₁ => by
      obtain ⟨h', hlt⟩ := step g g₁ n rest h hp h₁
      exact ⟨h', by omega⟩) _
    ⟨h, Nat.le_trans g.liveCount_le_size (Nat.le_add_left _ _)⟩ hok
  · exact ⟨h', hnil⟩
  · refine ⟨h', List.eq_nil_iff_forall_not_mem.mpr fun n hn => ?_⟩
    have := List.length_pos_of_mem (hlive g' h' n hn)
    rw [liveCount] at hle
    omega

/-- **Settling keeps the shape and carries everything on**, and nothing is left pending. -/
theorem settle_shape (hs : Shape g (· ∈ g.pending)) (hnd : g.pending.Nodup)
    (hok : g.settle = .ok g') :
    Shape g' nobody ∧ g'.pending = [] ∧ ∃ ψ, Carries g g' ψ := by
  obtain ⟨⟨hs', -, hc⟩, hp⟩ := settle_empties (P := fun k => Shape k (· ∈ k.pending) ∧
    k.pending.Nodup ∧ ∃ ψ, Carries g k ψ) (fun k k' n rest ⟨hsk, hnk, ψ, hck⟩ hpk h₁ => by
      obtain ⟨hs', hnd', hlt, χ, hc'⟩ := settle_step hsk hnk hpk h₁
      exact ⟨⟨hs', hnd', χ ∘ ψ, hck.trans hc' hs hsk⟩, hlt⟩)
    (fun k ⟨hsk, _⟩ n hn => mem_liveNodes.mpr ⟨hsk.has_of_waits hn, ((hsk.waits n).mp hn).1⟩)
    ⟨hs, hnd, id, .refl hs.forest⟩ hok
  refine ⟨?_, hp, hc⟩
  simpa only [hp, List.not_mem_nil] using hs'

end Escape.Graph
