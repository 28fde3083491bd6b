import Escape.Proofs.Graph.Appends
import Escape.Proofs.Graph.Runs
import Escape.Proofs.Graph.Splices

/-!
# States and values over whole runs

- `Settled.edit`: every edit leaves a settled graph settled, and an edit that grows loses nothing.
- `Graph.run_monotone`: **escape states and the identity of values only grow along a run.**
-/

namespace Escape.Graph

variable {g g' : Graph} {n : NodeId} {s : Scope} {i : InstId}

/-! ### Edits -/

/-- An edit that forgets nothing. -/
def Edit.Grows : Edit → Prop
  | .forget _ _ | .clear | .invalidate => False
  | _ => True

instance : (e : Edit) → Decidable e.Grows
  | .forget _ _ | .clear | .invalidate => inferInstanceAs (Decidable False)
  | .enter _ | .enterReturn | .contents _ _ | .bind _ _ | .defer _ _ | .raise _ _ | .propagate
  | .use _ _ | .useAll _ _ | .splice _ _ => inferInstanceAs (Decidable True)

theorem settled_of_empty (hn : g.nodes = #[]) (hv : ∀ v, g.values.find? v = none)
    (hr : g.returnNode = none) (hp : g.pending = []) : Settled g :=
  ⟨(stable_of_empty hn hv hr hp).toShape, hp⟩

theorem ensureContents_forward (flags : List (Bool × Bool)) (g : Graph) (n : NodeId)
    (hs : Settled g) (hn : (g.node n).merged = false) (hok : g.ensureContents n flags = .ok g') :
    Forward g g' := by
  induction flags generalizing g n with
  | nil =>
    cases hok
    exact .refl hs
  | cons flag rest ih =>
    obtain ⟨⟨g₁, c⟩, h₁, hok⟩ := bind_ok.mp hok
    obtain ⟨hev, hc, -⟩ := ensureContent_evolves (P := anything) (B := anything) hs hn h₁
    exact hev.forward.trans (ih g₁ c hev.settled hc.2 hok)

/-- **An edit leaves a settled graph settled**, and loses nothing if it is one that grows. -/
theorem Settled.edit (hs : Settled g) {e : Edit} (hlive : e.OnLive g) (hok : e.apply g = .ok g') :
    Settled g' ∧ (e.Grows → Follows g g') := by
  have hgrow : Forward g g' → Settled g' ∧ (e.Grows → Follows g g') := fun h => ⟨h.1, fun _ => h.2⟩
  have hevolve (h : Evolves anything anything g g') := hgrow h.forward
  cases e with
  | enter a =>
    cases hok
    exact hevolve (enter_evolves hs a trivial).1
  | enterReturn =>
    cases hok
    exact hevolve (ensureReturn_evolves hs).1
  | contents n flags => exact hgrow (ensureContents_forward flags g n hs hlive.2 hok)
  | bind v n => exact hevolve (bind_evolves hs trivial trivial hok)
  | defer src dst =>
    obtain ⟨⟨g₁, k⟩, h₁, hok⟩ := bind_ok.mp hok
    cases hok
    exact hevolve (defer_evolves hs hlive.2.2 h₁).1
  | raise n st =>
    cases hok
    exact hevolve (.raises hs (raise_raises g n st))
  | propagate =>
    cases hok
    exact hevolve (.raises hs (propagate_raises g))
  | use n i =>
    cases hok
    exact hgrow ((addUsePoint_deepens (P := anything) hs n i).forward hs)
  | useAll s blocks => exact hgrow ((computeUsePoints_deepens (roots_anything s) hs hok).forward hs)
  | forget i results =>
    cases hok
    obtain ⟨hq, hs'⟩ := forget_quiet hs.toShape i results
    exact ⟨⟨hs', hq.pending.trans hs.pending⟩, False.elim⟩
  | splice source map =>
    obtain ⟨⟨g₁, M, c⟩, h₁, hok⟩ := bind_ok.mp hok
    cases hok
    exact hevolve (splice_spec hs h₁).1
  | clear | invalidate =>
    cases hok
    exact ⟨settled_of_empty rfl (fun _ => rfl) rfl rfl, False.elim⟩

/-! ### Runs -/

/-- A run leaves a settled graph settled, and loses nothing if all its edits are of the kind that
grows. -/
theorem Settled.run {Q : Edit → Prop} (edits : List Edit) (g : Graph) (hs : Settled g)
    (ha : Along (fun g e => e.OnLive g ∧ Q e) g edits) (hok : g.run edits = .ok g') :
    Settled g' ∧ ((∀ e, Q e → e.Grows) → Follows g g') := by
  induction edits generalizing g with
  | nil =>
    cases hok
    exact ⟨hs, fun _ => .refl hs.forest⟩
  | cons e rest ih =>
    obtain ⟨g₁, h₁, hok⟩ := bind_ok.mp hok
    obtain ⟨hs₁, hf₁⟩ := hs.edit ha.1.1 h₁
    obtain ⟨hs', hf'⟩ := ih g₁ hs₁ (ha.2 g₁ h₁) hok
    exact ⟨hs', fun hQ => (hf₁ (hQ e ha.1.2)).trans (hf' hQ)⟩

/-- **States and identities only grow.** Take any run of edits of live nodes, and any further run of
edits of which none forgets anything. What represents a node has at least the state in the end that
it had in between, and a value that had a node has what represents this node. -/
theorem run_monotone {start g g' : Graph} (hstart : IsStart start) {before after : List Edit}
    (hbefore : Along (fun g e => e.OnLive g) start before) (hg : start.run before = .ok g)
    (hafter : Along (fun g e => e.OnLive g ∧ e.Grows) g after) (hg' : g.run after = .ok g') :
    (∀ n, (g.node (g.representative n)).state ≤ (g'.node (g'.representative n)).state) ∧
      ∀ s v n, g.nodeOf? s v = .ok (some n) →
      g'.nodeOf? s v = .ok (some (g'.representative n)) := by
  have hs : Settled start := ⟨hstart.stable.toShape, hstart.stable.settled⟩
  obtain ⟨hsg, -⟩ := Settled.run (Q := fun _ => True) before start hs
    (hbefore.mono fun _ _ h => ⟨h, trivial⟩) hg
  obtain ⟨-, hfollows⟩ := Settled.run after g hsg hafter hg'
  have hf := hfollows fun _ h => h
  exact ⟨hf.state, fun s v n hn => nodeOf?_follows hf hn⟩

/-- Two runs in a row. -/
theorem Along.append {Q : Graph → Edit → Prop} : ∀ {edits rest : List Edit} {g g' : Graph},
    Along Q g (edits ++ rest) → g.run edits = .ok g' → Along Q g' rest
  | [], _, _, _, h, hok => by
    cases hok
    exact h
  | e :: edits, rest, g, g', h, hok => by
    obtain ⟨g₁, h₁, hok⟩ := bind_ok.mp hok
    exact append (h.2 g₁ h₁) hok

/-- The object of one value and the memory of another are made first, and merged later. -/
theorem run_monotone_object : ∃ g g', (full ⟨0⟩).run (objectEdits.take 5) = .ok g ∧
    g.run (objectEdits.drop 5) = .ok g' ∧
    (∀ n, (g.node (g.representative n)).state ≤ (g'.node (g'.representative n)).state) ∧
    ∀ s v n, g.nodeOf? s v = .ok (some n) → g'.nodeOf? s v = .ok (some (g'.representative n)) := by
  have hall : Along (fun g e => (e.OnLive g ∧ e.Plain g) ∧ e.Grows) (full ⟨0⟩)
      (objectEdits.take 5 ++ objectEdits.drop 5) := by decide +kernel
  have hfirst := (hall.mono fun _ _ h => h.1).take 5
  obtain ⟨g, hg, hs, -⟩ := Stable.run _ _ (IsStart.full ⟨0⟩).stable hfirst
  have hrest := hall.append hg
  obtain ⟨g', hg', -, -⟩ := Stable.run _ g hs (hrest.mono fun _ _ h => h.1)
  exact ⟨g, g', hg, hg', run_monotone (.full ⟨0⟩) (hfirst.mono fun _ _ h => h.1) hg
    (hrest.mono fun _ _ h => ⟨h.1.1, h.2⟩) hg'⟩

end Escape.Graph
