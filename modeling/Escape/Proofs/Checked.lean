import Escape.Fault
import Mathlib.Data.List.Basic

/-!
# Computations that may stop

How to take a computation that did not stop apart, and how to follow a loop through all its rounds.
The loop lemmas come in two forms: `foldlM_of_ok` is about a loop that is known to finish, and
`foldlM_total` also shows that it does. Both carry an invariant that may mention the entries handled
so far.
-/

namespace Escape.Checked

variable {ε α β : Type}

theorem bind_ok {x : Except ε α} {f : α → Except ε β} {b : β} :
    (x >>= f) = .ok b ↔ ∃ a, x = .ok a ∧ f a = .ok b := by
  cases x with
  | ok a => exact ⟨fun h => ⟨a, rfl, h⟩, fun ⟨_, ha, h⟩ => by cases ha; exact h⟩
  | error e => exact ⟨fun h => (nomatch h), fun ⟨_, ha, _⟩ => (nomatch ha)⟩

theorem pure_ok {a b : α} : (pure a : Except ε α) = .ok b ↔ a = b := Except.ok.injEq a b ▸ Iff.rfl

theorem get_ok {xs : Array α} {i : Nat} {a : α} : Checked.get xs i = .ok a ↔ xs[i]? = some a := by
  unfold Checked.get
  cases xs[i]? <;> simp

theorem ok_bind (a : α) (f : α → Except ε β) : (Except.ok a >>= f) = f a := rfl

/-- Whether a computation finishes with a certain result can be found out by running it. -/
instance {p : α → Prop} [DecidablePred p] : (x : Except ε α) → Decidable (∃ a, x = .ok a ∧ p a)
  | .ok a => decidable_of_iff (p a) ⟨fun h => ⟨a, rfl, h⟩, fun ⟨_, ha, h⟩ => Except.ok.inj ha ▸ h⟩
  | .error _ => isFalse fun ⟨_, ha, _⟩ => nomatch ha

instance {p : α → Prop} [DecidablePred p] : (x : Except ε α) → Decidable (∀ a, x = .ok a → p a)
  | .ok a => decidable_of_iff (p a) ⟨fun h _ ha => Except.ok.inj ha ▸ h, fun h => h a rfl⟩
  | .error _ => isTrue nofun

instance [DecidableEq α] (a : α) : (x : Except ε α) → Decidable (x = .ok a)
  | .ok b => decidable_of_iff (b = a) ⟨congrArg _, Except.ok.inj⟩
  | .error _ => isFalse nofun

instance [DecidableEq ε] (e : ε) : (x : Except ε α) → Decidable (x = .error e)
  | .ok _ => isFalse nofun
  | .error e' => decidable_of_iff (e' = e) ⟨congrArg _, Except.error.inj⟩

/-- A loop that finishes keeps what each of its rounds keeps. -/
theorem foldlM_of_ok {f : β → α → Except ε β} {P : List α → β → Prop} {l : List α} {b b' : β}
    (step : ∀ done a rest b b', l = done ++ a :: rest → P done b → f b a = .ok b' →
      P (done ++ [a]) b')
    (base : P [] b) (h : l.foldlM f b = .ok b') : P l b' := by
  suffices H : ∀ (rest done : List α) (b : β), l = done ++ rest → P done b →
      rest.foldlM f b = .ok b' → P l b' from H l [] b rfl base h
  intro rest
  induction rest with
  | nil =>
    intro done b hl hb hr
    have hbb : b = b' := pure_ok.mp hr
    rw [hl, List.append_nil, ← hbb]
    exact hb
  | cons a rest ih =>
    intro done b hl hb hr
    obtain ⟨b₁, h₁, hr⟩ := bind_ok.mp hr
    exact ih (done ++ [a]) b₁ (by simp [hl]) (step done a rest b b₁ hl hb h₁) hr

/-- A loop finishes if each of its rounds does, and keeps what they keep. -/
theorem foldlM_total {f : β → α → Except ε β} {P : List α → β → Prop} {l : List α} {b : β}
    (step : ∀ done a rest b, l = done ++ a :: rest → P done b →
      ∃ b', f b a = .ok b' ∧ P (done ++ [a]) b')
    (base : P [] b) : ∃ b', l.foldlM f b = .ok b' ∧ P l b' := by
  suffices H : ∀ (rest done : List α) (b : β), l = done ++ rest → P done b →
      ∃ b', rest.foldlM f b = .ok b' ∧ P l b' from H l [] b rfl base
  intro rest
  induction rest with
  | nil =>
    intro done b hl hb
    rw [List.append_nil] at hl
    exact ⟨b, rfl, hl ▸ hb⟩
  | cons a rest ih =>
    intro done b hl hb
    obtain ⟨b₁, h₁, hb₁⟩ := step done a rest b hl hb
    obtain ⟨b', hr, hb'⟩ := ih (done ++ [a]) b₁ (by simp [hl]) hb₁
    exact ⟨b', by rw [List.foldlM_cons, h₁]; exact hr, hb'⟩

/-- Running a check over a list succeeds if it succeeds on every entry. -/
theorem forM_ok {f : α → Except ε Unit} {l : List α} :
    l.forM f = .ok () ↔ ∀ a ∈ l, f a = .ok () := by
  induction l with
  | nil => simp [pure, Except.pure]
  | cons a l ih =>
    rw [List.forall_mem_cons, ← ih]
    show (f a >>= fun _ => l.forM f) = .ok () ↔ _
    rw [bind_ok]
    exact ⟨fun ⟨_, h, hl⟩ => ⟨h, hl⟩, fun ⟨h, hl⟩ => ⟨_, h, hl⟩⟩

/-- What a computation makes of each entry of a list. -/
theorem mapM_ok {f : α → Except ε β} {l : List α} {bs : List β} (h : l.mapM f = .ok bs) :
    ∀ a ∈ l, ∃ b ∈ bs, f a = .ok b := by
  induction l generalizing bs with
  | nil => exact nofun
  | cons a l ih =>
    rw [List.mapM_cons] at h
    obtain ⟨b, hb, h⟩ := bind_ok.mp h
    obtain ⟨bs', hbs, h⟩ := bind_ok.mp h
    cases h
    refine List.forall_mem_cons.mpr ⟨⟨b, List.mem_cons_self, hb⟩, fun a' ha' => ?_⟩
    obtain ⟨b', hb', hfb'⟩ := ih hbs a' ha'
    exact ⟨b', List.mem_cons_of_mem b hb', hfb'⟩

theorem of_mem_mapM {f : α → Except ε β} {l : List α} {bs : List β} (h : l.mapM f = .ok bs) :
    ∀ b ∈ bs, ∃ a ∈ l, f a = .ok b := by
  induction l generalizing bs with
  | nil =>
    cases h
    exact nofun
  | cons a l ih =>
    rw [List.mapM_cons] at h
    obtain ⟨b, hb, h⟩ := bind_ok.mp h
    obtain ⟨bs', hbs, h⟩ := bind_ok.mp h
    cases h
    refine List.forall_mem_cons.mpr ⟨⟨a, List.mem_cons_self, hb⟩, fun b' hb' => ?_⟩
    obtain ⟨a', ha', hfa'⟩ := ih hbs b' hb'
    exact ⟨a', List.mem_cons_of_mem a ha', hfa'⟩

/-- An entry that passes the test is kept. -/
theorem filterM_ok {p : α → Except ε Bool} {l as : List α} (h : l.filterM p = .ok as) :
    ∀ a ∈ l, p a = .ok true → a ∈ as := by
  have haux : ∀ (l acc as : List α), l.filterAuxM p acc = .ok as →
      (∀ a ∈ acc, a ∈ as) ∧ ∀ a ∈ l, p a = .ok true → a ∈ as := by
    intro l
    induction l with
    | nil =>
      intro acc as h
      cases h
      exact ⟨fun _ ha => ha, nofun⟩
    | cons a l ih =>
      intro acc as h
      obtain ⟨b, hb, h⟩ := bind_ok.mp h
      obtain ⟨hacc, hl⟩ := ih _ as h
      refine ⟨fun a' ha' => hacc a' ?_, List.forall_mem_cons.mpr ⟨fun ha => ?_, hl⟩⟩
      · cases b
        · exact ha'
        · exact List.mem_cons_of_mem a ha'
      · cases hb.symm.trans ha
        exact hacc a List.mem_cons_self
  obtain ⟨as', h', h⟩ := bind_ok.mp h
  cases h
  exact fun a ha hp => List.mem_reverse.mpr ((haux l [] as' h').2 a ha hp)

end Escape.Checked

namespace Escape

export Checked (bind_ok ok_bind foldlM_of_ok foldlM_total)

end Escape
