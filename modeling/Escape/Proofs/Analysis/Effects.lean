import Escape.Analysis.Build
import Escape.Proofs.Graph.Appends
import Escape.Proofs.Program.Scopes

/-!
# Effects of instructions

Applying the effect of an instruction moves the graph of its function forward. Values enter it under
roots that are not undefined, and only results of instructions are bound to nodes of others.

- `Graph.escapeAll_spec`: everything an instruction touches is let go.
- `Graph.applyEffect_builds`, `Graph.applyContainer_builds`, `Graph.applyRelease_builds`,
  `Graph.linkBlocks_builds`: the effects.
-/

namespace Escape.Graph

variable {s : Scope} {g g' : Graph} {v r : ValueId} {i : InstId} {n m c : NodeId}

/-- The graph `g'` comes from `g` by steps of building the graph of a function. -/
abbrev Builds (s : Scope) (g g' : Graph) : Prop := Evolves s.Defined s.Inner g g'

theorem roots_defined (s : Scope) : s.Roots s.Defined := fun _ _ h => (Scope.anchor?_ok h).2.2.2.1

section

variable (hs : Settled g)
include hs

theorem nodeFor_builds {n? : Option NodeId} (hok : g.nodeFor s v = .ok (g', n?)) :
    Builds s g g' ∧ ∀ n, n? = some n → (g'.node n).merged = false := by
  obtain ⟨hev, hn⟩ := nodeFor_evolves (roots_defined s) hs hok
  exact ⟨hev, fun n h => (hn n h).1.2⟩

theorem contentFor_builds {c? : Option NodeId} (hok : g.contentFor s v = .ok (g', c?)) :
    Builds s g g' ∧ ∀ c, c? = some c → (g'.node c).merged = false := by
  obtain ⟨hev, hc⟩ := contentFor_evolves (roots_defined s) hs hok
  exact ⟨hev, fun c h => (hc c h).1.2⟩

theorem ensureContent_builds (hn : (g.node n).merged = false) {interior referenceOnly : Bool}
    (hok : g.ensureContent n interior referenceOnly = .ok (g', c)) :
    Builds s g g' ∧ (g'.node c).merged = false := by
  obtain ⟨hev, hlive, -⟩ := ensureContent_evolves (P := s.Defined) (B := s.Inner) hs hn hok
  exact ⟨hev, hlive.2⟩

theorem defer_builds (hm : (g.node m).merged = false) {k : Graph × NodeId}
    (hok : g.defer n m = .ok k) : Builds s g k.1 :=
  (defer_evolves hs hm hok).1

/-! ### Escapes -/

omit hs in
/-- The value escapes globally, if it enters graphs at all. -/
def LetGo (s : Scope) (g : Graph) (v : ValueId) : Prop :=
  ∀ a, s.anchor? v = .ok (some a) → ∃ n, g.At a.root n ∧ (g.node n).state = .globalEscaping

omit hs in
/-- What was let go stays so. -/
theorem LetGo.follows (h : LetGo s g v) (hs : Settled g) (hf : Follows g g') : LetGo s g' v := by
  intro a ha
  obtain ⟨n, hat, hn⟩ := h a ha
  refine ⟨g'.representative n, hf.values _ n hat, hf.isGlobal ?_⟩
  rw [hs.representative_of_live (hat.live hs).2]
  exact hn

theorem setValueGlobal_spec (hok : g.setValueGlobal s v = .ok g') :
    Builds s g g' ∧ (g.valid = true → LetGo s g' v) ∧ ∀ n,
    (g'.node n).merged = (g.node n).merged := by
  obtain ⟨hev, hglobal⟩ := setValueGlobal_evolves (P := s.Defined) (B := s.Inner)
    (roots_defined s) hs hok
  obtain ⟨⟨g₁, n?⟩, hn, hok⟩ := bind_ok.mp hok
  obtain ⟨⟨g₂, c?⟩, hc, hok⟩ := bind_ok.mp hok
  cases hok
  obtain ⟨hev₁, hentered⟩ := nodeFor_evolves (P := s.Defined) (B := s.Inner) (roots_defined s) hs hn
  have hev₂ : Builds s g₁ (g₁.setGlobal? n?) := setGlobal?_evolves hev₁.settled n?
  have hev₃ := (contentFor_builds hev₂.settled hc).1
  have hev₄ : Builds s g₂ (g₂.setGlobal? c?) := setGlobal?_evolves hev₃.settled c?
  have hmerged (g : Graph) (n? : Option NodeId) (n : NodeId) :
      ((g.setGlobal? n?).node n).merged = (g.node n).merged :=
    (setGlobal?_raises g n?).field Node.merged (fun _ => rfl) n
  refine ⟨hev, fun hv a ha => ?_, fun n => ?_⟩
  · rcases nodeFor_ok hn with ⟨-, -, hnone⟩ | ⟨_, -, -, -, hsome⟩
    · cases ha.symm.trans (hnone hv)
    · obtain ⟨-, a', ha', hat⟩ := hentered _ hsome
      cases ha.symm.trans ha'
      have hat' := ((hev₂.trans hev₃).trans hev₄).values _ _ hat
      exact ⟨_, hat', hglobal a _ hv ha hat'⟩
  · rw [hmerged, (contentFor_appends hev₂.settled hc).merged, hmerged,
      (nodeFor_appends hs hn).merged]

/-- What holds of a value once it is made global holds of an operand that is let go. -/
theorem escapeOperand_touches {R : Graph → ValueId → Prop}
    (global : ∀ {k v k'}, Settled k → k.setValueGlobal s v = .ok k' → k.valid = true → R k' v)
    (hok : escapeOperand s g v = .ok g') :
    Builds s g g' ∧ (g.valid = true → s.isReadOnly v = .ok false → R g' v) := by
  obtain ⟨b, hb, hok⟩ := bind_ok.mp hok
  cases b with
  | true =>
    cases hok
    exact ⟨.refl hs, fun _ h => by cases hb.symm.trans h⟩
  | false => exact ⟨(setValueGlobal_spec hs hok).1, fun hv _ => global hs hok hv⟩

omit hs in
/-- Everything that an instruction touches escapes, constant addresses excepted. -/
def Escaped (s : Scope) (i : InstId) (g : Graph) : Prop :=
  ∀ inst, s.func.inst i = .ok inst →
    (∀ v ∈ inst.op.operands, s.isReadOnly v = .ok false → LetGo s g v) ∧
    ∀ r ∈ inst.results, LetGo s g r

omit hs in
/-- What escaped has escaped for good. -/
theorem Escaped.follows (h : Escaped s i g) (hs : Settled g) (hf : Follows g g') : Escaped s i g' :=
  fun inst hi => ⟨fun v hv hr => ((h inst hi).1 v hv hr).follows hs hf,
    fun r hr => ((h inst hi).2 r hr).follows hs hf⟩

omit hs in
/-- A property of everything that an instruction touches, constant addresses excepted. -/
def ForTouched (s : Scope) (i : InstId) (P : ValueId → Prop) : Prop :=
  ∀ inst, s.func.inst i = .ok inst →
    (∀ v ∈ inst.op.operands, s.isReadOnly v = .ok false → P v) ∧ ∀ r ∈ inst.results, P r

omit hs in
theorem ForTouched.mono {P Q : ValueId → Prop} (h : ForTouched s i P) (hPQ : ∀ v, P v → Q v) :
    ForTouched s i Q :=
  fun inst hinst => ⟨fun v hv hr => hPQ v ((h inst hinst).1 v hv hr),
    fun r hr => hPQ r ((h inst hinst).2 r hr)⟩

omit hs in
/-- A loop over values. What it does to a value stays so when the others are dealt with. -/
theorem foldlM_touches {f : Graph → ValueId → Checked Graph} {Q : ValueId → Prop}
    {R : Graph → ValueId → Prop}
    (step : ∀ g v g', Settled g → f g v = .ok g' → Builds s g g' ∧
      (g.valid = true → Q v → R g' v))
    (later : ∀ {k k' v}, Builds s g k → Builds s k k' → R k v → R k' v) {vs : List ValueId}
    (hs : Settled g) (hok : vs.foldlM f g = .ok g') :
    Builds s g g' ∧ (g.valid = true → ∀ v ∈ vs, Q v → R g' v) := by
  refine foldlM_of_ok (P := fun done h =>
    Builds s g h ∧ (g.valid = true → ∀ v ∈ done, Q v → R h v)) ?_ ⟨.refl hs, nofun⟩ hok
  rintro done v rest h h' - ⟨hev, hgone⟩ hstep
  obtain ⟨hev', hgo⟩ := step h v h' hev.settled hstep
  refine ⟨hev.trans hev', fun hv w hw hq => ?_⟩
  rcases List.mem_append.mp hw with hw | hw
  · exact later hev hev' (hgone hv w hw hq)
  · cases List.mem_singleton.mp hw
    exact hgo (hev.valid.trans hv) hq

/-- What holds of a value once it is made global, and stays so, holds of everything that an
instruction touches. -/
theorem escapeAll_touches {R : Graph → ValueId → Prop}
    (global : ∀ {k v k'}, Settled k → k.setValueGlobal s v = .ok k' → k.valid = true → R k' v)
    (later : ∀ {k k' v}, Builds s g k → Builds s k k' → R k v → R k' v)
    (hok : g.escapeAll s i = .ok g') :
    Builds s g g' ∧ (g.valid = true → ForTouched s i (R g')) := by
  obtain ⟨inst, hinst, hok⟩ := bind_ok.mp hok
  obtain ⟨g₁, h₁, h₂⟩ := bind_ok.mp hok
  have hresult (g : Graph) (v : ValueId) (g' : Graph) (hs : Settled g)
    (hok : g.setValueGlobal s v = .ok g') :
      Builds s g g' ∧ (g.valid = true → True → R g' v) :=
    ⟨(setValueGlobal_spec hs hok).1, fun hv _ => global hs hok hv⟩
  obtain ⟨hev₁, hops⟩ := foldlM_touches (Q := fun v => s.isReadOnly v = .ok false)
    (fun _ _ _ hs => escapeOperand_touches hs global) later hs h₁
  obtain ⟨hev₂, hres⟩ := foldlM_touches hresult (fun h => later (hev₁.trans h)) hev₁.settled h₂
  refine ⟨hev₁.trans hev₂, fun hv inst' hinst' => ?_⟩
  cases hinst.symm.trans hinst'
  exact ⟨fun v hw hr => later hev₁ hev₂ (hops hv v hw hr),
    fun r hr => hres (hev₁.valid.trans hv) r hr trivial⟩

/-- **Everything an instruction touches is let go.** -/
theorem escapeAll_spec (hok : g.escapeAll s i = .ok g') :
    Builds s g g' ∧ (g.valid = true → Escaped s i g') :=
  escapeAll_touches hs (R := LetGo s) (fun hs hok => (setValueGlobal_spec hs hok).2.1)
    (fun hev hev' h => h.follows hev.settled hev'.toFollows) hok

/-- The unknown content of a live node escapes. -/
theorem escapeUnknown_builds (hn : (g.node n).merged = false)
    (hok : g.escapeUnknown n = .ok g') : Builds s g g' := by
  obtain ⟨⟨g₁, c⟩, hc, hok⟩ := bind_ok.mp hok
  cases hok
  obtain ⟨hev, -⟩ := ensureContent_builds (s := s) hs hn hc
  exact hev.trans (setGlobal_evolves hev.settled c)

end

/-! ### Asking for nodes -/

section Asking

variable {α : Type} {r : α} {k : Graph × Option NodeId → Checked α}

/-- Asking for the node of a value, and going on with it if there is one. -/
theorem nodeFor_bind_ok (hs : Settled g) (hok : g.nodeFor s v >>= k = .ok r) : ∃ g₁, Builds s g g₁ ∧
    (∀ m, (g₁.node m).merged = (g.node m).merged) ∧
    (k (g₁, none) = .ok r ∨ ∃ n, (g₁.node n).merged = false ∧ k (g₁, some n) = .ok r) := by
  obtain ⟨⟨g₁, n?⟩, h, hok⟩ := bind_ok.mp hok
  obtain ⟨hev, hlive⟩ := nodeFor_builds hs h
  refine ⟨g₁, hev, (nodeFor_appends hs h).merged, ?_⟩
  cases n? with
  | none => exact .inl hok
  | some n => exact .inr ⟨n, hlive n rfl, hok⟩

/-- Asking for the content behind a value, and going on with it if there is one. -/
theorem contentFor_bind_ok (hs : Settled g) (hok : g.contentFor s v >>= k = .ok r) :
    ∃ g₁, Builds s g g₁ ∧ (∀ m, (g₁.node m).merged = (g.node m).merged) ∧
    (k (g₁, none) = .ok r ∨ ∃ c, (g₁.node c).merged = false ∧ k (g₁, some c) = .ok r) := by
  obtain ⟨⟨g₁, c?⟩, h, hok⟩ := bind_ok.mp hok
  obtain ⟨hev, hlive⟩ := contentFor_builds hs h
  refine ⟨g₁, hev, (contentFor_appends hs h).merged, ?_⟩
  cases c? with
  | none => exact .inl hok
  | some c => exact .inr ⟨c, hlive c rfl, hok⟩

end Asking

/-! ### Container operations -/

section

variable (hs : Settled g)
include hs

theorem live_of_fieldContent? (h : g.fieldContent? n = some c) : (g.node c).merged = false := by
  rw [fieldContent?] at h
  split at h
  · exact (hs.live_content h).2
  · cases h

theorem loadedElement_builds {args : List ValueId} {result : Option ValueId}
    {n? : Option NodeId} (hok : g.loadedElement s args result = .ok (g', n?)) :
    Builds s g g' ∧ ∀ n, n? = some n → (g'.node n).merged = false := by
  unfold loadedElement at hok
  split at hok
  · exact nodeFor_builds hs hok
  · split at hok
    · exact contentFor_builds hs hok
    · cases hok
      exact ⟨.refl hs, nofun⟩

theorem linkElement_builds {element : Option NodeId} {done : Bool}
    (hlive : ∀ n, element = some n → (g.node n).merged = false)
    (hok : g.linkElement n element = .ok (g', done)) : Builds s g g' := by
  unfold linkElement at hok
  split at hok
  · obtain ⟨k, hk, hok⟩ := bind_ok.mp hok
    cases hok
    exact defer_builds hs (hlive _ rfl) hk
  · cases hok
    exact .refl hs

theorem escapeStorage_builds (hn : (g.node n).merged = false)
    (hok : g.escapeStorage n = .ok g') : Builds s g g' := by
  obtain ⟨⟨g₁, object⟩, h₁, hok⟩ := bind_ok.mp hok
  obtain ⟨hev₁, hlive⟩ := ensureContent_builds (s := s) hs hn h₁
  cases hi : (g₁.node object).interior with
  | false =>
    simp only [hi, Bool.not_false, if_true] at hok
    cases hok
    exact hev₁.trans (setGlobal_evolves hev₁.settled object)
  | true =>
    simp only [hi, Bool.not_true, Bool.false_eq_true, if_false] at hok
    obtain ⟨⟨g₂, storage⟩, h₂, hok⟩ := bind_ok.mp hok
    cases hok
    obtain ⟨hev₂, -⟩ := ensureContent_builds (s := s) hev₁.settled hlive h₂
    exact (hev₁.trans hev₂).trans (setGlobal_evolves hev₂.settled storage)

theorem applyContainerTo_builds (hn : (g.node n).merged = false) {args : List ValueId}
    {result : Option ValueId} {op : ContainerOp} {done : Bool}
    (hok : g.applyContainerTo s n args result op = .ok (g', done)) : Builds s g g' := by
  unfold applyContainerTo at hok
  split at hok
  case h_1 =>
    have hload {h : Graph × Bool} (hok :
      (g.loadedElement s args result >>= fun r => r.1.linkElement n r.2) = .ok h) :
        Builds s g h.1 := by
      obtain ⟨⟨g₁, n?⟩, h₁, hok⟩ := bind_ok.mp hok
      obtain ⟨hev, hlive⟩ := loadedElement_builds hs h₁
      exact hev.trans (linkElement_builds hev.settled hlive hok)
    cases result with
    | none => exact hload hok
    | some r =>
      obtain ⟨p, -, hok⟩ := bind_ok.mp hok
      cases p with
      | true => exact hload hok
      | false =>
        cases hok
        exact .refl hs
  case h_2 =>
    cases result with
    | none =>
      cases hok
      exact .refl hs
    | some r =>
      obtain ⟨g₁, hev, -, hok | ⟨m, hlive, hok⟩⟩ := nodeFor_bind_ok hs hok
      · cases hok
        exact hev
      · obtain ⟨k, hk, hok⟩ := bind_ok.mp hok
        cases hok
        exact hev.trans (defer_builds hev.settled hlive hk)
  case h_3 =>
    cases args with
    | nil =>
      cases hok
      exact .refl hs
    | cons element args =>
      obtain ⟨g₁, hev, -, hok | ⟨m, hlive, hok⟩⟩ := nodeFor_bind_ok hs hok
      · cases hok
        exact hev
      · exact hev.trans (linkElement_builds hev.settled
          (fun _ he => Option.some.inj he ▸ hlive) hok)
  case h_4 =>
    have hstore {g₁ : Graph} (hev : Builds s g g₁) (hlive : (g₁.node n).merged = false)
        {h : Graph × Bool} (hok : (do return (← g₁.escapeStorage n, true)) = Except.ok h) :
        Builds s g h.1 := by
      obtain ⟨g₂, h₂, hok⟩ := bind_ok.mp hok
      cases hok
      exact hev.trans (escapeStorage_builds hev.settled hlive h₂)
    cases args with
    | nil => exact hstore (.refl hs) hn hok
    | cons body args =>
      obtain ⟨g₁, h₁, hok⟩ := bind_ok.mp hok
      obtain ⟨hev, -, hmerged⟩ := setValueGlobal_spec hs h₁
      exact hstore hev ((hmerged n).trans hn) hok
  case h_5 =>
    cases hok
    exact .refl hs

theorem applyContainer_builds {op : ContainerOp} {done : Bool}
    (hok : g.applyContainer s i op = .ok (g', done)) : Builds s g g' := by
  unfold applyContainer at hok
  split at hok
  · cases hok
    exact .refl hs
  · obtain ⟨inst, -, hok⟩ := bind_ok.mp hok
    split at hok
    · split at hok
      · cases hok
        exact .refl hs
      · obtain ⟨g₁, hev, -, hok | ⟨object, hlive, hok⟩⟩ := contentFor_bind_ok hs hok
        · cases hok
          exact hev
        · exact hev.trans (applyContainerTo_builds hev.settled hlive hok)
    · cases hok
      exact .refl hs

/-! ### Releases -/

theorem applyRelease_builds {policy : DeinitPolicy}
    (hok : g.applyRelease s policy v = .ok g') : Builds s g g' := by
  obtain ⟨g₁, hev, -, hok | ⟨object, hlive, hok⟩⟩ := contentFor_bind_ok hs hok
  · cases hok
    exact hev
  · cases hf : g₁.fieldContent? object with
    | none =>
      simp only [hf] at hok
      exact hev.trans (escapeUnknown_builds hev.settled hlive hok)
    | some field =>
      have hfield := live_of_fieldContent? hev.settled hf
      simp only [hf] at hok
      obtain ⟨keeps, -, hok⟩ := bind_ok.mp hok
      cases keeps with
      | true =>
        obtain ⟨⟨g₂, referenced⟩, h₂, hok⟩ := bind_ok.mp hok
        obtain ⟨hev₂, hreferenced, -⟩ :=
          ensureObject_evolves (P := s.Defined) (B := s.Inner) hev.settled hfield h₂
        refine (hev.trans hev₂).trans (escapeUnknown_builds hev₂.settled ?_ hok)
        cases hc : g₂.content? referenced with
        | none => exact hreferenced.2
        | some c => exact (hev₂.settled.live_content hc).2
      | false =>
        obtain ⟨ty, -, hok⟩ := bind_ok.mp hok
        obtain ⟨k, -, hok⟩ := bind_ok.mp hok
        split at hok
        · exact hev.trans (escapeUnknown_builds hev.settled hfield hok)
        · cases hok
          exact hev

/-! ### Other effects -/

omit hs in
theorem deferToAll_builds (vs : List ValueId) (n : NodeId) (g : Graph) (hs : Settled g)
    (hok : deferToAll s vs n g = .ok g') : Builds s g g' := by
  induction vs generalizing n g with
  | nil =>
    cases hok
    exact .refl hs
  | cons v vs ih =>
    obtain ⟨g₁, hev, -, hok | ⟨m, hlive, hok⟩⟩ := nodeFor_bind_ok hs hok
    · exact hev.trans (ih n g₁ hev.settled hok)
    · obtain ⟨⟨g₂, k⟩, h₂, hok⟩ := bind_ok.mp hok
      have hev₂ := hev.trans (defer_builds hev.settled hlive h₂)
      exact hev₂.trans (ih k g₂ hev₂.settled hok)

/-- **The effects that concern the function alone.** What is bound to a content has to be a result.
-/
theorem applyEffect_builds {effect : Effect}
    (hbound : ∀ r address, effect = .mapToContent r address → s.Defined r ∧ s.Inner r)
    (hok : g.applyEffect s i effect = .ok g') : Builds s g g' := by
  cases effect with
  | none | release _ | call _ =>
    cases hok
    exact .refl hs
  | allocate result =>
    obtain ⟨k, hk, hok⟩ := bind_ok.mp hok
    cases hok
    exact (nodeFor_builds hs hk).1
  | mapToContent result address =>
    obtain ⟨g₁, hev, -, hok | ⟨c, -, hok⟩⟩ := contentFor_bind_ok hs hok
    · exact hev.trans (setValueGlobal_spec hev.settled hok).1
    · obtain ⟨hdef, hinner⟩ := hbound result address rfl
      exact hev.trans (bind_evolves hev.settled hdef hinner hok)
  | store value address =>
    obtain ⟨g₁, hev₁, -, hok | ⟨n, hn, hok⟩⟩ := nodeFor_bind_ok hs hok
    · cases hok
      exact hev₁
    · obtain ⟨g₂, hev₂, hmerged, hok | ⟨c, -, hok⟩⟩ := contentFor_bind_ok hev₁.settled hok
      · exact (hev₁.trans hev₂).trans (setValueGlobal_spec hev₂.settled hok).1
      · obtain ⟨k, hk, hok⟩ := bind_ok.mp hok
        cases hok
        exact (hev₁.trans hev₂).trans (defer_builds hev₂.settled ((hmerged n).trans hn) hk)
  | copyAddr src dest =>
    obtain ⟨g₁, hev₁, -, hok | ⟨loaded, hc, hok⟩⟩ := contentFor_bind_ok hs hok
    · exact hev₁.trans (escapeAll_spec hev₁.settled hok).1
    · obtain ⟨g₂, hev₂, hmerged, hok | ⟨d, -, hok⟩⟩ := contentFor_bind_ok hev₁.settled hok
      · exact (hev₁.trans hev₂).trans (setValueGlobal_spec hev₂.settled hok).1
      · obtain ⟨k, hk, hok⟩ := bind_ok.mp hok
        cases hok
        exact (hev₁.trans hev₂).trans (defer_builds hev₂.settled ((hmerged loaded).trans hc) hk)
  | copy result operand =>
    obtain ⟨g₁, hev₁, -, hok | ⟨n, hn, hok⟩⟩ := nodeFor_bind_ok hs hok
    · exact hev₁.trans (setValueGlobal_spec hev₁.settled hok).1
    · obtain ⟨g₂, hev₂, hmerged, hok | ⟨r, -, hok⟩⟩ := nodeFor_bind_ok hev₁.settled hok
      · cases hok
        exact hev₁.trans hev₂
      · obtain ⟨k, hk, hok⟩ := bind_ok.mp hok
        cases hok
        exact (hev₁.trans hev₂).trans (defer_builds hev₂.settled ((hmerged n).trans hn) hk)
  | defer result operands =>
    obtain ⟨g₁, hev₁, -, hok | ⟨r, -, hok⟩⟩ := nodeFor_bind_ok hs hok
    · cases hok
      exact hev₁
    · exact hev₁.trans (deferToAll_builds operands r g₁ hev₁.settled hok)
  | deferAddresses dest src =>
    obtain ⟨⟨g₁, d?⟩, h₁, hok⟩ := bind_ok.mp hok
    obtain ⟨hev₁, -⟩ := nodeFor_builds hs h₁
    obtain ⟨g₂, hev₂, -, hok | ⟨n, hn, hok⟩⟩ := nodeFor_bind_ok hev₁.settled hok
    · cases d? <;> cases hok <;> exact hev₁.trans hev₂
    · cases d? with
      | none =>
        cases hok
        exact hev₁.trans hev₂
      | some d =>
        obtain ⟨k, hk, hok⟩ := bind_ok.mp hok
        cases hok
        exact (hev₁.trans hev₂).trans (defer_builds hev₂.settled hn hk)
  | destroyAddr address =>
    obtain ⟨g₁, hev₁, -, hok | ⟨c, hc, hok⟩⟩ := contentFor_bind_ok hs hok
    · cases hok
      exact hev₁
    · refine hev₁.trans (escapeUnknown_builds hev₁.settled ?_ hok)
      cases hf : g₁.fieldContent? c with
      | none => exact hc
      | some field => exact live_of_fieldContent? hev₁.settled hf
  | ret value =>
    obtain ⟨g₁, hev₁, -, hok | ⟨n, hn, hok⟩⟩ := nodeFor_bind_ok hs hok
    · cases hok
      exact hev₁
    · obtain ⟨hev₂, -⟩ := ensureReturn_evolves (P := s.Defined) (B := s.Inner) hev₁.settled
      obtain ⟨⟨g₃, k⟩, h₃, hok⟩ := bind_ok.mp hok
      have hlive : (g₁.ensureReturn.1.node n).merged = false :=
        ((ensureReturn_admits hev₁.settled).merged n).trans hn
      have hev₃ := hev₂.trans (defer_builds (s := s) hev₂.settled hlive h₃)
      obtain ⟨g₄, hev₄, -, hok | ⟨c, -, hok⟩⟩ := contentFor_bind_ok hev₃.settled hok
      · cases hok
        exact (hev₁.trans hev₃).trans hev₄
      · cases hok
        exact ((hev₁.trans hev₃).trans hev₄).trans (.raises hev₄.settled (raise_raises g₄ c _))
  | escapeAll => exact (escapeAll_spec hs hok).1

end

theorem onResult_mapToContent {result? : Option ValueId} {effect : ValueId → Effect}
    {address : ValueId} (h : Effect.onResult result? effect = .mapToContent r address) :
    ∃ r', result? = some r' ∧ effect r' = .mapToContent r address := by
  cases result? with
  | none => cases h
  | some r' => exact ⟨r', rfl, h⟩

theorem ofOperation_mapToContent {result? : Option ValueId} {op : Operation} {address : ValueId}
    (h : Effect.ofOperation s result? op = .ok (.mapToContent r address)) : result? = some r := by
  cases op with
  | load a =>
    cases result? with
    | none => cases h
    | some r' =>
      obtain ⟨p, -, h⟩ := bind_ok.mp h
      cases p with
      | false => cases h
      | true =>
        cases h
        rfl
  | refElementAddr _ _ | refTailAddr _ | projectBox _ =>
    obtain ⟨r', hr, he⟩ := onResult_mapToContent (Except.ok.inj h)
    cases he
    exact hr
  | allocStack _ | allocRef _ | allocBox _ | copyValue _ | beginBorrow _ | partialApply _ _
  | select _ _ _ | struct _ | tuple _ | enum _ =>
    obtain ⟨r', -, he⟩ := onResult_mapToContent (Except.ok.inj h)
    cases he
  | copyAddr _ _ isInit => cases isInit <;> cases h
  | ret value => cases value <;> cases h
  | _ => cases h

/-- An instruction that has an effect has the effect of its operation. -/
theorem ofOperation_of_effect {effect : Effect} (h : Effect.of s i = .ok effect)
    (hne : effect ≠ .none) : ∃ inst, s.func.inst i = .ok inst ∧
    Effect.ofOperation s inst.results.head? inst.op = .ok effect := by
  obtain ⟨inst, hinst, h⟩ := bind_ok.mp h
  refine ⟨inst, hinst, ?_⟩
  cases hr : inst.results.head? with
  | none =>
    rw [hr] at h
    exact h
  | some r' =>
    rw [hr] at h
    obtain ⟨b?, -, h⟩ := bind_ok.mp h
    cases b? with
    | some b => exact absurd (Except.ok.inj h).symm hne
    | none =>
      obtain ⟨c, -, h⟩ := bind_ok.mp h
      cases c with
      | true => exact absurd (Except.ok.inj h).symm hne
      | false => exact h

/-- Only a result is bound to a content. -/
theorem result_of_mapToContent (hfunc : s.func.ResultsTraced) {address : ValueId}
    (h : Effect.of s i = .ok (.mapToContent r address)) : s.Defined r ∧ s.Inner r := by
  obtain ⟨inst, hinst, hop⟩ := ofOperation_of_effect h Effect.noConfusion
  exact Scope.result_spec hfunc hinst (List.mem_of_head? (ofOperation_mapToContent hop))

/-! ### Block arguments -/

theorem linkIncoming_builds (vs : List ValueId) (n : NodeId) (g : Graph) (hs : Settled g)
    (hok : linkIncoming s vs n g = .ok g') : Builds s g g' := by
  induction vs generalizing n g with
  | nil =>
    cases hok
    exact .refl hs
  | cons v vs ih =>
    obtain ⟨g₁, hev, -, hok | ⟨m, hlive, hok⟩⟩ := nodeFor_bind_ok hs hok
    · cases hok
      exact hev.trans (setGlobal_evolves hev.settled n)
    · obtain ⟨⟨g₂, k⟩, h₂, hok⟩ := bind_ok.mp hok
      have hev₂ := hev.trans (defer_builds hev.settled hlive h₂)
      exact hev₂.trans (ih k g₂ hev₂.settled hok)

theorem linkArgument_builds (hs : Settled g) {preds : List BlockId} {b : BlockId}
    {arg : ValueId × Nat} (hok : linkArgument s preds b g arg = .ok g') : Builds s g g' := by
  obtain ⟨g₁, hev, -, hok | ⟨n, -, hok⟩⟩ := nodeFor_bind_ok hs hok
  · cases hok
    exact hev
  · obtain ⟨vs?, -, hok⟩ := bind_ok.mp hok
    cases vs? with
    | none =>
      cases hok
      exact hev.trans (setGlobal_evolves hev.settled n)
    | some vs => exact hev.trans (linkIncoming_builds vs n g₁ hev.settled hok)

/-- A loop of steps of building a graph. -/
theorem foldlM_builds {α : Type} {f : Graph → α → Checked Graph}
    (step : ∀ g a g', Settled g → f g a = .ok g' → Builds s g g') {l : List α} (hs : Settled g)
    (hok : l.foldlM f g = .ok g') : Builds s g g' := by
  refine foldlM_of_ok (P := fun _ h => Builds s g h) ?_ (.refl hs) hok
  intro done a rest h h' _ hev hstep
  exact hev.trans (step h a h' hev.settled hstep)

/-- **Linking the arguments of all blocks.** -/
theorem linkBlocks_builds (hs : Settled g) {blocks : List BlockId}
    (hok : g.linkBlocks s blocks = .ok g') : Builds s g g' := by
  refine foldlM_builds (fun g b g' hs hok => ?_) hs hok
  obtain ⟨blk, -, hok⟩ := bind_ok.mp hok
  exact foldlM_builds (fun _ _ _ hs hok => linkArgument_builds hs hok) hs hok

end Escape.Graph
