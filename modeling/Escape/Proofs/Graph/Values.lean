import Escape.Proofs.Graph.Evolves

/-!
# Values and their contents

Asking for the node of a value, or for the content of the memory it points to, moves a graph
forward. The value is at its node afterwards, and the content is what the node points to.

- `Graph.nodeFor_evolves`, `Graph.contentFor_evolves`: the two requests.
- `Graph.nodeOf?_iff`, `Graph.contentOf?_iff`: looking a value up.
-/

namespace Escape

variable {s : Scope} {v r : ValueId} {P B : ValueId → Prop}

/-- All values enter graphs under roots in `P`. -/
def Scope.Roots (s : Scope) (P : ValueId → Prop) : Prop :=
  ∀ v a, s.anchor? v = .ok (some a) → P a.root

/-- An operation that may map any value. -/
abbrev anything : ValueId → Prop := fun _ => True

theorem roots_anything (s : Scope) : s.Roots anything := fun _ _ _ => trivial

theorem Scope.anchor?_ok {a : Scope.Anchor} (h : s.anchor? v = .ok (some a)) :
    s.isFunctionRef v = .ok false ∧ s.isPointer v = .ok true ∧ s.root v = .ok a.root ∧
      s.isUndefined a.root = .ok false ∧ s.isArgument a.root = .ok a.isArgument ∧
      s.isReferenceOnly v = .ok a.referenceOnly := by
  obtain ⟨f, hf, h⟩ := bind_ok.mp h
  cases f with
  | true => cases h
  | false =>
    obtain ⟨k, hk, h⟩ := bind_ok.mp h
    cases hp : k.isPointer with
    | false => simp [hp, pure, Except.pure] at h
    | true =>
      simp only [hp, Bool.not_true, Bool.false_eq_true, if_false] at h
      obtain ⟨root, hr, h⟩ := bind_ok.mp h
      obtain ⟨u, hu, h⟩ := bind_ok.mp h
      cases u with
      | true => cases h
      | false =>
        obtain ⟨b, hb, h⟩ := bind_ok.mp h
        cases h
        refine ⟨hf, ?_, hr, hu, hb, ?_⟩
        · rw [Scope.isPointer, hk, ok_bind, hp]
          rfl
        · rw [Scope.isReferenceOnly, hk, ok_bind]
          rfl

/-- What it takes to have an anchor. -/
theorem Scope.anchor?_of (hf : s.isFunctionRef v = .ok false) (hp : s.isPointer v = .ok true)
    (hr : s.root v = .ok r) (hu : s.isUndefined r = .ok false) {b : Bool}
    (ha : s.isArgument r = .ok b) : ∃ a, s.anchor? v = .ok (some a) ∧ a.root = r := by
  obtain ⟨k, hk, hp⟩ := bind_ok.mp hp
  have hp : k.isPointer = true := Checked.pure_ok.mp hp
  refine ⟨⟨r, b, k = .referenceOnly⟩, ?_, rfl⟩
  simp only [Scope.anchor?, hf, hk, hr, hu, ha, hp, ok_bind]
  rfl

namespace Graph

variable {g g' : Graph} {n m c : NodeId}

/-! ### Nodes -/

theorem nodeFor_ok {n? : Option NodeId} (hok : g.nodeFor s v = .ok (g', n?)) :
    (n? = none ∧ g' = g ∧ (g.valid = true → s.anchor? v = .ok none)) ∨
      ∃ a, g.valid = true ∧ s.anchor? v = .ok (some a) ∧ g' = (g.enter a).1 ∧
        n? = some (g.enter a).2 := by
  unfold nodeFor at hok
  split at hok
  · rename_i hv
    cases hok
    exact .inl ⟨rfl, rfl, fun h => by simp [h] at hv⟩
  · rename_i hv
    obtain ⟨a?, ha, hok⟩ := bind_ok.mp hok
    cases a? with
    | none =>
      cases hok
      exact .inl ⟨rfl, rfl, fun _ => ha⟩
    | some a =>
      cases hok
      exact .inr ⟨a, by simpa using hv, ha, rfl, rfl⟩

theorem nodeFor_valid {n? : Option NodeId} (hok : g.nodeFor s v = .ok (g', n?)) :
    g'.valid = g.valid := by
  rcases nodeFor_ok hok with ⟨-, rfl, -⟩ | ⟨a, -, -, rfl, -⟩
  · rfl
  · unfold enter
    split <;> rfl

/-- The node of a value is live, and the root of the value is there. -/
theorem nodeFor_evolves (hP : s.Roots P) (hs : Settled g) {n? : Option NodeId}
    (hok : g.nodeFor s v = .ok (g', n?)) :
    Evolves P B g g' ∧ ∀ n, n? = some n →
      g'.Live n ∧ ∃ a, s.anchor? v = .ok (some a) ∧ g'.At a.root n := by
  rcases nodeFor_ok hok with ⟨rfl, rfl, -⟩ | ⟨a, -, ha, rfl, rfl⟩
  · exact ⟨.refl hs, nofun⟩
  · obtain ⟨hev, hlive, hat⟩ := enter_evolves (P := P) (B := B) hs a (hP v a ha)
    refine ⟨hev, fun n hn => ?_⟩
    cases hn
    exact ⟨hlive, a, ha, hat⟩

theorem nodeOf?_iff : g.nodeOf? s v = .ok (some n) ↔
    g.valid = true ∧ s.isPointer v = .ok true ∧ ∃ r, s.root v = .ok r ∧ g.At r n := by
  unfold nodeOf?
  constructor
  · intro h
    split at h
    · cases h
    · rename_i hv
      obtain ⟨p, hp, h⟩ := bind_ok.mp h
      cases p with
      | false => cases h
      | true =>
        obtain ⟨r, hr, h⟩ := bind_ok.mp h
        exact ⟨by simpa using hv, hp, r, hr, at_iff_map.mpr (Checked.pure_ok.mp h)⟩
  · rintro ⟨hv, hp, r, hr, hat⟩
    simp only [hv, hp, hr, ok_bind, Bool.not_true, Bool.false_eq_true, if_false]
    rw [at_iff_map.mp hat]
    rfl

theorem contentOf?_iff : g.contentOf? s v = .ok (some c) ↔
    ∃ n, g.nodeOf? s v = .ok (some n) ∧ g.content? n = some c := by
  unfold contentOf?
  rw [bind_ok]
  constructor
  · rintro ⟨n?, hn, h⟩
    obtain ⟨n, rfl, hc⟩ := Option.bind_eq_some_iff.mp (Checked.pure_ok.mp h)
    exact ⟨n, hn, hc⟩
  · rintro ⟨n, hn, hc⟩
    exact ⟨some n, hn, by rw [Option.bind_some, hc]; rfl⟩

/-- A value that a later graph still knows. -/
theorem nodeOf?_follows (hf : Follows g g') (h : g.nodeOf? s v = .ok (some n)) :
    g'.nodeOf? s v = .ok (some (g'.representative n)) := by
  obtain ⟨hv, hp, r, hr, hat⟩ := nodeOf?_iff.mp h
  exact nodeOf?_iff.mpr ⟨hf.valid.trans hv, hp, r, hr, hf.values r n hat⟩

/-! ### Contents -/

/-- Making a content takes none away. -/
theorem ensureContent_keeps {interior referenceOnly : Bool} (hs : Settled g)
    (hn : (g.node n).merged = false) {d : NodeId}
    (hok : g.ensureContent n interior referenceOnly = .ok (g', c)) (hm : g.content? m = some d) :
    g'.content? m = some d := by
  obtain ⟨-, hext, -, -⟩ := ensureContent_extends hs.toShape hn hok
  rw [content?_eq, Option.map_eq_some_iff] at hm ⊢
  obtain ⟨t, ht, rfl⟩ := hm
  refine ⟨t, ?_, hext.representative hs.forest t⟩
  rcases ensureContent_cases hs.toShape hok with ⟨-, rfl⟩ | ⟨-, -, g₁, V, hV, rfl⟩
  · rw [(SameEdges.modify g c).target?, ht]
  · have hadd := (SameEdges.addNode (g := g) (Node.fresh_content interior referenceOnly)).target? m
    rw [target?, copyUsePoints_field Node.pointsTo, node_modify_field Node.pointsTo, ← target?,
      hV.toFills.target?_of_isSome (by rw [hadd, ht]; rfl), hadd, ht]

/-- The two contents that an object has. -/
theorem ensureObject_cases {fields : Checked Bool} (hok : g.ensureObject n fields = .ok (g', c)) :
    ∃ g₁, g.ensureContent n true false = .ok (g₁, c) ∧
      ((g₁.node c).interior = false ∧ g' = g₁ ∨
        (g₁.node c).interior = true ∧ ∃ b d, g₁.ensureContent c false b = .ok (g', d)) := by
  obtain ⟨⟨g₁, d⟩, h₁, hok⟩ := bind_ok.mp hok
  dsimp only at hok
  split at hok
  · rename_i hi
    cases hok
    exact ⟨_, h₁, .inl ⟨by simpa using hi, rfl⟩⟩
  · rename_i hi
    obtain ⟨b, -, hok⟩ := bind_ok.mp hok
    obtain ⟨⟨g₂, e⟩, h₂, hok⟩ := bind_ok.mp hok
    cases hok
    exact ⟨g₁, h₁, .inr ⟨by simpa using hi, b, e, h₂⟩⟩

/-- The ways of making the content of a value. -/
theorem contentFor_cases {c? : Option NodeId} (hok : g.contentFor s v = .ok (g', c?)) :
    (c? = none ∧ g.nodeFor s v = .ok (g', none)) ∨ ∃ g₁ n c, c? = some c ∧
      g.nodeFor s v = .ok (g₁, some n) ∧
      ((s.isAddress v = .ok true ∧ ∃ b, g₁.ensureContent n false b = .ok (g', c)) ∨
        (s.isAddress v = .ok false ∧ (g₁.node n).referenceOnly = true ∧
          ∃ fields, g₁.ensureObject n fields = .ok (g', c)) ∨
        (s.isAddress v = .ok false ∧ (g₁.node n).referenceOnly = false ∧
          g₁.ensureContent n false false = .ok (g', c))) := by
  obtain ⟨⟨g₁, n?⟩, h₁, hok⟩ := bind_ok.mp hok
  cases n? with
  | none =>
    cases hok
    exact .inl ⟨rfl, h₁⟩
  | some n =>
    obtain ⟨isAddr, haddr, hok⟩ := bind_ok.mp hok
    split at hok
    · rename_i hi
      obtain ⟨⟨g₂, c⟩, h₂, hok⟩ := bind_ok.mp hok
      obtain ⟨b, -, h₂⟩ := bind_ok.mp h₂
      cases hok
      exact .inr ⟨g₁, n, c, rfl, h₁, .inl ⟨hi ▸ haddr, b, h₂⟩⟩
    · rename_i hi
      rw [Bool.not_eq_true] at hi
      split at hok
      · rename_i href
        obtain ⟨⟨g₂, c⟩, h₂, hok⟩ := bind_ok.mp hok
        cases hok
        exact .inr ⟨g₁, n, c, rfl, h₁, .inr (.inl ⟨hi ▸ haddr, href, _, h₂⟩)⟩
      · rename_i href
        obtain ⟨⟨g₂, c⟩, h₂, hok⟩ := bind_ok.mp hok
        cases hok
        exact .inr ⟨g₁, n, c, rfl, h₁, .inr (.inr ⟨hi ▸ haddr, by simpa using href, h₂⟩)⟩

/-- The object of a reference is live, and the reference points to it. -/
theorem ensureObject_evolves {fields : Checked Bool} (hs : Settled g)
    (hn : (g.node n).merged = false) (hok : g.ensureObject n fields = .ok (g', c)) :
    Evolves P B g g' ∧ g'.Live c ∧ g'.content? n = some c := by
  obtain ⟨g₁, h₁, hrest⟩ := ensureObject_cases hok
  obtain ⟨hev, hd, hc⟩ := ensureContent_evolves (P := P) (B := B) hs hn h₁
  rcases hrest with ⟨-, rfl⟩ | ⟨-, b, e, h₂⟩
  · exact ⟨hev, hd, hc⟩
  · obtain ⟨hev', -, -⟩ := ensureContent_evolves (P := P) (B := B) hev.settled hd.2 h₂
    have hc' := ensureContent_keeps hev.settled hd.2 h₂ hc
    exact ⟨hev.trans hev', hev'.settled.live_content hc', hc'⟩

/-- The content of a value is live, and the node of the value points to it. -/
theorem contentFor_evolves (hP : s.Roots P) (hs : Settled g) {c? : Option NodeId}
    (hok : g.contentFor s v = .ok (g', c?)) :
    Evolves P B g g' ∧ ∀ c, c? = some c → g'.Live c ∧ ∃ a n, s.anchor? v = .ok (some a) ∧
      g'.At a.root n ∧ g'.content? n = some c := by
  rcases contentFor_cases hok with ⟨rfl, h₁⟩ | ⟨g₁, n, c, rfl, h₁, hways⟩
  · exact ⟨(nodeFor_evolves hP hs h₁).1, nofun⟩
  · obtain ⟨hev, hn⟩ := nodeFor_evolves (B := B) hP hs h₁
    obtain ⟨hlive, a, ha, hat⟩ := hn n rfl
    have hway : Evolves P B g₁ g' ∧ g'.Live c ∧ g'.content? n = some c := by
      rcases hways with ⟨-, b, h₂⟩ | ⟨-, -, fields, h₂⟩ | ⟨-, -, h₂⟩
      · exact ensureContent_evolves hev.settled hlive.2 h₂
      · exact ensureObject_evolves hev.settled hlive.2 h₂
      · exact ensureContent_evolves hev.settled hlive.2 h₂
    obtain ⟨hev', hd, hc⟩ := hway
    refine ⟨hev.trans hev', fun c' e => ?_⟩
    cases e
    have hat' := hev'.values a.root n hat
    rw [hev'.settled.representative_of_content hc] at hat'
    exact ⟨hd, a, n, ha, hat', hc⟩

/-! ### States -/

theorem setGlobal_evolves (hs : Settled g) (n : NodeId) : Evolves P B g (g.setGlobal n) :=
  .raises hs (raise_raises g n _)

theorem setGlobal?_raises (g : Graph) (n? : Option NodeId) : Raises g (g.setGlobal? n?) := by
  cases n? with
  | none => exact .refl g
  | some n => exact raise_raises g n _

theorem setGlobal?_evolves (hs : Settled g) (n? : Option NodeId) :
    Evolves P B g (g.setGlobal? n?) :=
  .raises hs (setGlobal?_raises g n?)

theorem isGlobal_setGlobal (hs : Settled g) (hn : g.Has n) :
    ((g.setGlobal n).node ((g.setGlobal n).representative n)).state = .globalEscaping := by
  have hr := raise_raises g n .globalEscaping
  rw [setGlobal, hr.toExtends.representative hs.forest]
  show ((g.modify (g.representative n) _).node _).state = _
  rw [node_modify_self (hs.forest.has_representative hn)]
  show EscapeState.join _ _ = _
  cases (g.node (g.representative n)).state <;> rfl

/-- A value that was let go is global afterwards. -/
theorem setValueGlobal_evolves (hP : s.Roots P) (hs : Settled g)
    (hok : g.setValueGlobal s v = .ok g') :
    Evolves P B g g' ∧ ∀ a n, g.valid = true → s.anchor? v = .ok (some a) → g'.At a.root n →
      (g'.node n).state = .globalEscaping := by
  obtain ⟨⟨g₁, n?⟩, h₁, hok⟩ := bind_ok.mp hok
  obtain ⟨⟨g₂, c?⟩, h₂, hok⟩ := bind_ok.mp hok
  cases hok
  obtain ⟨hev₁, hn⟩ := nodeFor_evolves (B := B) hP hs h₁
  have hevs := setGlobal?_evolves (P := P) (B := B) hev₁.settled n?
  obtain ⟨hev₂, -⟩ := contentFor_evolves (B := B) hP hevs.settled h₂
  have hev₃ := setGlobal?_evolves (P := P) (B := B) hev₂.settled c?
  have hrest := (hevs.trans hev₂).trans hev₃
  refine ⟨hev₁.trans hrest, fun a n hv ha hat => ?_⟩
  cases n? with
  | none =>
    rcases nodeFor_ok h₁ with ⟨-, -, hnone⟩ | ⟨a', -, -, -, hsome⟩
    · cases ha.symm.trans (hnone hv)
    · cases hsome
  | some m =>
    obtain ⟨hlive, a', ha', hat'⟩ := hn m rfl
    cases ha.symm.trans ha'
    have hm : n = (setGlobal? g₂ c?).representative m :=
      hat.unique (hrest.values _ _ hat')
    rw [hm]
    exact (hev₂.trans hev₃).isGlobal (isGlobal_setGlobal hev₁.settled hlive.1)

end Graph

end Escape
