import Escape.Proofs.Graph.Appends
import Escape.Proofs.UsePointSet

/-!
# Use points

Working out use points changes flags and use points only, as long as every value that is asked for
has its contents already. A call or release is a use point of the memory that its operands point to,
and pushing use points along points-to edges takes them to all memory below.

- `Graph.useInst_spec`: an instruction becomes a use point of what its operands point to.
- `Graph.propagateUsePoints_covered`: pushing use points to the end.
-/

namespace Escape

/-- A node without its flags and use points. -/
def Node.unmarked (x : Node) : Node :=
  { x with usePoints := {}, interior := false, referenceOnly := false }

namespace Graph

variable {g g' g'' : Graph} {n m c : NodeId} {s : Scope} {v r : ValueId} {i : InstId}

/-! ### Marks -/

/-- Only flags and use points have changed, and use points were not lost. -/
structure Marks (g g' : Graph) : Prop where
  size : g'.size = g.size
  same : ∀ n, (g'.node n).unmarked = (g.node n).unmarked
  referenceOnly : ∀ n, (g'.node n).referenceOnly = true → (g.node n).referenceOnly = true
  bits : ∀ n, ∀ u ∈ (g.node n).usePoints.bits, u ∈ (g'.node n).usePoints.bits
  numbers : ∀ i u, g.usePoints.find? i = some u → g'.usePoints.find? i = some u
  at_old : ∀ r n, g.At r n → g'.At r n
  returnNode : g'.returnNode = g.returnNode
  label : g'.label = g.label

namespace Marks

theorem refl (g : Graph) : Marks g g :=
  ⟨rfl, fun _ => rfl, fun _ h => h, fun _ _ h => h, fun _ _ h => h, fun _ _ h => h, rfl, rfl⟩

variable (h : Marks g g')
include h

theorem trans (h' : Marks g' g'') : Marks g g'' where
  size := h'.size.trans h.size
  same n := (h'.same n).trans (h.same n)
  referenceOnly n hr := h.referenceOnly n (h'.referenceOnly n hr)
  bits n u hu := h'.bits n u (h.bits n u hu)
  numbers i u hu := h'.numbers i u (h.numbers i u hu)
  at_old r n hr := h'.at_old r n (h.at_old r n hr)
  returnNode := h'.returnNode.trans h.returnNode
  label := h'.label.trans h.label

theorem field {α : Type} (p : Node → α)
    (hp : ∀ x : Node, p x.unmarked = p x := by intros; rfl) (n : NodeId) :
    p (g'.node n) = p (g.node n) := by
  rw [← hp, h.same, hp]

theorem state (n : NodeId) : (g'.node n).state = (g.node n).state :=
  h.field Node.state (fun _ => rfl) n

theorem sameEdges : SameEdges g g' := .of_links h.size (h.field Node.links)

theorem toAppends : Appends g g' :=
  .of_sameEdges h.sameEdges (fun n _ => h.state n) (fun n _ => h.referenceOnly n) h.at_old
    h.returnNode h.label

theorem valid : g'.valid = g.valid := (congrArg (·.2.2) h.label :)

theorem closed (hs : Settled g) (hc : Closed g) : Closed g' :=
  hc.sameEdges h.sameEdges hs.forest h.state

end Marks

/-- Only flags have changed. -/
structure Reflags (g g' : Graph) : Prop extends Marks g g' where
  usePoints : ∀ n, (g'.node n).usePoints = (g.node n).usePoints

theorem Reflags.refl (g : Graph) : Reflags g g := ⟨.refl g, fun _ => rfl⟩

theorem Reflags.trans (h : Reflags g g') (h' : Reflags g' g'') : Reflags g g'' :=
  ⟨h.toMarks.trans h'.toMarks, fun n => (h'.usePoints n).trans (h.usePoints n)⟩

section

variable (hs : Settled g)
include hs

theorem mergeFlags_reflags (n : NodeId) (interior referenceOnly : Bool) :
    Reflags g (g.modify n (·.mergeFlags interior referenceOnly)) where
  usePoints m := node_modify_field Node.usePoints ..
  size := size_modify g n _
  same m := node_modify_field Node.unmarked ..
  referenceOnly m hm := by
    by_cases hhas : g.Has m
    · exact (mergeFlags_appends hs n interior referenceOnly).referenceOnly m hhas hm
    · rw [node_of_not_has fun h => hhas ((has_modify _).mp h)] at hm
      cases hm
  bits m u hu := by
    rw [node_modify_field Node.usePoints]
    exact hu
  numbers _ _ h := h
  at_old r m := (SameEdges.at_iff (.modify g n) hs.forest rfl).mpr
  returnNode := rfl
  label := rfl

theorem addUsePoints_marks (n : NodeId) (u : UsePointSet) :
    Marks g (g.modify n (·.addUsePoints u)) where
  size := size_modify g n _
  same m := node_modify_field Node.unmarked ..
  referenceOnly m hm := by rwa [node_modify_field Node.referenceOnly] at hm
  bits m j hj := by
    rw [node_modify]
    split
    · exact UsePointSet.mem_union.mpr (.inl hj)
    · exact hj
  numbers _ _ h := h
  at_old r m := (SameEdges.at_iff (.modify g n) hs.forest rfl).mpr
  returnNode := rfl
  label := rfl

theorem numberUser_marks (i : InstId) : Marks g (g.numberUser i).1 ∧
    (g.numberUser i).1.usePoints.find? i = some (g.numberUser i).2 := by
  unfold numberUser
  cases hi : g.usePoints.find? i with
  | some u => exact ⟨.refl g, hi⟩
  | none =>
    refine ⟨?_, by rw [AssocMap.find?_insert, if_pos rfl]⟩
    refine {
      size := rfl, same := fun n => rfl, referenceOnly := fun n h => h, bits := fun n u h => h
      numbers := fun j u hj => ?_, at_old := fun r n h => ?_, returnNode := rfl, label := rfl }
    · show (g.usePoints.insert i _).find? j = some u
      rw [AssocMap.find?_insert, if_neg (by rintro rfl; rw [hi] at hj; cases hj), hj]
    · refine Iff.mpr ?_ h
      exact SameEdges.at_iff (.of_nodes rfl) hs.forest rfl

/-- Asking again for a node changes flags only. -/
theorem enter_reflags {a : Scope.Anchor} (hat : g.At a.root n) :
    Reflags g (g.enter a).1 ∧ (g.enter a).2 = n := by
  obtain ⟨k, hk, rfl⟩ := hat
  have had := enter_admits hs a
  have happ := enter_appends hs a
  rcases enter_cases g a with ⟨k', f, hk', rfl, e⟩ | ⟨x, hnone, -, -, -, -⟩
  · cases hk'.symm.trans hk
    have huse (n : NodeId) : ((g.enter a).1.node n).usePoints = (g.node n).usePoints := by
      rw [e]
      exact node_modify_field (f := Node.mergeFlags false a.referenceOnly) Node.usePoints
        (fun _ => rfl) g _ n
    refine ⟨{ size := ?_, same := fun n => ?_, referenceOnly := fun n h => ?_
              bits := fun n u h => (huse n).symm ▸ h, numbers := fun j u h => ?_,
              at_old := had.at_old
              returnNode := happ.returnNode, label := had.label, usePoints := huse }, by rw [e]⟩
    · rw [e]
      exact size_modify g _ _
    · rw [e]
      exact node_modify_field (f := Node.mergeFlags false a.referenceOnly) Node.unmarked
        (fun _ => rfl) g _ n
    · by_cases hhas : g.Has n
      · exact happ.referenceOnly n hhas h
      · have hno : ¬ (g.enter a).1.Has n := by
          rw [e]
          exact fun h => hhas ((has_modify _).mp h)
        rw [node_of_not_has hno] at h
        cases h
    · rw [e]
      exact h
  · rw [hnone] at hk
    cases hk

/-! ### Values with all their contents -/

omit hs in
/-- All contents that a value needs are there: what it points to, and if it is a reference also what
the fields of the object point to. -/
def Filled (s : Scope) (g : Graph) (v : ValueId) : Prop :=
  ∀ a, s.anchor? v = .ok (some a) → ∃ n c, g.At a.root n ∧ g.content? n = some c ∧
    (s.isAddress v = .ok false → (g.node n).referenceOnly = true → (g.content? c).isSome)

omit hs in
/-- What a graph keeps that keeps values filled. -/
theorem Filled.congr (h : Filled s g v) (hs : Settled g) (hat : ∀ r n, g.At r n → g'.At r n)
    (hc : ∀ n c, g.content? n = some c → g'.content? n = some c)
    (href : ∀ n, g.Has n → (g'.node n).referenceOnly = true → (g.node n).referenceOnly = true) :
    Filled s g' v := by
  intro a hanchor
  obtain ⟨n, c, hn, hcn, hfields⟩ := h a hanchor
  refine ⟨n, c, hat _ _ hn, hc _ _ hcn, fun haddr hr => ?_⟩
  obtain ⟨d, hd⟩ := Option.isSome_iff_exists.mp (hfields haddr (href n (hn.live hs).1 hr))
  exact Option.isSome_iff_exists.mpr ⟨d, hc _ _ hd⟩

omit hs in
theorem Filled.appends (h : Filled s g v) (hs : Settled g) (ha : Appends g g') : Filled s g' v :=
  h.congr hs ha.at_old (fun _ _ => ha.content? hs.forest) ha.referenceOnly

omit hs in
theorem Filled.raises (h : Filled s g v) (hs : Settled g) (hr : Raises g g') : Filled s g' v :=
  h.congr hs (fun _ _ => (hr.sameEdges.at_iff hs.forest hr.values).mpr)
    (fun n c hc => (hr.sameEdges.content? hs.forest n).trans hc)
    fun n _ href => by rwa [hr.field Node.referenceOnly] at href

/-- An object is interior, so its fields are told apart. -/
theorem ensureContent_interior {referenceOnly : Bool}
    (hok : g.ensureContent n true referenceOnly = .ok (g', c)) : (g'.node c).interior = true := by
  rcases ensureContent_cases hs.toShape hok with ⟨hc, rfl⟩ | ⟨-, hc, g₁, V, hV, rfl⟩
  · rw [node_modify_self (hs.live_content hc).1]
    exact Bool.or_true _
  · rw [copyUsePoints_field Node.interior,
      node_modify_field Node.interior, hV.interior, hc, node_addNode_self]

/-- **Asking for the content of a value fills it.** -/
theorem contentFor_filled (hv : g.valid = true) {c? : Option NodeId}
    (hok : g.contentFor s v = .ok (g', c?)) : Filled s g' v := by
  intro a ha
  have hev := contentFor_evolves (P := anything) (B := anything) (roots_anything s) hs hok
  rcases contentFor_cases hok with ⟨-, h₁⟩ | ⟨g₁, n, c, rfl, h₁, hways⟩
  · -- a value with an anchor has a node
    rcases nodeFor_ok h₁ with ⟨-, -, hnone⟩ | ⟨_, -, -, -, hsome⟩
    · cases ha.symm.trans (hnone hv)
    · cases hsome
  · obtain ⟨hev₁, hn⟩ := nodeFor_evolves (P := anything) (B := anything) (roots_anything s) hs h₁
    obtain ⟨hlive, a', ha', hat₁⟩ := hn n rfl
    obtain ⟨-, a'', n', ha'', hat, hc⟩ := hev.2 c rfl
    cases ha.symm.trans ha'
    cases ha.symm.trans ha''
    refine ⟨n', c, hat, hc, fun haddr href => ?_⟩
    have hnn : n' = n := by
      refine hat.unique ?_
      have happ : Appends g₁ g' := by
        rcases hways with ⟨-, b, h₂⟩ | ⟨-, -, fields, h₂⟩ | ⟨-, -, h₂⟩
        · exact ensureContent_appends hev₁.settled hlive.2 h₂
        · exact ensureObject_appends hev₁.settled hlive.2 h₂
        · exact ensureContent_appends hev₁.settled hlive.2 h₂
      exact happ.at_old _ _ hat₁
    subst hnn
    rcases hways with ⟨hyes, -⟩ | ⟨-, -, fields, h₂⟩ | ⟨-, hno, h₂⟩
    · cases haddr.symm.trans hyes
    · obtain ⟨g₂, h₃, hfields⟩ := ensureObject_cases h₂
      obtain ⟨hev₂, hd, -⟩ := ensureContent_evolves (P := anything) (B := anything)
        hev₁.settled hlive.2 h₃
      rcases hfields with ⟨hint, -⟩ | ⟨-, b, d, h₄⟩
      · rw [ensureContent_interior hev₁.settled h₃] at hint
        cases hint
      · obtain ⟨-, -, hd'⟩ := ensureContent_evolves (P := anything) (B := anything)
          hev₂.settled hd.2 h₄
        rw [hd']
        rfl
    · have happ := ensureContent_appends hev₁.settled hlive.2 h₂
      rw [happ.referenceOnly n' hlive.1 href] at hno
      cases hno

/-- Asking again for a content that is there changes flags only. -/
theorem ensureContent_reflags {interior referenceOnly : Bool} {d : NodeId}
    (hd : g.content? n = some d) (hok : g.ensureContent n interior referenceOnly = .ok (g', c)) :
    Reflags g g' ∧ c = d := by
  rcases ensureContent_cases hs.toShape hok with ⟨hc, rfl⟩ | ⟨hnone, -, -⟩
  · exact ⟨mergeFlags_reflags hs c interior referenceOnly, Option.some.inj (hc.symm.trans hd)⟩
  · rw [content?_eq, hnone] at hd
    cases hd

/-- **Asking again for the content of a value** changes flags only. -/
theorem contentFor_reflags (hr : Filled s g v) {c? : Option NodeId}
    (hok : g.contentFor s v = .ok (g', c?)) : Reflags g g' := by
  rcases contentFor_cases hok with ⟨-, h₁⟩ | ⟨g₁, n, c, -, h₁, hways⟩
  · rcases nodeFor_ok h₁ with ⟨-, rfl, -⟩ | ⟨_, -, -, -, hsome⟩
    · exact .refl _
    · cases hsome
  · obtain ⟨hev₁, hn⟩ := nodeFor_evolves (P := anything) (B := anything) (roots_anything s) hs h₁
    rcases nodeFor_ok h₁ with ⟨hnone, -, -⟩ | ⟨a, -, ha, rfl, hsome⟩
    · cases hnone
    obtain ⟨m, d, hat, hd, hfields⟩ := hr a ha
    obtain ⟨hm₁, hnm⟩ := enter_reflags hs hat
    have hnm' : n = m := (Option.some.inj hsome).trans hnm
    subst hnm'
    have hd₁ : (g.enter a).1.content? n = some d := by
      rw [hm₁.sameEdges.content? hs.forest, hd]
    rcases hways with ⟨-, b, h₂⟩ | ⟨haddr, href, fields, h₂⟩ | ⟨-, -, h₂⟩
    · exact hm₁.trans (ensureContent_reflags hev₁.settled hd₁ h₂).1
    · obtain ⟨g₂, h₃, hrest⟩ := ensureObject_cases h₂
      obtain ⟨hm₂, rfl⟩ := ensureContent_reflags hev₁.settled hd₁ h₃
      rcases hrest with ⟨-, rfl⟩ | ⟨-, b, e, h₄⟩
      · exact hm₁.trans hm₂
      · obtain ⟨e', he'⟩ := Option.isSome_iff_exists.mp (hfields haddr (hm₁.referenceOnly n href))
        obtain ⟨hev₂, -, -⟩ := ensureContent_evolves (P := anything) (B := anything) hev₁.settled
          (hn n rfl).1.2 h₃
        have he₂ : g₂.content? c = some e' := by
          rw [(hm₁.trans hm₂).sameEdges.content? hs.forest, he']
        exact (hm₁.trans hm₂).trans (ensureContent_reflags hev₂.settled he₂ h₄).1
    · exact hm₁.trans (ensureContent_reflags hev₁.settled hd₁ h₂).1

end

/-! ### Numbers of use points -/

/-- The number of use points of a node. -/
abbrev useCount (x : Node) : Nat := x.usePoints.bits.length

/-- The use points of all nodes are numbers that were given out. -/
structure Counted (g : Graph) : Prop where
  sorted : ∀ n, (g.node n).usePoints.Sorted
  bits : ∀ n, ∀ u ∈ (g.node n).usePoints.bits, u < g.users.size
  numbers : ∀ i u, g.usePoints.find? i = some u → u < g.users.size

namespace Counted

/-- Adding use points that were given out. -/
theorem addUsePoints (h : Counted g) {t : UsePointSet} (hsorted : t.Sorted)
    (ht : ∀ u ∈ t.bits, u < g.users.size) (n : NodeId) :
    Counted (g.modify n (·.addUsePoints t)) where
  sorted m := by
    rw [node_modify]
    split
    · exact (h.sorted m).union hsorted
    · exact h.sorted m
  bits m u hu := by
    rw [node_modify] at hu
    split at hu
    · rcases UsePointSet.mem_union.mp hu with hu | hu
      · exact h.bits m u hu
      · exact ht u hu
    · exact h.bits m u hu
  numbers := h.numbers

theorem useCount_le (h : Counted g) (hm : Marks g g') (n : NodeId) :
    useCount (g.node n) ≤ useCount (g'.node n) := by
  have hnodup : (g.node n).usePoints.bits.Nodup := (h.sorted n).nodup
  exact (hnodup.subperm fun u hu => hm.bits n u hu).length_le

theorem numberUser (h : Counted g) (i : InstId) : Counted (g.numberUser i).1 := by
  unfold Graph.numberUser
  cases hi : g.usePoints.find? i with
  | some u => exact h
  | none =>
    have hsize : ∀ u, u < g.users.size → u < (g.users.push (some i)).size := by
      intro u hu
      rw [Array.size_push]
      omega
    refine ⟨h.sorted, fun n u hu => hsize u (h.bits n u hu), fun j u hj => ?_⟩
    replace hj : (g.usePoints.insert i g.users.size).find? j = some u := hj
    rw [AssocMap.find?_insert] at hj
    split at hj
    · cases hj
      show g.users.size < (g.users.push (some i)).size
      rw [Array.size_push]
      omega
    · exact hsize u (h.numbers j u hj)

/-- A change of flags. -/
theorem reflags (h : Counted g) (hr : Reflags g g') (hh : g'.header = g.header) : Counted g' := by
  have husers : g'.users = g.users := congrArg (·.2.2) hh
  have hnumbers : g'.usePoints = g.usePoints := congrArg (·.2.1) hh
  refine ⟨fun n => ?_, fun n u hu => ?_, fun i u hi => ?_⟩
  · rw [hr.usePoints]
    exact h.sorted n
  · rw [husers]
    exact h.bits n u (hr.usePoints n ▸ hu)
  · rw [husers]
    exact h.numbers i u (hnumbers ▸ hi)

end Counted

/-- The use point of an instruction at a node. -/
def UsedBy (g : Graph) (i : InstId) (c : NodeId) : Prop :=
  (g.node c).state = .globalEscaping ∨
    ∃ u, g.usePoints.find? i = some u ∧ u ∈ (g.node c).usePoints.bits

theorem UsedBy.marks (h : UsedBy g i c) (hm : Marks g g') : UsedBy g' i c := by
  rcases h with hst | ⟨u, hi, hu⟩
  · exact .inl (by rw [hm.state, hst])
  · exact .inr ⟨u, hm.numbers i u hi, hm.bits c u hu⟩

theorem isUsePoint_of_usedBy (hs : Settled g) (hc : (g.node c).merged = false) (h : UsedBy g i c) :
    g.isUsePoint c i = true := by
  unfold isUsePoint
  rw [hs.representative_of_live hc]
  rcases h with hst | ⟨u, hi, hu⟩
  · dsimp only
    rw [if_pos hst]
  · dsimp only
    split
    · rfl
    · rw [hi]
      exact decide_eq_true hu

/-- An instruction is recorded at a live node, unless the node escapes globally. -/
theorem addUsePoint_spec (hs : Settled g) (hcount : Counted g) (hc : g.Live c) :
    Marks g (g.addUsePoint c i).1 ∧ Counted (g.addUsePoint c i).1 ∧
    UsedBy (g.addUsePoint c i).1 i c ∧
      ∀ u, (g.addUsePoint c i).2 = some u → (g.addUsePoint c i).1.usePoints.find? i = some u := by
  unfold addUsePoint
  rw [hs.representative_of_live hc.2]
  dsimp only
  split
  · rename_i hst
    refine ⟨.refl g, hcount, .inl hst, ?_⟩
    intro u hu
    cases hu
  · obtain ⟨hm, hi⟩ := numberUser_marks hs i
    have hcount' := hcount.numberUser i
    have hs' : Settled (g.numberUser i).1 := by
      refine hs.of_nodes ?_ ?_ ?_ ?_ <;> unfold numberUser <;> split <;> rfl
    have hhas : (g.numberUser i).1.Has c := by
      rw [Has, hm.size]
      exact hc.1
    refine ⟨hm.trans (addUsePoints_marks hs' c _),
      hcount'.addUsePoints (List.pairwise_singleton _ _) ?_ c, .inr ⟨_, hi, ?_⟩, ?_⟩
    · intro u hu
      rw [List.mem_singleton.mp hu]
      exact hcount'.numbers i _ hi
    · rw [node_modify_self hhas]
      exact UsePointSet.mem_union.mpr (.inr (List.mem_singleton.mpr rfl))
    · intro u hu
      cases hu
      exact hi

/-! ### Instructions -/

/-- The memory that a value points to is used by an instruction. -/
def Uses (s : Scope) (g : Graph) (i : InstId) (v : ValueId) : Prop :=
  ∀ a n c, s.anchor? v = .ok (some a) → g.At a.root n → g.content? n = some c → UsedBy g i c

theorem Uses.marks (h : Uses s g i v) (hs : Settled g) (hf : Filled s g v) (hm : Marks g g') :
    Uses s g' i v := by
  intro a n c ha hat hc
  obtain ⟨m, -, hm', -, -⟩ := hf a ha
  cases hat.unique (hm.at_old _ _ hm')
  rw [hm.sameEdges.content? hs.forest] at hc
  exact (h a n c ha hm' hc).marks hm

/-- **The operands of an instruction.** The contents of all of them get the use point of the
instruction, from the first content on that does not escape globally. -/
theorem useOperands_spec (vs : List ValueId) (number : Option Nat) (g : Graph) (hs : Settled g)
    (hcount : Counted g) (hvalid : g.valid = true) (hfilled : (∀ v ∈ vs, Filled s g v))
    (hnum : (∀ u, number = some u → g.usePoints.find? i = some u))
    (hok : useOperands s i vs number g = .ok g') : Marks g g' ∧ Counted g' ∧
    ∀ v ∈ vs, Uses s g' i v := by
  induction vs generalizing number g with
  | nil =>
    cases hok
    exact ⟨.refl _, hcount, nofun⟩
  | cons v rest ih =>
    have hv := hfilled v List.mem_cons_self
    obtain ⟨⟨g₁, c?⟩, h₁, hok⟩ := bind_ok.mp hok
    obtain ⟨hev, hc⟩ := contentFor_evolves (P := anything) (B := anything) (roots_anything s) hs h₁
    have hr₁ := contentFor_reflags hs hv h₁
    have hm₁ := hr₁.toMarks
    have hcount₁ : Counted g₁ := hcount.reflags hr₁ hev.header
    -- the rest of the operands, once the graph for `v` is there
    have hgo : ∀ (number : Option Nat) (k : Graph), Marks g₁ k → Settled k →
      Counted k → Uses s k i v →
        (∀ u, number = some u → k.usePoints.find? i = some u) →
        useOperands s i rest number k = .ok g' → Marks g g' ∧ Counted g' ∧ ∀ w ∈ v :: rest,
        Uses s g' i w := by
      intro number k hmk hsk hck huse hnumk hokk
      have hmk' := hm₁.trans hmk
      have hfill : ∀ w ∈ v :: rest, Filled s k w :=
        fun w hw => (hfilled w hw).appends hs hmk'.toAppends
      obtain ⟨hm', hcount', huses⟩ := ih number k hsk hck (hmk'.valid.trans hvalid)
        (fun w hw => hfill w (List.mem_cons_of_mem v hw)) hnumk hokk
      refine ⟨hmk'.trans hm', hcount', List.forall_mem_cons.mpr ⟨?_, huses⟩⟩
      exact huse.marks hsk (hfill v List.mem_cons_self) hm'
    cases c? with
    | none =>
      refine hgo number g₁ (.refl g₁) hev.settled hcount₁ ?_
        (fun u hu => hm₁.numbers i u (hnum u hu)) hok
      intro a n c ha
      rcases contentFor_cases h₁ with ⟨-, h₂⟩ | ⟨_, _, _, hsome, -⟩
      · rcases nodeFor_ok h₂ with ⟨-, -, hnone⟩ | ⟨_, -, -, -, hsome⟩
        · cases ha.symm.trans (hnone hvalid)
        · cases hsome
      · cases hsome
    | some c =>
      obtain ⟨hlive, a, n, ha, hat, hcn⟩ := hc c rfl
      -- once its content is used the value is
      have huses : ∀ {k : Graph}, Marks g₁ k → UsedBy k i c → Uses s k i v := by
        intro k hmk huse a' n' c' ha' hat' hc'
        cases ha.symm.trans ha'
        cases hat'.unique (hmk.at_old _ _ hat)
        rw [hmk.sameEdges.content? hev.settled.forest, hcn] at hc'
        cases hc'
        exact huse
      cases number with
      | none =>
        obtain ⟨hm₂, hcount₂, huse, hnum₂⟩ := addUsePoint_spec (i := i) hev.settled hcount₁ hlive
        have hd := addUsePoint_deepens (P := anything) hev.settled c i
        exact hgo _ _ hm₂ hd.settled hcount₂ (huses hm₂ huse) hnum₂ hok
      | some u =>
        have hi := hm₁.numbers i u (hnum u rfl)
        have hm₂ := addUsePoints_marks hev.settled c ⟨[u]⟩
        have hd := addUsePoints_deepens (P := anything) hev.settled c ⟨[u]⟩
        refine hgo (some u) _ hm₂ hd.settled ?_ (huses hm₂ (.inr ⟨u, hi, ?_⟩)) ?_ hok
        · refine hcount₁.addUsePoints (List.pairwise_singleton _ _) (fun j hj => ?_) c
          rw [List.mem_singleton.mp hj]
          exact hcount₁.numbers i u hi
        · rw [node_modify_self hlive.1]
          exact UsePointSet.mem_union.mpr (.inr (List.mem_singleton.mpr rfl))
        · rintro _ ⟨⟩
          exact hi

/-- If the instruction is a call or a release, all its operands have the property. -/
def ForOperands (s : Scope) (i : InstId) (p : ValueId → Prop) : Prop :=
  ∀ inst, s.func.inst i = .ok inst → (inst.op.isRelease || inst.op.isCall) = true →
    ∀ v ∈ inst.op.operands, p v

theorem ForOperands.mono {p q : ValueId → Prop} (h : ForOperands s i p) (hpq : ∀ v, p v → q v) :
    ForOperands s i q :=
  fun inst hi hop v hv => hpq v (h inst hi hop v hv)

/-- Working out use points asks for the contents of the operands. -/
theorem useOperands_filled : ∀ (vs : List ValueId) (number : Option Nat) (g : Graph), Settled g →
    g.valid = true → useOperands s i vs number g = .ok g' → ∀ v ∈ vs, Filled s g' v := by
  intro vs
  induction vs with
  | nil => exact fun _ _ _ _ _ => nofun
  | cons v rest ih =>
    intro number g hs hvalid hok
    obtain ⟨⟨g₁, c?⟩, h₁, hok⟩ := bind_ok.mp hok
    have hd₁ := contentFor_deepens (roots_anything s) hs h₁
    have hv := contentFor_filled hs hvalid h₁
    have hgo {number : Option Nat} {k : Graph} (hd : Deepens anything g₁ k)
        (hok : useOperands s i rest number k = .ok g') : ∀ w ∈ v :: rest, Filled s g' w := by
      have hd' := useOperands_deepens (roots_anything s) rest number k hd.settled hok
      refine List.forall_mem_cons.mpr ⟨hv.appends hd₁.settled (hd.trans hd').toAppends, ?_⟩
      exact ih number k hd.settled ((hd₁.trans hd).valid.trans hvalid) hok
    cases c? with
    | none => exact hgo (.refl hd₁.settled) hok
    | some c =>
      cases number with
      | none => exact hgo (addUsePoint_deepens hd₁.settled c i) hok
      | some u => exact hgo (addUsePoints_deepens hd₁.settled c ⟨[u]⟩) hok

theorem useInst_filled (hs : Settled g) (hvalid : g.valid = true) (hok : useInst s g i = .ok g') :
    ForOperands s i (Filled s g') := by
  intro inst hinst hop
  obtain ⟨inst', hinst', hok⟩ := bind_ok.mp hok
  cases hinst.symm.trans hinst'
  rw [if_pos hop] at hok
  exact useOperands_filled _ _ g hs hvalid hok

theorem useInst_spec (hs : Settled g) (hcount : Counted g) (hvalid : g.valid = true)
    (hfilled : ForOperands s i (Filled s g)) (hok : useInst s g i = .ok g') :
    Marks g g' ∧ Counted g' ∧ ForOperands s i (Uses s g' i) := by
  obtain ⟨inst, hi, hok⟩ := bind_ok.mp hok
  dsimp only at hok
  split at hok
  · rename_i hop
    obtain ⟨hm, hcount', huses⟩ :=
      useOperands_spec _ none g hs hcount hvalid (hfilled inst hi hop) nofun hok
    refine ⟨hm, hcount', fun inst' hi' _ => ?_⟩
    cases hi.symm.trans hi'
    exact huses
  · rename_i hop
    cases hok
    refine ⟨.refl _, hcount, fun inst' hi' hop' => ?_⟩
    cases hi.symm.trans hi'
    exact absurd hop' hop

/-- **All instructions.** Each call and release is a use point of what its operands point to. -/
theorem useInsts_spec {insts : List InstId} (hs : Settled g) (hcount : Counted g)
    (hvalid : g.valid = true) (hfilled : ∀ i ∈ insts, ForOperands s i (Filled s g))
    (hok : insts.foldlM (useInst s) g = .ok g') : Settled g' ∧ Marks g g' ∧ Counted g' ∧
    ∀ i ∈ insts, ForOperands s i (Uses s g' i) := by
  refine foldlM_of_ok (P := fun done k => Settled k ∧ Marks g k ∧ Counted k ∧
    ∀ i ∈ done, ForOperands s i (Uses s k i)) ?_ ⟨hs, .refl g, hcount, nofun⟩ hok
  rintro done i rest k k' hl ⟨hsk, hmk, hck, hdone⟩ hstep
  have hfill : ∀ j ∈ insts, ForOperands s j (Filled s k) := fun j hj =>
    (hfilled j hj).mono fun v hv => hv.appends hs hmk.toAppends
  obtain ⟨hm, hc, huses⟩ := useInst_spec hsk hck (hmk.valid.trans hvalid)
    (hfill i (by rw [hl]; simp)) hstep
  refine ⟨(useInst_deepens (roots_anything s) hsk hstep).settled, hmk.trans hm, hc, fun j hj => ?_⟩
  rcases List.mem_append.mp hj with hj | hj
  · intro inst hi hop v hv
    exact (hdone j hj inst hi hop v hv).marks hsk
      (hfill j (by rw [hl]; simp [hj]) inst hi hop v hv) hm
  · cases List.mem_singleton.mp hj
    exact huses

/-! ### Pushing use points -/

/-- The use points of a live node are use points of what it points to. -/
def Covered (g : Graph) : Prop :=
  ∀ n, (g.node n).merged = false → ∀ c, g.content? n = some c →
    ∀ u ∈ (g.node n).usePoints.bits, u ∈ (g.node c).usePoints.bits

/-- A graph between two pushes of use points. -/
structure Pushes (g h : Graph) : Prop extends Marks g h where
  settled : Settled h
  counted : Counted h
  users : h.users = g.users

theorem Pushes.push {h : Graph} (hh : Pushes g h) (n c : NodeId) :
    Pushes g (h.modify c (·.addUsePoints (h.node n).usePoints)) where
  toMarks := hh.toMarks.trans (addUsePoints_marks hh.settled c _)
  settled := (addUsePoints_deepens (P := anything) hh.settled c _).settled
  counted := hh.counted.addUsePoints (hh.counted.sorted n) (fun u hu => hh.counted.bits n u hu) c
  users := hh.users

theorem Pushes.step {acc : Graph × Bool} (hh : Pushes g acc.1) (n : NodeId) :
    Pushes g (pushUsePoints acc n).1 := by
  rcases pushUsePoints_cases acc n with ⟨e, -⟩ | ⟨c, hc, e⟩
  · rw [e]
    exact hh
  · rw [e]
    exact hh.push n c

/-- Pushing use points reports no change only if they are covered. -/
theorem pushUsePoints_unreported {acc : Graph × Bool} (h : (pushUsePoints acc n).2 = false) :
    pushUsePoints acc n = acc ∧ acc.2 = false ∧
    ((acc.1.node n).merged = false → ∀ c, acc.1.content? n = some c →
      ∀ u ∈ (acc.1.node n).usePoints.bits, u ∈ (acc.1.node c).usePoints.bits) := by
  rcases pushUsePoints_cases acc n with ⟨e, hself⟩ | ⟨c, hc, e⟩
  · rw [e] at h ⊢
    refine ⟨rfl, h, fun hn c hc u hu => ?_⟩
    rwa [hself hn c hc]
  · rw [e] at h
    obtain ⟨hacc, hgrown⟩ := Bool.or_eq_false_iff.mp h
    obtain ⟨hunion, hsub⟩ := UsePointSet.union_false hgrown
    refine ⟨?_, hacc, fun _ d hd => ?_⟩
    · rw [e, modify_eq_self (by rw [Node.addUsePoints, hunion]), hgrown, Bool.or_false]
    · cases hd.symm.trans hc
      exact hsub

/-- A change that is reported is a use point that is new to a node. -/
theorem Pushes.gains {acc : Graph × Bool} (hh : Pushes g acc.1) (n : NodeId) :
    Gains useCount acc (pushUsePoints acc n) := by
  have hstep := Pushes.step (g := acc.1) ⟨.refl _, hh.settled, hh.counted, rfl⟩ n
  have hle := hh.counted.useCount_le hstep.toMarks
  refine ⟨total_le_total hstep.size hle, fun hflag => ?_⟩
  rcases pushUsePoints_cases acc n with ⟨e, -⟩ | ⟨c, hc, e⟩
  · rw [e] at hflag
    exact .inl hflag
  · have hhas := (hh.settled.live_content hc).1
    rw [e] at hflag
    refine (Bool.or_eq_true_iff.mp hflag).imp_right fun hgrown => total_lt hstep.size hle hhas ?_
    rw [e, node_modify_self hhas]
    exact UsePointSet.union_true hgrown

/-- Each sweep but the last adds a use point to a node. -/
theorem propagateUsePoints_covered (bound : Nat) (h : Graph) (hs : Settled h) (hcount : Counted h)
    (hb : h.size * h.users.size < bound + total useCount h) :
    Covered (propagateUsePoints bound h) := by
  induction bound generalizing h with
  | zero =>
    -- Each node would have all use points, and still more were counted.
    have := total_le (g := h) (w := useCount) fun n => (hcount.sorted n).length_le (hcount.bits n)
    omega
  | succ bound ih =>
    cases hc : (h.nodeIds.foldl pushUsePoints (h, false)).2 with
    | false =>
      obtain ⟨hfold, -, hcov⟩ := foldl_unreported (Q := fun g n => (g.node n).merged = false → ∀ c,
        g.content? n = some c → ∀ u ∈ (g.node n).usePoints.bits, u ∈ (g.node c).usePoints.bits)
        (fun _ _ => pushUsePoints_unreported) hc
      have hres : propagateUsePoints (bound + 1) h = h := by
        rw [propagateUsePoints, hfold]
        rfl
      rw [hres]
      exact fun n hn c hcn => hcov n (mem_nodeIds.mpr (has_of_content? hcn)) hn c hcn
    | true =>
      have hres : propagateUsePoints (bound + 1) h =
          propagateUsePoints bound (h.nodeIds.foldl pushUsePoints (h, false)).1 := by
        rw [propagateUsePoints]
        exact if_pos hc
      obtain ⟨hp, hgains⟩ := List.foldlRecOn (motive := fun a : Graph × Bool => Pushes h a.1 ∧
        Gains useCount (h, false) a) h.nodeIds pushUsePoints ⟨⟨.refl _, hs, hcount, rfl⟩, .refl _ _⟩
          fun a ⟨hp, hg⟩ n _ => ⟨hp.step n, hg.trans (hp.gains n)⟩
      -- A sweep that reports a change has added a use point.
      have hlt : total useCount h < _ := (hgains.lt hc).resolve_left Bool.false_ne_true
      rw [hres]
      refine ih _ hp.settled hp.counted ?_
      rw [hp.size, hp.users]
      omega

end Graph

end Escape
