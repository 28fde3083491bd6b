import Escape.Analysis.Summary
import Escape.Proofs.Analysis.Complete
import Escape.Proofs.Analysis.Effects
import Escape.Proofs.Graph.Monotone

/-!
# Summaries and calls

A summary says of the parameters of a function what its full graph says about them: which of them
escape globally, and which of them may be returned. Splicing it in at a call makes the graph of the
caller say so of the values that the call passes.

- `Graph.summarize_spec`, `Graph.spliceCall_spec`: deriving a summary, and splicing it in.
-/

namespace Escape

/-- Every pair of a map is in the relation. -/
def NodeMap.Within (M : NodeMap) (R : NodeId → NodeId → Prop) : Prop :=
  ∀ n k, M.pairs.find? n = some k → R n k

theorem NodeMap.Within.mono {M : NodeMap} {R R' : NodeId → NodeId → Prop} (h : M.Within R)
    (hR : ∀ n k, R n k → R' n k) : M.Within R' :=
  fun n k hnk => hR n k (h n k hnk)

/-- Adding a pair to a map that can hold no other one for the node. -/
theorem NodeMap.Within.add {M : NodeMap} {R : NodeId → NodeId → Prop} (h : M.Within R)
    {n k : NodeId} (hnk : R n k) (huniq : ∀ k', R n k' → k' = k) :
    (M.add n k).Within R ∧ (M.add n k).pairs.find? n = some k := by
  constructor
  · intro n' k' h'
    rw [NodeMap.find?_add] at h'
    split at h'
    · rename_i hc
      cases h'
      exact hc.1 ▸ hnk
    · exact h n' k' h'
  · rw [NodeMap.find?_add]
    cases hn : M.pairs.find? n with
    | none => simp
    | some k' =>
      rw [huniq k' (h n k' hn)]
      simp

namespace Graph

variable {s t : Scope} {g g' : Graph} {v w : ValueId} {i : InstId} {n m k : NodeId} {M M' : NodeMap}
  {p : Program} {full full' summary summary' : Graph} {changed : Bool}

/-! ### Graphs in the making -/

/-- A graph of the function of a scope, in which no use points were worked out. -/
structure Grown (s : Scope) (g : Graph) : Prop where
  settled : Settled g
  keyed : Keyed s.Defined s.Inner g
  returned : ∀ r, g.returnNode = some r → (g.node r).kind = .returned
  unused : Update.Unused g
  owner : g.owner = some s.id

namespace Grown

theorem builds (h : Grown s g) (hb : Builds s g g') : Grown s g' where
  settled := hb.settled
  keyed := hb.keyed h.keyed
  returned r hr := by
    rcases hb.returned r hr with hold | ⟨-, hnew⟩
    · rw [hb.kind r (h.settled.return_has r hold), h.returned r hold]
    · exact hnew
  unused := h.unused.header hb.header
  owner := (congrArg (·.1.1) hb.header :).trans h.owner

/-- A graph without nodes. -/
theorem of_empty {summary valid : Bool} : Grown s { owner := some s.id, summary, valid } where
  settled := settled_of_empty rfl (fun _ => rfl) rfl rfl
  keyed := nofun
  returned := nofun
  unused := ⟨rfl, rfl⟩
  owner := rfl

theorem invalidate (h : Grown s g) : Grown s g.invalidate := by
  have he : g.invalidate = { owner := some s.id, summary := g.summary, valid := false } := by
    rw [← h.owner]
    rfl
  rw [he]
  exact .of_empty

end Grown

/-- A parameter has the node that was made for it. -/
theorem Grown.names (h : Grown s g) (hv : s.isArgument v = .ok true) (hn : g.At v n) :
    g.Names n v := by
  rcases (h.keyed v n hn).2 with hinner | hnames
  · cases hv.symm.trans hinner
  · exact hnames

/-- No two parameters share a node. -/
theorem Grown.param_unique (h : Grown s g) (hv : s.isArgument v = .ok true)
    (hw : s.isArgument w = .ok true) (hnv : g.At v n) (hnw : g.At w n) : v = w :=
  Option.some.inj ((h.names hv hnv).2.symm.trans (h.names hw hnw).2)

/-- No parameter shares the node of the returned value. -/
theorem Grown.param_ne_return (h : Grown s g) (hv : s.isArgument v = .ok true) (hn : g.At v n) :
    g.returnNode ≠ some n := by
  intro hr
  have hkind := h.returned n hr
  rcases (h.names hv hn).1 with hk | hk <;> rw [hk] at hkind <;> cases hkind

/-! ### Entering values of two graphs at once -/

/-- From `g` to `g'` nodes without edges were added, and values may have got one of them. -/
structure Enters (s : Scope) (g g' : Graph) : Prop where
  builds : Builds s g g'
  admits : Admits g g'
  appends : Appends g g'

namespace Enters

theorem refl (hs : Settled g) : Enters s g g := ⟨.refl hs, .refl g, .refl g⟩

theorem trans {g'' : Graph} (h : Enters s g g') (h' : Enters s g' g'') : Enters s g g'' :=
  ⟨h.builds.trans h'.builds, h.admits.trans h'.admits, h.appends.trans h'.appends⟩

theorem nodeFor (hs : Settled g) {n? : Option NodeId} (hok : g.nodeFor s v = .ok (g', n?)) :
    Enters s g g' :=
  ⟨(nodeFor_builds hs hok).1, nodeFor_admits hs hok, nodeFor_appends hs hok⟩

end Enters

/-- Values get nodes, one after the other. -/
abbrev Seats (s : Scope) : Graph → Graph → Prop :=
  ReflTransGen fun g g' => ∃ v n?, g.nodeFor s v = .ok (g', n?)

theorem Enters.of_seats (hs : Settled g) (h : Seats s g g') : Enters s g g' := by
  induction h with
  | refl => exact .refl hs
  | tail _ hstep ih =>
    obtain ⟨v, n?, hok⟩ := hstep
    exact ih.trans (.nodeFor ih.builds.settled hok)

theorem pairParams_seats (vs : List ValueId) (full summary : Graph) (M : NodeMap)
    {full' summary' : Graph} {M' : NodeMap}
    (hok : pairParams s vs full summary M = .ok (full', summary', M')) : Seats s full full' ∧
    Seats s summary summary' := by
  induction vs generalizing full summary M full' summary' M' with
  | nil =>
    cases hok
    exact ⟨.refl, .refl⟩
  | cons v vs ih =>
    obtain ⟨⟨full₁, n?⟩, h₁, hok⟩ := bind_ok.mp hok
    cases n? with
    | none => exact (ih _ _ _ hok).imp_left (.head ⟨v, _, h₁⟩)
    | some n =>
      obtain ⟨⟨summary₁, k?⟩, h₂, hok⟩ := bind_ok.mp hok
      cases k? with
      | none => exact (ih _ _ _ hok).imp (.head ⟨v, _, h₁⟩) (.head ⟨v, _, h₂⟩)
      | some k => exact (ih _ _ _ hok).imp (.head ⟨v, _, h₁⟩) (.head ⟨v, _, h₂⟩)

theorem pairArgs_seats (pairs : List (ValueId × Option ValueId)) (summary g : Graph) (M : NodeMap)
    {summary' g' : Graph} {M' : NodeMap}
    (hok : pairArgs t s pairs summary g M = .ok (summary', g', M')) :
    Seats t summary summary' ∧ Seats s g g' := by
  induction pairs generalizing summary g M summary' g' M' with
  | nil =>
    cases hok
    exact ⟨.refl, .refl⟩
  | cons pair pairs ih =>
    obtain ⟨param, arg⟩ := pair
    obtain ⟨⟨summary₁, n?⟩, h₁, hok⟩ := bind_ok.mp hok
    cases n? with
    | none => exact (ih _ _ _ hok).imp_left (.head ⟨param, _, h₁⟩)
    | some n =>
      cases arg with
      | none => exact (ih _ _ _ hok).imp_left (.head ⟨param, _, h₁⟩)
      | some x =>
        obtain ⟨⟨g₁, k?⟩, h₂, hok⟩ := bind_ok.mp hok
        cases k? with
        | none => exact (ih _ _ _ hok).imp (.head ⟨param, _, h₁⟩) (.head ⟨x, _, h₂⟩)
        | some k => exact (ih _ _ _ hok).imp (.head ⟨param, _, h₁⟩) (.head ⟨x, _, h₂⟩)

/-- What pairing the result of a call does: nothing, or the result gets a node, whatever the summary
is. -/
theorem pairResult_cases (hok : pairResult s i summary g M = .ok (g', M')) :
    (g' = g ∧ M' = M ∧ (summary.returnNode = none ∨ s.func.result? i = .ok none)) ∨
      ∃ r v k?, summary.returnNode = some r ∧ s.func.result? i = .ok (some v) ∧
      g.nodeFor s v = .ok (g', k?) ∧
        M' = k?.elim M (M.add r) := by
  unfold pairResult at hok
  cases hr : summary.returnNode with
  | none =>
    simp only [hr] at hok
    cases hok
    exact .inl ⟨rfl, rfl, .inl rfl⟩
  | some r =>
    simp only [hr] at hok
    obtain ⟨v?, hv, hok⟩ := bind_ok.mp hok
    cases v? with
    | none =>
      cases hok
      exact .inl ⟨rfl, rfl, .inr hv⟩
    | some v =>
      obtain ⟨⟨g₁, k?⟩, h₁, hok⟩ := bind_ok.mp hok
      cases k? with
      | none =>
        cases hok
        exact .inr ⟨r, v, none, rfl, hv, h₁, rfl⟩
      | some k =>
        cases hok
        exact .inr ⟨r, v, some k, rfl, hv, h₁, rfl⟩

theorem pairResult_seats (hok : pairResult s i summary g M = .ok (g', M')) : Seats s g g' := by
  rcases pairResult_cases hok with ⟨rfl, -⟩ | ⟨r, v, k?, -, -, hn, -⟩
  · exact .refl
  · exact .single ⟨v, k?, hn⟩

/-- What asking for the node of a value answers. -/
theorem nodeFor_at (hs : Settled g) (hv : g.valid = true) {n? : Option NodeId}
    (hok : g.nodeFor s v = .ok (g', n?)) :
    n? = none ∧ s.anchor? v = .ok none ∨ ∃ n a, n? = some n ∧ s.anchor? v = .ok (some a) ∧
    g'.At a.root n := by
  obtain ⟨-, hat⟩ := nodeFor_evolves (P := s.Defined) (B := s.Inner) (roots_defined s) hs hok
  cases n? with
  | none =>
    rcases nodeFor_ok hok with ⟨-, -, hnone⟩ | ⟨_, -, -, -, h⟩
    · exact .inl ⟨rfl, hnone hv⟩
    · cases h
  | some n =>
    obtain ⟨-, a, ha, hn⟩ := hat n rfl
    exact .inr ⟨n, a, rfl, ha, hn⟩

/-! ### Deriving a summary -/

/-- The two nodes belong to one parameter, in a full graph and in a summary. -/
def SameParam (s : Scope) (full summary : Graph) (n k : NodeId) : Prop :=
  ∃ w, s.isArgument w = .ok true ∧ full.At w n ∧ summary.At w k

theorem SameParam.enters (h : SameParam s full summary n k) (hf : Enters s full full')
    (hs : Enters s summary summary') : SameParam s full' summary' n k := by
  obtain ⟨w, hw, hn, hk⟩ := h
  exact ⟨w, hw, hf.admits.at_old w n hn, hs.admits.at_old w k hk⟩

/-- The root of a parameter is the parameter. -/
theorem anchor?_root {a : Scope.Anchor} (ha : s.anchor? v = .ok (some a)) (hv : s.root v = .ok v) :
    a.root = v := by
  obtain ⟨-, -, hr, -⟩ := Scope.anchor?_ok ha
  cases hr.symm.trans hv
  rfl

/-- The nodes of all parameters are paired. -/
theorem pairParams_spec (vs : List ValueId) (full summary : Graph) (M : NodeMap)
    {full' summary' : Graph} {M' : NodeMap} (hfull : Grown s full) (hsummary : Grown s summary)
    (hvf : full.valid = true) (hvs : summary.valid = true)
    (hparams : (∀ v ∈ vs, s.isArgument v = .ok true ∧ s.root v = .ok v))
    (hM : M.Within (SameParam s full summary))
    (hok : pairParams s vs full summary M = .ok (full', summary', M')) : Enters s full full' ∧
    Enters s summary summary' ∧ M.Grows M' ∧ M'.Within (SameParam s full' summary') ∧
    ∀ v ∈ vs, ∀ a, s.anchor? v = .ok (some a) → ∃ n k, full'.At v n ∧ summary'.At v k ∧
    M'.pairs.find? n = some k := by
  induction vs generalizing full summary M full' summary' M' with
  | nil =>
    cases hok
    exact ⟨.refl hfull.settled, .refl hsummary.settled, .refl M, hM, nofun⟩
  | cons v vs ih =>
    obtain ⟨⟨harg, hroot⟩, hrest⟩ := List.forall_mem_cons.mp hparams
    obtain ⟨⟨full₁, n?⟩, h₁, hok⟩ := bind_ok.mp hok
    have hen₁ := Enters.nodeFor hfull.settled h₁
    have hfull₁ := hfull.builds hen₁.builds
    have hvf₁ : full₁.valid = true := hen₁.builds.valid.trans hvf
    rcases nodeFor_at hfull.settled hvf h₁ with ⟨rfl, hnone⟩ | ⟨n, a, rfl, ha, hn⟩
    · obtain ⟨he, he', hgrows, hM', hpaired⟩ := ih full₁ summary M hfull₁ hsummary hvf₁ hvs hrest
        (hM.mono fun n k h => h.enters hen₁ (.refl hsummary.settled)) hok
      refine ⟨hen₁.trans he, he', hgrows, hM', List.forall_mem_cons.mpr ⟨fun a ha => ?_, hpaired⟩⟩
      cases hnone.symm.trans ha
    · obtain ⟨⟨summary₁, k?⟩, h₂, hok⟩ := bind_ok.mp hok
      have hen₂ := Enters.nodeFor hsummary.settled h₂
      have hsummary₁ := hsummary.builds hen₂.builds
      have hvs₁ : summary₁.valid = true := hen₂.builds.valid.trans hvs
      rcases nodeFor_at hsummary.settled hvs h₂ with ⟨-, hnone⟩ | ⟨k, a', rfl, ha', hk⟩
      · cases ha.symm.trans hnone
      · rw [anchor?_root ha hroot] at hn
        rw [anchor?_root ha' hroot] at hk
        -- another parameter at this node would be the same one, so the pair is the only one for it
        have hadd := (hM.mono fun n k h => h.enters hen₁ hen₂).add ⟨v, harg, hn, hk⟩
          fun k' ⟨w, hw, hnw, hkw⟩ => by
          rw [hfull₁.param_unique hw harg hnw hn] at hkw
          exact hkw.unique hk
        obtain ⟨he, he', hgrows, hM', hpaired⟩ :=
          ih full₁ summary₁ (M.add n k) hfull₁ hsummary₁ hvf₁ hvs₁
          hrest hadd.1 hok
        refine ⟨hen₁.trans he, hen₂.trans he', (NodeMap.grows_add M n k).trans hgrows, hM',
          List.forall_mem_cons.mpr ⟨fun a ha => ?_, hpaired⟩⟩
        exact ⟨n, k, he.admits.at_old v n hn, he'.admits.at_old v k hk, hgrows.find? hadd.2⟩

/-- The summary covers the full graph: what the full graph says about parameters, it says as well.
-/
structure Covers (s : Scope) (full summary : Graph) : Prop where
  valid : summary.valid = true
  params : ∀ args, s.func.arguments = .ok args → ∀ v ∈ args, ∀ a, s.anchor? v = .ok (some a) →
    ∃ n k, full.At v n ∧ summary.At v k ∧
      ((full.node n).state = .globalEscaping → (summary.node k).state = .globalEscaping) ∧
      ∀ r, full.returnNode = some r → ReflTransGen full.Defers r n →
        ∃ r', summary.returnNode = some r' ∧ summary.Tied r' k

theorem Tied.representative_right (hs : Settled g) (h : g.Tied n m) :
    g.Tied n (g.representative m) := by
  rw [Tied, hs.forest.representative_representative]
  exact h

theorem Tied.representative_left (hs : Settled g) (h : g.Tied n m) :
    g.Tied (g.representative n) m := by
  rw [Tied, hs.forest.representative_representative]
  exact h

/-- The returned value reaches what it is tied to. -/
theorem Grown.reach_of_tied (h : Grown s g) {r : NodeId} (hr : g.returnNode = some r)
    (hn : g.At v n) (ht : g.Tied r n) : ReflTransGen g.Defers r n := by
  have hcontent : (g.node r).isContent = false := by
    rw [Node.isContent, h.returned r hr]
    rfl
  rw [Tied, h.settled.representative_of_not_content hcontent,
    h.settled.representative_of_live (hn.live h.settled).2] at ht
  rcases ht with rfl | hd
  · exact .refl
  · exact .single hd

/-- Nodes and contents that are added to the full graph are no concern of its summary. -/
theorem Covers.appends (h : Covers s full summary) (hs : Settled full) (ha : Appends full full') :
    Covers s full' summary := by
  refine ⟨h.valid, fun args hargs v hv a hanchor => ?_⟩
  obtain ⟨n, k, hn, hk, hglobal, hret⟩ := h.params args hargs v hv a hanchor
  refine ⟨n, k, ha.at_old v n hn, hk, fun hg => hglobal ?_, fun r hr hreach => hret r ?_ ?_⟩
  · rw [← ha.state n (hn.live hs).1]
    exact hg
  · rw [← ha.returnNode]
    exact hr
  · refine Relation.ReflTransGen.mono (fun a b hab => ?_) _ _ hreach
    rw [Defers, ← ha.defersTo]
    exact hab

/-- A summary that says more covers at least as much. -/
theorem Covers.follows (h : Covers s full summary) (hs : Settled summary) (hs' : Settled summary')
    (hf : Follows summary summary') : Covers s full summary' := by
  refine ⟨hf.valid.trans h.valid, fun args hargs v hv a hanchor => ?_⟩
  obtain ⟨n, k, hn, hk, hglobal, hret⟩ := h.params args hargs v hv a hanchor
  refine ⟨n, _, hn, hf.values v k hk, fun hg => hf.isGlobal ?_, fun r hr hreach => ?_⟩
  · rw [hs.representative_of_live (hk.live hs).2]
    exact hglobal hg
  · obtain ⟨r', hr', htied⟩ := hret r hr hreach
    exact ⟨r', hf.returnNode r' hr', (hf.tied r' k htied).representative_right hs'⟩

/-- Pairs the nodes of the returned value, if the full graph has one. -/
def pairReturn (full summary : Graph) (M : NodeMap) : Graph × NodeMap :=
  match full.returnNode with
  | some r => (summary.ensureReturn.1, M.add r summary.ensureReturn.2)
  | none => (summary, M)

theorem pairReturn_spec (full : Graph) (hs : Settled summary) :
    Builds s summary (pairReturn full summary M).1 ∧ Admits summary (pairReturn full summary M).1 ∧
      M.Grows (pairReturn full summary M).2 ∧ ∀ r, full.returnNode = some r →
      M.pairs.find? r = none →
        ∃ k, (pairReturn full summary M).1.returnNode = some k ∧
          (pairReturn full summary M).2.pairs.find? r = some k := by
  unfold pairReturn
  cases hr : full.returnNode with
  | none => exact ⟨.refl hs, .refl _, .refl M, nofun⟩
  | some r =>
    obtain ⟨hev, hret⟩ := ensureReturn_evolves (P := s.Defined) (B := s.Inner) hs
    refine ⟨hev, ensureReturn_admits hs, NodeMap.grows_add M r _, fun r' hr' hnone => ⟨_, hret, ?_⟩⟩
    cases hr'
    rw [NodeMap.find?_add, if_pos ⟨rfl, hnone⟩]

/-- The parts of deriving a summary. -/
theorem summarize_ok (hscope : Scope.of? p s.id = some s) (howner : full.owner = some s.id)
    (hv : full.valid = true) (hok : summarize p summary full = .ok (summary', full', changed)) :
    ∃ args summary₁ M M', s.func.arguments = .ok args ∧
      pairParams s args full summary {} = .ok (full', summary₁, M) ∧
      (pairReturn full' summary₁ M).1.splice full' (pairReturn full' summary₁ M).2 =
        .ok (summary', M', changed) := by
  have howned : full.owner.bind (Scope.of? p) = some s := by
    rw [howner]
    exact hscope
  unfold summarize at hok
  simp only [hv, howned, Bool.not_true, Bool.false_eq_true, if_false] at hok
  obtain ⟨args, hargs, hok⟩ := bind_ok.mp hok
  obtain ⟨⟨full₁, summary₁, M⟩, hpairs, hok⟩ := bind_ok.mp hok
  have hsplice : ∃ M', (pairReturn full₁ summary₁ M).1.splice full₁
    (pairReturn full₁ summary₁ M).2 =
      .ok (summary', M', changed) ∧ full₁ = full' := by
    unfold pairReturn
    cases hr : full₁.returnNode with
    | none =>
      simp only [hr] at hok
      obtain ⟨⟨S, M', c⟩, hsplice, hok⟩ := bind_ok.mp hok
      cases hok
      exact ⟨M', hsplice, rfl⟩
    | some r =>
      simp only [hr] at hok
      obtain ⟨⟨S, M', c⟩, hsplice, hok⟩ := bind_ok.mp hok
      cases hok
      exact ⟨M', hsplice, rfl⟩
  obtain ⟨M', hsplice, rfl⟩ := hsplice
  exact ⟨args, summary₁, M, M', hargs, hpairs, hsplice⟩

/-- **Deriving a summary** of a valid graph. -/
theorem summarize_spec (hfunc : s.func.Sound) (hscope : Scope.of? p s.id = some s)
    (hfull : Grown s full) (hsummary : Grown s summary) (hv : full.valid = true)
    (hvs : summary.valid = true) (hok : summarize p summary full = .ok (summary', full', changed)) :
    Enters s full full' ∧ Builds s summary summary' ∧ (changed = false → Admits summary summary') ∧
      Covers s full' summary' := by
  obtain ⟨args, summary₁, M, M', hargs, hpairs, hsplice⟩ := summarize_ok hscope hfull.owner hv hok
  have hparams : ∀ v ∈ args, s.isArgument v = .ok true ∧ s.root v = .ok v := fun v hmem => by
    obtain ⟨-, harg, hroot, -⟩ := Scope.argument_spec hfunc hargs hmem
    exact ⟨harg, hroot⟩
  obtain ⟨hen, hen₁, -, hwithin, hpaired⟩ :=
    pairParams_spec args full summary {} hfull hsummary hv hvs hparams nofun hpairs
  obtain ⟨hb₂, had₂, hgrows, hreturn⟩ := pairReturn_spec (s := s) (M := M) full' hen₁.builds.settled
  obtain ⟨hb₃, hsame, hglobal, htied⟩ :=
    splice_spec (P := s.Defined) (B := s.Inner) hb₂.settled hsplice
  have hfull' := hfull.builds hen.builds
  refine ⟨hen, (hen₁.builds.trans hb₂).trans hb₃, fun hc => ?_, ?_, ?_⟩
  · rw [hsame hc]
    exact hen₁.admits.trans had₂
  · exact ((hen₁.builds.trans hb₂).trans hb₃).valid.trans hvs
  · intro args' hargs' v hmem a ha
    cases hargs.symm.trans hargs'
    obtain ⟨n, k, hn, hk, hnk⟩ := hpaired v hmem a ha
    have hnk := hgrows.find? hnk
    refine ⟨n, _, hn, (hb₂.trans hb₃).values v k hk, hglobal n k hnk, fun r hr hreach => ?_⟩
    -- the node of the returned value is paired, since no parameter is there
    have hfree : M.pairs.find? r = none := by
      refine Option.eq_none_iff_forall_not_mem.mpr fun k' hk' => ?_
      obtain ⟨w, hw, hnw, -⟩ := hwithin r k' hk'
      exact hfull'.param_ne_return hw hnw hr
    obtain ⟨r', hr', hrr⟩ := hreturn r hr hfree
    have hrk := htied hen.builds.settled.toShape r r' n k hrr hnk hreach
    exact ⟨r', hb₃.returnNode r' hr', hrk.representative_right hb₃.settled⟩

/-! ### Splicing a summary in -/

/-- The two nodes belong to a parameter of the callee and to the value that a call binds to it. -/
def SameBinding (callee caller : Scope) (pairs : List (ValueId × Option ValueId))
    (summary g : Graph) (n k : NodeId) : Prop :=
  ∃ v x a, (v, some x) ∈ pairs ∧ callee.isArgument v = .ok true ∧ summary.At v n ∧
    caller.anchor? x = .ok (some a) ∧ g.At a.root k

theorem SameBinding.enters {pairs : List (ValueId × Option ValueId)}
    (h : SameBinding t s pairs summary g n k) (hs : Enters t summary summary')
    (hg : Enters s g g') : SameBinding t s pairs summary' g' n k := by
  obtain ⟨v, x, a, hmem, hv, hn, ha, hk⟩ := h
  exact ⟨v, x, a, hmem, hv, hs.admits.at_old v n hn, ha, hg.admits.at_old _ k hk⟩

/-- The nodes of all parameters are paired with the nodes of what the call binds to them. -/
theorem pairArgs_spec {all : List (ValueId × Option ValueId)}
    (hparams : ∀ e ∈ all, t.isArgument e.1 = .ok true ∧ t.root e.1 = .ok e.1)
    (hfun : ∀ v x y, (v, x) ∈ all → (v, y) ∈ all → x = y)
    (pairs : List (ValueId × Option ValueId)) (summary g : Graph) (M : NodeMap)
    {summary' g' : Graph} {M' : NodeMap} (hall : (∀ e ∈ pairs, e ∈ all))
    (hsummary : Grown t summary) (hg : Grown s g) (hvs : summary.valid = true)
    (hvg : g.valid = true) (hM : M.Within (SameBinding t s all summary g))
    (hok : pairArgs t s pairs summary g M = .ok (summary', g', M')) :
    Enters t summary summary' ∧ Enters s g g' ∧ M.Grows M' ∧
    M'.Within (SameBinding t s all summary' g') ∧ ∀ v x, (v, some x) ∈ pairs →
    ∀ a b, t.anchor? v = .ok (some a) → s.anchor? x = .ok (some b) → ∃ n k, summary'.At v n ∧
    g'.At b.root k ∧ M'.pairs.find? n = some k := by
  induction pairs generalizing summary g M summary' g' M' with
  | nil =>
    cases hok
    exact ⟨.refl hsummary.settled, .refl hg.settled, .refl M, hM, nofun⟩
  | cons e pairs ih =>
    obtain ⟨param, arg⟩ := e
    obtain ⟨hmem, hrest⟩ := List.forall_mem_cons.mp hall
    obtain ⟨harg, hroot⟩ := hparams _ hmem
    obtain ⟨⟨summary₁, n?⟩, h₁, hok⟩ := bind_ok.mp hok
    have hen₁ := Enters.nodeFor hsummary.settled h₁
    have hsummary₁ := hsummary.builds hen₁.builds
    have hvs₁ : summary₁.valid = true := hen₁.builds.valid.trans hvs
    have hM₁ := hM.mono fun n k h => h.enters hen₁ (.refl hg.settled)
    rcases nodeFor_at hsummary.settled hvs h₁ with ⟨rfl, hnone⟩ | ⟨n, a₀, rfl, ha₀, hn⟩
    · obtain ⟨he, he', hgrows, hM', hpaired⟩ := ih summary₁ g M hrest hsummary₁ hg hvs₁ hvg hM₁ hok
      refine ⟨hen₁.trans he, he', hgrows, hM', fun v x hvx a b ha hb => ?_⟩
      rcases List.mem_cons.mp hvx with heq | hvx
      · cases heq
        cases hnone.symm.trans ha
      · exact hpaired v x hvx a b ha hb
    · cases arg with
      | none =>
        obtain ⟨he, he', hgrows, hM', hpaired⟩ :=
          ih summary₁ g M hrest hsummary₁ hg hvs₁ hvg hM₁ hok
        refine ⟨hen₁.trans he, he', hgrows, hM', fun v x hvx a b ha hb => ?_⟩
        rcases List.mem_cons.mp hvx with heq | hvx
        · cases heq
        · exact hpaired v x hvx a b ha hb
      | some y =>
        obtain ⟨⟨g₁, k?⟩, h₂, hok⟩ := bind_ok.mp hok
        have hen₂ := Enters.nodeFor hg.settled h₂
        have hg₁ := hg.builds hen₂.builds
        have hvg₁ : g₁.valid = true := hen₂.builds.valid.trans hvg
        have hM₂ := hM.mono fun n k h => h.enters hen₁ hen₂
        rcases nodeFor_at hg.settled hvg h₂ with ⟨rfl, hnone⟩ | ⟨k, b₀, rfl, hb₀, hk⟩
        · obtain ⟨he, he', hgrows, hM', hpaired⟩ :=
            ih summary₁ g₁ M hrest hsummary₁ hg₁ hvs₁ hvg₁ hM₂ hok
          refine ⟨hen₁.trans he, hen₂.trans he', hgrows, hM', fun v x hvx a b ha hb => ?_⟩
          rcases List.mem_cons.mp hvx with heq | hvx
          · cases heq
            cases hnone.symm.trans hb
          · exact hpaired v x hvx a b ha hb
        · rw [anchor?_root ha₀ hroot] at hn
          -- another pair for this node would be one of the same parameter, which is bound once
          have hadd := hM₂.add ⟨param, y, b₀, hmem, harg, hn, hb₀, hk⟩
            fun k' ⟨v, x, b, hvx, hv, hnv, hb, hkb⟩ => by
              cases hsummary₁.param_unique hv harg hnv hn
              cases hfun _ _ _ hvx hmem
              cases hb.symm.trans hb₀
              exact hkb.unique hk
          obtain ⟨he, he', hgrows, hM', hpaired⟩ :=
            ih summary₁ g₁ (M.add n k) hrest hsummary₁ hg₁ hvs₁ hvg₁
            hadd.1 hok
          refine ⟨hen₁.trans he, hen₂.trans he', (NodeMap.grows_add M n k).trans hgrows, hM',
            fun v x hvx a b ha hb => ?_⟩
          rcases List.mem_cons.mp hvx with heq | hvx
          · cases heq
            cases hb.symm.trans hb₀
            exact ⟨n, k, he.admits.at_old _ n hn, he'.admits.at_old _ k hk, hgrows.find? hadd.2⟩
          · exact hpaired v x hvx a b ha hb

/-- The node of the returned value is paired with the node of the result of the call. -/
theorem pairResult_spec (hg : Settled g) (hv : g.valid = true)
    (hok : pairResult s i summary g M = .ok (g', M')) : Enters s g g' ∧ M.Grows M' ∧ ∀ r y b,
    summary.returnNode = some r → M.pairs.find? r = none →
      s.func.result? i = .ok (some y) → s.anchor? y = .ok (some b) →
        ∃ k, g'.At b.root k ∧ M'.pairs.find? r = some k := by
  rcases pairResult_cases hok with ⟨rfl, rfl, hnone⟩ | ⟨r, y, k?, hr, hy, hn, rfl⟩
  · refine ⟨.refl hg, .refl _, fun r y b hr _ hy => ?_⟩
    rcases hnone with hnone | hnone
    · cases hr.symm.trans hnone
    · cases hy.symm.trans hnone
  · have hen := Enters.nodeFor hg hn
    rcases nodeFor_at hg hv hn with ⟨rfl, hnone⟩ | ⟨k, b, rfl, hb, hk⟩
    · refine ⟨hen, .refl M, fun r' y' b _ _ hy' hb => ?_⟩
      cases hy.symm.trans hy'
      cases hnone.symm.trans hb
    · refine ⟨hen, NodeMap.grows_add M r k, fun r' y' b' hr' hfree hy' hb' => ?_⟩
      cases hr.symm.trans hr'
      cases hy.symm.trans hy'
      cases hb.symm.trans hb'
      exact ⟨k, hk, by rw [Option.elim_some, NodeMap.find?_add, if_pos ⟨rfl, hfree⟩]⟩

/-- The graph of the caller reflects the summary of the callee at a call: what the summary says
about parameters, the graph says about the values that are bound to them. -/
def Reflects (caller callee : Scope) (i : InstId) (g summary : Graph) : Prop :=
  ∀ inst args, caller.func.inst i = .ok inst → callee.func.arguments = .ok args →
    ∀ j v x a b, args[j]? = some v → boundTo inst.op j = some x → callee.anchor? v = .ok (some a) →
      caller.anchor? x = .ok (some b) → ∃ n k, summary.At v n ∧ g.At b.root k ∧
        ((summary.node n).state = .globalEscaping → (g.node k).state = .globalEscaping) ∧
        ∀ r y c, summary.returnNode = some r → summary.Tied r n →
        caller.func.result? i = .ok (some y) →
          caller.anchor? y = .ok (some c) → ∃ m, g.At c.root m ∧ g.Tied m k

/-- A graph that says more reflects at least as much. -/
theorem Reflects.follows (h : Reflects s t i g summary) (hs : Settled g) (hs' : Settled g')
    (hf : Follows g g') : Reflects s t i g' summary := by
  intro inst args hinst hargs j v x a b hv hx ha hb
  obtain ⟨n, k, hn, hk, hglobal, hret⟩ := h inst args hinst hargs j v x a b hv hx ha hb
  refine ⟨n, _, hn, hf.values _ k hk, fun hg => hf.isGlobal ?_, fun r y c hr ht hy hc => ?_⟩
  · rw [hs.representative_of_live (hk.live hs).2]
    exact hglobal hg
  · obtain ⟨m, hm, htied⟩ := hret r y c hr ht hy hc
    exact ⟨_, hf.values _ m hm,
      ((hf.tied m k htied).representative_left hs').representative_right hs'⟩

/-- New nodes without edges do not make the summary say more about its parameters. -/
theorem Reflects.admits (h : Reflects s t i g summary) (hs : Settled summary)
    (ha : Admits summary summary') : Reflects s t i g summary' := by
  intro inst args hinst hargs j v x a b hv hx hav hb
  obtain ⟨n, k, hn, hk, hglobal, hret⟩ := h inst args hinst hargs j v x a b hv hx hav hb
  have hlive := hn.live hs
  have hrep := ha.representative hs.forest
  refine ⟨n, k, ha.at_old v n hn, hk, fun hg => hglobal ?_, fun r y c hr htied hy hc => ?_⟩
  · rw [← ha.state n hlive.1]
    exact hg
  · have htied : summary.Tied r n := by
      rw [Tied, hrep, hrep, ha.toSameEdges.defers_iff] at htied
      exact htied
    rcases ha.return_new r hr with hold | hnew
    · exact hret r y c hold htied hy hc
    · -- a new node is tied to nothing that is old
      have hroot : summary.representative r = r := by
        rw [representative_of_root]
        rw [node_of_not_has hnew]
      rw [Tied, hroot, hs.representative_of_live hlive.2] at htied
      rcases htied with rfl | hd
      · exact absurd hlive.1 hnew
      · exact absurd hd.has hnew

/-- The graph of the caller accounts for the callee at a call: everything the call touches escapes,
or the graph reflects the summary. -/
def Accounted (caller callee : Scope) (i : InstId) (g summary : Graph) : Prop :=
  Escaped caller i g ∨ summary.valid = true ∧ Reflects caller callee i g summary

theorem Accounted.follows (h : Accounted s t i g summary) (hs : Settled g) (hs' : Settled g')
    (hf : Follows g g') : Accounted s t i g' summary :=
  h.imp (·.follows hs hf) fun ⟨hv, hr⟩ => ⟨hv, hr.follows hs hs' hf⟩

theorem Accounted.admits (h : Accounted s t i g summary) (hs : Settled summary)
    (ha : Admits summary summary') : Accounted s t i g summary' :=
  h.imp_right fun ⟨hv, hr⟩ => ⟨(congrArg (·.2.2) ha.label :).trans hv, hr.admits hs ha⟩

/-- A parameter is bound once. -/
theorem bound_unique (hfunc : s.func.Sound) {args : List ValueId}
    (hargs : s.func.arguments = .ok args) {f : Nat → Option ValueId} {x y : Option ValueId}
    (hx : (v, x) ∈ args.zipIdx.map fun (v, i) => (v, f i))
    (hy : (v, y) ∈ args.zipIdx.map fun (v, i) => (v, f i)) : x = y := by
  obtain ⟨⟨w, a⟩, ha, he⟩ := List.mem_map.mp hx
  obtain ⟨⟨w', b⟩, hb, he'⟩ := List.mem_map.mp hy
  cases he
  cases he'
  have ha := Scope.argument_index hfunc hargs (List.mk_mem_zipIdx_iff_getElem?.mp ha)
  have hb := Scope.argument_index hfunc hargs (List.mk_mem_zipIdx_iff_getElem?.mp hb)
  rw [← ha, ← hb]

/-- **Splicing a summary in.** The graph of the caller accounts for the callee afterwards; if no
change is reported, only values have entered it. -/
theorem spliceCall_spec {site : CallSite} {callee : FuncId} (hfunc : t.func.Sound)
    (hcaller : Scope.of? p site.caller = some s)
    (hcallee : Scope.of? p callee = some t) (hg : Grown s g) (hsummary : Grown t summary)
    (hok : g.spliceCall p site summary callee = .ok (g', summary', changed)) :
    Builds s g g' ∧ Enters t summary summary' ∧ (changed = false → Enters s g g') ∧
      (g.valid = true → Accounted s t site.site g' summary') := by
  unfold spliceCall at hok
  cases hvg : g.valid with
  | false =>
    simp only [hvg, Bool.not_false, if_true] at hok
    cases hok
    exact ⟨.refl hg.settled, .refl hsummary.settled, fun _ => .refl hg.settled, nofun⟩
  | true =>
    simp only [hvg, hcaller, hcallee, Bool.not_true, Bool.false_eq_true, if_false] at hok
    cases hvs : summary.valid with
    | false =>
      simp only [hvs, Bool.not_false, if_true] at hok
      -- Nothing is known of the callee: all that the call touches escapes.
      obtain ⟨g₁, h₁, hok⟩ := bind_ok.mp hok
      cases hok
      obtain ⟨hb, hescaped⟩ := escapeAll_spec hg.settled h₁
      exact ⟨hb, .refl hsummary.settled, nofun, fun _ => .inl (hescaped hvg)⟩
    | true =>
      simp only [hvs, Bool.not_true, Bool.false_eq_true, if_false] at hok
      obtain ⟨args, hargs, hok⟩ := bind_ok.mp hok
      obtain ⟨inst, hinst, hok⟩ := bind_ok.mp hok
      obtain ⟨⟨summary₁, g₁, M₁⟩, h₁, hok⟩ := bind_ok.mp hok
      obtain ⟨⟨g₂, M₂⟩, h₂, hok⟩ := bind_ok.mp hok
      obtain ⟨⟨g₃, M₃, c⟩, h₃, hok⟩ := bind_ok.mp hok
      cases hok
      have hparams : ∀ e ∈ args.zipIdx.map fun (v, i) => (v, boundTo inst.op i),
          t.isArgument e.1 = .ok true ∧ t.root e.1 = .ok e.1 := by
        intro e he
        obtain ⟨⟨v, j⟩, hv, rfl⟩ := List.mem_map.mp he
        obtain ⟨-, harg, hroot, -⟩ := Scope.argument_spec hfunc hargs
          (List.fst_mem_of_mem_zipIdx hv)
        exact ⟨harg, hroot⟩
      obtain ⟨hen₁, heng₁, -, hwithin, hpaired⟩ := pairArgs_spec hparams
        (fun _ _ _ => bound_unique hfunc hargs) _ summary g {} (fun _ h => h) hsummary
        hg hvs hvg nofun h₁
      obtain ⟨heng₂, hgrows, hresult⟩ :=
        pairResult_spec heng₁.builds.settled (heng₁.builds.valid.trans hvg) h₂
      have heng := heng₁.trans heng₂
      obtain ⟨hb₃, hsame, hglobal, htied⟩ :=
        splice_spec (P := s.Defined) (B := s.Inner) heng.builds.settled h₃
      have hsummary' := hsummary.builds hen₁.builds
      refine ⟨heng.builds.trans hb₃, hen₁, fun hc => ?_,
        fun _ => .inr ⟨hen₁.builds.valid.trans hvs, ?_⟩⟩
      · rw [hsame hc]
        exact heng
      · intro inst' args' hinst' hargs' j v x a b hv hx ha hb
        cases hinst.symm.trans hinst'
        cases hargs.symm.trans hargs'
        have hmem : (v, some x) ∈ args.zipIdx.map fun (v, i) => (v, boundTo inst.op i) :=
          List.mem_map.mpr ⟨(v, j), List.mk_mem_zipIdx_iff_getElem?.mpr hv, by rw [← hx]⟩
        obtain ⟨n, k, hn, hk, hnk⟩ := hpaired v x hmem a b ha hb
        have hnk := hgrows.find? hnk
        refine ⟨n, _, hn, (heng₂.builds.trans hb₃).values _ k hk, hglobal n k hnk,
          fun r y c hr ht hy hc => ?_⟩
        -- A parameter is never the node that is returned.
        have hfree : M₁.pairs.find? r = none := by
          refine Option.eq_none_iff_forall_not_mem.mpr fun k' hk' => ?_
          obtain ⟨w, _, _, -, hw, hnw, -, -⟩ := hwithin r k' hk'
          exact hsummary'.param_ne_return hw hnw hr
        obtain ⟨m, hm, hrm⟩ := hresult r y c hr hfree hy hc
        have hmk := htied hsummary'.settled.toShape r m n k hrm hnk
          (hsummary'.reach_of_tied hr hn ht)
        exact ⟨_, hb₃.values _ m hm,
          (hmk.representative_left hb₃.settled).representative_right hb₃.settled⟩

end Graph

end Escape
