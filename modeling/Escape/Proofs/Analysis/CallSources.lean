import Escape.Proofs.Analysis.Completed
import Escape.Proofs.Graph.Runs
import Escape.Proofs.Graph.Sources

/-!
# Carrying over a call from different graphs

What a callee does can be carried over to a caller from its summary, or from its full graph. Both
speak of its parameters, but the full graph holds more nodes, so the two splices merge different
nodes, in different directions. What comes out of the full graph is a model of what the summary
says, unless a content was lost on the way.

- `Graph.spliceCall_mono`: carrying over more of a callee leads to higher states.
- `Analysis.spliceCall_summary_le_graph`: **the full graph of a callee is at least as conservative
  as its summary**, as long as its splice loses no content, and the summary does not say more than
  it does. Neither can be left out: `Analysis.loaded_escapes_by_summary_only`,
  `Analysis.argument_escapes_by_lagging_summary`.
-/

namespace Escape

open Escape.Graph

variable {g g' source source' other : Graph} {s t : Scope} {v : ValueId} {i : InstId}
  {m m' : NodeMap}

/-! ### Pairing -/

/-- All nodes that a map leads to are there. -/
def NodeMap.Into (m : NodeMap) (g : Graph) : Prop := ∀ e ∈ m.pairs.entries, g.Has e.2

namespace Graph

theorem Enters.into (h : Enters s g g') (hm : m.Into g) : m.Into g' :=
  fun e he => h.admits.has (hm e he)

theorem Enters.keepsContents {h : Graph} {ψ : NodeId → NodeId} (he : Enters s g g') (hs : Settled g)
    (hk : KeepsContents g h ψ) : KeepsContents g' h ψ := by
  intro n y hy
  rw [he.admits.content? hs.forest] at hy
  exact hk n y hy

/-- A value and its node are paired with a node of the source. -/
theorem into_add_nodeFor {a k : NodeId} (hs : Settled g) (hm : m.Into g)
    (hok : g.nodeFor s v = .ok (g', some k)) : (m.add a k).Into g' := by
  intro e he
  rcases NodeMap.mem_add he with he | ⟨rfl, -⟩
  · exact (Enters.nodeFor hs hok).into hm e he
  · obtain ⟨-, hlive⟩ := nodeFor_evolves (roots_defined s) (B := s.Inner) hs hok
    exact (hlive k rfl).1.1

theorem pairArgs_into (pairs : List (ValueId × Option ValueId)) (source g : Graph) (m : NodeMap)
    {source' g' : Graph} {m' : NodeMap} (hg : Settled g) (hm : m.Into g)
    (hok : pairArgs t s pairs source g m = .ok (source', g', m')) : m'.Into g' := by
  induction pairs generalizing source g m source' g' m' with
  | nil =>
    cases hok
    exact hm
  | cons pair pairs ih =>
    obtain ⟨param, arg⟩ := pair
    obtain ⟨⟨source₁, n?⟩, h₁, hok⟩ := bind_ok.mp hok
    cases n? with
    | none => exact ih _ _ _ hg hm hok
    | some n =>
      cases arg with
      | none => exact ih _ _ _ hg hm hok
      | some x =>
        obtain ⟨⟨g₁, k?⟩, h₂, hok⟩ := bind_ok.mp hok
        have he := Enters.nodeFor hg h₂
        cases k? with
        | none => exact ih _ _ _ he.builds.settled (he.into hm) hok
        | some k => exact ih _ _ _ he.builds.settled (into_add_nodeFor hg hm h₂) hok

/-- Which values get a node does not depend on the source. -/
theorem pairArgs_eq (pairs : List (ValueId × Option ValueId)) (source other g : Graph)
    (m₁ m₂ : NodeMap) {source' other' g₁ g₂ : Graph} {m₁' m₂' : NodeMap}
    (hv₁ : source.valid = true) (hv₂ : other.valid = true)
    (h₁ : pairArgs t s pairs source g m₁ = .ok (source', g₁, m₁'))
    (h₂ : pairArgs t s pairs other g m₂ = .ok (other', g₂, m₂')) : g₁ = g₂ := by
  induction pairs generalizing source other g m₁ m₂ source' other' g₁ g₂ m₁' m₂' with
  | nil =>
    cases h₁
    cases h₂
    rfl
  | cons pair pairs ih =>
    obtain ⟨param, arg⟩ := pair
    obtain ⟨⟨source₁, n?⟩, hn₁, h₁⟩ := bind_ok.mp h₁
    obtain ⟨⟨other₁, k?⟩, hn₂, h₂⟩ := bind_ok.mp h₂
    have hv₁' := (nodeFor_valid hn₁).trans hv₁
    have hv₂' := (nodeFor_valid hn₂).trans hv₂
    -- whether the parameter has a node is a matter of the scope
    rcases nodeFor_ok hn₁ with ⟨rfl, -, ha₁⟩ | ⟨a₁, -, ha₁, -, rfl⟩ <;>
      rcases nodeFor_ok hn₂ with ⟨rfl, -, ha₂⟩ | ⟨a₂, -, ha₂, -, rfl⟩
    · exact ih _ _ _ _ _ hv₁' hv₂' h₁ h₂
    · cases (ha₁ hv₁).symm.trans ha₂
    · cases (ha₂ hv₂).symm.trans ha₁
    · cases arg with
      | none => exact ih _ _ _ _ _ hv₁' hv₂' h₁ h₂
      | some x =>
        obtain ⟨⟨k₁, j?⟩, hx₁, h₁⟩ := bind_ok.mp h₁
        obtain ⟨⟨k₂, i?⟩, hx₂, h₂⟩ := bind_ok.mp h₂
        cases hx₁.symm.trans hx₂
        cases j? with
        | none => exact ih _ _ _ _ _ hv₁' hv₂' h₁ h₂
        | some j => exact ih _ _ _ _ _ hv₁' hv₂' h₁ h₂

theorem pairResult_enters (hg : Settled g) (hm : m.Into g)
    (hok : pairResult s i source g m = .ok (g', m')) : Enters s g g' ∧ m'.Into g' := by
  rcases pairResult_cases hok with ⟨rfl, rfl, -⟩ | ⟨r, v, k?, -, -, hn, rfl⟩
  · exact ⟨.refl hg, hm⟩
  · have he := Enters.nodeFor hg hn
    cases k? with
    | none => exact ⟨he, he.into hm⟩
    | some k => exact ⟨he, into_add_nodeFor hg hm hn⟩

/-- A source that returns something if another one does gives a node to as many values at least. -/
theorem pairResult_le {m₁ m₂ m₁' m₂' : NodeMap} {g₁ g₂ : Graph} (hg : Settled g)
    (hreturn : source.returnNode.isSome → other.returnNode.isSome)
    (h₁ : pairResult s i source g m₁ = .ok (g₁, m₁'))
    (h₂ : pairResult s i other g m₂ = .ok (g₂, m₂')) : Enters s g₁ g₂ := by
  rcases pairResult_cases h₁ with ⟨rfl, -, -⟩ | ⟨r, v, k?, hr, hv, hn, -⟩ <;>
    rcases pairResult_cases h₂ with ⟨rfl, -, hnone⟩ | ⟨r', v', k?', -, hv', hn', -⟩
  · exact .refl hg
  · exact .nodeFor hg hn'
  · have hsome := hreturn (by rw [hr]; rfl)
    rcases hnone with hnone | hnone
    · rw [hnone] at hsome
      cases hsome
    · cases hv.symm.trans hnone
  · cases hv.symm.trans hv'
    cases hn.symm.trans hn'
    exact .refl (Enters.nodeFor hg hn).builds.settled

/-! ### The parts of a call -/

/-- What carrying over a call comes across: the source with nodes for all parameters, the graph of
the caller with nodes for what the call passes and returns, the pairs of nodes, the graph and the
map after the splice, and whether anything changed. -/
structure CallParts where
  source : Graph
  base : Graph
  seeds : NodeMap
  spliced : Graph
  map : NodeMap
  changed : Bool

/-- Carries over the call at a site from a valid source. -/
def callParts (g : Graph) (caller callee : Scope) (site : InstId) (source : Graph) :
    Checked CallParts := do
  let params ← callee.func.arguments
  let op := (← caller.func.inst site).op
  let paired ← pairArgs callee caller
    (params.zipIdx.map fun (v, i) => (v, boundTo op i)) source g {}
  let start ← pairResult caller site paired.1 paired.2.1 paired.2.2
  let done ← start.1.splice paired.1 start.2
  return ⟨paired.1, start.1, start.2, done.1, done.2.1, done.2.2⟩

theorem callParts_ok {c : CallParts} (hok : g.callParts s t i source = .ok c) :
    ∃ params inst g₁ m₁, t.func.arguments = .ok params ∧ s.func.inst i = .ok inst ∧
      pairArgs t s (params.zipIdx.map fun (v, i) => (v, boundTo inst.op i)) source g {} =
        .ok (c.source, g₁, m₁) ∧
      pairResult s i c.source g₁ m₁ = .ok (c.base, c.seeds) ∧
      c.base.splice c.source c.seeds = .ok (c.spliced, c.map, c.changed) := by
  obtain ⟨params, hparams, hok⟩ := bind_ok.mp hok
  obtain ⟨inst, hinst, hok⟩ := bind_ok.mp hok
  obtain ⟨paired, h₁, hok⟩ := bind_ok.mp hok
  obtain ⟨start, h₂, hok⟩ := bind_ok.mp hok
  obtain ⟨done, h₃, hok⟩ := bind_ok.mp hok
  cases hok
  exact ⟨params, inst, paired.2.1, paired.2.2, hparams, hinst, h₁, h₂, h₃⟩

/-- A splice at a call is made of its parts. -/
theorem spliceCall_eq_callParts {p : Program} {site : CallSite} {callee : FuncId}
    (hs : Scope.of? p site.caller = some s) (ht : Scope.of? p callee = some t) (hg : g.valid = true)
    (hsource : source.valid = true) : g.spliceCall p site source callee =
      (fun c => (c.spliced, c.source, c.changed)) <$> g.callParts s t site.site source := by
  unfold spliceCall callParts
  simp only [hs, ht, hg, hsource, Bool.not_true, Bool.false_eq_true, if_false, map_eq_pure_bind,
    bind_assoc, pure_bind]

theorem callParts_enters {c : CallParts} (hg : Settled g) (hsource : Settled source)
    (hok : g.callParts s t i source = .ok c) :
    Enters t source c.source ∧ Enters s g c.base ∧ c.seeds.Into c.base := by
  obtain ⟨params, inst, g₁, m₁, -, -, h₁, h₂, -⟩ := callParts_ok hok
  obtain ⟨hseats, hseats'⟩ := pairArgs_seats _ _ _ _ h₁
  have he := Enters.of_seats hg hseats'
  obtain ⟨he', hm⟩ := pairResult_enters he.builds.settled (pairArgs_into _ _ _ {} hg nofun h₁) h₂
  exact ⟨.of_seats hsource hseats, he.trans he', hm⟩

/-- The splices of two sources start from the same graph, or the second one from a graph with a node
for the result of the call. -/
theorem callParts_base {c d : CallParts} (hg : Settled g) (hv : source.valid = true)
    (hother : other.valid = true) (hc : g.callParts s t i source = .ok c)
    (hd : g.callParts s t i other = .ok d)
    (hreturn : c.source.returnNode.isSome → d.source.returnNode.isSome) :
    Enters s c.base d.base := by
  obtain ⟨params, inst, g₁, m₁, hparams, hinst, h₁, h₂, -⟩ := callParts_ok hc
  obtain ⟨params', inst', g₁', m₁', hparams', hinst', h₁', h₂', -⟩ := callParts_ok hd
  cases hparams.symm.trans hparams'
  cases hinst.symm.trans hinst'
  cases pairArgs_eq _ source other g {} {} hv hother h₁ h₁'
  have he := Enters.of_seats hg (pairArgs_seats _ _ _ _ h₁).2
  exact pairResult_le he.builds.settled hreturn h₂ h₂'

namespace CallParts

/-- The graph of the caller in the end, when all states were pushed along the edges. -/
def result (c : CallParts) : Graph := c.spliced.propagate.1

/-- What the source of `c` says about what the call comes to, the source of `d` says as well, with
`ρ` telling which nodes correspond to each other. -/
@[mk_iff]
structure Within (c d : CallParts) (ρ : NodeId → NodeId) : Prop
    extends Subsumes d.source d.seeds d.map c.source c.seeds c.map ρ where
  returns : c.source.returnNode.isSome → d.source.returnNode.isSome

instance (c d : CallParts) (ρ : NodeId → NodeId) : Decidable (c.Within d ρ) :=
  decidable_of_iff' _ (within_iff ..)

/-- The splice has lost no content: neither of what defers to each other, nor of the nodes of the
graph `g` of the caller, nor of the nodes of the source. -/
@[mk_iff]
structure Lossless (g : Graph) (c : CallParts) : Prop where
  level : Level c.spliced
  kept : KeepsContents g c.spliced c.spliced.representative
  arrived : Delivers c.source c.map c.spliced

instance (g : Graph) (c : CallParts) : Decidable (c.Lossless g) :=
  decidable_of_iff' _ (lossless_iff ..)

end CallParts

theorem CallParts.evolves {c : CallParts} {P B : ValueId → Prop} (hb : Settled c.base)
    (hok : c.base.splice c.source c.seeds = .ok (c.spliced, c.map, c.changed)) :
    Evolves P B c.base c.result := by
  obtain ⟨hev, -⟩ := splice_spec (P := P) (B := B) hb hok
  exact hev.trans (.raises hev.settled (propagate_raises c.spliced))

/-- The splice of a call gives nodes to no other values. -/
theorem CallParts.at_base {c : CallParts} {r : ValueId} {n : NodeId} (hb : Settled c.base)
    (hok : c.base.splice c.source c.seeds = .ok (c.spliced, c.map, c.changed))
    (hn : c.result.At r n) : ∃ k, c.base.At r k ∧ n = c.result.representative k := by
  have hev := evolves (P := fun v => ∃ k, c.base.At v k) (B := fun _ => True) hb hok
  obtain ⟨⟨k, hk⟩, -⟩ := hev.keyed (fun v k hk => ⟨⟨k, hk⟩, .inl trivial⟩) r n hn
  exact ⟨k, hk, hn.unique (hev.values r k hk)⟩

/-- **Carrying over more of a callee leads to higher states.** -/
theorem spliceCall_mono {p : Program} {site : CallSite} {callee : FuncId} {full summary : Graph}
    {F S : CallParts} {ρ : NodeId → NodeId}
    (hs : Scope.of? p site.caller = some s) (ht : Scope.of? p callee = some t) (hg : Settled g)
    (hvalid : g.valid = true) (hfull : Settled full) (hclosed : Closed full)
    (hvf : full.valid = true) (hsummary : Settled summary) (hvs : summary.valid = true)
    (hF : g.callParts s t site.site full = .ok F) (hS : g.callParts s t site.site summary = .ok S)
    (hwithin : S.Within F ρ) (hlossless : F.Lossless g) :
    g.spliceCall p site full callee = .ok (F.spliced, F.source, F.changed) ∧
      g.spliceCall p site summary callee = .ok (S.spliced, S.source, S.changed) ∧
      ∀ v n, S.result.nodeOf? s v = .ok (some n) → ∃ k, F.result.nodeOf? s v = .ok (some k) ∧
        (S.result.node n).state ≤ (F.result.node k).state := by
  refine ⟨?_, ?_, fun v n hn => ?_⟩
  · rw [spliceCall_eq_callParts hs ht hvalid hvf, hF]
    rfl
  · rw [spliceCall_eq_callParts hs ht hvalid hvs, hS]
    rfl
  obtain ⟨hef, heg, -⟩ := callParts_enters hg hfull hF
  obtain ⟨hes, heg', hinto⟩ := callParts_enters hg hsummary hS
  have hbase := callParts_base hg hvs hvf hS hF hwithin.returns
  obtain ⟨-, -, -, -, -, -, -, -, hspliceF⟩ := callParts_ok hF
  obtain ⟨-, -, -, -, -, -, -, -, hspliceS⟩ := callParts_ok hS
  obtain ⟨hv, hp, r, hr, hat⟩ := nodeOf?_iff.mp hn
  obtain ⟨k, hk, rfl⟩ := CallParts.at_base heg'.builds.settled hspliceS hat
  have hev := hbase.builds.trans (CallParts.evolves heg.builds.settled hspliceF)
  refine ⟨F.result.representative k, nodeOf?_iff.mpr ⟨?_, hp, r, hr, hev.values r k hk⟩, ?_⟩
  · exact hev.valid.trans (heg'.builds.valid.trans hvalid)
  · exact splice_mono hef.builds.settled (hef.admits.closed hfull hclosed) hes.builds.settled
      heg'.builds.settled heg.builds.settled hbase.builds.toFollows hspliceF hspliceS
      hwithin.toSubsumes hinto hlossless.level (heg'.keepsContents hg hlossless.kept)
      hlossless.arrived (hk.live heg'.builds.settled).1

end Graph

namespace Analysis

variable {p : Program} {a a' : Analysis} {info : FuncInfo} {F S : CallParts} {ρ : NodeId → NodeId}

/-- **The full graph of a callee is at least as conservative as its summary.** Take any run of
requests on a program, a callee in which every operand in a reachable block is undefined or a value
of a reachable block, and whose full graph was not given up, a call of it, and any settled graph of
the caller. If carrying over the full graph and carrying over the summary both finish, the summary
says nothing that the full graph does not say, and the splice of the full graph loses no content,
then every value with a node after the splice of the summary has one after the splice of the full
graph, which is visible at least as far. -/
theorem spliceCall_summary_le_graph (hp : p.Built) (hstart : a.infos = {})
    {requests : List Request} (hrun : a.run p requests = .ok a') (site : CallSite) {callee : FuncId}
    (hinfo : a'.info? callee = some info) (hv : info.graph.valid = true)
    (hs : Scope.of? p site.caller = some s) (ht : Scope.of? p callee = some t)
    (hplaced : t.OperandsPlaced) (hg : Settled g) (hvg : g.valid = true)
    (hF : g.callParts s t site.site info.graph = .ok F)
    (hS : g.callParts s t site.site info.summary = .ok S) (hwithin : S.Within F ρ)
    (hlossless : F.Lossless g) :
    g.spliceCall p site info.graph callee = .ok (F.spliced, F.source, F.changed) ∧
      g.spliceCall p site info.summary callee = .ok (S.spliced, S.source, S.changed) ∧
      ∀ v n, S.result.nodeOf? s v = .ok (some n) → ∃ k, F.result.nodeOf? s v = .ok (some k) ∧
        (S.result.node n).state ≤ (F.result.node k).state := by
  obtain ⟨hrest, -⟩ := (atRest_of_empty hstart).run hp.sound hrun
  obtain ⟨blocks, -, hcomplete⟩ := hrest.complete hinfo ht hv hplaced
  obtain ⟨t', ht', hsane⟩ := hrest.sane callee info hinfo
  exact spliceCall_mono hs ht hg hvg hcomplete.settled hcomplete.closed hv hsane.summary.settled
    (hsane.valid hv) hF hS hwithin hlossless

end Analysis

/-! ### An address that is bound anew -/

/-- Steps that build a program with addresses. The first function makes its first parameter stand
for the second one, and publishes the third one. The second function stores the addresses of two
slots in other slots, loads what is in the first one, and calls the first function. -/
def rebindSteps : List Step := [
  .intern .scalar,
  .intern (.address ⟨0⟩),
  .declare "rebind" [⟨⟨1⟩, .guaranteed⟩, ⟨⟨1⟩, .guaranteed⟩, ⟨⟨1⟩, .guaranteed⟩] none,
  .inst ⟨0⟩ (.uncheckedRefCastAddr ⟨1⟩ ⟨0⟩) none,
  .inst ⟨0⟩ (.builtin "publish" [⟨2⟩]) none,
  .inst ⟨0⟩ (.ret none) none,
  .declare "main" [] none,
  .value ⟨0⟩ (.allocStack ⟨0⟩) none,
  .value ⟨0⟩ (.allocStack ⟨0⟩) none,
  .value ⟨0⟩ (.allocStack ⟨0⟩) none,
  .inst ⟨0⟩ (.store ⟨0⟩ ⟨1⟩) none,
  .inst ⟨0⟩ (.store ⟨1⟩ ⟨2⟩) none,
  .append ⟨0⟩ (.load ⟨0⟩) [⟨1⟩],
  .inst ⟨0⟩ (.call (.direct ⟨0⟩) [⟨2⟩, ⟨1⟩, ⟨2⟩] none) none,
  .inst ⟨0⟩ (.ret none) none]

/-- The program with the addresses. -/
def rebinding : Program := (built rebindSteps).program

theorem rebinding_built : rebinding.Built := built_program (by decide +kernel)

namespace Graph

/-- The three slots of the caller. What is in the second one defers to the first one, and what is in
the third one defers to the second one. In the end, what is in the first slot is bound to the loaded
value. -/
def slotEdits : List Edit :=
  [.enter ⟨⟨0⟩, false, false⟩, .enter ⟨⟨1⟩, false, false⟩, .enter ⟨⟨2⟩, false, false⟩,
    .contents ⟨1⟩ [(false, false)], .defer ⟨3⟩ ⟨0⟩, .contents ⟨2⟩ [(false, false)], .defer ⟨4⟩ ⟨1⟩,
    .contents ⟨0⟩ [(false, false)], .bind ⟨3⟩ ⟨5⟩, .propagate]

theorem slotEdits_along : Along (fun g e => e.OnLive g ∧ e.Plain g)
    (full ⟨1⟩) slotEdits := by decide +kernel

end Graph

namespace Analysis

/-- Before anything is in the first slot, nothing is lost, though the two splices merge the contents
of the other slots in opposite directions. -/
theorem spliceCall_summary_le_graph_rebinding :
    ∃ a', (ofConfig Preset.balanced.config).run rebinding [.lookup ⟨0⟩] = .ok a' ∧
    ∃ info ∈ a'.info? ⟨0⟩,
      ∃ s ∈ Scope.of? rebinding ⟨1⟩, ∃ t ∈ Scope.of? rebinding ⟨0⟩,
      ∃ g, (full ⟨1⟩).run (slotEdits.take 7) = .ok g ∧ ∃ F, g.callParts s t ⟨6⟩ info.graph = .ok F ∧
      ∃ S, g.callParts s t ⟨6⟩ info.summary = .ok S ∧
      ∀ v n, S.result.nodeOf? s v = .ok (some n) → ∃ k, F.result.nodeOf? s v = .ok (some k) ∧
        (S.result.node n).state ≤ (F.result.node k).state := by
  have hall : ∃ a', (ofConfig Preset.balanced.config).run rebinding [.lookup ⟨0⟩] = .ok a' ∧
      ∃ info ∈ a'.info? ⟨0⟩, ∃ s ∈ Scope.of? rebinding ⟨1⟩, ∃ t ∈ Scope.of? rebinding ⟨0⟩,
      ∃ g, (full ⟨1⟩).run (slotEdits.take 7) = .ok g ∧ ∃ F, g.callParts s t ⟨6⟩ info.graph = .ok F ∧
      ∃ S, g.callParts s t ⟨6⟩ info.summary = .ok S ∧
      info.graph.valid = true ∧ g.valid = true ∧ S.Within F id ∧ F.Lossless g := by
    decide +kernel
  have hplaced : rebinding.OperandsPlaced := by decide +kernel
  obtain ⟨a', hrun, info, hinfo, s, hs, t, ht, g, hg, F, hF, S, hS, hv, hvg, hwithin,
    hlossless⟩ := hall
  obtain ⟨g', hg', hstable, -⟩ := Stable.run _ _ (IsStart.full ⟨1⟩).stable (slotEdits_along.take 7)
  cases hg.symm.trans hg'
  obtain ⟨-, -, hle⟩ := spliceCall_summary_le_graph rebinding_built rfl hrun ⟨⟨1⟩, ⟨6⟩⟩
    hinfo hv hs ht (hplaced _ t ht) ⟨hstable.toShape, hstable.settled⟩ hvg hF hS hwithin hlossless
  exact ⟨a', hrun, info, hinfo, s, hs, t, ht, g, hg, F, hF, S, hS, hle⟩

/-- **The full graph may say less.** With something in the first slot, carrying over the full graph
loses it: it is a node of its own afterwards, which does not escape. Carrying over the summary lets
it escape. -/
theorem loaded_escapes_by_summary_only : rebinding.Built ∧
    Along (fun g e => e.OnLive g ∧ e.Plain g) (full ⟨1⟩) slotEdits ∧
    ∃ a', (ofConfig Preset.balanced.config).run rebinding [.lookup ⟨0⟩] = .ok a' ∧
    ∃ info ∈ a'.info? ⟨0⟩,
      info.graph.valid = true ∧ ∃ s ∈ Scope.of? rebinding ⟨1⟩,
      ∃ g, (full ⟨1⟩).run slotEdits = .ok g ∧ g.check false = .ok () ∧
      (∃ r, g.spliceCall rebinding ⟨⟨1⟩, ⟨6⟩⟩ info.graph ⟨0⟩ = .ok r ∧
        r.1.propagate.1.nodeOf? s ⟨3⟩ = .ok (some ⟨5⟩) ∧
          (r.1.propagate.1.node ⟨5⟩).state = .noEscape) ∧
      ∃ r, g.spliceCall rebinding ⟨⟨1⟩, ⟨6⟩⟩ info.summary ⟨0⟩ = .ok r ∧
        r.1.propagate.1.nodeOf? s ⟨3⟩ = .ok (some ⟨5⟩) ∧
        (r.1.propagate.1.node ⟨5⟩).state = .globalEscaping :=
  ⟨rebinding_built, slotEdits_along, by decide +kernel⟩

end Analysis

/-! ### A summary that lags behind -/

/-- Steps that build two functions that call each other. The first one publishes what is in a slot,
makes its first parameter stand for it, and passes the slot on. The second one makes its first
parameter stand for the slot. The third function calls the first one. -/
def lagSteps : List Step := [
  .intern .scalar,
  .intern (.address ⟨0⟩),
  .declare "expose" [⟨⟨1⟩, .guaranteed⟩, ⟨⟨1⟩, .guaranteed⟩] none,
  .declare "attach" [⟨⟨1⟩, .guaranteed⟩, ⟨⟨1⟩, .guaranteed⟩] none,
  .enter ⟨0⟩,
  .value ⟨0⟩ (.allocStack ⟨0⟩) none,
  .append ⟨0⟩ (.load ⟨2⟩) [⟨1⟩],
  .inst ⟨0⟩ (.builtin "publish" [⟨3⟩]) none,
  .inst ⟨0⟩ (.uncheckedRefCastAddr ⟨3⟩ ⟨0⟩) none,
  .inst ⟨0⟩ (.call (.direct ⟨1⟩) [⟨1⟩, ⟨2⟩] none) none,
  .inst ⟨0⟩ (.ret none) none,
  .enter ⟨1⟩,
  .inst ⟨0⟩ (.uncheckedRefCastAddr ⟨1⟩ ⟨0⟩) none,
  .value ⟨0⟩ (.allocStack ⟨0⟩) none,
  .value ⟨0⟩ (.allocStack ⟨0⟩) none,
  .inst ⟨0⟩ (.call (.direct ⟨0⟩) [⟨2⟩, ⟨3⟩] none) none,
  .inst ⟨0⟩ (.ret none) none,
  .declare "main" [] none,
  .value ⟨0⟩ (.allocStack ⟨0⟩) none,
  .value ⟨0⟩ (.allocStack ⟨0⟩) none,
  .inst ⟨0⟩ (.call (.direct ⟨0⟩) [⟨0⟩, ⟨1⟩] none) none,
  .inst ⟨0⟩ (.ret none) none]

/-- The program with the two functions that call each other. -/
def lagging : Program := (built lagSteps).program

namespace Analysis

/-- **A summary may say what its full graph no longer says.** The summary of the first function is
derived before anything is known about the second one, when the slot is out of reach for callers, so
its first parameter escapes. The effect of the second function brings the slot within reach of the
second parameter, and the full graph only says that the first parameter defers to something that
escapes. No content is lost here. -/
theorem argument_escapes_by_lagging_summary : lagging.Built ∧
    ∃ a', (ofConfig Preset.balanced.config).run lagging [.lookup ⟨1⟩] = .ok a' ∧
    ∃ info ∈ a'.info? ⟨0⟩,
      info.graph.valid = true ∧ ∃ s ∈ Scope.of? lagging ⟨2⟩, ∃ t ∈ Scope.of? lagging ⟨0⟩,
      (∃ F, (full ⟨2⟩).callParts s t ⟨2⟩ info.graph = .ok F ∧ F.Lossless (full ⟨2⟩) ∧
        F.result.nodeOf? s ⟨0⟩ = .ok (some ⟨0⟩) ∧ (F.result.node ⟨0⟩).state = .noEscape) ∧
      ∃ S, (full ⟨2⟩).callParts s t ⟨2⟩ info.summary = .ok S ∧
        S.result.nodeOf? s ⟨0⟩ = .ok (some ⟨0⟩) ∧ (S.result.node ⟨0⟩).state = .globalEscaping :=
  ⟨built_program (by decide +kernel), by decide +kernel⟩

end Analysis

end Escape
