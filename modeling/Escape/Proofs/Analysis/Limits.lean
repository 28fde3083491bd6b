import Escape.Proofs.Analysis.Upkeep

/-!
# The limit on nodes

A graph that grows beyond the limit is given up. That is looked at after each instruction is drawn,
and nowhere else: linking blocks, splicing summaries in and completing the graph may make any number
of nodes. So the limit bounds what the instructions of a function draw, and whether a graph is given
up depends on them alone.

- `Analysis.drawInsts_valid_iff`: a graph is given up exactly if drawing does not.
- `Analysis.graph_valid_iff_fits`: **this decides about the graphs that are known after every run of
  requests, and a graph that is given up takes its summary with it.**
-/

namespace Escape

open Escape.Graph Update Relation

variable {p : Program} {s : Scope} {f : FuncId} {info : FuncInfo} {a a' : Analysis}

namespace Analysis

/-! ### Drawing within the limit -/

section Drawings

variable {deep : Bool} {i : InstId} {gr gr' : Graph} {fs : List FuncId} {calls : List Call}

/-- Drawing the given instructions one after another, the graph stays within the limit. -/
def Fits (a : Analysis) (deep : Bool) (s : Scope) : List InstId → Graph → Prop
  | [], _ => True
  | i :: rest, g => ∃ g' fs, a.drawInst deep s i g = .ok (g', fs) ∧ g'.size ≤ a.config.maxNodes ∧
    a.Fits deep s rest g'

/-- **A graph is given up exactly if it does not stay within the limit.** -/
theorem drawInsts_valid_iff (hfunc : s.func.ResultsTraced) (is : List InstId) (gr : Graph)
    (hs : Settled gr) (hv : gr.valid = true) (hsize : gr.size ≤ a.config.maxNodes)
    (hok : a.drawInsts deep s is gr = .ok (gr', calls)) :
    (gr'.valid = true ↔ a.Fits deep s is gr) ∧
    (gr'.valid = true → gr'.size ≤ a.config.maxNodes) := by
  replace hok := drawing_of_ok is gr hok
  induction hok with
  | done => exact ⟨iff_of_true hv trivial, fun _ => hsize⟩
  | full hdraw hlarge =>
    refine ⟨iff_of_false nofun ?_, nofun⟩
    rintro ⟨g₂, fs', hdraw', hle, -⟩
    cases hdraw.symm.trans hdraw'
    exact absurd hlarge (Nat.not_lt.mpr hle)
  | next hdraw hle _ ih =>
    have hev := drawInst_builds hfunc hs hdraw
    obtain ⟨hiff, hbound⟩ := ih hev.settled (hev.valid.trans hv) hle
    refine ⟨hiff.trans ⟨fun h => ⟨_, _, hdraw, hle, h⟩, ?_⟩, hbound⟩
    rintro ⟨g₃, fs', hdraw', -, h⟩
    cases hdraw.symm.trans hdraw'
    exact h

/-- **What a function draws** is given up exactly if its instructions do not keep it within the
limit. Otherwise they draw a graph within the limit, to which the arguments of the blocks are added.
-/
theorem draw_valid_iff (hfunc : s.func.ResultsTraced) (hok : a.draw deep s = .ok (gr', calls)) :
    ∃ blocks is, s.func.reachableBlocks = .ok blocks ∧ s.func.instsOf blocks = .ok is ∧
      (gr'.valid = true ↔ a.Fits deep s is (.full s.id)) ∧ (gr'.valid = true → ∃ gr,
        a.drawInsts deep s is (.full s.id) = .ok (gr, calls) ∧ gr.size ≤ a.config.maxNodes ∧
        Follows gr gr') := by
  obtain ⟨blocks, is, gr, hblocks, his, hdraw, hlink⟩ := draw_ok hok
  have hempty : Grown s (.full s.id) := .of_empty
  have hgrown := drawInsts_grown hfunc is _ hempty hdraw
  obtain ⟨hiff, hbound⟩ := drawInsts_valid_iff hfunc is _ hempty.settled rfl (Nat.zero_le _) hdraw
  obtain ⟨hvalid, hfollows⟩ : gr'.valid = gr.valid ∧ Follows gr gr' := by
    rcases hlink with ⟨-, hlink⟩ | ⟨-, rfl⟩
    · have hev := linkBlocks_builds hgrown.settled hlink
      exact ⟨hev.valid, hev.toFollows⟩
    · exact ⟨rfl, (Forward.refl hgrown.settled).2⟩
  rw [hvalid]
  exact ⟨blocks, is, hblocks, his, hiff, fun hv => ⟨gr, hdraw, hbound hv, hfollows⟩⟩

end Drawings

/-! ### Runs -/

/-- What is known between requests is left alone by anything that looks at it. -/
theorem AtRest.tidy (h : AtRest p a) : Tidy a where
  final f info hf := ⟨(h.final f info hf).1, (h.final f info hf).2.1⟩
  stamped f info hf := ⟨(h.final f info hf).2.2.1, (h.final f info hf).2.2.2⟩
  edges f info hf site hsite := by
    obtain ⟨⟨caller, hcaller⟩, -⟩ := h.edges f info hf site hsite
    rw [hcaller]
    rfl

/-- Between requests, every full graph was drawn with the settings of the analysis `setting`, and a
graph that was given up has taken its summary with it. -/
structure Limited (p : Program) (setting a : Analysis) : Prop extends AtRest p a where
  config : a.config = setting.config
  resolver : a.resolver = setting.resolver
  policy : a.policy = setting.policy
  drawn : ∀ f info, a.infos.find? f = some info → ∃ s deep calls gr, Scope.of? p f = some s ∧
    setting.draw deep s = .ok (gr, calls) ∧ Follows gr info.graph
  paired : ∀ f info, a.infos.find? f = some info → info.Paired

variable {setting : Analysis}

theorem limited_of_empty (h : a.infos = {}) : Limited p a a :=
  ⟨atRest_of_empty h, rfl, rfl, rfl, fun f info hf => absurd hf (find?_of_empty h f info),
    fun f info hf => absurd hf (find?_of_empty h f info)⟩

section

variable (h : Limited p setting a)
include h

/-- A graph that an update gives up takes its summary with it. -/
theorem Limited.paired_update (hp : p.Sound) (hf : (p.func? f).isSome)
    (hok : a.update p f = .ok a') : ∀ g info, a'.infos.find? g = some info → info.Paired := by
  obtain ⟨u, log, hrun, rfl⟩ := Trace.update_ok.mp hok
  have ht := h.toAtRest.tidy
  obtain ⟨v, w, early, hs⟩ := ht.stages hf hrun
  obtain ⟨late, -, hpasses⟩ := hs.passed
  obtain ⟨hwork, htends, -⟩ := Trace.passes_tends _ _ _ (hs.inWork hp.resultsTraced ht) hpasses
  -- before the passes, the summary of a function that was built is behind, and the others are as at
  -- the start
  have hstart (g : FuncId) (info : FuncInfo) (hg : v.infos.find? g = some info) : info.Paired := by
    by_cases hb : info.builtIn = v.number
    · obtain ⟨u₀, hbuild, rfl⟩ := hs.built
      have hsilent := (Trace.build_traces a p _ _ _ _).mp (Logged.silent_ok.mpr ⟨early, hbuild⟩)
      obtain ⟨hbuilding, -, -⟩ := h.toAtRest.building_place hp hf hsilent
      exact .inl ((hbuilding.marks g info hg).built hb).2.1
    · have hnb : .build g ∉ early := by
        rw [← hs.rebuilt_iff ht]
        rintro ⟨info', hg', hb'⟩
        cases hg.symm.trans hg'
        exact hb hb'
      obtain ⟨hgraph, hsummary, hstale, -⟩ := (hs.recorded.since g).unbuilt hnb
      dsimp only at hgraph hsummary hstale
      rw [known_of_find? hg] at hgraph hsummary hstale
      rw [FuncInfo.Paired, hgraph, hsummary, hstale]
      cases hold : a.infos.find? g with
      | none =>
        rw [known, begun, hold]
        exact .inr (.inl rfl)
      | some old =>
        rw [known_of_find? (show a.begun.infos.find? g = some old from hold)]
        exact h.paired g old hold
  intro g info hg
  obtain ⟨info₁, hg₁, hfinished⟩ := finish_finished hs.nodup hs.finished g info hg
  obtain ⟨info₀, hg₀, htended⟩ := htends.back g info₁ hg₁
  have hpaired := (htended.paired (hstart g info₀ hg₀)).resolve_left fun hst => hs.fresh g
    ⟨info₁, hg₁, hst⟩
  have hvalid : info.graph.valid = info₁.graph.valid := by
    rcases hfinished.graph with he | ⟨hb, s, hs, hcomplete⟩
    · rw [he]
    · obtain ⟨s', -, hgrown⟩ := hwork.grown g info₁ hg₁ hb
      exact (complete_forward (roots_anything s) hgrown.settled hcomplete).1.2.valid
  rw [FuncInfo.Paired, hvalid, hfinished.summary]
  exact .inr hpaired

theorem Limited.update (hp : p.Sound) (hf : (p.func? f).isSome)
    (hok : a.update p f = .ok a') : Limited p setting a' := by
  have hpaired := h.paired_update hp hf hok
  have hrest := (h.toAtRest.update hp hf hok).rest
  obtain ⟨u, u₁, u₂, hcourse, rfl⟩ := h.toAtRest.course hp hf hok
  refine ⟨hrest, h.config, h.resolver, h.policy, fun g info hg => ?_, hpaired⟩
  obtain ⟨old, hold, he⟩ | ⟨s, deep, calls, g₀, g₁, hs, hdraw, -, hforward, -, hcomplete⟩ :=
    hcourse.origin hp h.toAtRest hg
  · rw [he]
    exact h.drawn g old hold
  · refine ⟨s, deep, calls, g₀, hs, ?_, ?_⟩
    · rw [← hdraw]
      exact (draw_congr ⟨h.config, h.resolver, h.policy⟩).symm
    · exact hforward.2.trans (complete_forward (roots_anything s) hforward.1 hcomplete).1.2

theorem Limited.move (hp : p.Sound) (hmove : Moves p a a') : Limited p setting a' := by
  cases hmove with
  | update hupdate =>
    obtain ⟨f, hf, hok⟩ := hupdate
    exact h.update hp hf hok
  | invalidate f =>
    refine ⟨h.toAtRest.invalidate f, h.config, h.resolver, h.policy, fun g info hg => ?_,
      fun g info hg => ?_⟩
    · obtain ⟨-, old, hold, rfl⟩ := find?_invalidate hg
      exact h.drawn g old hold
    · obtain ⟨-, old, hold, rfl⟩ := find?_invalidate hg
      exact h.paired g old hold
  | invalidateAll =>
    have hnone := find?_of_empty (a := a.invalidateAll) rfl
    exact ⟨atRest_of_empty rfl, h.config, h.resolver, h.policy,
      fun g info hg => absurd hg (hnone g info), fun g info hg => absurd hg (hnone g info)⟩

theorem Limited.run (hp : p.Sound) {requests : List Request}
    (hok : a.run p requests = .ok a') : Limited p setting a' := by
  have hmoves := run_moves hok
  clear hok
  induction hmoves with
  | refl => exact h
  | tail _ hmove ih => exact ih.move hp hmove

end

/-- **What the limit on nodes decides.** Take any run of requests, and a function that is known
after it. Its instructions were drawn with or without following calls. Its full graph is valid
exactly if drawing them, one after another, stays within the limit, and then it has come from a
graph within the limit; how many nodes were added later is not limited. Its summary is valid exactly
if its full graph is. -/
theorem graph_valid_iff_fits (hp : p.Built) (hstart : a.infos = {}) {requests : List Request}
    (hrun : a.run p requests = .ok a') (hf : a'.info? f = some info) :
    ∃ s deep blocks is, Scope.of? p f = some s ∧ s.func.reachableBlocks = .ok blocks ∧
      s.func.instsOf blocks = .ok is ∧ (info.graph.valid = true ↔ a.Fits deep s is (.full f)) ∧
      (info.graph.valid = true → ∃ gr calls, a.drawInsts deep s is (.full f) = .ok (gr, calls) ∧
        gr.size ≤ a.config.maxNodes ∧ Follows gr info.graph) ∧
      info.summary.valid = info.graph.valid := by
  have hend := (limited_of_empty hstart).run hp.sound hrun
  obtain ⟨s, deep, calls, gr, hs, hdraw, hfollows⟩ := hend.drawn f info hf
  obtain ⟨-, hid, hfunc⟩ := Scope.of?_spec hs
  obtain ⟨blocks, is, hblocks, his, hiff, hfits⟩ :=
    draw_valid_iff (hp.sound _ _ hfunc).results hdraw
  rw [hid] at hiff hfits
  refine ⟨s, deep, blocks, is, hs, hblocks, his, hfollows.valid ▸ hiff, fun hv => ?_, ?_⟩
  · obtain ⟨gr₀, hdraw₀, hsize, hfollows₀⟩ := hfits (hfollows.valid.symm.trans hv)
    exact ⟨gr₀, calls, hdraw₀, hsize, hfollows₀.trans hfollows⟩
  · cases hv : info.graph.valid with
    | true =>
      obtain ⟨s', -, hsane⟩ := hend.sane f info hf
      exact hsane.valid hv
    | false =>
      rcases hend.paired f info hf with hst | hv' | hv'
      · cases hst.symm.trans (hend.final f info hf).2.1
      · cases hv.symm.trans hv'
      · exact hv'

/-- The third function of the example stays within the limit. -/
theorem graph_valid_iff_fits_nodes : ∃ a',
    (ofConfig Preset.balanced.config).run nodes [.lookup ⟨2⟩] = .ok a' ∧ ∃ info ∈ a'.info? ⟨2⟩,
    info.summary.valid = true ∧ ∃ s ∈ Scope.of? nodes ⟨2⟩, ∃ deep is gr calls,
      (ofConfig Preset.balanced.config).drawInsts deep s is (.full ⟨2⟩) = .ok (gr, calls) ∧
        gr.size ≤ Preset.balanced.config.maxNodes := by
  have hrun : ∃ a', (ofConfig Preset.balanced.config).run nodes [.lookup ⟨2⟩] = .ok a' ∧
      ∃ info ∈ a'.info? ⟨2⟩, info.graph.valid = true := by
    decide +kernel
  obtain ⟨a', hrun, info, hf, hv⟩ := hrun
  obtain ⟨s, deep, blocks, is, hs, -, -, -, hdrawn, hsummary⟩ :=
    graph_valid_iff_fits nodes_built rfl hrun hf
  obtain ⟨gr, calls, hdraw, hsize, -⟩ := hdrawn hv
  exact ⟨a', hrun, info, hf, hsummary.trans hv, s, hs, deep, is, gr, calls, hdraw, hsize⟩

end Analysis

/-- Steps that build a function with many parameters and nothing else. -/
def wideSteps : List Step := [
  .intern (.object { name := "Node" }),
  .declare "wide" (List.replicate 17 ⟨⟨0⟩, .guaranteed⟩) none,
  .inst ⟨0⟩ (.ret none) none]

/-- The program with the many parameters. -/
def wide : Program := (built wideSteps).program

/-- Settings with the smallest limit. -/
def narrow : Config := { Preset.balanced.config with maxNodes := 16 }

namespace Analysis

/-- **Graphs exceed the limit.** No instruction draws anything here, but deriving the summary and
completing the graph make nodes for all parameters and their contents. -/
theorem limit_exceeded : wide.Built ∧ narrow.validate = .ok () ∧
    ∃ a', (ofConfig narrow).run wide [.lookup ⟨0⟩] = .ok a' ∧ ∃ info ∈ a'.info? ⟨0⟩,
      info.graph.valid = true ∧ info.graph.size = 51 ∧ info.summary.valid = true ∧
      info.summary.size = 17 ∧ narrow.maxNodes = 16 :=
  ⟨built_program (by decide +kernel), by decide +kernel, by decide +kernel⟩

end Analysis

end Escape
