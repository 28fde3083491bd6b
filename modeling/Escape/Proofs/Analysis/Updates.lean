import Escape.Proofs.Analysis.Passes

/-!
# Whole updates

Between two requests everything that is known is final: all graphs are completed, all summaries
cover their graphs, and all calls are accounted for. An update starts from such a state and ends in
one, and it keeps the full graphs that it finds.

- `Update.finish_spec`: completing the graphs of a function.
- `Analysis.AtRest.update`: an update.
-/

namespace Escape

open Escape.Graph

variable {p : Program} {s t : Scope} {u u' : Update} {f g : FuncId} {info info' : FuncInfo}
  {a a' : Analysis} {verify : Bool}

/-- What holds between requests. -/
structure Analysis.AtRest (p : Program) (a : Analysis) : Prop extends Balanced p a.infos where
  final : ∀ f info, a.infos.find? f = some info →
    info.computed = true ∧ info.stale = false ∧ info.builtIn ≤ a.updates ∧
    info.visitedIn ≤ a.updates
  edges : ∀ f info, a.infos.find? f = some info → ∀ site ∈ info.callers,
    (∃ caller, a.infos.find? site.caller = some caller) ∧
      ∀ s, Scope.of? p site.caller = some s → s.Reaches site.site
  checked : a.config.verifyGraphs = true → ∀ f info, a.infos.find? f = some info →
    info.graph.check false = .ok ()

/-! ### The start of an update -/

namespace Analysis

variable (h : AtRest p a)
include h

theorem AtRest.not_visited (hf : a.begun.infos.find? f = some info) :
    info.builtIn ≠ a.begun.number ∧ info.visitedIn ≠ a.begun.number := by
  obtain ⟨-, -, hb, hv⟩ := h.final f info hf
  exact ⟨Nat.ne_of_lt (Nat.lt_succ_of_le hb), Nat.ne_of_lt (Nat.lt_succ_of_le hv)⟩

theorem AtRest.building : a.begun.Building p where
  pos := Nat.succ_pos _
  sane := h.sane
  marks f info hf := by
    obtain ⟨hc, hst, hb, hv⟩ := h.final f info hf
    obtain ⟨hnb, hnv⟩ := h.not_visited hf
    exact ⟨fun _ => ⟨hst, hnb⟩, fun hb' => absurd hb' hnb, fun hv' => absurd hv' hnv,
      Nat.le_succ_of_le hb, Nat.le_succ_of_le hv⟩
  edges f info hf site hsite := by
    obtain ⟨⟨caller, hcaller⟩, hreach⟩ := h.edges f info hf site hsite
    exact ⟨⟨caller, hcaller, .inr ⟨(h.final _ caller hcaller).1, (h.final f info hf).1⟩⟩, hreach⟩
  order j f := by
    refine iff_of_false nofun ?_
    rintro ⟨info, hf, hv, -⟩
    exact (h.not_visited hf).2 hv

theorem AtRest.not_pending (f : FuncId) : ¬ a.begun.Pending f := by
  rintro ⟨info, hf, ⟨hv, -⟩ | ⟨-, hc | ⟨site, -, caller, hcaller, hb⟩⟩⟩
  · exact (h.not_visited hf).2 hv
  · cases hc.symm.trans (h.final f info hf).1
  · exact (h.not_visited hcaller).1 hb

/-- What was final before is balanced, and what was built is to be passed over. -/
theorem AtRest.inPass (hb : u.Building p) (hplan : u.Planned p) (hk : a.begun.Keeps u)
    (limit : Nat) : u.InPass p limit 0 [] false := by
  -- the graphs of a function that is final are those that were there at the start
  have hold {f : FuncId} {info : FuncInfo} (hf : u.infos.find? f = some info)
    (hc : info.computed = true) :
      ∃ old, a.infos.find? f = some old ∧ info.graph = old.graph ∧ info.summary = old.summary := by
    obtain ⟨old, hf₀⟩ := hk.final f info hf hc
    obtain ⟨info', hf', hc', hkept, -⟩ := hk.info f old hf₀
    cases hf.symm.trans hf'
    exact ⟨old, hf₀, hkept (hc'.symm.trans hc)⟩
  refine ⟨⟨hplan, hb.sane, fun f info hf hst => ?_, fun f info s hf hs hst hv => ?_,
    fun f info hf site hsite caller s t hcaller hs ht hv =>
    ⟨fun hwhy => ?_, fun _ hE => ?_⟩⟩, .inr nofun⟩
  · refine (hplan.built f info hf).mp ?_
    rw [← Bool.not_eq_true]
    intro hc
    cases hst.symm.trans ((hb.marks f info hf).final hc).1
  · cases hc : info.computed with
    | true =>
      obtain ⟨old, hf₀, hgraph, hsummary⟩ := hold hf hc
      rw [hgraph] at hv
      rw [hgraph, hsummary]
      exact ⟨nofun, (h.covers f old s hf₀ hs hv).2⟩
    | false => cases hst.symm.trans ((hb.marks f info hf).built ((hplan.built f info hf).mp hc)).2.1
  · -- both functions were final before, and so the call was recorded before
    have hnb : caller.builtIn ≠ u.number := by
      rcases hwhy with hnb | ⟨-, hpos | hmem⟩
      · exact hnb
      · exact absurd hpos (Nat.lt_irrefl 0)
      · cases hmem
    obtain ⟨⟨caller', hcaller', hstate⟩, -⟩ := hplan.edges f info hf site hsite
    cases hcaller.symm.trans hcaller'
    obtain ⟨hcc, hci⟩ := hstate.resolve_left fun hb => hnb hb.1
    obtain ⟨old, hf₀, -, hsummary⟩ := hold hf hci
    obtain ⟨oldCaller, hcaller₀, hgraph, -⟩ := hold hcaller hcc
    have hsite₀ : site ∈ old.callers := by
      rcases hk.callers f info hf site hsite with ⟨old', hf', hsite'⟩ | ⟨caller', hcaller', hb'⟩
      · cases hf₀.symm.trans hf'
        exact hsite'
      · cases hcaller.symm.trans hcaller'
        exact absurd hb' hnb
    rw [hgraph] at hv
    rw [hgraph, hsummary]
    exact h.calls f old hf₀ site hsite₀ oldCaller s t hcaller₀ hs ht hv
  · rcases hE with hlt | ⟨-, hmem⟩
    · exact absurd hlt (Nat.not_lt_zero _)
    · cases hmem

end Analysis

/-! ### Completing graphs -/

/-- A full graph may say more, as long as its summary covers it. -/
theorem Balanced.modify (h : Balanced p u.infos) (hf : u.infos.find? f = some info)
    (ht : Scope.of? p f = some t) (hcallers : info'.callers = info.callers)
    (hsummary : info'.summary = info.summary) (hforward : Forward info.graph info'.graph)
    (hsane : info'.Sane t) (hcovers : info'.graph.valid = true →
      (info'.computed = false → Closed info'.graph) ∧ Covers t info'.graph info'.summary) :
    Balanced p (u.modify f fun _ => info').infos := by
  have hcases {g : FuncId} {new : FuncInfo} (hg :
    (u.modify f fun _ => info').infos.find? g = some new) :
      f = g ∧ new = info' ∨ u.infos.find? g = some new := by
    rw [Update.find?_modify] at hg
    split at hg
    · rename_i hfg
      exact .inl ⟨hfg, (Option.some.inj hg).symm⟩
    · exact .inr hg
  refine ⟨fun g new hg => ?_, fun g new s hg hs => ?_,
    fun g new hg site hsite caller s t' hcaller hs ht' hv => ?_⟩
  · rcases hcases hg with ⟨rfl, rfl⟩ | hg
    · exact ⟨t, ht, hsane⟩
    · exact h.sane g new hg
  · rcases hcases hg with ⟨rfl, rfl⟩ | hg
    · cases ht.symm.trans hs
      exact hcovers
    · exact h.covers g new s hg hs
  · -- the callee has its summary and its callers, and the graph of the caller says at least
    -- what it did
    obtain ⟨old, hold, hsite₀, hsum⟩ : ∃ old, u.infos.find? g = some old ∧ site ∈ old.callers ∧
        new.summary = old.summary := by
      rcases hcases hg with ⟨rfl, rfl⟩ | hg
      · exact ⟨info, hf, hcallers ▸ hsite, hsummary⟩
      · exact ⟨new, hg, hsite, rfl⟩
    rw [hsum]
    rcases hcases hcaller with ⟨hfc, rfl⟩ | hcaller
    · rw [hfc] at hf
      rw [hforward.2.valid] at hv
      obtain ⟨s', -, hsettled⟩ := h.sane _ info hf
      have hbefore := h.calls g old hold site hsite₀ info s t' hf hs ht' hv
      exact hbefore.follows hsettled.settled hforward.1 hforward.2
    · exact h.calls g old hold site hsite₀ caller s t' hcaller hs ht' hv

namespace Update

/-- What completing the graphs of a function does. -/
theorem finish_cases (hf : u.infos.find? f = some info) (hs : Scope.of? p f = some s)
    (hok : u.finish p verify f = .ok u') :
    info.builtIn ≠ u.number ∧ u' = u ∨ info.builtIn = u.number ∧ ∃ graph,
    complete s info.graph = .ok graph ∧
      (verify = true → graph.check false = .ok ()) ∧
      u' = u.modify f fun _ => { info with computed := true, graph } := by
  rw [finish, hf, hs] at hok
  dsimp only at hok
  split at hok
  · rename_i hnb
    cases hok
    exact .inl ⟨by simpa [isRebuilt] using hnb, rfl⟩
  · rename_i hb
    obtain ⟨graph, hgraph, hok⟩ := bind_ok.mp hok
    refine .inr ⟨by simpa [isRebuilt] using hb, graph, hgraph, ?_⟩
    cases verify with
    | false =>
      cases hok
      exact ⟨fun h => absurd h Bool.false_ne_true, rfl⟩
    | true =>
      cases hcheck : FuncInfo.check { info with computed := true, graph } with
      | error why =>
        simp only [if_true, hcheck] at hok
        cases hok
      | ok r =>
        simp only [if_true, hcheck] at hok
        cases hok
        obtain ⟨x, hx, -⟩ := bind_ok.mp hcheck
        exact ⟨fun _ => hx, rfl⟩

/-- The graph of a function is completed if this update built it. -/
theorem finish_ok (hok : u.finish p verify f = .ok u') :
    (u' = u ∧ ((∃ s, Scope.of? p f = some s) → ¬ u.Rebuilt f)) ∨ ∃ info s graph,
    u.infos.find? f = some info ∧
      Scope.of? p f = some s ∧ info.builtIn = u.number ∧ complete s info.graph = .ok graph ∧
      u' = u.modify f fun _ => { info with computed := true, graph } := by
  cases hf : u.infos.find? f with
  | none =>
    rw [finish, hf] at hok
    cases hok
    exact .inl ⟨rfl, fun _ ⟨info, hinfo, _⟩ => by cases hf.symm.trans hinfo⟩
  | some info =>
    cases hs : Scope.of? p f with
    | none =>
      rw [finish, hf, hs] at hok
      cases hok
      exact .inl ⟨rfl, nofun⟩
    | some s =>
      rcases finish_cases hf hs hok with ⟨hnb, rfl⟩ | ⟨hb, graph, hgraph, -, rfl⟩
      · refine .inl ⟨rfl, fun _ ⟨info', hinfo, hb⟩ => ?_⟩
        cases hf.symm.trans hinfo
        exact hnb hb
      · exact .inr ⟨info, s, graph, rfl, rfl, hb, hgraph, rfl⟩

/-- What holds while graphs are completed: those of the functions in `done` are. -/
structure Finishing (p : Program) (verify : Bool) (start : Update) (done : List FuncId)
    (u : Update) : Prop where
  balanced : Balanced p u.infos
  number : u.number = start.number
  forth : ∀ f info, start.infos.find? f = some info → ∃ info', u.infos.find? f = some info'
  back : ∀ f info', u.infos.find? f = some info' → ∃ info, start.infos.find? f = some info ∧
    (info' = info ∧ (f ∈ done → info.builtIn ≠ start.number) ∨
      f ∈ done ∧ info.builtIn = start.number ∧ ∃ graph,
      info' = { info with computed := true, graph } ∧
        (verify = true → graph.check false = .ok ()) ∧
        ∀ s, Scope.of? p f = some s → complete s info.graph = .ok graph)

/-- Completing one graph. -/
theorem Finishing.step {start : Update} {done : List FuncId} (hplan : Planned p start)
    (h : Finishing p verify start done u) (hf : ∃ info, start.infos.find? f = some info)
    (hnew : f ∉ done) (hok : u.finish p verify f = .ok u') :
    Finishing p verify start (done ++ [f]) u' := by
  obtain ⟨info₀, hf₀⟩ := hf
  obtain ⟨info, hinfo⟩ := h.forth f info₀ hf₀
  -- nothing was done to the function so far
  have hsame : info = info₀ := by
    obtain ⟨info₁, hf₁, ⟨rfl, -⟩ | ⟨hmem, -⟩⟩ := h.back f info hinfo
    · cases hf₀.symm.trans hf₁
      rfl
    · exact absurd hmem hnew
  subst hsame
  obtain ⟨s, hs, hsane⟩ := h.balanced.sane f info hinfo
  rcases finish_cases hinfo hs hok with ⟨hnb, rfl⟩ | ⟨hb, graph, hgraph, hcheck, rfl⟩
  · refine ⟨h.balanced, h.number, h.forth, fun g info' hg => ?_⟩
    obtain ⟨old, hold, hwhy⟩ := h.back g info' hg
    refine ⟨old, hold, hwhy.imp (fun ⟨he, hmem⟩ => ⟨he, fun hg' => ?_⟩) fun ⟨hmem, hrest⟩ => ?_⟩
    · rcases List.mem_append.mp hg' with hg' | hg'
      · exact hmem hg'
      · cases List.mem_singleton.mp hg'
        cases hf₀.symm.trans hold
        rw [← h.number]
        exact hnb
    · exact ⟨List.mem_append_left _ hmem, hrest⟩
  · rw [h.number] at hb
    have hc : info.computed = false := (hplan.built f info hf₀).mpr hb
    have hgrown := hsane.working hc
    have hforward := (complete_forward (roots_defined s) hgrown.settled hgraph).1
    refine ⟨h.balanced.modify hinfo hs rfl rfl hforward ?_ fun hv => ?_, h.number,
      fun g old hold => ?_, fun g info' hg => ?_⟩
    · refine ⟨nofun, fun _ => ⟨info.graph, hgrown, hgraph⟩, hsane.summary, fun hv => ?_⟩
      exact hsane.valid (hforward.2.valid.symm.trans hv)
    · obtain ⟨hclosed, hcovers⟩ := h.balanced.covers f info s hinfo hs
        (hforward.2.valid.symm.trans hv)
      exact ⟨nofun, hcovers.appends hgrown.settled
        (complete_appends hgrown.settled (hclosed hc) hgraph)⟩
    · rw [find?_modify]
      split
      · exact ⟨_, rfl⟩
      · exact h.forth g old hold
    · rw [find?_modify] at hg
      split at hg
      · rename_i hfg
        subst hfg
        cases hg
        refine ⟨info, hf₀, .inr ⟨List.mem_append_right _ (List.mem_singleton_self f), hb, graph,
          rfl, hcheck, fun s' hs' => ?_⟩⟩
        cases hs.symm.trans hs'
        exact hgraph
      · rename_i hfg
        obtain ⟨old, hold, hwhy⟩ := h.back g info' hg
        refine ⟨old, hold, hwhy.imp (fun ⟨he, hmem⟩ => ⟨he, fun hg' => hmem ?_⟩)
          fun ⟨hmem, hrest⟩ => ?_⟩
        · exact (List.mem_append.mp hg').resolve_right fun he => hfg (List.mem_singleton.mp he).symm
        · exact ⟨List.mem_append_left _ hmem, hrest⟩

/-- What completing all graphs leaves of a function. -/
theorem Finishing.result (hplan : Planned p u) (h : Finishing p verify u u.order.toList u')
    (hf : u'.infos.find? f = some info') : ∃ info, u.infos.find? f = some info ∧
    info'.computed = true ∧
      info'.callers = info.callers ∧ info'.stale = info.stale ∧ info'.builtIn = info.builtIn ∧
      info'.visitedIn = info.visitedIn ∧ (info.builtIn ≠ u.number ∧ info'.graph = info.graph ∨
        info.builtIn = u.number ∧ (verify = true → info'.graph.check false = .ok ()) ∧
          ∀ s, Scope.of? p f = some s → complete s info.graph = .ok info'.graph) := by
  obtain ⟨info, hf₀, ⟨rfl, hnb⟩ | ⟨-, hb, graph, rfl, hcheck⟩⟩ := h.back f info' hf
  · have hnb' : info'.builtIn ≠ u.number := fun hb =>
      hnb (Array.mem_toList_iff.mpr (hplan.placed f info' hf₀ hb)) hb
    refine ⟨info', hf₀, ?_, rfl, rfl, rfl, rfl, .inl ⟨hnb', rfl⟩⟩
    rw [← Bool.not_eq_false]
    exact fun hc => hnb' ((hplan.built f info' hf₀).mp hc)
  · exact ⟨info, hf₀, rfl, rfl, rfl, rfl, rfl, .inr ⟨hb, hcheck⟩⟩

/-- **Completing all graphs.** -/
theorem finish_spec (hplan : Planned p u) (hb : Balanced p u.infos)
    (hok : u.order.toList.foldlM (finish p verify) u = .ok u') :
    Finishing p verify u u.order.toList u' := by
  refine foldlM_of_ok (P := Finishing p verify u) (fun done f rest u₁ u₂ horder h₁ hstep => ?_)
    ⟨hb, rfl, fun f info hf => ⟨info, hf⟩, fun f info hf => ⟨info, hf, .inl ⟨rfl, nofun⟩⟩⟩ hok
  have hplace := order_here horder
  obtain ⟨info, hf, -⟩ := (hplan.order _ f).mp hplace
  refine h₁.step hplan ⟨info, hf⟩ (fun hmem => ?_) hstep
  obtain ⟨i, hlt, hi⟩ := order_before horder hmem
  exact Nat.ne_of_lt hlt (hplan.order.unique hi hplace)

end Update

/-! ### A whole update -/

namespace Analysis

/-- Something was learned: everything is at rest, and the full graphs that were known are still
known. -/
structure Learns (p : Program) (a a' : Analysis) : Prop where
  rest : AtRest p a'
  graph : ∀ f info, a.infos.find? f = some info →
    ∃ info', a'.infos.find? f = some info' ∧ info'.graph = info.graph
  config : a'.config = a.config
  resolver : a'.resolver = a.resolver

theorem Learns.refl (h : AtRest p a) : Learns p a a :=
  ⟨h, fun _ info hf => ⟨info, hf, rfl⟩, rfl, rfl⟩

theorem Learns.trans {a'' : Analysis} (h : Learns p a a') (h' : Learns p a' a'') :
    Learns p a a'' where
  rest := h'.rest
  graph f info hf := by
    obtain ⟨info₁, hf₁, hg₁⟩ := h.graph f info hf
    obtain ⟨info₂, hf₂, hg₂⟩ := h'.graph f info₁ hf₁
    exact ⟨info₂, hf₂, hg₂.trans hg₁⟩
  config := h'.config.trans h.config
  resolver := h'.resolver.trans h.resolver

/-- The parts of an update. -/
theorem update_ok (hok : a.update p f = .ok a') : ∃ u u₁ u₂,
    a.build p a.config.maxRecursionDepth f a.begun = .ok u ∧
    Update.passes p a.config.maxGraphMerges (a.config.maxGraphMerges + 2) 0 (u.place f) = .ok u₁ ∧
    u₁.order.toList.foldlM (Update.finish p a.config.verifyGraphs) u₁ = .ok u₂ ∧
    a' = { a with infos := u₂.infos, updates := a.updates + 1 } := by
  obtain ⟨u, hbuild, hok⟩ := bind_ok.mp hok
  obtain ⟨u₁, hpasses, hok⟩ := bind_ok.mp hok
  obtain ⟨u₂, hfinish, hok⟩ := bind_ok.mp hok
  cases hok
  exact ⟨u, u₁, u₂, hbuild, hpasses, hfinish, rfl⟩

/-- The course of an update of `f`: the graphs in `u` are built, the passes lead to `u₁`, and in
`u₂` all graphs are completed. -/
structure Course (p : Program) (a : Analysis) (f : FuncId) (u u₁ u₂ : Update) : Prop where
  build : a.build p a.config.maxRecursionDepth f a.begun = .ok u
  plan : Update.Planned p (u.place f)
  keeps : a.begun.Keeps (u.place f)
  passed : Update.Planned p u₁
  reworks : Update.Reworks (u.place f) u₁
  fresh : ∀ g, ¬ u₁.Stale g
  finishing : Update.Finishing p a.config.verifyGraphs u₁ u₁.order.toList u₂

/-- When the graphs are built, what was known is kept, and every function has its place. -/
theorem AtRest.building_place (hp : p.Sound) (h : AtRest p a) (hf : (p.func? f).isSome)
    (hbuild : a.build p a.config.maxRecursionDepth f a.begun = .ok u) :
    (u.place f).Building p ∧ a.begun.Keeps (u.place f) ∧ ∀ g, ¬ (u.place f).Pending g := by
  obtain ⟨hbuilding, hkeeps, hpending⟩ := descend_place (build_correct a hp _) h.building
    (Scope.exists_of_isSome hf) hbuild
  exact ⟨hbuilding, hkeeps, fun g hg => h.not_pending g (hpending g hg).1⟩

theorem AtRest.course (hp : p.Sound) (h : AtRest p a) (hf : (p.func? f).isSome)
    (hok : a.update p f = .ok a') : ∃ u u₁ u₂, Course p a f u u₁ u₂ ∧
    a' = { a with infos := u₂.infos, updates := a.updates + 1 } := by
  obtain ⟨u, u₁, u₂, hbuild, hpasses, hfinish, ha'⟩ := update_ok hok
  obtain ⟨hbuilding, hall, hplaced⟩ := h.building_place hp hf hbuild
  have hplan := Update.Planned.of_building hbuilding hplaced
  obtain ⟨hplan₁, hr, hfresh, hbalanced⟩ := Update.passes_spec hp _ _ _ (by omega) (by omega)
    (h.inPass hbuilding hplan hall _) hpasses
  exact ⟨u, u₁, u₂, ⟨hbuild, hplan, hall, hplan₁, hr, hfresh,
    Update.finish_spec hplan₁ hbalanced hfinish⟩, ha'⟩

/-- A graph that was not built is one that was known before. -/
theorem Course.kept {u₁ u₂ : Update} (h : Course p a f u u₁ u₂) (hg : u₁.infos.find? g = some info)
    (hnb : info.builtIn ≠ u₁.number) : ∃ old, a.infos.find? g = some old ∧
    info.graph = old.graph := by
  obtain ⟨info₀, hg₀, hri⟩ := h.reworks.back g info hg
  rw [hri.builtIn, h.reworks.number] at hnb
  have hc : info₀.computed = true := by
    rw [← Bool.not_eq_false]
    exact fun hc => hnb ((h.plan.built g info₀ hg₀).mp hc)
  obtain ⟨old, hold⟩ := h.keeps.final g info₀ hg₀ hc
  obtain ⟨info', hg', hc', hsame, -⟩ := h.keeps.info g old hold
  cases hg₀.symm.trans hg'
  exact ⟨old, hold, (hri.graph hnb).trans (hsame (hc'.symm.trans hc)).1⟩

/-- **An update** leads from rest to rest, and keeps the full graphs that are known. -/
theorem AtRest.update (hp : p.Sound) (h : AtRest p a) (hf : (p.func? f).isSome)
    (hok : a.update p f = .ok a') : Learns p a a' := by
  obtain ⟨u, u₁, u₂, hcourse, rfl⟩ := h.course hp hf hok
  obtain ⟨-, hplan, hall, hplan₁, hr, hfresh, hfin⟩ := id hcourse
  have hnumber : u₁.number = a.updates + 1 := hr.number.trans hall.number
  refine ⟨⟨hfin.balanced, fun g info₂ hg => ?_, fun g info₂ hg site hsite => ?_,
    fun hverify g info₂ hg => ?_⟩, fun g old hg => ?_, rfl, rfl⟩
  · obtain ⟨info₁, hg₁, hc, -, hst, hb, hv, -⟩ := hfin.result hplan₁ hg
    obtain ⟨hle, hle'⟩ := hplan₁.early g info₁ hg₁
    rw [hnumber] at hle hle'
    refine ⟨hc, ?_, hb ▸ hle, hv ▸ hle'⟩
    rw [← Bool.not_eq_true, hst]
    exact fun hst => hfresh g ⟨info₁, hg₁, hst⟩
  · obtain ⟨info₁, hg₁, -, hcallers, -⟩ := hfin.result hplan₁ hg
    obtain ⟨⟨caller, hcaller, -⟩, hreach⟩ := hplan₁.edges g info₁ hg₁ site (hcallers ▸ hsite)
    exact ⟨hfin.forth _ caller hcaller, hreach⟩
  · obtain ⟨info₁, hg₁, -, -, -, -, -, ⟨hnb, hgraph⟩ | ⟨-, hcheck⟩⟩ := hfin.result hplan₁ hg
    · obtain ⟨old, hg₀, hold⟩ := hcourse.kept hg₁ hnb
      rw [hgraph, hold]
      exact h.checked hverify g old hg₀
    · exact hcheck.1 hverify
  · obtain ⟨info₀, hg₀, hc, hgraph, -⟩ := hall.info g old hg
    obtain ⟨info₁, hg₁, hri⟩ := hr.forth g info₀ hg₀
    obtain ⟨info₂, hg₂⟩ := hfin.forth g info₁ hg₁
    have hfinal := (h.final g old hg).1
    obtain ⟨info₁', hg₁', -, -, -, -, -, hlast⟩ := hfin.result hplan₁ hg₂
    cases hg₁.symm.trans hg₁'
    have hnb : info₁.builtIn ≠ u₁.number := fun hb => by
      cases ((hplan₁.built g info₁ hg₁).mpr hb).symm.trans (hri.computed.trans (hc.trans hfinal))
    obtain ⟨-, hgraph₂⟩ := hlast.resolve_right fun hb => hnb hb.1
    refine ⟨info₂, hg₂, hgraph₂.trans ((hri.graph ?_).trans (hgraph hfinal).1)⟩
    rw [← hri.builtIn, ← hr.number]
    exact hnb

end Analysis

end Escape
