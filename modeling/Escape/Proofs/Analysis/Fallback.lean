import Escape.Proofs.Analysis.Calls
import Escape.Proofs.Analysis.Invocations
import Escape.Proofs.Analysis.Upkeep

/-!
# The end of the passes

Passes are repeated until no summary is behind its graph. There is a limit: in the pass with that
number the callers are finished conservatively, and a last pass brings their summaries up to date.

- `Update.passes_extra`: no more passes are asked for than the limit allows, so the bound is never
  used up.
- `Trace.passes_numbers`: passes are numbered from zero.
- `History.update_fallback`: **an update makes a bounded number of passes, and when it falls back on
  conservative callers nothing that a call touches is missed.**
-/

namespace Escape

open Relation Update Search Escape.Graph

variable {p : Program} {f g root : FuncId} {u u' : Update} {info : FuncInfo} {log : List Event}
  {a a' : Analysis} {spliced : Call → Prop} {limit pass : Nat}

/-! ### The number of passes -/

namespace Update

/-- A pass beyond the limit asks for no other. -/
theorem pass_last (hlt : limit < pass) {l : List FuncId} {again again' : Bool}
    (hok : l.foldlM (passOver p limit pass) (u, again) = .ok (u', again')) : again' = again := by
  refine foldlM_of_ok (P := fun _ (acc : Update × Bool) => acc.2 = again) ?_ rfl hok
  rintro done f rest ⟨u₁, again₁⟩ ⟨u₂, again₂⟩ - h hstep
  obtain ⟨u₃, changed, more, -, rfl, hcases⟩ := passOver_ok hstep
  obtain rfl : more = false := by
    rcases hcases with ⟨hlt', -⟩ | ⟨-, -, -, -, hmore⟩ | ⟨he, -⟩ | ⟨-, -, hmore⟩
    · exact absurd hlt' (Nat.lt_asymm hlt)
    · exact hmore
    · exact absurd he (Nat.ne_of_gt hlt)
    · exact hmore
  rw [← h]
  exact Bool.or_false again₁

/-- **The bound on passes is never used up**, also if they fail. -/
theorem passes_extra (p : Program) (limit extra : Nat) :
    ∀ (bound pass : Nat) (u : Update), 0 < bound → limit + 2 ≤ pass + bound →
    passes p limit (bound + extra) pass u = passes p limit bound pass u := by
  intro bound
  induction bound with
  | zero => exact fun _ _ hpos => absurd hpos (Nat.lt_irrefl 0)
  | succ bound ih =>
    intro pass u _ hle
    rw [Nat.add_right_comm, passes, passes]
    cases hpass : u.order.toList.foldlM (passOver p limit pass) (u, false) with
    | error why => rfl
    | ok r =>
      obtain ⟨u₁, again⟩ := r
      cases again with
      | false => rfl
      | true =>
        -- this pass asks for another one, so it is not beyond the limit
        have hnot : ¬ limit < pass := fun hlt => Bool.noConfusion (pass_last hlt hpass)
        exact ih (pass + 1) u₁ (by omega) (by omega)

end Update

namespace Trace

/-- **Passes are numbered one after another**, and the last number is at most one beyond the limit.
-/
theorem passes_numbers (bound pass : Nat) (u : Update) {u' : Update} {es : List Event}
    (hle : pass ≤ limit + 1) (hok : (passes p limit bound pass u).run = .ok (u', es)) :
    ∃ k, passNumbers es = List.range' pass k ∧ pass + k ≤ limit + 2 := by
  induction bound generalizing pass u u' es with
  | zero =>
    cases hok
    exact ⟨0, rfl, by omega⟩
  | succ bound ih =>
    obtain ⟨u₁, again, es₁, es₂, hpass, rfl, hnone, hrest⟩ := passes_ok hok
    rw [passNumbers_passes pass hnone]
    rcases hrest with ⟨rfl, hlater⟩ | ⟨-, rfl, rfl⟩
    · have hnot : ¬ limit < pass := fun hlt => Bool.noConfusion (pass_last hlt hpass)
      obtain ⟨k, hk, hbound⟩ := ih (pass + 1) u₁ (by omega) hlater
      exact ⟨k + 1, by rw [hk]; rfl, by omega⟩
    · exact ⟨1, rfl, by omega⟩

end Trace

/-! ### Summaries that are derived again -/

/-- The event is a change of the graph of `f`: a splice that reports one, or an escape at a call. -/
def Event.Changes (f : FuncId) : Event → Prop
  | .splice c changed => c.site.caller = f ∧ changed = true
  | .escape c => c.site.caller = f
  | _ => False

/-- After every change of the graph of `f` its summary was derived. -/
def Rederived (log : List Event) (f : FuncId) : Prop :=
  ∀ before event after, log = before ++ event :: after → event.Changes f → ∃ changed,
    .derive f changed ∈ after

theorem Rederived.concat {event : Event} (h : Rederived log f) (he : ¬ event.Changes f) :
    Rederived (log ++ [event]) f := by
  intro before event' after hlog hc
  rcases List.eq_nil_or_concat after with rfl | ⟨after, last, rfl⟩
  · cases (List.append_inj' hlog rfl).2
    exact absurd hc he
  · rw [List.concat_eq_append, ← List.cons_append, ← List.append_assoc] at hlog
    obtain ⟨changed, hd⟩ := h before event' after (List.append_inj' hlog rfl).1 hc
    exact ⟨changed, by simp [hd]⟩

theorem rederived_derive (log : List Event) (f : FuncId) (changed : Bool) :
    Rederived (log ++ [.derive f changed]) f := by
  intro before event after hlog hc
  rcases List.eq_nil_or_concat after with rfl | ⟨after, last, rfl⟩
  · cases (List.append_inj' hlog rfl).2
    cases hc
  · rw [List.concat_eq_append, ← List.cons_append, ← List.append_assoc] at hlog
    cases (List.append_inj' hlog rfl).2
    exact ⟨changed, by simp⟩

namespace Sweep

variable {x y : Sweep}

/-- A function whose summary is not behind had it derived after every change of its graph. -/
def Caught (x : Sweep) : Prop := ∀ f, ¬ x.update.Stale f → Rederived x.log f

/-- What is known about other functions stays as it is. -/
theorem stale_modify_of_ne {change : FuncInfo → FuncInfo} (hne : f ≠ g) :
    (u.modify f change).Stale g ↔ u.Stale g := by
  simp only [Stale, find?_modify, if_neg hne]

theorem stale_modify_self {change : FuncInfo → FuncInfo} (hf : u.infos.find? f = some info) :
    (u.modify f change).Stale f ↔ (change info).stale = true := by
  rw [modify_eq hf]
  simp [Stale, find?_modify]

/-- **One step**: a graph that changes leaves its summary behind, until that is derived. -/
theorem Caught.step (h : Caught x) (hstep : Step x y) : Caught y := by
  intro f hst
  cases hstep with
  | pass number => exact (h f hst).concat id
  | derive graph summary changed hf hstale =>
    rename_i u log f' info
    by_cases hne : f' = f
    · subst hne
      exact rederived_derive log f' changed
    · exact (h f (mt (stale_modify_of_ne hne).mpr hst)).concat id
  | splice call graph changed hcallee hsite hcaller hb =>
    by_cases hne : call.site.caller = f
    · subst hne
      rw [stale_modify_self hcaller, Bool.or_eq_true, not_or] at hst
      refine (h _ ?_).concat fun hc => hst.2 hc.2
      rintro ⟨info', hf', hstale⟩
      cases hcaller.symm.trans hf'
      exact hst.1 hstale
    · exact (h f (mt (stale_modify_of_ne hne).mpr hst)).concat fun hc => hne hc.1
  | keep summary hf =>
    rename_i u log f' info
    by_cases hne : f' = f
    · subst hne
      rw [stale_modify_self hf] at hst
      refine h _ ?_
      rintro ⟨info', hf', hstale⟩
      cases hf.symm.trans hf'
      exact hst hstale
    · exact h f (mt (stale_modify_of_ne hne).mpr hst)
  | escape call graph hcallee hsite hcaller hb =>
    by_cases hne : call.site.caller = f
    · subst hne
      exact absurd ((stale_modify_self hcaller).mpr rfl) hst
    · exact (h f (mt (stale_modify_of_ne hne).mpr hst)).concat hne

/-- **A run.** -/
theorem Caught.steps (h : Caught x) (hsteps : Steps x y) : Caught y := by
  induction hsteps with
  | refl => exact h
  | tail _ hstep ih => exact ih.step hstep

end Sweep

/-! ### Escapes at calls -/

namespace Graph

variable {s : Scope} {gr gr' : Graph} {i : InstId} {v : ValueId} {n : NodeId} {inst : Inst}

/-- The results of an instruction with an effect are no function references. -/
theorem isFunctionRef_of_effect (hfunc : s.func.ResultsTraced) {effect : Effect}
    (heffect : Effect.of s i = .ok effect) (hne : effect ≠ .none) (hinst : s.func.inst i = .ok inst)
    (hv : v ∈ inst.results) : s.isFunctionRef v = .ok false := by
  rw [Scope.isFunctionRef, Scope.definition?_of_result hfunc hinst hv, ok_bind]
  split
  · rename_i f hop
    obtain ⟨inst', hinst', hrest⟩ := ofOperation_of_effect heffect hne
    cases hinst.symm.trans hinst'
    rw [show inst.op = .functionRef f from Option.some.inj hop] at hrest
    cases hrest
    exact absurd rfl hne
  · rfl

/-- A value that was let go in a graph that was completed, or is as it was made. -/
theorem LetGo.global (h : LetGo s gr v) (hgrown : Grown s gr)
    (hend : gr' = gr ∨ Update.complete s gr = .ok gr') (href : s.isFunctionRef v = .ok false)
    (hn : gr'.nodeOf? s v = .ok (some n)) : (gr'.node n).state = .globalEscaping := by
  obtain ⟨hforward, hentered⟩ : Forward gr gr' ∧ ∀ r m, gr'.At r m → s.Defined r ∨ ∃ k,
      gr.At r k := by
    rcases hend with rfl | hcomplete
    · exact ⟨.refl hgrown.settled, fun r m hm => .inr ⟨m, hm⟩⟩
    · exact complete_forward (roots_defined s) hgrown.settled hcomplete
  obtain ⟨-, hpointer, r, hr, hat⟩ := nodeOf?_iff.mp hn
  have hdefined : s.Defined r := (hentered r n hat).elim id fun ⟨k, hk⟩ => (hgrown.keyed r k hk).1
  obtain ⟨anchor, ha, rfl⟩ := Scope.anchor?_of_root href hpointer hr hdefined
  obtain ⟨m, hat', hglobal⟩ := h.follows hgrown.settled hforward.2 anchor ha
  cases hat.unique hat'
  exact hglobal

end Graph

namespace Analysis

/-- What an instruction that invokes a function touches: its operands, constant addresses excepted,
and its results. -/
def Touches (s : Scope) (i : InstId) (v : ValueId) : Prop :=
  ∃ inst, s.func.inst i = .ok inst ∧ (v ∈ inst.op.operands ∧ s.isReadOnly v = .ok false ∨
    v ∈ inst.results)

/-- What is touched by an invocation is no function reference. -/
theorem Invocation.isFunctionRef {s : Scope} {i : InstId} {v : ValueId} (h : a.Invocation s i f)
    (hfunc : s.func.ResultsTraced) (hv : Touches s i v) : s.isFunctionRef v = .ok false := by
  obtain ⟨inst, hinst, ⟨-, hread⟩ | hv⟩ := hv
  · exact Scope.isFunctionRef_of_not_readOnly hread
  · cases h with
    | call heffect _ _ => exact isFunctionRef_of_effect hfunc heffect nofun hinst hv
    | release heffect _ => exact isFunctionRef_of_effect hfunc heffect nofun hinst hv

/-- **The fallback.** If pass number `limit` was made, everything that a recorded call of a function
touches escapes globally, as far as this update built the function. -/
theorem Stages.fallback {v w : Update} {early : List Event} (h : Stages p a root v w u early log)
    (hp : p.ResultsTraced) (ht : Tidy a) (hpass : .pass a.config.maxGraphMerges ∈ log)
    (hf : u.infos.find? f = some info) {site : CallSite} (hsite : site ∈ info.callers)
    (hcall : .call ⟨site, f⟩ ∈ early) {caller : FuncInfo} {s : Scope}
    (hcaller : u.infos.find? site.caller = some caller) (hs : Scope.of? p site.caller = some s)
    (hvalid : caller.graph.valid = true) {x : ValueId} (hx : Touches s site.site x) {n : NodeId}
    (hn : caller.graph.nodeOf? s x = .ok (some n)) :
    (caller.graph.node n).state = .globalEscaping := by
  obtain ⟨late, hlog, hpasses⟩ := h.passed
  obtain ⟨hwork, htends, hescapes⟩ := Trace.passes_tends _ _ _ (h.inWork hp ht) hpasses
  have hlate : a.config.maxGraphMerges ∈ passNumbers late := by
    rw [hlog] at hpass
    refine mem_passNumbers.mpr ((List.mem_append.mp hpass).resolve_left fun hearly => ?_)
    cases h.recorded.search _ hearly
  -- the callee was passed over, and the caller was built
  obtain ⟨hbuild, hvisit⟩ := h.recorded.calls _ hcall
  have horder : f ∈ v.order := h.ordered.mem_order.mpr (hvisit.resolve_right nofun)
  obtain ⟨info₁, hf₁, hcompleted⟩ := h.completed.back f info hf
  obtain ⟨caller₁, hcaller₁, hfinished⟩ := finish_finished h.nodup h.finished _ caller hcaller
  have hb : caller₁.builtIn = w.number := by
    obtain ⟨info', hinfo', hb⟩ := Sweep.rebuilt_alike h.steps.alike ((h.rebuilt_iff ht).mpr hbuild)
    cases hcaller₁.symm.trans hinfo'
    exact hb
  obtain ⟨s', hs', hgrown⟩ := hwork.grown _ caller₁ hcaller₁ hb
  cases hs.symm.trans hs'
  have hend : caller.graph = caller₁.graph ∨
      Update.complete s caller₁.graph = .ok caller.graph := by
    refine hfinished.graph.imp_right ?_
    rintro ⟨-, s', hs', hcomplete⟩
    cases hs.symm.trans hs'
    exact hcomplete
  have hvalid₁ : caller₁.graph.valid = true := by
    rcases hend with he | hcomplete
    · exact he ▸ hvalid
    · exact (complete_forward (roots_defined s) hgrown.settled
        hcomplete).1.2.valid.symm.trans hvalid
  have hescaped := hescapes hlate f horder info₁ hf₁ site (hcompleted.callers ▸ hsite) caller₁ s
    hcaller₁ hb hs hvalid₁
  -- the operands and results are no function references, and so they were let go under the node
  -- they have
  obtain ⟨s', hs', -, hinv⟩ := h.founded hcall
  cases hs.symm.trans hs'
  have href := hinv.isFunctionRef (hp _ _ (Scope.of?_spec hs).2.2) hx
  obtain ⟨inst, hinst, ⟨hop, hread⟩ | hres⟩ := hx
  · exact ((hescaped inst hinst).1 x hop hread).global hgrown hend href hn
  · exact ((hescaped inst hinst).2 x hres).global hgrown hend href hn

end Analysis

open Analysis

/-- **An update ends, and nothing is missed where it falls back.** Take any history of an analysis,
and an update of a function of a program. However many passes the loop over the functions is
allowed, it makes at most two more than the limit, which are numbered from zero. If pass number
`limit` is made, then in the end everything that a recorded call or release touches escapes globally
where it has a node, in every graph that this update built and did not give up; here the results of
instructions have to come from them, as they do in every program that steps make
(`Draft.resultsTraced_of_assemble`). Whatever happens, the summary of a function is derived again
after each splice into its graph that reports a change and after each escape at one of its calls. -/
theorem History.update_fallback (h : History a spliced) (hroot : (p.func? root).isSome)
    (hok : a.update p root = .ok a') : ∃ u log, (Trace.update a p root).run = .ok (u, log) ∧
    a'.infos = u.infos ∧
      (∀ extra v, Update.passes p a.config.maxGraphMerges
        (a.config.maxGraphMerges + 2 + extra) 0 v =
        Update.passes p a.config.maxGraphMerges (a.config.maxGraphMerges + 2) 0 v) ∧
      (∃ k ≤ a.config.maxGraphMerges + 2, passNumbers log = List.range k) ∧
      (p.ResultsTraced → .pass a.config.maxGraphMerges ∈ log → ∀ f info, a'.info? f = some info →
        ∀ site ∈ info.callers,
        .build site.caller ∈ log → ∀ caller s, a'.info? site.caller = some caller →
        Scope.of? p site.caller = some s → caller.graph.valid = true → ∀ x n,
        Touches s site.site x → caller.graph.nodeOf? s x = .ok (some n) →
          (caller.graph.node n).state = .globalEscaping) ∧
      ∀ f, Rederived log f := by
  obtain ⟨u, log, hrun, rfl⟩ := Trace.update_ok.mp hok
  have ht := h.tidy.1
  obtain ⟨v, w, early, hs⟩ := ht.stages hroot hrun
  obtain ⟨late, hlog, hpasses⟩ := hs.passed
  refine ⟨u, log, hrun, rfl, fun extra v => passes_extra p _ extra _ 0 v (by omega) (by omega), ?_,
    fun hp hpass f info hf site hsite hb caller s hcaller hscope hvalid
    x n hx hn => ?_, fun f => ?_⟩
  · obtain ⟨k, hk, hle⟩ := Trace.passes_numbers _ 0 v (by omega) hpasses
    have hearly : passNumbers early = [] := by
      refine List.filterMap_eq_nil_iff.mpr fun event hevent => ?_
      have hsearch := hs.recorded.search event hevent
      cases event with
      | pass number => cases hsearch
      | _ => rfl
    refine ⟨k, by omega, ?_⟩
    rw [hlog, passNumbers, List.filterMap_append]
    exact (congrArg₂ _ hearly hk).trans List.range_eq_range'.symm
  · have hcall := (ht.update hroot hrun).recorded f info hf site hsite hb
    exact hs.fallback hp ht hpass hf hsite ((hs.mem_log rfl).mp hcall) hcaller hscope hvalid hx hn
  · -- a search changes no graph
    have hstart : Sweep.Caught ⟨v, early⟩ := by
      rintro f - before event after he hc
      have hsearch := hs.recorded.search event (by dsimp only at he ⊢; simp [he])
      cases event with
      | splice call changed => cases hsearch
      | escape call => cases hsearch
      | _ => cases hc
    exact hstart.steps hs.steps f (hs.fresh f)

/-- An analysis that merges summaries only once. -/
def hasty : Analysis := ofConfig { Preset.balanced.config with maxGraphMerges := 1 }

set_option synthInstance.maxSize 1024

/-- The two functions that pass their parameter to each other are finished conservatively, and so
the result of the call in the first one escapes. -/
theorem History.update_fallback_twins : ∃ a', hasty.update twins ⟨0⟩ = .ok a' ∧
    ∃ u log, (Trace.update hasty twins ⟨0⟩).run = .ok (u, log) ∧ passNumbers log = [0, 1, 2] ∧
      (∃ caller ∈ a'.info? ⟨0⟩, ∃ s ∈ Scope.of? twins ⟨0⟩,
        caller.graph.nodeOf? s ⟨1⟩ = .ok (some ⟨4⟩) ∧
        (caller.graph.node ⟨4⟩).state = .globalEscaping) ∧
      .escape ⟨⟨⟨0⟩, ⟨0⟩⟩, ⟨1⟩⟩ ∈ log ∧ ∃ changed, .derive ⟨0⟩ changed ∈ log := by
  have hupdate : ∃ a', hasty.update twins ⟨0⟩ = .ok a' ∧ ∃ caller ∈ a'.info? ⟨0⟩,
    ∃ callee ∈ a'.info? ⟨1⟩,
      ∃ s ∈ Scope.of? twins ⟨0⟩, ∃ inst, s.func.inst ⟨0⟩ = .ok inst ∧ ⟨1⟩ ∈ inst.results ∧
        ⟨⟨0⟩, ⟨0⟩⟩ ∈ callee.callers ∧ caller.graph.valid = true ∧
        caller.graph.nodeOf? s ⟨1⟩ = .ok (some ⟨4⟩) := by
    decide +kernel
  have htrace : ∃ r, (Trace.update hasty twins ⟨0⟩).run = .ok r ∧ passNumbers r.2 = [0, 1, 2] ∧
      .build ⟨0⟩ ∈ r.2 ∧ .escape ⟨⟨⟨0⟩, ⟨0⟩⟩, ⟨1⟩⟩ ∈ r.2 := by
    decide +kernel
  obtain ⟨a', hupdate, caller, hcaller, callee, hcallee, s, hs, inst, hinst, hresult, hsite,
    hvalid, hn⟩ := hupdate
  obtain ⟨⟨u', log'⟩, hrun', hnumbers, hbuild, hescape⟩ := htrace
  have hstart : History hasty fun _ => False := .start rfl
  obtain ⟨u, log, hrun, -, -, -, hfallback, hderived⟩ :=
    hstart.update_fallback (by decide +kernel : (twins.func? ⟨0⟩).isSome) hupdate
  cases hrun.symm.trans hrun'
  have hpass : .pass hasty.config.maxGraphMerges ∈ log' :=
    mem_passNumbers.mp (by rw [hnumbers]; decide)
  obtain ⟨before, after, rfl⟩ := List.append_of_mem hescape
  obtain ⟨changed, hderive⟩ := hderived ⟨0⟩ before _ after rfl rfl
  refine ⟨a', hupdate, u', _, hrun, hnumbers, ⟨caller, hcaller, s, hs, hn, ?_⟩, hescape,
    changed, by simp [hderive]⟩
  exact hfallback twins_built.sound.resultsTraced hpass ⟨1⟩ callee hcallee _ hsite hbuild caller s
    hcaller hs hvalid ⟨1⟩ ⟨4⟩ ⟨inst, hinst, .inr hresult⟩ hn

end Escape
