import Escape.Proofs.Analysis.Completed
import Escape.Proofs.Analysis.Rounds

/-!
# Histories of an analysis

An analysis outlives many changes of the program. A history is any sequence of updates and reports
of changes, each with the program as it is at that time, together with the splices that the current
graphs were made with. Whatever the history, everything that is known is final, the recorded calls
cover all splices, and so dropping a function drops all that depends on it.

- `Analysis.Invokes`, `Analysis.mem_dependents_iff`: the dependents of a function are the functions
  from which it is reachable along recorded calls.
- `History.invalidation_exact`: **dropping a function drops exactly the functions that depend on
  it.**
- `History.update_callees_first`: **an update visits each function once, and callees before their
  callers.**
-/

namespace Escape

open Relation Update Search

variable {p : Program} {f g root : FuncId} {u : Update} {info : FuncInfo} {log : List Event}
  {a a' : Analysis} {spliced : Call → Prop}

/-! ### Dependents -/

namespace Analysis

/-- A call of `g` in `c` is recorded. -/
def Invokes (a : Analysis) (c g : FuncId) : Prop :=
  ∃ info, a.info? g = some info ∧ ∃ site ∈ info.callers, site.caller = c

/-- All callers that are recorded, with repetitions. -/
def allCallers (a : Analysis) : List FuncId :=
  a.infos.entries.flatMap fun e => e.2.callers.map (·.caller)

theorem length_allCallers (a : Analysis) :
    1 + a.allCallers.length = a.infos.entries.foldl (fun n e => n + e.2.callers.length) 1 := by
  have hfold : ∀ (l : List (FuncId × FuncInfo)) (n : Nat),
    l.foldl (fun n e => n + e.2.callers.length) n =
      n + (l.flatMap fun e => e.2.callers.map (·.caller)).length := by
    intro l
    induction l with
    | nil => exact fun _ => rfl
    | cons e l ih =>
      intro n
      rw [List.foldl_cons, ih, List.flatMap_cons, List.length_append,
        List.length_map, Nat.add_assoc]
  rw [allCallers, hfold]

/-- The callers that are recorded for a function. -/
def callersOf (a : Analysis) (f : FuncId) : List FuncId :=
  ((a.info? f).map (·.callers)).getD [] |>.map (·.caller)

theorem mem_callersOf : g ∈ a.callersOf f ↔ a.Invokes g f := by
  unfold callersOf Invokes
  cases a.info? f with
  | none => simp
  | some info => simp

/-- **The dependents of a function** are the functions from which it is reachable. -/
theorem mem_dependents_iff : g ∈ a.dependents f ↔ ReflTransGen a.Invokes g f := by
  -- the walk stays among the recorded callers, and its bound allows for all of them
  have hU : ∀ c ∈ a.dependents f, c ∈ f :: a.allCallers := by
    refine closure_induct List.mem_cons_self fun b c _ hc => List.mem_cons_of_mem f ?_
    obtain ⟨info, hb, site, hsite, rfl⟩ := mem_callersOf.mp hc
    exact List.mem_flatMap.mpr ⟨(b, info), AssocMap.mem_of_lookup hb,
      List.mem_map.mpr ⟨site, hsite, rfl⟩⟩
  have hlength : (f :: a.allCallers).length ≤
      a.infos.entries.foldl (fun n e => n + e.2.callers.length) 1 := by
    rw [← length_allCallers, List.length_cons, Nat.add_comm]
  have hclosure : g ∈ a.dependents f ↔ ReflTransGen (fun x y => y ∈ a.callersOf x) f g :=
    mem_closure_iff hU hlength g
  rw [hclosure, ← reflTransGen_swap]
  exact iff_of_eq (congrArg (fun r => ReflTransGen r g f)
    (funext fun x => funext fun y => propext mem_callersOf))

end Analysis

/-! ### After a search -/

namespace Search

variable {max : Nat} {start : Update}

theorem Ordered.mem_order (h : Ordered root max ⟨u, [], none, log⟩) :
    f ∈ u.order ↔ .visit f ∈ log := by
  rw [← mem_visits, h.visits.mem_iff, listed, List.append_nil, Array.mem_toList_iff]

/-- In the end every function that was visited has its place. -/
theorem Ordered.allPlaced (h : Ordered root max ⟨u, [], none, log⟩) : Placed u := by
  intro j f
  constructor
  · intro hj
    have hmem : f ∈ listed ⟨u, [], none, log⟩ :=
      List.mem_append_left _ (Array.mem_toList_iff.mpr (Array.mem_of_getElem? hj))
    have hv := (h.visited f).mpr hmem
    exact ⟨u.known f, find?_of_visited h.pos hv, hv, h.placed j f hj⟩
  · rintro ⟨info, hf, hv, hj⟩
    rw [← known_of_find? hf] at hv hj
    have hmem := (h.visited f).mp hv
    rw [listed, List.append_nil, Array.mem_toList_iff] at hmem
    obtain ⟨k, hk⟩ := Array.getElem?_of_mem hmem
    cases (h.placed k f hk).symm.trans hj
    exact hk

/-- The functions that were built, seen from their marks. -/
theorem Recorded.rebuilt_iff {x : Search} (h : Recorded p start x)
    (hstart : ∀ f, (start.known f).builtIn ≠ start.number) :
    x.update.Rebuilt f ↔ .build f ∈ x.log := by
  constructor
  · rintro ⟨info, hf, hb⟩
    by_contra hnb
    obtain ⟨-, -, -, hold⟩ := (h.since f).unbuilt hnb
    rw [known_of_find? hf, hb, h.number] at hold
    exact hstart f hold.symm
  · intro hb
    obtain ⟨hvisit, -, hbuilt⟩ := (h.since f).built hb
    obtain ⟨info, hf⟩ := Option.isSome_iff_exists.mp (h.find?_isSome hvisit)
    rw [known_of_find? hf] at hbuilt
    exact ⟨info, hf, hbuilt.trans h.number.symm⟩

end Search

/-! ### Updates -/

namespace Analysis

/-- What holds between two calls of a client, whatever the program is. -/
structure Tidy (a : Analysis) : Prop where
  final : ∀ f info, a.infos.find? f = some info → info.computed = true ∧ info.stale = false
  stamped : Stamped a
  edges : ∀ f info, a.infos.find? f = some info → ∀ site ∈ info.callers,
    (a.infos.find? site.caller).isSome

theorem Tidy.known (h : Tidy a) (f : FuncId) : (a.begun.known f).stale = false ∧
    ((a.begun.known f).computed = true ↔ (a.infos.find? f).isSome) := by
  cases hf : a.infos.find? f with
  | none =>
    rw [Update.known, begun, hf]
    exact ⟨rfl, iff_of_false Bool.false_ne_true Bool.false_ne_true⟩
  | some info =>
    rw [known_of_find? hf]
    obtain ⟨hc, hst⟩ := h.final f info hf
    exact ⟨hst, iff_of_true hc rfl⟩

/-- What was not built is as it was between two calls, and so its summary is up to date. -/
theorem Tidy.build_of_stale {v : Update} {early : List Event} (h : Tidy a)
    (hrecorded : Recorded p a.begun ⟨v, [], none, early⟩) (hst : v.Stale f) : .build f ∈ early := by
  obtain ⟨info, hf, hst⟩ := hst
  by_contra hno
  obtain ⟨-, -, hold, -⟩ := (hrecorded.since f).unbuilt hno
  rw [known_of_find? hf, hst, (h.known f).1] at hold
  cases hold

/-- The stages of an update: `v` after the search, `w` after the passes, and `u` in the end. -/
structure Stages (p : Program) (a : Analysis) (root : FuncId) (v w u : Update)
    (early log : List Event) : Prop where
  ordered : Ordered root a.config.maxRecursionDepth ⟨v, [], none, early⟩
  recorded : Recorded p a.begun ⟨v, [], none, early⟩
  steps : Sweep.Steps ⟨v, early⟩ ⟨w, log⟩
  fresh : ∀ g, ¬ w.Stale g
  completed : Alike FuncInfo.Completed w u
  done : ∀ f, .build f ∈ early → ∃ info, u.infos.find? f = some info ∧ info.computed = true
  built : ∃ u₀, (Trace.build a p a.config.maxRecursionDepth root a.begun).run = .ok (u₀, early) ∧
    v = u₀.place root
  passed : ∃ late, log = early ++ late ∧
    (Trace.passes p a.config.maxGraphMerges (a.config.maxGraphMerges + 2) 0 v).run = .ok (w, late)
  finished : w.order.toList.foldlM (finish p a.config.verifyGraphs) w = .ok u

theorem Tidy.stages (h : Tidy a) (hroot : (p.func? root).isSome)
    (hok : (Trace.update a p root).run = .ok (u, log)) :
    ∃ v w early, Stages p a root v w u early log := by
  obtain ⟨u₀, early, es, hbuild, hrun, rfl⟩ := Logged.bind_ok.mp hok
  obtain ⟨w, late, es', hpasses, hend, rfl⟩ := Logged.bind_ok.mp hrun
  obtain ⟨hfinish, rfl⟩ := Logged.lift_ok.mp hend
  have hsearch := Trace.build_run h.stamped hroot hbuild
  have hordered := h.stamped.ordered.steps hsearch
  have hrecorded := h.stamped.recorded.steps hsearch
  have hstart (f : FuncId) : (a.begun.known f).builtIn ≠ a.begun.number :=
    Nat.ne_of_lt (Nat.lt_succ_of_le (h.stamped.known f).1)
  have hrebuilt (f : FuncId) : (u₀.place root).Rebuilt f ↔ .build f ∈ early :=
    hrecorded.rebuilt_iff hstart
  have hstale (f : FuncId) (hst : (u₀.place root).Stale f) : (u₀.place root).Rebuilt f :=
    (hrebuilt f).mpr (h.build_of_stale hrecorded hst)
  have hall (f : FuncId) (hb : (u₀.place root).Rebuilt f) : f ∈ (u₀.place root).order :=
    hordered.mem_order.mpr ((hrecorded.since f).built ((hrebuilt f).mp hb)).1
  obtain ⟨hsteps, hfresh⟩ := Trace.passes_steps _ 0 _ early (by omega) (by omega) hordered.allPlaced
    hstale hall hpasses
  obtain ⟨hcompleted, hdone⟩ := finish_all hfinish
  have halike := hsteps.alike
  rw [List.append_nil]
  refine ⟨u₀.place root, w, early, hordered, hrecorded, hsteps, hfresh, hcompleted, fun f hb => ?_,
    ⟨u₀, hbuild, rfl⟩, ⟨late, rfl, hpasses⟩, hfinish⟩
  have hbuilt := (hrebuilt f).mpr hb
  refine hdone f ?_ (hrecorded.declared f hb) (Sweep.rebuilt_alike halike hbuilt)
  rw [Array.mem_toList_iff, halike.order]
  exact hall f hbuilt

namespace Stages

variable {v w : Update} {early : List Event}

variable (h : Stages p a root v w u early log)
include h

/-- All that is told about the search was told before the passes. -/
theorem mem_log {event : Event} (he : event.isSearch = true) : event ∈ log ↔ event ∈ early := by
  obtain ⟨more, hlog, hmore⟩ := h.steps.events
  dsimp only at hlog
  rw [hlog, List.mem_append, or_iff_left fun hm => ?_]
  cases he.symm.trans (hmore event hm)

theorem visits_eq : visits log = visits early := by
  obtain ⟨more, hlog, hmore⟩ := h.steps.events
  have hnone : visits more = [] := by
    refine List.filterMap_eq_nil_iff.mpr fun event hevent => ?_
    have he := hmore event hevent
    cases event with
    | visit f => cases he
    | _ => rfl
  dsimp only at hlog
  rw [hlog, visits, List.filterMap_append]
  exact (congrArg _ hnone).trans (List.append_nil _)

theorem order_eq : u.order = v.order :=
  h.completed.order.trans h.steps.alike.order

theorem calls_mono {c g : FuncId} (hc : Calls early c g) : Calls log c g :=
  hc.imp fun _ hi => (h.mem_log rfl).mpr hi

/-- What was known after the search is known in the end. -/
theorem forth (hf : v.infos.find? f = some info) :
    ∃ info', u.infos.find? f = some info' ∧ info'.callers = info.callers := by
  obtain ⟨info₁, hf₁, hmarks⟩ := h.steps.alike.forth f info hf
  obtain ⟨info₂, hf₂, hcompleted⟩ := h.completed.forth f info₁ hf₁
  exact ⟨info₂, hf₂, hcompleted.callers.trans hmarks.callers⟩

/-- What is known in the end is final, and otherwise as it was after the search. -/
theorem back (ht : Tidy a) (hf : u.infos.find? f = some info) :
    (v.infos.find? f).isSome ∧ info.callers = (v.known f).callers ∧
    info.builtIn = (v.known f).builtIn ∧
      info.visitedIn = (v.known f).visitedIn ∧ info.stale = false ∧ info.computed = true := by
  obtain ⟨info₁, hf₁, hcompleted⟩ := h.completed.back f info hf
  obtain ⟨info₀, hf₀, hmarks⟩ := h.steps.alike.back f info₁ hf₁
  have hsince := h.recorded.since f
  dsimp only at hf₀ hsince
  rw [known_of_find? hf₀] at hsince ⊢
  refine ⟨by rw [hf₀]; rfl, hcompleted.callers.trans hmarks.callers,
    hcompleted.builtIn.trans hmarks.builtIn, hcompleted.visitedIn.trans hmarks.visitedIn, ?_, ?_⟩
  · rw [hcompleted.stale, ← Bool.not_eq_true]
    exact fun hst => h.fresh f ⟨info₁, hf₁, hst⟩
  · by_cases hb : .build f ∈ early
    · obtain ⟨info', hf', hc⟩ := h.done f hb
      cases hf.symm.trans hf'
      exact hc
    · -- a function that was not built was there at the start
      refine hcompleted.computed ?_
      rw [hmarks.computed, hsince.computed]
      rcases h.recorded.present f (by dsimp only; rw [hf₀]; rfl) with hstart | hvisit | hnone
      · exact (ht.known f).2.mpr hstart
      · exact (hsince.final hvisit).resolve_right hb
      · cases hnone

theorem isSome_of_search (hf : (v.infos.find? f).isSome) : (u.infos.find? f).isSome := by
  obtain ⟨info, hinfo⟩ := Option.isSome_iff_exists.mp hf
  obtain ⟨info', hinfo', -⟩ := h.forth hinfo
  rw [hinfo']
  rfl

/-- A call that is recorded in the end was recorded at the start or by the search. -/
theorem caller_cases (ht : Tidy a) (hf : u.infos.find? f = some info)
    {site : CallSite} (hsite : site ∈ info.callers) :
    (∃ old, a.infos.find? f = some old ∧ site ∈ old.callers) ∨ .call ⟨site, f⟩ ∈ early := by
  obtain ⟨-, hcallers, -⟩ := h.back ht hf
  rw [hcallers] at hsite
  refine ((h.recorded.since f).callers site |>.mp hsite).imp_left fun hold => ?_
  exact ⟨_, find?_of_mem_callers hold, hold⟩

end Stages

/-- What an update of `root` does to an analysis, as far as its log tells. -/
structure Outcome (a : Analysis) (root : FuncId) (u : Update) (log : List Event) : Prop where
  tidy : Tidy { a with infos := u.infos, updates := a.updates + 1 }
  visits : (visits log).Perm u.order.toList
  nodup : u.order.toList.Nodup
  depth : ∀ f, .build f ∈ log → Within (Calls log) root a.config.maxRecursionDepth f
  calls : ∀ call, .call call ∈ log → List.Sublist [call.callee, call.site.caller] u.order.toList ∨
    ReflTransGen (Calls log) call.callee call.site.caller
  recorded : ∀ f info, u.infos.find? f = some info → ∀ site ∈ info.callers,
    .build site.caller ∈ log → .call ⟨site, f⟩ ∈ log
  kept : ∀ f info, a.infos.find? f = some info →
    ∃ info', u.infos.find? f = some info' ∧ ∀ site ∈ info.callers, site ∈ info'.callers
  present : ∀ f, (u.infos.find? f).isSome → .build f ∈ log ∨ (a.infos.find? f).isSome
  splices : ∀ call changed, .splice call changed ∈ log →
    ∃ info, u.infos.find? call.callee = some info ∧ call.site ∈ info.callers

theorem Tidy.update (h : Tidy a) (hroot : (p.func? root).isSome)
    (hok : (Trace.update a p root).run = .ok (u, log)) : Outcome a root u log := by
  obtain ⟨v, w, early, hs⟩ := h.stages hroot hok
  have hordered := hs.ordered
  have hrecorded := hs.recorded
  have hlisted : listed ⟨v, [], none, early⟩ = u.order.toList := by
    rw [listed, List.append_nil, hs.order_eq]
  refine ⟨⟨fun f info hf => ?_, fun f info hf => ?_, fun f info hf site hsite => ?_⟩, ?_, ?_,
    fun f hf => ?_, fun call hcall => ?_, fun f info hf site hsite hb => ?_, fun f info hf => ?_,
    fun f hf => ?_, fun call changed hcall => ?_⟩
  · obtain ⟨-, -, -, -, hst, hc⟩ := hs.back h hf
    exact ⟨hc, hst⟩
  · obtain ⟨-, -, hb, hv, -, -⟩ := hs.back h hf
    obtain ⟨hv', hb'⟩ := (hrecorded.since f).early
    exact ⟨hb ▸ hb', hv ▸ hv'⟩
  · rcases hs.caller_cases h hf hsite with ⟨old, hold, hsite⟩ | hcall
    · exact hs.isSome_of_search (hrecorded.kept _ (h.edges f old hold site hsite))
    · have hvisit := ((hrecorded.since _).built (hrecorded.calls _ hcall).1).1
      exact hs.isSome_of_search (hrecorded.find?_isSome hvisit)
  · rw [hs.visits_eq, ← hlisted]
    exact hordered.visits
  · rw [← hlisted]
    exact hordered.nodup
  · exact (hordered.depth f ((hs.mem_log rfl).mp hf)).mono fun _ _ => hs.calls_mono
  · rw [← hlisted]
    rcases hordered.calls call ((hs.mem_log rfl).mp hcall) with hbefore | hreach | hnext
    · exact .inl hbefore
    · exact .inr (hreach.lift id fun _ _ => hs.calls_mono)
    · cases hnext.1
  · rcases hs.caller_cases h hf hsite with ⟨old, hold, hsite⟩ | hcall
    · -- a function that is built anew was not there at the start, and so it called nothing
      obtain ⟨-, hc, -⟩ := (hrecorded.since _).built ((hs.mem_log rfl).mp hb)
      cases hc.symm.trans ((h.known _).2.mpr (h.edges f old hold site hsite))
    · exact (hs.mem_log rfl).mpr hcall
  · have hpresent := hrecorded.kept f (by rw [begun, hf]; rfl)
    obtain ⟨info₀, hf₀⟩ := Option.isSome_iff_exists.mp hpresent
    obtain ⟨info', hf', hcallers⟩ := hs.forth hf₀
    refine ⟨info', hf', fun site hsite => ?_⟩
    rw [hcallers, ← known_of_find? hf₀]
    refine ((hrecorded.since f).callers site).mpr (.inl ?_)
    rw [Update.known_of_find? (show a.begun.infos.find? f = some info from hf)]
    exact hsite
  · obtain ⟨info, hinfo⟩ := Option.isSome_iff_exists.mp hf
    obtain ⟨hv, -⟩ := hs.back h hinfo
    rcases hrecorded.present f hv with hstart | hvisit | hnone
    · exact .inr hstart
    · rcases (hrecorded.since f).final hvisit with hc | hb
      · exact .inr ((h.known f).2.mp hc)
      · exact .inl ((hs.mem_log rfl).mpr hb)
    · cases hnone
  · -- a search splices nothing, so at the start of the passes there is nothing to show
    have hhonest : Sweep.Honest ⟨v, early⟩ := by
      intro call changed hcall
      cases (hrecorded.search _ hcall)
    obtain ⟨info₁, hf₁, hsite⟩ := hhonest.steps hs.steps call changed hcall
    obtain ⟨info₂, hf₂, hcompleted⟩ := hs.completed.forth _ info₁ hf₁
    exact ⟨info₂, hf₂, hcompleted.callers ▸ hsite⟩

/-! ### Reports of changes -/

theorem tidy_of_empty (h : a.infos = {}) : Tidy a := by
  have hnone := find?_of_empty h
  exact ⟨fun f info hf => absurd hf (hnone f info), fun f info hf => absurd hf (hnone f info),
    fun f info hf => absurd hf (hnone f info)⟩

theorem Tidy.invalidate (h : Tidy a) (f : FuncId) : Tidy (a.invalidate f) where
  final g info hg := by
    obtain ⟨-, old, hold, rfl⟩ := find?_invalidate hg
    exact h.final g old hold
  stamped g info hg := by
    obtain ⟨-, old, hold, rfl⟩ := find?_invalidate hg
    exact h.stamped g old hold
  edges g info hg site hsite := by
    obtain ⟨-, old, hold, rfl⟩ := find?_invalidate hg
    obtain ⟨hsite, hkeep⟩ := List.mem_filter.mp hsite
    obtain ⟨caller, hcaller⟩ := Option.isSome_iff_exists.mp (h.edges g old hold site hsite)
    rw [find?_invalidate_of_not_mem (of_decide_eq_true hkeep) hcaller]
    rfl

/-- What is known after an instruction was taken out: the graph of its function is another one, and
its calls are dropped. -/
theorem find?_forget {i : InstId} (hok : a.forget p f i = .ok a') : a'.updates = a.updates ∧
    ∀ g, ∃ graph : Graph → Graph, a'.infos.find? g = (a.infos.find? g).map fun info =>
      { info.filterCallers (· ≠ ⟨f, i⟩) with graph := graph info.graph } := by
  have hforget (results : List ValueId) (h : (pure { a with
      infos := (a.infos.modify f fun info =>
        { info with graph := info.graph.forget i results }).mapValues
          (·.filterCallers (· ≠ ⟨f, i⟩)) } : Checked Analysis) = .ok a') :
      a'.updates = a.updates ∧ ∀ g, ∃ graph : Graph → Graph,
      a'.infos.find? g = (a.infos.find? g).map fun info =>
        { info.filterCallers (· ≠ ⟨f, i⟩) with graph := graph info.graph } := by
    cases h
    refine ⟨rfl, fun g => ?_⟩
    rw [AssocMap.find?_mapValues, AssocMap.find?_modify]
    split
    · rename_i hfg
      subst hfg
      rw [Option.map_map]
      exact ⟨(·.forget i results), rfl⟩
    · exact ⟨id, rfl⟩
  unfold Analysis.forget at hok
  cases hfunc : p.func? f with
  | none =>
    rw [hfunc] at hok
    exact hforget [] hok
  | some func =>
    rw [hfunc] at hok
    obtain ⟨inst, -, hok⟩ := bind_ok.mp hok
    exact hforget inst.results hok

theorem Tidy.forget {i : InstId} (h : Tidy a) (hok : a.forget p f i = .ok a') : Tidy a' := by
  obtain ⟨hupdates, hfind⟩ := find?_forget hok
  have hback {g : FuncId} {info : FuncInfo} (hg : a'.infos.find? g = some info) : ∃ old,
    a.infos.find? g = some old ∧
      ∃ graph, info = { old.filterCallers (· ≠ ⟨f, i⟩) with graph } := by
    obtain ⟨graph, hmap⟩ := hfind g
    rw [hmap] at hg
    obtain ⟨old, hold, rfl⟩ := Option.map_eq_some_iff.mp hg
    exact ⟨old, hold, _, rfl⟩
  refine ⟨fun g info hg => ?_, fun g info hg => ?_, fun g info hg site hsite => ?_⟩
  · obtain ⟨old, hold, graph, rfl⟩ := hback hg
    exact h.final g old hold
  · obtain ⟨old, hold, graph, rfl⟩ := hback hg
    rw [hupdates]
    exact h.stamped g old hold
  · obtain ⟨old, hold, graph, rfl⟩ := hback hg
    obtain ⟨graph', hmap⟩ := hfind site.caller
    rw [hmap, Option.isSome_map]
    exact h.edges g old hold site (List.mem_filter.mp hsite).1

end Analysis

/-! ### Histories -/

open Analysis

/-- A history of an analysis: updates and reports of changes, each with the program as it is at that
time. Along with it go the splices that the current graphs were made with, apart from those at
instructions that were reported as deleted. An update replaces the splices of the functions that it
builds. -/
inductive History : Analysis → (Call → Prop) → Prop
  | start {a : Analysis} : a.infos = {} → History a fun _ => False
  | update {a : Analysis} {spliced : Call → Prop} {p : Program} {f : FuncId} {u : Update}
    {log : List Event} : History a spliced → (p.func? f).isSome →
    (Trace.update a p f).run = .ok (u, log) →
    History { a with infos := u.infos, updates := a.updates + 1 } fun call =>
      (∃ changed, .splice call changed ∈ log) ∨ spliced call ∧ .build call.site.caller ∉ log
  | invalidate {a : Analysis} {spliced : Call → Prop} (f : FuncId) :
    History a spliced → History (a.invalidate f) spliced
  | invalidateAll {a : Analysis} {spliced : Call → Prop} : History a spliced →
    History a.invalidateAll spliced
  | forget {a a' : Analysis} {spliced : Call → Prop} {p : Program} {f : FuncId} {i : InstId} :
    History a spliced → a.forget p f i = .ok a' → History a' fun call => spliced call ∧
    call.site ≠ ⟨f, i⟩

/-- The calls behind the current graphs are recorded. -/
def Listed (a : Analysis) (spliced : Call → Prop) : Prop :=
  ∀ call, spliced call → (a.infos.find? call.site.caller).isSome →
    ∃ info, a.infos.find? call.callee = some info ∧ call.site ∈ info.callers

theorem Listed.invalidate (h : Listed a spliced) (f : FuncId) :
    Listed (a.invalidate f) spliced := by
  intro call hcall hcaller
  obtain ⟨caller, hcaller⟩ := Option.isSome_iff_exists.mp hcaller
  obtain ⟨hkeep, old, hold, -⟩ := find?_invalidate hcaller
  obtain ⟨info, hf, hsite⟩ := h call hcall (by rw [hold]; rfl)
  -- if the callee were dropped, the caller would be, too
  have hcallee : call.callee ∉ a.dependents f := by
    intro hmem
    exact hkeep (mem_dependents_iff.mpr (.head ⟨info, hf, call.site, hsite, rfl⟩
      (mem_dependents_iff.mp hmem)))
  exact ⟨_, find?_invalidate_of_not_mem hcallee hf,
    List.mem_filter.mpr ⟨hsite, decide_eq_true hkeep⟩⟩

theorem Listed.forget {i : InstId} (h : Listed a spliced) (hok : a.forget p f i = .ok a') :
    Listed a' fun call => spliced call ∧ call.site ≠ ⟨f, i⟩ := by
  obtain ⟨-, hfind⟩ := find?_forget hok
  rintro call ⟨hcall, hne⟩ hcaller
  obtain ⟨graph, hmap⟩ := hfind call.site.caller
  rw [hmap, Option.isSome_map] at hcaller
  obtain ⟨info, hf, hsite⟩ := h call hcall hcaller
  obtain ⟨graph', hmap'⟩ := hfind call.callee
  rw [hmap', hf]
  exact ⟨_, rfl, List.mem_filter.mpr ⟨hsite, decide_eq_true hne⟩⟩

theorem Listed.update (h : Listed a spliced) (ho : Outcome a root u log) :
    Listed { a with infos := u.infos, updates := a.updates + 1 } fun call =>
      (∃ changed, .splice call changed ∈ log) ∨ spliced call ∧ .build call.site.caller ∉ log := by
  rintro call (⟨changed, hsplice⟩ | ⟨hcall, hnb⟩) hcaller
  · exact ho.splices call changed hsplice
  · -- the caller was not built, so it was there before, and its calls were recorded
    obtain ⟨info, hf, hsite⟩ := h call hcall ((ho.present _ hcaller).resolve_left hnb)
    obtain ⟨info', hf', hcallers⟩ := ho.kept _ info hf
    exact ⟨info', hf', hcallers _ hsite⟩

/-- **Between two calls of a client** everything is tidy, and all splices are recorded. -/
theorem History.tidy (h : History a spliced) : Tidy a ∧ Listed a spliced := by
  induction h with
  | start h => exact ⟨tidy_of_empty h, nofun⟩
  | update _ hf hok ih =>
    have ho := ih.1.update hf hok
    exact ⟨ho.tidy, ih.2.update ho⟩
  | invalidate f _ ih => exact ⟨ih.1.invalidate f, ih.2.invalidate f⟩
  | invalidateAll _ ih =>
    refine ⟨tidy_of_empty rfl, fun call _ hcaller => ?_⟩
    cases hcaller
  | forget _ hok ih => exact ⟨ih.1.forget hok, ih.2.forget hok⟩

/-- Every request continues the history. -/
theorem History.request (h : History a spliced) {r : Request} (hok : r.apply p a = .ok a') :
    ∃ spliced', History a' spliced' := by
  have hmoves := request_moves hok
  clear hok
  induction hmoves with
  | refl => exact ⟨_, h⟩
  | tail _ hmove ih =>
    obtain ⟨spliced₁, h₁⟩ := ih
    cases hmove with
    | update hupdate =>
      obtain ⟨f, hf, hok⟩ := hupdate
      obtain ⟨u, log, hrun, rfl⟩ := Trace.update_ok.mp hok
      exact ⟨_, h₁.update hf hrun⟩
    | invalidate f => exact ⟨_, h₁.invalidate f⟩
    | invalidateAll => exact ⟨_, h₁.invalidateAll⟩

/-! ### Invalidation and order -/

/-- **Dropping a function drops exactly the functions that depend on it.** After any history,
everything that is known is final and up to date, and callers are known. Every splice behind a
current graph is recorded at its callee. So dropping `f` drops the functions from which `f` is
reachable along recorded calls, and leaves the graphs and summaries of all others alone. Requests
and reports of deleted instructions lead to histories again. -/
theorem History.invalidation_exact (h : History a spliced) :
    (∀ f info, a.info? f = some info → info.computed = true ∧ info.stale = false ∧
      ∀ site ∈ info.callers, (a.info? site.caller).isSome) ∧
    (∀ call, spliced call → (a.info? call.site.caller).isSome →
      ∃ info, a.info? call.callee = some info ∧ call.site ∈ info.callers) ∧
    (∀ f g, (a.invalidate f).info? g = none ↔ a.info? g = none ∨ ReflTransGen a.Invokes g f) ∧
    (∀ f g info', (a.invalidate f).info? g = some info' →
      ∃ info, a.info? g = some info ∧ info'.graph = info.graph ∧ info'.summary = info.summary) ∧
    (∀ p r a', Request.apply p a r = .ok a' → ∃ spliced', History a' spliced') ∧
    ∀ p f i a', a.forget p f i = .ok a' → History a' fun call => spliced call ∧
    call.site ≠ ⟨f, i⟩ := by
  obtain ⟨htidy, hlisted⟩ := h.tidy
  refine ⟨fun f info hf => ?_, hlisted, fun f g => ?_, fun f g info' hg => ?_,
    fun p r a' hok => h.request hok, fun p f i a' hok => h.forget hok⟩
  · obtain ⟨hc, hst⟩ := htidy.final f info hf
    exact ⟨hc, hst, htidy.edges f info hf⟩
  · rw [← mem_dependents_iff]
    constructor
    · intro hnone
      by_contra hkept
      obtain ⟨hsome, hkeep⟩ := not_or.mp hkept
      obtain ⟨info, hg⟩ := Option.ne_none_iff_exists'.mp hsome
      cases hnone.symm.trans (find?_invalidate_of_not_mem hkeep hg)
    · intro hwhy
      cases hg : (a.invalidate f).info? g with
      | none => rfl
      | some info' =>
        obtain ⟨hkeep, old, hold, -⟩ := find?_invalidate hg
        rcases hwhy with hnone | hmem
        · cases hnone.symm.trans hold
        · exact absurd hmem hkeep
  · obtain ⟨-, old, hold, rfl⟩ := find?_invalidate hg
    exact ⟨old, hold, rfl, rfl⟩

/-- Steps that build two functions which call each other, and a call of the first one. -/
def ringSteps : List Step := [
  .intern (.object { name := "Node" }),
  .setFields ⟨0⟩ [⟨0⟩],
  .declare "ping" [⟨⟨0⟩, .guaranteed⟩] none,
  .inst ⟨0⟩ (.call (.direct ⟨1⟩) [⟨0⟩] none) none,
  .inst ⟨0⟩ (.ret none) none,
  .declare "pong" [⟨⟨0⟩, .guaranteed⟩] none,
  .value ⟨0⟩ (.globalAddr "last" false) (some ⟨0⟩),
  .inst ⟨0⟩ (.store ⟨0⟩ ⟨1⟩) none,
  .inst ⟨0⟩ (.call (.direct ⟨0⟩) [⟨0⟩] none) none,
  .inst ⟨0⟩ (.ret none) none,
  .declare "main" [] none,
  .value ⟨0⟩ (.allocRef ⟨0⟩) none,
  .inst ⟨0⟩ (.call (.direct ⟨0⟩) [⟨0⟩] none) none,
  .inst ⟨0⟩ (.ret none) none]

/-- The program with the two functions that call each other. -/
def ring : Program := (built ringSteps).program

/-- Dropping the second function of the ring drops the function that calls the first one. -/
theorem History.invalidation_exact_ring :
    ∃ a spliced, History a spliced ∧ spliced ⟨⟨⟨0⟩, ⟨0⟩⟩, ⟨1⟩⟩ ∧
    (∃ info, a.info? ⟨1⟩ = some info ∧ ⟨⟨0⟩, ⟨0⟩⟩ ∈ info.callers) ∧ (a.info? ⟨2⟩).isSome ∧
    (a.invalidate ⟨1⟩).info? ⟨2⟩ = none := by
  have hrun : ∃ r, (Trace.update (ofConfig Preset.balanced.config) ring ⟨2⟩).run = .ok r ∧
      .splice ⟨⟨⟨0⟩, ⟨0⟩⟩, ⟨1⟩⟩ true ∈ r.2 ∧ (r.1.infos.find? ⟨2⟩).isSome ∧
      (∃ info ∈ r.1.infos.find? ⟨1⟩, ⟨⟨0⟩, ⟨0⟩⟩ ∈ info.callers) ∧
      ∃ info ∈ r.1.infos.find? ⟨0⟩, ⟨⟨2⟩, ⟨1⟩⟩ ∈ info.callers := by
    decide +kernel
  obtain ⟨⟨u, log⟩, hrun, hsplice, hmain, ⟨pong, hpong, hping⟩, ping, hinfo, hcaller⟩ := hrun
  have hstart : History (ofConfig Preset.balanced.config) fun _ => False := .start rfl
  have hhistory := hstart.update (by decide +kernel : (ring.func? ⟨2⟩).isSome) hrun
  obtain ⟨hfinal, hlisted, hgone, -⟩ := hhistory.invalidation_exact
  have hlast := (hfinal ⟨1⟩ pong hpong).2.2 _ hping
  refine ⟨_, _, hhistory, .inl ⟨true, hsplice⟩, hlisted _ (.inl ⟨true, hsplice⟩) hlast, hmain,
    (hgone ⟨1⟩ ⟨2⟩).mpr (.inr ?_)⟩
  exact .tail (.single ⟨ping, hinfo, _, hcaller, rfl⟩) ⟨pong, hpong, _, hping, rfl⟩

/-- **An update visits callees before their callers.** It visits each function at most once, builds
only functions within the depth from the root, and lists each visited function once. A callee comes
before its caller, unless the caller is reachable from it along calls that this update recorded. All
recorded calls of a function that it builds are recorded by it. -/
theorem History.update_callees_first (h : History a spliced) (hroot : (p.func? root).isSome)
    (hok : a.update p root = .ok a') : ∃ u log, (Trace.update a p root).run = .ok (u, log) ∧
    a'.infos = u.infos ∧
      (visits log).Nodup ∧
      (∀ f, .build f ∈ log → Within (Calls log) root a.config.maxRecursionDepth f) ∧
      u.order.toList.Nodup ∧ (∀ f, f ∈ u.order ↔ .visit f ∈ log) ∧
      (∀ f info, a'.info? f = some info → ∀ site ∈ info.callers, .build site.caller ∈ log →
        .call ⟨site, f⟩ ∈ log) ∧
      ∀ call, .call call ∈ log → List.Sublist [call.callee, call.site.caller] u.order.toList ∨
        ReflTransGen (Calls log) call.callee call.site.caller := by
  obtain ⟨u, log, hrun, rfl⟩ := Trace.update_ok.mp hok
  have ho := h.tidy.1.update hroot hrun
  refine ⟨u, log, hrun, rfl, ho.visits.nodup_iff.mpr ho.nodup, ho.depth, ho.nodup, fun f => ?_,
    ho.recorded, ho.calls⟩
  rw [← Array.mem_toList_iff, ← ho.visits.mem_iff, mem_visits]

/-- The functions of the ring call each other, and the function that calls one of them comes last.
-/
theorem History.update_callees_first_ring :
    ∃ a', (ofConfig Preset.balanced.config).update ring ⟨2⟩ = .ok a' ∧ ∃ u log,
    (Trace.update (ofConfig Preset.balanced.config) ring ⟨2⟩).run = .ok (u, log) ∧
      u.order.toList = [⟨1⟩, ⟨0⟩, ⟨2⟩] ∧ .call ⟨⟨⟨1⟩, ⟨2⟩⟩, ⟨0⟩⟩ ∈ log ∧ (visits log).Nodup ∧
      (List.Sublist [⟨0⟩, ⟨1⟩] u.order.toList ∨ ReflTransGen (Calls log) ⟨0⟩ ⟨1⟩) := by
  have hupdate : ∃ a', (ofConfig Preset.balanced.config).update ring ⟨2⟩ = .ok a' ∧
      (a'.info? ⟨2⟩).isSome := by
    decide +kernel
  have horder : ∃ r, (Trace.update (ofConfig Preset.balanced.config) ring ⟨2⟩).run = .ok r ∧
      r.1.order.toList = [⟨1⟩, ⟨0⟩, ⟨2⟩] ∧ .call ⟨⟨⟨1⟩, ⟨2⟩⟩, ⟨0⟩⟩ ∈ r.2 := by
    decide +kernel
  obtain ⟨a', hupdate, -⟩ := hupdate
  obtain ⟨⟨u', log'⟩, hrun', horder, hcall⟩ := horder
  have hstart : History (ofConfig Preset.balanced.config) fun _ => False := .start rfl
  obtain ⟨u, log, hrun, -, hvisits, -, -, -, -, hcalls⟩ :=
    hstart.update_callees_first (by decide +kernel : (ring.func? ⟨2⟩).isSome) hupdate
  cases hrun.symm.trans hrun'
  exact ⟨a', hupdate, u', log', hrun, horder, hcall, hvisits, hcalls _ hcall⟩

end Escape
