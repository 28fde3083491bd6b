import Escape.Proofs.Analysis.Building

/-!
# Passes over the functions of an update

A pass brings the summary of each function up to date with its graph, and makes the graphs of its
callers account for it. A function whose graph changes behind the back of the pass asks for another
one, and in the last pass but one everything that a call touches escapes.

- `Update.refreshSummary_spec`, `Update.spliceIntoCallers_spec`, `Update.escapeCallSites_spec`: the
  parts of a pass.
- `Update.passes_spec`: in the end every summary covers its graph, and every call is accounted for.
-/

namespace Escape

open Escape.Graph

variable {p : Program} {s t : Scope} {u u' u'' : Update} {f g : FuncId}
  {info info' info'' : FuncInfo} {site : CallSite} {changed : Bool} {Q E : FuncId → Prop}

namespace FuncInfo

/-- Nothing but the graphs and their state changes. -/
structure SameMarks (info info' : FuncInfo) : Prop where
  callers : info'.callers = info.callers
  computed : info'.computed = info.computed
  builtIn : info'.builtIn = info.builtIn
  visitedIn : info'.visitedIn = info.visitedIn
  position : info'.position = info.position

theorem SameMarks.refl (info : FuncInfo) : SameMarks info info := ⟨rfl, rfl, rfl, rfl, rfl⟩

theorem SameMarks.trans (h : SameMarks info info') (h' : SameMarks info' info'') :
    SameMarks info info'' where
  callers := h'.callers.trans h.callers
  computed := h'.computed.trans h.computed
  builtIn := h'.builtIn.trans h.builtIn
  visitedIn := h'.visitedIn.trans h.visitedIn
  position := h'.position.trans h.position

/-- The graphs change, but only for the better, and the full graph only if it was built in this
update. Its nodes keep their contents. -/
structure Reworked (number : Nat) (info info' : FuncInfo) : Prop extends SameMarks info info' where
  graph : info.builtIn ≠ number → info'.graph = info.graph
  forward : Settled info.graph → Forward info.graph info'.graph
  supplies : Settled info.graph → Supplies info.graph info'.graph info'.graph.representative

/-- The full graph stays as it is. -/
theorem Reworked.of_graph {number : Nat} (hmarks : SameMarks info info')
    (hg : info'.graph = info.graph) : Reworked number info info' := by
  refine ⟨hmarks, fun _ => hg, fun hs => ?_, fun hs => ?_⟩
  · rw [hg]
    exact .refl hs
  · rw [hg]
    exact (Supplies.refl _).congr fun _ => hs.representative_of_holds

theorem Reworked.refl (number : Nat) (info : FuncInfo) : Reworked number info info :=
  .of_graph (.refl info) rfl

theorem Reworked.trans {number : Nat} (h : Reworked number info info')
    (h' : Reworked number info' info'') : Reworked number info info'' where
  toSameMarks := h.toSameMarks.trans h'.toSameMarks
  graph hb := (h'.graph (h.builtIn ▸ hb)).trans (h.graph hb)
  forward hs := (h.forward hs).trans (h'.forward (h.forward hs).1)
  supplies hs := by
    have hs' := (h.forward hs).1
    exact ((h.supplies hs).trans (h'.supplies hs')).congr
      fun n _ => ((h'.forward hs').2.merge n).symm

theorem Sane.settled (h : info.Sane s) : Settled info.graph := by
  cases hc : info.computed with
  | false => exact (h.working hc).settled
  | true =>
    obtain ⟨g, hg, hok⟩ := h.final hc
    exact (Update.complete_forward (roots_defined s) hg.settled hok).1.1

end FuncInfo

open FuncInfo (SameMarks Reworked)

/-- All summaries cover their graphs, and all calls are accounted for. -/
structure Balanced (p : Program) (infos : Infos) : Prop where
  sane : ∀ f info, infos.find? f = some info → ∃ s, Scope.of? p f = some s ∧ info.Sane s
  covers : ∀ f info s, infos.find? f = some info → Scope.of? p f = some s →
    info.graph.valid = true → (info.computed = false → Closed info.graph) ∧
    Covers s info.graph info.summary
  calls : ∀ f info, infos.find? f = some info → ∀ site ∈ info.callers, ∀ caller s t,
    infos.find? site.caller = some caller → Scope.of? p site.caller = some s →
    Scope.of? p f = some t → caller.graph.valid = true →
    Accounted s t site.site caller.graph info.summary

namespace Update

/-- The same functions are known, in the same order, and what is known about each is related. -/
structure Alike (R : FuncInfo → FuncInfo → Prop) (u u' : Update) : Prop where
  number : u'.number = u.number
  order : u'.order = u.order
  forth : ∀ f info, u.infos.find? f = some info → ∃ info',
    u'.infos.find? f = some info' ∧ R info info'
  back : ∀ f info', u'.infos.find? f = some info' → ∃ info,
    u.infos.find? f = some info ∧ R info info'

namespace Alike

variable {R R' : FuncInfo → FuncInfo → Prop}

theorem refl (hR : ∀ info, R info info) (u : Update) : Alike R u u where
  number := rfl
  order := rfl
  forth _ info h := ⟨info, h, hR info⟩
  back _ info h := ⟨info, h, hR info⟩

theorem trans (hR : ∀ {info info' info''}, R info info' → R info' info'' → R info info'')
    (h : Alike R u u') (h' : Alike R u' u'') : Alike R u u'' where
  number := h'.number.trans h.number
  order := h'.order.trans h.order
  forth f info hf := by
    obtain ⟨info₁, hf₁, hr⟩ := h.forth f info hf
    obtain ⟨info₂, hf₂, hr'⟩ := h'.forth f info₁ hf₁
    exact ⟨info₂, hf₂, hR hr hr'⟩
  back f info₂ hf₂ := by
    obtain ⟨info₁, hf₁, hr'⟩ := h'.back f info₂ hf₂
    obtain ⟨info, hf, hr⟩ := h.back f info₁ hf₁
    exact ⟨info, hf, hR hr hr'⟩

theorem mono (h : Alike R u u') (hR : ∀ info info', R info info' → R' info info') :
    Alike R' u u' where
  number := h.number
  order := h.order
  forth f info hf := (h.forth f info hf).imp fun _ hr => hr.imp_right (hR _ _)
  back f info hf := (h.back f info hf).imp fun _ hr => hr.imp_right (hR _ _)

theorem modify (hR : ∀ info, R info info) (hf : u.infos.find? f = some info) (hr : R info info') :
    Alike R u (u.modify f fun _ => info') where
  number := rfl
  order := rfl
  forth g old hg := by
    rw [find?_modify]
    split
    · rename_i hfg
      subst hfg
      cases hf.symm.trans hg
      exact ⟨info', rfl, hr⟩
    · exact ⟨old, hg, hR old⟩
  back g new hg := by
    rw [find?_modify] at hg
    split at hg
    · rename_i hfg
      subst hfg
      cases hg
      exact ⟨info, hf, hr⟩
    · exact ⟨new, hg, hR new⟩

end Alike

/-- What passes leave alone. -/
abbrev Reworks (u u' : Update) : Prop := Alike (Reworked u.number) u u'

namespace Reworks

theorem refl (u : Update) : Reworks u u := Alike.refl (.refl _) u

theorem trans (h : Reworks u u') (h' : Reworks u' u'') : Reworks u u'' := by
  unfold Reworks at h'
  rw [h.number] at h'
  exact Alike.trans .trans h h'

theorem modify (hf : u.infos.find? f = some info) (hr : Reworked u.number info info') :
    Reworks u (u.modify f fun _ => info') := Alike.modify (.refl _) hf hr

theorem marks (h : Reworks u u') : Alike SameMarks u u' := Alike.mono h fun _ _ hr => hr.toSameMarks

end Reworks

/-- The order lists the functions that were visited and have a position, at their positions. -/
def Placed (u : Update) : Prop := ∀ j f, u.order[j]? = some f ↔
  ∃ info, u.infos.find? f = some info ∧ info.visitedIn = u.number ∧ info.position = some j

/-- A function has one place. -/
theorem Placed.unique (h : Placed u) {j k : Nat} (hj : u.order[j]? = some f)
    (hk : u.order[k]? = some f) : j = k := by
  obtain ⟨info, hf, -, hp⟩ := (h j f).mp hj
  obtain ⟨info', hf', -, hp'⟩ := (h k f).mp hk
  cases hf.symm.trans hf'
  exact Option.some.inj (hp.symm.trans hp')

theorem Placed.alike (h : Placed u) (hr : Alike SameMarks u u') : Placed u' := by
  intro j f
  rw [hr.order, h, hr.number]
  constructor
  · rintro ⟨info, hf, hv, hj⟩
    obtain ⟨info', hf', hi⟩ := hr.forth f info hf
    exact ⟨info', hf', hi.visitedIn.trans hv, hi.position.trans hj⟩
  · rintro ⟨info', hf', hv, hj⟩
    obtain ⟨info, hf, hi⟩ := hr.back f info' hf'
    exact ⟨info, hf, hi.visitedIn.symm.trans hv, hi.position.symm.trans hj⟩

/-- What holds of an update once its graphs are built. -/
structure Planned (p : Program) (u : Update) : Prop where
  built : ∀ f info, u.infos.find? f = some info → (info.computed = false ↔ info.builtIn = u.number)
  edges : ∀ f info, u.infos.find? f = some info → ∀ site ∈ info.callers,
    (∃ caller, u.infos.find? site.caller = some caller ∧
      (caller.builtIn = u.number ∧ f ∈ u.order ∨ caller.computed = true ∧ info.computed = true)) ∧
    ∀ s, Scope.of? p site.caller = some s → s.Reaches site.site
  order : Placed u
  placed : ∀ f info, u.infos.find? f = some info → info.builtIn = u.number → f ∈ u.order
  early : ∀ f info, u.infos.find? f = some info → info.builtIn ≤ u.number ∧
    info.visitedIn ≤ u.number

namespace Planned

theorem alike (h : Planned p u) (hr : Alike SameMarks u u') : Planned p u' where
  built f info' hf := by
    obtain ⟨info, hf₀, hi⟩ := hr.back f info' hf
    rw [hi.computed, hi.builtIn, hr.number]
    exact h.built f info hf₀
  edges f info' hf site hsite := by
    obtain ⟨info, hf₀, hi⟩ := hr.back f info' hf
    rw [hi.callers] at hsite
    obtain ⟨⟨caller, hcaller, hstate⟩, hreach⟩ := h.edges f info hf₀ site hsite
    obtain ⟨caller', hcaller', hc⟩ := hr.forth _ caller hcaller
    refine ⟨⟨caller', hcaller', ?_⟩, hreach⟩
    rw [hc.builtIn, hc.computed, hi.computed, hr.number, hr.order]
    exact hstate
  order := h.order.alike hr
  placed f info' hf hb := by
    obtain ⟨info, hf₀, hi⟩ := hr.back f info' hf
    rw [hr.number, hi.builtIn] at hb
    rw [hr.order]
    exact h.placed f info hf₀ hb
  early f info' hf := by
    obtain ⟨info, hf₀, hi⟩ := hr.back f info' hf
    rw [hi.builtIn, hi.visitedIn, hr.number]
    exact h.early f info hf₀

/-- Building leads to a plan once every function has its place. -/
theorem of_building (h : Building p u) (hall : ∀ f, ¬ u.Pending f) : Planned p u := by
  have hplaced {f : FuncId} {info : FuncInfo} (hf : u.infos.find? f = some info)
      (hv : info.visitedIn = u.number) : f ∈ u.order := by
    cases hj : info.position with
    | none => exact absurd ⟨info, hf, .inl ⟨hv, hj⟩⟩ (hall f)
    | some j => exact Array.mem_of_getElem? ((h.order j f).mpr ⟨info, hf, hv, hj⟩)
  have hvisited {f : FuncId} {info : FuncInfo} (hf : u.infos.find? f = some info)
      (hwhy : info.computed = false ∨ ∃ site ∈ info.callers, u.Rebuilt site.caller) :
      info.visitedIn = u.number := by
    by_contra hv
    exact hall f ⟨info, hf, .inr ⟨hv, hwhy⟩⟩
  refine ⟨fun f info hf => ⟨fun hc => ?_, (h.marks f info hf).computed⟩,
    fun f info hf site hsite => ?_, h.order,
    fun f info hf hb => hplaced hf ((h.marks f info hf).built hb).1,
    fun f info hf => (h.marks f info hf).early⟩
  · exact (h.marks f info hf).visited (hvisited hf (.inl hc)) hc
  · obtain ⟨⟨caller, hcaller, hstate⟩, hreach⟩ := h.edges f info hf site hsite
    refine ⟨⟨caller, hcaller, hstate.imp_left fun hb => ⟨hb, ?_⟩⟩, hreach⟩
    exact hplaced hf (hvisited hf (.inr ⟨site, hsite, caller, hcaller, hb⟩))

/-- A function that was built is called only by functions that were built. -/
theorem not_built (h : Planned p u) (hf : u.infos.find? f = some info) (hsite : site ∈ info.callers)
    {caller : FuncInfo} (hcaller : u.infos.find? site.caller = some caller)
    (hb : caller.builtIn ≠ u.number) : info.builtIn ≠ u.number := by
  intro hbuilt
  obtain ⟨⟨caller', hcaller', hstate⟩, -⟩ := h.edges f info hf site hsite
  cases hcaller.symm.trans hcaller'
  rcases hstate with ⟨hb', -⟩ | ⟨-, hc⟩
  · exact hb hb'
  · cases hc.symm.trans ((h.built f info hf).mpr hbuilt)

end Planned

/-! ### The state of a pass -/

/-- What holds during passes. The summaries of the functions in `Q` are accounted for by the callers
that were built, and at the calls of the functions in `E` everything escapes. -/
structure Passing (p : Program) (Q E : FuncId → Prop) (u : Update) : Prop extends Planned p u where
  sane : ∀ f info, u.infos.find? f = some info → ∃ s, Scope.of? p f = some s ∧ info.Sane s
  stale : ∀ f info, u.infos.find? f = some info → info.stale = true → info.builtIn = u.number
  covers : ∀ f info s, u.infos.find? f = some info → Scope.of? p f = some s → info.stale = false →
    info.graph.valid = true → (info.computed = false → Closed info.graph) ∧
    Covers s info.graph info.summary
  calls : ∀ f info, u.infos.find? f = some info → ∀ site ∈ info.callers, ∀ caller s t,
    u.infos.find? site.caller = some caller → Scope.of? p site.caller = some s →
    Scope.of? p f = some t → caller.graph.valid = true →
    (caller.builtIn ≠ u.number ∨ Q f → Accounted s t site.site caller.graph info.summary) ∧
      (caller.builtIn = u.number → E f → Escaped s site.site caller.graph)

/-- A property of the graphs of the given callers, as far as they were built and not given up. -/
def AtSites (p : Program) (u : Update) (sites : List CallSite)
    (P : Scope → InstId → Graph → Prop) : Prop :=
  ∀ site ∈ sites, ∀ caller s, u.infos.find? site.caller = some caller → caller.builtIn = u.number →
    Scope.of? p site.caller = some s → caller.graph.valid = true → P s site.site caller.graph

namespace Passing

variable {Q Q' E E' : FuncId → Prop}

variable (h : Passing p Q E u)
include h

theorem mono (hQ : ∀ f ∈ u.order, Q' f → Q f) (hE : ∀ f ∈ u.order, E' f → E f) :
    Passing p Q' E' u := by
  refine { h with calls := fun f info hf site hsite caller s t hcaller hs ht hv => ?_ }
  obtain ⟨haccounted, hescaped⟩ := h.calls f info hf site hsite caller s t hcaller hs ht hv
  -- a function with a caller that was built is in the order
  have hplaced (hb : caller.builtIn = u.number) : f ∈ u.order := by
    obtain ⟨⟨caller', hcaller', hstate⟩, -⟩ := h.edges f info hf site hsite
    cases hcaller.symm.trans hcaller'
    rcases hstate with ⟨-, hf⟩ | ⟨hc, -⟩
    · exact hf
    · cases hc.symm.trans ((h.built _ _ hcaller).mpr hb)
  refine ⟨fun hwhy => ?_, fun hb hf => hescaped hb (hE f (hplaced hb) hf)⟩
  by_cases hb : caller.builtIn = u.number
  · exact haccounted (.inr (hQ f (hplaced hb) (hwhy.resolve_left (not_not_intro hb))))
  · exact haccounted (.inl hb)

/-- A step that changes what is known about one function. -/
theorem modify (hf : u.infos.find? f = some info) (ht : Scope.of? p f = some t)
    (hr : Reworked u.number info info') (hsane : info'.Sane t)
    (hstale : info'.stale = true → info.builtIn = u.number)
    (hcovers : info'.stale = false → info'.graph.valid = true →
      (info'.computed = false → Closed info'.graph) ∧ Covers t info'.graph info'.summary)
    (hQ : ∀ g, Q' g → Q g)
    (hsummary : info.builtIn ≠ u.number ∨ Q' f → ∀ s i g, Accounted s t i g info.summary →
      Accounted s t i g info'.summary) : Passing p Q' E (u.modify f fun _ => info') := by
  have hrw := Reworks.modify hf hr
  have hfind : (u.modify f fun _ => info').infos.find? f = some info' := by
    rw [find?_modify, if_pos rfl]
  have hother {g : FuncId} (hg : f ≠ g) :
      (u.modify f fun _ => info').infos.find? g = u.infos.find? g := by
    rw [find?_modify, if_neg hg]
  refine ⟨h.toPlanned.alike hrw.marks, fun g new hg => ?_, fun g new hg => ?_,
    fun g new s hg hs => ?_, fun g new hg site hsite caller' s t' hcaller' hs ht' hv => ?_⟩
  · by_cases hfg : f = g
    · subst hfg
      cases hfind.symm.trans hg
      exact ⟨t, ht, hsane⟩
    · exact h.sane g new (hother hfg ▸ hg)
  · by_cases hfg : f = g
    · subst hfg
      cases hfind.symm.trans hg
      exact fun hst => hr.builtIn.trans (hstale hst)
    · exact h.stale g new (hother hfg ▸ hg)
  · by_cases hfg : f = g
    · subst hfg
      cases hfind.symm.trans hg
      cases ht.symm.trans hs
      exact hcovers
    · exact h.covers g new s (hother hfg ▸ hg) hs
  -- Both ends of a call may be `f`: its summary, and the graph of the caller.
  · obtain ⟨old, hold, hnew⟩ := hrw.back g new hg
    obtain ⟨caller, hcaller, hrc⟩ := hrw.back _ caller' hcaller'
    obtain ⟨s', hs', hsettled⟩ := h.sane _ caller hcaller
    obtain ⟨hsettled', hfollows⟩ := hrc.forward hsettled.settled
    rw [hnew.callers] at hsite
    rw [hfollows.valid] at hv
    obtain ⟨haccounted, hescaped⟩ := h.calls g old hold site hsite caller s t' hcaller hs ht' hv
    rw [hrc.builtIn]
    refine ⟨fun hwhy => ?_, fun hb hE => (hescaped hb hE).follows hsettled.settled hfollows⟩
    refine Accounted.follows ?_ hsettled.settled hsettled' hfollows
    have hbefore := haccounted (hwhy.imp_right (hQ g))
    by_cases hfg : f = g
    · subst hfg
      cases hfind.symm.trans hg
      cases hf.symm.trans hold
      cases ht.symm.trans ht'
      refine hsummary (hwhy.imp_left fun hb => ?_) _ _ _ hbefore
      exact h.not_built hf hsite hcaller hb
    · cases hold.symm.trans (hother hfg ▸ hg)
      exact hbefore

/-- All callers of a function account for its summary. -/
theorem add (hf : u.infos.find? f = some info) (ht : Scope.of? p f = some t)
    (hsites : AtSites p u info.callers fun s i g => Accounted s t i g info.summary) :
    Passing p (fun g => Q g ∨ g = f) E u := by
  refine { h with calls := fun g old hg site hsite caller s t' hcaller hs ht' hv => ?_ }
  obtain ⟨haccounted, hescaped⟩ := h.calls g old hg site hsite caller s t' hcaller hs ht' hv
  refine ⟨?_, hescaped⟩
  rintro (hb | hQ | rfl)
  · exact haccounted (.inl hb)
  · exact haccounted (.inr hQ)
  · cases hf.symm.trans hg
    cases ht.symm.trans ht'
    by_cases hb : caller.builtIn = u.number
    · exact hsites site hsite caller s hcaller hb hs hv
    · exact haccounted (.inl hb)

/-- Everything escapes at all calls of a function. -/
theorem addEscaped (hf : u.infos.find? f = some info)
    (hsites : AtSites p u info.callers Escaped) : Passing p Q (fun g => E g ∨ g = f) u := by
  refine { h with calls := fun g old hg site hsite caller s t' hcaller hs ht' hv => ?_ }
  obtain ⟨haccounted, hescaped⟩ := h.calls g old hg site hsite caller s t' hcaller hs ht' hv
  refine ⟨haccounted, fun hb => ?_⟩
  rintro (hE | rfl)
  · exact hescaped hb hE
  · cases hf.symm.trans hg
    exact hsites site hsite caller s hcaller hb hs hv

end Passing

/-- A property that later graphs keep. -/
theorem AtSites.reworks {sites : List CallSite} {P P' : Scope → InstId → Graph → Prop}
    (h : AtSites p u sites P) (hu : Passing p Q E u) (hr : Reworks u u')
    (hP : ∀ s i g g', Settled g → Forward g g' → P s i g → P' s i g') : AtSites p u' sites P' := by
  intro site hsite caller' s hcaller' hb hs hv
  obtain ⟨caller, hcaller, hrc⟩ := hr.back _ caller' hcaller'
  obtain ⟨s', -, hsane⟩ := hu.sane _ caller hcaller
  have hforward := hrc.forward hsane.settled
  rw [hrc.builtIn, hr.number] at hb
  rw [hforward.2.valid] at hv
  exact hP s site.site _ _ hsane.settled hforward (h site hsite caller s hcaller hb hs hv)

/-- A property of the new graph of a caller. -/
theorem atSites_modify {P : Scope → InstId → Graph → Prop}
    (hcaller : u.infos.find? site.caller = some info) (h : Passing p Q E u)
    (hr : Reworks u (u.modify site.caller fun _ => info'))
    (hP : ∀ s, Scope.of? p site.caller = some s → info.graph.valid = true →
      P s site.site info'.graph) :
    AtSites p (u.modify site.caller fun _ => info') [site] P := by
  intro site' hsite caller s hc _ hs hv
  cases List.mem_singleton.mp hsite
  obtain ⟨old, hold, hrc⟩ := hr.back _ caller hc
  cases hcaller.symm.trans hold
  obtain ⟨s', -, hsane⟩ := h.sane _ info hcaller
  rw [(hrc.forward hsane.settled).2.valid] at hv
  rw [find?_modify, if_pos rfl] at hc
  cases hc
  exact hP s hs hv

theorem atSites_append {sites sites' : List CallSite} {P : Scope → InstId → Graph → Prop} :
    AtSites p u (sites ++ sites') P ↔ AtSites p u sites P ∧ AtSites p u sites' P :=
  List.forall_mem_append

/-! ### Deriving summaries -/

section Passes

variable {Q E : FuncId → Prop}

theorem modify_eq (hf : u.infos.find? f = some info) (change : FuncInfo → FuncInfo) :
    u.modify f change = u.modify f fun _ => change info := by
  rw [modify, hf]
  rfl

/-- The summary of the function is not up to date. -/
def Stale (u : Update) (f : FuncId) : Prop :=
  ∃ info, u.infos.find? f = some info ∧ info.stale = true

theorem Stale.modify {change : FuncInfo → FuncInfo} (h : (u.modify f change).Stale g) :
    (g = f ∧ (change (u.known f)).stale = true) ∨ g ≠ f ∧ u.Stale g := by
  obtain ⟨info, hg, hstale⟩ := h
  rw [find?_modify] at hg
  split at hg
  · rename_i hfg
    cases hg
    exact .inl ⟨hfg.symm, hstale⟩
  · rename_i hfg
    exact .inr ⟨Ne.symm hfg, info, hg, hstale⟩

/-- A graph that was given up takes its summary with it. -/
theorem summarize_invalid {full full' summary summary' : Graph} (hv : full.valid = false)
    (hok : summarize p summary full = .ok (summary', full', changed)) :
    summary' = summary.invalidate ∧ full' = full ∧ changed = summary.valid := by
  rw [summarize, hv] at hok
  cases hok
  exact ⟨rfl, rfl, rfl⟩

/-- What becomes of a function when its summary is brought up to date. -/
theorem refresh_spec (hfunc : t.func.Sound) (ht : Scope.of? p t.id = some t)
    {full summary full' summary' : Graph} (hfull : Grown t full) (hsummary : Grown t summary)
    (hvalid : full.valid = true → summary.valid = true)
    (hok : summarize p summary full.propagate.1 = .ok (summary', full', changed)) :
    Builds t full full' ∧ Grown t summary' ∧ (full'.valid = true → summary'.valid = true) ∧
      (full'.valid = true → Closed full' ∧ Covers t full' summary') ∧
      (changed = false → ∀ s i g, Accounted s t i g summary → Accounted s t i g summary') := by
  have hpush : Builds t full full.propagate.1 := .raises hfull.settled (propagate_raises full)
  have hgrown := hfull.builds hpush
  cases hv : full.propagate.1.valid with
  | true =>
    have hvs := hvalid (hpush.valid.symm.trans hv)
    obtain ⟨henters, hbuilds, hsame, hcovers⟩ := summarize_spec hfunc ht hgrown hsummary hv hvs hok
    have hclosed := henters.admits.closed hgrown.settled (propagate_closed hfull.settled)
    exact ⟨hpush.trans henters.builds, hsummary.builds hbuilds, fun _ => hcovers.valid,
      fun _ => ⟨hclosed, hcovers⟩, fun hc _ _ _ h => h.admits hsummary.settled (hsame hc)⟩
  | false =>
    obtain ⟨rfl, rfl, rfl⟩ := summarize_invalid hv hok
    refine ⟨hpush, hsummary.invalidate, fun hv' => ?_, fun hv' => ?_, fun hc s i g h => .inl ?_⟩
    · cases hv.symm.trans hv'
    · cases hv.symm.trans hv'
    · -- a summary that was given up before was accounted for by an escape
      exact h.resolve_right fun hvs => Bool.noConfusion (hc.symm.trans hvs.1)

/-- A summary that is behind its graph is derived again, and others are left alone. -/
theorem refreshSummary_ok (hok : u.refreshSummary p f = .ok (u', changed)) :
    (¬ u.Stale f ∧ u' = u ∧ changed = false) ∨ ∃ info summary graph, u.infos.find? f = some info ∧
      info.stale = true ∧ summarize p info.summary info.graph.propagate.1 =
      .ok (summary, graph, changed) ∧ u' =
      u.modify f fun _ => { info with graph, summary, stale := false } := by
  unfold refreshSummary at hok
  cases hf : u.infos.find? f with
  | none =>
    rw [hf] at hok
    cases hok
    exact .inl ⟨fun ⟨info, hinfo, _⟩ => (by cases hf.symm.trans hinfo), rfl, rfl⟩
  | some info =>
    rw [hf] at hok
    dsimp only at hok
    split at hok
    · rename_i hfresh
      cases hok
      refine .inl ⟨fun ⟨info', hinfo, hst⟩ => ?_, rfl, rfl⟩
      cases hf.symm.trans hinfo
      rw [hst] at hfresh
      cases hfresh
    · rename_i hstale
      obtain ⟨⟨summary, graph, changed'⟩, hsum, hok⟩ := bind_ok.mp hok
      cases hok
      exact .inr ⟨info, summary, graph, rfl, by simpa using hstale, hsum, modify_eq hf _⟩

/-- **Bringing a summary up to date.** If it changes, the callers do not account for it any more. -/
theorem refreshSummary_spec (hp : p.Sound) (h : Passing p Q E u)
    (hok : u.refreshSummary p f = .ok (u', changed)) :
    Passing p (fun g => Q g ∧ (g = f → changed = false)) E u' ∧ Reworks u u' ∧
      ∀ g, u'.Stale g → u.Stale g ∧ g ≠ f := by
  rcases refreshSummary_ok hok with ⟨hf, rfl, rfl⟩ | ⟨info, summary, graph, hf, hst, hsum, rfl⟩
  · exact ⟨h.mono (fun _ _ hg => hg.1) (fun _ _ => id), .refl _,
      fun g hg => ⟨hg, fun he => hf (he ▸ hg)⟩⟩
  · have hbuilt := h.stale f info hf hst
    have hc := (h.built f info hf).mpr hbuilt
    obtain ⟨t, ht, hsane⟩ := h.sane f info hf
    obtain ⟨-, hid, hfunc⟩ := Scope.of?_spec ht
    subst hid
    obtain ⟨hbuilds, hgrown, hvalid, hcovers, hkeeps⟩ :=
      refresh_spec (hp _ _ hfunc) ht (hsane.working hc) hsane.summary hsane.valid hsum
    have hr : Reworked u.number info { info with graph, summary, stale := false } :=
      ⟨⟨rfl, rfl, rfl, rfl, rfl⟩, fun hb => absurd hbuilt hb, fun _ => hbuilds.forward,
        fun _ => hbuilds.supplies⟩
    refine ⟨h.modify hf ht hr ⟨fun _ => (hsane.working hc).builds hbuilds, fun hc' => ?_, hgrown,
      hvalid⟩ nofun (fun _ hv => ⟨fun _ => (hcovers hv).1, (hcovers hv).2⟩) (fun g hg => hg.1)
      (fun hwhy => ?_), .modify hf hr, fun g hg => ?_⟩
    · cases hc.symm.trans hc'
    · exact hkeeps ((hwhy.resolve_left (not_not_intro hbuilt)).2 rfl)
    · rcases hg.modify with ⟨-, hstale'⟩ | ⟨hne, hg⟩
      · cases hstale'
      · exact ⟨hg, hne⟩

/-! ### Splicing summaries in -/

/-- A caller that sees the summary of a function in the same pass comes later in the order. -/
theorem Placed.later_of_isAfter (h : Placed u) {j : Nat} (hj : u.order[j]? = some f) {c : FuncId}
    {caller callee : FuncInfo} (hc : u.infos.find? c = some caller)
    (hf : u.infos.find? f = some callee) (hafter : u.isAfter caller callee = true) :
    ∃ k, j < k ∧ u.order[k]? = some c := by
  obtain ⟨callee', hf', -, hpos⟩ := (h j f).mp hj
  cases hf.symm.trans hf'
  unfold isAfter at hafter
  rw [hpos] at hafter
  cases hk : caller.position with
  | none =>
    rw [hk] at hafter
    cases hafter
  | some k =>
    rw [hk] at hafter
    obtain ⟨hv, hlt⟩ := Bool.and_eq_true_iff.mp hafter
    exact ⟨k, of_decide_eq_true hlt, (h k c).mpr ⟨caller, hc, of_decide_eq_true hv, hk⟩⟩

/-- No summary changes. -/
def SameSummaries (u u' : Update) : Prop :=
  ∀ f info info', u.infos.find? f = some info → u'.infos.find? f = some info' →
    info'.summary = info.summary

theorem sameSummaries_modify (hf : u.infos.find? f = some info) {graph : Graph} {b : Bool} :
    SameSummaries u (u.modify f fun _ => { info with graph, stale := b }) := by
  intro g old new hold hnew
  rw [find?_modify] at hnew
  split at hnew
  · rename_i hfg
    subst hfg
    cases hf.symm.trans hold
    cases hnew
    rfl
  · cases hold.symm.trans hnew
    rfl

/-- Splicing a summary into one caller. -/
theorem spliceSite_spec (hp : p.Sound) (h : Passing p Q E u) (ht : Scope.of? p f = some t)
    {caller : FuncInfo} (hcaller : u.infos.find? site.caller = some caller)
    (hb : caller.builtIn = u.number) {summary graph summary' : Graph} (hsummary : Grown t summary)
    (hok : caller.graph.spliceCall p site summary f = .ok (graph, summary', changed))
    (hu : (u.modify site.caller fun _ =>
      { caller with graph, stale := caller.stale || changed }) = u') :
    Passing p Q E u' ∧ Reworks u u' ∧ SameSummaries u u' ∧ Enters t summary summary' ∧
      (AtSites p u' [site] fun s i g => Accounted s t i g summary') ∧
      ∀ g, u'.Stale g → u.Stale g ∨ g = site.caller ∧ changed = true := by
  obtain ⟨s, hs, hsane⟩ := h.sane _ caller hcaller
  have hc := (h.built _ caller hcaller).mpr hb
  have hgrown := hsane.working hc
  have hfunc := hp.of? ht
  obtain ⟨hbuilds, henters, hsame, haccounted⟩ := spliceCall_spec hfunc hs ht hgrown hsummary hok
  have hr : Reworked u.number caller { caller with graph, stale := caller.stale || changed } :=
    ⟨⟨rfl, rfl, rfl, rfl, rfl⟩, fun hb' => absurd hb hb', fun _ => hbuilds.forward,
      fun _ => hbuilds.supplies⟩
  subst hu
  refine ⟨h.modify hcaller hs hr ⟨fun _ => hgrown.builds hbuilds, fun hc' => ?_, hsane.summary,
    ?_⟩ (fun _ => hb) (fun hstale hv => ?_) (fun _ => id) (fun _ _ _ _ => id), .modify hcaller hr,
    sameSummaries_modify hcaller, henters,
    atSites_modify hcaller h (.modify hcaller hr) fun s' hs' => ?_, fun g hg => ?_⟩
  · cases hc.symm.trans hc'
  · rw [hbuilds.valid]
    exact hsane.valid
  · -- without a change only values have entered the graph
    obtain ⟨hst, hch⟩ := Bool.or_eq_false_iff.mp hstale
    obtain ⟨hclosed, hcovers⟩ := h.covers _ caller s hcaller hs hst (hbuilds.valid.symm.trans hv)
    exact ⟨fun _ => (hsame hch).admits.closed hgrown.settled (hclosed hc),
      hcovers.appends hgrown.settled (hsame hch).appends⟩
  · cases hs.symm.trans hs'
    exact haccounted
  · rcases hg.modify with ⟨rfl, hst⟩ | ⟨-, hg⟩
    · exact (Bool.or_eq_true_iff.mp hst).imp (fun hst => ⟨caller, hcaller, hst⟩)
        fun hch => ⟨rfl, hch⟩
    · exact .inl hg

/-- The first of the given callers is spliced into if this update built it. Another pass is asked
for unless nothing changes there or it comes later. -/
theorem spliceAt_cons_ok {sites : List CallSite} {summary : Graph} {again : Bool}
    {r : Graph × Update × Bool} (hok : spliceAt p f (site :: sites) summary u again = .ok r) :
    (¬ u.Rebuilt site.caller ∧ spliceAt p f sites summary u again = .ok r) ∨
      ∃ caller graph summary' changed again' u', u.infos.find? site.caller = some caller ∧
        caller.builtIn = u.number ∧ caller.graph.spliceCall p site summary f =
        .ok (graph, summary', changed) ∧
        (u.modify site.caller fun _ => { caller with graph, stale := caller.stale || changed }) =
        u' ∧ (again' = false → again = false ∧
          (changed = true → ∃ c info, u'.infos.find? site.caller = some c ∧
          u'.infos.find? f = some info ∧ u'.isAfter c info = true)) ∧
        spliceAt p f sites summary' u' again' = .ok r := by
  unfold spliceAt at hok
  cases hcaller : u.infos.find? site.caller with
  | none =>
    rw [hcaller] at hok
    exact .inl ⟨fun ⟨caller, hc, _⟩ => (by cases hcaller.symm.trans hc), hok⟩
  | some caller =>
    rw [hcaller] at hok
    dsimp only at hok
    split at hok
    · rename_i hnb
      refine .inl ⟨fun ⟨caller', hc, hb⟩ => ?_, hok⟩
      cases hcaller.symm.trans hc
      rw [isRebuilt, decide_eq_true hb] at hnb
      cases hnb
    · rename_i hb
      obtain ⟨⟨graph, summary', changed⟩, hsplice, hok⟩ := bind_ok.mp hok
      rw [modify_eq hcaller] at hok
      refine .inr ⟨caller, graph, summary', changed, _, _,
        rfl, by simpa [isRebuilt] using hb, hsplice, rfl, fun hno => ?_, hok⟩
      obtain ⟨hno, hquiet⟩ := Bool.or_eq_false_iff.mp hno
      refine ⟨hno, fun hchanged => ?_⟩
      rw [hchanged, Bool.true_and, Bool.not_eq_false'] at hquiet
      split at hquiet
      · rename_i c info hc hinfo
        exact ⟨c, info, hchanged ▸ hc, hchanged ▸ hinfo, hchanged ▸ hquiet⟩
      · cases hquiet

/-- Splicing a summary into the given callers. -/
theorem spliceAt_spec (hp : p.Sound) (ht : Scope.of? p f = some t) {j : Nat}
    (sites : List CallSite) (summary : Graph) (u : Update) (again : Bool) {summary' : Graph}
    {u' : Update} {again' : Bool} (h : Passing p Q E u) (hj : u.order[j]? = some f)
    (hsummary : Grown t summary)
    (hok : spliceAt p f sites summary u again = .ok (summary', u', again')) :
    Passing p Q E u' ∧ Reworks u u' ∧ SameSummaries u u' ∧ Enters t summary summary' ∧
    (AtSites p u' sites fun s i g => Accounted s t i g summary') ∧
    (again' = true ∨ again = false ∧ ∀ g, u'.Stale g → u.Stale g ∨ ∃ k, j < k ∧
    u.order[k]? = some g) := by
  induction sites generalizing summary u again summary' u' again' with
  | nil =>
    cases hok
    refine ⟨h, .refl u, fun _ _ _ hf hf' => by cases hf.symm.trans hf'; rfl,
      .refl hsummary.settled, nofun, ?_⟩
    cases again with
    | true => exact .inl rfl
    | false => exact .inr ⟨rfl, fun _ => .inl⟩
  | cons site sites ih =>
    rcases spliceAt_cons_ok hok with ⟨hnb, hok⟩ | ⟨caller, graph, summary₁, changed, again₁, u₁,
      hcaller, hb, hsplice, hu, hagain₁, hok⟩
    · obtain ⟨h', hr, hsum, he, hsites, hagain⟩ := ih _ _ _ h hj hsummary hok
      refine ⟨h', hr, hsum, he, List.forall_mem_cons.mpr ⟨fun caller s hc hb => ?_, hsites⟩, hagain⟩
      obtain ⟨caller₀, hc₀, hrc⟩ := hr.back _ caller hc
      rw [hrc.builtIn, hr.number] at hb
      exact absurd ⟨caller₀, hc₀, hb⟩ hnb
    · obtain ⟨h₁, hr₁, hsum₁, he₁, hacc, hstale⟩ :=
        spliceSite_spec hp h ht hcaller hb hsummary hsplice hu
      obtain ⟨h', hr, hsum, he, hsites, hagain⟩ :=
        ih _ _ _ h₁ (hr₁.order ▸ hj) (hsummary.builds he₁.builds) hok
      refine ⟨h', hr₁.trans hr, fun g old new hold hnew => ?_, he₁.trans he,
        List.forall_mem_cons.mpr ⟨?_, hsites⟩, ?_⟩
      · obtain ⟨mid, hmid, -⟩ := hr₁.forth g old hold
        exact (hsum g mid new hmid hnew).trans (hsum₁ g old mid hold hmid)
      · have hhere : AtSites p u' [site] fun s i g => Accounted s t i g summary' :=
          AtSites.reworks hacc h₁ hr fun s i g g' hs hg h =>
            (h.follows hs hg.1 hg.2).admits he₁.builds.settled he.admits
        exact hhere site (List.mem_singleton_self site)
      · refine hagain.imp_right fun ⟨hno, hlater⟩ => ⟨(hagain₁ hno).1, fun g hg => ?_⟩
        rcases hlater g hg with hg | hg
        · refine (hstale g hg).imp_right ?_
          rintro ⟨rfl, hchanged⟩
          -- the caller changed, so it comes later
          obtain ⟨c, info, hc, hf, hafter⟩ := (hagain₁ hno).2 hchanged
          rw [← hr₁.order]
          exact h₁.order.later_of_isAfter (hr₁.order ▸ hj) hc hf hafter
        · exact .inr (hr₁.order ▸ hg)

/-- **Splicing a summary into all callers.** They account for it afterwards. Every caller that
changes is passed over later, or another pass is asked for. -/
theorem spliceIntoCallers_spec (hp : p.Sound) (h : Passing p Q E u) {j : Nat}
    (hj : u.order[j]? = some f) {again : Bool} (hok : u.spliceIntoCallers p f = .ok (u', again)) :
    Passing p (fun g => Q g ∨ g = f) E u' ∧ Reworks u u' ∧
      (again = true ∨ ∀ g, u'.Stale g → u.Stale g ∨ ∃ k, j < k ∧ u.order[k]? = some g) := by
  obtain ⟨info, hf, -⟩ := (h.order j f).mp hj
  obtain ⟨t, ht, hsane⟩ := h.sane f info hf
  rw [spliceIntoCallers, hf] at hok
  obtain ⟨⟨summary, u₁, again₁⟩, hsplice, hok⟩ := bind_ok.mp hok
  cases hok
  obtain ⟨h₁, hr₁, hsum, henters, hsites, hagain⟩ :=
    spliceAt_spec hp ht _ _ _ _ h hj hsane.summary hsplice
  obtain ⟨info₁, hf₁, hri⟩ := hr₁.forth f info hf
  obtain ⟨t₁, ht₁, hsane₁⟩ := h₁.sane f info₁ hf₁
  cases ht.symm.trans ht₁
  have hsummary := hsum f info info₁ hf hf₁
  have hr₂ : Reworked u₁.number info₁ { info₁ with summary } :=
    .of_graph ⟨rfl, rfl, rfl, rfl, rfl⟩ rfl
  have hsane₂ : FuncInfo.Sane t { info₁ with summary } := by
    refine ⟨hsane₁.working, hsane₁.final, hsane.summary.builds henters.builds, fun hv => ?_⟩
    rw [henters.builds.valid, ← hsummary]
    exact hsane₁.valid hv
  rw [modify_eq hf₁]
  have h₂ : Passing p Q E (u₁.modify f fun _ => { info₁ with summary }) := by
    refine h₁.modify hf₁ ht hr₂ hsane₂ (h₁.stale f info₁ hf₁) (fun hst hv => ?_) (fun _ => id)
      fun _ s i g hacc => ?_
    · obtain ⟨hclosed, hcovers⟩ := h₁.covers f info₁ t hf₁ ht hst hv
      rw [hsummary] at hcovers
      exact ⟨hclosed, hcovers.follows hsane.summary.settled henters.builds.settled
        henters.builds.toFollows⟩
    · rw [hsummary] at hacc
      exact hacc.admits hsane.summary.settled henters.admits
  have hf₂ : (u₁.modify f fun _ => { info₁ with summary }).infos.find? f =
      some { info₁ with summary } := by
    rw [find?_modify, if_pos rfl]
  rw [← hri.callers] at hsites
  refine ⟨h₂.add hf₂ ht (hsites.reworks h₁ (.modify hf₁ hr₂) fun s i g g' hs hg h => h.follows hs
    hg.1 hg.2), hr₁.trans (.modify hf₁ hr₂), hagain.imp_right fun ⟨_, hlater⟩ g hg => hlater g ?_⟩
  rcases hg.modify with ⟨rfl, hst⟩ | ⟨-, hg⟩
  · exact ⟨info₁, hf₁, hst⟩
  · exact hg

/-! ### Escapes at calls -/

/-- Everything escapes that one call touches, if this update built its function. -/
theorem escapeCallSite_ok {more more' : Bool}
    (hok : escapeCallSite p (u, more) site = .ok (u', more')) :
    (u' = u ∧ more' = more ∧ ∀ P, AtSites p u [site] P) ∨ ∃ caller s graph,
      u.infos.find? site.caller = some caller ∧ Scope.of? p site.caller = some s ∧
      caller.builtIn = u.number ∧ caller.graph.escapeAll s site.site = .ok graph ∧ more' = true ∧
      u' = u.modify site.caller fun _ => { caller with graph, stale := true } := by
  have hnone (hno : ∀ caller s, u.infos.find? site.caller = some caller →
    Scope.of? p site.caller = some s →
      caller.builtIn ≠ u.number) (P : Scope → InstId → Graph → Prop) : AtSites p u [site] P := by
    intro site' hsite caller s hc hb hs _
    cases List.mem_singleton.mp hsite
    exact absurd hb (hno caller s hc hs)
  unfold escapeCallSite at hok
  dsimp only at hok
  split at hok
  · rename_i s caller hs hcaller
    split at hok
    · rename_i hnb
      cases hok
      refine .inl ⟨rfl, rfl, hnone fun caller' s' hc _ hb => ?_⟩
      cases hcaller.symm.trans hc
      rw [isRebuilt, decide_eq_true hb] at hnb
      cases hnb
    · rename_i hb
      obtain ⟨graph, hescape, hok⟩ := bind_ok.mp hok
      cases hok
      exact .inr ⟨caller, s, graph, hcaller,
        hs, by simpa [isRebuilt] using hb, hescape, rfl, modify_eq hcaller _⟩
  · rename_i hno
    cases hok
    exact .inl ⟨rfl, rfl, hnone fun caller s hc hs _ => hno s caller hs hc⟩

/-- Letting everything escape that one call touches. -/
theorem escapeCallSite_spec (h : Passing p Q E u) {more more' : Bool}
    (hok : escapeCallSite p (u, more) site = .ok (u', more')) :
    Passing p Q E u' ∧ Reworks u u' ∧ AtSites p u' [site] Escaped ∧
    (more' = true ∨ more = more' ∧ u' = u) := by
  rcases escapeCallSite_ok hok with ⟨rfl, rfl, hnone⟩ | ⟨caller, s, graph, hcaller, hs, hb, hescape,
    rfl, rfl⟩
  · exact ⟨h, .refl _, hnone _, .inr ⟨rfl, rfl⟩⟩
  · obtain ⟨s', hs', hsane⟩ := h.sane _ caller hcaller
    cases hs.symm.trans hs'
    have hc := (h.built _ caller hcaller).mpr hb
    have hgrown := hsane.working hc
    obtain ⟨hbuilds, hescaped⟩ := escapeAll_spec hgrown.settled hescape
    have hr : Reworked u.number caller { caller with graph, stale := true } :=
      ⟨⟨rfl, rfl, rfl, rfl, rfl⟩, fun hb' => absurd hb hb', fun _ => hbuilds.forward,
        fun _ => hbuilds.supplies⟩
    refine ⟨h.modify hcaller hs hr ⟨fun _ => hgrown.builds hbuilds, fun hc' => ?_, hsane.summary,
      ?_⟩ (fun _ => hb) nofun (fun _ => id) (fun _ _ _ _ => id), .modify hcaller hr,
      atSites_modify hcaller h (.modify hcaller hr) fun s' hs' => ?_, .inl rfl⟩
    · cases hc.symm.trans hc'
    · rw [hbuilds.valid]
      exact hsane.valid
    · cases hs.symm.trans hs'
      exact hescaped

/-- **Letting everything escape that the calls of a function touch.** If a graph changes, another
pass is asked for. -/
theorem escapeCallSites_spec (h : Passing p Q E u) (hf : u.infos.find? f = some info) {more : Bool}
    (hok : u.escapeCallSites p f = .ok (u', more)) :
    Passing p Q (fun g => E g ∨ g = f) u' ∧ Reworks u u' ∧
    (more = true ∨ ∀ g, u'.Stale g → u.Stale g) := by
  rw [escapeCallSites, hf] at hok
  have hloop := foldlM_of_ok (P := fun done (acc : Update × Bool) => Passing p Q E acc.1 ∧
    Reworks u acc.1 ∧ AtSites p acc.1 done Escaped ∧ (acc.2 = true ∨ acc.1 = u)) ?_
    ⟨h, .refl u, nofun, .inr rfl⟩ hok
  · obtain ⟨h', hr, hsites, hmore⟩ := hloop
    obtain ⟨info', hf', hri⟩ := hr.forth f info hf
    rw [← hri.callers] at hsites
    refine ⟨h'.addEscaped hf' hsites, hr, hmore.imp_right fun he g hg => ?_⟩
    rwa [show u' = u from he] at hg
  · rintro done site rest ⟨u₁, more₁⟩ ⟨u₂, more₂⟩ - ⟨h₁, hr₁, hsites, hmore⟩ hstep
    obtain ⟨h₂, hr₂, hsite, hmore₂⟩ := escapeCallSite_spec h₁ hstep
    refine ⟨h₂, hr₁.trans hr₂, atSites_append.mpr ⟨?_, hsite⟩, ?_⟩
    · exact hsites.reworks h₁ hr₂ fun s i g g' hs hg h => h.follows hs hg.2
    · rcases hmore₂ with hm | ⟨rfl, rfl⟩
      · exact .inl hm
      · exact hmore

end Passes

/-- What passes aim at. -/
theorem Passing.balanced (h : Passing p Q E u) (hfresh : ∀ g, ¬ u.Stale g) (hall : ∀ f, Q f ∨ E f) :
    Balanced p u.infos where
  sane := h.sane
  covers f info s hf hs := by
    refine h.covers f info s hf hs ?_
    rw [← Bool.not_eq_true]
    exact fun hst => hfresh f ⟨info, hf, hst⟩
  calls f info hf site hsite caller s t hcaller hs ht hv := by
    obtain ⟨haccounted, hescaped⟩ := h.calls f info hf site hsite caller s t hcaller hs ht hv
    by_cases hb : caller.builtIn = u.number
    · exact (hall f).elim (fun hQ => haccounted (.inr hQ)) fun hE => .inl (hescaped hb hE)
    · exact haccounted (.inl hb)

/-! ### One pass -/

/-- The functions whose callers account for them when a pass has come past `done`. -/
def accountedIn (limit pass : Nat) (done : List FuncId) (f : FuncId) : Prop :=
  pass < limit ∧ (0 < pass ∨ f ∈ done)

/-- The functions at whose calls everything escapes when a pass has come past `done`. -/
def escapedIn (limit pass : Nat) (done : List FuncId) (f : FuncId) : Prop :=
  limit < pass ∨ pass = limit ∧ f ∈ done

section Pass

variable {limit pass : Nat} {done rest : List FuncId} {again again' : Bool}

/-- What a pass keeps: the summaries of all functions that it came past are up to date, unless
another pass is asked for. -/
structure InPass (p : Program) (limit pass : Nat) (done : List FuncId) (u : Update) (again : Bool) :
    Prop extends Passing p (accountedIn limit pass done) (escapedIn limit pass done) u where
  fresh : again = true ∨ ∀ g ∈ done, ¬ u.Stale g

/-- The function that a loop over the order comes to. -/
theorem order_here (horder : u.order.toList = done ++ f :: rest) :
    u.order[done.length]? = some f := by
  rw [← Array.getElem?_toList, horder, List.getElem?_append_right (Nat.le_refl _), Nat.sub_self]
  rfl

/-- The functions that a loop over the order came past. -/
theorem order_before (horder : u.order.toList = done ++ rest) (hg : g ∈ done) :
    ∃ i < done.length, u.order[i]? = some g := by
  obtain ⟨i, hi⟩ := List.mem_iff_getElem?.mp hg
  obtain ⟨hlt, -⟩ := List.getElem?_eq_some_iff.mp hi
  refine ⟨i, hlt, ?_⟩
  rw [← Array.getElem?_toList, horder, List.getElem?_append_left hlt, hi]

/-- No function that a pass came past is later in the order. -/
theorem Placed.not_later (h : Placed u) (horder : u.order.toList = done ++ f :: rest)
    (hg : g ∈ done ++ [f]) {k : Nat} (hlt : done.length < k) : u.order[k]? ≠ some g := by
  intro hk
  rw [List.append_cons] at horder
  obtain ⟨i, hi, hgi⟩ := order_before horder hg
  have hik := h.unique hgi hk
  rw [List.length_append, List.length_singleton] at hi
  omega

theorem passOver_ok (hok : passOver p limit pass (u, again) f = .ok (u', again')) :
    ∃ u₁ changed more, u.refreshSummary p f = .ok (u₁, changed) ∧ again' = (again || more) ∧
      ((pass < limit ∧ (pass = 0 ∨ changed = true) ∧ u₁.spliceIntoCallers p f = .ok (u', more)) ∨
        (pass < limit ∧ 0 < pass ∧ changed = false ∧ u' = u₁ ∧ more = false) ∨
        (pass = limit ∧ u₁.escapeCallSites p f = .ok (u', more)) ∨
        (limit < pass ∧ u' = u₁ ∧ more = false)) := by
  obtain ⟨⟨u₁, changed⟩, hrefresh, hok⟩ := bind_ok.mp hok
  dsimp only at hok
  split at hok
  · rename_i hlt
    split at hok
    · rename_i hwhy
      obtain ⟨⟨u₂, more⟩, hsplice, hok⟩ := bind_ok.mp hok
      cases hok
      exact ⟨u₁, changed, more, hrefresh, rfl, .inl ⟨hlt, by simpa using hwhy, hsplice⟩⟩
    · rename_i hwhy
      cases hok
      rw [Bool.or_eq_true, decide_eq_true_eq, not_or, Bool.not_eq_true] at hwhy
      exact ⟨u₁, changed, false, hrefresh, rfl,
        .inr (.inl ⟨hlt, Nat.pos_of_ne_zero hwhy.1, hwhy.2, rfl, rfl⟩)⟩
  · rename_i hge
    split at hok
    · rename_i heq
      obtain ⟨⟨u₂, more⟩, hescape, hok⟩ := bind_ok.mp hok
      cases hok
      exact ⟨u₁, changed, more, hrefresh, rfl, .inr (.inr (.inl ⟨heq, hescape⟩))⟩
    · cases hok
      exact ⟨u₁, changed, false, hrefresh, rfl, .inr (.inr (.inr ⟨by omega, rfl, rfl⟩))⟩

/-- The step of a pass. -/
theorem InPass.passOver (hp : p.Sound) (h : InPass p limit pass done u again)
    (horder : u.order.toList = done ++ f :: rest)
    (hok : passOver p limit pass (u, again) f = .ok (u', again')) :
    InPass p limit pass (done ++ [f]) u' again' ∧ Reworks u u' ∧
    (limit < pass → again' = again) := by
  obtain ⟨u₁, changed, more, hrefresh, rfl, hcases⟩ := passOver_ok hok
  obtain ⟨h₁, hr₁, hstale₁⟩ := refreshSummary_spec hp h.toPassing hrefresh
  -- nothing that the pass came past is stale before the callers change
  have hfresh₁ : again = true ∨ ∀ g ∈ done ++ [f], ¬ u₁.Stale g := by
    refine h.fresh.imp_right fun hfresh g hg hst => ?_
    obtain ⟨hst, hne⟩ := hstale₁ g hst
    rcases List.mem_append.mp hg with hg | hg
    · exact hfresh g hg hst
    · exact hne (List.mem_singleton.mp hg)
  have hfresh (hmore : more = true ∨ ∀ g ∈ done ++ [f], u'.Stale g → u₁.Stale g) :
      (again || more) = true ∨ ∀ g ∈ done ++ [f], ¬ u'.Stale g := by
    rcases hmore with rfl | hmore
    · exact .inl (Bool.or_true again)
    · rcases hfresh₁ with rfl | hfresh₁
      · exact .inl rfl
      · exact .inr fun g hg hst => hfresh₁ g hg (hmore g hg hst)
  have hplace : u₁.order[done.length]? = some f := order_here (hr₁.order ▸ horder)
  rcases hcases with ⟨hlt, -, hsplice⟩ | ⟨hlt, hpos, rfl, rfl, rfl⟩ | ⟨rfl, hescape⟩ |
    ⟨hlt, rfl, rfl⟩
  · obtain ⟨h₂, hr₂, hmore⟩ := spliceIntoCallers_spec hp h₁ hplace hsplice
    refine ⟨⟨h₂.mono (fun g _ hg => ?_) (fun g _ hg => ?_),
      hfresh (hmore.imp_right fun hlater g hg hst => ?_)⟩, hr₁.trans hr₂,
      fun hgt => absurd hgt (Nat.lt_asymm hlt)⟩
    · by_cases hgf : g = f
      · exact .inr hgf
      · refine .inl ⟨⟨hlt, hg.2.imp_right fun hg => ?_⟩, fun he => absurd he hgf⟩
        exact (List.mem_append.mp hg).resolve_right fun he => hgf (List.mem_singleton.mp he)
    · rcases hg with hgt | ⟨rfl, -⟩
      · exact absurd hgt (Nat.lt_asymm hlt)
      · exact absurd hlt (Nat.lt_irrefl _)
    · rcases hlater g hst with hst | ⟨k, hk, hgk⟩
      · exact hst
      · exact absurd hgk (h₁.order.not_later (hr₁.order ▸ horder) hg hk)
  · refine ⟨⟨h₁.mono (fun g _ hg => ⟨⟨hlt, .inl hpos⟩, fun _ => rfl⟩) (fun g _ hg => ?_),
      hfresh (.inr fun _ _ => id)⟩, hr₁, fun hgt => absurd hgt (Nat.lt_asymm hlt)⟩
    rcases hg with hgt | ⟨rfl, -⟩
    · exact absurd hgt (Nat.lt_asymm hlt)
    · exact absurd hlt (Nat.lt_irrefl _)
  · obtain ⟨info, hf, -⟩ := (h₁.order _ f).mp hplace
    obtain ⟨h₂, hr₂, hmore⟩ := escapeCallSites_spec h₁ hf hescape
    refine ⟨⟨h₂.mono (fun g _ hg => absurd hg.1 (Nat.lt_irrefl _)) (fun g _ hg => ?_),
      hfresh (hmore.imp_right fun hlater g _ hst => hlater g hst)⟩, hr₁.trans hr₂,
      fun hgt => absurd hgt (Nat.lt_irrefl _)⟩
    rcases hg with hgt | ⟨-, hg⟩
    · exact absurd hgt (Nat.lt_irrefl _)
    · rcases List.mem_append.mp hg with hg | hg
      · exact .inl (.inr ⟨rfl, hg⟩)
      · exact .inr (List.mem_singleton.mp hg)
  · refine ⟨⟨h₁.mono (fun g _ hg => absurd hg.1 (Nat.lt_asymm hlt)) (fun _ _ _ => .inl hlt),
      hfresh (.inr fun _ _ => id)⟩, hr₁, fun _ => Bool.or_false again⟩

/-- A whole pass. -/
theorem InPass.all (hp : p.Sound) (h : InPass p limit pass [] u false)
    (hok : u.order.toList.foldlM (Update.passOver p limit pass) (u, false) = .ok (u', again)) :
    InPass p limit pass u.order.toList u' again ∧ Reworks u u' ∧
    (limit < pass → again = false) := by
  refine foldlM_of_ok (P := fun done (acc : Update × Bool) => InPass p limit pass done acc.1 acc.2 ∧
    Reworks u acc.1 ∧ (limit < pass → acc.2 = false)) ?_ ⟨h, .refl u, fun _ => rfl⟩ hok
  rintro done f rest ⟨u₁, again₁⟩ ⟨u₂, again₂⟩ horder ⟨h₁, hr₁, hend₁⟩ hstep
  rw [← hr₁.order] at horder
  obtain ⟨h₂, hr₂, hend₂⟩ := h₁.passOver hp horder hstep
  exact ⟨h₂, hr₁.trans hr₂, fun hlt => (hend₂ hlt).trans (hend₁ hlt)⟩

/-- **All passes.** In the end nothing is stale, and every call is accounted for. -/
theorem passes_spec (hp : p.Sound) : ∀ (bound pass : Nat) (u : Update) {u' : Update},
    pass + bound = limit + 2 → 0 < bound → InPass p limit pass [] u false →
    passes p limit bound pass u = .ok u' →
    Planned p u' ∧ Reworks u u' ∧ (∀ g, ¬ u'.Stale g) ∧ Balanced p u'.infos := by
  intro bound
  induction bound with
  | zero => exact fun _ _ _ _ hpos => absurd hpos (Nat.lt_irrefl 0)
  | succ bound ih =>
    intro pass u u' hsum _ h hok
    obtain ⟨⟨u₁, again⟩, hall, hok⟩ := bind_ok.mp hok
    obtain ⟨h₁, hr₁, hend⟩ := h.all hp hall
    have hmem (g : FuncId) (hg : g ∈ u₁.order) : g ∈ u.order.toList := by
      rw [← hr₁.order]
      exact Array.mem_toList_iff.mpr hg
    cases again with
    | true =>
      -- the pass beyond the limit asks for no other
      have hle : pass ≤ limit := Nat.le_of_not_lt fun hlt => Bool.noConfusion (hend hlt)
      have h₂ : InPass p limit (pass + 1) [] u₁ false := by
        refine ⟨h₁.mono (fun g hg hQ => ⟨?_, .inr (hmem g hg)⟩) (fun g hg hE => ?_), .inr nofun⟩
        · exact Nat.lt_of_succ_lt hQ.1
        · rcases hE with hlt | ⟨-, hg'⟩
          · exact .inr ⟨by omega, hmem g hg⟩
          · cases hg'
      obtain ⟨hplan, hr₂, hrest⟩ := ih (pass + 1) u₁ (by omega) (by omega) h₂ hok
      exact ⟨hplan, hr₁.trans hr₂, hrest⟩
    | false =>
      cases hok
      have hfresh (g : FuncId) : ¬ u'.Stale g := by
        intro hst
        obtain ⟨info, hg, hs⟩ := id hst
        have hplaced := h₁.placed g info hg (h₁.stale g info hg hs)
        exact (h₁.fresh.resolve_left Bool.noConfusion) g (hmem g hplaced) hst
      have h₂ : Passing p (fun _ => pass < limit) (fun _ => limit ≤ pass) u' := by
        refine h₁.mono (fun g hg hlt => ⟨hlt, .inr (hmem g hg)⟩) (fun g hg hle => ?_)
        exact (Nat.lt_or_eq_of_le hle).imp_right fun he => ⟨he.symm, hmem g hg⟩
      exact ⟨h₁.toPlanned, hr₁, hfresh, h₂.balanced hfresh fun _ => Nat.lt_or_ge pass limit⟩

end Pass

end Update

end Escape
