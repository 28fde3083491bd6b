import Escape.Proofs.Analysis.Drawing
import Escape.Proofs.Analysis.Summaries

/-!
# Building the graphs of a call tree

An update first builds the graphs of a function and of the functions it calls. Functions whose
graphs are final are visited, but keep their graphs. In the end every function that was visited has
its place in the order of the update, and so has every function that is called by one that was
built.

- `Analysis.build_correct`: building a function keeps everything in order, and leaves at most the
  function itself without a place.
-/

namespace Escape

open Escape.Graph

variable {p : Program} {s : Scope} {u u' u'' : Update} {f g : FuncId} {info info' : FuncInfo}
  {site : CallSite}

/-- The function of a scope is one of the program. -/
theorem Program.Sound.of? (hp : p.Sound) (h : Scope.of? p f = some s) : s.func.Sound :=
  hp _ _ (Scope.of?_spec h).2.2

/-! ### What is known about a function -/

namespace FuncInfo

/-- The graphs of a function are in the making, or completed. -/
structure Sane (s : Scope) (info : FuncInfo) : Prop where
  working : info.computed = false → Grown s info.graph
  final : info.computed = true → ∃ g, Grown s g ∧ Update.complete s g = .ok info.graph
  summary : Grown s info.summary
  valid : info.graph.valid = true → info.summary.valid = true

/-- The marks of a function within an update. -/
structure Marked (number : Nat) (info : FuncInfo) : Prop where
  final : info.computed = true → info.stale = false ∧ info.builtIn ≠ number
  built : info.builtIn = number → info.visitedIn = number ∧ info.stale = true ∧
    info.summary.valid = true
  visited : info.visitedIn = number → info.computed = false → info.builtIn = number
  early : info.builtIn ≤ number ∧ info.visitedIn ≤ number

theorem Marked.computed (h : Marked u.number info) (hb : info.builtIn = u.number) :
    info.computed = false := by
  cases hc : info.computed with
  | false => rfl
  | true => exact absurd hb (h.final hc).2

/-- After a visit of a function with final graphs. -/
def visited (number : Nat) (info : FuncInfo) : FuncInfo :=
  { info with visitedIn := number, position := none }

/-- After a visit of a function without final graphs: both are to be built anew. -/
def emptied (f : FuncId) (number : Nat) (info : FuncInfo) : FuncInfo where
  graph := .full f
  summary := .ofCallers f
  callers := info.callers
  stale := true
  computed := info.computed
  builtIn := number
  visitedIn := number

theorem fresh_sane (hs : Scope.of? p f = some s) : (fresh f).Sane s := by
  obtain ⟨func, -, rfl⟩ := Option.map_eq_some_iff.mp hs
  exact ⟨fun _ => .of_empty, nofun, .of_empty, fun _ => rfl⟩

end FuncInfo

namespace Update

/-- What is known about a function; at first nothing is. -/
def known (u : Update) (f : FuncId) : FuncInfo := (u.infos.find? f).getD (.fresh f)

theorem known_of_find? (h : u.infos.find? f = some info) : u.known f = info := by
  rw [known, h]
  rfl

theorem find?_modify (u : Update) (f g : FuncId) (change : FuncInfo → FuncInfo) :
    (u.modify f change).infos.find? g =
    if f = g then some (change (u.known f)) else u.infos.find? g :=
  AssocMap.find?_insert ..

theorem known_modify (u : Update) (f g : FuncId) (change : FuncInfo → FuncInfo) :
    (u.modify f change).known g = if f = g then change (u.known f) else u.known g := by
  rw [known, find?_modify]
  split <;> rfl

/-- The graphs of the function were built in this update. -/
def Rebuilt (u : Update) (f : FuncId) : Prop :=
  ∃ info, u.infos.find? f = some info ∧ info.builtIn = u.number

/-- What holds while the graphs of an update are built. -/
structure Building (p : Program) (u : Update) : Prop where
  pos : 0 < u.number
  sane : ∀ f info, u.infos.find? f = some info → ∃ s, Scope.of? p f = some s ∧ info.Sane s
  marks : ∀ f info, u.infos.find? f = some info → info.Marked u.number
  edges : ∀ f info, u.infos.find? f = some info → ∀ site ∈ info.callers,
    (∃ caller, u.infos.find? site.caller = some caller ∧
      (caller.builtIn = u.number ∨ caller.computed = true ∧ info.computed = true)) ∧
    ∀ s, Scope.of? p site.caller = some s → s.Reaches site.site
  order : ∀ j f, u.order[j]? = some f ↔
    ∃ info, u.infos.find? f = some info ∧ info.visitedIn = u.number ∧ info.position = some j

/-- The function has to get a place in the order: it was visited but has none, or it has to be
visited, since its graphs are not final or a function that was built calls it. -/
def Pending (u : Update) (f : FuncId) : Prop :=
  ∃ info, u.infos.find? f = some info ∧ (info.visitedIn = u.number ∧ info.position = none ∨
    info.visitedIn ≠ u.number ∧ (info.computed = false ∨ ∃ site ∈ info.callers,
    u.Rebuilt site.caller))

/-- What building graphs does not touch. -/
structure Keeps (u u' : Update) : Prop where
  number : u'.number = u.number
  info : ∀ f info, u.infos.find? f = some info → ∃ info', u'.infos.find? f = some info' ∧
    info'.computed = info.computed ∧
    (info.computed = true → info'.graph = info.graph ∧ info'.summary = info.summary) ∧
    (info.visitedIn = u.number → info'.visitedIn = u.number) ∧
    (info.builtIn = u.number → info'.builtIn = u.number)
  final : ∀ f info', u'.infos.find? f = some info' → info'.computed = true → ∃ info,
    u.infos.find? f = some info
  callers : ∀ f info', u'.infos.find? f = some info' → ∀ site ∈ info'.callers,
    (∃ info, u.infos.find? f = some info ∧ site ∈ info.callers) ∨ u'.Rebuilt site.caller

namespace Keeps

theorem refl (u : Update) : Keeps u u where
  number := rfl
  info _ info h := ⟨info, h, rfl, fun _ => ⟨rfl, rfl⟩, id, id⟩
  final _ info h _ := ⟨info, h⟩
  callers _ info h _ hs := .inl ⟨info, h, hs⟩

theorem rebuilt (h : Keeps u u') (hf : u.Rebuilt f) : u'.Rebuilt f := by
  obtain ⟨info, hinfo, hb⟩ := hf
  obtain ⟨info', hinfo', -, -, -, hb'⟩ := h.info f info hinfo
  exact ⟨info', hinfo', by rw [h.number]; exact hb' hb⟩

theorem trans (h : Keeps u u') (h' : Keeps u' u'') : Keeps u u'' where
  number := h'.number.trans h.number
  info f info hf := by
    obtain ⟨info₁, h₁, hc₁, hg₁, hv₁, hb₁⟩ := h.info f info hf
    obtain ⟨info₂, h₂, hc₂, hg₂, hv₂, hb₂⟩ := h'.info f info₁ h₁
    rw [h.number] at hv₂ hb₂
    refine ⟨info₂, h₂, hc₂.trans hc₁, fun hc => ?_, hv₂ ∘ hv₁, hb₂ ∘ hb₁⟩
    obtain ⟨hgraph, hsummary⟩ := hg₁ hc
    obtain ⟨hgraph', hsummary'⟩ := hg₂ (hc₁.trans hc)
    exact ⟨hgraph'.trans hgraph, hsummary'.trans hsummary⟩
  final f info₂ h₂ hc := by
    obtain ⟨info₁, h₁⟩ := h'.final f info₂ h₂ hc
    obtain ⟨info₂', h₂', hc', -⟩ := h'.info f info₁ h₁
    cases h₂.symm.trans h₂'
    exact h.final f info₁ h₁ (hc'.symm.trans hc)
  callers f info₂ h₂ site hsite := by
    rcases h'.callers f info₂ h₂ site hsite with ⟨info₁, h₁, hs₁⟩ | hr
    · exact (h.callers f info₁ h₁ site hs₁).imp_right h'.rebuilt
    · exact .inr hr

end Keeps

/-- A step of building graphs: the functions that have to get a place because of it are in `new`. -/
structure Advances (p : Program) (new : FuncId → Prop) (u u' : Update) : Prop where
  building : Building p u'
  keeps : Keeps u u'
  pending : ∀ f, u'.Pending f → u.Pending f ∨ new f

namespace Advances

variable {new new' : FuncId → Prop}

theorem refl (h : Building p u) : Advances p new u u := ⟨h, .refl u, fun _ => .inl⟩

theorem trans (h : Advances p new u u') (h' : Advances p new u' u'') : Advances p new u u'' where
  building := h'.building
  keeps := h.keeps.trans h'.keeps
  pending f hf := by
    rcases h'.pending f hf with hf | hf
    · exact h.pending f hf
    · exact .inr hf

theorem mono (h : Advances p new u u') (hnew : ∀ f, new f → new' f) : Advances p new' u u' :=
  ⟨h.building, h.keeps, fun f hf => (h.pending f hf).imp_right (hnew f)⟩

end Advances

/-- What may be put in the place of what is known about a function. -/
structure Improves (p : Program) (u : Update) (f : FuncId) (info' : FuncInfo) : Prop where
  sane : ∃ s, Scope.of? p f = some s ∧ info'.Sane s
  marked : info'.Marked u.number
  computed : info'.computed = (u.known f).computed
  final : (u.known f).computed = true →
    info'.graph = (u.known f).graph ∧ info'.summary = (u.known f).summary
  visited : (u.known f).visitedIn = u.number → info'.visitedIn = u.number
  rebuilt : (u.known f).builtIn = u.number → info'.builtIn = u.number
  callers : ∀ site ∈ info'.callers, site ∈ (u.known f).callers ∨
    u.Rebuilt site.caller ∧ ∀ s, Scope.of? p site.caller = some s → s.Reaches site.site

/-- Without an entry, nothing is known. -/
theorem find?_of_visited (hpos : 0 < u.number) (hv : (u.known f).visitedIn = u.number) :
    u.infos.find? f = some (u.known f) := by
  cases hf : u.infos.find? f with
  | none =>
    rw [known, hf] at hv
    exact absurd hv (Nat.ne_of_lt hpos)
  | some info => rw [known_of_find? hf]

theorem find?_of_mem_callers (hs : site ∈ (u.known f).callers) :
    u.infos.find? f = some (u.known f) := by
  cases hf : u.infos.find? f with
  | none =>
    rw [known, hf] at hs
    cases hs
  | some info => rw [known_of_find? hf]

theorem Rebuilt.modify (hr : u.Rebuilt g)
    (hb : (u.known f).builtIn = u.number → info'.builtIn = u.number) :
    (u.modify f fun _ => info').Rebuilt g := by
  obtain ⟨info, hg, hbuilt⟩ := hr
  rw [Rebuilt, find?_modify]
  by_cases hfg : f = g
  · subst hfg
    rw [known_of_find? hg] at hb
    exact ⟨info', if_pos rfl, hb hbuilt⟩
  · exact ⟨info, by rw [if_neg hfg, hg], hbuilt⟩

section

variable (hi : Improves p u f info')
include hi

/-- A call site that was recorded before is one of a function that was built before, if it is one of
a function that is built now. -/
theorem Improves.rebuilt_of (h : Building p u) (hg : u.infos.find? g = some info)
    (hsite : site ∈ info.callers)
    (hr : (u.modify f fun _ => info').Rebuilt site.caller) : u.Rebuilt site.caller := by
  obtain ⟨⟨caller, hcaller, hstate⟩, -⟩ := h.edges g info hg site hsite
  obtain ⟨caller', hcaller', hbuilt⟩ := hr
  rw [find?_modify] at hcaller'
  split at hcaller'
  · rename_i hf
    cases hcaller'
    rw [hf] at hi
    have hcomputed := hi.computed
    rw [known_of_find? hcaller] at hcomputed
    rcases hstate with hb | ⟨hc, -⟩
    · exact ⟨caller, hcaller, hb⟩
    · exact absurd hbuilt (hi.marked.final (hcomputed.trans hc)).2
  · exact ⟨caller', hcaller', hbuilt⟩

theorem Improves.keeps : Keeps u (u.modify f fun _ => info') := by
  refine ⟨rfl, fun g info hg => ?_, fun g info hg hc => ?_, fun g info hg site hsite => ?_⟩
  · rw [find?_modify]
    split
    · rename_i hfg
      subst hfg
      cases known_of_find? hg
      exact ⟨info', rfl, hi.computed, hi.final, hi.visited, hi.rebuilt⟩
    · exact ⟨info, hg, rfl, fun _ => ⟨rfl, rfl⟩, id, id⟩
  · rw [find?_modify] at hg
    split at hg
    · rename_i hfg
      subst hfg
      cases hg
      -- a function that nothing is known about has no final graphs
      cases hf : u.infos.find? f with
      | none =>
        have hcomputed := hi.computed
        rw [known, hf] at hcomputed
        cases hc.symm.trans hcomputed
      | some info => exact ⟨info, rfl⟩
    · exact ⟨info, hg⟩
  · rw [find?_modify] at hg
    split at hg
    · rename_i hfg
      subst hfg
      cases hg
      rcases hi.callers site hsite with hold | ⟨hnew, -⟩
      · exact .inl ⟨_, find?_of_mem_callers hold, hold⟩
      · exact .inr (hnew.modify hi.rebuilt)
    · exact .inl ⟨info, hg, hsite⟩

theorem Improves.edges (h : Building p u) :
    ∀ g info, (u.modify f fun _ => info').infos.find? g = some info → ∀ site ∈ info.callers,
      (∃ caller, (u.modify f fun _ => info').infos.find? site.caller = some caller ∧
        (caller.builtIn = u.number ∨ caller.computed = true ∧ info.computed = true)) ∧
      ∀ s, Scope.of? p site.caller = some s → s.Reaches site.site := by
  have hold {g : FuncId} {info : FuncInfo} (hg : u.infos.find? g = some info) {site : CallSite}
      (hsite : site ∈ info.callers) :
      (∃ caller, (u.modify f fun _ => info').infos.find? site.caller = some caller ∧
        (caller.builtIn = u.number ∨ caller.computed = true ∧ info.computed = true)) ∧
      ∀ s, Scope.of? p site.caller = some s → s.Reaches site.site := by
    obtain ⟨⟨caller, hcaller, hstate⟩, hreach⟩ := h.edges g info hg site hsite
    obtain ⟨caller', hcaller', hc, -, -, hb⟩ := hi.keeps.info _ caller hcaller
    refine ⟨⟨caller', hcaller', hstate.imp hb fun hfinal => ?_⟩, hreach⟩
    rw [hc]
    exact hfinal
  intro g info hg site hsite
  rw [find?_modify] at hg
  split at hg
  · cases hg
    rcases hi.callers site hsite with hs | ⟨hnew, hreach⟩
    · rw [hi.computed]
      exact hold (find?_of_mem_callers hs) hs
    · have hkept : (u.modify f fun _ => info').Rebuilt site.caller := hnew.modify hi.rebuilt
      obtain ⟨caller, hcaller, hb⟩ := hkept
      exact ⟨⟨caller, hcaller, .inl hb⟩, hreach⟩
  · exact hold hg hsite

omit hi in
/-- What is known about a function keeps the place of the function. -/
structure Stays (u : Update) (f : FuncId) (info' : FuncInfo) : Prop where
  placed : (u.known f).visitedIn = u.number → info'.position = (u.known f).position
  unplaced : (u.known f).visitedIn ≠ u.number → info'.visitedIn = u.number → info'.position = none

theorem Improves.order (hp : Stays u f info') (h : Building p u) (j : Nat)
    (g : FuncId) : u.order[j]? = some g ↔ ∃ info,
    (u.modify f fun _ => info').infos.find? g = some info ∧
      info.visitedIn = u.number ∧ info.position = some j := by
  rw [h.order]
  by_cases hfg : f = g
  · subst hfg
    constructor
    · rintro ⟨info, hf, hv, hj⟩
      cases known_of_find? hf
      exact ⟨info', by rw [find?_modify, if_pos rfl], hi.visited hv, (hp.placed hv).trans hj⟩
    · rintro ⟨info, hf, hv, hj⟩
      rw [find?_modify, if_pos rfl] at hf
      cases hf
      by_cases hold : (u.known f).visitedIn = u.number
      · exact ⟨u.known f, find?_of_visited h.pos hold, hold, (hp.placed hold).symm.trans hj⟩
      · cases (hp.unplaced hold hv).symm.trans hj
  · rw [find?_modify, if_neg hfg]

theorem Improves.infos (h : Building p u) {g : FuncId} {info : FuncInfo}
    (hg : (u.modify f fun _ => info').infos.find? g = some info) :
    (∃ s, Scope.of? p g = some s ∧ info.Sane s) ∧ info.Marked u.number := by
  rw [find?_modify] at hg
  split at hg
  · rename_i hfg
    cases hg
    exact ⟨hfg ▸ hi.sane, hi.marked⟩
  · exact ⟨h.sane g info hg, h.marks g info hg⟩

/-- A function that has to get a place is the one that was changed, or had to get one before. -/
theorem Improves.pending (h : Building p u)
    (hg : (u.modify f fun _ => info').Pending g) : u.Pending g ∨ g = f := by
  obtain ⟨info, hinfo, hwhy⟩ := hg
  rw [find?_modify] at hinfo
  split at hinfo
  · rename_i hfg
    exact .inr hfg.symm
  · refine .inl ⟨info, hinfo, hwhy.imp_right fun hv => ⟨hv.1, hv.2.imp_right ?_⟩⟩
    rintro ⟨site, hsite, hr⟩
    exact ⟨site, hsite, hi.rebuilt_of h hinfo hsite hr⟩

/-- **Changing what is known about a function.** -/
theorem Improves.advances (hp : Stays u f info') (h : Building p u) :
    Advances p (· = f) u (u.modify f fun _ => info') where
  building := {
    pos := h.pos
    sane := fun _ _ hg => (hi.infos h hg).1
    marks := fun _ _ hg => (hi.infos h hg).2
    edges := hi.edges h
    order := hi.order hp h }
  keeps := hi.keeps
  pending _ := hi.pending h

end

/-! ### The steps of building -/

variable (h : Building p u)
include h

section

variable (hs : Scope.of? p f = some s)
include hs

theorem Building.known : (u.known f).Sane s ∧ (u.known f).Marked u.number := by
  cases hf : u.infos.find? f with
  | none =>
    have hknown : u.known f = .fresh f := by
      rw [Update.known, hf]
      rfl
    rw [hknown]
    refine ⟨FuncInfo.fresh_sane hs, nofun, fun hb => ?_, fun hv => ?_, Nat.zero_le _, Nat.zero_le _⟩
    · exact absurd hb (Nat.ne_of_lt h.pos)
    · exact absurd hv (Nat.ne_of_lt h.pos)
  | some info =>
    rw [known_of_find? hf]
    obtain ⟨s', hs', hsane⟩ := h.sane f info hf
    cases hs.symm.trans hs'
    exact ⟨hsane, h.marks f info hf⟩

omit hs in
omit h in
theorem addCaller_spec (site : CallSite) (info : FuncInfo) :
    ∃ callers, info.addCaller site = { info with callers } ∧
      ∀ site' ∈ callers, site' ∈ info.callers ∨ site' = site := by
  unfold FuncInfo.addCaller
  split
  · exact ⟨info.callers, rfl, fun _ => .inl⟩
  · refine ⟨info.callers ++ [site], rfl, fun site' h => ?_⟩
    rcases List.mem_append.mp h with h | h
    · exact .inl h
    · exact .inr (List.mem_singleton.mp h)

/-- Recording a call site of a function that is being built. -/
theorem addCaller_advances (hr : u.Rebuilt site.caller)
    (hreach : ∀ s, Scope.of? p site.caller = some s → s.Reaches site.site) :
    Advances p (fun g => g = f ∧ (u.known f).visitedIn ≠ u.number) u
    (u.modify f (·.addCaller site)) := by
  obtain ⟨hsane, hmarked⟩ := h.known hs
  obtain ⟨callers, he, hmem⟩ := addCaller_spec site (u.known f)
  have hi : Improves p u f ((u.known f).addCaller site) := by
    rw [he]
    refine ⟨⟨s, hs, hsane.1, hsane.2, hsane.3, hsane.4⟩,
      ⟨hmarked.1, hmarked.2, hmarked.3, hmarked.4⟩, rfl, fun _ => ⟨rfl, rfl⟩, id, id,
      fun site' hsite => ?_⟩
    rcases hmem site' hsite with hold | rfl
    · exact .inl hold
    · exact .inr ⟨hr, hreach⟩
  have hp : Stays u f ((u.known f).addCaller site) := by
    rw [he]
    exact ⟨fun _ => rfl, fun hv hv' => absurd hv' hv⟩
  have hadv := hi.advances hp h
  refine ⟨hadv.building, hadv.keeps, fun g hg => ?_⟩
  rcases hadv.pending g hg with hold | rfl
  · exact .inl hold
  · by_cases hv : (u.known g).visitedIn = u.number
    · -- whether a visited function needs a place does not depend on its callers
      obtain ⟨info, hinfo, hwhy⟩ := hg
      rw [show u.modify g (·.addCaller site) =
        u.modify g fun _ => (u.known g).addCaller site from rfl, find?_modify,
        if_pos rfl, he] at hinfo
      cases hinfo
      rcases hwhy with ⟨-, hp⟩ | ⟨hnv, -⟩
      · exact .inl ⟨u.known g, find?_of_visited h.pos hv, .inl ⟨hv, hp⟩⟩
      · exact absurd hv hnv
    · exact .inr ⟨rfl, hv⟩

omit hs in
omit h in
/-- What visiting a function does. -/
theorem visit_cases (u : Update) (f : FuncId) :
    ((u.known f).visitedIn = u.number ∧ u.visit f = (u, false)) ∨
      (u.known f).visitedIn ≠ u.number ∧
        ((u.known f).computed = true ∧
            u.visit f = (u.modify f fun _ => (u.known f).visited u.number, false) ∨
          (u.known f).computed = false ∧
            u.visit f = (u.modify f fun _ => (u.known f).emptied f u.number, true)) := by
  unfold visit
  dsimp only
  rw [show (u.infos.find? f).getD (.fresh f) = u.known f from rfl]
  by_cases hv : (u.known f).visitedIn = u.number
  · exact .inl ⟨hv, if_pos (decide_eq_true hv)⟩
  · refine .inr ⟨hv, ?_⟩
    rw [isVisited, if_neg (by simpa using hv)]
    by_cases hc : (u.known f).computed = true
    · exact .inl ⟨hc, if_pos hc⟩
    · exact .inr ⟨by simpa using hc, if_neg hc⟩

/-- Visiting a function. It is to be built only if its graphs are not final. -/
theorem visit_spec : Advances p (· = f) u (u.visit f).1 ∧
      (∃ info, (u.visit f).1.infos.find? f = some info ∧ info.visitedIn = u.number) ∧
      ((u.visit f).2 = true → (u.visit f).1.Rebuilt f) := by
  obtain ⟨hsane, hmarked⟩ := h.known hs
  rcases visit_cases u f with ⟨hv, e⟩ | ⟨hv, ⟨hc, e⟩ | ⟨hc, e⟩⟩
  · rw [e]
    exact ⟨.refl h, ⟨u.known f, find?_of_visited h.pos hv, hv⟩, nofun⟩
  · rw [e]
    have hi : Improves p u f ((u.known f).visited u.number) := by
      refine ⟨⟨s, hs, hsane.1, hsane.2, hsane.3, hsane.4⟩,
        ⟨hmarked.1, fun hb => ?_, fun _ hc' => ?_, hmarked.4.1, Nat.le_refl _⟩, rfl,
        fun _ => ⟨rfl, rfl⟩, fun hv' => absurd hv' hv, id, fun _ => .inl⟩
      · exact absurd (hmarked.2 hb).1 hv
      · cases hc.symm.trans hc'
    have hp : Stays u f ((u.known f).visited u.number) := ⟨fun hv' => absurd hv' hv, fun _ _ => rfl⟩
    exact ⟨hi.advances hp h, ⟨_, by rw [find?_modify, if_pos rfl], rfl⟩, nofun⟩
  · rw [e]
    have hi : Improves p u f ((u.known f).emptied f u.number) := by
      obtain ⟨func, -, rfl⟩ := Option.map_eq_some_iff.mp hs
      refine ⟨⟨_, hs, fun _ => .of_empty, fun hc' => ?_, .of_empty, fun _ => rfl⟩,
        ⟨fun hc' => ?_, fun _ => ⟨rfl, rfl, rfl⟩, fun _ _ => rfl, Nat.le_refl _, Nat.le_refl _⟩,
        rfl, fun hc' => ?_, fun hv' => absurd hv' hv, fun _ => rfl, fun _ => .inl⟩
      · cases hc.symm.trans hc'
      · cases hc.symm.trans hc'
      · cases hc.symm.trans hc'
    have hp : Stays u f ((u.known f).emptied f u.number) :=
      ⟨fun hv' => absurd hv' hv, fun _ _ => rfl⟩
    have hfind : (u.modify f fun _ => (u.known f).emptied f u.number).infos.find? f =
        some ((u.known f).emptied f u.number) := by
      rw [find?_modify, if_pos rfl]
    exact ⟨hi.advances hp h, ⟨_, hfind, rfl⟩, fun _ => ⟨_, hfind, rfl⟩⟩

/-- Recording the graph of a function that was built. -/
theorem setGraph_advances (hr : u.Rebuilt f) {g : Graph}
    (hg : Grown s g) : Advances p (· = f) u (u.modify f fun info => { info with graph := g }) := by
  obtain ⟨hsane, hmarked⟩ := h.known hs
  obtain ⟨info, hinfo, hb⟩ := hr
  rw [← known_of_find? hinfo] at hb
  have hc := hmarked.computed hb
  have hi : Improves p u f { u.known f with graph := g } := by
    refine ⟨⟨s, hs, fun _ => hg, fun hc' => ?_, hsane.3, fun _ => (hmarked.2 hb).2.2⟩,
      ⟨hmarked.1, hmarked.2, hmarked.3, hmarked.4⟩, rfl, fun hc' => ?_, id, id, fun _ => .inl⟩
    · cases hc.symm.trans hc'
    · cases hc.symm.trans hc'
  exact hi.advances ⟨fun _ => rfl, fun hv hv' => absurd hv' hv⟩ h

end

variable (hf : u.infos.find? f = some info)
include hf

variable (hv : info.visitedIn = u.number)
include hv

omit h in
/-- A visited function with a place needs none. -/
theorem not_pending {j : Nat} (hj : info.position = some j) : ¬ u.Pending f := by
  rintro ⟨info', hf', hwhy⟩
  cases hf.symm.trans hf'
  rcases hwhy with ⟨-, hnone⟩ | ⟨hnv, -⟩
  · cases hj.symm.trans hnone
  · exact hnv hv

omit h in
/-- What giving a visited function its place does. -/
theorem place_cases : (∃ j, info.position = some j ∧ u.place f = u) ∨ info.position = none ∧
      u.place f = { u.modify f fun _ => { info with position := some u.order.size } with
        order := u.order.push f } := by
  unfold place
  rw [hf]
  cases hp : info.position with
  | some j => exact .inl ⟨j, rfl, by simp [hp, isVisited, hv]⟩
  | none =>
    refine .inr ⟨rfl, ?_⟩
    simp [hp, modify, hf]

/-- The order after a function was put at its end. -/
theorem order_push
    (hnone : info.position = none) (j : Nat) (g : FuncId) : (u.order.push f)[j]? = some g ↔ ∃ info',
      (u.modify f fun _ => { info with position := some u.order.size }).infos.find? g = some info' ∧
        info'.visitedIn = u.number ∧ info'.position = some j := by
  rw [Array.getElem?_push, find?_modify]
  by_cases hfg : f = g
  · subst hfg
    rw [if_pos rfl]
    constructor
    · intro hj
      refine ⟨_, rfl, hv, ?_⟩
      split at hj
      · rename_i hsize
        rw [hsize]
      · -- the function had no place before
        obtain ⟨info', hf', -, hp⟩ := (h.order j f).mp hj
        cases hf.symm.trans hf'
        cases hnone.symm.trans hp
    · rintro ⟨info', hf', -, hp⟩
      cases hf'
      cases hp
      rw [if_pos rfl]
  · rw [if_neg hfg, ← h.order]
    split
    · rename_i hsize
      rw [hsize, Array.getElem?_size]
      exact iff_of_false (fun he => hfg (Option.some.inj he)) nofun
    · rfl

/-- Giving a visited function its place. -/
theorem place_spec :
    Building p (u.place f) ∧ Keeps u (u.place f) ∧ ∀ g, (u.place f).Pending g →
    u.Pending g ∧ g ≠ f := by
  rcases place_cases hf hv with ⟨j, hj, e⟩ | ⟨hnone, e⟩
  · rw [e]
    refine ⟨h, .refl u, fun g hg => ⟨hg, ?_⟩⟩
    rintro rfl
    exact not_pending hf hv hj hg
  · obtain ⟨s, hs, hsane⟩ := h.sane f info hf
    have hmarked := h.marks f info hf
    have hknown := known_of_find? hf
    have hi : Improves p u f { info with position := some u.order.size } := by
      refine ⟨⟨s, hs, hsane.1, hsane.2, hsane.3, hsane.4⟩,
        ⟨hmarked.1, hmarked.2, hmarked.3, hmarked.4⟩, ?_, ?_, ?_, ?_, ?_⟩
      all_goals rw [hknown]
      · exact fun _ => ⟨rfl, rfl⟩
      · exact id
      · exact id
      · exact fun _ => .inl
    have hfind : (u.modify f fun _ => { info with position := some u.order.size }).infos.find? f =
        some { info with position := some u.order.size } := by
      rw [find?_modify, if_pos rfl]
    rw [e]
    refine ⟨⟨h.pos, fun _ _ hg => (hi.infos h hg).1, fun _ _ hg => (hi.infos h hg).2, hi.edges h,
      order_push h hf hv hnone⟩, ⟨rfl, hi.keeps.info, hi.keeps.final, hi.keeps.callers⟩,
      fun g hg => ?_⟩
    have hne : g ≠ f := by
      rintro rfl
      exact not_pending hfind hv rfl hg
    exact ⟨(hi.pending h hg).resolve_right hne, hne⟩

end Update

/-! ### Functions and their callees -/

namespace Analysis

open Update

variable {a : Analysis}

/-- A builder keeps everything in order, and at most the function that it builds is left to be
placed. -/
def Builder.Correct (p : Program) (b : Builder) : Prop :=
  ∀ f u u', Building p u → (∃ s, Scope.of? p f = some s) → b f u = .ok u' →
    Advances p (· = f) u u' ∧ ∃ info, u'.infos.find? f = some info ∧ info.visitedIn = u.number

/-- A callee that was visited before only gets another call site. -/
theorem addCaller_visited (h : Building p u) (hs : Scope.of? p f = some s)
    (hr : u.Rebuilt site.caller) (hreach : ∀ s, Scope.of? p site.caller = some s →
      s.Reaches site.site)
    (hv : ((u.modify f (·.addCaller site)).infos.find? f).any
      (u.modify f (·.addCaller site)).isVisited) :
    Advances p (fun _ => False) u (u.modify f (·.addCaller site)) := by
  refine (addCaller_advances h hs hr hreach).mono ?_
  rintro g ⟨rfl, hnv⟩
  obtain ⟨callers, he, -⟩ := addCaller_spec site (u.known g)
  rw [find?_modify, if_pos rfl, he] at hv
  exact hnv (of_decide_eq_true hv)

/-- A callee that was not visited before is built, and gets its place. -/
theorem descend_place {descend : Builder} (hd : descend.Correct p) (h : Building p u)
    (hs : ∃ s, Scope.of? p f = some s) (hok : descend f u = .ok u') :
    Building p (u'.place f) ∧ Keeps u (u'.place f) ∧ ∀ g, (u'.place f).Pending g →
    u.Pending g ∧ g ≠ f := by
  obtain ⟨hadv, info, hinfo, hv⟩ := hd f u u' h hs hok
  rw [← hadv.keeps.number] at hv
  obtain ⟨hbuilding, hkeeps, hpending⟩ := place_spec hadv.building hinfo hv
  refine ⟨hbuilding, hadv.keeps.trans hkeeps, fun g hg => ?_⟩
  obtain ⟨hg, hne⟩ := hpending g hg
  exact ⟨(hadv.pending g hg).resolve_right hne, hne⟩

/-- All callees of calls get their places. -/
theorem follow_spec {b : Builder} (calls : List Call) (u : Update) {u' : Update}
    (h : Building p u)
    (hcalls : (∀ call ∈ calls, b.Correct p ∧ u.Rebuilt call.site.caller ∧
      (∀ s, Scope.of? p call.site.caller = some s → s.Reaches call.site.site) ∧ ∃ s,
      Scope.of? p call.callee = some s))
    (hok : follow b calls u = .ok u') : Advances p (fun _ => False) u u' := by
  induction calls generalizing u u' with
  | nil =>
    cases hok
    exact .refl h
  | cons call calls ih =>
    obtain ⟨⟨hb, hr, hreach, s, hs⟩, hrest⟩ := List.forall_mem_cons.mp hcalls
    -- What remains of the loop is the same for old and new callees.
    have hlater {u₁ : Update} (hstep : Advances p (fun _ => False) u u₁)
        (hok : follow b calls u₁ = .ok u') : Advances p (fun _ => False) u u' :=
      hstep.trans (ih u₁ hstep.building (fun call' hcall' =>
        (hrest call' hcall').imp_right fun ⟨hr', hscopes⟩ =>
          ⟨hstep.keeps.rebuilt hr', hscopes⟩) hok)
    unfold follow at hok
    dsimp only at hok
    split at hok
    · rename_i hv
      exact hlater (addCaller_visited h hs hr hreach hv) hok
    · obtain ⟨u₂, hdescend, hok⟩ := bind_ok.mp hok
      have hadd := addCaller_advances h hs hr hreach
      obtain ⟨hbuilding, hkeeps, hpending⟩ := descend_place hb hadd.building ⟨s, hs⟩ hdescend
      refine hlater ⟨hbuilding, hadd.keeps.trans hkeeps, fun g hg => ?_⟩ hok
      obtain ⟨hg, hne⟩ := hpending g hg
      exact (hadd.pending g hg).imp_right fun hf => hne hf.1

section Drawings

variable {deep : Bool} {i : InstId} {gr gr' : Graph} {fs : List FuncId} {calls : List Call}

theorem Attempted.builds {container : Option ContainerOp} (h : Attempted a s i gr container gr')
    (hs : Settled gr) : Builds s gr gr' := by
  cases h with
  | none => exact .refl hs
  | off _ => exact .refl hs
  | failed _ hop => exact applyContainer_builds hs hop

/-- Drawing an instruction is a step of building the graph. -/
theorem drawInst_builds (hfunc : s.func.ResultsTraced) (hs : Settled gr)
    (hok : a.drawInst deep s i gr = .ok (gr', fs)) : Builds s gr gr' := by
  obtain ⟨effect, heffect, hdrawn⟩ := drawInst_spec hok
  cases hdrawn with
  | destructor _ _ => exact .refl hs
  | release happly => exact applyRelease_builds hs happly
  | container _ hop => exact applyContainer_builds hs hop
  | known _ hattempt _ => exact hattempt.builds hs
  | unknown _ hattempt hescape =>
    have hbuilds := hattempt.builds hs
    exact hbuilds.trans (escapeAll_spec hbuilds.settled hescape).1
  | plain happly _ _ =>
    refine applyEffect_builds hs ?_ happly
    rintro r address rfl
    exact result_of_mapToContent hfunc heffect

theorem drawInsts_grown (hfunc : s.func.ResultsTraced) (is : List InstId) (gr : Graph)
    (hg : Grown s gr) (hok : a.drawInsts deep s is gr = .ok (gr', calls)) : Grown s gr' := by
  replace hok := drawing_of_ok is gr hok
  induction hok with
  | done => exact hg
  | full hdraw _ => exact (hg.builds (drawInst_builds hfunc hg.settled hdraw)).invalidate
  | next hdraw _ _ ih => exact ih (hg.builds (drawInst_builds hfunc hg.settled hdraw))

/-- What is drawn for a function is a graph in the making. -/
theorem draw_grown (hfunc : s.func.ResultsTraced) (hok : a.draw deep s = .ok (gr, calls)) :
    Grown s gr := by
  obtain ⟨blocks, is, g₁, -, -, hdraw, hlink⟩ := draw_ok hok
  have hg₁ := drawInsts_grown hfunc is _ .of_empty hdraw
  rcases hlink with ⟨-, hlink⟩ | ⟨-, rfl⟩
  · exact hg₁.builds (linkBlocks_builds hg₁.settled hlink)
  · exact hg₁

end Drawings

theorem buildWith_correct (hp : p.Sound) {descend : Option Builder}
    (hd : ∀ d, descend = some d → d.Correct p) : Builder.Correct p (a.buildWith p descend) := by
  rintro f u u' h ⟨s, hs⟩ hok
  obtain ⟨hvisit, ⟨info, hinfo, hv⟩, hrebuilt⟩ := visit_spec h hs
  rw [buildWith_ok hs] at hok
  split at hok
  · rename_i htodo
    obtain ⟨g, calls, u₁, hdraw, hfollow, rfl⟩ := hok
    have hr := hrebuilt htodo
    have hcalls := follow_spec calls _ hvisit.building (fun call hcall => ?_) hfollow
    · have hstep := hvisit.trans (hcalls.mono fun _ => False.elim)
      have hfunc := hp.of? hs
      have hset := setGraph_advances hstep.building hs (hcalls.keeps.rebuilt hr)
        (draw_grown hfunc.results hdraw)
      obtain ⟨info', hinfo', -, -, hv', -⟩ := (hcalls.keeps.trans hset.keeps).info _ _ hinfo
      have hvisited := hv' (hv.trans hvisit.keeps.number.symm)
      exact ⟨hstep.trans hset, info', hinfo', hvisited.trans hvisit.keeps.number⟩
    · -- without depth there are no calls
      obtain ⟨hdeep, hcaller, hreach, hcallee⟩ := draw_calls hs hdraw call hcall
      obtain ⟨d, rfl⟩ := Option.isSome_iff_exists.mp hdeep
      rw [hcaller]
      refine ⟨hd d rfl, hr, fun t ht => ?_, hcallee⟩
      cases hs.symm.trans ht
      exact hreach
  · cases hok
    exact ⟨hvisit, info, hinfo, hv⟩

/-- **Building a function** keeps everything in order, and leaves at most the function itself
without a place. -/
theorem build_correct (a : Analysis) (hp : p.Sound) : ∀ depth, Builder.Correct p (a.build p depth)
  | 0 => buildWith_correct hp nofun
  | depth + 1 => buildWith_correct hp fun d hd => by
    cases hd
    exact build_correct a hp depth

end Analysis

end Escape
