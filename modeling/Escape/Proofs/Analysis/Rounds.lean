import Escape.Proofs.Analysis.Search
import Escape.Proofs.Analysis.Updates

/-!
# Passes, step by step

What passes do is seen here as a machine again: summaries are derived, spliced into callers, or
given up at call sites. No step touches the marks of a function. A summary that is behind its graph
is brought up to date later in the same pass, or another pass is asked for, and the last pass asks
for none.

- `Trace.passes_steps`: passes are a run of the machine, and **after the last one no summary is
  behind its graph.**
-/

namespace Escape

open Relation Update
open FuncInfo (SameMarks)

variable {p : Program} {f g : FuncId} {u u' : Update} {info info' caller : FuncInfo}
  {log es : List Event} {limit pass bound : Nat}

/-! ### The machine -/

/-- The state of passes: the update, and what happened so far. -/
structure Sweep where
  update : Update
  log : List Event

namespace Sweep

/-- The steps of passes. -/
inductive Step : Sweep → Sweep → Prop
  /-- A pass begins. -/
  | pass {u : Update} {log : List Event} (number : Nat) : Step ⟨u, log⟩ ⟨u, log ++ [.pass number]⟩
  /-- The summary of a function is derived from its graph. -/
  | derive {u : Update} {log : List Event} {f : FuncId} {info : FuncInfo} (graph summary : Graph)
    (changed : Bool) : u.infos.find? f = some info → info.stale = true → Step ⟨u, log⟩
      ⟨u.modify f fun info => { info with graph, summary, stale := false },
        log ++ [.derive f changed]⟩
  /-- The summary of a function is spliced into the graph of a caller. -/
  | splice {u : Update} {log : List Event} {info caller : FuncInfo} (call : Call) (graph : Graph)
    (changed : Bool) : u.infos.find? call.callee = some info → call.site ∈ info.callers →
    u.infos.find? call.site.caller = some caller → caller.builtIn = u.number → Step ⟨u, log⟩
      ⟨u.modify call.site.caller fun info => { info with graph, stale := info.stale || changed },
        log ++ [.splice call changed]⟩
  /-- The summary of a function is kept as it is after it was spliced in. -/
  | keep {u : Update} {log : List Event} {f : FuncId} {info : FuncInfo} (summary : Graph) :
    u.infos.find? f = some info → Step ⟨u, log⟩ ⟨u.modify f fun info => { info with summary }, log⟩
  /-- Everything that a call touches escapes. -/
  | escape {u : Update} {log : List Event} {info caller : FuncInfo} (call : Call) (graph : Graph) :
    u.infos.find? call.callee = some info → call.site ∈ info.callers →
    u.infos.find? call.site.caller = some caller → caller.builtIn = u.number → Step ⟨u, log⟩
      ⟨u.modify call.site.caller fun info => { info with graph, stale := true },
        log ++ [.escape call]⟩

/-- Runs of the machine. -/
abbrev Steps : Sweep → Sweep → Prop := ReflTransGen Step

variable {x y : Sweep}

theorem alike_modify {change : FuncInfo → FuncInfo} (hf : u.infos.find? f = some info)
    (hmarks : SameMarks info (change info)) : Alike SameMarks u (u.modify f change) := by
  rw [modify_eq hf]
  exact .modify .refl hf hmarks

/-- **One step** leaves all marks alone. -/
theorem Step.alike (h : Step x y) : Alike SameMarks x.update y.update := by
  cases h with
  | pass number => exact .refl .refl _
  | derive graph summary changed hf _ =>
    dsimp only
    exact alike_modify hf ⟨rfl, rfl, rfl, rfl, rfl⟩
  | splice call graph changed _ _ hcaller _ =>
    dsimp only
    exact alike_modify hcaller ⟨rfl, rfl, rfl, rfl, rfl⟩
  | keep summary hf =>
    dsimp only
    exact alike_modify hf ⟨rfl, rfl, rfl, rfl, rfl⟩
  | escape call graph _ _ hcaller _ =>
    dsimp only
    exact alike_modify hcaller ⟨rfl, rfl, rfl, rfl, rfl⟩

/-- **A run** leaves all marks alone. -/
theorem Steps.alike (h : Steps x y) : Alike SameMarks x.update y.update := by
  induction h with
  | refl => exact .refl .refl _
  | tail _ hstep ih => exact ih.trans .trans hstep.alike

/-- What passes tell is not about the search. -/
theorem Steps.events (h : Steps x y) : ∃ more, y.log = x.log ++ more ∧ ∀ event ∈ more,
    event.isSearch = false := by
  induction h with
  | refl => exact ⟨[], (List.append_nil _).symm, nofun⟩
  | tail _ hstep ih =>
    obtain ⟨more, hlog, hmore⟩ := ih
    have hone {event : Event} (he : event.isSearch = false) : ∀ event' ∈ more ++ [event],
        event'.isSearch = false := by
      simpa [or_imp, forall_and, he] using hmore
    cases hstep with
    | pass number => exact ⟨more ++ [.pass number], by rw [← List.append_assoc, ← hlog], hone rfl⟩
    | derive graph summary changed hf _ => exact ⟨_, by rw [← List.append_assoc, ← hlog], hone rfl⟩
    | splice call graph changed _ _ _ _ => exact ⟨_, by rw [← List.append_assoc, ← hlog], hone rfl⟩
    | keep summary hf => exact ⟨more, hlog, hmore⟩
    | escape call graph _ _ _ _ => exact ⟨_, by rw [← List.append_assoc, ← hlog], hone rfl⟩

/-- A call that is spliced in is recorded at its callee. -/
def Honest (x : Sweep) : Prop := ∀ call changed, .splice call changed ∈ x.log →
  ∃ info, x.update.infos.find? call.callee = some info ∧ call.site ∈ info.callers

/-- Only graphs that were built in this update change, and so only their summaries can be behind. -/
def Local (x : Sweep) : Prop := ∀ f, x.update.Stale f → x.update.Rebuilt f

theorem Honest.step (h : Honest x) (hstep : Step x y) : Honest y := by
  have halike := hstep.alike
  have hkept {call : Call} (hcall : ∃ info, x.update.infos.find? call.callee = some info ∧
    call.site ∈ info.callers) :
      ∃ info, y.update.infos.find? call.callee = some info ∧ call.site ∈ info.callers := by
    obtain ⟨info, hf, hsite⟩ := hcall
    obtain ⟨info', hf', hmarks⟩ := halike.forth _ info hf
    exact ⟨info', hf', hmarks.callers ▸ hsite⟩
  intro call changed hsplice
  -- callers stay recorded, so only a new splice is to be looked at
  refine hkept ?_
  cases hstep with
  | pass number => exact h call changed (by simpa using hsplice)
  | derive graph summary b hf _ => exact h call changed (by simpa using hsplice)
  | keep summary hf => exact h call changed hsplice
  | escape call' graph _ _ _ _ => exact h call changed (by simpa using hsplice)
  | splice call' graph b hcallee hsite _ _ =>
    rcases List.mem_append.mp hsplice with hold | hnew
    · exact h call changed hold
    · cases List.mem_singleton.mp hnew
      exact ⟨_, hcallee, hsite⟩

theorem Honest.steps (h : Honest x) (hsteps : Steps x y) : Honest y := by
  induction hsteps with
  | refl => exact h
  | tail _ hstep ih => exact ih.step hstep

theorem rebuilt_alike (h : Alike SameMarks u u') (hf : u.Rebuilt f) : u'.Rebuilt f := by
  obtain ⟨info, hfind, hb⟩ := hf
  obtain ⟨info', hfind', hmarks⟩ := h.forth f info hfind
  exact ⟨info', hfind', by rw [hmarks.builtIn, h.number, hb]⟩

theorem Local.step (h : Local x) (hstep : Step x y) : Local y := by
  have halike := hstep.alike
  intro f hf
  -- a summary falls behind only where a graph is changed, and that was built in this update
  refine rebuilt_alike halike ?_
  cases hstep with
  | pass number => exact h f hf
  | derive graph summary b hfind hstale =>
    rcases hf.modify with ⟨rfl, hst⟩ | ⟨-, hold⟩
    · cases hst
    · exact h f hold
  | splice call graph b _ _ hcaller hb =>
    rcases hf.modify with ⟨rfl, -⟩ | ⟨-, hold⟩
    · exact ⟨_, hcaller, hb⟩
    · exact h f hold
  | keep summary hfind =>
    rcases hf.modify with ⟨rfl, hst⟩ | ⟨-, hold⟩
    · refine h f ⟨_, hfind, ?_⟩
      rw [known_of_find? hfind] at hst
      exact hst
    · exact h f hold
  | escape call graph _ _ hcaller hb =>
    rcases hf.modify with ⟨rfl, -⟩ | ⟨-, hold⟩
    · exact ⟨_, hcaller, hb⟩
    · exact h f hold

theorem Local.steps (h : Local x) (hsteps : Steps x y) : Local y := by
  induction hsteps with
  | refl => exact h
  | tail _ hstep ih => exact ih.step hstep

end Sweep

/-! ### Passes as runs -/

namespace Trace

open Sweep Logged

/-- Deriving a summary brings it up to date. -/
theorem refreshSummary_steps {changed : Bool}
    (hok : (refreshSummary p u f).run = .ok ((u', changed), es)) (log : List Event) :
    Steps ⟨u, log⟩ ⟨u', log ++ es⟩ ∧ ∀ g, u'.Stale g → u.Stale g ∧ g ≠ f := by
  unfold refreshSummary at hok
  cases hf : u.infos.find? f with
  | none =>
    rw [hf] at hok
    cases hok
    rw [List.append_nil]
    refine ⟨.refl, fun g hg => ⟨hg, ?_⟩⟩
    rintro rfl
    obtain ⟨info, hg, -⟩ := hg
    cases hf.symm.trans hg
  | some info =>
    rw [hf] at hok
    dsimp only at hok
    split at hok
    · rename_i hst
      cases hok
      rw [List.append_nil]
      refine ⟨.refl, fun g hg => ⟨hg, ?_⟩⟩
      rintro rfl
      obtain ⟨info', hg, hst'⟩ := hg
      cases hf.symm.trans hg
      simp [hst'] at hst
    · rename_i hst
      obtain ⟨⟨summary, graph, b⟩, -, hok⟩ := lift_bind_ok.mp hok
      obtain ⟨rest, hend, rfl⟩ := tell_bind_ok.mp hok
      cases hend
      refine ⟨.single (.derive graph summary b hf (by simpa using hst)), fun g hg => ?_⟩
      rcases hg.modify with ⟨-, hst'⟩ | ⟨hne, hold⟩
      · cases hst'
      · exact ⟨hold, hne⟩

/-- `g` comes after `f` in the order. -/
def Later (u : Update) (f g : FuncId) : Prop :=
  ∃ j k : Nat, j < k ∧ u.order[j]? = some f ∧ u.order[k]? = some g

/-- The callee is in the order, and the call sites are recorded at it. -/
def CalledAt (u : Update) (callee : FuncId) (sites : List CallSite) : Prop :=
  (∃ j : Nat, u.order[j]? = some callee) ∧
    ∃ info, u.infos.find? callee = some info ∧ ∀ site ∈ sites, site ∈ info.callers

theorem CalledAt.alike {callee : FuncId} {sites : List CallSite} (h : CalledAt u callee sites)
    (hr : Alike SameMarks u u') : CalledAt u' callee sites := by
  obtain ⟨⟨j, hj⟩, info, hf, hsites⟩ := h
  obtain ⟨info', hf', hmarks⟩ := hr.forth _ info hf
  exact ⟨⟨j, hr.order ▸ hj⟩, info', hf', hmarks.callers ▸ hsites⟩

/-- A caller that changes is later in the order, or another pass is asked for. -/
theorem spliceAt_steps {callee : FuncId} (sites : List CallSite) (summary : Graph) (u : Update)
    (again : Bool) {summary' : Graph} {u' : Update} {again' : Bool} {es : List Event}
    (log : List Event) (hplaced : Placed u) (hcalled : CalledAt u callee sites)
    (hok : (spliceAt p callee sites summary u again).run = .ok ((summary', u', again'), es)) :
    Steps ⟨u, log⟩ ⟨u', log ++ es⟩ ∧ (again = true → again' = true) ∧ ∀ g, u'.Stale g →
    u.Stale g ∨ again' = true ∨ Later u callee g := by
  induction sites generalizing summary u again summary' u' again' es log with
  | nil =>
    cases hok
    rw [List.append_nil]
    exact ⟨.refl, id, fun g hg => .inl hg⟩
  | cons site sites ih =>
    obtain ⟨⟨j, hj⟩, info, hf, hsites⟩ := hcalled
    obtain ⟨hsite, hrest⟩ := List.forall_mem_cons.mp hsites
    rw [spliceAt] at hok
    cases hcaller : u.infos.find? site.caller with
    | none =>
      rw [hcaller] at hok
      exact ih summary u again log hplaced ⟨⟨j, hj⟩, info, hf, hrest⟩ hok
    | some caller =>
      rw [hcaller] at hok
      dsimp only at hok
      split at hok
      · exact ih summary u again log hplaced ⟨⟨j, hj⟩, info, hf, hrest⟩ hok
      · rename_i hb
        have hbuilt : caller.builtIn = u.number := by simpa [isRebuilt] using hb
        obtain ⟨⟨graph, summary₁, changed⟩, -, hrun⟩ := lift_bind_ok.mp hok
        obtain ⟨rest, hlater, rfl⟩ := tell_bind_ok.mp hrun
        have hstep : Sweep.Step ⟨u, log⟩
            ⟨u.modify site.caller fun info => { info with graph, stale := info.stale || changed },
              log ++ [.splice ⟨site, callee⟩ changed]⟩ :=
          .splice ⟨site, callee⟩ graph changed hf hsite hcaller hbuilt
        have halike := hstep.alike
        have hplaced₁ := hplaced.alike halike
        have hcalled₁ := CalledAt.alike ⟨⟨j, hj⟩, info, hf, hrest⟩ halike
        obtain ⟨hsteps, hmono, hstale⟩ := ih summary₁ _ _ _ hplaced₁ hcalled₁ hlater
        obtain ⟨caller₁, hcaller₁, -⟩ := halike.forth _ caller hcaller
        obtain ⟨info₁, hf₁, -⟩ := halike.forth callee info hf
        dsimp only at hcaller₁ hf₁
        rw [hcaller₁, hf₁] at hmono
        rw [List.append_cons]
        refine ⟨hsteps.head hstep, fun h => hmono (by rw [h]; rfl), fun g hg => ?_⟩
        rcases hstale g hg with hg₁ | hwhy
        · rcases hg₁.modify with ⟨rfl, hst⟩ | ⟨-, hold⟩
          · rw [known_of_find? hcaller, Bool.or_eq_true] at hst
            rcases hst with hst | rfl
            · exact .inl ⟨caller, hcaller, hst⟩
            · -- the caller changed: it comes later in this pass, or there is another one
              refine .inr ?_
              by_cases hafter : (u.modify site.caller fun info =>
                  { info with graph, stale := info.stale || true }).isAfter caller₁ info₁ = true
              · obtain ⟨k, hk, hgk⟩ := hplaced₁.later_of_isAfter hj hcaller₁ hf₁ hafter
                exact .inr ⟨j, k, hk, hj, hgk⟩
              · refine .inl (hmono ?_)
                dsimp only
                rw [Bool.eq_false_iff.mpr hafter]
                simp
          · exact .inl hold
        · exact .inr hwhy

theorem spliceIntoCallers_steps {more : Bool} (hplaced : Placed u) {j : Nat}
    (hj : u.order[j]? = some f) (hok : (spliceIntoCallers p u f).run = .ok ((u', more), es))
    (log : List Event) : Steps ⟨u, log⟩ ⟨u', log ++ es⟩ ∧ ∀ g, u'.Stale g → u.Stale g ∨
    more = true ∨ Later u f g := by
  unfold spliceIntoCallers at hok
  obtain ⟨info, hf, -, -⟩ := (hplaced j f).mp hj
  rw [hf] at hok
  obtain ⟨⟨summary, u₁, again⟩, es₁, es₂, hsplice, hend, rfl⟩ := Logged.bind_ok.mp hok
  cases hend
  rw [List.append_nil]
  obtain ⟨hsteps, -, hstale⟩ := spliceAt_steps info.callers _ u false log hplaced
    ⟨⟨j, hj⟩, info, hf, fun _ => id⟩ hsplice
  obtain ⟨info₁, hf₁, -⟩ := hsteps.alike.forth f info hf
  refine ⟨hsteps.tail (.keep summary hf₁), fun g hg => hstale g ?_⟩
  rcases hg.modify with ⟨rfl, hst⟩ | ⟨-, hold⟩
  · rw [known_of_find? hf₁] at hst
    exact ⟨info₁, hf₁, hst⟩
  · exact hold

/-- A caller that changes when everything escapes asks for another pass. -/
theorem escapeCallSites_steps {more : Bool}
    (hok : (escapeCallSites p u f).run = .ok ((u', more), es)) (log : List Event) :
    Steps ⟨u, log⟩ ⟨u', log ++ es⟩ ∧ (more = true ∨ u' = u) := by
  unfold escapeCallSites at hok
  cases hf : u.infos.find? f with
  | none =>
    rw [hf] at hok
    cases hok
    rw [List.append_nil]
    exact ⟨.refl, .inr rfl⟩
  | some info =>
    rw [hf] at hok
    refine Logged.foldlM_of_ok (P := fun _ (acc : Update × Bool) es =>
      Steps ⟨u, log⟩ ⟨acc.1, log ++ es⟩ ∧
        (acc.2 = true ∨ acc.1 = u)) ?_ ⟨by rw [List.append_nil], .inr rfl⟩ hok
    rintro done site rest ⟨u₁, more₁⟩ ⟨u₂, more₂⟩ es₁ es₂ hsites ⟨hsteps, hwhy⟩ hok
    -- A call that is passed over leaves everything as it was.
    have hsame : es₂ = [] → (u₂, more₂) = (u₁, more₁) → Steps ⟨u, log⟩ ⟨u₂, log ++ (es₁ ++ es₂)⟩ ∧
        (more₂ = true ∨ u₂ = u) := by
      rintro rfl he
      cases he
      rw [List.append_nil]
      exact ⟨hsteps, hwhy⟩
    unfold escapeCallSite at hok
    dsimp only at hok
    cases hs : Scope.of? p site.caller with
    | none =>
      rw [hs] at hok
      cases hok
      exact hsame rfl rfl
    | some s =>
      cases hcaller : u₁.infos.find? site.caller with
      | none =>
        rw [hs, hcaller] at hok
        cases hok
        exact hsame rfl rfl
      | some caller =>
        rw [hs, hcaller] at hok
        dsimp only at hok
        split at hok
        · cases hok
          exact hsame rfl rfl
        · rename_i hb
          obtain ⟨graph, -, hrun⟩ := lift_bind_ok.mp hok
          obtain ⟨more, hend, rfl⟩ := tell_bind_ok.mp hrun
          cases hend
          obtain ⟨info₁, hf₁, hmarks⟩ := hsteps.alike.forth f info hf
          have hsite : site ∈ info₁.callers := by
            rw [hmarks.callers, hsites]
            simp
          rw [← List.append_assoc]
          exact ⟨hsteps.tail (.escape ⟨site, f⟩ graph hf₁ hsite hcaller
            (by simpa [isRebuilt] using hb)), .inl rfl⟩

/-- What a pass keeps: the summaries of all functions that it came past are up to date, unless
another pass is asked for. -/
structure Swept (start : Sweep) (limit pass : Nat) (done : List FuncId) (u : Update) (again : Bool)
    (log : List Event) : Prop where
  steps : Steps start ⟨u, log⟩
  fresh : ∀ g ∈ done, u.Stale g → again = true
  last : limit < pass → again = false

variable {start : Sweep} {done rest : List FuncId} {again again' : Bool}

/-- The step of a pass. -/
theorem Swept.passOver (h : Swept start limit pass done u again log) (hplaced : Placed start.update)
    (horder : start.update.order.toList = done ++ f :: rest)
    (hok : (Trace.passOver p limit pass (u, again) f).run = .ok ((u', again'), es)) :
    Swept start limit pass (done ++ [f]) u' again' (log ++ es) := by
  obtain ⟨⟨u₁, changed⟩, es₁, es₂, hrefresh, hrun, rfl⟩ := Logged.bind_ok.mp hok
  obtain ⟨hsteps₁, hstale₁⟩ := refreshSummary_steps hrefresh log
  have halike : Alike SameMarks start.update u₁ := Steps.alike (h.steps.trans hsteps₁)
  have hplaced₁ : Placed u₁ := hplaced.alike halike
  have horder₁ : u₁.order.toList = done ++ f :: rest := by rw [← horder, halike.order]
  -- what the second half of the step has to keep
  have hfinish {u₂ : Update} {more : Bool} {es₂ : List Event} (hsteps₂ :
    Steps ⟨u₁, log ++ es₁⟩ ⟨u₂, log ++ es₁ ++ es₂⟩)
      (hstale₂ : ∀ g, u₂.Stale g → u₁.Stale g ∨ more = true ∨
      Later u₁ f g) (hmore : limit < pass → more = false) :
      Swept start limit pass (done ++ [f]) u₂ (again || more) (log ++ (es₁ ++ es₂)) := by
    rw [← List.append_assoc]
    refine ⟨(h.steps.trans hsteps₁).trans hsteps₂, fun g hg hst => ?_,
      fun hlt => by rw [h.last hlt, hmore hlt]; rfl⟩
    rcases hstale₂ g hst with hst | hst | ⟨j, k, hlt, hj, hk⟩
    · obtain ⟨hold, hne⟩ := hstale₁ g hst
      have hmem : g ∈ done := (List.mem_append.mp hg).resolve_right fun he => hne
        (List.mem_singleton.mp he)
      rw [h.fresh g hmem hold]
      rfl
    · rw [hst, Bool.or_true]
    · -- a function that comes later was not passed over
      cases hplaced₁.unique hj (order_here horder₁)
      exact absurd hk (hplaced₁.not_later horder₁ hg hlt)
  have hidle : Swept start limit pass (done ++ [f]) u₁ (again || false) (log ++ (es₁ ++ [])) :=
    hfinish (by rw [List.append_nil]) (fun g hg => .inl hg) fun _ => rfl
  dsimp only at hrun
  split at hrun
  · rename_i hlt
    split at hrun
    · obtain ⟨⟨u₂, more⟩, es₃, es₄, hsplice, hend, rfl⟩ := Logged.bind_ok.mp hrun
      cases hend
      rw [List.append_nil]
      obtain ⟨hsteps₂, hstale₂⟩ :=
        spliceIntoCallers_steps hplaced₁ (order_here horder₁) hsplice (log ++ es₁)
      exact hfinish hsteps₂ hstale₂ fun hgt => absurd hlt (Nat.lt_asymm hgt)
    · cases hrun
      exact hidle
  · split at hrun
    · rename_i heq
      obtain ⟨⟨u₂, more⟩, es₃, es₄, hescape, hend, rfl⟩ := Logged.bind_ok.mp hrun
      cases hend
      rw [List.append_nil]
      obtain ⟨hsteps₂, hwhy⟩ := escapeCallSites_steps hescape (log ++ es₁)
      refine hfinish hsteps₂ (fun g hg => ?_) fun hgt => absurd heq (Nat.ne_of_gt hgt)
      rcases hwhy with hmore | rfl
      · exact .inr (.inl hmore)
      · exact .inl hg
    · cases hrun
      exact hidle

/-- **Passes** are a run of the machine, and after the last one no summary is behind its graph. -/
theorem passes_steps : ∀ (bound pass : Nat) (u : Update) {u' : Update} {es : List Event}
    (log : List Event), 0 < bound → bound + pass = limit + 2 → Placed u →
    (∀ f, u.Stale f → u.Rebuilt f) → (∀ f, u.Rebuilt f → f ∈ u.order) →
    (passes p limit bound pass u).run = .ok (u', es) →
    Steps ⟨u, log⟩ ⟨u', log ++ es⟩ ∧ ∀ g, ¬ u'.Stale g := by
  intro bound
  induction bound with
  | zero => exact fun _ _ _ _ _ hpos => absurd hpos (Nat.lt_irrefl 0)
  | succ bound ih =>
    intro pass u u' es log _ hsum hplaced hlocal hall hok
    obtain ⟨rest, hrun, rfl⟩ := tell_bind_ok.mp hok
    obtain ⟨⟨u₁, again⟩, es₁, es₂, hpass, hlater, rfl⟩ := Logged.bind_ok.mp hrun
    have hswept : Swept ⟨u, log⟩ limit pass u.order.toList u₁ again
        (log ++ [.pass pass] ++ es₁) := by
      refine Logged.foldlM_of_ok (P := fun done (acc : Update × Bool) es =>
        Swept ⟨u, log⟩ limit pass done acc.1 acc.2 (log ++ [.pass pass] ++ es)) ?_ ?_ hpass
      · rintro done f rest ⟨u₂, again₂⟩ ⟨u₃, again₃⟩ es₃ es₄ horder h hstep
        rw [← List.append_assoc]
        exact h.passOver hplaced horder hstep
      · rw [List.append_nil]
        exact ⟨.single (.pass pass), nofun, fun _ => rfl⟩
    have halike := hswept.steps.alike
    have hlocal₁ : ∀ f, u₁.Stale f → u₁.Rebuilt f := Local.steps (x := ⟨u, log⟩) hlocal hswept.steps
    have hall₁ (f : FuncId) (hf : u₁.Rebuilt f) : f ∈ u₁.order := by
      obtain ⟨info₁, hf₁, hb⟩ := hf
      obtain ⟨info, hf₀, hmarks⟩ := halike.back f info₁ hf₁
      rw [halike.order]
      exact hall f ⟨info, hf₀, by rw [← hmarks.builtIn, hb, halike.number]⟩
    have hlog : log ++ .pass pass :: (es₁ ++ es₂) = log ++ [.pass pass] ++ es₁ ++ es₂ := by simp
    rw [hlog]
    dsimp only at hlater
    split at hlater
    · rename_i hagain
      -- the last pass asks for no other one
      have hpos : 0 < bound := by
        rcases Nat.eq_zero_or_pos bound with rfl | hpos
        · cases hagain.symm.trans (hswept.last (by omega))
        · exact hpos
      obtain ⟨hsteps, hfresh⟩ :=
        ih (pass + 1) u₁ _ hpos (by omega) (hplaced.alike halike) hlocal₁ hall₁ hlater
      exact ⟨hswept.steps.trans hsteps, hfresh⟩
    · rename_i hagain
      cases hlater
      rw [List.append_nil]
      refine ⟨hswept.steps, fun g hg => hagain ?_⟩
      -- a summary that is behind belongs to a function that was built, and so was passed over
      have hmem := hall₁ g (hlocal₁ g hg)
      rw [halike.order] at hmem
      exact hswept.fresh g (Array.mem_toList_iff.mpr hmem) hg

end Trace

/-! ### Completing graphs -/

/-- Completing the graphs of a function changes its graphs alone, and makes them final. -/
structure FuncInfo.Completed (info info' : FuncInfo) : Prop where
  callers : info'.callers = info.callers
  stale : info'.stale = info.stale
  builtIn : info'.builtIn = info.builtIn
  visitedIn : info'.visitedIn = info.visitedIn
  computed : info.computed = true → info'.computed = true

open FuncInfo (Completed)

theorem FuncInfo.Completed.refl (info : FuncInfo) : Completed info info := ⟨rfl, rfl, rfl, rfl, id⟩

theorem FuncInfo.Completed.trans {info'' : FuncInfo} (h : Completed info info')
    (h' : Completed info' info'') : Completed info info'' where
  callers := h'.callers.trans h.callers
  stale := h'.stale.trans h.stale
  builtIn := h'.builtIn.trans h.builtIn
  visitedIn := h'.visitedIn.trans h.visitedIn
  computed := h'.computed ∘ h.computed

namespace Update

theorem finish_alike {verify : Bool} (hok : u.finish p verify f = .ok u') : Alike Completed u u' ∧
    ((∃ s, Scope.of? p f = some s) → u.Rebuilt f → ∃ info, u'.infos.find? f = some info ∧
      info.computed = true) := by
  rcases finish_ok hok with ⟨rfl, hnb⟩ | ⟨info, s, graph, hf, -, -, -, rfl⟩
  · exact ⟨.refl .refl _, fun hs hb => absurd hb (hnb hs)⟩
  · refine ⟨.modify .refl hf ⟨rfl, rfl, rfl, rfl, fun _ => rfl⟩, fun _ _ => ?_⟩
    exact ⟨_, by rw [find?_modify, if_pos rfl], rfl⟩

/-- Completing all graphs. -/
theorem finish_all {verify : Bool} {l : List FuncId} (hok : l.foldlM (finish p verify) u = .ok u') :
    Alike Completed u u' ∧ ∀ f ∈ l, (∃ s, Scope.of? p f = some s) → u.Rebuilt f →
      ∃ info, u'.infos.find? f = some info ∧ info.computed = true := by
  refine foldlM_of_ok (P := fun done u' => Alike Completed u u' ∧ ∀ f ∈ done,
    (∃ s, Scope.of? p f = some s) → u.Rebuilt f → ∃ info, u'.infos.find? f = some info ∧
    info.computed = true) ?_ ⟨.refl .refl u, nofun⟩ hok
  rintro done f rest u₁ u₂ - ⟨halike, hdone⟩ hstep
  obtain ⟨halike', hf⟩ := finish_alike hstep
  refine ⟨halike.trans .trans halike', fun g hg hs hb => ?_⟩
  rcases List.mem_append.mp hg with hg | hg
  · obtain ⟨info, hinfo, hc⟩ := hdone g hg hs hb
    obtain ⟨info', hinfo', hcompleted⟩ := halike'.forth g info hinfo
    exact ⟨info', hinfo', hcompleted.computed hc⟩
  · cases List.mem_singleton.mp hg
    obtain ⟨info, hinfo, hb⟩ := hb
    obtain ⟨info₁, hinfo₁, hcompleted⟩ := halike.forth f info hinfo
    exact hf hs ⟨info₁, hinfo₁, by rw [hcompleted.builtIn, hb, halike.number]⟩

end Update

end Escape
