import Escape.Proofs.Analysis.History
import Escape.Proofs.Graph.Absolute
import Escape.Proofs.Graph.Monotone
import Escape.Proofs.Graph.Transfer

/-!
# The states of summaries

What a function returns or takes in means nothing to the callers of its callers. Deriving a summary
and splicing it into a caller carry over global escapes, and no other state, so a summary never has
another state either.

- `History.absolute`: so do the summaries after every history.
- `global_escapes_alone_transfer`: **splices transfer global escapes, and nothing else.**
-/

namespace Escape

/-! ### Summaries and calls -/

namespace Graph

variable {p : Program} {s : Scope} {g g' summary summary' full full' : Graph}
  {changed : Bool}

theorem Absolute.seats (h : Absolute g) (hg : Seats s g g') : Absolute g' := by
  induction hg with
  | refl => exact h
  | tail _ hstep ih =>
    obtain ⟨v, n?, hok⟩ := hstep
    exact ih.nodeFor hok

/-- **Deriving a summary**, from a full graph with states of all kinds. -/
theorem summarize_absolute (h : Absolute summary)
    (hok : summarize p summary full = .ok (summary', full', changed)) : Absolute summary' := by
  unfold summarize at hok
  split at hok
  · cases hok
    exact h.invalidate
  · split at hok
    · cases hok
      exact h
    · obtain ⟨vs, -, hok⟩ := bind_ok.mp hok
      obtain ⟨⟨full₁, summary₁, m₁⟩, hpair, hok⟩ := bind_ok.mp hok
      obtain ⟨⟨summary₂, m₂, changed₂⟩, hsplice, hok⟩ := bind_ok.mp hok
      cases hok
      refine Absolute.splice ?_ hsplice
      have h₁ := h.seats (pairParams_seats _ _ _ _ hpair).2
      split
      · exact h₁.ensureReturn
      · exact h₁

/-- **Splicing a summary into a caller** lets parameters enter the summary. -/
theorem spliceCall_absolute {site : CallSite} {callee : FuncId} (h : Absolute summary)
    (hok : g.spliceCall p site summary callee = .ok (g', summary', changed)) :
    Absolute summary' := by
  unfold spliceCall at hok
  split at hok
  · cases hok
    exact h
  · split at hok
    · split at hok
      · obtain ⟨g₁, -, hok⟩ := bind_ok.mp hok
        cases hok
        exact h
      · obtain ⟨params, -, hok⟩ := bind_ok.mp hok
        obtain ⟨inst, -, hok⟩ := bind_ok.mp hok
        obtain ⟨⟨summary₁, g₁, m₁⟩, hpair, hok⟩ := bind_ok.mp hok
        obtain ⟨⟨g₂, m₂⟩, -, hok⟩ := bind_ok.mp hok
        obtain ⟨⟨g₃, m₃, changed₃⟩, -, hok⟩ := bind_ok.mp hok
        cases hok
        exact h.seats (pairArgs_seats _ _ _ _ hpair).1
    · cases hok
      exact h

end Graph

/-! ### Updates -/

namespace Update

variable {p : Program} {u u' : Update} {f : FuncId}

/-- The summaries of all functions have absolute states. -/
def Absolute (u : Update) : Prop := ∀ f, (u.known f).summary.Absolute

namespace Absolute

/-- One function is known better. -/
theorem modify (h : Absolute u) (f : FuncId) {change : FuncInfo → FuncInfo}
    (hc : (change (u.known f)).summary.Absolute) : Absolute (u.modify f change) := fun g => by
  rw [known_modify]
  split
  · exact hc
  · exact h g

/-- One function is known better, apart from its summary. -/
theorem modify_rest (h : Absolute u) (f : FuncId) {change : FuncInfo → FuncInfo}
    (hc : ∀ info, (change info).summary = info.summary) : Absolute (u.modify f change) :=
  h.modify f (by rw [hc]; exact h f)

theorem place (h : Absolute u) (f : FuncId) : Absolute (u.place f) := by
  unfold Update.place
  split
  · exact h
  · split
    · exact h
    · have hplaced :
          Absolute (u.modify f fun info => { info with position := some u.order.size }) :=
        h.modify_rest f fun _ => rfl
      exact hplaced

/-- **A step of the search** empties a summary, or keeps them all. -/
theorem search_step {max : Nat} {x y : Search} (h : Absolute x.update)
    (hstep : Search.Step p max x y) : Absolute y.update := by
  have hcaller {u : Update} (h : Absolute u) (call : Call) :
    Absolute (u.modify call.callee (·.addCaller call.site)) :=
    h.modify_rest _ fun info => by
      obtain ⟨callers, he, -⟩ := addCaller_spec call.site info
      rw [he]
  cases hstep with
  | again call _ _ _ => exact hcaller h call
  | descend call _ _ _ => exact hcaller h call
  | reuse _ _ => exact h.modify _ (h _)
  | build _ _ _ _ => exact h.modify _ (.of_empty rfl rfl)
  | keep graph _ => exact h.modify_rest _ fun _ => rfl
  | leave => exact h.place _

theorem search {max : Nat} {x y : Search} (h : Absolute x.update)
    (hsteps : Search.Steps p max x y) : Absolute y.update := by
  induction hsteps with
  | refl => exact h
  | tail _ hstep ih => exact ih.search_step hstep

/-! ### Passes -/

theorem refreshSummary {changed : Bool} (h : Absolute u)
    (hok : u.refreshSummary p f = .ok (u', changed)) : Absolute u' := by
  rcases refreshSummary_ok hok with ⟨-, rfl, -⟩ | ⟨info, summary, graph, hf, -, hsum, rfl⟩
  · exact h
  · exact h.modify f (Graph.summarize_absolute (known_of_find? hf ▸ h f) hsum)

theorem spliceAt (sites : List CallSite) (summary : Graph) (u : Update) (again : Bool)
    {summary' : Graph} {u' : Update} {again' : Bool} (hs : summary.Absolute) (h : Absolute u)
    (hok : Update.spliceAt p f sites summary u again = .ok (summary', u', again')) :
    summary'.Absolute ∧ Absolute u' := by
  induction sites generalizing summary u again summary' u' again' with
  | nil =>
    cases hok
    exact ⟨hs, h⟩
  | cons site sites ih =>
    rcases spliceAt_cons_ok hok with ⟨-, hok⟩ | ⟨caller, graph, summary₁, changed, again₁, u₁,
      hcaller, -, hsplice, rfl, -, hok⟩
    · exact ih _ _ _ hs h hok
    · exact ih _ _ _ (Graph.spliceCall_absolute hs hsplice)
        (h.modify _ (known_of_find? hcaller ▸ h _)) hok

theorem spliceIntoCallers {again : Bool} (h : Absolute u)
    (hok : u.spliceIntoCallers p f = .ok (u', again)) : Absolute u' := by
  unfold Update.spliceIntoCallers at hok
  split at hok
  · cases hok
    exact h
  · rename_i info hf
    obtain ⟨⟨summary, u₁, again'⟩, hsplice, hok⟩ := bind_ok.mp hok
    cases hok
    obtain ⟨hs, h₁⟩ := spliceAt _ _ _ _ (known_of_find? hf ▸ h f) h hsplice
    exact h₁.modify f hs

theorem escapeCallSite {acc acc' : Update × Bool} {site : CallSite} (h : Absolute acc.1)
    (hok : Update.escapeCallSite p acc site = .ok acc') : Absolute acc'.1 := by
  rcases escapeCallSite_ok hok with ⟨hsame, -⟩ | ⟨caller, s, graph, hcaller, -, -, -, -, hnew⟩
  · rw [hsame]
    exact h
  · rw [hnew]
    exact h.modify _ (known_of_find? hcaller ▸ h _)

theorem escapeCallSites {again : Bool} (h : Absolute u)
    (hok : u.escapeCallSites p f = .ok (u', again)) : Absolute u' := by
  unfold Update.escapeCallSites at hok
  split at hok
  · cases hok
    exact h
  · exact foldlM_of_ok (P := fun _ (acc : Update × Bool) => Absolute acc.1)
      (fun _ _ _ _ _ _ hacc hok => escapeCallSite hacc hok) h hok

theorem passOver {limit pass : Nat} {acc acc' : Update × Bool} (h : Absolute acc.1)
    (hok : Update.passOver p limit pass acc f = .ok acc') : Absolute acc'.1 := by
  obtain ⟨u₁, changed, more, hrefresh, -, hcases⟩ := passOver_ok hok
  have h₁ := h.refreshSummary hrefresh
  rcases hcases with ⟨-, -, hsplice⟩ | ⟨-, -, -, hsame, -⟩ | ⟨-, hescape⟩ | ⟨-, hsame, -⟩
  · exact h₁.spliceIntoCallers hsplice
  · rw [hsame]
    exact h₁
  · exact h₁.escapeCallSites hescape
  · rw [hsame]
    exact h₁

theorem passes {limit : Nat} (bound pass : Nat) {u u' : Update} (h : Absolute u)
    (hok : Update.passes p limit bound pass u = .ok u') : Absolute u' := by
  induction bound generalizing pass u u' with
  | zero =>
    cases hok
    exact h
  | succ bound ih =>
    obtain ⟨⟨u₁, again⟩, h₁, hok⟩ := bind_ok.mp hok
    have ha : Absolute u₁ := foldlM_of_ok (P := fun _ (acc : Update × Bool) => Absolute acc.1)
      (fun _ _ _ _ _ _ hacc hok => hacc.passOver hok) h h₁
    dsimp only at hok
    split at hok
    · exact ih (pass + 1) ha hok
    · cases hok
      exact ha

theorem finish {verify : Bool} (h : Absolute u) (hok : Update.finish p verify u f = .ok u') :
    Absolute u' := by
  rcases finish_ok hok with ⟨rfl, -⟩ | ⟨info, s, graph, hf, -, -, -, rfl⟩
  · exact h
  · exact h.modify f (known_of_find? hf ▸ h f)

end Absolute

end Update

/-! ### Histories -/

namespace Analysis

variable {a : Analysis} {p : Program} {f : FuncId} {info : FuncInfo}

/-- The summaries of all functions have absolute states. -/
def Absolute (a : Analysis) : Prop := ∀ f info, a.info? f = some info → info.summary.Absolute

/-- **An update** derives all summaries anew, or takes them over. -/
theorem Absolute.update (h : Absolute a) (ht : Tidy a) (hroot : (p.func? f).isSome) {u : Update}
    {log : List Event} (hok : (Trace.update a p f).run = .ok (u, log)) : u.Absolute := by
  obtain ⟨v, w, early, hstages⟩ := ht.stages hroot hok
  obtain ⟨u₀, hbuild, rfl⟩ := hstages.built
  obtain ⟨late, -, hpasses⟩ := hstages.passed
  have hbegun : Update.Absolute a.begun := fun g => by
    rw [Update.known]
    cases hg : a.begun.infos.find? g with
    | none => exact .of_empty rfl rfl
    | some info => exact h g info hg
  have h₁ := hbegun.search (Trace.build_run ht.stamped hroot hbuild)
  have h₂ := h₁.passes _ _ (Trace.passes_silent .. ▸ Logged.silent_ok.mpr ⟨late, hpasses⟩)
  exact foldlM_of_ok (P := fun _ (u : Update) => u.Absolute)
    (fun _ _ _ _ _ _ hu hok => hu.finish hok) h₂ hstages.finished

end Analysis

/-- **The states of summaries.** Whatever happened to an analysis, the summaries have absolute
states. -/
theorem History.absolute {a : Analysis} {spliced : Call → Prop} (h : History a spliced) :
    a.Absolute := by
  induction h with
  | start h =>
    intro f info hf
    rw [Analysis.info?, h] at hf
    cases hf
  | update h hroot hok ih =>
    intro f info hf
    exact Update.known_of_find? hf ▸ ih.update h.tidy.1 hroot hok f
  | invalidate f _ ih =>
    intro g info hg
    obtain ⟨-, old, hold, rfl⟩ := Analysis.find?_invalidate hg
    exact ih g old hold
  | invalidateAll _ _ =>
    intro f info hf
    cases hf
  | forget _ hok ih =>
    intro g info hg
    obtain ⟨graph, hmap⟩ := (Analysis.find?_forget hok).2 g
    rw [Analysis.info?, hmap] at hg
    obtain ⟨old, hold, rfl⟩ := Option.map_eq_some_iff.mp hg
    exact ih g old hold

open Escape.Graph

/-- A value that defers to another one, which escapes globally, and a parameter. -/
def leakEdits : List Graph.Edit :=
  [.enter ⟨⟨0⟩, false, false⟩, .enter ⟨⟨1⟩, false, false⟩, .enter ⟨⟨2⟩, true, false⟩,
    .defer ⟨0⟩ ⟨1⟩, .raise ⟨1⟩ .globalEscaping]

/-- **Splices transfer global escapes, and nothing else.** Let the destination and the source pass
their checks, and let the map lead from live nodes to live nodes. If the splice succeeds, a mapped
node of the source that escapes globally, or that reaches an unmapped node which does along defer
edges, stands for a node that escapes globally. Any other live node of the destination has the
greatest of the states that were merged into it, and none of the source. So the nodes of a summary,
whatever the history of the analysis, are local or escape globally. -/
theorem global_escapes_alone_transfer :
    (∀ {g source g' : Graph} {map map' : NodeMap} {changed : Bool},
      g.check false = .ok () → Tabled g →
      source.check false = .ok () → Tabled source →
      (∀ e ∈ map.pairs.entries, source.Live e.1 ∧ g.Live e.2) →
      g.splice source map = .ok (g', map', changed) →
      (∀ a b, map'.get? g' a = some b → source.Leaks map' a → (g'.node b).state = .globalEscaping) ∧
      ∀ n, g'.Live n → ((g'.node n).state = .globalEscaping ∧
          ∃ a b, (a, b) ∈ map'.pairs.entries ∧ g'.representative b = n ∧ source.Leaks map' a) ∨
        IsGreatest (originStates g g' n) (g'.node n).state) ∧
    ∀ {a : Analysis} {spliced : Call → Prop}, History a spliced → ∀ f info, a.info? f = some info →
      ∀ n, info.summary.Live n → (info.summary.node n).state = .noEscape ∨
        (info.summary.node n).state = .globalEscaping := by
  refine ⟨fun hcheck ht hcheck' ht' hmap hok => ?_,
    fun h f info hf n _ => (h.absolute f info hf).states n⟩
  exact splice_transfers hcheck ht hcheck' ht' hmap hok

/-- The first value stands for the value of the destination, and the parameter for its memory. The
value that escapes is not mapped: the destination of the first value escapes, and the memory stays
local. In the ring the second function stores its parameter to a global variable, and the summary of
the first one tells its callers. -/
theorem global_escapes_alone_transfer_leak :
    (∃ g source g' map', (full ⟨0⟩).run chainEdits = .ok g ∧
      (full ⟨0⟩).run leakEdits = .ok source ∧ (source.node ⟨2⟩).state = .argumentReachable ∧
      g.splice source (mapOf [(⟨0⟩, ⟨0⟩), (⟨2⟩, ⟨1⟩)]) = .ok (g', map', true) ∧
      (g'.node ⟨0⟩).state = .globalEscaping ∧ IsGreatest (originStates g g' ⟨1⟩) .noEscape) ∧
    ∃ a spliced, History a spliced ∧ ∃ info, a.info? ⟨0⟩ = some info ∧ info.summary.Live ⟨0⟩ ∧
      (info.summary.node ⟨0⟩).state ≠ .noEscape ∧
      (info.summary.node ⟨0⟩).state = .globalEscaping := by
  have hrun : ∃ g, (full ⟨0⟩).run chainEdits = .ok g ∧ ∃ source,
    (full ⟨0⟩).run leakEdits = .ok source ∧
      (source.node ⟨2⟩).state = .argumentReachable ∧ (source.node ⟨1⟩).state = .globalEscaping ∧
      ⟨1⟩ ∈ (source.node ⟨0⟩).defersTo ∧ g.check false = .ok () ∧ source.check false = .ok () ∧
      (∀ e ∈ (mapOf [(⟨0⟩, ⟨0⟩), (⟨2⟩, ⟨1⟩)]).pairs.entries, source.Live e.1 ∧ g.Live e.2) ∧
      ∃ r, g.splice source (mapOf [(⟨0⟩, ⟨0⟩), (⟨2⟩, ⟨1⟩)]) = .ok r ∧ r.2.2 = true ∧
        r.2.1.get? r.1 ⟨0⟩ = some ⟨0⟩ ∧ ⟨1⟩ ∉ r.2.1.sources ∧ r.1.Live ⟨1⟩ ∧
        (r.1.node ⟨1⟩).state = .noEscape := by
    decide +kernel
  have hring : ∃ r, (Trace.update (Analysis.ofConfig Preset.balanced.config) ring ⟨2⟩).run = .ok r ∧
      ∃ info ∈ r.1.infos.find? ⟨0⟩, info.summary.Live ⟨0⟩ ∧
      (info.summary.node ⟨0⟩).state ≠ .noEscape := by
    decide +kernel
  obtain ⟨g, hg, source, hsource, hparam, hglobal, hdefers, hcheck, hcheck', hmap,
    ⟨g', map', changed⟩, hok, hchanged, hget, hunmapped, hlive, hlocal⟩ := hrun
  obtain ⟨⟨u, log⟩, hupdate, info, hinfo, hnode, hstate⟩ := hring
  dsimp only at hchanged hget hunmapped hlive hlocal
  subst hchanged
  have htabled : ∀ {edits k}, Along (fun g e => e.OnLive g ∧ e.Plain g) (full ⟨0⟩) edits →
      (full ⟨0⟩).run edits = .ok k → Tabled k := fun {edits k} halong hk =>
    (Settled.run (Q := fun _ => True) edits _ ⟨(IsStart.full ⟨0⟩).stable.toShape,
      (IsStart.full ⟨0⟩).stable.settled⟩ (halong.mono fun _ _ h => ⟨h.1, trivial⟩) hk).1.tabled
  obtain ⟨hsplice, hsummary⟩ := global_escapes_alone_transfer
  obtain ⟨hout, hrest⟩ := hsplice hcheck (htabled sharingEdits_along.1 hg) hcheck'
    (htabled (by decide +kernel) hsource) hmap hok
  have hstart : History (Analysis.ofConfig Preset.balanced.config) fun _ => False := .start rfl
  have hhistory := hstart.update (by decide +kernel : (ring.func? ⟨2⟩).isSome) hupdate
  refine ⟨⟨g, source, g', map', hg, hsource, hparam, hok,
    hout ⟨0⟩ ⟨0⟩ hget ⟨⟨1⟩, .single hdefers, hglobal, .inr hunmapped⟩, ?_⟩,
    _, _, hhistory, info, hinfo, hnode, hstate,
    (hsummary hhistory ⟨0⟩ info hinfo ⟨0⟩ hnode).resolve_left hstate⟩
  rw [← hlocal]
  refine (hrest ⟨1⟩ hlive).resolve_left fun hleak => ?_
  rw [hlocal] at hleak
  cases hleak.1

end Escape
