import Escape.Proofs.Analysis.Conservative
import Escape.Proofs.Analysis.History

/-!
# What passes do to the graphs in work

A pass may splice in the summary of a function that an earlier update analyzed, perhaps in another
program. Whatever that summary is like, the graphs that are being built only grow, and a graph that
was given up takes its own summary with it.

- `Update.InWork.passOver`, `Update.InWork.wholePass`: **a pass** keeps the graphs in work, and in
  pass number `limit` everything escapes at all calls.
-/

namespace Escape

open FuncInfo (SameMarks Reworked)

/-! ### Graphs -/

namespace Graph

variable {p : Program} {s t : Scope} {g g' summary summary' full full' : Graph} {v : ValueId}

/-- **Deriving a summary** lets parameters enter the full graph, whatever the summary is like. -/
theorem summarize_builds {changed : Bool} (ht : Scope.of? p t.id = some t) (hfull : Grown t full)
    (hok : summarize p summary full = .ok (summary', full', changed)) :
    Builds t full full' ∧ (full.valid = false → summary'.valid = false) := by
  unfold summarize at hok
  split at hok
  · cases hok
    exact ⟨.refl hfull.settled, fun _ => rfl⟩
  · rename_i hv
    rw [hfull.owner, Option.bind_some, ht] at hok
    obtain ⟨vs, -, hok⟩ := bind_ok.mp hok
    obtain ⟨⟨full₁, summary₁, m₁⟩, hpair, hok⟩ := bind_ok.mp hok
    obtain ⟨⟨summary₂, m₂, c⟩, -, hok⟩ := bind_ok.mp hok
    cases hok
    have hen := Enters.of_seats hfull.settled (pairParams_seats _ _ _ _ hpair).1
    exact ⟨hen.builds, fun hv' => by simp [hv'] at hv⟩

theorem Seats.valid (h : Seats s g g') : g'.valid = g.valid := by
  induction h with
  | refl => rfl
  | tail _ hstep ih =>
    obtain ⟨v, n?, hok⟩ := hstep
    exact (nodeFor_valid hok).trans ih

/-- **Splicing a summary in** builds upon the graph of the caller, whatever the summary is like. -/
theorem spliceCall_builds {site : CallSite} {callee : FuncId} {changed : Bool}
    (hcaller : Scope.of? p site.caller = some s) (hs : Settled g)
    (hok : g.spliceCall p site summary callee = .ok (g', summary', changed)) :
    Builds s g g' ∧ summary'.valid = summary.valid := by
  unfold spliceCall at hok
  split at hok
  · cases hok
    exact ⟨.refl hs, rfl⟩
  · rw [hcaller] at hok
    cases hcallee : Scope.of? p callee with
    | none =>
      rw [hcallee] at hok
      cases hok
      exact ⟨.refl hs, rfl⟩
    | some t =>
      rw [hcallee] at hok
      dsimp only at hok
      split at hok
      · obtain ⟨g₁, h₁, hok⟩ := bind_ok.mp hok
        cases hok
        exact ⟨(escapeAll_spec hs h₁).1, rfl⟩
      · obtain ⟨args, -, hok⟩ := bind_ok.mp hok
        obtain ⟨inst, -, hok⟩ := bind_ok.mp hok
        obtain ⟨⟨summary₁, g₁, m₁⟩, h₁, hok⟩ := bind_ok.mp hok
        obtain ⟨⟨g₂, m₂⟩, h₂, hok⟩ := bind_ok.mp hok
        obtain ⟨⟨g₃, m₃, c⟩, h₃, hok⟩ := bind_ok.mp hok
        cases hok
        obtain ⟨hsummary, hg⟩ := pairArgs_seats _ _ _ _ h₁
        have hen := Enters.of_seats hs (hg.trans (pairResult_seats h₂))
        obtain ⟨hb₃, -⟩ := splice_spec (P := s.Defined) (B := s.Inner) hen.builds.settled h₃
        exact ⟨hen.builds.trans hb₃, hsummary.valid⟩

end Graph

open Escape.Graph

variable {p : Program} {s : Scope} {u u' u'' : Update} {f g : FuncId} {info info' info'' : FuncInfo}
  {sites : List CallSite} {limit pass : Nat}

/-! ### What is known about a function -/

namespace FuncInfo

/-- A graph that was given up has taken its summary with it, or will do so when the summary is
derived. -/
def Paired (info : FuncInfo) : Prop := info.stale = true ∨ info.graph.valid = true ∨
    info.summary.valid = false

/-- What passes do to what is known about a function. -/
structure Tended (number : Nat) (info info' : FuncInfo) :
    Prop extends Reworked number info info' where
  paired : info.Paired → info'.Paired

theorem Tended.refl (number : Nat) (info : FuncInfo) : Tended number info info :=
  ⟨.refl number info, id⟩

theorem Tended.trans {number : Nat} (h : Tended number info info')
    (h' : Tended number info' info'') : Tended number info info'' :=
    ⟨h.toReworked.trans h'.toReworked, h'.paired ∘ h.paired⟩

end FuncInfo

open FuncInfo (Tended Paired)

namespace Update

/-- What passes do to an update. -/
abbrev Tends (u u' : Update) : Prop := Alike (Tended u.number) u u'

namespace Tends

theorem refl (u : Update) : Tends u u := Alike.refl (.refl _) u

theorem trans (h : Tends u u') (h' : Tends u' u'') : Tends u u'' := by
  unfold Tends at h'
  rw [h.number] at h'
  exact Alike.trans .trans h h'

end Tends

/-- The graphs that an update builds are graphs of the functions of the program, and only their
summaries can be behind. -/
structure InWork (p : Program) (u : Update) : Prop where
  grown : ∀ f info, u.infos.find? f = some info → info.builtIn = u.number →
    ∃ s, Scope.of? p f = some s ∧ Grown s info.graph
  stale : ∀ f info, u.infos.find? f = some info → info.stale = true → info.builtIn = u.number

namespace InWork

variable (h : InWork p u)
include h

/-- A step that leaves the full graph of a function alone, or builds upon it in this update. -/
theorem modify (info' : FuncInfo) (hf : u.infos.find? f = some info) (hmarks : SameMarks info info')
    (hgraph : info'.graph = info.graph ∨ info.builtIn = u.number ∧
      ∀ s, Scope.of? p f = some s → Grown s info.graph → Builds s info.graph info'.graph)
    (hstale : info'.stale = true → info.stale = true ∨ info.builtIn = u.number)
    (hpaired : info'.graph.valid = info.graph.valid → info.Paired → info'.Paired) :
    InWork p (u.modify f fun _ => info') ∧ Tends u (u.modify f fun _ => info') := by
  have hfind {g : FuncId} {new : FuncInfo} (hg :
    (u.modify f fun _ => info').infos.find? g = some new) :
      f = g ∧ new = info' ∨ u.infos.find? g = some new := by
    rw [find?_modify] at hg
    split at hg
    · rename_i hfg
      exact .inl ⟨hfg, (Option.some.inj hg).symm⟩
    · exact .inr hg
  have htended : Tended u.number info info' := by
    rcases hgraph with he | ⟨hb, hbuilds⟩
    · exact ⟨.of_graph hmarks he, hpaired (congrArg _ he)⟩
    · obtain ⟨s, hs, hgrown⟩ := h.grown f info hf hb
      have hbuilt := hbuilds s hs hgrown
      exact ⟨⟨hmarks, fun hnb => absurd hb hnb, fun _ => hbuilt.forward, fun _ => hbuilt.supplies⟩,
        hpaired hbuilt.valid⟩
  refine ⟨⟨fun g new hg hb => ?_, fun g new hg hst => ?_⟩, .modify (.refl _) hf htended⟩
  · rcases hfind hg with ⟨rfl, rfl⟩ | hg
    · obtain ⟨s, hs, hgrown⟩ := h.grown f info hf (hmarks.builtIn.symm.trans hb)
      refine ⟨s, hs, ?_⟩
      rcases hgraph with he | ⟨-, hbuilds⟩
      · rw [he]
        exact hgrown
      · exact hgrown.builds (hbuilds s hs hgrown)
    · exact h.grown g new hg hb
  · rcases hfind hg with ⟨rfl, rfl⟩ | hg
    · exact hmarks.builtIn.trans ((hstale hst).elim (h.stale f info hf) id)
    · exact h.stale g new hg hst

/-! ### Parts of a pass -/

/-- **Bringing a summary up to date.** -/
theorem refreshSummary {changed : Bool} (hok : u.refreshSummary p f = .ok (u', changed)) :
    InWork p u' ∧ Tends u u' := by
  rcases refreshSummary_ok hok with ⟨-, rfl, -⟩ | ⟨info, summary, graph, hf, hst, hsum, rfl⟩
  · exact ⟨h, .refl _⟩
  · have hb := h.stale f info hf hst
    obtain ⟨t, ht, hgrown⟩ := h.grown f info hf hb
    obtain ⟨-, hid, -⟩ := Scope.of?_spec ht
    subst hid
    have hpush : Builds t info.graph info.graph.propagate.1 :=
      .raises hgrown.settled (propagate_raises _)
    obtain ⟨hbuilds, hinvalid⟩ := summarize_builds ht (hgrown.builds hpush) hsum
    refine h.modify _ hf ⟨rfl, rfl, rfl, rfl, rfl⟩ (.inr ⟨hb, fun s hs _ => ?_⟩) nofun
      fun hvalid _ => .inr ?_
    · cases ht.symm.trans hs
      exact hpush.trans hbuilds
    · cases hv : info.graph.valid with
      | true => exact .inl (hvalid.trans hv)
      | false => exact .inr (hinvalid (hpush.valid.trans hv))

omit h in
/-- Splicing a summary into the given callers. -/
theorem spliceAt (sites : List CallSite) (summary : Graph) (u : Update) (again : Bool)
    {summary' : Graph} {u' : Update} {again' : Bool} (h : InWork p u)
    (hok : Update.spliceAt p f sites summary u again = .ok (summary', u', again')) :
    InWork p u' ∧ Tends u u' ∧ SameSummaries u u' ∧ summary'.valid = summary.valid := by
  induction sites generalizing summary u again summary' u' again' with
  | nil =>
    cases hok
    exact ⟨h, .refl u, fun _ _ _ hf hf' => by cases hf.symm.trans hf'; rfl, rfl⟩
  | cons site sites ih =>
    rcases spliceAt_cons_ok hok with ⟨-, hok⟩ | ⟨caller, graph, summary₁, changed, again₁, u₁,
      hcaller, hb, hsplice, rfl, -, hok⟩
    · exact ih _ _ _ h hok
    · obtain ⟨s, hs, hgrown⟩ := h.grown _ caller hcaller hb
      obtain ⟨hbuilds, hv₁⟩ := spliceCall_builds hs hgrown.settled hsplice
      obtain ⟨h₁, ht₁⟩ := h.modify { caller with graph, stale := caller.stale || changed } hcaller
        ⟨rfl, rfl, rfl, rfl, rfl⟩ (.inr ⟨hb,
        fun s' hs' _ => by cases hs.symm.trans hs'; exact hbuilds⟩) (fun _ => .inr hb)
        fun hvalid hpaired => by
          rcases hpaired with hst | hv | hv
          · exact .inl (by rw [hst]; rfl)
          · exact .inr (.inl (hvalid.trans hv))
          · exact .inr (.inr hv)
      obtain ⟨h₂, ht₂, hsame, hv₂⟩ := ih _ _ _ h₁ hok
      refine ⟨h₂, ht₁.trans ht₂, fun g old new hold hnew => ?_, hv₂.trans hv₁⟩
      obtain ⟨mid, hmid, -⟩ := ht₁.forth g old hold
      exact (hsame g mid new hmid hnew).trans (sameSummaries_modify hcaller g old mid hold hmid)

/-- **Splicing a summary into all callers.** -/
theorem spliceIntoCallers {again : Bool} (hok : u.spliceIntoCallers p f = .ok (u', again)) :
    InWork p u' ∧ Tends u u' := by
  unfold Update.spliceIntoCallers at hok
  cases hf : u.infos.find? f with
  | none =>
    rw [hf] at hok
    cases hok
    exact ⟨h, .refl u⟩
  | some info =>
    rw [hf] at hok
    obtain ⟨⟨summary, u₁, again₁⟩, hsplice, hok⟩ := bind_ok.mp hok
    cases hok
    obtain ⟨h₁, ht₁, hsame, hv⟩ := spliceAt _ _ _ _ h hsplice
    obtain ⟨info₁, hf₁, -⟩ := ht₁.forth f info hf
    have hsummary := hsame f info info₁ hf hf₁
    rw [modify_eq hf₁]
    obtain ⟨h₂, ht₂⟩ := h₁.modify { info₁ with summary } hf₁ ⟨rfl, rfl, rfl, rfl, rfl⟩ (.inl rfl)
      .inl fun _ hpaired => hpaired.imp_right fun hpaired => hpaired.imp_right fun hinvalid =>
        hv.trans (hsummary ▸ hinvalid)
    exact ⟨h₂, ht₁.trans ht₂⟩

/-- What later graphs keep of what escapes at calls. -/
theorem escaped_tends (ht : Tends u u') (hsites : AtSites p u sites Escaped) :
    AtSites p u' sites Escaped := by
  intro site hsite caller' s hcaller' hb hs hv
  obtain ⟨caller, hcaller, htended⟩ := ht.back _ caller' hcaller'
  rw [htended.builtIn, ht.number] at hb
  obtain ⟨s', -, hgrown⟩ := h.grown _ caller hcaller hb
  have hforward := htended.forward hgrown.settled
  rw [hforward.2.valid] at hv
  exact (hsites site hsite caller s hcaller hb hs hv).follows hgrown.settled hforward.2

/-- Letting everything escape that one call touches. -/
theorem escapeCallSite {site : CallSite} {more more' : Bool}
    (hok : Update.escapeCallSite p (u, more) site = .ok (u', more')) :
    InWork p u' ∧ Tends u u' ∧ AtSites p u' [site] Escaped := by
  rcases escapeCallSite_ok hok with ⟨rfl, -, hnone⟩ | ⟨caller, s, graph, hcaller, hs, hb,
    hescape, -, rfl⟩
  · exact ⟨h, .refl _, hnone _⟩
  · obtain ⟨s', hs', hgrown⟩ := h.grown _ caller hcaller hb
    cases hs.symm.trans hs'
    obtain ⟨hbuilds, hescaped⟩ := escapeAll_spec hgrown.settled hescape
    obtain ⟨h₁, ht₁⟩ := h.modify { caller with graph, stale := true } hcaller
      ⟨rfl, rfl, rfl, rfl, rfl⟩ (.inr ⟨hb,
      fun s' hs' _ => by cases hs.symm.trans hs'; exact hbuilds⟩) (fun _ => .inr hb) fun _ _ => .inl
      rfl
    refine ⟨h₁, ht₁, fun site' hsite caller' s' hc' _ hs' hv => ?_⟩
    cases List.mem_singleton.mp hsite
    cases hs.symm.trans hs'
    rw [find?_modify, if_pos rfl] at hc'
    cases hc'
    exact hescaped (hbuilds.valid.symm.trans hv)

/-- **Letting everything escape that the calls of a function touch.** -/
theorem escapeCallSites {more : Bool} (hok : u.escapeCallSites p f = .ok (u', more)) :
    InWork p u' ∧ Tends u u' ∧ ∀ info, u'.infos.find? f = some info →
    AtSites p u' info.callers Escaped := by
  unfold Update.escapeCallSites at hok
  cases hf : u.infos.find? f with
  | none =>
    rw [hf] at hok
    cases hok
    refine ⟨h, .refl u, fun info hinfo => ?_⟩
    cases hf.symm.trans hinfo
  | some info =>
    rw [hf] at hok
    have hloop := foldlM_of_ok (P := fun done (acc : Update × Bool) => InWork p acc.1 ∧
      Tends u acc.1 ∧ AtSites p acc.1 done Escaped) ?_ ⟨h, .refl u, nofun⟩ hok
    · obtain ⟨h', ht, hsites⟩ := hloop
      refine ⟨h', ht, fun info' hf' => ?_⟩
      obtain ⟨old, hold, htended⟩ := ht.back f info' hf'
      cases hf.symm.trans hold
      rw [htended.callers]
      exact hsites
    · rintro done site rest ⟨u₁, more₁⟩ ⟨u₂, more₂⟩ - ⟨h₁, ht₁, hsites⟩ hstep
      obtain ⟨h₂, ht₂, hsite⟩ := h₁.escapeCallSite hstep
      exact ⟨h₂, ht₁.trans ht₂, atSites_append.mpr ⟨h₁.escaped_tends ht₂ hsites, hsite⟩⟩

/-- **One step of a pass.** In pass number `limit` everything escapes at the calls of the function.
-/
theorem passOver {again again' : Bool}
    (hok : Update.passOver p limit pass (u, again) f = .ok (u', again')) :
    InWork p u' ∧ Tends u u' ∧
      (pass = limit → ∀ info, u'.infos.find? f = some info →
        AtSites p u' info.callers Escaped) := by
  obtain ⟨u₁, changed, more, hrefresh, -, hcases⟩ := passOver_ok hok
  obtain ⟨h₁, ht₁⟩ := h.refreshSummary hrefresh
  rcases hcases with ⟨hlt, -, hsplice⟩ | ⟨hlt, -, -, rfl, -⟩ | ⟨-, hescape⟩ | ⟨hlt, rfl, -⟩
  · obtain ⟨h₂, ht₂⟩ := h₁.spliceIntoCallers hsplice
    exact ⟨h₂, ht₁.trans ht₂, fun he => absurd he (Nat.ne_of_lt hlt)⟩
  · exact ⟨h₁, ht₁, fun he => absurd he (Nat.ne_of_lt hlt)⟩
  · obtain ⟨h₂, ht₂, hsites⟩ := h₁.escapeCallSites hescape
    exact ⟨h₂, ht₁.trans ht₂, fun _ => hsites⟩
  · exact ⟨h₁, ht₁, fun he => absurd he (Nat.ne_of_gt hlt)⟩

/-- **A whole pass.** -/
theorem wholePass {again : Bool}
    (hok : u.order.toList.foldlM (Update.passOver p limit pass) (u, false) = .ok (u', again)) :
    InWork p u' ∧ Tends u u' ∧ (pass = limit → ∀ f ∈ u.order, ∀ info, u'.infos.find? f = some info →
      AtSites p u' info.callers Escaped) := by
  have hloop := foldlM_of_ok (P := fun done (acc : Update × Bool) => InWork p acc.1 ∧
    Tends u acc.1 ∧ (pass = limit → ∀ f ∈ done, ∀ info, acc.1.infos.find? f = some info →
    AtSites p acc.1 info.callers Escaped)) ?_ ⟨h, .refl u,
    fun _ _ hf => absurd hf List.not_mem_nil⟩ hok
  · exact hloop.imp_right fun hrest => hrest.imp_right fun hsites he f hf =>
      hsites he f (Array.mem_toList_iff.mpr hf)
  · rintro done f rest ⟨u₁, again₁⟩ ⟨u₂, again₂⟩ - ⟨h₁, ht₁, hsites⟩ hstep
    obtain ⟨h₂, ht₂, hhere⟩ := h₁.passOver hstep
    refine ⟨h₂, ht₁.trans ht₂, fun he g hg info hinfo => ?_⟩
    rcases List.mem_append.mp hg with hg | hg
    · -- what escaped before escapes still
      obtain ⟨old, hold, htended⟩ := ht₂.back g info hinfo
      rw [htended.callers]
      exact h₁.escaped_tends ht₂ (hsites he g hg old hold)
    · cases List.mem_singleton.mp hg
      exact hhere he info hinfo

end InWork

end Update

/-! ### The log of passes -/

/-- The number of a pass that begins. -/
def Event.pass? : Event → Option Nat
  | .pass number => some number
  | _ => none

/-- The numbers of the passes in a log. -/
def passNumbers (log : List Event) : List Nat := log.filterMap Event.pass?

theorem mem_passNumbers {log : List Event} {n : Nat} : n ∈ passNumbers log ↔ .pass n ∈ log := by
  constructor
  · intro h
    obtain ⟨event, hevent, he⟩ := List.mem_filterMap.mp h
    cases event with
    | pass number =>
      cases he
      exact hevent
    | _ => cases he
  · exact fun h => List.mem_filterMap.mpr ⟨_, h, rfl⟩

/-- No pass begins while the computation runs. -/
def Logged.Within {α : Type} (x : Logged α) : Prop :=
  ∀ a es, x.run = .ok (a, es) → passNumbers es = []

namespace Logged.Within

variable {α β γ : Type}

theorem pure (a : α) : Within (Pure.pure a : Logged α) := by
  intro b es h
  cases h
  rfl

theorem bind {x : Logged α} {k : α → Logged β} (hx : x.Within) (hk : ∀ a, (k a).Within) :
    (x >>= k).Within := by
  intro b es h
  obtain ⟨a, es₁, es₂, h₁, h₂, rfl⟩ := bind_ok.mp h
  rw [passNumbers, List.filterMap_append]
  exact List.append_eq_nil_iff.mpr ⟨hx a es₁ h₁, hk a b es₂ h₂⟩

theorem lift (y : Checked α) : Within (liftM y : Logged α) := by
  intro a es h
  obtain ⟨-, rfl⟩ := lift_ok.mp h
  rfl

theorem tell {event : Event} (h : event.pass? = none) : Within (tell event) := by
  intro a es hok
  cases hok
  exact List.filterMap_eq_nil_iff.mpr (List.forall_mem_singleton.mpr h)

theorem foldlM {step : β → γ → Logged β} (hstep : ∀ b c, (step b c).Within) (l : List γ) (b : β) :
    (l.foldlM step b).Within := by
  induction l generalizing b with
  | nil => exact pure b
  | cons c l ih => exact bind (hstep b c) fun b' => ih b'

end Logged.Within

namespace Trace

open Update Logged

theorem refreshSummary_within (u : Update) (f : FuncId) : (refreshSummary p u f).Within := by
  unfold refreshSummary
  split
  · exact .pure _
  · split
    · exact .pure _
    · exact .bind (.lift _) fun r => .bind (.tell rfl) fun _ => .pure _

theorem spliceAt_within (callee : FuncId) :
    ∀ (sites : List CallSite) (summary : Graph) (u : Update) (again : Bool),
    (spliceAt p callee sites summary u again).Within := by
  intro sites
  induction sites with
  | nil => exact fun _ _ _ => .pure _
  | cons site sites ih =>
    intro summary u again
    rw [spliceAt]
    split
    · exact ih _ _ _
    · split
      · exact ih _ _ _
      · exact .bind (.lift _) fun r => .bind (.tell rfl) fun _ => ih _ _ _

theorem spliceIntoCallers_within (u : Update) (f : FuncId) : (spliceIntoCallers p u f).Within := by
  unfold spliceIntoCallers
  split
  · exact .pure _
  · exact .bind (spliceAt_within f _ _ _ _) fun r => .pure _

theorem escapeCallSites_within (u : Update) (f : FuncId) : (escapeCallSites p u f).Within := by
  unfold escapeCallSites
  split
  · exact .pure _
  · refine .foldlM (fun acc site => ?_) _ _
    unfold escapeCallSite
    dsimp only
    split
    · split
      · exact .pure _
      · exact .bind (.lift _) fun r => .bind (.tell rfl) fun _ => .pure _
    · exact .pure _

/-- No pass begins while one is made. -/
theorem passOver_within (acc : Update × Bool) (f : FuncId) :
    (passOver p limit pass acc f).Within := by
  unfold passOver
  refine .bind (refreshSummary_within _ _) fun r => ?_
  dsimp only
  split
  · split
    · exact .bind (spliceIntoCallers_within _ _) fun r => .pure _
    · exact .pure _
  · split
    · exact .bind (escapeCallSites_within _ _) fun r => .pure _
    · exact .pure _

/-- The parts of passes: one pass, and the passes after it, if it asks for another one. -/
theorem passes_ok {bound : Nat} {es : List Event}
    (hok : (passes p limit (bound + 1) pass u).run = .ok (u', es)) :
    ∃ u₁ again es₁ es₂, u.order.toList.foldlM (Update.passOver p limit pass)
    (u, false) = .ok (u₁, again) ∧
      es = .pass pass :: (es₁ ++ es₂) ∧ passNumbers es₁ = [] ∧
      (again = true ∧ (passes p limit bound (pass + 1) u₁).run = .ok (u', es₂) ∨
        again = false ∧ u' = u₁ ∧ es₂ = []) := by
  obtain ⟨rest, hrun, rfl⟩ := tell_bind_ok.mp hok
  obtain ⟨⟨u₁, again⟩, es₁, es₂, hpass, hlater, rfl⟩ := Logged.bind_ok.mp hrun
  have hsilent := silent_ok.mpr ⟨es₁, hpass⟩
  rw [silent_foldlM] at hsilent
  simp only [passOver_silent] at hsilent
  refine ⟨u₁, again, es₁, es₂, hsilent, rfl, Within.foldlM passOver_within _ _ _ _ hpass, ?_⟩
  cases again with
  | true => exact .inl ⟨rfl, hlater⟩
  | false =>
    cases hlater
    exact .inr ⟨rfl, rfl, rfl⟩

theorem passNumbers_passes (pass : Nat) {es₁ es₂ : List Event} (h : passNumbers es₁ = []) :
    passNumbers (.pass pass :: (es₁ ++ es₂)) = pass :: passNumbers es₂ := by
  rw [passNumbers] at h
  simp [passNumbers, Event.pass?, h]

/-- **Passes** keep the graphs in work. Once pass number `limit` was made, everything escapes at the
calls of all functions in the order. -/
theorem passes_tends (bound pass : Nat) (u : Update) {u' : Update} {es : List Event}
    (h : InWork p u) (hok : (passes p limit bound pass u).run = .ok (u', es)) : InWork p u' ∧
    Tends u u' ∧ (limit ∈ passNumbers es →
    ∀ f ∈ u.order, ∀ info, u'.infos.find? f = some info → AtSites p u' info.callers Escaped) := by
  induction bound generalizing pass u u' es with
  | zero =>
    cases hok
    exact ⟨h, .refl u, nofun⟩
  | succ bound ih =>
    obtain ⟨u₁, again, es₁, es₂, hpass, rfl, hnone, hrest⟩ := passes_ok hok
    obtain ⟨h₁, ht₁, hsites₁⟩ := h.wholePass hpass
    rw [passNumbers_passes pass hnone]
    rcases hrest with ⟨-, hlater⟩ | ⟨-, rfl, rfl⟩
    · obtain ⟨h₂, ht₂, hsites₂⟩ := ih (pass + 1) u₁ h₁ hlater
      refine ⟨h₂, ht₁.trans ht₂, fun hmem f hf info hinfo => ?_⟩
      rcases List.mem_cons.mp hmem with he | hmem
      · -- what escaped in this pass escapes still
        obtain ⟨old, hold, htended⟩ := ht₂.back f info hinfo
        rw [htended.callers]
        exact h₁.escaped_tends ht₂ (hsites₁ he.symm f hf old hold)
      · exact hsites₂ hmem f (ht₁.order ▸ hf) info hinfo
    · refine ⟨h₁, ht₁, fun hmem f hf => ?_⟩
      exact hsites₁ (List.mem_singleton.mp hmem).symm f hf

end Trace

/-! ### Completing graphs -/

namespace Update

/-- What completing a graph leaves of a function. -/
structure Finished (p : Program) (number : Nat) (f : FuncId) (info info' : FuncInfo) : Prop where
  summary : info'.summary = info.summary
  builtIn : info'.builtIn = info.builtIn
  graph : info'.graph = info.graph ∨ info.builtIn = number ∧
    ∃ s, Scope.of? p f = some s ∧ complete s info.graph = .ok info'.graph

/-- Completing the graphs of functions, each of them once. -/
theorem finish_finished {verify : Bool} {l : List FuncId} (hnodup : l.Nodup)
    (hok : l.foldlM (finish p verify) u = .ok u') : ∀ f info', u'.infos.find? f = some info' →
      ∃ info, u.infos.find? f = some info ∧ Finished p u.number f info info' := by
  have hloop := foldlM_of_ok (P := fun done (u' : Update) => u'.number = u.number ∧
    (∀ f, f ∉ done → u'.infos.find? f = u.infos.find? f) ∧ ∀ f info',
    u'.infos.find? f = some info' →
      ∃ info, u.infos.find? f = some info ∧ Finished p u.number f info info') ?_
    ⟨rfl, fun _ _ => rfl, fun f info hf => ⟨info, hf, rfl, rfl, .inl rfl⟩⟩ hok
  · exact hloop.2.2
  rintro done f rest u₁ u₂ hl ⟨hnumber, hrest, hdone⟩ hstep
  have hkeep (hsame : u₂ = u₁) : u₂.number = u.number ∧
    (∀ g, g ∉ done ++ [f] → u₂.infos.find? g = u.infos.find? g) ∧
      ∀ g info', u₂.infos.find? g = some info' →
        ∃ info, u.infos.find? g = some info ∧ Finished p u.number g info info' := by
    subst hsame
    exact ⟨hnumber, fun g hg => hrest g fun h => hg (List.mem_append_left _ h), hdone⟩
  have hnew : f ∉ done := by
    rw [hl, List.nodup_append] at hnodup
    exact fun h => hnodup.2.2 f h f List.mem_cons_self rfl
  rcases finish_ok hstep with ⟨he, -⟩ | ⟨info, s, graph, hf, hs, hb, hgraph, rfl⟩
  · exact hkeep he
  · refine ⟨hnumber, fun g hg => ?_, fun g info' hg => ?_⟩
    · rw [List.mem_append, not_or, List.mem_singleton] at hg
      rw [find?_modify, if_neg (Ne.symm hg.2)]
      exact hrest g hg.1
    · rw [find?_modify] at hg
      split at hg
      · rename_i hfg
        subst hfg
        cases hg
        exact ⟨info, hrest f hnew ▸ hf, rfl, rfl, .inr ⟨hb.trans hnumber, s, hs, hgraph⟩⟩
      · exact hdone g info' hg

end Update

/-! ### The stages of an update -/

namespace Analysis

open Update

variable {a : Analysis} {root : FuncId} {v w : Update} {early log : List Event}

/-- At first nothing was built. -/
theorem Tidy.asDrawn (h : Tidy a) : AsDrawn p a (fun _ => False) a.begun := fun f hb =>
  absurd hb (Nat.ne_of_lt (Nat.lt_succ_of_le (h.stamped.known f).1))

/-- The functions that an update built. -/
theorem Stages.rebuilt_iff (h : Stages p a root v w u early log) (ht : Tidy a) :
    v.Rebuilt f ↔ .build f ∈ early :=
  h.recorded.rebuilt_iff fun g => Nat.ne_of_lt (Nat.lt_succ_of_le (ht.stamped.known g).1)

/-- Before the passes the graphs in work are as they were drawn. -/
theorem Stages.inWork (h : Stages p a root v w u early log) (hp : p.ResultsTraced) (ht : Tidy a) :
    InWork p v where
  grown f info hf hb := by
    obtain ⟨u₀, hbuild, rfl⟩ := h.built
    have hsilent := (Trace.build_traces a p _ _ _ _).mp (Logged.silent_ok.mpr ⟨early, hbuild⟩)
    have hdrawn := (build_draws p a _ _ _ _ _ ht.asDrawn hsilent).place root
    obtain ⟨s, deep, calls, hs, hdraw⟩ := hdrawn f (by rw [known_of_find? hf]; exact hb) not_false
    rw [known_of_find? hf] at hdraw
    exact ⟨s, hs, draw_grown (hp _ _ (Scope.of?_spec hs).2.2) hdraw⟩
  stale f info hf hst := by
    obtain ⟨info', hf', hb⟩ := (h.rebuilt_iff ht).mpr (ht.build_of_stale h.recorded ⟨info, hf, hst⟩)
    cases hf.symm.trans hf'
    exact hb

theorem Stages.nodup (h : Stages p a root v w u early log) : w.order.toList.Nodup := by
  have hnodup := h.ordered.nodup
  rw [Search.listed, List.append_nil] at hnodup
  rw [h.steps.alike.order]
  exact hnodup

end Analysis

end Escape
