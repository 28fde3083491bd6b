import Escape.Analysis.Fixpoint
import Escape.Proofs.Analysis.Drawing

/-!
# Updates that tell what they do

What an update has done is hard to see from its result: which calls it recorded, which summaries it
spliced in and how often. So here is an update that keeps a log. It does what an update does
otherwise.

- `Trace.build`, `Trace.passes`, `Trace.update`: the parts of an update, with their logs.
- `Trace.build_traces`, `Trace.passes_silent`, `Trace.update_ok`: **apart from its log, a traced
  update is an update.**
-/

namespace Escape

/-- What an update tells. -/
inductive Event where
  /-- The search came to a function. -/
  | visit (f : FuncId)
  /-- The graphs of a function were emptied, and are built anew. -/
  | build (f : FuncId)
  /-- A call was recorded at its callee. -/
  | call (call : Call)
  /-- A pass over all functions begins. -/
  | pass (number : Nat)
  /-- The summary of a function was derived from its graph, and is another one than before or not.
  -/
  | derive (f : FuncId) (changed : Bool)
  /-- The summary of the callee was spliced into the graph of the caller, which changed or not. -/
  | splice (call : Call) (changed : Bool)
  /-- Everything that the call touches escaped. -/
  | escape (call : Call)
deriving DecidableEq

/-! ### Computations with a log -/

/-- A computation that may stop, and that tells what it does. -/
structure Logged (α : Type) where
  run : Checked (α × List Event)

namespace Logged

variable {α β : Type} {x : Logged α} {f : α → Logged β} {a : α} {b : β} {es : List Event}

instance : Monad Logged where
  pure a := ⟨.ok (a, [])⟩
  bind x f := ⟨do
    let (a, es) ← x.run
    let (b, more) ← (f a).run
    return (b, es ++ more)⟩

instance : MonadLift Checked Logged where
  monadLift x := ⟨do return (← x, [])⟩

/-- Puts an event into the log. -/
def tell (event : Event) : Logged Unit := ⟨.ok ((), [event])⟩

/-- The computation without its log. -/
def silent (x : Logged α) : Checked α := Prod.fst <$> x.run

/-- A sequence logs what its parts log, in order. -/
theorem bind_ok : (x >>= f).run = .ok (b, es) ↔
    ∃ a es₁ es₂, x.run = .ok (a, es₁) ∧ (f a).run = .ok (b, es₂) ∧ es = es₁ ++ es₂ := by
  constructor
  · intro h
    obtain ⟨⟨a, es₁⟩, hx, h⟩ := Checked.bind_ok.mp h
    obtain ⟨⟨b', es₂⟩, hf, h⟩ := Checked.bind_ok.mp h
    cases h
    exact ⟨a, es₁, es₂, hx, hf, rfl⟩
  · rintro ⟨a, es₁, es₂, hx, hf, rfl⟩
    refine Checked.bind_ok.mpr ⟨(a, es₁), hx, Checked.bind_ok.mpr ⟨(b, es₂), hf, rfl⟩⟩

/-- A checked computation logs nothing. -/
theorem lift_ok {y : Checked α} : (liftM y : Logged α).run = .ok (a, es) ↔ y = .ok a ∧ es = [] := by
  cases y with
  | ok b =>
    show Except.ok (b, []) = Except.ok (a, es) ↔ _
    simp [eq_comm]
  | error why => exact ⟨nofun, nofun⟩

/-- An event, and then the rest of the log. -/
theorem tell_bind_ok {event : Event} {y : Logged β} :
    (tell event >>= fun _ => y).run = .ok (b, es) ↔ ∃ rest, y.run = .ok (b, rest) ∧
    es = event :: rest := by
  constructor
  · intro h
    obtain ⟨_, es₁, es₂, htell, hy, rfl⟩ := bind_ok.mp h
    cases htell
    exact ⟨es₂, hy, rfl⟩
  · rintro ⟨rest, hy, rfl⟩
    exact bind_ok.mpr ⟨(), [event], rest, rfl, hy, rfl⟩

theorem lift_bind_ok {y : Checked α} : ((liftM y : Logged α) >>= f).run = .ok (b, es) ↔
    ∃ a, y = .ok a ∧ (f a).run = .ok (b, es) := by
  constructor
  · intro h
    obtain ⟨a, es₁, es₂, hy, hf, rfl⟩ := bind_ok.mp h
    obtain ⟨hok, rfl⟩ := lift_ok.mp hy
    exact ⟨a, hok, hf⟩
  · rintro ⟨a, hy, hf⟩
    exact bind_ok.mpr ⟨a, [], es, lift_ok.mpr ⟨hy, rfl⟩, hf, rfl⟩

/-- A loop that finishes keeps what each of its rounds keeps. -/
theorem foldlM_of_ok {γ : Type} {step : β → γ → Logged β} {P : List γ → β → List Event → Prop}
    {l : List γ} {b b' : β} (hstep : ∀ done c rest b b' es more, l = done ++ c :: rest →
      P done b es → (step b c).run = .ok (b', more) →
      P (done ++ [c]) b' (es ++ more))
    (base : P [] b []) (h : (l.foldlM step b).run = .ok (b', es)) : P l b' es := by
  suffices H : ∀ (rest done : List γ) (b : β) (before after : List Event), l = done ++ rest →
    P done b before →
      (rest.foldlM step b).run = .ok (b', after) →
      P l b' (before ++ after) from H l [] b [] es rfl base h
  intro rest
  induction rest with
  | nil =>
    intro done b before after hl hb hr
    cases hr
    rw [hl, List.append_nil, List.append_nil]
    exact hb
  | cons c rest ih =>
    intro done b before after hl hb hr
    obtain ⟨b₁, es₁, es₂, h₁, h₂, rfl⟩ := bind_ok.mp hr
    rw [← List.append_assoc]
    exact ih (done ++ [c]) b₁ _ es₂ (by simp [hl]) (hstep done c rest b b₁ before es₁ hl hb h₁) h₂

/-- Silence drops the log and keeps the result. -/
theorem silent_ok : x.silent = .ok a ↔ ∃ es, x.run = .ok (a, es) := by
  unfold silent
  cases hx : x.run with
  | ok r =>
    show Except.ok r.1 = Except.ok a ↔ _
    constructor
    · intro h
      cases h
      exact ⟨r.2, rfl⟩
    · rintro ⟨es, h⟩
      cases h
      rfl
  | error why => exact ⟨nofun, nofun⟩

@[simp] theorem silent_pure (a : α) : (pure a : Logged α).silent = pure a := rfl

/-- No step of a sequence reads the log. -/
@[simp] theorem silent_bind (x : Logged α) (f : α → Logged β) :
    (x >>= f).silent = x.silent >>= fun a => (f a).silent := by
  show Prod.fst <$> (x.run >>= fun r => (f r.1).run >>= fun r' => pure (r'.1, r.2 ++ r'.2)) = _
  unfold silent
  cases x.run with
  | error why => rfl
  | ok r =>
    show Prod.fst <$> ((f r.1).run >>= _) = Prod.fst <$> (f r.1).run
    cases (f r.1).run with
    | error why => rfl
    | ok r' => rfl

@[simp] theorem silent_lift (y : Checked α) : (liftM y : Logged α).silent = y := by
  cases y <;> rfl

@[simp] theorem silent_tell (event : Event) : (tell event).silent = pure () := rfl

/-- No round of a loop reads the log. -/
@[simp] theorem silent_foldlM {γ : Type} (step : β → γ → Logged β) (l : List γ) (b : β) :
    (l.foldlM step b).silent = l.foldlM (fun b c => (step b c).silent) b := by
  induction l generalizing b with
  | nil => rfl
  | cons c l ih => simp only [List.foldlM_cons, silent_bind, ih]

end Logged

namespace Trace

open Analysis Logged

variable {a a' : Analysis} {p : Program} {f : FuncId} {u u' : Update}

/-! ### Building -/

/-- Builds a function within an update, and tells what it does. -/
abbrev Walker := FuncId → Update → Logged Update

/-- Records calls at their callees, and builds the callees that this update has not come to. -/
def follow (w : Walker) : List Call → Update → Logged Update
  | [], u => return u
  | call :: rest, u => do
    tell (.call call)
    let u := u.modify call.callee (·.addCaller call.site)
    if (u.infos.find? call.callee).any u.isVisited then follow w rest u
    else follow w rest ((← w call.callee u).place call.callee)

/-- Builds nothing. -/
def idle : Walker := fun _ u => return u

/-- Builds the graph of a function, unless that is done already. -/
def buildWith (a : Analysis) (p : Program) (descend : Option Walker) : Walker := fun f u => do
  match Scope.of? p f with
  | none => return u
  | some s =>
    tell (.visit f)
    let (u, todo) := u.visit f
    if !todo then return u
    tell (.build f)
    let (g, calls) ← a.draw descend.isSome s
    let u ← follow (descend.getD idle) calls u
    return u.modify f fun info => { info with graph := g }

/-- Builds the graph of a function, and of functions that it calls through at most `depth` calls. -/
def build (a : Analysis) (p : Program) : (depth : Nat) → Walker
  | 0 => buildWith a p none
  | depth + 1 => buildWith a p (some (build a p depth))

/-- The walker does what the builder does. -/
def Traces (w : Walker) (b : Builder) : Prop := ∀ f u u', (w f u).silent = .ok u' ↔ b f u = .ok u'

/-- Callees are followed in the same order. -/
theorem Traces.follow {w : Walker} {b : Builder} (h : Traces w b) :
    ∀ (calls : List Call) (u : Update) {u' : Update}, (Trace.follow w calls u).silent = .ok u' ↔
    Analysis.follow b calls u = .ok u' := by
  intro calls
  induction calls with
  | nil => exact fun _ _ => Iff.rfl
  | cons call calls ih =>
    intro u u'
    rw [Trace.follow, Analysis.follow, silent_bind, silent_tell]
    show Logged.silent (if _ then _ else _) = _ ↔ _
    split
    · exact ih _
    · rw [silent_bind, Checked.bind_ok, Checked.bind_ok]
      exact exists_congr fun u₁ => and_congr (h _ _ u₁) (ih _)

/-- One level of the search, if the next one is traced. -/
theorem buildWith_traces {w? : Option Walker} {b? : Option Builder} (hsome : w?.isSome = b?.isSome)
    (h : ∀ w b, w? = some w → b? = some b → Traces w b) :
    Traces (buildWith a p w?) (a.buildWith p b?) := by
  -- without depth both have nothing to follow
  have hdescend : Traces (w?.getD idle) (b?.getD Analysis.idle) := by
    cases w? with
    | none =>
      cases b? with
      | none => exact fun _ _ _ => Iff.rfl
      | some b => cases hsome
    | some w =>
      cases b? with
      | none => cases hsome
      | some b => exact h w b rfl rfl
  intro f u u'
  unfold buildWith
  cases hs : Scope.of? p f with
  | none =>
    unfold Analysis.buildWith
    rw [hs]
    exact Iff.rfl
  | some s =>
    rw [buildWith_ok hs, ← hsome]
    dsimp only
    rw [silent_bind, silent_tell]
    cases htodo : (u.visit f).2 with
    | false =>
      show Except.ok _ = Except.ok u' ↔ _
      simp [eq_comm]
    | true =>
      show Logged.silent (do tell (.build f); _) = _ ↔ _
      rw [if_pos rfl, silent_bind, silent_tell]
      show Logged.silent (liftM (a.draw w?.isSome s) >>= _) = _ ↔ _
      rw [silent_bind, silent_lift, Checked.bind_ok]
      simp only [silent_bind, Checked.bind_ok, hdescend.follow, silent_pure,
        Checked.pure_ok, Prod.exists]
      constructor
      · rintro ⟨g, calls, hdraw, u₁, hfollow, rfl⟩
        exact ⟨g, calls, u₁, hdraw, hfollow, rfl⟩
      · rintro ⟨g, calls, u₁, hdraw, hfollow, rfl⟩
        exact ⟨g, calls, hdraw, u₁, hfollow, rfl⟩

/-- Apart from its log, building a function is building it. -/
theorem build_traces (a : Analysis) (p : Program) :
    ∀ depth, Traces (build a p depth) (a.build p depth)
  | 0 => buildWith_traces rfl nofun
  | depth + 1 => by
    refine buildWith_traces rfl fun w b hw hb => ?_
    cases hw
    cases hb
    exact build_traces a p depth

/-! ### Passes -/

/-- Derives the summary of a function, if its graph has changed. Tells whether the summary did. -/
def refreshSummary (p : Program) (u : Update) (f : FuncId) : Logged (Update × Bool) := do
  match u.infos.find? f with
  | none => return (u, false)
  | some info =>
    if !info.stale then return (u, false)
    let (summary, graph, changed) ← Graph.summarize p info.summary info.graph.propagate.1
    tell (.derive f changed)
    return (u.modify f fun info => { info with graph, summary, stale := false }, changed)

/-- Splices the summary of `callee` into its callers, as far as this update built them. Tells
whether one of them changed that does not come after the callee. -/
def spliceAt (p : Program) (callee : FuncId) : List CallSite → (summary : Graph) → Update → Bool →
    Logged (Graph × Update × Bool)
  | [], summary, u, again => return (summary, u, again)
  | site :: rest, summary, u, again => do
    match u.infos.find? site.caller with
    | none => spliceAt p callee rest summary u again
    | some caller =>
      if !u.isRebuilt caller then spliceAt p callee rest summary u again
      else
        let (graph, summary, changed) ← caller.graph.spliceCall p site summary callee
        tell (.splice ⟨site, callee⟩ changed)
        let u := u.modify site.caller fun info =>
          { info with graph, stale := info.stale || changed }
        let after := match u.infos.find? site.caller, u.infos.find? callee with
          | some caller, some callee => u.isAfter caller callee
          | _, _ => false
        spliceAt p callee rest summary u (again || (changed && !after))

/-- Splices the summary of a function into all its callers. -/
def spliceIntoCallers (p : Program) (u : Update) (f : FuncId) : Logged (Update × Bool) := do
  match u.infos.find? f with
  | none => return (u, false)
  | some info =>
    let (summary, u, again) ← spliceAt p f info.callers info.summary u false
    return (u.modify f fun info => { info with summary }, again)

/-- Lets everything escape that a call site of `callee` touches, if this update built its function.
-/
def escapeCallSite (p : Program) (callee : FuncId) (acc : Update × Bool) (site : CallSite) :
    Logged (Update × Bool) := do
  let (u, _) := acc
  match Scope.of? p site.caller, u.infos.find? site.caller with
  | some s, some caller =>
    if !u.isRebuilt caller then return acc
    let graph ← caller.graph.escapeAll s site.site
    tell (.escape ⟨site, callee⟩)
    return (u.modify site.caller fun info => { info with graph, stale := true }, true)
  | _, _ => return acc

/-- Lets everything escape that the call sites of a function touch. -/
def escapeCallSites (p : Program) (u : Update) (f : FuncId) : Logged (Update × Bool) := do
  match u.infos.find? f with
  | none => return (u, false)
  | some info => info.callers.foldlM (escapeCallSite p f) (u, false)

/-- Handles one function in pass number `pass` of at most `limit` ordinary ones. -/
def passOver (p : Program) (limit pass : Nat) (acc : Update × Bool) (f : FuncId) :
    Logged (Update × Bool) := do
  let (u, again) := acc
  let (u, changed) ← refreshSummary p u f
  let (u, more) ←
    if pass < limit then
      if pass = 0 || changed then spliceIntoCallers p u f else pure (u, false)
    else if pass = limit then escapeCallSites p u f
    else pure (u, false)
  return (u, again || more)

/-- Passes over all functions of the update, starting with pass number `pass`, until no further pass
is needed. -/
def passes (p : Program) (limit : Nat) : (bound pass : Nat) → Update → Logged Update
  | 0, _, u => return u
  | bound + 1, pass, u => do
    tell (.pass pass)
    let (u, again) ← u.order.toList.foldlM (passOver p limit pass) (u, false)
    if again then passes p limit bound (pass + 1) u else return u

/-- A summary is refreshed as without a log. -/
theorem refreshSummary_silent (u : Update) (f : FuncId) :
    (refreshSummary p u f).silent = u.refreshSummary p f := by
  unfold refreshSummary Update.refreshSummary
  cases u.infos.find? f with
  | none => rfl
  | some info =>
    dsimp only
    split
    · rfl
    · rw [silent_bind, silent_lift]
      rfl

/-- Some callers are served as without a log. -/
theorem spliceAt_silent (callee : FuncId) :
    ∀ (sites : List CallSite) (summary : Graph) (u : Update) (again : Bool),
    (spliceAt p callee sites summary u again).silent =
    Update.spliceAt p callee sites summary u again := by
  intro sites
  induction sites with
  | nil => exact fun _ _ _ => rfl
  | cons site sites ih =>
    intro summary u again
    rw [spliceAt, Update.spliceAt]
    cases u.infos.find? site.caller with
    | none => exact ih ..
    | some caller =>
      dsimp only
      split
      · exact ih ..
      · rw [silent_bind, silent_lift]
        refine congrArg _ (funext fun ⟨graph, summary, changed⟩ => ?_)
        rw [silent_bind, silent_tell]
        exact ih ..

/-- All callers are served as without a log. -/
theorem spliceIntoCallers_silent (u : Update) (f : FuncId) :
    (spliceIntoCallers p u f).silent = u.spliceIntoCallers p f := by
  unfold spliceIntoCallers Update.spliceIntoCallers
  cases u.infos.find? f with
  | none => rfl
  | some info =>
    rw [silent_bind, spliceAt_silent]
    rfl

/-- One call is given up as without a log. -/
theorem escapeCallSite_silent (callee : FuncId) (acc : Update × Bool) (site : CallSite) :
    (escapeCallSite p callee acc site).silent = Update.escapeCallSite p acc site := by
  unfold escapeCallSite Update.escapeCallSite
  dsimp only
  cases Scope.of? p site.caller with
  | none => rfl
  | some s =>
    cases acc.1.infos.find? site.caller with
    | none => rfl
    | some caller =>
      dsimp only
      split
      · rfl
      · rw [silent_bind, silent_lift]
        rfl

/-- All calls are given up as without a log. -/
theorem escapeCallSites_silent (u : Update) (f : FuncId) :
    (escapeCallSites p u f).silent = u.escapeCallSites p f := by
  unfold escapeCallSites Update.escapeCallSites
  cases u.infos.find? f with
  | none => rfl
  | some info => simp only [silent_foldlM, escapeCallSite_silent]

/-- A pass deals with a function as without a log. -/
theorem passOver_silent (limit pass : Nat) (acc : Update × Bool) (f : FuncId) :
    (passOver p limit pass acc f).silent = Update.passOver p limit pass acc f := by
  unfold passOver Update.passOver
  rw [silent_bind, refreshSummary_silent]
  refine congrArg _ (funext fun ⟨u, changed⟩ => ?_)
  dsimp only
  split
  · split
    · rw [silent_bind, spliceIntoCallers_silent]
      rfl
    · rfl
  · split
    · rw [silent_bind, escapeCallSites_silent]
      rfl
    · rfl

/-- Apart from their log, passes are passes. -/
theorem passes_silent (p : Program) (limit : Nat) : ∀ (bound pass : Nat) (u : Update),
    (passes p limit bound pass u).silent = Update.passes p limit bound pass u := by
  intro bound
  induction bound with
  | zero => exact fun _ _ => rfl
  | succ bound ih =>
    intro pass u
    rw [passes, Update.passes, silent_bind, silent_tell]
    show Logged.silent (_ >>= _) = _
    simp only [silent_bind, silent_foldlM, passOver_silent]
    refine congrArg _ (funext fun ⟨u₁, again⟩ => ?_)
    split
    · exact ih ..
    · rfl

/-! ### Whole updates -/

/-- Computes the graphs of a function and of everything it calls. Yields the update when it is done.
-/
def update (a : Analysis) (p : Program) (f : FuncId) : Logged Update := do
  let u ← build a p a.config.maxRecursionDepth f a.begun
  let limit := a.config.maxGraphMerges
  let u ← passes p limit (limit + 2) 0 (u.place f)
  liftM (u.order.toList.foldlM (Update.finish p a.config.verifyGraphs) u)

/-- **Apart from its log, a traced update is an update.** -/
theorem update_ok : a.update p f = .ok a' ↔ ∃ u log, (update a p f).run = .ok (u, log) ∧
    a' = { a with infos := u.infos, updates := a.updates + 1 } := by
  have hsilent : a.update p f = .ok a' ↔ ∃ u, (update a p f).silent = .ok u ∧
      a' = { a with infos := u.infos, updates := a.updates + 1 } := by
    unfold Analysis.update update
    simp only [silent_bind, silent_lift, passes_silent, Checked.bind_ok, Checked.pure_ok]
    constructor
    · rintro ⟨u, hbuild, u₁, hpasses, u₂, hfinish, rfl⟩
      exact ⟨u₂, ⟨u, (build_traces a p _ _ _ u).mpr hbuild, u₁, hpasses, hfinish⟩, rfl⟩
    · rintro ⟨u₂, ⟨u, hbuild, u₁, hpasses, hfinish⟩, rfl⟩
      exact ⟨u, (build_traces a p _ _ _ u).mp hbuild, u₁, hpasses, u₂, hfinish, rfl⟩
  rw [hsilent]
  simp only [silent_ok, exists_and_right]

end Trace

end Escape
