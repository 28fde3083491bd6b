import Escape.Proofs.Analysis.History

/-!
# Where recorded calls come from

An update records a call at its callee when it draws the instruction. There are two ways to get
there: a call whose callees the resolver tells, and a release of an object with a known destructor.
Only the first one asks whether there is a body to look into.

- `Analysis.draw_invokes`: what a function draws as calls are invocations.
- `Trace.build_founded`: **every call that an update records is an invocation.**
- `Analysis.recorded_hasBody_or_destructor`: **a function whose calls are recorded has a body, or it
  is the destructor of what is released there.**
-/

namespace Escape

open Relation Update Search

variable {p : Program} {s : Scope} {i : InstId} {f g : FuncId} {u u' : Update} {info : FuncInfo}
  {a a' : Analysis}

/-! ### Drawing -/

namespace Analysis

variable {deep : Bool} {gr gr' : Graph} {fs : List FuncId} {calls : List Call}

/-- Why an instruction is taken for a call of `f`. -/
inductive Invocation (a : Analysis) (s : Scope) (i : InstId) (f : FuncId) : Prop
  /-- It is a call, and the resolver tells that it may invoke `f`. -/
  | call {container : Option ContainerOp} {fs : List FuncId} :
    Effect.of s i = .ok (.call container) → a.knownCallees s i = .ok (some fs) → f ∈ fs →
    Invocation a s i f
  /-- It releases an object with destructor `f`. -/
  | release {v : ValueId} : Effect.of s i = .ok (.release v) → destructor? s v = .ok (some f) →
    Invocation a s i f

theorem drawInst_invokes (hok : a.drawInst deep s i gr = .ok (gr', fs)) :
    ∀ f ∈ fs, a.Invocation s i f := by
  obtain ⟨effect, heffect, hdrawn⟩ := drawInst_spec hok
  cases hdrawn with
  | destructor _ hf => exact List.forall_mem_singleton.mpr (.release heffect hf)
  | known _ _ hcallees => exact fun f hf => .call heffect hcallees hf
  | release _ => exact nofun
  | container _ _ => exact nofun
  | unknown _ _ _ => exact nofun
  | plain _ _ _ => exact nofun

theorem drawInsts_invokes (is : List InstId) (gr : Graph)
    (hok : a.drawInsts deep s is gr = .ok (gr', calls)) :
    ∀ call ∈ calls, a.Invocation s call.site.site call.callee := by
  replace hok := drawing_of_ok is gr hok
  induction hok with
  | done => exact nofun
  | full hdraw _ => exact List.forall_mem_map.mpr (drawInst_invokes hdraw)
  | next hdraw _ _ ih =>
    exact List.forall_mem_append.mpr ⟨List.forall_mem_map.mpr (drawInst_invokes hdraw), ih⟩

/-- The instructions of a call are in a reachable block of its caller, and invoke its callee. -/
def Founded (a : Analysis) (p : Program) (call : Call) : Prop :=
  ∃ s, Scope.of? p call.site.caller = some s ∧ s.Reaches call.site.site ∧
    a.Invocation s call.site.site call.callee

theorem Founded.congr {call : Call} (h : a.Founded p call) (hresolver : a'.resolver = a.resolver) :
    a'.Founded p call := by
  obtain ⟨s, hs, hreach, hinv⟩ := h
  refine ⟨s, hs, hreach, ?_⟩
  cases hinv with
  | call heffect hknown hmem =>
    exact .call heffect (by rw [knownCallees, hresolver]; exact hknown) hmem
  | release heffect hdestructor => exact .release heffect hdestructor

/-- **What a function draws as calls** are invocations by its instructions. -/
theorem draw_invokes (hs : Scope.of? p f = some s) (hok : a.draw deep s = .ok (gr, calls)) :
    ∀ call ∈ calls, a.Founded p call := by
  intro call hcall
  obtain ⟨-, hcaller, hreach, -⟩ := draw_calls hs hok call hcall
  refine ⟨s, hcaller ▸ hs, hreach, ?_⟩
  obtain ⟨blocks, is, g₁, -, -, hdraw, -⟩ := draw_ok hok
  exact drawInsts_invokes is _ hdraw call hcall

end Analysis

/-! ### Building -/

namespace Trace

open Analysis Logged

/-- All calls that a walker records are founded. -/
def Walker.Founded (a : Analysis) (p : Program) (w : Walker) : Prop :=
  ∀ f u u' es, (w f u).run = .ok (u', es) → ∀ call, .call call ∈ es → a.Founded p call

theorem follow_founded {w : Walker} (hw : w.Founded a p) :
    ∀ (calls : List Call) (u : Update) {u' : Update} {es : List Event},
    (∀ call ∈ calls, a.Founded p call) → (follow w calls u).run = .ok (u', es) → ∀ call,
    .call call ∈ es → a.Founded p call := by
  intro calls
  induction calls with
  | nil =>
    intro u u' es _ hok
    cases hok
    exact nofun
  | cons head calls ih =>
    intro u u' es hcalls hok call hcall
    obtain ⟨hhead, hrest⟩ := List.forall_mem_cons.mp hcalls
    obtain ⟨es, hrun, rfl⟩ := tell_bind_ok.mp hok
    rcases List.mem_cons.mp hcall with he | hcall
    · cases he
      exact hhead
    · dsimp only at hrun
      split at hrun
      · exact ih _ hrest hrun call hcall
      · obtain ⟨u₁, es₁, es₂, hdescend, hlater, rfl⟩ := Logged.bind_ok.mp hrun
        rcases List.mem_append.mp hcall with hcall | hcall
        · exact hw _ _ u₁ es₁ hdescend call hcall
        · exact ih _ hrest hlater call hcall

theorem buildWith_founded {descend : Option Walker} (hw : ∀ w, descend = some w → w.Founded a p) :
    Walker.Founded a p (buildWith a p descend) := by
  intro f u u' es hok call hcall
  unfold buildWith at hok
  cases hs : Scope.of? p f with
  | none =>
    rw [hs] at hok
    cases hok
    cases hcall
  | some s =>
    rw [hs] at hok
    obtain ⟨es, hvisit, rfl⟩ := tell_bind_ok.mp hok
    dsimp only at hvisit
    split at hvisit
    · cases hvisit
      simp at hcall
    · obtain ⟨es, hbuild, rfl⟩ := tell_bind_ok.mp hvisit
      obtain ⟨⟨gr, calls⟩, hdraw, hdrawn⟩ := lift_bind_ok.mp hbuild
      obtain ⟨u₁, es₁, es₂, hfollow, hkeep, rfl⟩ := Logged.bind_ok.mp hdrawn
      cases hkeep
      have hidle : (descend.getD idle).Founded a p := by
        cases descend with
        | none =>
          intro f u u' es hok
          cases hok
          exact nofun
        | some w => exact hw w rfl
      exact follow_founded hidle calls _ (draw_invokes hs hdraw) hfollow call (by simpa using hcall)

/-- **Every call that is recorded while functions are built is an invocation.** -/
theorem build_founded (a : Analysis) (p : Program) : ∀ depth, Walker.Founded a p (build a p depth)
  | 0 => buildWith_founded nofun
  | depth + 1 => buildWith_founded fun w hw => by
    cases hw
    exact build_founded a p depth

end Trace

namespace Analysis

/-! ### Runs -/

/-- The calls that an update records are founded. -/
theorem Stages.founded {root : FuncId} {v w : Update} {early log : List Event}
    (h : Stages p a root v w u early log) {call : Call} (hcall : .call call ∈ early) :
    a.Founded p call := by
  obtain ⟨u₀, hbuild, -⟩ := h.built
  exact Trace.build_founded a p _ _ _ _ _ hbuild call hcall

/-- Between requests, all recorded calls are founded. -/
structure Based (p : Program) (a : Analysis) : Prop extends Tidy a where
  founded : ∀ f info, a.infos.find? f = some info → ∀ site ∈ info.callers, a.Founded p ⟨site, f⟩

theorem based_of_empty (h : a.infos = {}) : Based p a :=
  ⟨tidy_of_empty h, fun f info hf => absurd hf (find?_of_empty h f info)⟩

theorem Based.update (h : Based p a) (hroot : (p.func? f).isSome) (hok : a.update p f = .ok a') :
    Based p a' := by
  obtain ⟨u, log, hrun, rfl⟩ := Trace.update_ok.mp hok
  refine ⟨(h.toTidy.update hroot hrun).tidy, fun g info hg site hsite => ?_⟩
  obtain ⟨v, w, early, hs⟩ := h.toTidy.stages hroot hrun
  rcases hs.caller_cases h.toTidy hg hsite with ⟨old, hold, hsite⟩ | hcall
  · exact (h.founded g old hold site hsite).congr rfl
  · exact (hs.founded hcall).congr rfl

theorem Based.move (h : Based p a) (hmove : Moves p a a') :
    Based p a' ∧ a'.resolver = a.resolver := by
  cases hmove with
  | update hupdate =>
    obtain ⟨f, hf, hok⟩ := hupdate
    refine ⟨h.update hf hok, ?_⟩
    obtain ⟨u, log, -, rfl⟩ := Trace.update_ok.mp hok
    rfl
  | invalidate f =>
    refine ⟨⟨h.toTidy.invalidate f, fun g info hg site hsite => ?_⟩, rfl⟩
    obtain ⟨-, old, hold, rfl⟩ := find?_invalidate hg
    exact (h.founded g old hold site (List.mem_filter.mp hsite).1).congr rfl
  | invalidateAll => exact ⟨based_of_empty rfl, rfl⟩

theorem Based.run (h : Based p a) {requests : List Request} (hok : a.run p requests = .ok a') :
    Based p a' ∧ a'.resolver = a.resolver := by
  have hmoves := run_moves hok
  clear hok
  induction hmoves with
  | refl => exact ⟨h, rfl⟩
  | tail _ hmove ih =>
    obtain ⟨hnext, hresolver⟩ := ih.1.move hmove
    exact ⟨hnext, hresolver.trans ih.2⟩

/-! ### Bodies -/

/-- The default resolver names only functions with a body. -/
theorem hasBody_of_fromBodies {fs : List FuncId}
    (h : Resolver.fromBodies p f i = .ok (.precise fs)) :
    ∀ g ∈ fs, Resolver.hasBody p g = .ok true := by
  unfold Resolver.fromBodies at h
  cases hfunc : p.func? f with
  | none =>
    rw [hfunc] at h
    cases h
  | some fn =>
    rw [hfunc] at h
    obtain ⟨inst, -, h⟩ := bind_ok.mp h
    split at h
    · obtain ⟨target?, -, h⟩ := bind_ok.mp h
      cases target? with
      | none => cases h
      | some target =>
        obtain ⟨body, hbody, h⟩ := bind_ok.mp h
        cases body with
        | false => cases h
        | true =>
          cases h
          exact List.forall_mem_singleton.mpr hbody
    · cases h

theorem knownCallees_hasBody (hs : s.program = p) (hresolver : a.resolver = .fromBodies)
    {fs : List FuncId} (h : a.knownCallees s i = .ok (some fs)) :
    ∀ g ∈ fs, Resolver.hasBody p g = .ok true := by
  unfold knownCallees at h
  obtain ⟨callees, hcallees, h⟩ := bind_ok.mp h
  rw [hresolver, hs] at hcallees
  cases callees with
  | unknown => cases h
  | precise gs =>
    dsimp only at h
    split at h
    · cases h
      exact hasBody_of_fromBodies hcallees
    · cases h

/-- The destructor that a release runs is the one that the class of the released object declares. -/
theorem destructor?_deinit (hs : s.program = p) {v : ValueId} (h : destructor? s v = .ok (some f)) :
    ∃ t cls, s.localClass? v = .ok (some t) ∧ p.types.class? t = .ok (some cls) ∧
    cls.deinit = some f := by
  unfold destructor? at h
  obtain ⟨t?, ht, h⟩ := bind_ok.mp h
  cases t? with
  | none => cases h
  | some t =>
    obtain ⟨cls?, hcls, h⟩ := bind_ok.mp h
    rw [hs] at hcls
    cases cls? with
    | none => cases h
    | some cls =>
      cases hd : cls.deinit with
      | none =>
        simp only [Option.bind_some, hd] at h
        cases h
      | some d =>
        simp only [Option.bind_some, hd] at h
        split at h
        · cases h
          exact ⟨t, cls, ht, hcls, hd⟩
        · cases h

/-- **Who is called.** Take any run of requests with the default resolver, and a call of `g` that is
recorded after it. It stands in a reachable block of its caller. Either it is a call, and `g` has a
body, or it releases an object whose class declares `g` as its destructor. -/
theorem recorded_hasBody_or_destructor (hstart : a.infos = {})
    (hresolver : a.resolver = .fromBodies) {requests : List Request}
    (hrun : a.run p requests = .ok a') (hg : a'.info? g = some info) {site : CallSite}
    (hsite : site ∈ info.callers) : ∃ s, Scope.of? p site.caller = some s ∧ s.Reaches site.site ∧
      ((∃ container, Effect.of s site.site = .ok (.call container) ∧
        Resolver.hasBody p g = .ok true) ∨
        ∃ v t cls, Effect.of s site.site = .ok (.release v) ∧ s.localClass? v = .ok (some t) ∧
          p.types.class? t = .ok (some cls) ∧ cls.deinit = some g ∧ (p.func? g).isSome) := by
  obtain ⟨hend, hresolver'⟩ := (based_of_empty hstart).run hrun
  obtain ⟨s, hs, hreach, hinv⟩ := hend.founded g info hg site hsite
  refine ⟨s, hs, hreach, ?_⟩
  obtain ⟨hprogram, -, -⟩ := Scope.of?_spec hs
  cases hinv with
  | call heffect hknown hmem =>
    exact .inl ⟨_, heffect, knownCallees_hasBody hprogram
      (hresolver'.trans hresolver) hknown g hmem⟩
  | release heffect hdestructor =>
    obtain ⟨t, cls, ht, hcls, hdeinit⟩ := destructor?_deinit hprogram hdestructor
    obtain ⟨t', ht'⟩ := destructor?_declared hprogram hdestructor
    refine .inr ⟨_, t, cls, heffect, ht, hcls, hdeinit, ?_⟩
    rw [(Scope.of?_spec ht').2.2]
    rfl

end Analysis

/-- Steps that build a program with a class of nodes, whose destructor is declared and has no body.
The last function passes a new node to one that only looks at it, and releases it. -/
def disposalSteps : List Step := [
  .intern (.object { name := "Node" }),
  .setFields ⟨0⟩ [⟨0⟩],
  .declare "Node.deinit" [⟨⟨0⟩, .owned⟩] none,
  .setDeinit ⟨0⟩ ⟨0⟩,
  .declare "inspect" [⟨⟨0⟩, .guaranteed⟩] none,
  .inst ⟨0⟩ (.ret none) none,
  .declare "main" [] none,
  .value ⟨0⟩ (.allocRef ⟨0⟩) none,
  .inst ⟨0⟩ (.call (.direct ⟨1⟩) [⟨0⟩] none) none,
  .inst ⟨0⟩ (.strongRelease ⟨0⟩) none,
  .inst ⟨0⟩ (.ret none) none]

/-- The program with the destructor. -/
def disposal : Program := (built disposalSteps).program

namespace Analysis

/-- The last function of the example has a call of the one before it. -/
theorem recorded_hasBody_or_destructor_call : ∃ a', (ofConfig Preset.balanced.config).run disposal
      [.recompute ⟨2⟩] = .ok a' ∧ ∃ info ∈ a'.info? ⟨1⟩, ⟨⟨2⟩, ⟨1⟩⟩ ∈ info.callers ∧
      Resolver.hasBody disposal ⟨1⟩ = .ok true := by
  have hrun : ∃ a', (ofConfig Preset.balanced.config).run disposal [.recompute ⟨2⟩] = .ok a' ∧
      ∃ info ∈ a'.info? ⟨1⟩, ⟨⟨2⟩, ⟨1⟩⟩ ∈ info.callers ∧ ∃ s ∈ Scope.of? disposal ⟨2⟩,
        Effect.of s ⟨1⟩ = .ok (.call none) := by
    decide +kernel
  obtain ⟨a', hrun, info, hinfo, hsite, s, hs, heffect⟩ := hrun
  obtain ⟨s', hs', -, ⟨container, -, hbody⟩ | ⟨v, t, cls, hrelease, -⟩⟩ :=
    recorded_hasBody_or_destructor rfl rfl hrun hinfo hsite
  · exact ⟨a', hrun, info, hinfo, hsite, hbody⟩
  · cases (show Scope.of? disposal ⟨2⟩ = some s from hs).symm.trans hs'
    cases heffect.symm.trans hrelease

/-- **A destructor without a body is taken for known.** It is declared, and that is all that a
release asks for: its release is recorded as a call of it. -/
theorem bodyless_destructor_recorded : disposal.Built ∧ ∃ a',
    (ofConfig Preset.balanced.config).run disposal
      [.recompute ⟨2⟩] = .ok a' ∧ ∃ info ∈ a'.info? ⟨0⟩, info.callers = [⟨⟨2⟩, ⟨2⟩⟩] ∧
      Resolver.hasBody disposal ⟨0⟩ = .ok false :=
  ⟨built_program (by decide +kernel), by decide +kernel⟩

end Analysis

end Escape
