import Escape.Proofs.Analysis.Calls

/-!
# The conservative default

What is not modelled lets everything escape that it touches, and so does a call of functions that
are not all known. This is done once, when the instruction is drawn. Whatever is drawn, linked,
spliced in and merged later, the nodes of its values stay global, and so do their contents once the
graph is complete.

- `Analysis.draw_surrenders`: drawing a function surrenders everything that such instructions touch.
- `Analysis.Course.origin`: a graph that an update computes was drawn, reworked and completed.
- `Analysis.unmodelled_escapes`: **what an unmodelled instruction touches is global in the completed
  graph.**
-/

namespace Escape

open Escape.Graph

variable {p : Program} {s : Scope} {f h : FuncId} {info : FuncInfo} {a a' : Analysis} {v : ValueId}
  {g g' : Graph} {n c : NodeId} {i : InstId} {inst : Inst}

/-! ### Values that are surrendered -/

namespace Graph

/-- The value escapes globally and has a content, if it enters graphs at all. -/
def Surrendered (s : Scope) (g : Graph) (v : ValueId) : Prop :=
  ∀ a, s.anchor? v = .ok (some a) → ∃ n, g.At a.root n ∧
    (g.node n).state = .globalEscaping ∧ g.Holds n

/-- A surrendered value stays so: states do not fall, and nodes keep their contents. -/
theorem Surrendered.later (h : Surrendered s g v) (hs : Settled g) (hsup : Supplied g nobody)
    (hf : Follows g g') (hg : Supplies g g' g'.representative) : Surrendered s g' v := by
  intro a ha
  obtain ⟨n, hat, hglobal, hholds⟩ := h a ha
  refine ⟨g'.representative n, hf.values _ n hat, hf.isGlobal ?_, (hg hsup).2 n hholds⟩
  rw [hs.representative_of_live (hat.live hs).2]
  exact hglobal

theorem setValueGlobal_surrenders (hs : Settled g) (hv : g.valid = true)
    (hok : g.setValueGlobal s v = .ok g') : Surrendered s g' v := by
  intro a ha
  obtain ⟨-, hgo, -⟩ := setValueGlobal_spec hs hok
  obtain ⟨n, hat, hglobal⟩ := hgo hv a ha
  refine ⟨n, hat, hglobal, ?_⟩
  -- the content was asked for, and then only raised
  obtain ⟨⟨g₁, n?⟩, h₁, hok⟩ := bind_ok.mp hok
  obtain ⟨⟨g₂, c?⟩, h₂, hok⟩ := bind_ok.mp hok
  cases hok
  have hev₁ := (nodeFor_builds hs h₁).1
  have hev₂ : Builds s g₁ (g₁.setGlobal? n?) := setGlobal?_evolves hev₁.settled n?
  have hvalid : (g₁.setGlobal? n?).valid = true := (hev₁.trans hev₂).valid.trans hv
  have hs₂ := (contentFor_builds hev₂.settled h₂).1.settled
  obtain ⟨m, c, hat₂, hc, -⟩ := contentFor_filled hev₂.settled hvalid h₂ a ha
  have hr : Raises g₂ (g₂.setGlobal? c?) := setGlobal?_raises g₂ c?
  cases hat.unique ((hr.sameEdges.at_iff hs₂.forest hr.values).mpr hat₂)
  rw [content?_eq, Option.map_eq_some_iff] at hc
  obtain ⟨t, ht, -⟩ := hc
  rw [Holds, hr.sameEdges.target?, ht]
  rfl

/-- **Everything an instruction touches is surrendered.** -/
theorem escapeAll_surrenders (hs : Settled g) (hsup : Supplied g nobody) (hv : g.valid = true)
    (hok : g.escapeAll s i = .ok g') : ForTouched s i (Surrendered s g') :=
  (escapeAll_touches hs (fun hs hok hv => setValueGlobal_surrenders hs hv hok)
    (fun hev hev' h => h.later hev.settled (hev.supplies hsup).1 hev'.toFollows hev'.supplies)
    hok).2 hv

/-- An empty graph has no contents. -/
theorem supplied_full (f : FuncId) : Supplied (.full f) nobody where
  passes a b _ hd := by cases hd
  comes n _ hn := by cases hn

end Graph

/-! ### Instructions that are not modelled -/

/-- The functions are not known, or not all of them are functions of the program. -/
def Callees.Open (p : Program) : Callees → Prop
  | .unknown => True
  | .precise fs => fs = [] ∨ ∃ f ∈ fs, p.func? f = none

namespace Analysis

/-- Everything that the instruction touches has to escape: what it does is not modelled, or it is a
call without container semantics, and the resolver does not tell which functions of the program it
invokes. -/
inductive Unmodelled (a : Analysis) (s : Scope) (i : InstId) (inst : Inst) : Prop
  | effect : Effect.of s i = .ok .escapeAll → Unmodelled a s i inst
  | call {target : Callee} {args : List ValueId} {container : Option ContainerOp}
    {callees : Callees} : inst.op = .call target args container → container = none ∨
    a.config.modelContainers = false → a.resolver s.program s.id i = .ok callees →
    callees.Open s.program → Unmodelled a s i inst

theorem knownCallees_of_open {callees : Callees} (hr : a.resolver s.program s.id i = .ok callees)
    (hopen : callees.Open s.program) : a.knownCallees s i = .ok none := by
  rw [knownCallees, hr, ok_bind]
  cases callees with
  | unknown => rfl
  | precise fs =>
    rcases hopen with rfl | ⟨f, hf, hnone⟩
    · rfl
    · have hall : (fs.all fun f => (s.program.func? f).isSome) = false := by
        rw [List.all_eq_false]
        exact ⟨f, hf, by simp [hnone]⟩
      simp [hall, pure, Except.pure]

/-- A call has the effect of a call. -/
theorem effect_of_call (hfunc : s.func.ResultsTraced) (hinst : s.func.inst i = .ok inst)
    {target : Callee} {args : List ValueId} {container : Option ContainerOp}
    (hop : inst.op = .call target args container) : Effect.of s i = .ok (.call container) := by
  rw [Effect.of, hinst, ok_bind]
  have hrest : Effect.ofOperation s inst.results.head? inst.op = .ok (.call container) := by
    rw [hop]
    rfl
  cases hr : inst.results.head? with
  | none =>
    rw [hr] at hrest
    exact hrest
  | some r =>
    rw [hr] at hrest
    -- a call passes none of its operands on, and its result is no constant
    have hdef := Scope.definition?_of_result hfunc hinst (List.mem_of_head? hr)
    rw [hop] at hdef
    have hbase : s.base? r = .ok none := by
      rw [Scope.base?, hdef]
      rfl
    have hread : s.isReadOnly r = .ok false := by
      rw [Scope.isReadOnly, hdef]
      rfl
    dsimp only
    rw [hbase, ok_bind]
    simp only [Option.isSome_none, Bool.false_eq_true, if_false, hread, ok_bind]
    exact hrest

/-- The results of an instruction that is not modelled are no function references. -/
theorem Unmodelled.isFunctionRef (hfunc : s.func.ResultsTraced) (hun : a.Unmodelled s i inst)
    (hinst : s.func.inst i = .ok inst) (hv : v ∈ inst.results) : s.isFunctionRef v = .ok false := by
  rw [Scope.isFunctionRef, Scope.definition?_of_result hfunc hinst hv, ok_bind]
  split
  · rename_i f hop
    have hop : inst.op = .functionRef f := Option.some.inj hop
    cases hun with
    | effect heffect =>
      -- a function reference has no effect
      obtain ⟨inst', hinst', heffect⟩ := ofOperation_of_effect heffect Effect.noConfusion
      cases hinst.symm.trans hinst'
      rw [hop] at heffect
      cases heffect
    | call hcall _ _ _ => cases hop.symm.trans hcall
  · rfl

/-! ### Drawing -/

section Drawings

variable {deep : Bool} {gr gr' : Graph} {fs : List FuncId} {calls : List Call}

/-- What an unmodelled instruction touches is surrendered when it is drawn. -/
theorem drawInst_surrenders (hfunc : s.func.ResultsTraced) (hs : Settled gr)
    (hsup : Supplied gr nobody) (hv : gr.valid = true) (hinst : s.func.inst i = .ok inst)
    (hun : a.Unmodelled s i inst) (hok : a.drawInst deep s i gr = .ok (gr', fs)) :
    ForTouched s i (Surrendered s gr') := by
  obtain ⟨effect, heffect, hdrawn⟩ := drawInst_spec hok
  cases hun with
  | effect hescape =>
    cases heffect.symm.trans hescape
    cases hdrawn with
    | plain happly _ _ => exact escapeAll_surrenders hs hsup hv happly
  | call hop hcontainer hresolver hopen =>
    cases heffect.symm.trans (effect_of_call hfunc hinst hop)
    cases hdrawn with
    | container hmodel _ =>
      rcases hcontainer with hnone | hoff
      · cases hnone
      · cases hmodel.symm.trans hoff
    | known _ _ hknown => cases hknown.symm.trans (knownCallees_of_open hresolver hopen)
    | unknown _ hattempt hescape =>
      have hev := hattempt.builds hs
      exact escapeAll_surrenders hev.settled (hev.supplies hsup).1 (hev.valid.trans hv) hescape
    | plain _ _ hno => exact absurd rfl (hno _)

/-- A property of everything that the unmodelled instructions among `is` touch. -/
def ForUnmodelled (a : Analysis) (s : Scope) (is : InstId → Prop) (P : ValueId → Prop) : Prop :=
  ∀ i, is i → ∀ inst, s.func.inst i = .ok inst → a.Unmodelled s i inst → ForTouched s i P

theorem drawInsts_surrenders (hfunc : s.func.ResultsTraced) (is : List InstId) (gr : Graph)
    (hs : Settled gr) (hsup : Supplied gr nobody)
    (hok : a.drawInsts deep s is gr = .ok (gr', calls)) (hv : gr'.valid = true) :
    Builds s gr gr' ∧ a.ForUnmodelled s (· ∈ is) (Surrendered s gr') := by
  replace hok := drawing_of_ok is gr hok
  induction hok with
  | done => exact ⟨.refl hs, fun i hi => absurd hi List.not_mem_nil⟩
  | full => cases hv
  | next hdraw _ _ ih =>
    have hev := drawInst_builds hfunc hs hdraw
    have hsup₁ := (hev.supplies hsup).1
    obtain ⟨hev', hrest⟩ := ih hev.settled hsup₁ hv
    refine ⟨hev.trans hev', fun j hj inst hinst hun => ?_⟩
    rcases List.mem_cons.mp hj with rfl | hj
    · have hvalid := (hev.trans hev').valid.symm.trans hv
      have hhere := drawInst_surrenders hfunc hs hsup hvalid hinst hun hdraw
      exact hhere.mono fun _ h => h.later hev.settled hsup₁ hev'.toFollows hev'.supplies
    · exact hrest j hj inst hinst hun

/-- **Drawing a function** surrenders everything that its unmodelled instructions touch. -/
theorem draw_surrenders (hfunc : s.func.ResultsTraced) (hok : a.draw deep s = .ok (gr, calls))
    (hv : gr.valid = true) : Supplied gr nobody ∧
    a.ForUnmodelled s s.Reaches (Surrendered s gr) := by
  obtain ⟨blocks, is, g₁, hblocks, his, hdraw, hlink⟩ := draw_ok hok
  have hempty : Settled (.full s.id) := Grown.of_empty.settled
  obtain ⟨hv₁, hlater⟩ : g₁.valid = true ∧ (Settled g₁ → Builds s g₁ gr) := by
    rcases hlink with ⟨hv₁, hlink⟩ | ⟨-, rfl⟩
    · exact ⟨hv₁, fun hs => linkBlocks_builds hs hlink⟩
    · exact ⟨hv, .refl⟩
  obtain ⟨hev, hgone⟩ := drawInsts_surrenders hfunc is _ hempty (supplied_full s.id) hdraw hv₁
  have hsup := (hev.supplies (supplied_full s.id)).1
  have hev' := hlater hev.settled
  refine ⟨(hev'.supplies hsup).1, fun i hi inst hinst hun => ?_⟩
  obtain ⟨blocks', hblocks', b, hb, blk, hblk, hmem⟩ := hi
  cases hblocks.symm.trans hblocks'
  have hthere := hgone i (Update.mem_instsOf his hb hblk hmem) inst hinst hun
  exact hthere.mono fun _ h => h.later hev.settled hsup hev'.toFollows hev'.supplies

end Drawings

end Analysis

/-! ### Keeping what was drawn -/

/-- The graphs that were built in this update are as they were drawn, those of the functions in
`working` excepted. -/
def Update.AsDrawn (p : Program) (a : Analysis) (working : FuncId → Prop) (u : Update) : Prop :=
  ∀ f, (u.known f).builtIn = u.number → ¬ working f →
    ∃ s deep calls, Scope.of? p f = some s ∧ a.draw deep s = .ok ((u.known f).graph, calls)

section Drawn

open Update

variable {u u' : Update} {working : FuncId → Prop}

namespace Update

/-- A change that does not touch the graph. -/
theorem AsDrawn.modify (hd : AsDrawn p a working u) {change : FuncInfo → FuncInfo}
    (hb : (change (u.known f)).builtIn = (u.known f).builtIn)
    (hg : (change (u.known f)).graph = (u.known f).graph) :
    AsDrawn p a working (u.modify f change) := by
  intro g hg' hw
  rw [known_modify] at hg' ⊢
  split at hg'
  · rename_i hfg
    subst hfg
    rw [if_pos rfl, hg]
    exact hd f (hb.symm.trans hg') hw
  · rename_i hfg
    rw [if_neg hfg]
    exact hd g hg' hw

/-- The function that is changed is worked on. -/
theorem AsDrawn.start (hd : AsDrawn p a working u) (change : FuncInfo → FuncInfo) :
    AsDrawn p a (fun g => g = f ∨ working g) (u.modify f change) := by
  intro g hb hw
  rw [not_or] at hw
  rw [known_modify, if_neg (Ne.symm hw.1)] at hb ⊢
  exact hd g hb hw.2

/-- What was drawn for a function is recorded. -/
theorem AsDrawn.record {deep : Bool} {calls : List Call}
    (hd : AsDrawn p a (fun g => g = f ∨ working g) u) (hs : Scope.of? p f = some s)
    (hdraw : a.draw deep s = .ok (g, calls)) :
    AsDrawn p a working (u.modify f fun info => { info with graph := g }) := by
  intro g' hb hw
  rw [known_modify] at hb ⊢
  split at hb
  · rename_i hfg
    subst hfg
    rw [if_pos rfl]
    exact ⟨s, deep, calls, hs, hdraw⟩
  · rename_i hfg
    rw [if_neg hfg]
    exact hd g' hb (not_or.mpr ⟨Ne.symm hfg, hw⟩)

theorem AsDrawn.place (hd : AsDrawn p a working u) (f : FuncId) :
    AsDrawn p a working (u.place f) := by
  unfold Update.place
  split
  · exact hd
  · split
    · exact hd
    · have hplaced : AsDrawn p a working
        (u.modify f fun info => { info with position := some u.order.size }) :=
        hd.modify rfl rfl
      exact hplaced

end Update

namespace Analysis

/-- A builder leaves what it finds as it was drawn, and draws the rest. -/
def Builder.Draws (p : Program) (a : Analysis) (b : Builder) : Prop :=
  ∀ f u u' working, AsDrawn p a working u → b f u = .ok u' → AsDrawn p a working u'

theorem follow_draws {b : Builder} (hb : b.Draws p a) (calls : List Call) (u : Update)
    {u' : Update} (hd : AsDrawn p a working u) (hok : follow b calls u = .ok u') :
    AsDrawn p a working u' := by
  induction calls generalizing u u' with
  | nil =>
    cases hok
    exact hd
  | cons call calls ih =>
    obtain ⟨callers, he, -⟩ := addCaller_spec call.site (u.known call.callee)
    have hd₁ : AsDrawn p a working (u.modify call.callee (·.addCaller call.site)) :=
      hd.modify (by rw [he]) (by rw [he])
    unfold follow at hok
    dsimp only at hok
    split at hok
    · exact ih _ hd₁ hok
    · obtain ⟨u₂, hdescend, hok⟩ := bind_ok.mp hok
      exact ih _ ((hb _ _ u₂ _ hd₁ hdescend).place _) hok

theorem buildWith_draws {descend : Option Builder} (hdesc : ∀ b, descend = some b → b.Draws p a) :
    Builder.Draws p a (a.buildWith p descend) := by
  intro f u u' working hd hok
  cases hs : Scope.of? p f with
  | none =>
    rw [buildWith, hs] at hok
    cases hok
    exact hd
  | some s =>
    rw [buildWith_ok hs] at hok
    rcases visit_cases u f with ⟨-, e⟩ | ⟨-, ⟨-, e⟩ | ⟨-, e⟩⟩
    · rw [e] at hok
      cases hok
      exact hd
    · rw [e] at hok
      cases hok
      exact hd.modify rfl rfl
    · -- the function is worked on until its calls are followed
      rw [e] at hok
      obtain ⟨g, calls, u₁, hdraw, hfollow, rfl⟩ := hok
      have hb : (descend.getD idle).Draws p a := by
        cases descend with
        | none =>
          intro f u u' working hd hok
          cases hok
          exact hd
        | some b => exact hdesc b rfl
      exact (follow_draws hb calls _ (hd.start _) hfollow).record hs hdraw

theorem build_draws (p : Program) (a : Analysis) : ∀ depth, Builder.Draws p a (a.build p depth)
  | 0 => buildWith_draws fun b hb => absurd hb.symm (Option.some_ne_none b)
  | depth + 1 => buildWith_draws fun b hb => by
    cases hb
    exact build_draws p a depth

/-- At first nothing was built. -/
theorem AtRest.asDrawn (h : AtRest p a) : AsDrawn p a (fun _ => False) a.begun := by
  intro f hb
  cases hf : a.begun.infos.find? f with
  | none =>
    rw [known, hf] at hb
    exact absurd hb (Nat.succ_ne_zero a.updates).symm
  | some info =>
    rw [known_of_find? hf] at hb
    exact absurd hb (h.not_visited hf).1

/-- **Where a graph comes from.** It was known before the update, or it was drawn, reworked and
completed. -/
theorem Course.origin {u₁ u₂ : Update} (hp : p.Sound) (hrest : AtRest p a)
    (hc : Course p a h u u₁ u₂) (hf : u₂.infos.find? f = some info) :
    (∃ old, a.infos.find? f = some old ∧ info.graph = old.graph) ∨
      ∃ s deep calls g₀ g₁, Scope.of? p f = some s ∧ a.draw deep s = .ok (g₀, calls) ∧ Settled g₀ ∧
        Forward g₀ g₁ ∧ Supplies g₀ g₁ g₁.representative ∧
        Update.complete s g₁ = .ok info.graph := by
  obtain ⟨info₁, hf₁, -, -, -, -, -, ⟨hnb, hgraph⟩ | ⟨hb, -, hcomplete⟩⟩ :=
    hc.finishing.result hc.passed hf
  · obtain ⟨old, hold, he⟩ := hc.kept hf₁ hnb
    exact .inl ⟨old, hold, hgraph.trans he⟩
  · obtain ⟨info₀, hf₀, hre⟩ := hc.reworks.back f info₁ hf₁
    have hdrawn := (build_draws p a _ _ _ _ _ hrest.asDrawn hc.build).place h
    obtain ⟨s, deep, calls, hs, hdraw⟩ := hdrawn f (by
      rw [known_of_find? hf₀, ← hre.builtIn, hb, hc.reworks.number]) not_false
    rw [known_of_find? hf₀] at hdraw
    have hsettled := (draw_grown (hp.of? hs).results hdraw).settled
    exact .inr ⟨s, deep, calls, info₀.graph, info₁.graph, hs, hdraw, hsettled, hre.forward hsettled,
      hre.supplies hsettled, hcomplete s hs⟩

end Analysis

end Drawn

/-! ### Completed graphs -/

/-- The value and its content escape globally, if it enters graphs at all. -/
def Graph.Forfeited (s : Scope) (g : Graph) (v : ValueId) : Prop :=
  ∀ a, s.anchor? v = .ok (some a) → ∃ n c, g.At a.root n ∧ (g.node n).state = .globalEscaping ∧
    g.content? n = some c ∧ (g.node c).state = .globalEscaping

/-- Pushing states along all edges forfeits what was surrendered, and use points change nothing. -/
theorem Update.complete_forfeits (hs : Settled g) (hv : g.valid = true)
    (hok : complete s g = .ok g') (h : Surrendered s g v) : Forfeited s g' v := by
  intro a ha
  obtain ⟨n, hat, hglobal, hholds⟩ := h a ha
  obtain ⟨c, hc⟩ : ∃ c, g.content? n = some c := by
    obtain ⟨t, ht⟩ := Option.isSome_iff_exists.mp hholds
    exact ⟨g.representative t, by rw [content?_eq, ht]; rfl⟩
  obtain ⟨blocks, vs, g₁, -, -, h₁, hok⟩ := complete_ok hv hok
  -- the contents that are made leave the node and its content as they are
  obtain ⟨hd₁, -, -⟩ := contents_spec (roots_anything s) hs hv h₁
  have hs₁ := hd₁.settled
  have hat₁ := hd₁.at_old _ _ hat
  have hc₁ := hd₁.content? hs.forest hc
  have hr := propagate_raises g₁
  have hsp := hr.settled hs₁
  have hat₂ := (hr.sameEdges.at_iff hs₁.forest hr.values).mpr hat₁
  have hc₂ := (hr.sameEdges.content? hs₁.forest n).trans hc₁
  have hglobal₂ : (g₁.propagate.1.node n).state = .globalEscaping := by
    refine globalEscaping_le ?_
    rw [← hglobal, ← hd₁.state n (hat.live hs).1]
    exact hr.state n
  have hlive₂ := hat₂.live hsp
  -- pushing states along all edges reaches the content
  have hcglobal₂ : (g₁.propagate.1.node c).state = .globalEscaping := by
    refine globalEscaping_le ?_
    rw [← hglobal₂]
    exact propagate_closed hs₁ n hlive₂.2 c (List.mem_append_left _ (Option.mem_toList.mpr hc₂))
  have hd := computeUsePoints_deepens (roots_anything s) hsp hok
  refine ⟨n, c, hd.at_old _ _ hat₂, ?_, hd.content? hsp.forest hc₂, ?_⟩
  · rw [hd.state n hlive₂.1, hglobal₂]
  · rw [hd.state c (hsp.live_content hc₂).1, hcglobal₂]

/-! ### Runs -/

namespace Analysis

theorem Unmodelled.congr (hun : a.Unmodelled s i inst) (hconfig : a'.config = a.config)
    (hresolver : a'.resolver = a.resolver) : a'.Unmodelled s i inst := by
  cases hun with
  | effect heffect => exact .effect heffect
  | call hop hcontainer hcallees hopen =>
    exact .call hop (hconfig ▸ hcontainer) (hresolver ▸ hcallees) hopen

/-- Between requests, everything that unmodelled instructions touch is forfeited in the graphs that
are known. -/
structure Conservative (p : Program) (a : Analysis) : Prop extends AtRest p a where
  forfeited : ∀ f info s, a.infos.find? f = some info → Scope.of? p f = some s →
    info.graph.valid = true → a.ForUnmodelled s s.Reaches (Forfeited s info.graph)

theorem conservative_of_empty (h : a.infos = {}) : Conservative p a :=
  ⟨atRest_of_empty h, fun f info _ hf => absurd hf (find?_of_empty h f info)⟩

theorem Conservative.update (hp : p.Sound) (hc : Conservative p a) (hf : (p.func? f).isSome)
    (hok : a.update p f = .ok a') : Conservative p a' := by
  obtain ⟨u, u₁, u₂, hcourse, ha'⟩ := hc.course hp hf hok
  refine ⟨(hc.toAtRest.update hp hf hok).rest, fun h info s hh hs hv i hi inst hinst hun => ?_⟩
  subst ha'
  have hun : a.Unmodelled s i inst := hun.congr rfl rfl
  obtain ⟨old, hold, he⟩ | ⟨s', deep, calls, g₀, g₁, hs', hdraw, hs₀, hforward, hsup, hcomplete⟩ :=
    hcourse.origin hp hc.toAtRest hh
  · rw [he] at hv ⊢
    exact hc.forfeited h old s hold hs hv i hi inst hinst hun
  · -- drawing surrendered the values, and everything after it keeps them so
    cases hs.symm.trans hs'
    have hfunc := hp.of? hs
    have hfinal := (Update.complete_forward (roots_anything s) hforward.1 hcomplete).1
    have hv₁ : g₁.valid = true := hfinal.2.valid.symm.trans hv
    obtain ⟨hsup₀, hgone⟩ := draw_surrenders hfunc.results hdraw (hforward.2.valid.symm.trans hv₁)
    refine (hgone i hi inst hinst hun).mono fun v h => ?_
    exact Update.complete_forfeits hforward.1 hv₁ hcomplete (h.later hs₀ hsup₀ hforward.2 hsup)

theorem Conservative.move (hp : p.Sound) (hc : Conservative p a) (hmove : Moves p a a') :
    Conservative p a' ∧ a'.config = a.config ∧ a'.resolver = a.resolver := by
  cases hmove with
  | update hupdate =>
    obtain ⟨f, hf, hok⟩ := hupdate
    have hlearns := hc.toAtRest.update hp hf hok
    exact ⟨hc.update hp hf hok, hlearns.config, hlearns.resolver⟩
  | invalidate f =>
    refine ⟨⟨hc.toAtRest.invalidate f, fun g info s hg hs hv i hi inst hinst hun => ?_⟩, rfl, rfl⟩
    obtain ⟨-, old, hold, rfl⟩ := find?_invalidate hg
    exact hc.forfeited g old s hold hs hv i hi inst hinst (hun.congr rfl rfl)
  | invalidateAll => exact ⟨conservative_of_empty rfl, rfl, rfl⟩

theorem Conservative.run (hp : p.Sound) (hc : Conservative p a) {requests : List Request}
    (hok : a.run p requests = .ok a') : Conservative p a' ∧ a'.config = a.config ∧
    a'.resolver = a.resolver := by
  have hmoves := run_moves hok
  clear hok
  induction hmoves with
  | refl => exact ⟨hc, rfl, rfl⟩
  | tail _ hmove ih =>
    obtain ⟨hnext, hconfig, hresolver⟩ := ih.1.move hp hmove
    exact ⟨hnext, hconfig.trans ih.2.1, hresolver.trans ih.2.2⟩

/-- **The conservative default.** Take any run of requests, with any configuration, resolver and
destructor policy, and a reachable instruction that is not modelled, or a reachable call without
container semantics whose callees are not all known to be functions of the program. Let `v` be a
result, or an operand that is no constant address. In a completed graph that was not given up, the
node of `v` escapes globally, and so does its content. A pointer has a node, unless its root is
undefined. -/
theorem unmodelled_escapes (hp : p.Built) (hstart : a.infos = {}) {requests : List Request}
    (hrun : a.run p requests = .ok a') (hf : a'.info? f = some info) (hs : Scope.of? p f = some s)
    (hvalid : info.graph.valid = true) (hreach : s.Reaches i) (hinst : s.func.inst i = .ok inst)
    (hun : a.Unmodelled s i inst) (hv : v ∈ inst.op.operands ∧ s.isReadOnly v = .ok false ∨
      v ∈ inst.results) :
    (∀ n, info.graph.nodeOf? s v = .ok (some n) → (info.graph.node n).state = .globalEscaping ∧
      ∃ c, info.graph.content? n = some c ∧ (info.graph.node c).state = .globalEscaping) ∧
    ∀ r, s.isPointer v = .ok true → s.root v = .ok r → s.isUndefined r = .ok false →
      ∃ n, info.graph.nodeOf? s v = .ok (some n) := by
  obtain ⟨hend, hconfig, hresolver⟩ := (conservative_of_empty hstart).run hp.sound hrun
  have hfunc := hp.sound.of? hs
  have href : s.isFunctionRef v = .ok false := by
    rcases hv with ⟨-, hread⟩ | hv
    · exact Scope.isFunctionRef_of_not_readOnly hread
    · exact hun.isFunctionRef hfunc.results hinst hv
  have hforfeited : Forfeited s info.graph v := by
    obtain ⟨hoperands, hresults⟩ := hend.forfeited f info s hf hs hvalid i hreach inst hinst
      (hun.congr hconfig hresolver) inst hinst
    rcases hv with ⟨hv, hread⟩ | hv
    · exact hoperands v hv hread
    · exact hresults v hv
  refine ⟨fun n hn => ?_, fun r hpointer hr hd => ?_⟩
  · obtain ⟨anchor, ha, hat⟩ := hend.anchor?_of_nodeOf? hf hs href hn
    obtain ⟨m, c, hat', hglobal, hc, hcglobal⟩ := hforfeited anchor ha
    cases hat.unique hat'
    exact ⟨hglobal, c, hc, hcglobal⟩
  · obtain ⟨anchor, ha, rfl⟩ := Scope.anchor?_of_root href hpointer hr hd
    obtain ⟨m, c, hat, -⟩ := hforfeited anchor ha
    exact ⟨m, nodeOf?_iff.mpr ⟨hvalid, hpointer, anchor.root, hr, hat⟩⟩

/-- An analysis that takes every call for one of the first function or of one that does not exist.
-/
def misled : Analysis := (ofConfig Preset.balanced.config).withResolver fun _ _ _ => .ok
    (.precise [⟨0⟩, ⟨3⟩])

set_option synthInstance.maxSize 1024

/-- The third function of the example passes a new node to a call, and the first one takes the
address of a global variable. -/
theorem unmodelled_escapes_nodes : ∃ a', misled.run nodes [.lookup ⟨2⟩, .lookup ⟨0⟩] = .ok a' ∧
    (∃ info ∈ a'.info? ⟨2⟩, ∃ s ∈ Scope.of? nodes ⟨2⟩, ∃ n,
      info.graph.nodeOf? s ⟨0⟩ = .ok (some n) ∧
      (info.graph.node n).state = .globalEscaping) ∧
    ∃ info ∈ a'.info? ⟨0⟩, ∃ s ∈ Scope.of? nodes ⟨0⟩, info.graph.nodeOf? s ⟨1⟩ = .ok (some ⟨0⟩) ∧
      ∃ c, info.graph.content? ⟨0⟩ = some c ∧ (info.graph.node c).state = .globalEscaping := by
  have hrun : ∃ a', misled.run nodes [.lookup ⟨2⟩, .lookup ⟨0⟩] = .ok a' ∧
      (∃ info ∈ a'.info? ⟨2⟩, ∃ s ∈ Scope.of? nodes ⟨2⟩, info.graph.valid = true ∧ s.Reaches ⟨1⟩ ∧
        s.func.inst ⟨1⟩ =
          .ok { op := .call (.direct ⟨0⟩) [⟨0⟩] none, results := [⟨1⟩], block := ⟨0⟩ } ∧
        s.isReadOnly ⟨0⟩ = .ok false ∧ s.isPointer ⟨0⟩ = .ok true ∧ s.root ⟨0⟩ = .ok ⟨0⟩ ∧
        s.isUndefined ⟨0⟩ = .ok false) ∧
      ∃ info ∈ a'.info? ⟨0⟩, ∃ s ∈ Scope.of? nodes ⟨0⟩, info.graph.valid = true ∧ s.Reaches ⟨0⟩ ∧
        s.func.inst ⟨0⟩ = .ok { op := .globalAddr "last" false, results := [⟨1⟩], block := ⟨0⟩ } ∧
        Effect.of s ⟨0⟩ = .ok .escapeAll ∧ info.graph.nodeOf? s ⟨1⟩ = .ok (some ⟨0⟩) := by
    decide +kernel
  obtain ⟨a', hrun, ⟨info, hf, s, hs, hvalid, hreach, hinst, hread, hpointer, hroot, hdefined⟩,
    info', hf', s', hs', hvalid', hreach', hinst', heffect, hn'⟩ := hrun
  obtain ⟨hprogram, -, -⟩ := Scope.of?_spec hs
  have hopen : (Callees.precise [⟨0⟩, ⟨3⟩]).Open s.program := by
    rw [hprogram]
    exact .inr ⟨⟨3⟩, by decide, by decide +kernel⟩
  -- one of the callees does not exist
  obtain ⟨hcall, hnode⟩ := unmodelled_escapes nodes_built rfl hrun hf hs hvalid hreach hinst
    (.call rfl (.inl rfl) rfl hopen) (.inl ⟨List.mem_singleton_self _, hread⟩)
  obtain ⟨n, hn⟩ := hnode _ hpointer hroot hdefined
  obtain ⟨hglobal, -⟩ := unmodelled_escapes nodes_built rfl hrun hf' hs' hvalid' hreach' hinst'
    (.effect heffect) (.inr (List.mem_singleton_self _))
  exact ⟨a', hrun, ⟨info, hf, s, hs, n, hn, (hcall n hn).1⟩, info', hf', s', hs', hn',
    (hglobal _ hn').2⟩

end Analysis

end Escape
