import Escape.Proofs.Analysis.Completed

/-!
# Parameters that escape

Whether an argument may escape through a call is told by the summaries of the callees. A summary
covers the full graph it was derived from, so a parameter that escapes globally there makes the
answer `true`. This is not so for the memory that a parameter points to: a summary leaves out what
is below a node that escapes globally.

- `Graph.Covers.letsEscape`: a summary that covers a full graph lets its global parameters escape.
- `Analysis.canParameterEscape_of_global`: **no answer claims less escaping than the full graph of a
  callee**, for the argument itself.
- `Analysis.inside_of_global_missed`: it may for the memory that the argument points to.
-/

namespace Escape

open Escape.Graph

variable {p : Program} {s : Scope} {f : FuncId} {info : FuncInfo} {a a' : Analysis} {v : ValueId}
  {g : Graph} {n : NodeId} {index : Nat} {args : List ValueId}

namespace Graph

/-- A node that escapes globally reaches one that does. -/
theorem reachesGlobal_of_global (hs : Settled g) (hn : (g.node n).merged = false)
    (h : (g.node n).state = .globalEscaping) : g.reachesGlobal n = true := by
  rw [reachesGlobal, List.any_eq_true]
  refine ⟨n, ?_, decide_eq_true h⟩
  rw [hs.representative_of_live hn]
  exact mem_closure_self _ _ n

/-- A summary that covers a full graph lets its global parameters escape. -/
theorem Covers.letsEscape {full summary : Graph} (h : Covers s full summary) (hfunc : s.func.Sound)
    (hs : Settled summary) (hargs : s.func.arguments = .ok args) (hv : v ∈ args)
    (hn : full.nodeOf? s v = .ok (some n)) (hglobal : (full.node n).state = .globalEscaping) :
    summary.letsEscape s v false = .ok true := by
  obtain ⟨-, hpointer, r, hr, hat⟩ := nodeOf?_iff.mp hn
  obtain ⟨hd, -, hroot, href⟩ := Scope.argument_spec hfunc hargs hv
  cases hr.symm.trans hroot
  obtain ⟨anchor, ha, -⟩ := Scope.anchor?_of_root href hpointer hroot hd
  obtain ⟨m, k, hm, hk, himp, -⟩ := h.params args hargs v hv anchor ha
  cases hat.unique hm
  have hnode : summary.nodeOf? s v = .ok (some k) :=
    nodeOf?_iff.mpr ⟨h.valid, hpointer, v, hroot, hk⟩
  have hreach := reachesGlobal_of_global hs (hk.live hs).2 (himp hglobal)
  unfold Graph.letsEscape
  rw [h.valid, if_neg (by simp), hnode, ok_bind]
  dsimp only
  rw [if_neg Bool.false_ne_true]
  dsimp only
  rw [hreach]
  rfl

end Graph

namespace Analysis

/-- A callee that is said to keep its parameter has a full graph in which the parameter does not
escape globally. -/
theorem AtRest.calleeLetsEscape_false (hp : p.Sound) (h : AtRest p a)
    (hok : a.calleeLetsEscape p f index false = .ok (a', false)) (hs : Scope.of? p f = some s)
    (hargs : s.func.arguments = .ok args) (hv : args[index]? = some v)
    (hpointer : s.isPointer v = .ok true) : ∃ info, a'.infos.find? f = some info ∧
      ∀ n, info.graph.nodeOf? s v = .ok (some n) → (info.graph.node n).state ≠ .globalEscaping := by
  unfold Analysis.calleeLetsEscape at hok
  rw [hs] at hok
  dsimp only at hok
  rw [hargs, ok_bind, hv] at hok
  dsimp only at hok
  rw [hpointer, ok_bind] at hok
  obtain ⟨r, hinfo, hok⟩ := bind_ok.mp hok
  rcases h.infoFor hp hinfo with ⟨why, rfl⟩ | ⟨a₁, info, rfl, hlearns, hf⟩
  · cases hok
  · obtain ⟨b, hb, hok⟩ := bind_ok.mp hok
    cases hok
    refine ⟨info, hf, fun n hn hglobal => ?_⟩
    -- the summary that was asked covers the full graph
    obtain ⟨-, hcovers⟩ := hlearns.rest.covers f info s hf hs (nodeOf?_iff.mp hn).1
    obtain ⟨s', hs', hsane⟩ := hlearns.rest.sane f info hf
    cases hs.symm.trans hs'
    have hfunc := hp.of? hs
    have hanswer := hcovers.letsEscape hfunc hsane.summary.settled hargs
      (List.mem_of_getElem? hv) hn hglobal
    cases hb.symm.trans hanswer

/-- The same for all callees of a call. The full graph of a callee stays the same while the others
are asked. -/
theorem AtRest.someLetsEscape_false (hp : p.Sound) (hs : Scope.of? p f = some s)
    (hargs : s.func.arguments = .ok args) (hv : args[index]? = some v)
    (hpointer : s.isPointer v = .ok true) : ∀ (fs : List FuncId) (a : Analysis) {a' : Analysis},
    AtRest p a → f ∈ fs →
      Analysis.someLetsEscape p index false fs a = .ok (a', false) → ∃ info,
      a'.infos.find? f = some info ∧
        ∀ n, info.graph.nodeOf? s v = .ok (some n) →
        (info.graph.node n).state ≠ .globalEscaping := by
  intro fs
  induction fs with
  | nil => nofun
  | cons g fs ih =>
    intro a a' h hmem hok
    obtain ⟨⟨a₁, escapes⟩, hcallee, hothers⟩ := bind_ok.mp hok
    cases escapes with
    | true => cases hothers
    | false =>
      have hrest := (h.calleeLetsEscape hp hcallee).rest
      rcases List.mem_cons.mp hmem with rfl | hmem
      · obtain ⟨info, hf, hkeeps⟩ := h.calleeLetsEscape_false hp hcallee hs hargs hv hpointer
        obtain ⟨info', hf', hgraph⟩ :=
          (AtRest.someLetsEscape hp fs a₁ hrest hothers).graph f info hf
        rw [← hgraph] at hkeeps
        exact ⟨info', hf', hkeeps⟩
      · exact ih a₁ hrest hmem hothers

/-- **No answer claims less escaping than the full graph of a callee.** Take any run of requests,
and then ask whether an argument of a call may escape. If a function that the call may invoke has a
full graph in which the parameter escapes globally, the answer is `true`. -/
theorem canParameterEscape_of_global (hp : p.Built) (hstart : a.infos = {})
    {requests : List Request} {a₁ : Analysis} (hrun : a.run p requests = .ok a₁) {site : CallSite}
    {answer : Bool} (hask : a₁.canParameterEscape p site index false = .ok (a', answer))
    {fs : List FuncId} (hcallees : a₁.resolver p site.caller site.site = .ok (.precise fs))
    (hmem : f ∈ fs) (hs : Scope.of? p f = some s) (hargs : s.func.arguments = .ok args)
    (hv : args[index]? = some v) (hf : a'.info? f = some info)
    (hn : info.graph.nodeOf? s v = .ok (some n))
    (hglobal : (info.graph.node n).state = .globalEscaping) : answer = true := by
  obtain ⟨hrest, -⟩ := (atRest_of_empty hstart).run hp.sound hrun
  rw [Analysis.canParameterEscape, hcallees, ok_bind] at hask
  cases answer with
  | true => rfl
  | false =>
    cases fs with
    | nil => cases hmem
    | cons f₀ fs =>
      obtain ⟨info', hf', hkeeps⟩ := AtRest.someLetsEscape_false hp.sound hs hargs hv
        (nodeOf?_iff.mp hn).2.1 (f₀ :: fs) a₁ hrest hmem hask
      cases hf.symm.trans hf'
      exact absurd hglobal (hkeeps n hn)

/-- The first function of the example lets its parameter escape. -/
theorem canParameterEscape_of_global_publish :
    ∃ r, (ofConfig Preset.balanced.config).canParameterEscape nodes
      ⟨⟨2⟩, ⟨1⟩⟩ 0 false = .ok r ∧ ∃ info ∈ r.1.info? ⟨0⟩, ∃ s ∈ Scope.of? nodes ⟨0⟩,
        ∃ n, info.graph.nodeOf? s ⟨0⟩ = .ok (some n) ∧ (info.graph.node n).state = .globalEscaping ∧
          r.2 = true := by
  have hask : ∃ r, (ofConfig Preset.balanced.config).canParameterEscape nodes
    ⟨⟨2⟩, ⟨1⟩⟩ 0 false = .ok r ∧
      ∃ info ∈ r.1.info? ⟨0⟩, ∃ s ∈ Scope.of? nodes ⟨0⟩, s.func.arguments = .ok [⟨0⟩] ∧
        info.graph.nodeOf? s ⟨0⟩ = .ok (some ⟨2⟩) ∧
        (info.graph.node ⟨2⟩).state = .globalEscaping := by
    decide +kernel
  obtain ⟨⟨a', answer⟩, hask, info, hf, s, hs, hargs, hn, hglobal⟩ := hask
  have hrun : (ofConfig Preset.balanced.config).run nodes [] =
    .ok (ofConfig Preset.balanced.config) := rfl
  have hcallees : (ofConfig Preset.balanced.config).resolver nodes ⟨2⟩ ⟨1⟩ =
      .ok (.precise [⟨0⟩]) := by
    decide +kernel
  have hv : [(⟨0⟩ : ValueId)][0]? = some ⟨0⟩ := rfl
  have hanswer := canParameterEscape_of_global nodes_built rfl hrun hask hcallees
    (List.mem_singleton_self _) hs hargs hv hf hn hglobal
  exact ⟨(a', answer), hask, info, hf, s, hs, ⟨2⟩, hn, hglobal, hanswer⟩

end Analysis

/-- Steps that build a function which publishes its parameter and returns nothing, and a call of it.
-/
def publishSteps : List Step := [
  .intern (.object { name := "Node" }),
  .setFields ⟨0⟩ [⟨0⟩],
  .declare "publish" [⟨⟨0⟩, .guaranteed⟩] none,
  .value ⟨0⟩ (.globalAddr "last" false) (some ⟨0⟩),
  .inst ⟨0⟩ (.store ⟨0⟩ ⟨1⟩) none,
  .inst ⟨0⟩ (.ret none) none,
  .declare "main" [] none,
  .value ⟨0⟩ (.allocRef ⟨0⟩) none,
  .inst ⟨0⟩ (.call (.direct ⟨0⟩) [⟨0⟩] none) none,
  .inst ⟨0⟩ (.ret none) none]

/-- The program with the function that publishes its parameter. -/
def publishing : Program := (built publishSteps).program

namespace Analysis

/-- **What is below a published parameter is missed.** In the full graph of the callee the memory
that the parameter points to escapes globally. The summary does not tell, since it holds no content
for a parameter that escapes globally, and the answer is `false`. -/
theorem inside_of_global_missed : publishing.Built ∧ ∃ r,
    (ofConfig Preset.balanced.config).canParameterEscape publishing ⟨⟨1⟩, ⟨1⟩⟩ 0 true =
    .ok r ∧ r.2 = false ∧
      ∃ info ∈ r.1.info? ⟨0⟩, ∃ s ∈ Scope.of? publishing ⟨0⟩, s.func.arguments = .ok [⟨0⟩] ∧
        info.graph.valid = true ∧ info.graph.contentOf? s ⟨0⟩ = .ok (some ⟨3⟩) ∧
        (info.graph.node ⟨3⟩).state = .globalEscaping :=
  ⟨built_program (by decide +kernel), by decide +kernel⟩

end Analysis

end Escape
