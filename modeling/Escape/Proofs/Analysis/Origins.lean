import Escape.Proofs.Analysis.Conservative

/-!
# Where full graphs come from

A full graph that is known between requests was drawn once, with the settings that the analysis has
had all along. Calls were merged into it, and it was completed. So what drawing says of a function
holds in all its full graphs, whatever was asked for and dropped in between.

- `Analysis.Traceable.run`: runs keep it so.
- `Analysis.drawInsts_split`: an instruction is drawn after those before it.
- `Analysis.Traceable.inst_drawn`: **nothing that an instruction has drawn is lost.**
-/

namespace Escape

open Escape.Graph

variable {p : Program} {s : Scope} {f : FuncId} {a a' : Analysis} {g g' : Graph} {deep : Bool}
  {i : InstId} {info : FuncInfo}

namespace Analysis

/-! ### Full graphs -/

/-- The graph was drawn for the function and then reworked, so that nothing was lost. -/
def Draws (a : Analysis) (s : Scope) (g : Graph) : Prop :=
  ∃ deep calls g₀, a.draw deep s = .ok (g₀, calls) ∧ Forward g₀ g

theorem Draws.congr (h : SameSettings a a') (hd : a.Draws s g) : a'.Draws s g := by
  obtain ⟨deep, calls, g₀, hdraw, hforward⟩ := hd
  exact ⟨deep, calls, g₀, (draw_congr h).trans hdraw, hforward⟩

/-- Between requests, the full graphs that are known were drawn and reworked. -/
structure Traceable (p : Program) (a : Analysis) : Prop extends AtRest p a where
  drawn : ∀ f info s, a.infos.find? f = some info → Scope.of? p f = some s → a.Draws s info.graph

theorem traceable_of_empty (h : a.infos = {}) : Traceable p a :=
  ⟨atRest_of_empty h, fun f info _ hf => absurd hf (find?_of_empty h f info)⟩

theorem Traceable.update (hp : p.Sound) (h : Traceable p a) (hf : (p.func? f).isSome)
    (hok : a.update p f = .ok a') : Traceable p a' ∧ SameSettings a a' := by
  obtain ⟨u, u₁, u₂, hcourse, ha'⟩ := h.course hp hf hok
  have hsame : SameSettings a a' := by
    rw [ha']
    exact ⟨rfl, rfl, rfl⟩
  refine ⟨⟨(h.toAtRest.update hp hf hok).rest, fun k info s hk hs => ?_⟩, hsame⟩
  refine Draws.congr hsame ?_
  subst ha'
  obtain ⟨old, hold, he⟩ | ⟨s', deep, calls, g₀, g₁, hs', hdraw, -, hforward, -, hcomplete⟩ :=
    hcourse.origin hp h.toAtRest hk
  · rw [he]
    exact h.drawn k old s hold hs
  · cases hs.symm.trans hs'
    exact ⟨deep, calls, g₀, hdraw, hforward.trans
      (Update.complete_forward (roots_anything s) hforward.1 hcomplete).1⟩

theorem Traceable.move (hp : p.Sound) (h : Traceable p a) (hmove : Moves p a a') :
    Traceable p a' ∧ SameSettings a a' := by
  cases hmove with
  | update hupdate =>
    obtain ⟨f, hf, hok⟩ := hupdate
    exact h.update hp hf hok
  | invalidate f =>
    have hsame : SameSettings a (a.invalidate f) := ⟨rfl, rfl, rfl⟩
    refine ⟨⟨h.toAtRest.invalidate f, fun k info s hk hs => ?_⟩, hsame⟩
    obtain ⟨-, old, hold, rfl⟩ := find?_invalidate hk
    exact Draws.congr hsame (h.drawn k old s hold hs)
  | invalidateAll => exact ⟨traceable_of_empty rfl, rfl, rfl, rfl⟩

/-- **All full graphs of a run were drawn and reworked.** -/
theorem Traceable.run (hp : p.Sound) (h : Traceable p a) {requests : List Request}
    (hok : a.run p requests = .ok a') : Traceable p a' ∧ SameSettings a a' := by
  have hmoves := run_moves hok
  clear hok
  induction hmoves with
  | refl => exact ⟨h, .refl a⟩
  | tail _ hmove ih =>
    obtain ⟨hnext, hsame⟩ := ih.1.move hp hmove
    exact ⟨hnext, ih.2.trans hsame⟩

theorem Traceable.settled (h : Traceable p a) (hf : a.infos.find? f = some info)
    (hs : Scope.of? p f = some s) : Settled info.graph := by
  obtain ⟨_, _, _, -, hforward⟩ := h.drawn f info s hf hs
  exact hforward.1

/-- Graphs pass the check if checking was on from the start. -/
theorem Traceable.passes (h : Traceable p a') (hsame : SameSettings a a')
    (hf : a'.infos.find? f = some info) (hverify : a.config.verifyGraphs = true ∨
      info.graph.check false = .ok ()) : info.graph.check false = .ok () :=
  hverify.elim (fun hon => h.checked (hsame.config ▸ hon) f info hf) id

/-! ### What an instruction has drawn -/

/-- Instructions are drawn one after another, unless the graph is given up. -/
theorem drawInsts_split (before : List InstId) (g : Graph) {after : List InstId} {g' : Graph}
    {calls : List Call} (hok : a.drawInsts deep s (before ++ i :: after) g = .ok (g', calls))
    (hv : g'.valid = true) :
    ∃ g₁ calls₁ g₂ fs calls₂, a.drawInsts deep s before g = .ok (g₁, calls₁) ∧
    a.drawInst deep s i g₁ = .ok (g₂, fs) ∧ a.drawInsts deep s after g₂ = .ok (g', calls₂) := by
  -- A graph that was given up is not valid, which `hv` rules out.
  induction before generalizing g after g' calls with
  | nil =>
    obtain ⟨⟨g₂, fs⟩, hdraw, hok⟩ := bind_ok.mp hok
    dsimp only at hok
    split at hok
    · cases hok
      cases hv
    · obtain ⟨⟨g₃, more⟩, hmore, hok⟩ := bind_ok.mp hok
      cases hok
      exact ⟨g, [], g₂, fs, more, rfl, hdraw, hmore⟩
  | cons j before ih =>
    obtain ⟨⟨g₁, fs⟩, hdraw, hok⟩ := bind_ok.mp hok
    dsimp only at hok
    split at hok
    · cases hok
      cases hv
    · rename_i hsize
      obtain ⟨⟨g₂, more⟩, hmore, hok⟩ := bind_ok.mp hok
      cases hok
      obtain ⟨g₃, calls₃, g₄, fs₄, calls₄, hbefore, hhere, hafter⟩ := ih g₁ hmore hv
      refine ⟨g₃, callsAt ⟨s.id, j⟩ fs ++ calls₃, g₄, fs₄, calls₄, ?_, hhere, hafter⟩
      unfold drawInsts
      rw [hdraw, ok_bind]
      dsimp only
      rw [if_neg hsize, hbefore]
      rfl

theorem drawInsts_builds (hfunc : s.func.ResultsTraced) (is : List InstId) (g : Graph)
    (hs : Settled g) (hok : a.drawInsts deep s is g = .ok (g', calls)) (hv : g'.valid = true) :
    Builds s g g' := by
  replace hok := drawing_of_ok is g hok
  induction hok with
  | done => exact .refl hs
  | full => cases hv
  | next hdraw _ _ ih =>
    have hev := drawInst_builds hfunc hs hdraw
    exact hev.trans (ih hev.settled hv)

/-- The graph `g` is what has been drawn when the instruction `i` is the next. -/
def DrawnBefore (a : Analysis) (deep : Bool) (s : Scope) (i : InstId) (g : Graph) : Prop :=
  ∃ blocks before after calls, s.func.reachableBlocks = .ok blocks ∧
    s.func.instsOf blocks = .ok (before ++ i :: after) ∧
    a.drawInsts deep s before (.full s.id) = .ok (g, calls)

theorem DrawnBefore.congr (h : SameSettings a a') (hg : a'.DrawnBefore deep s i g) :
    a.DrawnBefore deep s i g := by
  obtain ⟨blocks, before, after, calls, hblocks, hinsts, hdraw⟩ := hg
  exact ⟨blocks, before, after, calls, hblocks, hinsts,
    (drawInsts_congr h before _).symm.trans hdraw⟩

/-- **What a reachable instruction has drawn is kept.** -/
theorem Traceable.inst_drawn (h : Traceable p a) (hp : p.Sound) (hf : a.infos.find? f = some info)
    (hs : Scope.of? p f = some s) (hv : info.graph.valid = true) (hreach : s.Reaches i) :
    ∃ deep g g' fs, a.DrawnBefore deep s i g ∧ Settled g ∧ g.valid = true ∧
    a.drawInst deep s i g = .ok (g', fs) ∧
      Forward g' info.graph := by
  have hfunc := (hp.of? hs).results
  obtain ⟨deep, calls, g₀, hdraw, hlater⟩ := h.drawn f info s hf hs
  obtain ⟨blocks, is, k, hblocks, his, hinsts, hlink⟩ := draw_ok hdraw
  have hk := drawInsts_grown hfunc is _ .of_empty hinsts
  obtain ⟨hvk, hlinked⟩ : k.valid = true ∧ Forward k g₀ := by
    rcases hlink with ⟨hvk, hlink⟩ | ⟨-, rfl⟩
    · exact ⟨hvk, (linkBlocks_builds hk.settled hlink).forward⟩
    · exact ⟨hlater.2.valid.symm.trans hv, .refl hk.settled⟩
  obtain ⟨blocks', hblocks', b, hb, blk, hblk, hmem⟩ := hreach
  cases hblocks.symm.trans hblocks'
  obtain ⟨before, after, rfl⟩ := List.append_of_mem (Update.mem_instsOf his hb hblk hmem)
  obtain ⟨g, calls₁, g', fs, calls₂, hbefore, hhere, hafter⟩ := drawInsts_split before _ hinsts hvk
  have hsettled := (drawInsts_grown hfunc before _ .of_empty hbefore).settled
  have hbuilt := drawInst_builds hfunc hsettled hhere
  have hrest := drawInsts_builds hfunc after g' hbuilt.settled hafter hvk
  exact ⟨deep, g, g', fs, ⟨blocks, before, after, calls₁, hblocks, his, hbefore⟩, hsettled,
    hbuilt.valid.symm.trans (hrest.valid.symm.trans hvk), hhere,
    (hrest.forward.trans hlinked).trans hlater⟩

end Analysis

end Escape
