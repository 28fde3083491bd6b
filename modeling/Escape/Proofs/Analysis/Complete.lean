import Escape.Analysis.Fixpoint
import Escape.Proofs.Graph.UsePoints
import Escape.Proofs.Program.Scopes

/-!
# Completed graphs

In the end the contents of all pointers of a function are made, states are pushed along all edges,
and use points are worked out. If every operand is a value of a reachable block, the last step finds
all contents in place, so it leaves the states closed.

- `Update.complete_spec`: a completed graph is closed, its use points are covered, all pointers of
  reachable blocks have their contents, and the operands of calls and releases are used.
- `Update.complete_appends`: if states were closed before, nothing changes for the nodes that were
  there.
-/

namespace Escape

variable {s : Scope} {v : ValueId} {blocks : List BlockId} {g g' : Graph} {P : ValueId → Prop}

/-! ### Values of a function -/

/-- The value is a parameter, or an argument or a result in one of the blocks. -/
def Scope.Placed (s : Scope) (blocks : List BlockId) (v : ValueId) : Prop :=
  (∃ args, s.func.arguments = .ok args ∧ v ∈ args) ∨
    ∃ b ∈ blocks, ∃ blk, s.func.block b = .ok blk ∧
      (v ∈ blk.args ∨ ∃ i ∈ blk.insts, ∃ inst, s.func.inst i = .ok inst ∧ v ∈ inst.results)

instance (s : Scope) (blocks : List BlockId) (v : ValueId) : Decidable (s.Placed blocks v) :=
  inferInstanceAs (Decidable (_ ∨ _))

/-- Every operand of an instruction is undefined, or a value of the blocks. -/
def Scope.PlacedIn (s : Scope) (blocks : List BlockId) (i : InstId) : Prop :=
  ∀ inst, s.func.inst i = .ok inst → ∀ v ∈ inst.op.operands, s.isUndefined v = .ok true ∨
    s.Placed blocks v

instance (s : Scope) (blocks : List BlockId) (i : InstId) : Decidable (s.PlacedIn blocks i) :=
  inferInstanceAs (Decidable (∀ inst, s.func.inst i = .ok inst → _))

/-- Every operand of an instruction in a reachable block is undefined, or a value of a reachable
block. -/
def Scope.OperandsPlaced (s : Scope) : Prop :=
  ∀ blocks, s.func.reachableBlocks = .ok blocks → ∀ b ∈ blocks, ∀ blk, s.func.block b = .ok blk →
    ∀ i ∈ blk.insts, s.PlacedIn blocks i

instance (s : Scope) : Decidable s.OperandsPlaced :=
  inferInstanceAs (Decidable (∀ blocks, s.func.reachableBlocks = .ok blocks → _))

/-- The same for all functions of a program. -/
def Program.OperandsPlaced (p : Program) : Prop := ∀ f s, Scope.of? p f = some s → s.OperandsPlaced

instance (p : Program) : Decidable p.OperandsPlaced :=
  decidable_of_iff (∀ i < p.funcs.size, ∀ s ∈ Scope.of? p ⟨i⟩, s.OperandsPlaced) <| by
    constructor
    · intro h f s hs
      obtain ⟨fn, hfn, -⟩ := Option.map_eq_some_iff.mp hs
      exact h f.index (Array.getElem?_eq_some_iff.mp hfn).1 s hs
    · exact fun h i _ s hs => h ⟨i⟩ s hs

/-- All pointers among the values of the blocks are found. -/
theorem Update.mem_pointerValues {vs : List ValueId} (h : Update.pointerValues s blocks = .ok vs)
    (hv : s.Placed blocks v) (hp : s.isPointer v = .ok true) : v ∈ vs := by
  obtain ⟨args, hargs, h⟩ := bind_ok.mp h
  obtain ⟨found, hfound, h⟩ := bind_ok.mp h
  refine Checked.filterM_ok h v ?_ hp
  rcases hv with ⟨args', hargs', hv⟩ | ⟨b, hb, blk, hblk, hv⟩
  · cases hargs.symm.trans hargs'
    exact List.mem_append_left _ hv
  · obtain ⟨ws, hws, hin⟩ := Checked.mapM_ok hfound b hb
    obtain ⟨blk', hblk', hin⟩ := bind_ok.mp hin
    cases hblk.symm.trans hblk'
    obtain ⟨results, hresults, hin⟩ := bind_ok.mp hin
    cases hin
    rcases hv with hv | ⟨i, hi, inst, hinst, hv⟩
    · by_cases he : b = Func.entry
      · -- the arguments of the entry are the parameters
        subst he
        have : args = blk.args := by
          obtain ⟨e, he, hargs⟩ := bind_ok.mp hargs
          cases he.symm.trans hblk
          cases hargs
          rfl
        exact List.mem_append_left _ (this ▸ hv)
      · refine List.mem_append_right _ (List.mem_flatten.mpr ⟨_, hws, ?_⟩)
        rw [if_neg he]
        exact List.mem_append_left _ hv
    · refine List.mem_append_right _ (List.mem_flatten.mpr ⟨_, hws, List.mem_append_right _ ?_⟩)
      obtain ⟨rs, hrs, hinst'⟩ := Checked.mapM_ok hresults i hi
      obtain ⟨inst', hinst'', hrs'⟩ := bind_ok.mp hinst'
      cases hinst.symm.trans hinst''
      cases hrs'
      exact List.mem_flatten.mpr ⟨_, hrs, hv⟩

/-- An undefined value does not enter a graph. -/
theorem Scope.anchor?_of_undefined (h : s.isUndefined v = .ok true) (a : Scope.Anchor) :
    s.anchor? v ≠ .ok (some a) := by
  intro ha
  obtain ⟨-, -, hroot, hdef, -⟩ := Scope.anchor?_ok ha
  obtain ⟨x, hx, horigin⟩ := bind_ok.mp h
  have hbase : s.base? v = .ok none := by
    have horigin : x.origin = .undefined := of_decide_eq_true (Except.ok.inj horigin)
    rw [Scope.base?, Func.definition?, Func.definer?, hx, ok_bind, horigin]
    rfl
  cases hroot.symm.trans (Scope.root_of_base?_none hbase)
  cases hdef.symm.trans h

/-! ### Completing a graph -/

namespace Update

open Escape.Graph

/-- A graph in which no instruction has a use point yet. -/
def Unused (g : Graph) : Prop := g.usePoints = {} ∧ g.users = #[]

theorem Unused.header (h : Unused g) (hh : g'.header = g.header) : Unused g' :=
  ⟨(congrArg (·.2.1) hh :).trans h.1, (congrArg (·.2.2) hh :).trans h.2⟩

/-- What asking for the contents of some pointers does. -/
theorem contents_spec (hP : s.Roots P) {vs : List ValueId} (hs : Settled g) (hv : g.valid = true)
    (hok : vs.foldlM (fun g v => return (← g.contentFor s v).1) g = .ok g') :
    Deepens P g g' ∧ g'.header = g.header ∧ ∀ v ∈ vs, Filled s g' v := by
  refine foldlM_of_ok (P := fun done k => Deepens P g k ∧ k.header = g.header ∧
    ∀ v ∈ done, Filled s k v) ?_ ⟨.refl hs, rfl, nofun⟩ hok
  rintro done v rest k k' - ⟨hdk, hhk, hdone⟩ hstep
  obtain ⟨⟨k₁, c?⟩, h₁, hstep⟩ := bind_ok.mp hstep
  cases hstep
  obtain ⟨hev, -⟩ := contentFor_evolves (P := anything) (B := anything)
    (roots_anything s) hdk.settled h₁
  have hd := contentFor_deepens hP hdk.settled h₁
  refine ⟨hdk.trans hd, hev.header.trans hhk, fun w hw => ?_⟩
  rcases List.mem_append.mp hw with hw | hw
  · exact (hdone w hw).appends hdk.settled hd.toAppends
  · cases List.mem_singleton.mp hw
    exact contentFor_filled hdk.settled (hdk.valid.trans hv) h₁

/-- A graph without use points that passes the check before they are worked out. -/
theorem counted_of_unused (hu : Unused g) (hempty : g.nodes.all (·.usePoints.isEmpty) = true) :
    Counted g := by
  have hbits (n : NodeId) : (g.node n).usePoints.bits = [] := by
    by_cases hn : g.Has n
    · have hmem : g.node n ∈ g.nodes := by
        rw [node, Array.getD_eq_getD_getElem?, Array.getElem?_eq_getElem hn]
        exact Array.getElem_mem _
      exact List.isEmpty_iff.mp (Array.all_eq_true_iff_forall_mem.mp hempty _ hmem)
    · rw [node_of_not_has hn]
  refine ⟨fun n => ?_, fun n u hm => ?_, fun i u hi => ?_⟩
  · rw [UsePointSet.Sorted, hbits]
    exact .nil
  · rw [hbits] at hm
    cases hm
  · rw [hu.1] at hi
    cases hi

/-- What holds of a completed graph. -/
structure Complete (s : Scope) (blocks : List BlockId) (g : Graph) : Prop where
  settled : Settled g
  closed : Closed g
  covered : Covered g
  filled : ∀ v, s.Placed blocks v → s.isPointer v = .ok true → Filled s g v
  uses : ∀ b ∈ blocks, ∀ blk, s.func.block b = .ok blk → ∀ i ∈ blk.insts,
    ForOperands s i (Uses s g i) ∧ ForOperands s i (Filled s g)

theorem mem_instsOf {insts : List InstId} (h : s.func.instsOf blocks = .ok insts) {b : BlockId}
    (hb : b ∈ blocks) {blk : Block} (hblk : s.func.block b = .ok blk) {i : InstId}
    (hi : i ∈ blk.insts) : i ∈ insts := by
  obtain ⟨lists, hlists, h⟩ := bind_ok.mp h
  cases h
  obtain ⟨l, hl, hin⟩ := Checked.mapM_ok hlists b hb
  obtain ⟨blk', hblk', hin⟩ := bind_ok.mp hin
  cases hblk.symm.trans hblk'
  cases hin
  exact List.mem_flatten.mpr ⟨_, hl, hi⟩

theorem of_mem_instsOf {insts : List InstId} (h : s.func.instsOf blocks = .ok insts) {i : InstId}
    (hi : i ∈ insts) : ∃ b ∈ blocks, ∃ blk, s.func.block b = .ok blk ∧ i ∈ blk.insts := by
  obtain ⟨lists, hlists, h⟩ := bind_ok.mp h
  cases h
  obtain ⟨l, hl, hil⟩ := List.mem_flatten.mp hi
  obtain ⟨b, hb, hin⟩ := Checked.of_mem_mapM hlists l hl
  obtain ⟨blk, hblk, hin⟩ := bind_ok.mp hin
  cases hin
  exact ⟨b, hb, blk, hblk, hil⟩

/-- The steps of completing a graph. -/
theorem complete_ok (hv : g.valid = true) (hok : complete s g = .ok g') :
    ∃ blocks vs g₁, s.func.reachableBlocks = .ok blocks ∧ pointerValues s blocks = .ok vs ∧
      vs.foldlM (fun g v => return (← g.contentFor s v).1) g = .ok g₁ ∧
      g₁.propagate.1.computeUsePoints s blocks = .ok g' := by
  unfold complete at hok
  rw [hv] at hok
  obtain ⟨blocks, hblocks, hok⟩ := bind_ok.mp hok
  obtain ⟨vs, hvs, hok⟩ := bind_ok.mp hok
  obtain ⟨g₁, h₁, hok⟩ := bind_ok.mp hok
  exact ⟨blocks, vs, g₁, hblocks, hvs, h₁, hok⟩

/-- **A completed graph.** -/
theorem complete_spec (hs : Settled g) (hv : g.valid = true) (hu : Unused g)
    (hplaced : s.OperandsPlaced) (hblocks : s.func.reachableBlocks = .ok blocks)
    (hok : complete s g = .ok g') : Complete s blocks g' := by
  obtain ⟨blocks', vs, g₁, hblocks', hvs, h₁, hok⟩ := complete_ok hv hok
  cases hblocks.symm.trans hblocks'
  obtain ⟨hempty, insts, g₂, hinsts, h₂, rfl⟩ := computeUsePoints_ok hok
  -- all contents, and the states
  obtain ⟨hd₁, hh₁, hfilled₁⟩ := contents_spec (roots_anything s) hs hv h₁
  have hs₁ := hd₁.settled
  have hr := propagate_raises g₁
  have hsp := hr.settled hs₁
  have hclosed := propagate_closed hs₁
  have hfilled : ∀ v, s.Placed blocks v → s.isPointer v = .ok true → Filled s g₁.propagate.1 v :=
    fun v hp hptr => (hfilled₁ v (mem_pointerValues hvs hp hptr)).raises hs₁ hr
  have hcount := counted_of_unused (hu.header (hr.header.trans hh₁)) hempty
  have hvalid : g₁.propagate.1.valid = true := by
    rw [hr.valid, hd₁.valid, hv]
  -- the operands of all instructions are filled
  have hoperand : ∀ b ∈ blocks, ∀ blk, s.func.block b = .ok blk → ∀ i ∈ blk.insts,
      ForOperands s i (Filled s g₁.propagate.1) := by
    intro b hb blk hblk i hi inst hinst _ v hvop
    rcases hplaced blocks hblocks b hb blk hblk i hi inst hinst v hvop with hundef | hp
    · exact fun a ha => absurd ha (Scope.anchor?_of_undefined hundef a)
    · intro a ha
      exact hfilled v hp (Scope.anchor?_ok ha).2.1 a ha
  have hall : ∀ i ∈ insts, ForOperands s i (Filled s g₁.propagate.1) := by
    intro i hi
    obtain ⟨b, hb, blk, hblk, hib⟩ := of_mem_instsOf hinsts hi
    exact hoperand b hb blk hblk i hib
  -- the use points
  obtain ⟨hs₂, hm₂, hcount₂, huses⟩ := useInsts_spec hsp hcount hvalid hall h₂
  have hpush := propagateUsePoints_induct (Q := Pushes g₂) (fun _ n hh => hh.step n)
    (g₂.size * g₂.users.size + 1) ⟨.refl g₂, hs₂, hcount₂, rfl⟩
  have hcov := propagateUsePoints_covered (g₂.size * g₂.users.size + 1) g₂ hs₂ hcount₂ (by omega)
  have hm := hm₂.trans hpush.toMarks
  refine ⟨hpush.settled, hm.closed hsp hclosed, hcov,
    fun v hp hptr => (hfilled v hp hptr).appends hsp hm.toAppends, fun b hb blk hblk i hi => ?_⟩
  have hfill := hoperand b hb blk hblk i hi
  refine ⟨fun inst hinst hop v hvop => ?_, hfill.mono fun v h => h.appends hsp hm.toAppends⟩
  refine (huses i (mem_instsOf hinsts hb hblk hi) inst hinst hop v hvop).marks hs₂ ?_ hpush.toMarks
  exact (hfill inst hinst hop v hvop).appends hsp hm₂.toAppends

/-! ### What was there before -/

/-- Completing a graph loses nothing, and values in `P` enter it. -/
theorem complete_forward (hP : s.Roots P) (hs : Settled g) (hok : complete s g = .ok g') :
    Forward g g' ∧ ∀ r n, g'.At r n → P r ∨ ∃ m, g.At r m := by
  cases hv : g.valid with
  | false =>
    rw [complete, hv] at hok
    cases hok
    exact ⟨.refl hs, fun r n hr => .inr ⟨n, hr⟩⟩
  | true =>
    obtain ⟨blocks, vs, g₁, -, -, h₁, hok⟩ := complete_ok hv hok
    obtain ⟨hd₁, -, -⟩ := contents_spec hP hs hv h₁
    have hr := propagate_raises g₁
    have hp : Forward g₁ g₁.propagate.1 :=
      (Evolves.raises (P := anything) (B := anything) hd₁.settled hr).forward
    have hd := computeUsePoints_deepens hP hp.1 hok
    refine ⟨(hd₁.forward hs).trans (hp.trans (hd.forward hp.1)), fun r n hn => ?_⟩
    rcases hd.entered r n hn with hPr | ⟨m, hm⟩
    · exact .inl hPr
    · exact hd₁.entered r m ((hr.sameEdges.at_iff hd₁.settled.forest hr.values).mp hm)

/-- **Nothing changes for the nodes that were there**, if states were closed. -/
theorem complete_appends (hs : Settled g) (hc : Closed g) (hok : complete s g = .ok g') :
    Appends g g' := by
  cases hv : g.valid with
  | false =>
    rw [complete, hv] at hok
    cases hok
    exact .refl _
  | true =>
    obtain ⟨blocks, vs, g₁, -, -, h₁, hok⟩ := complete_ok hv hok
    obtain ⟨hd₁, -, -⟩ := contents_spec (roots_anything s) hs hv h₁
    have hsp := (propagate_raises g₁).settled hd₁.settled
    exact (hd₁.propagate hs hd₁.settled hc).trans
      (computeUsePoints_deepens (roots_anything s) hsp hok).toAppends

/-- All pointers of the reachable blocks have their contents, and so have all operands of calls and
releases. -/
theorem complete_filled (hs : Settled g) (hv : g.valid = true)
    (hblocks : s.func.reachableBlocks = .ok blocks) (hok : complete s g = .ok g') :
    (∀ v, s.Placed blocks v → s.isPointer v = .ok true → Filled s g' v) ∧
      ∀ b ∈ blocks, ∀ blk, s.func.block b = .ok blk → ∀ i ∈ blk.insts,
      ForOperands s i (Filled s g') := by
  obtain ⟨blocks', vs, g₁, hblocks', hvs, h₁, hok⟩ := complete_ok hv hok
  cases hblocks.symm.trans hblocks'
  obtain ⟨hd₁, -, hfilled₁⟩ := contents_spec (roots_anything s) hs hv h₁
  have hr := propagate_raises g₁
  have hsp := hr.settled hd₁.settled
  have hd := computeUsePoints_deepens (roots_anything s) hsp hok
  obtain ⟨-, insts, g₂, hinsts, h₂, rfl⟩ := computeUsePoints_ok hok
  refine ⟨fun v hp hptr => ?_, fun b hb blk hblk i hi => ?_⟩
  · exact ((hfilled₁ v (mem_pointerValues hvs hp hptr)).raises hd₁.settled
      hr).appends hsp hd.toAppends
  · have hvalid : g₁.propagate.1.valid = true := by
      rw [hr.valid, hd₁.valid, hv]
    have huse : Deepens anything g₁.propagate.1 g₂ ∧ ∀ i ∈ insts,
        ForOperands s i (Filled s g₂) := by
      refine foldlM_of_ok (P := fun done k => Deepens anything g₁.propagate.1 k ∧
        ∀ i ∈ done, ForOperands s i (Filled s k)) ?_ ⟨.refl hsp, nofun⟩ h₂
      rintro done i rest k k' - ⟨hdk, hdone⟩ hstep
      have hd' := useInst_deepens (roots_anything s) hdk.settled hstep
      refine ⟨hdk.trans hd', fun j hj => ?_⟩
      rcases List.mem_append.mp hj with hj | hj
      · exact (hdone j hj).mono fun v h => h.appends hdk.settled hd'.toAppends
      · cases List.mem_singleton.mp hj
        exact useInst_filled hdk.settled (hdk.valid.trans hvalid) hstep
    refine (huse.2 i (mem_instsOf hinsts hb hblk hi)).mono fun v h => h.appends huse.1.settled ?_
    exact (propagateUsePoints_deepens (P := anything) _ huse.1.settled).toAppends

end Update

end Escape
