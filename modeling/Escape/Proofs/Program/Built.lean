import Escape.Proofs.Program.Tables

/-!
# Built programs

Programs are built by steps, and each step that completes keeps the tables of every function in
order: the parameters are the first values and the arguments of the entry block, the results of an
instruction say so, and an instruction only reads values that are older than its results.

- `Program.Built.sound`: every function of a built program is sound.
-/

namespace Escape

/-! ### Functions -/

/-- The tables of a function are in order. -/
structure Func.Sound (f : Func) : Prop where
  /-- The arguments of the entry block are the first values. -/
  entry : ∃ blk, f.blocks[0]? = some blk ∧ blk.args = (List.range f.params.length).map ValueId.mk
  /-- These values are the parameters. -/
  params : ∀ i, i < f.params.length → ∃ x, f.values[i]? = some x ∧ x.origin = .argument i
  /-- No other value is a parameter. -/
  argument : ∀ (k : Nat) (x : Value) (i : Nat), f.values[k]? = some x → x.origin = .argument i →
    k = i ∧ i < f.params.length
  /-- The results of an instruction come from it. -/
  results : f.ResultsTraced
  /-- A result comes from an instruction that reads older values. -/
  operands : ∀ (k : Nat) (x : Value) (i : InstId) (j : Nat), f.values[k]? = some x →
    x.origin = .result i j → ∃ inst, f.insts[i.index]? = some inst ∧
    ∀ v ∈ inst.op.operands, v.index < k
  /-- The arguments of the other blocks were made for them. -/
  blockArgs : ∀ (b : Nat) (blk : Block), b ≠ 0 → f.blocks[b]? = some blk → ∀ v ∈ blk.args,
    ∃ x k, f.values[v.index]? = some x ∧ x.origin = .blockArg ⟨b⟩ k

/-- A result of an instruction is younger than what the instruction reads. -/
def Func.Ordered (f : Func) : Prop :=
  ∀ (k : Nat) (x : Value) (i : InstId) (j : Nat), f.values[k]? = some x → x.origin = .result i j →
    ∃ inst, f.insts[i.index]? = some inst ∧ ∀ v ∈ inst.op.operands, v.index < k

theorem Func.Sound.ordered {f : Func} (h : f.Sound) : f.Ordered :=
  h.operands

namespace Func

variable {f f' : Func}

/-- Values come from where they are listed, the parameters are the first values, and instructions
read values that are older than their results. -/
structure Orderly (f : Func) : Prop extends Indexed f where
  args : f.blocks[0]?.map (·.args) = some ((List.range f.params.length).map ValueId.mk)
  older : ∀ (i : Nat) (inst : Inst), f.insts[i]? = some inst → ∀ r ∈ inst.results,
    ∀ v ∈ inst.op.operands, v.index < r.index

namespace Orderly

variable (h : f.Orderly)
include h

theorem entry : ∃ blk, f.blocks[0]? = some blk ∧
    blk.args = (List.range f.params.length).map ValueId.mk :=
  Option.map_eq_some_iff.mp h.args

/-- The parameters are the first values. -/
theorem origin?_argument {v : ValueId} {j : Nat} :
    f.origin? v = some (.argument j) ↔ v.index = j ∧ j < f.params.length := by
  obtain ⟨blk, hblk, hargs⟩ := h.entry
  rw [h.arguments, ← argAt?_entry, argAt?]
  show f.blocks[0]?.bind (fun blk => blk.args[j]?) = some v ↔ _
  rw [hblk]
  show blk.args[j]? = some v ↔ _
  rw [hargs, List.getElem?_map, Option.map_eq_some_iff]
  constructor
  · rintro ⟨k, hk, rfl⟩
    obtain ⟨hlt, rfl⟩ := List.getElem?_eq_some_iff.mp hk
    rw [List.length_range] at hlt
    exact ⟨List.getElem_range _, hlt⟩
  · rintro ⟨rfl, hlt⟩
    exact ⟨v.index, List.getElem?_range hlt, rfl⟩

theorem sound : f.Sound where
  entry := h.entry
  params i hi := Option.map_eq_some_iff.mp ((h.origin?_argument (v := ⟨i⟩)).mpr ⟨rfl, hi⟩)
  argument k x i hk hx := by
    have ho : f.origin? ⟨k⟩ = some (.argument i) := by rw [origin?, hk, ← hx]; rfl
    exact h.origin?_argument.mp ho
  results := h.toIndexed.resultsTraced
  operands k x i j hk hx := by
    have ho : f.origin? ⟨k⟩ = some (.result i j) := by rw [origin?, hk, ← hx]; rfl
    obtain ⟨inst, hi, hj⟩ := Option.bind_eq_some_iff.mp ((h.results ⟨k⟩ i j).mp ho)
    exact ⟨inst, hi, h.older i.index inst hi ⟨k⟩ (List.mem_of_getElem? hj)⟩
  blockArgs b blk hb hblk v hv := by
    obtain ⟨j, hj⟩ := List.getElem?_of_mem hv
    have hlisted : f.argAt? ⟨b⟩ j = some v := by rw [argAt?, hblk]; exact hj
    have hother : (⟨b⟩ : BlockId) ≠ Func.entry := fun e => hb (congrArg BlockId.index e)
    obtain ⟨x, hx, ho⟩ := Option.map_eq_some_iff.mp ((h.blockArgs v ⟨b⟩ j).mpr ⟨hother, hlisted⟩)
    exact ⟨x, j, hx, ho⟩

/-- An instruction that is new has operands that exist. -/
theorem older_addInst (b : BlockId) {op : Operation}
    (hop : ∀ v ∈ op.operands, v.index < f.values.size) (resultTys : List TypeId) (i : Nat)
    (inst : Inst) (hi : (f.addInst b op resultTys).1.insts[i]? = some inst) :
    ∀ r ∈ inst.results, ∀ v ∈ inst.op.operands, v.index < r.index := by
  rw [insts_addInst, getElem?_push_eq_some] at hi
  rcases hi with hi | ⟨-, rfl⟩
  · exact h.older i inst hi
  · intro r hr v hv
    obtain ⟨j, hj⟩ := List.getElem?_of_mem hr
    replace hj : (f.addValues resultTys (.result ⟨f.insts.size⟩)).2[j]? = some r := hj
    obtain ⟨-, hindex⟩ := getElem?_snd_addValues.mp hj
    have hlt := hop v hv
    omega

/-- **Changes keep a function orderly**, if the operands of new instructions exist. -/
theorem change (hchange : f.Change (fun f _ op => ∀ v ∈ op.operands, v.index < f.values.size) f') :
    f'.Orderly := by
  obtain ⟨blk, hblk, -⟩ := h.entry
  have hentry : 0 < f.blocks.size := (Array.getElem?_eq_some_iff.mp hblk).1
  have hindexed := h.toIndexed.change hentry hchange
  cases hchange with
  | value ty => exact ⟨hindexed, h.args, h.older⟩
  | block argTys =>
    refine ⟨hindexed, ?_, h.older⟩
    rw [blocks_addBlock, Array.getElem?_push, if_neg (Nat.ne_of_lt hentry)]
    exact h.args
  | inst hop resultTys _ =>
    refine ⟨hindexed, Eq.trans ?_ h.args, h.older_addInst _ hop resultTys⟩
    exact map_getElem?_modify fun _ => rfl
  | stray hop resultTys _ => exact ⟨hindexed, h.args, h.older_addInst _ hop resultTys⟩
  | remove hok =>
    obtain ⟨inst, -, rfl⟩ := removeInst_ok hok
    refine ⟨hindexed, Eq.trans ?_ h.args, fun i inst hi => ?_⟩
    · exact map_getElem?_modify fun _ => rfl
    · obtain ⟨inst₀, hi₀, rfl⟩ := getElem?_modify_eq_some.mp hi
      have hold := h.older i inst₀ hi₀
      split
      · exact hold
      · exact hold

end Orderly

theorem declare_orderly (name : String) (params : List Param) (returnTy : Option TypeId) :
    (declare name params returnTy).Orderly := by
  have hinsts : (declare name params returnTy).insts = #[] := rfl
  refine ⟨declare_indexed name params returnTy, ?_, fun i inst hi => ?_⟩
  · simp [declare, addValues]
  · rw [hinsts, Array.getElem?_empty] at hi
    cases hi

end Func

/-! ### Steps -/

/-- All functions of a program are sound. -/
def Program.Sound (p : Program) : Prop := ∀ f fn, p.func? f = some fn → fn.Sound

/-- In all functions of a program the results of every instruction come from it. -/
def Program.ResultsTraced (p : Program) : Prop := ∀ f fn, p.func? f = some fn → fn.ResultsTraced

theorem Program.Sound.resultsTraced {p : Program} (h : p.Sound) : p.ResultsTraced :=
  fun f fn hf => (h f fn hf).results

/-- **Every program that steps make traces its results**, also if some of them stop with a fault. -/
theorem Draft.resultsTraced_of_assemble {steps : List Step} {d : Draft}
    (h : ({} : Draft).assemble steps = some d) : d.program.ResultsTraced := by
  have hempty : ∀ fn ∈ ({} : Draft).program.funcs, fn.Consistent := nofun
  intro f fn hf
  exact (consistent_of_assemble hempty h fn (Array.mem_of_getElem? hf)).toIndexed.resultsTraced

/-- The operands of the instruction that a step appends, if it appends one. -/
def Step.operands : Step → List ValueId
  | .append _ op _ | .inst _ op _ | .value _ op _ => op.operands
  | _ => []

/-- The number of values of the current function. -/
def Draft.values (d : Draft) : Nat := ((d.program.func? d.current).map (·.values.size)).getD 0

/-- The operands that a step uses are values that were made before. -/
def Step.Sound (d : Draft) (step : Step) : Prop := ∀ v ∈ step.operands, v.index < d.values

instance Step.decidableSound (d : Draft) : DecidablePred (Step.Sound d) := fun step =>
  inferInstanceAs (Decidable (∀ v ∈ step.operands, v.index < d.values))

/-- Runs steps, all of which have to be sound and to complete. -/
def Draft.run (d : Draft) : List Step → Option Draft
  | [] => some d
  | step :: rest =>
    if step.Sound d then
      match step.run d with
      | .ok _ d' => d'.run rest
      | .error _ _ => none
    else none

/-- A program that sound steps build. -/
def Program.Built (p : Program) : Prop := ∃ steps d, ({} : Draft).run steps = some d ∧ d.program = p

/-- The operands of what a sound step appends are values. -/
theorem Step.Sound.appended {d : Draft} {step : Step} (h : step.Sound d) :
    ∀ fn ∈ d.program.func? d.current, ∀ a ∈ step.appended?, ∀ v ∈ a.2.operands,
    v.index < fn.values.size := by
  intro fn hfn a ha v hv
  have hsize : d.values = fn.values.size := by rw [Draft.values, hfn]; rfl
  rw [← hsize]
  cases step with
  | append b op tys | inst b op given | value b op given =>
    cases ha
    exact h v hv
  | _ => cases ha

theorem Draft.orderly_of_run {d d' : Draft} {steps : List Step}
    (h : ∀ fn ∈ d.program.funcs, fn.Orderly) (hrun : d.run steps = some d') :
    ∀ fn ∈ d'.program.funcs, fn.Orderly := by
  induction steps generalizing d with
  | nil =>
    cases hrun
    exact h
  | cons step rest ih =>
    rw [Draft.run] at hrun
    split at hrun
    · rename_i hstep
      split at hrun
      · rename_i reply d₁ hok
        have halters : step.run.Alters (fun f _ op => ∀ v ∈ op.operands,
          v.index < f.values.size) d :=
          Step.alters hstep.appended
        rw [Edit.Alters, Edit.after_of_ok hok] at halters
        exact ih (halters.forall_mem Func.declare_orderly (fun _ _ => Func.Orderly.change) h) hrun
      · cases hrun
    · cases hrun

/-- **All functions of a built program are sound.** -/
theorem Program.Built.sound {p : Program} (h : p.Built) : p.Sound := by
  obtain ⟨steps, d, hrun, rfl⟩ := h
  have hempty : ∀ fn ∈ ({} : Draft).program.funcs, fn.Orderly := nofun
  intro f fn hf
  exact (Draft.orderly_of_run hempty hrun fn (Array.mem_of_getElem? hf)).sound

end Escape
