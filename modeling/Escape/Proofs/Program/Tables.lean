import Escape.Proofs.Program.Changes

/-!
# The tables of a function agree

Blocks, instructions and values are kept in three tables that refer to each other: a value says
where it comes from, and instructions and blocks list their results, their arguments and their
instructions. Whatever steps build and change a program, the references of each table are those of
the others. This holds for every step that appends instructions to blocks that exist, also for one
that stops with a fault.

- `Func.Indexed.change`, `Func.Placed.change`: changes of a function keep this.
- `Draft.tables_agree`: **all tables of all functions agree, after any steps.**
-/

namespace Escape

namespace Func

variable {f f' : Func} {v : ValueId} {i : InstId} {b : BlockId} {j : Nat}
  {A : Func → BlockId → Operation → Prop} {tys : List TypeId} {origin : Nat → Origin}

/-! ### Listed values -/

/-- Where a value comes from. -/
def origin? (f : Func) (v : ValueId) : Option Origin := f.values[v.index]?.map (·.origin)

/-- The result of an instruction at a position. -/
def resultAt? (f : Func) (i : InstId) (j : Nat) : Option ValueId :=
  f.insts[i.index]?.bind (·.results[j]?)

/-- The argument of a block at a position. -/
def argAt? (f : Func) (b : BlockId) (j : Nat) : Option ValueId :=
  f.blocks[b.index]?.bind (·.args[j]?)

theorem argAt?_entry : f.argAt? entry j = some v ↔ ∃ args, f.arguments = .ok args ∧
    args[j]? = some v := by
  simp only [argAt?, arguments, block, bind_ok, Checked.get_ok, Checked.pure_ok,
    Option.bind_eq_some_iff]
  simp

/-- Values come from where they are listed, and are listed where they come from. -/
structure Indexed (f : Func) : Prop where
  results : ∀ v i j, f.origin? v = some (.result i j) ↔ f.resultAt? i j = some v
  blockArgs : ∀ v b j, f.origin? v = some (.blockArg b j) ↔ b ≠ entry ∧ f.argAt? b j = some v
  /-- The arguments of the entry are the parameters of the function. -/
  arguments : ∀ v j, f.origin? v = some (.argument j) ↔ ∃ args, f.arguments = .ok args ∧
    args[j]? = some v
  types : ∀ v j, f.origin? v = some (.argument j) → ∃ p, f.params[j]? = some p ∧
    f.typeOf v = .ok p.ty

/-- The results of every instruction come from it. -/
def ResultsTraced (f : Func) : Prop :=
  ∀ (i : Nat) (inst : Inst), f.insts[i]? = some inst → ∀ r ∈ inst.results,
    ∃ x k, f.values[r.index]? = some x ∧ x.origin = .result ⟨i⟩ k

theorem Indexed.resultsTraced (h : f.Indexed) : f.ResultsTraced := by
  intro i inst hi r hr
  obtain ⟨j, hj⟩ := List.getElem?_of_mem hr
  have hlisted : f.resultAt? ⟨i⟩ j = some r := by rw [resultAt?, hi]; exact hj
  obtain ⟨x, hx, ho⟩ := Option.map_eq_some_iff.mp ((h.results r ⟨i⟩ j).mpr hlisted)
  exact ⟨x, j, hx, ho⟩

/-- Every instruction belongs to a block, and the blocks list the instructions that were not
removed. -/
structure Placed (f : Func) : Prop where
  entry : entry.index < f.blocks.size
  owner : ∀ (i : InstId) (inst : Inst), f.insts[i.index]? = some inst →
    inst.block.index < f.blocks.size
  listed : ∀ (b : BlockId) (blk : Block), f.blocks[b.index]? = some blk → ∀ i ∈ blk.insts,
    i.index < f.insts.size
  /-- An instruction is listed once, by its own block, or nowhere if it was removed. -/
  count : ∀ (i : InstId) (inst : Inst) (b : BlockId) (blk : Block), f.insts[i.index]? = some inst →
    f.blocks[b.index]? = some blk → blk.insts.count i = if inst.deleted = false ∧
    inst.block = b then 1 else 0

/-- The tables of a function agree. -/
structure Consistent (f : Func) : Prop extends Indexed f, Placed f

/-! ### Tables that grow -/

theorem getElem?_push_eq_some {α : Type} {xs : Array α} {x y : α} {k : Nat} :
    (xs.push x)[k]? = some y ↔ xs[k]? = some y ∨ k = xs.size ∧ x = y := by
  rw [Array.getElem?_push]
  split
  · rename_i hk
    subst hk
    simp
  · rename_i hk
    simp [hk]

theorem getElem?_modify_eq_some {α : Type} {xs : Array α} {change : α → α} {y : α} {k n : Nat} :
    (xs.modify n change)[k]? = some y ↔ ∃ x, xs[k]? = some x ∧
    (if n = k then change x else x) = y := by
  rw [Array.getElem?_modify]
  split <;> simp

/-- A change of an entry that keeps what is read from it. -/
theorem bind_getElem?_modify {α β : Type} {xs : Array α} {change : α → α} {view : α → Option β}
    {k n : Nat} (h : ∀ x, view (change x) = view x) :
    (xs.modify n change)[k]?.bind view = xs[k]?.bind view := by
  rw [Array.getElem?_modify]
  split
  · cases xs[k]? with
    | none => rfl
    | some x => exact h x
  · rfl

theorem map_getElem?_modify {α β : Type} {xs : Array α} {change : α → α} {view : α → β} {k n : Nat}
    (h : ∀ x, view (change x) = view x) : (xs.modify n change)[k]?.map view = xs[k]?.map view := by
  rw [Option.map_eq_bind, Option.map_eq_bind]
  exact bind_getElem?_modify fun x => congrArg some (h x)

theorem typeOf_ok {ty : TypeId} : f.typeOf v = .ok ty ↔ ∃ x, f.values[v.index]? = some x ∧
    x.ty = ty := by
  simp only [typeOf, bind_ok, value, Checked.get_ok, Checked.pure_ok]

theorem getElem?_snd_addValues :
    (f.addValues tys origin).2[j]? = some v ↔ j < tys.length ∧ v.index = f.values.size + j := by
  simp only [addValues, List.getElem?_map, Option.map_eq_some_iff]
  constructor
  · rintro ⟨k, hk, rfl⟩
    obtain ⟨hlt, rfl⟩ := List.getElem?_eq_some_iff.mp hk
    rw [List.length_range] at hlt
    rw [List.getElem_range]
    exact ⟨hlt, rfl⟩
  · rintro ⟨hlt, hv⟩
    exact ⟨j, by rw [List.getElem?_range hlt], by rw [← hv]⟩

theorem getElem?_addValues (f : Func) (tys : List TypeId) (origin : Nat → Origin) (k : Nat) :
    (f.addValues tys origin).1.values[k]? =
      if k < f.values.size then f.values[k]?
      else tys[k - f.values.size]?.map fun ty => ⟨ty, origin (k - f.values.size)⟩ := by
  simp only [addValues, Array.getElem?_append]
  split <;> simp

/-- A value comes from where it came from before, or is one of the values that are made. -/
theorem origin?_addValues {o : Origin} :
    (f.addValues tys origin).1.origin? v = some o ↔
      f.origin? v = some o ∨ ∃ j, (f.addValues tys origin).2[j]? = some v ∧ origin j = o := by
  simp only [origin?, getElem?_addValues, getElem?_snd_addValues]
  split
  · rename_i hold
    refine ⟨.inl, fun h => h.resolve_right ?_⟩
    rintro ⟨j, ⟨-, hv⟩, -⟩
    omega
  · rename_i hnew
    have hnone : f.values[v.index]? = none := Array.getElem?_eq_none (Nat.not_lt.mp hnew)
    rw [hnone]
    simp only [Option.map_none, reduceCtorEq, false_or, Option.map_map, Option.map_eq_some_iff,
      List.getElem?_eq_some_iff]
    constructor
    · rintro ⟨ty, ⟨hlt, -⟩, ho⟩
      exact ⟨v.index - f.values.size, ⟨hlt, by omega⟩, ho⟩
    · rintro ⟨j, ⟨hlt, hv⟩, ho⟩
      have hj : v.index - f.values.size = j := by omega
      exact ⟨tys[j], ⟨by omega, by simp only [hj]⟩, by rw [← ho]; simp [hj]⟩

theorem blocks_addBlock (f : Func) (argTys : List TypeId) : (f.addBlock argTys).1.blocks =
    f.blocks.push { args := (f.addValues argTys (.blockArg ⟨f.blocks.size⟩)).2 } :=
  rfl

theorem insts_addInst (f : Func) (b : BlockId) (op : Operation) (resultTys : List TypeId) :
    (f.addInst b op resultTys).1.insts =
      f.insts.push
        { op, results := (f.addValues resultTys (.result ⟨f.insts.size⟩)).2, block := b } :=
  rfl

/-- The instruction leaves its block and is marked deleted. -/
theorem removeInst_ok (hok : f.removeInst i = .ok f') : ∃ inst,
    f.insts[i.index]? = some inst ∧ f' = { f with
      blocks := f.blocks.modify inst.block.index fun blk =>
        { blk with insts := blk.insts.filter (· ≠ i) }
      insts := f.insts.modify i.index fun inst => { inst with deleted := true } } := by
  obtain ⟨inst, hi, hok⟩ := bind_ok.mp hok
  obtain ⟨_, -, hok⟩ := bind_ok.mp hok
  cases hok
  exact ⟨inst, Checked.get_ok.mp hi, rfl⟩

namespace Indexed

variable (h : f.Indexed)
include h

/-- A change that leaves values, results and arguments alone. -/
theorem of_views (hv : f'.values = f.values) (hp : f'.params = f.params)
    (hr : ∀ i j, f'.resultAt? i j = f.resultAt? i j) (ha : ∀ b j, f'.argAt? b j = f.argAt? b j) :
    f'.Indexed where
  results v i j := by
    rw [origin?, hv, hr]
    exact h.results v i j
  blockArgs v b j := by
    rw [origin?, hv, ha]
    exact h.blockArgs v b j
  arguments v j := by
    rw [origin?, hv, ← argAt?_entry, ha, argAt?_entry]
    exact h.arguments v j
  types v j := by
    rw [origin?, hv, hp, typeOf, value, hv]
    exact h.types v j

/-- Making values and listing them where they come from. -/
theorem addValues (hv : f'.values = (f.addValues tys origin).1.values) (hp : f'.params = f.params)
    (hr : ∀ v i j, f'.resultAt? i j = some v ↔
      f.resultAt? i j = some v ∨ ∃ k, (f.addValues tys origin).2[k]? = some v ∧
      origin k = .result i j)
    (hb : ∀ v b j, b ≠ entry → (f'.argAt? b j = some v ↔
      f.argAt? b j = some v ∨ ∃ k, (f.addValues tys origin).2[k]? = some v ∧
      origin k = .blockArg b j))
    (hb₀ : ∀ k j, origin k ≠ .blockArg entry j)
    (ha : ∀ v j, f'.argAt? entry j = some v ↔
      f.argAt? entry j = some v ∨ ∃ k, (f.addValues tys origin).2[k]? = some v ∧
      origin k = .argument j)
    (ht : ∀ v k j, (f.addValues tys origin).2[k]? = some v → origin k = .argument j →
      ∃ p, f.params[j]? = some p ∧ f'.typeOf v = .ok p.ty) : f'.Indexed := by
  have ho : ∀ v o, f'.origin? v = some o ↔
      f.origin? v = some o ∨ ∃ k, (f.addValues tys origin).2[k]? = some v ∧
      origin k = o := fun v o => by
    rw [origin?, hv]
    exact origin?_addValues
  refine ⟨fun v i j => ?_, fun v b j => ?_, fun v j => ?_, fun v j hj => ?_⟩
  · rw [ho, h.results, hr]
  · rw [ho, h.blockArgs]
    by_cases hentry : b = entry
    · subst hentry
      simp [hb₀]
    · simp only [hb v b j hentry, ne_eq, hentry, not_false_eq_true, true_and]
  · rw [ho, h.arguments, ← argAt?_entry, ← argAt?_entry, ha]
  · rw [hp]
    rcases (ho v (.argument j)).mp hj with hj | ⟨k, hk, hkj⟩
    · obtain ⟨p, hpj, hty⟩ := h.types v j hj
      obtain ⟨x, hx, hxty⟩ := typeOf_ok.mp hty
      refine ⟨p, hpj, typeOf_ok.mpr ⟨x, ?_, hxty⟩⟩
      rw [hv, getElem?_addValues, if_pos (Array.getElem?_eq_some_iff.mp hx).1, hx]
    · exact ht v k j hk hkj

theorem addValue (ty : TypeId) : (f.addValue ty .undefined).1.Indexed := by
  have hvalues : (f.addValue ty .undefined).1.values =
    (f.addValues [ty] fun _ => .undefined).1.values := rfl
  exact h.addValues hvalues rfl (fun v i j => by simp; rfl) (fun v b j _ => by simp; rfl) nofun
    (fun v j => by simp; rfl) nofun

theorem addBlock (hentry : entry.index < f.blocks.size) (argTys : List TypeId) :
    (f.addBlock argTys).1.Indexed := by
  have hargs : ∀ v b j, (f.addBlock argTys).1.argAt? b j = some v ↔ f.argAt? b j = some v ∨
      ∃ k, (f.addValues argTys (.blockArg ⟨f.blocks.size⟩)).2[k]? = some v ∧
        Origin.blockArg ⟨f.blocks.size⟩ k = .blockArg b j := fun v b j => by
    simp only [argAt?, blocks_addBlock, Option.bind_eq_some_iff, getElem?_push_eq_some,
      or_and_right, exists_or]
    refine or_congr_right ⟨?_, ?_⟩
    · rintro ⟨blk, ⟨hb, rfl⟩, hj⟩
      exact ⟨j, hj, by rw [← hb]⟩
    · rintro ⟨k, hk, ho⟩
      cases ho
      exact ⟨_, ⟨rfl, rfl⟩, hk⟩
  have hnew : ∀ k j, Origin.blockArg ⟨f.blocks.size⟩ k ≠ .blockArg entry j := fun k j ho => by
    obtain ⟨hb, -⟩ := Origin.blockArg.inj ho
    rw [← hb] at hentry
    exact Nat.lt_irrefl _ hentry
  refine h.addValues rfl rfl (fun v i j => by simp; rfl) (fun v b j _ => hargs v b j) hnew
    (fun v j => ?_) nofun
  rw [hargs]
  simp [hnew]

theorem addInst (b : BlockId) (op : Operation) (resultTys : List TypeId) :
    (f.addInst b op resultTys).1.Indexed := by
  refine h.addValues rfl rfl (fun v i j => ?_) (fun v b j _ => by simp; rfl) nofun
    (fun v j => by simp; rfl) nofun
  simp only [resultAt?, insts_addInst, Option.bind_eq_some_iff, getElem?_push_eq_some,
    or_and_right, exists_or]
  refine or_congr_right ⟨?_, ?_⟩
  · rintro ⟨inst, ⟨hi, rfl⟩, hj⟩
    exact ⟨j, hj, by rw [← hi]⟩
  · rintro ⟨k, hk, ho⟩
    cases ho
    exact ⟨_, ⟨rfl, rfl⟩, hk⟩

theorem appendTo (b : BlockId) (i : InstId) : (f.appendTo b i).Indexed :=
  h.of_views rfl rfl (fun _ _ => rfl) fun _ _ => bind_getElem?_modify fun _ => rfl

theorem removeInst (hok : f.removeInst i = .ok f') : f'.Indexed := by
  obtain ⟨inst, -, rfl⟩ := removeInst_ok hok
  exact h.of_views rfl rfl (fun _ _ => bind_getElem?_modify fun _ => rfl)
    fun _ _ => bind_getElem?_modify fun _ => rfl

/-- **Changes keep the origins of values.** -/
theorem change (hentry : entry.index < f.blocks.size) (hchange : f.Change A f') : f'.Indexed := by
  cases hchange with
  | value ty => exact h.addValue ty
  | block argTys => exact h.addBlock hentry argTys
  | inst _ resultTys _ => exact (h.addInst _ _ resultTys).appendTo _ _
  | stray _ resultTys _ => exact h.addInst _ _ resultTys
  | remove hok => exact h.removeInst hok

end Indexed

namespace Placed

variable (h : f.Placed)
include h

/-- A change that leaves blocks and instructions alone. -/
theorem of_tables (hb : f'.blocks = f.blocks) (hi : f'.insts = f.insts) : f'.Placed where
  entry := hb ▸ h.entry
  owner := by
    rw [hb, hi]
    exact h.owner
  listed := by
    rw [hb, hi]
    exact h.listed
  count := by
    rw [hb, hi]
    exact h.count

theorem addBlock (argTys : List TypeId) : (f.addBlock argTys).1.Placed := by
  constructor
  case entry =>
    rw [blocks_addBlock, Array.size_push]
    exact Nat.lt_succ_of_lt h.entry
  case owner =>
    intro i inst hi
    rw [blocks_addBlock, Array.size_push]
    exact Nat.lt_succ_of_lt (h.owner i inst hi)
  case listed =>
    intro b blk hb i hi
    rw [blocks_addBlock, getElem?_push_eq_some] at hb
    rcases hb with hb | ⟨-, rfl⟩
    · exact h.listed b blk hb i hi
    · cases hi
  case count =>
    intro i inst b blk hi hb
    rw [blocks_addBlock, getElem?_push_eq_some] at hb
    rcases hb with hb | ⟨hb, rfl⟩
    · exact h.count i inst b blk hi hb
    · -- No instruction belongs to a block that is new.
      have howner := h.owner i inst hi
      rw [if_neg]
      · rfl
      · rintro ⟨-, rfl⟩
        exact absurd hb (Nat.ne_of_lt howner)

/-- An instruction that is appended to a block that exists. -/
theorem addInst (op : Operation) (resultTys : List TypeId) (hb : b.index < f.blocks.size) :
    ((f.addInst b op resultTys).1.appendTo b ⟨f.insts.size⟩).Placed := by
  have hinsts : ((f.addInst b op resultTys).1.appendTo b ⟨f.insts.size⟩).insts =
      f.insts.push
        { op, results := (f.addValues resultTys (.result ⟨f.insts.size⟩)).2, block := b } := rfl
  have hblocks : ((f.addInst b op resultTys).1.appendTo b ⟨f.insts.size⟩).blocks =
      f.blocks.modify b.index fun blk => { blk with insts := blk.insts ++ [⟨f.insts.size⟩] } := rfl
  constructor
  case entry =>
    rw [hblocks, Array.size_modify]
    exact h.entry
  case owner =>
    intro i inst hi
    rw [hinsts, getElem?_push_eq_some] at hi
    rw [hblocks, Array.size_modify]
    rcases hi with hi | ⟨-, rfl⟩
    · exact h.owner i inst hi
    · exact hb
  case listed =>
    intro b' blk hblk i hi
    rw [hblocks, getElem?_modify_eq_some] at hblk
    obtain ⟨blk₀, hblk₀, rfl⟩ := hblk
    rw [hinsts, Array.size_push]
    have hold : i ∈ blk₀.insts ∨ i = ⟨f.insts.size⟩ := by
      split at hi
      · simpa using hi
      · exact .inl hi
    rcases hold with hold | rfl
    · exact Nat.lt_succ_of_lt (h.listed b' blk₀ hblk₀ i hold)
    · exact Nat.lt_succ_self _
  case count =>
    intro i inst b' blk hi hblk
    rw [hinsts, getElem?_push_eq_some] at hi
    rw [hblocks, getElem?_modify_eq_some] at hblk
    obtain ⟨blk₀, hblk₀, rfl⟩ := hblk
    -- The number of the new instruction is listed nowhere yet.
    have hfresh : blk₀.insts.count ⟨f.insts.size⟩ = 0 :=
      List.count_eq_zero.mpr fun hmem => Nat.lt_irrefl _ (h.listed b' blk₀ hblk₀ _ hmem)
    rcases hi with hi | ⟨hi, rfl⟩
    · have hne : (⟨f.insts.size⟩ : InstId) ≠ i := by
        rintro rfl
        exact Nat.lt_irrefl _ (Array.getElem?_eq_some_iff.mp hi).1
      rw [← h.count i inst b' blk₀ hi hblk₀]
      split
      · simp [List.count_append, hne]
      · rfl
    · obtain ⟨i⟩ := i
      obtain rfl : i = f.insts.size := hi
      by_cases hb' : b = b'
      · subst hb'
        simp [hfresh]
      · have hindex : b.index ≠ b'.index := fun h => hb' (congrArg BlockId.mk h)
        simp [hindex, hb', hfresh]

theorem removeInst (hok : f.removeInst i = .ok f') : f'.Placed := by
  obtain ⟨inst, hinst, rfl⟩ := removeInst_ok hok
  constructor
  case entry =>
    rw [Array.size_modify]
    exact h.entry
  case owner =>
    intro k inst' hk
    obtain ⟨inst₀, hk₀, rfl⟩ := getElem?_modify_eq_some.mp hk
    have howner := h.owner k inst₀ hk₀
    rw [Array.size_modify]
    split
    · exact howner
    · exact howner
  case listed =>
    intro b blk hblk k hk
    obtain ⟨blk₀, hblk₀, rfl⟩ := getElem?_modify_eq_some.mp hblk
    rw [Array.size_modify]
    refine h.listed b blk₀ hblk₀ k ?_
    split at hk
    · exact List.mem_of_mem_filter hk
    · exact hk
  case count =>
    intro k inst' b blk hk hblk
    obtain ⟨inst₀, hk₀, rfl⟩ := getElem?_modify_eq_some.mp hk
    obtain ⟨blk₀, hblk₀, rfl⟩ := getElem?_modify_eq_some.mp hblk
    have hcount := h.count k inst₀ b blk₀ hk₀ hblk₀
    by_cases hki : k = i
    · -- The block of the instruction drops it, and no other block lists it.
      subst hki
      cases hk₀.symm.trans hinst
      by_cases hb : inst.block = b
      · subst hb
        simp [List.count_eq_zero]
      · have hindex : inst.block.index ≠ b.index := fun h => hb (congrArg BlockId.mk h)
        simpa [hindex, hb] using hcount
    · have hindex : i.index ≠ k.index := fun h => hki (congrArg InstId.mk h).symm
      rw [if_neg hindex, ← hcount]
      split
      · exact List.count_filter (by simpa using hki)
      · rfl

/-- **Changes keep instructions in their blocks**, if instructions are appended to blocks that
exist. -/
theorem change (hchange : f.Change (fun f b _ => b.index < f.blocks.size) f') : f'.Placed := by
  cases hchange with
  | value ty => exact h.of_tables rfl rfl
  | block argTys => exact h.addBlock argTys
  | inst _ resultTys hb => exact h.addInst _ resultTys hb
  | stray hA _ hb => exact absurd hA hb
  | remove hok => exact h.removeInst hok

end Placed

theorem declare_indexed (name : String) (params : List Param) (returnTy : Option TypeId) :
    (declare name params returnTy).Indexed := by
  have hbare : ({ name, params, returnTy } : Func).Indexed := by
    constructor <;> simp [origin?, resultAt?, argAt?, ← argAt?_entry]
  refine hbare.addValues rfl rfl (fun v i j => by simp; rfl) (fun v b j hb => ?_) nofun
    (fun v j => ?_) fun v k j hk ho => ?_
  · have hindex : b.index ≠ 0 := fun h => hb (congrArg BlockId.mk h)
    simp [argAt?, declare, hindex]
  · simp [argAt?, declare, entry]
  · cases ho
    obtain ⟨hlt, hv⟩ := getElem?_snd_addValues.mp hk
    rw [List.length_map] at hlt
    refine ⟨params[k], List.getElem?_eq_getElem hlt,
      typeOf_ok.mpr ⟨⟨params[k].ty, .argument k⟩, ?_, rfl⟩⟩
    rw [hv]
    simp [declare, Func.addValues, hlt]

theorem declare_placed (name : String) (params : List Param) (returnTy : Option TypeId) :
    (declare name params returnTy).Placed := by
  have hinsts : (declare name params returnTy).insts = #[] := rfl
  refine ⟨Nat.one_pos, ?_, fun b blk hb i hi => ?_, ?_⟩
  · rw [hinsts]
    nofun
  · replace hb : (Array.push #[] { args := _ })[b.index]? = some blk := hb
    rcases getElem?_push_eq_some.mp hb with hb | ⟨-, rfl⟩
    · cases hb
    · cases hi
  · rw [hinsts]
    nofun

theorem declare_consistent (name : String) (params : List Param) (returnTy : Option TypeId) :
    (declare name params returnTy).Consistent :=
  ⟨declare_indexed name params returnTy, declare_placed name params returnTy⟩

/-- One change keeps the tables consistent. -/
theorem Consistent.change (h : f.Consistent)
    (hchange : f.Change (fun f b _ => b.index < f.blocks.size) f') : f'.Consistent :=
  ⟨h.toIndexed.change h.entry hchange, h.toPlaced.change hchange⟩

end Func

/-! ### Steps -/

/-- If the step appends an instruction, it does so to a block of the current function. -/
def Step.OnBlock (d : Draft) (step : Step) : Prop :=
  ∀ fn ∈ d.program.func? d.current, ∀ a ∈ step.appended?, a.1.index < fn.blocks.size

instance Step.decidableOnBlock (d : Draft) : DecidablePred (Step.OnBlock d) := fun step =>
  inferInstanceAs (Decidable (∀ fn ∈ d.program.func? d.current, ∀ a ∈ step.appended?,
    a.1.index < fn.blocks.size))

namespace Draft

/-- Runs steps, and goes on after a fault. Instructions have to be appended to blocks that exist. -/
def assemble (d : Draft) : List Step → Option Draft
  | [] => some d
  | step :: rest => if step.OnBlock d then (step.run.after d).assemble rest else none

/-- **A whole run** keeps the tables consistent. -/
theorem consistent_of_assemble {d d' : Draft} {steps : List Step}
    (hall : ∀ fn ∈ d.program.funcs, fn.Consistent) (h : d.assemble steps = some d') :
    ∀ fn ∈ d'.program.funcs, fn.Consistent := by
  induction steps generalizing d with
  | nil =>
    cases h
    exact hall
  | cons step rest ih =>
    rw [assemble] at h
    split at h
    · rename_i hblock
      have halters : step.run.Alters (fun f b _ => b.index < f.blocks.size) d := Step.alters hblock
      exact ih (halters.forall_mem Func.declare_consistent
        (fun _ _ => Func.Consistent.change) hall) h
    · cases h

/-- **The tables of all functions agree**, whatever steps were run. -/
theorem tables_agree {steps : List Step} {d : Draft} {f : FuncId} {fn : Func}
    (h : ({} : Draft).assemble steps = some d) (hf : d.program.func? f = some fn) :
    fn.Consistent := by
  have hempty : ∀ fn ∈ ({} : Draft).program.funcs, fn.Consistent := nofun
  exact consistent_of_assemble hempty h fn (Array.mem_of_getElem? hf)

/-- Steps that build a function of two blocks. One step stops with a fault, as the operand of the
load was not made, and one takes the release out of its block. -/
def releaseSteps : List Step := [
  .intern (.object { name := "Node" }),
  .declare "drop" [⟨⟨0⟩, .owned⟩] none,
  .addBlock [⟨0⟩],
  .value ⟨0⟩ (.allocRef ⟨0⟩) none,
  .value ⟨0⟩ (.load ⟨9⟩) none,
  .inst ⟨0⟩ (.branch ⟨1⟩ [⟨2⟩]) none,
  .undefined ⟨0⟩,
  .inst ⟨1⟩ (.strongRelease ⟨1⟩) none,
  .inst ⟨1⟩ (.ret none) none,
  .removeInst ⟨0⟩ ⟨2⟩]

/-- The draft that these steps leave. -/
def release : Draft := (({} : Draft).assemble releaseSteps).getD {}

/-- The tables agree after a fault and a removal: values 0 to 3 are an argument of the function, an
argument of the second block, a result and undefined, and the second block lists what follows the
release. -/
theorem tables_agree_release : ({} : Draft).assemble releaseSteps = some release ∧
    ∃ fn ∈ release.program.func? ⟨0⟩, fn.Consistent ∧
      fn.values.toList.map (·.origin) = [.argument 0, .blockArg ⟨1⟩ 0, .result ⟨0⟩ 0, .undefined] ∧
      fn.insts.toList.map (·.deleted) = [false, false, true, false] ∧
      fn.blocks.toList.map (·.insts) = [[⟨0⟩, ⟨1⟩], [⟨3⟩]] := by
  have hok : ({} : Draft).assemble releaseSteps = some release := by decide +kernel
  have htables : ∃ fn ∈ release.program.func? ⟨0⟩,
      fn.values.toList.map (·.origin) = [.argument 0, .blockArg ⟨1⟩ 0, .result ⟨0⟩ 0, .undefined] ∧
      fn.insts.toList.map (·.deleted) = [false, false, true, false] ∧
      fn.blocks.toList.map (·.insts) = [[⟨0⟩, ⟨1⟩], [⟨3⟩]] := by decide +kernel
  obtain ⟨fn, hf, htables⟩ := htables
  exact ⟨hok, fn, hf, tables_agree hok hf, htables⟩

end Draft

end Escape
