import Escape.Program.Edit
import Escape.Proofs.Checked

/-!
# What steps do to functions

A step of building a program changes one function, declares one, or leaves all functions alone. This
holds of steps that complete and of steps that stop with a fault, which keep what they did before.

- `Edit.after`: the draft that a computation leaves, whether it completes or not.
- `Step.alters`: **a step does nothing else.**
-/

namespace Escape

/-! ### Computations on drafts -/

namespace Edit

variable {α β : Type} {x : Edit α} {d d' : Draft}

/-- A sequence completes if both parts do. -/
theorem bind_ok {k : α → Edit β} {b : β} : (x >>= k) d = .ok b d' ↔
    ∃ a d₁, x d = .ok a d₁ ∧ k a d₁ = .ok b d' := by
  show EStateM.bind x k d = _ ↔ _
  unfold EStateM.bind
  cases x d with
  | ok a d₁ => exact ⟨fun h => ⟨a, d₁, rfl, h⟩, fun ⟨_, _, ha, h⟩ => by cases ha; exact h⟩
  | error e d₁ => exact ⟨fun h => (nomatch h), fun ⟨_, _, ha, _⟩ => (nomatch ha)⟩

/-- Checks leave the draft alone. -/
theorem check_ok {c : Checked α} {a : α} (h : check c d = .ok a d') : c = .ok a ∧ d' = d := by
  cases c with
  | ok b =>
    cases h
    exact ⟨rfl, rfl⟩
  | error e => cases h

theorem func_ok {f : Func} (h : func d = .ok f d') :
    d.program.func? d.current = some f ∧ d' = d := by
  obtain ⟨d₀, d₁, h₀, h⟩ := bind_ok.mp h
  cases h₀
  cases hf : d.program.func? d.current with
  | some fn =>
    rw [hf] at h
    cases h
    exact ⟨rfl, rfl⟩
  | none =>
    rw [hf] at h
    cases h

/-- The draft that a computation leaves, whether it completes or stops with a fault. -/
def after (x : Edit α) (d : Draft) : Draft :=
  match x d with
  | .ok _ d' | .error _ d' => d'

theorem after_of_ok {a : α} (h : x d = .ok a d') : x.after d = d' := by
  rw [after, h]

/-- What comes after a computation is what it goes on with leaves, if it completes. -/
theorem after_bind (x : Edit α) (k : α → Edit β) (d : Draft) :
    (∃ a d₁, x d = .ok a d₁ ∧ Edit.after (x >>= k) d = (k a).after d₁) ∨
    Edit.after (x >>= k) d = x.after d := by
  unfold after
  show (∃ a d₁, x d = .ok a d₁ ∧ (match EStateM.bind x k d with | .ok _ d' | .error _ d' => d') =
    _) ∨ (match EStateM.bind x k d with | .ok _ d' | .error _ d' => d') = _
  unfold EStateM.bind
  cases x d with
  | ok a d₁ => exact .inl ⟨a, d₁, rfl, rfl⟩
  | error e d₁ => exact .inr rfl

/-- A computation that leaves the functions of a draft alone, also if it stops with a fault. -/
def Quiet (x : Edit α) : Prop :=
  ∀ d, (x.after d).program.funcs = d.program.funcs ∧ (x.after d).current = d.current

namespace Quiet

/-- The functions stay, and so does the one worked on. -/
theorem ok {a : α} (h : Quiet x) (hok : x d = .ok a d') :
    d'.program.funcs = d.program.funcs ∧ d'.current = d.current := by
  rw [← after_of_ok hok]
  exact h d

theorem pure (a : α) : Quiet (Pure.pure a : Edit α) := fun _ => ⟨rfl, rfl⟩

theorem bind {k : α → Edit β} (hx : Quiet x) (hk : ∀ a, Quiet (k a)) : Quiet (x >>= k) := by
  intro d
  rcases after_bind x k d with ⟨a, d₁, h₁, e⟩ | e
  · obtain ⟨hf₁, hc₁⟩ := hx.ok h₁
    obtain ⟨hf₂, hc₂⟩ := hk a d₁
    rw [e]
    exact ⟨hf₂.trans hf₁, hc₂.trans hc₁⟩
  · rw [e]
    exact hx d

theorem map {k : α → β} (hx : Quiet x) : Quiet (k <$> x) := by
  rw [← bind_pure_comp]
  exact hx.bind fun a => pure (k a)

theorem check (c : Checked α) : Quiet (check c) := by
  intro d
  cases c <;> exact ⟨rfl, rfl⟩

theorem draft : Quiet (get : Edit Draft) := fun _ => ⟨rfl, rfl⟩

theorem func : Quiet func := by
  refine draft.bind fun d => ?_
  cases d.program.func? d.current with
  | some fn => exact pure fn
  | none => exact fun _ => ⟨rfl, rfl⟩

theorem withTypes (change : TypeTable → TypeTable × TypeId) : Quiet (withTypes change) :=
  fun _ => ⟨rfl, rfl⟩

theorem types : Quiet types := fun _ => ⟨rfl, rfl⟩

theorem typeOf (v : ValueId) : Quiet (typeOf v) := func.bind fun f => check (f.typeOf v)

theorem orUnknown : (ty : Option TypeId) → Quiet (orUnknown ty)
  | some ty => pure ty
  | none => withTypes fun t => t.internUnique .unknown

theorem addressOf (ty : TypeId) : Quiet (addressOf ty) := withTypes _

theorem reply (v : Option ValueId) : Quiet (match v with
    | some v => Pure.pure (Reply.index v.index)
    | none => Pure.pure .nothing : Edit Reply) := by
  cases v with
  | some v => exact pure _
  | none => exact pure _

end Quiet

/-- Working out the type of a result interns types, and does nothing else. -/
theorem resultType_quiet (op : Operation) (given : Option TypeId) :
    Quiet (resultType op given) := by
  unfold resultType
  split
  case h_1 => exact (Quiet.addressOf _).map
  case h_2 => exact .pure _
  case h_3 => exact (Quiet.withTypes _).map
  case h_4 =>
    refine (Quiet.typeOf _).bind fun ty => Quiet.types.bind fun t =>
      (Quiet.check _).bind fun p => ?_
    exact (Quiet.orUnknown p).map
  case h_5 =>
    refine (Quiet.typeOf _).bind fun ty => Quiet.types.bind fun t =>
      (Quiet.check _).bind fun cls => ?_
    exact (Quiet.orUnknown _).bind fun fieldTy => (Quiet.addressOf fieldTy).map
  case h_6 =>
    refine (Quiet.typeOf _).bind fun ty => Quiet.types.bind fun t => (Quiet.check _).bind
      fun boxTy => ?_
    have hrest (inner : Option TypeId) : Quiet (some <$> (addressOf =<< orUnknown inner)) :=
      ((Quiet.orUnknown inner).bind Quiet.addressOf).map
    split
    · exact (Quiet.pure _).bind hrest
    · exact (Quiet.pure _).bind hrest
  case h_7 | h_8 | h_9 =>
    split
    · exact (Quiet.addressOf _).map
    · exact .pure _
  case h_10 | h_11 | h_12 | h_13 | h_14 => exact (Quiet.typeOf _).map
  case h_15 | h_16 | h_17 | h_18 | h_19 => exact (Quiet.withTypes _).map
  case h_20 => exact .pure _

end Edit

/-! ### Changes -/

/-- What a step may do to a function. Only instructions are appended that `A` allows in the block.
-/
inductive Func.Change (A : Func → BlockId → Operation → Prop) (f : Func) : Func → Prop where
  | value (ty : TypeId) : Change A f (f.addValue ty .undefined).1
  | block (argTys : List TypeId) : Change A f (f.addBlock argTys).1
  | inst {b : BlockId} {op : Operation} (hA : A f b op) (resultTys : List TypeId)
    (hb : b.index < f.blocks.size) : Change A f
    ((f.addInst b op resultTys).1.appendTo b ⟨f.insts.size⟩)
  /-- The block does not exist, so that the instruction is in none. -/
  | stray {b : BlockId} {op : Operation} (hA : A f b op) (resultTys : List TypeId)
    (hb : ¬ b.index < f.blocks.size) : Change A f (f.addInst b op resultTys).1
  | remove {i : InstId} {f' : Func} (hok : f.removeInst i = .ok f') : Change A f f'

/-- What a step may do to the functions of a program. -/
inductive Altered (A : Func → BlockId → Operation → Prop) (funcs : Array Func) :
    Array Func → Prop where
  | same : Altered A funcs funcs
  | changed {f : FuncId} {fn fn' : Func} (hf : funcs[f.index]? = some fn) (hfn : fn.Change A fn') :
    Altered A funcs (funcs.setIfInBounds f.index fn')
  | declared (name : String) (params : List Param) (returnTy : Option TypeId) :
    Altered A funcs (funcs.push (.declare name params returnTy))

variable {A : Func → BlockId → Operation → Prop}

/-- What holds of a function that is declared, and is kept by changes, holds of all functions. -/
theorem Altered.forall_mem {P : Func → Prop} {funcs funcs' : Array Func}
    (h : Altered A funcs funcs') (declare : ∀ name params returnTy,
      P (.declare name params returnTy))
    (change : ∀ fn fn', P fn → fn.Change A fn' → P fn') (hall : ∀ fn ∈ funcs, P fn) :
    ∀ fn ∈ funcs', P fn := by
  cases h with
  | same => exact hall
  | changed hf hfn =>
    intro fn hmem
    rcases Array.mem_or_eq_of_mem_setIfInBounds hmem with hold | rfl
    · exact hall fn hold
    · exact change _ _ (hall _ (Array.mem_of_getElem? hf)) hfn
  | declared name params returnTy =>
    intro fn hmem
    rcases Array.mem_push.mp hmem with hold | rfl
    · exact hall fn hold
    · exact declare name params returnTy

namespace Edit

variable {α β : Type} {x : Edit α} {k : α → Edit β} {d : Draft}

/-- The computation does to the functions what a step may do. -/
def Alters (A : Func → BlockId → Operation → Prop) (x : Edit α) (d : Draft) : Prop :=
  Altered A d.program.funcs (x.after d).program.funcs

/-- Changing no function is allowed. -/
theorem Quiet.alters (h : Quiet x) (d : Draft) : x.Alters A d := by
  rw [Alters, (h d).1]
  exact .same

/-- A computation that begins by leaving the functions alone. -/
theorem Quiet.bind_alters (hx : Quiet x)
    (hk : ∀ a d₁, x d = .ok a d₁ → d₁.program.funcs = d.program.funcs → d₁.current = d.current →
      (k a).Alters A d₁) : Edit.Alters A (x >>= k) d := by
  rw [Alters]
  rcases after_bind x k d with ⟨a, d₁, h₁, e⟩ | e
  · obtain ⟨hf, hc⟩ := hx.ok h₁
    rw [e, ← hf]
    exact hk a d₁ h₁ hf hc
  · rw [e]
    exact hx.alters d

/-- A computation that ends by leaving the functions alone. -/
theorem Alters.bind_quiet (hx : x.Alters A d) (hk : ∀ a, Quiet (k a)) :
    Edit.Alters A (x >>= k) d := by
  rw [Alters]
  rcases after_bind x k d with ⟨a, d₁, h₁, e⟩ | e
  · rw [e, (hk a d₁).1, ← after_of_ok h₁]
    exact hx
  · rw [e]
    exact hx

/-- Appends an instruction. -/
theorem append_alters {b : BlockId} {op : Operation}
    (hA : ∀ fn, d.program.func? d.current = some fn → A fn b op) (tys : List TypeId) :
    (append b op tys).Alters A d := by
  refine Quiet.func.bind_alters fun fn d₁ h₁ _ _ => ?_
  obtain ⟨hfn, rfl⟩ := func_ok h₁
  show Edit.Alters A (do
    setFunc (fn.addInst b op tys).1
    check (discard ((fn.addInst b op tys).1.block b))
    setFunc ((fn.addInst b op tys).1.appendTo b ⟨fn.insts.size⟩)
    return (⟨fn.insts.size⟩ : InstId)) d₁
  -- The block is looked up in the function that already has the instruction.
  by_cases hb : b.index < fn.blocks.size
  · have hblk : (fn.addInst b op tys).1.block b = .ok fn.blocks[b.index] :=
      Checked.get_ok.mpr (Array.getElem?_eq_getElem hb)
    rw [hblk]
    show Altered A _ ((d₁.program.funcs.setIfInBounds _ _).setIfInBounds _ _)
    rw [Array.setIfInBounds_setIfInBounds]
    exact .changed hfn (.inst (hA fn hfn) tys hb)
  · have hblk : (fn.addInst b op tys).1.block b = .error .outOfRange := by
      have hnone : fn.blocks[b.index]? = none := Array.getElem?_eq_none (Nat.not_lt.mp hb)
      show Checked.get fn.blocks b.index = _
      rw [Checked.get, hnone]
    rw [hblk]
    exact .changed hfn (.stray (hA fn hfn) tys hb)

/-- Appends an instruction with at most one result. -/
theorem emit_alters {b : BlockId} {op : Operation}
    (hA : ∀ fn, d.program.func? d.current = some fn → A fn b op) (given : Option TypeId) :
    (emit b op given).Alters A d := by
  refine Quiet.func.map.bind_alters fun _ d₁ _ hf₁ hc₁ => ?_
  refine (resultType_quiet op given).bind_alters fun ty d₂ _ hf₂ hc₂ => append_alters
    (fun fn hfn => hA fn ?_) ty.toList
  rwa [Program.func?, hf₂, hc₂, hf₁, hc₁] at hfn

end Edit

namespace Step

variable {d : Draft}

/-- The operation of the instruction that a step appends, and the block it appends it to. -/
def appended? : Step → Option (BlockId × Operation)
  | .append b op _ | .inst b op _ | .value b op _ => some (b, op)
  | _ => none

open Edit in
/-- **A step changes one function, declares one, or leaves them all alone**, whether it completes or
stops. -/
theorem alters {step : Step} (hA : ∀ fn ∈ d.program.func? d.current, ∀ a ∈ step.appended?,
      A fn a.1 a.2) :
    step.run.Alters A d := by
  cases step with
  | intern ty | internUnique ty => exact ((Quiet.withTypes _).bind fun _ => .pure _).alters d
  | setFields ty _ | setDeinit ty _ => exact .same
  | declare name params returnTy => exact .declared name params returnTy
  | enter f =>
    refine Quiet.draft.bind_alters fun _ d₁ h₁ _ _ => ?_
    cases h₁
    cases hf : d.program.func? f with
    | some fn => exact .same
    | none => exact .same
  | find name =>
    refine (Quiet.draft.bind fun d₀ => ?_).alters d
    cases d₀.program.find? name with
    | some f => exact .pure _
    | none => exact .pure _
  | removeInst f i =>
    refine Quiet.draft.bind_alters fun _ d₁ h₁ _ _ => ?_
    cases h₁
    cases hf : d.program.func? f with
    | some fn =>
      refine (Quiet.check _).bind_alters fun fn' d₂ h₂ _ _ => ?_
      obtain ⟨hfn', rfl⟩ := check_ok h₂
      exact .changed hf (.remove hfn')
    | none => exact .same
  | entry => exact (Quiet.func.map.bind fun _ => .pure _).alters d
  | argument index =>
    refine (Quiet.func.bind fun f => ?_).alters d
    exact (Quiet.check _).bind fun args => (Quiet.check _).bind fun v => .pure _
  | typeOf v => exact ((Quiet.typeOf v).bind fun _ => .pure _).alters d
  | addBlock argTys =>
    refine Quiet.func.bind_alters fun fn d₁ h₁ _ _ => ?_
    obtain ⟨hfn, rfl⟩ := func_ok h₁
    exact .changed hfn (.block argTys)
  | blockArg b index =>
    refine (Quiet.func.bind fun f => ?_).alters d
    exact (Quiet.check _).bind fun blk => (Quiet.check _).bind fun v => .pure _
  | undefined ty =>
    refine Quiet.func.bind_alters fun fn d₁ h₁ _ _ => ?_
    obtain ⟨hfn, rfl⟩ := func_ok h₁
    exact .changed hfn (.value ty)
  | result i =>
    exact (Quiet.func.bind fun f => (Quiet.check _).bind fun v => Quiet.reply v).alters d
  | append b op tys =>
    exact (append_alters (fun fn hfn => hA fn hfn _ rfl) tys).bind_quiet fun _ => .pure _
  | inst b op given =>
    exact (emit_alters (fun fn hfn => hA fn hfn _ rfl) given).bind_quiet fun _ => .pure _
  | value b op given =>
    refine (emit_alters (fun fn hfn => hA fn hfn _ rfl) given).bind_quiet fun i => ?_
    exact Quiet.func.bind fun f => (Quiet.check _).bind fun v => Quiet.reply v

end Step

end Escape
