import Escape.Analysis.Build
import Escape.Proofs.Checked

/-!
# What a function draws and calls

Which graph is drawn for a function, and which calls come up on the way, depends on the function
alone and not on what an update knows so far. So to build a function is to visit it, to follow its
calls in their order, and to keep what was drawn.

- `Analysis.draw_congr`: it depends on the settings of the analysis only.
- `Analysis.follow`: recording calls, and building the callees that were not visited before.
- `Analysis.buildWith_ok`: **building a function is visiting it, drawing it and following its
  calls.**
-/

namespace Escape

open Escape.Graph

variable {p : Program} {s : Scope} {f : FuncId} {i : InstId}

/-- The instruction is in a reachable block. -/
def Scope.Reaches (s : Scope) (i : InstId) : Prop :=
  ∃ blocks, s.func.reachableBlocks = .ok blocks ∧ ∃ b ∈ blocks, ∃ blk,
    s.func.block b = .ok blk ∧ i ∈ blk.insts

instance (s : Scope) (i : InstId) : Decidable (s.Reaches i) :=
  inferInstanceAs (Decidable (∃ blocks, s.func.reachableBlocks = .ok blocks ∧ _))

theorem Scope.of?_spec (h : Scope.of? p f = some s) :
    s.program = p ∧ s.id = f ∧ p.func? f = some s.func := by
  obtain ⟨func, hfunc, rfl⟩ := Option.map_eq_some_iff.mp h
  exact ⟨rfl, rfl, hfunc⟩

theorem Scope.exists_of_isSome (h : (p.func? f).isSome) : ∃ s, Scope.of? p f = some s := by
  obtain ⟨func, hfunc⟩ := Option.isSome_iff_exists.mp h
  exact ⟨⟨p, f, func⟩, by rw [Scope.of?, hfunc]; rfl⟩

theorem reaches_of_instsOf {blocks : List BlockId} (hb : s.func.reachableBlocks = .ok blocks)
    {is : List InstId} (hok : s.func.instsOf blocks = .ok is) : ∀ i ∈ is, s.Reaches i := by
  intro i hi
  obtain ⟨lists, hlists, hok⟩ := bind_ok.mp hok
  cases hok
  obtain ⟨l, hl, hil⟩ := List.mem_flatten.mp hi
  obtain ⟨b, hbmem, hblock⟩ := Checked.of_mem_mapM hlists l hl
  obtain ⟨blk, hblk, hblock⟩ := bind_ok.mp hblock
  cases hblock
  exact ⟨blocks, hb, b, hbmem, blk, hblk, hil⟩

/-- A call site, and a function that it invokes. -/
structure Call where
  site : CallSite
  callee : FuncId
deriving DecidableEq

namespace Analysis

variable {a a' a'' : Analysis} {u u' : Update} {g g' : Graph} {fs : List FuncId} {calls : List Call}
  {b : Builder} {deep : Bool} {descend : Option Builder}

/-! ### Drawing -/

/-- What a call adds to the graph of its function, and the functions that it invokes. Unless the
drawing is `deep`, they count as unknown. -/
def drawCall (a : Analysis) (deep : Bool) (s : Scope) (i : InstId) (g : Graph) :
    Checked (Graph × List FuncId) := do
  match ← if deep then a.knownCallees s i else pure none with
  | some fs => return (g, fs)
  | none => return (← g.escapeAll s i, [])

/-- What an instruction adds to the graph of its function, and the functions that it invokes. -/
def drawInst (a : Analysis) (deep : Bool) (s : Scope) (i : InstId) (g : Graph) :
    Checked (Graph × List FuncId) := do
  match ← Effect.of s i with
  | .release v =>
    match ← if deep then destructor? s v else pure none with
    | some f => return (g, [f])
    | none => return (← g.applyRelease s a.policy v, [])
  | .call container =>
    let (g, done) ← match container with
      | some op => if a.config.modelContainers then g.applyContainer s i op else pure (g, false)
      | none => pure (g, false)
    if done then return (g, [])
    a.drawCall deep s i g
  | effect => return (← g.applyEffect s i effect, [])

/-- The calls of the given functions at one site. -/
def callsAt (site : CallSite) (fs : List FuncId) : List Call := fs.map (⟨site, ·⟩)

/-- Draws the given instructions one after another, and collects their calls. A graph that grows
beyond the limit is given up, and the rest is left out. -/
def drawInsts (a : Analysis) (deep : Bool) (s : Scope) :
    List InstId → Graph → Checked (Graph × List Call)
  | [], g => return (g, [])
  | i :: rest, g => do
    let (g, fs) ← a.drawInst deep s i g
    if a.config.maxNodes < g.size then return (g.invalidate, callsAt ⟨s.id, i⟩ fs)
    let (g, calls) ← a.drawInsts deep s rest g
    return (g, callsAt ⟨s.id, i⟩ fs ++ calls)

/-- Draws a function: the instructions of its reachable blocks, and then the arguments of the
blocks. -/
def draw (a : Analysis) (deep : Bool) (s : Scope) : Checked (Graph × List Call) := do
  let blocks ← s.func.reachableBlocks
  let (g, calls) ← a.drawInsts deep s (← s.func.instsOf blocks) (.full s.id)
  return (← if g.valid then g.linkBlocks s blocks else pure g, calls)

/-! ### Settings -/

/-- The settings of `a'` are those of `a`. -/
structure SameSettings (a a' : Analysis) : Prop where
  config : a'.config = a.config
  resolver : a'.resolver = a.resolver
  policy : a'.policy = a.policy

theorem SameSettings.refl (a : Analysis) : SameSettings a a := ⟨rfl, rfl, rfl⟩

theorem SameSettings.trans (h : SameSettings a a') (h' : SameSettings a' a'') :
    SameSettings a a'' :=
  ⟨h'.config.trans h.config, h'.resolver.trans h.resolver, h'.policy.trans h.policy⟩

theorem drawInst_congr (h : SameSettings a a') : a'.drawInst = a.drawInst := by
  unfold drawInst drawCall knownCallees
  rw [h.config, h.resolver, h.policy]

theorem drawInsts_congr (h : SameSettings a a') (is : List InstId) :
    ∀ g, a'.drawInsts deep s is g = a.drawInsts deep s is g := by
  induction is with
  | nil => exact fun g => rfl
  | cons i is ih =>
    intro g
    unfold drawInsts
    rw [drawInst_congr h, h.config]
    simp only [ih]

/-- Instructions are drawn one after another, to the end or until the graph is too large. -/
inductive Drawing (a : Analysis) (deep : Bool) (s : Scope) :
    List InstId → Graph → Graph → List Call → Prop
  | done {g : Graph} : a.Drawing deep s [] g g []
  | full {i : InstId} {is : List InstId} {g g' : Graph} {fs : List FuncId} :
    a.drawInst deep s i g = .ok (g', fs) → a.config.maxNodes < g'.size →
    a.Drawing deep s (i :: is) g g'.invalidate (callsAt ⟨s.id, i⟩ fs)
  | next {i : InstId} {is : List InstId} {g g₁ g' : Graph} {fs : List FuncId} {calls : List Call} :
    a.drawInst deep s i g = .ok (g₁, fs) → g₁.size ≤ a.config.maxNodes →
    a.Drawing deep s is g₁ g' calls → a.Drawing deep s (i :: is) g g'
    (callsAt ⟨s.id, i⟩ fs ++ calls)

theorem drawing_of_ok (is : List InstId) (g : Graph) {g' : Graph} {calls : List Call}
    (hok : a.drawInsts deep s is g = .ok (g', calls)) : a.Drawing deep s is g g' calls := by
  induction is generalizing g g' calls with
  | nil =>
    cases hok
    exact .done
  | cons i is ih =>
    obtain ⟨⟨g₁, fs⟩, hdraw, hok⟩ := bind_ok.mp hok
    dsimp only at hok
    split at hok
    · rename_i hlarge
      cases hok
      exact .full hdraw hlarge
    · rename_i hsmall
      obtain ⟨⟨g₂, more⟩, hmore, hok⟩ := bind_ok.mp hok
      cases hok
      exact .next hdraw (Nat.not_lt.mp hsmall) (ih g₁ hmore)

/-- What is drawn for a function depends on the settings only. -/
theorem draw_congr (h : SameSettings a a') : a'.draw deep s = a.draw deep s := by
  unfold draw
  simp only [drawInsts_congr h]

/-! ### What is drawn -/

/-- What is left of a container operation, where a call is treated like any other. -/
inductive Attempted (a : Analysis) (s : Scope) (i : InstId) (g : Graph) :
    Option ContainerOp → Graph → Prop
  | none : Attempted a s i g none g
  | off {op : ContainerOp} : a.config.modelContainers = false → Attempted a s i g (some op) g
  | failed {op : ContainerOp} {g' : Graph} : a.config.modelContainers = true →
    g.applyContainer s i op = .ok (g', false) → Attempted a s i g (some op) g'

/-- What drawing an instruction comes down to, by the effect of the instruction. -/
inductive Drawn (a : Analysis) (deep : Bool) (s : Scope) (i : InstId) (g : Graph) :
    Effect → Graph → List FuncId → Prop
  | destructor {v : ValueId} {f : FuncId} : deep = true → destructor? s v = .ok (some f) →
    Drawn a deep s i g (.release v) g [f]
  | release {v : ValueId} {g' : Graph} : g.applyRelease s a.policy v = .ok g' →
    Drawn a deep s i g (.release v) g' []
  | container {op : ContainerOp} {g' : Graph} : a.config.modelContainers = true →
    g.applyContainer s i op = .ok (g', true) → Drawn a deep s i g (.call (some op)) g' []
  | known {container : Option ContainerOp} {g' : Graph} {fs : List FuncId} : deep = true →
    Attempted a s i g container g' → a.knownCallees s i = .ok (some fs) →
    Drawn a deep s i g (.call container) g' fs
  | unknown {container : Option ContainerOp} {g₁ g' : Graph} :
    (deep = true → a.knownCallees s i = .ok none) → Attempted a s i g container g₁ →
    g₁.escapeAll s i = .ok g' → Drawn a deep s i g (.call container) g' []
  | plain {effect : Effect} {g' : Graph} : g.applyEffect s i effect = .ok g' →
    (∀ v, effect ≠ .release v) → (∀ container, effect ≠ .call container) →
    Drawn a deep s i g effect g' []

theorem drawCall_spec {container : Option ContainerOp} {g₁ : Graph}
    (hattempt : Attempted a s i g container g₁) (hok : a.drawCall deep s i g₁ = .ok (g', fs)) :
    Drawn a deep s i g (.call container) g' fs := by
  cases deep with
  | false =>
    obtain ⟨_, hnone, hok⟩ := bind_ok.mp hok
    cases hnone
    obtain ⟨g₂, hescape, hok⟩ := bind_ok.mp hok
    cases hok
    exact .unknown nofun hattempt hescape
  | true =>
    obtain ⟨fs?, hcallees, hok⟩ := bind_ok.mp hok
    cases fs? with
    | none =>
      obtain ⟨g₂, hescape, hok⟩ := bind_ok.mp hok
      cases hok
      exact .unknown (fun _ => hcallees) hattempt hescape
    | some fs' =>
      cases hok
      exact .known rfl hattempt hcallees

theorem drawInst_spec (hok : a.drawInst deep s i g = .ok (g', fs)) :
    ∃ effect, Effect.of s i = .ok effect ∧ Drawn a deep s i g effect g' fs := by
  obtain ⟨effect, heffect, hok⟩ := bind_ok.mp hok
  refine ⟨effect, heffect, ?_⟩
  cases effect with
  | release v =>
    -- unless a destructor is known, the release is applied
    have hrelease (hok : (do return (← g.applyRelease s a.policy v, []) :
      Checked (Graph × List FuncId)) =
        .ok (g', fs)) : Drawn a deep s i g (.release v) g' fs := by
      obtain ⟨g₁, happly, hok⟩ := bind_ok.mp hok
      cases hok
      exact .release happly
    cases deep with
    | false => exact hrelease hok
    | true =>
      obtain ⟨f?, hf, hok⟩ := bind_ok.mp hok
      cases f? with
      | none => exact hrelease hok
      | some f =>
        cases hok
        exact .destructor rfl hf
  | call container =>
    cases container with
    | none => exact drawCall_spec .none hok
    | some op =>
      dsimp only at hok
      split at hok
      · rename_i hmodel
        obtain ⟨⟨g₁, done⟩, hop, hok⟩ := bind_ok.mp hok
        cases done with
        | true =>
          cases hok
          exact .container hmodel hop
        | false => exact drawCall_spec (.failed hmodel hop) hok
      · rename_i hmodel
        exact drawCall_spec (.off (by simpa using hmodel)) hok
  | _ =>
    obtain ⟨g₁, happly, hok⟩ := bind_ok.mp hok
    cases hok
    exact .plain happly nofun nofun

/-- The parts of drawing a function. -/
theorem draw_ok (hok : a.draw deep s = .ok (g', calls)) :
    ∃ blocks is g, s.func.reachableBlocks = .ok blocks ∧ s.func.instsOf blocks = .ok is ∧
    a.drawInsts deep s is (.full s.id) = .ok (g, calls) ∧
    (g.valid = true ∧ g.linkBlocks s blocks = .ok g' ∨ g.valid = false ∧ g' = g) := by
  obtain ⟨blocks, hblocks, hok⟩ := bind_ok.mp hok
  obtain ⟨is, his, hok⟩ := bind_ok.mp hok
  obtain ⟨⟨g, calls'⟩, hdraw, hok⟩ := bind_ok.mp hok
  dsimp only at hok
  split at hok
  · rename_i hvalid
    obtain ⟨g₂, hlink, hok⟩ := bind_ok.mp hok
    cases hok
    exact ⟨blocks, is, g, hblocks, his, hdraw, .inl ⟨hvalid, hlink⟩⟩
  · rename_i hvalid
    cases hok
    exact ⟨blocks, is, _, hblocks, his, hdraw, .inr ⟨Bool.eq_false_iff.mpr hvalid, rfl⟩⟩

/-! ### Calls -/

section

variable (hs : s.program = p)
include hs

/-- The destructor that a release runs is declared. -/
theorem destructor?_declared {v : ValueId} (h : destructor? s v = .ok (some f)) :
    ∃ t, Scope.of? p f = some t := by
  unfold destructor? at h
  obtain ⟨cls?, -, h⟩ := bind_ok.mp h
  cases cls? with
  | none => cases h
  | some cls =>
    obtain ⟨c?, -, h⟩ := bind_ok.mp h
    cases hd : c?.bind (·.deinit) with
    | none =>
      simp only [hd] at h
      cases h
    | some d =>
      simp only [hd] at h
      split at h
      · rename_i hf
        cases h
        exact Scope.exists_of_isSome (hs ▸ hf)
      · cases h

/-- All functions that a call is known to invoke are declared. -/
theorem knownCallees_declared (h : a.knownCallees s i = .ok (some fs)) :
    ∀ f ∈ fs, ∃ t, Scope.of? p f = some t := by
  unfold knownCallees at h
  obtain ⟨callees, -, h⟩ := bind_ok.mp h
  cases callees with
  | unknown => cases h
  | precise gs =>
    dsimp only at h
    split at h
    · rename_i hall
      cases h
      intro f hf
      rw [Bool.and_eq_true, List.all_eq_true] at hall
      exact Scope.exists_of_isSome (hs ▸ hall.2 f hf)
    · cases h

/-- Functions that an instruction invokes are declared. Without depth there are none. -/
theorem drawInst_declared (hok : a.drawInst deep s i g = .ok (g', fs)) :
    ∀ f ∈ fs, deep = true ∧ ∃ t, Scope.of? p f = some t := by
  obtain ⟨effect, -, hdrawn⟩ := drawInst_spec hok
  cases hdrawn with
  | destructor hdeep hf => exact List.forall_mem_singleton.mpr ⟨hdeep, destructor?_declared hs hf⟩
  | known hdeep _ hcallees => exact fun f hf => ⟨hdeep, knownCallees_declared hs hcallees f hf⟩
  | release _ => exact nofun
  | container _ _ => exact nofun
  | unknown _ _ _ => exact nofun
  | plain _ _ _ => exact nofun

omit hs in
/-- The calls of a function are at its own instructions, and of declared functions. -/
structure CallOf (p : Program) (s : Scope) (is : List InstId) (deep : Bool)
    (call : Call) : Prop where
  deep : deep = true
  caller : call.site.caller = s.id
  site : call.site.site ∈ is
  callee : ∃ t, Scope.of? p call.callee = some t

theorem callOf_callsAt {is : List InstId} (hi : i ∈ is)
    (hok : a.drawInst deep s i g = .ok (g', fs)) :
    ∀ call ∈ callsAt ⟨s.id, i⟩ fs, CallOf p s is deep call := by
  intro call hcall
  obtain ⟨f, hf, rfl⟩ := List.mem_map.mp hcall
  obtain ⟨hdeep, ht⟩ := drawInst_declared hs hok f hf
  exact ⟨hdeep, rfl, hi, ht⟩

theorem drawInsts_calls (is : List InstId) (g : Graph)
    (hok : a.drawInsts deep s is g = .ok (g', calls)) :
    ∀ call ∈ calls, CallOf p s is deep call := by
  replace hok := drawing_of_ok is g hok
  induction hok with
  | done => exact nofun
  | full hdraw _ => exact callOf_callsAt hs List.mem_cons_self hdraw
  | next hdraw _ _ ih =>
    refine List.forall_mem_append.mpr ⟨callOf_callsAt hs List.mem_cons_self hdraw,
      fun call hcall => ?_⟩
    obtain ⟨hdeep, hcaller, hsite, hcallee⟩ := ih call hcall
    exact ⟨hdeep, hcaller, List.mem_cons_of_mem _ hsite, hcallee⟩

end

/-- The calls of a function are at its reachable instructions, and of declared functions. -/
theorem draw_calls (hs : Scope.of? p f = some s) (hok : a.draw deep s = .ok (g, calls)) :
    ∀ call ∈ calls, deep = true ∧ call.site.caller = f ∧ s.Reaches call.site.site ∧
      ∃ t, Scope.of? p call.callee = some t := by
  obtain ⟨hprogram, hid, -⟩ := Scope.of?_spec hs
  obtain ⟨blocks, is, g₁, hblocks, his, hdraw, -⟩ := draw_ok hok
  intro call hcall
  obtain ⟨hdeep, hcaller, hsite, hcallee⟩ := drawInsts_calls hprogram is _ hdraw call hcall
  exact ⟨hdeep, hcaller.trans hid, reaches_of_instsOf hblocks his _ hsite, hcallee⟩

/-! ### Following calls -/

/-- Records calls at their callees, and builds the callees that this update has not come to. -/
def follow (b : Builder) : List Call → Update → Checked Update
  | [], u => return u
  | call :: rest, u => do
    let u := u.modify call.callee (·.addCaller call.site)
    if (u.infos.find? call.callee).any u.isVisited then follow b rest u
    else follow b rest ((← b call.callee u).place call.callee)

/-- Builds nothing. -/
def idle : Builder := fun _ u => return u

theorem follow_append (calls more : List Call) (u : Update) :
    follow b (calls ++ more) u = follow b calls u >>= follow b more := by
  induction calls generalizing u with
  | nil => rfl
  | cons call calls ih =>
    rw [List.cons_append, follow, follow]
    split
    · exact ih _
    · simp only [ih, bind_assoc]

theorem follow_callsAt (site : CallSite) (fs : List FuncId) (u : Update) :
    follow b (callsAt site fs) u = buildCallees b site fs u := by
  induction fs generalizing u with
  | nil => rfl
  | cons f fs ih =>
    rw [callsAt] at ih ⊢
    simp only [List.map_cons, follow, buildCallees, ih]

/-- An update before anything was built. -/
def begun (a : Analysis) : Update := { number := a.updates + 1, infos := a.infos }

/-! ### Building by drawing -/

/-- A call is drawn, and then followed. -/
theorem drawCall_eq (descend : Option Builder) (u : Update) (g : Graph) :
    (match descend with
    | none => do return (u, ← g.escapeAll s i)
    | some descend => do
      match ← a.knownCallees s i with
      | some fs => return (← buildCallees descend ⟨s.id, i⟩ fs u, g)
      | none => return (u, ← g.escapeAll s i)) = (do
    let (g, fs) ← a.drawCall descend.isSome s i g
    return (← buildCallees (descend.getD idle) ⟨s.id, i⟩ fs u, g)) := by
  unfold drawCall
  cases descend with
  | none => simp [buildCallees]
  | some d =>
    simp only [Option.isSome_some, if_true, Option.getD_some, bind_assoc]
    refine congrArg _ (funext fun fs? => ?_)
    cases fs? with
    | none => simp [buildCallees]
    | some fs => simp

/-- An instruction is drawn, and then its calls are followed. -/
theorem applyInst_eq (descend : Option Builder) (u : Update) (g : Graph) :
    a.applyInst descend s i u g = (do
      let (g, fs) ← a.drawInst descend.isSome s i g
      return (← buildCallees (descend.getD idle) ⟨s.id, i⟩ fs u, g)) := by
  unfold applyInst drawInst
  rw [bind_assoc]
  refine congrArg _ (funext fun effect => ?_)
  cases effect with
  | release v =>
    cases descend with
    | none => simp [buildCallees]
    | some d =>
      simp only [Option.isSome_some, if_true, Option.getD_some, bind_assoc]
      refine congrArg _ (funext fun f? => ?_)
      cases f? with
      | none => simp [buildCallees]
      | some f => simp
  | call container =>
    cases container with
    | none => exact drawCall_eq descend u g
    | some op =>
      dsimp only
      split
      · rw [bind_assoc]
        refine congrArg _ (funext fun r => ?_)
        obtain ⟨g, done⟩ := r
        cases done with
        | true => simp [buildCallees]
        | false => exact drawCall_eq descend u g
      · exact drawCall_eq descend u g
  | _ => simp [buildCallees]

/-- Instructions are applied by drawing them and following their calls. -/
theorem applyInsts_ok (is : List InstId) (u : Update) (g : Graph) {u' : Update} {g' : Graph} :
    a.applyInsts descend s is u g = .ok (u', g') ↔
    ∃ calls, a.drawInsts descend.isSome s is g = .ok (g', calls) ∧
    follow (descend.getD idle) calls u = .ok u' := by
  induction is generalizing u g u' g' with
  | nil =>
    simp [applyInsts, drawInsts, follow, pure, Except.pure, and_comm, eq_comm]
  | cons i is ih =>
    rw [applyInsts, drawInsts, applyInst_eq]
    constructor
    · intro h
      obtain ⟨⟨u₁, g₁⟩, hinst, h⟩ := bind_ok.mp h
      obtain ⟨⟨g₂, fs⟩, hdraw, hinst⟩ := bind_ok.mp hinst
      obtain ⟨u₂, hcallees, hinst⟩ := bind_ok.mp hinst
      cases hinst
      rw [hdraw, ok_bind]
      rw [← follow_callsAt] at hcallees
      dsimp only at h ⊢
      split at h
      · rename_i hsize
        cases h
        rw [if_pos hsize]
        exact ⟨_, rfl, hcallees⟩
      · rename_i hsize
        -- the calls of this instruction are followed before those of the rest
        obtain ⟨calls, hdraws, hfollow⟩ := (ih u₁ g₁).mp h
        rw [if_neg hsize, hdraws]
        refine ⟨_, rfl, ?_⟩
        rw [follow_append, hcallees]
        exact hfollow
    · rintro ⟨calls, hdraws, hfollow⟩
      obtain ⟨⟨g₁, fs⟩, hdraw, hdraws⟩ := bind_ok.mp hdraws
      rw [hdraw, ok_bind]
      dsimp only at hdraws ⊢
      split at hdraws
      · rename_i hsize
        cases hdraws
        rw [follow_callsAt] at hfollow
        rw [hfollow]
        show (if _ then _ else _) = _
        rw [if_pos hsize]
        rfl
      · rename_i hsize
        obtain ⟨⟨g₂, more⟩, hmore, hdraws⟩ := bind_ok.mp hdraws
        cases hdraws
        rw [follow_append] at hfollow
        obtain ⟨u₁, hcallees, hfollow⟩ := bind_ok.mp hfollow
        rw [follow_callsAt] at hcallees
        rw [hcallees]
        show (if _ then _ else _) = _
        rw [if_neg hsize]
        exact (ih u₁ g₁).mpr ⟨more, hmore, hfollow⟩

/-- **Building a function.** It is visited. Unless there is nothing to build, it is drawn, its calls
are followed, and what was drawn is kept. -/
theorem buildWith_ok (hs : Scope.of? p f = some s) : a.buildWith p descend f u = .ok u' ↔
    if (u.visit f).2 then ∃ g calls u₁, a.draw descend.isSome s = .ok (g, calls) ∧
      follow (descend.getD idle) calls (u.visit f).1 = .ok u₁ ∧
      u' = u₁.modify f fun info => { info with graph := g }
    else u' = (u.visit f).1 := by
  obtain ⟨-, rfl, -⟩ := Scope.of?_spec hs
  unfold buildWith
  rw [hs]
  dsimp only
  cases htodo : (u.visit s.id).2 with
  | false =>
    show Except.ok _ = Except.ok _ ↔ _
    simp [eq_comm]
  | true =>
    simp only [Bool.not_true, Bool.false_eq_true, if_false, if_true]
    unfold draw
    constructor
    · intro h
      obtain ⟨blocks, hblocks, h⟩ := bind_ok.mp h
      obtain ⟨is, his, h⟩ := bind_ok.mp h
      obtain ⟨⟨u₁, g₁⟩, happly, h⟩ := bind_ok.mp h
      obtain ⟨calls, hdraw, hfollow⟩ := (applyInsts_ok is _ _).mp happly
      rw [hblocks, ok_bind, his, ok_bind, hdraw, ok_bind]
      dsimp only at h ⊢
      split at h
      · rename_i hvalid
        obtain ⟨g₂, hlink, h⟩ := bind_ok.mp h
        cases h
        rw [if_pos hvalid, hlink]
        exact ⟨g₂, calls, u₁, rfl, hfollow, rfl⟩
      · rename_i hvalid
        cases h
        rw [if_neg hvalid]
        exact ⟨g₁, calls, u₁, rfl, hfollow, rfl⟩
    · rintro ⟨g, calls, u₁, h, hfollow, rfl⟩
      obtain ⟨blocks, hblocks, h⟩ := bind_ok.mp h
      obtain ⟨is, his, h⟩ := bind_ok.mp h
      obtain ⟨⟨g₁, calls'⟩, hdraw, h⟩ := bind_ok.mp h
      rw [hblocks, ok_bind, his, ok_bind]
      dsimp only at h
      split at h
      · rename_i hvalid
        obtain ⟨g₂, hlink, h⟩ := bind_ok.mp h
        cases h
        rw [(applyInsts_ok is _ _).mpr ⟨calls, hdraw, hfollow⟩, ok_bind]
        rw [if_pos hvalid, hlink]
        rfl
      · rename_i hvalid
        cases h
        rw [(applyInsts_ok is _ _).mpr ⟨calls, hdraw, hfollow⟩, ok_bind]
        rw [if_neg hvalid]
        rfl

end Analysis

end Escape
