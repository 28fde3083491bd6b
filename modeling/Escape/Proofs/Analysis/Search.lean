import Escape.Proofs.Analysis.Building
import Escape.Proofs.Analysis.Traces
import Mathlib.Logic.Relation

/-!
# The search for callees

To build a function and what it calls is a search in depth, seen here as a machine that takes one
small step at a time. At each moment some functions are in the order already, and some are on the
path from the function that is being built back to the root. Taken together they form a list that a
visit inserts the new function into, and that does not change when a function gets its place. So a
callee stays in front of its caller from its visit on, unless it was on the path, and then its call
closes a cycle.

- `Trace.build_steps`: building a function is a run of the machine.
-/

namespace Escape

open Relation

variable {p : Program} {f g c root : FuncId} {u u' : Update} {info : FuncInfo} {log es : List Event}
  {path : List FuncId} {max : Nat} {a : Analysis} {change : FuncInfo → FuncInfo}

/-! ### Calls in a log -/

/-- The function that an event visits. -/
def Event.visited? : Event → Option FuncId
  | .visit f => some f
  | _ => none

/-- Whether an event belongs to the search. -/
def Event.isSearch : Event → Bool
  | .visit _ | .build _ | .call _ => true
  | _ => false

/-- The visits in a log, in their order. -/
def visits (log : List Event) : List FuncId := log.filterMap Event.visited?

/-- A call of `g` in the function `c` was recorded. -/
def Calls (log : List Event) (c g : FuncId) : Prop := ∃ i, Event.call ⟨⟨c, i⟩, g⟩ ∈ log

/-- The function is called from the root through at most so many calls. -/
inductive Within (calls : FuncId → FuncId → Prop) (root : FuncId) : Nat → FuncId → Prop
  | root {n : Nat} : Within calls root n root
  | call {n : Nat} {c g : FuncId} : Within calls root n c → calls c g → Within calls root (n + 1) g

/-- Each function on the list is called by the next one, up to the root. -/
inductive Trail (calls : FuncId → FuncId → Prop) (root : FuncId) : List FuncId → Prop
  | root : Trail calls root [root]
  | call {c g : FuncId} {path : List FuncId} :
    Trail calls root (c :: path) → calls c g → Trail calls root (g :: c :: path)

theorem mem_visits : f ∈ visits log ↔ Event.visit f ∈ log := by
  unfold visits
  rw [List.mem_filterMap]
  constructor
  · rintro ⟨event, hevent, hf⟩
    cases event with
    | visit f' =>
      cases hf
      exact hevent
    | _ => cases hf
  · exact fun h => ⟨_, h, rfl⟩

theorem Calls.mono (h : Calls log c g) (more : List Event) : Calls (log ++ more) c g :=
  h.imp fun _ hi => List.mem_append_left _ hi

section Mono

variable {calls calls' : FuncId → FuncId → Prop}

theorem Within.le {n m : Nat} (h : Within calls root n f) (hle : n ≤ m) :
    Within calls root m f := by
  induction h generalizing m with
  | root => exact .root
  | call _ hcall ih =>
    cases m with
    | zero => cases hle
    | succ m => exact .call (ih (Nat.le_of_succ_le_succ hle)) hcall

theorem Within.mono {n : Nat} (h : Within calls root n f) (hcalls : ∀ c g, calls c g → calls' c g) :
    Within calls' root n f := by
  induction h with
  | root => exact .root
  | call _ hcall ih => exact .call ih (hcalls _ _ hcall)

theorem Trail.mono (h : Trail calls root path) (hcalls : ∀ c g, calls c g → calls' c g) :
    Trail calls' root path := by
  induction h with
  | root => exact .root
  | call _ hcall ih => exact .call ih (hcalls _ _ hcall)

/-- Every function on a trail calls the first one, through others. -/
theorem Trail.reach (h : Trail calls root (f :: path)) :
    ∀ g ∈ f :: path, ReflTransGen calls g f := by
  generalize hl : f :: path = l at h
  induction h generalizing f path with
  | root =>
    cases hl
    exact List.forall_mem_singleton.mpr .refl
  | call _ hcall ih =>
    cases hl
    exact List.forall_mem_cons.mpr ⟨.refl, fun g hg => (ih rfl g hg).tail hcall⟩

/-- The length of a trail bounds the number of calls. -/
theorem Trail.within (h : Trail calls root (f :: path)) : Within calls root path.length f := by
  generalize hl : f :: path = l at h
  induction h generalizing f path with
  | root =>
    cases hl
    exact .root
  | call _ hcall ih =>
    cases hl
    exact .call (ih rfl) hcall

end Mono

/-! ### The machine -/

/-- The state of a search: the update, the functions being built with the innermost first, a
function that is to be visited next, and what happened so far. -/
structure Search where
  update : Update
  path : List FuncId
  next : Option FuncId
  log : List Event

namespace Search

/-- The steps of a search that is at most `max` calls deep. -/
inductive Step (p : Program) (max : Nat) : Search → Search → Prop
  /-- A call of a function that was visited. -/
  | again {u : Update} {c : FuncId} {path : List FuncId} {log : List Event} (call : Call) :
    call.site.caller = c → .build c ∈ log → (u.known call.callee).visitedIn = u.number →
    Step p max ⟨u, c :: path, none, log⟩
      ⟨u.modify call.callee (·.addCaller call.site), c :: path, none, log ++ [.call call]⟩
  /-- A call of another function, which is visited next. -/
  | descend {u : Update} {c : FuncId} {path : List FuncId} {log : List Event} (call : Call) :
    call.site.caller = c → .build c ∈ log → (u.known call.callee).visitedIn ≠ u.number →
    Step p max ⟨u, c :: path, none, log⟩
      ⟨u.modify call.callee (·.addCaller call.site), c :: path, some call.callee,
        log ++ [.call call]⟩
  /-- A visit of a function with final graphs. -/
  | reuse {u : Update} {f : FuncId} {path : List FuncId} {log : List Event} :
    (u.known f).visitedIn ≠ u.number → (u.known f).computed = true →
    Step p max ⟨u, path, some f, log⟩
      ⟨u.modify f fun _ => (u.known f).visited u.number, f :: path, none, log ++ [.visit f]⟩
  /-- A visit of another function, whose graphs are built. -/
  | build {u : Update} {f : FuncId} {path : List FuncId} {log : List Event} :
    (u.known f).visitedIn ≠ u.number → (u.known f).computed = false → path.length ≤ max →
    (∃ s, Scope.of? p f = some s) → Step p max ⟨u, path, some f, log⟩
      ⟨u.modify f fun _ => (u.known f).emptied f u.number, f :: path, none,
        log ++ [.visit f, .build f]⟩
  /-- A graph is kept. -/
  | keep {u : Update} {f : FuncId} {path : List FuncId} {log : List Event} (graph : Graph) :
    .build f ∈ log → Step p max ⟨u, f :: path, none, log⟩
    ⟨u.modify f fun info => { info with graph }, f :: path, none, log⟩
  /-- A function gets its place. -/
  | leave {u : Update} {f : FuncId} {path : List FuncId} {log : List Event} :
    Step p max ⟨u, f :: path, none, log⟩ ⟨u.place f, path, none, log⟩

/-- Runs of the machine. -/
abbrev Steps (p : Program) (max : Nat) : Search → Search → Prop := ReflTransGen (Step p max)

end Search

open Search

/-! ### Building as a run -/

namespace Update

/-- A change that keeps the marks of a function keeps all marks. -/
theorem marks_modify (hv : (change (u.known f)).visitedIn = (u.known f).visitedIn)
    (hp : (change (u.known f)).position = (u.known f).position) (g : FuncId) :
    ((u.modify f change).known g).visitedIn = (u.known g).visitedIn ∧
      ((u.modify f change).known g).position = (u.known g).position := by
  rw [known_modify]
  split
  · rename_i hfg
    subst hfg
    exact ⟨hv, hp⟩
  · exact ⟨rfl, rfl⟩

theorem marks_addCaller (u : Update) (f : FuncId) (site : CallSite) (g : FuncId) :
    ((u.modify f (·.addCaller site)).known g).visitedIn = (u.known g).visitedIn ∧
      ((u.modify f (·.addCaller site)).known g).position = (u.known g).position := by
  obtain ⟨callers, he, -⟩ := addCaller_spec site (u.known f)
  exact marks_modify (by rw [he]) (by rw [he]) g

theorem addCaller_visitedIn (site : CallSite) (info : FuncInfo) :
    (info.addCaller site).visitedIn = info.visitedIn := by
  obtain ⟨callers, he, -⟩ := addCaller_spec site info
  rw [he]

theorem any_isVisited {site : CallSite} : ((u.modify f (·.addCaller site)).infos.find? f).any
    (u.modify f (·.addCaller site)).isVisited = true ↔ (u.known f).visitedIn = u.number := by
  rw [find?_modify, if_pos rfl, Option.any_some, isVisited, decide_eq_true_iff, addCaller_visitedIn]
  rfl

end Update

namespace Trace

open Update Logged

/-- The walker takes steps of the machine: it visits the function, and leaves it on the path. -/
def Walker.Stepwise (p : Program) (max depth : Nat) (w : Walker) : Prop :=
  ∀ f u u' es path log, (∃ s, Scope.of? p f = some s) → (u.known f).visitedIn ≠ u.number →
    path.length + depth = max → (w f u).run = .ok (u', es) →
    Steps p max ⟨u, path, some f, log⟩ ⟨u', f :: path, none, log ++ es⟩

theorem follow_steps {w : Walker} {depth : Nat} (hw : w.Stepwise p max depth)
    (hdepth : path.length + 1 + depth = max) (calls : List Call) (u : Update) {u' : Update}
    {es : List Event} (log : List Event) (hbuild : .build c ∈ log)
    (hcalls : (∀ call ∈ calls, call.site.caller = c ∧ ∃ s, Scope.of? p call.callee = some s))
    (hok : (Trace.follow w calls u).run = .ok (u', es)) :
    Steps p max ⟨u, c :: path, none, log⟩ ⟨u', c :: path, none, log ++ es⟩ := by
  induction calls generalizing u u' es log with
  | nil =>
    cases hok
    rw [List.append_nil]
  | cons call calls ih =>
    obtain ⟨⟨hcaller, hdeclared⟩, hrest⟩ := List.forall_mem_cons.mp hcalls
    obtain ⟨es, hrun, rfl⟩ := tell_bind_ok.mp hok
    rw [List.append_cons]
    dsimp only at hrun
    split at hrun
    · -- the callee was visited before
      rename_i hv
      exact .head (.again call hcaller hbuild (any_isVisited.mp hv))
        (ih _ _ (List.mem_append_left _ hbuild) hrest hrun)
    · -- the callee is walked through, and then it is left
      rename_i hv
      obtain ⟨u₁, es₁, es₂, hdescend, hlater, rfl⟩ := Logged.bind_ok.mp hrun
      have hv' := mt any_isVisited.mpr hv
      have hwalk := hw call.callee _ u₁ es₁ (c :: path) (log ++ [.call call]) hdeclared
        (by rw [known_modify, if_pos rfl, addCaller_visitedIn]; exact hv') hdepth hdescend
      rw [← List.append_assoc]
      have hbuild' : .build c ∈ log ++ [.call call] ++ es₁ :=
        List.mem_append_left _ (List.mem_append_left _ hbuild)
      exact (hwalk.head (.descend call hcaller hbuild hv')).trans
        (.head .leave (ih _ _ hbuild' hrest hlater))

theorem buildWith_stepwise {descend : Option Walker} {depth : Nat}
    (hw : ∀ w, descend = some w → ∃ d, depth = d + 1 ∧ w.Stepwise p max d) :
    Walker.Stepwise p max depth (buildWith a p descend) := by
  rintro f u u' es path log ⟨s, hs⟩ hv hdepth hok
  unfold buildWith at hok
  rw [hs] at hok
  obtain ⟨es, hvisit, rfl⟩ := tell_bind_ok.mp hok
  rcases visit_cases u f with ⟨hv', -⟩ | ⟨-, ⟨hc, e⟩ | ⟨hc, e⟩⟩
  · exact absurd hv' hv
  · rw [e] at hvisit
    cases hvisit
    exact .single (.reuse hv hc)
  · rw [e] at hvisit
    obtain ⟨es, hbuild, rfl⟩ := tell_bind_ok.mp hvisit
    obtain ⟨⟨graph, calls⟩, hdraw, hdrawn⟩ := lift_bind_ok.mp hbuild
    obtain ⟨u₁, es₁, es₂, hfollow, hkeep, rfl⟩ := Logged.bind_ok.mp hdrawn
    cases hkeep
    have hcalls := Analysis.draw_calls hs hdraw
    have hfirst : Search.Step p max ⟨u, path, some f, log⟩
      ⟨u.modify f fun _ => (u.known f).emptied f u.number, f :: path, none,
      log ++ [.visit f, .build f]⟩ := .build hv hc (by omega) ⟨s, hs⟩
    have hsteps : Steps p max ⟨u.modify f fun _ => (u.known f).emptied f u.number, f :: path, none,
        log ++ [.visit f, .build f]⟩ ⟨u₁, f :: path, none, log ++ [.visit f, .build f] ++ es₁⟩ := by
      cases descend with
      | none =>
        -- without depth there are no calls
        cases calls with
        | nil =>
          cases hfollow
          rw [List.append_nil]
        | cons call calls => cases (hcalls call List.mem_cons_self).1
      | some w =>
        obtain ⟨d, rfl, hstepwise⟩ := hw w rfl
        refine follow_steps hstepwise (by omega) calls _ _ (by simp) (fun call hcall => ?_) hfollow
        obtain ⟨-, hcaller, -, hdeclared⟩ := hcalls call hcall
        exact ⟨hcaller, hdeclared⟩
    have hend : log ++ .visit f :: .build f :: (es₁ ++ []) =
      log ++ [.visit f, .build f] ++ es₁ := by simp
    rw [hend]
    exact (hsteps.head hfirst).tail (.keep graph (by simp))

/-- **Building a function is a run of the machine.** -/
theorem build_steps (a : Analysis) (p : Program) (max : Nat) :
    ∀ depth, Walker.Stepwise p max depth (Trace.build a p depth)
  | 0 => buildWith_stepwise nofun
  | depth + 1 => buildWith_stepwise fun w hw => by
    cases hw
    exact ⟨depth, rfl, build_steps a p max depth⟩

end Trace

/-! ### What a search keeps up -/

namespace Update

theorem place_number (u : Update) (f : FuncId) : (u.place f).number = u.number := by
  unfold place
  cases u.infos.find? f with
  | none => rfl
  | some info =>
    dsimp only
    split <;> rfl

end Update

namespace Search

variable {x y : Search}

/-- The functions that were visited: those in the order, and those on the path. -/
def listed (x : Search) : List FuncId := x.update.order.toList ++ x.path

/-- What a search keeps up about visits, depth and order. -/
structure Ordered (root : FuncId) (max : Nat) (x : Search) : Prop where
  pos : 0 < x.update.number
  visits : (visits x.log).Perm x.listed
  nodup : x.listed.Nodup
  visited : ∀ f, (x.update.known f).visitedIn = x.update.number ↔ f ∈ x.listed
  placed : ∀ j f, x.update.order[j]? = some f → (x.update.known f).position = some j
  unplaced : ∀ f ∈ x.path, (x.update.known f).position = none
  trail : x.next.toList ++ x.path = [] ∨ Trail (Calls x.log) root (x.next.toList ++ x.path)
  depth : ∀ f, .build f ∈ x.log → Within (Calls x.log) root max f
  calls : ∀ call, .call call ∈ x.log → List.Sublist [call.callee, call.site.caller] x.listed ∨
    ReflTransGen (Calls x.log) call.callee call.site.caller ∨
    x.next = some call.callee ∧ call.site.caller ∈ x.path

section Kept

variable {next : Option FuncId} {more : List Event}

/-- Trails and depths stay while the log grows. -/
theorem Ordered.trail_append (h : Ordered root max ⟨u, path, next, log⟩) (more : List Event) :
    next.toList ++ path = [] ∨ Trail (Calls (log ++ more)) root (next.toList ++ path) :=
  h.trail.imp_right fun ht => ht.mono fun _ _ hc => hc.mono more

theorem Ordered.depth_append (h : Ordered root max ⟨u, path, next, log⟩) (more : List Event)
    (hf : .build f ∈ log) : Within (Calls (log ++ more)) root max f :=
  (h.depth f hf).mono fun _ _ hc => hc.mono more

theorem Ordered.calls_append {x : Search} (h : Ordered root max x) (more : List Event) {call : Call}
    (hcall : .call call ∈ x.log) : List.Sublist [call.callee, call.site.caller] x.listed ∨
      ReflTransGen (Calls (x.log ++ more)) call.callee call.site.caller ∨
      x.next = some call.callee ∧ call.site.caller ∈ x.path :=
  (h.calls call hcall).imp_right (.imp_left fun hr => hr.lift id fun _ _ hc => hc.mono more)

end Kept

/-- Recording a call. The next function is on the trail, and the call is accounted for. -/
theorem Ordered.call {call : Call} {next : Option FuncId}
    (h : Ordered root max ⟨u, c :: path, none, log⟩)
    (htrail : Trail (Calls (log ++ [.call call])) root (next.toList ++ c :: path))
    (hnew : List.Sublist [call.callee, call.site.caller] (u.order.toList ++ c :: path) ∨
      ReflTransGen (Calls (log ++ [.call call])) call.callee call.site.caller ∨
      next = some call.callee ∧ call.site.caller ∈ c :: path) :
    Ordered root max ⟨u.modify call.callee (·.addCaller call.site), c :: path, next,
      log ++ [.call call]⟩ where
  pos := h.pos
  visits := by
    have hsame : Escape.visits (log ++ [.call call]) = Escape.visits log := by
      simp [Escape.visits, Event.visited?]
    show (Escape.visits (log ++ [.call call])).Perm _
    rw [hsame]
    exact h.visits
  nodup := h.nodup
  visited f := by
    show ((u.modify call.callee (·.addCaller call.site)).known f).visitedIn = u.number ↔ _
    rw [(Update.marks_addCaller u call.callee call.site f).1]
    exact h.visited f
  placed j f hj := (Update.marks_addCaller u call.callee call.site f).2.trans (h.placed j f hj)
  unplaced f hf := (Update.marks_addCaller u call.callee call.site f).2.trans (h.unplaced f hf)
  trail := .inr htrail
  depth f hf := h.depth_append _ (by simpa using hf)
  calls call' hcall := by
    rcases List.mem_append.mp hcall with hold | hcall
    · -- no function was to be visited next, so the other calls are accounted for already
      exact (h.calls_append _ hold).imp_right fun hwhy => .inl
        (hwhy.resolve_right fun hnext => nomatch hnext.1)
    · cases List.mem_singleton.mp hcall
      exact hnew

/-- Recording a call of a function that was visited. If it is in the order, it comes before the
caller, which is on the path. If it is on the path, it calls the caller. -/
theorem Ordered.again {call : Call} (h : Ordered root max ⟨u, c :: path, none, log⟩)
    (hc : call.site.caller = c) (hv : (u.known call.callee).visitedIn = u.number) : Ordered root max
      ⟨u.modify call.callee (·.addCaller call.site), c :: path, none, log ++ [.call call]⟩ := by
  have htrail := (h.trail_append [.call call]).resolve_left nofun
  refine h.call htrail ?_
  rcases List.mem_append.mp ((h.visited _).mp hv) with horder | hpath
  · left
    have hcaller : [call.site.caller].Sublist (c :: path) := by
      rw [hc]
      exact List.singleton_sublist.mpr List.mem_cons_self
    exact (List.singleton_sublist.mpr horder).append hcaller
  · refine .inr (.inl ?_)
    rw [hc]
    exact htrail.reach _ hpath

/-- Recording a call of a function that is visited next. -/
theorem Ordered.descend {call : Call} (h : Ordered root max ⟨u, c :: path, none, log⟩)
    (hc : call.site.caller = c) : Ordered root max
      ⟨u.modify call.callee (·.addCaller call.site), c :: path, some call.callee,
        log ++ [.call call]⟩ := by
  have htrail := (h.trail_append [.call call]).resolve_left nofun
  refine h.call (.call htrail ⟨call.site.site, ?_⟩) (.inr (.inr ⟨rfl, ?_⟩))
  · rw [← hc]
    exact List.mem_append_right _ (List.mem_singleton_self _)
  · rw [hc]
    exact List.mem_cons_self

/-- Visiting a function. It is put right between the order and the path. -/
theorem Ordered.visit {info' : FuncInfo} {more : List Event}
    (h : Ordered root max ⟨u, path, some f, log⟩) (hv : (u.known f).visitedIn ≠ u.number)
    (hv' : info'.visitedIn = u.number) (hp' : info'.position = none)
    (hmore : more = [.visit f] ∨ more = [.visit f, .build f] ∧ path.length ≤ max) :
    Ordered root max ⟨u.modify f fun _ => info', f :: path, none, log ++ more⟩ := by
  have hnew : f ∉ u.order.toList ++ path := mt (h.visited f).mpr hv
  have hinsert : (u.order.toList ++ path).Sublist (u.order.toList ++ f :: path) :=
    (List.Sublist.refl _).append (List.sublist_cons_self f path)
  have htrail : Trail (Calls (log ++ more)) root (f :: path) :=
    (h.trail_append more).resolve_left nofun
  have hvisits : Escape.visits (log ++ more) = Escape.visits log ++ [f] := by
    rcases hmore with rfl | ⟨rfl, -⟩ <;> simp [Escape.visits, Event.visited?]
  refine ⟨h.pos, ?_, ?_, fun g => ?_, fun j g hj => ?_, fun g hg => ?_, .inr htrail, fun g hg => ?_,
    fun call hcall => ?_⟩
  · show (Escape.visits (log ++ more)).Perm (u.order.toList ++ f :: path)
    rw [hvisits]
    calc Escape.visits log ++ [f]
      _ |>.Perm (u.order.toList ++ path ++ [f]) := h.visits.append_right [f]
      _ |>.Perm (u.order.toList ++ f :: path) := by
        rw [List.append_assoc]
        exact (List.perm_append_singleton f path).append_left _
  · show (u.order.toList ++ f :: path).Nodup
    rw [List.nodup_middle]
    exact List.nodup_cons.mpr ⟨hnew, h.nodup⟩
  · show ((u.modify f fun _ => info').known g).visitedIn = u.number ↔
      g ∈ u.order.toList ++ f :: path
    rw [Update.known_modify, List.mem_append, List.mem_cons]
    split
    · rename_i hfg
      exact iff_of_true hv' (.inr (.inl hfg.symm))
    · rename_i hfg
      have hold := h.visited g
      rw [listed, List.mem_append] at hold
      rw [hold]
      exact or_congr_right (or_iff_right (Ne.symm hfg)).symm
  · have hne : f ≠ g := by
      rintro rfl
      exact hnew (List.mem_append_left _ (Array.mem_toList_iff.mpr (Array.mem_of_getElem? hj)))
    show ((u.modify f fun _ => info').known g).position = some j
    rw [Update.known_modify, if_neg hne]
    exact h.placed j g hj
  · show ((u.modify f fun _ => info').known g).position = none
    rw [Update.known_modify]
    split
    · exact hp'
    · rename_i hfg
      exact h.unplaced g ((List.mem_cons.mp hg).resolve_left (Ne.symm hfg))
  · rcases List.mem_append.mp hg with hold | hhere
    · exact h.depth_append more hold
    · rcases hmore with rfl | ⟨rfl, hlen⟩
      · cases List.mem_singleton.mp hhere
      · simp only [List.mem_cons, Event.build.injEq, reduceCtorEq, List.not_mem_nil, or_false,
          false_or] at hhere
        rw [hhere]
        exact htrail.within.le hlen
  · have hold : .call call ∈ log := by
      rcases hmore with rfl | ⟨rfl, -⟩ <;> simpa using hcall
    rcases h.calls_append more hold with hbefore | hreach | ⟨hnext, hcaller⟩
    · exact .inl (hbefore.trans hinsert)
    · exact .inr (.inl hreach)
    · -- the call that leads here: its caller is on the path, right after the function
      left
      cases hnext
      have hhere : [call.callee, call.site.caller].Sublist (call.callee :: path) :=
        (List.singleton_sublist.mpr hcaller).cons_cons _
      exact hhere.trans (List.sublist_append_right _ _)

theorem Ordered.keep (h : Ordered root max ⟨u, f :: path, none, log⟩) (graph : Graph) :
    Ordered root max ⟨u.modify f fun info => { info with graph }, f :: path, none, log⟩ := by
  have hmarks (g : FuncId) : ((u.modify f fun info => { info with graph }).known g).visitedIn =
    (u.known g).visitedIn ∧
      ((u.modify f fun info => { info with graph }).known g).position = (u.known g).position :=
    Update.marks_modify rfl rfl g
  refine ⟨h.pos, h.visits, h.nodup, fun g => ?_, fun j g hj => (hmarks g).2.trans (h.placed j g hj),
    fun g hg => (hmarks g).2.trans (h.unplaced g hg), h.trail, h.depth, h.calls⟩
  show ((u.modify f fun info => { info with graph }).known g).visitedIn = u.number ↔ _
  rw [(hmarks g).1]
  exact h.visited g

/-- Giving a function its place moves the end of the order, and not the function. -/
theorem Ordered.leave (h : Ordered root max ⟨u, f :: path, none, log⟩) :
    Ordered root max ⟨u.place f, path, none, log⟩ := by
  have hvisited : (u.known f).visitedIn = u.number :=
    (h.visited f).mpr (List.mem_append_right _ List.mem_cons_self)
  have hf := Update.find?_of_visited h.pos hvisited
  have hnone := h.unplaced f List.mem_cons_self
  -- a function on the path has no place yet, so it gets one at the end
  obtain ⟨-, e⟩ := (Update.place_cases hf hvisited).resolve_left fun ⟨j, hj, _⟩ => nomatch
    hnone.symm.trans hj
  have hlisted : listed ⟨u.place f, path, none, log⟩ = listed ⟨u, f :: path, none, log⟩ := by
    rw [listed, listed, e]
    simp
  have hknown (g : FuncId) : (u.place f).known g =
      if f = g then { u.known f with position := some u.order.size } else u.known g := by
    rw [e]
    exact Update.known_modify u f g fun _ => { u.known f with position := some u.order.size }
  refine ⟨?_, hlisted ▸ h.visits, hlisted ▸ h.nodup, fun g => ?_, fun j g hj => ?_, fun g hg => ?_,
    ?_, h.depth, fun call hcall => ?_⟩
  · show 0 < (u.place f).number
    rw [Update.place_number]
    exact h.pos
  · show ((u.place f).known g).visitedIn = (u.place f).number ↔ _
    rw [Update.place_number, hlisted, ← h.visited g, hknown]
    split
    · rename_i hfg
      rw [hfg]
    · rfl
  · have horder : (u.place f).order = u.order.push f := by rw [e]
    have hj' : (u.order.push f)[j]? = some g := horder ▸ hj
    show ((u.place f).known g).position = some j
    rw [hknown]
    rw [Array.getElem?_push] at hj'
    split at hj'
    · rename_i hsize
      rw [if_pos (Option.some.inj hj'), hsize]
    · have hne : f ≠ g := by
        rintro rfl
        cases hnone.symm.trans (h.placed j f hj')
      rw [if_neg hne]
      exact h.placed j g hj'
  · have hne : f ≠ g := by
      rintro rfl
      exact (List.nodup_cons.mp (List.nodup_append.mp h.nodup).2.1).1 hg
    show ((u.place f).known g).position = none
    rw [hknown, if_neg hne]
    exact h.unplaced g (List.mem_cons_of_mem f hg)
  · cases h.trail.resolve_left nofun with
    | root => exact .inl rfl
    | call htrail _ => exact .inr htrail
  · rw [hlisted]
    exact (h.calls call hcall).imp_right fun hwhy => .inl
      (hwhy.resolve_right fun hnext => nomatch hnext.1)

/-- **One step** keeps everything in order. -/
theorem Ordered.step (h : Ordered root max x) (hstep : Step p max x y) : Ordered root max y := by
  cases hstep with
  | again call hc _ hv => exact h.again hc hv
  | descend call hc _ _ => exact h.descend hc
  | reuse hv _ => exact h.visit hv rfl rfl (.inl rfl)
  | build hv _ hlen _ => exact h.visit hv rfl rfl (.inr ⟨rfl, hlen⟩)
  | keep graph _ => exact h.keep graph
  | leave => exact h.leave

/-- **A run** keeps everything in order. -/
theorem Ordered.steps (h : Ordered root max x) (hsteps : Steps p max x y) : Ordered root max y := by
  induction hsteps with
  | refl => exact h
  | tail _ hstep ih => exact ih.step hstep

/-! ### What is known about the functions -/

/-- What is known about a function, as against what was known at the start. -/
structure Since (log : List Event) (number : Nat) (f : FuncId) (old info : FuncInfo) : Prop where
  computed : info.computed = old.computed
  visited : info.visitedIn = number ↔ .visit f ∈ log
  final : .visit f ∈ log → old.computed = true ∨ .build f ∈ log
  built : .build f ∈ log → .visit f ∈ log ∧ old.computed = false ∧ info.builtIn = number
  unbuilt : .build f ∉ log → info.graph = old.graph ∧ info.summary = old.summary ∧
    info.stale = old.stale ∧ info.builtIn = old.builtIn
  callers : ∀ site, site ∈ info.callers ↔ site ∈ old.callers ∨ .call ⟨site, f⟩ ∈ log
  early : info.visitedIn ≤ number ∧ info.builtIn ≤ number

/-- The event is about the function. -/
def Concerns (f : FuncId) : Event → Prop
  | .visit g | .build g => g = f
  | .call call => call.callee = f
  | _ => False

/-- What a search keeps up about the state of the functions. -/
structure Recorded (p : Program) (start : Update) (x : Search) : Prop where
  pos : 0 < start.number
  number : x.update.number = start.number
  since : ∀ f, Since x.log start.number f (start.known f) (x.update.known f)
  present : ∀ f, (x.update.infos.find? f).isSome →
    (start.infos.find? f).isSome ∨ .visit f ∈ x.log ∨ x.next = some f
  kept : ∀ f, (start.infos.find? f).isSome → (x.update.infos.find? f).isSome
  declared : ∀ f, .build f ∈ x.log → ∃ s, Scope.of? p f = some s
  search : ∀ event ∈ x.log, event.isSearch = true
  calls : ∀ call, .call call ∈ x.log → .build call.site.caller ∈ x.log ∧
    (.visit call.callee ∈ x.log ∨ x.next = some call.callee)

variable {start : Update} {old : FuncInfo} {number : Nat} {more : List Event}
  {next : Option FuncId}

/-- Events about others change nothing. -/
theorem Since.append (h : Since log number f old info)
    (hmore : ∀ event ∈ more, ¬ Concerns f event) : Since (log ++ more) number f old info := by
  have hsame (event : Event) (hf : Concerns f event) : event ∈ log ++ more ↔ event ∈ log := by
    rw [List.mem_append, or_iff_left fun hm => hmore event hm hf]
  have hv := hsame (.visit f) rfl
  have hb := hsame (.build f) rfl
  refine ⟨h.computed, h.visited.trans hv.symm, ?_, ?_, ?_, fun site => ?_, h.early⟩
  · rw [hv, hb]
    exact h.final
  · rw [hv, hb]
    exact h.built
  · rw [hb]
    exact h.unbuilt
  · rw [hsame (.call ⟨site, f⟩) rfl]
    exact h.callers site

theorem since_modify (h : ∀ g, Since log number g (start.known g) (u.known g))
    (hf : Since (log ++ more) number f (start.known f) (change (u.known f)))
    (hmore : ∀ event ∈ more, ∀ g, Concerns g event → g = f) (g : FuncId) :
    Since (log ++ more) number g (start.known g) ((u.modify f change).known g) := by
  rw [Update.known_modify]
  split
  · rename_i hfg
    subst hfg
    exact hf
  · rename_i hfg
    exact (h g).append fun event hevent hg => hfg (hmore event hevent g hg).symm

theorem present_modify (u : Update) (f g : FuncId) (change : FuncInfo → FuncInfo) :
    ((u.modify f change).infos.find? g).isSome ↔ f = g ∨ (u.infos.find? g).isSome := by
  rw [Update.find?_modify]
  split
  · rename_i hfg
    exact iff_of_true rfl (.inl hfg)
  · rename_i hfg
    rw [or_iff_right hfg]

theorem mem_addCaller (info : FuncInfo) (site site' : CallSite) :
    site' ∈ (info.addCaller site).callers ↔ site' ∈ info.callers ∨ site' = site := by
  unfold FuncInfo.addCaller
  split
  · rename_i hmem
    exact ⟨.inl, fun h => h.elim id fun he => he ▸ hmem⟩
  · simp

theorem Recorded.find?_isSome (h : Recorded p start x) (hf : .visit f ∈ x.log) :
    (x.update.infos.find? f).isSome := by
  have hvisited := (h.since f).visited.mpr hf
  rw [← h.number] at hvisited
  rw [Update.find?_of_visited (h.number ▸ h.pos) hvisited]
  rfl

/-- Recording a call. -/
theorem Recorded.call {call : Call} (h : Recorded p start ⟨u, path, none, log⟩)
    (hbuild : .build call.site.caller ∈ log)
    (hcallee : .visit call.callee ∈ log ∨ next = some call.callee) :
    Recorded p start ⟨u.modify call.callee (·.addCaller call.site), path, next,
      log ++ [.call call]⟩ := by
  -- A call is neither a visit nor a build.
  have hv (f : FuncId) : .visit f ∈ log ++ [.call call] ↔ .visit f ∈ log := by simp
  have hb (f : FuncId) : .build f ∈ log ++ [.call call] ↔ .build f ∈ log := by simp
  refine ⟨h.pos, h.number, since_modify h.since ?_ ?_, fun f => ?_, fun f => ?_, fun f hf => ?_,
    fun event hevent => ?_, fun call' hcall => ?_⟩
  · have hs := h.since call.callee
    obtain ⟨callers, he, -⟩ := Update.addCaller_spec call.site (u.known call.callee)
    have hmem := mem_addCaller (u.known call.callee) call.site
    rw [he] at hmem ⊢
    refine ⟨hs.computed, hs.visited.trans (hv _).symm, ?_, ?_, ?_, fun site => ?_, hs.early⟩
    · rw [hv, hb]
      exact hs.final
    · rw [hv, hb]
      exact hs.built
    · rw [hb]
      exact hs.unbuilt
    · have hcall : .call ⟨site, call.callee⟩ ∈ log ++ [.call call] ↔
          .call ⟨site, call.callee⟩ ∈ log ∨ site = call.site := by
        rw [List.mem_append, List.mem_singleton, Event.call.injEq]
        exact or_congr_right ⟨fun e => congrArg Call.site e, fun e => by rw [e]⟩
      rw [hmem, hcall, ← or_assoc]
      exact or_congr_left (hs.callers site)
  · rintro event hevent g hg
    cases List.mem_singleton.mp hevent
    exact hg.symm
  · intro hf
    rw [hv]
    rcases (present_modify ..).mp hf with rfl | hf
    · exact .inr hcallee
    · exact (h.present f hf).imp_right fun hwhy => .inl (hwhy.resolve_right nofun)
  · exact fun hf => (present_modify ..).mpr (.inr (h.kept f hf))
  · exact h.declared f ((hb f).mp hf)
  · rcases List.mem_append.mp hevent with hold | hnew
    · exact h.search event hold
    · cases List.mem_singleton.mp hnew
      rfl
  · rw [hv, hb]
    rcases List.mem_append.mp hcall with hold | hnew
    · obtain ⟨hbuilt, hvisit⟩ := h.calls call' hold
      exact ⟨hbuilt, .inl (hvisit.resolve_right nofun)⟩
    · cases List.mem_singleton.mp hnew
      exact ⟨hbuild, hcallee⟩

/-- A change of one function that comes with no event, or with events about this function alone. -/
theorem Recorded.modify {path' : List FuncId} (h : Recorded p start ⟨u, path, next, log⟩)
    (hnext : next = none ∧ (u.infos.find? f).isSome ∨ next = some f ∧ .visit f ∈ more)
    (hmore : ∀ event ∈ more, event = .visit f ∨ event = .build f)
    (hdeclared : .build f ∈ more → ∃ s, Scope.of? p f = some s)
    (hf : Since (log ++ more) start.number f (start.known f) (change (u.known f))) :
    Recorded p start ⟨u.modify f change, path', none, log ++ more⟩ := by
  have hgrow {event : Event} (he : event ∈ log) : event ∈ log ++ more := List.mem_append_left _ he
  refine ⟨h.pos, h.number, since_modify h.since hf ?_, fun g => ?_, fun g => ?_, fun g hg => ?_,
    fun event hevent => ?_, fun call hcall => ?_⟩
  · intro event hevent g hg
    rcases hmore event hevent with rfl | rfl
    · exact hg.symm
    · exact hg.symm
  · intro hg
    rcases (present_modify ..).mp hg with rfl | hg
    · rcases hnext with ⟨rfl, hf⟩ | ⟨-, hvisit⟩
      · exact (h.present f hf).imp_right (.imp_left hgrow)
      · exact .inr (.inl (List.mem_append_right _ hvisit))
    · rcases h.present g hg with hstart | hold | he
      · exact .inl hstart
      · exact .inr (.inl (hgrow hold))
      · -- the function that was to be visited next is visited now
        rcases hnext with ⟨hnone, -⟩ | ⟨hsome, hvisit⟩
        · cases hnone.symm.trans he
        · cases hsome.symm.trans he
          exact .inr (.inl (List.mem_append_right _ hvisit))
  · exact fun hg => (present_modify ..).mpr (.inr (h.kept g hg))
  · rcases List.mem_append.mp hg with hold | hnew
    · exact h.declared g hold
    · rcases hmore _ hnew with he | he
      · cases he
      · cases he
        exact hdeclared hnew
  · rcases List.mem_append.mp hevent with hold | hnew
    · exact h.search event hold
    · rcases hmore event hnew with rfl | rfl <;> rfl
  · have hold : .call call ∈ log := by
      refine (List.mem_append.mp hcall).resolve_right fun hnew => ?_
      rcases hmore _ hnew with he | he <;> cases he
    obtain ⟨hbuild, hcallee⟩ := h.calls call hold
    refine ⟨hgrow hbuild, .inl ?_⟩
    rcases hcallee with hcallee | he
    · exact hgrow hcallee
    · rcases hnext with ⟨hnone, -⟩ | ⟨hsome, hvisit⟩
      · cases hnone.symm.trans he
      · cases hsome.symm.trans he
        exact List.mem_append_right _ hvisit

/-- A change of one function that comes with no event. -/
theorem Recorded.modify_silent {path' : List FuncId}
    (h : Recorded p start ⟨u, path, none, log⟩) (hpresent : (u.infos.find? f).isSome)
    (hf : Since log start.number f (start.known f) (change (u.known f))) :
    Recorded p start ⟨u.modify f change, path', none, log⟩ := by
  rw [← List.append_nil log] at hf ⊢
  exact h.modify (.inl ⟨rfl, hpresent⟩) nofun nofun hf

theorem Recorded.leave (h : Recorded p start ⟨u, f :: path, none, log⟩) :
    Recorded p start ⟨u.place f, path, none, log⟩ := by
  have hsame : Recorded p start ⟨u, path, none, log⟩ :=
    ⟨h.pos, h.number, h.since, h.present, h.kept, h.declared, h.search, h.calls⟩
  unfold Update.place
  cases hf : u.infos.find? f with
  | none => exact hsame
  | some info =>
    dsimp only
    split
    · exact hsame
    · have hs := h.since f
      have hplaced : Recorded p start
          ⟨u.modify f fun info => { info with position := some u.order.size }, path, none, log⟩ :=
        hsame.modify_silent (by rw [hf]; rfl)
          ⟨hs.computed, hs.visited, hs.final, hs.built, hs.unbuilt, hs.callers, hs.early⟩
      exact ⟨h.pos, hplaced.number, hplaced.since, hplaced.present, hplaced.kept, hplaced.declared,
        hplaced.search, hplaced.calls⟩

/-- **One step** keeps up what is known about the functions. -/
theorem Recorded.step (h : Recorded p start x) (hstep : Step p max x y) : Recorded p start y := by
  have hnumber := h.number
  cases hstep with
  | again call hc hb hv =>
    have hvisit := (h.since call.callee).visited.mp (hv.trans hnumber)
    exact h.call (hc ▸ hb) (.inl hvisit)
  | descend call hc hb _ => exact h.call (hc ▸ hb) (.inr rfl)
  | @reuse u f path log hv hc =>
    have hs := h.since f
    have hnv : .visit f ∉ log := fun hvisit => hv ((hs.visited.mpr hvisit).trans hnumber.symm)
    have hnb : .build f ∉ log := fun hbuild => hnv (hs.built hbuild).1
    have hfinal := hs.computed.symm.trans hc
    refine h.modify (.inr ⟨rfl, List.mem_singleton_self _⟩)
      (fun _ he => .inl (List.mem_singleton.mp he)) (by simp) ?_
    refine ⟨hs.computed, iff_of_true hnumber (by simp), fun _ => .inl hfinal, fun hb => ?_,
      fun _ => hs.unbuilt hnb, fun site => ?_, Nat.le_of_eq hnumber, hs.early.2⟩
    · exact absurd (by simpa using hb) hnb
    · have hcall : .call ⟨site, f⟩ ∈ log ++ [.visit f] ↔ .call ⟨site, f⟩ ∈ log := by simp
      rw [hcall]
      exact hs.callers site
  | @build u f path log hv hc _ hd =>
    have hs := h.since f
    refine h.modify (.inr ⟨rfl, List.mem_cons_self⟩) (by simp) (fun _ => hd) ?_
    refine ⟨hs.computed, iff_of_true hnumber (by simp), fun _ => .inr (by simp),
      fun _ => ⟨by simp, hs.computed.symm.trans hc, hnumber⟩, fun hb => absurd (by simp) hb,
      fun site => ?_, Nat.le_of_eq hnumber, Nat.le_of_eq hnumber⟩
    have hcall : .call ⟨site, f⟩ ∈ log ++ [.visit f, .build f] ↔ .call ⟨site, f⟩ ∈ log := by simp
    rw [hcall]
    exact hs.callers site
  | @keep u f path log graph hb =>
    have hs := h.since f
    refine h.modify_silent (h.find?_isSome (hs.built hb).1) ?_
    exact ⟨hs.computed, hs.visited, hs.final, hs.built, fun hnb => absurd hb hnb,
      hs.callers, hs.early⟩
  | leave => exact h.leave

/-- **A run** keeps up what is known about the functions. -/
theorem Recorded.steps (h : Recorded p start x) (hsteps : Steps p max x y) :
    Recorded p start y := by
  induction hsteps with
  | refl => exact h
  | tail _ hstep ih => exact ih.step hstep

/-! ### The whole search -/

/-- The stamps of all functions are from earlier updates. -/
def Stamped (a : Analysis) : Prop :=
  ∀ f info, a.infos.find? f = some info → info.builtIn ≤ a.updates ∧ info.visitedIn ≤ a.updates

theorem Stamped.known (h : Stamped a) (f : FuncId) :
    (a.begun.known f).builtIn ≤ a.updates ∧ (a.begun.known f).visitedIn ≤ a.updates := by
  cases hf : a.infos.find? f with
  | none =>
    rw [Update.known, Analysis.begun, hf]
    exact ⟨Nat.zero_le _, Nat.zero_le _⟩
  | some info =>
    rw [Update.known_of_find? hf]
    exact h f info hf

theorem Stamped.ordered (h : Stamped a) : Ordered root max ⟨a.begun, [], some root, []⟩ where
  pos := Nat.succ_pos _
  visits := .nil
  nodup := List.nodup_nil
  visited f := iff_of_false (Nat.ne_of_lt (Nat.lt_succ_of_le (h.known f).2)) nofun
  placed := nofun
  unplaced := nofun
  trail := .inr .root
  depth := nofun
  calls := nofun

theorem Stamped.recorded (h : Stamped a) : Recorded p a.begun ⟨a.begun, [], some root, []⟩ where
  pos := Nat.succ_pos _
  number := rfl
  since f := by
    obtain ⟨hb, hv⟩ := h.known f
    have hne : (a.begun.known f).visitedIn ≠ a.begun.number := Nat.ne_of_lt (Nat.lt_succ_of_le hv)
    exact ⟨rfl, iff_of_false hne nofun, nofun, nofun, fun _ => ⟨rfl, rfl, rfl, rfl⟩,
      fun _ => (or_iff_left nofun).symm, Nat.le_succ_of_le hv, Nat.le_succ_of_le hb⟩
  present _ := .inl
  kept _ := id
  declared := nofun
  search := nofun
  calls := nofun

end Search

/-- **A whole search**, up to the place of the root, is a run of the machine. -/
theorem Trace.build_run (h : Stamped a) (hroot : (p.func? root).isSome)
    (hok : (Trace.build a p max root a.begun).run = .ok (u, log)) :
    Steps p max ⟨a.begun, [], some root, []⟩ ⟨u.place root, [], none, log⟩ := by
  have hnew : (a.begun.known root).visitedIn ≠ a.begun.number :=
    Nat.ne_of_lt (Nat.lt_succ_of_le (h.known root).2)
  have hwalk := build_steps a p max max root _ u log [] [] (Scope.exists_of_isSome hroot) hnew
    (Nat.zero_add _) hok
  exact hwalk.tail Search.Step.leave

end Escape
