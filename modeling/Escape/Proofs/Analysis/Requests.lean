import Escape.Analysis.Query
import Escape.Proofs.Analysis.Updates
import Mathlib.Logic.Relation

/-!
# Runs of requests

A client looks graphs up, asks questions, and reports changes of the program, in any order. Whatever
the order, everything is at rest between two requests.

- `Analysis.request_moves`: every request takes updates and drops graphs, and does nothing else.
- `Analysis.AtRest.run`: **everything is at rest after every run of requests.**
-/

namespace Escape

open Escape.Graph Relation

variable {p : Program} {f g : FuncId} {info : FuncInfo} {a a' : Analysis} {index : Nat}
  {inside b : Bool}

/-- What a client asks for while the program stays as it is. -/
inductive Request where
  /-- The full graph and the summary of a function. -/
  | lookup (f : FuncId)
  | canEscapeTo (f : FuncId) (v : ValueId) (user : InstId)
  | mayAlias (f : FuncId) (v w : ValueId)
  | mayRelease (f : FuncId) (released live : ValueId)
  | canParameterEscape (site : CallSite) (index : Nat) (inside : Bool)
  | recompute (f : FuncId)
  | invalidate (f : FuncId)
  | invalidateAll

/-- Meets a request; what it answers is left out. A request that is refused changes nothing. -/
def Request.apply (p : Program) (a : Analysis) : Request → Checked Analysis
  | .lookup f => return (← a.infoFor p f).toOption.elim a (·.1)
  | .canEscapeTo f v user => return (← a.canEscapeTo p f v user).1
  | .mayAlias f v w => return (← a.mayAlias p f v w).1
  | .mayRelease f released live => return (← a.mayRelease p f released live).1
  | .canParameterEscape site index inside => return (← a.canParameterEscape p site index inside).1
  | .recompute f => return (← a.recompute p f).toOption.getD a
  | .invalidate f => return a.invalidate f
  | .invalidateAll => return a.invalidateAll

namespace Analysis

/-- Meets requests one after another. -/
def run (p : Program) (a : Analysis) (requests : List Request) : Checked Analysis :=
  requests.foldlM (Request.apply p) a

/-! ### Looking graphs up and asking questions -/

/-- An update of a declared function. -/
def Updates (p : Program) (a a' : Analysis) : Prop :=
  ∃ f, (p.func? f).isSome ∧ a.update p f = .ok a'

/-- Looking graphs up and asking questions takes some updates, and nothing else. -/
abbrev Computes (p : Program) : Analysis → Analysis → Prop := ReflTransGen (Updates p)

/-- Looking the graphs of a function up. -/
theorem infoFor_computes {r : Except AccessError (Analysis × FuncInfo)}
    (hok : a.infoFor p f = .ok r) : (∃ why, r = .error why) ∨ ∃ a' info, r = .ok (a', info) ∧
    Computes p a a' ∧ a'.infos.find? f = some info := by
  unfold Analysis.infoFor at hok
  split at hok
  · cases hok
    exact .inl ⟨_, rfl⟩
  · rename_i hf
    obtain ⟨a₁, hensure, hok⟩ := bind_ok.mp hok
    have hcomputes : Computes p a a₁ := by
      unfold Analysis.ensure at hensure
      split at hensure
      · cases hensure
        exact .refl
      · exact .single ⟨f, Option.isSome_iff_ne_none.mpr (by simpa using hf), hensure⟩
    cases hinfo : a₁.info? f with
    | none =>
      rw [hinfo] at hok
      cases hok
      exact .inl ⟨_, rfl⟩
    | some info =>
      rw [hinfo] at hok
      cases hok
      exact .inr ⟨a₁, info, rfl, hcomputes, hinfo⟩

/-- Asking the full graph of a function. -/
theorem askGraph_computes {question : Graph → Checked Bool}
    (hok : a.askGraph p f question = .ok (a', b)) : Computes p a a' := by
  obtain ⟨r, hinfo, hok⟩ := bind_ok.mp hok
  rcases infoFor_computes hinfo with ⟨why, rfl⟩ | ⟨a₁, info, rfl, hcomputes, -⟩
  · cases hok
    exact .refl
  · dsimp only at hok
    split at hok
    · obtain ⟨b', -, hok⟩ := bind_ok.mp hok
      cases hok
      exact hcomputes
    · cases hok
      exact hcomputes

theorem canEscapeTo_computes {v : ValueId} {user : InstId}
    (hok : a.canEscapeTo p f v user = .ok (a', b)) : Computes p a a' := by
  unfold Analysis.canEscapeTo at hok
  split at hok
  · cases hok
    exact .refl
  · obtain ⟨unique, -, hok⟩ := bind_ok.mp hok
    split at hok
    · cases hok
      exact .refl
    · exact askGraph_computes hok

theorem mayAlias_computes {v w : ValueId} (hok : a.mayAlias p f v w = .ok (a', b)) :
    Computes p a a' := by
  unfold Analysis.mayAlias at hok
  split at hok
  · cases hok
    exact .refl
  · obtain ⟨uniqueV, -, hok⟩ := bind_ok.mp hok
    obtain ⟨uniqueW, -, hok⟩ := bind_ok.mp hok
    split at hok
    · cases hok
      exact .refl
    · exact askGraph_computes hok

theorem mayRelease_computes {released live : ValueId}
    (hok : a.mayRelease p f released live = .ok (a', b)) : Computes p a a' := by
  unfold Analysis.mayRelease at hok
  split at hok
  · cases hok
    exact .refl
  · exact askGraph_computes hok

theorem calleeLetsEscape_computes (hok : a.calleeLetsEscape p f index inside = .ok (a', b)) :
    Computes p a a' := by
  unfold Analysis.calleeLetsEscape at hok
  split at hok
  · cases hok
    exact .refl
  · obtain ⟨args, -, hok⟩ := bind_ok.mp hok
    split at hok
    · cases hok
      exact .refl
    · obtain ⟨pointer, -, hok⟩ := bind_ok.mp hok
      split at hok
      · cases hok
        exact .refl
      · obtain ⟨r, hinfo, hok⟩ := bind_ok.mp hok
        rcases infoFor_computes hinfo with ⟨why, rfl⟩ | ⟨a₁, info, rfl, hcomputes, -⟩
        · cases hok
          exact .refl
        · obtain ⟨b', -, hok⟩ := bind_ok.mp hok
          cases hok
          exact hcomputes

theorem someLetsEscape_computes (fs : List FuncId) (a : Analysis) {a' : Analysis} {b : Bool}
    (hok : someLetsEscape p index inside fs a = .ok (a', b)) : Computes p a a' := by
  induction fs generalizing a a' b with
  | nil =>
    cases hok
    exact .refl
  | cons f fs ih =>
    obtain ⟨⟨a₁, escapes⟩, hcallee, hok⟩ := bind_ok.mp hok
    have hcomputes := calleeLetsEscape_computes hcallee
    dsimp only at hok
    split at hok
    · cases hok
      exact hcomputes
    · exact hcomputes.trans (ih a₁ hok)

theorem canParameterEscape_computes {site : CallSite}
    (hok : a.canParameterEscape p site index inside = .ok (a', b)) : Computes p a a' := by
  obtain ⟨callees, -, hok⟩ := bind_ok.mp hok
  split at hok
  · cases hok
    exact .refl
  · cases hok
    exact .refl
  · exact someLetsEscape_computes _ a hok

/-! ### Requests -/

/-- What requests are made of. -/
inductive Moves (p : Program) : Analysis → Analysis → Prop
  | update {a a' : Analysis} : Updates p a a' → Moves p a a'
  | invalidate {a : Analysis} (f : FuncId) : Moves p a (a.invalidate f)
  | invalidateAll {a : Analysis} : Moves p a a.invalidateAll

theorem Computes.moves (h : Computes p a a') : ReflTransGen (Moves p) a a' :=
  h.lift id fun _ _ => .update

/-- **Every request takes updates and drops graphs**, and does nothing else. -/
theorem request_moves {r : Request} (hok : r.apply p a = .ok a') : ReflTransGen (Moves p) a a' := by
  cases r with
  | lookup f =>
    obtain ⟨r, hinfo, hok⟩ := bind_ok.mp hok
    rcases infoFor_computes hinfo with ⟨why, rfl⟩ | ⟨a₁, info, rfl, hcomputes, -⟩
    · cases hok
      exact .refl
    · cases hok
      exact hcomputes.moves
  | canEscapeTo f v user =>
    obtain ⟨⟨a₁, b⟩, hask, hok⟩ := bind_ok.mp hok
    cases hok
    exact (canEscapeTo_computes hask).moves
  | mayAlias f v w =>
    obtain ⟨⟨a₁, b⟩, hask, hok⟩ := bind_ok.mp hok
    cases hok
    exact (mayAlias_computes hask).moves
  | mayRelease f released live =>
    obtain ⟨⟨a₁, b⟩, hask, hok⟩ := bind_ok.mp hok
    cases hok
    exact (mayRelease_computes hask).moves
  | canParameterEscape site index inside =>
    obtain ⟨⟨a₁, b⟩, hask, hok⟩ := bind_ok.mp hok
    cases hok
    exact (canParameterEscape_computes hask).moves
  | recompute f =>
    obtain ⟨r, hrec, hok⟩ := bind_ok.mp hok
    unfold Analysis.recompute at hrec
    split at hrec
    · cases hrec
      cases hok
      exact .refl
    · rename_i hf
      obtain ⟨a₁, hupdate, hrec⟩ := bind_ok.mp hrec
      cases hrec
      cases hok
      have hdeclared : (p.func? f).isSome := Option.isSome_iff_ne_none.mpr (by simpa using hf)
      exact .tail (.single (.invalidate f)) (.update ⟨f, hdeclared, hupdate⟩)
  | invalidate f =>
    cases hok
    exact .single (.invalidate f)
  | invalidateAll =>
    cases hok
    exact .single .invalidateAll

/-- So does a run of requests. -/
theorem run_moves {requests : List Request} (hok : a.run p requests = .ok a') :
    ReflTransGen (Moves p) a a' := by
  refine foldlM_of_ok (P := fun _ a' => ReflTransGen (Moves p) a a') ?_ .refl hok
  intro done r rest a₁ a₂ _ h₁ hstep
  exact h₁.trans (request_moves hstep)

/-! ### Rest between requests -/

/-- Computing graphs. -/
theorem AtRest.computes (hp : p.Sound) (h : AtRest p a) (hcomputes : Computes p a a') :
    Learns p a a' := by
  induction hcomputes with
  | refl => exact .refl h
  | tail _ hupdate ih =>
    obtain ⟨f, hf, hok⟩ := hupdate
    exact ih.trans (ih.rest.update hp hf hok)

theorem AtRest.infoFor (hp : p.Sound) (h : AtRest p a)
    {r : Except AccessError (Analysis × FuncInfo)} (hok : a.infoFor p f = .ok r) :
    (∃ why, r = .error why) ∨ ∃ a' info, r = .ok (a', info) ∧ Learns p a a' ∧
    a'.infos.find? f = some info := by
  refine (infoFor_computes hok).imp_right ?_
  rintro ⟨a₁, info, rfl, hcomputes, hf⟩
  exact ⟨a₁, info, rfl, h.computes hp hcomputes, hf⟩

theorem AtRest.calleeLetsEscape (hp : p.Sound) (h : AtRest p a)
    (hok : a.calleeLetsEscape p f index inside = .ok (a', b)) : Learns p a a' :=
  h.computes hp (calleeLetsEscape_computes hok)

theorem AtRest.someLetsEscape (hp : p.Sound) (fs : List FuncId) (a : Analysis) {a' : Analysis}
    (h : AtRest p a) (hok : Analysis.someLetsEscape p index inside fs a = .ok (a', b)) :
    Learns p a a' :=
  h.computes hp (someLetsEscape_computes fs a hok)

theorem lookup_filter_keys {κ α : Type} [DecidableEq κ] (keep : κ → Bool) (k : κ) :
    ∀ l : List (κ × α), AssocMap.lookup k (l.filter fun e => keep e.1) =
    if keep k then AssocMap.lookup k l else none
  | [] => by simp [AssocMap.lookup]
  | (k', b) :: l => by
    have ih := lookup_filter_keys keep k l
    by_cases hk : k' = k
    · subst hk
      by_cases hkeep : keep k' = true <;> simp_all [AssocMap.lookup]
    · by_cases hkeep : keep k' = true <;> simp_all [AssocMap.lookup]

/-- What is known after a function was dropped, with everything that calls it. -/
theorem find?_invalidate (h : (a.invalidate f).infos.find? g = some info) : g ∉ a.dependents f ∧
    ∃ old, a.infos.find? g = some old ∧ info = old.filterCallers (·.caller ∉ a.dependents f) := by
  rw [invalidate, AssocMap.find?_mapValues] at h
  obtain ⟨old, hold, rfl⟩ := Option.map_eq_some_iff.mp h
  rw [AssocMap.find?, lookup_filter_keys fun g => decide (g ∉ a.dependents f)] at hold
  split at hold
  · rename_i hg
    exact ⟨of_decide_eq_true hg, old, hold, rfl⟩
  · cases hold

theorem find?_invalidate_of_not_mem (hg : g ∉ a.dependents f) (h : a.infos.find? g = some info) :
    (a.invalidate f).infos.find? g = some (info.filterCallers (·.caller ∉ a.dependents f)) := by
  rw [invalidate, AssocMap.find?_mapValues, AssocMap.find?,
    lookup_filter_keys fun g => decide (g ∉ a.dependents f), if_pos (decide_eq_true hg)]
  exact congrArg _ h

/-- Dropping functions. The calls of what is left are those of functions that are left. -/
theorem AtRest.invalidate (h : AtRest p a) (f : FuncId) : AtRest p (a.invalidate f) where
  sane g info hg := by
    obtain ⟨-, old, hold, rfl⟩ := find?_invalidate hg
    obtain ⟨s, hs, hsane⟩ := h.sane g old hold
    exact ⟨s, hs, hsane.1, hsane.2, hsane.3, hsane.4⟩
  covers g info s hg hs := by
    obtain ⟨-, old, hold, rfl⟩ := find?_invalidate hg
    exact h.covers g old s hold hs
  calls g info hg site hsite caller s t hcaller hs ht := by
    obtain ⟨-, old, hold, rfl⟩ := find?_invalidate hg
    obtain ⟨-, oldCaller, hcaller₀, rfl⟩ := find?_invalidate hcaller
    exact h.calls g old hold site (List.mem_filter.mp hsite).1 oldCaller s t hcaller₀ hs ht
  final g info hg := by
    obtain ⟨-, old, hold, rfl⟩ := find?_invalidate hg
    exact h.final g old hold
  edges g info hg site hsite := by
    obtain ⟨-, old, hold, rfl⟩ := find?_invalidate hg
    obtain ⟨hsite, hkeep⟩ := List.mem_filter.mp hsite
    obtain ⟨⟨caller, hcaller⟩, hreach⟩ := h.edges g old hold site hsite
    exact ⟨⟨_, find?_invalidate_of_not_mem (of_decide_eq_true hkeep) hcaller⟩, hreach⟩
  checked hverify g info hg := by
    obtain ⟨-, old, hold, rfl⟩ := find?_invalidate hg
    exact h.checked hverify g old hold

theorem find?_of_empty (h : a.infos = {}) (f : FuncId) (info : FuncInfo) :
    a.infos.find? f ≠ some info := by
  rw [h]
  exact nofun

/-- Nothing is known. -/
theorem atRest_of_empty (h : a.infos = {}) : AtRest p a := by
  have hnone := find?_of_empty h
  exact ⟨⟨fun f info hf => absurd hf (hnone f info), fun f info _ hf => absurd hf (hnone f info),
    fun f info hf => absurd hf (hnone f info)⟩, fun f info hf => absurd hf (hnone f info),
    fun f info hf => absurd hf (hnone f info), fun _ f info hf => absurd hf (hnone f info)⟩

/-! ### Runs -/

/-- What requests are made of leads from rest to rest. -/
theorem AtRest.move (hp : p.Sound) (h : AtRest p a) (hmove : Moves p a a') :
    AtRest p a' ∧ a'.config = a.config := by
  cases hmove with
  | update hupdate =>
    obtain ⟨f, hf, hok⟩ := hupdate
    have hlearns := h.update hp hf hok
    exact ⟨hlearns.rest, hlearns.config⟩
  | invalidate f => exact ⟨h.invalidate f, rfl⟩
  | invalidateAll => exact ⟨atRest_of_empty rfl, rfl⟩

theorem AtRest.moves (hp : p.Sound) (h : AtRest p a) (hmoves : ReflTransGen (Moves p) a a') :
    AtRest p a' ∧ a'.config = a.config := by
  induction hmoves with
  | refl => exact ⟨h, rfl⟩
  | tail _ hmove ih =>
    obtain ⟨hrest, hconfig⟩ := ih.1.move hp hmove
    exact ⟨hrest, hconfig.trans ih.2⟩

/-- **Everything is at rest after every run of requests.** -/
theorem AtRest.run (hp : p.Sound) (h : AtRest p a) {requests : List Request}
    (hok : a.run p requests = .ok a') : AtRest p a' ∧ a'.config = a.config :=
  h.moves hp (run_moves hok)

end Analysis

end Escape
