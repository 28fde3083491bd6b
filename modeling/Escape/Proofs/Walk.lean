import Escape.Worklist
import Mathlib.Data.List.Nodup
import Mathlib.Data.List.Perm.Subperm
import Mathlib.Logic.Relation

/-!
# Walks are exact

A walk that is never given up finds exactly what can be reached: every entry it goes on from is
reached along followed entries, and once the bound is at least the number of entries there are,
every successor of a found entry was found or judged.

- `Walk.run_explored`: a long enough run leaves no successor of a found entry unseen.
- `Walk.run_extra`: such a run ends by itself.
- `mem_closure_iff`: `closure` is reachability.
- `closure_parent`: an entry is listed after one that it is a successor of.
- `Walk.start_covers`: a walk that follows everything judges once what can be reached.
-/

namespace Escape

export Relation (ReflTransGen)

namespace Walk

variable {α : Type} {next : α → List α} {verdict : α → Verdict} {w w' w'' : Walk α}

/-- The entries that a walk goes on from, in the order of discovery. -/
def found (w : Walk α) : List α := w.frontier.items.toList

/-- The frontier lists each entry once, and the walk was not given up. -/
structure Tidy (w : Walk α) : Prop where
  nodup : w.found.Nodup
  visited : ∀ a, a ∈ w.frontier.visited ↔ a ∈ w.found
  going : w.halted = false

/-- What judging the entries of `l` does to a walk: the frontier grows at its end by entries of `l`
that are to be followed, and every entry of `l` is on the frontier or on the trail afterwards. -/
structure Judged (verdict : α → Verdict) (l : List α) (w w' : Walk α) : Prop where
  tidy : w'.Tidy
  found_grows : w.found <+: w'.found
  trail_grows : ∀ a ∈ w.trail, a ∈ w'.trail
  follow : ∀ a ∈ l, verdict a = .follow → a ∈ w'.found
  seen : ∀ a ∈ l, a ∈ w'.found ∨ a ∈ w'.trail
  of_found : ∀ a ∈ w'.found, a ∈ w.found ∨ a ∈ l ∧ verdict a = .follow
  of_trail : ∀ a ∈ w'.trail, a ∈ w.trail ∨ a ∈ l

theorem Judged.nil (h : w.Tidy) : Judged verdict [] w w where
  tidy := h
  found_grows := List.prefix_rfl
  trail_grows _ ha := ha
  follow := by simp
  seen := by simp
  of_found _ ha := .inl ha
  of_trail _ ha := .inl ha

/-- Judging two lists one after the other is judging all their entries. -/
theorem Judged.append {l m : List α} (h : Judged verdict l w w') (h' : Judged verdict m w' w'') :
    Judged verdict (l ++ m) w w'' where
  tidy := h'.tidy
  found_grows := h.found_grows.trans h'.found_grows
  trail_grows a ha := h'.trail_grows a (h.trail_grows a ha)
  follow a ha hf := by
    rcases List.mem_append.mp ha with ha | ha
    · exact h'.found_grows.subset (h.follow a ha hf)
    · exact h'.follow a ha hf
  seen a ha := by
    rcases List.mem_append.mp ha with ha | ha
    · exact (h.seen a ha).imp (h'.found_grows.subset ·) (h'.trail_grows a)
    · exact h'.seen a ha
  of_found a ha := by
    rcases h'.of_found a ha with ha | ⟨ha, hf⟩
    · exact (h.of_found a ha).imp_right fun ⟨hl, hf⟩ => ⟨List.mem_append_left _ hl, hf⟩
    · exact .inr ⟨List.mem_append_right _ ha, hf⟩
  of_trail a ha := by
    rcases h'.of_trail a ha with ha | ha
    · exact (h.of_trail a ha).imp_right (List.mem_append_left _)
    · exact .inr (List.mem_append_right _ ha)

variable [DecidableEq α]

/-- Judging one entry. -/
theorem visit_judged (h : w.Tidy) (a : α) (hv : verdict a ≠ .halt) :
    Judged verdict [a] w (visit verdict w a) := by
  unfold visit
  split
  case isTrue hin =>
    have hin : a ∈ w.found := by
      simpa [h.going, Worklist.contains, h.visited] using hin
    exact {
      tidy := h
      found_grows := List.prefix_rfl
      trail_grows := fun _ hb => hb
      follow := by simp [hin]
      seen := by simp [hin]
      of_found := fun _ hb => .inl hb
      of_trail := fun _ hb => .inl hb }
  case isFalse hout =>
    have hout : a ∉ w.found := by
      simpa [h.going, Worklist.contains, h.visited] using hout
    have hvis : w.frontier.contains a = false := by
      simpa [Worklist.contains, h.visited] using hout
    cases hva : verdict a with
    | halt => exact absurd hva hv
    | backtrack =>
      exact {
        tidy := ⟨h.nodup, h.visited, h.going⟩
        found_grows := List.prefix_rfl
        trail_grows := fun b hb => by simp [hb]
        follow := by simp [hva]
        seen := by simp
        of_found := fun _ hb => .inl hb
        of_trail := fun b hb => by simpa using hb }
    | follow =>
      -- the entry is new, so the frontier grows by it
      have hfound : found { w with frontier := w.frontier.push a, trail := w.trail.push a } =
          w.found ++ [a] := by
        simp [found, Worklist.push, hvis]
      refine ⟨⟨?_, ?_, h.going⟩, ?_, ?_, ?_, ?_, ?_, ?_⟩
      · rw [hfound]
        exact h.nodup.append (List.nodup_singleton a) (by simpa using hout)
      · intro b
        rw [hfound]
        simp [Worklist.push, hvis, h.visited, or_comm]
      · rw [hfound]
        exact List.prefix_append _ _
      · intro b hb
        simp [hb]
      · simp [hfound]
      · simp [hfound]
      · intro b hb
        rw [hfound] at hb
        simp only [List.mem_append, List.mem_singleton] at hb ⊢
        exact hb.imp_right fun e => ⟨e, e ▸ hva⟩
      · intro b hb
        simpa using hb

variable (hv : ∀ a, verdict a ≠ .halt)
include hv

/-- Judging a list of entries. -/
theorem foldl_visit_judged (l : List α) :
    ∀ {w : Walk α}, w.Tidy → Judged verdict l w (l.foldl (visit verdict) w) := by
  induction l with
  | nil => exact fun h => .nil h
  | cons a l ih =>
    intro w h
    have ha := visit_judged h a (hv a)
    exact ha.append (ih ha.tidy)

/-! ### Runs -/

omit hv in
/-- What handling one entry of the frontier preserves holds after a run. -/
theorem run_invariant {P : Walk α → Prop}
    (step : ∀ w a, P w → a ∈ w.found → P ((next a).foldl (visit verdict) w)) :
    ∀ (bound i : Nat) (w : Walk α), P w → P (run next verdict bound i w) := by
  intro bound
  induction bound with
  | zero => exact fun _ _ h => h
  | succ bound ih =>
    intro i w h
    unfold run
    split
    · exact h
    · split
      · exact h
      · rename_i a ha
        exact ih _ _ (step w a h (Array.mem_toList_iff.mpr (Array.mem_of_getElem? ha)))

theorem run_tidy (h : w.Tidy) (bound i : Nat) : (run next verdict bound i w).Tidy :=
  run_invariant (P := Tidy) (fun _ a h _ => (foldl_visit_judged hv (next a) h).tidy) bound i w h

theorem run_found_grows (h : w.Tidy) (bound i : Nat) :
    w.found <+: (run next verdict bound i w).found := by
  refine (run_invariant (P := fun w' => w'.Tidy ∧ w.found <+: w'.found) ?_ bound i w
    ⟨h, List.prefix_rfl⟩).2
  rintro w' a ⟨ht, hp⟩ -
  have hj := foldl_visit_judged hv (next a) ht
  exact ⟨hj.tidy, hp.trans hj.found_grows⟩

/-- What holds of the entries found so far, and passes on to successors that are followed, holds of
everything that a run finds. -/
theorem run_induct {P : α → Prop} (h : w.Tidy) (base : ∀ a ∈ w.found, P a)
    (step : ∀ a b, P a → b ∈ next a → verdict b = .follow → P b) (bound i : Nat) :
    ∀ a ∈ (run next verdict bound i w).found, P a := by
  refine (run_invariant (P := fun w' => w'.Tidy ∧ ∀ a ∈ w'.found, P a) ?_ bound i w ⟨h, base⟩).2
  rintro w' a ⟨ht, hp⟩ ha
  have hj := foldl_visit_judged hv (next a) ht
  refine ⟨hj.tidy, fun b hb => ?_⟩
  rcases hj.of_found b hb with hb | ⟨hb, hf⟩
  · exact hp b hb
  · exact step a b (hp a ha) hb hf

/-- A run judges successors of the entries that it finds, and nothing else. -/
theorem run_of_trail (h : w.Tidy) (bound i : Nat) : ∀ b ∈ (run next verdict bound i w).trail,
      b ∈ w.trail ∨ ∃ a ∈ (run next verdict bound i w).found, b ∈ next a := by
  refine (run_invariant (P := fun w' => w'.Tidy ∧
    ∀ b ∈ w'.trail, b ∈ w.trail ∨ ∃ a ∈ w'.found, b ∈ next a) ?_ bound i w
    ⟨h, fun _ hb => .inl hb⟩).2
  rintro w' a ⟨ht, hp⟩ ha
  have hj := foldl_visit_judged hv (next a) ht
  refine ⟨hj.tidy, fun b hb => ?_⟩
  rcases hj.of_trail b hb with hb | hb
  · exact (hp b hb).imp_right fun ⟨c, hc, hbc⟩ => ⟨c, hj.found_grows.subset hc, hbc⟩
  · exact .inr ⟨a, hj.found_grows.subset ha, hb⟩

omit hv in
/-- All successors of the first `i` found entries were judged. -/
def ExploredUpTo (next : α → List α) (verdict : α → Verdict) (i : Nat) (w : Walk α) : Prop :=
  ∀ j < i, ∀ a, w.found[j]? = some a → ∀ b ∈ next a,
    (verdict b = .follow → b ∈ w.found) ∧ (b ∈ w.found ∨ b ∈ w.trail)

omit hv in
/-- All successors of all found entries were judged. -/
def Explored (next : α → List α) (verdict : α → Verdict) (w : Walk α) : Prop :=
  ∀ a ∈ w.found, ∀ b ∈ next a, (verdict b = .follow → b ∈ w.found) ∧ (b ∈ w.found ∨ b ∈ w.trail)

omit hv in
omit [DecidableEq α] in
/-- Handling the entry at position `i` explores one entry more. -/
theorem ExploredUpTo.step {i : Nat} {a : α} (h : w.ExploredUpTo next verdict i)
    (ha : w.found[i]? = some a) (hj : Judged verdict (next a) w w') :
    w'.ExploredUpTo next verdict (i + 1) := by
  intro j hji b hb c hc
  have hi : i < w.found.length := (List.getElem?_eq_some_iff.mp ha).1
  obtain ⟨t, ht⟩ := hj.found_grows
  rw [← ht, List.getElem?_append_left (by omega)] at hb
  rcases Nat.lt_succ_iff_lt_or_eq.mp hji with hji | rfl
  · obtain ⟨hf, hs⟩ := h j hji b hb c hc
    exact ⟨fun e => hj.found_grows.subset (hf e),
      hs.imp (hj.found_grows.subset ·) (hj.trail_grows c)⟩
  · obtain rfl : a = b := Option.some.inj (ha.symm.trans hb)
    exact ⟨hj.follow c hc, hj.seen c hc⟩

omit hv in
omit [DecidableEq α] in
/-- Once the position has passed the last found entry, all of them were explored. -/
theorem ExploredUpTo.explored {i : Nat} (h : w.ExploredUpTo next verdict i)
    (hi : w.found.length ≤ i) : w.Explored next verdict := by
  intro a ha
  obtain ⟨j, hj, rfl⟩ := List.getElem_of_mem ha
  exact h j (by omega) _ (List.getElem?_eq_getElem hj)

/-- **A long enough run is complete**: as many rounds as there are entries to find explore
everything that is found. -/
theorem run_explored {U : List α} (bound i : Nat) (w : Walk α) (ht : w.Tidy)
    (hi : i ≤ w.found.length) (hx : w.ExploredUpTo next verdict i) (hb : U.length ≤ bound + i)
    (hU : (∀ a ∈ (run next verdict bound i w).found, a ∈ U)) :
    (run next verdict bound i w).Explored next verdict := by
  induction bound generalizing i w with
  | zero =>
    have hlen : w.found.length ≤ U.length := (List.subperm_of_subset ht.nodup hU).length_le
    exact hx.explored (by omega)
  | succ bound ih =>
    unfold run at hU ⊢
    rw [if_neg (by simp [ht.going])] at hU ⊢
    split
    · rename_i hnone
      exact hx.explored (by simpa [found] using hnone)
    · rename_i a ha
      simp only [ha] at hU
      have ha : w.found[i]? = some a := by simpa [found] using ha
      have hj := foldl_visit_judged hv (next a) ht
      refine ih _ _ hj.tidy ?_ (hx.step ha hj) (by omega) hU
      have := (List.getElem?_eq_some_iff.mp ha).1
      have := hj.found_grows.length_le
      omega

/-- **A long enough run ends by itself**: more rounds than there are entries to find change nothing.
-/
theorem run_extra {U : List α} (extra : Nat) (bound i : Nat) (w : Walk α) (ht : w.Tidy)
    (hb : U.length ≤ bound + i) (hU : (∀ a ∈ (run next verdict bound i w).found, a ∈ U)) :
    run next verdict (bound + extra) i w = run next verdict bound i w := by
  induction bound generalizing i w with
  | zero =>
    -- an entry that is left would be one more than there are to find
    have hlen : w.found.length ≤ U.length := (List.subperm_of_subset ht.nodup hU).length_le
    rw [found, Array.length_toList] at hlen
    have hend : w.frontier.items[i]? = none := Array.getElem?_eq_none (by omega)
    cases extra with
    | zero => rfl
    | succ extra => simp [run, ht.going, hend]
  | succ bound ih =>
    rw [Nat.add_right_comm]
    unfold run at hU ⊢
    rw [if_neg (by simp [ht.going])] at hU ⊢
    rw [if_neg (by simp [ht.going])]
    split
    · rfl
    · rename_i a ha
      simp only [ha] at hU
      exact ih _ _ (foldl_visit_judged hv (next a) ht).tidy (by omega) hU

end Walk

/-! ### Closures -/

section Closure

variable {α : Type} [DecidableEq α] {next : α → List α} {a : α} {U : List α} {bound : Nat}

/-- The walk that starts with a single entry. -/
theorem Walk.tidy_singleton (a : α) :
    Walk.Tidy { frontier := Worklist.push {} a } where
  nodup := by simp [Walk.found, Worklist.push, Worklist.contains]
  visited := by simp [Walk.found, Worklist.push, Worklist.contains]
  going := rfl

theorem Walk.found_singleton (a : α) :
    Walk.found { frontier := Worklist.push {} a } = [a] := by
  simp [Walk.found, Worklist.push, Worklist.contains]

/-- The closure lists its starting point first. -/
theorem closure_eq_cons (next : α → List α) (bound : Nat) (a : α) :
    ∃ l, closure next bound a = a :: l := by
  have hgrows : Walk.found { frontier := Worklist.push {} a } <+: closure next bound a :=
    Walk.run_found_grows (by simp) (Walk.tidy_singleton a) bound 0
  obtain ⟨l, hl⟩ := hgrows
  exact ⟨l, hl.symm⟩

theorem closure_nodup (next : α → List α) (bound : Nat) (a : α) : (closure next bound a).Nodup :=
  (Walk.run_tidy (by simp) (Walk.tidy_singleton a) bound 0).nodup

/-- What holds of the starting point and passes on to successors holds of the whole closure. -/
theorem closure_induct {P : α → Prop} (base : P a) (step : ∀ b c, P b → c ∈ next b → P c) :
    ∀ b ∈ closure next bound a, P b := by
  refine Walk.run_induct (by simp) (Walk.tidy_singleton a) ?_
    (fun b c hb hc _ => step b c hb hc) _ _
  simp [Walk.found_singleton, base]

/-- A long enough closure contains the successors of its entries. -/
theorem closure_closed (hU : ∀ b ∈ closure next bound a, b ∈ U) (hb : U.length ≤ bound) {b c : α}
    (hbc : b ∈ closure next bound a) (hc : c ∈ next b) :
    c ∈ closure next bound a := by
  have hx : (Walk.start next (fun _ => .follow) bound a).Explored next fun _ => .follow :=
    Walk.run_explored (by simp) bound 0 _ (Walk.tidy_singleton a) (Nat.zero_le _)
      (fun j hj => absurd hj (by omega)) hb hU
  exact (hx b hbc c hc).1 rfl

/-- A long enough closure does not grow with its bound. -/
theorem closure_extra (hU : ∀ b ∈ closure next bound a, b ∈ U) (hb : U.length ≤ bound)
    (extra : Nat) : closure next (bound + extra) a = closure next bound a := by
  unfold closure Walk.start
  rw [Walk.run_extra (by simp) extra bound 0 _ (Walk.tidy_singleton a) hb hU]

theorem mem_closure_self (next : α → List α) (bound : Nat) (a : α) :
    a ∈ closure next bound a := by
  obtain ⟨l, hl⟩ := closure_eq_cons next bound a
  rw [hl]
  exact List.mem_cons_self

/-- **The closure is reachability**, if it is long enough for all there is. -/
theorem mem_closure_iff (hU : ∀ b ∈ closure next bound a, b ∈ U) (hb : U.length ≤ bound) (b : α) :
    b ∈ closure next bound a ↔ ReflTransGen (fun x y => y ∈ next x) a b := by
  constructor
  · exact closure_induct .refl (fun _ _ h hc => h.tail hc) b
  · intro h
    induction h with
    | refl => exact mem_closure_self next bound a
    | tail _ hc ih => exact closure_closed hU hb ih hc

/-- The closure is reachability already if all entries there are but one can be handled. -/
theorem mem_closure_iff_of_le (hU : ∀ b, ReflTransGen (fun x y => y ∈ next x) a b → b ∈ U)
    (hb : U.length ≤ bound + 1) (b : α) :
    b ∈ closure next bound a ↔ ReflTransGen (fun x y => y ∈ next x) a b := by
  by_cases hlen : (closure next bound a).length ≤ bound
  · exact mem_closure_iff (fun _ h => h) hlen b
  · -- an entry that was not handled is the last one that there is
    have hreach : ∀ b ∈ closure next bound a, ReflTransGen (fun x y => y ∈ next x) a b :=
      closure_induct .refl fun _ _ h hc => h.tail hc
    have hsub : (closure next bound a).Subperm U :=
      (closure_nodup next bound a).subperm fun b h => hU b (hreach b h)
    have hperm : (closure next bound a).Perm U := hsub.perm_of_length_le (by omega)
    exact ⟨hreach b, fun h => hperm.mem_iff.mpr (hU b h)⟩

/-- Every entry but the first one is a successor of an entry that stands before it. -/
theorem closure_parent {i : Nat} {c : α} (hc : (closure next bound a)[i + 1]? = some c) :
    ∃ j ≤ i, ∃ b, (closure next bound a)[j]? = some b ∧ c ∈ next b := by
  -- of what is found in one round, the successors of one entry, this entry stands before all
  refine (Walk.run_invariant (P := fun w => w.Tidy ∧ 0 < w.found.length ∧ ∀ i c,
    w.found[i + 1]? = some c → ∃ j ≤ i, ∃ b, w.found[j]? = some b ∧
    c ∈ next b) ?_ bound 0 { frontier := Worklist.push {} a } ⟨Walk.tidy_singleton a, ?_, ?_⟩).2.2
    i c hc
  · rintro w b ⟨ht, hpos, hold⟩ hb
    have hfollow : ∀ x : α, (fun _ : α => Verdict.follow) x ≠ .halt := by simp
    have hj := Walk.foldl_visit_judged hfollow (next b) ht
    obtain ⟨k, hk, hbk⟩ := List.getElem_of_mem hb
    obtain ⟨t, hgrow⟩ := hj.found_grows
    refine ⟨hj.tidy, Nat.lt_of_lt_of_le hpos hj.found_grows.length_le, fun i c hi => ?_⟩
    have hkeep {j : Nat} {d : α} (hd : w.found[j]? = some d) :
        (Walk.found ((next b).foldl (Walk.visit fun _ => .follow) w))[j]? = some d := by
      rw [← hgrow, List.getElem?_append_left (List.getElem?_eq_some_iff.mp hd).1, hd]
    by_cases hlt : i + 1 < w.found.length
    · rw [← hgrow, List.getElem?_append_left hlt] at hi
      obtain ⟨j, hji, d, hd, hcd⟩ := hold i c hi
      exact ⟨j, hji, d, hkeep hd, hcd⟩
    · refine ⟨k, by omega, b, hkeep (List.getElem?_eq_some_iff.mpr ⟨hk, hbk⟩), ?_⟩
      refine ((hj.of_found c (List.mem_of_getElem? hi)).resolve_left fun hmem => ?_).1
      -- an entry that was there before is not listed again
      obtain ⟨m, hm, hcm⟩ := List.getElem_of_mem hmem
      have hm' := hkeep (List.getElem?_eq_some_iff.mpr ⟨hm, hcm⟩)
      have hsame := (List.getElem?_inj (List.getElem?_eq_some_iff.mp hi).1 hj.tidy.nodup).mp
        (hi.trans hm'.symm)
      omega
  · rw [Walk.found_singleton]
    exact Nat.one_pos
  · intro i c hi
    cases hi

/-! ### Walks that follow everything -/

/-- The walk `w` from `a` was not given up, and judged once what satisfies `P`, other than `a`
itself, and nothing else. -/
structure Walk.Covers (w : Walk α) (a : α) (P : α → Prop) : Prop where
  going : w.halted = false
  once : w.trail.toList.Nodup
  judged : ∀ b, b ∈ w.trail ↔ b ≠ a ∧ P b

/-- Whoever is followed is put on the frontier and on the trail at the same time. -/
theorem Walk.visit_follow {w : Walk α} (h : w.Tidy ∧ w.found = a :: w.trail.toList) (b : α) :
    (visit (fun _ => .follow) w b).Tidy ∧
      (visit (fun _ => .follow) w b).found = a :: (visit (fun _ => .follow) w b).trail.toList := by
  obtain ⟨ht, hfound⟩ := h
  refine ⟨(visit_judged ht b (by simp)).tidy, ?_⟩
  unfold visit
  split
  · exact hfound
  · rename_i hout
    have hvis : w.frontier.contains b = false := by
      simpa [ht.going] using hout
    have hpush : found { w with frontier := w.frontier.push b, trail := w.trail.push b } =
        w.found ++ [b] := by
      simp [found, Worklist.push, hvis]
    rw [hpush, hfound]
    simp

/-- A walk that follows everything judges all that it goes on from, other than its starting point.
-/
theorem closure_eq_cons_trail (next : α → List α) (bound : Nat) (a : α) :
    closure next bound a = a :: (Walk.start next (fun _ => .follow) bound a).trail.toList := by
  refine (Walk.run_invariant (P := fun w => w.Tidy ∧ w.found = a :: w.trail.toList) ?_ bound 0
    { frontier := Worklist.push {} a } ⟨Walk.tidy_singleton a, Walk.found_singleton a⟩).2
  intro w b h _
  exact List.foldlRecOn (motive := fun w : Walk α => w.Tidy ∧
    w.found = a :: w.trail.toList) (next b) _ h fun _ h c _ => Walk.visit_follow h c

/-- **A walk that follows everything is exact**, if all entries there are but one can be handled. -/
theorem Walk.start_covers (hU : ∀ b, ReflTransGen (fun x y => y ∈ next x) a b → b ∈ U)
    (hb : U.length ≤ bound + 1) :
    (Walk.start next (fun _ => .follow) bound a).Covers a
    (ReflTransGen (fun x y => y ∈ next x) a) := by
  have hlist := closure_eq_cons_trail next bound a
  have hnodup := closure_nodup next bound a
  rw [hlist, List.nodup_cons] at hnodup
  refine ⟨(Walk.run_tidy (by simp) (Walk.tidy_singleton a) bound 0).going, hnodup.2, fun b => ?_⟩
  rw [← mem_closure_iff_of_le hU hb, hlist, List.mem_cons, ← Array.mem_toList_iff]
  refine ⟨fun h => ⟨fun e => hnodup.1 (e ▸ h), .inr h⟩, fun ⟨hne, h⟩ => h.resolve_left hne⟩

end Closure

end Escape
