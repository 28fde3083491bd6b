import Escape.UsePointSet
import Mathlib.Data.Finset.Sort
import Mathlib.Data.Finset.Update

/-!
# Use-point sets are finite sets

Members are kept in increasing order. As long as they are, each operation does to the list what it
says it does to the set, and tells whether the set is another one than before. A union merges two
lists; whatever the lists are, the first one is a sublist of the outcome, so an outcome of the same
length is the same list.

- `UsePointSet.merge_pairwise`, `UsePointSet.sublist_merge`: what merging keeps.
- `UsePointSet.runAll_refines`: **families of use-point sets behave as families of finite sets.**
-/

namespace Escape.UsePointSet

variable {s t : UsePointSet} {i j : Nat} {l as bs : List Nat}

/-- The members stand in increasing order. -/
def Sorted (s : UsePointSet) : Prop := s.bits.Pairwise (· < ·)

/-! ### Single operations -/

/-- The list stays sorted. -/
theorem place_pairwise (hl : l.Pairwise (· < ·)) (i : Nat) : (place i l).Pairwise (· < ·) := by
  induction l with
  | nil => exact List.pairwise_singleton _ i
  | cons b rest ih =>
    obtain ⟨hb, hrest⟩ := List.pairwise_cons.mp hl
    unfold place
    split
    · rename_i hlt
      refine List.pairwise_cons.mpr ⟨List.forall_mem_cons.mpr ⟨hlt, fun j hj => ?_⟩, hl⟩
      exact Nat.lt_trans hlt (hb j hj)
    · split
      · exact hl
      · refine List.pairwise_cons.mpr ⟨fun j hj => ?_, ih hrest⟩
        rcases mem_place.mp hj with rfl | hj
        · omega
        · exact hb j hj

/-- Sorted lists merge into a sorted list. -/
theorem merge_pairwise (has : as.Pairwise (· < ·)) (hbs : bs.Pairwise (· < ·)) :
    (merge as bs).Pairwise (· < ·) := by
  induction as generalizing bs with
  | nil => exact hbs
  | cons a as ihas =>
    obtain ⟨ha, has'⟩ := List.pairwise_cons.mp has
    induction bs with
    | nil => exact has
    | cons b bs ihbs =>
      obtain ⟨hb, hbs'⟩ := List.pairwise_cons.mp hbs
      rw [merge_cons_cons]
      -- what is taken over is smaller than all that is left in both lists
      split
      · refine List.pairwise_cons.mpr ⟨fun j hj => ?_, ihas has' hbs⟩
        rcases mem_merge.mp hj with hj | hj
        · exact ha j hj
        · rcases List.mem_cons.mp hj with rfl | hj
          · assumption
          · have := hb j hj
            omega
      · split
        · refine List.pairwise_cons.mpr ⟨fun j hj => ?_, ihbs hbs'⟩
          rcases mem_merge.mp hj with hj | hj
          · rcases List.mem_cons.mp hj with rfl | hj
            · assumption
            · have := ha j hj
              omega
          · exact hb j hj
        · refine List.pairwise_cons.mpr ⟨fun j hj => ?_, ihas has' hbs'⟩
          rcases mem_merge.mp hj with hj | hj
          · exact ha j hj
          · have := hb j hj
            omega

/-- Merging takes nothing out of the first list, and leaves it in order. -/
theorem sublist_merge (as bs : List Nat) : as.Sublist (merge as bs) := by
  induction as generalizing bs with
  | nil => exact List.nil_sublist _
  | cons a as ihas =>
    induction bs with
    | nil => exact List.Sublist.refl _
    | cons b bs ihbs =>
      rw [merge_cons_cons]
      split
      · exact (ihas (b :: bs)).cons_cons a
      · split
        · exact ihbs.cons b
        · exact (ihas bs).cons_cons a

theorem contains_iff : s.contains i = true ↔ i ∈ s.bits := decide_eq_true_iff

theorem mem_insert : j ∈ (s.insert i).1.bits ↔ j = i ∨ j ∈ s.bits := by
  unfold insert
  split
  · rename_i hi
    exact ⟨.inr, fun h => h.elim (fun e => e ▸ contains_iff.mp hi) id⟩
  · exact mem_place

theorem mem_erase : j ∈ (s.erase i).1.bits ↔ j ∈ s.bits ∧ j ≠ i := by
  unfold erase
  split
  · simp
  · rename_i hi
    exact ⟨fun hj => ⟨hj, fun e => hi (contains_iff.mpr (e ▸ hj))⟩, fun h => h.1⟩

theorem mem_union : j ∈ (s.union t).1.bits ↔ j ∈ s.bits ∨ j ∈ t.bits := mem_merge

theorem length_union_le (s t : UsePointSet) : s.bits.length ≤ (s.union t).1.bits.length :=
  (sublist_merge s.bits t.bits).length_le

/-- A union that is reported as no change is none. -/
theorem union_false (h : (s.union t).2 = false) : (s.union t).1 = s ∧ ∀ j ∈ t.bits, j ∈ s.bits := by
  have hlen : (s.union t).1.bits.length = s.bits.length := by
    simpa [union] using h
  have hsame : (s.union t).1 = s :=
    congrArg UsePointSet.mk ((sublist_merge s.bits t.bits).eq_of_length hlen.symm).symm
  exact ⟨hsame, fun j hj => hsame ▸ mem_union.mpr (.inr hj)⟩

/-- A union that reports a change is larger. -/
theorem union_true (h : (s.union t).2 = true) : s.bits.length < (s.union t).1.bits.length := by
  have hlen : (s.union t).1.bits.length ≠ s.bits.length := by
    simpa [union] using h
  have hle := length_union_le s t
  omega

namespace Sorted

theorem insert (h : s.Sorted) (i : Nat) : (s.insert i).1.Sorted := by
  unfold UsePointSet.insert
  split
  · exact h
  · exact place_pairwise h i

theorem erase (h : s.Sorted) (i : Nat) : (s.erase i).1.Sorted := by
  unfold UsePointSet.erase
  split
  · exact h.filter _
  · exact h

theorem union (hs : s.Sorted) (ht : t.Sorted) : (s.union t).1.Sorted := merge_pairwise hs ht

theorem nodup (h : s.Sorted) : s.bits.Nodup := List.Pairwise.imp Nat.ne_of_lt h

/-- There are only so many use points below a bound. -/
theorem length_le (h : s.Sorted) {k : Nat} (hk : ∀ u ∈ s.bits, u < k) : s.bits.length ≤ k := by
  have hsub := h.nodup.subperm fun u hu => List.mem_range.mpr (hk u hu)
  simpa using hsub.length_le

end Sorted

/-! ### Members out of a given set -/

/-- The members are in `U`, and stand in increasing order. -/
def In (U : Nat → Prop) (t : UsePointSet) : Prop := t.Sorted ∧ ∀ u ∈ t.bits, U u

namespace In

variable {U V : Nat → Prop}

theorem empty : ({} : UsePointSet).In U := ⟨.nil, fun _ hu => absurd hu List.not_mem_nil⟩

theorem mono (h : t.In U) (hUV : ∀ u, U u → V u) : t.In V := ⟨h.1, fun u hu => hUV u (h.2 u hu)⟩

theorem union (hs : s.In U) (ht : t.In U) : (s.union t).1.In U :=
  ⟨hs.1.union ht.1, fun u hu => (mem_union.mp hu).elim (hs.2 u) (ht.2 u)⟩

/-- Taking a number out. -/
theorem erase {u : Nat} (h : t.In U) (hUV : ∀ w, U w → w ≠ u → V w) : (t.erase u).1.In V := by
  refine ⟨h.1.erase u, fun w hw => ?_⟩
  obtain ⟨hw, hne⟩ := mem_erase.mp hw
  exact hUV w (h.2 w hw) hne

theorem singleton {u : Nat} (hu : U u) : (⟨[u]⟩ : UsePointSet).In U :=
  ⟨List.pairwise_singleton _ u, fun _ h => List.mem_singleton.mp h ▸ hu⟩

end In

/-! ### Families of sets -/

section Families

variable {ι : Type} [DecidableEq ι] {sets : ι → UsePointSet} {specs : ι → Finset Nat}

/-- An operation on one of several sets. -/
inductive Command (ι : Type) where
  | insert (k : ι) (i : Nat)
  | erase (k : ι) (i : Nat)
  /-- Adds the members of the set `source` to the set `k`. -/
  | union (k source : ι)
  | clear (k : ι)

namespace Command

/-- The set that an operation is about. -/
def key : Command ι → ι
  | insert k _ | erase k _ | union k _ | clear k => k

/-- Carries out an operation. All but `clear` answer. -/
def run (sets : ι → UsePointSet) : Command ι → (ι → UsePointSet) × Option Bool
  | insert k i => (Function.update sets k ((sets k).insert i).1, some ((sets k).insert i).2)
  | erase k i => (Function.update sets k ((sets k).erase i).1, some ((sets k).erase i).2)
  | union k l =>
    (Function.update sets k ((sets k).union (sets l)).1, some ((sets k).union (sets l)).2)
  | clear k => (Function.update sets k {}, none)

/-- What an operation means for a set. -/
def apply (sets : ι → Finset Nat) : Command ι → Finset Nat
  | insert k i => Insert.insert i (sets k)
  | erase k i => (sets k).erase i
  | union k l => sets k ∪ sets l
  | clear _ => ∅

/-- The operations on finite sets. The answer says whether the set is another one. -/
def denote (sets : ι → Finset Nat) (c : Command ι) : (ι → Finset Nat) × Option Bool :=
  (Function.update sets c.key (c.apply sets), match c with
    | clear _ => none
    | insert _ _ | erase _ _ | union _ _ => some (decide (c.apply sets ≠ sets c.key)))

end Command

/-- Carries out operations in order, and lists what they answer. -/
def runAll {σ : Type} (step : σ → Command ι → σ × Option Bool) :
    σ → List (Command ι) → σ × List (Option Bool)
  | sets, [] => (sets, [])
  | sets, c :: rest =>
    let (sets, answer) := step sets c
    let (sets, answers) := runAll step sets rest
    (sets, answer :: answers)

/-- The list `s` holds the members of the set `S`, in increasing order. -/
structure Represents (s : UsePointSet) (S : Finset Nat) : Prop where
  sorted : s.Sorted
  members : ∀ i, i ∈ s.bits ↔ i ∈ S

namespace Represents

variable {S T : Finset Nat}

theorem empty : Represents {} ∅ := ⟨.nil, fun i => by simp⟩

/-- Going through the list yields the members of the set in increasing order. -/
theorem bits_eq (h : Represents s S) : s.bits = S.sort := by
  have hS : s.bits.toFinset = S := Finset.ext fun i => List.mem_toFinset.trans (h.members i)
  rw [← hS, (List.toFinset_sort (· ≤ ·) h.sorted.nodup).mpr (h.sorted.imp Nat.le_of_lt)]

/-- Insertion, and whether it changed the set. -/
theorem insert (h : Represents s S) (i : Nat) :
    Represents (s.insert i).1 (Insert.insert i S) ∧
    (s.insert i).2 = decide (Insert.insert i S ≠ S) := by
  refine ⟨⟨h.sorted.insert i, fun j => ?_⟩, ?_⟩
  · rw [mem_insert, h.members, Finset.mem_insert]
  · have hchange : (s.insert i).2 = !s.contains i := by
      unfold UsePointSet.insert
      split <;> simp_all
    rw [hchange, Bool.eq_iff_iff, decide_eq_true_iff, ne_eq, Finset.insert_eq_self, ← h.members,
      ← contains_iff]
    simp

/-- Removal, and whether it changed the set. -/
theorem erase (h : Represents s S) (i : Nat) :
    Represents (s.erase i).1 (S.erase i) ∧ (s.erase i).2 = decide (S.erase i ≠ S) := by
  refine ⟨⟨h.sorted.erase i, fun j => ?_⟩, ?_⟩
  · rw [mem_erase, h.members, Finset.mem_erase, and_comm]
  · have hchange : (s.erase i).2 = s.contains i := by
      unfold UsePointSet.erase
      split <;> simp_all
    rw [hchange, Bool.eq_iff_iff, decide_eq_true_iff, ne_eq, Finset.erase_eq_self, not_not,
      ← h.members, contains_iff]

/-- The lists have the same length exactly if the second set adds nothing to the first one. -/
theorem union (hs : Represents s S) (ht : Represents t T) :
    Represents (s.union t).1 (S ∪ T) ∧ (s.union t).2 = decide (S ∪ T ≠ S) := by
  refine ⟨⟨hs.sorted.union ht.sorted, fun j => ?_⟩, ?_⟩
  · rw [mem_union, hs.members, ht.members, Finset.mem_union]
  · rw [Bool.eq_iff_iff, decide_eq_true_iff, ne_eq, Finset.union_eq_left]
    refine ⟨fun hgrown hsub => ?_, fun hnew => ?_⟩
    · have hmem : ∀ j ∈ (s.union t).1.bits, j ∈ s.bits := fun j hj =>
        (mem_union.mp hj).elim id fun hj => (hs.members j).mpr (hsub ((ht.members j).mp hj))
      have hle := ((hs.sorted.union ht.sorted).nodup.subperm hmem).length_le
      have hlt := union_true hgrown
      omega
    · by_contra hsame
      obtain ⟨-, hsub⟩ := union_false (Bool.eq_false_of_not_eq_true hsame)
      exact hnew fun j hj => (hs.members j).mp (hsub j ((ht.members j).mpr hj))

end Represents

/-- Each list of the family holds the members of the set with the same name. -/
def Refines (sets : ι → UsePointSet) (specs : ι → Finset Nat) : Prop :=
  ∀ k, Represents (sets k) (specs k)

theorem Refines.update (h : Refines sets specs) {S : Finset Nat} (k : ι) (hk : Represents s S) :
    Refines (Function.update sets k s) (Function.update specs k S) := by
  intro l
  by_cases hl : l = k
  · subst hl
    rw [Function.update_self, Function.update_self]
    exact hk
  · rw [Function.update_of_ne hl, Function.update_of_ne hl]
    exact h l

/-- One operation. -/
theorem Refines.run (h : Refines sets specs) (c : Command ι) :
    Refines (c.run sets).1 (c.denote specs).1 ∧ (c.run sets).2 = (c.denote specs).2 := by
  cases c with
  | insert k i =>
    obtain ⟨hset, hanswer⟩ := (h k).insert i
    exact ⟨h.update k hset, congrArg some hanswer⟩
  | erase k i =>
    obtain ⟨hset, hanswer⟩ := (h k).erase i
    exact ⟨h.update k hset, congrArg some hanswer⟩
  | union k l =>
    obtain ⟨hset, hanswer⟩ := (h k).union (h l)
    exact ⟨h.update k hset, congrArg some hanswer⟩
  | clear k => exact ⟨h.update k .empty, rfl⟩

/-- A run of commands gives the same sets and replies. -/
theorem Refines.runAll (h : Refines sets specs) (commands : List (Command ι)) :
    Refines (UsePointSet.runAll Command.run sets commands).1
    (UsePointSet.runAll Command.denote specs commands).1 ∧
      (UsePointSet.runAll Command.run sets commands).2 =
      (UsePointSet.runAll Command.denote specs commands).2 := by
  induction commands generalizing sets specs with
  | nil => exact ⟨h, rfl⟩
  | cons c rest ih =>
    obtain ⟨hstep, hanswer⟩ := h.run c
    obtain ⟨hrest, hanswers⟩ := ih hstep
    exact ⟨hrest, congrArg₂ List.cons hanswer hanswers⟩

/-- **Use-point sets are finite sets.** Whatever is done to a family of empty sets, in whatever
order, the members of each are stored in strictly increasing order, and looking for a member or
going through all of them tells exactly which finite set the same operations make. Each operation
that answers says whether its set became another one. -/
theorem runAll_refines (commands : List (Command ι)) :
    let lists := runAll Command.run (fun _ => {}) commands
    let sets := runAll Command.denote (fun _ => ∅) commands
    (∀ k, (lists.1 k).bits.Pairwise (· < ·) ∧ (lists.1 k).bits = (sets.1 k).sort ∧
      ∀ i, (lists.1 k).contains i = true ↔ i ∈ sets.1 k) ∧ lists.2 = sets.2 := by
  obtain ⟨hsets, hanswers⟩ := Refines.runAll (fun _ => .empty) commands
  refine ⟨fun k => ?_, hanswers⟩
  exact ⟨(hsets k).sorted, (hsets k).bits_eq, fun i => contains_iff.trans ((hsets k).members i)⟩

end Families

end Escape.UsePointSet
