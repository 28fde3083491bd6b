import Escape.Func
import Escape.Proofs.Checked
import Escape.Proofs.Walk

/-!
# Control flow

The blocks of a function are searched breadth first from the entry. What is found is what control
can get to. A block is found from one that was found before, and from there back to the entry this
makes a path; whatever dominates the block is on it.

- `Func.reachableBlocks_exact`: **reachable blocks are listed once each, and after all that dominate
  them.**
-/

namespace Escape.Func

variable {f : Func} {b c d : BlockId} {path : List BlockId}

/-! ### Paths -/

/-- Control may go from block `b` right to block `c`. -/
def Flows (f : Func) (b c : BlockId) : Prop := ∃ bs, f.successors b = .ok bs ∧ c ∈ bs

/-- The blocks on a way from the entry to a block, the last one first. -/
inductive PathTo (f : Func) : BlockId → List BlockId → Prop
  | start : PathTo f entry [entry]
  | step {b c : BlockId} {path : List BlockId} : PathTo f b path → f.Flows b c →
    PathTo f c (c :: path)

/-- The block `d` is on every path from the entry to `b`. -/
def Dominates (f : Func) (d b : BlockId) : Prop := ∀ path, f.PathTo b path → d ∈ path

/-- There is an entry, and the terminators of blocks name blocks that exist. -/
structure Confined (f : Func) : Prop where
  entry : entry.index < f.blocks.size
  leads : ∀ k < f.blocks.size, ∃ bs, f.successors ⟨k⟩ = .ok bs ∧ ∀ c ∈ bs, c.index < f.blocks.size

instance (f : Func) : Decidable f.Confined :=
  decidable_of_iff (Func.entry.index < f.blocks.size ∧
      ∀ k < f.blocks.size, ∃ bs, f.successors ⟨k⟩ = .ok bs ∧ ∀ c ∈ bs, c.index < f.blocks.size)
    ⟨fun h => ⟨h.1, h.2⟩, fun h => ⟨h.entry, h.leads⟩⟩

theorem mem_next_iff : c ∈ f.next b ↔ f.Flows b c := by
  unfold next Flows
  cases f.successors b with
  | ok bs =>
    refine ⟨fun hc => ⟨bs, rfl, hc⟩, ?_⟩
    rintro ⟨_, hbs, hc⟩
    cases hbs
    exact hc
  | error e =>
    refine ⟨fun hc => absurd hc List.not_mem_nil, ?_⟩
    rintro ⟨_, hbs, -⟩
    cases hbs

/-! ### The search -/

/-- The blocks in the order in which the search comes to them. -/
def searched (f : Func) : List BlockId := closure f.next (f.blocks.size + 1) entry

namespace Confined

theorem flows (h : f.Confined) (hb : b.index < f.blocks.size) (hc : f.Flows b c) :
    c.index < f.blocks.size := by
  obtain ⟨bs, hbs, hmem⟩ := hc
  obtain ⟨bs', hbs', hall⟩ := h.leads b.index hb
  cases hbs.symm.trans hbs'
  exact hall c hmem

/-- The search stays within the function. -/
theorem searched_lt (h : f.Confined) : ∀ b ∈ f.searched, b.index < f.blocks.size :=
  closure_induct h.entry fun _ _ hb hc => h.flows hb (mem_next_iff.mp hc)

theorem mem_searched_iff (h : f.Confined) (b : BlockId) :
    b ∈ f.searched ↔ ReflTransGen f.Flows Func.entry b := by
  have hall : ∀ b ∈ f.searched, b ∈ (List.range f.blocks.size).map BlockId.mk := fun b hb =>
    List.mem_map.mpr ⟨b.index, List.mem_range.mpr (h.searched_lt b hb), rfl⟩
  rw [searched, mem_closure_iff hall (by simp)]
  simp only [mem_next_iff]

end Confined

/-- The search finds a path to each block, of blocks that are listed before it. -/
theorem pathTo_searched : ∀ (i : Nat) (b : BlockId), f.searched[i]? = some b →
    ∃ path, f.PathTo b path ∧ ∀ d ∈ path, d ≠ b → ∃ j < i, f.searched[j]? = some d := by
  intro i
  induction i using Nat.strongRecOn with
  | ind i ih =>
    intro b hb
    cases i with
    | zero =>
      obtain ⟨rest, hrest⟩ := closure_eq_cons f.next (f.blocks.size + 1) entry
      rw [searched, hrest] at hb
      cases hb
      exact ⟨[entry], .start, fun d hd hne => absurd (List.mem_singleton.mp hd) hne⟩
    | succ i =>
      -- the path goes on from the block from which `b` was found
      obtain ⟨j, hj, c, hc, hbc⟩ := closure_parent hb
      obtain ⟨path, hpath, hbefore⟩ := ih j (by omega) c hc
      refine ⟨b :: path, hpath.step (mem_next_iff.mp hbc), fun d hd hne => ?_⟩
      rcases List.mem_cons.mp hd with rfl | hd
      · exact absurd rfl hne
      · by_cases hdc : d = c
        · exact ⟨j, by omega, hdc ▸ hc⟩
        · obtain ⟨k, hk, hdk⟩ := hbefore d hd hdc
          exact ⟨k, by omega, hdk⟩

/-- What dominates a block is listed before it. -/
theorem idxOf_lt_of_dominates (hb : b ∈ f.searched) (hd : f.Dominates d b) (hne : d ≠ b) :
    f.searched.idxOf d < f.searched.idxOf b := by
  have hget := List.getElem?_idxOf hb
  obtain ⟨path, hpath, hbefore⟩ := pathTo_searched _ b hget
  obtain ⟨j, hj, hdj⟩ := hbefore d (hd path hpath) hne
  have hnodup : f.searched.Nodup := closure_nodup f.next _ _
  obtain ⟨hlt, rfl⟩ := List.getElem?_eq_some_iff.mp hdj
  rwa [hnodup.idxOf_getElem j hlt]

/-- **Reachable blocks are listed once each, and after all that dominate them.** If terminators name
blocks that exist, the search succeeds. It lists the blocks that control can get to and no others,
the entry first. A block that is on every path to another one is listed before it. -/
theorem reachableBlocks_exact (h : f.Confined) : ∃ bs, f.reachableBlocks = .ok bs ∧ bs.Nodup ∧
    bs.head? = some entry ∧ (∀ b, b ∈ bs ↔ ReflTransGen f.Flows entry b) ∧
    ∀ b ∈ bs, ∀ d, f.Dominates d b → d ≠ b → bs.idxOf d < bs.idxOf b := by
  refine ⟨f.searched, ?_, closure_nodup f.next _ _, ?_, h.mem_searched_iff,
    fun b hb d => idxOf_lt_of_dominates hb⟩
  · have hforM : f.searched.forM (fun b => discard (f.successors b)) = .ok () := by
      refine Checked.forM_ok.mpr fun b hb => ?_
      obtain ⟨bs, hbs, -⟩ := h.leads b.index (h.searched_lt b hb)
      rw [hbs]
      rfl
    unfold reachableBlocks
    dsimp only
    rw [← searched, hforM]
    rfl
  · obtain ⟨rest, hrest⟩ := closure_eq_cons f.next (f.blocks.size + 1) entry
    rw [searched, hrest]
    rfl

theorem PathTo.reachable (h : f.PathTo b path) : ReflTransGen f.Flows entry b := by
  induction h with
  | start => exact .refl
  | step _ hflow ih => exact ih.tail hflow

theorem PathTo.mem_self (h : f.PathTo b path) : b ∈ path := by
  cases h with
  | start => exact List.mem_cons_self
  | step _ _ => exact List.mem_cons_self

/-- A function that branches to two blocks. Both lead to a third one, from which control goes back
to the first of them, stays, or goes on to the last block that can be reached. Another block leads
there without being reachable. -/
def looping : Func where
  name := "loop"
  params := []
  returnTy := none
  blocks := #[{ insts := [⟨0⟩] }, { insts := [⟨1⟩] }, { insts := [⟨2⟩] }, { insts := [⟨3⟩] },
    { insts := [⟨4⟩] }, { insts := [⟨5⟩] }]
  insts := #[⟨.switch ⟨0⟩ [⟨1⟩, ⟨2⟩], [], ⟨0⟩, false⟩, ⟨.branch ⟨3⟩ [], [], ⟨1⟩, false⟩,
    ⟨.branch ⟨3⟩ [], [], ⟨2⟩, false⟩,
    ⟨.switch ⟨0⟩ [⟨4⟩, ⟨1⟩, ⟨3⟩], [], ⟨3⟩, false⟩, ⟨.ret none, [], ⟨4⟩, false⟩,
    ⟨.branch ⟨4⟩ [], [], ⟨5⟩, false⟩]
  values := #[⟨⟨0⟩, .undefined⟩]

/-- The block before the last one dominates it, as the other way there starts at a block that cannot
be reached. -/
theorem reachableBlocks_exact_loop : looping.Confined ∧ looping.Dominates ⟨3⟩ ⟨4⟩ ∧
    ∃ bs, looping.reachableBlocks = .ok bs ∧ bs.Nodup ∧ bs = [⟨0⟩, ⟨1⟩, ⟨2⟩, ⟨3⟩, ⟨4⟩] ∧
      ReflTransGen looping.Flows entry ⟨4⟩ ∧ bs.idxOf ⟨3⟩ < bs.idxOf ⟨4⟩ := by
  have hconfined : looping.Confined := by decide
  obtain ⟨bs, hbs, hnodup, -, hmem, hbefore⟩ := reachableBlocks_exact hconfined
  have hlist : looping.reachableBlocks = .ok [⟨0⟩, ⟨1⟩, ⟨2⟩, ⟨3⟩, ⟨4⟩] := by decide
  cases hbs.symm.trans hlist
  have hdominates : looping.Dominates ⟨3⟩ ⟨4⟩ := by
    intro path hpath
    cases hpath with
    | @step b _ path hpath hflow =>
      have hb := (hmem b).mpr hpath.reachable
      obtain ⟨next, hnext, hmem⟩ := hflow
      have hthree : ∀ b ∈ [(⟨0⟩ : BlockId), ⟨1⟩, ⟨2⟩, ⟨3⟩, ⟨4⟩], ∀ next,
        looping.successors b = .ok next →
          ⟨4⟩ ∈ next → b = ⟨3⟩ := by
        decide
      cases hthree b hb next hnext hmem
      exact List.mem_cons_of_mem _ hpath.mem_self
  have hlast : (⟨4⟩ : BlockId) ∈ [(⟨0⟩ : BlockId), ⟨1⟩, ⟨2⟩, ⟨3⟩, ⟨4⟩] := by decide
  exact ⟨hconfined, hdominates, _, hbs, hnodup, rfl, (hmem ⟨4⟩).mp hlast,
    hbefore ⟨4⟩ hlast ⟨3⟩ hdominates (by decide)⟩

end Escape.Func
