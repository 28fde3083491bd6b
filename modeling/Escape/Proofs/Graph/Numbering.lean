import Escape.Proofs.Graph.Handing

/-!
# Numbers of use points

Instructions are numbered when they first become use points, and the use points of a node are a set
of such numbers. A number is retired with its instruction and never given to another one, although
nodes that it was handed on to may have been merged or come up since.

- `Booked.edit`: every edit of a single graph keeps it that way.
- `Graph.use_points_bijective`: **use points are a bijection, and forgetting an instruction touches
  nothing else.**
-/

namespace Escape.Graph

variable {g g' : Graph} {n m c : NodeId} {s : Scope} {v : ValueId} {i j : InstId} {u : Nat}

/-! ### Graphs between operations -/

/-- No merge is pending, so live nodes represent themselves. -/
structure Resting (g : Graph) : Prop where
  grounded : Grounded g g.pending
  pending : g.pending = []

namespace Resting

variable (h : Resting g)
include h

theorem representative_of_live (hn : g.Live n) : g.representative n = n := by
  have hg := h.grounded
  rw [h.pending] at hg
  exact hg.representative_of_live hn

theorem sameEdges (he : SameEdges g g') (hp : g'.pending = g.pending) : Resting g' :=
  ⟨hp ▸ h.grounded.sameEdges he, hp.trans h.pending⟩

theorem redirects (hr : Redirects g.Rooted g g') : Resting g' :=
  ⟨(h.grounded.redirects (R := fun _ => False) hr).grounded, hr.pending.trans h.pending⟩

theorem modify (n : NodeId) {f : Node → Node}
    (hf : ∀ x, (f x).links = x.links := by intros; rfl) : Resting (g.modify n f) :=
  h.sameEdges (.modify g n hf) rfl

theorem defer (hok : g.defer n m = .ok (g', c)) : Resting g' := by
  obtain ⟨⟨g₀, k, changed⟩, h₀, hok⟩ := bind_ok.mp hok
  cases hok
  obtain ⟨hd, hp⟩ := h.grounded.deferTracked (R := fun _ => False) h₀
  exact ⟨hd.grounded, hp h.pending⟩

theorem enter (a : Scope.Anchor) : Resting (g.enter a).1 := by
  rcases enter_cases g a with ⟨n, f, -, rfl, e⟩ | ⟨x, -, hx, -, -, e⟩
  · rw [e]
    exact (h.modify _).sameEdges (.of_nodes rfl) rfl
  · rw [e]
    exact h.sameEdges ((SameEdges.addNode hx).trans (.mapValue _ _ _)) rfl

theorem ensureReturn : Resting g.ensureReturn.1 := by
  rcases ensureReturn_cases g with ⟨n, -, e⟩ | ⟨x, -, hx, -, -, e⟩
  · rw [e]
    exact h
  · rw [e]
    exact h.sameEdges ((SameEdges.addNode hx).trans (.of_nodes rfl)) rfl

theorem ensureContent {interior referenceOnly : Bool}
    (hok : g.ensureContent n interior referenceOnly = .ok (g', c)) : Resting g' := by
  obtain ⟨_, -, hok⟩ := bind_ok.mp hok
  split at hok
  · cases hok
    exact h.modify _
  · obtain ⟨⟨g₁, c₁⟩, h₁, hok⟩ := bind_ok.mp hok
    cases hok
    obtain ⟨g₂, h₂, h₁⟩ := bind_ok.mp h₁
    cases h₁
    have hadd : SameEdges g (g.addNode (freshContent interior referenceOnly)).1 :=
      .addNode (Node.fresh_content interior referenceOnly)
    have hnew := hadd.sameLinks.rooted_new (has_addNode g _) (not_has_addNode g _)
    have hrest := h.sameEdges hadd rfl
    have hspread := hrest.redirects (spread_redirects hrest.grounded.points hnew h₂)
    have hraise := hspread.modify ⟨g.size⟩ (f := fun x => x.raise (g₁.node n).state) fun _ => by rfl
    exact hraise.redirects (copyUsePoints_redirects hraise.grounded.points n _)

end Resting

/-! ### Numbers and instructions -/

/-- The number stands for an instruction: it was given to one that was not forgotten since. -/
def Assigned (g : Graph) (u : Nat) : Prop := ∃ i, g.users[u]? = some (some i)

/-- Instructions and the numbers that stand for them correspond, and all use points of nodes are
such numbers. -/
structure Booked (g : Graph) : Prop extends Resting g where
  inverse : ∀ i u, g.usePoints.find? i = some u ↔ g.users[u]? = some (some i)
  uses : UsesIn g.Assigned g

namespace Booked

variable (h : Booked g)
include h

theorem hands (hh : Hands g g') (hr : Resting g') : Booked g' where
  toResting := hr
  inverse i u := by
    rw [hh.usePoints, hh.users]
    exact h.inverse i u
  uses := by
    have hsame : g'.Assigned = g.Assigned := by
      funext u
      rw [Assigned, Assigned, hh.users]
    rw [hsame]
    exact hh.uses _ h.uses

/-- An instruction that has a number keeps it, and one that has none gets a number that was never
used. -/
theorem numberUser (i : InstId) : Booked (g.numberUser i).1 ∧
    (g.numberUser i).1.users[(g.numberUser i).2]? = some (some i) := by
  obtain ⟨hn, -, -, hp, -⟩ := numberUser_nodes g i
  have hrest := h.toResting.sameEdges (.of_nodes hn) hp
  unfold Graph.numberUser at hrest ⊢
  cases hi : g.usePoints.find? i with
  | some u => exact ⟨h, (h.inverse i u).mp hi⟩
  | none =>
    rw [hi] at hrest
    refine ⟨⟨hrest, fun j w => ?_, fun n => (h.uses n).mono ?_⟩, Array.getElem?_push_size⟩
    · have hold := h.inverse j w
      rw [AssocMap.find?_insert, Array.getElem?_push]
      by_cases hij : i = j
      · subst hij
        -- no number stood for the instruction, so the one past the end of the table is its only one
        grind
      · grind
    · rintro u ⟨j, hj⟩
      have hlt := (Array.getElem?_eq_some_iff.mp hj).1
      exact ⟨j, by rw [Array.getElem?_push, if_neg (Nat.ne_of_lt hlt)]; exact hj⟩

/-- A node gets a number that stands for an instruction. -/
theorem addUsePoints (hu : g.Assigned u) (n : NodeId) :
    Booked (g.modify n (·.addUsePoints ⟨[u]⟩)) where
  toResting := h.toResting.modify n
  inverse := h.inverse
  uses := h.uses.modify n fun _ hx => hx.union (.singleton hu)

/-- The book is kept, and the number given stands for `i`. -/
theorem addUsePoint (n : NodeId) (i : InstId) : Booked (g.addUsePoint n i).1 ∧
    ∀ u, (g.addUsePoint n i).2 = some u → (g.addUsePoint n i).1.users[u]? = some (some i) := by
  unfold Graph.addUsePoint
  dsimp only
  split
  · exact ⟨h, nofun⟩
  · obtain ⟨hb, hu⟩ := h.numberUser i
    refine ⟨hb.addUsePoints ⟨i, hu⟩ _, fun u e => ?_⟩
    cases e
    exact hu

/-! ### All use points of a function -/

theorem contentFor {c? : Option NodeId} (hok : g.contentFor s v = .ok (g', c?)) :
    Booked g' ∧ g'.users = g.users := by
  refine contentFor_induct (P := fun k => Booked k ∧ k.users = g.users) (fun k a hk => ?_)
    (fun k n interior referenceOnly k' c hk hok => ?_) ⟨h, rfl⟩ hok
  · have hh := enter_hands k a
    exact ⟨hk.1.hands hh (hk.1.toResting.enter a), hh.users.trans hk.2⟩
  · have hh := ensureContent_hands hok
    exact ⟨hk.1.hands hh (hk.1.toResting.ensureContent hok), hh.users.trans hk.2⟩

omit h in
/-- The number of the instruction, once it is taken, stands for the instruction. -/
theorem useOperands (i : InstId) (vs : List ValueId) (number : Option Nat) (g : Graph)
    (h : Booked g) (hnumber : (∀ u, number = some u → g.users[u]? = some (some i)))
    (hok : useOperands s i vs number g = .ok g') : Booked g' := by
  induction vs generalizing number g with
  | nil =>
    cases hok
    exact h
  | cons v rest ih =>
    unfold Graph.useOperands at hok
    obtain ⟨⟨g₁, c?⟩, h₁, hok⟩ := bind_ok.mp hok
    obtain ⟨hb, husers⟩ := h.contentFor h₁
    have hnumber₁ : ∀ u, number = some u → g₁.users[u]? = some (some i) := husers ▸ hnumber
    cases c? with
    | none => exact ih number g₁ hb hnumber₁ hok
    | some c =>
      cases number with
      | none =>
        obtain ⟨hb', hu⟩ := hb.addUsePoint c i
        exact ih _ _ hb' hu hok
      | some u => exact ih _ _ (hb.addUsePoints ⟨i, hnumber₁ u rfl⟩ c) hnumber₁ hok

theorem useInst (hok : useInst s g i = .ok g') : Booked g' := by
  obtain ⟨inst, -, hok⟩ := bind_ok.mp hok
  dsimp only at hok
  split at hok
  · exact useOperands i _ none g h nofun hok
  · cases hok
    exact h

omit h in
theorem pushUsePoints {acc : Graph × Bool} (h : Booked acc.1) (n : NodeId) :
    Booked (pushUsePoints acc n).1 := by
  rcases pushUsePoints_cases acc n with ⟨e, -⟩ | ⟨c, -, e⟩
  · rw [e]
    exact h
  · rw [e]
    exact ⟨h.toResting.modify c, h.inverse, h.uses.modify c fun _ hx => hx.union (h.uses n)⟩

/-- Working out the use points keeps the book. -/
theorem computeUsePoints {blocks : List BlockId} (hok : g.computeUsePoints s blocks = .ok g') :
    Booked g' := by
  obtain ⟨-, insts, g₁, -, h₁, rfl⟩ := computeUsePoints_ok hok
  refine propagateUsePoints_induct (fun _ n hb => hb.pushUsePoints n) _ ?_
  exact foldlM_of_ok (P := fun _ k => Booked k) (fun _ _ _ _ _ _ hk hstep => hk.useInst hstep) h h₁

end Booked

/-! ### Forgetting an instruction -/

/-- From `g` to `g'` nodes come to represent no value, and values other than `vs` stay where they
are. -/
structure Unbinds (vs : List ValueId) (g g' : Graph) : Prop where
  rest : g' = { g with nodes := g'.nodes, values := g'.values }
  size : g'.size = g.size
  same : ∀ n, { g'.node n with value := none } = { g.node n with value := none }
  values : ∀ r, r ∉ vs → g'.values.find? r = g.values.find? r

namespace Unbinds

variable {vs : List ValueId}

theorem refl (vs : List ValueId) (g : Graph) : Unbinds vs g g :=
  ⟨rfl, rfl, fun _ => rfl, fun _ _ => rfl⟩

section

variable (h : Unbinds vs g g')
include h

theorem trans {g'' : Graph} (h' : Unbinds vs g' g'') : Unbinds vs g g'' where
  rest := by rw [h'.rest, h.rest]
  size := h'.size.trans h.size
  same n := (h'.same n).trans (h.same n)
  values r hr := (h'.values r hr).trans (h.values r hr)

/-- Everything else about nodes is the same. -/
theorem field {α : Type} (p : Node → α)
    (hp : ∀ x : Node, p { x with value := none } = p x := by intros; rfl) (n : NodeId) :
    p (g'.node n) = p (g.node n) := by
  rw [← hp, h.same, hp]

theorem representative (n : NodeId) : g'.representative n = g.representative n :=
  representative_congr h.size (h.field Node.mergeTo) n

theorem usePoints : g'.usePoints = g.usePoints := by rw [h.rest]

theorem hands : Hands g g' :=
  .of_eq h.usePoints (by rw [h.rest]) (h.field Node.usePoints)

theorem resting (hr : Resting g) : Resting g' :=
  hr.sameEdges (.of_links h.size (h.field Node.links)) (by rw [h.rest])

end

theorem forgetValue (hv : v ∈ vs) (g : Graph) : Unbinds vs g (forget.forgetValue g v) := by
  unfold forget.forgetValue
  split
  · rename_i n _
    refine ⟨rfl, size_modify g _ _, fun m => ?_, fun r hr => ?_⟩
    · exact node_modify_field
        (f := fun x => { x with value := if x.value = some v then none else x.value })
        (fun x => { x with value := none }) (fun _ => by rfl) g _ m
    · show (g.values.erase v).find? r = _
      rw [AssocMap.find?_erase, if_neg]
      rintro rfl
      exact hr hv
  · exact .refl vs g

theorem forgetValues (vs : List ValueId) (g : Graph) :
    Unbinds vs g (vs.foldl forget.forgetValue g) :=
  List.foldlRecOn (motive := Unbinds vs g) vs _ (.refl vs g) fun k hk _ hv => hk.trans
    (.forgetValue hv k)

end Unbinds

/-- Takes a number away from its instruction and from all nodes. -/
def retire (g : Graph) (i : InstId) (u : Nat) : Graph :=
  { g with
    usePoints := g.usePoints.erase i
    users := g.users.setIfInBounds u none
    nodes := g.nodes.map fun x => { x with usePoints := (x.usePoints.erase u).1 } }

/-- Values are unbound, and a number is retired if there is one. -/
theorem forget_cases (g : Graph) (i : InstId) (results : List ValueId) : ∃ k, Unbinds results g k ∧
    (g.usePoints.find? i = none ∧ g.forget i results = k ∨
      ∃ u, g.usePoints.find? i = some u ∧ g.forget i results = k.retire i u) := by
  have hk := Unbinds.forgetValues results g
  refine ⟨_, hk, ?_⟩
  unfold forget
  dsimp only
  rw [← hk.usePoints]
  cases (results.foldl forget.forgetValue g).usePoints.find? i with
  | none => exact .inl ⟨rfl, rfl⟩
  | some u => exact .inr ⟨u, rfl, rfl⟩

/-- Nodes lose the number only. -/
theorem retire_node (g : Graph) (i : InstId) (u : Nat) (n : NodeId) :
    (g.retire i u).node n = { g.node n with usePoints := ((g.node n).usePoints.erase u).1 } := by
  refine node_of_map (f := fun x => { x with usePoints := (x.usePoints.erase u).1 }) ?_ rfl n
  simp [UsePointSet.erase, UsePointSet.contains]

theorem size_retire (g : Graph) (i : InstId) (u : Nat) : (g.retire i u).size = g.size :=
  Array.size_map

theorem representative_retire (g : Graph) (i : InstId) (u : Nat) (n : NodeId) :
    (g.retire i u).representative n = g.representative n :=
  representative_congr (size_retire g i u) (fun m => by rw [retire_node]) n

/-- No other number is affected. -/
theorem getElem?_retire (g : Graph) (i : InstId) (u w : Nat) :
    (g.retire i u).users[w]? = some (some j) ↔ w ≠ u ∧ g.users[w]? = some (some j) := by
  show (g.users.setIfInBounds u none)[w]? = _ ↔ _
  rw [Array.getElem?_setIfInBounds]
  grind

namespace Booked

/-- A number stands for one instruction. -/
theorem injective (h : Booked g) (hi : g.usePoints.find? i = some u)
    (hj : g.usePoints.find? j = some u) : i = j := by
  have hi := (h.inverse i u).mp hi
  have hj := (h.inverse j u).mp hj
  rw [hi] at hj
  cases hj
  rfl

/-- A number and its instruction go together. -/
theorem retire (h : Booked g) (hi : g.usePoints.find? i = some u) : Booked (g.retire i u) where
  toResting := h.toResting.sameEdges (.of_links (size_retire g i u)
    fun n => by rw [retire_node]; rfl) rfl
  inverse j w := by
    rw [getElem?_retire, ← h.inverse j w]
    show (g.usePoints.erase i).find? j = some w ↔ _
    rw [AssocMap.find?_erase]
    by_cases hij : i = j
    · subst hij
      grind
    · rw [if_neg hij]
      refine ⟨fun hj => ⟨?_, hj⟩, fun hj => hj.2⟩
      rintro rfl
      exact hij (h.injective hi hj)
  uses n := by
    rw [retire_node]
    refine (h.uses n).erase fun w hw hne => ?_
    obtain ⟨j, hj⟩ := hw
    exact ⟨j, (getElem?_retire g i u w).mpr ⟨hne, hj⟩⟩

/-- Forgetting keeps the book. -/
theorem forget (h : Booked g) (i : InstId) (results : List ValueId) :
    Booked (g.forget i results) := by
  obtain ⟨k, hk, ⟨-, e⟩ | ⟨u, hu, e⟩⟩ := forget_cases g i results
  · rw [e]
    exact h.hands hk.hands (hk.resting h.toResting)
  · rw [e]
    exact (h.hands hk.hands (hk.resting h.toResting)).retire (by rw [hk.usePoints]; exact hu)

end Booked

/-! ### What forgetting leaves alone -/

/-- Edges, states and flags of all nodes stay as they are. -/
theorem forget_frame (g : Graph) (i : InstId) (results : List ValueId) (n : NodeId) :
    { (g.forget i results).node n with value := none, usePoints := {} } =
      { g.node n with value := none, usePoints := {} } := by
  obtain ⟨k, hk, ⟨-, e⟩ | ⟨u, -, e⟩⟩ := forget_cases g i results
  · rw [e]
    exact hk.field (fun x => { x with value := none, usePoints := {} }) (fun _ => rfl) n
  · rw [e, retire_node]
    exact hk.field (fun x => { x with value := none, usePoints := {} }) (fun _ => rfl) n

theorem state_forget (g : Graph) (i : InstId) (results : List ValueId) (n : NodeId) :
    ((g.forget i results).node n).state = (g.node n).state := by
  have hframe := congrArg Node.state (forget_frame g i results n)
  exact hframe

theorem size_forget (g : Graph) (i : InstId) (results : List ValueId) :
    (g.forget i results).size = g.size := by
  obtain ⟨k, hk, ⟨-, e⟩ | ⟨u, -, e⟩⟩ := forget_cases g i results
  · rw [e, hk.size]
  · rw [e, size_retire, hk.size]

theorem representative_forget (g : Graph) (i : InstId) (results : List ValueId) (n : NodeId) :
    (g.forget i results).representative n = g.representative n := by
  obtain ⟨k, hk, ⟨-, e⟩ | ⟨u, -, e⟩⟩ := forget_cases g i results
  · rw [e, hk.representative]
  · rw [e, representative_retire, hk.representative]

/-- A value is found where it was, unless its root is a result of the instruction. -/
theorem nodeOf?_forget {r : ValueId} {results : List ValueId} (g : Graph) (i : InstId)
    (hr : s.root v = .ok r) (hres : r ∉ results) :
    (g.forget i results).nodeOf? s v = g.nodeOf? s v := by
  have hfind : (g.forget i results).values.find? r = g.values.find? r ∧
      (g.forget i results).valid = g.valid := by
    obtain ⟨k, hk, ⟨-, e⟩ | ⟨u, -, e⟩⟩ := forget_cases g i results
    · rw [e]
      exact ⟨hk.values r hres, by rw [hk.rest]⟩
    · rw [e]
      exact ⟨hk.values r hres, show k.valid = _ by rw [hk.rest]⟩
  have hrep : (g.forget i results).representative = g.representative :=
    funext (representative_forget g i results)
  simp only [nodeOf?, hr, hfind.1, hfind.2, hrep, ok_bind]

/-- The instruction is no use point any more. -/
theorem isUsePoint_forget_self (i : InstId) (results : List ValueId)
    (hn : (g.node (g.representative n)).state ≠ .globalEscaping) :
    (g.forget i results).isUsePoint n i = false := by
  have hnone : (g.forget i results).usePoints.find? i = none := by
    obtain ⟨k, hk, ⟨hi, e⟩ | ⟨u, -, e⟩⟩ := forget_cases g i results
    · rw [e, hk.usePoints]
      exact hi
    · rw [e]
      exact (AssocMap.find?_erase _ i i).trans (if_pos rfl)
  simp only [isUsePoint, representative_forget, state_forget, if_neg hn, hnone]

namespace Booked

/-- Other instructions are use points of what they were. -/
theorem isUsePoint_forget (h : Booked g) (results : List ValueId) (hij : j ≠ i) (n : NodeId) :
    (g.forget i results).isUsePoint n j = g.isUsePoint n j := by
  simp only [isUsePoint, representative_forget, state_forget]
  obtain ⟨k, hk, ⟨-, e⟩ | ⟨u, hu, e⟩⟩ := forget_cases g i results
  · rw [e, hk.usePoints, hk.field Node.usePoints]
  · have hfind : (k.retire i u).usePoints.find? j = g.usePoints.find? j := by
      show (k.usePoints.erase i).find? j = _
      rw [AssocMap.find?_erase, if_neg hij.symm, hk.usePoints]
    rw [e, hfind, retire_node, hk.field Node.usePoints]
    cases hj : g.usePoints.find? j with
    | none => rfl
    | some w =>
      -- the number of another instruction is not the one that is retired
      have hne : w ≠ u := by
        rintro rfl
        exact hij (h.injective hj hu)
      simp only [UsePointSet.contains, UsePointSet.mem_erase, hne, ne_eq,
        not_false_eq_true, and_true]

/-! ### Users -/

/-- No user is named twice. -/
theorem usersOf_nodup (h : Booked g) (n : NodeId) : (g.usersOf n).Nodup := by
  refine List.Nodup.filterMap (fun u w i hu hw => ?_) ((h.uses _).1.imp Nat.ne_of_lt)
  have hu := (h.inverse i u).mpr (Option.join_eq_some_iff.mp hu)
  have hw := (h.inverse i w).mpr (Option.join_eq_some_iff.mp hw)
  exact Option.some.inj (hu.symm.trans hw)

/-- The users of a node are the instructions that are use points of it. -/
theorem mem_usersOf (h : Booked g) (hn : (g.node (g.representative n)).state ≠ .globalEscaping) :
    i ∈ g.usersOf n ↔ g.isUsePoint n i = true := by
  have hbit : i ∈ g.usersOf n ↔
      ∃ u, u ∈ (g.node (g.representative n)).usePoints.bits ∧ g.usePoints.find? i = some u := by
    rw [usersOf, List.mem_filterMap]
    simp only [Option.join_eq_some_iff, ← h.inverse]
  rw [hbit]
  simp only [isUsePoint, if_neg hn]
  cases g.usePoints.find? i <;> simp [UsePointSet.contains]

end Booked

/-! ### Runs -/

/-- An edit that takes over no other graph. -/
def Edit.Single : Edit → Prop
  | .splice _ _ => False
  | _ => True

instance : (e : Edit) → Decidable e.Single
  | .splice _ _ => inferInstanceAs (Decidable False)
  | .enter _ | .enterReturn | .contents _ _ | .bind _ _ | .defer _ _ | .raise _
    _ | .propagate | .use _ _
  | .useAll _ _ | .forget _ _ | .clear | .invalidate => inferInstanceAs (Decidable True)

/-- A graph without nodes has no use points. -/
theorem booked_of_empty (hn : g.nodes = #[]) (hp : g.pending = []) (hi : g.usePoints = {})
    (hu : g.users = #[]) : Booked g where
  toResting := by
    have hstart : Resting {} := ⟨(IsStart.forested ⟨none, false, rfl⟩).toGrounded, rfl⟩
    exact hstart.sameEdges (.of_nodes hn) hp
  inverse i u := by
    rw [hi, hu]
    exact ⟨nofun, nofun⟩
  uses n := by
    rw [node, hn]
    exact .empty

namespace Booked

theorem bind (h : Booked g) (hok : g.bind v n = .ok g') : Booked g' := by
  obtain ⟨_, -, hok⟩ := bind_ok.mp hok
  split at hok
  · obtain ⟨⟨g₁, k⟩, h₁, hok⟩ := bind_ok.mp hok
    cases hok
    exact h.hands (defer_hands h₁) (h.toResting.defer h₁)
  · cases hok
    exact h.hands (mapValue_hands g v _) (h.toResting.sameEdges (.mapValue g v _) rfl)

theorem ensureContents (flags : List (Bool × Bool)) (g : Graph) (n : NodeId) (h : Booked g)
    (hok : g.ensureContents n flags = .ok g') : Booked g' := by
  induction flags generalizing g n with
  | nil =>
    cases hok
    exact h
  | cons flag rest ih =>
    obtain ⟨⟨g₁, c⟩, h₁, hok⟩ := bind_ok.mp hok
    exact ih g₁ c (h.hands (ensureContent_hands h₁) (h.toResting.ensureContent h₁)) hok

/-- **Every edit of a single graph** keeps numbers and instructions in correspondence, whatever
nodes it names. -/
theorem edit (h : Booked g) {e : Edit} (he : e.Single) (hok : e.apply g = .ok g') : Booked g' := by
  have hraise {k : Graph} (hr : Raises g k) : Booked k :=
    h.hands (.raises hr) (h.toResting.sameEdges hr.sameEdges hr.pending)
  cases e with
  | enter a =>
    cases hok
    exact h.hands (enter_hands g a) (h.toResting.enter a)
  | enterReturn =>
    cases hok
    exact h.hands (ensureReturn_hands g) h.toResting.ensureReturn
  | contents n flags => exact ensureContents flags g n h hok
  | bind v n => exact h.bind hok
  | defer src dst =>
    obtain ⟨⟨g₁, k⟩, h₁, hok⟩ := bind_ok.mp hok
    cases hok
    exact h.hands (defer_hands h₁) (h.toResting.defer h₁)
  | raise n s =>
    cases hok
    exact hraise (raise_raises g n s)
  | propagate =>
    cases hok
    exact hraise (propagate_raises g)
  | use n i =>
    cases hok
    exact (h.addUsePoint n i).1
  | useAll s blocks => exact h.computeUsePoints hok
  | forget i results =>
    cases hok
    exact h.forget i results
  | splice source map => exact absurd he id
  | clear =>
    cases hok
    exact booked_of_empty rfl rfl rfl rfl
  | invalidate =>
    cases hok
    exact booked_of_empty rfl rfl rfl rfl

/-- **A whole run** keeps the book. -/
theorem run (edits : List Edit) (g : Graph) (h : Booked g) (hsingle : (∀ e ∈ edits, e.Single))
    (hok : g.run edits = .ok g') : Booked g' := by
  induction edits generalizing g with
  | nil =>
    cases hok
    exact h
  | cons e rest ih =>
    obtain ⟨he, hrest⟩ := List.forall_mem_cons.mp hsingle
    obtain ⟨g₁, h₁, hok⟩ := bind_ok.mp hok
    exact ih g₁ (h.edit he h₁) hrest hok

end Booked

/-- **Use points are a bijection, and forgetting an instruction touches nothing else.** Take any run
of edits of a single graph that starts empty, whatever nodes the edits name and however they merge,
number and forget. Instructions and the numbers that stand for them correspond one to one, and no
node has a retired number. The users of a live node that does not escape globally are listed once
each, and are its use points. If an instruction is forgotten it is a use point of no such node. All
other use points are the same as before, all values other than the results are where they were, and
edges, states and flags of nodes do not change. -/
theorem use_points_bijective {start : Graph} (hstart : IsStart start) {edits : List Edit}
    (hsingle : ∀ e ∈ edits, e.Single) (hrun : start.run edits = .ok g) :
    (∀ i u, g.usePoints.find? i = some u ↔ g.users[u]? = some (some i)) ∧
    (∀ n u, u ∈ (g.node n).usePoints.bits → ∃ i, g.users[u]? = some (some i)) ∧
    (∀ n, g.Live n → (g.node n).state ≠ .globalEscaping →
      (g.usersOf n).Nodup ∧ ∀ i, i ∈ g.usersOf n ↔ g.isUsePoint n i = true) ∧
    ∀ i results,
      (∀ n, g.Live n → (g.node n).state ≠ .globalEscaping →
        (g.forget i results).isUsePoint n i = false) ∧
      (∀ n j, j ≠ i → (g.forget i results).isUsePoint n j = g.isUsePoint n j) ∧
      (∀ s v r, s.root v = .ok r → r ∉ results → (g.forget i results).nodeOf? s v = g.nodeOf? s v) ∧
      (g.forget i results).size = g.size ∧
      ∀ n, { (g.forget i results).node n with value := none, usePoints := {} } =
        { g.node n with value := none, usePoints := {} } := by
  have hempty : Booked start := by
    obtain ⟨owner, summary, rfl⟩ := hstart
    exact booked_of_empty rfl rfl rfl rfl
  have h := Booked.run edits start hempty hsingle hrun
  -- a live node represents itself, so its state is the one that counts
  have hstate {n : NodeId} (hlive : g.Live n) (hn : (g.node n).state ≠ .globalEscaping) :
      (g.node (g.representative n)).state ≠ .globalEscaping := by
    rwa [h.toResting.representative_of_live hlive]
  refine ⟨h.inverse, fun n => (h.uses n).2, fun n hlive hn => ⟨h.usersOf_nodup n, fun i => ?_⟩,
    fun i results => ⟨fun n hlive hn => ?_, fun n j hij => ?_, fun s v r => ?_,
    size_forget g i results, ?_⟩⟩
  · exact h.mem_usersOf (hstate hlive hn)
  · exact isUsePoint_forget_self i results (hstate hlive hn)
  · exact h.isUsePoint_forget results hij n
  · exact nodeOf?_forget g i
  · exact forget_frame g i results

/-- Two values with contents. An instruction is a use point of the first content, is forgotten, and
becomes a use point again. Then the contents are merged. -/
def userEdits : List Edit :=
  [.enter ⟨⟨0⟩, false, true⟩, .enter ⟨⟨1⟩, false, true⟩,
    .contents ⟨0⟩ [(false, false)], .contents ⟨1⟩ [(false, false)],
    .use ⟨2⟩ ⟨5⟩, .use ⟨3⟩ ⟨6⟩, .forget ⟨5⟩ [], .use ⟨2⟩ ⟨5⟩, .defer ⟨0⟩ ⟨1⟩]

/-- The first number of the instruction stays retired, and the merged content has the two numbers
that are in use. -/
theorem use_points_bijective_retired : ∃ g, (full ⟨0⟩).run userEdits = .ok g ∧
    g.users = #[none, some ⟨6⟩, some ⟨5⟩] ∧ g.usePoints.find? ⟨5⟩ = some 2 ∧
    (g.node ⟨2⟩).merged = true ∧ (g.usersOf ⟨3⟩).Nodup ∧ ⟨5⟩ ∈ g.usersOf ⟨3⟩ ∧ ⟨6⟩ ∈ g.usersOf ⟨3⟩ ∧
    (g.forget ⟨6⟩ [⟨1⟩]).isUsePoint ⟨3⟩ ⟨6⟩ = false ∧
    (g.forget ⟨6⟩ [⟨1⟩]).isUsePoint ⟨3⟩ ⟨5⟩ = true := by
  have hrun : ∃ g, (full ⟨0⟩).run userEdits = .ok g ∧ g.users = #[none, some ⟨6⟩, some ⟨5⟩] ∧
      (g.node ⟨2⟩).merged = true ∧ g.Live ⟨3⟩ ∧ (g.node ⟨3⟩).state ≠ .globalEscaping ∧
      g.isUsePoint ⟨3⟩ ⟨5⟩ = true ∧ g.isUsePoint ⟨3⟩ ⟨6⟩ = true := by
    decide +kernel
  obtain ⟨g, hrun, husers, hmerged, hlive, hstate, hfive, hsix⟩ := hrun
  obtain ⟨hinverse, -, hnode, hforget⟩ := use_points_bijective (.full ⟨0⟩) (by decide) hrun
  obtain ⟨hnodup, hmem⟩ := hnode ⟨3⟩ hlive hstate
  obtain ⟨hself, hother, -⟩ := hforget ⟨6⟩ [⟨1⟩]
  refine ⟨g, hrun, husers, (hinverse ⟨5⟩ 2).mpr (by rw [husers]; rfl), hmerged, hnodup,
    (hmem ⟨5⟩).mpr hfive, (hmem ⟨6⟩).mpr hsix, hself ⟨3⟩ hlive hstate, ?_⟩
  rw [hother ⟨3⟩ ⟨5⟩ (by decide)]
  exact hfive

end Escape.Graph
