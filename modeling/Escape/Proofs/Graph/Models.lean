import Escape.Proofs.Graph.Closed
import Escape.Proofs.Graph.Splices

/-!
# Models of a graph

A model is a world of pointers in which the rules of connection graphs hold without exception: a
pointer points to one thing, pointers that defer to each other point to the same thing, and what a
pointer points or defers to is visible at least as far as the pointer itself. A graph describes a
model if all that its nodes say is true there.

The operations on graphs draw conclusions from what a graph says. Each of them is shown to be sound
for every model: if a graph describes a model, and the edge, the merge or the state that an
operation adds is true there, then the result describes the model as well. Nothing is said here
about what an operation forgets.

- `Satisfies.spread`, `Satisfies.repoint`: giving a content, or another one, to a web.
- `Satisfies.absorb`, `Satisfies.settle`: merging nodes that stand for the same thing.
- `Satisfies.deferTracked`: adding a defer edge.
- `Satisfies.propagate`: pushing states along the edges.
-/

namespace Escape

/-- Pointers, with what they point to, what they defer to, and how far they are visible. -/
structure Model (α : Type) where
  Points : α → α → Prop
  Defers : α → α → Prop
  state : α → EscapeState
  unique : ∀ {x a b}, Points x a → Points x b → a = b
  agree : ∀ {x y a}, Defers x y → (Points x a ↔ Points y a)
  points_le : ∀ {x a}, Points x a → state x ≤ state a
  defers_le : ∀ {x y}, Defers x y → state x ≤ state y

/-- What the nodes of a graph with `size` nodes stand for. The nodes in `dead` are tombstones, and
their states mean nothing. -/
structure Reading (α : Type) where
  means : NodeId → α
  size : Nat
  dead : NodeId → Prop

namespace Reading

variable {α : Type} {r : Reading α} {src dst c : NodeId}

/-- The reading is about node `n`. -/
def Has (r : Reading α) (n : NodeId) : Prop := n.index < r.size

/-- Renaming a node to one that stands for the same thing makes no difference. -/
theorem rename (he : r.means src = r.means dst) (hd : r.Has dst) (hc : r.Has c) :
    r.Has (Graph.rename src dst c) ∧ r.means (Graph.rename src dst c) = r.means c := by
  unfold Graph.rename
  split
  · rename_i hcs
    exact ⟨hd, by rw [hcs, he]⟩
  · exact ⟨hc, rfl⟩

end Reading

namespace Model

variable {α : Type}

/-- An edge of either kind. -/
def Edge (M : Model α) : EdgeKind → α → α → Prop
  | .pointsTo => M.Points
  | .defer => M.Defers

/-- All that the node `x` with name `n` says is true. -/
structure Allows (M : Model α) (r : Reading α) (n : NodeId) (x : Node) : Prop where
  merge : ∀ m, x.mergeTo = some m → r.Has m ∧ r.means m = r.means n
  points : ∀ c, x.pointsTo.target? = some c → r.Has c ∧ M.Points (r.means n) (r.means c)
  defers : ∀ m ∈ x.defersTo, r.Has m ∧ M.Defers (r.means n) (r.means m)
  preds : ∀ p ∈ x.preds, r.Has p.node ∧ M.Edge p.kind (r.means p.node) (r.means n)
  dead : r.dead n → x.merged = true
  state : ¬ r.dead n → x.state ≤ M.state (r.means n)

/-- All that a graph says is true. -/
structure Satisfies (M : Model α) (r : Reading α) (g : Graph) : Prop where
  size : g.size = r.size
  node : ∀ n, M.Allows r n (g.node n)

variable {M : Model α} {r : Reading α} {n m c : NodeId} {x y : Node}

namespace Allows

variable (h : M.Allows r n x)
include h

/-- Use points, flags and values are not spoken of. -/
theorem congr (hm : y.mergeTo = x.mergeTo) (hp : y.pointsTo = x.pointsTo)
    (hd : y.defersTo = x.defersTo) (hq : ∀ p ∈ y.preds, p ∈ x.preds) (hdead : y.merged = x.merged)
    (hs : y.state = x.state) : M.Allows r n y where
  merge := by rw [hm]; exact h.merge
  points := by rw [hp]; exact h.points
  defers := by rw [hd]; exact h.defers
  preds p hp := h.preds p (hq p hp)
  dead := by rw [hdead]; exact h.dead
  state := by rw [hs]; exact h.state

theorem erasePred (p : Pred) : M.Allows r n (x.erasePred p) := by
  have hbare := x.erasePred_bare p
  refine h.congr (congrArg Node.mergeTo hbare :) (x.erasePred_pointsTo p) (x.erasePred_defersTo p)
    (fun q hq => ?_) (congrArg Node.merged hbare :) (congrArg Node.state hbare :)
  exact List.mem_of_mem_erase ((x.erasePred_perm p).mem_iff.mp hq)

theorem addPred {p : Pred} (hp : r.Has p.node)
    (he : M.Edge p.kind (r.means p.node) (r.means n)) : M.Allows r n (x.addPred p) :=
  { h with
    preds := fun q hq => by
      rcases List.mem_append.mp hq with hq | hq
      · exact h.preds q hq
      · rw [List.mem_singleton.mp hq]
        exact ⟨hp, he⟩ }

theorem raise {s : EscapeState} (hs : s ≤ M.state (r.means n)) : M.Allows r n (x.raise s) :=
  { h with state := fun hn => EscapeState.join_le (h.state hn) hs }

/-- Lets a node point to something else. -/
theorem pointAt {p : Pointee}
    (hp : ∀ c, p.target? = some c → r.Has c ∧ M.Points (r.means n) (r.means c)) :
    M.Allows r n { x with pointsTo := p } :=
  { h with points := hp }

/-- A tombstone says only where it went. -/
theorem tombstone : M.Allows r n x.tombstone where
  merge := h.merge
  points _ hc := nomatch hc
  defers _ hm := nomatch hm
  preds _ hp := nomatch hp
  dead _ := rfl
  state := h.state

end Allows

namespace Satisfies

variable {g g' : Graph}

variable (h : M.Satisfies r g)
include h

theorem has : g.Has n ↔ r.Has n := by
  rw [Graph.Has, h.size]
  rfl

theorem modify {f : Node → Node} (hf : M.Allows r n (f (g.node n))) :
    M.Satisfies r (g.modify n f) where
  size := (Graph.size_modify g n f).trans h.size
  node m := by
    rw [Graph.node_modify]
    split
    · rename_i hm
      rw [hm.1]
      exact hf
    · exact h.node m

/-- A loop describes the model to the end if each of its rounds does. -/
theorem foldlM {β : Type} {f : Graph → β → Checked Graph} {l : List β}
    (step : ∀ a ∈ l, ∀ g g', M.Satisfies r g → f g a = .ok g' → M.Satisfies r g')
    (hok : l.foldlM f g = .ok g') : M.Satisfies r g' := by
  refine foldlM_of_ok (P := fun _ g => M.Satisfies r g) ?_ h hok
  rintro done a rest g₁ g₂ rfl h₁ hstep
  exact step a (List.mem_append_right _ List.mem_cons_self) g₁ g₂ h₁ hstep

/-! ### What a graph says -/

/-- Merged nodes stand for the same thing. -/
theorem representative (hn : r.Has n) :
    r.Has (g.representative n) ∧ r.means (g.representative n) = r.means n := by
  suffices H : ∀ (bound : Nat) (n : NodeId), r.Has n →
      r.Has (g.followLinks bound n) ∧ r.means (g.followLinks bound n) = r.means n from H g.size n hn
  intro bound
  induction bound with
  | zero => exact fun n hn => ⟨hn, rfl⟩
  | succ bound ih =>
    intro n hn
    unfold Graph.followLinks
    split
    · rename_i m hm
      obtain ⟨hmr, he⟩ := (h.node n).merge m hm
      obtain ⟨hr, hmeans⟩ := ih m hmr
      exact ⟨hr, hmeans.trans he⟩
    · exact ⟨hn, rfl⟩

theorem target (hc : g.target? n = some c) : r.Has c ∧ M.Points (r.means n) (r.means c) :=
  (h.node n).points c hc

theorem content (hc : g.content? n = some c) : r.Has c ∧ M.Points (r.means n) (r.means c) := by
  rw [Graph.content?_eq, Option.map_eq_some_iff] at hc
  obtain ⟨t, ht, rfl⟩ := hc
  obtain ⟨hr, hp⟩ := h.target ht
  obtain ⟨hrep, he⟩ := h.representative hr
  exact ⟨hrep, he ▸ hp⟩

theorem deferPred (hm : m ∈ (g.node n).deferPreds) : r.Has m ∧ M.Defers (r.means m) (r.means n) :=
  (h.node n).preds ⟨.defer, m⟩ (Graph.mem_deferPreds.mp hm)

/-- The nodes of a web point to the same things. -/
theorem neighbour (hm : m ∈ g.neighbours n) :
    r.Has m ∧ ∀ a, M.Points (r.means n) a ↔ M.Points (r.means m) a := by
  rcases List.mem_append.mp hm with hm | hm
  · obtain ⟨hr, hd⟩ := h.deferPred hm
    exact ⟨hr, fun a => (M.agree hd).symm⟩
  · obtain ⟨hr, hd⟩ := (h.node n).defers m hm
    exact ⟨hr, fun a => M.agree hd⟩

/-! ### Edges -/

theorem copyUsePoints (n m : NodeId) : M.Satisfies r (g.copyUsePoints n m) := by
  unfold Graph.copyUsePoints
  split
  · exact h
  · exact h.modify ((h.node m).congr rfl rfl rfl (fun _ hp => hp) rfl rfl)

section

variable (hn : r.Has n)
include hn

theorem linkEdge (hc : r.Has c)
    (hp : M.Points (r.means n) (r.means c)) : M.Satisfies r (g.linkEdge n c) := by
  have h₁ : M.Satisfies r (g.modify n fun x => { x with pointsTo := .edge c }) :=
    h.modify ((h.node n).pointAt fun d hd => by cases hd; exact ⟨hc, hp⟩)
  exact h₁.modify ((h₁.node c).addPred hn hp)

theorem setEdge (hp : M.Points (r.means n) (r.means c))
    (hok : g.setEdge n c = .ok g') : M.Satisfies r g' := by
  obtain ⟨-, hc, rfl⟩ := Graph.setEdge_ok.mp hok
  exact h.linkEdge hn (h.has.mp (Graph.has_of_isContent hc)) hp

theorem addDefer {b : Bool} (hm : r.Has m)
    (hd : M.Defers (r.means n) (r.means m)) (hok : g.addDefer n m = .ok (g', b)) :
    M.Satisfies r g' := by
  obtain ⟨-, ⟨rfl, -⟩ | ⟨rfl, -⟩⟩ := Graph.addDefer_cases hok
  · exact h
  · have h₁ : M.Satisfies r (g.modify n fun x => { x with defersTo := x.defersTo ++ [m] }) := by
      refine h.modify { h.node n with defers := fun k hk => ?_ }
      rcases List.mem_append.mp hk with hk | hk
      · exact (h.node n).defers k hk
      · rw [List.mem_singleton.mp hk]
        exact ⟨hm, hd⟩
    exact h₁.modify ((h₁.node m).addPred hn hd)

/-! ### Giving a content to a web -/

omit hn in
theorem infer (hc : r.Has c) (hp : M.Points (r.means n) (r.means c)) :
    M.Satisfies r (Graph.infer c g n) :=
  (h.modify ((h.node n).pointAt fun d hd => by cases hd; exact ⟨hc, hp⟩)).copyUsePoints n c

omit hn in
omit h in
theorem foldl_infer {l : List NodeId} : ∀ {g : Graph}, M.Satisfies r g → r.Has c →
    (∀ n ∈ l, M.Points (r.means n) (r.means c)) → M.Satisfies r (l.foldl (Graph.infer c) g) := by
  induction l with
  | nil => exact fun h _ _ => h
  | cons n l ih =>
    intro g h hc hl
    obtain ⟨hn, hl⟩ := List.forall_mem_cons.mp hl
    exact ih (h.infer hc hn) hc hl

theorem give (hc : r.Has c) (hp : M.Points (r.means n) (r.means c))
    (hok : Graph.give c g n = .ok g') : M.Satisfies r g' := by
  obtain ⟨g₁, h₁, hok⟩ := bind_ok.mp hok
  cases hok
  have hg₁ : M.Satisfies r g₁ := by
    unfold Graph.ensureEdge at h₁
    split at h₁
    · cases h₁
      exact h
    · obtain ⟨g₂, h₂, h₁⟩ := bind_ok.mp h₁
      cases h₁
      exact (h.setEdge hn hp h₂).copyUsePoints n c
  refine hg₁.foldl_infer hc fun m hm => ?_
  refine closure_induct (P := fun m => M.Points (r.means m) (r.means c)) hp (fun a b ha hb => ?_) m
    (List.mem_of_mem_tail hm)
  exact (M.agree (hg₁.deferPred (List.mem_of_mem_filter hb)).2).mpr ha

/-- A survey comes to nodes of the web only. -/
theorem survey (hp : M.Points (r.means n) (r.means c)) :
    (∀ m ∈ (g.survey n).trail, r.Has m ∧ M.Points (r.means m) (r.means c)) ∧
      ∀ m ∈ (g.survey n).found, r.Has m ∧ M.Points (r.means m) (r.means c) := by
  by_cases hbare : g.target? n = none
  · obtain ⟨htidy, hfound, htrail⟩ := Graph.surveyStart_spec hbare
    have hstep : ∀ a b, r.Has a ∧ M.Points (r.means a) (r.means c) → b ∈ g.neighbours a →
        r.Has b ∧ M.Points (r.means b) (r.means c) := fun a b ha hb => by
      obtain ⟨hr, hiff⟩ := h.neighbour hb
      exact ⟨hr, (hiff _).mp ha.2⟩
    have hreach : ∀ m ∈ (g.survey n).found, r.Has m ∧ M.Points (r.means m) (r.means c) := by
      refine Walk.run_induct g.surveyVerdict_ne_halt htidy (fun a ha => ?_)
        (fun a b ha hb _ => hstep a b ha hb) _ _
      rw [hfound, List.mem_singleton] at ha
      exact ha ▸ ⟨hn, hp⟩
    refine ⟨fun m hm => ?_, hreach⟩
    rcases Walk.run_of_trail g.surveyVerdict_ne_halt htidy _ _ m hm with hm | ⟨a, ha, hma⟩
    · rw [htrail m hm]
      exact ⟨hn, hp⟩
    · exact hstep a m (hreach a ha) hma
  · rw [Graph.survey_of_target (Option.isSome_iff_ne_none.mpr hbare)]
    exact ⟨fun m hm => by simp_all, fun m hm => by simp [Walk.found] at hm⟩

theorem spread {own : Bool} (hc : r.Has c)
    (hp : M.Points (r.means n) (r.means c)) (hok : g.spread n c own = .ok g') :
    M.Satisfies r g' := by
  obtain ⟨htrail, hfound⟩ := h.survey hn hp
  unfold Graph.spread at hok
  obtain ⟨g₁, h₁, hok⟩ := bind_ok.mp hok
  have hg₁ : M.Satisfies r g₁ := by
    refine h.foldlM (fun m hm k k' hk hstep => ?_) h₁
    obtain ⟨hmr, hmp⟩ : r.Has m ∧ M.Points (r.means m) (r.means c) := by
      replace hm := List.mem_reverse.mp hm
      split at hm
      · rcases List.mem_cons.mp hm with rfl | hm
        · exact ⟨hn, hp⟩
        · exact htrail m (Array.mem_toList_iff.mp (List.mem_of_mem_filter hm))
      · exact htrail m (Array.mem_toList_iff.mp (List.mem_of_mem_filter hm))
    exact hk.give hmr hc hmp hstep
  refine hg₁.foldlM (fun m hm k k' hk hstep => ?_) hok
  obtain ⟨hmr, hmp⟩ := hfound m (List.mem_reverse.mp hm)
  split at hstep
  · cases hstep
    exact hk
  · exact hk.give hmr hc hmp hstep

/-! ### Giving another content to a web -/

theorem repointNode (hc : r.Has c)
    (hp : M.Points (r.means n) (r.means c)) (hok : Graph.repointNode c g n = .ok g') :
    M.Satisfies r g' := by
  unfold Graph.repointNode at hok
  split at hok
  · exact (h.modify ((h.node _).erasePred _)).setEdge hn hp hok
  · cases hok
    exact h.modify ((h.node n).pointAt fun d hd => by cases hd; exact ⟨hc, hp⟩)
  · cases hok
    exact h

theorem repoint (hc : r.Has c)
    (hp : M.Points (r.means n) (r.means c)) (hok : g.repoint n c = .ok g') : M.Satisfies r g' := by
  obtain ⟨hc', hmeans⟩ := h.representative hc
  rw [← hmeans] at hp
  rcases Graph.repoint_cases rfl hok with ⟨-, rfl⟩ | ⟨done, -, hturns, -⟩
  · exact h
  · suffices hall : M.Satisfies r g' ∧ ∀ m ∈ done, r.Has m ∧
        M.Points (r.means m) (r.means (g.representative c)) from hall.1
    clear hok
    induction hturns with
    | start => exact ⟨h, by simp⟩
    | @turn done k k' m _ hfrom _ _ hstep ih =>
      obtain ⟨hk, hdone⟩ := ih
      obtain ⟨hmr, hmp⟩ : r.Has m ∧ M.Points (r.means m) (r.means (g.representative c)) := by
        rcases hfrom with rfl | ⟨a, ha, hm⟩
        · exact ⟨hn, hp⟩
        · obtain ⟨hmr, hiff⟩ := h.neighbour hm
          exact ⟨hmr, (hiff _).mp (hdone a ha).2⟩
      refine ⟨hk.repointNode hmr hc' hmp hstep, fun b hb => ?_⟩
      rcases List.mem_append.mp hb with hb | hb
      · exact hdone b hb
      · exact List.mem_singleton.mp hb ▸ ⟨hmr, hmp⟩

/-! ### Merging -/

theorem schedule (hm : r.Has m) (he : r.means n = r.means m) : M.Satisfies r (g.schedule n m) := by
  obtain ⟨hn', hen⟩ := h.representative hn
  obtain ⟨hm', hem⟩ := h.representative hm
  unfold Graph.schedule
  dsimp only
  split
  · exact h
  · have h₁ : M.Satisfies r (g.inheritFlags (g.representative n) (g.representative m)) :=
      h.modify ((h.node _).congr rfl rfl rfl (fun _ hp => hp) rfl rfl)
    have h₂ := h₁.modify (n := g.representative n) (f := fun x => { x with mergeTo := some _ })
      { h₁.node _ with
        merge := fun k hk => by
          cases hk
          exact ⟨hm', hem.trans (he.symm.trans hen.symm)⟩ }
    exact ⟨h₂.size, h₂.node⟩

end

omit h in
/-- Unlists the edges in a list of nodes. -/
theorem foldl_erasePred {p : Pred} {l : List NodeId} : ∀ {g : Graph}, M.Satisfies r g →
    M.Satisfies r (l.foldl (fun g d => g.modify d (·.erasePred p)) g) := by
  induction l with
  | nil => exact fun h => h
  | cons d l ih => exact fun h => ih (h.modify ((h.node d).erasePred p))

variable {src dst : NodeId}

section

variable (he : r.means src = r.means dst)
include he

/-- The edges that come in at `src` come in at `dst`, which stands for the same thing. -/
theorem unlink (hok : g.unlink src dst = .ok g') : M.Satisfies r g' := by
  obtain ⟨g₁, h₁, hok⟩ := bind_ok.mp hok
  cases hok
  refine foldl_erasePred (h.foldlM (fun p hp k k' hk hstep => ?_) h₁)
  obtain ⟨hr, hedge⟩ := (h.node src).preds p hp
  unfold Graph.redirectPred at hstep
  split at hstep
  · rename_i hkind
    rw [hkind] at hedge
    split at hstep
    · cases hstep
      exact hk
    · exact hk.setEdge hr (he ▸ hedge) hstep
  · cases hstep
    exact hk.modify { hk.node p.node with
      defers := fun m hm => (hk.node p.node).defers m (List.mem_of_mem_filter hm) }

omit he in
theorem dropEdge (src : NodeId) : M.Satisfies r (g.dropEdge src) := by
  unfold Graph.dropEdge
  split
  · exact h.modify ((h.node _).erasePred _)
  · exact h
  · exact h

section

variable (hd : r.Has dst)
include hd

theorem takeEdge (hok : g.takeEdge src dst = .ok g') : M.Satisfies r g' := by
  unfold Graph.takeEdge at hok
  split at hok
  · rename_i c hc
    obtain ⟨hcr, hcp⟩ := h.target (Graph.target?_of_edge hc)
    split at hok
    · obtain ⟨hr, hmeans⟩ := Reading.rename he hd hcr
      exact h.spread hd hr (by rw [hmeans, ← he]; exact hcp) hok
    · rename_i d hinf
      obtain ⟨hdr, hdp⟩ := h.target (Graph.target?_of_inferred hinf)
      obtain ⟨hr, hmeans⟩ := Reading.rename he hd hdr
      cases hok
      exact h.linkEdge hd hr (by rw [hmeans]; exact hdp)
    · cases hok
      exact h
  · cases hok
    exact h
  · cases hok
    exact h

/-- Two nodes that stand for the same thing point to contents that do. -/
theorem matchContents {content : Option NodeId}
    (hc : ∀ c, content = some c → r.Has c ∧ M.Points (r.means src) (r.means c)) :
    M.Satisfies r (g.matchContents src dst content) := by
  unfold Graph.matchContents
  split
  · rename_i d c hdst
    split
    · exact h
    · obtain ⟨hcr, hcp⟩ := hc c rfl
      obtain ⟨hdr, hdp⟩ := h.target hdst
      obtain ⟨hr, hmeans⟩ := Reading.rename he hd hcr
      exact h.schedule hr hdr (hmeans.trans (M.unique (he ▸ hcp) hdp))
  · exact h

theorem fixOther {other : NodeId}
    (ho : r.Has other) (hok : g.fixOther src dst other = .ok g') : M.Satisfies r g' := by
  unfold Graph.fixOther at hok
  split at hok
  · rename_i hsrc
    exact h.repoint ho hd (he ▸ (h.target hsrc).2) hok
  · cases hok
    exact h

omit he in
/-- Nodes of one web agree on their content. -/
theorem reconcile {other : NodeId} (ho : r.Has other)
    (hagree : ∀ a, M.Points (r.means dst) a ↔ M.Points (r.means other) a)
    (hok : g.reconcile dst other = .ok g') : M.Satisfies r g' := by
  unfold Graph.reconcile at hok
  split at hok
  · rename_i c _ hc
    obtain ⟨hcr, hcp⟩ := h.target hc
    exact h.repoint ho hcr ((hagree _).mp hcp) hok
  · rename_i c hc _
    obtain ⟨hcr, hcp⟩ := h.target hc
    exact h.spread hd hcr ((hagree _).mpr hcp) hok
  · rename_i c _ hc
    obtain ⟨hcr, hcp⟩ := h.target hc
    exact h.spread ho hcr ((hagree _).mp hcp) hok
  · cases hok
    exact h

/-- A defer edge at `src` is moved to `dst`, which stands for the same thing. -/
theorem moveDefer {other : NodeId} {isSuccessor : Bool} (ho : r.Has other)
    (hdefers : if isSuccessor then M.Defers (r.means src) (r.means other)
      else M.Defers (r.means other) (r.means src))
    (hok : Graph.moveDefer src dst g other isSuccessor = .ok g') : M.Satisfies r g' := by
  by_cases hod : other = dst
  · unfold Graph.moveDefer at hok
    rw [if_pos hod] at hok
    cases hok
    exact h
  · rw [Graph.moveDefer_eq hod] at hok
    obtain ⟨g₁, h₁, hok⟩ := bind_ok.mp hok
    obtain ⟨⟨g₂, b⟩, h₂, h₃⟩ := bind_ok.mp hok
    have hg₁ := h.fixOther he hd ho h₁
    rw [he] at hdefers
    cases isSuccessor with
    | true => exact (hg₁.addDefer hd ho hdefers h₂).reconcile hd ho (fun _ => M.agree hdefers) h₃
    | false =>
      exact (hg₁.addDefer ho hd hdefers h₂).reconcile hd ho (fun _ => (M.agree hdefers).symm) h₃

end

omit he in
theorem alignPred {p : Pred} (hp : p ∈ (g.node n).preds) (hn : r.Has n)
    (hok : Graph.alignPred n g p = .ok g') : M.Satisfies r g' := by
  obtain ⟨-, hedge⟩ := (h.node n).preds p hp
  unfold Graph.alignPred at hok
  split at hok
  · rename_i hkind
    rw [hkind] at hedge
    refine h.foldlM (fun m hm k k' hk hstep => ?_) hok
    obtain ⟨hmr, hiff⟩ := h.neighbour hm
    split at hstep
    · exact hk.repoint hmr hn ((hiff _).mp hedge) hstep
    · cases hstep
      exact hk
  · cases hok
    exact h

theorem bury (hsrc : ¬ r.dead src) : M.Satisfies r (g.bury src dst) := by
  have h₁ := (h.modify ((h.node dst).raise (he ▸ (h.node src).state hsrc))).copyUsePoints src dst
  unfold Graph.bury
  generalize (g.modify dst (·.raise (g.node src).state)).copyUsePoints src dst = k at h₁ ⊢
  have h₂ : M.Satisfies r (k.moveValue src dst) := by
    unfold Graph.moveValue
    split
    · rename_i v _ _
      have h₂ := h₁.modify (n := dst) (f := fun x => { x with value := some v })
        ((h₁.node dst).congr rfl rfl rfl (fun _ hp => hp) rfl rfl)
      exact ⟨h₂.size, h₂.node⟩
    · exact h₁
  exact h₂.modify (h₂.node src).tombstone

end

/-- **A merge is sound**: the merged node stands for what its representative does. -/
theorem absorb (hsrc : r.Has src) (hlive : ¬ r.dead src)
    (hok : g.absorb src = .ok g') : M.Satisfies r g' := by
  obtain ⟨dst, rfl, -, -, -, g₁, g₂, g₃, g₄, g₅, g₆, h₁, h₂, h₃, h₄, h₅, h₆, rfl⟩ :=
    Graph.absorb_ok.mp hok
  obtain ⟨hd, he⟩ := h.representative hsrc
  replace he := he.symm
  have hg₁ := h.unlink he h₁
  have hg₂ := (hg₁.dropEdge src).takeEdge he hd h₂
  have hg₃ := (hg₂.matchContents he hd fun c hc => hg₁.target hc).fixOther he hd hd h₃
  have hg₄ := hg₃.foldlM (fun m hm k k' hk hstep => by
    obtain ⟨hmr, hdefers⟩ := h.deferPred hm
    exact hk.moveDefer he hd hmr (by exact hdefers) hstep) h₄
  have hg₅ := hg₄.foldlM (fun m hm k k' hk hstep => by
    obtain ⟨hmr, hdefers⟩ := (hg₁.node src).defers m hm
    exact hk.moveDefer he hd hmr (by exact hdefers) hstep) h₅
  have hg₆ := Graph.alignPreds_induct (fun _ _ _ hk hp => hk.alignPred hp hd) _ _ hg₅ h₆
  exact hg₆.bury he hlive

/-- Carrying out all scheduled merges. Only live nodes are merged. -/
theorem settle (hq : Graph.Queued g) (hok : g.settle = .ok g') : M.Satisfies r g' := by
  refine (Graph.settle_induct (P := fun k => Graph.Queued k ∧ M.Satisfies r k)
    (fun k k' n rest ⟨hq, h⟩ hp h₁ => ?_) ⟨hq, h⟩ hok).2
  have hn : n ∈ k.pending := by rw [hp]; exact List.mem_cons_self
  have hlive : ¬ r.dead n := fun hdead => by
    have := ((hq.shape.waits n).mp hn).1
    rw [(h.node n).dead hdead] at this
    cases this
  obtain ⟨hs₁, hnd₁, -⟩ := Graph.settle_step hq.shape hq.nodup hp h₁
  have h₀ : M.Satisfies r { k with pending := rest } := ⟨h.size, h.node⟩
  exact ⟨⟨hs₁, hnd₁⟩, h₀.absorb (h.has.mp (hq.shape.has_of_waits hn)) hlive h₁⟩

/-! ### Defer edges -/

/-- **Adding a defer edge that is true is sound.** -/
theorem deferTracked {k : NodeId} {changed : Bool} (hs : Graph.Settled g)
    (hd : M.Defers (r.means n) (r.means m)) (hok : g.deferTracked n m = .ok (g', k, changed)) :
    M.Satisfies r g' := by
  rcases Graph.deferTracked_ok hok with ⟨-, rfl, -⟩ |
    ⟨-, -, hn, hm, -, g₁, g₂, b, b', h₁, h₂, h₃, -⟩
  · exact h
  · have hg₁ : M.Satisfies r g₁ := by
      unfold Graph.mergeContents at h₁
      split at h₁
      · rename_i c d hc hd'
        split at h₁
        · cases h₁
          exact h
        · obtain ⟨g₀, h₀, h₁⟩ := bind_ok.mp h₁
          cases h₁
          obtain ⟨hcr, hcp⟩ := h.target hc
          obtain ⟨hdr, hdp⟩ := h.target hd'
          have hq := hs.queued
          obtain ⟨hs₀, hnd₀, -⟩ := Graph.schedule_shape hq.shape hq.nodup (h.has.mpr hcr)
            (h.has.mpr hdr)
          exact (h.schedule hcr hdr (M.unique ((M.agree hd).mp hcp) hdp)).settle ⟨hs₀, hnd₀⟩ h₀
      · cases h₁
        exact h
    obtain ⟨hnr, hen⟩ := hg₁.representative (h.has.mp hn)
    obtain ⟨hmr, hem⟩ := hg₁.representative (h.has.mp hm)
    have hg₂ := hg₁.addDefer hnr hmr (by rw [hen, hem]; exact hd) h₂
    unfold Graph.shareContent at h₃
    split at h₃
    · rename_i c _ hc
      obtain ⟨hcr, hcp⟩ := h.target hc
      exact hg₂.spread hnr hcr (by rw [hen]; exact (M.agree hd).mpr hcp) h₃
    · rename_i c hc _
      obtain ⟨hcr, hcp⟩ := h.target hc
      exact hg₂.spread hmr hcr (by rw [hem]; exact (M.agree hd).mp hcp) h₃
    · cases h₃
      exact hg₂

/-! ### States -/

theorem raise {s : EscapeState} (hn : r.Has n) (hs : s ≤ M.state (r.means n)) :
    M.Satisfies r (g.raise n s).1 :=
  h.modify ((h.node _).raise (by rw [(h.representative hn).2]; exact hs))

omit h in
/-- A live node pushes its state to nodes that stand for something visible at least as far. -/
theorem pushState {acc : Graph × Bool} (h : M.Satisfies r acc.1) (n : NodeId) :
    M.Satisfies r (Graph.pushState acc n).1 := by
  unfold Graph.pushState
  dsimp only
  split
  · exact h
  · rename_i hlive
    have hs : (acc.1.node n).state ≤ M.state (r.means n) :=
      (h.node n).state fun hdead => hlive ((h.node n).dead hdead)
    refine List.foldlRecOn (motive := fun a : Graph × Bool => M.Satisfies r a.1) _ _ h
      fun a ha m hm => ?_
    refine ha.modify ((ha.node m).raise (EscapeState.le_trans hs ?_))
    rcases List.mem_append.mp hm with hm | hm
    · exact M.points_le (h.content (Option.mem_toList.mp hm)).2
    · exact M.defers_le ((h.node n).defers m hm).2

/-- **Pushing states along all edges is sound.** -/
theorem propagate : M.Satisfies r g.propagate.1 :=
  Graph.propagateUpTo_induct (fun _ n h => h.pushState n) _ h

end Satisfies

end Model

end Escape
