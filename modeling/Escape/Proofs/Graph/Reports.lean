import Escape.Proofs.Graph.Facts
import Escape.Proofs.Graph.Least
import Escape.Proofs.Graph.Rooted

/-!
# What a splice reports

A splice tells whether it changed the destination, and whoever asks for splices until nothing
changes relies on it. Nothing that operations do to a graph is ever taken back: nodes are added,
states rise, contents and defer edges stay until one of their ends is merged, and merges are final.
So a graph in which anything was done cannot come back to what it was, and it is enough to look at
the first step that does something.

- `Graph.splice_changed_iff`: **a splice reports a change exactly if it made one.**
-/

namespace Escape

/-- The node `y` says at least what `x` does about its state, its merge, its content and its defer
edges. -/
structure Node.Within (x y : Node) : Prop where
  state : x.state ≤ y.state
  merge : x.mergeTo.isSome → y.mergeTo.isSome
  content : x.pointsTo.isSet → y.pointsTo.isSet
  defers : ∀ d ∈ x.defersTo, d ∈ y.defersTo

namespace Node.Within

variable {x y : Node}

theorem refl (x : Node) : x.Within x := ⟨EscapeState.le_refl _, id, id, fun _ h => h⟩

/-- A bare node says nothing. -/
theorem of_empty (y : Node) : ({} : Node).Within y := ⟨Nat.zero_le _, nofun, nofun, nofun⟩

/-- A change that leaves all that alone. -/
theorem of_eq (hs : y.state = x.state) (hm : y.mergeTo = x.mergeTo) (hp : y.pointsTo = x.pointsTo)
    (hd : y.defersTo = x.defersTo) : x.Within y := by
  refine ⟨?_, ?_, ?_, ?_⟩
  · rw [hs]
    exact EscapeState.le_refl _
  · rw [hm]
    exact id
  · rw [hp]
    exact id
  · rw [hd]
    exact fun _ h => h

end Node.Within

namespace Graph

variable {g g' g'' source : Graph} {n m c src dst : NodeId} {M M' : NodeMap}
  {own changed changed' : Bool}

/-! ### Findings -/

/-- Something that a graph may say. -/
inductive Finding where
  /-- There are at least so many nodes. -/
  | nodes (count : Nat)
  /-- The node is visible at least so far. -/
  | state (n : NodeId) (s : EscapeState)
  /-- The node is merged, or waits to be merged. -/
  | merge (n : NodeId)
  /-- The node has a content, or is merged. -/
  | content (n : NodeId)
  /-- The one node defers to the other one, or one of them is merged. -/
  | defer (n m : NodeId)

/-- The graph says so. -/
def Shows (g : Graph) : Finding → Prop
  | .nodes count => count ≤ g.size
  | .state n s => s ≤ (g.node n).state
  | .merge n => g.Gone n
  | .content n => (g.node n).pointsTo.isSet ∨ g.Gone n
  | .defer n m => g.Defers n m ∨ g.Gone n ∨ g.Gone m

/-- The graph `g'` shows everything that `g` does. -/
def Retains (g g' : Graph) : Prop := ∀ x, g.Shows x → g'.Shows x

/-- The graph `g'` shows everything that `g` does, and something else. -/
def Learns (g g' : Graph) : Prop := Retains g g' ∧ ∃ x, g'.Shows x ∧ ¬ g.Shows x

/-- What is learned is not forgotten. -/
theorem Learns.retains (h : Learns g g') (h' : Retains g' g'') : Learns g g'' := by
  obtain ⟨hr, x, hx, hnx⟩ := h
  exact ⟨fun y hy => h' y (hr y hy), x, h' x hx, hnx⟩

namespace Retains

theorem refl (g : Graph) : Retains g g := fun _ h => h

theorem trans (h : Retains g g') (h' : Retains g' g'') : Retains g g'' := fun x hx => h' x (h x hx)

/-- Each node keeps what it shows. -/
theorem of_within (hsize : g.size ≤ g'.size) (h : ∀ n, (g.node n).Within (g'.node n)) :
    Retains g g' := by
  intro x hx
  cases x with
  | nodes count => exact Nat.le_trans hx hsize
  | state n s => exact EscapeState.le_trans hx (h n).state
  | merge n => exact (h n).merge hx
  | content n => exact hx.imp (h n).content (h n).merge
  | defer n m => exact hx.imp ((h n).defers m) (Or.imp (h n).merge (h m).merge)

theorem of_nodes (h : g'.nodes = g.nodes) : Retains g g' := by
  refine of_within (by rw [size, size, h]) fun n => ?_
  rw [node, node, h]
  exact .refl _

theorem modify (g : Graph) (n : NodeId) {f : Node → Node} (h : ∀ x : Node, x.Within (f x)) :
    Retains g (g.modify n f) := by
  refine of_within (Nat.le_of_eq (size_modify g n f).symm) fun m => ?_
  rw [node_modify]
  split
  · exact h _
  · exact .refl _

theorem addNode (g : Graph) (x : Node) : Retains g (g.addNode x).1 := by
  refine of_within (by simp) fun n => ?_
  by_cases hn : g.Has n
  · rw [node_addNode_of_lt hn]
    exact .refl _
  · rw [node_of_not_has hn]
    exact .of_empty _

/-- A loop retains what each of its rounds does. -/
theorem foldlM {α : Type} {f : Graph → α → Checked Graph} {l : List α}
    (step : ∀ g a g', f g a = .ok g' → Retains g g') (hok : l.foldlM f g = .ok g') :
    Retains g g' := by
  refine foldlM_of_ok (P := fun _ h => Retains g h) ?_ (.refl g) hok
  intro done a rest h h' _ hr hstep
  exact hr.trans (step h a h' hstep)

theorem foldl {α : Type} {f : Graph → α → Graph} (step : ∀ g a, Retains g (f g a)) :
    ∀ (l : List α) (g : Graph), Retains g (l.foldl f g)
  | [], g => .refl g
  | a :: l, g => (step g a).trans (foldl step l (f g a))

end Retains

/-! ### Edges and webs -/

/-- Changes of edges take nothing back. -/
theorem Redirects.retains {T : NodeId → Prop} (h : Redirects T g g') : Retains g g' := by
  have hgone (k : NodeId) : g.Gone k → g'.Gone k := h.toRewires.gone.mpr
  intro x hx
  cases x with
  | nodes count => exact Nat.le_trans hx (Nat.le_of_eq h.size.symm)
  | state n s =>
    rw [Shows, h.state]
    exact hx
  | merge n => exact hgone n hx
  | content n => exact hx.imp (h.content n) (hgone n)
  | defer n m =>
    rcases hx with hd | hn
    · exact (h.defers n m hd).imp_right fun hm => .inr (hgone m hm)
    · exact .inr (hn.imp (hgone n) (hgone m))

theorem give_retains (hok : give c g n = .ok g') : Retains g g' :=
  (give_redirects (.all g) trivial hok).retains

theorem spread_retains (hok : g.spread n c own = .ok g') : Retains g g' :=
  (spread_redirects (.all g) trivial hok).retains

theorem addDefer_retains (hok : g.addDefer n m = .ok (g', changed)) : Retains g g' :=
  (addDefer_redirects (.all g) hok).retains

/-! ### Merges -/

theorem schedule_retains (g : Graph) (n m : NodeId) : Retains g (g.schedule n m) := by
  by_cases h : g.representative n = g.representative m
  · rw [schedule_eq_self h]
    exact .refl g
  · rw [schedule_of_ne h]
    have hflags : Retains g (g.inheritFlags (g.representative n) (g.representative m)) :=
      .modify g _ fun _ => .of_eq rfl rfl rfl rfl
    have hlink := hflags.trans (.modify _ (g.representative n) (f := fun x =>
      { x with mergeTo := some (g.representative m) }) fun _ => ⟨EscapeState.le_refl _,
        fun _ => rfl, id, fun _ h => h⟩)
    exact hlink.trans (.of_nodes rfl)

theorem matchContents_retains (g : Graph) (src dst : NodeId) (content : Option NodeId) :
    Retains g (g.matchContents src dst content) := by
  unfold matchContents
  split
  · split
    · exact .refl g
    · exact schedule_retains g _ _
  · exact .refl g

/-- A tombstone has lost its content and its edges, but it is merged. -/
theorem tombstone_retains (hsrc : g.Gone src) : Retains g (g.modify src Node.tombstone) := by
  have hlinks (k : NodeId) (hk : g.Gone k) : (g.modify src Node.tombstone).Gone k := by
    rwa [Gone, node_modify_field Node.mergeTo]
  have hother {k : NodeId} (hk : k ≠ src) : (g.modify src Node.tombstone).node k = g.node k :=
    node_modify_of_ne hk _
  intro x hx
  cases x with
  | nodes count => exact Nat.le_trans hx (Nat.le_of_eq (size_modify g _ _).symm)
  | state n s =>
    rw [Shows, node_modify_field Node.state]
    exact hx
  | merge n => exact hlinks n hx
  | content n =>
    by_cases hn : n = src
    · exact .inr (hlinks n (hn ▸ hsrc))
    · refine hx.imp (fun hc => ?_) (hlinks n)
      rwa [hother hn]
  | defer n m =>
    by_cases hn : n = src
    · exact .inr (.inl (hlinks n (hn ▸ hsrc)))
    · refine hx.imp (fun hd => ?_) (Or.imp (hlinks n) (hlinks m))
      rwa [Defers, hother hn]

theorem moveValue_retains (g : Graph) (src dst : NodeId) : Retains g (g.moveValue src dst) := by
  unfold moveValue
  split
  · rename_i v _ _
    have hvalue : Retains g (g.modify dst fun x => { x with value := some v }) :=
      .modify g dst fun _ => .of_eq rfl rfl rfl rfl
    exact hvalue.trans (.of_nodes rfl)
  · exact .refl g

theorem modify_raise_retains (g : Graph) (n : NodeId) (s : EscapeState) :
    Retains g (g.modify n (·.raise s)) :=
  .modify g n fun _ => ⟨EscapeState.le_join_left _ _, id, id, fun _ h => h⟩

/-- Burying a node that is gone takes nothing back. -/
theorem bury_retains (hsrc : g.Gone src) : Retains g (g.bury src dst) := by
  have huse : ∀ k : Graph, Retains k (k.copyUsePoints src dst) := fun k =>
    (copyUsePoints_redirects (.all k) src dst).retains
  have hr := ((modify_raise_retains g dst (g.node src).state).trans (huse _)).trans
    (moveValue_retains _ src dst)
  exact hr.trans (tombstone_retains (hr (.merge src) hsrc))

/-- **A merge takes nothing back.** It is refused unless the node is scheduled. -/
theorem absorb_retains (hok : g.absorb src = .ok g') : Retains g g' := by
  obtain ⟨dst, content, k, k', hsrc, hr, hr', rfl⟩ := absorb_phases hok
  have hretains := hr.retains.trans ((matchContents_retains k src dst content).trans hr'.retains)
  exact hretains.trans (bury_retains (hretains (.merge src) hsrc))

theorem settle_retains (hok : g.settle = .ok g') : Retains g g' := by
  refine settle_induct (P := Retains g) (fun k k' n rest hk _ h₁ => ?_) (.refl g) hok
  have hpop : Retains k { k with pending := rest } := .of_nodes rfl
  exact hk.trans (hpop.trans (absorb_retains h₁))

/-! ### Defer edges and contents -/

theorem createContent_retains {interior referenceOnly : Bool}
    (hok : g.createContent n interior referenceOnly = .ok (g', c)) :
    Retains (g.addNode (freshContent interior referenceOnly)).1 g' := by
  obtain ⟨g₁, h₁, hok⟩ := bind_ok.mp hok
  cases hok
  exact spread_retains h₁

theorem shareContent_retains {c? d? : Option NodeId} (hok : g.shareContent n m c? d? = .ok g') :
    Retains g g' :=
  (shareContent_redirects (.all g) (fun _ _ => trivial) (fun _ _ => trivial) hok).retains

/-- Two contents are merged, or nothing is done. -/
theorem mergeContents_cases (hok : g.mergeContents n m = .ok (g', changed)) :
    g' = g ∧ changed = false ∨ ∃ c d, g.target? n = some c ∧ g.target? m = some d ∧ c ≠ d ∧
      (g.schedule c d).settle = .ok g' ∧ changed = true := by
  unfold mergeContents at hok
  split at hok
  · rename_i c d hc hd
    split at hok
    · cases hok
      exact .inl ⟨rfl, rfl⟩
    · rename_i hne
      obtain ⟨g₁, h₁, hok⟩ := bind_ok.mp hok
      cases hok
      exact .inr ⟨c, d, hc, hd, hne, h₁, rfl⟩
  · cases hok
    exact .inl ⟨rfl, rfl⟩

theorem mergeContents_retains (hok : g.mergeContents n m = .ok (g', changed)) : Retains g g' := by
  rcases mergeContents_cases hok with ⟨rfl, -⟩ | ⟨c, d, -, -, -, hs, -⟩
  · exact .refl _
  · exact (schedule_retains g c d).trans (settle_retains hs)

theorem deferTracked_retains (hok : g.deferTracked n m = .ok (g', c, changed)) : Retains g g' := by
  rcases deferTracked_ok hok with ⟨-, rfl, -⟩ | ⟨-, -, -, -, -, g₁, g₂, _, _, h₁, h₂, h₃, -⟩
  · exact .refl _
  · exact ((mergeContents_retains h₁).trans (addDefer_retains h₂)).trans (shareContent_retains h₃)

theorem raise_retains (g : Graph) (n : NodeId) (s : EscapeState) : Retains g (g.raise n s).1 :=
  modify_raise_retains g _ s

theorem raiseIf_retains (c : Bool) (g : Graph) (n : NodeId) : Retains g (raiseIf c g n).1 := by
  unfold raiseIf
  split
  · exact raise_retains g n _
  · exact .refl g

theorem carry_retains {raised : Bool} (h : Carry source src dst M g raised g' M' changed) :
    Retains g g' := by
  cases h with
  | stop _ => exact .refl g
  | adopt _ _ _ => exact .refl g
  | create _ _ _ h => exact (Retains.addNode g _).trans (createContent_retains h)
  | same _ _ => exact .refl g
  | merge _ _ _ _ => exact schedule_retains g _ _
  | give _ _ _ h => exact spread_retains h

theorem spliceContent_retains (hok : spliceContent source src dst g M = .ok (g', M', changed)) :
    Retains g g' := by
  exact (raiseIf_retains _ g dst).trans (carry_retains (carryContent_ok hok))

theorem spliceDefer_retains {acc acc' : Graph × NodeId × Bool}
    (hok : spliceDefer source M acc n = .ok acc') : Retains acc.1 acc'.1 := by
  cases spliceDefer_ok hok with
  | link _ h₁ => exact deferTracked_retains h₁
  | raise _ _ => exact raise_retains acc.1 acc.2.1 _
  | skip _ _ => exact .refl _

/-! ### Reports -/

/-- Nothing was changed or reported, and `P` holds; or a change is reported and the graph shows
something new. What a later step needs is lost with the first change, and not needed then. -/
def Reported (g : Graph) (changed : Bool) (g' : Graph) (P : Prop) : Prop :=
  changed = false ∧ g' = g ∧ P ∨ changed = true ∧ Learns g g'

namespace Reported

variable {g₁ g₂ : Graph} {c c₁ : Bool} {P Q : Prop}

theorem unchanged (hp : P) : Reported g false g P := .inl ⟨rfl, rfl, hp⟩

theorem learns (h : Learns g g') : Reported g true g' P := .inr ⟨rfl, h⟩

theorem imp (h : Reported g c g' P) (hpq : g' = g → P → Q) : Reported g c g' Q := by
  rcases h with ⟨hc, hg, hp⟩ | h
  · exact .inl ⟨hc, hg, hpq hg hp⟩
  · exact .inr h

/-- After a change the further steps do not matter. Up to then the graph is the one of the start. -/
theorem step (h : Reported g c₁ g₁ P) (hr : Retains g₁ g₂)
    (hstep : g₁ = g → P → Reported g c g₂ Q) : Reported g (c₁ || c) g₂ Q := by
  rcases h with ⟨rfl, hg, hp⟩ | ⟨rfl, hl⟩
  · exact hstep hg hp
  · exact .learns (hl.retains hr)

end Reported

/-- Contents are nodes of the graph, and nothing waits to be merged. -/
structure Tabled (g : Graph) : Prop where
  target_has : ∀ n c, g.target? n = some c → g.Has c
  pending : g.pending = []

theorem Settled.tabled (h : Settled g) : Tabled g := ⟨h.target_has, h.pending⟩

/-- The live nodes are not about to be merged, and point to live nodes. -/
structure Orderly (g : Graph) : Prop extends Tabled g where
  root : ∀ n, g.Live n → (g.node n).mergeTo = none
  target_live : ∀ n c, g.Live n → g.target? n = some c → g.Live c

/-- A graph that passes the checks is orderly. -/
theorem Tabled.orderly (h : Tabled g) (hv : g.valid = true) (hcheck : g.check false = .ok ()) :
    Orderly g := by
  have hnode (n : NodeId) (hn : g.Live n) :=
    (checkNode_ok.mp (((check_ok hv).mp hcheck).1 n hn.1)).2 hn.2
  refine ⟨h, fun n hn => (hnode n hn).1, fun n c hn hc => ⟨h.target_has n c hc, ?_⟩⟩
  exact (checkPointsTo_ok.mp (hnode n hn).2.1).2.1 c hc

namespace Orderly

variable (h : Orderly g)
include h

variable (hn : g.Live n)
include hn

theorem representative : g.representative n = n :=
  representative_of_root (h.root n hn)

theorem not_gone : ¬ g.Gone n := by
  intro hgone
  rw [Gone, h.root n hn] at hgone
  cases hgone

theorem content (hc : g.content? n = some c) : g.Live c := by
  rw [content?_eq, Option.map_eq_some_iff] at hc
  obtain ⟨t, ht, rfl⟩ := hc
  have hlive := h.target_live n t hn ht
  rwa [h.representative hlive]

/-- Scheduling two different nodes is new. -/
theorem schedule (hm : g.Live m) (hne : n ≠ m) : Learns g (g.schedule n m) := by
  refine ⟨schedule_retains g n m, .merge n, ?_, h.not_gone hn⟩
  have hreps : g.representative n ≠ g.representative m := by
    rwa [h.representative hn, h.representative hm]
  rw [schedule_of_ne hreps, h.representative hn]
  have hhas : (g.inheritFlags n (g.representative m)).Has n := (has_modify _).mpr hn.1
  show ((((g.inheritFlags n (g.representative m)).modify n _).node n).mergeTo).isSome
  rw [node_modify_self hhas]
  rfl

/-- So is raising a state that was smaller. -/
theorem raise (s : EscapeState) : Reported g (g.raise n s).2 (g.raise n s).1 True := by
  cases hc : (g.raise n s).2 with
  | false =>
    rw [raise_unchanged hc]
    exact .unchanged trivial
  | true =>
    have hlt : (g.node n).state < s := by
      have := of_decide_eq_true hc
      rwa [h.representative hn] at this
    refine .learns ⟨raise_retains g n s, .state n s, ?_, fun hle => ?_⟩
    · show s ≤ ((g.modify (g.representative n) _).node n).state
      rw [h.representative hn, node_modify_self hn.1]
      exact EscapeState.le_join_right _ _
    · exact absurd hlt (Nat.not_lt_of_le hle)

theorem raiseIf (c : Bool) : Reported g (Graph.raiseIf c g n).2 (Graph.raiseIf c g n).1 True := by
  unfold Graph.raiseIf
  split
  · exact h.raise hn _
  · exact .unchanged trivial

end Orderly

theorem Retains.has (h : Retains g g') (hn : g.Has n) : g'.Has n := h (.nodes (n.index + 1)) hn

theorem give_shows (hn : g.Has n) (hok : give c g n = .ok g') : g'.Shows (.content n) := by
  unfold give ensureEdge at hok
  obtain ⟨g₁, h₁, hok⟩ := bind_ok.mp hok
  cases hok
  have hinfer : ∀ k n, Retains k (infer c k n) :=
    fun k n => (infer_redirects trivial k n (.all k)).retains
  refine Retains.foldl hinfer _ g₁ _ (.inl ?_)
  split at h₁
  · rename_i hset
    cases h₁
    exact hset
  · obtain ⟨g₂, h₂, h₁⟩ := bind_ok.mp h₁
    cases h₁
    obtain ⟨-, -, rfl⟩ := setEdge_ok.mp h₂
    rw [copyUsePoints_field Node.pointsTo, (assigns_linkEdge hn).pointsTo, if_pos rfl]
    rfl

/-- A content that is spread from a node of its own is a content of this node. -/
theorem spread_shows (hn : g.Has n) (hok : g.spread n c true = .ok g') : g'.Shows (.content n) := by
  obtain ⟨g₁, h₁, h₂⟩ := bind_ok.mp hok
  refine Retains.foldlM (fun g m g' hok => ?_) h₂ _ ?_
  · split at hok
    · cases hok
      exact .refl g
    · exact give_retains hok
  · -- the node itself is the last one to get it
    rw [if_pos rfl, List.reverse_cons, List.foldlM_append] at h₁
    obtain ⟨g₂, h₀, h₁⟩ := bind_ok.mp h₁
    obtain ⟨g₃, hgive, h₁⟩ := bind_ok.mp h₁
    cases h₁
    exact give_shows ((Retains.foldlM (fun _ _ _ => give_retains) h₀).has hn) hgive

/-! ### Splices -/

/-- The map leads to live nodes. -/
def Standing (g : Graph) (M : NodeMap) : Prop := ∀ e ∈ M.pairs.entries, g.Live e.2

theorem Standing.get? (hM : Standing g M) (h : Orderly g)
    (hd : M.get? g n = some m) : g.Live m := by
  obtain ⟨e, he, rfl⟩ := Option.map_eq_some_iff.mp hd
  have hlive := hM (n, e) (AssocMap.mem_of_lookup he)
  rwa [h.representative hlive]

theorem Standing.add (hM : Standing g M) (hm : g.Live m) : Standing g (M.add n m) := by
  intro e he
  rcases NodeMap.mem_add he with he | ⟨rfl, -⟩
  · exact hM e he
  · exact hm

/-- A content that is still to come is not shown. -/
theorem not_shows_content (hn : ¬ g.Gone n) (hc : g.content? n = none) :
    ¬ g.Shows (.content n) := by
  rw [content?_eq, Option.map_eq_none_iff] at hc
  rintro (hset | hgone)
  · rw [isSet_eq, hc] at hset
    exact nomatch hset
  · exact hn hgone

namespace Orderly

variable (h : Orderly g)
include h

/-- A defer edge is reported if it, or the merge that it asks for, is new. -/
theorem deferTracked (hn : g.Live n) (hm : g.Live m)
    (hok : g.deferTracked n m = .ok (g', c, changed)) : Reported g changed g' (c = n) := by
  rcases deferTracked_ok hok with ⟨-, rfl, rfl, rfl⟩ | ⟨hne, hnew, -, -, -, g₁, g₂, merged, added,
    h₁, h₂, h₃, rfl⟩
  · exact .unchanged rfl
  · have hlast := shareContent_retains h₃
    rcases mergeContents_cases h₁ with ⟨rfl, rfl⟩ | ⟨a, b, ha, hb, hab, hs, rfl⟩
    · rw [h.representative hn, h.representative hm] at h₂
      rcases (addDefer_cases h₂).2 with ⟨-, -, heq | hold⟩ | ⟨rfl, rfl, -, -⟩
      · exact absurd heq hne
      · exact absurd hold hnew
      · refine .learns (Learns.retains ⟨addDefer_retains h₂, .defer n m, .inl ?_, ?_⟩ hlast)
        · rw [Defers, (addsDefer_linkDefer hn.1).defersTo, if_pos rfl]
          exact List.mem_append_right _ List.mem_cons_self
        · rintro (hold | hgone | hgone)
          · exact hnew hold
          · exact h.not_gone hn hgone
          · exact h.not_gone hm hgone
    · have hlearn := h.schedule (h.target_live n a hn ha) (h.target_live m b hm hb) hab
      exact .learns (hlearn.retains (((settle_retains hs).trans (addDefer_retains h₂)).trans hlast))

/-- What is done for the content of a node that was not raised. -/
theorem carry (hdst : g.Live dst) (hM : Standing g M)
    (hc : Carry source src dst M g false g' M' changed) :
    Reported g changed g' (Standing g M') := by
  cases hc with
  | stop _ => exact .unchanged hM
  | adopt _ _ hd => exact .unchanged (hM.add (h.content hdst hd))
  | create _ _ _ hcreate =>
    refine .learns (Learns.retains ⟨.addNode g _, .nodes (g.size + 1), ?_, Nat.not_succ_le_self _⟩
      (createContent_retains hcreate))
    simp [Shows]
  | same _ _ => exact .unchanged hM
  | merge _ hd hd' hne =>
    have hlive := hM.get? h (NodeMap.get?_of_resolve? hd)
    exact .learns (h.schedule (h.content hdst hd') hlive hne)
  | give _ _ hnone hgive =>
    exact .learns ⟨spread_retains hgive, .content dst, spread_shows hdst.1 hgive,
      not_shows_content (h.not_gone hdst) hnone⟩

theorem spliceContent (hdst : g.Live dst) (hM : Standing g M)
    (hok : spliceContent source src dst g M = .ok (g', M', changed)) :
    Reported g changed g' (Standing g M') := by
  rw [spliceContent_eq] at hok
  have hcarry := carryContent_ok hok
  rcases h.raiseIf hdst (decide ((source.node src).state = .globalEscaping)) with
    ⟨hb, hg, -⟩ | ⟨hb, hlearn⟩
  · rw [hb, hg] at hcarry
    exact h.carry hdst hM hcarry
  · rw [hb] at hcarry
    have hchanged : changed = true := by cases hcarry <;> rfl
    rw [hchanged]
    exact .learns (hlearn.retains (carry_retains hcarry))

theorem spliceContents (bound i : Nat) (g₁ : Graph) (M₁ : NodeMap) (c₁ : Bool) {g' : Graph}
    {M' : NodeMap} {changed : Bool}
    (hok : spliceContents source bound i g₁ M₁ c₁ = .ok (g', M', changed))
    (hg : Reported g c₁ g₁ (Standing g M₁)) : Reported g changed g' (Standing g M') := by
  induction bound generalizing i g₁ M₁ c₁ g' M' changed with
  | zero =>
    cases hok
    exact hg
  | succ bound ih =>
    rcases spliceContents_succ_ok hok with ⟨-, rfl, rfl, rfl⟩ |
      ⟨src, dst, g₂, M₂, c₂, hentry, -, h₂, hok⟩
    · exact hg
    · refine ih (i + 1) g₂ M₂ (c₁ || c₂) hok (hg.step (spliceContent_retains h₂) fun heq hM => ?_)
      subst heq
      have hlive := hM (src, dst) (List.mem_of_getElem? hentry)
      rw [h.representative hlive] at h₂
      exact h.spliceContent hlive hM h₂

theorem spliceDefer {acc acc' : Graph × NodeId × Bool} (hok : spliceDefer source M acc n = .ok acc')
    (hacc : Reported g acc.2.2 acc.1 (g.Live acc.2.1 ∧ Standing g M)) :
    Reported g acc'.2.2 acc'.1 (g.Live acc'.2.1 ∧ Standing g M) := by
  have hretains := spliceDefer_retains hok
  obtain ⟨g₁, dst, c₁⟩ := acc
  dsimp only at hacc hretains
  cases spliceDefer_ok hok with
  | link hd h₂ =>
    refine hacc.step hretains fun heq hp => ?_
    subst heq
    refine (h.deferTracked hp.1 (hp.2.get? h hd) h₂).imp fun _ hk => ?_
    rw [hk]
    exact hp
  | raise _ _ =>
    refine hacc.step hretains fun heq hp => ?_
    subst heq
    exact (h.raise hp.1 _).imp fun _ _ => hp
  | skip _ _ => exact hacc

theorem spliceDefers {acc acc' : Graph × Bool} (hok : spliceDefers source M acc src = .ok acc')
    (hacc : Reported g acc.2 acc.1 (Standing g M)) : Reported g acc'.2 acc'.1 (Standing g M) := by
  rcases spliceDefers_ok hok with ⟨-, rfl⟩ | ⟨dst, g₂, k, c₂, hdst, h₂, rfl⟩
  · exact hacc
  · have hstart : Reported g acc.2 acc.1 (g.Live dst ∧ Standing g M) := by
      refine hacc.imp fun heq hM => ⟨?_, hM⟩
      rw [heq] at hdst
      exact hM.get? h hdst
    have hend := foldlM_of_ok (P := fun _ (acc : Graph × NodeId × Bool) =>
      Reported g acc.2.2 acc.1 (g.Live acc.2.1 ∧ Standing g M))
      (fun _ _ _ _ _ _ hacc hok => h.spliceDefer hok hacc) hstart h₂
    exact hend.imp fun _ hp => hp.2

/-- Nothing is reported by a splice that leaves the graph alone. -/
theorem splice (hM : Standing g M) (hok : g.splice source M = .ok (g', M', changed)) :
    Reported g changed g' True := by
  obtain ⟨g₁, c₁, g₂, h₁, h₂, h₃⟩ := splice_ok hok
  have hg₁ := h.spliceContents _ _ _ _ _ h₁ (.unchanged hM)
  have hg₂ : Reported g c₁ g₂ (Standing g M') := by
    rw [← Bool.or_false c₁]
    refine hg₁.step (settle_retains h₂) fun heq hM' => ?_
    rw [heq, settle_of_nil h.pending] at h₂
    cases h₂
    exact .unchanged hM'
  have hend := foldlM_of_ok (P := fun _ (acc : Graph × Bool) => Reported g acc.2 acc.1
    (Standing g M')) (fun _ _ _ _ _ _ hacc hok => h.spliceDefers hok hacc) hg₂ h₃
  exact hend.imp fun _ _ => trivial

end Orderly

/-! ### What can be seen of a change -/

/-- The graph up to the values that nodes represent and their use points: the nodes with their
kinds, flags and states, where they point and defer to, who points and defers to them, and what they
are merged into. -/
def outline (g : Graph) : Array Node :=
  g.nodes.map fun x => { x with value := none, usePoints := {} }

/-- An outline shows everything. -/
theorem Retains.of_outline (h : g'.outline = g.outline) : Retains g g' := by
  have hnode (k : Graph) (n : NodeId) :
      k.outline.getD n.index {} = { k.node n with value := none, usePoints := {} } := by
    simp only [outline, node, Array.getD_eq_getD_getElem?, Array.getElem?_map]
    cases k.nodes[n.index]? <;> rfl
  have hsize : g'.size = g.size := by
    have := congrArg Array.size h
    rwa [outline, outline, Array.size_map, Array.size_map] at this
  refine of_within (Nat.le_of_eq hsize.symm) fun n => ?_
  have heq := hnode g' n
  rw [h, hnode g n] at heq
  exact .of_eq (congrArg Node.state heq).symm (congrArg Node.mergeTo heq).symm
    (congrArg Node.pointsTo heq).symm (congrArg Node.defersTo heq).symm

/-- **A splice reports exactly what it does.** Whatever is spliced into a graph that passes its
check, by a map to live nodes, no change is reported if and only if the graph is left as it was, and
a reported change can be seen in the outline: it is not one of use points only. -/
theorem splice_changed_iff (hcheck : g.check false = .ok ()) (htabled : Tabled g)
    (hmap : ∀ e ∈ M.pairs.entries, g.Live e.2) (hok : g.splice source M = .ok (g', M', changed)) :
    (changed = false ↔ g' = g) ∧ (changed = false ↔ g'.outline = g.outline) := by
  have hv : g.valid = true := splice_valid hok
  rcases (htabled.orderly hv hcheck).splice hmap hok with ⟨rfl, rfl, -⟩ | ⟨rfl, -, x, hx, hnx⟩
  · simp
  · have hseen : g'.outline ≠ g.outline := fun h => hnx (Retains.of_outline h.symm x hx)
    exact ⟨⟨nofun, fun h => absurd (congrArg outline h) hseen⟩, ⟨nofun, fun h => absurd h hseen⟩⟩

/-- The first value of the source is the value of the destination, and its return node is the
memory: their contents become one, which is reported. The same splice again finds nothing to do. -/
theorem splice_changed_iff_sharing : ∃ g source g' map' g'' map'',
    (full ⟨0⟩).run chainEdits = .ok g ∧ (full ⟨0⟩).run sharingEdits = .ok source ∧
    g.splice source (mapOf [(⟨0⟩, ⟨0⟩), (⟨2⟩, ⟨2⟩)]) = .ok (g', map', true) ∧
    g'.outline ≠ g.outline ∧ g'.splice source (mapOf [(⟨0⟩, ⟨0⟩)]) =
    .ok (g'', map'', false) ∧ g'' = g' := by
  have hrun : ∃ g, (full ⟨0⟩).run chainEdits = .ok g ∧ ∃ source,
    (full ⟨0⟩).run sharingEdits = .ok source ∧
      ∃ r, g.splice source (mapOf [(⟨0⟩, ⟨0⟩), (⟨2⟩, ⟨2⟩)]) = .ok r ∧ r.2.2 = true ∧
      ∃ r', r.1.splice source (mapOf [(⟨0⟩, ⟨0⟩)]) = .ok r' ∧ r'.2.2 = false ∧
      g.check false = .ok () ∧ (∀ e ∈ (mapOf [(⟨0⟩, ⟨0⟩), (⟨2⟩, ⟨2⟩)]).pairs.entries, g.Live e.2) ∧
      r.1.check false = .ok () ∧ ∀ e ∈ (mapOf [(⟨0⟩, ⟨0⟩)]).pairs.entries, r.1.Live e.2 := by
    decide +kernel
  obtain ⟨g, hg, source, hsource, ⟨g', map', changed⟩, hok, hchanged, ⟨g'', map'', changed'⟩, hok',
    hchanged', hcheck, hmap, hcheck', hmap'⟩ := hrun
  dsimp only at hchanged hchanged' hok' hcheck' hmap'
  subst hchanged hchanged'
  have hs : Settled g := (Settled.run (Q := fun _ => True) _ _ ⟨(IsStart.full ⟨0⟩).stable.toShape,
    (IsStart.full ⟨0⟩).stable.settled⟩ (sharingEdits_along.1.mono fun _ _ h => ⟨h.1, trivial⟩) hg).1
  have hs' : Settled g' := (splice_spec (P := anything) (B := anything) hs hok).1.settled
  have hfirst := splice_changed_iff hcheck hs.tabled hmap hok
  have hsecond := splice_changed_iff hcheck' hs'.tabled hmap' hok'
  exact ⟨g, source, g', map', g'', map'', hg, hsource, hok,
    fun h => Bool.noConfusion (hfirst.2.mpr h), hok', hsecond.1.mp rfl⟩

end Graph

end Escape
