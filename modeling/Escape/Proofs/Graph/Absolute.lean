import Escape.Proofs.Graph.Reports
import Escape.Proofs.Graph.Rooted
import Escape.Proofs.Graph.Values

/-!
# States that do not depend on the function

Being returned and being reachable from an argument are relative to a function, and mean nothing to
its callers. The graphs that callers see have no such states: their nodes start out local, merges
join states, and what is spliced in adds global escapes only. This holds of every operation on such
a graph, whatever its edges look like.

- `Absolute.settle`, `Absolute.splice`: merges and splices make no other states.
-/

namespace Escape

/-- A state that means the same to all functions. -/
def EscapeState.IsAbsolute (s : EscapeState) : Prop := s = .noEscape ∨ s = .globalEscaping

/-- A join is one of its parts. -/
theorem EscapeState.IsAbsolute.join {s t : EscapeState} (hs : s.IsAbsolute) (ht : t.IsAbsolute) :
    (s.join t).IsAbsolute := by
  unfold EscapeState.join
  split
  · exact ht
  · exact hs

namespace Graph

variable {g g' source : Graph} {n m c src dst : NodeId} {M M' : NodeMap} {changed : Bool}

/-- A summary, all states of which are absolute. -/
structure Absolute (g : Graph) : Prop where
  summary : g.summary = true
  states : ∀ n, (g.node n).state.IsAbsolute

namespace Absolute

/-- A graph without nodes has no states. -/
theorem of_empty (hs : g.summary = true) (hn : g.nodes = #[]) : Absolute g := by
  refine ⟨hs, fun n => .inl ?_⟩
  rw [node, hn]
  rfl

variable (h : Absolute g)
include h

/-- Values, queues and the like are no states. -/
theorem of_nodes (hs : g'.summary = g.summary) (hn : g'.nodes = g.nodes) : Absolute g' := by
  refine ⟨hs.trans h.summary, fun n => ?_⟩
  rw [node, hn, ← node]
  exact h.states n

theorem modify (n : NodeId) {f : Node → Node}
    (hf : ∀ x, x.state.IsAbsolute → (f x).state.IsAbsolute) : Absolute (g.modify n f) := by
  refine ⟨h.summary, fun m => ?_⟩
  rw [node_modify]
  split
  · exact hf _ (h.states _)
  · exact h.states m

theorem addNode {x : Node} (hx : x.state = .noEscape) : Absolute (g.addNode x).1 := by
  refine ⟨h.summary, fun n => ?_⟩
  rw [node_addNode]
  split
  · exact .inl hx
  · exact h.states n

/-- The top is the same to all functions. -/
theorem raise (n : NodeId) : Absolute (g.raise n .globalEscaping).1 :=
  h.modify _ fun _ hx => hx.join (.inr rfl)

/-- Edges are no states. -/
theorem rewires (hr : Rewires g g') : Absolute g' := by
  refine ⟨?_, fun n => ?_⟩
  · have hlabel := label_of_header hr.header
    exact (congrArg (fun l => l.2.1) hlabel).trans h.summary
  · rw [hr.state]
    exact h.states n

theorem spread {own : Bool} (hok : g.spread n c own = .ok g') : Absolute g' :=
  h.rewires (spread_redirects (.all g) trivial hok).toRewires

/-! ### Merges -/

theorem schedule (n m : NodeId) : Absolute (g.schedule n m) := by
  refine ⟨?_, fun k => ?_⟩
  · have hlabel := label_of_header (schedule_rest g n m).2.2
    exact (congrArg (fun l => l.2.1) hlabel).trans h.summary
  · rw [schedule_field Node.state]
    exact h.states k

theorem matchContents (src dst : NodeId) (content : Option NodeId) :
    Absolute (g.matchContents src dst content) := by
  unfold Graph.matchContents
  split
  · split
    · exact h
    · exact h.schedule _ _
  · exact h

/-- The remaining node takes over the state of the other one. -/
theorem bury (src dst : NodeId) : Absolute (g.bury src dst) := by
  have hraise : Absolute (g.modify dst (·.raise (g.node src).state)) :=
    h.modify dst fun _ hx => hx.join (h.states src)
  have huse := hraise.rewires (copyUsePoints_redirects (.all _) src dst).toRewires
  have hvalue : Absolute ((g.modify dst (·.raise (g.node src).state)).copyUsePoints src dst
      |>.moveValue src dst) := by
    unfold moveValue
    split
    · rename_i v _ _
      exact (huse.modify dst (f := fun x => { x with value := some v }) fun _ hx => hx).of_nodes
        rfl rfl
    · exact huse
  exact hvalue.modify src fun _ hx => hx

/-- **One merge.** The states of the two nodes are joined. -/
theorem absorb (hok : g.absorb src = .ok g') : Absolute g' := by
  obtain ⟨dst, content, k, k', -, hr, hr', rfl⟩ := absorb_phases hok
  have hmatch := (h.rewires hr.toRewires).matchContents src dst content
  exact (hmatch.rewires hr'.toRewires).bury src dst

theorem settle (hok : g.settle = .ok g') : Absolute g' := by
  refine settle_induct (P := Absolute) (fun k k' n rest hk _ h₁ => ?_) h hok
  have hpop : Absolute { k with pending := rest } := hk.of_nodes rfl rfl
  exact hpop.absorb h₁

theorem deferTracked (hok : g.deferTracked n m = .ok (g', c, changed)) : Absolute g' := by
  rcases deferTracked_ok hok with ⟨-, rfl, -⟩ | ⟨-, -, -, -, -, g₁, g₂, _, _, h₁, h₂, h₃, -⟩
  · exact h
  · have ha₁ : Absolute g₁ := by
      rcases mergeContents_cases h₁ with ⟨rfl, -⟩ | ⟨c, d, -, -, -, hs, -⟩
      · exact h
      · exact (h.schedule c d).settle hs
    have hdefer := addDefer_redirects (.all g₁) h₂
    have hshare := shareContent_redirects hdefer.points (fun _ _ => trivial) (fun _ _ => trivial) h₃
    exact ha₁.rewires (hdefer.trans hshare).toRewires

/-! ### Splices -/

theorem carry {raised : Bool} (hc : Carry source src dst M g raised g' M' changed) :
    Absolute g' := by
  cases hc with
  | stop _ => exact h
  | adopt _ _ _ => exact h
  | create _ _ _ hnew =>
    obtain ⟨g₁, h₁, hnew⟩ := bind_ok.mp hnew
    cases hnew
    exact (h.addNode rfl).spread h₁
  | same _ _ => exact h
  | merge _ _ _ _ => exact h.schedule _ _
  | give _ _ _ hgive => exact h.spread hgive

theorem spliceContent (hok : spliceContent source src dst g M = .ok (g', M', changed)) :
    Absolute g' := by
  rw [spliceContent_eq] at hok
  refine carry ?_ (carryContent_ok hok)
  unfold raiseIf
  split
  · exact h.raise dst
  · exact h

omit h in
/-- The loop over the mapped nodes. -/
theorem spliceContents (bound i : Nat) {g : Graph} {M : NodeMap} {changed : Bool} {g' : Graph}
    {M' : NodeMap} {changed' : Bool} (h : Absolute g)
    (hok : spliceContents source bound i g M changed = .ok (g', M', changed')) : Absolute g' := by
  induction bound generalizing i g M changed g' M' changed' with
  | zero =>
    cases hok
    exact h
  | succ bound ih =>
    rcases spliceContents_succ_ok hok with ⟨-, rfl, -⟩ | ⟨src, dst, g₁, M₁, c₁, -, -, h₁, hok⟩
    · exact h
    · exact ih (i + 1) (h.spliceContent h₁) hok

omit h in
theorem spliceDefer {acc acc' : Graph × NodeId × Bool} (h : Absolute acc.1)
    (hok : spliceDefer source M acc n = .ok acc') : Absolute acc'.1 := by
  cases spliceDefer_ok hok with
  | link _ h₁ => exact h.deferTracked h₁
  | raise _ _ => exact h.raise _
  | skip _ _ => exact h

omit h in
theorem spliceDefers {acc acc' : Graph × Bool} (h : Absolute acc.1)
    (hok : spliceDefers source M acc src = .ok acc') : Absolute acc'.1 := by
  rcases spliceDefers_ok hok with ⟨-, rfl⟩ | ⟨dst, g₁, k, c₁, -, h₁, rfl⟩
  · exact h
  · exact foldlM_of_ok (P := fun _ (acc : Graph × NodeId × Bool) => Absolute acc.1)
      (fun _ _ _ _ _ _ hacc hok => hacc.spliceDefer hok) h h₁

/-- **Splices.** Whatever the states of the source are, its global escapes alone are carried over.
-/
theorem splice (hok : g.splice source M = .ok (g', M', changed)) : Absolute g' := by
  obtain ⟨g₁, c₁, g₂, h₁, h₂, h₃⟩ := splice_ok hok
  have ha₂ := (h.spliceContents _ _ h₁).settle h₂
  exact foldlM_of_ok (P := fun _ (acc : Graph × Bool) => Absolute acc.1)
    (fun _ _ _ _ _ _ hacc hok => hacc.spliceDefers hok) ha₂ h₃

/-! ### Nodes of values -/

/-- The node of a parameter is local in a summary. -/
theorem enter (a : Scope.Anchor) : Absolute (g.enter a).1 := by
  unfold Graph.enter
  split
  · rename_i n _
    exact (h.modify (g.representative n) (f := Node.mergeFlags false a.referenceOnly)
      fun _ hx => hx).of_nodes rfl rfl
  · refine (h.addNode ?_).of_nodes rfl rfl
    simp [h.summary]

theorem nodeFor {s : Scope} {v : ValueId} {n? : Option NodeId}
    (hok : g.nodeFor s v = .ok (g', n?)) : Absolute g' := by
  rcases nodeFor_ok hok with ⟨-, rfl, -⟩ | ⟨a, -, -, rfl, -⟩
  · exact h
  · exact h.enter a

theorem ensureReturn : Absolute g.ensureReturn.1 := by
  unfold Graph.ensureReturn
  split
  · exact h
  · exact (h.addNode rfl).of_nodes rfl rfl

theorem invalidate : Absolute g.invalidate := of_empty h.summary rfl

end Absolute

end Graph

end Escape
