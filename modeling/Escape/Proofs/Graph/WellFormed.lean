import Escape.Proofs.Graph.Checks

/-!
# Well-formed graphs

The rules that `Graph.check` enforces, stated as what they mean rather than as how they are looked
for. The check compares a node with its edges and their entries one at a time, and searches the web
of each node that points somewhere.

- `Graph.mem_web_iff`: the search of a web finds everything that is connected by defer edges.
- `Graph.check_ok_iff_wellFormed`: **the check accepts exactly the well-formed graphs.**
-/

namespace Escape.Graph

variable {g : Graph} {n m c d : NodeId}

/-- The structural rules of a graph in which no merge is pending. -/
structure WellFormed (g : Graph) : Prop where
  /-- A tombstone is a content that leads on to another node and is linked to nothing. -/
  tombstone : ∀ n, g.isLive n = false → (g.node n).kind = .content ∧ (g.node n).mergeTo.isSome ∧
    (g.node n).pointsTo = .none ∧ (g.node n).defersTo = [] ∧ (g.node n).preds = [] ∧
    (g.node n).usePoints.isEmpty = true
  /-- Nothing waits to be merged. -/
  unscheduled : ∀ n, g.isLive n = true → (g.node n).mergeTo = none
  target_live : ∀ n c, g.target? n = some c → g.isLive c = true
  defer_live : ∀ n d, g.Defers n d → g.isLive d = true
  defer_irrefl : ∀ n, ¬ g.Defers n n
  edge_content : ∀ n c, (g.node n).pointsTo = .edge c → (g.node c).kind = .content
  /-- Edges are listed at their targets, and nothing else is. -/
  edge_listed : ∀ n c, (g.node n).pointsTo = .edge c ↔ ⟨.pointsTo, n⟩ ∈ (g.node c).preds
  defer_listed : ∀ n d, g.Defers n d ↔ ⟨.defer, n⟩ ∈ (g.node d).preds
  interior : ∀ n, g.isLive n = true → (g.node n).interior = true → (g.target? n).isSome
  /-- A content that is inferred comes from somewhere in the web. -/
  inferred : ∀ n c, (g.node n).pointsTo = .inferred c → ∃ m, g.Joined n m
  /-- Nodes that are connected by defer edges, in either direction, agree on their content. -/
  agree : ∀ n m c d, ReflTransGen g.Joined n m → g.target? n = some c → g.target? m = some d → c = d

theorem isLive_eq_true : g.isLive n = true ↔ (g.node n).merged = false := by
  rw [isLive, Bool.not_eq_true']

theorem isLive_eq_false : g.isLive n = false ↔ (g.node n).merged = true := by
  rw [isLive, Bool.not_eq_false']

/-! ### Webs -/

/-- Where entries and defer edges agree, the neighbours of a node are what is joined to it. -/
theorem mem_webNeighbours (hlisted : ∀ n d, g.Defers n d ↔ ⟨.defer, n⟩ ∈ (g.node d).preds) :
    m ∈ g.webNeighbours n ↔ g.Joined n m := by
  rw [webNeighbours, List.mem_append, mem_deferPreds, ← hlisted]
  exact Iff.rfl

/-- **The search of a web is complete**: the table bounds the nodes that are joined to others. -/
theorem mem_web_iff (hlisted : ∀ n d, g.Defers n d ↔ ⟨.defer, n⟩ ∈ (g.node d).preds)
    (hn : g.Has n) : m ∈ closure g.webNeighbours g.size n ↔ ReflTransGen g.Joined n m := by
  have hjoined : (fun a b => b ∈ g.webNeighbours a) = g.Joined :=
    funext fun a => funext fun b => propext (mem_webNeighbours hlisted)
  have hhas : ∀ b ∈ closure g.webNeighbours g.size n, b ∈ g.nodeIds := by
    refine closure_induct (mem_nodeIds.mpr hn) fun a b _ hb => mem_nodeIds.mpr ?_
    rcases (mem_webNeighbours hlisted).mp hb with hd | hd
    · exact has_of_pred ((hlisted a b).mp hd)
    · exact hd.has
  rw [mem_closure_iff hhas (Nat.le_of_eq g.length_nodeIds), hjoined]

/-! ### From the check to the rules -/

/-- What the check of all nodes says of one of them; a node outside of the table passes. -/
theorem checkNode_of_check (h : ∀ n, g.Has n → g.checkNode false n = .ok ()) (n : NodeId) :
    g.checkNode false n = .ok () := by
  by_cases hn : g.Has n
  · exact h n hn
  · have hbare := node_of_not_has hn
    refine checkNode_ok.mpr ⟨fun hm => ?_, fun _ => ⟨by rw [hbare], ?_, ?_, ?_⟩⟩
    · rw [hbare] at hm
      cases hm
    · rw [checkPointsTo_ok, target?, hbare]
      refine ⟨fun _ => rfl, fun c hc => ?_, fun c hc => ?_⟩ <;> cases hc
    · rw [hbare]
      exact fun _ hd => absurd hd List.not_mem_nil
    · rw [hbare]
      exact fun _ hp => absurd hp List.not_mem_nil

section

variable (h : ∀ n, g.checkNode false n = .ok ())
include h

/-- A tombstone that passes the check has no edges. -/
theorem live_of_check
    (hn : g.target? n ≠ none ∨ (g.node n).defersTo ≠ [] ∨ (g.node n).preds ≠ []) :
    (g.node n).merged = false := by
  cases hm : (g.node n).merged with
  | false => rfl
  | true =>
    obtain ⟨-, hset, hdefers, hpreds, -⟩ := checkTombstone_ok.mp ((checkNode_ok.mp (h n)).1 hm)
    rcases hn with hn | hn | hn
    · rw [isSet_eq, Option.isSome_eq_false_iff, Option.isNone_iff_eq_none] at hset
      exact absurd hset hn
    · exact absurd hdefers hn
    · exact absurd hpreds hn

/-- The entries at a node are those of its edges, if all nodes pass the check. -/
theorem listed_of_check :
    (∀ n c, (g.node n).pointsTo = .edge c ↔ ⟨.pointsTo, n⟩ ∈ (g.node c).preds) ∧
      ∀ n d, g.Defers n d ↔ ⟨.defer, n⟩ ∈ (g.node d).preds := by
  have hlive := fun n hn => (checkNode_ok.mp (h n)).2 (live_of_check h hn)
  refine ⟨fun n c => ⟨fun he => ?_, fun hp => ?_⟩, fun n d => ⟨fun hd => ?_, fun hp => ?_⟩⟩
  · have hset : g.target? n ≠ none := by
      rw [target?_of_edge he]
      exact nofun
    exact ((checkPointsTo_ok.mp (hlive n (.inl hset)).2.1).2.2 c he).2
  · exact checkPred_ok.mp ((hlive c (.inr (.inr (List.ne_nil_of_mem hp)))).2.2.2 _ hp)
  · exact (checkDefer_ok.mp ((hlive n (.inr (.inl (List.ne_nil_of_mem hd)))).2.2.1 d hd)).2.2
  · exact checkPred_ok.mp ((hlive d (.inr (.inr (List.ne_nil_of_mem hp)))).2.2.2 _ hp)

/-- Nodes that pass the check point to nodes that represent themselves. -/
theorem content?_of_check (n : NodeId) : g.content? n = g.target? n := by
  rw [content?_eq]
  cases hc : g.target? n with
  | none => rfl
  | some c =>
    have hlive : (g.node n).merged = false := live_of_check h (.inl (by rw [hc]; exact nofun))
    have hc' := (checkPointsTo_ok.mp ((checkNode_ok.mp (h n)).2 hlive).2.1).2.1 c hc
    rw [Option.map_some, representative_of_root ((checkNode_ok.mp (h c)).2 hc').1]

/-- A web that passes the check agrees on the content of the node that it was searched from. -/
theorem web_of_check (hweb : g.checkWeb n = .ok ())
    (hc : g.target? n = some c) : (g.HasEdge n ∨ g.webNeighbours n ≠ []) ∧
      ∀ m, ReflTransGen g.Joined n m → ∀ d, g.target? m = some d → d = c := by
  obtain ⟨hedge, hagree⟩ := checkWeb_ok.mp hweb c hc
  refine ⟨hedge, fun m hm d hd => ?_⟩
  have hrep : some (g.representative c) = some c := by
    rw [← hc, ← content?_of_check h, content?_eq, hc, Option.map_some]
  rw [← Option.some.inj hrep]
  exact hagree m ((mem_web_iff (listed_of_check h).2 (has_of_target? hc)).mpr hm) d
    (by rw [content?_of_check h, hd])

end

theorem wellFormed_of_check (hv : g.valid = true) (hcheck : g.check false = .ok ()) :
    g.WellFormed := by
  obtain ⟨hnodes, hwebs⟩ := (check_ok hv).mp hcheck
  have h := checkNode_of_check hnodes
  have hpoints : ∀ {n}, g.target? n ≠ none → (g.node n).merged = false :=
    fun hn => live_of_check h (.inl hn)
  have hdefers : ∀ {n d}, g.Defers n d → (g.node n).merged = false := fun hd =>
    live_of_check h (.inr (.inl (List.ne_nil_of_mem hd)))
  have hlive := fun n hn => (checkNode_ok.mp (h n)).2 hn
  have hset : ∀ {n c}, g.target? n = some c → g.target? n ≠ none :=
    fun hc => by rw [hc]; exact nofun
  obtain ⟨hedge, hdefer⟩ := listed_of_check h
  have hweb := fun {n c} (hc : g.target? n = some c) =>
    web_of_check h (hwebs n (has_of_target? hc) (hpoints (hset hc))) hc
  exact {
    tombstone := fun n hn => by
      obtain ⟨hlink, hset, hd, hp, hu, hk⟩ :=
        checkTombstone_ok.mp ((checkNode_ok.mp (h n)).1 (isLive_eq_false.mp hn))
      rw [isSet_eq, Option.isSome_eq_false_iff, Option.isNone_iff_eq_none] at hset
      exact ⟨of_decide_eq_true hk, hlink, target?_eq_none_iff.mp hset, hd, hp, hu⟩
    unscheduled := fun n hn => (hlive n (isLive_eq_true.mp hn)).1
    target_live := fun n c hc =>
      isLive_eq_true.mpr ((checkPointsTo_ok.mp (hlive n (hpoints (hset hc))).2.1).2.1 c hc)
    defer_live := fun n d hd =>
      isLive_eq_true.mpr (checkDefer_ok.mp ((hlive n (hdefers hd)).2.2.1 d hd)).2.1
    defer_irrefl := fun n hd =>
      (checkDefer_ok.mp ((hlive n (hdefers hd)).2.2.1 n hd)).1 rfl
    edge_content := fun n c hc => of_decide_eq_true
      ((checkPointsTo_ok.mp (hlive n (hpoints (hset (target?_of_edge hc)))).2.1).2.2 c hc).1
    edge_listed := hedge
    defer_listed := hdefer
    interior := fun n hn hi => by
      by_contra hnone
      have hfree := (checkPointsTo_ok.mp (hlive n (isLive_eq_true.mp hn)).2.1).1
        (Option.not_isSome_iff_eq_none.mp hnone)
      rw [hi] at hfree
      cases hfree
    inferred := fun n c hc => by
      rcases (hweb (target?_of_inferred hc)).1 with he | hne
      · obtain ⟨d, hd⟩ := hasEdge_iff.mp he
        rw [hc] at hd
        cases hd
      · obtain ⟨m, hm⟩ := List.exists_mem_of_ne_nil _ hne
        exact ⟨m, (mem_webNeighbours hdefer).mp hm⟩
    agree := fun n m c d hpath hc hd => ((hweb hc).2 m hpath d hd).symm }

/-! ### From the rules to the check -/

namespace WellFormed

theorem content? (h : g.WellFormed) (n : NodeId) : g.content? n = g.target? n := by
  rw [content?_eq]
  cases hc : g.target? n with
  | none => rfl
  | some c => rw [Option.map_some, representative_of_root (h.unscheduled c (h.target_live n c hc))]

theorem checkNode (h : g.WellFormed) (n : NodeId) : g.checkNode false n = .ok () := by
  refine checkNode_ok.mpr ⟨fun hm => ?_,
    fun hm => ⟨h.unscheduled n (isLive_eq_true.mpr hm), ?_, fun d hd => ?_,
    fun p hp => checkPred_ok.mpr ?_⟩⟩
  · obtain ⟨hk, hlink, hnone, hd, hp, hu⟩ := h.tombstone n (isLive_eq_false.mpr hm)
    exact checkTombstone_ok.mpr ⟨hlink, by rw [hnone]; rfl, hd, hp, hu, decide_eq_true hk⟩
  · refine checkPointsTo_ok.mpr ⟨fun hnone => ?_,
      fun c hc => isLive_eq_true.mp (h.target_live n c hc),
      fun c hc => ⟨decide_eq_true (h.edge_content n c hc), (h.edge_listed n c).mp hc⟩⟩
    cases hi : (g.node n).interior with
    | false => rfl
    | true =>
      have hsome := h.interior n (isLive_eq_true.mpr hm) hi
      rw [hnone] at hsome
      cases hsome
  · refine checkDefer_ok.mpr ⟨?_, isLive_eq_true.mp (h.defer_live n d hd),
      (h.defer_listed n d).mp hd⟩
    rintro rfl
    exact h.defer_irrefl d hd
  · obtain ⟨kind, a⟩ := p
    cases kind with
    | pointsTo => exact (h.edge_listed a n).mpr hp
    | defer => exact (h.defer_listed a n).mpr hp

theorem checkWeb (h : g.WellFormed) (hn : g.Has n) : g.checkWeb n = .ok () := by
  refine checkWeb_ok.mpr fun c hc => ⟨?_, fun m hm d hd => ?_⟩
  · rcases target?_eq_some_iff.mp hc with hi | he
    · obtain ⟨m, hm⟩ := h.inferred n c hi
      exact .inr (List.ne_nil_of_mem ((mem_webNeighbours h.defer_listed).mpr hm))
    · exact .inl (hasEdge_iff.mpr ⟨c, he⟩)
  · rw [h.content?] at hd
    rw [representative_of_root (h.unscheduled c (h.target_live n c hc))]
    exact (h.agree n m c d ((mem_web_iff h.defer_listed hn).mp hm) hc hd).symm

end WellFormed

/-- **The check is exact.** It accepts a graph if and only if the graph was given up or is well
formed. -/
theorem check_ok_iff_wellFormed (g : Graph) :
    g.check false = .ok () ↔ (g.valid = true → g.WellFormed) := by
  refine ⟨fun hcheck hv => wellFormed_of_check hv hcheck, fun h => ?_⟩
  by_cases hv : g.valid = true
  · exact (check_ok hv).mpr ⟨fun n _ => (h hv).checkNode n, fun n hn _ => (h hv).checkWeb hn⟩
  · unfold check
    rw [if_pos (by simpa using hv)]

end Escape.Graph
