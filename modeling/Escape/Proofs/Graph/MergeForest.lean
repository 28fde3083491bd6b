import Escape.Proofs.Graph.Runs
import Escape.Proofs.Graph.Termination

/-!
# The forest of merges

Graphs are built by making nodes and contents, adding defer edges, and scheduling and carrying out
merges, in any order and also while other merges are pending. The nodes that these operations are
asked for are any nodes of the graph, tombstones included.

- `Forested.change`: every operation keeps it that way, and nodes with one representative keep it.
- `Graph.merge_links_forest`: **merge links are a forest, and merging comes to an end.**
-/

namespace Escape.Graph

variable {g g' g'' : Graph} {n m a b c s d src dst : NodeId} {queue : List NodeId}

/-- An operation that makes nodes and edges or has to do with merges. -/
inductive Change : Graph → Graph → Prop
  /-- The node of an anchor. -/
  | enter (g : Graph) (anchor : Scope.Anchor) : Change g (g.enter anchor).1
  /-- The node of the returned value. -/
  | enterReturn (g : Graph) : Change g g.ensureReturn.1
  /-- The content of a node. -/
  | content {g g' : Graph} {n c : NodeId} {interior referenceOnly : Bool} :
    g.ensureContent n interior referenceOnly = .ok (g', c) → Change g g'
  /-- A defer edge, with the merges that it asks for. -/
  | defer {g g' : Graph} {src dst n : NodeId} : g.defer src dst = .ok (g', n) → Change g g'
  /-- A merge of two contents that is to be carried out. -/
  | schedule {g : Graph} {a b : NodeId} : g.Has a → g.Has b → (g.node a).isContent →
    (g.node b).isContent → Change g (g.schedule a b)
  /-- All merges. -/
  | settle {g g' : Graph} : g.settle = .ok g' → Change g g'

/-! ### Contents and their links -/

/-- Merge links lead from all nodes to nodes of the table, and link contents only. Contents are all
that is pointed to. -/
structure Forested (g : Graph) (queue : List NodeId) : Prop extends Grounded g queue where
  rooted : ∀ n, g.Has n → g.Rooted n
  target_content : ∀ n c, g.target? n = some c → (g.node c).isContent
  link_content : ∀ n m, (g.node n).mergeTo = some m → (g.node n).isContent ∧ (g.node m).isContent

/-- A content that merge links come to an end from. -/
def ContentRoot (g : Graph) (c : NodeId) : Prop := g.Rooted c ∧ (g.node c).isContent

/-- The graph `g'` is forested, no nodes of `g` are taken apart, and contents are contents. -/
structure Develops (g g' : Graph) : Prop where
  forested : Forested g' g'.pending
  coarsens : Coarsens g g'
  content : ∀ n, (g.node n).isContent → (g'.node n).isContent

theorem Develops.trans (h : Develops g g') (h' : Develops g' g'') : Develops g g'' :=
  ⟨h'.forested, h.coarsens.trans h'.coarsens, fun n hn => h'.content n (h.content n hn)⟩

namespace Forested

section

variable (h : Forested g queue)
include h

theorem contentRoot (hc : (g.node c).isContent) : g.ContentRoot c :=
  ⟨h.rooted c (has_of_isContent hc), hc⟩

/-- A content is represented by a content. -/
theorem content_representative (hc : g.ContentRoot c) : g.ContentRoot (g.representative c) :=
  ⟨hc.1.representative, hc.1.induct (P := fun n => (g.node n).isContent)
    (fun n m hm _ => (h.link_content n m hm).2) hc.2⟩

theorem contentFirm : Firm g.ContentRoot g where
  points n c hc := h.contentRoot (h.target_content n c hc)
  closed _ := h.content_representative
  rooted _ hc := hc.1

/-- A later graph is forested if targets and links are those of contents. -/
theorem later (hg : Grounded g' g'.pending) (hc : Coarsens g g')
    (hcontent : ∀ n, (g.node n).isContent → (g'.node n).isContent)
    (htarget : ∀ n c, g'.target? n = some c → (g.node c).isContent)
    (hlink : ∀ n m, (g'.node n).mergeTo = some m → (g.node n).isContent ∧ (g.node m).isContent) :
    Develops g g' := by
  refine ⟨⟨hg, fun n hn => ?_, fun n c ht => hcontent c (htarget n c ht), fun n m hm =>
    (hlink n m hm).imp (hcontent n) (hcontent m)⟩, hc, hcontent⟩
  by_cases hold : g.Has n
  · exact hc.rooted n (h.rooted n hold)
  · exact hc.rooted_new n hn hold

end

variable (h : Forested g g.pending)
include h

theorem refl : Develops g g :=
  ⟨h, (SameLinks.of_nodes rfl).coarsens, fun _ hn => hn⟩

/-- Nodes are added, and no edge is touched. -/
theorem sameEdges (he : SameEdges g g') (hp : g'.pending = g.pending) : Develops g g' := by
  refine h.later (hp ▸ h.toGrounded.sameEdges he) he.sameLinks.coarsens (fun n hn => ?_)
    (fun n c hc => ?_) fun n m hm => ?_
  · rwa [Node.isContent, he.kind n (has_of_isContent hn)]
  · exact h.target_content n c (by rwa [target?, he.pointsTo] at hc)
  · exact h.link_content n m (by rwa [he.mergeTo] at hm)

/-- Edges come to lead to other contents. -/
theorem redirects (hr : Redirects g.ContentRoot g g') : Develops g g' := by
  have hg : Grounded g' g'.pending := by
    rw [hr.pending]
    exact h.toGrounded.sameLinks hr.sameLinks fun n c hc => hr.sameLinks.rooted (hr.points n c hc).1
  refine h.later hg hr.sameLinks.coarsens (fun n hn => ?_) (fun n c hc => (hr.points n c hc).2)
    fun n m hm => ?_
  · rwa [hr.isContent]
  · exact h.link_content n m (by rwa [hr.mergeTo] at hm)

omit h in
/-- A new link is one of contents. -/
theorem enqueues (h : Forested g queue) (hg : Grounded g' g'.pending) (hsize : g'.size = g.size)
    (hkind : ∀ n, (g'.node n).kind = (g.node n).kind) (hp : PointsInto g.ContentRoot g')
    (hl : Enqueues g.ContentRoot g g') : Develops g g' := by
  refine h.later hg (hl.coarsens hsize) (fun n hn => ?_) (fun n c hc => (hp n c hc).2)
    fun n m hm => ?_
  · rwa [Node.isContent, hkind]
  · rcases hl with ⟨hsame, -⟩ | ⟨s, d, hs, hd, hl, -⟩
    · exact h.link_content n m (by rwa [hsame] at hm)
    · rw [hl.mergeTo] at hm
      split at hm
      · rename_i hn
        cases hm
        exact ⟨hn ▸ hs.2, hd.2⟩
      · exact h.link_content n m hm

theorem schedule (ha : g.ContentRoot a) (hb : g.ContentRoot b) : Develops g (g.schedule a b) := by
  have hr := schedule_readies h.contentFirm ha hb
  exact h.enqueues (h.toGrounded.schedule (R := fun _ => False) ha.1 hb.1).grounded hr.size hr.kind
    hr.firm.points hr.enqueues

/-! ### Merges -/

/-- The next node of the queue is merged. -/
theorem settle_step {rest : List NodeId} (hp : g.pending = n :: rest)
    (hok : { g with pending := rest }.absorb n = .ok g') : Develops g g' := by
  have hmem : n ∈ g.pending := hp ▸ List.mem_cons_self
  obtain ⟨d, hd⟩ := Option.isSome_iff_exists.mp ((h.waits n).mp hmem).2
  have hpop : SameEdges g { g with pending := rest } := .of_nodes rfl
  have h₀ : Forested { g with pending := rest } (n :: rest) :=
    ⟨hp ▸ h.toGrounded.sameEdges hpop, fun m hm => hpop.sameLinks.rooted (h.rooted m hm),
      h.target_content, h.link_content⟩
  obtain ⟨dst, -, -, -, -, ha⟩ := absorb_spec h₀.contentFirm
    (h₀.contentRoot (h.link_content n d hd).1) hok
  have hg := (h.toGrounded.settle_step (R := fun _ => False) hp hok).1
  have hd := h₀.enqueues hg.grounded ha.size ha.kind ha.points ha.enqueues
  exact ⟨hd.forested, hg.inherits.toCoarsens, hd.content⟩

theorem settle (hok : g.settle = .ok g') : Develops g g' :=
  settle_induct (P := Develops g)
    (fun _ _ _ _ hd hp h₁ => hd.trans (hd.forested.settle_step hp h₁)) h.refl hok

theorem defer (hok : g.defer src dst = .ok (g', n)) : Develops g g' := by
  obtain ⟨⟨g₀, k, changed⟩, h₀, hok⟩ := bind_ok.mp hok
  cases hok
  rcases deferTracked_ok h₀ with ⟨-, rfl, -⟩ | ⟨-, -, -, -, -, g₁, g₂, _, _, h₁, h₂, h₃, -⟩
  · exact h.refl
  · have hd₁ : Develops g g₁ := by
      rcases mergeContents_cases h₁ with ⟨rfl, -⟩ | ⟨c, d, hc, hd, -, hs, -⟩
      · exact h.refl
      · have hd := h.schedule (h.contentFirm.points _ _ hc) (h.contentFirm.points _ _ hd)
        exact hd.trans (hd.forested.settle hs)
    -- what was pointed to is a content after the merges
    have hcontent : ∀ n c, g.target? n = some c → g₁.ContentRoot c := fun n c hc =>
      hd₁.forested.contentRoot (hd₁.content c (h.target_content n c hc))
    have hdefer := addDefer_redirects hd₁.forested.contentFirm.points h₂
    have hshare := shareContent_redirects hdefer.points (hcontent src) (hcontent dst) h₃
    exact hd₁.trans (hd₁.forested.redirects (hdefer.trans hshare))

/-! ### Nodes and contents -/

theorem enter (anchor : Scope.Anchor) : Develops g (g.enter anchor).1 := by
  rcases enter_cases g anchor with ⟨n, f, -, rfl, e⟩ | ⟨x, -, hx, -, -, e⟩
  · rw [e]
    have hflags : SameEdges g (g.modify (g.representative n)
      (Node.mergeFlags false anchor.referenceOnly)) :=
      .of_links (size_modify g _ _) (node_modify_field Node.links (fun _ => by rfl) g _)
    exact h.sameEdges (hflags.trans (.of_nodes rfl)) rfl
  · rw [e]
    exact h.sameEdges ((SameEdges.addNode hx).trans (.mapValue _ _ _)) rfl

theorem ensureReturn : Develops g g.ensureReturn.1 := by
  rcases ensureReturn_cases g with ⟨n, -, e⟩ | ⟨x, -, hx, -, -, e⟩
  · rw [e]
    exact h.refl
  · rw [e]
    exact h.sameEdges ((SameEdges.addNode hx).trans (.of_nodes rfl)) rfl

theorem createContent {interior referenceOnly : Bool}
    (hok : g.createContent n interior referenceOnly = .ok (g', c)) : Develops g g' := by
  obtain ⟨g₁, h₁, hok⟩ := bind_ok.mp hok
  cases hok
  have hnew := h.sameEdges (.addNode (Node.fresh_content interior referenceOnly)) rfl
  have hcontent := hnew.forested.contentRoot
      (c := (g.addNode (freshContent interior referenceOnly)).2) (by
    rw [node_addNode, if_pos rfl]
    rfl)
  exact hnew.trans (hnew.forested.redirects
    (spread_redirects hnew.forested.contentFirm.points hcontent h₁))

theorem ensureContent {interior referenceOnly : Bool}
    (hok : g.ensureContent n interior referenceOnly = .ok (g', c)) : Develops g g' := by
  obtain ⟨_, -, hok⟩ := bind_ok.mp hok
  split at hok
  · cases hok
    exact h.sameEdges (.of_links (size_modify g _ _)
      (node_modify_field Node.links (fun _ => by rfl) g _)) rfl
  · obtain ⟨⟨g₁, c₁⟩, h₁, hok⟩ := bind_ok.mp hok
    cases hok
    -- a new content takes over the state and the use points of the node
    have hcreate := h.createContent h₁
    have hraise := hcreate.forested.sameEdges (modify_raises g₁ c (g₁.node n).state).sameEdges rfl
    have huse := hraise.forested.redirects
      (copyUsePoints_redirects hraise.forested.contentFirm.points n c)
    exact (hcreate.trans hraise).trans huse

/-- **Every operation** keeps a graph forested, and nodes that came together stay together. -/
theorem change (hc : Change g g') : Develops g g' := by
  cases hc with
  | enter anchor => exact h.enter anchor
  | enterReturn => exact h.ensureReturn
  | content hok => exact h.ensureContent hok
  | defer hok => exact h.defer hok
  | schedule _ _ ha hb => exact h.schedule (h.contentRoot ha) (h.contentRoot hb)
  | settle hok => exact h.settle hok

theorem changes (hc : ReflTransGen Change g g') : Develops g g' := by
  induction hc with
  | refl => exact h.refl
  | tail _ hstep ih => exact ih.trans (ih.forested.change hstep)

end Forested

/-- A graph without nodes has no links. -/
theorem IsStart.forested (h : IsStart g) : Forested g g.pending := by
  obtain ⟨owner, summary, rfl⟩ := h
  have hno : ∀ {P : Prop} n, Has { owner, summary } n → P :=
    fun n hn => absurd hn (Nat.not_lt_zero _)
  exact {
    points := fun n c hc => nomatch hc
    live := fun n hn => hno n hn.1
    tomb := fun n hn => nomatch hn
    nodup := .nil
    waits := fun n => ⟨nofun, fun hn => nomatch hn.2⟩
    rooted := fun n hn => hno n hn
    target_content := fun n c hc => nomatch hc
    link_content := fun n m hm => nomatch hm }

/-! ### Main statement -/

/-- What was scheduled to be merged has one representative, before the merge is carried out. -/
theorem representative_schedule (ha : g.Rooted a) (hb : g.Rooted b) :
    (g.schedule a b).representative a = (g.schedule a b).representative b := by
  by_cases heq : g.representative a = g.representative b
  · rwa [schedule_eq_self heq]
  · have hl := ha.links_schedule hb heq
    rw [(hl.rooted ha).2, (hl.rooted hb).2, if_pos rfl, if_neg (Ne.symm heq)]

/-- A tombstone leads to a content that is live. -/
theorem Forested.tombstone (h : Forested g queue) (hn : (g.node n).merged = true) :
    g.Live (g.representative n) ∧ (g.node (g.representative n)).kind = .content := by
  obtain ⟨m, hm⟩ := Option.isSome_iff_exists.mp (h.tomb n hn)
  have hcontent := h.contentRoot (h.link_content n m hm).1
  exact ⟨h.live_representative hcontent.1, of_decide_eq_true (h.content_representative hcontent).2⟩

/-- **Merge links are a forest, and merging comes to an end.** In every graph that changes lead to
from an empty one, whatever merges are pending, the links lead from each node to its representative,
which has none. Nodes that were scheduled to be merged have one representative in all later graphs.
Working off the queue until it is empty, the merges that come to it on the way included, has exactly
one outcome, which is the one that is computed; it takes each node off the queue at most once.
Unless it stops with a fault, nothing is pending then, and tombstones lead to live contents. -/
theorem merge_links_forest {start g : Graph} (hstart : IsStart start)
    (hreach : ReflTransGen Change start g) :
    (∀ n, g.Has n → g.Has (g.representative n) ∧ ∃ k, g.Leads k n (g.representative n)) ∧
    (∀ a b g', g.Has a → g.Has b → (g.node a).isContent → (g.node b).isContent →
      ReflTransGen Change (g.schedule a b) g' → g'.representative a = g'.representative b) ∧
    (∃ log, (∀ log' r, Settling g log' r ↔ log' = log ∧ r = g.settle) ∧ log.Nodup ∧
      ∀ n ∈ log, g.Live n) ∧
    ∀ g', g.settle = .ok g' → g'.pending = [] ∧ ∀ n, (g'.node n).merged = true →
      g'.Live (g'.representative n) ∧ (g'.node (g'.representative n)).kind = .content := by
  have h := (hstart.forested.changes hreach).forested
  refine ⟨fun n hn => ⟨(h.rooted n hn).has_representative, (h.rooted n hn).leads⟩,
    fun a b g' ha hb hca hcb hlater => ?_, ?_, fun g' hok => ?_⟩
  · have hd := h.schedule (h.contentRoot hca) (h.contentRoot hcb)
    have hd' := hd.forested.changes hlater
    exact hd'.coarsens.representative_eq (hd.coarsens.rooted a (h.rooted a ha))
      (hd.coarsens.rooted b (h.rooted b hb))
      (representative_schedule (h.rooted a ha) (h.rooted b hb))
  · obtain ⟨log, hlog, hnodup, hlive⟩ := h.toGrounded.settling (g.pending.length + g.size)
      (Nat.le_trans g.liveCount_le_size (Nat.le_add_left _ _))
    refine ⟨log, fun log' r => ⟨fun h' => h'.unique hlog, ?_⟩, hnodup, hlive⟩
    rintro ⟨rfl, rfl⟩
    exact hlog
  · exact ⟨(h.toGrounded.settle (R := fun _ => False) hok).2,
      fun n => (h.settle hok).forested.tombstone⟩

/-- Two values, their contents, and the contents of those. One pair of contents is to be merged,
which merges the other pair as well. -/
theorem merge_links_forest_nested : ∃ g g', ReflTransGen Change (full ⟨0⟩) g ∧ g.pending = [⟨2⟩] ∧
    g.representative ⟨2⟩ = g.representative ⟨3⟩ ∧ (∃ k, g.Leads k ⟨2⟩ (g.representative ⟨2⟩)) ∧
    (∃ log, Settling g log (.ok g') ∧ log.Nodup) ∧ g.settle = .ok g' ∧ g'.pending = [] ∧
    (g'.node ⟨4⟩).merged = true ∧ g'.Live (g'.representative ⟨4⟩) := by
  have hrun : ∃ r₁, (((full ⟨0⟩).enter ⟨⟨0⟩, false, false⟩).1.enter
    ⟨⟨1⟩, false, false⟩).1.ensureContent ⟨0⟩
        false false = .ok r₁ ∧ ∃ r₂, r₁.1.ensureContent ⟨1⟩ false false = .ok r₂ ∧
      ∃ r₃, r₂.1.ensureContent ⟨2⟩ false false = .ok r₃ ∧ ∃ r₄,
        r₃.1.ensureContent ⟨3⟩ false false = .ok r₄ ∧
      r₄.1.Has ⟨2⟩ ∧ r₄.1.Has ⟨3⟩ ∧ (r₄.1.node ⟨2⟩).isContent ∧ (r₄.1.node ⟨3⟩).isContent ∧
      (r₄.1.schedule ⟨2⟩ ⟨3⟩).pending = [⟨2⟩] ∧
      ∃ g', (r₄.1.schedule ⟨2⟩ ⟨3⟩).settle = .ok g' ∧ (g'.node ⟨4⟩).merged = true := by
    decide +kernel
  obtain ⟨r₁, h₁, r₂, h₂, r₃, h₃, r₄, h₄, hhas, hhas', hcontent, hcontent', hpending, g', hsettle,
    hmerged⟩ := hrun
  have hreach : ReflTransGen Change (full ⟨0⟩) r₄.1 :=
    (((((Relation.ReflTransGen.single (.enter _ _)).tail (.enter _ _)).tail (.content h₁)).tail
      (.content h₂)).tail (.content h₃)).tail (.content h₄)
  have hreach' := hreach.tail (.schedule hhas hhas' hcontent hcontent')
  obtain ⟨-, htogether, -, -⟩ := merge_links_forest (.full ⟨0⟩) hreach
  obtain ⟨hforest, -, ⟨log, hlog, hnodup, -⟩, hdone⟩ := merge_links_forest (.full ⟨0⟩) hreach'
  obtain ⟨hempty, htomb⟩ := hdone g' hsettle
  exact ⟨_, g', hreach', hpending, htogether _ _ _ hhas hhas' hcontent hcontent' .refl,
    (hforest ⟨2⟩ (by rwa [Has, size_schedule])).2,
    ⟨log, (hlog log _).mpr ⟨rfl, hsettle.symm⟩, hnodup⟩, hsettle, hempty, hmerged,
    (htomb ⟨4⟩ hmerged).1⟩

end Escape.Graph
