import Escape.Proofs.Graph.Extends

/-!
# Coherent graphs

The rules on webs. A graph is coherent if the nodes of a web agree on their content, contents are
live, and every node with a content can defer to one that has an edge. Graphs made without splicing
are stable: nothing is pending, and nodes with one content belong to one web.

While a defer edge is being added its ends may still lie in different webs. Their contents are
merged one pair after the other before the edge is there. Until then the edge counts as a bridge
between the webs.

- `Waiting.trapped`: nodes with the content of the merged node that it cannot be reached from lie
  behind the bridge.
-/

namespace Escape.Graph

variable {g : Graph} {n m src dst f t : NodeId} {pend : NodeId → Prop}

/-- The rules on webs, in a graph in which the nodes in `pend` wait to be merged. -/
structure Coherent (g : Graph) (pend : NodeId → Prop) : Prop extends Shape g pend where
  tomb_usePoints : ∀ n, (g.node n).merged = true → (g.node n).usePoints = {}
  target_live : ∀ n c, g.target? n = some c → (g.node c).merged = false
  target_content : ∀ n c, g.target? n = some c → (g.node c).isContent
  agree : ∀ n m, g.Defers n m → g.target? n = g.target? m
  progress : ∀ n, (g.target? n).isSome → ∃ e, ReflTransGen g.Defers n e ∧ g.HasEdge e

section

variable (h : Coherent g pend)
include h

theorem Coherent.agree_joined (hj : g.Joined n m) : g.target? n = g.target? m := by
  rcases hj with hd | hd
  · exact h.agree n m hd
  · exact (h.agree m n hd).symm

theorem Coherent.has_content {c : NodeId} (hc : g.content? n = some c) : g.Has c := by
  obtain ⟨c₀, hc₀, rfl⟩ := Option.map_eq_some_iff.mp hc
  exact h.forest.has_representative (has_of_isContent (h.target_content n c₀ hc₀))

/-- The rules are a matter of edges. Tombstones must not get use points. -/
theorem Coherent.sameEdges {g' : Graph} (he : SameEdges g g')
    (hs : Shape g' pend) (hu : ∀ n, (g'.node n).merged = true → (g'.node n).usePoints = {}) :
    Coherent g' pend := by
  refine ⟨hs, hu, fun n c hc => ?_, fun n c hc => ?_, fun n m hnm => ?_, fun n hsn => ?_⟩
  · rw [he.merged]
    exact h.target_live n c (by rwa [he.target?] at hc)
  · rw [he.target?] at hc
    rw [Node.isContent, he.kind c (h.target_has n c hc)]
    exact h.target_content n c hc
  · rw [he.target?, he.target?]
    exact h.agree n m (he.defers_iff.mp hnm)
  · obtain ⟨e, hp, hee⟩ := h.progress n (by rwa [he.target?] at hsn)
    exact ⟨e, hp.lift id fun a b hab => he.defers_iff.mpr hab, he.hasEdge_iff.mpr hee⟩

/-- A merge that is scheduled leaves the rules alone. -/
theorem Coherent.schedules {g' : Graph} {pend' : NodeId → Prop} (hsch : Schedules g g')
    (hs : Shape g' pend') : Coherent g' pend' := by
  refine ⟨hs, fun n hn => ?_, fun n c hc => ?_, fun n c hc => ?_, fun n m hnm => ?_,
    fun n hsn => ?_⟩
  · rw [hsch.field Node.usePoints fun _ _ _ _ => rfl]
    exact h.tomb_usePoints n (by rwa [hsch.merged] at hn)
  · rw [hsch.merged]
    exact h.target_live n c (by rwa [hsch.target?] at hc)
  · rw [hsch.isContent]
    exact h.target_content n c (by rwa [hsch.target?] at hc)
  · rw [hsch.target?, hsch.target?]
    exact h.agree n m (hsch.defers_iff.mp hnm)
  · obtain ⟨e, hp, hee⟩ := h.progress n (by rwa [hsch.target?] at hsn)
    exact ⟨e, hp.lift id fun a b => hsch.defers_iff.mpr, hsch.hasEdge_iff.mpr hee⟩

end

/-- Where nothing waits, what a node points to is its content. -/
theorem Coherent.content?_eq (h : Coherent g nobody) (n : NodeId) : g.content? n = g.target? n := by
  rw [Graph.content?_eq]
  cases hc : g.target? n with
  | none => rfl
  | some c => exact congrArg some (h.representative_of_live (h.target_live n c hc) not_false)

/-- A graph with nothing pending whose webs are coherent, and in which nodes with one content belong
to one web. -/
structure Steady (g : Graph) : Prop extends Coherent g nobody where
  settled : g.pending = []
  conn : ∀ n m c, g.target? n = some c → g.target? m = some c → ReflTransGen g.Joined n m

/-- Every interior node has a content. -/
def Furnished (g : Graph) : Prop :=
  ∀ n, (g.node n).merged = false → (g.node n).interior = true → (g.target? n).isSome

/-- Every interior node has a content once `src` is merged into `dst`. -/
def FurnishedBy (g : Graph) (src dst : NodeId) : Prop :=
  ∀ n, (g.node n).merged = false → (g.node n).interior = true →
    (g.target? n).isSome ∨ n = dst ∧ (g.target? src).isSome

/-- A steady graph in which every interior node has a content. -/
structure Stable (g : Graph) : Prop extends Steady g where
  interior : Furnished g

/-! ### Bridges -/

/-- Two nodes are joined by a defer edge, or by the bridge between `f` and `t`. -/
def Bridge (g : Graph) (f t a b : NodeId) : Prop :=
  g.Joined a b ∨ a = f ∧ b = t ∨ a = t ∧ b = f

theorem Bridge.symm {a b : NodeId} (h : g.Bridge f t a b) : g.Bridge f t b a := by
  rcases h with h | ⟨ha, hb⟩ | ⟨ha, hb⟩
  · exact .inl h.symm
  · exact .inr (.inr ⟨hb, ha⟩)
  · exact .inr (.inl ⟨hb, ha⟩)

/-- Ways across the bridge can be gone back. -/
theorem Bridge.path_symm {a b : NodeId} (h : ReflTransGen (g.Bridge f t) a b) :
    ReflTransGen (g.Bridge f t) b a := by
  induction h with
  | refl => exact .refl
  | tail _ hs ih => exact ih.head hs.symm

/-- Coherent webs with a bridge from `f` to `t`: both ends have the same content, up to merges, and
nodes with the same content belong to one web once the bridge is built. -/
structure Bridged (g : Graph) (pend : NodeId → Prop) (f t : NodeId) : Prop
    extends Coherent g pend where
  from_has : g.Has f
  from_live : (g.node f).merged = false
  to_has : g.Has t
  to_live : (g.node t).merged = false
  level : g.content? f = g.content? t
  filled : (g.content? f).isSome
  conn : ∀ n m c, g.content? n = some c → g.content? m = some c →
    ReflTransGen (g.Bridge f t) n m

/-- Content `src` is about to be merged into `dst`, and nothing else is pending. If any node points
to `src`, then the bridge leads from the web of `src` to the web of `dst`. -/
structure Waiting (g : Graph) (src dst f t : NodeId) : Prop
    extends Bridged g (· = src) f t where
  link : (g.node src).mergeTo = some dst
  root : (g.node dst).mergeTo = none
  src_content : (g.node src).isContent
  dst_content : (g.node dst).isContent
  crossing : ∀ n, g.target? n = some src →
    g.target? f = some src ∧ g.target? t = some dst ∨
      g.target? f = some dst ∧ g.target? t = some src

namespace Waiting

variable (h : Waiting g src dst f t)
include h

theorem ne : dst ≠ src := by
  rintro rfl
  have := h.link
  rw [h.root] at this
  cases this

theorem dst_live : (g.node dst).merged = false := by
  by_contra hm
  have := h.tomb_links dst (by simpa using hm)
  rw [h.root] at this
  cases this

theorem src_live : (g.node src).merged = false :=
  ((h.waits src).mp rfl).1

theorem representative_src : g.representative src = dst := by
  rw [h.forest.representative_link h.link, representative_of_root h.root]

/-- Only `src` has a representative other than itself among the live nodes. -/
theorem representative_live (hn : (g.node n).merged = false) :
    g.representative n = rename src dst n := by
  unfold rename
  split
  · rename_i e
    rw [e, h.representative_src]
  · rename_i e
    exact h.representative_of_live hn e

theorem content?_eq_rename (n : NodeId) : g.content? n = (g.target? n).map (rename src dst) := by
  rw [content?_eq]
  cases hc : g.target? n with
  | none => rfl
  | some c => exact congrArg some (h.representative_live (h.target_live n c hc))

/-- **Behind the bridge.** Take nodes with the content of `src` that are closed under defer edges
away from `src` and none of which is a neighbour of `src`. If there are any, one end of the bridge
is among them and the other is not, and all of them belong to the web of that end. -/
theorem trapped {Z : NodeId → Prop} (hsrc : ¬ Z src)
    (hclosed : ∀ a b, Z a → g.Joined a b → b ≠ src → Z b) (hapart : ∀ a, Z a → ¬ g.Joined a src)
    (hclass : ∀ a, Z a → ∃ c, g.content? a = some c ∧ g.content? src = some c) (hn : Z n) :
    ∃ a b, (a = f ∧ b = t ∨ a = t ∧ b = f) ∧ Z a ∧ ¬ Z b ∧
      ∀ m, Z m → ReflTransGen (fun u v => g.Joined u v ∧ Z v) m a := by
  -- a step out of `Z` can only be the bridge
  have hexit : ∀ u v, Z u → ¬ Z v → g.Bridge f t u v → u = f ∧ v = t ∨ u = t ∧ v = f := by
    intro u v hu hv hb
    rcases hb with hj | hb
    · exfalso
      by_cases hvs : v = src
      · exact hapart u hu (hvs ▸ hj)
      · exact hv (hclosed u v hu hj hvs)
    · exact hb
  have hout : ∀ m, Z m → ∃ a b, (a = f ∧ b = t ∨ a = t ∧ b = f) ∧ Z a ∧ ¬ Z b ∧
      ReflTransGen (fun u v => g.Joined u v ∧ Z v) m a := by
    intro m hm
    obtain ⟨c, hmc, hsc⟩ := hclass m hm
    have hpath := h.conn m src c hmc hsc
    induction hpath using Relation.ReflTransGen.head_induction_on with
    | refl => exact absurd hm hsrc
    | @head u v hstep _ ih =>
      by_cases hv : Z v
      · obtain ⟨c', hvc, hsc'⟩ := hclass v hv
        obtain ⟨a, b, hab, ha, hb, hreach⟩ := ih hv (hsc.symm.trans hsc' ▸ hvc)
        rcases hstep with hj | hbr
        · exact ⟨a, b, hab, ha, hb, hreach.head ⟨hj, hv⟩⟩
        · -- both ends of the bridge would be inside, and nothing leads out
          exfalso
          rcases hab with ⟨rfl, rfl⟩ | ⟨rfl, rfl⟩ <;> rcases hbr with ⟨rfl, rfl⟩ | ⟨rfl, rfl⟩
          · exact hb hv
          · exact hb hm
          · exact hb hm
          · exact hb hv
      · exact ⟨u, v, hexit u v hm hv hstep, hm, hv, .refl⟩
  obtain ⟨a, b, hab, ha, hb, -⟩ := hout n hn
  refine ⟨a, b, hab, ha, hb, fun m hm => ?_⟩
  obtain ⟨a', b', hab', ha', hb', hreach⟩ := hout m hm
  have haa : a' = a := by
    rcases hab with ⟨rfl, rfl⟩ | ⟨rfl, rfl⟩ <;> rcases hab' with ⟨rfl, rfl⟩ | ⟨rfl, rfl⟩
    · rfl
    · exact absurd ha' hb
    · exact absurd ha' hb
    · rfl
  exact haa ▸ hreach

/-- The list of pending merges does not matter. -/
theorem setPending (l : List NodeId) : Waiting { g with pending := l } src dst f t := by
  have hrep : ∀ n, Graph.representative { g with pending := l } n = g.representative n :=
    representative_congr (by rfl) fun _ => by rfl
  have hcon : ∀ n, Graph.content? { g with pending := l } n = g.content? n := fun n => by
    rw [content?_eq, content?_eq]
    exact congrArg (Option.map · _) (funext hrep)
  have hc : Coherent { g with pending := l } (· = src) :=
    h.toCoherent.sameEdges (.of_nodes rfl) (h.toShape.setPending l) h.tomb_usePoints
  exact { h with
    toCoherent := hc
    level := by rw [hcon, hcon]; exact h.level
    filled := by rw [hcon]; exact h.filled
    conn := fun n m c hn hm => by
      rw [hcon] at hn hm
      exact h.conn n m c hn hm }

end Waiting

end Escape.Graph
