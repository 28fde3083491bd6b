import Escape.Proofs.Graph.Monotone

/-!
# What edits keep, and what they lose

- `Graph.edit_keeps`: an edit keeps all defer edges up to merges. One that merges nothing keeps all
  contents, and a plain edit of a plainly made graph loses one exactly if it is a defer edge that
  forgets it.
- `Graph.defer_loses_content`: such a defer edge.
- `Graph.splice_carries`: a splice that completes leaves nothing pending, loses nothing, and carries
  over what the source says.
- `Graph.splice_stops`: a splice of two sound graphs that does not complete.
-/

namespace Escape.Graph

variable {g g' : Graph} {n m c : NodeId}

/-! ### Contents under single edits -/

/-- Without a change of edges contents are kept. -/
theorem KeepsContents.of_sameEdges (hs : Settled g) (he : SameEdges g g') :
    KeepsContents g g' g'.representative := by
  intro n y hy
  rw [he.representative hs.forest, hs.representative_of_content hy, he.content? hs.forest, hy,
    he.representative hs.forest, hs.representative_of_live (hs.live_content hy).2]

/-- Contents that stay are kept. -/
theorem KeepsContents.of_keeps (hs' : Settled g')
    (h : ∀ n y, g.content? n = some y → g'.content? n = some y) :
    KeepsContents g g' g'.representative := by
  intro n y hy
  have hy' := h n y hy
  rw [hs'.representative_of_content hy', hy', hs'.representative_of_live (hs'.live_content hy').2]

theorem ensureContents_keeps : ∀ (flags : List (Bool × Bool)) (g : Graph) (n : NodeId), Settled g →
    (g.node n).merged = false → g.ensureContents n flags = .ok g' →
    ∀ m d, g.content? m = some d → g'.content? m = some d := by
  intro flags
  induction flags with
  | nil =>
    intro g n _ _ hok m d hm
    cases hok
    exact hm
  | cons flag rest ih =>
    intro g n hs hn hok m d hm
    obtain ⟨⟨g₁, c⟩, h₁, hok⟩ := bind_ok.mp hok
    obtain ⟨hev, hc, -⟩ := ensureContent_evolves (P := anything) (B := anything) hs hn h₁
    exact ih g₁ c hev.settled hc.2 hok m d (ensureContent_keeps hs hn h₁ hm)

/-- The edit is a defer edge that forgets the content of a node. -/
def Edit.Forgets (g : Graph) : Edit → Prop
  | .defer src dst => g.DeferForgets src dst
  | _ => False

/-- **Contents under an edit that merges nothing.** -/
theorem Settled.edit_contents (hs : Settled g) {e : Edit} (hlive : e.OnLive g) (hun : e.Unspliced g)
    (hdefer : ∀ src dst, e ≠ .defer src dst) (hok : e.apply g = .ok g') :
    KeepsContents g g' g'.representative := by
  have hquiet : Quiet g g' → KeepsContents g g' g'.representative := fun hq =>
    .of_sameEdges hs hq.toSameEdges
  cases e with
  | enter a =>
    cases hok
    exact hquiet (enter_quiet hs.toShape a)
  | enterReturn =>
    cases hok
    exact hquiet (ensureReturn_quiet g)
  | contents n flags =>
    exact .of_keeps (ensureContents_forward flags g n hs hlive.2 hok).1
      (ensureContents_keeps flags g n hs hlive.2 hok)
  | bind v n =>
    rw [Edit.apply, bind_of_new hlive hs.toShape hun] at hok
    cases hok
    exact hquiet (.mapValue hlive.2 v)
  | defer src dst => exact absurd rfl (hdefer src dst)
  | raise n st =>
    cases hok
    exact hquiet (.raises (raise_raises g n st))
  | propagate =>
    cases hok
    exact hquiet (.raises (propagate_raises g))
  | use n i =>
    cases hok
    exact hquiet (addUsePoint_quiet hs.toShape n i).1
  | forget i results =>
    cases hok
    exact hquiet (forget_quiet hs.toShape i results).1
  | splice | useAll | clear | invalidate => exact absurd hun id

/-- **Contents under a plain edit.** -/
theorem Stable.edit_contents (h : Stable g) {e : Edit} (hlive : e.OnLive g) (hplain : e.Plain g)
    (hok : e.apply g = .ok g') : KeepsContents g g' g'.representative ↔ ¬ e.Forgets g := by
  cases e with
  | defer src dst =>
    obtain ⟨hsrc, hdst⟩ : g.Live src ∧ g.Live dst := hlive
    obtain ⟨g₁, r, b, h₁, -, hkeeps⟩ := h.deferTracked hsrc.1 hdst.1 hsrc.2 hdst.2
    have hg' : g' = g₁ := by
      simp only [Edit.apply, Graph.defer, h₁, ok_bind] at hok
      exact (Except.ok.inj hok).symm
    rw [hg']
    exact hkeeps
  | _ =>
    refine iff_of_true (Settled.edit_contents ⟨h.toShape, h.settled⟩ hlive hplain.unspliced
      ?_ hok) not_false
    intro src dst he
    cases he

/-! ### Runs -/

/-- **What an edit keeps.** Take any run of edits of live nodes, and one further edit that completes
and is not meant to forget anything. Nodes that a defer edge led between are one node afterwards, or
a defer edge still leads from what represents the one to what represents the other. If the further
edit merges nothing, every node still points to what represents its content. If all edits are plain,
it does so exactly unless the further edit is a defer edge that forgets a content. -/
theorem edit_keeps {start : Graph} (hstart : IsStart start) {edits : List Edit}
    (hon : Along (fun g e => e.OnLive g) start edits) (hg : start.run edits = .ok g) {e : Edit}
    (he : e.OnLive g) (hgrows : e.Grows) (hg' : e.apply g = .ok g') :
    (∀ n m, g.Defers n m → g'.Tied n m) ∧
      (e.Unspliced g → (∀ src dst, e ≠ .defer src dst) → KeepsContents g g' g'.representative) ∧
      (Along (fun g e => e.Plain g) start edits → e.Plain g →
        (KeepsContents g g' g'.representative ↔ ¬ e.Forgets g)) := by
  have hs₀ : Settled start := ⟨hstart.stable.toShape, hstart.stable.settled⟩
  obtain ⟨hs, -⟩ := Settled.run (Q := fun _ => True) edits start hs₀
    (hon.mono fun _ _ h => ⟨h, trivial⟩) hg
  obtain ⟨-, hf⟩ := hs.edit he hg'
  refine ⟨fun n m hd => (hf hgrows).tied n m (.inr ?_),
    fun hun hdefer => hs.edit_contents he hun hdefer hg', fun hplain hp => ?_⟩
  · rw [hs.representative_of_live (hs.live_of_defers hd),
      hs.representative_of_live (hs.defers_live n m hd)]
    exact hd
  · obtain ⟨g₁, h₁, hst, -⟩ := Stable.run edits start hstart.stable (hon.and hplain)
    cases h₁.symm.trans hg
    exact hst.edit_contents he hp hg'

/-- Two values, and the content of the second one, which defers to the first value. The content is
made an object with a memory of its own, and this memory defers to the second value. -/
def losingEdits : List Edit :=
  [.enter ⟨⟨0⟩, false, false⟩, .enter ⟨⟨1⟩, false, false⟩, .contents ⟨1⟩ [(false, false)],
    .defer ⟨2⟩ ⟨0⟩, .contents ⟨2⟩ [(true, false), (false, false)], .defer ⟨4⟩ ⟨1⟩]

theorem losingEdits_along :
    Along (fun g e => (e.OnLive g ∧ e.Plain g) ∧ e.Grows) (full ⟨0⟩)
    (losingEdits ++ [.defer ⟨4⟩ ⟨3⟩]) := by
  decide +kernel

/-- The defer edge of the memory to the second value loses nothing. -/
theorem edit_keeps_losing : ∃ g g', (full ⟨0⟩).run (losingEdits.take 5) = .ok g ∧
    (Edit.defer ⟨4⟩ ⟨1⟩).apply g = .ok g' ∧ (∀ n m, g.Defers n m → g'.Tied n m) ∧
    (KeepsContents g g' g'.representative ↔ ¬ (Edit.defer ⟨4⟩ ⟨1⟩).Forgets g) := by
  have hall : Along (fun g e => (e.OnLive g ∧ e.Plain g) ∧ e.Grows) (full ⟨0⟩)
      (losingEdits.take 5 ++ [.defer ⟨4⟩ ⟨1⟩]) := losingEdits_along.take 6
  have hfirst := (hall.mono fun _ _ h => h.1).take 5
  obtain ⟨g, hg, hs, -⟩ := Stable.run _ _ (IsStart.full ⟨0⟩).stable hfirst
  obtain ⟨⟨⟨hlive, hplain⟩, hgrows⟩, -⟩ := hall.append hg
  obtain ⟨g', hg', -⟩ := hs.edit hlive hplain
  obtain ⟨hdefers, -, hcontents⟩ :=
    edit_keeps (.full ⟨0⟩) (hfirst.mono fun _ _ h => h.1) hg hlive hgrows hg'
  exact ⟨g, g', hg, hg', hdefers, hcontents (hfirst.mono fun _ _ h => h.2) hplain⟩

/-- **A content is lost.** Before the defer edge from the memory to its object, the first value
points to the object. Afterwards it points to the memory, while the object is still a node of its
own. -/
theorem defer_loses_content :
    Along (fun g e => e.OnLive g ∧ e.Plain g) (full ⟨0⟩) (losingEdits ++ [.defer ⟨4⟩ ⟨3⟩]) ∧
    ∃ g, (full ⟨0⟩).run losingEdits = .ok g ∧ ∃ g', (Edit.defer ⟨4⟩ ⟨3⟩).apply g = .ok g' ∧
      g.Live ⟨0⟩ ∧ g.content? ⟨0⟩ = some ⟨3⟩ ∧
      g'.content? (g'.representative ⟨0⟩) ≠ some (g'.representative ⟨3⟩) :=
  ⟨losingEdits_along.mono fun _ _ h => h.1, by decide +kernel⟩

/-! ### Splices -/

/-- **What a splice does.** Take two graphs that runs of edits of live nodes have made, and any map
of nodes. A splice that completes leaves the destination settled: nothing waits to be merged, merged
nodes are bare, and each edge is recorded at both of its ends. It loses nothing of the destination.
A mapped node that escapes globally in the source does so in the destination, and where one mapped
node reaches another along defer edges of the source, the two are tied in the destination. Without a
reported change the destination is what it was. -/
theorem splice_carries {start start' source : Graph} (hstart : IsStart start)
    (hstart' : IsStart start') {edits edits' : List Edit}
    (hon : Along (fun g e => e.OnLive g) start edits) (hg : start.run edits = .ok g)
    (hon' : Along (fun g e => e.OnLive g) start' edits') (hsource : start'.run edits' = .ok source)
    {map map' : NodeMap} {changed : Bool} (hok : g.splice source map = .ok (g', map', changed)) :
    Settled g' ∧ Follows g g' ∧
      (∀ a b, map.pairs.find? a = some b → (source.node a).state = .globalEscaping →
        (g'.node (g'.representative b)).state = .globalEscaping) ∧
      (∀ a b a' b', map.pairs.find? a = some b → map.pairs.find? a' = some b' →
        ReflTransGen source.Defers a a' → g'.Tied b b') ∧
      (changed = false → g' = g) := by
  have hs := (Settled.run (Q := fun _ => True) edits start
    ⟨hstart.stable.toShape, hstart.stable.settled⟩ (hon.mono fun _ _ h => ⟨h, trivial⟩) hg).1
  have hs' := (Settled.run (Q := fun _ => True) edits' start'
    ⟨hstart'.stable.toShape, hstart'.stable.settled⟩
    (hon'.mono fun _ _ h => ⟨h, trivial⟩) hsource).1
  obtain ⟨hev, hun, hglobal, htied⟩ := splice_spec (P := anything) (B := anything) hs hok
  exact ⟨hev.settled, hev.toFollows, hglobal, htied hs'.toShape, hun⟩

/-- A value, its object, and the memory of the object. -/
def chainEdits : List Edit := [.enter ⟨⟨0⟩, false, false⟩,
      .contents ⟨0⟩ [(true, false), (false, false)]]

/-- Two values and the return node. Both the second value and the return node defer to the first
value, so that all three share one content. -/
def sharingEdits : List Edit :=
  [.enter ⟨⟨0⟩, false, false⟩, .enter ⟨⟨1⟩, false, false⟩, .enterReturn,
    .contents ⟨0⟩ [(false, false)], .defer ⟨1⟩ ⟨0⟩, .defer ⟨2⟩ ⟨0⟩]

theorem sharingEdits_along :
    Along (fun g e => e.OnLive g ∧ e.Plain g) (full ⟨0⟩) chainEdits ∧
      Along (fun g e => e.OnLive g ∧ e.Plain g) (full ⟨0⟩) sharingEdits := by
  decide +kernel

/-- The node map with the given pairs, added in order. -/
def mapOf (pairs : List (NodeId × NodeId)) : NodeMap := pairs.foldl (fun m p => m.add p.1 p.2) {}

/-- The first value of the source is the value of the destination, and its return node is the
memory. -/
theorem splice_carries_sharing : ∃ g source g', (full ⟨0⟩).run chainEdits = .ok g ∧
    (full ⟨0⟩).run sharingEdits = .ok source ∧
    (∃ map' changed, g.splice source (mapOf [(⟨0⟩, ⟨0⟩), (⟨2⟩, ⟨2⟩)]) = .ok (g', map', changed)) ∧
    Settled g' ∧ Follows g g' ∧ g'.Tied ⟨2⟩ ⟨0⟩ := by
  obtain ⟨hchain, hsharing⟩ := sharingEdits_along
  have hrun : ∃ g, (full ⟨0⟩).run chainEdits = .ok g ∧ ∃ source,
    (full ⟨0⟩).run sharingEdits = .ok source ∧
      ∃ r, g.splice source (mapOf [(⟨0⟩, ⟨0⟩), (⟨2⟩, ⟨2⟩)]) = .ok r ∧
      ⟨0⟩ ∈ (source.node ⟨2⟩).defersTo := by
    decide +kernel
  obtain ⟨g, hg, source, hsource, ⟨g', map', changed⟩, hok, hdefers⟩ := hrun
  obtain ⟨hs, hf, -, htied, -⟩ := splice_carries (.full ⟨0⟩) (.full ⟨0⟩)
    (hchain.mono fun _ _ h => h.1) hg (hsharing.mono fun _ _ h => h.1) hsource hok
  exact ⟨g, source, g', hg, hsource, ⟨map', changed, hok⟩, hs, hf,
    htied ⟨2⟩ ⟨2⟩ ⟨0⟩ ⟨0⟩ (by decide +kernel) (by decide +kernel) (.single hdefers)⟩

/-- **A splice that stops.** Both graphs are sound, and the map takes the return node and the two
values of the source to the memory, the object and the value of the destination, all of them live.
-/
theorem splice_stops : ∃ g, (full ⟨0⟩).run chainEdits = .ok g ∧
    ∃ source, (full ⟨0⟩).run sharingEdits = .ok source ∧ g.valid = true ∧ source.valid = true ∧
      g.check false = .ok () ∧ source.check false = .ok () ∧
      (∀ n : Fin 3, g.Live ⟨n⟩ ∧ source.Live ⟨n⟩) ∧
      g.splice source (mapOf [(⟨2⟩, ⟨2⟩), (⟨0⟩, ⟨1⟩), (⟨1⟩, ⟨0⟩)]) = .error .edgeToMerged := by
  decide +kernel

end Escape.Graph
