import Escape.Graph.Splice
import Escape.Graph.UsePoint
import Escape.Proofs.Graph.Checks
import Escape.Proofs.Graph.States
import Escape.Proofs.Graph.Steady

/-!
# Sequences of edits

The operations that build up a graph, as data, and what holds of every graph that they make.

- `Graph.Edit`, `Edit.apply`: single operations.
- `Graph.run`: a sequence of them.
- `Steady.edit`: **an edit of a steady graph succeeds, and the graph stays steady.**
- `Stable.edit`: the same for stable graphs.
-/

namespace Escape.Graph

variable {g g' g'' : Graph} {n m : NodeId} {v : ValueId} {pend : NodeId → Prop}

/-- The node `n` is there and no tombstone. -/
def Live (g : Graph) (n : NodeId) : Prop := g.Has n ∧ (g.node n).merged = false

instance (g : Graph) (n : NodeId) : Decidable (g.Live n) := inferInstanceAs (Decidable (_ ∧ _))

/-- The content of `n`, the content of that content, and so on, each made on first request. An entry
says whether a content is interior, and whether it holds references only. -/
def ensureContents (g : Graph) (n : NodeId) : List (Bool × Bool) → Checked Graph
  | [] => return g
  | (interior, referenceOnly) :: rest => do
    let (g, c) ← g.ensureContent n interior referenceOnly
    g.ensureContents c rest

/-- An operation on a graph. -/
inductive Edit where
  /-- The node of an anchor. -/
  | enter (a : Scope.Anchor)
  /-- The node of the returned value. -/
  | enterReturn
  /-- The contents below a node. -/
  | contents (n : NodeId) (flags : List (Bool × Bool))
  /-- A value that a node stands for as well. -/
  | bind (v : ValueId) (n : NodeId)
  /-- A defer edge. -/
  | defer (src dst : NodeId)
  /-- A state that a node has at least. -/
  | raise (n : NodeId) (s : EscapeState)
  /-- All states along all edges. -/
  | propagate
  /-- An instruction that uses a node. -/
  | use (n : NodeId) (i : InstId)
  /-- All instructions that use memory, in the given blocks. -/
  | useAll (s : Scope) (blocks : List BlockId)
  /-- An instruction that is deleted. -/
  | forget (i : InstId) (results : List ValueId)
  /-- What another graph says about the nodes of a map. -/
  | splice (source : Graph) (map : NodeMap)
  /-- All nodes are dropped. -/
  | clear
  /-- The graph is given up. -/
  | invalidate

namespace Edit

/-- Carries out an edit. -/
def apply (g : Graph) : Edit → Checked Graph
  | enter a => return (g.enter a).1
  | enterReturn => return g.ensureReturn.1
  | contents n flags => g.ensureContents n flags
  | bind v n => g.bind v n
  | defer src dst => return (← g.defer src dst).1
  | raise n s => return (g.raise n s).1
  | propagate => return g.propagate.1
  | use n i => return (g.addUsePoint n i).1
  | useAll s blocks => g.computeUsePoints s blocks
  | forget i results => return g.forget i results
  | splice source map => return (← g.splice source map).1
  | clear => return g.clear
  | invalidate => return g.invalidate

/-- The nodes that an edit names are live. -/
def OnLive (g : Graph) : Edit → Prop
  | contents n _ | raise n _ | use n _ | bind _ n => g.Live n
  | defer src dst => g.Live src ∧ g.Live dst
  | splice source map => ∀ e ∈ map.pairs.entries, source.Live e.1 ∧ g.Live e.2
  | enter _ | enterReturn | propagate | useAll _ _ | forget _ _ | clear | invalidate => True

/-- An edit that splices no graph, and binds no value twice. -/
def Unspliced (g : Graph) : Edit → Prop
  | bind v _ => g.values.find? v = none
  | splice _ _ | useAll _ _ | clear | invalidate => False
  | enter _ | enterReturn | contents _ _ | defer _ _ | raise _ _ | propagate | use _ _
  | forget _ _ =>
    True

/-- An edit that splices no graph, binds no value twice, and leaves no interior node without a
content. -/
def Plain (g : Graph) : Edit → Prop
  | contents _ flags => ∀ last ∈ flags.getLast?, last.1 = false
  | bind v _ => g.values.find? v = none
  | splice _ _ | useAll _ _ | clear | invalidate => False
  | enter _ | enterReturn | defer _ _ | raise _ _ | propagate | use _ _ | forget _ _ => True

instance (g : Graph) : (e : Edit) → Decidable (e.OnLive g)
  | contents n _ | raise n _ | use n _ | bind _ n => inferInstanceAs (Decidable (g.Live n))
  | defer src dst => inferInstanceAs (Decidable (g.Live src ∧ g.Live dst))
  | splice source map =>
    inferInstanceAs (Decidable (∀ e ∈ map.pairs.entries, source.Live e.1 ∧ g.Live e.2))
  | enter _ | enterReturn | propagate | useAll _ _ | forget _ _ | clear | invalidate =>
    inferInstanceAs (Decidable True)

instance (g : Graph) : (e : Edit) → Decidable (e.Unspliced g)
  | bind v _ => inferInstanceAs (Decidable (g.values.find? v = none))
  | splice _ _ | useAll _ _ | clear | invalidate => inferInstanceAs (Decidable False)
  | enter _ | enterReturn | contents _ _ | defer _ _ | raise _ _ | propagate | use _ _
  | forget _ _ =>
    inferInstanceAs (Decidable True)

instance (g : Graph) : (e : Edit) → Decidable (e.Plain g)
  | contents _ flags => inferInstanceAs (Decidable (∀ last ∈ flags.getLast?, last.1 = false))
  | bind v _ => inferInstanceAs (Decidable (g.values.find? v = none))
  | splice _ _ | useAll _ _ | clear | invalidate => inferInstanceAs (Decidable False)
  | enter _ | enterReturn | defer _ _ | raise _ _ | propagate | use _ _ | forget _ _ =>
    inferInstanceAs (Decidable True)

/-- Plain edits splice nothing. -/
theorem Plain.unspliced {e : Edit} (h : e.Plain g) : e.Unspliced g := by
  cases e with
  | contents n flags => trivial
  | enter | enterReturn | bind | defer | raise | propagate | use | useAll | forget | splice | clear
  | invalidate => exact h

end Edit

/-- Carries out edits in order. -/
def run (g : Graph) (edits : List Edit) : Checked Graph := edits.foldlM Edit.apply g

/-- Along a run that starts from `g` all edits satisfy `P`, each in the graph that it changes. -/
def Along (P : Graph → Edit → Prop) (g : Graph) : List Edit → Prop
  | [] => True
  | e :: rest => P g e ∧ ∀ g', e.apply g = .ok g' → Along P g' rest

namespace Along

variable {P Q : Graph → Edit → Prop}

instance [∀ g e, Decidable (P g e)] : (g : Graph) → (edits : List Edit) →
    Decidable (Along P g edits)
  | _, [] => inferInstanceAs (Decidable True)
  | g, e :: rest =>
    have : Decidable (∀ g', e.apply g = .ok g' → Along P g' rest) :=
      match e.apply g with
      | .ok g' =>
        have := instDecidable g' rest
        decidable_of_iff (Along P g' rest)
          ⟨fun ha _ hg => Except.ok.inj hg ▸ ha, fun ha => ha g' rfl⟩
      | .error _ => isTrue fun _ hg => nomatch hg
    inferInstanceAs (Decidable (_ ∧ _))

/-- A weaker property holds along the same run. -/
theorem mono (hPQ : ∀ g e, P g e → Q g e) : ∀ {edits : List Edit} {g : Graph}, Along P g edits →
    Along Q g edits
  | [], _, _ => trivial
  | _ :: _, _, h => ⟨hPQ _ _ h.1, fun g' hg => mono hPQ (h.2 g' hg)⟩

theorem and : ∀ {edits : List Edit} {g : Graph}, Along P g edits → Along Q g edits →
    Along (fun g e => P g e ∧ Q g e) g edits
  | [], _, _, _ => trivial
  | _ :: _, _, h, h' => ⟨⟨h.1, h'.1⟩, fun g' hg => (h.2 g' hg).and (h'.2 g' hg)⟩

/-- The beginning of a run is a run. -/
theorem take : ∀ {edits : List Edit} {g : Graph} (k : Nat), Along P g edits →
    Along P g (edits.take k)
  | [], _, k, _ => by rw [List.take_nil]; trivial
  | _ :: _, _, 0, _ => trivial
  | _ :: _, _, k + 1, h => ⟨h.1, fun g' hg => (h.2 g' hg).take k⟩

end Along

/-! ### Edits that touch no edge -/

/-- From `g` to `g'` no edge changes, no node becomes interior, and no tombstone gets use points. -/
structure Quiet (g g' : Graph) : Prop extends SameEdges g g' where
  usePoints : ∀ n, (g.node n).merged = true → (g.node n).usePoints = {} → (g'.node n).usePoints = {}
  interior : ∀ n, (g'.node n).interior = true → (g.node n).interior = true
  pending : g'.pending = g.pending
  label : g'.label = g.label

namespace Quiet

theorem refl (g : Graph) : Quiet g g := ⟨.refl g, fun _ _ h => h, fun _ h => h, rfl, rfl⟩

/-- Two quiet changes make one. -/
theorem trans (h : Quiet g g') (h' : Quiet g' g'') : Quiet g g'' where
  toSameEdges := h.toSameEdges.trans h'.toSameEdges
  usePoints n hm hu := h'.usePoints n (by rw [h.merged]; exact hm) (h.usePoints n hm hu)
  interior n hi := h.interior n (h'.interior n hi)
  pending := h'.pending.trans h.pending
  label := h'.label.trans h.label

/-- A change beside the table of nodes. -/
theorem of_nodes (h : g'.nodes = g.nodes) (hp : g'.pending = g.pending)
    (hh : g'.label = g.label) : Quiet g g' := by
  have hnode : ∀ n, g'.node n = g.node n := fun n => by rw [node, h, ← node]
  exact ⟨.of_nodes h, fun n _ hu => by rw [hnode, hu], fun n hi => by rwa [hnode] at hi, hp, hh⟩

/-- A change of a live node that leaves its edges alone. -/
theorem modify (hn : (g.node n).merged = false) {f : Node → Node}
    (hi : ∀ x, (f x).interior = true → x.interior = true)
    (hl : ∀ x, (f x).links = x.links := by intros; rfl) : Quiet g (g.modify n f) where
  toSameEdges := .modify g n hl
  usePoints m hm hu := by
    rw [node_modify, if_neg, hu]
    rintro ⟨rfl, -⟩
    rw [hn] at hm
    cases hm
  interior m hm := by
    rw [node_modify] at hm
    split at hm
    · exact hi _ hm
    · exact hm
  pending := rfl
  label := rfl

/-- A new node has no edges. -/
theorem addNode {x : Node} (hx : x.Fresh) (hi : x.interior = false) : Quiet g (g.addNode x).1 where
  toSameEdges := .addNode hx
  usePoints n _ hu := by rw [addNode_field Node.usePoints hx.usePoints, hu]
  interior n hn := by rwa [addNode_field Node.interior hi] at hn
  pending := rfl
  label := rfl

/-- Values are no edges. -/
theorem mapValue (hn : (g.node n).merged = false) (v : ValueId) : Quiet g (g.mapValue v n) :=
  (Quiet.modify (f := fun x => { x with value := x.value <|> some v }) hn
    fun _ hx => hx).trans (.of_nodes rfl rfl rfl)

/-- States are no edges. -/
theorem raises (h : Raises g g') : Quiet g g' where
  toSameEdges := h.sameEdges
  usePoints n _ hu := by rw [h.field Node.usePoints, hu]
  interior n hn := by rwa [h.field Node.interior] at hn
  pending := h.pending
  label := label_of_header h.header

end Quiet

/-- A quiet change keeps a graph steady. -/
theorem Steady.quiet (h : Steady g) (hq : Quiet g g') (hs : Shape g' nobody) : Steady g' := by
  refine h.sameEdges hq.toSameEdges hs (fun n hn => ?_) (hq.pending.trans h.settled)
  rw [hq.merged] at hn
  exact hq.usePoints n hn (h.tomb_usePoints n hn)

/-- A quiet change keeps a graph furnished. -/
theorem Furnished.quiet (h : Furnished g) (hq : Quiet g g') : Furnished g' := by
  intro n hl hi
  rw [hq.merged] at hl
  rw [hq.target?]
  exact h n hl (hq.interior n hi)

/-- A value enters the graph. -/
theorem enter_quiet (h : Shape g pend) (a : Scope.Anchor) : Quiet g (g.enter a).1 := by
  rcases enter_cases g a with ⟨n, f, -, rfl, e⟩ | ⟨x, -, hx, -, ⟨hi, -⟩, e⟩
  · rw [e]
    exact (Quiet.modify (h.merged_representative n)
      fun x hx => by simpa [Node.mergeFlags] using hx).trans (.of_nodes rfl rfl rfl)
  · rw [e]
    refine (Quiet.addNode hx hi).trans (.mapValue ?_ _)
    rw [node_addNode_self]
    exact hx.merged

theorem ensureReturn_quiet (g : Graph) : Quiet g g.ensureReturn.1 := by
  rcases ensureReturn_cases g with ⟨n, -, e⟩ | ⟨x, -, hx, -, ⟨hi, -⟩, e⟩
  · rw [e]
    exact .refl g
  · rw [e]
    exact (Quiet.addNode hx hi).trans (.of_nodes rfl rfl rfl)

/-! ### Use points -/

theorem numberUser_nodes (g : Graph) (i : InstId) : (g.numberUser i).1.nodes = g.nodes ∧
    (g.numberUser i).1.values = g.values ∧ (g.numberUser i).1.returnNode = g.returnNode ∧
    (g.numberUser i).1.pending = g.pending ∧ (g.numberUser i).1.label = g.label := by
  unfold numberUser
  split <;> exact ⟨rfl, rfl, rfl, rfl, rfl⟩

/-- A live node gets a use point. -/
theorem addUsePoint_quiet (h : Shape g pend) (n : NodeId) (i : InstId) :
    Quiet g (g.addUsePoint n i).1 ∧ Shape (g.addUsePoint n i).1 pend := by
  unfold addUsePoint
  dsimp only
  split
  · exact ⟨.refl g, h⟩
  · obtain ⟨hn, hv, hr, hp, hh⟩ := numberUser_nodes g i
    have hq : Quiet g (g.numberUser i).1 := .of_nodes hn hp hh
    have hlive : ((g.numberUser i).1.node (g.representative n)).merged = false := by
      rw [hq.merged]
      exact h.merged_representative n
    exact ⟨hq.trans (.modify hlive fun _ hx => hx), (h.of_nodes hn hv hr).modify ..⟩

/-- A value that is forgotten leaves its node behind. -/
theorem forgetValue_quiet (h : Shape g pend) (v : ValueId) : Quiet g (forget.forgetValue g v) := by
  unfold forget.forgetValue
  split
  · rename_i n _
    exact (Quiet.modify
      (f := fun x => { x with value := if x.value = some v then none else x.value })
      (h.merged_representative n) fun _ hx => hx).trans
        (.of_nodes rfl rfl rfl)
  · exact .refl g

/-- A change of all nodes alike. -/
theorem node_of_map {f : Node → Node} (hf : f {} = {}) (h : g'.nodes = g.nodes.map f) (n : NodeId) :
    g'.node n = f (g.node n) := by
  simp only [node, h, Array.getD_eq_getD_getElem?, Array.getElem?_map]
  cases g.nodes[n.index]? with
  | none => exact hf.symm
  | some x => rfl

/-- Taking a use point away from all nodes. -/
theorem eraseUsePoint_quiet (h : Shape g pend) {u : Nat}
    (hn : g'.nodes = g.nodes.map fun x => { x with usePoints := (x.usePoints.erase u).1 })
    (hv : g'.values = g.values) (hr : g'.returnNode = g.returnNode) (hp : g'.pending = g.pending)
    (hh : g'.label = g.label) : Quiet g g' ∧ Shape g' pend := by
  have hempty : (UsePointSet.erase {} u).1 = {} := by
    simp [UsePointSet.erase, UsePointSet.contains]
  have hnode : ∀ n, g'.node n = { g.node n with usePoints := ((g.node n).usePoints.erase u).1 } :=
    node_of_map (by rw [hempty]) hn
  have hsize : g'.size = g.size := by rw [size, hn, Array.size_map, ← size]
  refine ⟨⟨.of_links hsize fun n => by rw [hnode]; rfl, fun n _ hu => ?_, fun n hi => ?_, hp, hh⟩,
    h.congr hsize (fun n => by rw [hnode]; rfl) hv hr⟩
  · rw [hnode]
    rw [hu, hempty]
  · rwa [hnode] at hi

/-- An instruction is forgotten, with its results. -/
theorem forget_quiet (h : Shape g nobody) (i : InstId) (results : List ValueId) :
    Quiet g (g.forget i results) ∧ Shape (g.forget i results) nobody := by
  have hvals : Quiet g (results.foldl forget.forgetValue g) ∧
      Shape (results.foldl forget.forgetValue g) nobody :=
    List.foldlRecOn (motive := fun k => Quiet g k ∧ Shape k nobody) _ _ ⟨.refl g, h⟩
      fun k hk v _ => ⟨hk.1.trans (forgetValue_quiet hk.2 v), hk.2.forgetValue v⟩
  unfold forget
  dsimp only
  generalize results.foldl forget.forgetValue g = k at hvals
  split
  · exact (eraseUsePoint_quiet hvals.2 (by rfl) (by rfl) (by rfl) (by rfl)
      (by rfl)).imp_left hvals.1.trans
  · exact hvals

/-! ### Steady graphs under edits -/

/-- A value that is new to the graph is bound without a merge. -/
theorem bind_of_new (hn : g.Live n) (hs : Shape g nobody) (hv : g.values.find? v = none) :
    g.bind v n = .ok (g.mapValue v n) := by
  unfold bind
  rw [require_ok.mpr hn.1, ok_bind, hv, hs.representative_of_live hn.2 not_false]
  rfl

/-- The contents below a node. All interior nodes but the last one get a content on the way. -/
theorem Steady.ensureContents (flags : List (Bool × Bool)) (g : Graph) (n : NodeId) (h : Steady g)
    (hn : g.Live n) : ∃ g', g.ensureContents n flags = .ok g' ∧ Steady g' ∧
    g'.label = g.label ∧ ((∀ last ∈ flags.getLast?, last.1 = false) →
    (∀ m, (g.node m).merged = false → (g.node m).interior = true →
    (g.target? m).isSome ∨ m = n ∧ flags ≠ []) → Furnished g') := by
  induction flags generalizing g n with
  | nil =>
    exact ⟨g, rfl, h, rfl, fun _ hint m hl hi => (hint m hl hi).elim id fun hm => absurd rfl hm.2⟩
  | cons flag rest ih =>
    obtain ⟨interior, referenceOnly⟩ := flag
    obtain ⟨g₁, c, hok, hs, hkeep, hset, hnew⟩ := h.ensureContent hn.1 hn.2 interior referenceOnly
    have hc : g₁.Live c := ⟨hs.target_has n c hset, hs.target_live n c hset⟩
    obtain ⟨-, he, -⟩ := ensureContent_extends h.toShape hn.2 hok
    obtain ⟨g', hok', hs', hh, hfurnished⟩ := ih g₁ c hs hc
    refine ⟨g', ?_, hs', hh.trans (label_of_header he.header), fun hlast hint =>
      hfurnished (fun last hl => ?_) fun m hl hi => ?_⟩
    · show (g.ensureContent n interior referenceOnly >>= fun r => r.1.ensureContents r.2 rest) = _
      rw [hok]
      exact hok'
    · refine hlast last ?_
      rw [List.getLast?_cons, hl]
      rfl
    · rcases hnew m hi with hi | ⟨rfl, rfl⟩
      · rw [he.merged] at hl
        rcases hint m hl hi with hsome | ⟨rfl, -⟩
        · exact .inl (by rw [hkeep m hsome]; exact hsome)
        · exact .inl (by rw [hset]; rfl)
      · -- an interior node is not the last one
        refine .inr ⟨rfl, ?_⟩
        rintro rfl
        exact absurd (hlast _ rfl) (by simp)

/-- **An edit of a steady graph succeeds, and the graph stays steady.** If it is plain, interior
nodes keep having contents. -/
theorem Steady.edit (h : Steady g) {e : Edit} (hlive : e.OnLive g) (hunspliced : e.Unspliced g) :
    ∃ g', e.apply g = .ok g' ∧ Steady g' ∧ g'.label = g.label ∧
      (e.Plain g → Furnished g → Furnished g') := by
  have hquiet : ∀ {k}, Quiet g k → Shape k nobody →
      ∃ g', Except.ok (ε := Fault) k = .ok g' ∧ Steady g' ∧ g'.label = g.label ∧
        (e.Plain g → Furnished g → Furnished g') := fun hq hs =>
    ⟨_, rfl, h.quiet hq hs, hq.label, fun _ hfurnished => hfurnished.quiet hq⟩
  cases e with
  | enter a => exact hquiet (enter_quiet h.toShape a) (enter_extends h.toShape a).1
  | enterReturn => exact hquiet (ensureReturn_quiet g) (ensureReturn_extends h.toShape).1
  | contents n flags =>
    obtain ⟨g', hok, hs, hh, hfurnished⟩ := Steady.ensureContents flags g n h hlive
    exact ⟨g', hok, hs, hh, fun hplain hg => hfurnished hplain fun m hl hi => .inl (hg m hl hi)⟩
  | bind v n =>
    have hn : g.Live n := hlive
    rw [Edit.apply, bind_of_new hn h.toShape hunspliced]
    exact hquiet (.mapValue hn.2 v) (h.toShape.mapValue hn.1 hn.2 hunspliced)
  | defer src dst =>
    obtain ⟨hs, hd⟩ : g.Live src ∧ g.Live dst := hlive
    obtain ⟨g', r, b, hok, hst, hfurnished, -⟩ := h.deferTracked hs.1 hd.1 hs.2 hd.2
    obtain ⟨-, -, -, ⟨ψ, hc⟩, -⟩ := deferTracked_shape h.toShape h.settled hd.2 hok
    refine ⟨g', ?_, hst, label_of_header hc.header, fun _ => hfurnished⟩
    simp only [Edit.apply, Graph.defer, hok, ok_bind]
    rfl
  | raise n s =>
    exact hquiet (.raises (raise_raises g n s)) ((raise_raises g n s).shape h.toShape)
  | propagate =>
    exact hquiet (.raises (propagate_raises g)) ((propagate_raises g).shape h.toShape)
  | use n i =>
    obtain ⟨hq, hs⟩ := addUsePoint_quiet h.toShape n i
    exact hquiet hq hs
  | forget i results =>
    obtain ⟨hq, hs⟩ := forget_quiet h.toShape i results
    exact hquiet hq hs
  | splice | useAll | clear | invalidate => exact absurd hunspliced id

/-- **One plain edit** of live nodes completes, and the graph is stable again. -/
theorem Stable.edit (h : Stable g) {e : Edit} (hlive : e.OnLive g) (hplain : e.Plain g) :
    ∃ g', e.apply g = .ok g' ∧ Stable g' ∧ g'.label = g.label := by
  obtain ⟨g', hok, hs, hh, hfurnished⟩ := h.toSteady.edit hlive hplain.unspliced
  exact ⟨g', hok, ⟨hs, hfurnished hplain h.interior⟩, hh⟩

end Escape.Graph
