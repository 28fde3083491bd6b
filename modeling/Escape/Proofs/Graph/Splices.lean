import Escape.Proofs.Graph.Evolves

/-!
# What a splice does

A splice moves the destination graph forward. What the source says about the mapped nodes holds in
the destination afterwards: a node stands for a global one only if it is global, and nodes that
stand for the two ends of a chain of defer edges are tied.

- `Graph.spliceContents_spec`, `Graph.spliceDefers_spec`: the two parts of a splice.
- `Graph.splice_spec`: the whole splice. If it reports no change it made none.
-/

namespace Escape

namespace AssocMap

variable {κ α : Type} [DecidableEq κ]

theorem write_of_lookup_none {k : κ} {a : α} {l : List (κ × α)} (h : lookup k l = none) :
    write k a l = l ++ [(k, a)] := by
  induction l with
  | nil => rfl
  | cons e rest ih =>
    obtain ⟨k', a'⟩ := e
    by_cases hk : k' = k
    · simp [lookup, hk] at h
    · simp only [lookup, if_neg hk] at h
      simp only [write, if_neg hk, ih h, List.cons_append]

theorem mem_of_lookup {k : κ} {a : α} {l : List (κ × α)} (h : lookup k l = some a) :
    (k, a) ∈ l := by
  induction l with
  | nil => cases h
  | cons e rest ih =>
    obtain ⟨k', a'⟩ := e
    by_cases hk : k' = k
    · simp only [lookup, if_pos hk, Option.some.injEq] at h
      rw [hk, h]
      exact List.mem_cons_self
    · simp only [lookup, if_neg hk] at h
      exact List.mem_cons_of_mem _ (ih h)

theorem lookup_append {k : κ} {a : α} {l l' : List (κ × α)} (h : lookup k l = some a) :
    lookup k (l ++ l') = some a := by
  induction l with
  | nil => cases h
  | cons e rest ih =>
    obtain ⟨k', a'⟩ := e
    by_cases hk : k' = k
    · simpa only [List.cons_append, lookup, if_pos hk] using h
    · simp only [lookup, if_neg hk] at h
      simp only [List.cons_append, lookup, if_neg hk, ih h]

end AssocMap

namespace NodeMap

variable {m m' : NodeMap} {src dst : NodeId}

/-- The map `m'` was made from `m` by adding nodes at its end. -/
def Grows (m m' : NodeMap) : Prop := m.pairs.entries <+: m'.pairs.entries

theorem Grows.refl (m : NodeMap) : m.Grows m := List.prefix_rfl

theorem Grows.trans {m'' : NodeMap} (h : m.Grows m') (h' : m'.Grows m'') : m.Grows m'' :=
  List.IsPrefix.trans h h'

theorem grows_add (m : NodeMap) (src dst : NodeId) : m.Grows (m.add src dst) := by
  unfold add
  split
  · exact .refl m
  · rename_i hnew
    have hnone : AssocMap.lookup src m.pairs.entries = none := by
      simpa [AssocMap.contains, AssocMap.find?] using hnew
    exact ⟨[(src, dst)], (AssocMap.write_of_lookup_none hnone).symm⟩

theorem Grows.find? (h : m.Grows m') (hm : m.pairs.find? src = some dst) :
    m'.pairs.find? src = some dst := by
  obtain ⟨l, hl⟩ := h
  rw [AssocMap.find?, ← hl]
  exact AssocMap.lookup_append hm

theorem Grows.getElem? {j : Nat} {e : NodeId × NodeId} (h : m.Grows m')
    (hj : m.pairs.entries[j]? = some e) : m'.pairs.entries[j]? = some e := by
  obtain ⟨l, hl⟩ := h
  rw [← hl, List.getElem?_append_left (List.getElem?_eq_some_iff.mp hj).1]
  exact hj

theorem mem_sources (h : m.pairs.find? src = some dst) : src ∈ m.sources :=
  List.mem_map.mpr ⟨_, AssocMap.mem_of_lookup h, rfl⟩

/-- What is mapped after adding a node. -/
theorem find?_add (m : NodeMap) (src dst n : NodeId) : (m.add src dst).pairs.find? n =
    if src = n ∧ m.pairs.find? src = none then some dst else m.pairs.find? n := by
  unfold add
  cases h : m.pairs.find? src with
  | some d => simp [AssocMap.contains, h]
  | none =>
    simp only [AssocMap.contains, h, Option.isSome_none, Bool.false_eq_true, if_false,
      AssocMap.find?_insert, and_true]

end NodeMap

namespace Graph

variable {g g' g'' source : Graph} {n src dst : NodeId} {M M' : NodeMap} {P B : ValueId → Prop}
  {changed changed' : Bool}

/-! ### Contents -/

/-- A live node with the representative of `n` escapes globally. -/
def Exposed (g : Graph) (n : NodeId) : Prop :=
  g.Has n ∧ ∃ k, g.Live k ∧ g.representative k = g.representative n ∧
    (g.node k).state = .globalEscaping

theorem globalEscaping_le {s : EscapeState} (h : .globalEscaping ≤ s) : s = .globalEscaping := by
  revert h
  cases s <;> decide

theorem Exposed.carries {ψ : NodeId → NodeId} (hc : Carries g g' ψ) (h : g.Exposed n) :
    g'.Exposed n := by
  obtain ⟨hn, k, hk, hrep, hstate⟩ := h
  refine ⟨hc.has_mono hn, ψ k, ⟨hc.has k hk.1, hc.live k hk.1 hk.2⟩, ?_, ?_⟩
  · rw [hc.represents k hk.1, ← hc.merge k hk.1, hrep, hc.merge n hn]
  · have := hc.state k hk.1
    rw [hstate] at this
    exact globalEscaping_le this

theorem Exposed.isGlobal (hs : Settled g) (h : g.Exposed n) :
    (g.node (g.representative n)).state = .globalEscaping := by
  obtain ⟨-, k, hk, hrep, hstate⟩ := h
  rwa [← hrep, hs.representative_of_live hk.2]

/-- A graph in which some merges may be pending, each of them once. -/
structure Queued (g : Graph) : Prop where
  shape : Shape g (· ∈ g.pending)
  nodup : g.pending.Nodup

theorem Settled.queued (h : Settled g) : Queued g := by
  have hp : (fun n => n ∈ g.pending) = nobody := by
    funext n
    rw [h.pending]
    exact propext (List.mem_nil_iff n)
  exact ⟨by rw [hp]; exact h.toShape, by rw [h.pending]; exact .nil⟩

/-- One step of carrying over contents: the graph moves on by `Carries`, and the map grows. -/
structure Carried (g g' : Graph) (M M' : NodeMap) : Prop where
  queued : Queued g'
  carries : Carries g g' id
  grows : M.Grows M'

theorem Carried.refl (h : Queued g) (M : NodeMap) : Carried g g M M :=
  ⟨h, .refl h.shape.forest, .refl M⟩

theorem Carried.trans {M'' : NodeMap} (hg : Queued g) (h : Carried g g' M M')
    (h' : Carried g' g'' M' M'') : Carried g g'' M M'' :=
  ⟨h'.queued, h.carries.trans h'.carries hg.shape h.queued.shape, h.grows.trans h'.grows⟩

/-- An operation without merges that maps no value. -/
theorem Carried.of_extends (hg : Queued g) (hs : Shape g' (· ∈ g.pending)) (he : Extends g g')
    (hp : g'.pending = g.pending) (hv : g'.values = g.values) (hsup : Supplies g g' id)
    (hM : M.Grows M') : Carried g g' M M' :=
  ⟨⟨by rw [hp]; exact hs, by rw [hp]; exact hg.nodup⟩,
    ⟨he.conveys hg.shape.forest fun v h => by rwa [hv] at h, hsup⟩, hM⟩

/-- Raising a state that is large enough already changes nothing. -/
theorem raise_unchanged {s : EscapeState} (h : (g.raise n s).2 = false) : (g.raise n s).1 = g := by
  have hle : ¬ (g.node (g.representative n)).state < s := of_decide_eq_false h
  exact modify_raise_of_le (Nat.le_of_not_lt hle)

/-- Lets `n` escape globally if the condition holds. -/
def raiseIf (c : Bool) (g : Graph) (n : NodeId) : Graph × Bool :=
  if c then g.raise n .globalEscaping else (g, false)

theorem raiseIf_raises (c : Bool) (g : Graph) (n : NodeId) : Raises g (raiseIf c g n).1 := by
  unfold raiseIf
  split
  · exact raise_raises g n _
  · exact .refl g

theorem raiseIf_unchanged {c : Bool} (h : (raiseIf c g n).2 = false) : (raiseIf c g n).1 = g := by
  unfold raiseIf at h ⊢
  split
  · rename_i hc
    rw [if_pos hc] at h
    exact raise_unchanged h
  · rfl

theorem raiseIf_exposed (hg : Queued g) (hn : g.Has n) : (raiseIf true g n).1.Exposed n := by
  have hr := raiseIf_raises true g n
  have he := hr.toExtends
  have hrep := hg.shape.forest.has_representative hn
  refine ⟨he.has hn, g.representative n, ⟨he.has hrep, ?_⟩, ?_, ?_⟩
  · rw [he.merged, hg.shape.merged_representative]
  · rw [he.representative hg.shape.forest, he.representative hg.shape.forest,
      hg.shape.forest.representative_representative]
  · show ((g.modify (g.representative n) _).node _).state = _
    rw [node_modify_self hrep]
    exact globalEscaping_le (EscapeState.le_join_right _ _)

theorem resolve?_ok {d : NodeId} (h : M.resolve? g n = .ok (some d)) :
    ∃ e, g.Has e ∧ d = g.representative e := by
  unfold NodeMap.resolve? NodeMap.get? at h
  cases hf : M.pairs.find? n with
  | none =>
    rw [hf] at h
    cases h
  | some e =>
    rw [hf] at h
    obtain ⟨_, he, h⟩ := bind_ok.mp h
    cases h
    exact ⟨e, require_ok.mp he, rfl⟩

/-- Carries over the contents of one node, after the node was raised. -/
def carryContent (source : Graph) (src dst : NodeId) (M : NodeMap) (g : Graph) (raised : Bool) :
    Checked (Graph × NodeMap × Bool) :=
  let x := g.node dst
  if decide ((source.node src).state = .globalEscaping) && (!x.interior || x.pointsTo.isSet) then
    return (g, M, raised)
  else
    match source.content? src with
    | none => return (g, M, raised)
    | some c => do
      match ← M.resolve? g c, g.content? dst with
      | none, some d => return (g, M.add c d, raised)
      | none, none =>
        let y := source.node c
        let (g, d) ← g.createContent dst y.interior y.referenceOnly
        return (g, M.add c d, true)
      | some d, some d' =>
        if d' = d then return (g, M, raised) else return (g.schedule d' d, M, true)
      | some d, none => return (← g.spread dst d true, M, true)

theorem spliceContent_eq : spliceContent source src dst g M =
    carryContent source src dst M
      (raiseIf (decide ((source.node src).state = .globalEscaping)) g dst).1
      (raiseIf (decide ((source.node src).state = .globalEscaping)) g dst).2 := by
  unfold spliceContent raiseIf carryContent
  rfl

/-- The ways in which carrying over the content of `src` can go. -/
inductive Carry (source : Graph) (src dst : NodeId) (M : NodeMap) (g : Graph) (raised : Bool) :
    Graph → NodeMap → Bool → Prop
  /-- There is nothing to carry over. -/
  | stop : (source.node src).state = .globalEscaping ∨ source.content? src = none →
    Carry source src dst M g raised g M raised
  /-- The content is new to the map, and stands for the content of `dst`. -/
  | adopt {c d : NodeId} : source.content? src = some c → M.resolve? g c = .ok none →
    g.content? dst = some d → Carry source src dst M g raised g (M.add c d) raised
  /-- The content is new to the map, and one is made for `dst`. -/
  | create {c d : NodeId} {g' : Graph} : source.content? src = some c → M.resolve? g c = .ok none →
    g.content? dst = none →
    g.createContent dst (source.node c).interior (source.node c).referenceOnly = .ok (g', d) →
    Carry source src dst M g raised g' (M.add c d) true
  /-- The content stands for the content of `dst` already. -/
  | same {c d : NodeId} : source.content? src = some c → M.resolve? g c = .ok (some d) →
    Carry source src dst M g raised g M raised
  /-- The content stands for another node, which is merged with the content of `dst`. -/
  | merge {c d d' : NodeId} : source.content? src = some c → M.resolve? g c = .ok (some d) →
    g.content? dst = some d' → d' ≠ d → Carry source src dst M g raised (g.schedule d' d) M true
  /-- What the content stands for becomes the content of `dst`. -/
  | give {c d : NodeId} {g' : Graph} : source.content? src = some c →
    M.resolve? g c = .ok (some d) → g.content? dst = none → g.spread dst d true = .ok g' →
    Carry source src dst M g raised g' M true

theorem carryContent_ok {raised : Bool} (hok :
      carryContent source src dst M g raised = .ok (g', M', changed)) :
    Carry source src dst M g raised g' M' changed := by
  unfold carryContent at hok
  dsimp only at hok
  split at hok
  · rename_i hstop
    cases hok
    rw [Bool.and_eq_true] at hstop
    exact .stop (.inl (of_decide_eq_true hstop.1))
  · split at hok
    · rename_i hnone
      cases hok
      exact .stop (.inr hnone)
    · rename_i c hc
      obtain ⟨d?, hd?, hok⟩ := bind_ok.mp hok
      split at hok
      · rename_i d hd
        cases hok
        exact .adopt hc hd? hd
      · rename_i hnone
        obtain ⟨⟨g₂, d⟩, h₂, hok⟩ := bind_ok.mp hok
        cases hok
        exact .create hc hd? hnone h₂
      · rename_i d d' hd'
        split at hok
        · cases hok
          exact .same hc hd?
        · rename_i hne
          cases hok
          exact .merge hc hd? hd' hne
      · rename_i d hnone
        obtain ⟨g₂, h₂, hok⟩ := bind_ok.mp hok
        cases hok
        exact .give hc hd? hnone h₂

/-- Carrying over the contents of one node. -/
theorem spliceContent_spec (hg : Queued g) (hdst : g.Has dst) (hroot : g.representative dst = dst)
    (hok : spliceContent source src dst g M = .ok (g', M', changed)) :
    Carried g g' M M' ∧ ((source.node src).state = .globalEscaping → g'.Exposed dst) ∧
      (changed = false → g' = g) := by
  have hr := raiseIf_raises (decide ((source.node src).state = .globalEscaping)) g dst
  have hun := raiseIf_unchanged (g := g) (n := dst)
    (c := decide ((source.node src).state = .globalEscaping))
  have hexp : (source.node src).state = .globalEscaping →
      (raiseIf (decide ((source.node src).state = .globalEscaping)) g dst).1.Exposed
      dst := fun h => by
    rw [decide_eq_true h]
    exact raiseIf_exposed hg hdst
  rw [spliceContent_eq] at hok
  generalize raiseIf (decide ((source.node src).state = .globalEscaping)) g dst =
    acc at hr hun hexp hok
  obtain ⟨g₁, raised⟩ := acc
  have he := hr.toExtends
  have hc₁ : Carried g g₁ M M :=
    .of_extends hg (hr.shape hg.shape) he hr.pending hr.values hr.sameEdges.supplies (.refl M)
  have hlive : g₁.Has dst ∧ (g₁.node dst).merged = false := by
    refine ⟨he.has hdst, ?_⟩
    rw [he.merged, ← hroot]
    exact hg.shape.merged_representative dst
  -- all further steps carry on from there
  have hstep : ∀ {k : Graph} {N : NodeMap}, Carried g₁ k M N →
      Carried g k M N ∧ ((source.node src).state = .globalEscaping → k.Exposed dst) := fun hk =>
    ⟨hc₁.trans hg hk, fun hglobal => (hexp hglobal).carries hk.carries⟩
  have hq₁ := hc₁.queued
  have hstay : ∀ N : NodeMap, M.Grows N → Carried g₁ g₁ M N := fun N hN =>
    ⟨hq₁, .refl hq₁.shape.forest, hN⟩
  have hhas : ∀ {c d}, M.resolve? g₁ c = .ok (some d) → g₁.Has d := fun hd => by
    obtain ⟨e, he, rfl⟩ := resolve?_ok hd
    exact hq₁.shape.forest.has_representative he
  have hbare : g₁.content? dst = none → g₁.target? dst = none := fun hnone => by
    simpa [content?_eq] using hnone
  cases carryContent_ok hok with
  | stop _ => exact and_assoc.mp ⟨hstep (hstay M (.refl M)), hun⟩
  | same _ _ => exact and_assoc.mp ⟨hstep (hstay M (.refl M)), hun⟩
  | @adopt c d _ _ _ => exact and_assoc.mp ⟨hstep (hstay _ (M.grows_add c d)), hun⟩
  | @create c d _ _ _ hnone h₂ =>
    obtain ⟨hs₂, he₂, hp₂, hv₂⟩ := createContent_extends hq₁.shape hlive.1 hlive.2 (hbare hnone) h₂
    have hsup := createContent_supplies hq₁.shape hlive.1 (hbare hnone) h₂
    exact and_assoc.mp ⟨hstep (.of_extends hq₁ hs₂ he₂ hp₂ hv₂ hsup (M.grows_add c d)), nofun⟩
  | @merge c d d' _ hd hd' _ =>
    have hd'' : g₁.Has d' := by
      rw [content?_eq, Option.map_eq_some_iff] at hd'
      obtain ⟨t, ht, rfl⟩ := hd'
      exact hq₁.shape.forest.has_representative (hq₁.shape.target_has dst t ht)
    obtain ⟨hs₂, hnd₂, hc₂⟩ := schedule_shape hq₁.shape hq₁.nodup hd'' (hhas hd)
    exact and_assoc.mp ⟨hstep ⟨⟨hs₂, hnd₂⟩, hc₂, .refl M⟩, nofun⟩
  | give _ hd hnone h₂ =>
    obtain ⟨hs₂, he₂, hp₂, hv₂⟩ :=
      hq₁.shape.spread hlive.1 hlive.2 (fun _ => hbare hnone) (hhas hd) h₂
    obtain ⟨hsus, hpass⟩ := hq₁.shape.spread_sustains hlive.1 (fun _ => hbare hnone) h₂
    have hsup : Supplies g₁ g' id := .of_sustains hsus (hpass _)
    exact and_assoc.mp ⟨hstep (.of_extends hq₁ hs₂ he₂ hp₂ hv₂ hsup (.refl M)), nofun⟩

/-- One round of `spliceContents`: all entries have had their turn, or it is that of number `i`. -/
theorem spliceContents_succ_ok {bound i : Nat}
    (hok : spliceContents source (bound + 1) i g M changed = .ok (g', M', changed')) :
    (∀ j, i ≤ j → M.pairs.entries[j]? = none) ∧ g' = g ∧ M' = M ∧ changed' = changed ∨
      ∃ src dst g₁ M₁ c, M.pairs.entries[i]? = some (src, dst) ∧ g.Has dst ∧
        spliceContent source src (g.representative dst) g M = .ok (g₁, M₁, c) ∧
        spliceContents source bound (i + 1) g₁ M₁ (changed || c) = .ok (g', M', changed') := by
  unfold spliceContents at hok
  split at hok
  · rename_i hend
    cases hok
    refine .inl ⟨fun j hj => ?_, rfl, rfl, rfl⟩
    exact List.getElem?_eq_none (Nat.le_trans (List.getElem?_eq_none_iff.mp hend) hj)
  · rename_i src dst hentry
    obtain ⟨_, hdst, hok⟩ := bind_ok.mp hok
    obtain ⟨_, -, hok⟩ := bind_ok.mp hok
    obtain ⟨⟨g₁, M₁, c⟩, h₁, hok⟩ := bind_ok.mp hok
    exact .inr ⟨src, dst, g₁, M₁, c, hentry, require_ok.mp hdst, h₁, hok⟩

/-- Carrying over the contents of the mapped nodes from number `i` on. -/
theorem spliceContents_spec (bound i : Nat) (g : Graph) (M : NodeMap) (changed : Bool)
    {g' : Graph} {M' : NodeMap} {changed' : Bool} (hg : Queued g)
    (hok : spliceContents source bound i g M changed = .ok (g', M', changed')) :
    Carried g g' M M' ∧ (changed' = false → changed = false ∧ g' = g) ∧ ∀ j a b, i ≤ j →
    j < i + bound → M'.pairs.entries[j]? = some (a, b) → g'.Has b ∧
    ((source.node a).state = .globalEscaping → g'.Exposed b) := by
  induction bound generalizing i g M changed g' M' changed' with
  | zero =>
    cases hok
    exact ⟨.refl hg M, fun h => ⟨h, rfl⟩, fun j a b h₁ h₂ => by omega⟩
  | succ bound ih =>
    rcases spliceContents_succ_ok hok with ⟨hend, rfl, rfl, rfl⟩ |
      ⟨src, dst, g₁, M₁, c, hentry, hhas, h₁, hok⟩
    · refine ⟨.refl hg _, fun h => ⟨h, rfl⟩, fun j a b hj _ hab => ?_⟩
      cases (hend j hj).symm.trans hab
    · have hforest := hg.shape.forest
      obtain ⟨hc₁, hexp, hun⟩ := spliceContent_spec hg (hforest.has_representative hhas)
        (hforest.representative_representative dst) h₁
      obtain ⟨hc', hun', hrest⟩ := ih (i + 1) g₁ M₁ (changed || c) hc₁.queued hok
      refine ⟨hc₁.trans hg hc', fun h => ?_, fun j a b hj hb hab => ?_⟩
      · obtain ⟨hor, rfl⟩ := hun' h
        rw [Bool.or_eq_false_iff] at hor
        exact ⟨hor.1, hun hor.2⟩
      -- Mappings are only added, so entry `i` is the same in the end.
      · by_cases hij : i = j
        · subst hij
          rw [(hc₁.trans hg hc').grows.getElem? hentry] at hab
          cases hab
          have hhas' := (hc₁.trans hg hc').carries.has_mono hhas
          refine ⟨hhas', fun hglobal => ?_⟩
          have := (hexp hglobal).carries hc'.carries
          obtain ⟨-, k, hk, hrep, hstate⟩ := this
          refine ⟨hhas', k, hk, ?_, hstate⟩
          rw [hrep, (hc₁.trans hg hc').carries.merge dst hhas]
        · exact hrest j a b (by omega) (by omega) hab

/-! ### Defer edges -/

/-- A defer edge that was there already changes nothing. -/
theorem deferTracked_unchanged {f t k : NodeId} (hs : Settled g) (hf : (g.node f).merged = false)
    (ht : (g.node t).merged = false) (hok : g.deferTracked f t = .ok (g', k, false)) : g' = g := by
  rcases deferTracked_ok hok with ⟨-, rfl, -⟩ | ⟨hne, hnew, -, -, -, g₁, g₂, merged,
    added, h₁, h₂, -, he⟩
  · rfl
  · exfalso
    obtain ⟨rfl, rfl⟩ := Bool.or_eq_false_iff.mp he.symm
    have hg₁ : g₁ = g := by
      unfold mergeContents at h₁
      split at h₁
      · split at h₁
        · cases h₁
          rfl
        · obtain ⟨_, -, h₁⟩ := bind_ok.mp h₁
          cases h₁
      · cases h₁
        rfl
    subst hg₁
    rw [hs.representative_of_live hf, hs.representative_of_live ht] at h₂
    rcases addDefer_cases h₂ with ⟨-, ⟨-, -, hor⟩ | ⟨-, hadd, -⟩⟩
    · exact hor.elim hne hnew
    · cases hadd

/-- The ways in which carrying over that a node defers to `n` can go. -/
inductive DeferCarry (source : Graph) (M : NodeMap) (n : NodeId) (acc : Graph × NodeId × Bool) :
    Graph × NodeId × Bool → Prop
  /-- The node `n` is mapped, and a defer edge leads to what it stands for. -/
  | link {d k : NodeId} {g' : Graph} {c : Bool} : M.get? acc.1 n = some d →
    acc.1.deferTracked acc.2.1 d = .ok (g', k, c) → DeferCarry source M n acc (g', k, acc.2.2 || c)
  /-- It is not mapped and escapes globally, and so does what defers to it. -/
  | raise : M.get? acc.1 n = none → (source.node n).state = .globalEscaping →
    DeferCarry source M n acc ((acc.1.raise acc.2.1 .globalEscaping).1, acc.2.1,
      acc.2.2 || (acc.1.raise acc.2.1 .globalEscaping).2)
  /-- It does not matter. -/
  | skip : M.get? acc.1 n = none → (source.node n).state ≠ .globalEscaping →
    DeferCarry source M n acc acc

theorem spliceDefer_ok {acc acc' : Graph × NodeId × Bool}
    (hok : spliceDefer source M acc n = .ok acc') : DeferCarry source M n acc acc' := by
  unfold spliceDefer at hok
  dsimp only at hok
  split at hok
  · rename_i hd
    obtain ⟨_, h₁, hok⟩ := bind_ok.mp hok
    cases hok
    exact .link hd h₁
  · rename_i hnone
    split at hok
    · rename_i hglobal
      cases hok
      exact .raise hnone hglobal
    · rename_i hlocal
      cases hok
      exact .skip hnone hlocal

theorem spliceDefers_ok {acc acc' : Graph × Bool} (hok : spliceDefers source M acc src = .ok acc') :
    M.get? acc.1 src = none ∧ acc' = acc ∨ ∃ dst g₁ k c, M.get? acc.1 src = some dst ∧
      (closure (fun n => (source.node n).defersTo) source.size src).foldlM (spliceDefer source M)
        (acc.1, dst, acc.2) = .ok (g₁, k, c) ∧ acc' = (g₁, c) := by
  unfold spliceDefers at hok
  dsimp only at hok
  split at hok
  · rename_i hnone
    cases hok
    exact .inl ⟨hnone, rfl⟩
  · rename_i dst hdst
    obtain ⟨⟨g₁, k, c⟩, h₁, hok⟩ := bind_ok.mp hok
    cases hok
    exact .inr ⟨dst, g₁, k, c, hdst, h₁, rfl⟩

theorem spliceDefer_spec {dst' : NodeId} (hs : Settled g) (hlive : (g.node dst).merged = false)
    (hok : spliceDefer source M (g, dst, changed) n = .ok (g', dst', changed')) :
    Evolves P B g g' ∧ dst' = g'.representative dst ∧
      (∀ d, M.pairs.find? n = some d → g'.Tied dst d) ∧
      (changed' = false → changed = false ∧ g' = g) ∧
      (g.Has dst → M.pairs.find? n = none → (source.node n).state = .globalEscaping →
        (g'.node (g'.representative dst)).state = .globalEscaping) := by
  have hno (hnone : M.get? g n = none) (d : NodeId) : M.pairs.find? n ≠ some d := fun hd => by
    rw [NodeMap.get?, hd] at hnone
    cases hnone
  have hroot := hs.representative_of_live hlive
  cases spliceDefer_ok hok with
  | link hd h₁ =>
    obtain ⟨e, he, rfl⟩ := Option.map_eq_some_iff.mp hd
    have hd' := hs.merged_representative e
    obtain ⟨hev, hk, htied⟩ := deferTracked_evolves (P := P) (B := B) hs hd' h₁
    refine ⟨hev, hk, fun d hd => ?_, fun hc => ?_, fun _ hno => ?_⟩
    · cases he.symm.trans hd
      rwa [Tied, hev.merge e, ← Tied] at htied
    · obtain ⟨hc₀, rfl⟩ := Bool.or_eq_false_iff.mp hc
      exact ⟨hc₀, deferTracked_unchanged hs hlive hd' h₁⟩
    · cases he.symm.trans hno
  | raise hnone _ =>
    have hr := raise_raises g dst .globalEscaping
    refine ⟨.raises hs hr, ?_, fun d hd => absurd hd (hno hnone d), fun hc => ?_,
      fun hhas _ _ => ?_⟩
    · rw [hr.toExtends.representative hs.forest, hroot]
    · obtain ⟨hc₀, hc⟩ := Bool.or_eq_false_iff.mp hc
      exact ⟨hc₀, raise_unchanged hc⟩
    · exact (raiseIf_exposed hs.queued hhas).isGlobal
        (Evolves.raises (P := P) (B := B) hs hr).settled
  | skip hnone hlocal =>
    exact ⟨.refl hs, hroot.symm, fun d hd => absurd hd (hno hnone d), fun hc => ⟨hc, rfl⟩,
      fun _ _ h => absurd h hlocal⟩

/-- Everything that a node defers to is found by the closure. -/
theorem mem_closure_defers (hs : Shape source nobody) (h : ReflTransGen source.Defers src n) :
    n ∈ closure (fun n => (source.node n).defersTo) source.size src := by
  rcases h.cases_head with rfl | ⟨k, hk, -⟩
  · exact mem_closure_self _ _ _
  · have hU : ∀ b ∈ closure (fun n => (source.node n).defersTo) source.size src,
      b ∈ source.nodeIds :=
      closure_induct (mem_nodeIds.mpr (Defers.has hk)) fun b c _ hc => mem_nodeIds.mpr
      (hs.has_of_defers hc)
    exact (mem_closure_iff hU (Nat.le_of_eq source.length_nodeIds) n).mpr h

/-- Carrying over everything that a mapped node defers to. -/
theorem spliceDefers_spec (hs : Settled g)
    (hok : spliceDefers source M (g, changed) src = .ok (g', changed')) :
    Evolves P B g g' ∧ (changed' = false → changed = false ∧ g' = g) ∧ (Shape source nobody →
      ∀ d n, M.pairs.find? src = some d → ReflTransGen source.Defers src n →
        (∀ e, M.pairs.find? n = some e → g'.Tied d e) ∧
        (g.Has d → M.pairs.find? n = none → (source.node n).state = .globalEscaping →
          (g'.node (g'.representative d)).state = .globalEscaping)) := by
  rcases spliceDefers_ok hok with ⟨hnone, e⟩ | ⟨dst, g₁, k, c, hdst, h₁, e⟩
  · cases e
    refine ⟨.refl hs, fun hc => ⟨hc, rfl⟩, fun _ d n hd => ?_⟩
    rw [NodeMap.get?, hd] at hnone
    cases hnone
  · obtain ⟨rfl, rfl⟩ := Prod.mk.inj e.symm
    obtain ⟨b, hb, rfl⟩ := Option.map_eq_some_iff.mp hdst
    -- the mapped node is known by its representative all along
    have hloop : Evolves P B g g₁ ∧ k = g₁.representative b ∧
        (c = false → changed = false ∧ g₁ = g) ∧
        ∀ n ∈ closure (fun n => (source.node n).defersTo) source.size src,
          (∀ e, M.pairs.find? n = some e → g₁.Tied b e) ∧
          (g.Has b → M.pairs.find? n = none → (source.node n).state = .globalEscaping →
            (g₁.node (g₁.representative b)).state = .globalEscaping) := by
      refine foldlM_of_ok (P := fun done acc => Evolves P B g acc.1 ∧
        acc.2.1 = acc.1.representative b ∧ (acc.2.2 = false → changed = false ∧ acc.1 = g) ∧
        ∀ n ∈ done, (∀ e, M.pairs.find? n = some e → acc.1.Tied b e) ∧
          (g.Has b → M.pairs.find? n = none → (source.node n).state = .globalEscaping →
            (acc.1.node (acc.1.representative b)).state = .globalEscaping)) ?_ ?_ h₁
      · rintro done n rest ⟨g₂, k₂, c₂⟩ ⟨g₃, k₃, c₃⟩ - ⟨hev, hk₂, hun, hdone⟩ hstep
        dsimp only at hev hk₂ hun hdone ⊢
        subst hk₂
        obtain ⟨hev', hk, htied, hun', hout⟩ := spliceDefer_spec (P := P) (B := B) hev.settled
          (hev.settled.merged_representative b) hstep
        refine ⟨hev.trans hev', by rw [hk]; exact hev'.merge b, fun hc => ?_, fun a ha => ?_⟩
        · obtain ⟨hc₂, rfl⟩ := hun' hc
          exact hun hc₂
        · rcases List.mem_append.mp ha with ha | ha
          · obtain ⟨htied₂, hout₂⟩ := hdone a ha
            exact ⟨fun e hae => hev'.tied b e (htied₂ e hae), fun hb hno hglobal =>
              hev'.isGlobal (hout₂ hb hno hglobal)⟩
          · cases List.mem_singleton.mp ha
            refine ⟨fun e hae => ?_, fun hb hno hglobal => ?_⟩
            · have := htied e hae
              rwa [Tied, hev'.merge b, ← Tied] at this
            · have := hout (hev.settled.forest.has_representative (hev.has hb)) hno hglobal
              rwa [hev'.merge b] at this
      · exact ⟨.refl hs, rfl, fun hc => ⟨hc, rfl⟩, by simp⟩
    refine ⟨hloop.1, hloop.2.2.1, fun hsource d n hd hreach => ?_⟩
    cases hb.symm.trans hd
    exact hloop.2.2.2 n (mem_closure_defers hsource hreach)

/-- Carrying over everything that the nodes of a list defer to. -/
theorem foldlM_spliceDefers_spec {l : List NodeId} (hs : Settled g)
    (hok : l.foldlM (spliceDefers source M) (g, changed) = .ok (g', changed')) :
    Evolves P B g g' ∧ (changed' = false → changed = false ∧ g' = g) ∧ (Shape source nobody →
      ∀ a ∈ l, ∀ d n, M.pairs.find? a = some d → ReflTransGen source.Defers a n →
        (∀ e, M.pairs.find? n = some e → g'.Tied d e) ∧
        (g.Has d → M.pairs.find? n = none → (source.node n).state = .globalEscaping →
          (g'.node (g'.representative d)).state = .globalEscaping)) := by
  refine foldlM_of_ok (P := fun done acc => Evolves P B g acc.1 ∧
    (acc.2 = false → changed = false ∧ acc.1 = g) ∧ (Shape source nobody →
      ∀ a ∈ done, ∀ d n, M.pairs.find? a = some d → ReflTransGen source.Defers a n →
        (∀ e, M.pairs.find? n = some e → acc.1.Tied d e) ∧
        (g.Has d → M.pairs.find? n = none → (source.node n).state = .globalEscaping →
          (acc.1.node (acc.1.representative d)).state = .globalEscaping))) ?_
    ⟨.refl hs, fun hc => ⟨hc, rfl⟩, by simp⟩ hok
  rintro done a rest ⟨g₁, c₁⟩ ⟨g₂, c₂⟩ - ⟨hev, hun, hdone⟩ hstep
  dsimp only at hev hun hdone ⊢
  obtain ⟨hev', hun', hreached⟩ := spliceDefers_spec (P := P) (B := B) hev.settled hstep
  refine ⟨hev.trans hev', fun hc => ?_, fun hsource b hb d n hd hreach => ?_⟩
  · obtain ⟨hc₁, rfl⟩ := hun' hc
    exact hun hc₁
  · rcases List.mem_append.mp hb with hb | hb
    · obtain ⟨htied, hout⟩ := hdone hsource b hb d n hd hreach
      exact ⟨fun e hn => hev'.tied d e (htied e hn), fun hhas hno hglobal =>
        hev'.isGlobal (hout hhas hno hglobal)⟩
    · cases List.mem_singleton.mp hb
      obtain ⟨htied, hout⟩ := hreached hsource d n hd hreach
      exact ⟨htied, fun hhas => hout (hev.has hhas)⟩

/-! ### The whole splice -/

theorem settle_of_nil (hp : g.pending = []) : g.settle = .ok g := settleUpTo_nil hp _

theorem valid_of_splice (hok : g.splice source M = .ok (g', M', changed)) :
    g.valid = true ∧ source.valid = true := by
  unfold splice at hok
  split at hok
  · cases hok
  · rename_i hv
    rwa [Bool.not_eq_true', Bool.not_eq_false, Bool.and_eq_true] at hv

theorem splice_valid (hok : g.splice source M = .ok (g', M', changed)) : g.valid = true :=
  (valid_of_splice hok).1

/-- The parts of a splice. -/
theorem splice_ok (hok : g.splice source M = .ok (g', M', changed)) :
    ∃ g₁ c₁ g₂, spliceContents source (M.size + source.size) 0 g M false = .ok (g₁, M', c₁) ∧
      g₁.settle = .ok g₂ ∧ M'.sources.foldlM (spliceDefers source M')
      (g₂, c₁) = .ok (g', changed) := by
  unfold splice at hok
  split at hok
  · cases hok
  obtain ⟨⟨g₁, M₁, c₁⟩, h₁, hok⟩ := bind_ok.mp hok
  obtain ⟨g₂, h₂, hok⟩ := bind_ok.mp hok
  obtain ⟨⟨g₃, c₃⟩, h₃, hok⟩ := bind_ok.mp hok
  cases hok
  exact ⟨g₁, c₁, g₂, h₁, h₂, h₃⟩

/-- **What a splice does.** -/
theorem splice_spec (hs : Settled g) (hok : g.splice source M = .ok (g', M', changed)) :
    Evolves P B g g' ∧ (changed = false → g' = g) ∧
      (∀ a b, M.pairs.find? a = some b → (source.node a).state = .globalEscaping →
        (g'.node (g'.representative b)).state = .globalEscaping) ∧
      (Shape source nobody → ∀ a b a' b', M.pairs.find? a = some b → M.pairs.find? a' = some b' →
        ReflTransGen source.Defers a a' → g'.Tied b b') := by
  obtain ⟨g₁, c₁, g₂, h₁, h₂, h₃⟩ := splice_ok hok
  obtain ⟨hc₁, hun₁, hexp⟩ := spliceContents_spec _ _ _ _ _ hs.queued h₁
  obtain ⟨hs₂, hp₂, ψ, hc₂⟩ := settle_shape hc₁.queued.shape hc₁.queued.nodup h₂
  have hset₂ : Settled g₂ := ⟨hs₂, hp₂⟩
  have hev₂ : Evolves P B g g₂ :=
    .of_carries hs hset₂ (hc₁.carries.trans hc₂ hs.queued.shape hc₁.queued.shape)
  obtain ⟨hev₃, hun₃, hreached⟩ := foldlM_spliceDefers_spec (P := P) (B := B) hset₂ h₃
  refine ⟨hev₂.trans hev₃, fun hc => ?_, fun a b hab hglobal => ?_,
    fun hsource a b a' b' hab hab' hreach => ?_⟩
  · obtain ⟨hc₁', rfl⟩ := hun₃ hc
    obtain ⟨-, rfl⟩ := hun₁ hc₁'
    rw [settle_of_nil hs.pending] at h₂
    cases h₂
    rfl
  · obtain ⟨j, hj⟩ := List.getElem?_of_mem (AssocMap.mem_of_lookup hab)
    have hlt : j < M.size := (List.getElem?_eq_some_iff.mp hj).1
    have hexposed := (hexp j a b (Nat.zero_le _) (by omega) (hc₁.grows.getElem? hj)).2 hglobal
    exact hev₃.isGlobal ((hexposed.carries hc₂).isGlobal hset₂)
  · have hab := hc₁.grows.find? hab
    exact (hreached hsource a (NodeMap.mem_sources hab) b a' hab hreach).1 b' (hc₁.grows.find? hab')

end Graph

end Escape
