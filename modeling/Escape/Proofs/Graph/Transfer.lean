import Escape.Proofs.Graph.Extent
import Escape.Proofs.Graph.Inheritance
import Escape.Proofs.Graph.WellFormed
import Mathlib.Order.Bounds.Basic

/-!
# What a splice transfers

States are relative to a function, so of the states of its source a splice carries over the global
escapes only. All graphs that pass their check will do: the map grows while its entries are gone
through, and their nodes are merged into others on the way, so an entry is followed through what
represents it.

- `Graph.splice_descends`: a splice inherits all states, and lets escape what the source lets out.
-/

namespace Escape.Graph

variable {g g' source : Graph} {n m a b c d k src dst : NodeId} {M M' : NodeMap}
  {changed : Bool} {R : NodeId → Prop} {queue : List NodeId}

/-! ### Checked graphs -/

theorem Tabled.root (ht : Tabled g) (h : WellFormed g) (hc : g.target? n = some c) : g.Rooted c :=
  .of_root (ht.target_has n c hc) (h.unscheduled c (h.target_live n c hc))

/-- A graph that passes its check is grounded, whatever its tombstones look like. -/
theorem Tabled.grounded (ht : Tabled g) (h : WellFormed g) : Grounded g g.pending where
  points _ _ hc := ht.root h hc
  live n hn := .of_root hn.1 (h.unscheduled n (isLive_eq_true.mpr hn.2))
  tomb n hn := (h.tombstone n (isLive_eq_false.mpr hn)).2.1
  nodup := by
    rw [ht.pending]
    exact .nil
  waits n := by
    rw [ht.pending]
    refine ⟨nofun, fun hn => ?_⟩
    rw [h.unscheduled n (isLive_eq_true.mpr hn.1)] at hn
    cases hn.2

theorem Tabled.has_content (ht : Tabled g) (h : WellFormed g)
    (hc : g.content? n = some c) : g.Has c := by
  rw [content?_eq, Option.map_eq_some_iff] at hc
  obtain ⟨t, ht', rfl⟩ := hc
  exact (ht.root h ht').has_representative

/-- In a checked graph everything along defer edges is found. -/
theorem WellFormed.mem_deferred_iff (h : WellFormed g) (hn : g.Has n) :
    k ∈ g.deferred n ↔ ReflTransGen g.Defers n k := by
  refine mem_closure_iff (closure_induct (mem_nodeIds.mpr hn) fun a b _ hb => mem_nodeIds.mpr ?_)
    (Nat.le_of_eq g.length_nodeIds) k
  exact has_of_pred ((h.defer_listed a b).mp hb)

/-! ### Nodes that escape -/

theorem Exposed.inherits (hg : Grounded g queue) (hi : Inherits R g g') (hn : g.Rooted n)
    (h : g.Exposed n) : g'.Exposed n := by
  obtain ⟨hhas, k, hk, hrep, hstate⟩ := h
  obtain ⟨m, hm, hrep', hle⟩ := hi.heir k hk
  refine ⟨hi.has hhas, m, hm, hrep'.trans (hi.representative_eq (hg.live k hk) hn hrep), ?_⟩
  rw [hstate] at hle
  exact globalEscaping_le hle

/-- Nodes with one representative are exposed together. -/
theorem Exposed.congr (h : g.Exposed n) (hm : g.Has m)
    (hrep : g.representative n = g.representative m) : g.Exposed m := by
  obtain ⟨-, k, hk, hrep', hstate⟩ := h
  exact ⟨hm, k, hk, hrep'.trans hrep, hstate⟩

/-- If nothing waits to be merged, the representative itself escapes. -/
theorem Exposed.global (hg : Grounded g []) (h : g.Exposed n) :
    (g.node (g.representative n)).state = .globalEscaping := by
  obtain ⟨-, k, hk, hrep, hstate⟩ := h
  rwa [← hrep, hg.representative_of_live hk]

namespace Grounded

/-- A node that represents one of `R` comes to escape. -/
theorem raise (h : Grounded g g.pending) (hn : g.Rooted n) (hR : Meets R g n) :
    Descends R g (g.raise n .globalEscaping).1 := by
  have he := (raise_raises g n .globalEscaping).sameEdges
  have hrep : (g.raise n .globalEscaping).1.representative (g.representative n) =
      (g.raise n .globalEscaping).1.representative n := he.sameLinks.coarsens.merge n hn
  refine h.descends he.sameLinks (h.sameEdges he).points (raise_raises g n _).pending fun m => ?_
  by_cases hm : m = g.representative n
  · obtain ⟨b, hb, hroot, hrepb⟩ := hR.coarsens he.sameLinks.coarsens hn
    subst hm
    refine .inr ⟨?_, b, hb, hroot, hrepb.trans hrep.symm⟩
    show ((g.modify (g.representative n) _).node _).state = _
    rw [node_modify_self hn.has_representative]
    exact globalEscaping_le (EscapeState.le_join_right _ _)
  · refine .inl ?_
    show ((g.modify (g.representative n) _).node m).state = _
    rw [node_modify_of_ne hm]

theorem raise_exposed (h : Grounded g queue) (hn : g.Rooted n) :
    (g.raise n .globalEscaping).1.Exposed n := by
  have hl := (raise_raises g n .globalEscaping).sameEdges.sameLinks
  have hrep := h.live_representative hn
  refine ⟨(hl.rooted hn).has, g.representative n, hl.live hrep, ?_, ?_⟩
  · rw [hl.representative hn.representative, hl.representative hn, hn.representative_representative]
  · show ((g.modify (g.representative n) _).node _).state = _
    rw [node_modify_self hrep.1]
    exact globalEscaping_le (EscapeState.le_join_right _ _)

end Grounded

/-! ### Contents -/

/-- Merge links come to an end from the entries of the map. -/
def Anchored (g : Graph) (M : NodeMap) : Prop := ∀ e ∈ M.pairs.entries, g.Rooted e.2

namespace Anchored

variable (h : Anchored g M)
include h

theorem find? (hb : M.pairs.find? a = some b) : g.Rooted b :=
  h (a, b) (AssocMap.mem_of_lookup hb)

theorem get? (hb : M.get? g a = some b) : g.Rooted b := by
  obtain ⟨e, he, rfl⟩ := Option.map_eq_some_iff.mp hb
  exact (h.find? he).representative

theorem add (hd : g.Rooted d) : Anchored g (M.add c d) := by
  intro e he
  rcases NodeMap.mem_add he with he | ⟨rfl, -⟩
  · exact h e he
  · exact hd

theorem inherits (hi : Inherits R g g') : Anchored g' M := fun e he => hi.rooted e.2 (h e he)

end Anchored

/-- Whatever is done for the content of a node, nodes keep together, and the new entry is anchored.
-/
theorem Carry.descends {raised : Bool} (hc : Carry source src dst M g raised g' M' changed)
    (h : Grounded g g.pending) (hM : Anchored g M) : Descends R g g' ∧ Anchored g' M' := by
  have hrooted : ∀ {c d}, M.resolve? g c = .ok (some d) → g.Rooted d := fun hd =>
    hM.get? (NodeMap.get?_of_resolve? hd)
  have hcontent : ∀ {d}, g.content? dst = some d → g.Rooted d := fun hd => by
    rw [content?_eq, Option.map_eq_some_iff] at hd
    obtain ⟨t, ht, rfl⟩ := hd
    exact (h.points dst t ht).representative
  have hkeep : Descends R g g' → Descends R g g' ∧ Anchored g' M :=
    fun hd => ⟨hd, hM.inherits hd.inherits⟩
  cases hc with
  | stop _ => exact hkeep (.refl h)
  | adopt _ _ hd => exact ⟨.refl h, hM.add (hcontent hd)⟩
  | create _ _ _ hnew =>
    obtain ⟨hd, hroot⟩ := h.createContent hnew
    exact ⟨hd, (hM.inherits hd.inherits).add hroot⟩
  | same _ _ => exact hkeep (.refl h)
  | merge _ hd hd' _ => exact hkeep (h.schedule (hcontent hd') (hrooted hd))
  | give _ hd _ hgive => exact hkeep (h.redirects (spread_redirects h.points (hrooted hd) hgive))

/-- One entry of the map. -/
theorem spliceContent_descends (h : Grounded g g.pending) (hM : Anchored g M) (hdst : g.Rooted dst)
    (hR : (source.node src).state = .globalEscaping → Meets R g dst)
    (hok : spliceContent source src dst g M = .ok (g', M', changed)) :
    Descends R g g' ∧ Anchored g' M' ∧ ((source.node src).state = .globalEscaping →
      g'.Exposed dst) := by
  rw [spliceContent_eq] at hok
  by_cases hglobal : (source.node src).state = .globalEscaping
  · rw [decide_eq_true hglobal] at hok
    have hraise := h.raise hdst (hR hglobal)
    obtain ⟨hd, hM'⟩ := (carryContent_ok hok).descends hraise.grounded (hM.inherits hraise.inherits)
    exact ⟨.trans h hraise hd, hM', fun _ =>
      (h.raise_exposed hdst).inherits hraise.grounded hd.inherits (hraise.inherits.rooted dst hdst)⟩
  · rw [decide_eq_false hglobal] at hok
    obtain ⟨hd, hM'⟩ := (carryContent_ok hok).descends h hM
    exact ⟨hd, hM', fun hg => absurd hg hglobal⟩

/-- The entries of the map from number `i` on, as far as the bound allows. -/
theorem spliceContents_descends (hs : ∀ a c, source.content? a = some c → source.Has c)
    (bound i : Nat) (g : Graph) (M : NodeMap) (changed : Bool) {g' : Graph} {M' : NodeMap}
    {changed' : Bool} (h : Grounded g g.pending) (hM : Anchored g M)
    (hok : spliceContents source bound i g M changed = .ok (g', M', changed'))
    (hR : (∀ e ∈ M'.pairs.entries, (source.node e.1).state = .globalEscaping → R e.2)) :
    Descends R g g' ∧ Anchored g' M' ∧ ∀ j a b, i ≤ j → j < i + bound →
    M'.pairs.entries[j]? = some (a, b) → (source.node a).state = .globalEscaping →
    g'.Exposed b := by
  induction bound generalizing i g M changed g' M' changed' with
  | zero =>
    cases hok
    exact ⟨.refl h, hM, fun j a b h₁ h₂ => by omega⟩
  | succ bound ih =>
    rcases spliceContents_succ_ok hok with ⟨hend, rfl, rfl, rfl⟩ |
      ⟨src, dst, g₁, M₁, c, hentry, -, h₁, hok⟩
    · refine ⟨.refl h, hM, fun j a b hj _ hab => ?_⟩
      cases (hend j hj).symm.trans hab
    · have hdst : g.Rooted dst := hM (src, dst) (List.mem_of_getElem? hentry)
      -- the entry keeps its place in the map
      have hplace : M'.pairs.entries[i]? = some (src, dst) :=
        (((spliceContent_handles h₁).enlarges hs).grows.trans
          (spliceContents_extent hs _ _ _ _ _ hok).1.grows).getElem? hentry
      obtain ⟨hd₁, hM₁, hexposed⟩ := spliceContent_descends h hM hdst.representative (fun hglobal =>
        ⟨dst, hR _ (List.mem_of_getElem? hplace) hglobal, hdst,
          hdst.representative_representative.symm⟩) h₁
      obtain ⟨hd', hM', hrest⟩ := ih (i + 1) g₁ M₁ _ hd₁.grounded hM₁ hok hR
      refine ⟨.trans h hd₁ hd', hM', fun j a b hj hb hab hglobal => ?_⟩
      by_cases hij : i = j
      · subst hij
        rw [hplace] at hab
        cases hab
        have hrooted := hd₁.inherits.rooted _ hdst
        exact ((hexposed hglobal).congr hrooted.has (hd₁.inherits.merge _ hdst)).inherits
          hd₁.grounded hd'.inherits hrooted
      · exact hrest j a b (by omega) (by omega) hab hglobal

/-! ### Defer edges -/

/-- Between defer edges: no merges are pending, and merge links come to an end from the entries of
the map. -/
structure Poised (g : Graph) (M : NodeMap) : Prop where
  grounded : Grounded g g.pending
  pending : g.pending = []
  anchored : Anchored g M

theorem Poised.descends (h : Poised g M) (hd : Descends R g g')
    (hp : g'.pending = []) : Poised g' M :=
  ⟨hd.grounded, hp, h.anchored.inherits hd.inherits⟩

/-- The second part of `acc` is what `b` has become. -/
structure Tracks (M : NodeMap) (b : NodeId) (acc : Graph × NodeId × Bool) : Prop where
  poised : Poised acc.1 M
  rooted : acc.1.Rooted b
  current : acc.1.Rooted acc.2.1
  same : acc.1.representative acc.2.1 = acc.1.representative b

/-- One node that is deferred to. -/
theorem Tracks.spliceDefer {acc acc' : Graph × NodeId × Bool} (h : Tracks M b acc)
    (hR : (source.node n).state = .globalEscaping → M.pairs.find? n = none → R b)
    (hok : spliceDefer source M acc n = .ok acc') : Tracks M b acc' ∧ Descends R acc.1 acc'.1 ∧
      ((source.node n).state = .globalEscaping → M.pairs.find? n = none → acc'.1.Exposed b) := by
  obtain ⟨g, dst, c₀⟩ := acc
  have hg := h.poised.grounded
  have hmoved : ∀ {g' dst' c'}, Descends R g g' → g'.pending = [] → dst' = dst ∨
    dst' = g'.representative dst →
      Tracks M b (g', dst', c') := fun {g' dst' c'} hd hp hdst => by
    have hcurrent := hd.inherits.rooted dst h.current
    have hsame := hd.inherits.representative_eq h.current h.rooted h.same
    refine ⟨h.poised.descends hd hp, hd.inherits.rooted b h.rooted, ?_, ?_⟩
    · rcases hdst with rfl | rfl
      · exact hcurrent
      · exact hcurrent.representative
    · rcases hdst with rfl | rfl
      · exact hsame
      · exact hcurrent.representative_representative.trans hsame
  cases spliceDefer_ok hok with
  | link hd h₁ =>
    obtain ⟨hdesc, hp⟩ := hg.deferTracked h₁
    refine ⟨hmoved hdesc (hp h.poised.pending) ?_, hdesc, fun _ hno => ?_⟩
    · rcases deferTracked_ok h₁ with ⟨-, -, rfl, -⟩ | ⟨-, -, -, -, rfl, -⟩
      · exact .inl rfl
      · exact .inr rfl
    · rw [NodeMap.get?, hno] at hd
      cases hd
  | raise hno hglobal =>
    have hdesc := hg.raise h.current
      ⟨b, hR hglobal (Option.map_eq_none_iff.mp hno), h.rooted, h.same.symm⟩
    refine ⟨hmoved hdesc ((raise_raises g dst _).pending.trans h.poised.pending) (.inl rfl),
      hdesc, fun _ _ => ?_⟩
    exact (hg.raise_exposed h.current).congr (hdesc.inherits.has h.rooted.has)
      (hdesc.inherits.representative_eq h.current h.rooted h.same)
  | skip _ hlocal => exact ⟨h, .refl hg, fun hglobal => absurd hglobal hlocal⟩

/-- What stands for `b` in the source and reaches an unmapped global escape has `P b`. -/
def Released (source : Graph) (M : NodeMap) (a : NodeId) (P : NodeId → Prop) : Prop :=
  ∀ b, M.pairs.find? a = some b → ∀ k ∈ source.deferred a, (source.node k).state = .globalEscaping →
    M.pairs.find? k = none → P b

/-- All nodes that one mapped node defers to. -/
theorem Poised.spliceDefers {acc acc' : Graph × Bool} (h : Poised acc.1 M)
    (hR : Released source M a R) (hok : spliceDefers source M acc a = .ok acc') :
    Poised acc'.1 M ∧ Descends R acc.1 acc'.1 ∧ Released source M a acc'.1.Exposed := by
  obtain ⟨g, c₀⟩ := acc
  rcases spliceDefers_ok hok with ⟨hno, rfl⟩ | ⟨dst, g₁, k, c₁, hdst, h₁, rfl⟩
  · refine ⟨h, .refl h.grounded, fun b hb => ?_⟩
    rw [NodeMap.get?, hb] at hno
    cases hno
  · obtain ⟨b, hb, rfl⟩ := Option.map_eq_some_iff.mp hdst
    have hroot := h.anchored.find? hb
    have hstart : Tracks M b (g, g.representative b, c₀) :=
      ⟨h, hroot, hroot.representative, hroot.representative_representative⟩
    -- what escaped stays exposed until the end
    obtain ⟨htracks, hdesc, hout⟩ := foldlM_of_ok
      (P := fun (done : List NodeId) (acc : Graph × NodeId × Bool) => Tracks M b acc ∧
      Descends R g acc.1 ∧
        ∀ k ∈ done, (source.node k).state = .globalEscaping → M.pairs.find? k = none →
        acc.1.Exposed b)
      (by
        rintro done n rest acc acc' hlist ⟨ht, hd, hout⟩ hstep
        have hn : n ∈ source.deferred a := by
          show n ∈ closure _ _ _
          rw [hlist]
          exact List.mem_append_right _ List.mem_cons_self
        obtain ⟨ht', hd', hnew⟩ := ht.spliceDefer (hR b hb n hn) hstep
        refine ⟨ht', .trans h.grounded hd hd', fun k hk hglobal hno => ?_⟩
        rcases List.mem_append.mp hk with hk | hk
        · exact (hout k hk hglobal hno).inherits hd.grounded hd'.inherits ht.rooted
        · cases List.mem_singleton.mp hk
          exact hnew hglobal hno)
      ⟨hstart, .refl h.grounded, fun _ hk => absurd hk List.not_mem_nil⟩ h₁
    refine ⟨htracks.poised, hdesc, fun b' hb' k hk hglobal hno => ?_⟩
    cases hb.symm.trans hb'
    exact hout k hk hglobal hno

/-- Something that the source lets out stands for `b`. -/
def LeakedTo (source : Graph) (M : NodeMap) (b : NodeId) : Prop :=
  ∃ a, (a, b) ∈ M.pairs.entries ∧ source.LetsOut M a

theorem released_leakedTo (source : Graph) (M : NodeMap) (a : NodeId) :
    Released source M a (source.LeakedTo M) :=
  fun _ hb k hk hglobal hno =>
    ⟨a, AssocMap.mem_of_lookup hb, k, hk, hglobal, .inr (NodeMap.not_mem_sources_iff.mpr hno)⟩

/-- **What a splice does to states**, if nothing waits to be merged. They are inherited, and what
the source lets out escapes. -/
theorem splice_descends (h : Grounded g g.pending)
    (hs : ∀ a c, source.content? a = some c → source.Has c) (hM : Anchored g M)
    (hok : g.splice source M = .ok (g', M', changed)) : Descends (source.LeakedTo M') g g' ∧
    g'.pending = [] ∧ NodeMap.Enlarges source M M' ∧
      ∀ a b, M'.pairs.find? a = some b → source.LetsOut M' a → g'.Exposed b := by
  obtain ⟨g₁, c₁, g₂, h₁, h₂, h₃⟩ := splice_ok hok
  obtain ⟨hd₁, hM₁, hout₁⟩ := spliceContents_descends (R := source.LeakedTo M') hs _ _ _ _ _ h hM h₁
    fun e he hglobal => ⟨e.1, he, letsOut_of_global M' hglobal⟩
  have henlarges := (spliceContents_extent hs _ _ _ _ _ h₁).1
  obtain ⟨hd₂, hp₂⟩ := hd₁.grounded.settle (R := source.LeakedTo M') h₂
  have hpoised : Poised g₂ M' := ⟨hd₂.grounded, hp₂, hM₁.inherits hd₂.inherits⟩
  obtain ⟨hend, hd₃, hreleased⟩ := foldlM_of_ok
    (P := fun (done : List NodeId) (acc : Graph × Bool) => Poised acc.1 M' ∧
    Descends (source.LeakedTo M') g₂ acc.1 ∧
      ∀ a ∈ done, Released source M' a acc.1.Exposed)
    (by
      rintro done a rest acc acc' - ⟨hacc, hd, hdone⟩ hstep
      obtain ⟨hacc', hd', hnew⟩ := hacc.spliceDefers (released_leakedTo source M' a) hstep
      refine ⟨hacc', .trans hpoised.grounded hd hd', fun a' ha' => ?_⟩
      rcases List.mem_append.mp ha' with ha' | ha'
      · exact fun b hb k hk hglobal hno =>
          (hdone a' ha' b hb k hk hglobal hno).inherits hacc.grounded hd'.inherits
            (hacc.anchored.find? hb)
      · cases List.mem_singleton.mp ha'
        exact hnew)
    ⟨hpoised, .refl hpoised.grounded, nofun⟩ h₃
  refine ⟨.trans h (.trans h hd₁ hd₂) hd₃, hend.pending, henlarges, ?_⟩
  rintro a b hab ⟨k, hk, hglobal, rfl | hno⟩
  · -- the bound lets every entry have its turn
    obtain ⟨j, hj⟩ := List.getElem?_of_mem (AssocMap.mem_of_lookup hab)
    have hlt := (List.getElem?_eq_some_iff.mp hj).1
    have hle := henlarges.size_le
    have hexposed := hout₁ j k b (Nat.zero_le _) (by omega) hj hglobal
    have hroot := hM₁.find? hab
    exact ((hexposed.inherits hd₁.grounded hd₂.inherits hroot).inherits hd₂.grounded hd₃.inherits
      (hd₂.inherits.rooted b hroot))
  · exact hreleased a (NodeMap.mem_sources hab) b hab k hk hglobal
      (NodeMap.not_mem_sources_iff.mp hno)

/-! ### States -/

/-- The states that nodes of `g` had which `n` represents in `g'`, besides the one that a new node
has. -/
def originStates (g g' : Graph) (n : NodeId) : Set EscapeState :=
  {s | s = .noEscape ∨ ∃ m, g.Live m ∧ g'.representative m = n ∧ (g.node m).state = s}

/-- A node has the greatest of the states that were merged into it, unless it represents one of `R`
and escapes. -/
theorem Inherits.isGreatest (h : Inherits R g g') (hg' : Grounded g' []) (hn : g'.Live n) :
    ((g'.node n).state = .globalEscaping ∧ ∃ b, R b ∧ g'.representative b = n) ∨
      IsGreatest (originStates g g' n) (g'.node n).state := by
  have hself := hg'.representative_of_live hn
  refine (h.origin n hn).imp ?_ fun horigin => ⟨?_, ?_⟩
  · rintro ⟨hglobal, b, hR, -, hrep⟩
    exact ⟨hglobal, b, hR, hrep.trans hself⟩
  · refine horigin.imp_right ?_
    rintro ⟨m, hm, hrep, hstate⟩
    exact ⟨m, hm, hrep.trans hself, hstate⟩
  · rintro s (rfl | ⟨m, hm, hrep, rfl⟩)
    · exact Nat.zero_le _
    · obtain ⟨k, hk, hrep', hle⟩ := h.heir m hm
      rw [hg'.representative_of_live hk, hrep] at hrep'
      rwa [hrep'] at hle

/-- The node `a` of the source escapes globally, or it reaches a node along defer edges that is not
mapped and does. -/
def Leaks (source : Graph) (M : NodeMap) (a : NodeId) : Prop :=
  ∃ k, ReflTransGen source.Defers a k ∧ (source.node k).state = .globalEscaping ∧
    (k = a ∨ k ∉ M.sources)

theorem WellFormed.letsOut_iff (h : WellFormed source) (ha : source.Has a) :
    source.LetsOut M a ↔ source.Leaks M a :=
  exists_congr fun _ => and_congr_left' (h.mem_deferred_iff ha)

/-- **What a splice transfers.** -/
theorem splice_transfers (hcheck : g.check false = .ok ()) (ht : Tabled g)
    (hcheck' : source.check false = .ok ()) (ht' : Tabled source)
    (hmap : ∀ e ∈ M.pairs.entries, source.Live e.1 ∧ g.Live e.2)
    (hok : g.splice source M = .ok (g', M', changed)) :
    (∀ a b, M'.get? g' a = some b → source.Leaks M' a → (g'.node b).state = .globalEscaping) ∧ ∀ n,
    g'.Live n → ((g'.node n).state = .globalEscaping ∧
        ∃ a b, (a, b) ∈ M'.pairs.entries ∧ g'.representative b = n ∧ source.Leaks M' a) ∨
      IsGreatest (originStates g g' n) (g'.node n).state := by
  have hw := wellFormed_of_check (splice_valid hok) hcheck
  have hw' := wellFormed_of_check (valid_of_splice hok).2 hcheck'
  have hg := ht.grounded hw
  have hanchored : Anchored g M := fun e he => hg.live e.2 (hmap e he).2
  obtain ⟨hd, hp, henlarges, hout⟩ :=
    splice_descends hg (fun _ _ => ht'.has_content hw') hanchored hok
  have hg' : Grounded g' [] := hp ▸ hd.grounded
  have hleaks : ∀ {a b}, (a, b) ∈ M'.pairs.entries →
    (source.LetsOut M' a ↔ source.Leaks M' a) := fun hab =>
    hw'.letsOut_iff (henlarges.has (fun e he => (hmap e he).1.1) _ hab)
  refine ⟨fun a b hb hleak => ?_, fun n hn => (hd.inherits.isGreatest hg' hn).imp_left ?_⟩
  · obtain ⟨e, he, rfl⟩ := Option.map_eq_some_iff.mp hb
    exact (hout a e he ((hleaks (AssocMap.mem_of_lookup he)).mpr hleak)).global hg'
  · rintro ⟨hglobal, b, ⟨a, hab, hletsOut⟩, hrep⟩
    exact ⟨hglobal, a, b, hab, hrep, (hleaks hab).mp hletsOut⟩

end Escape.Graph
