import Escape.Proofs.Graph.Least

/-!
# How far a splice goes

A splice comes to every node of the source that can be reached from the mapped nodes along contents,
except below nodes that escape globally. All nodes it comes to are mapped in the end, and what the
source says about them holds in the destination: nodes that it lets out escape globally, and nodes
that one another is reached from along defer edges are tied. Nothing is said of contents here, since
later merges may forget them.

- `Graph.splice_spliced`: they hold after every splice.
-/

namespace Escape

namespace NodeMap

variable {M M' M'' : NodeMap} {source : Graph} {a c d : NodeId}

theorem Grows.sources (h : M.Grows M') (ha : a ∈ M.sources) : a ∈ M'.sources := by
  obtain ⟨b, hb⟩ := find?_of_mem_sources ha
  exact mem_sources (h.find? hb)

/-- The map `M'` was made from `M` by adding nodes of the source, each of them once. -/
def Enlarges (source : Graph) (M M' : NodeMap) : Prop :=
  ∃ new : List (NodeId × NodeId), M'.pairs.entries = M.pairs.entries ++ new ∧
    (new.map (·.1)).Nodup ∧ ∀ e ∈ new, e.1 ∉ M.sources ∧ source.Has e.1

theorem Enlarges.refl (source : Graph) (M : NodeMap) : Enlarges source M M :=
  ⟨[], (List.append_nil _).symm, .nil, nofun⟩

variable (h : Enlarges source M M')
include h

theorem Enlarges.grows : M.Grows M' := by
  obtain ⟨new, hnew, -⟩ := h
  exact ⟨new, hnew.symm⟩

theorem Enlarges.trans (h' : Enlarges source M' M'') : Enlarges source M M'' := by
  have hgrows := h.grows
  obtain ⟨new, hnew, hnd, hfresh⟩ := h
  obtain ⟨new', hnew', hnd', hfresh'⟩ := h'
  refine ⟨new ++ new', by rw [hnew', hnew, List.append_assoc], ?_, fun e he => ?_⟩
  · rw [List.map_append]
    refine hnd.append hnd' fun k hk hk' => ?_
    obtain ⟨e, he, rfl⟩ := List.mem_map.mp hk
    obtain ⟨e', he', hee⟩ := List.mem_map.mp hk'
    exact (hfresh' e' he').1 (hee ▸ mem_sources_of_mem (hnew ▸ List.mem_append_right _ he))
  · rcases List.mem_append.mp he with he | he
    · exact hfresh e he
    · exact ⟨fun hM => (hfresh' e he).1 (hgrows.sources hM), (hfresh' e he).2⟩

omit h in
theorem enlarges_add (hc : M.pairs.find? c = none) (hhas : source.Has c) :
    Enlarges source M (M.add c d) := by
  refine ⟨[(c, d)], entries_add hc, List.nodup_singleton c, fun e he => ?_⟩
  rw [List.mem_singleton.mp he]
  exact ⟨not_mem_sources_iff.mpr hc, hhas⟩

/-- No more nodes are added than the source has. -/
theorem Enlarges.size_le : M'.pairs.entries.length ≤ M.size + source.size := by
  obtain ⟨new, hnew, hnd, hfresh⟩ := h
  have hle : (new.map (·.1)).length ≤ source.nodeIds.length :=
    (List.subperm_of_subset hnd fun k hk => by
      obtain ⟨e, he, rfl⟩ := List.mem_map.mp hk
      exact Graph.mem_nodeIds.mpr (hfresh e he).2).length_le
  rw [List.length_map, Graph.length_nodeIds] at hle
  rw [hnew, List.length_append]
  exact Nat.add_le_add_left hle _

/-- What is mapped is in the source. -/
theorem Enlarges.has (hM : ∀ e ∈ M.pairs.entries, source.Has e.1) :
    ∀ e ∈ M'.pairs.entries, source.Has e.1 := by
  obtain ⟨new, hnew, -, hfresh⟩ := h
  intro e he
  rw [hnew] at he
  exact (List.mem_append.mp he).elim (hM e) fun he => (hfresh e he).2

end NodeMap

namespace Graph

variable {g g' source : Graph} {M M' : NodeMap} {src dst : NodeId}

/-- What carrying over the content of `src` does to the map: a content that is new to it is added,
and afterwards the content is mapped, unless nothing below `src` is carried over. -/
structure Handles (source : Graph) (src : NodeId) (M M' : NodeMap) : Prop where
  step : M' = M ∨ ∃ c d, source.content? src = some c ∧ M.pairs.find? c = none ∧ M' = M.add c d
  maps : (source.node src).state ≠ .globalEscaping → ∀ c,
    source.content? src = some c → c ∈ M'.sources

theorem spliceContent_handles {changed : Bool}
    (hok : spliceContent source src dst g M = .ok (g', M', changed)) : Handles source src M M' := by
  rw [spliceContent_eq] at hok
  generalize raiseIf (decide ((source.node src).state = .globalEscaping)) g dst = acc at hok
  obtain ⟨g₁, raised⟩ := acc
  have hadd : ∀ {c} d, source.content? src = some c → M.resolve? g₁ c = .ok none →
      Handles source src M (M.add c d) := fun {c} d hc hno => by
    have hno : M.pairs.find? c = none := Option.map_eq_none_iff.mp (NodeMap.get?_of_resolve? hno)
    refine ⟨.inr ⟨c, d, hc, hno, rfl⟩, fun _ c' hc' => ?_⟩
    cases hc.symm.trans hc'
    have hnew : (M.add c d).pairs.find? c = some d := by rw [NodeMap.find?_add, if_pos ⟨rfl, hno⟩]
    exact NodeMap.mem_sources hnew
  have hstay : ∀ {c d}, source.content? src = some c → M.resolve? g₁ c = .ok (some d) →
      Handles source src M M := fun hc hd => by
    refine ⟨.inl rfl, fun _ c' hc' => ?_⟩
    cases hc.symm.trans hc'
    obtain ⟨e, he, -⟩ := Option.map_eq_some_iff.mp (NodeMap.get?_of_resolve? hd)
    exact NodeMap.mem_sources he
  cases carryContent_ok hok with
  | stop hstop =>
    refine ⟨.inl rfl, fun hlocal c hc => ?_⟩
    rcases hstop with hglobal | hnone
    · exact absurd hglobal hlocal
    · cases hnone.symm.trans hc
  | adopt hc hno _ => exact hadd _ hc hno
  | create hc hno _ _ => exact hadd _ hc hno
  | same hc hd => exact hstay hc hd
  | merge hc hd _ _ => exact hstay hc hd
  | give hc hd _ _ => exact hstay hc hd

theorem Handles.enlarges (h : Handles source src M M')
    (hs : ∀ a c, source.content? a = some c → source.Has c) : NodeMap.Enlarges source M M' := by
  rcases h.step with rfl | ⟨c, d, hc, hno, rfl⟩
  · exact .refl source _
  · exact NodeMap.enlarges_add hno (hs src c hc)

/-- Carrying over the contents of the mapped nodes from number `i` on. Whatever holds of the mapped
nodes and passes on to contents holds of all nodes that are mapped in the end. -/
theorem spliceContents_extent (hs : ∀ a c, source.content? a = some c → source.Has c)
    (bound i : Nat) (g : Graph) (M : NodeMap) (changed : Bool) {g' : Graph} {M' : NodeMap}
    {changed' : Bool} (hok : spliceContents source bound i g M changed = .ok (g', M', changed')) :
    NodeMap.Enlarges source M M' ∧ (∀ j a b, i ≤ j → j < i + bound →
    M'.pairs.entries[j]? = some (a, b) → (source.node a).state ≠ .globalEscaping →
    ∀ c, source.content? a = some c → c ∈ M'.sources) ∧
    ∀ P : NodeId → Prop, (∀ a ∈ M.sources, P a) →
    (∀ a ∈ M'.sources, P a → ∀ c, source.content? a = some c → P c) → ∀ a ∈ M'.sources, P a := by
  induction bound generalizing i g M changed g' M' changed' with
  | zero =>
    cases hok
    exact ⟨.refl source M, fun j a b h₁ h₂ => by omega, fun P hP _ => hP⟩
  | succ bound ih =>
    rcases spliceContents_succ_ok hok with ⟨hend, rfl, rfl, rfl⟩ |
      ⟨src, dst, g₁, M₁, c, hentry, -, h₁, hok⟩
    · refine ⟨.refl source _, fun j a b hj _ hab => ?_, fun P hP _ => hP⟩
      cases (hend j hj).symm.trans hab
    · have hstep := spliceContent_handles h₁
      have he₁ := hstep.enlarges hs
      obtain ⟨he', hmaps, hinduct⟩ := ih (i + 1) g₁ M₁ _ hok
      refine ⟨he₁.trans he', fun j a b hj hb hab hlocal c hc => ?_, fun P hP hpass => ?_⟩
      -- Entry `i` is dealt with now, the later ones in the rest of the loop.
      · by_cases hij : i = j
        · subst hij
          rw [(he₁.trans he').grows.getElem? hentry] at hab
          cases hab
          exact he'.grows.sources (hstep.maps hlocal c hc)
        · exact hmaps j a b (by omega) (by omega) hab hlocal c hc
      · refine hinduct P (fun a ha => ?_) hpass
        rcases hstep.step with rfl | ⟨c, d, hc, hno, rfl⟩
        · exact hP a ha
        · have hsrc := NodeMap.mem_sources_of_mem (List.mem_of_getElem? hentry)
          obtain ⟨b, hb⟩ := NodeMap.find?_of_mem_sources ha
          rw [NodeMap.find?_add] at hb
          split at hb
          · rename_i hca
            rw [← hca.1]
            exact hpass src ((he₁.trans he').grows.sources hsrc) (hP src hsrc) c hc
          · exact hP a (NodeMap.mem_sources hb)

/-- What has become of the source `source` in `g'`, with the nodes in `M` mapped at first and those
in `M'` in the end. -/
structure Spliced (source : Graph) (M M' : NodeMap) (g' : Graph) : Prop where
  grows : M.Grows M'
  maps : ∀ a ∈ M'.sources, (source.node a).state ≠ .globalEscaping →
    ∀ c, source.content? a = some c → c ∈ M'.sources
  reached : ∀ P : NodeId → Prop, (∀ a ∈ M.sources, P a) →
    (∀ a ∈ M'.sources, P a → ∀ c, source.content? a = some c → P c) → ∀ a ∈ M'.sources, P a
  out : ∀ a b, M'.pairs.find? a = some b → source.LetsOut M' a →
    (g'.node (g'.representative b)).state = .globalEscaping
  tied : ∀ a b a' b', M'.pairs.find? a = some b → M'.pairs.find? a' = some b' →
    a' ∈ source.deferred a → g'.Tied b b'

/-- **How far a splice goes.** -/
theorem splice_spliced {changed : Bool} (hs : Settled g) (hsource : Settled source)
    (hok : g.splice source M = .ok (g', M', changed)) : Spliced source M M' g' := by
  obtain ⟨g₁, c₁, g₂, h₁, h₂, h₃⟩ := splice_ok hok
  obtain ⟨hc₁, -, hprocessed⟩ := spliceContents_spec _ _ _ _ _ hs.queued h₁
  obtain ⟨henlarges, hmaps, hinduct⟩ := spliceContents_extent
    (fun _ _ hc => (hsource.live_content hc).1) _ _ _ _ _ h₁
  obtain ⟨hs₂, hp₂, ψ, hc₂⟩ := settle_shape hc₁.queued.shape hc₁.queued.nodup h₂
  obtain ⟨hev, -, hreached⟩ := foldlM_spliceDefers_spec (P := fun _ => True) (B := fun _ => True)
    ⟨hs₂, hp₂⟩ h₃
  -- the bound lets every mapped node have its turn
  have hturn : ∀ a b, M'.pairs.find? a = some b →
      ∃ j, j < 0 + (M.size + source.size) ∧ M'.pairs.entries[j]? = some (a, b) := fun a b hab => by
    obtain ⟨j, hj⟩ := List.getElem?_of_mem (AssocMap.mem_of_lookup hab)
    have hlt := (List.getElem?_eq_some_iff.mp hj).1
    have hle := henlarges.size_le
    exact ⟨j, by omega, hj⟩
  refine ⟨henlarges.grows, fun a ha hlocal c hc => ?_, hinduct, fun a b hab hout => ?_,
    fun a b a' b' hab hab' hreach => ?_⟩
  · obtain ⟨b, hb⟩ := NodeMap.find?_of_mem_sources ha
    obtain ⟨j, hj, hentry⟩ := hturn a b hb
    exact hmaps j a b (Nat.zero_le _) hj hentry hlocal c hc
  · obtain ⟨j, hj, hentry⟩ := hturn a b hab
    obtain ⟨hhas, hexposed⟩ := hprocessed j a b (Nat.zero_le _) hj hentry
    obtain ⟨k, hreach, hglobal, rfl | hno⟩ := hout
    · exact hev.isGlobal (((hexposed hglobal).carries hc₂).isGlobal ⟨hs₂, hp₂⟩)
    · exact (hreached hsource.toShape a (NodeMap.mem_sources hab) b k hab
        (path_of_mem_deferred hreach)).2 (hc₂.has_mono hhas)
        (NodeMap.not_mem_sources_iff.mp hno) hglobal
  · exact (hreached hsource.toShape a (NodeMap.mem_sources hab) b a' hab
      (path_of_mem_deferred hreach)).1 b' hab'

end Graph

end Escape
