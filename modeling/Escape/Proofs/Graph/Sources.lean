import Escape.Proofs.Graph.Extent

/-!
# Comparing sources

Two sources can say the same about what is carried over, or one of them can say more. The splice of
the one that says more leads to states that are at least as high, as long as it loses no content:
its result is then a model of what the splice of the other source has to do.

- `Graph.splice_mono`: states after the splices of two sources.
-/

namespace Escape.Graph

variable {full source g g₀ g' h : Graph} {F F' M M' : NodeMap} {ρ : NodeId → NodeId}
  {n a c : NodeId}

/-- All that `source` says about the nodes in `M'`, which a splice comes to from those in `M`, is
said by `full` as well, with `ρ` telling which nodes correspond to each other. -/
@[mk_iff]
structure Subsumes (full : Graph) (F F' : NodeMap) (source : Graph) (M M' : NodeMap)
    (ρ : NodeId → NodeId) : Prop where
  seeds : ∀ e ∈ M.pairs.entries, F.pairs.find? (ρ e.1) = some e.2
  content : ∀ a ∈ M'.sources, ∀ c ∈ source.content? a, full.content? (ρ a) = some (ρ c)
  defers : ∀ a ∈ M'.sources, ∀ b ∈ M'.sources, b ∈ source.deferred a → ρ b ∈ full.deferred (ρ a)
  out : ∀ a ∈ M'.sources, source.LetsOut M' a → full.LetsOut F' (ρ a)

instance : Decidable (Subsumes full F F' source M M' ρ) := decidable_of_iff' _ (subsumes_iff ..)

/-- What the mapped nodes of a source point to has arrived in `h`, except below nodes that escape
globally. -/
def Delivers (source : Graph) (M : NodeMap) (h : Graph) : Prop :=
  ∀ e ∈ M.pairs.entries, (source.node e.1).state ≠ .globalEscaping → ∀ c ∈ source.content? e.1,
    ∀ d ∈ M.pairs.find? c, h.content? (h.representative e.2) = some (h.representative d)

instance : Decidable (Delivers source M h) := inferInstanceAs (Decidable (∀ e ∈ M.pairs.entries, _))

theorem Spliced.follows (hp : Spliced source M M' g') (hf : Follows g' h) : Spliced source M M' h :=
  { hp with
    out := fun a b hab hout => hf.isGlobal (hp.out a b hab hout)
    tied := fun a b a' b' hab hab' hreach => hf.tied b b' (hp.tied a b a' b' hab hab' hreach) }

/-- Where a node of a source has ended up. What has not been carried over is outside. -/
def arrival (h : Graph) (M : NodeMap) (a : NodeId) : Option NodeId :=
  (M.pairs.find? a).bind fun b => h.place (h.representative b)

theorem Spliced.arrival_global (hp : Spliced source M M' h)
    (ha : (source.node a).state = .globalEscaping) : h.arrival M' a = none := by
  unfold arrival
  cases hb : M'.pairs.find? a with
  | none => rfl
  | some b => exact place_of_global (hp.out a b hb (letsOut_of_global M' ha))

/-- What a splice of `source` comes to, a splice of `full` comes to as well, if it does not lie
below a node that escapes globally. -/
theorem Subsumes.maps_or_global (hsub : Subsumes full F F' source M M' ρ) (hs : Settled full)
    (hc : Closed full) (hfull : Spliced full F F' h) (hsource : Spliced source M M' g')
    (ha : a ∈ M'.sources) : ρ a ∈ F'.sources ∨ (full.node (ρ a)).state = .globalEscaping := by
  refine hsource.reached (fun a => ρ a ∈ F'.sources ∨ (full.node (ρ a)).state = .globalEscaping)
    (fun a ha => ?_) (fun a ha hP c hac => ?_) a ha
  · obtain ⟨k, hk⟩ := NodeMap.find?_of_mem_sources ha
    exact .inl (NodeMap.mem_sources (hfull.grows.find? (hsub.seeds _ (AssocMap.mem_of_lookup hk))))
  · have hcontent := hsub.content a ha c hac
    by_cases hglobal : (full.node (ρ a)).state = .globalEscaping
    · exact .inr (hc.content_global hs hcontent hglobal)
    · exact .inl (hfull.maps _ (hP.resolve_right hglobal) hglobal _ hcontent)

/-- The result of splicing `full` is a model of what `source` says. -/
theorem Subsumes.accepts (hsub : Subsumes full F F' source M M' ρ) (hs : Settled full)
    (hc : Closed full) (hfull : Spliced full F F' h) (hsource : Spliced source M M' g')
    (hh : Saturated h) (hdel : Delivers full F' h) :
    (world hh).Accepts source M' fun a => h.arrival F' (ρ a) := by
  have hmaps := fun a => hsub.maps_or_global hs hc hfull hsource (a := a)
  have hmapped : ∀ {a b}, F'.pairs.find? a = some b →
    h.arrival F' a = h.place (h.representative b) :=
    fun hb => by rw [arrival, hb]; rfl
  have hout : ∀ a, full.LetsOut F' a → h.arrival F' a = none := fun a ha => by
    unfold arrival
    cases hb : F'.pairs.find? a with
    | none => rfl
    | some b => exact place_of_global (hfull.out a b hb ha)
  refine ⟨fun a ha c hac => ?_, fun a ha b hb hab => ?_, fun a ha hlet => ?_⟩
  · have hcontent := hsub.content a ha c hac
    by_cases hglobal : (full.node (ρ a)).state = .globalEscaping
    · rw [hfull.arrival_global hglobal, hfull.arrival_global
        (hc.content_global hs hcontent hglobal)]
      rfl
    · have ha' := (hmaps a ha).resolve_right hglobal
      obtain ⟨b, hb⟩ := NodeMap.find?_of_mem_sources ha'
      obtain ⟨d, hd⟩ := NodeMap.find?_of_mem_sources (hfull.maps _ ha' hglobal _ hcontent)
      rw [hmapped hb, hmapped hd]
      exact hh.pointsAt (hdel _ (AssocMap.mem_of_lookup hb) hglobal _ hcontent d hd)
  · have hreach := hsub.defers a ha b hb hab
    have hpath := path_of_mem_deferred hreach
    by_cases hglobal : (full.node (ρ a)).state = .globalEscaping
    · exact .inl ⟨hfull.arrival_global hglobal,
        hfull.arrival_global (hc.path_global hs hpath hglobal)⟩
    · obtain ⟨k, hk⟩ := NodeMap.find?_of_mem_sources ((hmaps a ha).resolve_right hglobal)
      cases hk' : F'.pairs.find? (ρ b) with
      | some k' =>
        refine .inr ⟨h.representative k, h.representative k', ?_, hmapped hk, hmapped hk'⟩
        rcases hfull.tied _ _ _ _ hk hk' hreach with e | hd
        · rw [e]
        · exact .single hd
      | none =>
        -- only what escapes globally has not been carried over
        have hno := NodeMap.not_mem_sources_iff.mpr hk'
        have hb' := (hmaps b hb).resolve_left hno
        exact .inl ⟨hout _ ⟨ρ b, hreach, hb', .inr hno⟩, hfull.arrival_global hb'⟩
  · show h.stateAt (h.arrival F' (ρ a)) = _
    rw [hout _ (hsub.out a ha hlet)]
    rfl

/-- **A source that says more leads to higher states**, as long as its splice loses no content. -/
theorem splice_mono {changed changed' : Bool} (hs : Settled full) (hc : Closed full)
    (hsource : Settled source) (hg : Settled g) (hg₀ : Settled g₀) (hfollows : Follows g g₀)
    (hfull : g₀.splice full F = .ok (h, F', changed))
    (hok : g.splice source M = .ok (g', M', changed')) (hsub : Subsumes full F F' source M M' ρ)
    (hM : ∀ e ∈ M.pairs.entries, g.Has e.2)
    (hlevel : Level h) (hkeeps : KeepsContents g h h.representative) (hdel : Delivers full F' h)
    (hn : g.Has n) :
    (g'.propagate.1.node (g'.propagate.1.representative n)).state ≤
      (h.propagate.1.node (h.propagate.1.representative n)).state := by
  have hev := (splice_spec (P := fun _ => True) (B := fun _ => True) hg₀ hfull).1
  have hr := propagate_raises h
  have he := hr.sameEdges
  have hrep := he.representative hev.settled.forest
  have hcontent := he.content? hev.settled.forest
  have hfollows' : Follows h h.propagate.1 :=
    (Evolves.raises (P := fun _ => True) (B := fun _ => True)
    hev.settled hr).toFollows
  have hsat : Saturated h.propagate.1 :=
    ⟨hr.settled hev.settled, propagate_closed hev.settled, fun n k hd => by
    rw [hcontent, hcontent]
    exact hlevel n k (he.defers_iff.mp hd)⟩
  have hspliced := (splice_spliced hg₀ hs hfull).follows hfollows'
  have hacc := hsub.accepts hs hc hspliced (splice_spliced hg hsource hok) hsat
    fun e he hlocal c hc d hd => by
    rw [hrep, hrep, hcontent]
    exact hdel e he hlocal c hc d hd
  refine splice_least hsat hg ((hfollows.trans hev.toFollows).trans hfollows') (fun n y hy => ?_)
    hacc (fun e hmem => ?_) hok hn
  · rw [hrep, hrep, hcontent]
    exact hkeeps n y hy
  · refine ⟨hM e hmem, ?_⟩
    show h.propagate.1.place _ = h.propagate.1.arrival F' (ρ e.1)
    rw [arrival, hspliced.grows.find? (hsub.seeds e hmem)]
    rfl

end Escape.Graph
