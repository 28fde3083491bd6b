import Escape.Proofs.Analysis.Joins

/-!
# Addresses of fields

The address of a field points into the object that it was taken from. Its node is the content that
the object had at that time, one level below the reference. So the two may alias as long as the
content is known to be embedded in the object, and as long as the object keeps it.

- `Traceable.fieldAddr_tied`: the node of a field address is the content of its object, or defers to
  it.
- `Analysis.mayAlias_fieldAddr`: **the address may alias its object if the object escapes, or if its
  content is embedded in it.**
- `Analysis.fieldAddr_notEmbedded`, `Analysis.fieldAddr_lostContent`: **otherwise they are told
  apart.**
-/

namespace Escape

open Escape.Graph

variable {p : Program} {s : Scope} {f : FuncId} {info : FuncInfo} {a a' : Analysis}
  {v r o : ValueId} {g g' : Graph} {n m c d : NodeId} {i : InstId} {inst : Inst} {deep : Bool}
  {u e e' : Bool}

/-! ### Taking the address of a field -/

/-- The object of which the operation takes the address of a field, or of what it holds. -/
def Operation.fieldOf? : Operation → Option ValueId
  | .refElementAddr o _ | .refTailAddr o | .projectBox o => some o
  | _ => none

theorem Operation.fieldOf?_cases {op : Operation} (h : op.fieldOf? = some o) :
    (∃ k, op = .refElementAddr o k) ∨ op = .refTailAddr o ∨ op = .projectBox o := by
  cases op with
  | refElementAddr o' k =>
    cases h
    exact .inl ⟨k, rfl⟩
  | refTailAddr o' =>
    cases h
    exact .inr (.inl rfl)
  | projectBox o' =>
    cases h
    exact .inr (.inr rfl)
  | _ => cases h

namespace Scope

/-- A root that an instruction defines is unique only if the instruction allocates it. -/
theorem isUnique_of_definition {op : Operation} (hdef : s.func.definition? v = .ok (some op))
    (hroot : s.root v = .ok v) (hop : op.isAllocation = false) : s.isUnique v = .ok false := by
  have hlocal : s.isLocal v = .ok false := by
    rw [isLocal, localObject?, hroot, ok_bind, hdef, ok_bind]
    dsimp only
    rw [hop]
    rfl
  obtain ⟨x, hx⟩ := value_of_definition? hdef
  rw [isUnique, hroot, ok_bind, hlocal, ok_bind, if_neg Bool.false_ne_true, isExclusive,
    Func.isExclusive, argumentIndex?_of_value hx]
  rw [Func.definition?, Func.definer?, hx, ok_bind] at hdef
  cases ho : x.origin with
  | result _ _ => rfl
  | argument _ | blockArg _ _ | undefined =>
    rw [ho] at hdef
    cases hdef

/-- The address of a field is a root of its own, and not unique. -/
theorem fieldAddr_spec (hfunc : s.func.Sound) (hinst : s.func.inst i = .ok inst)
    (hop : inst.op.fieldOf? = some o) (hr : r ∈ inst.results) :
    s.base? r = .ok none ∧ s.isReadOnly r = .ok false ∧ s.root r = .ok r ∧
      s.isUnique r = .ok false := by
  have hdef := definition?_of_result hfunc.results hinst hr
  have hbase : s.base? r = .ok none := by
    rw [base?, hdef, ok_bind]
    rcases Operation.fieldOf?_cases hop with ⟨k, h⟩ | h | h <;> rw [h] <;> rfl
  have hread : s.isReadOnly r = .ok false := by
    rw [isReadOnly, hdef, ok_bind]
    rcases Operation.fieldOf?_cases hop with ⟨k, h⟩ | h | h <;> rw [h] <;> rfl
  have halloc : inst.op.isAllocation = false := by
    rcases Operation.fieldOf?_cases hop with ⟨k, h⟩ | h | h <;> rw [h] <;> rfl
  have hroot := root_of_base?_none hbase
  exact ⟨hbase, hread, hroot, isUnique_of_definition hdef hroot halloc⟩

/-- A function reference is not unique. -/
theorem isFunctionRef_of_unique (hfunc : s.func.Sound) (h : s.isUnique v = .ok true) :
    s.isFunctionRef v = .ok false := by
  obtain ⟨x, hx⟩ := value_of_isUnique h
  obtain ⟨op?, hdef, -⟩ := definition?_of_value hfunc.ordered hx
  rw [isFunctionRef, hdef, ok_bind]
  split
  · rename_i fn
    have hroot : s.root v = .ok v := by
      refine root_of_base?_none ?_
      rw [base?, hdef]
      rfl
    cases h.symm.trans (isUnique_of_definition hdef hroot rfl)
  · rfl

end Scope

namespace Graph

/-- What the instruction does. -/
theorem effect_of_fieldAddr (hfunc : s.func.Sound) (hinst : s.func.inst i = .ok inst)
    (hop : inst.op.fieldOf? = some o) (hr : inst.results.head? = some r) :
    Effect.of s i = .ok (.mapToContent r o) := by
  obtain ⟨hbase, hread, -, -⟩ := Scope.fieldAddr_spec hfunc hinst hop (List.mem_of_head? hr)
  rw [Effect.of, hinst, ok_bind, hr]
  dsimp only
  rw [hbase, ok_bind, Option.isSome_none, if_neg Bool.false_ne_true, hread, ok_bind,
    if_neg Bool.false_ne_true]
  rcases Operation.fieldOf?_cases hop with ⟨k, h⟩ | h | h <;> rw [h] <;> rfl

/-- A value that is bound to a node has a node that is this one, or defers to it. -/
theorem bind_tied (hs : Settled g) (hok : g.bind v n = .ok g') : ∃ m, g'.At v m ∧ g'.Tied m n := by
  have hev := bind_evolves (P := anything) (B := anything) hs trivial trivial hok
  have hf' := hev.settled.forest
  obtain ⟨_, hn, hok⟩ := bind_ok.mp hok
  have hlive := hs.live_representative (require_ok.mp hn)
  have hrep : g'.representative (g.representative n) = g'.representative n := hev.merge n
  split at hok
  · rename_i existing hexisting
    obtain ⟨⟨g₁, k⟩, h₁, hok⟩ := bind_ok.mp hok
    cases hok
    obtain ⟨-, -, htied⟩ := defer_evolves (P := anything) (B := anything) hs hlive.2 h₁
    have hat : g.At v (g.representative existing) := ⟨existing, hexisting, rfl⟩
    refine ⟨_, hev.values _ _ hat, htied.congr ?_ hrep.symm⟩
    rw [hf'.representative_representative, hev.merge]
  · cases hok
    refine ⟨_, ⟨g.representative n, ?_, rfl⟩, .inl ?_⟩
    · show (g.values.insert v _).find? v = _
      rw [AssocMap.find?_insert, if_pos rfl]
    · rw [hf'.representative_representative]
      exact hrep

end Graph

namespace Analysis

/-! ### Where a field address is drawn -/

/-- The node `c` is the content of `o` where the instruction `i` is drawn. -/
def ContentAt (a : Analysis) (deep : Bool) (s : Scope) (i : InstId) (o : ValueId)
    (c : NodeId) : Prop :=
  ∃ g g', a.DrawnBefore deep s i g ∧ g.contentFor s o = .ok (g', some c)

theorem ContentAt.congr (h : SameSettings a a') (hc : a'.ContentAt deep s i o c) :
    a.ContentAt deep s i o c := by
  obtain ⟨g, g', hbefore, hcontent⟩ := hc
  exact ⟨g, g', hbefore.congr h, hcontent⟩

/-- **The node of a field address is the content that its object had, or defers to it.** -/
theorem Traceable.fieldAddr_tied (h : Traceable p a) (hp : p.Sound)
    (hf : a.infos.find? f = some info) (hs : Scope.of? p f = some s) (hv : info.graph.valid = true)
    (hreach : s.Reaches i) (hinst : s.func.inst i = .ok inst) (hop : inst.op.fieldOf? = some o)
    (hr : inst.results.head? = some r) (ho : s.Enters o) : ∃ deep n c, a.ContentAt deep s i o c ∧
    info.graph.At r n ∧ info.graph.Tied n c := by
  have hfunc := hp.of? hs
  obtain ⟨deep, g, g', fs, hbefore, hsettled, hvalid, hdraw, hlater⟩ :=
    h.inst_drawn hp hf hs hv hreach
  obtain ⟨effect, heffect, hdrawn⟩ := drawInst_spec hdraw
  cases heffect.symm.trans (effect_of_fieldAddr hfunc hinst hop hr)
  cases hdrawn with
  | plain happly _ _ =>
    obtain ⟨⟨g₁, c?⟩, hcontent, happly⟩ := bind_ok.mp happly
    have hev := (contentFor_evolves (P := anything) (B := anything) (roots_anything s)
      hsettled hcontent).1
    cases c? with
    | none =>
      -- a value that enters graphs has a content
      obtain ⟨anchor, ha⟩ := ho
      rcases contentFor_cases hcontent with ⟨-, hnode⟩ | ⟨_, _, _, hsome, -⟩
      · rcases nodeFor_at hsettled hvalid hnode with ⟨-, hnone⟩ | ⟨_, _, hsome, -⟩
        · cases hnone.symm.trans ha
        · cases hsome
      · cases hsome
    | some c =>
      obtain ⟨m, hat, htied⟩ := bind_tied hev.settled happly
      refine ⟨deep, _, c, ⟨g, g₁, hbefore, hcontent⟩, hlater.2.values _ _ hat,
        (hlater.2.tied m c htied).congr ?_ rfl⟩
      exact hlater.1.forest.representative_representative m

end Analysis

/-! ### Comparing a field address with its object -/

namespace Graph

/-- The content of an address is compared with what is below the content of a reference. -/
theorem sameContent_field (haddr : s.isAddress r = .ok true) (href : s.isReference o = .ok true) :
    g.sameContent s r o d c = .ok (decide (g.fieldContent? c = some d)) ∧
      g.sameContent s o r c d = .ok (decide (g.fieldContent? c = some d)) := by
  unfold sameContent
  rw [haddr, href, Scope.isReference_of_isAddress haddr, Scope.isAddress_of_isReference href]
  exact ⟨congrArg Except.ok (decide_eq_decide.mpr eq_comm), rfl⟩

/-- Contents are compared unless what the unique value points to escapes. -/
theorem ite_alone_unique : (if g.alone true e c then Except.ok b else .ok true : Checked Bool) =
    .ok ((g.node c).state.escapesInside e || b) := by
  unfold alone
  cases (g.node c).state.escapesInside e <;> rfl

/-- The answer for an address that is not unique and a unique reference. -/
theorem mayAlias_field (hid : s.Identified r false e) (hid' : s.Identified o true e')
    (haddr : s.isAddress r = .ok true) (href : s.isReference o = .ok true)
    (hd : g.contentOf? s r = .ok (some d)) (hc : g.contentOf? s o = .ok (some c)) :
    g.mayAlias s r o false true =
        .ok ((g.node c).state.escapesInside e' || decide (g.fieldContent? c = some d)) ∧
      g.mayAlias s o r true false =
        .ok ((g.node c).state.escapesInside e' || decide (g.fieldContent? c = some d)) := by
  obtain ⟨hdown, hup⟩ := g.sameContent_field haddr href (c := c) (d := d)
  constructor
  · rw [mayAlias_eq hid hid' hd hc, hdown, not_alone_of_not_unique, Bool.false_or, ite_alone_unique]
  · rw [mayAlias_eq hid' hid hc hd, hup, not_alone_of_not_unique, Bool.or_false, ite_alone_unique]

/-- In a graph that passes the check, what is below a node is what a node that is tied to it has, if
it is embedded in it. -/
theorem fieldContent?_of_tied (hs : Settled g) (hv : g.valid = true)
    (hcheck : g.check false = .ok ()) (hn : g.Live n) (hc : g.Live c) (ht : g.Tied n c)
    (hd : g.content? n = some d) : g.fieldContent? c = some d ↔ (g.node c).interior = true := by
  unfold fieldContent?
  split
  · rename_i hinterior
    refine iff_of_true ?_ hinterior
    cases hcd : g.content? c with
    | some d' => rw [ht.content_eq hs hv hcheck hn hc hd hcd]
    | none =>
      -- what is embedded has a content
      rw [content?_eq, Option.map_eq_none_iff] at hcd
      have hnode := (checkNode_ok.mp (((check_ok hv).mp hcheck).1 c hc.1)).2 hc.2
      have hno := (checkPointsTo_ok.mp hnode.2.1).1 hcd
      cases hno.symm.trans hinterior
  · rename_i hinterior
    exact iff_of_false nofun hinterior

end Graph

namespace Analysis

/-- **A field address and its object.** Take any run of requests, a full graph, and a reachable
instruction that takes the address `r` of a field, or of what is in a box, of the object `o`. If `o`
is not unique, or one of the two has no content, as in a graph that was given up, they may alias.
Otherwise the node of `r` is, or defers to, the content that `o` had where the address was taken. If
that is so of the content that `o` has in the end, and the graph passes the check, the two may alias
exactly if the content escapes inside the function, or is embedded in the object. -/
theorem mayAlias_fieldAddr (hp : p.Built) (hstart : a.infos = {}) {requests : List Request}
    (hrun : a.run p requests = .ok a') (hf : a'.info? f = some info) (hs : Scope.of? p f = some s)
    (hreach : s.Reaches i) (hinst : s.func.inst i = .ok inst) (hop : inst.op.fieldOf? = some o)
    (hr : inst.results.head? = some r) (haddr : s.isAddress r = .ok true)
    (href : s.isReference o = .ok true) : ∃ u e, s.Identified o u e ∧
      (u = false ∨ info.graph.contentOf? s r = .ok none ∨ info.graph.contentOf? s o = .ok none →
        a'.mayAlias p f r o = .ok (a', true) ∧ a'.mayAlias p f o r = .ok (a', true)) ∧
      ∀ c d, u = true → info.graph.contentOf? s o = .ok (some c) →
      info.graph.contentOf? s r = .ok (some d) →
        ∃ n, info.graph.nodeOf? s r = .ok (some n) ∧
          (∃ deep c₀, a.ContentAt deep s i o c₀ ∧ info.graph.Tied n c₀) ∧
          (a.config.verifyGraphs = true ∨ info.graph.check false = .ok () → info.graph.Tied n c →
            a'.mayAlias p f r o =
                .ok (a', (info.graph.node c).state.escapesInside e ||
                  (info.graph.node c).interior) ∧
              a'.mayAlias p f o r =
                .ok (a', (info.graph.node c).state.escapesInside e ||
                  (info.graph.node c).interior)) := by
  obtain ⟨hend, hsame⟩ := (traceable_of_empty hstart).run hp.sound hrun
  have hfunc := hp.sound.of? hs
  obtain ⟨u, e, hid⟩ : ∃ u e, s.Identified o u e := by
    obtain ⟨ty, hty, -⟩ := bind_ok.mp href
    obtain ⟨x, hx, -⟩ := bind_ok.mp hty
    exact Scope.identified_of_value hfunc hx
  obtain ⟨-, -, hroot, hunique⟩ := Scope.fieldAddr_spec hfunc hinst hop (List.mem_of_head? hr)
  obtain ⟨e', hid'⟩ := Scope.identified hfunc hunique
  have hanswer {b : Bool} (h : info.graph.mayAlias s r o false u = .ok b)
      (h' : info.graph.mayAlias s o r u false = .ok b) :
      a'.mayAlias p f r o = .ok (a', b) ∧ a'.mayAlias p f o r = .ok (a', b) :=
    ⟨hend.mayAlias_eq hf hs hunique hid.isUnique h, hend.mayAlias_eq hf hs hid.isUnique hunique h'⟩
  refine ⟨u, e, hid, ?_, fun c d hu hc hd => ?_⟩
  · rintro (rfl | hnone)
    · have halone (v : ValueId) (e : Bool) (c : NodeId)
        (_ : info.graph.contentOf? s v = .ok (some c)) :
          info.graph.alone false e c = false := info.graph.not_alone_of_not_unique e c
      exact hanswer (mayAlias_of_not_alone hid' hid (halone r e') (halone o e))
        (mayAlias_of_not_alone hid hid' (halone o e) (halone r e'))
    · exact hanswer (mayAlias_of_none hid' hid hnone) (mayAlias_of_none hid hid' hnone.symm)
  · subst hu
    -- the object enters graphs, since it is unique
    obtain ⟨m, hm, hcm⟩ := contentOf?_iff.mp hc
    obtain ⟨n, hn, hdn⟩ := contentOf?_iff.mp hd
    obtain ⟨hvalid, -, r', hr', hat⟩ := nodeOf?_iff.mp hn
    obtain ⟨anchor, ha, -⟩ := hend.anchor?_of_nodeOf? hf hs
      (Scope.isFunctionRef_of_unique hfunc hid.isUnique) hm
    obtain ⟨deep, n', c₀, hwhere, hat', htied⟩ :=
      hend.fieldAddr_tied hp.sound hf hs hvalid hreach hinst hop hr ⟨anchor, ha⟩
    cases hroot.symm.trans hr'
    cases hat.unique hat'
    refine ⟨n, hn, ⟨deep, c₀, hwhere.congr hsame, htied⟩, fun hverify hkept => ?_⟩
    have hsettled := hend.settled hf hs
    have hinside : decide (info.graph.fieldContent? c = some d) = (info.graph.node c).interior := by
      rw [Bool.eq_iff_iff, decide_eq_true_iff]
      exact fieldContent?_of_tied hsettled hvalid (hend.passes hsame hf hverify) (hat.live hsettled)
        (hsettled.live_content hcm) hkept hdn
    obtain ⟨hdown, hup⟩ := mayAlias_field hid' hid haddr href hd hc
    rw [hinside] at hdown hup
    exact hanswer hdown hup

end Analysis

/-- Steps that build a function with a new object that is cast to a raw pointer. It copies a value
and then takes the address of a field of the object. -/
def fieldSteps (copied : ValueId) : List Step := [
  .intern (.object { name := "Node" }),
  .intern .scalar,
  .setFields ⟨0⟩ [⟨1⟩],
  .declare "field" [] none,
  .value ⟨0⟩ (.allocRef ⟨0⟩) none,
  .value ⟨0⟩ (.refToRawPointer ⟨0⟩) none,
  .value ⟨0⟩ (.copyValue copied) none,
  .value ⟨0⟩ (.refElementAddr ⟨0⟩ 0) none,
  .inst ⟨0⟩ (.ret none) none]

/-- The program of the function. -/
def field (copied : ValueId) : Program := (built (fieldSteps copied)).program

namespace Analysis

set_option synthInstance.maxSize 1024

/-- The reference is copied. The content of the object is embedded in it, and the address may alias
the object. -/
theorem mayAlias_fieldAddr_reference : ∃ a', (ofConfig Preset.balanced.config).run (field ⟨0⟩)
    [.lookup ⟨0⟩] = .ok a' ∧ ∃ info ∈ a'.info? ⟨0⟩, ∃ s ∈ Scope.of? (field ⟨0⟩) ⟨0⟩,
    s.isUnique ⟨0⟩ = .ok true ∧
      info.graph.contentOf? s ⟨0⟩ = .ok (some ⟨2⟩) ∧ info.graph.nodeOf? s ⟨3⟩ = .ok (some ⟨2⟩) ∧
      (info.graph.node ⟨2⟩).state = .noEscape ∧
      (∃ deep c₀, (ofConfig Preset.balanced.config).ContentAt deep s ⟨3⟩ ⟨0⟩ c₀ ∧
        info.graph.Tied ⟨2⟩ c₀) ∧
      a'.mayAlias (field ⟨0⟩) ⟨0⟩ ⟨3⟩ ⟨0⟩ = .ok (a', true) ∧
      a'.mayAlias (field ⟨0⟩) ⟨0⟩ ⟨0⟩ ⟨3⟩ = .ok (a', true) := by
  have hbuilt : (field ⟨0⟩).Built := built_program (by decide +kernel)
  have hrun : ∃ a', (ofConfig Preset.balanced.config).run (field ⟨0⟩) [.lookup ⟨0⟩] = .ok a' ∧
      ∃ info ∈ a'.info? ⟨0⟩, ∃ s ∈ Scope.of? (field ⟨0⟩) ⟨0⟩, s.Reaches ⟨3⟩ ∧
        (∃ inst, s.func.inst ⟨3⟩ = .ok inst ∧ inst.op.fieldOf? = some ⟨0⟩ ∧
        inst.results.head? = some ⟨3⟩) ∧ s.isAddress ⟨3⟩ = .ok true ∧ s.isReference ⟨0⟩ = .ok true ∧
        s.isUnique ⟨0⟩ = .ok true ∧ info.graph.contentOf? s ⟨0⟩ = .ok (some ⟨2⟩) ∧
        info.graph.contentOf? s ⟨3⟩ = .ok (some ⟨3⟩) ∧ info.graph.nodeOf? s ⟨3⟩ = .ok (some ⟨2⟩) ∧
        (info.graph.node ⟨2⟩).state = .noEscape ∧ (info.graph.node ⟨2⟩).interior = true := by
    decide +kernel
  obtain ⟨a', hrun, info, hf, s, hs, hreach, ⟨inst, hinst, hop, hr⟩, haddr, href, hunique, hc, hd,
    hn, hstate, hinterior⟩ := hrun
  obtain ⟨u, e, hid, -, hcontents⟩ :=
    mayAlias_fieldAddr hbuilt rfl hrun hf hs hreach hinst hop hr haddr href
  cases hid.isUnique.symm.trans hunique
  obtain ⟨n, hn', hwhere, hanswer⟩ := hcontents ⟨2⟩ ⟨3⟩ rfl hc hd
  cases hn.symm.trans hn'
  have halias := hanswer (.inl rfl) (.inl rfl)
  rw [hinterior, Bool.or_true] at halias
  exact ⟨a', hrun, info, hf, s, hs, hunique, hc, hn, hstate, hwhere, halias⟩

/-- **An address is told apart from its object if the content is not embedded.** The raw pointer
shares the node of the object, and copying it clears the mark that the node stands for references
only. So the content that the address makes for the object is not embedded. -/
theorem fieldAddr_notEmbedded : (field ⟨1⟩).Built ∧ (field ⟨1⟩).OperandsPlaced ∧
    ∃ a', (ofConfig Preset.balanced.config).run (field ⟨1⟩) [.lookup ⟨0⟩] = .ok a' ∧
      ∃ info ∈ a'.info? ⟨0⟩, ∃ s ∈ Scope.of? (field ⟨1⟩) ⟨0⟩, info.graph.valid = true ∧
        info.graph.check false = .ok () ∧ s.isUnique ⟨0⟩ = .ok true ∧
        info.graph.contentOf? s ⟨0⟩ = .ok (some ⟨2⟩) ∧ info.graph.nodeOf? s ⟨3⟩ = .ok (some ⟨2⟩) ∧
        (info.graph.node ⟨2⟩).interior = false ∧
        (∃ r, a'.mayAlias (field ⟨1⟩) ⟨0⟩ ⟨3⟩ ⟨0⟩ = .ok r ∧ r.2 = false) ∧
        ∃ r, a'.mayAlias (field ⟨1⟩) ⟨0⟩ ⟨0⟩ ⟨3⟩ = .ok r ∧ r.2 = false :=
  ⟨built_program (by decide +kernel), by decide +kernel, by decide +kernel⟩

end Analysis

/-- Steps that build a function with a new object of which it takes the address of a field. The
object is stored to a slot, the address of the slot to another, and one of the two slots is
selected. -/
def selectSteps : List Step := [
  .intern (.object { name := "Node" }),
  .intern .scalar,
  .setFields ⟨0⟩ [⟨1⟩],
  .intern (.address ⟨0⟩),
  .declare "select" [⟨⟨1⟩, .guaranteed⟩] none,
  .value ⟨0⟩ (.allocRef ⟨0⟩) none,
  .value ⟨0⟩ (.refElementAddr ⟨1⟩ 0) none,
  .value ⟨0⟩ (.allocStack ⟨0⟩) none,
  .value ⟨0⟩ (.allocStack ⟨2⟩) none,
  .inst ⟨0⟩ (.store ⟨1⟩ ⟨3⟩) none,
  .inst ⟨0⟩ (.store ⟨3⟩ ⟨4⟩) none,
  .value ⟨0⟩ (.select ⟨0⟩ [⟨3⟩, ⟨4⟩] none) (some ⟨2⟩),
  .inst ⟨0⟩ (.ret none) none]

/-- The program of the function. -/
def selecting : Program := (built selectSteps).program

namespace Analysis

set_option synthInstance.maxSize 1024

/-- **An address is told apart from its object if the object loses the content.** The contents of
the slots are merged, and the merged one becomes the content of the object in place of the one that
the address was taken of. -/
theorem fieldAddr_lostContent : selecting.Built ∧ selecting.OperandsPlaced ∧
    ∃ a', (ofConfig Preset.balanced.config).run selecting [.lookup ⟨0⟩] = .ok a' ∧
      ∃ info ∈ a'.info? ⟨0⟩, ∃ s ∈ Scope.of? selecting ⟨0⟩, info.graph.valid = true ∧
        info.graph.check false = .ok () ∧ s.isUnique ⟨1⟩ = .ok true ∧
        info.graph.nodeOf? s ⟨2⟩ = .ok (some ⟨1⟩) ∧ (info.graph.node ⟨1⟩).interior = true ∧
        info.graph.contentOf? s ⟨1⟩ = .ok (some ⟨6⟩) ∧ (info.graph.node ⟨6⟩).interior = true ∧
        ∃ r, a'.mayAlias selecting ⟨0⟩ ⟨2⟩ ⟨1⟩ = .ok r ∧ r.2 = false :=
  ⟨built_program (by decide +kernel), by decide +kernel, by decide +kernel⟩

end Analysis

end Escape
