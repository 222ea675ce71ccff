import TVMCompiler.Sdk.PersistentData
import TVMCompiler.Sdk.StoredBits

/-!
# Results of calls

The answer to a call is a chain of its header and the returned value, if these may not fit one
cell. The coroutine that waits for it has the header removed, and expects a chain if the value
alone may not fit.

## Main definitions

* `sendInternalAnswer`: the content of the answer's body
* `awaitResume`: the value that the coroutine gets

## Main results

* `maxBits_eq_zero`: a type that may take no bits never takes any
* `awaitResume_sendInternalAnswer_iff`: the types whose values are received
-/

namespace TVMCompiler.Sdk

open Lib

/-- A tuple, or a struct. -/
def Elem.aggregate (isStruct : Bool) (l : List Elem) : Elem := if isStruct then .struct l else .tuple l

/-- `return_func_id`: the id that the contract has stored, or the answer id of the method. -/
def returnFuncId (stored : Option ℕ) (funcId : ℕ) : ℕ := stored.getD (funcId ||| 2 ^ 31)

/-- `send_internal_answer`: the content of the body. -/
def sendInternalAnswer (info init : Ty) (stored : Option ℕ) (funcId : ℕ) (rv : Elem) :
    Option (Except TvmException Cell) :=
  contractCallPrepare info init (prepareInternalHeader (returnFuncId stored funcId) none) [rv]

/-- The value, from a chain that begins behind a header of 32 bits. -/
def parseBehindHeader : Ty → Slice → Read Elem
  | .tuple ts, p => (parseElems 32 0 ts p).map .tuple
  | .struct ts, p => (parseElems 32 0 ts p).map .struct
  | _, _ => none

/-- `wait_call_result::await_resume`. -/
def awaitResume (retT : Ty) (p : Slice) : Read Elem :=
  if (estimate [] retT).maxBits > Builder.maxBits ∨ (estimate [] retT).maxRefs > Builder.maxRefs then
    parseBehindHeader retT p
  else (Read.ofParsed (parse retT [] p) .customDataParseError).map fun r => ⟨retT, r.1⟩

/-! ## Types without bits -/

/-- Every value of a type takes the bits of the leading constant. -/
theorem leading_le_minBits : ∀ (t : Ty) (fields : List Ty) {c : ℕ × ℕ}, t.leading = some c →
    c.1 ≤ (estimate fields t).minBits
  | .bitconst bitlen code, _, c, h => by
    obtain rfl := Option.some.inj h
    exact le_rfl
  | .tuple (t :: _), _, c, h => (leading_le_minBits t _ h).trans (Nat.le_add_right _ _)
  | .struct (t :: _), _, c, h => (leading_le_minBits t _ h).trans (Nat.le_add_right _ _)

/-- Each of several alternatives takes a bit. -/
theorem Distinguishable.minBits_pos {t t' : Ty} {ts : List Ty}
    (h : Distinguishable (t :: t' :: ts)) (fields : List Ty) :
    0 < (estimateVariant fields (t :: t' :: ts)).minBits := by
  -- the constant of the first one is not empty, and no other constant is shorter
  have hhead : ∀ u ∈ t' :: ts, 0 < (estimate fields t).minBits ∧
      0 < (estimate fields u).minBits := by
    intro u hu
    obtain ⟨c, c', hc, hc', hle, hprefix⟩ := (List.pairwise_cons.mp h).1 u hu
    have hpos : 0 < c.1 := by
      refine Nat.pos_of_ne_zero fun hzero => hprefix ?_
      rw [hzero]
      exact List.nil_prefix
    exact ⟨hpos.trans_le (leading_le_minBits t fields hc),
      (hpos.trans_le hle).trans_le (leading_le_minBits u fields hc')⟩
  have htail : ∀ us : List Ty, us ≠ [] → (∀ u ∈ us, 0 < (estimate fields u).minBits) →
      0 < (estimateVariant fields us).minBits := by
    intro us
    induction us with
    | nil => exact fun hne _ => absurd rfl hne
    | cons u us ih =>
      intro _ hus
      cases us with
      | nil => exact hus u List.mem_cons_self
      | cons u' us =>
        exact lt_min (hus u List.mem_cons_self)
          (ih (List.cons_ne_nil _ _) fun w hw => hus w (List.mem_cons_of_mem _ hw))
  refine htail _ (List.cons_ne_nil _ _) fun u hu => ?_
  rcases List.mem_cons.mp hu with rfl | hu
  · exact (hhead t' List.mem_cons_self).1
  · exact (hhead u hu).2

/-- The unsigned fields of a struct, which the lengths of dynamic fields are kept in, have no
bits. -/
def EmptyLengths (fields : List Ty) : Prop := ∀ bitlen, .uint bitlen ∈ fields → bitlen = 0

theorem EmptyLengths.dynamicFieldMaxBits {fields : List Ty} (h : EmptyLengths fields) (field : ℕ) :
    dynamicFieldMaxBits fields field = 0 := by
  unfold Sdk.dynamicFieldMaxBits
  split
  · rename_i bitlen hfield
    rw [h bitlen (List.mem_of_getElem? hfield)]
    rfl
  · rfl

theorem minBits_of_mem {fields ts : List Ty} {t : Ty} (ht : t ∈ ts)
    (h : (estimateSeq fields ts).minBits = 0) : (estimate fields t).minBits = 0 := by
  induction ts with
  | nil => cases ht
  | cons u ts ih =>
    obtain ⟨hu, hts⟩ := Nat.add_eq_zero_iff.mp h
    rcases List.mem_cons.mp ht with rfl | ht
    · exact hu
    · exact ih ht hts

theorem EmptyLengths.of_minBits {ts : List Ty} (h : (estimateSeq ts ts).minBits = 0) :
    EmptyLengths ts := fun _ hmem => minBits_of_mem hmem h

mutual

/-- **A type that may take no bits never takes any.** -/
theorem maxBits_eq_zero : ∀ (t : Ty) (fields : List Ty), t.WellFormed → EmptyLengths fields →
    (estimate fields t).minBits = 0 → (estimate fields t).maxBits = 0
  | .bitconst _ _, _, _, _, h => h
  | .bitfield _, _, _, _, h => h
  | .uint _, _, _, _, h => h
  | .int _, _, _, _, h => h
  | .cell, _, _, _, h => h
  | .ref _, _, _, _, h => h
  | .bool, _, _, _, h => absurd h Nat.one_ne_zero
  | .dict, _, _, _, h => absurd h Nat.one_ne_zero
  | .optional _, _, _, _, h => absurd h Nat.one_ne_zero
  | .varuint size, _, _, _, h => by cases size <;> cases h
  | .varint size, _, _, _, h => by cases size <;> cases h
  | .msgAddress kind, _, _, _, h => by cases kind <;> cases h
  | .addrStdCompact, _, _, _, h => by cases h
  | .either l r, _, _, _, h => by
    have hpos : 0 < min (1 + (estimate [.bitconst 1 0] l).minBits)
        (1 + (estimate [.bitconst 1 1] r).minBits) := lt_min (by omega) (by omega)
    exact absurd h hpos.ne'
  | .tuple ts, _, hwf, _, h => maxBitsSeq_eq_zero ts [] hwf nofun h
  | .struct ts, _, hwf, _, h => maxBitsSeq_eq_zero ts ts hwf (.of_minBits h) h
  | .dynamicBitfield field, _, _, hfields, _ => hfields.dynamicFieldMaxBits field
  | .dynamicUint field, _, _, hfields, _ => by
    rw [estimate, hfields.dynamicFieldMaxBits field]
    rfl
  | .dynamicInt field, _, _, hfields, _ => by
    rw [estimate, hfields.dynamicFieldMaxBits field]
    rfl
  | .variant ts, fields, hwf, hfields, h => maxBitsVariant_eq_zero ts fields hwf.1 hwf.2 hfields h

theorem maxBitsSeq_eq_zero : ∀ (ts fields : List Ty), WellFormedSeq ts → EmptyLengths fields →
    (estimateSeq fields ts).minBits = 0 → (estimateSeq fields ts).maxBits = 0
  | [], _, _, _, _ => rfl
  | t :: ts, fields, hwf, hfields, h => by
    obtain ⟨ht, hts⟩ := Nat.add_eq_zero_iff.mp h
    exact Nat.add_eq_zero_iff.mpr ⟨maxBits_eq_zero t fields hwf.1 hfields ht,
      maxBitsSeq_eq_zero ts fields hwf.2 hfields hts⟩

theorem maxBitsVariant_eq_zero : ∀ (ts fields : List Ty), WellFormedSeq ts → Distinguishable ts →
    EmptyLengths fields → (estimateVariant fields ts).minBits = 0 →
    (estimateVariant fields ts).maxBits = 0
  | [], _, _, _, _, _ => rfl
  | [t], fields, hwf, _, hfields, h => maxBits_eq_zero t fields hwf.1 hfields h
  | _ :: _ :: _, fields, _, hdist, _, h => absurd h (hdist.minBits_pos fields).ne'

end

/-! ## Leaves without bits -/

theorem estimateSeq_of_mem {ts : List Ty} {t : Ty} (ht : t ∈ ts) :
    (estimate [] t).maxBits ≤ (estimateSeq [] ts).maxBits ∧
      (estimate [] t).maxRefs ≤ (estimateSeq [] ts).maxRefs := by
  induction ts with
  | nil => cases ht
  | cons u ts ih =>
    rw [estimateSeq, Estimate.add_maxBits, Estimate.add_maxRefs]
    rcases List.mem_cons.mp ht with rfl | ht
    · exact ⟨Nat.le_add_right _ _, Nat.le_add_right _ _⟩
    · obtain ⟨hbits, hrefs⟩ := ih ht
      exact ⟨by omega, by omega⟩

/-- Each leaf of a chain fits a cell. -/
theorem Layout.fits {bits refs : ℕ} {sizes : List ℕ} {ts : List Ty} (h : Layout bits refs sizes ts)
    (hbits : bits ≤ Builder.maxBits) (hrefs : refs ≤ Builder.maxRefs) :
    ∀ t ∈ ts, (estimate [] t).maxBits ≤ Builder.maxBits ∧
      (estimate [] t).maxRefs ≤ Builder.maxRefs := by
  induction sizes generalizing bits refs ts with
  | nil =>
    intro t ht
    obtain ⟨hle, hle'⟩ := estimateSeq_of_mem ht
    exact ⟨hle.trans (h.2.1.trans hbits), hle'.trans (h.2.2.trans hrefs)⟩
  | cons n sizes ih =>
    intro t ht
    obtain ⟨htake, htakeRefs, hdrop⟩ := h
    rw [← List.take_append_drop n ts] at ht
    rcases List.mem_append.mp ht with ht | ht
    · obtain ⟨hle, hle'⟩ := estimateSeq_of_mem ht
      exact ⟨hle.trans (htake.trans hbits),
        hle'.trans ((Nat.le_of_succ_le htakeRefs).trans hrefs)⟩
    · exact ih hdrop le_rfl le_rfl t ht

theorem Encodable.minBits_le {e : Elem} (h : Encodable e)
    (hbits : (estimate [] e.1).maxBits ≤ Builder.maxBits)
    (hrefs : (estimate [] e.1).maxRefs ≤ Builder.maxRefs) :
    (estimate [] e.1).minBits ≤ storedBits false e.1 e.2 := by
  obtain ⟨s, hs, hbuild⟩ := (build_stores e.1 [] [] e.2 h.estimable (.nil _) h.inRange
    h.fits).exists_ok (b := .empty) (by simpa [Slice.empty] using hbits)
    (by simpa [Slice.empty] using hrefs)
  have hsize := size_of_build false e.1 e.2 hbuild
  rw [Slice.empty_append, Slice.size_empty, Nat.zero_add] at hsize
  exact hs.minBits.trans hsize.le

/-- Leaves that are stored without bits are of types that never take any. -/
theorem maxBits_of_elemsBits {l : List Elem} (hl : ∀ e ∈ l, Encodable e ∧
      (estimate [] e.1).maxBits ≤ Builder.maxBits ∧ (estimate [] e.1).maxRefs ≤ Builder.maxRefs)
    (h : elemsBits false l = 0) : (estimateSeq [] (types l)).maxBits = 0 := by
  induction l with
  | nil => rfl
  | cons e l ih =>
    obtain ⟨hfirst, hrest⟩ := Nat.add_eq_zero_iff.mp h
    obtain ⟨hencodable, hbits, hrefs⟩ := hl e List.mem_cons_self
    have hmin : (estimate [] e.1).minBits = 0 :=
      Nat.le_zero.mp ((hencodable.minBits_le hbits hrefs).trans hfirst.le)
    exact Nat.add_eq_zero_iff.mpr
      ⟨maxBits_eq_zero e.1 [] hencodable.wellFormed nofun hmin,
        ih (fun e' he' => hl e' (List.mem_cons_of_mem _ he')) hrest⟩

/-! ## The answer -/

section Answer

variable {isStruct : Bool} {l : List Elem}

theorem expandElem_aggregate (isStruct : Bool) (l : List Elem) :
    expandElem (Elem.aggregate isStruct l).1 (Elem.aggregate isStruct l).2 = expandAll l := by
  cases isStruct <;> rfl

theorem chainValue_aggregate : ChainValue [Elem.aggregate isStruct l] ↔ ChainValue l := by
  rw [ChainValue, expandAll_cons, expandElem_aggregate, expandAll_nil, List.append_nil]
  rfl

/-- The estimate of a tuple or struct is that of its elements. -/
theorem estimate_aggregate (h : ChainValue l) (isStruct : Bool) :
    estimate [] (Elem.aggregate isStruct l).1 = estimateSeq [] (types l) := by
  cases isStruct with
  | false => rfl
  | true => exact (h.estimate (types l)).trans (h.estimate []).symm

/-- A tuple or struct is cut as its elements are. -/
theorem bodyPrepare_aggregate (est : Estimate) (hdr : Elem) (isStruct : Bool) (l : List Elem) :
    bodyPrepare est hdr [Elem.aggregate isStruct l] = bodyPrepare est hdr l := by
  have hexpand : makeExpandedTuple (types [hdr, Elem.aggregate isStruct l])
      (tupleVal [hdr, Elem.aggregate isStruct l]) =
        makeExpandedTuple (types (hdr :: l)) (tupleVal (hdr :: l)) := by
    show expandAll [hdr, Elem.aggregate isStruct l] = expandAll (hdr :: l)
    rw [expandAll_cons, expandAll_cons, expandElem_aggregate, expandAll_nil, List.append_nil,
      expandAll_cons]
  have hbuild : buildElems [hdr, Elem.aggregate isStruct l] = buildElems (hdr :: l) := by
    show Except.map _ ((build hdr.1 hdr.2 _).bind _) = Except.map _ ((build hdr.1 hdr.2 _).bind _)
    congr 2
    funext b
    have hone := buildSeq_singleton (Elem.aggregate isStruct l) b
    cases isStruct
    all_goals exact hone
  unfold bodyPrepare
  rw [hbuild]
  unfold makeChainTuple
  rw [hexpand]

variable {info init : Ty} {id : ℕ} {x : Except TvmException Cell}

/-- The header of the answer, as the receiver sees it. -/
abbrev answerHeader (id : ℕ) : Elem := prepareInternalHeader id none

theorem chainValue_answer (hid : id < 2 ^ 32) (h : ChainValue l) :
    ChainValue (answerHeader id :: l) := chainValue_cons.mpr ⟨header_leaves hid none, h⟩

/-- The header takes 32 bits. -/
theorem estimate_answer (id : ℕ) (l : List Elem) :
    (estimateSeq [] (types (answerHeader id :: l))).maxBits =
        32 + (estimateSeq [] (types l)).maxBits ∧
      (estimateSeq [] (types (answerHeader id :: l))).maxRefs =
        (estimateSeq [] (types l)).maxRefs := ⟨rfl, Nat.zero_add _⟩

/-- A value that fits one cell with the header is received. -/
theorem awaitResume_of_fits (hid : id < 2 ^ 32) (hvalue : ChainValue l)
    (hbits : 32 + (estimateSeq [] (types l)).maxBits ≤ Builder.maxBits)
    (hrefs : (estimateSeq [] (types l)).maxRefs ≤ Builder.maxRefs)
    (hx : contractCallPrepare info init (answerHeader id) [Elem.aggregate isStruct l] = some x) :
    ∃ c p, x = .ok c ∧ parseHeader false c.ctos = .value ((id, none), p) ∧
      awaitResume (Elem.aggregate isStruct l).1 p = .value (Elem.aggregate isStruct l) := by
  have hone : ChainValue [Elem.aggregate isStruct l] := chainValue_aggregate.mpr hvalue
  have hest := estimate_aggregate hvalue isStruct
  set rv := Elem.aggregate isStruct l with hrv
  have hall : ChainValue [answerHeader id, rv] := chainValue_answer hid hone
  have hseq : estimateSeq [] (types [rv]) = estimateSeq [] (types l) := by
    rw [← hest]
    exact Estimate.add_zero _
  obtain ⟨hwhole, hwholeRefs⟩ := estimate_answer id [rv]
  rw [hseq] at hwhole hwholeRefs
  rw [← hwhole] at hbits
  rw [← hwholeRefs] at hrefs
  have hne : expandAll [answerHeader id, rv] ≠ [] :=
    List.append_ne_nil_of_left_ne_nil (header_ne_nil id none) _
  obtain rfl := bodyPrepare_of_fits hall hne hbits hrefs hx
  have hbits' := hbits
  have hrefs' := hrefs
  rw [hall.estimate] at hbits' hrefs'
  obtain ⟨s, -, hbuild⟩ := (buildSeq_stores_of_encodable hall.encodable).exists_ok
    (b := .empty) (by simpa [Slice.empty] using hbits') (by simpa [Slice.empty] using hrefs')
  rw [expandAll, buildSeq_makeExpandedTuple] at hbuild
  obtain ⟨b, hb, hrest⟩ := bind_eq_ok.mp hbuild
  have hrest' : build rv.1 rv.2 b = .ok (Slice.empty ++ s) := (buildSeq_singleton rv b).symm.trans hrest
  obtain ⟨hwf, hfits⟩ := whole_of_leaves rv.1 rv.2 (chainValue_cons.mp hone).1
  obtain ⟨s', hs', hparse⟩ := build_roundTrips rv.1 [] rv.2 hwf (hfits []) _ _ hrest'
  refine ⟨Builder.endc (b ++ s'), s', ?_, parseHeader_spec hb s', ?_⟩
  · show Except.map _ (buildSeq (types [answerHeader id, rv]) _ _) = _
    rw [hbuild, hs']
    rfl
  · have hread := hparse .empty
    rw [Slice.append_empty] at hread
    rw [awaitResume, if_neg, hread]
    · rfl
    · rw [hest, ← hwholeRefs]
      omega

/-- A value that does not fit one cell is received. -/
theorem awaitResume_of_not_fits (hid : id < 2 ^ 32) (hvalue : ChainValue l)
    (hend : l = [] ∨ SeqEndsInLeaf (types l))
    (hlarge : (estimateSeq [] (types l)).maxBits > Builder.maxBits ∨
      (estimateSeq [] (types l)).maxRefs > Builder.maxRefs)
    (hx : contractCallPrepare info init (answerHeader id) [Elem.aggregate isStruct l] = some x) :
    ∃ c p, x = .ok c ∧ parseHeader false c.ctos = .value ((id, none), p) ∧
      awaitResume (Elem.aggregate isStruct l).1 p = .value (Elem.aggregate isStruct l) := by
  have hbounds := messageTy_bounds info init (types [answerHeader id, Elem.aggregate isStruct l])
  have hseq : estimateSeq [] (types [answerHeader id, Elem.aggregate isStruct l]) =
      estimateSeq [] (types (answerHeader id :: l)) := by
    show estimate [] _ + (estimate [] (Elem.aggregate isStruct l).1 + 0) = _
    rw [estimate_aggregate hvalue]
    rfl
  rw [hseq] at hbounds
  have hx' := hx
  rw [contractCallPrepare, bodyPrepare_aggregate] at hx'
  have hheader : ∀ ts, estimateSeq [] ((answerHeader id).1 :: ts) =
      estimateSeq [] (fixedHeader false :: ts) := estimate_header id none
  obtain ⟨b, s, hb, rfl, hread⟩ := bodyPrepare_behind (headerEstimate id none)
    (fun hbits hrefs => ⟨hbounds.1.trans hbits, hbounds.2.trans hrefs⟩)
    (chainValue_answer hid hvalue) hx' hheader hend fun _ => .error .customDataParseError
  have hparse : parseHeader false (b ++ s) = .value ((id, none), s) :=
    @parseHeader_spec id none b hb s
  refine ⟨_, s, rfl, hparse, ?_⟩
  -- the receiver of arguments cuts at the same offset
  have hlarge' : (estimateSeq [] (fixedHeader false :: types l)).maxBits > Builder.maxBits ∨
      (estimateSeq [] (fixedHeader false :: types l)).maxRefs > Builder.maxRefs := by
    obtain ⟨hbits, hrefs⟩ := estimate_answer id l
    show (estimateSeq [] (types (answerHeader id :: l))).maxBits > _ ∨
      (estimateSeq [] (types (answerHeader id :: l))).maxRefs > _
    omega
  rw [parseSmart, if_neg Bool.false_ne_true, if_pos hlarge'] at hread
  have hread' : parseElems 32 0 (types l) s = .value l := hread
  rw [awaitResume, estimate_aggregate hvalue, if_pos hlarge]
  cases isStruct with
  | false =>
    show (parseElems 32 0 (types l) s).map Elem.tuple = _
    rw [hread']
    rfl
  | true =>
    show (parseElems 32 0 (types l) s).map Elem.struct = _
    rw [hread']
    rfl

theorem estimate_answerHeader (id : ℕ) :
    estimateSeq [] (types (expandAll [answerHeader id])) = ⟨32, 32, 0, 0⟩ := rfl

/-- A value that does not fit one cell with the header is cut behind some of its leaves, and the
first cell has the bits of these. -/
theorem exists_first_run {chain : List Elem} (hvalue : ChainValue l)
    (hcut : Builder.maxBits < 32 + (estimateSeq [] (types l)).maxBits)
    (hchain : makeChainTuple 0 0 (types (answerHeader id :: l)) (tupleVal (answerHeader id :: l)) =
      some chain) :
    ∃ n, elemsBits false chain = 32 + elemsBits false ((expandAll l).take n) ∧
      0 < elemsBits false ((expandAll l).drop n) := by
  have htotal : estimateSeq [] (types l) = estimateSeq [] (types (expandAll l)) := hvalue.estimate []
  rw [htotal] at hcut
  have hne : expandAll l ≠ [] := by
    intro hnil
    rw [hnil] at hcut
    exact absurd hcut (by decide)
  have hneTypes : types (expandAll l) ≠ [] := fun h => hne (List.map_eq_nil_iff.mp h)
  have hheader : estimateSeq [] (types (expandAll [answerHeader id])) = ⟨32, 32, 0, 0⟩ :=
    estimate_answerHeader id
  have hchain' : makeChainTuple 0 0 (types ([answerHeader id] ++ l))
      (tupleVal ([answerHeader id] ++ l)) = some chain := hchain
  obtain ⟨sizes, hsizes, -, rfl⟩ := exists_sizes_behind (by rw [hheader]; decide)
    (by rw [hheader]; decide) (by rw [hheader]; decide) hne hchain'
  rw [estimate_answerHeader] at hsizes
  have hlayout := layout_cellSizes hneTypes (by decide) (by decide) hsizes
  cases sizes with
  | nil =>
    -- everything would fit behind the header
    have hle : (estimateSeq [] (types (expandAll l))).maxBits ≤ Builder.maxBits - 32 := hlayout.2.1
    unfold Builder.maxBits at hle hcut
    omega
  | cons n sizes =>
    refine ⟨n, ?_, Nat.pos_of_ne_zero fun hzero => ?_⟩
    · rw [elemsBits_append, nest, elemsBits_append]
      rfl
    · -- the leaves of the first run leave no room for what is missing
      have hfit := hlayout.fits (Nat.sub_le _ _) (Nat.sub_le _ _)
      have htake : (estimateSeq [] ((types (expandAll l)).take n)).maxBits ≤
        Builder.maxBits - 32 := hlayout.1
      have hdrop := maxBits_of_elemsBits (l := (expandAll l).drop n) (fun e he =>
        ⟨hvalue.encodable e (List.mem_of_mem_drop he),
          hfit e.1 (List.mem_map_of_mem (List.mem_of_mem_drop he))⟩) hzero
      have hsplit := estimateSeq_append [] ((types (expandAll l)).take n)
        (types ((expandAll l).drop n))
      have hmap : types ((expandAll l).drop n) = (types (expandAll l)).drop n := List.map_drop
      rw [hmap] at hdrop hsplit
      rw [List.take_append_drop] at hsplit
      rw [hsplit, Estimate.add_maxBits, hdrop] at hcut
      unfold Builder.maxBits at htake hcut
      omega

/-- A value that fits one cell without the header only is not received: part of it is in the next
cell, where the receiver does not look for it. -/
theorem awaitResume_of_cut (hvalue : ChainValue l)
    (hcut : Builder.maxBits < 32 + (estimateSeq [] (types l)).maxBits)
    (hbits : (estimateSeq [] (types l)).maxBits ≤ Builder.maxBits)
    (hrefs : (estimateSeq [] (types l)).maxRefs ≤ Builder.maxRefs) {c : Cell}
    (hx : contractCallPrepare info init (answerHeader id) [Elem.aggregate isStruct l] =
      some (.ok c)) {r : ℕ × Option ℕ} {p : Slice}
    (hheader : parseHeader false c.ctos = .value (r, p)) :
    awaitResume (Elem.aggregate isStruct l).1 p ≠ .value (Elem.aggregate isStruct l) := by
  intro hread
  -- the message does not fit a cell either, so that the sender cuts
  have hbounds := messageTy_bounds info init (types [answerHeader id, Elem.aggregate isStruct l])
  have hseq : (estimateSeq [] (types [answerHeader id, Elem.aggregate isStruct l])).maxBits =
      32 + (estimateSeq [] (types l)).maxBits := by
    show 32 + 0 + ((estimate [] (Elem.aggregate isStruct l).1).maxBits + 0) = _
    rw [estimate_aggregate hvalue]
    rfl
  rw [contractCallPrepare, bodyPrepare_aggregate, bodyPrepare, if_pos (.inl (by omega))] at hx
  obtain ⟨chain, hchain, hcells⟩ := Option.map_eq_some_iff.mp hx
  obtain ⟨n, hfirst, hrest⟩ := exists_first_run hvalue hcut hchain
  obtain ⟨b, hbuild, rfl⟩ := map_eq_ok.mp hcells
  have hcell : b.size false = elemsBits false chain := by
    have hsize := size_of_build false _ _ hbuild
    rwa [Slice.size_empty, Nat.zero_add] at hsize
  -- the header takes 32 of the bits, and the value does not fit the others
  obtain ⟨⟨v, q⟩, hparsed, hvalue'⟩ := Read.bind_eq_value.mp hheader
  obtain rfl : q = p := by cases hvalue'; rfl
  have hbehind : 32 + q.size false ≤ b.size false :=
    size_of_parse false _ _ (Read.ofParsed_eq_value.mp hparsed)
  rw [awaitResume, estimate_aggregate hvalue, if_neg (by omega)] at hread
  obtain ⟨⟨w, q'⟩, hparse, heq⟩ := Read.map_eq_value.mp hread
  obtain rfl : w = (Elem.aggregate isStruct l).2 := eq_of_heq (Sigma.mk.inj heq).2
  have htaken := size_of_parse false _ _ (Read.ofParsed_eq_value.mp hparse)
  have hleaves : elemsBits false (expandAll l) =
      elemsBits false ((expandAll l).take n) + elemsBits false ((expandAll l).drop n) := by
    rw [← elemsBits_append, List.take_append_drop]
  rw [← elemsBits_expandElem, expandElem_aggregate] at htaken
  omega

theorem returnFuncId_lt {stored : Option ℕ} {funcId : ℕ} (hstored : ∀ id ∈ stored, id < 2 ^ 32)
    (hfunc : funcId < 2 ^ 32) : returnFuncId stored funcId < 2 ^ 32 := by
  cases stored with
  | none => exact Nat.or_lt_two_pow hfunc (by decide)
  | some id => exact hstored id rfl

/-- **A coroutine gets the value that was returned to it**, a tuple or struct of elements, exactly
if the value may not fit a cell alone, or fits one with the header. -/
theorem awaitResume_sendInternalAnswer_iff (info init : Ty) (stored : Option ℕ) (funcId : ℕ)
    (hstored : ∀ id ∈ stored, id < 2 ^ 32) (hfunc : funcId < 2 ^ 32) (isStruct : Bool)
    (l : List Elem) (hvalue : ChainValue l) (hend : l = [] ∨ SeqEndsInLeaf (types l))
    (x : Except TvmException Cell)
    (hx : sendInternalAnswer info init stored funcId (Elem.aggregate isStruct l) = some x) :
    (∃ c p, x = .ok c ∧ parseHeader false c.ctos = .value ((returnFuncId stored funcId, none), p) ∧
      awaitResume (Elem.aggregate isStruct l).1 p = .value (Elem.aggregate isStruct l)) ↔
    ¬ (Builder.maxBits - 32 < (estimateSeq [] (types l)).maxBits ∧
      (estimateSeq [] (types l)).maxBits ≤ Builder.maxBits ∧
      (estimateSeq [] (types l)).maxRefs ≤ Builder.maxRefs) := by
  have hid := returnFuncId_lt hstored hfunc
  constructor
  · rintro ⟨c, p, rfl, hheader, hread⟩ ⟨hcut, hbits, hrefs⟩
    exact awaitResume_of_cut hvalue (by unfold Builder.maxBits at hcut ⊢; omega) hbits hrefs hx
      hheader hread
  · intro h
    by_cases hlarge : (estimateSeq [] (types l)).maxBits > Builder.maxBits ∨
        (estimateSeq [] (types l)).maxRefs > Builder.maxRefs
    · exact awaitResume_of_not_fits hid hvalue hend hlarge hx
    · rw [not_or, not_lt, not_lt] at hlarge
      refine awaitResume_of_fits hid hvalue ?_ hlarge.2 hx
      unfold Builder.maxBits at h hlarge ⊢
      omega

end Answer

section Example

/-- A result of one cell with the header. -/
def smallResult : List Elem := [⟨.uint 8, (5 : ℕ)⟩, ⟨.bool, true⟩]

theorem smallResult_value : ChainValue smallResult := by
  have huint : StorableLeaf ⟨.uint 8, (5 : ℕ)⟩ :=
    ⟨trivial, trivial, trivial, trivial, ⟨by decide, (by decide : 5 < 2 ^ 8)⟩, trivial⟩
  have hbool : StorableLeaf ⟨.bool, true⟩ := ⟨trivial, trivial, trivial, trivial, trivial, trivial⟩
  exact List.forall_mem_cons.mpr ⟨huint, List.forall_mem_singleton.mpr hbool⟩

theorem sendInternalAnswer_smallResult :
    sendInternalAnswer commonMsgInfoTy initTy (some 7) 1 (.struct smallResult) =
      some (.ok (.mk (natBits 32 7 ++ (natBits 8 5 ++ [true])) [])) := by
  have hsizes : cellSizes 0 0 [.uint 32, .uint 8, .bool] = some [] :=
    cellSizes_of_fits (by decide) (by decide)
  rw [sendInternalAnswer, contractCallPrepare, bodyPrepare,
    if_pos (.inl (lt_estimate_message _ _))]
  show ((cellSizes 0 0 [.uint 32, .uint 8, .bool]).map (nest · _)).map _ = _
  rw [hsizes]
  rfl

theorem awaitResume_smallResult :
    ∃ c p, (.ok (.mk (natBits 32 7 ++ (natBits 8 5 ++ [true])) []) : Except TvmException Cell) =
        .ok c ∧ parseHeader false c.ctos = .value ((7, none), p) ∧
      awaitResume (.struct (types smallResult)) p = .value (.struct smallResult) :=
  (awaitResume_sendInternalAnswer_iff commonMsgInfoTy initTy (some 7) 1
    (by rintro _ ⟨⟩; decide) (by decide) true smallResult smallResult_value (.inr trivial) _
    sendInternalAnswer_smallResult).mpr (by decide)

/-- A result of 998 bits, which fits one cell without the header only. -/
def largeResult (bs : List Bool) : List Elem := [⟨.uint 8, (5 : ℕ)⟩, ⟨.bitfield 990, bs⟩]

theorem largeResult_value {bs : List Bool} (h : bs.length = 990) : ChainValue (largeResult bs) := by
  have huint : StorableLeaf ⟨.uint 8, (5 : ℕ)⟩ :=
    ⟨trivial, trivial, trivial, trivial, ⟨by decide, (by decide : 5 < 2 ^ 8)⟩, trivial⟩
  have hbits : StorableLeaf ⟨.bitfield 990, bs⟩ := ⟨trivial, trivial, trivial, trivial, trivial, h⟩
  exact List.forall_mem_cons.mpr ⟨huint, List.forall_mem_singleton.mpr hbits⟩

/-- The bit field is in the next cell. -/
theorem sendInternalAnswer_largeResult {bs : List Bool} (h : bs.length = 990) :
    sendInternalAnswer commonMsgInfoTy initTy (some 7) 1 (.struct (largeResult bs)) =
      some (.ok (.mk (natBits 32 7 ++ natBits 8 5) [.mk bs []])) := by
  have hrest : cellSizes 0 0 [.bitfield 990] = some [] :=
    cellSizes_of_fits (by decide) (by decide)
  have hsizes : cellSizes 0 0 [.uint 32, .uint 8, .bitfield 990] = some [2] := by
    rw [cellSizes]
    show Option.map _ (cellSizes 0 0 [.bitfield 990]) = _
    rw [hrest]
    rfl
  have hstore : Builder.stslice bs .empty = .ok (.ofBits bs) :=
    store_eq_ok ⟨h.trans_le (by decide), Nat.zero_le _⟩
  rw [sendInternalAnswer, contractCallPrepare, bodyPrepare,
    if_pos (.inl (lt_estimate_message _ _))]
  show ((cellSizes 0 0 [.uint 32, .uint 8, .bitfield 990]).map (nest · _)).map _ = _
  rw [hsizes]
  show some (((Builder.stu 7 32 .empty).bind fun b => (b.stu 5 8).bind fun b =>
    (((Builder.stslice bs .empty).bind .ok).bind fun inner =>
      b.stref inner.endc).bind .ok).map Builder.endc) = _
  rw [hstore]
  rfl

/-- The coroutine does not find the bit field of the result. -/
theorem awaitResume_largeResult :
    ChainValue (largeResult (.replicate 990 false)) ∧
      (estimate [] (.struct [.uint 8, .bitfield 990])).maxBits = 998 ∧
      sendInternalAnswer commonMsgInfoTy initTy (some 7) 1
          (.struct (largeResult (.replicate 990 false))) =
        some (.ok (.mk (natBits 32 7 ++ natBits 8 5) [.mk (.replicate 990 false) []])) ∧
      parseHeader false ⟨natBits 32 7 ++ natBits 8 5, [.mk (.replicate 990 false) []]⟩ =
        .value ((7, none), ⟨natBits 8 5, [.mk (.replicate 990 false) []]⟩) ∧
      awaitResume (.struct [.uint 8, .bitfield 990])
          ⟨natBits 8 5, [.mk (.replicate 990 false) []]⟩ =
        .throw (.exception .cellUnderflow) := by
  have hlength : (List.replicate 990 false).length = 990 := List.length_replicate
  exact ⟨largeResult_value hlength, rfl, sendInternalAnswer_largeResult hlength, rfl, rfl⟩

end Example

end TVMCompiler.Sdk
