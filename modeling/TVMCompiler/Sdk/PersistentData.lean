import TVMCompiler.Sdk.ChainRuns
import TVMCompiler.Sdk.PersistentHeader

/-!
# Persistent data and message bodies

A contract saves its persistent header and its fields as one chain of cells, and loads the header
before it computes the cuts of the fields. A message body is a chain of a header and the
arguments of a method, and the receiver parses the header before the arguments.

## Main definitions

* `persistentHeader`, `preparePersistentData`, `parsePersistentData`: saved data
* `internalBodyPrepare`, `contractCallPrepare`: the bodies of calls
* `parseHeader`, `parseSmart`: the receiver

## Main results

* `parse_preparePersistentData`: saved data are loaded again
* `parse_bodyPrepare`: the receiver finds the arguments of a call
* `saved_and_sent`: both, with the agreement of writer and reader on the cuts
-/

namespace TVMCompiler.Sdk

open Lib

/-! ## Persistent data -/

/-- The type of `awaiting_responses_map`. -/
def awaitingTy : Ty := .struct [.uint 32, .struct [.dict]]

def awaitingElem (nextAnswerId : ℕ) (dict : Option Cell) : Elem :=
  ⟨awaitingTy, (nextAnswerId, (dict, ()), ())⟩

/-- `get_persistent_header_tuple`: replay data, the waiting coroutines, both or none. -/
def persistentHeader : Option Elem → Option Elem → Option Elem
  | some replay, some awaiting => some (.tuple [replay, awaiting])
  | some replay, none => some replay
  | none, some awaiting => some awaiting
  | none, none => none

/-- `prepare_persistent_data`: the bit `uninitialized`, the header and the fields. -/
def preparePersistentData (hdr : Option Elem) (base : List Elem) :
    Option (Except TvmException Cell) :=
  let combined := ⟨.uint 1, (0 : ℕ)⟩ :: hdr.toList ++ base
  (makeChainTuple 0 0 (types combined) (tupleVal combined)).map buildElems

/-- `parse_persistent_data`. A header without a fixed size does not compile. -/
def parsePersistentData (hdr : Option Ty) (data : List Ty) (state : Cell) :
    Read (Option Elem × List Elem) :=
  (Read.ofLoad (state.ctos.ldu 1)).bind fun r =>
    if r.1 ≠ 0 then .throw .methodCalledWithoutInit
    else match hdr with
      | none => (parseElems 1 0 data r.2).map fun base => (none, base)
      | some t =>
        (Read.ofParsed (parse t [] r.2) .persistentDataParseError).bind fun s =>
          if (estimate [] t).maxBits = (estimate [] t).minBits then
            (parseElems (1 + (estimate [] t).maxBits) (estimate [] t).maxRefs data s.2).map
              fun base => (some ⟨t, s.1⟩, base)
          else none

/-- The header has a fixed size, and leaves a reference to spare in the first cell. -/
def HeaderFits (hdr : Option Elem) : Prop :=
  ∀ h, hdr = some h → (estimate [] h.1).maxBits = (estimate [] h.1).minBits ∧
    1 + (estimate [] h.1).maxBits ≤ Builder.maxBits ∧ (estimate [] h.1).maxRefs < Builder.maxRefs

/-! ## Message bodies -/

/-- `prepare_internal_header`: the id of the function, and the answer id of a method with one. -/
def prepareInternalHeader (functionId : ℕ) : Option ℕ → Elem
  | none => ⟨.struct [.uint 32], (functionId, ())⟩
  | some answerId => ⟨.struct [.uint 32, .uint 32], (functionId, answerIdField answerId, ())⟩

/-- The body of a call, which is cut into a chain if something of this size may not fit a cell. -/
def bodyPrepare (est : Estimate) (hdr : Elem) (args : List Elem) :
    Option (Except TvmException Cell) :=
  if est.maxBits > Builder.maxBits ∨ est.maxRefs > Builder.maxRefs then
    (makeChainTuple 0 0 (types (hdr :: args)) (tupleVal (hdr :: args))).map buildElems
  else some (buildElems (hdr :: args))

/-- `internal_body_prepare`. -/
def internalBodyPrepare (hdr : Elem) (args : List Elem) : Option (Except TvmException Cell) :=
  bodyPrepare (estimateSeq [] (types (hdr :: args))) hdr args

/-- `int_msg_info_t`, for the kind of the source. -/
def intMsgInfoTy (src : AddressKind) : Ty :=
  .struct [.bitconst 1 0b0, .bool, .bool, .bool, .msgAddress src, .msgAddress .int,
    .struct [.varuint .var16, .struct [.dict]], .varuint .var16, .varuint .var16, .uint 64, .uint 32]

def extInMsgInfoTy : Ty :=
  .struct [.bitconst 2 0b10, .msgAddress .ext, .msgAddress .int, .varuint .var16]

def extOutMsgInfoTy (src : AddressKind) : Ty :=
  .struct [.bitconst 2 0b11, .msgAddress src, .msgAddress .ext, .uint 64, .uint 32]

/-- `CommonMsgInfo`. -/
def commonMsgInfoTy : Ty := .variant [intMsgInfoTy .int, extInMsgInfoTy, extOutMsgInfoTy .int]

def stateInitTy : Ty :=
  .struct [.optional (.uint 5), .optional (.struct [.bool, .bool]), .optional .cell,
    .optional .cell, .optional .cell]

/-- The field `init` of a message. -/
def initTy : Ty := .optional (.either stateInitTy (.ref stateInitTy))

/-- `message`, for the types of its first two fields. -/
def messageTy (info init body : Ty) : Ty := .struct [info, init, .either body (.ref body)]

/-- `contract_call_prepare`: the content of the message's body, which stands behind a reference
if it is a chain. The whole message has to fit for the body to stay in its cell. -/
def contractCallPrepare (info init : Ty) (hdr : Elem) (args : List Elem) :
    Option (Except TvmException Cell) :=
  bodyPrepare (estimate [] (messageTy info init (.tuple (types (hdr :: args))))) hdr args

/-- The receiver's header: the id of the function, and the answer id of a method that has one. -/
def parseHeader (hasAnswerId : Bool) (p : Slice) : Read ((ℕ × Option ℕ) × Slice) :=
  (Read.ofParsed (parse (.struct [.uint 32]) [] p) .badArguments).bind fun r =>
    if hasAnswerId then (Read.ofLoad (r.2.ldu 32)).map fun s => ((r.1.1, some s.1), s.2)
    else .value ((r.1.1, none), r.2)

/-- The header of the messages of a method: `MsgHeader`, or a tuple of it and the answer id. -/
def fixedHeader (hasAnswerId : Bool) : Ty :=
  if hasAnswerId then .tuple [.struct [.uint 32], .uint 32] else .struct [.uint 32]

/-- `parse_smart`, for an internal message. -/
def parseSmart (emptyContent : (t : Ty) → Except ParseError t.Val) (dynChain : Bool)
    (msgHeader : Ty) (data : List Ty) (p : Slice) : Read (List Elem) :=
  if dynChain then parseChainDynamic emptyContent data p
  else if (estimateSeq [] (msgHeader :: data)).maxBits > Builder.maxBits ∨
      (estimateSeq [] (msgHeader :: data)).maxRefs > Builder.maxRefs then
    parseElems (estimateSeq [] [msgHeader]).maxBits (estimateSeq [] [msgHeader]).maxRefs data p
  else
    (Read.ofParsed (parse (.struct data) [] p) .customDataParseError).map fun r => elems data r.1

/-! ## Writers that compile -/

/-- A chain exists if each leaf leaves a reference to spare. -/
theorem exists_makeChainTuple {l : List Elem} (h : ∀ e ∈ expandAll l, LeavesRef e.1)
    (hne : expandAll l ≠ []) : ∃ l', makeChainTuple 0 0 (types l) (tupleVal l) = some l' := by
  obtain ⟨sizes, hsizes⟩ := exists_cellSizes 0 0 (forall_mem_types.mpr h)
  exact ⟨_, by rw [makeChainTuple_of_ne_nil hne, ← types_expandAll, hsizes]; rfl⟩

theorem exists_preparePersistentData {hdr : Option Elem} {base : List Elem}
    (h : ∀ e ∈ expandAll (hdr.toList ++ base), LeavesRef e.1) :
    ∃ x, preparePersistentData hdr base = some x := by
  have hleaves : ∀ e ∈ expandAll (⟨.uint 1, (0 : ℕ)⟩ :: hdr.toList ++ base), LeavesRef e.1 :=
    List.forall_mem_cons.mpr ⟨by decide, h⟩
  obtain ⟨l, hl⟩ := exists_makeChainTuple hleaves (List.cons_ne_nil _ _)
  exact ⟨buildElems l, by rw [preparePersistentData, hl]; rfl⟩

theorem exists_bodyPrepare {est : Estimate} {hdr : Elem} {args : List Elem}
    (h : ∀ e ∈ expandAll (hdr :: args), LeavesRef e.1) (hne : expandAll (hdr :: args) ≠ []) :
    ∃ x, bodyPrepare est hdr args = some x := by
  unfold bodyPrepare
  split
  · obtain ⟨l, hl⟩ := exists_makeChainTuple h hne
    exact ⟨buildElems l, by rw [hl]; rfl⟩
  · exact ⟨_, rfl⟩

/-! ## Saved data are loaded again -/

section Saved

variable {hdr : Option Elem} {base : List Elem}

/-- The elements in front of the fields fit the first cell. -/
theorem HeaderFits.front (h : HeaderFits hdr) :
    (estimateSeq [] (types (⟨.uint 1, (0 : ℕ)⟩ :: hdr.toList))).maxBits ≤ Builder.maxBits ∧
      (estimateSeq [] (types (⟨.uint 1, (0 : ℕ)⟩ :: hdr.toList))).maxRefs < Builder.maxRefs ∧
      (estimateSeq [] (types (⟨.uint 1, (0 : ℕ)⟩ :: hdr.toList))).maxBits ≠ 0 := by
  cases hdr with
  | none => exact ⟨by decide, by decide, by decide⟩
  | some e =>
    obtain ⟨-, hbits, hrefs⟩ := h e rfl
    show (1 + ((estimate [] e.1).maxBits + 0) ≤ _ ∧ 0 + ((estimate [] e.1).maxRefs + 0) < _ ∧
      1 + ((estimate [] e.1).maxBits + 0) ≠ 0)
    omega

/-- The reader of what is behind the bit `uninitialized` and the header. -/
theorem parsePersistentData_front (hfits : HeaderFits hdr)
    (hhdr : ∀ h, hdr = some h → h.1.WellFormed ∧ Fits h.1 [] h.2) {b : Builder}
    (hbuild : buildSeq (types (⟨.uint 1, (0 : ℕ)⟩ :: hdr.toList))
      (tupleVal (⟨.uint 1, (0 : ℕ)⟩ :: hdr.toList)) .empty = .ok b) (s : Slice) :
    parsePersistentData (hdr.map Sigma.fst) (types base) (Builder.endc (b ++ s)) =
      (parseElems (estimateSeq [] (types (⟨.uint 1, (0 : ℕ)⟩ :: hdr.toList))).maxBits
        (estimateSeq [] (types (⟨.uint 1, (0 : ℕ)⟩ :: hdr.toList))).maxRefs (types base) s).map
          fun base => (hdr, base) := by
  obtain ⟨b₁, hbit, hrest⟩ := bind_eq_ok.mp hbuild
  obtain ⟨s₁, rfl, hld⟩ := roundTrips_stu 0 1 _ _ hbit
  rw [parsePersistentData, ctos_endc]
  cases hdr with
  | none =>
    obtain rfl : _ = b := Except.ok.inj hrest
    rw [Slice.empty_append, hld]
    rfl
  | some e =>
    obtain ⟨hsize, -, -⟩ := hfits e rfl
    obtain ⟨hwf, hfitsVal⟩ := hhdr e rfl
    have hbuildHdr : build e.1 e.2 (.empty ++ s₁) = .ok b := by
      rw [← hrest]
      exact (buildSeq_singleton e _).symm
    obtain ⟨s₂, rfl, hparse⟩ := build_roundTrips e.1 [] e.2 hwf hfitsVal _ _ hbuildHdr
    rw [Slice.empty_append, Slice.append_assoc, hld]
    show Read.bind (Read.ofParsed (parse e.1 [] (s₂ ++ s)) _) _ = _
    rw [hparse]
    show (if _ then _ else none) = _
    rw [if_pos hsize]
    show (parseElems (1 + (estimate [] e.1).maxBits) (estimate [] e.1).maxRefs _ s).map _ =
      (parseElems (1 + ((estimate [] e.1).maxBits + 0)) (0 + ((estimate [] e.1).maxRefs + 0)) _ s).map _
    rw [Nat.zero_add]
    rfl

/-- **Saved data are loaded again.** -/
theorem parse_preparePersistentData (hfits : HeaderFits hdr)
    (hvalue : ChainValue (hdr.toList ++ base)) (hend : base = [] ∨ SeqEndsInLeaf (types base))
    {x : Except TvmException Cell} (hx : preparePersistentData hdr base = some x) :
    ∃ c, x = .ok c ∧
      parsePersistentData (hdr.map Sigma.fst) (types base) c = .value (hdr, base) := by
  obtain ⟨l, hchain, rfl⟩ := Option.map_eq_some_iff.mp hx
  have hbit : StorableLeaf ⟨.uint 1, (0 : ℕ)⟩ :=
    ⟨trivial, trivial, trivial, trivial, ⟨by decide, (by decide : 0 < 2 ^ 1)⟩, trivial⟩
  have hall : ChainValue ((⟨.uint 1, (0 : ℕ)⟩ :: hdr.toList) ++ base) :=
    chainValue_cons.mpr ⟨List.forall_mem_singleton.mpr hbit, hvalue⟩
  obtain ⟨hbits, hrefs, hpos⟩ := hfits.front
  obtain ⟨b, s, hb, hbuild, hread⟩ := chain_behind hall hend hbits hrefs hpos hchain
  refine ⟨_, hbuild, ?_⟩
  rw [parsePersistentData_front hfits ?_ hb s]
  · have hread' := hread .empty
    rw [Slice.append_empty] at hread'
    rw [hread']
    rfl
  · rintro h rfl
    obtain ⟨hwf, hfitsVal⟩ := whole_of_leaves h.1 h.2 (chainValue_cons.mp hvalue).1
    exact ⟨hwf, hfitsVal []⟩

end Saved

/-! ## The receiver finds the arguments -/

section Sent

variable {functionId : ℕ} {answerId : Option ℕ} {args : List Elem}

theorem answerIdField_lt (answerId : ℕ) : answerIdField answerId < 2 ^ 32 := by
  unfold answerIdField
  split
  · decide
  · rename_i hshift
    have hlt : answerId < 2 ^ 32 := by
      rw [not_not, Nat.shiftRight_eq_div_pow] at hshift
      exact Nat.lt_of_div_eq_zero (by decide) hshift
    exact Nat.or_lt_two_pow hlt (by decide)

theorem storableLeaf_uint {bitlen n : ℕ} (hlen : bitlen ≤ 256) (h : n < 2 ^ bitlen) :
    StorableLeaf ⟨.uint bitlen, n⟩ := ⟨trivial, trivial, trivial, trivial, ⟨hlen, h⟩, trivial⟩

theorem storableLeaf_uint32 {n : ℕ} (h : n < 2 ^ 32) : StorableLeaf ⟨.uint 32, n⟩ :=
  storableLeaf_uint (by decide) h

theorem header_leaves (h : functionId < 2 ^ 32) (answerId : Option ℕ) :
    ∀ e ∈ expandElem (prepareInternalHeader functionId answerId).1
      (prepareInternalHeader functionId answerId).2, StorableLeaf e := by
  cases answerId with
  | none => exact List.forall_mem_singleton.mpr (storableLeaf_uint32 h)
  | some answerId =>
    exact List.forall_mem_cons.mpr ⟨storableLeaf_uint32 h,
      List.forall_mem_singleton.mpr (storableLeaf_uint32 (answerIdField_lt answerId))⟩

theorem header_ne_nil (functionId : ℕ) (answerId : Option ℕ) :
    expandElem (prepareInternalHeader functionId answerId).1
      (prepareInternalHeader functionId answerId).2 ≠ [] := by
  cases answerId with
  | none => exact List.cons_ne_nil _ _
  | some answerId => exact List.cons_ne_nil _ _

theorem header_leavesRef (functionId : ℕ) (answerId : Option ℕ) :
    ∀ e ∈ expandElem (prepareInternalHeader functionId answerId).1
      (prepareInternalHeader functionId answerId).2, LeavesRef e.1 := by
  have huint : LeavesRef (.uint 32) := by decide
  cases answerId with
  | none => exact List.forall_mem_singleton.mpr huint
  | some answerId => exact List.forall_mem_cons.mpr ⟨huint, List.forall_mem_singleton.mpr huint⟩

/-- The estimate of the header is the receiver's, of the header and the answer id. -/
theorem estimate_header (functionId : ℕ) (answerId : Option ℕ) (ts : List Ty) :
    estimateSeq [] ((prepareInternalHeader functionId answerId).1 :: ts) =
      estimateSeq [] (fixedHeader answerId.isSome :: ts) := by
  cases answerId <;> rfl

/-- The receiver reads the header, and stops where the arguments begin. -/
theorem parseHeader_spec {b : Builder} (hbuild : build (prepareInternalHeader functionId answerId).1
      (prepareInternalHeader functionId answerId).2 .empty = .ok b) (s : Slice) :
    parseHeader answerId.isSome (b ++ s) =
      .value ((functionId, answerId.map answerIdField), s) := by
  cases answerId with
  | none =>
    obtain ⟨s₁, rfl, hparse⟩ := build_roundTrips (.struct [.uint 32]) [] (functionId, ())
      ⟨trivial, trivial⟩ ⟨trivial, trivial⟩ _ _ hbuild
    rw [Slice.empty_append, parseHeader, hparse]
    rfl
  | some answerId =>
    obtain ⟨b₁, hfirst, hrest⟩ := bind_eq_ok.mp hbuild
    obtain ⟨b₂, hsecond, hb₂⟩ := bind_eq_ok.mp hrest
    obtain rfl : b₂ = b := Except.ok.inj hb₂
    have hfirst' : build (.struct [.uint 32]) (functionId, ()) .empty = .ok b₁ := by
      show (build (.uint 32) functionId .empty).bind Except.ok = _
      rw [hfirst]
      rfl
    obtain ⟨s₁, rfl, hparse⟩ := build_roundTrips (.struct [.uint 32]) [] (functionId, ())
      ⟨trivial, trivial⟩ ⟨trivial, trivial⟩ _ _ hfirst'
    obtain ⟨s₂, rfl, hld⟩ := roundTrips_stu (answerIdField answerId) 32 _ _ hsecond
    rw [Slice.empty_append, Slice.append_assoc, parseHeader, hparse]
    show (Read.ofLoad (Slice.ldu 32 (s₂ ++ s))).map _ = _
    rw [hld]
    rfl

/-- A body that fits one cell holds the elements one after another, cut or not. -/
theorem bodyPrepare_of_fits {est : Estimate} {hdr : Elem} {x : Except TvmException Cell}
    (hvalue : ChainValue (hdr :: args)) (hne : expandAll (hdr :: args) ≠ [])
    (hbits : (estimateSeq [] (types (hdr :: args))).maxBits ≤ Builder.maxBits)
    (hrefs : (estimateSeq [] (types (hdr :: args))).maxRefs ≤ Builder.maxRefs)
    (hx : bodyPrepare est hdr args = some x) : x = buildElems (hdr :: args) := by
  unfold bodyPrepare at hx
  split at hx
  · rw [hvalue.estimate] at hbits hrefs
    rw [makeChainTuple_of_ne_nil hne, ← types_expandAll, cellSizes_of_fits hbits hrefs] at hx
    obtain rfl : buildElems (expandAll (hdr :: args)) = x := Option.some.inj hx
    exact congrArg (Except.map Builder.endc) (buildSeq_makeExpandedTuple _ _ _)
  · exact (Option.some.inj hx).symm

/-- The estimates of the two headers. -/
theorem headerEstimate (functionId : ℕ) (answerId : Option ℕ) :
    (estimateSeq [] [(prepareInternalHeader functionId answerId).1]).maxBits ≤ Builder.maxBits ∧
      (estimateSeq [] [(prepareInternalHeader functionId answerId).1]).maxRefs < Builder.maxRefs ∧
      (estimateSeq [] [(prepareInternalHeader functionId answerId).1]).maxBits ≠ 0 := by
  rw [estimate_header]
  cases answerId.isSome
  · exact ⟨by decide, by decide, by decide⟩
  · exact ⟨by decide, by decide, by decide⟩

theorem expandAll_cons_ne_nil {hdr : Elem} (hpos : (estimateSeq [] [hdr.1]).maxBits ≠ 0)
    (hvalue : ChainValue (hdr :: args)) : expandAll (hdr :: args) ≠ [] := by
  intro hnil
  have hhdr : expandAll [hdr] = [] := by
    rw [expandAll_cons] at hnil
    rw [expandAll_cons, (List.append_eq_nil_iff.mp hnil).1]
    rfl
  have hzero := (chainValue_cons.mpr ⟨(chainValue_cons.mp hvalue).1,
    List.forall_mem_nil _⟩ : ChainValue [hdr]).estimate []
  rw [hhdr] at hzero
  exact hpos (congrArg Estimate.maxBits hzero)

section Body

variable {est : Estimate} {hdr : Elem} {x : Except TvmException Cell}
  (hfront : (estimateSeq [] [hdr.1]).maxBits ≤ Builder.maxBits ∧
    (estimateSeq [] [hdr.1]).maxRefs < Builder.maxRefs ∧ (estimateSeq [] [hdr.1]).maxBits ≠ 0)
  (hest : est.maxBits ≤ Builder.maxBits → est.maxRefs ≤ Builder.maxRefs →
    (estimateSeq [] (types (hdr :: args))).maxBits ≤ Builder.maxBits ∧
    (estimateSeq [] (types (hdr :: args))).maxRefs ≤ Builder.maxRefs)
  (hvalue : ChainValue (hdr :: args)) (hx : bodyPrepare est hdr args = some x)

include hfront hest hvalue hx

/-- A body holds the elements in one cell if they fit there, and is a chain otherwise. -/
theorem bodyPrepare_cases :
    ((estimateSeq [] (types (hdr :: args))).maxBits ≤ Builder.maxBits ∧
        (estimateSeq [] (types (hdr :: args))).maxRefs ≤ Builder.maxRefs) ∧
      x = buildElems (hdr :: args) ∨
    ¬ ((estimateSeq [] (types (hdr :: args))).maxBits ≤ Builder.maxBits ∧
        (estimateSeq [] (types (hdr :: args))).maxRefs ≤ Builder.maxRefs) ∧
      ∃ l, makeChainTuple 0 0 (types (hdr :: args)) (tupleVal (hdr :: args)) = some l ∧
        x = buildElems l := by
  have hne := expandAll_cons_ne_nil hfront.2.2 hvalue
  by_cases hfits : (estimateSeq [] (types (hdr :: args))).maxBits ≤ Builder.maxBits ∧
      (estimateSeq [] (types (hdr :: args))).maxRefs ≤ Builder.maxRefs
  · exact .inl ⟨hfits, bodyPrepare_of_fits hvalue hne hfits.1 hfits.2 hx⟩
  · refine .inr ⟨hfits, ?_⟩
    unfold bodyPrepare at hx
    split at hx
    · obtain ⟨l, hl, rfl⟩ := Option.map_eq_some_iff.mp hx
      exact ⟨l, hl, rfl⟩
    · rename_i hsmall
      rw [not_or, not_lt, not_lt] at hsmall
      exact absurd (hest hsmall.1 hsmall.2) hfits

/-- Cut or not, a body is the header, and behind it the arguments as they are cut there. -/
theorem bodyPrepare_stored (hne : expandAll args ≠ []) :
    ∃ b, build hdr.1 hdr.2 .empty = .ok b ∧
      x = .ok (Builder.endc (b ++ storedBehind hdr.1 args)) := by
  have hcases := bodyPrepare_cases hfront hest hvalue hx
  obtain ⟨hbits, hrefs, hpos⟩ := hfront
  rcases hcases with ⟨⟨hfits, hfitsRefs⟩, rfl⟩ | ⟨-, l, hl, rfl⟩
  · -- what fits one cell is a chain of one cell
    rw [hvalue.estimate] at hfits hfitsRefs
    have hchain : makeChainTuple 0 0 (types (hdr :: args)) (tupleVal (hdr :: args)) =
        some (expandAll (hdr :: args)) := by
      rw [makeChainTuple_of_ne_nil (expandAll_cons_ne_nil hpos hvalue), ← types_expandAll,
        cellSizes_of_fits hfits hfitsRefs]
      rfl
    obtain ⟨b, hb, hcell⟩ := buildElems_behind hvalue hne hbits hrefs hpos hchain
    exact ⟨b, hb, (congrArg (Except.map Builder.endc)
      (buildSeq_makeExpandedTuple _ _ _)).symm.trans hcell⟩
  · exact buildElems_behind hvalue hne hbits hrefs hpos hl

/-- **The arguments are found behind a header** of the same estimates for sender and receiver. -/
theorem bodyPrepare_behind {msgHeader : Ty}
    (hsame : ∀ ts, estimateSeq [] (hdr.1 :: ts) = estimateSeq [] (msgHeader :: ts))
    (hend : args = [] ∨ SeqEndsInLeaf (types args))
    (emptyContent : (t : Ty) → Except ParseError t.Val) :
    ∃ b s, build hdr.1 hdr.2 .empty = .ok b ∧ x = .ok (Builder.endc (b ++ s)) ∧
      parseSmart emptyContent false msgHeader (types args) s = .value args := by
  have hargs : ChainValue args := (chainValue_cons.mp hvalue).2
  have hcases := bodyPrepare_cases hfront hest hvalue hx
  obtain ⟨hbits, hrefs, hpos⟩ := hfront
  rcases hcases with ⟨hfits, rfl⟩ | ⟨hfits, l, hl, rfl⟩
  · -- everything is in one cell
    have hbits := hfits.1
    have hrefs := hfits.2
    rw [hvalue.estimate] at hbits hrefs
    obtain ⟨s, -, hbuild⟩ := (buildSeq_stores_of_encodable hvalue.encodable).exists_ok
      (b := .empty) (by simpa [Slice.empty] using hbits) (by simpa [Slice.empty] using hrefs)
    rw [expandAll, buildSeq_makeExpandedTuple] at hbuild
    obtain ⟨b, hb, hrest⟩ := bind_eq_ok.mp hbuild
    obtain ⟨hwf, hfitsVal⟩ := wholeSeq_of_leaves (types args) (tupleVal args) hargs
    obtain ⟨s', hs', hparse⟩ := build_roundTrips (.struct (types args)) [] (tupleVal args) hwf
      (hfitsVal true []) _ _ hrest
    refine ⟨b, s', hb, ?_, ?_⟩
    · show Except.map _ (buildSeq (types (hdr :: args)) _ _) = _
      rw [hbuild, hs']
      rfl
    · have hall := hparse .empty
      rw [Slice.append_empty] at hall
      rw [parseSmart, if_neg Bool.false_ne_true, if_neg, hall]
      · show Read.value (elems (types args) (tupleVal args)) = _
        rw [elems_tupleVal]
      · rw [← hsame]
        exact not_or.mpr ⟨not_lt.mpr hfits.1, not_lt.mpr hfits.2⟩
  · -- sender and receiver cut at the offset of the header
    obtain ⟨b, s, hb, hbuild, hread⟩ :=
      chain_behind (show ChainValue ([hdr] ++ args) from hvalue) hend hbits hrefs hpos hl
    refine ⟨b, s, (buildSeq_singleton hdr _).symm.trans hb, hbuild, ?_⟩
    have hall := hread .empty
    rw [Slice.append_empty] at hall
    rw [parseSmart, if_neg Bool.false_ne_true, ← hsame, ← hsame,
      if_pos (by rwa [not_and_or, not_le, not_le] at hfits)]
    exact hall

/-- **The dynamic reader finds the arguments behind a header** as well, if the sender cuts none. -/
theorem bodyPrepare_dynamic (hend : SeqEndsInLeaf (types args)) (hread : DynReadable hdr.1 args) :
    ∃ b s, build hdr.1 hdr.2 .empty = .ok b ∧ x = .ok (Builder.endc (b ++ s)) ∧
      ∀ emptyContent, parseChainDynamic emptyContent (types args) s = .value args := by
  obtain ⟨b, s, hb, hcell, -⟩ := bodyPrepare_behind hfront hest hvalue hx (fun _ => rfl) (.inr hend)
    fun _ => .error .customDataParseError
  have hcases := bodyPrepare_cases hfront hest hvalue hx
  obtain ⟨hbits, hrefs, hpos⟩ := hfront
  rcases hcases with ⟨-, rfl⟩ | ⟨-, l, hl, rfl⟩
  · -- the cell holds a single run
    obtain ⟨hhdr, hargs⟩ := chainValue_cons.mp hvalue
    obtain ⟨b', hbuild, hb'⟩ := map_eq_ok.mp hcell
    obtain ⟨b₁, hfirst, hrest⟩ := bind_eq_ok.mp hbuild
    obtain ⟨-, -, hvalid⟩ := encoded_of_leaves hhdr valid_empty hfirst
    obtain ⟨hencoded, rfl, -⟩ := buildSeq_encodeRun hargs hvalid hrest
    refine ⟨b₁, chainOf [args], hfirst, hcell.trans (congrArg Except.ok hb'.symm),
      fun emptyContent => parseChainDynamic_chainOf emptyContent ?_ ⟨List.append_nil args,
        fun e he => ⟨hencoded e he, hread.takes e he⟩, nofun, nofun⟩⟩
    rintro rfl
    exact hend
  · exact parseChainDynamic_behind hvalue (expandAll_ne_nil hend) hbits hrefs hpos hl hread

/-- Either reader finds the arguments behind a header. -/
theorem bodyPrepare_reads {msgHeader : Ty} {dyn : Bool}
    (hsame : ∀ ts, estimateSeq [] (hdr.1 :: ts) = estimateSeq [] (msgHeader :: ts))
    (hend : args = [] ∨ SeqEndsInLeaf (types args))
    (hdyn : dyn = true → DynReadable hdr.1 args) :
    ∃ b s, build hdr.1 hdr.2 .empty = .ok b ∧ x = .ok (Builder.endc (b ++ s)) ∧
      ∀ emptyContent, parseSmart emptyContent dyn msgHeader (types args) s = .value args := by
  obtain ⟨b, s, hb, hcell, hread⟩ := bodyPrepare_behind hfront hest hvalue hx hsame hend
    fun _ => .error .customDataParseError
  cases dyn with
  | false => exact ⟨b, s, hb, hcell, fun _ => hread⟩
  | true =>
    rcases hend with rfl | hend
    · exact ⟨b, s, hb, hcell, fun _ => rfl⟩
    · exact bodyPrepare_dynamic hfront hest hvalue hx hend (hdyn rfl)

end Body

/-- **The receiver finds the arguments of a call**, whatever part of the message the sender has
taken the size of. -/
theorem parse_bodyPrepare {est : Estimate} {dyn : Bool} {x : Except TvmException Cell}
    (hest : est.maxBits ≤ Builder.maxBits → est.maxRefs ≤ Builder.maxRefs →
      (estimateSeq [] (types (prepareInternalHeader functionId answerId :: args))).maxBits ≤
        Builder.maxBits ∧
      (estimateSeq [] (types (prepareInternalHeader functionId answerId :: args))).maxRefs ≤
        Builder.maxRefs)
    (hid : functionId < 2 ^ 32) (hargs : ChainValue args)
    (hend : args = [] ∨ SeqEndsInLeaf (types args))
    (hdyn : dyn = true → DynReadable (prepareInternalHeader functionId answerId).1 args)
    (hx : bodyPrepare est (prepareInternalHeader functionId answerId) args = some x) :
    ∃ c p, x = .ok c ∧
      parseHeader answerId.isSome c.ctos = .value ((functionId, answerId.map answerIdField), p) ∧
      ∀ emptyContent, parseSmart emptyContent dyn (fixedHeader answerId.isSome) (types args) p =
        .value args := by
  obtain ⟨b, s, hb, rfl, hread⟩ := bodyPrepare_reads (headerEstimate functionId answerId) hest
    (chainValue_cons.mpr ⟨header_leaves hid answerId, hargs⟩) hx
    (estimate_header functionId answerId) hend hdyn
  exact ⟨_, s, rfl, parseHeader_spec hb s, hread⟩

/-- A message that fits its cell leaves room for its body. -/
theorem messageTy_bounds (info init : Ty) (ts : List Ty) :
    (estimateSeq [] ts).maxBits ≤ (estimate [] (messageTy info init (.tuple ts))).maxBits ∧
      (estimateSeq [] ts).maxRefs ≤ (estimate [] (messageTy info init (.tuple ts))).maxRefs := by
  simp only [messageTy, estimate, estimateSeq, Estimate.add_zero, Estimate.add_maxBits,
    Estimate.add_maxRefs, Estimate.alternative]
  constructor <;> omega

/-- A message is never estimated to fit a cell, so that every body is cut like a chain. -/
theorem lt_estimate_message (init : Ty) (ts : List Ty) :
    Builder.maxBits < (estimate [] (messageTy commonMsgInfoTy init (.tuple ts))).maxBits := by
  have hinfo (fields : List Ty) : estimate fields commonMsgInfoTy = estimate [] commonMsgInfoTy :=
    rfl
  rw [messageTy, estimate, estimateSeq, Estimate.add_maxBits, hinfo]
  exact Nat.lt_of_lt_of_le (by decide) (Nat.le_add_right _ _)

end Sent

/-! ## Both -/

/-- **Persistent data survive a save and load, and arguments survive a call**, as the writer of a
header with the elements behind it and the reader at the offset of the header agree on every
cut. A method that parses its arguments dynamically finds them if the sender cuts none of them and
each takes a bit or references. The writers compile if each leaf leaves a reference to spare. -/
theorem saved_and_sent :
    (∀ (replay : Option Elem) (awaiting : Option (ℕ × Option Cell)) (base : List Elem),
      let hdr := persistentHeader replay (awaiting.map fun a => awaitingElem a.1 a.2)
      HeaderFits hdr → ChainValue (hdr.toList ++ base) → base = [] ∨ SeqEndsInLeaf (types base) →
      ((∀ e ∈ expandAll (hdr.toList ++ base), LeavesRef e.1) →
        ∃ x, preparePersistentData hdr base = some x) ∧
      ∀ x, preparePersistentData hdr base = some x → ∃ c, x = .ok c ∧
        parsePersistentData (hdr.map Sigma.fst) (types base) c = .value (hdr, base)) ∧
    (∀ (info init : Ty) (functionId : ℕ) (answerId : Option ℕ) (dynChain : Bool)
        (args : List Elem),
      let hdr := prepareInternalHeader functionId answerId
      functionId < 2 ^ 32 → ChainValue args → args = [] ∨ SeqEndsInLeaf (types args) →
      (dynChain = true → DynReadable hdr.1 args) →
      ((∀ e ∈ expandAll args, LeavesRef e.1) →
        (∃ x, contractCallPrepare info init hdr args = some x) ∧
          ∃ x, internalBodyPrepare hdr args = some x) ∧
      ∀ x, contractCallPrepare info init hdr args = some x ∨
          internalBodyPrepare hdr args = some x → ∃ c p, x = .ok c ∧
        parseHeader answerId.isSome c.ctos = .value ((functionId, answerId.map answerIdField), p) ∧
        ∀ emptyContent, parseSmart emptyContent dynChain (fixedHeader answerId.isSome)
          (types args) p = .value args) ∧
    ∀ ts ts' : List Ty, ts' ≠ [] → (estimateSeq [] ts).maxBits ≤ Builder.maxBits →
      (estimateSeq [] ts).maxRefs < Builder.maxRefs →
      (estimateSeq [] ts).maxBits ≠ 0 ∨ (estimateSeq [] ts).maxRefs ≠ 0 →
      cellSizes 0 0 (ts ++ ts') =
        (cellSizes (estimateSeq [] ts).maxBits (estimateSeq [] ts).maxRefs ts').map
          (inFront ts.length) := by
  refine ⟨?_, ?_, fun ts ts' hne hbits hrefs hpos => cellSizes_append hne hbits hrefs hpos⟩
  · intro replay awaiting base hdr hfits hvalue hend
    exact ⟨exists_preparePersistentData,
      fun x hx => parse_preparePersistentData hfits hvalue hend hx⟩
  · intro info init functionId answerId dynChain args hdr hid hargs hend hdyn
    refine ⟨fun hleaves => ?_, fun x hx => ?_⟩
    · have hall : ∀ e ∈ expandAll (hdr :: args), LeavesRef e.1 :=
        List.forall_mem_append.mpr ⟨header_leavesRef functionId answerId, hleaves⟩
      have hne : expandAll (hdr :: args) ≠ [] :=
        List.append_ne_nil_of_left_ne_nil (header_ne_nil functionId answerId) _
      exact ⟨exists_bodyPrepare hall hne, exists_bodyPrepare hall hne⟩
    · rcases hx with hx | hx
      · have hbounds := messageTy_bounds info init (types (hdr :: args))
        exact parse_bodyPrepare (fun hbits hrefs => ⟨hbounds.1.trans hbits, hbounds.2.trans hrefs⟩)
          hid hargs hend hdyn hx
      · exact parse_bodyPrepare (fun hbits hrefs => ⟨hbits, hrefs⟩) hid hargs hend hdyn hx

section Example

/-- Fields that take more than one cell, with a struct and an address among them. -/
def fields : List Elem :=
  [⟨.uint 256, (1 : ℕ)⟩,
    ⟨.struct [.uint 256, .msgAddress .int], ((2 : ℕ), natBits 3 4 ++ natBits 264 3, ())⟩,
    ⟨.uint 256, (4 : ℕ)⟩]

theorem fields_storable : ChainValue fields := by
  have huint (n : ℕ) (h : n < 2 ^ 256) : StorableLeaf ⟨.uint 256, n⟩ := storableLeaf_uint le_rfl h
  have haddress : StorableLeaf ⟨.msgAddress .int, natBits 3 4 ++ natBits 264 3⟩ :=
    ⟨trivial, trivial, trivial, trivial, rfl, isMsgAddress_std (length_natBits _ _)⟩
  show ∀ e ∈ ([⟨.uint 256, (1 : ℕ)⟩, ⟨.uint 256, (2 : ℕ)⟩,
    ⟨.msgAddress .int, natBits 3 4 ++ natBits 264 3⟩, ⟨.uint 256, (4 : ℕ)⟩] : List Elem), _
  simp only [List.forall_mem_cons]
  exact ⟨huint 1 (by decide), huint 2 (by decide), haddress, huint 4 (by decide),
    List.forall_mem_nil _⟩

theorem fields_leavesRef : ∀ e ∈ expandAll fields, LeavesRef e.1 := by
  rw [← forall_mem_types, types_expandAll]
  decide

/-- The same values as arguments without inner structure, which are read dynamically. -/
theorem expandAll_fields_leaves : ∀ e ∈ expandAll fields, expandElem e.1 e.2 = [e] := by
  show ∀ e ∈ ([⟨.uint 256, (1 : ℕ)⟩, ⟨.uint 256, (2 : ℕ)⟩,
    ⟨.msgAddress .int, natBits 3 4 ++ natBits 264 3⟩, ⟨.uint 256, (4 : ℕ)⟩] : List Elem), _
  simp only [List.forall_mem_cons]
  exact ⟨rfl, rfl, rfl, rfl, List.forall_mem_nil _⟩

theorem saved_and_sent_fields :
    (∃ c, preparePersistentData (some (.tuple [⟨.uint 64, (1000 : ℕ)⟩, awaitingElem 1 none]))
        fields = some (.ok c) ∧
      parsePersistentData (some (.tuple [.uint 64, awaitingTy])) (types fields) c =
        .value (some (.tuple [⟨.uint 64, (1000 : ℕ)⟩, awaitingElem 1 none]), fields)) ∧
    (∃ c p, internalBodyPrepare (prepareInternalHeader 5 (some 3)) fields = some (.ok c) ∧
      parseHeader true c.ctos = .value ((5, some (answerIdField 3)), p) ∧
      ∀ emptyContent, parseSmart emptyContent false (fixedHeader true) (types fields) p =
        .value fields) ∧
    ∃ c p, internalBodyPrepare (prepareInternalHeader 5 none) (expandAll fields) = some (.ok c) ∧
      parseHeader false c.ctos = .value ((5, none), p) ∧
      ∀ emptyContent, parseSmart emptyContent true (fixedHeader false)
        (types (expandAll fields)) p = .value (expandAll fields) := by
  obtain ⟨hsaved, hsent, -⟩ := saved_and_sent
  refine ⟨?_, ?_, ?_⟩
  · have huint (k n : ℕ) (hk : k ≤ 256) (h : n < 2 ^ k) : StorableLeaf ⟨.uint k, n⟩ :=
      ⟨trivial, trivial, trivial, trivial, ⟨hk, h⟩, trivial⟩
    have hheader : ∀ e ∈ ([⟨.uint 64, (1000 : ℕ)⟩, ⟨.uint 32, (1 : ℕ)⟩, ⟨.dict, none⟩] : List Elem),
        StorableLeaf e ∧ LeavesRef e.1 := by
      simp only [List.forall_mem_cons]
      exact ⟨⟨huint 64 1000 (by decide) (by decide), by decide⟩,
        ⟨huint 32 1 (by decide) (by decide), by decide⟩,
        ⟨⟨trivial, trivial, trivial, trivial, trivial, trivial⟩, by decide⟩, List.forall_mem_nil _⟩
    obtain ⟨hcompiles, hread⟩ := hsaved (some ⟨.uint 64, (1000 : ℕ)⟩) (some (1, none)) fields
      (by rintro _ ⟨⟩; exact ⟨by decide, by decide, by decide⟩)
      (List.forall_mem_append.mpr ⟨fun e he => (hheader e he).1, fields_storable⟩)
      (.inr trivial)
    obtain ⟨x, hx⟩ := hcompiles
      (List.forall_mem_append.mpr ⟨fun e he => (hheader e he).2, fields_leavesRef⟩)
    obtain ⟨c, rfl, hparse⟩ := hread x hx
    exact ⟨c, hx, hparse⟩
  · obtain ⟨hcompiles, hread⟩ := hsent (.struct []) (.struct []) 5 (some 3) false fields
      (by decide) fields_storable (.inr trivial) nofun
    obtain ⟨-, x, hx⟩ := hcompiles fields_leavesRef
    obtain ⟨c, p, rfl, hparse⟩ := hread x (.inr hx)
    exact ⟨c, p, hx, hparse⟩
  · have hleaves := expandAll_of_leaves expandAll_fields_leaves
    have htakes : ∀ e ∈ expandAll fields, TakesBitOrRefs e.1 := by
      rw [← forall_mem_types, types_expandAll]
      decide
    obtain ⟨hcompiles, hread⟩ := hsent (.struct []) (.struct []) 5 none true (expandAll fields)
      (by decide) (by rw [ChainValue, hleaves]; exact fields_storable) (.inr trivial)
      fun _ => dynReadable_of_leaves (by decide) (by decide) expandAll_fields_leaves htakes
    obtain ⟨-, x, hx⟩ := hcompiles (by rw [hleaves]; exact fields_leavesRef)
    obtain ⟨c, p, rfl, hparse⟩ := hread x (.inr hx)
    exact ⟨c, p, hx, hparse⟩

/-- A field whose alternatives cannot be told apart. -/
def ambiguousFields : List Elem := [⟨.variant [.uint 8, .uint 16], .inr (.inl (5 : ℕ))⟩]

/-- A reference, and a struct of references that the writer cuts. -/
def cutArgs : List Elem :=
  [⟨.cell, .mk [] []⟩, ⟨.struct [.cell, .cell, .cell, .cell],
    (.mk [] [], .mk [] [], .mk [] [], .mk [] [], ())⟩]

/-- A reference in front of a field without bits. -/
def referenceLast : List Elem := [⟨.cell, .mk [] []⟩, ⟨.bitfield 0, ([] : List Bool)⟩]

/-- The field is taken for its first alternative. A method that parses its arguments dynamically
does not find the struct, and takes the reference for the one to the next cell. -/
theorem saved_and_sent_misread :
    (∀ e ∈ expandAll ambiguousFields, (e.1.ChainLeaf ∧ e.1.Closed ∧ LeavesRef e.1) ∧
      e.1.Estimable [] ∧ InRange e.1 e.2 ∧ Fits e.1 [] e.2) ∧
    (∃ c w, preparePersistentData none ambiguousFields = some (.ok c) ∧
      parsePersistentData none (types ambiguousFields) c = .value (none, w) ∧
      w ≠ ambiguousFields) ∧
    ((∀ e ∈ expandAll cutArgs, StorableLeaf e ∧ LeavesRef e.1) ∧
      ∃ c p, internalBodyPrepare (prepareInternalHeader 5 none) cutArgs = some (.ok c) ∧
        parseHeader false c.ctos = .value ((5, none), p) ∧
        parseSmart (fun _ => .error .customDataParseError) true (fixedHeader false)
          (types cutArgs) p = .throw .nonSingleRefsAtCellWrap) ∧
    (∀ e ∈ expandAll referenceLast, StorableLeaf e ∧ LeavesRef e.1) ∧
      ∃ c p, internalBodyPrepare (prepareInternalHeader 5 none) referenceLast = some (.ok c) ∧
        parseHeader false c.ctos = .value ((5, none), p) ∧
        parseSmart (fun _ => .error .customDataParseError) true (fixedHeader false)
          (types referenceLast) p = .throw (.exception .cellUnderflow) := by
  have hcell : StorableLeaf ⟨.cell, .mk [] []⟩ ∧ LeavesRef .cell :=
    ⟨⟨trivial, trivial, trivial, trivial, trivial, trivial⟩, by decide⟩
  refine ⟨?_, ?_, ⟨?_, ?_⟩, ?_, ?_⟩
  · show ∀ e ∈ ([⟨.variant [.uint 8, .uint 16], .inr (.inl (5 : ℕ))⟩] : List Elem), _
    exact List.forall_mem_singleton.mpr ⟨⟨trivial, ⟨trivial, trivial, trivial⟩, by decide⟩,
      ⟨trivial, trivial, trivial⟩, ⟨by decide, (by decide : (5 : ℕ) < 2 ^ 16)⟩, trivial⟩
  · have hfits : cellSizes 0 0 [.uint 1, .variant [.uint 8, .uint 16]] = some [] :=
      cellSizes_of_fits (by decide) (by decide)
    have hbehind : cellSizes 1 0 [.variant [.uint 8, .uint 16]] = some [] := by
      rw [cellSizes]
      exact if_pos (by decide)
    refine ⟨.mk (natBits 17 5) [], [⟨.variant [.uint 8, .uint 16], .inl (0 : ℕ)⟩], ?_, ?_, ?_⟩
    · show ((cellSizes 0 0 [.uint 1, .variant [.uint 8, .uint 16]]).map (nest · _)).map _ = _
      rw [hfits]
      rfl
    · show Read.map _ (((cellSizes 1 0 [.variant [.uint 8, .uint 16]]).map (nestTypes · _)).bind _) = _
      rw [hbehind]
      -- the first alternative loads eight of the sixteen bits
      have href : NoRef [⟨.variant [.uint 8, .uint 16], .inl (0 : ℕ)⟩] :=
        List.forall_mem_singleton.mpr fun _ => by rintro ⟨⟩
      exact congrArg (fun x => Read.map (none, ·) (x.map Except.ok))
        (chainFoldTup_spec [.variant [.uint 8, .uint 16]] (.inl (0 : ℕ), ()) (.refl href) href
          (.inr trivial))
    · rintro ⟨⟩
  · show ∀ e ∈ List.replicate 5 (⟨.cell, .mk [] []⟩ : Elem), _
    exact fun e he => List.eq_of_mem_replicate he ▸ hcell
  · have hrest : cellSizes 0 0 [.cell, .cell] = some [] := cellSizes_of_fits (by decide) (by decide)
    have hsizes : cellSizes 0 0 [.uint 32, .cell, .cell, .cell, .cell, .cell] = some [4] := by
      rw [cellSizes]
      show Option.map _ (cellSizes 0 0 [.cell, .cell]) = _
      rw [hrest]
      rfl
    refine ⟨.mk (natBits 32 5) [.mk [] [], .mk [] [], .mk [] [], .mk [] [.mk [] [], .mk [] []]],
      ⟨[], [.mk [] [], .mk [] [], .mk [] [], .mk [] [.mk [] [], .mk [] []]]⟩, ?_, rfl, rfl⟩
    show ((cellSizes 0 0 [.uint 32, .cell, .cell, .cell, .cell, .cell]).map (nest · _)).map _ = _
    rw [hsizes]
    rfl
  · show ∀ e ∈ ([⟨.cell, .mk [] []⟩, ⟨.bitfield 0, ([] : List Bool)⟩] : List Elem), _
    simp only [List.forall_mem_cons]
    exact ⟨hcell, ⟨⟨trivial, trivial, trivial, trivial, trivial, rfl⟩, by decide⟩,
      List.forall_mem_nil _⟩
  · -- the only reference of the cell is followed, and there is none in the next one
    exact ⟨.mk (natBits 32 5) [.mk [] []], ⟨[], [.mk [] []]⟩, rfl, rfl, rfl⟩

end Example

end TVMCompiler.Sdk
