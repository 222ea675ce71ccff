import TVMCompiler.Sdk.PersistentData
import TVMCompiler.Sdk.StoredBits

/-!
# External calls

The body of an external message is a chain of a signature, a header and the arguments. The
receiver knows two headers, with and without a public key, while `external_call_prepare` puts one
together from the attributes of the interface.

## Main definitions

* `externalBodyPrepare`, `externalBodyPrepareWithPubkey`, `externalCallPrepare`: the bodies
* `switchExternalBody`: what the receiver reads
* `ReadsCall`: the receiver reads the call that was made
* `ReadBehindBit`: the arguments are read as themselves one bit too early

## Main results

* `readsCall_of_front`: a call with the header of the receiver is read
* `frontBits_le_of_readsCall`: the receiver reads no more bits than the caller has stored
* `readsCall_shifted_iff`: a header that is one bit too long
* `externalCalls_read_iff`: the calls that are read
-/

namespace TVMCompiler.Sdk

open Lib

/-- The attributes of an interface. -/
structure Attributes where
  hasPubkey : Bool
  hasTimestamp : Bool
  hasExpire : Bool
  deriving DecidableEq, Repr

/-- A method of the receiver. One that is internal as well may have an answer id. -/
structure ExternalMethod where
  functionId : ℕ
  hasAnswerId : Bool
  dynChainParse : Bool

/-! ## The caller -/

/-- `external_signature`. -/
def externalSignatureTy : Ty := .struct [.optional (.bitfield 512)]

def externalSignature (signature : List Bool) : Elem :=
  ⟨externalSignatureTy, (some signature, ())⟩

/-- `external_inbound_msg_header`. -/
def externalInboundMsgHeaderTy : Bool → Ty
  | false => .struct [.uint 64, .uint 32, .uint 32]
  | true => .struct [.optional (.uint 256), .uint 64, .uint 32, .uint 32]

/-- The header of a caller, without timestamp and expire. -/
def externalInboundMsgHeader (functionId : ℕ) : Option ℕ → Elem
  | none => ⟨externalInboundMsgHeaderTy false, ((0 : ℕ), (0 : ℕ), functionId, ())⟩
  | some pubkey =>
    ⟨externalInboundMsgHeaderTy true, (some pubkey, (0 : ℕ), (0 : ℕ), functionId, ())⟩

/-- The body behind some elements in front of the arguments. -/
def externalBody (info init : Ty) (front args : List Elem) : Option (Except TvmException Cell) :=
  contractCallPrepare info init (.tuple front) args

/-- `external_body_prepare`, with any bits in the place of the signature. -/
def externalBodyPrepare (info init : Ty) (signature : List Bool) (functionId : ℕ)
    (args : List Elem) : Option (Except TvmException Cell) :=
  externalBody info init
    [externalSignature signature, externalInboundMsgHeader functionId none] args

def externalBodyPrepareWithPubkey (info init : Ty) (signature : List Bool) (functionId pubkey : ℕ)
    (args : List Elem) : Option (Except TvmException Cell) :=
  externalBody info init
    [externalSignature signature, externalInboundMsgHeader functionId (some pubkey)] args

/-- `get_ext_hdr`. The public key has a place of its own without the attribute as well. -/
def getExtHdr (iface : Attributes) (pubkey time : ℕ) : List Elem :=
  ⟨.optional (.uint 256), if iface.hasPubkey then some pubkey else none⟩ ::
    ((if iface.hasTimestamp then [⟨.uint 64, time⟩] else []) ++
      if iface.hasExpire then [⟨.uint 32, (0 : ℕ)⟩] else [])

/-- What `external_call_prepare` puts in the place of the signature: the attributes, the answer id
and the public key. -/
def signaturePlace (iface : Attributes) (answerId pubkey : ℕ) : List Bool :=
  natBits 5 0 ++ [iface.hasExpire, iface.hasTimestamp, iface.hasPubkey] ++ natBits 32 answerId ++
    natBits 256 pubkey ++ natBits (256 - 8 - 32) 0

@[simp] theorem length_signaturePlace (iface : Attributes) (answerId pubkey : ℕ) :
    (signaturePlace iface answerId pubkey).length = 512 := by
  simp only [signaturePlace, List.length_append, length_natBits, List.length_cons, List.length_nil]

/-- The body of `external_call_prepare`, with any bits in the place of the signature. -/
def externalCallPrepare (info init : Ty) (iface : Attributes) (signature : List Bool)
    (functionId pubkey : ℕ) (args : List Elem) : Option (Except TvmException Cell) :=
  externalBody info init
    (externalSignature signature :: (getExtHdr iface pubkey 0 ++ [⟨.uint 32, functionId⟩])) args

/-! ## The receiver -/

/-- The id of the function and the public key, from the header. -/
def parseExternalHeader : Bool → Slice → Read ((ℕ × Option ℕ) × Slice)
  | false, p =>
    (Read.ofParsed (parse (externalInboundMsgHeaderTy false) [] p) .badArguments).map
      fun r => ((r.1.2.2.1, none), r.2)
  | true, p =>
    (Read.ofParsed (parse (externalInboundMsgHeaderTy true) [] p) .badArguments).map
      fun r => ((r.1.2.2.2.1, r.1.1), r.2)

/-- The types in front of the arguments, from which the receiver computes their place. -/
def externalFixedHeader (hasPubkey hasAnswerId : Bool) : Ty :=
  .tuple [externalSignatureTy, if hasAnswerId then
    .tuple [externalInboundMsgHeaderTy hasPubkey, .uint 32]
    else externalInboundMsgHeaderTy hasPubkey]

/-- The external branch of `smart_switch`, up to the arguments of the method. The parser of the
signature always has a value. -/
def switchExternalBody (emptyContent : (t : Ty) → Except ParseError t.Val) (hasPubkey : Bool)
    (m : ExternalMethod) (args : List Ty) (msgBody : Slice) : Read ((ℕ × Option ℕ) × List Elem) :=
  (Read.ofParsed (parse externalSignatureTy [] msgBody) .badArguments).bind fun sign =>
    (parseExternalHeader hasPubkey sign.2).bind fun hdr =>
      -- the answer id of an internal call is loaded in an external one as well
      (if m.hasAnswerId then (Read.ofLoad (hdr.2.ldu 32)).map Prod.snd else .value hdr.2).bind
        fun p => if args.isEmpty then .value (hdr.1, []) else
          (parseSmart emptyContent m.dynChainParse (externalFixedHeader hasPubkey m.hasAnswerId)
            args p).map fun args => (hdr.1, args)

/-- The receiver reads the function id, the public key if the interface has one, and the
arguments of the call, whatever reading the content of an empty optional gives. -/
def ReadsCall (iface : Attributes) (m : ExternalMethod) (pubkey : ℕ) (args : List Elem)
    (x : Except TvmException Cell) : Prop :=
  ∃ c, x = .ok c ∧ ∀ emptyContent,
    switchExternalBody emptyContent iface.hasPubkey m (types args) c.ctos =
      .value ((m.functionId, if iface.hasPubkey then some pubkey else none), args)

/-- The types in front of the arguments of `external_call_prepare`. -/
def callHeaderTy (iface : Attributes) : Ty :=
  .tuple (externalSignatureTy :: types (getExtHdr iface 0 0 ++ [⟨.uint 32, (0 : ℕ)⟩]))

/-- With a zero bit in front of them, the arguments are read as themselves, as they are stored
without the attribute pubkey. There is nothing to read if there are none. -/
def ReadBehindBit (m : ExternalMethod) (args : List Elem) : Prop :=
  args = [] ∨ ∀ emptyContent,
    parseSmart emptyContent m.dynChainParse (externalFixedHeader false false) (types args)
      (.ofBits [false] ++ storedBehind (callHeaderTy ⟨false, true, true⟩) args) = .value args

/-! ## The body -/

theorem totalBits_of_bodyPrepare {est : Estimate} {hdr : Elem} {args : List Elem} {c : Cell}
    (h : bodyPrepare est hdr args = some (.ok c)) : c.totalBits = elemsBits true (hdr :: args) := by
  unfold bodyPrepare at h
  split at h
  · obtain ⟨l, hchain, hbuild⟩ := Option.map_eq_some_iff.mp h
    exact (totalBits_of_buildElems hbuild).trans (elemsBits_makeChainTuple hchain)
  · exact totalBits_of_buildElems (Option.some.inj h)

/-- The receiver of arguments knows the header by its estimate only. -/
theorem parseSmart_congr {emptyContent : (t : Ty) → Except ParseError t.Val} {dyn : Bool}
    {h h' : Ty} (hsame : ∀ ts, estimateSeq [] (h :: ts) = estimateSeq [] (h' :: ts)) (ts : List Ty)
    (p : Slice) : parseSmart emptyContent dyn h ts p = parseSmart emptyContent dyn h' ts p := by
  rw [parseSmart, parseSmart, hsame, hsame]

theorem DynReadable.congr {h h' : Ty} {es : List Elem}
    (hsame : ∀ ts, estimateSeq [] (h :: ts) = estimateSeq [] (h' :: ts))
    (hread : DynReadable h es) : DynReadable h' es :=
  ⟨hread.takes, by rw [← hsame]; exact hread.cuts⟩

section Body

variable {info init : Ty} {signature : List Bool} {front args : List Elem}
  {x : Except TvmException Cell}

/-- The elements in front of the arguments fit a cell. -/
def FrontFits (front : List Elem) : Prop :=
  (estimateSeq [] (types front)).maxBits ≤ Builder.maxBits ∧
    (estimateSeq [] (types front)).maxRefs < Builder.maxRefs ∧
    (estimateSeq [] (types front)).maxBits ≠ 0

theorem storableLeaf_signature (h : signature.length = 512) :
    StorableLeaf ⟨.optional (.bitfield 512), some signature⟩ :=
  ⟨trivial, trivial, trivial, trivial, trivial, h⟩

theorem parse_externalSignature (h : signature.length = 512) {b : Builder}
    (hb : build externalSignatureTy (some signature, ()) .empty = .ok b) (rest : Slice) :
    parse externalSignatureTy [] (b ++ rest) = .ok (some (some signature, ()), rest) := by
  obtain ⟨s, rfl, hparse⟩ := build_roundTrips externalSignatureTy [] (some signature, ())
    ⟨trivial, trivial⟩ ⟨h, trivial⟩ _ _ hb
  exact hparse rest

/-- A body is the signature, what is in front of the arguments, and the arguments as they are cut
there, which take the bits of their values. -/
theorem externalBody_split {dyn : Bool} (hsignature : signature.length = 512)
    (hfront : FrontFits (externalSignature signature :: front))
    (hvalue : ChainValue front) (hargs : ChainValue args)
    (hend : args = [] ∨ SeqEndsInLeaf (types args))
    (hdyn : dyn = true → DynReadable (.tuple (externalSignatureTy :: types front)) args)
    (hx : externalBody info init (externalSignature signature :: front) args = some x) :
    ∃ b₁ b s, build externalSignatureTy (some signature, ()) .empty = .ok b₁ ∧
      buildSeq (types front) (tupleVal front) b₁ = .ok b ∧ x = .ok (Builder.endc (b ++ s)) ∧
      Slice.size true (b ++ s) = 513 + elemsBits true front + elemsBits true args ∧
      (args ≠ [] → s = storedBehind (.tuple (externalSignatureTy :: types front)) args) ∧
      ∀ emptyContent, parseSmart emptyContent dyn (.tuple (externalSignatureTy :: types front))
        (types args) s = .value args := by
  set all := externalSignature signature :: front with hall
  have hleaves : ChainValue (.tuple all :: args) := by
    refine chainValue_cons.mpr ⟨?_, hargs⟩
    exact chainValue_cons.mpr ⟨List.forall_mem_singleton.mpr (storableLeaf_signature hsignature),
      hvalue⟩
  have hbounds := messageTy_bounds info init (types (.tuple all :: args))
  have hfront' : (estimateSeq [] [(Elem.tuple all).1]).maxBits ≤ Builder.maxBits ∧
      (estimateSeq [] [(Elem.tuple all).1]).maxRefs < Builder.maxRefs ∧
      (estimateSeq [] [(Elem.tuple all).1]).maxBits ≠ 0 := hfront
  obtain ⟨b, s, hb, rfl, hread⟩ := bodyPrepare_reads hfront'
    (fun hbits hrefs => ⟨hbounds.1.trans hbits, hbounds.2.trans hrefs⟩) hleaves hx (fun _ => rfl)
    hend hdyn
  obtain ⟨b₁, hsig, hrest⟩ := bind_eq_ok.mp hb
  refine ⟨b₁, b, s, hsig, hrest, rfl, ?_, fun hne => ?_, hread⟩
  · have htotal := totalBits_of_bodyPrepare hx
    rw [totalBits_endc, elemsBits_cons] at htotal
    rw [htotal]
    show 1 + signature.length + 0 + elemsBits true front + _ = _
    rw [hsignature]
  · obtain ⟨b', hb', hcell⟩ := bodyPrepare_stored hfront'
      (fun hbits hrefs => ⟨hbounds.1.trans hbits, hbounds.2.trans hrefs⟩) hleaves hx
      (expandAll_ne_nil (hend.resolve_left hne))
    obtain rfl := Except.ok.inj (hb.symm.trans hb')
    exact Slice.append_left_cancel (congrArg Cell.ctos (Except.ok.inj hcell))

/-- The receiver behind the signature. -/
theorem smartSwitchExternal_signature {emptyContent : (t : Ty) → Except ParseError t.Val}
    (hsignature : signature.length = 512) {b₁ : Builder}
    (hsig : build externalSignatureTy (some signature, ()) .empty = .ok b₁) (hasPubkey : Bool)
    (m : ExternalMethod) (ts : List Ty) (p : Slice) :
    switchExternalBody emptyContent hasPubkey m ts (b₁ ++ p) =
      (parseExternalHeader hasPubkey p).bind fun hdr =>
        (if m.hasAnswerId then (Read.ofLoad (hdr.2.ldu 32)).map Prod.snd else .value hdr.2).bind
          fun p => if ts.isEmpty then .value (hdr.1, []) else
            (parseSmart emptyContent m.dynChainParse (externalFixedHeader hasPubkey m.hasAnswerId)
              ts p).map fun args => (hdr.1, args) := by
  rw [switchExternalBody, parse_externalSignature hsignature hsig]
  rfl

/-- The receiver's header is read, and the reader stops where the arguments begin. -/
theorem parseExternalHeader_spec {functionId : ℕ} {pubkey : Option ℕ} {b b₁ : Builder}
    (hb : build (externalInboundMsgHeader functionId pubkey).1
      (externalInboundMsgHeader functionId pubkey).2 b₁ = .ok b) :
    ∃ s, b = b₁ ++ s ∧ ∀ rest, parseExternalHeader pubkey.isSome (s ++ rest) =
      .value ((functionId, pubkey), rest) := by
  cases pubkey with
  | none =>
    obtain ⟨s, rfl, hparse⟩ := build_roundTrips (externalInboundMsgHeaderTy false) []
      ((0 : ℕ), (0 : ℕ), functionId, ()) ⟨trivial, trivial, trivial, trivial⟩
      ⟨trivial, trivial, trivial, trivial⟩ _ _ hb
    refine ⟨s, rfl, fun rest => ?_⟩
    show Read.map _ (Read.ofParsed (parse (externalInboundMsgHeaderTy false) [] (s ++ rest)) _) = _
    rw [hparse]
    rfl
  | some pubkey =>
    obtain ⟨s, rfl, hparse⟩ := build_roundTrips (externalInboundMsgHeaderTy true) []
      (some pubkey, (0 : ℕ), (0 : ℕ), functionId, ()) ⟨trivial, trivial, trivial, trivial, trivial⟩
      ⟨trivial, trivial, trivial, trivial, trivial⟩ _ _ hb
    refine ⟨s, rfl, fun rest => ?_⟩
    show Read.map _ (Read.ofParsed (parse (externalInboundMsgHeaderTy true) [] (s ++ rest)) _) = _
    rw [hparse]
    rfl

/-- The elements are stored as the header of the receiver is. -/
def StoresHeader (front : List Elem) (functionId : ℕ) (pubkey : Option ℕ) : Prop :=
  (∀ b, buildSeq (types front) (tupleVal front) b =
    build (externalInboundMsgHeader functionId pubkey).1
      (externalInboundMsgHeader functionId pubkey).2 b) ∧
  ∀ ts, estimateSeq [] (.tuple (externalSignatureTy :: types front) :: ts) =
    estimateSeq [] (externalFixedHeader pubkey.isSome false :: ts)

/-- **A call with the header of the receiver is read**, by a method without answer id. -/
theorem readsCall_of_front {iface : Attributes} {m : ExternalMethod} {pubkey : ℕ}
    (hsignature : signature.length = 512)
    (hfront : FrontFits (externalSignature signature :: front)) (hvalue : ChainValue front)
    (hheader : StoresHeader front m.functionId (if iface.hasPubkey then some pubkey else none))
    (hanswer : m.hasAnswerId = false) (hargs : ChainValue args)
    (hend : args = [] ∨ SeqEndsInLeaf (types args))
    (hdyn : m.dynChainParse = true → DynReadable (externalFixedHeader iface.hasPubkey false) args)
    (hx : externalBody info init (externalSignature signature :: front) args = some x) :
    ReadsCall iface m pubkey args x := by
  obtain ⟨hbuild, hsame⟩ := hheader
  have hsome : (if iface.hasPubkey then some pubkey else none : Option ℕ).isSome =
      iface.hasPubkey := by cases iface.hasPubkey <;> rfl
  rw [hsome] at hsame
  obtain ⟨b₁, b, s, hsig, hb, rfl, -, -, hread⟩ := externalBody_split hsignature hfront hvalue hargs
    hend (fun h => (hdyn h).congr fun ts => (hsame ts).symm) hx
  rw [hbuild] at hb
  obtain ⟨s₂, rfl, hhdr⟩ := parseExternalHeader_spec hb
  rw [hsome] at hhdr
  refine ⟨_, rfl, fun emptyContent => ?_⟩
  have hargsRead := hread emptyContent
  rw [parseSmart_congr hsame] at hargsRead
  rw [ctos_endc, Slice.append_assoc, smartSwitchExternal_signature hsignature hsig, hhdr]
  simp only [Read.bind_value, hanswer, Bool.false_eq_true, if_false, hargsRead]
  cases args with
  | nil => rfl
  | cons e args => rfl

/-! ## Bits of a call -/

/-- The bits of the receiver's header, with the public key. -/
def headerBits (hasPubkey : Bool) : ℕ := (if hasPubkey then 257 else 0) + 128

theorem size_of_parseExternalHeader {hasPubkey : Bool} {functionId pubkey : ℕ} {p p' : Slice}
    (h : parseExternalHeader hasPubkey p =
      .value ((functionId, if hasPubkey then some pubkey else none), p')) :
    headerBits hasPubkey + p'.size true ≤ p.size true := by
  cases hasPubkey with
  | false =>
    obtain ⟨⟨v, q⟩, hparsed, hr⟩ := Read.map_eq_value.mp h
    obtain rfl : q = p' := congrArg Prod.snd hr
    exact size_of_parse true _ _ (Read.ofParsed_eq_value.mp hparsed)
  | true =>
    obtain ⟨⟨v, q⟩, hparsed, hr⟩ := Read.map_eq_value.mp h
    obtain rfl : q = p' := congrArg Prod.snd hr
    obtain ⟨key, timestamp, expire, id, ⟨⟩⟩ := v
    obtain rfl : key = some pubkey := congrArg (fun r => r.1.2) hr
    exact size_of_parse true _ _ (Read.ofParsed_eq_value.mp hparsed)

/-- Reading the content of an empty optional is an error. -/
def noContent (t : Ty) : Except ParseError t.Val := .error .customDataParseError

theorem size_of_parseContent {t : Ty} {p p' : Slice} {v : t.Val}
    (h : parseContent noContent t p = .value (v, p')) :
    storedBits true t v + p'.size true ≤ p.size true := by
  obtain ⟨⟨w, q⟩, hload, hrest⟩ := Read.bind_eq_value.mp h
  cases w with
  | none => cases hrest
  | some w =>
    cases hrest
    exact size_of_parse true t [] (Read.ofLoad_eq_value.mp hload)

theorem size_of_nextCell {p p' : Slice} (h : nextCell p = .value p') :
    p'.size true ≤ p.size true := by
  unfold nextCell at h
  split_ifs at h
  · cases h
  · cases h
  · obtain ⟨⟨c, q⟩, hload, rfl⟩ := Read.map_eq_value.mp h
    rw [size_ctos, ← size_of_ldref true (Read.ofLoad_eq_value.mp hload)]
    exact Nat.le_add_right _ _

theorem size_of_parseElem {isTop : Bool} {t : Ty} {p p' : Slice} {e : Elem}
    (h : parseElem noContent isTop t p = .value (e, p')) :
    storedBits true e.1 e.2 + p'.size true ≤ p.size true := by
  obtain ⟨q, hnext, hrest⟩ := Read.bind_eq_value.mp h
  obtain ⟨⟨v, q'⟩, hcontent, hr⟩ := Read.map_eq_value.mp hrest
  cases hr
  have hq : q.size true ≤ p.size true := by
    split_ifs at hnext
    · exact size_of_nextCell hnext
    · cases hnext
      exact le_rfl
  exact (size_of_parseContent hcontent).trans hq

/-- **Nor does the dynamic reader parse elements from fewer bits** than are stored for them. -/
theorem size_of_dynChainParserImpl {bits refs : ℕ} {isTop : Bool} {ts : List Ty} {p p' : Slice}
    {l : List Elem} (h : dynChainParserImpl noContent bits refs isTop ts p = .value (l, p')) :
    elemsBits true l + p'.size true ≤ p.size true := by
  induction ts generalizing isTop l p' with
  | nil =>
    cases h
    exact (Nat.zero_add _).le
  | cons last prev ih =>
    rw [dynChainParserImpl] at h
    split_ifs at h
    · obtain ⟨⟨vs, q⟩, hcontent, hr⟩ := Read.map_eq_value.mp h
      cases hr
      have hbits := elemsBits_elems true (last :: prev).reverse vs
      exact (congrArg (· + q.size true) hbits).trans_le (size_of_parseContent hcontent)
    · obtain ⟨⟨l', q⟩, hprev, hrest⟩ := Read.bind_eq_value.mp h
      obtain ⟨⟨e, q'⟩, helem, hr⟩ := Read.map_eq_value.mp hrest
      cases hr
      have hprevBits := ih hprev
      have helemBits := size_of_parseElem helem
      rw [elemsBits_append, elemsBits_cons]
      show elemsBits true l' + (storedBits true e.1 e.2 + 0) + q'.size true ≤ _
      dsimp only at helemBits
      omega

theorem size_of_parseSmart {dyn : Bool} {msgHeader : Ty} {ts : List Ty} {p : Slice} {l : List Elem}
    (h : parseSmart noContent dyn msgHeader ts p = .value l) : elemsBits true l ≤ p.size true := by
  unfold parseSmart at h
  split_ifs at h
  · unfold parseChainDynamic at h
    split_ifs at h
    · cases h
      exact Nat.zero_le _
    · obtain ⟨⟨l', q⟩, hparse, hrest⟩ := Read.bind_eq_value.mp h
      obtain ⟨u, -, rfl⟩ := Read.map_eq_value.mp hrest
      exact (Nat.le_add_right _ _).trans (size_of_dynChainParserImpl hparse)
  · exact size_of_parseElems h
  · obtain ⟨⟨vs, q⟩, hparsed, rfl⟩ := Read.map_eq_value.mp h
    exact size_of_parseSeq_elems (map_restart_eq_some.mp (Read.ofParsed_eq_value.mp hparsed))

/-- A body that is read as a call has the receiver's header behind the signature. -/
theorem exists_header_of_readsCall {iface : Attributes} {m : ExternalMethod} {pubkey : ℕ}
    (hsignature : signature.length = 512)
    (hfront : FrontFits (externalSignature signature :: front)) (hvalue : ChainValue front)
    (hargs : ChainValue args) (hend : args = [] ∨ SeqEndsInLeaf (types args))
    (hx : externalBody info init (externalSignature signature :: front) args = some x)
    (hread : ReadsCall iface m pubkey args x) :
    ∃ b₁ s₂ s p, buildSeq (types front) (tupleVal front) b₁ = .ok (b₁ ++ s₂) ∧
      parseExternalHeader iface.hasPubkey (s₂ ++ s) =
        .value ((m.functionId, if iface.hasPubkey then some pubkey else none), p) ∧
      (if m.hasAnswerId then 32 else 0) + elemsBits true args ≤ p.size true ∧
      Slice.size true (s₂ ++ s) = elemsBits true front + elemsBits true args := by
  obtain ⟨b₁, b, s, hsig, hb, rfl, hsize, -⟩ :=
    externalBody_split hsignature hfront hvalue hargs hend (show false = true → _ from nofun) hx
  obtain ⟨hwf, hfits⟩ := wholeSeq_of_leaves (types front) (tupleVal front) hvalue
  obtain ⟨s₂, rfl, -⟩ := build_roundTrips (.tuple (types front)) [] (tupleVal front) hwf
    (hfits false []) _ _ hb
  have hb₁ : b₁.size true = 513 := by
    have hsigSize := size_of_build true _ _ hsig
    rw [Slice.size_empty, Nat.zero_add] at hsigSize
    rw [hsigSize]
    show 1 + signature.length + 0 = _
    rw [hsignature]
  rw [Slice.append_assoc, Slice.size_append, hb₁] at hsize
  -- the receiver reads the signature, the header and the answer id
  obtain ⟨c, hc, hread⟩ := hread
  obtain rfl := Except.ok.inj hc
  have hread := hread noContent
  rw [ctos_endc, Slice.append_assoc, smartSwitchExternal_signature hsignature hsig] at hread
  obtain ⟨⟨hdr, p⟩, hheader, hrest⟩ := Read.bind_eq_value.mp hread
  obtain ⟨q, hanswer, hrest⟩ := Read.bind_eq_value.mp hrest
  have hq : (if m.hasAnswerId then 32 else 0) + q.size true = p.size true := by
    cases hid : m.hasAnswerId with
    | false =>
      rw [hid, if_neg Bool.false_ne_true] at hanswer
      cases hanswer
      exact Nat.zero_add _
    | true =>
      rw [hid, if_pos rfl] at hanswer
      obtain ⟨⟨n, q'⟩, hload, rfl⟩ := Read.map_eq_value.mp hanswer
      exact size_of_ldu true (Read.ofLoad_eq_value.mp hload)
  have hhdr : hdr = (m.functionId, if iface.hasPubkey then some pubkey else none) ∧
      elemsBits true args ≤ q.size true := by
    cases args with
    | nil =>
      cases hrest
      exact ⟨rfl, Nat.zero_le _⟩
    | cons e args =>
      obtain ⟨l, hsmart, hr⟩ := Read.map_eq_value.mp hrest
      obtain rfl : l = e :: args := congrArg Prod.snd hr
      exact ⟨congrArg Prod.fst hr, size_of_parseSmart hsmart⟩
  obtain ⟨rfl, hbits⟩ := hhdr
  exact ⟨b₁, s₂, s, p, hb, hheader, by omega, by omega⟩

/-- **The receiver reads no more bits than the caller has stored** behind the signature. -/
theorem frontBits_le_of_readsCall {iface : Attributes} {m : ExternalMethod} {pubkey : ℕ}
    (hsignature : signature.length = 512)
    (hfront : FrontFits (externalSignature signature :: front)) (hvalue : ChainValue front)
    (hargs : ChainValue args) (hend : args = [] ∨ SeqEndsInLeaf (types args))
    (hx : externalBody info init (externalSignature signature :: front) args = some x)
    (hread : ReadsCall iface m pubkey args x) :
    headerBits iface.hasPubkey + (if m.hasAnswerId then 32 else 0) ≤ elemsBits true front := by
  obtain ⟨b₁, s₂, s, p, -, hheader, hbits, hsize⟩ :=
    exists_header_of_readsCall hsignature hfront hvalue hargs hend hx hread
  have hhdr := size_of_parseExternalHeader hheader
  omega

end Body

/-! ## The headers of the callers -/

section Callers

variable {signature : List Bool} {functionId pubkey : ℕ}

theorem frontFits_inboundHeader (signature : List Bool) (functionId : ℕ) (pubkey : Option ℕ) :
    FrontFits [externalSignature signature, externalInboundMsgHeader functionId pubkey] := by
  have htypes : types [externalSignature signature, externalInboundMsgHeader functionId pubkey] =
      [externalSignatureTy, externalInboundMsgHeaderTy pubkey.isSome] := by
    cases pubkey <;> rfl
  rw [FrontFits, htypes]
  cases pubkey.isSome
  · exact ⟨by decide, by decide, by decide⟩
  · exact ⟨by decide, by decide, by decide⟩

theorem storableLeaf_pubkey {pubkey : Option ℕ} (h : ∀ key ∈ pubkey, key < 2 ^ 256) :
    StorableLeaf ⟨.optional (.uint 256), pubkey⟩ := by
  refine ⟨trivial, trivial, trivial, trivial, ?_, ?_⟩
  · cases pubkey with
    | none => exact trivial
    | some key => exact ⟨le_rfl, h key rfl⟩
  · cases pubkey <;> exact trivial

theorem chainValue_inboundHeader (hid : functionId < 2 ^ 32) {pubkey : Option ℕ}
    (h : ∀ key ∈ pubkey, key < 2 ^ 256) :
    ChainValue [externalInboundMsgHeader functionId pubkey] := by
  have hzero (bitlen : ℕ) (hlen : bitlen ≤ 256) : StorableLeaf ⟨.uint bitlen, (0 : ℕ)⟩ :=
    storableLeaf_uint hlen (Nat.two_pow_pos bitlen)
  cases pubkey with
  | none =>
    exact List.forall_mem_cons.mpr ⟨hzero 64 (by decide), List.forall_mem_cons.mpr
      ⟨hzero 32 (by decide), List.forall_mem_singleton.mpr (storableLeaf_uint32 hid)⟩⟩
  | some key =>
    exact List.forall_mem_cons.mpr ⟨storableLeaf_pubkey h, List.forall_mem_cons.mpr
      ⟨hzero 64 (by decide), List.forall_mem_cons.mpr ⟨hzero 32 (by decide),
        List.forall_mem_singleton.mpr (storableLeaf_uint32 hid)⟩⟩⟩

theorem storesHeader_inboundHeader (functionId : ℕ) (pubkey : Option ℕ) :
    StoresHeader [externalInboundMsgHeader functionId pubkey] functionId pubkey := by
  refine ⟨fun b => buildSeq_singleton _ b, fun ts => ?_⟩
  cases pubkey <;> rfl

theorem elemsBits_inboundHeader (functionId : ℕ) (pubkey : Option ℕ) :
    elemsBits true [externalInboundMsgHeader functionId pubkey] = headerBits pubkey.isSome := by
  cases pubkey <;> rfl

/-- What `external_call_prepare` puts between the signature and the arguments. -/
abbrev callHeader (iface : Attributes) (functionId pubkey : ℕ) : List Elem :=
  getExtHdr iface pubkey 0 ++ [⟨.uint 32, functionId⟩]

theorem frontFits_callHeader (signature : List Bool) (iface : Attributes) (functionId pubkey : ℕ) :
    FrontFits (externalSignature signature :: callHeader iface functionId pubkey) := by
  have htypes : types (externalSignature signature :: callHeader iface functionId pubkey) =
      externalSignatureTy :: .optional (.uint 256) ::
        ((if iface.hasTimestamp then [.uint 64] else []) ++
          (if iface.hasExpire then [.uint 32] else [])) ++ [.uint 32] := by
    rcases iface with ⟨p, _ | _, _ | _⟩ <;> rfl
  rw [FrontFits, htypes]
  cases iface.hasTimestamp
  all_goals
    cases iface.hasExpire
    all_goals exact ⟨by decide, by decide, by decide⟩

theorem chainValue_callHeader (iface : Attributes) (hid : functionId < 2 ^ 32)
    (hpubkey : pubkey < 2 ^ 256) : ChainValue (callHeader iface functionId pubkey) := by
  have hkey : StorableLeaf
      ⟨.optional (.uint 256), if iface.hasPubkey then some pubkey else none⟩ := by
    cases iface.hasPubkey with
    | false => exact storableLeaf_pubkey nofun
    | true => exact storableLeaf_pubkey (by rintro _ ⟨⟩; exact hpubkey)
  have htime : StorableLeaf ⟨.uint 64, (0 : ℕ)⟩ := storableLeaf_uint (by decide) (by decide)
  have hexpire : StorableLeaf ⟨.uint 32, (0 : ℕ)⟩ := storableLeaf_uint32 (by decide)
  have hend : ChainValue [⟨.uint 32, functionId⟩] :=
    List.forall_mem_singleton.mpr (storableLeaf_uint32 hid)
  refine chainValue_append.mpr ⟨List.forall_mem_cons.mpr ⟨hkey, ?_⟩, hend⟩
  refine chainValue_append.mpr ⟨?_, ?_⟩
  · cases iface.hasTimestamp
    · exact List.forall_mem_nil _
    · exact List.forall_mem_singleton.mpr htime
  · cases iface.hasExpire
    · exact List.forall_mem_nil _
    · exact List.forall_mem_singleton.mpr hexpire

theorem elemsBits_callHeader (iface : Attributes) (functionId pubkey : ℕ) :
    elemsBits true (callHeader iface functionId pubkey) =
      (if iface.hasPubkey then 257 else 1) + (if iface.hasTimestamp then 64 else 0) +
        (if iface.hasExpire then 32 else 0) + 32 := by
  rcases iface with ⟨_ | _, _ | _, _ | _⟩ <;> rfl

/-- With all attributes, the header is the one of the receiver. -/
theorem storesHeader_callHeader (functionId pubkey : ℕ) :
    StoresHeader (callHeader ⟨true, true, true⟩ functionId pubkey) functionId (some pubkey) :=
  ⟨fun _ => rfl, fun _ => rfl⟩

/-- The header of a call is as long as the receiver's one only with all attributes, or without
the public key alone, when there is one bit too many. -/
theorem attributes_of_bits {iface : Attributes} {hasAnswerId : Bool}
    (h : headerBits iface.hasPubkey + (if hasAnswerId then 32 else 0) ≤
      elemsBits true (callHeader iface functionId pubkey)) :
    hasAnswerId = false ∧ (iface = ⟨true, true, true⟩ ∨ iface = ⟨false, true, true⟩) := by
  rw [elemsBits_callHeader] at h
  rcases iface with ⟨_ | _, _ | _, _ | _⟩
  all_goals
    cases hasAnswerId
    all_goals simp [headerBits] at h ⊢

/-! ## One bit too many -/

theorem buildSeq_uint {n bitlen : ℕ} (hlen : bitlen ≤ 256) (hn : n < 2 ^ bitlen) {ts : List Ty}
    {vs : SeqVal ts} {b : Builder} (hb : Builder.Valid (b ++ .ofBits (natBits bitlen n))) :
    buildSeq (.uint bitlen :: ts) (n, vs) b = buildSeq ts vs (b ++ .ofBits (natBits bitlen n)) := by
  have hstu : Builder.stu n bitlen b = .ok (b ++ .ofBits (natBits bitlen n)) := by
    rw [Builder.stu, if_pos ⟨hlen, hn⟩]
    exact store_eq_ok hb
  show (Builder.stu n bitlen b).bind _ = _
  rw [hstu]
  rfl

/-- The bits of the header without a public key. -/
theorem build_inboundHeader (h : functionId < 2 ^ 32) :
    build (externalInboundMsgHeader functionId none).1 (externalInboundMsgHeader functionId none).2
      .empty = .ok (.ofBits (natBits 64 0 ++ natBits 32 0 ++ natBits 32 functionId)) := by
  have hvalid (bs : List Bool) (hbs : bs.length ≤ 128) : Builder.Valid (.ofBits bs) :=
    ⟨hbs.trans (by decide), Nat.zero_le _⟩
  have hlength : (natBits 64 0 ++ natBits 32 0 ++ natBits 32 functionId).length ≤ 128 := by
    simp only [List.length_append, length_natBits]
    exact le_rfl
  exact (buildSeq_uint (by decide) (by decide) (hvalid _ (by decide))).trans
    ((buildSeq_uint (by decide) (by decide) (hvalid _ (by decide))).trans
      (buildSeq_uint (by decide) h (hvalid _ hlength)))

/-- A leading zero. -/
theorem natBits_succ_of_lt {w n : ℕ} (h : n < 2 ^ w) :
    natBits (w + 1) n = false :: natBits w n := by
  have hbits := natBits_natOfBits (false :: natBits w n)
  have hvalue : natOfBits (false :: natBits w n) = n := by
    show natOfBits ([false] ++ natBits w n) = n
    rw [natOfBits_append, natOfBits_natBits h]
    exact (congrArg (· + n) (Nat.zero_mul _)).trans (Nat.zero_add n)
  rwa [hvalue, List.length_cons, length_natBits] at hbits

/-- The bits of a header with timestamp and expire but without a public key are those of the
receiver's header, for half the function id, and one bit more. -/
theorem callHeader_bits {pubkey : ℕ} (hid : functionId < 2 ^ 32) {b₁ s₂ : Slice}
    (hb : buildSeq (types (callHeader ⟨false, true, true⟩ functionId pubkey))
      (tupleVal (callHeader ⟨false, true, true⟩ functionId pubkey)) b₁ = .ok (b₁ ++ s₂)) :
    s₂ = .ofBits (natBits 64 0 ++ natBits 32 0 ++ natBits 32 (functionId / 2) ++
      [decide (functionId % 2 = 1)]) := by
  -- the bits that the caller has stored
  obtain ⟨b₂, hflag, hb⟩ := bind_eq_ok.mp hb
  obtain ⟨b₃, htime, hb⟩ := bind_eq_ok.mp hb
  obtain ⟨b₄, hexpire, hb⟩ := bind_eq_ok.mp hb
  obtain ⟨b₅, hlast, hb⟩ := bind_eq_ok.mp hb
  obtain ⟨-, rfl⟩ := stu_eq_ok hflag
  obtain ⟨-, rfl⟩ := stu_eq_ok htime
  obtain ⟨-, rfl⟩ := stu_eq_ok hexpire
  obtain ⟨-, rfl⟩ := stu_eq_ok hlast
  have hs₂ : s₂ = .ofBits ([false] ++ natBits 64 0 ++ natBits 32 0 ++ natBits 32 functionId) := by
    have hsplit := Except.ok.inj hb
    simp only [Slice.append_assoc] at hsplit
    refine (Slice.append_left_cancel hsplit).symm.trans ?_
    simp only [List.append_assoc]
    rfl
  have hhalf : functionId / 2 < 2 ^ 31 := by omega
  have hzeros : [false] ++ natBits 64 0 ++ natBits 32 0 = natBits 64 0 ++ natBits 32 0 ++ [false] :=
    by decide
  rw [hs₂, hzeros, natBits_succ_of_lt hhalf]
  show Slice.ofBits (_ ++ (natBits 31 (functionId / 2) ++ _)) = _
  simp only [List.append_assoc, List.cons_append, List.nil_append]

/-- **With timestamp and expire but without a public key**, the receiver reads everything one bit
too early. It finds the function id 0 only, and the arguments only if they are read so. -/
theorem readsCall_shifted_iff {info init : Ty} {signature : List Bool} {args : List Elem}
    {x : Except TvmException Cell} {m : ExternalMethod} (hid : m.functionId < 2 ^ 32)
    (hpubkey : pubkey < 2 ^ 256) (hsignature : signature.length = 512)
    (hanswer : m.hasAnswerId = false) (hargs : ChainValue args)
    (hend : args = [] ∨ SeqEndsInLeaf (types args))
    (hx : externalCallPrepare info init ⟨false, true, true⟩ signature m.functionId pubkey args =
      some x) :
    ReadsCall ⟨false, true, true⟩ m pubkey args x ↔ m.functionId = 0 ∧ ReadBehindBit m args := by
  have hvalue := chainValue_callHeader ⟨false, true, true⟩ hid hpubkey
  obtain ⟨b₁, b, s, hsig, hb, rfl, -, hstored, -⟩ := externalBody_split hsignature
    (frontFits_callHeader signature ⟨false, true, true⟩ m.functionId pubkey) hvalue hargs hend
    (show false = true → _ from nofun) hx
  obtain ⟨hwf, hfits⟩ := wholeSeq_of_leaves _ _ hvalue
  obtain ⟨s₂, rfl, -⟩ := build_roundTrips (.tuple _) [] (tupleVal _) hwf (hfits false []) _ _ hb
  obtain ⟨s₃, hs₃, hheader⟩ := parseExternalHeader_spec
    (build_inboundHeader (show m.functionId / 2 < 2 ^ 32 by omega))
  rw [Slice.empty_append] at hs₃
  -- the receiver's header ends one bit in front of the arguments
  have hsplit : s₂ ++ s = s₃ ++ (.ofBits [decide (m.functionId % 2 = 1)] ++ s) := by
    rw [callHeader_bits hid hb, Slice.ofBits_append, hs₃, Slice.append_assoc]
  have hswitch (emptyContent : (t : Ty) → Except ParseError t.Val) :
      switchExternalBody emptyContent false m (types args)
          (Builder.endc (b₁ ++ s₂ ++ s)).ctos =
        if (types args).isEmpty then .value ((m.functionId / 2, none), []) else
          (parseSmart emptyContent m.dynChainParse (externalFixedHeader false false) (types args)
            (.ofBits [decide (m.functionId % 2 = 1)] ++ s)).map
              fun args => ((m.functionId / 2, none), args) := by
    rw [ctos_endc, Slice.append_assoc, smartSwitchExternal_signature hsignature hsig, hsplit]
    have hread := hheader (.ofBits [decide (m.functionId % 2 = 1)] ++ s)
    rw [Option.isSome_none] at hread
    rw [hread]
    simp only [Read.bind_value, hanswer, Bool.false_eq_true, if_false]
  constructor
  · rintro ⟨c, hc, hread⟩
    obtain rfl := Except.ok.inj hc
    cases args with
    | nil =>
      have hvalues := (hswitch noContent).symm.trans (hread noContent)
      have hhalf : m.functionId / 2 = m.functionId :=
        congrArg (fun r => r.1.1) (Except.ok.inj (Option.some.inj hvalues))
      exact ⟨by omega, .inl rfl⟩
    | cons e args =>
      have hargsRead (emptyContent : (t : Ty) → Except ParseError t.Val) :=
        Read.map_eq_value.mp ((hswitch emptyContent).symm.trans (hread emptyContent))
      have hzero : m.functionId = 0 := by
        obtain ⟨l, -, hr⟩ := hargsRead noContent
        have hhalf : m.functionId / 2 = m.functionId := congrArg (fun r => r.1.1) hr
        omega
      refine ⟨hzero, .inr fun emptyContent => ?_⟩
      obtain ⟨l, hl, hr⟩ := hargsRead emptyContent
      obtain rfl : l = e :: args := congrArg Prod.snd hr
      rw [hzero, hstored (List.cons_ne_nil e args)] at hl
      exact hl
  · rintro ⟨hzero, hargsRead⟩
    refine ⟨_, rfl, fun emptyContent => ?_⟩
    show switchExternalBody emptyContent false m _ _ = .value ((m.functionId, none), args)
    rw [hswitch, hzero]
    cases args with
    | nil => rfl
    | cons e args =>
      have hread := hargsRead.resolve_left (List.cons_ne_nil e args) emptyContent
      rw [hstored (List.cons_ne_nil e args)]
      exact Read.map_eq_value.mpr ⟨_, hread, rfl⟩

/-- **The calls that are read**: those of `external_body_prepare` by a method without answer id,
and those of `external_call_prepare` if the interface has all three attributes as well. With
timestamp and expire only, a call of the function 0 is read if its arguments are read one bit too
early. -/
theorem externalCalls_read_iff (info init : Ty) (iface : Attributes) (m : ExternalMethod)
    (hid : m.functionId < 2 ^ 32) (signature : List Bool) (hsignature : signature.length = 512)
    (pubkey : ℕ) (hpubkey : pubkey < 2 ^ 256) (args : List Elem) (hargs : ChainValue args)
    (hend : args = [] ∨ SeqEndsInLeaf (types args))
    (hdyn : m.dynChainParse = true →
      DynReadable (externalFixedHeader iface.hasPubkey false) args) :
    (∀ x, (if iface.hasPubkey then
        externalBodyPrepareWithPubkey info init signature m.functionId pubkey args
        else externalBodyPrepare info init signature m.functionId args) = some x →
      (ReadsCall iface m pubkey args x ↔ m.hasAnswerId = false)) ∧
    ∀ x, externalCallPrepare info init iface signature m.functionId pubkey args = some x →
      (ReadsCall iface m pubkey args x ↔ m.hasAnswerId = false ∧
        (iface = ⟨true, true, true⟩ ∨
          iface = ⟨false, true, true⟩ ∧ m.functionId = 0 ∧ ReadBehindBit m args)) := by
  constructor
  · -- these bodies have a public key where the receiver's header has one
    intro x hx
    set key : Option ℕ := if iface.hasPubkey then some pubkey else none with hkey
    have hbody : externalBody info init
        [externalSignature signature, externalInboundMsgHeader m.functionId key] args = some x := by
      rw [← hx, hkey]
      cases iface.hasPubkey <;> rfl
    have hsome : key.isSome = iface.hasPubkey := by
      rw [hkey]
      cases iface.hasPubkey <;> rfl
    have hvalue : ChainValue [externalInboundMsgHeader m.functionId key] := by
      refine chainValue_inboundHeader hid ?_
      rw [hkey]
      cases iface.hasPubkey with
      | false => exact nofun
      | true => rintro _ ⟨⟩; exact hpubkey
    have hfront := frontFits_inboundHeader signature m.functionId key
    constructor
    · -- an answer id would be bits that the caller has not stored
      intro hread
      have hbits := frontBits_le_of_readsCall hsignature hfront hvalue hargs hend hbody hread
      rw [elemsBits_inboundHeader, hsome] at hbits
      cases hanswer : m.hasAnswerId with
      | false => rfl
      | true =>
        rw [hanswer, if_pos rfl] at hbits
        omega
    · intro hanswer
      exact readsCall_of_front hsignature hfront hvalue
        (storesHeader_inboundHeader m.functionId key) hanswer hargs hend hdyn hbody
  · -- the header of the call is put together from the attributes
    intro x hx
    have hfront := frontFits_callHeader signature iface m.functionId pubkey
    have hvalue := chainValue_callHeader iface hid hpubkey
    constructor
    · intro hread
      have hbits := frontBits_le_of_readsCall hsignature hfront hvalue hargs hend hx hread
      obtain ⟨hanswer, rfl | rfl⟩ := attributes_of_bits hbits
      · exact ⟨hanswer, .inl rfl⟩
      · exact ⟨hanswer, .inr ⟨rfl,
          (readsCall_shifted_iff hid hpubkey hsignature hanswer hargs hend hx).mp hread⟩⟩
    · rintro ⟨hanswer, rfl | ⟨rfl, hshifted⟩⟩
      · exact readsCall_of_front hsignature hfront hvalue
          (storesHeader_callHeader m.functionId pubkey) hanswer hargs hend hdyn hx
      · exact (readsCall_shifted_iff hid hpubkey hsignature hanswer hargs hend hx).mpr hshifted

end Callers

section Example

/-- The body of a call compiles if each leaf of the arguments leaves a reference to spare. -/
theorem exists_externalCallPrepare (info init : Ty) (iface : Attributes) (signature : List Bool)
    (functionId pubkey : ℕ) {args : List Elem} (h : ∀ e ∈ expandAll args, LeavesRef e.1) :
    ∃ x, externalCallPrepare info init iface signature functionId pubkey args = some x := by
  refine exists_bodyPrepare (List.forall_mem_append.mpr ⟨?_, h⟩) (List.cons_ne_nil _ _)
  have hleaf : ∀ t ∈ ([.optional (.bitfield 512), .optional (.uint 256), .uint 64, .uint 32] :
      List Ty), LeavesRef t := by decide
  simp only [List.forall_mem_cons] at hleaf
  obtain ⟨hsignature, hkey, htime, hword, -⟩ := hleaf
  refine List.forall_mem_cons.mpr ⟨hsignature, List.forall_mem_cons.mpr ⟨hkey, ?_⟩⟩
  rcases iface with ⟨p, _ | _, _ | _⟩
  · exact List.forall_mem_singleton.mpr hword
  · exact List.forall_mem_cons.mpr ⟨hword, List.forall_mem_singleton.mpr hword⟩
  · exact List.forall_mem_cons.mpr ⟨htime, List.forall_mem_singleton.mpr hword⟩
  · exact List.forall_mem_cons.mpr ⟨htime, List.forall_mem_cons.mpr
      ⟨hword, List.forall_mem_singleton.mpr hword⟩⟩

/-- A method that parses its arguments by their types, and one that parses them dynamically. -/
theorem externalCallPrepare_fields :
    (∃ x, externalCallPrepare commonMsgInfoTy initTy ⟨true, true, true⟩
        (signaturePlace ⟨true, true, true⟩ 1 2) 5 2 fields = some x ∧
      ReadsCall ⟨true, true, true⟩ ⟨5, false, false⟩ 2 fields x) ∧
    ∃ x, externalCallPrepare commonMsgInfoTy initTy ⟨true, true, true⟩
        (signaturePlace ⟨true, true, true⟩ 1 2) 5 2 (expandAll fields) = some x ∧
      ReadsCall ⟨true, true, true⟩ ⟨5, false, true⟩ 2 (expandAll fields) x := by
  have hleaves := expandAll_of_leaves expandAll_fields_leaves
  have htakes : ∀ e ∈ expandAll fields, TakesBitOrRefs e.1 := by
    rw [← forall_mem_types, types_expandAll]
    decide
  constructor
  · obtain ⟨x, hx⟩ := exists_externalCallPrepare commonMsgInfoTy initTy
      ⟨true, true, true⟩ (signaturePlace ⟨true, true, true⟩ 1 2) 5 2 fields_leavesRef
    exact ⟨x, hx, ((externalCalls_read_iff commonMsgInfoTy initTy ⟨true, true, true⟩
      ⟨5, false, false⟩ (by decide) _ (length_signaturePlace _ _ _) 2 (by decide) fields
      fields_storable (.inr trivial) nofun).2 x hx).mpr ⟨rfl, .inl rfl⟩⟩
  · obtain ⟨x, hx⟩ := exists_externalCallPrepare commonMsgInfoTy initTy
      ⟨true, true, true⟩ (signaturePlace ⟨true, true, true⟩ 1 2) 5 2
      (show ∀ e ∈ expandAll (expandAll fields), LeavesRef e.1 by
        rw [hleaves]; exact fields_leavesRef)
    have hdyn : DynReadable (externalFixedHeader true false) (expandAll fields) :=
      dynReadable_of_leaves (by decide) (by decide) expandAll_fields_leaves htakes
    exact ⟨x, hx, ((externalCalls_read_iff commonMsgInfoTy initTy ⟨true, true, true⟩
      ⟨5, false, true⟩ (by decide) _ (length_signaturePlace _ _ _) 2 (by decide) (expandAll fields)
      (by rw [ChainValue, hleaves]; exact fields_storable) (.inr trivial)
      fun _ => hdyn).2 x hx).mpr ⟨rfl, .inl rfl⟩⟩

/-- Without the attribute expire, the call of a method without arguments is not read. -/
theorem externalCallPrepare_not_read :
    ∃ x, externalCallPrepare commonMsgInfoTy initTy ⟨true, true, false⟩
        (signaturePlace ⟨true, true, false⟩ 1 2) 5 2 [] = some x ∧
      ¬ ReadsCall ⟨true, true, false⟩ ⟨5, false, false⟩ 2 [] x := by
  have hnil : ∀ e ∈ expandAll [], LeavesRef e.1 := nofun
  obtain ⟨x, hx⟩ := exists_externalCallPrepare commonMsgInfoTy initTy
    ⟨true, true, false⟩ (signaturePlace ⟨true, true, false⟩ 1 2) 5 2 hnil
  refine ⟨x, hx, fun hread => ?_⟩
  have hargs : ChainValue [] := nofun
  have hbits := frontBits_le_of_readsCall (length_signaturePlace _ _ _)
    (frontFits_callHeader _ ⟨true, true, false⟩ 5 2)
    (chainValue_callHeader ⟨true, true, false⟩ (by decide) (by decide)) hargs
    (.inl rfl) hx hread
  rcases (attributes_of_bits hbits).2 with h | h
  · cases h
  · cases h

end Example

end TVMCompiler.Sdk
