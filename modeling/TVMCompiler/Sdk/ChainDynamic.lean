import TVMCompiler.Sdk.ChainStatic

/-!
# Dynamic chains

The reader of messages from outside does not know where their writer cut them into cells. It
decides from the bits and references that are left: a prefix that surely fits the first cell is
parsed at once, and before each later element the reader goes to the next cell if the element
surely does not begin in this one.

## Main definitions

* `checkSureParsable`, `checkSureUnparsable`: the decisions
* `dynChainParserImpl`, `parseChainDynamic`: the reader
* `chainOf`: elements cut into cells
* `TakesBitOrRef`, `TakesBitOrRefs`: the element types that a cut can be found between

## Main results

* `parseChainDynamic_ends`: nothing is left in the last cell
* `length_le_of_checkSureParsable`: a prefix that surely fits lies in the first cell
* `parseElem_spec`: each further element is found
* `parseChainDynamic_chainOf`: the elements of a chain of runs are found
* `parseChainDynamic_spec`: the elements are found however they were cut
-/

namespace TVMCompiler.Sdk

open Lib

/-! ## The reader -/

/-- `check_sure_parsable`: one reference is reserved for the next cell. -/
def checkSureParsable (est : Estimate) (bits refs : ℕ) : Bool :=
  if est.maxBits > Builder.maxBits then false
  else if est.maxRefs ≥ Builder.maxRefs then false
  else if bits < est.maxBits then false
  else if est.maxRefs ≠ 0 ∧ refs ≤ est.maxRefs then false
  else true

/-- `check_sure_unparsable`. -/
def checkSureUnparsable (isLastElem : Bool) (est : Estimate) (bits refs : ℕ) : Bool :=
  if bits < est.minBits then true
  else if est.minRefs ≠ 0 ∧ (refs < est.minRefs ∨
    -- the only reference that is left leads to the next cell
    isLastElem = false ∧ refs = est.minRefs ∧ bits = 0) then true
  else false

section Reader

-- What reading the content of an empty optional gives.
variable (emptyContent : (t : Ty) → Except ParseError t.Val)

/-- `parse_continue`, and the content of its result. -/
def parseContent (t : Ty) (p : Slice) : Read (t.Val × Slice) :=
  (Read.ofLoad (parse t [] p)).bind fun r => match r.1 with
    | some v => .value (v, r.2)
    | none => some ((emptyContent t).map fun v => (v, r.2))

/-- The step to the next cell, from one in which nothing but the reference to it is left. -/
def nextCell (p : Slice) : Read Slice :=
  if p.refs.length ≠ 1 then .throw .nonSingleRefsAtCellWrap
  else if p.bits.length ≠ 0 then .throw .nonEmptyBitsAtCellWrap
  else (Read.ofLoad p.ldref).map fun r => r.1.ctos

/-- An element behind the ones parsed so far, maybe in the next cell. -/
def parseElem (isTop : Bool) (t : Ty) (p : Slice) : Read (Elem × Slice) :=
  (if checkSureUnparsable isTop (estimate [] t) p.bits.length p.refs.length then nextCell p
    else .value p).bind fun p =>
      (parseContent emptyContent t p).map fun r => (⟨t, r.1⟩, r.2)

/-- `dyn_chain_parser_impl`, for the reversed list of types. -/
def dynChainParserImpl (bits refs : ℕ) : Bool → List Ty → Slice → Read (List Elem × Slice)
  | _, [], p => .value ([], p)
  | isTop, last :: prev, p =>
    if checkSureParsable (estimate [] (.tuple (last :: prev).reverse)) bits refs then
      (parseContent emptyContent (.tuple (last :: prev).reverse) p).map fun r =>
        (elems _ r.1, r.2)
    else
      (dynChainParserImpl bits refs false prev p).bind fun r =>
        (parseElem emptyContent isTop last r.2).map fun s => (r.1 ++ [s.1], s.2)

/-- `parse_chain_dynamic`, for a struct of these types. -/
def parseChainDynamic (ts : List Ty) (p : Slice) : Read (List Elem) :=
  if ts = [] then .value []
  else
    (dynChainParserImpl emptyContent p.bits.length p.refs.length true ts.reverse p).bind fun r =>
      (Read.ofLoad r.2.ends).map fun _ => r.1

/-- **Nothing is left** in the cell that the reader ends in. -/
theorem parseChainDynamic_ends {ts : List Ty} {p : Slice} {l : List Elem} (hts : ts ≠ [])
    (h : parseChainDynamic emptyContent ts p = .value l) :
    ∃ q, dynChainParserImpl emptyContent p.bits.length p.refs.length true ts.reverse p =
      .value (l, q) ∧ q.bits = [] ∧ q.refs = [] := by
  rw [parseChainDynamic, if_neg hts] at h
  cases hparse : dynChainParserImpl emptyContent p.bits.length p.refs.length true ts.reverse p with
  | none => rw [hparse] at h; cases h
  | some r =>
    rw [hparse] at h
    cases r with
    | error e => cases h
    | ok r =>
      by_cases hends : r.2.bits = [] ∧ r.2.refs = []
      · rw [Read.bind, Slice.ends, if_pos hends] at h
        cases h
        exact ⟨r.2, rfl, hends⟩
      · rw [Read.bind, Slice.ends, if_neg hends] at h
        cases h

end Reader

/-! ## Cuts -/

/-- The encoding of an element in an empty cell. -/
def encoding (e : Elem) : Slice :=
  match build e.1 e.2 .empty with
  | .ok b => b
  | .error _ => .empty

def encodeRun : List Elem → Slice
  | [] => .empty
  | e :: l => encoding e ++ encodeRun l

/-- Elements cut into runs, one for each cell. Each cell but the last ends with a reference to
the next one. -/
def chainOf : List (List Elem) → Slice
  | [] => .empty
  | [run] => encodeRun run
  | run :: runs => encodeRun run ++ ⟨[], [Builder.endc (chainOf runs)]⟩

/-- The reference to the cell of the next run. -/
def nextRef : List (List Elem) → Slice
  | [] => .empty
  | runs => ⟨[], [Builder.endc (chainOf runs)]⟩

theorem chainOf_cons (run : List Elem) (runs : List (List Elem)) :
    chainOf (run :: runs) = encodeRun run ++ nextRef runs := by
  cases runs with
  | nil => exact (Slice.append_empty _).symm
  | cons => rfl

theorem encodeRun_append (l l' : List Elem) :
    encodeRun (l ++ l') = encodeRun l ++ encodeRun l' := by
  induction l with
  | nil => exact (Slice.empty_append _).symm
  | cons e l ih => rw [List.cons_append, encodeRun, ih, encodeRun, Slice.append_assoc]

/-- The encoding of the element is within its estimate and read back. -/
structure Encoded (e : Elem) : Prop where
  reads : ∀ rest, parse e.1 [] (encoding e ++ rest) = .ok (some e.2, rest)
  contains : (estimate [] e.1).Contains (encoding e)

theorem Encodable.encoded {e : Elem} (h : Encodable e) (hbuild : ∃ b, build e.1 e.2 .empty = .ok b) :
    Encoded e := by
  obtain ⟨b, hb⟩ := hbuild
  have hencoding : encoding e = b := by rw [encoding, hb]
  obtain ⟨s, hs, hread⟩ := build_roundTrips e.1 [] e.2 h.wellFormed h.fits _ _ hb
  obtain ⟨s', hs', hstore⟩ := build_stores e.1 [] [] e.2 h.estimable (.nil _) h.inRange h.fits
  have hb' : b = s' := by
    have hok := (hstore .empty valid_empty).symm.trans hb
    unfold Builder.store at hok
    split at hok
    · exact (Except.ok.inj hok).symm
    · cases hok
  constructor
  · intro rest
    rw [hencoding, hs, Slice.empty_append]
    exact hread rest
  · rw [hencoding, hb']
    exact hs'

/-- Elements in a row are parsed as a tuple. -/
theorem parseSeq_encodeRun {l : List Elem} (h : ∀ e ∈ l, Encoded e) (rest : Slice) :
    parseSeq false (types l) [] (encodeRun l ++ rest) = .ok (some (tupleVal l), rest) := by
  induction l with
  | nil => rfl
  | cons e l ih =>
    have htail := ih fun e' he' => h e' (List.mem_cons_of_mem _ he')
    rw [encodeRun, Slice.append_assoc]
    show (parse e.1 [] _).bind _ = _
    rw [(h e List.mem_cons_self).reads]
    show Except.map _ (parseSeq false (types l) [] _) = _
    rw [htail]
    rfl

theorem encodeRun_contains {l : List Elem} (h : ∀ e ∈ l, Encoded e) :
    (estimateSeq [] (types l)).Contains (encodeRun l) := by
  induction l with
  | nil => exact ⟨le_rfl, le_rfl, le_rfl, le_rfl⟩
  | cons e l ih =>
    exact (h e List.mem_cons_self).contains.add (ih fun e' he' => h e' (List.mem_cons_of_mem _ he'))

/-! ## The decisions are right -/

/-- The type is a reference and nothing else. -/
def Ty.BareRef : Ty → Prop
  | .cell | .ref _ => True
  | _ => False

/-- Each value takes at least one bit, or is one reference. -/
def TakesBitOrRef (t : Ty) : Prop := 1 ≤ (estimate [] t).minBits ∨ t.BareRef

/-- Each value takes at least one bit, or consists of references, always as many. -/
def TakesBitOrRefs (t : Ty) : Prop :=
  1 ≤ (estimate [] t).minBits ∨ (estimate [] t).maxBits = 0 ∧
    (estimate [] t).minRefs = (estimate [] t).maxRefs ∧ 1 ≤ (estimate [] t).minRefs

instance : DecidablePred TakesBitOrRefs := fun _ => inferInstanceAs (Decidable (_ ∨ _))

/-- The values may take no bits, and only one reference. -/
def MayBeOneRef (t : Ty) : Prop := (estimate [] t).minBits = 0 ∧ (estimate [] t).minRefs = 1

theorem Ty.BareRef.estimate {t : Ty} (h : t.BareRef) : estimate [] t = .oneRef := by
  cases t with
  | cell => rfl
  | ref t => rfl
  | _ => cases h

theorem TakesBitOrRef.refs {t : Ty} (h : TakesBitOrRef t) : TakesBitOrRefs t := by
  refine h.imp_right fun hbare => ?_
  rw [hbare.estimate]
  decide

theorem TakesBitOrRef.bareRef {t : Ty} (h : TakesBitOrRef t) (hone : MayBeOneRef t) :
    t.BareRef := by
  obtain ⟨hbits, -⟩ := hone
  rcases h with h | h
  · omega
  · exact h

/-- An element that may take no bits takes a reference. -/
theorem TakesBitOrRefs.minRefs {t : Ty} (h : TakesBitOrRefs t)
    (hbits : (estimate [] t).minBits = 0) : 1 ≤ (estimate [] t).minRefs := by
  rcases h with h | h
  · omega
  · exact h.2.2

theorem checkSureParsable_eq_true {est : Estimate} {bits refs : ℕ}
    (h : checkSureParsable est bits refs = true) :
    est.maxBits ≤ bits ∧ (est.maxRefs = 0 ∨ est.maxRefs < refs) := by
  unfold checkSureParsable at h
  split_ifs at h
  omega

theorem nextRef_bits (runs : List (List Elem)) : (nextRef runs).bits = [] := by
  cases runs <;> rfl

theorem nextRef_refs (runs : List (List Elem)) :
    (nextRef runs).refs.length = if runs = [] then 0 else 1 := by
  cases runs <;> rfl

/-- **A prefix that surely fits lies in the first cell**: beyond it there is an element that
takes a bit or a reference, and the reference to the next cell is not counted. -/
theorem length_le_of_checkSureParsable {pre run rest : List Elem} {runs : List (List Elem)}
    (hsplit : pre ++ rest = run ++ runs.flatten) (hrun : ∀ e ∈ run, Encoded e)
    (hruns : ∀ e ∈ runs.flatten, Encoded e ∧ TakesBitOrRefs e.1)
    (h : checkSureParsable (estimateSeq [] (types pre)) (chainOf (run :: runs)).bits.length
      (chainOf (run :: runs)).refs.length = true) : pre.length ≤ run.length := by
  by_contra! hlt
  -- the prefix goes on with the first element of the next cell
  obtain ⟨more, rfl⟩ : run <+: pre :=
    List.prefix_of_prefix_length_le (List.prefix_append run _) ⟨rest, hsplit⟩ hlt.le
  cases more with
  | nil => simp at hlt
  | cons e more =>
    have he : e ∈ runs.flatten := by
      rw [List.append_assoc] at hsplit
      rw [← List.append_cancel_left hsplit]
      simp
    obtain ⟨hbits, hrefs⟩ := checkSureParsable_eq_true h
    have hcontains := encodeRun_contains hrun
    have hencoded := (hruns e he).1.contains
    have hbound := hcontains.maxBits
    have hboundRefs := hcontains.maxRefs
    rw [types_append, estimateSeq_append, types_cons, estimateSeq] at hbits hrefs
    rw [chainOf_cons] at hbits hrefs
    simp only [Estimate.add_maxBits, Estimate.add_maxRefs, Slice.append_bits, Slice.append_refs,
      List.length_append, nextRef_bits, nextRef_refs, List.length_nil] at hbits hrefs
    have hminBits := hencoded.minBits
    have hmaxBits := hencoded.maxBits
    have htakes := (hruns e he).2.minRefs (by omega)
    have hminRefs := hencoded.minRefs
    have hmaxRefs := hencoded.maxRefs
    split at hrefs <;> omega

theorem checkSureUnparsable_eq_false {isLastElem : Bool} {est : Estimate} {bits refs : ℕ}
    (hbits : est.minBits ≤ bits) (hrefs : est.minRefs ≤ refs)
    (hlast : isLastElem = false → bits = 0 → est.minRefs < refs ∨ est.minRefs = 0) :
    checkSureUnparsable isLastElem est bits refs = false := by
  rw [checkSureUnparsable, if_neg (not_lt.mpr hbits), if_neg]
  rintro ⟨hne, hlt | ⟨hfalse, heq, hzero⟩⟩
  · omega
  · have := hlast hfalse hzero
    omega

/-- An element in this cell is not looked for in the next one. -/
theorem not_sureUnparsable {isTop : Bool} {e : Elem} {l suffix : List Elem}
    {runs : List (List Elem)} (hl : suffix ++ runs.flatten = l) (htop : isTop = true ↔ l = [])
    (hencoded : ∀ e' ∈ e :: suffix, Encoded e' ∧ TakesBitOrRefs e'.1) :
    checkSureUnparsable isTop (estimate [] e.1)
      (encodeRun (e :: suffix) ++ nextRef runs).bits.length
      (encodeRun (e :: suffix) ++ nextRef runs).refs.length = false := by
  obtain ⟨⟨-, he⟩, hebit⟩ := hencoded e List.mem_cons_self
  have hminBits := he.minBits
  have hminRefs := he.minRefs
  simp only [encodeRun, Slice.append_bits, Slice.append_refs, List.length_append, nextRef_bits,
    nextRef_refs, List.length_nil]
  refine checkSureUnparsable_eq_false (by omega) (by omega) fun hfalse hzero => ?_
  by_contra! hrefs
  -- nothing follows the references of the element, so that it is the last one
  have hruns : runs = [] := by
    by_contra hne
    rw [if_neg hne] at hrefs
    omega
  have hsuffix : suffix = [] := by
    cases suffix with
    | nil => rfl
    | cons e' suffix =>
      obtain ⟨⟨-, he'⟩, hebit'⟩ := hencoded e' (List.mem_cons_of_mem _ List.mem_cons_self)
      have hminBits' := he'.minBits
      have hminRefs' := he'.minRefs
      simp only [encodeRun, Slice.append_bits, Slice.append_refs, List.length_append] at hzero hrefs
      have htakes := hebit'.minRefs (by omega)
      omega
  have hnil : l = [] := by rw [← hl, hruns, hsuffix]; rfl
  rw [htop.mpr hnil] at hfalse
  cases hfalse

/-- An element of the next cell is looked for there. -/
theorem sureUnparsable {isTop : Bool} {e : Elem} {l suffix : List Elem} {runs : List (List Elem)}
    (hl : suffix ++ runs.flatten = l) (htop : isTop = true ↔ l = [])
    (hbit : TakesBitOrRefs e.1) (hne : ∀ run ∈ runs, run ≠ [])
    (hlast : ∀ e', ((e :: suffix) :: runs).getLast? = some [e'] → ¬ MayBeOneRef e'.1) :
    checkSureUnparsable isTop (estimate [] e.1) (nextRef ((e :: suffix) :: runs)).bits.length
      (nextRef ((e :: suffix) :: runs)).refs.length = true := by
  show checkSureUnparsable isTop (estimate [] e.1) 0 1 = true
  by_cases hzero : (estimate [] e.1).minBits = 0
  · have htakes := hbit.minRefs hzero
    rw [checkSureUnparsable, if_neg (by omega), if_pos]
    refine ⟨by omega, ?_⟩
    by_cases hone : (estimate [] e.1).minRefs = 1
    · -- the only reference that is left would be the element, if it were the last one
      refine .inr ⟨?_, hone.symm, rfl⟩
      by_contra htrue
      rw [Bool.not_eq_false, htop, ← hl] at htrue
      obtain ⟨rfl, hflat⟩ := List.append_eq_nil_iff.mp htrue
      have hruns : runs = [] := by
        cases runs with
        | nil => rfl
        | cons run runs =>
          exact absurd (List.append_eq_nil_iff.mp hflat).1 (hne run List.mem_cons_self)
      subst hruns
      exact hlast e rfl ⟨hzero, hone⟩
    · exact .inl (by omega)
  · rw [checkSureUnparsable, if_pos (Nat.pos_of_ne_zero hzero)]

/-! ## However the elements are cut -/

/-- What is still to be read: the rest of a run, and the runs of the next cells. -/
structure Pending (l suffix : List Elem) (runs : List (List Elem)) : Prop where
  flatten : suffix ++ runs.flatten = l
  encoded : ∀ e ∈ l, Encoded e ∧ TakesBitOrRefs e.1
  nonempty : ∀ run ∈ runs, run ≠ []
  last : ∀ e, runs.getLast? = some [e] → ¬ MayBeOneRef e.1

section Run

variable (emptyContent : (t : Ty) → Except ParseError t.Val)

theorem parseContent_encoding {e : Elem} (h : Encoded e) (rest : Slice) :
    parseContent emptyContent e.1 (encoding e ++ rest) = .value (e.2, rest) := by
  rw [parseContent, h.reads]
  rfl

/-- Elements in a row are parsed at once. -/
theorem parseContent_encodeRun {l : List Elem} (h : ∀ e ∈ l, Encoded e) (rest : Slice)
    {ts : List Ty} (hts : ts = types l) :
    ((parseContent emptyContent (.tuple ts) (encodeRun l ++ rest)).map fun r =>
      (elems ts r.1, r.2)) = .value (l, rest) := by
  subst hts
  have hparse : parse (.tuple (types l)) [] (encodeRun l ++ rest) =
    .ok (some (tupleVal l), rest) := map_restart_eq_some.mpr (parseSeq_encodeRun h rest)
  rw [parseContent, hparse]
  show Read.value (elems (types l) (tupleVal l), rest) = _
  rw [elems_tupleVal]

/-- **The next element is found**, in this cell or at the beginning of the next one. -/
theorem parseElem_spec {isTop : Bool} {e : Elem} {l suffix : List Elem} {runs : List (List Elem)}
    (h : Pending (e :: l) suffix runs) (htop : isTop = true ↔ l = []) :
    ∃ suffix' runs', parseElem emptyContent isTop e.1 (encodeRun suffix ++ nextRef runs) =
      .value (e, encodeRun suffix' ++ nextRef runs') ∧ Pending l suffix' runs' := by
  obtain ⟨hflat, hencoded, hne, hlast⟩ := h
  have htail : ∀ e' ∈ l, Encoded e' ∧ TakesBitOrRefs e'.1 :=
    fun e' he' => hencoded e' (List.mem_cons_of_mem _ he')
  have he := (hencoded e List.mem_cons_self).1
  cases suffix with
  | cons e' suffix =>
    obtain ⟨rfl, hl⟩ := List.cons.inj hflat
    refine ⟨suffix, runs, ?_, ⟨hl, htail, hne, hlast⟩⟩
    have hhere : ∀ e₁ ∈ e' :: suffix, Encoded e₁ ∧ TakesBitOrRefs e₁.1 := fun e₁ he₁ =>
      hencoded e₁ (hflat ▸ List.mem_append_left _ he₁)
    rw [parseElem, not_sureUnparsable hl htop hhere, if_neg Bool.false_ne_true, Read.bind_value,
      encodeRun, Slice.append_assoc, parseContent_encoding _ he]
    rfl
  | nil =>
    -- this cell is used up, so that the element begins the next run
    obtain ⟨suffix, runs', rfl, hl⟩ : ∃ suffix runs', runs = (e :: suffix) :: runs' ∧
        suffix ++ runs'.flatten = l := by
      cases runs with
      | nil => cases hflat
      | cons run runs' =>
        cases run with
        | nil => exact absurd rfl (hne [] List.mem_cons_self)
        | cons e' suffix =>
          obtain ⟨rfl, hl⟩ := List.cons.inj hflat
          exact ⟨suffix, runs', rfl, hl⟩
    have hne' : ∀ run ∈ runs', run ≠ [] := fun run hrun => hne run (List.mem_cons_of_mem _ hrun)
    have hlast' : ∀ e', runs'.getLast? = some [e'] → ¬ MayBeOneRef e'.1 := fun e' he' =>
      hlast e' (by rw [List.getLast?_cons, he']; rfl)
    refine ⟨suffix, runs', ?_, ⟨hl, htail, hne', hlast'⟩⟩
    rw [parseElem, encodeRun, Slice.empty_append,
      sureUnparsable hl htop (hencoded e List.mem_cons_self).2 hne' hlast, if_pos rfl]
    show Read.bind (Read.value (chainOf ((e :: suffix) :: runs'))) _ = _
    rw [Read.bind_value, chainOf_cons, encodeRun, Slice.append_assoc, parseContent_encoding _ he]
    rfl

/-- A prefix that surely fits is parsed in the first cell, and each element behind it one after
another. -/
theorem dynChainParserImpl_spec {run : List Elem} {runs : List (List Elem)} {es : List Elem}
    (h : Pending es run runs) (pre l : List Elem) (hsplit : pre ++ l = es) (isTop : Bool)
    (htop : isTop = true ↔ l = []) :
    ∃ suffix' runs', dynChainParserImpl emptyContent (chainOf (run :: runs)).bits.length
        (chainOf (run :: runs)).refs.length isTop (types pre).reverse (chainOf (run :: runs)) =
      .value (pre, encodeRun suffix' ++ nextRef runs') ∧ Pending l suffix' runs' := by
  induction pre using List.reverseRecOn generalizing l isTop with
  | nil =>
    obtain rfl : l = es := hsplit
    exact ⟨run, runs, by rw [← chainOf_cons]; rfl, h⟩
  | append_singleton pre e ih =>
    have hrev : (types (pre ++ [e])).reverse = e.1 :: (types pre).reverse := by simp
    have hrev' : (e.1 :: (types pre).reverse).reverse = types (pre ++ [e]) := by simp
    rw [hrev, dynChainParserImpl]
    split
    · rename_i hsure
      have hencoded : ∀ e' ∈ run ++ runs.flatten, Encoded e' ∧ TakesBitOrRefs e'.1 :=
        h.flatten.symm ▸ h.encoded
      obtain ⟨hhere, hnext⟩ := List.forall_mem_append.mp hencoded
      -- the prefix lies in the first cell
      obtain ⟨suffix, rfl⟩ : pre ++ [e] <+: run := by
        refine List.prefix_of_prefix_length_le (show pre ++ [e] <+: es from ⟨l, hsplit⟩)
          ⟨_, h.flatten⟩ ?_
        refine length_le_of_checkSureParsable (hsplit.trans h.flatten.symm)
          (fun e' he' => (hhere e' he').1) hnext ?_
        rwa [hrev'] at hsure
      have hl : suffix ++ runs.flatten = l := by
        have hcancel := h.flatten.trans hsplit.symm
        rw [List.append_assoc] at hcancel
        exact List.append_cancel_left hcancel
      refine ⟨suffix, runs, ?_, ⟨hl, ?_, h.nonempty, h.last⟩⟩
      · rw [chainOf_cons, encodeRun_append, Slice.append_assoc]
        exact parseContent_encodeRun emptyContent
          (fun e' he' => (hhere e' (List.mem_append_left _ he')).1) _ hrev'
      · exact fun e' he' => h.encoded e' (hsplit ▸ List.mem_append_right _ he')
    · obtain ⟨suffix, runs', hprev, hpending⟩ := ih (e :: l) (by simpa using hsplit) false
        (by simp)
      obtain ⟨suffix', runs'', helem, hpending'⟩ := parseElem_spec emptyContent hpending htop
      refine ⟨suffix', runs'', ?_, hpending'⟩
      rw [hprev, Read.bind_value, helem]
      rfl

/-- The reader returns the elements that are pending at the beginning of a chain. -/
theorem parseChainDynamic_chainOf {es run : List Elem} {runs : List (List Elem)} (hne : es ≠ [])
    (h : Pending es run runs) :
    parseChainDynamic emptyContent (types es) (chainOf (run :: runs)) = .value es := by
  obtain ⟨suffix, runs', hparse, hdone⟩ := dynChainParserImpl_spec emptyContent h es []
    (List.append_nil _) true (by simp)
  have htypes : types es ≠ [] := fun hnil => hne (List.map_eq_nil_iff.mp hnil)
  obtain ⟨rfl, hflat⟩ := List.append_eq_nil_iff.mp hdone.flatten
  obtain rfl : runs' = [] := by
    cases runs' with
    | nil => rfl
    | cons r runs' =>
      exact absurd (List.append_eq_nil_iff.mp hflat).1 (hdone.nonempty r List.mem_cons_self)
  rw [parseChainDynamic, if_neg htypes, hparse]
  rfl

/-- **Dynamic chain parsing accepts every cut**: however the encoded values are cut into
non-empty runs, the reader returns them, and it never returns a value when something is left in
the cell that it ends in. -/
theorem parseChainDynamic_spec (run : List Elem) (runs : List (List Elem)) (hrun : run ≠ [])
    (hruns : ∀ r ∈ runs, r ≠ [])
    (hbuild : ∀ e ∈ run ++ runs.flatten, Encodable e ∧ ∃ b, build e.1 e.2 .empty = .ok b)
    (htakes : ∀ t ∈ types (run ++ runs.flatten), TakesBitOrRef t)
    (hlast : ∀ e, runs.getLast? = some [e] → ¬ e.1.BareRef) :
    parseChainDynamic emptyContent (types (run ++ runs.flatten)) (chainOf (run :: runs)) =
        .value (run ++ runs.flatten) ∧
      ∀ ts p l, ts ≠ [] → parseChainDynamic emptyContent ts p = .value l →
        ∃ q, dynChainParserImpl emptyContent p.bits.length p.refs.length true ts.reverse p =
          .value (l, q) ∧ q.bits = [] ∧ q.refs = [] := by
  refine ⟨?_, fun ts p l hts h => parseChainDynamic_ends emptyContent hts h⟩
  have htakes' := forall_mem_types.mp htakes
  refine parseChainDynamic_chainOf emptyContent (List.append_ne_nil_of_left_ne_nil hrun _)
    ⟨rfl, fun e he => ⟨(hbuild e he).1.encoded (hbuild e he).2, (htakes' e he).refs⟩, hruns, ?_⟩
  intro e he hone
  have hmem : e ∈ run ++ runs.flatten := List.mem_append_right _
    (List.mem_flatten.mpr ⟨[e], List.mem_of_getLast? he, List.mem_singleton_self e⟩)
  exact hlast e he ((htakes' e hmem).bareRef hone)

end Run

section Example

/-- A number in the first cell, a cell and a flag in the next one. -/
theorem parseChainDynamic_example :
    parseChainDynamic (fun _ => .error .customDataParseError) [.uint 8, .cell, .bool]
        (chainOf [[⟨.uint 8, (7 : ℕ)⟩], [⟨.cell, .mk [true] []⟩, ⟨.bool, true⟩]]) =
        .value [⟨.uint 8, (7 : ℕ)⟩, ⟨.cell, .mk [true] []⟩, ⟨.bool, true⟩] ∧
      ∀ ts p l, ts ≠ [] →
        parseChainDynamic (fun _ => .error .customDataParseError) ts p = .value l →
        ∃ q, dynChainParserImpl (fun _ => .error .customDataParseError) p.bits.length
          p.refs.length true ts.reverse p = .value (l, q) ∧ q.bits = [] ∧ q.refs = [] := by
  refine parseChainDynamic_spec (fun _ => .error .customDataParseError) [⟨.uint 8, (7 : ℕ)⟩]
    [[⟨.cell, .mk [true] []⟩, ⟨.bool, true⟩]] (List.cons_ne_nil _ _)
    (List.forall_mem_singleton.mpr (List.cons_ne_nil _ _)) ?_ ?_ ?_
  · show ∀ e ∈ ([⟨.uint 8, (7 : ℕ)⟩, ⟨.cell, .mk [true] []⟩, ⟨.bool, true⟩] : List Elem), _
    simp only [List.forall_mem_cons]
    exact ⟨⟨⟨trivial, trivial, ⟨by decide, (by decide : 7 < 2 ^ 8)⟩, trivial⟩, _, rfl⟩,
      ⟨⟨trivial, trivial, trivial, trivial⟩, _, rfl⟩,
      ⟨⟨trivial, trivial, trivial, trivial⟩, _, rfl⟩, List.forall_mem_nil _⟩
  · show ∀ t ∈ [Ty.uint 8, .cell, .bool], _
    simp only [List.forall_mem_cons]
    exact ⟨.inl (by decide), .inr trivial, .inl (by decide), List.forall_mem_nil _⟩
  · rintro e ⟨⟩

/-- An alternative that cannot be told apart from an earlier one is not found. -/
theorem parseChainDynamic_ambiguous :
    TakesBitOrRef (.variant [.uint 8, .uint 16]) ∧
      parseChainDynamic (fun _ => .error .customDataParseError) [.variant [.uint 8, .uint 16]]
        (chainOf [[⟨.variant [.uint 8, .uint 16], .inr (.inl (5 : ℕ))⟩]]) =
      .throw (.exception .cellUnderflow) :=
  ⟨.inl (by decide), rfl⟩

end Example

end TVMCompiler.Sdk
