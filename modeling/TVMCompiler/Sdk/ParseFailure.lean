import TVMCompiler.Sdk.ChainDynamic

/-!
# Parsers that end without a value

A parser ends without a value if a constant does not match, or none of the alternatives of a variant
does. The parsers of structs, options and variants hand this on. The parser of a reference does not
test it, but uses the content of the empty optional, and so does the reader of dynamic chains.

## Main definitions

* `Missing`: a constant that the value needs does not match
* `ReadsEmpty`, `ChainReadsEmpty`: the inputs on which the content of an empty optional is read
* `FailsSafely`, `ChainFailsSafely`: it is not read, and no value is returned

## Main results

* `missing_givesNone`: without a constant that it needs, a parser does not return a value
* `missing_of_eq_none`: a parser that ends without a value misses a constant
* `parse_eq_emptyOptional_iff`: the content of an empty optional is read at the end of a cell
* `failsSafely_iff`: the inputs on which parsers fail safely
-/

namespace TVMCompiler.Sdk

open Lib

/-! ## Missing constants -/

/-- The tag does not match, or what is behind it is missing. -/
def MissingTagged (tag : ℕ) (missing : ParseContext → Slice → Prop) (p : Slice) : Prop :=
  (∃ q, parseBitconst 1 tag p = .ok (none, q)) ∨
    ∃ u q, parseBitconst 1 tag p = .ok (some u, q) ∧ missing [⟨.bitconst 1 tag, ()⟩] q

mutual

/-- A constant that the value needs does not match, or each alternative of a variant that it needs
has one. -/
def Missing : Ty → ParseContext → Slice → Prop
  | .bitconst bitlen code, _, p => ∃ q, parseBitconst bitlen code p = .ok (none, q)
  | .ref t, ctx, p => ∃ c q, p.ldref = .ok (c, q) ∧ Missing t ctx c.ctos
  | .optional t, ctx, p => ∃ flag q, p.ldu 1 = .ok (flag, q) ∧ flag ≠ 0 ∧ Missing t ctx q
  | .either l r, _, p => MissingTagged 0 (Missing l) p ∧ MissingTagged 1 (Missing r) p
  | .tuple ts, _, p => MissingSeq false ts [] p
  | .struct ts, _, p => MissingSeq true ts [] p
  | .variant ts, ctx, p => MissingVariant ts ctx p
  | _, _, _ => False

def MissingSeq (isStruct : Bool) : List Ty → ParseContext → Slice → Prop
  | [], _, _ => False
  | t :: ts, ctx, p => Missing t ctx p ∨ ∃ v q, parse t ctx p = .ok (some v, q) ∧
    MissingSeq isStruct ts (if isStruct then ctx ++ [⟨t, v⟩] else ctx) q

def MissingVariant : List Ty → ParseContext → Slice → Prop
  | [], _, _ => True
  | t :: ts, ctx, p => Missing t ctx p ∧ MissingVariant ts ctx p

end

/-- The parser ends without a value, or behind a reference, where it throws or reads the content of
an empty optional. -/
def GivesNone {α : Type} (x : Parsed α) : Prop :=
  (∃ q, x = .ok (none, q)) ∨ x = .error .cellUnderflow ∨ x = .error .emptyOptional

namespace GivesNone

variable {α β : Type} {x : Parsed α}

theorem bind (h : GivesNone x) {f : Option α × Slice → Parsed β}
    (hf : ∀ q, GivesNone (f (none, q))) : GivesNone (x.bind f) := by
  rcases h with ⟨q, rfl⟩ | rfl | rfl
  · exact hf q
  · exact Or.inr (Or.inl rfl)
  · exact Or.inr (Or.inr rfl)

theorem none (q : Slice) : GivesNone (.ok (none, q) : Parsed α) := Or.inl ⟨q, rfl⟩

theorem map (h : GivesNone x) {f : Option α × Slice → Option β × Slice}
    (hf : ∀ q, (f (Option.none, q)).1 = Option.none) : GivesNone (x.map f) := by
  rcases h with ⟨q, rfl⟩ | rfl | rfl
  · exact Or.inl ⟨(f (Option.none, q)).2, congrArg Except.ok (Prod.ext (hf q) rfl)⟩
  · exact Or.inr (Or.inl rfl)
  · exact Or.inr (Or.inr rfl)

theorem ne_some (h : GivesNone x) (v : α) (q : Slice) : x ≠ .ok (some v, q) := by
  rcases h with ⟨q', rfl⟩ | rfl | rfl <;> exact nofun

end GivesNone

theorem missingTagged_givesNone {α : Type} {tag : ℕ} {missing : ParseContext → Slice → Prop}
    {parseVal : ParseContext → Slice → Parsed α} {p : Slice}
    (hval : ∀ q, missing [⟨.bitconst 1 tag, ()⟩] q → GivesNone (parseVal [⟨.bitconst 1 tag, ()⟩] q))
    (h : MissingTagged tag missing p) : GivesNone (parseTagged tag parseVal p) := by
  rcases h with ⟨q, htag⟩ | ⟨u, q, htag, hmissing⟩
  · rw [parseTagged, htag]
    exact .none q
  · rw [parseTagged, htag]
    exact hval q hmissing

mutual

/-- **Without a constant that it needs, a parser does not return a value**, by recursion on the
type. -/
theorem missing_givesNone : ∀ (t : Ty) (ctx : ParseContext) (p : Slice), Missing t ctx p →
    GivesNone (parse t ctx p)
  | .bitconst _ _, _, _, h => Or.inl h
  | .ref t, ctx, p, h => by
    obtain ⟨c, q, href, hmissing⟩ := h
    rw [parse, href]
    refine (missing_givesNone t ctx c.ctos hmissing).bind fun q' => ?_
    -- the test that nothing is left comes before the value is used
    show GivesNone (q'.ends.bind fun _ => .error .emptyOptional)
    unfold Slice.ends
    split
    · exact Or.inr (Or.inr rfl)
    · exact Or.inr (Or.inl rfl)
  | .optional t, ctx, p, h => by
    obtain ⟨flag, q, hflag, hne, hmissing⟩ := h
    rw [parse, hflag, Except.bind, if_pos hne]
    exact (missing_givesNone t ctx q hmissing).map fun q' => rfl
  | .either l r, ctx, p, h => by
    rw [parse]
    refine (missingTagged_givesNone (fun q => missing_givesNone l _ q) h.1).bind fun q => ?_
    exact (missingTagged_givesNone (fun q => missing_givesNone r _ q) h.2).map fun q' => rfl
  | .tuple ts, ctx, p, h => by
    rw [parse]
    exact (missingSeq_givesNone false ts [] p h).map fun q => rfl
  | .struct ts, ctx, p, h => by
    rw [parse]
    exact (missingSeq_givesNone true ts [] p h).map fun q => rfl
  | .variant ts, ctx, p, h => by
    rw [parse]
    exact missingVariant_givesNone ts ctx p h

theorem missingSeq_givesNone (isStruct : Bool) : ∀ (ts : List Ty) (ctx : ParseContext) (p : Slice),
    MissingSeq isStruct ts ctx p → GivesNone (parseSeq isStruct ts ctx p)
  | t :: ts, ctx, p, h => by
    rw [parseSeq]
    rcases h with hhead | ⟨v, q, hhead, htail⟩
    · exact (missing_givesNone t ctx p hhead).bind fun q => .none q
    · rw [hhead]
      exact (missingSeq_givesNone isStruct ts _ q htail).map fun q' => rfl

theorem missingVariant_givesNone : ∀ (ts : List Ty) (ctx : ParseContext) (p : Slice),
    MissingVariant ts ctx p → GivesNone (parseVariant ts ctx p)
  | [], _, p, _ => .none p
  | [t], ctx, p, h => by
    rw [parseVariant]
    exact (missing_givesNone t ctx p h.1).map fun q => rfl
  | t :: t' :: ts, ctx, p, h => by
    rw [parseVariant]
    refine (missing_givesNone t ctx p h.1).bind fun q => ?_
    exact (missingVariant_givesNone (t' :: ts) ctx p h.2).map fun q' => rfl

end

theorem missingTagged_of_eq_none {α : Type} {tag : ℕ} {missing : ParseContext → Slice → Prop}
    {parseVal : ParseContext → Slice → Parsed α} {p q : Slice}
    (hval : ∀ ctx q q', parseVal ctx q = .ok (none, q') → missing ctx q)
    (h : parseTagged tag parseVal p = .ok (none, q)) : MissingTagged tag missing p := by
  obtain ⟨⟨u, q'⟩, htag, hrest⟩ := bind_eq_ok.mp h
  cases u with
  | none => exact Or.inl ⟨q', htag⟩
  | some u => exact Or.inr ⟨u, q', htag, hval _ _ _ hrest⟩

theorem map_restart_eq_none {α : Type} {x : Parsed α} {p q : Slice}
    (h : x.map (restart p) = .ok (none, q)) : q = p ∧ ∃ q', x = .ok (none, q') := by
  obtain ⟨⟨v, q'⟩, hx, hr⟩ := map_eq_ok.mp h
  cases v with
  | none =>
    cases hr
    exact ⟨rfl, q', hx⟩
  | some v => cases hr

theorem always_ne_none {α β : Type} {f : α → β} {load : Except TvmException (α × Slice)}
    {q : Slice} : always f load ≠ .ok (none, q) := by
  intro h
  obtain ⟨r, -, hr⟩ := map_eq_ok.mp h
  cases hr

mutual

/-- A parser that ends without a value misses a constant. -/
theorem missing_of_eq_none : ∀ (t : Ty) (ctx : ParseContext) (p q : Slice),
    parse t ctx p = .ok (none, q) → Missing t ctx p
  | .bitconst _ _, _, _, q, h => ⟨q, h⟩
  | .bitfield _, _, _, _, h => always_ne_none h
  | .bool, _, _, _, h => always_ne_none h
  | .uint _, _, _, _, h => always_ne_none h
  | .int _, _, _, _, h => always_ne_none h
  | .varuint _, _, _, _, h => always_ne_none h
  | .varint _, _, _, _, h => always_ne_none h
  | .dict, _, _, _, h => always_ne_none h
  | .cell, _, _, _, h => always_ne_none h
  | .msgAddress _, _, _, _, h => always_ne_none h
  | .addrStdCompact, _, _, _, h => always_ne_none h
  | .dynamicBitfield _, _, _, _, h =>
    let ⟨_, _, hload⟩ := bind_eq_ok.mp h
    always_ne_none hload
  | .dynamicUint _, _, _, _, h =>
    let ⟨_, _, hload⟩ := bind_eq_ok.mp h
    always_ne_none hload
  | .dynamicInt _, _, _, _, h =>
    let ⟨_, _, hload⟩ := bind_eq_ok.mp h
    always_ne_none hload
  | .ref t, ctx, p, q, h => by
    -- a reference always gives a value, or throws
    obtain ⟨r, -, hr⟩ := bind_eq_ok.mp h
    obtain ⟨⟨v, q'⟩, -, hends⟩ := bind_eq_ok.mp hr
    obtain ⟨u, -, hv⟩ := bind_eq_ok.mp hends
    cases v with
    | none => cases hv
    | some v => cases hv
  | .optional t, ctx, p, q, h => by
    obtain ⟨⟨flag, q'⟩, hflag, hrest⟩ := bind_eq_ok.mp h
    dsimp only at hrest
    split at hrest
    · rename_i hne
      obtain ⟨⟨v, q''⟩, hparse, hv⟩ := map_eq_ok.mp hrest
      cases v with
      | none => exact ⟨flag, q', hflag, hne, missing_of_eq_none t ctx q' q'' hparse⟩
      | some v => cases hv
    · cases hrest
  | .either l r, ctx, p, q, h => by
    obtain ⟨⟨v, q'⟩, hleft, hrest⟩ := bind_eq_ok.mp h
    cases v with
    | none =>
      obtain ⟨⟨w, q''⟩, hright, hw⟩ := map_eq_ok.mp hrest
      cases w with
      | none =>
        exact ⟨missingTagged_of_eq_none (missing_of_eq_none l) hleft,
          missingTagged_of_eq_none (missing_of_eq_none r) hright⟩
      | some w => cases hw
    | some v => cases hrest
  | .tuple ts, _, p, q, h =>
    let ⟨_, q', hseq⟩ := map_restart_eq_none h
    missingSeq_of_eq_none false ts [] p q' hseq
  | .struct ts, _, p, q, h =>
    let ⟨_, q', hseq⟩ := map_restart_eq_none h
    missingSeq_of_eq_none true ts [] p q' hseq
  | .variant ts, ctx, p, q, h => missingVariant_of_eq_none ts ctx p q h

theorem missingSeq_of_eq_none (isStruct : Bool) : ∀ (ts : List Ty) (ctx : ParseContext)
    (p q : Slice), parseSeq isStruct ts ctx p = .ok (none, q) → MissingSeq isStruct ts ctx p
  | t :: ts, ctx, p, q, h => by
    obtain ⟨⟨v, q'⟩, hhead, hrest⟩ := bind_eq_ok.mp h
    cases v with
    | none => exact Or.inl (missing_of_eq_none t ctx p q' hhead)
    | some v =>
      obtain ⟨⟨vs, q''⟩, htail, hvs⟩ := map_eq_ok.mp hrest
      cases vs with
      | none => exact Or.inr ⟨v, q', hhead, missingSeq_of_eq_none isStruct ts _ q' q'' htail⟩
      | some vs => cases hvs

theorem missingVariant_of_eq_none : ∀ (ts : List Ty) (ctx : ParseContext) (p q : Slice),
    parseVariant ts ctx p = .ok (none, q) → MissingVariant ts ctx p
  | [], _, _, _, _ => trivial
  | [t], ctx, p, q, h => by
    obtain ⟨⟨v, q'⟩, hhead, hv⟩ := map_eq_ok.mp h
    cases v with
    | none => exact ⟨missing_of_eq_none t ctx p q' hhead, trivial⟩
    | some v => cases hv
  | t :: t' :: ts, ctx, p, q, h => by
    obtain ⟨⟨v, q'⟩, hhead, hrest⟩ := bind_eq_ok.mp h
    cases v with
    | none =>
      obtain ⟨⟨w, q''⟩, hnext, hw⟩ := map_eq_ok.mp hrest
      cases w with
      | none =>
        exact ⟨missing_of_eq_none t ctx p q' hhead,
          missingVariant_of_eq_none (t' :: ts) ctx p q'' hnext⟩
      | some w => cases hw
    | some v => cases hrest

end

/-! ## The content of empty optionals -/

mutual

/-- The parser comes to a reference to a cell that the parser of the inner type reads to its end
without a value. -/
def ReadsEmpty : Ty → ParseContext → Slice → Prop
  | .ref t, ctx, p => ∃ c q, p.ldref = .ok (c, q) ∧
    (ReadsEmpty t ctx c.ctos ∨ parse t ctx c.ctos = .ok (none, .empty))
  | .optional t, ctx, p => ∃ flag q, p.ldu 1 = .ok (flag, q) ∧ flag ≠ 0 ∧ ReadsEmpty t ctx q
  | .either l r, _, p =>
    (∃ u q, parseBitconst 1 0 p = .ok (some u, q) ∧ ReadsEmpty l [⟨.bitconst 1 0, ()⟩] q) ∨
      (∃ q, parseTagged 0 (parse l) p = .ok (none, q)) ∧
        ∃ u q, parseBitconst 1 1 p = .ok (some u, q) ∧ ReadsEmpty r [⟨.bitconst 1 1, ()⟩] q
  | .tuple ts, _, p => ReadsEmptySeq false ts [] p
  | .struct ts, _, p => ReadsEmptySeq true ts [] p
  | .variant ts, ctx, p => ReadsEmptyVariant ts ctx p
  | _, _, _ => False

def ReadsEmptySeq (isStruct : Bool) : List Ty → ParseContext → Slice → Prop
  | [], _, _ => False
  | t :: ts, ctx, p => ReadsEmpty t ctx p ∨ ∃ v q, parse t ctx p = .ok (some v, q) ∧
    ReadsEmptySeq isStruct ts (if isStruct then ctx ++ [⟨t, v⟩] else ctx) q

def ReadsEmptyVariant : List Ty → ParseContext → Slice → Prop
  | [], _, _ => False
  | t :: ts, ctx, p => ReadsEmpty t ctx p ∨ (∃ q, parse t ctx p = .ok (none, q)) ∧
    ReadsEmptyVariant ts ctx p

end

theorem eq_empty_of_ends {p : Slice} (h : p.ends = .ok ()) : p = .empty := by
  unfold Slice.ends at h
  split at h
  · rename_i hempty
    exact Slice.ext hempty.1 hempty.2
  · cases h

/-- The load does not read the content of an empty optional. -/
def Regular {α : Type} (x : Except TvmException α) : Prop := x ≠ .error .emptyOptional

namespace Regular

variable {α β : Type} {x : Except TvmException α}

theorem bind (h : Regular x) {f : α → Except TvmException β} (hf : ∀ a, Regular (f a)) :
    Regular (x.bind f) := by
  intro hbind
  rcases bind_eq_error.mp hbind with hx | ⟨a, -, ha⟩
  · exact h hx
  · exact hf a ha

theorem map (h : Regular x) (f : α → β) : Regular (x.map f) := fun hmap => h (map_eq_error.mp hmap)

theorem ok (a : α) : Regular (.ok a : Except TvmException α) := nofun

theorem ite {c : Prop} [Decidable c] {y : Except TvmException α} (h : Regular x) (h' : Regular y) :
    Regular (if c then x else y) := by
  split
  · exact h
  · exact h'

variable {p : Slice}

theorem ldslice (len : ℕ) : Regular (p.ldslice len) := ite nofun (ite nofun (ok _))

theorem ldu (len : ℕ) : Regular (p.ldu len) := ite nofun ((ldslice len).map _)

theorem ldi (len : ℕ) : Regular (p.ldi len) := ite nofun ((ldslice len).map _)

theorem ldref : Regular p.ldref := by
  unfold Slice.ldref
  split
  · exact nofun
  · exact ok _

theorem ends : Regular p.ends := ite (ok ()) nofun

theorem lddict : Regular p.lddict := (ldslice 1).bind fun _ => ite (ldref.map _) (ok _)

theorem ldvaruint (lenBits : ℕ) : Regular (p.ldvaruint lenBits) :=
  (ldslice lenBits).bind fun _ => (ldslice _).map _

theorem ldvarint (lenBits : ℕ) : Regular (p.ldvarint lenBits) :=
  (ldslice lenBits).bind fun _ => (ldslice _).map _

theorem ldmsgaddr : Regular p.ldmsgaddr := by
  unfold Slice.ldmsgaddr
  split
  · exact nofun
  · exact ok _

theorem ldaddrStdCompact : Regular p.ldaddrStdCompact := by
  refine ldmsgaddr.bind fun r => ?_
  split
  · exact ok _
  · exact nofun

theorem dynfieldSize (ctx : ParseContext) (field : ℕ) : Regular (Sdk.dynfieldSize ctx field) := by
  unfold Sdk.dynfieldSize
  split
  · exact ok _
  · rename_i f hf
    obtain ⟨t, v⟩ := f
    cases t with
    | uint | varuint | dynamicUint => exact ok _
    | int | varint | dynamicInt =>
      -- a negative length is refused
      dsimp only [fieldSize]
      split
      · exact nofun
      · exact ok _
    | _ => exact nofun

theorem always {load : Except TvmException (α × Slice)} (h : Regular load) (f : α → β) :
    Regular (Sdk.always f load) := h.map _

theorem parseBitconst (bitlen code : ℕ) : Regular (Sdk.parseBitconst bitlen code p) :=
  (ldu bitlen).map _

end Regular

/-- The parser of a tagged value reads what the parser of the value reads. -/
theorem parseTagged_eq_emptyOptional_iff {α : Type} {tag : ℕ}
    {parseVal : ParseContext → Slice → Parsed α} {reads : ParseContext → Slice → Prop}
    (hval : ∀ ctx q, parseVal ctx q = .error .emptyOptional ↔ reads ctx q) (p : Slice) :
    parseTagged tag parseVal p = .error .emptyOptional ↔
      ∃ u q, parseBitconst 1 tag p = .ok (some u, q) ∧ reads [⟨.bitconst 1 tag, ()⟩] q := by
  unfold parseTagged
  rw [bind_eq_error]
  constructor
  · rintro (htag | ⟨⟨u, q⟩, htag, hrest⟩)
    · exact absurd htag (Regular.parseBitconst 1 tag)
    · cases u with
      | none => cases hrest
      | some u => exact ⟨u, q, htag, (hval _ q).mp hrest⟩
  · rintro ⟨u, q, htag, hreads⟩
    exact Or.inr ⟨(some u, q), htag, (hval _ q).mpr hreads⟩

mutual

/-- **The content of an empty optional is read at the end of a cell**: behind a reference to a cell
that the parser of the inner type has read to its end without a value. -/
theorem parse_eq_emptyOptional_iff : ∀ (t : Ty) (ctx : ParseContext) (p : Slice),
    parse t ctx p = .error .emptyOptional ↔ ReadsEmpty t ctx p
  | .bitconst bitlen code, _, _ => iff_of_false (Regular.parseBitconst bitlen code) id
  | .bitfield bitlen, _, _ => iff_of_false ((Regular.ldslice bitlen).always id) id
  | .bool, _, _ => iff_of_false ((Regular.ldu 1).always _) id
  | .uint bitlen, _, _ => iff_of_false ((Regular.ldu bitlen).always id) id
  | .int bitlen, _, _ => iff_of_false ((Regular.ldi bitlen).always id) id
  | .varuint size, _, _ => iff_of_false ((Regular.ldvaruint size.lenBits).always id) id
  | .varint size, _, _ => iff_of_false ((Regular.ldvarint size.lenBits).always id) id
  | .dict, _, _ => iff_of_false (Regular.lddict.always id) id
  | .cell, _, _ => iff_of_false (Regular.ldref.always id) id
  | .msgAddress _, _, _ => iff_of_false (Regular.ldmsgaddr.always id) id
  | .addrStdCompact, _, _ => iff_of_false (Regular.ldaddrStdCompact.always id) id
  | .dynamicBitfield field, ctx, _ =>
    iff_of_false ((Regular.dynfieldSize ctx field).bind fun len => (Regular.ldslice len).always _) id
  | .dynamicUint field, ctx, _ =>
    iff_of_false ((Regular.dynfieldSize ctx field).bind fun len => (Regular.ldu len).always _) id
  | .dynamicInt field, ctx, _ =>
    iff_of_false ((Regular.dynfieldSize ctx field).bind fun len => (Regular.ldi len).always _) id
  | .ref t, ctx, p => by
    rw [parse, bind_eq_error]
    constructor
    · rintro (href | ⟨⟨c, q⟩, href, hrest⟩)
      · exact absurd href Regular.ldref
      · refine ⟨c, q, href, ?_⟩
        rcases bind_eq_error.mp hrest with hinner | ⟨⟨v, q'⟩, hinner, hends⟩
        · exact Or.inl ((parse_eq_emptyOptional_iff t ctx c.ctos).mp hinner)
        · -- the cell has been read to its end
          rcases bind_eq_error.mp hends with hthrow | ⟨u, hends', hv⟩
          · exact absurd hthrow Regular.ends
          · have hempty : q' = .empty := eq_empty_of_ends hends'
            cases v with
            | none => exact Or.inr (hempty ▸ hinner)
            | some v => cases hv
    · rintro ⟨c, q, href, hreads | hnone⟩
      · refine Or.inr ⟨(c, q), href, bind_eq_error.mpr (Or.inl ?_)⟩
        exact (parse_eq_emptyOptional_iff t ctx c.ctos).mpr hreads
      · exact Or.inr ⟨(c, q), href, bind_eq_error.mpr (Or.inr ⟨_, hnone, rfl⟩)⟩
  | .optional t, ctx, p => by
    rw [parse, bind_eq_error]
    constructor
    · rintro (hflag | ⟨⟨flag, q⟩, hflag, hrest⟩)
      · exact absurd hflag (Regular.ldu 1)
      · dsimp only at hrest
        split at hrest
        · rename_i hne
          exact ⟨flag, q, hflag, hne, (parse_eq_emptyOptional_iff t ctx q).mp (map_eq_error.mp hrest)⟩
        · cases hrest
    · rintro ⟨flag, q, hflag, hne, hreads⟩
      refine Or.inr ⟨(flag, q), hflag, ?_⟩
      dsimp only
      rw [if_pos hne, map_eq_error]
      exact (parse_eq_emptyOptional_iff t ctx q).mpr hreads
  | .either l r, ctx, p => by
    have hleft : parseTagged 0 (parse l) p = .error .emptyOptional ↔ _ :=
      parseTagged_eq_emptyOptional_iff (parse_eq_emptyOptional_iff l) p
    have hright : parseTagged 1 (parse r) p = .error .emptyOptional ↔ _ :=
      parseTagged_eq_emptyOptional_iff (parse_eq_emptyOptional_iff r) p
    rw [parse, bind_eq_error, hleft]
    refine or_congr_right ?_
    constructor
    · rintro ⟨⟨v, q⟩, hnone, hrest⟩
      cases v with
      | none => exact ⟨⟨q, hnone⟩, hright.mp (map_eq_error.mp hrest)⟩
      | some v => cases hrest
    · rintro ⟨⟨q, hnone⟩, hreads⟩
      exact ⟨(none, q), hnone, map_eq_error.mpr (hright.mpr hreads)⟩
  | .tuple ts, _, p => map_eq_error.trans (parseSeq_eq_emptyOptional_iff false ts [] p)
  | .struct ts, _, p => map_eq_error.trans (parseSeq_eq_emptyOptional_iff true ts [] p)
  | .variant ts, ctx, p => by
    rw [parse]
    exact parseVariant_eq_emptyOptional_iff ts ctx p

theorem parseSeq_eq_emptyOptional_iff (isStruct : Bool) : ∀ (ts : List Ty) (ctx : ParseContext)
    (p : Slice), parseSeq isStruct ts ctx p = .error .emptyOptional ↔
      ReadsEmptySeq isStruct ts ctx p
  | [], _, _ => iff_of_false nofun id
  | t :: ts, ctx, p => by
    rw [parseSeq, bind_eq_error]
    refine or_congr (parse_eq_emptyOptional_iff t ctx p) ?_
    constructor
    · rintro ⟨⟨v, q⟩, hhead, hrest⟩
      cases v with
      | none => cases hrest
      | some v =>
        exact ⟨v, q, hhead, (parseSeq_eq_emptyOptional_iff isStruct ts _ q).mp
          (map_eq_error.mp hrest)⟩
    · rintro ⟨v, q, hhead, hreads⟩
      exact ⟨(some v, q), hhead, map_eq_error.mpr
        ((parseSeq_eq_emptyOptional_iff isStruct ts _ q).mpr hreads)⟩

theorem parseVariant_eq_emptyOptional_iff : ∀ (ts : List Ty) (ctx : ParseContext) (p : Slice),
    parseVariant ts ctx p = .error .emptyOptional ↔ ReadsEmptyVariant ts ctx p
  | [], _, _ => iff_of_false nofun id
  | [t], ctx, p => by
    rw [parseVariant, map_eq_error, parse_eq_emptyOptional_iff t ctx p]
    exact ⟨Or.inl, fun h => h.resolve_right fun hnext => hnext.2⟩
  | t :: t' :: ts, ctx, p => by
    rw [parseVariant, bind_eq_error]
    refine or_congr (parse_eq_emptyOptional_iff t ctx p) ?_
    constructor
    · rintro ⟨⟨v, q⟩, hhead, hrest⟩
      cases v with
      | none =>
        exact ⟨⟨q, hhead⟩, (parseVariant_eq_emptyOptional_iff (t' :: ts) ctx p).mp
          (map_eq_error.mp hrest)⟩
      | some v => cases hrest
    · rintro ⟨⟨q, hhead⟩, hreads⟩
      exact ⟨(none, q), hhead, map_eq_error.mpr
        ((parseVariant_eq_emptyOptional_iff (t' :: ts) ctx p).mpr hreads)⟩

end

/-! ## The reader of dynamic chains -/

/-- The content of the result of the parser is used although there is none. -/
def NoContent (t : Ty) (p : Slice) : Prop := ReadsEmpty t [] p ∨ ∃ q, parse t [] p = .ok (none, q)

/-- The reader, with the content of an empty optional as an outcome of its own. -/
def emptyContent (t : Ty) : Except ParseError t.Val := .error (.exception .emptyOptional)

/-- Where an element is looked for. -/
def elemStart (isTop : Bool) (t : Ty) (p : Slice) : Read Slice :=
  if checkSureUnparsable isTop (estimate [] t) p.bits.length p.refs.length then nextCell p
  else .value p

/-- The reader comes to a prefix or an element that there is no value of. -/
def ChainReadsEmpty (bits refs : ℕ) : Bool → List Ty → Slice → Prop
  | _, [], _ => False
  | isTop, last :: prev, p =>
    if checkSureParsable (estimate [] (.tuple (last :: prev).reverse)) bits refs then
      NoContent (.tuple (last :: prev).reverse) p
    else
      ChainReadsEmpty bits refs false prev p ∨
        ∃ l q, dynChainParserImpl emptyContent bits refs false prev p = .value (l, q) ∧
          ∃ q', elemStart isTop last q = .value q' ∧ NoContent last q'

/-- The content of an empty optional has been read. -/
abbrev emptyRead {α : Type} : Read α := .throw (.exception .emptyOptional)

theorem Read.bind_eq_emptyRead {α β : Type} {x : Read α} {f : α → Read β} :
    x.bind f = emptyRead ↔ x = emptyRead ∨ ∃ a, x = .value a ∧ f a = emptyRead := by
  rcases x with _ | e | a
  · exact iff_of_false nofun (not_or.mpr ⟨nofun, fun ⟨a, h, _⟩ => nomatch h⟩)
  · exact ⟨fun h => Or.inl (by cases h; rfl),
      fun h => h.elim (fun h => by cases h; rfl) fun ⟨a, ha, _⟩ => nomatch ha⟩
  · exact ⟨fun h => Or.inr ⟨a, rfl, h⟩, fun h => h.elim nofun fun ⟨b, hb, hf⟩ => by
      cases hb
      exact hf⟩

theorem Read.map_eq_emptyRead {α β : Type} {x : Read α} {f : α → β} :
    x.map f = emptyRead ↔ x = emptyRead := by
  rcases x with _ | e | a
  · exact iff_of_false nofun nofun
  · exact ⟨fun h => by cases h; rfl, fun h => by cases h; rfl⟩
  · exact iff_of_false nofun nofun

theorem Read.ofLoad_eq_emptyRead {α : Type} {x : Except TvmException α} :
    Read.ofLoad x = emptyRead ↔ x = .error .emptyOptional := by
  cases x with
  | error e => exact ⟨fun h => by cases h; rfl, fun h => by cases h; rfl⟩
  | ok a => exact iff_of_false nofun nofun

theorem parseContent_eq_emptyRead_iff (t : Ty) (p : Slice) :
    parseContent emptyContent t p = emptyRead ↔ NoContent t p := by
  rw [parseContent, Read.bind_eq_emptyRead, Read.ofLoad_eq_emptyRead,
    parse_eq_emptyOptional_iff t [] p]
  refine or_congr_right ?_
  constructor
  · rintro ⟨⟨v, q⟩, hparse, hcontent⟩
    cases v with
    | none =>
      cases hx : parse t [] p with
      | error e => rw [hx] at hparse; cases hparse
      | ok r =>
        rw [hx] at hparse
        cases hparse
        exact ⟨q, rfl⟩
    | some v => cases hcontent
  · rintro ⟨q, hparse⟩
    exact ⟨(none, q), by rw [hparse]; rfl, rfl⟩

theorem elemStart_ne_emptyRead (isTop : Bool) (t : Ty) (p : Slice) :
    elemStart isTop t p ≠ emptyRead := by
  unfold elemStart
  split
  · unfold nextCell
    split
    · exact nofun
    · split
      · exact nofun
      · rw [ne_eq, Read.map_eq_emptyRead, Read.ofLoad_eq_emptyRead]
        exact Regular.ldref
  · exact nofun

theorem parseElem_eq_emptyRead_iff (isTop : Bool) (t : Ty) (p : Slice) :
    parseElem emptyContent isTop t p = emptyRead ↔
      ∃ q, elemStart isTop t p = .value q ∧ NoContent t q := by
  show (elemStart isTop t p).bind _ = emptyRead ↔ _
  rw [Read.bind_eq_emptyRead, or_iff_right (elemStart_ne_emptyRead isTop t p)]
  refine exists_congr fun q => and_congr_right fun _ => ?_
  rw [Read.map_eq_emptyRead]
  exact parseContent_eq_emptyRead_iff t q

/-- By induction on the list of types, which the reader goes through from its end. -/
theorem dynChainParserImpl_eq_emptyRead_iff (bits refs : ℕ) (isTop : Bool) (ts : List Ty)
    (p : Slice) : dynChainParserImpl emptyContent bits refs isTop ts p = emptyRead ↔
      ChainReadsEmpty bits refs isTop ts p := by
  induction ts generalizing isTop with
  | nil => exact iff_of_false nofun id
  | cons last prev ih =>
    rw [dynChainParserImpl, ChainReadsEmpty]
    split
    · rw [Read.map_eq_emptyRead]
      exact parseContent_eq_emptyRead_iff _ p
    · rw [Read.bind_eq_emptyRead]
      refine or_congr (ih false) ?_
      constructor
      · rintro ⟨⟨l, q⟩, hprev, hlast⟩
        exact ⟨l, q, hprev, (parseElem_eq_emptyRead_iff isTop last q).mp
          (Read.map_eq_emptyRead.mp hlast)⟩
      · rintro ⟨l, q, hprev, hlast⟩
        exact ⟨(l, q), hprev, Read.map_eq_emptyRead.mpr
          ((parseElem_eq_emptyRead_iff isTop last q).mpr hlast)⟩

theorem parseChainDynamic_eq_emptyRead_iff (ts : List Ty) (p : Slice) :
    parseChainDynamic emptyContent ts p = emptyRead ↔
      ChainReadsEmpty p.bits.length p.refs.length true ts.reverse p := by
  rw [parseChainDynamic]
  split
  · rename_i hnil
    subst hnil
    refine iff_of_false (fun h => ?_) id
    cases h
  · rw [Read.bind_eq_emptyRead, dynChainParserImpl_eq_emptyRead_iff]
    refine or_iff_left ?_
    rintro ⟨r, -, hends⟩
    rw [Read.map_eq_emptyRead, Read.ofLoad_eq_emptyRead] at hends
    exact Regular.ends hends

/-! ## Safe failures -/

/-- The content of an empty optional is not read, and no value is returned without a constant that
it needs. -/
structure FailsSafely (t : Ty) (p : Slice) : Prop where
  notRead : parse t [] p ≠ .error .emptyOptional
  noValue : Missing t [] p → ∀ v q, parse t [] p ≠ .ok (some v, q)

/-- The content of an empty optional is not read, so that no value is made from it. -/
def ChainFailsSafely (ts : List Ty) (p : Slice) : Prop :=
  parseChainDynamic emptyContent ts p ≠ emptyRead

/-- **Parsers fail safely where they do not come to a reference to a cell that is read to its end
without a value**, and the reader of dynamic chains where it comes to no element without a value. -/
theorem failsSafely_iff (t : Ty) (ts : List Ty) (p : Slice) :
    (FailsSafely t p ↔ ¬ ReadsEmpty t [] p) ∧
      (ChainFailsSafely ts p ↔
        ¬ ChainReadsEmpty p.bits.length p.refs.length true ts.reverse p) := by
  refine ⟨?_, not_congr (parseChainDynamic_eq_emptyRead_iff ts p)⟩
  have hread := parse_eq_emptyOptional_iff t [] p
  constructor
  · intro h hempty
    exact h.notRead (hread.mpr hempty)
  · intro h
    -- what is not read is not made a value of either
    have hnone := missing_givesNone t [] p
    exact ⟨fun hparse => h (hread.mp hparse), fun hmissing => (hnone hmissing).ne_some⟩

/-- A tag that does not match, behind a reference and as an element of a chain. -/
theorem not_failsSafely_mismatch :
    ¬ FailsSafely (.ref (.bitconst 8 1)) ⟨[], [.mk (natBits 8 2) []]⟩ ∧
      ¬ ChainFailsSafely [.bitconst 8 1] ⟨natBits 8 2, []⟩ :=
  ⟨fun h => h.notRead rfl, fun h => h rfl⟩

end TVMCompiler.Sdk
