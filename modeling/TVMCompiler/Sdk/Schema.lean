import TVMCompiler.Sdk.Cell

/-!
# Schema types

A schema type describes how a value is laid out in a cell. `build` stores a value and `parse`
loads it again; both follow the type. A failed load throws, and a constant that does not match or
a variant without a matching alternative gives no value.

## Main definitions

* `Ty`, `Ty.Val`: the schema types and their values
* `build`, `parse`: the builder and the parser of a type
* `Fits`: fields have the length that their type or their length field states
* `Ty.WellFormed`: the alternatives of each variant can be told apart by their constants

## Main results

* `parse_mismatch`: a type whose leading constant does not match gives no value
* `build_roundTrips`: parsing undoes building, for every type
* `parse_build`: the value is found in front of any other content
-/

namespace TVMCompiler.Sdk

open Lib

/-- The two sizes of numbers with a length prefix. -/
inductive VarSize where
  | var16
  | var32
  deriving DecidableEq, Repr

def VarSize.lenBits : VarSize → ℕ
  | .var16 => 4
  | .var32 => 5

/-- The addresses that a type admits: `MsgAddressExt`, `MsgAddressInt` or both. -/
inductive AddressKind where
  | ext
  | int
  | any
  deriving DecidableEq, Repr

/-- The kinds begin with a different bit. -/
def AddressKind.Admits : AddressKind → List Bool → Prop
  | .ext, bs => bs.head? = some false
  | .int, bs => bs.head? = some true
  | .any, _ => True

/-- The schema types. `dict` stands for `HashmapE` and `anydict`; a dynamic field is given by the
index of its length field in the struct. `msgAddress` stands for `MsgAddressSlice` and the `lazy`
addresses, which are kept as bits. -/
inductive Ty where
  | bitconst (bitlen code : ℕ)
  | bitfield (bitlen : ℕ)
  | bool
  | uint (bitlen : ℕ)
  | int (bitlen : ℕ)
  | varuint (size : VarSize)
  | varint (size : VarSize)
  | dict
  | cell
  | msgAddress (kind : AddressKind)
  | addrStdCompact
  | ref (t : Ty)
  | optional (t : Ty)
  | either (left right : Ty)
  | tuple (ts : List Ty)
  | struct (ts : List Ty)
  | dynamicBitfield (field : ℕ)
  | dynamicUint (field : ℕ)
  | dynamicInt (field : ℕ)
  | variant (ts : List Ty)

mutual

/-- The values of a type. A dynamic field holds its length as well. -/
def Ty.Val : Ty → Type
  | .bitconst _ _ => Unit
  | .bitfield _ => List Bool
  | .bool => Bool
  | .uint _ => ℕ
  | .int _ => ℤ
  | .varuint _ => ℕ
  | .varint _ => ℤ
  | .dict => Option Cell
  | .cell => Cell
  | .msgAddress _ => List Bool
  | .addrStdCompact => ℤ × ℕ
  | .ref t => t.Val
  | .optional t => Option t.Val
  | .either l r => l.Val ⊕ r.Val
  | .tuple ts => SeqVal ts
  | .struct ts => SeqVal ts
  | .dynamicBitfield _ => List Bool × ℕ
  | .dynamicUint _ => ℕ × ℕ
  | .dynamicInt _ => ℤ × ℕ
  | .variant ts => VariantVal ts

def SeqVal : List Ty → Type
  | [] => Unit
  | t :: ts => t.Val × SeqVal ts

def VariantVal : List Ty → Type
  | [] => Empty
  | t :: ts => t.Val ⊕ VariantVal ts

end

/-! ## Building -/

mutual

/-- `make_builder_impl::build`. -/
def build : (t : Ty) → t.Val → Builder → Except TvmException Builder
  | .bitconst bitlen code, _, b => b.stu code bitlen
  | .bitfield _, bs, b => b.stslice bs
  | .bool, v, b => b.stu (Bool.toNat v) 1
  | .uint bitlen, n, b => b.stu n bitlen
  | .int bitlen, z, b => b.sti z bitlen
  | .varuint size, n, b => b.stvaruint size.lenBits n
  | .varint size, z, b => b.stvarint size.lenBits z
  | .dict, d, b => b.stdict d
  | .cell, c, b => b.stref c
  | .msgAddress _, bs, b => b.stslice bs
  | .addrStdCompact, v, b => b.staddrStdCompact v
  | .ref t, v, b => (build t v .empty).bind fun inner => b.stref inner.endc
  | .optional _, none, b => b.stu 0 1
  | .optional t, some v, b => (b.stu 1 1).bind (build t v)
  | .either l _, .inl v, b => (b.stu 0 1).bind (build l v)
  | .either _ r, .inr v, b => (b.stu 1 1).bind (build r v)
  | .tuple ts, vs, b => buildSeq ts vs b
  | .struct ts, vs, b => buildSeq ts vs b
  | .dynamicBitfield _, v, b => b.stslice v.1
  | .dynamicUint _, v, b => b.stu v.1 v.2
  | .dynamicInt _, v, b => b.sti v.1 v.2
  | .variant ts, v, b => buildVariant ts v b

/-- `sequence_builder`. -/
def buildSeq : (ts : List Ty) → SeqVal ts → Builder → Except TvmException Builder
  | [], _, b => .ok b
  | t :: ts, (v, vs), b => (build t v b).bind (buildSeq ts vs)

/-- `builder_visitor`. -/
def buildVariant : (ts : List Ty) → VariantVal ts → Builder → Except TvmException Builder
  | [], v, _ => nomatch v
  | t :: _, .inl v, b => build t v b
  | _ :: ts, .inr v, b => buildVariant ts v b

end

/-! ## Parsing -/

/-- The fields of the struct that have been parsed so far. -/
abbrev ParseContext := List (Σ t : Ty, t.Val)

/-- The length that a field states. A negative one cannot be loaded. -/
def fieldSize : (t : Ty) → t.Val → Except TvmException ℕ
  | .uint _, (n : ℕ) => .ok n
  | .varuint _, (n : ℕ) => .ok n
  | .dynamicUint _, (v : ℕ × ℕ) => .ok v.1
  | .int _, (z : ℤ) => if z < 0 then .error .rangeCheck else .ok z.toNat
  | .varint _, (z : ℤ) => if z < 0 then .error .rangeCheck else .ok z.toNat
  | .dynamicInt _, (v : ℤ × ℕ) => if v.1 < 0 then .error .rangeCheck else .ok v.1.toNat
  | _, _ => .error .rangeCheck

/-- `get_dynfield_size`. A field that has not been parsed yet is zero. -/
def dynfieldSize (ctx : ParseContext) (field : ℕ) : Except TvmException ℕ :=
  match ctx[field]? with
  | none => .ok 0
  | some f => fieldSize f.1 f.2

abbrev Parsed (α : Type) := Except TvmException (Option α × Slice)

/-- A parser that always gives a value. -/
def always {α β : Type} (f : α → β) (load : Except TvmException (α × Slice)) : Parsed β :=
  load.map fun r => (some (f r.1), r.2)

/-- The parser of a constant. -/
def parseBitconst (bitlen code : ℕ) (p : Slice) : Parsed Unit :=
  (p.ldu bitlen).map fun r => (if r.1 = code then some () else none, r.2)

/-- The parser of a struct of a one-bit tag and a value, from the parser of the value. -/
def parseTagged {α : Type} (tag : ℕ) (parseVal : ParseContext → Slice → Parsed α) (p : Slice) :
    Parsed α :=
  (parseBitconst 1 tag p).bind fun r => match r.1 with
    | some _ => parseVal [⟨.bitconst 1 tag, ()⟩] r.2
    | none => .ok (none, r.2)

/-- The result of `parse_from_struct`: without a value, the position is the one at the start. -/
def restart {α : Type} (p : Slice) : Option α × Slice → Option α × Slice
  | (some v, q) => (some v, q)
  | (none, _) => (none, p)

mutual

/-- `make_parser_impl::parse`. Nested structs and tuples start a context of their own. The value
behind a reference is used without a test whether there is one. -/
def parse : (t : Ty) → ParseContext → Slice → Parsed t.Val
  | .bitconst bitlen code, _, p => parseBitconst bitlen code p
  | .bitfield bitlen, _, p => always id (p.ldslice bitlen)
  | .bool, _, p => always (fun n => decide (n ≠ 0)) (p.ldu 1)
  | .uint bitlen, _, p => always id (p.ldu bitlen)
  | .int bitlen, _, p => always id (p.ldi bitlen)
  | .varuint size, _, p => always id (p.ldvaruint size.lenBits)
  | .varint size, _, p => always id (p.ldvarint size.lenBits)
  | .dict, _, p => always id p.lddict
  | .cell, _, p => always id p.ldref
  | .msgAddress _, _, p => always id p.ldmsgaddr
  | .addrStdCompact, _, p => always id p.ldaddrStdCompact
  | .ref t, ctx, p =>
    p.ldref.bind fun r => (parse t ctx r.1.ctos).bind fun inner =>
      inner.2.ends.bind fun _ => match inner.1 with
        | some v => .ok (some v, r.2)
        | none => .error .emptyOptional
  | .optional t, ctx, p =>
    (p.ldu 1).bind fun r =>
      if r.1 ≠ 0 then
        (parse t ctx r.2).map fun s => match s.1 with
          | some v => (some (some v), s.2)
          | none => (none, r.2)
      else .ok (some none, r.2)
  | .either l r, _, p =>
    -- the structs `EitherLeft` and `EitherRight`, as alternatives of a variant
    (parseTagged 0 (parse l) p).bind fun s => match s.1 with
      | some v => .ok (some (.inl v), s.2)
      | none => (parseTagged 1 (parse r) p).map fun s => match s.1 with
        | some v => (some (.inr v), s.2)
        | none => (none, p)
  | .tuple ts, _, p => (parseSeq false ts [] p).map (restart p)
  | .struct ts, _, p => (parseSeq true ts [] p).map (restart p)
  | .dynamicBitfield field, ctx, p =>
    (dynfieldSize ctx field).bind fun bitlen => always (·, bitlen) (p.ldslice bitlen)
  | .dynamicUint field, ctx, p =>
    (dynfieldSize ctx field).bind fun bitlen => always (·, bitlen) (p.ldu bitlen)
  | .dynamicInt field, ctx, p =>
    (dynfieldSize ctx field).bind fun bitlen => always (·, bitlen) (p.ldi bitlen)
  | .variant ts, ctx, p => parseVariant ts ctx p

/-- `sequence_parser`. Only the fields of a struct can be referred to by later fields. -/
def parseSeq (isStruct : Bool) : (ts : List Ty) → ParseContext → Slice → Parsed (SeqVal ts)
  | [], _, p => .ok (some (), p)
  | t :: ts, ctx, p => (parse t ctx p).bind fun r => match r.1 with
    | some v => (parseSeq isStruct ts (if isStruct then ctx ++ [⟨t, v⟩] else ctx) r.2).map
        fun s => (s.1.map (v, ·), s.2)
    | none => .ok (none, r.2)

/-- `variant_parser`: the alternatives are tried one after another from the same position. -/
def parseVariant : (ts : List Ty) → ParseContext → Slice → Parsed (VariantVal ts)
  | [], _, p => .ok (none, p)
  | [t], ctx, p => (parse t ctx p).map fun r => (r.1.map .inl, r.2)
  | t :: t' :: ts, ctx, p => (parse t ctx p).bind fun r => match r.1 with
    | some v => .ok (some (.inl v), r.2)
    | none => (parseVariant (t' :: ts) ctx p).map fun s => (s.1.map .inr, s.2)

end

/-! ## Well-formed types and values -/

/-- The constant that every value of the type begins with. -/
def Ty.leading : Ty → Option (ℕ × ℕ)
  | .bitconst bitlen code => some (bitlen, code)
  | .tuple (t :: _) => t.leading
  | .struct (t :: _) => t.leading
  | _ => none

/-- The types begin with constants in order of non-decreasing length, none of which is a prefix
of a later one. -/
def Distinguishable (ts : List Ty) : Prop :=
  ts.Pairwise fun t t' => ∃ c c', t.leading = some c ∧ t'.leading = some c' ∧ c.1 ≤ c'.1 ∧
    ¬ natBits c.1 c.2 <+: natBits c'.1 c'.2

mutual

/-- The alternatives of each variant can be told apart. -/
def Ty.WellFormed : Ty → Prop
  | .ref t => t.WellFormed
  | .optional t => t.WellFormed
  | .either l r => l.WellFormed ∧ r.WellFormed
  | .tuple ts => WellFormedSeq ts
  | .struct ts => WellFormedSeq ts
  | .variant ts => WellFormedSeq ts ∧ Distinguishable ts
  | _ => True

def WellFormedSeq : List Ty → Prop
  | [] => True
  | t :: ts => t.WellFormed ∧ WellFormedSeq ts

end

mutual

/-- A bit field has its length, an address is one, and a dynamic field holds the length that its
length field states. That numbers fit is checked when they are stored. -/
def Fits : (t : Ty) → ParseContext → t.Val → Prop
  | .bitfield bitlen, _, (bs : List Bool) => bs.length = bitlen
  | .msgAddress _, _, (bs : List Bool) => IsMsgAddress bs
  | .ref t, ctx, v => Fits t ctx v
  | .optional _, _, none => True
  | .optional t, ctx, some v => Fits t ctx v
  | .either l _, _, .inl v => Fits l [⟨.bitconst 1 0, ()⟩] v
  | .either _ r, _, .inr v => Fits r [⟨.bitconst 1 1, ()⟩] v
  | .tuple ts, _, vs => FitsSeq false ts [] vs
  | .struct ts, _, vs => FitsSeq true ts [] vs
  | .dynamicBitfield field, ctx, (v : List Bool × ℕ) =>
    dynfieldSize ctx field = .ok v.2 ∧ v.1.length = v.2
  | .dynamicUint field, ctx, (v : ℕ × ℕ) => dynfieldSize ctx field = .ok v.2
  | .dynamicInt field, ctx, (v : ℤ × ℕ) => dynfieldSize ctx field = .ok v.2
  | .variant ts, ctx, v => FitsVariant ts ctx v
  | _, _, _ => True

def FitsSeq (isStruct : Bool) : (ts : List Ty) → ParseContext → SeqVal ts → Prop
  | [], _, _ => True
  | t :: ts, ctx, (v, vs) =>
    Fits t ctx v ∧ FitsSeq isStruct ts (if isStruct then ctx ++ [⟨t, v⟩] else ctx) vs

def FitsVariant : (ts : List Ty) → ParseContext → VariantVal ts → Prop
  | [], _, v => nomatch v
  | t :: _, ctx, .inl v => Fits t ctx v
  | _ :: ts, ctx, .inr v => FitsVariant ts ctx v

end

/-! ## Constants -/

theorem parseBitconst_eq_some {bitlen code : ℕ} {p p' : Slice} {u : Unit}
    (h : parseBitconst bitlen code p = .ok (some u, p')) :
    bitlen ≤ 256 ∧ bitlen ≤ p.bits.length ∧ p.bits.take bitlen = natBits bitlen code := by
  obtain ⟨⟨n, q⟩, hld, hr⟩ := map_eq_ok.mp h
  obtain ⟨hmax, hlen, rfl⟩ := ldu_eq_ok hld
  refine ⟨hmax, hlen, ?_⟩
  dsimp only at hr
  split at hr
  · rename_i hcode
    have hbits := natBits_natOfBits (p.bits.take bitlen)
    rwa [List.length_take, Nat.min_eq_left hlen, hcode, eq_comm] at hbits
  · cases hr

theorem parseBitconst_eq_none {bitlen code : ℕ} {p : Slice} (hmax : bitlen ≤ 256)
    (hlen : bitlen ≤ p.bits.length) (hne : p.bits.take bitlen ≠ natBits bitlen code) :
    ∃ p', parseBitconst bitlen code p = .ok (none, p') := by
  obtain ⟨p', hld⟩ := exists_ldu_eq_ok hmax hlen
  refine ⟨p', ?_⟩
  rw [parseBitconst, hld, Except.map, if_neg]
  rintro rfl
  have hbits := natBits_natOfBits (p.bits.take bitlen)
  rw [List.length_take, Nat.min_eq_left hlen] at hbits
  exact hne hbits.symm

/-- A struct is parsed if its fields are. -/
theorem map_restart_eq_some {α : Type} {x : Parsed α} {p p' : Slice} {v : α} :
    x.map (restart p) = .ok (some v, p') ↔ x = .ok (some v, p') := by
  rcases x with e | ⟨_ | w, q⟩
  · exact iff_of_false nofun nofun
  · exact iff_of_false nofun nofun
  · exact Iff.rfl

/-- Content that is parsed begins with the leading constant of the type. -/
theorem parse_leading : ∀ (t : Ty) (ctx : ParseContext) {p p' : Slice} {v : t.Val} {c : ℕ × ℕ},
    t.leading = some c → parse t ctx p = .ok (some v, p') →
    c.1 ≤ 256 ∧ c.1 ≤ p.bits.length ∧ p.bits.take c.1 = natBits c.1 c.2
  | .bitconst bitlen code, _, p, p', v, c, hlead, h => by
    cases hlead
    exact parseBitconst_eq_some h
  | .tuple (t :: ts), _, p, p', v, c, hlead, h => by
    obtain ⟨⟨v₁, q⟩, hhead, hrest⟩ := bind_eq_ok.mp (map_restart_eq_some.mp h)
    cases v₁ with
    | none => cases hrest
    | some v₁ => exact parse_leading t [] hlead hhead
  | .struct (t :: ts), _, p, p', v, c, hlead, h => by
    obtain ⟨⟨v₁, q⟩, hhead, hrest⟩ := bind_eq_ok.mp (map_restart_eq_some.mp h)
    cases v₁ with
    | none => cases hrest
    | some v₁ => exact parse_leading t [] hlead hhead

/-- A type gives no value on content that is long enough for its leading constant but does not
begin with it. -/
theorem parse_mismatch : ∀ (t : Ty) (ctx : ParseContext) {p : Slice} {c : ℕ × ℕ},
    t.leading = some c → c.1 ≤ 256 → c.1 ≤ p.bits.length →
    p.bits.take c.1 ≠ natBits c.1 c.2 → ∃ p', parse t ctx p = .ok (none, p')
  | .bitconst bitlen code, _, p, c, hlead, hmax, hlen, hne => by
    cases hlead
    exact parseBitconst_eq_none hmax hlen hne
  | .tuple (t :: ts), _, p, c, hlead, hmax, hlen, hne => by
    obtain ⟨p', h⟩ := parse_mismatch t [] hlead hmax hlen hne
    exact ⟨p, by rw [parse, parseSeq, h]; rfl⟩
  | .struct (t :: ts), _, p, c, hlead, hmax, hlen, hne => by
    obtain ⟨p', h⟩ := parse_mismatch t [] hlead hmax hlen hne
    exact ⟨p, by rw [parse, parseSeq, h]; rfl⟩

/-- A variant gives a value of one of its alternatives. -/
theorem parseVariant_eq_some : ∀ (ts : List Ty) (ctx : ParseContext) {p p' : Slice}
    {v : VariantVal ts}, parseVariant ts ctx p = .ok (some v, p') →
    ∃ t ∈ ts, ∃ (w : t.Val) (q : Slice), parse t ctx p = .ok (some w, q)
  | [], _, p, p', v, h => nomatch v
  | [t], ctx, p, p', v, h => by
    obtain ⟨⟨w, q⟩, ht, hr⟩ := map_eq_ok.mp h
    cases w with
    | none => cases hr
    | some w => exact ⟨t, by simp, w, q, ht⟩
  | t :: t' :: ts, ctx, p, p', v, h => by
    obtain ⟨⟨w, q⟩, ht, hr⟩ := bind_eq_ok.mp h
    cases w with
    | some w => exact ⟨t, by simp, w, q, ht⟩
    | none =>
      obtain ⟨⟨u, q'⟩, hrest, hu⟩ := map_eq_ok.mp hr
      cases u with
      | none => cases hu
      | some u =>
        obtain ⟨t'', hmem, hparse⟩ := parseVariant_eq_some (t' :: ts) ctx hrest
        exact ⟨t'', List.mem_cons_of_mem _ hmem, hparse⟩

/-- The next alternative is tried from the unchanged position. -/
theorem parseVariant_next {t t' : Ty} {ts : List Ty} {ctx : ParseContext} {p p' : Slice}
    (h : parse t ctx p = .ok (none, p')) :
    parseVariant (t :: t' :: ts) ctx p =
      (parseVariant (t' :: ts) ctx p).map fun s => (s.1.map .inr, s.2) := by
  rw [parseVariant, h]
  rfl

/-- An alternative does not match where a later alternative does. -/
theorem parse_eq_none_of_distinguishable {t : Ty} {ts : List Ty} {ctx : ParseContext}
    {p p' : Slice} {v : VariantVal ts} (hdist : Distinguishable (t :: ts))
    (h : parseVariant ts ctx p = .ok (some v, p')) : ∃ q, parse t ctx p = .ok (none, q) := by
  obtain ⟨t', hmem, w, q, ht'⟩ := parseVariant_eq_some ts ctx h
  obtain ⟨c, c', hlead, hlead', hle, hprefix⟩ := (List.pairwise_cons.mp hdist).1 t' hmem
  obtain ⟨hmax, hlen, hbits⟩ := parse_leading t' ctx hlead' ht'
  refine parse_mismatch t ctx hlead (hle.trans hmax) (hle.trans hlen) fun heq => hprefix ?_
  rw [← heq, ← hbits]
  exact List.take_prefix_take_left hle

/-! ## Parsing undoes building -/

theorem always_roundTrips {α : Type} {write : Builder → Except TvmException Builder}
    {load : Slice → Except TvmException (α × Slice)} {a : α} (h : RoundTrips write load a) :
    RoundTrips write (fun p => always id (load p)) (some a) := h.map some

theorem bitfield_roundTrips {bitlen : ℕ} {bs : List Bool} (h : bs.length = bitlen) :
    RoundTrips (Builder.stslice bs) (fun p => always id (Slice.ldslice bitlen p)) (some bs) := by
  subst h
  exact always_roundTrips (roundTrips_stslice bs)

theorem parseBitconst_roundTrips (bitlen code : ℕ) :
    RoundTrips (Builder.stu code bitlen) (parseBitconst bitlen code) (some ()) := by
  have h := (roundTrips_stu code bitlen).map fun n => if n = code then some () else none
  rwa [if_pos rfl] at h

theorem parseTagged_roundTrips {t : Ty} {v : t.Val} {tag : ℕ}
    (h : RoundTrips (build t v) (parse t [⟨.bitconst 1 tag, ()⟩]) (some v)) :
    RoundTrips (fun b => (Builder.stu tag 1 b).bind (build t v)) (parseTagged tag (parse t))
      (some v) :=
  (parseBitconst_roundTrips 1 tag).bind (fun tagged p => match tagged with
    | some _ => parse t [⟨.bitconst 1 tag, ()⟩] p
    | none => .ok (none, p)) h

/-- The left alternative does not match a right one. -/
theorem parseTagged_eq_none {α β : Type} {f : ParseContext → Slice → Parsed α}
    {g : ParseContext → Slice → Parsed β} {p p' : Slice} {v : α}
    (h : parseTagged 1 f p = .ok (some v, p')) :
    ∃ q, parseTagged 0 g p = .ok (none, q) := by
  obtain ⟨⟨tagged, q⟩, htag, hr⟩ := bind_eq_ok.mp h
  cases tagged with
  | none => cases hr
  | some u =>
    obtain ⟨hmax, hlen, hbits⟩ := parseBitconst_eq_some htag
    obtain ⟨q', hnone⟩ := parseBitconst_eq_none hmax hlen
      (hbits.trans_ne (by decide : natBits 1 1 ≠ natBits 1 0))
    exact ⟨q', by rw [parseTagged, hnone]; rfl⟩

theorem ref_roundTrips {t : Ty} {ctx : ParseContext} {v : t.Val}
    (h : RoundTrips (build t v) (parse t ctx) (some v)) :
    RoundTrips (build (.ref t) v) (parse (.ref t) ctx) (some v) := by
  intro b b' hb
  obtain ⟨inner, hinner, hstore⟩ := bind_eq_ok.mp hb
  obtain ⟨s, rfl, hparse⟩ := h _ _ hinner
  obtain ⟨s', hs', hload⟩ := roundTrips_stref _ _ _ hstore
  refine ⟨s', hs', fun rest => ?_⟩
  have hinside : parse t ctx (Builder.endc (.empty ++ s)).ctos = .ok (some v, .empty) := by
    have := hparse .empty
    rwa [Slice.append_empty] at this
  rw [parse, hload, Except.bind, hinside]
  rfl

theorem restart_roundTrips {α : Type} {write : Builder → Except TvmException Builder}
    {read : Slice → Parsed α} {v : α} (h : RoundTrips write read (some v)) :
    RoundTrips write (fun p => (read p).map (restart p)) (some v) := by
  intro b b' hb
  obtain ⟨s, hs, hread⟩ := h b b' hb
  refine ⟨s, hs, fun rest => ?_⟩
  dsimp only
  rw [hread]
  rfl

theorem optional_roundTrips {t : Ty} {ctx : ParseContext} {v : t.Val}
    (h : RoundTrips (build t v) (parse t ctx) (some v)) :
    RoundTrips (build (.optional t) (some v)) (parse (.optional t) ctx) (some (some v)) := by
  refine (roundTrips_stu 1 1).bind (fun flag p =>
    if flag ≠ 0 then
      (parse t ctx p).map fun s => match s.1 with
        | some v => (some (some v), s.2)
        | none => (none, p)
    else .ok (some none, p)) ?_
  intro b b' hb
  obtain ⟨s, hs, hparse⟩ := h b b' hb
  refine ⟨s, hs, fun rest => ?_⟩
  show Except.map _ (parse t ctx (s ++ rest)) = _
  rw [hparse]
  rfl

theorem either_inr_roundTrips {l r : Ty} {ctx : ParseContext} {v : r.Val}
    (h : RoundTrips (build r v) (parse r [⟨.bitconst 1 1, ()⟩]) (some v)) :
    RoundTrips (build (.either l r) (.inr v)) (parse (.either l r) ctx) (some (.inr v)) := by
  intro b b' hb
  obtain ⟨s, hs, hparse⟩ := parseTagged_roundTrips h b b' hb
  refine ⟨s, hs, fun rest => ?_⟩
  obtain ⟨q, hnone⟩ := parseTagged_eq_none (g := parse l) (hparse rest)
  rw [parse, hnone, Except.bind, hparse]
  rfl

theorem either_inl_roundTrips {l r : Ty} {ctx : ParseContext} {v : l.Val}
    (h : RoundTrips (build l v) (parse l [⟨.bitconst 1 0, ()⟩]) (some v)) :
    RoundTrips (build (.either l r) (.inl v)) (parse (.either l r) ctx) (some (.inl v)) := by
  intro b b' hb
  obtain ⟨s, hs, hparse⟩ := parseTagged_roundTrips h b b' hb
  refine ⟨s, hs, fun rest => ?_⟩
  rw [parse, hparse]
  rfl

/-- A dynamic field is loaded with the length that its length field states. -/
theorem dynamic_roundTrips {α : Type} {ctx : ParseContext} {field bitlen : ℕ} {a : α}
    {write : Builder → Except TvmException Builder}
    {load : ℕ → Slice → Except TvmException (α × Slice)}
    (hsize : dynfieldSize ctx field = .ok bitlen) (h : RoundTrips write (load bitlen) a) :
    RoundTrips write (fun p => (dynfieldSize ctx field).bind fun bitlen =>
      always (·, bitlen) (load bitlen p)) (some (a, bitlen)) := by
  intro b b' hb
  obtain ⟨s, hs, hload⟩ := h b b' hb
  refine ⟨s, hs, fun rest => ?_⟩
  dsimp only
  rw [hsize, Except.bind, always, hload]
  rfl

mutual

/-- **Parsing undoes building**, by recursion on the type. -/
theorem build_roundTrips : ∀ (t : Ty) (ctx : ParseContext) (v : t.Val), t.WellFormed →
    Fits t ctx v → RoundTrips (build t v) (parse t ctx) (some v)
  | .bitconst bitlen code, _, _, _, _ => parseBitconst_roundTrips bitlen code
  | .bitfield _, _, _, _, hfits => bitfield_roundTrips hfits
  | .bool, _, v, _, _ => by
    have h := (roundTrips_stu (Bool.toNat v) 1).map fun n => some (decide (n ≠ 0))
    have hv : decide (Bool.toNat v ≠ 0) = v := by cases v <;> rfl
    rwa [hv] at h
  | .uint bitlen, _, n, _, _ => always_roundTrips (roundTrips_stu n bitlen)
  | .int bitlen, _, z, _, _ => always_roundTrips (roundTrips_sti z bitlen)
  | .varuint size, _, n, _, _ => always_roundTrips (roundTrips_stvaruint size.lenBits n)
  | .varint size, _, z, _, _ => always_roundTrips (roundTrips_stvarint size.lenBits z)
  | .dict, _, d, _, _ => always_roundTrips (roundTrips_stdict d)
  | .cell, _, c, _, _ => always_roundTrips (roundTrips_stref c)
  | .msgAddress _, _, _, _, hfits => always_roundTrips (roundTrips_msgAddress hfits)
  | .addrStdCompact, _, v, _, _ => always_roundTrips (roundTrips_staddrStdCompact v)
  | .ref t, ctx, v, hwf, hfits => ref_roundTrips (build_roundTrips t ctx v hwf hfits)
  | .optional _, _, none, _, _ => by
    intro b b' hb
    obtain ⟨s, hs, hload⟩ := roundTrips_stu 0 1 b b' hb
    refine ⟨s, hs, fun rest => ?_⟩
    rw [parse, hload]
    rfl
  | .optional t, ctx, some v, hwf, hfits =>
    optional_roundTrips (build_roundTrips t ctx v hwf hfits)
  | .either l _, _, .inl v, hwf, hfits =>
    either_inl_roundTrips (build_roundTrips l _ v hwf.1 hfits)
  | .either _ r, _, .inr v, hwf, hfits =>
    either_inr_roundTrips (build_roundTrips r _ v hwf.2 hfits)
  | .tuple ts, _, vs, hwf, hfits =>
    restart_roundTrips (buildSeq_roundTrips false ts [] vs hwf hfits)
  | .struct ts, _, vs, hwf, hfits =>
    restart_roundTrips (buildSeq_roundTrips true ts [] vs hwf hfits)
  | .dynamicBitfield _, _, (bs, bitlen), _, hfits => by
    have hlen : bs.length = bitlen := hfits.2
    subst hlen
    exact dynamic_roundTrips hfits.1 (roundTrips_stslice bs)
  | .dynamicUint _, _, (n, bitlen), _, hfits => dynamic_roundTrips hfits (roundTrips_stu n bitlen)
  | .dynamicInt _, _, (z, bitlen), _, hfits => dynamic_roundTrips hfits (roundTrips_sti z bitlen)
  | .variant ts, ctx, v, hwf, hfits => buildVariant_roundTrips ts ctx v hwf.1 hwf.2 hfits

theorem buildSeq_roundTrips (isStruct : Bool) : ∀ (ts : List Ty) (ctx : ParseContext)
    (vs : SeqVal ts), WellFormedSeq ts → FitsSeq isStruct ts ctx vs →
    RoundTrips (buildSeq ts vs) (parseSeq isStruct ts ctx) (some vs)
  | [], _, _, _, _ => by
    intro b b' hb
    cases hb
    exact ⟨.empty, (Slice.append_empty b).symm, fun rest => rfl⟩
  | t :: ts, ctx, (v, vs), hwf, hfits => by
    refine (build_roundTrips t ctx v hwf.1 hfits.1).bind (fun head p => match head with
      | some v => (parseSeq isStruct ts (if isStruct then ctx ++ [⟨t, v⟩] else ctx) p).map
          fun s => (s.1.map (v, ·), s.2)
      | none => .ok (none, p)) ?_
    exact (buildSeq_roundTrips isStruct ts _ vs hwf.2 hfits.2).map (Option.map (v, ·))

theorem buildVariant_roundTrips : ∀ (ts : List Ty) (ctx : ParseContext) (v : VariantVal ts),
    WellFormedSeq ts → Distinguishable ts → FitsVariant ts ctx v →
    RoundTrips (buildVariant ts v) (parseVariant ts ctx) (some v)
  | [t], ctx, .inl v, hwf, _, hfits =>
    (build_roundTrips t ctx v hwf.1 hfits).map (Option.map Sum.inl)
  | t :: t' :: ts, ctx, .inl v, hwf, _, hfits => by
    intro b b' hb
    obtain ⟨s, hs, hparse⟩ := build_roundTrips t ctx v hwf.1 hfits b b' hb
    refine ⟨s, hs, fun rest => ?_⟩
    rw [parseVariant, hparse]
    rfl
  | t :: t' :: ts, ctx, .inr v, hwf, hdist, hfits => by
    intro b b' hb
    obtain ⟨s, hs, hparse⟩ := buildVariant_roundTrips (t' :: ts) ctx v hwf.2
      (List.Pairwise.of_cons hdist) hfits b b' hb
    refine ⟨s, hs, fun rest => ?_⟩
    obtain ⟨q, hnone⟩ := parse_eq_none_of_distinguishable hdist (hparse rest)
    rw [parseVariant_next hnone, hparse]
    rfl

end

/-- **Schema decode undoes encode**: the parser finds the value in front of any other content, and
stops where that begins. When an alternative of a variant does not match, the next one is tried
from the same position. -/
theorem parse_build (t : Ty) (hwf : t.WellFormed) (v : t.Val) (hfits : Fits t [] v) (b : Builder)
    (hbuild : build t v .empty = .ok b) (rest : Slice) :
    parse t [] (b ++ rest) = .ok (some v, rest) ∧
      ∀ (t₁ t₂ : Ty) (ts : List Ty) (ctx : ParseContext) (p p' : Slice),
        parse t₁ ctx p = .ok (none, p') → parse (.variant (t₁ :: t₂ :: ts)) ctx p =
          (parse (.variant (t₂ :: ts)) ctx p).map fun s => (s.1.map .inr, s.2) := by
  obtain ⟨s, rfl, hparse⟩ := build_roundTrips t [] v hwf hfits _ _ hbuild
  exact ⟨hparse rest, fun t₁ t₂ ts ctx p p' h => parseVariant_next h⟩

section Example

/-- A struct with a dynamic field, and a variant in a cell of its own. -/
def taggedTy : Ty :=
  .struct [.uint 4, .dynamicBitfield 0, .optional (.ref (.variant
    [.struct [.bitconst 1 0, .bool], .struct [.bitconst 2 3, .int 4]]))]

def tagged : taggedTy.Val :=
  ((2 : ℕ), ([true, false], 2), some (.inr (.inl ((), (-5 : ℤ), ()))), ())

theorem parse_build_example :
    parse taggedTy [] (⟨[false, false, true, false, true, false, true],
        [.mk [true, true, true, false, true, true] []]⟩ ++ ⟨[true], []⟩) =
        .ok (some tagged, ⟨[true], []⟩) ∧
      ∀ (t₁ t₂ : Ty) (ts : List Ty) (ctx : ParseContext) (p p' : Slice),
        parse t₁ ctx p = .ok (none, p') → parse (.variant (t₁ :: t₂ :: ts)) ctx p =
          (parse (.variant (t₂ :: ts)) ctx p).map fun s => (s.1.map .inr, s.2) :=
  parse_build taggedTy
    (by
      refine ⟨trivial, trivial, ⟨⟨⟨trivial, trivial, trivial⟩, ⟨trivial, trivial, trivial⟩, trivial⟩,
        ?_⟩, trivial⟩
      exact List.pairwise_pair.mpr ⟨(1, 0), (2, 3), rfl, rfl, by decide, by decide⟩)
    tagged ⟨trivial, ⟨rfl, rfl⟩, ⟨trivial, trivial, trivial⟩, trivial⟩
    ⟨[false, false, true, false, true, false, true],
      [.mk [true, true, true, false, true, true] []]⟩ rfl ⟨[true], []⟩

end Example

end TVMCompiler.Sdk
