import TVMCompiler.Sdk.Estimate

/-!
# Unpacked message addresses

A `MsgAddress` is stored field by field, but it is not loaded so: `PARSEMSGADDR` takes the bits
of an address apart into a tuple, and `msg_address::unpack` makes a value of the tuple. The tuple
has no length fields, and of an anycast it has the prefix alone.

## Main definitions

* `msgAddressTy`: the schema type, with `addrNone`, `addrExtern`, `addrStd` and `addrVar`
* `AddressTuple`, `parsemsgaddr`: the tuples of `PARSEMSGADDR`
* `AddressTuple.unpack`, `parseMsgAddress`: the parser

## Main results

* `parse_anycast_length`: an anycast that is parsed from a prefix is shorter than the prefix
* `parseMsgAddress_build_iff`: the addresses that are read back
-/

namespace TVMCompiler.Sdk

open Lib

/-! ## The types -/

def anycastInfoTy : Ty := .struct [.uint 5, .dynamicBitfield 0]

/-- `MsgAddress`, a variant of `MsgAddressExt` and `MsgAddressInt`. -/
def msgAddressTy : Ty := .variant [msgAddressExtTy, msgAddressIntTy]

/-- The depth, and the prefix with its length. -/
def anycastInfo (depth : ℕ) (rewritePfx : List Bool) (bitlen : ℕ) : anycastInfoTy.Val :=
  (depth, (rewritePfx, bitlen), ())

def addrNone : msgAddressTy.Val := .inl (.inl ((), ()))

def addrExtern (len : ℕ) (externalAddress : List Bool) (bitlen : ℕ) : msgAddressTy.Val :=
  .inl (.inr (.inl ((), len, (externalAddress, bitlen), ())))

def addrStd (anycast : Option anycastInfoTy.Val) (workchainId : ℤ) (address : ℕ) : msgAddressTy.Val :=
  .inr (.inl (.inl ((), anycast, workchainId, address, ())))

def addrVar (anycast : Option anycastInfoTy.Val) (addrLen : ℕ) (workchainId : ℤ) (address : List Bool)
    (bitlen : ℕ) : msgAddressTy.Val :=
  .inr (.inl (.inr (.inl ((), anycast, addrLen, workchainId, (address, bitlen), ()))))

@[elab_as_elim] theorem anycast_cases {motive : Option anycastInfoTy.Val → Prop}
    (a : Option anycastInfoTy.Val) (absent : motive none)
    (present : ∀ depth pfx l, motive (some (anycastInfo depth pfx l))) : motive a := by
  rcases a with _ | ⟨depth, ⟨pfx, l⟩, ⟨⟩⟩
  · exact absent
  · exact present depth pfx l

/-- Every address is of one of the four kinds. -/
@[elab_as_elim] theorem address_cases {motive : msgAddressTy.Val → Prop} (v : msgAddressTy.Val)
    (none : motive addrNone) (external : ∀ len bs l, motive (addrExtern len bs l))
    (std : ∀ a z n, motive (addrStd a z n)) (var : ∀ a len z bs l, motive (addrVar a len z bs l)) :
    motive v := by
  rcases v with (⟨⟨⟩, ⟨⟩⟩ | ⟨⟨⟩, len, ⟨bs, l⟩, ⟨⟩⟩ | ⟨⟨⟩⟩) |
    (⟨⟨⟩, a, z, n, ⟨⟩⟩ | ⟨⟨⟩, a, len, z, ⟨bs, l⟩, ⟨⟩⟩ | ⟨⟨⟩⟩) | ⟨⟨⟩⟩
  · exact none
  · exact external len bs l
  · exact std a z n
  · exact var a len z bs l

/-! ## The tuple of an address -/

/-- The classes of `msg_address`. The kind is the constructor, and a prefix that is absent is
null. -/
inductive AddressTuple where
  | addrNone
  | addrExtern (externalAddress : List Bool)
  | addrStd (rewritePfx : Option (List Bool)) (workchainId : ℤ) (address : List Bool)
  | addrVar (rewritePfx : Option (List Bool)) (workchainId : ℤ) (address : List Bool)
  deriving DecidableEq, Repr

/-- The prefix of an anycast, and the bits behind the anycast. -/
def takeAnycast : List Bool → Option (List Bool) × List Bool
  | [] => (none, [])
  | false :: bs => (none, bs)
  | true :: bs =>
    let depth := natOfBits (bs.take 5)
    (some ((bs.drop 5).take depth), bs.drop (5 + depth))

/-- `PARSEMSGADDR`. -/
def parsemsgaddr (bs : List Bool) : Except TvmException AddressTuple :=
  if skipMsgAddress bs = some [] then
    match bs with
    | false :: true :: bs => .ok (.addrExtern (bs.drop 9))
    | true :: false :: bs =>
      let (pfx, rest) := takeAnycast bs
      .ok (.addrStd pfx (intOfBits (rest.take 8)) (rest.drop 8))
    | true :: true :: bs =>
      let (pfx, rest) := takeAnycast bs
      -- the length of the address, the workchain, and the address
      .ok (.addrVar pfx (intOfBits ((rest.drop 9).take 32)) (rest.drop 41))
    | _ => .ok .addrNone
  else .error .cellUnderflow

/-- `schema::parse`: a type that gives no value throws. -/
def parseOrThrow (t : Ty) (bs : List Bool) : Except TvmException t.Val :=
  (parse t [] (.ofBits bs)).bind fun r => match r.1 with
    | some v => .ok v
    | none => .error .customDataParseError

/-- The field `Anycast` is parsed from the prefix, if that is not null. -/
def unpackAnycast : Option (List Bool) → Except TvmException (Option anycastInfoTy.Val)
  | none => .ok none
  | some pfx => (parseOrThrow anycastInfoTy pfx).map some

/-- `msg_address::unpack`. A length field that is not set is zero. -/
def AddressTuple.unpack : AddressTuple → Except TvmException msgAddressTy.Val
  | .addrNone => .ok Sdk.addrNone
  | .addrExtern externalAddress => .ok (Sdk.addrExtern 0 externalAddress externalAddress.length)
  | .addrStd rewritePfx workchainId address =>
    (unpackAnycast rewritePfx).bind fun anycast =>
      ((Slice.ofBits address).ldu 256).map fun r => Sdk.addrStd anycast workchainId r.1
  | .addrVar rewritePfx workchainId address =>
    (unpackAnycast rewritePfx).map fun anycast =>
      Sdk.addrVar anycast 0 workchainId address address.length

/-- `make_parser_impl<MsgAddress>`. -/
def parseMsgAddress (p : Slice) : Parsed msgAddressTy.Val :=
  p.ldmsgaddr.bind fun r => (parsemsgaddr r.1).bind fun tup => tup.unpack.map fun v => (some v, r.2)

/-- The anycast of the address, if it has one. -/
def anycastOf : msgAddressTy.Val → Option anycastInfoTy.Val
  | .inr (.inl (.inl (_, anycast, _))) => anycast
  | .inr (.inl (.inr (.inl (_, anycast, _)))) => anycast
  | _ => none

/-- The length field of the address; a standard address has none. -/
def lengthOf : msgAddressTy.Val → ℕ
  | .inl (.inr (.inl (_, len, _))) => len
  | .inr (.inl (.inr (.inl (_, _, len, _)))) => len
  | _ => 0

/-- The depth of each anycast is one that an anycast may have. -/
def DepthInRange (v : msgAddressTy.Val) : Prop :=
  ∀ (depth : ℕ) (pfx : List Bool) (l : ℕ), anycastOf v = some (anycastInfo depth pfx l) →
    1 ≤ depth ∧ depth ≤ 30

/-! ## The bits of an address -/

def anycastBits : Option anycastInfoTy.Val → List Bool
  | none => [false]
  | some (depth, (pfx, _), _) => true :: (natBits 5 depth ++ pfx)

@[simp] theorem anycastBits_none : anycastBits none = [false] := rfl

@[simp] theorem anycastBits_some (depth : ℕ) (pfx : List Bool) (l : ℕ) :
    anycastBits (some (anycastInfo depth pfx l)) = true :: (natBits 5 depth ++ pfx) := rfl

theorem bind_stu {α : Type} {n len : ℕ} {b : Builder} {b' : α}
    {f : Builder → Except TvmException α} (h : (b.stu n len).bind f = .ok b') :
    n < 2 ^ len ∧ f (b ++ Slice.ofBits (natBits len n)) = .ok b' := by
  obtain ⟨b₁, hst, hf⟩ := bind_eq_ok.mp h
  obtain ⟨hn, rfl⟩ := stu_eq_ok hst
  exact ⟨hn, hf⟩

theorem bind_sti {α : Type} {z : ℤ} {len : ℕ} {b : Builder} {b' : α}
    {f : Builder → Except TvmException α} (h : (b.sti z len).bind f = .ok b') :
    (-2 ^ len ≤ 2 * z ∧ 2 * z < 2 ^ len) ∧ f (b ++ Slice.ofBits (intBits len z)) = .ok b' := by
  obtain ⟨b₁, hst, hf⟩ := bind_eq_ok.mp h
  obtain ⟨hz, rfl⟩ := sti_eq_ok hst
  exact ⟨hz, hf⟩

theorem bind_stslice {α : Type} {bs : List Bool} {b : Builder} {b' : α}
    {f : Builder → Except TvmException α} (h : (b.stslice bs).bind f = .ok b') :
    f (b ++ Slice.ofBits bs) = .ok b' := by
  obtain ⟨b₁, hst, hf⟩ := bind_eq_ok.mp h
  rwa [store_eq_append hst] at hf

/-- What is stored for an anycast that may be absent. -/
theorem bind_build_anycast {α : Type} {a : Option anycastInfoTy.Val} {b : Builder} {b' : α}
    {f : Builder → Except TvmException α}
    (h : (build (.optional anycastInfoTy) a b).bind f = .ok b') :
    (∀ depth pfx l, a = some (anycastInfo depth pfx l) → depth < 2 ^ 5) ∧
      f (b ++ Slice.ofBits (anycastBits a)) = .ok b' := by
  obtain ⟨b₁, hbuild, hf⟩ := bind_eq_ok.mp h
  cases a using anycast_cases with
  | absent =>
    obtain ⟨-, rfl⟩ := stu_eq_ok hbuild
    exact ⟨nofun, hf⟩
  | present depth pfx l =>
    obtain ⟨-, hrest⟩ := bind_stu hbuild
    obtain ⟨hdepth, hrest⟩ := bind_stu hrest
    have hpfx := bind_stslice hrest
    obtain rfl := Except.ok.inj hpfx
    refine ⟨fun depth' pfx' l' heq => ?_, ?_⟩
    · obtain rfl : depth = depth' := congrArg Prod.fst (Option.some.inj heq)
      exact hdepth
    · rw [Slice.append_assoc, Slice.append_assoc] at hf
      exact hf

theorem skipBits_append {n : ℕ} {as : List Bool} (h : as.length = n) (rest : List Bool) :
    skipBits n (as ++ rest) = some rest := by
  rw [skipBits, if_pos (by rw [List.length_append]; omega), ← h, List.drop_left]

theorem skipLengthPrefixed_append {n k len : ℕ} {as : List Bool} (hlen : len < 2 ^ n)
    (has : as.length = k + len) (rest : List Bool) :
    skipLengthPrefixed n k (natBits n len ++ (as ++ rest)) = some rest := by
  have htake : (natBits n len ++ (as ++ rest)).take n = natBits n len :=
    List.take_left' (length_natBits n len)
  rw [skipLengthPrefixed, skipBits_append (length_natBits n len), Option.bind_some, htake,
    natOfBits_natBits hlen, skipBits_append has]

/-- What holds of an anycast whose depth is the length of its prefix. -/
def AnycastFits (a : Option anycastInfoTy.Val) : Prop :=
  ∀ depth pfx l, a = some (anycastInfo depth pfx l) →
    (1 ≤ depth ∧ depth ≤ 30) ∧ pfx.length = depth ∧ l = depth

def prefixOf : Option anycastInfoTy.Val → Option (List Bool)
  | none => none
  | some (_, (pfx, _), _) => some pfx

theorem skipAnycast_append {a : Option anycastInfoTy.Val} (h : AnycastFits a) (rest : List Bool) :
    skipAnycast (anycastBits a ++ rest) = some rest := by
  cases a using anycast_cases with
  | absent => rfl
  | present depth pfx l =>
    obtain ⟨hdepth, hpfx, -⟩ := h depth pfx l rfl
    have htake : (natBits 5 depth ++ (pfx ++ rest)).take 5 = natBits 5 depth :=
      List.take_left' (length_natBits 5 depth)
    have hlt : depth < 2 ^ 5 := by omega
    rw [anycastBits_some, List.cons_append, List.append_assoc, skipAnycast, htake,
      natOfBits_natBits hlt, if_pos hdepth, skipLengthPrefixed_append hlt (by omega)]

theorem takeAnycast_append {a : Option anycastInfoTy.Val} (h : AnycastFits a) (rest : List Bool) :
    takeAnycast (anycastBits a ++ rest) = (prefixOf a, rest) := by
  cases a using anycast_cases with
  | absent => rfl
  | present depth pfx l =>
    obtain ⟨hdepth, hpfx, -⟩ := h depth pfx l rfl
    have htake : (natBits 5 depth ++ (pfx ++ rest)).take 5 = natBits 5 depth :=
      List.take_left' (length_natBits 5 depth)
    have hdrop : (natBits 5 depth ++ (pfx ++ rest)).drop 5 = pfx ++ rest :=
      List.drop_left' (length_natBits 5 depth)
    have hlt : depth < 2 ^ 5 := by omega
    rw [anycastBits_some, List.cons_append, List.append_assoc, takeAnycast]
    simp only [htake, natOfBits_natBits hlt, ← List.drop_drop, hdrop, prefixOf]
    rw [← hpfx, List.take_left, List.drop_left]
    rfl

/-! ## What is read back -/

theorem length_of_ldslice {len : ℕ} {p p' : Slice} {bs : List Bool}
    (h : p.ldslice len = .ok (bs, p')) : len + p'.bits.length = p.bits.length := by
  unfold Slice.ldslice at h
  split at h
  · cases h
  split at h
  · cases h
  cases h
  rw [List.length_drop]
  omega

theorem length_of_ldu {len n : ℕ} {p p' : Slice} (h : p.ldu len = .ok (n, p')) :
    len + p'.bits.length = p.bits.length := by
  unfold Slice.ldu at h
  split at h
  · cases h
  obtain ⟨⟨bs, q⟩, hld, hr⟩ := map_eq_ok.mp h
  cases hr
  exact length_of_ldslice hld

/-- An anycast that is parsed from a prefix is shorter than the prefix. -/
theorem parse_anycast_length {bs : List Bool} {depth : ℕ} {pfx : List Bool} {l : ℕ}
    (h : parseOrThrow anycastInfoTy bs = .ok (anycastInfo depth pfx l)) : 5 + l ≤ bs.length := by
  obtain ⟨⟨v, q⟩, hparse, hv⟩ := bind_eq_ok.mp h
  cases v with
  | none => cases hv
  | some v =>
    obtain rfl : v = anycastInfo depth pfx l := Except.ok.inj hv
    obtain ⟨⟨d, p₁⟩, hdepth, hrest⟩ := bind_eq_ok.mp (map_restart_eq_some.mp hparse)
    obtain ⟨⟨n, p₁'⟩, hldu, hd⟩ := map_eq_ok.mp hdepth
    cases hd
    -- the prefix comes behind the depth
    obtain ⟨⟨vs, p₂⟩, hseq, hvs⟩ := map_eq_ok.mp hrest
    obtain ⟨⟨w, p₃⟩, hfield, htail⟩ := bind_eq_ok.mp hseq
    obtain ⟨bitlen, -, hload⟩ := bind_eq_ok.mp hfield
    obtain ⟨⟨sl, p₃'⟩, hldslice, hw⟩ := map_eq_ok.mp hload
    cases hw
    cases htail
    cases hvs
    have hlen : 5 + p₁'.bits.length = bs.length := length_of_ldu hldu
    have hlen' : l + p₃'.bits.length = p₁'.bits.length := length_of_ldslice hldslice
    omega

/-- So an anycast is not parsed again from its own prefix. -/
theorem unpackAnycast_ne {a : Option anycastInfoTy.Val} (h : AnycastFits a) (hsome : a ≠ none) :
    unpackAnycast (prefixOf a) ≠ .ok a := by
  cases a using anycast_cases with
  | absent => exact absurd rfl hsome
  | present depth pfx l =>
    obtain ⟨-, hpfx, rfl⟩ := h depth pfx l rfl
    intro hunpack
    obtain ⟨v, hv, heq⟩ := map_eq_ok.mp hunpack
    obtain rfl : v = anycastInfo l pfx l := Option.some.inj heq
    have hlen := parse_anycast_length hv
    omega

theorem IsMsgAddress.skip {bs : List Bool} (h : IsMsgAddress bs) : skipMsgAddress bs = some [] := h

/-- An address in front is taken apart, and the value is made of its parts. -/
theorem parseMsgAddress_append {bs : List Bool} (h : IsMsgAddress bs) (rest : Slice) :
    parseMsgAddress (Slice.ofBits bs ++ rest) =
      (parsemsgaddr bs).bind fun tup => tup.unpack.map fun v => (some v, rest) := by
  rw [parseMsgAddress, ldmsgaddr_append h]
  rfl

theorem build_addrNone (b : Builder) :
    build msgAddressTy addrNone b = (b.stu 0 2).bind .ok := rfl

theorem build_addrExtern (len : ℕ) (bs : List Bool) (l : ℕ) (b : Builder) :
    build msgAddressTy (addrExtern len bs l) b =
      (b.stu 1 2).bind fun b => (b.stu len 9).bind fun b => (b.stslice bs).bind .ok := rfl

theorem build_addrStd (a : Option anycastInfoTy.Val) (z : ℤ) (n : ℕ) (b : Builder) :
    build msgAddressTy (addrStd a z n) b =
      (b.stu 2 2).bind fun b => (build (.optional anycastInfoTy) a b).bind fun b =>
        (b.sti z 8).bind fun b => (b.stu n 256).bind .ok := rfl

theorem build_addrVar (a : Option anycastInfoTy.Val) (len : ℕ) (z : ℤ) (bs : List Bool) (l : ℕ)
    (b : Builder) :
    build msgAddressTy (addrVar a len z bs l) b =
      (b.stu 3 2).bind fun b => (build (.optional anycastInfoTy) a b).bind fun b =>
        (b.stu len 9).bind fun b => (b.sti z 32).bind fun b => (b.stslice bs).bind .ok := rfl

theorem read_addrNone {b : Builder} (hb : build msgAddressTy addrNone .empty = .ok b)
    (rest : Slice) : parseMsgAddress (b ++ rest) = .ok (some addrNone, rest) := by
  rw [build_addrNone] at hb
  obtain ⟨-, hb⟩ := bind_stu hb
  obtain rfl := Except.ok.inj hb
  have haddress : IsMsgAddress [false, false] := rfl
  exact parseMsgAddress_append haddress rest

theorem read_addrExtern {len : ℕ} {bs : List Bool} {l : ℕ} (hbs : bs.length = len) {b : Builder}
    (hb : build msgAddressTy (addrExtern len bs l) .empty = .ok b) (rest : Slice) :
    parseMsgAddress (b ++ rest) = .ok (some (addrExtern 0 bs bs.length), rest) := by
  rw [build_addrExtern] at hb
  obtain ⟨-, hb⟩ := bind_stu hb
  obtain ⟨hlen, hb⟩ := bind_stu hb
  have hlast := bind_stslice hb
  obtain rfl := Except.ok.inj hlast
  have hbits : (Slice.empty ++ Slice.ofBits (natBits 2 1) ++ Slice.ofBits (natBits 9 len) ++
      Slice.ofBits bs : Slice) = Slice.ofBits (false :: true :: (natBits 9 len ++ bs)) := by
    rw [Slice.append_assoc, Slice.append_assoc]
    rfl
  have haddress : IsMsgAddress (false :: true :: (natBits 9 len ++ bs)) := by
    have hskip := skipLengthPrefixed_append (k := 0) hlen (hbs.trans (Nat.zero_add len).symm) []
    rwa [List.append_nil] at hskip
  rw [hbits, parseMsgAddress_append haddress, parsemsgaddr, if_pos haddress.skip]
  have hdrop : (natBits 9 len ++ bs).drop 9 = bs := List.drop_left' (length_natBits 9 len)
  simp only [hdrop]
  rfl

theorem read_addrStd {a : Option anycastInfoTy.Val} {z : ℤ} {n : ℕ} (ha : AnycastFits a) {b : Builder}
    (hb : build msgAddressTy (addrStd a z n) .empty = .ok b) (rest : Slice) :
    parseMsgAddress (b ++ rest) =
      (unpackAnycast (prefixOf a)).map fun a => (some (addrStd a z n), rest) := by
  rw [build_addrStd] at hb
  obtain ⟨-, hb⟩ := bind_stu hb
  obtain ⟨-, hb⟩ := bind_build_anycast hb
  obtain ⟨hz, hb⟩ := bind_sti hb
  obtain ⟨hn, hb⟩ := bind_stu hb
  obtain rfl := Except.ok.inj hb
  have hbits : (Slice.empty ++ Slice.ofBits (natBits 2 2) ++ Slice.ofBits (anycastBits a) ++
      Slice.ofBits (intBits 8 z) ++ Slice.ofBits (natBits 256 n) : Slice) =
      Slice.ofBits (true :: false :: (anycastBits a ++ (intBits 8 z ++ natBits 256 n))) := by
    rw [Slice.append_assoc, Slice.append_assoc, Slice.append_assoc]
    rfl
  have haddress : IsMsgAddress
      (true :: false :: (anycastBits a ++ (intBits 8 z ++ natBits 256 n))) := by
    show (skipAnycast (anycastBits a ++ (intBits 8 z ++ natBits 256 n))).bind
      (skipBits (8 + 256)) = some []
    have hlength : (intBits 8 z ++ natBits 256 n).length = 8 + 256 := by
      rw [List.length_append, length_intBits, length_natBits]
    have hskip := skipBits_append hlength []
    rw [List.append_nil] at hskip
    rw [skipAnycast_append ha, Option.bind_some, hskip]
  have htake : (intBits 8 z ++ natBits 256 n).take 8 = intBits 8 z :=
    List.take_left' (length_intBits 8 z)
  have hdrop : (intBits 8 z ++ natBits 256 n).drop 8 = natBits 256 n :=
    List.drop_left' (length_intBits 8 z)
  have hldu : (Slice.ofBits (natBits 256 n)).ldu 256 = .ok (n, .empty) := by
    have hld := ldslice_append (natBits 256 n)
      (by rw [length_natBits]; unfold Builder.maxBits; omega) .empty
    rw [Slice.append_empty, length_natBits] at hld
    rw [Slice.ldu, if_neg (Nat.lt_irrefl 256), hld, Except.map, natOfBits_natBits hn]
  rw [hbits, parseMsgAddress_append haddress, parsemsgaddr, if_pos haddress.skip]
  simp only [takeAnycast_append ha, htake, hdrop, intOfBits_intBits hz.1 hz.2]
  change ((unpackAnycast (prefixOf a)).bind fun a =>
    ((Slice.ofBits (natBits 256 n)).ldu 256).map fun r => addrStd a z r.1).map _ = _
  rw [hldu]
  cases unpackAnycast (prefixOf a) <;> rfl

theorem read_addrVar {a : Option anycastInfoTy.Val} {len : ℕ} {z : ℤ} {bs : List Bool} {l : ℕ}
    (ha : AnycastFits a) (hbs : bs.length = len) {b : Builder}
    (hb : build msgAddressTy (addrVar a len z bs l) .empty = .ok b) (rest : Slice) :
    parseMsgAddress (b ++ rest) =
      (unpackAnycast (prefixOf a)).map fun a => (some (addrVar a 0 z bs bs.length), rest) := by
  rw [build_addrVar] at hb
  obtain ⟨-, hb⟩ := bind_stu hb
  obtain ⟨-, hb⟩ := bind_build_anycast hb
  obtain ⟨hlen, hb⟩ := bind_stu hb
  obtain ⟨hz, hb⟩ := bind_sti hb
  have hlast := bind_stslice hb
  obtain rfl := Except.ok.inj hlast
  have hbits : (Slice.empty ++ Slice.ofBits (natBits 2 3) ++ Slice.ofBits (anycastBits a) ++
      Slice.ofBits (natBits 9 len) ++ Slice.ofBits (intBits 32 z) ++ Slice.ofBits bs : Slice) =
      Slice.ofBits (true :: true :: (anycastBits a ++ (natBits 9 len ++ (intBits 32 z ++ bs)))) := by
    rw [Slice.append_assoc, Slice.append_assoc, Slice.append_assoc, Slice.append_assoc]
    rfl
  have haddress : IsMsgAddress
      (true :: true :: (anycastBits a ++ (natBits 9 len ++ (intBits 32 z ++ bs)))) := by
    show (skipAnycast (anycastBits a ++ (natBits 9 len ++ (intBits 32 z ++ bs)))).bind
      (skipLengthPrefixed 9 32) = some []
    have hlength : (intBits 32 z ++ bs).length = 32 + len := by
      rw [List.length_append, length_intBits, hbs]
    have hskip := skipLengthPrefixed_append hlen hlength []
    rw [List.append_nil] at hskip
    rw [skipAnycast_append ha, Option.bind_some, hskip]
  have hnine : (natBits 9 len ++ (intBits 32 z ++ bs)).drop 9 = intBits 32 z ++ bs :=
    List.drop_left' (length_natBits 9 len)
  have htake : (intBits 32 z ++ bs).take 32 = intBits 32 z :=
    List.take_left' (length_intBits 32 z)
  have hdrop : (natBits 9 len ++ (intBits 32 z ++ bs)).drop 41 = bs := by
    rw [← List.drop_drop (i := 32) (j := 9), hnine]
    exact List.drop_left' (length_intBits 32 z)
  rw [hbits, parseMsgAddress_append haddress, parsemsgaddr, if_pos haddress.skip]
  simp only [takeAnycast_append ha, hnine, htake, hdrop, intOfBits_intBits hz.1 hz.2]
  change ((unpackAnycast (prefixOf a)).map fun a => addrVar a 0 z bs bs.length).map _ = _
  cases unpackAnycast (prefixOf a) <;> rfl

theorem anycastFits_of_fits {v : msgAddressTy.Val} {a : Option anycastInfoTy.Val} {ctx : ParseContext}
    (hdepth : DepthInRange v) (hv : anycastOf v = a) (hfits : Fits (.optional anycastInfoTy) ctx a) :
    AnycastFits a := by
  intro depth pfx l ha
  subst ha
  obtain ⟨-, ⟨hl, hpfx⟩, -⟩ := hfits
  obtain rfl : depth = l := Except.ok.inj hl
  exact ⟨hdepth depth pfx depth hv, hpfx, rfl⟩

/-- An address whose anycast is unpacked is read back if the length field is not set. -/
theorem anycast_read_iff {a : Option anycastInfoTy.Val} (ha : AnycastFits a)
    {f : Option anycastInfoTy.Val → msgAddressTy.Val} (hf : ∀ a, anycastOf (f a) = a)
    {v : msgAddressTy.Val} (hv : anycastOf v = a) (rest : Slice) :
    ((unpackAnycast (prefixOf a)).map fun a => (some (f a), rest)) = .ok (some v, rest) ↔
      a = none ∧ f none = v := by
  constructor
  · intro h
    obtain ⟨a', hunpack, heq⟩ := map_eq_ok.mp h
    obtain rfl : f a' = v := Option.some.inj (congrArg Prod.fst heq)
    obtain rfl : a' = a := (hf a').symm.trans hv
    by_cases hnone : a' = none
    · exact ⟨hnone, by rw [hnone]⟩
    · exact absurd hunpack (unpackAnycast_ne ha hnone)
  · rintro ⟨rfl, rfl⟩
    rfl

/-- **An address is read back exactly if it has no anycast and no length.** -/
theorem parseMsgAddress_build_iff (v : msgAddressTy.Val) (hfits : Fits msgAddressTy [] v)
    (hdepth : DepthInRange v) (b : Builder) (hb : build msgAddressTy v .empty = .ok b)
    (rest : Slice) :
    (∃ v', parseMsgAddress (b ++ rest) = .ok (some v', rest) ∧ v' = v ∧
      build msgAddressTy v' .empty = .ok b) ↔ anycastOf v = none ∧ lengthOf v = 0 := by
  have hsame : (∃ v', parseMsgAddress (b ++ rest) = .ok (some v', rest) ∧ v' = v ∧
      build msgAddressTy v' .empty = .ok b) ↔ parseMsgAddress (b ++ rest) = .ok (some v, rest) :=
    ⟨fun ⟨v', hparse, heq, _⟩ => heq ▸ hparse, fun hparse => ⟨v, hparse, rfl, hb⟩⟩
  rw [hsame]
  cases v using address_cases with
  | none => exact iff_of_true (read_addrNone hb rest) ⟨rfl, rfl⟩
  | external len bs l =>
    obtain ⟨-, -, ⟨hl, hbs⟩, -⟩ := hfits
    obtain rfl : len = l := Except.ok.inj hl
    rw [read_addrExtern hbs hb rest, hbs]
    constructor
    · intro h
      have hval : addrExtern 0 bs len = addrExtern len bs len :=
        Option.some.inj (congrArg Prod.fst (Except.ok.inj h))
      exact ⟨rfl, (congrArg lengthOf hval).symm⟩
    · rintro ⟨-, hlen⟩
      obtain rfl : len = 0 := hlen
      rfl
  | std a z n =>
    have ha : AnycastFits a := anycastFits_of_fits hdepth rfl hfits.2.1
    rw [read_addrStd ha hb rest,
      anycast_read_iff ha (f := fun a => addrStd a z n) (fun _ => rfl) rfl rest]
    constructor
    · rintro ⟨rfl, -⟩
      exact ⟨rfl, rfl⟩
    · rintro ⟨hnone, -⟩
      obtain rfl : a = none := hnone
      exact ⟨rfl, rfl⟩
  | var a len z bs l =>
    have ha : AnycastFits a := anycastFits_of_fits hdepth rfl hfits.2.1
    obtain ⟨-, -, -, -, ⟨hl, hbs⟩, -⟩ := hfits
    obtain rfl : len = l := Except.ok.inj hl
    rw [read_addrVar ha hbs hb rest, hbs,
      anycast_read_iff ha (f := fun a => addrVar a 0 z bs len) (fun _ => rfl) rfl rest]
    constructor
    · rintro ⟨rfl, hval⟩
      exact ⟨rfl, (congrArg lengthOf hval).symm⟩
    · rintro ⟨hnone, hlen⟩
      obtain rfl : a = none := hnone
      obtain rfl : len = 0 := hlen
      exact ⟨rfl, rfl⟩

theorem fits_addrExtern {len : ℕ} {bs : List Bool} (h : bs.length = len) :
    Fits msgAddressTy [] (addrExtern len bs len) :=
  ⟨trivial, trivial, ⟨rfl, h⟩, trivial⟩

theorem build_addrStd_none {z : ℤ} {n : ℕ} (hz : -2 ^ 8 ≤ 2 * z ∧ 2 * z < 2 ^ 8)
    (hn : n < 2 ^ 256) :
    build msgAddressTy (addrStd none z n) .empty =
      .ok (.ofBits ([true, false, false] ++ intBits 8 z ++ natBits 256 n)) := by
  have hvalid (front bits : List Bool) (hbits : front.length + bits.length ≤ Builder.maxBits) :
      Builder.Valid (Slice.ofBits front ++ Slice.ofBits bits) :=
    ⟨List.length_append.trans_le hbits, Nat.zero_le _⟩
  have hworkchain : Builder.sti z 8 (Slice.ofBits [true, false, false]) =
      .ok (Slice.ofBits [true, false, false] ++ Slice.ofBits (intBits 8 z)) := by
    rw [Builder.sti, if_pos ⟨by decide, hz⟩]
    exact store_eq_ok (hvalid _ _ (by rw [length_intBits]; decide))
  have haddress : Builder.stu n 256 (Slice.ofBits ([true, false, false] ++ intBits 8 z)) =
      .ok (Slice.ofBits ([true, false, false] ++ intBits 8 z) ++ Slice.ofBits (natBits 256 n)) := by
    rw [Builder.stu, if_pos ⟨le_rfl, hn⟩]
    refine store_eq_ok (hvalid _ _ ?_)
    rw [List.length_append, length_intBits, length_natBits]
    decide
  rw [← Slice.ofBits_append] at hworkchain haddress
  rw [build_addrStd]
  show (Builder.sti z 8 (Slice.ofBits [true, false, false])).bind _ = _
  rw [hworkchain, Except.bind, haddress]
  rfl

/-- Account 5 in the masterchain. -/
theorem parseMsgAddress_addrStd :
    ∃ v', parseMsgAddress (Slice.ofBits ([true, false, false] ++ intBits 8 (-1) ++ natBits 256 5) ++
        .ofBits [true]) = .ok (some v', .ofBits [true]) ∧ v' = addrStd none (-1) 5 ∧
      build msgAddressTy v' .empty =
        .ok (.ofBits ([true, false, false] ++ intBits 8 (-1) ++ natBits 256 5)) := by
  have hfits : Fits msgAddressTy [] (addrStd none (-1) 5) :=
    ⟨trivial, trivial, trivial, trivial, trivial⟩
  exact (parseMsgAddress_build_iff (addrStd none (-1) 5) hfits nofun _
    (build_addrStd_none (by decide) (by decide)) (.ofBits [true])).mpr ⟨rfl, rfl⟩
/-- An external address of one bit is read back with the length zero, and with this length it is
stored again. -/
theorem addrExtern_not_read_back :
    Fits msgAddressTy [] (addrExtern 1 [true] 1) ∧ DepthInRange (addrExtern 1 [true] 1) ∧
      build msgAddressTy (addrExtern 1 [true] 1) .empty =
        .ok (.ofBits (false :: true :: (natBits 9 1 ++ [true]))) ∧
      parseMsgAddress (.ofBits (false :: true :: (natBits 9 1 ++ [true]))) =
        .ok (some (addrExtern 0 [true] 1), .empty) ∧
      addrExtern 0 [true] 1 ≠ addrExtern 1 [true] 1 ∧
      build msgAddressTy (addrExtern 0 [true] 1) .empty =
        .ok (.ofBits (false :: true :: (natBits 9 0 ++ [true]))) ∧
      natBits 9 0 ++ [true] ≠ natBits 9 1 ++ [true] := by
  refine ⟨fits_addrExtern rfl, nofun, rfl, ?_, ?_, rfl, ?_⟩
  · have hbuild : build msgAddressTy (addrExtern 1 [true] 1) .empty =
        .ok (.ofBits (false :: true :: (natBits 9 1 ++ [true]))) := rfl
    have hlength : [true].length = 1 := rfl
    exact read_addrExtern hlength hbuild .empty
  · intro h
    exact absurd (congrArg lengthOf h) Nat.zero_ne_one
  · decide

end TVMCompiler.Sdk
