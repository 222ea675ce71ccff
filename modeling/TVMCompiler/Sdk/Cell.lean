import Mathlib.Data.Nat.Size
import TVMCompiler.Lib.Bits
import TVMCompiler.Lib.Codec

/-!
# Cells, builders and slices

A cell holds bits and references to cells. A builder is what has been stored so far, a slice is
what has not been loaded yet. Stores fail if the cell overflows or a number does not fit, loads
fail if there is not enough left.

## Main definitions

* `Cell`, `Slice`, `Builder`
* `Builder.stu`, `Builder.sti`, `Builder.stslice`, `Builder.stref`, `Builder.stdict`,
  `Builder.stvaruint`, `Builder.stvarint`: the stores
* `Slice.ldu`, `Slice.ldi`, `Slice.ldslice`, `Slice.ldref`, `Slice.lddict`, `Slice.ldvaruint`,
  `Slice.ldvarint`: the loads

## Main results

* `roundTrips_stu` and its companions: each load undoes its store
-/

namespace TVMCompiler.Sdk

open Lib

inductive Cell where
  | mk (bits : List Bool) (refs : List Cell)

/-- Bits and references, of a cell in the making or still to be read. -/
@[ext]
structure Slice where
  bits : List Bool
  refs : List Cell

abbrev Builder := Slice

/-- The exceptions of the parsers and builders. `emptyOptional` is no exception: it stands for what
happens when the content of an empty optional is read, which the language leaves open. -/
inductive TvmException where
  | rangeCheck
  | cellOverflow
  | cellUnderflow
  | customDataParseError
  | emptyOptional
  deriving DecidableEq, Repr

namespace Slice

def empty : Slice := ⟨[], []⟩

instance : Append Slice where
  append s t := ⟨s.bits ++ t.bits, s.refs ++ t.refs⟩

@[simp] theorem append_bits (s t : Slice) : (s ++ t).bits = s.bits ++ t.bits := rfl

@[simp] theorem append_refs (s t : Slice) : (s ++ t).refs = s.refs ++ t.refs := rfl

@[simp] theorem empty_append (s : Slice) : empty ++ s = s := rfl

@[simp] theorem append_empty (s : Slice) : s ++ empty = s := by ext1 <;> simp [empty]

theorem append_assoc (s t u : Slice) : s ++ t ++ u = s ++ (t ++ u) := by ext1 <;> simp

theorem append_left_cancel {s t u : Slice} (h : s ++ t = s ++ u) : t = u := by
  ext1
  · exact List.append_cancel_left (congrArg bits h)
  · exact List.append_cancel_left (congrArg refs h)

instance : Std.Associative (fun s t : Slice => s ++ t) where
  assoc := append_assoc

def ofBits (bs : List Bool) : Slice := ⟨bs, []⟩

theorem ofBits_append (bs bs' : List Bool) : ofBits (bs ++ bs') = ofBits bs ++ ofBits bs' := rfl

end Slice

/-! ## Stores -/

namespace Builder

def maxBits : ℕ := 1023

def maxRefs : ℕ := 4

/-- All stores append to the builder, within the limits of a cell. -/
def store (s : Slice) (b : Builder) : Except TvmException Builder :=
  if b.bits.length + s.bits.length ≤ maxBits ∧ b.refs.length + s.refs.length ≤ maxRefs then
    .ok (b ++ s)
  else .error .cellOverflow

def stslice (bs : List Bool) : Builder → Except TvmException Builder := store (.ofBits bs)

def stu (n len : ℕ) (b : Builder) : Except TvmException Builder :=
  if len ≤ 256 ∧ n < 2 ^ len then store (.ofBits (natBits len n)) b else .error .rangeCheck

def sti (z : ℤ) (len : ℕ) (b : Builder) : Except TvmException Builder :=
  if len ≤ 257 ∧ -2 ^ len ≤ 2 * z ∧ 2 * z < 2 ^ len then store (.ofBits (intBits len z)) b
  else .error .rangeCheck

def stref (c : Cell) : Builder → Except TvmException Builder := store ⟨[], [c]⟩

def stdict : Option Cell → Builder → Except TvmException Builder
  | none => store (.ofBits [false])
  | some c => store ⟨[true], [c]⟩

/-- The number of bytes of an unsigned number. -/
def natBytes (n : ℕ) : ℕ := (n.size + 7) / 8

/-- The number of bytes of a number in two's complement. -/
def intBytes : ℤ → ℕ
  | .ofNat 0 => 0
  | .ofNat n => (n.size + 8) / 8
  | .negSucc n => (n.size + 8) / 8

/-- `stvaruint16` with a length of 4 bits, `stvaruint32` with one of 5 bits. -/
def stvaruint (lenBits n : ℕ) (b : Builder) : Except TvmException Builder :=
  if natBytes n < 2 ^ lenBits then
    store (.ofBits (natBits lenBits (natBytes n) ++ natBits (8 * natBytes n) n)) b
  else .error .rangeCheck

def stvarint (lenBits : ℕ) (z : ℤ) (b : Builder) : Except TvmException Builder :=
  if intBytes z < 2 ^ lenBits then
    store (.ofBits (natBits lenBits (intBytes z) ++ intBits (8 * intBytes z) z)) b
  else .error .rangeCheck

/-- A standard address without anycast: its tag, a workchain and the address in it. -/
def staddrStdCompact (v : ℤ × ℕ) (b : Builder) : Except TvmException Builder :=
  (b.stu 4 3).bind fun b => (b.sti v.1 8).bind (stu v.2 256)

def endc (b : Builder) : Cell := .mk b.bits b.refs

end Builder

/-! ## Message addresses -/

def skipBits (n : ℕ) (bs : List Bool) : Option (List Bool) :=
  if n ≤ bs.length then some (bs.drop n) else none

/-- A length of `n` bits, and `k` bits more than it states. -/
def skipLengthPrefixed (n k : ℕ) (bs : List Bool) : Option (List Bool) :=
  (skipBits n bs).bind (skipBits (k + natOfBits (bs.take n)))

/-- `anycast_info`, which may be absent. Its depth is between 1 and 30. -/
def skipAnycast : List Bool → Option (List Bool)
  | [] => none
  | false :: bs => some bs
  | true :: bs =>
    if 1 ≤ natOfBits (bs.take 5) ∧ natOfBits (bs.take 5) ≤ 30 then skipLengthPrefixed 5 0 bs
    else none

/-- What follows the message address in front: `addr_none`, `addr_extern`, `addr_std` or
`addr_var`. -/
def skipMsgAddress : List Bool → Option (List Bool)
  | false :: false :: bs => some bs
  | false :: true :: bs => skipLengthPrefixed 9 0 bs
  | true :: false :: bs => (skipAnycast bs).bind (skipBits (8 + 256))
  | true :: true :: bs => (skipAnycast bs).bind (skipLengthPrefixed 9 32)
  | _ => none

/-! ## Loads -/

namespace Slice

def ldslice (len : ℕ) (p : Slice) : Except TvmException (List Bool × Slice) :=
  if Builder.maxBits < len then .error .rangeCheck
  else if p.bits.length < len then .error .cellUnderflow
  else .ok (p.bits.take len, { p with bits := p.bits.drop len })

def ldu (len : ℕ) (p : Slice) : Except TvmException (ℕ × Slice) :=
  if 256 < len then .error .rangeCheck
  else (p.ldslice len).map fun r => (natOfBits r.1, r.2)

def ldi (len : ℕ) (p : Slice) : Except TvmException (ℤ × Slice) :=
  if 257 < len then .error .rangeCheck
  else (p.ldslice len).map fun r => (intOfBits r.1, r.2)

def ldref (p : Slice) : Except TvmException (Cell × Slice) :=
  match p.refs with
  | [] => .error .cellUnderflow
  | c :: refs => .ok (c, { p with refs := refs })

def lddict (p : Slice) : Except TvmException (Option Cell × Slice) :=
  (p.ldslice 1).bind fun r =>
    if r.1 = [true] then r.2.ldref.map fun r => (some r.1, r.2) else .ok (none, r.2)

def ldvaruint (lenBits : ℕ) (p : Slice) : Except TvmException (ℕ × Slice) :=
  (p.ldslice lenBits).bind fun r =>
    (r.2.ldslice (8 * natOfBits r.1)).map fun r => (natOfBits r.1, r.2)

def ldvarint (lenBits : ℕ) (p : Slice) : Except TvmException (ℤ × Slice) :=
  (p.ldslice lenBits).bind fun r =>
    (r.2.ldslice (8 * natOfBits r.1)).map fun r => (intOfBits r.1, r.2)

/-- `LDMSGADDR`: the message address in front. -/
def ldmsgaddr (p : Slice) : Except TvmException (List Bool × Slice) :=
  match skipMsgAddress p.bits with
  | none => .error .cellUnderflow
  | some rest => .ok (p.bits.take (p.bits.length - rest.length), { p with bits := rest })

/-- The workchain and the address. Other kinds of addresses are refused. -/
def ldaddrStdCompact (p : Slice) : Except TvmException ((ℤ × ℕ) × Slice) :=
  p.ldmsgaddr.bind fun r => match r.1 with
    | true :: false :: false :: bs => .ok ((intOfBits (bs.take 8), natOfBits (bs.drop 8)), r.2)
    | _ => .error .customDataParseError

/-- `ends`: nothing is left. -/
def ends (p : Slice) : Except TvmException Unit :=
  if p.bits = [] ∧ p.refs = [] then .ok () else .error .cellUnderflow

end Slice

def Cell.ctos : Cell → Slice
  | .mk bits refs => ⟨bits, refs⟩

@[simp] theorem ctos_endc (b : Builder) : b.endc.ctos = b := rfl

theorem store_eq_append {s : Slice} {b b' : Builder} (h : b.store s = .ok b') : b' = b ++ s := by
  unfold Builder.store at h
  split at h
  · cases h
    rfl
  · cases h

/-- What a successful load of an unsigned number has read. -/
theorem ldu_eq_ok {len n : ℕ} {p p' : Slice} (h : p.ldu len = .ok (n, p')) :
    len ≤ 256 ∧ len ≤ p.bits.length ∧ n = natOfBits (p.bits.take len) := by
  unfold Slice.ldu at h
  split at h
  · cases h
  obtain ⟨r, hld, hr⟩ := map_eq_ok.mp h
  unfold Slice.ldslice at hld
  split at hld
  · cases hld
  split at hld
  · cases hld
  cases hld
  cases hr
  exact ⟨by omega, by omega, rfl⟩

/-- What a successful store of an unsigned number has written. -/
theorem stu_eq_ok {n len : ℕ} {b b' : Builder} (h : b.stu n len = .ok b') :
    n < 2 ^ len ∧ b' = b ++ Slice.ofBits (natBits len n) := by
  unfold Builder.stu at h
  split at h
  · rename_i hn
    exact ⟨hn.2, store_eq_append h⟩
  · cases h

theorem sti_eq_ok {z : ℤ} {len : ℕ} {b b' : Builder} (h : b.sti z len = .ok b') :
    (-2 ^ len ≤ 2 * z ∧ 2 * z < 2 ^ len) ∧ b' = b ++ Slice.ofBits (intBits len z) := by
  unfold Builder.sti at h
  split at h
  · rename_i hz
    exact ⟨hz.2, store_eq_append h⟩
  · cases h

theorem exists_ldu_eq_ok {len : ℕ} {p : Slice} (hmax : len ≤ 256) (hlen : len ≤ p.bits.length) :
    ∃ p', p.ldu len = .ok (natOfBits (p.bits.take len), p') := by
  refine ⟨{ p with bits := p.bits.drop len }, ?_⟩
  rw [Slice.ldu, if_neg (by omega), Slice.ldslice,
    if_neg (by unfold Builder.maxBits; omega), if_neg (by omega)]
  rfl

/-! ## Loads undo stores -/

/-- A load undoes the store of a piece of content if it does so in front of any other content. -/
theorem roundTrips_store {α : Type} {s : Slice} {load : Slice → Except TvmException (α × Slice)}
    {a : α} (h : s.bits.length ≤ Builder.maxBits → ∀ rest, load (s ++ rest) = .ok (a, rest)) :
    RoundTrips (Builder.store s) load a := by
  intro b b' hb
  unfold Builder.store at hb
  split at hb
  · cases hb
    exact ⟨s, rfl, h (by omega)⟩
  · cases hb

theorem ldslice_append (bs : List Bool) (h : bs.length ≤ Builder.maxBits) (rest : Slice) :
    (Slice.ofBits bs ++ rest).ldslice bs.length = .ok (bs, rest) := by
  rw [Slice.ldslice, if_neg (by omega), if_neg (by simp [Slice.ofBits])]
  simp [Slice.ofBits]

theorem roundTrips_stslice (bs : List Bool) :
    RoundTrips (Builder.stslice bs) (Slice.ldslice bs.length) bs :=
  roundTrips_store fun h => ldslice_append bs h

theorem roundTrips_stu (n len : ℕ) : RoundTrips (Builder.stu n len) (Slice.ldu len) n := by
  intro b b' hb
  unfold Builder.stu at hb
  split at hb
  · rename_i hlen
    refine roundTrips_store (fun h rest => ?_) b b' hb
    have hld := ldslice_append (natBits len n) h rest
    rw [length_natBits] at hld
    rw [Slice.ldu, if_neg (by omega), hld]
    simp only [Except.map, natOfBits_natBits hlen.2]
  · cases hb

theorem roundTrips_sti (z : ℤ) (len : ℕ) :
    RoundTrips (Builder.sti z len) (Slice.ldi len) z := by
  intro b b' hb
  unfold Builder.sti at hb
  split at hb
  · rename_i hlen
    refine roundTrips_store (fun h rest => ?_) b b' hb
    have hld := ldslice_append (intBits len z) h rest
    rw [length_intBits] at hld
    rw [Slice.ldi, if_neg (by omega), hld]
    simp only [Except.map, intOfBits_intBits hlen.2.1 hlen.2.2]
  · cases hb

theorem roundTrips_stref (c : Cell) : RoundTrips (Builder.stref c) Slice.ldref c :=
  roundTrips_store fun _ rest => by simp [Slice.ldref]

theorem roundTrips_stdict (d : Option Cell) : RoundTrips (Builder.stdict d) Slice.lddict d := by
  cases d with
  | none =>
    refine roundTrips_store fun h rest => ?_
    rw [Slice.lddict, show 1 = [false].length from rfl, ldslice_append [false] h]
    rfl
  | some c =>
    refine roundTrips_store fun h rest => ?_
    have hsplit : (⟨[true], [c]⟩ : Slice) ++ rest = Slice.ofBits [true] ++ (⟨[], [c]⟩ ++ rest) := rfl
    rw [Slice.lddict, hsplit, show 1 = [true].length from rfl, ldslice_append [true] h]
    rfl

/-- Both parts of a length-prefixed number are loaded back. -/
theorem ldslice_lengthPrefixed {lenBits len : ℕ} {bs : List Bool} (hlen : len < 2 ^ lenBits)
    (hbs : bs.length = 8 * len)
    (h : (Slice.ofBits (natBits lenBits len ++ bs)).bits.length ≤ Builder.maxBits) (rest : Slice) :
    ∃ p, (Slice.ofBits (natBits lenBits len ++ bs) ++ rest).ldslice lenBits =
        .ok (natBits lenBits len, p) ∧
      p.ldslice (8 * natOfBits (natBits lenBits len)) = .ok (bs, rest) := by
  have hsplit : Slice.ofBits (natBits lenBits len ++ bs) ++ rest =
      Slice.ofBits (natBits lenBits len) ++ (Slice.ofBits bs ++ rest) := by
    ext1 <;> simp [Slice.ofBits]
  have hlengths : lenBits + bs.length ≤ Builder.maxBits := by
    simpa [Slice.ofBits] using h
  refine ⟨Slice.ofBits bs ++ rest, ?_, ?_⟩
  · have hld := ldslice_append (natBits lenBits len)
      (by rw [length_natBits]; omega) (Slice.ofBits bs ++ rest)
    rwa [length_natBits, ← hsplit] at hld
  · rw [natOfBits_natBits hlen, ← hbs]
    exact ldslice_append bs (by omega) rest

theorem lt_two_pow_natBytes (n : ℕ) : n < 2 ^ (8 * Builder.natBytes n) :=
  (Nat.lt_size_self n).trans_le
    (Nat.pow_le_pow_right (by norm_num) (by unfold Builder.natBytes; omega))

theorem roundTrips_stvaruint (lenBits n : ℕ) :
    RoundTrips (Builder.stvaruint lenBits n) (Slice.ldvaruint lenBits) n := by
  intro b b' hb
  unfold Builder.stvaruint at hb
  split at hb
  · rename_i hlen
    refine roundTrips_store (fun h rest => ?_) b b' hb
    obtain ⟨p, hld, hld'⟩ := ldslice_lengthPrefixed hlen (length_natBits _ _) h rest
    rw [Slice.ldvaruint, hld, Except.bind, hld', Except.map,
      natOfBits_natBits (lt_two_pow_natBytes n)]
  · cases hb

theorem intBytes_range (z : ℤ) : -2 ^ (8 * Builder.intBytes z) ≤ 2 * z ∧
    2 * z < 2 ^ (8 * Builder.intBytes z) := by
  have hsize (n w : ℕ) (hw : n.size + 1 ≤ w) : 2 * (n : ℤ) + 2 ≤ 2 ^ w := by
    have hlt := Nat.lt_size_self n
    have hpow : 2 ^ (n.size + 1) ≤ 2 ^ w := Nat.pow_le_pow_right (by norm_num) hw
    rw [pow_succ] at hpow
    exact_mod_cast (by omega : 2 * n + 2 ≤ 2 ^ w)
  match z with
  | .ofNat 0 => simp [Builder.intBytes]
  | .ofNat (n + 1) =>
    have := hsize (n + 1) (8 * Builder.intBytes (.ofNat (n + 1)))
      (by simp only [Builder.intBytes]; omega)
    rw [Int.ofNat_eq_natCast] at this ⊢
    omega
  | .negSucc n =>
    have := hsize n (8 * Builder.intBytes (.negSucc n)) (by simp only [Builder.intBytes]; omega)
    rw [Int.negSucc_eq] at this ⊢
    omega

theorem roundTrips_stvarint (lenBits : ℕ) (z : ℤ) :
    RoundTrips (Builder.stvarint lenBits z) (Slice.ldvarint lenBits) z := by
  intro b b' hb
  unfold Builder.stvarint at hb
  split at hb
  · rename_i hlen
    refine roundTrips_store (fun h rest => ?_) b b' hb
    obtain ⟨p, hld, hld'⟩ := ldslice_lengthPrefixed hlen (length_intBits _ _) h rest
    obtain ⟨hlow, hhigh⟩ := intBytes_range z
    rw [Slice.ldvarint, hld, Except.bind, hld', Except.map, intOfBits_intBits hlow hhigh]
  · cases hb

/-! ## Message addresses are found -/

/-- Between `low` and `high` bits are skipped, whatever follows. -/
def Skips (low high : ℕ) (skip : List Bool → Option (List Bool)) : Prop :=
  ∀ bs rest, skip bs = some rest → (∀ more, skip (bs ++ more) = some (rest ++ more)) ∧
    low + rest.length ≤ bs.length ∧ bs.length ≤ high + rest.length

theorem skipBits_skips (n : ℕ) : Skips n n (skipBits n) := by
  intro bs rest h
  unfold skipBits at h
  split at h
  · rename_i hle
    cases h
    refine ⟨fun more => ?_, ?_, ?_⟩
    · rw [skipBits, if_pos (by rw [List.length_append]; omega), List.drop_append_of_le_length hle]
    · rw [List.length_drop]
      omega
    · rw [List.length_drop]
      omega
  · cases h

theorem Skips.bind {low high low' high' : ℕ} {skip skip' : List Bool → Option (List Bool)}
    (h : Skips low high skip) (h' : Skips low' high' skip') :
    Skips (low + low') (high + high') fun bs => (skip bs).bind skip' := by
  intro bs rest hskip
  obtain ⟨mid, hmid, hrest⟩ := Option.bind_eq_some_iff.mp hskip
  obtain ⟨happend, hlow, hhigh⟩ := h bs mid hmid
  obtain ⟨happend', hlow', hhigh'⟩ := h' mid rest hrest
  refine ⟨fun more => ?_, by omega, by omega⟩
  show (skip (bs ++ more)).bind skip' = _
  rw [happend, Option.bind_some, happend']

theorem skipLengthPrefixed_skips (n k : ℕ) :
    Skips (n + k) (n + (k + (2 ^ n - 1))) (skipLengthPrefixed n k) := by
  intro bs rest h
  obtain ⟨mid, hmid, -⟩ := Option.bind_eq_some_iff.mp h
  have hle : n ≤ bs.length := by
    by_contra hlt
    rw [skipBits, if_neg hlt] at hmid
    cases hmid
  have hlt : natOfBits (bs.take n) < 2 ^ n := by
    have := natOfBits_lt (bs.take n)
    rwa [List.length_take, Nat.min_eq_left hle] at this
  obtain ⟨happend, hlow, hhigh⟩ := (skipBits_skips n).bind
    (skipBits_skips (k + natOfBits (bs.take n))) bs rest h
  refine ⟨fun more => ?_, by omega, by omega⟩
  rw [skipLengthPrefixed, List.take_append_of_le_length hle]
  exact happend more

theorem skipAnycast_skips : Skips 1 37 skipAnycast := by
  intro bs rest h
  match bs with
  | [] => cases h
  | false :: bs =>
    obtain rfl := Option.some.inj h
    rw [List.length_cons]
    exact ⟨fun more => rfl, by omega, by omega⟩
  | true :: bs =>
    rw [skipAnycast] at h
    split at h
    · rename_i hdepth
      obtain ⟨happend, hlow, hhigh⟩ := skipLengthPrefixed_skips 5 0 bs rest h
      have htake (more : List Bool) : (bs ++ more).take 5 = bs.take 5 :=
        List.take_append_of_le_length (by omega)
      rw [List.length_cons]
      refine ⟨fun more => ?_, by omega, by omega⟩
      rw [List.cons_append, skipAnycast, htake, if_pos hdepth, happend]
    · cases h

/-- Bits that are a message address and nothing else. -/
def IsMsgAddress (bs : List Bool) : Prop := skipMsgAddress bs = some []

/-- The bits are an address, with a number of bits that its kind allows. -/
theorem IsMsgAddress.skips {bs : List Bool} (h : IsMsgAddress bs) :
    (∀ more, skipMsgAddress (bs ++ more) = some more) ∧
      ((bs.head? = some false ∧ 2 ≤ bs.length ∧ bs.length ≤ 522) ∨
        (bs.head? = some true ∧ 44 ≤ bs.length ∧ bs.length ≤ 591)) := by
  unfold IsMsgAddress at h
  match bs with
  | [] => cases h
  | [false] => cases h
  | [true] => cases h
  | false :: false :: bs =>
    obtain rfl := Option.some.inj h
    exact ⟨fun _ => rfl, .inl ⟨rfl, by decide, by decide⟩⟩
  | false :: true :: bs =>
    obtain ⟨happend, hlow, hhigh⟩ := skipLengthPrefixed_skips 9 0 bs [] h
    rw [List.length_nil] at hlow hhigh
    rw [List.length_cons, List.length_cons]
    exact ⟨happend, .inl ⟨rfl, by omega, by omega⟩⟩
  | true :: false :: bs =>
    obtain ⟨happend, hlow, hhigh⟩ := skipAnycast_skips.bind (skipBits_skips (8 + 256)) bs [] h
    rw [List.length_nil] at hlow hhigh
    rw [List.length_cons, List.length_cons]
    exact ⟨happend, .inr ⟨rfl, by omega, by omega⟩⟩
  | true :: true :: bs =>
    obtain ⟨happend, hlow, hhigh⟩ := skipAnycast_skips.bind (skipLengthPrefixed_skips 9 32) bs [] h
    rw [List.length_nil] at hlow hhigh
    rw [List.length_cons, List.length_cons]
    exact ⟨happend, .inr ⟨rfl, by omega, by omega⟩⟩

theorem ldmsgaddr_append {bs : List Bool} (h : IsMsgAddress bs) (rest : Slice) :
    (Slice.ofBits bs ++ rest).ldmsgaddr = .ok (bs, rest) := by
  have hskip : skipMsgAddress (Slice.ofBits bs ++ rest).bits = some rest.bits := h.skips.1 rest.bits
  rw [Slice.ldmsgaddr, hskip]
  simp [Slice.ofBits]

theorem roundTrips_msgAddress {bs : List Bool} (h : IsMsgAddress bs) :
    RoundTrips (Builder.stslice bs) Slice.ldmsgaddr bs :=
  roundTrips_store fun _ => ldmsgaddr_append h

theorem isMsgAddress_std {bs : List Bool} (h : bs.length = 8 + 256) :
    IsMsgAddress (natBits 3 4 ++ bs) := by
  show skipBits (8 + 256) bs = some []
  rw [skipBits, if_pos h.ge, ← h, List.drop_length]

theorem roundTrips_staddrStdCompact (v : ℤ × ℕ) :
    RoundTrips (Builder.staddrStdCompact v) Slice.ldaddrStdCompact v := by
  obtain ⟨z, n⟩ := v
  intro b b' hb
  obtain ⟨b₁, htag, hb⟩ := bind_eq_ok.mp hb
  obtain ⟨b₂, hworkchain, haddress⟩ := bind_eq_ok.mp hb
  obtain ⟨-, rfl⟩ := stu_eq_ok htag
  obtain ⟨hz, rfl⟩ := sti_eq_ok hworkchain
  obtain ⟨hn, rfl⟩ := stu_eq_ok haddress
  refine ⟨.ofBits (natBits 3 4 ++ (intBits 8 z ++ natBits 256 n)), ?_, fun rest => ?_⟩
  · simp only [Slice.append_assoc, Slice.ofBits_append]
  have haddr : IsMsgAddress (natBits 3 4 ++ (intBits 8 z ++ natBits 256 n)) :=
    isMsgAddress_std (by rw [List.length_append, length_intBits, length_natBits])
  have htake : (intBits 8 z ++ natBits 256 n).take 8 = intBits 8 z :=
    List.take_left' (length_intBits 8 z)
  have hdrop : (intBits 8 z ++ natBits 256 n).drop 8 = natBits 256 n :=
    List.drop_left' (length_intBits 8 z)
  have htag : natBits 3 4 = [true, false, false] := rfl
  rw [Slice.ldaddrStdCompact, ldmsgaddr_append haddr, Except.bind, htag]
  simp only [List.cons_append, List.nil_append]
  rw [htake, hdrop, intOfBits_intBits hz.1 hz.2, natOfBits_natBits hn]

end TVMCompiler.Sdk
