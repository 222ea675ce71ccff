import TVMCompiler.Sdk.ChainOffset

/-!
# The bits that a value takes

A builder stores a value in a number of bits that depends on the value only, and no parser gets
the value from fewer: numbers with a length prefix are stored with the least length. Bits are
counted in the first cell alone, or in all the cells below it as well.

## Main definitions

* `Cell.totalBits`, `Slice.size`: the bits of a cell and of what is left of it
* `storedBits`: the bits that are stored for a value

## Main results

* `size_of_build`: the builder stores as many bits
* `size_of_parse`: **a value is not parsed from fewer bits**
* `size_of_parseElems`: nor is it from a chain, wherever that is cut
-/

namespace TVMCompiler.Sdk

open Lib

/-! ## Bits of cells -/

mutual

/-- The bits of a cell and of the cells below it. -/
def Cell.totalBits : Cell → ℕ
  | .mk bits refs => bits.length + totalBitsSeq refs

def totalBitsSeq : List Cell → ℕ
  | [] => 0
  | c :: cs => c.totalBits + totalBitsSeq cs

end

/-- What a reference counts: the bits below it, or nothing. -/
def refBits (below : Bool) (c : Cell) : ℕ := if below then c.totalBits else 0

namespace Slice

/-- The bits that are left, with those below the references or without them. -/
def size (below : Bool) (p : Slice) : ℕ :=
  p.bits.length + if below then totalBitsSeq p.refs else 0

variable {below : Bool}

@[simp] theorem size_ofBits (bs : List Bool) : (ofBits bs).size below = bs.length := by
  cases below <;> rfl

@[simp] theorem size_empty : empty.size below = 0 := size_ofBits []

theorem size_ref (bs : List Bool) (c : Cell) (cs : List Cell) :
    size below ⟨bs, c :: cs⟩ = refBits below c + size below ⟨bs, cs⟩ := by
  cases below with
  | false => exact (Nat.zero_add _).symm
  | true => exact Nat.add_left_comm _ _ _

theorem size_append (s t : Slice) : (s ++ t).size below = s.size below + t.size below := by
  obtain ⟨bs, cs⟩ := s
  induction cs with
  | nil =>
    cases below with
    | false => exact List.length_append
    | true =>
      have hlength : (bs ++ t.bits).length = bs.length + t.bits.length := List.length_append
      show (bs ++ t.bits).length + totalBitsSeq t.refs = bs.length + 0 + _
      rw [hlength, Nat.add_assoc]
      rfl
  | cons c cs ih =>
    have hcons : (⟨bs, c :: cs⟩ ++ t : Slice) = ⟨bs ++ t.bits, c :: (cs ++ t.refs)⟩ := rfl
    have htail : (⟨bs, cs⟩ ++ t : Slice) = ⟨bs ++ t.bits, cs ++ t.refs⟩ := rfl
    rw [hcons, size_ref, size_ref, ← htail, ih, Nat.add_assoc]

end Slice

theorem size_ctos (c : Cell) : c.ctos.size true = c.totalBits := by
  cases c
  rfl

theorem totalBits_endc (b : Builder) : b.endc.totalBits = b.size true := rfl

/-! ## Bits of values -/

mutual

/-- The bits that are stored for a value. -/
def storedBits (below : Bool) : (t : Ty) → t.Val → ℕ
  | .bitconst bitlen _, _ => bitlen
  | .bitfield _, (bs : List Bool) => bs.length
  | .bool, _ => 1
  | .uint bitlen, _ => bitlen
  | .int bitlen, _ => bitlen
  | .varuint size, (n : ℕ) => size.lenBits + 8 * Builder.natBytes n
  | .varint size, (z : ℤ) => size.lenBits + 8 * Builder.intBytes z
  | .dict, none => 1
  | .dict, some (c : Cell) => 1 + refBits below c
  | .cell, (c : Cell) => refBits below c
  | .msgAddress _, (bs : List Bool) => bs.length
  | .addrStdCompact, _ => 3 + (8 + 256)
  | .ref t, v => if below then storedBits below t v else 0
  | .optional _, none => 1
  | .optional t, some v => 1 + storedBits below t v
  | .either l _, .inl v => 1 + storedBits below l v
  | .either _ r, .inr v => 1 + storedBits below r v
  | .tuple ts, vs => storedBitsSeq below ts vs
  | .struct ts, vs => storedBitsSeq below ts vs
  | .dynamicBitfield _, (v : List Bool × ℕ) => v.1.length
  | .dynamicUint _, (v : ℕ × ℕ) => v.2
  | .dynamicInt _, (v : ℤ × ℕ) => v.2
  | .variant ts, v => storedBitsVariant below ts v

def storedBitsSeq (below : Bool) : (ts : List Ty) → SeqVal ts → ℕ
  | [], _ => 0
  | t :: ts, (v, vs) => storedBits below t v + storedBitsSeq below ts vs

def storedBitsVariant (below : Bool) : (ts : List Ty) → VariantVal ts → ℕ
  | [], v => nomatch v
  | t :: _, .inl v => storedBits below t v
  | _ :: ts, .inr v => storedBitsVariant below ts v

end

/-! ## What is stored -/

section Stored

variable (below : Bool) {b b' : Builder}

theorem size_of_store {s : Slice} (h : b.store s = .ok b') :
    b'.size below = b.size below + s.size below := by
  rw [store_eq_append h, Slice.size_append]

theorem size_of_stslice {bs : List Bool} (h : b.stslice bs = .ok b') :
    b'.size below = b.size below + bs.length := by
  rw [size_of_store below h, Slice.size_ofBits]

theorem size_of_stu {n len : ℕ} (h : b.stu n len = .ok b') :
    b'.size below = b.size below + len := by
  obtain ⟨-, rfl⟩ := stu_eq_ok h
  rw [Slice.size_append, Slice.size_ofBits, length_natBits]

theorem size_of_sti {z : ℤ} {len : ℕ} (h : b.sti z len = .ok b') :
    b'.size below = b.size below + len := by
  obtain ⟨-, rfl⟩ := sti_eq_ok h
  rw [Slice.size_append, Slice.size_ofBits, length_intBits]

theorem size_of_stref {c : Cell} (h : b.stref c = .ok b') :
    b'.size below = b.size below + refBits below c := by
  rw [size_of_store below h, Slice.size_ref]
  exact congrArg _ (congrArg _ Slice.size_empty)

theorem size_of_stdict {d : Option Cell} (h : b.stdict d = .ok b') :
    b'.size below = b.size below + storedBits below .dict d := by
  cases d with
  | none => exact (size_of_store below h).trans (by rw [Slice.size_ofBits]; rfl)
  | some c =>
    have hbit : Slice.size below ⟨[true], []⟩ = 1 := Slice.size_ofBits [true]
    rw [size_of_store below h, Slice.size_ref, hbit, storedBits, Nat.add_comm (refBits below c)]

theorem size_of_stvaruint {lenBits n : ℕ} (h : b.stvaruint lenBits n = .ok b') :
    b'.size below = b.size below + (lenBits + 8 * Builder.natBytes n) := by
  unfold Builder.stvaruint at h
  split at h
  · rw [size_of_store below h, Slice.size_ofBits, List.length_append, length_natBits, length_natBits]
  · cases h

theorem size_of_stvarint {lenBits : ℕ} {z : ℤ} (h : b.stvarint lenBits z = .ok b') :
    b'.size below = b.size below + (lenBits + 8 * Builder.intBytes z) := by
  unfold Builder.stvarint at h
  split at h
  · rw [size_of_store below h, Slice.size_ofBits, List.length_append, length_natBits, length_intBits]
  · cases h

theorem size_of_staddrStdCompact {v : ℤ × ℕ} (h : b.staddrStdCompact v = .ok b') :
    b'.size below = b.size below + (3 + (8 + 256)) := by
  obtain ⟨b₁, htag, hrest⟩ := bind_eq_ok.mp h
  obtain ⟨b₂, hworkchain, haddress⟩ := bind_eq_ok.mp hrest
  rw [size_of_stu below haddress, size_of_sti below hworkchain, size_of_stu below htag, Nat.add_assoc, Nat.add_assoc]

end Stored

mutual

/-- The builder of a value stores its bits. -/
theorem size_of_build (below : Bool) : ∀ (t : Ty) (v : t.Val) {b b' : Builder},
    build t v b = .ok b' → b'.size below = b.size below + storedBits below t v
  | .bitconst _ _, _, _, _, h => size_of_stu below h
  | .bitfield _, _, _, _, h => size_of_stslice below h
  | .bool, _, _, _, h => size_of_stu below h
  | .uint _, _, _, _, h => size_of_stu below h
  | .int _, _, _, _, h => size_of_sti below h
  | .varuint _, _, _, _, h => size_of_stvaruint below h
  | .varint _, _, _, _, h => size_of_stvarint below h
  | .dict, _, _, _, h => size_of_stdict below h
  | .cell, _, _, _, h => size_of_stref below h
  | .msgAddress _, _, _, _, h => size_of_stslice below h
  | .addrStdCompact, _, _, _, h => size_of_staddrStdCompact below h
  | .ref t, v, b, b', h => by
    obtain ⟨inner, hinner, hstore⟩ := bind_eq_ok.mp h
    rw [size_of_stref below hstore]
    cases below with
    | false => rfl
    | true =>
      have hsize := size_of_build true t v hinner
      rw [Slice.size_empty, Nat.zero_add] at hsize
      exact congrArg _ hsize
  | .optional _, none, _, _, h => size_of_stu below h
  | .optional t, some v, _, _, h => by
    obtain ⟨b₁, hflag, hrest⟩ := bind_eq_ok.mp h
    rw [size_of_build below t v hrest, size_of_stu below hflag, Nat.add_assoc]
    rfl
  | .either l _, .inl v, _, _, h => by
    obtain ⟨b₁, hflag, hrest⟩ := bind_eq_ok.mp h
    rw [size_of_build below l v hrest, size_of_stu below hflag, Nat.add_assoc]
    rfl
  | .either _ r, .inr v, _, _, h => by
    obtain ⟨b₁, hflag, hrest⟩ := bind_eq_ok.mp h
    rw [size_of_build below r v hrest, size_of_stu below hflag, Nat.add_assoc]
    rfl
  | .tuple ts, vs, _, _, h => size_of_buildSeq below ts vs h
  | .struct ts, vs, _, _, h => size_of_buildSeq below ts vs h
  | .dynamicBitfield _, _, _, _, h => size_of_stslice below h
  | .dynamicUint _, _, _, _, h => size_of_stu below h
  | .dynamicInt _, _, _, _, h => size_of_sti below h
  | .variant ts, v, _, _, h => size_of_buildVariant below ts v h

theorem size_of_buildSeq (below : Bool) : ∀ (ts : List Ty) (vs : SeqVal ts) {b b' : Builder},
    buildSeq ts vs b = .ok b' → b'.size below = b.size below + storedBitsSeq below ts vs
  | [], _, _, _, h => by
    obtain rfl := Except.ok.inj h
    rfl
  | t :: ts, (v, vs), _, _, h => by
    obtain ⟨b₁, hfirst, hrest⟩ := bind_eq_ok.mp h
    rw [size_of_buildSeq below ts vs hrest, size_of_build below t v hfirst, Nat.add_assoc]
    rfl

theorem size_of_buildVariant (below : Bool) : ∀ (ts : List Ty) (v : VariantVal ts)
    {b b' : Builder}, buildVariant ts v b = .ok b' →
    b'.size below = b.size below + storedBitsVariant below ts v
  | t :: _, .inl v, _, _, h => size_of_build below t v h
  | _ :: ts, .inr v, _, _, h => size_of_buildVariant below ts v h

end

/-! ## What is loaded -/

section Loaded

variable (below : Bool) {p p' : Slice}

theorem size_of_ldslice {len : ℕ} {bs : List Bool} (h : p.ldslice len = .ok (bs, p')) :
    bs.length = len ∧ len + p'.size below = p.size below := by
  unfold Slice.ldslice at h
  split at h
  · cases h
  split at h
  · cases h
  rename_i hlen
  cases h
  have hdrop : len + (p.bits.drop len).length = p.bits.length := by
    rw [List.length_drop]
    omega
  exact ⟨List.length_take_of_le (not_lt.mp hlen), by rw [Slice.size, ← Nat.add_assoc, hdrop]; rfl⟩

theorem size_of_ldu {len n : ℕ} (h : p.ldu len = .ok (n, p')) :
    len + p'.size below = p.size below := by
  unfold Slice.ldu at h
  split at h
  · cases h
  obtain ⟨⟨bs, q⟩, hld, hr⟩ := map_eq_ok.mp h
  cases hr
  exact (size_of_ldslice below hld).2

theorem size_of_ldi {len : ℕ} {z : ℤ} (h : p.ldi len = .ok (z, p')) :
    len + p'.size below = p.size below := by
  unfold Slice.ldi at h
  split at h
  · cases h
  obtain ⟨⟨bs, q⟩, hld, hr⟩ := map_eq_ok.mp h
  cases hr
  exact (size_of_ldslice below hld).2

theorem size_of_ldref {c : Cell} (h : p.ldref = .ok (c, p')) :
    refBits below c + p'.size below = p.size below := by
  obtain ⟨bits, refs⟩ := p
  cases refs with
  | nil => cases h
  | cons c' refs =>
    cases h
    exact (Slice.size_ref _ _ _).symm

theorem size_of_lddict {d : Option Cell} (h : p.lddict = .ok (d, p')) :
    storedBits below .dict d + p'.size below = p.size below := by
  obtain ⟨⟨bs, q⟩, hld, hrest⟩ := bind_eq_ok.mp h
  obtain ⟨-, hsize⟩ := size_of_ldslice below hld
  dsimp only at hrest
  split at hrest
  · obtain ⟨⟨c, q'⟩, href, hr⟩ := map_eq_ok.mp hrest
    cases hr
    rw [← hsize, ← size_of_ldref below href, storedBits, Nat.add_assoc]
  · cases hrest
    exact hsize

/-- A number is below as many bytes as it is loaded from. -/
theorem natBytes_natOfBits {bs : List Bool} {len : ℕ} (h : bs.length = 8 * len) :
    Builder.natBytes (natOfBits bs) ≤ len := by
  have hsize : (natOfBits bs).size ≤ 8 * len := Nat.size_le.mpr (h ▸ natOfBits_lt bs)
  unfold Builder.natBytes
  omega

/-- The bytes of a number in range, which are needed for it and its sign. -/
theorem size_add_one_le {n len : ℕ} (h : 2 * (n + 1) ≤ 2 ^ (8 * len)) : n.size + 1 ≤ 8 * len := by
  cases len with
  | zero => rw [Nat.mul_zero, pow_zero] at h; omega
  | succ len =>
    have hpow : 2 ^ (8 * (len + 1)) = 2 * 2 ^ (8 * len + 7) := by
      rw [← pow_succ']
      rfl
    have hsize : n.size ≤ 8 * len + 7 := Nat.size_le.mpr (by omega)
    omega

theorem intBytes_intOfBits {bs : List Bool} {len : ℕ} (h : bs.length = 8 * len) :
    Builder.intBytes (intOfBits bs) ≤ len := by
  obtain ⟨hlow, hhigh⟩ := intOfBits_range bs
  rw [h] at hlow hhigh
  match intOfBits bs, hlow, hhigh with
  | .ofNat 0, _, _ => exact Nat.zero_le _
  | .ofNat (n + 1), _, hhigh =>
    have hnat : 2 * (n + 1) < 2 ^ (8 * len) := by
      rw [Int.ofNat_eq_natCast] at hhigh
      exact_mod_cast hhigh
    -- the power of two is even
    have heven : 2 * (n + 1 + 1) ≤ 2 ^ (8 * len) := by
      cases len with
      | zero => rw [Nat.mul_zero, pow_zero] at hnat; omega
      | succ len =>
        have hpow : 2 ^ (8 * (len + 1)) = 2 * 2 ^ (8 * len + 7) := by
          rw [← pow_succ']
          rfl
        omega
    have hsize := size_add_one_le heven
    simp only [Builder.intBytes]
    omega
  | .negSucc n, hlow, _ =>
    have hnat : 2 * (n + 1) ≤ 2 ^ (8 * len) := by
      rw [Int.negSucc_eq] at hlow
      zify
      omega
    have hsize := size_add_one_le hnat
    simp only [Builder.intBytes]
    omega

theorem size_of_ldvaruint {lenBits n : ℕ} (h : p.ldvaruint lenBits = .ok (n, p')) :
    lenBits + 8 * Builder.natBytes n + p'.size below ≤ p.size below := by
  obtain ⟨⟨bs, q⟩, hlen, hrest⟩ := bind_eq_ok.mp h
  obtain ⟨⟨bs', q'⟩, hld, hr⟩ := map_eq_ok.mp hrest
  cases hr
  obtain ⟨-, hsize⟩ := size_of_ldslice below hlen
  obtain ⟨hbs, hsize'⟩ := size_of_ldslice below hld
  have hbytes := natBytes_natOfBits hbs
  dsimp only at hbytes hsize' ⊢
  omega

theorem size_of_ldvarint {lenBits : ℕ} {z : ℤ} (h : p.ldvarint lenBits = .ok (z, p')) :
    lenBits + 8 * Builder.intBytes z + p'.size below ≤ p.size below := by
  obtain ⟨⟨bs, q⟩, hlen, hrest⟩ := bind_eq_ok.mp h
  obtain ⟨⟨bs', q'⟩, hld, hr⟩ := map_eq_ok.mp hrest
  cases hr
  obtain ⟨-, hsize⟩ := size_of_ldslice below hlen
  obtain ⟨hbs, hsize'⟩ := size_of_ldslice below hld
  have hbytes := intBytes_intOfBits hbs
  dsimp only at hbytes hsize' ⊢
  omega

theorem length_of_skipMsgAddress {bs rest : List Bool} (h : skipMsgAddress bs = some rest) :
    rest.length ≤ bs.length := by
  match bs, h with
  | false :: false :: bs, h =>
    obtain rfl := Option.some.inj h
    rw [List.length_cons, List.length_cons]
    omega
  | false :: true :: bs, h =>
    obtain ⟨-, hlow, -⟩ := skipLengthPrefixed_skips 9 0 bs rest h
    rw [List.length_cons, List.length_cons]
    omega
  | true :: false :: bs, h =>
    obtain ⟨-, hlow, -⟩ := skipAnycast_skips.bind (skipBits_skips (8 + 256)) bs rest h
    rw [List.length_cons, List.length_cons]
    omega
  | true :: true :: bs, h =>
    obtain ⟨-, hlow, -⟩ := skipAnycast_skips.bind (skipLengthPrefixed_skips 9 32) bs rest h
    rw [List.length_cons, List.length_cons]
    omega

theorem size_of_ldmsgaddr {bs : List Bool} (h : p.ldmsgaddr = .ok (bs, p')) :
    bs.length + p'.size below = p.size below := by
  unfold Slice.ldmsgaddr at h
  split at h
  · cases h
  rename_i rest hskip
  cases h
  have hlength : (p.bits.take (p.bits.length - rest.length)).length + rest.length =
      p.bits.length := by
    rw [List.length_take]
    have := length_of_skipMsgAddress hskip
    omega
  rw [Slice.size, ← Nat.add_assoc, hlength]
  rfl

theorem size_of_ldaddrStdCompact {v : ℤ × ℕ} (h : p.ldaddrStdCompact = .ok (v, p')) :
    3 + (8 + 256) + p'.size below = p.size below := by
  obtain ⟨⟨bs, q⟩, hld, hrest⟩ := bind_eq_ok.mp h
  dsimp only at hrest
  split at hrest
  · rename_i bs'
    cases hrest
    rw [← size_of_ldmsgaddr below hld]
    -- an address that begins with these bits has no anycast
    obtain ⟨bits, refs⟩ := p
    unfold Slice.ldmsgaddr at hld
    split at hld
    · cases hld
    rename_i rest hskip
    have htake : bits.take (bits.length - rest.length) = true :: false :: false :: bs' :=
      congrArg Prod.fst (Except.ok.inj hld)
    have hbits : bits = true :: false :: false :: (bs' ++ bits.drop (bits.length - rest.length)) := by
      conv_lhs => rw [← List.take_append_drop (bits.length - rest.length) bits, htake]
      rfl
    have hstd : skipBits (8 + 256) (bs' ++ bits.drop (bits.length - rest.length)) = some rest := by
      have hskip' : skipMsgAddress bits = some rest := hskip
      rwa [hbits] at hskip'
    obtain ⟨-, hlow, hhigh⟩ := skipBits_skips (8 + 256) _ _ hstd
    have hlength := congrArg List.length htake
    rw [List.length_take] at hlength
    have htotal := congrArg List.length hbits
    simp only [List.length_cons, List.length_append, List.length_drop] at hlow hhigh hlength htotal
    simp only [List.length_cons]
    omega
  · cases hrest

theorem size_of_parseBitconst {bitlen code : ℕ} {u : Option Unit}
    (h : parseBitconst bitlen code p = .ok (u, p')) : bitlen + p'.size below = p.size below := by
  obtain ⟨⟨n, q⟩, hld, hr⟩ := map_eq_ok.mp h
  cases hr
  exact size_of_ldu below hld

/-- The parser of a load that always gives a value. -/
theorem of_always {α β : Type} {f : α → β} {load : Except TvmException (α × Slice)} {v : β}
    (h : always f load = .ok (some v, p')) : ∃ a, load = .ok (a, p') ∧ f a = v := by
  obtain ⟨⟨a, q⟩, hload, hr⟩ := map_eq_ok.mp h
  cases hr
  exact ⟨a, hload, rfl⟩

theorem of_dynamic {α : Type} {ctx : ParseContext} {field : ℕ} {v : α × ℕ}
    {load : ℕ → Except TvmException (α × Slice)}
    (h : ((dynfieldSize ctx field).bind fun bitlen => always (·, bitlen) (load bitlen)) =
      .ok (some v, p')) : load v.2 = .ok (v.1, p') := by
  obtain ⟨bitlen, -, hrest⟩ := bind_eq_ok.mp h
  obtain ⟨a, hload, rfl⟩ := of_always hrest
  exact hload

theorem of_parseTagged {α : Type} {tag : ℕ} {f : ParseContext → Slice → Parsed α} {v : α}
    (h : parseTagged tag f p = .ok (some v, p')) :
    ∃ q, 1 + q.size below = p.size below ∧ f [⟨.bitconst 1 tag, ()⟩] q = .ok (some v, p') := by
  obtain ⟨⟨u, q⟩, htag, hrest⟩ := bind_eq_ok.mp h
  cases u with
  | none => cases hrest
  | some u => exact ⟨q, size_of_parseBitconst below htag, hrest⟩

end Loaded

mutual

/-- **A value is not parsed from fewer bits** than are stored for it. -/
theorem size_of_parse (below : Bool) : ∀ (t : Ty) (ctx : ParseContext) {p p' : Slice} {v : t.Val},
    parse t ctx p = .ok (some v, p') → storedBits below t v + p'.size below ≤ p.size below
  | .bitconst _ _, _, _, _, _, h => (size_of_parseBitconst below h).le
  | .bitfield _, _, _, _, _, h => by
    obtain ⟨bs, hld, rfl⟩ := of_always h
    obtain ⟨hlength, hsize⟩ := size_of_ldslice below hld
    exact (hlength ▸ hsize).le
  | .bool, _, _, _, _, h => by
    obtain ⟨n, hld, -⟩ := of_always h
    exact (size_of_ldu below hld).le
  | .uint _, _, _, _, _, h => by
    obtain ⟨n, hld, -⟩ := of_always h
    exact (size_of_ldu below hld).le
  | .int _, _, _, _, _, h => by
    obtain ⟨z, hld, -⟩ := of_always h
    exact (size_of_ldi below hld).le
  | .varuint _, _, _, _, _, h => by
    obtain ⟨n, hld, rfl⟩ := of_always h
    exact size_of_ldvaruint below hld
  | .varint _, _, _, _, _, h => by
    obtain ⟨z, hld, rfl⟩ := of_always h
    exact size_of_ldvarint below hld
  | .dict, _, _, _, _, h => by
    obtain ⟨d, hld, rfl⟩ := of_always h
    exact (size_of_lddict below hld).le
  | .cell, _, _, _, _, h => by
    obtain ⟨c, hld, rfl⟩ := of_always h
    exact (size_of_ldref below hld).le
  | .msgAddress _, _, _, _, _, h => by
    obtain ⟨bs, hld, rfl⟩ := of_always h
    exact (size_of_ldmsgaddr below hld).le
  | .addrStdCompact, _, _, _, _, h => by
    obtain ⟨v, hld, -⟩ := of_always h
    exact (size_of_ldaddrStdCompact below hld).le
  | .ref t, ctx, p, p', v, h => by
    obtain ⟨⟨c, q⟩, href, hrest⟩ := bind_eq_ok.mp h
    obtain ⟨⟨w, q'⟩, hparse, hends⟩ := bind_eq_ok.mp hrest
    obtain ⟨-, -, hr⟩ := bind_eq_ok.mp hends
    cases w with
    | none => cases hr
    | some w =>
      cases hr
      rw [← size_of_ldref below href]
      refine Nat.add_le_add_right ?_ _
      cases below with
      | false => exact Nat.zero_le _
      | true =>
        have hsize := size_of_parse true t ctx hparse
        rw [size_ctos] at hsize
        exact (Nat.le_add_right _ _).trans hsize
  | .optional t, ctx, p, p', v, h => by
    obtain ⟨⟨n, q⟩, hflag, hrest⟩ := bind_eq_ok.mp h
    have hsize := size_of_ldu below hflag
    dsimp only at hrest
    split at hrest
    · obtain ⟨⟨w, q'⟩, hparse, hr⟩ := map_eq_ok.mp hrest
      cases w with
      | none => cases hr
      | some w =>
        cases hr
        have hvalue := size_of_parse below t ctx hparse
        show 1 + storedBits below t w + q'.size below ≤ _
        omega
    · cases hrest
      exact hsize.le
  | .either l r, _, p, p', v, h => by
    obtain ⟨⟨w, q⟩, hleft, hrest⟩ := bind_eq_ok.mp h
    cases w with
    | some w =>
      cases hrest
      obtain ⟨q', hsize, hparse⟩ := of_parseTagged below hleft
      have hvalue := size_of_parse below l _ hparse
      show 1 + storedBits below l w + q.size below ≤ _
      omega
    | none =>
      obtain ⟨⟨w, q'⟩, hright, hr⟩ := map_eq_ok.mp hrest
      cases w with
      | none => cases hr
      | some w =>
        cases hr
        obtain ⟨q'', hsize, hparse⟩ := of_parseTagged below hright
        have hvalue := size_of_parse below r _ hparse
        show 1 + storedBits below r w + q'.size below ≤ _
        omega
  | .tuple ts, _, _, _, _, h => size_of_parseSeq below false ts [] (map_restart_eq_some.mp h)
  | .struct ts, _, _, _, _, h => size_of_parseSeq below true ts [] (map_restart_eq_some.mp h)
  | .dynamicBitfield _, _, _, _, _, h => by
    obtain ⟨hlength, hsize⟩ := size_of_ldslice below (of_dynamic h)
    exact (hlength ▸ hsize).le
  | .dynamicUint _, _, _, _, _, h => (size_of_ldu below (of_dynamic h)).le
  | .dynamicInt _, _, _, _, _, h => (size_of_ldi below (of_dynamic h)).le
  | .variant ts, ctx, _, _, _, h => size_of_parseVariant below ts ctx h

theorem size_of_parseSeq (below : Bool) (isStruct : Bool) : ∀ (ts : List Ty) (ctx : ParseContext)
    {p p' : Slice} {vs : SeqVal ts}, parseSeq isStruct ts ctx p = .ok (some vs, p') →
    storedBitsSeq below ts vs + p'.size below ≤ p.size below
  | [], _, _, _, _, h => by
    cases h
    exact (Nat.zero_add _).le
  | t :: ts, ctx, p, p', vs, h => by
    obtain ⟨⟨v, q⟩, hfirst, hrest⟩ := bind_eq_ok.mp h
    cases v with
    | none => cases hrest
    | some v =>
      obtain ⟨⟨vs', q'⟩, hseq, hr⟩ := map_eq_ok.mp hrest
      cases vs' with
      | none => cases hr
      | some vs' =>
        cases hr
        have hhead := size_of_parse below t ctx hfirst
        have htail : _ ≤ q.size below := size_of_parseSeq below isStruct ts _ hseq
        show storedBits below t v + storedBitsSeq below ts vs' + q'.size below ≤ _
        omega

theorem size_of_parseVariant (below : Bool) : ∀ (ts : List Ty) (ctx : ParseContext)
    {p p' : Slice} {v : VariantVal ts}, parseVariant ts ctx p = .ok (some v, p') →
    storedBitsVariant below ts v + p'.size below ≤ p.size below
  | [t], ctx, _, _, _, h => by
    obtain ⟨⟨w, q⟩, hparse, hr⟩ := map_eq_ok.mp h
    cases w with
    | none => cases hr
    | some w =>
      cases hr
      exact size_of_parse below t ctx hparse
  | t :: t' :: ts, ctx, p, p', v, h => by
    obtain ⟨⟨w, q⟩, hparse, hrest⟩ := bind_eq_ok.mp h
    cases w with
    | some w =>
      cases hrest
      exact size_of_parse below t ctx hparse
    | none =>
      obtain ⟨⟨w, q'⟩, hnext, hr⟩ := map_eq_ok.mp hrest
      cases w with
      | none => cases hr
      | some w =>
        cases hr
        exact size_of_parseVariant below (t' :: ts) ctx hnext

end

/-! ## Chains -/

/-- The bits that are stored for a row of elements. -/
def elemsBits (below : Bool) (l : List Elem) : ℕ := storedBitsSeq below (types l) (tupleVal l)

section Elems

variable (below : Bool)

theorem elemsBits_cons (e : Elem) (l : List Elem) :
    elemsBits below (e :: l) = storedBits below e.1 e.2 + elemsBits below l := rfl

theorem elemsBits_append (l l' : List Elem) :
    elemsBits below (l ++ l') = elemsBits below l + elemsBits below l' := by
  induction l with
  | nil => exact (Nat.zero_add _).symm
  | cons e l ih => rw [List.cons_append, elemsBits_cons, ih, elemsBits_cons, Nat.add_assoc]

theorem elemsBits_elems (ts : List Ty) (vs : SeqVal ts) :
    elemsBits below (elems ts vs) = storedBitsSeq below ts vs := by
  induction ts with
  | nil => rfl
  | cons t ts ih =>
    obtain ⟨v, vs⟩ := vs
    exact congrArg (storedBits below t v + ·) (ih vs)

mutual

/-- The leaves of a value take its bits. -/
theorem elemsBits_expandElem : ∀ (t : Ty) (v : t.Val),
    elemsBits below (expandElem t v) = storedBits below t v
  | .tuple ts, vs => elemsBits_makeExpandedTuple ts vs
  | .struct ts, vs => elemsBits_makeExpandedTuple ts vs
  | .bitconst _ _, _ | .bitfield _, _ | .bool, _ | .uint _, _ | .int _, _ | .varuint _, _
  | .varint _, _ | .dict, _ | .cell, _ | .msgAddress _, _ | .addrStdCompact, _ | .ref _, _
  | .optional _, _ | .either _ _, _ | .dynamicBitfield _, _ | .dynamicUint _, _
  | .dynamicInt _, _ | .variant _, _ => Nat.add_zero _

theorem elemsBits_makeExpandedTuple : ∀ (ts : List Ty) (vs : SeqVal ts),
    elemsBits below (makeExpandedTuple ts vs) = storedBitsSeq below ts vs
  | [], _ => rfl
  | t :: ts, (v, vs) => by
    rw [makeExpandedTuple, elemsBits_append, elemsBits_expandElem t v,
      elemsBits_makeExpandedTuple ts vs]
    rfl

end

end Elems

/-- Nesting keeps the bits. -/
theorem elemsBits_nest (sizes : List ℕ) (l : List Elem) :
    elemsBits true (nest sizes l) = elemsBits true l := by
  induction sizes generalizing l with
  | nil => rfl
  | cons n sizes ih =>
    have href : elemsBits true [Elem.ref (nest sizes (l.drop n))] = elemsBits true (l.drop n) :=
      (Nat.add_zero _).trans (ih (l.drop n))
    rw [nest, elemsBits_append, href, ← elemsBits_append, List.take_append_drop]

theorem elemsBits_unwrap {l l' : List Elem} (h : unwrap l = some l') :
    elemsBits true l' = elemsBits true l := by
  fun_induction unwrap l with
  | case1 => cases h
  | case2 ts vs ih =>
    rw [ih h]
    exact (elemsBits_elems true ts vs).trans (Nat.add_zero _).symm
  | case3 => cases h
  | case4 =>
    obtain rfl := Option.some.inj h
    rfl

theorem elemsBits_popFront {l : List Elem} {r : Elem × List Elem} (h : popFront l = some r) :
    storedBits true r.1.1 r.1.2 + elemsBits true r.2 = elemsBits true l := by
  cases l with
  | nil => cases h
  | cons e l =>
    obtain rfl := Option.some.inj h
    rfl

theorem elemsBits_unwrap_popFront {l : List Elem} {r : Elem × List Elem}
    (h : (unwrap l).bind popFront = some r) :
    storedBits true r.1.1 r.1.2 + elemsBits true r.2 = elemsBits true l := by
  obtain ⟨l', hunwrap, hpop⟩ := Option.bind_eq_some_iff.mp h
  rw [elemsBits_popFront hpop, elemsBits_unwrap hunwrap]

mutual

/-- What is folded takes the bits of what is taken. -/
theorem elemsBits_foldElem : ∀ (t : Ty) {l : List Elem} {r : Elem × List Elem},
    foldElem t l = some r → storedBits true r.1.1 r.1.2 + elemsBits true r.2 = elemsBits true l
  | .tuple ts, l, r, h => by
    obtain ⟨l', hunwrap, hrest⟩ := Option.bind_eq_some_iff.mp h
    obtain ⟨r', hfold, rfl⟩ := Option.map_eq_some_iff.mp hrest
    rw [← elemsBits_unwrap hunwrap]
    exact elemsBits_foldSeq ts hfold
  | .struct ts, l, r, h => by
    obtain ⟨l', hunwrap, hrest⟩ := Option.bind_eq_some_iff.mp h
    obtain ⟨r', hfold, rfl⟩ := Option.map_eq_some_iff.mp hrest
    rw [← elemsBits_unwrap hunwrap]
    exact elemsBits_foldSeq ts hfold
  | .ref _, _, _, h => elemsBits_popFront h
  | .bitconst _ _, _, _, h | .bitfield _, _, _, h | .bool, _, _, h | .uint _, _, _, h
  | .int _, _, _, h | .varuint _, _, _, h | .varint _, _, _, h | .dict, _, _, h | .cell, _, _, h
  | .msgAddress _, _, _, h | .addrStdCompact, _, _, h | .optional _, _, _, h
  | .either _ _, _, _, h | .dynamicBitfield _, _, _, h | .dynamicUint _, _, _, h
  | .dynamicInt _, _, _, h | .variant _, _, _, h => elemsBits_unwrap_popFront h

theorem elemsBits_foldSeq : ∀ (ts : List Ty) {l : List Elem} {r : List Elem × List Elem},
    foldSeq ts l = some r → elemsBits true r.1 + elemsBits true r.2 = elemsBits true l
  | [], l, r, h => by
    obtain rfl := Option.some.inj h
    exact Nat.zero_add _
  | t :: ts, l, r, h => by
    obtain ⟨s, hfirst, hrest⟩ := Option.bind_eq_some_iff.mp h
    obtain ⟨s', hseq, rfl⟩ := Option.map_eq_some_iff.mp hrest
    rw [← elemsBits_foldElem t hfirst, ← elemsBits_foldSeq ts hseq, elemsBits_cons, Nat.add_assoc]

end

/-- What is not folded is nothing. -/
theorem elemsBits_chainFoldTup {ts : List Ty} {l r : List Elem} (h : chainFoldTup ts l = some r) :
    elemsBits true r = elemsBits true l := by
  obtain ⟨⟨r', rest⟩, hfold, hrest⟩ := Option.bind_eq_some_iff.mp h
  cases rest with
  | nil =>
    obtain rfl := Option.some.inj hrest
    exact elemsBits_foldSeq ts hfold
  | cons e rest => cases hrest

theorem elemsBits_makeChainTuple {offset refsOffset : ℕ} {ts : List Ty} {vs : SeqVal ts}
    {l : List Elem} (h : makeChainTuple offset refsOffset ts vs = some l) :
    elemsBits true l = storedBitsSeq true ts vs := by
  rw [← elemsBits_makeExpandedTuple]
  by_cases hnil : makeExpandedTuple ts vs = []
  · unfold makeChainTuple at h
    rw [hnil] at h ⊢
    obtain rfl := Option.some.inj h
    rfl
  · rw [makeChainTuple_of_ne_nil hnil] at h
    obtain ⟨sizes, -, rfl⟩ := Option.map_eq_some_iff.mp h
    exact elemsBits_nest sizes _

theorem totalBits_of_buildElems {l : List Elem} {c : Cell} (h : buildElems l = .ok c) :
    c.totalBits = elemsBits true l := by
  obtain ⟨b, hbuild, rfl⟩ := map_eq_ok.mp h
  have hsize := size_of_build true _ _ hbuild
  rw [Slice.size_empty, Nat.zero_add] at hsize
  exact (totalBits_endc b).trans hsize

namespace Read

variable {α β : Type}

theorem bind_eq_value {x : Read α} {f : α → Read β} {b : β} :
    x.bind f = value b ↔ ∃ a, x = value a ∧ f a = value b := by
  constructor
  · rcases x with _ | e | a
    · rintro ⟨⟩
    · rintro ⟨⟩
    · exact fun h => ⟨a, rfl, h⟩
  · rintro ⟨a, rfl, h⟩
    exact h

theorem map_eq_value {x : Read α} {f : α → β} {b : β} :
    x.map f = value b ↔ ∃ a, x = value a ∧ f a = b := by
  rw [map, bind_eq_value]
  exact exists_congr fun a => and_congr_right fun _ => ⟨fun h => by cases h; rfl, congrArg value⟩

theorem ofLoad_eq_value {x : Except TvmException α} {a : α} : ofLoad x = value a ↔ x = .ok a := by
  cases x with
  | error e => exact ⟨nofun, nofun⟩
  | ok a' => exact ⟨fun h => by cases h; rfl, fun h => by cases h; rfl⟩

theorem ofParsed_eq_value {x : Parsed α} {e : ParseError} {a : α} {p : Slice} :
    ofParsed x e = value (a, p) ↔ x = .ok (some a, p) := by
  rw [ofParsed, bind_eq_value]
  constructor
  · rintro ⟨⟨_ | a', q⟩, hload, hvalue⟩
    · cases hvalue
    · cases hvalue
      exact ofLoad_eq_value.mp hload
  · rintro rfl
    exact ⟨_, rfl, rfl⟩

end Read

theorem size_of_parseSeq_elems {isStruct : Bool} {ts : List Ty} {p p' : Slice} {vs : SeqVal ts}
    (h : parseSeq isStruct ts [] p = .ok (some vs, p')) :
    elemsBits true (elems ts vs) ≤ p.size true := by
  rw [elemsBits_elems]
  exact (Nat.le_add_right _ _).trans (size_of_parseSeq true isStruct ts [] h)

/-- **Nor are the elements of a chain parsed from fewer bits**, wherever the chain is cut. -/
theorem size_of_parseElems {offset refsOffset : ℕ} {ts : List Ty} {p : Slice} {l : List Elem}
    (h : parseElems offset refsOffset ts p = .value l) : elemsBits true l ≤ p.size true := by
  obtain ⟨linear, -, hfold⟩ := Option.bind_eq_some_iff.mp h
  obtain ⟨⟨vs, q⟩, hparsed, hrest⟩ := Read.bind_eq_value.mp hfold
  obtain ⟨l', hl', heq⟩ := Option.map_eq_some_iff.mp hrest
  obtain rfl := Except.ok.inj heq
  rw [elemsBits_chainFoldTup hl']
  exact size_of_parseSeq_elems (map_restart_eq_some.mp (Read.ofParsed_eq_value.mp hparsed))

end TVMCompiler.Sdk
