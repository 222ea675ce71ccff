import TVMCompiler.Sdk.Estimate

/-!
# Structures of the C SDK

A structure is described once, by a list of `FIELD_` macros, and the description is expanded three
times: to the declaration, to the function that serializes it and to the one that deserializes it.
`FIELD_ARRAY` expands to nothing yet and is left out.

## Main definitions

* `Field`, `Field.Val`: the macros, and the members they declare
* `serialize`, `deserialize`: the expansions `Serialize_…_Impl` and `Deserialize_…_Impl`
* `FitsStruct`: numbers fit their widths, length prefixes cover their numbers, flags are 0 or 1
* `WithinMachine`: no number is wider than the machine can store

## Main results

* `serialize_roundTrips`: deserializing undoes serializing
* `serialize_storesBits`: serializing succeeds when there is room
* `deserialize_serialize`: both together, in front of any other content
* `withinMachine_of_narrow`: structures with short length prefixes stay within the machine
-/

namespace TVMCompiler.CSdk

open Lib Sdk

/-! ## Descriptions and values -/

inductive Field where
  | constantUnsigned (value size : ℕ)
  | unsigned (size : ℕ)
  | signed (size : ℕ)
  | varUnsigned (size : ℕ)
  | varSigned (size : ℕ)
  | complex (type : List Field)
  | maybe (type : List Field)

/-- `struct { int len; int value; }`, with a length in bytes. -/
structure VarNumber where
  len : ℤ
  value : ℤ
  deriving DecidableEq, Repr

/-- `struct { int just; type value; }`. -/
@[ext]
structure Maybe (α : Type) where
  just : ℤ
  value : α

mutual

/-- The member that a macro declares. A constant declares none. -/
def Field.Val : Field → Type
  | .constantUnsigned _ _ => Unit
  | .unsigned _ => ℤ
  | .signed _ => ℤ
  | .varUnsigned _ => VarNumber
  | .varSigned _ => VarNumber
  | .complex type => StructVal type
  | .maybe type => Maybe (StructVal type)

def StructVal : List Field → Type
  | [] => Unit
  | f :: fs => f.Val × StructVal fs

end

/-! ## Intrinsics -/

/-- What ends a run: an exception of the machine, or `tvm_assert`. -/
inductive CException where
  | machine (e : TvmException)
  | thrown (code : ℕ)
  deriving DecidableEq, Repr

/-- `__builtin_tvm_stu`. -/
def builtinStu (value : ℤ) (size : ℤ) (b : Builder) : Except CException Builder :=
  if 0 ≤ value ∧ 0 ≤ size then (b.stu value.toNat size.toNat).mapError .machine
  else .error (.machine .rangeCheck)

/-- `__builtin_tvm_sti`. -/
def builtinSti (value : ℤ) (size : ℤ) (b : Builder) : Except CException Builder :=
  if 0 ≤ size then (b.sti value size.toNat).mapError .machine else .error (.machine .rangeCheck)

/-- `__tvm_ldu`. -/
def tvmLdu (width : ℤ) (p : Slice) : Except CException (ℤ × Slice) :=
  if 0 ≤ width then ((p.ldu width.toNat).mapError .machine).map fun r => ((r.1 : ℤ), r.2)
  else .error (.machine .rangeCheck)

/-- `__tvm_ldi`. -/
def tvmLdi (width : ℤ) (p : Slice) : Except CException (ℤ × Slice) :=
  if 0 ≤ width then (p.ldi width.toNat).mapError .machine else .error (.machine .rangeCheck)

/-! ## Serializing and deserializing -/

mutual

def serializeField : (f : Field) → f.Val → Builder → Except CException Builder
  | .constantUnsigned value size, _, b => builtinStu value size b
  | .unsigned size, z, b => builtinStu z size b
  | .signed size, z, b => builtinSti z size b
  | .varUnsigned size, (v : VarNumber), b =>
    (builtinStu v.len size b).bind (builtinStu v.value (v.len * 8))
  | .varSigned size, (v : VarNumber), b =>
    (builtinStu v.len size b).bind (builtinSti v.value (v.len * 8))
  | .complex type, v, b => serialize type v b
  | .maybe type, (v : Maybe (StructVal type)), b =>
    if v.just ≠ 0 then (builtinStu 1 1 b).bind (serialize type v.value) else builtinStu 0 1 b

/-- `Serialize_…_Impl`. -/
def serialize : (fs : List Field) → StructVal fs → Builder → Except CException Builder
  | [], _, b => .ok b
  | f :: fs, (v, vs), b => (serializeField f v b).bind (serialize fs vs)

end

mutual

/-- What is not assigned keeps the content that the result had uninitialized. -/
def deserializeField : (f : Field) → f.Val → Slice → Except CException (f.Val × Slice)
  | .constantUnsigned value size, _, p =>
    (tvmLdu size p).bind fun r => if r.1 = value then .ok ((), r.2) else .error (.thrown 59)
  | .unsigned size, _, p => tvmLdu size p
  | .signed size, _, p => tvmLdi size p
  | .varUnsigned size, _, p =>
    (tvmLdu size p).bind fun r => (tvmLdu (r.1 * 8) r.2).map fun s => (⟨r.1, s.1⟩, s.2)
  | .varSigned size, _, p =>
    (tvmLdu size p).bind fun r => (tvmLdi (r.1 * 8) r.2).map fun s => (⟨r.1, s.1⟩, s.2)
  | .complex type, res, p => deserialize type res p
  | .maybe type, (res : Maybe (StructVal type)), p =>
    (tvmLdu 1 p).bind fun r =>
      if r.1 ≠ 0 then (deserialize type res.value r.2).map fun s => (⟨r.1, s.1⟩, s.2)
      else .ok (⟨r.1, res.value⟩, r.2)

/-- `Deserialize_…_Impl`. -/
def deserialize : (fs : List Field) → StructVal fs → Slice →
    Except CException (StructVal fs × Slice)
  | [], _, p => .ok ((), p)
  | f :: fs, (res, ress), p =>
    (deserializeField f res p).bind fun r =>
      (deserialize fs ress r.2).map fun s => ((r.1, s.1), s.2)

end

/-! ## Values -/

mutual

/-- Numbers fit their widths, length prefixes cover their numbers, and flags are 0 or 1. -/
def Fits : (f : Field) → f.Val → Prop
  | .constantUnsigned value size, _ => value < 2 ^ size
  | .unsigned size, (z : ℤ) => 0 ≤ z ∧ z < 2 ^ size
  | .signed size, (z : ℤ) => -2 ^ size ≤ 2 * z ∧ 2 * z < 2 ^ size
  | .varUnsigned size, (v : VarNumber) =>
    (0 ≤ v.len ∧ v.len < 2 ^ size) ∧ 0 ≤ v.value ∧ v.value < 2 ^ (8 * v.len.toNat)
  | .varSigned size, (v : VarNumber) =>
    (0 ≤ v.len ∧ v.len < 2 ^ size) ∧
      -2 ^ (8 * v.len.toNat) ≤ 2 * v.value ∧ 2 * v.value < 2 ^ (8 * v.len.toNat)
  | .complex type, v => FitsStruct type v
  | .maybe type, (v : Maybe (StructVal type)) =>
    v.just = 0 ∨ v.just = 1 ∧ FitsStruct type v.value

def FitsStruct : (fs : List Field) → StructVal fs → Prop
  | [], _ => True
  | f :: fs, (v, vs) => Fits f v ∧ FitsStruct fs vs

end

mutual

/-- The machine stores at most 256 bits of an unsigned number at once, and 257 of a signed one. -/
def WithinMachine : (f : Field) → f.Val → Prop
  | .constantUnsigned _ size, _ => size ≤ 256
  | .unsigned size, _ => size ≤ 256
  | .signed size, _ => size ≤ 257
  | .varUnsigned size, (v : VarNumber) => size ≤ 256 ∧ v.len * 8 ≤ 256
  | .varSigned size, (v : VarNumber) => size ≤ 256 ∧ v.len * 8 ≤ 257
  | .complex type, v => StructWithinMachine type v
  | .maybe type, (v : Maybe (StructVal type)) => v.just ≠ 0 → StructWithinMachine type v.value

def StructWithinMachine : (fs : List Field) → StructVal fs → Prop
  | [], _ => True
  | f :: fs, (v, vs) => WithinMachine f v ∧ StructWithinMachine fs vs

end

mutual

/-- The number of bits that a value takes. -/
def bitSize : (f : Field) → f.Val → ℕ
  | .constantUnsigned _ size, _ => size
  | .unsigned size, _ => size
  | .signed size, _ => size
  | .varUnsigned size, (v : VarNumber) => size + 8 * v.len.toNat
  | .varSigned size, (v : VarNumber) => size + 8 * v.len.toNat
  | .complex type, v => structBitSize type v
  | .maybe type, (v : Maybe (StructVal type)) =>
    if v.just ≠ 0 then 1 + structBitSize type v.value else 1

def structBitSize : (fs : List Field) → StructVal fs → ℕ
  | [], _ => 0
  | f :: fs, (v, vs) => bitSize f v + structBitSize fs vs

end

mutual

/-- The values agree, but for the contents of absent maybe fields. -/
def Agree : (f : Field) → f.Val → f.Val → Prop
  | .maybe type, (v : Maybe (StructVal type)), (w : Maybe (StructVal type)) =>
    v.just = w.just ∧ (v.just ≠ 0 → AgreeStruct type v.value w.value)
  | .complex type, v, w => AgreeStruct type v w
  | .constantUnsigned _ _, _, _ => True
  | .unsigned _, (v : ℤ), (w : ℤ) => v = w
  | .signed _, (v : ℤ), (w : ℤ) => v = w
  | .varUnsigned _, (v : VarNumber), (w : VarNumber) => v = w
  | .varSigned _, (v : VarNumber), (w : VarNumber) => v = w

def AgreeStruct : (fs : List Field) → StructVal fs → StructVal fs → Prop
  | [], _, _ => True
  | f :: fs, (v, vs), (w, ws) => Agree f v w ∧ AgreeStruct fs vs ws

end

mutual

/-- The value that is read when `v` was written. -/
def received : (f : Field) → f.Val → f.Val → f.Val
  | .maybe type, (res : Maybe (StructVal type)), (v : Maybe (StructVal type)) =>
    ⟨v.just, if v.just ≠ 0 then receivedStruct type res.value v.value else res.value⟩
  | .complex type, res, v => receivedStruct type res v
  | .constantUnsigned _ _, _, v => v
  | .unsigned _, _, v => v
  | .signed _, _, v => v
  | .varUnsigned _, _, v => v
  | .varSigned _, _, v => v

def receivedStruct : (fs : List Field) → StructVal fs → StructVal fs → StructVal fs
  | [], _, _ => ()
  | f :: fs, (res, ress), (v, vs) => (received f res v, receivedStruct fs ress vs)

end

mutual

theorem received_agree : ∀ (f : Field) (res v : f.Val), Agree f (received f res v) v
  | .maybe type, (res : Maybe (StructVal type)), (v : Maybe (StructVal type)) => by
    refine ⟨rfl, fun (hjust : v.just ≠ 0) => ?_⟩
    have hread : (if v.just ≠ 0 then receivedStruct type res.value v.value else res.value) =
        receivedStruct type res.value v.value := if_pos hjust
    show AgreeStruct type
      (if v.just ≠ 0 then receivedStruct type res.value v.value else res.value) v.value
    rw [hread]
    exact receivedStruct_agree type res.value v.value
  | .complex type, res, v => receivedStruct_agree type res v
  | .constantUnsigned _ _, _, _ => trivial
  | .unsigned _, _, _ => rfl
  | .signed _, _, _ => rfl
  | .varUnsigned _, _, _ => rfl
  | .varSigned _, _, _ => rfl

theorem receivedStruct_agree : ∀ (fs : List Field) (res v : StructVal fs),
    AgreeStruct fs (receivedStruct fs res v) v
  | [], _, _ => trivial
  | f :: fs, (res, ress), (v, vs) => ⟨received_agree f res v, receivedStruct_agree fs ress vs⟩

end

/-! ## Deserializing undoes serializing -/

theorem roundTrips_builtinStu (z size : ℤ) : RoundTrips (builtinStu z size) (tvmLdu size) z := by
  intro b b' hb
  unfold builtinStu at hb
  split at hb
  · rename_i hz
    obtain ⟨s, hs, hload⟩ := roundTrips_stu _ _ b b' (mapError_eq_ok.mp hb)
    refine ⟨s, hs, fun rest => ?_⟩
    rw [tvmLdu, if_pos hz.2, hload]
    show Except.ok (((z.toNat : ℕ) : ℤ), rest) = _
    rw [Int.toNat_of_nonneg hz.1]
  · cases hb

theorem roundTrips_builtinSti (z size : ℤ) : RoundTrips (builtinSti z size) (tvmLdi size) z := by
  intro b b' hb
  unfold builtinSti at hb
  split at hb
  · rename_i hsize
    obtain ⟨s, hs, hload⟩ := roundTrips_sti _ _ b b' (mapError_eq_ok.mp hb)
    refine ⟨s, hs, fun rest => ?_⟩
    rw [tvmLdi, if_pos hsize, hload]
    rfl
  · cases hb

/-- A constant is found where it was written. -/
theorem constantUnsigned_roundTrips (value size : ℕ) (res : Unit) :
    RoundTrips (serializeField (.constantUnsigned value size) ())
      (deserializeField (.constantUnsigned value size) res) () := by
  intro b b' hb
  obtain ⟨s, hs, hload⟩ := roundTrips_builtinStu value size b b' hb
  refine ⟨s, hs, fun rest => ?_⟩
  show Except.bind (tvmLdu size (s ++ rest)) _ = _
  rw [hload]
  exact if_pos rfl

/-- The number is loaded with the length that its prefix states, in bytes on both sides. -/
theorem lengthPrefixed_roundTrips {write : ℤ → ℤ → Builder → Except CException Builder}
    {read : ℤ → Slice → Except CException (ℤ × Slice)}
    (h : ∀ z size, RoundTrips (write z size) (read size) z) (size : ℕ) (v : VarNumber) :
    RoundTrips (fun b => (builtinStu v.len size b).bind (write v.value (v.len * 8)))
      (fun p => (tvmLdu size p).bind fun r =>
        (read (r.1 * 8) r.2).map fun s => (VarNumber.mk r.1 s.1, s.2)) v :=
  (roundTrips_builtinStu v.len size).bind
    (fun len p => (read (len * 8) p).map fun s => (VarNumber.mk len s.1, s.2))
    ((h v.value (v.len * 8)).map (VarNumber.mk v.len))

theorem maybe_roundTrips {type : List Field} {res v : Maybe (StructVal type)}
    (hflag : v.just = 0 ∨ v.just = 1)
    (h : v.just ≠ 0 → RoundTrips (serialize type v.value) (deserialize type res.value)
      (receivedStruct type res.value v.value)) :
    RoundTrips (serializeField (.maybe type) v) (deserializeField (.maybe type) res)
      (received (.maybe type) res v) := by
  obtain ⟨just, value⟩ := v
  rcases hflag with rfl | rfl
  · -- the flag alone is written, and the content of the result stays
    intro b b' hb
    obtain ⟨s, hs, hload⟩ := roundTrips_builtinStu 0 1 b b' hb
    refine ⟨s, hs, fun rest => ?_⟩
    rw [deserializeField, hload]
    rfl
  · have hvalue := h Int.one_ne_zero
    refine (roundTrips_builtinStu 1 1).bind (fun flag p =>
      if flag ≠ 0 then (deserialize type res.value p).map fun s => (Maybe.mk flag s.1, s.2)
      else .ok (⟨flag, res.value⟩, p)) ?_
    exact hvalue.map (Maybe.mk 1)

mutual

theorem serializeField_roundTrips : ∀ (f : Field) (res v : f.Val), Fits f v →
    RoundTrips (serializeField f v) (deserializeField f res) (received f res v)
  | .constantUnsigned value size, res, _, _ => constantUnsigned_roundTrips value size res
  | .unsigned size, _, z, _ => roundTrips_builtinStu z size
  | .signed size, _, z, _ => roundTrips_builtinSti z size
  | .varUnsigned size, _, v, _ => lengthPrefixed_roundTrips roundTrips_builtinStu size v
  | .varSigned size, _, v, _ => lengthPrefixed_roundTrips roundTrips_builtinSti size v
  | .complex type, res, v, hfits => serialize_roundTrips type res v hfits
  | .maybe type, res, v, hfits => maybe_roundTrips (hfits.imp_right And.left) fun hjust =>
      serialize_roundTrips type res.value v.value (hfits.resolve_left hjust).2

/-- **Deserializing undoes serializing**, by recursion on the description. -/
theorem serialize_roundTrips : ∀ (fs : List Field) (res v : StructVal fs), FitsStruct fs v →
    RoundTrips (serialize fs v) (deserialize fs res) (receivedStruct fs res v)
  | [], _, _, _ => by
    intro b b' hb
    cases hb
    exact ⟨.empty, (Slice.append_empty b).symm, fun rest => rfl⟩
  | f :: fs, (res, ress), (v, vs), hfits => by
    refine (serializeField_roundTrips f res v hfits.1).bind
      (fun w p => (deserialize fs ress p).map fun s => ((w, s.1), s.2)) ?_
    exact (serialize_roundTrips fs ress vs hfits.2).map (Prod.mk (received f res v))

end

/-! ## Serializing succeeds -/

/-- The writer appends `n` bits, or fails as there is no room for them. -/
def StoresBits (n : ℕ) (write : Builder → Except CException Builder) : Prop :=
  ∃ bs : List Bool, bs.length = n ∧
    ∀ b : Builder, b.Valid → write b = (b.store (.ofBits bs)).mapError .machine

theorem StoresBits.bind {n n' : ℕ} {write write' : Builder → Except CException Builder}
    (h : StoresBits n write) (h' : StoresBits n' write') :
    StoresBits (n + n') fun b => (write b).bind write' := by
  obtain ⟨bs, rfl, hstore⟩ := h
  obtain ⟨bs', rfl, hstore'⟩ := h'
  refine ⟨bs ++ bs', List.length_append, fun b hb => ?_⟩
  show (write b).bind write' = _
  rw [Slice.ofBits_append, ← store_bind_store, hstore b hb]
  cases hb' : b.store (.ofBits bs) with
  | error e => rfl
  | ok b' => exact hstore' b' (valid_of_store hb')

theorem storesBits_builtinStu {z size : ℤ} (hsize : 0 ≤ size) (hmax : size ≤ 256) (hz : 0 ≤ z)
    (hlt : z < 2 ^ size.toNat) : StoresBits size.toNat (builtinStu z size) := by
  refine ⟨natBits size.toNat z.toNat, length_natBits _ _, fun b _ => ?_⟩
  have hlt' : z.toNat < 2 ^ size.toNat := by
    rw [← Int.toNat_of_nonneg hz] at hlt
    exact_mod_cast hlt
  rw [builtinStu, if_pos ⟨hz, hsize⟩, Builder.stu, if_pos ⟨by omega, hlt'⟩]

theorem storesBits_builtinSti {z size : ℤ} (hsize : 0 ≤ size) (hmax : size ≤ 257)
    (hz : -2 ^ size.toNat ≤ 2 * z ∧ 2 * z < 2 ^ size.toNat) :
    StoresBits size.toNat (builtinSti z size) := by
  refine ⟨intBits size.toNat z, length_intBits _ _, fun b _ => ?_⟩
  rw [builtinSti, if_pos hsize, Builder.sti, if_pos ⟨by omega, hz⟩]

/-- The flag of a maybe field. -/
theorem storesBits_flag {z : ℤ} (hz : z = 0 ∨ z = 1) : StoresBits 1 (builtinStu z 1) :=
  @storesBits_builtinStu z 1 (by omega) (by omega) (by omega)
    (by rcases hz with rfl | rfl <;> decide)

/-- The length goes before the number, which takes as many bytes as it says. -/
theorem storesBits_lengthPrefixed {size : ℕ} {v : VarNumber}
    {write : ℤ → ℤ → Builder → Except CException Builder} (hsize : size ≤ 256)
    (hlen : 0 ≤ v.len ∧ v.len < 2 ^ size)
    (h : StoresBits (8 * v.len.toNat) (write v.value (v.len * 8))) :
    StoresBits (size + 8 * v.len.toNat) fun b =>
      (builtinStu v.len size b).bind (write v.value (v.len * 8)) :=
  (@storesBits_builtinStu v.len size (by omega) (by omega) hlen.1 hlen.2).bind h

mutual

theorem serializeField_storesBits : ∀ (f : Field) (v : f.Val), Fits f v → WithinMachine f v →
    StoresBits (bitSize f v) (serializeField f v)
  | .constantUnsigned value size, _, hfits, hmax =>
    storesBits_builtinStu (by omega) (Int.ofNat_le.mpr hmax) (by omega)
      (by exact_mod_cast (show value < 2 ^ size from hfits))
  | .unsigned size, _, hfits, hmax =>
    storesBits_builtinStu (by omega) (Int.ofNat_le.mpr hmax) hfits.1 hfits.2
  | .signed size, _, hfits, hmax =>
    storesBits_builtinSti (by omega) (Int.ofNat_le.mpr hmax) hfits
  | .varUnsigned size, (v : VarNumber), hfits, hmax => by
    obtain ⟨hlen, hvalue⟩ := hfits
    refine storesBits_lengthPrefixed hmax.1 hlen ?_
    have hbits : (v.len * 8).toNat = 8 * v.len.toNat := by omega
    exact hbits ▸ storesBits_builtinStu (by omega) hmax.2 hvalue.1 (hbits.symm ▸ hvalue.2)
  | .varSigned size, (v : VarNumber), hfits, hmax => by
    obtain ⟨hlen, hvalue⟩ := hfits
    refine storesBits_lengthPrefixed hmax.1 hlen ?_
    have hbits : (v.len * 8).toNat = 8 * v.len.toNat := by omega
    exact hbits ▸ storesBits_builtinSti (by omega) hmax.2 (hbits.symm ▸ hvalue)
  | .complex type, v, hfits, hmax => serialize_storesBits type v hfits hmax
  | .maybe type, (v : Maybe (StructVal type)), hfits, hmax => by
    obtain ⟨just, value⟩ := v
    rcases hfits with (hjust : just = 0) | ⟨(hjust : just = 1), hvalue⟩
    · subst hjust
      exact storesBits_flag (Or.inl rfl)
    · subst hjust
      exact (storesBits_flag (Or.inr rfl)).bind
        (serialize_storesBits type value hvalue (hmax Int.one_ne_zero))

/-- **Serializing appends as many bits as the value takes**, if there is room for them. -/
theorem serialize_storesBits : ∀ (fs : List Field) (v : StructVal fs), FitsStruct fs v →
    StructWithinMachine fs v → StoresBits (structBitSize fs v) (serialize fs v)
  | [], _, _, _ => ⟨[], rfl, fun b hb => by
      rw [show Slice.ofBits [] = Slice.empty from rfl, store_empty hb]
      rfl⟩
  | f :: fs, (v, vs), hfits, hmax =>
    (serializeField_storesBits f v hfits.1 hmax.1).bind
      (serialize_storesBits fs vs hfits.2 hmax.2)

end

/-- **C SDK structures round-trip**, if no number is wider than what the machine stores at once.
The uninitialized content `res` of the result matters only for absent maybe fields. -/
theorem deserialize_serialize (fs : List Field) (v : StructVal fs) (hfits : FitsStruct fs v)
    (hmax : StructWithinMachine fs v) (b : Builder) (hb : b.Valid)
    (hroom : b.bits.length + structBitSize fs v ≤ Builder.maxBits) :
    ∃ bits : List Bool, serialize fs v b = .ok (b ++ Slice.ofBits bits) ∧
      bits.length = structBitSize fs v ∧
      ∀ (res : StructVal fs) (rest : Slice), ∃ w,
        deserialize fs res (Slice.ofBits bits ++ rest) = .ok (w, rest) ∧ AgreeStruct fs w v := by
  obtain ⟨bits, hlen, hstore⟩ := serialize_storesBits fs v hfits hmax
  have hvalid : Builder.Valid (b ++ Slice.ofBits bits) := by
    refine ⟨?_, by simpa [Slice.ofBits] using hb.2⟩
    simpa [Slice.ofBits, hlen] using hroom
  have hwritten : serialize fs v b = .ok (b ++ Slice.ofBits bits) := by
    rw [hstore b hb, store_eq_ok hvalid]
    rfl
  refine ⟨bits, hwritten, hlen, fun res rest => ?_⟩
  obtain ⟨s, hs, hread⟩ := serialize_roundTrips fs res v hfits b _ hwritten
  -- what was appended is determined by what stands in the builder now
  obtain rfl : Slice.ofBits bits = s := Slice.append_left_cancel hs
  exact ⟨_, hread rest, receivedStruct_agree fs res v⟩

section Example

/-- An amount, and a maybe field. -/
def payment : List Field := [.varUnsigned 4, .maybe [.signed 8]]

/-- The maybe field is absent. -/
def unlabelled : StructVal payment := (⟨2, 300⟩, ⟨0, ((5 : ℤ), ())⟩, ())

theorem deserialize_serialize_unlabelled :
    ∃ bits : List Bool, serialize payment unlabelled .empty = .ok (.empty ++ Slice.ofBits bits) ∧
      bits.length = structBitSize payment unlabelled ∧
      ∀ (res : StructVal payment) (rest : Slice), ∃ w,
        deserialize payment res (Slice.ofBits bits ++ rest) = .ok (w, rest) ∧
          AgreeStruct payment w unlabelled :=
  deserialize_serialize payment unlabelled ⟨⟨by decide, by decide⟩, Or.inl rfl, trivial⟩
    ⟨⟨by decide, by decide⟩, fun h => absurd rfl h, trivial⟩ .empty valid_empty (by decide)

end Example

/-- A number of 33 bytes is too wide for the machine, although its value is small. -/
theorem serialize_33_bytes :
    FitsStruct [.varUnsigned 6] (⟨33, 0⟩, ()) ∧
      structBitSize [.varUnsigned 6] (⟨33, 0⟩, ()) ≤ Builder.maxBits ∧
      serialize [.varUnsigned 6] (⟨33, 0⟩, ()) .empty = .error (.machine .rangeCheck) :=
  ⟨⟨⟨⟨by decide, by decide⟩, le_rfl, by positivity⟩, trivial⟩, by decide, by rfl⟩

/-! ## Structures within the machine -/

mutual

/-- The widths alone keep every value within what the machine stores at once. -/
def Field.narrow : Field → Bool
  | .constantUnsigned _ size => size ≤ 256
  | .unsigned size => size ≤ 256
  | .signed size => size ≤ 257
  | .varUnsigned size => size ≤ 5
  | .varSigned size => size ≤ 5
  | .complex type => narrowStruct type
  | .maybe type => narrowStruct type

def narrowStruct : List Field → Bool
  | [] => true
  | f :: fs => f.narrow && narrowStruct fs

end

/-- A length of at most 5 bits states at most 31 bytes. -/
theorem len_mul_eight_le {size : ℕ} {len : ℤ} (hsize : size ≤ 5) (hlen : len < 2 ^ size) :
    len * 8 ≤ 256 := by
  have hpow : (2 : ℤ) ^ size ≤ 2 ^ 5 := pow_le_pow_right₀ (by decide) hsize
  omega

mutual

theorem withinMachine_of_narrow : ∀ (f : Field) (v : f.Val), f.narrow = true → Fits f v →
    WithinMachine f v
  | .constantUnsigned _ size, _, h, _ => show size ≤ 256 from of_decide_eq_true h
  | .unsigned size, _, h, _ => show size ≤ 256 from of_decide_eq_true h
  | .signed size, _, h, _ => show size ≤ 257 from of_decide_eq_true h
  | .varUnsigned size, _, h, hfits => by
    have hsize : size ≤ 5 := of_decide_eq_true h
    exact ⟨by omega, len_mul_eight_le hsize hfits.1.2⟩
  | .varSigned size, _, h, hfits => by
    have hsize : size ≤ 5 := of_decide_eq_true h
    exact ⟨by omega, (len_mul_eight_le hsize hfits.1.2).trans (by decide)⟩
  | .complex type, v, h, hfits => structWithinMachine_of_narrow type v h hfits
  | .maybe type, (v : Maybe (StructVal type)), h, hfits => fun hjust =>
    structWithinMachine_of_narrow type v.value h (hfits.resolve_left hjust).2

/-- **Structures with short length prefixes stay within the machine**, whatever they hold. -/
theorem structWithinMachine_of_narrow : ∀ (fs : List Field) (v : StructVal fs),
    narrowStruct fs = true → FitsStruct fs v → StructWithinMachine fs v
  | [], _, _, _ => trivial
  | f :: fs, (v, vs), h, hfits => by
    obtain ⟨hf, hfs⟩ := Bool.and_eq_true_iff.mp h
    exact ⟨withinMachine_of_narrow f v hf hfits.1,
      structWithinMachine_of_narrow fs vs hfs hfits.2⟩

end

/-! ## The structures of messages -/

def Grams : List Field := [.varUnsigned 4]

def CurrencyCollection : List Field := [.complex Grams, .unsigned 1]

def MsgAddressInt : List Field :=
  [.constantUnsigned 1 1, .constantUnsigned 0 1, .unsigned 1, .signed 8, .unsigned 256]

def MsgAddressExt : List Field := [.unsigned 2]

def CommonMsgInfo : List Field :=
  [.unsigned 1, .unsigned 1, .signed 1, .signed 1, .complex MsgAddressInt, .complex MsgAddressInt,
    .complex CurrencyCollection, .complex Grams, .complex Grams, .unsigned 64, .unsigned 32]

def CommonMsgInfo_ExtOut : List Field :=
  [.unsigned 2, .complex MsgAddressInt, .complex MsgAddressExt, .unsigned 64, .unsigned 32]

def EmptyMessage : List Field := [.complex CommonMsgInfo, .unsigned 1, .unsigned 1]

def Message_ExtOut_int256 : List Field :=
  [.complex CommonMsgInfo_ExtOut, .unsigned 1, .unsigned 1, .signed 256]

def Message_ExtOut_common : List Field :=
  [.complex CommonMsgInfo_ExtOut, .unsigned 1, .unsigned 1]

/-- The message structures other than `Anycast`, which has an array. -/
def messageStructs : List (List Field) :=
  [Grams, CurrencyCollection, MsgAddressInt, MsgAddressExt, CommonMsgInfo, CommonMsgInfo_ExtOut,
    EmptyMessage, Message_ExtOut_int256, Message_ExtOut_common]

/-- The messages of the SDK never reach the limit of the machine. -/
theorem messageStructs_withinMachine {fs : List Field} (h : fs ∈ messageStructs)
    (v : StructVal fs) (hfits : FitsStruct fs v) : StructWithinMachine fs v := by
  have hnarrow : messageStructs.all narrowStruct = true := by rfl
  exact structWithinMachine_of_narrow fs v (List.all_eq_true.mp hnarrow fs h) hfits

end TVMCompiler.CSdk
