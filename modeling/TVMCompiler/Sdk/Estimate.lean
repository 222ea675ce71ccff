import TVMCompiler.Sdk.Schema

/-!
# Size estimates

The type of a value bounds the bits and references of its encoding. The layout of chains of
cells is computed from these bounds.

## Main definitions

* `Estimate`, `estimate`: the bounds of a type
* `InRange`: the numbers of a value fit their fields
* `Ty.Estimable`: the lengths of dynamic fields are short unsigned fields of the same struct
* `Builder.Valid`: the content fits a cell
* `Stores`: a writer appends content within given bounds, or finds no room for it

## Main results

* `store_bind_store`: storing in two steps is storing at once
* `build_stores`: the builder of a type appends content within the bounds of the type
* `build_within_estimate`: an encoding keeps to the estimate of its type
-/

namespace TVMCompiler.Sdk

open Lib

/-! ## Bounds -/

/-- `estimate_element`: bounds on bits and references. -/
@[ext]
structure Estimate where
  minBits : ℕ
  maxBits : ℕ
  minRefs : ℕ
  maxRefs : ℕ
  deriving DecidableEq, Repr

namespace Estimate

def bits (min max : ℕ) : Estimate := ⟨min, max, 0, 0⟩

def exactSize (size : ℕ) : Estimate := bits size size

def oneRef : Estimate := ⟨0, 0, 1, 1⟩

instance : Zero Estimate := ⟨⟨0, 0, 0, 0⟩⟩

instance : Add Estimate where
  add e e' := ⟨e.minBits + e'.minBits, e.maxBits + e'.maxBits, e.minRefs + e'.minRefs,
    e.maxRefs + e'.maxRefs⟩

@[simp] theorem add_minBits (e e' : Estimate) : (e + e').minBits = e.minBits + e'.minBits := rfl

@[simp] theorem add_maxBits (e e' : Estimate) : (e + e').maxBits = e.maxBits + e'.maxBits := rfl

@[simp] theorem add_minRefs (e e' : Estimate) : (e + e').minRefs = e.minRefs + e'.minRefs := rfl

@[simp] theorem add_maxRefs (e e' : Estimate) : (e + e').maxRefs = e.maxRefs + e'.maxRefs := rfl

@[simp] theorem zero_maxBits : maxBits 0 = 0 := rfl

@[simp] theorem zero_maxRefs : maxRefs 0 = 0 := rfl

@[simp] theorem zero_add (e : Estimate) : 0 + e = e := by
  ext
  all_goals exact Nat.zero_add _

@[simp] theorem add_zero (e : Estimate) : e + 0 = e := rfl

theorem add_assoc (e₁ e₂ e₃ : Estimate) : e₁ + e₂ + e₃ = e₁ + (e₂ + e₃) := by
  ext
  all_goals exact Nat.add_assoc _ _ _

/-- The bounds of one type or another. -/
def alternative (e e' : Estimate) : Estimate :=
  ⟨min e.minBits e'.minBits, max e.maxBits e'.maxBits, min e.minRefs e'.minRefs,
    max e.maxRefs e'.maxRefs⟩

/-- The content is within the bounds. -/
structure Contains (e : Estimate) (s : Slice) : Prop where
  minBits : e.minBits ≤ s.bits.length
  maxBits : s.bits.length ≤ e.maxBits
  minRefs : e.minRefs ≤ s.refs.length
  maxRefs : s.refs.length ≤ e.maxRefs

variable {e e' : Estimate} {s s' : Slice}

theorem Contains.add (h : e.Contains s) (h' : e'.Contains s') : (e + e').Contains (s ++ s') := by
  obtain ⟨h₁, h₂, h₃, h₄⟩ := h
  obtain ⟨h₁', h₂', h₃', h₄'⟩ := h'
  constructor <;> simp <;> omega

theorem Contains.left (h : e.Contains s) : (e.alternative e').Contains s :=
  ⟨(min_le_left _ _).trans h.minBits, h.maxBits.trans (le_max_left _ _),
    (min_le_left _ _).trans h.minRefs, h.maxRefs.trans (le_max_left _ _)⟩

theorem Contains.right (h : e'.Contains s) : (e.alternative e').Contains s :=
  ⟨(min_le_right _ _).trans h.minBits, h.maxBits.trans (le_max_right _ _),
    (min_le_right _ _).trans h.minRefs, h.maxRefs.trans (le_max_right _ _)⟩

theorem contains_ofBits {low high : ℕ} {bs : List Bool} (hlow : low ≤ bs.length)
    (hhigh : bs.length ≤ high) : (bits low high).Contains (.ofBits bs) :=
  ⟨hlow, hhigh, Nat.zero_le _, Nat.zero_le _⟩

theorem exactSize_contains (bs : List Bool) : (exactSize bs.length).Contains (.ofBits bs) :=
  contains_ofBits le_rfl le_rfl

theorem oneRef_contains (c : Cell) : oneRef.Contains ⟨[], [c]⟩ :=
  ⟨le_rfl, le_rfl, le_rfl, le_rfl⟩

end Estimate

/-- `get_dynamic_field_max_bits`, for a field of a struct with these fields. -/
def dynamicFieldMaxBits (fields : List Ty) (field : ℕ) : ℕ :=
  match fields[field]? with
  | some (.uint bitlen) => 2 ^ bitlen - 1
  | _ => 0

/-- The estimates of the address types, see `estimate_msgAddress`. -/
def AddressKind.estimate : AddressKind → Estimate
  | .ext => .bits 2 522
  | .int => .bits 44 591
  | .any => .bits 2 591

mutual

/-- `estimate_element`, for a type inside a struct with these fields. -/
def estimate (fields : List Ty) : Ty → Estimate
  | .bitconst bitlen _ => .exactSize bitlen
  | .bitfield bitlen => .exactSize bitlen
  | .bool => .exactSize 1
  | .uint bitlen => .exactSize bitlen
  | .int bitlen => .exactSize bitlen
  | .varuint size => .bits size.lenBits (size.lenBits + (2 ^ size.lenBits - 1) * 8)
  | .varint size => .bits size.lenBits (size.lenBits + (2 ^ size.lenBits - 1) * 8)
  | .dict => ⟨1, 1, 0, 1⟩
  | .cell => .oneRef
  | .msgAddress kind => kind.estimate
  | .addrStdCompact => .exactSize (2 + 1 + 8 + 256)
  | .ref _ => .oneRef
  | .optional t => ⟨1, 1 + (estimate fields t).maxBits, 0, (estimate fields t).maxRefs⟩
  | .either l r =>
    (Estimate.exactSize 1 + estimate [.bitconst 1 0] l).alternative
      (Estimate.exactSize 1 + estimate [.bitconst 1 1] r)
  | .tuple ts => estimateSeq [] ts
  | .struct ts => estimateSeq ts ts
  | .dynamicBitfield field => .bits 0 (dynamicFieldMaxBits fields field)
  | .dynamicUint field => .bits 0 (min 256 (dynamicFieldMaxBits fields field))
  | .dynamicInt field => .bits 0 (min 257 (dynamicFieldMaxBits fields field))
  | .variant ts => estimateVariant fields ts

def estimateSeq (fields : List Ty) : List Ty → Estimate
  | [] => 0
  | t :: ts => estimate fields t + estimateSeq fields ts

def estimateVariant (fields : List Ty) : List Ty → Estimate
  | [] => 0
  | [t] => estimate fields t
  | t :: t' :: ts => (estimate fields t).alternative (estimateVariant fields (t' :: ts))

end

/-- `MsgAddressExt`: `addr_none` or `addr_extern`. -/
def msgAddressExtTy : Ty :=
  .variant [.struct [.bitconst 2 0b00], .struct [.bitconst 2 0b01, .uint 9, .dynamicBitfield 1]]

def anycastTy : Ty := .optional (.struct [.uint 5, .dynamicBitfield 0])

/-- `MsgAddressInt`: `addr_std` or `addr_var`. -/
def msgAddressIntTy : Ty :=
  .variant [.struct [.bitconst 2 0b10, anycastTy, .int 8, .uint 256],
    .struct [.bitconst 2 0b11, anycastTy, .uint 9, .int 32, .dynamicBitfield 2]]

/-- The types that the estimates of addresses are computed from. -/
def AddressKind.variant : AddressKind → Ty
  | .ext => msgAddressExtTy
  | .int => msgAddressIntTy
  | .any => .variant [msgAddressExtTy, msgAddressIntTy]

theorem estimate_msgAddress (fields : List Ty) (kind : AddressKind) :
    estimate fields (.msgAddress kind) = estimate fields kind.variant := by
  cases kind
  all_goals rfl

/-! ## Values in range -/

mutual

/-- The numbers of a value fit their fields, its addresses are of their kind, and what is behind a
reference fits a cell. -/
def InRange : (t : Ty) → t.Val → Prop
  | .bitconst bitlen code, _ => bitlen ≤ 256 ∧ code < 2 ^ bitlen
  | .uint bitlen, (n : ℕ) => bitlen ≤ 256 ∧ n < 2 ^ bitlen
  | .int bitlen, (z : ℤ) => bitlen ≤ 257 ∧ -2 ^ bitlen ≤ 2 * z ∧ 2 * z < 2 ^ bitlen
  | .varuint size, (n : ℕ) => Builder.natBytes n < 2 ^ size.lenBits
  | .varint size, (z : ℤ) => Builder.intBytes z < 2 ^ size.lenBits
  | .msgAddress kind, (bs : List Bool) => kind.Admits bs
  | .addrStdCompact, (v : ℤ × ℕ) => (-2 ^ 8 ≤ 2 * v.1 ∧ 2 * v.1 < 2 ^ 8) ∧ v.2 < 2 ^ 256
  | .ref t, v => ∃ b, build t v .empty = .ok b
  | .optional _, none => True
  | .optional t, some v => InRange t v
  | .either l _, .inl v => InRange l v
  | .either _ r, .inr v => InRange r v
  | .tuple ts, vs => InRangeSeq ts vs
  | .struct ts, vs => InRangeSeq ts vs
  | .dynamicUint _, (v : ℕ × ℕ) => v.2 ≤ 256 ∧ v.1 < 2 ^ v.2
  | .dynamicInt _, (v : ℤ × ℕ) => v.2 ≤ 257 ∧ -2 ^ v.2 ≤ 2 * v.1 ∧ 2 * v.1 < 2 ^ v.2
  | .variant ts, v => InRangeVariant ts v
  | _, _ => True

def InRangeSeq : (ts : List Ty) → SeqVal ts → Prop
  | [], _ => True
  | t :: ts, (v, vs) => InRange t v ∧ InRangeSeq ts vs

def InRangeVariant : (ts : List Ty) → VariantVal ts → Prop
  | [], v => nomatch v
  | t :: _, .inl v => InRange t v
  | _ :: ts, .inr v => InRangeVariant ts v

end

mutual

/-- The length of a dynamic field is an unsigned field of the struct, of at most 16 bits. -/
def Ty.Estimable (fields : List Ty) : Ty → Prop
  | .optional t => t.Estimable fields
  | .either l r => l.Estimable [.bitconst 1 0] ∧ r.Estimable [.bitconst 1 1]
  | .tuple ts => EstimableSeq [] ts
  | .struct ts => EstimableSeq ts ts
  | .dynamicBitfield field => ∃ bitlen ≤ 16, fields[field]? = some (.uint bitlen)
  | .dynamicUint field => ∃ bitlen ≤ 16, fields[field]? = some (.uint bitlen)
  | .dynamicInt field => ∃ bitlen ≤ 16, fields[field]? = some (.uint bitlen)
  | .variant ts => EstimableSeq fields ts
  | _ => True

def EstimableSeq (fields : List Ty) : List Ty → Prop
  | [] => True
  | t :: ts => t.Estimable fields ∧ EstimableSeq fields ts

end

/-! ## Stores in a row -/

/-- The content fits a cell. -/
def Builder.Valid (b : Builder) : Prop :=
  b.bits.length ≤ Builder.maxBits ∧ b.refs.length ≤ Builder.maxRefs

theorem valid_empty : Builder.Valid .empty := ⟨Nat.zero_le _, Nat.zero_le _⟩

theorem valid_of_store {s : Slice} {b b' : Builder} (h : b.store s = .ok b') : b'.Valid := by
  unfold Builder.store at h
  split at h
  · rename_i hroom
    cases h
    exact ⟨by simpa using hroom.1, by simpa using hroom.2⟩
  · cases h

theorem store_eq_ok {s : Slice} {b : Builder} (h : Builder.Valid (b ++ s)) :
    b.store s = .ok (b ++ s) :=
  if_pos ⟨by simpa using h.1, by simpa using h.2⟩

theorem store_of_not_valid {s : Slice} {b : Builder} (h : ¬ Builder.Valid (b ++ s)) :
    b.store s = .error .cellOverflow :=
  if_neg fun hroom => h ⟨by simpa using hroom.1, by simpa using hroom.2⟩

/-- **Storing in two steps is storing at once**, also when there is no room for both. -/
theorem store_bind_store (s s' : Slice) (b : Builder) :
    (b.store s).bind (Builder.store s') = b.store (s ++ s') := by
  have hassoc : b ++ (s ++ s') = b ++ s ++ s' := by ext1 <;> simp
  by_cases h : Builder.Valid (b ++ s)
  · rw [store_eq_ok h, Except.bind]
    by_cases h' : Builder.Valid (b ++ s ++ s')
    · rw [store_eq_ok h', store_eq_ok (hassoc ▸ h'), hassoc]
    · rw [store_of_not_valid h', store_of_not_valid (hassoc ▸ h')]
  · have h' : ¬ Builder.Valid (b ++ (s ++ s')) := by
      rintro ⟨hbits, hrefs⟩
      simp only [Slice.append_bits, Slice.append_refs, List.length_append] at hbits hrefs
      exact h ⟨by simp; omega, by simp; omega⟩
    rw [store_of_not_valid h, store_of_not_valid h']
    rfl

theorem store_empty {b : Builder} (hb : b.Valid) : b.store .empty = .ok b := by
  have happend : b ++ Slice.empty = b := Slice.append_empty b
  rw [store_eq_ok (happend.symm ▸ hb), happend]

/-- A writer that stores content within the bounds. -/
def Stores (e : Estimate) (write : Builder → Except TvmException Builder) : Prop :=
  ∃ s, e.Contains s ∧ ∀ b : Builder, b.Valid → write b = b.store s

namespace Stores

variable {e e' : Estimate} {write write' : Builder → Except TvmException Builder}

theorem of_contains {s : Slice} (h : e.Contains s) : Stores e (Builder.store s) :=
  ⟨s, h, fun _ _ => rfl⟩

theorem congr (h : Stores e write) (heq : ∀ b, write' b = write b) : Stores e write' := by
  obtain ⟨s, hs, hstore⟩ := h
  exact ⟨s, hs, fun b hb => (heq b).trans (hstore b hb)⟩

theorem mono (h : Stores e write) (hle : ∀ s, e.Contains s → e'.Contains s) : Stores e' write := by
  obtain ⟨s, hs, hstore⟩ := h
  exact ⟨s, hle s hs, hstore⟩

theorem bind (h : Stores e write) (h' : Stores e' write') :
    Stores (e + e') fun b => (write b).bind write' := by
  obtain ⟨s, hs, hstore⟩ := h
  obtain ⟨s', hs', hstore'⟩ := h'
  refine ⟨s ++ s', hs.add hs', fun b hb => ?_⟩
  show (write b).bind write' = _
  rw [← store_bind_store, hstore b hb]
  cases hb' : b.store s with
  | error e => rfl
  | ok b' => exact hstore' b' (valid_of_store hb')

theorem stu {n len : ℕ} (hlen : len ≤ 256) (hn : n < 2 ^ len) :
    Stores (.exactSize len) (Builder.stu n len) := by
  have hs := Estimate.exactSize_contains (natBits len n)
  rw [length_natBits] at hs
  exact (of_contains hs).congr fun b => if_pos ⟨hlen, hn⟩

theorem sti {z : ℤ} {len : ℕ} (hlen : len ≤ 257) (hz : -2 ^ len ≤ 2 * z ∧ 2 * z < 2 ^ len) :
    Stores (.exactSize len) (Builder.sti z len) := by
  have hs := Estimate.exactSize_contains (intBits len z)
  rw [length_intBits] at hs
  exact (of_contains hs).congr fun b => if_pos ⟨hlen, hz⟩

theorem stslice (bs : List Bool) : Stores (.exactSize bs.length) (Builder.stslice bs) :=
  of_contains (Estimate.exactSize_contains bs)

/-- The length and the bytes of a number with a length prefix. -/
theorem lengthPrefixed {lenBits bytes : ℕ} {bs : List Bool} (hbytes : bytes < 2 ^ lenBits)
    (hbs : bs.length = 8 * bytes) :
    Stores (.bits lenBits (lenBits + (2 ^ lenBits - 1) * 8))
      (Builder.store (.ofBits (natBits lenBits bytes ++ bs))) := by
  refine of_contains (Estimate.contains_ofBits ?_ ?_)
  · simp
  · rw [List.length_append, length_natBits, hbs]
    omega

theorem stdict (d : Option Cell) : Stores ⟨1, 1, 0, 1⟩ (Builder.stdict d) := by
  cases d with
  | none => exact of_contains ⟨le_rfl, le_rfl, le_rfl, Nat.zero_le _⟩
  | some c => exact of_contains ⟨le_rfl, le_rfl, Nat.zero_le _, le_rfl⟩

theorem stref (c : Cell) : Stores .oneRef (Builder.stref c) :=
  of_contains (Estimate.oneRef_contains c)

theorem staddrStdCompact {v : ℤ × ℕ} (hworkchain : -2 ^ 8 ≤ 2 * v.1 ∧ 2 * v.1 < 2 ^ 8)
    (haddress : v.2 < 2 ^ 256) :
    Stores (.exactSize (2 + 1 + 8 + 256)) (Builder.staddrStdCompact v) :=
  (stu (by decide) (by decide)).bind ((sti (by decide) hworkchain).bind (stu le_rfl haddress))

theorem msgAddress {kind : AddressKind} {bs : List Bool} (h : IsMsgAddress bs)
    (hkind : kind.Admits bs) : Stores kind.estimate (Builder.stslice bs) := by
  obtain ⟨-, ⟨hhead, hlow, hhigh⟩ | ⟨hhead, hlow, hhigh⟩⟩ := h.skips
  · cases kind with
    | ext => exact of_contains (Estimate.contains_ofBits hlow hhigh)
    | int => exact absurd (hhead.symm.trans hkind) (by simp)
    | any => exact of_contains (Estimate.contains_ofBits hlow (hhigh.trans (by decide)))
  · cases kind with
    | ext => exact absurd (hhead.symm.trans hkind) (by simp)
    | int => exact of_contains (Estimate.contains_ofBits hlow hhigh)
    | any => exact of_contains (Estimate.contains_ofBits ((by decide : 2 ≤ 44).trans hlow) hhigh)

end Stores

/-! ## Builders keep to the bounds -/

/-- The fields parsed so far are the first ones of the struct, and hold numbers in range. -/
structure ContextOf (fields : List Ty) (ctx : ParseContext) : Prop where
  isPrefix : ctx.map Sigma.fst <+: fields
  inRange : ∀ f ∈ ctx, InRange f.1 f.2

theorem ContextOf.nil (fields : List Ty) : ContextOf fields [] :=
  ⟨List.nil_prefix, fun f hf => by cases hf⟩

theorem ContextOf.single {t : Ty} {v : t.Val} (h : InRange t v) : ContextOf [t] [⟨t, v⟩] :=
  ⟨List.prefix_rfl, fun f hf => by obtain rfl := List.mem_singleton.mp hf; exact h⟩

/-- The length of a dynamic field is below the bound of its length field. -/
theorem ContextOf.dynfieldSize_le {fields : List Ty} {ctx : ParseContext} {field len : ℕ}
    (h : ContextOf fields ctx) (hfield : ∃ bitlen ≤ 16, fields[field]? = some (.uint bitlen))
    (hsize : dynfieldSize ctx field = .ok len) : len ≤ dynamicFieldMaxBits fields field := by
  unfold dynfieldSize at hsize
  split at hsize
  · cases hsize
    exact Nat.zero_le _
  · rename_i f hf
    obtain ⟨bitlen, -, huint⟩ := hfield
    -- the field is the one of the struct with this index
    have htype : fields[field]? = some f.1 := by
      obtain ⟨rest, rfl⟩ := h.isPrefix
      rw [List.getElem?_append_left, List.getElem?_map, hf]
      · rfl
      · rw [List.length_map]
        exact (List.getElem?_eq_some_iff.mp hf).1
    obtain ⟨t, v⟩ := f
    obtain rfl : t = .uint bitlen := Option.some.inj (htype.symm.trans huint)
    have hrange := h.inRange _ (List.mem_of_getElem? hf)
    cases hsize
    simp only [dynamicFieldMaxBits, huint]
    exact Nat.le_sub_one_of_lt hrange.2

mutual

/-- **Size estimates are sound**: the builder of a type appends content within the bounds of the
type, or fails as there is no room for it. -/
theorem build_stores : ∀ (t : Ty) (fields : List Ty) (ctx : ParseContext) (v : t.Val),
    t.Estimable fields → ContextOf fields ctx → InRange t v → Fits t ctx v →
    Stores (estimate fields t) (build t v)
  | .bitconst _ _, _, _, _, _, _, hrange, _ => .stu hrange.1 hrange.2
  | .bitfield bitlen, _, _, (bs : List Bool), _, _, _, hfits => by
    have hlen : bs.length = bitlen := hfits
    subst hlen
    exact .stslice bs
  | .bool, _, _, v, _, _, _, _ => .stu (by decide) (Bool.toNat_lt v)
  | .uint _, _, _, _, _, _, hrange, _ => .stu hrange.1 hrange.2
  | .int _, _, _, _, _, _, hrange, _ => .sti hrange.1 hrange.2
  | .varuint _, _, _, _, _, _, hrange, _ =>
    (Stores.lengthPrefixed hrange (length_natBits _ _)).congr fun _ => if_pos hrange
  | .varint _, _, _, _, _, _, hrange, _ =>
    (Stores.lengthPrefixed hrange (length_intBits _ _)).congr fun _ => if_pos hrange
  | .dict, _, _, d, _, _, _, _ => .stdict d
  | .cell, _, _, c, _, _, _, _ => .stref c
  | .msgAddress _, _, _, _, _, _, hrange, hfits => .msgAddress hfits hrange
  | .addrStdCompact, _, _, _, _, _, hrange, _ => .staddrStdCompact hrange.1 hrange.2
  | .ref t, _, _, v, _, _, ⟨inner, hinner⟩, _ =>
    (Stores.stref inner.endc).congr fun b => by rw [build, hinner]; rfl
  | .optional _, _, _, none, _, _, _, _ =>
    (Stores.stu (by decide) (by decide)).mono fun s hs =>
      ⟨hs.minBits, hs.maxBits.trans (Nat.le_add_right _ _), hs.minRefs,
        hs.maxRefs.trans (Nat.zero_le _)⟩
  | .optional t, fields, ctx, some v, hest, hctx, hrange, hfits =>
    ((Stores.stu (by decide) (by decide)).bind
      (build_stores t fields ctx v hest hctx hrange hfits)).mono fun s hs =>
        ⟨(Nat.le_add_right _ _).trans hs.minBits, hs.maxBits, Nat.zero_le _,
          hs.maxRefs.trans_eq (Nat.zero_add _)⟩
  | .either l _, _, _, .inl v, hest, _, hrange, hfits =>
    ((Stores.stu (by decide) (by decide)).bind (build_stores l _ _ v hest.1
      (.single ⟨by decide, by decide⟩) hrange hfits)).mono fun _ => Estimate.Contains.left
  | .either _ r, _, _, .inr v, hest, _, hrange, hfits =>
    ((Stores.stu (by decide) (by decide)).bind (build_stores r _ _ v hest.2
      (.single ⟨by decide, by decide⟩) hrange hfits)).mono fun _ => Estimate.Contains.right
  | .tuple ts, _, _, vs, hest, _, hrange, hfits =>
    buildSeq_stores false ts [] [] vs hest (.nil _) (by simp) hrange hfits
  | .struct ts, _, _, vs, hest, _, hrange, hfits =>
    buildSeq_stores true ts ts [] vs hest (.nil _) (fun _ => rfl) hrange hfits
  | .dynamicBitfield field, fields, ctx, (bs, bitlen), hest, hctx, _, hfits =>
    (Stores.stslice bs).mono fun s hs =>
      ⟨Nat.zero_le _, hs.maxBits.trans (hfits.2 ▸ hctx.dynfieldSize_le hest hfits.1), hs.minRefs,
        hs.maxRefs⟩
  | .dynamicUint field, fields, ctx, (n, bitlen), hest, hctx, hrange, hfits =>
    (Stores.stu hrange.1 hrange.2).mono fun s hs =>
      ⟨Nat.zero_le _, hs.maxBits.trans (le_min hrange.1 (hctx.dynfieldSize_le hest hfits)),
        hs.minRefs, hs.maxRefs⟩
  | .dynamicInt field, fields, ctx, (z, bitlen), hest, hctx, hrange, hfits =>
    (Stores.sti hrange.1 hrange.2).mono fun s hs =>
      ⟨Nat.zero_le _, hs.maxBits.trans (le_min hrange.1 (hctx.dynfieldSize_le hest hfits)),
        hs.minRefs, hs.maxRefs⟩
  | .variant ts, fields, ctx, v, hest, hctx, hrange, hfits =>
    buildVariant_stores ts fields ctx v hest hctx hrange hfits

theorem buildSeq_stores (isStruct : Bool) : ∀ (ts fields : List Ty) (ctx : ParseContext)
    (vs : SeqVal ts), EstimableSeq fields ts → ContextOf fields ctx →
    (isStruct = true → ctx.map Sigma.fst ++ ts = fields) → InRangeSeq ts vs →
    FitsSeq isStruct ts ctx vs → Stores (estimateSeq fields ts) (buildSeq ts vs)
  | [], _, _, _, _, _, _, _, _ =>
    ⟨.empty, ⟨le_rfl, le_rfl, le_rfl, le_rfl⟩, fun _ hb => (store_empty hb).symm⟩
  | t :: ts, fields, ctx, (v, vs), hest, hctx, hfields, hrange, hfits => by
    refine (build_stores t fields ctx v hest.1 hctx hrange.1 hfits.1).bind ?_
    refine buildSeq_stores isStruct ts fields _ vs hest.2 ?_ ?_ hrange.2 hfits.2
    · cases isStruct with
      | false => exact hctx
      | true =>
        refine ⟨⟨ts, by simpa using hfields rfl⟩, ?_⟩
        intro f hf
        rcases List.mem_append.mp hf with hf | hf
        · exact hctx.inRange f hf
        · obtain rfl := List.mem_singleton.mp hf
          exact hrange.1
    · rintro rfl
      simpa using hfields rfl

theorem buildVariant_stores : ∀ (ts fields : List Ty) (ctx : ParseContext) (v : VariantVal ts),
    EstimableSeq fields ts → ContextOf fields ctx → InRangeVariant ts v → FitsVariant ts ctx v →
    Stores (estimateVariant fields ts) (buildVariant ts v)
  | [t], fields, ctx, .inl v, hest, hctx, hrange, hfits =>
    build_stores t fields ctx v hest.1 hctx hrange hfits
  | t :: _ :: _, fields, ctx, .inl v, hest, hctx, hrange, hfits =>
    (build_stores t fields ctx v hest.1 hctx hrange hfits).mono fun _ => Estimate.Contains.left
  | _ :: t' :: ts, fields, ctx, .inr v, hest, hctx, hrange, hfits =>
    (buildVariant_stores (t' :: ts) fields ctx v hest.2 hctx hrange hfits).mono
      fun _ => Estimate.Contains.right

end

/-- **The encoding of a value keeps to the size estimate of its type.** The numbers of the value fit
their fields; what is behind a reference fits a cell, as otherwise there is no encoding. -/
theorem build_within_estimate {t : Ty} {v : t.Val} {b b' : Builder} (hest : t.Estimable [])
    (hfits : Fits t [] v) (hrange : InRange t v) (hb : b.Valid) (hbuild : build t v b = .ok b') :
    ∃ s, b' = b ++ s ∧ (estimate [] t).Contains s := by
  obtain ⟨s, hs, hstore⟩ := build_stores t [] [] v hest (.nil []) hrange hfits
  rw [hstore b hb] at hbuild
  refine ⟨s, ?_, hs⟩
  -- the content was stored, as there was room for it
  by_cases hroom : Builder.Valid (b ++ s)
  · rw [store_eq_ok hroom] at hbuild
    exact (Except.ok.inj hbuild).symm
  · rw [store_of_not_valid hroom] at hbuild
    cases hbuild

/-- A struct with a dynamic field and a reference. -/
theorem build_within_estimate_tagged :
    ∃ s, (⟨[false, false, true, false, true, false, true],
        [.mk [true, true, true, false, true, true] []]⟩ : Builder) = .empty ++ s ∧
      (estimate [] taggedTy).Contains s :=
  @build_within_estimate taggedTy tagged .empty _
    ⟨trivial, ⟨4, by decide, rfl⟩, trivial, trivial⟩
    ⟨trivial, ⟨rfl, rfl⟩, ⟨trivial, trivial, trivial⟩, trivial⟩
    ⟨⟨by decide, by decide⟩, trivial, ⟨⟨[true, true, true, false, true, true], []⟩, rfl⟩, trivial⟩
    valid_empty rfl

end TVMCompiler.Sdk
