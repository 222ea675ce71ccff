import TVMCompiler.Sdk.Estimate
import TVMCompiler.Sdk.StoredBits

/-!
# Encodings of values

What the builder of a type appends for a value does not depend on what is in the builder already,
and `get_bitsize` bounds its bits from the type alone.

## Main definitions

* `Appends`: a writer appends the same content everywhere, or finds no room for it
* `getBitsize`: `get_bitsize`
* `Encodes`: the bits that stand for a value

## Main results

* `build_appends`: every builder appends
* `storedBits_le_getBitsize`: a value has no more bits than its type states
-/

namespace TVMCompiler.Sdk

open Lib

/-! ## Builders append -/

/-- If the writer succeeds, it appends the same content to every builder, as far as there is
room. -/
def Appends (write : Builder → Except TvmException Builder) : Prop :=
  ∀ b b' : Builder, b.Valid → write b = .ok b' →
    ∃ s, b' = b ++ s ∧ ∀ b₁ : Builder, b₁.Valid → write b₁ = b₁.store s

namespace Appends

variable {write write' : Builder → Except TvmException Builder}

theorem store (s : Slice) : Appends (Builder.store s) :=
  fun _ _ _ h => ⟨s, store_eq_append h, fun _ _ => rfl⟩

/-- The writer may refuse its input, whatever the builder. -/
theorem guarded {c : Prop} [Decidable c] {e : TvmException} (h : Appends write) :
    Appends fun b => if c then write b else .error e := by
  intro b b' hb hwrite
  dsimp only at hwrite
  by_cases hc : c
  · rw [if_pos hc] at hwrite
    obtain ⟨s, hs, hstore⟩ := h b b' hb hwrite
    refine ⟨s, hs, fun b₁ hb₁ => ?_⟩
    show (if c then write b₁ else .error e) = _
    rw [if_pos hc, hstore b₁ hb₁]
  · rw [if_neg hc] at hwrite
    cases hwrite

theorem bind (h : Appends write) (h' : Appends write') :
    Appends fun b => (write b).bind write' := by
  intro b b'' hb hwrite
  obtain ⟨b', hb', hb''⟩ := bind_eq_ok.mp hwrite
  obtain ⟨s, hs, hstore⟩ := h b b' hb hb'
  have hvalid : b'.Valid := valid_of_store ((hstore b hb).symm.trans hb')
  obtain ⟨s', hs', hstore'⟩ := h' b' b'' hvalid hb''
  refine ⟨s ++ s', by rw [hs', hs, Slice.append_assoc], fun b₁ hb₁ => ?_⟩
  -- the second writer finds the builder of the first one, if there is room for that
  show (write b₁).bind write' = _
  rw [← store_bind_store, hstore b₁ hb₁]
  cases hfirst : b₁.store s with
  | error e => rfl
  | ok b₂ => exact hstore' b₂ (valid_of_store hfirst)

theorem stslice (bs : List Bool) : Appends (Builder.stslice bs) := store _

theorem stu (n len : ℕ) : Appends (Builder.stu n len) := (store _).guarded

theorem sti (z : ℤ) (len : ℕ) : Appends (Builder.sti z len) := (store _).guarded

theorem stref (c : Cell) : Appends (Builder.stref c) := store _

theorem stdict (d : Option Cell) : Appends (Builder.stdict d) := by
  cases d with
  | none => exact store _
  | some c => exact store _

end Appends

mutual

/-- **Every builder appends**, by recursion on the type. -/
theorem build_appends : ∀ (t : Ty) (v : t.Val), Appends (build t v)
  | .bitconst bitlen code, _ => .stu code bitlen
  | .bitfield _, bs => .stslice bs
  | .bool, v => .stu (Bool.toNat v) 1
  | .uint bitlen, n => .stu n bitlen
  | .int bitlen, z => .sti z bitlen
  | .varuint _, _ => (Appends.store _).guarded
  | .varint _, _ => (Appends.store _).guarded
  | .dict, d => .stdict d
  | .cell, c => .stref c
  | .msgAddress _, bs => .stslice bs
  | .addrStdCompact, v => (Appends.stu 4 3).bind ((Appends.sti v.1 8).bind (.stu v.2 256))
  | .ref t, v => by
    intro b b' _ hbuild
    obtain ⟨inner, hinner, hstore⟩ := bind_eq_ok.mp hbuild
    refine ⟨⟨[], [inner.endc]⟩, store_eq_append hstore, fun b₁ _ => ?_⟩
    rw [build, hinner]
    rfl
  | .optional _, none => .stu 0 1
  | .optional t, some v => (Appends.stu 1 1).bind (build_appends t v)
  | .either l _, .inl v => (Appends.stu 0 1).bind (build_appends l v)
  | .either _ r, .inr v => (Appends.stu 1 1).bind (build_appends r v)
  | .tuple ts, vs => buildSeq_appends ts vs
  | .struct ts, vs => buildSeq_appends ts vs
  | .dynamicBitfield _, v => .stslice v.1
  | .dynamicUint _, v => .stu v.1 v.2
  | .dynamicInt _, v => .sti v.1 v.2
  | .variant ts, v => buildVariant_appends ts v

theorem buildSeq_appends : ∀ (ts : List Ty) (vs : SeqVal ts), Appends (buildSeq ts vs)
  | [], _ => by
    intro b b' _ h
    cases h
    exact ⟨.empty, (Slice.append_empty b).symm, fun b₁ hb₁ => (store_empty hb₁).symm⟩
  | t :: ts, (v, vs) => (build_appends t v).bind (buildSeq_appends ts vs)

theorem buildVariant_appends : ∀ (ts : List Ty) (v : VariantVal ts), Appends (buildVariant ts v)
  | t :: _, .inl v => build_appends t v
  | _ :: ts, .inr v => buildVariant_appends ts v

end

/-- What an empty builder gets is appended to every builder. -/
theorem build_eq_store {t : Ty} {v : t.Val} {s : Slice} (h : build t v .empty = .ok s)
    {b : Builder} (hb : b.Valid) : build t v b = b.store s := by
  obtain ⟨s', hs', hstore⟩ := build_appends t v .empty s valid_empty h
  obtain rfl : s = s' := hs'.trans (Slice.empty_append s')
  exact hstore b hb

/-! ## Sizes -/

mutual

/-- `get_bitsize`: the size of a type, or zero if it is not known from the type. -/
def getBitsize : Ty → ℕ
  | .bitconst bitlen _ => bitlen
  | .bitfield bitlen => bitlen
  | .bool => 1
  | .uint bitlen => bitlen
  | .int bitlen => bitlen
  | .addrStdCompact => 2 + 1 + 8 + 256
  | .either l r =>
    if getBitsize l ≠ 0 ∧ getBitsize r ≠ 0 then max (1 + getBitsize l) (1 + getBitsize r) else 0
  | .tuple ts => if allCalculated ts then sumBitsize ts else 0
  | .struct ts => if allCalculated ts then sumBitsize ts else 0
  | .variant ts => if allCalculated ts then maxBitsize ts else 0
  | _ => 0

/-- All sizes of the types are known. -/
def allCalculated : List Ty → Bool
  | [] => true
  | t :: ts => getBitsize t ≠ 0 && allCalculated ts

def sumBitsize : List Ty → ℕ
  | [] => 0
  | t :: ts => getBitsize t + sumBitsize ts

def maxBitsize : List Ty → ℕ
  | [] => 0
  | t :: ts => max (getBitsize t) (maxBitsize ts)

end

theorem allCalculated_cons {t : Ty} {ts : List Ty} (h : allCalculated (t :: ts) = true) :
    getBitsize t ≠ 0 ∧ allCalculated ts = true := by
  rw [allCalculated, Bool.and_eq_true, decide_eq_true_iff] at h
  exact h

mutual

/-- **A value has no more bits than its type states**, if the type states a size. -/
theorem storedBits_le_getBitsize : ∀ (t : Ty) (ctx : ParseContext) (v : t.Val),
    getBitsize t ≠ 0 → Fits t ctx v → storedBits false t v ≤ getBitsize t
  | .bitconst _ _, _, _, _, _ => le_rfl
  | .bitfield _, _, _, _, hfits => le_of_eq hfits
  | .bool, _, _, _, _ => le_rfl
  | .uint _, _, _, _, _ => le_rfl
  | .int _, _, _, _, _ => le_rfl
  | .addrStdCompact, _, _, _, _ => le_rfl
  | .either l r, _, v, hsize, hfits => by
    simp only [getBitsize] at hsize ⊢
    split at hsize
    · rename_i hsizes
      rw [if_pos hsizes]
      cases v with
      | inl v =>
        have hle := storedBits_le_getBitsize l _ v hsizes.1 hfits
        exact (Nat.add_le_add_left hle 1).trans (le_max_left _ _)
      | inr v =>
        have hle := storedBits_le_getBitsize r _ v hsizes.2 hfits
        exact (Nat.add_le_add_left hle 1).trans (le_max_right _ _)
    · exact absurd rfl hsize
  | .tuple ts, _, vs, hsize, hfits => by
    simp only [getBitsize] at hsize ⊢
    split at hsize
    · rename_i hall
      rw [if_pos hall]
      exact storedBitsSeq_le_sumBitsize false ts [] vs hall hfits
    · exact absurd rfl hsize
  | .struct ts, _, vs, hsize, hfits => by
    simp only [getBitsize] at hsize ⊢
    split at hsize
    · rename_i hall
      rw [if_pos hall]
      exact storedBitsSeq_le_sumBitsize true ts [] vs hall hfits
    · exact absurd rfl hsize
  | .variant ts, ctx, v, hsize, hfits => by
    simp only [getBitsize] at hsize ⊢
    split at hsize
    · rename_i hall
      rw [if_pos hall]
      exact storedBitsVariant_le_maxBitsize ts ctx v hall hfits
    · exact absurd rfl hsize
  | .varuint _, _, _, hsize, _ => absurd rfl hsize
  | .varint _, _, _, hsize, _ => absurd rfl hsize
  | .dict, _, _, hsize, _ => absurd rfl hsize
  | .cell, _, _, hsize, _ => absurd rfl hsize
  | .msgAddress _, _, _, hsize, _ => absurd rfl hsize
  | .ref _, _, _, hsize, _ => absurd rfl hsize
  | .optional _, _, _, hsize, _ => absurd rfl hsize
  | .dynamicBitfield _, _, _, hsize, _ => absurd rfl hsize
  | .dynamicUint _, _, _, hsize, _ => absurd rfl hsize
  | .dynamicInt _, _, _, hsize, _ => absurd rfl hsize

theorem storedBitsSeq_le_sumBitsize (isStruct : Bool) : ∀ (ts : List Ty) (ctx : ParseContext)
    (vs : SeqVal ts), allCalculated ts = true → FitsSeq isStruct ts ctx vs →
    storedBitsSeq false ts vs ≤ sumBitsize ts
  | [], _, _, _, _ => le_rfl
  | t :: ts, ctx, (v, vs), hall, hfits =>
    Nat.add_le_add (storedBits_le_getBitsize t ctx v (allCalculated_cons hall).1 hfits.1)
      (storedBitsSeq_le_sumBitsize isStruct ts _ vs (allCalculated_cons hall).2 hfits.2)

theorem storedBitsVariant_le_maxBitsize : ∀ (ts : List Ty) (ctx : ParseContext)
    (v : VariantVal ts), allCalculated ts = true → FitsVariant ts ctx v →
    storedBitsVariant false ts v ≤ maxBitsize ts
  | t :: _, ctx, .inl v, hall, hfits =>
    (storedBits_le_getBitsize t ctx v (allCalculated_cons hall).1 hfits).trans (le_max_left _ _)
  | _ :: ts, ctx, .inr v, hall, hfits =>
    (storedBitsVariant_le_maxBitsize ts ctx v (allCalculated_cons hall).2 hfits).trans
      (le_max_right _ _)

end

/-! ## Encodings -/

/-- The bits stand for the value: the builder appends them, and the parser finds the value in front
of any other content. -/
structure Encodes (t : Ty) (v : t.Val) (bs : List Bool) : Prop where
  ne_nil : bs ≠ []
  length_le : bs.length ≤ Builder.maxBits
  build : ∀ b : Builder, b.Valid → Sdk.build t v b = b.store (.ofBits bs)
  parse : ∀ rest, Sdk.parse t [] (.ofBits bs ++ rest) = .ok (some v, rest)

theorem encodes_of_build {t : Ty} {v : t.Val} {bs : List Bool} (hne : bs ≠ [])
    (hbuild : build t v .empty = .ok (.ofBits bs))
    (hread : RoundTrips (build t v) (parse t []) (some v)) : Encodes t v bs := by
  obtain ⟨s, hs, hparse⟩ := hread _ _ hbuild
  obtain rfl : Slice.ofBits bs = s := hs.trans (Slice.empty_append s)
  have hstore := (build_eq_store hbuild valid_empty).symm.trans hbuild
  exact ⟨hne, (valid_of_store hstore).1, fun b hb => build_eq_store hbuild hb, hparse⟩

theorem Encodes.build_empty {t : Ty} {v : t.Val} {bs : List Bool} (h : Encodes t v bs) :
    Sdk.build t v .empty = .ok (.ofBits bs) := by
  have hvalid : Builder.Valid (.empty ++ Slice.ofBits bs) := ⟨h.length_le, Nat.zero_le _⟩
  rw [h.build .empty valid_empty, store_eq_ok hvalid, Slice.empty_append]

/-- An encoding fits the size of its type. -/
theorem Encodes.length_le_getBitsize {t : Ty} {v : t.Val} {bs : List Bool} (h : Encodes t v bs)
    (hsize : getBitsize t ≠ 0) (hfits : Fits t [] v) : bs.length ≤ getBitsize t := by
  have hlen := size_of_build false t v h.build_empty
  rw [Slice.size_ofBits, Slice.size_empty, Nat.zero_add] at hlen
  rw [hlen]
  exact storedBits_le_getBitsize t [] v hsize hfits

end TVMCompiler.Sdk
