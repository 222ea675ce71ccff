import TVMCompiler.Sdk.ChainStatic

/-!
# Chains behind a header

A writer may cut a header and the elements behind it together, while the reader parses the header
first and computes the cuts of the elements at the offset of the header. Both agree on every cut.

## Main definitions

* `expandAll`: the leaves of a row of elements
* `Ty.Closed`: dynamic fields find their length inside the type
* `ChainValue`: a row of elements whose leaves can be stored in a chain
* `inFront`: sizes of a chain with more elements in front

## Main results

* `build_expandElem`: the builder of a value stores its leaves
* `whole_of_leaves`, `estimate_expandType`: what holds of the leaves holds of the value
* `cellSizes_append`: cutting a header with the elements behind it is cutting the elements at the
  offset of the header
* `chain_behind`: the reader at the offset returns the elements
-/

namespace TVMCompiler.Sdk

open Lib

/-! ## A value and its leaves -/

/-- The leaves of a row of elements. -/
def expandAll (l : List Elem) : List Elem := makeExpandedTuple (types l) (tupleVal l)

@[simp] theorem expandAll_nil : expandAll [] = [] := rfl

theorem expandAll_cons (e : Elem) (l : List Elem) :
    expandAll (e :: l) = expandElem e.1 e.2 ++ expandAll l := rfl

theorem expandAll_append (l l' : List Elem) : expandAll (l ++ l') = expandAll l ++ expandAll l' := by
  induction l with
  | nil => rfl
  | cons e l ih => rw [List.cons_append, expandAll_cons, ih, expandAll_cons, List.append_assoc]

theorem types_expandAll (l : List Elem) : types (expandAll l) = expandTypes (types l) :=
  types_makeExpandedTuple _ _

theorem buildSeq_singleton (e : Elem) (b : Builder) :
    buildSeq (types [e]) (tupleVal [e]) b = build e.1 e.2 b := by
  show (build e.1 e.2 b).bind Except.ok = _
  cases build e.1 e.2 b <;> rfl

mutual

/-- The builder of a value stores its leaves. -/
theorem build_expandElem : ∀ (t : Ty) (v : t.Val) (b : Builder),
    buildSeq (types (expandElem t v)) (tupleVal (expandElem t v)) b = build t v b
  | .tuple ts, vs, b => buildSeq_makeExpandedTuple ts vs b
  | .struct ts, vs, b => buildSeq_makeExpandedTuple ts vs b
  | .bitconst _ _, _, _ | .bitfield _, _, _ | .bool, _, _ | .uint _, _, _ | .int _, _, _
  | .varuint _, _, _ | .varint _, _, _ | .dict, _, _ | .cell, _, _ | .msgAddress _, _, _
  | .addrStdCompact, _, _ | .ref _, _, _
  | .optional _, _, _ | .either _ _, _, _ | .dynamicBitfield _, _, _ | .dynamicUint _, _, _
  | .dynamicInt _, _, _ | .variant _, _, _ => buildSeq_singleton ⟨_, _⟩ _

theorem buildSeq_makeExpandedTuple : ∀ (ts : List Ty) (vs : SeqVal ts) (b : Builder),
    buildSeq (types (makeExpandedTuple ts vs)) (tupleVal (makeExpandedTuple ts vs)) b =
      buildSeq ts vs b
  | [], _, _ => rfl
  | t :: ts, (v, vs), b => by
    rw [makeExpandedTuple, buildSeq_append, build_expandElem t v b, buildSeq]
    congr 1
    funext b'
    exact buildSeq_makeExpandedTuple ts vs b'

end

mutual

/-- The lengths of dynamic fields are found inside the type. -/
def Ty.Closed : Ty → Prop
  | .ref t => t.Closed
  | .optional t => t.Closed
  | .dynamicBitfield _ | .dynamicUint _ | .dynamicInt _ => False
  | .variant ts => ClosedSeq ts
  | _ => True

def ClosedSeq : List Ty → Prop
  | [] => True
  | t :: ts => t.Closed ∧ ClosedSeq ts

end

mutual

/-- What a closed type requires of its values does not depend on the fields around it. -/
theorem Ty.Closed.fits : ∀ (t : Ty) {ctx : ParseContext} {v : t.Val}, t.Closed → Fits t [] v →
    Fits t ctx v
  | .ref t, _, v, h, hfits => Ty.Closed.fits t (v := v) h hfits
  | .optional _, _, none, _, _ => trivial
  | .optional t, _, some v, h, hfits => Ty.Closed.fits t (v := v) h hfits
  | .variant ts, _, v, h, hfits => ClosedSeq.fits ts (v := v) h hfits
  | .either _ _, _, .inl _, _, hfits => hfits
  | .either _ _, _, .inr _, _, hfits => hfits
  | .bitconst _ _, _, _, _, hfits | .bitfield _, _, _, _, hfits | .bool, _, _, _, hfits
  | .uint _, _, _, _, hfits | .int _, _, _, _, hfits | .varuint _, _, _, _, hfits
  | .varint _, _, _, _, hfits | .dict, _, _, _, hfits | .cell, _, _, _, hfits
  | .msgAddress _, _, _, _, hfits | .addrStdCompact, _, _, _, hfits
  | .tuple _, _, _, _, hfits | .struct _, _, _, _, hfits => hfits

theorem ClosedSeq.fits : ∀ (ts : List Ty) {ctx : ParseContext} {v : VariantVal ts}, ClosedSeq ts →
    FitsVariant ts [] v → FitsVariant ts ctx v
  | t :: _, _, .inl v, h, hfits => Ty.Closed.fits t (v := v) h.1 hfits
  | _ :: ts, _, .inr v, h, hfits => ClosedSeq.fits ts (v := v) h.2 hfits

end

mutual

/-- The estimate of a closed type does not depend on the fields around it. -/
theorem Ty.Closed.estimate : ∀ (t : Ty) (fields : List Ty), t.Closed →
    estimate fields t = TVMCompiler.Sdk.estimate [] t
  | .optional t, fields, h => by
    rw [TVMCompiler.Sdk.estimate, TVMCompiler.Sdk.estimate, Ty.Closed.estimate t fields h]
  | .variant ts, fields, h => ClosedSeq.estimate ts fields h
  | .bitconst _ _, _, _ | .bitfield _, _, _ | .bool, _, _ | .uint _, _, _ | .int _, _, _
  | .varuint _, _, _ | .varint _, _, _ | .dict, _, _ | .cell, _, _ | .msgAddress _, _, _
  | .addrStdCompact, _, _ | .ref _, _, _
  | .either _ _, _, _ | .tuple _, _, _ | .struct _, _, _ => rfl

theorem ClosedSeq.estimate : ∀ (ts fields : List Ty), ClosedSeq ts →
    estimateVariant fields ts = estimateVariant [] ts
  | [], _, _ => rfl
  | [t], fields, h => Ty.Closed.estimate t fields h.1
  | t :: t' :: ts, fields, h => by
    rw [estimateVariant, estimateVariant, Ty.Closed.estimate t fields h.1,
      ClosedSeq.estimate (t' :: ts) fields h.2]

end

/-- A leaf that can be stored in a chain. -/
structure StorableLeaf (e : Elem) : Prop where
  leaf : e.1.ChainLeaf
  closed : e.1.Closed
  encodable : Encodable e

/-- All leaves of the elements can be stored in a chain. -/
def ChainValue (l : List Elem) : Prop := ∀ e ∈ expandAll l, StorableLeaf e

theorem chainValue_cons {e : Elem} {l : List Elem} :
    ChainValue (e :: l) ↔ (∀ e' ∈ expandElem e.1 e.2, StorableLeaf e') ∧ ChainValue l :=
  List.forall_mem_append

theorem chainValue_append {l l' : List Elem} :
    ChainValue (l ++ l') ↔ ChainValue l ∧ ChainValue l' := by
  rw [ChainValue, expandAll_append]
  exact List.forall_mem_append

theorem ChainValue.noRef {l : List Elem} (h : ChainValue l) : NoRef (expandAll l) :=
  fun e he => (h e he).leaf.ne_ref

theorem ChainValue.encodable {l : List Elem} (h : ChainValue l) : ∀ e ∈ expandAll l, Encodable e :=
  fun e he => (h e he).encodable

theorem StorableLeaf.whole {t : Ty} {v : t.Val} (h : ∀ e ∈ [(⟨t, v⟩ : Elem)], StorableLeaf e) :
    t.WellFormed ∧ ∀ ctx, Fits t ctx v := by
  obtain ⟨-, hclosed, hencodable⟩ := List.forall_mem_singleton.mp h
  exact ⟨hencodable.wellFormed, fun _ => hclosed.fits t hencodable.fits⟩

mutual

/-- A value whose leaves can be stored is read back by its own parser. -/
theorem whole_of_leaves : ∀ (t : Ty) (v : t.Val), (∀ e ∈ expandElem t v, StorableLeaf e) →
    t.WellFormed ∧ ∀ ctx, Fits t ctx v
  | .tuple ts, vs, h => by
    obtain ⟨hwf, hfits⟩ := wholeSeq_of_leaves ts vs h
    exact ⟨hwf, fun _ => hfits false []⟩
  | .struct ts, vs, h => by
    obtain ⟨hwf, hfits⟩ := wholeSeq_of_leaves ts vs h
    exact ⟨hwf, fun _ => hfits true []⟩
  | .bitconst _ _, _, h | .bitfield _, _, h | .bool, _, h | .uint _, _, h | .int _, _, h
  | .varuint _, _, h | .varint _, _, h | .dict, _, h | .cell, _, h | .msgAddress _, _, h
  | .addrStdCompact, _, h | .ref _, _, h
  | .optional _, _, h | .either _ _, _, h | .dynamicBitfield _, _, h | .dynamicUint _, _, h
  | .dynamicInt _, _, h | .variant _, _, h => StorableLeaf.whole h

theorem wholeSeq_of_leaves : ∀ (ts : List Ty) (vs : SeqVal ts),
    (∀ e ∈ makeExpandedTuple ts vs, StorableLeaf e) →
    WellFormedSeq ts ∧ ∀ isStruct ctx, FitsSeq isStruct ts ctx vs
  | [], _, _ => ⟨trivial, fun _ _ => trivial⟩
  | t :: ts, (v, vs), h => by
    obtain ⟨hfirst, hrest⟩ := List.forall_mem_append.mp h
    obtain ⟨hwf, hfits⟩ := whole_of_leaves t v hfirst
    obtain ⟨hwf', hfits'⟩ := wholeSeq_of_leaves ts vs hrest
    exact ⟨⟨hwf, hwf'⟩, fun isStruct ctx => ⟨hfits ctx, hfits' isStruct _⟩⟩

end

theorem estimateSeq_singleton {t : Ty} {fields : List Ty} (h : ∀ u ∈ [t], u.Closed) :
    estimate fields t = estimateSeq [] [t] := by
  rw [(List.forall_mem_singleton.mp h).estimate, estimateSeq, estimateSeq, Estimate.add_zero]

mutual

/-- The estimate of a type is that of its leaves. -/
theorem estimate_expandType : ∀ (t : Ty) (fields : List Ty), (∀ u ∈ expandType t, u.Closed) →
    estimate fields t = estimateSeq [] (expandType t)
  | .tuple ts, _, h => estimateSeq_expandTypes ts [] h
  | .struct ts, _, h => estimateSeq_expandTypes ts ts h
  | .bitconst _ _, _, h | .bitfield _, _, h | .bool, _, h | .uint _, _, h | .int _, _, h
  | .varuint _, _, h | .varint _, _, h | .dict, _, h | .cell, _, h | .msgAddress _, _, h
  | .addrStdCompact, _, h | .ref _, _, h
  | .optional _, _, h | .either _ _, _, h | .dynamicBitfield _, _, h | .dynamicUint _, _, h
  | .dynamicInt _, _, h | .variant _, _, h => estimateSeq_singleton h

theorem estimateSeq_expandTypes : ∀ (ts fields : List Ty), (∀ u ∈ expandTypes ts, u.Closed) →
    estimateSeq fields ts = estimateSeq [] (expandTypes ts)
  | [], _, _ => rfl
  | t :: ts, fields, h => by
    obtain ⟨hfirst, hrest⟩ := List.forall_mem_append.mp h
    rw [estimateSeq, expandTypes, estimateSeq_append, estimate_expandType t fields hfirst,
      estimateSeq_expandTypes ts fields hrest]

end

theorem ChainValue.estimate {l : List Elem} (h : ChainValue l) (fields : List Ty) :
    estimateSeq fields (types l) = estimateSeq [] (types (expandAll l)) := by
  rw [types_expandAll]
  refine estimateSeq_expandTypes _ _ ?_
  rw [← types_expandAll]
  exact forall_mem_types.mpr fun e he => (h e he).closed

/-! ## Cuts behind a header -/

/-- The sizes of a chain with `k` more elements in front. -/
def inFront (k : ℕ) : List ℕ → List ℕ
  | [] => []
  | n :: sizes => (k + n) :: sizes

theorem nest_inFront (l l' : List Elem) (sizes : List ℕ) :
    nest (inFront l.length sizes) (l ++ l') = l ++ nest sizes l' := by
  cases sizes with
  | nil => rfl
  | cons n sizes =>
    rw [inFront, nest, nest, List.take_length_add_append, List.drop_length_add_append,
      List.append_assoc]

/-- **Writer and reader agree on every cut**: cutting a header with the elements behind it is
cutting the elements at the estimated offset of the header. -/
theorem cellSizes_append {ts ts' : List Ty} (hne : ts' ≠ [])
    (hbits : (estimateSeq [] ts).maxBits ≤ Builder.maxBits)
    (hrefs : (estimateSeq [] ts).maxRefs < Builder.maxRefs)
    (hoffset : (estimateSeq [] ts).maxBits ≠ 0 ∨ (estimateSeq [] ts).maxRefs ≠ 0) :
    cellSizes 0 0 (ts ++ ts') =
      (cellSizes (estimateSeq [] ts).maxBits (estimateSeq [] ts).maxRefs ts').map
        (inFront ts.length) := by
  have hzero (a : ℕ) (ha : a < 2 ^ 32) : unsignedSub a 0 = a :=
    unsignedSub_of_le (Nat.zero_le a) ha
  have hts : ts.length ≠ 0 := by
    intro hnil
    obtain rfl := List.length_eq_zero_iff.mp hnil
    simp [estimateSeq] at hoffset
  rw [cellSizes.eq_1 0 0 (ts ++ ts'), cellSizes.eq_1 _ _ ts', hzero _ (by decide),
    hzero _ (by decide), hzero _ (by decide), unsignedSub_of_le hbits (by decide),
    unsignedSub_of_le hrefs.le (by decide),
    unsignedSub_of_le (Nat.le_sub_one_of_lt hrefs) (by decide),
    extractFit_append hbits hrefs.le, extractFit_append hbits (Nat.le_sub_one_of_lt hrefs)]
  generalize extractFit (Builder.maxBits - _) (Builder.maxRefs - _) ts' = lastFitCount
  generalize extractFit (Builder.maxBits - _) (Builder.maxRefs - 1 - _) ts' = fitCount
  rw [List.length_append]
  by_cases hlast : ts'.length = lastFitCount
  · -- header and elements fit together
    rw [if_pos (by rw [hlast]), if_pos hlast]
    rfl
  rw [if_neg (by omega), if_neg hlast, if_neg (by omega), List.drop_length_add_append]
  by_cases hfit : fitCount = 0
  · -- nothing fits behind the header
    subst hfit
    have hlt : ts.length + 0 < ts.length + ts'.length :=
      Nat.add_lt_add_left (List.length_pos_of_ne_nil hne) _
    rw [if_pos hlt, if_pos rfl, if_pos hoffset, Option.map_map]
    rfl
  rw [if_neg hfit]
  by_cases hlt : fitCount < ts'.length
  · rw [if_pos (by omega), if_pos hlt, Option.map_map]
    rfl
  · rw [if_neg (by omega), if_neg hlt]
    rfl

/-- What fits one cell is not cut. -/
theorem cellSizes_of_fits {ts : List Ty} (hbits : (estimateSeq [] ts).maxBits ≤ Builder.maxBits)
    (hrefs : (estimateSeq [] ts).maxRefs ≤ Builder.maxRefs) : cellSizes 0 0 ts = some [] := by
  rw [cellSizes, if_pos]
  rw [unsignedSub_of_le (Nat.zero_le _) (by decide), unsignedSub_of_le (Nat.zero_le _) (by decide)]
  exact (extractFit_of_fits hbits hrefs).symm

theorem expandAll_ne_nil {l : List Elem} (h : SeqEndsInLeaf (types l)) : expandAll l ≠ [] :=
  makeExpandedTuple_ne_nil _ _ h

section Behind

variable {hs base l : List Elem}

/-- The sizes of the chain behind a header, if it compiles. -/
theorem exists_sizes_behind (hbits : (estimateSeq [] (types (expandAll hs))).maxBits ≤ Builder.maxBits)
    (hrefs : (estimateSeq [] (types (expandAll hs))).maxRefs < Builder.maxRefs)
    (hpos : (estimateSeq [] (types (expandAll hs))).maxBits ≠ 0) (hbase : expandAll base ≠ [])
    (hchain : makeChainTuple 0 0 (types (hs ++ base)) (tupleVal (hs ++ base)) = some l) :
    ∃ sizes, cellSizes (estimateSeq [] (types (expandAll hs))).maxBits
        (estimateSeq [] (types (expandAll hs))).maxRefs (types (expandAll base)) = some sizes ∧
      cellSizes 0 0 (types (expandAll hs ++ expandAll base)) =
        some (inFront (expandAll hs).length sizes) ∧
      l = expandAll hs ++ nest sizes (expandAll base) := by
  have hne : expandAll (hs ++ base) ≠ [] := by
    rw [expandAll_append]
    exact List.append_ne_nil_of_right_ne_nil _ hbase
  have hneTypes : types (expandAll base) ≠ [] := fun h => hbase (List.map_eq_nil_iff.mp h)
  rw [makeChainTuple_of_ne_nil hne, ← types_expandAll] at hchain
  obtain ⟨sizes₀, hsizes₀, rfl⟩ := Option.map_eq_some_iff.mp hchain
  have happend : makeExpandedTuple (types (hs ++ base)) (tupleVal (hs ++ base)) =
      expandAll hs ++ expandAll base := expandAll_append hs base
  rw [expandAll_append] at hsizes₀
  have hsizes := hsizes₀
  rw [types_append, cellSizes_append hneTypes hbits hrefs (.inl hpos)] at hsizes
  obtain ⟨sizes, hbehind, rfl⟩ := Option.map_eq_some_iff.mp hsizes
  rw [length_types] at hsizes₀ ⊢
  exact ⟨sizes, hbehind, hsizes₀, by rw [happend, nest_inFront]⟩

/-- What the writer builds: the header, and the nested tuple of the elements behind it. -/
theorem exists_build_behind (hvalue : ChainValue (hs ++ base))
    (hbits : (estimateSeq [] (types hs)).maxBits ≤ Builder.maxBits)
    (hrefs : (estimateSeq [] (types hs)).maxRefs < Builder.maxRefs)
    (hpos : (estimateSeq [] (types hs)).maxBits ≠ 0) (hbase : expandAll base ≠ [])
    (hchain : makeChainTuple 0 0 (types (hs ++ base)) (tupleVal (hs ++ base)) = some l) :
    ∃ sizes b b', cellSizes (estimateSeq [] (types hs)).maxBits (estimateSeq [] (types hs)).maxRefs
        (types (expandAll base)) = some sizes ∧
      Layout (Builder.maxBits - (estimateSeq [] (types hs)).maxBits)
        (Builder.maxRefs - (estimateSeq [] (types hs)).maxRefs) sizes (types (expandAll base)) ∧
      buildSeq (types (expandAll hs)) (tupleVal (expandAll hs)) .empty = .ok b ∧
      buildSeq (types (nest sizes (expandAll base))) (tupleVal (nest sizes (expandAll base))) b =
        .ok b' ∧ buildElems l = .ok b'.endc := by
  obtain ⟨hheader, hfields⟩ := chainValue_append.mp hvalue
  rw [hheader.estimate] at hbits hrefs hpos ⊢
  obtain ⟨sizes, hbehind, hsizes, rfl⟩ := exists_sizes_behind hbits hrefs hpos hbase hchain
  have hneTypes : types (expandAll base) ≠ [] := fun h => hbase (List.map_eq_nil_iff.mp h)
  have hneAll : types (expandAll hs ++ expandAll base) ≠ [] := by
    rw [types_append]
    exact List.append_ne_nil_of_right_ne_nil _ hneTypes
  have hlayout := layout_cellSizes hneAll (Nat.zero_le _) (by decide) hsizes
  obtain ⟨hencodable, hfits, hfitsRefs⟩ := nest_of_layout hlayout
    (List.forall_mem_append.mpr ⟨hheader.encodable, hfields.encodable⟩)
  obtain ⟨b', -, hbuild⟩ := (buildSeq_stores_of_encodable hencodable).exists_ok
    (b := .empty) (by simpa [Slice.empty] using hfits) (by simpa [Slice.empty] using hfitsRefs)
  rw [nest_inFront, buildSeq_append] at hbuild
  obtain ⟨b, hb, hrest⟩ := bind_eq_ok.mp hbuild
  refine ⟨sizes, b, _, hbehind, layout_cellSizes hneTypes hbits hrefs hbehind, hb, hrest, ?_⟩
  show Except.map _ (buildSeq (types (expandAll hs ++ nest sizes (expandAll base))) _ _) = _
  rw [buildSeq_append, hb, Except.bind, hrest]
  rfl

/-- **The reader at the offset of a header returns the elements** that the writer has cut together
with the header. -/
theorem chain_behind (hvalue : ChainValue (hs ++ base))
    (hend : base = [] ∨ SeqEndsInLeaf (types base))
    (hbits : (estimateSeq [] (types hs)).maxBits ≤ Builder.maxBits)
    (hrefs : (estimateSeq [] (types hs)).maxRefs < Builder.maxRefs)
    (hpos : (estimateSeq [] (types hs)).maxBits ≠ 0)
    (hchain : makeChainTuple 0 0 (types (hs ++ base)) (tupleVal (hs ++ base)) = some l) :
    ∃ b s, buildSeq (types hs) (tupleVal hs) .empty = .ok b ∧
      buildElems l = .ok (Builder.endc (b ++ s)) ∧
      ∀ rest, parseElems (estimateSeq [] (types hs)).maxBits (estimateSeq [] (types hs)).maxRefs
        (types base) (s ++ rest) = .value base := by
  obtain ⟨hheader, hfields⟩ := chainValue_append.mp hvalue
  have hheaderBuild (b : Builder) : buildSeq (types (expandAll hs)) (tupleVal (expandAll hs)) b =
      buildSeq (types hs) (tupleVal hs) b := buildSeq_makeExpandedTuple _ _ b
  by_cases hbase : expandAll base = []
  · -- there is nothing behind the header
    rw [hheader.estimate] at hbits hrefs hpos
    obtain rfl : base = [] := hend.resolve_right fun h => expandAll_ne_nil h hbase
    rw [List.append_nil] at hchain
    have hne : expandAll hs ≠ [] := by
      intro hnil
      rw [hnil] at hpos
      exact hpos rfl
    rw [makeChainTuple_of_ne_nil hne, ← types_expandAll, cellSizes_of_fits hbits hrefs.le] at hchain
    obtain rfl : expandAll hs = l := Option.some.inj hchain
    obtain ⟨s, -, hbuild⟩ := (buildSeq_stores_of_encodable hheader.encodable).exists_ok
      (b := .empty) (by simpa [Slice.empty] using hbits) (by simpa [Slice.empty] using hrefs.le)
    refine ⟨_, .empty, (hheaderBuild _).symm.trans hbuild, ?_, fun _ => rfl⟩
    rw [Slice.append_empty]
    show Except.map _ (buildSeq (types (expandAll hs)) _ _) = _
    rw [hbuild]
    rfl
  · obtain ⟨sizes, b, b', hbehind, hlayout, hb, hrest, hcell⟩ :=
      exists_build_behind hvalue hbits hrefs hpos hbase hchain
    have hneTypes : types (expandAll base) ≠ [] := fun h => hbase (List.map_eq_nil_iff.mp h)
    have hbaseEnd : SeqEndsInLeaf (types base) := hend.resolve_left fun h => hbase (by rw [h]; rfl)
    -- the reader cuts at the same offset
    rw [types_expandAll base] at hbehind hneTypes hlayout
    obtain ⟨s, rfl, hread⟩ := nest_roundTrips (tupleVal base) hlayout hfields.encodable
      hfields.noRef (.inr hbaseEnd) hrest
    refine ⟨b, s, (hheaderBuild _).symm.trans hb, hcell, fun rest => ?_⟩
    rw [parseElems, chainTypes_of_ne_nil hneTypes, hbehind, Option.map_some, Option.bind_some,
      hread, elems_tupleVal]

end Behind

end TVMCompiler.Sdk
