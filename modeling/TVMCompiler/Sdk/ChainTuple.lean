import TVMCompiler.Sdk.Estimate

/-!
# Chains of cells

A tuple that may not fit one cell is flattened and cut into runs. Each run but the last is
followed by a reference to the next one. The cuts depend on the types only: a run takes as many
elements as fit for sure with one reference to spare, and the last run may use that reference.

## Main definitions

* `Elem`, `elems`, `tupleVal`: tuples as lists of typed values
* `expandElem`: `make_expanded_tuple`, the leaves of a value
* `extractFit`, `cellSizes`: how many elements each cell takes
* `nest`: the nested tuple of a row of elements
* `Layout`: each run fits its cell, with the reference to the next one
* `NeededCuts`: no cell behind a cut is empty or holds a single reference
* `Encodable`: an element that its builder stores within its estimate and its parser reads back

## Main results

* `layout_cellSizes`, `neededCuts_cellSizes`: the computed sizes are a layout, and each cut is
  needed
* `exists_cellSizes`: the sizes exist if each element leaves a reference to spare
* `nest_of_layout`: the nested tuple is built within the room of its first cell
-/

namespace TVMCompiler.Sdk

open Lib

/-! ## Tuples as lists of typed values -/

abbrev Elem := Σ t : Ty, t.Val

def types (l : List Elem) : List Ty := l.map Sigma.fst

@[simp] theorem types_nil : types [] = [] := rfl

@[simp] theorem types_cons (e : Elem) (l : List Elem) : types (e :: l) = e.1 :: types l := rfl

@[simp] theorem types_append (l l' : List Elem) : types (l ++ l') = types l ++ types l' :=
  List.map_append

@[simp] theorem length_types (l : List Elem) : (types l).length = l.length := List.length_map _

def tupleVal : (l : List Elem) → SeqVal (types l)
  | [] => ()
  | e :: l => (e.2, tupleVal l)

def elems : (ts : List Ty) → SeqVal ts → List Elem
  | [], _ => []
  | t :: ts, (v, vs) => ⟨t, v⟩ :: elems ts vs

@[simp] theorem types_elems : ∀ (ts : List Ty) (vs : SeqVal ts), types (elems ts vs) = ts
  | [], _ => rfl
  | _ :: ts, (_, vs) => congrArg _ (types_elems ts vs)

@[simp] theorem elems_tupleVal : ∀ l : List Elem, elems (types l) (tupleVal l) = l
  | [] => rfl
  | _ :: l => congrArg _ (elems_tupleVal l)

/-- A value of a sequence of types is the tuple of its elements. -/
theorem tupleVal_elems : ∀ (ts : List Ty) (vs : SeqVal ts),
    (⟨types (elems ts vs), tupleVal (elems ts vs)⟩ : Σ ts, SeqVal ts) = ⟨ts, vs⟩
  | [], _ => rfl
  | t :: ts, (v, vs) =>
    congrArg (fun r : Σ ts, SeqVal ts => (⟨t :: r.1, (v, r.2)⟩ : Σ ts, SeqVal ts))
      (tupleVal_elems ts vs)

namespace Elem

def tuple (l : List Elem) : Elem := ⟨.tuple (types l), tupleVal l⟩

def struct (l : List Elem) : Elem := ⟨.struct (types l), tupleVal l⟩

/-- A reference to a tuple. -/
def ref (l : List Elem) : Elem := ⟨.ref (.tuple (types l)), tupleVal l⟩

@[simp] theorem fst_ref (l : List Elem) : (ref l).1 = .ref (.tuple (types l)) := rfl

theorem tuple_elems (ts : List Ty) (vs : SeqVal ts) : tuple (elems ts vs) = ⟨.tuple ts, vs⟩ :=
  congrArg (fun r : Σ ts, SeqVal ts => (⟨.tuple r.1, r.2⟩ : Elem)) (tupleVal_elems ts vs)

theorem struct_elems (ts : List Ty) (vs : SeqVal ts) : struct (elems ts vs) = ⟨.struct ts, vs⟩ :=
  congrArg (fun r : Σ ts, SeqVal ts => (⟨.struct r.1, r.2⟩ : Elem)) (tupleVal_elems ts vs)

end Elem

/-! ## Flattening -/

mutual

/-- `expand_elem`, for an element and everything inside it. -/
def expandElem : (t : Ty) → t.Val → List Elem
  | .tuple ts, vs => makeExpandedTuple ts vs
  | .struct ts, vs => makeExpandedTuple ts vs
  | t, v => [⟨t, v⟩]

def makeExpandedTuple : (ts : List Ty) → SeqVal ts → List Elem
  | [], _ => []
  | t :: ts, (v, vs) => expandElem t v ++ makeExpandedTuple ts vs

end

mutual

/-- The types of the leaves. -/
def expandType : Ty → List Ty
  | .tuple ts => expandTypes ts
  | .struct ts => expandTypes ts
  | t => [t]

def expandTypes : List Ty → List Ty
  | [] => []
  | t :: ts => expandType t ++ expandTypes ts

end

mutual

@[simp] theorem types_expandElem : ∀ (t : Ty) (v : t.Val), types (expandElem t v) = expandType t
  | .tuple ts, vs => types_makeExpandedTuple ts vs
  | .struct ts, vs => types_makeExpandedTuple ts vs
  | .bitconst _ _, _ | .bitfield _, _ | .bool, _ | .uint _, _ | .int _, _ | .varuint _, _
  | .varint _, _ | .dict, _ | .cell, _ | .msgAddress _, _ | .addrStdCompact, _ | .ref _, _
  | .optional _, _ | .either _ _, _
  | .dynamicBitfield _, _ | .dynamicUint _, _ | .dynamicInt _, _ | .variant _, _ => rfl

@[simp] theorem types_makeExpandedTuple : ∀ (ts : List Ty) (vs : SeqVal ts),
    types (makeExpandedTuple ts vs) = expandTypes ts
  | [], _ => rfl
  | t :: ts, (v, vs) => by
    rw [makeExpandedTuple, types_append, types_expandElem t v, types_makeExpandedTuple ts vs,
      expandTypes]

end

/-! ## Cutting -/

/-- `extract_fit`: how many elements fit into the bits and references for sure. -/
def extractFit (bits refs : ℕ) : List Ty → ℕ
  | [] => 0
  | t :: ts =>
    if (estimate [] t).maxBits ≤ bits ∧ (estimate [] t).maxRefs ≤ refs then
      extractFit (bits - (estimate [] t).maxBits) (refs - (estimate [] t).maxRefs) ts + 1
    else 0

/-- The difference of two numbers of type `unsigned`. -/
def unsignedSub (a b : ℕ) : ℕ := (a + 2 ^ 32 - b) % 2 ^ 32

theorem unsignedSub_of_le {a b : ℕ} (hle : b ≤ a) (hlt : a < 2 ^ 32) : unsignedSub a b = a - b := by
  unfold unsignedSub
  omega

/-- `make_chain_tuple_impl`: the sizes of all runs but the last, for a tuple that begins at an
offset in its first cell. `none` is the failed assertion that an element fits an empty cell. -/
def cellSizes (offset refsOffset : ℕ) (ts : List Ty) : Option (List ℕ) :=
  let bits := unsignedSub Builder.maxBits offset
  let lastFitCount := extractFit bits (unsignedSub Builder.maxRefs refsOffset) ts
  let fitCount := extractFit bits (unsignedSub (Builder.maxRefs - 1) refsOffset) ts
  if ts.length = lastFitCount then some []
  else if fitCount = 0 then
    -- nothing fits behind the offset, so that all elements go to the next cell
    if offset ≠ 0 ∨ refsOffset ≠ 0 then (cellSizes 0 0 ts).map (0 :: ·) else none
  else if fitCount < ts.length then (cellSizes 0 0 (ts.drop fitCount)).map (fitCount :: ·)
  else some []
termination_by (ts.length, if offset ≠ 0 ∨ refsOffset ≠ 0 then 1 else 0)
decreasing_by
  · rename_i hoffset
    rw [if_neg (by simp), if_pos hoffset]
    exact Prod.Lex.right _ Nat.zero_lt_one
  · rename_i hfit hlt
    refine Prod.Lex.left _ _ ?_
    rw [List.length_drop]
    exact Nat.sub_lt (Nat.zero_lt_of_lt hlt) (Nat.pos_of_ne_zero hfit)

/-- The elements of the first cell, and a reference to the rest. -/
def nest : List ℕ → List Elem → List Elem
  | [], l => l
  | n :: sizes, l => l.take n ++ [.ref (nest sizes (l.drop n))]

/-- The type of the nested tuple. -/
def nestTypes : List ℕ → List Ty → List Ty
  | [], ts => ts
  | n :: sizes, ts => ts.take n ++ [.ref (.tuple (nestTypes sizes (ts.drop n)))]

@[simp] theorem types_nest : ∀ (sizes : List ℕ) (l : List Elem),
    types (nest sizes l) = nestTypes sizes (types l)
  | [], _ => rfl
  | n :: sizes, l => by
    have hdrop : types (l.drop n) = (types l).drop n := List.map_drop
    have htake : types (l.take n) = (types l).take n := List.map_take
    rw [nest, types_append, htake, types_cons, Elem.fst_ref, types_nest sizes, hdrop, nestTypes,
      types_nil]

/-! ## Estimates of runs -/

theorem estimateSeq_append (fields ts ts' : List Ty) :
    estimateSeq fields (ts ++ ts') = estimateSeq fields ts + estimateSeq fields ts' := by
  induction ts with
  | nil => ext <;> simp [estimateSeq, Estimate.zero_add]
  | cons t ts ih => rw [List.cons_append, estimateSeq, ih, estimateSeq, Estimate.add_assoc]

/-- The elements that are taken fit. -/
theorem extractFit_spec (bits refs : ℕ) (ts : List Ty) :
    (estimateSeq [] (ts.take (extractFit bits refs ts))).maxBits ≤ bits ∧
      (estimateSeq [] (ts.take (extractFit bits refs ts))).maxRefs ≤ refs := by
  induction ts generalizing bits refs with
  | nil => exact ⟨Nat.zero_le _, Nat.zero_le _⟩
  | cons t ts ih =>
    by_cases hfit : (estimate [] t).maxBits ≤ bits ∧ (estimate [] t).maxRefs ≤ refs
    · obtain ⟨hbits, hrefs⟩ := ih (bits - (estimate [] t).maxBits) (refs - (estimate [] t).maxRefs)
      rw [extractFit, if_pos hfit, List.take_succ_cons, estimateSeq]
      simp only [Estimate.add_maxBits, Estimate.add_maxRefs]
      omega
    · rw [extractFit, if_neg hfit]
      exact ⟨Nat.zero_le _, Nat.zero_le _⟩

/-- Elements in front that fit are all taken. -/
theorem extractFit_append {bits refs : ℕ} {ts : List Ty}
    (hbits : (estimateSeq [] ts).maxBits ≤ bits) (hrefs : (estimateSeq [] ts).maxRefs ≤ refs)
    (ts' : List Ty) : extractFit bits refs (ts ++ ts') = ts.length +
      extractFit (bits - (estimateSeq [] ts).maxBits) (refs - (estimateSeq [] ts).maxRefs) ts' := by
  induction ts generalizing bits refs with
  | nil => simp [estimateSeq]
  | cons t ts ih =>
    rw [estimateSeq] at hbits hrefs ⊢
    simp only [Estimate.add_maxBits, Estimate.add_maxRefs] at hbits hrefs ⊢
    rw [List.cons_append, extractFit, if_pos ⟨by omega, by omega⟩,
      ih (by omega) (by omega), Nat.sub_sub, Nat.sub_sub, List.length_cons]
    omega

theorem extractFit_of_fits {bits refs : ℕ} {ts : List Ty}
    (hbits : (estimateSeq [] ts).maxBits ≤ bits) (hrefs : (estimateSeq [] ts).maxRefs ≤ refs) :
    extractFit bits refs ts = ts.length := by
  have h := extractFit_append hbits hrefs []
  rwa [List.append_nil] at h

theorem extractFit_ne_zero {bits refs : ℕ} {t : Ty} {ts : List Ty}
    (hbits : (estimate [] t).maxBits ≤ bits) (hrefs : (estimate [] t).maxRefs ≤ refs) :
    extractFit bits refs (t :: ts) ≠ 0 := by
  rw [extractFit, if_pos ⟨hbits, hrefs⟩]
  exact Nat.succ_ne_zero _

/-! ## Layouts -/

/-- Each run fits the room that its cell has left, and all but the last one leave a reference. -/
def Layout (bits refs : ℕ) : List ℕ → List Ty → Prop
  | [], ts => ts ≠ [] ∧ (estimateSeq [] ts).maxBits ≤ bits ∧ (estimateSeq [] ts).maxRefs ≤ refs
  | n :: sizes, ts => (estimateSeq [] (ts.take n)).maxBits ≤ bits ∧
      (estimateSeq [] (ts.take n)).maxRefs + 1 ≤ refs ∧
      Layout Builder.maxBits Builder.maxRefs sizes (ts.drop n)

theorem Layout.ne_nil {bits refs : ℕ} {sizes : List ℕ} {ts : List Ty}
    (h : Layout bits refs sizes ts) : ts ≠ [] := by
  induction sizes generalizing bits refs ts with
  | nil => exact h.1
  | cons n sizes ih =>
    rintro rfl
    exact ih h.2.2 List.drop_nil

/-- **The computed sizes are a layout** of the cell behind the offset. -/
theorem layout_cellSizes {offset refsOffset : ℕ} {ts : List Ty} (hts : ts ≠ [])
    (hoffset : offset ≤ Builder.maxBits) (hrefs : refsOffset < Builder.maxRefs) :
    ∀ {sizes : List ℕ}, cellSizes offset refsOffset ts = some sizes →
      Layout (Builder.maxBits - offset) (Builder.maxRefs - refsOffset) sizes ts := by
  have hbits : unsignedSub Builder.maxBits offset = Builder.maxBits - offset :=
    unsignedSub_of_le hoffset (by decide)
  have hlastRefs : unsignedSub Builder.maxRefs refsOffset = Builder.maxRefs - refsOffset :=
    unsignedSub_of_le hrefs.le (by decide)
  have hfitRefs : unsignedSub (Builder.maxRefs - 1) refsOffset = Builder.maxRefs - 1 - refsOffset :=
    unsignedSub_of_le (Nat.le_sub_one_of_lt hrefs) (by decide)
  fun_induction cellSizes offset refsOffset ts with
  | case1 offset refsOffset ts bits lastFitCount hlast =>
    rintro _ ⟨⟩
    have hfits := extractFit_spec bits (unsignedSub Builder.maxRefs refsOffset) ts
    rw [show extractFit _ _ ts = ts.length from hlast.symm, List.take_length] at hfits
    exact ⟨hts, hbits ▸ hfits.1, hlastRefs ▸ hfits.2⟩
  | case2 offset refsOffset ts bits lastFitCount fitCount hlast hzero hne ih =>
    intro sizes h
    obtain ⟨sizes', hsizes, rfl⟩ := Option.map_eq_some_iff.mp h
    have hrest := ih hts (Nat.zero_le _) (by decide) (by decide) (by decide) (by decide) hsizes
    refine ⟨Nat.zero_le _, ?_, hrest⟩
    show 0 + 1 ≤ _
    omega
  | case3 offset refsOffset ts bits lastFitCount fitCount hlast hzero hne => rintro _ ⟨⟩
  | case4 offset refsOffset ts bits lastFitCount fitCount hlast hzero hlt ih =>
    intro sizes h
    obtain ⟨sizes', hsizes, rfl⟩ := Option.map_eq_some_iff.mp h
    have hrest := ih (List.ne_nil_of_length_pos (by rw [List.length_drop]; omega))
      (Nat.zero_le _) (by decide) (by decide) (by decide) (by decide) hsizes
    have hfits := extractFit_spec bits (unsignedSub (Builder.maxRefs - 1) refsOffset) ts
    refine ⟨hbits ▸ hfits.1, ?_, hrest⟩
    have hle : (estimateSeq [] (ts.take fitCount)).maxRefs ≤ Builder.maxRefs - 1 - refsOffset :=
      hfits.2.trans_eq hfitRefs
    omega
  | case5 offset refsOffset ts bits lastFitCount fitCount hlast hzero hlt =>
    rintro _ ⟨⟩
    have hfits := extractFit_spec bits (unsignedSub (Builder.maxRefs - 1) refsOffset) ts
    rw [List.take_of_length_le (not_lt.mp hlt)] at hfits
    exact ⟨hts, hbits ▸ hfits.1, (hfits.2.trans_eq hfitRefs).trans (by omega)⟩

/-- Each cut is needed: no cell behind one is empty, and more than a single reference is left
behind the last one. -/
def NeededCuts : List ℕ → List Ty → Prop
  | [], _ => True
  | [n], ts =>
    (estimateSeq [] (ts.drop n)).maxBits ≠ 0 ∨ 1 < (estimateSeq [] (ts.drop n)).maxRefs
  | n :: m :: sizes, ts => m ≠ 0 ∧ NeededCuts (m :: sizes) (ts.drop n)

/-- What leaves a reference to spare is not cut in front of a single reference. -/
theorem not_single_of_cut {bits refs n : ℕ} {ts : List Ty}
    (hbits : (estimateSeq [] (ts.take n)).maxBits ≤ bits)
    (hrefs : (estimateSeq [] (ts.take n)).maxRefs < refs)
    (hlast : ts.length ≠ extractFit bits refs ts) :
    (estimateSeq [] (ts.drop n)).maxBits ≠ 0 ∨ 1 < (estimateSeq [] (ts.drop n)).maxRefs := by
  by_contra! hsmall
  obtain ⟨hzero, hone⟩ := hsmall
  refine hlast (extractFit_of_fits ?_ ?_).symm
  all_goals
    rw [← List.take_append_drop n ts, estimateSeq_append]
    simp only [Estimate.add_maxBits, Estimate.add_maxRefs]
    omega

/-- The first cell is not empty if it begins at no offset, and each cut is needed. -/
theorem neededCuts_cellSizes {offset refsOffset : ℕ} {ts : List Ty}
    (hoffset : offset ≤ Builder.maxBits) (hrefs : refsOffset < Builder.maxRefs) :
    ∀ {sizes : List ℕ}, cellSizes offset refsOffset ts = some sizes → NeededCuts sizes ts ∧
      (offset = 0 ∧ refsOffset = 0 → ∀ n ∈ sizes.head?, n ≠ 0) := by
  have hlastRefs : unsignedSub Builder.maxRefs refsOffset = Builder.maxRefs - refsOffset :=
    unsignedSub_of_le hrefs.le (by decide)
  have hfitRefs : unsignedSub (Builder.maxRefs - 1) refsOffset = Builder.maxRefs - 1 - refsOffset :=
    unsignedSub_of_le (Nat.le_sub_one_of_lt hrefs) (by decide)
  have hspare : unsignedSub (Builder.maxRefs - 1) refsOffset <
      unsignedSub Builder.maxRefs refsOffset := by
    rw [hlastRefs, hfitRefs]
    omega
  fun_induction cellSizes offset refsOffset ts with
  | case1 =>
    rintro _ ⟨⟩
    exact ⟨trivial, fun _ => nofun⟩
  | case2 offset refsOffset ts bits lastFitCount fitCount hlast hzero hne ih =>
    intro sizes h
    obtain ⟨sizes', hsizes, rfl⟩ := Option.map_eq_some_iff.mp h
    obtain ⟨hneeded, hfirst⟩ :=
      ih (Nat.zero_le _) (by decide) (by decide) (by decide) (by decide) hsizes
    refine ⟨?_, fun ⟨h₁, h₂⟩ => absurd hne (by omega)⟩
    cases sizes' with
    | nil => exact not_single_of_cut (Nat.zero_le _) (Nat.zero_lt_of_lt hspare) hlast
    | cons m sizes' => exact ⟨hfirst ⟨rfl, rfl⟩ m rfl, hneeded⟩
  | case3 => rintro _ ⟨⟩
  | case4 offset refsOffset ts bits lastFitCount fitCount hlast hzero hlt ih =>
    intro sizes h
    obtain ⟨sizes', hsizes, rfl⟩ := Option.map_eq_some_iff.mp h
    obtain ⟨hneeded, hfirst⟩ :=
      ih (Nat.zero_le _) (by decide) (by decide) (by decide) (by decide) hsizes
    refine ⟨?_, fun _ n hn => by obtain rfl := Option.some.inj hn; exact hzero⟩
    have hfits := extractFit_spec bits (unsignedSub (Builder.maxRefs - 1) refsOffset) ts
    cases sizes' with
    | nil => exact not_single_of_cut hfits.1 (Nat.lt_of_le_of_lt hfits.2 hspare) hlast
    | cons m sizes' => exact ⟨hfirst ⟨rfl, rfl⟩ m rfl, hneeded⟩
  | case5 =>
    rintro _ ⟨⟩
    exact ⟨trivial, fun _ => nofun⟩

/-- An element fits an empty cell and leaves a reference to spare. -/
def LeavesRef (t : Ty) : Prop :=
  (estimate [] t).maxBits ≤ Builder.maxBits ∧ (estimate [] t).maxRefs < Builder.maxRefs

instance : DecidablePred LeavesRef := fun _ => inferInstanceAs (Decidable (_ ∧ _))

/-- **A chain exists** if each element leaves a reference to spare. -/
theorem exists_cellSizes (offset refsOffset : ℕ) {ts : List Ty} (h : ∀ t ∈ ts, LeavesRef t) :
    ∃ sizes, cellSizes offset refsOffset ts = some sizes := by
  fun_induction cellSizes offset refsOffset ts with
  | case1 => exact ⟨_, rfl⟩
  | case2 offset refsOffset ts bits lastFitCount fitCount hlast hzero hne ih =>
    obtain ⟨sizes, hsizes⟩ := ih h
    exact ⟨0 :: sizes, by rw [hsizes]; rfl⟩
  | case3 offset refsOffset ts bits lastFitCount fitCount hlast hzero hne =>
    -- the first element would fit the empty cell
    obtain ⟨rfl, rfl⟩ : offset = 0 ∧ refsOffset = 0 := by omega
    cases ts with
    | nil => exact absurd rfl hlast
    | cons t ts =>
      obtain ⟨hbits, hrefs⟩ := h t List.mem_cons_self
      exact absurd hzero (extractFit_ne_zero hbits (Nat.le_sub_one_of_lt hrefs))
  | case4 offset refsOffset ts bits lastFitCount fitCount hlast hzero hlt ih =>
    obtain ⟨sizes, hsizes⟩ := ih fun t ht => h t (List.mem_of_mem_drop ht)
    exact ⟨fitCount :: sizes, by rw [hsizes]; rfl⟩
  | case5 => exact ⟨_, rfl⟩

/-! ## Building nested tuples -/

/-- The builder stores the element within its estimate, and the parser reads it back. -/
structure Encodable (e : Elem) : Prop where
  estimable : e.1.Estimable []
  wellFormed : e.1.WellFormed
  inRange : InRange e.1 e.2
  fits : Fits e.1 [] e.2

theorem estimableSeq_iff (fields ts : List Ty) :
    EstimableSeq fields ts ↔ ∀ t ∈ ts, t.Estimable fields := by
  induction ts with
  | nil => exact iff_of_true trivial (List.forall_mem_nil _)
  | cons t ts ih => rw [EstimableSeq, ih, List.forall_mem_cons]

theorem wellFormedSeq_iff (ts : List Ty) : WellFormedSeq ts ↔ ∀ t ∈ ts, t.WellFormed := by
  induction ts with
  | nil => exact iff_of_true trivial (List.forall_mem_nil _)
  | cons t ts ih => rw [WellFormedSeq, ih, List.forall_mem_cons]

theorem inRangeSeq_iff (l : List Elem) :
    InRangeSeq (types l) (tupleVal l) ↔ ∀ e ∈ l, InRange e.1 e.2 := by
  induction l with
  | nil => exact iff_of_true trivial (List.forall_mem_nil _)
  | cons e l ih => rw [List.forall_mem_cons, ← ih]; rfl

theorem fitsSeq_iff (l : List Elem) :
    FitsSeq false (types l) [] (tupleVal l) ↔ ∀ e ∈ l, Fits e.1 [] e.2 := by
  induction l with
  | nil => exact iff_of_true trivial (List.forall_mem_nil _)
  | cons e l ih => rw [List.forall_mem_cons, ← ih]; rfl

theorem forall_mem_types {p : Ty → Prop} {l : List Elem} :
    (∀ t ∈ types l, p t) ↔ ∀ e ∈ l, p e.1 :=
  List.forall_mem_map

/-- A tuple of encodable elements is stored within the sum of their estimates. -/
theorem buildSeq_stores_of_encodable {l : List Elem} (h : ∀ e ∈ l, Encodable e) :
    Stores (estimateSeq [] (types l)) (buildSeq (types l) (tupleVal l)) :=
  buildSeq_stores false (types l) [] [] (tupleVal l)
    ((estimableSeq_iff _ _).mpr (forall_mem_types.mpr fun e he => (h e he).estimable)) (.nil _)
    (fun hstruct => by cases hstruct) ((inRangeSeq_iff l).mpr fun e he => (h e he).inRange)
    ((fitsSeq_iff l).mpr fun e he => (h e he).fits)

/-- A tuple of encodable elements is read back. -/
theorem tuple_roundTrips {l : List Elem} (h : ∀ e ∈ l, Encodable e) :
    RoundTrips (build (.tuple (types l)) (tupleVal l)) (parse (.tuple (types l)) [])
      (some (tupleVal l)) :=
  build_roundTrips (.tuple (types l)) [] (tupleVal l)
    ((wellFormedSeq_iff _).mpr (forall_mem_types.mpr fun e he => (h e he).wellFormed))
    ((fitsSeq_iff l).mpr fun e he => (h e he).fits)

/-- What fits a cell is built. -/
theorem Stores.exists_ok {e : Estimate} {write : Builder → Except TvmException Builder}
    (h : Stores e write) {b : Builder} (hbits : b.bits.length + e.maxBits ≤ Builder.maxBits)
    (hrefs : b.refs.length + e.maxRefs ≤ Builder.maxRefs) :
    ∃ s, e.Contains s ∧ write b = .ok (b ++ s) := by
  obtain ⟨s, hs, hstore⟩ := h
  refine ⟨s, hs, ?_⟩
  have hb : b.Valid := ⟨by omega, by omega⟩
  have hbs : Builder.Valid (b ++ s) := by
    have hsbits := hs.maxBits
    have hsrefs := hs.maxRefs
    exact ⟨by simp; omega, by simp; omega⟩
  rw [hstore b hb, store_eq_ok hbs]

/-- The nested tuple of encodable elements is made of encodable elements, and is built within
the room that its first cell has left. -/
theorem nest_of_layout {bits refs : ℕ} {sizes : List ℕ} {l : List Elem}
    (h : Layout bits refs sizes (types l)) (hl : ∀ e ∈ l, Encodable e) :
    (∀ e ∈ nest sizes l, Encodable e) ∧
      (estimateSeq [] (types (nest sizes l))).maxBits ≤ bits ∧
      (estimateSeq [] (types (nest sizes l))).maxRefs ≤ refs := by
  induction sizes generalizing bits refs l with
  | nil => exact ⟨hl, h.2⟩
  | cons n sizes ih =>
    obtain ⟨hbits, hrefs, hrest⟩ := h
    have hdrop : types (l.drop n) = (types l).drop n := List.map_drop
    have htake : types (l.take n) = (types l).take n := List.map_take
    obtain ⟨hencodable, hinnerBits, hinnerRefs⟩ :=
      ih (hdrop ▸ hrest) fun e he => hl e (List.mem_of_mem_drop he)
    -- the next cell is built from an empty one
    obtain ⟨s, -, hinner⟩ := (buildSeq_stores_of_encodable hencodable).exists_ok
      (b := .empty) (by simpa [Slice.empty] using hinnerBits) (by simpa [Slice.empty] using hinnerRefs)
    refine ⟨?_, ?_⟩
    · intro e he
      rcases List.mem_append.mp he with he | he
      · exact hl e (List.mem_of_mem_take he)
      · obtain rfl := List.mem_singleton.mp he
        refine ⟨trivial, ?_, ⟨_, hinner⟩, ?_⟩
        · exact (wellFormedSeq_iff _).mpr (forall_mem_types.mpr fun e he => (hencodable e he).wellFormed)
        · exact (fitsSeq_iff _).mpr fun e he => (hencodable e he).fits
    · rw [nest, types_append, estimateSeq_append, htake, types_cons, types_nil]
      simp only [Estimate.add_maxBits, Estimate.add_maxRefs, estimateSeq, estimate, Elem.fst_ref]
      exact ⟨by simpa [Estimate.oneRef] using hbits, by simpa [Estimate.oneRef] using hrefs⟩

end TVMCompiler.Sdk
