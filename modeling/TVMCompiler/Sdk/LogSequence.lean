import TVMCompiler.Sdk.CellIterator

/-!
# Log sequences

A `log_sequence` takes new elements in front of its chain of cells: at the front of the first cell
if they fit, and otherwise in a new cell that refers to the chain so far. The elements are read
from the last one to the first.

## Main definitions

* `LogSequence.pushBack`: `log_sequence::push_back`

## Main results

* `pushBack_ahead`: a new element lies ahead of those before it
* `pushAll_iterate`: the iterator finds the pushed elements in reverse
-/

namespace TVMCompiler.Sdk

open Lib

namespace LogSequence

def maxCellBits : ℕ := 1023

/-- `create`. -/
def create : Cell := Builder.endc .empty

/-- `push_back`. -/
def pushBack (t : Ty) (cl : Cell) (elem : t.Val) : Except TvmException Cell :=
  let sl := cl.ctos
  let curBits := sl.bits.length
  if curBits = 0 then (build t elem .empty).map Builder.endc
  else if curBits + (estimate [] t).maxBits < maxCellBits then
    ((build t elem .empty).bind (Builder.store sl)).map Builder.endc
  else ((Builder.stref cl .empty).bind (build t elem)).map Builder.endc

/-- The elements, pushed one by one. -/
def pushAll (t : Ty) (elems : List t.Val) : Except TvmException Cell :=
  elems.foldlM (pushBack t) create

variable {t : Ty} {cl : Cell} {vs : List t.Val} {v : t.Val} {bits : List Bool}

/-- The elements ahead in the sequence, which is a chain. An empty cell has no elements. -/
structure Holds (t : Ty) (cl : Cell) (vs : List t.Val) : Prop where
  ahead : Ahead t cl.ctos vs
  chain : IsChain cl
  empty : cl.ctos.bits = [] → vs = []

theorem holds_create (t : Ty) : Holds t create [] :=
  ⟨.nil, .last (Nat.zero_le _), fun _ => rfl⟩

/-- **A new element lies ahead of those before it**, whether it fits the cell or not. -/
theorem pushBack_holds (h : Holds t cl vs) (henc : Encodes t v bits)
    (hlen : bits.length ≤ (estimate [] t).maxBits) :
    ∃ cl', pushBack t cl v = .ok cl' ∧ Holds t cl' (v :: vs) := by
  obtain ⟨hahead, hchain, hempty⟩ := h
  by_cases hbits : cl.ctos.bits = []
  · -- the first element
    obtain rfl := hempty hbits
    refine ⟨.mk bits [], ?_, ?_, .last henc.length_le, fun hnil => absurd hnil henc.ne_nil⟩
    · show (if cl.ctos.bits.length = 0 then _ else _) = _
      rw [if_pos (List.length_eq_zero_iff.mpr hbits), henc.build_empty]
      rfl
    · have happend : Ahead t (.ofBits bits ++ .empty) [v] := .elem henc .nil
      rwa [Slice.append_empty] at happend
  · have hne : cl.ctos.bits.length ≠ 0 := fun hzero => hbits (List.length_eq_zero_iff.mp hzero)
    by_cases hfits : cl.ctos.bits.length + (estimate [] t).maxBits < maxCellBits
    · have hroom : bits.length + cl.ctos.bits.length ≤ Builder.maxBits := by
        unfold maxCellBits at hfits
        unfold Builder.maxBits
        omega
      have hrefs : cl.ctos.refs.length ≤ 1 := by
        cases hchain with
        | last _ => exact Nat.zero_le 1
        | next _ _ => exact le_rfl
      have hvalid : Builder.Valid (Slice.ofBits bits ++ cl.ctos) := by
        constructor
        · rw [Slice.append_bits, List.length_append]
          exact hroom
        · exact hrefs.trans (by decide)
      refine ⟨.mk (bits ++ cl.ctos.bits) cl.ctos.refs, ?_, .elem henc hahead,
        hchain.append hroom,
        fun hnil => absurd (List.append_eq_nil_iff.mp hnil).1 henc.ne_nil⟩
      show (if cl.ctos.bits.length = 0 then _ else if _ then _ else _) = _
      rw [if_neg hne, if_pos hfits, henc.build_empty]
      show (Except.map Builder.endc (Builder.store cl.ctos (Slice.ofBits bits))) = _
      rw [store_eq_ok hvalid]
      rfl
    · have hstref : Builder.stref cl .empty = .ok ⟨[], [cl]⟩ := rfl
      have hvalid : Builder.Valid ⟨[], [cl]⟩ := ⟨Nat.zero_le _, Nat.succ_le_succ (Nat.zero_le 3)⟩
      have hvalid' : Builder.Valid ((⟨[], [cl]⟩ : Slice) ++ Slice.ofBits bits) :=
        ⟨henc.length_le, Nat.succ_le_succ (Nat.zero_le 3)⟩
      refine ⟨.mk bits [cl], ?_, ?_, .next henc.length_le hchain,
        fun hnil => absurd hnil henc.ne_nil⟩
      · show (if cl.ctos.bits.length = 0 then _ else if _ then _ else _) = _
        rw [if_neg hne, if_neg hfits, hstref]
        show Except.map Builder.endc (build t v ⟨[], [cl]⟩) = _
        rw [henc.build _ hvalid, store_eq_ok hvalid']
        rfl
      · -- the iterator leaves the new cell when its element is read
        have happend : Ahead t (.ofBits bits ++ ⟨[], [cl]⟩) (v :: vs) :=
          .elem henc (.ref hbits hahead)
        rwa [show (Slice.ofBits bits ++ (⟨[], [cl]⟩ : Slice)) = (Cell.mk bits [cl]).ctos by
          ext1
          · exact List.append_nil _
          · rfl] at happend

theorem pushAll_holds (elems : List t.Val)
    (helems : ∀ v ∈ elems, ∃ bits, Encodes t v bits ∧ bits.length ≤ (estimate [] t).maxBits)
    (h : Holds t cl vs) :
    ∃ cl', elems.foldlM (pushBack t) cl = .ok cl' ∧ Holds t cl' (elems.reverse ++ vs) := by
  induction elems generalizing cl vs with
  | nil => exact ⟨cl, rfl, h⟩
  | cons v elems ih =>
    obtain ⟨bits, henc, hlen⟩ := helems v List.mem_cons_self
    obtain ⟨cl₁, hpush, hnext⟩ := pushBack_holds h henc hlen
    obtain ⟨cl', hrest, hholds⟩ := ih (fun v' hv' => helems v' (List.mem_cons_of_mem _ hv')) hnext
    refine ⟨cl', ?_, ?_⟩
    · rw [List.foldlM_cons, hpush]
      exact hrest
    · rwa [List.reverse_cons, List.append_assoc]

/-- **Log sequences replay in reverse**: for a type of a fixed positive size below that of a cell,
all pushes succeed, each makes a chain of cells within the limits, and the iterator finds the
elements from the last one to the first, if the parser reads back each of them. -/
theorem pushAll_iterate (t : Ty) (hest : t.Estimable [])
    (hfixed : (estimate [] t).minBits = (estimate [] t).maxBits)
    (hpos : 0 < (estimate [] t).maxBits) (hsize : (estimate [] t).maxBits < maxCellBits)
    (hrefs : (estimate [] t).maxRefs = 0) (elems : List t.Val)
    (hvalues : ∀ v ∈ elems, InRange t v ∧ Fits t [] v)
    (hread : ∀ v ∈ elems, RoundTrips (build t v) (parse t []) (some v)) :
    ∃ cl, pushAll t elems = .ok cl ∧ IsChain cl ∧ ∃ n, ∀ fuel, n ≤ fuel →
      CellIterator.iterate t fuel cl = some (.ok elems.reverse) := by
  have helems : ∀ v ∈ elems,
      ∃ bits, Encodes t v bits ∧ bits.length ≤ (estimate [] t).maxBits := by
    intro v hv
    obtain ⟨hrange, hfits⟩ := hvalues v hv
    obtain ⟨⟨bits, refs⟩, hs, hstore⟩ := build_stores t [] [] v hest (.nil []) hrange hfits
    obtain rfl : refs = [] := by
      have hnone := hs.maxRefs
      rw [hrefs] at hnone
      exact List.length_eq_zero_iff.mp (Nat.le_zero.mp hnone)
    have hmax : bits.length ≤ (estimate [] t).maxBits := hs.maxBits
    have hmin : (estimate [] t).minBits ≤ bits.length := hs.minBits
    have hne : bits ≠ [] := List.ne_nil_of_length_pos (by omega)
    have hvalid : Builder.Valid (.empty ++ Slice.ofBits bits) :=
      ⟨hmax.trans hsize.le, Nat.zero_le _⟩
    have hbuild : build t v .empty = .ok (.ofBits bits) := by
      rw [hstore .empty valid_empty]
      exact store_eq_ok hvalid
    exact ⟨bits, encodes_of_build hne hbuild (hread v hv), hmax⟩
  obtain ⟨cl, hrun, hahead, hchain, hempty⟩ := pushAll_holds elems helems (holds_create t)
  rw [List.append_nil] at hahead hempty
  refine ⟨cl, hrun, hchain, elems.reverse.length + 1, fun fuel hfuel => ?_⟩
  obtain ⟨more, rfl⟩ := Nat.exists_eq_add_of_le' hfuel
  exact CellIterator.iterate_of_ahead hahead hempty more

section Example

/-- The second element begins a cell. -/
theorem pushAll_iterate_bitfield :
    ∃ cl, pushAll (.bitfield 512) [List.replicate 512 true, List.replicate 512 false] = .ok cl ∧
      IsChain cl ∧ ∃ n, ∀ fuel, n ≤ fuel → CellIterator.iterate (.bitfield 512) fuel cl =
        some (.ok [List.replicate 512 false, List.replicate 512 true]) := by
  have hlength : ∀ bs ∈ [List.replicate 512 true, List.replicate 512 false], bs.length = 512 :=
    List.forall_mem_cons.mpr ⟨List.length_replicate,
      List.forall_mem_singleton.mpr List.length_replicate⟩
  exact pushAll_iterate (.bitfield 512) trivial rfl (by decide) (by decide) rfl
    [List.replicate 512 true, List.replicate 512 false]
    (fun bs hbs => ⟨trivial, hlength bs hbs⟩)
    (fun bs hbs => build_roundTrips (.bitfield 512) [] bs trivial (hlength bs hbs))

/-- An element of a variant without tags is read as one of the first alternative. -/
theorem not_pushAll_iterate_untagged :
    (estimate [] (.variant [.uint 8, .int 8])).minBits = 8 ∧
      (estimate [] (.variant [.uint 8, .int 8])).maxBits = 8 ∧
      ¬ ∃ cl, pushAll (.variant [.uint 8, .int 8]) [.inr (.inl (-1 : ℤ))] = .ok cl ∧
        ∃ n, ∀ fuel, n ≤ fuel → CellIterator.iterate (.variant [.uint 8, .int 8]) fuel cl =
          some (.ok [.inr (.inl (-1 : ℤ))]) := by
  refine ⟨rfl, rfl, ?_⟩
  rintro ⟨cl, hcl, n, hread⟩
  obtain rfl : cl = .mk (intBits 8 (-1)) [] := (Except.ok.inj hcl).symm
  have hbyte : CellIterator.iterate (.variant [.uint 8, .int 8]) (n + 2)
      (.mk (intBits 8 (-1)) []) = some (.ok [.inl (255 : ℕ)]) := rfl
  have helem := congrArg (Option.map fun r => r.toOption.map (List.map Sum.isLeft))
    ((hread (n + 2) (Nat.le_add_right n 2)).symm.trans hbyte)
  cases helem

end Example

end LogSequence

end TVMCompiler.Sdk
