import Mathlib.Data.List.Basic
import Mathlib.Data.List.Range

/-!
# Slices of a list

Cutting a list into the slots before, in and behind a range, and leaving out the slots of a list
of indices.

## Main definitions

* `unselected`: the slots whose indices are not listed

## Main results

* `take_append_slice_append_drop`: the three parts make up the list
* `map_range'_getElem?`: the slots of a range, read one by one
* `unselected_append`: the slots are left out part by part
-/

namespace TVMCompiler.Lib

variable {α : Type*}

theorem drop_eq_take_append_drop (s : List α) (p d : ℕ) :
    s.drop p = (s.drop p).take d ++ s.drop (p + d) := by
  rw [← List.drop_drop, List.take_append_drop]

/-- The slots before, in and behind the range of `d` slots at `p`. -/
theorem take_append_slice_append_drop (s : List α) (p d : ℕ) :
    s = s.take p ++ ((s.drop p).take d ++ s.drop (p + d)) := by
  rw [← drop_eq_take_append_drop, List.take_append_drop]

/-- The slots of a range, read one by one. -/
theorem map_range'_getElem? (s : List α) (p d : ℕ) (h : p + d ≤ s.length) :
    (List.range' p d).map (s[·]?) = ((s.drop p).take d).map some := by
  refine List.ext_getElem (by simp; omega) fun k hk _ => ?_
  have hkd : k < d := by simpa using hk
  simp [List.getElem?_eq_getElem (show p + k < s.length by omega)]

/-- A range inside the first part of `s ++ t`. -/
theorem slice_append_left (s t : List α) {p d : ℕ} (h : p + d ≤ s.length) :
    ((s ++ t).drop p).take d = (s.drop p).take d := by
  rw [List.drop_append_of_le_length (by omega), List.take_append_of_le_length (by simp; omega)]

/-- A range inside the second part of `s ++ t`. -/
theorem slice_append_right (s t : List α) (p d : ℕ) :
    ((s ++ t).drop (s.length + p)).take d = (t.drop p).take d := by
  rw [← List.drop_drop, List.drop_left]

/-- A range all of whose slots hold `x`. -/
theorem slice_eq_replicate {s : List α} {p d : ℕ} {x : α}
    (h : ∀ j, p ≤ j → j < p + d → s[j]? = some x) :
    (s.drop p).take d = List.replicate d x := by
  refine List.ext_getElem? fun j => ?_
  by_cases hj : j < d
  · rw [List.getElem?_take_of_lt hj, List.getElem?_drop, h (p + j) (by omega) (by omega),
      List.getElem?_replicate_of_lt hj]
  · rw [List.getElem?_eq_none (by simp; omega), List.getElem?_eq_none (by simp; omega)]

/-! ## Leaving out slots -/

/-- The slots of `s` whose indices, counted from `p`, are not listed. -/
def unselected (idx : List ℕ) (p : ℕ) (s : List α) : List α :=
  ((s.zipIdx p).filter fun x => x.2 ∉ idx).map Prod.fst

theorem unselected_append (idx : List ℕ) (p : ℕ) (s t : List α) :
    unselected idx p (s ++ t) = unselected idx p s ++ unselected idx (p + s.length) t := by
  simp only [unselected, List.zipIdx_append, List.filter_append, List.map_append]

theorem unselected_of_forall_mem {idx : List ℕ} {p : ℕ} {s : List α}
    (h : ∀ i, p ≤ i → i < p + s.length → i ∈ idx) : unselected idx p s = [] := by
  rw [unselected, List.map_eq_nil_iff, List.filter_eq_nil_iff]
  rintro ⟨x, i⟩ hx
  have hi := List.mem_zipIdx hx
  simpa using h i hi.1 hi.2.1

theorem unselected_of_forall_notMem {idx : List ℕ} {p : ℕ} {s : List α}
    (h : ∀ i, p ≤ i → i < p + s.length → i ∉ idx) : unselected idx p s = s := by
  rw [unselected, List.filter_eq_self.mpr, List.zipIdx_map_fst]
  rintro ⟨x, i⟩ hx
  have hi := List.mem_zipIdx hx
  simpa using h i hi.1 hi.2.1

theorem unselected_sublist (idx : List ℕ) (p : ℕ) (s : List α) :
    (unselected idx p s).Sublist s := by
  have hsub := (List.filter_sublist (p := fun x => x.2 ∉ idx) (l := s.zipIdx p)).map Prod.fst
  rwa [List.zipIdx_map_fst] at hsub

/-- Only the indices of the slots that are there matter. -/
theorem unselected_congr {idx idx' : List ℕ} {p : ℕ} {s : List α}
    (h : ∀ i, p ≤ i → (i ∈ idx ↔ i ∈ idx')) : unselected idx p s = unselected idx' p s := by
  unfold unselected
  congr 1
  refine List.filter_congr ?_
  rintro ⟨x, i⟩ hx
  simp [h i (List.mem_zipIdx hx).1]

end TVMCompiler.Lib
