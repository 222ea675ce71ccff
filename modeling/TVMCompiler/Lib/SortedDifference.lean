import Mathlib.Data.List.Sort
import Mathlib.Order.WellFounded
import Mathlib.Data.Multiset.AddSub

/-!
# Difference of two sorted ranges

The merge that `std::set_difference` performs on two sorted ranges with repetitions. On
sorted inputs it is the difference of the two multisets, and it keeps the order of the first
range.

## Main definitions

* `setDifference`: the merge

## Main results

* `setDifference_sublist`: the result is a sublist of the first range
* `coe_setDifference`: on sorted ranges it is the multiset difference
-/

namespace TVMCompiler.Lib

variable {α : Type*} [LinearOrder α]

/-- `std::set_difference`: an element of the first range is copied while it is smaller than
the head of the second one; equal heads cancel. -/
def setDifference : List α → List α → List α
  | [], _ => []
  | a :: as, [] => a :: as
  | a :: as, b :: bs =>
    if a < b then a :: setDifference as (b :: bs)
    else if b < a then setDifference (a :: as) bs
    else setDifference as bs
termination_by as bs => as.length + bs.length

@[simp] theorem setDifference_nil_right (as : List α) : setDifference as [] = as := by
  cases as <;> simp only [setDifference]

/-- The merge only drops elements of the first range. -/
theorem setDifference_sublist (as bs : List α) : (setDifference as bs).Sublist as := by
  induction as, bs using setDifference.induct with
  | case1 bs => simp [setDifference]
  | case2 a as => simp
  | case3 a as b bs hlt ih =>
    rw [setDifference, if_pos hlt]
    exact ih.cons_cons a
  | case4 a as b bs hlt hgt ih =>
    rw [setDifference, if_neg hlt, if_pos hgt]
    exact ih
  | case5 a as b bs hlt hgt ih =>
    rw [setDifference, if_neg hlt, if_neg hgt]
    exact ih.cons a

theorem pairwise_setDifference {as : List α} (bs : List α) (ha : as.Pairwise (· ≤ ·)) :
    (setDifference as bs).Pairwise (· ≤ ·) :=
  ha.sublist (setDifference_sublist as bs)

/-- **On sorted ranges the merge is the multiset difference.** -/
theorem coe_setDifference {as bs : List α} (ha : as.Pairwise (· ≤ ·))
    (hb : bs.Pairwise (· ≤ ·)) :
    (setDifference as bs : Multiset α) = (as : Multiset α) - (bs : Multiset α) := by
  induction as, bs using setDifference.induct with
  | case1 bs =>
    rw [setDifference]
    exact (Multiset.zero_sub (bs : Multiset α)).symm
  | case2 a as => simp
  | case3 a as b bs hlt ih =>
    rw [setDifference, if_pos hlt]
    -- the head is below the whole second range, so nothing cancels it
    have hnot : a ∉ (b :: bs) := by
      intro hmem
      rcases List.mem_cons.mp hmem with rfl | hmem
      · exact lt_irrefl _ hlt
      · exact absurd (List.rel_of_pairwise_cons hb hmem) (not_le.mpr hlt)
    rw [← Multiset.cons_coe, ih (List.Pairwise.of_cons ha) hb, ← Multiset.cons_coe a as]
    ext x
    rw [Multiset.count_cons, Multiset.count_sub, Multiset.count_sub, Multiset.count_cons]
    split
    · subst x
      rw [Multiset.coe_count (l := b :: bs), List.count_eq_zero_of_not_mem hnot]
      simp
    · simp
  | case4 a as b bs hlt hgt ih =>
    rw [setDifference, if_neg hlt, if_pos hgt, ih ha (List.Pairwise.of_cons hb)]
    -- the second head is below the whole first range, so it cancels nothing
    have hnot : b ∉ (a :: as) := by
      intro hmem
      rcases List.mem_cons.mp hmem with rfl | hmem
      · exact lt_irrefl _ hgt
      · exact absurd (List.rel_of_pairwise_cons ha hmem) (not_le.mpr hgt)
    rw [← Multiset.cons_coe b bs, Multiset.sub_cons, Multiset.erase_of_notMem]
    simpa using hnot
  | case5 a as b bs hlt hgt ih =>
    rw [setDifference, if_neg hlt, if_neg hgt,
      ih (List.Pairwise.of_cons ha) (List.Pairwise.of_cons hb)]
    obtain rfl : a = b := le_antisymm (not_lt.mp hgt) (not_lt.mp hlt)
    rw [← Multiset.cons_coe a as, ← Multiset.cons_coe a bs, Multiset.sub_cons,
      Multiset.erase_cons_head]

theorem count_setDifference {as bs : List α} (ha : as.Pairwise (· ≤ ·))
    (hb : bs.Pairwise (· ≤ ·)) (x : α) :
    (setDifference as bs).count x = as.count x - bs.count x := by
  have := congrArg (Multiset.count x) (coe_setDifference ha hb)
  simpa only [Multiset.count_sub, Multiset.coe_count] using this

end TVMCompiler.Lib
