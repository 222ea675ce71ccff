import Mathlib.Data.Int.Notation
import Mathlib.Data.Nat.Notation
import Mathlib.Logic.Function.Basic

/-!
# Address spaces

The contents of a memory whose addresses are integers. A range may be filled with a value, or with
the values of another range, which a loop does address by address.

## Main definitions

* `Contents`: a value for each address that has one
* `fillRange`, `copyRange`: a range filled, and a range copied
* `Present`: every address of a range has a value

## Main results

* `fillRange_succ`, `copyRange_succ`: the first address, and then the others
-/

namespace TVMCompiler.Lib

variable {α : Type}

/-- The values at the addresses that have one. -/
abbrev Contents (α : Type) := ℤ → Option α

/-- `n` addresses from `a` on get the value `v`. -/
def fillRange (c : Contents α) (a : ℤ) (v : α) (n : ℕ) : Contents α := fun b =>
  if a ≤ b ∧ b < a + n then some v else c b

/-- `n` addresses from `dst` on get what `n` addresses from `src` on have. -/
def copyRange (c : Contents α) (dst src : ℤ) (n : ℕ) : Contents α := fun b =>
  if dst ≤ b ∧ b < dst + n then c (src + (b - dst)) else c b

/-- `n` addresses from `src` on have values. -/
def Present (c : Contents α) (src : ℤ) (n : ℕ) : Prop := ∀ i < n, (c (src + i)).isSome = true

instance instDecidablePresent (c : Contents α) (src : ℤ) (n : ℕ) : Decidable (Present c src n) :=
  Nat.decidableBallLT n fun i _ => (c (src + i)).isSome = true

variable {c : Contents α} {a dst src : ℤ} {v : α} {n : ℕ}

theorem fillRange_zero : fillRange c a v 0 = c := by
  funext b
  exact if_neg (by omega)

theorem copyRange_zero : copyRange c dst src 0 = c := by
  funext b
  exact if_neg (by omega)

/-- The first address is filled, and then the others. -/
theorem fillRange_succ :
    fillRange (Function.update c a (some v)) (a + 1) v n = fillRange c a v (n + 1) := by
  funext b
  unfold fillRange
  by_cases hb : b = a
  · subst hb
    rw [if_neg (by omega), Function.update_self, if_pos (by omega)]
  · rw [Function.update_of_ne hb]
    by_cases hrange : a + 1 ≤ b ∧ b < a + 1 + n
    · rw [if_pos hrange, if_pos (by omega)]
    · rw [if_neg hrange, if_neg (by omega)]

/-- The first value is copied, and then the others. The ranges do not overlap. -/
theorem copyRange_succ (hsep : src + (n + 1 : ℕ) ≤ dst ∨ dst + (n + 1 : ℕ) ≤ src)
    (hv : c src = some v) :
    copyRange (Function.update c dst (some v)) (dst + 1) (src + 1) n =
      copyRange c dst src (n + 1) := by
  funext b
  unfold copyRange
  by_cases hb : b = dst
  · subst hb
    rw [if_neg (by omega), Function.update_self, if_pos (by omega), Int.sub_self, Int.add_zero, hv]
  · by_cases hrange : dst + 1 ≤ b ∧ b < dst + 1 + n
    · have hne : src + 1 + (b - (dst + 1)) ≠ dst := by omega
      have hsame : src + 1 + (b - (dst + 1)) = src + (b - dst) := by omega
      rw [if_pos hrange, if_pos (by omega), Function.update_of_ne hne, hsame]
    · rw [if_neg hrange, if_neg (by omega), Function.update_of_ne hb]

theorem present_zero : Present c src 0 := fun _ hi => absurd hi (Nat.not_lt_zero _)

theorem present_succ_iff :
    Present c src (n + 1) ↔ (c src).isSome = true ∧ Present c (src + 1) n := by
  constructor
  · intro h
    refine ⟨?_, fun i hi => ?_⟩
    · have hfirst := h 0 (Nat.succ_pos n)
      rwa [Int.natCast_zero, Int.add_zero] at hfirst
    · have hnext := h (i + 1) (Nat.succ_lt_succ hi)
      have hsame : src + ((i + 1 : ℕ) : ℤ) = src + 1 + i := by omega
      rwa [hsame] at hnext
  · rintro ⟨hfirst, hrest⟩ i hi
    cases i with
    | zero => rwa [Int.natCast_zero, Int.add_zero]
    | succ i =>
      have hsame : src + ((i + 1 : ℕ) : ℤ) = src + 1 + i := by omega
      rw [hsame]
      exact hrest i (Nat.lt_of_succ_lt_succ hi)

/-- A write outside a range does not change what is there. -/
theorem present_update (b : ℤ) (v : α) (hb : b < src ∨ src + n ≤ b) :
    Present (Function.update c b (some v)) src n ↔ Present c src n := by
  refine forall_congr' fun i => forall_congr' fun hi => ?_
  rw [Function.update_of_ne (by omega)]

end TVMCompiler.Lib
