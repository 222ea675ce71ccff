import Mathlib.Algebra.Order.Ring.Int
import Mathlib.Data.List.Induction
import Mathlib.Tactic.Positivity
import Mathlib.Tactic.Ring
import Mathlib.Tactic.Zify

/-!
# Numbers as bit sequences

Unsigned numbers and two's complement numbers of a given width, the most significant bit
first.

## Main definitions

* `natBits`, `natOfBits`: unsigned numbers
* `intBits`, `intOfBits`: two's complement

## Main results

* `natOfBits_append`, `natOfBits_natBits`, `natBits_natOfBits`, `natBits_append`
* `intOfBits_intBits`
-/

namespace TVMCompiler.Lib

/-- The last `w` bits of `n`. -/
def natBits : ℕ → ℕ → List Bool
  | 0, _ => []
  | w + 1, n => natBits w (n / 2) ++ [decide (n % 2 = 1)]

def natOfBits (bs : List Bool) : ℕ := bs.foldl (fun n b => 2 * n + b.toNat) 0

@[simp] theorem natOfBits_nil : natOfBits [] = 0 := rfl

@[simp] theorem natOfBits_concat (bs : List Bool) (b : Bool) :
    natOfBits (bs ++ [b]) = 2 * natOfBits bs + b.toNat := by
  simp [natOfBits]

theorem natOfBits_append (as bs : List Bool) :
    natOfBits (as ++ bs) = natOfBits as * 2 ^ bs.length + natOfBits bs := by
  induction bs using List.reverseRecOn with
  | nil => simp
  | append_singleton bs b ih =>
    rw [← List.append_assoc, natOfBits_concat, ih, natOfBits_concat, List.length_append,
      List.length_singleton, pow_succ]
    ring

theorem natOfBits_lt (bs : List Bool) : natOfBits bs < 2 ^ bs.length := by
  induction bs using List.reverseRecOn with
  | nil => simp
  | append_singleton bs b ih =>
    rw [natOfBits_concat, List.length_append, List.length_singleton, pow_succ]
    have := b.toNat_lt
    omega

@[simp] theorem length_natBits (w n : ℕ) : (natBits w n).length = w := by
  induction w generalizing n with
  | zero => rfl
  | succ w ih => simp [natBits, ih]

/-- Reading back the bits of a number that fits the width. -/
theorem natOfBits_natBits {w n : ℕ} (h : n < 2 ^ w) : natOfBits (natBits w n) = n := by
  induction w generalizing n with
  | zero =>
    obtain rfl : n = 0 := by simpa using h
    rfl
  | succ w ih =>
    rw [natBits, natOfBits_concat, ih (by rw [pow_succ] at h; omega)]
    rcases Nat.mod_two_eq_zero_or_one n with hn | hn <;> simp [hn] <;> omega

theorem natBits_natOfBits (bs : List Bool) : natBits bs.length (natOfBits bs) = bs := by
  induction bs using List.reverseRecOn with
  | nil => rfl
  | append_singleton bs b ih =>
    rw [List.length_append, List.length_singleton, natBits, natOfBits_concat]
    have hdiv : (2 * natOfBits bs + b.toNat) / 2 = natOfBits bs := by
      have := b.toNat_lt
      omega
    rw [hdiv, ih]
    cases b <;> simp

/-- The bits of a number are those of its two parts. -/
theorem natBits_append {k m x y : ℕ} (hx : x < 2 ^ k) (hy : y < 2 ^ m) :
    natBits (k + m) (x * 2 ^ m + y) = natBits k x ++ natBits m y := by
  have hbits := natBits_natOfBits (natBits k x ++ natBits m y)
  rwa [List.length_append, length_natBits, length_natBits, natOfBits_append, length_natBits,
    natOfBits_natBits hx, natOfBits_natBits hy] at hbits

/-- The last bit is the parity. -/
theorem natOfBits_mod_two (bs : List Bool) :
    natOfBits bs % 2 = 1 ↔ bs.getLast? = some true := by
  induction bs using List.reverseRecOn with
  | nil => simp
  | append_singleton bs b _ =>
    rw [natOfBits_concat, List.getLast?_concat]
    cases b <;> simp

/-! ## Two's complement -/

def intBits (w : ℕ) (z : ℤ) : List Bool := natBits w (z % 2 ^ w).toNat

def intOfBits (bs : List Bool) : ℤ :=
  if 2 * natOfBits bs < 2 ^ bs.length then natOfBits bs else natOfBits bs - 2 ^ bs.length

@[simp] theorem length_intBits (w : ℕ) (z : ℤ) : (intBits w z).length = w := length_natBits _ _

theorem intBits_mod_lt (w : ℕ) (z : ℤ) : (z % 2 ^ w).toNat < 2 ^ w := by
  have hpos : (0 : ℤ) < 2 ^ w := by positivity
  have hlt := Int.emod_lt_of_pos z hpos
  have hnonneg := Int.emod_nonneg z (ne_of_gt hpos)
  zify
  omega

/-- Reading back the bits of a number that fits the width. -/
theorem intOfBits_intBits {w : ℕ} {z : ℤ} (hlow : -2 ^ w ≤ 2 * z) (hhigh : 2 * z < 2 ^ w) :
    intOfBits (intBits w z) = z := by
  have hpos : (0 : ℤ) < 2 ^ w := by positivity
  rw [intOfBits, intBits, natOfBits_natBits (intBits_mod_lt w z), length_natBits]
  rcases lt_or_ge z 0 with hz | hz
  · have hmod : z % 2 ^ w = z + 2 ^ w := by
      rw [← Int.add_emod_right, Int.emod_eq_of_lt (by omega) (by omega)]
    have hcast : (((z % 2 ^ w).toNat : ℕ) : ℤ) = z + 2 ^ w := by
      rw [hmod, Int.toNat_of_nonneg (by omega)]
    rw [if_neg (by zify; omega), hcast]
    ring
  · have hcast : (((z % 2 ^ w).toNat : ℕ) : ℤ) = z := by
      rw [Int.emod_eq_of_lt hz (by omega), Int.toNat_of_nonneg hz]
    rw [if_pos (by zify; omega), hcast]

theorem intOfBits_range (bs : List Bool) :
    -2 ^ bs.length ≤ 2 * intOfBits bs ∧ 2 * intOfBits bs < 2 ^ bs.length := by
  have hlt : (natOfBits bs : ℤ) < 2 ^ bs.length := by exact_mod_cast natOfBits_lt bs
  have hnonneg : (0 : ℤ) ≤ natOfBits bs := Int.natCast_nonneg _
  unfold intOfBits
  split
  · rename_i hsmall
    have hsmall' : 2 * (natOfBits bs : ℤ) < 2 ^ bs.length := by exact_mod_cast hsmall
    omega
  · rename_i hlarge
    have hlarge' : (2 : ℤ) ^ bs.length ≤ 2 * (natOfBits bs : ℤ) := by
      exact_mod_cast not_lt.mp hlarge
    omega

end TVMCompiler.Lib
