import Mathlib.Tactic.GCongr
import Mathlib.Tactic.Linarith
import TVMCompiler.Lib.Bits

/-!
# Combining constant stores

The pass `TVMStoreCombine` replaces a chain of stores of constants into one builder by a single
store. The values are put together in 257-bit arithmetic, where a negative constant is to be
replaced by its two's complement.

## Main definitions

* `StoreCall`, `Instruction`: the stores, and the instructions of a basic block
* `tryCombine`: the search for a chain
* `combine`: the single store
* `NegativesFollowOnes`: the chains that are combined correctly

## Main results

* `toNat_combineData`: what the accumulated value is
* `combine_exact`: the single store appends the bits of the chain exactly when each negative
  constant follows a bit that is set
-/

namespace TVMCompiler

open Lib

/-- A call of `llvm.tvm.stu` or, if `signed`, of `llvm.tvm.sti` with constant value and width.
The builder is named by the instruction that computes it. -/
structure StoreCall where
  signed : Bool
  value : ℤ
  builder : ℕ
  width : ℕ
  deriving DecidableEq, Repr

/-- An instruction of a basic block; `store` is what `storeConstCallSite` makes of it. -/
structure Instruction where
  id : ℕ
  numUses : ℕ
  store : Option StoreCall
  deriving DecidableEq, Repr

/-! ## The pass -/

def sizeLimit : ℕ := 256

/-- `CanCombine`. -/
inductive CanCombine where
  | no
  | yes
  | last
  deriving DecidableEq, Repr

def canCombine (size : ℕ) (i : Instruction) (c : StoreCall) : CanCombine :=
  if size + c.width > sizeLimit then .no
  else if i.numUses > 1 then .last
  else .yes

/-- The loop of `tryCombine` behind the instruction `prev`: the stores that join the chain, and
the instructions after it. -/
def extendChain (size prev : ℕ) : List Instruction → List StoreCall × List Instruction
  | [] => ([], [])
  | i :: is =>
    match i.store with
    | none => ([], i :: is)
    | some c =>
      if canCombine size i c ≠ .no ∧ c.builder = prev then
        if canCombine size i c = .last ∨ i.numUses ≠ 1 then ([c], is)
        else
          let (chain, rest) := extendChain (size + c.width) i.id is
          (c :: chain, rest)
      else ([], i :: is)

/-- `tryCombine` from the store `c` of the instruction `start` on. -/
def tryCombine (start : Instruction) (c : StoreCall) (is : List Instruction) :
    List StoreCall × List Instruction :=
  let (chain, rest) := extendChain c.width start.id is
  (c :: chain, rest)

/-- The constant of a store as `combine` enters it into the accumulated value. -/
def combineVal (c : StoreCall) : BitVec 257 :=
  let val := BitVec.ofInt 257 c.value
  if val.slt 0#257 then BitVec.twoPow 257 (c.width + 1) - val.abs else val

/-- The variable `Data` of `combine` after the loop. -/
def combineData (chain : List StoreCall) : BitVec 257 :=
  chain.foldl (fun data c => data <<< c.width ||| combineVal c) 0#257

/-- `combine`: the store that replaces the chain. -/
def combine (first : StoreCall) (chain : List StoreCall) : StoreCall where
  signed := false
  value := (combineData (first :: chain)).toInt
  builder := first.builder
  width := ((first :: chain).map StoreCall.width).sum

/-! ## What a store does -/

/-- The constant is one that the store accepts. -/
def StoreCall.InRange (c : StoreCall) : Prop :=
  if c.signed then -2 ^ c.width ≤ 2 * c.value ∧ 2 * c.value < 2 ^ c.width
  else 0 ≤ c.value ∧ c.value < 2 ^ c.width

/-- The bits a store appends to the builder. -/
def StoreCall.bits (c : StoreCall) : List Bool := intBits c.width c.value

/-- The bits a chain of stores appends. -/
def chainBits (chain : List StoreCall) : List Bool := (chain.map StoreCall.bits).flatten

/-- Each negative constant follows a bit that is set. -/
def NegativesFollowOnes (chain : List StoreCall) : Prop :=
  ∀ before c after, chain = before ++ c :: after → c.value < 0 →
    (chainBits before).getLast? = some true

/-! ## The accumulated value -/

/-- The two's complement of the constant in the width of the store. -/
def StoreCall.code (c : StoreCall) : ℕ := (c.value % 2 ^ c.width).toNat

/-- The bit that a negative constant sets above its width. -/
def StoreCall.spill (c : StoreCall) : ℕ := if c.value < 0 then 1 else 0

theorem StoreCall.code_lt (c : StoreCall) : c.code < 2 ^ c.width := intBits_mod_lt _ _

theorem StoreCall.natOfBits_bits (c : StoreCall) : natOfBits c.bits = c.code :=
  natOfBits_natBits c.code_lt

/-- `combine` sets one bit too many for a negative constant. -/
theorem toNat_combineVal {c : StoreCall} (hc : c.InRange) (hw : c.width ≤ 256) :
    (combineVal c).toNat = c.spill * 2 ^ c.width + c.code := by
  have hpow : 2 ^ c.width ≤ 2 ^ 256 := Nat.pow_le_pow_right (by norm_num) hw
  have hmod : 2 ^ 257 = 2 * 2 ^ 256 := by rw [pow_succ, mul_comm]
  generalize hP : 2 ^ c.width = P at hpow
  generalize hM : 2 ^ 256 = M at hpow hmod
  have hPpos : 0 < P := hP ▸ Nat.two_pow_pos _
  have hP' : (2 : ℤ) ^ c.width = P := by rw [← hP]; norm_cast
  have hrange : -P ≤ 2 * c.value ∧ c.value < P := by
    unfold StoreCall.InRange at hc
    rw [hP'] at hc
    split at hc <;> omega
  obtain ⟨hlow, hhigh⟩ := hrange
  have hint : (BitVec.ofInt 257 c.value).toInt = c.value := by
    rw [BitVec.toInt_ofInt, hmod, Int.bmod_eq_of_le (by omega) (by omega)]
  have hslt : (BitVec.ofInt 257 c.value).slt 0#257 = decide (c.value < 0) := by
    rw [BitVec.slt, hint]
    simp
  by_cases hneg : c.value < 0
  · have hval : combineVal c =
        BitVec.twoPow 257 (c.width + 1) - (BitVec.ofInt 257 c.value).abs := by
      simp [combineVal, hslt, hneg]
    have hcode : (c.code : ℤ) = c.value + P := by
      unfold StoreCall.code
      rw [hP', ← Int.add_emod_right, Int.emod_eq_of_lt (by omega) (by omega),
        Int.toNat_of_nonneg (by omega)]
    have hnat : ((BitVec.ofInt 257 c.value).toNat : ℤ) = c.value + 2 * M := by
      rw [BitVec.toNat_ofInt, hmod, ← Int.add_emod_right, Int.emod_eq_of_lt (by omega) (by omega),
        Int.toNat_of_nonneg (by omega)]
      push_cast
      ring
    have habs : ((BitVec.ofInt 257 c.value).abs.toNat : ℤ) = -c.value := by
      have hmsb : (BitVec.ofInt 257 c.value).msb = true := by
        rw [BitVec.msb_eq_toInt, hint]
        simpa using hneg
      rw [BitVec.toNat_abs, if_pos hmsb, hmod]
      omega
    have htwo : (BitVec.twoPow 257 (c.width + 1)).toNat = if P = M then 0 else 2 * P := by
      rw [BitVec.toNat_twoPow, hmod, pow_succ, hP, mul_comm P 2]
      split
      · rename_i h
        rw [h, Nat.mod_self]
      · exact Nat.mod_eq_of_lt (by omega)
    rw [hval, BitVec.toNat_sub, htwo, hmod]
    simp only [StoreCall.spill, if_pos hneg]
    split
    · rw [Nat.mod_eq_of_lt (by omega)]
      omega
    · rw [Nat.mod_eq_sub_mod (by omega), Nat.mod_eq_of_lt (by omega)]
      omega
  · have hval : combineVal c = BitVec.ofInt 257 c.value := by
      simp [combineVal, hslt, hneg]
    have hcode : (c.code : ℤ) = c.value := by
      unfold StoreCall.code
      rw [hP', Int.emod_eq_of_lt (by omega) hhigh, Int.toNat_of_nonneg (by omega)]
    have hnat : ((BitVec.ofInt 257 c.value).toNat : ℤ) = c.value := by
      rw [BitVec.toNat_ofInt, hmod, Int.emod_eq_of_lt (by omega) (by push_cast; omega),
        Int.toNat_of_nonneg (by omega)]
    rw [hval]
    simp only [StoreCall.spill, if_neg hneg]
    omega

/-- The accumulated value as a number, before it is cut to 257 bits. -/
def combineNat (chain : List StoreCall) : ℕ :=
  chain.foldl (fun n c => (n ||| c.spill) * 2 ^ c.width + c.code) 0

@[simp] theorem combineNat_nil : combineNat [] = 0 := rfl

@[simp] theorem combineNat_concat (chain : List StoreCall) (c : StoreCall) :
    combineNat (chain ++ [c]) = (combineNat chain ||| c.spill) * 2 ^ c.width + c.code := by
  simp [combineNat]

def chainWidth (chain : List StoreCall) : ℕ := (chain.map StoreCall.width).sum

@[simp] theorem chainWidth_nil : chainWidth [] = 0 := rfl

@[simp] theorem chainWidth_concat (chain : List StoreCall) (c : StoreCall) :
    chainWidth (chain ++ [c]) = chainWidth chain + c.width := by
  simp [chainWidth]

theorem spill_lt_two_pow (c : StoreCall) (n : ℕ) : c.spill < 2 ^ (n + 1) := by
  have hpos := Nat.two_pow_pos n
  rw [pow_succ]
  unfold StoreCall.spill
  split <;> omega

theorem combineNat_lt (chain : List StoreCall) : combineNat chain < 2 ^ (chainWidth chain + 1) := by
  induction chain using List.reverseRecOn with
  | nil => simp
  | append_singleton chain c ih =>
    have hor := Nat.or_lt_two_pow ih (spill_lt_two_pow c (chainWidth chain))
    have hcode := c.code_lt
    rw [combineNat_concat, chainWidth_concat, Nat.add_right_comm, pow_add]
    generalize combineNat chain ||| c.spill = n at hor
    generalize 2 ^ (chainWidth chain + 1) = m at hor
    nlinarith

theorem shift_or {n b w e : ℕ} (he : e < 2 ^ w) :
    n <<< w ||| (b * 2 ^ w + e) = (n ||| b) * 2 ^ w + e := by
  rw [← Nat.shiftLeft_eq, ← Nat.shiftLeft_eq, Nat.shiftLeft_add_eq_or_of_lt he,
    Nat.shiftLeft_add_eq_or_of_lt he, ← Nat.or_assoc, Nat.shiftLeft_or_distrib]

/-- Within the size limit no bit of the accumulated value is lost. -/
theorem toNat_combineData {chain : List StoreCall} (hchain : ∀ c ∈ chain, c.InRange)
    (hsize : chainWidth chain ≤ sizeLimit) :
    (combineData chain).toNat = combineNat chain := by
  induction chain using List.reverseRecOn with
  | nil => rfl
  | append_singleton chain c ih =>
    rw [chainWidth_concat] at hsize
    have hdata := ih (fun d hd => hchain d (List.mem_append_left _ hd)) (by omega)
    have hval := toNat_combineVal (hchain c (by simp)) (by unfold sizeLimit at hsize; omega)
    have hlt := combineNat_lt chain
    have hshift : combineNat chain <<< c.width < 2 ^ 257 := by
      rw [Nat.shiftLeft_eq]
      calc combineNat chain * 2 ^ c.width
          < 2 ^ (chainWidth chain + 1) * 2 ^ c.width := by gcongr
        _ = 2 ^ (chainWidth chain + 1 + c.width) := (pow_add 2 _ _).symm
        _ ≤ 2 ^ 257 := Nat.pow_le_pow_right (by norm_num) (by unfold sizeLimit at hsize; omega)
    have hstep : combineData (chain ++ [c]) = combineData chain <<< c.width ||| combineVal c := by
      simp [combineData]
    rw [hstep, BitVec.toNat_or, BitVec.toNat_shiftLeft, hdata, hval, Nat.mod_eq_of_lt hshift,
      combineNat_concat, shift_or c.code_lt]

/-! ## When the bits are right -/

@[simp] theorem chainBits_nil : chainBits [] = [] := rfl

@[simp] theorem chainBits_concat (chain : List StoreCall) (c : StoreCall) :
    chainBits (chain ++ [c]) = chainBits chain ++ c.bits := by
  simp [chainBits]

theorem length_chainBits (chain : List StoreCall) :
    (chainBits chain).length = chainWidth chain := by
  induction chain using List.reverseRecOn with
  | nil => rfl
  | append_singleton chain c ih => simp [ih, StoreCall.bits]

theorem natOfBits_chainBits_concat (chain : List StoreCall) (c : StoreCall) :
    natOfBits (chainBits (chain ++ [c])) =
      natOfBits (chainBits chain) * 2 ^ c.width + c.code := by
  rw [chainBits_concat, natOfBits_append, c.natOfBits_bits, StoreCall.bits, length_intBits]

theorem negativesFollowOnes_concat {chain : List StoreCall} {c : StoreCall} :
    NegativesFollowOnes (chain ++ [c]) ↔ NegativesFollowOnes chain ∧
      (c.value < 0 → (chainBits chain).getLast? = some true) := by
  constructor
  · intro h
    refine ⟨fun before d after hsplit => h before d (after ++ [c]) (by simp [hsplit]), ?_⟩
    exact h chain c [] rfl
  · rintro ⟨hchain, hlast⟩ before d after hsplit
    rcases List.eq_nil_or_concat after with rfl | ⟨after, e, rfl⟩
    · obtain ⟨rfl, hd⟩ := List.append_inj' hsplit rfl
      obtain rfl : c = d := by simpa using hd
      exact hlast
    · have hsplit' : chain ++ [c] = (before ++ d :: after) ++ [e] := by simpa using hsplit
      obtain ⟨rfl, -⟩ := List.append_inj' hsplit' rfl
      exact hchain before d after rfl

theorem or_one_eq_self {n : ℕ} : n ||| 1 = n ↔ n % 2 = 1 := by
  constructor
  · intro h
    rw [← h, Nat.or_mod_two_eq_one]
    exact Or.inr rfl
  · intro h
    have hn : n = (n / 2) <<< 1 ||| 1 := by
      rw [← Nat.shiftLeft_add_eq_or_of_lt (by norm_num), Nat.shiftLeft_eq]
      omega
    conv_lhs => rw [hn, Nat.or_assoc, Nat.or_self, ← hn]

/-- A bit set above the width of a constant goes unnoticed only if it is set anyway, and it is
never cleared again. -/
theorem combineNat_eq_iff (chain : List StoreCall) :
    natOfBits (chainBits chain) ≤ combineNat chain ∧
      (combineNat chain = natOfBits (chainBits chain) ↔ NegativesFollowOnes chain) := by
  induction chain using List.reverseRecOn with
  | nil => exact ⟨le_rfl, fun _ before c after h => by simp at h, fun _ => rfl⟩
  | append_singleton chain c ih =>
    obtain ⟨hle, hiff⟩ := ih
    rw [combineNat_concat, natOfBits_chainBits_concat, negativesFollowOnes_concat, ← hiff,
      ← natOfBits_mod_two]
    have hor : combineNat chain ≤ combineNat chain ||| c.spill := Nat.left_le_or
    have hpos := Nat.two_pow_pos c.width
    refine ⟨by gcongr; exact hle.trans hor, ?_⟩
    rw [Nat.add_right_cancel_iff, Nat.mul_left_inj (by omega)]
    by_cases hneg : c.value < 0
    · have hspill : c.spill = 1 := if_pos hneg
      rw [hspill] at hor ⊢
      simp only [hneg, forall_const]
      constructor
      · intro h
        have heq : combineNat chain = natOfBits (chainBits chain) := le_antisymm (h ▸ hor) hle
        exact ⟨heq, or_one_eq_self.mp (by rw [← heq] at h ⊢; exact h)⟩
      · rintro ⟨h, hodd⟩
        rw [h, or_one_eq_self.mpr hodd]
    · simp [StoreCall.spill, hneg]

/-! ## The chains of a basic block -/

/-- A chain that is merged stays within the size limit. -/
theorem extendChain_width {size prev : ℕ} {is : List Instruction}
    (hne : (extendChain size prev is).1 ≠ []) :
    size + chainWidth (extendChain size prev is).1 ≤ sizeLimit := by
  induction is generalizing size prev with
  | nil => exact absurd rfl hne
  | cons i is ih =>
    cases hstore : i.store with
    | none => simp [extendChain, hstore] at hne
    | some c =>
      by_cases hjoin : canCombine size i c ≠ .no ∧ c.builder = prev
      · have hfits : size + c.width ≤ sizeLimit := by
          by_contra hlt
          exact hjoin.1 (if_pos (by omega))
        by_cases hlast : canCombine size i c = .last ∨ i.numUses ≠ 1
        · simpa [extendChain, hstore, hjoin, hlast, chainWidth] using hfits
        · have hchain : (extendChain size prev (i :: is)).1 =
              c :: (extendChain (size + c.width) i.id is).1 := by
            simp [extendChain, hstore, hjoin, hlast]
          rw [hchain, chainWidth, List.map_cons, List.sum_cons, ← Nat.add_assoc]
          by_cases hnil : (extendChain (size + c.width) i.id is).1 = []
          · simpa [hnil] using hfits
          · exact ih hnil
      · simp [extendChain, hstore, hjoin] at hne

theorem tryCombine_width {start : Instruction} {c : StoreCall} {is : List Instruction}
    {chain : List StoreCall} {rest : List Instruction}
    (htry : tryCombine start c is = (c :: chain, rest)) (hmerge : chain ≠ []) :
    chainWidth (c :: chain) ≤ sizeLimit := by
  obtain rfl : (extendChain c.width start.id is).1 = chain := by
    simp only [tryCombine, Prod.mk.injEq, List.cons.injEq, true_and] at htry
    exact htry.1
  simpa [chainWidth] using extendChain_width hmerge

/-- Within the size limit the single store succeeds and appends the bits of the chain exactly when
each negative constant follows a bit that is set. -/
theorem combine_appends_iff {c : StoreCall} {chain : List StoreCall}
    (hsize : chainWidth (c :: chain) ≤ sizeLimit) (hchain : ∀ d ∈ c :: chain, d.InRange) :
    ((combine c chain).width = ((c :: chain).map StoreCall.width).sum ∧
        0 ≤ (combine c chain).value ∧ (combine c chain).value < 2 ^ (combine c chain).width ∧
        (combine c chain).bits = chainBits (c :: chain)) ↔ NegativesFollowOnes (c :: chain) := by
  have hdata := toNat_combineData hchain hsize
  obtain ⟨-, hiff⟩ := combineNat_eq_iff (c :: chain)
  have hwidth : (combine c chain).width = chainWidth (c :: chain) := rfl
  have hvalue : (combine c chain).value = if 2 * combineNat (c :: chain) < 2 ^ 257 then
      (combineNat (c :: chain) : ℤ) else combineNat (c :: chain) - ((2 ^ 257 : ℕ) : ℤ) := by
    rw [← hdata]
    exact BitVec.toInt_eq_toNat_cond _
  have hlimit : 2 * 2 ^ chainWidth (c :: chain) ≤ 2 ^ 257 := by
    rw [← pow_succ']
    exact Nat.pow_le_pow_right (by norm_num) (by unfold sizeLimit at hsize; omega)
  have hcut : (combineData (c :: chain)).toNat < 2 ^ 257 := (combineData (c :: chain)).isLt
  rw [hdata] at hcut
  rw [← hiff]
  generalize combineNat (c :: chain) = n at hvalue hcut ⊢
  generalize 2 ^ 257 = m at hvalue hlimit hcut
  -- a value in range is the accumulated number
  have hcode (hlt : n < 2 ^ chainWidth (c :: chain)) (hv : (combine c chain).value = n) :
      (combine c chain).code = n := by
    rw [StoreCall.code, hwidth, hv, Int.emod_eq_of_lt (by omega) (by exact_mod_cast hlt)]
    rfl
  constructor
  · rintro ⟨-, hpos, hlt, hbits⟩
    have hv : (combine c chain).value = n := by
      split at hvalue <;> omega
    rw [hv, hwidth] at hlt
    rw [← hbits, StoreCall.natOfBits_bits, hcode (by exact_mod_cast hlt) hv]
  · intro h
    have hlt : n < 2 ^ chainWidth (c :: chain) := by
      rw [h, ← length_chainBits]
      exact natOfBits_lt _
    have hv : (combine c chain).value = n := by
      rw [hvalue, if_pos (by omega)]
    refine ⟨rfl, by omega, by rw [hv, hwidth]; exact_mod_cast hlt, ?_⟩
    calc (combine c chain).bits = natBits (chainWidth (c :: chain)) n := by
          rw [StoreCall.bits, intBits, ← StoreCall.code, hcode hlt hv, hwidth]
      _ = chainBits (c :: chain) := by
          rw [h, ← length_chainBits, natBits_natOfBits]

/-- **Combining is bit-exact precisely on the chains in which each negative constant follows a
bit that is set.** For every chain that `tryCombine` merges, the single store has the builder
of the first store. -/
theorem combine_exact (start : Instruction) (c : StoreCall) (is : List Instruction)
    (chain : List StoreCall) (rest : List Instruction)
    (htry : tryCombine start c is = (c :: chain, rest)) (hmerge : chain ≠ [])
    (hchain : ∀ d ∈ c :: chain, d.InRange) :
    (combine c chain).signed = false ∧ (combine c chain).builder = c.builder ∧
      ((combine c chain).width = ((c :: chain).map StoreCall.width).sum ∧
        0 ≤ (combine c chain).value ∧ (combine c chain).value < 2 ^ (combine c chain).width ∧
        (combine c chain).bits = chainBits (c :: chain) ↔ NegativesFollowOnes (c :: chain)) :=
  ⟨rfl, rfl, combine_appends_iff (tryCombine_width htry hmerge) hchain⟩

/-- The chain of the stores `1` and `-1`, each three bits wide. -/
theorem combine_exact_example :
    (combine ⟨false, 1, 0, 3⟩ [⟨true, -1, 1, 3⟩]).signed = false ∧
      (combine ⟨false, 1, 0, 3⟩ [⟨true, -1, 1, 3⟩]).builder = 0 ∧
      ((combine ⟨false, 1, 0, 3⟩ [⟨true, -1, 1, 3⟩]).width = 6 ∧
        0 ≤ (combine ⟨false, 1, 0, 3⟩ [⟨true, -1, 1, 3⟩]).value ∧
        (combine ⟨false, 1, 0, 3⟩ [⟨true, -1, 1, 3⟩]).value <
          2 ^ (combine ⟨false, 1, 0, 3⟩ [⟨true, -1, 1, 3⟩]).width ∧
        (combine ⟨false, 1, 0, 3⟩ [⟨true, -1, 1, 3⟩]).bits =
          chainBits [⟨false, 1, 0, 3⟩, ⟨true, -1, 1, 3⟩] ↔
        NegativesFollowOnes [⟨false, 1, 0, 3⟩, ⟨true, -1, 1, 3⟩]) :=
  combine_exact ⟨1, 1, some ⟨false, 1, 0, 3⟩⟩ ⟨false, 1, 0, 3⟩
    [⟨2, 1, some ⟨true, -1, 1, 3⟩⟩, ⟨3, 1, none⟩] [⟨true, -1, 1, 3⟩] [⟨3, 1, none⟩] (by decide)
    (by simp) (by simp [StoreCall.InRange])

/-- The bits `0` and `1` of the stores of `0` and `-1`, each one bit wide, become `11`. -/
theorem combine_spills :
    tryCombine ⟨1, 1, some ⟨false, 0, 0, 1⟩⟩ ⟨false, 0, 0, 1⟩ [⟨2, 1, some ⟨true, -1, 1, 1⟩⟩] =
        ([⟨false, 0, 0, 1⟩, ⟨true, -1, 1, 1⟩], []) ∧
      (∀ c ∈ ([⟨false, 0, 0, 1⟩, ⟨true, -1, 1, 1⟩] : List StoreCall), c.InRange) ∧
      chainBits [⟨false, 0, 0, 1⟩, ⟨true, -1, 1, 1⟩] = [false, true] ∧
      (combine ⟨false, 0, 0, 1⟩ [⟨true, -1, 1, 1⟩]).bits = [true, true] := by
  refine ⟨by decide, by simp [StoreCall.InRange], by decide, by decide +kernel⟩

end TVMCompiler
