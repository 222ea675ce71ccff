import Mathlib.Tactic.NormNum
import TVMCompiler.Lib.BranchingEdits

/-!
# Memory intrinsics

The instructions of which `LowerMemIntrinsics.cpp` makes loops, and the intrinsics `memcpy`,
`memmove` and `memset` which the loops stand for. A byte has 257 bits, and so have an address and
the widest integer.

## Main definitions

* `Val`, `Memory`: the bytes of a value and of the memory, some of them undefined
* `copyBytes`: a range of the memory is copied to another one
* `MemOp`, `semantics`: the instructions, and what they do

## Main results

* `copyBytes_add`: a range is copied part by part, the first parts first
* `copyBytes_succ_of_lt`: a range is copied byte by byte, the last ones first
* `eval_memcpy_eq_some`, `eval_memmove_eq_some`, `eval_memset_eq_some`: when the intrinsics are
  defined
-/

namespace TVMCompiler.LowerIntrinsics

open Lib Lib.Ssa

/-! ## Values and memory -/

def ByteSizeInBits : ℕ := 257

/-- The integers of a byte. Addresses are such integers. -/
abbrev Word := BitVec ByteSizeInBits

/-- An integer type is known by its bits. -/
abbrev IntTy := ℕ

/-- `Type::getByteTy`. -/
def ByteTy : IntTy := ByteSizeInBits

def Int8Ty : IntTy := 8

/-- The number of bytes that a value of the type takes in memory. -/
def storeSize (ty : IntTy) : ℕ := (ty + (ByteSizeInBits - 1)) / ByteSizeInBits

theorem storeSize_byteTy : storeSize ByteTy = 1 := by decide

theorem storeSize_int8Ty : storeSize Int8Ty = 1 := by decide

/-- The bytes of a value, if they are defined. -/
abbrev Val := ℕ → Option Word

abbrev Memory := ℕ → Option Word

def undefined : Val := fun _ => none

def ofWord (w : Word) : Val := fun i => if i = 0 then some w else none

/-- The integer, if the value is one byte. -/
def toWord (v : Val) : Option Word := v 0

@[simp] theorem toWord_ofWord (w : Word) : toWord (ofWord w) = some w := rfl

/-- `n` bytes at the address `a`. -/
def loadRange (m : Memory) (a n : ℕ) : Val := fun i => if i < n then m (a + i) else none

def storeRange (m : Memory) (a n : ℕ) (v : Val) : Memory := fun b =>
  if a ≤ b ∧ b < a + n then v (b - a) else m b

/-- `n` bytes are copied from `src` to `dst`. -/
def copyBytes (m : Memory) (dst src n : ℕ) : Memory := storeRange m dst n fun i => m (src + i)

section Ranges

variable {m : Memory} {a dst src n k : ℕ} {v : Val}

theorem storeRange_of_mem {b : ℕ} (h : a ≤ b ∧ b < a + n) : storeRange m a n v b = v (b - a) :=
  if_pos h

theorem storeRange_of_notMem {b : ℕ} (h : ¬(a ≤ b ∧ b < a + n)) : storeRange m a n v b = m b :=
  if_neg h

theorem copyBytes_of_mem {b : ℕ} (h : dst ≤ b ∧ b < dst + n) :
    copyBytes m dst src n b = m (src + (b - dst)) := if_pos h

theorem copyBytes_of_notMem {b : ℕ} (h : ¬(dst ≤ b ∧ b < dst + n)) :
    copyBytes m dst src n b = m b := if_neg h

theorem loadRange_of_lt {i : ℕ} (h : i < n) : loadRange m a n i = m (a + i) := if_pos h

theorem storeRange_zero : storeRange m a 0 v = m := by
  funext b
  exact storeRange_of_notMem (by omega)

theorem copyBytes_zero : copyBytes m dst src 0 = m := storeRange_zero

/-- A range is filled part by part. -/
theorem storeRange_add {v : Option Word} :
    storeRange (storeRange m a n fun _ => v) (a + n) k (fun _ => v) =
      storeRange m a (n + k) fun _ => v := by
  funext b
  by_cases hlast : a + n ≤ b ∧ b < a + n + k
  · rw [storeRange_of_mem hlast, storeRange_of_mem (by omega)]
  · rw [storeRange_of_notMem hlast]
    by_cases hfirst : a ≤ b ∧ b < a + n
    · rw [storeRange_of_mem hfirst, storeRange_of_mem (by omega)]
    · rw [storeRange_of_notMem hfirst, storeRange_of_notMem (by omega)]

/-- One byte is the first one. -/
theorem storeRange_one : storeRange m a 1 v = storeRange m a 1 fun _ => v 0 := by
  funext b
  by_cases hb : b = a
  · subst hb
    rw [storeRange_of_mem (by omega), storeRange_of_mem (by omega), Nat.sub_self]
  · rw [storeRange_of_notMem (by omega), storeRange_of_notMem (by omega)]

/-- A part is copied behind the others. The source of it has not been written yet. -/
theorem copyBytes_add (h : dst ≤ src ∨ src + (n + k) ≤ dst) :
    storeRange (copyBytes m dst src n) (dst + n) k
        (loadRange (copyBytes m dst src n) (src + n) k) = copyBytes m dst src (n + k) := by
  funext b
  by_cases hlast : dst + n ≤ b ∧ b < dst + n + k
  · rw [storeRange_of_mem hlast, loadRange_of_lt (by omega), copyBytes_of_notMem (by omega),
      copyBytes_of_mem (by omega)]
    congr 1
    omega
  · rw [storeRange_of_notMem hlast]
    by_cases hfirst : dst ≤ b ∧ b < dst + n
    · rw [copyBytes_of_mem hfirst, copyBytes_of_mem (by omega)]
    · rw [copyBytes_of_notMem hfirst, copyBytes_of_notMem (by omega)]

/-- A byte is copied in front of the others. -/
theorem copyBytes_succ_of_lt (h : src < dst) :
    storeRange (copyBytes m (dst + 1) (src + 1) n) dst 1
        (loadRange (copyBytes m (dst + 1) (src + 1) n) src 1) = copyBytes m dst src (n + 1) := by
  funext b
  by_cases hb : b = dst
  · subst hb
    rw [storeRange_of_mem (by omega), loadRange_of_lt (by omega), Nat.sub_self,
      copyBytes_of_notMem (by omega), copyBytes_of_mem (by omega), Nat.sub_self]
  · rw [storeRange_of_notMem (by omega)]
    by_cases hrest : dst + 1 ≤ b ∧ b < dst + 1 + n
    · rw [copyBytes_of_mem hrest, copyBytes_of_mem (by omega)]
      congr 1
      omega
    · rw [copyBytes_of_notMem hrest, copyBytes_of_notMem (by omega)]

end Ranges

/-! ## Instructions -/

/-- The widths are those of the lengths, and the types are those to which the pointers point. Both
pointers of `memmove` point to the same type. -/
inductive MemOp (X : Type) where
  | add
  | sub
  | udiv
  | urem
  | icmpEQ
  | icmpNE
  | icmpULT
  | bitcast
  | zext (width : ℕ)
  | getElementPtr (ty : IntTy)
  | load (ty : IntTy)
  | store (ty : IntTy)
  | memcpy (width : ℕ) (dstTy srcTy : IntTy)
  | memmove (width : ℕ) (ty : IntTy)
  | memset (width : ℕ) (dstTy : IntTy)
  | other (op : X)

namespace MemOp

variable {X : Type}

def isMemIntrinsic : MemOp X → Bool
  | memcpy _ _ _ | memmove _ _ | memset _ _ => true
  | _ => false

/-- The instructions of which the loops consist. -/
def isBasic : MemOp X → Bool
  | memcpy _ _ _ | memmove _ _ | memset _ _ | other _ => false
  | _ => true

theorem isMemIntrinsic_of_isBasic {op : MemOp X} (h : op.isBasic = true) :
    op.isMemIntrinsic = false := by
  cases op
  case memcpy | memmove | memset => cases h
  all_goals rfl

end MemOp

section Eval

variable {X : Type}

/-- An operation on two integers. -/
def arith (f : Word → Word → Word) (a b : Val) : Val :=
  match toWord a, toWord b with
  | some x, some y => ofWord (f x y)
  | _, _ => undefined

def ofBool (b : Bool) : Word := if b then 1 else 0

/-- The integer of `width` bits as one of the widest type. -/
def zeroExtend (width : ℕ) (x : Word) : Word := .ofNat _ (x.toNat % 2 ^ width)

/-- The address of an element. -/
def elementAddress (ty : IntTy) (p i : Word) : Word := p + i * .ofNat _ (storeSize ty)

/-- The bytes of which an intrinsic asks. -/
def lengthOf (width : ℕ) (len : Val) : Option ℕ := (toWord len).map fun x => x.toNat % 2 ^ width

/-- A range does not go beyond the last address. -/
def Fits (a n : ℕ) : Prop := a + n ≤ 2 ^ ByteSizeInBits

instance instDecidableFits (a n : ℕ) : Decidable (Fits a n) :=
  inferInstanceAs (Decidable (a + n ≤ 2 ^ ByteSizeInBits))

/-- The ranges of `memcpy` are one range, or they do not overlap. -/
def Apart (dst src n : ℕ) : Prop := dst = src ∨ dst + n ≤ src ∨ src + n ≤ dst

instance instDecidableApart (dst src n : ℕ) : Decidable (Apart dst src n) :=
  inferInstanceAs (Decidable (dst = src ∨ dst + n ≤ src ∨ src + n ≤ dst))

/-- What an instruction does, unless the behaviour is undefined. -/
def eval (other : X → List Val → Memory → Option (Val × Memory)) :
    MemOp X → List Val → Memory → Option (Val × Memory)
  | .add, [a, b], m => some (arith (· + ·) a b, m)
  | .sub, [a, b], m => some (arith (· - ·) a b, m)
  | .udiv, [a, b], m => (toWord b).bind fun y =>
      if y = 0 then none else some (arith BitVec.udiv a b, m)
  | .urem, [a, b], m => (toWord b).bind fun y =>
      if y = 0 then none else some (arith BitVec.umod a b, m)
  | .icmpEQ, [a, b], m => some (arith (fun x y => ofBool (decide (x = y))) a b, m)
  | .icmpNE, [a, b], m => some (arith (fun x y => ofBool (decide (x ≠ y))) a b, m)
  | .icmpULT, [a, b], m => some (arith (fun x y => ofBool (decide (x.toNat < y.toNat))) a b, m)
  | .bitcast, [a], m => some (a, m)
  | .zext width, [a], m => some (((toWord a).map fun x => ofWord (zeroExtend width x)).getD
      undefined, m)
  | .getElementPtr ty, [p, i], m => some (arith (elementAddress ty) p i, m)
  -- the bytes are taken as they are, also if the type does not fill them
  | .load ty, [p], m => (toWord p).map fun a => (loadRange m a.toNat (storeSize ty), m)
  | .store ty, [v, p], m => (toWord p).map fun a =>
      (undefined, storeRange m a.toNat (storeSize ty) v)
  | .memcpy width _ _, [dst, src, len], m => do
      let d ← toWord dst
      let s ← toWord src
      let n ← lengthOf width len
      if Fits d.toNat n ∧ Fits s.toNat n ∧ Apart d.toNat s.toNat n then
        some (undefined, copyBytes m d.toNat s.toNat n)
      else none
  | .memmove width _, [dst, src, len], m => do
      let d ← toWord dst
      let s ← toWord src
      let n ← lengthOf width len
      if Fits d.toNat n ∧ Fits s.toNat n then some (undefined, copyBytes m d.toNat s.toNat n)
      else none
  | .memset width _, [dst, v, len], m => do
      let d ← toWord dst
      let n ← lengthOf width len
      if Fits d.toNat n then some (undefined, storeRange m d.toNat n fun _ => v 0) else none
  | .other op, args, m => other op args m
  | _, _, _ => none

/-- The other instructions are any. -/
structure Others (X E : Type) where
  eval : X → List Val → Memory → Option (Val × Memory)
  event : X → List Val → Option E

variable {E : Type}

def Others.eventOf (others : Others X E) : MemOp X → List Val → Option E
  | .other op, args => others.event op args
  | _, _ => none

def semantics (others : Others X E) : Semantics (MemOp X) Word Val Memory E where
  const := ofWord
  undef := undefined
  eval := eval others.eval
  event := others.eventOf
  truth v := (toWord v).map (· != 0)

theorem event_of_isBasic {others : Others X E} {op : MemOp X} (h : op.isBasic = true)
    (args : List Val) : (semantics others).event op args = none := by
  cases op
  case other => cases h
  all_goals rfl

/-! ### When the intrinsics are defined -/

variable {other : X → List Val → Memory → Option (Val × Memory)} {width : ℕ} {m m' : Memory}
  {v : Val}

theorem eval_memcpy_eq_some {dstTy srcTy : IntTy} {dst src len : Val}
    (h : eval other (.memcpy width dstTy srcTy) [dst, src, len] m = some (v, m')) :
    ∃ d s n, toWord dst = some d ∧ toWord src = some s ∧ lengthOf width len = some n ∧
      Fits d.toNat n ∧ Fits s.toNat n ∧ Apart d.toNat s.toNat n ∧
      m' = copyBytes m d.toNat s.toNat n := by
  simp only [eval, Option.bind_eq_bind, Option.bind_eq_some_iff,
    Option.ite_none_right_eq_some] at h
  obtain ⟨d, hd, s, hs, n, hn, ⟨hfits, hfits', hapart⟩, heq⟩ := h
  cases heq
  exact ⟨d, s, n, hd, hs, hn, hfits, hfits', hapart, rfl⟩

theorem eval_memmove_eq_some {ty : IntTy} {dst src len : Val}
    (h : eval other (.memmove width ty) [dst, src, len] m = some (v, m')) :
    ∃ d s n, toWord dst = some d ∧ toWord src = some s ∧ lengthOf width len = some n ∧
      Fits d.toNat n ∧ Fits s.toNat n ∧ m' = copyBytes m d.toNat s.toNat n := by
  simp only [eval, Option.bind_eq_bind, Option.bind_eq_some_iff,
    Option.ite_none_right_eq_some] at h
  obtain ⟨d, hd, s, hs, n, hn, ⟨hfits, hfits'⟩, heq⟩ := h
  cases heq
  exact ⟨d, s, n, hd, hs, hn, hfits, hfits', rfl⟩

theorem eval_memset_eq_some {dstTy : IntTy} {dst x len : Val}
    (h : eval other (.memset width dstTy) [dst, x, len] m = some (v, m')) :
    ∃ d n, toWord dst = some d ∧ lengthOf width len = some n ∧ Fits d.toNat n ∧
      m' = storeRange m d.toNat n fun _ => x 0 := by
  simp only [eval, Option.bind_eq_bind, Option.bind_eq_some_iff,
    Option.ite_none_right_eq_some] at h
  obtain ⟨d, hd, n, hn, hfits, heq⟩ := h
  cases heq
  exact ⟨d, n, hd, hn, hfits, rfl⟩

end Eval

end TVMCompiler.LowerIntrinsics
