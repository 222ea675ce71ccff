import Mathlib.Data.Option.Basic
import TVMCompiler.Stack.Fixup

/-!
# Instructions in stack form

After the stack model has run, the operands of an instruction are on the operand stack, and the
instruction itself names immediate values only. The instructions that the model emits rearrange
the stack; what the others do is a parameter.

## Main definitions

* `StackInstr`: an instruction in stack form
* `Value`: what stands on the operand stack
* `StackInstr.exec`, `execAll`: the effect on the operand stack
* `Change.instruction`: `StackFixup::InstructionGenerator`

## Main results

* `execAll_instruction`: the emitted instructions perform the change
-/

namespace TVMCompiler

/-- An instruction in stack form. `other` stands for the instructions that the modelled passes do
not look at. -/
inductive StackInstr (Block : Type) where
  | POP (i : ℕ)
  | XCHG_TOP (i : ℕ)
  | XCHG_TOP_DEEP (i : ℕ)
  | XCHG (i j : ℕ)
  | PUSH (i : ℕ)
  | PUSHX
  | BLKPUSH (sz slot : ℕ)
  | BLKSWAP (deep top : ℕ)
  | BLKSWX
  | ROLL (sz : ℕ)
  | ROLLREV (sz : ℕ)
  | ROLLX
  | ROLLREVX
  | REVERSE (sz topIdx : ℕ)
  | REVX
  | BLKDROP (sz : ℕ)
  | DROPX
  | XCHG2 (i j : ℕ)
  | XCPU (i j : ℕ)
  | PUXC (i j : ℕ)
  | PUSH2 (i j : ℕ)
  | XCHG3 (i j k : ℕ)
  | XC2PU (i j k : ℕ)
  | XCPUXC (i j k : ℕ)
  | XCPU2 (i j k : ℕ)
  | PUXC2 (i j k : ℕ)
  | PUXCPU (i j k : ℕ)
  | PU2XC (i j k : ℕ)
  | PUSH3 (i j k : ℕ)
  | CONST_I257_S (value : ℤ)
  | CONST_U257_S (value : ℤ)
  | PUSHCONT_MBB_S (bb : Block)
  | JMPX_S
  | other (code : ℕ) (isTerminator isBarrier : Bool)
  deriving DecidableEq, Repr

/-- A value on the operand stack. -/
inductive Value (Block Data : Type) where
  | int (value : ℤ)
  | cont (bb : Block)
  | data (x : Data)
  deriving DecidableEq, Repr

section Semantics

variable {Block Data : Type}

/-- The instructions that take their immediate values from the stack. -/
def popInt : List (Value Block Data) → Option (ℕ × List (Value Block Data))
  | .int n :: s => do
    guard (0 ≤ n)
    return (n.toNat, s)
  | _ => none

/-- What is done `n` times. -/
def repeatM {α : Type} (act : α → Option α) : ℕ → α → Option α
  | 0, s => some s
  | n + 1, s => (act s).bind (repeatM act n)

/-- The effect of an instruction on the operand stack. The instructions that the model does not
emit do `sem`. A jump takes the continuation off the stack. -/
def StackInstr.exec (sem : ℕ → List (Value Block Data) → Option (List (Value Block Data))) :
    StackInstr Block → List (Value Block Data) → Option (List (Value Block Data))
  | POP i, s => popTo s i
  | XCHG_TOP i, s => swapAt s 0 i
  | XCHG_TOP_DEEP i, s => swapAt s 0 i
  | XCHG i j, s => swapAt s i j
  | PUSH i, s => pushAt s i
  | PUSHX, s => do
    let (i, s) ← popInt s
    pushAt s i
  | BLKPUSH sz slot, s => repeatM (pushAt · slot) sz s
  | BLKSWAP deep top, s => blockSwap s deep top
  | BLKSWX, s => do
    let (top, s) ← popInt s
    let (deep, s) ← popInt s
    blockSwap s deep top
  | ROLL sz, s => rollBy s sz
  | ROLLREV sz, s => rollBy s (-sz)
  | ROLLX, s => do
    let (sz, s) ← popInt s
    rollBy s sz
  | ROLLREVX, s => do
    let (sz, s) ← popInt s
    rollBy s (-sz)
  | REVERSE sz topIdx, s => reverseBlock s sz topIdx
  | REVX, s => do
    let (topIdx, s) ← popInt s
    let (sz, s) ← popInt s
    reverseBlock s sz topIdx
  | BLKDROP sz, s => dropTop s sz
  | DROPX, s => do
    let (sz, s) ← popInt s
    dropTop s sz
  | XCHG2 i j, s => (Change.doubleChange false false i j).apply (.int 0) s
  | XCPU i j, s => (Change.doubleChange false true i j).apply (.int 0) s
  | PUXC i j, s => (Change.doubleChange true false i j).apply (.int 0) s
  | PUSH2 i j, s => (Change.doubleChange true true i j).apply (.int 0) s
  | XCHG3 i j k, s => (Change.tripleChange false false false i j k).apply (.int 0) s
  | XC2PU i j k, s => (Change.tripleChange false false true i j k).apply (.int 0) s
  | XCPUXC i j k, s => (Change.tripleChange false true false i j k).apply (.int 0) s
  | XCPU2 i j k, s => (Change.tripleChange false true true i j k).apply (.int 0) s
  | PUXC2 i j k, s => (Change.tripleChange true false false i j k).apply (.int 0) s
  | PUXCPU i j k, s => (Change.tripleChange true false true i j k).apply (.int 0) s
  | PU2XC i j k, s => (Change.tripleChange true true false i j k).apply (.int 0) s
  | PUSH3 i j k, s => (Change.tripleChange true true true i j k).apply (.int 0) s
  | CONST_I257_S value, s => some (.int value :: s)
  | CONST_U257_S value, s => some (.int value :: s)
  | PUSHCONT_MBB_S bb, s => some (.cont bb :: s)
  | JMPX_S, s =>
    match s with
    | .cont _ :: s => some s
    | _ => none
  | other code _ _, s => sem code s

variable (sem : ℕ → List (Value Block Data) → Option (List (Value Block Data)))

/-- The effect of a sequence of instructions. -/
def execAll (is : List (StackInstr Block)) (s : List (Value Block Data)) :
    Option (List (Value Block Data)) :=
  is.foldlM (fun s i => i.exec sem s) s

@[simp] theorem execAll_nil : execAll sem [] = some := rfl

@[simp] theorem execAll_cons (i : StackInstr Block) (is : List (StackInstr Block))
    (s : List (Value Block Data)) :
    execAll sem (i :: is) s = (i.exec sem s).bind (execAll sem is) := rfl

theorem execAll_append (is js : List (StackInstr Block)) (s : List (Value Block Data)) :
    execAll sem (is ++ js) s = (execAll sem is s).bind (execAll sem js) := by
  induction is generalizing s with
  | nil => rfl
  | cons i is ih =>
    rw [List.cons_append, execAll_cons, execAll_cons]
    cases i.exec sem s with
    | none => rfl
    | some t => exact ih t

@[simp] theorem popInt_natCast (n : ℕ) (s : List (Value Block Data)) :
    popInt (.int n :: s) = some (n, s) := by
  simp [popInt]

end Semantics

/-! ## Emitting the instructions of a change -/

/-- `InstructionGenerator::operator()`, undefined where no instruction is generated. -/
def Change.instruction {Block : Type} : Change → Option (List (StackInstr Block))
  | .pop i => some [.POP i]
  | .xchgTop i =>
    if i ≤ xchgLimit then some [.XCHG_TOP i]
    else if i ≤ xchgDeepLimit then some [.XCHG_TOP_DEEP i]
    else none
  | .xchg i j => some [.XCHG i j]
  | .pushI i | .pushHidden i _ =>
    if i ≤ pushLimit then some [.PUSH i] else some [.CONST_U257_S i, .PUSHX]
  | .pushUndef => some [.CONST_I257_S 0]
  | .blkswap deepSz topSz =>
    if goodFor deepSz topSz then some [.BLKSWAP deepSz topSz]
    else some [.CONST_U257_S deepSz, .CONST_U257_S topSz, .BLKSWX]
  | .blkdrop sz =>
    if sz ≤ blkdropImmLimit then some [.BLKDROP sz] else some [.CONST_U257_S sz, .DROPX]
  | .roll i =>
    if isImmRoll i then some [if 0 < i then .ROLL i.natAbs else .ROLLREV i.natAbs]
    else some [.CONST_U257_S i.natAbs, if 0 < i then .ROLLX else .ROLLREVX]
  | .reverse deepSz topIdx =>
    if deepSz - 2 ≤ reverseImmLimit ∧ topIdx ≤ reverseImmLimit then some [.REVERSE deepSz topIdx]
    else some [.CONST_U257_S deepSz, .CONST_U257_S topIdx, .REVX]
  | .doubleChange p₀ p₁ i j =>
    match p₀, p₁ with
    | false, false => some [.XCHG2 i j]
    | false, true => some [.XCPU i j]
    | true, false => some [.PUXC i j]
    | true, true => some [.PUSH2 i j]
  | .tripleChange p₀ p₁ p₂ i j k =>
    match p₀, p₁, p₂ with
    | false, false, false => some [.XCHG3 i j k]
    | false, false, true => some [.XC2PU i j k]
    | false, true, false => some [.XCPUXC i j k]
    | false, true, true => some [.XCPU2 i j k]
    | true, false, false => some [.PUXC2 i j k]
    | true, false, true => some [.PUXCPU i j k]
    | true, true, false => some [.PU2XC i j k]
    | true, true, true => some [.PUSH3 i j k]

section Emitted

variable {Block Data : Type}
  (sem : ℕ → List (Value Block Data) → Option (List (Value Block Data)))

/-- The changes that `DiffForHiddenStack` does not make. -/
def Change.Visible : Change → Prop
  | .pushHidden _ _ => False
  | _ => True

theorem rollBy_natAbs {α : Type} (i : ℤ) (s : List α) :
    rollBy s i = rollBy s (if 0 < i then (i.natAbs : ℤ) else -(i.natAbs : ℤ)) := by
  split
  · rw [Int.natAbs_of_nonneg (by omega)]
  · rw [Int.ofNat_natAbs_of_nonpos (by omega), Int.neg_neg]

/-- **The emitted instructions perform the change**, with the number zero for an undefined
value. -/
theorem execAll_instruction {c : Change} (hc : c.Visible) {is : List (StackInstr Block)}
    (h : c.instruction = some is) (s : List (Value Block Data)) :
    execAll sem is s = c.apply (.int 0) s := by
  have hone (i : StackInstr Block) : execAll sem [i] s = i.exec sem s := by
    rw [execAll_cons]
    cases i.exec sem s <;> rfl
  cases c with
  | pushHidden i reg => exact hc.elim
  | xchgTop i =>
    rw [Change.instruction] at h
    split_ifs at h <;> cases h <;> exact hone _
  | pushI i =>
    rw [Change.instruction] at h
    split_ifs at h <;> cases h
    · exact hone _
    · simp [StackInstr.exec, Change.apply]
  | blkswap deepSz topSz =>
    rw [Change.instruction] at h
    split_ifs at h <;> cases h
    · exact hone _
    · simp [StackInstr.exec, Change.apply]
  | blkdrop sz =>
    rw [Change.instruction] at h
    split_ifs at h <;> cases h
    · exact hone _
    · simp [StackInstr.exec, Change.apply]
  | roll i =>
    rw [Change.instruction] at h
    rw [Change.apply, rollBy_natAbs]
    have hpushed (op : StackInstr Block) :
        execAll sem [.CONST_U257_S i.natAbs, op] s = op.exec sem (.int i.natAbs :: s) := by
      rw [execAll_cons]
      exact Option.bind_fun_some _
    split_ifs at h ⊢ <;> cases h
    · exact hone _
    · rw [hpushed, StackInstr.exec, popInt_natCast]
      rfl
    · exact hone _
    · rw [hpushed, StackInstr.exec, popInt_natCast]
      rfl
  | reverse deepSz topIdx =>
    rw [Change.instruction] at h
    split_ifs at h <;> cases h
    · exact hone _
    · simp [StackInstr.exec, Change.apply]
  | doubleChange p₀ p₁ i j =>
    cases p₀ <;> cases p₁ <;> cases h <;> exact hone _
  | tripleChange p₀ p₁ p₂ i j k =>
    cases p₀ <;> cases p₁ <;> cases p₂ <;> cases h <;> exact hone _
  | _ =>
    cases h
    exact hone _

end Emitted

end TVMCompiler
