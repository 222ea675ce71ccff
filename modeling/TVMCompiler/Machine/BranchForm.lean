import TVMCompiler.Lib.Callers
import TVMCompiler.Machine.StackFunction

/-!
# Functions with branches

The instructions in stack form, with the conditional calls that end a block, and with the two
instructions that the passes over branches put in. A continuation that is called gives control back
behind the instruction that called it.

## Main definitions

* `BranchInstr`, `BranchFunction`: an instruction, and a function
* `BranchFunction.expand`: the code of a continuation
* `BranchFunction.effect`: what an instruction does
* `BranchFunction.SameExecution`: functions that show the same

## Main results

* `expand_eq`, `fallThrough_induction`: a block, and what it falls through to
* `getFallThrough_setCode`: the blocks whose code stays fall through as before
* `expand_setCode`, `behind_setCode`: continuations after a change of the code of a block
-/

namespace TVMCompiler

open Lib StackFunction

/-- An instruction in stack form, with those that the passes over branches look at or put in. -/
inductive BranchInstr (Block : Type) where
  | stack (i : StackInstr Block)
  | IFELSE_S
  | IF_S
  | IFNOT_S
  | FALLTHROUGH_RETURN
  | PUSHNULL_S
  deriving DecidableEq, Repr

namespace BranchInstr

variable {Block : Type}

def isTerminator : BranchInstr Block → Bool
  | stack i => i.isTerminator
  | IFELSE_S | IF_S | IFNOT_S | FALLTHROUGH_RETURN => true
  | PUSHNULL_S => false

/-- `IFELSE`, `IF` and `IFNOT` are barriers, although control comes back behind them. -/
def isBarrier : BranchInstr Block → Bool
  | stack i => i.isBarrier
  | IFELSE_S | IF_S | IFNOT_S | FALLTHROUGH_RETURN => true
  | PUSHNULL_S => false

/-- The instruction as one that the functions without branches have, with the same flags. -/
def plain : BranchInstr Block → StackInstr Block
  | stack i => i
  | i => .other 0 i.isTerminator i.isBarrier

end BranchInstr

/-- A machine function in stack form with branches. -/
structure BranchFunction (Block : Type) where
  cfg : Cfg Block
  layout : List Block
  nodup : layout.Nodup
  code : Block → List (BranchInstr Block)

/-- What the instructions do that are not modelled, and the null. -/
structure Semantics (Block Data : Type) where
  null : Data
  other : ℕ → List (Value Block Data) → Option (List (Value Block Data) × Control Block)

namespace BranchFunction

variable {Block Data : Type}

/-- The function without branches that falls through in the same way. -/
def plain (f : BranchFunction Block) : StackFunction Block :=
  ⟨f.cfg, f.layout, f.nodup, fun b => (f.code b).map BranchInstr.plain⟩

/-- The same function with other code in a block. -/
def setCode [DecidableEq Block] (f : BranchFunction Block) (b : Block)
    (code : List (BranchInstr Block)) : BranchFunction Block :=
  { f with code := Function.update f.code b code }

section Expand

variable [DecidableEq Block] (f : BranchFunction Block)

/-- The block that `b` falls through to where its code comes to an end. -/
def layoutSuccessor (b : Block) : Option Block := f.plain.layoutSuccessor b

/-- `MachineBasicBlock::getFallThrough`. -/
def getFallThrough (b : Block) : Option Block := f.plain.getFallThrough b

/-- The code that is written out for a block and for the blocks that it falls through to. -/
def expand (b : Block) : List (BranchInstr Block) := (f.plain.fallThroughChain b).flatMap f.code

/-- The code that is written out behind that of the block itself. -/
def behind (b : Block) : List (BranchInstr Block) := (f.getFallThrough b).elim [] f.expand

theorem expand_eq (b : Block) : f.expand b = f.code b ++ f.behind b := by
  rw [expand, fallThroughChain_eq, List.flatMap_cons, behind, getFallThrough]
  -- the block is the last of the chain, or it falls through
  cases f.plain.getFallThrough b <;> rfl

variable {f}

/-- **Induction along the fall-through.** -/
theorem fallThrough_induction {P : Block → Prop}
    (hstep : ∀ b, (∀ next, f.getFallThrough b = some next → P next) → P b) (b : Block) : P b :=
  StackFunction.fallThrough_induction (f := f.plain) hstep b

/-- Whether control comes to the end of the code. -/
def endsInBarrier (code : List (BranchInstr Block)) : Bool :=
  code.getLast?.any fun i => i.isTerminator && i.isBarrier

omit [DecidableEq Block] in
theorem endsInBarrier_map_plain (code : List (BranchInstr Block)) :
    TVMCompiler.endsInBarrier (code.map BranchInstr.plain) = endsInBarrier code := by
  rw [TVMCompiler.endsInBarrier, endsInBarrier, List.getLast?_map]
  cases code.getLast? with
  | none => rfl
  | some i => cases i <;> rfl

theorem getFallThrough_eq (b : Block) : f.getFallThrough b =
    if endsInBarrier (f.code b) then none else f.layoutSuccessor b := by
  rw [getFallThrough, StackFunction.getFallThrough, ← endsInBarrier_map_plain]
  rfl

@[simp] theorem code_setCode_self (b : Block) (code : List (BranchInstr Block)) :
    (f.setCode b code).code b = code := Function.update_self _ _ _

theorem code_setCode_of_ne {b c : Block} (hc : c ≠ b) (code : List (BranchInstr Block)) :
    (f.setCode b code).code c = f.code c := Function.update_of_ne hc _ _

@[simp] theorem layoutSuccessor_setCode (b c : Block) (code : List (BranchInstr Block)) :
    (f.setCode b code).layoutSuccessor c = f.layoutSuccessor c := rfl

/-- The blocks whose code stays fall through as before. -/
theorem getFallThrough_setCode {b c : Block} (hc : c ≠ b) (code : List (BranchInstr Block)) :
    (f.setCode b code).getFallThrough c = f.getFallThrough c := by
  rw [getFallThrough_eq, getFallThrough_eq, code_setCode_of_ne hc, layoutSuccessor_setCode]

/-- With code that ends in the same instruction the block itself falls through as before. -/
theorem getFallThrough_setCode_self {b : Block} {code : List (BranchInstr Block)}
    (h : endsInBarrier code = endsInBarrier (f.code b)) :
    (f.setCode b code).getFallThrough b = f.getFallThrough b := by
  rw [getFallThrough_eq, getFallThrough_eq, code_setCode_self, layoutSuccessor_setCode, h]

/-- The continuations that do not come to a block do not change with its code. -/
theorem expand_setCode {b c : Block} (hc : b ∉ f.plain.fallThroughChain c)
    (code : List (BranchInstr Block)) : (f.setCode b code).expand c = f.expand c := by
  induction c using fallThrough_induction (f := f) with
  | hstep c ih =>
    rw [fallThroughChain_eq, List.mem_cons, not_or] at hc
    rw [expand_eq, expand_eq, behind, behind, getFallThrough_setCode (Ne.symm hc.1),
      code_setCode_of_ne (Ne.symm hc.1)]
    cases hnext : f.getFallThrough c with
    | none => rfl
    | some next =>
      have hrest : b ∉ f.plain.fallThroughChain next := by
        have hplain : f.plain.getFallThrough c = some next := hnext
        rw [hplain] at hc
        exact hc.2
      exact congrArg _ (ih next hnext hrest)

/-- The code behind a block is that of the block it falls through to, which does not come back. -/
theorem behind_setCode (b : Block) (code : List (BranchInstr Block)) :
    (f.setCode b code).behind b =
      if endsInBarrier code then [] else (f.layoutSuccessor b).elim [] f.expand := by
  rw [behind, getFallThrough_eq, code_setCode_self, layoutSuccessor_setCode]
  split
  · rfl
  · cases hnext : f.layoutSuccessor b with
    | none => rfl
    | some next => exact expand_setCode (notMem_chain_layoutSuccessor hnext) code

theorem behind_eq (b : Block) : f.behind b =
    if endsInBarrier (f.code b) then [] else (f.layoutSuccessor b).elim [] f.expand := by
  rw [behind, getFallThrough_eq]
  split
  · rfl
  · rfl

end Expand

/-! ## Execution -/

/-- What an instruction does: the event that is seen, the stack, and where control goes. A
conditional call takes its branches and the condition off the stack. -/
def control (sem : Semantics Block Data) : BranchInstr Block → List (Value Block Data) →
    Option (Option (Event Block Data) × List (Value Block Data) × Control Block)
  | .stack i, s => StackFunction.effect sem.other i s
  | .IFELSE_S, .cont elseBB :: .cont thenBB :: .int v :: s =>
    some (none, s, .call (if v ≠ 0 then thenBB else elseBB))
  | .IF_S, .cont bb :: .int v :: s => some (none, s, if v ≠ 0 then .call bb else .next)
  | .IFNOT_S, .cont bb :: .int v :: s => some (none, s, if v ≠ 0 then .next else .call bb)
  | .FALLTHROUGH_RETURN, s => some (none, s, .next)
  | .PUSHNULL_S, s => some (none, .data sem.null :: s, .next)
  | _, _ => none

variable [DecidableEq Block] (f : BranchFunction Block)

/-- The code that control goes to. -/
def flow : Control Block → Flow (BranchInstr Block)
  | .next => .next
  | .jump bb => .goto (f.expand bb)
  | .call bb => .call (f.expand bb)
  | .ret => .ret

/-- The effect of an instruction in the function. -/
def effect (sem : Semantics Block Data) (i : BranchInstr Block) (s : List (Value Block Data)) :
    Option (Option (Event Block Data) × List (Value Block Data) × Flow (BranchInstr Block)) :=
  (control sem i s).map fun r => (r.1, r.2.1, f.flow r.2.2)

/-- A point of the execution. -/
abbrev Point (Block Data : Type) := Activation (BranchInstr Block) (List (Value Block Data))

/-- A step of the execution. -/
abbrev step (sem : Semantics Block Data) :
    Point Block Data → Option (Option (Event Block Data) × Point Block Data) :=
  Activation.step (f.effect sem)

/-- The execution of a block. -/
def start (b : Block) (s : List (Value Block Data)) : Point Block Data := ⟨f.expand b, [], s⟩

variable {f} in
theorem effect_of_control {sem : Semantics Block Data} {i : BranchInstr Block}
    {s t : List (Value Block Data)} {e : Option (Event Block Data)} {ctl : Control Block}
    (h : control sem i s = some (e, t, ctl)) : f.effect sem i s = some (e, t, f.flow ctl) := by
  rw [effect, h]
  rfl

variable {f} in
theorem effect_of_control_none {sem : Semantics Block Data} {i : BranchInstr Block}
    {s : List (Value Block Data)} (h : control sem i s = none) : f.effect sem i s = none := by
  rw [effect, h]
  rfl

/-- The functions show the same, from a block and a stack, and leave the same stacks at the end. -/
def SameExecution (sem : Semantics Block Data) (f g : BranchFunction Block) (b : Block)
    (s : List (Value Block Data)) : Prop :=
  (∀ es, Sees (f.step sem) (f.start b s) es ↔ Sees (g.step sem) (g.start b s) es) ∧
    ∀ es t, (∃ u, Stops (f.step sem) (f.start b s) es u ∧ u.Halted ∧ u.state = t) ↔
      ∃ u, Stops (g.step sem) (g.start b s) es u ∧ u.Halted ∧ u.state = t

end BranchFunction

end TVMCompiler
