import Mathlib.Algebra.GroupWithZero.Nat
import TVMCompiler.StackModel.Roads

/-!
# Machine functions

The machine code of one function: its control-flow graph, the order of its blocks, and the
instructions of each block. The continuation of a block is a value that `PUSHCONT_MBB` pushes;
a terminator that uses it transfers control to the block.

## Main definitions

* `Opcode`, `MachineOperand`, `MachineInstr`, `MachineFunction`
* `MachineFunction.analyzeBranch`: `TVMInstrInfo::analyzeBranch`
* `MachineFunction.getFallThrough`: `MachineBasicBlock::getFallThrough`

## Main results

* `MachineFunction.getFallThrough_spec`: a block falls through only to the block that follows it,
  and only if that block has no other predecessor
-/

namespace TVMCompiler

/-- A virtual register has bit 31 set. -/
abbrev Register := ℕ

/-- `TargetRegisterInfo::isVirtualRegister`. -/
def isVirtualRegister (r : Register) : Bool := r.testBit 31

/-- The opcodes that the modelled passes look at. -/
inductive Opcode where
  | PHI
  | DBG_VALUE
  | PUSHCONT_MBB
  | JMPX
  | IFELSE
  | IFJMP
  | IFNOTJMP
  | THROW
  | THROWIF
  | THROWIFNOT
  | PRINTSTR_S
  | LOGSTR_S
  | CONST_U257_S
  | other (code : ℕ) (isTerminator isBarrier : Bool)
  deriving DecidableEq, Repr

namespace Opcode

def isDebugInstr : Opcode → Bool
  | DBG_VALUE => true
  | _ => false

def isTerminator : Opcode → Bool
  | JMPX | IFELSE | IFJMP | IFNOTJMP | THROW => true
  | other _ isTerminator _ => isTerminator
  | _ => false

def isBarrier : Opcode → Bool
  | JMPX | IFELSE | THROW => true
  | other _ _ isBarrier => isBarrier
  | _ => false

/-- `TVMInstrInfo::isPredicated`. -/
def isPredicated : Opcode → Bool
  | THROWIF | THROWIFNOT => true
  | _ => false

end Opcode

/-- A global variable with the characters of its initializer, a function, or another global. -/
inductive GlobalValue where
  | globalVariable (name : String) (initializer : List Char)
  | function (name : String)
  | other (name : String)
  deriving DecidableEq, Repr

structure RegisterOperand where
  reg : Register
  isDef : Bool
  isImplicit : Bool
  isKill : Bool
  isDead : Bool
  deriving DecidableEq, Repr

/-- The operands that `TVMMCInstLower::lower` handles. -/
inductive MachineOperand (Block : Type) where
  | register (op : RegisterOperand)
  | imm (value : ℤ)
  | cimm (value : ℤ)
  | mbb (block : Block)
  | globalAddress (value : GlobalValue) (offset : ℤ)
  | externalSymbol (name : String)
  | registerMask
  deriving DecidableEq, Repr

/-- An instruction. Its address is the number `id`. -/
structure MachineInstr (Block : Type) where
  id : ℕ
  opcode : Opcode
  operands : List (MachineOperand Block)
  deriving DecidableEq, Repr

namespace MachineInstr

variable {Block : Type}

/-- The register of operand `i`. -/
def getReg (mi : MachineInstr Block) (i : ℕ) : Option Register :=
  match mi.operands[i]? with
  | some (.register op) => some op.reg
  | _ => none

/-- The register that a `PUSHCONT_MBB` defines, and the block that it pushes. -/
def pushcont (mi : MachineInstr Block) : Option (Register × Block) :=
  match mi.opcode, mi.operands with
  | Opcode.PUSHCONT_MBB, .register res :: .mbb block :: _ => some (res.reg, block)
  | _, _ => none

def target (mi : MachineInstr Block) : Option Block := mi.pushcont.map Prod.snd

def uses (mi : MachineInstr Block) (r : Register) : Bool :=
  mi.operands.any fun
    | .register op => op.reg = r && !op.isDef
    | _ => false

/-- How often the instruction defines the register. -/
def countDefs (mi : MachineInstr Block) (r : Register) : ℕ :=
  mi.operands.countP fun
    | .register op => op.reg = r && op.isDef
    | _ => false

/-- The register operands are changed. -/
def mapRegisters (f : RegisterOperand → RegisterOperand) (mi : MachineInstr Block) :
    MachineInstr Block :=
  { mi with operands := mi.operands.map fun
      | .register op => .register (f op)
      | op => op }

@[simp] theorem target_mapRegisters (f : RegisterOperand → RegisterOperand)
    (mi : MachineInstr Block) : (mi.mapRegisters f).target = mi.target := by
  obtain ⟨id, opcode, operands⟩ := mi
  cases opcode with
  | PUSHCONT_MBB =>
    match operands with
    | [] => rfl
    | [op] => cases op <;> rfl
    | op :: op' :: _ => cases op <;> cases op' <;> rfl
  | _ => rfl

/-- A block operand is no register operand. -/
theorem mbb_mem_mapRegisters {f : RegisterOperand → RegisterOperand} {mi : MachineInstr Block}
    {b : Block} (h : .mbb b ∈ (mi.mapRegisters f).operands) : .mbb b ∈ mi.operands := by
  obtain ⟨op, hop, heq⟩ := List.mem_map.mp h
  cases op with
  | mbb _ =>
    cases heq
    exact hop
  | _ => cases heq

end MachineInstr

/-- A machine function, with its blocks in their order. -/
structure MachineFunction (Block : Type) where
  cfg : Cfg Block
  layout : List Block
  instrs : Block → List (MachineInstr Block)
  nextId : ℕ
  numVirtRegs : ℕ

namespace MachineFunction

variable {Block : Type} [DecidableEq Block] (f : MachineFunction Block)

/-- All instructions, each with the block it is in. -/
def allInstrs : List (Block × MachineInstr Block) :=
  f.layout.flatMap fun b => (f.instrs b).map (b, ·)

/-- `MachineRegisterInfo::use_nodbg_empty`. -/
def useNodbgEmpty (r : Register) : Bool :=
  f.allInstrs.all fun p => p.2.opcode.isDebugInstr || !p.2.uses r

/-- `MachineRegisterInfo::hasOneDef`. -/
def hasOneDef (r : Register) : Bool :=
  (f.allInstrs.map fun p => p.2.countDefs r).sum = 1

/-- `MachineRegisterInfo::getVRegDef`, with the block of the instruction. -/
def getVRegDef (r : Register) : Option (Block × MachineInstr Block) :=
  f.allInstrs.find? fun p => p.2.countDefs r ≠ 0

/-- The block whose continuation the register holds. -/
def continuation (r : Register) : Option Block :=
  (f.getVRegDef r).bind fun p => p.2.target

/-- What `analyzeBranch` finds: the two targets and the condition. -/
structure Branch (Block : Type) where
  tbb : Option Block
  fbb : Option Block
  cond : List (MachineOperand Block)

/-- `TVMInstrInfo::analyzeBranch`. The result is `none` where the branch is not understood. -/
def analyzeBranch (b : Block) : Option (Branch Block) :=
  match (f.instrs b).reverse.dropWhile fun mi => mi.opcode.isDebugInstr with
  | [] => some ⟨none, none, []⟩
  | mi :: _ =>
    if !mi.opcode.isTerminator then some ⟨none, none, []⟩
    else
      match mi.opcode, mi.operands with
      | .JMPX, .register dst :: _ => do
        let tbb ← f.continuation dst.reg
        return ⟨some tbb, none, []⟩
      | .IFELSE, cond :: .register trueReg :: .register falseReg :: _ => do
        let tbb ← f.continuation trueReg.reg
        let fbb ← f.continuation falseReg.reg
        return if fbb = b then ⟨some fbb, some tbb, [.imm 1, cond]⟩
          else ⟨some tbb, some fbb, [.imm 0, cond]⟩
      | .IFJMP, cond :: .register trueReg :: _ => do
        let tbb ← f.continuation trueReg.reg
        return ⟨some tbb, none, [.imm 0, cond]⟩
      | .IFNOTJMP, cond :: .register trueReg :: _ => do
        let tbb ← f.continuation trueReg.reg
        return ⟨some tbb, none, [.imm 1, cond]⟩
      | _, _ => none

/-- `TVMInstrInfo::canFallthrough`. -/
def canFallthrough (dst : Block) : Bool := (f.cfg.preds dst).length = 1

/-- Whether `b` falls through to the block `next` that follows it: `getFallThrough` behind the
bound check. -/
def fallsThrough (b next : Block) : Bool :=
  decide (next ∈ f.cfg.succs b) && f.canFallthrough next &&
    match f.analyzeBranch b with
    | none =>
      match (f.instrs b).getLast? with
      | none => true
      | some back => !back.opcode.isBarrier || back.opcode.isPredicated
    | some ⟨none, _, _⟩ => true
    | some ⟨some tbb, fbb, cond⟩ =>
      tbb = next || fbb = some next || (!cond.isEmpty && fbb.isNone)

/-- The blocks after `b` in the layout. -/
def following (b : Block) : List Block := (f.layout.dropWhile (· ≠ b)).tail

/-- `MachineBasicBlock::getFallThrough`. -/
def getFallThrough (b : Block) : Option Block :=
  (f.following b).head?.filter (f.fallsThrough b)

variable {f}

/-- A block falls through only to a successor that has no other predecessor. -/
theorem getFallThrough_spec {b next : Block} (h : f.getFallThrough b = some next) :
    next ∈ f.cfg.succs b ∧ f.cfg.preds next = [b] := by
  obtain ⟨-, h⟩ := Option.filter_eq_some_iff.mp h
  simp only [fallsThrough, canFallthrough, Bool.and_eq_true, decide_eq_true_eq] at h
  obtain ⟨⟨hsucc, hlen⟩, -⟩ := h
  obtain ⟨p, hp⟩ := List.length_eq_one_iff.mp hlen
  have hb : b ∈ f.cfg.preds next := (f.cfg.mem_preds b next).mpr hsucc
  rw [hp, List.mem_singleton] at hb
  exact ⟨hsucc, by rw [hp, hb]⟩

end MachineFunction

end TVMCompiler
