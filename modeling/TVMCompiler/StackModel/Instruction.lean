import TVMCompiler.Stack.Args

/-!
# Instructions in register form

The stack model translates instructions whose operands are registers. Before it prepares the
operands of an instruction it masks the registers on the stack that the instruction overwrites.

## Main definitions

* `RegOpcode`, `RegOperand`, `RegInstr`: an instruction in register form
* `RegInstr.args`: `MIArgs`
* `filteredByMIdefs`, `filterByDeadDefs`, `filterByImpDefs`, `withArgs`: the functions of `Stack`
* `Masked`, `Overwritten`: what `filteredByMIdefs` is for, and where it matters

## Main results

* `filteredByMIdefs_eq`: the function changes nothing
* `masked_iff`: so it is right exactly where no register is overwritten
-/

namespace TVMCompiler

/-- What is known of an opcode that the stack model does not name. -/
structure OpcodeInfo where
  isTerminator : Bool
  isReturn : Bool
  isCommutable : Bool
  hasSForm : Bool
  return_terminator : isReturn → isTerminator
  deriving DecidableEq

/-- The opcodes of the register form. `DBG_VALUE` and `EH_LABEL` stand for the debug instructions
and the labels. -/
inductive RegOpcode where
  | IMPLICIT_DEF
  | HIDDENSTACK
  | DBG_VALUE
  | EH_LABEL
  | JMPX
  | IFJMP
  | IFNOTJMP
  | IFELSE
  | SUB
  | SUBR
  | STI
  | STIR
  | STU
  | STUR
  | STIX
  | STIXR
  | STUX
  | STUXR
  | SGT
  | SLT
  | SGE
  | SLE
  | other (code : ℕ) (info : OpcodeInfo)
  deriving DecidableEq

namespace RegOpcode

/-- `MI.isDebugInstr() || MI.isLabel()`. -/
def isSkipped : RegOpcode → Bool
  | DBG_VALUE | EH_LABEL => true
  | _ => false

def isTerminator : RegOpcode → Bool
  | JMPX | IFJMP | IFNOTJMP | IFELSE => true
  | other _ info => info.isTerminator
  | _ => false

def isReturn : RegOpcode → Bool
  | other _ info => info.isReturn
  | _ => false

def isCommutable : RegOpcode → Bool
  | other _ info => info.isCommutable
  | _ => false

/-- There is a stack form of the instruction, that is `RegForm2SForm` maps it. -/
def hasSForm : RegOpcode → Bool
  | IMPLICIT_DEF | HIDDENSTACK | DBG_VALUE | EH_LABEL => false
  | other _ info => info.hasSForm
  | _ => true

/-- `OpcodeMap` of `optimizeReversible`: the opcode that takes its first two operands in the other
order. -/
def reversed : RegOpcode → Option RegOpcode
  | SUB => some SUBR
  | STI => some STIR
  | STU => some STUR
  | STIX => some STIXR
  | STUX => some STUXR
  | SGT => some SLT
  | SGE => some SLE
  | SLT => some SGT
  | SLE => some SGE
  | _ => none

theorem isTerminator_of_isReturn {op : RegOpcode} (h : op.isReturn) : op.isTerminator := by
  cases op with
  | other _ info => exact info.return_terminator h
  | _ => cases h

theorem isTerminator_reversed {op rop : RegOpcode} (h : op.reversed = some rop) :
    rop.isTerminator = false := by
  cases op <;> cases h <;> rfl

theorem prepared_reversed {op rop : RegOpcode} (h : op.reversed = some rop) :
    rop.isSkipped = false ∧ rop ≠ IMPLICIT_DEF ∧ rop ≠ HIDDENSTACK := by
  cases op <;> cases h <;> simp [isSkipped]

theorem isCommutable_reversed {op rop : RegOpcode} (h : op.reversed = some rop) :
    rop.isCommutable = false := by
  cases op <;> cases h <;> rfl

end RegOpcode

/-- A register, or an operand that the stack model passes on. -/
inductive RegOperand where
  | reg (reg : StackVreg) (isUndef isDead : Bool)
  | imm (value : ℤ)
  | symbol (id : ℕ)
  deriving DecidableEq, Repr

namespace RegOperand

def isReg : RegOperand → Bool
  | reg .. => true
  | _ => false

/-- `getReg`, undefined on the other operands. -/
def getReg : RegOperand → Option StackVreg
  | reg r _ _ => some r
  | _ => none

end RegOperand

/-- An instruction, with what holds for every description of one: explicit definitions are
registers, a terminator defines none, the commutable instructions have two operands, and the
reversible ones have one result. -/
structure RegInstr where
  opcode : RegOpcode
  defs : List RegOperand
  uses : List RegOperand
  defs_reg : ∀ op ∈ defs, op.isReg
  terminator_defs : opcode.isTerminator → defs = []
  commutable_uses : opcode.isCommutable → (uses.filter RegOperand.isReg).length = 2
  reversible_defs : opcode.reversed.isSome → defs.length = 1
  deriving DecidableEq

namespace RegInstr

variable (mi : RegInstr)

def defRegs : List StackVreg := mi.defs.filterMap RegOperand.getReg

/-- The registers among the uses, also the undefined ones. -/
def useRegs : List StackVreg := mi.uses.filterMap RegOperand.getReg

/-- The registers whose values the instruction reads. -/
def readRegs : List StackVreg := mi.uses.filterMap fun
  | .reg r false _ => some r
  | _ => none

/-- The registers that nothing reads after the instruction has defined them. -/
def deadRegs : List StackVreg := mi.defs.filterMap fun
  | .reg r _ true => some r
  | _ => none

theorem readRegs_subset_useRegs : mi.readRegs ⊆ mi.useRegs := by
  intro r hr
  obtain ⟨op, hop, h⟩ := List.mem_filterMap.mp hr
  refine List.mem_filterMap.mpr ⟨op, hop, ?_⟩
  cases op with
  | reg r' isUndef _ => cases isUndef <;> simp_all [RegOperand.getReg]
  | _ => cases h

/-- `isKilled`, where `vnInfoAt` says whether the interval of a register has a value at the
instruction. -/
def isKilled (vnInfoAt : StackVreg → Bool) (r : StackVreg) : Bool :=
  !vnInfoAt r || decide (r ∈ mi.defRegs)

/-- The constructor of `MIArgs`. -/
def args (vnInfoAt : StackVreg → Bool) : List MIArg := mi.uses.filterMap fun
  | .reg _ true _ => some ⟨unusedReg, true⟩
  | .reg r false _ => some ⟨r, mi.isKilled vnInfoAt r⟩
  | _ => none

theorem length_args (vnInfoAt : StackVreg → Bool) : (mi.args vnInfoAt).length = mi.useRegs.length := by
  unfold args useRegs
  induction mi.uses with
  | nil => rfl
  | cons op uses ih =>
    cases op with
    | reg r isUndef _ => cases isUndef <;> simpa [RegOperand.getReg] using ih
    | _ => exact ih

/-- An operand that is not undefined is one that the instruction reads. -/
theorem mem_args {vnInfoAt : StackVreg → Bool} {a : MIArg} (h : a ∈ mi.args vnInfoAt) :
    a = ⟨unusedReg, true⟩ ∨ a.vreg ∈ mi.readRegs ∧ a.isKilled = mi.isKilled vnInfoAt a.vreg := by
  obtain ⟨op, hop, h⟩ := List.mem_filterMap.mp h
  cases op with
  | reg r isUndef isDead =>
    cases isUndef with
    | true => exact Or.inl (Option.some.inj h).symm
    | false =>
      cases h
      exact Or.inr ⟨List.mem_filterMap.mpr ⟨_, hop, rfl⟩, rfl⟩
  | _ => cases h

theorem mem_args_of_readRegs (vnInfoAt : StackVreg → Bool) {r : StackVreg} (h : r ∈ mi.readRegs) :
    ⟨r, mi.isKilled vnInfoAt r⟩ ∈ mi.args vnInfoAt := by
  obtain ⟨op, hop, h⟩ := List.mem_filterMap.mp h
  refine List.mem_filterMap.mpr ⟨op, hop, ?_⟩
  cases op with
  | reg r' isUndef isDead => cases isUndef <;> simp_all
  | _ => cases h

end RegInstr

/-! ## Masking registers on the stack -/

/-- `Stack::filteredByMIdefs`, with the body of its loop for one definition. -/
def filterByMIdef (mi : RegInstr) (rv : Stack) (op : RegOperand) : Option Stack :=
  if op.isReg then some rv
  else do
    let vreg ← op.getReg
    if vreg ∈ mi.useRegs then return rv
    else
      let pos ← position rv vreg
      return rv.set pos unusedReg

def filteredByMIdefs (s : Stack) (mi : RegInstr) : Option Stack :=
  mi.defs.foldlM (filterByMIdef mi) s

/-- `Stack::filterByDeadDefs`. -/
def filterByDeadDefs (s : Stack) (mi : RegInstr) : Stack :=
  s.map fun v => if v ∈ mi.deadRegs then unusedReg else v

/-- `Stack::filterByImpDefs`: the registers that are not on `stack` are masked. -/
def filterByImpDefs (s stack : Stack) : Stack :=
  s.map fun v => if v ≠ unusedReg ∧ v ∉ stack then unusedReg else v

/-- `Stack::withArgs`. -/
def withArgs (s : Stack) (args : List MIArg) : Stack := (args.map MIArg.vreg).reverse ++ s

@[simp] theorem length_filterByDeadDefs (s : Stack) (mi : RegInstr) :
    (filterByDeadDefs s mi).length = s.length := List.length_map _

@[simp] theorem length_filterByImpDefs (s stack : Stack) :
    (filterByImpDefs s stack).length = s.length := List.length_map _

/-- Every definition is a register, and the loop skips the registers. -/
theorem filteredByMIdefs_eq (s : Stack) (mi : RegInstr) : filteredByMIdefs s mi = some s := by
  unfold filteredByMIdefs
  have hreg := mi.defs_reg
  generalize mi.defs = defs at hreg
  induction defs with
  | nil => rfl
  | cons op defs ih =>
    rw [List.foldlM_cons, filterByMIdef, if_pos (hreg op List.mem_cons_self)]
    exact ih fun op hop => hreg op (List.mem_cons_of_mem _ hop)

/-- The slots of the registers that the instruction defines and does not use are masked, and
nothing else is changed. -/
def Masked (s : Stack) (mi : RegInstr) : Prop :=
  ∃ r, filteredByMIdefs s mi = some r ∧ r.length = s.length ∧
    ∀ (k : ℕ) v, s[k]? = some v →
      r[k]? = some (if v ∈ mi.defRegs ∧ v ∉ mi.useRegs then unusedReg else v)

/-- The instruction defines a register on the stack without using it. -/
def Overwritten (s : Stack) (mi : RegInstr) : Prop :=
  ∃ v ∈ s, v ≠ unusedReg ∧ v ∈ mi.defRegs ∧ v ∉ mi.useRegs

theorem masked_iff (s : Stack) (mi : RegInstr) : Masked s mi ↔ ¬ Overwritten s mi := by
  constructor
  · rintro ⟨r, hr, -, hslot⟩ ⟨v, hv, hne, hdef⟩
    obtain rfl := Option.some.inj (hr.symm.trans (filteredByMIdefs_eq s mi))
    obtain ⟨k, hk⟩ := List.mem_iff_getElem?.mp hv
    have := hslot k v hk
    rw [if_pos hdef, hk] at this
    exact hne (Option.some.inj this)
  · intro h
    refine ⟨s, filteredByMIdefs_eq s mi, rfl, fun k v hk => ?_⟩
    split_ifs with hdef
    · -- only the marker itself can be overwritten
      have : v = unusedReg := by
        by_contra hne
        exact h ⟨v, List.mem_of_getElem? hk, hne, hdef⟩
      rw [hk, this]
    · exact hk

end TVMCompiler
