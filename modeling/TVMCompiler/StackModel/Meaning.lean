import TVMCompiler.Machine.StackForm
import TVMCompiler.Stack.Related
import TVMCompiler.StackModel.Process

/-!
# Register form and stack form

In register form an instruction reads its operands from registers and writes its results to
registers. In stack form it takes them from the stack of the machine and pushes its results, and
in front of it stand the instructions that bring the operands to the top. What an instruction
computes is the same in both forms, and is a parameter.

## Main definitions

* `Meaning`: what the instructions compute
* `RegStep`, `RegRun`: the execution in register form
* `SInstr`, `runAll`: the execution in stack form
* `Processed.code`, `RegFunction.translate`: the code that the stack model emits

## Main results

* `runAll_fixup`: the code of a fixup rearranges the stack of the machine
* `RegFunction.foldlM_of_translate`: the code belongs to a run of the stack model
-/

namespace TVMCompiler

/-! ## Operands -/

namespace RegOperand

def isSymbol : RegOperand → Bool
  | symbol _ => true
  | _ => false

def isImm : RegOperand → Bool
  | imm _ => true
  | _ => false

end RegOperand

namespace RegInstr

variable (mi : RegInstr)

/-- The operands that are no registers. -/
def passed : List RegOperand := mi.uses.filter fun op => !op.isReg

/-- The operands that `rewriteToSForm` copies: `NumGlobals` uses from the first one on, and the last
`NumImms` operands. -/
def sFormOperands : List RegOperand :=
  mi.uses.take (mi.uses.countP RegOperand.isSymbol) ++
    mi.uses.drop (mi.uses.length - mi.uses.countP RegOperand.isImm)

end RegInstr

/-- A terminator is prepared as other instructions are. -/
theorem RegOpcode.prepared_of_isTerminator {op : RegOpcode} (h : op.isTerminator) :
    op.isSkipped = false ∧ op ≠ .IMPLICIT_DEF ∧ op ≠ .HIDDENSTACK := by
  cases op <;> simp_all [isSkipped, isTerminator]

/-- The number of operands of the instructions that `optimizeReversible` looks at. -/
def RegOpcode.reversibleUses : RegOpcode → ℕ
  | .STI | .STU | .STIX | .STUX => 3
  | _ => 2

/-- What the descriptions of the instructions promise: symbols come first and immediate values last,
the reversible instructions have the operands that they are looked at for, debug instructions and
labels define nothing, no terminator is commutable, and every instruction has a stack form but for
the ones that the stack model treats on their own. -/
structure RegInstr.Described (mi : RegInstr) : Prop where
  ordered : mi.uses = mi.uses.filter RegOperand.isSymbol ++
    (mi.uses.filter RegOperand.isReg ++ mi.uses.filter RegOperand.isImm)
  reversible : mi.opcode.reversed.isSome → mi.uses.length = mi.opcode.reversibleUses
  skipped : mi.opcode.isSkipped → mi.defs = []
  terminator : mi.opcode.isTerminator → mi.opcode.isCommutable = false
  hasSForm : mi.opcode.hasSForm ∨ mi.opcode.isSkipped ∨ mi.opcode = .IMPLICIT_DEF ∨
    mi.opcode = .HIDDENSTACK

/-! ## Register form -/

section Meaning

variable (Label Data State : Type)

/-- What the instructions compute from their operands, the ones that are no registers first, and
from the remaining state of the machine: their results, unless they throw. Commutable instructions
do not depend on the order of their operands, and a reversed one takes the first two of them in the
other order. -/
structure Meaning where
  exec : RegOpcode → List RegOperand → State → List (Value Label Data) → (n : ℕ) →
    Option (State × Vector (Value Label Data) n)
  commutable : ∀ op ops st x y n, op.isCommutable → exec op ops st [x, y] n = exec op ops st [y, x] n
  reversed : ∀ op rop ops st x y xs n, op.reversed = some rop →
    exec rop ops st (y :: x :: xs) n = exec op ops st (x :: y :: xs) n

/-- The values of the registers, none for an undefined one, and the remaining state of the
machine. -/
structure RegState where
  regs : StackVreg → Option (Value Label Data)
  state : State

variable {Label Data State}

/-- The register holds the value, or is undefined, and then the value may be any. The marker names
no register. -/
def SlotValue (regs : StackVreg → Option (Value Label Data)) (v : StackVreg)
    (x : Value Label Data) : Prop :=
  v ≠ unusedReg → ∀ y, regs v = some y → x = y

/-- What the operand may stand for. -/
def OperandValue (regs : StackVreg → Option (Value Label Data)) :
    RegOperand → Value Label Data → Prop
  | .reg r isUndef _, x => isUndef = false → SlotValue regs r x
  | _, _ => False

/-- The values of the registers among the operands. -/
def Reads (regs : StackVreg → Option (Value Label Data)) (uses : List RegOperand)
    (xs : List (Value Label Data)) : Prop :=
  List.Forall₂ (OperandValue regs) (uses.filter RegOperand.isReg) xs

def writeResults (regs : StackVreg → Option (Value Label Data)) :
    List StackVreg → List (Value Label Data) → StackVreg → Option (Value Label Data)
  | r :: rs, x :: xs => writeResults (Function.update regs r (some x)) rs xs
  | _, _ => regs

/-- What `IMPLICIT_DEF` leaves of the registers. -/
def undefine (regs : StackVreg → Option (Value Label Data)) (defs : List StackVreg)
    (v : StackVreg) : Option (Value Label Data) :=
  if v ∈ defs then none else regs v

variable (meaning : Meaning Label Data State) (hidden : List (Value Label Data))

/-- One instruction in register form that is no terminator, where `hidden` is below the stack of the
function. It ends in a state or throws. -/
inductive RegStep : RegInstr → RegState Label Data State → Option (RegState Label Data State) → Prop
  | skipped {mi : RegInstr} (s : RegState Label Data State) (hop : mi.opcode.isSkipped) :
      RegStep mi s (some s)
  | implicitDef {mi : RegInstr} (s : RegState Label Data State) (hop : mi.opcode = .IMPLICIT_DEF) :
      RegStep mi s (some ⟨undefine s.regs mi.defRegs, s.state⟩)
  | hiddenStack {mi : RegInstr} {r : StackVreg} {isUndef isDead : Bool} {element : ℤ}
      (s : RegState Label Data State) (hop : mi.opcode = .HIDDENSTACK)
      (hdefs : mi.defs = [.reg r isUndef isDead]) (huses : mi.uses = [.imm element]) :
      RegStep mi s
        (hidden[element.toNat]?.map fun x => ⟨Function.update s.regs r (some x), s.state⟩)
  | exec {mi : RegInstr} {xs : List (Value Label Data)} (s : RegState Label Data State)
      (hop : mi.opcode.hasSForm) (hterm : mi.opcode.isTerminator = false)
      (hreads : Reads s.regs mi.uses xs) :
      RegStep mi s ((meaning.exec mi.opcode mi.passed s.state xs mi.defs.length).map fun p =>
        ⟨writeResults s.regs mi.defRegs p.2.toList, p.1⟩)

/-- A sequence of instructions in register form. -/
inductive RegRun :
    List RegInstr → RegState Label Data State → Option (RegState Label Data State) → Prop
  | nil (s : RegState Label Data State) : RegRun [] s (some s)
  | throws {mi : RegInstr} {instrs : List RegInstr} {s : RegState Label Data State}
      (hstep : RegStep meaning hidden mi s none) : RegRun (mi :: instrs) s none
  | cons {mi : RegInstr} {instrs : List RegInstr} {s s' : RegState Label Data State}
      {out : Option (RegState Label Data State)} (hstep : RegStep meaning hidden mi s (some s'))
      (hrun : RegRun instrs s' out) : RegRun (mi :: instrs) s out

/-! ## Stack form -/

/-- An instruction that the stack model emits: one of a fixup, or the stack form of an instruction
with the numbers of its operands and results. -/
inductive SInstr (Label : Type) where
  | fixup (i : StackInstr Label)
  | sForm (opcode : RegOpcode) (operands : List RegOperand) (numUses numDefs : ℕ)

/-- The effect on the state and the stack. The last operand is on top, and so is the last result. -/
def SInstr.exec : SInstr Label → State × List (Value Label Data) →
    Option (State × List (Value Label Data))
  | fixup i, (st, s) => (i.exec (fun _ _ => none) s).map (st, ·)
  | sForm op ops numUses numDefs, (st, s) => do
    guard (numUses ≤ s.length)
    let (st, results) ← meaning.exec op ops st (s.take numUses).reverse numDefs
    return (st, results.toList.reverse ++ s.drop numUses)

def runAll (code : List (SInstr Label)) (s : State × List (Value Label Data)) :
    Option (State × List (Value Label Data)) :=
  code.foldlM (fun s i => i.exec meaning s) s

theorem runAll_append (code code' : List (SInstr Label)) (s : State × List (Value Label Data)) :
    runAll meaning (code ++ code') s = (runAll meaning code s).bind (runAll meaning code') :=
  List.foldlM_append

theorem runAll_singleton (i : SInstr Label) (s : State × List (Value Label Data)) :
    runAll meaning [i] s = i.exec meaning s := Option.bind_fun_some _

/-- With its operands on top an instruction in stack form computes its results from them. -/
theorem exec_sForm {op : RegOpcode} {ops : List RegOperand} {numUses numDefs : ℕ} {st : State}
    {xs : List (Value Label Data)} (hlen : xs.length = numUses) (rest : List (Value Label Data)) :
    (SInstr.sForm op ops numUses numDefs).exec meaning (st, xs.reverse ++ rest) =
      (meaning.exec op ops st xs numDefs).map fun p => (p.1, p.2.toList.reverse ++ rest) := by
  have hle : numUses ≤ (xs.reverse ++ rest).length := by
    rw [List.length_append, List.length_reverse, hlen]
    exact Nat.le_add_right _ _
  have hlen' : xs.reverse.length = numUses := by rw [List.length_reverse, hlen]
  rw [SInstr.exec, guard_pos hle, List.take_left' hlen', List.drop_left' hlen', List.reverse_reverse]
  cases meaning.exec op ops st xs numDefs <;> rfl

/-- The instructions that rearrange the stack leave the state alone. -/
theorem runAll_map_fixup (is : List (StackInstr Label)) (st : State)
    (s : List (Value Label Data)) :
    runAll meaning (is.map .fixup) (st, s) = (execAll (fun _ _ => none) is s).map (st, ·) := by
  induction is generalizing s with
  | nil => rfl
  | cons i is ih =>
    show ((i.exec _ s).map (st, ·)).bind (runAll meaning (is.map .fixup)) = _
    rw [execAll_cons]
    cases i.exec _ s with
    | none => rfl
    | some t => exact ih t

/-- **The code of a fixup rearranges the stack of the machine**, with the number zero for an
undefined value. -/
theorem runAll_fixup {changes : List Change} {code : List (List (StackInstr Label))}
    (hvisible : ∀ c ∈ changes, c.Visible) (hcode : changes.mapM Change.instruction = some code)
    (st : State) (s : List (Value Label Data)) :
    runAll meaning (code.flatten.map .fixup) (st, s) =
      (applyAll (.int 0) changes s).map (st, ·) := by
  rw [runAll_map_fixup]
  congr 1
  induction changes generalizing code s with
  | nil =>
    cases hcode
    rfl
  | cons c changes ih =>
    rw [List.mapM_cons] at hcode
    obtain ⟨is, his, hcode⟩ := Option.bind_eq_some_iff.mp hcode
    obtain ⟨rest, hrest, heq⟩ := Option.bind_eq_some_iff.mp hcode
    cases heq
    rw [List.flatten_cons, execAll_append, applyAll_cons,
      execAll_instruction _ (hvisible c List.mem_cons_self) his]
    congr 1
    funext t
    exact ih (fun c hc => hvisible c (List.mem_cons_of_mem _ hc)) hrest t

end Meaning

/-! ## Functions -/

section Functions

variable {Block Data State : Type}

/-- How a run of a function ends: with an exception, or with a stack for the caller. -/
inductive Outcome (Block Data State : Type) where
  | threw
  | returned (state : State) (stack : List (Value Block Data))

variable (meaning : Meaning Block Data State)
  (jump : RegOpcode → List RegOperand → State → List (Value Block Data) → Option (State × Block))
  (hidden : List (Value Block Data))

/-- A terminator in register form: it returns its operands, the last one on top, it jumps to a block,
or it throws. -/
inductive RegLeaves : RegInstr → RegState Block Data State →
    (Block × RegState Block Data State) ⊕ Outcome Block Data State → Prop
  | ret {mi : RegInstr} {xs : List (Value Block Data)} (s : RegState Block Data State)
      (hop : mi.opcode.isReturn) (hreads : Reads s.regs mi.uses xs) :
      RegLeaves mi s (.inr (.returned s.state (xs.reverse ++ hidden)))
  | jump {mi : RegInstr} {xs : List (Value Block Data)} {st : State} {b : Block}
      (s : RegState Block Data State) (hop : mi.opcode.isTerminator) (hret : ¬mi.opcode.isReturn)
      (hreads : Reads s.regs mi.uses xs) (hjump : jump mi.opcode mi.passed s.state xs = some (st, b)) :
      RegLeaves mi s (.inl (b, ⟨s.regs, st⟩))
  | throws {mi : RegInstr} {xs : List (Value Block Data)} (s : RegState Block Data State)
      (hop : mi.opcode.isTerminator) (hret : ¬mi.opcode.isReturn) (hreads : Reads s.regs mi.uses xs)
      (hjump : jump mi.opcode mi.passed s.state xs = none) : RegLeaves mi s (.inr .threw)

/-- A block in register form, up to its first terminator. -/
inductive RegFunction.RegBlock (fn : RegFunction Block) : Block × RegState Block Data State →
    (Block × RegState Block Data State) ⊕ Outcome Block Data State → Prop
  | throws {b : Block} {init rest : List RegInstr} {s : RegState Block Data State}
      (hb : fn.instrs b = init ++ rest) (hrun : RegRun meaning hidden init s none) :
      RegBlock fn (b, s) (.inr .threw)
  | leaves {b : Block} {init rest : List RegInstr} {term : RegInstr}
      {s s' : RegState Block Data State}
      {out : (Block × RegState Block Data State) ⊕ Outcome Block Data State}
      (hb : fn.instrs b = init ++ term :: rest) (hrun : RegRun meaning hidden init s (some s'))
      (hleaves : RegLeaves jump hidden term s' out) : RegBlock fn (b, s) out

def SInstr.isTerminator : SInstr Block → Bool
  | fixup _ => false
  | sForm op _ _ _ => op.isTerminator

/-- A terminator in stack form. A return leaves the stack to the caller as it is. -/
def SInstr.leave : SInstr Block → State × List (Value Block Data) →
    (Block × State × List (Value Block Data)) ⊕ Outcome Block Data State
  | fixup _, _ => .inr .threw
  | sForm op ops numUses _, (st, s) =>
    if op.isReturn then .inr (.returned st s)
    else ((guard (numUses ≤ s.length) : Option Unit).bind fun _ =>
      jump op ops st (s.take numUses).reverse).elim (.inr .threw) fun p =>
        .inl (p.2, p.1, s.drop numUses)

/-- The code of a block up to its first terminator. At its end it returns. -/
def runBlock : List (SInstr Block) → State × List (Value Block Data) →
    (Block × State × List (Value Block Data)) ⊕ Outcome Block Data State
  | [], (st, s) => .inr (.returned st s)
  | i :: code, s =>
    if i.isTerminator then i.leave jump s
    else (i.exec meaning s).elim (.inr .threw) fun t => runBlock code t

/-- A step of the machine, which runs the code of a block. -/
def machineStep [DecidableEq Block] (program : List (Block × List (SInstr Block)))
    (c : Block × State × List (Value Block Data)) :
    (Block × State × List (Value Block Data)) ⊕ Outcome Block Data State :=
  (program.lookup c.1).elim (.inr .threw) fun code => runBlock meaning jump code c.2

variable {meaning jump}

/-- The code in front of a terminator runs first. -/
theorem runBlock_append {code : List (SInstr Block)} (hcode : ∀ i ∈ code, i.isTerminator = false)
    (rest : List (SInstr Block)) (s : State × List (Value Block Data)) :
    runBlock meaning jump (code ++ rest) s =
      (runAll meaning code s).elim (.inr .threw) fun t => runBlock meaning jump rest t := by
  induction code generalizing s with
  | nil => rfl
  | cons i code ih =>
    rw [List.cons_append, runBlock, hcode i List.mem_cons_self, if_neg Bool.false_ne_true]
    show _ = Option.elim ((i.exec meaning s).bind (runAll meaning code)) _ _
    cases i.exec meaning s with
    | none => rfl
    | some t => exact ih (fun i hi => hcode i (List.mem_cons_of_mem _ hi)) t

end Functions

/-! ## The emitted code -/

/-- The nodes of instructions that others follow in their block. -/
def innerNodes : ℕ → List RegInstr → List Node
  | _, [] => []
  | n, mi :: rest => ⟨n, mi, false⟩ :: innerNodes (n + 1) rest

theorem nodesFrom_append (n : ℕ) (instrs : List RegInstr) {rest : List RegInstr} (hrest : rest ≠ []) :
    nodesFrom n (instrs ++ rest) = innerNodes n instrs ++ nodesFrom (n + instrs.length) rest := by
  induction instrs generalizing n with
  | nil => rfl
  | cons mi instrs ih =>
    have hne : (instrs ++ rest).isEmpty = false := by simp [hrest]
    rw [List.cons_append, nodesFrom, hne, ih, innerNodes, List.cons_append, List.length_cons,
      Nat.add_assoc, Nat.add_comm 1]

section Code

variable {Block Label : Type}

/-- What is emitted for an instruction, undefined where no instruction is generated for a change.
The instructions without a stack form are taken away. -/
def Processed.code (p : Processed Block) : Option (List (SInstr Label)) := do
  let fix ← p.fixup.mapM Change.instruction
  return fix.flatten.map .fixup ++
    if p.instr.opcode.hasSForm then
      [.sForm p.instr.opcode p.instr.sFormOperands p.instr.useRegs.length p.instr.defs.length]
    else []

namespace RegFunction

variable [DecidableEq Block] (fn : RegFunction Block) (fixups : Fixups) (b : Block)

/-- The state behind an instruction, and the code that takes its place. -/
def translateNode (st : ModelState Block) (node : Node) :
    Option (ModelState Block × List (SInstr Label)) :=
  if node.instr.opcode.isSkipped then some (st, [])
  else do
    let p ← fn.processInstruction fixups b node st
    let code ← p.code
    return (p.state, code)

/-- The same for a sequence of instructions. -/
def translate : List Node → ModelState Block → Option (ModelState Block × List (SInstr Label))
  | [], st => some (st, [])
  | node :: nodes, st => do
    let (st, code) ← fn.translateNode fixups b st node
    let (st, rest) ← translate nodes st
    return (st, code ++ rest)

/-- The code of a block. -/
def translateBlock (infos : BlockInfos Block) : Option (BlockInfos Block × List (SInstr Label)) := do
  let stack ← infos.fixedBegin b
  let (st, code) ← fn.translate fixups b (fn.nodes b) ⟨infos, stack⟩
  return (st.infos, code)

/-- The code of the blocks, in the order in which they are visited. -/
def translateBlocks : List Block → BlockInfos Block →
    Option (BlockInfos Block × List (Block × List (SInstr Label)))
  | [], infos => some (infos, [])
  | b :: blocks, infos => do
    let (infos, code) ← fn.translateBlock fixups b infos
    let (infos, rest) ← translateBlocks blocks infos
    return (infos, (b, code) :: rest)

variable {fn fixups b}

theorem processNode_of_translateNode {st st' : ModelState Block} {node : Node}
    {code : List (SInstr Label)} (h : fn.translateNode fixups b st node = some (st', code)) :
    fn.processNode fixups b st node = some st' := by
  unfold translateNode at h
  unfold processNode
  split_ifs at h ⊢
  · cases h
    rfl
  · obtain ⟨p, hp, h⟩ := Option.bind_eq_some_iff.mp h
    obtain ⟨_, -, heq⟩ := Option.bind_eq_some_iff.mp h
    cases heq
    rw [hp]
    rfl

/-- What is emitted for an instruction that is not skipped. -/
theorem translateNode_eq_some {st st' : ModelState Block} {node : Node}
    {code : List (SInstr Label)} (hskipped : ¬node.instr.opcode.isSkipped)
    (h : fn.translateNode fixups b st node = some (st', code)) :
    ∃ mi infos fix r t is, optimizeReversible node.instr st.stack = some mi ∧
      fn.prepareStackFor fixups b node mi st = some (infos, fix) ∧
      applyAll unusedReg fix st.stack = some r ∧ modelInstructionExecution mi r = some t ∧
      fix.mapM Change.instruction = some is ∧ st' = ⟨infos, rewriteToSForm mi t⟩ ∧
      code = is.flatten.map .fixup ++ if mi.opcode.hasSForm then
        [.sForm mi.opcode mi.sFormOperands mi.useRegs.length mi.defs.length] else [] := by
  rw [translateNode, if_neg hskipped] at h
  obtain ⟨p, hp, h⟩ := Option.bind_eq_some_iff.mp h
  obtain ⟨code', hcode, heq⟩ := Option.bind_eq_some_iff.mp h
  cases heq
  obtain ⟨is, his, heq⟩ := Option.bind_eq_some_iff.mp hcode
  cases heq
  simp only [processInstruction, Option.bind_eq_bind, Option.bind_eq_some_iff] at hp
  obtain ⟨mi, hmi, ⟨infos, fix⟩, hprepare, r, hr, t, ht, heq⟩ := hp
  cases heq
  exact ⟨mi, infos, fix, r, t, is, hmi, hprepare, hr, ht, his, rfl, rfl⟩

theorem translate_cons_eq_some {st st' : ModelState Block} {node : Node} {nodes : List Node}
    {code : List (SInstr Label)} (h : fn.translate fixups b (node :: nodes) st = some (st', code)) :
    ∃ s first rest, fn.translateNode fixups b st node = some (s, first) ∧
      fn.translate fixups b nodes s = some (st', rest) ∧ code = first ++ rest := by
  obtain ⟨⟨s, first⟩, hfirst, h⟩ := Option.bind_eq_some_iff.mp h
  obtain ⟨⟨t, rest⟩, hrest, heq⟩ := Option.bind_eq_some_iff.mp h
  cases heq
  exact ⟨s, first, rest, hfirst, hrest, rfl⟩

/-- The code belongs to a run of the stack model. -/
theorem foldlM_of_translate {st st' : ModelState Block} {nodes : List Node}
    {code : List (SInstr Label)} (h : fn.translate fixups b nodes st = some (st', code)) :
    nodes.foldlM (fn.processNode fixups b) st = some st' := by
  induction nodes generalizing st code with
  | nil =>
    cases h
    rfl
  | cons node nodes ih =>
    obtain ⟨s, first, rest, hfirst, hrest, -⟩ := translate_cons_eq_some h
    rw [List.foldlM_cons, processNode_of_translateNode hfirst]
    exact ih hrest

theorem translate_append_eq_some {st st' : ModelState Block} {nodes nodes' : List Node}
    {code : List (SInstr Label)} (h : fn.translate fixups b (nodes ++ nodes') st = some (st', code)) :
    ∃ s first rest, fn.translate fixups b nodes st = some (s, first) ∧
      fn.translate fixups b nodes' s = some (st', rest) ∧ code = first ++ rest := by
  induction nodes generalizing st code with
  | nil => exact ⟨st, [], code, rfl, h, rfl⟩
  | cons node nodes ih =>
    obtain ⟨s, first, later, hfirst, hlater, rfl⟩ := translate_cons_eq_some h
    obtain ⟨t, mid, rest, hmid, hrest, rfl⟩ := ih hlater
    refine ⟨t, first ++ mid, rest, ?_, hrest, (List.append_assoc _ _ _).symm⟩
    rw [translate, hfirst, Option.bind_eq_bind, Option.bind_some]
    show (fn.translate fixups b nodes s).bind _ = _
    rw [hmid]
    rfl

theorem translate_append {st s s' : ModelState Block} {nodes nodes' : List Node}
    {first rest : List (SInstr Label)} (h : fn.translate fixups b nodes st = some (s, first))
    (h' : fn.translate fixups b nodes' s = some (s', rest)) :
    fn.translate fixups b (nodes ++ nodes') st = some (s', first ++ rest) := by
  induction nodes generalizing st first with
  | nil =>
    cases h
    exact h'
  | cons node nodes ih =>
    obtain ⟨t, start, later, hstart, hlater, rfl⟩ := translate_cons_eq_some h
    rw [List.cons_append, translate, hstart]
    show (fn.translate fixups b (nodes ++ nodes') t).bind _ = _
    rw [ih hlater, List.append_assoc]
    rfl

theorem translateBlock_eq_some {infos infos' : BlockInfos Block} {code : List (SInstr Label)}
    (h : fn.translateBlock fixups b infos = some (infos', code)) :
    ∃ stack st, infos.fixedBegin b = some stack ∧
      fn.translate fixups b (fn.nodes b) ⟨infos, stack⟩ = some (st, code) ∧ st.infos = infos' ∧
      fn.runOnBasicBlock fixups infos b = some infos' := by
  obtain ⟨stack, hstack, h⟩ := Option.bind_eq_some_iff.mp h
  obtain ⟨⟨st, code'⟩, hst, heq⟩ := Option.bind_eq_some_iff.mp h
  cases heq
  refine ⟨stack, st, hstack, hst, rfl, ?_⟩
  rw [runOnBasicBlock, hstack, Option.bind_eq_bind, Option.bind_some, foldlM_of_translate hst]
  rfl

theorem translateBlocks_cons_eq_some {c : Block} {blocks : List Block}
    {infos infos' : BlockInfos Block} {program : List (Block × List (SInstr Label))}
    (h : fn.translateBlocks fixups (c :: blocks) infos = some (infos', program)) :
    ∃ mid code rest, fn.translateBlock fixups c infos = some (mid, code) ∧
      fn.translateBlocks fixups blocks mid = some (infos', rest) ∧ program = (c, code) :: rest := by
  obtain ⟨⟨mid, code⟩, hfirst, h⟩ := Option.bind_eq_some_iff.mp h
  obtain ⟨⟨last, rest⟩, hrest, heq⟩ := Option.bind_eq_some_iff.mp h
  cases heq
  exact ⟨mid, code, rest, hfirst, hrest, rfl⟩

theorem foldlM_of_translateBlocks {blocks : List Block} {infos infos' : BlockInfos Block}
    {program : List (Block × List (SInstr Label))}
    (h : fn.translateBlocks fixups blocks infos = some (infos', program)) :
    blocks.foldlM (fn.runOnBasicBlock fixups) infos = some infos' := by
  induction blocks generalizing infos program with
  | nil =>
    cases h
    rfl
  | cons c blocks ih =>
    obtain ⟨mid, code, rest, hfirst, hrest, -⟩ := translateBlocks_cons_eq_some h
    obtain ⟨-, -, -, -, -, hrun⟩ := translateBlock_eq_some hfirst
    rw [List.foldlM_cons, hrun]
    exact ih hrest

theorem map_fst_of_translateBlocks {blocks : List Block} {infos infos' : BlockInfos Block}
    {program : List (Block × List (SInstr Label))}
    (h : fn.translateBlocks fixups blocks infos = some (infos', program)) :
    program.map Prod.fst = blocks := by
  induction blocks generalizing infos program with
  | nil =>
    cases h
    rfl
  | cons c blocks ih =>
    obtain ⟨mid, code, rest, -, hrest, rfl⟩ := translateBlocks_cons_eq_some h
    exact congrArg (c :: ·) (ih hrest)

/-- The code of a block belongs to its turn in a run of the stack model over all blocks. -/
theorem exists_translate_of_translateBlocks {pre post : List Block}
    (hnodup : (pre ++ b :: post).Nodup) {infos infos' : BlockInfos Block}
    {program : List (Block × List (SInstr Label))}
    (h : fn.translateBlocks fixups (pre ++ b :: post) infos = some (infos', program)) :
    ∃ infos₁ stack st code, pre.foldlM (fn.runOnBasicBlock fixups) infos = some infos₁ ∧
      infos₁.fixedBegin b = some stack ∧
      fn.translate fixups b (fn.nodes b) ⟨infos₁, stack⟩ = some (st, code) ∧
      post.foldlM (fn.runOnBasicBlock fixups) st.infos = some infos' ∧
      program.lookup b = some code := by
  induction pre generalizing infos program with
  | nil =>
    obtain ⟨mid, code, rest, hfirst, hrest, rfl⟩ := translateBlocks_cons_eq_some h
    obtain ⟨stack, st, hstack, hst, rfl, -⟩ := translateBlock_eq_some hfirst
    exact ⟨infos, stack, st, code, rfl, hstack, hst, foldlM_of_translateBlocks hrest,
      List.lookup_cons_self⟩
  | cons c pre ih =>
    obtain ⟨mid, code, rest, hfirst, hrest, rfl⟩ := translateBlocks_cons_eq_some h
    obtain ⟨-, -, -, -, -, hrun⟩ := translateBlock_eq_some hfirst
    obtain ⟨hc, hnodup⟩ := List.nodup_cons.mp hnodup
    obtain ⟨infos₁, stack, st, code', hpre, hstack, hst, hpost, hlookup⟩ := ih hnodup hrest
    refine ⟨infos₁, stack, st, code', ?_, hstack, hst, hpost, ?_⟩
    · rw [List.foldlM_cons, hrun]
      exact hpre
    · -- the block comes once
      have hne : (b == c) = false := by
        rw [beq_eq_false_iff_ne]
        rintro rfl
        exact hc (List.mem_append_right _ List.mem_cons_self)
      rw [List.lookup_cons, hne]
      exact hlookup

end RegFunction

end Code

end TVMCompiler
