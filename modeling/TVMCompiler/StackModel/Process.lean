import TVMCompiler.Stack.Returns
import TVMCompiler.Stack.RepeatedArgs
import TVMCompiler.StackModel.Instruction
import TVMCompiler.StackModel.Roads

/-!
# The stack model

`TVMStackModel` walks over the blocks of a function. For each instruction it rearranges the stack
so that the operands are on top, and models what the instruction leaves on the stack. The layout at
the end of a block is the pattern of its road, which the first block that enters the road fixes.

## Main definitions

* `RegFunction`: a function in register form, with its liveness and its roads
* `Fixups`, `stackFixups`: the fixups the stack model asks for
* `optimizeReversible`, `RegFunction.prepareStackFor`, `modelInstructionExecution`, `rewriteToSForm`,
  `RegFunction.processInstruction`: the steps for one instruction
* `RegFunction.runOnBasicBlock`, `RegFunction.runOnBasicBlocks`: the run
* `Prepared`: the ways in which an instruction is prepared

## Main results

* `processInstruction_eq_some`, `prepared_of_eq_some`: what one instruction does
-/

namespace TVMCompiler

/-- `TargetRegisterInfo::index2VirtReg`. -/
def index2VirtReg (i : ℕ) : StackVreg := ⟨(i + 2 ^ 31) % 0x100000000, Nat.mod_lt _ (by decide)⟩

theorem val_index2VirtReg (i : ℕ) : (index2VirtReg i).val = (i + 2 ^ 31) % 0x100000000 := rfl

/-- The virtual registers in ascending order. -/
def virtRegs (n : ℕ) : List StackVreg := (List.range n).map index2VirtReg

theorem ne_unusedReg_of_mem_virtRegs {n : ℕ} (hn : n < 2 ^ 31) {v : StackVreg}
    (hv : v ∈ virtRegs n) : v ≠ unusedReg := by
  obtain ⟨i, hi, rfl⟩ := List.mem_map.mp hv
  rw [List.mem_range] at hi
  intro h
  have hval := congrArg Fin.val h
  rw [val_index2VirtReg] at hval
  simp only [unusedReg] at hval
  omega

/-- A function in register form, with what the stack model asks about it: its roads, which registers
are live into and out of a block, and which have a value right after an instruction of a block. -/
structure RegFunction (Block : Type) where
  cfg : Cfg Block
  layout : List Block
  instrs : Block → List RegInstr
  road : Block × Side → ℕ
  numVirtRegs : ℕ
  liveIn : Block → StackVreg → Bool
  liveOut : Block → StackVreg → Bool
  vnInfoAt : Block → ℕ → StackVreg → Bool
  layout_nodup : layout.Nodup
  numVirtRegs_lt : numVirtRegs < 2 ^ 31
  virtReg_of_live : ∀ b v, liveIn b v ∨ liveOut b v → v ∈ virtRegs numVirtRegs

/-- The layouts in `BBInfo`. -/
structure BlockInfos (Block : Type) where
  fixedBegin : Block → Option Stack
  fixedEnd : Block → Option Stack

/-- An instruction of a block, with its index and whether it is the last node. -/
structure Node where
  index : ℕ
  instr : RegInstr
  isLast : Bool

def nodesFrom : ℕ → List RegInstr → List Node
  | _, [] => []
  | n, mi :: rest => ⟨n, mi, rest.isEmpty⟩ :: nodesFrom (n + 1) rest

/-- The fixups that the stack model asks for. -/
structure Fixups where
  diff : Stack → Stack → Option (List Change)
  diffForArgs : Stack → List MIArg → Bool → Option (List Change)
  diffForReturn : Stack → Option StackVreg → Option (List Change)
  diffForReturnMulti : Stack → List StackVreg → Option (List Change)

/-- The fixups of `StackFixup`. -/
def stackFixups : Fixups where
  diff := Diff
  diffForArgs := DiffForArgs
  diffForReturn := DiffForReturn
  diffForReturnMulti := DiffForReturnMulti

/-! ## Reversible instructions -/

namespace RegInstr

def operandReg (mi : RegInstr) (i : ℕ) : Option StackVreg :=
  (mi.defs ++ mi.uses)[i]?.bind RegOperand.getReg

/-- The slot above the two operands that `optimizeReversible` looks at. -/
def reversibleSlot (mi : RegInstr) : ℕ :=
  match mi.opcode with
  | .STIX | .STUX => 1
  | _ => 0

/-- The operands behind the two that change places. -/
def reversibleTail (mi : RegInstr) : Option (List RegOperand) :=
  match mi.opcode with
  | .STI | .STU =>
    match (mi.defs ++ mi.uses)[3]? with
    | some (RegOperand.imm value) => some [.imm value]
    | _ => none
  | .STIX | .STUX => do
    let reg ← mi.operandReg 3
    return [.reg reg false false]
  | _ => some []

/-- `BuildMI` for the reversed instruction. The flags of the operands are not taken over. -/
def reverse (mi : RegInstr) {opcode : RegOpcode} (h : mi.opcode.reversed = some opcode)
    (result left right : StackVreg) (tail : List RegOperand) : RegInstr where
  opcode := opcode
  defs := [.reg result false false]
  uses := .reg right false false :: .reg left false false :: tail
  defs_reg := by simp [RegOperand.isReg]
  terminator_defs := by simp [RegOpcode.isTerminator_reversed h]
  commutable_uses := by simp [RegOpcode.isCommutable_reversed h]
  reversible_defs := by simp

end RegInstr

/-- More operands stand in their slots when they change places. -/
def reverseScores (slot left right : ℕ) : Bool :=
  let origScore := (if left = slot + 1 then 1 else 0) + if right = slot then 1 else 0
  let rScore := (if left = slot then 1 else 0) + if right = slot + 1 then 1 else 0
  decide (rScore > origScore)

/-- `optimizeReversible`, the given instruction where the source returns none. -/
def optimizeReversible (mi : RegInstr) (stack : Stack) : Option RegInstr :=
  match h : mi.opcode.reversed with
  | none => some mi
  | some _ => do
    let result ← mi.operandReg 0
    let left ← mi.operandReg 1
    let right ← mi.operandReg 2
    let leftPos ← position stack left
    let rightPos ← position stack right
    if reverseScores mi.reversibleSlot leftPos rightPos then
      mi.reversibleTail.map (mi.reverse h result left right)
    else some mi

/-! ## The layout of a road -/

/-- `Stack::addDef`. -/
def addDef (stack : Stack) (reg : StackVreg) : Stack := reg :: stack

/-- `Stack::consumeArguments`. -/
def consumeArguments (stack : Stack) (numSlots : ℕ) : Option Stack := dropTop stack numSlots

theorem foldl_addDef (stack : Stack) (regs : List StackVreg) :
    regs.foldl addDef stack = regs.reverse ++ stack := by
  induction regs generalizing stack with
  | nil => rfl
  | cons reg regs ih => simp [ih, addDef]

theorem consumeArguments_eq_some {stack rest : Stack} {n : ℕ} :
    consumeArguments stack n = some rest ↔ n ≤ stack.length ∧ stack.drop n = rest :=
  guard_bind_eq_some.trans (and_congr_right fun _ => Option.some_inj)

theorem consumeArguments_append {top rest : Stack} {n : ℕ} (h : top.length = n) :
    consumeArguments (top ++ rest) n = some rest := by
  simp [consumeArguments, dropTop, ← h]

/-- The number of slots that the terminators take besides the layout, `RegsToConsume`. -/
def RegOpcode.regsToConsume : RegOpcode → ℕ
  | .JMPX => 1
  | .IFJMP | .IFNOTJMP => 2
  | .IFELSE => 3
  | _ => 0

namespace RegFunction

variable {Block : Type} (fn : RegFunction Block)

def nodes (b : Block) : List Node := nodesFrom 0 (fn.instrs b)

/-- `Stack::filteredByLiveIns`. -/
def filteredByLiveIns (stack : Stack) (b : Block) : Stack :=
  stack.map fun v => if fn.liveIn b v then v else unusedReg

/-- The registers with a property, as `std::set` lists them. -/
def gatherRegs (p : StackVreg → Bool) : List StackVreg := (virtRegs fn.numVirtRegs).filter p

variable [DecidableEq Block]

/-- The sink of a road that has one only, which no block follows. -/
def loneSink (roadIdx : ℕ) : Option Block :=
  match fn.layout.filter fun b => fn.road (b, .roadBegin) = roadIdx with
  | [b] => if fn.cfg.succs b = [] then some b else none
  | _ => none

/-- The register is live at a side of a block that is on the road. -/
def liveOnRoad (roadIdx : ℕ) (v : StackVreg) : Bool :=
  fn.layout.any fun b =>
    decide (fn.road (b, .roadBegin) = roadIdx) && fn.liveIn b v ||
      decide (fn.road (b, .roadEnd) = roadIdx) && fn.liveOut b v

/-- `RoadPattern`: the remaining registers come on top of the given stack. -/
def roadPattern (roadIdx : ℕ) (outStack : Stack) : Stack :=
  match fn.loneSink roadIdx with
  | some b => (fn.gatherRegs fun v => fn.liveIn b v || fn.liveOut b v).foldl addDef []
  | none =>
    (fn.gatherRegs fun v => fn.liveOnRoad roadIdx v && decide (v ∉ outStack)).foldl addDef outStack

/-- `computeRoadPattern`. -/
def computeRoadPattern (roadIdx : ℕ) (outStack : Stack) (infos : BlockInfos Block) :
    BlockInfos Block where
  fixedBegin b :=
    if b ∈ fn.layout ∧ fn.road (b, .roadBegin) = roadIdx then
      some (fn.filteredByLiveIns (fn.roadPattern roadIdx outStack) b)
    else infos.fixedBegin b
  fixedEnd b :=
    if b ∈ fn.layout ∧ fn.road (b, .roadEnd) = roadIdx then some (fn.roadPattern roadIdx outStack)
    else infos.fixedEnd b

/-! ## Preparing the stack -/

/-- `OutStack`, and the pattern of the road if the block is the first that enters it. -/
def enterRoad (b : Block) (mi : RegInstr) (stack : Stack) (infos : BlockInfos Block) :
    Option (BlockInfos Block) :=
  if (infos.fixedEnd b).isSome then some infos
  else do
    let outStack ← consumeArguments stack mi.opcode.regsToConsume
    return fn.computeRoadPattern (fn.road (b, .roadEnd)) outStack infos

end RegFunction

/-- `NeedStack`: the layout after the instruction under the operands. -/
def needStack (afterTermStack : Stack) (args : List MIArg) (stack : Stack) : Stack :=
  filterByImpDefs (withArgs afterTermStack args) stack

/-- The operand of a return. -/
def RegOperand.result : RegOperand → Option StackVreg
  | .reg r isUndef _ => some (if isUndef then unusedReg else r)
  | _ => none

/-- `DiffForHiddenStack`, for the operands of the instruction. -/
def diffForHiddenStack (mi : RegInstr) (stack : Stack) : Option (List Change) :=
  match mi.defs, mi.uses with
  | [.reg r _ _], [.imm element] => some [.pushHidden (stack.length + element.toNat) r]
  | _, _ => none

/-- The fixup for a return, by the number of its operands. -/
def Fixups.forReturn (fixups : Fixups) (mi : RegInstr) (stack : Stack) : Option (List Change) :=
  match mi.defs ++ mi.uses with
  | [] => fixups.diffForReturn stack none
  | [op] => op.result.bind fun reg => fixups.diffForReturn stack (some reg)
  | ops => (ops.mapM RegOperand.result).bind (fixups.diffForReturnMulti stack)

/-- The state of the run: the layouts and the current stack. -/
structure ModelState (Block : Type) where
  infos : BlockInfos Block
  stack : Stack

namespace RegFunction

variable {Block : Type} (fn : RegFunction Block) (fixups : Fixups) [DecidableEq Block]

/-- The terminator part of `prepareStackFor`. -/
def prepareLayout (b : Block) (mi : RegInstr) (args : List MIArg) (st : ModelState Block) :
    Option (BlockInfos Block × List Change) := do
  let infos ← fn.enterRoad b mi st.stack st.infos
  let afterTermStack ← infos.fixedEnd b
  let fix ← fixups.diff (needStack afterTermStack args st.stack) st.stack
  return (infos, fix)

/-- `prepareStackFor`, for the instruction `mi` at the place of `node`. -/
def prepareStackFor (b : Block) (node : Node) (mi : RegInstr) (st : ModelState Block) :
    Option (BlockInfos Block × List Change) :=
  let args := mi.args (fn.vnInfoAt b node.index)
  if mi.opcode = .IMPLICIT_DEF then some (st.infos, [])
  else if mi.opcode = .HIDDENSTACK then (diffForHiddenStack mi st.stack).map (st.infos, ·)
  else (filteredByMIdefs st.stack mi).bind fun stack =>
    if mi.opcode.isReturn then (fixups.forReturn mi stack).map (st.infos, ·)
    else if (mi.opcode.isTerminator ∨ node.isLast) ∧ fn.cfg.succs b ≠ [] then
      fn.prepareLayout fixups b mi args ⟨st.infos, stack⟩
    else (fixups.diffForArgs stack args mi.opcode.isCommutable).map (st.infos, ·)

end RegFunction

/-! ## Processing an instruction -/

/-- `modelInstructionExecution`. -/
def modelInstructionExecution (mi : RegInstr) (stack : Stack) : Option Stack :=
  if mi.opcode = .IMPLICIT_DEF then some stack
  else (consumeArguments stack mi.useRegs.length).map (mi.defRegs.foldl addDef)

/-- What `rewriteToSForm` does to the stack. -/
def rewriteToSForm (mi : RegInstr) (stack : Stack) : Stack :=
  if mi.opcode.hasSForm then filterByDeadDefs stack mi else stack

/-- The state after an instruction, and what is emitted: the changes and the instruction. -/
structure Processed (Block : Type) where
  state : ModelState Block
  fixup : List Change
  instr : RegInstr

namespace RegFunction

variable {Block : Type} (fn : RegFunction Block) (fixups : Fixups) [DecidableEq Block]

def processInstruction (b : Block) (node : Node) (st : ModelState Block) :
    Option (Processed Block) := do
  let mi ← optimizeReversible node.instr st.stack
  let (infos, fix) ← fn.prepareStackFor fixups b node mi st
  let stack ← applyAll unusedReg fix st.stack
  let stack ← modelInstructionExecution mi stack
  return ⟨⟨infos, rewriteToSForm mi stack⟩, fix, mi⟩

/-- The body of the inner loop of `runOnBasicBlocks`. -/
def processNode (b : Block) (st : ModelState Block) (node : Node) : Option (ModelState Block) :=
  if node.instr.opcode.isSkipped then some st
  else (fn.processInstruction fixups b node st).map Processed.state

/-- The body of the outer loop of `runOnBasicBlocks`. -/
def runOnBasicBlock (infos : BlockInfos Block) (b : Block) : Option (BlockInfos Block) := do
  let stack ← infos.fixedBegin b
  let st ← (fn.nodes b).foldlM (fn.processNode fixups b) ⟨infos, stack⟩
  return st.infos

/-- The layouts before the first block. -/
def startInfos (startStack : Stack) : BlockInfos Block where
  fixedBegin b := if b = fn.cfg.entry then some startStack else none
  fixedEnd _ := none

/-- `runOnBasicBlocks`, where `blocks` is the reverse post-order. -/
def runOnBasicBlocks (blocks : List Block) (startStack : Stack) : Option (BlockInfos Block) :=
  blocks.foldlM (fn.runOnBasicBlock fixups) (fn.startInfos startStack)

end RegFunction

/-! ## What one instruction does -/

section Step

variable {Block : Type} [DecidableEq Block] (fn : RegFunction Block) (fixups : Fixups) (b : Block)
  (node : Node) (mi : RegInstr) (st : ModelState Block)

/-- The ways in which an instruction is prepared. -/
inductive Prepared : BlockInfos Block → List Change → Prop where
  | implicitDef (hop : mi.opcode = .IMPLICIT_DEF) : Prepared st.infos []
  | hiddenStack {fix : List Change} (hop : mi.opcode = .HIDDENSTACK)
      (hfix : diffForHiddenStack mi st.stack = some fix) : Prepared st.infos fix
  | ret {fix : List Change} (hop : mi.opcode.isReturn)
      (hfix : fixups.forReturn mi st.stack = some fix) : Prepared st.infos fix
  | layout {infos : BlockInfos Block} {fix : List Change} (hop : mi.opcode ≠ .IMPLICIT_DEF)
      (hlast : mi.opcode.isTerminator ∨ node.isLast) (hsuccs : fn.cfg.succs b ≠ [])
      (hfix : fn.prepareLayout fixups b mi (mi.args (fn.vnInfoAt b node.index)) st =
        some (infos, fix)) : Prepared infos fix
  | args {fix : List Change} (hop : mi.opcode ≠ .IMPLICIT_DEF)
      (hinner : ¬((mi.opcode.isTerminator ∨ node.isLast) ∧ fn.cfg.succs b ≠ []))
      (hfix : fixups.diffForArgs st.stack (mi.args (fn.vnInfoAt b node.index))
        mi.opcode.isCommutable = some fix) : Prepared st.infos fix

variable {fn fixups b node mi st}

theorem prepared_of_eq_some {infos : BlockInfos Block} {fix : List Change}
    (h : fn.prepareStackFor fixups b node mi st = some (infos, fix)) :
    Prepared fn fixups b node mi st infos fix := by
  simp only [RegFunction.prepareStackFor, filteredByMIdefs_eq, Option.bind_some] at h
  split_ifs at h with himp hhidden hret hlast
  · cases h
    exact .implicitDef himp
  · obtain ⟨fix, hfix, heq⟩ := Option.map_eq_some_iff.mp h
    cases heq
    exact .hiddenStack hhidden hfix
  · obtain ⟨fix, hfix, heq⟩ := Option.map_eq_some_iff.mp h
    cases heq
    exact .ret hret hfix
  · exact .layout himp hlast.1 hlast.2 h
  · obtain ⟨fix, hfix, heq⟩ := Option.map_eq_some_iff.mp h
    cases heq
    exact .args himp hlast hfix

/-- The reversed instruction has one result, as the given one. -/
theorem optimizeReversible_eq_some {instr : RegInstr} {stack : Stack}
    (h : optimizeReversible instr stack = some mi) :
    mi = instr ∨ instr.opcode.reversed = some mi.opcode ∧ mi.defs.length = instr.defs.length := by
  unfold optimizeReversible at h
  split at h
  · cases h
    exact Or.inl rfl
  · rename_i opcode hop
    simp only [Option.bind_eq_bind, Option.bind_eq_some_iff] at h
    obtain ⟨result, -, left, -, right, -, leftPos, -, rightPos, -, h⟩ := h
    split_ifs at h
    · obtain ⟨tail, -, rfl⟩ := Option.map_eq_some_iff.mp h
      exact Or.inr ⟨hop, (instr.reversible_defs (by simp [hop])).symm⟩
    · cases h
      exact Or.inl rfl

theorem optimizeReversible_of_reversed {instr : RegInstr} (hnone : instr.opcode.reversed = none)
    (stack : Stack) : optimizeReversible instr stack = some instr := by
  unfold optimizeReversible
  split
  · rfl
  · rename_i hop
    cases hnone.symm.trans hop

theorem optimizeReversible_of_defs {instr : RegInstr} (hdefs : instr.defs = []) (stack : Stack) :
    optimizeReversible instr stack = some instr := by
  refine optimizeReversible_of_reversed ?_ stack
  by_contra hsome
  have := instr.reversible_defs (Option.isSome_iff_ne_none.mpr hsome)
  rw [hdefs] at this
  cases this

/-- The hidden slot is pushed by the instruction itself, which has no operand on the stack. -/
theorem diffForHiddenStack_eq_some {stack : Stack} {fix : List Change}
    (h : diffForHiddenStack mi stack = some fix) :
    (∃ i r, fix = [.pushHidden i r]) ∧ mi.useRegs = [] ∧ mi.readRegs = [] := by
  unfold diffForHiddenStack at h
  split at h
  · rename_i r isUndef isDead element hdefs huses
    cases h
    exact ⟨⟨_, r, rfl⟩, by simp [RegInstr.useRegs, huses, RegOperand.getReg],
      by simp [RegInstr.readRegs, huses]⟩
  · cases h

@[simp] theorem length_defRegs (mi : RegInstr) : mi.defRegs.length = mi.defs.length := by
  unfold RegInstr.defRegs
  have hreg := mi.defs_reg
  generalize mi.defs = defs at hreg
  induction defs with
  | nil => rfl
  | cons op defs ih =>
    have hop := hreg op List.mem_cons_self
    have ih := ih fun op hop => hreg op (List.mem_cons_of_mem _ hop)
    cases op with
    | reg r isUndef isDead => simpa [RegOperand.getReg] using ih
    | _ => cases hop

theorem modelInstructionExecution_eq (hop : mi.opcode ≠ .IMPLICIT_DEF) {stack : Stack}
    (hlen : mi.useRegs.length ≤ stack.length) :
    modelInstructionExecution mi stack =
      some (mi.defRegs.foldl addDef (stack.drop mi.useRegs.length)) := by
  rw [modelInstructionExecution, if_neg hop, consumeArguments_eq_some.mpr ⟨hlen, rfl⟩]
  rfl

theorem length_rewriteToSForm (mi : RegInstr) (stack : Stack) :
    (rewriteToSForm mi stack).length = stack.length := by
  unfold rewriteToSForm
  split_ifs <;> simp

/-- Without definitions there are no dead ones. -/
theorem rewriteToSForm_of_defs (hdefs : mi.defs = []) (stack : Stack) :
    rewriteToSForm mi stack = stack := by
  unfold rewriteToSForm
  split_ifs
  · simp [filterByDeadDefs, RegInstr.deadRegs, hdefs]
  · rfl

/-- **One instruction**: it is reversed or not, the stack is prepared, the operands are taken and
the results pushed. -/
theorem processInstruction_eq_some {p : Processed Block}
    (h : fn.processInstruction fixups b node st = some p) :
    ∃ mi infos fix s t, optimizeReversible node.instr st.stack = some mi ∧
      Prepared fn fixups b node mi st infos fix ∧ applyAll unusedReg fix st.stack = some s ∧
      modelInstructionExecution mi s = some t ∧ p = ⟨⟨infos, rewriteToSForm mi t⟩, fix, mi⟩ := by
  simp only [RegFunction.processInstruction, Option.bind_eq_bind, Option.bind_eq_some_iff] at h
  obtain ⟨mi, hmi, ⟨infos, fix⟩, hfix, s, hs, t, ht, heq⟩ := h
  cases heq
  exact ⟨mi, infos, fix, s, t, hmi, prepared_of_eq_some hfix, hs, ht, rfl⟩

theorem enterRoad_eq_some {stack : Stack} {infos infos' : BlockInfos Block}
    (h : fn.enterRoad b mi stack infos = some infos') :
    infos' = infos ∨ infos.fixedEnd b = none ∧
      ∃ out, consumeArguments stack mi.opcode.regsToConsume = some out ∧
        infos' = fn.computeRoadPattern (fn.road (b, .roadEnd)) out infos := by
  unfold RegFunction.enterRoad at h
  split_ifs at h with hset
  · cases h
    exact Or.inl rfl
  · obtain ⟨out, hout, heq⟩ := Option.bind_eq_some_iff.mp h
    cases heq
    exact Or.inr ⟨by simpa using hset, out, hout, rfl⟩

end Step

/-- The instruction that loads a constant into a register. -/
def loadConst (reg : StackVreg) (value : ℤ) : RegInstr where
  opcode := .other 0 ⟨false, false, false, true, by decide⟩
  defs := [.reg reg false false]
  uses := [.imm value]
  defs_reg := by simp [RegOperand.isReg]
  terminator_defs := by simp [RegOpcode.isTerminator]
  commutable_uses := by simp [RegOpcode.isCommutable]
  reversible_defs := by simp

/-- The instruction that accepts the message. It has no operands. -/
def accept : RegInstr where
  opcode := .other 1 ⟨false, false, false, true, by decide⟩
  defs := []
  uses := []
  defs_reg := nofun
  terminator_defs := nofun
  commutable_uses := nofun
  reversible_defs := nofun

end TVMCompiler
