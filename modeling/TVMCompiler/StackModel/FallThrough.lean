import TVMCompiler.StackModel.Process

/-!
# Blocks that fall through

The stack is brought to the layout of the road before the last instruction of a block. A
terminator then takes its operands and leaves the layout. A block that falls through may end in
any other instruction, or in a label, or be empty.

## Main definitions

* `LeavesLayout`: the stack is in the layout at the end of a block
* `FixedUp`: the instructions for which a fixup to the layout is made
* `EndsInLayout`: the condition on the last instruction, and on the stack before it

## Main results

* `leavesLayout_processInstruction`: the last instruction, where a fixup is made
* `fallThrough_leavesLayout`: a block that falls through leaves the layout exactly under the
  condition
-/

namespace TVMCompiler

section FallThrough

variable {Block : Type} [DecidableEq Block] (fn : RegFunction Block) (b : Block)

/-- The stack has the slots of the layout at the end of the block, and each register live out of
the block in its slot. -/
def LeavesLayout (st : ModelState Block) : Prop :=
  ∃ after, st.infos.fixedEnd b = some after ∧ st.stack.length = after.length ∧
    ∀ (k : ℕ) v, after[k]? = some v → fn.liveOut b v → st.stack[k]? = some v

/-- The last instructions before which the stack is brought to the layout. -/
def FixedUp (mi : RegInstr) : Prop :=
  mi.opcode.isSkipped = false ∧ mi.opcode ≠ .IMPLICIT_DEF ∧ mi.opcode ≠ .HIDDENSTACK

instance (mi : RegInstr) : Decidable (FixedUp mi) := instDecidableAnd

/-- The layout at the end of the block, also where the block is the first on its road. -/
def layoutAtEnd (st : ModelState Block) : Stack :=
  (st.infos.fixedEnd b).getD (fn.roadPattern (fn.road (b, .roadEnd)) st.stack)

/-- The stack after a last instruction for which no fixup to the layout is made. -/
def stackAfter (mi : RegInstr) (stack : Stack) : Option Stack :=
  if mi.opcode = .HIDDENSTACK then
    (diffForHiddenStack mi stack).map fun _ => mi.defRegs.foldl addDef stack
  else some stack

/-- The condition on the last instruction and on the state before it. -/
def EndsInLayout (node : Node) (st : ModelState Block) : Prop :=
  if FixedUp node.instr then
    node.instr.defs = [] ∧
      needStack (layoutAtEnd fn b st) (node.instr.args (fn.vnInfoAt b node.index)) st.stack ≠ [] ∧
      ∀ v ∈ layoutAtEnd fn b st, fn.liveOut b v → v ∈ st.stack
  else ∃ stack, stackAfter node.instr st.stack = some stack ∧ LeavesLayout fn b ⟨st.infos, stack⟩

variable {fn b} {node : Node} {mi : RegInstr} {st : ModelState Block}

/-! ## The fixup to the layout -/

theorem regsToConsume_of_not_terminator {op : RegOpcode} (h : op.isTerminator = false) :
    op.regsToConsume = 0 := by
  cases op with
  | JMPX | IFJMP | IFNOTJMP | IFELSE => cases h
  | _ => rfl

/-- Before an instruction that is no terminator the layout is there, or is fixed now. -/
theorem prepareLayout_eq (st : ModelState Block) (hb : b ∈ fn.layout) (hop : mi.opcode.isTerminator = false)
    (fixups : Fixups) (args : List MIArg) :
    ∃ infos, infos.fixedEnd b = some (layoutAtEnd fn b st) ∧
      fn.prepareLayout fixups b mi args st =
        (fixups.diff (needStack (layoutAtEnd fn b st) args st.stack) st.stack).map (infos, ·) := by
  unfold RegFunction.prepareLayout RegFunction.enterRoad layoutAtEnd
  cases hend : st.infos.fixedEnd b with
  | some after =>
    refine ⟨st.infos, hend, ?_⟩
    simp only [hend, Option.isSome_some, if_true, Option.bind_eq_bind, Option.bind_some,
      Option.getD_some]
    cases fixups.diff (needStack after args st.stack) st.stack <;> rfl
  | none =>
    have hout : consumeArguments st.stack 0 = some st.stack :=
      consumeArguments_eq_some.mpr ⟨Nat.zero_le _, rfl⟩
    refine ⟨fn.computeRoadPattern (fn.road (b, .roadEnd)) st.stack st.infos,
      by simp [RegFunction.computeRoadPattern, hb], ?_⟩
    simp [regsToConsume_of_not_terminator hop, hout, RegFunction.computeRoadPattern, hb]
    cases fixups.diff _ st.stack <;> rfl

/-- The stack before the last instruction, once it is in the layout with the operands on top. -/
theorem getElem?_filledDst_needStack {after stack : Stack} {args : List MIArg}
    (hrun : ∃ fix, applyAll unusedReg fix stack = some (filledDst (needStack after args stack) stack))
    {k : ℕ} {v : StackVreg} (hv : v ≠ unusedReg) (hk : after[k]? = some v) :
    (filledDst (needStack after args stack) stack)[args.length + k]? = some v ↔ v ∈ stack := by
  obtain ⟨fix, hrun⟩ := hrun
  constructor
  · intro h
    have hfrom := forall_mem_of_applyAll (P := fun v => v = unusedReg ∨ v ∈ stack) (Or.inl rfl)
      (fun v hv => Or.inr hv) hrun v (List.mem_of_getElem? h)
    exact hfrom.resolve_left hv
  · intro hmem
    refine getElem?_filledDst stack ?_ hv
    have hslot : (withArgs after args)[args.length + k]? = some v := by
      rw [withArgs, List.getElem?_append_right (by simp)]
      simpa using hk
    rw [needStack, filterByImpDefs, List.getElem?_map, hslot]
    simp [hmem]

theorem prepareStackFor_last (hsuccs : fn.cfg.succs b ≠ []) (hlast : node.isLast)
    (hfixed : FixedUp mi) (hop : mi.opcode.isTerminator = false) (fixups : Fixups) :
    fn.prepareStackFor fixups b node mi st =
      fn.prepareLayout fixups b mi (mi.args (fn.vnInfoAt b node.index)) st := by
  obtain ⟨-, himp, hhidden⟩ := hfixed
  have hret : ¬ mi.opcode.isReturn := fun h => by
    rw [RegOpcode.isTerminator_of_isReturn h] at hop
    cases hop
  simp only [RegFunction.prepareStackFor, filteredByMIdefs_eq, Option.bind_some]
  rw [if_neg himp, if_neg hhidden, if_neg hret, if_pos ⟨Or.inr hlast, hsuccs⟩]

theorem fixedUp_optimizeReversible {instr : RegInstr} {stack : Stack} (hfixed : FixedUp instr)
    (hop : instr.opcode.isTerminator = false) (h : optimizeReversible instr stack = some mi) :
    FixedUp mi ∧ mi.opcode.isTerminator = false ∧ mi.defs.length = instr.defs.length := by
  rcases optimizeReversible_eq_some h with rfl | ⟨hreversed, hdefs⟩
  · exact ⟨hfixed, hop, rfl⟩
  · exact ⟨RegOpcode.prepared_reversed hreversed, RegOpcode.isTerminator_reversed hreversed, hdefs⟩

@[simp] theorem length_needStack (after stack : Stack) (args : List MIArg) :
    (needStack after args stack).length = args.length + after.length := by
  simp [needStack, withArgs]

theorem mem_of_mem_filterByImpDefs {s stack : Stack} {v : StackVreg}
    (h : v ∈ filterByImpDefs s stack) (hv : v ≠ unusedReg) : v ∈ stack := by
  obtain ⟨w, -, hw⟩ := List.mem_map.mp h
  split_ifs at hw with habsent
  · exact absurd hw.symm hv
  · subst hw
    by_contra hnot
    exact habsent ⟨hv, hnot⟩

/-- The stack is brought to the layout, the operands are taken, and the results are pushed on top
of the layout. -/
theorem processInstruction_layout (hsuccs : fn.cfg.succs b ≠ []) (hlast : node.isLast)
    (hb : b ∈ fn.layout) (hmi : optimizeReversible node.instr st.stack = some mi)
    (hfixed : FixedUp mi) (hop : mi.opcode.isTerminator = false) :
    ∃ infos, infos.fixedEnd b = some (layoutAtEnd fn b st) ∧
      ∀ p, fn.processInstruction stackFixups b node st = some p ↔
        ∃ fix, Diff (needStack (layoutAtEnd fn b st) (mi.args (fn.vnInfoAt b node.index)) st.stack)
          st.stack = some fix ∧
        p = ⟨⟨infos, rewriteToSForm mi (mi.defRegs.foldl addDef
          ((filledDst (needStack (layoutAtEnd fn b st) (mi.args (fn.vnInfoAt b node.index)) st.stack)
            st.stack).drop mi.useRegs.length))⟩, fix, mi⟩ := by
  obtain ⟨infos, hend, hlayout⟩ := prepareLayout_eq st hb hop stackFixups
    (mi.args (fn.vnInfoAt b node.index))
  refine ⟨infos, hend, fun p => ?_⟩
  have hexec := modelInstructionExecution_eq hfixed.2.1
    (show mi.useRegs.length ≤ (filledDst (needStack (layoutAtEnd fn b st)
      (mi.args (fn.vnInfoAt b node.index)) st.stack) st.stack).length by
        simp [length_filledDst, mi.length_args])
  simp only [RegFunction.processInstruction, hmi, prepareStackFor_last hsuccs hlast hfixed hop,
    hlayout, Option.bind_eq_bind, Option.bind_some]
  constructor
  · intro h
    obtain ⟨⟨infos', fix⟩, hfix, h⟩ := Option.bind_eq_some_iff.mp h
    obtain ⟨fix, hdiff, heq⟩ := Option.map_eq_some_iff.mp hfix
    cases heq
    rw [applyAll_of_Diff hdiff, Option.bind_some, hexec, Option.bind_some] at h
    cases h
    exact ⟨fix, hdiff, rfl⟩
  · rintro ⟨fix, hdiff, rfl⟩
    have hfix : stackFixups.diff (needStack (layoutAtEnd fn b st)
        (mi.args (fn.vnInfoAt b node.index)) st.stack) st.stack = some fix := hdiff
    rw [hfix, Option.map_some, Option.bind_some, applyAll_of_Diff hdiff, Option.bind_some, hexec]
    rfl

theorem Diff_needStack {after stack : Stack} {args : List MIArg}
    (hne : needStack after args stack ≠ []) : ∃ fix, Diff (needStack after args stack) stack = some fix := by
  obtain ⟨fix, hdiff, -⟩ :=
    applyAll_Diff stack _ hne fun v hv hne => mem_of_mem_filterByImpDefs hv hne
  exact ⟨fix, hdiff⟩

/-- **The last instruction, where a fixup is made**: it leaves the layout exactly if it defines
nothing, the layout with its operands is not empty, and the registers to keep are on the stack. -/
theorem leavesLayout_processInstruction (hsuccs : fn.cfg.succs b ≠ []) (hlast : node.isLast)
    (hb : b ∈ fn.layout) (hfixed : FixedUp node.instr)
    (hop : node.instr.opcode.isTerminator = false) :
    (∃ p, fn.processInstruction stackFixups b node st = some p ∧ LeavesLayout fn b p.state) ↔
      node.instr.defs = [] ∧
        needStack (layoutAtEnd fn b st) (node.instr.args (fn.vnInfoAt b node.index)) st.stack ≠ [] ∧
        ∀ v ∈ layoutAtEnd fn b st, fn.liveOut b v → v ∈ st.stack := by
  have hreg {v : StackVreg} (hlive : fn.liveOut b v) : v ≠ unusedReg :=
    ne_unusedReg_of_mem_virtRegs fn.numVirtRegs_lt (fn.virtReg_of_live b v (Or.inr hlive))
  constructor
  · rintro ⟨p, hp, after, hafter, hlen, hslots⟩
    obtain ⟨mi, hmi⟩ : ∃ mi, optimizeReversible node.instr st.stack = some mi := by
      obtain ⟨mi, -, -, -, -, hmi, -⟩ := processInstruction_eq_some hp
      exact ⟨mi, hmi⟩
    obtain ⟨hfixed, hop, hdefs⟩ := fixedUp_optimizeReversible hfixed hop hmi
    obtain ⟨infos, hend, hprocess⟩ := processInstruction_layout hsuccs hlast hb hmi hfixed hop
    obtain ⟨fix, hdiff, rfl⟩ := (hprocess p).mp hp
    obtain rfl := Option.some.inj (hafter.symm.trans hend)
    -- the results come in addition to the layout
    have hnone : node.instr.defs = [] := by
      rw [← List.length_eq_zero_iff, ← hdefs, ← length_defRegs]
      simp only [length_rewriteToSForm, foldl_addDef, List.length_append, List.length_reverse,
        List.length_drop, length_filledDst, length_needStack, mi.length_args] at hlen
      omega
    obtain rfl := Option.some.inj ((optimizeReversible_of_defs hnone _).symm.trans hmi)
    refine ⟨hnone, (Diff_defined hdiff).1, fun v hv hlive => ?_⟩
    obtain ⟨k, hk⟩ := List.mem_iff_getElem?.mp hv
    refine (getElem?_filledDst_needStack ⟨fix, applyAll_of_Diff hdiff⟩ (hreg hlive) hk).mp ?_
    have hslot := hslots k v hk hlive
    rw [node.instr.length_args]
    simpa [rewriteToSForm_of_defs hnone, RegInstr.defRegs, hnone] using hslot
  · rintro ⟨hnone, hne, hon⟩
    have hmi := optimizeReversible_of_defs hnone st.stack
    obtain ⟨infos, hend, hprocess⟩ := processInstruction_layout hsuccs hlast hb hmi hfixed hop
    obtain ⟨fix, hdiff⟩ := Diff_needStack hne
    refine ⟨_, (hprocess _).mpr ⟨fix, hdiff, rfl⟩, _, hend, ?_, fun k v hk hlive => ?_⟩
    · simp [length_rewriteToSForm, RegInstr.defRegs, hnone, length_filledDst,
        node.instr.length_args]
    · simp only [rewriteToSForm_of_defs hnone, RegInstr.defRegs, hnone, List.filterMap_nil,
        List.foldl_nil, List.getElem?_drop, ← node.instr.length_args (fn.vnInfoAt b node.index)]
      exact (getElem?_filledDst_needStack ⟨fix, applyAll_of_Diff hdiff⟩ (hreg hlive) hk).mpr
        (hon v (List.mem_of_getElem? hk) hlive)

/-- Where no fixup to the layout is made the stack stays as it is, up to a hidden slot. -/
theorem processNode_of_not_fixedUp (hfixed : ¬ FixedUp node.instr) (fixups : Fixups) :
    fn.processNode fixups b st node =
      (stackAfter node.instr st.stack).map fun stack => ⟨st.infos, stack⟩ := by
  have hopcode : node.instr.opcode.isSkipped ∨ node.instr.opcode = .IMPLICIT_DEF ∨
      node.instr.opcode = .HIDDENSTACK := by
    simp only [FixedUp] at hfixed
    grind
  unfold RegFunction.processNode stackAfter
  rcases hopcode with hskipped | himp | hhidden
  · rw [if_pos hskipped, if_neg]
    · rfl
    · intro h
      rw [h] at hskipped
      cases hskipped
  · have hmi := optimizeReversible_of_reversed (show node.instr.opcode.reversed = none by
      rw [himp]; rfl) st.stack
    simp [RegFunction.processInstruction, RegFunction.prepareStackFor, himp, hmi,
      RegOpcode.isSkipped, modelInstructionExecution, rewriteToSForm, RegOpcode.hasSForm]
  · have hmi := optimizeReversible_of_reversed (show node.instr.opcode.reversed = none by
      rw [hhidden]; rfl) st.stack
    have hskipped : node.instr.opcode.isSkipped = false := by
      rw [hhidden]
      rfl
    have himp : node.instr.opcode ≠ .IMPLICIT_DEF := by
      rw [hhidden]
      simp
    simp only [RegFunction.processInstruction, RegFunction.prepareStackFor, hmi, hskipped,
      if_pos hhidden, if_neg himp, Option.bind_eq_bind, Option.bind_some]
    cases hfix : diffForHiddenStack node.instr st.stack with
    | none => rfl
    | some fix =>
      obtain ⟨⟨i, r, rfl⟩, huses, -⟩ := diffForHiddenStack_eq_some hfix
      have hexec := modelInstructionExecution_eq himp
        (show node.instr.useRegs.length ≤ st.stack.length by simp [huses])
      simp [Change.apply, hexec, huses, rewriteToSForm, hhidden, RegOpcode.hasSForm]

/-! ## The end of a block -/

variable (fn b) in
/-- The condition on the end of a block, and on the state before its last node. -/
def FallsInLayout (before : ModelState Block) : Prop :=
  match (fn.nodes b).getLast? with
  | none => LeavesLayout fn b before
  | some node => EndsInLayout fn b node before

theorem isLast_of_getLast? {instrs : List RegInstr} {n : ℕ} {node : Node}
    (h : (nodesFrom n instrs).getLast? = some node) : node.isLast := by
  induction instrs generalizing n with
  | nil => cases h
  | cons mi rest ih =>
    cases rest with
    | nil =>
      cases h
      rfl
    | cons mi' rest => exact ih (n := n + 1) (by simpa [nodesFrom, List.getLast?_cons_cons] using h)

/-- **A block that falls through leaves the layout** of its road exactly if its last instruction is
one before which a fixup is made, defines nothing and finds the registers to keep on the stack; or
no fixup is made and the stack is in the layout already. -/
theorem fallThrough_leavesLayout (fn : RegFunction Block) (b : Block) (hb : b ∈ fn.layout)
    (hsuccs : fn.cfg.succs b ≠ [])
    (hterm : ∀ node, (fn.nodes b).getLast? = some node → node.instr.opcode.isTerminator = false)
    (st before : ModelState Block)
    (hbefore : (fn.nodes b).dropLast.foldlM (fn.processNode stackFixups b) st = some before) :
    (∃ after, (fn.nodes b).foldlM (fn.processNode stackFixups b) st = some after ∧
      LeavesLayout fn b after) ↔ FallsInLayout fn b before := by
  unfold FallsInLayout
  cases hlast : (fn.nodes b).getLast? with
  | none =>
    rw [List.getLast?_eq_none_iff] at hlast
    rw [hlast] at hbefore ⊢
    cases hbefore
    simp
  | some node =>
    obtain ⟨init, hinit⟩ := List.getLast?_eq_some_iff.mp hlast
    rw [hinit, List.dropLast_concat] at hbefore
    have hrun : (fn.nodes b).foldlM (fn.processNode stackFixups b) st =
        fn.processNode stackFixups b before node := by
      rw [hinit, List.foldlM_append, hbefore]
      simp
    show _ ↔ EndsInLayout fn b node before
    rw [hrun, EndsInLayout]
    have hop := hterm node hlast
    split_ifs with hfixed
    · rw [← leavesLayout_processInstruction hsuccs (isLast_of_getLast? hlast) hb hfixed hop]
      simp [RegFunction.processNode, hfixed.1]
    · rw [processNode_of_not_fixedUp hfixed]
      simp

end FallThrough

/-! ## Two blocks in a row -/

/-- A block that falls through to the only other one, into which one register is live. -/
def inARow (instrs : List RegInstr) : RegFunction Bool where
  cfg := ⟨false, fun b => if b then [] else [true], fun b => if b then [false] else [], by decide⟩
  layout := [false, true]
  instrs b := if b then [] else instrs
  road
    | (false, .roadBegin) => 2
    | (true, .roadEnd) => 3
    | _ => 1
  numVirtRegs := 1
  liveIn b v := b && decide (v = index2VirtReg 0)
  liveOut b v := !b && decide (v = index2VirtReg 0)
  vnInfoAt _ _ _ := true
  layout_nodup := by decide
  numVirtRegs_lt := by decide
  virtReg_of_live := by simp [virtRegs]

theorem layoutAtEnd_inARow {instrs : List RegInstr} {st : ModelState Bool}
    (hst : st.infos.fixedEnd false = none) :
    layoutAtEnd (inARow instrs) false st = [index2VirtReg 0] := by
  rw [layoutAtEnd, hst]
  rfl

/-- The register gets its value before the last instruction. -/
theorem fallThrough_leavesLayout_example :
    ∃ after, ((inARow [loadConst (index2VirtReg 0) 7, accept]).nodes false).foldlM
        ((inARow [loadConst (index2VirtReg 0) 7, accept]).processNode stackFixups false)
        ⟨(inARow [loadConst (index2VirtReg 0) 7, accept]).startInfos [], []⟩ = some after ∧
      LeavesLayout (inARow [loadConst (index2VirtReg 0) 7, accept]) false after := by
  refine (fallThrough_leavesLayout (inARow [loadConst (index2VirtReg 0) 7, accept]) false (by decide)
    (by decide) ?_ _ ⟨_, [index2VirtReg 0]⟩ rfl).mpr ?_
  · rintro node hnode
    cases hnode
    rfl
  · show EndsInLayout _ _ ⟨1, accept, true⟩ _
    rw [EndsInLayout, if_pos (by decide), layoutAtEnd_inARow rfl]
    exact ⟨rfl, by simp [needStack, withArgs, filterByImpDefs], fun v hv _ => hv⟩

/-- The last instruction gives the register its value, and there is a slot too many. -/
theorem fallThrough_leavesLayout_fails :
    ∃ after, ((inARow [loadConst (index2VirtReg 0) 7]).nodes false).foldlM
        ((inARow [loadConst (index2VirtReg 0) 7]).processNode stackFixups false)
        ⟨(inARow [loadConst (index2VirtReg 0) 7]).startInfos [], []⟩ = some after ∧
      after.infos.fixedEnd false = some [index2VirtReg 0] ∧ after.stack.length = 2 ∧
      ¬ LeavesLayout (inARow [loadConst (index2VirtReg 0) 7]) false after := by
  set fn := inARow [loadConst (index2VirtReg 0) 7] with hfn
  obtain ⟨infos, hend, hprocess⟩ := processInstruction_layout
    (show fn.cfg.succs false ≠ [] by decide)
    (show (Node.mk 0 (loadConst (index2VirtReg 0) 7) true).isLast by rfl)
    (show false ∈ fn.layout by decide)
    (show optimizeReversible (loadConst (index2VirtReg 0) 7) (ModelState.stack ⟨fn.startInfos [], []⟩) =
      some (loadConst (index2VirtReg 0) 7) by rfl) (by decide) rfl
  rw [layoutAtEnd_inARow rfl] at hend hprocess
  obtain ⟨fix, hfix⟩ := Diff_needStack (show needStack [index2VirtReg 0] [] [] ≠ [] by
    simp [needStack, withArgs, filterByImpDefs])
  have hfilled : (filledDst (needStack [index2VirtReg 0] [] []) []).length = 1 := by
    rw [length_filledDst]
    rfl
  obtain ⟨p, hp, hend, hlen⟩ : ∃ p, fn.processInstruction stackFixups false
      ⟨0, loadConst (index2VirtReg 0) 7, true⟩ ⟨fn.startInfos [], []⟩ = some p ∧
      p.state.infos.fixedEnd false = some [index2VirtReg 0] ∧ p.state.stack.length = 2 := by
    refine ⟨_, (hprocess _).mpr ⟨fix, hfix, rfl⟩, hend, ?_⟩
    rw [length_rewriteToSForm]
    exact congrArg (· + 1) hfilled
  refine ⟨p.state, ?_, hend, hlen, ?_⟩
  · show ((fn.processInstruction stackFixups false ⟨0, _, true⟩ _).map Processed.state).bind some = _
    rw [hp]
    rfl
  · rintro ⟨after, hafter, hslots, -⟩
    obtain rfl := Option.some.inj (hend.symm.trans hafter)
    rw [hlen] at hslots
    cases hslots

end TVMCompiler
