import TVMCompiler.Lib.Runs
import TVMCompiler.StackModel.Process

/-!
# No register is twice on the stack

The positions that the stack model looks up are meaningful only while the stack holds no register
twice. `filteredByMIdefs` is to take care of a register that is defined again while its old value
is on the stack. It does not, so the property depends on the code.

## Main definitions

* `Undisturbed`: an instruction defines distinct registers, and on the stack only those it reads
* `RegFunction.AlongRun`: a condition on every instruction of a run

## Main results

* `noRepetition_layout`: the patterns of the roads hold no register twice
* `noRepetition_processInstruction`: an undisturbed instruction keeps the property
* `noRepetition_run`: so does a run of the stack model
-/

namespace TVMCompiler

open Lib

/-! ## Stacks without repetitions -/

section Stacks

variable {s t : Stack}

theorem NoRepetition.of_count_le (hs : NoRepetition s)
    (h : ∀ v ≠ unusedReg, t.count v ≤ s.count v) : NoRepetition t := fun v hv =>
  (h v hv).trans (hs v hv)

theorem NoRepetition.nil : NoRepetition [] := fun _ _ => Nat.zero_le 1

/-- Masking some registers repeats none. -/
theorem NoRepetition.map (hs : NoRepetition s) {f : StackVreg → StackVreg}
    (hf : ∀ v, f v = v ∨ f v = unusedReg) : NoRepetition (s.map f) := by
  refine hs.of_count_le fun v hv => ?_
  induction s with
  | nil => simp
  | cons w s ih =>
    have ih := ih (hs.of_count_le fun u _ => List.count_le_count_cons)
    rw [List.map_cons, List.count_cons, List.count_cons]
    rcases hf w with hw | hw
    · rw [hw]
      omega
    · rw [hw, if_neg (by simpa using Ne.symm hv)]
      omega

/-- Distinct registers that are not on the stack can be pushed. -/
theorem NoRepetition.append (hs : NoRepetition s) {regs : List StackVreg} (hregs : regs.Nodup)
    (hnew : ∀ v ∈ regs, v ≠ unusedReg → v ∉ s) : NoRepetition (regs.foldl addDef s) := by
  intro v hv
  rw [foldl_addDef, List.count_append, List.count_reverse]
  by_cases hmem : v ∈ regs
  · rw [List.count_eq_zero_of_not_mem (hnew v hmem hv)]
    exact List.nodup_iff_count_le_one.mp hregs v
  · rw [List.count_eq_zero_of_not_mem hmem, Nat.zero_add]
    exact hs v hv

end Stacks

theorem nodup_virtRegs {n : ℕ} (h : n < 2 ^ 31) : (virtRegs n).Nodup := by
  refine List.nodup_range.map_on fun i hi j hj hij => ?_
  rw [List.mem_range] at hi hj
  have heq := congrArg Fin.val hij
  rw [val_index2VirtReg, val_index2VirtReg] at heq
  omega

/-! ## The operands of an instruction -/

section Operands

variable (mi : RegInstr) (vnInfoAt : StackVreg → Bool)

theorem flagsAgree_args : FlagsAgree (mi.args vnInfoAt) := by
  intro a ha b hb hne hab
  rcases mi.mem_args ha with rfl | ⟨-, hka⟩
  · exact absurd rfl hne
  · rcases mi.mem_args hb with rfl | ⟨-, hkb⟩
    · exact absurd hab hne
    · obtain ⟨v, k⟩ := a
      obtain ⟨w, l⟩ := b
      obtain rfl : v = w := hab
      exact congrArg _ (hka.trans hkb.symm)

theorem length_args_of_isCommutable (h : mi.opcode.isCommutable) :
    (mi.args vnInfoAt).length = 2 := by
  rw [mi.length_args, ← mi.commutable_uses h]
  unfold RegInstr.useRegs
  induction mi.uses with
  | nil => rfl
  | cons op uses ih =>
    rw [List.filterMap_cons, List.filter_cons]
    cases op <;> simp [RegOperand.getReg, RegOperand.isReg, ih]

/-- A register that the instruction reads and defines dies as an operand. -/
theorem killed_of_mem_defRegs {v : StackVreg} (hread : v ∈ mi.readRegs) (hdef : v ∈ mi.defRegs) :
    Killed (mi.args vnInfoAt) v := by
  have hmem := mi.mem_args_of_readRegs vnInfoAt hread
  rwa [RegInstr.isKilled, decide_eq_true hdef, Bool.or_true] at hmem

end Operands

/-! ## The patterns of the roads -/

/-- No layout holds a register twice. -/
def LayoutsTidy {Block : Type} (infos : BlockInfos Block) : Prop :=
  ∀ b s, infos.fixedBegin b = some s ∨ infos.fixedEnd b = some s → NoRepetition s

section Layouts

variable {Block : Type} (fn : RegFunction Block)

theorem nodup_gatherRegs (p : StackVreg → Bool) : (fn.gatherRegs p).Nodup :=
  (nodup_virtRegs fn.numVirtRegs_lt).filter p

/-- **The pattern of a road holds no register twice.** -/
theorem noRepetition_roadPattern (roadIdx : ℕ) {out : Stack} (hout : NoRepetition out) :
    NoRepetition (fn.roadPattern roadIdx out) := by
  unfold RegFunction.roadPattern
  split
  · exact NoRepetition.nil.append (nodup_gatherRegs fn _) (by simp)
  · refine hout.append (nodup_gatherRegs fn _) fun v hv _ => ?_
    have hp := (List.mem_filter.mp hv).2
    simp only [Bool.and_eq_true, decide_eq_true_eq] at hp
    exact hp.2

variable {fn} [DecidableEq Block]

theorem layoutsTidy_computeRoadPattern {roadIdx : ℕ} {out : Stack} {infos : BlockInfos Block}
    (hout : NoRepetition out) (h : LayoutsTidy infos) :
    LayoutsTidy (fn.computeRoadPattern roadIdx out infos) := by
  have hpattern := noRepetition_roadPattern fn roadIdx hout
  intro b s hs
  simp only [RegFunction.computeRoadPattern] at hs
  split_ifs at hs with hbegin hend
  · rcases hs with hs | hs <;> cases hs
    · exact hpattern.map fun v => by split_ifs <;> simp
    · exact hpattern
  · rcases hs with hs | hs
    · cases hs
      exact hpattern.map fun v => by split_ifs <;> simp
    · exact h b s (Or.inr hs)
  · rcases hs with hs | hs
    · exact h b s (Or.inl hs)
    · cases hs
      exact hpattern
  · exact h b s hs

theorem layoutsTidy_enterRoad {b : Block} {mi : RegInstr} {stack : Stack}
    {infos infos' : BlockInfos Block} (hstack : NoRepetition stack) (h : LayoutsTidy infos)
    (hinfos : fn.enterRoad b mi stack infos = some infos') : LayoutsTidy infos' := by
  rcases enterRoad_eq_some hinfos with rfl | ⟨-, out, hout, rfl⟩
  · exact h
  · refine layoutsTidy_computeRoadPattern (hstack.of_count_le fun v _ => ?_) h
    obtain ⟨-, rfl⟩ := consumeArguments_eq_some.mp hout
    exact (List.drop_sublist _ _).count_le v

end Layouts

/-! ## Below the operands -/

section Below

variable {mi : RegInstr} {stack s rest : Stack} {fix : List Change}

/-- A fixup for operands leaves no register below them that dies, and no other one twice. -/
theorem below_diffForArgs {vnInfoAt : StackVreg → Bool} (hstack : NoRepetition stack)
    (hfix : DiffForArgs stack (mi.args vnInfoAt) mi.opcode.isCommutable = some fix)
    (hrun : applyAll unusedReg fix stack = some s)
    (hrest : consumeArguments s mi.useRegs.length = some rest) :
    ∀ v ≠ unusedReg, rest.count v ≤ stack.count v ∧
      (Killed (mi.args vnInfoAt) v → rest.count v = 0) := by
  obtain ⟨top, below, rfl, hlen, hcount⟩ := DiffForArgs_taken hstack (flagsAgree_args mi vnInfoAt)
    (fun h => length_args_of_isCommutable mi vnInfoAt h) hfix hrun
  rw [mi.length_args] at hlen
  obtain rfl := Option.some.inj ((consumeArguments_append hlen).symm.trans hrest)
  intro v hv
  rw [hcount v hv]
  split_ifs with hkilled
  · exact ⟨Nat.zero_le _, fun _ => rfl⟩
  · exact ⟨le_rfl, fun h => absurd h hkilled⟩

/-- A layout has below the operands what is wanted there, once. -/
theorem below_diff {after : Stack} {args : List MIArg} (hstack : NoRepetition stack)
    (hafter : NoRepetition after) (hfix : Diff (needStack after args stack) stack = some fix)
    (hrun : applyAll unusedReg fix stack = some s)
    (hrest : consumeArguments s args.length = some rest) : NoRepetition rest := by
  obtain rfl := Option.some.inj (hrun.symm.trans (applyAll_of_Diff hfix))
  obtain ⟨-, rfl⟩ := consumeArguments_eq_some.mp hrest
  set need := needStack after args stack with hneed
  have hbelow : need.drop args.length = filterByImpDefs after stack := by
    rw [hneed, needStack, filterByImpDefs, withArgs, List.map_append, List.drop_left' (by simp)]
    rfl
  have hdrop : NoRepetition (need.drop args.length) := by
    rw [hbelow]
    exact hafter.map fun v => by split_ifs <;> simp
  intro v hv
  have hle := count_drop_filledDst need stack hv args.length
  have hsub := (List.drop_sublist args.length need).count_le v
  have := hdrop v hv
  have := hstack v hv
  omega

theorem length_mapM_result {ops : List RegOperand} {regs : List StackVreg}
    (h : ops.mapM RegOperand.result = some regs) :
    regs.length = (ops.filterMap RegOperand.getReg).length := by
  induction ops generalizing regs with
  | nil =>
    cases h
    rfl
  | cons op ops ih =>
    rw [List.mapM_cons] at h
    obtain ⟨reg, hreg, h⟩ := Option.bind_eq_some_iff.mp h
    obtain ⟨regs, hregs, h⟩ := Option.bind_eq_some_iff.mp h
    cases h
    cases op with
    | reg r isUndef isDead => simpa [RegOperand.getReg] using ih hregs
    | _ => cases hreg

theorem mem_of_DiffForReturn {reg : StackVreg} (hreg : reg ≠ unusedReg)
    (h : DiffForReturn stack (some reg) = some fix) : reg ∈ stack := by
  simp only [DiffForReturn, placeResult, if_neg hreg, Option.bind_eq_bind,
    Option.bind_eq_some_iff] at h
  obtain ⟨_, ⟨i, hi, -⟩, -⟩ := h
  exact List.mem_of_getElem? (position_slot hi)

/-- A return takes everything off the stack. -/
theorem below_forReturn (hop : mi.opcode.isReturn)
    (hfix : stackFixups.forReturn mi stack = some fix)
    (hrun : applyAll unusedReg fix stack = some s)
    (hrest : consumeArguments s mi.useRegs.length = some rest) : rest = [] := by
  obtain ⟨-, rfl⟩ := consumeArguments_eq_some.mp hrest
  refine List.drop_eq_nil_of_le ?_
  have hdefs := mi.terminator_defs (RegOpcode.isTerminator_of_isReturn hop)
  rw [Fixups.forReturn, hdefs, List.nil_append] at hfix
  unfold RegInstr.useRegs
  split at hfix
  · obtain ⟨fix', hfix', hrun'⟩ := DiffForReturn_none stack
    obtain rfl := Option.some.inj (hfix.symm.trans hfix')
    obtain rfl := Option.some.inj (hrun.symm.trans hrun')
    exact Nat.zero_le _
  · rename_i op huses
    obtain ⟨reg, hreg, hfix⟩ := Option.bind_eq_some_iff.mp hfix
    have hone : ∃ v, s = [v] := by
      by_cases hunused : reg = unusedReg
      · subst hunused
        obtain ⟨fix', v, hfix', hrun'⟩ := DiffForReturn_undef stack
        obtain rfl := Option.some.inj (hfix.symm.trans hfix')
        exact ⟨v, Option.some.inj (hrun.symm.trans hrun')⟩
      · obtain ⟨fix', hfix', hrun'⟩ :=
          DiffForReturn_reg hunused (mem_of_DiffForReturn hunused hfix)
        obtain rfl := Option.some.inj (hfix.symm.trans hfix')
        exact ⟨reg, Option.some.inj (hrun.symm.trans hrun')⟩
    obtain ⟨v, rfl⟩ := hone
    cases op with
    | reg r isUndef isDead => simp [huses, RegOperand.getReg]
    | _ => cases hreg
  · obtain ⟨regs, hregs, hfix⟩ := Option.bind_eq_some_iff.mp hfix
    obtain rfl := Option.some.inj (hrun.symm.trans (applyAll_of_Diff hfix))
    rw [length_filledDst, List.length_reverse, length_mapM_result hregs]

end Below

/-! ## One instruction -/

/-- The instruction defines distinct registers, and of the ones on the stack only those that it
reads. It is looked at in the form in which it is prepared. -/
def Undisturbed {Block : Type} (node : Node) (st : ModelState Block) : Prop :=
  node.instr.opcode.isSkipped = false →
    ∀ mi, optimizeReversible node.instr st.stack = some mi → mi.opcode ≠ .IMPLICIT_DEF →
      mi.defRegs.Nodup ∧
        ∀ v ∈ mi.defRegs, v ≠ unusedReg → v ∈ st.stack → v ∈ mi.readRegs

section Step

variable {Block : Type} [DecidableEq Block] {fn : RegFunction Block} {b : Block} {node : Node}
  {mi : RegInstr} {st st' : ModelState Block} {infos : BlockInfos Block} {fix : List Change}

theorem layoutsTidy_prepared (hprepared : Prepared fn stackFixups b node mi st infos fix)
    (hstack : NoRepetition st.stack) (hinfos : LayoutsTidy st.infos) : LayoutsTidy infos := by
  cases hprepared with
  | layout _ _ _ hfix =>
    simp only [RegFunction.prepareLayout, Option.bind_eq_bind, Option.bind_eq_some_iff] at hfix
    obtain ⟨infos, henter, _, -, _, -, heq⟩ := hfix
    cases heq
    exact layoutsTidy_enterRoad hstack hinfos henter
  | _ => exact hinfos

theorem Prepared.fix_eq_nil {fixups : Fixups}
    (hprepared : Prepared fn fixups b node mi st infos fix) (hop : mi.opcode = .IMPLICIT_DEF) :
    fix = [] := by
  cases hprepared with
  | implicitDef => rfl
  | hiddenStack hhidden => cases hop.symm.trans hhidden
  | ret hret =>
    rw [hop] at hret
    cases hret
  | layout hne => exact absurd hop hne
  | args hne => exact absurd hop hne

/-- What is left on the stack under the results: no register twice, and none of the results. -/
theorem below_prepared (hprepared : Prepared fn stackFixups b node mi st infos fix)
    (hop : mi.opcode ≠ .IMPLICIT_DEF) (hstack : NoRepetition st.stack)
    (hinfos : LayoutsTidy st.infos) (hlast : node.isLast = false)
    (hundisturbed : ∀ v ∈ mi.defRegs, v ≠ unusedReg → v ∈ st.stack → v ∈ mi.readRegs)
    {s rest : Stack} (hrun : applyAll unusedReg fix st.stack = some s)
    (hrest : consumeArguments s mi.useRegs.length = some rest) :
    NoRepetition rest ∧ ∀ v ∈ mi.defRegs, v ≠ unusedReg → v ∉ rest := by
  cases hprepared with
  | implicitDef himp => exact absurd himp hop
  | hiddenStack _ hfix =>
    obtain ⟨⟨i, r, rfl⟩, huses, hreads⟩ := diffForHiddenStack_eq_some hfix
    cases hrun
    obtain ⟨-, rfl⟩ := consumeArguments_eq_some.mp hrest
    rw [huses, List.length_nil, List.drop_zero]
    refine ⟨hstack, fun v hv hne hmem => ?_⟩
    have hread := hundisturbed v hv hne hmem
    rw [hreads] at hread
    cases hread
  | ret hret hfix =>
    obtain rfl := below_forReturn hret hfix hrun hrest
    exact ⟨NoRepetition.nil, fun _ _ _ => List.not_mem_nil⟩
  | layout _ hterminator _ hfix =>
    have hinfos := layoutsTidy_prepared (Prepared.layout ‹_› hterminator ‹_› hfix) hstack hinfos
    simp only [RegFunction.prepareLayout, Option.bind_eq_bind, Option.bind_eq_some_iff] at hfix
    obtain ⟨infos, -, after, hafter, fix, hfix, heq⟩ := hfix
    cases heq
    rw [← mi.length_args (fn.vnInfoAt b node.index)] at hrest
    refine ⟨below_diff hstack (hinfos b after (Or.inr hafter)) hfix hrun hrest, ?_⟩
    -- only a terminator is prepared so before the end of the block
    have hdefs := mi.terminator_defs (hterminator.resolve_right (by simp [hlast]))
    simp [RegInstr.defRegs, hdefs]
  | args _ _ hfix =>
    have hbelow := below_diffForArgs hstack hfix hrun hrest
    refine ⟨hstack.of_count_le fun v hv => (hbelow v hv).1, fun v hv hne hmem => ?_⟩
    obtain ⟨hle, hkilled⟩ := hbelow v hne
    have hpos := List.count_pos_iff.mpr hmem
    have hread := hundisturbed v hv hne (List.count_pos_iff.mp (hpos.trans_le hle))
    rw [hkilled (killed_of_mem_defRegs mi _ hread hv)] at hpos
    exact absurd hpos (lt_irrefl 0)

/-- **An undisturbed instruction** that is not the last one keeps the stack free of repetitions. -/
theorem noRepetition_processInstruction (hundisturbed : Undisturbed node st)
    (hskipped : node.instr.opcode.isSkipped = false) (hstack : NoRepetition st.stack)
    (hinfos : LayoutsTidy st.infos) {p : Processed Block}
    (h : fn.processInstruction stackFixups b node st = some p) :
    LayoutsTidy p.state.infos ∧ (node.isLast = false → NoRepetition p.state.stack) := by
  obtain ⟨mi, infos, fix, s, t, hmi, hprepared, hrun, hexec, rfl⟩ := processInstruction_eq_some h
  refine ⟨layoutsTidy_prepared hprepared hstack hinfos, fun hlast => ?_⟩
  suffices ht : NoRepetition t by
    show NoRepetition (rewriteToSForm mi t)
    unfold rewriteToSForm
    split_ifs
    · exact ht.map fun v => by split_ifs <;> simp
    · exact ht
  unfold modelInstructionExecution at hexec
  split_ifs at hexec with himp
  · obtain rfl := hprepared.fix_eq_nil himp
    cases hrun
    cases hexec
    exact hstack
  · obtain ⟨rest, hrest, rfl⟩ := Option.map_eq_some_iff.mp hexec
    obtain ⟨hnodup, hreads⟩ := hundisturbed hskipped mi hmi himp
    obtain ⟨hrest, hnew⟩ := below_prepared hprepared himp hstack hinfos hlast hreads hrun hrest
    exact hrest.append hnodup hnew

end Step

/-! ## The run -/

/-- A condition on every instruction that a run of the stack model comes to. -/
def RegFunction.AlongRun {Block : Type} [DecidableEq Block] (fn : RegFunction Block)
    (fixups : Fixups) (P : Node → ModelState Block → Prop) (blocks : List Block)
    (startStack : Stack) : Prop :=
  AlongM (fn.runOnBasicBlock fixups)
    (fun b infos => ∀ stack, infos.fixedBegin b = some stack →
      AlongM (fn.processNode fixups b) P ⟨infos, stack⟩ (fn.nodes b))
    (fn.startInfos startStack) blocks

section Run

variable {Block : Type} [DecidableEq Block] (fn : RegFunction Block) {b : Block}

/-- From one instruction of a block to the next. -/
theorem noRepetition_nodesFrom (instrs : List RegInstr) (n : ℕ) {st : ModelState Block}
    (hstack : NoRepetition st.stack) (hinfos : LayoutsTidy st.infos)
    (hrun : AlongM (fn.processNode stackFixups b) Undisturbed st (nodesFrom n instrs)) :
    AlongM (fn.processNode stackFixups b) (fun _ st => NoRepetition st.stack) st
        (nodesFrom n instrs) ∧
      ∀ st', (nodesFrom n instrs).foldlM (fn.processNode stackFixups b) st = some st' →
        LayoutsTidy st'.infos := by
  induction instrs generalizing n st with
  | nil =>
    refine ⟨trivial, fun st' h => ?_⟩
    cases h
    exact hinfos
  | cons mi rest ih =>
    obtain ⟨hundisturbed, hlater⟩ := hrun
    -- the stack is free of repetitions unless nothing follows
    have hstep : ∀ s, fn.processNode stackFixups b st ⟨n, mi, rest.isEmpty⟩ = some s →
        LayoutsTidy s.infos ∧ (rest ≠ [] → NoRepetition s.stack) := by
      intro s hs
      unfold RegFunction.processNode at hs
      split_ifs at hs with hskipped
      · cases hs
        exact ⟨hinfos, fun _ => hstack⟩
      · obtain ⟨p, hp, rfl⟩ := Option.map_eq_some_iff.mp hs
        obtain ⟨htidy, hnext⟩ := noRepetition_processInstruction hundisturbed
          (by simpa using hskipped) hstack hinfos hp
        exact ⟨htidy, fun hne => hnext (by simpa using hne)⟩
    by_cases hne : rest = []
    · subst hne
      refine ⟨⟨hstack, fun _ _ => trivial⟩, fun st' h => ?_⟩
      rw [nodesFrom, nodesFrom, List.foldlM_cons] at h
      obtain ⟨s, hs, h⟩ := Option.bind_eq_some_iff.mp h
      cases h
      exact (hstep st' hs).1
    · refine ⟨⟨hstack, fun s hs => ?_⟩, fun st' h => ?_⟩
      · obtain ⟨htidy, hnext⟩ := hstep s hs
        exact (ih (n + 1) (hnext hne) htidy (hlater s hs)).1
      · rw [nodesFrom, List.foldlM_cons] at h
        obtain ⟨s, hs, h⟩ := Option.bind_eq_some_iff.mp h
        obtain ⟨htidy, hnext⟩ := hstep s hs
        exact (ih (n + 1) (hnext hne) htidy (hlater s hs)).2 st' h

theorem layoutsTidy_startInfos {startStack : Stack} (hstart : NoRepetition startStack) :
    LayoutsTidy (fn.startInfos startStack) := by
  rintro b s (hs | hs)
  · simp only [RegFunction.startInfos] at hs
    split_ifs at hs
    cases hs
    exact hstart
  · cases hs

/-- In a run of undisturbed instructions all layouts are free of repetitions whenever a block
begins. -/
theorem layoutsTidy_alongRun {blocks : List Block} {startStack : Stack}
    (hstart : NoRepetition startStack)
    (hrun : fn.AlongRun stackFixups Undisturbed blocks startStack) :
    AlongM (fn.runOnBasicBlock stackFixups)
      (fun b infos => (∀ stack, infos.fixedBegin b = some stack →
        AlongM (fn.processNode stackFixups b) Undisturbed ⟨infos, stack⟩ (fn.nodes b)) ∧
          LayoutsTidy infos) (fn.startInfos startStack) blocks := by
  refine hrun.and_inv (fun b infos infos' hblock (hinfos : LayoutsTidy infos) h => ?_)
    (layoutsTidy_startInfos fn hstart)
  obtain ⟨stack, hstack, h⟩ := Option.bind_eq_some_iff.mp h
  obtain ⟨st, hst, h⟩ := Option.bind_eq_some_iff.mp h
  cases h
  exact (noRepetition_nodesFrom fn _ 0 (hinfos b stack (Or.inl hstack)) hinfos
    (hblock stack hstack)).2 st hst

/-- **Where a register is masked, and what follows from it.** A register that an instruction
defines and does not use is masked exactly where it is not on the stack. In a run of the stack
model in which every instruction is undisturbed the stack holds no register twice whenever an
instruction is prepared. -/
theorem noRepetition_run (blocks : List Block) (startStack : Stack)
    (hstart : NoRepetition startStack) :
    (∀ s mi, Masked s mi ↔ ¬ Overwritten s mi) ∧
      (fn.AlongRun stackFixups Undisturbed blocks startStack →
        fn.AlongRun stackFixups (fun _ st => NoRepetition st.stack) blocks startStack) := by
  refine ⟨masked_iff, fun hrun => ?_⟩
  refine (layoutsTidy_alongRun fn hstart hrun).imp ?_
  rintro b infos ⟨hblock, hinfos⟩ stack hstack
  exact (noRepetition_nodesFrom fn _ 0 (hinfos b stack (Or.inl hstack)) hinfos
    (hblock stack hstack)).1

end Run

theorem mem_preds_oneBlock (p b : Unit) : p ∈ ([] : List Unit) ↔ b ∈ ([] : List Unit) := Iff.rfl

/-- A function with one block, that no liveness or road is asked about. -/
def straightLine (instrs : List RegInstr) : RegFunction Unit where
  cfg := ⟨(), fun _ => [], fun _ => [], mem_preds_oneBlock⟩
  layout := [()]
  instrs _ := instrs
  road _ := 0
  numVirtRegs := 0
  liveIn _ _ := false
  liveOut _ _ := false
  vnInfoAt _ _ _ := true
  layout_nodup := by simp
  numVirtRegs_lt := by decide
  virtReg_of_live := by simp

/-- Two registers get their values one after the other. -/
theorem noRepetition_run_example :
    (∀ s mi, Masked s mi ↔ ¬ Overwritten s mi) ∧
      (straightLine [loadConst 1 7, loadConst 2 8]).AlongRun stackFixups
        (fun _ st => NoRepetition st.stack) [()] [3] := by
  obtain ⟨hmasked, hrun⟩ := noRepetition_run (straightLine [loadConst 1 7, loadConst 2 8]) [()] [3]
    (noRepetition_iff.mpr (by decide))
  refine ⟨hmasked, hrun ⟨fun stack hstack => ?_, fun _ _ => trivial⟩⟩
  cases hstack
  refine ⟨fun _ mi hmi _ => ?_, fun st hst => ⟨fun _ mi hmi _ => ?_, fun _ _ => trivial⟩⟩
  · cases hmi
    simp [loadConst, RegInstr.defRegs, RegOperand.getReg]
  · cases hst
    cases hmi
    refine ⟨List.nodup_singleton 2, fun v hv _ hmem => ?_⟩
    obtain rfl : v = 2 := List.mem_singleton.mp hv
    exact absurd hmem (by decide)

/-- A register gets a value twice. Its old value is not masked, and the next instruction finds the
register on the stack twice. -/
theorem noRepetition_run_fails :
    ¬ Masked [1] (loadConst 1 8) ∧
      ¬ (straightLine [loadConst 1 7, loadConst 1 8, loadConst 2 9]).AlongRun stackFixups
          (fun _ st => NoRepetition st.stack) [()] [] := by
  constructor
  · rw [masked_iff, not_not]
    exact ⟨1, by simp, by decide, by simp [RegInstr.defRegs, loadConst, RegOperand.getReg],
      by simp [RegInstr.useRegs, loadConst, RegOperand.getReg]⟩
  · intro h
    have hthird := (((h.1 [] rfl).2 _ rfl).2 _ rfl).1
    exact absurd (hthird 1 (by decide)) (by decide)

end TVMCompiler
