import TVMCompiler.StackModel.WholeFunction

/-!
# The stack model translates every block

The stack model looks for operands on the stack, takes slots off it and asks for the layout of a
block that begins, and it generates an instruction for each change. Where one of these is not there
the translation of an instruction is undefined. For the functions below it is defined: what an
instruction reads is live before it, so it is on the stack unless it has been left undefined. The
assertions on the numbers in a change, which a build may leave out, are no part of this.

## Main definitions

* `RegFunction.Translatable`: what the stack model asks of a function

## Main results

* `exists_optimizeReversible`: the operands of a reversible instruction are found
* `exists_translateNode_args`, `exists_translateNode_return`, `exists_translateNode_layout`: the
  ways in which an instruction is prepared
* `exists_translate_innerNodes`, `exists_translateBlock`: one block
* `exists_translateBlocks`: the blocks that are left
-/

namespace TVMCompiler

open Lib

/-- What the stack model asks of a function that it is to translate: nothing reads a register that
has been left undefined before in the block, a reversible instruction has no undefined operand, and
its third one is such as it needs, a jump takes operands, as many different ones as it takes besides
the layout, and the operands of a return and of `HIDDENSTACK` are those that it has. -/
structure RegFunction.Translatable {Block : Type} [DecidableEq Block] [Fintype Block]
    (fn : RegFunction Block) : Prop extends fn.Valid where
  defined : ∀ b before mi rest, fn.instrs b = before ++ mi :: rest → ∀ v ∈ mi.readRegs,
    v ≠ unusedReg ∧ leftUndefined before v = false
  reversed : ∀ b, ∀ mi ∈ fn.instrs b, mi.opcode.reversed.isSome → mi.reversibleTail.isSome ∧
    ∃ left right dl dr tail, mi.uses = .reg left false dl :: .reg right false dr :: tail ∧
      ∀ r isUndef isDead, .reg r isUndef isDead ∈ tail → isUndef = false
  jumps : ∀ b, fn.cfg.succs b ≠ [] → ∀ mi ∈ fn.instrs b, mi.opcode.isTerminator →
    mi.useRegs ≠ [] ∧ mi.opcode.regsToConsume ≤ mi.readRegs.toFinset.card
  returns_reg : ∀ b, ∀ mi ∈ fn.instrs b, mi.opcode.isReturn → ∀ op ∈ mi.uses, op.isReg
  hidden : ∀ b, ∀ mi ∈ fn.instrs b, mi.opcode = .HIDDENSTACK →
    ∃ r isUndef isDead element, mi.defs = [.reg r isUndef isDead] ∧ mi.uses = [.imm element]

/-! ## Reversible instructions -/

section Reversible

variable {instr mi : RegInstr} {stack : Stack}

theorem exists_position {v : StackVreg} (h : v ∈ stack) : ∃ i, position stack v = some i := by
  obtain ⟨i, hi, -⟩ := position_spec h
  exact ⟨i, hi⟩

/-- **The operands of a reversible instruction are found** where they are on the stack. -/
theorem exists_optimizeReversible (hstack : ∀ v ∈ instr.readRegs, v ∈ stack)
    (hreversed : instr.opcode.reversed.isSome → instr.reversibleTail.isSome ∧
      ∃ left right dl dr tail, instr.uses = .reg left false dl :: .reg right false dr :: tail) :
    ∃ mi, optimizeReversible instr stack = some mi := by
  unfold optimizeReversible
  split
  · exact ⟨instr, rfl⟩
  · rename_i opcode hop
    have hsome : instr.opcode.reversed.isSome := by
      rw [hop]
      rfl
    obtain ⟨htail, left, right, dl, dr, tail, huses⟩ := hreversed hsome
    obtain ⟨tail', htail⟩ := Option.isSome_iff_exists.mp htail
    obtain ⟨op, hdefs⟩ := List.length_eq_one_iff.mp (instr.reversible_defs hsome)
    obtain ⟨result, isUndef, isDead, rfl⟩ : ∃ r isUndef isDead, op = .reg r isUndef isDead := by
      have hreg := instr.defs_reg op (hdefs ▸ List.mem_singleton_self op)
      cases op with
      | reg r isUndef isDead => exact ⟨r, isUndef, isDead, rfl⟩
      | _ => cases hreg
    have hread : left ∈ instr.readRegs ∧ right ∈ instr.readRegs := by
      rw [RegInstr.readRegs, huses]
      exact ⟨List.mem_cons_self, List.mem_cons_of_mem _ List.mem_cons_self⟩
    obtain ⟨i, hi⟩ := exists_position (hstack left hread.1)
    obtain ⟨j, hj⟩ := exists_position (hstack right hread.2)
    have hresult : instr.operandReg 0 = some result := by
      rw [RegInstr.operandReg, hdefs]
      rfl
    have hleft : instr.operandReg 1 = some left := by
      rw [RegInstr.operandReg, hdefs, huses]
      rfl
    have hright : instr.operandReg 2 = some right := by
      rw [RegInstr.operandReg, hdefs, huses]
      rfl
    simp only [hresult, hleft, hright, hi, hj, htail, Option.bind_eq_bind, Option.bind_some,
      Option.map_some]
    split_ifs
    · exact ⟨_, rfl⟩
    · exact ⟨instr, rfl⟩

/-- The reversed instruction reads what the instruction reads. -/
theorem readRegs_optimizeReversible (hdesc : instr.Described)
    (hreversed : instr.opcode.reversed.isSome →
      ∃ left right dl dr tail, instr.uses = .reg left false dl :: .reg right false dr :: tail ∧
        ∀ r isUndef isDead, .reg r isUndef isDead ∈ tail → isUndef = false)
    (h : optimizeReversible instr stack = some mi) : mi.readRegs ⊆ instr.readRegs := by
  rcases uses_optimizeReversible hdesc h with rfl | ⟨hrev, left, right, ul, dl, ur, dr, tail, tail',
    huses, huses', htail⟩
  · exact fun _ h => h
  obtain ⟨left', right', dl', dr', tail'', huses'', hdefined⟩ := hreversed (by rw [hrev]; rfl)
  rw [huses] at huses''
  cases huses''
  unfold RegInstr.readRegs
  rw [huses, huses']
  rcases htail with ⟨rfl, rfl⟩ | ⟨value, rfl, rfl⟩ | ⟨r, isUndef, isDead, rfl, rfl⟩
  · exact fun v hv => by simpa [or_comm] using hv
  · exact fun v hv => by simpa [or_comm] using hv
  · obtain rfl := hdefined r isUndef isDead List.mem_cons_self
    exact fun v hv => by simpa [or_left_comm] using hv

end Reversible

/-! ## One instruction -/

section Instruction

variable {Block Label : Type} [DecidableEq Block] {fn : RegFunction Block} {b : Block} {node : Node}
  {st : ModelState Block}

/-- An instruction is translated when it is prepared, its operands are on the stack then, and each
change is generated. -/
theorem exists_translateNode {mi : RegInstr} {infos : BlockInfos Block} {fix : List Change}
    {r : Stack} (hskipped : ¬node.instr.opcode.isSkipped)
    (hmi : optimizeReversible node.instr st.stack = some mi)
    (hprepare : fn.prepareStackFor stackFixups b node mi st = some (infos, fix))
    (hrun : applyAll unusedReg fix st.stack = some r)
    (hlen : mi.opcode ≠ .IMPLICIT_DEF → mi.useRegs.length ≤ r.length)
    (hgen : ∀ c ∈ fix, c.Generated) :
    ∃ st' code,
      fn.translateNode stackFixups b st node = some (st', (code : List (SInstr Label))) := by
  obtain ⟨t, ht⟩ : ∃ t, modelInstructionExecution mi r = some t := by
    by_cases himp : mi.opcode = .IMPLICIT_DEF
    · exact ⟨r, if_pos himp⟩
    · exact ⟨_, modelInstructionExecution_eq himp (hlen himp)⟩
  obtain ⟨is, his⟩ := @exists_mapM_instruction Label _ hgen
  refine ⟨⟨infos, rewriteToSForm mi t⟩, is.flatten.map .fixup ++ if mi.opcode.hasSForm then
    [.sForm mi.opcode mi.sFormOperands mi.useRegs.length mi.defs.length] else [], ?_⟩
  have hprocess : fn.processInstruction stackFixups b node st =
      some ⟨⟨infos, rewriteToSForm mi t⟩, fix, mi⟩ := by
    rw [RegFunction.processInstruction, hmi, Option.bind_eq_bind, Option.bind_some, hprepare]
    show (applyAll unusedReg fix st.stack).bind _ = _
    rw [hrun, Option.bind_some, ht]
    rfl
  rw [RegFunction.translateNode, if_neg hskipped, hprocess]
  show (Processed.code _).bind _ = _
  rw [Processed.code, his]
  rfl

/-- An instruction whose operands are prepared. -/
theorem exists_translateNode_args (hstack : NoRepetition st.stack)
    (hskipped : ¬node.instr.opcode.isSkipped) {mi : RegInstr}
    (hmi : optimizeReversible node.instr st.stack = some mi)
    (hreads : ∀ v ∈ mi.readRegs, v ∈ st.stack) (himp : mi.opcode ≠ .IMPLICIT_DEF)
    (hhidden : mi.opcode ≠ .HIDDENSTACK) (hret : ¬mi.opcode.isReturn)
    (hinner : ¬((mi.opcode.isTerminator ∨ node.isLast) ∧ fn.cfg.succs b ≠ [])) :
    ∃ st' code,
      fn.translateNode stackFixups b st node = some (st', (code : List (SInstr Label))) := by
  have hargs : ArgsPresent st.stack (mi.args (fn.vnInfoAt b node.index)) := fun a ha hne => by
    rcases mi.mem_args ha with rfl | ⟨hread, -⟩
    · exact absurd rfl hne
    · exact hreads _ hread
  obtain ⟨fix, r, hfix, hrun⟩ := exists_DiffForArgs hstack (flagsAgree_args mi _) hargs
    mi.opcode.isCommutable
  obtain ⟨top, rest, rfl, hlen, -⟩ := DiffForArgs_taken hstack (flagsAgree_args mi _)
    (fun h => length_args_of_isCommutable mi _ h) hfix hrun
  have hprepare : fn.prepareStackFor stackFixups b node mi st = some (st.infos, fix) := by
    rw [RegFunction.prepareStackFor, if_neg himp, if_neg hhidden, filteredByMIdefs_eq,
      Option.bind_some, if_neg hret, if_neg hinner]
    exact congrArg (Option.map _) hfix
  refine exists_translateNode hskipped hmi hprepare hrun (fun _ => ?_) (generated_DiffForArgs hfix)
  rw [List.length_append, hlen, mi.length_args]
  exact Nat.le_add_right _ _

/-- A return, from a stack that is not too deep. -/
theorem exists_translateNode_return (hret : node.instr.opcode.isReturn)
    (hops : ∀ op ∈ node.instr.uses, op.isReg) (hreads : ∀ v ∈ node.instr.readRegs, v ∈ st.stack)
    (hlen : st.stack.length ≤ xchgDeepLimit + 1) :
    ∃ st' code,
      fn.translateNode stackFixups b st node = some (st', (code : List (SInstr Label))) := by
  have hterm := RegOpcode.isTerminator_of_isReturn hret
  have hdefs := node.instr.terminator_defs hterm
  have hop := RegOpcode.prepared_of_isTerminator hterm
  suffices hfixup : ∃ fix r, stackFixups.forReturn node.instr st.stack = some fix ∧
      applyAll unusedReg fix st.stack = some r ∧ node.instr.useRegs.length ≤ r.length ∧
      ∀ c ∈ fix, c.Generated by
    obtain ⟨fix, r, hfix, hrun, hle, hgen⟩ := hfixup
    have hprepare : fn.prepareStackFor stackFixups b node node.instr st = some (st.infos, fix) := by
      rw [RegFunction.prepareStackFor, if_neg hop.2.1, if_neg hop.2.2, filteredByMIdefs_eq,
        Option.bind_some, if_pos hret, hfix]
      rfl
    exact exists_translateNode (by rw [hop.1]; exact Bool.false_ne_true)
      (optimizeReversible_of_defs hdefs _) hprepare hrun (fun _ => hle) hgen
  -- the operands in the order of the return, the undefined ones without a register
  obtain ⟨results, hresults, hlength, hon⟩ : ∃ results,
      node.instr.uses.mapM RegOperand.result = some results ∧
        results.length = node.instr.useRegs.length ∧
        ∀ v ∈ results, v ≠ unusedReg → v ∈ node.instr.readRegs := by
    unfold RegInstr.readRegs RegInstr.useRegs
    generalize node.instr.uses = uses at hops
    induction uses with
    | nil => exact ⟨[], rfl, rfl, fun v hv => by cases hv⟩
    | cons op uses ih =>
      obtain ⟨results, hresults, hlength, hon⟩ := ih fun op h => hops op (List.mem_cons_of_mem _ h)
      cases op with
      | reg r isUndef isDead =>
        refine ⟨(if isUndef then unusedReg else r) :: results, ?_, ?_, fun v hv hne => ?_⟩
        · rw [List.mapM_cons, hresults]
          rfl
        · exact congrArg Nat.succ hlength
        · cases isUndef with
          | true =>
            rcases List.mem_cons.mp hv with rfl | hv
            · exact absurd rfl hne
            · exact hon v hv hne
          | false =>
            rcases List.mem_cons.mp hv with rfl | hv
            · exact List.mem_cons_self
            · exact List.mem_cons_of_mem _ (hon v hv hne)
      | _ => cases hops _ List.mem_cons_self
  unfold Fixups.forReturn
  rw [hdefs, List.nil_append]
  rcases huses : node.instr.uses with _ | ⟨op, _ | ⟨op', ops⟩⟩
  · obtain ⟨fix, hfix, hrun⟩ := DiffForReturn_none st.stack
    refine ⟨fix, [], hfix, hrun, ?_, generated_DiffForReturn hlen hfix⟩
    rw [RegInstr.useRegs, huses]
    exact Nat.le_refl 0
  · rw [huses, List.mapM_cons] at hresults
    obtain ⟨reg, hreg, hresults⟩ := Option.bind_eq_some_iff.mp hresults
    cases hresults
    have hone : node.instr.useRegs.length ≤ 1 := by
      rw [← hlength]
      exact Nat.le_refl 1
    simp only [hreg, Option.bind_some]
    by_cases hundef : reg = unusedReg
    · subst hundef
      obtain ⟨fix, v, hfix, hrun⟩ := DiffForReturn_undef st.stack
      exact ⟨fix, [v], hfix, hrun, hone, generated_DiffForReturn hlen hfix⟩
    · obtain ⟨fix, hfix, hrun⟩ :=
        DiffForReturn_reg hundef (hreads reg (hon reg List.mem_cons_self hundef))
      exact ⟨fix, [reg], hfix, hrun, hone, generated_DiffForReturn hlen hfix⟩
  · rw [huses] at hresults
    have hne : results ≠ [] := by
      rintro rfl
      rw [List.mapM_cons] at hresults
      obtain ⟨reg, -, hresults⟩ := Option.bind_eq_some_iff.mp hresults
      obtain ⟨_, -, hnil⟩ := Option.bind_eq_some_iff.mp hresults
      cases hnil
    obtain ⟨fix, r, hfix, hrun, hrlen, -⟩ :=
      DiffForReturnMulti_regs hne fun v hv hne => hreads v (hon v hv hne)
    simp only [hresults, Option.bind_some]
    exact ⟨fix, r, hfix, hrun, by rw [hrlen, hlength], generated_Diff hfix⟩

/-- A jump, which brings the stack to the layout of its road. -/
theorem exists_translateNode_layout (hb : b ∈ fn.layout) (hterm : node.instr.opcode.isTerminator)
    (hret : ¬node.instr.opcode.isReturn) (hsuccs : fn.cfg.succs b ≠ [])
    (huses : node.instr.useRegs ≠ [])
    (hconsume : node.instr.opcode.regsToConsume ≤ node.instr.readRegs.toFinset.card)
    (hreads : ∀ v ∈ node.instr.readRegs, v ∈ st.stack) :
    ∃ st' code,
      fn.translateNode stackFixups b st node = some (st', (code : List (SInstr Label))) := by
  have hop := RegOpcode.prepared_of_isTerminator hterm
  have hdeep : node.instr.opcode.regsToConsume ≤ st.stack.length := by
    refine hconsume.trans (le_trans (Finset.card_le_card fun v hv => ?_)
      (List.toFinset_card_le st.stack))
    exact List.mem_toFinset.mpr (hreads v (List.mem_toFinset.mp hv))
  obtain ⟨st', h⟩ := exists_processNode_terminator hb hterm hret hsuccs huses hdeep
  rw [RegFunction.processNode, if_neg (by rw [hop.1]; exact Bool.false_ne_true)] at h
  obtain ⟨p, hp, -⟩ := Option.map_eq_some_iff.mp h
  simp only [RegFunction.processInstruction, Option.bind_eq_bind, Option.bind_eq_some_iff] at hp
  obtain ⟨mi, hmi, ⟨infos, fix⟩, hprepare, r, hr, t, ht, -⟩ := hp
  refine exists_translateNode (by rw [hop.1]; exact Bool.false_ne_true) hmi hprepare hr
    (fun himp => ?_) ?_
  · rw [modelInstructionExecution, if_neg himp] at ht
    obtain ⟨rest, hrest, -⟩ := Option.map_eq_some_iff.mp ht
    exact (consumeArguments_eq_some.mp hrest).1
  · -- the fixup is a diff
    obtain rfl := Option.some.inj
      ((optimizeReversible_of_defs (node.instr.terminator_defs hterm) st.stack).symm.trans hmi)
    rw [RegFunction.prepareStackFor, if_neg hop.2.1, if_neg hop.2.2, filteredByMIdefs_eq,
      Option.bind_some, if_neg hret, if_pos ⟨Or.inl hterm, hsuccs⟩] at hprepare
    simp only [RegFunction.prepareLayout, Option.bind_eq_bind, Option.bind_eq_some_iff] at hprepare
    obtain ⟨_, -, _, -, _, hfix, heq⟩ := hprepare
    cases heq
    exact generated_Diff hfix

end Instruction

/-! ## One block -/

section Block

variable {Block Label : Type} [DecidableEq Block] [Fintype Block] {fn : RegFunction Block} {b : Block}
  {before rest : List RegInstr} {mi : RegInstr} {st : ModelState Block}

/-- What an instruction reads is on the stack. -/
theorem mem_stack_of_readRegs (hfn : fn.Translatable) (hb : fn.instrs b = before ++ mi :: rest)
    (hon : LiveOnStack fn b before st.stack) : ∀ v ∈ mi.readRegs, v ∈ st.stack := by
  intro v hv
  have hget : (fn.instrs b)[before.length]? = some mi := by
    rw [hb, List.getElem?_append_right (Nat.le_refl _), Nat.sub_self]
    rfl
  obtain ⟨hne, hdefined⟩ := hfn.defined b before mi rest hb v hv
  exact hon v hne (hfn.readsLive b before.length mi v hget hv hne) hdefined

/-- **An instruction that is no terminator.** -/
theorem exists_translateNode_inner (hfn : fn.Translatable) (hb : fn.instrs b = before ++ mi :: rest)
    (hterm : mi.opcode.isTerminator = false) (hstack : NoRepetition st.stack)
    (hon : LiveOnStack fn b before st.stack) :
    ∃ st' code, fn.translateNode stackFixups b st ⟨before.length, mi, false⟩ =
      some (st', (code : List (SInstr Label))) := by
  have hmem : mi ∈ fn.instrs b := hb ▸ List.mem_append_right _ List.mem_cons_self
  have hreads := mem_stack_of_readRegs hfn hb hon
  by_cases hskipped : mi.opcode.isSkipped
  · exact ⟨st, [], if_pos hskipped⟩
  obtain ⟨mi', hmi'⟩ := exists_optimizeReversible hreads fun h =>
    (hfn.reversed b mi hmem h).imp_right fun ⟨left, right, dl, dr, tail, huses, _⟩ =>
      ⟨left, right, dl, dr, tail, huses⟩
  have hterm' := isTerminator_optimizeReversible hterm hmi'
  by_cases himp : mi'.opcode = .IMPLICIT_DEF
  · have hprepare : fn.prepareStackFor stackFixups b ⟨before.length, mi, false⟩ mi' st =
        some (st.infos, []) := if_pos himp
    exact exists_translateNode hskipped hmi' hprepare rfl (fun h => absurd himp h)
      fun c hc => by cases hc
  by_cases hhidden : mi'.opcode = .HIDDENSTACK
  · -- it is not reversed, and its push does nothing to the model stack
    obtain rfl : mi' = mi := by
      rcases optimizeReversible_eq_some hmi' with heq | ⟨hreversed, -⟩
      · exact heq
      · exact absurd hhidden (RegOpcode.prepared_reversed hreversed).2.2
    obtain ⟨r, isUndef, isDead, element, hdefs, huses⟩ := hfn.hidden b mi' hmem hhidden
    have hfix : diffForHiddenStack mi' st.stack =
        some [.pushHidden (st.stack.length + element.toNat) r] := by
      rw [diffForHiddenStack, hdefs, huses]
    have hprepare : fn.prepareStackFor stackFixups b ⟨before.length, mi', false⟩ mi' st =
        some (st.infos, [.pushHidden (st.stack.length + element.toNat) r]) := by
      rw [RegFunction.prepareStackFor, if_neg himp, if_pos hhidden, hfix]
      rfl
    refine exists_translateNode hskipped hmi' hprepare rfl (fun _ => ?_) fun c hc => ?_
    · rw [(diffForHiddenStack_eq_some hfix).2.1]
      exact Nat.zero_le _
    · obtain rfl := List.mem_singleton.mp hc
      rintro i ⟨⟩
  · refine exists_translateNode_args hstack hskipped hmi' (fun v hv => hreads v ?_) himp hhidden
      (fun hret => ?_) ?_
    · refine readRegs_optimizeReversible (hfn.described b mi hmem) (fun h => ?_) hmi' hv
      exact (hfn.reversed b mi hmem h).2
    · rw [RegOpcode.isTerminator_of_isReturn hret] at hterm'
      cases hterm'
    · rw [hterm']
      rintro ⟨⟨⟨⟩⟩ | ⟨⟨⟩⟩, -⟩

/-- A return is made from a stack of at most 256 slots. -/
def ShallowReturn (node : Node) (st : ModelState Block) : Prop :=
  node.instr.opcode.isReturn → st.stack.length ≤ xchgDeepLimit + 1

/-- The instructions in front of the last one. -/
theorem exists_translate_innerNodes (hfn : fn.Translatable) {instrs : List RegInstr}
    (hb : fn.instrs b = before ++ (instrs ++ rest))
    (hterm : ∀ mi ∈ instrs, mi.opcode.isTerminator = false) (hstack : NoRepetition st.stack)
    (htidy : LayoutsTidy st.infos) (hon : LiveOnStack fn b before st.stack)
    (hrun : AlongM (fn.processNode stackFixups b) Undisturbed st (innerNodes before.length instrs)) :
    ∃ st' code, fn.translate stackFixups b (innerNodes before.length instrs) st =
        some (st', (code : List (SInstr Label))) ∧
      NoRepetition st'.stack ∧ LiveOnStack fn b (before ++ instrs) st'.stack := by
  induction instrs generalizing before st with
  | nil =>
    rw [List.append_nil]
    exact ⟨st, [], rfl, hstack, hon⟩
  | cons mi instrs ih =>
    have hterm' := hterm mi List.mem_cons_self
    obtain ⟨mid, first, hfirst⟩ := @exists_translateNode_inner Block Label _ _ fn b before _ mi st
      hfn hb hterm' hstack hon
    have hprocess := RegFunction.processNode_of_translateNode hfirst
    have hon' := hon.processNode (hfn.skipped b) hfn.liveness hb hterm' hstack hprocess
    obtain ⟨htidy', hstack'⟩ : LayoutsTidy mid.infos ∧ NoRepetition mid.stack := by
      have hnode := hprocess
      rw [RegFunction.processNode] at hnode
      split_ifs at hnode with hskipped
      · cases hnode
        exact ⟨htidy, hstack⟩
      · obtain ⟨p, hp, rfl⟩ := Option.map_eq_some_iff.mp hnode
        exact (noRepetition_processInstruction hrun.1 (by simpa using hskipped) hstack htidy
          hp).imp_right fun h => h rfl
    -- the rest begins one instruction later
    have hlength : (before ++ [mi]).length = before.length + 1 := List.length_append
    have hlater := hrun.2 mid hprocess
    rw [← hlength] at hlater
    have hb' : fn.instrs b = (before ++ [mi]) ++ (instrs ++ rest) := by
      rw [hb, List.append_assoc]
      rfl
    obtain ⟨st', code, hcode, hresult⟩ :=
      ih hb' (fun mi h => hterm mi (List.mem_cons_of_mem _ h)) hstack' htidy' hon' hlater
    refine ⟨st', first ++ code, ?_, ?_⟩
    · rw [hlength] at hcode
      rw [innerNodes, RegFunction.translate, hfirst]
      show (fn.translate stackFixups b (innerNodes (before.length + 1) instrs) mid).bind _ = _
      rw [hcode]
      rfl
    · rw [List.append_cons before mi instrs]
      exact hresult

/-- **One block** that begins in its layout. -/
theorem exists_translateBlock (hfn : fn.Translatable) {infos : BlockInfos Block}
    (hjoined : LayoutsJoined fn infos) (htidy : LayoutsTidy infos) {stack : Stack}
    (hbegin : infos.fixedBegin b = some stack)
    (hrun : AlongM (fn.processNode stackFixups b)
      (fun node st => Undisturbed node st ∧ ShallowReturn node st) ⟨infos, stack⟩ (fn.nodes b)) :
    ∃ infos' code, fn.translateBlock stackFixups b infos =
      some (infos', (code : List (SInstr Label))) := by
  obtain ⟨init, term, hinstrs, hterm, hinit⟩ := hfn.terminated b
  have hnodes : fn.nodes b = innerNodes 0 init ++ [⟨init.length, term, true⟩] := by
    rw [RegFunction.nodes, hinstrs, nodesFrom_append 0 init (List.cons_ne_nil _ _), Nat.zero_add]
    rfl
  rw [hnodes] at hrun
  have hsplit : fn.instrs b = [] ++ (init ++ [term]) := hinstrs
  have hon : LiveOnStack fn b [] stack := fun v _ hv _ => hjoined.begins b stack hbegin v hv
  obtain ⟨mid, first, hfirst, hmid, hon⟩ : ∃ st' code,
      fn.translate stackFixups b (innerNodes 0 init) ⟨infos, stack⟩ =
        some (st', (code : List (SInstr Label))) ∧
      NoRepetition st'.stack ∧ LiveOnStack fn b init st'.stack :=
    exists_translate_innerNodes hfn hsplit hinit (htidy b stack (Or.inl hbegin)) htidy hon
      (hrun.left.imp fun _ _ h => h.1)
  have hmem : term ∈ fn.instrs b := hinstrs ▸ List.mem_append_right _ List.mem_cons_self
  have hreads := mem_stack_of_readRegs hfn hinstrs hon
  have hshallow := (hrun.at (RegFunction.foldlM_of_translate hfirst)).2
  obtain ⟨st', last, hlast⟩ : ∃ st' code, fn.translateNode stackFixups b mid
      ⟨init.length, term, true⟩ = some (st', (code : List (SInstr Label))) := by
    by_cases hret : term.opcode.isReturn
    · exact exists_translateNode_return hret (hfn.returns_reg b term hmem hret) hreads (hshallow hret)
    by_cases hsuccs : fn.cfg.succs b = []
    · -- no block follows
      have hop := RegOpcode.prepared_of_isTerminator hterm
      exact exists_translateNode_args hmid (by rw [hop.1]; exact Bool.false_ne_true)
        (optimizeReversible_of_defs (term.terminator_defs hterm) _) hreads hop.2.1 hop.2.2 hret
        fun h => h.2 hsuccs
    · obtain ⟨huses, hconsume⟩ := hfn.jumps b hsuccs term hmem hterm
      exact exists_translateNode_layout (hfn.mem_layout b) hterm hret hsuccs huses hconsume hreads
  have hend :
      fn.translate stackFixups b [⟨init.length, term, true⟩] mid = some (st', last ++ []) := by
    rw [RegFunction.translate, hlast]
    rfl
  refine ⟨st'.infos, first ++ (last ++ []), ?_⟩
  rw [RegFunction.translateBlock, hbegin, Option.bind_eq_bind, Option.bind_some, hnodes,
    RegFunction.translate_append hfirst hend]
  rfl

/-- **The blocks that are left**, when the layouts of those that come before are fixed. -/
theorem exists_translateBlocks (hfn : fn.Translatable) {pre blocks : List Block}
    (hblocks : ReversePostOrder fn.cfg (pre ++ blocks)) {infos : BlockInfos Block}
    (hjoined : LayoutsJoined fn infos) (htidy : LayoutsTidy infos)
    (hends : ∀ p ∈ pre, fn.cfg.succs p ≠ [] → (infos.fixedEnd p).isSome)
    (hrun : AlongM (fn.runOnBasicBlock stackFixups)
      (fun b infos => ∀ stack, infos.fixedBegin b = some stack →
        AlongM (fn.processNode stackFixups b)
          (fun node st => Undisturbed node st ∧ ShallowReturn node st) ⟨infos, stack⟩ (fn.nodes b))
      infos blocks) :
    ∃ infos' program, fn.translateBlocks stackFixups blocks infos =
      some (infos', (program : List (Block × List (SInstr Label)))) := by
  induction blocks generalizing pre infos with
  | nil => exact ⟨infos, [], rfl⟩
  | cons b blocks ih =>
    obtain ⟨stack, hbegin⟩ : ∃ stack, infos.fixedBegin b = some stack := by
      rcases hblocks.pred pre b blocks rfl with rfl | ⟨p, hp, hb⟩
      · exact Option.isSome_iff_exists.mp hjoined.entry
      · obtain ⟨after, hafter⟩ :=
          Option.isSome_iff_exists.mp (hends p hp (List.ne_nil_of_mem hb))
        exact ⟨_, (hjoined.joined p after hafter b hb).1⟩
    have hblock := hrun.1 stack hbegin
    obtain ⟨mid, code, hcode⟩ := @exists_translateBlock Block Label _ _ fn b hfn infos hjoined htidy
      stack hbegin hblock
    obtain ⟨_, st, hbegin', hst, rfl, hturn⟩ := RegFunction.translateBlock_eq_some hcode
    obtain rfl := Option.some.inj (hbegin'.symm.trans hbegin)
    obtain ⟨-, htidy'⟩ := noRepetition_nodesFrom fn (fn.instrs b) 0
      (htidy b _ (Or.inl hbegin)) htidy (hblock.imp fun _ _ h => h.1)
    have hends' : ∀ p ∈ pre ++ [b], fn.cfg.succs p ≠ [] → (st.infos.fixedEnd p).isSome := by
      intro p hp hsuccs
      rcases List.mem_append.mp hp with hp | hp
      · obtain ⟨after, hafter⟩ := Option.isSome_iff_exists.mp (hends p hp hsuccs)
        have hfixed : Fixed fn p after infos := ⟨hjoined, hafter⟩
        rw [(hfixed.runOnBasicBlock hfn.toWellFormed hturn).2]
        rfl
      · -- the terminator of the block fixes the layout
        obtain rfl := List.mem_singleton.mp hp
        obtain ⟨init, term, hinstrs, hterm, -⟩ := hfn.terminated p
        have hbrings : fn.BringsToLayout p := by
          refine ⟨⟨init.length, term, true⟩, ?_, Or.inl hterm, ?_⟩
          · rw [RegFunction.nodes, hinstrs, nodesFrom_append 0 init (List.cons_ne_nil _ _),
              Nat.zero_add]
            exact List.mem_append_right _ List.mem_cons_self
          · exact RegOpcode.prepared_of_isTerminator hterm
        obtain ⟨after, -, hafter⟩ := exists_fixed_of_runOnBasicBlock hfn.toWellFormed hsuccs hbrings
          hjoined hturn
        rw [hafter]
        rfl
    obtain ⟨infos', program, hprogram⟩ := ih ((List.append_cons pre b blocks) ▸ hblocks)
      (hjoined.runOnBasicBlock hfn.toWellFormed hturn)
      (htidy' st (RegFunction.foldlM_of_translate hst)) hends' (hrun.2 st.infos hturn)
    refine ⟨infos', (b, code) :: program, ?_⟩
    rw [RegFunction.translateBlocks, hcode]
    show (fn.translateBlocks stackFixups blocks st.infos).bind _ = _
    rw [hprogram]
    rfl

/-- **Every block is translated** in a run of undisturbed instructions that returns from stacks of
at most 256 slots: what the stack model looks for is there, and each change has an instruction. -/
theorem translateBlocks_defined (hfn : fn.Translatable) {blocks : List Block}
    (hblocks : ReversePostOrder fn.cfg blocks) {startStack : Stack}
    (hstart : NoRepetition startStack) (hargs : ∀ v, fn.liveIn fn.cfg.entry v → v ∈ startStack)
    (hrun : fn.AlongRun stackFixups
      (fun node st => Undisturbed node st ∧ ShallowReturn node st) blocks startStack) :
    ∃ infos program, fn.translateBlocks stackFixups blocks (fn.startInfos startStack) =
        some (infos, (program : List (Block × List (SInstr Label)))) ∧
      program.map Prod.fst = blocks := by
  have hpre : ReversePostOrder fn.cfg ([] ++ blocks) := hblocks
  obtain ⟨infos, program, hprogram⟩ := @exists_translateBlocks Block Label _ _ fn hfn [] blocks
    hpre _ (layoutsJoined_startInfos hargs) (layoutsTidy_startInfos fn hstart)
    (fun p hp => by cases hp) hrun
  exact ⟨infos, program, hprogram, RegFunction.map_fst_of_translateBlocks hprogram⟩

end Block

/-! ## A jump to a return -/

theorem valid_jumpReturn : jumpReturn.Valid := by
  have hfn : (jumpAfter (loadConst (index2VirtReg 0) 7)).WellFormed :=
    wellFormed_jumpAfter (by decide) (by decide)
  refine ⟨⟨hfn.reachable, hfn.mem_layout, hfn.roads, fun b mi hmi hret => ?_,
    fun b mi hmi hskipped => ?_⟩,
    livenessSound_jumpReturn, fun b n mi v hget hv _ => ?_, described_jumpReturn, fun b => ?_,
    fun p => ?_⟩
  · rcases mem_instrs_jumpReturn hmi with ⟨rfl, rfl⟩ | ⟨rfl, rfl | rfl | rfl⟩
    · rfl
    all_goals cases hret
  · rcases mem_instrs_jumpReturn hmi with ⟨rfl, rfl⟩ | ⟨rfl, rfl | rfl | rfl⟩ <;> cases hskipped
  · -- only the last instruction of a block reads a register
    cases b with
    | true =>
      rcases n with _ | n
      · cases hget
        obtain rfl := List.mem_singleton.mp hv
        rfl
      · cases hget
    | false =>
      rcases n with _ | _ | _ | n
      · cases hget
        cases hv
      · cases hget
        cases hv
      · cases hget
        obtain rfl := List.mem_singleton.mp hv
        refine ⟨rfl, fun mi hmi => ?_⟩
        cases hmi
        exact List.not_mem_nil
      · cases hget
  · cases b with
    | true => exact ⟨[], ret (index2VirtReg 0), rfl, rfl, fun mi hmi => by cases hmi⟩
    | false =>
      refine ⟨[loadConst (index2VirtReg 0) 7, pushcontMbb (index2VirtReg 1) 1],
        jmpx (index2VirtReg 1), rfl, rfl, fun mi hmi => ?_⟩
      rcases List.mem_cons.mp hmi with rfl | hmi
      · rfl
      · obtain rfl := List.mem_singleton.mp hmi
        rfl
  · cases p with
    | true => exact List.not_mem_nil
    | false => exact fun h => Bool.false_ne_true (List.mem_singleton.mp h)

theorem translatable_jumpReturn : jumpReturn.Translatable := by
  refine ⟨valid_jumpReturn, fun b before mi rest hb v hv => ?_, fun b mi hmi hrev => ?_,
    fun b hsuccs mi hmi hterm => ?_, fun b mi hmi hret op hop => ?_, fun b mi hmi hop => ?_⟩
  · have hmi : mi ∈ jumpReturn.instrs b := hb ▸ List.mem_append_right _ List.mem_cons_self
    -- nothing is left undefined
    have hvalue : leftUndefined before v = false := by
      unfold leftUndefined
      cases hlast : (before.filter fun mi => decide (v ∈ mi.defRegs)).getLast? with
      | none => rfl
      | some mi' =>
        have hmem : mi' ∈ jumpReturn.instrs b := hb ▸ List.mem_append_left _
          (List.mem_of_mem_filter (List.mem_of_getLast? hlast))
        rcases mem_instrs_jumpReturn hmem with ⟨-, rfl⟩ | ⟨-, rfl | rfl | rfl⟩ <;> rfl
    refine ⟨?_, hvalue⟩
    rcases mem_instrs_jumpReturn hmi with ⟨-, rfl⟩ | ⟨-, rfl | rfl | rfl⟩
    · obtain rfl := List.mem_singleton.mp hv
      decide
    · cases hv
    · cases hv
    · obtain rfl := List.mem_singleton.mp hv
      decide
  · rcases mem_instrs_jumpReturn hmi with ⟨-, rfl⟩ | ⟨-, rfl | rfl | rfl⟩ <;> cases hrev
  · rcases mem_instrs_jumpReturn hmi with ⟨rfl, rfl⟩ | ⟨-, rfl | rfl | rfl⟩
    · exact absurd rfl hsuccs
    · cases hterm
    · cases hterm
    · exact ⟨List.cons_ne_nil _ _, Nat.le_refl 1⟩
  · rcases mem_instrs_jumpReturn hmi with ⟨-, rfl⟩ | ⟨-, rfl | rfl | rfl⟩
    · obtain rfl := List.mem_singleton.mp hop
      rfl
    all_goals cases hret
  · rcases mem_instrs_jumpReturn hmi with ⟨-, rfl⟩ | ⟨-, rfl | rfl | rfl⟩ <;> cases hop

/-- The second block begins with register 0 on the stack. -/
theorem fixedBegin_jumpReturn {infos : BlockInfos Bool}
    (h : jumpReturn.runOnBasicBlock stackFixups (jumpReturn.startInfos []) false = some infos) :
    infos.fixedBegin true = some [index2VirtReg 0] := by
  obtain ⟨st, hst, heq⟩ := Option.bind_eq_some_iff.mp h
  obtain rfl := Option.some.inj heq
  have hjump : jumpReturn.processNode stackFixups false
      ⟨jumpReturn.startInfos [], [index2VirtReg 1, index2VirtReg 0]⟩
      ⟨2, jmpx (index2VirtReg 1), true⟩ = some st := (Option.bind_fun_some _).symm.trans hst
  obtain ⟨p, hp, rfl⟩ := Option.map_eq_some_iff.mp hjump
  obtain ⟨mi, infos, fix, s, t, hmi, hprepared, -, -, rfl⟩ := processInstruction_eq_some hp
  cases hmi
  cases hprepared with
  | implicitDef hop => cases hop
  | hiddenStack hop => cases hop
  | ret hop => cases hop
  | args _ hinner => exact absurd ⟨Or.inl rfl, List.cons_ne_nil _ _⟩ hinner
  | layout _ _ _ hfix =>
    -- the layout of the road is known before the fixup
    obtain ⟨_, -, heq⟩ := Option.bind_eq_some_iff.mp hfix
    cases heq
    rfl

/-- Every instruction is undisturbed and has one operand at most, and the stack is never deep. -/
theorem run_jumpReturn {P : Bool → Node → ModelState Bool → Prop}
    (hP : ∀ b node (st : ModelState Bool), Undisturbed node st → Arranged jumpReturn b node st →
      ShallowReturn node st → P b node st) :
    AlongM (jumpReturn.runOnBasicBlock stackFixups)
      (fun b infos => ∀ stack, infos.fixedBegin b = some stack →
        AlongM (jumpReturn.processNode stackFixups b) (P b) ⟨infos, stack⟩ (jumpReturn.nodes b))
      (jumpReturn.startInfos []) [false, true] := by
  have hone {b : Bool} {node : Node} {st : ModelState Bool} {r : StackVreg}
      (hnode : node.instr = jmpx r ∨ node.instr = ret r)
      (hst : node.instr.opcode.isReturn → st.stack.length ≤ xchgDeepLimit + 1) : P b node st := by
    have hmi {mi : RegInstr} (h : optimizeReversible node.instr st.stack = some mi) :
        mi = node.instr := by
      rcases hnode with hnode | hnode <;> rw [hnode] at h ⊢ <;> exact (Option.some.inj h).symm
    refine hP b node st (fun _ mi h _ => ?_) (arranged_of_length fun mi h => ?_) hst
    · rw [hmi h]
      rcases hnode with hnode | hnode <;> rw [hnode] <;>
        exact ⟨List.nodup_nil, fun v hv => by cases hv⟩
    · rw [hmi h]
      rcases hnode with hnode | hnode <;> rw [hnode] <;>
        exact fun h => absurd (Nat.succ.inj h) (Nat.zero_ne_add_one 1)
  refine ⟨fun stack hstack => ?_, fun infos hinfos => ⟨fun stack hstack => ?_, fun _ _ => trivial⟩⟩
  · cases hstack
    have hshallow {node : Node} {st : ModelState Bool} (h : node.instr.opcode.isReturn = false) :
        ShallowReturn node st := fun hret => by
      rw [h] at hret
      cases hret
    refine ⟨hP _ _ _ prepares_jumpReturn.1.1 prepares_jumpReturn.1.2 (hshallow rfl),
      fun st hst => ?_⟩
    obtain ⟨⟨hundisturbed, harranged⟩, -⟩ := prepares_jumpReturn.2 st hst
    exact ⟨hP _ _ _ hundisturbed harranged (hshallow rfl), fun _ _ =>
      ⟨hone (Or.inl rfl) nofun, fun _ _ => trivial⟩⟩
  · obtain rfl := Option.some.inj ((fixedBegin_jumpReturn hinfos).symm.trans hstack)
    exact ⟨hone (Or.inr rfl) fun _ => Nat.le_add_left 1 xchgDeepLimit, fun _ _ => trivial⟩

theorem translateBlocks_defined_jumpReturn :
    ∃ infos program, jumpReturn.translateBlocks stackFixups [false, true]
        (jumpReturn.startInfos []) = some (infos, (program : List (Bool × List (SInstr Bool)))) ∧
      program.map Prod.fst = [false, true] :=
  translateBlocks_defined translatable_jumpReturn reversePostOrder_jumpCfg
    (noRepetition_iff.mpr rfl) (fun v hv => by cases hv)
    (run_jumpReturn fun _ _ _ hundisturbed _ hshallow => ⟨hundisturbed, hshallow⟩)

/-- A jump goes to the block of its continuation. -/
def jumpCont (_ : RegOpcode) (_ : List RegOperand) (st : Unit) :
    List (Value Bool Empty) → Option (Unit × Bool)
  | [.cont bb] => some (st, bb)
  | _ => none

theorem regs_of_pushcont {hidden : List (Value Bool Empty)} {s s' : RegState Bool Empty Unit}
    {r : StackVreg} {bb : ℕ} (h : RegStep pushMeaning hidden (pushcontMbb r bb) s (some s')) :
    s'.regs r = some (.cont (bb == 1)) := by
  generalize hout : some s' = out at h
  cases h with
  | skipped _ hop => cases hop
  | implicitDef _ hop => cases hop
  | hiddenStack _ hop => cases hop
  | exec _ _ _ hreads =>
    cases hreads
    cases hout
    exact Function.update_self r _ _

/-- The first block jumps to the second one only. -/
theorem jump_jumpReturn {c c' : Bool × RegState Bool Empty Unit}
    (h : jumpReturn.RegBlock pushMeaning jumpCont [] c (.inl c')) :
    c'.1 ∈ jumpReturn.cfg.succs c.1 := by
  generalize hout : Sum.inl c' = out at h
  cases h with
  | throws => cases hout
  | @leaves b init rest term s s' out hb hrun hleaves =>
    have hterm : term ∈ jumpReturn.instrs b := hb ▸ List.mem_append_right _ List.mem_cons_self
    cases hleaves with
    | ret => cases hout
    | throws => cases hout
    | @jump xs st bb _ hop hret hreads hjump =>
      cases hout
      rcases mem_instrs_jumpReturn hterm with ⟨-, rfl⟩ | ⟨rfl, rfl | rfl | rfl⟩
      · exact absurd rfl hret
      · cases hop
      · cases hop
      · -- register 1 is the continuation of the second block
        obtain rfl : init = [loadConst (index2VirtReg 0) 7, pushcontMbb (index2VirtReg 1) 1] := by
          have hb : [loadConst (index2VirtReg 0) 7, pushcontMbb (index2VirtReg 1) 1,
            jmpx (index2VirtReg 1)] = init ++ jmpx (index2VirtReg 1) :: rest := hb
          rcases init with _ | ⟨_, _ | ⟨_, _ | ⟨_, init⟩⟩⟩
          · cases congrArg RegInstr.opcode (List.cons.inj hb).1
          · cases congrArg RegInstr.opcode (List.cons.inj (List.cons.inj hb).2).1
          · cases hb
            rfl
          · cases init <;> cases (List.cons.inj (List.cons.inj (List.cons.inj hb).2).2).2
        cases hrun with
        | cons _ hrun =>
          cases hrun with
          | cons hstep hrun =>
            cases hrun
            cases hreads with
            | cons hx hnil =>
              cases hnil
              obtain rfl := hx rfl (by decide) _ (regs_of_pushcont hstep)
              cases hjump
              exact List.mem_singleton_self true

/-- What the translation of the two blocks does to the empty stack. -/
theorem translateBlocks_refines_jumpReturn :
    ∃ infos program, jumpReturn.translateBlocks stackFixups [false, true]
        (jumpReturn.startInfos []) = some (infos, program) ∧
      Refines (jumpReturn.RegBlock pushMeaning jumpCont [])
        (fun d out => machineStep pushMeaning jumpCont program d = out)
        (false, ⟨fun _ => none, ()⟩) (false, (), []) ∧
      (¬Diverges (jumpReturn.RegBlock pushMeaning jumpCont []) (false, ⟨fun _ => none, ()⟩) →
        ∃ w, Ends (fun d out => machineStep pushMeaning jumpCont program d = out) (false, (), []) w ∧
          Ends (jumpReturn.RegBlock pushMeaning jumpCont []) (false, ⟨fun _ => none, ()⟩) w) := by
  have hpre : ReversePostOrder jumpReturn.cfg ([] ++ [false, true]) := reversePostOrder_jumpCfg
  obtain ⟨infos, program, hprogram⟩ := @exists_translateBlocks Bool Bool _ _ jumpReturn
    translatable_jumpReturn [] [false, true] hpre (jumpReturn.startInfos [])
    (layoutsJoined_startInfos fun v hv => by cases hv)
    (layoutsTidy_startInfos jumpReturn (noRepetition_iff.mpr rfl)) (fun p hp => by cases hp)
    (run_jumpReturn fun _ _ _ hundisturbed _ hshallow => ⟨hundisturbed, hshallow⟩)
  exact ⟨infos, program, hprogram, translateBlocks_refines valid_jumpReturn reversePostOrder_jumpCfg
    (noRepetition_iff.mpr rfl) (fun v hv => by cases hv)
    (run_jumpReturn fun _ _ _ hundisturbed harranged _ => ⟨hundisturbed, harranged⟩) hprogram
    List.Forall₂.nil fun _ _ _ => jump_jumpReturn⟩

end TVMCompiler
