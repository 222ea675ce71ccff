import TVMCompiler.StackModel.Preservation

/-!
# The code of a function means what its register form means

In front of the last instruction of a block the stack holds the values of the registers. A return
leaves its operands to the caller. Any other terminator leaves the layout of the road, in which a
register that is live into the next block has its slot there, or has been left undefined. So the
machine goes from block to block as the register form does.

## Main definitions

* `RegFunction.Valid`: what holds of the functions that reach the stack model
* `RegFunction.Prepares`: no instruction of the run is one that the stack model gets wrong
* `Settled`: the layout of a block stays as it is

## Main results

* `regs_of_leftUndefined`: a register that is left undefined has no value
* `translateNode_leaves`: the terminator of a block
* `translateBlocks_refines`: the code of a function refines its register form
-/

namespace TVMCompiler

open Lib

/-! ## Slots -/

section Slots

variable {Label Data : Type} {regs : StackVreg → Option (Value Label Data)} {stack wanted : Stack}
  {values : List (Value Label Data)}

/-- The values may be named by other registers, where these are in the same slots or undefined. -/
theorem Holds.of_slots (h : Holds regs stack values) (hlength : wanted.length = stack.length)
    (hslots : ∀ (k : ℕ) v, wanted[k]? = some v → v ≠ unusedReg →
      stack[k]? = some v ∨ regs v = none) : Holds regs wanted values := by
  induction h generalizing wanted with
  | nil =>
    obtain rfl := List.length_eq_zero_iff.mp hlength
    exact List.Forall₂.nil
  | @cons v x stack values hx _ ih =>
    cases wanted with
    | nil => cases hlength
    | cons w wanted =>
      refine List.Forall₂.cons (fun hne y hy => ?_)
        (ih (Nat.succ.inj hlength) fun k => hslots (k + 1))
      rcases hslots 0 w rfl hne with hv | hnone
      · cases hv
        exact hx hne y hy
      · rw [hnone] at hy
        cases hy

/-- The values of registers that an instruction returns are those of its operands. -/
theorem reads_of_results {ops : List RegOperand} {results : List StackVreg}
    (hresults : ops.mapM RegOperand.result = some results) (h : Holds regs results values) :
    Reads regs ops values := by
  unfold Reads
  induction ops generalizing results values with
  | nil =>
    cases hresults
    cases h
    exact List.Forall₂.nil
  | cons op ops ih =>
    rw [List.mapM_cons] at hresults
    obtain ⟨v, hv, hresults⟩ := Option.bind_eq_some_iff.mp hresults
    obtain ⟨vs, hvs, heq⟩ := Option.bind_eq_some_iff.mp hresults
    cases heq
    cases h with
    | cons hx hrest =>
      cases op with
      | reg r isUndef isDead =>
        refine List.Forall₂.cons (fun hundef => ?_) (ih hvs hrest)
        cases hundef
        cases hv
        exact hx
      | _ => cases hv

end Slots

/-! ## Registers that are left undefined -/

section Undefined

variable {Label Data State : Type} {meaning : Meaning Label Data State}
  {hidden : List (Value Label Data)} {mi : RegInstr} {s s' : RegState Label Data State}

theorem RegStep.regs_implicitDef (h : RegStep meaning hidden mi s (some s'))
    (hop : mi.opcode = .IMPLICIT_DEF) {v : StackVreg} (hv : v ∈ mi.defRegs) : s'.regs v = none := by
  generalize hout : some s' = out at h
  cases h with
  | implicitDef =>
    cases hout
    exact if_pos hv
  | skipped _ hskipped =>
    rw [hop] at hskipped
    cases hskipped
  | hiddenStack _ hhidden =>
    rw [hop] at hhidden
    cases hhidden
  | exec _ hform =>
    rw [hop] at hform
    cases hform

theorem leftUndefined_cons (mi : RegInstr) (instrs : List RegInstr) (v : StackVreg) :
    leftUndefined (mi :: instrs) v =
      if ∃ mi ∈ instrs, v ∈ mi.defRegs then leftUndefined instrs v
      else decide (v ∈ mi.defRegs ∧ mi.opcode = .IMPLICIT_DEF) := by
  unfold leftUndefined
  split_ifs with hlater
  · obtain ⟨mi', hmem, hv⟩ := hlater
    have hne : (instrs.filter fun mi => decide (v ∈ mi.defRegs)) ≠ [] :=
      List.ne_nil_of_mem (List.mem_filter.mpr ⟨hmem, by simpa using hv⟩)
    rw [List.filter_cons]
    split_ifs
    · rw [List.getLast?_cons_of_ne_nil hne]
    · rfl
  · have hnil : (instrs.filter fun mi => decide (v ∈ mi.defRegs)) = [] :=
      List.filter_eq_nil_iff.mpr fun mi hmem hv => hlater ⟨mi, hmem, by simpa using hv⟩
    rw [List.filter_cons, hnil]
    by_cases hv : v ∈ mi.defRegs
    · rw [if_pos (by simpa using hv)]
      simp [hv]
    · rw [if_neg (by simpa using hv)]
      simp [hv]

/-- **A register that is left undefined has no value.** -/
theorem regs_of_leftUndefined {instrs : List RegInstr}
    (hrun : RegRun meaning hidden instrs s (some s')) {v : StackVreg}
    (hv : leftUndefined instrs v) : s'.regs v = none := by
  -- so has one that nothing defines and that had none
  suffices hgen : leftUndefined instrs v ∨ (¬∃ mi ∈ instrs, v ∈ mi.defRegs) ∧ s.regs v = none →
      s'.regs v = none from hgen (Or.inl hv)
  clear hv
  generalize hout : some s' = out at hrun
  induction hrun with
  | nil s =>
    cases hout
    rintro (hv | ⟨-, hnone⟩)
    · cases hv
    · exact hnone
  | throws => cases hout
  | @cons mi instrs s s₁ out hstep _ ih =>
    intro hv
    refine ih hout ?_
    by_cases hlater : ∃ mi ∈ instrs, v ∈ mi.defRegs
    · rcases hv with hv | ⟨hnot, -⟩
      · rw [leftUndefined_cons, if_pos hlater] at hv
        exact Or.inl hv
      · exact absurd (hlater.imp fun _ h => ⟨List.mem_cons_of_mem _ h.1, h.2⟩) hnot
    · refine Or.inr ⟨hlater, ?_⟩
      rcases hv with hv | ⟨hnot, hnone⟩
      · rw [leftUndefined_cons, if_neg hlater, decide_eq_true_eq] at hv
        exact hstep.regs_implicitDef hv.2 hv.1
      · rw [hstep.regs_of_notMem fun hdef => hnot ⟨mi, List.mem_cons_self, hdef⟩]
        exact hnone

end Undefined

/-! ## The terminator of a block -/

section Terminator

variable {Block Data State : Type}
  {jump : RegOpcode → List RegOperand → State → List (Value Block Data) → Option (State × Block)}
  {meaning : Meaning Block Data State} {hidden : List (Value Block Data)}
  {fn : RegFunction Block} {b : Block} {mi : RegInstr} {stack r : Stack} {fix : List Change}
  {regs : StackVreg → Option (Value Block Data)} {values : List (Value Block Data)}

theorem visible_forReturn (h : stackFixups.forReturn mi stack = some fix) :
    ∀ c ∈ fix, c.Visible := by
  unfold Fixups.forReturn at h
  split at h
  · exact @visible_DiffForReturn _ none _ h
  · obtain ⟨reg, -, h⟩ := Option.bind_eq_some_iff.mp h
    exact @visible_DiffForReturn _ (some reg) _ h
  · obtain ⟨results, -, h⟩ := Option.bind_eq_some_iff.mp h
    exact visible_Diff h

/-- A return leaves the values of its operands, the last one on top. -/
theorem exists_values_of_forReturn (hdefs : mi.defs = [])
    (hfix : stackFixups.forReturn mi stack = some fix)
    (hrun : applyAll unusedReg fix stack = some r) (hvalues : Holds regs stack values) :
    ∃ xs, applyAll (.int 0) fix values = some xs.reverse ∧ Reads regs mi.uses xs := by
  obtain ⟨values', hvalues', hholds⟩ := hvalues.applyAll hrun
  unfold Fixups.forReturn at hfix
  rw [hdefs, List.nil_append] at hfix
  split at hfix
  · rename_i huses
    obtain ⟨fix', hfix', hrun'⟩ := DiffForReturn_none stack
    obtain rfl := Option.some.inj (hfix.symm.trans hfix')
    obtain rfl := Option.some.inj (hrun.symm.trans hrun')
    cases hholds
    refine ⟨[], hvalues', ?_⟩
    rw [huses]
    exact List.Forall₂.nil
  · rename_i op huses
    obtain ⟨reg, hreg, hfix⟩ := Option.bind_eq_some_iff.mp hfix
    -- one slot is left, and it is the one of the operand where there is one
    obtain ⟨v, rfl, hv⟩ : ∃ v, r = [v] ∧ (reg ≠ unusedReg → v = reg) := by
      by_cases hundef : reg = unusedReg
      · subst hundef
        obtain ⟨fix', v, hfix', hrun'⟩ := DiffForReturn_undef stack
        obtain rfl := Option.some.inj (hfix.symm.trans hfix')
        exact ⟨v, Option.some.inj (hrun.symm.trans hrun'), fun h => absurd rfl h⟩
      · obtain ⟨fix', hfix', hrun'⟩ :=
          DiffForReturn_reg hundef (mem_of_DiffForReturn hundef hfix)
        obtain rfl := Option.some.inj (hfix.symm.trans hfix')
        exact ⟨reg, Option.some.inj (hrun.symm.trans hrun'), fun _ => rfl⟩
    have hresults : [op].mapM RegOperand.result = some [reg] := by
      rw [List.mapM_cons, hreg]
      rfl
    have hone : Holds regs [reg] values' := hholds.of_slots rfl fun k w hw hne => by
      refine Or.inl ?_
      cases k with
      | zero =>
        cases hw
        rw [hv hne]
        rfl
      | succ k => cases hw
    cases hone with
    | @cons _ x _ rest _ hnil =>
      cases hnil
      refine ⟨[x], hvalues', ?_⟩
      rw [huses]
      exact reads_of_results hresults (List.Forall₂.cons (by assumption) List.Forall₂.nil)
  · obtain ⟨results, hresults, hfix⟩ := Option.bind_eq_some_iff.mp hfix
    obtain rfl := Option.some.inj (hrun.symm.trans (applyAll_of_Diff hfix))
    have hall : Holds regs results.reverse values' := hholds.of_slots
      (length_filledDst _ _).symm fun k v hk hne => Or.inl (getElem?_filledDst stack hk hne)
    refine ⟨values'.reverse, by rw [hvalues', List.reverse_reverse], reads_of_results hresults ?_⟩
    have hreverse := List.forall₂_reverse_iff.mpr hall
    rwa [List.reverse_reverse] at hreverse

/-- Before a jump the operands are on top of the layout, in which the registers have their slots
that are live into a block which follows. -/
theorem exists_values_of_layout {after : Stack} {vnInfoAt : StackVreg → Bool}
    (hfix : Diff (needStack after (mi.args vnInfoAt) stack) stack = some fix)
    (hvalues : Holds regs stack values)
    (hreads : ∀ v ∈ mi.readRegs, v ≠ unusedReg → v ∈ stack ∨ regs v = none)
    (hlive : ∀ c ∈ fn.cfg.succs b, ∀ v, fn.liveIn c v → v ∈ stack ∨ regs v = none) :
    ∃ xs ys, applyAll (.int 0) fix values = some (xs.reverse ++ ys) ∧
      xs.length = mi.useRegs.length ∧ Reads regs mi.uses xs ∧
      ∀ c ∈ fn.cfg.succs b, Holds regs (fn.filteredByLiveIns after c) ys := by
  have hrun := applyAll_of_Diff hfix
  obtain ⟨values', hvalues', hholds⟩ := hvalues.applyAll hrun
  set args := (mi.args vnInfoAt).map MIArg.vreg with hargs
  have hlen : args.length = mi.useRegs.length := by rw [hargs, List.length_map, mi.length_args]
  -- the slots above the layout are those of the operands
  have hslots (wanted : Stack) (hlength : wanted.length = after.length)
      (hwanted : ∀ (k : ℕ) v, wanted[k]? = some v → v ≠ unusedReg →
        after[k]? = some v ∧ (v ∈ stack ∨ regs v = none)) :
      Holds regs (args.reverse ++ wanted) values' := by
    refine hholds.of_slots ?_ fun k v hk hne => ?_
    · rw [length_filledDst, length_needStack, List.length_append, List.length_reverse, hlength,
        hargs, List.length_map]
    · have hslot : (withArgs after (mi.args vnInfoAt))[k]? = some v ∧
          (v ∈ stack ∨ regs v = none) := by
        rw [withArgs, ← hargs]
        by_cases hk' : k < args.reverse.length
        · rw [List.getElem?_append_left hk'] at hk ⊢
          refine ⟨hk, ?_⟩
          obtain ⟨a, ha, rfl⟩ := List.mem_map.mp (List.mem_reverse.mp (List.mem_of_getElem? hk))
          rcases mi.mem_args ha with rfl | ⟨hread, -⟩
          · exact absurd rfl hne
          · exact hreads _ hread hne
        · rw [List.getElem?_append_right (not_lt.mp hk')] at hk ⊢
          exact hwanted _ v hk hne
      refine hslot.2.imp (fun hmem => ?_) id
      refine getElem?_filledDst stack ?_ hne
      rw [needStack, filterByImpDefs, List.getElem?_map, hslot.1, Option.map_some,
        if_neg fun h => h.2 hmem]
  obtain ⟨us, ys, rfl, hus, hys⟩ := (hslots (List.replicate after.length unusedReg)
    (List.length_replicate ..) fun k v hk hne => by
      exact absurd (List.eq_of_mem_replicate (List.mem_of_getElem? hk)) hne).append_inv
  refine ⟨us.reverse, ys, by rw [hvalues', List.reverse_reverse], ?_, ?_, fun c hc => ?_⟩
  · rw [List.length_reverse, hus.length_eq, List.length_reverse, hlen]
  · have hreverse := List.forall₂_reverse_iff.mpr hus
    rw [List.reverse_reverse] at hreverse
    exact reads_of_holds hreverse
  · obtain ⟨us', ys', heq, hus', hys'⟩ := (hslots (fn.filteredByLiveIns after c)
      (List.length_map _) fun k v hk hne => by
        rw [RegFunction.filteredByLiveIns, List.getElem?_map] at hk
        obtain ⟨w, hw, hv⟩ := Option.map_eq_some_iff.mp hk
        split_ifs at hv with hlivein
        · cases hv
          exact ⟨hw, hlive c hc _ hlivein⟩
        · exact absurd hv.symm hne).append_inv
    obtain ⟨-, rfl⟩ := List.append_inj heq (hus.length_eq.trans hus'.length_eq.symm)
    exact hys'

/-- With its operands on top a jump in stack form goes where its operands say. -/
theorem leave_sForm {op : RegOpcode} (hret : ¬op.isReturn) {ops : List RegOperand}
    {numUses numDefs : ℕ} {st : State} {xs : List (Value Block Data)} (hlen : xs.length = numUses)
    (rest : List (Value Block Data)) :
    (SInstr.sForm op ops numUses numDefs).leave jump (st, xs.reverse ++ rest) =
      (jump op ops st xs).elim (.inr .threw) fun p => .inl (p.2, p.1, rest) := by
  have hle : numUses ≤ (xs.reverse ++ rest).length := by
    rw [List.length_append, List.length_reverse, hlen]
    exact Nat.le_add_right _ _
  have hlen' : xs.reverse.length = numUses := by rw [List.length_reverse, hlen]
  rw [SInstr.leave, if_neg hret, guard_pos hle, List.take_left' hlen', List.drop_left' hlen',
    List.reverse_reverse]
  rfl

variable {s : RegState Block Data State}

theorem exists_leaves_of_jump
    {R : Block × RegState Block Data State → Block × State × List (Value Block Data) → Prop}
    (hop : mi.opcode.isTerminator) (hret : ¬mi.opcode.isReturn) {xs rest : List (Value Block Data)}
    (hreads : Reads s.regs mi.uses xs) (hnext : ∀ st c, R (c, ⟨s.regs, st⟩) (c, st, rest)) :
    ∃ out, RegLeaves jump hidden mi s out ∧ Sum.LiftRel R Eq out
      ((jump mi.opcode mi.passed s.state xs).elim (.inr .threw) fun p => .inl (p.2, p.1, rest)) := by
  cases hjump : jump mi.opcode mi.passed s.state xs with
  | none => exact ⟨_, .throws s hop hret hreads hjump, .inr rfl⟩
  | some p => exact ⟨_, .jump s hop hret hreads hjump, .inl (hnext p.1 p.2)⟩

/-- The instructions that rearrange the stack run first. -/
theorem runBlock_fixup (hvisible : ∀ c ∈ fix, c.Visible) {is : List (List (StackInstr Block))}
    (his : fix.mapM Change.instruction = some is) {values' : List (Value Block Data)}
    (hrun : applyAll (.int 0) fix values = some values') (st : State)
    (rest : List (SInstr Block)) :
    runBlock meaning jump (is.flatten.map .fixup ++ rest) (st, values ++ hidden) =
      runBlock meaning jump rest (st, values' ++ hidden) := by
  have hfixup : ∀ i ∈ is.flatten.map SInstr.fixup, i.isTerminator = false := by
    intro i hi
    obtain ⟨_, -, rfl⟩ := List.mem_map.mp hi
    rfl
  rw [runBlock_append hfixup, runAll_fixup meaning hvisible his, applyAll_append_below hidden hrun]
  rfl

variable [DecidableEq Block] {node : Node} {st st' : ModelState Block}

/-- Both sides go to the same block, and if it follows then the stack there holds the values in the
slots of its layout. -/
def GoesTo (fn : RegFunction Block) (b : Block) (hidden : List (Value Block Data))
    (infos : BlockInfos Block) (c : Block × RegState Block Data State)
    (d : Block × State × List (Value Block Data)) : Prop :=
  c.1 = d.1 ∧ (c.1 ∈ fn.cfg.succs b → ∃ after, infos.fixedEnd b = some after ∧
    Agrees hidden (fn.filteredByLiveIns after c.1) c.2 d.2)

/-- **The terminator of a block**: what is emitted for it leaves the block as the terminator does. -/
theorem translateNode_leaves (hterm : node.instr.opcode.isTerminator)
    (hdesc : node.instr.Described) (harranged : Arranged fn b node st)
    (hstack : NoRepetition st.stack)
    (hreads : ∀ v ∈ node.instr.readRegs, v ≠ unusedReg → v ∈ st.stack ∨ s.regs v = none)
    (hlive : ∀ c ∈ fn.cfg.succs b, ∀ v, fn.liveIn c v → v ∈ st.stack ∨ s.regs v = none)
    (hvalues : Holds s.regs st.stack values) {code : List (SInstr Block)}
    (h : fn.translateNode stackFixups b st node = some (st', code)) :
    ∃ out, RegLeaves jump hidden node.instr s out ∧
      Sum.LiftRel (GoesTo fn b hidden st'.infos) Eq out
        (runBlock meaning jump code (s.state, values ++ hidden)) := by
  have hdefs := node.instr.terminator_defs hterm
  have hop := RegOpcode.prepared_of_isTerminator hterm
  have hform : node.instr.opcode.hasSForm := by
    rcases hdesc.hasSForm with hform | hskipped | himp | hhidden
    · exact hform
    · rw [hop.1] at hskipped
      cases hskipped
    · exact absurd himp hop.2.1
    · exact absurd hhidden hop.2.2
  obtain ⟨mi, infos, fix, r, t, is, hmi, hprepare, hr, -, his, rfl, rfl⟩ :=
    RegFunction.translateNode_eq_some (by rw [hop.1]; exact Bool.false_ne_true) h
  obtain rfl := Option.some.inj ((optimizeReversible_of_defs hdefs st.stack).symm.trans hmi)
  rw [if_pos hform, sFormOperands_eq hdesc.ordered]
  have hlast (s : State × List (Value Block Data)) : runBlock meaning jump
      [.sForm node.instr.opcode node.instr.passed node.instr.useRegs.length node.instr.defs.length] s =
      (SInstr.sForm node.instr.opcode node.instr.passed node.instr.useRegs.length
        node.instr.defs.length).leave jump s := if_pos hterm
  rw [RegFunction.prepareStackFor, if_neg hop.2.1, if_neg hop.2.2, filteredByMIdefs_eq,
    Option.bind_some] at hprepare
  split_ifs at hprepare with hret hlayout
  · -- a return
    obtain ⟨fix, hfix, heq⟩ := Option.map_eq_some_iff.mp hprepare
    cases heq
    obtain ⟨xs, hxs, hreads⟩ := exists_values_of_forReturn hdefs hfix hr hvalues
    rw [runBlock_fixup (visible_forReturn hfix) his hxs, hlast, SInstr.leave, if_pos hret]
    exact ⟨_, .ret s hret hreads, .inr rfl⟩
  · -- a jump to a block that follows
    simp only [RegFunction.prepareLayout, Option.bind_eq_bind, Option.bind_eq_some_iff] at hprepare
    obtain ⟨_, -, after, hafter, _, hfix, heq⟩ := hprepare
    cases heq
    obtain ⟨xs, ys, hxs, hlen, hreads, hys⟩ := exists_values_of_layout hfix hvalues hreads hlive
    rw [runBlock_fixup (visible_Diff hfix) his hxs, hlast, List.append_assoc, leave_sForm hret hlen]
    exact exists_leaves_of_jump hterm hret hreads fun st c =>
      ⟨rfl, fun hc => ⟨after, hafter, rfl, ys, rfl, hys c hc⟩⟩
  · -- no block follows
    obtain ⟨fix, hfix, heq⟩ := Option.map_eq_some_iff.mp hprepare
    cases heq
    obtain ⟨xs, ys, zs, hxs, hlen, hreads, hsame, -⟩ := exists_values_of_DiffForArgs hstack
      (harranged _ hmi hret hlayout) hfix hr hvalues
    obtain rfl := hsame.resolve_right fun h => by
      rw [hdesc.terminator hterm] at h
      cases h.1
    rw [runBlock_fixup (visible_DiffForArgs hfix) his hxs, hlast, List.append_assoc,
      leave_sForm hret hlen]
    refine exists_leaves_of_jump hterm hret hreads fun st c => ⟨rfl, fun hc => ?_⟩
    exact absurd ⟨Or.inl hterm, List.ne_nil_of_mem hc⟩ hlayout

end Terminator

/-! ## A block -/

section Block

variable {Block : Type} [DecidableEq Block] {fn : RegFunction Block} {b : Block}

/-- What holds of the functions that reach the stack model: besides being well formed they have
sound liveness, in which what an instruction reads is live before it, every instruction fits its
description, each block ends in its only terminator, and nothing jumps to the entry. -/
structure RegFunction.Valid [Fintype Block] (fn : RegFunction Block) : Prop extends
    fn.WellFormed where
  liveness : fn.LivenessSound
  readsLive : ∀ b n mi v, (fn.instrs b)[n]? = some mi → v ∈ mi.readRegs → v ≠ unusedReg →
    fn.liveBefore b n v
  described : ∀ b, ∀ mi ∈ fn.instrs b, mi.Described
  terminated : ∀ b, fn.EndsInOnlyTerminator b
  entry : ∀ p, fn.cfg.entry ∉ fn.cfg.succs p

/-- Only a terminator is translated to one. -/
theorem isTerminator_of_translate {Label : Type} {nodes : List Node}
    (hnodes : ∀ node ∈ nodes, node.instr.opcode.isTerminator = false) {fixups : Fixups}
    {st st' : ModelState Block} {code : List (SInstr Label)}
    (h : fn.translate fixups b nodes st = some (st', code)) :
    ∀ i ∈ code, i.isTerminator = false := by
  induction nodes generalizing st code with
  | nil =>
    cases h
    exact fun i hi => by cases hi
  | cons node nodes ih =>
    obtain ⟨s, first, rest, hfirst, hrest, rfl⟩ := RegFunction.translate_cons_eq_some h
    intro i hi
    rcases List.mem_append.mp hi with hi | hi
    · by_cases hskipped : node.instr.opcode.isSkipped
      · rw [RegFunction.translateNode, if_pos hskipped] at hfirst
        cases hfirst
        cases hi
      · obtain ⟨mi, infos, fix, r, t, is, hmi, -, -, -, -, -, rfl⟩ :=
          RegFunction.translateNode_eq_some hskipped hfirst
        rcases List.mem_append.mp hi with hi | hi
        · obtain ⟨_, -, rfl⟩ := List.mem_map.mp hi
          rfl
        · split_ifs at hi
          · obtain rfl := List.mem_singleton.mp hi
            exact isTerminator_optimizeReversible (hnodes node List.mem_cons_self) hmi
          · cases hi
    · exact ih (fun node hnode => hnodes node (List.mem_cons_of_mem _ hnode)) hrest i hi

theorem instr_mem_of_mem_innerNodes {n : ℕ} {instrs : List RegInstr} {node : Node}
    (h : node ∈ innerNodes n instrs) : node.instr ∈ instrs := by
  induction instrs generalizing n with
  | nil => cases h
  | cons mi instrs ih =>
    rcases List.mem_cons.mp h with rfl | h
    · exact List.mem_cons_self
    · exact List.mem_cons_of_mem _ (ih h)

variable [Fintype Block] {Data State : Type}
  {jump : RegOpcode → List RegOperand → State → List (Value Block Data) → Option (State × Block)}
  {meaning : Meaning Block Data State} {hidden : List (Value Block Data)}

/-- **A block**: its code leaves it as the block in register form does. -/
theorem exists_regBlock (hfn : fn.Valid) {infos : BlockInfos Block} {stack : Stack}
    {st' : ModelState Block} {code : List (SInstr Block)}
    (h : fn.translate stackFixups b (fn.nodes b) ⟨infos, stack⟩ = some (st', code))
    (hstack : NoRepetition stack) (hbegin : ∀ v, fn.liveIn b v → v ∈ stack)
    (hrun : AlongM (fn.processNode stackFixups b)
      (fun node st => Undisturbed node st ∧ Arranged fn b node st) ⟨infos, stack⟩ (fn.nodes b))
    {s : RegState Block Data State} {values : List (Value Block Data)}
    (hvalues : Holds s.regs stack values) :
    ∃ out, fn.RegBlock meaning jump hidden (b, s) out ∧
      Sum.LiftRel (GoesTo fn b hidden st'.infos) Eq out
        (runBlock meaning jump code (s.state, values ++ hidden)) := by
  obtain ⟨init, term, hinstrs, hterm, hinit⟩ := hfn.terminated b
  have hnodes : fn.nodes b = innerNodes 0 init ++ [⟨init.length, term, true⟩] := by
    rw [RegFunction.nodes, hinstrs, nodesFrom_append 0 init (List.cons_ne_nil _ _), Nat.zero_add]
    rfl
  rw [hnodes] at h hrun
  obtain ⟨mid, first, last, hfirst, hlast, rfl⟩ := RegFunction.translate_append_eq_some h
  obtain ⟨st'', last', _, hlast', hnil, rfl⟩ := RegFunction.translate_cons_eq_some hlast
  cases hnil
  rw [List.append_nil]
  have hstraight := isTerminator_of_translate
    (fun node hnode => hinit _ (instr_mem_of_mem_innerNodes hnode)) hfirst
  have hsplit : fn.instrs b = [] ++ (init ++ [term]) := hinstrs
  have hon : LiveOnStack fn b [] stack := fun v _ hv _ => hbegin v hv
  obtain ⟨hmid, hon, out, hout, hrel⟩ : NoRepetition mid.stack ∧ LiveOnStack fn b init mid.stack ∧
      ∃ out, RegRun meaning hidden init s out ∧
        Option.Rel (Agrees hidden mid.stack) out (runAll meaning first (s.state, values ++ hidden)) :=
    translate_preserves hfn.liveness (hfn.described b) hsplit hinit hstack hon hrun.left hvalues
      hfirst
  rw [runBlock_append hstraight]
  generalize runAll meaning first (s.state, values ++ hidden) = result at hrel
  cases hrel with
  | none => exact ⟨_, .throws hinstrs hout, .inr rfl⟩
  | @some s₁ t hagrees =>
    obtain ⟨hstate, values₁, ht, hvalues₁⟩ := hagrees
    obtain rfl : t = (s₁.state, values₁ ++ hidden) := Prod.ext hstate ht
    -- a live register is on the stack or has no value
    have hlive (v : StackVreg) (hv : v ≠ unusedReg) (hbefore : fn.liveBefore b init.length v) :
        v ∈ mid.stack ∨ s₁.regs v = none := by
      cases hundef : leftUndefined init v with
      | false => exact Or.inl (hon v hv hbefore hundef)
      | true => exact Or.inr (regs_of_leftUndefined hout hundef)
    have hget : (fn.instrs b)[init.length]? = some term := by
      rw [hinstrs]
      exact List.getElem?_concat_length
    have hmem : term ∈ fn.instrs b := List.mem_of_getElem? hget
    have hnext (c : Block) (hc : c ∈ fn.cfg.succs b) (v : StackVreg) (hv : fn.liveIn c v) :
        v ∈ mid.stack ∨ s₁.regs v = none := by
      have hafter := hfn.liveness.edge b c v hc hv
      rw [hinstrs, List.length_append, List.length_singleton] at hafter
      refine hlive v (ne_unusedReg_of_liveIn fn hv)
        ((hfn.liveness.instr b _ term v hget hafter).resolve_left ?_)
      -- the terminator defines nothing
      rw [RegInstr.defRegs, term.terminator_defs hterm]
      exact List.not_mem_nil
    obtain ⟨out, hleaves, hrel⟩ : ∃ out, RegLeaves jump hidden term s₁ out ∧
        Sum.LiftRel (GoesTo fn b hidden st'.infos) Eq out
          (runBlock meaning jump last' (s₁.state, values₁ ++ hidden)) :=
      translateNode_leaves hterm (hfn.described b term hmem)
        (hrun.at (RegFunction.foldlM_of_translate hfirst)).2 hmid
        (fun v hv hne => hlive v hne (hfn.readsLive b _ term v hget hv hne)) hnext hvalues₁ hlast'
    exact ⟨out, .leaves hinstrs hout hleaves, hrel⟩

end Block

/-! ## The layouts at the end of the run -/

section Settled

variable {Block : Type} [DecidableEq Block] [Fintype Block] {fn : RegFunction Block}

/-- The layout of the block is this one, and it was there from the start or the layout of the road
from which it comes is fixed. -/
def Settled (fn : RegFunction Block) (b : Block) (layout : Stack) (infos : BlockInfos Block) : Prop :=
  infos.fixedBegin b = some layout ∧ (b = fn.cfg.entry ∨
    ∃ p, fn.road (p, .roadEnd) = fn.road (b, .roadBegin) ∧ (infos.fixedEnd p).isSome)

/-- The beginning of the entry is on no road at which a block ends. -/
theorem RegFunction.Valid.road_entry_ne (hfn : fn.Valid) (p : Block) :
    fn.road (fn.cfg.entry, .roadBegin) ≠ fn.road (p, .roadEnd) := by
  obtain ⟨fuel, s, hfuel, hs, hroad⟩ := hfn.roads
  obtain ⟨s', hs', hinv, hqueue, hnext⟩ := exists_prepareRoads fn.cfg hfuel
  obtain rfl : s = s' := Except.ok.inj (hs.symm.trans hs')
  rw [hroad]
  intro heq
  have hne : s.road (fn.cfg.entry, .roadBegin) ≠ 0 :=
    heq ▸ (hinv.road_ne_zero hqueue hnext (hfn.reachable p)).1
  have hconn := hinv.sound _ _ heq hne
  -- no edge leads to it
  have halone {x y : Block × Side} (h : fn.cfg.Connected x y) :
      x = (fn.cfg.entry, .roadBegin) ↔ y = (fn.cfg.entry, .roadBegin) := by
    induction h with
    | rel x y hedge =>
      obtain ⟨hsucc, hx, -⟩ := hedge
      refine ⟨fun h => ?_, fun h => ?_⟩
      · rw [h] at hx
        cases hx
      · rw [h] at hsucc
        exact absurd hsucc (hfn.entry x.1)
    | refl x => exact Iff.rfl
    | symm x y _ ih => exact ih.symm
    | trans x y z _ _ ih₁ ih₂ => exact ih₁.trans ih₂
  cases (halone hconn).mp rfl

omit [Fintype Block] in
/-- What fixing the layout of a road keeps, a run keeps. -/
theorem infos_inv {P : BlockInfos Block → Prop}
    (hstep : ∀ infos b out, infos.fixedEnd b = none → P infos →
      P (fn.computeRoadPattern (fn.road (b, .roadEnd)) out infos)) {fixups : Fixups} {b : Block}
    {nodes : List Node} {st st' : ModelState Block} (hst : P st.infos)
    (h : nodes.foldlM (fn.processNode fixups b) st = some st') : P st'.infos := by
  have hnode (node : Node) (s s' : ModelState Block) (hs : P s.infos)
      (h : fn.processNode fixups b s node = some s') : P s'.infos := by
    rcases processNode_infos h with heq | ⟨hnone, out, heq⟩
    · rw [heq]
      exact hs
    · rw [heq]
      exact hstep s.infos b out hnone hs
  exact (foldlM_inv hnode hst h :)

omit [Fintype Block] in
theorem infos_inv_blocks {P : BlockInfos Block → Prop}
    (hstep : ∀ infos b out, infos.fixedEnd b = none → P infos →
      P (fn.computeRoadPattern (fn.road (b, .roadEnd)) out infos)) {fixups : Fixups}
    {blocks : List Block} {infos infos' : BlockInfos Block} (hinfos : P infos)
    (h : blocks.foldlM (fn.runOnBasicBlock fixups) infos = some infos') : P infos' := by
  refine foldlM_inv (fun b s s' hs h => ?_) hinfos h
  obtain ⟨stack, -, h⟩ := Option.bind_eq_some_iff.mp h
  obtain ⟨st, hst, heq⟩ := Option.bind_eq_some_iff.mp h
  cases heq
  exact infos_inv hstep hs hst

theorem fixedEnd_computeRoadPattern (hfn : fn.WellFormed) (infos : BlockInfos Block)
    (roadIdx : ℕ) (out : Stack) {p : Block} :
    (fn.computeRoadPattern roadIdx out infos).fixedEnd p =
      if fn.road (p, .roadEnd) = roadIdx then some (fn.roadPattern roadIdx out)
      else infos.fixedEnd p := by
  simp only [RegFunction.computeRoadPattern, hfn.mem_layout p, true_and]

theorem isSome_fixedEnd_computeRoadPattern (hfn : fn.WellFormed) {infos : BlockInfos Block}
    (roadIdx : ℕ) (out : Stack) {p : Block} (hp : (infos.fixedEnd p).isSome) :
    ((fn.computeRoadPattern roadIdx out infos).fixedEnd p).isSome := by
  rw [fixedEnd_computeRoadPattern hfn]
  split_ifs
  · rfl
  · exact hp

/-- Every layout that there is is settled. -/
theorem settled_of_fixedBegin (hfn : fn.Valid) {startStack : Stack} {blocks : List Block}
    {infos : BlockInfos Block}
    (h : fn.runOnBasicBlocks stackFixups blocks startStack = some infos) {b : Block} {layout : Stack}
    (hlayout : infos.fixedBegin b = some layout) : Settled fn b layout infos := by
  refine infos_inv_blocks (P := fun infos => ∀ b layout, infos.fixedBegin b = some layout →
    Settled fn b layout infos) (fun infos b out _ hinfos c layout hc => ⟨hc, ?_⟩) ?_ h b layout
    hlayout
  · by_cases hroad : fn.road (c, .roadBegin) = fn.road (b, .roadEnd)
    · refine Or.inr ⟨b, hroad.symm, ?_⟩
      rw [fixedEnd_computeRoadPattern hfn.toWellFormed, if_pos rfl]
      rfl
    · have hsame : infos.fixedBegin c = some layout := by
        rw [← hc]
        exact (if_neg fun h => hroad h.2).symm
      refine (hinfos c layout hsame).2.imp id fun ⟨p, hp, hsome⟩ => ⟨p, hp, ?_⟩
      exact isSome_fixedEnd_computeRoadPattern hfn.toWellFormed _ _ hsome
  · intro b layout hb
    refine ⟨hb, Or.inl ?_⟩
    simp only [RegFunction.startInfos] at hb
    split_ifs at hb with hentry
    exact hentry

/-- A settled layout stays. -/
theorem Settled.foldlM (hfn : fn.Valid) {b : Block} {layout : Stack} {blocks : List Block}
    {infos infos' : BlockInfos Block} (hjoined : LayoutsJoined fn infos)
    (hinfos : Settled fn b layout infos)
    (h : blocks.foldlM (fn.runOnBasicBlock stackFixups) infos = some infos') :
    infos'.fixedBegin b = some layout := by
  refine (infos_inv_blocks (P := fun infos => LayoutsJoined fn infos ∧ Settled fn b layout infos)
    (fun infos c out hnone ⟨hjoined, hbegin, hfrom⟩ => ⟨?_, ?_, ?_⟩) ⟨hjoined, hinfos⟩ h).2.1
  · exact hjoined.computeRoadPattern hfn.toWellFormed _ out
  · rw [← hbegin]
    refine if_neg fun ⟨_, hroad⟩ => ?_
    rcases hfrom with rfl | ⟨p, hp, hsome⟩
    · exact hfn.road_entry_ne c hroad
    · -- the road at the end of `c` has its layout already
      have hsome' := hjoined.shared p c (hp.trans hroad) hsome
      rw [hnone] at hsome'
      cases hsome'
  · refine hfrom.imp id fun ⟨p, hp, hsome⟩ => ⟨p, hp, ?_⟩
    exact isSome_fixedEnd_computeRoadPattern hfn.toWellFormed _ _ hsome

end Settled

/-! ## The whole function -/

section Function

variable {Block : Type} [DecidableEq Block]

/-- No instruction that the run comes to defines a register that it finds on the stack without
reading it, or has operands in an arrangement that a stack pattern gets wrong. -/
def RegFunction.Prepares (fn : RegFunction Block) (blocks : List Block) (startStack : Stack) : Prop :=
  AlongM (fn.runOnBasicBlock stackFixups)
    (fun b infos => ∀ stack, infos.fixedBegin b = some stack →
      AlongM (fn.processNode stackFixups b)
        (fun node st => Undisturbed node st ∧ Arranged fn b node st) ⟨infos, stack⟩ (fn.nodes b))
    (fn.startInfos startStack) blocks

variable [Fintype Block] {Data State : Type}
  {jump : RegOpcode → List RegOperand → State → List (Value Block Data) → Option (State × Block)}
  {meaning : Meaning Block Data State} {hidden : List (Value Block Data)} {fn : RegFunction Block}

/-- Both sides are at the beginning of the same block, and the slots of its layout hold the values
of the registers. -/
def AtBlock (hidden : List (Value Block Data)) (infos : BlockInfos Block)
    (c : Block × RegState Block Data State) (d : Block × State × List (Value Block Data)) : Prop :=
  c.1 = d.1 ∧ ∃ layout, infos.fixedBegin c.1 = some layout ∧ Agrees hidden layout c.2 d.2

/-- From the beginning of a block both sides come to the beginning of the next one, or end with the
same outcome. -/
theorem translateBlocks_matches (hfn : fn.Valid) {blocks : List Block}
    (hblocks : ReversePostOrder fn.cfg blocks) {startStack : Stack}
    (hstart : NoRepetition startStack) (hargs : ∀ v, fn.liveIn fn.cfg.entry v → v ∈ startStack)
    (hrun : fn.Prepares blocks startStack) {infos : BlockInfos Block}
    {program : List (Block × List (SInstr Block))}
    (hprogram : fn.translateBlocks stackFixups blocks (fn.startInfos startStack) =
      some (infos, program)) {start : Block × RegState Block Data State}
    (hcfg : ∀ c c', Leads (fn.RegBlock meaning jump hidden) start c →
      fn.RegBlock meaning jump hidden c (.inl c') → c'.1 ∈ fn.cfg.succs c.1) :
    Matches (fn.RegBlock meaning jump hidden)
      (fun d out => machineStep meaning jump program d = out) (AtBlock hidden infos) start := by
  rintro ⟨b, s⟩ ⟨_, st₀, stack₀⟩ hleads ⟨rfl, layout, hlayout, hstate, values, hstack₀, hvalues⟩ out'
    rfl
  obtain rfl : st₀ = s.state := hstate
  obtain rfl : stack₀ = values ++ hidden := hstack₀
  obtain ⟨pre, post, rfl⟩ := List.append_of_mem (hblocks.mem b (hfn.reachable b))
  obtain ⟨infos₁, stack, st, code, hpre, hstack, hcode, hpost, hlookup⟩ :=
    RegFunction.exists_translate_of_translateBlocks hblocks.nodup hprogram
  -- the layouts when the block is translated
  have hjoined : LayoutsJoined fn infos₁ :=
    foldlM_inv (fun _ _ _ hs hstep => LayoutsJoined.runOnBasicBlock hfn.toWellFormed hs hstep)
      (layoutsJoined_startInfos hargs) hpre
  have htidy : LayoutsTidy infos₁ := ((layoutsTidy_alongRun fn hstart
    (hrun.imp fun b infos h stack hs => (h stack hs).imp fun _ _ h => h.1)).at hpre).2
  have hblock := hrun.at hpre stack hstack
  have hst := RegFunction.foldlM_of_translate hcode
  have hjoined' := hjoined.processNodes hfn.toWellFormed hst
  have hsettled := settled_of_fixedBegin hfn hpre hstack
  obtain rfl : stack = layout := by
    refine Option.some.inj (Eq.trans (Eq.symm ?_) hlayout)
    have hturn : fn.runOnBasicBlock stackFixups infos₁ b = some st.infos := by
      rw [RegFunction.runOnBasicBlock, hstack, Option.bind_eq_bind, Option.bind_some, hst]
      rfl
    have hlater : (b :: post).foldlM (fn.runOnBasicBlock stackFixups) infos₁ = some infos := by
      rw [List.foldlM_cons, hturn]
      exact hpost
    exact hsettled.foldlM hfn hjoined hlater
  obtain ⟨out, hout, hrel⟩ : ∃ out, fn.RegBlock meaning jump hidden (b, s) out ∧
      Sum.LiftRel (GoesTo fn b hidden st.infos) Eq out
        (runBlock meaning jump code (s.state, values ++ hidden)) :=
    exists_regBlock hfn hcode (htidy b stack (Or.inl hstack)) (hjoined.begins b stack hstack) hblock
      hvalues
  refine ⟨out, hout, ?_⟩
  have hmachine : machineStep meaning jump program (b, s.state, values ++ hidden) =
      runBlock meaning jump code (s.state, values ++ hidden) := by
    rw [machineStep, hlookup]
    rfl
  show Sum.LiftRel _ _ out (machineStep meaning jump program (b, s.state, values ++ hidden))
  rw [hmachine]
  generalize runBlock meaning jump code (s.state, values ++ hidden) = result at hrel
  cases hrel with
  | inr heq => exact .inr heq
  | inl hgoes =>
    obtain ⟨hsame, hagrees⟩ := hgoes
    have hsucc := hcfg _ _ hleads hout
    obtain ⟨after, hafter, hagrees⟩ := hagrees hsucc
    have hfixed : Fixed fn b after infos :=
      foldlM_inv (fun _ _ _ hs hstep => Fixed.runOnBasicBlock hfn.toWellFormed hs hstep)
        ⟨hjoined', hafter⟩ hpost
    exact .inl ⟨hsame, _, (hfixed.1.joined b after hfixed.2 _ hsucc).1, hagrees⟩

/-- **The code of a function means what its register form means.** The machine starts with the values
of the registers in the slots of the start stack, above what is hidden from the function. Then it
ends only as the register form may end, with the same stack for the caller or with an exception, it
runs forever only if the register form may, and it ends if that cannot run forever. -/
theorem translateBlocks_refines (hfn : fn.Valid) {blocks : List Block}
    (hblocks : ReversePostOrder fn.cfg blocks) {startStack : Stack}
    (hstart : NoRepetition startStack) (hargs : ∀ v, fn.liveIn fn.cfg.entry v → v ∈ startStack)
    (hrun : fn.Prepares blocks startStack) {infos : BlockInfos Block}
    {program : List (Block × List (SInstr Block))}
    (hprogram : fn.translateBlocks stackFixups blocks (fn.startInfos startStack) =
      some (infos, program)) {s : RegState Block Data State} {values : List (Value Block Data)}
    (hvalues : Holds s.regs startStack values)
    (hcfg : ∀ c c', Leads (fn.RegBlock meaning jump hidden) (fn.cfg.entry, s) c →
      fn.RegBlock meaning jump hidden c (.inl c') → c'.1 ∈ fn.cfg.succs c.1) :
    Refines (fn.RegBlock meaning jump hidden)
        (fun d out => machineStep meaning jump program d = out) (fn.cfg.entry, s)
        (fn.cfg.entry, s.state, values ++ hidden) ∧
      (¬Diverges (fn.RegBlock meaning jump hidden) (fn.cfg.entry, s) →
        ∃ w, Ends (fun d out => machineStep meaning jump program d = out)
          (fn.cfg.entry, s.state, values ++ hidden) w ∧
          Ends (fn.RegBlock meaning jump hidden) (fn.cfg.entry, s) w) := by
  have hbegin : (fn.startInfos startStack).fixedBegin fn.cfg.entry = some startStack := if_pos rfl
  have hlayout : infos.fixedBegin fn.cfg.entry = some startStack := by
    have hsettled : Settled fn fn.cfg.entry startStack (fn.startInfos startStack) :=
      ⟨hbegin, Or.inl rfl⟩
    exact hsettled.foldlM hfn (layoutsJoined_startInfos hargs)
      (RegFunction.foldlM_of_translateBlocks hprogram)
  have hrefines := (translateBlocks_matches hfn hblocks hstart hargs hrun hprogram hcfg).refines
    (⟨rfl, startStack, hlayout, rfl, values, rfl, hvalues⟩ :
      AtBlock hidden infos (fn.cfg.entry, s) (fn.cfg.entry, s.state, values ++ hidden))
  exact ⟨hrefines, hrefines.exists_ends fun d => ⟨_, rfl⟩⟩

end Function

end TVMCompiler
