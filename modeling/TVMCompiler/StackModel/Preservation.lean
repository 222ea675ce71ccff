import TVMCompiler.Stack.Emitted
import TVMCompiler.StackModel.EdgeLayouts
import TVMCompiler.StackModel.RegForm

/-!
# The stack form means what the register form means

The slots of the machine's stack hold the values of the registers that the model stack names. Each
instruction keeps it so: its fixup moves the values with the registers, the operands on top are the
values that the instruction reads, and the results are pushed on both stacks.

## Main definitions

* `Holds`: the values in the slots are those of the registers
* `Arranged`: the fixup of an instruction is not one of those that misplace an operand

## Main results

* `Holds.results`: the results of an instruction go to the registers and to the stack
* `regStep_optimizeReversible`: the reversed instruction means the same
* `translateNode_preserves`: one instruction
* `translate_preserves`: the instructions of a block in front of the last one
-/

namespace TVMCompiler

open Lib

/-! ## Values in the slots -/

section Holds

variable {Label Data : Type} {regs : StackVreg → Option (Value Label Data)}
  {top below stack stack' : Stack} {values : List (Value Label Data)}

/-- The slots hold the values of their registers. An unused slot and one of an undefined register
may hold any value. -/
def Holds (regs : StackVreg → Option (Value Label Data)) (stack : Stack)
    (values : List (Value Label Data)) : Prop :=
  List.Forall₂ (SlotValue regs) stack values

theorem Holds.length_eq (h : Holds regs stack values) : values.length = stack.length :=
  (List.Forall₂.length_eq h).symm

theorem holds_map (regs : StackVreg → Option (Value Label Data)) (stack : Stack) :
    Holds regs stack (stack.map fun v => (regs v).getD (.int 0)) := by
  induction stack with
  | nil => exact List.Forall₂.nil
  | cons v stack ih =>
    refine List.Forall₂.cons (fun _ y hy => ?_) ih
    show (regs v).getD _ = y
    rw [hy]
    rfl

/-- Registers may lose their values. -/
theorem Holds.mono (h : Holds regs stack values) {regs' : StackVreg → Option (Value Label Data)}
    (hregs : ∀ v ∈ stack, v ≠ unusedReg → ∀ x, regs' v = some x → regs v = some x) :
    Holds regs' stack values := by
  induction h with
  | nil => exact List.Forall₂.nil
  | @cons v x _ _ hx _ ih =>
    refine List.Forall₂.cons (fun hne y hy => ?_)
      (ih fun v hv => hregs v (List.mem_cons_of_mem _ hv))
    exact hx hne y (hregs v List.mem_cons_self hne y hy)

/-- A fixup moves the values with the registers. -/
theorem Holds.applyAll {changes : List Change} (h : Holds regs stack values)
    (hrun : applyAll unusedReg changes stack = some stack') :
    ∃ values', TVMCompiler.applyAll (.int 0) changes values = some values' ∧
      Holds regs stack' values' :=
  applyAll_related (fun h => absurd rfl h) h hrun

theorem Holds.append_inv (h : Holds regs (top ++ below) values) :
    ∃ xs ys, values = xs ++ ys ∧ Holds regs top xs ∧ Holds regs below ys := by
  induction top generalizing values with
  | nil => exact ⟨[], values, rfl, List.Forall₂.nil, h⟩
  | cons v top ih =>
    cases h with
    | @cons _ x _ rest hx hrest =>
      obtain ⟨xs, ys, rfl, htop, hbelow⟩ := ih hrest
      exact ⟨x :: xs, ys, rfl, List.Forall₂.cons hx htop, hbelow⟩

/-- Masking a register only forgets what its slot holds. -/
theorem Holds.map (h : Holds regs stack values) {f : StackVreg → StackVreg}
    (hf : ∀ v, f v = v ∨ f v = unusedReg) : Holds regs (stack.map f) values := by
  induction h with
  | nil => exact List.Forall₂.nil
  | @cons v x _ _ hx _ ih =>
    refine List.Forall₂.cons (fun hne => ?_) ih
    rcases hf v with hv | hv
    · rw [hv] at hne ⊢
      exact hx hne
    · exact absurd hv hne

theorem Holds.undefine (h : Holds regs stack values) {defs : List StackVreg} :
    Holds (undefine regs defs) stack values := by
  refine h.mono fun v _ _ x hx => ?_
  rw [TVMCompiler.undefine] at hx
  split_ifs at hx
  exact hx

/-! ## Results -/

theorem forall₂_writeResults {defs : List StackVreg} {xs : List (Value Label Data)}
    (hdefs : defs.Nodup) (hlen : xs.length = defs.length) :
    List.Forall₂ (fun v x => writeResults regs defs xs v = some x) defs xs := by
  induction defs generalizing regs xs with
  | nil =>
    obtain rfl := List.length_eq_zero_iff.mp hlen
    exact List.Forall₂.nil
  | cons r defs ih =>
    cases xs with
    | nil => cases hlen
    | cons x xs =>
      obtain ⟨hr, hdefs⟩ := List.nodup_cons.mp hdefs
      refine List.Forall₂.cons ?_ (ih hdefs (Nat.succ.inj hlen))
      rw [writeResults, writeResults_of_notMem hr, Function.update_self]

/-- **The results of an instruction** go to the registers and to the stack. -/
theorem Holds.results (h : Holds regs below values) {defs : List StackVreg}
    {xs : List (Value Label Data)} (hdefs : defs.Nodup) (hlen : xs.length = defs.length)
    (hnew : ∀ v ∈ defs, v ≠ unusedReg → v ∉ below) :
    Holds (writeResults regs defs xs) (defs.foldl addDef below) (xs.reverse ++ values) := by
  rw [foldl_addDef]
  refine List.rel_append ?_ ?_
  · have hall := List.forall₂_reverse_iff.mpr (@forall₂_writeResults _ _ regs _ _ hdefs hlen)
    exact hall.imp fun v x hx _ y hy => Option.some.inj (hx.symm.trans hy)
  · -- below them no register has changed
    refine h.mono fun v hv hne x hx => ?_
    rwa [writeResults_of_notMem fun hmem => hnew v hmem hne hv] at hx

/-! ## Operands -/

/-- The values in the slots of the operands are those that the instruction reads. -/
theorem reads_of_holds {mi : RegInstr} {vnInfoAt : StackVreg → Bool}
    (h : Holds regs ((mi.args vnInfoAt).map MIArg.vreg) values) : Reads regs mi.uses values := by
  unfold RegInstr.args at h
  unfold Reads
  generalize mi.uses = uses at h ⊢
  induction uses generalizing values with
  | nil =>
    cases h
    exact List.Forall₂.nil
  | cons op uses ih =>
    cases op with
    | reg r isUndef isDead =>
      cases isUndef with
      | true =>
        cases h with
        | cons _ hrest => exact List.Forall₂.cons (fun h => by cases h) (ih hrest)
      | false =>
        cases h with
        | cons hx hrest => exact List.Forall₂.cons (fun _ => hx) (ih hrest)
    | _ => exact ih h

end Holds

/-! ## Reversed instructions -/

section Reversed

variable {mi instr : RegInstr} {stack : Stack}

/-- The operands that are copied are the ones that are no registers. -/
theorem sFormOperands_eq (hordered : mi.uses = mi.uses.filter RegOperand.isSymbol ++
    (mi.uses.filter RegOperand.isReg ++ mi.uses.filter RegOperand.isImm)) :
    mi.sFormOperands = mi.passed := by
  have hsymbol : (mi.uses.filter RegOperand.isSymbol).filter (fun op => !op.isReg) =
      mi.uses.filter RegOperand.isSymbol := by
    rw [List.filter_filter]
    exact List.filter_congr fun op _ => by cases op <;> rfl
  have hreg : (mi.uses.filter RegOperand.isReg).filter (fun op => !op.isReg) = [] := by
    rw [List.filter_filter]
    exact List.filter_eq_nil_iff.mpr fun op _ => by cases op.isReg <;> decide
  have himm : (mi.uses.filter RegOperand.isImm).filter (fun op => !op.isReg) =
      mi.uses.filter RegOperand.isImm := by
    rw [List.filter_filter]
    exact List.filter_congr fun op _ => by cases op <;> rfl
  unfold RegInstr.sFormOperands RegInstr.passed
  rw [List.countP_eq_length_filter, List.countP_eq_length_filter]
  -- the copied operands are the first and the last of the three parts
  generalize mi.uses.filter RegOperand.isSymbol = symbols at *
  generalize mi.uses.filter RegOperand.isReg = regs at *
  generalize mi.uses.filter RegOperand.isImm = imms at *
  rw [hordered, List.filter_append, List.filter_append, hsymbol, hreg, himm, List.take_left,
    List.nil_append, ← List.append_assoc, List.length_append, Nat.add_sub_cancel, List.drop_left]

theorem getReg_eq_some {op : RegOperand} {r : StackVreg} (h : op.getReg = some r) :
    ∃ isUndef isDead, op = .reg r isUndef isDead := by
  cases op with
  | reg _ isUndef isDead =>
    cases h
    exact ⟨isUndef, isDead, rfl⟩
  | _ => cases h

/-- The operand behind the two that change places is an immediate value or a register, where the
instruction has a third one. -/
theorem reversibleTail_eq_some {op op₁ op₂ : RegOperand} {tail tail' : List RegOperand}
    (hdefs : instr.defs = [op]) (huses : instr.uses = op₁ :: op₂ :: tail)
    (hlen : instr.uses.length = instr.opcode.reversibleUses)
    (h : instr.reversibleTail = some tail') :
    tail = [] ∧ tail' = [] ∨ (∃ value, tail = [.imm value] ∧ tail' = [.imm value]) ∨
      ∃ r isUndef isDead, tail = [.reg r isUndef isDead] ∧ tail' = [.reg r false false] := by
  have hlen : tail.length + 2 = instr.opcode.reversibleUses := by
    rw [← hlen, huses]
    rfl
  have hthird : (instr.defs ++ instr.uses)[3]? = tail[0]? := by
    rw [hdefs, huses]
    rfl
  have hone (h : tail.length = 1) : ∃ op₃, tail = [op₃] := List.length_eq_one_iff.mp h
  unfold RegInstr.reversibleTail at h
  split at h
  · rename_i hop
    rw [hop] at hlen
    obtain ⟨op₃, rfl⟩ := hone (Nat.succ.inj (Nat.succ.inj hlen))
    split at h
    · rename_i value hvalue
      cases h
      rw [hthird] at hvalue
      cases hvalue
      exact Or.inr (Or.inl ⟨value, rfl, rfl⟩)
    · cases h
  · rename_i hop
    rw [hop] at hlen
    obtain ⟨op₃, rfl⟩ := hone (Nat.succ.inj (Nat.succ.inj hlen))
    split at h
    · rename_i value hvalue
      cases h
      rw [hthird] at hvalue
      cases hvalue
      exact Or.inr (Or.inl ⟨value, rfl, rfl⟩)
    · cases h
  · rename_i hop
    rw [hop] at hlen
    obtain ⟨op₃, rfl⟩ := hone (Nat.succ.inj (Nat.succ.inj hlen))
    obtain ⟨r, hr, h⟩ := Option.bind_eq_some_iff.mp h
    cases h
    rw [RegInstr.operandReg, hthird] at hr
    obtain ⟨isUndef, isDead, rfl⟩ := getReg_eq_some hr
    exact Or.inr (Or.inr ⟨r, isUndef, isDead, rfl, rfl⟩)
  · rename_i hop
    rw [hop] at hlen
    obtain ⟨op₃, rfl⟩ := hone (Nat.succ.inj (Nat.succ.inj hlen))
    obtain ⟨r, hr, h⟩ := Option.bind_eq_some_iff.mp h
    cases h
    rw [RegInstr.operandReg, hthird] at hr
    obtain ⟨isUndef, isDead, rfl⟩ := getReg_eq_some hr
    exact Or.inr (Or.inr ⟨r, isUndef, isDead, rfl, rfl⟩)
  · cases h
    have hnil : tail.length = 0 := by
      unfold RegOpcode.reversibleUses at hlen
      split at hlen <;> simp_all
    exact Or.inl ⟨List.length_eq_zero_iff.mp hnil, rfl⟩

/-- The operands of the reversed instruction: the first two change places, and the third one is
the same up to its flags. -/
theorem uses_optimizeReversible (hdesc : instr.Described)
    (h : optimizeReversible instr stack = some mi) :
    mi = instr ∨ instr.opcode.reversed = some mi.opcode ∧
      ∃ left right ul dl ur dr tail tail', instr.uses = .reg left ul dl :: .reg right ur dr :: tail ∧
        mi.uses = .reg right false false :: .reg left false false :: tail' ∧
        (tail = [] ∧ tail' = [] ∨ (∃ value, tail = [.imm value] ∧ tail' = [.imm value]) ∨
          ∃ r isUndef isDead, tail = [.reg r isUndef isDead] ∧ tail' = [.reg r false false]) := by
  unfold optimizeReversible at h
  split at h
  · cases h
    exact Or.inl rfl
  · rename_i opcode hop
    have hsome : instr.opcode.reversed.isSome := by
      rw [hop]
      rfl
    simp only [Option.bind_eq_bind, Option.bind_eq_some_iff] at h
    obtain ⟨result, -, left, hleft, right, hright, leftPos, -, rightPos, -, h⟩ := h
    split_ifs at h
    · obtain ⟨tail', htail, rfl⟩ := Option.map_eq_some_iff.mp h
      obtain ⟨op, hdefs⟩ := List.length_eq_one_iff.mp (instr.reversible_defs hsome)
      rw [RegInstr.operandReg, hdefs] at hleft hright
      rcases huses : instr.uses with _ | ⟨op₁, _ | ⟨op₂, tail⟩⟩
      · rw [huses] at hleft
        cases hleft
      · rw [huses] at hright
        cases hright
      · rw [huses] at hleft hright
        obtain ⟨ul, dl, rfl⟩ := getReg_eq_some hleft
        obtain ⟨ur, dr, rfl⟩ := getReg_eq_some hright
        exact Or.inr ⟨hop, left, right, ul, dl, ur, dr, tail, tail', rfl, rfl,
          reversibleTail_eq_some hdefs huses (hdesc.reversible hsome) htail⟩
    · cases h
      exact Or.inl rfl

theorem hasSForm_of_reversed {op rop : RegOpcode} (h : op.reversed = some rop) :
    op.hasSForm ∧ op.isTerminator = false ∧ rop.hasSForm := by
  cases op <;> cases h <;> exact ⟨rfl, rfl, rfl⟩

/-- The reversed instruction is described as well. -/
theorem described_optimizeReversible (hdesc : instr.Described)
    (h : optimizeReversible instr stack = some mi) (hskipped : instr.opcode.isSkipped = false)
    (himp : mi.opcode ≠ .IMPLICIT_DEF) (hhidden : mi.opcode ≠ .HIDDENSTACK) :
    mi.opcode.hasSForm ∧ mi.uses = mi.uses.filter RegOperand.isSymbol ++
      (mi.uses.filter RegOperand.isReg ++ mi.uses.filter RegOperand.isImm) := by
  rcases uses_optimizeReversible hdesc h with rfl | ⟨hrev, left, right, ul, dl, ur, dr, tail, tail',
    huses, huses', htail⟩
  · refine ⟨?_, hdesc.ordered⟩
    rcases hdesc.hasSForm with hform | hskip | hop | hop
    · exact hform
    · rw [hskipped] at hskip
      cases hskip
    · exact absurd hop himp
    · exact absurd hop hhidden
  · refine ⟨(hasSForm_of_reversed hrev).2.2, ?_⟩
    rw [huses']
    rcases htail with ⟨rfl, rfl⟩ | ⟨value, rfl, rfl⟩ | ⟨r, isUndef, isDead, rfl, rfl⟩ <;> rfl

/-- **The reversed instruction means the same.** -/
theorem regStep_optimizeReversible {Label Data State : Type} {meaning : Meaning Label Data State}
    {hidden : List (Value Label Data)} {s : RegState Label Data State}
    {out : Option (RegState Label Data State)} (hdesc : instr.Described)
    (h : optimizeReversible instr stack = some mi) (hstep : RegStep meaning hidden mi s out) :
    RegStep meaning hidden instr s out := by
  rcases uses_optimizeReversible hdesc h with rfl | ⟨hrev, left, right, ul, dl, ur, dr, tail, tail',
    huses, huses', htail⟩
  · exact hstep
  obtain ⟨hskipped, himp, hhidden⟩ := RegOpcode.prepared_reversed hrev
  cases hstep with
  | skipped _ hop =>
    rw [hskipped] at hop
    cases hop
  | implicitDef _ hop => exact absurd hop himp
  | hiddenStack _ hop => exact absurd hop hhidden
  | @exec xs _ _ _ hreads =>
    have hpassed : mi.passed = instr.passed := by
      unfold RegInstr.passed
      rw [huses, huses']
      rcases htail with ⟨rfl, rfl⟩ | ⟨value, rfl, rfl⟩ | ⟨r, isUndef, isDead, rfl, rfl⟩ <;> rfl
    -- the values of the first two operands change places
    unfold Reads at hreads
    rw [huses'] at hreads
    obtain ⟨y, x, zs, hy, hx, hzs, rfl⟩ : ∃ y x zs,
        OperandValue s.regs (.reg right false false) y ∧
        OperandValue s.regs (.reg left false false) x ∧
        List.Forall₂ (OperandValue s.regs) (tail'.filter RegOperand.isReg) zs ∧
        xs = y :: x :: zs := by
      cases hreads with
      | cons hy hrest =>
        cases hrest with
        | cons hx hzs => exact ⟨_, _, _, hy, hx, hzs, rfl⟩
    have hreads' : Reads s.regs instr.uses (x :: y :: zs) := by
      unfold Reads
      rw [huses]
      refine List.Forall₂.cons (fun _ => hx rfl) (List.Forall₂.cons (fun _ => hy rfl) ?_)
      rcases htail with ⟨rfl, rfl⟩ | ⟨value, rfl, rfl⟩ | ⟨r, isUndef, isDead, rfl, rfl⟩
      · exact hzs
      · exact hzs
      · cases hzs with
        | cons hz hnil =>
          cases hnil
          exact List.Forall₂.cons (fun _ => hz rfl) List.Forall₂.nil
    have hdefs := (defRegs_optimizeReversible h).1
    have hlen : mi.defs.length = instr.defs.length := by
      rw [← length_defRegs, ← length_defRegs, hdefs]
    rw [meaning.reversed _ _ _ _ _ _ _ _ hrev, hpassed, hdefs, hlen]
    obtain ⟨hform, hterm, -⟩ := hasSForm_of_reversed hrev
    exact RegStep.exec s hform hterm hreads'

end Reversed

/-! ## One instruction -/

section Step

variable {Block : Type} [DecidableEq Block]

/-- Where operands are prepared, they are not in one of the two arrangements that a stack pattern
gets wrong. The instruction is looked at in the form in which it is prepared. -/
def Arranged (fn : RegFunction Block) (b : Block) (node : Node) (st : ModelState Block) : Prop :=
  ∀ mi, optimizeReversible node.instr st.stack = some mi → ¬mi.opcode.isReturn →
    ¬((mi.opcode.isTerminator ∨ node.isLast) ∧ fn.cfg.succs b ≠ []) →
    (∀ a ∈ mi.args (fn.vnInfoAt b node.index), a.vreg ≠ unusedReg) →
      ¬ (SecondOnTop st.stack (mi.args (fn.vnInfoAt b node.index)) ∨
        ThirdRepeatsSecond st.stack (mi.args (fn.vnInfoAt b node.index)))

omit [DecidableEq Block] in
/-- Only three operands can be misplaced. -/
theorem arranged_of_length {fn : RegFunction Block} {b : Block} {node : Node}
    {st : ModelState Block} (h : ∀ mi, optimizeReversible node.instr st.stack = some mi →
      mi.useRegs.length ≠ 3) : Arranged fn b node st := by
  intro mi hmi _ _ _
  have hlength := mi.length_args (fn.vnInfoAt b node.index)
  rintro (⟨_, _, _, _, _, hargs, -⟩ | ⟨_, _, _, _, _, hargs, -⟩) <;>
    exact h mi hmi (by rw [← hlength, hargs]; rfl)

variable {Label Data State : Type}

/-- The machine is in the state of the register form, and its stack holds the values of the
registers above what is hidden from the function. -/
def Agrees (hidden : List (Value Label Data)) (stack : Stack) (s : RegState Label Data State)
    (t : State × List (Value Label Data)) : Prop :=
  t.1 = s.state ∧ ∃ values, t.2 = values ++ hidden ∧ Holds s.regs stack values

variable {meaning : Meaning Label Data State} {hidden : List (Value Label Data)}
  {fn : RegFunction Block} {b : Block} {node : Node} {st st' : ModelState Block}
  {s : RegState Label Data State} {values : List (Value Label Data)}

/-- The operands are on top, the last one uppermost, or the two of a commutable instruction in the
other order. -/
theorem top_of_DiffForArgs {mi : RegInstr} {stack r : Stack} {vnInfoAt : StackVreg → Bool}
    {fix : List Change} (hstack : NoRepetition stack)
    (hfine : (∀ a ∈ mi.args vnInfoAt, a.vreg ≠ unusedReg) →
      ¬ (SecondOnTop stack (mi.args vnInfoAt) ∨ ThirdRepeatsSecond stack (mi.args vnInfoAt)))
    (hfix : DiffForArgs stack (mi.args vnInfoAt) mi.opcode.isCommutable = some fix)
    (hrun : applyAll unusedReg fix stack = some r) :
    ∃ rest, r = ((mi.args vnInfoAt).map MIArg.vreg).reverse ++ rest ∨
      mi.opcode.isCommutable ∧ ∃ a b, mi.args vnInfoAt = [a, b] ∧ r = a.vreg :: b.vreg :: rest := by
  have hargs := DiffForArgs_present hfix
  obtain ⟨changes, r', hchanges, hrun', rest, rfl, -⟩ :=
    DiffForArgs_placed hstack (flagsAgree_args mi vnInfoAt) hargs hfine
  refine ⟨rest, ?_⟩
  cases hcomm : mi.opcode.isCommutable with
  | false =>
    rw [hcomm] at hfix
    obtain rfl := Option.some.inj (hfix.symm.trans hchanges)
    exact Or.inl (Option.some.inj (hrun.symm.trans hrun'))
  | true =>
    rw [hcomm] at hfix
    obtain ⟨changes', hchanges', hsame⟩ := DiffForArgs_optimized hchanges
    obtain rfl := Option.some.inj (hfix.symm.trans hchanges')
    rcases hsame with rfl | rfl
    · exact Or.inl (Option.some.inj (hrun.symm.trans hrun'))
    · -- the exchange that is left out has put the operands into their order
      obtain ⟨a, b, hab⟩ := List.length_eq_two.mp (length_args_of_isCommutable mi vnInfoAt hcomm)
      rw [applyAll_append, hrun, Option.bind_some, applyAll_singleton] at hrun'
      have hback := swapAt_swapAt hrun'
      rw [hab] at hback
      exact Or.inr ⟨rfl, a, b, hab, (Option.some.inj (hback.symm.trans (swapAt_one _ _ _)))⟩

/-- The fixup puts the values that the instruction reads on top, up to the order of the operands of
a commutable one. -/
theorem exists_values_of_DiffForArgs {mi : RegInstr} {stack r : Stack}
    {vnInfoAt : StackVreg → Bool} {fix : List Change}
    {regs : StackVreg → Option (Value Label Data)} (hstack : NoRepetition stack)
    (hfine : (∀ a ∈ mi.args vnInfoAt, a.vreg ≠ unusedReg) →
      ¬ (SecondOnTop stack (mi.args vnInfoAt) ∨ ThirdRepeatsSecond stack (mi.args vnInfoAt)))
    (hfix : DiffForArgs stack (mi.args vnInfoAt) mi.opcode.isCommutable = some fix)
    (hrun : applyAll unusedReg fix stack = some r) (hvalues : Holds regs stack values) :
    ∃ xs ys zs, applyAll (.int 0) fix values = some (xs.reverse ++ ys) ∧
      xs.length = mi.useRegs.length ∧ Reads regs mi.uses zs ∧
      (xs = zs ∨ mi.opcode.isCommutable ∧ ∃ x y, xs = [y, x] ∧ zs = [x, y]) ∧
      Holds regs (r.drop mi.useRegs.length) ys := by
  obtain ⟨values', hvalues', hholds⟩ := hvalues.applyAll hrun
  have hlen := mi.length_args vnInfoAt
  obtain ⟨rest, rfl | ⟨hcomm, a, b, hab, rfl⟩⟩ := top_of_DiffForArgs hstack hfine hfix hrun
  · obtain ⟨us, ys, rfl, hus, hys⟩ := hholds.append_inv
    have hreads := reads_of_holds (List.forall₂_reverse_iff.mp (by
      rw [List.reverse_reverse]
      exact hus) : Holds regs ((mi.args vnInfoAt).map MIArg.vreg) us.reverse)
    refine ⟨us.reverse, ys, us.reverse, by rw [hvalues', List.reverse_reverse], ?_, hreads,
      Or.inl rfl, ?_⟩
    · rw [List.length_reverse, hus.length_eq, List.length_reverse, List.length_map, hlen]
    · rwa [List.drop_left' (by rw [List.length_reverse, List.length_map, hlen])]
  · -- the values come in the other order
    cases hholds with
    | @cons _ x _ _ hx hholds =>
      cases hholds with
      | @cons _ y _ ys hy hys =>
        have hreads : Reads regs mi.uses [x, y] := by
          refine reads_of_holds (?_ : Holds regs ((mi.args vnInfoAt).map MIArg.vreg) [x, y])
          rw [hab]
          exact List.Forall₂.cons hx (List.Forall₂.cons hy List.Forall₂.nil)
        rw [hab] at hlen
        refine ⟨[y, x], ys, [x, y], hvalues', hlen, hreads, Or.inr ⟨hcomm, x, y, rfl, rfl⟩, ?_⟩
        rw [← hlen]
        exact hys

/-- Below the operands there is no register twice, and none that the instruction defines. -/
theorem noRepetition_of_DiffForArgs {mi : RegInstr} {stack r rest : Stack}
    {vnInfoAt : StackVreg → Bool} {fix : List Change} (hstack : NoRepetition stack)
    (hreads : ∀ v ∈ mi.defRegs, v ≠ unusedReg → v ∈ stack → v ∈ mi.readRegs)
    (hfix : DiffForArgs stack (mi.args vnInfoAt) mi.opcode.isCommutable = some fix)
    (hrun : applyAll unusedReg fix stack = some r)
    (hrest : consumeArguments r mi.useRegs.length = some rest) :
    NoRepetition rest ∧ ∀ v ∈ mi.defRegs, v ≠ unusedReg → v ∉ rest := by
  have hbelow := below_diffForArgs hstack hfix hrun hrest
  refine ⟨hstack.of_count_le fun v hv => (hbelow v hv).1, fun v hv hne hmem => ?_⟩
  obtain ⟨hle, hkilled⟩ := hbelow v hne
  have hpos := List.count_pos_iff.mpr hmem
  have hread := hreads v hv hne (List.count_pos_iff.mp (hpos.trans_le hle))
  rw [hkilled (killed_of_mem_defRegs mi _ hread hv)] at hpos
  exact absurd hpos (lt_irrefl 0)

theorem noRepetition_rewriteToSForm {mi : RegInstr} {stack : Stack} (h : NoRepetition stack) :
    NoRepetition (rewriteToSForm mi stack) := by
  unfold rewriteToSForm
  split_ifs
  · exact h.map fun v => by split_ifs <;> simp
  · exact h

theorem Holds.rewriteToSForm {mi : RegInstr} {regs : StackVreg → Option (Value Label Data)}
    {stack : Stack} (h : Holds regs stack values) : Holds regs (rewriteToSForm mi stack) values := by
  unfold TVMCompiler.rewriteToSForm
  split_ifs
  · exact h.map fun v => by split_ifs <;> simp
  · exact h

/-- An instruction whose operands are prepared. -/
theorem args_preserves {mi : RegInstr} {stack r t : Stack} {vnInfoAt : StackVreg → Bool}
    {fix : List Change} {code : List (List (StackInstr Label))} (hform : mi.opcode.hasSForm)
    (hterm : mi.opcode.isTerminator = false) (himp : mi.opcode ≠ .IMPLICIT_DEF)
    (hordered : mi.uses = mi.uses.filter RegOperand.isSymbol ++
      (mi.uses.filter RegOperand.isReg ++ mi.uses.filter RegOperand.isImm))
    (hstack : NoRepetition stack) (hnodup : mi.defRegs.Nodup)
    (hreads : ∀ v ∈ mi.defRegs, v ≠ unusedReg → v ∈ stack → v ∈ mi.readRegs)
    (hfine : (∀ a ∈ mi.args vnInfoAt, a.vreg ≠ unusedReg) →
      ¬ (SecondOnTop stack (mi.args vnInfoAt) ∨ ThirdRepeatsSecond stack (mi.args vnInfoAt)))
    (hfix : DiffForArgs stack (mi.args vnInfoAt) mi.opcode.isCommutable = some fix)
    (hrun : applyAll unusedReg fix stack = some r)
    (hexec : modelInstructionExecution mi r = some t)
    (hcode : fix.mapM Change.instruction = some code) (hvalues : Holds s.regs stack values) :
    NoRepetition (rewriteToSForm mi t) ∧ ∃ out, RegStep meaning hidden mi s out ∧
      Option.Rel (Agrees hidden (rewriteToSForm mi t)) out
        (runAll meaning (code.flatten.map .fixup ++
          [.sForm mi.opcode mi.sFormOperands mi.useRegs.length mi.defs.length])
          (s.state, values ++ hidden)) := by
  rw [modelInstructionExecution, if_neg himp] at hexec
  obtain ⟨rest, hrest, rfl⟩ := Option.map_eq_some_iff.mp hexec
  obtain ⟨htidy, hnew⟩ := noRepetition_of_DiffForArgs hstack hreads hfix hrun hrest
  obtain ⟨xs, ys, zs, hvalues', hlen, hzs, hsame, hys⟩ :=
    exists_values_of_DiffForArgs hstack hfine hfix hrun hvalues
  have hsame : meaning.exec mi.opcode mi.passed s.state xs mi.defs.length =
      meaning.exec mi.opcode mi.passed s.state zs mi.defs.length := by
    rcases hsame with rfl | ⟨hcomm, x, y, rfl, rfl⟩
    · rfl
    · exact meaning.commutable _ _ _ _ _ _ hcomm
  refine ⟨noRepetition_rewriteToSForm (htidy.append hnodup hnew), _,
    RegStep.exec s hform hterm hzs, ?_⟩
  rw [runAll_append, runAll_fixup meaning (visible_DiffForArgs hfix) hcode,
    applyAll_append_below hidden hvalues', Option.map_some, Option.bind_some, runAll_singleton,
    List.append_assoc, exec_sForm meaning hlen, sFormOperands_eq hordered, hsame]
  cases meaning.exec mi.opcode mi.passed s.state zs mi.defs.length with
  | none => exact Option.Rel.none
  | some p =>
    refine Option.Rel.some ⟨rfl, p.2.toList.reverse ++ ys, (List.append_assoc _ _ _).symm, ?_⟩
    obtain ⟨-, rfl⟩ := consumeArguments_eq_some.mp hrest
    refine Holds.rewriteToSForm (hys.results hnodup ?_ hnew)
    rw [Vector.length_toList, length_defRegs]

/-- The instruction that pushes a hidden slot. -/
theorem hiddenStack_preserves {mi : RegInstr} {stack r t : Stack} {fix : List Change}
    {code : List (List (StackInstr Label))} (hop : mi.opcode = .HIDDENSTACK)
    (hstack : NoRepetition stack)
    (hreads : ∀ v ∈ mi.defRegs, v ≠ unusedReg → v ∈ stack → v ∈ mi.readRegs)
    (hfix : diffForHiddenStack mi stack = some fix)
    (hrun : applyAll unusedReg fix stack = some r)
    (hexec : modelInstructionExecution mi r = some t)
    (hcode : fix.mapM Change.instruction = some code) (hvalues : Holds s.regs stack values) :
    NoRepetition (rewriteToSForm mi t) ∧ ∃ out, RegStep meaning hidden mi s out ∧
      Option.Rel (Agrees hidden (rewriteToSForm mi t)) out
        (runAll meaning (code.flatten.map .fixup) (s.state, values ++ hidden)) := by
  have hform : mi.opcode.hasSForm = false := by
    rw [hop]
    rfl
  unfold diffForHiddenStack at hfix
  split at hfix
  · rename_i reg isUndef isDead element hdefs huses
    cases hfix
    cases hrun
    have huseRegs : mi.useRegs = [] := by
      rw [RegInstr.useRegs, huses]
      rfl
    have hdefRegs : mi.defRegs = [reg] := by
      rw [RegInstr.defRegs, hdefs]
      rfl
    have hreadRegs : mi.readRegs = [] := by
      rw [RegInstr.readRegs, huses]
      rfl
    rw [hdefRegs, hreadRegs] at hreads
    have himp : mi.opcode ≠ .IMPLICIT_DEF := fun h => by
      rw [hop] at h
      cases h
    rw [modelInstructionExecution_eq himp (by rw [huseRegs]; exact Nat.zero_le _), huseRegs,
      hdefRegs] at hexec
    cases hexec
    rw [rewriteToSForm, if_neg (by rw [hform]; exact Bool.false_ne_true)]
    have hnew : ∀ v ∈ [reg], v ≠ unusedReg → v ∉ stack := fun v hv hne hmem => by
      cases hreads v hv hne hmem
    refine ⟨hstack.append (List.nodup_singleton reg) hnew, _, RegStep.hiddenStack s hop hdefs huses,
      ?_⟩
    -- the pushed slot is below all those of the model stack
    obtain ⟨is, his, hcode⟩ := Option.bind_eq_some_iff.mp hcode
    cases hcode
    have his : (Change.pushI (stack.length + element.toNat)).instruction = some is := his
    have hvisible : (Change.pushI (stack.length + element.toNat)).Visible := trivial
    rw [List.reverse_singleton, List.flatten_singleton, runAll_map_fixup,
      execAll_instruction _ hvisible his]
    show Option.Rel _ _ ((pushAt (values ++ hidden) (stack.length + element.toNat)).map _)
    rw [← hvalues.length_eq, pushAt, List.getElem?_append_right (Nat.le_add_right _ _),
      Nat.add_sub_cancel_left]
    cases hidden[element.toNat]? with
    | none => exact Option.Rel.none
    | some x =>
      refine Option.Rel.some ⟨rfl, x :: values, rfl, ?_⟩
      exact hvalues.results (List.nodup_singleton reg) (rfl : [x].length = [reg].length) hnew
  · cases hfix

/-- **One instruction** in front of the last one of its block: what is emitted for it does to the
machine what the instruction does to the registers. -/
theorem translateNode_preserves (hterm : node.instr.opcode.isTerminator = false)
    (hlast : node.isLast = false) (hdesc : node.instr.Described) (hundisturbed : Undisturbed node st)
    (harranged : Arranged fn b node st) (hstack : NoRepetition st.stack)
    (hvalues : Holds s.regs st.stack values) {code : List (SInstr Label)}
    (h : fn.translateNode stackFixups b st node = some (st', code)) :
    NoRepetition st'.stack ∧ ∃ out, RegStep meaning hidden node.instr s out ∧ Option.Rel
      (Agrees hidden st'.stack) out (runAll meaning code (s.state, values ++ hidden)) := by
  by_cases hskipped : node.instr.opcode.isSkipped
  · rw [RegFunction.translateNode, if_pos hskipped] at h
    cases h
    exact ⟨hstack, some s, RegStep.skipped s hskipped,
      Option.Rel.some ⟨rfl, values, rfl, hvalues⟩⟩
  obtain ⟨mi, infos, fix, r, t, is, hmi, hprepare, hr, ht, his, rfl, rfl⟩ :=
    RegFunction.translateNode_eq_some hskipped h
  have hterm' := isTerminator_optimizeReversible hterm hmi
  have hret : ¬mi.opcode.isReturn := fun hret => by
    rw [RegOpcode.isTerminator_of_isReturn hret] at hterm'
    cases hterm'
  have hinner : ¬((mi.opcode.isTerminator ∨ node.isLast) ∧ fn.cfg.succs b ≠ []) := by
    rw [hterm', hlast]
    rintro ⟨⟨⟨⟩⟩ | ⟨⟨⟩⟩, -⟩
  have hmean {out : Option (RegState Label Data State)} (h : RegStep meaning hidden mi s out) :
      RegStep meaning hidden node.instr s out := regStep_optimizeReversible hdesc hmi h
  by_cases himp : mi.opcode = .IMPLICIT_DEF
  · -- nothing happens on the stacks
    have hform : mi.opcode.hasSForm = false := by
      rw [himp]
      rfl
    rw [RegFunction.prepareStackFor, if_pos himp] at hprepare
    cases hprepare
    cases hr
    rw [modelInstructionExecution, if_pos himp] at ht
    cases ht
    cases his
    refine ⟨noRepetition_rewriteToSForm hstack, _, hmean (RegStep.implicitDef s himp), ?_⟩
    rw [if_neg (by rw [hform]; exact Bool.false_ne_true)]
    exact Option.Rel.some ⟨rfl, values, rfl, hvalues.undefine.rewriteToSForm⟩
  obtain ⟨hnodup, hreads⟩ := hundisturbed (by simpa using hskipped) mi hmi himp
  by_cases hhidden : mi.opcode = .HIDDENSTACK
  · have hform : mi.opcode.hasSForm = false := by
      rw [hhidden]
      rfl
    rw [RegFunction.prepareStackFor, if_neg himp, if_pos hhidden] at hprepare
    obtain ⟨fix, hfix, heq⟩ := Option.map_eq_some_iff.mp hprepare
    cases heq
    obtain ⟨htidy, out, hstep, hrel⟩ := hiddenStack_preserves hhidden hstack hreads hfix hr ht
      his hvalues
    refine ⟨htidy, out, hmean hstep, ?_⟩
    rw [if_neg (by rw [hform]; exact Bool.false_ne_true), List.append_nil]
    exact hrel
  · obtain ⟨hform, hordered⟩ := described_optimizeReversible hdesc hmi (by simpa using hskipped)
      himp hhidden
    rw [RegFunction.prepareStackFor, if_neg himp, if_neg hhidden, filteredByMIdefs_eq,
      Option.bind_some, if_neg hret, if_neg hinner] at hprepare
    obtain ⟨fix, hfix, heq⟩ := Option.map_eq_some_iff.mp hprepare
    cases heq
    obtain ⟨htidy, out, hstep, hrel⟩ := args_preserves hform hterm' himp hordered hstack hnodup
      hreads (harranged mi hmi hret hinner) hfix hr ht his hvalues
    refine ⟨htidy, out, hmean hstep, ?_⟩
    rw [if_pos hform]
    exact hrel

end Step

/-! ## A sequence of instructions -/

section Run

variable {Block : Type} [DecidableEq Block] {Label Data State : Type}
  {meaning : Meaning Label Data State} {hidden : List (Value Label Data)}
  {fn : RegFunction Block} {b : Block}

/-- **The stack model preserves meaning in front of the last instruction of a block**: from a stack
without repetitions that holds every live register it emits code that leaves the machine with the
values of the registers in their slots, and every live register that has a value is on the stack
again, once. This holds for every sequence in which no instruction defines a register that it finds
on the stack without reading it, and no fixup is one of those that misplace an operand. -/
theorem translate_preserves (hlive : fn.LivenessSound) (hdesc : ∀ mi ∈ fn.instrs b, mi.Described)
    {before instrs rest : List RegInstr} (hb : fn.instrs b = before ++ (instrs ++ rest))
    (hterm : ∀ mi ∈ instrs, mi.opcode.isTerminator = false) {st st' : ModelState Block}
    {code : List (SInstr Label)} (hstack : NoRepetition st.stack)
    (hon : LiveOnStack fn b before st.stack)
    (hrun : AlongM (fn.processNode stackFixups b)
      (fun node st => Undisturbed node st ∧ Arranged fn b node st) st
      (innerNodes before.length instrs))
    {s : RegState Label Data State} {values : List (Value Label Data)}
    (hvalues : Holds s.regs st.stack values)
    (h : fn.translate stackFixups b (innerNodes before.length instrs) st = some (st', code)) :
    NoRepetition st'.stack ∧ LiveOnStack fn b (before ++ instrs) st'.stack ∧
      ∃ out, RegRun meaning hidden instrs s out ∧
        Option.Rel (Agrees hidden st'.stack) out (runAll meaning code (s.state, values ++ hidden)) := by
  induction instrs generalizing before st s values code with
  | nil =>
    cases h
    rw [List.append_nil]
    exact ⟨hstack, hon, some s, RegRun.nil s, Option.Rel.some ⟨rfl, values, rfl, hvalues⟩⟩
  | cons mi instrs ih =>
    obtain ⟨mid, first, later, hfirst, hlater, rfl⟩ := RegFunction.translate_cons_eq_some h
    have hmi : mi ∈ fn.instrs b :=
      hb ▸ List.mem_append_right _ (List.mem_append_left _ List.mem_cons_self)
    have hprocess := RegFunction.processNode_of_translateNode hfirst
    obtain ⟨hmid, out, hstep, hrel⟩ : NoRepetition mid.stack ∧
        ∃ out, RegStep meaning hidden mi s out ∧ Option.Rel (Agrees hidden mid.stack) out
          (runAll meaning first (s.state, values ++ hidden)) :=
      translateNode_preserves (hterm mi List.mem_cons_self) rfl (hdesc mi hmi) hrun.1.1 hrun.1.2
        hstack hvalues hfirst
    have hon' := hon.processNode (fun mi hmi => (hdesc mi hmi).skipped) hlive hb
      (hterm mi List.mem_cons_self) hstack hprocess
    -- the rest begins one instruction later
    have hlength : (before ++ [mi]).length = before.length + 1 := List.length_append
    have hlater' := hrun.2 mid hprocess
    rw [← hlength] at hlater hlater'
    have hb' : fn.instrs b = (before ++ [mi]) ++ (instrs ++ rest) := by
      rw [hb, List.append_assoc]
      rfl
    rw [List.append_cons before mi instrs, runAll_append]
    have hrest (s : RegState Label Data State) {values : List (Value Label Data)}
        (hvalues : Holds s.regs mid.stack values) :=
      ih hb' (fun mi h => hterm mi (List.mem_cons_of_mem _ h)) hmid hon' hlater' hvalues hlater
    generalize runAll meaning first (s.state, values ++ hidden) = result at hrel
    cases hrel with
    | none =>
      obtain ⟨hstack', hon'', -⟩ := hrest s (holds_map s.regs mid.stack)
      exact ⟨hstack', hon'', none, RegRun.throws hstep, Option.Rel.none⟩
    | @some s₁ t hagrees =>
      obtain ⟨hstate, values₁, ht, hvalues₁⟩ := hagrees
      obtain ⟨hstack', hon'', out, hrun, hrel⟩ := hrest s₁ hvalues₁
      refine ⟨hstack', hon'', out, RegRun.cons hstep hrun, ?_⟩
      obtain rfl : t = (s₁.state, values₁ ++ hidden) := Prod.ext hstate ht
      exact hrel

end Run

/-! ## A jump to a return -/

/-- Pushes the continuation of a block. -/
def pushcontMbb (reg : StackVreg) (bb : ℕ) : RegInstr where
  opcode := .other 2 ⟨false, false, false, true, return_terminator_id false⟩
  defs := [.reg reg false false]
  uses := [.symbol bb]
  defs_reg := isReg_of_mem_singleton reg
  terminator_defs := nofun
  commutable_uses := nofun
  reversible_defs := nofun

/-- Returns a register. -/
def ret (reg : StackVreg) : RegInstr where
  opcode := .other 3 ⟨true, true, false, true, return_terminator_id true⟩
  defs := []
  uses := [.reg reg false false]
  defs_reg := accept.defs_reg
  terminator_defs _ := rfl
  commutable_uses := nofun
  reversible_defs := nofun

/-- The first block jumps to the second one, which returns register 0. -/
def jumpReturn : RegFunction Bool :=
  { jumpAfter (loadConst (index2VirtReg 0) 7) with
    instrs := fun b => if b then [ret (index2VirtReg 0)] else
      [loadConst (index2VirtReg 0) 7, pushcontMbb (index2VirtReg 1) 1, jmpx (index2VirtReg 1)] }

/-- Constants and continuations are pushed. -/
def pushMeaning : Meaning Bool Empty Unit where
  exec _ ops st xs n :=
    if h : n = 1 ∧ xs = [] then
      match ops with
      | [.imm value] => some (st, h.1 ▸ #v[.int value])
      | [.symbol bb] => some (st, h.1 ▸ #v[.cont (bb == 1)])
      | _ => none
    else none
  commutable _ _ _ _ _ _ _ := by simp
  reversed _ _ _ _ _ _ _ _ _ := by simp

theorem mem_instrs_jumpReturn {mi : RegInstr} {b : Bool} (h : mi ∈ jumpReturn.instrs b) :
    b = true ∧ mi = ret (index2VirtReg 0) ∨ b = false ∧ (mi = loadConst (index2VirtReg 0) 7 ∨
      mi = pushcontMbb (index2VirtReg 1) 1 ∨ mi = jmpx (index2VirtReg 1)) := by
  cases b with
  | true => exact Or.inl ⟨rfl, List.mem_singleton.mp h⟩
  | false =>
    have h : mi ∈ [loadConst (index2VirtReg 0) 7, pushcontMbb (index2VirtReg 1) 1,
      jmpx (index2VirtReg 1)] := h
    exact Or.inr ⟨rfl, by simpa using h⟩

theorem livenessSound_jumpReturn : jumpReturn.LivenessSound := by
  constructor
  · rintro b n mi v hmi ⟨hvalue, -⟩
    cases b with
    | true => cases hvalue
    | false =>
      have hv : v = index2VirtReg 0 ∨ v = index2VirtReg 1 ∧ n = 1 := by
        simpa [jumpReturn, jumpAfter] using hvalue
      -- register 0 is defined first, and stays
      rcases n with _ | _ | _ | n
      · cases hmi
        obtain rfl : v = index2VirtReg 0 := by simpa using hv
        exact Or.inl List.mem_cons_self
      · cases hmi
        rcases hv with rfl | ⟨rfl, -⟩
        · refine Or.inr ⟨rfl, fun mi' hmi' => ?_⟩
          cases hmi'
          exact List.not_mem_nil
        · exact Or.inl List.mem_cons_self
      · cases hmi
        obtain rfl : v = index2VirtReg 0 := by simpa using hv
        refine Or.inr ⟨rfl, fun mi' hmi' => ?_⟩
        cases hmi'
        exact List.not_mem_nil
      · cases hmi
  · intro p b v hb hv
    cases p with
    | true => cases hb
    | false =>
      obtain rfl : b = true := List.mem_singleton.mp hb
      obtain rfl : v = index2VirtReg 0 := by simpa [jumpReturn, jumpAfter] using hv
      refine ⟨rfl, fun mi hmi => ?_⟩
      cases hmi
      exact List.not_mem_nil

theorem described_jumpReturn (b : Bool) : ∀ mi ∈ jumpReturn.instrs b, mi.Described := by
  intro mi hmi
  rcases mem_instrs_jumpReturn hmi with ⟨-, rfl⟩ | ⟨-, rfl | rfl | rfl⟩ <;>
    exact ⟨rfl, nofun, nofun, fun _ => rfl, Or.inl rfl⟩

/-- In front of the jump no register is defined that is on the stack already. -/
theorem prepares_jumpReturn : AlongM (jumpReturn.processNode stackFixups false)
    (fun node st => Undisturbed node st ∧ Arranged jumpReturn false node st)
    ⟨jumpReturn.startInfos [], []⟩
    (innerNodes 0 [loadConst (index2VirtReg 0) 7, pushcontMbb (index2VirtReg 1) 1]) := by
  refine ⟨⟨fun _ mi hmi _ => ?_, arranged_of_length fun mi hmi => ?_⟩, fun st hst => ?_⟩
  · cases hmi
    exact ⟨List.nodup_singleton _, fun v _ _ hmem => by cases hmem⟩
  · cases hmi
    exact Nat.zero_ne_add_one 2
  · cases hst
    refine ⟨⟨fun _ mi hmi _ => ?_, arranged_of_length fun mi hmi => ?_⟩, fun _ _ => trivial⟩
    · cases hmi
      refine ⟨List.nodup_singleton _, fun v hv _ hmem => ?_⟩
      obtain rfl : v = index2VirtReg 1 := List.mem_singleton.mp hv
      exact absurd hmem (by decide)
    · cases hmi
      exact Nat.zero_ne_add_one 2

/-! ## Two subtractions -/

/-- Subtracts one register from another. -/
def subtract (reg left right : StackVreg) : RegInstr where
  opcode := .SUB
  defs := [.reg reg false false]
  uses := [.reg left false false, .reg right false false]
  defs_reg := isReg_of_mem_singleton reg
  terminator_defs := nofun
  commutable_uses := nofun
  reversible_defs := by simp

/-- The results of subtractions. -/
def subMeaning : Meaning Unit Empty Unit where
  exec op _ st xs n :=
    if h : n = 1 then
      match op, xs with
      | .SUB, [.int x, .int y] => some (st, h ▸ #v[.int (x - y)])
      | .SUBR, [.int x, .int y] => some (st, h ▸ #v[.int (y - x)])
      | _, _ => none
    else none
  commutable op _ _ _ _ _ h := by
    split_ifs
    · cases op <;> first | rfl | cases h
    · rfl
  reversed op rop _ _ x y xs _ h := by
    split_ifs
    · cases op <;> cases h <;> cases x <;> cases y <;> cases xs <;> rfl
    · rfl

/-- Register 1 is subtracted from register 0, and the result from register 1. -/
def subtractions : List RegInstr :=
  [subtract (index2VirtReg 2) (index2VirtReg 0) (index2VirtReg 1),
    subtract (index2VirtReg 3) (index2VirtReg 1) (index2VirtReg 2)]

/-- The subtractions, and a return of the result. -/
def subtractTwice : RegFunction Unit where
  cfg := ⟨(), fun _ => [], fun _ => [], mem_preds_oneBlock⟩
  layout := [()]
  instrs _ := subtractions ++ [ret (index2VirtReg 3)]
  road
    | (_, .roadBegin) => 1
    | (_, .roadEnd) => 2
  numVirtRegs := 4
  liveIn _ v := v = index2VirtReg 0 ∨ v = index2VirtReg 1
  liveOut _ _ := false
  vnInfoAt _ n v :=
    n = 0 ∧ (v = index2VirtReg 1 ∨ v = index2VirtReg 2) ∨ n = 1 ∧ v = index2VirtReg 3
  layout_nodup := List.nodup_singleton ()
  numVirtRegs_lt := by decide
  virtReg_of_live _ v h := by
    have hv : v = index2VirtReg 0 ∨ v = index2VirtReg 1 := by simpa using h
    rcases hv with rfl | rfl
    · exact List.mem_map_of_mem (by decide)
    · exact List.mem_map_of_mem (by decide)

/-- The values of the registers at the beginning. -/
def subtractOperands (v : StackVreg) : Option (Value Unit Empty) :=
  if v = index2VirtReg 0 then some (.int 10)
  else if v = index2VirtReg 1 then some (.int 3)
  else none

theorem mem_instrs_subtractTwice {mi : RegInstr} (h : mi ∈ subtractTwice.instrs ()) :
    mi = subtract (index2VirtReg 2) (index2VirtReg 0) (index2VirtReg 1) ∨
      mi = subtract (index2VirtReg 3) (index2VirtReg 1) (index2VirtReg 2) ∨
      mi = ret (index2VirtReg 3) := by
  have h : mi ∈ [subtract (index2VirtReg 2) (index2VirtReg 0) (index2VirtReg 1),
    subtract (index2VirtReg 3) (index2VirtReg 1) (index2VirtReg 2), ret (index2VirtReg 3)] := h
  simpa using h

theorem livenessSound_subtractTwice : subtractTwice.LivenessSound := by
  refine ⟨?_, fun p b v hb => by cases hb⟩
  rintro b n mi v hmi ⟨hvalue, -⟩
  have hv : n = 0 ∧ (v = index2VirtReg 1 ∨ v = index2VirtReg 2) ∨ n = 1 ∧ v = index2VirtReg 3 := by
    simpa [subtractTwice] using hvalue
  rcases hv with ⟨rfl, rfl | rfl⟩ | ⟨rfl, rfl⟩
  · exact Or.inr rfl
  · cases hmi
    exact Or.inl List.mem_cons_self
  · cases hmi
    exact Or.inl List.mem_cons_self

theorem described_subtractTwice : ∀ mi ∈ subtractTwice.instrs (), mi.Described := by
  intro mi hmi
  rcases mem_instrs_subtractTwice hmi with rfl | rfl | rfl
  · exact ⟨rfl, fun _ => rfl, nofun, nofun, Or.inl rfl⟩
  · exact ⟨rfl, fun _ => rfl, nofun, nofun, Or.inl rfl⟩
  · exact ⟨rfl, nofun, nofun, fun _ => rfl, Or.inl rfl⟩

/-- Each result is a register that is not on the stack. -/
theorem prepares_subtractTwice : AlongM (subtractTwice.processNode stackFixups ())
    (fun node st => Undisturbed node st ∧ Arranged subtractTwice () node st)
    ⟨subtractTwice.startInfos [index2VirtReg 0, index2VirtReg 1],
      [index2VirtReg 0, index2VirtReg 1]⟩ (innerNodes 0 subtractions) := by
  refine ⟨⟨fun _ mi hmi _ => ?_, arranged_of_length fun mi hmi => ?_⟩, fun st hst => ?_⟩
  · cases hmi
    refine ⟨List.nodup_singleton _, fun v hv _ hmem => ?_⟩
    obtain rfl : v = index2VirtReg 2 := List.mem_singleton.mp hv
    exact absurd hmem (by decide)
  · cases hmi
    exact (by decide : 2 ≠ 3)
  · cases hst
    refine ⟨⟨fun _ mi hmi _ => ?_, arranged_of_length fun mi hmi => ?_⟩, fun _ _ => trivial⟩
    · cases hmi
      refine ⟨List.nodup_singleton _, fun v hv _ hmem => ?_⟩
      obtain rfl : v = index2VirtReg 3 := List.mem_singleton.mp hv
      exact absurd hmem (by decide)
    · cases hmi
      exact (by decide : 2 ≠ 3)

/-- Both subtractions, of which the first one is reversed, from the stack of their operands, with
another slot below. -/
theorem translate_preserves_subtractTwice :
    NoRepetition [index2VirtReg 3] ∧ LiveOnStack subtractTwice () subtractions [index2VirtReg 3] ∧
      ∃ out, RegRun subMeaning [.int 9] subtractions ⟨subtractOperands, ()⟩ out ∧
        Option.Rel (Agrees [.int 9] [index2VirtReg 3]) out
          (runAll subMeaning [.fixup (.PUSH 1), .fixup (.XCHG_TOP 1), .sForm .SUBR [] 2 1,
            .sForm .SUB [] 2 1] ((), [.int 10, .int 3, .int 9])) := by
  refine @translate_preserves Unit _ Unit Empty Unit subMeaning [.int 9] subtractTwice ()
    livenessSound_subtractTwice described_subtractTwice [] subtractions [ret (index2VirtReg 3)] rfl
    (fun mi hmi => ?_)
    ⟨subtractTwice.startInfos [index2VirtReg 0, index2VirtReg 1],
      [index2VirtReg 0, index2VirtReg 1]⟩
    ⟨subtractTwice.startInfos [index2VirtReg 0, index2VirtReg 1], [index2VirtReg 3]⟩ _
    (noRepetition_iff.mpr rfl) (fun v _ hv _ => ?_) prepares_subtractTwice
    ⟨subtractOperands, ()⟩ [.int 10, .int 3] ?_ rfl
  · rcases List.mem_cons.mp hmi with rfl | hmi
    · rfl
    · obtain rfl := List.mem_singleton.mp hmi
      rfl
  · have hv : v = index2VirtReg 0 ∨ v = index2VirtReg 1 := of_decide_eq_true hv
    simpa using hv
  · refine .cons (fun _ y hy => ?_) (.cons (fun _ y hy => ?_) .nil)
    · cases hy
      rfl
    · cases hy
      rfl

end TVMCompiler
