import Mathlib.Data.List.TakeWhile
import TVMCompiler.Pass.ContinuationsHoist

/-!
# The branch interface

Generic passes take the branch at the end of a block apart and put it together again by
`analyzeBranch`, `removeBranch`, `insertBranch` and `reverseBranchCondition`. A jump that follows
a conditional one is looked at alone; when it is inserted again, the first terminator left in the
block becomes an `IFELSE` at the end of it.

## Main definitions

* `removeBranch`, `insertBranch`, `reverseBranchCondition`
* `transfer`: where control goes at the end of a block
* `Reinsertable`: the blocks whose branch can be inserted again

## Main results

* `control_terminators`: the terminators alone transfer control
* `getElem?_firstInstrTerminator`, `terminators_eraseIdx`: the terminator that is found first
* `continuation_buildPushcont`: what the registers hold behind a new `PUSHCONT_MBB`
-/

namespace TVMCompiler

variable {Block : Type}

/-- The terminators of a list of instructions. -/
def terminators (l : List (MachineInstr Block)) : List (MachineInstr Block) :=
  l.filter fun mi => mi.opcode.isTerminator

/-- A terminator is followed by terminators and debug instructions only. -/
abbrev TerminatorsLast (l : List (MachineInstr Block)) : Prop :=
  l.Pairwise fun mi mi' =>
    mi.opcode.isTerminator → mi'.opcode.isTerminator ∨ mi'.opcode.isDebugInstr

namespace Opcode

/-- The opcodes that `removeBranch` erases. -/
def isBranch : Opcode → Bool
  | JMPX | IFELSE | IFJMP | IFNOTJMP => true
  | _ => false

theorem isTerminator_of_isBranch {op : Opcode} (h : op.isBranch) : op.isTerminator := by
  cases op <;> first | rfl | cases h

theorem not_isTerminator_of_isDebugInstr {op : Opcode} (h : op.isDebugInstr) :
    op.isTerminator = false := by
  cases op <;> first | rfl | cases h

end Opcode

/-! ## The interface -/

namespace MachineFunction

section Interface

variable [DecidableEq Block] (f : MachineFunction Block)

def setInstrs (b : Block) (l : List (MachineInstr Block)) : MachineFunction Block :=
  { f with instrs := Function.update f.instrs b l }

/-- `removeBranch` on the instructions of the block: the last one that is no debug instruction
is erased if it is a branch. -/
def removeLastBranch (l : List (MachineInstr Block)) : List (MachineInstr Block) :=
  let debug := l.reverse.takeWhile fun mi => mi.opcode.isDebugInstr
  match l.reverse.dropWhile fun mi => mi.opcode.isDebugInstr with
  | [] => l
  | mi :: before => if mi.opcode.isBranch then before.reverse ++ debug.reverse else l

/-- `TVMInstrInfo::removeBranch`. -/
def removeBranch (b : Block) : MachineFunction Block :=
  f.setInstrs b (removeLastBranch (f.instrs b))

/-- `MachineBasicBlock::getFirstTerminator`. -/
def getFirstTerminator (b : Block) : Option (MachineInstr Block) :=
  (f.instrs b)[firstInstrTerminator (f.instrs b)]?

/-- `BuildMI` at the end of the block. -/
def buildMI (b : Block) (opcode : Opcode) (operands : List (MachineOperand Block)) :
    MachineFunction Block :=
  { f with
    instrs := Function.update f.instrs b (f.instrs b ++ [⟨f.nextId, opcode, operands⟩])
    nextId := f.nextId + 1 }

/-- `createVirtualRegister`, and a `PUSHCONT_MBB` that defines the register. -/
def buildPushcont (b t : Block) : MachineFunction Block :=
  { f.buildMI b .PUSHCONT_MBB
      [.register ⟨f.freshRegister, true, false, false, false⟩, .mbb t, .imm 0] with
    numVirtRegs := f.numVirtRegs + 1 }

/-- `addReg`. -/
def useOf (r : Register) : MachineOperand Block := .register ⟨r, false, false, false, false⟩

/-- `TVMInstrInfo::insertBranch`. The result is `none` where an assertion fails. -/
def insertBranch (b : Block) (tbb fbb : Option Block) (cond : List (MachineOperand Block)) :
    Option (MachineFunction Block) :=
  match tbb, fbb, cond with
  | some tbb, some fbb, [.imm inverted, pred] =>
    if (f.getFirstTerminator b).isSome then none
    else
      let trueReg := f.freshRegister
      let pushedTrue := f.buildPushcont b tbb
      let falseReg := pushedTrue.freshRegister
      let pushed := pushedTrue.buildPushcont b fbb
      if inverted = 0 then
        some (pushed.buildMI b .IFELSE [pred, useOf trueReg, useOf falseReg])
      else some (pushed.buildMI b .IFELSE [pred, useOf falseReg, useOf trueReg])
  | some tbb, none, [] =>
    match f.getFirstTerminator b with
    | none => some ((f.buildPushcont b tbb).buildMI b .JMPX [useOf f.freshRegister])
    | some ⟨_, .IFJMP, c :: .register t :: _⟩ =>
      -- the conditional jump becomes an `IFELSE`
      let erased := f.setInstrs b ((f.instrs b).eraseIdx (firstInstrTerminator (f.instrs b)))
      some ((erased.buildPushcont b tbb).buildMI b .IFELSE
        [c, useOf t.reg, useOf erased.freshRegister])
    | some ⟨_, .IFNOTJMP, c :: .register t :: _⟩ =>
      let erased := f.setInstrs b ((f.instrs b).eraseIdx (firstInstrTerminator (f.instrs b)))
      some ((erased.buildPushcont b tbb).buildMI b .IFELSE
        [c, useOf erased.freshRegister, useOf t.reg])
    | some _ => none
  | some tbb, none, [.imm inverted, pred] =>
    if (f.getFirstTerminator b).isSome then none
    else
      let opcode := if inverted = 0 then Opcode.IFJMP else Opcode.IFNOTJMP
      some ((f.buildPushcont b tbb).buildMI b opcode [pred, useOf f.freshRegister])
  | _, _, _ => none

end Interface

/-- `TVMInstrInfo::reverseBranchCondition`. -/
def reverseBranchCondition : List (MachineOperand Block) → Option (List (MachineOperand Block))
  | [.imm inverted, pred] => some [.imm (if inverted = 0 then 1 else 0), pred]
  | _ => none

end MachineFunction

/-! ## Where control goes -/

/-- The end of a block leads to a block, to a continuation in a register, or to the instructions
after the block; every other terminator is an end of its own. -/
inductive Transfer (Block : Type) where
  | block (b : Block)
  | register (r : Register)
  | fallThrough
  | leaves (mi : MachineInstr Block)

/-- A jump to the continuation in the register, where `κ` tells the blocks. -/
def jump (κ : Register → Option Block) (r : Register) : Transfer Block :=
  match κ r with
  | some b => .block b
  | none => .register r

/-- Control goes on where the first transfer falls through. -/
def Transfer.orElse : Transfer Block → Transfer Block → Transfer Block
  | .fallThrough, next => next
  | transfer, _ => transfer

/-- Where one instruction leads; `ρ` gives the values of the conditions. -/
def exit (κ : Register → Option Block) (ρ : Register → ℤ) (mi : MachineInstr Block) :
    Transfer Block :=
  match mi.opcode, mi.operands with
  | .JMPX, .register t :: _ => jump κ t.reg
  | .IFELSE, .register c :: .register t :: .register e :: _ =>
    if ρ c.reg ≠ 0 then jump κ t.reg else jump κ e.reg
  | .IFJMP, .register c :: .register t :: _ =>
    if ρ c.reg ≠ 0 then jump κ t.reg else .fallThrough
  | .IFNOTJMP, .register c :: .register t :: _ =>
    if ρ c.reg = 0 then jump κ t.reg else .fallThrough
  | opcode, _ => if opcode.isTerminator then .leaves mi else .fallThrough

/-- The instructions run one after the other. -/
def control (κ : Register → Option Block) (ρ : Register → ℤ) (l : List (MachineInstr Block)) :
    Transfer Block :=
  l.foldr (fun mi next => (exit κ ρ mi).orElse next) .fallThrough

namespace MachineFunction

variable [DecidableEq Block] (f : MachineFunction Block)

/-- Where control goes from the end of the block. -/
def transfer (b : Block) (ρ : Register → ℤ) : Transfer Block :=
  control f.continuation ρ (f.instrs b)

/-- What a branch becomes when it is removed and inserted leads to the same places. -/
def RoundTrips (b : Block) (tbb fbb : Option Block) (cond : List (MachineOperand Block)) : Prop :=
  ∃ g, (f.removeBranch b).insertBranch b tbb fbb cond = some g ∧
    ∀ ρ, g.transfer b ρ = f.transfer b ρ

/-- The instruction is a conditional jump on `c` to the continuation in `t`; `jumpsWhen` is
the truth of the condition on which it jumps. -/
def JumpsIf (mi : MachineInstr Block) (jumpsWhen : Bool) (c t : Register) : Prop :=
  mi.opcode = (if jumpsWhen then .IFJMP else .IFNOTJMP) ∧
    ∃ c' t' rest, mi.operands = .register c' :: .register t' :: rest ∧ c'.reg = c ∧ t'.reg = t

/-- The block ends in a branch that is its only terminator, or in a `JMPX` behind a conditional
jump. Whenever that one jumps, the terminators between the two would lead to the same place or
nowhere. -/
def Reinsertable (b : Block) : Prop :=
  ∃ before mi, terminators (f.instrs b) = before ++ [mi] ∧
    (before = [] ∨ mi.opcode = .JMPX ∧ ∃ first between jumpsWhen c t,
      before = first :: between ∧ JumpsIf first jumpsWhen c t ∧
      ∀ ρ : Register → ℤ, decide (ρ c ≠ 0) = jumpsWhen →
        control f.continuation ρ between = .fallThrough ∨
          control f.continuation ρ between = jump f.continuation t)

/-- All registers are below the next one. -/
def Fresh (f : MachineFunction Block) : Prop :=
  ∀ b, ∀ mi ∈ f.instrs b, ∀ r : RegisterOperand, .register r ∈ mi.operands →
    r.reg < f.freshRegister

/-- What holds of the instructions of a machine function: the terminators of a block come last,
a branch only reads registers, and registers are numbered in order. -/
structure WellFormedAt (b : Block) : Prop where
  mem : b ∈ f.layout
  last : TerminatorsLast (f.instrs b)
  operands : ∀ mi ∈ f.instrs b, mi.opcode.isBranch → ∀ op ∈ mi.operands,
    ∃ r : RegisterOperand, op = .register r ∧ r.isDef = false
  fresh : f.Fresh

end MachineFunction

/-! ## Control through a list of instructions -/

section Control

variable {κ κ' : Register → Option Block} {ρ : Register → ℤ}

@[simp] theorem orElse_fallThrough (t : Transfer Block) : t.orElse .fallThrough = t := by
  cases t <;> rfl

theorem orElse_assoc (t u v : Transfer Block) : (t.orElse u).orElse v = t.orElse (u.orElse v) := by
  cases t <;> rfl

/-- A jump is not made up for by what comes after it. -/
@[simp] theorem jump_orElse (κ : Register → Option Block) (r : Register) (t : Transfer Block) :
    (jump κ r).orElse t = jump κ r := by
  unfold jump
  cases κ r <;> rfl

theorem jump_ne_fallThrough (κ : Register → Option Block) (r : Register) :
    jump κ r ≠ .fallThrough := by
  unfold jump
  cases κ r <;> nofun

@[simp] theorem control_nil : control κ ρ [] = .fallThrough := rfl

@[simp] theorem control_cons (mi : MachineInstr Block) (l : List (MachineInstr Block)) :
    control κ ρ (mi :: l) = (exit κ ρ mi).orElse (control κ ρ l) := rfl

theorem control_append (l l' : List (MachineInstr Block)) :
    control κ ρ (l ++ l') = (control κ ρ l).orElse (control κ ρ l') := by
  induction l with
  | nil => rfl
  | cons mi l ih => rw [List.cons_append, control_cons, control_cons, ih, orElse_assoc]

/-- Only a terminator transfers control. -/
theorem exit_of_not_isTerminator {mi : MachineInstr Block} (h : mi.opcode.isTerminator = false) :
    exit κ ρ mi = .fallThrough := by
  unfold exit
  split
  case h_5 => rw [h]; rfl
  all_goals
    rename_i hop _
    rw [hop] at h
    cases h

theorem control_terminators (l : List (MachineInstr Block)) :
    control κ ρ (terminators l) = control κ ρ l := by
  induction l with
  | nil => rfl
  | cons mi l ih =>
    unfold terminators at ih ⊢
    cases hterm : mi.opcode.isTerminator with
    | true => rw [List.filter_cons_of_pos (by simpa using hterm), control_cons, control_cons, ih]
    | false =>
      rw [List.filter_cons_of_neg (by simp [hterm]), ih, control_cons,
        exit_of_not_isTerminator hterm]
      rfl

theorem jump_congr {r : Register} (h : κ r = κ' r) : jump κ r = jump κ' r := by
  rw [jump, h, jump]

/-- The exits depend on the registers of the instruction alone. -/
theorem exit_congr {mi : MachineInstr Block}
    (h : ∀ op : RegisterOperand, .register op ∈ mi.operands → κ op.reg = κ' op.reg) :
    exit κ ρ mi = exit κ' ρ mi := by
  unfold exit
  split
  · rename_i t _ _ hops
    exact jump_congr (h t (by simp [hops]))
  · rename_i c t e _ _ hops
    rw [jump_congr (h t (by simp [hops])), jump_congr (h e (by simp [hops]))]
  · rename_i c t _ _ hops
    rw [jump_congr (h t (by simp [hops]))]
  · rename_i c t _ _ hops
    rw [jump_congr (h t (by simp [hops]))]
  · rfl

theorem control_congr {l : List (MachineInstr Block)}
    (h : ∀ mi ∈ l, ∀ op : RegisterOperand, .register op ∈ mi.operands → κ op.reg = κ' op.reg) :
    control κ ρ l = control κ' ρ l := by
  induction l with
  | nil => rfl
  | cons mi l ih =>
    rw [control_cons, control_cons, exit_congr (h mi List.mem_cons_self),
      ih fun mi' hmi' => h mi' (List.mem_cons_of_mem _ hmi')]

theorem exit_jumpsIf {mi : MachineInstr Block} {jumpsWhen : Bool} {c t : Register}
    (h : MachineFunction.JumpsIf mi jumpsWhen c t) :
    exit κ ρ mi = if decide (ρ c ≠ 0) = jumpsWhen then jump κ t else .fallThrough := by
  obtain ⟨id, opcode, operands⟩ := mi
  obtain ⟨hop, c', t', rest, hoperands, rfl, rfl⟩ := h
  dsimp only at hop hoperands
  subst hop hoperands
  cases jumpsWhen with
  | true => simp [exit]
  | false => simp [exit]

end Control

/-! ## The end of a block -/

section Last

variable {l : List (MachineInstr Block)}

/-- The search from the end of the block finds the first terminator of all. -/
theorem firstInstrTerminator_eq_findIdx (h : TerminatorsLast l) :
    MachineFunction.firstInstrTerminator l = l.findIdx fun mi => mi.opcode.isTerminator := by
  set q : MachineInstr Block → Bool := fun mi => mi.opcode.isTerminator || mi.opcode.isDebugInstr
  have hsplit : l = (l.reverse.dropWhile q).reverse ++ (l.reverse.takeWhile q).reverse := by
    rw [← List.reverse_append, List.takeWhile_append_dropWhile, List.reverse_reverse]
  set front := (l.reverse.dropWhile q).reverse with hfront
  set back := (l.reverse.takeWhile q).reverse with hback
  have hstart : l.length - (l.reverse.takeWhile q).length = front.length := by
    have hlen := congrArg List.length hsplit
    have hlenBack : back.length = (l.reverse.takeWhile q).length := List.length_reverse
    rw [List.length_append] at hlen
    omega
  have hdrop : l.drop front.length = back := by
    conv_lhs => rw [hsplit]
    rw [List.drop_left]
  -- the instruction in front of the terminators is none, so that none comes before it
  have hnone : ∀ x ∈ front, x.opcode.isTerminator = false := by
    intro x hx
    rcases hcases : l.reverse.dropWhile q with _ | ⟨z, rest⟩
    · rw [hfront, hcases] at hx
      cases hx
    · have hz : q z = false := by
        have hhead := List.head?_dropWhile_not q l.reverse
        rw [hcases] at hhead
        simpa using hhead
      have hz' : z.opcode.isTerminator = false ∧ z.opcode.isDebugInstr = false := by
        simpa [q] using hz
      rw [hfront, hcases, List.reverse_cons] at hx hsplit
      rcases List.mem_append.mp hx with hx | hx
      · have hpair : TerminatorsLast ((rest.reverse ++ [z]) ++ back) := hsplit ▸ h
        have hxz := (List.pairwise_append.mp (List.pairwise_append.mp hpair).1).2.2 x hx z
          (List.mem_singleton_self z)
        by_contra hterm
        rcases hxz (by simpa using hterm) with hzt | hzd
        · rw [hz'.1] at hzt
          cases hzt
        · rw [hz'.2] at hzd
          cases hzd
      · rw [List.mem_singleton.mp hx]
        exact hz'.1
  unfold MachineFunction.firstInstrTerminator
  simp only [q] at hstart
  dsimp only
  rw [hstart, hdrop]
  conv_rhs => rw [hsplit]
  rw [List.findIdx_append, if_neg]
  · exact Nat.add_comm _ _
  · rintro hlt
    obtain ⟨x, hx, hterm⟩ := List.findIdx_lt_length.mp hlt
    rw [hnone x hx] at hterm
    cases hterm

theorem getElem?_firstInstrTerminator (h : TerminatorsLast l) :
    l[MachineFunction.firstInstrTerminator l]? = (terminators l).head? := by
  rw [firstInstrTerminator_eq_findIdx h, terminators, List.head?_filter]
  exact List.find?_eq_getElem?_findIdx.symm

theorem filter_eraseIdx_findIdx {α : Type*} (p : α → Bool) (l : List α) :
    (l.eraseIdx (l.findIdx p)).filter p = (l.filter p).tail := by
  induction l with
  | nil => rfl
  | cons a l ih =>
    cases hp : p a with
    | true => simp [List.findIdx_cons, hp]
    | false => simp [List.findIdx_cons, hp, ih]

theorem terminators_eraseIdx (h : TerminatorsLast l) :
    terminators (l.eraseIdx (MachineFunction.firstInstrTerminator l)) = (terminators l).tail := by
  rw [firstInstrTerminator_eq_findIdx h]
  exact filter_eraseIdx_findIdx _ l

theorem terminators_append (l l' : List (MachineInstr Block)) :
    terminators (l ++ l') = terminators l ++ terminators l' :=
  List.filter_append ..

theorem terminators_of_debug {l : List (MachineInstr Block)}
    (h : ∀ mi ∈ l, mi.opcode.isDebugInstr) : terminators l = [] := by
  refine List.filter_eq_nil_iff.mpr fun mi hmi hterm => ?_
  rw [Opcode.not_isTerminator_of_isDebugInstr (h mi hmi)] at hterm
  cases hterm

/-- The last instruction that is no debug instruction. -/
theorem eq_append_of_dropWhile {mi : MachineInstr Block} {before : List (MachineInstr Block)}
    (h : l.reverse.dropWhile (fun mi => mi.opcode.isDebugInstr) = mi :: before) :
    ∃ debug, l = before.reverse ++ mi :: debug ∧ (∀ d ∈ debug, d.opcode.isDebugInstr) ∧
      debug = (l.reverse.takeWhile fun mi => mi.opcode.isDebugInstr).reverse := by
  refine ⟨_, ?_, ?_, rfl⟩
  · have hsplit := List.takeWhile_append_dropWhile
      (p := fun mi : MachineInstr Block => mi.opcode.isDebugInstr) (l := l.reverse)
    rw [h] at hsplit
    have hrev := congrArg List.reverse hsplit
    rw [List.reverse_reverse, List.reverse_append, List.reverse_cons] at hrev
    exact hrev.symm.trans (by rw [List.append_assoc, List.singleton_append])
  · intro d hd
    have hdebug := List.mem_takeWhile_imp (List.mem_reverse.mp hd)
    exact hdebug

end Last

/-! ## The continuations in the registers -/

namespace MachineFunction

section Continuations

variable {f g : MachineFunction Block} {b t : Block}

/-- The instructions that define the register. -/
def defsOf (r : Register) (l : List (MachineInstr Block)) : List (MachineInstr Block) :=
  l.filter fun mi => mi.countDefs r ≠ 0

theorem getVRegDef_eq_head? (f : MachineFunction Block) (r : Register) :
    f.getVRegDef r = (f.layout.flatMap fun b => (defsOf r (f.instrs b)).map (b, ·)).head? := by
  rw [getVRegDef, ← List.head?_filter, allInstrs, List.filter_flatMap]
  congr 2
  funext b
  rw [List.filter_map]
  rfl

/-- What a register holds depends on the instructions that define it. -/
theorem continuation_congr {r : Register} (hlayout : g.layout = f.layout)
    (h : ∀ b, defsOf r (g.instrs b) = defsOf r (f.instrs b)) :
    g.continuation r = f.continuation r := by
  rw [continuation, continuation, getVRegDef_eq_head?, getVRegDef_eq_head?, hlayout]
  simp only [h]

theorem defsOf_append (r : Register) (l l' : List (MachineInstr Block)) :
    defsOf r (l ++ l') = defsOf r l ++ defsOf r l' :=
  List.filter_append ..

/-- An instruction that only reads registers defines none. -/
theorem countDefs_eq_zero {mi : MachineInstr Block} {r : Register}
    (h : ∀ op : RegisterOperand, .register op ∈ mi.operands → op.isDef = false ∨ op.reg ≠ r) :
    mi.countDefs r = 0 := by
  refine List.countP_eq_zero.mpr fun op hop hdef => ?_
  cases op with
  | register op =>
    have hboth : op.reg = r ∧ op.isDef = true := by simpa using hdef
    rcases h op hop with hnot | hne
    · rw [hboth.2] at hnot
      cases hnot
    · exact hne hboth.1
  | _ => cases hdef

theorem Fresh.defsOf_eq_nil (hf : f.Fresh) {r : Register} (hr : f.freshRegister ≤ r) (b : Block) :
    defsOf r (f.instrs b) = [] := by
  refine List.filter_eq_nil_iff.mpr fun mi hmi hne => ?_
  have hzero : mi.countDefs r = 0 :=
    countDefs_eq_zero fun op hop => Or.inr (Nat.ne_of_lt ((hf b mi hmi op hop).trans_le hr))
  simp [hzero] at hne

variable [DecidableEq Block]

@[simp] theorem buildMI_instrs_self (f : MachineFunction Block) (b : Block) (opcode : Opcode)
    (operands : List (MachineOperand Block)) :
    (f.buildMI b opcode operands).instrs b = f.instrs b ++ [⟨f.nextId, opcode, operands⟩] :=
  Function.update_self ..

/-- A branch that is built at the end of the block leaves all continuations. -/
theorem continuation_buildMI {opcode : Opcode} {operands : List (MachineOperand Block)}
    (h : ∀ op : RegisterOperand, .register op ∈ operands → op.isDef = false) (r : Register) :
    (f.buildMI b opcode operands).continuation r = f.continuation r := by
  refine continuation_congr rfl fun b' => ?_
  by_cases hb : b' = b
  · subst hb
    have hzero : (⟨f.nextId, opcode, operands⟩ : MachineInstr Block).countDefs r = 0 :=
      countDefs_eq_zero fun op hop => Or.inl (h op hop)
    rw [buildMI_instrs_self, defsOf_append]
    simp [defsOf, hzero]
  · simp [buildMI, hb]

theorem setInstrs_instrs_self (f : MachineFunction Block) (b : Block)
    (l : List (MachineInstr Block)) : (f.setInstrs b l).instrs b = l :=
  Function.update_self ..

/-- So do instructions that are erased, if they define no register. -/
theorem continuation_setInstrs {l : List (MachineInstr Block)} {r : Register}
    (h : defsOf r l = defsOf r (f.instrs b)) :
    (f.setInstrs b l).continuation r = f.continuation r := by
  refine continuation_congr rfl fun b' => ?_
  by_cases hb : b' = b
  · subst hb
    rw [setInstrs_instrs_self, h]
  · simp [setInstrs, hb]

theorem Fresh.setInstrs (hf : f.Fresh) {l : List (MachineInstr Block)}
    (h : ∀ mi ∈ l, mi ∈ f.instrs b) : (f.setInstrs b l).Fresh := by
  intro b' mi hmi r hr
  by_cases hb : b' = b
  · subst hb
    rw [setInstrs_instrs_self] at hmi
    exact hf b' mi (h mi hmi) r hr
  · have hsame : (f.setInstrs b l).instrs b' = f.instrs b' := Function.update_of_ne hb _ _
    rw [hsame] at hmi
    exact hf b' mi hmi r hr

@[simp] theorem buildPushcont_instrs_self (f : MachineFunction Block) (b t : Block) :
    (f.buildPushcont b t).instrs b = f.instrs b ++ [⟨f.nextId, .PUSHCONT_MBB,
      [.register ⟨f.freshRegister, true, false, false, false⟩, .mbb t, .imm 0]⟩] :=
  Function.update_self ..

theorem freshRegister_buildPushcont (f : MachineFunction Block) (b t : Block) :
    (f.buildPushcont b t).freshRegister = f.freshRegister + 1 := rfl

theorem Fresh.buildPushcont (hf : f.Fresh) (b t : Block) : (f.buildPushcont b t).Fresh := by
  intro b' mi hmi r hr
  rw [freshRegister_buildPushcont]
  by_cases hb : b' = b
  · subst hb
    rw [buildPushcont_instrs_self] at hmi
    rcases List.mem_append.mp hmi with hmi | hmi
    · exact Nat.lt_succ_of_lt (hf b' mi hmi r hr)
    · rw [List.mem_singleton.mp hmi] at hr
      have hreg : r = ⟨f.freshRegister, true, false, false, false⟩ := by simpa using hr
      rw [hreg]
      exact Nat.lt_succ_self _
  · have hsame : (f.buildPushcont b t).instrs b' = f.instrs b' := Function.update_of_ne hb _ _
    rw [hsame] at hmi
    exact Nat.lt_succ_of_lt (hf b' mi hmi r hr)

theorem head?_flatMap_single {α β : Type*} [DecidableEq α] {l : List α} {a : α} (h : a ∈ l)
    (x : β) : (l.flatMap fun a' => if a' = a then [x] else []).head? = some x := by
  induction l with
  | nil => cases h
  | cons a' l ih =>
    by_cases ha : a' = a
    · simp [ha]
    · have hl : a ∈ l := (List.mem_cons.mp h).resolve_left fun heq => ha heq.symm
      simpa [ha] using ih hl

/-- The new register holds the block that is pushed, the others what they did. -/
theorem continuation_buildPushcont (hf : f.Fresh) (hb : b ∈ f.layout) (t : Block) (r : Register) :
    (f.buildPushcont b t).continuation r =
      if r = f.freshRegister then some t else f.continuation r := by
  by_cases hr : r = f.freshRegister
  · subst hr
    rw [if_pos rfl, continuation, getVRegDef_eq_head?]
    have hdefs : (fun b' => (defsOf f.freshRegister ((f.buildPushcont b t).instrs b')).map (b', ·)) =
        fun b' => if b' = b then [(b, (⟨f.nextId, .PUSHCONT_MBB,
          [.register ⟨f.freshRegister, true, false, false, false⟩, .mbb t, .imm 0]⟩ :
            MachineInstr Block))] else [] := by
      funext b'
      by_cases hb' : b' = b
      · subst hb'
        rw [buildPushcont_instrs_self, defsOf_append, hf.defsOf_eq_nil le_rfl, if_pos rfl]
        simp [defsOf, MachineInstr.countDefs]
      · have hsame : (f.buildPushcont b t).instrs b' = f.instrs b' :=
          Function.update_of_ne hb' _ _
        rw [hsame, hf.defsOf_eq_nil le_rfl, if_neg hb']
        rfl
    have hlayout : (f.buildPushcont b t).layout = f.layout := rfl
    rw [hdefs, hlayout, head?_flatMap_single hb]
    rfl
  · rw [if_neg hr]
    refine continuation_congr rfl fun b' => ?_
    by_cases hb' : b' = b
    · subst hb'
      rw [buildPushcont_instrs_self, defsOf_append]
      simp [defsOf, MachineInstr.countDefs, Ne.symm hr]
    · have hsame : (f.buildPushcont b t).instrs b' = f.instrs b' := Function.update_of_ne hb' _ _
      rw [hsame]

end Continuations

end MachineFunction

end TVMCompiler
