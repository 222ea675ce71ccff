import TVMCompiler.StackModel.EdgeLayouts
import TVMCompiler.StackModel.RegForm

/-!
# Moving constants in front of their uses

`TVMMoveMaterializable` goes through the instructions of each block. A constant of the block with
one use is moved in front of the instruction that uses it, so that the constants come in the order
of the operands. An undefined operand without a definition gets a constant of its own.

## Main definitions

* `LiveIntervals`: what the pass asks of the analysis
* `getVRegDef`, `hasOneUse`: the two questions about an operand
* `processInstruction`, `runOnBasicBlocks`: the pass
* `LiveIntervals.Sound`, `RegFunction.Movable`: what holds of the functions that reach the pass

## Main results

* `Inv.facts_of_hasOneUse`: nothing in between asks for a constant that is moved
* `At.processUse`: what one operand does to the code
* `moveMaterializable_refines`: the pass preserves the meaning of the function
-/

namespace TVMCompiler

open Lib

/-! ## Constants -/

namespace RegOpcode

def CONST_I257 : RegOpcode := .other 0 ⟨false, false, false, true, return_terminator_id false⟩

def CONST_U257 : RegOpcode := .other 4 ⟨false, false, false, true, return_terminator_id false⟩

def PUSHNULL : RegOpcode := .other 5 ⟨false, false, false, true, return_terminator_id false⟩

def RET : RegOpcode := .other 3 ⟨true, true, false, true, return_terminator_id true⟩

/-- `TVM::isConstInt`. -/
def isConstInt (op : RegOpcode) : Bool := op = CONST_I257 || op = CONST_U257

/-- The instructions that are described as rematerializable. -/
def isRematerializable (op : RegOpcode) : Bool :=
  op.isConstInt || op = PUSHNULL || op = IMPLICIT_DEF

end RegOpcode

/-- `CONST_I257`. -/
def constI257 (reg : StackVreg) (value : ℤ) : RegInstr where
  opcode := .CONST_I257
  defs := [.reg reg false false]
  uses := [.imm value]
  defs_reg op hop := by
    obtain rfl := List.mem_singleton.mp hop
    rfl
  terminator_defs h := by cases h
  commutable_uses h := by cases h
  reversible_defs h := by cases h

/-- `ChangeToRegister` for a use. -/
def RegOperand.changeTo (reg : StackVreg) (op : RegOperand) : RegOperand :=
  if op.isReg then .reg reg false false else op

theorem RegOperand.isReg_changeTo (reg : StackVreg) (op : RegOperand) :
    (op.changeTo reg).isReg = op.isReg := by
  unfold changeTo
  split_ifs with h
  · exact h.symm
  · rfl

theorem countP_modify {α : Type} {p : α → Bool} {f : α → α} (hf : ∀ a, p (f a) = p a) (l : List α)
    (k : ℕ) : (l.modify k f).countP p = l.countP p := by
  induction l generalizing k with
  | nil => cases k <;> rfl
  | cons a l ih =>
    cases k with
    | zero => rw [List.modify_zero_cons, List.countP_cons, List.countP_cons, hf]
    | succ k => rw [List.modify_succ_cons, List.countP_cons, List.countP_cons, ih]

/-- The instruction with another register for one of its uses. -/
def RegInstr.setUse (mi : RegInstr) (k : ℕ) (reg : StackVreg) : RegInstr where
  opcode := mi.opcode
  defs := mi.defs
  uses := mi.uses.modify k (RegOperand.changeTo reg)
  defs_reg := mi.defs_reg
  terminator_defs := mi.terminator_defs
  commutable_uses h := by
    rw [← List.countP_eq_length_filter, countP_modify (RegOperand.isReg_changeTo reg),
      List.countP_eq_length_filter]
    exact mi.commutable_uses h
  reversible_defs := mi.reversible_defs

/-! ## The pass -/

/-- What the pass asks of the analysis: the definition that reaches an instruction in a register, as
a block and an index, and whether the instruction is the last one that it reaches. -/
structure LiveIntervals (Block : Type) where
  valueIn : Block → ℕ → StackVreg → Option (Block × ℕ)
  isKill : Block → ℕ → StackVreg → Bool

namespace MoveMaterializable

/-- An instruction of the block before the pass, by its index, or a new constant, by the number of
its register. -/
inductive ItemId where
  | old (n : ℕ)
  | new (n : ℕ)
  deriving DecidableEq

structure Item where
  id : ItemId
  instr : RegInstr

inductive VRegDef (Block : Type) where
  | argument
  | instr (b : Block) (id : ItemId)

structure State (Block : Type) where
  numVirtRegs : ℕ
  code : Block → List Item

section Lookup

variable {Block : Type} (layout : List Block) (arguments : List StackVreg)

def defsOf (code : Block → List Item) (r : StackVreg) : List (VRegDef Block) :=
  ((arguments.filter fun a => a = r).map fun _ => .argument) ++
    layout.flatMap fun b =>
      ((code b).filter fun i => r ∈ i.instr.defRegs).map fun i => .instr b i.id

/-- `MachineRegisterInfo::getUniqueVRegDef`. -/
def getUniqueVRegDef (code : Block → List Item) (r : StackVreg) : Option (VRegDef Block) :=
  match defsOf layout arguments code r with
  | [d] => some d
  | _ => none

/-- The operands that use a register, with their instructions. -/
def usesOf (code : Block → List Item) (r : StackVreg) : List (Block × Item) :=
  layout.flatMap fun b => (code b).flatMap fun i =>
    (i.instr.uses.filter fun op => op.getReg = some r).map fun _ => (b, i)

variable (lis : LiveIntervals Block)

/-- `GetVRegDef`. -/
def getVRegDef (code : Block → List Item) (b : Block) (n : ℕ) (r : StackVreg) :
    Option (VRegDef Block) :=
  (getUniqueVRegDef layout arguments code r).orElse fun _ =>
    (lis.valueIn b n r).map fun p => .instr p.1 (.old p.2)

variable [DecidableEq Block]

/-- The operand uses the value of the definition. -/
def usesValue (r : StackVreg) (b : Block) (d : ItemId) (u : Block × Item) : Bool :=
  match d, u.2.id with
  | .old m, .old n => lis.valueIn u.1 n r = some (b, m)
  | _, _ => false

/-- `HasOneUse`, for the definition in the block. -/
def hasOneUse (code : Block → List Item) (r : StackVreg) (b : Block) (d : ItemId) : Bool :=
  if (usesOf layout code r).length = 1 then true
  else
    match (usesOf layout code r).filter fun u =>
      u.2.instr.opcode ≠ .DBG_VALUE && usesValue lis r b d u with
    | [(b', ⟨.old n, _⟩)] => lis.isKill b' n r
    | _ => false

end Lookup

def find (l : List Item) (id : ItemId) : Option Item := l.find? fun i => i.id = id

/-- Inserts an instruction in front of another one. -/
def insertAt (before : ItemId) (item : Item) : List Item → List Item
  | [] => [item]
  | i :: l => if i.id = before then item :: i :: l else i :: insertAt before item l

/-- `MachineBasicBlock::splice`. -/
def splice (before : ItemId) (item : Item) (l : List Item) : List Item :=
  if before = item.id then l else insertAt before item (l.filter fun i => i.id ≠ item.id)

/-- The constant of an instruction that loads one, and else zero. -/
def constOf : Option Item → ℤ
  | some ⟨_, mi⟩ =>
    match mi.opcode.isConstInt, mi.uses with
    | true, .imm value :: _ => value
    | _, _ => 0
  | none => 0

section Pass

variable {Block : Type} [DecidableEq Block] (layout : List Block) (arguments : List StackVreg)
  (lis : LiveIntervals Block)

/-- An operand of an instruction, with the instruction in front of which to insert. -/
def processUse (b : Block) (n : ℕ) (p : State Block × ItemId) (k : ℕ) : State Block × ItemId :=
  match (find (p.1.code b) (.old n)).bind fun i => i.instr.uses[k]? with
  | some (.reg r isUndef _) =>
    match getVRegDef layout arguments lis p.1.code b n r with
    | some (.instr b' d) =>
      match find (p.1.code b') d with
      | some item =>
        if hasOneUse layout lis p.1.code r b' d ∧ b' = b ∧ item.instr.opcode.isRematerializable then
          (⟨p.1.numVirtRegs, Function.update p.1.code b (splice p.2 item (p.1.code b))⟩, d)
        else p
      | none => p
    | some .argument => p
    | none =>
      if isUndef then
        let reg := index2VirtReg p.1.numVirtRegs
        let id := ItemId.new p.1.numVirtRegs
        let l := insertAt p.2 ⟨id, constI257 reg (constOf (find (p.1.code b) p.2))⟩ (p.1.code b)
        (⟨p.1.numVirtRegs + 1, Function.update p.1.code b (l.map fun i =>
          if i.id = .old n then ⟨i.id, i.instr.setUse k reg⟩ else i)⟩, id)
      else p
  | _ => p

/-- `processInstruction`, with the uses in reverse order. -/
def processInstruction (b : Block) (st : State Block) (n : ℕ) : State Block :=
  match find (st.code b) (.old n) with
  | some i =>
    ((List.range i.instr.uses.length).reverse.foldl (processUse layout arguments lis b n)
      (st, .old n)).1
  | none => st

/-- The instructions of a block in their order before the pass, in which the ones behind the current
one stay. -/
def runOnBasicBlock (fn : RegFunction Block) (st : State Block) (b : Block) : State Block :=
  (List.range (fn.instrs b).length).foldl (processInstruction layout arguments lis b) st

/-- The instructions before the pass. -/
def items (l : List RegInstr) : List Item := l.mapIdx fun n mi => ⟨.old n, mi⟩

/-- `runOnBasicBlocks`. -/
def runOnBasicBlocks (fn : RegFunction Block) (blocks : List Block) : State Block :=
  blocks.foldl (runOnBasicBlock fn.layout arguments lis fn)
    ⟨fn.numVirtRegs, fun b => items (fn.instrs b)⟩

end Pass

/-! ## Lists of instructions -/

section Items

variable {l A B : List Item} {i item : Item} {id : ItemId}

theorem find_eq_some (h : find l id = some i) : i ∈ l ∧ i.id = id :=
  ⟨List.mem_of_find?_eq_some h, by simpa using List.find?_some h⟩

theorem find_of_mem (hnodup : (l.map Item.id).Nodup) (hi : i ∈ l) : find l i.id = some i := by
  induction l with
  | nil => cases hi
  | cons a l ih =>
    rw [List.map_cons, List.nodup_cons] at hnodup
    unfold find at ih ⊢
    rcases List.mem_cons.mp hi with rfl | hi
    · exact List.find?_cons_of_pos (decide_eq_true rfl)
    · have hne : a.id ≠ i.id := fun h => hnodup.1 (h ▸ List.mem_map_of_mem hi)
      rw [List.find?_cons_of_neg (by simpa using hne)]
      exact ih hnodup.2 hi

theorem insertAt_append (hA : ∀ a ∈ A, a.id ≠ i.id) :
    insertAt i.id item (A ++ i :: B) = A ++ item :: i :: B := by
  induction A with
  | nil => exact if_pos rfl
  | cons a A ih =>
    rw [List.cons_append, insertAt, if_neg (hA a List.mem_cons_self),
      ih fun a ha => hA a (List.mem_cons_of_mem _ ha)]
    rfl

theorem ne_of_nodup_append (hnodup : ((A ++ i :: B).map Item.id).Nodup) {a : Item}
    (ha : a ∈ A ++ B) : a.id ≠ i.id := by
  rw [List.map_append, List.map_cons, List.nodup_middle, List.nodup_cons] at hnodup
  rw [← List.map_append] at hnodup
  exact fun h => hnodup.1 (h ▸ List.mem_map_of_mem ha)

theorem filter_append (hnodup : ((A ++ i :: B).map Item.id).Nodup) :
    (A ++ i :: B).filter (fun a => a.id ≠ i.id) = A ++ B := by
  have hne {a : Item} (ha : a ∈ A ++ B) := ne_of_nodup_append hnodup ha
  rw [List.filter_append, List.filter_cons_of_neg (by simp)]
  rw [List.filter_eq_self.mpr fun a ha => by simpa using hne (List.mem_append_left _ ha),
    List.filter_eq_self.mpr fun a ha => by simpa using hne (List.mem_append_right _ ha)]

/-- An instruction is moved in front of a later one. -/
theorem splice_append {X Y T : List Item} {e : Item}
    (hnodup : ((X ++ item :: (Y ++ e :: T)).map Item.id).Nodup) :
    splice e.id item (X ++ item :: (Y ++ e :: T)) = X ++ (Y ++ item :: e :: T) := by
  have hne : e.id ≠ item.id := ne_of_nodup_append hnodup
    (List.mem_append_right _ (List.mem_append_right _ List.mem_cons_self))
  have hnodup' : ((X ++ item :: Y ++ e :: T).map Item.id).Nodup := by
    rw [List.append_assoc]
    exact hnodup
  rw [splice, if_neg hne, filter_append hnodup, ← List.append_assoc,
    insertAt_append fun a ha => ?_, List.append_assoc]
  refine ne_of_nodup_append hnodup' (List.mem_append_left _ ?_)
  rcases List.mem_append.mp ha with ha | ha
  · exact List.mem_append_left _ ha
  · exact List.mem_append_right _ (List.mem_cons_of_mem _ ha)

theorem drop_items {instrs : List RegInstr} {n : ℕ} {mi : RegInstr} (h : instrs[n]? = some mi) :
    (items instrs).drop n = ⟨.old n, mi⟩ :: (items instrs).drop (n + 1) := by
  obtain ⟨hn, rfl⟩ := List.getElem?_eq_some_iff.mp h
  have hlen : n < (items instrs).length := by rwa [items, List.length_mapIdx]
  rw [List.drop_eq_getElem_cons hlen]
  congr 1
  exact List.getElem_mapIdx ..

theorem mem_drop_items {instrs : List RegInstr} {n : ℕ} (h : i ∈ (items instrs).drop n) :
    ∃ j, n ≤ j ∧ i.id = .old j ∧ instrs[j]? = some i.instr := by
  obtain ⟨k, hk, rfl⟩ := List.mem_iff_getElem.mp h
  rw [List.getElem_drop]
  have hlen : n + k < instrs.length := by
    rw [List.length_drop, items, List.length_mapIdx] at hk
    omega
  refine ⟨n + k, Nat.le_add_right n k, ?_, ?_⟩
  · simp only [items, List.getElem_mapIdx]
  · simp only [items, List.getElem_mapIdx, List.getElem?_eq_getElem hlen]

theorem map_id_items (instrs : List RegInstr) :
    (items instrs).map Item.id = (List.range instrs.length).map .old := by
  refine List.ext_getElem? fun n => ?_
  rw [items, List.getElem?_map, List.getElem?_mapIdx, Option.map_map, List.getElem?_map]
  by_cases hn : n < instrs.length
  · rw [List.getElem?_range hn, List.getElem?_eq_getElem hn]
    rfl
  · rw [List.getElem?_eq_none (not_lt.mp hn),
      List.getElem?_eq_none (List.length_range.le.trans (not_lt.mp hn))]
    rfl

theorem map_instr_items (instrs : List RegInstr) : (items instrs).map Item.instr = instrs := by
  refine List.ext_getElem? fun n => ?_
  rw [items, List.getElem?_map, List.getElem?_mapIdx, Option.map_map]
  cases instrs[n]? <;> rfl

end Items

/-! ## An operand that is undefined -/

section SetUse

variable {mi : RegInstr} {k : ℕ} {reg r : StackVreg} {isDead : Bool}

theorem mem_modify {α : Type} {f : α → α} {l : List α} {a : α} (h : a ∈ l.modify k f) :
    a ∈ l ∨ ∃ x, l[k]? = some x ∧ a = f x := by
  obtain ⟨j, hj⟩ := List.mem_iff_getElem?.mp h
  rw [List.getElem?_modify] at hj
  obtain ⟨x, hx, hxa⟩ := Option.map_eq_some_iff.mp hj
  split_ifs at hxa with hkj
  · exact Or.inr ⟨x, hkj ▸ hx, hxa.symm⟩
  · exact Or.inl (hxa ▸ List.mem_of_getElem? hx)

theorem mem_setUse {op : RegOperand} (hk : mi.uses[k]? = some (.reg r true isDead))
    (h : op ∈ (mi.setUse k reg).uses) : op ∈ mi.uses ∨ op = .reg reg false false := by
  rcases mem_modify h with h | ⟨x, hx, rfl⟩
  · exact Or.inl h
  · rw [hk] at hx
    cases hx
    exact Or.inr rfl

variable {Label Data State : Type} {regs : StackVreg → Option (Value Label Data)}

theorem reads_of_modify {uses : List RegOperand} (hk : uses[k]? = some (.reg r true isDead))
    {xs : List (Value Label Data)} (h : Reads regs (uses.modify k (RegOperand.changeTo reg)) xs) :
    Reads regs uses xs := by
  unfold Reads at h ⊢
  induction uses generalizing k xs with
  | nil => cases hk
  | cons op uses ih =>
    cases k with
    | zero =>
      cases hk
      cases h with
      | cons hx h => exact List.Forall₂.cons (fun h => by cases h) h
    | succ k =>
      rw [List.modify_succ_cons] at h
      cases op with
      | reg =>
        cases h with
        | cons hx h => exact List.Forall₂.cons hx (ih hk h)
      | _ => exact ih hk h

theorem passed_setUse (hk : mi.uses[k]? = some (.reg r true isDead)) :
    (mi.setUse k reg).passed = mi.passed := by
  show (mi.uses.modify k (RegOperand.changeTo reg)).filter (fun op => !op.isReg) =
    mi.uses.filter fun op => !op.isReg
  generalize mi.uses = uses at hk
  induction uses generalizing k with
  | nil => cases hk
  | cons op uses ih =>
    cases k with
    | zero =>
      cases hk
      rfl
    | succ k =>
      rw [List.modify_succ_cons, List.filter_cons, List.filter_cons, ih hk]

/-- The undefined operand may stand for the new register. -/
theorem regStep_of_setUse {meaning : Meaning Label Data State} {hidden : List (Value Label Data)}
    {s : RegState Label Data State} {out : Option (RegState Label Data State)}
    (hk : mi.uses[k]? = some (.reg r true isDead))
    (h : RegStep meaning hidden (mi.setUse k reg) s out) : RegStep meaning hidden mi s out := by
  cases h with
  | skipped _ hop => exact .skipped s hop
  | implicitDef _ hop => exact .implicitDef s hop
  | hiddenStack _ hop hdefs huses =>
    -- it has no register operand
    have huses' : mi.uses.modify k (RegOperand.changeTo reg) = [.imm _] := huses
    have hlen := congrArg List.length huses'
    rw [List.length_modify] at hlen
    obtain ⟨op, hop'⟩ := List.length_eq_one_iff.mp hlen
    rw [hop'] at hk huses'
    cases k with
    | zero =>
      cases hk
      cases huses'
    | succ k => cases hk
  | exec _ hop hterm hreads =>
    have hpassed := @passed_setUse mi k reg r isDead hk
    rw [hpassed]
    exact .exec s hop hterm (reads_of_modify hk hreads)

theorem regLeaves_of_setUse {Block : Type}
    {jump : RegOpcode → List RegOperand → State → List (Value Block Data) → Option (State × Block)}
    {hidden : List (Value Block Data)} {s : RegState Block Data State}
    {out : (Block × RegState Block Data State) ⊕ Outcome Block Data State}
    (hk : mi.uses[k]? = some (.reg r true isDead))
    (h : RegLeaves jump hidden (mi.setUse k reg) s out) : RegLeaves jump hidden mi s out := by
  have hpassed := @passed_setUse mi k reg r isDead hk
  cases h with
  | ret _ hop hreads => exact .ret s hop (reads_of_modify hk hreads)
  | jump _ hop hret hreads hjump =>
    exact .jump s hop hret (reads_of_modify hk hreads) (hpassed ▸ hjump)
  | throws _ hop hret hreads hjump =>
    exact .throws s hop hret (reads_of_modify hk hreads) (hpassed ▸ hjump)

end SetUse

/-! ## The functions that reach the pass -/

end MoveMaterializable

section Hypotheses

variable {Block : Type}

/-- The definition of the register that is the last one in front of the instruction. -/
structure RegFunction.LastDef (fn : RegFunction Block) (b : Block) (n : ℕ) (r : StackVreg)
    (m : ℕ) : Prop where
  lt : m < n
  defines : ∃ mi, (fn.instrs b)[m]? = some mi ∧ r ∈ mi.defRegs
  last : ∀ l mi, m < l → l < n → (fn.instrs b)[l]? = some mi → r ∉ mi.defRegs

/-- The analysis knows the definitions that reach the instructions. -/
structure LiveIntervals.Sound (lis : LiveIntervals Block) (fn : RegFunction Block) : Prop where
  defines : ∀ b n r b' m, lis.valueIn b n r = some (b', m) →
    ∃ mi, (fn.instrs b')[m]? = some mi ∧ r ∈ mi.defRegs
  lastDef : ∀ b n r m mi, (fn.instrs b)[n]? = some mi → r ∈ mi.readRegs →
    (lis.valueIn b n r = some (b, m) ↔ fn.LastDef b n r m)

/-- What the pass relies on: the registers are the ones of the function, a rematerializable
instruction has one result and no register operand, debug instructions and labels name no register,
an undefined operand has no definition, and a register with one definition is read behind it where
both are in one block. -/
structure RegFunction.Movable (fn : RegFunction Block) (arguments : List StackVreg) : Prop where
  mem_layout : ∀ b, b ∈ fn.layout
  virtReg : ∀ b, ∀ mi ∈ fn.instrs b, ∀ r, r ∈ mi.defRegs ∨ r ∈ mi.useRegs →
    r ∈ virtRegs fn.numVirtRegs
  terminated : ∀ b, fn.EndsInOnlyTerminator b
  constant : ∀ b, ∀ mi ∈ fn.instrs b, mi.opcode.isRematerializable →
    mi.defs.length = 1 ∧ mi.useRegs = []
  skipped : ∀ b, ∀ mi ∈ fn.instrs b, mi.opcode.isSkipped → mi.defs = [] ∧ mi.useRegs = []
  undef : ∀ b, ∀ mi ∈ fn.instrs b, ∀ r isDead, .reg r true isDead ∈ mi.uses →
    r ∉ arguments ∧ ∀ b', ∀ mi' ∈ fn.instrs b', r ∉ mi'.defRegs
  once : ∀ b (m n : ℕ) mi mi' r, (fn.instrs b)[m]? = some mi → r ∈ mi.defRegs →
    (fn.instrs b)[n]? = some mi' → r ∈ mi'.readRegs →
      (∀ b' (l : ℕ) mi'', (fn.instrs b')[l]? = some mi'' → r ∈ mi''.defRegs →
        b' = b ∧ l = m) → m < n

/-- The rematerializable instructions load constants. -/
def Meaning.Constant {Label Data State : Type} (meaning : Meaning Label Data State) : Prop :=
  ∀ op ops, op.isConstInt ∨ op = .PUSHNULL →
    ∃ x, ∀ st, meaning.exec op ops st [] 1 = some (st, #v[x])

variable {Data State : Type} {meaning : Meaning Block Data State}
  {hidden : List (Value Block Data)} {mi : RegInstr}

theorem prepared_of_isRematerializable {op : RegOpcode} (hop : op.isRematerializable) :
    op.isSkipped = false ∧ op.isTerminator = false ∧ op ≠ .HIDDENSTACK ∧
      (op = .IMPLICIT_DEF ∨
        op ≠ .IMPLICIT_DEF ∧ op.hasSForm ∧ (op.isConstInt ∨ op = .PUSHNULL)) := by
  simp only [RegOpcode.isRematerializable, RegOpcode.isConstInt, Bool.or_eq_true,
    decide_eq_true_eq] at hop ⊢
  rcases hop with ((rfl | rfl) | rfl) | rfl <;>
    simp [RegOpcode.CONST_I257, RegOpcode.CONST_U257, RegOpcode.PUSHNULL, RegOpcode.isSkipped,
      RegOpcode.isTerminator, RegOpcode.hasSForm]

variable (hidden) in
/-- **A rematerializable instruction** gives its register a constant. -/
theorem exists_loadsConst (hmeaning : meaning.Constant) (hop : mi.opcode.isRematerializable)
    (hdefs : mi.defs.length = 1) (huses : mi.useRegs = []) :
    ∃ r x, LoadsConst meaning hidden mi r x := by
  obtain ⟨hskip, hterm, hhidden, hcase⟩ := prepared_of_isRematerializable hop
  obtain ⟨def₀, hdef₀⟩ := List.length_eq_one_iff.mp hdefs
  obtain ⟨r, hr⟩ : ∃ r, mi.defRegs = [r] := by
    have hreg := mi.defs_reg def₀ (hdef₀ ▸ List.mem_singleton_self def₀)
    cases def₀ with
    | reg r isUndef isDead => exact ⟨r, by rw [RegInstr.defRegs, hdef₀]; rfl⟩
    | _ => cases hreg
  have hnone : mi.uses.filter RegOperand.isReg = [] := by
    rw [List.filter_eq_nil_iff]
    intro op hop hreg
    cases op with
    | reg v isUndef isDead =>
      have hmem : v ∈ mi.useRegs := List.mem_filterMap.mpr ⟨_, hop, rfl⟩
      rw [huses] at hmem
      cases hmem
    | _ => cases hreg
  rcases hcase with himp | ⟨himp, hform, hconst⟩
  · refine ⟨r, none, hr, fun s o => ?_⟩
    have hstate : undefine s.regs mi.defRegs = Function.update s.regs r none := by
      funext v
      rw [undefine, hr]
      by_cases hv : v = r
      · rw [if_pos (hv ▸ List.mem_singleton_self v), hv, Function.update_self]
      · rw [if_neg fun h => hv (List.mem_singleton.mp h), Function.update_of_ne hv]
    constructor
    · intro h
      cases h with
      | skipped _ hskip' =>
        rw [hskip] at hskip'
        cases hskip'
      | implicitDef => rw [hstate]
      | hiddenStack _ hop' => exact absurd hop' hhidden
      | exec _ hform =>
        rw [himp] at hform
        cases hform
    · rintro rfl
      rw [← hstate]
      exact .implicitDef s himp
  · obtain ⟨x, hx⟩ := hmeaning mi.opcode mi.passed hconst
    refine ⟨r, some x, hr, fun s o => ?_⟩
    have hresult : ((meaning.exec mi.opcode mi.passed s.state [] mi.defs.length).map fun p =>
        (⟨writeResults s.regs mi.defRegs p.2.toList, p.1⟩ : RegState Block Data State)) =
          some ⟨Function.update s.regs r (some x), s.state⟩ := by
      rw [hr, hdefs, hx s.state]
      rfl
    constructor
    · intro h
      cases h with
      | skipped _ hskip' =>
        rw [hskip] at hskip'
        cases hskip'
      | implicitDef _ himp' => exact absurd himp' himp
      | hiddenStack _ hop' => exact absurd hop' hhidden
      | exec _ _ _ hreads =>
        rw [Reads, hnone] at hreads
        cases hreads
        exact hresult
    · rintro rfl
      rw [← hresult]
      refine .exec s hform hterm ?_
      rw [Reads, hnone]
      exact .nil

end Hypotheses

namespace MoveMaterializable

/-! ## The questions about an operand -/

section Questions

variable {Block : Type} {layout : List Block} {arguments : List StackVreg}
  {lis : LiveIntervals Block} {code : Block → List Item} {r : StackVreg} {b : Block}

theorem mem_usesOf {i : Item} :
    (b, i) ∈ usesOf layout code r ↔ b ∈ layout ∧ i ∈ code b ∧ r ∈ i.instr.useRegs := by
  simp only [usesOf, List.mem_flatMap, List.mem_map, List.mem_filter, decide_eq_true_eq,
    RegInstr.useRegs, List.mem_filterMap]
  constructor
  · rintro ⟨b', hb', i', hi', op, ⟨hop, hr⟩, heq⟩
    cases heq
    exact ⟨hb', hi', op, hop, hr⟩
  · rintro ⟨hb, hi, op, hop, hr⟩
    exact ⟨b, hb, i, hi, op, ⟨hop, hr⟩, rfl⟩

theorem mem_defsOf {id : ItemId} :
    .instr b id ∈ defsOf layout arguments code r ↔
      b ∈ layout ∧ ∃ i ∈ code b, i.id = id ∧ r ∈ i.instr.defRegs := by
  simp only [defsOf, List.mem_append, List.mem_flatMap, List.mem_map, List.mem_filter,
    decide_eq_true_eq]
  constructor
  · rintro (⟨a, -, heq⟩ | ⟨b', hb', i, ⟨hi, hr⟩, heq⟩)
    · cases heq
    · cases heq
      exact ⟨hb', i, hi, rfl, hr⟩
  · rintro ⟨hb, i, hi, rfl, hr⟩
    exact Or.inr ⟨b, hb, i, ⟨hi, hr⟩, rfl⟩

theorem mem_arguments (h : .argument ∈ defsOf layout arguments code r) : r ∈ arguments := by
  simp only [defsOf, List.mem_append, List.mem_flatMap, List.mem_map, List.mem_filter,
    decide_eq_true_eq] at h
  rcases h with ⟨a, ⟨ha, rfl⟩, -⟩ | ⟨b', -, i, -, heq⟩
  · exact ha
  · cases heq

theorem defsOf_eq_singleton {d : VRegDef Block}
    (h : getUniqueVRegDef layout arguments code r = some d) :
    defsOf layout arguments code r = [d] := by
  unfold getUniqueVRegDef at h
  split at h
  · next d' hd =>
    cases h
    exact hd
  · cases h

variable [DecidableEq Block] {d : ItemId}

/-- The operand uses the value, and not in a debug instruction. -/
def isCounted (lis : LiveIntervals Block) (r : StackVreg) (b : Block) (d : ItemId)
    (u : Block × Item) : Bool :=
  u.2.instr.opcode ≠ .DBG_VALUE && usesValue lis r b d u

theorem length_le_of_hasOneUse (h : hasOneUse layout lis code r b d) :
    ((usesOf layout code r).filter (isCounted lis r b d)).length ≤ 1 := by
  unfold hasOneUse at h
  split_ifs at h with hone
  · exact (List.length_filter_le _ _).trans hone.le
  · split at h
    · next b' n i hfilter => exact (congrArg List.length hfilter).le
    · cases h

theorem eq_of_length_le_one {α : Type} {l : List α} (h : l.length ≤ 1) {a a' : α} (ha : a ∈ l)
    (ha' : a' ∈ l) : a = a' := by
  cases l with
  | nil => cases ha
  | cons x l =>
    obtain rfl : l = [] := List.length_eq_zero_iff.mp (Nat.le_zero.mp (Nat.le_of_succ_le_succ h))
    exact (List.mem_singleton.mp ha).trans (List.mem_singleton.mp ha').symm

/-- One operand is all that uses the value. -/
theorem eq_of_hasOneUse (h : hasOneUse layout lis code r b d) {u u' : Block × Item}
    (hu : u ∈ usesOf layout code r) (huses : isCounted lis r b d u)
    (hu' : u' ∈ usesOf layout code r) (huses' : isCounted lis r b d u') : u = u' := by
  have hmem := List.mem_filter.mpr ⟨hu, huses⟩
  have hmem' := List.mem_filter.mpr ⟨hu', huses'⟩
  have hlen := length_le_of_hasOneUse h
  exact eq_of_length_le_one hlen hmem hmem'

theorem two_le_length_filter {α : Type} {p : α → Bool} {l : List α} {k k' : ℕ} (hne : k < k')
    {a a' : α} (hk : l[k]? = some a) (hk' : l[k']? = some a') (ha : p a) (ha' : p a') :
    2 ≤ (l.filter p).length := by
  induction l generalizing k k' with
  | nil => cases hk
  | cons x l ih =>
    obtain ⟨k', rfl⟩ : ∃ j, k' = j + 1 := ⟨k' - 1, by omega⟩
    rw [List.getElem?_cons_succ] at hk'
    cases k with
    | zero =>
      rw [List.getElem?_cons_zero] at hk
      cases hk
      rw [List.filter_cons_of_pos ha, List.length_cons]
      exact Nat.succ_le_succ (List.length_pos_of_mem
        (List.mem_filter.mpr ⟨List.mem_of_getElem? hk', ha'⟩))
    | succ k =>
      refine (ih (Nat.lt_of_succ_lt_succ hne) (List.getElem?_cons_succ ▸ hk) hk').trans ?_
      exact ((List.sublist_cons_self x l).filter p).length_le

/-- The instruction that uses the value has one such operand. -/
theorem not_lt_of_hasOneUse (h : hasOneUse layout lis code r b d) {b' : Block} {i : Item}
    (hb' : b' ∈ layout) (hi : i ∈ code b') (huses : isCounted lis r b d (b', i)) {k k' : ℕ}
    {isUndef isUndef' isDead isDead' : Bool} (hk : i.instr.uses[k]? = some (.reg r isUndef isDead))
    (hk' : i.instr.uses[k']? = some (.reg r isUndef' isDead')) : ¬k < k' := by
  intro hlt
  -- the operands of the instruction are among the ones that use the value
  have hsub : ((i.instr.uses.filter fun op => op.getReg = some r).map fun _ => (b', i)).Sublist
      (usesOf layout code r) := by
    refine List.Sublist.trans ?_ (List.sublist_flatten_of_mem (List.mem_map_of_mem hb'))
    exact List.sublist_flatten_of_mem (List.mem_map_of_mem hi)
  have hself : ((i.instr.uses.filter fun op => op.getReg = some r).map fun _ => (b', i)).filter
      (isCounted lis r b d) =
        (i.instr.uses.filter fun op => op.getReg = some r).map fun _ => (b', i) := by
    refine List.filter_eq_self.mpr fun u hu => ?_
    obtain ⟨op, -, rfl⟩ := List.mem_map.mp hu
    exact huses
  have htwo := two_le_length_filter (p := fun op : RegOperand => op.getReg = some r) hlt hk hk'
    (decide_eq_true rfl) (decide_eq_true rfl)
  have hle := (hsub.filter _).length_le.trans (length_le_of_hasOneUse h)
  rw [hself, List.length_map] at hle
  omega

end Questions

/-! ## What holds of the code -/

section Invariant

variable {Block : Type} (fn : RegFunction Block)

/-- The first instruction may stand in front of the second one: where it defines a register that the
second one reads or defines, it came first. -/
def InOrder (b : Block) (x y : ItemId) : Prop :=
  ∀ (m n : ℕ) mi mi' r, x = .old m → y = .old n → (fn.instrs b)[m]? = some mi →
    (fn.instrs b)[n]? = some mi' → r ∈ mi.defRegs → r ∈ mi'.defRegs ∨ r ∈ mi'.readRegs → m < n

/-- What becomes of an instruction: it reads new registers for undefined operands. -/
structure Kept (mi mi' : RegInstr) : Prop where
  opcode : mi'.opcode = mi.opcode
  defs : mi'.defs = mi.defs
  reads : ∀ r ∈ mi'.readRegs, r ∈ virtRegs fn.numVirtRegs → r ∈ mi.readRegs
  useRegs : mi.useRegs = [] → mi'.useRegs = []

/-- A block holds its instructions and new constants, for some number of registers. -/
structure BlockInv (numVirtRegs : ℕ) (b : Block) (l : List Item) : Prop where
  nodup : (l.map Item.id).Nodup
  ordered : (l.map Item.id).Pairwise (InOrder fn b)
  mem_old : ∀ (n : ℕ) mi, (fn.instrs b)[n]? = some mi → .old n ∈ l.map Item.id
  old : ∀ i ∈ l, ∀ n, i.id = .old n → ∃ mi, (fn.instrs b)[n]? = some mi ∧ Kept fn mi i.instr
  new : ∀ i ∈ l, ∀ n, i.id = .new n →
    ∃ value, i.instr = constI257 (index2VirtReg n) value ∧ fn.numVirtRegs ≤ n ∧ n < numVirtRegs
  reads : ∀ i ∈ l, ∀ r ∈ i.instr.readRegs, r ∈ virtRegs numVirtRegs

structure Inv (st : State Block) : Prop where
  le : fn.numVirtRegs ≤ st.numVirtRegs
  block : ∀ b, BlockInv fn st.numVirtRegs b (st.code b)

/-- The registers that the function does not have. -/
def newRegs : Set StackVreg := {r | r ∉ virtRegs fn.numVirtRegs}

variable {fn}

theorem Kept.defRegs {mi mi' : RegInstr} (h : Kept fn mi mi') : mi'.defRegs = mi.defRegs :=
  congrArg (List.filterMap RegOperand.getReg) h.defs

theorem mem_virtRegs {n m : ℕ} : n < m → index2VirtReg n ∈ virtRegs m :=
  fun h => List.mem_map_of_mem (List.mem_range.mpr h)

theorem notMem_virtRegs {n m : ℕ} (hn : n < 2 ^ 31) (h : m ≤ n) : index2VirtReg n ∉ virtRegs m := by
  intro hmem
  obtain ⟨k, hk, heq⟩ := List.mem_map.mp hmem
  rw [List.mem_range] at hk
  have hval := congrArg Fin.val heq
  rw [val_index2VirtReg, val_index2VirtReg] at hval
  omega

theorem virtRegs_subset {n m : ℕ} (h : n ≤ m) : virtRegs n ⊆ virtRegs m :=
  List.map_subset _ (List.range_subset.mpr h)

variable {arguments : List StackVreg} {st : State Block} {b : Block} {i : Item} {n : ℕ}
  {r : StackVreg}

/-- A register of the function that the code defines is defined by an instruction of the
function. -/
theorem Inv.defines (hinv : Inv fn st) (hlt : st.numVirtRegs ≤ 2 ^ 31) (hi : i ∈ st.code b)
    (hr : r ∈ i.instr.defRegs) (hvirt : r ∈ virtRegs fn.numVirtRegs) :
    ∃ n mi, i.id = .old n ∧ (fn.instrs b)[n]? = some mi ∧ r ∈ mi.defRegs := by
  cases hid : i.id with
  | old n =>
    obtain ⟨mi, hmi, hkept⟩ := (hinv.block b).old i hi n hid
    exact ⟨n, mi, rfl, hmi, hkept.defRegs ▸ hr⟩
  | new n =>
    obtain ⟨value, hinstr, hle, hn⟩ := (hinv.block b).new i hi n hid
    rw [hinstr] at hr
    obtain rfl := List.mem_singleton.mp hr
    exact absurd hvirt (notMem_virtRegs (hn.trans_le hlt) hle)

theorem Inv.reads_old (hinv : Inv fn st) (hi : i ∈ st.code b)
    (hr : r ∈ i.instr.readRegs) (hvirt : r ∈ virtRegs fn.numVirtRegs) :
    ∃ n mi, i.id = .old n ∧ (fn.instrs b)[n]? = some mi ∧ r ∈ mi.readRegs := by
  cases hid : i.id with
  | old n =>
    obtain ⟨mi, hmi, hkept⟩ := (hinv.block b).old i hi n hid
    exact ⟨n, mi, rfl, hmi, hkept.reads r hr hvirt⟩
  | new n =>
    obtain ⟨value, hinstr, -⟩ := (hinv.block b).new i hi n hid
    rw [hinstr] at hr
    cases hr

/-- The code defines what the instructions of the function define. -/
theorem Inv.exists_item (hinv : Inv fn st) {mi : RegInstr} (hmi : (fn.instrs b)[n]? = some mi) :
    ∃ i ∈ st.code b, i.id = .old n ∧ i.instr.defRegs = mi.defRegs := by
  obtain ⟨i, hi, hid⟩ := List.mem_map.mp ((hinv.block b).mem_old n mi hmi)
  obtain ⟨mi', hmi', hkept⟩ := (hinv.block b).old i hi n hid
  obtain rfl := Option.some.inj (hmi.symm.trans hmi')
  exact ⟨i, hi, hid, hkept.defRegs⟩

variable {lis : LiveIntervals Block} {mi : RegInstr} {d : ItemId} {m : ℕ}

/-- The definition that is found is the last one in front of the instruction. -/
theorem Inv.lastDef (hinv : Inv fn st) (hlt : st.numVirtRegs ≤ 2 ^ 31) (hmov : fn.Movable arguments)
    (hsound : lis.Sound fn) (hmi : (fn.instrs b)[n]? = some mi) (hr : r ∈ mi.readRegs)
    (hdef : getVRegDef fn.layout arguments lis st.code b n r = some (.instr b d)) :
    ∃ m, d = .old m ∧ fn.LastDef b n r m := by
  have hvirt := hmov.virtReg b mi (List.mem_of_getElem? hmi) r
    (Or.inr (mi.readRegs_subset_useRegs hr))
  unfold getVRegDef at hdef
  cases hunique : getUniqueVRegDef fn.layout arguments st.code r with
  | some d' =>
    rw [hunique] at hdef
    cases hdef
    have hdefs := defsOf_eq_singleton hunique
    have hself : .instr b d ∈ defsOf fn.layout arguments st.code r :=
      hdefs ▸ List.mem_singleton_self _
    obtain ⟨-, i, hi, rfl, hri⟩ := mem_defsOf.mp hself
    obtain ⟨m, mi', hid, hmi', hrm⟩ := hinv.defines hlt hi hri hvirt
    -- no other instruction defines the register
    have honly : ∀ b' (l : ℕ) mi'', (fn.instrs b')[l]? = some mi'' → r ∈ mi''.defRegs →
        b' = b ∧ l = m := by
      intro b' l mi'' hl hrl
      obtain ⟨i', hi', hid', hdefs'⟩ := hinv.exists_item hl
      have hmem : .instr b' (.old l) ∈ defsOf fn.layout arguments st.code r :=
        mem_defsOf.mpr ⟨hmov.mem_layout b', i', hi', hid', hdefs' ▸ hrl⟩
      rw [hdefs, hid] at hmem
      cases List.mem_singleton.mp hmem
      exact ⟨rfl, rfl⟩
    have hmn := hmov.once b m n mi' mi r hmi' hrm hmi hr honly
    refine ⟨m, hid, hmn, ⟨mi', hmi', hrm⟩, fun l mi'' hml _ hl hrl => ?_⟩
    exact hml.ne' (honly b l mi'' hl hrl).2
  | none =>
    rw [hunique] at hdef
    obtain ⟨⟨b', m⟩, hvalue, heq⟩ := Option.map_eq_some_iff.mp hdef
    cases heq
    exact ⟨m, rfl, (hsound.lastDef _ n r m mi hmi hr).mp hvalue⟩

/-- An undefined operand has no definition. -/
theorem Inv.getVRegDef_eq_none (hinv : Inv fn st) (hlt : st.numVirtRegs ≤ 2 ^ 31)
    (hmov : fn.Movable arguments) (hsound : lis.Sound fn) (hmi : (fn.instrs b)[n]? = some mi)
    {isDead : Bool} (hr : .reg r true isDead ∈ mi.uses) :
    getVRegDef fn.layout arguments lis st.code b n r = none := by
  have hmem := List.mem_of_getElem? hmi
  obtain ⟨harg, hnodef⟩ := hmov.undef b mi hmem r isDead hr
  have hvirt := hmov.virtReg b mi hmem r (Or.inr (List.mem_filterMap.mpr ⟨_, hr, rfl⟩))
  have hunique : getUniqueVRegDef fn.layout arguments st.code r = none := by
    cases h : getUniqueVRegDef fn.layout arguments st.code r with
    | none => rfl
    | some d =>
      have hself : d ∈ defsOf fn.layout arguments st.code r :=
        defsOf_eq_singleton h ▸ List.mem_singleton_self d
      cases d with
      | argument => exact absurd (mem_arguments hself) harg
      | instr b' id =>
        obtain ⟨-, i, hi, -, hri⟩ := mem_defsOf.mp hself
        obtain ⟨m, mi', -, hmi', hrm⟩ := hinv.defines hlt hi hri hvirt
        exact absurd hrm (hnodef b' mi' (List.mem_of_getElem? hmi'))
  have hvalue : lis.valueIn b n r = none := by
    cases h : lis.valueIn b n r with
    | none => rfl
    | some p =>
      obtain ⟨mi', hmi', hrm⟩ := hsound.defines b n r p.1 p.2 h
      exact absurd hrm (hnodef p.1 mi' (List.mem_of_getElem? hmi'))
  rw [getVRegDef, hunique, hvalue]
  rfl

/-! ## Changes of the code -/

theorem pairwise_moveDown {α : Type} {R : α → α → Prop} {X Y T : List α} {a : α}
    (h : (X ++ a :: (Y ++ T)).Pairwise R) (hY : ∀ y ∈ Y, R y a) :
    (X ++ (Y ++ a :: T)).Pairwise R := by
  obtain ⟨hX, hrest, hXrest⟩ := List.pairwise_append.mp h
  obtain ⟨ha, hYT⟩ := List.pairwise_cons.mp hrest
  obtain ⟨hYY, hT, hYTR⟩ := List.pairwise_append.mp hYT
  refine List.pairwise_append.mpr ⟨hX, List.pairwise_append.mpr ⟨hYY, List.pairwise_cons.mpr
    ⟨fun t ht => ha t (List.mem_append_right _ ht), hT⟩, fun y hy t ht => ?_⟩, fun x hx t ht => ?_⟩
  · rcases List.mem_cons.mp ht with rfl | ht
    · exact hY y hy
    · exact hYTR y hy t ht
  · refine hXrest x hx t ?_
    rcases List.mem_append.mp ht with ht | ht
    · exact List.mem_cons_of_mem _ (List.mem_append_left _ ht)
    · rcases List.mem_cons.mp ht with rfl | ht
      · exact List.mem_cons_self
      · exact List.mem_cons_of_mem _ (List.mem_append_right _ ht)

theorem pairwise_insert {α : Type} {R : α → α → Prop} {X Y : List α} {a : α}
    (h : (X ++ Y).Pairwise R) (hleft : ∀ y, R y a) (hright : ∀ y, R a y) :
    (X ++ a :: Y).Pairwise R := by
  obtain ⟨hX, hY, hXY⟩ := List.pairwise_append.mp h
  refine List.pairwise_append.mpr
    ⟨hX, List.pairwise_cons.mpr ⟨fun y _ => hright y, hY⟩, fun x hx y hy => ?_⟩
  rcases List.mem_cons.mp hy with rfl | hy
  · exact hleft x
  · exact hXY x hx y hy

theorem BlockInv.mono {N N' : ℕ} {l : List Item} (h : BlockInv fn N b l) (hle : N ≤ N') :
    BlockInv fn N' b l := by
  refine ⟨h.nodup, h.ordered, h.mem_old, h.old, fun i hi n hid => ?_,
    fun i hi r hr => virtRegs_subset hle (h.reads i hi r hr)⟩
  obtain ⟨value, hinstr, hfn, hn⟩ := h.new i hi n hid
  exact ⟨value, hinstr, hfn, hn.trans_le hle⟩

/-- The instructions of a block in another order. -/
theorem BlockInv.perm {N : ℕ} {l l' : List Item} (h : BlockInv fn N b l) (hperm : l'.Perm l)
    (hordered : (l'.map Item.id).Pairwise (InOrder fn b)) : BlockInv fn N b l' :=
  ⟨((hperm.map Item.id).nodup_iff).mpr h.nodup, hordered,
    fun n mi hmi => (hperm.map Item.id).mem_iff.mpr (h.mem_old n mi hmi),
    fun i hi => h.old i (hperm.mem_iff.mp hi), fun i hi => h.new i (hperm.mem_iff.mp hi),
    fun i hi => h.reads i (hperm.mem_iff.mp hi)⟩

theorem readRegs_setUse {k : ℕ} {reg : StackVreg} {isDead : Bool}
    (hk : mi.uses[k]? = some (.reg r true isDead)) {v : StackVreg}
    (hv : v ∈ (mi.setUse k reg).readRegs) : v ∈ mi.readRegs ∨ v = reg := by
  obtain ⟨isDead', hop⟩ := mem_readRegs.mp hv
  rcases mem_setUse hk hop with hop | heq
  · exact Or.inl (mem_readRegs.mpr ⟨isDead', hop⟩)
  · cases heq
    exact Or.inr rfl

theorem Kept.setUse {mi' : RegInstr} (h : Kept fn mi mi') {k : ℕ} {reg : StackVreg} {isDead : Bool}
    (hk : mi'.uses[k]? = some (.reg r true isDead)) (hreg : reg ∉ virtRegs fn.numVirtRegs) :
    Kept fn mi (mi'.setUse k reg) := by
  refine ⟨h.opcode, h.defs, fun v hv hvirt => ?_, fun hnone => ?_⟩
  · rcases readRegs_setUse hk hv with hv | rfl
    · exact h.reads v hv hvirt
    · exact absurd hvirt hreg
  · have hmem : r ∈ mi'.useRegs := List.mem_filterMap.mpr ⟨_, List.mem_of_getElem? hk, rfl⟩
    rw [h.useRegs hnone] at hmem
    cases hmem

/-- An instruction that reads nothing is moved behind others that do not define its results. -/
theorem BlockInv.moveDown {N : ℕ} {X Y T : List Item} (h : BlockInv fn N b (X ++ i :: (Y ++ T)))
    (hid : i.id = .old n) (hmi : (fn.instrs b)[n]? = some mi) (huses : mi.useRegs = [])
    (hY : ∀ y ∈ Y, ∀ r ∈ mi.defRegs, r ∉ y.instr.defRegs) :
    BlockInv fn N b (X ++ (Y ++ i :: T)) := by
  refine h.perm (List.Perm.append_left X List.perm_middle) ?_
  have hordered := h.ordered
  simp only [List.map_append, List.map_cons] at hordered ⊢
  refine pairwise_moveDown hordered ?_
  intro yid hyid m' n' mi' mi'' v hm' hn' hmi' hmi'' hv hor
  obtain ⟨y, hy, rfl⟩ := List.mem_map.mp hyid
  cases hid.symm.trans hn'
  obtain rfl := Option.some.inj (hmi.symm.trans hmi'')
  have hyblock : y ∈ X ++ i :: (Y ++ T) :=
    List.mem_append_right _ (List.mem_cons_of_mem _ (List.mem_append_left _ hy))
  obtain ⟨my, hmy, hkept⟩ := h.old y hyblock m' hm'
  obtain rfl := Option.some.inj (hmi'.symm.trans hmy)
  rcases hor with hor | hor
  · exact absurd (hkept.defRegs ▸ hv) (hY y hy v hor)
  · have huse := mi.readRegs_subset_useRegs hor
    rw [huses] at huse
    cases huse

/-- A new constant for an operand that is undefined. -/
theorem BlockInv.insert {N : ℕ} {A B rest : List Item} (h : BlockInv fn N b (A ++ (B ++ i :: rest)))
    (hfn : fn.numVirtRegs ≤ N) (hlt : N < 2 ^ 31) {k : ℕ} {isDead : Bool} (value : ℤ)
    (hid : i.id = .old n) (hk : i.instr.uses[k]? = some (.reg r true isDead)) :
    BlockInv fn (N + 1) b (A ++ ⟨.new N, constI257 (index2VirtReg N) value⟩ ::
      (B ++ ⟨i.id, i.instr.setUse k (index2VirtReg N)⟩ :: rest)) := by
  set reg := index2VirtReg N with hreg
  set new : Item := ⟨.new N, constI257 reg value⟩ with hnew
  have hi : i ∈ A ++ (B ++ i :: rest) :=
    List.mem_append_right _ (List.mem_append_right _ List.mem_cons_self)
  have hids : (A ++ new :: (B ++ ⟨i.id, i.instr.setUse k reg⟩ :: rest)).map Item.id =
      A.map Item.id ++ new.id :: (B ++ i :: rest).map Item.id := by
    simp only [List.map_append, List.map_cons]
  -- an instruction is the new one, the one that has been changed, or was there before
  have hmem {j : Item} (hj : j ∈ A ++ new :: (B ++ ⟨i.id, i.instr.setUse k reg⟩ :: rest)) :
      j = new ∨ j = ⟨i.id, i.instr.setUse k reg⟩ ∨ j ∈ A ++ (B ++ i :: rest) := by
    simp only [List.mem_append, List.mem_cons] at hj ⊢
    tauto
  refine ⟨?_, ?_, fun m mi hmi => ?_, fun j hj m hm => ?_, fun j hj m hm => ?_,
    fun j hj v hv => ?_⟩
  · rw [hids, List.nodup_middle, ← List.map_append]
    refine List.nodup_cons.mpr ⟨fun hold => ?_, h.nodup⟩
    obtain ⟨j, hj, hjid⟩ := List.mem_map.mp hold
    obtain ⟨-, -, -, hlt⟩ := h.new j hj _ hjid
    exact hlt.false
  · have hordered := h.ordered
    rw [List.map_append] at hordered
    rw [hids]
    refine pairwise_insert hordered ?_ ?_
    · intro y m n mi mi' v _ hy
      cases hy
    · intro y m n mi mi' v hx
      cases hx
  · have hmem := h.mem_old m mi hmi
    rw [List.map_append] at hmem
    rw [hids]
    exact List.mem_append.mpr ((List.mem_append.mp hmem).imp_right (List.mem_cons_of_mem _))
  · rcases hmem hj with rfl | rfl | hj
    · cases hm
    · obtain ⟨mi, hmi, hkept⟩ := h.old i hi m hm
      exact ⟨mi, hmi, hkept.setUse hk (notMem_virtRegs hlt hfn)⟩
    · exact h.old j hj m hm
  · rcases hmem hj with rfl | rfl | hj
    · cases hm
      exact ⟨value, rfl, hfn, Nat.lt_succ_self N⟩
    · cases hid.symm.trans hm
    · obtain ⟨value, hinstr, hle, hlt⟩ := h.new j hj m hm
      exact ⟨value, hinstr, hle, hlt.trans (Nat.lt_succ_self N)⟩
  · rcases hmem hj with rfl | rfl | hj
    · cases hv
    · rcases readRegs_setUse hk hv with hv | rfl
      · exact virtRegs_subset (Nat.le_succ N) (h.reads i hi v hv)
      · exact mem_virtRegs (Nat.lt_succ_self N)
    · exact virtRegs_subset (Nat.le_succ N) (h.reads j hj v hv)

/-! ## A constant that is moved -/

variable [DecidableEq Block]

theorem Inv.isCounted (hinv : Inv fn st) (hmov : fn.Movable arguments) (hi : i ∈ st.code b)
    (hid : i.id = .old n) (hmi : (fn.instrs b)[n]? = some mi) (hr : r ∈ mi.readRegs)
    (hvalue : lis.valueIn b n r = some (b, m)) : isCounted lis r b (.old m) (b, i) := by
  obtain ⟨mi', hmi', hkept⟩ := (hinv.block b).old i hi n hid
  obtain rfl := Option.some.inj (hmi.symm.trans hmi')
  have hdebug : i.instr.opcode ≠ .DBG_VALUE := by
    intro hop
    have hskip : mi.opcode.isSkipped := hkept.opcode ▸ hop ▸ rfl
    have huses := mi.readRegs_subset_useRegs hr
    rw [(hmov.skipped b mi (List.mem_of_getElem? hmi) hskip).2] at huses
    cases huses
  have huses : usesValue lis r b (.old m) (b, i) := by
    unfold usesValue
    rw [hid]
    exact decide_eq_true hvalue
  rw [MoveMaterializable.isCounted, huses, Bool.and_true]
  exact decide_eq_true hdebug

/-- **Nothing in between asks for a constant that is moved**, or defines its register. -/
theorem Inv.facts_of_hasOneUse (hinv : Inv fn st) (hlt : st.numVirtRegs ≤ 2 ^ 31)
    (hmov : fn.Movable arguments) (hsound : lis.Sound fn) (hi : i ∈ st.code b)
    (hid : i.id = .old n) (hri : r ∈ i.instr.useRegs) (hmi : (fn.instrs b)[n]? = some mi)
    (hr : r ∈ mi.readRegs) (hlast : fn.LastDef b n r m)
    (hone : hasOneUse fn.layout lis st.code r b (.old m)) {y : Item} (hy : y ∈ st.code b)
    (horder : InOrder fn b (.old m) y.id) (hyn : ∀ j, y.id = .old j → j < n) :
    y.instr.opcode.isTerminator = false ∧ r ∉ y.instr.asked ∧ r ∉ y.instr.defRegs := by
  have hvirt := hmov.virtReg b mi (List.mem_of_getElem? hmi) r
    (Or.inr (mi.readRegs_subset_useRegs hr))
  obtain ⟨dmi, hdmi, hdr⟩ := hlast.defines
  refine ⟨?_, fun hasked => ?_, fun hdef => ?_⟩
  · cases hyid : y.id with
    | old j =>
      obtain ⟨mi', hmi', hkept⟩ := (hinv.block b).old y hy j hyid
      obtain ⟨init, term, hinstrs, -, hinit⟩ := hmov.terminated b
      have hlen := (List.getElem?_eq_some_iff.mp hmi).1
      rw [hinstrs, List.length_append, List.length_singleton] at hlen
      have hj : j < init.length := by
        have := hyn j hyid
        omega
      rw [hinstrs, List.getElem?_append_left hj] at hmi'
      rw [hkept.opcode]
      exact hinit mi' (List.mem_of_getElem? hmi')
    | new j =>
      obtain ⟨value, hinstr, -⟩ := (hinv.block b).new y hy j hyid
      rw [hinstr]
      rfl
  · obtain ⟨j, mi', hyid, hmi', hrj⟩ := hinv.reads_old hy (asked_subset_readRegs hasked) hvirt
    have hmj : m < j := horder m j dmi mi' r rfl hyid hdmi hmi' hdr (Or.inr hrj)
    have hjn := hyn j hyid
    -- so it is the same value that the instruction in between reads
    have hlast' : fn.LastDef b j r m :=
      ⟨hmj, hlast.defines, fun l mi'' hml hlj => hlast.last l mi'' hml (hlj.trans hjn)⟩
    have hcount := hinv.isCounted hmov hy hyid hmi' hrj
      ((hsound.lastDef b j r m mi' hmi' hrj).mpr hlast')
    have hcount' := hinv.isCounted hmov hi hid hmi hr ((hsound.lastDef b n r m mi hmi hr).mpr hlast)
    have hylay := mem_usesOf.mpr ⟨hmov.mem_layout b, hy,
      y.instr.readRegs_subset_useRegs (asked_subset_readRegs hasked)⟩
    have hilay := mem_usesOf.mpr ⟨hmov.mem_layout b, hi, hri⟩
    have heq := eq_of_hasOneUse hone hylay hcount hilay hcount'
    cases (Prod.ext_iff.mp heq).2
    cases hyid.symm.trans hid
    exact hjn.false
  · obtain ⟨j, mi', hyid, hmi', hrj⟩ := hinv.defines hlt hy hdef hvirt
    have hmj : m < j := horder m j dmi mi' r rfl hyid hdmi hmi' hdr (Or.inl hrj)
    exact hlast.last j mi' hmj (hyn j hyid) hmi' hrj

theorem Inv.update (hinv : Inv fn st) {N : ℕ} (hle : st.numVirtRegs ≤ N) {l : List Item}
    (h : BlockInv fn N b l) : Inv fn ⟨N, Function.update st.code b l⟩ := by
  refine ⟨hinv.le.trans hle, ?_⟩
  rw [Function.forall_update_iff st.code fun b l => BlockInv fn N b l]
  exact ⟨h, fun c _ => (hinv.block c).mono hle⟩

end Invariant

/-! ## The operands of an instruction -/

section Step

variable {Block Data State : Type} [DecidableEq Block] {fn : RegFunction Block}
  {meaning : Meaning Block Data State}
  {jump : RegOpcode → List RegOperand → State → List (Value Block Data) → Option (State × Block)}
  {hidden : List (Value Block Data)}

variable (fn) in
/-- Where the pass is in the block, with the operands of the instruction from `k` on behind it: in
front of the instruction are the ones that came before it, and the ones that its operands have
moved. -/
def At (b : Block) (n : ℕ) (mi : RegInstr) (k : ℕ) (p : MoveMaterializable.State Block × ItemId) :
    Prop :=
  ∃ A B i e T, p.1.code b = A ++ (B ++ i :: (items (fn.instrs b)).drop (n + 1)) ∧
    B ++ i :: (items (fn.instrs b)).drop (n + 1) = e :: T ∧ e.id = p.2 ∧ i.id = .old n ∧
    (∀ a ∈ A ++ B, ∀ j, a.id = .old j → j < n) ∧ (∀ j < k, i.instr.uses[j]? = mi.uses[j]?) ∧
    ∀ a ∈ B, ∀ r ∈ a.instr.defRegs, r ∈ virtRegs fn.numVirtRegs →
      ∃ j isUndef isDead, k ≤ j ∧ i.instr.uses[j]? = some (.reg r isUndef isDead)

variable (fn meaning jump hidden) in
/-- The code refines the one before the pass. -/
def Refined (st : MoveMaterializable.State Block) : Prop :=
  ∀ b, CodeRefines meaning jump hidden (newRegs fn) (fn.instrs b) ((st.code b).map Item.instr)

variable {arguments : List StackVreg} {lis : LiveIntervals Block}
  {st : MoveMaterializable.State Block} {p : MoveMaterializable.State Block × ItemId} {b : Block}
  {n k N : ℕ} {mi : RegInstr}

theorem Refined.update (href : Refined fn meaning jump hidden st) {G : Set StackVreg}
    (hG : G ⊆ newRegs fn) {l : List Item}
    (h : CodeRefines meaning jump hidden G ((st.code b).map Item.instr) (l.map Item.instr)) :
    Refined fn meaning jump hidden ⟨N, Function.update st.code b l⟩ := by
  unfold Refined
  rw [Function.forall_update_iff st.code fun b l =>
    CodeRefines meaning jump hidden (newRegs fn) (fn.instrs b) (l.map Item.instr)]
  exact ⟨(href b).trans h hG, fun c _ => href c⟩

omit [DecidableEq Block] in
theorem At.skip (hat : At fn b n mi (k + 1) p) : At fn b n mi k p := by
  obtain ⟨A, B, i, e, T, hcode, hhead, he, hid, hlt, huses, hmoved⟩ := hat
  refine ⟨A, B, i, e, T, hcode, hhead, he, hid, hlt, fun j hj => huses j (hj.trans_le k.le_succ),
    fun a ha r hr hvirt => ?_⟩
  obtain ⟨j, isUndef, isDead, hj, hop⟩ := hmoved a ha r hr hvirt
  exact ⟨j, isUndef, isDead, k.le_succ.trans hj, hop⟩

omit [DecidableEq Block] in
/-- The undefined operand of an instruction may stand for the new register. -/
theorem regCode_of_setUse {r reg : StackVreg} {isDead : Bool}
    (hk : mi.uses[k]? = some (.reg r true isDead)) {rest : List RegInstr}
    {s : RegState Block Data State}
    {out : (Block × RegState Block Data State) ⊕ Outcome Block Data State}
    (h : RegCode meaning jump hidden (mi.setUse k reg :: rest) s out) :
    RegCode meaning jump hidden (mi :: rest) s out := by
  cases h with
  | throws hstep => exact .throws (regStep_of_setUse hk hstep)
  | step hstep hrest => exact .step (regStep_of_setUse hk hstep) hrest
  | leaves hleaves => exact .leaves (regLeaves_of_setUse hk hleaves)

/-- A new constant in front of the instruction. -/
theorem At.insert (hinv : Inv fn p.1) (href : Refined fn meaning jump hidden p.1)
    (hmeaning : meaning.Constant) (hlt : p.1.numVirtRegs < 2 ^ 31) {r : StackVreg} {isDead : Bool}
    (hk : mi.uses[k]? = some (.reg r true isDead)) (hat : At fn b n mi (k + 1) p) (value : ℤ) :
    let reg := index2VirtReg p.1.numVirtRegs
    let id := ItemId.new p.1.numVirtRegs
    let st' : MoveMaterializable.State Block := ⟨p.1.numVirtRegs + 1, Function.update p.1.code b
      ((insertAt p.2 ⟨id, constI257 reg value⟩ (p.1.code b)).map fun i =>
        if i.id = .old n then ⟨i.id, i.instr.setUse k reg⟩ else i)⟩
    Inv fn st' ∧ Refined fn meaning jump hidden st' ∧ At fn b n mi k (st', id) := by
  obtain ⟨A, B, i, e, T, hcode, hhead, he, hid, hbefore, huses, hmoved⟩ := hat
  intro reg id st'
  have hblock := hinv.block b
  have hnodup := hblock.nodup
  have hki : i.instr.uses[k]? = some (.reg r true isDead) := (huses k k.lt_succ_self).trans hk
  set rest := (items (fn.instrs b)).drop (n + 1) with hrest
  -- the instruction is the only one with its index
  have hne {a : Item} (ha : a ∈ A ++ B ++ rest) : a.id ≠ .old n := by
    rw [hcode, ← List.append_assoc] at hnodup
    exact hid ▸ ne_of_nodup_append hnodup ha
  have hcode' : (insertAt p.2 ⟨id, constI257 reg value⟩ (p.1.code b)).map (fun i =>
      if i.id = .old n then (⟨i.id, i.instr.setUse k reg⟩ : Item) else i) =
        A ++ ⟨id, constI257 reg value⟩ :: (B ++ ⟨i.id, i.instr.setUse k reg⟩ :: rest) := by
    rw [hcode, hhead, ← he, insertAt_append fun a ha => ?_, ← hhead]
    · have hsame {l : List Item} (hl : ∀ a ∈ l, a.id ≠ .old n) : l.map (fun i =>
          if i.id = .old n then (⟨i.id, i.instr.setUse k reg⟩ : Item) else i) = l :=
        (List.map_congr_left fun a ha => if_neg (hl a ha)).trans (List.map_id l)
      rw [List.map_append, List.map_cons, List.map_append, List.map_cons, if_pos hid,
        hsame fun a ha => hne (List.mem_append_left _ (List.mem_append_left _ ha)),
        hsame fun a ha => hne (List.mem_append_left _ (List.mem_append_right _ ha)),
        hsame fun a ha => hne (List.mem_append_right _ ha)]
      rfl
    · rw [hcode, hhead] at hnodup
      exact ne_of_nodup_append hnodup (List.mem_append_left _ ha)
  refine ⟨?_, ?_, ?_⟩
  · refine hinv.update (Nat.le_succ _) ?_
    rw [hcode']
    rw [hcode] at hblock
    exact hblock.insert hinv.le hlt value hid hki
  · have hnew : reg ∉ virtRegs p.1.numVirtRegs := notMem_virtRegs hlt le_rfl
    obtain ⟨reg', x, hd⟩ := exists_loadsConst hidden hmeaning
      (show (constI257 reg value).opcode.isRematerializable from rfl) rfl rfl
    obtain rfl : reg' = reg := (List.cons.inj hd.1).1.symm
    refine href.update (Set.singleton_subset_iff.mpr (notMem_virtRegs hlt hinv.le)) ?_
    rw [hcode', hcode]
    simp only [List.map_append, List.map_cons]
    refine (codeRefines_insert hd fun mi' hmi' hasked => ?_).of_imp fun s out hrun => ?_
    · rw [← List.map_cons, ← List.map_append, ← List.map_append, ← hcode] at hmi'
      obtain ⟨j, hj, rfl⟩ := List.mem_map.mp hmi'
      exact hnew (hblock.reads j hj _ (asked_subset_readRegs hasked))
    · refine regCode_append_left (fun s out hrun => ?_) hrun
      rw [← List.cons_append] at hrun ⊢
      exact regCode_append_left (fun s out hrun => regCode_of_setUse hki hrun) hrun
  · refine ⟨A, ⟨id, constI257 reg value⟩ :: B, ⟨i.id, i.instr.setUse k reg⟩, _, _, ?_, rfl, rfl,
      hid, fun a ha j hj => ?_, fun j hj => ?_, fun a ha v hv hvirt => ?_⟩
    · exact (Function.update_self b _ p.1.code).trans hcode'
    · rcases List.mem_append.mp ha with ha | ha
      · exact hbefore a (List.mem_append_left _ ha) j hj
      · rcases List.mem_cons.mp ha with rfl | ha
        · cases hj
        · exact hbefore a (List.mem_append_right _ ha) j hj
    · show (i.instr.uses.modify k _)[j]? = _
      rw [List.getElem?_modify_ne _ _ hj.ne']
      exact huses j (hj.trans k.lt_succ_self)
    · rcases List.mem_cons.mp ha with rfl | ha
      · obtain rfl := List.mem_singleton.mp hv
        exact absurd hvirt (notMem_virtRegs hlt hinv.le)
      · obtain ⟨j, isUndef, isDead', hj, hop⟩ := hmoved a ha v hv hvirt
        refine ⟨j, isUndef, isDead', k.le_succ.trans hj, ?_⟩
        show (i.instr.uses.modify k _)[j]? = _
        rw [List.getElem?_modify_ne _ _ (Nat.lt_of_succ_le hj).ne]
        exact hop

/-- A constant that is moved in front of the instruction. -/
theorem At.move (hinv : Inv fn p.1) (href : Refined fn meaning jump hidden p.1)
    (hmov : fn.Movable arguments) (hsound : lis.Sound fn) (hmeaning : meaning.Constant)
    (hlt : p.1.numVirtRegs ≤ 2 ^ 31) (hmi : (fn.instrs b)[n]? = some mi) {r : StackVreg}
    {isUndef isDead : Bool} (hk : mi.uses[k]? = some (.reg r isUndef isDead)) {d : ItemId}
    (hdef : getVRegDef fn.layout arguments lis p.1.code b n r = some (.instr b d)) {item : Item}
    (hfind : find (p.1.code b) d = some item) (hone : hasOneUse fn.layout lis p.1.code r b d)
    (hremat : item.instr.opcode.isRematerializable) (hat : At fn b n mi (k + 1) p) :
    let st' : MoveMaterializable.State Block :=
      ⟨p.1.numVirtRegs, Function.update p.1.code b (splice p.2 item (p.1.code b))⟩
    Inv fn st' ∧ Refined fn meaning jump hidden st' ∧ At fn b n mi k (st', d) := by
  intro st'
  obtain rfl : isUndef = false := by
    cases isUndef with
    | false => rfl
    | true =>
      rw [hinv.getVRegDef_eq_none hlt hmov hsound hmi (List.mem_of_getElem? hk)] at hdef
      cases hdef
  have hr : r ∈ mi.readRegs := mem_readRegs.mpr ⟨isDead, List.mem_of_getElem? hk⟩
  have hvirt := hmov.virtReg b mi (List.mem_of_getElem? hmi) r
    (Or.inr (mi.readRegs_subset_useRegs hr))
  obtain ⟨m, rfl, hlast⟩ := hinv.lastDef hlt hmov hsound hmi hr hdef
  obtain ⟨hitem, hitemid⟩ := find_eq_some hfind
  -- the instruction that is moved loads a constant
  obtain ⟨dmi, hdmi, hdr⟩ := hlast.defines
  obtain ⟨dmi', hdmi', hkept⟩ := (hinv.block b).old item hitem m hitemid
  obtain rfl := Option.some.inj (hdmi.symm.trans hdmi')
  obtain ⟨hdefs, huses⟩ := hmov.constant b dmi (List.mem_of_getElem? hdmi) (hkept.opcode ▸ hremat)
  obtain ⟨r', x, hd⟩ := exists_loadsConst hidden hmeaning hremat
    ((congrArg List.length hkept.defs).trans hdefs) (hkept.useRegs huses)
  have hdefRegs : dmi.defRegs = [r'] := hkept.defRegs.symm.trans hd.1
  obtain rfl : r = r' := List.mem_singleton.mp (hdefRegs ▸ hdr)
  obtain ⟨A, B, i, e, T, hcode, hhead, he, hid, hbefore, huses', hmoved⟩ := hat
  have hi : i ∈ p.1.code b := by
    rw [hcode]
    exact List.mem_append_right _ (List.mem_append_right _ List.mem_cons_self)
  have hik : i.instr.uses[k]? = some (.reg r false isDead) := (huses' k k.lt_succ_self).trans hk
  have hri : r ∈ i.instr.useRegs :=
    List.mem_filterMap.mpr ⟨_, List.mem_of_getElem? hik, rfl⟩
  have hcount := hinv.isCounted hmov hi hid hmi hr ((hsound.lastDef b n r m mi hmi hr).mpr hlast)
  -- it is in front of the ones that have been moved
  have hA : item ∈ A := by
    rw [hcode] at hitem
    rcases List.mem_append.mp hitem with hA | hrest
    · exact hA
    · rcases List.mem_append.mp hrest with hB | hrest
      · obtain ⟨j, isUndef, isDead', hkj, hop⟩ :=
          hmoved item hB r (hd.1 ▸ List.mem_singleton_self r) hvirt
        exact absurd hkj (not_lt_of_hasOneUse hone (hmov.mem_layout b) hi hcount hik hop)
      · rcases List.mem_cons.mp hrest with rfl | hrest
        · cases hitemid.symm.trans hid
          exact absurd hlast.lt (lt_irrefl _)
        · obtain ⟨j, hj, hjid, -⟩ := mem_drop_items hrest
          cases hitemid.symm.trans hjid
          exact absurd hlast.lt (by omega)
  obtain ⟨X, Y, rfl⟩ := List.append_of_mem hA
  have hcode' : p.1.code b = X ++ item :: (Y ++ e :: T) := by
    rw [hcode, hhead]
    simp only [List.append_assoc, List.cons_append]
  have hblock := hinv.block b
  rw [hcode'] at hblock
  have hsplice : splice p.2 item (p.1.code b) = X ++ (Y ++ item :: e :: T) := by
    rw [← he, hcode', splice_append hblock.nodup]
  have hY {y : Item} (hy : y ∈ Y) :
      y.instr.opcode.isTerminator = false ∧ r ∉ y.instr.asked ∧ r ∉ y.instr.defRegs := by
    have hyT : y ∈ Y ++ e :: T := List.mem_append_left _ hy
    have hycode : y ∈ p.1.code b := by
      rw [hcode']
      exact List.mem_append_right _ (List.mem_cons_of_mem _ hyT)
    have horder : InOrder fn b (.old m) y.id := by
      have hordered := hblock.ordered
      rw [List.map_append, List.map_cons] at hordered
      exact hitemid ▸ (List.pairwise_cons.mp (List.pairwise_append.mp hordered).2.1).1 y.id
        (List.mem_map_of_mem hyT)
    exact hinv.facts_of_hasOneUse hlt hmov hsound hi hid hri hmi hr hlast hone hycode horder
      (hbefore y (List.mem_append_left _ (List.mem_append_right _ (List.mem_cons_of_mem _ hy))))
  refine ⟨?_, ?_, ?_⟩
  · refine hinv.update le_rfl ?_
    rw [hsplice]
    refine hblock.moveDown hitemid hdmi huses fun y hy v hv => ?_
    rw [hdefRegs] at hv
    obtain rfl := List.mem_singleton.mp hv
    exact (hY hy).2.2
  · refine href.update (Set.empty_subset _) ?_
    rw [hsplice, hcode']
    simp only [List.map_append, List.map_cons]
    refine (codeRefines_refl fun _ _ _ _ hv => hv).of_imp fun s out hrun => ?_
    refine regCode_moveDown hd (fun mi' hmi' => ?_) hrun
    obtain ⟨y, hy, rfl⟩ := List.mem_map.mp hmi'
    exact hY hy
  · refine ⟨X ++ Y, item :: B, i, item, e :: T, ?_, ?_, hitemid, hid, fun a ha => hbefore a ?_,
      fun j hj => huses' j (hj.trans k.lt_succ_self), fun a ha v hv hvirt => ?_⟩
    · refine (Function.update_self b _ p.1.code).trans (hsplice.trans ?_)
      rw [← hhead]
      simp only [List.append_assoc, List.cons_append]
    · rw [← hhead]
      rfl
    · simp only [List.mem_append, List.mem_cons] at ha ⊢
      tauto
    · rcases List.mem_cons.mp ha with rfl | ha
      · rw [hd.1] at hv
        obtain rfl := List.mem_singleton.mp hv
        exact ⟨k, false, isDead, le_rfl, hik⟩
      · obtain ⟨j, isUndef, isDead', hj, hop⟩ := hmoved a ha v hv hvirt
        exact ⟨j, isUndef, isDead', k.le_succ.trans hj, hop⟩

theorem numVirtRegs_processUse (layout : List Block) (n k : ℕ) :
    p.1.numVirtRegs ≤ (processUse layout arguments lis b n p k).1.numVirtRegs := by
  unfold processUse
  repeat' split
  all_goals first | exact le_rfl | exact Nat.le_succ _

/-- Only the code of the block is changed. -/
theorem code_processUse (layout : List Block) (n k : ℕ) {c : Block} (hc : c ≠ b) :
    (processUse layout arguments lis b n p k).1.code c = p.1.code c := by
  unfold processUse
  repeat' split
  all_goals first | rfl | exact Function.update_of_ne hc _ _

/-- **What one operand does to the code.** -/
theorem At.processUse (hinv : Inv fn p.1) (href : Refined fn meaning jump hidden p.1)
    (hmov : fn.Movable arguments) (hsound : lis.Sound fn) (hmeaning : meaning.Constant)
    (hlt : (processUse fn.layout arguments lis b n p k).1.numVirtRegs ≤ 2 ^ 31)
    (hmi : (fn.instrs b)[n]? = some mi) (hat : At fn b n mi (k + 1) p) :
    Inv fn (processUse fn.layout arguments lis b n p k).1 ∧
      Refined fn meaning jump hidden (processUse fn.layout arguments lis b n p k).1 ∧
        At fn b n mi k (processUse fn.layout arguments lis b n p k) := by
  have hskip : Inv fn p.1 ∧ Refined fn meaning jump hidden p.1 ∧ At fn b n mi k p :=
    ⟨hinv, href, hat.skip⟩
  have hlt' : p.1.numVirtRegs ≤ 2 ^ 31 := (numVirtRegs_processUse fn.layout n k).trans hlt
  have hop : ((find (p.1.code b) (.old n)).bind fun i => i.instr.uses[k]?) = mi.uses[k]? := by
    obtain ⟨A, B, i, e, T, hcode, -, -, hid, -, huses, -⟩ := hat
    have hi : i ∈ p.1.code b := by
      rw [hcode]
      exact List.mem_append_right _ (List.mem_append_right _ List.mem_cons_self)
    rw [← hid, find_of_mem (hinv.block b).nodup hi]
    exact huses k k.lt_succ_self
  unfold MoveMaterializable.processUse at hlt ⊢
  rw [hop] at hlt ⊢
  split
  · next r isUndef isDead hk =>
    rw [hk] at hlt
    split
    · next b' d hdef =>
      split
      · next item hfind =>
        split_ifs with hmoved
        · obtain ⟨hone, rfl, hremat⟩ := hmoved
          exact hat.move hinv href hmov hsound hmeaning hlt' hmi hk hdef hfind hone hremat
        · exact hskip
      · exact hskip
    · exact hskip
    · next hdef =>
      split_ifs with hundef
      · subst hundef
        simp only [hdef, if_true] at hlt
        exact hat.insert hinv href hmeaning hlt hk _
      · exact hskip
  · exact hskip

theorem le_foldl {α β : Type} {f : α → β → α} {g : α → ℕ} (hf : ∀ a x, g a ≤ g (f a x)) (a : α)
    (l : List β) : g a ≤ g (l.foldl f a) := by
  induction l generalizing a with
  | nil => exact le_rfl
  | cons x l ih => exact (hf a x).trans (ih (f a x))

theorem At.foldl (hinv : Inv fn p.1) (href : Refined fn meaning jump hidden p.1)
    (hmov : fn.Movable arguments) (hsound : lis.Sound fn) (hmeaning : meaning.Constant)
    (hlt : ((List.range k).reverse.foldl
      (MoveMaterializable.processUse fn.layout arguments lis b n) p).1.numVirtRegs ≤ 2 ^ 31)
    (hmi : (fn.instrs b)[n]? = some mi) (hat : At fn b n mi k p) :
    let p' := (List.range k).reverse.foldl
      (MoveMaterializable.processUse fn.layout arguments lis b n) p
    Inv fn p'.1 ∧ Refined fn meaning jump hidden p'.1 ∧ At fn b n mi 0 p' := by
  induction k generalizing p with
  | zero => exact ⟨hinv, href, hat⟩
  | succ k ih =>
    rw [List.range_succ, List.reverse_append] at hlt ⊢
    have hstep : (MoveMaterializable.processUse fn.layout arguments lis b n p k).1.numVirtRegs ≤
        2 ^ 31 :=
      (le_foldl (g := fun p : MoveMaterializable.State Block × ItemId => p.1.numVirtRegs)
        (fun p k => numVirtRegs_processUse fn.layout n k) _ _).trans hlt
    obtain ⟨hinv', href', hat'⟩ := hat.processUse hinv href hmov hsound hmeaning hstep hmi
    exact ih hinv' href' hlt hat'

variable (fn) in
/-- The instructions in front of the `n`-th one have been processed. -/
def UpTo (b : Block) (n : ℕ) (st : MoveMaterializable.State Block) : Prop :=
  ∃ A, st.code b = A ++ (items (fn.instrs b)).drop n ∧ ∀ a ∈ A, ∀ j, a.id = .old j → j < n

theorem numVirtRegs_processInstruction (layout : List Block) (n : ℕ) :
    st.numVirtRegs ≤ (processInstruction layout arguments lis b st n).numVirtRegs := by
  unfold processInstruction
  split
  · exact le_foldl (g := fun p : MoveMaterializable.State Block × ItemId => p.1.numVirtRegs)
      (fun p k => numVirtRegs_processUse layout n k) (st, .old n) _
  · exact le_rfl

theorem code_foldl {α β : Type} {f : α → β → α} {g : α → List Item} (hf : ∀ a x, g (f a x) = g a)
    (a : α) (l : List β) : g (l.foldl f a) = g a := by
  induction l generalizing a with
  | nil => rfl
  | cons x l ih => exact (ih (f a x)).trans (hf a x)

theorem code_processInstruction (layout : List Block) (n : ℕ) {c : Block} (hc : c ≠ b) :
    (processInstruction layout arguments lis b st n).code c = st.code c := by
  unfold processInstruction
  split
  · exact code_foldl (g := fun p : MoveMaterializable.State Block × ItemId => p.1.code c)
      (fun p k => code_processUse layout n k hc) (st, .old n) _
  · rfl

theorem UpTo.processInstruction (hinv : Inv fn st) (href : Refined fn meaning jump hidden st)
    (hmov : fn.Movable arguments) (hsound : lis.Sound fn) (hmeaning : meaning.Constant)
    (hlt : (processInstruction fn.layout arguments lis b st n).numVirtRegs ≤ 2 ^ 31)
    (hmi : (fn.instrs b)[n]? = some mi) (hup : UpTo fn b n st) :
    let st' := MoveMaterializable.processInstruction fn.layout arguments lis b st n
    Inv fn st' ∧ Refined fn meaning jump hidden st' ∧ UpTo fn b (n + 1) st' := by
  obtain ⟨A, hcode, hbefore⟩ := hup
  rw [drop_items hmi] at hcode
  have hi : ⟨.old n, mi⟩ ∈ st.code b := by
    rw [hcode]
    exact List.mem_append_right _ List.mem_cons_self
  have hfind : find (st.code b) (.old n) = some ⟨.old n, mi⟩ :=
    find_of_mem (i := ⟨.old n, mi⟩) (hinv.block b).nodup hi
  have hat : At fn b n mi mi.uses.length (st, .old n) := by
    refine ⟨A, [], _, _, _, hcode, rfl, rfl, rfl, fun a ha => ?_, fun _ _ => rfl, fun a ha => ?_⟩
    · rw [List.append_nil] at ha
      exact hbefore a ha
    · cases ha
  unfold MoveMaterializable.processInstruction at hlt ⊢
  simp only [hfind] at hlt ⊢
  obtain ⟨hinv', href', hat'⟩ := hat.foldl hinv href hmov hsound hmeaning hlt hmi
  refine ⟨hinv', href', ?_⟩
  obtain ⟨A, B, i, e, T, hcode, -, -, hid, hbefore, -⟩ := hat'
  refine ⟨A ++ (B ++ [i]), ?_, fun a ha j hj => ?_⟩
  · rw [hcode, List.append_assoc, List.append_assoc, List.singleton_append]
  · rw [← List.append_assoc] at ha
    rcases List.mem_append.mp ha with ha | ha
    · exact (hbefore a ha j hj).trans n.lt_succ_self
    · obtain rfl := List.mem_singleton.mp ha
      cases hid.symm.trans hj
      exact n.lt_succ_self

/-! ## The blocks -/

theorem numVirtRegs_runOnBasicBlock :
    st.numVirtRegs ≤ (runOnBasicBlock fn.layout arguments lis fn st b).numVirtRegs :=
  le_foldl (g := MoveMaterializable.State.numVirtRegs)
    (fun _ n => numVirtRegs_processInstruction fn.layout n) st _

theorem code_runOnBasicBlock {c : Block} (hc : c ≠ b) :
    (runOnBasicBlock fn.layout arguments lis fn st b).code c = st.code c :=
  code_foldl (g := fun st : MoveMaterializable.State Block => st.code c)
    (fun _ n => code_processInstruction fn.layout n hc) st _

theorem Inv.runOnBasicBlock (hinv : Inv fn st) (href : Refined fn meaning jump hidden st)
    (hmov : fn.Movable arguments) (hsound : lis.Sound fn) (hmeaning : meaning.Constant)
    (hlt : (runOnBasicBlock fn.layout arguments lis fn st b).numVirtRegs ≤ 2 ^ 31)
    (hcode : st.code b = items (fn.instrs b)) :
    let st' := MoveMaterializable.runOnBasicBlock fn.layout arguments lis fn st b
    Inv fn st' ∧ Refined fn meaning jump hidden st' := by
  -- up to any instruction
  have hrun (n : ℕ) (hn : n ≤ (fn.instrs b).length)
      (hlt : ((List.range n).foldl (processInstruction fn.layout arguments lis b) st).numVirtRegs ≤
        2 ^ 31) :
      let st' := (List.range n).foldl (processInstruction fn.layout arguments lis b) st
      Inv fn st' ∧ Refined fn meaning jump hidden st' ∧ UpTo fn b n st' := by
    induction n with
    | zero => exact ⟨hinv, href, [], hcode, fun a ha => by cases ha⟩
    | succ n ih =>
      rw [List.range_succ, List.foldl_append] at hlt ⊢
      obtain ⟨hinv', href', hup⟩ := ih (Nat.le_of_succ_le hn)
        ((numVirtRegs_processInstruction fn.layout n).trans hlt)
      exact hup.processInstruction hinv' href' hmov hsound hmeaning hlt
        (List.getElem?_eq_getElem hn)
  obtain ⟨hinv', href', -⟩ := hrun _ le_rfl hlt
  exact ⟨hinv', href'⟩

omit [DecidableEq Block] in
theorem inv_items (hmov : fn.Movable arguments) :
    Inv fn ⟨fn.numVirtRegs, fun b => items (fn.instrs b)⟩ := by
  refine ⟨le_rfl, fun b => ⟨?_, ?_, fun n mi hmi => ?_, fun i hi n hid => ?_, fun i hi n hid => ?_,
    fun i hi r hr => ?_⟩⟩
  · rw [map_id_items]
    exact List.nodup_range.map fun m n h => ItemId.old.inj h
  · rw [map_id_items, List.pairwise_map]
    refine List.pairwise_lt_range.imp fun hlt m n mi mi' r hm hn _ _ _ _ => ?_
    cases hm
    cases hn
    exact hlt
  · rw [map_id_items]
    exact List.mem_map_of_mem (List.mem_range.mpr (List.getElem?_eq_some_iff.mp hmi).1)
  · obtain ⟨j, -, hj, hinstr⟩ := mem_drop_items (n := 0) hi
    cases hid.symm.trans hj
    exact ⟨i.instr, hinstr, rfl, rfl, fun r hr _ => hr, fun h => h⟩
  · obtain ⟨j, -, hj, -⟩ := mem_drop_items (n := 0) hi
    cases hid.symm.trans hj
  · obtain ⟨j, -, -, hinstr⟩ := mem_drop_items (n := 0) hi
    exact hmov.virtReg b i.instr (List.mem_of_getElem? hinstr) r
      (Or.inr (i.instr.readRegs_subset_useRegs hr))

omit [DecidableEq Block] in
theorem refined_items (hmov : fn.Movable arguments) :
    Refined fn meaning jump hidden ⟨fn.numVirtRegs, fun b => items (fn.instrs b)⟩ := by
  intro b
  rw [map_instr_items]
  refine codeRefines_refl fun mi hmi v hv hnew => hnew ?_
  exact hmov.virtReg b mi hmi v (Or.inr (mi.readRegs_subset_useRegs (asked_subset_readRegs hv)))

/-- The blocks of a run that come later are as before the pass. -/
theorem Inv.foldl (hmov : fn.Movable arguments) (hsound : lis.Sound fn)
    (hmeaning : meaning.Constant) {blocks : List Block} (hnodup : blocks.Nodup)
    (hinv : Inv fn st) (href : Refined fn meaning jump hidden st)
    (hcode : ∀ b ∈ blocks, st.code b = items (fn.instrs b))
    (hlt : (blocks.foldl (MoveMaterializable.runOnBasicBlock fn.layout arguments lis fn)
      st).numVirtRegs ≤ 2 ^ 31) :
    Refined fn meaning jump hidden
      (blocks.foldl (MoveMaterializable.runOnBasicBlock fn.layout arguments lis fn) st) := by
  induction blocks generalizing st with
  | nil => exact href
  | cons b blocks ih =>
    obtain ⟨hb, hnodup⟩ := List.nodup_cons.mp hnodup
    obtain ⟨hinv', href'⟩ := hinv.runOnBasicBlock href hmov hsound hmeaning
      ((le_foldl (fun _ _ => numVirtRegs_runOnBasicBlock) _ blocks).trans hlt)
      (hcode b List.mem_cons_self)
    refine ih hnodup hinv' href' (fun c hc => ?_) hlt
    have hne : c ≠ b := by
      rintro rfl
      exact hb hc
    rw [code_runOnBasicBlock hne]
    exact hcode c (List.mem_cons_of_mem _ hc)

end Step

end MoveMaterializable

/-- **The pass preserves the meaning of the function**: whatever the function does afterwards, with
its constants in other places and new ones for undefined operands, it may do before. -/
theorem moveMaterializable_refines {Block Data State : Type} [DecidableEq Block]
    {fn fn' : RegFunction Block} {arguments : List StackVreg} {lis : LiveIntervals Block}
    {meaning : Meaning Block Data State}
    {jump : RegOpcode → List RegOperand → State → List (Value Block Data) →
      Option (State × Block)} {hidden : List (Value Block Data)}
    (hmov : fn.Movable arguments) (hsound : lis.Sound fn) (hmeaning : meaning.Constant)
    {blocks : List Block} (hnodup : blocks.Nodup) {st : MoveMaterializable.State Block}
    (hst : MoveMaterializable.runOnBasicBlocks arguments lis fn blocks = st)
    (hregs : fn'.numVirtRegs = st.numVirtRegs)
    (hinstrs : ∀ b, fn'.instrs b = (st.code b).map MoveMaterializable.Item.instr)
    (c : Block × RegState Block Data State) :
    Refines (fn.RegBlock meaning jump hidden) (fn'.RegBlock meaning jump hidden) c c := by
  subst hst
  have hlt := fn'.numVirtRegs_lt.le
  rw [hregs] at hlt
  have href : MoveMaterializable.Refined fn meaning jump hidden
      (MoveMaterializable.runOnBasicBlocks arguments lis fn blocks) :=
    (MoveMaterializable.inv_items hmov).foldl hmov hsound hmeaning hnodup
      (MoveMaterializable.refined_items hmov) (fun _ _ => rfl) hlt
  refine refines_of_codeRefines (F := MoveMaterializable.newRegs fn) (fun b => ?_) c
  rw [hinstrs b]
  exact href b

/-! ## Two constants -/

theorem virtReg_of_not_live (n : ℕ) (v : StackVreg) (h : false = true ∨ false = true) :
    v ∈ virtRegs n := by
  rcases h with h | h <;> cases h

/-- A function of one block. -/
def oneBlock (instrs : List RegInstr) (numVirtRegs : Fin (2 ^ 31)) : RegFunction Unit where
  cfg := ⟨(), fun _ => [], fun _ => [], mem_preds_oneBlock⟩
  layout := [()]
  instrs _ := instrs
  road _ := 0
  numVirtRegs := numVirtRegs
  liveIn _ _ := false
  liveOut _ _ := false
  vnInfoAt _ _ _ := false
  layout_nodup := List.nodup_singleton ()
  numVirtRegs_lt := numVirtRegs.isLt
  virtReg_of_live _ v := virtReg_of_not_live numVirtRegs v

/-- Returns two registers. -/
def retPair (reg reg' : StackVreg) (isUndef : Bool) : RegInstr where
  opcode := .RET
  defs := []
  uses := [.reg reg false false, .reg reg' isUndef false]
  defs_reg := accept.defs_reg
  terminator_defs _ := rfl
  commutable_uses h := by cases h
  reversible_defs h := by cases h

/-- The second operand of the return is undefined. -/
def returnsUndef : RegFunction Unit :=
  oneBlock [constI257 (index2VirtReg 0) 5, constI257 (index2VirtReg 1) 7,
    retPair (index2VirtReg 0) (index2VirtReg 2) true] 3

def returnsConst : RegFunction Unit :=
  oneBlock [constI257 (index2VirtReg 1) 7, constI257 (index2VirtReg 0) 5,
    constI257 (index2VirtReg 3) 0, retPair (index2VirtReg 0) (index2VirtReg 3) false] 4

def returnsUndefIntervals : LiveIntervals Unit where
  valueIn _ n r := if n = 2 ∧ r = index2VirtReg 0 then some ((), 0) else none
  isKill _ _ _ := true

/-- Constants are loaded. -/
def constMeaning : Meaning Unit Empty Unit where
  exec _ ops st _ n := some (st, Vector.replicate n (match ops with
    | [.imm value] => .int value
    | _ => .int 0))
  commutable _ _ _ _ _ _ _ := rfl
  reversed _ _ _ _ _ _ _ _ _ := rfl

theorem getElem?_returnsUndef {n : ℕ} {mi : RegInstr} (h : (returnsUndef.instrs ())[n]? = some mi) :
    n = 0 ∧ mi = constI257 (index2VirtReg 0) 5 ∨ n = 1 ∧ mi = constI257 (index2VirtReg 1) 7 ∨
      n = 2 ∧ mi = retPair (index2VirtReg 0) (index2VirtReg 2) true := by
  rcases n with _ | _ | _ | n
  · cases h
    exact Or.inl ⟨rfl, rfl⟩
  · cases h
    exact Or.inr (Or.inl ⟨rfl, rfl⟩)
  · cases h
    exact Or.inr (Or.inr ⟨rfl, rfl⟩)
  · cases h

theorem sound_returnsUndefIntervals : returnsUndefIntervals.Sound returnsUndef := by
  refine ⟨fun b n r b' m h => ?_, fun b n r m mi hmi hr => ?_⟩
  · simp only [returnsUndefIntervals] at h
    split_ifs at h with hread
    cases h
    obtain ⟨-, rfl⟩ := hread
    exact ⟨_, rfl, List.mem_cons_self⟩
  · -- only the return reads a register
    rcases getElem?_returnsUndef hmi with ⟨-, rfl⟩ | ⟨-, rfl⟩ | ⟨rfl, rfl⟩
    · cases hr
    · cases hr
    · obtain rfl : r = index2VirtReg 0 := List.mem_singleton.mp hr
      constructor
      · intro h
        cases h
        refine ⟨by decide, ⟨_, rfl, List.mem_cons_self⟩, fun l mi' hl hl' hmi' hdef => ?_⟩
        rcases getElem?_returnsUndef hmi' with ⟨rfl, -⟩ | ⟨-, rfl⟩ | ⟨rfl, -⟩
        · exact absurd hl (lt_irrefl 0)
        · exact absurd (List.mem_singleton.mp hdef) (by decide)
        · exact absurd hl' (lt_irrefl 2)
      · rintro ⟨-, ⟨mi', hmi', hdef⟩, -⟩
        rcases getElem?_returnsUndef hmi' with ⟨rfl, -⟩ | ⟨-, rfl⟩ | ⟨-, rfl⟩
        · rfl
        · exact absurd (List.mem_singleton.mp hdef) (by decide)
        · cases hdef

theorem movable_returnsUndef : returnsUndef.Movable [] := by
  have hmem {b : Unit} {mi : RegInstr} (h : mi ∈ returnsUndef.instrs b) :
      mi = constI257 (index2VirtReg 0) 5 ∨ mi = constI257 (index2VirtReg 1) 7 ∨
        mi = retPair (index2VirtReg 0) (index2VirtReg 2) true := by
    obtain ⟨n, hn⟩ := List.mem_iff_getElem?.mp h
    exact (getElem?_returnsUndef hn).imp And.right (Or.imp And.right And.right)
  refine ⟨fun b => List.mem_cons_self, fun b mi hmi r hr => ?_, fun b => ?_, fun b mi hmi hop => ?_,
    fun b mi hmi hop => ?_, fun b mi hmi r isDead hr => ?_,
    fun b m n mi mi' r hmi hdef hmi' hr _ => ?_⟩
  · have hregs : (mi.defRegs ++ mi.useRegs).all fun r => decide (r ∈ virtRegs 3) := by
      rcases hmem hmi with rfl | rfl | rfl <;> decide
    exact of_decide_eq_true (List.all_eq_true.mp hregs r (List.mem_append.mpr hr))
  · exact ⟨[constI257 (index2VirtReg 0) 5, constI257 (index2VirtReg 1) 7], _, rfl, rfl, by decide⟩
  · rcases hmem hmi with rfl | rfl | rfl
    · exact ⟨rfl, rfl⟩
    · exact ⟨rfl, rfl⟩
    · cases hop
  · rcases hmem hmi with rfl | rfl | rfl <;> cases hop
  · -- nothing defines register 2
    obtain rfl : r = index2VirtReg 2 := by
      rcases hmem hmi with rfl | rfl | rfl
      · cases List.mem_singleton.mp hr
      · cases List.mem_singleton.mp hr
      · have hr : .reg r true isDead ∈ [RegOperand.reg (index2VirtReg 0) false false,
          .reg (index2VirtReg 2) true false] := hr
        simp only [List.mem_cons, RegOperand.reg.injEq, Bool.true_eq_false, false_and, and_false,
          false_or, true_and, List.not_mem_nil, or_false] at hr
        exact hr.1
    refine ⟨List.not_mem_nil, fun b' mi' hmi' hdef => ?_⟩
    rcases hmem hmi' with rfl | rfl | rfl
    · exact absurd (List.mem_singleton.mp hdef) (by decide)
    · exact absurd (List.mem_singleton.mp hdef) (by decide)
    · cases hdef
  · rcases getElem?_returnsUndef hmi' with ⟨-, rfl⟩ | ⟨-, rfl⟩ | ⟨rfl, rfl⟩
    · cases hr
    · cases hr
    · rcases getElem?_returnsUndef hmi with ⟨rfl, -⟩ | ⟨rfl, -⟩ | ⟨-, rfl⟩
      · decide
      · decide
      · cases hdef

/-- Constant 5 is moved behind constant 7, and the undefined operand becomes a constant. -/
theorem moveMaterializable_refines_returnsUndef :
    Refines (returnsUndef.RegBlock constMeaning (fun _ _ _ _ => none) [])
      (returnsConst.RegBlock constMeaning (fun _ _ _ _ => none) [])
      ((), ⟨fun _ => none, ()⟩) ((), ⟨fun _ => none, ()⟩) :=
  @moveMaterializable_refines Unit Empty Unit _ returnsUndef returnsConst [] returnsUndefIntervals
    constMeaning _ [] movable_returnsUndef sound_returnsUndefIntervals
    (fun _ _ _ => ⟨_, fun _ => rfl⟩) [()] (List.nodup_singleton ()) _ rfl rfl
    (fun _ => rfl) _

end TVMCompiler
