import Mathlib.Data.List.InsertIdx
import TVMCompiler.Lib.Dominators
import TVMCompiler.Lib.Runs
import TVMCompiler.Machine.Function

/-!
# Hoisting continuations

`TVMContinuationsHoist` leaves at most one `PUSHCONT_MBB` for each block: it goes to the nearest
common dominator of the blocks that have one, and the others are erased.

## Main definitions

* `collect`, `hoistTarget`, `runOnMachineFunction`: the pass
* `Pushes`: a block has an instruction that pushes the continuation of another one
* `NamesByPush`: no other instruction names a block

## Main results

* `hoistTarget_spec`: what is left of the occurrences for one block
* `runOnMachineFunction_spec`: what is left of all of them
-/

namespace TVMCompiler

open Lib

variable {Block : Type}

/-- The edges of the control-flow graph. -/
def Cfg.Succ (g : Cfg Block) (p s : Block) : Prop := s ∈ g.succs p

/-- `MachineDominatorTree`. -/
abbrev MachineDominatorTree (g : Cfg Block) := DominatorTree g.entry g.Succ

namespace MachineFunction

/-! ## The pass -/

section Pass

variable [DecidableEq Block] (f : MachineFunction Block)

/-- The register operands of all instructions are changed. -/
def mapRegisters (g : RegisterOperand → RegisterOperand) : MachineFunction Block :=
  { f with instrs := fun b => (f.instrs b).map fun mi => mi.mapRegisters g }

/-- `MachineRegisterInfo::replaceRegWith`. -/
def replaceRegWith (old new : Register) : MachineFunction Block :=
  f.mapRegisters fun op => if op.reg = old then { op with reg := new } else op

/-- `MachineRegisterInfo::clearKillFlags`. -/
def clearKillFlags (r : Register) : MachineFunction Block :=
  f.mapRegisters fun op => if op.reg = r ∧ !op.isDef then { op with isKill := false } else op

/-- `MachineInstr::clearRegisterDeads` for one instruction. -/
def clearRegisterDeads (id : ℕ) (r : Register) : MachineFunction Block :=
  { f with instrs := fun b => (f.instrs b).map fun mi =>
      if mi.id = id then mi.mapRegisters fun op =>
        if op.reg = r ∧ op.isDef then { op with isDead := false } else op
      else mi }

/-- `eraseFromParent`. -/
def erase (id : ℕ) : MachineFunction Block :=
  { f with instrs := fun b => (f.instrs b).filter fun mi => mi.id ≠ id }

/-- `MachineBasicBlock::getFirstInstrTerminator`: the first terminator behind the last
instruction that is neither a terminator nor a debug instruction. -/
def firstInstrTerminator (instrs : List (MachineInstr Block)) : ℕ :=
  let start := instrs.length - (instrs.reverse.takeWhile fun mi =>
    mi.opcode.isTerminator || mi.opcode.isDebugInstr).length
  start + (instrs.drop start).findIdx fun mi => mi.opcode.isTerminator

/-- `InsertBefore`: the first terminator, or the only definition of its first register if it is
in the same block. -/
def insertPosition (dom : Block) : ℕ :=
  let term := firstInstrTerminator (f.instrs dom)
  match (f.instrs dom)[term]?.bind fun mi => mi.getReg 0 with
  | none => term
  | some firstOpReg =>
    if isVirtualRegister firstOpReg && f.hasOneDef firstOpReg then
      match f.getVRegDef firstOpReg with
      | none => term
      | some (b, mi) =>
        if mi.opcode ≠ .PHI ∧ b = dom then (f.instrs dom).findIdx fun i => i.id = mi.id else term
    else term

/-- `MachineRegisterInfo::createVirtualRegister`, for the register it returns. -/
def freshRegister : Register := 2 ^ 31 + f.numVirtRegs

/-- `BuildMI` of a `PUSHCONT_MBB` with a new register. -/
def insertPushcont (dom t : Block) : MachineFunction Block :=
  let res : RegisterOperand := ⟨f.freshRegister, true, false, false, false⟩
  let mi : MachineInstr Block := ⟨f.nextId, .PUSHCONT_MBB, [.register res, .mbb t, .imm 0]⟩
  { f with
    instrs := Function.update f.instrs dom ((f.instrs dom).insertIdx (f.insertPosition dom) mi)
    nextId := f.nextId + 1
    numVirtRegs := f.numVirtRegs + 1 }

/-- `use_nodbg_empty` of the register that a `PUSHCONT_MBB` defines. -/
def isUsed (mi : MachineInstr Block) : Bool :=
  match mi.pushcont with
  | some (res, _) => !f.useNodbgEmpty res
  | none => false

/-- `DeleteMIs`. -/
def deleteMIs : List ℕ :=
  (f.allInstrs.filter fun p => p.2.target.isSome && !f.isUsed p.2).map fun p => p.2.id

/-- `Info[t].Instructions`, each instruction with its block. -/
def occurrences (t : Block) : List (Block × ℕ) :=
  (f.allInstrs.filter fun p => p.2.target = some t && f.isUsed p.2).map fun p => (p.1, p.2.id)

/-- The last `PUSHCONT_MBB` of `t` in the block, with its register. -/
def findPushcont (dom t : Block) : Option (ℕ × Register) :=
  (f.instrs dom).reverse.findSome? fun mi =>
    match mi.pushcont with
    | some (res, block) => if block = t then some (mi.id, res) else none
    | none => none

/-- The register that an instruction defines. -/
def resultOf (id : ℕ) : Option Register :=
  (f.allInstrs.find? fun p => p.2.id = id).bind fun p => p.2.getReg 0

/-- An occurrence is erased, and the register it defines replaced. -/
def eraseAndReplace (id : ℕ) (mbbReg : Register) : MachineFunction Block :=
  match f.resultOf id with
  | some old => (f.erase id).replaceRegWith old mbbReg
  | none => f.erase id

/-- The occurrences are replaced by one in the block `commonDom`. -/
def mergeAt (commonDom t : Block) (instrs : List (Block × ℕ)) : MachineFunction Block :=
  match f.findPushcont commonDom t with
  | some (foundMI, mbbReg) =>
    let f := (instrs.filter fun cur => cur.2 ≠ foundMI).foldl
      (fun f cur => f.eraseAndReplace cur.2 mbbReg) (f.clearRegisterDeads foundMI mbbReg)
    f.clearKillFlags mbbReg
  | none =>
    let mbbReg := f.freshRegister
    let f := instrs.foldl (fun f cur => f.eraseAndReplace cur.2 mbbReg) (f.insertPushcont commonDom t)
    f.clearKillFlags mbbReg

/-- The iteration of `optimize` for the block `t`. -/
def hoistTarget {g : Cfg Block} (mdt : MachineDominatorTree g) (t : Block) :
    List (Block × ℕ) → Option (MachineFunction Block)
  | [] | [_] => some f
  | first :: rest => do
    let commonDom ← (rest.map Prod.fst).foldlM mdt.findNearestCommonDominator first.1
    return f.mergeAt commonDom t (first :: rest)

/-- `runOnMachineFunction`. The blocks are visited in the order of their addresses, `order`. -/
def runOnMachineFunction (mdt : MachineDominatorTree f.cfg) (order : List Block) :
    Option (MachineFunction Block) :=
  order.foldlM (fun g t => g.hoistTarget mdt t (f.occurrences t)) (f.deleteMIs.foldl erase f)

end Pass

/-! ## What is pushed where -/

/-- Instruction `i`, in block `b`, pushes the continuation of `t`. -/
def Pushes (f : MachineFunction Block) (b : Block) (i : ℕ) (t : Block) : Prop :=
  ∃ mi ∈ f.instrs b, mi.id = i ∧ mi.target = some t

/-- What the pass relies on: an instruction is known by its address. -/
structure Hoistable (f : MachineFunction Block) : Prop where
  unique : ∀ {b b' : Block} {i : ℕ} {t t' : Block}, f.Pushes b i t → f.Pushes b' i t' →
    b = b' ∧ t = t'
  fresh : ∀ {b : Block} {i : ℕ} {t : Block}, f.Pushes b i t → i < f.nextId

/-- Only a `PUSHCONT_MBB` names a block, as it is after the elimination of PHIs. -/
def NamesByPush (f : MachineFunction Block) : Prop :=
  ∀ b, ∀ mi ∈ f.instrs b, ∀ t, .mbb t ∈ mi.operands → mi.target = some t

/-- The control-flow graph and the order of the blocks are the same. -/
def SameFlow (g f : MachineFunction Block) : Prop := g.cfg = f.cfg ∧ g.layout = f.layout

theorem SameFlow.trans {f g h : MachineFunction Block} (hgf : SameFlow g f) (hhg : SameFlow h g) :
    SameFlow h f := ⟨hhg.1.trans hgf.1, hhg.2.trans hgf.2⟩

section Updates

variable {f : MachineFunction Block} {b : Block} {i : ℕ} {t : Block}

/-- A change of the registers of some instructions. -/
structure RegistersOnly (g f : MachineFunction Block) : Prop where
  flow : SameFlow g f
  nextId : g.nextId = f.nextId
  instrs : ∀ b, ∃ h : MachineInstr Block → MachineInstr Block,
    g.instrs b = (f.instrs b).map h ∧ ∀ mi, (h mi).id = mi.id ∧ (h mi).target = mi.target ∧
      ∀ t, .mbb t ∈ (h mi).operands → .mbb t ∈ mi.operands

theorem registersOnly_mapRegisters (f : MachineFunction Block)
    (g : RegisterOperand → RegisterOperand) : RegistersOnly (f.mapRegisters g) f :=
  ⟨⟨rfl, rfl⟩, rfl, fun _ => ⟨fun mi => mi.mapRegisters g, rfl, fun mi =>
    ⟨rfl, MachineInstr.target_mapRegisters g mi, fun _ => MachineInstr.mbb_mem_mapRegisters⟩⟩⟩

theorem registersOnly_clearKillFlags (f : MachineFunction Block) (r : Register) :
    RegistersOnly (f.clearKillFlags r) f :=
  registersOnly_mapRegisters f _

theorem registersOnly_clearRegisterDeads (f : MachineFunction Block) (id : ℕ) (r : Register) :
    RegistersOnly (f.clearRegisterDeads id r) f := by
  refine ⟨⟨rfl, rfl⟩, rfl, fun _ => ⟨_, rfl, fun mi => ?_⟩⟩
  split
  · exact ⟨rfl, MachineInstr.target_mapRegisters _ mi, fun _ => MachineInstr.mbb_mem_mapRegisters⟩
  · exact ⟨rfl, rfl, fun _ h => h⟩

theorem RegistersOnly.pushes {g : MachineFunction Block} (h : RegistersOnly g f) :
    g.Pushes b i t ↔ f.Pushes b i t := by
  obtain ⟨h, hinstrs, hsame⟩ := h.instrs b
  unfold Pushes
  rw [hinstrs]
  constructor
  · rintro ⟨_, hmem, hid, ht⟩
    obtain ⟨mi, hmi, rfl⟩ := List.mem_map.mp hmem
    exact ⟨mi, hmi, (hsame mi).1 ▸ hid, (hsame mi).2.1 ▸ ht⟩
  · rintro ⟨mi, hmi, rfl, ht⟩
    exact ⟨h mi, List.mem_map_of_mem hmi, (hsame mi).1, (hsame mi).2.1.trans ht⟩

theorem RegistersOnly.hoistable {g : MachineFunction Block} (h : RegistersOnly g f)
    (hf : f.Hoistable) : g.Hoistable where
  unique h₁ h₂ := hf.unique (h.pushes.mp h₁) (h.pushes.mp h₂)
  fresh h₁ := h.nextId ▸ hf.fresh (h.pushes.mp h₁)

theorem RegistersOnly.namesByPush {g : MachineFunction Block} (h : RegistersOnly g f)
    (hf : f.NamesByPush) : g.NamesByPush := by
  intro b mi hmem t ht
  obtain ⟨h, hinstrs, hsame⟩ := h.instrs b
  rw [hinstrs] at hmem
  obtain ⟨mi, hmi, rfl⟩ := List.mem_map.mp hmem
  rw [(hsame mi).2.1]
  exact hf b mi hmi t ((hsame mi).2.2 t ht)

theorem pushes_erase {j : ℕ} : (f.erase j).Pushes b i t ↔ f.Pushes b i t ∧ i ≠ j := by
  constructor
  · rintro ⟨mi, hmi, rfl, ht⟩
    obtain ⟨hmi, hne⟩ := List.mem_filter.mp hmi
    exact ⟨⟨mi, hmi, rfl, ht⟩, by simpa using hne⟩
  · rintro ⟨⟨mi, hmi, rfl, ht⟩, hne⟩
    exact ⟨mi, List.mem_filter.mpr ⟨hmi, by simpa using hne⟩, rfl, ht⟩

theorem Hoistable.erase (hf : f.Hoistable) (j : ℕ) : (f.erase j).Hoistable where
  unique h₁ h₂ := hf.unique (pushes_erase.mp h₁).1 (pushes_erase.mp h₂).1
  fresh h₁ := hf.fresh (pushes_erase.mp h₁).1

theorem NamesByPush.erase (hf : f.NamesByPush) (j : ℕ) : (f.erase j).NamesByPush :=
  fun b mi hmi => hf b mi (List.mem_of_mem_filter hmi)

/-- Erasing an occurrence leaves the others. -/
theorem eraseAndReplace_spec (hf : f.Hoistable) (j : ℕ) (r : Register) :
    (f.eraseAndReplace j r).Hoistable ∧ SameFlow (f.eraseAndReplace j r) f ∧
      ∀ b i t, (f.eraseAndReplace j r).Pushes b i t ↔ f.Pushes b i t ∧ i ≠ j := by
  unfold eraseAndReplace
  cases f.resultOf j with
  | none => exact ⟨hf.erase j, ⟨rfl, rfl⟩, fun _ _ _ => pushes_erase⟩
  | some old =>
    have hregs := registersOnly_mapRegisters (f.erase j) fun op =>
      if op.reg = old then { op with reg := r } else op
    exact ⟨hregs.hoistable (hf.erase j), hregs.flow, fun _ _ _ => hregs.pushes.trans pushes_erase⟩

theorem NamesByPush.eraseAndReplace (hf : f.NamesByPush) (j : ℕ) (r : Register) :
    (f.eraseAndReplace j r).NamesByPush := by
  unfold MachineFunction.eraseAndReplace
  cases f.resultOf j with
  | none => exact hf.erase j
  | some old => exact (registersOnly_mapRegisters (f.erase j) _).namesByPush (hf.erase j)

theorem NamesByPush.foldl_eraseAndReplace (hf : f.NamesByPush) (occ : List (Block × ℕ))
    (r : Register) : (occ.foldl (fun f cur => f.eraseAndReplace cur.2 r) f).NamesByPush :=
  List.foldlRecOn occ _ hf fun _ hg cur _ => NamesByPush.eraseAndReplace hg cur.2 r

/-- So does erasing several. -/
theorem foldl_eraseAndReplace_spec (hf : f.Hoistable) (occ : List (Block × ℕ)) (r : Register) :
    let g := occ.foldl (fun f cur => f.eraseAndReplace cur.2 r) f
    g.Hoistable ∧ SameFlow g f ∧
      ∀ b i t, g.Pushes b i t ↔ f.Pushes b i t ∧ ∀ o ∈ occ, i ≠ o.2 := by
  induction occ generalizing f with
  | nil => exact ⟨hf, ⟨rfl, rfl⟩, by simp⟩
  | cons o occ ih =>
    obtain ⟨hg, hflow, hpushes⟩ := eraseAndReplace_spec hf o.2 r
    obtain ⟨hg', hflow', hpushes'⟩ := ih hg
    refine ⟨hg', hflow.trans hflow', fun b i t => ?_⟩
    rw [List.foldl_cons, hpushes', hpushes, List.forall_mem_cons, and_assoc]

theorem firstInstrTerminator_le (instrs : List (MachineInstr Block)) :
    firstInstrTerminator instrs ≤ instrs.length := by
  unfold firstInstrTerminator
  dsimp only
  generalize (instrs.reverse.takeWhile _).length = n
  have hfind : (instrs.drop (instrs.length - n)).findIdx (fun mi => mi.opcode.isTerminator) ≤
      (instrs.drop (instrs.length - n)).length := List.findIdx_le_length
  rw [List.length_drop] at hfind
  omega

theorem insertPosition_le [DecidableEq Block] (f : MachineFunction Block) (dom : Block) :
    f.insertPosition dom ≤ (f.instrs dom).length := by
  have hterm := firstInstrTerminator_le (f.instrs dom)
  unfold insertPosition
  simp only
  split
  · exact hterm
  · split
    · split
      · exact hterm
      · split
        · exact List.findIdx_le_length
        · exact hterm
    · exact hterm

theorem mem_insertPushcont [DecidableEq Block] {dom t b : Block} {mi : MachineInstr Block} :
    mi ∈ (f.insertPushcont dom t).instrs b ↔
      mi ∈ f.instrs b ∨ b = dom ∧ mi = ⟨f.nextId, .PUSHCONT_MBB,
        [.register ⟨f.freshRegister, true, false, false, false⟩, .mbb t, .imm 0]⟩ := by
  by_cases hb : b = dom
  · subst hb
    simp [insertPushcont, List.mem_insertIdx (f.insertPosition_le b), or_comm]
  · simp [insertPushcont, hb]

/-- The new instruction pushes its block, the others what they did. -/
theorem insertPushcont_spec [DecidableEq Block] (hf : f.Hoistable) (dom t : Block) :
    (f.insertPushcont dom t).Hoistable ∧ SameFlow (f.insertPushcont dom t) f ∧
      ∀ b i t', (f.insertPushcont dom t).Pushes b i t' ↔
        f.Pushes b i t' ∨ b = dom ∧ i = f.nextId ∧ t' = t := by
  have hpushes (b : Block) (i : ℕ) (t' : Block) : (f.insertPushcont dom t).Pushes b i t' ↔
      f.Pushes b i t' ∨ b = dom ∧ i = f.nextId ∧ t' = t := by
    constructor
    · rintro ⟨mi, hmi, rfl, ht⟩
      rcases mem_insertPushcont.mp hmi with hmi | ⟨rfl, rfl⟩
      · exact Or.inl ⟨mi, hmi, rfl, ht⟩
      · obtain rfl : t = t' := Option.some.inj ht
        exact Or.inr ⟨rfl, rfl, rfl⟩
    · rintro (⟨mi, hmi, rfl, ht⟩ | ⟨rfl, rfl, rfl⟩)
      · exact ⟨mi, mem_insertPushcont.mpr (Or.inl hmi), rfl, ht⟩
      · exact ⟨_, mem_insertPushcont.mpr (Or.inr ⟨rfl, rfl⟩), rfl, rfl⟩
  refine ⟨⟨fun {b b' i t₁ t₂} h₁ h₂ => ?_, fun {b i t'} h => ?_⟩, ⟨rfl, rfl⟩, hpushes⟩
  · rcases (hpushes b i t₁).mp h₁ with h₁ | ⟨hb₁, hi₁, ht₁⟩ <;>
      rcases (hpushes b' i t₂).mp h₂ with h₂ | ⟨hb₂, hi₂, ht₂⟩
    · exact hf.unique h₁ h₂
    · exact absurd (hi₂ ▸ hf.fresh h₁) (lt_irrefl _)
    · exact absurd (hi₁ ▸ hf.fresh h₂) (lt_irrefl _)
    · exact ⟨hb₁.trans hb₂.symm, ht₁.trans ht₂.symm⟩
  · show i < f.nextId + 1
    rcases (hpushes b i t').mp h with h | ⟨-, rfl, -⟩
    · exact Nat.lt_succ_of_lt (hf.fresh h)
    · exact Nat.lt_succ_self _

theorem NamesByPush.insertPushcont [DecidableEq Block] (hf : f.NamesByPush) (dom t : Block) :
    (f.insertPushcont dom t).NamesByPush := by
  intro b mi hmi t' ht
  rcases mem_insertPushcont.mp hmi with hmi | ⟨rfl, rfl⟩
  · exact hf b mi hmi t' ht
  · obtain rfl : t' = t := by simpa using ht
    rfl

theorem exists_of_findPushcont [DecidableEq Block] {dom : Block} {r : Register}
    (h : f.findPushcont dom t = some (i, r)) :
    ∃ mi ∈ f.instrs dom, mi.id = i ∧ mi.pushcont = some (r, t) := by
  obtain ⟨mi, hmi, hfound⟩ := List.exists_of_findSome?_eq_some h
  cases hp : mi.pushcont with
  | none => simp [hp] at hfound
  | some p =>
    obtain ⟨res, block⟩ := p
    simp only [hp] at hfound
    split at hfound
    · rename_i hblock
      subst hblock
      obtain ⟨rfl, rfl⟩ : mi.id = i ∧ res = r := by simpa using hfound
      exact ⟨mi, List.mem_reverse.mp hmi, rfl, hp⟩
    · cases hfound

theorem pushes_of_findPushcont [DecidableEq Block] {dom : Block} {r : Register}
    (h : f.findPushcont dom t = some (i, r)) : f.Pushes dom i t := by
  obtain ⟨mi, hmi, hid, hpush⟩ := exists_of_findPushcont h
  exact ⟨mi, hmi, hid, by rw [MachineInstr.target, hpush]; rfl⟩

end Updates

/-! ## The pass, block by block -/

section Hoist

variable [DecidableEq Block] {f : MachineFunction Block} {g : Cfg Block}

/-- The occurrences for one block are replaced by one. The occurrences for other blocks stay. -/
theorem mergeAt_spec (hf : f.Hoistable) {t : Block} {occ : List (Block × ℕ)}
    (hocc : ∀ b i, f.Pushes b i t ↔ (b, i) ∈ occ) (dom : Block) :
    (f.mergeAt dom t occ).Hoistable ∧ SameFlow (f.mergeAt dom t occ) f ∧
      (∀ b i t', t' ≠ t → ((f.mergeAt dom t occ).Pushes b i t' ↔ f.Pushes b i t')) ∧
      ∃ kept, ∀ b i, (f.mergeAt dom t occ).Pushes b i t → b = dom ∧ i = kept := by
  -- an occurrence for another block has another address
  have hother {b : Block} {i : ℕ} {t' : Block} (ht : t' ≠ t) (h : f.Pushes b i t') :
      ∀ o ∈ occ, i ≠ o.2 := by
    rintro ⟨b', i'⟩ ho rfl
    exact ht (hf.unique h ((hocc b' i).mpr ho)).2
  unfold mergeAt
  cases hfound : f.findPushcont dom t with
  | some found =>
    obtain ⟨foundMI, mbbReg⟩ := found
    have hkept := pushes_of_findPushcont hfound
    have hdead := registersOnly_clearRegisterDeads f foundMI mbbReg
    obtain ⟨hg, hflow, hpushes⟩ := foldl_eraseAndReplace_spec (hdead.hoistable hf)
      (occ.filter fun cur => cur.2 ≠ foundMI) mbbReg
    have hkill := registersOnly_clearKillFlags ((occ.filter fun cur => cur.2 ≠ foundMI).foldl
      (fun f cur => f.eraseAndReplace cur.2 mbbReg) (f.clearRegisterDeads foundMI mbbReg)) mbbReg
    refine ⟨hkill.hoistable hg, (hdead.flow.trans hflow).trans hkill.flow,
      fun b i t' ht => hkill.pushes.trans ((hpushes b i t').trans ?_), foundMI, fun b i h => ?_⟩
    · rw [hdead.pushes]
      exact ⟨fun h => h.1, fun h => ⟨h, fun o ho => hother ht h o (List.mem_of_mem_filter ho)⟩⟩
    · -- the only one that is left is the one that was found
      obtain ⟨hpush, hleft⟩ := (hpushes b i t).mp (hkill.pushes.mp h)
      rw [hdead.pushes] at hpush
      have hid : i = foundMI := by
        by_contra hne
        exact hleft (b, i) (List.mem_filter.mpr ⟨(hocc b i).mp hpush, by simpa using hne⟩) rfl
      exact ⟨(hf.unique hpush (hid ▸ hkept)).1, hid⟩
  | none =>
    obtain ⟨hnew, hflow, hpushes⟩ := insertPushcont_spec hf dom t
    obtain ⟨hg, hflow', hpushes'⟩ := foldl_eraseAndReplace_spec hnew occ f.freshRegister
    have hkill := registersOnly_clearKillFlags (occ.foldl
      (fun f' cur => f'.eraseAndReplace cur.2 f.freshRegister) (f.insertPushcont dom t))
      f.freshRegister
    refine ⟨hkill.hoistable hg, (hflow.trans hflow').trans hkill.flow,
      fun b i t' ht => hkill.pushes.trans ((hpushes' b i t').trans ?_), f.nextId, fun b i h => ?_⟩
    · rw [hpushes]
      constructor
      · rintro ⟨h | ⟨-, -, rfl⟩, -⟩
        · exact h
        · exact absurd rfl ht
      · intro h
        exact ⟨Or.inl h, hother ht h⟩
    · obtain ⟨hpush, hleft⟩ := (hpushes' b i t).mp (hkill.pushes.mp h)
      rcases (hpushes b i t).mp hpush with hpush | ⟨rfl, rfl, -⟩
      · exact absurd rfl (hleft (b, i) ((hocc b i).mp hpush))
      · exact ⟨rfl, rfl⟩

/-- **What the pass leaves of the occurrences for one block**: a push in a block that dominates
them all. -/
theorem hoistTarget_spec (mdt : MachineDominatorTree g) (hf : f.Hoistable) {t : Block}
    {occ : List (Block × ℕ)} (hocc : ∀ b i, f.Pushes b i t ↔ (b, i) ∈ occ)
    (hreach : ∀ b, g.Reachable b) :
    ∃ f', f.hoistTarget mdt t occ = some f' ∧ f'.Hoistable ∧ SameFlow f' f ∧
      (∀ b i t', t' ≠ t → (f'.Pushes b i t' ↔ f.Pushes b i t')) ∧
      ∀ b i, f'.Pushes b i t → occ ≠ [] ∧ ∀ o ∈ occ, Dominates g.entry g.Succ b o.1 := by
  match occ with
  | [] =>
    refine ⟨f, rfl, hf, ⟨rfl, rfl⟩, fun _ _ _ _ => Iff.rfl, fun b i hpush => ?_⟩
    exact absurd ((hocc b i).mp hpush) List.not_mem_nil
  | [o] =>
    refine ⟨f, rfl, hf, ⟨rfl, rfl⟩, fun _ _ _ _ => Iff.rfl, fun b i hpush => ⟨by simp, ?_⟩⟩
    obtain rfl : (b, i) = o := List.mem_singleton.mp ((hocc b i).mp hpush)
    exact List.forall_mem_singleton.mpr (dominates_refl b)
  | first :: second :: rest =>
    obtain ⟨dom, hdom, hfirst, hrest⟩ := DominatorTree.foldlM_findNearestCommonDominator_spec
      (t := mdt) (hreach first.1) fun v (_ : v ∈ (second :: rest).map Prod.fst) => hreach v
    obtain ⟨hmerged, hflow, hother, _, hthis⟩ := mergeAt_spec hf hocc dom
    refine ⟨f.mergeAt dom t (first :: second :: rest), ?_, hmerged, hflow, hother, ?_⟩
    · rw [hoistTarget, hdom]
      · rfl
      · simp
    · intro b i hpush
      obtain ⟨rfl, -⟩ := hthis b i hpush
      exact ⟨by simp, List.forall_mem_cons.mpr
        ⟨hfirst, fun o ho => hrest o.1 (List.mem_map_of_mem ho)⟩⟩

/-- The blocks in their order. -/
theorem foldlM_hoistTarget_spec (mdt : MachineDominatorTree g) (hf : f.Hoistable)
    {order : List Block} (horder : order.Nodup) {occ : Block → List (Block × ℕ)}
    (hocc : ∀ t ∈ order, ∀ b i, f.Pushes b i t ↔ (b, i) ∈ occ t) (hreach : ∀ b, g.Reachable b) :
    ∃ f', order.foldlM (fun f t => f.hoistTarget mdt t (occ t)) f = some f' ∧ f'.Hoistable ∧
      SameFlow f' f ∧ (∀ t ∉ order, ∀ b i, f'.Pushes b i t ↔ f.Pushes b i t) ∧
      ∀ t ∈ order, ∀ b i, f'.Pushes b i t →
        occ t ≠ [] ∧ ∀ o ∈ occ t, Dominates g.entry g.Succ b o.1 := by
  induction order generalizing f with
  | nil => exact ⟨f, rfl, hf, ⟨rfl, rfl⟩, by simp, by simp⟩
  | cons t order ih =>
    obtain ⟨hnot, hnodup⟩ := List.nodup_cons.mp horder
    obtain ⟨hocc_t, hocc⟩ := List.forall_mem_cons.mp hocc
    obtain ⟨f₁, hrun, hf₁, hflow, hother, hdone⟩ := hoistTarget_spec mdt hf hocc_t hreach
    obtain ⟨f₂, hrun₂, hf₂, hflow₂, hother₂, hdone₂⟩ := ih hf₁ hnodup fun t' ht' b i => by
      rw [hother b i t' fun h => hnot (h ▸ ht')]
      exact hocc t' ht' b i
    refine ⟨f₂, ?_, hf₂, hflow.trans hflow₂, ?_, List.forall_mem_cons.mpr ⟨?_, hdone₂⟩⟩
    · rw [List.foldlM_cons, hrun]
      exact hrun₂
    · intro t' ht' b i
      obtain ⟨hne, hnot'⟩ := not_or.mp fun h => ht' (List.mem_cons.mpr h)
      rw [hother₂ t' hnot', hother b i t' hne]
    · intro b i hpush
      exact hdone b i ((hother₂ t hnot b i).mp hpush)

theorem NamesByPush.mergeAt (hf : f.NamesByPush) (dom t : Block) (occ : List (Block × ℕ)) :
    (f.mergeAt dom t occ).NamesByPush := by
  unfold MachineFunction.mergeAt
  cases f.findPushcont dom t with
  | some found =>
    exact (registersOnly_clearKillFlags _ _).namesByPush
      (((registersOnly_clearRegisterDeads f _ _).namesByPush hf).foldl_eraseAndReplace _ _)
  | none =>
    exact (registersOnly_clearKillFlags _ _).namesByPush
      ((hf.insertPushcont dom t).foldl_eraseAndReplace _ _)

/-- The pass writes no other instruction that names a block. -/
theorem NamesByPush.runOnMachineFunction {mdt : MachineDominatorTree f.cfg} {order : List Block}
    {f' : MachineFunction Block} (hf : f.NamesByPush)
    (h : f.runOnMachineFunction mdt order = some f') : f'.NamesByPush := by
  refine foldlM_inv (fun t g g' hg hstep => ?_)
    (List.foldlRecOn f.deleteMIs _ hf fun _ hg j _ => NamesByPush.erase hg j) h
  generalize f.occurrences t = occ at hstep
  match occ with
  | [] | [_] =>
    cases hstep
    exact hg
  | first :: second :: rest =>
    obtain ⟨dom, -, hstep⟩ := Option.bind_eq_some_iff.mp hstep
    cases hstep
    exact hg.mergeAt dom t _

end Hoist

/-! ## The whole pass -/

section Run

variable {f : MachineFunction Block}

/-- Each instruction has an address of its own, and all blocks are in the layout. -/
structure WellFormed (f : MachineFunction Block) : Prop where
  ids : (f.allInstrs.map fun p => p.2.id).Nodup
  ids_lt : ∀ p ∈ f.allInstrs, p.2.id < f.nextId
  mem_layout : ∀ b, b ∈ f.layout

/-- Control passes from `p` to `t` through a terminator of `p` that uses the continuation of `t`,
pushed in a block that dominates `p`. -/
def EdgeByContinuation (f : MachineFunction Block) (p t : Block) : Prop :=
  ∃ term ∈ f.instrs p, term.opcode.isTerminator ∧ ∃ (d : Block) (r : Register),
    (∃ mi ∈ f.instrs d, mi.pushcont = some (r, t)) ∧ term.uses r ∧
      Dominates f.cfg.entry f.cfg.Succ d p

theorem WellFormed.mem_allInstrs (hf : f.WellFormed) {b : Block} {mi : MachineInstr Block} :
    (b, mi) ∈ f.allInstrs ↔ mi ∈ f.instrs b := by
  simp [allInstrs, hf.mem_layout]

/-- An address belongs to one instruction. -/
theorem WellFormed.eq_of_id (hf : f.WellFormed) {b b' : Block} {mi mi' : MachineInstr Block}
    (hmi : mi ∈ f.instrs b) (hmi' : mi' ∈ f.instrs b') (hid : mi.id = mi'.id) :
    b = b' ∧ mi = mi' := by
  have h := List.inj_on_of_nodup_map hf.ids (hf.mem_allInstrs.mpr hmi) (hf.mem_allInstrs.mpr hmi') hid
  exact Prod.mk.inj h

theorem WellFormed.hoistable (hf : f.WellFormed) : f.Hoistable where
  unique := by
    rintro b b' i t t' ⟨mi, hmi, rfl, ht⟩ ⟨mi', hmi', hid, ht'⟩
    obtain ⟨rfl, rfl⟩ := hf.eq_of_id hmi hmi' hid.symm
    exact ⟨rfl, Option.some.inj (ht.symm.trans ht')⟩
  fresh := by
    rintro b i t ⟨mi, hmi, rfl, -⟩
    exact hf.ids_lt (b, mi) (hf.mem_allInstrs.mpr hmi)

theorem foldl_erase_spec (hf : f.Hoistable) (ids : List ℕ) :
    (ids.foldl erase f).Hoistable ∧ SameFlow (ids.foldl erase f) f ∧
      ∀ b i t, (ids.foldl erase f).Pushes b i t ↔ f.Pushes b i t ∧ i ∉ ids := by
  induction ids generalizing f with
  | nil => exact ⟨hf, ⟨rfl, rfl⟩, by simp⟩
  | cons j ids ih =>
    obtain ⟨hg, hflow, hpushes⟩ := ih (hf.erase j)
    refine ⟨hg, hflow, fun b i t => ?_⟩
    rw [List.foldl_cons, hpushes, pushes_erase, List.mem_cons, not_or, and_assoc]

variable [DecidableEq Block]

/-- What is used stays, what is not used goes. -/
theorem pushes_foldl_deleteMIs (hf : f.WellFormed) (b : Block) (i : ℕ) (t : Block) :
    (f.deleteMIs.foldl erase f).Pushes b i t ↔ (b, i) ∈ f.occurrences t := by
  rw [(foldl_erase_spec hf.hoistable f.deleteMIs).2.2]
  constructor
  · rintro ⟨⟨mi, hmi, rfl, ht⟩, hkept⟩
    have hused : f.isUsed mi = true := by
      by_contra hunused
      refine hkept (List.mem_map.mpr ⟨(b, mi), List.mem_filter.mpr ⟨hf.mem_allInstrs.mpr hmi, ?_⟩, rfl⟩)
      simpa [ht] using hunused
    refine List.mem_map.mpr ⟨(b, mi), List.mem_filter.mpr ⟨hf.mem_allInstrs.mpr hmi, ?_⟩, rfl⟩
    simp [ht, hused]
  · intro hocc
    obtain ⟨⟨b', mi⟩, hp, heq⟩ := List.mem_map.mp hocc
    obtain ⟨rfl, rfl⟩ := Prod.mk.inj heq
    obtain ⟨hmem, hcond⟩ := List.mem_filter.mp hp
    obtain ⟨ht, hused⟩ : mi.target = some t ∧ f.isUsed mi = true := by simpa using hcond
    have hmi := hf.mem_allInstrs.mp hmem
    refine ⟨⟨mi, hmi, rfl, ht⟩, fun hdel => ?_⟩
    obtain ⟨⟨b'', mi'⟩, hp', hid⟩ := List.mem_map.mp hdel
    obtain ⟨hmem', hcond'⟩ := List.mem_filter.mp hp'
    obtain ⟨-, rfl⟩ := hf.eq_of_id (hf.mem_allInstrs.mp hmem') hmi hid
    simp [hused] at hcond'

/-- The continuation that an edge uses is one of the occurrences. -/
theorem EdgeByContinuation.exists_occurrence (hf : f.WellFormed) {p t : Block}
    (h : f.EdgeByContinuation p t) :
    ∃ o ∈ f.occurrences t, Dominates f.cfg.entry f.cfg.Succ o.1 p := by
  obtain ⟨term, hterm, hterminator, d, r, ⟨mi, hmi, hpush⟩, huse, hdom⟩ := h
  have hdebug : term.opcode.isDebugInstr = false := by
    cases hop : term.opcode with
    | DBG_VALUE =>
      rw [hop] at hterminator
      cases hterminator
    | _ => rfl
  have hused : f.isUsed mi = true := by
    simp only [isUsed, hpush, Bool.not_eq_true']
    rw [useNodbgEmpty, List.all_eq_false]
    exact ⟨(p, term), hf.mem_allInstrs.mpr hterm, by simp [hdebug, huse]⟩
  refine ⟨(d, mi.id), List.mem_map.mpr ⟨(d, mi), List.mem_filter.mpr
    ⟨hf.mem_allInstrs.mpr hmi, ?_⟩, rfl⟩, hdom⟩
  simp [MachineInstr.target, hpush, hused]

/-- **Hoisting keeps continuations above their blocks**: what is still pushed after the pass is
pushed in a block that strictly dominates the pushed one. -/
theorem runOnMachineFunction_spec (mdt : MachineDominatorTree f.cfg) {order : List Block}
    (hf : f.WellFormed) (hreach : ∀ b, f.cfg.Reachable b) (horder : order.Nodup)
    (hall : ∀ b, b ∈ order) (hentry : f.cfg.preds f.cfg.entry = [])
    (hedges : ∀ p t, t ∈ f.cfg.succs p →
      f.getFallThrough p = some t ∨ f.EdgeByContinuation p t)
    (hused : ∀ t, f.occurrences t ≠ [] → ∃ p, t ∈ f.cfg.succs p ∧ f.EdgeByContinuation p t) :
    ∃ g, f.runOnMachineFunction mdt order = some g ∧ SameFlow g f ∧
      ∀ b i t, g.Pushes b i t → StrictlyDominates f.cfg.entry f.cfg.Succ b t := by
  obtain ⟨hf₁, hflow₁, -⟩ := foldl_erase_spec hf.hoistable f.deleteMIs
  obtain ⟨g, hrun, -, hflow, -, hdone⟩ := foldlM_hoistTarget_spec mdt hf₁ horder
    (fun t _ => fun b i => pushes_foldl_deleteMIs hf b i t) hreach
  refine ⟨g, hrun, hflow₁.trans hflow, fun b i t hpush => ?_⟩
  obtain ⟨hne, hdom⟩ := hdone t (hall t) b i hpush
  obtain ⟨p₀, hp₀, hcont₀⟩ := hused t hne
  -- all edges into `t` go through a terminator
  have hedge (p : Block) (hp : f.cfg.Succ p t) : f.EdgeByContinuation p t := by
    rcases hedges p t hp with hfall | hcont
    · have hpreds := (getFallThrough_spec hfall).2
      obtain rfl : p₀ = p := by
        simpa [hpreds] using (f.cfg.mem_preds p₀ t).mpr hp₀
      exact hcont₀
    · exact hcont
  have hentry' : t ≠ f.cfg.entry := by
    rintro rfl
    simpa [hentry] using (f.cfg.mem_preds p₀ f.cfg.entry).mpr hp₀
  refine strictlyDominates_of_edges (hreach t) hentry' fun p hp => ?_
  obtain ⟨o, ho, hop⟩ := (hedge p hp).exists_occurrence hf
  exact (hdom o ho).trans hop

end Run

end MachineFunction

end TVMCompiler
