import TVMCompiler.Pass.BranchInterface
import TVMCompiler.Pass.MCInstLower

/-!
# Hoisted continuations dominate their uses

The continuation of a block is pushed once after `TVMContinuationsHoist`, above every terminator
that used one of the pushes before.

## Main definitions

* `UsesAt`, `Holds`: an operand reads a register, a register holds the continuation of a block
* `Above`: an instruction dominates another one and comes before it
* `Placed`: every continuation is pushed above its uses, which are terminators

## Main results

* `Merging.eraseAndReplace`: what erasing one push preserves
* `hoistTarget_placed`: what the iteration for one block preserves
* `runOnMachineFunction_dominates`: what is left of the pushes is above every use
-/

namespace TVMCompiler

open Lib

variable {Block : Type}

/-! ## Registers of an instruction -/

namespace MachineInstr

/-- Operand `k` reads the register. -/
def UsesAt (mi : MachineInstr Block) (k : ℕ) (r : Register) : Prop :=
  ∃ op : RegisterOperand, mi.operands[k]? = some (.register op) ∧ op.reg = r ∧ op.isDef = false

theorem uses_iff {mi : MachineInstr Block} {r : Register} :
    mi.uses r = true ↔ ∃ k, mi.UsesAt k r := by
  simp only [uses, List.any_eq_true]
  constructor
  · rintro ⟨op, hop, huse⟩
    obtain ⟨k, hk⟩ := List.mem_iff_getElem?.mp hop
    cases op with
    | register op =>
      obtain ⟨hreg, hdef⟩ : op.reg = r ∧ op.isDef = false := by simpa using huse
      exact ⟨k, op, hk, hreg, hdef⟩
    | _ => cases huse
  · rintro ⟨k, op, hk, rfl, hdef⟩
    exact ⟨.register op, List.mem_of_getElem? hk, by simp [hdef]⟩

theorem operands_of_pushcont {mi : MachineInstr Block} {r : Register} {t : Block}
    (h : mi.pushcont = some (r, t)) :
    mi.opcode = .PUSHCONT_MBB ∧
      ∃ res rest, mi.operands = .register res :: .mbb t :: rest ∧ res.reg = r := by
  obtain ⟨id, opcode, operands⟩ := mi
  unfold pushcont at h
  split at h
  · rename_i res block rest hop hoperands
    obtain ⟨rfl, rfl⟩ := Prod.mk.inj (Option.some.inj h)
    exact ⟨hop, res, rest, hoperands, rfl⟩
  · cases h

theorem exists_pushcont {mi : MachineInstr Block} {t : Block} (h : mi.target = some t) :
    ∃ r, mi.pushcont = some (r, t) := by
  obtain ⟨⟨r, t'⟩, hpush, rfl⟩ := Option.map_eq_some_iff.mp h
  exact ⟨r, hpush⟩

theorem target_of_pushcont {mi : MachineInstr Block} {r : Register} {t : Block}
    (h : mi.pushcont = some (r, t)) : mi.target = some t := by
  rw [target, h]
  rfl

theorem not_isTerminator_of_pushcont {mi : MachineInstr Block} {r : Register} {t : Block}
    (h : mi.pushcont = some (r, t)) : mi.opcode.isTerminator = false := by
  rw [(operands_of_pushcont h).1]
  rfl

/-- The second instruction is the first one with other registers. -/
structure Renamed (ρ : Register → Register) (mi mi' : MachineInstr Block) : Prop where
  id_eq : mi'.id = mi.id
  opcode_eq : mi'.opcode = mi.opcode
  usesAt : ∀ k r, mi'.UsesAt k r ↔ ∃ r₀, mi.UsesAt k r₀ ∧ ρ r₀ = r
  pushcont : mi'.pushcont = mi.pushcont.map fun p => (ρ p.1, p.2)
  registers : ∀ op : RegisterOperand, .register op ∈ mi'.operands →
    ∃ op₀ : RegisterOperand, .register op₀ ∈ mi.operands ∧ ρ op₀.reg = op.reg

variable {ρ : Register → Register} {mi mi' : MachineInstr Block}

theorem renamed_mapRegisters {φ : RegisterOperand → RegisterOperand}
    (hφ : ∀ op, (φ op).reg = ρ op.reg ∧ (φ op).isDef = op.isDef) (mi : MachineInstr Block) :
    Renamed ρ mi (mi.mapRegisters φ) where
  id_eq := rfl
  opcode_eq := rfl
  usesAt k r := by
    simp only [UsesAt, mapRegisters, List.getElem?_map, Option.map_eq_some_iff]
    constructor
    · rintro ⟨op', ⟨op, hop, heq⟩, rfl, hdef⟩
      cases op with
      | register op =>
        obtain rfl : φ op = op' := by simpa using heq
        exact ⟨op.reg, ⟨op, hop, rfl, (hφ op).2.symm.trans hdef⟩, (hφ op).1.symm⟩
      | _ => cases heq
    · rintro ⟨_, ⟨op, hop, rfl, hdef⟩, rfl⟩
      exact ⟨φ op, ⟨.register op, hop, rfl⟩, (hφ op).1, (hφ op).2.trans hdef⟩
  pushcont := by
    obtain ⟨id, opcode, operands⟩ := mi
    cases opcode with
    | PUSHCONT_MBB =>
      match operands with
      | [] => rfl
      | [op] => cases op <;> rfl
      | op :: op' :: _ =>
        cases op <;> cases op' <;> try rfl
        rename_i op _
        exact congrArg (fun r => some (r, _)) (hφ op).1
    | _ => rfl
  registers op hop := by
    obtain ⟨op₀, hop₀, heq⟩ := List.mem_map.mp hop
    cases op₀ with
    | register op₀ =>
      obtain rfl : φ op₀ = op := by simpa using heq
      exact ⟨op₀, hop₀, (hφ op₀).1.symm⟩
    | _ => cases heq

theorem Renamed.refl (mi : MachineInstr Block) : Renamed (fun r => r) mi mi where
  id_eq := rfl
  opcode_eq := rfl
  usesAt _ _ := ⟨fun h => ⟨_, h, rfl⟩, by rintro ⟨_, h, rfl⟩; exact h⟩
  pushcont := Option.map_id'.symm
  registers op hop := ⟨op, hop, rfl⟩

theorem Renamed.pushcont_eq (h : Renamed (fun r => r) mi mi') : mi'.pushcont = mi.pushcont :=
  h.pushcont.trans Option.map_id'

theorem Renamed.uses (h : Renamed ρ mi mi') (r : Register) :
    mi'.uses r = true ↔ ∃ r₀, mi.uses r₀ = true ∧ ρ r₀ = r := by
  simp only [uses_iff, h.usesAt]
  exact ⟨fun ⟨k, r₀, hk, hr⟩ => ⟨r₀, ⟨k, hk⟩, hr⟩, fun ⟨r₀, ⟨k, hk⟩, hr⟩ => ⟨k, r₀, hk, hr⟩⟩

theorem Renamed.target (h : Renamed ρ mi mi') : mi'.target = mi.target := by
  rw [MachineInstr.target, h.pushcont, Option.map_map]
  rfl

end MachineInstr

namespace MachineFunction

/-! ## Above a use -/

/-- The instruction `i` comes before the instruction `j`. -/
def Before (l : List (MachineInstr Block)) (i j : ℕ) : Prop :=
  [i, j].Sublist (l.map fun mi => mi.id)

/-- The instruction `i` of block `d` dominates the instruction `j` of block `p`. -/
def Above (c : Cfg Block) (f : MachineFunction Block) (d : Block) (i : ℕ) (p : Block) (j : ℕ) :
    Prop :=
  Dominates c.entry c.Succ d p ∧ (d = p → Before (f.instrs p) i j)

/-- The register holds the continuation of `t`. -/
def Holds (f : MachineFunction Block) (r : Register) (t : Block) : Prop :=
  ∃ d, ∃ mi ∈ f.instrs d, mi.pushcont = some (r, t)

/-- The pushes of `t` come before the terminators of their blocks. -/
def PushedFirst (f : MachineFunction Block) (t : Block) : Prop :=
  ∀ d, ∀ mi ∈ f.instrs d, mi.target = some t → ∀ u ∈ f.instrs d, u.opcode.isTerminator →
    Before (f.instrs d) mi.id u.id

/-- Each use of a continuation in `f` is a use of the same one in `f'`. -/
def KeepsUses (f f' : MachineFunction Block) : Prop :=
  ∀ p, ∀ u ∈ f.instrs p, ∀ k r t, u.UsesAt k r → f.Holds r t →
    ∃ u' ∈ f'.instrs p, u'.id = u.id ∧ ∃ r', u'.UsesAt k r' ∧ f'.Holds r' t

theorem KeepsUses.refl (f : MachineFunction Block) : f.KeepsUses f :=
  fun _ u hu _ r _ huse hholds => ⟨u, hu, rfl, r, huse, hholds⟩

theorem KeepsUses.trans {f f' f'' : MachineFunction Block} (h : f.KeepsUses f')
    (h' : f'.KeepsUses f'') : f.KeepsUses f'' := by
  intro p u hu k r t huse hholds
  obtain ⟨u', hu', hid, r', huse', hholds'⟩ := h p u hu k r t huse hholds
  obtain ⟨u'', hu'', hid', huse''⟩ := h' p u' hu' k r' t huse' hholds'
  exact ⟨u'', hu'', hid'.trans hid, huse''⟩

/-- The invariant of the pass: no two continuations are pushed to one register, and each is pushed
above its uses, which are terminators. -/
structure Placed (c : Cfg Block) (f : MachineFunction Block) : Prop where
  mem_layout : ∀ b, b ∈ f.layout
  ids : ∀ {b b' : Block} {mi mi' : MachineInstr Block}, mi ∈ f.instrs b → mi' ∈ f.instrs b' →
    mi.id = mi'.id → b = b' ∧ mi = mi'
  ids_lt : ∀ b, ∀ mi ∈ f.instrs b, mi.id < f.nextId
  fresh : f.Fresh
  single : ∀ {b b' : Block} {mi mi' : MachineInstr Block} {r : Register} {t t' : Block},
    mi ∈ f.instrs b → mi' ∈ f.instrs b' → mi.pushcont = some (r, t) →
    mi'.pushcont = some (r, t') → mi.id = mi'.id
  used : ∀ {d p : Block} {mi u : MachineInstr Block} {r : Register} {t : Block},
    mi ∈ f.instrs d → mi.pushcont = some (r, t) → u ∈ f.instrs p → u.uses r →
    u.opcode.isTerminator ∧ Above c f d mi.id p u.id

/-- Instructions are erased and registers renamed. -/
structure Renames (ρ : Register → Register) (keep : ℕ → Bool) (f f' : MachineFunction Block) :
    Prop where
  layout : f'.layout = f.layout
  nextId : f'.nextId = f.nextId
  freshRegister : f'.freshRegister = f.freshRegister
  instrs : ∀ b, ∃ h : MachineInstr Block → MachineInstr Block,
    f'.instrs b = ((f.instrs b).filter fun mi => keep mi.id).map h ∧ ∀ mi : MachineInstr Block, mi.Renamed ρ (h mi)

section Renames

variable {ρ : Register → Register} {keep : ℕ → Bool} {f f' : MachineFunction Block}
  {c : Cfg Block} {b d p : Block} {i j : ℕ}

theorem Renames.exists_old (h : Renames ρ keep f f') {mi' : MachineInstr Block}
    (hmi : mi' ∈ f'.instrs b) : ∃ mi ∈ f.instrs b, keep mi.id = true ∧ mi.Renamed ρ mi' := by
  obtain ⟨φ, hinstrs, hφ⟩ := h.instrs b
  rw [hinstrs] at hmi
  obtain ⟨mi, hmem, rfl⟩ := List.mem_map.mp hmi
  obtain ⟨hmem, hkeep⟩ := List.mem_filter.mp hmem
  exact ⟨mi, hmem, hkeep, hφ mi⟩

theorem Renames.exists_new (h : Renames ρ keep f f') {mi : MachineInstr Block}
    (hmi : mi ∈ f.instrs b) (hkeep : keep mi.id = true) :
    ∃ mi' ∈ f'.instrs b, mi.Renamed ρ mi' := by
  obtain ⟨φ, hinstrs, hφ⟩ := h.instrs b
  refine ⟨φ mi, ?_, hφ mi⟩
  rw [hinstrs]
  exact List.mem_map_of_mem (List.mem_filter.mpr ⟨hmi, hkeep⟩)

theorem Renames.before (h : Renames ρ keep f f') (hi : keep i = true) (hj : keep j = true)
    (hbefore : Before (f.instrs b) i j) : Before (f'.instrs b) i j := by
  obtain ⟨φ, hinstrs, hφ⟩ := h.instrs b
  have hids : (f'.instrs b).map (fun mi => mi.id) =
      ((f.instrs b).map fun mi => mi.id).filter keep := by
    rw [hinstrs, List.map_map, List.filter_map]
    exact List.map_congr_left fun mi _ => (hφ mi).id_eq
  have hsub := hbefore.filter keep
  rw [List.filter_cons_of_pos hi, List.filter_cons_of_pos hj, List.filter_nil] at hsub
  unfold Before
  rw [hids]
  exact hsub

theorem Renames.above (h : Renames ρ keep f f') (hi : keep i = true) (hj : keep j = true)
    (habove : Above c f d i p j) : Above c f' d i p j :=
  ⟨habove.1, fun hd => h.before hi hj (habove.2 hd)⟩

theorem Renames.ids (h : Renames ρ keep f f')
    (hids : ∀ {b b' : Block} {mi mi' : MachineInstr Block}, mi ∈ f.instrs b → mi' ∈ f.instrs b' →
      mi.id = mi'.id → b = b' ∧ mi = mi') {b' : Block} {mi mi' : MachineInstr Block}
    (hmi : mi ∈ f'.instrs b) (hmi' : mi' ∈ f'.instrs b') (hid : mi.id = mi'.id) :
    b = b' ∧ mi = mi' := by
  obtain ⟨old, hold, -, hren⟩ := h.exists_old hmi
  obtain ⟨old', hold', -, hren'⟩ := h.exists_old hmi'
  have hids' : old.id = old'.id := hren.id_eq.symm.trans (hid.trans hren'.id_eq)
  obtain ⟨rfl, -⟩ := hids hold hold' hids'
  -- the two come from one instruction of the block
  obtain ⟨φ, hinstrs, hφ⟩ := h.instrs b
  rw [hinstrs] at hmi hmi'
  obtain ⟨mi₁, hmem₁, rfl⟩ := List.mem_map.mp hmi
  obtain ⟨mi₂, hmem₂, rfl⟩ := List.mem_map.mp hmi'
  rw [(hφ mi₁).id_eq, (hφ mi₂).id_eq] at hid
  rw [(hids (List.mem_of_mem_filter hmem₁) (List.mem_of_mem_filter hmem₂) hid).2]
  exact ⟨rfl, rfl⟩

theorem Renames.fresh (h : Renames ρ keep f f') (hf : f.Fresh)
    (hρ : ∀ r < f.freshRegister, ρ r < f.freshRegister) : f'.Fresh := by
  intro b mi' hmi' op hop
  obtain ⟨mi, hmi, -, hren⟩ := h.exists_old hmi'
  obtain ⟨op₀, hop₀, hreg⟩ := hren.registers op hop
  rw [h.freshRegister, ← hreg]
  exact hρ _ (hf b mi hmi op₀ hop₀)

theorem Renames.pushedFirst (h : Renames ρ keep f f') {t : Block} (hf : f.PushedFirst t) :
    f'.PushedFirst t := by
  intro d mi' hmi' ht u' hu' hterm
  obtain ⟨mi, hmi, hkeep, hren⟩ := h.exists_old hmi'
  obtain ⟨u, hu, hkeepu, hrenu⟩ := h.exists_old hu'
  rw [hren.target] at ht
  rw [hrenu.opcode_eq] at hterm
  rw [hren.id_eq, hrenu.id_eq]
  exact h.before hkeep hkeepu (hf d mi hmi ht u hu hterm)

/-- The uses of continuations are kept with their instructions. -/
theorem Renames.keepsUses (h : Renames ρ keep f f')
    (hkeep : ∀ p, ∀ u ∈ f.instrs p, ∀ r t, u.uses r → f.Holds r t →
      keep u.id = true ∧ f'.Holds (ρ r) t) : f.KeepsUses f' := by
  intro p u hu k r t huse hholds
  obtain ⟨hkept, hholds'⟩ := hkeep p u hu r t (MachineInstr.uses_iff.mpr ⟨k, huse⟩) hholds
  obtain ⟨u', hu', hren⟩ := h.exists_new hu hkept
  exact ⟨u', hu', hren.id_eq, ρ r, (hren.usesAt k (ρ r)).mpr ⟨r, huse, rfl⟩, hholds'⟩

theorem Renames.holds (h : Renames (fun r => r) keep f f') {mi : MachineInstr Block}
    {r : Register} {t : Block} (hmi : mi ∈ f.instrs b) (hkeep : keep mi.id = true)
    (hpush : mi.pushcont = some (r, t)) : f'.Holds r t := by
  obtain ⟨mi', hmi', hren⟩ := h.exists_new hmi hkeep
  exact ⟨b, mi', hmi', hren.pushcont_eq.trans hpush⟩

/-- Flags of operands do not matter. -/
theorem Renames.placed (h : Renames (fun r => r) keep f f') (hf : Placed c f) : Placed c f' where
  mem_layout b := h.layout ▸ hf.mem_layout b
  ids := h.ids hf.ids
  ids_lt b mi' hmi' := by
    obtain ⟨mi, hmi, -, hren⟩ := h.exists_old hmi'
    rw [hren.id_eq, h.nextId]
    exact hf.ids_lt b mi hmi
  fresh := h.fresh hf.fresh fun _ hr => hr
  single {b b' mi mi' r t t'} hmi hmi' hpush hpush' := by
    obtain ⟨old, hold, -, hren⟩ := h.exists_old hmi
    obtain ⟨old', hold', -, hren'⟩ := h.exists_old hmi'
    rw [hren.pushcont_eq] at hpush
    rw [hren'.pushcont_eq] at hpush'
    rw [hren.id_eq, hren'.id_eq]
    exact hf.single hold hold' hpush hpush'
  used {d p mi' u' r t} hmi' hpush hu' huse := by
    obtain ⟨mi, hmi, hkeep, hren⟩ := h.exists_old hmi'
    obtain ⟨u, hu, hkeepu, hrenu⟩ := h.exists_old hu'
    rw [hren.pushcont_eq] at hpush
    obtain ⟨_, hold, rfl⟩ := (hrenu.uses r).mp huse
    obtain ⟨hterm, habove⟩ := hf.used hmi hpush hu hold
    rw [hrenu.opcode_eq, hren.id_eq, hrenu.id_eq]
    exact ⟨hterm, h.above hkeep hkeepu habove⟩

theorem renames_mapRegisters {φ : RegisterOperand → RegisterOperand} (f : MachineFunction Block)
    (hφ : ∀ op, (φ op).reg = ρ op.reg ∧ (φ op).isDef = op.isDef) :
    Renames ρ (fun _ => true) f (f.mapRegisters φ) :=
  ⟨rfl, rfl, rfl, fun b => ⟨fun mi => mi.mapRegisters φ, by rw [List.filter_true]; rfl,
    MachineInstr.renamed_mapRegisters hφ⟩⟩

theorem renames_clearKillFlags (f : MachineFunction Block) (r : Register) :
    Renames (fun r => r) (fun _ => true) f (f.clearKillFlags r) := by
  refine renames_mapRegisters f fun op => ?_
  by_cases hop : op.reg = r ∧ !op.isDef
  · simp only [if_pos hop, and_self]
  · simp only [if_neg hop, and_self]

theorem renames_clearRegisterDeads (f : MachineFunction Block) (id : ℕ) (r : Register) :
    Renames (fun r => r) (fun _ => true) f (f.clearRegisterDeads id r) := by
  refine ⟨rfl, rfl, rfl, fun b => ⟨_, by rw [List.filter_true]; rfl, fun mi => ?_⟩⟩
  by_cases hid : mi.id = id
  · rw [if_pos hid]
    refine MachineInstr.renamed_mapRegisters (fun op => ?_) mi
    by_cases hop : op.reg = r ∧ op.isDef
    · simp only [if_pos hop, and_self]
    · simp only [if_neg hop, and_self]
  · rw [if_neg hid]
    exact .refl mi

theorem renames_foldl_erase (f : MachineFunction Block) (ids : List ℕ) :
    Renames (fun r => r) (fun i => i ∉ ids) f (ids.foldl erase f) := by
  have hflow (l : List ℕ) (g : MachineFunction Block) : (l.foldl erase g).layout = g.layout ∧
      (l.foldl erase g).nextId = g.nextId ∧
      (l.foldl erase g).freshRegister = g.freshRegister ∧
      ∀ b, (l.foldl erase g).instrs b = (g.instrs b).filter fun mi => decide (mi.id ∉ l) := by
    induction l generalizing g with
    | nil => exact ⟨rfl, rfl, rfl, fun b => by simp⟩
    | cons j l ih =>
      obtain ⟨hlayout, hid, hreg, hinstrs⟩ := ih (g.erase j)
      refine ⟨hlayout, hid, hreg, fun b => ?_⟩
      rw [List.foldl_cons, hinstrs b, erase, List.filter_filter]
      refine List.filter_congr fun mi _ => ?_
      rw [← Bool.decide_and]
      exact decide_eq_decide.mpr (by rw [List.mem_cons, not_or, and_comm])
  obtain ⟨hlayout, hid, hreg, hinstrs⟩ := hflow ids f
  refine ⟨hlayout, hid, hreg, fun b => ⟨fun mi => mi, ?_, fun mi => .refl mi⟩⟩
  rw [hinstrs b, List.map_id']

end Renames

/-! ## One push is erased -/

/-- The continuation of `t` is pushed to `m` by the instruction `foundMI`, in a block that dominates
the blocks of all other pushes, and above their uses. -/
structure Merging (c : Cfg Block) (f : MachineFunction Block) (t dom : Block) (foundMI : ℕ)
    (m : Register) : Prop where
  placed : Placed c f
  found : ∃ mi ∈ f.instrs dom, mi.id = foundMI ∧ mi.pushcont = some (m, t)
  dominates : ∀ b i, f.Pushes b i t → Dominates c.entry c.Succ dom b
  before : ∀ d, ∀ mi ∈ f.instrs d, ∀ r, mi.pushcont = some (r, t) → ∀ u ∈ f.instrs dom,
    u.uses r → Before (f.instrs dom) foundMI u.id

section Erase

variable {c : Cfg Block} {f : MachineFunction Block} {t dom : Block} {foundMI j : ℕ} {m : Register}

theorem Placed.target_of_pushes (hf : Placed c f) {b b' : Block} {i : ℕ}
    (hpush : f.Pushes b' i t) {mi : MachineInstr Block} (hmi : mi ∈ f.instrs b)
    (hid : mi.id = i) : mi.target = some t := by
  obtain ⟨mi', hmi', hid', ht⟩ := hpush
  rw [(hf.ids hmi hmi' (hid.trans hid'.symm)).2]
  exact ht

/-- The register of a push that is erased. -/
theorem exists_resultOf (hf : Placed c f) {b : Block} {mi : MachineInstr Block}
    (hmi : mi ∈ f.instrs b) {old : Register} (hpush : mi.pushcont = some (old, t)) :
    f.resultOf mi.id = some old := by
  have hmem : (b, mi) ∈ f.allInstrs :=
    List.mem_flatMap.mpr ⟨b, hf.mem_layout b, List.mem_map_of_mem hmi⟩
  have hsome : (f.allInstrs.find? fun p => p.2.id = mi.id).isSome := by
    rw [List.find?_isSome]
    exact ⟨(b, mi), hmem, by simp⟩
  obtain ⟨⟨b', mi'⟩, hfind⟩ := Option.isSome_iff_exists.mp hsome
  have hid : mi'.id = mi.id := by simpa using List.find?_some hfind
  obtain ⟨b₀, -, hmi'⟩ := List.mem_flatMap.mp (List.mem_of_find?_eq_some hfind)
  obtain ⟨mi₀, hmi₀, heq⟩ := List.mem_map.mp hmi'
  obtain ⟨-, rfl⟩ := Prod.mk.inj heq
  obtain ⟨-, rfl⟩ := hf.ids hmi₀ hmi hid
  obtain ⟨-, res, rest, hoperands, rfl⟩ := MachineInstr.operands_of_pushcont hpush
  rw [resultOf, hfind, Option.bind_some, MachineInstr.getReg, hoperands]
  rfl

/-- Nothing is erased, and the registers stay. -/
theorem Merging.of_renames {keep : ℕ → Bool} {f' : MachineFunction Block}
    (h : Merging c f t dom foundMI m) (hren : Renames (fun r => r) keep f f')
    (hkeep : ∀ b, ∀ mi ∈ f.instrs b, keep mi.id = true) :
    Merging c f' t dom foundMI m ∧ f.KeepsUses f' := by
  obtain ⟨miF, hmiF, rfl, hpushF⟩ := h.found
  refine ⟨⟨hren.placed h.placed, ?_, ?_, ?_⟩, hren.keepsUses ?_⟩
  · obtain ⟨mi', hmi', hren'⟩ := hren.exists_new hmiF (hkeep dom miF hmiF)
    exact ⟨mi', hmi', hren'.id_eq, hren'.pushcont_eq.trans hpushF⟩
  · rintro b i ⟨mi', hmi', rfl, ht⟩
    obtain ⟨mi, hmi, -, hren'⟩ := hren.exists_old hmi'
    exact h.dominates b mi.id ⟨mi, hmi, rfl, hren'.target ▸ ht⟩
  · intro d mi' hmi' r hpush u' hu' huse
    obtain ⟨mi, hmi, -, hren'⟩ := hren.exists_old hmi'
    obtain ⟨u, hu, hkeepu, hrenu⟩ := hren.exists_old hu'
    obtain ⟨_, hold, rfl⟩ := (hrenu.uses r).mp huse
    rw [hrenu.id_eq]
    refine hren.before (hkeep dom miF hmiF) hkeepu ?_
    exact h.before d mi hmi _ (hren'.pushcont_eq ▸ hpush) u hu hold
  · rintro p u hu r t' - ⟨d, mi, hmi, hpush⟩
    exact ⟨hkeep p u hu, hren.holds hmi (hkeep d mi hmi) hpush⟩

/-- Erasing keeps what the other instructions push. -/
theorem exists_of_mem_eraseAndReplace {b : Block} {mi' : MachineInstr Block}
    (hmi : mi' ∈ (f.eraseAndReplace j m).instrs b) :
    ∃ mi ∈ f.instrs b, mi'.id = mi.id ∧ mi'.target = mi.target := by
  rw [MachineFunction.eraseAndReplace] at hmi
  cases hresult : f.resultOf j with
  | none =>
    rw [hresult] at hmi
    exact ⟨mi', List.mem_of_mem_filter hmi, rfl, rfl⟩
  | some old =>
    rw [hresult] at hmi
    obtain ⟨mi, hmem, rfl⟩ := List.mem_map.mp hmi
    exact ⟨mi, List.mem_of_mem_filter hmem, rfl, MachineInstr.target_mapRegisters _ mi⟩

theorem renames_eraseAndReplace {old : Register} (hresult : f.resultOf j = some old) :
    Renames (fun r => if r = old then m else r) (fun i => i ∉ [j]) f (f.eraseAndReplace j m) := by
  rw [MachineFunction.eraseAndReplace, hresult]
  refine ⟨rfl, rfl, rfl, fun b => ⟨fun mi => mi.mapRegisters fun op =>
    if op.reg = old then { op with reg := m } else op, ?_, ?_⟩⟩
  · show ((f.instrs b).filter fun mi => decide (mi.id ≠ j)).map _ = _
    simp only [List.mem_singleton]
  · refine MachineInstr.renamed_mapRegisters fun op => ?_
    by_cases hop : op.reg = old
    · simp only [if_pos hop, and_self]
    · simp only [if_neg hop, and_self]

theorem Merging.erase_pushcont (h : Merging c f t dom foundMI m) {b : Block}
    {mi : MachineInstr Block} (hmi : mi ∈ f.instrs b) {old : Register}
    (hpush : mi.pushcont = some (old, t)) (hne : mi.id ≠ foundMI) :
    Merging c (f.eraseAndReplace mi.id m) t dom foundMI m ∧
      f.KeepsUses (f.eraseAndReplace mi.id m) ∧
      ∀ t', f.PushedFirst t' → (f.eraseAndReplace mi.id m).PushedFirst t' := by
  have hren : Renames _ _ f (f.eraseAndReplace mi.id m) :=
    renames_eraseAndReplace (exists_resultOf h.placed hmi hpush)
  obtain ⟨miF, hmiF, rfl, hpushF⟩ := h.found
  have hold : m ≠ old := by
    rintro rfl
    exact hne (h.placed.single hmi hmiF hpush hpushF)
  -- a terminator is not erased
  have hterm {p : Block} {u : MachineInstr Block} (hu : u ∈ f.instrs p)
      (hterm : u.opcode.isTerminator) : decide (u.id ∉ [mi.id]) = true := by
    simp only [List.mem_singleton, decide_eq_true_eq]
    intro hid
    rw [(h.placed.ids hu hmi hid).2, MachineInstr.not_isTerminator_of_pushcont hpush] at hterm
    cases hterm
  -- a push that is kept has another register
  have hother {d : Block} {mi' : MachineInstr Block} (hmi' : mi' ∈ f.instrs d)
      (hkeep : decide (mi'.id ∉ [mi.id]) = true) {r : Register} {t' : Block}
      (hpush' : mi'.pushcont = some (r, t')) : r ≠ old := by
    rintro rfl
    simp only [List.mem_singleton, decide_eq_true_eq] at hkeep
    exact hkeep (h.placed.single hmi' hmi hpush' hpush)
  have hkeepF : decide (miF.id ∉ [mi.id]) = true := by
    simpa using Ne.symm hne
  -- the push and the register of a use that is left
  have hpushes {d : Block} {mi' : MachineInstr Block} {r : Register} {t' : Block}
      (hmi' : mi' ∈ (f.eraseAndReplace mi.id m).instrs d) (hpush' : mi'.pushcont = some (r, t')) :
      ∃ mi₀ ∈ f.instrs d, decide (mi₀.id ∉ [mi.id]) = true ∧ mi'.id = mi₀.id ∧
        mi₀.pushcont = some (r, t') := by
    obtain ⟨mi₀, hmi₀, hkeep, hren'⟩ := hren.exists_old hmi'
    rw [hren'.pushcont] at hpush'
    obtain ⟨⟨r₀, t₀⟩, hpush₀, heq⟩ := Option.map_eq_some_iff.mp hpush'
    obtain ⟨hr, rfl⟩ := Prod.mk.inj heq
    have hr₀ := hother hmi₀ hkeep hpush₀
    simp only [if_neg hr₀] at hr
    exact ⟨mi₀, hmi₀, hkeep, hren'.id_eq, hr ▸ hpush₀⟩
  have huses {p : Block} {u' : MachineInstr Block} {r : Register}
      (hu' : u' ∈ (f.eraseAndReplace mi.id m).instrs p) (huse : u'.uses r) :
      ∃ u ∈ f.instrs p, decide (u.id ∉ [mi.id]) = true ∧ u'.id = u.id ∧ u'.opcode = u.opcode ∧
        (u.uses r ∨ u.uses old ∧ r = m) := by
    obtain ⟨u, hu, hkeep, hrenu⟩ := hren.exists_old hu'
    obtain ⟨r₀, hr₀, hr⟩ := (hrenu.uses r).mp huse
    refine ⟨u, hu, hkeep, hrenu.id_eq, hrenu.opcode_eq, ?_⟩
    by_cases hcase : r₀ = old
    · rw [if_pos hcase] at hr
      exact .inr ⟨hcase ▸ hr₀, hr.symm⟩
    · rw [if_neg hcase] at hr
      exact .inl (hr ▸ hr₀)
  refine ⟨⟨⟨fun b => hren.layout ▸ h.placed.mem_layout b, hren.ids h.placed.ids, ?_,
    hren.fresh h.placed.fresh ?_, ?_, ?_⟩, ?_, ?_, ?_⟩, hren.keepsUses ?_,
    fun t' => hren.pushedFirst⟩
  · intro b' mi' hmi'
    obtain ⟨mi₀, hmi₀, -, hren'⟩ := hren.exists_old hmi'
    rw [hren'.id_eq, hren.nextId]
    exact h.placed.ids_lt b' mi₀ hmi₀
  · intro r hr
    obtain ⟨-, res, rest, hoperands, hres⟩ := MachineInstr.operands_of_pushcont hpushF
    split
    · exact hres ▸ h.placed.fresh dom miF hmiF res (hoperands ▸ List.mem_cons_self)
    · exact hr
  · intro b₁ b₂ mi₁ mi₂ r t₁ t₂ hmi₁ hmi₂ hpush₁ hpush₂
    obtain ⟨old₁, hold₁, -, hid₁, hpush₁⟩ := hpushes hmi₁ hpush₁
    obtain ⟨old₂, hold₂, -, hid₂, hpush₂⟩ := hpushes hmi₂ hpush₂
    rw [hid₁, hid₂]
    exact h.placed.single hold₁ hold₂ hpush₁ hpush₂
  · intro d p mi' u' r t' hmi' hpush' hu' huse
    obtain ⟨mi₀, hmi₀, hkeep, hid, hpush₀⟩ := hpushes hmi' hpush'
    obtain ⟨u, hu, hkeepu, hidu, hop, huse⟩ := huses hu' huse
    rw [hop, hid, hidu]
    rcases huse with huse | ⟨huse, rfl⟩
    · obtain ⟨hterminator, habove⟩ := h.placed.used hmi₀ hpush₀ hu huse
      exact ⟨hterminator, hren.above hkeep hkeepu habove⟩
    · -- the use of the erased push is below the one that is kept
      obtain ⟨hterminator, habove⟩ := h.placed.used hmi hpush hu huse
      obtain ⟨rfl, rfl⟩ := h.placed.ids hmi₀ hmiF (h.placed.single hmi₀ hmiF hpush₀ hpushF)
      have hdom := h.dominates b mi.id
        ⟨mi, hmi, rfl, MachineInstr.target_of_pushcont hpush⟩
      refine ⟨hterminator, hdom.trans habove.1, ?_⟩
      rintro rfl
      exact hren.before hkeepF hkeepu (h.before b mi hmi old hpush u hu huse)
  · obtain ⟨mi', hmi', hren'⟩ := hren.exists_new hmiF hkeepF
    refine ⟨mi', hmi', hren'.id_eq, ?_⟩
    rw [hren'.pushcont, hpushF]
    simp only [Option.map_some, if_neg hold]
  · rintro b' i ⟨mi', hmi', rfl, ht⟩
    obtain ⟨mi₀, hmi₀, -, hren'⟩ := hren.exists_old hmi'
    exact h.dominates b' mi₀.id ⟨mi₀, hmi₀, rfl, hren'.target ▸ ht⟩
  · intro d mi' hmi' r hpush' u' hu' huse
    obtain ⟨mi₀, hmi₀, -, -, hpush₀⟩ := hpushes hmi' hpush'
    obtain ⟨u, hu, hkeepu, hidu, -, huse⟩ := huses hu' huse
    rw [hidu]
    refine hren.before hkeepF hkeepu ?_
    rcases huse with huse | ⟨huse, rfl⟩
    · exact h.before d mi₀ hmi₀ r hpush₀ u hu huse
    · exact h.before b mi hmi old hpush u hu huse
  · rintro p u hu r t' huse ⟨d, mi', hmi', hpush'⟩
    refine ⟨hterm hu (h.placed.used hmi' hpush' hu huse).1, ?_⟩
    by_cases hr : r = old
    · -- the continuation of the erased push
      subst hr
      obtain ⟨rfl, rfl⟩ := h.placed.ids hmi' hmi (h.placed.single hmi' hmi hpush' hpush)
      obtain rfl : t = t' := congrArg Prod.snd (Option.some.inj (hpush.symm.trans hpush'))
      obtain ⟨mi'', hmi'', hren'⟩ := hren.exists_new hmiF hkeepF
      refine ⟨dom, mi'', hmi'', ?_⟩
      rw [hren'.pushcont, hpushF]
      simp only [Option.map_some, if_neg hold, if_true]
    · have hkeep : decide (mi'.id ∉ [mi.id]) = true := by
        simp only [List.mem_singleton, decide_eq_true_eq]
        intro hid
        rw [(h.placed.ids hmi' hmi hid).2, hpush] at hpush'
        exact hr (congrArg Prod.fst (Option.some.inj hpush')).symm
      obtain ⟨mi'', hmi'', hren'⟩ := hren.exists_new hmi' hkeep
      refine ⟨d, mi'', hmi'', ?_⟩
      rw [hren'.pushcont, hpush']
      simp only [Option.map_some, if_neg hr]

/-- **Erasing one push**: the uses of its register become uses of the register of the push that
is kept, which is above them. -/
theorem Merging.eraseAndReplace (h : Merging c f t dom foundMI m) (hne : j ≠ foundMI)
    (hj : ∀ b, ∀ mi ∈ f.instrs b, mi.id = j → mi.target = some t) :
    Merging c (f.eraseAndReplace j m) t dom foundMI m ∧ f.KeepsUses (f.eraseAndReplace j m) ∧
      ∀ t', f.PushedFirst t' → (f.eraseAndReplace j m).PushedFirst t' := by
  by_cases hex : ∃ b, ∃ mi ∈ f.instrs b, mi.id = j
  · obtain ⟨b, mi, hmi, rfl⟩ := hex
    obtain ⟨old, hpush⟩ := MachineInstr.exists_pushcont (hj b mi hmi rfl)
    exact h.erase_pushcont hmi hpush hne
  · -- there is nothing to erase
    have hkeep : ∀ b, ∀ mi ∈ f.instrs b, decide (mi.id ∉ [j]) = true := by
      intro b mi hmi
      simp only [List.mem_singleton, decide_eq_true_eq]
      exact fun hid => hex ⟨b, mi, hmi, hid⟩
    have hnone : f.resultOf j = none := by
      rw [resultOf, List.find?_eq_none.mpr, Option.bind_none]
      rintro ⟨b, mi⟩ hp hid
      obtain ⟨b₀, -, hmi⟩ := List.mem_flatMap.mp hp
      obtain ⟨mi₀, hmi₀, heq⟩ := List.mem_map.mp hmi
      obtain ⟨-, rfl⟩ := Prod.mk.inj heq
      exact hex ⟨b₀, mi₀, hmi₀, by simpa using hid⟩
    have hren : Renames (fun r => r) (fun i => i ∉ [j]) f (f.eraseAndReplace j m) := by
      rw [MachineFunction.eraseAndReplace, hnone]
      exact renames_foldl_erase f [j]
    obtain ⟨hmerging, huses⟩ := h.of_renames hren hkeep
    exact ⟨hmerging, huses, fun t' => hren.pushedFirst⟩

/-- The pushes are erased one after the other. -/
theorem Merging.foldl_eraseAndReplace (h : Merging c f t dom foundMI m) (occ : List (Block × ℕ))
    (hne : ∀ o ∈ occ, o.2 ≠ foundMI)
    (hocc : ∀ o ∈ occ, ∀ b, ∀ mi ∈ f.instrs b, mi.id = o.2 → mi.target = some t) :
    let g := occ.foldl (fun f cur => f.eraseAndReplace cur.2 m) f
    Merging c g t dom foundMI m ∧ f.KeepsUses g ∧ ∀ t', f.PushedFirst t' → g.PushedFirst t' := by
  induction occ generalizing f with
  | nil => exact ⟨h, .refl f, fun _ h => h⟩
  | cons o occ ih =>
    obtain ⟨hneo, hne⟩ := List.forall_mem_cons.mp hne
    obtain ⟨hocco, hocc⟩ := List.forall_mem_cons.mp hocc
    obtain ⟨hmerging, huses, hfirst⟩ := h.eraseAndReplace hneo hocco
    have hocc' : ∀ o' ∈ occ, ∀ b, ∀ mi ∈ (f.eraseAndReplace o.2 m).instrs b, mi.id = o'.2 →
        mi.target = some t := by
      intro o' ho' b mi hmi hid
      obtain ⟨old, hold, hid', htarget⟩ := exists_of_mem_eraseAndReplace hmi
      rw [htarget]
      exact hocc o' ho' b old hold (hid' ▸ hid)
    obtain ⟨hmerging', huses', hfirst'⟩ := ih hmerging hne hocc'
    exact ⟨hmerging', huses.trans huses', fun t' ht' => hfirst' t' (hfirst t' ht')⟩

end Erase

/-! ## One push is inserted -/

section Insert

variable [DecidableEq Block] {c : Cfg Block} {f : MachineFunction Block} {t dom : Block}

theorem before_insertPushcont {b : Block} {i j : ℕ} (hbefore : Before (f.instrs b) i j) :
    Before ((f.insertPushcont dom t).instrs b) i j := by
  refine hbefore.trans (List.Sublist.map _ ?_)
  by_cases hb : b = dom
  · subst hb
    show List.Sublist (f.instrs b) (Function.update f.instrs b _ b)
    rw [Function.update_self]
    exact List.sublist_insertIdx _ _ _
  · show List.Sublist (f.instrs b) (Function.update f.instrs dom _ b)
    rw [Function.update_of_ne hb]

/-- **Inserting a push** for a block that no instruction of `dom` pushes. -/
theorem merging_insertPushcont (hf : Placed c f) (hnone : f.findPushcont dom t = none)
    (hreach : ∀ b, c.Reachable b) (hdom : ∀ b i, f.Pushes b i t → Dominates c.entry c.Succ dom b) :
    Merging c (f.insertPushcont dom t) t dom f.nextId f.freshRegister ∧
      f.KeepsUses (f.insertPushcont dom t) ∧
      ∀ t', t' ≠ t → f.PushedFirst t' → (f.insertPushcont dom t).PushedFirst t' := by
  set new : MachineInstr Block := ⟨f.nextId, .PUSHCONT_MBB,
    [.register ⟨f.freshRegister, true, false, false, false⟩, .mbb t, .imm 0]⟩ with hnew
  have hmem {b : Block} {mi : MachineInstr Block} (hmi : mi ∈ (f.insertPushcont dom t).instrs b) :
      mi ∈ f.instrs b ∨ b = dom ∧ mi = new := mem_insertPushcont.mp hmi
  have hmem_new : new ∈ (f.insertPushcont dom t).instrs dom :=
    mem_insertPushcont.mpr (.inr ⟨rfl, rfl⟩)
  have hpushes_new : new.pushcont = some (f.freshRegister, t) := rfl
  have hold {b : Block} {mi : MachineInstr Block} (hmi : mi ∈ f.instrs b) :
      mi ∈ (f.insertPushcont dom t).instrs b := mem_insertPushcont.mpr (.inl hmi)
  -- the new register is not pushed and not used
  have hfresh {b : Block} {mi : MachineInstr Block} {r : Register} {t' : Block}
      (hmi : mi ∈ f.instrs b) (hpush : mi.pushcont = some (r, t')) : r < f.freshRegister := by
    obtain ⟨-, res, rest, hoperands, rfl⟩ := MachineInstr.operands_of_pushcont hpush
    exact hf.fresh b mi hmi res (hoperands ▸ List.mem_cons_self)
  have huses {p : Block} {u : MachineInstr Block} {r : Register}
      (hu : u ∈ (f.insertPushcont dom t).instrs p) (huse : u.uses r) :
      u ∈ f.instrs p ∧ r < f.freshRegister := by
    obtain ⟨k, op, hop, hreg, hdef⟩ := MachineInstr.uses_iff.mp huse
    rcases hmem hu with hu | ⟨-, rfl⟩
    · exact ⟨hu, hreg ▸ hf.fresh p u hu op (List.mem_of_getElem? hop)⟩
    · rw [MachineInstr.uses, hnew] at huse
      simp at huse
  -- no old push of `t` is in the block, so that the uses of `t` are further down
  have hnot_dom {d : Block} {mi : MachineInstr Block} {r : Register} (hmi : mi ∈ f.instrs d)
      (hpush : mi.pushcont = some (r, t)) : d ≠ dom := by
    rintro rfl
    rw [findPushcont, List.findSome?_eq_none_iff] at hnone
    have hfound := hnone mi (List.mem_reverse.mpr hmi)
    rw [hpush] at hfound
    simp at hfound
  have hpushes : ∀ d mi r t', mi ∈ (f.insertPushcont dom t).instrs d →
      mi.pushcont = some (r, t') →
      mi ∈ f.instrs d ∧ r < f.freshRegister ∨ d = dom ∧ mi = new ∧ r = f.freshRegister := by
    intro d mi r t' hmi hpush
    rcases hmem hmi with hmi | ⟨rfl, rfl⟩
    · exact .inl ⟨hmi, hfresh hmi hpush⟩
    · exact .inr ⟨rfl, rfl, (congrArg Prod.fst (Option.some.inj (hpushes_new.symm.trans hpush))).symm⟩
  refine ⟨⟨⟨hf.mem_layout, ?_, ?_, ?_, ?_, ?_⟩, ⟨new, hmem_new, rfl, rfl⟩, ?_, ?_⟩, ?_, ?_⟩
  · intro b b' mi mi' hmi hmi' hid
    rcases hmem hmi with hmi₀ | ⟨rfl, rfl⟩
    · rcases hmem hmi' with hmi₀' | ⟨rfl, rfl⟩
      · exact hf.ids hmi₀ hmi₀' hid
      · exact absurd (hf.ids_lt b mi hmi₀) (hid ▸ lt_irrefl _)
    · rcases hmem hmi' with hmi₀' | ⟨rfl, rfl⟩
      · exact absurd (hf.ids_lt b' mi' hmi₀') (hid ▸ lt_irrefl _)
      · exact ⟨rfl, rfl⟩
  · intro b mi hmi
    show mi.id < f.nextId + 1
    rcases hmem hmi with hmi | ⟨rfl, rfl⟩
    · exact Nat.lt_succ_of_lt (hf.ids_lt b mi hmi)
    · exact Nat.lt_succ_self _
  · intro b mi hmi op hop
    show op.reg < f.freshRegister + 1
    rcases hmem hmi with hmi | ⟨rfl, rfl⟩
    · exact Nat.lt_succ_of_lt (hf.fresh b mi hmi op hop)
    · obtain rfl : op = ⟨f.freshRegister, true, false, false, false⟩ := by simpa [hnew] using hop
      exact Nat.lt_succ_self _
  · intro b b' mi mi' r t₁ t₂ hmi hmi' hpush hpush'
    rcases hpushes b mi r t₁ hmi hpush with ⟨hmi, hr⟩ | ⟨-, rfl, hr⟩
    · rcases hpushes b' mi' r t₂ hmi' hpush' with ⟨hmi', -⟩ | ⟨-, -, hr'⟩
      · exact hf.single hmi hmi' hpush hpush'
      · exact absurd hr (hr' ▸ lt_irrefl _)
    · rcases hpushes b' mi' r t₂ hmi' hpush' with ⟨-, hr'⟩ | ⟨-, rfl, -⟩
      · exact absurd hr' (hr ▸ lt_irrefl _)
      · rfl
  · intro d p mi u r t' hmi hpush hu huse
    obtain ⟨hu, hr⟩ := huses hu huse
    rcases hpushes d mi r t' hmi hpush with ⟨hmi, -⟩ | ⟨-, -, rfl⟩
    · obtain ⟨hterm, hdom, hbefore⟩ := hf.used hmi hpush hu huse
      exact ⟨hterm, hdom, fun hd => before_insertPushcont (hbefore hd)⟩
    · exact absurd hr (lt_irrefl _)
  · rintro b i ⟨mi, hmi, rfl, ht⟩
    rcases hmem hmi with hmi | ⟨rfl, rfl⟩
    · exact hdom b mi.id ⟨mi, hmi, rfl, ht⟩
    · exact dominates_refl b
  · intro d mi hmi r hpush u hu huse
    obtain ⟨hu, hr⟩ := huses hu huse
    rcases hpushes d mi r t hmi hpush with ⟨hmi, -⟩ | ⟨-, -, rfl⟩
    · -- the block would dominate the one that it is dominated by
      have habove := (hf.used hmi hpush hu huse).2.1
      have hbelow := hdom d mi.id ⟨mi, hmi, rfl, MachineInstr.target_of_pushcont hpush⟩
      exact absurd (Dominates.antisymm (hreach dom) habove hbelow) (hnot_dom hmi hpush)
    · exact absurd hr (lt_irrefl _)
  · rintro p u hu k r t' huse ⟨d, mi, hmi, hpush⟩
    exact ⟨u, hold hu, rfl, r, huse, d, mi, hold hmi, hpush⟩
  · intro t' ht' hfirst d mi hmi ht u hu hterm
    rcases hmem hmi with hmi | ⟨rfl, rfl⟩
    · rcases hmem hu with hu | ⟨rfl, rfl⟩
      · exact before_insertPushcont (hfirst d mi hmi ht u hu hterm)
      · cases hterm
    · exact absurd (Option.some.inj ht).symm ht'

end Insert

/-! ## The iteration for one block -/

section Hoist

variable [DecidableEq Block] {c : Cfg Block} {f : MachineFunction Block} {t dom : Block}
  {occ : List (Block × ℕ)}

/-- The pushes of `t` are merged into one in a block that dominates them. -/
theorem mergeAt_placed (hf : Placed c f) (hfirst : f.PushedFirst t)
    (hreach : ∀ b, c.Reachable b) (hocc : ∀ o ∈ occ, f.Pushes o.1 o.2 t)
    (hdom : ∀ b i, f.Pushes b i t → Dominates c.entry c.Succ dom b) :
    Placed c (f.mergeAt dom t occ) ∧ f.KeepsUses (f.mergeAt dom t occ) ∧
      ∀ t', t' ≠ t → f.PushedFirst t' → (f.mergeAt dom t occ).PushedFirst t' := by
  unfold mergeAt
  cases hfound : f.findPushcont dom t with
  | some found =>
    obtain ⟨foundMI, mbbReg⟩ := found
    obtain ⟨miF, hmiF, rfl, hpushF⟩ := exists_of_findPushcont hfound
    -- the push that is found comes before all terminators
    have hmerging : Merging c f t dom miF.id mbbReg :=
      ⟨hf, ⟨miF, hmiF, rfl, hpushF⟩, hdom, fun d mi hmi r hpush u hu huse =>
        hfirst dom miF hmiF (MachineInstr.target_of_pushcont hpushF) u hu
          (hf.used hmi hpush hu huse).1⟩
    have hdead := renames_clearRegisterDeads f miF.id mbbReg
    obtain ⟨hmerging₁, huses₁⟩ := hmerging.of_renames hdead fun _ _ _ => rfl
    have hocc₁ : ∀ o ∈ occ.filter (fun cur => cur.2 ≠ miF.id), ∀ b,
        ∀ mi ∈ (f.clearRegisterDeads miF.id mbbReg).instrs b, mi.id = o.2 →
          mi.target = some t := by
      intro o ho b mi hmi hid
      have hpush := hocc o (List.mem_of_mem_filter ho)
      exact hmerging₁.placed.target_of_pushes
        ((registersOnly_clearRegisterDeads f miF.id mbbReg).pushes.mpr hpush) hmi hid
    obtain ⟨hmerging₂, huses₂, hfirst₂⟩ := hmerging₁.foldl_eraseAndReplace _
      (fun o ho => by simpa using (List.mem_filter.mp ho).2) hocc₁
    obtain ⟨hmerging₃, huses₃⟩ := hmerging₂.of_renames (renames_clearKillFlags _ mbbReg)
      fun _ _ _ => rfl
    exact ⟨hmerging₃.placed, (huses₁.trans huses₂).trans huses₃, fun t' _ ht' =>
      (renames_clearKillFlags _ mbbReg).pushedFirst (hfirst₂ t' (hdead.pushedFirst ht'))⟩
  | none =>
    obtain ⟨hmerging, huses, hfirst₁⟩ := merging_insertPushcont hf hfound hreach hdom
    -- the new instruction has a new address
    have hne : ∀ o ∈ occ, o.2 ≠ f.nextId := by
      intro o ho
      obtain ⟨mi, hmi, hid, -⟩ := hocc o ho
      exact hid ▸ (hf.ids_lt _ mi hmi).ne
    have hocc₁ : ∀ o ∈ occ, ∀ b, ∀ mi ∈ (f.insertPushcont dom t).instrs b, mi.id = o.2 →
        mi.target = some t := by
      intro o ho b mi hmi hid
      rcases mem_insertPushcont.mp hmi with hmi | ⟨-, rfl⟩
      · exact hf.target_of_pushes (hocc o ho) hmi hid
      · rfl
    obtain ⟨hmerging₂, huses₂, hfirst₂⟩ := hmerging.foldl_eraseAndReplace occ hne hocc₁
    obtain ⟨hmerging₃, huses₃⟩ := hmerging₂.of_renames
      (renames_clearKillFlags _ f.freshRegister) fun _ _ _ => rfl
    exact ⟨hmerging₃.placed, (huses.trans huses₂).trans huses₃, fun t' hne' ht' =>
      (renames_clearKillFlags _ f.freshRegister).pushedFirst
        (hfirst₂ t' (hfirst₁ t' hne' ht'))⟩

/-- **The iteration for one block** keeps the invariant, and one push of the block is left. -/
theorem hoistTarget_placed {g : Cfg Block} (mdt : MachineDominatorTree g) (hf : Placed g f)
    (hhoist : f.Hoistable) (hfirst : f.PushedFirst t)
    (hocc : ∀ b i, f.Pushes b i t ↔ (b, i) ∈ occ) (hreach : ∀ b, g.Reachable b) :
    ∃ f', f.hoistTarget mdt t occ = some f' ∧ Placed g f' ∧ f.KeepsUses f' ∧
      (∀ t', t' ≠ t → f.PushedFirst t' → f'.PushedFirst t') ∧
      ∃ kept, ∀ b i, f'.Pushes b i t → i = kept := by
  match occ with
  | [] =>
    exact ⟨f, rfl, hf, .refl f, fun _ _ h => h, 0, fun b i hpush =>
      absurd ((hocc b i).mp hpush) List.not_mem_nil⟩
  | [o] =>
    refine ⟨f, rfl, hf, .refl f, fun _ _ h => h, o.2, fun b i hpush => ?_⟩
    exact congrArg Prod.snd (List.mem_singleton.mp ((hocc b i).mp hpush))
  | first :: second :: rest =>
    obtain ⟨dom, hdom, hdominates, hrest⟩ := DominatorTree.foldlM_findNearestCommonDominator_spec
      (t := mdt) (hreach first.1) fun v (_ : v ∈ (second :: rest).map Prod.fst) => hreach v
    have hall : ∀ b i, f.Pushes b i t → Dominates g.entry g.Succ dom b := by
      intro b i hpush
      rcases List.mem_cons.mp ((hocc b i).mp hpush) with rfl | hmem
      · exact hdominates
      · exact hrest b (List.mem_map_of_mem hmem)
    obtain ⟨hplaced, huses, hothers⟩ := mergeAt_placed hf hfirst hreach
      (fun o ho => (hocc o.1 o.2).mpr ho) hall
    obtain ⟨-, -, -, kept, hkept⟩ := mergeAt_spec hhoist hocc dom
    refine ⟨f.mergeAt dom t (first :: second :: rest), ?_, hplaced, huses, hothers, kept,
      fun b i hpush => (hkept b i hpush).2⟩
    rw [hoistTarget, hdom]
    · rfl
    · simp

/-- The blocks in their order. -/
theorem foldlM_hoistTarget_placed {g : Cfg Block} (mdt : MachineDominatorTree g)
    (hf : Placed g f) (hhoist : f.Hoistable) {order : List Block} (horder : order.Nodup)
    (hfirst : ∀ t ∈ order, f.PushedFirst t) {occ : Block → List (Block × ℕ)}
    (hocc : ∀ t ∈ order, ∀ b i, f.Pushes b i t ↔ (b, i) ∈ occ t) (hreach : ∀ b, g.Reachable b) :
    ∃ f', order.foldlM (fun f t => f.hoistTarget mdt t (occ t)) f = some f' ∧ Placed g f' ∧
      f.KeepsUses f' ∧ (∀ t ∉ order, ∀ b i, f'.Pushes b i t ↔ f.Pushes b i t) ∧
      ∀ t ∈ order, ∃ kept, ∀ b i, f'.Pushes b i t → i = kept := by
  induction order generalizing f with
  | nil => exact ⟨f, rfl, hf, .refl f, fun _ _ _ _ => Iff.rfl, fun _ h => absurd h List.not_mem_nil⟩
  | cons t order ih =>
    obtain ⟨hnot, hnodup⟩ := List.nodup_cons.mp horder
    obtain ⟨hocc_t, hocc⟩ := List.forall_mem_cons.mp hocc
    obtain ⟨hfirst_t, hfirst⟩ := List.forall_mem_cons.mp hfirst
    obtain ⟨f₁, hrun, hf₁, huses, hfirst₁, kept, hkept⟩ :=
      hoistTarget_placed mdt hf hhoist hfirst_t hocc_t hreach
    obtain ⟨f₁', hrun', hhoist₁, -, hother, -⟩ := hoistTarget_spec mdt hhoist hocc_t hreach
    obtain rfl : f₁ = f₁' := Option.some.inj (hrun.symm.trans hrun')
    have hne : ∀ t' ∈ order, t' ≠ t := fun t' ht' h => hnot (h ▸ ht')
    obtain ⟨f₂, hrun₂, hf₂, huses₂, hother₂, hkept₂⟩ := ih hf₁ hhoist₁ hnodup
      (fun t' ht' => hfirst₁ t' (hne t' ht') (hfirst t' ht')) fun t' ht' b i => by
        rw [hother b i t' (hne t' ht')]
        exact hocc t' ht' b i
    refine ⟨f₂, ?_, hf₂, huses.trans huses₂, fun t' ht' b i => ?_,
      List.forall_mem_cons.mpr ⟨⟨kept, fun b i hpush => ?_⟩, hkept₂⟩⟩
    · rw [List.foldlM_cons, hrun]
      exact hrun₂
    · obtain ⟨hne', hnot'⟩ := not_or.mp fun h => ht' (List.mem_cons.mpr h)
      rw [hother₂ t' hnot', hother b i t' hne']
    · exact hkept b i ((hother₂ t hnot b i).mp hpush)

end Hoist

/-! ## The whole pass -/

section Run

variable {f : MachineFunction Block}

/-- Each continuation is pushed to a register of its own, which is used by terminators only, in
blocks that the push dominates. -/
structure UsedByTerminators (f : MachineFunction Block) : Prop where
  single : ∀ b b', ∀ mi ∈ f.instrs b, ∀ mi' ∈ f.instrs b', ∀ r t t', mi.pushcont = some (r, t) →
    mi'.pushcont = some (r, t') → mi.id = mi'.id
  used : ∀ d p, ∀ mi ∈ f.instrs d, ∀ u ∈ f.instrs p, ∀ r t, mi.pushcont = some (r, t) →
    u.uses r → u.opcode.isTerminator ∧ Dominates f.cfg.entry f.cfg.Succ d p

/-- The register that `u` uses is defined above it by a push of `t`, and `t` is pushed nowhere
else. -/
def DefinedOnce (c : Cfg Block) (f : MachineFunction Block) (p : Block) (u : MachineInstr Block)
    (r : Register) (t : Block) : Prop :=
  ∃ d, ∃ mi ∈ f.instrs d, mi.pushcont = some (r, t) ∧ Above c f d mi.id p u.id ∧
    ∀ d', ∀ mi' ∈ f.instrs d', mi'.target = some t → d' = d ∧ mi' = mi

theorem before_of_terminatorsLast {l : List (MachineInstr Block)} (h : TerminatorsLast l)
    {mi u : MachineInstr Block} (hmi : mi ∈ l) (hu : u ∈ l) {r : Register} {t : Block}
    (hpush : mi.pushcont = some (r, t)) (hterm : u.opcode.isTerminator) :
    Before l mi.id u.id := by
  have hop := (MachineInstr.operands_of_pushcont hpush).1
  obtain ⟨l₁, l₂, rfl⟩ := List.append_of_mem hmi
  rcases List.mem_append.mp hu with hu | hu
  · -- no push follows a terminator
    have hlast := (List.pairwise_append.mp h).2.2 u hu mi List.mem_cons_self hterm
    rw [hop] at hlast
    rcases hlast with hlast | hlast <;> cases hlast
  · rcases List.mem_cons.mp hu with rfl | hu
    · rw [hop] at hterm
      cases hterm
    · have hsub : [mi, u].Sublist (l₁ ++ mi :: l₂) :=
        ((List.singleton_sublist.mpr hu).cons_cons mi).trans (List.sublist_append_right l₁ _)
      exact hsub.map fun mi => mi.id

theorem UsedByTerminators.placed (h : f.UsedByTerminators) (hf : f.WellFormed)
    (hfresh : f.Fresh) (hlast : ∀ b, TerminatorsLast (f.instrs b)) : Placed f.cfg f where
  mem_layout := hf.mem_layout
  ids := hf.eq_of_id
  ids_lt b mi hmi := hf.ids_lt (b, mi) (hf.mem_allInstrs.mpr hmi)
  fresh := hfresh
  single hmi hmi' hpush hpush' := h.single _ _ _ hmi _ hmi' _ _ _ hpush hpush'
  used {d p mi u r t} hmi hpush hu huse := by
    obtain ⟨hterm, hdom⟩ := h.used d p mi hmi u hu r t hpush huse
    refine ⟨hterm, hdom, ?_⟩
    rintro rfl
    exact before_of_terminatorsLast (hlast d) hmi hu hpush hterm

/-- What is used is not deleted. -/
theorem keepsUses_deleteMIs (hf : f.WellFormed) (hplaced : Placed f.cfg f) :
    f.KeepsUses (f.deleteMIs.foldl erase f) := by
  have hren := renames_foldl_erase f f.deleteMIs
  have hnot {b : Block} {mi : MachineInstr Block} (hmi : mi ∈ f.instrs b)
      (hkeep : ∀ r t, mi.pushcont = some (r, t) → f.isUsed mi = true) :
      decide (mi.id ∉ f.deleteMIs) = true := by
    rw [decide_eq_true_eq]
    intro hdel
    obtain ⟨⟨b', mi'⟩, hp, hid⟩ := List.mem_map.mp hdel
    obtain ⟨hmem, hcond⟩ := List.mem_filter.mp hp
    obtain ⟨-, rfl⟩ := hf.eq_of_id (hf.mem_allInstrs.mp hmem) hmi hid
    obtain ⟨hsome, hunused⟩ : mi'.target.isSome ∧ f.isUsed mi' = false := by simpa using hcond
    obtain ⟨t, ht⟩ := Option.isSome_iff_exists.mp hsome
    obtain ⟨r, hpush⟩ := MachineInstr.exists_pushcont ht
    rw [hkeep r t hpush] at hunused
    cases hunused
  refine hren.keepsUses fun p u hu r t huse hholds => ?_
  obtain ⟨d, mi, hmi, hpush⟩ := hholds
  have hterm := (hplaced.used hmi hpush hu huse).1
  refine ⟨hnot hu fun r' t' hpush' => ?_, hren.holds hmi (hnot hmi fun _ _ _ => ?_) hpush⟩
  · rw [MachineInstr.not_isTerminator_of_pushcont hpush'] at hterm
    cases hterm
  · have hdebug : u.opcode.isDebugInstr = false := by
      by_contra hdebug
      rw [Bool.not_eq_false] at hdebug
      rw [Opcode.not_isTerminator_of_isDebugInstr hdebug] at hterm
      cases hterm
    simp only [isUsed, hpush, Bool.not_eq_true']
    rw [useNodbgEmpty, List.all_eq_false]
    exact ⟨(p, u), hf.mem_allInstrs.mpr hu, by simp [hdebug, huse]⟩

variable [DecidableEq Block]

/-- **Hoisted continuations dominate their uses**: after the iterations for the blocks in `order`,
each use of the continuation of one of them is below the only push of it that is left, and every
use of it before the pass is one after the pass. -/
theorem runOnMachineFunction_dominates (mdt : MachineDominatorTree f.cfg) {order : List Block}
    (hf : f.WellFormed) (hfresh : f.Fresh) (hlast : ∀ b, TerminatorsLast (f.instrs b))
    (hused : f.UsedByTerminators) (hreach : ∀ b, f.cfg.Reachable b) (horder : order.Nodup) :
    ∃ g, f.runOnMachineFunction mdt order = some g ∧ ∀ t ∈ order,
      (∀ p, ∀ u ∈ g.instrs p, ∀ r, u.uses r → g.Holds r t → DefinedOnce f.cfg g p u r t) ∧
      ∀ p, ∀ u ∈ f.instrs p, ∀ k r, u.UsesAt k r → f.Holds r t →
        ∃ u' ∈ g.instrs p, u'.id = u.id ∧ ∃ r', u'.UsesAt k r' ∧ g.Holds r' t := by
  have hplaced := hused.placed hf hfresh hlast
  have hren := renames_foldl_erase f f.deleteMIs
  obtain ⟨hhoist, -, -⟩ := foldl_erase_spec hf.hoistable f.deleteMIs
  have hfirst : ∀ t ∈ order, (f.deleteMIs.foldl erase f).PushedFirst t := by
    intro t _
    refine hren.pushedFirst fun d mi hmi ht u hu hterm => ?_
    obtain ⟨r, hpush⟩ := MachineInstr.exists_pushcont ht
    exact before_of_terminatorsLast (hlast d) hmi hu hpush hterm
  obtain ⟨g, hrun, hg, huses, -, hkept⟩ := foldlM_hoistTarget_placed mdt (hren.placed hplaced)
    hhoist horder hfirst (fun t _ => fun b i => pushes_foldl_deleteMIs hf b i t) hreach
  have hkeeps := (keepsUses_deleteMIs hf hplaced).trans huses
  refine ⟨g, hrun, fun t ht => ⟨fun p u hu r huse hholds => ?_, fun p u hu k r huse hholds =>
    hkeeps p u hu k r t huse hholds⟩⟩
  obtain ⟨d, mi, hmi, hpush⟩ := hholds
  refine ⟨d, mi, hmi, hpush, (hg.used hmi hpush hu huse).2, fun d' mi' hmi' ht' => ?_⟩
  obtain ⟨kept, hkept⟩ := hkept t ht
  have hid : mi'.id = mi.id := (hkept d' mi'.id ⟨mi', hmi', rfl, ht'⟩).trans
    (hkept d mi.id ⟨mi, hmi, rfl, MachineInstr.target_of_pushcont hpush⟩).symm
  exact hg.ids hmi' hmi hid

theorem runOnMachineFunction_dominates_loop :
    ∃ g, loopFunction.runOnMachineFunction loopTree [2, 0, 1] = some g ∧ ∀ t ∈ [2, 0, 1],
      (∀ p, ∀ u ∈ g.instrs p, ∀ r, u.uses r → g.Holds r t →
        DefinedOnce loopFunction.cfg g p u r t) ∧
      ∀ p, ∀ u ∈ loopFunction.instrs p, ∀ k r, u.UsesAt k r → loopFunction.Holds r t →
        ∃ u' ∈ g.instrs p, u'.id = u.id ∧ ∃ r', u'.UsesAt k r' ∧ g.Holds r' t := by
  have hsingle : ∀ b b', ∀ mi ∈ loopFunction.instrs b, ∀ mi' ∈ loopFunction.instrs b',
      mi.pushcont.isSome → mi.pushcont.map Prod.fst = mi'.pushcont.map Prod.fst →
        mi.id = mi'.id := by decide
  have hused : ∀ d p, ∀ mi ∈ loopFunction.instrs d, ∀ u ∈ loopFunction.instrs p,
      mi.pushcont.all fun x => !u.uses x.1 || (u.opcode.isTerminator && decide (d ≤ p)) := by
    decide
  have hfresh : loopFunction.Fresh := by
    have hall : ∀ b, ∀ mi ∈ loopFunction.instrs b, ∀ i ∈ List.range mi.operands.length,
        (mi.getReg i).all fun r => decide (r < loopFunction.freshRegister) := by decide
    intro b mi hmi op hop
    obtain ⟨i, hi⟩ := List.mem_iff_getElem?.mp hop
    have hlt : i < mi.operands.length := (List.getElem?_eq_some_iff.mp hi).1
    have hreg := hall b mi hmi i (List.mem_range.mpr hlt)
    rw [MachineInstr.getReg, hi] at hreg
    exact of_decide_eq_true hreg
  refine runOnMachineFunction_dominates loopTree ⟨by decide, by decide, by decide⟩
    hfresh (by decide) ⟨fun b b' mi hmi mi' hmi' r t t' hpush hpush' => ?_,
      fun d p mi hmi u hu r t hpush huse => ?_⟩ loopFunction_reachable (by decide)
  · exact hsingle b b' mi hmi mi' hmi' (by rw [hpush]; rfl) (by rw [hpush, hpush']; rfl)
  · have hall := hused d p mi hmi u hu
    rw [hpush] at hall
    simp only [Option.all_some, huse, Bool.not_true, Bool.false_or, Bool.and_eq_true,
      decide_eq_true_eq] at hall
    exact ⟨hall.1, loopFunction_dominates d p hall.2⟩

end Run

end MachineFunction

end TVMCompiler
