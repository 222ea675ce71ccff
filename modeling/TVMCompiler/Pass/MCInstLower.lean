import TVMCompiler.Pass.ContinuationsHoist

/-!
# Writing out machine code

`TVMMCInstLower::lower` translates a machine instruction. A block operand becomes the code of the
block and of the blocks that it falls through to, which is translated in turn, so the recursion
ends only if no block is written into itself.

## Main definitions

* `MCExpr`, `MCInst`, `MCOperand`: the translated code
* `fallThroughChain`, `lower`: the translation, with a bound on the depth of the recursion

## Main results

* `lower_spec`: the recursion ends where each block is pushed in a block that strictly dominates it
* `hoist_lower`: it ends for every instruction after continuations are hoisted
-/

namespace TVMCompiler

open Lib

/-- The expressions that `lower` creates. -/
inductive MCExpr where
  | immString (text : String)
  | symbolRef (name : String) (external : Bool)
  | add (symbol : String) (offset : ℤ)
  deriving DecidableEq, Repr

mutual

inductive MCInst where
  | mk (opcode : Opcode) (operands : List MCOperand)

inductive MCOperand where
  | reg (r : Register)
  | imm (value : ℤ)
  | expr (e : MCExpr)
  | inst (i : MCInst)

end

namespace MachineFunction

variable {Block : Type}

/-! ## The translation -/

/-- A number in base 16, as a literal. -/
def hexLiteral (n : ℕ) : String :=
  "0x" ++ String.ofList ((Nat.toDigits 16 n).map Char.toUpper)

/-- `APInt::toString` in base 16 for a number of 257 bits. -/
def apIntToString (isSigned : Bool) (value : ℤ) : String :=
  if isSigned then
    if value < 0 then "-" ++ hexLiteral value.natAbs else hexLiteral value.natAbs
  else hexLiteral (value % 2 ^ 257).toNat

/-- The text that `PRINTSTR_S` and `LOGSTR_S` print, of at most 15 characters. -/
def dataString : GlobalValue → String
  | .globalVariable _ initializer => String.ofList (initializer.take (min 15 (initializer.length - 1)))
  | .function name => String.ofList (name.toList.take 15)
  | .other _ => ""

def GlobalValue.name : GlobalValue → String
  | .globalVariable name _ | .function name | .other name => name

def lowerGlobal (mi : MachineInstr Block) (value : GlobalValue) (offset : ℤ) : MCExpr :=
  if mi.opcode = .PRINTSTR_S ∨ mi.opcode = .LOGSTR_S then
    match mi.operands[0]? with
    | some (MachineOperand.globalAddress value _) => .immString (dataString value)
    | _ => .immString ""
  else if offset = 0 then .symbolRef (GlobalValue.name value) false
  else .add (GlobalValue.name value) offset

section Lower

variable [DecidableEq Block] (f : MachineFunction Block)

/-- The block and the blocks that it falls through to. -/
def fallThroughChain : ℕ → Block → Option (List Block)
  | 0, _ => none
  | fuel + 1, b =>
    match f.getFallThrough b with
    | none => some [b]
    | some next => (fallThroughChain fuel next).map (b :: ·)

/-- One operand of the loop of `lower`. -/
def lowerOperand (fuel : ℕ) (lower : MachineInstr Block → Option MCInst) (mi : MachineInstr Block) :
    MachineOperand Block → Option (List MCOperand)
  | .register op => some (if op.isImplicit then [] else [.reg op.reg])
  | .imm value => some [.imm value]
  | .cimm value =>
    some [if -2 ^ 63 ≤ value ∧ value < 2 ^ 63 then .imm value
      else .expr (.immString (apIntToString (mi.opcode ≠ .CONST_U257_S) value))]
  | .mbb block => do
    let chain ← f.fallThroughChain fuel block
    let insts ← (chain.flatMap f.instrs).mapM lower
    return insts.map .inst
  | .globalAddress value offset => some [.expr (lowerGlobal mi value offset)]
  | .externalSymbol name => some [.expr (.symbolRef name true)]
  | .registerMask => some []

/-- `TVMMCInstLower::lower`. -/
def lower : ℕ → MachineInstr Block → Option MCInst
  | 0, _ => none
  | fuel + 1, mi => do
    let operands ← mi.operands.mapM (f.lowerOperand fuel (lower fuel) mi)
    return .mk mi.opcode operands.flatten

end Lower

/-! ## A block that is pushed in itself -/

theorem mapM_eq_none {α β : Type} {l : List α} {run : α → Option β} {x : α} (hx : x ∈ l)
    (h : run x = none) : l.mapM run = none := by
  induction l with
  | nil => exact absurd hx List.not_mem_nil
  | cons y l ih =>
    rw [List.mapM_cons]
    rcases List.mem_cons.mp hx with rfl | hx
    · rw [h]
      rfl
    · rw [ih hx]
      cases run y <;> rfl

theorem mem_fallThroughChain [DecidableEq Block] {f : MachineFunction Block} {fuel : ℕ} {b : Block}
    {chain : List Block} (h : f.fallThroughChain fuel b = some chain) : b ∈ chain := by
  cases fuel with
  | zero => cases h
  | succ fuel =>
    unfold fallThroughChain at h
    split at h
    · cases h
      exact List.mem_cons_self
    · obtain ⟨rest, -, rfl⟩ := Option.map_eq_some_iff.mp h
      exact List.mem_cons_self

/-- The translation of an instruction that names its own block does not end. -/
theorem lower_eq_none [DecidableEq Block] {f : MachineFunction Block} {b : Block}
    {mi : MachineInstr Block} (hmi : mi ∈ f.instrs b) (hself : .mbb b ∈ mi.operands) (fuel : ℕ) :
    f.lower fuel mi = none := by
  induction fuel with
  | zero => rfl
  | succ fuel ih =>
    have hoperand : f.lowerOperand fuel (f.lower fuel) mi (.mbb b) = none := by
      rw [lowerOperand]
      cases hchain : f.fallThroughChain fuel b with
      | none => rfl
      | some chain =>
        have hmem : mi ∈ chain.flatMap f.instrs :=
          List.mem_flatMap.mpr ⟨b, mem_fallThroughChain hchain, hmi⟩
        rw [Option.bind_eq_bind, Option.bind_some, mapM_eq_none hmem ih]
        rfl
    rw [lower, mapM_eq_none hself hoperand]
    rfl

/-! ## The recursion ends -/

/-- If each element has a result from some fuel on, so has the list. -/
theorem exists_mapM_eq_some {α β : Type} {l : List α} {run : ℕ → α → Option β} {bound : ℕ}
    (h : ∀ x ∈ l, ∃ y, ∀ fuel, bound < fuel → run fuel x = some y) :
    ∃ ys, ∀ fuel, bound < fuel → l.mapM (run fuel) = some ys := by
  induction l with
  | nil => exact ⟨[], fun _ _ => rfl⟩
  | cons x l ih =>
    obtain ⟨hx, hl⟩ := List.forall_mem_cons.mp h
    obtain ⟨y, hy⟩ := hx
    obtain ⟨ys, hys⟩ := ih hl
    exact ⟨y :: ys, fun fuel hfuel => by simp [List.mapM_cons, hy fuel hfuel, hys fuel hfuel]⟩

section Termination

variable [Fintype Block] {f : MachineFunction Block}

/-- How many blocks are at most below `b` in the dominator tree. -/
noncomputable def blocksBelow (f : MachineFunction Block) (b : Block) : ℕ :=
  Fintype.card Block - (dominators f.cfg.entry f.cfg.Succ b).card

theorem blocksBelow_lt (hreach : ∀ b, f.cfg.Reachable b) {d b : Block}
    (h : StrictlyDominates f.cfg.entry f.cfg.Succ d b) : f.blocksBelow b < f.blocksBelow d := by
  have hmore : (dominators f.cfg.entry f.cfg.Succ d).card <
      (dominators f.cfg.entry f.cfg.Succ b).card := h.card_lt (hreach b)
  have hle : (dominators f.cfg.entry f.cfg.Succ b).card ≤ Fintype.card Block :=
    Finset.card_le_univ _
  unfold blocksBelow
  omega

theorem blocksBelow_le (hreach : ∀ b, f.cfg.Reachable b) {d b : Block}
    (h : Dominates f.cfg.entry f.cfg.Succ d b) : f.blocksBelow b ≤ f.blocksBelow d := by
  by_cases hdb : d = b
  · rw [hdb]
  · exact (blocksBelow_lt hreach ⟨h, hdb⟩).le

theorem blocksBelow_le_card (f : MachineFunction Block) (b : Block) :
    f.blocksBelow b ≤ Fintype.card Block := Nat.sub_le _ _

variable [DecidableEq Block]

/-- **Fall-through ends**: a block falls through only to a block that it strictly dominates. -/
theorem fallThroughChain_spec (hreach : ∀ b, f.cfg.Reachable b)
    (hentry : f.cfg.preds f.cfg.entry = []) (b : Block) :
    ∃ chain, (∀ fuel, f.blocksBelow b < fuel → f.fallThroughChain fuel b = some chain) ∧
      ∀ c ∈ chain, Dominates f.cfg.entry f.cfg.Succ b c := by
  induction hn : f.blocksBelow b using Nat.strong_induction_on generalizing b with
  | _ n ih =>
    subst hn
    cases hnext : f.getFallThrough b with
    | none =>
      refine ⟨[b], fun fuel hfuel => ?_, List.forall_mem_singleton.mpr (dominates_refl b)⟩
      obtain ⟨fuel, rfl⟩ := Nat.exists_eq_succ_of_ne_zero (Nat.ne_zero_of_lt hfuel)
      simp [fallThroughChain, hnext]
    | some next =>
      obtain ⟨-, hpreds⟩ := getFallThrough_spec hnext
      have hne : next ≠ f.cfg.entry := by
        rintro rfl
        rw [hentry] at hpreds
        cases hpreds
      have hdom : StrictlyDominates f.cfg.entry f.cfg.Succ b next := by
        refine strictlyDominates_of_edges (hreach next) hne fun p hp => ?_
        obtain rfl : p = b := by simpa [hpreds] using (f.cfg.mem_preds p next).mpr hp
        exact dominates_refl p
      have hlt := blocksBelow_lt hreach hdom
      obtain ⟨chain, hchain, hdoms⟩ := ih _ hlt next rfl
      refine ⟨b :: chain, fun fuel hfuel => ?_, List.forall_mem_cons.mpr
        ⟨dominates_refl b, fun c hc => hdom.1.trans (hdoms c hc)⟩⟩
      obtain ⟨fuel, rfl⟩ := Nat.exists_eq_succ_of_ne_zero (Nat.ne_zero_of_lt hfuel)
      simp [fallThroughChain, hnext, hchain fuel (by omega)]

/-- **The recursion ends** where each block is pushed in a block that strictly dominates it. -/
theorem lower_spec (hnames : f.NamesByPush) (hreach : ∀ b, f.cfg.Reachable b)
    (hentry : f.cfg.preds f.cfg.entry = [])
    (hnested : ∀ b i t, f.Pushes b i t → StrictlyDominates f.cfg.entry f.cfg.Succ b t)
    {b : Block} {mi : MachineInstr Block} (hmi : mi ∈ f.instrs b) :
    ∃ out, ∀ fuel, f.blocksBelow b + 1 < fuel → f.lower fuel mi = some out := by
  induction hn : f.blocksBelow b using Nat.strong_induction_on generalizing b mi with
  | _ n ih =>
    subst hn
    have hoperand (op : MachineOperand Block) (hop : op ∈ mi.operands) :
        ∃ ops, ∀ fuel, f.blocksBelow b < fuel → f.lowerOperand fuel (f.lower fuel) mi op = some ops := by
      cases op with
      | mbb t =>
        have hdom := hnested b mi.id t ⟨mi, hmi, rfl, hnames b mi hmi t hop⟩
        have hlt := blocksBelow_lt hreach hdom
        obtain ⟨chain, hchain, hdoms⟩ := fallThroughChain_spec hreach hentry t
        -- each instruction that is written out stands in a block below `b`
        obtain ⟨insts, hinsts⟩ : ∃ insts, ∀ fuel, f.blocksBelow b < fuel →
            (chain.flatMap f.instrs).mapM (f.lower fuel) = some insts := by
          refine exists_mapM_eq_some fun i hi => ?_
          obtain ⟨c, hc, hi⟩ := List.mem_flatMap.mp hi
          have hle := blocksBelow_le hreach (hdoms c hc)
          obtain ⟨out, hout⟩ := ih _ (hle.trans_lt hlt) hi rfl
          exact ⟨out, fun fuel hfuel => hout fuel (by omega)⟩
        exact ⟨insts.map .inst, fun fuel hfuel => by
          simp [lowerOperand, hchain fuel (by omega), hinsts fuel hfuel]⟩
      | _ => exact ⟨_, fun _ _ => rfl⟩
    obtain ⟨operands, hoperands⟩ := exists_mapM_eq_some hoperand
    refine ⟨.mk mi.opcode operands.flatten, fun fuel hfuel => ?_⟩
    obtain ⟨fuel, rfl⟩ := Nat.exists_eq_succ_of_ne_zero (Nat.ne_zero_of_lt hfuel)
    simp [lower, hoperands fuel (by omega)]

/-- **Nested continuations can be written out.** Where control passes only by fall-through to a
block without another predecessor or through a terminator that uses a continuation pushed in a
dominating block, hoisting leaves continuations only in blocks that strictly dominate theirs,
and the translation of every instruction ends. The entry has no predecessor, and a continuation
that is used at all is used for an edge. -/
theorem hoist_lower (f : MachineFunction Block) (mdt : MachineDominatorTree f.cfg)
    (order : List Block) (hf : f.WellFormed) (hnames : f.NamesByPush)
    (hreach : ∀ b, f.cfg.Reachable b) (horder : order.Nodup) (hall : ∀ b, b ∈ order)
    (hentry : f.cfg.preds f.cfg.entry = [])
    (hedges : ∀ p t, t ∈ f.cfg.succs p →
      f.getFallThrough p = some t ∨ f.EdgeByContinuation p t)
    (hused : ∀ b t, ∀ mi ∈ f.instrs b, mi.target = some t → f.isUsed mi →
      ∃ p, t ∈ f.cfg.succs p ∧ f.EdgeByContinuation p t) :
    ∃ g, f.runOnMachineFunction mdt order = some g ∧
      (∀ b t, ∀ mi ∈ g.instrs b, mi.target = some t →
        StrictlyDominates f.cfg.entry f.cfg.Succ b t) ∧
      ∀ b, ∀ mi ∈ g.instrs b,
        ∃ out, ∀ fuel, Fintype.card Block + 1 < fuel → g.lower fuel mi = some out := by
  have hoccurrences (t : Block) (hne : f.occurrences t ≠ []) :
      ∃ p, t ∈ f.cfg.succs p ∧ f.EdgeByContinuation p t := by
    obtain ⟨o, ho⟩ := List.exists_mem_of_ne_nil _ hne
    obtain ⟨⟨b, mi⟩, hp, -⟩ := List.mem_map.mp ho
    obtain ⟨hmem, hcond⟩ := List.mem_filter.mp hp
    obtain ⟨ht, huse⟩ : mi.target = some t ∧ f.isUsed mi = true := by simpa using hcond
    exact hused b t mi (hf.mem_allInstrs.mp hmem) ht huse
  obtain ⟨g, hrun, ⟨hcfg, -⟩, hnested⟩ :=
    runOnMachineFunction_spec mdt hf hreach horder hall hentry hedges hoccurrences
  refine ⟨g, hrun, fun b t mi hmi ht => hnested b mi.id t ⟨mi, hmi, rfl, ht⟩, fun b mi hmi => ?_⟩
  rw [← hcfg] at hreach hentry hnested
  obtain ⟨out, hout⟩ := lower_spec (hnames.runOnMachineFunction hrun) hreach hentry hnested hmi
  have hle := g.blocksBelow_le_card b
  exact ⟨out, fun fuel hfuel => hout fuel (by omega)⟩

end Termination

/-! ## A loop -/

/-- Block `1` is a loop that falls through to block `2`. Its continuation is pushed in front of
the loop and inside of it. -/
def loopFunction : MachineFunction (Fin 3) where
  cfg :=
    { entry := 0
      succs := fun | 0 => [1] | 1 => [1, 2] | 2 => []
      preds := fun | 0 => [] | 1 => [0, 1] | 2 => [1]
      mem_preds := by decide }
  layout := [0, 1, 2]
  instrs
    | 0 => [⟨0, .PUSHCONT_MBB, [.register ⟨2 ^ 31, true, false, false, false⟩, .mbb 1, .imm 0]⟩,
      ⟨1, .JMPX, [.register ⟨2 ^ 31, false, false, true, false⟩]⟩]
    | 1 => [⟨2, .PUSHCONT_MBB, [.register ⟨2 ^ 31 + 1, true, false, false, false⟩, .mbb 1, .imm 0]⟩,
      ⟨3, .IFJMP, [.register ⟨2 ^ 31 + 2, false, false, true, false⟩,
        .register ⟨2 ^ 31 + 1, false, false, true, false⟩]⟩]
    | 2 => []
  nextId := 4
  numVirtRegs := 3

theorem loopFunction_reachable (b : Fin 3) : loopFunction.cfg.Reachable b := by
  have hone : loopFunction.cfg.Reachable 1 := Relation.ReflTransGen.single (by decide)
  match b with
  | 0 => exact Relation.ReflTransGen.refl
  | 1 => exact hone
  | 2 => exact Relation.ReflTransGen.tail hone (by decide)

theorem loopFunction_dominates (d v : Fin 3) (h : d ≤ v) :
    Dominates loopFunction.cfg.entry loopFunction.cfg.Succ d v := by
  -- the only edge into block `2` comes from block `1`
  have hedge : Dominates loopFunction.cfg.entry loopFunction.cfg.Succ 1 2 :=
    dominates_of_edges (by decide) fun u hu => by
      obtain rfl : u = 1 := (by decide : ∀ u : Fin 3, 2 ∈ loopFunction.cfg.succs u → u = 1) u hu
      exact dominates_refl 1
  match d, v, h with
  | 0, v, _ => exact dominates_entry v
  | 1, 1, _ => exact dominates_refl 1
  | 1, 2, _ => exact hedge
  | 2, 2, _ => exact dominates_refl 2

/-- Each block of the example is dominated by the ones before it. -/
def loopTree : MachineDominatorTree loopFunction.cfg where
  idom := fun | 0 => none | 1 => some 0 | 2 => some 1
  level := fun | 0 => 0 | 1 => 1 | 2 => 2
  immediate v d h := by
    have hvd : d < v ∧ ∀ c : Fin 3, c ≠ v → c ≤ d ∨ v < c := by
      revert v d
      decide
    refine ⟨⟨loopFunction_dominates d v hvd.1.le, hvd.1.ne⟩, fun c hc => ?_⟩
    rcases hvd.2 c hc.2 with hle | hlt
    · exact loopFunction_dominates c d hle
    · -- a later block does not dominate an earlier one
      exact absurd (hc.1.antisymm (loopFunction_reachable v) (loopFunction_dominates v c hlt.le)) hc.2
  root v hv := by
    clear hv
    revert v
    decide
  level_idom := by decide
  level_root := by decide

theorem hoist_lower_loop :
    ∃ g, loopFunction.runOnMachineFunction loopTree [2, 0, 1] = some g ∧
      (∀ b t, ∀ mi ∈ g.instrs b, mi.target = some t →
        StrictlyDominates loopFunction.cfg.entry loopFunction.cfg.Succ b t) ∧
      ∀ b, ∀ mi ∈ g.instrs b,
        ∃ out, ∀ fuel, Fintype.card (Fin 3) + 1 < fuel → g.lower fuel mi = some out := by
  have hcont₀ : loopFunction.EdgeByContinuation 0 1 :=
    ⟨_, List.mem_cons_of_mem _ List.mem_cons_self, rfl, 0, 2 ^ 31, ⟨_, List.mem_cons_self, rfl⟩, by decide,
      dominates_refl 0⟩
  have hcont₁ : loopFunction.EdgeByContinuation 1 1 :=
    ⟨_, List.mem_cons_of_mem _ List.mem_cons_self, rfl, 1, 2 ^ 31 + 1, ⟨_, List.mem_cons_self, rfl⟩,
      by decide, dominates_refl 1⟩
  refine hoist_lower loopFunction loopTree [2, 0, 1] ⟨by decide, by decide, by decide⟩ ?_
    loopFunction_reachable (by decide) (by decide) rfl ?_ ?_
  · unfold NamesByPush
    decide
  · intro p t ht
    match p, ht with
    | 0, ht =>
      obtain rfl : t = 1 := List.mem_singleton.mp ht
      exact Or.inr hcont₀
    | 1, ht =>
      rcases List.mem_cons.mp ht with rfl | ht
      · exact Or.inr hcont₁
      · obtain rfl : t = 2 := List.mem_singleton.mp ht
        exact Or.inl (by decide)
    | 2, ht => exact absurd ht List.not_mem_nil
  · intro b t mi hmi ht _
    obtain rfl : t = 1 := (by decide : ∀ b, ∀ t, ∀ mi ∈ loopFunction.instrs b,
      mi.target = some t → t = 1) b t mi hmi ht
    exact ⟨0, by decide, hcont₀⟩

/-! ## Where the recursion does not end -/

/-- The entry is a loop. -/
def entryLoop : MachineFunction (Fin 1) where
  cfg := ⟨0, fun _ => [0], fun _ => [0], by decide⟩
  layout := [0]
  instrs _ := [⟨0, .PUSHCONT_MBB, [.register ⟨2 ^ 31, true, false, false, false⟩, .mbb 0, .imm 0]⟩,
    ⟨1, .JMPX, [.register ⟨2 ^ 31, false, false, true, false⟩]⟩]
  nextId := 2
  numVirtRegs := 1

def entryLoopTree : MachineDominatorTree entryLoop.cfg where
  idom _ := none
  level _ := 0
  immediate _ _ h := nomatch h
  root v _ _ := Subsingleton.elim v 0
  level_idom _ _ h := nomatch h
  level_root _ _ := rfl

/-- Block `1` is entered by fall-through, and uses its own continuation for something else. -/
def selfPush : MachineFunction (Fin 2) where
  cfg := ⟨0, fun | 0 => [1] | 1 => [], fun | 0 => [] | 1 => [0], by decide⟩
  layout := [0, 1]
  instrs
    | 0 => []
    | 1 => [⟨0, .PUSHCONT_MBB, [.register ⟨2 ^ 31, true, false, false, false⟩, .mbb 1, .imm 0]⟩,
      ⟨1, .other 0 false false, [.register ⟨2 ^ 31, false, false, true, false⟩]⟩]
  nextId := 2
  numVirtRegs := 1

def selfPushTree : MachineDominatorTree selfPush.cfg where
  idom := fun | 0 => none | 1 => some 0
  level := fun | 0 => 0 | 1 => 1
  immediate v d h := by
    obtain ⟨rfl, rfl⟩ : v = 1 ∧ d = 0 := by
      revert v d
      decide
    refine ⟨⟨dominates_entry 1, by decide⟩, fun c hc => ?_⟩
    obtain rfl : c = 0 := (by decide : ∀ c : Fin 2, c ≠ 1 → c = 0) c hc.2
    exact dominates_refl 0
  root v hv := by
    clear hv
    revert v
    decide
  level_idom := by decide
  level_root := by decide

/-- Without the conditions on the entry and on the use of continuations neither result holds: in
both functions control passes as described, the pass changes nothing, the continuation of a block
is pushed in that block itself, and the translation of the push does not end. -/
theorem hoist_lower_fails :
    (entryLoop.WellFormed ∧ entryLoop.NamesByPush ∧ (∀ b, entryLoop.cfg.Reachable b) ∧
      (∀ p t, t ∈ entryLoop.cfg.succs p → entryLoop.EdgeByContinuation p t) ∧
      entryLoop.runOnMachineFunction entryLoopTree [0] = some entryLoop ∧
      entryLoop.Pushes 0 0 0 ∧
      ∀ fuel, ∀ mi ∈ entryLoop.instrs 0, mi.target = some 0 → entryLoop.lower fuel mi = none) ∧
    selfPush.WellFormed ∧ selfPush.NamesByPush ∧ (∀ b, selfPush.cfg.Reachable b) ∧
      (∀ p t, t ∈ selfPush.cfg.succs p → selfPush.getFallThrough p = some t) ∧
      selfPush.runOnMachineFunction selfPushTree [0, 1] = some selfPush ∧
      selfPush.Pushes 1 0 1 ∧
      ∀ fuel, ∀ mi ∈ selfPush.instrs 1, mi.target = some 1 → selfPush.lower fuel mi = none := by
  refine ⟨⟨⟨by decide, by decide, by decide⟩, ?_, fun b => ?_, fun p t _ => ?_, ?_,
    ⟨_, List.mem_cons_self, rfl, rfl⟩, ?_⟩, ⟨by decide, by decide, by decide⟩, ?_,
    fun b => ?_, fun p t ht => ?_, ?_, ⟨_, List.mem_cons_self, rfl, rfl⟩, ?_⟩
  · unfold NamesByPush
    decide
  · obtain rfl : b = 0 := Subsingleton.elim b 0
    exact Relation.ReflTransGen.refl
  · obtain rfl : p = 0 := Subsingleton.elim p 0
    obtain rfl : t = 0 := Subsingleton.elim t 0
    exact ⟨_, List.mem_cons_of_mem _ List.mem_cons_self, rfl, 0, 2 ^ 31, ⟨_, List.mem_cons_self, rfl⟩,
      by decide, dominates_refl 0⟩
  · rfl
  · intro fuel mi hmi ht
    refine lower_eq_none hmi ?_ fuel
    revert mi
    decide
  · unfold NamesByPush
    decide
  · match b with
    | 0 => exact Relation.ReflTransGen.refl
    | 1 => exact Relation.ReflTransGen.single (by decide)
  · revert p t
    decide
  · rfl
  · intro fuel mi hmi ht
    refine lower_eq_none hmi ?_ fuel
    revert mi
    decide

end MachineFunction

end TVMCompiler
