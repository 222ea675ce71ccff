import Mathlib.Algebra.BigOperators.Intervals
import TVMCompiler.Lib.Branching

/-!
# Edits of code with branches

The edits of which the expansion of an instruction consists: a block is split, instructions are
inserted and erased, and blocks are added.

## Main definitions

* `Program.splitBasicBlock`: a block in two parts
* `Program.insertInstrs`, `Program.eraseInstr`: the instructions of a block
* `Program.addBlock`, `Program.setTerm`: a new block, and the terminator of a block
* `Program.total`: what the instructions of a program add up to
* `Edited`: a program after edits
* `SplitAt`: a block has been split, and code is in front of the second part

## Main results

* `Program.Forall.splitBasicBlock`, `Program.Forall.addBlock`: what holds after an edit
* `Edited.forall_of_forall`, `Edited.total`: what holds, and what adds up, after edits
* `SplitAt.replaces`, `replaces_of_insertInstrs`: an instruction is replaced by code with or without
  blocks of its own
-/

namespace TVMCompiler.Lib.Ssa

/-! ## The edits -/

section Edits

variable {Op Ty C V S E : Type} {M : Semantics Op C V S E} (F : Program Op Ty C)

/-- The incoming values from one block come from another one. -/
def Phi.fromBlock (old new : ℕ) (φ : Phi Ty C) : Phi Ty C :=
  { φ with incoming := φ.incoming.map fun e => if e.2 = old then (e.1, new) else e }

namespace Program

/-- The phis of the block `q` when another block is in front of the successors of `b`. -/
def phisBehind (b new q : ℕ) : List (Phi Ty C) :=
  if q ∈ (F.term b).successors then (F.block q).phis.map (Phi.fromBlock b new)
  else (F.block q).phis

/-- The instructions of `b` from the `k`-th one on become a block, which takes the place of `b` in
front of its successors. -/
def splitBasicBlock (b k : ℕ) : Program Op Ty C where
  next := F.next
  block q :=
    if q = F.nextBlock then ⟨[], (F.block b).instrs.drop k⟩
    else ⟨F.phisBehind b F.nextBlock q, if q = b then (F.block b).instrs.take k
      else (F.block q).instrs⟩
  nextBlock := F.nextBlock + 1
  term := Function.update (Function.update F.term F.nextBlock (F.term b)) b (.br F.nextBlock)

/-- Instructions in front of the `k`-th one of a block. -/
def insertInstrs (b k : ℕ) (is : List (Instr Op Ty C)) : Program Op Ty C :=
  { F with block := Function.update F.block b ⟨(F.block b).phis,
      (F.block b).instrs.take k ++ (is ++ (F.block b).instrs.drop k)⟩ }

/-- Instructions in front of the terminator of a block. -/
def appendInstrs (b : ℕ) (is : List (Instr Op Ty C)) : Program Op Ty C :=
  F.insertInstrs b (F.block b).instrs.length is

def eraseInstr (b k : ℕ) : Program Op Ty C :=
  { F with block := Function.update F.block b ⟨(F.block b).phis, (F.block b).instrs.eraseIdx k⟩ }

def setTerm (b : ℕ) (t : Terminator Ty C) : Program Op Ty C :=
  { F with term := Function.update F.term b t }

def addBlock (phis : List (Phi Ty C)) (is : List (Instr Op Ty C)) (t : Terminator Ty C) :
    Program Op Ty C where
  next := F.next
  block := Function.update F.block F.nextBlock ⟨phis, is⟩
  nextBlock := F.nextBlock + 1
  term := Function.update F.term F.nextBlock t

def addNames (n : ℕ) : Program Op Ty C := { F with next := F.next + n }

variable {F} (b k q n : ℕ) (is : List (Instr Op Ty C)) (t : Terminator Ty C)
  (phis : List (Phi Ty C))

@[simp] theorem splitBasicBlock_block :
    (F.splitBasicBlock b k).block q = if q = F.nextBlock then ⟨[], (F.block b).instrs.drop k⟩
      else ⟨F.phisBehind b F.nextBlock q, if q = b then (F.block b).instrs.take k
        else (F.block q).instrs⟩ := rfl

@[simp] theorem splitBasicBlock_term :
    (F.splitBasicBlock b k).term q = if q = b then .br F.nextBlock
      else if q = F.nextBlock then F.term b else F.term q := by
  unfold splitBasicBlock Function.update
  simp only [eq_rec_constant, dite_eq_ite]

@[simp] theorem insertInstrs_block :
    (F.insertInstrs b k is).block q = if q = b then ⟨(F.block b).phis,
      (F.block b).instrs.take k ++ (is ++ (F.block b).instrs.drop k)⟩ else F.block q := by
  unfold insertInstrs Function.update
  simp only [eq_rec_constant, dite_eq_ite]

/-- Nothing is inserted. -/
theorem insertInstrs_nil : (F.insertInstrs b k []).block = F.block := by
  funext q
  rw [insertInstrs_block]
  split_ifs with hq
  · rw [hq, List.nil_append, List.take_append_drop]
  · rfl

@[simp] theorem appendInstrs_block :
    (F.appendInstrs b is).block q =
      if q = b then ⟨(F.block b).phis, (F.block b).instrs ++ is⟩ else F.block q := by
  unfold appendInstrs
  rw [insertInstrs_block, List.take_length, List.drop_length, List.append_nil]

@[simp] theorem eraseInstr_block :
    (F.eraseInstr b k).block q =
      if q = b then ⟨(F.block b).phis, (F.block b).instrs.eraseIdx k⟩ else F.block q := by
  unfold eraseInstr Function.update
  simp only [eq_rec_constant, dite_eq_ite]

@[simp] theorem setTerm_term :
    (F.setTerm b t).term q = if q = b then t else F.term q := by
  unfold setTerm Function.update
  simp only [eq_rec_constant, dite_eq_ite]

@[simp] theorem addBlock_block :
    (F.addBlock phis is t).block q = if q = F.nextBlock then ⟨phis, is⟩ else F.block q := by
  unfold addBlock Function.update
  simp only [eq_rec_constant, dite_eq_ite]

@[simp] theorem addBlock_term :
    (F.addBlock phis is t).term q = if q = F.nextBlock then t else F.term q := by
  unfold addBlock Function.update
  simp only [eq_rec_constant, dite_eq_ite]

@[simp] theorem splitBasicBlock_nextBlock :
    (F.splitBasicBlock b k).nextBlock = F.nextBlock + 1 := rfl

@[simp] theorem splitBasicBlock_next : (F.splitBasicBlock b k).next = F.next := rfl

@[simp] theorem insertInstrs_term : (F.insertInstrs b k is).term = F.term := rfl

@[simp] theorem insertInstrs_nextBlock : (F.insertInstrs b k is).nextBlock = F.nextBlock := rfl

@[simp] theorem insertInstrs_next : (F.insertInstrs b k is).next = F.next := rfl

@[simp] theorem appendInstrs_term : (F.appendInstrs b is).term = F.term := rfl

@[simp] theorem appendInstrs_nextBlock : (F.appendInstrs b is).nextBlock = F.nextBlock := rfl

@[simp] theorem appendInstrs_next : (F.appendInstrs b is).next = F.next := rfl

@[simp] theorem eraseInstr_term : (F.eraseInstr b k).term = F.term := rfl

@[simp] theorem eraseInstr_nextBlock : (F.eraseInstr b k).nextBlock = F.nextBlock := rfl

@[simp] theorem eraseInstr_next : (F.eraseInstr b k).next = F.next := rfl

@[simp] theorem setTerm_block : (F.setTerm b t).block = F.block := rfl

@[simp] theorem setTerm_nextBlock : (F.setTerm b t).nextBlock = F.nextBlock := rfl

@[simp] theorem setTerm_next : (F.setTerm b t).next = F.next := rfl

@[simp] theorem addBlock_nextBlock : (F.addBlock phis is t).nextBlock = F.nextBlock + 1 := rfl

@[simp] theorem addBlock_next : (F.addBlock phis is t).next = F.next := rfl

@[simp] theorem addNames_block : (F.addNames n).block = F.block := rfl

@[simp] theorem addNames_term : (F.addNames n).term = F.term := rfl

@[simp] theorem addNames_nextBlock : (F.addNames n).nextBlock = F.nextBlock := rfl

@[simp] theorem addNames_next : (F.addNames n).next = F.next + n := rfl

end Program

/-! ## What holds after an edit -/

variable {F} {I : Instr Op Ty C → Prop} {P : Value Ty C → Prop} {Q : ℕ → Prop} {b k : ℕ}

namespace Program.Forall

variable (h : F.Forall I P Q)

include h

theorem splitBasicBlock (hQ : Q F.nextBlock) : (F.splitBasicBlock b k).Forall I P Q := by
  refine ⟨fun q i hi => ?_, fun q φ hφ e he => ?_, fun q v hv => ?_, fun q q' hq => ?_⟩
  · rw [splitBasicBlock_block] at hi
    split_ifs at hi with hqn hqb
    · exact h.instr b i (List.mem_of_mem_drop hi)
    · exact h.instr b i (List.mem_of_mem_take (hqb ▸ hi))
    · exact h.instr q i hi
  · rw [splitBasicBlock_block] at hφ
    by_cases hqn : q = F.nextBlock
    · rw [if_pos hqn] at hφ
      cases hφ
    · rw [if_neg hqn] at hφ
      change φ ∈ F.phisBehind b F.nextBlock q at hφ
      unfold phisBehind at hφ
      split_ifs at hφ
      · obtain ⟨ψ, hψ, rfl⟩ := List.mem_map.mp hφ
        obtain ⟨e, he', rfl⟩ := List.mem_map.mp he
        have hinc := h.incoming q ψ hψ e he'
        split_ifs
        · exact ⟨hinc.1, hQ⟩
        · exact hinc
      · exact h.incoming q φ hφ e he
  · rw [splitBasicBlock_term] at hv
    split_ifs at hv
    · cases hv
    · exact h.term b v hv
    · exact h.term q v hv
  · rw [splitBasicBlock_term] at hq
    split_ifs at hq
    · rw [List.mem_singleton.mp hq]
      exact hQ
    · exact h.successor b q' hq
    · exact h.successor q q' hq

theorem insertInstrs {is : List (Instr Op Ty C)} (his : ∀ i ∈ is, I i) :
    (F.insertInstrs b k is).Forall I P Q := by
  refine ⟨fun q i hi => ?_, fun q φ hφ e he => ?_, h.term, h.successor⟩
  · rw [insertInstrs_block] at hi
    split_ifs at hi
    · rcases List.mem_append.mp hi with hi | hi
      · exact h.instr b i (List.mem_of_mem_take hi)
      · rcases List.mem_append.mp hi with hi | hi
        · exact his i hi
        · exact h.instr b i (List.mem_of_mem_drop hi)
    · exact h.instr q i hi
  · rw [insertInstrs_block] at hφ
    split_ifs at hφ
    · exact h.incoming b φ hφ e he
    · exact h.incoming q φ hφ e he

theorem appendInstrs {is : List (Instr Op Ty C)} (his : ∀ i ∈ is, I i) :
    (F.appendInstrs b is).Forall I P Q := h.insertInstrs his

theorem eraseInstr : (F.eraseInstr b k).Forall I P Q := by
  refine ⟨fun q i hi => ?_, fun q φ hφ e he => ?_, h.term, h.successor⟩
  · rw [eraseInstr_block] at hi
    split_ifs at hi
    · exact h.instr b i (List.mem_of_mem_eraseIdx hi)
    · exact h.instr q i hi
  · rw [eraseInstr_block] at hφ
    split_ifs at hφ
    · exact h.incoming b φ hφ e he
    · exact h.incoming q φ hφ e he

theorem setTerm {t : Terminator Ty C} (ht : ∀ v ∈ t.operands, P v)
    (ht' : ∀ q ∈ t.successors, Q q) : (F.setTerm b t).Forall I P Q := by
  refine ⟨h.instr, h.incoming, fun q v hv => ?_, fun q q' hq => ?_⟩
  · rw [setTerm_term] at hv
    split_ifs at hv
    · exact ht v hv
    · exact h.term q v hv
  · rw [setTerm_term] at hq
    split_ifs at hq
    · exact ht' q' hq
    · exact h.successor q q' hq

theorem addBlock {phis : List (Phi Ty C)} {is : List (Instr Op Ty C)} {t : Terminator Ty C}
    (hphis : ∀ φ ∈ phis, ∀ e ∈ φ.incoming, P e.1 ∧ Q e.2) (his : ∀ i ∈ is, I i)
    (ht : ∀ v ∈ t.operands, P v) (ht' : ∀ q ∈ t.successors, Q q) :
    (F.addBlock phis is t).Forall I P Q := by
  refine ⟨fun q i hi => ?_, fun q φ hφ e he => ?_, fun q v hv => ?_, fun q q' hq => ?_⟩
  · rw [addBlock_block] at hi
    split_ifs at hi
    · exact his i hi
    · exact h.instr q i hi
  · rw [addBlock_block] at hφ
    split_ifs at hφ
    · exact hphis φ hφ e he
    · exact h.incoming q φ hφ e he
  · rw [addBlock_term] at hv
    split_ifs at hv
    · exact ht v hv
    · exact h.term q v hv
  · rw [addBlock_term] at hq
    split_ifs at hq
    · exact ht' q' hq
    · exact h.successor q q' hq

theorem addNames (n : ℕ) : (F.addNames n).Forall I P Q :=
  ⟨h.instr, h.incoming, h.term, h.successor⟩

end Program.Forall

/-! ## What the instructions add up to -/

section Total

variable {A : Type*} [AddCommMonoid A] (weight : Instr Op Ty C → A)

def Program.total (F : Program Op Ty C) : A :=
  ∑ q ∈ Finset.range F.nextBlock, ((F.block q).instrs.map weight).sum

variable {weight}

/-- One block has changed. -/
theorem Program.total_of_block {F F' : Program Op Ty C} (hnext : F'.nextBlock = F.nextBlock)
    (hb : b < F.nextBlock) (hother : ∀ q < F.nextBlock, q ≠ b →
      (F'.block q).instrs = (F.block q).instrs) {x y : A}
    (hweight : ((F'.block b).instrs.map weight).sum + x =
      ((F.block b).instrs.map weight).sum + y) :
    F'.total weight + x = F.total weight + y := by
  have hmem : b ∈ Finset.range F.nextBlock := Finset.mem_range.mpr hb
  -- the other blocks add up to the same
  have hrest : ∑ q ∈ (Finset.range F.nextBlock).erase b, ((F'.block q).instrs.map weight).sum =
      ∑ q ∈ (Finset.range F.nextBlock).erase b, ((F.block q).instrs.map weight).sum := by
    refine Finset.sum_congr rfl fun q hq => ?_
    obtain ⟨hqb, hq⟩ := Finset.mem_erase.mp hq
    rw [hother q (Finset.mem_range.mp hq) hqb]
  unfold Program.total
  rw [hnext, ← Finset.add_sum_erase _ _ hmem, ← Finset.add_sum_erase (Finset.range F.nextBlock)
    (fun q => ((F.block q).instrs.map weight).sum) hmem, hrest, add_right_comm, hweight,
    add_right_comm]

theorem total_splitBasicBlock (hb : b < F.nextBlock) :
    (F.splitBasicBlock b k).total weight = F.total weight := by
  -- the new block has what the old one has lost
  have hsum : ((F.block b).instrs.map weight).sum = (((F.block b).instrs.take k).map weight).sum +
      (((F.block b).instrs.drop k).map weight).sum := by
    rw [← List.sum_append, ← List.map_append, List.take_append_drop]
  have hmem : b ∈ Finset.range F.nextBlock := Finset.mem_range.mpr hb
  unfold Program.total
  rw [Program.splitBasicBlock_nextBlock, Finset.sum_range_succ,
    ← Finset.add_sum_erase _ _ hmem, ← Finset.add_sum_erase (Finset.range F.nextBlock)
    (fun q => ((F.block q).instrs.map weight).sum) hmem, hsum]
  have hrest : ∑ q ∈ (Finset.range F.nextBlock).erase b,
      (((F.splitBasicBlock b k).block q).instrs.map weight).sum =
      ∑ q ∈ (Finset.range F.nextBlock).erase b, ((F.block q).instrs.map weight).sum := by
    refine Finset.sum_congr rfl fun q hq => ?_
    obtain ⟨hqb, hq⟩ := Finset.mem_erase.mp hq
    rw [Program.splitBasicBlock_block, if_neg (Finset.mem_range.mp hq).ne]
    show ((if q = b then _ else _ : List (Instr Op Ty C)).map weight).sum = _
    rw [if_neg hqb]
  have hold : ((F.splitBasicBlock b k).block b).instrs = (F.block b).instrs.take k := by
    rw [Program.splitBasicBlock_block, if_neg hb.ne]
    exact if_pos rfl
  have hnew : ((F.splitBasicBlock b k).block F.nextBlock).instrs = (F.block b).instrs.drop k := by
    rw [Program.splitBasicBlock_block, if_pos rfl]
  rw [hrest, hold, hnew, add_right_comm]

theorem total_insertInstrs (hb : b < F.nextBlock) (is : List (Instr Op Ty C)) :
    (F.insertInstrs b k is).total weight = F.total weight + (is.map weight).sum := by
  have h : (F.insertInstrs b k is).total weight + 0 = F.total weight + (is.map weight).sum := by
    refine Program.total_of_block (Program.insertInstrs_nextBlock b k is) hb
      (fun q _ hqb => by rw [Program.insertInstrs_block, if_neg hqb]) ?_
    rw [Program.insertInstrs_block, if_pos rfl]
    conv_rhs => rw [← List.take_append_drop k (F.block b).instrs]
    simp only [List.map_append, List.sum_append, add_zero]
    rw [add_assoc, add_comm (List.sum (List.map weight is))]
  rwa [add_zero] at h

theorem total_eraseInstr (hb : b < F.nextBlock) {i : Instr Op Ty C}
    (hi : (F.block b).instrs[k]? = some i) :
    (F.eraseInstr b k).total weight + weight i = F.total weight := by
  obtain ⟨hk, rfl⟩ := List.getElem?_eq_some_iff.mp hi
  have h : (F.eraseInstr b k).total weight + weight (F.block b).instrs[k] =
      F.total weight + 0 := by
    refine Program.total_of_block (Program.eraseInstr_nextBlock b k) hb
      (fun q _ hqb => by rw [Program.eraseInstr_block, if_neg hqb]) ?_
    rw [Program.eraseInstr_block, if_pos rfl, List.eraseIdx_eq_take_drop_succ]
    conv_rhs => rw [← List.take_append_drop k (F.block b).instrs, List.drop_eq_getElem_cons hk]
    simp only [List.map_append, List.sum_append, List.map_cons, List.sum_cons, add_zero]
    rw [add_assoc, add_comm (weight _)]
  rwa [add_zero] at h

theorem total_addBlock (phis : List (Phi Ty C)) (is : List (Instr Op Ty C))
    (t : Terminator Ty C) :
    (F.addBlock phis is t).total weight = F.total weight + (is.map weight).sum := by
  unfold Program.total
  rw [Program.addBlock_nextBlock, Finset.sum_range_succ, Program.addBlock_block, if_pos rfl]
  congr 1
  refine Finset.sum_congr rfl fun q hq => ?_
  rw [Program.addBlock_block, if_neg (Finset.mem_range.mp hq).ne]

theorem total_setTerm (t : Terminator Ty C) :
    (F.setTerm b t).total weight = F.total weight := rfl

theorem total_addNames (n : ℕ) : (F.addNames n).total weight = F.total weight := rfl

end Total

/-! ## Edits one after the other -/

/-- The second program is the first one after edits. The new instructions have the property `N`, the
new values of phis and terminators have `P`, and the blocks that are named have `Q`. -/
inductive Edited (N : Instr Op Ty C → Prop) (P : Value Ty C → Prop) (Q : ℕ → Prop)
    (F : Program Op Ty C) : Program Op Ty C → Prop where
  | refl : Edited N P Q F F
  | addNames {G : Program Op Ty C} (h : Edited N P Q F G) (n : ℕ) : Edited N P Q F (G.addNames n)
  | splitBasicBlock {G : Program Op Ty C} (h : Edited N P Q F G) {b : ℕ} (hb : b < G.nextBlock)
      (hQ : Q G.nextBlock) (k : ℕ) : Edited N P Q F (G.splitBasicBlock b k)
  | insertInstrs {G : Program Op Ty C} (h : Edited N P Q F G) {b : ℕ} (hb : b < G.nextBlock) (k : ℕ)
      {is : List (Instr Op Ty C)} (his : ∀ i ∈ is, N i) : Edited N P Q F (G.insertInstrs b k is)
  | setTerm {G : Program Op Ty C} (h : Edited N P Q F G) (b : ℕ) {t : Terminator Ty C}
      (ht : ∀ v ∈ t.operands, P v) (ht' : ∀ q ∈ t.successors, Q q) :
      Edited N P Q F (G.setTerm b t)
  | addBlock {G : Program Op Ty C} (h : Edited N P Q F G) {phis : List (Phi Ty C)}
      {is : List (Instr Op Ty C)} {t : Terminator Ty C}
      (hphis : ∀ φ ∈ phis, ∀ e ∈ φ.incoming, P e.1 ∧ Q e.2) (his : ∀ i ∈ is, N i)
      (ht : ∀ v ∈ t.operands, P v) (ht' : ∀ q ∈ t.successors, Q q) :
      Edited N P Q F (G.addBlock phis is t)

namespace Edited

variable {N : Instr Op Ty C → Prop} {G : Program Op Ty C}

theorem appendInstrs (h : Edited N P Q F G) (hb : b < G.nextBlock) {is : List (Instr Op Ty C)}
    (his : ∀ i ∈ is, N i) : Edited N P Q F (G.appendInstrs b is) := h.insertInstrs hb _ his

theorem trans {H : Program Op Ty C} (h : Edited N P Q F G) (h' : Edited N P Q G H) :
    Edited N P Q F H := by
  induction h' with
  | refl => exact h
  | addNames _ n ih => exact ih.addNames n
  | splitBasicBlock _ hb hQ k ih => exact ih.splitBasicBlock hb hQ k
  | insertInstrs _ hb k his ih => exact ih.insertInstrs hb k his
  | setTerm _ b ht ht' ih => exact ih.setTerm b ht ht'
  | addBlock _ hphis his ht ht' ih => exact ih.addBlock hphis his ht ht'

/-- More names and more blocks are in use. -/
theorem le (h : Edited N P Q F G) : F.next ≤ G.next ∧ F.nextBlock ≤ G.nextBlock := by
  induction h with
  | refl => exact ⟨Nat.le_refl _, Nat.le_refl _⟩
  | addNames _ n ih => exact ⟨Nat.le_trans ih.1 (Nat.le_add_right _ _), ih.2⟩
  | splitBasicBlock _ _ _ _ ih => exact ⟨ih.1, Nat.le_trans ih.2 (Nat.le_succ _)⟩
  | insertInstrs _ _ _ _ ih => exact ih
  | setTerm _ _ _ _ ih => exact ih
  | addBlock _ _ _ _ _ ih => exact ⟨ih.1, Nat.le_trans ih.2 (Nat.le_succ _)⟩

/-- What holds of the program and of the new parts. -/
theorem forall_of_forall (h : Edited N P Q F G) (hF : F.Forall I P Q) (hN : ∀ i, N i → I i) :
    G.Forall I P Q := by
  induction h with
  | refl => exact hF
  | addNames _ n ih => exact ih.addNames n
  | splitBasicBlock _ _ hQ _ ih => exact ih.splitBasicBlock hQ
  | insertInstrs _ _ _ his ih => exact ih.insertInstrs fun i hi => hN i (his i hi)
  | setTerm _ _ ht ht' ih => exact ih.setTerm ht ht'
  | addBlock _ hphis his ht ht' ih => exact ih.addBlock hphis (fun i hi => hN i (his i hi)) ht ht'

/-- New instructions that do not count. -/
theorem total {A : Type*} [AddCommMonoid A] {weight : Instr Op Ty C → A} (h : Edited N P Q F G)
    (hN : ∀ i, N i → weight i = 0) : G.total weight = F.total weight := by
  have hsum {is : List (Instr Op Ty C)} (his : ∀ i ∈ is, N i) : (is.map weight).sum = 0 :=
    List.sum_eq_zero fun x hx => by
      obtain ⟨i, hi, rfl⟩ := List.mem_map.mp hx
      exact hN i (his i hi)
  induction h with
  | refl => rfl
  | addNames _ n ih => rw [total_addNames, ih]
  | splitBasicBlock _ hb _ _ ih => rw [total_splitBasicBlock hb, ih]
  | insertInstrs _ hb _ his ih => rw [total_insertInstrs hb, hsum his, add_zero, ih]
  | setTerm _ _ _ _ ih => rw [total_setTerm, ih]
  | addBlock _ _ his _ _ ih => rw [total_addBlock, hsum his, add_zero, ih]

end Edited

/-! ## An instruction at which a block is split -/

theorem findPhi_fromBlock (old new : ℕ) (phis : List (Phi Ty C)) (n : ℕ) :
    findPhi (phis.map (Phi.fromBlock old new)) n = (findPhi phis n).map (Phi.fromBlock old new) :=
  List.find?_map

/-- What comes from the block comes from the new one, and nothing else has changed. -/
theorem find?_fromBlock (old : ℕ) {new p : ℕ} (hp : p ≠ new) {incoming : List (Value Ty C × ℕ)}
    (hnew : ∀ e ∈ incoming, e.2 ≠ new) :
    ((incoming.map fun e => if e.2 = old then (e.1, new) else e).find?
        (·.2 = if p = old then new else p)).map Prod.fst =
      (incoming.find? (·.2 = p)).map Prod.fst := by
  induction incoming with
  | nil => rfl
  | cons e incoming ih =>
    have ih := ih fun e he => hnew e (List.mem_cons_of_mem _ he)
    have hne := hnew e List.mem_cons_self
    rw [List.map_cons, List.find?_cons, List.find?_cons]
    by_cases hpo : p = old
    · subst hpo
      by_cases he : e.2 = p
      · simp [he]
      · simpa [he, hne] using ih
    · by_cases heo : e.2 = old
      · have hep : e.2 ≠ p := fun h => hpo (h.symm.trans heo)
        have hnp : new ≠ p := fun h => hp h.symm
        have hop : old ≠ p := fun h => hpo h.symm
        simpa [heo, hpo, hep, hnp, hop] using ih
      · by_cases hep : e.2 = p
        · simp [hpo, hep]
        · simpa [heo, hpo, hep] using ih

theorem assignPhis_fromBlock (old : ℕ) {new p : ℕ} (hp : p ≠ new) {phis : List (Phi Ty C)}
    (hnew : ∀ φ ∈ phis, ∀ e ∈ φ.incoming, e.2 ≠ new) (env : ℕ → V) :
    M.assignPhis (if p = old then new else p) (phis.map (Phi.fromBlock old new)) env =
      M.assignPhis p phis env := by
  funext n
  unfold Semantics.assignPhis
  rw [findPhi_fromBlock]
  cases hfind : findPhi phis n with
  | none => rfl
  | some φ =>
    have hfst := find?_fromBlock old hp (hnew φ (List.mem_of_find?_eq_some hfind))
    show (Option.map _ ((φ.fromBlock old new).incoming.find? _)).getD _ =
      (Option.map _ (φ.incoming.find? _)).getD _
    have hvalue (o : Option (Value Ty C × ℕ)) :
        o.map (fun e => M.value env e.1) = (o.map Prod.fst).map (M.value env) := by
      cases o <;> rfl
    rw [hvalue, hvalue]
    exact congrArg (fun o => (Option.map (M.value env) o).getD M.undef) hfst

/-- A block has been split at its `k`-th instruction. Further code is at the end of its first part
and at the beginning of its second part, which is the first of the new blocks. -/
structure SplitAt (F F' : Program Op Ty C) (b k : ℕ) (code rest : List (Instr Op Ty C)) : Prop where
  phis : ∀ q < F.nextBlock, (F'.block q).phis = F.phisBehind b F.nextBlock q
  instrs : (F'.block b).instrs = (F.block b).instrs.take k ++ code
  other : ∀ q < F.nextBlock, q ≠ b →
    (F'.block q).instrs = (F.block q).instrs ∧ F'.term q = F.term q
  block : F'.block F.nextBlock = ⟨[], rest ++ (F.block b).instrs.drop k⟩
  term : F'.term F.nextBlock = F.term b

namespace SplitAt

variable {G : Program Op Ty C} {code rest : List (Instr Op Ty C)}

theorem splitBasicBlock (hb : b < F.nextBlock) (k : ℕ) :
    SplitAt F (F.splitBasicBlock b k) b k [] [] := by
  have hold {q : ℕ} (hq : q < F.nextBlock) : (F.splitBasicBlock b k).block q =
      ⟨F.phisBehind b F.nextBlock q, if q = b then (F.block b).instrs.take k
        else (F.block q).instrs⟩ := by
    rw [Program.splitBasicBlock_block, if_neg hq.ne]
  refine ⟨fun q hq => by rw [hold hq], ?_, fun q hq hqb => ⟨?_, ?_⟩, ?_, ?_⟩
  · rw [hold hb, List.append_nil]
    exact if_pos rfl
  · rw [hold hq]
    exact if_neg hqb
  · rw [Program.splitBasicBlock_term, if_neg hqb, if_neg hq.ne]
  · rw [Program.splitBasicBlock_block, if_pos rfl]
    rfl
  · rw [Program.splitBasicBlock_term, if_neg hb.ne', if_pos rfl]

variable (h : SplitAt F G b k code rest)

include h

theorem addBlock (hnext : F.nextBlock < G.nextBlock) (phis : List (Phi Ty C))
    (is : List (Instr Op Ty C)) (t : Terminator Ty C) (hb : b < F.nextBlock) :
    SplitAt F (G.addBlock phis is t) b k code rest := by
  have hblock {q : ℕ} (hq : q ≤ F.nextBlock) : (G.addBlock phis is t).block q = G.block q := by
    rw [Program.addBlock_block, if_neg (Nat.lt_of_le_of_lt hq hnext).ne]
  have hterm {q : ℕ} (hq : q ≤ F.nextBlock) : (G.addBlock phis is t).term q = G.term q := by
    rw [Program.addBlock_term, if_neg (Nat.lt_of_le_of_lt hq hnext).ne]
  refine ⟨fun q hq => ?_, ?_, fun q hq hqb => ?_, ?_, ?_⟩
  · rw [hblock hq.le, h.phis q hq]
  · rw [hblock hb.le, h.instrs]
  · rw [hblock hq.le, hterm hq.le]
    exact h.other q hq hqb
  · rw [hblock (Nat.le_refl _), h.block]
  · rw [hterm (Nat.le_refl _), h.term]

theorem appendInstrs (is : List (Instr Op Ty C)) (hb : b < F.nextBlock) :
    SplitAt F (G.appendInstrs b is) b k (code ++ is) rest := by
  refine ⟨fun q hq => ?_, ?_, fun q hq hqb => ?_, ?_, h.term⟩
  · rw [Program.appendInstrs_block]
    split_ifs with hqb
    · rw [hqb]
      exact h.phis b hb
    · exact h.phis q hq
  · rw [Program.appendInstrs_block, if_pos rfl, h.instrs, List.append_assoc]
  · rw [Program.appendInstrs_block, if_neg hqb]
    exact h.other q hq hqb
  · rw [Program.appendInstrs_block, if_neg hb.ne', h.block]

/-- Instructions at the beginning of the second part. -/
theorem insertInstrs (is : List (Instr Op Ty C)) (hb : b < F.nextBlock) :
    SplitAt F (G.insertInstrs F.nextBlock 0 is) b k code (is ++ rest) := by
  have hold {q : ℕ} (hq : q < F.nextBlock) :
      (G.insertInstrs F.nextBlock 0 is).block q = G.block q := by
    rw [Program.insertInstrs_block, if_neg hq.ne]
  refine ⟨fun q hq => ?_, ?_, fun q hq hqb => ?_, ?_, h.term⟩
  · rw [hold hq, h.phis q hq]
  · rw [hold hb, h.instrs]
  · rw [hold hq]
    exact h.other q hq hqb
  · rw [Program.insertInstrs_block, if_pos rfl, h.block, List.append_assoc]
    rfl

/-- The terminator of the first part, or of a new block behind the second one. -/
theorem setTerm {q : ℕ} (hq : q = b ∨ F.nextBlock < q) (t : Terminator Ty C)
    (hb : b < F.nextBlock) : SplitAt F (G.setTerm q t) b k code rest := by
  refine ⟨h.phis, h.instrs, fun p hp hpb => ⟨(h.other p hp hpb).1, ?_⟩, h.block, ?_⟩
  · rw [Program.setTerm_term, if_neg (by omega)]
    exact (h.other p hp hpb).2
  · rw [Program.setTerm_term, if_neg (by omega), h.term]

/-- The names and the blocks in use do not matter. -/
theorem congr {F' : Program Op Ty C} (hblock : F'.block = F.block) (hterm : F'.term = F.term)
    (hnext : F'.nextBlock = F.nextBlock) : SplitAt F' G b k code rest := by
  obtain ⟨⟨next, block⟩, nextBlock, term⟩ := F
  obtain ⟨⟨next', block'⟩, nextBlock', term'⟩ := F'
  obtain rfl : block' = block := hblock
  obtain rfl : term' = term := hterm
  obtain rfl : nextBlock' = nextBlock := hnext
  exact ⟨h.phis, h.instrs, h.other, h.block, h.term⟩

end SplitAt

/-- Code that has been inserted in front of the instruction. -/
theorem SplitAt.of_insertInstrs {F' : Program Op Ty C} {pre code rest : List (Instr Op Ty C)}
    {n : ℕ} (h : SplitAt (F.addNames n |>.insertInstrs b k pre) F' b (k + pre.length) code rest)
    (hk : k ≤ (F.block b).instrs.length) : SplitAt F F' b k (pre ++ code) rest := by
  have hlen : ((F.block b).instrs.take k ++ pre).length = k + pre.length := by
    rw [List.length_append, List.length_take, Nat.min_eq_left hk]
  have hinstrs : ((F.addNames n |>.insertInstrs b k pre).block b).instrs =
      (F.block b).instrs.take k ++ pre ++ (F.block b).instrs.drop k := by
    rw [Program.insertInstrs_block, if_pos rfl, List.append_assoc]
    rfl
  have hother {q : ℕ} (hqb : q ≠ b) :
      (F.addNames n |>.insertInstrs b k pre).block q = F.block q := by
    rw [Program.insertInstrs_block, if_neg hqb, Program.addNames_block]
  refine ⟨fun q hq => ?_, ?_, fun q hq hqb => ?_, ?_, h.term⟩
  · rw [h.phis q hq]
    unfold Program.phisBehind
    by_cases hqb : q = b
    · subst hqb
      rw [Program.insertInstrs_block, if_pos rfl]
      rfl
    · rw [hother hqb]
      rfl
  · rw [h.instrs, hinstrs, ← hlen, List.take_left', List.append_assoc]
    rfl
  · rw [(h.other q hq hqb).1, hother hqb]
    exact ⟨rfl, (h.other q hq hqb).2⟩
  · refine h.block.trans ?_
    rw [hinstrs, ← hlen, List.drop_left']
    rfl

/-- **An instruction is replaced by code of its own blocks**, behind which the block that has been
split off goes on without the instruction. -/
theorem SplitAt.replaces {call : Instr Op Ty C} {F' : Program Op Ty C}
    {code rest : List (Instr Op Ty C)} (h : SplitAt F F' b k code rest) (hscoped : F.Scoped)
    (hb : b < F.nextBlock) (hcall : (F.block b).instrs[k]? = some call)
    (hrun : ∀ env memory v memory', M.eval call.op (M.args env call) memory = some (v, memory') →
      M.event call.op (M.args env call) = none ∧
      ∃ k' env', Trace ((F'.eraseInstr F.nextBlock rest.length).step M) k' ⟨b, code, env, memory⟩ []
        ⟨F.nextBlock, (F.block b).instrs.drop (k + 1), env', memory'⟩ ∧
        ∀ n < F.next, env' n = env n) :
    Replaces M F (F'.eraseInstr F.nextBlock rest.length) b F.nextBlock call := by
  obtain ⟨hk, rfl⟩ := List.getElem?_eq_some_iff.mp hcall
  have hold {q : ℕ} (hq : q < F.nextBlock) :
      (F'.eraseInstr F.nextBlock rest.length).block q = F'.block q := by
    rw [Program.eraseInstr_block, if_neg hq.ne]
  refine ⟨hb, ⟨(F.block b).instrs.take k, code, (F.block b).instrs.drop (k + 1), ?_, ?_, hrun⟩,
    fun q hq hqb => ?_, h.term, fun p hp q hq env => ?_⟩
  · rw [← List.drop_eq_getElem_cons hk, List.take_append_drop]
  · rw [hold hb, h.instrs]
  · rw [hold hq]
    exact h.other q hq hqb
  · have hnew : ∀ φ ∈ (F.block q).phis, ∀ e ∈ φ.incoming, e.2 ≠ F.nextBlock :=
      fun φ hφ e he => Nat.ne_of_lt (hscoped.uses.incoming q φ hφ e he).2
    have hqlt := hscoped.uses.successor p q hq
    rw [hold hqlt, h.phis q hqlt, Program.phisBehind]
    -- the edges from the block come from its second part
    split_ifs with hpb hqb hqb
    · have h := assignPhis_fromBlock (M := M) b (Nat.ne_of_lt hp) hnew env
      rwa [if_pos hpb] at h
    · exact absurd (hpb ▸ hq) hqb
    · have h := assignPhis_fromBlock (M := M) b (Nat.ne_of_lt hp) hnew env
      rwa [if_neg hpb] at h
    · rfl

/-- The second part of the block without the instruction. -/
theorem SplitAt.eraseInstr_block {F' : Program Op Ty C} {code rest : List (Instr Op Ty C)}
    (h : SplitAt F F' b k code rest) :
    (F'.eraseInstr F.nextBlock rest.length).block F.nextBlock =
      ⟨[], rest ++ (F.block b).instrs.drop (k + 1)⟩ := by
  rw [Program.eraseInstr_block, if_pos rfl, h.block]
  show Block.mk [] ((rest ++ (F.block b).instrs.drop k).eraseIdx rest.length) = _
  rw [List.eraseIdx_append_of_length_le (Nat.le_refl _), Nat.sub_self, List.eraseIdx_zero,
    List.tail_drop]

/-- **An instruction is replaced by code in its place.** -/
theorem replaces_of_insertInstrs {call : Instr Op Ty C} (hb : b < F.nextBlock)
    (hcall : (F.block b).instrs[k]? = some call) {F' : Program Op Ty C}
    {code : List (Instr Op Ty C)}
    (hphis : ∀ q, (F'.block q).phis = (F.block q).phis)
    (hinstrs : (F'.block b).instrs =
      (F.block b).instrs.take k ++ (code ++ (F.block b).instrs.drop (k + 1)))
    (hother : ∀ q, q ≠ b → (F'.block q).instrs = (F.block q).instrs) (hterm : F'.term = F.term)
    (hsilent : ∀ i ∈ code, ∀ args, M.event i.op args = none)
    (hrun : ∀ env memory v memory', M.eval call.op (M.args env call) memory = some (v, memory') →
      M.event call.op (M.args env call) = none ∧
      ∃ env', M.exec code (env, memory) = some (env', memory') ∧ ∀ n < F.next, env' n = env n) :
    Replaces M F F' b b call := by
  obtain ⟨hk, rfl⟩ := List.getElem?_eq_some_iff.mp hcall
  refine ⟨hb, ⟨(F.block b).instrs.take k, code ++ (F.block b).instrs.drop (k + 1),
    (F.block b).instrs.drop (k + 1), ?_, hinstrs, fun env memory v memory' heval => ?_⟩,
    fun q _ hqb => ⟨hother q hqb, congrFun hterm q⟩, congrFun hterm b, fun p _ q _ env => ?_⟩
  · rw [← List.drop_eq_getElem_cons hk, List.take_append_drop]
  · obtain ⟨hevent, env', hexec, henv⟩ := hrun env memory v memory' heval
    exact ⟨hevent, _, env', trace_instrs hexec hsilent _, henv⟩
  · rw [hphis, ite_eq_right_iff.mpr fun h => h.symm]

end Edits

end TVMCompiler.Lib.Ssa
