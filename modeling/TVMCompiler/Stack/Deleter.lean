import Mathlib.Data.List.Sort
import Mathlib.Data.List.Nodup
import TVMCompiler.Lib.Slices
import TVMCompiler.Stack.Fixup

/-!
# Deleting slots

The `Deleter` of the universal diff. It looks up one slot for each register to delete, moves
the blocks of adjacent slots to the top one after the other, and drops them together.

## Main definitions

* `delIndices`: the slots the `Deleter` selects
* `deleteBlocks`: their deletion
* `deleteVregs`: the deletion of a list of registers

## Main results

* `delIndices_spec`: the selection finds a slot of its own for each register
* `deleteBlocks_spec`: the deletion drops the selected slots and keeps the order of the others
* `deleteVregs_spec`: exactly the given registers go
* `Deleter_spec`: so they do with the changes that the `Deleter` makes
-/

namespace TVMCompiler

open Lib

/-! ## Selecting the slots -/

/-- The slot from which `Deleter` searches `v`, given the register and the slot it found
last. -/
def searchStart (last : Option (StackVreg × ℕ)) (v : StackVreg) : ℕ :=
  match last with
  | some (lastVreg, lastPos) => if v = lastVreg then lastPos + 1 else 0
  | none => 0

@[simp] theorem searchStart_self (v : StackVreg) (q : ℕ) :
    searchStart (some (v, q)) v = q + 1 := if_pos rfl

theorem searchStart_of_ne {v w : StackVreg} (q : ℕ) (h : w ≠ v) :
    searchStart (some (v, q)) w = 0 := if_neg h

/-- The loop of the constructor of `Deleter` over the registers in the order in which it pops
them. -/
def searchSlots (curStack : Stack) : Option (StackVreg × ℕ) → List StackVreg → Option (List ℕ)
  | _, [] => some []
  | last, v :: vs => do
    let lastPos ← positionFrom curStack (searchStart last v) v
    let poss ← searchSlots curStack (some (v, lastPos)) vs
    return lastPos :: poss

/-- The constructor of `Deleter`. -/
def delIndices (curStack : Stack) (delVregs : List StackVreg) : Option (List ℕ) := do
  let poss ← searchSlots curStack none delVregs.reverse
  return poss.mergeSort (· ≤ ·)

/-- Equal registers come one after the other, so each search goes on behind the slots found
before. -/
theorem searchSlots_spec (s : Stack) (last : Option (StackVreg × ℕ)) (vs : List StackVreg)
    (hsorted : vs.Pairwise (· ≥ ·)) (hlast : ∀ w p, last = some (w, p) → ∀ v ∈ vs, v ≤ w)
    (hcount : ∀ v, vs.count v ≤ (s.drop (searchStart last v)).count v) :
    ∃ poss, searchSlots s last vs = some poss ∧ poss.map (s[·]?) = vs.map some ∧ poss.Nodup ∧
      ∀ w p, last = some (w, p) → ∀ q ∈ poss, s[q]? = some w → p < q := by
  induction vs generalizing last with
  | nil => exact ⟨[], rfl, rfl, List.nodup_nil, by simp⟩
  | cons v vs ih =>
    have hmem : v ∈ s.drop (searchStart last v) := by
      rw [← List.count_pos_iff]
      exact lt_of_lt_of_le (by simp) (hcount v)
    obtain ⟨q, hq, hstart, hqv, -, hrest⟩ := positionFrom_spec hmem
    obtain ⟨hhead, htail⟩ := List.pairwise_cons.mp hsorted
    have hcount' (w : StackVreg) :
        vs.count w ≤ (s.drop (searchStart (some (v, q)) w)).count w := by
      have hw := hcount w
      by_cases hwv : w = v
      · subst w
        rw [List.count_cons_self] at hw
        rw [searchStart_self]
        omega
      · rw [List.count_cons_of_ne (Ne.symm hwv)] at hw
        rw [searchStart_of_ne q hwv, List.drop_zero]
        exact hw.trans ((List.drop_sublist _ s).count_le w)
    obtain ⟨poss, hposs, hvals, hnodup, hafter⟩ :=
      ih (some (v, q)) htail (by rintro w p ⟨⟩; exact hhead) hcount'
    refine ⟨q :: poss, by simp [searchSlots, hq, hposs], by simp [hqv, hvals], ?_, ?_⟩
    · refine List.nodup_cons.mpr ⟨fun hin => ?_, hnodup⟩
      exact lt_irrefl q (hafter v q rfl q hin hqv)
    · intro w p hwp r hr hrw
      -- a slot that holds the last register is found only while the registers stay the same
      by_cases hwv : v = w
      · subst w
        have hpq : p < q := by simpa [hwp, Nat.succ_le_iff] using hstart
        rcases List.mem_cons.mp hr with rfl | hr
        · exact hpq
        · exact hpq.trans (hafter v q rfl r hr hrw)
      · rcases List.mem_cons.mp hr with rfl | hr
        · exact absurd (Option.some.inj (hqv.symm.trans hrw)) hwv
        · have hwin : some w ∈ vs.map some := hvals ▸ List.mem_map.mpr ⟨r, hr, hrw⟩
          have hle : w ≤ v := hhead w (by simpa using hwin)
          exact absurd (le_antisymm (hlast w p hwp v (by simp)) hle) hwv

/-- **The selection finds a slot of its own for each register to delete.** -/
theorem delIndices_spec (s : Stack) (delVregs : List StackVreg)
    (hsorted : delVregs.Pairwise (· ≤ ·)) (hcount : ∀ v, delVregs.count v ≤ s.count v) :
    ∃ idx, delIndices s delVregs = some idx ∧ idx.Pairwise (· < ·) ∧
      (idx.map (s[·]?)).Perm (delVregs.map some) := by
  obtain ⟨poss, hposs, hvals, hnodup, -⟩ := searchSlots_spec s none delVregs.reverse
    (List.pairwise_reverse.mpr hsorted) (by simp) (by simpa [searchStart] using hcount)
  refine ⟨poss.mergeSort (· ≤ ·), by simp [delIndices, hposs], ?_, ?_⟩
  · have hne : (poss.mergeSort (· ≤ ·)).Nodup :=
      (List.mergeSort_perm poss _).nodup_iff.mpr hnodup
    exact (List.pairwise_mergeSort' (· ≤ ·) poss).imp₂
      (fun a b hab hne => lt_of_le_of_ne hab hne) hne
  · refine ((List.mergeSort_perm poss _).map _).trans ?_
    rw [hvals]
    exact (List.reverse_perm delVregs).map some

/-- A selected slot holds a register, so it exists. -/
theorem lt_of_mem_delIndices {s : Stack} {idx : List ℕ} {delVregs : List StackVreg}
    (hvals : (idx.map (s[·]?)).Perm (delVregs.map some)) {i : ℕ} (hi : i ∈ idx) :
    i < s.length := by
  have hmem := hvals.mem_iff.mp (List.mem_map_of_mem hi)
  obtain ⟨v, -, hv⟩ := List.mem_map.mp hmem
  exact (List.getElem?_eq_some_iff.mp hv.symm).1

/-! ## Deleting the selected slots -/

/-- The inner loop of `extractBlock`: the last index of the block, and the indices after it. -/
def extractLast (last : ℕ) : List ℕ → ℕ × List ℕ
  | [] => (last, [])
  | i :: is => if last + 1 = i then extractLast i is else (last, i :: is)

theorem extractLast_length_le (last : ℕ) (is : List ℕ) :
    (extractLast last is).2.length ≤ is.length := by
  induction is generalizing last with
  | nil => simp [extractLast]
  | cons i is ih =>
    rw [extractLast]
    split
    · exact (ih i).trans (by simp)
    · simp

variable {src : Stack}

/-- The loop of `deleteBlocks`. -/
def moveBlocks (f : Fixup src) : List ℕ → Option (Fixup src)
  | [] => some f
  | first :: is => do
    let f ← liftBlock f (1 + (extractLast first is).1 - first) first
    moveBlocks f (extractLast first is).2
termination_by is => is.length
decreasing_by exact Nat.lt_succ_of_le (extractLast_length_le first is)

/-- `Deleter::deleteBlocks`. -/
def deleteBlocks (f : Fixup src) (idx : List ℕ) : Option (Fixup src) := do
  let f ← moveBlocks f idx
  if idx.length ≠ 0 then f.emit (makeBlkdrop idx.length) else return f

/-- A block is an interval of indices, and the indices after it start behind its end. -/
theorem extractLast_spec (last : ℕ) (is : List ℕ) (h : (last :: is).Pairwise (· < ·)) :
    ∃ n, (extractLast last is).1 = last + n ∧
      is = List.range' (last + 1) n ++ (extractLast last is).2 ∧
      (extractLast last is).2.Pairwise (· < ·) ∧
      ∀ i ∈ (extractLast last is).2, last + n < i := by
  induction is generalizing last with
  | nil => exact ⟨0, by simp [extractLast]⟩
  | cons i is ih =>
    obtain ⟨hhead, htail⟩ := List.pairwise_cons.mp h
    rw [extractLast]
    split
    · rename_i hi
      subst hi
      obtain ⟨n, hlast, his, hrest, hgt⟩ := ih (last + 1) htail
      refine ⟨n + 1, by omega, ?_, hrest, fun j hj => by have := hgt j hj; omega⟩
      rw [List.range'_succ, List.cons_append, ← his]
    · exact ⟨0, rfl, rfl, htail, hhead⟩

/-- Moving the blocks brings the selected slots to the top. On the way the stack consists of
the slots `moved` so far, of the slots `kept` that were passed, and of the slots of `s` from
the next one on. -/
theorem moveBlocks_spec (s : Stack) (f : Fixup src) (is : List ℕ) (moved kept : Stack) (p : ℕ)
    (hcur : f.cur = moved ++ kept ++ s.drop p) (hp : moved.length + kept.length = p)
    (hsorted : is.Pairwise (· < ·)) (his : ∀ i ∈ is, p ≤ i ∧ i < s.length) :
    ∃ g moved' rest, moveBlocks f is = some g ∧ g.cur = moved' ++ moved ++ rest ∧
      (moved'.map some).Perm (is.map (s[·]?)) ∧ (moved' ++ rest).Perm (kept ++ s.drop p) ∧
      rest = kept ++ unselected is p (s.drop p) := by
  induction f, is using moveBlocks.induct generalizing moved kept p with
  | case1 f =>
    have hall : unselected [] p (s.drop p) = s.drop p :=
      unselected_of_forall_notMem fun i _ _ => List.not_mem_nil
    exact ⟨f, [], kept ++ s.drop p, by simp [moveBlocks], by simp [hcur], by simp, by simp,
      by rw [hall]⟩
  | case2 f first is ih =>
    obtain ⟨n, hlast, hsplit, hrest, hgt⟩ := extractLast_spec first is hsorted
    have hmem : first + n ∈ first :: is := by
      cases n with
      | zero => simp
      | succ n =>
        rw [hsplit]
        refine List.mem_cons_of_mem _ (List.mem_append_left _ ?_)
        rw [List.mem_range']
        exact ⟨n, by omega, by omega⟩
    obtain ⟨hpf, -⟩ := his first (by simp)
    obtain ⟨-, hlen⟩ := his _ hmem
    -- the block, and the slots between the next one and the block
    obtain ⟨d, rfl⟩ := Nat.exists_eq_add_of_le hpf
    set block := (s.drop (p + d)).take (n + 1) with hblock
    set passed := (s.drop p).take d with hpassed
    have hdrop : s.drop p = passed ++ block ++ s.drop (p + d + n + 1) := by
      rw [hpassed, hblock, List.append_assoc, Nat.add_assoc (p + d), ← drop_eq_take_append_drop,
        ← drop_eq_take_append_drop]
    have hblen : block.length = n + 1 := by simp [hblock]; omega
    have hplen : passed.length = d := by simp [hpassed]; omega
    have htop : (moved ++ (kept ++ passed)).length = p + d := by simp; omega
    have hcur' : f.cur = (moved ++ (kept ++ passed)) ++ block ++ s.drop (p + d + n + 1) := by
      rw [hcur, hdrop]
      simp
    obtain ⟨g, hg, hgcur⟩ := liftBlock_spec hcur'
    rw [hblen, htop] at hg
    have hidx : (p + d) :: is = List.range' (p + d) (n + 1) ++ (extractLast (p + d) is).2 := by
      rw [List.range'_succ, List.cons_append, ← hsplit]
    obtain ⟨g', moved', rest, hrun, hcur', hvals, hperm, hkept⟩ :=
      ih g (block ++ moved) (kept ++ passed) (p + d + n + 1) (by simp [hgcur])
        (by simp; omega) hrest (fun i hi => ⟨by have := hgt i hi; omega,
          (his i (by rw [hsplit]; simp [hi])).2⟩)
    refine ⟨g', moved' ++ block, rest, ?_, by simp [hcur'], ?_, ?_, ?_⟩
    · rw [moveBlocks, hlast, show 1 + (p + d + n) - (p + d) = n + 1 by omega, hg]
      exact hrun
    · rw [hidx, List.map_append, List.map_append, map_range'_getElem? s _ _ (by omega), ← hblock]
      exact (hvals.append_right _).trans List.perm_append_comm
    · rw [List.perm_iff_count] at hperm ⊢
      intro v
      have hv := hperm v
      simp only [hdrop, List.count_append] at hv ⊢
      omega
    · -- of the slots from `p` on, those in front of the block stay, and those in it go
      have hmem (i : ℕ) : i ∈ (p + d) :: is ↔
          p + d ≤ i ∧ i < p + d + n + 1 ∨ i ∈ (extractLast (p + d) is).2 := by
        rw [hidx, List.mem_append, List.mem_range'_1]
        rfl
      have hpassed_kept : unselected ((p + d) :: is) p passed = passed := by
        refine unselected_of_forall_notMem fun i hi hid hin => ?_
        rcases (hmem i).mp hin with h | h
        · omega
        · have := hgt i h
          omega
      have hblock_gone : unselected ((p + d) :: is) (p + d) block = [] := by
        refine unselected_of_forall_mem fun i hi hid => (hmem i).mpr (Or.inl ?_)
        omega
      have hrest_same (t : Stack) : unselected ((p + d) :: is) (p + d + (n + 1)) t =
          unselected (extractLast (p + d) is).2 (p + d + n + 1) t := by
        refine unselected_congr fun i hi => (hmem i).trans ?_
        constructor
        · rintro (h | h)
          · omega
          · exact h
        · exact Or.inr
      rw [hkept, hdrop, unselected_append, unselected_append, List.length_append, hplen, hblen,
        ← Nat.add_assoc p d, hpassed_kept, hblock_gone, hrest_same]
      simp

/-- **The deletion drops the selected slots and keeps the order of the others.** -/
theorem deleteBlocks_spec (f : Fixup src) (idx : List ℕ) (hsorted : idx.Pairwise (· < ·))
    (hidx : ∀ i ∈ idx, i < f.cur.length) :
    ∃ g deleted, deleteBlocks f idx = some g ∧ (deleted.map some).Perm (idx.map (f.cur[·]?)) ∧
      (deleted ++ g.cur).Perm f.cur ∧ g.cur = unselected idx 0 f.cur := by
  obtain ⟨g, deleted, rest, hg, hgcur, hvals, hperm, hkept⟩ :=
    moveBlocks_spec f.cur f idx [] [] 0 (by simp) (by simp) hsorted (by simpa using hidx)
  simp only [List.append_nil, List.nil_append, List.drop_zero] at hgcur hperm hkept
  have hlen : deleted.length = idx.length := by simpa using hvals.length_eq
  by_cases hne : idx.length = 0
  · obtain rfl : deleted = [] := List.length_eq_zero_iff.mp (hlen.trans hne)
    obtain rfl : g.cur = rest := by simpa using hgcur
    exact ⟨g, [], by simp [deleteBlocks, hg, hne], hvals, hperm, hkept⟩
  · have hdel : deleted ≠ [] := by
      rintro rfl
      exact hne (by simpa using hlen.symm)
    have happly := apply_makeBlkdrop unusedReg deleted rest hdel
    rw [← hgcur] at happly
    obtain ⟨g', hg', hcur', -⟩ := Fixup.emit_eq_some happly
    refine ⟨g', deleted, ?_, hvals, by rwa [hcur'], by rwa [hcur']⟩
    rw [deleteBlocks, hg, ← hg', hlen]
    exact if_pos hne

/-- The deletion in `StackFixup::Diff`. -/
def deleteVregs (f : Fixup src) (delVregs : List StackVreg) : Option (Fixup src) :=
  if delVregs ≠ [] then do
    let idx ← delIndices f.cur delVregs
    deleteBlocks f idx
  else some f

/-- Deleting a sorted list of registers takes exactly these away. -/
theorem deleteVregs_spec (f : Fixup src) (delVregs : List StackVreg)
    (hsorted : delVregs.Pairwise (· ≤ ·)) (hcount : ∀ v, delVregs.count v ≤ f.cur.count v) :
    ∃ g, deleteVregs f delVregs = some g ∧ (delVregs ++ g.cur).Perm f.cur ∧
      g.cur.Sublist f.cur := by
  by_cases hne : delVregs = []
  · subst hne
    exact ⟨f, rfl, List.Perm.refl _, List.Sublist.refl _⟩
  · obtain ⟨idx, hidx, hincr, hvals⟩ := delIndices_spec f.cur delVregs hsorted hcount
    have hlt (i : ℕ) (hi : i ∈ idx) : i < f.cur.length := lt_of_mem_delIndices hvals hi
    obtain ⟨g, deleted, hg, hdeleted, hperm, hkept⟩ := deleteBlocks_spec f idx hincr hlt
    have hsame : deleted.Perm delVregs :=
      (List.map_perm_map_iff (Option.some_injective _)).mp (hdeleted.trans hvals)
    refine ⟨g, ?_, (hsame.symm.append_right _).trans hperm, hkept ▸ unselected_sublist _ _ _⟩
    rw [deleteVregs, if_pos hne, hidx]
    exact hg

/-- **The `Deleter` removes exactly the slots that it selects**: as many distinct slots as there are
registers in the sorted list, holding these registers. The other slots stay, in their order. -/
theorem Deleter_spec (f : Fixup src) (delVregs : List StackVreg)
    (hsorted : delVregs.Pairwise (· ≤ ·)) (hcount : ∀ v, delVregs.count v ≤ f.cur.count v) :
    ∃ idx, delIndices f.cur delVregs = some idx ∧ idx.Nodup ∧
      (idx.map (f.cur[·]?)).Perm (delVregs.map some) ∧
      ∃ g, deleteBlocks f idx = some g ∧ g.cur = unselected idx 0 f.cur := by
  obtain ⟨idx, hidx, hincr, hvals⟩ := delIndices_spec f.cur delVregs hsorted hcount
  have hlt (i : ℕ) (hi : i ∈ idx) : i < f.cur.length := lt_of_mem_delIndices hvals hi
  obtain ⟨g, -, hg, -, -, hkept⟩ := deleteBlocks_spec f idx hincr hlt
  exact ⟨idx, hidx, hincr.imp Nat.ne_of_lt, hvals, g, hg, hkept⟩

/-- A register that is there three times goes twice. -/
theorem Deleter_spec_twice :
    ∃ idx, delIndices [1, 2, 1, 3, 1] [1, 1] = some idx ∧ idx.Nodup ∧
      (idx.map (([1, 2, 1, 3, 1] : Stack)[·]?)).Perm ([1, 1].map some) ∧
      ∃ g, deleteBlocks (Fixup.start [1, 2, 1, 3, 1]) idx = some g ∧
        g.cur = unselected idx 0 [1, 2, 1, 3, 1] :=
  Deleter_spec (Fixup.start [1, 2, 1, 3, 1]) [1, 1] (by simp) fun v =>
    ((((List.nil_sublist [3, 1]).cons_cons 1).cons 2).cons_cons 1).count_le v

end TVMCompiler
