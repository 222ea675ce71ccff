import TVMCompiler.Lib.SortedDifference
import TVMCompiler.Stack.Deleter
import TVMCompiler.Stack.Related
import TVMCompiler.Stack.Train

/-!
# The universal diff

`StackFixup::Diff` leads from one stack to another: unused slots of the wanted stack are
filled with registers that would be dropped, superfluous registers are deleted, missing
copies are pushed, and the slots are brought into the wanted order.

## Main definitions

* `fillUnusedRegs`: `Stack::fillUnusedRegs`
* `Diff`: `StackFixup::Diff`
* `filledDst`: the wanted stack with its unused slots filled

## Main results

* `applyAll_Diff`: the changes lead to the filled wanted stack
* `applyAll_of_Diff`: so they do wherever the diff is defined
* `Diff_spec`: the changes turn the given stack into the wanted one
-/

namespace TVMCompiler

open Lib

/-- `Stack::fillUnusedRegs`: the slots from the top on, and the registers left over. -/
def fillUnusedRegs : Stack → List StackVreg → Stack × List StackVreg
  | [], regs => ([], regs)
  | vr :: data, regs =>
    match regs.getLast? with
    | none => (vr :: data, regs)
    | some reg =>
      if vr = unusedReg then
        let (data, regs) := fillUnusedRegs data regs.dropLast
        (reg :: data, regs)
      else
        let (data, regs) := fillUnusedRegs data regs
        (vr :: data, regs)

/-- The lambda `addElem` of `StackFixup::Diff`. -/
def addElem {src : Stack} (f : Fixup src) (vreg : StackVreg) : Option (Fixup src) :=
  pushVreg f vreg

/-- `llvm::sort` of a copy of the stack. -/
def sortedRegs (s : Stack) : List StackVreg := s.mergeSort (· ≤ ·)

/-- `StackFixup::Diff`. -/
def Diff (dst src : Stack) : Option (List Change) := do
  let fromRegs := (sortedRegs src).filter (· ≠ unusedReg)
  let toRegs := (sortedRegs dst).filter (· ≠ unusedReg)
  let (unmaskedTo, delVregs) := fillUnusedRegs dst (setDifference fromRegs toRegs)
  let fromRegs := setDifference (sortedRegs src) delVregs
  let delVregs := delVregs ++ setDifference fromRegs (sortedRegs unmaskedTo)
  let rv ← deleteVregs (Fixup.start src) delVregs
  let addVregs := setDifference (sortedRegs unmaskedTo) (sortedRegs rv.cur)
  let rv ← addVregs.foldlM addElem rv
  let rv ← generateVagonXchgs rv unmaskedTo
  return optimize false rv.changes

/-! ## Filling and adding -/

/-- Filling puts registers from the end of the list into unused slots only. -/
theorem fillUnusedRegs_spec (s : Stack) (regs : List StackVreg) :
    ∃ used, regs = (fillUnusedRegs s regs).2 ++ used ∧
      ((fillUnusedRegs s regs).1 ++ List.replicate used.length unusedReg).Perm (s ++ used) ∧
      ∀ (k : ℕ) v, s[k]? = some v → v ≠ unusedReg → (fillUnusedRegs s regs).1[k]? = some v := by
  induction s generalizing regs with
  | nil => exact ⟨[], by simp [fillUnusedRegs]⟩
  | cons vr data ih =>
    rw [fillUnusedRegs]
    cases hlast : regs.getLast? with
    | none => exact ⟨[], by simp, by simp, fun _ _ hk _ => hk⟩
    | some reg =>
      obtain ⟨regs, rfl⟩ := List.getLast?_eq_some_iff.mp hlast
      by_cases hvr : vr = unusedReg
      · obtain ⟨used, hused, hperm, hslot⟩ := ih regs
        simp only [if_pos hvr, List.dropLast_concat]
        refine ⟨used ++ [reg], ?_, ?_, ?_⟩
        · rw [← List.append_assoc, ← hused]
        · rw [List.length_append, List.length_singleton, List.replicate_succ, hvr]
          refine (List.perm_middle.cons reg).trans (((hperm.cons unusedReg).cons reg).trans ?_)
          simpa using (List.perm_append_singleton reg (unusedReg :: (data ++ used))).symm
        · intro k v hk hv
          cases k with
          | zero => exact absurd (by simpa [hvr] using hk.symm) hv
          | succ k => exact hslot k v hk hv
      · obtain ⟨used, hused, hperm, hslot⟩ := ih (regs ++ [reg])
        simp only [if_neg hvr]
        refine ⟨used, hused, by simpa using hperm.cons vr, ?_⟩
        intro k v hk hv
        cases k with
        | zero => exact hk
        | succ k => exact hslot k v hk hv

/-- Registers that the stack holds are pushed one after the other. -/
theorem foldlM_addElem_spec {src : Stack} (f : Fixup src) (vs : List StackVreg)
    (h : ∀ v ∈ vs, v ≠ unusedReg → v ∈ f.cur) :
    ∃ g, vs.foldlM addElem f = some g ∧ g.cur = vs.reverse ++ f.cur := by
  induction vs generalizing f with
  | nil => exact ⟨f, rfl, rfl⟩
  | cons v vs ih =>
    obtain ⟨g, -, hg, hgcur, -⟩ := pushVreg_spec (h v (by simp))
    obtain ⟨g', hg', hgcur'⟩ := ih g fun w hw hwu => by
      rw [hgcur]
      exact List.mem_cons_of_mem v (h w (List.mem_cons_of_mem v hw) hwu)
    exact ⟨g', by simp [addElem, hg, hg'], by simp [hgcur', hgcur]⟩

/-! ## The diff is exact -/

theorem pairwise_sortedRegs (s : Stack) : (sortedRegs s).Pairwise (· ≤ ·) :=
  List.pairwise_mergeSort' (· ≤ ·) s

@[simp] theorem count_sortedRegs (s : Stack) (v : StackVreg) :
    (sortedRegs s).count v = s.count v :=
  (List.mergeSort_perm s _).count_eq v

section Counts

variable {src dst : Stack}

/-- The non-unused registers of `src` that are superfluous in `dst`. -/
theorem count_superfluous (v : StackVreg) :
    (setDifference ((sortedRegs src).filter (· ≠ unusedReg))
      ((sortedRegs dst).filter (· ≠ unusedReg))).count v =
      if v = unusedReg then 0 else src.count v - dst.count v := by
  rw [count_setDifference ((pairwise_sortedRegs src).filter _) ((pairwise_sortedRegs dst).filter _)]
  split
  · rename_i hv
    rw [List.count_eq_zero_of_not_mem (by simp [hv]), Nat.zero_sub]
  · rename_i hv
    rw [List.count_filter (by simpa using hv), List.count_filter (by simpa using hv),
      count_sortedRegs, count_sortedRegs]

/-- The registers that are deleted besides the ones left over from filling the unused
slots. -/
theorem count_setDifference_setDifference {rest : List StackVreg} (hrest : rest.Pairwise (· ≤ ·))
    (v : StackVreg) :
    (setDifference (setDifference (sortedRegs src) rest) (sortedRegs dst)).count v =
      src.count v - rest.count v - dst.count v := by
  rw [count_setDifference (pairwise_setDifference rest (pairwise_sortedRegs src))
      (pairwise_sortedRegs dst),
    count_setDifference (pairwise_sortedRegs src) hrest, count_sortedRegs, count_sortedRegs]

end Counts

/-- The wanted stack after superfluous registers have filled its unused slots. -/
def filledDst (dst src : Stack) : Stack :=
  (fillUnusedRegs dst (setDifference ((sortedRegs src).filter (· ≠ unusedReg))
    ((sortedRegs dst).filter (· ≠ unusedReg)))).1

theorem length_filledDst (dst src : Stack) : (filledDst dst src).length = dst.length := by
  obtain ⟨used, -, hfill, -⟩ := fillUnusedRegs_spec dst
    (setDifference ((sortedRegs src).filter (· ≠ unusedReg))
      ((sortedRegs dst).filter (· ≠ unusedReg)))
  simpa [filledDst] using hfill.length_eq

/-- A wanted register keeps its slot. -/
theorem getElem?_filledDst {dst : Stack} (src : Stack) {k : ℕ} {v : StackVreg}
    (hk : dst[k]? = some v) (hv : v ≠ unusedReg) : (filledDst dst src)[k]? = some v := by
  obtain ⟨-, -, -, hslot⟩ := fillUnusedRegs_spec dst
    (setDifference ((sortedRegs src).filter (· ≠ unusedReg))
      ((sortedRegs dst).filter (· ≠ unusedReg)))
  exact hslot k v hk hv

/-- The changes lead to the filled wanted stack. -/
theorem applyAll_Diff (src dst : Stack) (hne : dst ≠ [])
    (hsrc : ∀ v ∈ dst, v ≠ unusedReg → v ∈ src) :
    ∃ changes, Diff dst src = some changes ∧
      applyAll unusedReg changes src = some (filledDst dst src) := by
  obtain ⟨used, hused, hfill, -⟩ := fillUnusedRegs_spec dst
    (setDifference ((sortedRegs src).filter (· ≠ unusedReg))
      ((sortedRegs dst).filter (· ≠ unusedReg)))
  have hsuper := @count_superfluous src dst
  have hsorted := pairwise_setDifference ((sortedRegs dst).filter (· ≠ unusedReg))
    ((pairwise_sortedRegs src).filter (· ≠ unusedReg))
  set unmaskedTo := (fillUnusedRegs dst (setDifference ((sortedRegs src).filter (· ≠ unusedReg))
    ((sortedRegs dst).filter (· ≠ unusedReg)))).1 with hunmasked
  set rest := (fillUnusedRegs dst (setDifference ((sortedRegs src).filter (· ≠ unusedReg))
    ((sortedRegs dst).filter (· ≠ unusedReg)))).2 with hrest
  rw [hused] at hsuper hsorted
  have hrest_sorted : rest.Pairwise (· ≤ ·) := (List.pairwise_append.mp hsorted).1
  set extra := setDifference (setDifference (sortedRegs src) rest) (sortedRegs unmaskedTo)
    with hextra
  have hextra_count (v : StackVreg) :
      extra.count v = src.count v - rest.count v - unmaskedTo.count v :=
    count_setDifference_setDifference hrest_sorted v
  -- what the counts of a register are in the lists involved
  have hcounts (v : StackVreg) : (v = unusedReg → rest.count v = 0) ∧
      (v ≠ unusedReg → rest.count v + used.count v = src.count v - dst.count v ∧
        unmaskedTo.count v = dst.count v + used.count v) := by
    have hv := hsuper v
    have hf := hfill.count_eq v
    simp only [List.count_append, List.count_replicate] at hv hf
    constructor
    · intro h
      rw [if_pos h] at hv
      omega
    · intro h
      rw [if_neg h] at hv
      rw [if_neg (by simpa using Ne.symm h)] at hf
      omega
  have hunused (v : StackVreg) : v ≤ unusedReg := Nat.le_of_lt_succ v.isLt
  have hdel_sorted : (rest ++ extra).Pairwise (· ≤ ·) := by
    refine List.pairwise_append.mpr ⟨hrest_sorted, pairwise_setDifference _
      (pairwise_setDifference rest (pairwise_sortedRegs src)), fun v _ w hw => ?_⟩
    -- besides the registers left over, only unused slots are deleted
    suffices hwu : w = unusedReg from hwu ▸ hunused v
    by_contra hwu
    have hpos := List.count_pos_iff.mpr hw
    have := (hcounts w).2 hwu
    have := hextra_count w
    omega
  have hrest_le (v : StackVreg) : rest.count v ≤ src.count v := by
    obtain ⟨hunu, hreg⟩ := hcounts v
    by_cases hv : v = unusedReg
    · have := hunu hv
      omega
    · have := hreg hv
      omega
  have hdel_count (v : StackVreg) : (rest ++ extra).count v ≤ src.count v := by
    have := hextra_count v
    have := hrest_le v
    rw [List.count_append]
    omega
  obtain ⟨f, hf, hfperm, -⟩ :=
    deleteVregs_spec (Fixup.start src) (rest ++ extra) hdel_sorted hdel_count
  -- what is left is wanted
  have hf_count (v : StackVreg) :
      f.cur.count v = min (src.count v - rest.count v) (unmaskedTo.count v) := by
    have hv : (rest ++ extra ++ f.cur).count v = src.count v := hfperm.count_eq v
    have := hextra_count v
    have := hrest_le v
    rw [List.count_append, List.count_append] at hv
    omega
  -- each copy to push is a copy of a register that is still there
  have hadd (v : StackVreg) : (setDifference (sortedRegs unmaskedTo) (sortedRegs f.cur)).count v =
      unmaskedTo.count v - f.cur.count v := by
    rw [count_setDifference (pairwise_sortedRegs _) (pairwise_sortedRegs _), count_sortedRegs,
      count_sortedRegs]
  have hadd_mem : ∀ v ∈ setDifference (sortedRegs unmaskedTo) (sortedRegs f.cur),
      v ≠ unusedReg → v ∈ f.cur := by
    intro v hv hvu
    have hpos := List.count_pos_iff.mpr hv
    have := hadd v
    have := hf_count v
    have := (hcounts v).2 hvu
    rw [← List.count_pos_iff]
    by_cases hvdst : v ∈ dst
    · have := List.count_pos_iff.mpr (hsrc v hvdst hvu)
      have := List.count_pos_iff.mpr hvdst
      omega
    · have := List.count_eq_zero_of_not_mem hvdst
      omega
  obtain ⟨g, hg, hgcur⟩ := foldlM_addElem_spec f _ hadd_mem
  have hperm : g.cur.Perm unmaskedTo := by
    rw [List.perm_iff_count]
    intro v
    have := hadd v
    have := hf_count v
    rw [hgcur, List.count_append, List.count_reverse]
    omega
  have hto_ne : unmaskedTo ≠ [] := by
    rw [← List.length_pos_iff]
    exact (length_filledDst dst src).trans_gt (List.length_pos_iff.mpr hne)
  obtain ⟨g', hg', hgcur'⟩ := generateVagonXchgs_spec hperm hto_ne
  refine ⟨optimize false g'.changes, ?_,
    (applyAll_optimize_false unusedReg g'.run_eq).trans (by rw [hgcur']; rfl)⟩
  simp only [Diff, ← hunmasked, ← hrest, ← hextra, hf, hg, hg', Option.bind_eq_bind,
    Option.bind_some]
  rfl

/-- Below the top `n` slots a register is wanted there, or superfluous. -/
theorem count_drop_fillUnusedRegs (v : StackVreg) (s : Stack) (regs : List StackVreg) (n : ℕ) :
    ((fillUnusedRegs s regs).1.drop n).count v ≤ (s.drop n).count v + regs.count v := by
  induction s generalizing regs n with
  | nil => simp [fillUnusedRegs]
  | cons vr data ih =>
    rw [fillUnusedRegs]
    cases hlast : regs.getLast? with
    | none => exact Nat.le_add_right _ _
    | some reg =>
      obtain ⟨regs, rfl⟩ := List.getLast?_eq_some_iff.mp hlast
      simp only [List.dropLast_concat]
      cases n with
      | zero =>
        by_cases hvr : vr = unusedReg
        · have := ih regs 0
          simp only [List.drop_zero, if_pos hvr, List.count_cons, List.count_append,
            List.count_nil] at this ⊢
          omega
        · have := ih (regs ++ [reg]) 0
          simp only [List.drop_zero, if_neg hvr, List.count_cons] at this ⊢
          omega
      | succ n =>
        by_cases hvr : vr = unusedReg
        · have := ih regs n
          simp only [if_pos hvr, List.drop_succ_cons, List.count_append] at this ⊢
          omega
        · simpa only [if_neg hvr, List.drop_succ_cons] using ih (regs ++ [reg]) n

/-- Below the top `n` slots of the filled wanted stack a register is wanted there, or superfluous
in the given stack. -/
theorem count_drop_filledDst (dst src : Stack) {v : StackVreg} (hv : v ≠ unusedReg) (n : ℕ) :
    ((filledDst dst src).drop n).count v ≤
      (dst.drop n).count v + (src.count v - dst.count v) := by
  have hle := count_drop_fillUnusedRegs v dst (setDifference
    ((sortedRegs src).filter (· ≠ unusedReg)) ((sortedRegs dst).filter (· ≠ unusedReg))) n
  rwa [count_superfluous, if_neg hv] at hle

/-! ## Where the diff is defined -/

section Defined

variable {dst src : Stack} {changes : List Change}

theorem mem_of_pushVreg {f g : Fixup src} {v : StackVreg} (hv : v ≠ unusedReg)
    (h : pushVreg f v = some g) : v ∈ src := by
  rw [pushVreg, if_neg hv] at h
  obtain ⟨i, hi, -⟩ := Option.bind_eq_some_iff.mp h
  obtain ⟨hlt, hget, -⟩ := List.idxOf?_eq_some_iff.mp hi
  have hmem : v ∈ f.cur := by
    rw [← hget]
    exact List.getElem_mem hlt
  have hfrom := forall_mem_of_applyAll (P := fun v => v = unusedReg ∨ v ∈ src) (Or.inl rfl)
    (fun v hv => Or.inr hv) f.run_eq v hmem
  exact hfrom.resolve_left hv

theorem mem_of_foldlM_addElem {f g : Fixup src} {vs : List StackVreg} (h : vs.foldlM addElem f = some g) :
    ∀ v ∈ vs, v ≠ unusedReg → v ∈ src := by
  induction vs generalizing f with
  | nil => simp
  | cons w vs ih =>
    rw [List.foldlM_cons] at h
    obtain ⟨f', hf', h⟩ := Option.bind_eq_some_iff.mp h
    intro v hv hne
    rcases List.mem_cons.mp hv with rfl | hv
    · exact mem_of_pushVreg hne hf'
    · exact ih h v hv hne

/-- The diff is defined only for a stack that is not empty and wants registers of the given one. -/
theorem Diff_defined (h : Diff dst src = some changes) :
    dst ≠ [] ∧ ∀ v ∈ dst, v ≠ unusedReg → v ∈ src := by
  simp only [Diff, Option.bind_eq_bind, Option.bind_eq_some_iff] at h
  obtain ⟨f, -, g, hg, g', hg', -⟩ := h
  constructor
  · rintro rfl
    simp [fillUnusedRegs, generateVagonXchgs_nil] at hg'
  · intro v hv hne
    by_contra hnot
    refine hnot (mem_of_foldlM_addElem hg v (List.count_pos_iff.mp ?_) hne)
    -- what is wanted and absent is among the copies to push
    have hcur : f.cur.count v = 0 := by
      refine List.count_eq_zero_of_not_mem fun hmem => hnot ?_
      have hfrom := forall_mem_of_applyAll (P := fun v => v = unusedReg ∨ v ∈ src) (Or.inl rfl)
        (fun v hv => Or.inr hv) f.run_eq v hmem
      exact hfrom.resolve_left hne
    have hwanted : v ∈ filledDst dst src := by
      obtain ⟨k, hk⟩ := List.mem_iff_getElem?.mp hv
      exact List.mem_of_getElem? (getElem?_filledDst src hk hne)
    rw [count_setDifference (pairwise_sortedRegs _) (pairwise_sortedRegs _), count_sortedRegs,
      count_sortedRegs, hcur, Nat.sub_zero]
    exact List.count_pos_iff.mpr hwanted

theorem applyAll_of_Diff (h : Diff dst src = some changes) :
    applyAll unusedReg changes src = some (filledDst dst src) := by
  obtain ⟨hne, hsrc⟩ := Diff_defined h
  obtain ⟨changes', h', hrun⟩ := applyAll_Diff src dst hne hsrc
  obtain rfl := Option.some.inj (h.symm.trans h')
  exact hrun

end Defined

/-- **The diff is exact**: its changes turn the given stack into one that has as many slots as
the wanted one and holds the wanted register wherever one is wanted. -/
theorem Diff_spec (src dst : Stack) (hne : dst ≠ [])
    (hsrc : ∀ v ∈ dst, v ≠ unusedReg → v ∈ src) :
    ∃ changes r, Diff dst src = some changes ∧ applyAll unusedReg changes src = some r ∧
      r.length = dst.length ∧
      ∀ (k : ℕ) v, dst[k]? = some v → v ≠ unusedReg → r[k]? = some v := by
  obtain ⟨changes, hchanges, hrun⟩ := applyAll_Diff src dst hne hsrc
  exact ⟨changes, _, hchanges, hrun, length_filledDst dst src,
    fun _ _ hk hv => getElem?_filledDst src hk hv⟩

/-- A stack with repeated and unused slots on both sides. -/
theorem Diff_spec_example :
    ∃ changes r, Diff [3, unusedReg, 1, 1] [1, 2, unusedReg, 3, 3] = some changes ∧
      applyAll unusedReg changes [1, 2, unusedReg, 3, 3] = some r ∧ r.length = 4 ∧
      ∀ (k : ℕ) v, ([3, unusedReg, 1, 1] : Stack)[k]? = some v → v ≠ unusedReg → r[k]? = some v :=
  Diff_spec [1, 2, unusedReg, 3, 3] [3, unusedReg, 1, 1] (by simp) (by simp)

end TVMCompiler
