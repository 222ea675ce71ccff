import Mathlib.Data.Option.Basic
import TVMCompiler.Stack.Change

/-!
# The same fixup on two stacks

A change moves and copies slots without looking at what they hold, and it touches none below
those it accesses. So a fixup computed on the model stack does the same to the stack of the
machine, which holds values instead of registers and has further slots below.

## Main results

* `applyAll_map`: renaming the slots commutes with a fixup
* `applyAll_related`: a fixup keeps a relation between the slots of two stacks
* `applyAll_append_below`: the slots below the stack stay
-/

namespace TVMCompiler

variable {α β : Type}

theorem guard_pos {p : Prop} [Decidable p] (h : p) : (guard p : Option Unit) = some () :=
  if_pos h

theorem guard_neg {p : Prop} [Decidable p] (h : ¬p) : (guard p : Option Unit) = none :=
  if_neg h

theorem guard_bind_eq_some {p : Prop} [Decidable p] {x : Option α} {y : α} :
    ((guard p : Option Unit).bind fun _ => x) = some y ↔ p ∧ x = some y := by
  by_cases h : p
  · rw [guard_pos h]
    exact (and_iff_right h).symm
  · rw [guard_neg h]
    simp [h]

/-! ## Renaming the slots -/

section Map

variable (f : α → β)

theorem swapAt_map (s : List α) (i j : ℕ) :
    swapAt (s.map f) i j = (swapAt s i j).map (List.map f) := by
  unfold swapAt
  rw [List.getElem?_map, List.getElem?_map]
  cases s[i]? with
  | none => rfl
  | some x =>
    cases s[j]? with
    | none => rfl
    | some y => simp [List.map_set]

theorem pushAt_map (s : List α) (i : ℕ) :
    pushAt (s.map f) i = (pushAt s i).map (List.map f) := by
  unfold pushAt
  rw [List.getElem?_map]
  cases s[i]? <;> rfl

theorem popTo_map (s : List α) (i : ℕ) :
    popTo (s.map f) i = (popTo s i).map (List.map f) := by
  unfold popTo
  rw [List.getElem?_map, List.length_map]
  cases s[0]? with
  | none => rfl
  | some x =>
    by_cases hi : i < s.length
    · simp [guard_pos hi, List.map_set, List.map_tail]
    · simp [guard_neg hi]

theorem rollBy_map (s : List α) (i : ℤ) :
    rollBy (s.map f) i = (rollBy s i).map (List.map f) := by
  unfold rollBy
  rw [List.length_map, List.getElem?_map, List.head?_map]
  by_cases hlt : i.natAbs < s.length
  · by_cases hpos : 0 < i
    · cases s[i.natAbs]? <;> simp [guard_pos hlt, hpos, List.eraseIdx_map]
    · cases s.head? <;> simp [guard_pos hlt, hpos, List.map_tail, List.map_insertIdx]
  · simp [guard_neg hlt]

theorem Step.apply_map (st : Step) (s : List α) :
    st.apply (s.map f) = (st.apply s).map (List.map f) := by
  cases st with
  | xchg i j => exact swapAt_map f s i j
  | push i => exact pushAt_map f s i

theorem runSteps_map (steps : List Step) (s : List α) :
    runSteps steps (s.map f) = (runSteps steps s).map (List.map f) := by
  induction steps generalizing s with
  | nil => rfl
  | cons st sts ih =>
    simp only [runSteps, List.foldlM_cons, Step.apply_map] at ih ⊢
    cases st.apply s with
    | none => rfl
    | some t => exact ih t

theorem Change.apply_map (undef : α) (c : Change) (s : List α) :
    c.apply (f undef) (s.map f) = (c.apply undef s).map (List.map f) := by
  cases c with
  | pop i => exact popTo_map f s i
  | xchgTop i => exact swapAt_map f s 0 i
  | xchg i j => exact swapAt_map f s i j
  | pushI i => exact pushAt_map f s i
  | pushHidden i reg => rfl
  | pushUndef => rfl
  | blkswap deepSz topSz =>
    by_cases h : deepSz + topSz ≤ s.length
    · simp [Change.apply, blockSwap, guard_pos h, List.map_take, List.map_drop]
    · simp [Change.apply, blockSwap, guard_neg h]
  | blkdrop sz =>
    by_cases h : sz ≤ s.length
    · simp [Change.apply, dropTop, guard_pos h, List.map_drop]
    · simp [Change.apply, dropTop, guard_neg h]
  | roll i => exact rollBy_map f s i
  | reverse deepSz topIdx =>
    by_cases h : topIdx + deepSz ≤ s.length
    · simp [Change.apply, reverseBlock, guard_pos h, List.map_take, List.map_drop]
    · simp [Change.apply, reverseBlock, guard_neg h]
  | doubleChange p₀ p₁ i j =>
    by_cases h : i < s.length ∧ j < s.length
    · simpa [Change.apply, guard_pos h] using runSteps_map f (doubleSteps p₀ p₁ i j) s
    · simp [Change.apply, guard_neg h]
  | tripleChange p₀ p₁ p₂ i j k =>
    by_cases h : i < s.length ∧ j < s.length ∧ k < s.length
    · simpa [Change.apply, guard_pos h] using runSteps_map f (tripleSteps p₀ p₁ p₂ i j k) s
    · simp [Change.apply, guard_neg h]

/-- **Renaming the slots commutes with a fixup.** -/
theorem applyAll_map (undef : α) (changes : List Change) (s : List α) :
    applyAll (f undef) changes (s.map f) = (applyAll undef changes s).map (List.map f) := by
  induction changes generalizing s with
  | nil => rfl
  | cons c cs ih =>
    rw [applyAll_cons, applyAll_cons, Change.apply_map]
    cases c.apply undef s with
    | none => rfl
    | some t => exact ih t

end Map

/-! ## Related stacks -/

/-- A fixup keeps what holds of every slot. -/
theorem forall_mem_of_applyAll {P : α → Prop} {undef : α} {changes : List Change} {s r : List α}
    (hundef : P undef) (hs : ∀ v ∈ s, P v) (h : applyAll undef changes s = some r) :
    ∀ v ∈ r, P v := by
  obtain ⟨s, rfl⟩ : ∃ z : List {v // P v}, z.map Subtype.val = s :=
    ⟨s.attachWith P hs, List.attachWith_map_subtype_val hs⟩
  have hmap := applyAll_map Subtype.val (⟨undef, hundef⟩ : {v // P v}) changes s
  rw [h] at hmap
  obtain ⟨r, -, rfl⟩ := Option.map_eq_some_iff.mp hmap.symm
  intro v hv
  obtain ⟨w, -, rfl⟩ := List.mem_map.mp hv
  exact w.property

/-- Related lists are the two sides of a list of related pairs. -/
theorem exists_pairs {R : α → β → Prop} {s : List α} {t : List β} (h : List.Forall₂ R s t) :
    ∃ z : List {p : α × β // R p.1 p.2}, z.map (·.1.1) = s ∧ z.map (·.1.2) = t := by
  induction h with
  | nil => exact ⟨[], rfl, rfl⟩
  | @cons a b s t hab hst ih =>
    obtain ⟨z, rfl, rfl⟩ := ih
    exact ⟨⟨(a, b), hab⟩ :: z, rfl, rfl⟩

theorem forall₂_pairs {R : α → β → Prop} (z : List {p : α × β // R p.1 p.2}) :
    List.Forall₂ R (z.map (·.1.1)) (z.map (·.1.2)) := by
  induction z with
  | nil => exact List.Forall₂.nil
  | cons p z ih => exact List.Forall₂.cons p.2 ih

/-- **A fixup keeps a relation between the slots of two stacks.** -/
theorem applyAll_related {R : α → β → Prop} {u : α} {w : β} (huw : R u w) {changes : List Change}
    {s s' : List α} {t : List β} (hst : List.Forall₂ R s t)
    (hrun : applyAll u changes s = some s') :
    ∃ t', applyAll w changes t = some t' ∧ List.Forall₂ R s' t' := by
  obtain ⟨z, rfl, rfl⟩ := exists_pairs hst
  -- the fixup runs on the pairs, and each side is a renaming of them
  have hleft := applyAll_map (fun p : {p : α × β // R p.1 p.2} => p.1.1) ⟨(u, w), huw⟩ changes z
  have hright := applyAll_map (fun p : {p : α × β // R p.1 p.2} => p.1.2) ⟨(u, w), huw⟩ changes z
  rw [hrun] at hleft
  obtain ⟨z', hz', rfl⟩ := Option.map_eq_some_iff.mp hleft.symm
  exact ⟨z'.map (·.1.2), by rw [hright, hz']; rfl, forall₂_pairs z'⟩

/-! ## Slots below the stack -/

section Below

theorem getElem?_append_of_some {s t : List α} {i : ℕ} {x : α} (h : s[i]? = some x) :
    (s ++ t)[i]? = some x := by
  rw [List.getElem?_append_left (List.getElem?_eq_some_iff.mp h).1, h]

theorem swapAt_append {s s' : List α} {i j : ℕ} (t : List α) (h : swapAt s i j = some s') :
    swapAt (s ++ t) i j = some (s' ++ t) := by
  simp only [swapAt, Option.bind_eq_bind, Option.bind_eq_some_iff] at h
  obtain ⟨x, hx, y, hy, h⟩ := h
  obtain rfl : (s.set i y).set j x = s' := by simpa using h
  have hi := (List.getElem?_eq_some_iff.mp hx).1
  have hj := (List.getElem?_eq_some_iff.mp hy).1
  rw [swapAt_eq (getElem?_append_of_some hx) (getElem?_append_of_some hy),
    List.set_append_left _ _ hi, List.set_append_left _ _ (by simpa using hj)]

theorem pushAt_append {s s' : List α} {i : ℕ} (t : List α) (h : pushAt s i = some s') :
    pushAt (s ++ t) i = some (s' ++ t) := by
  simp only [pushAt, Option.bind_eq_bind, Option.bind_eq_some_iff] at h
  obtain ⟨x, hx, h⟩ := h
  obtain rfl : x :: s = s' := by simpa using h
  simp [pushAt, getElem?_append_of_some hx]

theorem popTo_eq_some {s s' : List α} {i : ℕ} :
    popTo s i = some s' ↔ ∃ x, s[0]? = some x ∧ i < s.length ∧ (s.set i x).tail = s' := by
  simp only [popTo, Option.bind_eq_bind]
  rw [Option.bind_eq_some_iff]
  simp only [guard_bind_eq_some, Option.pure_def, Option.some.injEq]

theorem popTo_append {s s' : List α} {i : ℕ} (t : List α) (h : popTo s i = some s') :
    popTo (s ++ t) i = some (s' ++ t) := by
  obtain ⟨x, hx, hi, rfl⟩ := popTo_eq_some.mp h
  refine popTo_eq_some.mpr ⟨x, getElem?_append_of_some hx, ?_, ?_⟩
  · rw [List.length_append]
    exact Nat.lt_add_right _ hi
  · have hset : s.set i x ≠ [] := by
      rw [← List.length_pos_iff, List.length_set]
      exact Nat.zero_lt_of_lt hi
    rw [List.set_append_left _ _ hi, List.tail_append_of_ne_nil hset]

theorem insertIdx_append_below {s : List α} {i : ℕ} (x : α) (t : List α) (h : i ≤ s.length) :
    (s ++ t).insertIdx i x = s.insertIdx i x ++ t := by
  induction i generalizing s with
  | zero => rfl
  | succ i ih =>
    cases s with
    | nil => simp at h
    | cons y s => simpa using ih (Nat.le_of_succ_le_succ h)

theorem rollBy_append_below {s s' : List α} {i : ℤ} (t : List α) (h : rollBy s i = some s') :
    rollBy (s ++ t) i = some (s' ++ t) := by
  simp only [rollBy, Option.bind_eq_bind, guard_bind_eq_some] at h ⊢
  obtain ⟨hlt, h⟩ := h
  refine ⟨?_, ?_⟩
  · rw [List.length_append]
    exact Nat.lt_add_right _ hlt
  by_cases hpos : 0 < i
  · rw [if_pos hpos] at h ⊢
    have hdeep := List.getElem?_eq_getElem hlt
    rw [hdeep] at h
    obtain rfl : s[i.natAbs] :: s.eraseIdx i.natAbs = s' := Option.some.inj h
    rw [getElem?_append_of_some hdeep, List.eraseIdx_append_of_lt_length hlt]
    rfl
  · rw [if_neg hpos] at h ⊢
    cases s with
    | nil => simp at hlt
    | cons x s =>
      obtain rfl : s.insertIdx i.natAbs x = s' := Option.some.inj h
      rw [← insertIdx_append_below x t (Nat.lt_succ_iff.mp hlt)]
      rfl

theorem runSteps_append {steps : List Step} {s s' : List α} (t : List α)
    (h : runSteps steps s = some s') : runSteps steps (s ++ t) = some (s' ++ t) := by
  induction steps generalizing s with
  | nil =>
    obtain rfl : s = s' := by simpa [runSteps] using h
    rfl
  | cons st sts ih =>
    simp only [runSteps, List.foldlM_cons, Option.bind_eq_bind, Option.bind_eq_some_iff] at h ih ⊢
    obtain ⟨r, hr, h⟩ := h
    refine ⟨r ++ t, ?_, ih h⟩
    cases st with
    | xchg i j => exact swapAt_append t hr
    | push i => exact pushAt_append t hr

theorem take_append_below {s : List α} {n : ℕ} (t : List α) (h : n ≤ s.length) :
    (s ++ t).take n = s.take n :=
  List.take_append_of_le_length h

theorem drop_append_below {s : List α} {n : ℕ} (t : List α) (h : n ≤ s.length) :
    (s ++ t).drop n = s.drop n ++ t :=
  List.drop_append_of_le_length h

theorem Change.apply_append {undef : α} {c : Change} {s s' : List α} (t : List α)
    (h : c.apply undef s = some s') : c.apply undef (s ++ t) = some (s' ++ t) := by
  cases c with
  | pop i => exact popTo_append t h
  | xchgTop i => exact swapAt_append t h
  | xchg i j => exact swapAt_append t h
  | pushI i => exact pushAt_append t h
  | pushHidden i reg =>
    obtain rfl : s = s' := by simpa [Change.apply] using h
    rfl
  | pushUndef =>
    obtain rfl : undef :: s = s' := by simpa [Change.apply] using h
    rfl
  | blkswap deepSz topSz =>
    by_cases hle : deepSz + topSz ≤ s.length
    · obtain rfl : (s.drop topSz).take deepSz ++ (s.take topSz ++ s.drop (topSz + deepSz)) = s' := by
        simpa [Change.apply, blockSwap, guard_pos hle] using h
      have hle' : deepSz + topSz ≤ (s ++ t).length := by
        rw [List.length_append]
        exact Nat.le_add_right_of_le hle
      have htake : deepSz ≤ (s.drop topSz).length := by
        rw [List.length_drop]
        omega
      simp only [Change.apply, blockSwap, guard_pos hle']
      rw [drop_append_below t (by omega), drop_append_below t (by omega),
        take_append_below t htake, take_append_below t (by omega)]
      simp
    · simp [Change.apply, blockSwap, guard_neg hle] at h
  | blkdrop sz =>
    by_cases hle : sz ≤ s.length
    · obtain rfl : s.drop sz = s' := by simpa [Change.apply, dropTop, guard_pos hle] using h
      have hle' : sz ≤ (s ++ t).length := by
        rw [List.length_append]
        exact Nat.le_add_right_of_le hle
      simp only [Change.apply, dropTop, guard_pos hle']
      rw [drop_append_below t hle]
      rfl
    · simp [Change.apply, dropTop, guard_neg hle] at h
  | roll i => exact rollBy_append_below t h
  | reverse deepSz topIdx =>
    by_cases hle : topIdx + deepSz ≤ s.length
    · obtain rfl : s.take topIdx ++ (((s.drop topIdx).take deepSz).reverse ++
          s.drop (topIdx + deepSz)) = s' := by
        simpa [Change.apply, reverseBlock, guard_pos hle] using h
      have hle' : topIdx + deepSz ≤ (s ++ t).length := by
        rw [List.length_append]
        exact Nat.le_add_right_of_le hle
      have htake : deepSz ≤ (s.drop topIdx).length := by
        rw [List.length_drop]
        omega
      simp only [Change.apply, reverseBlock, guard_pos hle']
      rw [drop_append_below t (by omega), drop_append_below t (by omega),
        take_append_below t (by omega), take_append_below t htake]
      simp
    · simp [Change.apply, reverseBlock, guard_neg hle] at h
  | doubleChange p₀ p₁ i j =>
    by_cases hlt : i < s.length ∧ j < s.length
    · have hlt' : i < (s ++ t).length ∧ j < (s ++ t).length := by
        rw [List.length_append]
        omega
      simp only [Change.apply, guard_pos hlt] at h
      simp only [Change.apply, guard_pos hlt']
      exact runSteps_append t h
    · simp [Change.apply, guard_neg hlt] at h
  | tripleChange p₀ p₁ p₂ i j k =>
    by_cases hlt : i < s.length ∧ j < s.length ∧ k < s.length
    · have hlt' : i < (s ++ t).length ∧ j < (s ++ t).length ∧ k < (s ++ t).length := by
        rw [List.length_append]
        omega
      simp only [Change.apply, guard_pos hlt] at h
      simp only [Change.apply, guard_pos hlt']
      exact runSteps_append t h
    · simp [Change.apply, guard_neg hlt] at h

/-- **A fixup leaves the slots below the stack as they are.** -/
theorem applyAll_append_below {undef : α} {changes : List Change} {s s' : List α} (t : List α)
    (h : applyAll undef changes s = some s') :
    applyAll undef changes (s ++ t) = some (s' ++ t) := by
  induction changes generalizing s with
  | nil =>
    obtain rfl : s = s' := by simpa using h
    rfl
  | cons c cs ih =>
    rw [applyAll_cons, Option.bind_eq_some_iff] at h ⊢
    obtain ⟨r, hr, h⟩ := h
    exact ⟨r ++ t, Change.apply_append t hr, ih h⟩

end Below

end TVMCompiler
