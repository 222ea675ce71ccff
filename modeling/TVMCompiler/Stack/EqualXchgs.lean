import Mathlib.Data.List.Chain
import Mathlib.Logic.Function.Iterate
import Mathlib.Algebra.Group.Nat.Defs
import TVMCompiler.Stack.Fixup

/-!
# The loop of `optimizeEqualXchgs`

The source moves an iterator over the changes. Where the change before the iterator and the one
behind it are equal exchanges with the top, it erases both and sets the iterator to the place where
they stood. `optimizeLoop` is the same loop with the changes split at the iterator.

## Main definitions

* `XchgScan`, `XchgScan.step`: the iterator, and one round of the loop
* `XchgScan.EndsIn`: the loop stops after a number of rounds, with these changes
* `EqualTopXchgs`: two changes that cancel

## Main results

* `XchgScan.endsIn_optimizeLoop`: each round uses up one of the changes behind the iterator
* `isChain_optimizeLoop`: no two neighbours in front of the iterator cancel
* `optimizeEqualXchgs_spec`: the loop stops, keeps the effect, and leaves nothing that cancels
-/

namespace TVMCompiler

/-- Both changes are `xchgTop`, of the same slot. -/
def EqualTopXchgs (prev cur : Change) : Prop := ∃ i, prev = .xchgTop i ∧ cur = .xchgTop i

instance decidableEqualTopXchgs : ∀ prev cur, Decidable (EqualTopXchgs prev cur)
  | .xchgTop i, cur => decidable_of_iff (cur = .xchgTop i)
      ⟨fun h => ⟨i, rfl, h⟩, by rintro ⟨j, ⟨⟩, h⟩; exact h⟩
  | .pop _, _ | .xchg _ _, _ | .pushI _, _ | .pushHidden _ _, _ | .pushUndef, _
  | .blkswap _ _, _ | .blkdrop _, _ | .roll _, _ | .reverse _ _, _ | .doubleChange _ _ _ _, _
  | .tripleChange _ _ _ _ _ _, _ => isFalse (by rintro ⟨i, ⟨⟩, -⟩)

theorem EqualTopXchgs.symm {c d : Change} (h : EqualTopXchgs c d) : EqualTopXchgs d c := by
  obtain ⟨i, hc, hd⟩ := h
  exact ⟨i, hd, hc⟩

/-- The changes, and the index the iterator points to. -/
@[ext]
structure XchgScan where
  changes : List Change
  it : ℕ

namespace XchgScan

/-- The iterator starts behind the first change. An empty list is returned at once. -/
def start (changes : List Change) : XchgScan := ⟨changes, min 1 changes.length⟩

/-- `it == Changes.end()`. -/
def AtEnd (s : XchgScan) : Prop := s.it = s.changes.length

/-- One round of the loop. -/
def step (s : XchgScan) : XchgScan :=
  if s.it = 0 then { s with it := s.it + 1 }
  else if ∃ prev ∈ s.changes[s.it - 1]?, ∃ cur ∈ s.changes[s.it]?, EqualTopXchgs prev cur then
    ⟨s.changes.take (s.it - 1) ++ s.changes.drop (s.it + 1), s.it - 1⟩
  else { s with it := s.it + 1 }

/-- The loop stops after `n` rounds, and leaves the changes `r`. -/
def EndsIn (n : ℕ) (s : XchgScan) (r : List Change) : Prop :=
  (∀ k < n, ¬ (step^[k] s).AtEnd) ∧ (step^[n] s).AtEnd ∧ (step^[n] s).changes = r

theorem EndsIn.of_atEnd {s : XchgScan} (h : s.AtEnd) : EndsIn 0 s s.changes :=
  ⟨fun k hk => absurd hk k.not_lt_zero, h, rfl⟩

/-- A round in front of the others. -/
theorem EndsIn.of_step {n : ℕ} {s : XchgScan} {r : List Change} (hs : ¬ s.AtEnd)
    (h : EndsIn n s.step r) : EndsIn (n + 1) s r := by
  obtain ⟨hgoing, hend, hr⟩ := h
  refine ⟨?_, hend, hr⟩
  intro k hk
  cases k with
  | zero => exact hs
  | succ k => exact hgoing k (Nat.lt_of_succ_lt_succ hk)

/-- The iterator stands between the changes `before`, last one first, and the changes `after`. -/
def between (before after : List Change) : XchgScan := ⟨before.reverse ++ after, before.length⟩

theorem not_atEnd_between (before : List Change) (c : Change) (after : List Change) :
    ¬ (between before (c :: after)).AtEnd := by
  simp [AtEnd, between]

/-- The round goes on to the next change, if there is nothing to erase. -/
theorem step_between_of_not {before : List Change} {c : Change} {after : List Change}
    (h : ∀ p ∈ before.head?, ¬ EqualTopXchgs p c) :
    (between before (c :: after)).step = between (c :: before) after := by
  cases before with
  | nil => rfl
  | cons p before =>
    rw [step, if_neg (by simp [between]), if_neg]
    · simp [between]
    · -- the change before the iterator is `p`, the one behind it `c`
      simpa [between] using h

/-- The round erases two changes that cancel. -/
theorem step_between_of_equal {p c : Change} (h : EqualTopXchgs p c) (before after : List Change) :
    (between (p :: before) (c :: after)).step = between before after := by
  have hdrop : (before.reverse ++ p :: c :: after).drop (before.length + 2) = after := by
    simpa using @List.drop_left _ (before.reverse ++ [p, c]) after
  rw [step, if_neg (by simp [between]), if_pos]
  · simpa [between] using hdrop
  · simpa [between] using h

/-- **Each round uses up one of the changes behind the iterator**, also where it goes back. -/
theorem endsIn_optimizeLoop (before after : List Change) :
    EndsIn after.length (between before after) (optimizeLoop before after) := by
  induction before, after using optimizeLoop.induct with
  | case1 before =>
    have hend : (between before []).AtEnd := by simp [AtEnd, between]
    simpa [optimizeLoop, between] using EndsIn.of_atEnd hend
  | case2 c after ih =>
    rw [optimizeLoop]
    refine EndsIn.of_step (not_atEnd_between _ _ _) ?_
    rwa [step_between_of_not (by simp)]
  | case3 before after j ih =>
    rw [optimizeLoop, if_pos rfl]
    refine EndsIn.of_step (not_atEnd_between _ _ _) ?_
    rwa [step_between_of_equal ⟨j, rfl, rfl⟩]
  | case4 before after i j hne ih =>
    rw [optimizeLoop, if_neg hne]
    refine EndsIn.of_step (not_atEnd_between _ _ _) ?_
    rwa [step_between_of_not]
    rintro p ⟨⟩ ⟨k, ⟨⟩, ⟨⟩⟩
    exact hne rfl
  | case5 p before c after hne ih =>
    rw [optimizeLoop]
    · refine EndsIn.of_step (not_atEnd_between _ _ _) ?_
      rwa [step_between_of_not]
      rintro p ⟨⟩ ⟨k, hp, hc⟩
      exact hne k k hp hc
    · exact hne

end XchgScan

/-- No two neighbours in front of the iterator cancel, so none do in the end. -/
theorem isChain_optimizeLoop {before after : List Change}
    (h : before.IsChain fun c d => ¬ EqualTopXchgs c d) :
    (optimizeLoop before after).IsChain fun c d => ¬ EqualTopXchgs c d := by
  induction before, after using optimizeLoop.induct with
  | case1 before =>
    rw [optimizeLoop, List.isChain_reverse]
    exact h.imp fun c d hcd heq => hcd heq.symm
  | case2 c after ih =>
    rw [optimizeLoop]
    exact ih (.singleton c)
  | case3 before after j ih =>
    rw [optimizeLoop, if_pos rfl]
    exact ih h.tail
  | case4 before after i j hne ih =>
    rw [optimizeLoop, if_neg hne]
    refine ih (List.isChain_cons_cons.mpr ⟨?_, h⟩)
    rintro ⟨k, ⟨⟩, ⟨⟩⟩
    exact hne rfl
  | case5 p before c after hne ih =>
    rw [optimizeLoop]
    · refine ih (List.isChain_cons_cons.mpr ⟨?_, h⟩)
      rintro ⟨k, hc, hp⟩
      exact hne k k hp hc
    · exact hne

/-- **The loop of `optimizeEqualXchgs` stops**, after fewer rounds than there are changes. What is
left has the effect of the given changes on every stack that these can be applied to, and no two
neighbours in it cancel. -/
theorem optimizeEqualXchgs_spec (changes : List Change) :
    (∃ n ≤ changes.length,
      (XchgScan.start changes).EndsIn n (optimizeEqualXchgs changes)) ∧
    (∀ (α : Type) (undef : α) (s r : List α), applyAll undef changes s = some r →
      applyAll undef (optimizeEqualXchgs changes) s = some r) ∧
    (optimizeEqualXchgs changes).IsChain fun c d => ¬ EqualTopXchgs c d := by
  refine ⟨?_, ?_, ?_⟩
  · cases changes with
    | nil => exact ⟨0, le_rfl, XchgScan.EndsIn.of_atEnd rfl⟩
    | cons c changes => exact ⟨changes.length, Nat.le_succ _, XchgScan.endsIn_optimizeLoop [c] _⟩
  · intro α undef s r hrun
    exact applyAll_optimizeEqualXchgs undef hrun
  · exact isChain_optimizeLoop .nil

/-- A cancellation that makes two more exchanges neighbours. -/
example : optimizeEqualXchgs [.xchgTop 2, .pushI 0, .xchgTop 1, .xchgTop 3, .xchgTop 3, .xchgTop 1,
    .xchgTop 2] = [.xchgTop 2, .pushI 0, .xchgTop 2] := by decide

end TVMCompiler
