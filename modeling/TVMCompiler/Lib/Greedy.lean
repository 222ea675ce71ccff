import Mathlib.Data.List.Basic

/-!
# Greedy divisions of a list

A list is divided greedily into groups with a property if each group is extended for as long as
it keeps the property. If the property passes on to prefixes, there is one such division.

## Main definitions

* `GreedyDivision P l gs`: `gs` is a greedy division of `l` into groups with the property `P`

## Main results

* `GreedyDivision.flatten`, `GreedyDivision.holds`: the groups make up the list and have the
  property
* `GreedyDivision.unique`: a list has at most one greedy division
-/

namespace TVMCompiler.Lib

variable {α : Type*} {P : List α → Prop}

/-- `gs` divides the list into nonempty groups with `P`, none of which keeps `P` together with
the element after it. -/
inductive GreedyDivision (P : List α → Prop) : List α → List (List α) → Prop
  | nil : GreedyDivision P [] []
  | cons {g rest : List α} {gs : List (List α)} : g ≠ [] → P g →
      (∀ a ∈ rest.head?, ¬ P (g ++ [a])) → GreedyDivision P rest gs →
      GreedyDivision P (g ++ rest) (g :: gs)

theorem GreedyDivision.flatten {l : List α} {gs : List (List α)} (h : GreedyDivision P l gs) :
    gs.flatten = l := by
  induction h with
  | nil => rfl
  | cons _ _ _ _ ih => rw [List.flatten_cons, ih]

theorem GreedyDivision.holds {l : List α} {gs : List (List α)} (h : GreedyDivision P l gs) :
    ∀ g ∈ gs, P g := by
  induction h with
  | nil => intro g hg; cases hg
  | cons _ hP _ _ ih =>
    intro g hg
    rcases List.mem_cons.mp hg with rfl | hg
    · exact hP
    · exact ih g hg

/-- A group that is closed off is no proper prefix of another one that begins in the same
place. -/
theorem prefix_of_closed {g rest h rest' : List α}
    (hclosedPrefix : ∀ p q : List α, P (p ++ q) → P p)
    (hclosed : ∀ a ∈ rest.head?, ¬ P (g ++ [a]))
    (hh : P h) (heq : g ++ rest = h ++ rest') : h <+: g := by
  rcases List.append_eq_append_iff.mp heq with ⟨mid, hmid, hrest⟩ | ⟨mid, hmid, -⟩
  · cases mid with
    | nil => exact ⟨[], by rw [hmid]; simp⟩
    | cons a mid =>
      -- the longer group would have extended the shorter one
      refine absurd (hclosedPrefix (g ++ [a]) mid ?_) (hclosed a (by rw [hrest]; rfl))
      rw [List.append_assoc, List.singleton_append, ← hmid]
      exact hh
  · exact ⟨mid, hmid.symm⟩

theorem GreedyDivision.unique {l : List α} {gs hs : List (List α)}
    (hclosedPrefix : ∀ p q : List α, P (p ++ q) → P p) (hg : GreedyDivision P l gs)
    (hh : GreedyDivision P l hs) : gs = hs := by
  induction hg generalizing hs with
  | nil =>
    generalize hl : ([] : List α) = l at hh
    cases hh with
    | nil => rfl
    | cons hne _ _ _ => exact absurd (List.append_eq_nil_iff.mp hl.symm).1 hne
  | @cons g rest gs hne hP hclosed _ ih =>
    generalize hl : g ++ rest = l at hh
    cases hh with
    | nil => exact absurd (List.append_eq_nil_iff.mp hl).1 hne
    | @cons h rest' hs hne' hP' hclosed' htail =>
      have hle := prefix_of_closed hclosedPrefix hclosed hP' hl
      have hge := prefix_of_closed hclosedPrefix hclosed' hP hl.symm
      obtain rfl : g = h :=
        hge.eq_of_length (Nat.le_antisymm hge.length_le hle.length_le)
      obtain rfl := List.append_cancel_left hl
      rw [ih htail]

end TVMCompiler.Lib
