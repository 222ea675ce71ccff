import Mathlib.Data.List.Basic

/-!
# Passes over a list

A pass goes over a list once. At an item it may take further items along, and puts out what
replaces them, or is undefined; then it goes on behind the items it has taken.

## Main definitions

* `visitsFrom`: the items that a pass comes to, each with the items behind it
* `rewrite`: the output of the pass
* `MaximalRuns`: a condition on the maximal runs of an item in a list

## Main results

* `rewrite_cons`: the pass at an item
* `scan_induction`: induction along a pass
* `rewrite_of_visits`: what holds at each visit holds for the pass
* `eq_replicate_append`: a run of equal items, and what follows it
-/

namespace TVMCompiler.Lib

section Scan

variable {ι : Type*}

/-- The items that a pass comes to, each with the items behind it, in a list whose first items have
been taken. For an item and the items behind it `next` gives how many of these are taken along,
and the output. -/
def visitsFrom (next : ι → List ι → ℕ × Option (List ι)) : ℕ → List ι → List (ι × List ι)
  | _, [] => []
  | 0, x :: xs => (x, xs) :: visitsFrom next (next x xs).1 xs
  | n + 1, _ :: xs => visitsFrom next n xs

def visits (next : ι → List ι → ℕ × Option (List ι)) (xs : List ι) : List (ι × List ι) :=
  visitsFrom next 0 xs

/-- The items that are taken at a visit. -/
def taken (next : ι → List ι → ℕ × Option (List ι)) (p : ι × List ι) : List ι :=
  p.1 :: p.2.take (next p.1 p.2).1

def rewrite (next : ι → List ι → ℕ × Option (List ι)) (xs : List ι) : Option (List ι) :=
  ((visits next xs).mapM fun p => (next p.1 p.2).2).map List.flatten

variable (next : ι → List ι → ℕ × Option (List ι))

theorem visitsFrom_eq_drop (n : ℕ) (xs : List ι) :
    visitsFrom next n xs = visits next (xs.drop n) := by
  induction n generalizing xs with
  | zero => rfl
  | succ n ih =>
    cases xs with
    | nil => rfl
    | cons x xs => exact ih xs

@[simp] theorem visits_nil : visits next [] = [] := rfl

theorem visits_cons (x : ι) (xs : List ι) :
    visits next (x :: xs) = (x, xs) :: visits next (xs.drop (next x xs).1) := by
  rw [visits, visitsFrom, visitsFrom_eq_drop]

@[simp] theorem rewrite_nil : rewrite next [] = some [] := rfl

theorem rewrite_cons (x : ι) (xs : List ι) :
    rewrite next (x :: xs) =
      (next x xs).2.bind fun out => (rewrite next (xs.drop (next x xs).1)).map (out ++ ·) := by
  rw [rewrite, rewrite, visits_cons, List.mapM_cons]
  cases (next x xs).2 with
  | none => rfl
  | some out =>
    cases (visits next (xs.drop (next x xs).1)).mapM fun p => (next p.1 p.2).2 <;> rfl

/-- **Induction along a pass**, from what is behind the items taken. -/
theorem scan_induction {P : List ι → Prop} (hnil : P [])
    (hcons : ∀ x xs, P (xs.drop (next x xs).1) → P (x :: xs)) (xs : List ι) : P xs := by
  generalize hn : xs.length = n
  induction n using Nat.strongRecOn generalizing xs with
  | ind n ih =>
    cases xs with
    | nil => exact hnil
    | cons x xs =>
      refine hcons x xs (ih _ ?_ _ rfl)
      rw [← hn, List.length_cons, List.length_drop]
      omega

/-- **What holds between the items taken and the output at each visit, and is kept when lists are
joined, holds for the pass.** -/
theorem rewrite_of_visits {R : List ι → List ι → Prop} (hnil : R [] [])
    (happend : ∀ as bs cs ds, R as bs → R cs ds → R (as ++ cs) (bs ++ ds)) {xs : List ι}
    (hvisits : ∀ p ∈ visits next xs, ∃ out, (next p.1 p.2).2 = some out ∧ R (taken next p) out) :
    ∃ out, rewrite next xs = some out ∧ R xs out := by
  induction xs using scan_induction next with
  | hnil => exact ⟨[], rfl, hnil⟩
  | hcons x xs ih =>
    rw [visits_cons] at hvisits
    obtain ⟨out, hout, hR⟩ := hvisits _ List.mem_cons_self
    obtain ⟨rest, hrest, hR'⟩ := ih fun p hp => hvisits p (List.mem_cons_of_mem _ hp)
    refine ⟨out ++ rest, ?_, ?_⟩
    · have hout : (next x xs).2 = some out := hout
      rw [rewrite_cons, hout, hrest]
      rfl
    · have hjoin := happend _ _ _ _ hR hR'
      rwa [taken, List.cons_append, List.take_append_drop] at hjoin

end Scan

/-! ## Runs of equal items -/

section Runs

variable {ι : Type*} (x : ι)

/-- The run at the beginning of a list is determined. -/
theorem replicate_append_inj {m n : ℕ} {as bs : List ι} (ha : as.head? ≠ some x)
    (hb : bs.head? ≠ some x) (h : List.replicate m x ++ as = List.replicate n x ++ bs) :
    m = n ∧ as = bs := by
  induction m generalizing n with
  | zero =>
    cases n with
    | zero => exact ⟨rfl, h⟩
    | succ n =>
      rw [List.replicate_zero, List.nil_append] at h
      simp [h, List.replicate_succ] at ha
  | succ m ih =>
    cases n with
    | zero =>
      rw [List.replicate_zero, List.nil_append] at h
      simp [← h, List.replicate_succ] at hb
    | succ n =>
      simp only [List.replicate_succ, List.cons_append, List.cons.injEq, true_and] at h
      obtain ⟨hmn, hab⟩ := ih h
      exact ⟨congrArg (· + 1) hmn, hab⟩

/-- A condition on the length of each maximal run of `x` and on what follows it. -/
def MaximalRuns (P : ℕ → List ι → Prop) (xs : List ι) : Prop :=
  ∀ pre n rest, xs = pre ++ List.replicate n x ++ rest → pre.getLast? ≠ some x →
    rest.head? ≠ some x → 0 < n → P n rest

variable {x} {P : ℕ → List ι → Prop}

theorem maximalRuns_nil : MaximalRuns x P [] := by
  intro pre n rest h _ _ hn
  rw [eq_comm, List.append_eq_nil_iff, List.append_eq_nil_iff, List.replicate_eq_nil_iff] at h
  exact absurd h.1.2 (Nat.ne_of_gt hn)

theorem maximalRuns_cons {y : ι} (hy : y ≠ x) (ys : List ι) :
    MaximalRuns x P (y :: ys) ↔ MaximalRuns x P ys := by
  constructor
  · intro h pre n rest hsplit hpre
    refine h (y :: pre) n rest (by rw [hsplit]; rfl) ?_
    cases pre with
    | nil => simpa using hy
    | cons z pre => simpa [List.getLast?_cons_cons] using hpre
  · intro h pre n rest hsplit hpre hrest hn
    cases pre with
    | nil =>
      -- a run would begin with `y`
      obtain ⟨n, rfl⟩ := Nat.exists_eq_succ_of_ne_zero (Nat.ne_of_gt hn)
      rw [List.nil_append, List.replicate_succ, List.cons_append] at hsplit
      exact absurd (List.cons_eq_cons.mp hsplit).1 hy
    | cons z pre =>
      rw [List.cons_append, List.cons_append] at hsplit
      obtain ⟨rfl, htail⟩ := List.cons_eq_cons.mp hsplit
      refine h pre n rest htail ?_ hrest hn
      cases pre with
      | nil => simp
      | cons w pre => simpa [List.getLast?_cons_cons] using hpre

theorem maximalRuns_replicate {n : ℕ} {ys : List ι} (hys : ys.head? ≠ some x) :
    MaximalRuns x P (List.replicate (n + 1) x ++ ys) ↔ P (n + 1) ys ∧ MaximalRuns x P ys := by
  constructor
  · intro h
    refine ⟨h [] (n + 1) ys rfl (by simp) hys n.succ_pos, fun pre m rest hsplit hpre hrest hm => ?_⟩
    refine h (List.replicate (n + 1) x ++ pre) m rest (by simp [hsplit]) ?_ hrest hm
    cases pre with
    | nil =>
      obtain ⟨m, rfl⟩ := Nat.exists_eq_succ_of_ne_zero (Nat.ne_of_gt hm)
      rw [hsplit, List.replicate_succ] at hys
      exact absurd rfl hys
    | cons z pre => simpa [List.getLast?_append] using hpre
  · rintro ⟨hP, h⟩ pre m rest hsplit hpre hrest hm
    by_cases hnil : pre = []
    · subst hnil
      rw [List.nil_append] at hsplit
      obtain ⟨rfl, rfl⟩ := replicate_append_inj x hys hrest hsplit
      exact hP
    · rw [List.append_assoc] at hsplit
      rcases List.append_eq_append_iff.mp hsplit with ⟨as, rfl, hys'⟩ | ⟨as, hrun, -⟩
      · rw [← List.append_assoc] at hys'
        refine h as m rest hys' ?_ hrest hm
        cases as with
        | nil => simp
        | cons z as => simpa [List.getLast?_append] using hpre
      · -- what is before the run would end in `x`
        have hmem : pre.getLast hnil ∈ List.replicate (n + 1) x := by
          rw [hrun]
          exact List.mem_append_left _ (List.getLast_mem hnil)
        rw [List.getLast?_eq_some_getLast hnil, List.eq_of_mem_replicate hmem] at hpre
        exact absurd rfl hpre

variable (x) [DecidableEq ι]

/-- A list begins with a run of an item, and another one follows. -/
theorem eq_replicate_append (xs : List ι) :
    xs = List.replicate (xs.takeWhile (· = x)).length x ++ xs.drop (xs.takeWhile (· = x)).length ∧
      (xs.drop (xs.takeWhile (· = x)).length).head? ≠ some x := by
  induction xs with
  | nil => simp
  | cons y ys ih =>
    by_cases hy : y = x
    · subst hy
      simpa [List.replicate_succ] using ih
    · simp [hy]

theorem takeWhile_replicate_append {n : ℕ} {as : List ι} (ha : as.head? ≠ some x) :
    (List.replicate n x ++ as).takeWhile (· = x) = List.replicate n x := by
  induction n with
  | zero =>
    cases as with
    | nil => rfl
    | cons a as =>
      have hne : a ≠ x := by simpa using ha
      simp [hne]
  | succ n ih => simpa [List.replicate_succ] using ih

/-- **Induction over the runs of an item.** -/
theorem runs_induction {Q : List ι → Prop} (hnil : Q [])
    (hother : ∀ y ys, y ≠ x → Q ys → Q (y :: ys))
    (hrun : ∀ n ys, ys.head? ≠ some x → Q ys → Q (List.replicate (n + 1) x ++ ys)) (xs : List ι) :
    Q xs := by
  generalize hlen : xs.length = k
  induction k using Nat.strongRecOn generalizing xs with
  | ind k ih =>
    cases xs with
    | nil => exact hnil
    | cons y ys =>
      by_cases hy : y = x
      · subst hy
        obtain ⟨hsplit, hhead⟩ := eq_replicate_append y ys
        rw [hsplit, ← List.cons_append, ← List.replicate_succ]
        refine hrun _ _ hhead (ih _ ?_ _ rfl)
        rw [← hlen, List.length_cons, List.length_drop]
        omega
      · exact hother y ys hy (ih _ (by rw [← hlen]; exact Nat.lt_succ_self _) ys rfl)

end Runs

end TVMCompiler.Lib
