import Mathlib.Logic.Function.Basic

/-!
# Machines that give the same results

A machine takes an operation, in the state it finds, to the next state and a result, or it fails, and
then the run is over. Two machines give the same results if related states lead to related states
and the same result, or to the same failure.

## Main definitions

* `Agree`: the same result and related states, or the same failure
* `results`, `final`: the results of a run, and the state after it
* `onMember`: a step of one of several machines

## Main results

* `Agree.bind`, `Agree.onMember`: steps one after the other, and steps of one of several machines
* `results_eq`, `final_related`: runs of machines that agree
-/

namespace TVMCompiler.Lib

variable {σ τ σ' τ' ε α β ω : Type}

/-- The same result and related states, or the same failure. -/
inductive Agree (R : σ → τ → Prop) : Except ε (σ × α) → Except ε (τ × α) → Prop where
  | ok {s : σ} {t : τ} (a : α) (h : R s t) : Agree R (.ok (s, a)) (.ok (t, a))
  | error (e : ε) : Agree R (.error e) (.error e)

variable {R : σ → τ → Prop} {R' : σ' → τ' → Prop} {x : Except ε (σ × α)} {y : Except ε (τ × α)}

theorem Agree.bind (h : Agree R x y) {f : σ × α → Except ε (σ' × β)}
    {g : τ × α → Except ε (τ' × β)} (hfg : ∀ s t a, R s t → Agree R' (f (s, a)) (g (t, a))) :
    Agree R' (x.bind f) (y.bind g) := by
  cases h with
  | ok a h => exact hfg _ _ a h
  | error e => exact .error e

theorem Agree.map (h : Agree R x y) (f : α → β) {next : σ → σ'} {next' : τ → τ'}
    (hnext : ∀ s t, R s t → R' (next s) (next' t)) :
    Agree R' (x.map fun r => (next r.1, f r.2)) (y.map fun r => (next' r.1, f r.2)) := by
  cases h with
  | ok a h => exact .ok (f a) (hnext _ _ h)
  | error e => exact .error e

/-- What holds of every success of one machine holds of the states that are related. -/
theorem Agree.and (h : Agree R x y) {P : τ → Prop} (hy : ∀ t a, y = .ok (t, a) → P t) :
    Agree (fun s t => R s t ∧ P t) x y := by
  cases h with
  | ok a h => exact .ok a ⟨h, hy _ _ rfl⟩
  | error e => exact .error e

section Family

variable {ι : Type} [DecidableEq ι]

/-- A step of one of several machines. -/
def onMember (s : ι → σ) (i : ι) (step : σ → Except ε (σ × α)) : Except ε ((ι → σ) × α) :=
  (step (s i)).map fun r => (Function.update s i r.1, r.2)

theorem Agree.onMember {s : ι → σ} {t : ι → τ} (h : ∀ i, R (s i) (t i)) (i : ι)
    {step : σ → Except ε (σ × α)} {step' : τ → Except ε (τ × α)}
    (hstep : Agree R (step (s i)) (step' (t i))) :
    Agree (fun s t => ∀ i, R (s i) (t i)) (Lib.onMember s i step) (Lib.onMember t i step') := by
  refine hstep.map id ?_
  intro s' t' hnext j
  by_cases hj : j = i
  · subst hj
    rwa [Function.update_self, Function.update_self]
  · rw [Function.update_of_ne hj, Function.update_of_ne hj]
    exact h j

end Family

section Run

variable (step : σ → ω → Except ε (σ × α)) (step' : τ → ω → Except ε (τ × α))

/-- The results of a run, up to the first failure. -/
def results : σ → List ω → List (Except ε α)
  | _, [] => []
  | s, op :: ops =>
    match step s op with
    | .ok (s, a) => .ok a :: results s ops
    | .error e => [.error e]

/-- The state after a run. -/
def final (s : σ) (ops : List ω) : Except ε σ :=
  ops.foldlM (fun s op => (step s op).map Prod.fst) s

variable {step step'}

/-- **Machines that agree give the same results.** -/
theorem results_eq (hstep : ∀ s t op, R s t → Agree R (step s op) (step' t op)) (ops : List ω)
    {s : σ} {t : τ} (h : R s t) : results step s ops = results step' t ops := by
  induction ops generalizing s t with
  | nil => rfl
  | cons op ops ih =>
    have hagree := hstep s t op h
    rw [results, results]
    -- the first step succeeds on both sides, or fails on both
    generalize step s op = x at hagree
    generalize step' t op = y at hagree
    cases hagree with
    | ok a hnext =>
      show Except.ok a :: _ = Except.ok a :: _
      rw [ih hnext]
    | error e => rfl

/-- **Machines that agree end in related states.** -/
theorem final_related (hstep : ∀ s t op, R s t → Agree R (step s op) (step' t op)) (ops : List ω)
    {s s' : σ} {t : τ} (h : R s t) (hfinal : final step s ops = .ok s') :
    ∃ t', final step' t ops = .ok t' ∧ R s' t' := by
  induction ops generalizing s t with
  | nil =>
    cases hfinal
    exact ⟨t, rfl, h⟩
  | cons op ops ih =>
    have hagree := hstep s t op h
    rw [final, List.foldlM_cons] at hfinal ⊢
    generalize step s op = x at hagree hfinal
    generalize step' t op = y at hagree
    cases hagree with
    | ok a hnext => exact ih hnext hfinal
    | error e => cases hfinal

end Run

end TVMCompiler.Lib
