import Mathlib.Data.Nat.Notation

/-!
# Computations that may fail

## Main definitions

* `loop`: a loop that ends when its body returns nothing, with a bound on the number of rounds

## Main results

* `bind_eq_ok`, `map_eq_ok`: the successful computations
* `bind_eq_error`, `map_eq_error`: the failed ones
* `loop_spec`: a loop whose body keeps an invariant and decreases a measure ends in a state of
  the invariant in which the body has nothing left to do
-/

namespace TVMCompiler.Lib

section Sequence

variable {ε α β : Type*}

theorem bind_eq_ok {x : Except ε α} {f : α → Except ε β} {b : β} :
    x.bind f = .ok b ↔ ∃ a, x = .ok a ∧ f a = .ok b := by
  cases x with
  | error e => simp [Except.bind]
  | ok a => simp [Except.bind]

theorem map_eq_ok {x : Except ε α} {f : α → β} {b : β} :
    x.map f = .ok b ↔ ∃ a, x = .ok a ∧ f a = b := by
  cases x with
  | error e => simp [Except.map]
  | ok a => simp [Except.map]

theorem bind_eq_error {x : Except ε α} {f : α → Except ε β} {e : ε} :
    x.bind f = .error e ↔ x = .error e ∨ ∃ a, x = .ok a ∧ f a = .error e := by
  cases x with
  | error e' => simp [Except.bind]
  | ok a => simp [Except.bind]

theorem map_eq_error {x : Except ε α} {f : α → β} {e : ε} :
    x.map f = .error e ↔ x = .error e := by
  cases x with
  | error e' => simp [Except.map]
  | ok a => simp [Except.map]

/-- What comes out does not depend on how failures are named. -/
theorem mapError_eq_ok {ε' : Type*} {x : Except ε α} {f : ε → ε'} {a : α} :
    x.mapError f = .ok a ↔ x = .ok a := by
  cases x with
  | error e =>
    constructor
    · rintro ⟨⟩
    · rintro ⟨⟩
  | ok b =>
    constructor
    · rintro ⟨⟩
      rfl
    · rintro ⟨⟩
      rfl

theorem eq_ok_of_mem_toOption {x : Except ε α} {a : α} (h : a ∈ x.toOption) : x = .ok a := by
  cases x with
  | error e => cases h
  | ok b =>
    cases h
    rfl

end Sequence

variable {σ ε : Type*}

/-- A loop of at most `n` rounds, which fails with `exhausted` if it is not done by then. -/
def loop (exhausted : ε) (body : σ → Except ε (Option σ)) : ℕ → σ → Except ε σ
  | 0, _ => .error exhausted
  | n + 1, s =>
    match body s with
    | .error e => .error e
    | .ok none => .ok s
    | .ok (some s') => loop exhausted body n s'

theorem loop_spec (exhausted : ε) (body : σ → Except ε (Option σ)) (Inv : σ → Prop) {μ : σ → ℕ}
    (hbody : ∀ s, Inv s →
      body s = .ok none ∨ ∃ s', body s = .ok (some s') ∧ Inv s' ∧ μ s' < μ s)
    {n : ℕ} {s : σ} (hs : Inv s) (hn : μ s < n) :
    ∃ s', loop exhausted body n s = .ok s' ∧ Inv s' ∧ body s' = .ok none ∧
      (s' = s ∨ μ s' < μ s) := by
  induction n generalizing s with
  | zero => exact absurd hn (Nat.not_lt_zero _)
  | succ n ih =>
    rcases hbody s hs with hdone | ⟨s', hstep, hs', hlt⟩
    · exact ⟨s, by simp only [loop, hdone], hs, hdone, Or.inl rfl⟩
    · obtain ⟨t, hloop, ht, hdone, hle⟩ := ih hs' (by omega)
      have hlt' : μ t < μ s := by
        rcases hle with rfl | hle <;> omega
      exact ⟨t, by simp only [loop, hstep, hloop], ht, hdone, Or.inr hlt'⟩

end TVMCompiler.Lib
