import Mathlib.Data.List.Basic

/-!
# Machines in step

A deterministic machine goes from a state to the next one, and an event may be seen, or it stops.
Two machines show the same events if silent steps bring them to states from which they take a step
with the same event.

## Main definitions

* `Trace`: a run with the events that are seen in it
* `Sees`, `Stops`: what is seen of a machine
* `InStep`: silent steps lead to related states
* `Advances`: from related states both machines take a step, or both have stopped

## Main results

* `Trace.split`: a run beside a silent one
* `InStep.sees_iff`, `InStep.exists_stops`: machines in step show the same
-/

namespace TVMCompiler.Lib

section Simulation

variable {σ τ ε : Type*}

/-- A run of `n` steps, with the events seen. -/
inductive Trace (step : σ → Option (Option ε × σ)) : ℕ → σ → List ε → σ → Prop where
  | refl (s : σ) : Trace step 0 s [] s
  | cons {n : ℕ} {s s' t : σ} {e : Option ε} {es : List ε} (hstep : step s = some (e, s'))
      (hrest : Trace step n s' es t) : Trace step (n + 1) s (e.toList ++ es) t

/-- Some run shows the events. -/
def Sees (step : σ → Option (Option ε × σ)) (s : σ) (es : List ε) : Prop :=
  ∃ n t, Trace step n s es t

/-- The machine stops in `t` when the events have been seen. -/
def Stops (step : σ → Option (Option ε × σ)) (s : σ) (es : List ε) (t : σ) : Prop :=
  ∃ n, Trace step n s es t ∧ step t = none

variable {step : σ → Option (Option ε × σ)} {step' : τ → Option (Option ε × τ)}

theorem Trace.silent {n : ℕ} {s s' t : σ} (hstep : step s = some (none, s'))
    (hrest : Trace step n s' [] t) : Trace step (n + 1) s [] t :=
  .cons hstep hrest

theorem Trace.silent_append {m n : ℕ} {s t u : σ} {es : List ε} (h : Trace step m s [] t)
    (h' : Trace step n t es u) : Trace step (m + n) s es u := by
  generalize hes : ([] : List ε) = none' at h
  induction h with
  | refl s =>
    rw [Nat.zero_add]
    exact h'
  | cons hstep hrest ih =>
    obtain ⟨he, rfl⟩ := List.append_eq_nil_iff.mp hes.symm
    rw [Option.toList_eq_nil_iff] at he
    subst he
    rw [Nat.add_right_comm]
    exact .cons hstep (ih h' rfl)

/-- A run of a machine that takes a step takes it first. -/
theorem Trace.of_step {n : ℕ} {s s' t : σ} {e : Option ε} {es : List ε}
    (hstep : step s = some (e, s')) (h : Trace step n s es t) :
    es = [] ∨ ∃ k es', es = e.toList ++ es' ∧ Trace step k s' es' t := by
  cases h with
  | refl => exact Or.inl rfl
  | cons hstep' hrest =>
    obtain ⟨rfl, rfl⟩ : _ = e ∧ _ = s' := by simpa using hstep'.symm.trans hstep
    exact Or.inr ⟨_, _, rfl, hrest⟩

/-- A machine that has stopped stays where it is. -/
theorem Trace.of_none {n : ℕ} {s t : σ} {es : List ε} (hstop : step s = none)
    (h : Trace step n s es t) : t = s ∧ es = [] := by
  cases h with
  | refl => exact ⟨rfl, rfl⟩
  | cons hstep hrest =>
    rw [hstop] at hstep
    cases hstep

/-- **A run beside a silent one** ends in it, or goes on behind it. -/
theorem Trace.split {m n : ℕ} {s t u : σ} {es : List ε} (h : Trace step m s [] t)
    (hrun : Trace step n s es u) :
    (n < m ∧ es = [] ∧ step u ≠ none) ∨ ∃ k, n = m + k ∧ Trace step k t es u := by
  generalize hes : ([] : List ε) = none' at h
  induction h generalizing n es with
  | refl s => exact Or.inr ⟨n, (Nat.zero_add n).symm, hrun⟩
  | cons hstep hrest ih =>
    obtain ⟨he, rfl⟩ := List.append_eq_nil_iff.mp hes.symm
    rw [Option.toList_eq_nil_iff] at he
    subst he
    cases hrun with
    | refl => exact Or.inl ⟨Nat.succ_pos _, rfl, by simp [hstep]⟩
    | cons hstep' hrest' =>
      obtain ⟨rfl, rfl⟩ : _ = none ∧ _ = _ := by simpa using hstep'.symm.trans hstep
      rcases ih hrest' rfl with ⟨hlt, hes', hu⟩ | ⟨k, rfl, htail⟩
      · exact Or.inl ⟨Nat.succ_lt_succ hlt, by simp [hes'], hu⟩
      · exact Or.inr ⟨k, Nat.add_right_comm _ _ _, htail⟩

/-- Silent steps of both machines lead to related states. -/
def InStep (step : σ → Option (Option ε × σ)) (step' : τ → Option (Option ε × τ))
    (Lock : σ → τ → Prop) (s : σ) (t : τ) : Prop :=
  ∃ m n s₁ t₁, Trace step m s [] s₁ ∧ Trace step' n t [] t₁ ∧ Lock s₁ t₁

/-- From related states both machines take a step with the same event to states in step, or both
have stopped, in states that count as the same. -/
def Advances (step : σ → Option (Option ε × σ)) (step' : τ → Option (Option ε × τ))
    (Lock Same : σ → τ → Prop) : Prop :=
  ∀ s t, Lock s t → (step s = none ∧ step' t = none ∧ Same s t) ∨
    ∃ e s' t', step s = some (e, s') ∧ step' t = some (e, t') ∧ InStep step step' Lock s' t'

variable {Lock Same : σ → τ → Prop}

theorem InStep.of_lock {s : σ} {t : τ} (h : Lock s t) : InStep step step' Lock s t :=
  ⟨0, 0, s, t, .refl s, .refl t, h⟩

/-- Silent steps may come before. -/
theorem InStep.prepend {m n : ℕ} {s s' : σ} {t t' : τ} (hs : Trace step m s [] s')
    (ht : Trace step' n t [] t') (h : InStep step step' Lock s' t') :
    InStep step step' Lock s t := by
  obtain ⟨p, q, s₁, t₁, hs', ht', hlock⟩ := h
  exact ⟨m + p, n + q, s₁, t₁, hs.silent_append hs', ht.silent_append ht', hlock⟩

theorem InStep.symm {s : σ} {t : τ} (h : InStep step step' Lock s t) :
    InStep step' step (fun t s => Lock s t) t s := by
  obtain ⟨m, n, s₁, t₁, hs, ht, hlock⟩ := h
  exact ⟨n, m, t₁, s₁, ht, hs, hlock⟩

theorem Advances.symm (h : Advances step step' Lock Same) :
    Advances step' step (fun t s => Lock s t) fun t s => Same s t := by
  intro t s hlock
  rcases h s t hlock with ⟨hs, ht, hsame⟩ | ⟨e, s', t', hs, ht, hnext⟩
  · exact Or.inl ⟨ht, hs, hsame⟩
  · exact Or.inr ⟨e, t', s', ht, hs, hnext.symm⟩

/-- **The second machine follows the first.** -/
theorem InStep.exists_trace (hadv : Advances step step' Lock Same) {n : ℕ} {s u : σ} {t : τ}
    {es : List ε} (h : InStep step step' Lock s t) (hrun : Trace step n s es u) :
    ∃ k v, Trace step' k t es v ∧ (step u = none → step' v = none ∧ Same u v) := by
  induction n using Nat.strongRecOn generalizing s t es with
  | ind n ih =>
    obtain ⟨p, q, s₁, t₁, hs, ht, hlock⟩ := h
    rcases hs.split hrun with ⟨-, rfl, hu⟩ | ⟨k, rfl, htail⟩
    · -- the run ends before the related states are reached
      exact ⟨0, t, .refl t, fun hnone => absurd hnone hu⟩
    cases htail with
    | refl =>
      refine ⟨q, t₁, ht, fun hnone => ?_⟩
      rcases hadv _ t₁ hlock with ⟨-, ht₁, hsame⟩ | ⟨e, s', t', hs₁, -, -⟩
      · exact ⟨ht₁, hsame⟩
      · rw [hnone] at hs₁
        cases hs₁
    | cons hstep hrest =>
      rcases hadv s₁ t₁ hlock with ⟨hs₁, -, -⟩ | ⟨e, s', t', hs₁, ht₁, hnext⟩
      · rw [hs₁] at hstep
        cases hstep
      · obtain ⟨rfl, rfl⟩ : _ = e ∧ _ = s' := by simpa using hstep.symm.trans hs₁
        obtain ⟨k, v, hv, hlast⟩ := ih _ (by omega) hnext hrest
        exact ⟨q + (k + 1), v, ht.silent_append (.cons ht₁ hv), hlast⟩

/-- **Machines in step show the same events.** -/
theorem InStep.sees_iff (hadv : Advances step step' Lock Same) {s : σ} {t : τ}
    (h : InStep step step' Lock s t) (es : List ε) : Sees step s es ↔ Sees step' t es := by
  constructor
  · rintro ⟨n, u, hrun⟩
    obtain ⟨k, v, hv, -⟩ := h.exists_trace hadv hrun
    exact ⟨k, v, hv⟩
  · rintro ⟨n, u, hrun⟩
    obtain ⟨k, v, hv, -⟩ := h.symm.exists_trace hadv.symm hrun
    exact ⟨k, v, hv⟩

/-- Where the first machine stops, so does the second. -/
theorem InStep.exists_stops (hadv : Advances step step' Lock Same) {s u : σ} {t : τ}
    (h : InStep step step' Lock s t) {es : List ε} (hrun : Stops step s es u) :
    ∃ v, Stops step' t es v ∧ Same u v := by
  obtain ⟨n, hrun, hu⟩ := hrun
  obtain ⟨k, v, hv, hlast⟩ := h.exists_trace hadv hrun
  obtain ⟨hnone, hsame⟩ := hlast hu
  exact ⟨v, ⟨k, hv, hnone⟩, hsame⟩

end Simulation

end TVMCompiler.Lib
