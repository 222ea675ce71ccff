import TVMCompiler.Lib.Simulation

/-!
# Machines with callers

A machine executes a list of instructions, keeps the code that is left to execute in its callers,
and goes back to the last of them at the end of the code. What an instruction does, and where it
sends control, is a parameter.

Code that gives control back with the state that it was called with, and shows nothing, may be
called or left out: no caller can tell the difference, and there is no other code of this kind.

## Main definitions

* `Flow`, `Activation`, `Activation.step`: where control goes, and a step
* `Returns`: silent code that comes to its end
* `Alike`: states that no run tells apart

## Main results

* `Trace.append_callers`, `Trace.split_callers`: a run with other callers behind
* `alike_iff_returns`: the code that may be left out
-/

namespace TVMCompiler.Lib

/-- Where control goes behind an instruction. -/
inductive Flow (ι : Type*) where
  | next
  | goto (code : List ι)
  | call (code : List ι)
  | ret

/-- The code that is left to execute, here and in the callers, and the state. -/
structure Activation (ι σ : Type*) where
  code : List ι
  callers : List (List ι)
  state : σ

section Callers

variable {ι σ ε : Type*}

/-- The code and the callers behind an instruction. -/
def Flow.apply (rest : List ι) (callers : List (List ι)) : Flow ι → List ι × List (List ι)
  | next => (rest, callers)
  | goto code => (code, callers)
  | call code => (code, rest :: callers)
  | ret => ([], callers)

theorem Flow.apply_append (flow : Flow ι) (rest : List ι) (callers others : List (List ι)) :
    flow.apply rest (callers ++ others) =
      ((flow.apply rest callers).1, (flow.apply rest callers).2 ++ others) := by
  -- only the first caller is ever added
  cases flow <;> rfl

namespace Activation

/-- The machine is at the end of the code and has no callers. -/
def Halted (c : Activation ι σ) : Prop := c.code = [] ∧ c.callers = []

/-- The same state of the machine with other callers behind its own. -/
def under (c : Activation ι σ) (others : List (List ι)) : Activation ι σ :=
  ⟨c.code, c.callers ++ others, c.state⟩

variable (effect : ι → σ → Option (Option ε × σ × Flow ι))

/-- A step. At the end of the code control goes back to the last caller. -/
def step : Activation ι σ → Option (Option ε × Activation ι σ)
  | ⟨[], [], _⟩ => none
  | ⟨[], rest :: callers, s⟩ => some (none, ⟨rest, callers, s⟩)
  | ⟨i :: rest, callers, s⟩ =>
    (effect i s).map fun r =>
      let (code, callers) := r.2.2.apply rest callers
      (r.1, ⟨code, callers, r.2.1⟩)

variable {effect}

theorem step_of_effect {i : ι} {s t : σ} {e : Option ε} {flow : Flow ι}
    (h : effect i s = some (e, t, flow)) (rest : List ι) (callers : List (List ι)) :
    step effect ⟨i :: rest, callers, s⟩ =
      some (e, ⟨(flow.apply rest callers).1, (flow.apply rest callers).2, t⟩) := by
  -- the second equation of the definition
  rw [step, h]
  rfl

theorem step_of_effect_none {i : ι} {s : σ} (h : effect i s = none) (rest : List ι)
    (callers : List (List ι)) : step effect ⟨i :: rest, callers, s⟩ = none := by
  rw [step, h]
  rfl

/-- A step does not look at the callers behind. -/
theorem step_under {c c' : Activation ι σ} {e : Option ε} (h : step effect c = some (e, c'))
    (others : List (List ι)) : step effect (c.under others) = some (e, c'.under others) := by
  obtain ⟨code, callers, s⟩ := c
  cases code with
  | nil =>
    cases callers with
    | nil => cases h
    | cons rest callers =>
      cases h
      rfl
  | cons i rest =>
    cases heffect : effect i s with
    | none =>
      rw [step_of_effect_none heffect] at h
      cases h
    | some r =>
      obtain ⟨e', t, flow⟩ := r
      rw [step_of_effect heffect] at h
      cases h
      show step effect ⟨i :: rest, callers ++ others, s⟩ = _
      rw [step_of_effect heffect, Flow.apply_append]
      rfl

end Activation

open Activation

variable {effect : ι → σ → Option (Option ε × σ × Flow ι)}

/-- **A run goes the same way with other callers behind.** -/
theorem Trace.append_callers {n : ℕ} {c c' : Activation ι σ} {es : List ε}
    (h : Trace (step effect) n c es c') (others : List (List ι)) :
    Trace (step effect) n (c.under others) es (c'.under others) := by
  -- induction on the run, a step at a time
  induction h with
  | refl c => exact .refl _
  | cons hstep hrest ih => exact .cons (step_under hstep others) ih

/-- **A run that comes to its end with other callers behind** comes to the end of its own code
first. -/
theorem Trace.split_callers {n : ℕ} {c d : Activation ι σ} {others : List (List ι)} {es : List ε}
    (h : Trace (step effect) n (c.under others) es d) (hd : d.Halted) :
    ∃ m k es₁ es₂ t, Trace (step effect) m c es₁ ⟨[], [], t⟩ ∧
      Trace (step effect) k ⟨[], others, t⟩ es₂ d ∧ es = es₁ ++ es₂ := by
  generalize hc : c.under others = a at h
  induction h generalizing c with
  | refl a =>
    -- there is no code left, and there are no callers
    subst hc
    obtain ⟨code, callers, s⟩ := c
    obtain ⟨hcode, hcallers⟩ := hd
    obtain ⟨hown, hothers⟩ := List.append_eq_nil_iff.mp hcallers
    subst hothers
    obtain rfl : code = [] := hcode
    obtain rfl : callers = [] := hown
    exact ⟨0, 0, [], [], s, .refl _, .refl _, rfl⟩
  | @cons n a a' d e es hstep hrest ih =>
    subst hc
    cases hown : step effect c with
    | some r =>
      -- a step in the code itself
      obtain ⟨e', c'⟩ := r
      have hunder := step_under hown others
      rw [hstep] at hunder
      cases hunder
      obtain ⟨m, k, es₁, es₂, t, hfirst, hsecond, rfl⟩ := ih hd rfl
      exact ⟨m + 1, k, _, es₂, t, .cons hown hfirst, hsecond, (List.append_assoc _ _ _).symm⟩
    | none =>
      -- the code itself is at its end, or it could not take a step with the others behind either
      obtain ⟨code, callers, s⟩ := c
      cases code with
      | nil =>
        cases callers with
        | nil => exact ⟨0, n + 1, [], _, s, .refl _, .cons hstep hrest, rfl⟩
        | cons rest callers => cases hown
      | cons i rest =>
        cases heffect : effect i s with
        | none =>
          have hnone := step_of_effect_none heffect rest (callers ++ others)
          rw [show (⟨i :: rest, callers ++ others, s⟩ : Activation ι σ) =
            Activation.under ⟨i :: rest, callers, s⟩ others from rfl, hstep] at hnone
          cases hnone
        | some r =>
          obtain ⟨e', t, flow⟩ := r
          rw [step_of_effect heffect] at hown
          cases hown

/-! ### Code that may be left out -/

variable (effect)

/-- The code comes to its end, and nothing is seen. -/
def Returns (code : List ι) (s t : σ) : Prop :=
  ∃ n, Trace (step effect) n ⟨code, [], s⟩ [] ⟨[], [], t⟩

/-- No run tells the states apart. -/
def Alike (c d : Activation ι σ) : Prop :=
  (∀ es, Sees (step effect) c es ↔ Sees (step effect) d es) ∧
    ∀ es u, Stops (step effect) c es u ↔ Stops (step effect) d es u

variable {effect}

theorem Alike.refl (c : Activation ι σ) : Alike effect c c :=
  ⟨fun _ => Iff.rfl, fun _ _ => Iff.rfl⟩

theorem Alike.symm {c d : Activation ι σ} (h : Alike effect c d) : Alike effect d c :=
  ⟨fun es => (h.1 es).symm, fun es u => (h.2 es u).symm⟩

theorem Alike.trans {c d a : Activation ι σ} (h : Alike effect c d) (h' : Alike effect d a) :
    Alike effect c a :=
  ⟨fun es => (h.1 es).trans (h'.1 es), fun es u => (h.2 es u).trans (h'.2 es u)⟩

/-- Silent steps do not show. -/
theorem Alike.of_trace {n : ℕ} {c d : Activation ι σ} (h : Trace (step effect) n c [] d) :
    Alike effect c d := by
  refine ⟨fun es => ⟨?_, ?_⟩, fun es u => ⟨?_, ?_⟩⟩
  · -- a run that ends before the silent steps do has shown nothing
    rintro ⟨k, u, hrun⟩
    rcases h.split hrun with ⟨-, rfl, -⟩ | ⟨k, -, htail⟩
    · exact ⟨0, d, .refl d⟩
    · exact ⟨k, u, htail⟩
  · rintro ⟨k, u, hrun⟩
    exact ⟨n + k, u, h.silent_append hrun⟩
  · -- a run that has stopped has taken the silent steps
    rintro ⟨k, hrun, hu⟩
    rcases h.split hrun with ⟨-, -, hne⟩ | ⟨k, -, htail⟩
    · exact absurd hu hne
    · exact ⟨k, htail, hu⟩
  · rintro ⟨k, hrun, hu⟩
    exact ⟨n + k, h.silent_append hrun, hu⟩

/-- Silent code that has been called gives control back. -/
theorem Returns.trace {code : List ι} {s t : σ} (h : Returns effect code s t) (rest : List ι)
    (callers : List (List ι)) :
    ∃ n, Trace (step effect) n ⟨code, rest :: callers, s⟩ [] ⟨rest, callers, t⟩ := by
  -- its own run, and the step back
  obtain ⟨n, hrun⟩ := h
  have hback : step effect ⟨[], rest :: callers, t⟩ = some (none, ⟨rest, callers, t⟩) := rfl
  exact ⟨_, (hrun.append_callers (rest :: callers)).silent_append (Trace.silent hback (.refl _))⟩

/-- A state that is like one that has come to its end comes to the same end silently. -/
theorem Alike.exists_trace {c : Activation ι σ} {t : σ} (h : Alike effect c ⟨[], [], t⟩) :
    ∃ n, Trace (step effect) n c [] ⟨[], [], t⟩ := by
  obtain ⟨n, hrun, -⟩ := (h.2 [] ⟨[], [], t⟩).mpr ⟨0, .refl _, rfl⟩
  exact ⟨n, hrun⟩

/-- Called with nothing left to do behind, silent code that comes to its end gives control back. -/
theorem Returns.of_trace {code : List ι} {s t : σ} {n : ℕ}
    (h : Trace (step effect) n ⟨code, [[]], s⟩ [] ⟨[], [], t⟩) : Returns effect code s t := by
  obtain ⟨m, k, es₁, es₂, u, hfirst, hsecond, hes⟩ :=
    Trace.split_callers (c := ⟨code, [], s⟩) h ⟨rfl, rfl⟩
  obtain ⟨rfl, rfl⟩ := List.append_eq_nil_iff.mp hes.symm
  -- what is behind is the step back, which keeps the state
  have hback : Trace (step effect) 1 ⟨[], [[]], u⟩ [] ⟨[], [], u⟩ := Trace.silent rfl (.refl _)
  have hend : step effect ⟨[], [], t⟩ = none := rfl
  rcases hback.split hsecond with ⟨-, -, hne⟩ | ⟨j, -, htail⟩
  · exact absurd hend hne
  · obtain ⟨hu, -⟩ := htail.of_none rfl
    cases hu
    exact ⟨m, hfirst⟩

/-- **The code that may be left out**: whoever calls it, the call cannot be told from going on, if
and only if it gives control back silently with the state that it was called with. -/
theorem alike_iff_returns {code : List ι} {s : σ} :
    (∀ rest callers, Alike effect ⟨code, rest :: callers, s⟩ ⟨rest, callers, s⟩) ↔
      Returns effect code s s := by
  constructor
  · intro h
    -- a caller with nothing left to do
    obtain ⟨n, hrun⟩ := (h [] []).exists_trace
    exact .of_trace hrun
  · intro h rest callers
    obtain ⟨n, hrun⟩ := h.trace rest callers
    exact .of_trace hrun

end Callers

end TVMCompiler.Lib
