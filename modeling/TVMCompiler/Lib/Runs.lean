import Mathlib.Data.List.Nodup

/-!
# Runs of a machine

A machine takes each event, in the state it finds, to the next state. A partial machine may have
none.

## Main definitions

* `run`: the state after a list of events
* `Along`: a condition on every step of a run
* `outputs`: what the steps of a run put out
* `AlongM`: a condition on every step of a run of a partial machine

## Main results

* `Along.inv`: a property that every step under the condition keeps holds after the run
* `Along.nodup_outputs`: what is spent from the step on that puts it out is put out once
-/

namespace TVMCompiler.Lib

section Runs

variable {σ ε α : Type*}

def run (step : ε → σ → σ) (s : σ) (es : List ε) : σ := es.foldl (fun s e => step e s) s

def Along (step : ε → σ → σ) (P : ε → σ → Prop) : σ → List ε → Prop
  | _, [] => True
  | s, e :: es => P e s ∧ Along step P (step e s) es

instance decidableAlong (step : ε → σ → σ) (P : ε → σ → Prop) [∀ e s, Decidable (P e s)] :
    ∀ s es, Decidable (Along step P s es)
  | _, [] => instDecidableTrue
  | s, e :: es =>
    have := decidableAlong step P (step e s) es
    instDecidableAnd

def outputs (step : ε → σ → σ) (out : ε → σ → Option α) : σ → List ε → List α
  | _, [] => []
  | s, e :: es => (out e s).toList ++ outputs step out (step e s) es

variable {step : ε → σ → σ} {P Q : ε → σ → Prop} {Inv : σ → Prop} {s : σ} {es : List ε}

theorem Along.and (hp : Along step P s es) (hq : Along step Q s es) :
    Along step (fun e s => P e s ∧ Q e s) s es := by
  induction es generalizing s with
  | nil => trivial
  | cons e es ih => exact ⟨⟨hp.1, hq.1⟩, ih hp.2 hq.2⟩

theorem Along.inv (hstep : ∀ e s, P e s → Inv s → Inv (step e s)) (hrun : Along step P s es)
    (hs : Inv s) : Inv (run step s es) := by
  induction es generalizing s with
  | nil => exact hs
  | cons e es ih => exact ih hrun.2 (hstep e s hrun.1 hs)

variable {out : ε → σ → Option α} {Spent : α → σ → Prop}

/-- What is spent before a run is not put out in the run. -/
theorem Along.notMem_outputs (hstep : ∀ e s, P e s → Inv s → Inv (step e s))
    (hout : ∀ e s a, Inv s → out e s = some a → ¬ Spent a s)
    (hspent : ∀ e s a, Spent a s → Spent a (step e s))
    (hrun : Along step P s es) (hs : Inv s) {a : α} (ha : Spent a s) :
    a ∉ outputs step out s es := by
  induction es generalizing s with
  | nil => exact List.not_mem_nil
  | cons e es ih =>
    intro hmem
    rcases List.mem_append.mp hmem with hnow | hlater
    · exact hout e s a hs (Option.mem_toList.mp hnow) ha
    · exact ih hrun.2 (hstep e s hrun.1 hs) (hspent e s a ha) hlater

theorem Along.nodup_outputs (hstep : ∀ e s, P e s → Inv s → Inv (step e s))
    (hout : ∀ e s a, Inv s → out e s = some a → ¬ Spent a s)
    (hnow : ∀ e s a, Inv s → out e s = some a → Spent a (step e s))
    (hspent : ∀ e s a, Spent a s → Spent a (step e s))
    (hrun : Along step P s es) (hs : Inv s) : (outputs step out s es).Nodup := by
  induction es generalizing s with
  | nil => exact List.nodup_nil
  | cons e es ih =>
    have hlater := ih hrun.2 (hstep e s hrun.1 hs)
    rw [outputs]
    cases ha : out e s with
    | none => exact hlater
    | some a =>
      have hnot := hrun.2.notMem_outputs hstep hout hspent (hstep e s hrun.1 hs)
        (hnow e s a hs ha)
      exact List.nodup_cons.mpr ⟨hnot, hlater⟩

/-! ## Partial machines -/

/-- A condition on every step up to the first one that is undefined. -/
def AlongM (step : σ → ε → Option σ) (P : ε → σ → Prop) : σ → List ε → Prop
  | _, [] => True
  | s, e :: es => P e s ∧ ∀ s', step s e = some s' → AlongM step P s' es

variable {stepM : σ → ε → Option σ}

theorem AlongM.and_inv (hstep : ∀ e s s', P e s → Inv s → stepM s e = some s' → Inv s')
    (hrun : AlongM stepM P s es) (hs : Inv s) : AlongM stepM (fun e s => P e s ∧ Inv s) s es := by
  induction es generalizing s with
  | nil => trivial
  | cons e es ih => exact ⟨⟨hrun.1, hs⟩, fun s' h => ih (hrun.2 s' h) (hstep e s s' hrun.1 hs h)⟩

theorem AlongM.imp (himp : ∀ e s, P e s → Q e s) (hrun : AlongM stepM P s es) :
    AlongM stepM Q s es := by
  induction es generalizing s with
  | nil => trivial
  | cons e es ih => exact ⟨himp e s hrun.1, fun s' h => ih (hrun.2 s' h)⟩

theorem AlongM.left {es' : List ε} (hrun : AlongM stepM P s (es ++ es')) : AlongM stepM P s es := by
  induction es generalizing s with
  | nil => trivial
  | cons e es ih => exact ⟨hrun.1, fun s' h => ih (hrun.2 s' h)⟩

/-- The condition at a step that a run comes to. -/
theorem AlongM.at {pre post : List ε} {e : ε} (hrun : AlongM stepM P s (pre ++ e :: post)) {s' : σ}
    (h : pre.foldlM stepM s = some s') : P e s' := by
  induction pre generalizing s with
  | nil =>
    cases h
    exact hrun.1
  | cons d pre ih =>
    obtain ⟨s₁, hstep, hrest⟩ := Option.bind_eq_some_iff.mp h
    exact ih (hrun.2 s₁ hstep) hrest

/-- A property that every step keeps holds after a run. -/
theorem foldlM_inv (hstep : ∀ e s s', Inv s → stepM s e = some s' → Inv s') {s s' : σ} (hs : Inv s)
    (h : es.foldlM stepM s = some s') : Inv s' := by
  induction es generalizing s with
  | nil =>
    cases h
    exact hs
  | cons e es ih =>
    obtain ⟨s₁, hfirst, hrest⟩ := Option.bind_eq_some_iff.mp h
    exact ih (hstep e s s₁ hs hfirst) hrest

end Runs

end TVMCompiler.Lib
