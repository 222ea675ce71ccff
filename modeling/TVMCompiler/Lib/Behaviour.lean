import Mathlib.Data.Nat.Notation
import Mathlib.Data.Sum.Basic
import Mathlib.Logic.Relation
import Mathlib.Tactic.Choose

/-!
# Behaviours of machines

A step of a machine leads to a state or ends the run with an outcome. A machine refines another one
if whatever it does the other one may do as well, that is to end with an outcome or to run forever.

## Main definitions

* `Ends`, `Diverges`: the behaviours from a state
* `Refines`: every behaviour of the second machine is one of the first
* `Matches`: a step of the second machine has a related one of the first

## Main results

* `Matches.refines`: related states refine one another, where reachable states are related
* `Refines.exists_ends`: where the first machine cannot run forever the second one ends
-/

namespace TVMCompiler.Lib

section Behaviour

variable {σ τ ω : Type*}

inductive Ends (Step : σ → σ ⊕ ω → Prop) : σ → ω → Prop where
  | last {s : σ} {w : ω} (hstep : Step s (.inr w)) : Ends Step s w
  | step {s s' : σ} {w : ω} (hstep : Step s (.inl s')) (hrest : Ends Step s' w) : Ends Step s w

def Diverges (Step : σ → σ ⊕ ω → Prop) (s : σ) : Prop :=
  ∃ run : ℕ → σ, run 0 = s ∧ ∀ n, Step (run n) (.inl (run (n + 1)))

/-- Some run leads from one state to the other. -/
def Leads (Step : σ → σ ⊕ ω → Prop) : σ → σ → Prop :=
  Relation.ReflTransGen fun s s' => Step s (.inl s')

/-- Whatever the second machine does from its state, the first one may do from its own. -/
def Refines (Step : σ → σ ⊕ ω → Prop) (Step' : τ → τ ⊕ ω → Prop) (s : σ) (t : τ) : Prop :=
  (∀ w, Ends Step' t w → Ends Step s w) ∧ (Diverges Step' t → Diverges Step s)

/-- From related states, the first of which can be reached from `s₀`, a step of the second machine
has a step of the first to related states, or with the same outcome. -/
def Matches (Step : σ → σ ⊕ ω → Prop) (Step' : τ → τ ⊕ ω → Prop) (R : σ → τ → Prop) (s₀ : σ) :
    Prop :=
  ∀ s t, Leads Step s₀ s → R s t → ∀ o', Step' t o' → ∃ o, Step s o ∧ Sum.LiftRel R Eq o o'

variable {Step : σ → σ ⊕ ω → Prop} {Step' : τ → τ ⊕ ω → Prop} {R : σ → τ → Prop} {s₀ s : σ} {t : τ}

theorem Leads.snoc {s' : σ} (h : Leads Step s₀ s) (hstep : Step s (.inl s')) : Leads Step s₀ s' :=
  h.tail hstep

theorem Matches.exists_step (hmatch : Matches Step Step' R s₀) (hs : Leads Step s₀ s) (h : R s t)
    {t' : τ} (hstep : Step' t (.inl t')) : ∃ s', Step s (.inl s') ∧ R s' t' := by
  obtain ⟨o, ho, hrel⟩ := hmatch s t hs h _ hstep
  cases hrel with
  | inl hnext => exact ⟨_, ho, hnext⟩

theorem Matches.ends (hmatch : Matches Step Step' R s₀) {w : ω} (hend : Ends Step' t w)
    (hs : Leads Step s₀ s) (h : R s t) : Ends Step s w := by
  induction hend generalizing s with
  | last hstep =>
    obtain ⟨o, ho, hrel⟩ := hmatch s _ hs h _ hstep
    cases hrel with
    | inr heq => exact .last (heq ▸ ho)
  | step hstep _ ih =>
    obtain ⟨s', hs', hnext⟩ := hmatch.exists_step hs h hstep
    exact .step hs' (ih (hs.snoc hs') hnext)

/-- The steps of the first machine are chosen one after the other. -/
theorem Matches.diverges (hmatch : Matches Step Step' R s₀) (hdiv : Diverges Step' t)
    (hs : Leads Step s₀ s) (h : R s t) : Diverges Step s := by
  obtain ⟨run, rfl, hrun⟩ := hdiv
  have hnext (n : ℕ) (x : {s : σ // Leads Step s₀ s ∧ R s (run n)}) :
      ∃ y : {s : σ // Leads Step s₀ s ∧ R s (run (n + 1))}, Step x.1 (.inl y.1) := by
    obtain ⟨s', hs', hrel⟩ := hmatch.exists_step x.2.1 x.2.2 (hrun n)
    exact ⟨⟨s', x.2.1.snoc hs', hrel⟩, hs'⟩
  choose next hnext using hnext
  let states (n : ℕ) : {s : σ // Leads Step s₀ s ∧ R s (run n)} := Nat.rec ⟨s, hs, h⟩ next n
  exact ⟨fun n => (states n).1, rfl, fun n => hnext n (states n)⟩

/-- **A machine whose steps are matched refines the other one.** -/
theorem Matches.refines (hmatch : Matches Step Step' R s₀) (h : R s₀ t) :
    Refines Step Step' s₀ t :=
  ⟨fun _ hend => hmatch.ends hend .refl h, fun hdiv => hmatch.diverges hdiv .refl h⟩

/-- A machine that always takes a step ends or runs forever. -/
theorem ends_or_diverges (htotal : ∀ s, ∃ o, Step s o) (s : σ) :
    (∃ w, Ends Step s w) ∨ Diverges Step s := by
  by_cases hend : ∃ w, Ends Step s w
  · exact Or.inl hend
  · have hnext (x : {s : σ // ¬∃ w, Ends Step s w}) :
        ∃ y : {s : σ // ¬∃ w, Ends Step s w}, Step x.1 (.inl y.1) := by
      obtain ⟨o, ho⟩ := htotal x.1
      cases o with
      | inl s' => exact ⟨⟨s', fun ⟨w, hw⟩ => x.2 ⟨w, .step ho hw⟩⟩, ho⟩
      | inr w => exact absurd ⟨w, .last ho⟩ x.2
    choose next hnext using hnext
    let states (n : ℕ) : {s : σ // ¬∃ w, Ends Step s w} := Nat.rec ⟨s, hend⟩ (fun _ => next) n
    exact Or.inr ⟨fun n => (states n).1, rfl, fun n => hnext (states n)⟩

/-- **Where the first machine cannot run forever the second one ends**, as the first one may. -/
theorem Refines.exists_ends (h : Refines Step Step' s t) (htotal : ∀ t, ∃ o, Step' t o)
    (hs : ¬Diverges Step s) : ∃ w, Ends Step' t w ∧ Ends Step s w := by
  rcases ends_or_diverges htotal t with ⟨w, hw⟩ | hdiv
  · exact ⟨w, hw, h.1 w hw⟩
  · exact absurd (h.2 hdiv) hs

end Behaviour

end TVMCompiler.Lib
