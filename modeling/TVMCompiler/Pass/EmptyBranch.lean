import TVMCompiler.Machine.BranchForm

/-!
# Empty branches

`TVMPeephole` drops the branches of an `IFELSE` whose block is empty. A block without code is
empty, also if it falls through to other blocks, which are a part of the continuation. Without its
`IFELSE` at the end, the block itself falls through as well.

## Main definitions

* `isContinuationEmpty`, `runIfElseEmptyBranchRemoving`: the pass
* `Inert`, `NoCode`: the continuation does nothing, or has no code
* `Preserves`: what is executed stays the same
* `DropsEmpty`: what is asked of the function before the pass
* `Rewritten`: code before and after the pass

## Main results

* `kept_alike_iff`: the `IFELSE` and what is left of it
* `expand_rewritten`: a continuation before and after the pass
* `advances`: the executions go in step
* `runIfElseEmptyBranchRemoving_preserves`: when the pass preserves execution
-/

namespace TVMCompiler

open Lib BranchFunction
open StackFunction (Control Event)

variable {Block Data : Type}

namespace EmptyBranch

/-! ## The pass -/

def isContinuationEmpty : List (BranchInstr Block) → Bool
  | [] => true
  | [.FALLTHROUGH_RETURN] => true
  | _ => false

/-- The push of a continuation. -/
abbrev pushcont (bb : Block) : BranchInstr Block := .stack (.PUSHCONT_MBB_S bb)

/-- `TVMPeephole::runIfElseEmptyBranchRemoving`, for the instructions before the iterator and those
from it on. -/
def runIfElseEmptyBranchRemoving (f : BranchFunction Block) (before : List (BranchInstr Block)) :
    List (BranchInstr Block) → Option (List (BranchInstr Block) × List (BranchInstr Block))
  | .stack (.PUSHCONT_MBB_S contA) :: .stack (.PUSHCONT_MBB_S contB) :: .IFELSE_S :: rest =>
    if isContinuationEmpty (f.code contA) && isContinuationEmpty (f.code contB) then
      -- the iterator moves behind the `IFELSE`
      some (before ++ [.stack (.POP 0)], rest)
    else if isContinuationEmpty (f.code contA) then
      some (before, pushcont contB :: .IFNOT_S :: rest)
    else if isContinuationEmpty (f.code contB) then
      some (before, pushcont contA :: .IF_S :: rest)
    else none
  | _ => none

/-- The instructions that the pass looks for. -/
def branch (contA contB : Block) : List (BranchInstr Block) :=
  [pushcont contA, pushcont contB, .IFELSE_S]

/-- What is left of them when some of the branches are dropped. -/
def kept : Bool → Bool → Block → Block → List (BranchInstr Block)
  | true, true, _, _ => [.stack (.POP 0)]
  | true, false, _, contB => [pushcont contB, .IFNOT_S]
  | false, true, contA, _ => [pushcont contA, .IF_S]
  | false, false, contA, contB => branch contA contB

theorem runIfElseEmptyBranchRemoving_eq_some {f : BranchFunction Block}
    {before code before' code' : List (BranchInstr Block)}
    (h : runIfElseEmptyBranchRemoving f before code = some (before', code')) :
    ∃ contA contB rest, code = branch contA contB ++ rest ∧
      before' ++ code' = before ++ (kept (isContinuationEmpty (f.code contA))
        (isContinuationEmpty (f.code contB)) contA contB ++ rest) := by
  unfold runIfElseEmptyBranchRemoving at h
  split at h
  · rename_i contA contB rest
    refine ⟨contA, contB, rest, rfl, ?_⟩
    -- one case for each of the branches that are empty
    cases hA : isContinuationEmpty (f.code contA) <;> cases hB : isContinuationEmpty (f.code contB)
    · rw [hA, hB] at h
      cases h
    · rw [hA, hB] at h
      cases h
      rfl
    · rw [hA, hB] at h
      cases h
      rfl
    · rw [hA, hB] at h
      cases h
      exact List.append_assoc _ _ _
  · cases h

/-! ## What is left of a branch -/

variable [DecidableEq Block]

section Local

variable (f : BranchFunction Block) (sem : Semantics Block Data)
  {dropA dropB : Bool} (contA contB : Block)

/-- The continuation does nothing. -/
def Inert (bb : Block) : Prop :=
  ∀ (Data : Type) (sem : Semantics Block Data) (s : List (Value Block Data)),
    Returns (f.effect sem) (f.expand bb) s s

/-- The block and those that it falls through to have no code but the return at the end. -/
def NoCode (bb : Block) : Prop := ∀ i ∈ f.expand bb, i = .FALLTHROUGH_RETURN

/-- The instructions that are not modelled are not defined. -/
abbrev onlyModelled (Block : Type) : Semantics Block Unit := ⟨(), fun _ _ => none⟩

/-- The first instruction of the block and those that it falls through to is one that an empty
stack is enough for, and that is not seen. -/
def BeginsOnEmptyStack (bb : Block) : Prop :=
  ∃ i, (f.expand bb).find? (fun i => i ≠ .FALLTHROUGH_RETURN) = some i ∧
    (BranchFunction.control (onlyModelled Block) i []).isSome

/-- Whether the branch that the condition selects is dropped. -/
def dropped (dropA dropB : Bool) (v : ℤ) : Bool := if v ≠ 0 then dropA else dropB

variable {f sem} in
theorem silent_step {i : BranchInstr Block} {s t : List (Value Block Data)} {ctl : Control Block}
    (h : BranchFunction.control sem i s = some (none, t, ctl)) (rest : List (BranchInstr Block))
    (callers : List (List (BranchInstr Block))) :
    f.step sem ⟨i :: rest, callers, s⟩ =
      some (none, ⟨((f.flow ctl).apply rest callers).1, ((f.flow ctl).apply rest callers).2, t⟩) :=
  Activation.step_of_effect (effect_of_control h) rest callers

theorem trace_branch (v : ℤ) (s : List (Value Block Data)) (rest : List (BranchInstr Block))
    (callers : List (List (BranchInstr Block))) :
    Trace (f.step sem) 3 ⟨branch contA contB ++ rest, callers, .int v :: s⟩ []
      ⟨f.expand (if v ≠ 0 then contA else contB), rest :: callers, s⟩ :=
  Trace.silent rfl (Trace.silent rfl (Trace.silent rfl (.refl _)))

/-- Where the branch is dropped, control goes on. -/
theorem trace_kept_dropped {v : ℤ} (hv : dropped dropA dropB v = true)
    (s : List (Value Block Data)) (rest : List (BranchInstr Block))
    (callers : List (List (BranchInstr Block))) :
    ∃ n, Trace (f.step sem) n ⟨kept dropA dropB contA contB ++ rest, callers, .int v :: s⟩ []
      ⟨rest, callers, s⟩ := by
  unfold dropped at hv
  split at hv
  · rename_i hne
    subst hv
    cases dropB with
    | true => exact ⟨1, Trace.silent rfl (.refl _)⟩
    | false =>
      have hcontrol : BranchFunction.control sem .IFNOT_S (.cont contB :: .int v :: s) =
          some (none, s, .next) := by
        rw [BranchFunction.control, if_pos hne]
      exact ⟨2, Trace.silent rfl (Trace.silent (silent_step hcontrol rest callers) (.refl _))⟩
  · rename_i hzero
    subst hv
    cases dropA with
    | true => exact ⟨1, Trace.silent rfl (.refl _)⟩
    | false =>
      have hcontrol : BranchFunction.control sem .IF_S (.cont contA :: .int v :: s) =
          some (none, s, .next) := by
        rw [BranchFunction.control, if_neg hzero]
      exact ⟨2, Trace.silent rfl (Trace.silent (silent_step hcontrol rest callers) (.refl _))⟩

/-- Where the branch is kept, it is called as before: the first step pushes a continuation. -/
theorem trace_kept_taken {v : ℤ} (hv : dropped dropA dropB v = false)
    (s : List (Value Block Data)) (rest : List (BranchInstr Block))
    (callers : List (List (BranchInstr Block))) :
    ∃ c n, f.step sem ⟨kept dropA dropB contA contB ++ rest, callers, .int v :: s⟩ =
        some (none, c) ∧
      Trace (f.step sem) n c [] ⟨f.expand (if v ≠ 0 then contA else contB), rest :: callers, s⟩ := by
  unfold dropped at hv
  split at hv
  · rename_i hne
    subst hv
    cases dropB with
    | false => exact ⟨_, 2, rfl, Trace.silent rfl (Trace.silent rfl (.refl _))⟩
    | true =>
      have hcontrol : BranchFunction.control sem .IF_S (.cont contA :: .int v :: s) =
          some (none, s, .call contA) := by
        rw [BranchFunction.control, if_pos hne]
      rw [if_pos hne]
      exact ⟨_, 1, rfl, Trace.silent (silent_step hcontrol rest callers) (.refl _)⟩
  · rename_i hzero
    subst hv
    cases dropA with
    | false => exact ⟨_, 2, rfl, Trace.silent rfl (Trace.silent rfl (.refl _))⟩
    | true =>
      have hcontrol : BranchFunction.control sem .IFNOT_S (.cont contB :: .int v :: s) =
          some (none, s, .call contB) := by
        rw [BranchFunction.control, if_neg hzero]
      rw [if_neg hzero]
      exact ⟨_, 1, rfl, Trace.silent (silent_step hcontrol rest callers) (.refl _)⟩

/-- **What is left of a branch**: no run tells it from the branch if and only if the continuations
that are dropped do nothing. -/
theorem kept_alike_iff (f : BranchFunction Block) (dropA dropB : Bool) (contA contB : Block) :
    (∀ (Data : Type) (sem : Semantics Block Data) (v : ℤ) (s : List (Value Block Data))
      (rest : List (BranchInstr Block)) (callers : List (List (BranchInstr Block))),
      Alike (f.effect sem) ⟨branch contA contB ++ rest, callers, .int v :: s⟩
        ⟨kept dropA dropB contA contB ++ rest, callers, .int v :: s⟩) ↔
    (dropA = true → Inert f contA) ∧ (dropB = true → Inert f contB) := by
  constructor
  · intro h
    -- a condition that selects the branch
    have hinert (v : ℤ) (hv : dropped dropA dropB v = true) :
        Inert f (if v ≠ 0 then contA else contB) := by
      intro Data sem s
      refine alike_iff_returns.mp fun rest callers => ?_
      obtain ⟨n, hkept⟩ := trace_kept_dropped f sem contA contB hv s rest callers
      have hbranch := trace_branch f sem contA contB v s rest callers
      exact (Alike.of_trace hbranch).symm.trans ((h Data sem v s rest callers).trans (.of_trace hkept))
    exact ⟨fun hA => hinert 1 hA, fun hB => hinert 0 hB⟩
  · rintro ⟨hA, hB⟩ Data sem v s rest callers
    refine (Alike.of_trace (trace_branch f sem contA contB v s rest callers)).trans ?_
    cases hv : dropped dropA dropB v with
    | false =>
      obtain ⟨c, n, hstep, hkept⟩ := trace_kept_taken f sem contA contB hv s
        rest callers
      exact (Alike.of_trace (Trace.silent hstep hkept)).symm
    | true =>
      obtain ⟨n, hkept⟩ := trace_kept_dropped f sem contA contB hv s rest callers
      refine Alike.trans ?_ (Alike.of_trace hkept).symm
      refine alike_iff_returns.mpr ?_ rest callers
      unfold dropped at hv
      split at hv
      · rename_i hne
        rw [if_pos hne]
        exact hA hv Data sem s
      · rename_i hzero
        rw [if_neg hzero]
        exact hB hv Data sem s

variable {f sem} in
theorem returns_of_noCode {code : List (BranchInstr Block)}
    (h : ∀ i ∈ code, i = .FALLTHROUGH_RETURN) (s : List (Value Block Data)) :
    Returns (f.effect sem) code s s := by
  induction code with
  | nil => exact ⟨0, .refl _⟩
  | cons i code ih =>
    obtain rfl := h i List.mem_cons_self
    obtain ⟨n, hrun⟩ := ih fun i hi => h i (List.mem_cons_of_mem _ hi)
    exact ⟨n + 1, Trace.silent rfl hrun⟩

variable {f} in
/-- Code that returns the empty stack has no instruction, or it begins with one that needs no slot
and cannot be seen. -/
theorem noCode_or_begins {code : List (BranchInstr Block)} {t : List (Value Block Unit)}
    (h : Returns (f.effect (onlyModelled Block)) code [] t) :
    (∀ i ∈ code, i = .FALLTHROUGH_RETURN) ∨
      ∃ i, code.find? (fun i => i ≠ .FALLTHROUGH_RETURN) = some i ∧
        (BranchFunction.control (onlyModelled Block) i []).isSome := by
  induction code with
  | nil => exact Or.inl nofun
  | cons i code ih =>
    obtain ⟨n, hrun⟩ := h
    by_cases hi : i = .FALLTHROUGH_RETURN
    · -- the return is passed silently
      subst hi
      have hpass : Trace (f.step (onlyModelled Block)) 1 ⟨.FALLTHROUGH_RETURN :: code, [], []⟩ []
          ⟨code, [], []⟩ := Trace.silent rfl (.refl _)
      rcases hpass.split hrun with ⟨-, -, hend⟩ | ⟨k, -, hrest⟩
      · exact absurd rfl hend
      rcases ih ⟨k, hrest⟩ with hall | ⟨i, hfind, hstart⟩
      · exact Or.inl (List.forall_mem_cons.mpr ⟨rfl, hall⟩)
      · exact Or.inr ⟨i, by rwa [List.find?_cons_of_neg (by simp)], hstart⟩
    · refine Or.inr ⟨i, List.find?_cons_of_pos (by simpa using hi), ?_⟩
      by_contra hnone
      have hstop := Activation.step_of_effect_none
        (effect_of_control_none (f := f) (Option.not_isSome_iff_eq_none.mp hnone)) code []
      obtain ⟨heq, -⟩ := hrun.of_none hstop
      cases heq

end Local

/-! ## The whole function -/

/-- In every run, an `IFELSE` finds a number for a condition. -/
def TypedConditions (f : BranchFunction Block) (sem : Semantics Block Data)
    (c : Point Block Data) : Prop :=
  ∀ n es rest callers elseBB thenBB x s, Trace (f.step sem) n c es
    ⟨.IFELSE_S :: rest, callers, .cont elseBB :: .cont thenBB :: x :: s⟩ → ∃ v, x = .int v

section Typed

variable {f : BranchFunction Block} {sem : Semantics Block Data} {c d : Point Block Data}

theorem TypedConditions.of_step (h : TypedConditions f sem c) {e : Option (Event Block Data)}
    (hstep : f.step sem c = some (e, d)) : TypedConditions f sem d :=
  fun n es rest callers elseBB thenBB x s hrun =>
    h (n + 1) (e.toList ++ es) rest callers elseBB thenBB x s (.cons hstep hrun)

theorem TypedConditions.of_trace (h : TypedConditions f sem c) {m : ℕ}
    (htrace : Trace (f.step sem) m c [] d) : TypedConditions f sem d :=
  fun n es rest callers elseBB thenBB x s hrun =>
    h (m + n) es rest callers elseBB thenBB x s (htrace.silent_append hrun)

/-- The condition of a branch is a number. -/
theorem TypedConditions.condition {contA contB : Block} {rest : List (BranchInstr Block)}
    {callers : List (List (BranchInstr Block))} {x : Value Block Data}
    {s : List (Value Block Data)}
    (h : TypedConditions f sem ⟨branch contA contB ++ rest, callers, x :: s⟩) :
    ∃ v, x = .int v :=
  h 2 [] rest callers contB contA x s (Trace.silent rfl (Trace.silent rfl (.refl _)))

end Typed

/-- Without a condition neither a branch nor what is left of it can be executed. -/
theorem kept_stuck (f : BranchFunction Block) (sem : Semantics Block Data) (dropA dropB : Bool)
    (contA contB : Block) (rest : List (BranchInstr Block))
    (callers : List (List (BranchInstr Block))) :
    ∃ n c, Trace (f.step sem) n ⟨kept dropA dropB contA contB ++ rest, callers, []⟩ [] c ∧
      f.step sem c = none ∧ c.code ≠ [] := by
  cases dropA with
  | true =>
    cases dropB with
    | true => exact ⟨0, _, .refl _, rfl, List.cons_ne_nil _ _⟩
    | false => exact ⟨1, _, Trace.silent rfl (.refl _), rfl, List.cons_ne_nil _ _⟩
  | false =>
    cases dropB with
    | true => exact ⟨1, _, Trace.silent rfl (.refl _), rfl, List.cons_ne_nil _ _⟩
    | false =>
      exact ⟨2, _, Trace.silent rfl (Trace.silent rfl (.refl _)), rfl, List.cons_ne_nil _ _⟩

/-- Two functions, of which the second has what is left of a branch where the first has the branch.
What is dropped does nothing. -/
structure Removal (Block Data : Type) [DecidableEq Block] where
  before : BranchFunction Block
  after : BranchFunction Block
  sem : Semantics Block Data
  dropA : Bool
  dropB : Bool
  contA : Block
  contB : Block
  returns : ∀ v, dropped dropA dropB v = true → ∀ s,
    Returns (before.effect sem) (before.expand (if v ≠ 0 then contA else contB)) s s

namespace Removal

variable (r : Removal Block Data)

/-- Code before and after the pass. Where it comes to its end it may go on, if nothing is done
there. -/
inductive Rewritten : List (BranchInstr Block) → List (BranchInstr Block) → Prop where
  | nil : Rewritten [] []
  | cons (i : BranchInstr Block) {c c' : List (BranchInstr Block)} (h : Rewritten c c') :
    Rewritten (i :: c) (i :: c')
  | replaced {c c' : List (BranchInstr Block)} (h : Rewritten c c') :
    Rewritten (branch r.contA r.contB ++ c) (kept r.dropA r.dropB r.contA r.contB ++ c')
  | behind {c' : List (BranchInstr Block)} (h : ∀ s, Returns (r.after.effect r.sem) c' s s) :
    Rewritten [] c'

/-- The executions before and after the pass: at the same instruction, at the end of the code, at a
branch that is kept, or both at an instruction that is not defined on the stack. -/
inductive Aligned : Point Block Data → Point Block Data → Prop where
  | next {i : BranchInstr Block} {c c' : List (BranchInstr Block)}
      {callers callers' : List (List (BranchInstr Block))} {s : List (Value Block Data)}
      (hc : r.Rewritten c c') (hcallers : List.Forall₂ r.Rewritten callers callers') :
      Aligned ⟨i :: c, callers, s⟩ ⟨i :: c', callers', s⟩
  | ret {callers callers' : List (List (BranchInstr Block))} {s : List (Value Block Data)}
      (hcallers : List.Forall₂ r.Rewritten callers callers') :
      Aligned ⟨[], callers, s⟩ ⟨[], callers', s⟩
  | taken {v : ℤ} {c c' : List (BranchInstr Block)}
      {callers callers' : List (List (BranchInstr Block))} {s : List (Value Block Data)}
      (hv : dropped r.dropA r.dropB v = false) (hc : r.Rewritten c c')
      (hcallers : List.Forall₂ r.Rewritten callers callers') :
      Aligned ⟨branch r.contA r.contB ++ c, callers, .int v :: s⟩
        ⟨kept r.dropA r.dropB r.contA r.contB ++ c', callers', .int v :: s⟩
  | stuck {a a' : Point Block Data} (ha : r.before.step r.sem a = none)
      (ha' : r.after.step r.sem a' = none) (hcode : a.code ≠ []) (hcode' : a'.code ≠ []) :
      Aligned a a'

def Lock (a a' : Point Block Data) : Prop := TypedConditions r.before r.sem a ∧ r.Aligned a a'

/-- Stopped executions that are at their end have the same stack. -/
def SameEnd (a a' : Point Block Data) : Prop :=
  (a.Halted ↔ a'.Halted) ∧ (a.Halted → a.state = a'.state)

variable {r}

theorem Rewritten.refl (c : List (BranchInstr Block)) : r.Rewritten c c := by
  induction c with
  | nil => exact .nil
  | cons i c ih => exact .cons i ih

theorem Rewritten.append {c c' : List (BranchInstr Block)} (h : r.Rewritten c c')
    (u : List (BranchInstr Block)) : r.Rewritten (u ++ c) (u ++ c') := by
  induction u with
  | nil => exact h
  | cons i u ih => exact .cons i ih

/-- A branch that is dropped gives control back. -/
theorem trace_branch_dropped {v : ℤ} (hv : dropped r.dropA r.dropB v = true)
    (s : List (Value Block Data)) (rest : List (BranchInstr Block))
    (callers : List (List (BranchInstr Block))) :
    ∃ n, Trace (r.before.step r.sem) n
      ⟨branch r.contA r.contB ++ rest, callers, .int v :: s⟩ [] ⟨rest, callers, s⟩ := by
  obtain ⟨n, hreturns⟩ := (r.returns v hv s).trace rest callers
  exact ⟨3 + n, (trace_branch r.before r.sem r.contA r.contB v s rest callers).silent_append
    hreturns⟩

/-- **From related code the executions go in step**, by induction on the relation: the branches that
are dropped are passed in front of an instruction. -/
theorem Rewritten.inStep {c c' : List (BranchInstr Block)} (hc : r.Rewritten c c')
    {callers callers' : List (List (BranchInstr Block))}
    (hcallers : List.Forall₂ r.Rewritten callers callers') (s : List (Value Block Data))
    (htyped : TypedConditions r.before r.sem ⟨c, callers, s⟩) :
    InStep (r.before.step r.sem) (r.after.step r.sem) r.Lock ⟨c, callers, s⟩
      ⟨c', callers', s⟩ := by
  induction hc generalizing s with
  | nil => exact .of_lock ⟨htyped, .ret hcallers⟩
  | cons i hc ih => exact .of_lock ⟨htyped, .next hc hcallers⟩
  | @replaced c c' hc ih =>
    cases s with
    | nil =>
      obtain ⟨m, a, hrun, ha, hcode⟩ := kept_stuck r.before r.sem false false r.contA r.contB c
        callers
      obtain ⟨n, a', hrun', ha', hcode'⟩ := kept_stuck r.after r.sem r.dropA r.dropB r.contA r.contB
        c' callers'
      exact ⟨m, n, a, a', hrun, hrun', htyped.of_trace hrun, .stuck ha ha' hcode hcode'⟩
    | cons x s =>
      obtain ⟨v, rfl⟩ := htyped.condition
      cases hv : dropped r.dropA r.dropB v with
      | false => exact .of_lock ⟨htyped, .taken hv hc hcallers⟩
      | true =>
        -- the branch does nothing, and what is left of it passes it
        obtain ⟨m, hbranch⟩ := trace_branch_dropped hv s c callers
        obtain ⟨n, hkept⟩ := trace_kept_dropped r.after r.sem r.contA r.contB hv s c' callers'
        exact (ih s (htyped.of_trace hbranch)).prepend hbranch hkept
  | behind hreturns =>
    obtain ⟨n, hrun⟩ := hreturns s
    exact ⟨0, n, _, _, .refl _, hrun.append_callers callers', htyped, .ret hcallers⟩

/-- **One step keeps the executions in step.** -/
theorem advances (hexpand : ∀ bb, r.Rewritten (r.before.expand bb) (r.after.expand bb)) :
    Advances (r.before.step r.sem) (r.after.step r.sem) r.Lock SameEnd := by
  rintro a a' ⟨htyped, haligned⟩
  cases haligned with
  | stuck ha ha' hcode hcode' =>
    exact Or.inl ⟨ha, ha', iff_of_false (fun h => hcode h.1) fun h => hcode' h.1,
      fun h => absurd h.1 hcode⟩
  | @ret callers callers' s hcallers =>
    cases hcallers with
    | nil => exact Or.inl ⟨rfl, rfl, Iff.rfl, fun _ => rfl⟩
    | cons hrest hcallers =>
      exact Or.inr ⟨none, _, _, rfl, rfl, hrest.inStep hcallers s (htyped.of_step rfl)⟩
  | @taken v c c' callers callers' s hv hc hcallers =>
    -- both push a continuation, and come to the call silently
    have hnone : dropped false false v = false := ite_self false
    obtain ⟨d, m, hstep, hrun⟩ := trace_kept_taken r.before r.sem r.contA r.contB hnone s c callers
    obtain ⟨d', n, hstep', hrun'⟩ := trace_kept_taken r.after r.sem r.contA r.contB hv s c' callers'
    refine Or.inr ⟨none, d, d', hstep, hstep', InStep.prepend hrun hrun' ?_⟩
    exact (hexpand _).inStep (.cons hc hcallers) s ((htyped.of_step hstep).of_trace hrun)
  | @next i c c' callers callers' s hc hcallers =>
    cases hcontrol : BranchFunction.control r.sem i s with
    | none =>
      refine Or.inl ⟨Activation.step_of_effect_none (effect_of_control_none hcontrol) c callers,
        Activation.step_of_effect_none (effect_of_control_none hcontrol) c' callers', ?_, ?_⟩
      · exact iff_of_false (fun h => List.cons_ne_nil _ _ h.1) fun h => List.cons_ne_nil _ _ h.1
      · exact fun h => absurd h.1 (List.cons_ne_nil _ _)
    | some result =>
      obtain ⟨e, t, ctl⟩ := result
      have hstep := Activation.step_of_effect (effect_of_control (f := r.before) hcontrol) c callers
      have hstep' := Activation.step_of_effect (effect_of_control (f := r.after) hcontrol) c' callers'
      refine Or.inr ⟨e, _, _, hstep, hstep', ?_⟩
      have htyped' := htyped.of_step hstep
      -- where control goes the code is related, and so are the callers
      cases ctl with
      | next => exact hc.inStep hcallers t htyped'
      | jump bb => exact (hexpand bb).inStep hcallers t htyped'
      | call bb => exact (hexpand bb).inStep (.cons hc hcallers) t htyped'
      | ret => exact Rewritten.nil.inStep hcallers t htyped'

theorem sameExecution (hexpand : ∀ bb, r.Rewritten (r.before.expand bb) (r.after.expand bb))
    {bb : Block} {s : List (Value Block Data)}
    (htyped : TypedConditions r.before r.sem (r.before.start bb s)) :
    SameExecution r.sem r.before r.after bb s := by
  have hadv := advances hexpand
  have hstart : InStep (r.before.step r.sem) (r.after.step r.sem) r.Lock (r.before.start bb s)
      (r.after.start bb s) := (hexpand bb).inStep .nil s htyped
  refine ⟨fun es => hstart.sees_iff hadv es, fun es t => ⟨?_, ?_⟩⟩
  · rintro ⟨u, hu, hend, rfl⟩
    obtain ⟨v, hv, hhalted, hstate⟩ := hstart.exists_stops hadv hu
    exact ⟨v, hv, hhalted.mp hend, (hstate hend).symm⟩
  · rintro ⟨v, hv, hend, rfl⟩
    obtain ⟨u, hu, hhalted, hstate⟩ := hstart.symm.exists_stops hadv.symm hv
    exact ⟨u, hu, hhalted.mpr hend, hstate (hhalted.mpr hend)⟩

/-- **A continuation before and after the pass**: the branch has been replaced, where the
continuation comes to the block. -/
theorem expand_rewritten {bb : Block} {before rest : List (BranchInstr Block)}
    (hcode : r.before.code bb = before ++ (branch r.contA r.contB ++ rest))
    (hafter : r.after = r.before.setCode bb
      (before ++ (kept r.dropA r.dropB r.contA r.contB ++ rest)))
    (hbehind : r.Rewritten (r.before.behind bb) (r.after.behind bb)) (c : Block) :
    r.Rewritten (r.before.expand c) (r.after.expand c) := by
  induction c using fallThrough_induction (f := r.before) with
  | hstep c ih =>
    rw [expand_eq, expand_eq]
    by_cases hc : c = bb
    · subst hc
      have hcode' : r.after.code c = before ++ (kept r.dropA r.dropB r.contA r.contB ++ rest) := by
        rw [hafter]
        exact code_setCode_self _ _
      rw [hcode, hcode', List.append_assoc, List.append_assoc, List.append_assoc, List.append_assoc]
      exact .append (.replaced (.append hbehind rest)) before
    · have hcode' : r.after.code c = r.before.code c := by
        rw [hafter]
        exact code_setCode_of_ne hc _
      have hnext' : r.after.getFallThrough c = r.before.getFallThrough c := by
        rw [hafter]
        exact getFallThrough_setCode hc _
      rw [hcode', behind, behind, hnext']
      refine .append ?_ _
      cases hnext : r.before.getFallThrough c with
      | none => exact .nil
      | some next => exact ih next hnext

end Removal

/-! ## What the pass preserves -/

/-- What is executed stays the same: at the branch, behind the block, and from every block and
stack. -/
structure Preserves (f g : BranchFunction Block) (bb : Block) (old new : List (BranchInstr Block)) :
    Prop where
  branch : ∀ (Data : Type) (sem : Semantics Block Data) (v : ℤ) (s : List (Value Block Data))
    (rest : List (BranchInstr Block)) (callers : List (List (BranchInstr Block))),
    Alike (f.effect sem) ⟨old ++ rest, callers, .int v :: s⟩ ⟨new ++ rest, callers, .int v :: s⟩
  behind : ∀ (Data : Type) (sem : Semantics Block Data) (s : List (Value Block Data))
    (rest : List (BranchInstr Block)) (callers : List (List (BranchInstr Block))),
    Alike (g.effect sem) ⟨g.behind bb, rest :: callers, s⟩ ⟨f.behind bb, rest :: callers, s⟩
  whole : ∀ (Data : Type) (sem : Semantics Block Data) (c : Block) (s : List (Value Block Data)),
    TypedConditions f sem (f.start c s) → SameExecution sem f g c s

/-- The branches that are dropped do nothing, and neither does the block that `bb` falls through to
only without its `IFELSE`. -/
structure DropsInert (f g : BranchFunction Block) (bb contA contB : Block) : Prop where
  thenBranch : isContinuationEmpty (f.code contA) = true → Inert f contA
  elseBranch : isContinuationEmpty (f.code contB) = true → Inert f contB
  behind : ∀ next, g.getFallThrough bb = some next → f.getFallThrough bb ≠ some next → Inert g next

/-- What is asked of the function that the pass is given: the blocks without code that are taken for
empty branches are empty, and so is the next block of the layout, if both branches are taken for
empty and nothing follows their `IFELSE`. -/
structure DropsEmpty (f : BranchFunction Block) (bb contA contB : Block)
    (rest : List (BranchInstr Block)) (Empty : Block → Prop) : Prop where
  thenBranch : isContinuationEmpty (f.code contA) = true → Empty contA
  elseBranch : isContinuationEmpty (f.code contB) = true → Empty contB
  behind : isContinuationEmpty (f.code contA) = true → isContinuationEmpty (f.code contB) = true →
    rest = [] → ∀ next, f.layoutSuccessor bb = some next → Empty next

section Block

variable {f : BranchFunction Block} {bb contA contB : Block} {before rest : List (BranchInstr Block)}

/-- An `IFELSE` at the end keeps control from the block that follows. -/
theorem fallThrough_of_nil (hcode : f.code bb = before ++ (branch contA contB ++ [])) :
    f.getFallThrough bb = none ∧ f.behind bb = [] := by
  have hbarrier : BranchFunction.endsInBarrier (f.code bb) = true := by
    rw [hcode, BranchFunction.endsInBarrier]
    simp [branch, BranchInstr.isTerminator, BranchInstr.isBarrier]
  exact ⟨by rw [getFallThrough_eq, if_pos hbarrier], by rw [behind_eq, if_pos hbarrier]⟩

/-- With something behind it the block falls through as before. -/
theorem fallThrough_of_ne_nil (hrest : rest ≠ [])
    (hcode : f.code bb = before ++ (branch contA contB ++ rest)) (new : List (BranchInstr Block)) :
    (f.setCode bb (before ++ (new ++ rest))).getFallThrough bb = f.getFallThrough bb ∧
      (f.setCode bb (before ++ (new ++ rest))).behind bb = f.behind bb := by
  obtain ⟨init, i, rfl⟩ := (List.eq_nil_or_concat' rest).resolve_left hrest
  have hlast (l l' : List (BranchInstr Block)) :
      BranchFunction.endsInBarrier (l ++ (l' ++ (init ++ [i]))) =
        (i.isTerminator && i.isBarrier) := by
    rw [← List.append_assoc, ← List.append_assoc, BranchFunction.endsInBarrier,
      List.getLast?_concat]
    rfl
  have hsame : BranchFunction.endsInBarrier (before ++ (new ++ (init ++ [i]))) =
      BranchFunction.endsInBarrier (f.code bb) := by
    rw [hcode, hlast, hlast]
  exact ⟨getFallThrough_setCode_self hsame, by rw [behind_setCode, behind_eq, hsame]⟩

/-- The block falls through as before, or it ended in the `IFELSE`. -/
theorem fallThrough_cases (hcode : f.code bb = before ++ (branch contA contB ++ rest))
    (new : List (BranchInstr Block)) :
    ((f.setCode bb (before ++ (new ++ rest))).getFallThrough bb = f.getFallThrough bb ∧
      (f.setCode bb (before ++ (new ++ rest))).behind bb = f.behind bb) ∨
      f.getFallThrough bb = none ∧ f.behind bb = [] := by
  by_cases hrest : rest = []
  · subst hrest
    exact Or.inr (fallThrough_of_nil hcode)
  · exact Or.inl (fallThrough_of_ne_nil hrest hcode new)

/-- Without both of its branches an `IFELSE` at the end keeps control no longer. -/
theorem getFallThrough_kept (f : BranchFunction Block) (bb : Block)
    (before : List (BranchInstr Block)) (dropA dropB : Bool) (contA contB : Block) :
    (f.setCode bb (before ++ (kept dropA dropB contA contB ++ []))).getFallThrough bb =
      if dropA = true ∧ dropB = true then f.layoutSuccessor bb else none := by
  rw [getFallThrough_eq, code_setCode_self, layoutSuccessor_setCode, BranchFunction.endsInBarrier,
    List.append_nil]
  cases dropA <;> cases dropB <;>
    simp [kept, branch, BranchInstr.isTerminator, BranchInstr.isBarrier, StackInstr.isTerminator]

/-- The block that control comes to only without the `IFELSE`. -/
theorem behind_iff {dropA dropB : Bool} {next : Block}
    (hcode : f.code bb = before ++ (branch contA contB ++ rest)) :
    ((f.setCode bb (before ++ (kept dropA dropB contA contB ++ rest))).getFallThrough bb =
        some next ∧ f.getFallThrough bb ≠ some next) ↔
      (dropA = true ∧ dropB = true) ∧ rest = [] ∧ f.layoutSuccessor bb = some next := by
  by_cases hrest : rest = []
  · subst hrest
    rw [getFallThrough_kept, (fallThrough_of_nil hcode).1]
    by_cases hdrop : dropA = true ∧ dropB = true
    · rw [if_pos hdrop]
      exact ⟨fun h => ⟨hdrop, rfl, h.1⟩, fun h => ⟨h.2.2, nofun⟩⟩
    · rw [if_neg hdrop]
      exact iff_of_false (fun h => nomatch h.1) fun h => hdrop h.1
  · rw [(fallThrough_of_ne_nil hrest hcode _).1]
    exact ⟨fun h => absurd h.1 h.2, fun h => absurd h.2.1 hrest⟩

/-- Where the branches that are dropped do nothing, every block is executed as before. -/
theorem DropsInert.sameExecution (hcode : f.code bb = before ++ (branch contA contB ++ rest))
    {g : BranchFunction Block}
    (hg : g = f.setCode bb (before ++ (kept (isContinuationEmpty (f.code contA))
      (isContinuationEmpty (f.code contB)) contA contB ++ rest)))
    (h : DropsInert f g bb contA contB) (sem : Semantics Block Data) {c : Block}
    {s : List (Value Block Data)} (htyped : TypedConditions f sem (f.start c s)) :
    SameExecution sem f g c s := by
  let r : Removal Block Data :=
    { before := f
      after := g
      sem := sem
      dropA := isContinuationEmpty (f.code contA)
      dropB := isContinuationEmpty (f.code contB)
      contA := contA
      contB := contB
      returns := by
        intro v hv s
        unfold dropped at hv
        split at hv
        · rename_i hne
          rw [if_pos hne]
          exact h.thenBranch hv Data sem s
        · rename_i hzero
          rw [if_neg hzero]
          exact h.elseBranch hv Data sem s }
  have hbehind : r.Rewritten (f.behind bb) (g.behind bb) := by
    rcases fallThrough_cases hcode (kept r.dropA r.dropB contA contB) with ⟨-, hsame⟩ | ⟨hnone, hnil⟩
    · rw [hg, hsame]
      exact .refl _
    · rw [hnil, BranchFunction.behind]
      cases hnext : g.getFallThrough bb with
      | none => exact .nil
      | some next =>
        have hnew : f.getFallThrough bb ≠ some next := by
          rw [hnone]
          exact (Option.some_ne_none next).symm
        exact .behind fun s => h.behind next hnext hnew Data sem s
  exact Removal.sameExecution (r := r) (Removal.expand_rewritten hcode hg hbehind) htyped

end Block

/-- The pass preserves execution if and only if the branches that are dropped do nothing, and
neither does the block that follows, if only the `IFELSE` kept control from it. -/
theorem preserves_iff_dropsInert {f : BranchFunction Block} {bb contA contB : Block}
    {before rest : List (BranchInstr Block)}
    (hcode : f.code bb = before ++ (branch contA contB ++ rest)) {g : BranchFunction Block}
    (hg : g = f.setCode bb (before ++ (kept (isContinuationEmpty (f.code contA))
      (isContinuationEmpty (f.code contB)) contA contB ++ rest))) :
    Preserves f g bb (branch contA contB) (kept (isContinuationEmpty (f.code contA))
      (isContinuationEmpty (f.code contB)) contA contB) ↔ DropsInert f g bb contA contB := by
  have halike := kept_alike_iff f (isContinuationEmpty (f.code contA))
    (isContinuationEmpty (f.code contB)) contA contB
  have hcases := fallThrough_cases hcode (kept (isContinuationEmpty (f.code contA))
    (isContinuationEmpty (f.code contB)) contA contB)
  rw [← hg] at hcases
  constructor
  · intro hpreserves
    obtain ⟨hA, hB⟩ := halike.mp hpreserves.branch
    refine ⟨hA, hB, fun next hnext hne => ?_⟩
    rcases hcases with ⟨hsame, -⟩ | ⟨-, hnil⟩
    · exact absurd (hsame.symm.trans hnext) hne
    · -- behind the block there was nothing before
      intro Data sem s
      refine alike_iff_returns.mp fun rest callers => ?_
      have hbehind := hpreserves.behind Data sem s rest callers
      rw [hnil, behind, hnext] at hbehind
      exact hbehind.trans (Alike.of_trace (Trace.silent rfl (.refl _)))
  · intro hinert
    refine ⟨halike.mpr ⟨hinert.thenBranch, hinert.elseBranch⟩, ?_, ?_⟩
    · intro Data sem s rest callers
      rcases hcases with ⟨-, hsame⟩ | ⟨hnone, hnil⟩
      · rw [hsame]
        exact Alike.refl _
      · rw [hnil, behind]
        cases hnext : g.getFallThrough bb with
        | none => exact Alike.refl _
        | some next =>
          have hnew : f.getFallThrough bb ≠ some next := by
            rw [hnone]
            exact (Option.some_ne_none next).symm
          have hreturns := alike_iff_returns.mpr (hinert.behind next hnext hnew Data sem s) rest
            callers
          exact hreturns.trans (Alike.of_trace (Trace.silent rfl (.refl _))).symm
    · exact fun Data sem c s htyped => hinert.sameExecution hcode hg sem htyped

/-- **When the pass preserves execution**: if what is dropped has no code, with all that it falls
through to, and the block that follows has none either, where only the `IFELSE` kept control from
it. Where execution is preserved, code that is dropped needs no slot and cannot be seen to begin
with: it may only push something, and take it off again. -/
theorem runIfElseEmptyBranchRemoving_preserves (f : BranchFunction Block) (bb : Block)
    {before code before' code' : List (BranchInstr Block)} (hcode : f.code bb = before ++ code)
    (h : runIfElseEmptyBranchRemoving f before code = some (before', code')) :
    ∃ contA contB rest new, code = branch contA contB ++ rest ∧
      before' ++ code' = before ++ (new ++ rest) ∧
      (DropsEmpty f bb contA contB rest (NoCode f) →
        Preserves f (f.setCode bb (before' ++ code')) bb (branch contA contB) new) ∧
      (Preserves f (f.setCode bb (before' ++ code')) bb (branch contA contB) new →
        DropsEmpty f bb contA contB rest fun c => NoCode f c ∨ BeginsOnEmptyStack f c) := by
  obtain ⟨contA, contB, rest, rfl, hnew⟩ := runIfElseEmptyBranchRemoving_eq_some h
  refine ⟨contA, contB, rest, _, rfl, hnew, ?_⟩
  generalize hg : f.setCode bb (before' ++ code') = g
  rw [hnew] at hg
  rw [preserves_iff_dropsInert hcode hg.symm]
  have hbehind (next : Block) :
      (g.getFallThrough bb = some next ∧ f.getFallThrough bb ≠ some next) ↔
      (isContinuationEmpty (f.code contA) = true ∧ isContinuationEmpty (f.code contB) = true) ∧
        rest = [] ∧ f.layoutSuccessor bb = some next :=
    hg ▸ behind_iff hcode
  -- the block behind has the same code after the pass
  have hexpand {next : Block} (hnext : f.layoutSuccessor bb = some next) :
      g.expand next = f.expand next :=
    hg ▸ expand_setCode (StackFunction.notMem_chain_layoutSuccessor hnext) _
  constructor
  · rintro ⟨hA, hB, hnext⟩
    refine ⟨fun h _ _ => returns_of_noCode (hA h), fun h _ _ => returns_of_noCode (hB h),
      fun next hfall hnew Data sem s => ?_⟩
    obtain ⟨⟨hemptyA, hemptyB⟩, hrest, hlayout⟩ := (hbehind next).mp ⟨hfall, hnew⟩
    rw [hexpand hlayout]
    exact returns_of_noCode (hnext hemptyA hemptyB hrest next hlayout) s
  · rintro ⟨hA, hB, hnext⟩
    refine ⟨fun h => noCode_or_begins (hA h _ _ []), fun h => noCode_or_begins (hB h _ _ []),
      fun hemptyA hemptyB hrest next hlayout => ?_⟩
    obtain ⟨hfall, hnew⟩ := (hbehind next).mpr ⟨⟨hemptyA, hemptyB⟩, hrest, hlayout⟩
    have hreturns := hnext next hfall hnew _ (onlyModelled Block) []
    rw [hexpand hlayout] at hreturns
    exact noCode_or_begins hreturns

section Example

theorem nodup_layout : ([0, 1, 2] : List (Fin 3)).Nodup := by decide

/-- Block `0` calls block `1` or itself. Block `1`, with the code `target`, may fall through to
block `2`. -/
def callOver (target : List (BranchInstr (Fin 3))) : BranchFunction (Fin 3) where
  cfg :=
    { entry := 0
      succs := fun | 0 => [1, 0] | 1 => [2] | 2 => []
      preds := fun | 0 => [0] | 1 => [0] | 2 => [1]
      mem_preds := by decide }
  layout := [0, 1, 2]
  nodup := nodup_layout
  code
    | 0 => branch 1 0
    | 1 => target
    | 2 => [.stack (.other 30 true true)]

/-- The block that is called only returns, and is dropped. -/
theorem runIfElseEmptyBranchRemoving_callOver :
    Preserves (callOver [.FALLTHROUGH_RETURN])
      ((callOver [.FALLTHROUGH_RETURN]).setCode 0 [pushcont 0, .IFNOT_S]) 0 (branch 1 0)
      [pushcont 0, .IFNOT_S] := by
  obtain ⟨contA, contB, rest, new, hcode, hnew, hpreserves, -⟩ :=
    runIfElseEmptyBranchRemoving_preserves (callOver [.FALLTHROUGH_RETURN]) 0
      (show (callOver [.FALLTHROUGH_RETURN]).code 0 = [] ++ branch 1 0 from rfl) rfl
  obtain ⟨rfl, rfl, rfl⟩ : 1 = contA ∧ 0 = contB ∧ [] = rest := by
    simpa [branch] using hcode
  obtain rfl : [pushcont 0, .IFNOT_S] = new := by simpa using hnew
  refine hpreserves ⟨fun _ i hi => ?_, nofun, nofun⟩
  exact List.mem_singleton.mp (show i ∈ [.FALLTHROUGH_RETURN] from hi)

/-- Every instruction that is not modelled leaves the stack and goes on. -/
def passing : Semantics (Fin 3) Unit := ⟨(), fun _ s => some (s, .next)⟩

/-- The block that is called has no code, but it falls through to block `2`, which is executed no
longer. -/
theorem runIfElseEmptyBranchRemoving_fails :
    runIfElseEmptyBranchRemoving (callOver []) [] (branch 1 0) =
        some ([], [pushcont 0, .IFNOT_S]) ∧
      ¬ SameExecution passing (callOver [])
        ((callOver []).setCode 0 ([] ++ [pushcont 0, .IFNOT_S])) 0 [.int 1] := by
  refine ⟨rfl, fun h => ?_⟩
  -- before the pass instruction 30 is seen
  obtain ⟨n, t, hrun⟩ := (h.1 [(30, [])]).mp ⟨_, _, .cons (e := none) rfl <|
    .cons (e := none) rfl <| .cons (e := none) rfl <| .cons (e := some _) rfl <| .refl _⟩
  rcases hrun.of_step (e := none) rfl with hnil | ⟨_, es, hes, hrun⟩
  · cases hnil
  cases hes
  rcases hrun.of_step (e := none) rfl with hnil | ⟨_, es, hes, hrun⟩
  · cases hnil
  cases hes
  obtain ⟨-, hnil⟩ := hrun.of_none rfl
  cases hnil

end Example

end EmptyBranch

end TVMCompiler
