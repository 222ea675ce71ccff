import TVMCompiler.Pass.MbbInline

/-!
# Execution after inlining

A block whose final jump has been replaced by a copy of the target does what it did before if the
code behind the copy is the code behind the target. The target may fall through to other blocks,
and these are not copied.

## Main definitions

* `InlinesSoundly`: what is behind the copy is what is behind the target
* `SameExecution`: the same instructions are seen, each with the same stack
* `Inlined`: code before and after the pass

## Main results

* `expand_inlined`: a continuation before and after the pass
* `Inlined.inStep`, `advances`: the executions go in step
* `runMbbInlineOptimization_preserves`: what is executed after the pass
-/

namespace TVMCompiler

open Lib StackFunction

variable {Block Data : Type} [DecidableEq Block]

/-- The jump is one to the block itself alone, or to another block, and behind the copy comes what is
behind the target: nothing, if the copy ends in a barrier, and otherwise the block that follows in
the layout, if control may pass there. -/
def InlinesSoundly (f : StackFunction Block) (b : Block) : Prop :=
  ∀ j, finalJump (f.code b) = some j →
    (j.target = b ∧ j.front = []) ∨
      j.target ≠ b ∧
        f.behind j.target = if endsInBarrier (j.front ++ f.code j.target) then []
          else (f.layoutSuccessor b).elim [] f.expand

/-- From a block and a stack, the same instructions are seen with the same stacks, and the same
stacks are left at the end. -/
def SameExecution (sem : ℕ → List (Value Block Data) → Option (List (Value Block Data) × Control Block))
    (f g : StackFunction Block) (c : Block) (s : List (Value Block Data)) : Prop :=
  (∀ es, Sees (f.step sem) (f.start c s) es ↔ Sees (g.step sem) (g.start c s) es) ∧
    ∀ es t, (∃ u, Stops (f.step sem) (f.start c s) es u ∧ u.Halted ∧ u.stack = t) ↔
      ∃ u, Stops (g.step sem) (g.start c s) es u ∧ u.Halted ∧ u.stack = t

/-! ## The code of a continuation -/

section Expand

variable {f : StackFunction Block} {b : Block}

theorem getFallThrough_setCode {c : Block} (hc : c ≠ b) (code : List (StackInstr Block)) :
    (f.setCode b code).getFallThrough c = f.getFallThrough c := by
  have hcode : (f.setCode b code).code c = f.code c := Function.update_of_ne hc _ _
  rw [getFallThrough, hcode]
  rfl

/-- The continuations that do not come to a block do not change with its code. -/
theorem expand_setCode {c : Block} (hc : b ∉ f.fallThroughChain c)
    (code : List (StackInstr Block)) : (f.setCode b code).expand c = f.expand c := by
  induction c using fallThrough_induction (f := f) with
  | hstep c ih =>
    rw [fallThroughChain_eq, List.mem_cons, not_or] at hc
    have hcode : (f.setCode b code).code c = f.code c := Function.update_of_ne (Ne.symm hc.1) _ _
    rw [expand_eq, expand_eq, behind, behind, getFallThrough_setCode (Ne.symm hc.1), hcode]
    cases hnext : f.getFallThrough c with
    | none => rfl
    | some next =>
      rw [hnext] at hc
      exact congrArg _ (ih next hnext hc.2)

end Expand

/-! ## Machines in step -/

section Inlined

variable (f : StackFunction Block) (j : FinalJump Block)

/-- Code before and after the pass: the same, or it ends in the jump, and then in the drops and the
code of the target. -/
def Inlined (c c' : List (StackInstr Block)) : Prop :=
  c = c' ∨ ∃ u, c = u ++ j.jump ∧ c' = u ++ (List.replicate j.pops (.POP 0) ++ f.expand j.target)

variable {f j}

theorem Inlined.append {c c' : List (StackInstr Block)} (h : Inlined f j c c')
    (u : List (StackInstr Block)) : Inlined f j (u ++ c) (u ++ c') := by
  rcases h with rfl | ⟨v, rfl, rfl⟩
  · exact Or.inl rfl
  · exact Or.inr ⟨u ++ v, (List.append_assoc _ _ _).symm, (List.append_assoc _ _ _).symm⟩

/-- The code of the block itself after the pass. -/
theorem expand_inlined_self {b : Block}
    (hbehind : f.behind j.target = if endsInBarrier (j.front ++ f.code j.target) then []
      else (f.layoutSuccessor b).elim [] f.expand) :
    (f.setCode b (j.front ++ f.code j.target)).expand b = j.front ++ f.expand j.target := by
  have hcode : (f.setCode b (j.front ++ f.code j.target)).code b = j.front ++ f.code j.target :=
    Function.update_self _ _ _
  rw [expand_eq, expand_eq, hcode, List.append_assoc, hbehind, behind, getFallThrough, hcode]
  split_ifs with hbarrier
  · rfl
  · show _ ++ (_ ++ (f.layoutSuccessor b).elim [] _) = _
    cases hnext : f.layoutSuccessor b with
    | none => rfl
    | some next =>
      rw [Option.elim_some, Option.elim_some, expand_setCode (notMem_chain_layoutSuccessor hnext)]

/-- **A continuation before and after the pass**: the jump at the end of the block has been
replaced, where the continuation comes to the block. -/
theorem expand_inlined {b : Block} (hj : finalJump (f.code b) = some j)
    (hbehind : f.behind j.target = if endsInBarrier (j.front ++ f.code j.target) then []
      else (f.layoutSuccessor b).elim [] f.expand) (c : Block) :
    Inlined f j (f.expand c) ((f.setCode b (j.front ++ f.code j.target)).expand c) := by
  induction c using fallThrough_induction (f := f) with
  | hstep c ih =>
    by_cases hc : c = b
    · subst hc
      have hcode := finalJump_eq_some.mp hj
      -- the block itself ends in a barrier
      have hbarrier : endsInBarrier (f.code c) = true := by
        rw [hcode, FinalJump.jump, ← List.cons_append, ← List.append_assoc, endsInBarrier,
          List.getLast?_concat]
        rfl
      refine Or.inr ⟨j.before, ?_, ?_⟩
      · rw [expand_eq, behind, getFallThrough, if_pos hbarrier, hcode]
        exact List.append_nil _
      · rw [expand_inlined_self hbehind, FinalJump.front, List.append_assoc]
    · have hcode : (f.setCode b (j.front ++ f.code j.target)).code c = f.code c :=
        Function.update_of_ne hc _ _
      rw [expand_eq, expand_eq, behind, behind, getFallThrough_setCode hc, hcode]
      refine Inlined.append ?_ _
      cases hnext : f.getFallThrough c with
      | none => exact Or.inl rfl
      | some next => exact ih next hnext

variable (sem : ℕ → List (Value Block Data) → Option (List (Value Block Data) × Control Block))

/-- Drops of the top slot. -/
theorem trace_pops (g : StackFunction Block) (rest : List (StackInstr Block))
    (frames : List (List (StackInstr Block))) {k : ℕ} {s : List (Value Block Data)}
    (hk : k ≤ s.length) :
    Trace (g.step sem) k ⟨List.replicate k (.POP 0) ++ rest, frames, s⟩ []
      ⟨rest, frames, s.drop k⟩ := by
  induction k generalizing s with
  | zero => exact .refl _
  | succ k ih =>
    cases s with
    | nil => exact absurd hk (by simp)
    | cons x s =>
      refine Trace.silent ?_ (ih (Nat.le_of_succ_le_succ hk))
      rfl

/-- Drops of the slot under the top one. -/
theorem trace_pops_under (rest : List (StackInstr Block)) (frames : List (List (StackInstr Block)))
    (v : Value Block Data) {k : ℕ} {s : List (Value Block Data)} (hk : k ≤ s.length) :
    Trace (f.step sem) k ⟨List.replicate k (.POP 1) ++ rest, frames, v :: s⟩ []
      ⟨rest, frames, v :: s.drop k⟩ := by
  induction k generalizing s with
  | zero => exact .refl _
  | succ k ih =>
    cases s with
    | nil => exact absurd hk (by simp)
    | cons x s =>
      refine Trace.silent ?_ (ih (Nat.le_of_succ_le_succ hk))
      simp [List.replicate_succ, StackFunction.step, effect, StackInstr.exec, popTo, transfer]

variable (f j)

/-- The executions before and after the pass: at the same instruction, at the end of the code, or
both at an instruction that is not defined on the stack. -/
inductive Lock (g : StackFunction Block) : Config Block Data → Config Block Data → Prop where
  | next {i : StackInstr Block} {c c' : List (StackInstr Block)}
      {frames frames' : List (List (StackInstr Block))} {s : List (Value Block Data)}
      (hc : Inlined f j c c') (hframes : List.Forall₂ (Inlined f j) frames frames') :
      Lock g ⟨i :: c, frames, s⟩ ⟨i :: c', frames', s⟩
  | ret {frames frames' : List (List (StackInstr Block))} {s : List (Value Block Data)}
      (hframes : List.Forall₂ (Inlined f j) frames frames') :
      Lock g ⟨[], frames, s⟩ ⟨[], frames', s⟩
  | stuck {a a' : Config Block Data} (ha : f.step sem a = none) (ha' : g.step sem a' = none)
      (hcode : a.code ≠ []) (hcode' : a'.code ≠ []) : Lock g a a'

/-- Stopped executions that are at their end have the same stack. -/
def SameEnd (a a' : Config Block Data) : Prop :=
  (a.Halted ↔ a'.Halted) ∧ (a.Halted → a.stack = a'.stack)

variable {f j}

/-- **From related code the executions go in step**: if the code begins with the jump, both drop the
slots, and then both are at the code of the target. -/
theorem Inlined.inStep (g : StackFunction Block) {c c' : List (StackInstr Block)}
    {frames frames' : List (List (StackInstr Block))} (s : List (Value Block Data))
    (hc : Inlined f j c c') (hframes : List.Forall₂ (Inlined f j) frames frames') :
    InStep (f.step sem) (g.step sem) (Lock f j sem g) ⟨c, frames, s⟩ ⟨c', frames', s⟩ := by
  have hsame (c : List (StackInstr Block)) (s : List (Value Block Data)) :
      Lock f j sem g ⟨c, frames, s⟩ ⟨c, frames', s⟩ := by
    cases c with
    | nil => exact .ret hframes
    | cons i c => exact .next (Or.inl rfl) hframes
  rcases hc with rfl | ⟨u, rfl, rfl⟩
  · exact .of_lock (hsame c s)
  cases u with
  | cons i u => exact .of_lock (.next (Or.inr ⟨u, rfl, rfl⟩) hframes)
  | nil =>
    by_cases hk : j.pops ≤ s.length
    · have hpops := (trace_pops_under (f := f) sem [.JMPX_S] frames (.cont j.target) hk).silent_append
        (Trace.silent (n := 0) rfl (.refl _))
      exact ⟨_, _, _, _, Trace.silent rfl hpops, trace_pops sem g (f.expand j.target) frames' hk,
        hsame (f.expand j.target) (s.drop j.pops)⟩
    · -- there are not enough slots, and both stop when all are dropped
      obtain ⟨k, hk⟩ := Nat.exists_eq_add_of_lt (Nat.lt_of_not_le hk)
      have hsplit (i : StackInstr Block) :
          List.replicate j.pops i = List.replicate s.length i ++ List.replicate (k + 1) i := by
        rw [hk, List.replicate_append_replicate, Nat.add_assoc]
      have hpops := trace_pops_under (f := f) sem
        (List.replicate (k + 1) (.POP 1) ++ [.JMPX_S]) frames (.cont j.target) (le_refl s.length)
      have hpops' := trace_pops sem g
        (List.replicate (k + 1) (.POP 0) ++ f.expand j.target) frames' (le_refl s.length)
      rw [← List.append_assoc, ← hsplit, List.drop_length] at hpops hpops'
      exact ⟨_, _, _, _, Trace.silent rfl hpops, hpops', .stuck rfl rfl (by simp) (by simp)⟩

/-- **One step keeps the executions in step.** -/
theorem advances {g : StackFunction Block}
    (hexpand : ∀ c, Inlined f j (f.expand c) (g.expand c)) :
    Advances (f.step sem) (g.step sem) (Lock f j sem g) SameEnd := by
  intro a a' hlock
  cases hlock with
  | stuck ha ha' hcode hcode' =>
    exact Or.inl ⟨ha, ha', iff_of_false (fun h => hcode h.1) fun h => hcode' h.1,
      fun h => absurd h.1 hcode⟩
  | @ret frames frames' s hframes =>
    cases hframes with
    | nil => exact Or.inl ⟨rfl, rfl, Iff.rfl, fun _ => rfl⟩
    | cons hrest hframes =>
      exact Or.inr ⟨none, _, _, rfl, rfl, Inlined.inStep sem g s hrest hframes⟩
  | @next i c c' frames frames' s hc hframes =>
    cases heffect : effect sem i s with
    | none =>
      refine Or.inl ⟨f.step_of_effect_none heffect, g.step_of_effect_none heffect, ?_, ?_⟩
      · exact iff_of_false (fun h => List.cons_ne_nil _ _ h.1) fun h => List.cons_ne_nil _ _ h.1
      · exact fun h => absurd h.1 (List.cons_ne_nil _ _)
    | some r =>
      obtain ⟨e, t, ctl⟩ := r
      refine Or.inr ⟨e, _, _, f.step_of_effect heffect, g.step_of_effect heffect, ?_⟩
      -- where control goes the code is related, and so are the callers
      cases ctl with
      | next => exact hc.inStep sem g t hframes
      | jump bb => exact (hexpand bb).inStep sem g t hframes
      | call bb => exact (hexpand bb).inStep sem g t (.cons hc hframes)
      | ret => exact Inlined.inStep sem g t (Or.inl rfl) hframes

theorem sameExecution_of_advances {g : StackFunction Block}
    (hexpand : ∀ c, Inlined f j (f.expand c) (g.expand c)) (c : Block)
    (s : List (Value Block Data)) : SameExecution sem f g c s := by
  have hadv := advances sem hexpand
  have hstart : InStep (f.step sem) (g.step sem) (Lock f j sem g) (f.start c s) (g.start c s) :=
    (hexpand c).inStep sem g s .nil
  refine ⟨fun es => hstart.sees_iff hadv es, fun es t => ⟨?_, ?_⟩⟩
  · rintro ⟨u, hu, hend, rfl⟩
    obtain ⟨v, hv, hhalted, hstack⟩ := hstart.exists_stops hadv hu
    exact ⟨v, hv, hhalted.mp hend, (hstack hend).symm⟩
  · rintro ⟨v, hv, hend, rfl⟩
    obtain ⟨u, hu, hhalted, hstack⟩ := hstart.symm.exists_stops hadv.symm hv
    exact ⟨u, hu, hhalted.mpr hend, hstack (hhalted.mpr hend)⟩

end Inlined

/-! ## The pass -/

theorem SameExecution.refl
    (sem : ℕ → List (Value Block Data) → Option (List (Value Block Data) × Control Block))
    (f : StackFunction Block) (c : Block) (s : List (Value Block Data)) :
    SameExecution sem f f c s :=
  ⟨fun _ => Iff.rfl, fun _ _ => Iff.rfl⟩

/-- **Where the code behind the copy is the code behind the target, the pass is defined, and every
block, from every stack, is executed as before.** -/
theorem runMbbInlineOptimization_preserves (f : StackFunction Block) (b : Block)
    (h : InlinesSoundly f b) :
    (∃ fuel r, runMbbInlineOptimization fuel f b = some r) ∧
      ∀ fuel changed g, runMbbInlineOptimization fuel f b = some (changed, g) →
        ∀ (Data : Type)
          (sem : ℕ → List (Value Block Data) → Option (List (Value Block Data) × Control Block)) c s,
          SameExecution sem f g c s := by
  cases hj : finalJump (f.code b) with
  | none =>
    refine ⟨⟨0, (false, f), by rw [runMbbInlineOptimization, hj]⟩, fun fuel changed g hrun => ?_⟩
    rw [runMbbInlineOptimization, hj] at hrun
    cases hrun
    exact fun Data sem c s => .refl sem f c s
  | some j =>
    rcases h j hj with ⟨hself, hfront⟩ | ⟨hother, hbehind⟩
    · -- the block is the jump alone, and stays so
      have hcode : f.code b = j.jump := by
        rw [finalJump_eq_some.mp hj, (List.append_eq_nil_iff.mp hfront).1, List.nil_append]
      have hset : f.setCode b j.jump = f := by
        simp [StackFunction.setCode, ← hcode]
      refine ⟨⟨1, (true, f.setCode b j.jump), ?_⟩, fun fuel changed g hrun => ?_⟩
      · rw [runMbbInlineOptimization, hj]
        simp only [hself, if_true, hfront]
        rfl
      · rw [runMbbInlineOptimization, hj] at hrun
        simp only [hself, if_true] at hrun
        obtain ⟨code, hclone, heq⟩ := Option.map_eq_some_iff.mp hrun
        cases heq
        rw [(cloneOwn_eq_some hclone).2, hset]
        exact fun Data sem c s => .refl sem f c s
    · have hrun (fuel : ℕ) : runMbbInlineOptimization fuel f b =
          some (true, f.setCode b (j.front ++ f.code j.target)) := by
        rw [runMbbInlineOptimization, hj]
        simp only [if_neg hother]
      refine ⟨⟨0, _, hrun 0⟩, fun fuel changed g hg => ?_⟩
      cases (hrun fuel).symm.trans hg
      exact fun Data sem c s => sameExecution_of_advances sem (expand_inlined hj hbehind) c s

/-- Block `0` drops a slot and jumps to block `1`, with the code `target`. Block `1` may fall through
to block `2`. -/
def jumpOver (target : List (StackInstr (Fin 3))) : StackFunction (Fin 3) where
  cfg :=
    { entry := 0
      succs := fun | 0 => [1] | 1 => [2] | 2 => []
      preds := fun | 0 => [] | 1 => [0] | 2 => [1]
      mem_preds := by decide }
  layout := [0, 1, 2]
  nodup := by decide
  code
    | 0 => [.PUSHCONT_MBB_S 1, .POP 1, .JMPX_S]
    | 1 => target
    | 2 => [.other 30 true true]

theorem runMbbInlineOptimization_jumpOver :
    ∃ g, runMbbInlineOptimization 0 (jumpOver [.other 20 true true]) 0 = some (true, g) ∧
      ∀ (Data : Type)
        (sem : ℕ → List (Value (Fin 3) Data) → Option (List (Value (Fin 3) Data) × Control (Fin 3)))
        c s, SameExecution sem (jumpOver [.other 20 true true]) g c s := by
  have hsound : InlinesSoundly (jumpOver [.other 20 true true]) 0 := by
    intro j hj
    cases hj
    exact Or.inr ⟨by decide, by decide⟩
  exact ⟨_, rfl, (runMbbInlineOptimization_preserves _ 0 hsound).2 0 true _ rfl⟩

/-- Every instruction that is not modelled leaves the stack and goes on. -/
def goOn : ℕ → List (Value (Fin 3) Unit) → Option (List (Value (Fin 3) Unit) × Control (Fin 3)) :=
  fun _ s => some (s, .next)

/-- Where the target falls through to block `2`, the copy falls through to the target, which is
executed twice. -/
theorem runMbbInlineOptimization_fails :
    ∃ g, runMbbInlineOptimization 0 (jumpOver [.other 20 false false]) 0 = some (true, g) ∧
      ¬ SameExecution goOn (jumpOver [.other 20 false false]) g 0 [.int 0] := by
  refine ⟨_, rfl, fun h => ?_⟩
  -- before the pass instruction 30 comes behind instruction 20
  obtain ⟨n, t, hrun⟩ := (h.1 [(20, []), (30, [])]).mp ⟨_, _, .cons (e := none) rfl <|
    .cons (e := none) rfl <| .cons (e := none) rfl <| .cons (e := some _) rfl <|
    .cons (e := some _) rfl <| .refl _⟩
  rcases hrun.of_step (e := none) rfl with hnil | ⟨_, es, hes, hrun⟩
  · cases hnil
  cases hes
  rcases hrun.of_step (e := some (20, [])) rfl with hnil | ⟨_, es, hes, hrun⟩
  · cases hnil
  cases hes
  rcases hrun.of_step (e := some (20, [])) rfl with hnil | ⟨_, es, hes, hrun⟩
  · cases hnil
  cases hes

end TVMCompiler
