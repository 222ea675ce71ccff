import TVMCompiler.Machine.StackForm
import TVMCompiler.Stack.DiffForArgs

/-!
# Which changes can be encoded

The limits of the stack instructions are checked where a single exchange or push is built, but
not where a compound change is. `DiffForArgs` looks at the slots of the operands before it uses a
stack pattern; the pattern then corrects them.

## Main definitions

* `Change.steps`, `Change.Encodable`: the slots that a change addresses, and the limits for them
* `ExchangeTooDeep`, `PushTooDeep`: the operands for which a limit is exceeded

## Main results

* `encodable_patternChanges`: the patterns keep to the limits except for one arrangement
* `encodable_placeArgs`: so does the general path while the copies are within reach
* `DiffForArgs_encodable`: operand preparation as a whole
-/

namespace TVMCompiler

/-! ## The limits -/

/-- The exchanges and pushes that `Stack::operator+=` expands a change to. -/
def Change.steps : Change → List Step
  | .xchgTop i => [.xchg 0 i]
  | .xchg i j => [.xchg i j]
  | .pushI i => [.push i]
  | .doubleChange p₀ p₁ i j => doubleSteps p₀ p₁ i j
  | .tripleChange p₀ p₁ p₂ i j k => tripleSteps p₀ p₁ p₂ i j k
  | _ => []

/-- The deepest slot that an exchange may address. Only one with the top may go deeper than
`xchgLimit`, and only on its own. -/
def Change.exchangeLimit : Change → ℕ
  | .xchgTop _ => xchgDeepLimit
  | _ => xchgLimit

/-- An exchange within the limit, or a push within its own. -/
def Step.Within (limit : ℕ) : Step → Prop
  | .xchg i j => i ≤ limit ∧ j ≤ limit
  | .push i => i ≤ pushLimit

instance (limit : ℕ) : DecidablePred (Step.Within limit) := fun st =>
  match st with
  | .xchg i j => inferInstanceAs (Decidable (i ≤ limit ∧ j ≤ limit))
  | .push i => inferInstanceAs (Decidable (i ≤ pushLimit))

/-- All slots are within the limits, and an instruction is generated. -/
def Change.Encodable (c : Change) : Prop :=
  (∀ st ∈ c.steps, st.Within c.exchangeLimit) ∧
    (c.instruction : Option (List (StackInstr ℕ))).isSome

instance : DecidablePred Change.Encodable := fun c =>
  inferInstanceAs (Decidable ((∀ st ∈ c.steps, st.Within c.exchangeLimit) ∧
    (c.instruction : Option (List (StackInstr ℕ))).isSome))

section Limits

variable {i j k : ℕ}

section Changes

attribute [local simp] Change.Encodable Change.steps Change.exchangeLimit Change.instruction
  Step.Within

@[simp] theorem encodable_xchgTop : (Change.xchgTop i).Encodable ↔ i ≤ xchgDeepLimit := by
  simp only [Change.Encodable, Change.steps, Change.exchangeLimit, Step.Within, Change.instruction,
    List.mem_singleton, forall_eq, Nat.zero_le, true_and]
  have hdeep : xchgLimit ≤ xchgDeepLimit := by decide
  split_ifs
  · simp
  · simp
  · simp
    omega

@[simp] theorem encodable_mkXchg : (Change.mkXchg i j).Encodable ↔ i ≤ xchgLimit ∧ j ≤ xchgLimit := by
  simp [Change.mkXchg]
  omega

@[simp] theorem encodable_pushI : (Change.pushI i).Encodable ↔ i ≤ pushLimit := by
  simp only [Change.Encodable, Change.steps, Step.Within, Change.instruction, List.mem_singleton,
    forall_eq]
  split_ifs with h <;> simp [h]

@[simp] theorem encodable_doubleChange {p₀ p₁ : Bool} :
    (Change.doubleChange p₀ p₁ i j).Encodable ↔
      ∀ st ∈ doubleSteps p₀ p₁ i j, st.Within xchgLimit := by
  cases p₀ <;> cases p₁ <;> simp [-Step.Within]

@[simp] theorem encodable_tripleChange {p₀ p₁ p₂ : Bool} :
    (Change.tripleChange p₀ p₁ p₂ i j k).Encodable ↔
      ∀ st ∈ tripleSteps p₀ p₁ p₂ i j k, st.Within xchgLimit := by
  cases p₀ <;> cases p₁ <;> cases p₂ <;> simp [-Step.Within]

@[simp] theorem encodable_pushUndef : Change.pushUndef.Encodable := by
  simp

/-- The block movements address no slot on their own, and have a form with their sizes on the
stack. -/
@[simp] theorem encodable_roll (i : ℤ) : (Change.roll i).Encodable := by
  simp only [Change.Encodable, Change.steps, Change.instruction]
  split_ifs <;> simp

@[simp] theorem encodable_blkswap : (Change.blkswap i j).Encodable := by
  simp only [Change.Encodable, Change.steps, Change.instruction]
  split_ifs <;> simp

@[simp] theorem encodable_reverse : (Change.reverse i j).Encodable := by
  simp only [Change.Encodable, Change.steps, Change.instruction]
  split_ifs <;> simp

end Changes

theorem encodable_makeBlkdrop : (makeBlkdrop i).Encodable := by
  unfold makeBlkdrop
  split_ifs
  · simp [Change.Encodable, Change.steps, Change.instruction]
  · simp only [Change.Encodable, Change.steps, Change.instruction]
    split_ifs <;> simp

@[simp] theorem encodable_makeRoll : (makeRoll i).Encodable := by
  unfold makeRoll
  split_ifs with h
  · subst h
    simp [xchgDeepLimit]
  all_goals simp

@[simp] theorem encodable_makeRollRev : (makeRollRev i).Encodable := by
  unfold makeRollRev
  split_ifs with h
  · subst h
    simp [xchgDeepLimit]
  all_goals simp

end Limits

/-! ## The patterns -/

section Patterns

variable {i j k : ℕ}

/-- A corrected slot is one of the slots of the exchange or was there before. -/
theorem correct_le {deep top idx n : ℕ} (hdeep : deep ≤ n) (htop : top ≤ n) (hidx : idx ≤ n) :
    correct deep top idx ≤ n := by
  unfold correct
  split_ifs <;> assumption

theorem encodable_patternX {dst₀ : ℕ} (hi : i ≤ xchgLimit) (hdst : dst₀ ≤ xchgLimit) :
    ∀ c ∈ patternX i dst₀, c.Encodable := by
  have hdeep : xchgLimit ≤ xchgDeepLimit := by decide
  unfold patternX
  split_ifs <;> simp <;> omega

theorem encodable_pattern2PP (hi : i ≤ xchgLimit) (hj : j + 1 ≤ xchgLimit) :
    ∀ c ∈ pattern2PP i j, c.Encodable := by
  have hpush : xchgLimit ≤ pushLimit := by decide
  simp [pattern2PP, doubleSteps, Step.Within]
  omega

theorem encodable_pattern2XP (hi : i ≤ xchgLimit) (hj : j ≤ xchgLimit) :
    ∀ c ∈ pattern2XP i j, c.Encodable := by
  have hpush : xchgLimit ≤ pushLimit := by decide
  have hcorrect := correct_le (Nat.zero_le _) hi hj
  unfold pattern2XP
  split_ifs <;> simp [doubleSteps, Step.Within] <;> omega

theorem encodable_pattern2PX (hi : i ≤ xchgLimit) (hj : j + 1 ≤ xchgLimit) :
    ∀ c ∈ pattern2PX i j, c.Encodable := by
  have hpush : xchgLimit ≤ pushLimit := by decide
  have hdeep : 1 ≤ xchgDeepLimit := by decide
  unfold pattern2PX
  split_ifs <;> simp [doubleSteps, Step.Within] <;> omega

theorem encodable_pattern2XX (hi : i ≤ xchgLimit) (hj : j ≤ xchgLimit) :
    ∀ c ∈ pattern2XX i j, c.Encodable := by
  have hone : 1 ≤ xchgLimit := by decide
  have hdeep : 1 ≤ xchgDeepLimit := by decide
  unfold pattern2XX
  split_ifs
  · simp
  · exact encodable_patternX hj (Nat.zero_le _)
  · exact encodable_patternX hi hone
  all_goals simp [doubleSteps, Step.Within]; omega

theorem encodable_pattern3XXX (hi : i ≤ xchgLimit) (hj : j ≤ xchgLimit) (hk : k ≤ xchgLimit)
    {cs : List Change} (h : pattern3XXX i j k = some cs) : ∀ c ∈ cs, c.Encodable := by
  have htwo : 2 ≤ xchgLimit := by decide
  have hone : 1 ≤ xchgLimit := by decide
  have hdeep : 1 ≤ xchgDeepLimit := by decide
  have hj' := correct_le hi htwo hj
  have hk' := correct_le hj' hone (correct_le hi htwo hk)
  unfold pattern3XXX at h
  split_ifs at h
  · split at h <;> cases h <;> simp <;> omega
  · cases h
    exact encodable_pattern2XX hj hk
  · cases h
    simp [tripleSteps, Step.Within]
    omega

theorem encodable_pattern3XXP (hi : i ≤ xchgLimit) (hj : j ≤ xchgLimit) (hk : k ≤ xchgLimit) :
    ∀ c ∈ pattern3XXP i j k, c.Encodable := by
  have hpush : xchgLimit ≤ pushLimit := by decide
  have hone : 1 ≤ xchgLimit := by decide
  have hj' := correct_le hi hone hj
  have hk' := correct_le hj' (Nat.zero_le _) (correct_le hi hone hk)
  unfold pattern3XXP
  split_ifs
  · simp
    omega
  · exact encodable_pattern2XP hj hk
  · simp [tripleSteps, Step.Within]
    omega

/-- The correction moves a third operand from slot 1 to the slot of the first one, which is then
addressed under one pushed copy. -/
theorem encodable_pattern3XPX (hi : i ≤ xchgLimit) (hj : j ≤ xchgLimit) (hk : k + 1 ≤ xchgLimit) :
    (∀ c ∈ pattern3XPX i j k, c.Encodable) ↔ ¬(i = xchgLimit ∧ k = 1) := by
  have hpush : xchgLimit ≤ pushLimit := by decide
  have hdeep : 1 ≤ xchgDeepLimit := by decide
  have hone : 1 < xchgLimit := by decide
  have hj' := correct_le hi hone.le hj
  simp only [pattern3XPX]
  split_ifs with hi₁ hi₂ hk₀
  · simp
    omega
  · refine iff_of_true (encodable_pattern2PX hj hk) ?_
    omega
  · refine iff_of_true ?_ ?_
    · simp
      omega
    · unfold correct at hk₀
      split_ifs at hk₀ <;> omega
  · -- the third operand is addressed within the limit unless it was in slot 1
    have hcorrect : correct i 1 k + 1 ≤ xchgLimit ↔ ¬(i = xchgLimit ∧ k = 1) := by
      unfold correct
      split_ifs <;> omega
    rw [← hcorrect]
    simp [tripleSteps, Step.Within]
    omega

theorem encodable_pattern3XPP (hi : i ≤ xchgLimit) (hj : j ≤ xchgLimit) (hk : k + 1 ≤ xchgLimit) :
    ∀ c ∈ pattern3XPP i j k, c.Encodable := by
  have hpush : xchgLimit < pushLimit := by decide
  have hj' := correct_le hi (Nat.zero_le _) hj
  have hk' := correct_le hi (Nat.zero_le _) (Nat.le_of_succ_le hk)
  unfold pattern3XPP
  split_ifs
  · exact encodable_pattern2PP hj hk
  · simp [tripleSteps, Step.Within]
    omega

theorem encodable_implPXX (hi : i ≤ xchgLimit) (hj : j + 1 ≤ xchgLimit) (hk : k + 1 ≤ xchgLimit) :
    ∀ c ∈ implPXX i j k, c.Encodable := by
  have hpush : xchgLimit ≤ pushLimit := by decide
  have htwo : 2 ≤ xchgLimit := by decide
  simp [implPXX, tripleSteps, Step.Within]
  omega

theorem encodable_pattern3PXX (hi : i ≤ xchgLimit) (hj : j + 1 ≤ xchgLimit)
    (hk : k + 1 ≤ xchgLimit) : ∀ c ∈ pattern3PXX i j k, c.Encodable := by
  have hpush : xchgLimit ≤ pushLimit := by decide
  have hdeep : 2 ≤ xchgDeepLimit := by decide
  unfold pattern3PXX
  split_ifs
  · exact encodable_implPXX hi hj hk
  · exact encodable_implPXX hi hj hj
  all_goals first
    | exact encodable_implPXX hi hj hk
    | simp [doubleSteps, Step.Within]; omega

theorem encodable_pattern3PXP (hi : i ≤ xchgLimit) (hj : j + 1 ≤ xchgLimit)
    (hk : k + 1 ≤ xchgLimit) : ∀ c ∈ pattern3PXP i j k, c.Encodable := by
  have hpush : xchgLimit ≤ pushLimit := by decide
  have htwo : 2 ≤ xchgLimit := by decide
  unfold pattern3PXP
  split_ifs
  · intro c hc
    rcases List.mem_append.mp hc with hc | hc
    · exact encodable_pattern2PP hi hk c hc
    · obtain rfl := List.mem_singleton.mp hc
      simp
      omega
  all_goals simp [implPXP, tripleSteps, Step.Within]; omega

theorem encodable_pattern3PPX (hi : i ≤ xchgLimit) (hj : j + 1 ≤ xchgLimit)
    (hk : k + 2 ≤ xchgLimit) : ∀ c ∈ pattern3PPX i j k, c.Encodable := by
  have hpush : xchgLimit ≤ pushLimit := by decide
  have happend {cs : List Change} {n : ℕ} (h : ∀ c ∈ cs, c.Encodable) :
      ∀ c ∈ cs ++ [makeRoll n], c.Encodable := by
    intro c hc
    rcases List.mem_append.mp hc with hc | hc
    · exact h c hc
    · obtain rfl := List.mem_singleton.mp hc
      exact encodable_makeRoll
  unfold pattern3PPX
  split_ifs
  · exact happend (encodable_pattern2PP hi hj)
  · exact happend (encodable_pattern3XPP (by omega) hi (by omega))
  · exact happend (encodable_pattern2PP hi hj)
  · simp [tripleSteps, Step.Within]
    omega

theorem encodable_pattern3PPP (hi : i ≤ xchgLimit) (hj : j + 1 ≤ xchgLimit)
    (hk : k + 2 ≤ xchgLimit) : ∀ c ∈ pattern3PPP i j k, c.Encodable := by
  have hpush : xchgLimit ≤ pushLimit := by decide
  simp [pattern3PPP, tripleSteps, Step.Within]
  omega

end Patterns

/-! ## The slots of the operands -/

section Slots

variable {s : Stack} {prev args : List MIArg} {arg : MIArg} {info : ArgInfo}

/-- The lookup finds the topmost occurrence. -/
theorem position_le {v : StackVreg} {p i : ℕ} (hp : position s v = some p)
    (hi : s[i]? = some v) : p ≤ i := by
  obtain ⟨q, hq, -, -, hleast, -⟩ := @positionFrom_spec s 0 v (List.mem_of_getElem? hi)
  rw [positionFrom_zero, hp] at hq
  obtain rfl := Option.some.inj hq
  by_contra hlt
  exact hleast i (Nat.zero_le i) (by omega) hi

/-- The one arrangement of three operands for which a pattern exceeds the limit: the first one
moves up from the deepest slot in reach, the third one from slot 1, and the second one is copied. -/
def ThirdUnderCopy (infos : List ArgInfo) : Prop :=
  ∃ p q r j, infos = [⟨p, false, xchgLimit⟩, ⟨q, true, j⟩, ⟨r, false, 1⟩]

/-- **The patterns keep to the limits** except for one arrangement. -/
theorem encodable_patternChanges {infos : List ArgInfo} {cs : List Change}
    (hinfos : argInfos s [] args = some infos) (hpath : patternPath args infos)
    (h : patternChanges s args infos = some cs) :
    (∀ c ∈ cs, c.Encodable) ↔ ¬ ThirdUnderCopy infos := by
  have hpush : xchgLimit ≤ pushLimit := by decide
  have hdeep : xchgLimit ≤ xchgDeepLimit := by decide
  match args, infos with
  | [arg], [info] =>
    refine iff_of_true ?_ ?_
    swap
    · rintro ⟨_, _, _, _, hbad⟩
      simp at hbad
    -- the register is looked up again, and the lookup finds its topmost occurrence
    have hinfo : argInfo s [] arg = some info := by
      rw [argInfos, Option.bind_eq_bind, Option.bind_eq_some_iff] at hinfos
      obtain ⟨info', hinfo', hrest⟩ := hinfos
      cases hrest
      exact hinfo'
    simp only [patternPath, cantBeOptimized] at hpath
    simp only [patternChanges, Option.bind_eq_bind, Option.bind_eq_some_iff] at h
    obtain ⟨pos, hpos, h⟩ := h
    simp at hpath
    have hle := position_le hpos (argInfo_slot hinfo hpath.2)
    split_ifs at h <;> cases h <;> simp <;> omega
  | [a, b], [x, y] =>
    refine iff_of_true ?_ ?_
    swap
    · rintro ⟨_, _, _, _, hbad⟩
      simp at hbad
    obtain ⟨_, p₀, i⟩ := x
    obtain ⟨_, p₁, j⟩ := y
    simp only [patternPath, cantBeOptimized] at hpath
    cases p₀ <;> cases p₁ <;> cases h <;> simp at hpath <;> obtain ⟨⟨hi, -⟩, hj, -⟩ := hpath
    · exact encodable_pattern2XX hi hj
    · exact encodable_pattern2XP hi hj
    · exact encodable_pattern2PX hi (j := j) (by omega)
    · exact encodable_pattern2PP hi (j := j) (by omega)
  | [a, b, c], [x, y, z] =>
    obtain ⟨p, p₀, i⟩ := x
    obtain ⟨q, p₁, j⟩ := y
    obtain ⟨r, p₂, k⟩ := z
    simp only [patternPath, cantBeOptimized] at hpath
    have hother (hkinds : ¬(p₀ = false ∧ p₁ = true ∧ p₂ = false)) :
        ¬ ThirdUnderCopy [⟨p, p₀, i⟩, ⟨q, p₁, j⟩, ⟨r, p₂, k⟩] := by
      rintro ⟨_, _, _, _, hbad⟩
      simp only [List.cons.injEq, ArgInfo.mk.injEq] at hbad
      exact hkinds ⟨hbad.1.2.1, hbad.2.1.2.1, hbad.2.2.1.2.1⟩
    cases p₀ <;> cases p₁ <;> cases p₂ <;> simp only [patternChanges, Option.some.injEq] at h <;>
      simp at hpath <;> obtain ⟨⟨hi, -⟩, ⟨hj, -⟩, hk, -⟩ := hpath
    · exact iff_of_true (encodable_pattern3XXX hi hj hk h) (hother (by simp))
    · subst h
      exact iff_of_true (encodable_pattern3XXP hi hj hk) (hother (by simp))
    · subst h
      rw [encodable_pattern3XPX hi hj (k := k) (by omega)]
      simp [ThirdUnderCopy]
    · subst h
      exact iff_of_true (encodable_pattern3XPP hi hj (k := k) (by omega)) (hother (by simp))
    · subst h
      exact iff_of_true (encodable_pattern3PXX hi (j := j) (by omega) (k := k) (by omega))
        (hother (by simp))
    · subst h
      exact iff_of_true (encodable_pattern3PXP hi (j := j) (by omega) (k := k) (by omega))
        (hother (by simp))
    · subst h
      exact iff_of_true (encodable_pattern3PPX hi (j := j) (by omega) (k := k) (by omega))
        (hother (by simp))
    · subst h
      exact iff_of_true (encodable_pattern3PPP hi (j := j) (by omega) (k := k) (by omega))
        (hother (by simp))

/-- In that arrangement the pattern is a single compound change. -/
theorem xchgTop_notMem_of_thirdUnderCopy {infos : List ArgInfo} {cs : List Change}
    (hbad : ThirdUnderCopy infos) (h : patternChanges s args infos = some cs) (i : ℕ) :
    .xchgTop i ∉ cs := by
  obtain ⟨p, q, r, j, rfl⟩ := hbad
  match args, h with
  | [a, b, c], h =>
    cases h
    simp [pattern3XPX, correct, xchgLimit]

end Slots

/-! ## The general path -/

section General

variable {src : Stack}

/-- What `emit` does. -/
theorem Fixup.of_emit {f g : Fixup src} {c : Change} (h : f.emit c = some g) :
    c.apply unusedReg f.cur = some g.cur ∧ g.changes = f.changes ++ [c] := by
  cases hrun : c.apply unusedReg f.cur with
  | none =>
    unfold emit at h
    split at h
    · cases h
    · rename_i s hs
      cases hrun.symm.trans hs
  | some s =>
    obtain ⟨g', hg', hcur, hchanges⟩ := emit_eq_some hrun
    obtain rfl := Option.some.inj (h.symm.trans hg')
    exact ⟨by rw [hcur], hchanges⟩

/-- The operands come to the top one after the other, and each one that is copied is within
`pushLimit` at that moment. -/
def CopiesWithinReach : ℕ → Stack → List MIArg → List ArgInfo → Prop
  | offset, s, arg :: args, info :: infos =>
    if info.push then
      (arg.vreg ≠ unusedReg → arg.vreg ∈ s.take (pushLimit + 1)) ∧
        CopiesWithinReach (offset + 1) (arg.vreg :: s) args infos
    else
      match positionFrom s offset arg.vreg with
      | none => True
      | some 0 => CopiesWithinReach offset s args infos
      | some pos => CopiesWithinReach (offset + 1) (arg.vreg :: s.eraseIdx pos) args infos
  | _, _, _, _ => True

/-- A copy is encodable when the register is among the slots that `PUSH` can address. -/
theorem pushVreg_encodable {f g : Fixup src} {v : StackVreg} (h : pushVreg f v = some g) :
    g.cur = v :: f.cur ∧ ∃ c, g.changes = f.changes ++ [c] ∧ (c.Encodable ∨ ∃ i, c = .pushI i) ∧
      (c.Encodable ↔ (v ≠ unusedReg → v ∈ f.cur.take (pushLimit + 1))) := by
  by_cases hv : v = unusedReg
  · rw [pushVreg, if_pos hv] at h
    obtain ⟨happly, hchanges⟩ := Fixup.of_emit h
    refine ⟨by rw [hv]; exact (Option.some.inj happly).symm, _, hchanges, ?_⟩
    simp [hv]
  · rw [pushVreg, if_neg hv, Option.bind_eq_bind, Option.bind_eq_some_iff] at h
    obtain ⟨i, hi, h⟩ := h
    obtain ⟨happly, hchanges⟩ := Fixup.of_emit h
    have hslot := position_slot hi
    refine ⟨by simpa [Change.apply, pushAt, hslot] using happly.symm, _, hchanges,
      Or.inr ⟨i, rfl⟩, ?_⟩
    rw [encodable_pushI]
    refine ⟨fun hle _ => ?_, fun hmem => ?_⟩
    · exact List.mem_iff_getElem?.mpr ⟨i, by rw [List.getElem?_take_of_lt (by omega), hslot]⟩
    · -- the lookup finds the topmost occurrence
      obtain ⟨j, hj⟩ := List.mem_iff_getElem?.mp (hmem hv)
      rw [List.getElem?_take] at hj
      split_ifs at hj
      have := position_le hi hj
      omega

/-- The roll takes the register out of its slot and puts it on top. -/
theorem emit_makeRoll {f g : Fixup src} {pos : ℕ} {v : StackVreg} (hpos : pos ≠ 0)
    (hv : f.cur[pos]? = some v) (h : f.emit (makeRoll pos) = some g) :
    g.cur = v :: f.cur.eraseIdx pos ∧ g.changes = f.changes ++ [makeRoll pos] := by
  obtain ⟨happly, hchanges⟩ := Fixup.of_emit h
  obtain ⟨hlt, rfl⟩ := List.getElem?_eq_some_iff.mp hv
  have hsplit : f.cur = f.cur.take pos ++ f.cur[pos] :: f.cur.drop (pos + 1) := by
    rw [List.getElem_cons_drop, List.take_append_drop]
  have hlen : (f.cur.take pos).length = pos := by simp [hlt.le]
  have hroll := apply_makeRoll unusedReg (f.cur.take pos) f.cur[pos] (f.cur.drop (pos + 1))
    (by rw [← List.length_pos_iff]; omega)
  rw [hlen, ← hsplit, happly] at hroll
  refine ⟨?_, hchanges⟩
  rw [Option.some.inj hroll, List.eraseIdx_eq_take_drop_succ, List.cons_append]

/-- **The general path keeps to the limits** while the copies are within reach. -/
theorem encodable_placeArgs {f g : Fixup src} {offset : ℕ} {args : List MIArg}
    {infos : List ArgInfo} (h : placeArgs f offset args infos = some g) :
    ∃ tail, g.changes = f.changes ++ tail ∧ (∀ c ∈ tail, c.Encodable ∨ ∃ i, c = .pushI i) ∧
      ((∀ c ∈ tail, c.Encodable) ↔ CopiesWithinReach offset f.cur args infos) := by
  induction args generalizing f offset infos with
  | nil =>
    cases h
    exact ⟨[], by simp, by simp, by simp [CopiesWithinReach]⟩
  | cons arg args ih =>
    cases infos with
    | nil =>
      cases h
      exact ⟨[], by simp, by simp, by simp [CopiesWithinReach]⟩
    | cons info infos =>
      rw [placeArgs] at h
      rw [CopiesWithinReach]
      split_ifs at h ⊢ with hpush
      · rw [Option.bind_eq_bind, Option.bind_eq_some_iff] at h
        obtain ⟨f', hf', h⟩ := h
        obtain ⟨hcur, c, hchanges, hkind, henc⟩ := pushVreg_encodable hf'
        obtain ⟨tail, htail, hkinds, hencs⟩ := ih h
        refine ⟨c :: tail, by rw [htail, hchanges]; simp, List.forall_mem_cons.mpr ⟨hkind, hkinds⟩, ?_⟩
        rw [List.forall_mem_cons, henc, hencs, hcur]
      · rw [Option.bind_eq_bind, Option.bind_eq_some_iff] at h
        obtain ⟨pos, hpos, h⟩ := h
        rw [hpos]
        cases pos with
        | zero => exact ih h
        | succ pos =>
          rw [if_pos (Nat.succ_ne_zero pos), Option.bind_eq_bind, Option.bind_eq_some_iff] at h
          obtain ⟨f', hf', h⟩ := h
          obtain ⟨hcur, hchanges⟩ :=
            emit_makeRoll (Nat.succ_ne_zero pos) (positionFrom_slot hpos) hf'
          obtain ⟨tail, htail, hkinds, hencs⟩ := ih h
          refine ⟨makeRoll (pos + 1) :: tail, by rw [htail, hchanges]; simp,
            List.forall_mem_cons.mpr ⟨Or.inl encodable_makeRoll, hkinds⟩, ?_⟩
          rw [List.forall_mem_cons, and_iff_right encodable_makeRoll, hencs, hcur]
          exact Iff.rfl

/-- A stack and an operand list that have no more entries together than `PUSH` can address. -/
theorem copiesWithinReach_of_length {offset : ℕ} {s : Stack} {args : List MIArg}
    {infos : List ArgInfo} (hlen : s.length + args.length ≤ pushLimit + 1)
    (hmem : ArgsPresent s args) : CopiesWithinReach offset s args infos := by
  induction args generalizing offset s infos with
  | nil => trivial
  | cons arg args ih =>
    cases infos with
    | nil => trivial
    | cons info infos =>
      rw [List.length_cons] at hlen
      rw [CopiesWithinReach]
      have hrest : ArgsPresent s args := fun a ha => hmem a (List.mem_cons_of_mem arg ha)
      split_ifs
      · refine ⟨fun hv => ?_, ih (by simpa using by omega) fun a ha hv => ?_⟩
        · rw [List.take_of_length_le (by omega)]
          exact hmem arg List.mem_cons_self hv
        · exact List.mem_cons_of_mem _ (hrest a ha hv)
      · split
        · trivial
        · exact ih (by omega) hrest
        · rename_i pos hpos hfind
          have hslot := positionFrom_slot hfind
          obtain ⟨hlt, hget⟩ := List.getElem?_eq_some_iff.mp hslot
          refine ih ?_ fun a ha hv => ?_
          · rw [List.length_cons, List.length_eraseIdx_of_lt hlt]
            omega
          · have hperm := List.getElem_cons_eraseIdx_perm hlt
            rw [hget] at hperm
            exact hperm.mem_iff.mpr (hrest a ha hv)

end General

/-! ## Operand preparation -/

section Optimized

/-- The optimization removes exchanges only. -/
theorem mem_optimizeLoop {before after : List Change} {c : Change} :
    (c ∈ optimizeLoop before after → c ∈ before ++ after) ∧
      ((∀ i, c ≠ .xchgTop i) → c ∈ before ++ after → c ∈ optimizeLoop before after) := by
  induction before, after using optimizeLoop.induct with
  | case1 before => simp [optimizeLoop]
  | case2 d after ih => simpa [optimizeLoop] using ih
  | case3 before after j ih =>
    rw [optimizeLoop, if_pos rfl]
    refine ⟨fun hc => ?_, fun hne hc => ih.2 hne ?_⟩
    · have := ih.1 hc
      simp only [List.mem_append, List.mem_cons] at this ⊢
      tauto
    · have := hne j
      simp only [List.mem_append, List.mem_cons] at hc ⊢
      tauto
  | case4 before after i j hne ih =>
    rw [optimizeLoop, if_neg hne]
    simp only [List.mem_append, List.mem_cons] at ih ⊢
    tauto
  | case5 p before d after hne ih =>
    rw [optimizeLoop]
    · simp only [List.mem_append, List.mem_cons] at ih ⊢
      tauto
    · exact hne

theorem mem_optimize {isCommutative : Bool} {cs : List Change} {c : Change} :
    (c ∈ optimize isCommutative cs → c ∈ cs) ∧
      ((∀ i, c ≠ .xchgTop i) → c ∈ cs → c ∈ optimize isCommutative cs) := by
  have hloop : (c ∈ optimizeEqualXchgs cs → c ∈ cs) ∧
      ((∀ i, c ≠ .xchgTop i) → c ∈ cs → c ∈ optimizeEqualXchgs cs) := mem_optimizeLoop
  unfold optimize
  cases isCommutative with
  | false => exact hloop
  | true =>
    -- a swap at the end may be dropped as well
    simp only [if_true]
    generalize optimizeEqualXchgs cs = ds at hloop
    split
    · refine ⟨fun hc => absurd hc List.not_mem_nil, fun hne hc => ?_⟩
      exact absurd (List.mem_singleton.mp (hloop.2 hne hc)) (hne 1)
    · refine ⟨fun hc => hloop.1 (List.mem_cons.mpr (Or.inl (List.mem_singleton.mp hc))), ?_⟩
      intro hne hc
      have := hloop.2 hne hc
      have := hne 1
      simp_all
    · refine ⟨fun hc => hloop.1 (List.mem_cons.mpr (Or.inl (List.mem_singleton.mp hc))), ?_⟩
      intro hne hc
      have := hloop.2 hne hc
      have := hne 1
      simp_all
    · exact hloop

/-- The exchanges that the optimization removes are within the limit already. -/
theorem encodable_optimize {isCommutative : Bool} {cs : List Change}
    (hx : ∀ i, Change.xchgTop i ∈ cs → i ≤ xchgDeepLimit) :
    (∀ c ∈ optimize isCommutative cs, c.Encodable) ↔ ∀ c ∈ cs, c.Encodable := by
  refine ⟨fun h c hc => ?_, fun h c hc => h c (mem_optimize.1 hc)⟩
  by_cases hxchg : ∃ i, c = .xchgTop i
  · obtain ⟨i, rfl⟩ := hxchg
    exact encodable_xchgTop.mpr (hx i hc)
  · exact h c (mem_optimize.2 (not_exists.mp hxchg) hc)

end Optimized

section Main

variable {src : Stack} {args : List MIArg} {infos : List ArgInfo}

theorem encodable_dropTopUnused {f : Fixup src} (h : dropTopUnused (Fixup.start src) = some f) :
    f.cur = src.dropWhile (· = unusedReg) ∧ ∀ c ∈ f.changes, c.Encodable := by
  obtain ⟨g, hg, hcur, -⟩ := dropTopUnused_spec src
  obtain rfl := Option.some.inj (hg.symm.trans h)
  refine ⟨hcur, fun c hc => ?_⟩
  simp only [dropTopUnused] at h
  split_ifs at h
  · rw [(Fixup.of_emit h).2] at hc
    obtain rfl : c = makeBlkdrop _ := by simpa [Fixup.start] using hc
    exact encodable_makeBlkdrop
  · cases h
    simp [Fixup.start] at hc

/-- The operands for which a stack pattern exchanges with a slot beyond `xchgLimit`. -/
def ExchangeTooDeep (src : Stack) (args : List MIArg) : Prop :=
  ∃ infos, argInfos (src.dropWhile (· = unusedReg)) [] args = some infos ∧
    patternPath args infos ∧ ThirdUnderCopy infos

/-- The operands for which the general path copies a slot beyond `pushLimit`. -/
def PushTooDeep (src : Stack) (args : List MIArg) : Prop :=
  ∃ infos, argInfos (src.dropWhile (· = unusedReg)) [] args = some infos ∧
    ¬ patternPath args infos ∧
    ¬ CopiesWithinReach 0 (src.dropWhile (· = unusedReg)) args infos

theorem tooDeep_iff (hinfos : argInfos (src.dropWhile (· = unusedReg)) [] args = some infos) :
    (ExchangeTooDeep src args ∨ PushTooDeep src args) ↔
      if patternPath args infos then ThirdUnderCopy infos
      else ¬ CopiesWithinReach 0 (src.dropWhile (· = unusedReg)) args infos := by
  simp only [ExchangeTooDeep, PushTooDeep, hinfos, Option.some.injEq, exists_eq_left']
  split_ifs with hpath <;> simp [hpath]

/-- Where `AlreadyGood` holds nothing is copied. -/
theorem copiesWithinReach_of_alreadyGood {offset : ℕ} {s : Stack} (hgood : alreadyGood infos) :
    CopiesWithinReach offset s args infos := by
  induction infos generalizing offset s args with
  | nil => cases args <;> trivial
  | cons info infos ih =>
    cases args with
    | nil => trivial
    | cons arg args =>
      simp only [alreadyGood, Bool.and_eq_true, Bool.not_eq_true'] at hgood
      rw [CopiesWithinReach, if_neg (by simp [hgood.1.1])]
      split
      · trivial
      · exact ih hgood.2
      · exact ih hgood.2

/-- **Operand preparation keeps to the limits of the instructions**, on any stack and for any
operands, except in the arrangements of `ExchangeTooDeep` and `PushTooDeep`. -/
theorem DiffForArgs_encodable (src : Stack) (args : List MIArg) (isCommutative : Bool)
    (changes : List Change) (h : DiffForArgs src args isCommutative = some changes) :
    (∀ c ∈ changes, c.Encodable) ↔ ¬(ExchangeTooDeep src args ∨ PushTooDeep src args) := by
  unfold DiffForArgs at h
  split_ifs at h with hne
  · cases h
    subst hne
    have hinfos : argInfos (src.dropWhile (· = unusedReg)) [] [] = some [] := rfl
    rw [tooDeep_iff hinfos]
    simp [patternPath, cantBeOptimized, ThirdUnderCopy]
  · simp only [Option.bind_eq_bind, Option.bind_eq_some_iff] at h
    obtain ⟨f, hf, infos, hinfos, h⟩ := h
    obtain ⟨hcur, hdrop⟩ := encodable_dropTopUnused hf
    rw [hcur] at hinfos
    rw [tooDeep_iff hinfos]
    by_cases hgood : alreadyGood infos = true
    · rw [if_pos hgood] at h
      cases h
      refine iff_of_true hdrop ?_
      split_ifs
      · rintro ⟨p, q, r, j, rfl⟩
        simp [alreadyGood] at hgood
      · exact not_not_intro (copiesWithinReach_of_alreadyGood hgood)
    · rw [if_neg hgood] at h
      split_ifs at h ⊢ with hpath
      · obtain ⟨cs, hcs, h⟩ := Option.bind_eq_some_iff.mp h
        cases h
        rw [hcur] at hcs
        have hcs' := encodable_patternChanges hinfos hpath hcs
        rw [encodable_optimize, List.forall_mem_append, and_iff_right hdrop, hcs']
        intro i hi
        rcases List.mem_append.mp hi with hi | hi
        · exact encodable_xchgTop.mp (hdrop _ hi)
        · by_cases hbad : ThirdUnderCopy infos
          · exact absurd hi (xchgTop_notMem_of_thirdUnderCopy hbad hcs i)
          · exact encodable_xchgTop.mp (hcs'.mpr hbad _ hi)
      · obtain ⟨g, hg, h⟩ := Option.bind_eq_some_iff.mp h
        cases h
        obtain ⟨tail, htail, hkinds, hencs⟩ := encodable_placeArgs hg
        rw [hcur] at hencs
        rw [encodable_optimize, htail, List.forall_mem_append, and_iff_right hdrop, hencs, not_not]
        intro i hi
        rw [htail] at hi
        rcases List.mem_append.mp hi with hi | hi
        · exact encodable_xchgTop.mp (hdrop _ hi)
        · rcases hkinds _ hi with henc | ⟨j, hj⟩
          · exact encodable_xchgTop.mp henc
          · cases hj

/-- Copies of two live registers, one of them on top. -/
theorem DiffForArgs_encodable_example :
    (∀ c ∈ [Change.doubleChange true true 0 2], c.Encodable) ↔
      ¬(ExchangeTooDeep [1, 2, 3] [⟨1, false⟩, ⟨3, false⟩] ∨
        PushTooDeep [1, 2, 3] [⟨1, false⟩, ⟨3, false⟩]) :=
  DiffForArgs_encodable [1, 2, 3] [⟨1, false⟩, ⟨3, false⟩] true
    [.doubleChange true true 0 2] (by decide)

set_option maxRecDepth 4000 in
/-- Of the registers `0`, …, `15` the registers `15` and `1` die as the operands around a copy of
`5`, and the third exchange is with slot 16. With all 256 slots in use the copy of the deepest
register is addressed under the copy of the top one. -/
theorem DiffForArgs_encodable_fails :
    (DiffForArgs [0, 1, 2, 3, 4, 5, 6, 7, 8, 9, 10, 11, 12, 13, 14, 15]
        [⟨15, true⟩, ⟨5, false⟩, ⟨1, true⟩] false = some [.tripleChange false true false 15 5 15] ∧
      Step.xchg 0 16 ∈ (Change.tripleChange false true false 15 5 15).steps ∧
      ¬ (Change.tripleChange false true false 15 5 15).Encodable) ∧
    (DiffForArgs (List.ofFn fun i : Fin 256 => i.castLE (by decide))
        [⟨0, false⟩, ⟨255, false⟩] false = some [.pushI 0, .pushI 256] ∧
      ¬ (Change.pushI 256).Encodable) := by
  refine ⟨⟨by decide, by decide, by decide⟩, by decide +kernel, by decide⟩

end Main

end TVMCompiler
