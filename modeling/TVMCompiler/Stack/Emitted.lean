import TVMCompiler.Lib.Runs
import TVMCompiler.Machine.StackForm
import TVMCompiler.Stack.RepeatedArgs
import TVMCompiler.Stack.Returns

/-!
# What is emitted for a fixup

A change that pushes a hidden slot does nothing to the model stack, where the instruction for it
pushes on the stack of the machine. The fixups for operands, for a layout and for a return never
make one. An instruction is generated for each of their changes, but for an exchange with a slot that
is too deep, which only a return may ask for.

## Main definitions

* `Change.Generated`: an instruction is generated for the change

## Main results

* `visible_patternChanges`, `visible_placeArgs`: the two paths of `DiffForArgs`
* `visible_DiffForArgs`: no fixup for operands pushes a hidden slot
* `forall_mem_Diff`: the changes that the universal diff makes
* `visible_Diff`, `visible_DiffForReturn`: no other fixup does
* `generated_DiffForArgs`, `generated_Diff`, `generated_DiffForReturn`: what is generated
* `exists_DiffForArgs`: operands that are on the stack can be prepared
-/

namespace TVMCompiler

open Lib

section Visible

attribute [local simp] Change.Visible Change.mkXchg

theorem visible_makeRoll (i : ℕ) : (makeRoll i).Visible := by
  unfold makeRoll
  split_ifs <;> trivial

theorem visible_makeRollRev (i : ℕ) : (makeRollRev i).Visible := by
  unfold makeRollRev
  split_ifs <;> trivial

theorem visible_makeBlkdrop (i : ℕ) : (makeBlkdrop i).Visible := by
  unfold makeBlkdrop
  split_ifs <;> trivial

theorem visible_pattern2XX (i j : ℕ) : ∀ c ∈ pattern2XX i j, c.Visible := by
  unfold pattern2XX patternX
  split_ifs <;> simp

theorem visible_pattern2XP (i j : ℕ) : ∀ c ∈ pattern2XP i j, c.Visible := by
  unfold pattern2XP
  split_ifs <;> simp

theorem visible_pattern2PX (i j : ℕ) : ∀ c ∈ pattern2PX i j, c.Visible := by
  unfold pattern2PX
  split_ifs <;> simp

theorem visible_pattern3XXX {i j k : ℕ} {cs : List Change} (h : pattern3XXX i j k = some cs) :
    ∀ c ∈ cs, c.Visible := by
  unfold pattern3XXX at h
  split_ifs at h
  · split at h <;> cases h <;> simp
    exact visible_makeRollRev 2
  · cases h
    exact visible_pattern2XX _ _
  · cases h
    simp

theorem visible_pattern3PXX (i j k : ℕ) : ∀ c ∈ pattern3PXX i j k, c.Visible := by
  unfold pattern3PXX implPXX
  split_ifs <;> simp <;> exact visible_makeRollRev 2

theorem visible_pattern3PPX (i j k : ℕ) : ∀ c ∈ pattern3PPX i j k, c.Visible := by
  unfold pattern3PPX pattern2PP pattern3XPP pattern2PP
  split_ifs
  · simpa using visible_makeRoll 2
  · simpa using visible_makeRoll 2
  · simpa using visible_makeRoll 3
  · simp

/-- No stack pattern pushes a hidden slot. -/
theorem visible_patternChanges {s : Stack} {args : List MIArg} {infos : List ArgInfo}
    {cs : List Change} (h : patternChanges s args infos = some cs) : ∀ c ∈ cs, c.Visible := by
  unfold patternChanges at h
  split at h
  · obtain ⟨pos, -, h⟩ := Option.bind_eq_some_iff.mp h
    split_ifs at h <;> cases h <;> simp
  · split at h <;> cases h
    · simp [pattern2PP]
    · exact visible_pattern2XX _ _
    · exact visible_pattern2XP _ _
    · exact visible_pattern2PX _ _
  · split at h
    · exact visible_pattern3XXX h
    all_goals cases h
    · unfold pattern3XXP
      dsimp only
      split_ifs
      · simp
      · exact visible_pattern2XP _ _
      · simp
    · unfold pattern3XPX
      dsimp only
      split_ifs
      · simp
      · exact visible_pattern2PX _ _
      · simp
      · simp
    · unfold pattern3XPP pattern2PP
      split_ifs <;> simp
    · exact visible_pattern3PXX _ _ _
    · unfold pattern3PXP pattern2PP implPXP
      split_ifs <;> simp
    · exact visible_pattern3PPX _ _ _
    · simp [pattern3PPP]
  · cases h

theorem Fixup.forall_emit {P : Change → Prop} {src : Stack} {f g : Fixup src} {c : Change} (hc : P c)
    (hf : ∀ d ∈ f.changes, P d) (h : f.emit c = some g) : ∀ d ∈ g.changes, P d := by
  unfold Fixup.emit at h
  split at h
  · cases h
  · cases h
    intro d hd
    rcases List.mem_append.mp hd with hd | hd
    · exact hf d hd
    · rwa [List.mem_singleton.mp hd]

/-- A push is a push of a slot or of an undefined value. -/
theorem Fixup.forall_pushVreg {P : Change → Prop} (hpush : ∀ i, P (.pushI i)) (hundef : P .pushUndef)
    {src : Stack} {f g : Fixup src} {v : StackVreg} (hf : ∀ d ∈ f.changes, P d)
    (h : pushVreg f v = some g) : ∀ d ∈ g.changes, P d := by
  unfold pushVreg at h
  split_ifs at h
  · exact Fixup.forall_emit hundef hf h
  · obtain ⟨i, -, h⟩ := Option.bind_eq_some_iff.mp h
    exact Fixup.forall_emit (hpush i) hf h

theorem visible_placeArgs {src : Stack} {f g : Fixup src} {offset : ℕ} {args : List MIArg}
    {infos : List ArgInfo} (hf : ∀ d ∈ f.changes, d.Visible)
    (h : placeArgs f offset args infos = some g) : ∀ d ∈ g.changes, d.Visible := by
  induction args generalizing f offset infos with
  | nil =>
    cases h
    exact hf
  | cons arg args ih =>
    cases infos with
    | nil =>
      cases h
      exact hf
    | cons info infos =>
      rw [placeArgs] at h
      split_ifs at h
      · obtain ⟨f', hf', h⟩ := Option.bind_eq_some_iff.mp h
        exact ih (Fixup.forall_pushVreg (fun _ => trivial) trivial hf hf') h
      · obtain ⟨pos, -, h⟩ := Option.bind_eq_some_iff.mp h
        split_ifs at h
        · obtain ⟨f', hf', h⟩ := Option.bind_eq_some_iff.mp h
          exact ih (Fixup.forall_emit (visible_makeRoll pos) hf hf') h
        · exact ih hf h

/-- **No fixup for operands pushes a hidden slot.** -/
theorem visible_DiffForArgs {src : Stack} {args : List MIArg} {isCommutative : Bool}
    {changes : List Change} (h : DiffForArgs src args isCommutative = some changes) :
    ∀ c ∈ changes, c.Visible := by
  unfold DiffForArgs at h
  split_ifs at h
  · cases h
    simp
  obtain ⟨f, hf, h⟩ := Option.bind_eq_some_iff.mp h
  obtain ⟨infos, -, h⟩ := Option.bind_eq_some_iff.mp h
  have hdrop : ∀ c ∈ f.changes, c.Visible := by
    unfold dropTopUnused at hf
    dsimp only at hf
    split_ifs at hf
    · exact Fixup.forall_emit (visible_makeBlkdrop _) (by simp [Fixup.start]) hf
    · cases hf
      simp [Fixup.start]
  split_ifs at h
  · cases h
    exact hdrop
  · obtain ⟨cs, hcs, h⟩ := Option.bind_eq_some_iff.mp h
    cases h
    intro c hc
    exact (List.mem_append.mp (mem_optimize.1 hc)).elim (hdrop c) (visible_patternChanges hcs c)
  · obtain ⟨g, hg, h⟩ := Option.bind_eq_some_iff.mp h
    cases h
    exact fun c hc => visible_placeArgs hdrop hg c (mem_optimize.1 hc)

end Visible

/-! ## The universal diff -/

section Diff

variable {P : Change → Prop} {src : Stack} {f g : Fixup src}

theorem forall_mem_liftBlock (hlift : ∀ i j, P (makeBlkSwap i j)) {deepSz topSz : ℕ}
    (hf : ∀ c ∈ f.changes, P c) (h : liftBlock f deepSz topSz = some g) : ∀ c ∈ g.changes, P c := by
  unfold liftBlock at h
  split_ifs at h
  · exact Fixup.forall_emit (hlift _ _) hf h
  · cases h
    exact hf

theorem forall_mem_moveBlocks (hlift : ∀ i j, P (makeBlkSwap i j)) {idx : List ℕ}
    (hf : ∀ c ∈ f.changes, P c) (h : moveBlocks f idx = some g) : ∀ c ∈ g.changes, P c := by
  induction idx using (measure List.length).wf.induction generalizing f with
  | h idx ih =>
    cases idx with
    | nil =>
      rw [moveBlocks] at h
      cases h
      exact hf
    | cons first is =>
      rw [moveBlocks] at h
      obtain ⟨f', hf', h⟩ := Option.bind_eq_some_iff.mp h
      exact ih _ (Nat.lt_succ_of_le (extractLast_length_le first is))
        (forall_mem_liftBlock hlift hf hf') h

theorem forall_mem_deleteVregs (hlift : ∀ i j, P (makeBlkSwap i j)) (hdrop : ∀ i, P (makeBlkdrop i))
    {delVregs : List StackVreg} (hf : ∀ c ∈ f.changes, P c) (h : deleteVregs f delVregs = some g) :
    ∀ c ∈ g.changes, P c := by
  unfold deleteVregs at h
  split_ifs at h
  · obtain ⟨idx, -, h⟩ := Option.bind_eq_some_iff.mp h
    obtain ⟨f', hf', h⟩ := Option.bind_eq_some_iff.mp h
    have hmoved := forall_mem_moveBlocks hlift hf hf'
    split_ifs at h
    · exact Fixup.forall_emit (hdrop _) hmoved h
    · cases h
      exact hmoved
  · cases h
    exact hf

theorem forall_mem_moveVagons (hlift : ∀ i j, P (makeBlkSwap i j)) (hreverse : ∀ i, P (makeReverse i))
    {vagons : List Vagon} (hf : ∀ c ∈ f.changes, P c) (h : moveVagons f vagons = some g) :
    ∀ c ∈ g.changes, P c := by
  induction vagons using (measure List.length).wf.induction generalizing f with
  | h vagons ih =>
    cases vagons with
    | nil =>
      rw [moveVagons] at h
      cases h
      exact hf
    | cons v vagons =>
      rw [moveVagons] at h
      obtain ⟨f', hf', h⟩ := Option.bind_eq_some_iff.mp h
      obtain ⟨f'', hf'', hf'⟩ := Option.bind_eq_some_iff.mp hf'
      have hlifted := forall_mem_liftBlock hlift hf hf''
      have hlen : (if v.topIdx ≠ 0 then vagons.map v.rebase else vagons).length <
          (v :: vagons).length := by
        split_ifs <;> simp
      refine ih _ hlen ?_ h
      split_ifs at hf'
      · exact Fixup.forall_emit (hreverse _) hlifted hf'
      · cases hf'
        exact hlifted

/-- **The changes that the universal diff makes**: blocks go to the top, are reversed there and
dropped, and slots and undefined values are pushed. -/
theorem forall_mem_Diff (hlift : ∀ i j, P (makeBlkSwap i j)) (hreverse : ∀ i, P (makeReverse i))
    (hdrop : ∀ i, P (makeBlkdrop i)) (hpush : ∀ i, P (.pushI i)) (hundef : P .pushUndef)
    {dst : Stack} {changes : List Change} (h : Diff dst src = some changes) :
    ∀ c ∈ changes, P c := by
  obtain ⟨f, hf, h⟩ := Option.bind_eq_some_iff.mp h
  obtain ⟨g, hg, h⟩ := Option.bind_eq_some_iff.mp h
  obtain ⟨g', hg', heq⟩ := Option.bind_eq_some_iff.mp h
  cases heq
  have hdeleted := forall_mem_deleteVregs hlift hdrop (by simp [Fixup.start]) hf
  have hadded := foldlM_inv (fun _ _ _ hs hstep => Fixup.forall_pushVreg hpush hundef hs hstep)
    hdeleted hg
  obtain ⟨vagons, -, hg'⟩ := Option.bind_eq_some_iff.mp hg'
  obtain ⟨v, -, hg'⟩ := Option.bind_eq_some_iff.mp hg'
  exact fun c hc => forall_mem_moveVagons hlift hreverse hadded hg' c (mem_optimize.1 hc)

end Diff

section Visible

variable {src : Stack}

theorem visible_makeBlkSwap (i j : ℕ) : (makeBlkSwap i j).Visible := by
  unfold makeBlkSwap
  split_ifs
  · exact visible_makeRoll j
  · exact visible_makeRollRev i
  · trivial

theorem visible_makeReverse (i : ℕ) : (makeReverse i).Visible := by
  unfold makeReverse
  split_ifs <;> trivial

theorem visible_Diff {dst : Stack} {changes : List Change} (h : Diff dst src = some changes) :
    ∀ c ∈ changes, c.Visible :=
  forall_mem_Diff visible_makeBlkSwap visible_makeReverse visible_makeBlkdrop (fun _ => trivial)
    trivial h

theorem visible_xchgResult {f g : Fixup src} {i j : ℕ} (hf : ∀ c ∈ f.changes, c.Visible)
    (h : xchgResult f i j = some g) : ∀ c ∈ g.changes, c.Visible := by
  have hxchg (i : ℕ) : (Change.xchgTop i).Visible := trivial
  unfold xchgResult at h
  split_ifs at h
  · cases h
    exact hf
  · exact Fixup.forall_emit (hxchg _) hf h
  · exact Fixup.forall_emit (hxchg _) hf h
  · exact Fixup.forall_emit (by trivial) hf h
  · obtain ⟨f', hf', h⟩ := Option.bind_eq_some_iff.mp h
    obtain ⟨f'', hf'', h⟩ := Option.bind_eq_some_iff.mp h
    exact Fixup.forall_emit (hxchg _) (Fixup.forall_emit (hxchg _) (Fixup.forall_emit (hxchg _) hf hf')
      hf'') h

theorem visible_dropPops {f g : Fixup src} {numPops : ℕ} (hf : ∀ c ∈ f.changes, c.Visible)
    (h : dropPops f numPops = some g) : ∀ c ∈ g.changes, c.Visible := by
  unfold dropPops at h
  split_ifs at h
  · exact Fixup.forall_emit (visible_makeBlkdrop _) hf h
  · cases h
    exact hf

theorem visible_DiffForReturn {preserved : Option StackVreg} {changes : List Change}
    (h : DiffForReturn src preserved = some changes) : ∀ c ∈ changes, c.Visible := by
  have hstart : ∀ c ∈ (Fixup.start src).changes, c.Visible := by simp [Fixup.start]
  cases preserved with
  | none =>
    obtain ⟨f, hf, heq⟩ := Option.bind_eq_some_iff.mp h
    cases heq
    exact fun c hc => visible_dropPops hstart hf c (mem_optimize.1 hc)
  | some reg =>
    obtain ⟨f, hf, h⟩ := Option.bind_eq_some_iff.mp h
    obtain ⟨g, hg, heq⟩ := Option.bind_eq_some_iff.mp h
    cases heq
    refine fun c hc => visible_dropPops ?_ hg c (mem_optimize.1 hc)
    unfold placeResult at hf
    dsimp only at hf
    split_ifs at hf
    · exact Fixup.forall_emit (by trivial) hstart hf
    · cases hf
      exact hstart
    · obtain ⟨i, -, hf⟩ := Option.bind_eq_some_iff.mp hf
      exact visible_xchgResult hstart hf

end Visible

/-! ## Generating the instructions -/

section Generated

/-- `InstructionGenerator` generates an instruction for the change. -/
def Change.Generated (c : Change) : Prop := ∀ i, c = .xchgTop i → i ≤ xchgDeepLimit

theorem Change.Generated.isSome_instruction {Block : Type} {c : Change} (h : c.Generated) :
    (c.instruction : Option (List (StackInstr Block))).isSome := by
  cases c with
  | xchgTop i =>
    have hi := h i rfl
    dsimp only [Change.instruction]
    split_ifs
    · rfl
    · rfl
  | doubleChange p₀ p₁ i j => cases p₀ <;> cases p₁ <;> rfl
  | tripleChange p₀ p₁ p₂ i j k => cases p₀ <;> cases p₁ <;> cases p₂ <;> rfl
  | _ =>
    dsimp only [Change.instruction]
    first | rfl | split_ifs <;> rfl

theorem generated_of_encodable {c : Change} (h : c.Encodable) : c.Generated := by
  rintro i rfl
  exact encodable_xchgTop.mp h

theorem exists_mapM_instruction {Block : Type} {changes : List Change}
    (h : ∀ c ∈ changes, c.Generated) :
    ∃ is : List (List (StackInstr Block)), changes.mapM Change.instruction = some is := by
  induction changes with
  | nil => exact ⟨[], rfl⟩
  | cons c changes ih =>
    obtain ⟨is, his⟩ := Option.isSome_iff_exists.mp
      (h c List.mem_cons_self).isSome_instruction
    obtain ⟨rest, hrest⟩ := ih fun c hc => h c (List.mem_cons_of_mem _ hc)
    refine ⟨is :: rest, ?_⟩
    rw [List.mapM_cons, his, Option.bind_eq_bind, Option.bind_some, hrest]
    rfl

variable {src : Stack}

theorem generated_makeRoll (i : ℕ) : (makeRoll i).Generated := generated_of_encodable (by simp)

theorem generated_makeRollRev (i : ℕ) : (makeRollRev i).Generated :=
  generated_of_encodable (by simp)

theorem generated_makeBlkSwap (i j : ℕ) : (makeBlkSwap i j).Generated := by
  unfold makeBlkSwap
  split_ifs
  · exact generated_makeRoll j
  · exact generated_makeRollRev i
  · nofun

theorem generated_makeReverse (i : ℕ) : (makeReverse i).Generated := by
  unfold makeReverse
  split_ifs
  · rintro i ⟨⟩
    decide
  · nofun

/-- Every change of the universal diff is generated. -/
theorem generated_Diff {dst : Stack} {changes : List Change} (h : Diff dst src = some changes) :
    ∀ c ∈ changes, c.Generated :=
  forall_mem_Diff generated_makeBlkSwap generated_makeReverse
    (fun _ => generated_of_encodable encodable_makeBlkdrop) nofun nofun h

/-- So is every change for a return from a stack of at most 256 slots. -/
theorem generated_DiffForReturn {preserved : Option StackVreg} {changes : List Change}
    (hlen : src.length ≤ xchgDeepLimit + 1) (h : DiffForReturn src preserved = some changes) :
    ∀ c ∈ changes, c.Generated := fun c hc =>
  generated_of_encodable (DiffForReturn_encodable hlen h c hc)

/-- So is every change that prepares operands, also where a push goes too deep. -/
theorem generated_DiffForArgs {args : List MIArg} {isCommutative : Bool} {changes : List Change}
    (h : DiffForArgs src args isCommutative = some changes) : ∀ c ∈ changes, c.Generated := by
  unfold DiffForArgs at h
  split_ifs at h
  · cases h
    exact fun c hc => by cases hc
  obtain ⟨f, hf, h⟩ := Option.bind_eq_some_iff.mp h
  obtain ⟨infos, hinfos, h⟩ := Option.bind_eq_some_iff.mp h
  obtain ⟨hcur, hdrop⟩ := encodable_dropTopUnused hf
  rw [hcur] at hinfos
  split_ifs at h with hgood hpath
  · cases h
    exact fun c hc => generated_of_encodable (hdrop c hc)
  · obtain ⟨cs, hcs, h⟩ := Option.bind_eq_some_iff.mp h
    cases h
    rw [hcur] at hcs
    intro c hc
    rcases List.mem_append.mp (mem_optimize.1 hc) with hc | hc
    · exact generated_of_encodable (hdrop c hc)
    · rintro i rfl
      by_cases hbad : ThirdUnderCopy infos
      · exact absurd hc (xchgTop_notMem_of_thirdUnderCopy hbad hcs i)
      · exact encodable_xchgTop.mp ((encodable_patternChanges hinfos hpath hcs).mpr hbad _ hc)
  · obtain ⟨g, hg, h⟩ := Option.bind_eq_some_iff.mp h
    cases h
    obtain ⟨tail, htail, hkinds, -⟩ := encodable_placeArgs hg
    intro c hc
    have hc := mem_optimize.1 hc
    rw [htail] at hc
    rcases List.mem_append.mp hc with hc | hc
    · exact generated_of_encodable (hdrop c hc)
    · rcases hkinds c hc with henc | ⟨i, rfl⟩
      · exact generated_of_encodable henc
      · nofun

/-- **Operands that are on the stack can be prepared**, in every arrangement. -/
theorem exists_DiffForArgs {args : List MIArg} (hsrc : NoRepetition src) (hflags : FlagsAgree args)
    (hargs : ArgsPresent src args) (isCommutative : Bool) :
    ∃ changes r, DiffForArgs src args isCommutative = some changes ∧
      applyAll unusedReg changes src = some r := by
  obtain ⟨changes, r, hchanges, hrun⟩ : ∃ changes r, DiffForArgs src args false = some changes ∧
      applyAll unusedReg changes src = some r := by
    by_cases hfine : (∀ a ∈ args, a.vreg ≠ unusedReg) →
        ¬ (SecondOnTop src args ∨ ThirdRepeatsSecond src args)
    · obtain ⟨changes, r, hchanges, hrun, -⟩ := DiffForArgs_placed hsrc hflags hargs hfine
      exact ⟨changes, r, hchanges, hrun⟩
    · obtain ⟨hdef, hbad⟩ := Classical.not_imp.mp hfine
      rcases not_not.mp hbad with hsecond | hthird
      · obtain ⟨changes, _, _, _, _, -, -, hchanges, hrun, -⟩ :=
          DiffForArgs_of_secondOnTop hsrc hargs hdef hsecond
        exact ⟨changes, _, hchanges, hrun⟩
      · obtain ⟨changes, _, _, _, _, _, -, -, hchanges, hrun, -⟩ :=
          DiffForArgs_of_thirdRepeatsSecond hsrc hargs hdef hthird
        exact ⟨changes, _, hchanges, hrun⟩
  cases isCommutative with
  | false => exact ⟨changes, r, hchanges, hrun⟩
  | true =>
    obtain ⟨changes', hchanges', rfl | rfl⟩ := DiffForArgs_optimized hchanges
    · exact ⟨_, r, hchanges', hrun⟩
    · -- the exchange at the end is left out
      rw [applyAll_append] at hrun
      obtain ⟨t, ht, -⟩ := Option.bind_eq_some_iff.mp hrun
      exact ⟨changes', t, hchanges', ht⟩

end Generated

end TVMCompiler
