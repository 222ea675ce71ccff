import Mathlib.Data.List.TakeWhile
import TVMCompiler.Stack.Args

/-!
# Operand preparation is correct

The results about `DiffForArgs` on stacks that hold no register twice: the general path always
places the operands, and the pattern path does so except for one arrangement of three operands.

## Main definitions

* `generalPath`: the operand lists for which no stack pattern is used
* `SecondOnTop`: the arrangement that a stack pattern gets wrong

## Main results

* `DiffForArgs_general`: the general path
* `DiffForArgs_distinct`: up to three distinct operands
-/

namespace TVMCompiler

section Phases

variable {src : Stack}

/-- Dropping the unused slots at the top loses no register. -/
theorem dropTopUnused_spec (src : Stack) :
    ∃ g, dropTopUnused (Fixup.start src) = some g ∧ g.cur = src.dropWhile (· = unusedReg) ∧
      (∀ v ≠ unusedReg, g.cur.count v = src.count v) ∧
      ∀ st ∈ trace unusedReg g.changes src,
        st.2 = makeBlkdrop (src.takeWhile (· = unusedReg)).length := by
  have hsplit : src.takeWhile (· = unusedReg) ++ src.dropWhile (· = unusedReg) = src :=
    List.takeWhile_append_dropWhile
  have hcount (v : StackVreg) (hv : v ≠ unusedReg) :
      (src.dropWhile (· = unusedReg)).count v = src.count v := by
    have hzero : (src.takeWhile (· = unusedReg)).count v = 0 := by
      refine List.count_eq_zero_of_not_mem fun hmem => hv ?_
      simpa using List.mem_takeWhile_imp hmem
    conv_rhs => rw [← hsplit, List.count_append, hzero, Nat.zero_add]
  by_cases hnone : src.takeWhile (· = unusedReg) = []
  · have hcur : src.dropWhile (· = unusedReg) = src := by
      rw [hnone, List.nil_append] at hsplit
      exact hsplit
    refine ⟨Fixup.start src, by simp [dropTopUnused, Fixup.start, hnone], hcur.symm, ?_, by
      simp [Fixup.start, trace]⟩
    intro v hv
    exact (hcur ▸ hcount v hv : _)
  · have happly := apply_makeBlkdrop unusedReg _ (src.dropWhile (· = unusedReg)) hnone
    rw [hsplit] at happly
    obtain ⟨g, hg, hcur, hchanges⟩ :=
      Fixup.emit_eq_some (show (makeBlkdrop _).apply unusedReg (Fixup.start src).cur = _ from happly)
    refine ⟨g, ?_, hcur, fun v hv => by rw [hcur, hcount v hv], ?_⟩
    · have hne : (src.takeWhile (· = unusedReg)).length ≠ 0 := by simpa using hnone
      rw [dropTopUnused]
      exact (if_pos hne).trans hg
    · rw [hchanges, trace_emit]
      simp [Fixup.start, trace]

theorem noRepetition_of_count {s : Stack} (hs : NoRepetition src)
    (h : ∀ v ≠ unusedReg, s.count v = src.count v) : NoRepetition s := fun v hv => by
  rw [h v hv]
  exact hs v hv

theorem argsPresent_of_count {s : Stack} {args : List MIArg} (hargs : ArgsPresent src args)
    (h : ∀ v ≠ unusedReg, s.count v = src.count v) : ArgsPresent s args := fun a ha hv => by
  rw [← List.count_pos_iff, h _ hv]
  exact List.count_pos_iff.mpr (hargs a ha hv)

theorem argsPlaced_nil {s : Stack} (h : ∀ v ≠ unusedReg, s.count v = src.count v) :
    ArgsPlaced src [] s :=
  ⟨s, rfl, fun v hv => by simpa [Killed] using h v hv⟩

/-- If `AlreadyGood` holds, the operands are on top and all of them die. -/
theorem alreadyGood_spec {s : Stack} {prev args : List MIArg} {infos : List ArgInfo}
    (hinfos : Described s prev args infos) (hgood : alreadyGood infos) :
    infos.length = args.length ∧ s.take args.length = (args.map MIArg.vreg).reverse ∧
      ∀ a ∈ args, a.isKilled := by
  induction args generalizing prev infos with
  | nil =>
    cases infos with
    | nil => exact ⟨rfl, rfl, by simp⟩
    | cons info infos => exact hinfos.elim
  | cons arg args ih =>
    cases infos with
    | nil => exact hinfos.elim
    | cons info infos =>
      obtain ⟨⟨hinfo, hslot⟩, hrest⟩ := hinfos
      simp only [alreadyGood, Bool.and_eq_true, Bool.not_eq_true', decide_eq_true_eq] at hgood
      obtain ⟨⟨hpush, hpos⟩, hgood⟩ := hgood
      obtain ⟨hlen, htake, hkilled⟩ := ih hrest hgood
      obtain ⟨hv, hdies, -⟩ := hinfo.mp hpush
      have hget := hslot hv
      rw [hpos, hlen] at hget
      refine ⟨by simp [hlen], ?_, ?_⟩
      · rw [List.length_cons, List.take_add_one, htake, hget]
        simp
      · intro a ha
        rcases List.mem_cons.mp ha with rfl | ha
        · exact hdies
        · exact hkilled a ha

theorem argsPlaced_of_alreadyGood {s : Stack} {prev args : List MIArg} {infos : List ArgInfo}
    (hs : NoRepetition src) (hcount : ∀ v ≠ unusedReg, s.count v = src.count v)
    (hinfos : Described s prev args infos) (hgood : alreadyGood infos) :
    ArgsPlaced src args s := by
  obtain ⟨-, htake, hkilled⟩ := alreadyGood_spec hinfos hgood
  refine ⟨s.drop args.length, by rw [← htake, List.take_append_drop], fun v hv => ?_⟩
  have htotal := hcount v hv
  rw [← List.take_append_drop args.length s, List.count_append, htake, List.count_reverse] at htotal
  split
  · rename_i hdies
    have hpos : 0 < (args.map MIArg.vreg).count v :=
      List.count_pos_iff.mpr (List.mem_map.mpr ⟨_, hdies, rfl⟩)
    have := hs v hv
    omega
  · rename_i hlives
    have hzero : (args.map MIArg.vreg).count v = 0 := by
      refine List.count_eq_zero_of_not_mem fun hmem => hlives ?_
      obtain ⟨a, ha, rfl⟩ := List.mem_map.mp hmem
      have := hkilled a ha
      unfold Killed
      rwa [← this]
    omega

end Phases

/-! ## The general path -/

/-- No stack pattern is used: there are more than three operands, or one is undefined or too
deep for an exchange. -/
def generalPath (src : Stack) (args : List MIArg) : Bool :=
  match argInfos (src.dropWhile (· = unusedReg)) [] args with
  | some infos => !patternPath args infos
  | none => false

/-- **The general path is correct**: on a stack without repetitions that holds the operands the
fixup places them. After unused slots are dropped each change takes an operand from the slot it
stands in at that moment, and the operands come in their order. -/
theorem DiffForArgs_general (src : Stack) (args : List MIArg) (hsrc : NoRepetition src)
    (hargs : ArgsPresent src args) (hpath : generalPath src args) :
    ∃ changes r, DiffForArgs src args false = some changes ∧
      applyAll unusedReg changes src = some r ∧ ArgsPlaced src args r ∧
      ∃ (drop : List (Stack × Change)) (steps : List (StackVreg × Stack × Change)),
        trace unusedReg changes src = drop ++ steps.map Prod.snd ∧
        (∀ st ∈ drop, st.2 = makeBlkdrop (src.takeWhile (· = unusedReg)).length) ∧
        (steps.map Prod.fst).Sublist (args.map MIArg.vreg) ∧
        ∀ st ∈ steps, Addresses st.2.1 st.1 st.2.2 := by
  obtain ⟨f, hf, hcur, hcount, hdrop⟩ := dropTopUnused_spec src
  have hne : args ≠ [] := by
    rintro rfl
    simp [generalPath, argInfos, patternPath, cantBeOptimized] at hpath
  obtain ⟨infos, hinfos, hdesc⟩ := argInfos_spec (noRepetition_of_count hsrc hcount) []
    (argsPresent_of_count hargs hcount)
  have hpattern : patternPath args infos = false := by
    rw [generalPath, ← hcur, hinfos] at hpath
    simpa using hpath
  cases hgood : alreadyGood infos with
  | true =>
    refine ⟨f.changes, f.cur, ?_, f.run_eq,
      argsPlaced_of_alreadyGood hsrc hcount hdesc hgood, _, [], by simp, hdrop, by simp, by simp⟩
    simp [DiffForArgs, hne, hf, hinfos, hgood]
  | false =>
    obtain ⟨g, steps, hg, hplaced, hsub, htrace, haddr⟩ := placeArgs_spec hsrc hargs hdesc
      (argsPlaced_nil hcount) (show OffsetFits [] 0 from Or.inl rfl)
    refine ⟨optimize false g.changes, g.cur, ?_, applyAll_optimize_false unusedReg g.run_eq,
      hplaced, ?_⟩
    · simp [DiffForArgs, hne, hf, hinfos, hgood, hpattern, hg]
    · -- what the optimization keeps of the run
      have hkept := trace_optimizeEqualXchgs unusedReg g.run_eq
      rw [htrace] at hkept
      obtain ⟨drop, kept, hsplit, hdrop', hkept'⟩ := List.sublist_append_iff.mp hkept
      obtain ⟨steps', hsteps', rfl⟩ := List.sublist_map_iff.mp hkept'
      exact ⟨drop, steps', hsplit, fun st hst => hdrop st (hdrop'.subset hst),
        (hsteps'.map _).trans hsub, fun st hst => haddr st (hsteps'.subset hst)⟩

/-- Four operands, one of them undefined and one named twice. -/
theorem DiffForArgs_general_example :
    ∃ changes r,
      DiffForArgs [4, 1, unusedReg, 2, 3] [⟨1, true⟩, ⟨unusedReg, true⟩, ⟨3, true⟩, ⟨1, true⟩] false =
        some changes ∧
      applyAll unusedReg changes [4, 1, unusedReg, 2, 3] = some r ∧
      ArgsPlaced [4, 1, unusedReg, 2, 3] [⟨1, true⟩, ⟨unusedReg, true⟩, ⟨3, true⟩, ⟨1, true⟩] r ∧
      ∃ (drop : List (Stack × Change)) (steps : List (StackVreg × Stack × Change)),
        trace unusedReg changes [4, 1, unusedReg, 2, 3] = drop ++ steps.map Prod.snd ∧
        (∀ st ∈ drop, st.2 = makeBlkdrop 0) ∧
        (steps.map Prod.fst).Sublist [1, unusedReg, 3, 1] ∧
        ∀ st ∈ steps, Addresses st.2.1 st.1 st.2.2 :=
  DiffForArgs_general [4, 1, unusedReg, 2, 3] [⟨1, true⟩, ⟨unusedReg, true⟩, ⟨3, true⟩, ⟨1, true⟩]
    (noRepetition_iff.mpr (by decide)) (by simp [ArgsPresent]) (by decide)

/-! ## The pattern path -/

/-- The operands of which a copy stays, the last one first. -/
def keptRegs (args : List MIArg) : List StackVreg :=
  ((args.filter fun a => !a.isKilled).map MIArg.vreg).reverse

/-- The operands that are pushed, the last one first. -/
def pushedRegs (args : List MIArg) (infos : List ArgInfo) : List StackVreg :=
  (((args.zip infos).filter fun p => p.2.push).map fun p => p.1.vreg).reverse

/-- An operand that dies is moved where it is named for the first time, and pushed elsewhere. -/
theorem Described.count_vreg {s : Stack} {prev args : List MIArg} {infos : List ArgInfo}
    (h : Described s prev args infos) {v : StackVreg} (hv : v ≠ unusedReg) :
    (args.map MIArg.vreg).count v =
      (pushedRegs args infos).count v + if Killed args v ∧ ¬ Killed prev v then 1 else 0 := by
  induction args generalizing prev infos with
  | nil => simp [pushedRegs, Killed]
  | cons arg args ih =>
    cases infos with
    | nil => exact h.elim
    | cons info infos =>
      obtain ⟨⟨hinfo, -⟩, hrest⟩ := h
      have hpushed : (pushedRegs (arg :: args) (info :: infos)).count v =
          (pushedRegs args infos).count v + if arg.vreg = v ∧ info.push then 1 else 0 := by
        cases hp : info.push <;> simp [pushedRegs, hp, List.count_cons]
      rw [List.map_cons, List.count_cons, ih hrest, hpushed]
      -- the operand is the one that is moved, or what is said of the others stays true
      have hhead : Killed (arg :: args) v ↔ arg = ⟨v, true⟩ ∨ Killed args v := by
        simp [Killed, eq_comm]
      by_cases hav : arg.vreg = v
      · subst hav
        by_cases hdies : arg = ⟨arg.vreg, true⟩
        · have hkilled : Killed prev arg.vreg ↔ arg ∈ prev := by
            rw [Killed, ← hdies]
          have hdead : arg.isKilled = true := by rw [hdies]
          by_cases hprev : arg ∈ prev
          · have : info.push = true := by simpa [hprev] using hinfo
            simp [killed_append, hkilled, hprev, this]
          · have : info.push = false := hinfo.mpr ⟨hv, hdead, hprev⟩
            simp [killed_append, hkilled, hprev, this, hhead, ← hdies]
        · have hlives : arg.isKilled = false := by
            cases hk : arg.isKilled with
            | false => rfl
            | true => exact absurd (by rw [← hk]) hdies
          have : info.push = true := by simpa [hlives] using hinfo
          simp [killed_append, hhead, hdies, this]
          omega
      · have hdies : arg ≠ ⟨v, true⟩ := by
          rintro rfl
          exact hav rfl
        simp [killed_append, hhead, hdies, hav]

/-- A pattern that copies the operands that are pushed and moves the others places them. -/
theorem argsPlaced_of_places {src s : Stack} {args : List MIArg} {infos : List ArgInfo}
    {cs : List Change} (hsrc : NoRepetition src) (hargs : ArgsPresent src args)
    (hcount : ∀ v ≠ unusedReg, s.count v = src.count v) (hdesc : Described s [] args infos)
    (h : Places unusedReg cs s (args.map MIArg.vreg) (pushedRegs args infos)) :
    ∃ r, applyAll unusedReg cs s = some r ∧ ArgsPlaced src args r := by
  obtain ⟨rest, hrun, hperm⟩ := h
  refine ⟨_, hrun, rest, rfl, fun v hv => ?_⟩
  have htotal := hperm.count_eq v
  have hv_count := hdesc.count_vreg hv
  have hnone : ¬ Killed [] v := List.not_mem_nil
  rw [List.count_append, List.count_append, List.count_reverse, hcount v hv] at htotal
  split
  · rename_i hdies
    have := hsrc.count_eq hv (hargs _ hdies hv)
    rw [if_pos ⟨hdies, hnone⟩] at hv_count
    omega
  · rename_i hlives
    rw [if_neg fun h => hlives h.1] at hv_count
    omega

/-- A register stands in one slot only. -/
theorem NoRepetition.slot_unique {s : Stack} (hs : NoRepetition s) {v : StackVreg}
    (hv : v ≠ unusedReg) {i j : ℕ} (hi : s[i]? = some v) (hj : s[j]? = some v) : i = j := by
  wlog hij : i < j generalizing i j
  · by_contra hne
    exact hne (this hj hi (by omega)).symm
  have htop : v ∈ s.take j := List.mem_iff_getElem?.mpr ⟨i, by rw [List.getElem?_take_of_lt hij, hi]⟩
  have hdeep : v ∈ s.drop j := List.mem_iff_getElem?.mpr ⟨0, by simpa using hj⟩
  have htotal : (s.take j).count v + (s.drop j).count v = s.count v := by
    rw [← List.count_append, List.take_append_drop]
  have := List.count_pos_iff.mpr htop
  have := List.count_pos_iff.mpr hdeep
  have := hs v hv
  omega

/-- The facts of `Described` for an operand that differs from the ones before it. -/
def Obtained (s : Stack) (arg : MIArg) (info : ArgInfo) : Prop :=
  arg.vreg ≠ unusedReg ∧ info.push = !arg.isKilled ∧ s[info.srcPos]? = some arg.vreg

theorem Obtained.srcPos_ne {s : Stack} {a b : MIArg} {i j : ArgInfo} (ha : Obtained s a i)
    (hb : Obtained s b j) (hab : a.vreg ≠ b.vreg) : i.srcPos ≠ j.srcPos := by
  intro h
  have hslot := ha.2.2
  rw [h, hb.2.2] at hslot
  exact hab (Option.some.inj hslot).symm

/-- The facts about two operands. -/
theorem Described.two {s : Stack} {a b : MIArg} {infos : List ArgInfo}
    (h : Described s [] [a, b] infos) :
    ∃ i j, infos = [i, j] ∧
      ((i.push = false ↔ a.vreg ≠ unusedReg ∧ a.isKilled) ∧
        (a.vreg ≠ unusedReg → s[i.srcPos]? = some a.vreg)) ∧
      (j.push = false ↔ b.vreg ≠ unusedReg ∧ b.isKilled ∧ b ≠ a) ∧
      (b.vreg ≠ unusedReg → s[j.srcPos]? = some b.vreg) :=
  match infos, h with
  | [i, j], ⟨hi, hj, _⟩ => ⟨i, j, rfl, by simpa using hi, by simpa using hj⟩

/-- The facts about three operands. -/
theorem Described.three {s : Stack} {a b c : MIArg} {infos : List ArgInfo}
    (h : Described s [] [a, b, c] infos) :
    ∃ i j k, infos = [i, j, k] ∧
      ((i.push = false ↔ a.vreg ≠ unusedReg ∧ a.isKilled) ∧
        (a.vreg ≠ unusedReg → s[i.srcPos]? = some a.vreg)) ∧
      ((j.push = false ↔ b.vreg ≠ unusedReg ∧ b.isKilled ∧ b ≠ a) ∧
        (b.vreg ≠ unusedReg → s[j.srcPos]? = some b.vreg)) ∧
      (k.push = false ↔ c.vreg ≠ unusedReg ∧ c.isKilled ∧ c ≠ a ∧ c ≠ b) ∧
      (c.vreg ≠ unusedReg → s[k.srcPos]? = some c.vreg) :=
  match infos, h with
  | [i, j, k], ⟨hi, hj, hk, _⟩ => ⟨i, j, k, rfl, by simpa using hi, by simpa using hj, by simpa using hk⟩

theorem Described.forall₂ {s : Stack} {prev args : List MIArg} {infos : List ArgInfo}
    (h : Described s prev args infos) (hdef : ∀ a ∈ args, a.vreg ≠ unusedReg)
    (hdistinct : ((prev ++ args).map MIArg.vreg).Nodup) :
    List.Forall₂ (Obtained s) args infos := by
  induction args generalizing prev infos with
  | nil =>
    cases infos with
    | nil => exact List.Forall₂.nil
    | cons info infos => exact h.elim
  | cons arg args ih =>
    cases infos with
    | nil => exact h.elim
    | cons info infos =>
      obtain ⟨⟨hinfo, hslot⟩, hrest⟩ := h
      have hv := hdef arg List.mem_cons_self
      have hnot : arg ∉ prev := by
        intro hin
        rw [List.map_append] at hdistinct
        exact (List.nodup_append.mp hdistinct).2.2 _ (List.mem_map_of_mem hin) _ (by simp) rfl
      refine List.Forall₂.cons ⟨hv, ?_, hslot hv⟩
        (ih hrest (fun a ha => hdef a (List.mem_cons_of_mem arg ha)) (by simpa using hdistinct))
      cases hk : arg.isKilled <;> simpa [hv, hk, hnot] using hinfo

/-- Of distinct operands those are pushed that stay alive. -/
theorem pushedRegs_eq_keptRegs {s : Stack} {args : List MIArg} {infos : List ArgInfo}
    (h : List.Forall₂ (Obtained s) args infos) : pushedRegs args infos = keptRegs args := by
  unfold pushedRegs keptRegs
  congr 1
  induction h with
  | nil => rfl
  | @cons arg info _ _ harg _ ih =>
    obtain ⟨-, hpush, -⟩ := harg
    cases hk : arg.isKilled <;> simpa [hpush, hk] using ih

section PatternChanges

variable {s : Stack} {a b c : MIArg} {i j k : ArgInfo}

theorem patternChanges_one (ha : s[i.srcPos]? = some a.vreg) :
    ∃ cs, patternChanges s [a] [i] = some cs ∧
      Places unusedReg cs s [a.vreg] (pushedRegs [a] [i]) := by
  obtain ⟨pos, hpos, hget⟩ := position_spec (List.mem_of_getElem? ha)
  obtain ⟨hlt, -⟩ := List.getElem?_eq_some_iff.mp hget
  cases hi : i.push with
  | true =>
    refine ⟨[.pushI pos], by simp [patternChanges, hpos, hi], s, ?_, ?_⟩
    · simp [Change.apply, pushAt, hget]
    · simp [pushedRegs, hi]
  | false =>
    by_cases hpos₀ : pos = 0
    · subst hpos₀
      refine ⟨[], by simp [patternChanges, hpos, hi], ?_⟩
      refine places_of_steps expandsTo_nil trivial (fun m hm => ?_)
        (by simp [pushedRegs, hi, pushedBy])
      obtain rfl : m = 0 := by simpa using hm
      exact hget
    · refine ⟨[.xchgTop pos], by simp [patternChanges, hpos, hi, hpos₀], ?_⟩
      refine places_of_steps (expandsTo_xchgTop pos) ⟨⟨by omega, hlt⟩, trivial⟩ (fun m hm => ?_)
        (by simp [pushedRegs, hi, pushedBy])
      obtain rfl : m = 0 := by simpa using hm
      exact (view_xchg_left 0 pos).trans hget

theorem patternChanges_two (ha : s[i.srcPos]? = some a.vreg) (hb : s[j.srcPos]? = some b.vreg)
    (hij : i.push = false → j.push = false → i.srcPos ≠ j.srcPos) :
    ∃ cs, patternChanges s [a, b] [i, j] = some cs ∧
      Places unusedReg cs s [a.vreg, b.vreg] (pushedRegs [a, b] [i, j]) := by
  cases hi : i.push <;> cases hj : j.push <;>
    simp only [patternChanges, hi, hj, pushedRegs, List.zip_cons_cons, List.zip_nil_right,
      List.filter, List.map_cons, List.map_nil, List.reverse_cons, List.reverse_nil,
      List.nil_append, List.cons_append]
  · exact ⟨_, rfl, places_pattern2XX ha hb (hij hi hj)⟩
  · exact ⟨_, rfl, places_pattern2XP ha hb⟩
  · exact ⟨_, rfl, places_pattern2PX ha hb⟩
  · exact ⟨_, rfl, places_pattern2PP ha hb⟩

/-- The slots of three operands in which the pattern for them is right: the exchanged ones are
distinct, a lone exchanged one is not pushed again from below the top, and so on. -/
structure Placeable (i j k : ArgInfo) : Prop where
  exchanged : (i.push = false → j.push = false → i.srcPos ≠ j.srcPos) ∧
    (i.push = false → k.push = false → i.srcPos ≠ k.srcPos) ∧
    (j.push = false → k.push = false → j.srcPos ≠ k.srcPos)
  pxx : i.push = true → j.push = false → k.push = false →
    i.srcPos ≠ j.srcPos ∧ i.srcPos ≠ k.srcPos
  pxp : i.push = true → j.push = false → k.push = true → j.srcPos = k.srcPos → j.srcPos = 0
  ppx : i.push = true → j.push = true → k.push = false → j.srcPos = 0 → k.srcPos < 2

theorem patternChanges_three (ha : s[i.srcPos]? = some a.vreg) (hb : s[j.srcPos]? = some b.vreg)
    (hc : s[k.srcPos]? = some c.vreg) (h : Placeable i j k) :
    ∃ cs, patternChanges s [a, b, c] [i, j, k] = some cs ∧
      Places unusedReg cs s [a.vreg, b.vreg, c.vreg] (pushedRegs [a, b, c] [i, j, k]) := by
  obtain ⟨⟨hij, hik, hjk⟩, hpxx, hpxp, hppx⟩ := h
  cases hi : i.push <;> cases hj : j.push <;> cases hk : k.push <;>
    simp only [patternChanges, hi, hj, hk, pushedRegs, List.zip_cons_cons, List.zip_nil_right,
      List.filter, List.map_cons, List.map_nil, List.reverse_cons, List.reverse_nil,
      List.nil_append, List.cons_append]
  · exact places_pattern3XXX ha hb hc (hij hi hj) (hik hi hk) (hjk hj hk)
  · exact ⟨_, rfl, places_pattern3XXP ha hb hc (hij hi hj)⟩
  · exact ⟨_, rfl, places_pattern3XPX ha hb hc (hik hi hk)⟩
  · exact ⟨_, rfl, places_pattern3XPP ha hb hc⟩
  · obtain ⟨hab, hac⟩ := hpxx hi hj hk
    exact ⟨_, rfl, places_pattern3PXX ha hb hc hab hac (hjk hj hk)⟩
  · exact ⟨_, rfl, places_pattern3PXP ha hb hc (hpxp hi hj hk)⟩
  · exact ⟨_, rfl, places_pattern3PPX ha hb hc (hppx hi hj hk)⟩
  · exact ⟨_, rfl, places_pattern3PPP ha hb hc⟩

end PatternChanges

/-! ## Up to three distinct operands -/

/-- Three operands of which the first two stay alive and the third one dies, within reach of the
stack patterns, where the second one is on top and the third one below the top two slots. -/
def SecondOnTop (src : Stack) (args : List MIArg) : Prop :=
  let cur := src.dropWhile (· = unusedReg)
  ∃ a b c : StackVreg, ∃ i k : ℕ, args = [⟨a, false⟩, ⟨b, false⟩, ⟨c, true⟩] ∧
    cur[i]? = some a ∧ i ≤ xchgLimit ∧ cur[0]? = some b ∧
    cur[k]? = some c ∧ 2 ≤ k ∧ k + 2 ≤ xchgLimit

section Distinct

variable {src : Stack} {args : List MIArg} {infos : List ArgInfo} {f : Fixup src}

/-- The changes of the pattern path follow the ones that drop the unused slots. -/
theorem DiffForArgs_of_patternPath (hne : args ≠ []) (hf : dropTopUnused (Fixup.start src) = some f)
    (hinfos : argInfos f.cur [] args = some infos) (hgood : alreadyGood infos = false)
    (hpattern : patternPath args infos) {cs : List Change} {r : Stack}
    (hcs : patternChanges f.cur args infos = some cs) (hr : applyAll unusedReg cs f.cur = some r) :
    ∃ changes, DiffForArgs src args false = some changes ∧
      applyAll unusedReg changes src = some r := by
  refine ⟨optimize false (f.changes ++ cs), ?_, applyAll_optimize_false unusedReg ?_⟩
  · simp [DiffForArgs, hne, hf, hinfos, hgood, hpattern, hcs]
  · rw [applyAll_append, f.run_eq]
    exact hr

/-- Where the patterns place the operands the fixup does. -/
theorem DiffForArgs_of_places (hsrc : NoRepetition src) (hargs : ArgsPresent src args)
    (hne : args ≠ [])
    (hplaces : ∀ infos, Described (src.dropWhile (· = unusedReg)) [] args infos →
      patternPath args infos →
      ∃ cs, patternChanges (src.dropWhile (· = unusedReg)) args infos = some cs ∧
        Places unusedReg cs (src.dropWhile (· = unusedReg)) (args.map MIArg.vreg)
          (pushedRegs args infos)) :
    ∃ changes r, DiffForArgs src args false = some changes ∧
      applyAll unusedReg changes src = some r ∧ ArgsPlaced src args r := by
  obtain ⟨f, hf, hcur, hcount, -⟩ := dropTopUnused_spec src
  have hs := noRepetition_of_count hsrc hcount
  obtain ⟨infos, hinfos, hdesc⟩ := argInfos_spec hs [] (argsPresent_of_count hargs hcount)
  rw [← hcur] at hplaces
  cases hgood : alreadyGood infos with
  | true =>
    exact ⟨f.changes, f.cur, by simp [DiffForArgs, hne, hf, hinfos, hgood], f.run_eq,
      argsPlaced_of_alreadyGood hsrc hcount hdesc hgood⟩
  | false =>
    cases hpattern : patternPath args infos with
    | true =>
      obtain ⟨cs, hcs, hplaces⟩ := hplaces infos hdesc hpattern
      obtain ⟨r, hr, hplaced⟩ := argsPlaced_of_places hsrc hargs hcount hdesc hplaces
      obtain ⟨changes, hchanges, happly⟩ :=
        DiffForArgs_of_patternPath hne hf hinfos hgood hpattern hcs hr
      exact ⟨changes, r, hchanges, happly, hplaced⟩
    | false =>
      obtain ⟨g, -, hg, hplaced, -⟩ := placeArgs_spec hsrc hargs hdesc
        (argsPlaced_nil hcount) (show OffsetFits [] 0 from Or.inl rfl)
      exact ⟨optimize false g.changes, g.cur,
        by simp [DiffForArgs, hne, hf, hinfos, hgood, hpattern, hg],
        applyAll_optimize_false unusedReg g.run_eq, hplaced⟩

/-- In the arrangement of `SecondOnTop` the fixup puts the third operand into the place of the
second one. Below the operands the third one occurs no more. -/
theorem DiffForArgs_of_secondOnTop (hsrc : NoRepetition src) (hargs : ArgsPresent src args)
    (hdef : ∀ a ∈ args, a.vreg ≠ unusedReg) (hbad : SecondOnTop src args) :
    ∃ changes a b c rest, args = [⟨a, false⟩, ⟨b, false⟩, ⟨c, true⟩] ∧ b ≠ c ∧
      DiffForArgs src args false = some changes ∧
      applyAll unusedReg changes src = some (c :: c :: a :: rest) ∧
      ∀ v ≠ unusedReg, rest.count v + [c].count v = src.count v := by
  obtain ⟨f, hf, hcur, hcount, -⟩ := dropTopUnused_spec src
  have hs := noRepetition_of_count hsrc hcount
  obtain ⟨infos, hinfos, hdesc⟩ := argInfos_spec hs [] (argsPresent_of_count hargs hcount)
  obtain ⟨a, b, c, i, k, rfl, ha, hi, hb, hc, hk, hk'⟩ := hbad
  rw [← hcur] at ha hb hc
  obtain ⟨info_a, info_b, info_c, rfl, ⟨hpush_a, hslot_a⟩, ⟨hpush_b, hslot_b⟩, hpush_c, hslot_c⟩ :=
    hdesc.three
  have ha₀ : a ≠ unusedReg := hdef ⟨a, false⟩ (by simp)
  have hb₀ : b ≠ unusedReg := hdef ⟨b, false⟩ (by simp)
  have hc₀ : c ≠ unusedReg := hdef ⟨c, true⟩ (by simp)
  obtain rfl := hs.slot_unique ha₀ ha (hslot_a ha₀)
  have hpos_b := hs.slot_unique hb₀ hb (hslot_b hb₀)
  obtain rfl := hs.slot_unique hc₀ hc (hslot_c hc₀)
  have hpush_a : info_a.push = true := by simpa using hpush_a
  have hpush_b : info_b.push = true := by simpa using hpush_b
  have hpush_c : info_c.push = false := by simpa [hc₀] using hpush_c
  have hbc : b ≠ c := by
    rintro rfl
    have := hs.slot_unique hb₀ hb hc
    omega
  obtain ⟨rest, hrun, hperm⟩ : Places unusedReg _ f.cur _ _ :=
    applyAll_pattern3PPX_zero ha hc hk
  obtain ⟨changes, hchanges, happly⟩ := DiffForArgs_of_patternPath (by simp) hf hinfos
    (by simp [alreadyGood, hpush_a])
    (by
      simp only [patternPath, cantBeOptimized, hpush_a, hpush_b, ← hpos_b]
      simp [ha₀, hb₀, hc₀]
      omega)
    (by simp only [patternChanges, hpush_a, hpush_b, hpush_c, ← hpos_b]) hrun
  refine ⟨changes, a, b, c, rest, rfl, hbc, hchanges, happly, fun v hv => ?_⟩
  have htotal := hperm.count_eq v
  rw [List.count_append, List.count_append, List.count_reverse, hcount v hv] at htotal
  simp only [List.count_cons, List.count_nil] at htotal ⊢
  omega

/-- Elsewhere the patterns place the operands. -/
theorem patternChanges_spec
    (hobt : List.Forall₂ (Obtained (src.dropWhile (· = unusedReg))) args infos) (hne : args ≠ []) (hlen : args.length ≤ 3)
    (hdistinct : (args.map MIArg.vreg).Nodup) (hpattern : patternPath args infos)
    (hfine : ¬ SecondOnTop src args) :
    ∃ cs, patternChanges (src.dropWhile (· = unusedReg)) args infos = some cs ∧
      Places unusedReg cs (src.dropWhile (· = unusedReg)) (args.map MIArg.vreg)
        (keptRegs args) := by
  rw [← pushedRegs_eq_keptRegs hobt]
  cases hobt with
  | nil => exact absurd rfl hne
  | @cons a i _ _ ha hobt =>
  cases hobt with
  | nil => exact patternChanges_one ha.2.2
  | @cons b j _ _ hb hobt =>
  have hab : a.vreg ≠ b.vreg := by
    rintro h
    simp [h] at hdistinct
  have hij := ha.srcPos_ne hb hab
  cases hobt with
  | nil => exact patternChanges_two ha.2.2 hb.2.2 fun _ _ => hij
  | @cons c k _ _ hc hobt =>
  cases hobt with
  | cons _ _ =>
    simp only [List.length_cons] at hlen
    omega
  | nil =>
    have hac : a.vreg ≠ c.vreg := by
      rintro h
      simp [h] at hdistinct
    have hbc : b.vreg ≠ c.vreg := by
      rintro h
      simp [h] at hdistinct
    have hik := ha.srcPos_ne hc hac
    have hjk := hb.srcPos_ne hc hbc
    obtain ⟨ha₀, hpush_a, hslot_a⟩ := ha
    obtain ⟨hb₀, hpush_b, hslot_b⟩ := hb
    obtain ⟨hc₀, hpush_c, hslot_c⟩ := hc
    refine patternChanges_three hslot_a hslot_b hslot_c
      ⟨⟨fun _ _ => hij, fun _ _ => hik, fun _ _ => hjk⟩, fun _ _ _ => ⟨hij, hik⟩,
        fun _ _ _ h => absurd h hjk, fun hi hj hk hj₀ => ?_⟩
    by_contra hlt
    simp only [patternPath, cantBeOptimized, hi, hj, hj₀] at hpattern
    simp [ha₀, hb₀, hc₀] at hpattern
    have hk' : 2 ≤ k.srcPos ∧ k.srcPos + 2 ≤ xchgLimit := by omega
    refine hfine ⟨a.vreg, b.vreg, c.vreg, i.srcPos, k.srcPos, ?_, hslot_a, hpattern.1,
      hj₀ ▸ hslot_b, hslot_c, hk'⟩
    cases a
    cases b
    cases c
    simp_all

end Distinct

/-- **Operand preparation for up to three distinct operands** on a stack that holds no register
twice: it is correct except in the arrangement of `SecondOnTop`. -/
theorem DiffForArgs_distinct (src : Stack) (args : List MIArg) (hsrc : NoRepetition src)
    (hargs : ArgsPresent src args) (hne : args ≠ []) (hlen : args.length ≤ 3)
    (hdef : ∀ a ∈ args, a.vreg ≠ unusedReg) (hdistinct : (args.map MIArg.vreg).Nodup) :
    (∃ changes r, DiffForArgs src args false = some changes ∧
      applyAll unusedReg changes src = some r ∧ ArgsPlaced src args r) ↔
      ¬ SecondOnTop src args := by
  constructor
  · rintro ⟨changes, r, hrun, happly, rest, rfl, -⟩ hbad
    obtain ⟨changes', a, b, c, rest', rfl, hbc, hrun', happly', -⟩ :=
      DiffForArgs_of_secondOnTop hsrc hargs hdef hbad
    obtain rfl : changes = changes' := Option.some.inj (hrun.symm.trans hrun')
    have hsame := Option.some.inj (happly.symm.trans happly')
    simp only [List.map_cons, List.map_nil, List.reverse_cons, List.reverse_nil, List.nil_append,
      List.cons_append, List.cons.injEq] at hsame
    exact hbc hsame.2.1
  · intro hfine
    refine DiffForArgs_of_places hsrc hargs hne fun infos hdesc hpattern => ?_
    have hobt := hdesc.forall₂ hdef hdistinct
    rw [pushedRegs_eq_keptRegs hobt]
    exact patternChanges_spec hobt hne hlen hdistinct hpattern hfine

/-- Two live operands and a dying one, none of them on top in the way that `SecondOnTop` says. -/
theorem DiffForArgs_distinct_example :
    (∃ changes r,
      DiffForArgs [3, 1, unusedReg, 2] [⟨1, false⟩, ⟨2, false⟩, ⟨3, true⟩] false = some changes ∧
      applyAll unusedReg changes [3, 1, unusedReg, 2] = some r ∧
      ArgsPlaced [3, 1, unusedReg, 2] [⟨1, false⟩, ⟨2, false⟩, ⟨3, true⟩] r) ↔
      ¬ SecondOnTop [3, 1, unusedReg, 2] [⟨1, false⟩, ⟨2, false⟩, ⟨3, true⟩] :=
  DiffForArgs_distinct [3, 1, unusedReg, 2] [⟨1, false⟩, ⟨2, false⟩, ⟨3, true⟩]
    (noRepetition_iff.mpr (by decide)) (by simp [ArgsPresent]) (by simp) (by simp)
    (by simp [unusedReg]) (by decide)

/-- With register `2` on top, `1` under it and `3` below them the copies of `1` and `2` and the
moved `3` should be on top. The fixup puts `3` there twice. -/
theorem DiffForArgs_distinct_fails :
    NoRepetition [2, 1, 3] ∧ ArgsPresent [2, 1, 3] [⟨1, false⟩, ⟨2, false⟩, ⟨3, true⟩] ∧
      DiffForArgs [2, 1, 3] [⟨1, false⟩, ⟨2, false⟩, ⟨3, true⟩] false =
        some [.tripleChange false true true 2 1 0, .roll 2] ∧
      applyAll unusedReg [.tripleChange false true true 2 1 0, .roll 2] [2, 1, 3] =
        some [3, 3, 1, 1, 2] ∧
      ¬ ArgsPlaced [2, 1, 3] [⟨1, false⟩, ⟨2, false⟩, ⟨3, true⟩] [3, 3, 1, 1, 2] := by
  refine ⟨noRepetition_iff.mpr (by decide), by simp [ArgsPresent], by decide, by decide, ?_⟩
  rintro ⟨rest, h, -⟩
  simp at h

end TVMCompiler
