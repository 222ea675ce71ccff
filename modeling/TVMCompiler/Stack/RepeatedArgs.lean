import Mathlib.Data.List.Nodup
import TVMCompiler.Stack.DiffForArgs

/-!
# Preparing an operand twice

`DiffForArgs` on a stack that holds no register twice, for two or three operands of which two are
the same. An operand that dies is moved where it is named first and pushed where it is named
again, so a stack pattern gets the same slot twice. For two operands the patterns are always
right, and the order of the operands of a commutative instruction is the only thing that the
optimization may change.

## Main definitions

* `ThirdRepeatsSecond`: the second arrangement that a stack pattern gets wrong
* `ArgsTaken`: what is right also in the two arrangements

## Main results

* `DiffForArgs_repeated`: the operands are placed outside of two arrangements
* `DiffForArgs_commutative`: the two operands of a commutative instruction
* `DiffForArgs_taken`: below the operands the ones that die are gone, in every arrangement
-/

namespace TVMCompiler

/-- Three operands of which the first one stays alive, the second one dies and the third one
names the second one again, within reach of the stack patterns, where that register is not on
top. -/
def ThirdRepeatsSecond (src : Stack) (args : List MIArg) : Prop :=
  let cur := src.dropWhile (· = unusedReg)
  ∃ (a b : StackVreg) (again : Bool) (i j : ℕ), args = [⟨a, false⟩, ⟨b, true⟩, ⟨b, again⟩] ∧
    cur[i]? = some a ∧ i ≤ xchgLimit ∧ cur[j]? = some b ∧ 1 ≤ j ∧ j + 1 ≤ xchgLimit

section Repeated

variable {src : Stack} {args : List MIArg} {infos : List ArgInfo}

/-- In the arrangement of `ThirdRepeatsSecond` the fixup puts what was on top into the place of
the third operand. Below the operands the second one occurs no more. -/
theorem DiffForArgs_of_thirdRepeatsSecond (hsrc : NoRepetition src) (hargs : ArgsPresent src args)
    (hdef : ∀ a ∈ args, a.vreg ≠ unusedReg) (hbad : ThirdRepeatsSecond src args) :
    ∃ changes a b again top rest, args = [⟨a, false⟩, ⟨b, true⟩, ⟨b, again⟩] ∧ top ≠ b ∧
      DiffForArgs src args false = some changes ∧
      applyAll unusedReg changes src = some (top :: b :: a :: rest) ∧
      ∀ v ≠ unusedReg, rest.count v + [b].count v = src.count v := by
  obtain ⟨f, hf, hcur, hcount, -⟩ := dropTopUnused_spec src
  have hs := noRepetition_of_count hsrc hcount
  obtain ⟨infos, hinfos, hdesc⟩ := argInfos_spec hs [] (argsPresent_of_count hargs hcount)
  obtain ⟨a, b, again, i, j, rfl, ha, hi, hb, hj, hj'⟩ := hbad
  rw [← hcur] at ha hb
  obtain ⟨info_a, info_b, info_c, rfl, ⟨hpush_a, hslot_a⟩, ⟨hpush_b, hslot_b⟩, hpush_c, hslot_c⟩ :=
    hdesc.three
  have ha₀ : a ≠ unusedReg := hdef ⟨a, false⟩ (by simp)
  have hb₀ : b ≠ unusedReg := hdef ⟨b, true⟩ (by simp)
  obtain rfl := hs.slot_unique ha₀ ha (hslot_a ha₀)
  obtain rfl := hs.slot_unique hb₀ hb (hslot_b hb₀)
  have hpos_c := hs.slot_unique hb₀ hb (hslot_c hb₀)
  have hpush_a : info_a.push = true := by simpa using hpush_a
  have hpush_b : info_b.push = false := by simpa [hb₀] using hpush_b
  have hpush_c : info_c.push = true := by
    cases again <;> simpa using hpush_c
  -- the register on top is another one
  obtain ⟨top, htop⟩ : ∃ top, f.cur[0]? = some top := by
    obtain ⟨hlt, -⟩ := List.getElem?_eq_some_iff.mp hb
    exact ⟨_, List.getElem?_eq_getElem (by omega)⟩
  have hne : top ≠ b := by
    rintro rfl
    have := hs.slot_unique hb₀ htop hb
    omega
  obtain ⟨rest, hrun, hperm⟩ : Places unusedReg _ f.cur _ _ :=
    applyAll_pattern3PXP_same ha hb (by omega) htop
  obtain ⟨changes, hchanges, happly⟩ := DiffForArgs_of_patternPath (by simp) hf hinfos
    (by simp [alreadyGood, hpush_a])
    (by
      simp only [patternPath, cantBeOptimized, hpush_a, hpush_b, ← hpos_c]
      simp [ha₀, hb₀]
      omega)
    (by simp only [patternChanges, hpush_a, hpush_b, hpush_c, ← hpos_c]) hrun
  refine ⟨changes, a, b, again, top, rest, rfl, hne, hchanges, happly, fun v hv => ?_⟩
  have htotal := hperm.count_eq v
  rw [List.count_append, List.count_append, List.count_reverse, hcount v hv] at htotal
  simp only [List.count_cons, List.count_nil] at htotal ⊢
  omega

/-- Operands that are moved stand in different slots. -/
theorem MIArg.srcPos_ne {s : Stack} {a b : MIArg} {i j : ℕ} (ha : s[i]? = some a.vreg)
    (hb : s[j]? = some b.vreg) (hka : a.isKilled) (hkb : b.isKilled) (hne : b ≠ a) : i ≠ j := by
  rintro rfl
  obtain ⟨a, _⟩ := a
  obtain ⟨b, _⟩ := b
  have hab : b = a := Option.some.inj (hb.symm.trans ha)
  subst hka hkb hab
  exact hne rfl

/-- Elsewhere the patterns place two operands that are the same, … -/
theorem patternChanges_repeated_two {s : Stack} {a b : MIArg} (hdesc : Described s [] [a, b] infos)
    (hdef : ∀ arg ∈ [a, b], arg.vreg ≠ unusedReg) (hrepeated : ¬ [a, b].Nodup) :
    ∃ cs, patternChanges s [a, b] infos = some cs ∧
      Places unusedReg cs s [a.vreg, b.vreg] (pushedRegs [a, b] infos) := by
  obtain ⟨i, j, rfl, ⟨-, hslot_a⟩, hpush_b, hslot_b⟩ := hdesc.two
  have hab : a = b := by simpa using hrepeated
  refine patternChanges_two (hslot_a (hdef a (by simp))) (hslot_b (hdef b (by simp))) fun _ hj => ?_
  exact absurd hab.symm (hpush_b.mp hj).2.2

/-- … and three operands of which two are the same. -/
theorem patternChanges_repeated_three {a b c : MIArg}
    (hdesc : Described (src.dropWhile (· = unusedReg)) [] [a, b, c] infos)
    (hdef : ∀ arg ∈ [a, b, c], arg.vreg ≠ unusedReg) (hrepeated : ¬ [a, b, c].Nodup)
    (hpattern : patternPath [a, b, c] infos)
    (hfine : ¬ (SecondOnTop src [a, b, c] ∨ ThirdRepeatsSecond src [a, b, c])) :
    ∃ cs, patternChanges (src.dropWhile (· = unusedReg)) [a, b, c] infos = some cs ∧
      Places unusedReg cs (src.dropWhile (· = unusedReg)) [a.vreg, b.vreg, c.vreg]
        (pushedRegs [a, b, c] infos) := by
  obtain ⟨i, j, k, rfl, ⟨hpush_a, hslot_a⟩, ⟨hpush_b, hslot_b⟩, hpush_c, hslot_c⟩ := hdesc.three
  have ha₀ : a.vreg ≠ unusedReg := hdef a (by simp)
  have hb₀ : b.vreg ≠ unusedReg := hdef b (by simp)
  have hc₀ : c.vreg ≠ unusedReg := hdef c (by simp)
  have hslot_a := hslot_a ha₀
  have hslot_b := hslot_b hb₀
  have hslot_c := hslot_c hc₀
  simp only [ne_eq, not_false_eq_true, true_and, ha₀, hb₀, hc₀] at hpush_a hpush_b hpush_c
  refine patternChanges_three hslot_a hslot_b hslot_c ⟨⟨?_, ?_, ?_⟩, ?_, ?_, ?_⟩
  · intro hi hj
    exact MIArg.srcPos_ne hslot_a hslot_b (hpush_a.mp hi) (hpush_b.mp hj).1 (hpush_b.mp hj).2
  · intro hi hk
    exact MIArg.srcPos_ne hslot_a hslot_c (hpush_a.mp hi) (hpush_c.mp hk).1 (hpush_c.mp hk).2.1
  · intro hj hk
    exact MIArg.srcPos_ne hslot_b hslot_c (hpush_b.mp hj).1 (hpush_c.mp hk).1 (hpush_c.mp hk).2.2
  · -- two operands that are moved and one that stays alive are distinct
    intro _ hj hk
    obtain ⟨-, hba⟩ := hpush_b.mp hj
    obtain ⟨-, hca, hcb⟩ := hpush_c.mp hk
    exact absurd (by simp [Ne.symm hba, Ne.symm hca, Ne.symm hcb]) hrepeated
  · intro hi hj hk hjk
    by_contra hpos
    refine hfine (Or.inr ?_)
    have hlives : a.isKilled = false := by simpa [hi] using hpush_a
    have hvreg : c.vreg = b.vreg := Option.some.inj (hslot_c.symm.trans (hjk ▸ hslot_b))
    have hc : c = ⟨b.vreg, c.isKilled⟩ := by rw [← hvreg]
    simp only [patternPath, cantBeOptimized, hi, hj] at hpattern
    simp [ha₀, hb₀, hc₀] at hpattern
    refine ⟨a.vreg, b.vreg, c.isKilled, i.srcPos, j.srcPos, ?_, hslot_a, hpattern.1, hslot_b,
      by omega, by omega⟩
    rw [← hlives, ← (hpush_b.mp hj).1, ← hc]
  · intro hi hj hk hj₀
    by_contra hlt
    refine hfine (Or.inl ?_)
    have hlives_a : a.isKilled = false := by simpa [hi] using hpush_a
    have hlives_b : b.isKilled = false := by
      cases hkb : b.isKilled with
      | false => rfl
      | true =>
        have hba : b = a := by simpa [hj, hkb] using hpush_b
        rw [← hkb, hba, hlives_a]
    simp only [patternPath, cantBeOptimized, hi, hj, hj₀] at hpattern
    simp [ha₀, hb₀, hc₀] at hpattern
    refine ⟨a.vreg, b.vreg, c.vreg, i.srcPos, k.srcPos, ?_, hslot_a, hpattern.1, hj₀ ▸ hslot_b,
      hslot_c, by omega, by omega⟩
    rw [← (hpush_c.mp hk).1]
    nth_rewrite 1 [← hlives_a]
    rw [← hlives_b]

/-- **Operand preparation for two or three operands of which two are the same**, on a stack that
holds no register twice: it is correct except in the arrangements of `SecondOnTop` and
`ThirdRepeatsSecond`. -/
theorem DiffForArgs_repeated (src : Stack) (args : List MIArg) (hsrc : NoRepetition src)
    (hargs : ArgsPresent src args) (hlen : args.length ≤ 3)
    (hdef : ∀ a ∈ args, a.vreg ≠ unusedReg) (hrepeated : ¬ args.Nodup) :
    (∃ changes r, DiffForArgs src args false = some changes ∧
      applyAll unusedReg changes src = some r ∧ ArgsPlaced src args r) ↔
      ¬ (SecondOnTop src args ∨ ThirdRepeatsSecond src args) := by
  constructor
  · rintro ⟨changes, r, hrun, happly, rest, rfl, -⟩ (hbad | hbad)
    · obtain ⟨changes', a, b, c, rest', rfl, hbc, hrun', happly', -⟩ :=
        DiffForArgs_of_secondOnTop hsrc hargs hdef hbad
      obtain rfl : changes = changes' := Option.some.inj (hrun.symm.trans hrun')
      have hsame := Option.some.inj (happly.symm.trans happly')
      simp only [List.map_cons, List.map_nil, List.reverse_cons, List.reverse_nil,
        List.nil_append, List.cons_append, List.cons.injEq] at hsame
      exact hbc hsame.2.1
    · obtain ⟨changes', a, b, again, top, rest', rfl, htop, hrun', happly', -⟩ :=
        DiffForArgs_of_thirdRepeatsSecond hsrc hargs hdef hbad
      obtain rfl : changes = changes' := Option.some.inj (hrun.symm.trans hrun')
      have hsame := Option.some.inj (happly.symm.trans happly')
      simp only [List.map_cons, List.map_nil, List.reverse_cons, List.reverse_nil,
        List.nil_append, List.cons_append, List.cons.injEq] at hsame
      exact htop hsame.1.symm
  · intro hfine
    have hne : args ≠ [] := by
      rintro rfl
      simp at hrepeated
    refine DiffForArgs_of_places hsrc hargs hne fun infos hdesc hpattern => ?_
    match args, hlen with
    | [a], _ => simp at hrepeated
    | [a, b], _ => exact patternChanges_repeated_two hdesc hdef hrepeated
    | [a, b, c], _ => exact patternChanges_repeated_three hdesc hdef hrepeated hpattern hfine

end Repeated

/-- A register that dies, between two uses of one that stays alive. -/
theorem DiffForArgs_repeated_example :
    (∃ changes r,
      DiffForArgs [3, 1, unusedReg, 2] [⟨1, false⟩, ⟨2, true⟩, ⟨1, false⟩] false = some changes ∧
      applyAll unusedReg changes [3, 1, unusedReg, 2] = some r ∧
      ArgsPlaced [3, 1, unusedReg, 2] [⟨1, false⟩, ⟨2, true⟩, ⟨1, false⟩] r) ↔
      ¬ (SecondOnTop [3, 1, unusedReg, 2] [⟨1, false⟩, ⟨2, true⟩, ⟨1, false⟩] ∨
        ThirdRepeatsSecond [3, 1, unusedReg, 2] [⟨1, false⟩, ⟨2, true⟩, ⟨1, false⟩]) :=
  DiffForArgs_repeated [3, 1, unusedReg, 2] [⟨1, false⟩, ⟨2, true⟩, ⟨1, false⟩]
    (noRepetition_iff.mpr (by decide)) (by simp [ArgsPresent]) (by simp)
    (by simp [unusedReg]) (by decide)

/-- With register `0` on top of register `1` a copy of `0` and register `1` twice should be on
top. The fixup puts `0` into the place of the second `1`. -/
theorem DiffForArgs_repeated_fails :
    NoRepetition [0, 1] ∧ ArgsPresent [0, 1] [⟨0, false⟩, ⟨1, true⟩, ⟨1, true⟩] ∧
      ¬ ([⟨0, false⟩, ⟨1, true⟩, ⟨1, true⟩] : List MIArg).Nodup ∧
      DiffForArgs [0, 1] [⟨0, false⟩, ⟨1, true⟩, ⟨1, true⟩] false =
        some [.tripleChange true false true 0 1 1] ∧
      applyAll unusedReg [.tripleChange true false true 0 1 1] [0, 1] = some [0, 1, 0, 0] ∧
      ¬ ArgsPlaced [0, 1] [⟨0, false⟩, ⟨1, true⟩, ⟨1, true⟩] [0, 1, 0, 0] := by
  refine ⟨noRepetition_iff.mpr (by decide), by simp [ArgsPresent], by decide, by decide,
    by decide, ?_⟩
  rintro ⟨rest, h, -⟩
  simp at h

/-! ## Commutative instructions -/

section Commutative

variable {src : Stack} {a b : MIArg}

/-- Two operands are always placed, distinct or not and undefined or not. -/
theorem DiffForArgs_two (hsrc : NoRepetition src) (hargs : ArgsPresent src [a, b]) :
    ∃ changes r, DiffForArgs src [a, b] false = some changes ∧
      applyAll unusedReg changes src = some r ∧ ArgsPlaced src [a, b] r := by
  refine DiffForArgs_of_places hsrc hargs (by simp) fun infos hdesc hpattern => ?_
  obtain ⟨i, j, rfl, ⟨hpush_a, hslot_a⟩, hpush_b, hslot_b⟩ := hdesc.two
  -- the patterns are not used for undefined operands
  obtain ⟨ha₀, hb₀⟩ : a.vreg ≠ unusedReg ∧ b.vreg ≠ unusedReg := by
    simp only [patternPath, cantBeOptimized] at hpattern
    simp at hpattern
    exact ⟨hpattern.1.2, hpattern.2.2⟩
  refine patternChanges_two (hslot_a ha₀) (hslot_b hb₀) fun hi hj => ?_
  exact MIArg.srcPos_ne (hslot_a ha₀) (hslot_b hb₀) (hpush_a.mp hi).2 (hpush_b.mp hj).2.1
    (hpush_b.mp hj).2.2

/-- For a commutative instruction the optimization may leave out one exchange of the top two
slots at the end. -/
theorem optimize_commutative (cs : List Change) :
    optimize false cs = optimize true cs ∨
      optimize false cs = optimize true cs ++ [.xchgTop 1] := by
  simp only [optimize, if_true, Bool.false_eq_true, if_false]
  split
  · rename_i h
    exact Or.inr (by rw [h]; rfl)
  · rename_i h
    exact Or.inr (by rw [h]; rfl)
  · rename_i h
    exact Or.inr (by rw [h]; rfl)
  · exact Or.inl rfl

theorem DiffForArgs_optimized {args : List MIArg} {changes : List Change}
    (h : DiffForArgs src args false = some changes) :
    ∃ changes', DiffForArgs src args true = some changes' ∧
      (changes = changes' ∨ changes = changes' ++ [.xchgTop 1]) := by
  unfold DiffForArgs at h ⊢
  split_ifs at h ⊢
  · exact ⟨changes, h, Or.inl rfl⟩
  · simp only [Option.bind_eq_bind, Option.bind_eq_some_iff] at h
    obtain ⟨f, hf, infos, hinfos, h⟩ := h
    simp only [hf, hinfos, Option.bind_eq_bind, Option.bind_some]
    split_ifs at h ⊢
    · exact ⟨changes, h, Or.inl rfl⟩
    · obtain ⟨cs, hcs, h⟩ := Option.bind_eq_some_iff.mp h
      cases h
      rw [hcs]
      exact ⟨_, rfl, optimize_commutative _⟩
    · obtain ⟨g, hg, h⟩ := Option.bind_eq_some_iff.mp h
      cases h
      rw [hg]
      exact ⟨_, rfl, optimize_commutative _⟩

/-- **Preparing the operands of a commutative instruction** on a stack that holds no register
twice: the two operands are on top in one of their orders, and every other slot is as for an
instruction that is not commutative. -/
theorem DiffForArgs_commutative (src : Stack) (a b : MIArg) (hsrc : NoRepetition src)
    (hargs : ArgsPresent src [a, b]) :
    ∃ changes changes' rest r, DiffForArgs src [a, b] false = some changes ∧
      DiffForArgs src [a, b] true = some changes' ∧
      applyAll unusedReg changes src = some (b.vreg :: a.vreg :: rest) ∧
      applyAll unusedReg changes' src = some r ∧
      (r = b.vreg :: a.vreg :: rest ∨ r = a.vreg :: b.vreg :: rest) := by
  obtain ⟨changes, r, hchanges, hrun, rest, rfl, -⟩ := DiffForArgs_two hsrc hargs
  obtain ⟨changes', hchanges', hsame⟩ := DiffForArgs_optimized hchanges
  simp only [List.map_cons, List.map_nil, List.reverse_cons, List.reverse_nil, List.nil_append,
    List.cons_append] at hrun
  rcases hsame with rfl | rfl
  · exact ⟨changes, changes, rest, _, hchanges, hchanges', hrun, hrun, Or.inl rfl⟩
  · -- the exchange that is left out has put the operands into their order
    have hswap := hrun
    rw [applyAll_append, Option.bind_eq_some_iff] at hswap
    obtain ⟨r, hr, hswap⟩ := hswap
    rw [applyAll_singleton] at hswap
    have hback : swapAt (b.vreg :: a.vreg :: rest) 0 1 = some r := swapAt_swapAt hswap
    rw [swapAt_one, Option.some.injEq] at hback
    exact ⟨_, changes', rest, r, hchanges, hchanges', hrun, hr, Or.inr hback.symm⟩

end Commutative

/-- The copy of the first operand comes above the second one, and the exchange of the two is left
out. -/
theorem DiffForArgs_commutative_example :
    ∃ changes changes' rest r,
      DiffForArgs [1, 2, 3] [⟨3, false⟩, ⟨1, true⟩] false = some changes ∧
      DiffForArgs [1, 2, 3] [⟨3, false⟩, ⟨1, true⟩] true = some changes' ∧
      applyAll unusedReg changes [1, 2, 3] = some (1 :: 3 :: rest) ∧
      applyAll unusedReg changes' [1, 2, 3] = some r ∧
      (r = 1 :: 3 :: rest ∨ r = 3 :: 1 :: rest) :=
  DiffForArgs_commutative [1, 2, 3] ⟨3, false⟩ ⟨1, true⟩ (noRepetition_iff.mpr (by decide))
    (by simp [ArgsPresent])

/-! ## Below the operands -/

/-- There is a slot for each operand on top. Below them a register that dies as an operand occurs
no more, and every other one as often as before. -/
def ArgsTaken (src : Stack) (args : List MIArg) (r : Stack) : Prop :=
  ∃ top rest, r = top ++ rest ∧ top.length = args.length ∧
    ∀ v ≠ unusedReg, rest.count v = if Killed args v then 0 else src.count v

theorem ArgsPlaced.taken {src : Stack} {args : List MIArg} {r : Stack} (h : ArgsPlaced src args r) :
    ArgsTaken src args r := by
  obtain ⟨rest, rfl, hcount⟩ := h
  exact ⟨_, rest, rfl, by simp, hcount⟩

/-- The flag of an operand depends on its register only. -/
def FlagsAgree (args : List MIArg) : Prop :=
  ∀ a ∈ args, ∀ b ∈ args, a.vreg ≠ unusedReg → a.vreg = b.vreg → a = b

section Taken

variable {src s r : Stack} {args : List MIArg} {changes : List Change}

/-- An arrangement that a stack pattern gets wrong takes the right register nevertheless. -/
theorem argsTaken_of_count {a b c x y z : StackVreg} {ka kb kc : Bool} {rest : Stack}
    (hsrc : NoRepetition src) (hmem : x ∈ src) (hkilled : ∀ v ≠ unusedReg,
      Killed [⟨a, ka⟩, ⟨b, kb⟩, ⟨c, kc⟩] v ↔ v = x)
    (hcount : ∀ v ≠ unusedReg, rest.count v + [x].count v = src.count v) :
    ArgsTaken src [⟨a, ka⟩, ⟨b, kb⟩, ⟨c, kc⟩] (y :: z :: a :: rest) := by
  refine ⟨[y, z, a], rest, rfl, rfl, fun v hv => ?_⟩
  have hv_count := hcount v hv
  by_cases hvx : v = x
  · rw [if_pos ((hkilled v hv).mpr hvx)]
    subst hvx
    have := hsrc.count_eq hv hmem
    simp only [List.count_cons_self, List.count_nil] at hv_count
    omega
  · rw [if_neg fun h => hvx ((hkilled v hv).mp h)]
    rwa [List.count_singleton, if_neg (by simpa using Ne.symm hvx), Nat.add_zero] at hv_count

theorem Described.defined {s : Stack} {prev : List MIArg} {infos : List ArgInfo} {offset : ℕ}
    (hdesc : Described s prev args infos) (h : cantBeOptimized offset args infos = false) :
    ∀ a ∈ args, a.vreg ≠ unusedReg := by
  induction args generalizing prev infos offset with
  | nil => simp
  | cons arg args ih =>
    cases infos with
    | nil => exact hdesc.elim
    | cons info infos =>
      simp only [cantBeOptimized, Bool.or_eq_false_iff, decide_eq_false_iff_not] at h
      intro a ha
      rcases List.mem_cons.mp ha with rfl | ha
      · exact h.1.2
      · exact ih hdesc.2 h.2 a ha

/-- An operand that is looked up is on the stack. -/
theorem DiffForArgs_present {isCommutative : Bool}
    (h : DiffForArgs src args isCommutative = some changes) : ArgsPresent src args := by
  by_cases hne : args = []
  · simp [hne, ArgsPresent]
  · obtain ⟨f, hf, -, hcount, -⟩ := dropTopUnused_spec src
    simp only [DiffForArgs, if_neg hne, hf, Option.bind_eq_bind, Option.bind_some,
      Option.bind_eq_some_iff] at h
    obtain ⟨infos, hinfos, -⟩ := h
    exact argsPresent_of_count (argsPresent_of_argInfos hinfos) fun v hv => (hcount v hv).symm

/-- Outside of the two arrangements every list of operands is placed. -/
theorem DiffForArgs_placed (hsrc : NoRepetition src) (hflags : FlagsAgree args)
    (hargs : ArgsPresent src args)
    (hfine : (∀ a ∈ args, a.vreg ≠ unusedReg) →
      ¬ (SecondOnTop src args ∨ ThirdRepeatsSecond src args)) :
    ∃ changes r, DiffForArgs src args false = some changes ∧
      applyAll unusedReg changes src = some r ∧ ArgsPlaced src args r := by
  by_cases hne : args = []
  · subst hne
    exact ⟨[], src, rfl, rfl, argsPlaced_nil fun _ _ => rfl⟩
  refine DiffForArgs_of_places hsrc hargs hne fun infos hdesc hpattern => ?_
  -- the patterns are not used for undefined operands
  have hdef : ∀ a ∈ args, a.vreg ≠ unusedReg := by
    simp only [patternPath, Bool.and_eq_true, Bool.not_eq_true'] at hpattern
    exact hdesc.defined hpattern.2
  have hlen : args.length ≤ 3 := by
    simp only [patternPath, Bool.and_eq_true, decide_eq_true_eq] at hpattern
    exact hpattern.1
  by_cases hnodup : args.Nodup
  · have hdistinct : (args.map MIArg.vreg).Nodup :=
      hnodup.map_on fun a ha b hb => hflags a ha b hb (hdef a ha)
    have hobt := hdesc.forall₂ hdef hdistinct
    rw [pushedRegs_eq_keptRegs hobt]
    exact patternChanges_spec hobt hne hlen hdistinct hpattern fun hsecond =>
      hfine hdef (Or.inl hsecond)
  · rcases args with _ | ⟨a, _ | ⟨b, _ | ⟨c, _ | ⟨d, args⟩⟩⟩⟩
    · exact absurd rfl hne
    · simp at hnodup
    · exact patternChanges_repeated_two hdesc hdef hnodup
    · exact patternChanges_repeated_three hdesc hdef hnodup hpattern (hfine hdef)
    · simp only [List.length_cons] at hlen
      omega

theorem DiffForArgs_taken_false (hsrc : NoRepetition src) (hflags : FlagsAgree args)
    (h : DiffForArgs src args false = some changes)
    (hrun : applyAll unusedReg changes src = some r) : ArgsTaken src args r := by
  have hargs := DiffForArgs_present h
  by_cases hfine : (∀ a ∈ args, a.vreg ≠ unusedReg) →
      ¬ (SecondOnTop src args ∨ ThirdRepeatsSecond src args)
  · obtain ⟨changes', r', h', hrun', hplaced⟩ := DiffForArgs_placed hsrc hflags hargs hfine
    obtain rfl : changes = changes' := Option.some.inj (h.symm.trans h')
    obtain rfl : r = r' := Option.some.inj (hrun.symm.trans hrun')
    exact hplaced.taken
  · obtain ⟨hdef, hbad⟩ := Classical.not_imp.mp hfine
    rcases not_not.mp hbad with hsecond | hthird
    · obtain ⟨changes', a, b, c, rest, rfl, -, h', hrun', hrest⟩ :=
        DiffForArgs_of_secondOnTop hsrc hargs hdef hsecond
      obtain rfl : changes = changes' := Option.some.inj (h.symm.trans h')
      obtain rfl := Option.some.inj (hrun.symm.trans hrun')
      refine argsTaken_of_count hsrc (hargs ⟨c, true⟩ (by simp) (hdef ⟨c, true⟩ (by simp)))
        (fun v _ => ?_) hrest
      simp [Killed]
    · obtain ⟨changes', a, b, again, top, rest, rfl, -, h', hrun', hrest⟩ :=
        DiffForArgs_of_thirdRepeatsSecond hsrc hargs hdef hthird
      obtain rfl : changes = changes' := Option.some.inj (h.symm.trans h')
      obtain rfl := Option.some.inj (hrun.symm.trans hrun')
      refine argsTaken_of_count hsrc (hargs ⟨b, true⟩ (by simp) (hdef ⟨b, true⟩ (by simp)))
        (fun v _ => ?_) hrest
      cases again <;> simp [Killed]

theorem ArgsTaken.swap {a b : MIArg} (hr : swapAt r 0 1 = some s) (h : ArgsTaken src [a, b] s) :
    ArgsTaken src [a, b] r := by
  obtain ⟨top, rest, rfl, hlen, hcount⟩ := h
  match top, hlen with
  | [x, y], _ =>
    have hback : swapAt (x :: y :: rest) 0 1 = some r := swapAt_swapAt hr
    rw [swapAt_one, Option.some.injEq] at hback
    exact ⟨[y, x], rest, hback.symm, rfl, hcount⟩

/-- **Below the operands the ones that die are gone** on a stack that holds no register twice,
in every arrangement. -/
theorem DiffForArgs_taken {isCommutative : Bool} (hsrc : NoRepetition src)
    (hflags : FlagsAgree args) (htwo : isCommutative → args.length = 2)
    (h : DiffForArgs src args isCommutative = some changes)
    (hrun : applyAll unusedReg changes src = some r) : ArgsTaken src args r := by
  cases isCommutative with
  | false => exact DiffForArgs_taken_false hsrc hflags h hrun
  | true =>
    match args, htwo rfl with
    | [a, b], _ =>
      obtain ⟨changes', s, h', hrun', hplaced⟩ := DiffForArgs_two hsrc (DiffForArgs_present h)
      obtain ⟨optimized, hoptimized, hsame⟩ := DiffForArgs_optimized h'
      obtain rfl := Option.some.inj (h.symm.trans hoptimized)
      rcases hsame with rfl | rfl
      · obtain rfl := Option.some.inj (hrun.symm.trans hrun')
        exact hplaced.taken
      · rw [applyAll_append, hrun, Option.bind_some, applyAll_singleton] at hrun'
        exact hplaced.taken.swap hrun'

end Taken

end TVMCompiler
