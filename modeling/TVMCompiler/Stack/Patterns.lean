import Mathlib.Data.Option.Basic
import TVMCompiler.Stack.Fixup

/-!
# Stack patterns

The patterns that bring two or three operands to the top with exchanges and pushes. The name
of a pattern says, operand by operand, whether the operand is exchanged (`X`) into its place
or pushed (`P`); the arguments are the slots of the operands.

## Main definitions

* `pattern2PP`, …, `pattern3PPP`: the functions of `StackPatterns`
* `Places`: a list of changes puts the given operands on top and gains the given copies

## Main results

* `places_pattern2PP`, …, `places_pattern3PPP`: where each pattern does what its name says
* `applyAll_pattern3PPX_zero`, `applyAll_pattern3PXP_same`: where `pattern3PPX` and `pattern3PXP`
  do not
-/

namespace TVMCompiler

/-! ## The patterns -/

/-- `XchgPairCorrector`: where an operand is after the exchange of two slots. -/
def correct (deep top idx : ℕ) : ℕ :=
  if idx = deep then top else if idx = top then deep else idx

def patternX (i dst₀ : ℕ) : List Change :=
  if i = dst₀ then []
  else if dst₀ = 0 then [.xchgTop i]
  else if i = 0 then [.xchgTop dst₀]
  else [.mkXchg i dst₀]

def pattern2PP (i j : ℕ) : List Change := [.doubleChange true true i j]

def pattern2XP (i j : ℕ) : List Change :=
  if i = 0 then [.pushI j]
  else [.doubleChange false true i (correct 0 i j)]

def pattern2PX (i j : ℕ) : List Change :=
  if j = 0 then [.pushI i, .swap]
  else [.doubleChange true false i j]

def pattern2XX (i j : ℕ) : List Change :=
  if i = 1 ∧ j = 0 then []
  else if i = 1 then patternX j 0
  else if j = 0 then patternX i 1
  else if j = 1 ∧ i ≠ 0 then [.doubleChange false false i i]
  else if j = 1 ∧ i = 0 then [.swap]
  else [.doubleChange false false i j]

/-- Undefined on three slots among the top ones that are not distinct, which the source holds
for unreachable. -/
def pattern3XXX (i j k : ℕ) : Option (List Change) :=
  if i < 3 ∧ j < 3 ∧ k < 3 then
    match i, j, k with
    | 2, 1, 0 => some []
    | 2, 0, 1 => some [.swap]
    | 1, 2, 0 => some [.mkXchg 2 1]
    | 0, 2, 1 => some [makeRollRev 2]
    | 1, 0, 2 => some [.rot]
    | 0, 1, 2 => some [.reverse 3 0]
    | _, _, _ => none
  else if i = 2 then some (pattern2XX j k)
  else
    let k := correct i 2 k
    let j := correct i 2 j
    let k := correct j 1 k
    some [.tripleChange false false false i j k]

def arg0 (idx : ℕ) : Prop := idx = 1
def arg1 (idx : ℕ) : Prop := idx = 0
def noArg (idx : ℕ) : Prop := 2 ≤ idx

instance : DecidablePred arg0 := fun idx => inferInstanceAs (Decidable (idx = 1))
instance : DecidablePred arg1 := fun idx => inferInstanceAs (Decidable (idx = 0))
instance : DecidablePred noArg := fun idx => inferInstanceAs (Decidable (2 ≤ idx))

def pattern3XXP (i j k : ℕ) : List Change :=
  if arg0 i ∧ arg1 j ∧ noArg k then [.pushI k]
  else if arg0 i ∧ noArg j ∧ noArg k then pattern2XP j k
  else
    let k := correct i 1 k
    let j := correct i 1 j
    let k := correct j 0 k
    [.tripleChange false false true i j k]

def pattern3XPX (i j k : ℕ) : List Change :=
  if i = 1 ∧ k = 0 then [.pushI j, .swap]
  else if i = 1 then pattern2PX j k
  else
    let k := correct i 1 k
    let j := correct i 1 j
    if k = 0 then [.mkXchg i 1, .pushI j, .swap]
    else [.tripleChange false true false i j k]

def pattern3XPP (i j k : ℕ) : List Change :=
  if i = 0 then pattern2PP j k
  else [.tripleChange false true true i (correct i 0 j) (correct i 0 k)]

def implPXX (i j k : ℕ) : List Change := [.tripleChange true false false i j k]

def pattern3PXX (i j k : ℕ) : List Change :=
  if noArg i ∧ noArg j ∧ noArg k then implPXX i j k
  else if (arg1 k ∧ noArg i ∧ noArg j) ∨ (arg0 i ∧ arg1 k ∧ noArg j) then implPXX i j j
  else if arg0 j ∧ noArg i ∧ noArg k then [.doubleChange false true k i, makeRollRev 2]
  else if arg0 j ∧ arg1 i ∧ noArg k then [.doubleChange false true k k, makeRollRev 2]
  else if arg0 j ∧ arg1 k ∧ noArg i then [.pushI i, makeRollRev 2]
  else if arg0 k ∧ noArg i ∧ noArg j then [.doubleChange false true j i, .xchgTop 2]
  else if arg0 k ∧ arg1 i ∧ noArg j then [.doubleChange false true j j, .xchgTop 2]
  else if arg0 k ∧ arg1 j ∧ noArg i then [.pushI i, .xchgTop 2]
  else implPXX i j k

def implPXP (i j k : ℕ) : List Change := [.tripleChange true false true i j k]

def pattern3PXP (i j k : ℕ) : List Change :=
  if j = 0 then pattern2PP i k ++ [.mkXchg 2 1]
  else if k = 0 then implPXP i j j
  else implPXP i j k

def pattern3PPX (i j k : ℕ) : List Change :=
  if k = 0 then pattern2PP i j ++ [makeRoll 2]
  else if j = 0 ∧ k ≠ 1 then pattern3XPP k i k ++ [makeRoll 2]
  else if k = 1 then pattern2PP i j ++ [makeRoll 3]
  else [.tripleChange true true false i j k]

def pattern3PPP (i j k : ℕ) : List Change := [.tripleChange true true true i j k]

/-! ## Placing operands -/

section Places

variable {α : Type} (undef : α)

/-- The changes put `args` on top, the last one uppermost, and the stack gains exactly the
copies `pushed`. -/
def Places (cs : List Change) (s args pushed : List α) : Prop :=
  ∃ rest, applyAll undef cs s = some (args.reverse ++ rest) ∧
    (args.reverse ++ rest).Perm (pushed ++ s)

/-- The changes do what the exchanges and pushes do. -/
def ExpandsTo (cs : List Change) (steps : List Step) : Prop :=
  ∀ s r : List α, runSteps steps s = some r → applyAll undef cs s = some r

variable {undef}

theorem places_of_steps {cs : List Change} {steps : List Step} {s args pushed : List α}
    (hcs : ExpandsTo undef cs steps) (hbounds : InBounds steps s.length)
    (hview : ∀ k < args.length, viewAll steps (s[·]?) k = args.reverse[k]?)
    (hpushed : pushedBy steps (s[·]?) = pushed.map some) : Places undef cs s args pushed := by
  obtain ⟨r, pushed', hrun, hr, hpushed', hperm⟩ := runSteps_spec steps s hbounds
  obtain rfl : pushed' = pushed :=
    List.map_injective_iff.mpr (Option.some_injective α) (hpushed'.trans hpushed)
  have htop : r.take args.length = args.reverse := by
    refine List.ext_getElem? fun k => ?_
    by_cases hk : k < args.length
    · rw [List.getElem?_take_of_lt hk, hr, hview k hk]
    · rw [List.getElem?_eq_none (by simp; omega), List.getElem?_eq_none (by simp; omega)]
  have hsplit : args.reverse ++ r.drop args.length = r := by
    rw [← htop, List.take_append_drop]
  exact ⟨r.drop args.length, by rw [hsplit]; exact hcs s r hrun, by rwa [hsplit]⟩

theorem runSteps_cons_eq_some {st : Step} {steps : List Step} {s r : List α} :
    runSteps (st :: steps) s = some r ↔ ∃ t, st.apply s = some t ∧ runSteps steps t = some r :=
  Option.bind_eq_some_iff

theorem inBounds_of_runSteps {steps : List Step} {s r : List α} (h : runSteps steps s = some r) :
    InBounds steps s.length := by
  induction steps generalizing s with
  | nil => trivial
  | cons st steps ih =>
    obtain ⟨t, ht, hr⟩ := runSteps_cons_eq_some.mp h
    have hsteps := ih hr
    cases st with
    | xchg i j =>
      simp only [Step.apply, swapAt, Option.bind_eq_bind, Option.bind_eq_some_iff] at ht
      obtain ⟨x, hx, y, hy, ht⟩ := ht
      obtain rfl : (s.set i y).set j x = t := by simpa using ht
      exact ⟨⟨(List.getElem?_eq_some_iff.mp hx).1, (List.getElem?_eq_some_iff.mp hy).1⟩,
        by simpa using hsteps⟩
    | push i =>
      simp only [Step.apply, pushAt, Option.bind_eq_bind, Option.bind_eq_some_iff] at ht
      obtain ⟨x, hx, ht⟩ := ht
      obtain rfl : x :: s = t := by simpa using ht
      exact ⟨(List.getElem?_eq_some_iff.mp hx).1, by simpa using hsteps⟩

theorem expandsTo_nil : ExpandsTo undef [] [] := fun _ _ h => h

theorem ExpandsTo.append {cs ds : List Change} {as bs : List Step} (hcs : ExpandsTo undef cs as)
    (hds : ExpandsTo undef ds bs) : ExpandsTo undef (cs ++ ds) (as ++ bs) := by
  intro s r h
  rw [runSteps, List.foldlM_append] at h
  obtain ⟨t, ht, hr⟩ := Option.bind_eq_some_iff.mp h
  rw [applyAll_append, hcs s t ht]
  exact hds t r hr

theorem expandsTo_xchgTop (i : ℕ) : ExpandsTo undef [.xchgTop i] [.xchg 0 i] := fun _ _ h => h

theorem expandsTo_pushI (i : ℕ) : ExpandsTo undef [.pushI i] [.push i] := fun _ _ h => h

theorem expandsTo_doubleChange (p₀ p₁ : Bool) (i j : ℕ) :
    ExpandsTo undef [.doubleChange p₀ p₁ i j] (doubleSteps p₀ p₁ i j) := by
  intro s r h
  have hguard : i < s.length ∧ j < s.length := by
    have := inBounds_of_runSteps h
    cases p₀ <;> cases p₁ <;> simp only [doubleSteps, InBounds] at this <;> omega
  simp [Change.apply, guard, hguard, h]

theorem expandsTo_tripleChange (p₀ p₁ p₂ : Bool) (i j k : ℕ) :
    ExpandsTo undef [.tripleChange p₀ p₁ p₂ i j k] (tripleSteps p₀ p₁ p₂ i j k) := by
  intro s r h
  have hguard : i < s.length ∧ j < s.length ∧ k < s.length := by
    have := inBounds_of_runSteps h
    cases p₀ <;> cases p₁ <;> cases p₂ <;> simp only [tripleSteps, InBounds] at this <;> omega
  simp [Change.apply, guard, hguard, h]

/-! ### Block moves on the top slots -/

theorem expandsTo_xchg (i j : ℕ) : ExpandsTo undef [.mkXchg i j] [.xchg i j] := by
  intro s r h
  have hmin : swapAt s (min i j) (max i j) = swapAt s i j := by
    rcases Nat.le_total i j with hij | hij
    · rw [min_eq_left hij, max_eq_right hij]
    · rw [min_eq_right hij, max_eq_left hij, swapAt_comm]
  rw [applyAll_singleton]
  simpa [Change.mkXchg, Change.apply, runSteps, Step.apply, hmin] using h

theorem expandsTo_patternX (i dst₀ : ℕ) :
    ExpandsTo undef (patternX i dst₀) [.xchg dst₀ i] := by
  intro s r h
  have hrun : swapAt s dst₀ i = some r := by simpa [runSteps, Step.apply] using h
  unfold patternX
  split_ifs with heq hdst hi
  · subst heq
    rw [swapAt_self (inBounds_of_runSteps h).1.1] at hrun
    exact hrun
  · subst hdst
    rwa [applyAll_singleton]
  · subst hi
    rw [swapAt_comm] at hrun
    rwa [applyAll_singleton]
  · refine expandsTo_xchg i dst₀ s r ?_
    rw [swapAt_comm] at hrun
    simpa [runSteps, Step.apply] using hrun

theorem expandsTo_makeRoll_two : ExpandsTo undef [makeRoll 2] [.xchg 0 2, .xchg 1 2] := by
  intro s r h
  have hlen := (inBounds_of_runSteps h).1.2
  match s, hlen with
  | x :: y :: z :: s, _ => exact h

theorem expandsTo_makeRoll_three :
    ExpandsTo undef [makeRoll 3] [.xchg 0 3, .xchg 1 3, .xchg 2 3] := by
  intro s r h
  have hlen := (inBounds_of_runSteps h).1.2
  match s, hlen with
  | w :: x :: y :: z :: s, _ => exact h

theorem expandsTo_makeRollRev_two :
    ExpandsTo undef [makeRollRev 2] [.xchg 0 1, .xchg 1 2] := by
  intro s r h
  have hlen := (inBounds_of_runSteps h).2.1.2
  match s, hlen with
  | x :: y :: z :: s, _ => exact h

theorem expandsTo_rot : ExpandsTo undef [.rot] [.xchg 0 2, .xchg 1 2] := by
  intro s r h
  have hlen := (inBounds_of_runSteps h).1.2
  match s, hlen with
  | x :: y :: z :: s, _ => exact h

theorem expandsTo_reverse_three : ExpandsTo undef [.reverse 3 0] [.xchg 0 2] := by
  intro s r h
  have hlen := (inBounds_of_runSteps h).1.2
  match s, hlen with
  | x :: y :: z :: s, _ => exact h

/-! ### Following an operand -/

section Follow

variable {f : ℕ → Option α}

@[simp] theorem view_push_zero (i : ℕ) : Step.view (.push i) f 0 = f i := rfl

@[simp] theorem view_push_succ (i k : ℕ) : Step.view (.push i) f (k + 1) = f k := rfl

@[simp] theorem view_push_one (i : ℕ) : Step.view (.push i) f 1 = f 0 := rfl

@[simp] theorem view_push_two (i : ℕ) : Step.view (.push i) f 2 = f 1 := rfl

@[simp] theorem view_xchg_left (i j : ℕ) : Step.view (.xchg i j) f i = f j := if_pos rfl

@[simp] theorem view_xchg_right (i j : ℕ) : Step.view (.xchg i j) f j = f i := by
  by_cases h : j = i
  · rw [h, view_xchg_left]
  · simp [Step.view, h]

theorem view_xchg_of_ne {i j k : ℕ} (hi : k ≠ i) (hj : k ≠ j) :
    Step.view (.xchg i j) f k = f k := by
  simp [Step.view, hi, hj]

@[simp] theorem view_xchg_min_max (i j : ℕ) :
    Step.view (.xchg (min i j) (max i j)) f = Step.view (.xchg i j) f := by
  funext k
  rcases Nat.le_total i j with h | h
  · rw [min_eq_left h, max_eq_right h]
  · rw [min_eq_right h, max_eq_left h]
    simp only [Step.view]
    grind

/-- The corrected index follows the slot through the exchange. -/
@[simp] theorem view_xchg_correct (i t k : ℕ) :
    Step.view (.xchg t i) f (correct i t k) = f k := by
  simp only [Step.view, correct]
  grind

@[simp] theorem view_xchg_correct' (i t k : ℕ) :
    Step.view (.xchg i t) f (correct i t k) = f k := by
  simp only [Step.view, correct]
  grind

theorem correct_ne {i t k : ℕ} (h : k ≠ i) : correct i t k ≠ t := by
  unfold correct
  split_ifs <;> omega

theorem correct_ne_of_ne {i t k l : ℕ} (hi : i ≠ l) (ht : t ≠ l) (hk : k ≠ l) :
    correct i t k ≠ l := by
  unfold correct
  split_ifs <;> omega

theorem correct_injective (i t : ℕ) : Function.Injective (correct i t) := by
  intro k l h
  unfold correct at h
  split_ifs at h <;> omega

theorem correct_lt {i t k n : ℕ} (hi : i < n) (ht : t < n) (hk : k < n) : correct i t k < n := by
  unfold correct
  split_ifs <;> omega

end Follow

theorem places_two {cs : List Change} {steps : List Step} {s pushed : List α} {i j : ℕ}
    {a b : α} (ha : s[i]? = some a) (hb : s[j]? = some b) (hcs : ExpandsTo undef cs steps)
    (hbounds : ∀ n, i < n → j < n → InBounds steps n)
    (hview : ∀ f : ℕ → Option α, f i = some a → f j = some b →
      viewAll steps f 0 = some b ∧ viewAll steps f 1 = some a ∧
        pushedBy steps f = pushed.map some) :
    Places undef cs s [a, b] pushed := by
  obtain ⟨hi, -⟩ := List.getElem?_eq_some_iff.mp ha
  obtain ⟨hj, -⟩ := List.getElem?_eq_some_iff.mp hb
  obtain ⟨h₀, h₁, hpushed⟩ := hview (s[·]?) ha hb
  refine places_of_steps hcs (hbounds s.length hi hj) (fun k hk => ?_) hpushed
  match k, hk with
  | 0, _ => exact h₀
  | 1, _ => exact h₁

theorem places_three {cs : List Change} {steps : List Step} {s pushed : List α} {i j k : ℕ}
    {a b c : α} (ha : s[i]? = some a) (hb : s[j]? = some b) (hc : s[k]? = some c)
    (hcs : ExpandsTo undef cs steps)
    (hbounds : ∀ n, i < n → j < n → k < n → InBounds steps n)
    (hview : ∀ f : ℕ → Option α, f i = some a → f j = some b → f k = some c →
      viewAll steps f 0 = some c ∧ viewAll steps f 1 = some b ∧ viewAll steps f 2 = some a ∧
        pushedBy steps f = pushed.map some) :
    Places undef cs s [a, b, c] pushed := by
  obtain ⟨hi, -⟩ := List.getElem?_eq_some_iff.mp ha
  obtain ⟨hj, -⟩ := List.getElem?_eq_some_iff.mp hb
  obtain ⟨hk, -⟩ := List.getElem?_eq_some_iff.mp hc
  obtain ⟨h₀, h₁, h₂, hpushed⟩ := hview (s[·]?) ha hb hc
  refine places_of_steps hcs (hbounds s.length hi hj hk) (fun k hk => ?_) hpushed
  match k, hk with
  | 0, _ => exact h₀
  | 1, _ => exact h₁
  | 2, _ => exact h₂

/-! ### Two operands -/

section Two

variable {s : List α} {i j : ℕ} {a b : α}

theorem places_pattern2PP (ha : s[i]? = some a) (hb : s[j]? = some b) :
    Places undef (pattern2PP i j) s [a, b] [b, a] := by
  refine places_two ha hb (expandsTo_doubleChange _ _ _ _) (fun n hi hj => ?_) fun f ha hb => ?_
  · simp [doubleSteps, InBounds, hi, hj]
  · simp [doubleSteps, viewAll, pushedBy, ha, hb]

theorem places_pattern2XP (ha : s[i]? = some a) (hb : s[j]? = some b) :
    Places undef (pattern2XP i j) s [a, b] [b] := by
  unfold pattern2XP
  split
  · rename_i h
    subst h
    refine places_two ha hb (expandsTo_pushI j) (fun n _ hj => ⟨hj, trivial⟩) fun f ha hb => ?_
    simp [viewAll, pushedBy, ha, hb]
  · refine places_two ha hb (expandsTo_doubleChange _ _ _ _) (fun n hi hj => ?_) fun f ha hb => ?_
    · have hpos : 0 < n := by omega
      simp [doubleSteps, InBounds, hi, hpos, correct_lt hpos hi hj]
    · simp [doubleSteps, viewAll, pushedBy, ha, hb]

theorem places_pattern2PX (ha : s[i]? = some a) (hb : s[j]? = some b) :
    Places undef (pattern2PX i j) s [a, b] [a] := by
  unfold pattern2PX
  split
  · rename_i h
    subst h
    refine places_two ha hb ((expandsTo_pushI i).append (expandsTo_xchgTop 1))
      (fun n hi hj => ?_) fun f ha hb => ?_
    · simp [InBounds, hi, hj]
    · simp [viewAll, pushedBy, ha, hb]
  · refine places_two ha hb (expandsTo_doubleChange _ _ _ _) (fun n hi hj => ?_) fun f ha hb => ?_
    · have hpos : 0 < n := by omega
      simp [doubleSteps, InBounds, hi, hj, hpos]
    · simp (disch := omega) [doubleSteps, viewAll, pushedBy, view_xchg_of_ne, ha, hb]

/-- What `pattern2XX` does, slot by slot: below the top two slots only the operands move. -/
theorem pattern2XX_steps (undef : α) (hij : i ≠ j) :
    ∃ steps, ExpandsTo undef (pattern2XX i j) steps ∧
      (∀ n, i < n → j < n → InBounds steps n) ∧
      ∀ f : ℕ → Option α, viewAll steps f 0 = f j ∧ viewAll steps f 1 = f i ∧
        pushedBy steps f = [] ∧
        ∀ m, 2 ≤ m → m ≠ i → m ≠ j → viewAll steps f m = f m := by
  unfold pattern2XX
  split_ifs with hgood hi₁ hj₀ hj₁ hswap
  · obtain ⟨rfl, rfl⟩ := hgood
    exact ⟨_, expandsTo_nil, fun _ _ _ => trivial, fun f => ⟨rfl, rfl, rfl, fun _ _ _ _ => rfl⟩⟩
  · subst hi₁
    refine ⟨_, expandsTo_patternX j 0, fun n hi hj => ?_, fun f => ⟨?_, ?_, rfl, ?_⟩⟩
    · simp [InBounds]
      omega
    · simp [viewAll]
    · simp (disch := omega) [viewAll, view_xchg_of_ne]
    · intro m hm hmi hmj
      simp (disch := omega) [viewAll, view_xchg_of_ne]
  · subst hj₀
    refine ⟨_, expandsTo_patternX i 1, fun n hi hj => ?_, fun f => ⟨?_, ?_, rfl, ?_⟩⟩
    · simp [InBounds]
      omega
    · simp (disch := omega) [viewAll, view_xchg_of_ne]
    · simp [viewAll]
    · intro m hm hmi hmj
      simp (disch := omega) [viewAll, view_xchg_of_ne]
  · -- the second operand is where the first one belongs, so the first exchange moves it
    obtain ⟨rfl, hi₀⟩ := hj₁
    refine ⟨_, expandsTo_doubleChange _ _ _ _, fun n hi hj => ?_, fun f => ⟨?_, ?_, rfl, ?_⟩⟩
    · simp [doubleSteps, InBounds]
      omega
    · simp [doubleSteps, viewAll]
    · simp (disch := omega) [doubleSteps, viewAll, view_xchg_of_ne]
    · intro m hm hmi hmj
      simp (disch := omega) [doubleSteps, viewAll, view_xchg_of_ne]
  · obtain ⟨rfl, rfl⟩ := hswap
    refine ⟨_, expandsTo_xchgTop 1, fun n hi hj => ?_, fun f => ⟨?_, ?_, rfl, ?_⟩⟩
    · simp [InBounds, hi, hj]
    · simp [viewAll]
    · simp [viewAll]
    · intro m hm hmi hmj
      simp (disch := omega) [viewAll, view_xchg_of_ne]
  · refine ⟨_, expandsTo_doubleChange _ _ _ _, fun n hi hj => ?_, fun f => ⟨?_, ?_, rfl, ?_⟩⟩
    · simp [doubleSteps, InBounds]
      omega
    · simp (disch := omega) [doubleSteps, viewAll, view_xchg_of_ne]
    · simp (disch := omega) [doubleSteps, viewAll, view_xchg_of_ne]
    · intro m hm hmi hmj
      simp (disch := omega) [doubleSteps, viewAll, view_xchg_of_ne]

theorem places_pattern2XX (ha : s[i]? = some a) (hb : s[j]? = some b) (hij : i ≠ j) :
    Places undef (pattern2XX i j) s [a, b] [] := by
  obtain ⟨steps, hsteps, hbounds, hview⟩ := pattern2XX_steps undef hij
  refine places_two ha hb hsteps hbounds fun f ha hb => ?_
  obtain ⟨h₀, h₁, hpushed, -⟩ := hview f
  exact ⟨h₀.trans hb, h₁.trans ha, hpushed⟩

end Two

/-! ### Three operands -/

section Three

variable {s : List α} {i j k : ℕ} {a b c : α}

theorem places_pattern3XXX (ha : s[i]? = some a) (hb : s[j]? = some b) (hc : s[k]? = some c)
    (hij : i ≠ j) (hik : i ≠ k) (hjk : j ≠ k) :
    ∃ cs, pattern3XXX i j k = some cs ∧ Places undef cs s [a, b, c] [] := by
  unfold pattern3XXX
  split_ifs with hsmall hi₂
  · obtain ⟨hi₃, hj₃, hk₃⟩ := hsmall
    -- the six arrangements of the top slots
    obtain ⟨rfl, rfl, rfl⟩ | ⟨rfl, rfl, rfl⟩ | ⟨rfl, rfl, rfl⟩ | ⟨rfl, rfl, rfl⟩ |
        ⟨rfl, rfl, rfl⟩ | ⟨rfl, rfl, rfl⟩ :
        (i = 2 ∧ j = 1 ∧ k = 0) ∨ (i = 2 ∧ j = 0 ∧ k = 1) ∨ (i = 1 ∧ j = 2 ∧ k = 0) ∨
          (i = 0 ∧ j = 2 ∧ k = 1) ∨ (i = 1 ∧ j = 0 ∧ k = 2) ∨ (i = 0 ∧ j = 1 ∧ k = 2) := by
      omega
    · refine ⟨_, rfl, places_three ha hb hc expandsTo_nil (fun _ _ _ _ => trivial) ?_⟩
      intro f ha hb hc
      simp [viewAll, pushedBy, ha, hb, hc]
    · refine ⟨_, rfl, places_three ha hb hc (expandsTo_xchgTop 1) (fun n hi hj hk => ?_) ?_⟩
      · simp [InBounds, hj, hk]
      · intro f ha hb hc
        simp (disch := omega) [viewAll, pushedBy, view_xchg_of_ne, ha, hb, hc]
    · refine ⟨_, rfl, places_three ha hb hc (expandsTo_xchg 2 1) (fun n hi hj hk => ?_) ?_⟩
      · simp [InBounds, hi, hj]
      · intro f ha hb hc
        simp (disch := omega) [viewAll, pushedBy, view_xchg_of_ne, ha, hb, hc]
    · refine ⟨_, rfl, places_three ha hb hc expandsTo_makeRollRev_two (fun n hi hj hk => ?_) ?_⟩
      · simp [InBounds, hi, hj, hk]
      · intro f ha hb hc
        simp (disch := omega) [viewAll, pushedBy, view_xchg_of_ne, ha, hb, hc]
    · refine ⟨_, rfl, places_three ha hb hc expandsTo_rot (fun n hi hj hk => ?_) ?_⟩
      · simp [InBounds, hi, hj, hk]
      · intro f ha hb hc
        simp (disch := omega) [viewAll, pushedBy, view_xchg_of_ne, ha, hb, hc]
    · refine ⟨_, rfl, places_three ha hb hc expandsTo_reverse_three (fun n hi hj hk => ?_) ?_⟩
      · simp [InBounds, hi, hk]
      · intro f ha hb hc
        simp (disch := omega) [viewAll, pushedBy, view_xchg_of_ne, ha, hb, hc]
  · subst hi₂
    obtain ⟨steps, hsteps, hbounds, hview⟩ := pattern2XX_steps undef hjk
    refine ⟨_, rfl, places_three ha hb hc hsteps (fun n _ => hbounds n) fun f ha hb hc => ?_⟩
    obtain ⟨h₀, h₁, hpushed, hrest⟩ := hview f
    exact ⟨h₀.trans hc, h₁.trans hb, (hrest 2 le_rfl hij hik).trans ha, hpushed⟩
  · refine ⟨_, rfl, places_three ha hb hc (expandsTo_tripleChange _ _ _ _ _ _)
      (fun n hi hj hk => ?_) fun f ha hb hc => ?_⟩
    · have htwo : 2 < n := by omega
      have hj' := correct_lt hi htwo hj
      have hk' := correct_lt hj' (show 1 < n by omega) (correct_lt hi htwo hk)
      simp [tripleSteps, InBounds, hi, htwo, hj', hk']
      omega
    · have hj₂ : correct i 2 j ≠ 2 := correct_ne (Ne.symm hij)
      have hk₂ : correct i 2 k ≠ 2 := correct_ne (Ne.symm hik)
      have hk₁ : correct (correct i 2 j) 1 (correct i 2 k) ≠ 1 :=
        correct_ne ((correct_injective i 2).ne (Ne.symm hjk))
      have hk₂' : correct (correct i 2 j) 1 (correct i 2 k) ≠ 2 :=
        correct_ne_of_ne hj₂ (by omega) hk₂
      simp (disch := omega) [tripleSteps, viewAll, pushedBy, view_xchg_of_ne, ha, hb, hc]

theorem places_pattern3XXP (ha : s[i]? = some a) (hb : s[j]? = some b) (hc : s[k]? = some c)
    (hij : i ≠ j) : Places undef (pattern3XXP i j k) s [a, b, c] [c] := by
  unfold pattern3XXP
  split_ifs with hab hax
  · obtain ⟨rfl, rfl, -⟩ := hab
    refine places_three ha hb hc (expandsTo_pushI k) (fun n _ _ hk => ⟨hk, trivial⟩)
      fun f ha hb hc => ?_
    simp [viewAll, pushedBy, ha, hb, hc]
  · obtain ⟨rfl, hj, -⟩ := hax
    unfold noArg at hj
    rw [pattern2XP, if_neg (by omega)]
    refine places_three ha hb hc (expandsTo_doubleChange _ _ _ _) (fun n hi hj hk => ?_)
      fun f ha hb hc => ?_
    · have hpos : 0 < n := by omega
      simp [doubleSteps, InBounds, hj, hpos, correct_lt hpos hj hk]
    · simp (disch := omega) [doubleSteps, viewAll, pushedBy, view_xchg_of_ne, ha, hb, hc]
  · refine places_three ha hb hc (expandsTo_tripleChange _ _ _ _ _ _) (fun n hi hj hk => ?_)
      fun f ha hb hc => ?_
    · have hone : 1 < n := by omega
      have hj' := correct_lt hi hone hj
      have hk' := correct_lt hj' (show 0 < n by omega) (correct_lt hi hone hk)
      simp [tripleSteps, InBounds, hi, hj', hk']
      omega
    · have hj' : correct i 1 j ≠ 1 := correct_ne (Ne.symm hij)
      simp (disch := omega) [tripleSteps, viewAll, pushedBy, view_xchg_of_ne, ha, hb, hc]

theorem places_pattern3XPX (ha : s[i]? = some a) (hb : s[j]? = some b) (hc : s[k]? = some c)
    (hik : i ≠ k) : Places undef (pattern3XPX i j k) s [a, b, c] [b] := by
  simp only [pattern3XPX]
  split_ifs with hik₀ hi hk₀
  · obtain ⟨rfl, rfl⟩ := hik₀
    refine places_three ha hb hc ((expandsTo_pushI j).append (expandsTo_xchgTop 1))
      (fun n hi hj hk => ?_) fun f ha hb hc => ?_
    · simp [InBounds, hj, hk]
    · simp (disch := omega) [viewAll, pushedBy, view_xchg_of_ne, ha, hb, hc]
  · subst hi
    rw [pattern2PX, if_neg (by omega)]
    refine places_three ha hb hc (expandsTo_doubleChange _ _ _ _) (fun n hi hj hk => ?_)
      fun f ha hb hc => ?_
    · simp [doubleSteps, InBounds]
      omega
    · simp (disch := omega) [doubleSteps, viewAll, pushedBy, view_xchg_of_ne, ha, hb, hc]
  · -- the third operand is on top after the first exchange
    refine places_three ha hb hc (((expandsTo_xchg i 1).append
      (expandsTo_pushI (correct i 1 j))).append (expandsTo_xchgTop 1)) (fun n hi hj hk => ?_)
      fun f ha hb hc => ?_
    · have hone : 1 < n := by omega
      simp [InBounds, hi, hone, correct_lt hi hone hj]
      omega
    · have hc' : Step.view (.xchg i 1) f 0 = some c := by rw [← hk₀, view_xchg_correct', hc]
      simp (disch := omega) [viewAll, pushedBy, view_xchg_of_ne (k := 2), hc', ha, hb]
  · refine places_three ha hb hc (expandsTo_tripleChange _ _ _ _ _ _) (fun n hi hj hk => ?_)
      fun f ha hb hc => ?_
    · have hone : 1 < n := by omega
      simp [tripleSteps, InBounds, hi, correct_lt hi hone hj, correct_lt hi hone hk]
      omega
    · have hk₁ : correct i 1 k ≠ 1 := correct_ne (Ne.symm hik)
      simp (disch := omega) [tripleSteps, viewAll, pushedBy, view_xchg_of_ne, ha, hb, hc]

theorem places_pattern3XPP (ha : s[i]? = some a) (hb : s[j]? = some b) (hc : s[k]? = some c) :
    Places undef (pattern3XPP i j k) s [a, b, c] [c, b] := by
  unfold pattern3XPP
  split_ifs with hi
  · subst hi
    refine places_three ha hb hc (expandsTo_doubleChange _ _ _ _) (fun n hi hj hk => ?_)
      fun f ha hb hc => ?_
    · simp [doubleSteps, InBounds, hj, hk]
    · simp [doubleSteps, viewAll, pushedBy, ha, hb, hc]
  · refine places_three ha hb hc (expandsTo_tripleChange _ _ _ _ _ _) (fun n hi hj hk => ?_)
      fun f ha hb hc => ?_
    · have hpos : 0 < n := by omega
      simp [tripleSteps, InBounds, hi, hpos, correct_lt hi hpos hj, correct_lt hi hpos hk]
    · simp [tripleSteps, viewAll, pushedBy, ha, hb, hc]

/-- One compound change does it where the first operand is on none of the slots that the
exchanges clear. -/
theorem places_implPXX {l : ℕ} (ha : s[i]? = some a) (hb : s[j]? = some b) (hc : s[k]? = some c)
    (hl : k = l ∧ 2 ≤ k ∧ j ≠ k ∧ j ≠ 1 ∨ k = 0 ∧ l = j ∧ 2 ≤ j) :
    Places undef (implPXX i j l) s [a, b, c] [a] := by
  unfold implPXX
  refine places_three ha hb hc (expandsTo_tripleChange _ _ _ _ _ _) (fun n hi hj hk => ?_)
    fun f ha hb hc => ?_
  · simp [tripleSteps, InBounds]
    omega
  · rcases hl with ⟨rfl, hk, hjk, hj⟩ | ⟨rfl, rfl, hj⟩
    · by_cases hj₀ : j = 0
      · subst hj₀
        simp (disch := omega) [tripleSteps, viewAll, pushedBy, view_xchg_of_ne, ha, hb, hc]
      · simp (disch := omega) [tripleSteps, viewAll, pushedBy, view_xchg_of_ne, ha, hb, hc]
    · simp (disch := omega) [tripleSteps, viewAll, pushedBy, view_xchg_of_ne, ha, hb, hc]

theorem places_pattern3PXX (ha : s[i]? = some a) (hb : s[j]? = some b) (hc : s[k]? = some c)
    (hij : i ≠ j) (hik : i ≠ k) (hjk : j ≠ k) :
    Places undef (pattern3PXX i j k) s [a, b, c] [a] := by
  unfold pattern3PXX
  split_ifs with hxx hxc hbx hba hbc hcx hca hcb <;> simp only [arg0, arg1, noArg] at *
  · exact places_implPXX ha hb hc (l := k) (by omega)
  · exact places_implPXX ha hb hc (l := j) (by omega)
  · obtain ⟨rfl, hi₂, hk₂⟩ := hbx
    refine places_three ha hb hc
      ((expandsTo_doubleChange _ _ _ _).append expandsTo_makeRollRev_two)
      (fun n hi hj hk => ?_) fun f ha hb hc => ?_
    · simp [doubleSteps, InBounds]
      omega
    · simp (disch := omega) [doubleSteps, viewAll, pushedBy, view_xchg_of_ne, ha, hb, hc]
  · obtain ⟨rfl, rfl, hk₂⟩ := hba
    refine places_three ha hb hc
      ((expandsTo_doubleChange _ _ _ _).append expandsTo_makeRollRev_two)
      (fun n hi hj hk => ?_) fun f ha hb hc => ?_
    · simp [doubleSteps, InBounds]
      omega
    · simp (disch := omega) [doubleSteps, viewAll, pushedBy, view_xchg_of_ne, ha, hb, hc]
  · obtain ⟨rfl, rfl, hi₂⟩ := hbc
    refine places_three ha hb hc ((expandsTo_pushI i).append expandsTo_makeRollRev_two)
      (fun n hi hj hk => ?_) fun f ha hb hc => ?_
    · simp [InBounds]
      omega
    · simp (disch := omega) [viewAll, pushedBy, view_xchg_of_ne, ha, hb, hc]
  · obtain ⟨rfl, hi₂, hj₂⟩ := hcx
    refine places_three ha hb hc ((expandsTo_doubleChange _ _ _ _).append (expandsTo_xchgTop 2))
      (fun n hi hj hk => ?_) fun f ha hb hc => ?_
    · simp [doubleSteps, InBounds]
      omega
    · simp (disch := omega) [doubleSteps, viewAll, pushedBy, view_xchg_of_ne, ha, hb, hc]
  · obtain ⟨rfl, rfl, hj₂⟩ := hca
    refine places_three ha hb hc ((expandsTo_doubleChange _ _ _ _).append (expandsTo_xchgTop 2))
      (fun n hi hj hk => ?_) fun f ha hb hc => ?_
    · simp [doubleSteps, InBounds]
      omega
    · simp (disch := omega) [doubleSteps, viewAll, pushedBy, view_xchg_of_ne, ha, hb, hc]
  · obtain ⟨rfl, rfl, hi₂⟩ := hcb
    refine places_three ha hb hc ((expandsTo_pushI i).append (expandsTo_xchgTop 2))
      (fun n hi hj hk => ?_) fun f ha hb hc => ?_
    · simp [InBounds]
      omega
    · simp (disch := omega) [viewAll, pushedBy, view_xchg_of_ne, ha, hb, hc]
  · exact places_implPXX ha hb hc (l := k) (by grind)

theorem places_pattern3PXP (ha : s[i]? = some a) (hb : s[j]? = some b) (hc : s[k]? = some c)
    (hjk : j = k → j = 0) : Places undef (pattern3PXP i j k) s [a, b, c] [c, a] := by
  unfold pattern3PXP implPXP
  split_ifs with hj hk
  · subst hj
    refine places_three ha hb hc ((expandsTo_doubleChange _ _ _ _).append (expandsTo_xchg 2 1))
      (fun n hi hj hk => ?_) fun f ha hb hc => ?_
    · simp [doubleSteps, InBounds]
      omega
    · simp (disch := omega) [doubleSteps, viewAll, pushedBy, view_xchg_of_ne, ha, hb, hc]
  · subst hk
    refine places_three ha hb hc (expandsTo_tripleChange _ _ _ _ _ _) (fun n hi hj hk => ?_)
      fun f ha hb hc => ?_
    · simp [tripleSteps, InBounds, hi, hj, hk]
    · simp (disch := omega) [tripleSteps, viewAll, pushedBy, view_xchg_of_ne, ha, hb, hc]
  · have hne : j ≠ k := fun h => hj (hjk h)
    refine places_three ha hb hc (expandsTo_tripleChange _ _ _ _ _ _) (fun n hi hj hk => ?_)
      fun f ha hb hc => ?_
    · simp [tripleSteps, InBounds]
      omega
    · simp (disch := omega) [tripleSteps, viewAll, pushedBy, view_xchg_of_ne, ha, hb, hc]

/-- Where the third operand is the second one, which is not on top, `pattern3PXP` copies the slot
from which it has just taken that operand. -/
theorem applyAll_pattern3PXP_same (ha : s[i]? = some a) (hb : s[j]? = some b) (hj : j ≠ 0)
    (hc : s[0]? = some c) : Places undef (pattern3PXP i j j) s [a, b, c] [c, a] := by
  obtain ⟨hi', -⟩ := List.getElem?_eq_some_iff.mp ha
  obtain ⟨hj', -⟩ := List.getElem?_eq_some_iff.mp hb
  rw [pattern3PXP, if_neg hj, if_neg hj, implPXP]
  refine places_of_steps (expandsTo_tripleChange _ _ _ _ _ _) ?_ (fun k hk => ?_) ?_
  · simp [tripleSteps, InBounds]
    omega
  · match k, hk with
    | 0, _ => simpa [tripleSteps, viewAll] using hc
    | 1, _ => simpa (disch := omega) [tripleSteps, viewAll, view_xchg_of_ne] using hb
    | 2, _ => simpa (disch := omega) [tripleSteps, viewAll, view_xchg_of_ne] using ha
  · simp [tripleSteps, pushedBy, ha, hc]

theorem places_pattern3PPX (ha : s[i]? = some a) (hb : s[j]? = some b) (hc : s[k]? = some c)
    (hj : j = 0 → k < 2) : Places undef (pattern3PPX i j k) s [a, b, c] [b, a] := by
  unfold pattern3PPX
  split_ifs with hk₀ hbad hk₁
  · subst hk₀
    refine places_three ha hb hc ((expandsTo_doubleChange _ _ _ _).append expandsTo_makeRoll_two)
      (fun n hi hj hk => ?_) fun f ha hb hc => ?_
    · simp [doubleSteps, InBounds, hi, hj, hk]
    · simp (disch := omega) [doubleSteps, viewAll, pushedBy, view_xchg_of_ne, ha, hb, hc]
  · have := hj hbad.1
    omega
  · subst hk₁
    refine places_three ha hb hc
      ((expandsTo_doubleChange _ _ _ _).append expandsTo_makeRoll_three)
      (fun n hi hj hk => ?_) fun f ha hb hc => ?_
    · simp [doubleSteps, InBounds]
      omega
    · simp (disch := omega) [doubleSteps, viewAll, pushedBy, view_xchg_of_ne, ha, hb, hc]
  · refine places_three ha hb hc (expandsTo_tripleChange _ _ _ _ _ _) (fun n hi hj hk => ?_)
      fun f ha hb hc => ?_
    · simp [tripleSteps, InBounds]
      omega
    · simp (disch := omega) [tripleSteps, viewAll, pushedBy, view_xchg_of_ne, ha, hb, hc]

/-- With the second operand on top and the third one under the top two slots `pattern3PPX`
takes the third operand for the second one. -/
theorem applyAll_pattern3PPX_zero (ha : s[i]? = some a) (hc : s[k]? = some c) (hk : 2 ≤ k) :
    Places undef (pattern3PPX i 0 k) s [a, c, c] [c, a] := by
  obtain ⟨rest, hrun, hperm⟩ : Places undef (pattern3XPP k i k) s [c, a, c] [c, a] :=
    places_pattern3XPP hc ha hc
  have happly := apply_makeRoll undef [c, a] c rest (by simp)
  refine ⟨rest, ?_, List.Perm.trans ?_ hperm⟩
  · rw [pattern3PPX, if_neg (by omega), if_pos ⟨rfl, by omega⟩, applyAll_append, hrun]
    exact (applyAll_singleton undef (makeRoll 2) _).trans happly
  · exact (List.Perm.swap a c rest).cons c

theorem places_pattern3PPP (ha : s[i]? = some a) (hb : s[j]? = some b) (hc : s[k]? = some c) :
    Places undef (pattern3PPP i j k) s [a, b, c] [c, b, a] := by
  refine places_three ha hb hc (expandsTo_tripleChange _ _ _ _ _ _) (fun n hi hj hk => ?_)
    fun f ha hb hc => ?_
  · simp [tripleSteps, InBounds, hi, hj, hk]
  · simp [tripleSteps, viewAll, pushedBy, ha, hb, hc]

end Three

end Places

end TVMCompiler
