import TVMCompiler.Stack.Patterns

/-!
# Preparing the operands of an instruction

`StackFixup::DiffForArgs` brings the operands of an instruction to the top. Operands that die
are moved, operands that stay alive are copied. Up to three operands that are not too deep go
through a stack pattern, all others through a loop that rolls or pushes one after the other.

## Main definitions

* `MIArg`, `ArgInfo`, `argInfos`: the operands, and how each one is obtained
* `placeArgs`: the general path
* `patternChanges`: the pattern path
* `DiffForArgs`: `StackFixup::DiffForArgs`
* `ArgsPlaced`: what the fixup is for

## Main results

* `argInfos_spec`: on a stack without repetitions an operand is moved exactly when it dies and
  is named for the first time
* `placeArgs_spec`: the general path places every list of operands
-/

namespace TVMCompiler

/-- `MIArg`. -/
structure MIArg where
  vreg : StackVreg
  isKilled : Bool
  deriving DecidableEq, Repr

/-- `argInfo`: the previous occurrences of the operand, whether it is pushed or moved, and the
slot it is taken from. -/
structure ArgInfo where
  prevArgs : ℕ
  push : Bool
  srcPos : ℕ
  deriving DecidableEq, Repr

/-- `Stack::positionNrev`: the `n`-th occurrence, counted from the bottom. -/
def positionNrev (s : Stack) (elem : StackVreg) (n : ℕ) : Option ℕ :=
  ((List.range s.length).reverse.filter fun i => s[i]? = some elem)[n]?

/-- The constructor of `argInfo` for the operand `arg` that follows the operands `prev`. -/
def argInfo (curStack : Stack) (prev : List MIArg) (arg : MIArg) : Option ArgInfo :=
  let prevArgs := prev.count arg
  if arg.vreg = unusedReg then some ⟨prevArgs, true, 0⟩
  else
    let push : Bool :=
      if arg.isKilled then curStack.count arg.vreg ≤ prevArgs
      else curStack.count arg.vreg ≤ prevArgs + 1
    if !push then (positionNrev curStack arg.vreg prevArgs).map (⟨prevArgs, push, ·⟩)
    else (position curStack arg.vreg).map (⟨prevArgs, push, ·⟩)

def argInfos (curStack : Stack) : List MIArg → List MIArg → Option (List ArgInfo)
  | _, [] => some []
  | prev, arg :: args => do
    let info ← argInfo curStack prev arg
    let infos ← argInfos curStack (prev ++ [arg]) args
    return info :: infos

/-- The flag `CantBeOptimized`, with the number of pushes so far. -/
def cantBeOptimized : ℕ → List MIArg → List ArgInfo → Bool
  | pushOffset, arg :: args, info :: infos =>
    decide (pushOffset + info.srcPos > xchgLimit) || decide (arg.vreg = unusedReg) ||
      cantBeOptimized (if info.push then pushOffset + 1 else pushOffset) args infos
  | _, _, _ => false

/-- The flag `AlreadyGood`: no push is needed and each operand is in its place. -/
def alreadyGood : List ArgInfo → Bool
  | [] => true
  | info :: infos => !info.push && decide (info.srcPos = infos.length) && alreadyGood infos

section

variable {src : Stack}

/-- The loop of the general path. -/
def placeArgs (f : Fixup src) : ℕ → List MIArg → List ArgInfo → Option (Fixup src)
  | offset, arg :: args, info :: infos =>
    if info.push then do
      let f ← pushVreg f arg.vreg
      placeArgs f (offset + 1) args infos
    else do
      let pos ← positionFrom f.cur offset arg.vreg
      if pos ≠ 0 then do
        let f ← f.emit (makeRoll pos)
        placeArgs f (offset + 1) args infos
      else placeArgs f offset args infos
  | _, _, _ => some f

/-- The unused slots at the top are dropped. -/
def dropTopUnused (f : Fixup src) : Option (Fixup src) :=
  let topUnused := (f.cur.takeWhile (· = unusedReg)).length
  if topUnused ≠ 0 then f.emit (makeBlkdrop topUnused) else some f

end

/-- The pattern path. -/
def patternChanges (curStack : Stack) : List MIArg → List ArgInfo → Option (List Change)
  | [arg], [a₀] => do
    let pos ← position curStack arg.vreg
    if a₀.push then return [.pushI pos] else if pos ≠ 0 then return [.xchgTop pos] else return []
  | [_, _], [a₀, a₁] =>
    match a₀.push, a₁.push with
    | true, true => some (pattern2PP a₀.srcPos a₁.srcPos)
    | false, false => some (pattern2XX a₀.srcPos a₁.srcPos)
    | false, true => some (pattern2XP a₀.srcPos a₁.srcPos)
    | true, false => some (pattern2PX a₀.srcPos a₁.srcPos)
  | [_, _, _], [a₀, a₁, a₂] =>
    match a₀.push, a₁.push, a₂.push with
    | false, false, false => pattern3XXX a₀.srcPos a₁.srcPos a₂.srcPos
    | false, false, true => some (pattern3XXP a₀.srcPos a₁.srcPos a₂.srcPos)
    | false, true, false => some (pattern3XPX a₀.srcPos a₁.srcPos a₂.srcPos)
    | false, true, true => some (pattern3XPP a₀.srcPos a₁.srcPos a₂.srcPos)
    | true, false, false => some (pattern3PXX a₀.srcPos a₁.srcPos a₂.srcPos)
    | true, false, true => some (pattern3PXP a₀.srcPos a₁.srcPos a₂.srcPos)
    | true, true, false => some (pattern3PPX a₀.srcPos a₁.srcPos a₂.srcPos)
    | true, true, true => some (pattern3PPP a₀.srcPos a₁.srcPos a₂.srcPos)
  | _, _ => none

/-- The condition under which `DiffForArgs` takes the pattern path. -/
def patternPath (args : List MIArg) (infos : List ArgInfo) : Bool :=
  decide (args.length ≤ 3) && !cantBeOptimized 0 args infos

/-- `StackFixup::DiffForArgs`. -/
def DiffForArgs (src : Stack) (args : List MIArg) (isCommutative : Bool) :
    Option (List Change) :=
  if args = [] then some []
  else do
    let rv ← dropTopUnused (Fixup.start src)
    let infos ← argInfos rv.cur [] args
    if alreadyGood infos then return rv.changes
    else if patternPath args infos then
      let changes ← patternChanges rv.cur args infos
      return optimize isCommutative (rv.changes ++ changes)
    else
      let rv ← placeArgs rv 0 args infos
      return optimize isCommutative rv.changes

/-! ## What the fixup is for -/

/-- The operands that die. -/
def Killed (args : List MIArg) (v : StackVreg) : Prop := ⟨v, true⟩ ∈ args

instance (args : List MIArg) (v : StackVreg) : Decidable (Killed args v) :=
  inferInstanceAs (Decidable (_ ∈ args))

/-- The operands are on top, the last one uppermost. Below them a register that dies as an
operand occurs no more, and every other one as often as before. -/
def ArgsPlaced (src : Stack) (args : List MIArg) (r : Stack) : Prop :=
  ∃ rest, r = (args.map MIArg.vreg).reverse ++ rest ∧
    ∀ v ≠ unusedReg, rest.count v = if Killed args v then 0 else src.count v

/-- No register occurs twice. -/
def NoRepetition (s : Stack) : Prop := ∀ v ≠ unusedReg, s.count v ≤ 1

/-- Only the registers that occur need to be looked at. -/
theorem noRepetition_iff {s : Stack} :
    NoRepetition s ↔ s.all fun v => v = unusedReg ∨ s.count v ≤ 1 := by
  simp only [NoRepetition, List.all_eq_true, decide_eq_true_eq]
  refine ⟨fun h v _ => or_iff_not_imp_left.mpr (h v), fun h v hv => ?_⟩
  by_cases hmem : v ∈ s
  · exact (h v hmem).resolve_left hv
  · rw [List.count_eq_zero_of_not_mem hmem]
    exact Nat.zero_le 1

/-- Every operand that is not undefined is on the stack. -/
def ArgsPresent (s : Stack) (args : List MIArg) : Prop :=
  ∀ arg ∈ args, arg.vreg ≠ unusedReg → arg.vreg ∈ s

theorem NoRepetition.count_eq {s : Stack} (hs : NoRepetition s) {v : StackVreg}
    (hv : v ≠ unusedReg) (hmem : v ∈ s) : s.count v = 1 :=
  le_antisymm (hs v hv) (List.count_pos_iff.mpr hmem)

/-! ## How an operand is obtained -/

theorem positionNrev_spec {s : Stack} {v : StackVreg} (h : v ∈ s) :
    ∃ i, positionNrev s v 0 = some i ∧ s[i]? = some v := by
  have hne : ((List.range s.length).reverse.filter fun i => s[i]? = some v) ≠ [] := by
    obtain ⟨i, hi⟩ := List.mem_iff_getElem?.mp h
    refine List.ne_nil_of_mem (a := i) (List.mem_filter.mpr ⟨?_, by simpa using hi⟩)
    simpa using (List.getElem?_eq_some_iff.mp hi).1
  obtain ⟨i, rest, hsplit⟩ := List.exists_cons_of_ne_nil hne
  have hmem : i ∈ (List.range s.length).reverse.filter fun i => s[i]? = some v := by
    rw [hsplit]
    exact List.mem_cons_self
  exact ⟨i, by rw [positionNrev, hsplit]; rfl, by simpa using (List.mem_filter.mp hmem).2⟩

theorem position_spec {s : Stack} {v : StackVreg} (h : v ∈ s) :
    ∃ i, position s v = some i ∧ s[i]? = some v := by
  obtain ⟨i, hi, -, hiv, -⟩ := @positionFrom_spec s 0 v h
  exact ⟨i, by rw [← hi, positionFrom_zero], hiv⟩

section Slots

variable {s : Stack} {prev args : List MIArg} {arg : MIArg} {info : ArgInfo}

theorem positionNrev_slot {v : StackVreg} {n i : ℕ} (h : positionNrev s v n = some i) :
    s[i]? = some v := by
  simpa using (List.mem_filter.mp (List.mem_of_getElem? h)).2

theorem position_slot {v : StackVreg} {i : ℕ} (h : position s v = some i) : s[i]? = some v := by
  obtain ⟨hlt, hget, -⟩ := List.idxOf?_eq_some_iff.mp h
  exact List.getElem?_eq_some_iff.mpr ⟨hlt, by simpa using hget⟩

theorem positionFrom_slot {v : StackVreg} {start i : ℕ} (h : positionFrom s start v = some i) :
    s[i]? = some v := by
  obtain ⟨j, hj, rfl⟩ := Option.map_eq_some_iff.mp h
  have hslot := position_slot hj
  rwa [List.getElem?_drop, Nat.add_comm] at hslot

/-- The slot of an operand holds its register, also where the stack holds registers twice. -/
theorem argInfo_slot (h : argInfo s prev arg = some info) (hv : arg.vreg ≠ unusedReg) :
    s[info.srcPos]? = some arg.vreg := by
  simp only [argInfo, if_neg hv] at h
  generalize (if arg.isKilled then _ else _ : Bool) = push at h
  cases push with
  | false =>
    obtain ⟨i, hi, rfl⟩ := Option.map_eq_some_iff.mp h
    exact positionNrev_slot hi
  | true =>
    obtain ⟨i, hi, rfl⟩ := Option.map_eq_some_iff.mp h
    exact position_slot hi

/-- Operands whose slots are found are on the stack. -/
theorem argsPresent_of_argInfos {infos : List ArgInfo} (h : argInfos s prev args = some infos) :
    ArgsPresent s args := by
  induction args generalizing prev infos with
  | nil => simp [ArgsPresent]
  | cons arg args ih =>
    simp only [argInfos, Option.bind_eq_bind, Option.bind_eq_some_iff] at h
    obtain ⟨info, hinfo, infos, hinfos, -⟩ := h
    intro a ha hv
    rcases List.mem_cons.mp ha with rfl | ha
    · exact List.mem_of_getElem? (argInfo_slot hinfo hv)
    · exact ih hinfos a ha hv

end Slots

/-- On a stack without repetitions an operand is moved exactly when it dies and is named for
the first time. -/
theorem argInfo_spec {s : Stack} (hs : NoRepetition s) (prev : List MIArg) {arg : MIArg}
    (hmem : arg.vreg ≠ unusedReg → arg.vreg ∈ s) :
    ∃ info, argInfo s prev arg = some info ∧
      (info.push = false ↔ arg.vreg ≠ unusedReg ∧ arg.isKilled ∧ arg ∉ prev) ∧
      (arg.vreg ≠ unusedReg → s[info.srcPos]? = some arg.vreg) := by
  by_cases hv : arg.vreg = unusedReg
  · exact ⟨⟨prev.count arg, true, 0⟩, by simp [argInfo, hv], by simp [hv], fun h => absurd hv h⟩
  · have hone := hs.count_eq hv (hmem hv)
    by_cases hmove : arg.isKilled ∧ arg ∉ prev
    · obtain ⟨hkilled, hnot⟩ := hmove
      have hprev : prev.count arg = 0 := List.count_eq_zero_of_not_mem hnot
      obtain ⟨i, hi, hiv⟩ := positionNrev_spec (hmem hv)
      exact ⟨⟨0, false, i⟩, by simp [argInfo, hv, hkilled, hprev, hone, hi], by
        simp [hv, hkilled, hnot], fun _ => hiv⟩
    · have hpush : (if arg.isKilled then decide (s.count arg.vreg ≤ prev.count arg)
          else decide (s.count arg.vreg ≤ prev.count arg + 1)) = true := by
        split
        · rename_i hkilled
          have hin : arg ∈ prev := by
            by_contra hnot
            exact hmove ⟨hkilled, hnot⟩
          simpa [hone] using hin
        · simp [hone]
      obtain ⟨i, hi, hiv⟩ := position_spec (hmem hv)
      refine ⟨⟨prev.count arg, true, i⟩, ?_, by simpa [hv] using hmove, fun _ => hiv⟩
      simp only [argInfo, if_neg hv, hpush]
      simp [hi]

/-- The facts about each operand, given the operands before it. -/
def Described (s : Stack) : List MIArg → List MIArg → List ArgInfo → Prop
  | _, [], [] => True
  | prev, arg :: args, info :: infos =>
    ((info.push = false ↔ arg.vreg ≠ unusedReg ∧ arg.isKilled ∧ arg ∉ prev) ∧
      (arg.vreg ≠ unusedReg → s[info.srcPos]? = some arg.vreg)) ∧
      Described s (prev ++ [arg]) args infos
  | _, _, _ => False

theorem argInfos_spec {s : Stack} (hs : NoRepetition s) (prev : List MIArg) {args : List MIArg}
    (hmem : ArgsPresent s args) :
    ∃ infos, argInfos s prev args = some infos ∧ Described s prev args infos := by
  induction args generalizing prev with
  | nil => exact ⟨[], rfl, trivial⟩
  | cons arg args ih =>
    obtain ⟨info, hinfo, hdesc⟩ := argInfo_spec hs prev (hmem arg List.mem_cons_self)
    obtain ⟨infos, hinfos, hrest⟩ :=
      ih (prev ++ [arg]) fun a ha => hmem a (List.mem_cons_of_mem arg ha)
    exact ⟨info :: infos, by simp [argInfos, hinfo, hinfos], hdesc, hrest⟩

/-! ## The general path -/

/-- The change takes the register from the slot it stands in. -/
def Addresses (s : Stack) (v : StackVreg) : Change → Prop
  | .pushI i => s[i]? = some v
  | .xchgTop i => s[i]? = some v
  | .roll i => 0 < i ∧ s[i.natAbs]? = some v
  | .blkswap deepSz topSz => deepSz = 1 ∧ s[topSz]? = some v
  | .pushUndef => v = unusedReg
  | _ => False

theorem addresses_makeRoll {s : Stack} {v : StackVreg} {pos : ℕ} (hpos : pos ≠ 0)
    (h : s[pos]? = some v) : Addresses s v (makeRoll pos) := by
  have hroll : Addresses s v (.roll pos) := ⟨by omega, by simpa using h⟩
  unfold makeRoll
  split_ifs
  · exact h
  · exact hroll
  · exact ⟨rfl, h⟩
  · exact hroll

theorem killed_append {args : List MIArg} {arg : MIArg} {v : StackVreg} :
    Killed (args ++ [arg]) v ↔ Killed args v ∨ arg = ⟨v, true⟩ := by
  simp [Killed, eq_comm]

section General

variable {src : Stack} {done : List MIArg} {arg : MIArg} {cur : Stack}

/-- Pushing a copy keeps the operands placed. -/
theorem ArgsPlaced.push (h : ArgsPlaced src done cur)
    (hpush : ¬(arg.vreg ≠ unusedReg ∧ arg.isKilled ∧ arg ∉ done)) :
    ArgsPlaced src (done ++ [arg]) (arg.vreg :: cur) := by
  obtain ⟨rest, rfl, hcount⟩ := h
  refine ⟨rest, by simp, fun v hv => ?_⟩
  -- an operand that dies and is pushed has died before
  have hkilled : Killed (done ++ [arg]) v ↔ Killed done v := by
    rw [killed_append]
    refine ⟨fun h => h.elim id fun harg => ?_, Or.inl⟩
    subst harg
    by_contra hnot
    exact hpush ⟨hv, rfl, hnot⟩
  simp only [hkilled, hcount v hv]

/-- Moving an operand up from below the operands placed before keeps the operands placed. -/
theorem ArgsPlaced.move (hs : NoRepetition src) (h : ArgsPlaced src done cur)
    (hmove : arg.vreg ≠ unusedReg ∧ arg.isKilled ∧ arg ∉ done) {q : ℕ} (hq : done.length ≤ q)
    (hqv : cur[q]? = some arg.vreg) :
    ∃ above below, cur = above ++ arg.vreg :: below ∧ above.length = q ∧
      ArgsPlaced src (done ++ [arg]) (arg.vreg :: above ++ below) := by
  obtain ⟨hv, hkilled, hnot⟩ := hmove
  obtain ⟨rest, rfl, hcount⟩ := h
  have hlen : ((done.map MIArg.vreg).reverse).length = done.length := by simp
  rw [List.getElem?_append_right (by omega), hlen] at hqv
  obtain ⟨hlt, hget⟩ := List.getElem?_eq_some_iff.mp hqv
  have hsplit : rest = rest.take (q - done.length) ++ arg.vreg :: rest.drop (q - done.length + 1) := by
    rw [← hget, List.getElem_cons_drop, List.take_append_drop]
  set above := rest.take (q - done.length) with habove
  set below := rest.drop (q - done.length + 1)
  have habove_len : above.length = q - done.length := by simp [habove]; omega
  refine ⟨(done.map MIArg.vreg).reverse ++ above, below, ?_, by simp; omega, ?_⟩
  · rw [hsplit]
    simp
  · refine ⟨above ++ below, by simp, fun w hw => ?_⟩
    have hw_count := hcount w hw
    rw [hsplit, List.count_append, List.count_cons] at hw_count
    by_cases hwv : arg.vreg = w
    · subst hwv
      have hnot' : ¬ Killed done arg.vreg := fun h => hnot (by rwa [Killed, ← hkilled] at h)
      have hdies : Killed (done ++ [arg]) arg.vreg :=
        killed_append.mpr (Or.inr (by rw [← hkilled]))
      rw [if_neg hnot'] at hw_count
      rw [if_pos hdies, List.count_append]
      have := hs _ hw
      simp only [beq_self_eq_true, if_pos] at hw_count
      omega
    · have hsame : Killed (done ++ [arg]) w ↔ Killed done w := by
        rw [killed_append, or_iff_left]
        rintro rfl
        exact hwv rfl
      rw [if_neg (by simpa using hwv)] at hw_count
      simp only [hsame, List.count_append]
      omega

/-- What the general path knows about `Offset`: it counts the operands placed so far, except
for a first operand that was found in its place. -/
def OffsetFits (done : List MIArg) (offset : ℕ) : Prop :=
  done.length = offset ∨ ∃ first tail, done = first :: tail ∧ first.isKilled ∧ tail.length = offset

theorem OffsetFits.succ {offset : ℕ} (h : OffsetFits done offset) (arg : MIArg) :
    OffsetFits (done ++ [arg]) (offset + 1) := by
  rcases h with h | ⟨first, tail, rfl, hkilled, h⟩
  · exact Or.inl (by simp [h])
  · exact Or.inr ⟨first, tail ++ [arg], by simp, hkilled, by simp [h]⟩

/-- An operand that is moved is found below the operands placed before. -/
theorem positionFrom_of_argsPlaced (hs : NoRepetition src) (h : ArgsPlaced src done cur)
    {offset : ℕ} (hoffset : OffsetFits done offset)
    (hmove : arg.vreg ≠ unusedReg ∧ arg.isKilled ∧ arg ∉ done) (hmem : arg.vreg ∈ src) :
    ∃ q, positionFrom cur offset arg.vreg = some q ∧ done.length ≤ q ∧
      cur[q]? = some arg.vreg := by
  obtain ⟨hv, hkilled, hnot⟩ := hmove
  obtain ⟨rest, rfl, hcount⟩ := h
  have hlen : ((done.map MIArg.vreg).reverse).length = done.length := by simp
  have hle : offset ≤ done.length := by
    rcases hoffset with h | ⟨first, tail, rfl, -, h⟩
    · omega
    · simp
      omega
  have hrest : arg.vreg ∈ rest := by
    have hnot' : ¬ Killed done arg.vreg := fun h => hnot (by rwa [Killed, ← hkilled] at h)
    rw [← List.count_pos_iff, hcount _ hv, if_neg hnot', hs.count_eq hv hmem]
    exact Nat.one_pos
  have hin : arg.vreg ∈ ((done.map MIArg.vreg).reverse ++ rest).drop offset := by
    rw [List.drop_append_of_le_length (by omega)]
    exact List.mem_append_right _ hrest
  obtain ⟨q, hq, hoq, hqv, -⟩ := positionFrom_spec hin
  refine ⟨q, hq, ?_, hqv⟩
  -- the only operand that the search can see is another register
  by_contra hlt
  rcases hoffset with h | ⟨first, tail, rfl, hfirst, h⟩
  · omega
  · have hfirst_v : first.vreg = arg.vreg := by
      rw [List.getElem?_append_left (by omega)] at hqv
      obtain rfl : q = tail.length := by simp at hlt; omega
      simpa using hqv
    refine hnot ?_
    have : first = arg := by
      cases first
      cases arg
      simp_all
    rw [this]
    exact List.mem_cons_self

/-- One iteration of the loop places one operand more. It emits at most one change, which takes
the operand from the slot it stands in. -/
theorem placeArgs_cons (hs : NoRepetition src) {f : Fixup src} {offset : ℕ}
    {info : ArgInfo} (hinfo : info.push = false ↔
      arg.vreg ≠ unusedReg ∧ arg.isKilled ∧ arg ∉ done)
    (hmem : arg.vreg ≠ unusedReg → arg.vreg ∈ src) (hplaced : ArgsPlaced src done f.cur)
    (hoffset : OffsetFits done offset) :
    ∃ (g : Fixup src) (offset' : ℕ) (steps : List (StackVreg × Stack × Change)),
      (∀ args infos,
        placeArgs f offset (arg :: args) (info :: infos) = placeArgs g offset' args infos) ∧
      ArgsPlaced src (done ++ [arg]) g.cur ∧ OffsetFits (done ++ [arg]) offset' ∧
      (steps.map Prod.fst).Sublist [arg.vreg] ∧
      trace unusedReg g.changes src = trace unusedReg f.changes src ++ steps.map Prod.snd ∧
      ∀ st ∈ steps, Addresses st.2.1 st.1 st.2.2 := by
  cases hpush : info.push with
  | true =>
    have hnot : ¬(arg.vreg ≠ unusedReg ∧ arg.isKilled ∧ arg ∉ done) := by
      rw [← hinfo, hpush]
      simp
    have hin : arg.vreg ≠ unusedReg → arg.vreg ∈ f.cur := by
      intro hv
      obtain ⟨rest, hcur, hcount⟩ := hplaced
      rw [hcur, List.mem_append]
      by_cases hkilled : Killed done arg.vreg
      · exact Or.inl (by simpa using ⟨_, hkilled, rfl⟩)
      · refine Or.inr (List.count_pos_iff.mp ?_)
        rw [hcount _ hv, if_neg hkilled]
        exact List.count_pos_iff.mpr (hmem hv)
    obtain ⟨g, c, hg, hgcur, hchanges, hc⟩ := pushVreg_spec hin
    refine ⟨g, offset + 1, [(arg.vreg, f.cur, c)], fun args infos => ?_, ?_, hoffset.succ arg,
      List.Sublist.refl _, ?_, ?_⟩
    · simp [placeArgs, hpush, hg]
    · rw [hgcur]
      exact hplaced.push hnot
    · rw [hchanges, trace_emit]
      rfl
    · rintro st hst
      obtain rfl := List.mem_singleton.mp hst
      rcases hc with ⟨hv, rfl⟩ | ⟨i, rfl, hi⟩
      · exact hv
      · exact hi
  | false =>
    have hmove := hinfo.mp hpush
    obtain ⟨q, hq, hle, hqv⟩ := positionFrom_of_argsPlaced hs hplaced hoffset hmove (hmem hmove.1)
    obtain ⟨above, below, hcur, habove, hplaced'⟩ := hplaced.move hs hmove hle hqv
    by_cases hq₀ : q = 0
    · -- the operand is in its place, and `Offset` stays
      subst hq₀
      obtain rfl : above = [] := List.length_eq_zero_iff.mp habove
      obtain rfl : done = [] := List.length_eq_zero_iff.mp (by omega)
      refine ⟨f, offset, [], fun args infos => by simp [placeArgs, hpush, hq], ?_, ?_, ?_, by simp,
        by simp⟩
      · rw [hcur]
        exact hplaced'
      · rcases hoffset with h | ⟨first, tail, h, -⟩
        · exact Or.inr ⟨arg, [], rfl, hmove.2.1, h⟩
        · cases h
      · exact List.nil_sublist _
    · have hne : above ≠ [] := by
        rintro rfl
        exact hq₀ habove.symm
      have happly := apply_makeRoll unusedReg above arg.vreg below hne
      rw [← hcur, habove] at happly
      obtain ⟨g, hg, hgcur, hchanges⟩ := Fixup.emit_eq_some happly
      refine ⟨g, offset + 1, [(arg.vreg, f.cur, makeRoll q)], fun args infos => ?_, ?_,
        hoffset.succ arg, List.Sublist.refl _, ?_, ?_⟩
      · simp [placeArgs, hpush, hq, hq₀, hg]
      · rwa [hgcur]
      · rw [hchanges, trace_emit]
        rfl
      · rintro st hst
        obtain rfl := List.mem_singleton.mp hst
        exact addresses_makeRoll hq₀ hqv

/-- **The general path places every list of operands**, and each of its changes takes an
operand from the slot it stands in. -/
theorem placeArgs_spec (hs : NoRepetition src) {s : Stack} {args : List MIArg}
    {infos : List ArgInfo} {f : Fixup src} {offset : ℕ} (hmem : ArgsPresent src args)
    (hinfos : Described s done args infos) (hplaced : ArgsPlaced src done f.cur)
    (hoffset : OffsetFits done offset) :
    ∃ (g : Fixup src) (steps : List (StackVreg × Stack × Change)),
      placeArgs f offset args infos = some g ∧ ArgsPlaced src (done ++ args) g.cur ∧
      (steps.map Prod.fst).Sublist (args.map MIArg.vreg) ∧
      trace unusedReg g.changes src = trace unusedReg f.changes src ++ steps.map Prod.snd ∧
      ∀ st ∈ steps, Addresses st.2.1 st.1 st.2.2 := by
  induction args generalizing f offset done infos with
  | nil =>
    cases infos with
    | nil => exact ⟨f, [], rfl, by simpa using hplaced, List.Sublist.refl _, by simp, by simp⟩
    | cons info infos => exact hinfos.elim
  | cons arg args ih =>
    cases infos with
    | nil => exact hinfos.elim
    | cons info infos =>
      obtain ⟨⟨hinfo, -⟩, hrest⟩ := hinfos
      obtain ⟨g, offset', steps, hrun, hplaced', hoffset', hsub, htrace, haddr⟩ :=
        placeArgs_cons hs hinfo (hmem arg List.mem_cons_self) hplaced hoffset
      obtain ⟨g', steps', hrun', hplaced'', hsub', htrace', haddr'⟩ :=
        ih (fun a ha => hmem a (List.mem_cons_of_mem arg ha)) hrest hplaced' hoffset'
      refine ⟨g', steps ++ steps', by rw [hrun, hrun'], by simpa using hplaced'', ?_, ?_, ?_⟩
      · rw [List.map_append]
        exact hsub.append hsub'
      · rw [htrace', htrace, List.map_append, List.append_assoc]
      · intro st hst
        rcases List.mem_append.mp hst with hst | hst
        · exact haddr st hst
        · exact haddr' st hst

end General

end TVMCompiler
