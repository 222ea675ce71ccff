import Mathlib.Data.Option.Basic
import TVMCompiler.Stack.Change

/-!
# Building a fixup

A `StackFixup` grows by changes that are applied to a current stack as they are emitted, the
source's `rv(curStack += rv(change))`. The record below carries that correspondence: its
changes lead from the initial stack to the current one.

## Main definitions

* `Fixup`, `Fixup.emit`: a fixup under construction
* `makeRoll`, `makeRollRev`, `makeBlkSwap`, `makeReverse`, `makeBlkdrop`: the choice of an
  instruction for a block movement
* `liftBlock`: a block goes to the top
* `position`, `positionFrom`: the lookups of `Stack`
* `optimizeEqualXchgs`, `optimize`: the removal of exchanges that cancel

## Main results

* `apply_makeRoll`, `apply_makeBlkSwap`, `apply_makeReverse`, `apply_makeBlkdrop`: the chosen
  instruction performs the movement
* `applyAll_optimizeEqualXchgs`: the removal keeps the effect
* `trace_optimizeEqualXchgs`: what is left runs in the same stacks as before
-/

namespace TVMCompiler

/-- A model stack, top first. -/
abbrev Stack := List StackVreg

/-! ## Limits of the instructions -/

def pushLimit : ℕ := 255
def xchgLimit : ℕ := 15
def xchgDeepLimit : ℕ := 255
def blkdropImmLimit : ℕ := 15
def blkswapImmLimit : ℕ := 15
def rollImmLimit : ℕ := 15
def reverseImmLimit : ℕ := 15

/-! ## Fixups under construction -/

/-- A fixup for the stack `src` together with the current stack, which the changes emitted so
far lead to. -/
structure Fixup (src : Stack) where
  changes : List Change
  cur : Stack
  run_eq : applyAll unusedReg changes src = some cur

namespace Fixup

variable {src : Stack}

/-- The fixup without changes. -/
def start (src : Stack) : Fixup src := ⟨[], src, rfl⟩

/-- `rv(curStack += rv(change))`. -/
def emit (f : Fixup src) (c : Change) : Option (Fixup src) :=
  match h : c.apply unusedReg f.cur with
  | none => none
  | some s => some ⟨f.changes ++ [c], s, by simp [applyAll_append, f.run_eq, h]⟩

theorem emit_eq_some {f : Fixup src} {c : Change} {s : Stack}
    (h : c.apply unusedReg f.cur = some s) :
    ∃ g : Fixup src, f.emit c = some g ∧ g.cur = s ∧ g.changes = f.changes ++ [c] := by
  refine ⟨⟨f.changes ++ [c], s, by simp [applyAll_append, f.run_eq, h]⟩, ?_, rfl, rfl⟩
  unfold emit
  split
  · rename_i hnone
    exact absurd (h.symm.trans hnone) (by simp)
  · rename_i s' hsome
    obtain rfl : s = s' := Option.some.inj (h.symm.trans hsome)
    rfl

end Fixup

/-! ## Choosing an instruction -/

/-- `blkswap::goodFor`. -/
def goodFor (deepSz topSz : ℕ) : Bool :=
  deepSz - 1 ≤ blkswapImmLimit && topSz - 1 ≤ blkswapImmLimit

/-- `roll::isImmRoll`. -/
def isImmRoll (i : ℤ) : Bool := i.natAbs ≤ rollImmLimit + 1

def makeRoll (deepElem : ℕ) : Change :=
  if deepElem = 1 then .xchgTop deepElem
  else if isImmRoll deepElem then .roll deepElem
  else if goodFor 1 deepElem then .blkswap 1 deepElem
  else .roll deepElem

def makeRollRev (toDeepElem : ℕ) : Change :=
  if toDeepElem = 1 then .xchgTop toDeepElem
  else if isImmRoll (-toDeepElem) then .roll (-toDeepElem)
  else if goodFor toDeepElem 1 then .blkswap toDeepElem 1
  else .roll (-toDeepElem)

def makeBlkSwap (deepElems topElems : ℕ) : Change :=
  if deepElems = 1 then makeRoll topElems
  else if topElems = 1 then makeRollRev deepElems
  else .blkswap deepElems topElems

def makeReverse (sz : ℕ) : Change :=
  if sz = 2 then .xchgTop 1 else .reverse sz 0

def makeBlkdrop (sz : ℕ) : Change :=
  if sz = 1 then .pop 0 else .blkdrop sz

section Effects

variable {α : Type} (undef : α)

theorem blockSwap_append (top block rest : List α) :
    blockSwap (top ++ block ++ rest) block.length top.length = some (block ++ top ++ rest) := by
  simp [blockSwap, Nat.add_comm]

theorem swapAt_one (x y : α) (rest : List α) :
    swapAt (x :: y :: rest) 0 1 = some (y :: x :: rest) := by
  simp [swapAt]

theorem rollBy_append (top : List α) (x : α) (rest : List α) (h : top ≠ []) :
    rollBy (top ++ x :: rest) (top.length : ℤ) = some (x :: top ++ rest) := by
  have hpos : 0 < top.length := List.length_pos_iff.mpr h
  simp [rollBy, hpos, List.eraseIdx_append_of_length_le]

theorem insertIdx_length_append (block rest : List α) (x : α) :
    (block ++ rest).insertIdx block.length x = block ++ x :: rest := by
  induction block with
  | nil => simp
  | cons y block ih => simp [ih]

theorem rollBy_neg_append (x : α) (block rest : List α) :
    rollBy (x :: block ++ rest) (-(block.length : ℤ)) = some (block ++ x :: rest) := by
  have hneg : ¬ 0 < -(block.length : ℤ) := by omega
  have hlt : block.length < (x :: block ++ rest).length := by
    rw [List.cons_append, List.length_cons, List.length_append]
    omega
  simp only [rollBy, Int.natAbs_neg, Int.natAbs_natCast, if_neg hneg, guard, if_pos hlt]
  simp [insertIdx_length_append]

/-- `makeRoll` brings the element under the block `top` to the top. -/
theorem apply_makeRoll (top : List α) (x : α) (rest : List α) (h : top ≠ []) :
    (makeRoll top.length).apply undef (top ++ x :: rest) = some (x :: top ++ rest) := by
  unfold makeRoll
  split
  · rename_i hlen
    obtain ⟨y, rfl⟩ := List.length_eq_one_iff.mp hlen
    simpa [Change.apply] using swapAt_one y x rest
  split
  · exact rollBy_append top x rest h
  split
  · simpa [Change.apply] using blockSwap_append top [x] rest
  · exact rollBy_append top x rest h

/-- `makeRollRev` puts the top element under the block `block`. -/
theorem apply_makeRollRev (x : α) (block rest : List α) :
    (makeRollRev block.length).apply undef (x :: block ++ rest) =
      some (block ++ x :: rest) := by
  unfold makeRollRev
  split
  · rename_i hlen
    obtain ⟨y, rfl⟩ := List.length_eq_one_iff.mp hlen
    simpa [Change.apply] using swapAt_one x y rest
  split
  · exact rollBy_neg_append x block rest
  split
  · simpa [Change.apply] using blockSwap_append [x] block rest
  · exact rollBy_neg_append x block rest

/-- `makeBlkSwap` exchanges the top block with the block under it. -/
theorem apply_makeBlkSwap (top block rest : List α) (ht : top ≠ []) :
    (makeBlkSwap block.length top.length).apply undef (top ++ block ++ rest) =
      some (block ++ top ++ rest) := by
  unfold makeBlkSwap
  split
  · rename_i hlen
    obtain ⟨x, rfl⟩ := List.length_eq_one_iff.mp hlen
    simpa using apply_makeRoll undef top x rest ht
  split
  · rename_i hlen
    obtain ⟨x, rfl⟩ := List.length_eq_one_iff.mp hlen
    simpa using apply_makeRollRev undef x block rest
  · exact blockSwap_append top block rest

/-- `makeReverse` reverses the top block. -/
theorem apply_makeReverse (block rest : List α) :
    (makeReverse block.length).apply undef (block ++ rest) = some (block.reverse ++ rest) := by
  unfold makeReverse
  split
  · rename_i hlen
    obtain ⟨x, y, rfl⟩ := List.length_eq_two.mp hlen
    simpa [Change.apply] using swapAt_one x y rest
  · simp [Change.apply, reverseBlock]

/-- `makeBlkdrop` removes the top block. -/
theorem apply_makeBlkdrop (block rest : List α) (h : block ≠ []) :
    (makeBlkdrop block.length).apply undef (block ++ rest) = some rest := by
  unfold makeBlkdrop
  split
  · rename_i hlen
    obtain ⟨x, rfl⟩ := List.length_eq_one_iff.mp hlen
    simp [Change.apply, popTo]
  · simp [Change.apply, dropTop]

end Effects

/-- The block of `deepSz` slots under the top `topSz` ones goes to the top; a block that is
there already stays. -/
def liftBlock {src : Stack} (f : Fixup src) (deepSz topSz : ℕ) : Option (Fixup src) :=
  if topSz ≠ 0 then f.emit (makeBlkSwap deepSz topSz) else some f

theorem liftBlock_spec {src : Stack} {f : Fixup src} {above block below : Stack}
    (hcur : f.cur = above ++ block ++ below) :
    ∃ g, liftBlock f block.length above.length = some g ∧ g.cur = block ++ above ++ below := by
  by_cases habove : above = []
  · subst habove
    exact ⟨f, rfl, by simpa using hcur⟩
  · have hne : above.length ≠ 0 := by simpa using habove
    have happly := apply_makeBlkSwap unusedReg above block below habove
    rw [← hcur] at happly
    obtain ⟨g, hg, hgcur, -⟩ := Fixup.emit_eq_some happly
    exact ⟨g, (if_pos hne).trans hg, hgcur⟩

/-! ## Looking up a register -/

/-- `Stack::position`, undefined when the register is absent. -/
def position (s : Stack) (elem : StackVreg) : Option ℕ := s.idxOf? elem

/-- `Stack::position` from a given slot on. -/
def positionFrom (s : Stack) (start : ℕ) (elem : StackVreg) : Option ℕ :=
  ((s.drop start).idxOf? elem).map (· + start)

@[simp] theorem positionFrom_zero (s : Stack) (v : StackVreg) :
    positionFrom s 0 v = position s v := by
  simp [positionFrom, position]

/-- The lookup finds the first occurrence from the slot `start` on. -/
theorem positionFrom_spec {s : Stack} {start : ℕ} {v : StackVreg} (h : v ∈ s.drop start) :
    ∃ q, positionFrom s start v = some q ∧ start ≤ q ∧ s[q]? = some v ∧
      (∀ k, start ≤ k → k < q → s[k]? ≠ some v) ∧
      (s.drop (q + 1)).count v + 1 = (s.drop start).count v := by
  obtain ⟨as, bs, hsplit, hv⟩ := List.eq_append_cons_of_mem h
  have hfind : (s.drop start).idxOf? v = some as.length := by
    rw [hsplit, List.idxOf?_eq_some_iff]
    refine ⟨by simp, by simp, fun j hj => ?_⟩
    simp only [List.getElem_append_left hj]
    exact fun heq => hv (heq ▸ List.getElem_mem hj)
  have hslot (k : ℕ) : s[k + start]? = (as ++ v :: bs)[k]? := by
    rw [← hsplit, List.getElem?_drop, Nat.add_comm]
  refine ⟨as.length + start, by simp [positionFrom, hfind], by omega, by simp [hslot], ?_, ?_⟩
  · intro k hk hkq hkv
    obtain ⟨d, rfl⟩ := Nat.exists_eq_add_of_le' hk
    rw [hslot, List.getElem?_append_left (by omega)] at hkv
    exact hv (List.mem_of_getElem? hkv)
  · have hrest : s.drop (as.length + start + 1) = bs := by
      rw [show as.length + start + 1 = start + (as.length + 1) by omega, ← List.drop_drop, hsplit]
      simp
    rw [hrest, hsplit]
    simp [List.count_eq_zero_of_not_mem hv]

/-- A copy of the register is pushed, or an undefined value for the unused marker. -/
def pushVreg {src : Stack} (f : Fixup src) (vreg : StackVreg) : Option (Fixup src) :=
  if vreg = unusedReg then f.emit .pushUndef
  else do
    let i ← position f.cur vreg
    f.emit (.pushI i)

theorem pushVreg_spec {src : Stack} {f : Fixup src} {v : StackVreg}
    (h : v ≠ unusedReg → v ∈ f.cur) :
    ∃ g c, pushVreg f v = some g ∧ g.cur = v :: f.cur ∧ g.changes = f.changes ++ [c] ∧
      (v = unusedReg ∧ c = .pushUndef ∨ ∃ i, c = .pushI i ∧ f.cur[i]? = some v) := by
  by_cases hv : v = unusedReg
  · obtain ⟨g, hg, hcur, hchanges⟩ :=
      Fixup.emit_eq_some (show Change.pushUndef.apply unusedReg f.cur = _ from rfl)
    exact ⟨g, _, (if_pos hv).trans hg, by rw [hcur, hv], hchanges, Or.inl ⟨hv, rfl⟩⟩
  · obtain ⟨i, hi, -, hiv, -⟩ := @positionFrom_spec f.cur 0 v (h hv)
    have happly : (Change.pushI i).apply unusedReg f.cur = some (v :: f.cur) := by
      simp [Change.apply, pushAt, hiv]
    obtain ⟨g, hg, hcur, hchanges⟩ := Fixup.emit_eq_some happly
    rw [positionFrom_zero] at hi
    exact ⟨g, _, by simp [pushVreg, hv, hi, hg], hcur, hchanges, Or.inr ⟨i, rfl, hiv⟩⟩

/-! ## Removing exchanges that cancel -/

/-- The loop of `optimizeEqualXchgs`: the iterator stands between the changes `before`, last
one first, and the changes `after`. -/
def optimizeLoop : List Change → List Change → List Change
  | before, [] => before.reverse
  | [], c :: after => optimizeLoop [c] after
  | p :: before, c :: after =>
    match p, c with
    | .xchgTop i, .xchgTop j =>
      if i = j then optimizeLoop before after else optimizeLoop (c :: p :: before) after
    | _, _ => optimizeLoop (c :: p :: before) after

/-- `StackFixup::optimizeEqualXchgs`. -/
def optimizeEqualXchgs (changes : List Change) : List Change := optimizeLoop [] changes

/-- `StackFixup::optimize`. -/
def optimize (isCommutative : Bool) (changes : List Change) : List Change :=
  let changes := optimizeEqualXchgs changes
  if isCommutative then
    match changes with
    | [.xchgTop 1] => []
    | [.pushI i, .xchgTop 1] => [.pushI i]
    | [.pushUndef, .xchgTop 1] => [.pushUndef]
    | _ => changes
  else changes

section Optimize

variable {α : Type} (undef : α)

/-- Equal exchanges with the top cancel. -/
theorem swapAt_swapAt {s s' : List α} {i j : ℕ} (h : swapAt s i j = some s') :
    swapAt s' i j = some s := by
  simp only [swapAt, Option.bind_eq_bind, Option.bind_eq_some_iff] at h
  obtain ⟨x, hx, y, hy, h⟩ := h
  obtain rfl : (s.set i y).set j x = s' := by simpa using h
  have hview := getElem?_set_set hx hy
  have hi : ((s.set i y).set j x)[i]? = some y := by rw [hview, if_pos rfl, hy]
  have hj : ((s.set i y).set j x)[j]? = some x := by
    rw [hview]
    split
    · rename_i heq
      rw [hy, ← hx, ← heq, hy]
    · rw [if_pos rfl, hx]
  rw [swapAt_eq hi hj]
  refine congrArg some (List.ext_getElem? fun k => ?_)
  rw [getElem?_set_set hi hj, hi, hj, hview]
  grind

/-- The changes of a run, each with the stack it is applied to. -/
def trace : List Change → List α → List (List α × Change)
  | [], _ => []
  | c :: cs, s => (s, c) :: match c.apply undef s with
    | none => []
    | some s' => trace cs s'

theorem trace_append {cs ds : List Change} {s s' : List α}
    (h : applyAll undef cs s = some s') :
    trace undef (cs ++ ds) s = trace undef cs s ++ trace undef ds s' := by
  induction cs generalizing s with
  | nil => simp_all [trace]
  | cons c cs ih =>
    rw [applyAll_cons, Option.bind_eq_some_iff] at h
    obtain ⟨t, ht, h⟩ := h
    simp [trace, ht, ih h]

/-- Emitting a change extends the run by the current stack and the change. -/
theorem trace_emit {src : Stack} (f : Fixup src) (c : Change) :
    trace unusedReg (f.changes ++ [c]) src = trace unusedReg f.changes src ++ [(f.cur, c)] := by
  rw [trace_append unusedReg f.run_eq, trace]
  cases c.apply unusedReg f.cur <;> rfl

/-- What the loop does to a run: the effect stays, and each change that is left runs in the
stack it ran in before. -/
theorem optimizeLoop_spec {before after : List Change} {s r : List α}
    (h : applyAll undef (before.reverse ++ after) s = some r) :
    applyAll undef (optimizeLoop before after) s = some r ∧
      (trace undef (optimizeLoop before after) s).Sublist
        (trace undef (before.reverse ++ after) s) := by
  induction before, after using optimizeLoop.induct with
  | case1 before => simpa [optimizeLoop] using h
  | case2 c after ih =>
    rw [optimizeLoop]
    exact ih h
  | case3 before after j ih =>
    rw [optimizeLoop, if_pos rfl]
    have hsplit : (Change.xchgTop j :: before).reverse ++ Change.xchgTop j :: after =
        before.reverse ++ ([.xchgTop j, .xchgTop j] ++ after) := by simp
    rw [hsplit, applyAll_append, Option.bind_eq_some_iff] at h
    obtain ⟨t, ht, h⟩ := h
    have hpair : ∃ t', swapAt t 0 j = some t' ∧ applyAll undef after t = some r := by
      simp only [List.cons_append, List.nil_append, applyAll_cons, Change.apply,
        Option.bind_eq_some_iff] at h
      obtain ⟨t', ht', t'', ht'', h⟩ := h
      rw [swapAt_swapAt ht', Option.some.injEq] at ht''
      exact ⟨t', ht', ht'' ▸ h⟩
    obtain ⟨t', ht', hafter⟩ := hpair
    have hrun : applyAll undef (before.reverse ++ after) s = some r := by
      rw [applyAll_append, ht]
      exact hafter
    refine ⟨(ih hrun).1, (ih hrun).2.trans ?_⟩
    rw [hsplit, trace_append undef ht, trace_append undef ht]
    refine (List.Sublist.refl _).append ?_
    simp only [List.cons_append, List.nil_append, trace, Change.apply, ht', swapAt_swapAt ht']
    exact ((List.Sublist.refl _).cons _).cons _
  | case4 before after i j hne ih =>
    rw [optimizeLoop, if_neg hne]
    simpa using ih (by simpa using h)
  | case5 p before c after hne ih =>
    rw [optimizeLoop]
    · simpa using ih (by simpa using h)
    · exact hne

/-- **Removing exchanges that cancel keeps the effect of a run.** -/
theorem applyAll_optimizeEqualXchgs {changes : List Change} {s r : List α}
    (h : applyAll undef changes s = some r) :
    applyAll undef (optimizeEqualXchgs changes) s = some r :=
  (@optimizeLoop_spec _ undef [] changes s r h).1

theorem trace_optimizeEqualXchgs {changes : List Change} {s r : List α}
    (h : applyAll undef changes s = some r) :
    (trace undef (optimizeEqualXchgs changes) s).Sublist (trace undef changes s) :=
  (@optimizeLoop_spec _ undef [] changes s r h).2

theorem applyAll_optimize_false {changes : List Change} {s r : List α}
    (h : applyAll undef changes s = some r) :
    applyAll undef (optimize false changes) s = some r :=
  applyAll_optimizeEqualXchgs undef h

end Optimize

end TVMCompiler
