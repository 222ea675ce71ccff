import Mathlib.Data.List.Basic
import Mathlib.Data.List.InsertIdx
import Mathlib.Data.List.Perm.Basic
import Mathlib.Data.Fin.Basic

/-!
# The stack and its changes

`Stack` models the operand stack of the machine as a deque whose first element is the top.
A `StackFixup::Change` is one stack manipulation, and `Stack::operator+=` performs it. The
same manipulation runs on the model stack, whose slots name registers, and on the real one,
whose slots hold values, so it is defined over any type of slot. It is undefined where the
source accesses a slot that does not exist.

## Main definitions

* `StackVreg`, `unusedReg`: a slot of the model stack
* `Change`, `Change.apply`: a stack manipulation, and `Stack::operator+=`
* `Step`, `doubleSteps`, `tripleSteps`: the exchanges and pushes a compound change expands to
* `applyAll`: `StackFixup::apply`

## Main results

* `applyAll_append`: fixups compose
* `runSteps_spec`: exchanges and pushes, slot by slot
-/

namespace TVMCompiler

/-- `StackVreg::VirtReg`. The debug variable takes no part in comparisons and is left out. -/
abbrev StackVreg := Fin 0x100000000

instance lawfulBEq_stackVreg : LawfulBEq StackVreg := inferInstance

/-- `TVMFunctionInfo::UnusedReg`, that is `-1u`: the slot holds no live register. -/
def unusedReg : StackVreg := ⟨0xFFFFFFFF, by decide⟩

/-- `StackFixup::Change`. `roll` is `ROLL` for a positive argument, `ROLLREV` for a negative
one; in the compound changes `true` is a push and `false` an exchange. -/
inductive Change where
  | pop (i : ℕ)
  | xchgTop (i : ℕ)
  | xchg (i j : ℕ)
  | pushI (i : ℕ)
  | pushHidden (i : ℕ) (reg : StackVreg)
  | pushUndef
  | blkswap (deepSz topSz : ℕ)
  | blkdrop (sz : ℕ)
  | roll (i : ℤ)
  | reverse (deepSz topIdx : ℕ)
  | doubleChange (p₀ p₁ : Bool) (i j : ℕ)
  | tripleChange (p₀ p₁ p₂ : Bool) (i j k : ℕ)
  deriving DecidableEq, Repr

/-- `StackFixup::swap`. -/
abbrev Change.swap : Change := .xchgTop 1

/-- `StackFixup::rot`. -/
abbrev Change.rot : Change := .blkswap 1 2

/-- The constructor of `StackFixup::xchg`, which orders its arguments. -/
def Change.mkXchg (i j : ℕ) : Change := .xchg (min i j) (max i j)

section Operations

variable {α : Type}

/-- `std::swap(Data[i], Data[j])`. -/
def swapAt (s : List α) (i j : ℕ) : Option (List α) := do
  let x ← s[i]?
  let y ← s[j]?
  return (s.set i y).set j x

/-- `Data.push_front(Data[i])`. -/
def pushAt (s : List α) (i : ℕ) : Option (List α) := do
  let x ← s[i]?
  return x :: s

/-- `Data[i] = Data[0]` followed by the removal of the top. -/
def popTo (s : List α) (i : ℕ) : Option (List α) := do
  let x ← s[0]?
  guard (i < s.length)
  return (s.set i x).tail

/-- The block of `deepSz` slots under the top `topSz` slots changes places with them. -/
def blockSwap (s : List α) (deepSz topSz : ℕ) : Option (List α) := do
  guard (deepSz + topSz ≤ s.length)
  return (s.drop topSz).take deepSz ++ s.take topSz ++ s.drop (topSz + deepSz)

/-- The two directions of `StackFixup::roll`. -/
def rollBy (s : List α) (i : ℤ) : Option (List α) := do
  guard (i.natAbs < s.length)
  if 0 < i then
    let deepElem ← s[i.natAbs]?
    return deepElem :: s.eraseIdx i.natAbs
  else
    let topElem ← s.head?
    return s.tail.insertIdx i.natAbs topElem

/-- `std::reverse` of the `deepSz` slots under the top `topIdx` slots. -/
def reverseBlock (s : List α) (deepSz topIdx : ℕ) : Option (List α) := do
  guard (topIdx + deepSz ≤ s.length)
  return s.take topIdx ++ ((s.drop topIdx).take deepSz).reverse ++ s.drop (topIdx + deepSz)

/-- `Data.erase(Data.begin(), Data.begin() + sz)`. -/
def dropTop (s : List α) (sz : ℕ) : Option (List α) := do
  guard (sz ≤ s.length)
  return s.drop sz

/-- One exchange or push of a compound change. -/
inductive Step where
  | xchg (i j : ℕ)
  | push (i : ℕ)
  deriving DecidableEq, Repr

def Step.apply : Step → List α → Option (List α)
  | .xchg i j, s => swapAt s i j
  | .push i, s => pushAt s i

def runSteps (steps : List Step) (s : List α) : Option (List α) :=
  steps.foldlM (fun s st => st.apply s) s

/-- The expansion of `doubleChange` in `Stack::operator+=`. -/
def doubleSteps (p₀ p₁ : Bool) (i j : ℕ) : List Step :=
  match p₀, p₁ with
  | true, true => [.push i, .push (j + 1)]
  | true, false => [.push i, .xchg 0 1, .xchg 0 (j + 1)]
  | false, true => [.xchg 0 i, .push j]
  | false, false => [.xchg (min 1 i) (max 1 i), .xchg 0 j]

/-- The expansion of `tripleChange` in `Stack::operator+=`. -/
def tripleSteps (p₀ p₁ p₂ : Bool) (i j k : ℕ) : List Step :=
  match p₀, p₁, p₂ with
  | true, true, true => [.push i, .push (j + 1), .push (k + 2)]
  | true, true, false => [.push i, .xchg 0 1, .push (j + 1), .xchg 0 1, .xchg 0 (k + 2)]
  | true, false, true => [.push i, .xchg 0 1, .xchg 0 (j + 1), .push (k + 1)]
  | true, false, false =>
    [.push i, .xchg 0 2, .xchg (min 1 (j + 1)) (max 1 (j + 1)), .xchg 0 (k + 1)]
  | false, true, true => [.xchg 0 i, .push j, .push (k + 1)]
  | false, true, false => [.xchg (min 1 i) (max 1 i), .push j, .xchg 0 1, .xchg 0 (k + 1)]
  | false, false, true => [.xchg (min 1 i) (max 1 i), .xchg 0 j, .push k]
  | false, false, false =>
    [.xchg (min 2 i) (max 2 i), .xchg (min 1 j) (max 1 j), .xchg 0 k]

/-- `Stack::operator+=`. The slot pushed by `pushUndef` is `undef`. -/
def Change.apply (undef : α) : Change → List α → Option (List α)
  | .pop i, s => popTo s i
  | .xchgTop i, s => swapAt s 0 i
  | .xchg i j, s => swapAt s i j
  | .pushI i, s => pushAt s i
  | .pushHidden _ _, s => some s
  | .pushUndef, s => some (undef :: s)
  | .blkswap deepSz topSz, s => blockSwap s deepSz topSz
  | .blkdrop sz, s => dropTop s sz
  | .roll i, s => rollBy s i
  | .reverse deepSz topIdx, s => reverseBlock s deepSz topIdx
  | .doubleChange p₀ p₁ i j, s => do
    guard (i < s.length ∧ j < s.length)
    runSteps (doubleSteps p₀ p₁ i j) s
  | .tripleChange p₀ p₁ p₂ i j k, s => do
    guard (i < s.length ∧ j < s.length ∧ k < s.length)
    runSteps (tripleSteps p₀ p₁ p₂ i j k) s

/-- `StackFixup::apply`: the changes of a fixup in order. -/
def applyAll (undef : α) (changes : List Change) (s : List α) : Option (List α) :=
  changes.foldlM (fun s c => c.apply undef s) s

variable (undef : α)

@[simp] theorem applyAll_nil (s : List α) : applyAll undef [] s = some s := rfl

@[simp] theorem applyAll_cons (c : Change) (cs : List Change) (s : List α) :
    applyAll undef (c :: cs) s = (c.apply undef s).bind (applyAll undef cs) := rfl

theorem applyAll_singleton (c : Change) (s : List α) :
    applyAll undef [c] s = c.apply undef s := by
  rw [applyAll_cons]
  cases c.apply undef s <;> rfl

/-- Fixups compose. -/
theorem applyAll_append (cs ds : List Change) (s : List α) :
    applyAll undef (cs ++ ds) s = (applyAll undef cs s).bind (applyAll undef ds) := by
  simp [applyAll, List.foldlM_append]
  rfl

end Operations

/-! ## Exchanges and pushes, slot by slot

A stack is seen as the function from slots to their contents; out of range there is none. -/

section View

variable {α : Type}

/-- What a step makes of the contents of the slots. -/
def Step.view : Step → (ℕ → Option α) → ℕ → Option α
  | .xchg i j, f => fun k => if k = i then f j else if k = j then f i else f k
  | .push i, f => fun k => if k = 0 then f i else f (k - 1)

def viewAll : List Step → (ℕ → Option α) → ℕ → Option α
  | [], f => f
  | st :: sts, f => viewAll sts (st.view f)

/-- The slots that the steps access exist in a stack of `n` slots. -/
def InBounds : List Step → ℕ → Prop
  | [], _ => True
  | .xchg i j :: sts, n => (i < n ∧ j < n) ∧ InBounds sts n
  | .push i :: sts, n => i < n ∧ InBounds sts (n + 1)

/-- The contents the steps push, the last one first. -/
def pushedBy : List Step → (ℕ → Option α) → List (Option α)
  | [], _ => []
  | .xchg i j :: sts, f => pushedBy sts (Step.view (.xchg i j) f)
  | .push i :: sts, f => pushedBy sts (Step.view (.push i) f) ++ [f i]

theorem swapAt_eq {s : List α} {i j : ℕ} {x y : α} (hx : s[i]? = some x) (hy : s[j]? = some y) :
    swapAt s i j = some ((s.set i y).set j x) := by
  simp [swapAt, hx, hy]

theorem getElem?_set_set {s : List α} {i j : ℕ} {x y : α} (hx : s[i]? = some x)
    (hy : s[j]? = some y) (k : ℕ) :
    ((s.set i y).set j x)[k]? = if k = i then s[j]? else if k = j then s[i]? else s[k]? := by
  have hi := (List.getElem?_eq_some_iff.mp hx).1
  have hj := (List.getElem?_eq_some_iff.mp hy).1
  rw [List.getElem?_set, List.getElem?_set]
  grind

theorem swapAt_comm (s : List α) (i j : ℕ) : swapAt s i j = swapAt s j i := by
  by_cases hij : i = j
  · rw [hij]
  · simp only [swapAt, List.set_comm _ _ hij]
    cases s[i]? <;> cases s[j]? <;> rfl

theorem swapAt_self {s : List α} {i : ℕ} (h : i < s.length) : swapAt s i i = some s := by
  have hi := List.getElem?_eq_getElem h
  rw [swapAt_eq hi hi, List.set_set, List.set_getElem_self]

/-- An exchange permutes the stack. -/
theorem perm_set_set {s : List α} {i j : ℕ} {x y : α} (hx : s[i]? = some x)
    (hy : s[j]? = some y) : ((s.set i y).set j x).Perm s := by
  obtain ⟨hi, rfl⟩ := List.getElem?_eq_some_iff.mp hx
  obtain ⟨hj, rfl⟩ := List.getElem?_eq_some_iff.mp hy
  exact List.set_set_perm hi hj

/-- **Exchanges and pushes, slot by slot**: steps whose slots exist succeed, the slots of the
result are given by `viewAll`, and the stack gains exactly the contents that were pushed. -/
theorem runSteps_spec (steps : List Step) (s : List α) (h : InBounds steps s.length) :
    ∃ r pushed, runSteps steps s = some r ∧ (∀ k, r[k]? = viewAll steps (s[·]?) k) ∧
      pushed.map some = pushedBy steps (s[·]?) ∧ r.Perm (pushed ++ s) := by
  induction steps generalizing s with
  | nil => exact ⟨s, [], rfl, fun _ => rfl, rfl, List.Perm.refl _⟩
  | cons st sts ih =>
    cases st with
    | xchg i j =>
      obtain ⟨⟨hi, hj⟩, hsts⟩ := h
      have hx := List.getElem?_eq_getElem hi
      have hy := List.getElem?_eq_getElem hj
      set x := s[i]
      set y := s[j]
      have hview : (fun k => ((s.set i y).set j x)[k]?) = Step.view (.xchg i j) (s[·]?) :=
        funext (getElem?_set_set hx hy)
      obtain ⟨r, pushed, hrun, hr, hpushed, hperm⟩ :=
        ih ((s.set i y).set j x) (by simpa using hsts)
      rw [hview] at hr hpushed
      refine ⟨r, pushed, ?_, hr, hpushed, hperm.trans ((perm_set_set hx hy).append_left _)⟩
      simpa [runSteps, Step.apply, swapAt_eq hx hy] using hrun
    | push i =>
      obtain ⟨hi, hsts⟩ := h
      have hx := List.getElem?_eq_getElem hi
      set x := s[i]
      have hview : (fun k => (x :: s)[k]?) = Step.view (.push i) (s[·]?) := by
        funext k
        simp only [Step.view, hx, List.getElem?_cons]
      obtain ⟨r, pushed, hrun, hr, hpushed, hperm⟩ := ih (x :: s) (by simpa using hsts)
      rw [hview] at hr hpushed
      refine ⟨r, pushed ++ [x], ?_, hr, ?_, by simpa using hperm⟩
      · simpa [runSteps, Step.apply, pushAt, hx] using hrun
      · simp [pushedBy, hpushed, hx]

end View

end TVMCompiler
