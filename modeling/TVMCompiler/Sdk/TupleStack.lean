import TVMCompiler.Sdk.Cell

/-!
# Stacks in a tuple

`tuple_stack` keeps its top apart and the slots below it in a tuple of the machine, which holds at
most 255 components.

## Main definitions

* `ContainerError`: the exceptions of the code over it
* `TupleStack`: the stack and its operations
* `TupleStack.ofList`: the stack of some slots, the top first

## Main results

* `push_ofList`, `pop_ofList`: the operations on the slots
-/

namespace TVMCompiler.Sdk

/-- The exceptions: those of the machine on cells and on tuples, and the codes
`error_code::empty_container` and `error_code::iterator_overflow`. -/
inductive ContainerError where
  | cell (e : TvmException)
  | tupleOverflow
  | emptyContainer
  | iteratorOverflow
  deriving DecidableEq, Repr

/-- `tuple_stack`. The last component of the tuple comes first. -/
structure TupleStack (α : Type) where
  top : Option α
  tup : List α

namespace TupleStack

/-- The components that a tuple can have. -/
def maxTuple : ℕ := 255

variable {α : Type}

def new : TupleStack α := ⟨none, []⟩

def empty (s : TupleStack α) : Bool := s.top.isNone

/-- `push`. A full tuple cannot be extended. -/
def push (s : TupleStack α) (val : α) : Except ContainerError (TupleStack α) :=
  match s.top with
  | none => .ok ⟨some val, s.tup⟩
  | some top =>
    if s.tup.length < maxTuple then .ok ⟨some val, top :: s.tup⟩ else .error .tupleOverflow

def pop (s : TupleStack α) : Except ContainerError (TupleStack α) :=
  match s.top with
  | none => .error .emptyContainer
  | some _ =>
    match s.tup with
    | [] => .ok ⟨none, []⟩
    | val :: tup => .ok ⟨some val, tup⟩

/-- The assignment to `top()`. -/
def setTop (s : TupleStack α) (val : α) : TupleStack α := ⟨some val, s.tup⟩

/-- The number of slots. -/
def size (s : TupleStack α) : ℕ := s.tup.length + s.top.toList.length

/-- The stack of the given slots, the top first. -/
def ofList : List α → TupleStack α
  | [] => new
  | top :: tup => ⟨some top, tup⟩

variable {vals : List α} {val : α}

@[simp] theorem top_ofList_cons : (ofList (val :: vals)).top = some val := rfl

@[simp] theorem empty_ofList_nil : (ofList ([] : List α)).empty = true := rfl

@[simp] theorem empty_ofList_cons : (ofList (val :: vals)).empty = false := rfl

@[simp] theorem size_ofList (vals : List α) : (ofList vals).size = vals.length := by
  cases vals <;> rfl

@[simp] theorem setTop_ofList_cons (val' : α) :
    (ofList (val :: vals)).setTop val' = ofList (val' :: vals) := rfl

@[simp] theorem pop_ofList_cons : (ofList (val :: vals)).pop = .ok (ofList vals) := by
  cases vals <;> rfl

/-- A push finds room for at most 256 slots. -/
theorem push_ofList (h : vals.length ≤ maxTuple) :
    (ofList vals).push val = .ok (ofList (val :: vals)) := by
  cases vals with
  | nil => rfl
  | cons top tup => exact if_pos (Nat.lt_of_succ_le h)

theorem push_ofList_overflow (h : maxTuple < vals.length) :
    (ofList vals).push val = .error .tupleOverflow := by
  cases vals with
  | nil => exact absurd h (Nat.not_lt_zero _)
  | cons top tup => exact if_neg (Nat.not_lt_of_le (Nat.le_of_lt_succ h))

end TupleStack

end TVMCompiler.Sdk
