import Mathlib.Logic.Function.Basic
import TVMCompiler.Lib.SortedMap
import TVMCompiler.Sdk.Cell

/-!
# The stack machine

The instructions that the routines of the C runtime consist of, and what they do to the stack, to
the persistent data in `c4` and to the global variables. Continuations are entered by depth: code at
one depth enters continuations and routines at the depth below.

## Main definitions

* `Instr`, `Val`, `State`: instructions, values and states
* `step`, `runCode`, `exec`: one instruction, a list of them, and code with what it enters

## Main results

* `runCode_DUP` and its companions: one lemma for each instruction
* `runCode_append`: code in two parts
-/

namespace TVMCompiler.CSdk

open Lib Sdk

/-- The routines that are called by name. -/
inductive Routine where
  | load
  | store
  | memcpy
  | memset
  deriving DecidableEq, Repr

inductive Instr where
  | DUP
  | DUP2
  | DROP2
  | SWAP
  | PUSH (i : ℕ)
  | XCHG (i j : ℕ)
  | ROLLREV (i : ℕ)
  | PUSHINT (n : ℤ)
  | INC
  | LESS
  | PUSHCONT (code : List Instr)
  | IFELSE
  | REPEAT
  | CALL (r : Routine)
  | RET
  | THROWIFNOT (code : ℕ)
  | PUSH_C4
  | POP_C4
  | GETGLOB (k : ℕ)
  | SETGLOB (k : ℕ)
  | CTOS
  | PLDDICT
  | LDIX
  | ENDS
  | NEWC
  | STIX
  | STDICT
  | ENDC
  | DICTIGET
  | DICTISETB

/-- A dictionary with signed keys. -/
abbrev Words := SortedMap ℤ Slice

/-- The values of the stack. A cell, slice or builder of a dictionary holds nothing else. -/
inductive Val where
  | int (n : ℤ)
  | cont (code : List Instr)
  | slice (s : Slice)
  | builder (b : Builder)
  | dict (d : Words)
  | dictCell (d : Words)
  | dictSlice (d : Words)
  | dictBuilder (d : Words)

/-- What ends a run. `badStack` is a stack underflow or a type check, and `stuck` is no exception:
the model goes no further. -/
inductive Stop where
  | machine (e : TvmException)
  | badStack
  | integerOverflow
  | thrown (code : ℕ)
  | stuck
  deriving DecidableEq

structure State where
  stack : List Val
  c4 : Words
  globals : ℕ → Val

/-- The number fits a key or a field of so many bits. -/
def FitsSigned (n : ℤ) (width : ℕ) : Prop := -2 ^ width ≤ 2 * n ∧ 2 * n < 2 ^ width

instance instDecidableFitsSigned (n : ℤ) (width : ℕ) : Decidable (FitsSigned n width) :=
  instDecidableAnd

/-- The result of arithmetic, which is an integer of 257 bits. -/
def pushInt (n : ℤ) (stack : List Val) (st : State) : Except Stop State :=
  if FitsSigned n 257 then .ok { st with stack := .int n :: stack } else .error .integerOverflow

def ofBool (b : Bool) : ℤ := if b then -1 else 0

/-- The result of a search. -/
def found : Option Slice → List Val
  | some p => [.int (ofBool true), .slice p]
  | none => [.int (ofBool false)]

/-- `n` rounds of a loop. -/
def iterate (f : State → Except Stop State) : ℕ → State → Except Stop State
  | 0, st => .ok st
  | n + 1, st => (f st).bind (iterate f n)

section Exec

variable (enter : List Instr → State → Except Stop State) (routine : Routine → List Instr)

/-- One instruction. Continuations and routines are entered with `enter`. -/
def step (i : Instr) (st : State) : Except Stop State :=
  match i, st.stack with
  | .DUP, x :: s => .ok { st with stack := x :: x :: s }
  | .DUP2, x :: y :: s => .ok { st with stack := x :: y :: x :: y :: s }
  | .DROP2, _ :: _ :: s => .ok { st with stack := s }
  | .SWAP, x :: y :: s => .ok { st with stack := y :: x :: s }
  | .PUSH i, s => s[i]?.elim (.error .badStack) fun x => .ok { st with stack := x :: s }
  | .XCHG i j, s => s[i]?.elim (.error .badStack) fun x =>
    s[j]?.elim (.error .badStack) fun y => .ok { st with stack := (s.set i y).set j x }
  | .ROLLREV i, x :: s =>
    if i ≤ s.length then .ok { st with stack := s.take i ++ x :: s.drop i } else .error .badStack
  | .PUSHINT n, s => pushInt n s st
  | .INC, .int n :: s => pushInt (n + 1) s st
  | .LESS, .int y :: .int x :: s => .ok { st with stack := .int (ofBool (x < y)) :: s }
  | .PUSHCONT code, s => .ok { st with stack := .cont code :: s }
  | .IFELSE, .cont no :: .cont yes :: .int flag :: s =>
    enter (if flag ≠ 0 then yes else no) { st with stack := s }
  | .REPEAT, .cont body :: .int n :: s =>
    if FitsSigned n 32 then iterate (enter body) n.toNat { st with stack := s }
    else .error (.machine .rangeCheck)
  | .CALL r, _ => enter (routine r) st
  | .RET, _ => .ok st
  | .THROWIFNOT code, .int flag :: s =>
    if flag ≠ 0 then .ok { st with stack := s } else .error (.thrown code)
  | .PUSH_C4, s => .ok { st with stack := .dictCell st.c4 :: s }
  | .POP_C4, .dictCell d :: s => .ok { st with stack := s, c4 := d }
  | .GETGLOB k, s => .ok { st with stack := st.globals k :: s }
  | .SETGLOB k, x :: s => .ok { st with stack := s, globals := Function.update st.globals k x }
  | .CTOS, .dictCell d :: s => .ok { st with stack := .dictSlice d :: s }
  | .PLDDICT, .dictSlice d :: s => .ok { st with stack := .dict d :: s }
  | .LDIX, .int width :: .slice p :: s =>
    if 0 ≤ width then ((p.ldi width.toNat).mapError .machine).map fun r =>
      { st with stack := .slice r.2 :: .int r.1 :: s }
    else .error (.machine .rangeCheck)
  | .ENDS, .slice p :: s => ((p.ends).mapError .machine).map fun _ => { st with stack := s }
  | .NEWC, s => .ok { st with stack := .builder .empty :: s }
  | .STIX, .int width :: .builder b :: .int n :: s =>
    if 0 ≤ width then ((b.sti n width.toNat).mapError .machine).map fun b' =>
      { st with stack := .builder b' :: s }
    else .error (.machine .rangeCheck)
  | .STDICT, .builder b :: .dict d :: s =>
    if b.bits = [] ∧ b.refs = [] then .ok { st with stack := .dictBuilder d :: s }
    else .error .stuck
  | .ENDC, .dictBuilder d :: s => .ok { st with stack := .dictCell d :: s }
  | .DICTIGET, .int width :: .dict d :: .int key :: s =>
    .ok { st with stack := found (if FitsSigned key width.toNat then d.lookup key else none) ++ s }
  | .DICTISETB, .int width :: .dict d :: .int key :: .builder b :: s =>
    if FitsSigned key width.toNat then .ok { st with stack := .dict (d.insert key b) :: s }
    else .error (.machine .rangeCheck)
  | _, _ => .error .badStack

/-- Code up to its end or to `RET`. -/
def runCode : List Instr → State → Except Stop State
  | [], st => .ok st
  | .RET :: _, st => .ok st
  | i :: is, st => (step enter routine i st).bind (runCode is)

end Exec

/-- Code, with what it enters `depth` levels deep. -/
def exec (routine : Routine → List Instr) : ℕ → List Instr → State → Except Stop State
  | 0 => fun _ _ => .error .stuck
  | depth + 1 => runCode (exec routine depth) routine

/-! ## The instructions, one by one -/

section Instructions

variable (enter : List Instr → State → Except Stop State) (routine : Routine → List Instr)
variable (is : List Instr) (s : List Val) (c4 : Words) (g : ℕ → Val)

@[simp] theorem runCode_nil (st : State) : runCode enter routine [] st = .ok st := rfl

@[simp] theorem runCode_RET (st : State) : runCode enter routine (.RET :: is) st = .ok st := rfl

@[simp] theorem runCode_DUP (x : Val) : runCode enter routine (.DUP :: is) ⟨x :: s, c4, g⟩ =
    runCode enter routine is ⟨x :: x :: s, c4, g⟩ := rfl

@[simp] theorem runCode_DUP2 (x y : Val) :
    runCode enter routine (.DUP2 :: is) ⟨x :: y :: s, c4, g⟩ =
      runCode enter routine is ⟨x :: y :: x :: y :: s, c4, g⟩ := rfl

@[simp] theorem runCode_DROP2 (x y : Val) :
    runCode enter routine (.DROP2 :: is) ⟨x :: y :: s, c4, g⟩ =
      runCode enter routine is ⟨s, c4, g⟩ := rfl

@[simp] theorem runCode_SWAP (x y : Val) :
    runCode enter routine (.SWAP :: is) ⟨x :: y :: s, c4, g⟩ =
      runCode enter routine is ⟨y :: x :: s, c4, g⟩ := rfl

theorem runCode_PUSH {i : ℕ} {x : Val} (h : s[i]? = some x) :
    runCode enter routine (.PUSH i :: is) ⟨s, c4, g⟩ =
      runCode enter routine is ⟨x :: s, c4, g⟩ := by
  show (s[i]?.elim _ _ : Except Stop State).bind _ = _
  rw [h]
  rfl

theorem runCode_PUSHINT {n : ℤ} (h : FitsSigned n 257) :
    runCode enter routine (.PUSHINT n :: is) ⟨s, c4, g⟩ =
      runCode enter routine is ⟨.int n :: s, c4, g⟩ := by
  show (pushInt n s _).bind _ = _
  rw [pushInt, if_pos h]
  rfl

theorem runCode_INC {n : ℤ} (h : FitsSigned (n + 1) 257) :
    runCode enter routine (.INC :: is) ⟨.int n :: s, c4, g⟩ =
      runCode enter routine is ⟨.int (n + 1) :: s, c4, g⟩ := by
  show (pushInt (n + 1) s _).bind _ = _
  rw [pushInt, if_pos h]
  rfl

@[simp] theorem runCode_XCHG01 (x y : Val) :
    runCode enter routine (.XCHG 0 1 :: is) ⟨x :: y :: s, c4, g⟩ =
      runCode enter routine is ⟨y :: x :: s, c4, g⟩ := rfl

@[simp] theorem runCode_ROLLREV2 (x y z : Val) :
    runCode enter routine (.ROLLREV 2 :: is) ⟨x :: y :: z :: s, c4, g⟩ =
      runCode enter routine is ⟨y :: z :: x :: s, c4, g⟩ := by
  have hle : 2 ≤ (y :: z :: s).length := Nat.le_add_left _ _
  have hstep : step enter routine (.ROLLREV 2) ⟨x :: y :: z :: s, c4, g⟩ =
      .ok ⟨y :: z :: x :: s, c4, g⟩ := if_pos (e := .error .badStack) hle
  show (step enter routine _ _).bind _ = _
  rw [hstep]
  rfl

@[simp] theorem runCode_LESS (x y : ℤ) :
    runCode enter routine (.LESS :: is) ⟨.int y :: .int x :: s, c4, g⟩ =
      runCode enter routine is ⟨.int (ofBool (x < y)) :: s, c4, g⟩ := rfl

@[simp] theorem runCode_PUSHCONT (code : List Instr) :
    runCode enter routine (.PUSHCONT code :: is) ⟨s, c4, g⟩ =
      runCode enter routine is ⟨.cont code :: s, c4, g⟩ := rfl

/-- The first continuation is entered if the condition holds. -/
theorem runCode_IFELSE (yes no : List Instr) (p : Prop) [Decidable p] :
    runCode enter routine (.IFELSE :: is) ⟨.cont no :: .cont yes :: .int (ofBool p) :: s, c4, g⟩ =
      (enter (if p then yes else no) ⟨s, c4, g⟩).bind (runCode enter routine is) := by
  by_cases h : p
  · rw [if_pos h, ofBool, decide_eq_true h]
    rfl
  · rw [if_neg h, ofBool, decide_eq_false h]
    rfl

theorem runCode_REPEAT (body : List Instr) {n : ℤ} (h : FitsSigned n 32) :
    runCode enter routine (.REPEAT :: is) ⟨.cont body :: .int n :: s, c4, g⟩ =
      (iterate (enter body) n.toNat ⟨s, c4, g⟩).bind (runCode enter routine is) := by
  show (if FitsSigned n 32 then _ else _ : Except Stop State).bind _ = _
  rw [if_pos h]

/-- More rounds than 32 bits count are refused. -/
theorem runCode_REPEAT_rangeCheck (body : List Instr) {n : ℤ} (h : ¬FitsSigned n 32) :
    runCode enter routine (.REPEAT :: is) ⟨.cont body :: .int n :: s, c4, g⟩ =
      .error (.machine .rangeCheck) := by
  show (if FitsSigned n 32 then _ else _ : Except Stop State).bind _ = _
  rw [if_neg h]
  rfl

@[simp] theorem runCode_CALL (r : Routine) (st : State) :
    runCode enter routine (.CALL r :: is) st =
      (enter (routine r) st).bind (runCode enter routine is) := rfl

@[simp] theorem runCode_THROWIFNOT_true (code : ℕ) :
    runCode enter routine (.THROWIFNOT code :: is) ⟨.int (ofBool true) :: s, c4, g⟩ =
      runCode enter routine is ⟨s, c4, g⟩ := rfl

@[simp] theorem runCode_THROWIFNOT_false (code : ℕ) :
    runCode enter routine (.THROWIFNOT code :: is) ⟨.int (ofBool false) :: s, c4, g⟩ =
      .error (.thrown code) := rfl

@[simp] theorem runCode_PUSH_C4 : runCode enter routine (.PUSH_C4 :: is) ⟨s, c4, g⟩ =
    runCode enter routine is ⟨.dictCell c4 :: s, c4, g⟩ := rfl

@[simp] theorem runCode_POP_C4 (d : Words) :
    runCode enter routine (.POP_C4 :: is) ⟨.dictCell d :: s, c4, g⟩ =
      runCode enter routine is ⟨s, d, g⟩ := rfl

@[simp] theorem runCode_GETGLOB (k : ℕ) : runCode enter routine (.GETGLOB k :: is) ⟨s, c4, g⟩ =
    runCode enter routine is ⟨g k :: s, c4, g⟩ := rfl

@[simp] theorem runCode_SETGLOB (k : ℕ) (x : Val) :
    runCode enter routine (.SETGLOB k :: is) ⟨x :: s, c4, g⟩ =
      runCode enter routine is ⟨s, c4, Function.update g k x⟩ := rfl

@[simp] theorem runCode_CTOS (d : Words) :
    runCode enter routine (.CTOS :: is) ⟨.dictCell d :: s, c4, g⟩ =
      runCode enter routine is ⟨.dictSlice d :: s, c4, g⟩ := rfl

@[simp] theorem runCode_PLDDICT (d : Words) :
    runCode enter routine (.PLDDICT :: is) ⟨.dictSlice d :: s, c4, g⟩ =
      runCode enter routine is ⟨.dict d :: s, c4, g⟩ := rfl

@[simp] theorem runCode_NEWC : runCode enter routine (.NEWC :: is) ⟨s, c4, g⟩ =
    runCode enter routine is ⟨.builder .empty :: s, c4, g⟩ := rfl

@[simp] theorem runCode_STDICT (d : Words) :
    runCode enter routine (.STDICT :: is) ⟨.builder .empty :: .dict d :: s, c4, g⟩ =
      runCode enter routine is ⟨.dictBuilder d :: s, c4, g⟩ := rfl

@[simp] theorem runCode_ENDC (d : Words) :
    runCode enter routine (.ENDC :: is) ⟨.dictBuilder d :: s, c4, g⟩ =
      runCode enter routine is ⟨.dictCell d :: s, c4, g⟩ := rfl

theorem runCode_STIX {n : ℤ} {width : ℕ} {b b' : Builder} (h : b.sti n width = .ok b') :
    runCode enter routine (.STIX :: is) ⟨.int width :: .builder b :: .int n :: s, c4, g⟩ =
      runCode enter routine is ⟨.builder b' :: s, c4, g⟩ := by
  have hstep : step enter routine .STIX ⟨.int width :: .builder b :: .int n :: s, c4, g⟩ =
      ((b.sti n width).mapError .machine).map fun b' => ⟨.builder b' :: s, c4, g⟩ :=
    if_pos (e := .error (.machine .rangeCheck)) (Int.natCast_nonneg width)
  show (step enter routine _ _).bind _ = _
  rw [hstep, h]
  rfl

theorem runCode_DICTISETB {key : ℤ} {width : ℕ} (h : FitsSigned key width) (d : Words)
    (b : Builder) :
    runCode enter routine (.DICTISETB :: is)
        ⟨.int width :: .dict d :: .int key :: .builder b :: s, c4, g⟩ =
      runCode enter routine is ⟨.dict (d.insert key b) :: s, c4, g⟩ := by
  have hstep : step enter routine .DICTISETB
      ⟨.int width :: .dict d :: .int key :: .builder b :: s, c4, g⟩ =
        if FitsSigned key width then .ok ⟨.dict (d.insert key b) :: s, c4, g⟩
        else .error (.machine .rangeCheck) := rfl
  show (step enter routine _ _).bind _ = _
  rw [hstep, if_pos h]
  rfl

/-- What is found under a key, if the key fits its width. -/
theorem runCode_DICTIGET (key : ℤ) (width : ℕ) (d : Words) :
    runCode enter routine (.DICTIGET :: is) ⟨.int width :: .dict d :: .int key :: s, c4, g⟩ =
      runCode enter routine is
        ⟨found (if FitsSigned key width then d.lookup key else none) ++ s, c4, g⟩ := rfl

theorem runCode_DICTIGET_some {key : ℤ} {width : ℕ} {d : Words} {p : Slice}
    (h : (if FitsSigned key width then d.lookup key else none) = some p) :
    runCode enter routine (.DICTIGET :: is) ⟨.int width :: .dict d :: .int key :: s, c4, g⟩ =
      runCode enter routine is ⟨.int (ofBool true) :: .slice p :: s, c4, g⟩ := by
  rw [runCode_DICTIGET, h]
  rfl

theorem runCode_DICTIGET_none {key : ℤ} {width : ℕ} {d : Words}
    (h : (if FitsSigned key width then d.lookup key else none) = none) :
    runCode enter routine (.DICTIGET :: is) ⟨.int width :: .dict d :: .int key :: s, c4, g⟩ =
      runCode enter routine is ⟨.int (ofBool false) :: s, c4, g⟩ := by
  rw [runCode_DICTIGET, h]
  rfl

theorem runCode_LDIX (p : Slice) (width : ℕ) :
    runCode enter routine (.LDIX :: is) ⟨.int width :: .slice p :: s, c4, g⟩ =
      ((p.ldi width).mapError .machine).bind fun r =>
        runCode enter routine is ⟨.slice r.2 :: .int r.1 :: s, c4, g⟩ := by
  have hstep : step enter routine .LDIX ⟨.int width :: .slice p :: s, c4, g⟩ =
      ((p.ldi width).mapError .machine).map fun r => ⟨.slice r.2 :: .int r.1 :: s, c4, g⟩ :=
    if_pos (e := .error (.machine .rangeCheck)) (Int.natCast_nonneg width)
  show (step enter routine _ _).bind _ = _
  rw [hstep]
  cases p.ldi width with
  | ok r => rfl
  | error e => rfl

theorem runCode_ENDS (p : Slice) :
    runCode enter routine (.ENDS :: is) ⟨.slice p :: s, c4, g⟩ =
      (p.ends.mapError .machine).bind fun _ => runCode enter routine is ⟨s, c4, g⟩ := by
  show ((p.ends.mapError _).map _).bind _ = _
  cases p.ends with
  | ok r => rfl
  | error e => rfl

/-- Code in two parts, the first of which does not return. -/
theorem runCode_append {is : List Instr} (h : .RET ∉ is) (js : List Instr) (st : State) :
    runCode enter routine (is ++ js) st =
      (runCode enter routine is st).bind (runCode enter routine js) := by
  induction is generalizing st with
  | nil => rfl
  | cons i is ih =>
    have hi : .RET ≠ i := List.ne_of_not_mem_cons h
    have his : .RET ∉ is := List.not_mem_of_not_mem_cons h
    have hcons (js : List Instr) : runCode enter routine (i :: js) st =
        (step enter routine i st).bind (runCode enter routine js) := by
      cases i with
      | RET => exact absurd rfl hi
      | _ => rfl
    rw [List.cons_append, hcons, hcons]
    cases step enter routine i st with
    | ok st' => exact ih his st'
    | error e => rfl

end Instructions

end TVMCompiler.CSdk
