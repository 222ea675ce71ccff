import Mathlib.Algebra.Group.Nat.Defs
import Mathlib.Data.List.Nodup
import Mathlib.Logic.Function.Basic

/-!
# The persistent data header

The persistent data of a contract start with a header: the state of its replay protection, and
the records of the coroutines that wait for an answer.

## Main definitions

* `answerIdField`, `AwaitingResponsesMap`: the answer id of a call, and the waiting coroutines
* `ReplayProtection`, `threaded`, `NeverTwice`: replay protections, and the messages one accepts
  while its state is threaded from one check to the next
* `PersistentHeader`, `Persistent`, `loadPersistentData`, `savePersistentData`: the header and the
  persistent data

## Main results

* `findsNewId_iff`: when the id found for a call is not in use
-/

namespace TVMCompiler.Sdk

/-- The error codes that the switch throws; `contract` is an exception of the contract's code. -/
inductive ErrorCode where
  | invalidSignature
  | wrongPublicCall
  | badIncomingMsg
  | unsupportedBouncedMsg
  | methodNotForDeploy
  | wrongAnswerId
  | unexpectedAnswer
  | replayAttackCheck
  | badArguments
  | constructorDoubleCall
  | methodCalledWithoutInit
  | noPubkey
  | cellUnderflow
  | contract (code : ℕ)
  deriving DecidableEq, Repr

/-! ## Waiting coroutines -/

/-- The id sent for the one in the global variable. A value of more than 32 bits stands for no
answer, and `answer_id` sets the highest bit of the others. -/
def answerIdField (answerId : ℕ) : ℕ := if answerId >>> 32 ≠ 0 then 0 else answerId ||| 2 ^ 31

structure AwaitingRecord (Address Frame : Type) where
  funcId : ℕ
  waitingAddr : Address
  returnAddr : Address
  frame : Frame

structure AwaitingResponsesMap (Address Frame : Type) where
  nextAnswerId : ℕ
  dict : ℕ → Option (AwaitingRecord Address Frame)

namespace AwaitingResponsesMap

variable {Address Frame : Type}

def empty : AwaitingResponsesMap Address Frame where
  nextAnswerId := 0
  dict := fun _ => none

/-- `find_next_answer_id` leaves the id it returns in `nextAnswerId`. The `continue` of its loop
`do … while (false)` ends the loop. -/
def findNextAnswerId (m : AwaitingResponsesMap Address Frame) :
    AwaitingResponsesMap Address Frame :=
  if (m.dict m.nextAnswerId).isSome then { m with nextAnswerId := (m.nextAnswerId + 1) % 2 ^ 31 }
  else m

def addAwaiting (m : AwaitingResponsesMap Address Frame) (execId : ℕ)
    (state : AwaitingRecord Address Frame) : AwaitingResponsesMap Address Frame :=
  { m with dict := Function.update m.dict execId (some state) }

def findAwaiting (m : AwaitingResponsesMap Address Frame) (execId : ℕ) :
    Except ErrorCode (AwaitingRecord Address Frame) :=
  match m.dict execId with
  | none => .error .unexpectedAnswer
  | some state => .ok state

def deleteAwaiting (m : AwaitingResponsesMap Address Frame) (execId : ℕ) :
    AwaitingResponsesMap Address Frame :=
  { m with dict := Function.update m.dict execId none }

variable {m : AwaitingResponsesMap Address Frame}

@[simp] theorem dict_empty (id : ℕ) : (empty : AwaitingResponsesMap Address Frame).dict id = none :=
  rfl

@[simp] theorem dict_findNextAnswerId : m.findNextAnswerId.dict = m.dict := by
  unfold findNextAnswerId
  split <;> rfl

theorem dict_addAwaiting (execId id : ℕ) (state : AwaitingRecord Address Frame) :
    (m.addAwaiting execId state).dict id = if id = execId then some state else m.dict id :=
  Function.update_apply ..

theorem dict_deleteAwaiting (execId id : ℕ) :
    (m.deleteAwaiting execId).dict id = if id = execId then none else m.dict id :=
  Function.update_apply ..

theorem findAwaiting_of_dict {execId : ℕ} {state : AwaitingRecord Address Frame}
    (h : m.dict execId = some state) : m.findAwaiting execId = .ok state := by
  rw [findAwaiting, h]

/-- The id that is found belongs to no waiting coroutine, so that recording one under it leaves the
others as they are. -/
structure FindsNewId (m : AwaitingResponsesMap Address Frame) : Prop where
  lt : m.findNextAnswerId.nextAnswerId < 2 ^ 31
  free : m.dict m.findNextAnswerId.nextAnswerId = none
  keeps : ∀ state id record, m.dict id = some record →
    (m.findNextAnswerId.addAwaiting m.findNextAnswerId.nextAnswerId state).dict id = some record

/-- A record under a free id leaves the others as they are. -/
theorem findsNewId_of_free (hlt : m.findNextAnswerId.nextAnswerId < 2 ^ 31)
    (hfree : m.dict m.findNextAnswerId.nextAnswerId = none) : m.FindsNewId := by
  refine ⟨hlt, hfree, fun state id record hid => ?_⟩
  rw [dict_addAwaiting, dict_findNextAnswerId]
  -- the id of a record is not the free one
  rw [if_neg fun heq => by rw [heq, hfree] at hid; cases hid]
  exact hid

/-- **The id that is found is new** if and only if the next id is free, or else the one behind it:
the search takes at most one step. -/
theorem findsNewId_iff (hnext : m.nextAnswerId < 2 ^ 31) : m.FindsNewId ↔
    m.dict m.nextAnswerId = none ∨ m.dict ((m.nextAnswerId + 1) % 2 ^ 31) = none := by
  by_cases hused : (m.dict m.nextAnswerId).isSome
  · -- the next id is in use, and the one behind it is returned in any case
    have hfind : m.findNextAnswerId.nextAnswerId = (m.nextAnswerId + 1) % 2 ^ 31 := by
      rw [findNextAnswerId, if_pos hused]
    constructor
    · intro h
      have hfree := h.free
      rw [hfind] at hfree
      exact Or.inr hfree
    · rintro (hfree | hfree)
      · rw [hfree] at hused
        cases hused
      · refine findsNewId_of_free ?_ ?_
        · rw [hfind]
          exact Nat.mod_lt _ (by decide)
        · rw [hfind]
          exact hfree
  · have hfree : m.dict m.nextAnswerId = none := by simpa using hused
    have hfind : m.findNextAnswerId = m := by rw [findNextAnswerId, if_neg hused]
    constructor
    · intro _
      exact Or.inl hfree
    · intro _
      refine findsNewId_of_free ?_ ?_
      · rw [hfind]
        exact hnext
      · rw [hfind]
        exact hfree

/-- Two coroutines wait, under the ids 0 and 1. -/
def twoWaiting : AwaitingResponsesMap ℕ Unit where
  nextAnswerId := 0
  dict := fun id =>
    if id < 2 then some { funcId := id, waitingAddr := 0, returnAddr := 0, frame := () } else none

theorem findsNewId_one :
    (AwaitingResponsesMap.mk 1 twoWaiting.dict).FindsNewId ↔
      twoWaiting.dict 1 = none ∨ twoWaiting.dict ((1 + 1) % 2 ^ 31) = none :=
  findsNewId_iff (m := .mk 1 twoWaiting.dict) (by decide)

/-- The search stops at the id 1, which is in use. -/
theorem not_findsNewId_twoWaiting : twoWaiting.nextAnswerId < 2 ^ 31 ∧
    (∃ ids : List ℕ, ids.length < 2 ^ 31 ∧ ∀ id, (twoWaiting.dict id).isSome → id ∈ ids) ∧
      ¬ twoWaiting.FindsNewId := by
  refine ⟨by decide, ⟨[0, 1], by decide, fun id hid => ?_⟩, fun h => ?_⟩
  · by_cases hlt : id < 2
    · rcases Nat.lt_succ_iff_lt_or_eq.mp hlt with h0 | rfl
      · rw [Nat.lt_one_iff.mp h0]
        exact List.mem_cons_self
      · exact List.mem_cons_of_mem _ List.mem_cons_self
    · have hnone : twoWaiting.dict id = none := if_neg hlt
      rw [hnone] at hid
      cases hid
  · have hfree := h.free
    cases hfree

end AwaitingResponsesMap

/-! ## Replay protections -/

/-- A replay protection: its initial state, a value-initialised state, and the check of a message
header at a time, which yields the next state. -/
structure ReplayProtection (Header Replay : Type) where
  init : Replay
  value : Replay
  check : ℕ → Header → Replay → Option Replay

section Threaded

variable {Header Replay : Type} (check : ℕ → Header → Replay → Option Replay)

/-- The headers accepted in a row of checks. An accepted one replaces the state, a refused one
keeps it. -/
def threaded : Replay → List (ℕ × Header) → List Header
  | _, [] => []
  | r, (now, h) :: calls =>
    match check now h r with
    | some r' => h :: threaded r' calls
    | none => threaded r calls

/-- No row of checks from the state `r` on accepts a header twice. -/
def NeverTwice (r : Replay) : Prop := ∀ calls, (threaded check r calls).Nodup

end Threaded

/-! ## Persistent data -/

structure PersistentHeader (Replay Address Frame : Type) where
  replay : Replay
  awaiting : AwaitingResponsesMap Address Frame

/-- The persistent data: the bit `uninitialized`, the header, and the fields of the contract. -/
structure Persistent (Data Replay Address Frame : Type) where
  uninitialized : Bool
  header : PersistentHeader Replay Address Frame
  data : Data

section Persistent

variable {Data Replay Address Frame Header : Type}

/-- A header as its declaration leaves it. -/
def PersistentHeader.declared (protection : ReplayProtection Header Replay) :
    PersistentHeader Replay Address Frame where
  replay := protection.value
  awaiting := .empty

/-- `persistent_data_header::init`: the initial state of the protection is set only in a header
with waiting coroutines. -/
def PersistentHeader.init (protection : ReplayProtection Header Replay) (hasAwaiting : Bool) :
    PersistentHeader Replay Address Frame where
  replay := if hasAwaiting then protection.init else protection.value
  awaiting := .empty

def loadPersistentData (state : Persistent Data Replay Address Frame) :
    Except ErrorCode (PersistentHeader Replay Address Frame × Data) :=
  if state.uninitialized then .error .methodCalledWithoutInit
  else .ok (state.header, state.data)

def savePersistentData (header : PersistentHeader Replay Address Frame) (data : Data) :
    Persistent Data Replay Address Frame where
  uninitialized := false
  header := header
  data := data

end Persistent

end TVMCompiler.Sdk
