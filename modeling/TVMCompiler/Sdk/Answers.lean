import TVMCompiler.Lib.Runs
import TVMCompiler.Sdk.SmartSwitch

/-!
# Answers and waiting coroutines

A request carries the answer id of the method that sends it, and its answer carries the id back.
A coroutine that waits for an answer is recorded under the id of its calls, with the address it
waits for, and an answer resumes the coroutine that is recorded under its id if the addresses
agree. A method that is no coroutine sends its requests under the id 0.

## Main definitions

* `Call`, `Activation`: what a method does until it ends or waits
* `requests`: the requests of an activation, with the id of its answers
* `System`, `Event`, `step`: a contract and its unanswered requests, while messages start methods
  and answers arrive
* `Event.Clear`: the calls of a step cannot be mistaken for calls that coroutines wait for

## Main results

* `Inv.step`: while every step is clear, only the call a coroutine waits for can resume it
* `resumed_right`: an answer resumes only the coroutine that waits for it
* `Inv.clear_of_step`: a step that is not clear lets an answer resume a wrong coroutine
-/

namespace TVMCompiler.Sdk

open Lib

/-! ## Activations -/

/-- A call of a method that expects an answer id. The answer comes from `answerer`; an awaitable
call makes it the address to wait for. -/
structure Call (Address : Type) where
  answerer : Address
  awaitable : Bool
  deriving DecidableEq, Repr

/-- A frame of a coroutine, and the number of the call on which it is suspended. -/
structure Suspended (Frame : Type) where
  call : ℕ
  frame : Frame
  deriving DecidableEq, Repr

inductive Outcome (Data Frame : Type) where
  | throws (code : ErrorCode)
  | done (data : Data)
  | waits (data : Data) (frame : Suspended Frame)
  deriving DecidableEq, Repr

/-- What a method does, from its start or its resumption on. -/
structure Activation (Data Address Frame : Type) where
  calls : List (Call Address)
  outcome : Outcome Data Frame
  deriving DecidableEq, Repr

/-- An unanswered request. Requests are numbered in the order in which they are sent. -/
structure Request (Address : Type) where
  serial : ℕ
  answerer : Address
  answerId : ℕ
  deriving DecidableEq, Repr

section Activation

variable {Data Address Frame Body : Type}

/-- The global `coroutine_wait_addr`: each awaitable call overwrites it. -/
def coroutineWaitAddr (calls : List (Call Address)) : Option Address :=
  ((calls.filter Call.awaitable).map Call.answerer).getLast?

/-- The requests to which an answer comes. -/
def requests (answerId serial : ℕ) (calls : List (Call Address)) : List (Request Address) :=
  if answerIdField answerId = 0 then []
  else (calls.zipIdx serial).map fun p =>
    { serial := p.2, answerer := p.1.answerer, answerId := answerIdField answerId }

/-- What the switch sees of an activation. -/
def Activation.result (act : Activation Data Address Frame) :
    Except ErrorCode (Data × Option (Address × Suspended Frame)) :=
  match act.outcome with
  | .throws code => .error code
  | .done data => .ok (data, none)
  | .waits data frame =>
    match coroutineWaitAddr act.calls with
    -- the global is no slice before the first awaitable call
    | none => .error (.contract 7)
    | some address => .ok (data, some (address, frame))

/-- The contract while a method of it does `act`. -/
def Contract.running (c : Contract Data Address (Suspended Frame) Body)
    (act : Activation Data Address Frame) : Contract Data Address (Suspended Frame) Body :=
  { c with
    call := fun _ _ _ _ => act.result
    resume := fun _ _ _ _ _ => act.result }

end Activation

/-! ## The system -/

/-- The persistent data of the contract, the number of calls so far, and the unanswered
requests. -/
structure System (Data Replay Address Frame : Type) where
  persistent : Persistent Data Replay Address (Suspended Frame)
  sent : ℕ
  outstanding : List (Request Address)

/-- A message starts the method `m`, or the answer to a request arrives. -/
inductive Event (Data Address Frame Body : Type) where
  | start (now : ℕ) (m : Method) (msg : Message Address Body) (checkedDeploy : Bool)
      (act : Activation Data Address Frame)
  | answer (serial : ℕ) (body : Body) (act : Activation Data Address Frame)

/-- The header and the data with which `execute` calls the method. -/
def calledWith {Data Replay Address Frame Body : Type} (i : Interface)
    (protection : ReplayProtection ExternalHeader Replay) (c : Contract Data Address Frame Body)
    (now : ℕ) (m : Method) (msg : Message Address Body) (checkedDeploy : Bool)
    (state : Persistent Data Replay Address Frame) :
    Except ErrorCode (PersistentHeader Replay Address Frame × Data) :=
  if checkedDeploy && !m.deploy then .error .methodNotForDeploy
  else do
    verifySignature i c m msg
    let (header, data) ← readPersistent i protection c m state
    let header ← protect i protection now m msg header
    return (header, data)

namespace Method

/-- The method saves the persistent data. -/
def writes (m : Method) : Bool := !m.noWritePersistent && !m.getter

variable {Address Frame : Type}

/-- The global `answer_id` while the method runs. -/
def answerId (m : Method) (awaiting : AwaitingResponsesMap Address Frame) : ℕ :=
  if m.coroutine then awaiting.findNextAnswerId.nextAnswerId else 0

/-- The waiting coroutines after the method, itself apart: `awaiting` if it is saved, else those
from before. -/
def leaves (m : Method) (awaiting before : AwaitingResponsesMap Address Frame) :
    AwaitingResponsesMap Address Frame :=
  if m.writes then (if m.coroutine then awaiting.findNextAnswerId else awaiting) else before

/-- The suspension that is saved. -/
def saves (m : Method) (status : Option (Address × Frame)) : Option (Address × Frame) :=
  if m.writes && m.coroutine then status else none

end Method

section System

variable {Data Replay Address Frame Body : Type}

namespace System

/-- The waiting coroutines. There are none before the deployment. -/
def awaiting (s : System Data Replay Address Frame) :
    AwaitingResponsesMap Address (Suspended Frame) :=
  if s.persistent.uninitialized then .empty else s.persistent.header.awaiting

/-- The contract is not deployed, and no request is unanswered. -/
def Undeployed (s : System Data Replay Address Frame) : Prop :=
  s.persistent.uninitialized = true ∧ s.outstanding = []

def send (s : System Data Replay Address Frame)
    (persistent : Persistent Data Replay Address (Suspended Frame)) (answerId : ℕ)
    (calls : List (Call Address)) : System Data Replay Address Frame where
  persistent := persistent
  sent := s.sent + calls.length
  outstanding := s.outstanding ++ requests answerId s.sent calls

/-- The request with the given number. -/
def request? (s : System Data Replay Address Frame) (serial : ℕ) : Option (Request Address) :=
  s.outstanding.find? fun r => r.serial == serial

/-- The request is answered. -/
def remove (s : System Data Replay Address Frame) (serial : ℕ) :
    System Data Replay Address Frame :=
  { s with outstanding := s.outstanding.filter fun r => r.serial != serial }

end System

/-- The id of the record that the answer to a request is looked up with. -/
def Request.awaitingId (r : Request Address) : ℕ := r.answerId ^^^ 2 ^ 31

/-- The waiting coroutines while the answer to a request is processed. -/
def answering (awaiting : AwaitingResponsesMap Address (Suspended Frame)) (r : Request Address) :
    AwaitingResponsesMap Address (Suspended Frame) :=
  (awaiting.deleteAwaiting r.awaitingId).findNextAnswerId

/-- The answer to a request. -/
def answerMessage (r : Request Address) (body : Body) : InternalMessage Address Body where
  hasInit := false
  bounced := false
  sender := r.answerer
  empty := false
  functionId := some r.answerId
  body := body

variable [DecidableEq Address]

/-- The record of the coroutine that the answer to a request resumes. -/
def System.resumed (i : Interface) (s : System Data Replay Address Frame) (r : Request Address) :
    Option (AwaitingRecord Address (Suspended Frame)) :=
  (s.awaiting.dict r.awaitingId).filter fun record =>
    record.waitingAddr = r.answerer ∧ (i.dispatchAnswer record.funcId).isSome

variable (i : Interface) (protection : ReplayProtection ExternalHeader Replay)
variable (c : Contract Data Address (Suspended Frame) Body)

/-- A failing message changes no state and sends no request, but an answer comes only once. -/
def step : Event Data Address Frame Body → System Data Replay Address Frame →
    System Data Replay Address Frame
  | .start now m msg checkedDeploy act, s =>
    match calledWith i protection c now m msg checkedDeploy s.persistent,
      execute i protection (c.running act) now m msg checkedDeploy s.persistent with
    | .ok (header, _), .ok persistent => s.send persistent (m.answerId header.awaiting) act.calls
    | _, _ => s
  | .answer serial body act, s =>
    match s.request? serial with
    | none => s
    | some r =>
      match processAnswer i (c.running act) (answerMessage r body) r.answerId s.persistent with
      | .ok persistent =>
        (s.remove serial).send persistent (answering s.awaiting r).nextAnswerId act.calls
      | .error _ => s.remove serial

/-- The number of the call on which the coroutine that the event resumes is suspended. -/
def Event.resumes :
    Event Data Address Frame Body → System Data Replay Address Frame → Option ℕ
  | .start .., _ => none
  | .answer serial .., s => (s.request? serial).bind fun r =>
      (s.resumed i r).map fun record => record.frame.call

/-- `find_next_answer_id` returns an unused id. -/
def Event.Unused : Event Data Address Frame Body → System Data Replay Address Frame → Prop
  | .start now m msg checkedDeploy _, s => m.coroutine = true →
    ∀ p ∈ (calledWith i protection c now m msg checkedDeploy s.persistent).toOption,
      (p.1.awaiting.dict (m.answerId p.1.awaiting)).isNone = true
  | .answer serial _ _, s => ∀ r ∈ s.request? serial, ∀ _ ∈ s.resumed i r,
      ((answering s.awaiting r).dict (answering s.awaiting r).nextAnswerId).isNone = true

/-- The calls of an activation cannot be mistaken for calls that coroutines wait for. -/
structure ClearCalls (awaiting : AwaitingResponsesMap Address (Suspended Frame))
    (outstanding : List (Request Address)) (answerId serial : ℕ) (calls : List (Call Address))
    (status : Option (Address × Suspended Frame)) : Prop where
  /-- No coroutine waits under the id for the address of a call. -/
  avoids : ∀ record ∈ awaiting.dict answerId, ∀ call ∈ calls, call.answerer ≠ record.waitingAddr
  /-- A coroutine that waits calls the address only once, and waits for this call. -/
  single : ∀ p ∈ status, ∀ r ∈ requests answerId serial calls, r.answerer = p.1 →
    r.serial = p.2.call
  /-- No earlier request to the address carries the same id. -/
  fresh : ∀ p ∈ status, ∀ r ∈ outstanding, r.answerId = answerIdField answerId →
    r.answerer ≠ p.1

instance (awaiting : AwaitingResponsesMap Address (Suspended Frame))
    (outstanding : List (Request Address)) (answerId serial : ℕ) (calls : List (Call Address))
    (status : Option (Address × Suspended Frame)) :
    Decidable (ClearCalls awaiting outstanding answerId serial calls status) :=
  decidable_of_iff (_ ∧ _ ∧ _)
    ⟨fun h => ⟨h.1, h.2.1, h.2.2⟩, fun h => ⟨h.avoids, h.single, h.fresh⟩⟩

def Event.Clear : Event Data Address Frame Body → System Data Replay Address Frame → Prop
  | .start now m msg checkedDeploy act, s =>
    ∀ p ∈ (calledWith i protection c now m msg checkedDeploy s.persistent).toOption,
      ∀ q ∈ act.result.toOption,
        ClearCalls (m.leaves p.1.awaiting s.awaiting) s.outstanding (m.answerId p.1.awaiting) s.sent
          act.calls (m.saves q.2)
  | .answer serial _ act, s =>
    ∀ r ∈ s.request? serial, ∀ _ ∈ s.resumed i r, ∀ q ∈ act.result.toOption,
      ClearCalls (answering s.awaiting r) (s.remove serial).outstanding
        (answering s.awaiting r).nextAnswerId s.sent act.calls q.2

end System

/-! ## Answer ids -/

section AnswerIds

variable {n : ℕ} (hn : n < 2 ^ 31)

include hn

theorem testBit_answerIdField (k : ℕ) :
    (answerIdField n).testBit k = (n.testBit k || decide (31 = k)) := by
  have hsmall : n >>> 32 = 0 := Nat.shiftRight_eq_zero n 32 (by omega)
  rw [answerIdField, if_neg (not_not_intro hsmall), Nat.testBit_or, Nat.testBit_two_pow]

theorem answerIdField_ne_zero : answerIdField n ≠ 0 := by
  intro hzero
  have hbit := testBit_answerIdField hn 31
  rw [hzero, Nat.zero_testBit] at hbit
  simp at hbit

theorem answerIdField_xor : answerIdField n ^^^ 2 ^ 31 = n := by
  apply Nat.eq_of_testBit_eq
  intro k
  rw [Nat.testBit_xor, testBit_answerIdField hn, Nat.testBit_two_pow]
  by_cases hk : 31 = k
  · subst hk
    rw [Nat.testBit_lt_two_pow hn]
    rfl
  · simp [hk]

end AnswerIds

/-! ## The requests of an activation -/

section Requests

variable {Data Address Frame : Type}

theorem mem_requests {answerId serial : ℕ} {calls : List (Call Address)} {r : Request Address}
    (hid : answerId < 2 ^ 31) : r ∈ requests answerId serial calls ↔
      ∃ k : ℕ, ∃ call : Call Address, calls[k]? = some call ∧
        r = ⟨serial + k, call.answerer, answerIdField answerId⟩ := by
  rw [requests, if_neg (answerIdField_ne_zero hid), List.mem_map]
  constructor
  · rintro ⟨⟨call, n⟩, hmem, rfl⟩
    obtain ⟨hle, hcall⟩ := List.mk_mem_zipIdx_iff_le_and_getElem?_sub.mp hmem
    exact ⟨n - serial, call, hcall, by rw [Nat.add_sub_cancel' hle]⟩
  · rintro ⟨k, call, hcall, rfl⟩
    refine ⟨(call, serial + k), ?_, rfl⟩
    rw [List.mk_mem_zipIdx_iff_le_and_getElem?_sub, Nat.add_sub_cancel_left]
    exact ⟨Nat.le_add_right _ _, hcall⟩

theorem mem_requests_of_getElem? {answerId k : ℕ} {calls : List (Call Address)}
    {call : Call Address} (hid : answerId < 2 ^ 31) (hk : calls[k]? = some call) (serial : ℕ) :
    ⟨serial + k, call.answerer, answerIdField answerId⟩ ∈ requests answerId serial calls :=
  (mem_requests hid).mpr ⟨k, call, hk, rfl⟩

theorem serial_le_of_mem_requests {answerId serial : ℕ} {calls : List (Call Address)}
    {r : Request Address} (h : r ∈ requests answerId serial calls) : serial ≤ r.serial := by
  unfold requests at h
  split at h
  · cases h
  · obtain ⟨⟨call, n⟩, hmem, rfl⟩ := List.mem_map.mp h
    exact (List.mk_mem_zipIdx_iff_le_and_getElem?_sub.mp hmem).1

/-- The address to wait for is the address of a call. -/
theorem exists_call_of_waits {act : Activation Data Address Frame} {data : Data}
    {p : Address × Suspended Frame} (h : act.result = .ok (data, some p)) :
    ∃ k : ℕ, ∃ call : Call Address, act.calls[k]? = some call ∧ call.answerer = p.1 := by
  unfold Activation.result at h
  split at h
  · cases h
  · cases h
  split at h
  · cases h
  rename_i address hwait
  cases h
  obtain ⟨call, hcall, rfl⟩ := List.mem_map.mp (List.mem_of_getLast? hwait)
  obtain ⟨k, hk⟩ := List.mem_iff_getElem?.mp (List.mem_of_mem_filter hcall)
  exact ⟨k, call, hk, rfl⟩

end Requests

/-! ## The invariant -/

section Invariant

variable {Address Frame : Type} (awaiting : AwaitingResponsesMap Address (Suspended Frame))
variable (outstanding : List (Request Address))

/-- Of the unanswered requests, only the call a coroutine waits for carries the id and goes to
the address of its record. -/
def OnlyAwaited : Prop :=
  ∀ id, ∀ record ∈ awaiting.dict id, ∀ r ∈ outstanding, r.answerId = answerIdField id →
    r.answerer = record.waitingAddr → r.serial = record.frame.call

structure Attributed (sent : ℕ) : Prop where
  next_lt : awaiting.nextAnswerId < 2 ^ 31
  id_lt : ∀ id, ∀ record ∈ awaiting.dict id, id < 2 ^ 31
  call_lt : ∀ id, ∀ record ∈ awaiting.dict id, record.frame.call < sent
  serial_lt : ∀ r ∈ outstanding, r.serial < sent
  carries : ∀ r ∈ outstanding, ∃ id < 2 ^ 31, r.answerId = answerIdField id
  onlyAwaited : OnlyAwaited awaiting outstanding

end Invariant

namespace Attributed

variable {Address Frame : Type} {awaiting : AwaitingResponsesMap Address (Suspended Frame)}
variable {outstanding : List (Request Address)} {sent : ℕ}

/-- Records may be dropped and requests may be answered. -/
theorem mono {awaiting' : AwaitingResponsesMap Address (Suspended Frame)}
    {outstanding' : List (Request Address)} (h : Attributed awaiting outstanding sent)
    (hnext : awaiting'.nextAnswerId < 2 ^ 31)
    (hdict : ∀ id, ∀ record ∈ awaiting'.dict id, record ∈ awaiting.dict id)
    (hsub : outstanding' ⊆ outstanding) : Attributed awaiting' outstanding' sent where
  next_lt := hnext
  id_lt := fun id record hrecord => h.id_lt id record (hdict id record hrecord)
  call_lt := fun id record hrecord => h.call_lt id record (hdict id record hrecord)
  serial_lt := fun r hr => h.serial_lt r (hsub hr)
  carries := fun r hr => h.carries r (hsub hr)
  onlyAwaited := fun id record hrecord r hr =>
    h.onlyAwaited id record (hdict id record hrecord) r (hsub hr)

theorem empty (h : Attributed awaiting outstanding sent) :
    Attributed (.empty : AwaitingResponsesMap Address (Suspended Frame)) outstanding sent :=
  h.mono (Nat.two_pow_pos 31) (fun id record hrecord => by simp at hrecord) (List.Subset.refl _)

theorem findNextAnswerId (h : Attributed awaiting outstanding sent) :
    Attributed awaiting.findNextAnswerId outstanding sent := by
  unfold AwaitingResponsesMap.findNextAnswerId
  split
  · exact h.mono (Nat.mod_lt _ (Nat.two_pow_pos 31)) (fun _ _ hrecord => hrecord)
      (List.Subset.refl _)
  · exact h

theorem deleteAwaiting (h : Attributed awaiting outstanding sent) (execId : ℕ) :
    Attributed (awaiting.deleteAwaiting execId) outstanding sent := by
  refine h.mono h.next_lt (fun id record hrecord => ?_) (List.Subset.refl _)
  rw [AwaitingResponsesMap.dict_deleteAwaiting] at hrecord
  split at hrecord
  · cases hrecord
  · exact hrecord

/-- Requests that no waiting coroutine can take for its own. -/
theorem append {answerId : ℕ} {calls : List (Call Address)}
    (h : Attributed awaiting outstanding sent) (hid : answerId < 2 ^ 31)
    (havoids : ∀ record ∈ awaiting.dict answerId, ∀ call ∈ calls,
      call.answerer ≠ record.waitingAddr) :
    Attributed awaiting (outstanding ++ requests answerId sent calls) (sent + calls.length) where
  next_lt := h.next_lt
  id_lt := h.id_lt
  call_lt := fun id record hrecord => Nat.lt_add_right _ (h.call_lt id record hrecord)
  serial_lt := by
    intro r hr
    rcases List.mem_append.mp hr with hr | hr
    · exact Nat.lt_add_right _ (h.serial_lt r hr)
    · obtain ⟨k, call, hcall, rfl⟩ := (mem_requests hid).mp hr
      exact Nat.add_lt_add_left (List.getElem?_eq_some_iff.mp hcall).1 sent
  carries := by
    intro r hr
    rcases List.mem_append.mp hr with hr | hr
    · exact h.carries r hr
    · obtain ⟨k, call, -, rfl⟩ := (mem_requests hid).mp hr
      exact ⟨answerId, hid, rfl⟩
  onlyAwaited := by
    intro id record hrecord r hr hcarries haddr
    rcases List.mem_append.mp hr with hr | hr
    · exact h.onlyAwaited id record hrecord r hr hcarries haddr
    · obtain ⟨k, call, hcall, rfl⟩ := (mem_requests hid).mp hr
      -- the record is under the id of the activation
      obtain rfl : answerId = id := by
        rw [← answerIdField_xor hid, ← answerIdField_xor (h.id_lt id record hrecord)]
        exact congrArg (· ^^^ 2 ^ 31) hcarries
      exact absurd haddr (havoids record hrecord call (List.mem_of_getElem? hcall))

theorem dict_recordCoroutine {m : Method} {returnAddr : Address} {p : Address × Suspended Frame}
    (id : ℕ) : (recordCoroutine awaiting m returnAddr (some p)).dict id =
      if id = awaiting.nextAnswerId then
        some { funcId := m.id, waitingAddr := p.1, returnAddr := returnAddr, frame := p.2 }
      else awaiting.dict id :=
  AwaitingResponsesMap.dict_addAwaiting _ _ _

/-- A coroutine that waits is recorded under the id of its calls. -/
theorem record {answerId : ℕ} {calls : List (Call Address)}
    {status : Option (Address × Suspended Frame)} {m : Method} {returnAddr : Address}
    (h : Attributed awaiting outstanding sent) (hid : answerId < 2 ^ 31)
    (hclear : ClearCalls awaiting outstanding answerId sent calls status)
    (hnext : ∀ p ∈ status, awaiting.nextAnswerId = answerId ∧
      ∃ k : ℕ, ∃ call : Call Address, calls[k]? = some call ∧ call.answerer = p.1) :
    Attributed (recordCoroutine awaiting m returnAddr status)
      (outstanding ++ requests answerId sent calls) (sent + calls.length) := by
  have happend := h.append hid hclear.avoids
  cases status with
  | none => exact happend
  | some p =>
    obtain ⟨hnext, k, call, hcall, haddr⟩ := hnext p rfl
    have hown := hclear.single p rfl _ (mem_requests_of_getElem? hid hcall sent) haddr
    refine ⟨h.next_lt, ?_, ?_, happend.serial_lt, happend.carries, ?_⟩
    all_goals
      intro id record hrecord
      rw [dict_recordCoroutine, hnext] at hrecord
      split at hrecord
    · rename_i heq
      exact heq ▸ hid
    · exact h.id_lt id record hrecord
    · cases hrecord
      exact hown ▸ Nat.add_lt_add_left (List.getElem?_eq_some_iff.mp hcall).1 sent
    · exact happend.call_lt id record hrecord
    · -- the new record: no other request goes to its address under its id
      rename_i heq
      subst heq
      cases hrecord
      intro r hr hcarries haddr
      rcases List.mem_append.mp hr with hr | hr
      · exact absurd haddr (hclear.fresh p rfl r hr hcarries)
      · exact hclear.single p rfl r hr haddr
    · exact happend.onlyAwaited id record hrecord

/-- Calls that cannot be mistaken after the step are clear. -/
theorem clearCalls {answerId : ℕ} {calls : List (Call Address)}
    {status : Option (Address × Suspended Frame)} {m : Method} {returnAddr : Address}
    (h : Attributed awaiting outstanding sent) (hid : answerId < 2 ^ 31)
    (hnext : ∀ p ∈ status, awaiting.nextAnswerId = answerId ∧ awaiting.dict answerId = none ∧
      ∃ k : ℕ, ∃ call : Call Address, calls[k]? = some call ∧ call.answerer = p.1)
    (honly : OnlyAwaited (recordCoroutine awaiting m returnAddr status)
      (outstanding ++ requests answerId sent calls)) :
    ClearCalls awaiting outstanding answerId sent calls status := by
  cases status with
  | none =>
    refine ⟨fun record hrecord call hcall haddr => ?_, fun p hp => ?_, fun p hp => ?_⟩
    · obtain ⟨k, hk⟩ := List.mem_iff_getElem?.mp hcall
      have hserial := honly answerId record hrecord _
        (List.mem_append_right _ (mem_requests_of_getElem? hid hk sent)) rfl haddr
      have hlt := h.call_lt answerId record hrecord
      rw [← hserial] at hlt
      exact absurd hlt (Nat.not_lt_of_le (Nat.le_add_right sent k))
    · cases hp
    · cases hp
  | some p =>
    obtain ⟨hnext, hnone, k, call, hk, haddr⟩ := hnext p rfl
    have honly : ∀ r ∈ outstanding ++ requests answerId sent calls,
        r.answerId = answerIdField answerId → r.answerer = p.1 → r.serial = p.2.call := by
      intro r hr hcarries hanswerer
      refine honly answerId ⟨m.id, p.1, returnAddr, p.2⟩ ?_ r hr hcarries hanswerer
      rw [dict_recordCoroutine, if_pos hnext.symm]
      rfl
    have hown := honly _ (List.mem_append_right _ (mem_requests_of_getElem? hid hk sent)) rfl haddr
    refine ⟨fun record hrecord => ?_, ?_, ?_⟩
    · rw [hnone] at hrecord
      cases hrecord
    · intro q hq r hr hanswerer
      obtain rfl : p = q := Option.some.inj hq
      obtain ⟨k', call', hk', rfl⟩ := (mem_requests hid).mp hr
      exact honly _ (List.mem_append_right _ hr) rfl hanswerer
    · -- the activation's own call to the address is later than every earlier request
      intro q hq r hr hcarries hanswerer
      obtain rfl : p = q := Option.some.inj hq
      have hserial := honly r (List.mem_append_left _ hr) hcarries hanswerer
      have hlt := h.serial_lt r hr
      rw [hserial, ← hown] at hlt
      exact absurd hlt (Nat.not_lt_of_le (Nat.le_add_right sent k))

end Attributed

/-! ## What a step does -/

section Step

variable {Data Replay Address Frame Body : Type}
variable {i : Interface} {protection : ReplayProtection ExternalHeader Replay}

section CalledWith

variable {c : Contract Data Address Frame Body} {now : ℕ} {m : Method}
variable {msg : Message Address Body} {checkedDeploy : Bool} {data : Data}
variable {state : Persistent Data Replay Address Frame}
variable {header header' : PersistentHeader Replay Address Frame}

theorem readPersistent_awaiting (h : readPersistent i protection c m state = .ok (header, data)) :
    header.awaiting = .empty ∨ state.uninitialized = false ∧ header = state.header := by
  unfold readPersistent at h
  split at h
  · cases h
    exact Or.inl rfl
  split at h
  · split at h
    · cases h
      exact Or.inl rfl
    · cases h
  unfold loadPersistentData at h
  split at h
  · cases h
  · rename_i hinit
    cases h
    exact Or.inr ⟨Bool.eq_false_iff.mpr hinit, rfl⟩

theorem protect_awaiting (h : protect i protection now m msg header = .ok header') :
    header'.awaiting = .empty ∨ header'.awaiting = header.awaiting := by
  unfold protect at h
  split at h
  · cases h
    exact Or.inr rfl
  split at h
  · cases h
    exact Or.inl rfl
  cases msg with
  | internal e =>
    cases h
    exact Or.inr rfl
  | external e =>
    dsimp only at h
    split at h
    · cases h
    split at h
    · cases h
    · cases h
      exact Or.inr rfl

/-- A method is called with the coroutines that wait, or with none. -/
theorem calledWith_awaiting
    (h : calledWith i protection c now m msg checkedDeploy state = .ok (header, data)) :
    header.awaiting = .empty ∨
      state.uninitialized = false ∧ header.awaiting = state.header.awaiting := by
  unfold calledWith at h
  split at h
  · cases h
  obtain ⟨-, -, h⟩ := bind_eq_ok.mp h
  obtain ⟨⟨header₁, data₁⟩, hread, h⟩ := bind_eq_ok.mp h
  obtain ⟨header₂, hprotect, h⟩ := bind_eq_ok.mp h
  cases h
  rcases protect_awaiting hprotect with hempty | hsame
  · exact Or.inl hempty
  rcases readPersistent_awaiting hread with hempty | ⟨hinit, rfl⟩
  · exact Or.inl (hsame.trans hempty)
  · exact Or.inr ⟨hinit, hsame⟩

end CalledWith

variable {c : Contract Data Address (Suspended Frame) Body} {act : Activation Data Address Frame}
variable {now : ℕ} {m : Method} {msg : Message Address Body} {checkedDeploy : Bool}
variable {data : Data} {status : Option (Address × Suspended Frame)}
variable {s : System Data Replay Address Frame}
variable {header : PersistentHeader Replay Address (Suspended Frame)}

/-- The header after the call of a method. -/
def Method.called (m : Method) (msg : Message Address Body)
    (header : PersistentHeader Replay Address (Suspended Frame))
    (status : Option (Address × Suspended Frame)) :
    PersistentHeader Replay Address (Suspended Frame) :=
  if m.coroutine then
    { header with
      awaiting := recordCoroutine header.awaiting.findNextAnswerId m msg.sender status }
  else header

theorem invoke_running : invoke (c.running act) m msg header data =
    act.result.map fun q => (m.called msg header q.2, q.1) := by
  unfold invoke Method.called
  cases hresult : act.result with
  | error e => split <;> simp only [Contract.running, hresult] <;> rfl
  | ok q => split <;> simp only [Contract.running, hresult] <;> rfl

/-- `execute` is the call of the method between reading and writing the persistent data. -/
theorem execute_running (state : Persistent Data Replay Address (Suspended Frame)) :
    execute i protection (c.running act) now m msg checkedDeploy state =
      (calledWith i protection c now m msg checkedDeploy state).bind fun p =>
        act.result.map fun q => writePersistent m (m.called msg p.1 q.2) q.1 state := by
  unfold execute calledWith
  split
  · rfl
  show (verifySignature i c m msg).bind _ = ((verifySignature i c m msg).bind _).bind _
  cases verifySignature i c m msg with
  | error e => rfl
  | ok _ =>
    show (readPersistent i protection c m state).bind _ =
      ((readPersistent i protection c m state).bind _).bind _
    cases readPersistent i protection c m state with
    | error e => rfl
    | ok p =>
      show (protect i protection now m msg p.1).bind _ =
        ((protect i protection now m msg p.1).bind _).bind _
      cases protect i protection now m msg p.1 with
      | error e => rfl
      | ok header =>
        show (invoke (c.running act) m msg header p.2).bind _ = act.result.map _
        rw [invoke_running]
        cases act.result with
        | error e => rfl
        | ok q => rfl

theorem System.awaiting_of_init (h : s.persistent.uninitialized = false) :
    s.awaiting = s.persistent.header.awaiting := by
  rw [System.awaiting, h]
  rfl

theorem System.awaiting_of_uninit (h : s.persistent.uninitialized = true) :
    s.awaiting = .empty := by
  rw [System.awaiting, h]
  rfl

theorem awaiting_send_writePersistent (d : Data) (answerId : ℕ) (calls : List (Call Address)) :
    (s.send (writePersistent m (m.called msg header status) d s.persistent) answerId
      calls).awaiting =
      recordCoroutine (m.leaves header.awaiting s.awaiting) m msg.sender (m.saves status) := by
  have hwrite : writePersistent m (m.called msg header status) d s.persistent =
      if m.writes then savePersistentData (m.called msg header status) d else s.persistent := rfl
  unfold Method.leaves Method.saves
  rw [hwrite]
  cases m.writes with
  | false => rfl
  | true =>
    show (m.called msg header status).awaiting = _
    unfold Method.called
    cases m.coroutine with
    | false => rfl
    | true => rfl

section Start

variable [DecidableEq Address]

theorem step_start (d : Data)
    (hcalled : calledWith i protection c now m msg checkedDeploy s.persistent = .ok (header, data))
    (hresult : act.result = .ok (d, status)) :
    step i protection c (.start now m msg checkedDeploy act) s =
      s.send (writePersistent m (m.called msg header status) d s.persistent)
        (m.answerId header.awaiting) act.calls := by
  rw [step, execute_running, hcalled, hresult]
  rfl

theorem step_start_of_error
    (h : (∃ e, calledWith i protection c now m msg checkedDeploy s.persistent = .error e) ∨
      ∃ e, act.result = .error e) :
    step i protection c (.start now m msg checkedDeploy act) s = s := by
  rw [step, execute_running]
  rcases h with ⟨e, h⟩ | ⟨e, h⟩
  · rw [h]
  · rw [h]
    cases calledWith i protection c now m msg checkedDeploy s.persistent with
    | error e => rfl
    | ok p => rfl

end Start

section Answer

variable [DecidableEq Address] {r : Request Address} {body : Body} {serial : ℕ}
variable {record : AwaitingRecord Address (Suspended Frame)}

theorem System.resumed_eq_some : s.resumed i r = some record ↔
    s.awaiting.dict r.awaitingId = some record ∧ record.waitingAddr = r.answerer ∧
      (i.dispatchAnswer record.funcId).isSome = true := by
  rw [System.resumed, Option.filter_eq_some_iff, decide_eq_true_iff]

/-- An answer is processed if it resumes a coroutine that does not throw. -/
theorem processAnswer_running {state : Persistent Data Replay Address (Suspended Frame)} :
    processAnswer i (c.running act) (answerMessage r body) r.answerId s.persistent = .ok state ↔
      ∃ record m data status, s.resumed i r = some record ∧
        i.dispatchAnswer record.funcId = some m ∧ act.result = .ok (data, status) ∧
        state = savePersistentData
          { s.persistent.header with
            awaiting := recordCoroutine (answering s.awaiting r) m record.returnAddr status }
          data := by
  constructor
  · intro h
    obtain ⟨⟨header, data⟩, hload, h⟩ := bind_eq_ok.mp h
    unfold loadPersistentData at hload
    split at hload
    · cases hload
    rename_i hinit
    cases hload
    have hawaiting := System.awaiting_of_init (Bool.eq_false_iff.mpr hinit)
    obtain ⟨record, hfind, h⟩ := bind_eq_ok.mp h
    unfold AwaitingResponsesMap.findAwaiting at hfind
    split at hfind
    · cases hfind
    rename_i hdict
    cases hfind
    split at h
    · cases h
    rename_i hsender
    split at h
    · cases h
    rename_i m hdispatch
    obtain ⟨⟨data, status⟩, hresult, h⟩ := bind_eq_ok.mp h
    cases h
    refine ⟨record, m, data, status, System.resumed_eq_some.mpr ⟨?_, ?_, ?_⟩, hdispatch, hresult,
      ?_⟩
    · rw [hawaiting]
      exact hdict
    · exact (not_not.mp hsender).symm
    · rw [hdispatch]
      rfl
    · rw [hawaiting]
      rfl
  · rintro ⟨record, m, data, status, hresumed, hdispatch, hresult, rfl⟩
    obtain ⟨hdict, haddr, -⟩ := System.resumed_eq_some.mp hresumed
    cases hinit : s.persistent.uninitialized with
    | true =>
      rw [System.awaiting_of_uninit hinit] at hdict
      cases hdict
    | false =>
      rw [System.awaiting_of_init hinit] at hdict ⊢
      refine bind_eq_ok.mpr ⟨(s.persistent.header, s.persistent.data), ?_, ?_⟩
      · rw [loadPersistentData, if_neg (Bool.eq_false_iff.mp hinit)]
      refine bind_eq_ok.mpr ⟨record, AwaitingResponsesMap.findAwaiting_of_dict hdict, ?_⟩
      have hsender : ¬ (answerMessage r body).sender ≠ record.waitingAddr :=
        not_not_intro haddr.symm
      rw [if_neg hsender, hdispatch]
      exact bind_eq_ok.mpr ⟨(data, status), hresult, rfl⟩

theorem step_answer {d : Data} (hr : s.request? serial = some r)
    (hresumed : s.resumed i r = some record) (hresult : act.result = .ok (d, status)) :
    ∃ m, step i protection c (.answer serial body act) s =
      (s.remove serial).send (savePersistentData { s.persistent.header with
        awaiting := recordCoroutine (answering s.awaiting r) m record.returnAddr status } d)
        (answering s.awaiting r).nextAnswerId act.calls := by
  obtain ⟨m, hdispatch⟩ := Option.isSome_iff_exists.mp (System.resumed_eq_some.mp hresumed).2.2
  have hprocess : processAnswer i (c.running act) (answerMessage r body) r.answerId s.persistent =
      .ok (savePersistentData { s.persistent.header with
        awaiting := recordCoroutine (answering s.awaiting r) m record.returnAddr status } d) :=
    processAnswer_running.mpr ⟨record, m, d, status, hresumed, hdispatch, hresult, rfl⟩
  refine ⟨m, ?_⟩
  rw [step, hr]
  dsimp only
  rw [hprocess]

theorem step_answer_of_error (hr : s.request? serial = some r)
    (h : s.resumed i r = none ∨ ∃ e, act.result = .error e) :
    step i protection c (.answer serial body act) s = s.remove serial := by
  rw [step, hr]
  dsimp only
  cases hprocess : processAnswer i (c.running act) (answerMessage r body) r.answerId
      s.persistent with
  | error e => rfl
  | ok state =>
    obtain ⟨record, m, d, status, hresumed, -, hresult, -⟩ := processAnswer_running.mp hprocess
    rcases h with h | ⟨e, h⟩
    · rw [h] at hresumed
      cases hresumed
    · rw [h] at hresult
      cases hresult

end Answer

end Step

/-! ## Runs -/

section Runs

variable {Data Replay Address Frame Body : Type} [DecidableEq Address]
variable {i : Interface} {protection : ReplayProtection ExternalHeader Replay}
variable {c : Contract Data Address (Suspended Frame) Body}
variable {s : System Data Replay Address Frame} {e : Event Data Address Frame Body}

/-- Only the call a coroutine waits for can resume it. -/
def System.Attributed (s : System Data Replay Address Frame) : Prop :=
  Sdk.Attributed s.awaiting s.outstanding s.sent

omit [DecidableEq Address] in
theorem System.Undeployed.attributed (h : s.Undeployed) : s.Attributed := by
  obtain ⟨huninit, hnone⟩ := h
  unfold System.Attributed
  rw [System.awaiting_of_uninit huninit, hnone]
  constructor
  · exact Nat.two_pow_pos 31
  · intro id record hrecord
    simp at hrecord
  · intro id record hrecord
    simp at hrecord
  · exact List.forall_mem_nil _
  · exact List.forall_mem_nil _
  · intro id record hrecord
    simp at hrecord

omit [DecidableEq Address] in
theorem System.request?_eq_some {serial : ℕ} {r : Request Address}
    (h : s.request? serial = some r) : r ∈ s.outstanding ∧ r.serial = serial :=
  ⟨List.mem_of_find?_eq_some h, by simpa using List.find?_some h⟩

omit [DecidableEq Address] in
theorem System.Attributed.remove (h : s.Attributed) (serial : ℕ) : (s.remove serial).Attributed :=
  h.mono h.next_lt (fun _ _ hrecord => hrecord) (List.filter_subset_self _)

section Start

variable {now : ℕ} {m : Method} {msg : Message Address Body} {checkedDeploy : Bool}
variable {header : PersistentHeader Replay Address (Suspended Frame)} {data : Data}

omit [DecidableEq Address] in
theorem System.Attributed.calledWith (h : s.Attributed)
    (hcalled : calledWith i protection c now m msg checkedDeploy s.persistent =
      .ok (header, data)) :
    Sdk.Attributed header.awaiting s.outstanding s.sent := by
  rcases calledWith_awaiting hcalled with hempty | ⟨hinit, hsame⟩
  · rw [hempty]
    exact h.empty
  · rw [hsame, ← System.awaiting_of_init hinit]
    exact h

omit [DecidableEq Address] in
theorem System.Attributed.leaves (h : s.Attributed)
    (hheader : Sdk.Attributed header.awaiting s.outstanding s.sent) :
    Sdk.Attributed (m.leaves header.awaiting s.awaiting) s.outstanding s.sent := by
  unfold Method.leaves
  split
  · split
    · exact hheader.findNextAnswerId
    · exact hheader
  · exact h

omit [DecidableEq Address] in
theorem Attributed.answerId_lt (h : Attributed header.awaiting s.outstanding s.sent) :
    m.answerId header.awaiting < 2 ^ 31 := by
  unfold Method.answerId
  split
  · exact h.findNextAnswerId.next_lt
  · exact Nat.two_pow_pos 31

omit [DecidableEq Address] in
/-- Only a coroutine that saves the persistent data is recorded. -/
theorem Method.saves_eq_some {status : Option (Address × Suspended Frame)}
    {p : Address × Suspended Frame} (h : m.saves status = some p) :
    m.writes = true ∧ m.coroutine = true ∧ status = some p := by
  unfold Method.saves at h
  split at h
  · rename_i hsaves
    obtain ⟨hwrites, hcoroutine⟩ := Bool.and_eq_true_iff.mp hsaves
    exact ⟨hwrites, hcoroutine, h⟩
  · cases h

theorem System.Attributed.start {act : Activation Data Address Frame} (h : s.Attributed)
    (hclear : (Event.start now m msg checkedDeploy act).Clear i protection c s) :
    (step i protection c (.start now m msg checkedDeploy act) s).Attributed := by
  cases hcalled : Sdk.calledWith i protection c now m msg checkedDeploy s.persistent with
  | error e =>
    rw [step_start_of_error (Or.inl ⟨e, hcalled⟩)]
    exact h
  | ok p =>
  cases hresult : act.result with
  | error e =>
    rw [step_start_of_error (Or.inr ⟨e, hresult⟩)]
    exact h
  | ok q =>
  obtain ⟨header, data⟩ := p
  obtain ⟨d, status⟩ := q
  have hheader := h.calledWith hcalled
  have hclear : ClearCalls (m.leaves header.awaiting s.awaiting) s.outstanding
      (m.answerId header.awaiting) s.sent act.calls (m.saves status) :=
    hclear (header, data) (by rw [hcalled]; rfl) (d, status) (by rw [hresult]; rfl)
  rw [step_start d hcalled hresult]
  unfold System.Attributed
  rw [awaiting_send_writePersistent]
  refine (h.leaves hheader).record hheader.answerId_lt hclear fun p hp => ?_
  obtain ⟨hwrites, hcoroutine, rfl⟩ := Method.saves_eq_some hp
  rw [Method.leaves, if_pos hwrites, if_pos hcoroutine, Method.answerId, if_pos hcoroutine]
  exact ⟨rfl, exists_call_of_waits hresult⟩

end Start

theorem System.Attributed.answer {serial : ℕ} {body : Body}
    {act : Activation Data Address Frame} (h : s.Attributed)
    (hclear : (Event.answer serial body act).Clear i protection c s) :
    (step i protection c (.answer serial body act) s).Attributed := by
  cases hr : s.request? serial with
  | none =>
    rw [step, hr]
    exact h
  | some r =>
  cases hresumed : s.resumed i r with
  | none =>
    rw [step_answer_of_error hr (Or.inl hresumed)]
    exact h.remove serial
  | some record =>
  cases hresult : act.result with
  | error e =>
    rw [step_answer_of_error hr (Or.inr ⟨e, hresult⟩)]
    exact h.remove serial
  | ok q =>
  obtain ⟨d, status⟩ := q
  obtain ⟨m, hstep⟩ : ∃ m, step i protection c (.answer serial body act) s = _ :=
    step_answer hr hresumed hresult
  have hanswering : Sdk.Attributed (answering s.awaiting r) (s.remove serial).outstanding s.sent :=
    ((h.remove serial).deleteAwaiting r.awaitingId).findNextAnswerId
  rw [hstep]
  refine hanswering.record hanswering.next_lt
    (hclear r hr record hresumed (d, status) (by rw [hresult]; rfl)) fun p hp => ⟨rfl, ?_⟩
  obtain rfl : status = some p := hp
  exact exists_call_of_waits hresult

/-- While every step is clear, only the call a coroutine waits for can resume it. -/
theorem System.Attributed.step (h : s.Attributed) (hclear : e.Clear i protection c s) :
    (step i protection c e s).Attributed := by
  cases e with
  | start now m msg checkedDeploy act => exact h.start hclear
  | answer serial body act => exact h.answer hclear

/-- The answer that resumes a coroutine is the answer to the call it is suspended on. -/
theorem System.Attributed.call_eq_serial {r : Request Address}
    {record : AwaitingRecord Address (Suspended Frame)} (h : s.Attributed)
    (hr : r ∈ s.outstanding) (hresumed : s.resumed i r = some record) :
    record.frame.call = r.serial := by
  obtain ⟨hdict, haddr, -⟩ := System.resumed_eq_some.mp hresumed
  obtain ⟨id, hid, hcarries⟩ := h.carries r hr
  have hawaiting : r.awaitingId = id := by
    rw [Request.awaitingId, hcarries, answerIdField_xor hid]
  exact (h.onlyAwaited id record (hawaiting ▸ hdict) r hr hcarries haddr.symm).symm

/-! ### Exactly the clear steps -/

/-- **A step that is not clear lets an answer resume a wrong coroutine.** -/
theorem Event.clear_iff (h : s.Attributed) (hunused : e.Unused i protection c s) :
    e.Clear i protection c s ↔
      OnlyAwaited (Sdk.step i protection c e s).awaiting
        (Sdk.step i protection c e s).outstanding := by
  refine ⟨fun hclear => (h.step hclear).onlyAwaited, fun honly => ?_⟩
  cases e with
  | start now m msg checkedDeploy act =>
    rintro ⟨header, data⟩ hcalled ⟨d, status⟩ hresult
    have hcalled' := eq_ok_of_mem_toOption hcalled
    have hresult' := eq_ok_of_mem_toOption hresult
    have hheader := h.calledWith hcalled'
    rw [step_start d hcalled' hresult', awaiting_send_writePersistent] at honly
    refine (h.leaves hheader).clearCalls hheader.answerId_lt (fun p hp => ?_) honly
    obtain ⟨hwrites, hcoroutine, rfl⟩ := Method.saves_eq_some hp
    have hnone := Option.isNone_iff_eq_none.mp (hunused hcoroutine (header, data) hcalled)
    rw [Method.answerId, if_pos hcoroutine] at hnone ⊢
    rw [Method.leaves, if_pos hwrites, if_pos hcoroutine,
      AwaitingResponsesMap.dict_findNextAnswerId]
    exact ⟨rfl, hnone, exists_call_of_waits hresult'⟩
  | answer serial body act =>
    intro r hr record hresumed
    rintro ⟨d, status⟩ hresult
    have hresult := eq_ok_of_mem_toOption hresult
    obtain ⟨m, hstep⟩ : ∃ m, Sdk.step i protection c (.answer serial body act) s = _ :=
      step_answer hr hresumed hresult
    have hanswering :
        Sdk.Attributed (answering s.awaiting r) (s.remove serial).outstanding s.sent :=
      ((h.remove serial).deleteAwaiting r.awaitingId).findNextAnswerId
    rw [hstep] at honly
    refine hanswering.clearCalls hanswering.next_lt (fun p hp => ?_) honly
    obtain rfl : status = some p := hp
    exact ⟨rfl, Option.isNone_iff_eq_none.mp (hunused r hr record hresumed),
      exists_call_of_waits hresult⟩

/-! ### Answered calls -/

/-- The call is answered. -/
def System.Spent (call : ℕ) (s : System Data Replay Address Frame) : Prop :=
  call < s.sent ∧ ∀ r ∈ s.outstanding, r.serial ≠ call

namespace System.Spent

variable {call serial : ℕ}

omit [DecidableEq Address] in
theorem send (h : s.Spent call) (persistent : Persistent Data Replay Address (Suspended Frame))
    (answerId : ℕ) (calls : List (Call Address)) :
    (s.send persistent answerId calls).Spent call := by
  refine ⟨Nat.lt_add_right _ h.1, fun r hr => ?_⟩
  rcases List.mem_append.mp hr with hr | hr
  · exact h.2 r hr
  · exact Nat.ne_of_gt (Nat.lt_of_lt_of_le h.1 (serial_le_of_mem_requests hr))

omit [DecidableEq Address] in
theorem remove (h : s.Spent call) (serial : ℕ) : (s.remove serial).Spent call :=
  ⟨h.1, fun r hr => h.2 r (List.mem_of_mem_filter hr)⟩

omit [DecidableEq Address] in
theorem remove_self (h : call < s.sent) : (s.remove call).Spent call :=
  ⟨h, fun r hr => by simpa using (List.mem_filter.mp hr).2⟩

theorem step (h : s.Spent call) : (Sdk.step i protection c e s).Spent call := by
  cases e with
  | start now m msg checkedDeploy act =>
    simp only [Sdk.step]
    split
    · exact h.send _ _ _
    · exact h
  | answer serial body act =>
    simp only [Sdk.step]
    split
    · exact h
    split
    · exact (h.remove serial).send _ _ _
    · exact h.remove serial

end System.Spent

theorem Event.resumes_eq_some {call : ℕ} : e.resumes i s = some call ↔
    ∃ serial body act r record, e = .answer serial body act ∧ s.request? serial = some r ∧
      s.resumed i r = some record ∧ record.frame.call = call := by
  cases e with
  | start => simp [Event.resumes]
  | answer serial body act =>
    simp only [Event.resumes, Option.bind_eq_some_iff, Option.map_eq_some_iff]
    constructor
    · rintro ⟨r, hr, record, hrecord, hcall⟩
      exact ⟨serial, body, act, r, record, rfl, hr, hrecord, hcall⟩
    · rintro ⟨_, _, _, r, record, heq, hr, hrecord, hcall⟩
      cases heq
      exact ⟨r, hr, record, hrecord, hcall⟩

theorem System.Attributed.not_spent (h : s.Attributed) {call : ℕ}
    (hresumes : e.resumes i s = some call) : ¬ s.Spent call := by
  obtain ⟨serial, body, act, r, record, rfl, hr, hresumed, rfl⟩ :=
    Event.resumes_eq_some.mp hresumes
  obtain ⟨hmem, rfl⟩ := System.request?_eq_some hr
  rw [h.call_eq_serial hmem hresumed]
  exact fun hspent => hspent.2 r hmem rfl

theorem System.Attributed.spent_step (h : s.Attributed) {call : ℕ}
    (hresumes : e.resumes i s = some call) : (Sdk.step i protection c e s).Spent call := by
  obtain ⟨serial, body, act, r, record, rfl, hr, hresumed, rfl⟩ :=
    Event.resumes_eq_some.mp hresumes
  obtain ⟨hmem, rfl⟩ := System.request?_eq_some hr
  rw [h.call_eq_serial hmem hresumed]
  have hremove := Spent.remove_self (h.serial_lt r hmem)
  rw [Sdk.step, hr]
  dsimp only
  split
  · exact hremove.send _ _ _
  · exact hremove

/-! ### The waiting coroutines -/

/-- A record stays as it is, unless it is resumed. -/
theorem step_answer_dict {serial : ℕ} {body : Body} {act : Activation Data Address Frame}
    {r : Request Address} (hr : s.request? serial = some r)
    (hunused : (Event.answer serial body act).Unused i protection c s) {id : ℕ}
    {record : AwaitingRecord Address (Suspended Frame)} (hdict : s.awaiting.dict id = some record) :
    (id = r.awaitingId ∧ s.resumed i r = some record) ∨
      (step i protection c (.answer serial body act) s).awaiting.dict id = some record := by
  cases hresumed : s.resumed i r with
  | none =>
    rw [step_answer_of_error hr (Or.inl hresumed)]
    exact Or.inr hdict
  | some resumed =>
  by_cases hid : id = r.awaitingId
  · subst hid
    have hsame := (System.resumed_eq_some.mp hresumed).1.symm.trans hdict
    exact Or.inl ⟨rfl, hsame⟩
  refine Or.inr ?_
  cases hresult : act.result with
  | error e =>
    rw [step_answer_of_error hr (Or.inr ⟨e, hresult⟩)]
    exact hdict
  | ok q =>
  obtain ⟨d, status⟩ := q
  obtain ⟨m, hstep⟩ : ∃ m, step i protection c (.answer serial body act) s = _ :=
    step_answer hr hresumed hresult
  have hkept : (answering s.awaiting r).dict id = some record := by
    rw [answering, AwaitingResponsesMap.dict_findNextAnswerId,
      AwaitingResponsesMap.dict_deleteAwaiting, if_neg hid]
    exact hdict
  rw [hstep]
  show (recordCoroutine (answering s.awaiting r) m resumed.returnAddr status).dict id = some record
  cases status with
  | none => exact hkept
  | some p =>
    have hnone := Option.isNone_iff_eq_none.mp (hunused r hr resumed hresumed)
    rw [Attributed.dict_recordCoroutine, if_neg, hkept]
    rintro rfl
    rw [hnone] at hkept
    cases hkept

/-! ### The answers of a run -/

/-- The switch processes the answer to a request. -/
theorem smartSwitch_answerMessage {now answerId : ℕ} {body : Body} {r : Request Address}
    {state : Persistent Data Replay Address (Suspended Frame)}
    (hcoroutines : i.hasCoroutines = true) (hid : answerId < 2 ^ 31) (hr : r.answerId = answerIdField answerId) :
    smartSwitch i protection c now (.internal (answerMessage r body)) state =
      processAnswer i c (answerMessage r body) r.answerId state := by
  have hbit : r.answerId.testBit 31 = true := by
    rw [hr, testBit_answerIdField hid, decide_eq_true rfl, Bool.or_true]
  have hzero : (r.answerId == 0) = false :=
    beq_eq_false_iff_ne.mpr (hr ▸ answerIdField_ne_zero hid)
  simp only [smartSwitch, smartSwitchInternal, answerMessage, hbit, hzero, hcoroutines,
    Bool.and_false, Bool.and_true, Bool.false_eq_true, if_false, if_true]

/-- **An answer resumes only the coroutine that waits for it.** If every step of a run is clear,
the coroutines resumed in the run were suspended on different calls. In the state that the run
reaches, the next answer resumes no coroutine but one that is suspended on the call it answers, and
if `find_next_answer_id` returns an unused id, it leaves every other record as it is. -/
theorem resumed_right (i : Interface) (protection : ReplayProtection ExternalHeader Replay)
    (c : Contract Data Address (Suspended Frame) Body) {s s' : System Data Replay Address Frame}
    {es : List (Event Data Address Frame Body)} (hs : s.Undeployed)
    (hclear : Along (step i protection c) (Event.Clear i protection c) s es)
    (hrun : run (step i protection c) s es = s') :
    (outputs (step i protection c) (Event.resumes i) s es).Nodup ∧
      ∀ serial body act r, s'.request? serial = some r →
        (∀ record, s'.resumed i r = some record → record.frame.call = serial) ∧
        ((Event.answer serial body act).Unused i protection c s' → ∀ id record,
          s'.awaiting.dict id = some record →
            (id = r.awaitingId ∧ s'.resumed i r = some record) ∨
              (step i protection c (.answer serial body act) s').awaiting.dict id =
                some record) := by
  have hstep : ∀ (e : Event Data Address Frame Body) (s : System Data Replay Address Frame),
      e.Clear i protection c s → s.Attributed → (step i protection c e s).Attributed :=
    fun e s hclear h => h.step hclear
  constructor
  · exact hclear.nodup_outputs hstep (fun e s call h => h.not_spent)
      (fun e s call h => h.spent_step) (fun e s call h => h.step) hs.attributed
  · intro serial body act r hr
    have hattributed : s'.Attributed := hrun ▸ hclear.inv hstep hs.attributed
    obtain ⟨hmem, rfl⟩ := System.request?_eq_some hr
    exact ⟨fun record => hattributed.call_eq_serial hmem,
      fun hunused id record hdict => step_answer_dict hr hunused hdict⟩

end Runs

/-! ## Calls that are mistaken for others -/

section Mistaken

instance {Data Replay Address Frame Body : Type} [DecidableEq Address] (i : Interface)
    (protection : ReplayProtection ExternalHeader Replay)
    (c : Contract Data Address (Suspended Frame) Body) :
    ∀ (e : Event Data Address Frame Body) (s : System Data Replay Address Frame),
      Decidable (e.Clear i protection c s)
  | .start .., _ => inferInstanceAs (Decidable (∀ _ ∈ Except.toOption _, _))
  | .answer .., _ => inferInstanceAs (Decidable (∀ _ ∈ System.request? _ _, _))

instance {Data Replay Address Frame Body : Type} [DecidableEq Address] (i : Interface)
    (protection : ReplayProtection ExternalHeader Replay)
    (c : Contract Data Address (Suspended Frame) Body) :
    ∀ (e : Event Data Address Frame Body) (s : System Data Replay Address Frame),
      Decidable (e.Unused i protection c s)
  | .start .., _ => inferInstanceAs (Decidable (_ → _))
  | .answer .., _ => inferInstanceAs (Decidable (∀ _ ∈ System.request? _ _, _))

/-- A contract with a constructor, an ordinary method and a coroutine. -/
def waiterInterface : Interface where
  methods := [{ id := 1, internal := true }, { id := 2, internal := true },
    { id := 3, internal := true, coroutine := true }]
  constructorId := some 1
  hasPubkey := false

def waiter : Contract Unit ℕ (Suspended Unit) Unit where
  checkedDeploy := false
  supportsReceive := false
  supportsFallback := false
  supportsOnBounced := false
  data := ()
  checkSignature := fun _ _ _ _ => false
  call := fun _ _ _ _ => .ok ((), none)
  resume := fun _ _ _ _ _ => .ok ((), none)
  receive := fun _ => .ok ()
  fallback := fun _ => .ok ()
  onBounced := fun _ => .ok ()

def undeployedWaiter : System Unit ℕ ℕ Unit where
  persistent :=
    { uninitialized := true
      header := .declared increasingTimestamps
      data := () }
  sent := 0
  outstanding := []

/-- A message starts the method with the given id. -/
def startOf (m : Method) (calls : List (Call ℕ)) (outcome : Outcome Unit Unit) :
    Event Unit ℕ Unit Unit :=
  .start 0 m
    (.internal { hasInit := false, bounced := false, sender := 0, empty := false
                 functionId := some m.id, body := () })
    false { calls := calls, outcome := outcome }

def constructed : Event Unit ℕ Unit Unit := startOf { id := 1, internal := true } [] (.done ())

/-- The ordinary method. -/
def ordinary (calls : List (Call ℕ)) : Event Unit ℕ Unit Unit :=
  startOf { id := 2, internal := true } calls (.done ())

/-- The coroutine, which is done or waits for the call with the given number. -/
def coroutine (calls : List (Call ℕ)) (awaited : Option ℕ) : Event Unit ℕ Unit Unit :=
  startOf { id := 3, internal := true, coroutine := true } calls
    (awaited.elim (.done ()) fun call => .waits () ⟨call, ()⟩)

def answered (serial : ℕ) (calls : List (Call ℕ)) (awaited : Option ℕ) : Event Unit ℕ Unit Unit :=
  .answer serial () ⟨calls, awaited.elim (.done ()) fun call => .waits () ⟨call, ()⟩⟩

/-- Two coroutines wait for one contract. The second one is resumed first, and then waits for
another contract. -/
theorem resumed_right_waiter :
    (outputs (step waiterInterface increasingTimestamps waiter) (Event.resumes waiterInterface)
      undeployedWaiter [constructed, coroutine [⟨7, true⟩] (some 0), coroutine [⟨7, true⟩] (some 1),
        ordinary [⟨9, true⟩], answered 1 [⟨8, true⟩] (some 3), answered 0 [] none,
        answered 3 [] none]).Nodup :=
  (resumed_right waiterInterface increasingTimestamps waiter ⟨rfl, rfl⟩ (by decide) rfl).1

/-- After the run the answer to the call `serial` resumes the coroutine that waits for the call
`call`. -/
def Mistaken (es : List (Event Unit ℕ Unit Unit)) (serial call : ℕ) : Prop :=
  Along (step waiterInterface increasingTimestamps waiter)
      (Event.Unused waiterInterface increasingTimestamps waiter) undeployedWaiter es ∧
    (answered serial [] none).resumes waiterInterface
      (run (step waiterInterface increasingTimestamps waiter) undeployedWaiter es) = some call

instance (es : List (Event Unit ℕ Unit Unit)) (serial call : ℕ) :
    Decidable (Mistaken es serial call) := inferInstanceAs (Decidable (_ ∧ _))

/-- The answer to another call resumes the coroutine: a call that an ordinary method makes, the
first of two calls that the coroutine makes, a later call that it does not wait for, and a call
from an earlier use of the id. -/
theorem resumed_by_another :
    Mistaken [constructed, coroutine [⟨7, true⟩] (some 0), ordinary [⟨7, true⟩]] 1 0 ∧
    Mistaken [constructed, coroutine [⟨7, true⟩, ⟨7, true⟩] (some 1)] 0 1 ∧
    Mistaken [constructed, coroutine [⟨7, true⟩, ⟨8, true⟩] (some 0)] 1 0 ∧
    Mistaken [constructed, coroutine [⟨7, false⟩] none, coroutine [⟨7, true⟩] (some 1)] 0 1 := by
  decide

end Mistaken

end TVMCompiler.Sdk
