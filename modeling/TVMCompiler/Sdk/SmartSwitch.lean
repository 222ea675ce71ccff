import TVMCompiler.Lib.Except
import TVMCompiler.Sdk.PersistentHeader

/-!
# The message switch of a contract

`smart_switch` decodes an incoming message and executes the method it is for: the method is found
by its id, the signature is checked, the persistent data are loaded, the replay protection checks
the message, the method runs, and the persistent data are saved. Attributes of a method switch the
loading and the saving off.

## Main definitions

* `Method`, `Interface`, `Contract`: what the switch uses of a contract
* `execute`, `processAnswer`, `smartSwitch`: the switch
* `Interface.ReadsWhatItSaves`: no method saves a header that it has not loaded
* `executed`: the external messages executed in a run

## Main results

* `smartSwitch_replay`: what an execution does to the state of the replay protection
* `executed_nodup`: no external message is executed twice
-/

namespace TVMCompiler.Sdk

open Lib

/-! ## Messages and interfaces -/

structure ExternalHeader where
  pubkey : Option ℕ
  timestamp : ℕ
  expire : ℕ
  functionId : ℕ
  deriving DecidableEq, Repr

/-- An external message. It has no header if the header cannot be parsed. -/
structure ExternalMessage (Address Body : Type) where
  hasInit : Bool
  sender : Address
  signature : Option ℕ
  header : Option ExternalHeader
  body : Body
  deriving DecidableEq, Repr

/-- An internal message. It has no function id if its body is shorter than 32 bits. -/
structure InternalMessage (Address Body : Type) where
  hasInit : Bool
  bounced : Bool
  sender : Address
  empty : Bool
  functionId : Option ℕ
  body : Body
  deriving DecidableEq, Repr

inductive Message (Address Body : Type) where
  | internal (msg : InternalMessage Address Body)
  | external (msg : ExternalMessage Address Body)
  deriving DecidableEq, Repr

namespace Message

variable {Address Body : Type}

def isInternal : Message Address Body → Bool
  | .internal _ => true
  | .external _ => false

def sender : Message Address Body → Address
  | .internal msg => msg.sender
  | .external msg => msg.sender

end Message

structure Method where
  id : ℕ
  internal : Bool := false
  external : Bool := false
  getter : Bool := false
  deploy : Bool := false
  noReadPersistent : Bool := false
  noWritePersistent : Bool := false
  coroutine : Bool := false
  deriving DecidableEq, Repr

structure Interface where
  methods : List Method
  constructorId : Option ℕ
  hasPubkey : Bool
  deriving DecidableEq, Repr

namespace Interface

variable (i : Interface)

/-- `is_method_constructor`. -/
def isConstructor (m : Method) : Bool := i.constructorId == some m.id

/-- `interface_has_coroutines`. -/
def hasCoroutines : Bool := i.methods.any Method.coroutine

/-- The method that `smart_switcher` executes. Getters are in the switch of external messages. -/
def dispatch (internal : Bool) (functionId : ℕ) : Option Method :=
  i.methods.find? fun m =>
    (internal && m.internal || !internal && (m.external || m.getter)) && m.id == functionId

/-- The coroutine that `smart_process_answer` resumes. -/
def dispatchAnswer (functionId : ℕ) : Option Method :=
  i.methods.find? fun m => m.coroutine && m.id == functionId

end Interface

/-- The code and the options of a contract. A coroutine that waits returns the address it waits
for, and its frame. -/
structure Contract (Data Address Frame Body : Type) where
  checkedDeploy : Bool
  supportsReceive : Bool
  supportsFallback : Bool
  supportsOnBounced : Bool
  data : Data
  checkSignature : ExternalHeader → Body → ℕ → ℕ → Bool
  call : Method → Message Address Body → ℕ → Data → Except ErrorCode (Data × Option (Address × Frame))
  resume : Method → InternalMessage Address Body → ℕ → Frame → Data →
    Except ErrorCode (Data × Option (Address × Frame))
  receive : InternalMessage Address Body → Except ErrorCode Unit
  fallback : InternalMessage Address Body → Except ErrorCode Unit
  onBounced : InternalMessage Address Body → Except ErrorCode Unit

/-! ## The switch -/

section Switch

variable {Data Replay Address Frame Body : Type}
variable (i : Interface) (protection : ReplayProtection ExternalHeader Replay)
variable (c : Contract Data Address Frame Body)

/-- Internal methods and getters are not signed. -/
def verifySignature (m : Method) (msg : Message Address Body) : Except ErrorCode Unit :=
  match msg with
  | .internal _ => .ok ()
  | .external msg =>
    if m.getter || !i.hasPubkey then .ok ()
    else
      match msg.signature, msg.header with
      | none, _ => .error .invalidSignature
      | some _, none => .error .badArguments
      | some signature, some header =>
        match header.pubkey with
        | none => .error .noPubkey
        | some pubkey =>
          if c.checkSignature header msg.body signature pubkey then .ok ()
          else .error .invalidSignature

/-- The header and the data with which a method is called. -/
def readPersistent (m : Method) (state : Persistent Data Replay Address Frame) :
    Except ErrorCode (PersistentHeader Replay Address Frame × Data) :=
  if m.noReadPersistent then .ok (.declared protection, c.data)
  else if i.isConstructor m then
    if state.uninitialized then .ok (.declared protection, c.data)
    else .error .constructorDoubleCall
  else loadPersistentData state

/-- The check of the replay protection, or its initialisation by a constructor. -/
def protect (now : ℕ) (m : Method) (msg : Message Address Body)
    (header : PersistentHeader Replay Address Frame) :
    Except ErrorCode (PersistentHeader Replay Address Frame) :=
  if m.getter then .ok header
  else if i.isConstructor m then .ok (.init protection i.hasCoroutines)
  else
    match msg with
    | .internal _ => .ok header
    | .external msg =>
      match msg.header with
      | none => .error .badArguments
      | some hdr =>
        match protection.check now hdr header.replay with
        | none => .error .replayAttackCheck
        | some replay => .ok { header with replay := replay }

/-- A coroutine that is not done is recorded under the answer id of the call. -/
def recordCoroutine (awaiting : AwaitingResponsesMap Address Frame) (m : Method)
    (returnAddr : Address) : Option (Address × Frame) → AwaitingResponsesMap Address Frame
  | none => awaiting
  | some (waitingAddr, frame) => awaiting.addAwaiting awaiting.nextAnswerId
      { funcId := m.id, waitingAddr := waitingAddr, returnAddr := returnAddr, frame := frame }

/-- The call of the method. -/
def invoke (m : Method) (msg : Message Address Body)
    (header : PersistentHeader Replay Address Frame) (data : Data) :
    Except ErrorCode (PersistentHeader Replay Address Frame × Data) :=
  if m.coroutine then do
    let awaiting := header.awaiting.findNextAnswerId
    let (data, status) ← c.call m msg awaiting.nextAnswerId data
    return ({ header with awaiting := recordCoroutine awaiting m msg.sender status }, data)
  else do
    let (data, _) ← c.call m msg 0 data
    return (header, data)

def writePersistent (m : Method) (header : PersistentHeader Replay Address Frame) (data : Data)
    (state : Persistent Data Replay Address Frame) : Persistent Data Replay Address Frame :=
  if !m.noWritePersistent && !m.getter then savePersistentData header data else state

/-- `smart_switcher_impl::execute` for the method found. -/
def execute (now : ℕ) (m : Method) (msg : Message Address Body) (checkedDeploy : Bool)
    (state : Persistent Data Replay Address Frame) :
    Except ErrorCode (Persistent Data Replay Address Frame) :=
  if checkedDeploy && !m.deploy then .error .methodNotForDeploy
  else do
    verifySignature i c m msg
    let (header, data) ← readPersistent i protection c m state
    let header ← protect i protection now m msg header
    let (header, data) ← invoke c m msg header data
    return writePersistent m header data state

/-- `smart_process_answer`. -/
def processAnswer [DecidableEq Address] (msg : InternalMessage Address Body) (functionId : ℕ)
    (state : Persistent Data Replay Address Frame) :
    Except ErrorCode (Persistent Data Replay Address Frame) := do
  let answerId := functionId ^^^ 2 ^ 31
  let (header, data) ← loadPersistentData state
  let record ← header.awaiting.findAwaiting answerId
  if msg.sender ≠ record.waitingAddr then .error .unexpectedAnswer
  else
    match i.dispatchAnswer record.funcId with
    | none => .error .wrongAnswerId
    | some m =>
      let awaiting := (header.awaiting.deleteAwaiting answerId).findNextAnswerId
      let (data, status) ← c.resume m msg awaiting.nextAnswerId record.frame data
      return savePersistentData
        { header with awaiting := recordCoroutine awaiting m record.returnAddr status } data

/-- The handlers that do not touch the persistent data. -/
def handleBy (handler : Except ErrorCode Unit) (state : Persistent Data Replay Address Frame) :
    Except ErrorCode (Persistent Data Replay Address Frame) :=
  handler.map fun _ => state

def switchMethod (now : ℕ) (functionId : ℕ) (msg : Message Address Body) (checkedDeploy : Bool)
    (state : Persistent Data Replay Address Frame) :
    Except ErrorCode (Persistent Data Replay Address Frame) :=
  match i.dispatch msg.isInternal functionId with
  | some m => execute i protection c now m msg checkedDeploy state
  | none =>
    match msg with
    | .internal msg =>
      if c.supportsFallback then
        if checkedDeploy then .error .methodNotForDeploy else handleBy (c.fallback msg) state
      else .error .wrongPublicCall
    | .external _ => .error .wrongPublicCall

def smartSwitchInternal [DecidableEq Address] (now : ℕ) (msg : InternalMessage Address Body)
    (state : Persistent Data Replay Address Frame) :
    Except ErrorCode (Persistent Data Replay Address Frame) :=
  let checkedDeploy := c.checkedDeploy && msg.hasInit
  if msg.bounced then
    if c.supportsOnBounced then handleBy (c.onBounced msg) state
    else .error .unsupportedBouncedMsg
  else if c.supportsReceive && msg.empty then
    if checkedDeploy then .error .methodNotForDeploy else handleBy (c.receive msg) state
  else
    match msg.functionId with
    | none =>
      if c.supportsFallback then handleBy (c.fallback msg) state else .error .cellUnderflow
    | some functionId =>
      if (c.supportsReceive || c.supportsFallback) && functionId == 0 then
        if checkedDeploy then .error .methodNotForDeploy
        else if c.supportsReceive then handleBy (c.receive msg) state
        else handleBy (c.fallback msg) state
      else if i.hasCoroutines && functionId.testBit 31 then
        if checkedDeploy then .error .methodNotForDeploy
        else processAnswer i c msg functionId state
      else switchMethod i protection c now functionId (.internal msg) checkedDeploy state

def smartSwitchExternal (now : ℕ) (msg : ExternalMessage Address Body)
    (state : Persistent Data Replay Address Frame) :
    Except ErrorCode (Persistent Data Replay Address Frame) :=
  match msg.header with
  | none => .error .badArguments
  | some header => switchMethod i protection c now header.functionId (.external msg)
      (c.checkedDeploy && msg.hasInit) state

/-- `smart_switch`. -/
def smartSwitch [DecidableEq Address] (now : ℕ) (msg : Message Address Body)
    (state : Persistent Data Replay Address Frame) :
    Except ErrorCode (Persistent Data Replay Address Frame) :=
  match msg with
  | .internal msg => smartSwitchInternal i protection c now msg state
  | .external msg => smartSwitchExternal i protection c now msg state

/-! ## Runs -/

/-- A message and the time at which it arrives. -/
structure Delivery (Address Body : Type) where
  now : ℕ
  message : Message Address Body
  deriving DecidableEq, Repr

variable [DecidableEq Address]

/-- A failing message changes no state. -/
def deliver (d : Delivery Address Body) (state : Persistent Data Replay Address Frame) :
    Persistent Data Replay Address Frame :=
  match smartSwitch i protection c d.now d.message state with
  | .ok state' => state'
  | .error _ => state

/-- The method is checked against replays. -/
def Interface.Checked (m : Method) : Bool := !m.getter && !i.isConstructor m

/-- The method is checked against replays, and it saves the result of the check. -/
def Interface.Protected (m : Method) : Bool := i.Checked m && !m.noWritePersistent

/-- The header of an external message that is executed successfully by a method of the given
kind. -/
def executedHeader (kind : Method → Bool) (d : Delivery Address Body)
    (state : Persistent Data Replay Address Frame) : Option ExternalHeader :=
  match smartSwitch i protection c d.now d.message state, d.message with
  | .ok _, .external msg => msg.header.filter fun header =>
      (i.dispatch false header.functionId).any kind
  | _, _ => none

/-- The headers of the external messages that methods of the given kind execute in a run, with
the times of their arrival. -/
def executed (kind : Method → Bool) : List (Delivery Address Body) →
    Persistent Data Replay Address Frame → List (ℕ × ExternalHeader)
  | [], _ => []
  | d :: ds, state =>
    ((executedHeader i protection c kind d state).map (Prod.mk d.now)).toList ++
      executed kind ds (deliver i protection c d state)

/-- No method saves a header that it has not loaded. -/
def Interface.ReadsWhatItSaves : Prop :=
  ∀ m ∈ i.methods, m.getter = false → m.noReadPersistent = true → m.noWritePersistent = true

/-- The state of the replay protection that the next check will see. -/
def replayOf (state : Persistent Data Replay Address Frame) : Replay :=
  if state.uninitialized then (PersistentHeader.init protection i.hasCoroutines :
    PersistentHeader Replay Address Frame).replay
  else state.header.replay

/-! ## What an execution does to the state of the protection -/

variable {i protection c}
variable {state state' : Persistent Data Replay Address Frame}
variable {header header' : PersistentHeader Replay Address Frame} {data data' : Data}
variable {now : ℕ} {m : Method} {msg : Message Address Body}

omit [DecidableEq Address] in
theorem invoke_replay (h : invoke c m msg header data = .ok (header', data')) :
    header'.replay = header.replay := by
  unfold invoke at h
  split at h
  all_goals
    obtain ⟨⟨d, status⟩, -, hok⟩ := bind_eq_ok.mp h
    cases hok
    rfl

omit [DecidableEq Address] in
/-- What a method that reads the persistent data has read. -/
theorem readPersistent_eq_ok (hread : m.noReadPersistent = false)
    (h : readPersistent i protection c m state = .ok (header, data)) :
    state.uninitialized = i.isConstructor m ∧
      (i.isConstructor m = false → header = state.header) := by
  rw [readPersistent, if_neg (by simp [hread])] at h
  by_cases hcons : i.isConstructor m = true
  · rw [if_pos hcons] at h
    split at h
    · rename_i huninit
      exact ⟨huninit.trans hcons.symm, fun hnot => absurd hcons (by simp [hnot])⟩
    · cases h
  · rw [if_neg hcons, loadPersistentData] at h
    rw [Bool.not_eq_true] at hcons
    split at h
    · cases h
    · rename_i hinit
      cases h
      exact ⟨by rw [hcons]; simpa using hinit, fun _ => rfl⟩

omit [DecidableEq Address] in
/-- A method saves nothing, or a header that went through `protect`. -/
theorem execute_eq_ok {checkedDeploy : Bool}
    (h : execute i protection c now m msg checkedDeploy state = .ok state') :
    (m.noWritePersistent || m.getter) = true ∧ state' = state ∨
      (m.noWritePersistent || m.getter) = false ∧ ∃ header header' data,
        readPersistent i protection c m state = .ok (header, data) ∧
        protect i protection now m msg header = .ok header' ∧
        state'.uninitialized = false ∧ state'.header.replay = header'.replay := by
  unfold execute at h
  split at h
  · cases h
  obtain ⟨-, -, h⟩ := bind_eq_ok.mp h
  obtain ⟨⟨header, data⟩, hread, h⟩ := bind_eq_ok.mp h
  obtain ⟨header₁, hprotect, h⟩ := bind_eq_ok.mp h
  obtain ⟨⟨header₂, data₂⟩, hinvoke, h⟩ := bind_eq_ok.mp h
  cases h
  unfold writePersistent
  rw [← Bool.not_or]
  cases m.noWritePersistent || m.getter with
  | true => exact Or.inl ⟨rfl, rfl⟩
  | false =>
    exact Or.inr ⟨rfl, header, header₁, data, hread, hprotect, rfl, invoke_replay hinvoke⟩

section Execute

variable {checkedDeploy : Bool}
variable (hreads : m.getter = false → m.noReadPersistent = true → m.noWritePersistent = true)
variable (h : execute i protection c now m msg checkedDeploy state = .ok state')

include hreads h

omit [DecidableEq Address] in
/-- What is not an external message for a protected method leaves the state of the protection
alone; a constructor puts it in the initial state. -/
theorem execute_replay_eq (hmsg : msg.isInternal = true ∨ i.Protected m = false) :
    replayOf i protection state' = replayOf i protection state := by
  rcases execute_eq_ok h with ⟨-, rfl⟩ | ⟨hwrite, header, header', data, hread, hprotect,
    hinit, hreplay⟩
  · rfl
  rw [Bool.or_eq_false_iff] at hwrite
  obtain ⟨huninit, hheader⟩ := readPersistent_eq_ok (by
    by_contra hno
    simp [hreads hwrite.2 (by simpa using hno)] at hwrite) hread
  rw [replayOf, hinit, if_neg Bool.false_ne_true, hreplay, replayOf, huninit]
  unfold protect at hprotect
  rw [if_neg (by simp [hwrite.2])] at hprotect
  by_cases hcons : i.isConstructor m = true
  · rw [if_pos hcons] at hprotect ⊢
    cases hprotect
    rfl
  · rw [if_neg hcons] at hprotect ⊢
    rw [Bool.not_eq_true] at hcons
    cases msg with
    | internal e =>
      cases hprotect
      rw [hheader hcons]
    | external e => simp [Message.isInternal, Interface.Protected, Interface.Checked, hwrite, hcons] at hmsg

omit [DecidableEq Address] in
/-- An external message for a protected method is checked, and the state of the protection becomes
that of the check. -/
theorem execute_replay_check {e : ExternalMessage Address Body} {hdr : ExternalHeader}
    (hmsg : msg = .external e) (hhdr : e.header = some hdr) (hprot : i.Protected m = true) :
    protection.check now hdr (replayOf i protection state) =
      some (replayOf i protection state') := by
  simp only [Interface.Protected, Interface.Checked, Bool.and_eq_true, Bool.not_eq_true'] at hprot
  obtain ⟨⟨hgetter, hcons⟩, hnowrite⟩ := hprot
  rcases execute_eq_ok h with ⟨hwrite, -⟩ | ⟨-, header, header', data, hread, hprotect,
    hinit, hreplay⟩
  · simp [hgetter, hnowrite] at hwrite
  obtain ⟨huninit, hheader⟩ := readPersistent_eq_ok (by
    by_contra hno
    simp [hreads hgetter (by simpa using hno)] at hnowrite) hread
  obtain rfl := hheader hcons
  rw [hcons] at huninit
  simp only [protect, hgetter, hcons, hmsg, hhdr, Bool.false_eq_true, ↓reduceIte] at hprotect
  rw [replayOf, huninit, if_neg Bool.false_ne_true, replayOf, hinit, if_neg Bool.false_ne_true,
    hreplay]
  split at hprotect
  · cases hprotect
  · rename_i replay hcheck
    cases hprotect
    exact hcheck

end Execute

theorem processAnswer_replay {e : InternalMessage Address Body} {functionId : ℕ}
    (h : processAnswer i c e functionId state = .ok state') :
    replayOf i protection state' = replayOf i protection state := by
  obtain ⟨⟨header, data⟩, hload, h⟩ := bind_eq_ok.mp h
  obtain ⟨record, -, h⟩ := bind_eq_ok.mp h
  split at h
  · cases h
  split at h
  · cases h
  obtain ⟨⟨data', status⟩, -, h⟩ := bind_eq_ok.mp h
  cases h
  unfold loadPersistentData at hload
  split at hload
  · cases hload
  · rename_i hinit
    cases hload
    simp [replayOf, savePersistentData, hinit]

omit [DecidableEq Address] in
theorem handleBy_eq_ok {handler : Except ErrorCode Unit} (h : handleBy handler state = .ok state') :
    state' = state := by
  obtain ⟨-, -, rfl⟩ := map_eq_ok.mp h
  rfl

theorem Interface.mem_of_dispatch {internal : Bool} {functionId : ℕ}
    (h : i.dispatch internal functionId = some m) : m ∈ i.methods := List.mem_of_find?_eq_some h

omit [DecidableEq Address] in
theorem switchMethod_internal_replay {e : InternalMessage Address Body} {functionId : ℕ}
    {checkedDeploy : Bool} (hreads : i.ReadsWhatItSaves)
    (h : switchMethod i protection c now functionId (.internal e) checkedDeploy state =
      .ok state') :
    replayOf i protection state' = replayOf i protection state := by
  unfold switchMethod at h
  split at h
  · rename_i m hm
    exact execute_replay_eq (hreads m (i.mem_of_dispatch hm)) h (Or.inl rfl)
  · dsimp only at h
    split at h
    · split at h
      · cases h
      · rw [handleBy_eq_ok h]
    · cases h

theorem smartSwitchInternal_replay {e : InternalMessage Address Body}
    (hreads : i.ReadsWhatItSaves)
    (h : smartSwitchInternal i protection c now e state = .ok state') :
    replayOf i protection state' = replayOf i protection state := by
  unfold smartSwitchInternal at h
  dsimp only at h
  split at h
  · -- a bounced message
    split at h
    · rw [handleBy_eq_ok h]
    · cases h
  split at h
  · -- an empty body
    split at h
    · cases h
    · rw [handleBy_eq_ok h]
  split at h
  · -- no function id
    split at h
    · rw [handleBy_eq_ok h]
    · cases h
  split at h
  · -- the function id zero
    split at h
    · cases h
    · split at h <;> rw [handleBy_eq_ok h]
  split at h
  · split at h
    · cases h
    · exact processAnswer_replay h
  · exact switchMethod_internal_replay hreads h

/-- What a successful execution does to the state of the protection. -/
theorem smartSwitch_replay {d : Delivery Address Body} (hreads : i.ReadsWhatItSaves)
    (h : smartSwitch i protection c d.now d.message state = .ok state') :
    (∀ hdr, executedHeader i protection c i.Protected d state = some hdr →
      protection.check d.now hdr (replayOf i protection state) =
        some (replayOf i protection state')) ∧
    (executedHeader i protection c i.Protected d state = none →
      replayOf i protection state' = replayOf i protection state) := by
  unfold executedHeader
  rw [h]
  cases hmsg : d.message with
  | internal e =>
    rw [hmsg] at h
    exact ⟨fun hdr hnone => by simp at hnone, fun _ => smartSwitchInternal_replay hreads h⟩
  | external e =>
    rw [hmsg] at h
    simp only [smartSwitch, smartSwitchExternal] at h
    cases hhdr : e.header with
    | none => simp [hhdr] at h
    | some hdr =>
      simp only [hhdr, switchMethod, Message.isInternal] at h
      cases hm : i.dispatch false hdr.functionId with
      | none => simp [hm] at h
      | some m =>
        simp only [hm] at h
        have hm' := hreads m (i.mem_of_dispatch hm)
        simp only [hhdr, Option.filter_some, hm, Option.any_some]
        by_cases hprot : i.Protected m = true
        · refine ⟨fun hdr' hsome => ?_, fun hnone => by simp [hprot] at hnone⟩
          obtain rfl : hdr = hdr' := by simpa [hprot] using hsome
          exact execute_replay_check hm' h rfl hhdr hprot
        · rw [Bool.not_eq_true] at hprot
          exact ⟨fun hdr' hsome => by simp [hprot] at hsome,
            fun _ => execute_replay_eq hm' h (Or.inr hprot)⟩

theorem deliver_replay_check {d : Delivery Address Body} {hdr : ExternalHeader}
    (hreads : i.ReadsWhatItSaves) (hexec : executedHeader i protection c i.Protected d state = some hdr) :
    protection.check d.now hdr (replayOf i protection state) =
      some (replayOf i protection (deliver i protection c d state)) := by
  unfold deliver
  cases h : smartSwitch i protection c d.now d.message state with
  | ok state' => exact (smartSwitch_replay hreads h).1 hdr hexec
  | error e => simp [executedHeader, h] at hexec

theorem deliver_replay_eq {d : Delivery Address Body} (hreads : i.ReadsWhatItSaves)
    (hexec : executedHeader i protection c i.Protected d state = none) :
    replayOf i protection (deliver i protection c d state) = replayOf i protection state := by
  unfold deliver
  cases h : smartSwitch i protection c d.now d.message state with
  | ok state' => exact (smartSwitch_replay hreads h).2 hexec
  | error e => rfl

/-- The protection accepts the executed messages of a run one after another, with its state
threaded from each to the next. -/
theorem threaded_executed (hreads : i.ReadsWhatItSaves) (ds : List (Delivery Address Body)) :
    threaded protection.check (replayOf i protection state) (executed i protection c i.Protected ds state) =
      (executed i protection c i.Protected ds state).map Prod.snd := by
  induction ds generalizing state with
  | nil => rfl
  | cons d ds ih =>
    rw [executed]
    cases hexec : executedHeader i protection c i.Protected d state with
    | none => simpa [← deliver_replay_eq hreads hexec] using ih
    | some hdr => simpa [threaded, deliver_replay_check hreads hexec] using ih

/-- **No external message is executed twice.** If no method saves a header that it has not loaded,
and the protection never accepts a header twice while its state is threaded, then in every run the
headers of the messages that protected methods execute are pairwise different. -/
theorem executed_nodup (i : Interface) (protection : ReplayProtection ExternalHeader Replay)
    (c : Contract Data Address Frame Body) (hreads : i.ReadsWhatItSaves)
    (state : Persistent Data Replay Address Frame)
    (hnever : NeverTwice protection.check (replayOf i protection state))
    (ds : List (Delivery Address Body)) :
    ((executed i protection c i.Protected ds state).map Prod.snd).Nodup := by
  rw [← threaded_executed hreads]
  exact hnever _

end Switch

/-! ## Attributes that let a message in again -/

section Attributes

/-- A protection that accepts strictly increasing timestamps. -/
def increasingTimestamps : ReplayProtection ExternalHeader ℕ where
  init := 0
  value := 0
  check := fun _ header last => if last < header.timestamp then some header.timestamp else none

theorem neverTwice_increasingTimestamps (last : ℕ) : NeverTwice increasingTimestamps.check last := by
  intro calls
  suffices h : (∀ header ∈ threaded increasingTimestamps.check last calls,
      last < header.timestamp) ∧ (threaded increasingTimestamps.check last calls).Nodup from h.2
  induction calls generalizing last with
  | nil => simp [threaded]
  | cons call calls ih =>
    obtain ⟨now, header⟩ := call
    by_cases hlast : last < header.timestamp
    · obtain ⟨hlt, hnodup⟩ := ih header.timestamp
      have hcheck : increasingTimestamps.check now header last = some header.timestamp :=
        if_pos hlast
      simp only [threaded, hcheck]
      refine ⟨fun other hother => ?_, List.nodup_cons.mpr ⟨fun hmem => ?_, hnodup⟩⟩
      · rcases List.mem_cons.mp hother with rfl | hother
        · exact hlast
        · exact Nat.lt_trans hlast (hlt other hother)
      · exact absurd (hlt header hmem) (Nat.lt_irrefl _)
    · have hcheck : increasingTimestamps.check now header last = none := if_neg hlast
      simp only [threaded, hcheck]
      exact ih last

/-- A contract that counts its calls. -/
def counter : Contract ℕ ℕ Unit Unit where
  checkedDeploy := false
  supportsReceive := false
  supportsFallback := false
  supportsOnBounced := false
  data := 0
  checkSignature := fun _ _ signature pubkey => signature == pubkey
  call := fun _ _ _ n => .ok (n + 1, none)
  resume := fun _ _ _ _ n => .ok (n, none)
  receive := fun _ => .ok ()
  fallback := fun _ => .ok ()
  onBounced := fun _ => .ok ()

/-- An interface with a constructor, an external and an internal method. -/
def counterInterface (constructor external internal : Method) : Interface where
  methods := [{ constructor with id := 1, external := true },
    { external with id := 2, external := true }, { internal with id := 3, internal := true }]
  constructorId := some 1
  hasPubkey := true

def undeployed : Persistent ℕ ℕ ℕ Unit where
  uninitialized := true
  header := .declared increasingTimestamps
  data := 0

/-- A signed external message for the method with the given id. -/
def signedMessage (functionId timestamp : ℕ) : Delivery ℕ Unit where
  now := 0
  message := .external
    { hasInit := false, sender := 0, signature := some 7
      header := some { pubkey := some 7, timestamp := timestamp, expire := 0, functionId := functionId }
      body := () }

def internalMessage (functionId : ℕ) : Delivery ℕ Unit where
  now := 0
  message := .internal
    { hasInit := false, bounced := false, sender := 0, empty := false
      functionId := some functionId, body := () }

theorem executed_nodup_counter :
    ((executed (counterInterface { id := 1 } { id := 2 } { id := 3 }) increasingTimestamps counter
      (counterInterface { id := 1 } { id := 2 } { id := 3 }).Protected
      [signedMessage 1 0, signedMessage 2 5, internalMessage 3, signedMessage 2 5, signedMessage 2 6]
      undeployed).map Prod.snd).Nodup :=
  executed_nodup _ _ _ (by
    intro m hm
    simp only [counterInterface, List.mem_cons, List.not_mem_nil, or_false] at hm
    rcases hm with rfl | rfl | rfl <;> simp) _ (neverTwice_increasingTimestamps _) _

/-- The same signed message is executed twice if its method does not save, or saves what it has
not loaded, and if an internal method or a constructor saves what it has not loaded in between. -/
theorem executed_twice :
    (∀ last, NeverTwice increasingTimestamps.check last) ∧
    (∀ (i : Interface) (ds : List (Delivery ℕ Unit)),
      (i, ds) ∈ [
        (counterInterface { id := 1 } { id := 2, noWritePersistent := true } { id := 3 },
          [signedMessage 1 0, signedMessage 2 5, signedMessage 2 5]),
        (counterInterface { id := 1 } { id := 2, noReadPersistent := true } { id := 3 },
          [signedMessage 1 0, signedMessage 2 5, signedMessage 2 5]),
        (counterInterface { id := 1 } { id := 2 } { id := 3, noReadPersistent := true },
          [signedMessage 1 0, signedMessage 2 5, internalMessage 3, signedMessage 2 5]),
        (counterInterface { id := 1, noReadPersistent := true } { id := 2 } { id := 3 },
          [signedMessage 1 0, signedMessage 2 5, signedMessage 1 0, signedMessage 2 5])] →
      ¬ ((executed i increasingTimestamps counter i.Checked ds undeployed).map Prod.snd).Nodup) := by
  refine ⟨neverTwice_increasingTimestamps, fun i ds h => ?_⟩
  simp only [List.mem_cons, Prod.mk.injEq, List.not_mem_nil, or_false] at h
  rcases h with ⟨rfl, rfl⟩ | ⟨rfl, rfl⟩ | ⟨rfl, rfl⟩ | ⟨rfl, rfl⟩ <;> decide

end Attributes

end TVMCompiler.Sdk
