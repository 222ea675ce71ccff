import TVMCompiler.Sdk.JsonAbi

/-!
# The text of an interface

The whole text that is published for a contract: its version, the header of its messages, its
methods, its persistent data and its events. The text is glued together from parts, each of which
decides about its own comma.

## Main definitions

* `Interface`: the attributes and the methods of an interface
* `makeHeader`, `makeDataFields`, `makeJsonAbi`: the published text
* `abiJson`: the value that the text holds

## Main results

* `reads_makeHeader`, `refused_makeHeader`: when the list of the header is one
* `readsFields_dataFields`, `refusesFields_dataFields`: when the list of the data fields is one
* `makeJsonAbi_wellFormed_iff`: when the text is JSON
-/

namespace TVMCompiler.Sdk.JsonAbi

open Lib

def ReturnTy.isResumable : ReturnTy → Bool
  | .resumable _ => true
  | _ => false

/-- What is published of an interface. -/
structure Interface where
  hasPubkey : Bool
  hasTimestamp : Bool
  hasExpire : Bool
  methods : List Method

/-- `interface_has_coroutines_v`. -/
def Interface.hasAwaiting (i : Interface) : Bool := i.methods.any fun m => m.rv.isResumable

/-! ## The published text -/

def makeAbiVersion : String := "\"ABI version\": 2,\n  \"version\": \"2.2.0\""

def makeHeaderPubkey (i : Interface) : String := if i.hasPubkey then "\n    \"pubkey\"," else ""

def makeHeaderTimestamp (i : Interface) : String := if i.hasTimestamp then "\n    \"time\"," else ""

def makeHeaderExpire (i : Interface) : String := if i.hasExpire then "\n    \"expire\"" else ""

def makeHeader (i : Interface) : String :=
  "\"header\": [" ++ makeHeaderPubkey i ++ makeHeaderTimestamp i ++ makeHeaderExpire i ++ "\n  ]"

def makeFunctionsBegin : String := "\"functions\": ["

def makeFunctionsEnd : String := "\n  ]"

def makeEventsBegin : String := "\"events\": ["

def makeEventsEnd : String := "\n  ]"

def uninitHdr : String := "    \x7b \"name\":\"__uninitialized\", \"type\":\"bool\" \x7d"

def awaitHdr : String :=
  "    \x7b \"name\":\"__await_next_id\", \"type\":\"uint32\" \x7d,\n" ++
    "    \x7b \"name\":\"__await_dict\", \"type\":\"optional(cell)\" \x7d"

/-- `make_data_fields_header`, for the state of the replay protection, which may be `void`. -/
def makeDataFieldsHeader (replay : Option AbiTy) (hasAwaiting isLast : Bool) : String :=
  match replay with
  | some persistent =>
    let replayHdr := makeFieldImpl 2 (isLast && hasAwaiting) "__replay" persistent
    if hasAwaiting then uninitHdr ++ ",\n" ++ replayHdr ++ awaitHdr ++ commaEndl isLast
    else uninitHdr ++ ",\n" ++ replayHdr
  | none =>
    if hasAwaiting then uninitHdr ++ ",\n" ++ awaitHdr ++ commaEndl isLast
    else uninitHdr ++ commaEndl isLast

def makeDataFields (i : Interface) (data : List (Identifier × AbiTy)) (replay : Option AbiTy) :
    String :=
  "\"fields\": [\n" ++ makeDataFieldsHeader replay i.hasAwaiting (data.length = 0) ++
    makeTupleJson 2 data ++ "  ]"

/-- `make_json_abi_impl`. -/
def makeJsonAbiImpl : List Method → String
  | [] => ""
  | [m] => makeFunctionJson m
  | m :: m' :: ms => makeFunctionJson m ++ ",\n" ++ makeJsonAbiImpl (m' :: ms)

def makeJsonAbi (i : Interface) (data : List (Identifier × AbiTy)) (events : List Method)
    (replay : Option AbiTy) : String :=
  "\x7b\n  " ++ makeAbiVersion ++ ",\n  " ++ makeHeader i ++ ",\n  " ++ makeFunctionsBegin ++
    "\n" ++ makeJsonAbiImpl i.methods ++ makeFunctionsEnd ++ ",\n  " ++
    makeDataFields i data replay ++ ",\n  " ++ makeEventsBegin ++ makeJsonAbiImpl events ++
    makeEventsEnd ++ "\n\x7d\n"

/-! ## The value that the text holds -/

def headerJson (i : Interface) : List Json :=
  (if i.hasPubkey then [.string "pubkey"] else []) ++
    (if i.hasTimestamp then [.string "time"] else []) ++
    if i.hasExpire then [.string "expire"] else []

def dataHeaderJson (replay : Option AbiTy) (hasAwaiting : Bool) : List Json :=
  simpleParam "__uninitialized" "bool" :: (replay.map (fieldJson "__replay")).toList ++
    if hasAwaiting then
      [simpleParam "__await_next_id" "uint32", simpleParam "__await_dict" "optional(cell)"]
    else []

def abiJson (i : Interface) (data : List (Identifier × AbiTy)) (events : List Method)
    (replay : Option AbiTy) : Json :=
  .object [("ABI version", .scalar "2"), ("version", .string "2.2.0"),
    ("header", .array (headerJson i)), ("functions", .array (i.methods.map functionJson)),
    ("fields", .array (dataHeaderJson replay i.hasAwaiting ++ fieldsJson data)),
    ("events", .array (events.map functionJson))]

/-! ## The header of messages -/

section Header

variable {name : String} {t : List Char} {l : List Json}

/-- A name with a comma behind it goes in front of further names. -/
theorem readsElements_cons_name (hname : Json.Plain name.toList) (h : Json.ReadsElements t l) :
    Json.ReadsElements (("\n    \"" ++ name ++ "\",").toList ++ t) (.string name :: l) := by
  have hcons := ((reads_text hname).blank (show Json.Blank "\n    ".toList by decide)).consElement
    (show Json.Blank [] by decide) h
  simpa using hcons

theorem refusedElements_cons_name (hname : Json.Plain name.toList) (h : Json.RefusedElements t) :
    Json.RefusedElements (("\n    \"" ++ name ++ "\",").toList ++ t) := by
  have hcons := ((reads_text hname).blank
    (show Json.Blank "\n    ".toList by decide)).consRefusedElement
      (show Json.Blank [] by decide) h
  simpa using hcons

/-- A list that begins with a name is refused if what follows is. -/
theorem refused_cons_name (hname : Json.Plain name.toList) (h : Json.RefusedElements t) :
    Json.Refused ('[' :: (("\n    \"" ++ name ++ "\",").toList ++ t)) := by
  have hfirst : ("\n    \"" ++ name ++ "\",").toList ++ t =
      "\n    ".toList ++ '"' :: ((name ++ "\",").toList ++ t) := by simp
  exact (refusedElements_cons_name hname h).array (show Json.Blank "\n    ".toList by decide)
    (show Json.isBlank '"' = false by decide) hfirst (by decide)

theorem makeHeaderPubkey_eq (i : Interface) : makeHeaderPubkey i =
    if i.hasPubkey then "\n    \"" ++ "pubkey" ++ "\"," else "" := by
  have htext : "\n    \"pubkey\"," = "\n    \"" ++ "pubkey" ++ "\"," := by decide
  rw [makeHeaderPubkey, htext]

theorem makeHeaderTimestamp_eq (i : Interface) : makeHeaderTimestamp i =
    if i.hasTimestamp then "\n    \"" ++ "time" ++ "\"," else "" := by
  have htext : "\n    \"time\"," = "\n    \"" ++ "time" ++ "\"," := by decide
  rw [makeHeaderTimestamp, htext]

theorem readsElements_pubkey (i : Interface) (h : Json.ReadsElements t l) :
    Json.ReadsElements ((makeHeaderPubkey i).toList ++ t)
      ((if i.hasPubkey then [.string "pubkey"] else []) ++ l) := by
  rw [makeHeaderPubkey_eq]
  split
  · exact readsElements_cons_name (show Json.Plain "pubkey".toList by decide) h
  · exact h

theorem readsElements_timestamp (i : Interface) (h : Json.ReadsElements t l) :
    Json.ReadsElements ((makeHeaderTimestamp i).toList ++ t)
      ((if i.hasTimestamp then [.string "time"] else []) ++ l) := by
  rw [makeHeaderTimestamp_eq]
  split
  · exact readsElements_cons_name (show Json.Plain "time".toList by decide) h
  · exact h

/-- `expire` is the only name that may come last. -/
theorem readsElements_expire :
    Json.ReadsElements "\n    \"expire\"\n  ]".toList [.string "expire"] := by
  have hlast := ((reads_text (show Json.Plain "expire".toList by decide)).blank
    (show Json.Blank "\n    ".toList by decide)).lastElement
      (show Json.Blank "\n  ".toList by decide)
  simpa using hlast

/-- The value of the member `header`. -/
def headerText (i : Interface) : List Char :=
  ' ' :: '[' :: ((makeHeaderPubkey i).toList ++ ((makeHeaderTimestamp i).toList ++
    ((makeHeaderExpire i).toList ++ "\n  ]".toList)))

theorem toList_makeHeader (i : Interface) (t : List Char) :
    (makeHeader i).toList ++ t = "\"header\":".toList ++ (headerText i ++ t) := by
  simp [makeHeader, headerText]

/-- **The header is a list** if its last name is `expire`, or if it has none. -/
theorem reads_makeHeader {i : Interface}
    (h : i.hasExpire = true ∨ i.hasPubkey = false ∧ i.hasTimestamp = false) :
    Json.Reads (headerText i) (.array (headerJson i)) := by
  refine @Json.Reads.blank _ [' '] _ (by decide) ?_
  by_cases hexpire : i.hasExpire = true
  · have helements := readsElements_pubkey i (readsElements_timestamp i readsElements_expire)
    have htext : makeHeaderExpire i = "\n    \"expire\"" := by rw [makeHeaderExpire, if_pos hexpire]
    have hjson : headerJson i = (if i.hasPubkey then [.string "pubkey"] else []) ++
        ((if i.hasTimestamp then [.string "time"] else []) ++ [.string "expire"]) := by
      rw [headerJson, if_pos hexpire, List.append_assoc]
    rw [htext, hjson]
    exact helements.array
  · -- without names there is nothing between the brackets
    obtain ⟨hpubkey, htime⟩ := h.resolve_left hexpire
    rw [Bool.not_eq_true] at hexpire
    simp only [makeHeaderPubkey, makeHeaderTimestamp, makeHeaderExpire, headerJson, hpubkey, htime,
      hexpire]
    exact Json.reads_array_nil (show Json.Blank "\n  ".toList by decide)

/-- Without `expire`, there is a comma behind the last name. -/
theorem refused_makeHeader {i : Interface} (hexpire : i.hasExpire = false)
    (h : i.hasPubkey = true ∨ i.hasTimestamp = true) : Json.Refused (headerText i) := by
  refine @Json.Refused.blank _ [' '] (by decide) ?_
  have hend : Json.RefusedElements "\n  ]".toList :=
    Json.refusedElements_bracket (show Json.Blank "\n  ".toList by decide)
  have hpubkey : Json.Plain "pubkey".toList := by decide
  have htime : Json.Plain "time".toList := by decide
  rw [makeHeaderPubkey_eq, makeHeaderTimestamp_eq, makeHeaderExpire, hexpire]
  cases hp : i.hasPubkey with
  | true =>
    cases ht : i.hasTimestamp with
    | true => exact refused_cons_name hpubkey (refusedElements_cons_name htime hend)
    | false => exact refused_cons_name hpubkey hend
  | false =>
    have ht : i.hasTimestamp = true := h.resolve_left (by rw [hp]; exact Bool.false_ne_true)
    rw [ht]
    exact refused_cons_name htime hend

end Header

/-! ## The persistent data -/

section DataFields

theorem readsField_uninitHdr :
    ReadsField (uninitHdr ++ commaEndl ·) (simpleParam "__uninitialized" "bool") := by
  refine ⟨uninitHdr, fun _ => rfl, ?_⟩
  have hobject := (readsMembers_simple (show Json.Plain "__uninitialized".toList by decide)
    (show Json.Plain "bool".toList by decide)).object.blank (blank_makeOffset 2)
  simpa [uninitHdr, makeOffset, simpleParam] using hobject

/-- The first field of the contracts that await answers. -/
def awaitNextId (isLast : Bool) : String :=
  makeOffset 2 ++ "\x7b \"name\":\"" ++ "__await_next_id" ++ "\", \"type\":\"" ++ "uint32" ++
    "\" \x7d" ++ commaEndl isLast

def awaitDict (isLast : Bool) : String :=
  makeOffset 2 ++ "\x7b \"name\":\"" ++ "__await_dict" ++ "\", \"type\":\"" ++ "optional(cell)" ++
    "\" \x7d" ++ commaEndl isLast

theorem awaitHdr_append (isLast : Bool) :
    awaitHdr ++ commaEndl isLast = awaitNextId false ++ awaitDict isLast := by
  have hawait : awaitHdr = awaitNextId false ++ (makeOffset 2 ++ "\x7b \"name\":\"" ++
      "__await_dict" ++ "\", \"type\":\"" ++ "optional(cell)" ++ "\" \x7d") := by decide
  rw [hawait, awaitDict, String.append_assoc]

theorem readsField_awaitNextId :
    ReadsField awaitNextId (simpleParam "__await_next_id" "uint32") :=
  readsField_simple 2 (by decide) (by decide)

theorem readsField_awaitDict :
    ReadsField awaitDict (simpleParam "__await_dict" "optional(cell)") :=
  readsField_simple 2 (by decide) (by decide)

/-- A field in front of the fields of the data. -/
theorem ReadsField.cons_data {makeField : Bool → String} {j : Json} (h : ReadsField makeField j)
    (data : List (Identifier × AbiTy)) :
    ReadsFields (makeField (data.length = 0) ++ makeTupleJson 2 data) (j :: fieldsJson data) := by
  cases data with
  | nil =>
    have hlast : decide (([] : List (Identifier × AbiTy)).length = 0) = true := rfl
    rw [hlast, makeTupleJson, String.append_empty]
    exact h.last
  | cons field data =>
    have hcons : decide ((field :: data).length = 0) = false := rfl
    rw [hcons]
    exact h.cons (readsFields_makeTupleJson 2 (field :: data) (List.cons_ne_nil _ _))

theorem readsFields_awaitHdr (data : List (Identifier × AbiTy)) :
    ReadsFields (awaitHdr ++ commaEndl (data.length = 0) ++ makeTupleJson 2 data)
      (simpleParam "__await_next_id" "uint32" ::
        simpleParam "__await_dict" "optional(cell)" :: fieldsJson data) := by
  rw [awaitHdr_append, String.append_assoc]
  exact readsField_awaitNextId.cons (readsField_awaitDict.cons_data data)

theorem commaEndl_false : commaEndl false = ",\n" := rfl

/-- **The fields are a list** without replay protection, or if there is data. -/
theorem readsFields_dataFields {replay : Option AbiTy} (hasAwaiting : Bool)
    {data : List (Identifier × AbiTy)} (h : replay = none ∨ data ≠ []) :
    ReadsFields (makeDataFieldsHeader replay hasAwaiting (data.length = 0) ++ makeTupleJson 2 data)
      (dataHeaderJson replay hasAwaiting ++ fieldsJson data) := by
  cases replay with
  | none =>
    cases hasAwaiting with
    | false => exact readsField_uninitHdr.cons_data data
    | true =>
      have hcons := readsField_uninitHdr.cons (readsFields_awaitHdr data)
      rw [commaEndl_false] at hcons
      simp only [← String.append_assoc] at hcons
      exact hcons
  | some persistent =>
    have hdata : data ≠ [] := h.resolve_left (Option.some_ne_none _)
    have hlast : decide (data.length = 0) = false :=
      decide_eq_false fun hlen => hdata (List.length_eq_zero_iff.mp hlen)
    have hreplay := readsField_makeFieldImpl 2 (show Json.Plain "__replay".toList by decide)
      persistent
    rw [hlast]
    cases hasAwaiting with
    | false =>
      have hfields := readsFields_makeTupleJson 2 data hdata
      have hcons := readsField_uninitHdr.cons (hreplay.cons hfields)
      rw [commaEndl_false] at hcons
      simp only [← String.append_assoc] at hcons
      exact hcons
    | true =>
      have hcons := readsField_uninitHdr.cons (hreplay.cons (readsFields_awaitHdr data))
      rw [commaEndl_false, hlast] at hcons
      simp only [← String.append_assoc] at hcons
      exact hcons

/-- The fields of a struct are refused. -/
def RefusesFields (text : String) : Prop :=
  ∀ ws tail : List Char, Json.Blank ws → Json.Blank tail →
    Json.RefusedElements (ws ++ (text.toList ++ (tail ++ [']'])))

theorem ReadsField.consRefuses {makeField : Bool → String} {j : Json}
    (h : ReadsField makeField j) {text : String} (h' : RefusesFields text) :
    RefusesFields (makeField false ++ text) := by
  obtain ⟨text', htext', hread⟩ := h
  intro ws tail hws htail
  have hcons := (hread.blank hws).consRefusedElement (show Json.Blank [] by decide)
    (h' ['\n'] tail (by decide) htail)
  rw [htext']
  simpa [commaEndl] using hcons

theorem ReadsField.trailingComma {makeField : Bool → String} {j : Json}
    (h : ReadsField makeField j) : RefusesFields (makeField false) := by
  obtain ⟨text, htext, hread⟩ := h
  intro ws tail hws htail
  have hcomma := (hread.blank hws).trailingComma (show Json.Blank [] by decide)
    (List.forall_mem_cons.mpr ⟨by decide, htail⟩ : Json.Blank ('\n' :: tail))
  rw [htext]
  simpa [commaEndl] using hcomma

theorem ReadsField.missingComma {makeField : Bool → String} {j : Json}
    (h : ReadsField makeField j) {text : String} {ws t : List Char} (hblank : Json.Blank ws)
    (htext : text.toList = ws ++ '\x7b' :: t) : RefusesFields (makeField true ++ text) := by
  obtain ⟨text', htext', hread⟩ := h
  intro ws' tail hws' _
  have hends : Json.Blank ('\n' :: ws) := List.forall_mem_cons.mpr ⟨by decide, hblank⟩
  have hmissing := ((hread.blank hws').missingComma hends
    (show Json.isBlank '\x7b' = false by decide) (by decide) (by decide)).append
      (t ++ (tail ++ [']']))
  rw [htext']
  simpa [commaEndl, htext] using hmissing

/-- With replay protection and without data, a comma is missing or there is one too many. -/
theorem refusesFields_dataFields (persistent : AbiTy) (hasAwaiting : Bool) :
    RefusesFields (makeDataFieldsHeader (some persistent) hasAwaiting true) := by
  have hreplay := readsField_makeFieldImpl 2 (show Json.Plain "__replay".toList by decide)
    persistent
  cases hasAwaiting with
  | false =>
    have hcons := readsField_uninitHdr.consRefuses hreplay.trailingComma
    rw [commaEndl_false] at hcons
    exact hcons
  | true =>
    have hawait : (awaitHdr ++ commaEndl true).toList =
        "    ".toList ++ '\x7b' :: (awaitHdr ++ commaEndl true).toList.drop 5 := by decide
    have hcons := readsField_uninitHdr.consRefuses
      (hreplay.missingComma (show Json.Blank "    ".toList by decide) hawait)
    rw [commaEndl_false] at hcons
    simp only [← String.append_assoc] at hcons
    exact hcons

/-- Every header of the data begins with the same field. -/
theorem exists_makeDataFieldsHeader (replay : Option AbiTy) (hasAwaiting isLast : Bool) :
    ∃ text : String, makeDataFieldsHeader replay hasAwaiting isLast = uninitHdr ++ text := by
  cases replay with
  | none =>
    cases hasAwaiting with
    | false => exact ⟨commaEndl isLast, rfl⟩
    | true =>
      refine ⟨",\n" ++ (awaitHdr ++ commaEndl isLast), ?_⟩
      simp only [← String.append_assoc]
      rfl
  | some persistent =>
    cases hasAwaiting with
    | false =>
      refine ⟨",\n" ++ makeFieldImpl 2 (isLast && false) "__replay" persistent, ?_⟩
      rw [← String.append_assoc]
      rfl
    | true =>
      refine ⟨",\n" ++ (makeFieldImpl 2 (isLast && true) "__replay" persistent ++
        (awaitHdr ++ commaEndl isLast)), ?_⟩
      simp only [← String.append_assoc]
      rfl

end DataFields

/-! ## The whole text -/

section Text

theorem readsFields_makeJsonAbiImpl : ∀ methods : List Method, methods ≠ [] →
    ReadsFields (makeJsonAbiImpl methods) (methods.map functionJson)
  | [m], _ => by
    intro ws tail hws htail
    have hlast := ((reads_makeFunctionJson m).blank hws).lastElement htail
    rwa [List.append_assoc] at hlast
  | m :: m' :: methods, _ => by
    intro ws tail hws htail
    have hrest := readsFields_makeJsonAbiImpl (m' :: methods) (List.cons_ne_nil _ _)
    have hcons := ((reads_makeFunctionJson m).blank hws).consElement (show Json.Blank [] by decide)
      (hrest ['\n'] tail (by decide) htail)
    simpa [makeJsonAbiImpl] using hcons

theorem readsRow_makeJsonAbiImpl (methods : List Method) :
    ReadsRow (makeJsonAbiImpl methods) (methods.map functionJson) := by
  by_cases hnil : methods = []
  · subst hnil
    exact .inl ⟨rfl, rfl⟩
  · exact .inr (readsFields_makeJsonAbiImpl methods hnil)

/-- The value of a member that is a list. -/
def listText (ws : List Char) (text : String) (tail : List Char) : List Char :=
  ' ' :: '[' :: (ws ++ (text.toList ++ (tail ++ [']'])))

theorem ReadsRow.list {text : String} {l : List Json} (h : ReadsRow text l) {ws tail : List Char}
    (hws : Json.Blank ws) (htail : Json.Blank tail) :
    Json.Reads (listText ws text tail) (.array l) := by
  refine @Json.Reads.blank _ [' '] _ (by decide) ?_
  rcases h with ⟨rfl, rfl⟩ | h
  · rw [String.toList_empty, List.nil_append, ← List.append_assoc]
    exact Json.reads_array_nil (List.forall_mem_append.mpr ⟨hws, htail⟩)
  · exact (h ws tail hws htail).array

/-- The text of the fields, between the brackets. -/
def dataFieldsText (i : Interface) (data : List (Identifier × AbiTy)) (replay : Option AbiTy) :
    String :=
  makeDataFieldsHeader replay i.hasAwaiting (data.length = 0) ++ makeTupleJson 2 data

/-- The versions in front of the members `t`. -/
def versionsText (t : List Char) : List Char :=
  "\n  ".toList ++ ('"' :: "ABI version".toList ++ ('"' :: ':' :: (" 2".toList ++ ([] ++ ',' ::
    ("\n  ".toList ++ ('"' :: "version".toList ++ ('"' :: ':' :: (" \"2.2.0\"".toList ++
      ([] ++ ',' :: t)))))))))

/-- What stands in front of the text `t` of the header, and what stands behind it. -/
def aroundHeader (t t' : List Char) : List Char :=
  versionsText ("\n  ".toList ++ ('"' :: "header".toList ++ ('"' :: ':' :: (t ++ t'))))

def eventsText (events : List Method) : List Char :=
  "\n  ".toList ++ ('"' :: "events".toList ++ ('"' :: ':' ::
    (listText [] (makeJsonAbiImpl events) "\n  ".toList ++ (['\n'] ++ ['\x7d']))))

/-- What stands in front of the text `t` of the fields, and what stands behind it. -/
def aroundFields (i : Interface) (t t' : List Char) : List Char :=
  "\n  ".toList ++ ('"' :: "functions".toList ++ ('"' :: ':' ::
    (listText ['\n'] (makeJsonAbiImpl i.methods) "\n  ".toList ++ ([] ++ ',' ::
      ("\n  ".toList ++ ('"' :: "fields".toList ++ ('"' :: ':' :: (t ++ t'))))))))

theorem toList_makeDataFields (i : Interface) (data : List (Identifier × AbiTy))
    (replay : Option AbiTy) (t : List Char) :
    (makeDataFields i data replay).toList ++ t = "\"fields\":".toList ++
      (listText ['\n'] (dataFieldsText i data replay) "  ".toList ++ t) := by
  simp [makeDataFields, listText, dataFieldsText]

theorem toList_makeJsonAbi (i : Interface) (data : List (Identifier × AbiTy))
    (events : List Method) (replay : Option AbiTy) :
    (makeJsonAbi i data events replay).toList = '\x7b' :: aroundHeader (headerText i) ([] ++ ',' ::
      aroundFields i (listText ['\n'] (dataFieldsText i data replay) "  ".toList)
        ([] ++ ',' :: eventsText events)) ++ ['\n'] := by
  have hheader := toList_makeHeader i
  have hfields := toList_makeDataFields i data replay
  unfold makeJsonAbi
  -- what stands in the two lists does not matter
  generalize makeHeader i = header at hheader
  generalize makeDataFields i data replay = fields at hfields
  simp [hheader, hfields, makeAbiVersion, makeFunctionsBegin, makeFunctionsEnd, makeEventsBegin,
    makeEventsEnd, versionsText, aroundHeader, aroundFields, eventsText, listText]

theorem readsMembers_events (events : List Method) :
    Json.ReadsMembers (eventsText events) [("events", .array (events.map functionJson))] :=
  ((readsRow_makeJsonAbiImpl events).list (by decide) (by decide)).lastMember (by decide)
    (by decide) (by decide)

theorem reads_functions (i : Interface) :
    Json.Reads (listText ['\n'] (makeJsonAbiImpl i.methods) "\n  ".toList)
      (.array (i.methods.map functionJson)) :=
  (readsRow_makeJsonAbiImpl i.methods).list (by decide) (by decide)

theorem readsBefore_abiVersion : Json.ReadsBefore [','] " 2".toList (.scalar "2") :=
  (Json.readsBefore_scalar (by decide) (List.all_eq_true.mp rfl) (by decide) []).blank
    (show Json.Blank [' '] by decide)

theorem reads_version : Json.Reads " \"2.2.0\"".toList (.string "2.2.0") :=
  (reads_text (show Json.Plain "2.2.0".toList by decide)).blank (show Json.Blank [' '] by decide)

theorem readsMembers_versionsText {t : List Char} {l : List (String × Json)}
    (h : Json.ReadsMembers t l) : Json.ReadsMembers (versionsText t)
      (("ABI version", .scalar "2") :: ("version", .string "2.2.0") :: l) :=
  readsBefore_abiVersion.consMember (by decide) (by decide) (by decide)
    (reads_version.consMember (by decide) (by decide) (by decide) h)

theorem refusedMembers_versionsText {t : List Char} (h : Json.RefusedMembers t) :
    Json.RefusedMembers (versionsText t) :=
  readsBefore_abiVersion.consRefusedMember (by decide) (by decide) (by decide)
    (reads_version.consRefusedMember (by decide) (by decide) (by decide) h)

theorem readsMembers_makeJsonAbi {i : Interface} {data : List (Identifier × AbiTy)}
    {events : List Method} {header fields : List Char} {replay : Option AbiTy}
    (hheader : Json.Reads header (.array (headerJson i)))
    (hfields : Json.Reads fields
      (.array (dataHeaderJson replay i.hasAwaiting ++ fieldsJson data))) :
    Json.Reads ('\x7b' :: aroundHeader header ([] ++ ',' ::
      aroundFields i fields ([] ++ ',' :: eventsText events))) (abiJson i data events replay) := by
  have hmembers := hfields.consMember (show Json.Plain "fields".toList by decide)
    (show Json.Blank "\n  ".toList by decide) (show Json.Blank [] by decide)
    (readsMembers_events events)
  have hfunctions := (reads_functions i).consMember (show Json.Plain "functions".toList by decide)
    (show Json.Blank "\n  ".toList by decide) (show Json.Blank [] by decide) hmembers
  exact (readsMembers_versionsText (hheader.consMember (by decide) (by decide) (by decide)
    hfunctions)).object

/-- A text that is refused in front refuses the interface. -/
theorem refused_versionsText {t : List Char} (h : Json.RefusedMembers t) :
    Json.Refused ('\x7b' :: versionsText t) :=
  (refusedMembers_versionsText h).object (show Json.Blank "\n  ".toList by decide)
    (show Json.isBlank '"' = false by decide) rfl (by decide)

theorem refused_header {header t : List Char} (h : Json.Refused header) :
    Json.Refused ('\x7b' :: aroundHeader header t) :=
  refused_versionsText ((h.append t).member (by decide) (by decide))

theorem refused_fields {i : Interface} {header fields t : List Char}
    (hheader : Json.Reads header (.array (headerJson i))) (h : Json.Refused fields) :
    Json.Refused ('\x7b' :: aroundHeader header ([] ++ ',' :: aroundFields i fields t)) := by
  have hfunctions := (reads_functions i).consRefusedMember
    (show Json.Plain "functions".toList by decide) (show Json.Blank "\n  ".toList by decide)
    (show Json.Blank [] by decide) ((h.append t).member (show Json.Plain "fields".toList by decide)
      (show Json.Blank "\n  ".toList by decide))
  exact refused_versionsText
    (hheader.consRefusedMember (by decide) (by decide) (by decide) hfunctions)

theorem reads_dataFieldsText (i : Interface) {data : List (Identifier × AbiTy)}
    {replay : Option AbiTy} (h : replay = none ∨ data ≠ []) :
    Json.Reads (listText ['\n'] (dataFieldsText i data replay) "  ".toList)
      (.array (dataHeaderJson replay i.hasAwaiting ++ fieldsJson data)) :=
  ReadsRow.list (.inr (readsFields_dataFields i.hasAwaiting h)) (by decide) (by decide)

theorem refused_dataFieldsText (i : Interface) (persistent : AbiTy) :
    Json.Refused (listText ['\n'] (dataFieldsText i [] (some persistent)) "  ".toList) := by
  have hrefused := refusesFields_dataFields persistent i.hasAwaiting ['\n'] "  ".toList
    (by decide) (by decide)
  obtain ⟨text, htext⟩ := exists_makeDataFieldsHeader (some persistent) i.hasAwaiting true
  have hfirst : uninitHdr.toList = "    ".toList ++ '\x7b' :: uninitHdr.toList.drop 5 := by decide
  have hdata : dataFieldsText i [] (some persistent) =
      makeDataFieldsHeader (some persistent) i.hasAwaiting true := String.append_empty
  rw [hdata]
  refine @Json.Refused.blank _ [' '] (by decide) (hrefused.array
    (show Json.Blank "\n    ".toList by decide) (show Json.isBlank '\x7b' = false by decide)
      (?_ : _ = _ ++ '\x7b' :: (uninitHdr.toList.drop 5 ++ (text.toList ++ ("  ".toList ++ [']']))))
      (by decide))
  rw [htext, String.toList_append, hfirst]
  simp

theorem parse_makeJsonAbi {i : Interface} {data : List (Identifier × AbiTy)}
    (events : List Method) {replay : Option AbiTy}
    (hheader : i.hasExpire = true ∨ i.hasPubkey = false ∧ i.hasTimestamp = false)
    (hdata : replay = none ∨ data ≠ []) :
    Json.parse (makeJsonAbi i data events replay) = some (abiJson i data events replay) :=
  (readsMembers_makeJsonAbi (reads_makeHeader hheader)
    (reads_dataFieldsText i hdata)).parse_append (show Json.Blank ['\n'] by decide)
      (toList_makeJsonAbi i data events replay)

/-- A comma behind the last name of the header. -/
theorem parse_makeJsonAbi_of_header {i : Interface} (data : List (Identifier × AbiTy))
    (events : List Method) (replay : Option AbiTy) (hexpire : i.hasExpire = false)
    (h : i.hasPubkey = true ∨ i.hasTimestamp = true) :
    Json.parse (makeJsonAbi i data events replay) = none :=
  (refused_header (refused_makeHeader hexpire h)).parse (toList_makeJsonAbi i data events replay)

/-- Replay protection without data. -/
theorem parse_makeJsonAbi_of_fields {i : Interface} (events : List Method) (persistent : AbiTy)
    (hheader : i.hasExpire = true ∨ i.hasPubkey = false ∧ i.hasTimestamp = false) :
    Json.parse (makeJsonAbi i [] events (some persistent)) = none :=
  (refused_fields (reads_makeHeader hheader) (refused_dataFieldsText i persistent)).parse
    (toList_makeJsonAbi i [] events (some persistent))

/-- **The published text is JSON** exactly when the header ends with `expire` or is empty, and the
persistent data has fields unless there is no replay protection. -/
theorem makeJsonAbi_wellFormed_iff (i : Interface) (data : List (Identifier × AbiTy))
    (events : List Method) (replay : Option AbiTy) :
    Json.WellFormed (makeJsonAbi i data events replay) ↔
      (i.hasExpire = true ∨ i.hasPubkey = false ∧ i.hasTimestamp = false) ∧
        (replay = none ∨ data ≠ []) := by
  constructor
  · rintro ⟨j, hj⟩
    have hheader : i.hasExpire = true ∨ i.hasPubkey = false ∧ i.hasTimestamp = false := by
      by_contra hnot
      rw [not_or, Bool.not_eq_true] at hnot
      -- some name of the header is not the last one that it could be
      have hname : i.hasPubkey = true ∨ i.hasTimestamp = true := by
        by_contra hnames
        rw [not_or, Bool.not_eq_true, Bool.not_eq_true] at hnames
        exact hnot.2 hnames
      rw [parse_makeJsonAbi_of_header data events replay hnot.1 hname] at hj
      cases hj
    refine ⟨hheader, ?_⟩
    cases replay with
    | none => exact .inl rfl
    | some persistent =>
      refine .inr fun hdata => ?_
      rw [hdata, parse_makeJsonAbi_of_fields events persistent hheader] at hj
      cases hj
  · rintro ⟨hheader, hdata⟩
    exact ⟨_, parse_makeJsonAbi events hheader hdata⟩

/-- An interface whose messages carry the public key only. -/
def pubkeyInterface : Interface := ⟨true, false, false, []⟩

/-- An interface without header and without methods. -/
def bareInterface : Interface := ⟨false, false, false, []⟩

/-- Two interfaces with bad commas: behind `pubkey`, and behind the field of the replay
protection. -/
theorem makeJsonAbi_not_wellFormed :
    ¬Json.WellFormed (makeJsonAbi pubkeyInterface [] [] none) ∧
      ¬Json.WellFormed (makeJsonAbi bareInterface [] [] (some (.simple (.uint 64)))) := by
  constructor
  · rintro ⟨j, hj⟩
    rw [parse_makeJsonAbi_of_header [] [] none rfl (.inl rfl)] at hj
    cases hj
  · rintro ⟨j, hj⟩
    rw [parse_makeJsonAbi_of_fields [] _ (.inr ⟨rfl, rfl⟩)] at hj
    cases hj

end Text

end TVMCompiler.Sdk.JsonAbi
