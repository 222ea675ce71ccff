import TVMCompiler.Lib.Json

/-!
# The published interface

The types of an interface, and the JSON text that is published for a method: its name, and its
inputs and outputs with their types. A struct is published as a `tuple` with its fields as
components, and so are an array and an optional value of a struct.

## Main definitions

* `AbiTy`, `Method`: the types and the methods of an interface
* `makeSimpleType`: the text of a type
* `makeFieldImpl`, `makeFunctionJson`: the published text
* `functionJson`: the entry that the text holds

## Main results

* `parse_makeFunctionJson`: the published text is read as the entry
-/

namespace TVMCompiler.Sdk.JsonAbi

open Lib

/-! ## Types and methods -/

inductive SimpleTy where
  | int (bitlen : ℕ)
  | uint (bitlen : ℕ)
  | bool
  | varuint16
  | varuint32
  | varint16
  | varint32
  | msgAddress
  | msgAddressInt
  | msgAddressExt
  | addrStdCompact
  | cell
  | optcell
  | bytes
  | string

inductive MapKind where
  | dictMap
  | smallDictMap

/-- A name in the interface. -/
structure Identifier where
  name : String
  plain : Json.Plain name.toList

/-- The types of an interface. `dictArray` has indices of 32 bits. -/
inductive AbiTy where
  | simple (t : SimpleTy)
  | dictArray (element : AbiTy)
  | map (kind : MapKind) (key value : AbiTy)
  | optional (t : AbiTy)
  | lazy (t : AbiTy)
  | struct (fields : List (Identifier × AbiTy))

inductive ReturnTy where
  | void
  | value (t : AbiTy)
  | resumable (r : ReturnTy)

/-- What is published of a method. An id of zero is not specified, and a missing name of the
result is empty. -/
structure Method where
  name : Identifier
  args : List (Identifier × AbiTy)
  rv : ReturnTy
  returnName : Identifier
  internal : Bool
  answerId : Bool
  funcId : ℕ
  implicitFuncId : Bool

/-- Only internal methods take the id of the answer. -/
def Method.hasAnswerId (m : Method) : Bool := m.internal && m.answerId

/-! ## Texts of types -/

def SimpleTy.text : SimpleTy → String
  | .int bitlen => "int" ++ toString bitlen
  | .uint bitlen => if bitlen = 1 then "bool" else "uint" ++ toString bitlen
  | .bool => "bool"
  | .varuint16 => "varuint16"
  | .varuint32 => "varuint32"
  | .varint16 => "varint16"
  | .varint32 => "varint32"
  | .msgAddress | .msgAddressInt | .msgAddressExt | .addrStdCompact => "address"
  | .cell => "cell"
  | .optcell => "optional(cell)"
  | .bytes => "bytes"
  | .string => "string"

/-- `is_tuple_type`. -/
def AbiTy.isTupleType : AbiTy → Bool
  | .struct _ => true
  | _ => false

/-- `make_map_type`, for the texts of the key and the value. -/
def makeMapType (key value : String) : String :=
  if key = "unknown" ∨ value = "unknown" then "optional(cell)"
  else "map(" ++ key ++ "," ++ value ++ ")"

/-- `make_simple_type`. A struct has no text of its own. -/
def makeSimpleType : AbiTy → String
  | .simple t => t.text
  | .dictArray element =>
    if element.isTupleType then "tuple[]" else makeSimpleType element ++ "[]"
  | .map _ key value => makeMapType (makeSimpleType key) (makeSimpleType value)
  | .optional t => "optional(" ++ makeSimpleType t ++ ")"
  | .lazy t => makeSimpleType t
  | .struct _ => "unknown"

def hasSimpleType (t : AbiTy) : Bool := makeSimpleType t ≠ "unknown"

/-! ## The published text -/

def commaEndl (isLast : Bool) : String := if isLast then "\n" else ",\n"

def makeOffset : ℕ → String
  | 0 => ""
  | offset + 1 => "  " ++ makeOffset offset

/-- The text of a parameter with components. -/
def tupleField (offset : ℕ) (isLast : Bool) (components name type : String) : String :=
  makeOffset offset ++ "\x7b \"components\":" ++ components ++ ", \"name\":\"" ++ name ++
    "\", \"type\":\"" ++ type ++ "\" \x7d" ++ commaEndl isLast

/-- `make_struct_components`, for the text of the fields. -/
def makeStructComponents (offset : ℕ) (fields : String) : String :=
  "[\n" ++ fields ++ makeOffset offset ++ "]"

mutual

/-- `make_field_impl`. -/
def makeFieldImpl (offset : ℕ) (isLast : Bool) (name : String) : AbiTy → String
  | .dictArray (.struct fields) =>
    tupleField offset isLast (makeStructComponents offset (makeTupleJson (offset + 1) fields)) name
      "tuple[]"
  | .struct fields =>
    tupleField offset isLast (makeStructComponents offset (makeTupleJson (offset + 1) fields)) name
      "tuple"
  | .optional (.struct fields) =>
    tupleField offset isLast (makeStructComponents offset (makeTupleJson (offset + 1) fields)) name
      "optional(tuple)"
  | t =>
    makeOffset offset ++ "\x7b \"name\":\"" ++ name ++ "\", \"type\":\"" ++ makeSimpleType t ++
      "\" \x7d" ++ commaEndl isLast

/-- `make_tuple_json`, for the fields of a struct. -/
def makeTupleJson (offset : ℕ) : List (Identifier × AbiTy) → String
  | [] => ""
  | [(name, t)] => makeFieldImpl offset true name.name t
  | (name, t) :: field :: fields =>
    makeFieldImpl offset false name.name t ++ makeTupleJson offset (field :: fields)

end

def makeReturnName (returnName : String) : String :=
  if returnName = "" then "value0" else returnName

/-- `make_struct_json`, for a result. -/
def makeStructJson (offset : ℕ) (returnName : String) : ReturnTy → String
  | .void => ""
  | .value (.struct fields) => makeTupleJson offset fields
  | .value t => makeFieldImpl offset true (makeReturnName returnName) t
  | .resumable r => makeStructJson offset returnName r

def makeInputsPrefix (hasAnswerId : Bool) (argsSize : ℕ) : String :=
  if hasAnswerId then
    "\"inputs\": [\n    \x7b \"name\":\"_answer_id\", \"type\":\"uint32\" \x7d" ++
      if argsSize = 0 then "\n" else ",\n"
  else "\"inputs\": [\n"

def makeFunctionInputs (m : Method) : String :=
  makeInputsPrefix m.hasAnswerId m.args.length ++ makeTupleJson 2 m.args ++ "    ]"

def makeFunctionOutputs (m : Method) : String :=
  "\"outputs\": [\n" ++ makeStructJson 2 m.returnName.name m.rv ++ "    ]"

def hexText (n : ℕ) : String := .ofList (Nat.toDigits 16 n)

/-- An id that is not specified, or marked as implicit, is not published. -/
def makeFunctionId (m : Method) : String :=
  if m.funcId ≠ 0 ∧ ¬ (m.implicitFuncId ∨ m.funcId = 0) then
    ",\n    \"id\": \"0x" ++ hexText m.funcId ++ "\""
  else ""

/-- `make_function_json`: the entry of the method in the list of functions. -/
def makeFunctionJson (m : Method) : String :=
  "  \x7b\n    " ++ ("\"name\": \"" ++ m.name.name ++ "\"") ++ ",\n    " ++ makeFunctionInputs m ++
    ",\n    " ++ makeFunctionOutputs m ++ makeFunctionId m ++ "\n  \x7d"

/-! ## The entry that the text holds -/

/-- A parameter with components. -/
def tupleParam (components : List Json) (name type : String) : Json :=
  .object [("components", .array components), ("name", .string name), ("type", .string type)]

def simpleParam (name type : String) : Json :=
  .object [("name", .string name), ("type", .string type)]

mutual

/-- The parameter of a field. -/
def fieldJson (name : String) : AbiTy → Json
  | .dictArray (.struct fields) => tupleParam (fieldsJson fields) name "tuple[]"
  | .struct fields => tupleParam (fieldsJson fields) name "tuple"
  | .optional (.struct fields) => tupleParam (fieldsJson fields) name "optional(tuple)"
  | t => simpleParam name (makeSimpleType t)

def fieldsJson : List (Identifier × AbiTy) → List Json
  | [] => []
  | (name, t) :: fields => fieldJson name.name t :: fieldsJson fields

end

def inputsJson (m : Method) : List Json :=
  if m.hasAnswerId then simpleParam "_answer_id" "uint32" :: fieldsJson m.args
  else fieldsJson m.args

def outputsJson (returnName : String) : ReturnTy → List Json
  | .void => []
  | .value (.struct fields) => fieldsJson fields
  | .value t => [fieldJson (makeReturnName returnName) t]
  | .resumable r => outputsJson returnName r

def idMember (m : Method) : List (String × Json) :=
  if m.funcId ≠ 0 ∧ ¬ (m.implicitFuncId ∨ m.funcId = 0) then
    [("id", .string ("0x" ++ hexText m.funcId))]
  else []

def functionJson (m : Method) : Json :=
  .object ([("name", .string m.name.name), ("inputs", .array (inputsJson m)),
    ("outputs", .array (outputsJson m.returnName.name m.rv))] ++ idMember m)

/-! ## Texts need no escapes -/

theorem plain_append {s s' : String} (h : Json.Plain s.toList) (h' : Json.Plain s'.toList) :
    Json.Plain (s ++ s').toList := by
  rw [String.toList_append]
  exact List.forall_mem_append.mpr ⟨h, h'⟩

theorem plain_toString (n : ℕ) : Json.Plain (toString n).toList := by
  intro c hc
  rw [show (toString n).toList = Nat.toDigits 10 n from String.toList_ofList] at hc
  have hdigit : c.isDigit = true := Nat.isDigit_of_mem_toDigits (by decide) (by decide) hc
  refine ⟨?_, ?_, ?_⟩
  · rintro rfl
    exact absurd hdigit (by decide)
  · rintro rfl
    exact absurd hdigit (by decide)
  · -- digits come after the control characters
    have hlow : '0'.toNat ≤ c.toNat := by
      simp only [Char.isDigit, Bool.and_eq_true, decide_eq_true_eq] at hdigit
      exact hdigit.1
    exact decide_eq_false (Nat.not_lt.mpr (Nat.le_trans (by decide) hlow))

theorem SimpleTy.plain_text (t : SimpleTy) : Json.Plain t.text.toList := by
  cases t with
  | int bitlen => exact plain_append (by decide) (plain_toString bitlen)
  | uint bitlen =>
    by_cases hbool : bitlen = 1
    · rw [SimpleTy.text, if_pos hbool]
      decide
    · rw [SimpleTy.text, if_neg hbool]
      exact plain_append (by decide) (plain_toString bitlen)
  | _ => decide

theorem plain_makeSimpleType : ∀ t : AbiTy, Json.Plain (makeSimpleType t).toList
  | .simple t => t.plain_text
  | .dictArray element => by
    unfold makeSimpleType
    split
    · decide
    · exact plain_append (plain_makeSimpleType element) (by decide)
  | .map _ key value => by
    unfold makeSimpleType makeMapType
    split
    · decide
    · exact plain_append (plain_append (plain_append (plain_append (by decide)
        (plain_makeSimpleType key)) (by decide)) (plain_makeSimpleType value)) (by decide)
  | .optional t => plain_append (plain_append (by decide) (plain_makeSimpleType t)) (by decide)
  | .lazy t => plain_makeSimpleType t
  | .struct _ => (by decide : Json.Plain "unknown".toList)

theorem exists_digitChar {b : ℕ} : ∀ (fuel n : ℕ) {l : List Char},
    (∀ c ∈ l, ∃ k, c = Nat.digitChar k) → ∀ c ∈ Nat.toDigitsCore b fuel n l, ∃ k, c = Nat.digitChar k
  | 0, _, _, hl => hl
  | fuel + 1, n, l, hl => by
    have hcons : ∀ c ∈ Nat.digitChar (n % b) :: l, ∃ k, c = Nat.digitChar k :=
      List.forall_mem_cons.mpr ⟨⟨_, rfl⟩, hl⟩
    rw [Nat.toDigitsCore]
    split
    · exact hcons
    · exact exists_digitChar fuel (n / b) hcons

theorem plain_hexText (n : ℕ) : Json.Plain (hexText n).toList := by
  intro c hc
  rw [hexText, String.toList_ofList] at hc
  obtain ⟨k, rfl⟩ := exists_digitChar _ n (List.forall_mem_nil _) c hc
  refine ⟨Nat.digitChar_ne '"' (by decide), Nat.digitChar_ne '\\' (by decide), ?_⟩
  by_cases hk : k < 16
  · have hdigits : ∀ k < 16, Json.isControl (Nat.digitChar k) = false := by decide
    exact hdigits k hk
  · -- there are no further digits
    have hstar : Nat.digitChar k = '*' := by
      unfold Nat.digitChar
      repeat rw [if_neg (by omega)]
    rw [hstar]
    rfl

/-! ## The text is read as the entry -/

theorem blank_makeOffset : ∀ offset : ℕ, Json.Blank (makeOffset offset).toList
  | 0 => by decide
  | offset + 1 => by
    have htwo : Json.Blank "  ".toList := by decide
    rw [makeOffset, String.toList_append]
    exact List.forall_mem_append.mpr ⟨htwo, blank_makeOffset offset⟩

/-- A string in quotes. -/
theorem reads_text {s : String} (h : Json.Plain s.toList) :
    Json.Reads ('"' :: s.toList ++ ['"']) (.string s) := by
  have hreads := Json.reads_string h
  rwa [String.ofList_toList] at hreads

/-- The two members that all parameters have. -/
theorem readsMembers_simple {name type : String} (hname : Json.Plain name.toList)
    (htype : Json.Plain type.toList) :
    Json.ReadsMembers (" \"name\":\"" ++ name ++ "\", \"type\":\"" ++ type ++ "\" \x7d").toList
      [("name", .string name), ("type", .string type)] := by
  have hlast := (reads_text htype).lastMember (show Json.Plain "type".toList by decide)
    (show Json.Blank [' '] by decide) (show Json.Blank [' '] by decide)
  have hmembers := (reads_text hname).consMember (show Json.Plain "name".toList by decide)
    (show Json.Blank [' '] by decide) (show Json.Blank [] by decide) hlast
  simpa using hmembers

/-- The text of a parameter, up to the comma behind it. -/
def ReadsField (makeField : Bool → String) (j : Json) : Prop :=
  ∃ text : String, (∀ isLast, makeField isLast = text ++ commaEndl isLast) ∧
    Json.Reads text.toList j

theorem readsField_simple (offset : ℕ) {name type : String} (hname : Json.Plain name.toList)
    (htype : Json.Plain type.toList) :
    ReadsField (fun isLast => makeOffset offset ++ "\x7b \"name\":\"" ++ name ++ "\", \"type\":\"" ++
      type ++ "\" \x7d" ++ commaEndl isLast) (simpleParam name type) := by
  refine ⟨makeOffset offset ++ "\x7b \"name\":\"" ++ name ++ "\", \"type\":\"" ++ type ++ "\" \x7d",
    fun _ => rfl, ?_⟩
  have hobject := (readsMembers_simple hname htype).object.blank (blank_makeOffset offset)
  simpa [simpleParam] using hobject

theorem readsField_tuple (offset : ℕ) {components name type : String} {l : List Json}
    (hcomponents : Json.Reads components.toList (.array l)) (hname : Json.Plain name.toList)
    (htype : Json.Plain type.toList) :
    ReadsField (tupleField offset · components name type) (tupleParam l name type) := by
  refine ⟨makeOffset offset ++ "\x7b \"components\":" ++ components ++ ", \"name\":\"" ++ name ++
    "\", \"type\":\"" ++ type ++ "\" \x7d", fun _ => rfl, ?_⟩
  have hmembers := hcomponents.consMember (show Json.Plain "components".toList by decide)
    (show Json.Blank [' '] by decide) (show Json.Blank [] by decide)
    (readsMembers_simple hname htype)
  have hobject := hmembers.object.blank (blank_makeOffset offset)
  simpa [tupleParam] using hobject

/-- The fields of a struct up to the closing bracket. -/
def ReadsFields (text : String) (l : List Json) : Prop :=
  ∀ ws tail : List Char, Json.Blank ws → Json.Blank tail →
    Json.ReadsElements (ws ++ (text.toList ++ (tail ++ [']']))) l

theorem ReadsField.last {makeField : Bool → String} {j : Json} (h : ReadsField makeField j) :
    ReadsFields (makeField true) [j] := by
  obtain ⟨text, htext, hread⟩ := h
  intro ws tail hws htail
  have hlast := (hread.blank hws).lastElement (List.forall_mem_cons.mpr ⟨by decide, htail⟩ :
    Json.Blank ('\n' :: tail))
  rw [htext]
  simpa [commaEndl] using hlast

theorem ReadsField.cons {makeField : Bool → String} {j : Json} (h : ReadsField makeField j)
    {text : String} {l : List Json} (h' : ReadsFields text l) :
    ReadsFields (makeField false ++ text) (j :: l) := by
  obtain ⟨text', htext', hread⟩ := h
  intro ws tail hws htail
  have hcons := (hread.blank hws).consElement (show Json.Blank [] by decide)
    (h' ['\n'] tail (by decide) htail)
  rw [htext']
  simpa [commaEndl] using hcons

/-- The fields in brackets, if there are any. -/
theorem ReadsFields.components (offset : ℕ) {text : String} {l : List Json}
    (h : ReadsFields text l) :
    Json.Reads (makeStructComponents offset text).toList (.array l) := by
  have harray := (h ['\n'] _ (by decide) (blank_makeOffset offset)).array
  simpa [makeStructComponents] using harray

theorem reads_components_nil (offset : ℕ) :
    Json.Reads (makeStructComponents offset "").toList (.array []) := by
  have harray := Json.reads_array_nil (List.forall_mem_cons.mpr
    ⟨by decide, blank_makeOffset offset⟩ : Json.Blank ('\n' :: (makeOffset offset).toList))
  simpa [makeStructComponents] using harray

theorem reads_components (offset : ℕ) {fields : List (Identifier × AbiTy)}
    (h : fields ≠ [] → ReadsFields (makeTupleJson (offset + 1) fields) (fieldsJson fields)) :
    Json.Reads (makeStructComponents offset (makeTupleJson (offset + 1) fields)).toList
      (.array (fieldsJson fields)) := by
  by_cases hfields : fields = []
  · subst hfields
    exact reads_components_nil offset
  · exact (h hfields).components offset

mutual

/-- **The text of a field is read as its parameter**, by recursion on the type. -/
theorem readsField_makeFieldImpl (offset : ℕ) {name : String} (hname : Json.Plain name.toList) :
    ∀ t : AbiTy, ReadsField (makeFieldImpl offset · name t) (fieldJson name t)
  | .dictArray (.struct fields) | .struct fields | .optional (.struct fields) =>
    readsField_tuple offset (reads_components offset (readsFields_makeTupleJson _ fields)) hname
      (by decide)
  | .simple _ | .map _ _ _ | .lazy _ | .dictArray (.simple _) | .dictArray (.dictArray _)
  | .dictArray (.map _ _ _) | .dictArray (.optional _) | .dictArray (.lazy _)
  | .optional (.simple _) | .optional (.dictArray _) | .optional (.map _ _ _)
  | .optional (.optional _) | .optional (.lazy _) =>
    readsField_simple offset hname (plain_makeSimpleType _)

theorem readsFields_makeTupleJson (offset : ℕ) : ∀ fields : List (Identifier × AbiTy),
    fields ≠ [] → ReadsFields (makeTupleJson offset fields) (fieldsJson fields)
  | [(name, t)], _ => (readsField_makeFieldImpl offset name.plain t).last
  | (name, t) :: field :: fields, _ =>
    (readsField_makeFieldImpl offset name.plain t).cons
      (readsFields_makeTupleJson offset (field :: fields) (List.cons_ne_nil _ _))

end

/-- The inputs or outputs, which may be none. -/
def ReadsRow (text : String) (l : List Json) : Prop := text = "" ∧ l = [] ∨ ReadsFields text l

theorem readsRow_makeTupleJson (offset : ℕ) (fields : List (Identifier × AbiTy)) :
    ReadsRow (makeTupleJson offset fields) (fieldsJson fields) := by
  by_cases hfields : fields = []
  · subst hfields
    exact .inl ⟨rfl, rfl⟩
  · exact .inr (readsFields_makeTupleJson offset fields hfields)

theorem ReadsRow.array {text : String} {l : List Json} (h : ReadsRow text l) :
    Json.Reads (" [\n" ++ text ++ "    ]").toList (.array l) := by
  rcases h with ⟨rfl, rfl⟩ | h
  · have harray := (Json.reads_array_nil (show Json.Blank "\n    ".toList by decide)).blank
      (show Json.Blank [' '] by decide)
    simpa using harray
  · have harray := (h ['\n'] "    ".toList (by decide) (by decide)).array.blank
      (show Json.Blank [' '] by decide)
    simpa using harray

/-- The field for the id of the answer. -/
def answerIdInput (isLast : Bool) : String :=
  makeOffset 2 ++ "\x7b \"name\":\"" ++ "_answer_id" ++ "\", \"type\":\"" ++ "uint32" ++ "\" \x7d" ++
    commaEndl isLast

theorem readsField_answerIdInput :
    ReadsField answerIdInput (simpleParam "_answer_id" "uint32") :=
  readsField_simple 2 (by decide) (by decide)

/-- The inputs, with the id of the answer in front. -/
theorem exists_inputs (m : Method) : ∃ text, ReadsRow text (inputsJson m) ∧
    (makeFunctionInputs m).toList = "\"inputs\":".toList ++ (" [\n" ++ text ++ "    ]").toList := by
  unfold makeFunctionInputs makeInputsPrefix inputsJson
  by_cases hanswer : m.hasAnswerId
  · rw [if_pos hanswer, if_pos hanswer]
    by_cases hnil : m.args = []
    · refine ⟨answerIdInput true, .inr ?_, ?_⟩
      · rw [hnil]
        exact readsField_answerIdInput.last
      · rw [hnil]
        simp [answerIdInput, makeOffset, commaEndl, makeTupleJson]
    · have hargs := readsFields_makeTupleJson 2 m.args hnil
      refine ⟨answerIdInput false ++ makeTupleJson 2 m.args,
        .inr (readsField_answerIdInput.cons hargs), ?_⟩
      rw [if_neg fun hlen => hnil (List.length_eq_zero_iff.mp hlen)]
      simp [answerIdInput, makeOffset, commaEndl]
  · rw [if_neg hanswer, if_neg hanswer]
    exact ⟨_, readsRow_makeTupleJson 2 m.args, by simp⟩

theorem readsRow_makeStructJson (returnName : Identifier) : ∀ r : ReturnTy,
    ReadsRow (makeStructJson 2 returnName.name r) (outputsJson returnName.name r)
  | .void => .inl ⟨rfl, rfl⟩
  | .resumable r => readsRow_makeStructJson returnName r
  | .value (.struct fields) => readsRow_makeTupleJson 2 fields
  | .value (.simple _) | .value (.dictArray _) | .value (.map _ _ _) | .value (.optional _)
  | .value (.lazy _) => by
    refine .inr (readsField_makeFieldImpl 2 ?_ _).last
    unfold makeReturnName
    split_ifs
    · decide
    · exact returnName.plain

/-- The outputs, and the id if it is published. -/
theorem readsMembers_outputs (m : Method) :
    Json.ReadsMembers ("\n    " ++ makeFunctionOutputs m ++ makeFunctionId m ++ "\n  \x7d").toList
      (("outputs", .array (outputsJson m.returnName.name m.rv)) :: idMember m) := by
  have harray := (readsRow_makeStructJson m.returnName m.rv).array
  have houtputs : Json.Plain "outputs".toList := by decide
  have hblank : Json.Blank "\n    ".toList := by decide
  unfold makeFunctionId idMember
  split_ifs
  · have hid := reads_text (plain_append (by decide : Json.Plain "0x".toList)
      (plain_hexText m.funcId))
    have hlast := (hid.blank (show Json.Blank [' '] by decide)).lastMember
      (show Json.Plain "id".toList by decide) hblank (show Json.Blank "\n  ".toList by decide)
    have hmembers := harray.consMember houtputs hblank (show Json.Blank [] by decide) hlast
    simpa [makeFunctionOutputs] using hmembers
  · have hlast := harray.lastMember houtputs hblank (show Json.Blank "\n  ".toList by decide)
    simpa [makeFunctionOutputs] using hlast

theorem reads_makeFunctionJson (m : Method) :
    Json.Reads (makeFunctionJson m).toList (functionJson m) := by
  obtain ⟨inputs, hinputs, htext⟩ := exists_inputs m
  have hname := (reads_text m.name.plain).blank (show Json.Blank [' '] by decide)
  have hblank : Json.Blank "\n    ".toList := by decide
  have hmembers := hname.consMember (show Json.Plain "name".toList by decide) hblank
    (show Json.Blank [] by decide) (hinputs.array.consMember
      (show Json.Plain "inputs".toList by decide) hblank (show Json.Blank [] by decide)
        (readsMembers_outputs m))
  have hobject := hmembers.object.blank (show Json.Blank "  ".toList by decide)
  simpa [makeFunctionJson, functionJson, htext] using hobject

/-- **The published text is read as the entry** of the method. -/
theorem parse_makeFunctionJson (m : Method) :
    Json.parse (makeFunctionJson m) = some (functionJson m) :=
  (reads_makeFunctionJson m).parse

end TVMCompiler.Sdk.JsonAbi
