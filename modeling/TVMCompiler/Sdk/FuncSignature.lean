import TVMCompiler.Sdk.JsonAbi

/-!
# Function signatures

The contract takes the id of a function from its signature. A client computes the id from the
published entry: it writes down the types of the inputs and the outputs, with the components in
place of the word `tuple`.

## Main definitions

* `makeTypeSignature`, `makeFuncSignature`, `getFuncId`: the signature in the contract
* `entrySignature`: the signature that a client takes from an entry
* `AbiTy.Published`: structs stand where the entry has components for them

## Main results

* `entrySignature_eq_iff`: contract and client agree if and only if all types are published
-/

namespace TVMCompiler.Sdk.JsonAbi

open Lib

/-! ## The signature in the contract -/

mutual

/-- `make_type_signature`. The value of a `lazy` type without a text is a slice, for which there is
no signature. -/
def makeTypeSignature : AbiTy → Option String
  | .simple t => some t.text
  | .dictArray element => (makeTypeSignature element).map (· ++ "[]")
  | .map _ key value => some (makeMapType (makeSimpleType key) (makeSimpleType value))
  | .optional t => (makeTypeSignature t).map fun s => "optional(" ++ s ++ ")"
  | .lazy t => if hasSimpleType t then some (makeSimpleType t) else none
  | .struct fields => (makeArgTypesList fields).map fun s => "(" ++ s ++ ")"

def makeArgTypesList : List (Identifier × AbiTy) → Option String
  | [] => some ""
  | [(_, t)] => makeTypeSignature t
  | (_, t) :: field :: fields =>
    (makeTypeSignature t).bind fun s =>
      (makeArgTypesList (field :: fields)).map fun s' => s ++ ("," ++ s')

end

def makeRvTypesList : ReturnTy → Option String
  | .void => some ""
  | .resumable r => makeRvTypesList r
  | .value t =>
    if hasSimpleType t then makeTypeSignature t
    else match t with
      | .struct fields => makeArgTypesList fields
      | _ => none

def makeSignaturePrefix (hasAnswerId : Bool) (argsSize : ℕ) : String :=
  if hasAnswerId then
    if argsSize = 0 then "(uint32" else "(uint32,"
  else "("

/-- `make_func_signature`. -/
def makeFuncSignature (m : Method) : Option String :=
  (makeArgTypesList m.args).bind fun args => (makeRvTypesList m.rv).map fun rv =>
    m.name.name ++ makeSignaturePrefix m.hasAnswerId m.args.length ++ args ++ ")(" ++ rv ++ ")v2"

/-- `get_func_id`, with the id of a signature. -/
def getFuncId (signatureFuncId : String → ℕ) (m : Method) : Option ℕ :=
  if m.funcId ≠ 0 then some m.funcId else (makeFuncSignature m).map signatureFuncId

/-! ## The signature of an entry -/

def commaSeparated : List String → String
  | [] => ""
  | [s] => s
  | s :: t :: l => s ++ ("," ++ commaSeparated (t :: l))

def tupleWord : List Char := "tuple".toList

def containsWord (w : List Char) : List Char → Bool
  | [] => w.isEmpty
  | c :: s => w.isPrefixOf (c :: s) || containsWord w s

/-- The text with something in place of the word `tuple`. -/
def replaceTuple (text : List Char) : List Char → List Char
  | 't' :: 'u' :: 'p' :: 'l' :: 'e' :: s => text ++ replaceTuple text s
  | c :: s => c :: replaceTuple text s
  | [] => []

def memberText (name : String) (members : List (String × Json)) : Option String :=
  match members.lookup name with
  | some (.string s) => some s
  | _ => none

mutual

/-- The signature of a parameter. -/
def paramSignature : Json → Option String
  | .object members => (memberText "type" members).bind fun type =>
    if containsWord tupleWord type.toList then
      (componentSignatures members).map fun l =>
        .ofList (replaceTuple ("(" ++ commaSeparated l ++ ")").toList type.toList)
    else some type
  | _ => none

def componentSignatures : List (String × Json) → Option (List String)
  | [] => none
  | (name, value) :: members =>
    if name = "components" then arraySignatures value else componentSignatures members

def arraySignatures : Json → Option (List String)
  | .array l => paramSignatures l
  | _ => none

def paramSignatures : List Json → Option (List String)
  | [] => some []
  | j :: l => (paramSignature j).bind fun s => (paramSignatures l).map (s :: ·)

end

/-- The signature of a function, from its name, inputs and outputs. -/
def entrySignature : Json → Option String
  | .object members => (memberText "name" members).bind fun name =>
    ((members.lookup "inputs").bind arraySignatures).bind fun inputs =>
      ((members.lookup "outputs").bind arraySignatures).map fun outputs =>
        name ++ "(" ++ commaSeparated inputs ++ ")(" ++ commaSeparated outputs ++ ")v2"
  | _ => none

/-! ## Published types -/

/-- The text of the type has the word `tuple`, for an array of structs inside. -/
def AbiTy.MentionsTuple : AbiTy → Prop
  | .dictArray element => element.isTupleType ∨ element.MentionsTuple
  | .map _ key value =>
    (hasSimpleType key ∧ hasSimpleType value) ∧ (key.MentionsTuple ∨ value.MentionsTuple)
  | .optional t => t.MentionsTuple
  | .lazy t => t.MentionsTuple
  | _ => False

/-- No struct is an element or the content of an optional value, unless in a map or a `lazy`
value. -/
def AbiTy.Flat : AbiTy → Prop
  | .dictArray element => element.Flat
  | .optional t => t.Flat
  | .struct _ => False
  | _ => True

mutual

/-- The structs of the type stand where the entry has components for them: as a field, and right
inside an array or an optional value that is a field. -/
def AbiTy.Published : AbiTy → Prop
  | .dictArray (.struct fields) => PublishedFields fields
  | .struct fields => PublishedFields fields
  | .optional (.struct fields) => PublishedFields fields
  | t => t.Flat ∧ ¬ t.MentionsTuple

def PublishedFields : List (Identifier × AbiTy) → Prop
  | [] => True
  | (_, t) :: fields => t.Published ∧ PublishedFields fields

end

/-- The structs of a result are fields of it, or published. -/
def ReturnTy.Published : ReturnTy → Prop
  | .void => True
  | .value t => t.Published
  | .resumable r => r.Published

def Method.Published (m : Method) : Prop := PublishedFields m.args ∧ m.rv.Published

/-! ## Texts that differ -/

/-- The texts part at some character. -/
def Differs (s s' : String) : Prop :=
  ∃ (before : List Char) (c d : Char) (rest rest' : List Char), s.toList = before ++ c :: rest ∧
    s'.toList = before ++ d :: rest' ∧ c ≠ d

theorem Differs.ne {s s' : String} (h : Differs s s') : s ≠ s' := by
  rintro rfl
  obtain ⟨before, c, d, rest, rest', hc, hd, hne⟩ := h
  exact hne (List.cons.inj (List.append_cancel_left (hc.symm.trans hd))).1

/-- What follows does not make texts equal again. -/
theorem Differs.append {s s' : String} (h : Differs s s') (t t' : String) :
    Differs (s ++ t) (s' ++ t') := by
  obtain ⟨before, c, d, rest, rest', hc, hd, hne⟩ := h
  refine ⟨before, c, d, rest ++ t.toList, rest' ++ t'.toList, ?_, ?_, hne⟩
  · rw [String.toList_append, hc, List.append_assoc, List.cons_append]
  · rw [String.toList_append, hd, List.append_assoc, List.cons_append]

theorem Differs.prepend {s s' : String} (h : Differs s s') (t : String) :
    Differs (t ++ s) (t ++ s') := by
  obtain ⟨before, c, d, rest, rest', hc, hd, hne⟩ := h
  refine ⟨t.toList ++ before, c, d, rest, rest', ?_, ?_, hne⟩
  · rw [String.toList_append, hc, List.append_assoc]
  · rw [String.toList_append, hd, List.append_assoc]

theorem differs_of_head {s s' : String} {c d : Char} {rest rest' : List Char}
    (hs : s.toList = c :: rest) (hs' : s'.toList = d :: rest') (hne : c ≠ d) : Differs s s' :=
  ⟨[], c, d, rest, rest', hs, hs', hne⟩

/-- A client's text is the contract's under the condition, and parts from it otherwise. -/
def Agrees (condition : Prop) (client : Option String) (contract : String) : Prop :=
  (condition → client = some contract) ∧
    (¬ condition → ∀ s, client = some s → Differs s contract)

namespace Agrees

variable {P Q : Prop} {x y : Option String} {s t : String}

theorem iff (h : Agrees P x s) : x = some s ↔ P := by
  refine ⟨fun hx => ?_, h.1⟩
  by_contra hP
  exact (h.2 hP s hx).ne rfl

theorem refl (hP : P) (s : String) : Agrees P (some s) s :=
  ⟨fun _ => rfl, fun hn => absurd hP hn⟩

theorem of_differs (hP : ¬ P) (h : Differs s t) : Agrees P (some s) t := by
  refine ⟨fun hp => absurd hp hP, fun _ s' hs' => ?_⟩
  obtain rfl := Option.some.inj hs'
  exact h

theorem congr (h : Agrees P x s) (hPQ : P ↔ Q) : Agrees Q x s :=
  ⟨fun hQ => h.1 (hPQ.mpr hQ), fun hQ => h.2 fun hP => hQ (hPQ.mp hP)⟩

/-- Both texts are put between two others. -/
theorem map (h : Agrees P x s) (before after : String) :
    Agrees P (x.map fun s => before ++ s ++ after) (before ++ s ++ after) := by
  refine ⟨fun hP => by rw [h.1 hP]; rfl, fun hP s' hs' => ?_⟩
  obtain ⟨s₀, hs₀, rfl⟩ := Option.map_eq_some_iff.mp hs'
  exact ((h.2 hP s₀ hs₀).prepend before).append after after

/-- Two texts are joined. -/
theorem join (h : Agrees P x s) (h' : Agrees Q y t) (separator : String) :
    Agrees (P ∧ Q) (x.bind fun a => y.map fun b => a ++ (separator ++ b))
      (s ++ (separator ++ t)) := by
  refine ⟨fun hPQ => by rw [h.1 hPQ.1, h'.1 hPQ.2]; rfl, fun hPQ s' hs' => ?_⟩
  obtain ⟨a, ha, hs'⟩ := Option.bind_eq_some_iff.mp hs'
  obtain ⟨b, hb, rfl⟩ := Option.map_eq_some_iff.mp hs'
  by_cases hP : P
  · -- the texts part in the second half
    obtain rfl := Option.some.inj ((h.1 hP).symm.trans ha)
    exact ((h'.2 (fun hQ => hPQ ⟨hP, hQ⟩) b hb).prepend separator).prepend s
  · exact (h.2 hP a ha).append _ _

end Agrees

/-! ## The word `tuple` -/

theorem containsWord_iff {w : List Char} :
    ∀ {s : List Char}, containsWord w s = true ↔ w <:+: s
  | [] => by rw [containsWord, List.isEmpty_iff, List.infix_nil]
  | c :: s => by
    rw [containsWord, Bool.or_eq_true, List.isPrefixOf_iff_prefix, containsWord_iff,
      List.infix_cons_iff]

/-- A word is not split by a character that is not in it. -/
theorem infix_append_cons {w a b : List Char} {c : Char} (hc : c ∉ w) :
    w <:+: a ++ c :: b ↔ w <:+: a ∨ w <:+: b := by
  constructor
  · rintro ⟨before, after, heq⟩
    rcases List.append_eq_append_iff.mp heq with ⟨a', rfl, -⟩ | ⟨b', hb', heq'⟩
    · exact .inl ⟨before, a', rfl⟩
    cases b' with
    | nil =>
      rw [List.append_nil] at hb'
      exact .inl ⟨before, [], by rw [hb', List.append_nil]⟩
    | cons d b' =>
      -- the word ends behind the character
      obtain ⟨rfl, rfl⟩ := List.cons.inj heq'
      rcases List.append_eq_append_iff.mp hb' with ⟨a', -, rfl⟩ | ⟨c', -, hc'⟩
      · exact absurd (List.mem_append_right _ List.mem_cons_self) hc
      · cases c' with
        | nil =>
          rw [List.nil_append] at hc'
          exact absurd (hc' ▸ List.mem_cons_self) hc
        | cons d c' =>
          obtain ⟨rfl, rfl⟩ := List.cons.inj hc'
          exact .inr ⟨c', after, rfl⟩
  · rintro (h | h)
    · exact h.trans (List.prefix_append a _).isInfix
    · exact h.trans ((List.suffix_cons c b).trans (List.suffix_append a _)).isInfix

/-- The text has the word `tuple`. -/
def HasTuple (s : String) : Prop := containsWord tupleWord s.toList = true

instance : DecidablePred HasTuple := fun _ => inferInstanceAs (Decidable (_ = true))

/-- Two texts with a character in between that is not in the word. -/
theorem hasTuple_append {s s' t : String} {c : Char} (hc : c ∉ tupleWord)
    (ht : t.toList = c :: s'.toList) : HasTuple (s ++ t) ↔ HasTuple s ∨ HasTuple s' := by
  unfold HasTuple
  rw [containsWord_iff, containsWord_iff, containsWord_iff, String.toList_append, ht,
    infix_append_cons hc]

/-- A text without the letter does not have the word. -/
theorem not_hasTuple_of_notMem {s : String} (h : 'p' ∉ s.toList) : ¬ HasTuple s := by
  intro htuple
  have hword := containsWord_iff.mp htuple
  exact h (hword.subset (by decide))

theorem not_hasTuple_simple (t : SimpleTy) : ¬ HasTuple t.text := by
  have hdigits (s : String) (hs : 'p' ∉ s.toList) (n : ℕ) : ¬ HasTuple (s ++ toString n) := by
    refine not_hasTuple_of_notMem fun h => ?_
    rw [String.toList_append] at h
    rcases List.mem_append.mp h with hp | hp
    · exact hs hp
    · rw [show (toString n).toList = Nat.toDigits 10 n from String.toList_ofList] at hp
      exact absurd (Nat.isDigit_of_mem_toDigits (by decide) (by decide) hp) (by decide)
  cases t with
  | int bitlen => exact hdigits "int" (by decide) bitlen
  | uint bitlen =>
    by_cases hbool : bitlen = 1
    · rw [SimpleTy.text, if_pos hbool]
      decide
    · rw [SimpleTy.text, if_neg hbool]
      exact hdigits "uint" (by decide) bitlen
  | _ => decide

theorem hasSimpleType_iff (t : AbiTy) : hasSimpleType t = true ↔ makeSimpleType t ≠ "unknown" :=
  decide_eq_true_iff

theorem hasTuple_append' {s s' t : String} {c : Char} (hc : c ∉ tupleWord)
    (hs : s.toList = s'.toList ++ [c]) : HasTuple (s ++ t) ↔ HasTuple s' ∨ HasTuple t := by
  unfold HasTuple
  rw [containsWord_iff, containsWord_iff, containsWord_iff, String.toList_append, hs,
    List.append_assoc, List.singleton_append, infix_append_cons hc]

theorem hasTuple_array (s : String) : HasTuple (s ++ "[]") ↔ HasTuple s := by
  rw [hasTuple_append (show '[' ∉ tupleWord by decide) (show "[]".toList = '[' :: "]".toList from rfl)]
  exact or_iff_left (by decide)

theorem hasTuple_closed (s : String) : HasTuple (s ++ ")") ↔ HasTuple s := by
  rw [hasTuple_append (show ')' ∉ tupleWord by decide) (show ")".toList = ')' :: "".toList from rfl)]
  exact or_iff_left (by decide)

theorem hasTuple_optional (s : String) : HasTuple ("optional(" ++ s ++ ")") ↔ HasTuple s := by
  rw [hasTuple_closed, hasTuple_append' (show '(' ∉ tupleWord by decide)
    (show "optional(".toList = "optional".toList ++ ['('] from rfl)]
  exact or_iff_right (by decide)

theorem hasTuple_map (s t : String) :
    HasTuple ("map(" ++ s ++ "," ++ t ++ ")") ↔ HasTuple s ∨ HasTuple t := by
  rw [hasTuple_closed, hasTuple_append' (show ',' ∉ tupleWord by decide) String.toList_append,
    hasTuple_append' (show '(' ∉ tupleWord by decide)
    (show "map(".toList = "map".toList ++ ['('] from rfl),
    or_iff_right (show ¬ HasTuple "map" by decide)]

/-- **The text of a type has the word `tuple` for arrays of structs** only. -/
theorem hasTuple_iff : ∀ t : AbiTy, HasTuple (makeSimpleType t) ↔ t.MentionsTuple
  | .simple t => iff_of_false (not_hasTuple_simple t) id
  | .struct _ => iff_of_false (by decide : ¬ HasTuple "unknown") id
  | .lazy t => hasTuple_iff t
  | .dictArray element => by
    rw [makeSimpleType, AbiTy.MentionsTuple]
    by_cases htuple : element.isTupleType
    · rw [if_pos htuple]
      exact iff_of_true (by decide) (.inl htuple)
    · rw [if_neg htuple, hasTuple_array, hasTuple_iff element, or_iff_right htuple]
  | .optional t => by
    rw [makeSimpleType, hasTuple_optional, hasTuple_iff t, AbiTy.MentionsTuple]
  | .map _ key value => by
    rw [makeSimpleType, makeMapType, AbiTy.MentionsTuple, hasSimpleType_iff, hasSimpleType_iff]
    by_cases hunknown : makeSimpleType key = "unknown" ∨ makeSimpleType value = "unknown"
    · rw [if_pos hunknown]
      refine iff_of_false (by decide) ?_
      rintro ⟨⟨hkey, hvalue⟩, -⟩
      rcases hunknown with hunknown | hunknown
      · exact hkey hunknown
      · exact hvalue hunknown
    · rw [if_neg hunknown, hasTuple_map, hasTuple_iff key, hasTuple_iff value,
        and_iff_right (not_or.mp hunknown)]

/-! ## Client and contract -/

theorem toList_parenthesised (s : String) :
    ("(" ++ s ++ ")").toList = '(' :: (s.toList ++ [')']) := by
  rw [String.toList_append, String.toList_append]
  rfl

/-- A type without components has the signature as its text if it is flat. -/
theorem agrees_makeSimpleType : ∀ (t : AbiTy) {s : String}, makeTypeSignature t = some s →
    Agrees t.Flat (some (makeSimpleType t)) s
  | .simple t, s, h => by
    obtain rfl := Option.some.inj h
    exact .refl trivial _
  | .map _ _ _, s, h => by
    obtain rfl := Option.some.inj h
    exact .refl trivial _
  | .lazy t, s, h => by
    rw [makeTypeSignature] at h
    split_ifs at h
    obtain rfl := Option.some.inj h
    exact .refl trivial _
  | .optional t, s, h => by
    obtain ⟨s, hs, rfl⟩ := Option.map_eq_some_iff.mp h
    exact (agrees_makeSimpleType t hs).map "optional(" ")"
  | .struct fields, s, h => by
    obtain ⟨s, -, rfl⟩ := Option.map_eq_some_iff.mp h
    -- the text `unknown` is no list in parentheses
    exact .of_differs id (differs_of_head (s := "unknown") rfl (toList_parenthesised s) (by decide))
  | .dictArray element, s, h => by
    obtain ⟨s, hs, rfl⟩ := Option.map_eq_some_iff.mp h
    by_cases htuple : element.isTupleType
    · -- the array of structs is a `tuple[]`
      cases element with
      | struct fields =>
        obtain ⟨s, -, rfl⟩ := Option.map_eq_some_iff.mp hs
        exact .of_differs id (.append (s := "tuple")
          (differs_of_head rfl (toList_parenthesised s) (by decide)) "[]" "[]")
      | _ => cases htuple
    · rw [makeSimpleType, if_neg htuple]
      have hmap := (agrees_makeSimpleType element hs).map "" "[]"
      simpa [AbiTy.Flat] using hmap

/-- A parameter without components. -/
theorem paramSignature_simple (name type : String) :
    paramSignature (simpleParam name type) = if HasTuple type then none else some type := rfl

/-- A parameter with components, of a type with the word between two texts. -/
theorem paramSignature_tupleParam (l : List Json) (name : String) {type : String}
    (before after : String) (htype : HasTuple type)
    (hreplace : ∀ t, replaceTuple t type.toList = before.toList ++ (t ++ after.toList)) :
    paramSignature (tupleParam l name type) =
      (((paramSignatures l).map commaSeparated).map fun s => "(" ++ s ++ ")").map
        fun s => before ++ s ++ after := by
  show (if HasTuple type then (paramSignatures l).map _ else some type) = _
  rw [if_pos htype, Option.map_map, Option.map_map]
  congr 1
  funext l
  refine String.toList_inj.mp ?_
  rw [hreplace]
  simp

/-- The first of several signatures. -/
theorem paramSignatures_cons (j j' : Json) (l : List Json) :
    (paramSignatures (j :: j' :: l)).map commaSeparated =
      (paramSignature j).bind fun s =>
        ((paramSignatures (j' :: l)).map commaSeparated).map fun s' => s ++ ("," ++ s') := by
  rw [paramSignatures, paramSignatures]
  cases paramSignature j with
  | none => rfl
  | some s =>
    cases paramSignature j' with
    | none => rfl
    | some s' => cases paramSignatures l <;> rfl

theorem paramSignatures_singleton (j : Json) :
    (paramSignatures [j]).map commaSeparated = paramSignature j := by
  rw [paramSignatures, paramSignatures]
  cases paramSignature j <;> rfl

/-- A type without components. -/
theorem agrees_simpleParam {t : AbiTy} {s name : String} (h : makeTypeSignature t = some s) :
    Agrees (t.Flat ∧ ¬ t.MentionsTuple) (paramSignature (simpleParam name (makeSimpleType t))) s := by
  have hflat := agrees_makeSimpleType t h
  rw [paramSignature_simple]
  by_cases htuple : t.MentionsTuple
  · -- there are no components for the word
    rw [if_pos ((hasTuple_iff t).mpr htuple)]
    refine ⟨fun hcondition => absurd htuple hcondition.2, fun _ s' hs' => ?_⟩
    cases hs'
  · rw [if_neg fun h => htuple ((hasTuple_iff t).mp h)]
    exact hflat.congr (and_iff_left htuple).symm

mutual

/-- **Client and contract agree on a field** if its type is published, and part otherwise. -/
theorem agrees_fieldJson : ∀ (t : AbiTy) {s : String} (name : String),
    makeTypeSignature t = some s → Agrees t.Published (paramSignature (fieldJson name t)) s
  | .struct fields, s, name, h => by
    obtain ⟨s, hfields, rfl⟩ := Option.map_eq_some_iff.mp h
    rw [fieldJson, paramSignature_tupleParam _ _ "" "" (by decide) fun t => by simp [replaceTuple]]
    have hmap := ((agrees_fieldsJson fields hfields).map "(" ")").map "" ""
    rw [String.empty_append, String.append_empty] at hmap
    exact hmap
  | .dictArray (.struct fields), s, name, h => by
    obtain ⟨s, helement, rfl⟩ := Option.map_eq_some_iff.mp h
    obtain ⟨s, hfields, rfl⟩ := Option.map_eq_some_iff.mp helement
    rw [fieldJson, paramSignature_tupleParam _ _ "" "[]" (by decide) fun t => by simp [replaceTuple]]
    have hmap := ((agrees_fieldsJson fields hfields).map "(" ")").map "" "[]"
    rw [String.empty_append] at hmap
    exact hmap
  | .optional (.struct fields), s, name, h => by
    obtain ⟨s, hcontent, rfl⟩ := Option.map_eq_some_iff.mp h
    obtain ⟨s, hfields, rfl⟩ := Option.map_eq_some_iff.mp hcontent
    rw [fieldJson, paramSignature_tupleParam _ _ "optional(" ")" (by decide)
      fun t => by simp [replaceTuple]]
    exact ((agrees_fieldsJson fields hfields).map "(" ")").map "optional(" ")"
  | .simple _, _, _, h | .map _ _ _, _, _, h | .lazy _, _, _, h | .dictArray (.simple _), _, _, h
  | .dictArray (.dictArray _), _, _, h | .dictArray (.map _ _ _), _, _, h
  | .dictArray (.optional _), _, _, h | .dictArray (.lazy _), _, _, h
  | .optional (.simple _), _, _, h | .optional (.dictArray _), _, _, h
  | .optional (.map _ _ _), _, _, h | .optional (.optional _), _, _, h
  | .optional (.lazy _), _, _, h => agrees_simpleParam h

theorem agrees_fieldsJson : ∀ (fields : List (Identifier × AbiTy)) {s : String},
    makeArgTypesList fields = some s →
    Agrees (PublishedFields fields) ((paramSignatures (fieldsJson fields)).map commaSeparated) s
  | [], s, h => by
    obtain rfl := Option.some.inj h
    exact .refl trivial _
  | [(name, t)], s, h => by
    rw [fieldsJson, fieldsJson, paramSignatures_singleton]
    exact (agrees_fieldJson t name.name h).congr (and_iff_left trivial).symm
  | (name, t) :: (name', t') :: fields, s, h => by
    obtain ⟨first, hfirst, h⟩ := Option.bind_eq_some_iff.mp h
    obtain ⟨rest, hrest, rfl⟩ := Option.map_eq_some_iff.mp h
    rw [fieldsJson, fieldsJson, paramSignatures_cons]
    exact (agrees_fieldJson t name.name hfirst).join
      (agrees_fieldsJson ((name', t') :: fields) hrest) ","

end

/-! ## Functions -/

/-- A result that is no struct. -/
theorem agrees_value {t : AbiTy} {s : String} (name : String) (htuple : t.isTupleType = false)
    (h : makeRvTypesList (.value t) = some s) :
    Agrees t.Published ((paramSignatures [fieldJson name t]).map commaSeparated) s := by
  rw [paramSignatures_singleton]
  unfold makeRvTypesList at h
  by_cases hsimple : hasSimpleType t
  · rw [if_pos hsimple] at h
    exact agrees_fieldJson t name h
  · rw [if_neg hsimple] at h
    cases t with
    | struct fields => cases htuple
    | _ => cases h

theorem agrees_outputsJson (returnName : String) : ∀ (r : ReturnTy) {s : String},
    makeRvTypesList r = some s →
    Agrees r.Published ((paramSignatures (outputsJson returnName r)).map commaSeparated) s
  | .void, s, h => by
    obtain rfl := Option.some.inj h
    exact .refl trivial _
  | .resumable r, s, h => agrees_outputsJson returnName r h
  | .value (.struct fields), s, h => agrees_fieldsJson fields h
  | .value (.simple _), s, h | .value (.dictArray _), s, h | .value (.map _ _ _), s, h
  | .value (.optional _), s, h | .value (.lazy _), s, h => agrees_value _ rfl h

/-- The inputs, with the id of the answer in front. -/
theorem agrees_inputsJson (m : Method) {args : String} (h : makeArgTypesList m.args = some args) :
    ∃ inputs, makeSignaturePrefix m.hasAnswerId m.args.length ++ args = "(" ++ inputs ∧
      Agrees (PublishedFields m.args) ((paramSignatures (inputsJson m)).map commaSeparated)
        inputs := by
  have hagrees := agrees_fieldsJson m.args h
  unfold makeSignaturePrefix inputsJson
  by_cases hanswer : m.hasAnswerId
  · rw [if_pos hanswer, if_pos hanswer]
    cases hargs : m.args with
    | nil =>
      rw [hargs] at h
      obtain rfl := Option.some.inj h
      exact ⟨"uint32", rfl, .refl trivial _⟩
    | cons field fields =>
      rw [hargs] at hagrees
      refine ⟨"uint32" ++ ("," ++ args), ?_, ?_⟩
      · refine String.toList_inj.mp ?_
        simp
      · have hid : Agrees True (paramSignature (simpleParam "_answer_id" "uint32")) "uint32" :=
          .refl trivial _
        rw [fieldsJson, paramSignatures_cons]
        exact (hid.join hagrees ",").congr (iff_of_eq (true_and _))
  · rw [if_neg hanswer, if_neg hanswer]
    exact ⟨args, rfl, hagrees⟩

/-- **Contract and client compute the id from the same signature** if and only if each struct in
the types stands where the entry has components for it. -/
theorem entrySignature_eq_iff (m : Method) (signatureFuncId : String → ℕ) {s : String}
    (hid : m.funcId = 0) (hsignature : makeFuncSignature m = some s) :
    getFuncId signatureFuncId m = some (signatureFuncId s) ∧
      ((Json.parse (makeFunctionJson m)).bind entrySignature = some s ↔ m.Published) := by
  obtain ⟨args, hargs, h⟩ := Option.bind_eq_some_iff.mp hsignature
  obtain ⟨rv, hrv, hs⟩ := Option.map_eq_some_iff.mp h
  refine ⟨by rw [getFuncId, if_neg (not_not.mpr hid), hsignature]; rfl, ?_⟩
  obtain ⟨inputs, hprefix, hinputs⟩ := agrees_inputsJson m hargs
  have houtputs := agrees_outputsJson m.returnName.name m.rv hrv
  have hagrees := (hinputs.join houtputs ")(").map (m.name.name ++ "(") ")v2"
  have hclient : entrySignature (functionJson m) =
      (((paramSignatures (inputsJson m)).map commaSeparated).bind fun inputs =>
        ((paramSignatures (outputsJson m.returnName.name m.rv)).map commaSeparated).map
          fun outputs => inputs ++ (")(" ++ outputs)).map
            fun s => m.name.name ++ "(" ++ s ++ ")v2" := by
    show ((paramSignatures (inputsJson m)).bind fun inputs =>
      (paramSignatures (outputsJson m.returnName.name m.rv)).map fun outputs =>
        m.name.name ++ "(" ++ commaSeparated inputs ++ ")(" ++ commaSeparated outputs ++ ")v2") = _
    cases paramSignatures (inputsJson m) with
    | none => rfl
    | some inputs =>
      cases paramSignatures (outputsJson m.returnName.name m.rv) with
      | none => rfl
      | some outputs => exact congrArg some (by simp only [String.append_assoc])
  have hcontract : s = m.name.name ++ "(" ++ (inputs ++ (")(" ++ rv)) ++ ")v2" := by
    have hargsText : m.name.name ++ makeSignaturePrefix m.hasAnswerId m.args.length ++ args =
        m.name.name ++ ("(" ++ inputs) := by rw [String.append_assoc, hprefix]
    rw [← hs, hargsText]
    simp only [String.append_assoc]
  rw [parse_makeFunctionJson, Option.bind_some, hclient, hcontract]
  exact hagrees.iff

section Example

/-- A struct with an array of structs. -/
def recordTy : AbiTy :=
  .struct [(⟨"a", by decide⟩, .simple (.uint 8)),
    (⟨"b", by decide⟩, .dictArray (.struct [(⟨"c", by decide⟩, .simple .cell)]))]

/-- A coroutine method that takes and returns the struct. -/
def storeMethod : Method where
  name := ⟨"store", by decide⟩
  args := [(⟨"x", by decide⟩, recordTy), (⟨"y", by decide⟩, .optional recordTy)]
  rv := .resumable (.value recordTy)
  returnName := ⟨"", by decide⟩
  internal := true
  answerId := true
  funcId := 0
  implicitFuncId := false

def storeSignature : String :=
  "store(uint32,(uint8,(cell)[]),optional((uint8,(cell)[])))(uint8,(cell)[])v2"

theorem entrySignature_storeMethod :
    getFuncId String.length storeMethod = some storeSignature.length ∧
      (Json.parse (makeFunctionJson storeMethod)).bind entrySignature = some storeSignature := by
  have hsignature : makeFuncSignature storeMethod = some storeSignature := by decide
  obtain ⟨hid, hiff⟩ := entrySignature_eq_iff storeMethod String.length rfl hsignature
  have hrecord : recordTy.Published :=
    ⟨⟨trivial, id⟩, ⟨⟨trivial, id⟩, trivial⟩, trivial⟩
  exact ⟨hid, hiff.mpr ⟨⟨hrecord, hrecord, trivial⟩, hrecord⟩⟩

/-- A method with one argument, and no result. -/
def takeMethod (t : AbiTy) : Method where
  name := ⟨"take", by decide⟩
  args := [(⟨"x", by decide⟩, t)]
  rv := .void
  returnName := ⟨"", by decide⟩
  internal := true
  answerId := false
  funcId := 0
  implicitFuncId := false

/-- An array of arrays of structs is published without components, and an array of optional
structs with a text of its own. -/
theorem entrySignature_nested :
    (makeFuncSignature (takeMethod (.dictArray (.dictArray recordTy))) =
        some "take((uint8,(cell)[])[][])()v2" ∧
      (Json.parse (makeFunctionJson (takeMethod (.dictArray (.dictArray recordTy))))).bind
        entrySignature = none) ∧
    makeFuncSignature (takeMethod (.dictArray (.optional recordTy))) =
        some "take(optional((uint8,(cell)[]))[])()v2" ∧
      (Json.parse (makeFunctionJson (takeMethod (.dictArray (.optional recordTy))))).bind
        entrySignature = some "take(optional(unknown)[])()v2" := by
  rw [parse_makeFunctionJson, parse_makeFunctionJson]
  exact ⟨⟨by decide, by decide⟩, by decide, by decide⟩

end Example

end TVMCompiler.Sdk.JsonAbi
