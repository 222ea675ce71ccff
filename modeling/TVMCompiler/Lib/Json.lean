import Mathlib.Data.List.Basic
import Mathlib.Tactic.Common

/-!
# JSON texts

Texts are read into trees. Strings, numbers and literals are kept as they are written: strings with
their escapes, and numbers and literals as words.

## Main definitions

* `Json`: the trees
* `readValue`, `Json.parse`: the reader
* `Reads`, `ReadsElements`, `ReadsMembers`: a text is read as a value, or as what stands behind
  an opening bracket
* `Refused`, `RefusedElements`, `RefusedMembers`: a text is refused, whatever follows

## Main results

* `Reads.parse`: a text that is read as a value is one
* `ReadsElements.array`, `ReadsMembers.object`: brackets around what they enclose
* `Reads.trailingComma`, `Reads.missingComma`: commas that are refused
-/

namespace TVMCompiler.Lib

inductive Json where
  | string (s : String)
  | scalar (word : String)
  | array (elements : List Json)
  | object (members : List (String × Json))

namespace Json

/-! ## The reader -/

def isBlank (c : Char) : Bool := c = ' ' || c = '\n' || c = '\t' || c = '\r'

def skipBlanks (s : List Char) : List Char := s.dropWhile isBlank

def isControl (c : Char) : Bool := c.toNat < 32

def isHexDigit (c : Char) : Bool := c.isDigit || 'a' ≤ c && c ≤ 'f' || 'A' ≤ c && c ≤ 'F'

/-- The characters that may stand behind a backslash, but for `u`. -/
def isEscape (c : Char) : Bool := c ∈ ['"', '\\', '/', 'b', 'f', 'n', 'r', 't']

/-- The characters in front of the next quote, and what stands behind it. -/
def readChars : List Char → Option (List Char × List Char)
  | [] => none
  | '"' :: s => some ([], s)
  | ['\\'] => none
  | '\\' :: 'u' :: a :: b :: c :: d :: s =>
    if [a, b, c, d].all isHexDigit then
      (readChars s).map fun r => ('\\' :: 'u' :: a :: b :: c :: d :: r.1, r.2)
    else none
  | '\\' :: c :: s =>
    if isEscape c then (readChars s).map fun r => ('\\' :: c :: r.1, r.2) else none
  | c :: s => if isControl c then none else (readChars s).map fun r => (c :: r.1, r.2)

/-! ### Numbers and literals -/

def isWordChar (c : Char) : Bool := c.isAlphanum || c = '+' || c = '-' || c = '.'

def isDigits (w : List Char) : Bool := w ≠ [] && w.all Char.isDigit

def isExponent : List Char → Bool
  | [] => true
  | e :: '+' :: w | e :: '-' :: w | e :: w => (e = 'e' || e = 'E') && isDigits w

def isFraction : List Char → Bool
  | '.' :: w => isDigits (w.takeWhile Char.isDigit) && isExponent (w.dropWhile Char.isDigit)
  | w => isExponent w

/-- Digits without a leading zero, and what may follow them. -/
def isUnsigned (w : List Char) : Bool :=
  let digits := w.takeWhile Char.isDigit
  isDigits digits && (digits = ['0'] || digits.head? ≠ some '0') &&
    isFraction (w.dropWhile Char.isDigit)

def isNumber : List Char → Bool
  | '-' :: w => isUnsigned w
  | w => isUnsigned w

def isScalar (w : List Char) : Bool :=
  isNumber w || w ∈ ["true".toList, "false".toList, "null".toList]

/-- The number or the literal in front. -/
def readWord (s : List Char) : Option (Json × List Char) :=
  if isScalar (s.takeWhile isWordChar) then
    some (.scalar (.ofList (s.takeWhile isWordChar)), s.dropWhile isWordChar)
  else none

mutual

def readValue : ℕ → List Char → Option (Json × List Char)
  | 0, _ => none
  | fuel + 1, s => match skipBlanks s with
    | '"' :: s => (readChars s).map fun r => (.string (.ofList r.1), r.2)
    | '[' :: s => match skipBlanks s with
      | ']' :: s => some (.array [], s)
      | _ => (readElements fuel s).map fun r => (.array r.1, r.2)
    | '{' :: s => match skipBlanks s with
      | '}' :: s => some (.object [], s)
      | _ => (readMembers fuel s).map fun r => (.object r.1, r.2)
    | s => readWord s

/-- The elements of an array up to the closing bracket. -/
def readElements : ℕ → List Char → Option (List Json × List Char)
  | 0, _ => none
  | fuel + 1, s => (readValue fuel s).bind fun r => match skipBlanks r.2 with
    | ',' :: s => (readElements fuel s).map fun l => (r.1 :: l.1, l.2)
    | ']' :: s => some ([r.1], s)
    | _ => none

/-- The members of an object up to the closing brace. -/
def readMembers : ℕ → List Char → Option (List (String × Json) × List Char)
  | 0, _ => none
  | fuel + 1, s => match skipBlanks s with
    | '"' :: s => (readChars s).bind fun name => match skipBlanks name.2 with
      | ':' :: s => (readValue fuel s).bind fun r => match skipBlanks r.2 with
        | ',' :: s => (readMembers fuel s).map fun l => ((.ofList name.1, r.1) :: l.1, l.2)
        | '}' :: s => some ([(.ofList name.1, r.1)], s)
        | _ => none
      | _ => none
    | _ => none

end

/-- The value that a text holds. -/
def parse (s : String) : Option Json :=
  (readValue s.toList.length s.toList).bind fun r => if skipBlanks r.2 = [] then some r.1 else none

/-- The text is a JSON text. -/
def WellFormed (s : String) : Prop := ∃ j, parse s = some j

/-! ## What a text is read as -/

/-- The text is read as the value, whatever follows. -/
def Reads (t : List Char) (j : Json) : Prop :=
  ∀ fuel rest, t.length ≤ fuel → readValue fuel (t ++ rest) = some (j, rest)

/-- The text is read as the value if `tail` follows. -/
def ReadsBefore (tail t : List Char) (j : Json) : Prop :=
  ∀ fuel rest, t.length ≤ fuel → readValue fuel (t ++ (tail ++ rest)) = some (j, tail ++ rest)

def ReadsElements (t : List Char) (l : List Json) : Prop :=
  ∀ fuel rest, t.length ≤ fuel → readElements fuel (t ++ rest) = some (l, rest)

def ReadsMembers (t : List Char) (l : List (String × Json)) : Prop :=
  ∀ fuel rest, t.length ≤ fuel → readMembers fuel (t ++ rest) = some (l, rest)

/-- Characters that need no escape. -/
def Plain (s : List Char) : Prop := ∀ c ∈ s, c ≠ '"' ∧ c ≠ '\\' ∧ isControl c = false

instance : DecidablePred Plain := fun s => List.decidableBAll _ s

def Blank (s : List Char) : Prop := ∀ c ∈ s, isBlank c = true

instance : DecidablePred Blank := fun s => List.decidableBAll _ s

variable {t t' ws : List Char} {j : Json}

theorem Reads.before (h : Reads t j) (tail : List Char) : ReadsBefore tail t j :=
  fun fuel rest hfuel => h fuel (tail ++ rest) hfuel

theorem skipBlanks_append (hblank : Blank ws) (t : List Char) :
    skipBlanks (ws ++ t) = skipBlanks t := List.dropWhile_append_of_pos hblank

/-- Blanks behind the value do not matter. -/
theorem Reads.parse_append {s : String} (h : Reads t j) (hblank : Blank ws)
    (hs : s.toList = t ++ ws) : parse s = some j := by
  have hskip := skipBlanks_append hblank []
  rw [List.append_nil] at hskip
  rw [Json.parse, hs, h _ ws (by rw [List.length_append]; omega)]
  exact if_pos hskip

theorem Reads.parse {s : String} (h : Reads s.toList j) : parse s = some j :=
  h.parse_append (List.forall_mem_nil _) (List.append_nil _).symm

theorem skipBlanks_cons {c : Char} (h : isBlank c = false) (s : List Char) :
    skipBlanks (c :: s) = c :: s := List.dropWhile_cons_of_neg (by rw [h]; exact Bool.false_ne_true)

theorem readChars_cons {c : Char} (hquote : c ≠ '"') (hescape : c ≠ '\\')
    (hcontrol : isControl c = false) (s : List Char) :
    readChars (c :: s) = (readChars s).map fun r => (c :: r.1, r.2) := by
  rw [readChars, if_neg (by rw [hcontrol]; exact Bool.false_ne_true)]
  all_goals grind

theorem readChars_append {s : List Char} (h : Plain s) (rest : List Char) :
    readChars (s ++ '"' :: rest) = some (s, rest) := by
  induction s with
  | nil => rfl
  | cons c s ih =>
    obtain ⟨hc, hs⟩ := List.forall_mem_cons.mp h
    rw [List.cons_append, readChars_cons hc.1 hc.2.1 hc.2.2, ih hs]
    rfl

/-- Blanks in front do not matter. -/
theorem readValue_blank (hblank : Blank ws) (fuel : ℕ) (t : List Char) :
    readValue fuel (ws ++ t) = readValue fuel t := by
  cases fuel with
  | zero => rfl
  | succ fuel => rw [readValue, skipBlanks_append hblank, readValue]

theorem Reads.blank (hblank : Blank ws) (h : Reads t j) : Reads (ws ++ t) j := by
  intro fuel rest hfuel
  rw [List.length_append] at hfuel
  rw [List.append_assoc, readValue_blank hblank]
  exact h fuel rest (by omega)

theorem ReadsBefore.blank {tail : List Char} (hblank : Blank ws) (h : ReadsBefore tail t j) :
    ReadsBefore tail (ws ++ t) j := by
  intro fuel rest hfuel
  rw [List.length_append] at hfuel
  rw [List.append_assoc, readValue_blank hblank]
  exact h fuel rest (by omega)

/-! ### Values by their first character -/

theorem readValue_quote (fuel : ℕ) (s : List Char) :
    readValue (fuel + 1) ('"' :: s) = (readChars s).map fun r => (.string (.ofList r.1), r.2) := by
  rfl

theorem readValue_bracket (fuel : ℕ) (s : List Char) :
    readValue (fuel + 1) ('[' :: s) = match skipBlanks s with
      | ']' :: s => some (.array [], s)
      | _ => (readElements fuel s).map fun r => (.array r.1, r.2) := by
  rfl

theorem readValue_brace (fuel : ℕ) (s : List Char) :
    readValue (fuel + 1) ('{' :: s) = match skipBlanks s with
      | '}' :: s => some (.object [], s)
      | _ => (readMembers fuel s).map fun r => (.object r.1, r.2) := by
  rfl

/-- A string in quotes. -/
theorem reads_string {s : List Char} (h : Plain s) :
    Reads ('"' :: s ++ ['"']) (.string (.ofList s)) := by
  intro fuel rest hfuel
  cases fuel with
  | zero => cases hfuel
  | succ fuel =>
    have happend : ('"' :: s ++ ['"']) ++ rest = '"' :: (s ++ '"' :: rest) := by simp
    rw [happend, readValue_quote, readChars_append h]
    rfl

/-! ### Words -/

theorem isBlank_of_isWordChar {c : Char} (h : isWordChar c = true) : isBlank c = false := by
  by_contra hblank
  rw [Bool.not_eq_false, isBlank] at hblank
  simp only [Bool.or_eq_true, decide_eq_true_eq] at hblank
  rcases hblank with ((rfl | rfl) | rfl) | rfl
  all_goals exact absurd h (by decide)

/-- A word ends in front of the next other character. -/
theorem readsBefore_scalar {w : List Char} {c : Char} (hw : isScalar w = true)
    (hword : ∀ d ∈ w, isWordChar d = true) (hc : isWordChar c = false) (tail : List Char) :
    ReadsBefore (c :: tail) w (.scalar (.ofList w)) := by
  intro fuel rest hfuel
  cases w with
  | nil => exact absurd hw (by decide)
  | cons d w =>
    have hd : isWordChar d = true := hword d List.mem_cons_self
    have htake : (d :: w ++ (c :: tail ++ rest)).takeWhile isWordChar = d :: w := by
      rw [List.takeWhile_append_of_pos hword]
      simp [hc]
    have hdrop : (d :: w ++ (c :: tail ++ rest)).dropWhile isWordChar = c :: tail ++ rest := by
      rw [List.dropWhile_append_of_pos hword]
      simp [hc]
    cases fuel with
    | zero => cases hfuel
    | succ fuel =>
      have hskip : skipBlanks (d :: w ++ (c :: tail ++ rest)) = d :: w ++ (c :: tail ++ rest) :=
        skipBlanks_cons (isBlank_of_isWordChar hd) _
      rw [readValue, hskip]
      -- the other values begin with characters that are in no word
      split
      · rename_i heq
        exact absurd hd (by rw [(List.cons.inj heq).1]; decide)
      · rename_i heq
        exact absurd hd (by rw [(List.cons.inj heq).1]; decide)
      · rename_i heq
        exact absurd hd (by rw [(List.cons.inj heq).1]; decide)
      · rw [readWord, htake, hdrop, if_pos hw]

/-! ### Arrays -/

/-- The last element of an array. -/
theorem Reads.lastElement (h : Reads t j) (hblank : Blank ws) :
    ReadsElements (t ++ (ws ++ [']'])) [j] := by
  intro fuel rest hfuel
  simp only [List.length_append, List.length_singleton] at hfuel
  cases fuel with
  | zero => omega
  | succ fuel =>
    rw [List.append_assoc, List.append_assoc]
    show (readValue fuel _).bind _ = _
    rw [h fuel _ (by omega), Option.bind_some, skipBlanks_append hblank]
    rfl

theorem Reads.consElement (h : Reads t j) (hblank : Blank ws) {l : List Json}
    (h' : ReadsElements t' l) : ReadsElements (t ++ (ws ++ ',' :: t')) (j :: l) := by
  intro fuel rest hfuel
  simp only [List.length_append, List.length_cons] at hfuel
  cases fuel with
  | zero => omega
  | succ fuel =>
    rw [List.append_assoc, List.append_assoc]
    show (readValue fuel _).bind _ = _
    rw [h fuel _ (by omega), Option.bind_some, skipBlanks_append hblank]
    show (readElements fuel (t' ++ rest)).map _ = _
    rw [h' fuel rest (by omega)]
    rfl

/-- No element begins with a closing bracket. -/
theorem readElements_bracket (fuel : ℕ) {s s' : List Char} (h : skipBlanks s = ']' :: s') :
    readElements fuel s = none := by
  cases fuel with
  | zero => rfl
  | succ fuel =>
    have hvalue : readValue fuel s = none := by
      cases fuel with
      | zero => rfl
      | succ fuel =>
        rw [readValue, h]
        rfl
    rw [readElements, hvalue]
    rfl

theorem ReadsElements.array {l : List Json} (h : ReadsElements t l) :
    Reads ('[' :: t) (.array l) := by
  intro fuel rest hfuel
  rw [List.length_cons] at hfuel
  cases fuel with
  | zero => omega
  | succ fuel =>
    have helements := h fuel rest (by omega)
    rw [List.cons_append, readValue_bracket]
    split
    · rename_i s' hbracket
      rw [readElements_bracket fuel hbracket] at helements
      cases helements
    · rw [helements]
      rfl

theorem reads_array_nil (hblank : Blank ws) : Reads ('[' :: (ws ++ [']'])) (.array []) := by
  intro fuel rest hfuel
  cases fuel with
  | zero => cases hfuel
  | succ fuel =>
    rw [List.cons_append, readValue_bracket, List.append_assoc, skipBlanks_append hblank]
    rfl

/-! ### Objects -/

/-- The name of a member, and what the reader does behind it. -/
theorem readMembers_name (fuel : ℕ) {ws name : List Char} (hblank : Blank ws) (hname : Plain name)
    (s : List Char) :
    readMembers (fuel + 1) (ws ++ ('"' :: name ++ ('"' :: ':' :: s))) =
      (readValue fuel s).bind fun r => match skipBlanks r.2 with
        | ',' :: s => (readMembers fuel s).map fun l => ((.ofList name, r.1) :: l.1, l.2)
        | '}' :: s => some ([(.ofList name, r.1)], s)
        | _ => none := by
  rw [readMembers, skipBlanks_append hblank, List.cons_append, skipBlanks_cons rfl]
  show (readChars (name ++ '"' :: ':' :: s)).bind _ = _
  rw [readChars_append hname, Option.bind_some, skipBlanks_cons rfl]
  rfl

/-- The last member of an object. -/
theorem Reads.lastMember (h : Reads t j) {name : List Char} (hname : Plain name)
    {ws' : List Char} (hblank : Blank ws) (hblank' : Blank ws') :
    ReadsMembers (ws ++ ('"' :: name ++ ('"' :: ':' :: (t ++ (ws' ++ ['}'])))))
      [(.ofList name, j)] := by
  intro fuel rest hfuel
  simp only [List.length_append, List.length_cons] at hfuel
  cases fuel with
  | zero => omega
  | succ fuel =>
    have happend : ws ++ ('"' :: name ++ ('"' :: ':' :: (t ++ (ws' ++ ['}'])))) ++ rest =
        ws ++ ('"' :: name ++ ('"' :: ':' :: (t ++ (ws' ++ '}' :: rest)))) := by simp
    rw [happend, readMembers_name fuel hblank hname, h fuel _ (by omega), Option.bind_some,
      skipBlanks_append hblank']
    rfl

theorem ReadsBefore.consMember {ws' : List Char} (h : ReadsBefore (ws' ++ [',']) t j)
    {name : List Char} (hname : Plain name) (hblank : Blank ws) (hblank' : Blank ws')
    {l : List (String × Json)} (h' : ReadsMembers t' l) :
    ReadsMembers (ws ++ ('"' :: name ++ ('"' :: ':' :: (t ++ (ws' ++ ',' :: t')))))
      ((.ofList name, j) :: l) := by
  intro fuel rest hfuel
  simp only [List.length_append, List.length_cons] at hfuel
  cases fuel with
  | zero => omega
  | succ fuel =>
    have happend : ws ++ ('"' :: name ++ ('"' :: ':' :: (t ++ (ws' ++ ',' :: t')))) ++ rest =
        ws ++ ('"' :: name ++ ('"' :: ':' :: (t ++ (ws' ++ [','] ++ (t' ++ rest))))) := by simp
    rw [happend, readMembers_name fuel hblank hname, h fuel _ (by omega), Option.bind_some,
      List.append_assoc, skipBlanks_append hblank']
    show (readMembers fuel (t' ++ rest)).map _ = _
    rw [h' fuel rest (by omega)]
    rfl

theorem Reads.consMember (h : Reads t j) {name : List Char} (hname : Plain name)
    {ws' : List Char} (hblank : Blank ws) (hblank' : Blank ws') {l : List (String × Json)}
    (h' : ReadsMembers t' l) :
    ReadsMembers (ws ++ ('"' :: name ++ ('"' :: ':' :: (t ++ (ws' ++ ',' :: t')))))
      ((.ofList name, j) :: l) :=
  (h.before (ws' ++ [','])).consMember hname hblank hblank' h'

theorem ReadsMembers.object {l : List (String × Json)} (h : ReadsMembers t l) :
    Reads ('{' :: t) (.object l) := by
  intro fuel rest hfuel
  rw [List.length_cons] at hfuel
  cases fuel with
  | zero => omega
  | succ fuel =>
    have hmembers := h fuel rest (by omega)
    rw [List.cons_append, readValue_brace]
    split
    · rename_i s' hbrace
      -- a member begins with a quote
      cases fuel with
      | zero => cases hmembers
      | succ fuel =>
        rw [readMembers, hbrace] at hmembers
        exact absurd hmembers (by rintro ⟨⟩)
    · rw [hmembers]
      rfl

/-! ## What is refused -/

/-- The text is refused, whatever follows. -/
def Refused (t : List Char) : Prop :=
  ∀ fuel rest, t.length ≤ fuel → readValue fuel (t ++ rest) = none

def RefusedElements (t : List Char) : Prop :=
  ∀ fuel rest, t.length ≤ fuel → readElements fuel (t ++ rest) = none

def RefusedMembers (t : List Char) : Prop :=
  ∀ fuel rest, t.length ≤ fuel → readMembers fuel (t ++ rest) = none

theorem Refused.parse {s : String} {tail : List Char} (h : Refused t) (hs : s.toList = t ++ tail) :
    Json.parse s = none := by
  rw [Json.parse, hs, h _ tail (by rw [List.length_append]; omega)]
  rfl

/-- More text does not help. -/
theorem RefusedElements.append (h : RefusedElements t) (t' : List Char) :
    RefusedElements (t ++ t') := by
  intro fuel rest hfuel
  rw [List.length_append] at hfuel
  rw [List.append_assoc]
  exact h fuel (t' ++ rest) (by omega)

theorem Refused.append (h : Refused t) (t' : List Char) : Refused (t ++ t') := by
  intro fuel rest hfuel
  rw [List.length_append] at hfuel
  rw [List.append_assoc]
  exact h fuel (t' ++ rest) (by omega)

theorem Refused.blank (hblank : Blank ws) (h : Refused t) : Refused (ws ++ t) := by
  intro fuel rest hfuel
  rw [List.length_append] at hfuel
  rw [List.append_assoc, readValue_blank hblank]
  exact h fuel rest (by omega)

/-- What follows does not change the first character that is no blank. -/
theorem skipBlanks_of_first {c : Char} {s : List Char} (hblank : Blank ws) (hc : isBlank c = false)
    (hs : s = ws ++ c :: t') (rest : List Char) : skipBlanks (s ++ rest) = c :: (t' ++ rest) := by
  rw [hs, List.append_assoc, skipBlanks_append hblank, List.cons_append, skipBlanks_cons hc]

theorem refusedElements_bracket (hblank : Blank ws) : RefusedElements (ws ++ [']']) := by
  intro fuel rest _
  exact readElements_bracket fuel (skipBlanks_of_first hblank rfl rfl rest)

/-- After an element stands a comma or the closing bracket. -/
theorem Reads.missingComma (h : Reads t j) (hblank : Blank ws) {c : Char} (hc : isBlank c = false)
    (hcomma : c ≠ ',') (hbracket : c ≠ ']') : RefusedElements (t ++ (ws ++ [c])) := by
  intro fuel rest hfuel
  simp only [List.length_append, List.length_singleton] at hfuel
  cases fuel with
  | zero => rfl
  | succ fuel =>
    rw [List.append_assoc, List.append_assoc]
    show (readValue fuel _).bind _ = _
    rw [h fuel _ (by omega), Option.bind_some, skipBlanks_append hblank, List.singleton_append,
      skipBlanks_cons hc]
    split
    · rename_i heq
      exact absurd (List.cons.inj heq).1 hcomma
    · rename_i heq
      exact absurd (List.cons.inj heq).1 hbracket
    · rfl

theorem Reads.consRefusedElement (h : Reads t j) (hblank : Blank ws) (h' : RefusedElements t') :
    RefusedElements (t ++ (ws ++ ',' :: t')) := by
  intro fuel rest hfuel
  simp only [List.length_append, List.length_cons] at hfuel
  cases fuel with
  | zero => rfl
  | succ fuel =>
    rw [List.append_assoc, List.append_assoc]
    show (readValue fuel _).bind _ = _
    rw [h fuel _ (by omega), Option.bind_some, skipBlanks_append hblank]
    show (readElements fuel (t' ++ rest)).map _ = _
    rw [h' fuel rest (by omega)]
    rfl

/-- After a comma stands another element. -/
theorem Reads.trailingComma (h : Reads t j) (hblank : Blank ws) {ws' : List Char}
    (hblank' : Blank ws') : RefusedElements (t ++ (ws ++ ',' :: (ws' ++ [']']))) :=
  h.consRefusedElement hblank (refusedElements_bracket hblank')

/-- An array that is not empty is refused if its elements are. -/
theorem RefusedElements.array (h : RefusedElements t) {c : Char} (hblank : Blank ws)
    (hc : isBlank c = false) (ht : t = ws ++ c :: t') (hne : c ≠ ']') : Refused ('[' :: t) := by
  intro fuel rest hfuel
  rw [List.length_cons] at hfuel
  cases fuel with
  | zero => rfl
  | succ fuel =>
    rw [List.cons_append, readValue_bracket, skipBlanks_of_first hblank hc ht]
    split
    · rename_i heq
      exact absurd (List.cons.inj heq).1 hne
    · rw [h fuel rest (by omega)]
      rfl

theorem Refused.member (h : Refused t) {name : List Char} (hname : Plain name)
    (hblank : Blank ws) : RefusedMembers (ws ++ ('"' :: name ++ ('"' :: ':' :: t))) := by
  intro fuel rest hfuel
  simp only [List.length_append, List.length_cons] at hfuel
  cases fuel with
  | zero => rfl
  | succ fuel =>
    have happend : ws ++ ('"' :: name ++ ('"' :: ':' :: t)) ++ rest =
        ws ++ ('"' :: name ++ ('"' :: ':' :: (t ++ rest))) := by simp
    rw [happend, readMembers_name fuel hblank hname, h fuel rest (by omega)]
    rfl

theorem ReadsBefore.consRefusedMember {ws' : List Char} (h : ReadsBefore (ws' ++ [',']) t j)
    {name : List Char} (hname : Plain name) (hblank : Blank ws) (hblank' : Blank ws')
    (h' : RefusedMembers t') :
    RefusedMembers (ws ++ ('"' :: name ++ ('"' :: ':' :: (t ++ (ws' ++ ',' :: t'))))) := by
  intro fuel rest hfuel
  simp only [List.length_append, List.length_cons] at hfuel
  cases fuel with
  | zero => rfl
  | succ fuel =>
    have happend : ws ++ ('"' :: name ++ ('"' :: ':' :: (t ++ (ws' ++ ',' :: t')))) ++ rest =
        ws ++ ('"' :: name ++ ('"' :: ':' :: (t ++ (ws' ++ [','] ++ (t' ++ rest))))) := by simp
    rw [happend, readMembers_name fuel hblank hname, h fuel _ (by omega), Option.bind_some,
      List.append_assoc, skipBlanks_append hblank']
    show (readMembers fuel (t' ++ rest)).map _ = _
    rw [h' fuel rest (by omega)]
    rfl

theorem Reads.consRefusedMember (h : Reads t j) {name : List Char} (hname : Plain name)
    {ws' : List Char} (hblank : Blank ws) (hblank' : Blank ws') (h' : RefusedMembers t') :
    RefusedMembers (ws ++ ('"' :: name ++ ('"' :: ':' :: (t ++ (ws' ++ ',' :: t'))))) :=
  (h.before (ws' ++ [','])).consRefusedMember hname hblank hblank' h'

/-- An object that is not empty is refused if its members are. -/
theorem RefusedMembers.object (h : RefusedMembers t) {c : Char} (hblank : Blank ws)
    (hc : isBlank c = false) (ht : t = ws ++ c :: t') (hne : c ≠ '}') : Refused ('{' :: t) := by
  intro fuel rest hfuel
  rw [List.length_cons] at hfuel
  cases fuel with
  | zero => rfl
  | succ fuel =>
    rw [List.cons_append, readValue_brace, skipBlanks_of_first hblank hc ht]
    split
    · rename_i heq
      exact absurd (List.cons.inj heq).1 hne
    · rw [h fuel rest (by omega)]
      rfl

end Json

end TVMCompiler.Lib
