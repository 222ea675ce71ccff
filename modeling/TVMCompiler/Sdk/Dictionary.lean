import Mathlib.Algebra.Group.Nat.Defs
import Mathlib.Order.Nat
import TVMCompiler.Lib.SortedMap

/-!
# Dictionaries

The dictionaries of the machine map unsigned keys of a given number of bits to slices or cells.
What the containers of the SDK store there is an element in its encoded form.

## Main definitions

* `Dictionary` and its primitives `dictuset`, `dictusetget`, `dictuget`, `dictudel`, `dictudelget`,
  `dictumin`, `dictumax`, `dicturemmin`, `dicturemmax`, `dictugetnext`, `dictugetprev`
* `ElementCodec`: how the elements of a container are encoded
-/

namespace TVMCompiler.Sdk

open Lib

/-- The exceptions of the containers: `error_code::iterator_overflow`, the range check of the
machine and `error_code::custom_data_parse_error`. -/
inductive SdkError where
  | iteratorOverflow
  | rangeCheck
  | customDataParseError
  deriving DecidableEq, Repr

/-- `require`. -/
def require (cond : Bool) (err : SdkError) : Except SdkError Unit :=
  if cond then .ok () else .error err

abbrev Dictionary (Stored : Type) := SortedMap ℕ Stored

namespace Dictionary

variable {Stored : Type}

/-- A key that does not fit its width cannot be set. -/
def dictuset (dict : Dictionary Stored) (val : Stored) (key keyLen : ℕ) :
    Except SdkError (Dictionary Stored) :=
  if key < 2 ^ keyLen then .ok (dict.insert key val) else .error .rangeCheck

/-- The value that the key had before comes with the new dictionary. -/
def dictusetget (dict : Dictionary Stored) (val : Stored) (key keyLen : ℕ) :
    Except SdkError (Dictionary Stored × Option Stored) :=
  if key < 2 ^ keyLen then .ok (dict.insert key val, dict.lookup key) else .error .rangeCheck

def dictuget (dict : Dictionary Stored) (key : ℕ) : Option Stored := dict.lookup key

def dictudel (dict : Dictionary Stored) (key : ℕ) : Dictionary Stored × Bool :=
  (dict.erase key, decide (key ∈ dict.keys))

/-- The value that the key had comes with the new dictionary. -/
def dictudelget (dict : Dictionary Stored) (key : ℕ) : Dictionary Stored × Option Stored :=
  (dict.erase key, dict.lookup key)

def dictumin (dict : Dictionary Stored) : Option (ℕ × Stored) := dict.min?

def dictumax (dict : Dictionary Stored) : Option (ℕ × Stored) := dict.max?

def dictugetnext (dict : Dictionary Stored) (prevIdx : ℕ) : Option (ℕ × Stored) :=
  dict.next? prevIdx

def dictugetprev (dict : Dictionary Stored) (nextIdx : ℕ) : Option (ℕ × Stored) :=
  dict.prev? nextIdx

def dicturemmin (dict : Dictionary Stored) : Dictionary Stored × Option (ℕ × Stored) :=
  match dict.min? with
  | some e => (dict.erase e.1, some e)
  | none => (dict, none)

def dicturemmax (dict : Dictionary Stored) : Dictionary Stored × Option (ℕ × Stored) :=
  match dict.max? with
  | some e => (dict.erase e.1, some e)
  | none => (dict, none)

variable {dict : Dictionary Stored} {e : ℕ × Stored} {before after : List (ℕ × Stored)}

theorem dictuset_eq_ok {key keyLen : ℕ} {val : Stored} (h : key < 2 ^ keyLen) :
    dict.dictuset val key keyLen = .ok (dict.insert key val) := if_pos h

theorem dicturemmin_of_cons (h : dict.entries = e :: after) :
    ∃ rest : Dictionary Stored, dict.dicturemmin = (rest, some e) ∧ rest.entries = after := by
  have hmin : dict.min? = some e := by rw [SortedMap.min?, h]; rfl
  have hsplit : dict.entries = [] ++ e :: after := h
  exact ⟨dict.erase e.1, by rw [dicturemmin, hmin], SortedMap.entries_erase_of_split hsplit⟩

theorem dicturemmax_of_concat (h : dict.entries = before ++ [e]) :
    ∃ rest : Dictionary Stored, dict.dicturemmax = (rest, some e) ∧ rest.entries = before := by
  have hmax : dict.max? = some e := by rw [SortedMap.max?, h, List.getLast?_concat]
  refine ⟨dict.erase e.1, by rw [dicturemmax, hmax], ?_⟩
  rw [SortedMap.entries_erase_of_split h, List.append_nil]

theorem dicturemmin_of_nil (h : dict.entries = []) : dict.dicturemmin = (dict, none) := by
  rw [dicturemmin, SortedMap.min?_eq_none.mpr h]

theorem dicturemmax_of_nil (h : dict.entries = []) : dict.dicturemmax = (dict, none) := by
  rw [dicturemmax, SortedMap.max?_eq_none.mpr h]

end Dictionary

/-- How the elements of a container are encoded: inline as a slice, or in a cell of their own.
An element that has been built can be parsed. -/
structure ElementCodec (Element Stored : Type) where
  build : Element → Stored
  parse : Stored → Except SdkError Element
  parse_build : ∀ elem, parse (build elem) = .ok elem

/-- Elements stored as they are. -/
def ElementCodec.plain (Element : Type) : ElementCodec Element Element where
  build elem := elem
  parse elem := .ok elem
  parse_build _ := rfl

end TVMCompiler.Sdk
