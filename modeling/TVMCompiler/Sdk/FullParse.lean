import TVMCompiler.Sdk.ParseFailure

/-!
# Full parsing

A caller can ask that nothing is left behind a value, and choose the error code for content that is
no value of the type. A parser does both. The parser of a slice drops the two arguments, and a lazy
value goes through it.

## Main definitions

* `Exit`: how a parse ends without a value
* `parseParser`, `parseSlice`, `lazyVal`, `lazyCall`: the ways to parse a whole value
* `Rejects`: a value is returned only if nothing is left, and the error code is the given one

## Main results

* `parseParser_ends`: the parser of a `parser` rejects trailing content
* `parseSlice_rejects_iff`: when the parser of a slice and lazy values do
-/

namespace TVMCompiler.Sdk

open Lib

/-- How a parse ends without a value: with an error code, or undefined. -/
inductive Exit where
  | code (errCode : ℕ)
  | undefined
  deriving DecidableEq, Repr

namespace errorCode

/-- `error_code::custom_data_parse_error`. -/
def customDataParseError : ℕ := 52

end errorCode

/-- The codes of the machine's exceptions. -/
def TvmException.exit : TvmException → Exit
  | .rangeCheck => .code 5
  | .cellOverflow => .code 8
  | .cellUnderflow => .code 9
  | .customDataParseError => .code errorCode.customDataParseError
  | .emptyOptional => .undefined

/-- `parse` of a `parser`. -/
def parseParser (t : Ty) (p : Slice) (errCode : ℕ) (full : Bool) : Except Exit t.Val :=
  match parse t [] p with
  | .error e => .error e.exit
  | .ok (none, _) => .error (.code errCode)
  | .ok (some v, q) =>
    if full then
      match q.ends with
      | .error e => .error e.exit
      | .ok () => .ok v
    else .ok v

/-- `parse` of a slice, which parses with the default arguments. -/
def parseSlice (t : Ty) (sl : Slice) (_errCode : ℕ) (_full : Bool) : Except Exit t.Val :=
  parseParser t sl errorCode.customDataParseError false

/-- `lazy::val`. -/
def lazyVal (t : Ty) (sl : Slice) : Except Exit t.Val :=
  parseSlice t sl errorCode.customDataParseError true

/-- `lazy::operator()`. -/
def lazyCall (t : Ty) (sl : Slice) : Except Exit t.Val := lazyVal t sl

/-- The result is a value only if nothing is left behind it, and if a constant is missing it is the
error code. -/
structure Rejects (t : Ty) (sl : Slice) (errCode : ℕ) (r : Except Exit t.Val) : Prop where
  exact : ∀ v, r = .ok v → parse t [] sl = .ok (some v, .empty)
  defined : r ≠ .error .undefined
  code : Missing t [] sl → r = .error (.code errCode)

section Parser

variable {t : Ty} {p q : Slice} {errCode : ℕ} {full : Bool} {v : t.Val}

theorem parseParser_error {e : TvmException} (h : parse t [] p = .error e) :
    parseParser t p errCode full = .error e.exit := by
  rw [parseParser, h]

theorem parseParser_none (h : parse t [] p = .ok (none, q)) :
    parseParser t p errCode full = .error (.code errCode) := by
  rw [parseParser, h]

theorem parseParser_some (h : parse t [] p = .ok (some v, q)) :
    parseParser t p errCode false = .ok v := by
  rw [parseParser, h]
  rfl

/-- **The parser of a `parser` rejects trailing content.** -/
theorem parseParser_ends (h : parseParser t p errCode true = .ok v) :
    parse t [] p = .ok (some v, .empty) := by
  unfold parseParser at h
  rcases hparse : parse t [] p with e | ⟨_ | w, q⟩
  · rw [hparse] at h
    cases h
  · rw [hparse] at h
    cases h
  · rw [hparse] at h
    dsimp only at h
    rw [if_pos rfl] at h
    cases hends : q.ends with
    | error e =>
      rw [hends] at h
      cases h
    | ok u =>
      rw [hends] at h
      cases h
      rw [eq_empty_of_ends hends]

end Parser

/-- The exceptions of the loads have codes. -/
theorem exit_eq_undefined {e : TvmException} : e.exit = .undefined ↔ e = .emptyOptional := by
  cases e with
  | emptyOptional => exact iff_of_true rfl rfl
  | _ => exact iff_of_false nofun nofun

/-- The inputs on which it does not matter that both arguments are dropped: nothing is left behind a
value, and if a constant is missing the parser ends without a value and the code is the default
one. -/
structure DefaultsSuffice (t : Ty) (sl : Slice) (errCode : ℕ) : Prop where
  notRead : ¬ ReadsEmpty t [] sl
  ends : ∀ v q, parse t [] sl = .ok (some v, q) → q = .empty
  missing : Missing t [] sl → (∃ q, parse t [] sl = .ok (none, q)) ∧
    errCode = errorCode.customDataParseError

/-- The error code of a parse with the default arguments, when a constant is missing: only a parser
that ends without a value throws it. -/
theorem parseParser_eq_default {t : Ty} {sl : Slice} (hmissing : Missing t [] sl)
    (h : parseParser t sl errorCode.customDataParseError false =
      .error (.code errorCode.customDataParseError)) :
    ∃ q, parse t [] sl = .ok (none, q) := by
  rcases missing_givesNone t [] sl hmissing with hnone | hthrow | hempty
  · exact hnone
  · rw [parseParser_error hthrow] at h
    cases h
  · rw [parseParser_error hempty] at h
    cases h

/-- **The parser of a slice and lazy values reject what is not a value exactly where the two
arguments do not matter.** -/
theorem parseSlice_rejects_iff (t : Ty) (sl : Slice) (errCode : ℕ) :
    (Rejects t sl errCode (parseSlice t sl errCode true) ∧
      Rejects t sl errorCode.customDataParseError (lazyVal t sl) ∧
      Rejects t sl errorCode.customDataParseError (lazyCall t sl)) ↔
    DefaultsSuffice t sl errCode := by
  constructor
  · rintro ⟨hslice, hlazy, -⟩
    refine ⟨fun hread => hlazy.defined ?_, fun v q hparse => ?_, fun hmissing => ?_⟩
    · exact parseParser_error ((parse_eq_emptyOptional_iff t [] sl).mpr hread)
    · -- the value is returned whatever is left behind it
      have hexact := hlazy.exact v (parseParser_some hparse)
      exact (Prod.ext_iff.mp (Except.ok.inj (hparse.symm.trans hexact))).2
    · obtain ⟨q, hnone⟩ := parseParser_eq_default hmissing (hlazy.code hmissing)
      have hcode := (hslice.code hmissing).symm.trans (parseParser_none hnone)
      cases hcode
      exact ⟨⟨q, hnone⟩, rfl⟩
  · rintro ⟨hread, hends, hmissing⟩
    have hrejects : ∀ code, (Missing t [] sl → code = errorCode.customDataParseError) →
        Rejects t sl code (parseParser t sl errorCode.customDataParseError false) := by
      intro code hcode
      refine ⟨fun v hv => ?_, fun hundefined => ?_, fun hmiss => ?_⟩
      · rcases hparse : parse t [] sl with e | ⟨_ | w, q⟩
        · rw [parseParser_error hparse] at hv
          cases hv
        · rw [parseParser_none hparse] at hv
          cases hv
        · rw [parseParser_some hparse] at hv
          cases hv
          rw [hends _ q hparse]
      · rcases hparse : parse t [] sl with e | ⟨_ | w, q⟩
        · rw [parseParser_error hparse] at hundefined
          have hexit := exit_eq_undefined.mp (Except.error.inj hundefined)
          exact hread ((parse_eq_emptyOptional_iff t [] sl).mp (hexit ▸ hparse))
        · rw [parseParser_none hparse] at hundefined
          cases hundefined
        · rw [parseParser_some hparse] at hundefined
          cases hundefined
      · obtain ⟨⟨q, hnone⟩, -⟩ := hmissing hmiss
        rw [parseParser_none hnone, hcode hmiss]
    exact ⟨hrejects errCode fun hmiss => (hmissing hmiss).2, hrejects _ fun _ => rfl,
      hrejects _ fun _ => rfl⟩

/-- Nine bits are not a number of eight bits, but are parsed as one. -/
theorem not_rejects_trailing :
    ¬ Rejects (.uint 8) ⟨natBits 9 3, []⟩ 51 (parseSlice (.uint 8) ⟨natBits 9 3, []⟩ 51 true) ∧
      ¬ Rejects (.uint 8) ⟨natBits 9 3, []⟩ 52 (lazyVal (.uint 8) ⟨natBits 9 3, []⟩) ∧
      ¬ Rejects (.bitconst 8 1) ⟨natBits 8 2, []⟩ 51
        (parseSlice (.bitconst 8 1) ⟨natBits 8 2, []⟩ 51 true) := by
  refine ⟨fun h => ?_, fun h => ?_, fun h => ?_⟩
  · have hexact := h.exact (1 : ℕ) rfl
    cases hexact
  · have hexact := h.exact (1 : ℕ) rfl
    cases hexact
  · -- the code is the default one
    have hcode := h.code ⟨⟨[], []⟩, rfl⟩
    cases hcode

end TVMCompiler.Sdk
