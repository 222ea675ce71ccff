import TVMCompiler.Lib.Ssa
import Mathlib.Data.Int.Notation

/-!
# Undefined values

`TVMDefineUndef` puts a phi without undefined values in the place of each phi that has some. The
values that it takes instead are made in the blocks they come from. Stores of undefined values are
given values too.

## Main definitions

* `definedValue`, `definePhi`, `runOnBasicBlock`, `runOnFunction`: the pass
* `Edited`, `PhiStep`: what becomes of the instructions of a block, and of the function for one phi
* `DefinesUndef`: what the pass should do

## Main results

* `definePhi_spec`, `foldlM_definePhi_spec`: one phi, and the loop over the phis
* `edited_defineStores`: the loop over the stores
* `definesUndef_iff`: when the pass does what it should for a block
* `runOnFunction_spec`, `isSome_runOnFunction`: the pass over all blocks
-/

namespace TVMCompiler.DefineUndef

open Lib.Ssa

inductive IRType where
  | integer (width : ℕ)
  | pointer
  | tvmSlice
  | tvmBuilder
  | tvmCell
  | tvmTuple
  deriving DecidableEq

inductive Constant where
  | int (width : ℕ) (n : ℤ)
  | other (id : ℕ)
  deriving DecidableEq

/-- The intrinsics that the pass knows, and the other instructions. -/
inductive Opcode where
  | tvmStu
  | tvmSti
  | tvmStref
  | tvmStdict
  | tvmStslice
  | tvmPushnull
  | tvmCastTo (ty : IRType)
  | tvmNewc
  | tvmEndc
  | tvmCtos
  | other (id : ℕ)
  deriving DecidableEq

/-- The intrinsics that write nothing. -/
def isPure : Opcode → Bool
  | .tvmPushnull | .tvmCastTo _ | .tvmNewc | .tvmEndc | .tvmCtos => true
  | _ => false

abbrev IRValue := Value IRType Constant

abbrev Instruction := Instr Opcode IRType Constant

abbrev PHINode := Phi IRType Constant

abbrev IRFunc := Function Opcode IRType Constant

/-! ## The pass -/

/-- `tvm_pushnull` and its cast, in front of the block `p`. -/
def castOfNull (F : IRFunc) (p : ℕ) (ty : IRType) : IRFunc × IRValue :=
  (F.setInstrs p (F.next + 2) (⟨F.next, .tvmPushnull, []⟩ ::
    ⟨F.next + 1, .tvmCastTo ty, [.name F.next]⟩ :: (F.block p).instrs), .name (F.next + 1))

/-- `none` where `llvm_unreachable` is reached. -/
def definedValue (F : IRFunc) (p : ℕ) : IRType → Option (IRFunc × IRValue)
  | .integer width => if width = 257 then some (F, .const (.int 257 0)) else none
  | .tvmCell => some (castOfNull F p .tvmCell)
  | .tvmSlice => some (castOfNull F p .tvmSlice)
  | .tvmBuilder => some (castOfNull F p .tvmBuilder)
  | .tvmTuple => some (castOfNull F p .tvmTuple)
  | .pointer => none

/-- The incoming value of the new phi. -/
def definedIncoming (F : IRFunc) (p : ℕ) : IRValue → Option (IRFunc × IRValue)
  | .undef ty => definedValue F p ty
  | v => some (F, v)

/-- The entries of the new phi. -/
def addIncoming (F : IRFunc) : List (IRValue × ℕ) → Option (IRFunc × List (IRValue × ℕ))
  | [] => some (F, [])
  | (v, p) :: entries => (definedIncoming F p v).bind fun r =>
    (addIncoming r.1 entries).map fun r' => (r'.1, (r.2, p) :: r'.2)

def isUndef : IRValue → Bool
  | .undef _ => true
  | _ => false

def isUndefinedPhi (φ : PHINode) : Bool := φ.incoming.any fun e => isUndef e.1

/-- The phi `n` of the block `b`. -/
def definePhi (b : ℕ) (F : IRFunc) (n : ℕ) : Option IRFunc :=
  match findPhi (F.block b).phis n with
  | none => some F
  | some φ =>
    if φ.ty = .pointer then some F
    else if isUndefinedPhi φ then
      (addIncoming F φ.incoming).map fun r =>
        (r.1.insertPhi b n φ.ty r.2).replaceAllUsesWith n r.1.next
    else some F

def replaceUsesOfWith (u v : IRValue) (i : Instruction) : Instruction :=
  { i with operands := i.operands.map fun w => if w = u then v else w }

/-- A store of the undefined value `u`. The value that takes its place is given by instructions in
front of the store, with names from `next` on. -/
def defineOperand (u : IRValue) (fill : ℕ → List Instruction × IRValue × ℕ) (next : ℕ)
    (i : Instruction) : List Instruction × ℕ :=
  if i.operands.head? = some u then
    ((fill next).1 ++ [replaceUsesOfWith u (fill next).2.1 i], (fill next).2.2)
  else ([i], next)

def definePlainStore : ℕ → Instruction → List Instruction × ℕ :=
  defineOperand (.undef (.integer 257)) fun next => ([], .const (.int 257 0), next)

def defineStref : ℕ → Instruction → List Instruction × ℕ :=
  defineOperand (.undef .tvmCell) fun next =>
    ([⟨next, .tvmNewc, []⟩, ⟨next + 1, .tvmEndc, [.name next]⟩], .name (next + 1), next + 2)

def defineStdict : ℕ → Instruction → List Instruction × ℕ :=
  defineOperand (.undef .tvmCell) fun next =>
    ([⟨next, .tvmPushnull, []⟩, ⟨next + 1, .tvmCastTo .tvmCell, [.name next]⟩],
      .name (next + 1), next + 2)

def defineStslice : ℕ → Instruction → List Instruction × ℕ :=
  defineOperand (.undef .tvmSlice) fun next =>
    ([⟨next, .tvmNewc, []⟩, ⟨next + 1, .tvmEndc, [.name next]⟩,
      ⟨next + 2, .tvmCtos, [.name (next + 1)]⟩], .name (next + 2), next + 3)

def defineStore (next : ℕ) (i : Instruction) : List Instruction × ℕ :=
  match i.op with
  | .tvmStu | .tvmSti => definePlainStore next i
  | .tvmStref => defineStref next i
  | .tvmStdict => defineStdict next i
  | .tvmStslice => defineStslice next i
  | _ => ([i], next)

/-- The loop over the instructions of the block. -/
def defineStores : ℕ → List Instruction → List Instruction × ℕ
  | next, [] => ([], next)
  | next, i :: is =>
    ((defineStore next i).1 ++ (defineStores (defineStore next i).2 is).1,
      (defineStores (defineStore next i).2 is).2)

/-- The loop over the phis. New phis stand in front of the phi that is visited. -/
def definePhis (b : ℕ) (F : IRFunc) : Option IRFunc :=
  ((F.block b).phis.map Phi.result).foldlM (definePhi b) F

def runOnBasicBlock (b : ℕ) (F : IRFunc) : Option IRFunc :=
  (definePhis b F).map fun F =>
    F.setInstrs b (defineStores F.next (F.block b).instrs).2
      (defineStores F.next (F.block b).instrs).1

/-! ## The values that are put in -/

/-- The types of the undefined values that the pass can define. -/
def HasDefault : IRType → Prop
  | .integer width => width = 257
  | .pointer => False
  | _ => True

/-- Some incoming value of the phi is undefined, at this type. -/
def HasUndef (φ : PHINode) (ty : IRType) : Prop := ∃ e ∈ φ.incoming, e.1 = .undef ty

theorem isUndef_iff {v : IRValue} : isUndef v = true ↔ ∃ ty, v = .undef ty := by
  cases v with
  | undef ty => exact ⟨fun _ => ⟨ty, rfl⟩, fun _ => rfl⟩
  | const c =>
    constructor
    · rintro ⟨⟩
    · rintro ⟨_, ⟨⟩⟩
  | name n =>
    constructor
    · rintro ⟨⟩
    · rintro ⟨_, ⟨⟩⟩

theorem isUndefinedPhi_iff {φ : PHINode} : isUndefinedPhi φ = true ↔ ∃ ty, HasUndef φ ty := by
  unfold isUndefinedPhi
  rw [List.any_eq_true]
  constructor
  · rintro ⟨e, he, hundef⟩
    obtain ⟨ty, hty⟩ := isUndef_iff.mp hundef
    exact ⟨ty, e, he, hty⟩
  · rintro ⟨ty, e, he, hty⟩
    exact ⟨e, he, isUndef_iff.mpr ⟨ty, hty⟩⟩

/-- The function after values have been put into its blocks: no phi has changed. -/
structure Grows (F F' : IRFunc) : Prop where
  wellFormed : F'.WellFormed
  next_le : F.next ≤ F'.next
  phis : ∀ q, (F'.block q).phis = (F.block q).phis
  refines : Refines isPure id F F'
  uses : ∀ n, F'.Uses n → F.Uses n ∨ F.next ≤ n

theorem Grows.refl {F : IRFunc} (hF : F.WellFormed) : Grows F F :=
  ⟨hF, Nat.le_refl _, fun _ => rfl, refines_id hF, fun _ h => .inl h⟩

theorem Grows.trans {F F' F'' : IRFunc} (h : Grows F F') (h' : Grows F' F'') : Grows F F'' := by
  refine ⟨h'.wellFormed, Nat.le_trans h.next_le h'.next_le,
    fun q => (h'.phis q).trans (h.phis q), h.refines.trans h'.refines, fun n hn => ?_⟩
  rcases h'.uses n hn with hn | hn
  · exact h.uses n hn
  · exact .inr (Nat.le_trans h.next_le hn)

/-- Instructions in the place of those of a block, when the names from `bound` on are new. -/
structure Edited (bound next : ℕ) (is is' : List Instruction) : Prop where
  covers : Covers isPure id bound is is'
  lt_next : ∀ i ∈ is', i.result < next
  result : ∀ i ∈ is', bound ≤ i.result ∨ ∃ j ∈ is, j.result = i.result
  below : ∀ i ∈ is', ∀ v ∈ i.operands, v.Below next
  uses : ∀ i ∈ is', ∀ n, .name n ∈ i.operands → (∃ j ∈ is, .name n ∈ j.operands) ∨ bound ≤ n

theorem Edited.append {bound next next' : ℕ} {is is' js js' : List Instruction}
    (h : Edited bound next is is') (h' : Edited bound next' js js') (hnext : next ≤ next') :
    Edited bound next' (is ++ js) (is' ++ js') := by
  refine ⟨h.covers.append h'.covers, fun i hi => ?_, fun i hi => ?_, fun i hi v hv => ?_,
    fun i hi n hn => ?_⟩
  · rcases List.mem_append.mp hi with hi | hi
    · exact Nat.lt_of_lt_of_le (h.lt_next i hi) hnext
    · exact h'.lt_next i hi
  · rcases List.mem_append.mp hi with hi | hi
    · exact (h.result i hi).imp_right fun ⟨j, hj, hresult⟩ =>
        ⟨j, List.mem_append_left _ hj, hresult⟩
    · exact (h'.result i hi).imp_right fun ⟨j, hj, hresult⟩ =>
        ⟨j, List.mem_append_right _ hj, hresult⟩
  · rcases List.mem_append.mp hi with hi | hi
    · exact (h.below i hi v hv).mono hnext
    · exact h'.below i hi v hv
  · rcases List.mem_append.mp hi with hi | hi
    · exact (h.uses i hi n hn).imp_left fun ⟨j, hj, hname⟩ =>
        ⟨j, List.mem_append_left _ hj, hname⟩
    · exact (h'.uses i hi n hn).imp_left fun ⟨j, hj, hname⟩ =>
        ⟨j, List.mem_append_right _ hj, hname⟩

/-- Instructions that only make a value, with names from `next` up to `next'`. -/
structure Fills (next next' : ℕ) (is : List Instruction) : Prop where
  pure : ∀ i ∈ is, isPure i.op = true
  result : ∀ i ∈ is, next ≤ i.result ∧ i.result < next'
  operand : ∀ i ∈ is, ∀ n, .name n ∈ i.operands → next ≤ n ∧ n < next'

theorem covers_fills {bound : ℕ} : ∀ {is : List Instruction}, (∀ i ∈ is, isPure i.op = true) →
    (∀ i ∈ is, bound ≤ i.result) → Covers isPure id bound [] is
  | [], _, _ => .nil
  | _ :: _, hpure, hresult =>
    .insert (List.forall_mem_cons.mp hpure).1
      (fun _ hm => Nat.ne_of_lt (Nat.lt_of_lt_of_le hm (List.forall_mem_cons.mp hresult).1))
        (covers_fills (List.forall_mem_cons.mp hpure).2 (List.forall_mem_cons.mp hresult).2)

theorem Fills.edited {bound next next' : ℕ} {is : List Instruction} (h : Fills next next' is)
    (hbound : bound ≤ next) : Edited bound next' [] is := by
  have hresult : ∀ i ∈ is, bound ≤ i.result :=
    fun i hi => Nat.le_trans hbound (h.result i hi).1
  refine ⟨covers_fills h.pure hresult, fun i hi => (h.result i hi).2,
    fun i hi => .inl (hresult i hi), fun i hi v hv n hn => ?_, fun i hi n hn => ?_⟩
  · rw [hn] at hv
    exact (h.operand i hi n hv).2
  · exact .inr (Nat.le_trans hbound (h.operand i hi n hn).1)

/-- The instructions of a block may stay. -/
theorem edited_self {F : IRFunc} (hF : F.WellFormed) {next : ℕ} (hnext : F.next ≤ next) (p : ℕ) :
    Edited F.next next (F.block p).instrs (F.block p).instrs :=
  ⟨hF.covers_id p, fun i hi => Nat.lt_of_lt_of_le (hF.instr_lt p i hi) hnext,
    fun i hi => .inr ⟨i, hi, rfl⟩, fun i hi v hv => (hF.operand_below p i hi v hv).mono hnext,
    fun i hi _ hn => .inl ⟨i, hi, hn⟩⟩

theorem Edited.grows {F : IRFunc} (hF : F.WellFormed) {p next : ℕ} {is : List Instruction}
    (h : Edited F.next next (F.block p).instrs is) (hnext : F.next ≤ next) :
    Grows F (F.setInstrs p next is) := by
  refine ⟨hF.setInstrs hnext h.lt_next h.below h.result, hnext,
    fun q => Function.setInstrs_phis is q, refines_setInstrs hF hnext h.covers, fun n hn => ?_⟩
  rcases Function.uses_setInstrs hn with hn | ⟨i, hi, hname⟩
  · exact .inl hn
  · exact (h.uses i hi n hname).imp_left fun ⟨j, hj, hname'⟩ => ⟨p, .inr ⟨j, hj, hname'⟩⟩

theorem fills_castOfNull (next : ℕ) (ty : IRType) :
    Fills next (next + 2) [⟨next, .tvmPushnull, []⟩, ⟨next + 1, .tvmCastTo ty, [.name next]⟩] := by
  constructor <;> simp [isPure]

theorem grows_castOfNull {F : IRFunc} (hF : F.WellFormed) (p : ℕ) (ty : IRType) :
    Grows F (castOfNull F p ty).1 :=
  (((fills_castOfNull F.next ty).edited (Nat.le_refl _)).append
    (edited_self hF (Nat.le_add_right _ 2) p) (Nat.le_refl _)).grows hF (Nat.le_add_right _ 2)

/-- A value that takes the place of an undefined one. -/
structure Fresh (next next' : ℕ) (v : IRValue) : Prop where
  defined : isUndef v = false
  below : v.Below next'
  fresh : ∀ n, v = .name n → next ≤ n

theorem fresh_castOfNull (F : IRFunc) (p : ℕ) (ty : IRType) :
    Fresh F.next (castOfNull F p ty).1.next (castOfNull F p ty).2 := by
  refine ⟨rfl, Value.below_name (Nat.lt_succ_self _), fun n hn => ?_⟩
  cases hn
  exact Nat.le_succ _

theorem definedValue_spec {F F' : IRFunc} (hF : F.WellFormed) {p : ℕ} {ty : IRType} {v : IRValue}
    (h : definedValue F p ty = some (F', v)) : Grows F F' ∧ Fresh F.next F'.next v := by
  have hcast {ty' : IRType} (h : some (castOfNull F p ty') = some (F', v)) :
      Grows F F' ∧ Fresh F.next F'.next v := by
    have hgrows := grows_castOfNull hF p ty'
    have hfresh := fresh_castOfNull F p ty'
    rw [Option.some_inj.mp h] at hgrows hfresh
    exact ⟨hgrows, hfresh⟩
  cases ty with
  | integer width =>
    rw [definedValue] at h
    split at h
    · cases h
      exact ⟨.refl hF, rfl, Value.below_const _, fun n hn => by cases hn⟩
    · cases h
  | pointer => cases h
  | tvmSlice => exact hcast h
  | tvmBuilder => exact hcast h
  | tvmCell => exact hcast h
  | tvmTuple => exact hcast h

/-- The pass can define the value exactly if its type has a default. -/
theorem isSome_definedValue (F : IRFunc) (p : ℕ) (ty : IRType) :
    (definedValue F p ty).isSome = true ↔ HasDefault ty := by
  cases ty with
  | integer width =>
    unfold definedValue HasDefault
    dsimp only
    split
    · rename_i hwidth
      exact ⟨fun _ => hwidth, fun _ => rfl⟩
    · rename_i hwidth
      refine ⟨?_, fun h => absurd h hwidth⟩
      rintro ⟨⟩
  | pointer =>
    refine ⟨?_, fun h => absurd h id⟩
    rintro ⟨⟩
  | tvmSlice => exact ⟨fun _ => trivial, fun _ => rfl⟩
  | tvmBuilder => exact ⟨fun _ => trivial, fun _ => rfl⟩
  | tvmCell => exact ⟨fun _ => trivial, fun _ => rfl⟩
  | tvmTuple => exact ⟨fun _ => trivial, fun _ => rfl⟩

theorem definedIncoming_of_not_undef (F : IRFunc) (p : ℕ) {v : IRValue} (h : isUndef v = false) :
    definedIncoming F p v = some (F, v) := by
  cases v with
  | undef ty => cases h
  | const c => rfl
  | name n => rfl

/-- What an entry of the new phi is for one of the phi. -/
def EntryDefined (e e' : IRValue × ℕ) : Prop := (e' = e ∨ ∃ ty, e.1 = .undef ty) ∧ e'.2 = e.2

/-- The entries of the new phi are defined, and use no name that the phi does not use. -/
structure EntriesDefined (F F' : IRFunc) (l l' : List (IRValue × ℕ)) : Prop where
  entries : List.Forall₂ EntryDefined l l'
  defined : ∀ e ∈ l', isUndef e.1 = false
  below : ∀ e ∈ l', e.1.Below F'.next
  names : ∀ e ∈ l', ∀ n, e.1 = .name n → (∃ d ∈ l, d.1 = .name n) ∨ F.next ≤ n

theorem definedIncoming_spec {F F' : IRFunc} (hF : F.WellFormed) {p : ℕ} {v v' : IRValue}
    (hbelow : v.Below F.next) (h : definedIncoming F p v = some (F', v')) :
    Grows F F' ∧ (v' = v ∨ ∃ ty, v = .undef ty) ∧ isUndef v' = false ∧ v'.Below F'.next ∧
      ∀ n, v' = .name n → v = .name n ∨ F.next ≤ n := by
  cases hundef : isUndef v with
  | false =>
    rw [definedIncoming_of_not_undef F p hundef] at h
    cases h
    exact ⟨.refl hF, .inl rfl, hundef, hbelow, fun _ hn => .inl hn⟩
  | true =>
    obtain ⟨ty, rfl⟩ := isUndef_iff.mp hundef
    obtain ⟨hgrows, hfresh⟩ := definedValue_spec hF h
    exact ⟨hgrows, .inr ⟨ty, rfl⟩, hfresh.defined, hfresh.below,
      fun n hn => .inr (hfresh.fresh n hn)⟩

/-- The entries of the new phi, by induction on the entries of the phi. -/
theorem addIncoming_spec : ∀ {l : List (IRValue × ℕ)} {F : IRFunc}, F.WellFormed →
    (∀ e ∈ l, e.1.Below F.next) → ∀ {F' : IRFunc} {l' : List (IRValue × ℕ)},
      addIncoming F l = some (F', l') → Grows F F' ∧ EntriesDefined F F' l l'
  | [], F, hF, _, F', l', h => by
    cases h
    exact ⟨.refl hF, .nil, fun _ he => absurd he List.not_mem_nil,
      fun _ he => absurd he List.not_mem_nil, fun _ he => absurd he List.not_mem_nil⟩
  | (v, p) :: l, F, hF, hbelow, F', l', h => by
    rw [addIncoming, Option.bind_eq_some_iff] at h
    obtain ⟨⟨F₁, v'⟩, hvalue, hrest⟩ := h
    rw [Option.map_eq_some_iff] at hrest
    obtain ⟨⟨F₂, l₂⟩, hadd, heq⟩ := hrest
    cases heq
    obtain ⟨hv, hl⟩ := List.forall_mem_cons.mp hbelow
    obtain ⟨hgrows, hsame, hdefined, hbelow', hname⟩ := definedIncoming_spec hF hv hvalue
    obtain ⟨hgrows', hentries⟩ := addIncoming_spec hgrows.wellFormed
      (fun e he => (hl e he).mono hgrows.next_le) hadd
    refine ⟨hgrows.trans hgrows', .cons ⟨?_, rfl⟩ hentries.entries,
      List.forall_mem_cons.mpr ⟨hdefined, hentries.defined⟩,
      List.forall_mem_cons.mpr ⟨hbelow'.mono hgrows'.next_le, hentries.below⟩, ?_⟩
    · exact hsame.imp_left fun heq => by rw [heq]
    · intro e he n hn
      rcases List.mem_cons.mp he with rfl | he
      · exact (hname n hn).imp_left fun hv => ⟨_, List.mem_cons_self, hv⟩
      · rcases hentries.names e he n hn with ⟨d, hd, hdn⟩ | hge
        · exact .inl ⟨d, List.mem_cons_of_mem _ hd, hdn⟩
        · exact .inr (Nat.le_trans hgrows.next_le hge)

/-- The new phi exists exactly if each undefined value has a default. -/
theorem isSome_addIncoming : ∀ (l : List (IRValue × ℕ)) (F : IRFunc),
    (addIncoming F l).isSome = true ↔ ∀ e ∈ l, ∀ ty, e.1 = .undef ty → HasDefault ty
  | [], F => ⟨fun _ _ he => absurd he List.not_mem_nil, fun _ => rfl⟩
  | (v, p) :: l, F => by
    have hvalue : (definedIncoming F p v).isSome = true ↔ ∀ ty, v = .undef ty → HasDefault ty := by
      cases v with
      | undef ty =>
        show (definedValue F p ty).isSome = true ↔ _
        rw [isSome_definedValue]
        exact ⟨fun h ty' hty => by cases hty; exact h, fun h => h ty rfl⟩
      | const c => exact ⟨fun _ _ hty => (by cases hty), fun _ => rfl⟩
      | name n => exact ⟨fun _ _ hty => (by cases hty), fun _ => rfl⟩
    rw [addIncoming, List.forall_mem_cons, ← hvalue]
    cases hr : definedIncoming F p v with
    | none =>
      constructor
      · rintro ⟨⟩
      · rintro ⟨⟨⟩, -⟩
    | some r =>
      rw [Option.bind_some, Option.isSome_map, isSome_addIncoming l r.1]
      exact ⟨fun h => ⟨rfl, h⟩, fun h => h.2⟩

/-! ## One phi -/

/-- The phis have the same name and type, and undefined values of the same types. -/
def SameUndefs (φ φ' : PHINode) : Prop :=
  φ'.result = φ.result ∧ φ'.ty = φ.ty ∧ ∀ ty, HasUndef φ' ty ↔ HasUndef φ ty

theorem SameUndefs.refl (φ : PHINode) : SameUndefs φ φ := ⟨rfl, rfl, fun _ => Iff.rfl⟩

theorem SameUndefs.trans {φ φ' φ'' : PHINode} (h : SameUndefs φ φ') (h' : SameUndefs φ' φ'') :
    SameUndefs φ φ'' :=
  ⟨h'.1.trans h.1, h'.2.1.trans h.2.1, fun ty => (h'.2.2 ty).trans (h.2.2 ty)⟩

theorem SameUndefs.isUndefinedPhi_iff {φ φ' : PHINode} (h : SameUndefs φ φ') :
    isUndefinedPhi φ' = true ↔ isUndefinedPhi φ = true := by
  rw [DefineUndef.isUndefinedPhi_iff, DefineUndef.isUndefinedPhi_iff]
  exact exists_congr h.2.2

theorem sameUndefs_replace (φ : PHINode) (old new : ℕ) : SameUndefs φ (φ.replace old new) := by
  refine ⟨rfl, rfl, fun ty => ⟨?_, ?_⟩⟩
  · rintro ⟨e, he, hty⟩
    obtain ⟨d, hd, rfl⟩ := List.mem_map.mp he
    exact ⟨d, hd, Value.replace_eq_undef_iff.mp hty⟩
  · rintro ⟨e, he, hty⟩
    exact ⟨_, List.mem_map_of_mem he, Value.replace_eq_undef_iff.mpr hty⟩

/-- The phi `n` has no undefined values, or no uses, or is a pointer. -/
def Settled (F : IRFunc) (b n : ℕ) : Prop :=
  ∀ φ ∈ (F.block b).phis, φ.result = n → φ.ty ≠ .pointer → F.Uses n → isUndefinedPhi φ = false

/-- What becomes of the function for one phi: the phis of all blocks stay what they are, but for
new phis without undefined values. -/
structure PhiStep (F F' : IRFunc) : Prop where
  wellFormed : F'.WellFormed
  refines : ∃ σ, Refines isPure σ F F'
  next_le : F.next ≤ F'.next
  kept : ∀ q, ∀ φ ∈ (F.block q).phis, ∃ φ' ∈ (F'.block q).phis, SameUndefs φ φ'
  old : ∀ q, ∀ φ' ∈ (F'.block q).phis, isUndefinedPhi φ' = true →
    ∃ φ ∈ (F.block q).phis, SameUndefs φ φ'
  uses : ∀ n, F'.Uses n → F.Uses n ∨ F.next ≤ n

theorem PhiStep.refl {F : IRFunc} (hF : F.WellFormed) : PhiStep F F :=
  ⟨hF, ⟨id, refines_id hF⟩, Nat.le_refl _, fun _ φ hφ => ⟨φ, hφ, .refl φ⟩,
    fun _ φ hφ _ => ⟨φ, hφ, .refl φ⟩, fun _ h => .inl h⟩

theorem PhiStep.trans {F F' F'' : IRFunc} (h : PhiStep F F') (h' : PhiStep F' F'') :
    PhiStep F F'' := by
  obtain ⟨σ, hσ⟩ := h.refines
  obtain ⟨τ, hτ⟩ := h'.refines
  refine ⟨h'.wellFormed, ⟨_, hσ.trans hτ⟩, Nat.le_trans h.next_le h'.next_le, fun q φ hφ => ?_,
    fun q φ'' hφ'' hundef => ?_, fun n hn => ?_⟩
  · obtain ⟨φ', hφ', hsame⟩ := h.kept q φ hφ
    obtain ⟨φ'', hφ'', hsame'⟩ := h'.kept q φ' hφ'
    exact ⟨φ'', hφ'', hsame.trans hsame'⟩
  · obtain ⟨φ', hφ', hsame'⟩ := h'.old q φ'' hφ'' hundef
    obtain ⟨φ, hφ, hsame⟩ := h.old q φ' hφ' (hsame'.isUndefinedPhi_iff.mp hundef)
    exact ⟨φ, hφ, hsame.trans hsame'⟩
  · rcases h'.uses n hn with hn | hge
    · exact h.uses n hn
    · exact .inr (Nat.le_trans h.next_le hge)

theorem Grows.phiStep {F F' : IRFunc} (h : Grows F F') : PhiStep F F' := by
  refine ⟨h.wellFormed, ⟨id, h.refines⟩, h.next_le, fun q φ hφ => ?_, fun q φ hφ _ => ?_, h.uses⟩
  · exact ⟨φ, by rw [h.phis]; exact hφ, .refl φ⟩
  · rw [h.phis] at hφ
    exact ⟨φ, hφ, .refl φ⟩

/-- What is settled stays so. -/
theorem PhiStep.settled {b n : ℕ} {F F' : IRFunc} (hF : F.WellFormed) (h : PhiStep F F')
    (hsettled : Settled F b n) : Settled F' b n := by
  intro φ' hφ' hresult hty huses
  by_contra hundef
  rw [Bool.not_eq_false] at hundef
  obtain ⟨φ, hφ, hsame⟩ := h.old b φ' hφ' hundef
  have hφn : φ.result = n := hsame.1.symm.trans hresult
  rcases h.uses n huses with huses | hge
  · have hfalse := hsettled φ hφ hφn (by rw [← hsame.2.1]; exact hty) huses
    rw [hsame.isUndefinedPhi_iff.mp hundef] at hfalse
    cases hfalse
  · exact absurd (hF.phi_lt b φ hφ) (by omega)

section Replacement

variable {b : ℕ} {F F' : IRFunc} {φ : PHINode} {l : List (IRValue × ℕ)}

/-- **A new phi in the place of a phi.** -/
theorem replacePhi_spec (hφ : φ ∈ (F.block b).phis) (hgrows : Grows F F')
    (hentries : EntriesDefined F F' φ.incoming l) :
    PhiStep F ((F'.insertPhi b φ.result φ.ty l).replaceAllUsesWith φ.result F'.next) := by
  have hF' := hgrows.wellFormed
  have hφ' : φ ∈ (F'.block b).phis := by
    rw [hgrows.phis]
    exact hφ
  refine ⟨(hF'.insertPhi φ.ty hentries.below).replaceAllUsesWith (Nat.lt_succ_self _),
    ⟨_, hgrows.refines.trans (refines_replacePhi hF' hφ' hentries.entries)⟩,
    Nat.le_succ_of_le hgrows.next_le, fun q ψ hψ => ?_, fun q ψ' hψ' hundef => ?_, fun n hn => ?_⟩
  · rw [← hgrows.phis] at hψ
    exact ⟨_, List.mem_map_of_mem (Function.mem_insertPhi_of_mem φ.ty l hψ),
      sameUndefs_replace ψ φ.result F'.next⟩
  · obtain ⟨ψ, hψ, rfl⟩ := List.mem_map.mp hψ'
    have hsame := sameUndefs_replace ψ φ.result F'.next
    rcases Function.mem_insertPhi hψ with hψ | ⟨-, rfl⟩
    · rw [hgrows.phis] at hψ
      exact ⟨ψ, hψ, hsame⟩
    · -- the new phi has no undefined values
      obtain ⟨ty, e, he, hty⟩ := isUndefinedPhi_iff.mp (hsame.isUndefinedPhi_iff.mp hundef)
      have hfalse := hentries.defined e he
      rw [hty] at hfalse
      cases hfalse
  · rcases Function.uses_replaceAllUsesWith hn with ⟨hn, -⟩ | rfl
    · rcases Function.uses_insertPhi hn with hn | ⟨e, he, hname⟩
      · exact hgrows.uses n hn
      · exact (hentries.names e he n hname).imp_left fun hd => ⟨b, .inl ⟨φ, hφ, hd⟩⟩
    · exact .inr hgrows.next_le

/-- All uses of the phi are uses of the new one. -/
theorem settled_replacePhi (hF' : F'.WellFormed) (hφ : φ ∈ (F'.block b).phis) :
    Settled ((F'.insertPhi b φ.result φ.ty l).replaceAllUsesWith φ.result F'.next) b φ.result := by
  intro _ _ _ _ huses
  rcases Function.uses_replaceAllUsesWith huses with ⟨-, hne⟩ | hnew
  · exact absurd rfl hne
  · exact absurd hnew (Nat.ne_of_lt (hF'.phi_lt b φ hφ))

end Replacement

theorem settled_of_findPhi {b n : ℕ} {F : IRFunc} (hF : F.WellFormed) {φ : PHINode}
    (hfind : findPhi (F.block b).phis n = some φ)
    (h : φ.ty ≠ .pointer → isUndefinedPhi φ = false) : Settled F b n := by
  intro ψ hψ hresult hty _
  rw [← hresult, hF.findPhi_self hψ] at hfind
  rw [← Option.some_inj.mp hfind] at h
  exact h hty

/-- **One phi is settled.** -/
theorem definePhi_spec {b n : ℕ} {F F' : IRFunc} (hF : F.WellFormed)
    (h : definePhi b F n = some F') : PhiStep F F' ∧ Settled F' b n := by
  unfold definePhi at h
  cases hfind : findPhi (F.block b).phis n with
  | none =>
    rw [hfind] at h
    cases h
    refine ⟨.refl hF, fun ψ hψ hresult => ?_⟩
    have hnone := List.find?_eq_none.mp hfind ψ hψ
    simp [hresult] at hnone
  | some φ =>
    have hφ : φ ∈ (F.block b).phis := List.mem_of_find?_eq_some hfind
    have hresult : φ.result = n := by simpa using List.find?_some hfind
    rw [hfind] at h
    dsimp only at h
    split at h
    · rename_i hpointer
      cases h
      exact ⟨.refl hF, settled_of_findPhi hF hfind fun hty => absurd hpointer hty⟩
    · split at h
      · rw [Option.map_eq_some_iff] at h
        obtain ⟨⟨F₁, l⟩, hadd, heq⟩ := h
        subst heq hresult
        obtain ⟨hgrows, hentries⟩ := addIncoming_spec hF (hF.incoming_below b φ hφ) hadd
        refine ⟨replacePhi_spec hφ hgrows hentries, settled_replacePhi hgrows.wellFormed ?_⟩
        rw [hgrows.phis]
        exact hφ
      · rename_i hdefined
        cases h
        exact ⟨.refl hF,
          settled_of_findPhi hF hfind fun _ => Bool.not_eq_true _ ▸ hdefined⟩

/-- The undefined values of the phi have defaults, or it is a pointer. -/
def CanDefine (φ : PHINode) : Prop := φ.ty ≠ .pointer → ∀ ty, HasUndef φ ty → HasDefault ty

theorem SameUndefs.canDefine_iff {φ φ' : PHINode} (h : SameUndefs φ φ') :
    CanDefine φ' ↔ CanDefine φ := by
  unfold CanDefine
  rw [h.2.1]
  exact forall_congr' fun _ => forall_congr' fun ty => by rw [h.2.2 ty]

/-- The pass goes on behind a phi exactly if it can define its values. -/
theorem isSome_definePhi {b : ℕ} {F : IRFunc} (hF : F.WellFormed) {φ : PHINode}
    (hφ : φ ∈ (F.block b).phis) : (definePhi b F φ.result).isSome = true ↔ CanDefine φ := by
  unfold definePhi CanDefine
  rw [hF.findPhi_self hφ]
  dsimp only
  split
  · rename_i hpointer
    exact ⟨fun _ hty => absurd hpointer hty, fun _ => rfl⟩
  · rename_i hty
    split
    · rw [Option.isSome_map, isSome_addIncoming]
      refine ⟨fun h _ ty hundef => ?_, fun h e he ty he' => h hty ty ⟨e, he, he'⟩⟩
      obtain ⟨e, he, he'⟩ := hundef
      exact h e he ty he'
    · rename_i hdefined
      refine ⟨fun _ _ ty hundef => ?_, fun _ => rfl⟩
      exact absurd (isUndefinedPhi_iff.mpr ⟨ty, hundef⟩) hdefined

/-! ## All phis of a block -/

section Phis

variable {b : ℕ}

/-- **The phis are settled one after the other**, by induction on those that are still visited. -/
theorem foldlM_definePhi_spec : ∀ (names : List ℕ) {F F' : IRFunc}, F.WellFormed →
    names.foldlM (definePhi b) F = some F' → PhiStep F F' ∧ ∀ n ∈ names, Settled F' b n
  | [], F, F', hF, h => by
    cases h
    exact ⟨.refl hF, fun _ hn => absurd hn List.not_mem_nil⟩
  | n :: names, F, F', hF, h => by
    rw [List.foldlM_cons, Option.bind_eq_bind, Option.bind_eq_some_iff] at h
    obtain ⟨F₁, hdefine, hrest⟩ := h
    obtain ⟨hstep, hsettled⟩ := definePhi_spec hF hdefine
    obtain ⟨hsteps, hrest'⟩ := foldlM_definePhi_spec names hstep.wellFormed hrest
    exact ⟨hstep.trans hsteps,
      List.forall_mem_cons.mpr ⟨hsteps.settled hstep.wellFormed hsettled, hrest'⟩⟩

/-- After one phi the others can be defined exactly if they could before. -/
theorem PhiStep.canDefine_iff {F F' : IRFunc} (h : PhiStep F F') {names : List ℕ}
    (hnames : ∀ n ∈ names, ∃ φ ∈ (F.block b).phis, φ.result = n) :
    (∀ φ' ∈ (F'.block b).phis, φ'.result ∈ names → CanDefine φ') ↔
      ∀ φ ∈ (F.block b).phis, φ.result ∈ names → CanDefine φ := by
  constructor
  · intro hall φ hφ hmem
    obtain ⟨φ', hφ', hsame⟩ := h.kept b φ hφ
    exact hsame.canDefine_iff.mp (hall φ' hφ' (by rw [hsame.1]; exact hmem))
  · intro hall φ' hφ' hmem
    obtain ⟨φ, hφ, hresult⟩ := hnames φ'.result hmem
    obtain ⟨ψ', hψ', hsame⟩ := h.kept b φ hφ
    -- the phi that keeps this name is the only one with it
    have heq := (h.wellFormed.phi_unique b ψ' hψ' b φ' hφ' (hsame.1.trans hresult)).2
    rw [← heq]
    exact hsame.canDefine_iff.mpr (hall φ hφ (by rw [hresult]; exact hmem))

theorem isSome_foldlM_definePhi : ∀ (names : List ℕ) {F : IRFunc}, F.WellFormed →
    (∀ n ∈ names, ∃ φ ∈ (F.block b).phis, φ.result = n) →
      ((names.foldlM (definePhi b) F).isSome = true ↔
        ∀ φ ∈ (F.block b).phis, φ.result ∈ names → CanDefine φ)
  | [], F, _, _ => ⟨fun _ _ _ hmem => absurd hmem List.not_mem_nil, fun _ => rfl⟩
  | n :: names, F, hF, hnames => by
    obtain ⟨⟨φ, hφ, hresult⟩, hnames'⟩ := List.forall_mem_cons.mp hnames
    have hsome := isSome_definePhi hF hφ
    rw [hresult] at hsome
    rw [List.foldlM_cons, Option.bind_eq_bind]
    cases hdefine : definePhi b F n with
    | none =>
      rw [hdefine] at hsome
      refine ⟨fun h => (by cases h), fun h => ?_⟩
      have hcan : CanDefine φ := h φ hφ (by rw [hresult]; exact List.mem_cons_self)
      exact absurd (hsome.mpr hcan) Bool.false_ne_true
    | some F₁ =>
      rw [hdefine] at hsome
      obtain ⟨hstep, -⟩ := definePhi_spec hF hdefine
      have hnames₁ : ∀ m ∈ names, ∃ ψ ∈ (F₁.block b).phis, ψ.result = m := by
        intro m hm
        obtain ⟨ψ, hψ, hψm⟩ := hnames' m hm
        obtain ⟨ψ', hψ', hsame⟩ := hstep.kept b ψ hψ
        exact ⟨ψ', hψ', hsame.1.trans hψm⟩
      rw [Option.bind_some, isSome_foldlM_definePhi names hstep.wellFormed hnames₁,
        hstep.canDefine_iff hnames']
      refine ⟨fun h ψ hψ hmem => ?_, fun h ψ hψ hmem => h ψ hψ (List.mem_cons_of_mem _ hmem)⟩
      rcases List.mem_cons.mp hmem with hψn | hmem
      · rw [(hF.phi_unique b ψ hψ b φ hφ (hψn.trans hresult.symm)).2]
        exact hsome.mp rfl
      · exact h ψ hψ hmem

end Phis

/-! ## Stores -/

/-- The value that is put in the place of an operand, and the instructions that make it. -/
structure Provides (fill : ℕ → List Instruction × IRValue × ℕ) : Prop where
  next_le : ∀ next, next ≤ (fill next).2.2
  fills : ∀ next, Fills next (fill next).2.2 (fill next).1
  fresh : ∀ next, Fresh next (fill next).2.2 (fill next).2.1

section Stores

variable {bound next : ℕ} {i : Instruction}

theorem edited_singleton (hlt : i.result < bound) (hbelow : ∀ v ∈ i.operands, v.Below bound)
    (hnext : bound ≤ next) : Edited bound next [i] [i] := by
  refine ⟨Covers.cons_id hlt hbelow .nil, fun j hj => ?_, fun j hj => .inr ⟨j, hj, rfl⟩,
    fun j hj v hv => ?_, fun j hj n hn => .inl ⟨j, hj, hn⟩⟩
  · rw [List.mem_singleton.mp hj]
    exact Nat.lt_of_lt_of_le hlt hnext
  · rw [List.mem_singleton.mp hj] at hv
    exact (hbelow v hv).mono hnext

/-- An undefined operand that gets a value. -/
theorem edited_replaceUsesOfWith (ty : IRType) {v : IRValue} (hlt : i.result < bound)
    (hbelow : ∀ w ∈ i.operands, w.Below bound) (hnext : bound ≤ next) (hv : v.Below next)
    (hfresh : ∀ n, v = .name n → bound ≤ n) :
    Edited bound next [i] [replaceUsesOfWith (.undef ty) v i] := by
  have hmem : ∀ w ∈ (replaceUsesOfWith (.undef ty) v i).operands, w = v ∨ w ∈ i.operands := by
    intro w hw
    obtain ⟨u, hu, rfl⟩ := List.mem_map.mp hw
    split
    · exact .inl rfl
    · exact .inr hu
  refine ⟨.keep hlt rfl (fun _ _ heq => heq) rfl ?_ .nil, fun j hj => ?_, fun j hj => ?_,
    fun j hj w hw => ?_, fun j hj n hn => ?_⟩
  · rw [replaceUsesOfWith, List.forall₂_map_right_iff]
    refine List.forall₂_same.mpr fun w hw => ?_
    split
    · rename_i hundef
      rw [hundef]
      trivial
    · exact renames_id (hbelow w hw)
  · rw [List.mem_singleton.mp hj]
    exact Nat.lt_of_lt_of_le hlt hnext
  · rw [List.mem_singleton.mp hj]
    exact .inr ⟨i, List.mem_singleton_self i, rfl⟩
  · rw [List.mem_singleton.mp hj] at hw
    rcases hmem w hw with rfl | hw
    · exact hv
    · exact (hbelow w hw).mono hnext
  · rw [List.mem_singleton.mp hj] at hn
    rcases hmem _ hn with heq | hn
    · exact .inr (hfresh n heq.symm)
    · exact .inl ⟨i, List.mem_singleton_self i, hn⟩

theorem edited_defineOperand {ty : IRType} {fill : ℕ → List Instruction × IRValue × ℕ}
    (hfill : Provides fill) (hlt : i.result < bound) (hbelow : ∀ v ∈ i.operands, v.Below bound)
    (hnext : bound ≤ next) :
    Edited bound (defineOperand (.undef ty) fill next i).2 [i]
        (defineOperand (.undef ty) fill next i).1 ∧
      next ≤ (defineOperand (.undef ty) fill next i).2 := by
  unfold defineOperand
  split
  · have hle := hfill.next_le next
    have hedited := edited_replaceUsesOfWith ty hlt hbelow (Nat.le_trans hnext hle)
      (hfill.fresh next).below fun n hn => Nat.le_trans hnext ((hfill.fresh next).fresh n hn)
    exact ⟨((hfill.fills next).edited hnext).append hedited (Nat.le_refl _), hle⟩
  · exact ⟨edited_singleton hlt hbelow hnext, Nat.le_refl _⟩

theorem provides_plain : Provides fun next => ([], .const (.int 257 0), next) :=
  ⟨fun _ => Nat.le_refl _, fun _ => ⟨fun _ hi => absurd hi List.not_mem_nil,
    fun _ hi => absurd hi List.not_mem_nil, fun _ hi => absurd hi List.not_mem_nil⟩,
    fun _ => ⟨rfl, Value.below_const _, fun _ hn => by cases hn⟩⟩

theorem fresh_name {next n next' : ℕ} (hle : next ≤ n) (hlt : n < next') :
    Fresh next next' (.name n) := by
  refine ⟨rfl, Value.below_name hlt, fun m hm => ?_⟩
  cases hm
  exact hle

theorem provides_newCell : Provides fun next =>
    ([⟨next, .tvmNewc, []⟩, ⟨next + 1, .tvmEndc, [.name next]⟩], .name (next + 1), next + 2) := by
  refine ⟨fun _ => Nat.le_add_right _ 2, fun next => ?_, fun next => ?_⟩
  · constructor <;> simp [isPure]
  · exact fresh_name (Nat.le_succ next) (Nat.lt_succ_self _)

theorem provides_nullCell : Provides fun next =>
    ([⟨next, .tvmPushnull, []⟩, ⟨next + 1, .tvmCastTo .tvmCell, [.name next]⟩],
      .name (next + 1), next + 2) :=
  ⟨fun _ => Nat.le_add_right _ 2, fun next => fills_castOfNull next .tvmCell,
    fun next => fresh_name (Nat.le_succ next) (Nat.lt_succ_self _)⟩

theorem provides_newSlice : Provides fun next =>
    ([⟨next, .tvmNewc, []⟩, ⟨next + 1, .tvmEndc, [.name next]⟩,
      ⟨next + 2, .tvmCtos, [.name (next + 1)]⟩], .name (next + 2), next + 3) := by
  refine ⟨fun _ => Nat.le_add_right _ 3, fun next => ?_, fun next => ?_⟩
  · constructor <;> simp [isPure]
  · exact fresh_name (Nat.le_add_right next 2) (Nat.lt_succ_self _)

theorem edited_defineStore (hlt : i.result < bound) (hbelow : ∀ v ∈ i.operands, v.Below bound)
    (hnext : bound ≤ next) :
    Edited bound (defineStore next i).2 [i] (defineStore next i).1 ∧
      next ≤ (defineStore next i).2 := by
  unfold defineStore
  split
  · exact edited_defineOperand provides_plain hlt hbelow hnext
  · exact edited_defineOperand provides_plain hlt hbelow hnext
  · exact edited_defineOperand provides_newCell hlt hbelow hnext
  · exact edited_defineOperand provides_nullCell hlt hbelow hnext
  · exact edited_defineOperand provides_newSlice hlt hbelow hnext
  · exact ⟨edited_singleton hlt hbelow hnext, Nat.le_refl _⟩

/-- **The stores of a block get values**, one after the other. -/
theorem edited_defineStores : ∀ {is : List Instruction} {next : ℕ}, bound ≤ next →
    (∀ i ∈ is, i.result < bound) → (∀ i ∈ is, ∀ v ∈ i.operands, v.Below bound) →
      Edited bound (defineStores next is).2 is (defineStores next is).1 ∧
        next ≤ (defineStores next is).2
  | [], next, _, _, _ =>
    ⟨⟨.nil, fun _ hi => absurd hi List.not_mem_nil, fun _ hi => absurd hi List.not_mem_nil,
      fun _ hi => absurd hi List.not_mem_nil, fun _ hi => absurd hi List.not_mem_nil⟩,
      Nat.le_refl _⟩
  | i :: is, next, hnext, hlt, hbelow => by
    obtain ⟨hlt₀, hlt'⟩ := List.forall_mem_cons.mp hlt
    obtain ⟨hbelow₀, hbelow'⟩ := List.forall_mem_cons.mp hbelow
    obtain ⟨hfirst, hle⟩ := edited_defineStore hlt₀ hbelow₀ hnext
    obtain ⟨hrest, hle'⟩ := edited_defineStores (Nat.le_trans hnext hle) hlt' hbelow'
    exact ⟨hfirst.append hrest hle', Nat.le_trans hle hle'⟩

end Stores

/-! ## The block -/

theorem runOnBasicBlock_grows {b : ℕ} {F : IRFunc} (hF : F.WellFormed) :
    Grows F (F.setInstrs b (defineStores F.next (F.block b).instrs).2
      (defineStores F.next (F.block b).instrs).1) := by
  obtain ⟨hedited, hle⟩ := edited_defineStores (Nat.le_refl F.next) (hF.instr_lt b)
    (hF.operand_below b)
  exact hedited.grows hF hle

/-- No phi of the block that is used has undefined values, but for pointers. -/
def NoUndefUsed (F : IRFunc) (b : ℕ) : Prop :=
  ∀ φ ∈ (F.block b).phis, φ.ty ≠ .pointer → F.Uses φ.result → isUndefinedPhi φ = false

/-- Every value of the function is seen in `F'`: what is `n` in the function is `σ n` there, in the
code and in every run, whatever the instructions do with the values that they see. -/
def SeesSame (F F' : IRFunc) : Prop :=
  ∃ σ, Refines isPure σ F F' ∧
    ∀ (V S : Type) [Preorder S] (M : Meaning isPure Constant V S) (path : List ℕ) (p : ℕ)
      (st st' : State V S), Related σ F.next st st' →
        Related σ F.next (runPath M F p path st) (runPath M F' p path st')

theorem PhiStep.seesSame {F F' : IRFunc} (h : PhiStep F F') : SeesSame F F' := by
  obtain ⟨σ, hσ⟩ := h.refines
  exact ⟨σ, hσ, fun V S _ M path p st st' hst => hσ.runPath M path p hst⟩

theorem PhiStep.noUndefUsed {b : ℕ} {F F' : IRFunc} (hF : F.WellFormed) (h : PhiStep F F')
    (hall : NoUndefUsed F b) : NoUndefUsed F' b := by
  intro φ' hφ'
  have hsettled : Settled F b φ'.result := by
    intro φ hφ hresult
    rw [← hresult]
    exact hall φ hφ
  exact h.settled hF hsettled φ' hφ' rfl

/-- **One block**: when the pass goes through, its phis are settled. -/
theorem runOnBasicBlock_spec {b : ℕ} {F F' : IRFunc} (hF : F.WellFormed)
    (h : runOnBasicBlock b F = some F') : PhiStep F F' ∧ NoUndefUsed F' b := by
  rw [runOnBasicBlock, Option.map_eq_some_iff] at h
  obtain ⟨F₁, hphis, rfl⟩ := h
  obtain ⟨hsteps, hsettled⟩ := foldlM_definePhi_spec _ hF hphis
  have hgrows := (runOnBasicBlock_grows (b := b) hsteps.wellFormed).phiStep
  refine ⟨hsteps.trans hgrows, hgrows.noUndefUsed hsteps.wellFormed fun φ' hφ' hty huses => ?_⟩
  by_contra hundef
  rw [Bool.not_eq_false] at hundef
  -- a phi with undefined values was there before, so it has been visited
  obtain ⟨φ, hφ, hsame⟩ := hsteps.old b φ' hφ' hundef
  have hvisited := hsettled φ'.result (by rw [hsame.1]; exact List.mem_map_of_mem hφ)
  rw [hvisited φ' hφ' rfl hty huses] at hundef
  cases hundef

theorem isSome_runOnBasicBlock {b : ℕ} {F : IRFunc} (hF : F.WellFormed) :
    (runOnBasicBlock b F).isSome = true ↔ ∀ φ ∈ (F.block b).phis, CanDefine φ := by
  unfold runOnBasicBlock definePhis
  rw [Option.isSome_map, isSome_foldlM_definePhi _ hF fun n hn => List.mem_map.mp hn]
  exact ⟨fun h φ hφ => h φ hφ (List.mem_map_of_mem hφ), fun h φ hφ _ => h φ hφ⟩

/-- The pass is defined on the block, no phi that is used has undefined values, and every value is
seen. -/
def DefinesUndef (F : IRFunc) (b : ℕ) : Prop :=
  ∃ F', runOnBasicBlock b F = some F' ∧ NoUndefUsed F' b ∧ SeesSame F F'

/-- **Undefined values are defined** exactly if those of the phis that are no pointers have one of
the types that the pass knows. -/
theorem definesUndef_iff {F : IRFunc} (hF : F.WellFormed) (b : ℕ) :
    DefinesUndef F b ↔ ∀ φ ∈ (F.block b).phis, φ.ty ≠ .pointer →
      ∀ ty, HasUndef φ ty → HasDefault ty := by
  constructor
  · rintro ⟨F', hrun, -⟩
    exact (isSome_runOnBasicBlock hF).mp (by rw [hrun]; rfl)
  · intro h
    obtain ⟨F', hrun⟩ := Option.isSome_iff_exists.mp ((isSome_runOnBasicBlock hF).mpr h)
    obtain ⟨hstep, hdefined⟩ := runOnBasicBlock_spec hF hrun
    exact ⟨F', hrun, hdefined, hstep.seesSame⟩

/-- A phi that refers to itself, undefined at the beginning. -/
def selfPhi : PHINode := ⟨0, .tvmCell, [(.undef .tvmCell, 0), (.name 0, 1)]⟩

/-- A phi that refers to another one of its block. -/
def otherPhi : PHINode := ⟨1, .tvmCell, [(.name 0, 1), (.undef .tvmCell, 0)]⟩

def loopUse : Instruction := ⟨2, .other 0, [.name 1]⟩

/-- A loop with these phis. -/
def loopFunction : IRFunc :=
  ⟨3, fun q => if q = 1 then ⟨[selfPhi, otherPhi], [loopUse]⟩ else ⟨[], []⟩⟩

theorem mem_loopFunction_phis {q : ℕ} {φ : PHINode} (h : φ ∈ (loopFunction.block q).phis) :
    q = 1 ∧ (φ = selfPhi ∨ φ = otherPhi) := by
  by_cases hq : q = 1
  · subst hq
    exact ⟨rfl, List.mem_pair.mp h⟩
  · simp only [loopFunction, if_neg hq, List.not_mem_nil] at h

theorem mem_loopFunction_instrs {q : ℕ} {i : Instruction}
    (h : i ∈ (loopFunction.block q).instrs) : i = loopUse := by
  by_cases hq : q = 1
  · subst hq
    exact List.mem_singleton.mp h
  · simp only [loopFunction, if_neg hq, List.not_mem_nil] at h

theorem loopFunction_wellFormed : loopFunction.WellFormed := by
  constructor
  · intro q φ hφ
    rcases (mem_loopFunction_phis hφ).2 with rfl | rfl <;> decide
  · intro q i hi
    rw [mem_loopFunction_instrs hi]
    decide
  · intro q φ hφ e he n hn
    rcases (mem_loopFunction_phis hφ).2 with rfl | rfl
    · rcases List.mem_pair.mp he with rfl | rfl <;> cases hn
      decide
    · rcases List.mem_pair.mp he with rfl | rfl <;> cases hn
      decide
  · intro q i hi v hv n hn
    rw [mem_loopFunction_instrs hi] at hv
    rw [List.mem_singleton.mp hv] at hn
    cases hn
    decide
  · intro p φ hφ q i hi
    rw [mem_loopFunction_instrs hi]
    rcases (mem_loopFunction_phis hφ).2 with rfl | rfl <;> decide
  · intro p φ hφ q ψ hψ hresult
    obtain ⟨rfl, hφ'⟩ := mem_loopFunction_phis hφ
    obtain ⟨rfl, hψ'⟩ := mem_loopFunction_phis hψ
    refine ⟨rfl, ?_⟩
    -- the phis have different names
    rcases hφ' with rfl | rfl <;> rcases hψ' with rfl | rfl
    · rfl
    · exact absurd hresult (by decide)
    · exact absurd hresult (by decide)
    · rfl

theorem definesUndef_iff_loop : DefinesUndef loopFunction 1 := by
  refine (definesUndef_iff loopFunction_wellFormed 1).mpr fun φ hφ _ ty hundef => ?_
  obtain ⟨e, he, hty⟩ := hundef
  rcases (mem_loopFunction_phis hφ).2 with rfl | rfl
  · rcases List.mem_pair.mp he with rfl | rfl <;> cases hty
    trivial
  · rcases List.mem_pair.mp he with rfl | rfl <;> cases hty
    trivial

/-- A phi of truth values that is undefined on one edge. -/
def boolFunction : IRFunc :=
  { next := 1
    block := fun q => if q = 2 then
      ⟨[⟨0, .integer 1, [(.undef (.integer 1), 0), (.const (.int 1 1), 1)]⟩], []⟩ else ⟨[], []⟩ }

theorem boolFunction_not_definesUndef : ¬DefinesUndef boolFunction 2 := by
  rintro ⟨F', hrun, -⟩
  have hnone : runOnBasicBlock 2 boolFunction = none := rfl
  rw [hnone] at hrun
  cases hrun

/-! ## The function -/

/-- The pass over the blocks of a function. -/
def runOnFunction (blocks : List ℕ) (F : IRFunc) : Option IRFunc :=
  blocks.foldlM (fun F b => runOnBasicBlock b F) F

theorem PhiStep.forall_canDefine_iff {F F' : IRFunc} (h : PhiStep F F') (q : ℕ) :
    (∀ φ' ∈ (F'.block q).phis, CanDefine φ') ↔ ∀ φ ∈ (F.block q).phis, CanDefine φ := by
  constructor
  · intro hall φ hφ
    obtain ⟨φ', hφ', hsame⟩ := h.kept q φ hφ
    exact hsame.canDefine_iff.mp (hall φ' hφ')
  · intro hall φ' hφ' hty ty hundef
    -- only phis that were there have undefined values
    obtain ⟨φ, hφ, hsame⟩ := h.old q φ' hφ' (isUndefinedPhi_iff.mpr ⟨ty, hundef⟩)
    exact hsame.canDefine_iff.mpr (hall φ hφ) hty ty hundef

theorem runOnFunction_spec : ∀ (blocks : List ℕ) {F F' : IRFunc}, F.WellFormed →
    runOnFunction blocks F = some F' → PhiStep F F' ∧ ∀ b ∈ blocks, NoUndefUsed F' b
  | [], F, F', hF, h => by
    cases h
    exact ⟨.refl hF, fun _ hb => absurd hb List.not_mem_nil⟩
  | b :: blocks, F, F', hF, h => by
    rw [runOnFunction, List.foldlM_cons, Option.bind_eq_bind, Option.bind_eq_some_iff] at h
    obtain ⟨F₁, hrun, hrest⟩ := h
    obtain ⟨hstep, hdefined⟩ := runOnBasicBlock_spec hF hrun
    obtain ⟨hsteps, hdefined'⟩ := runOnFunction_spec blocks hstep.wellFormed hrest
    exact ⟨hstep.trans hsteps,
      List.forall_mem_cons.mpr ⟨hsteps.noUndefUsed hstep.wellFormed hdefined, hdefined'⟩⟩

/-- **The pass goes through all blocks** exactly if it can define the phis of each of them. -/
theorem isSome_runOnFunction : ∀ (blocks : List ℕ) {F : IRFunc}, F.WellFormed →
    ((runOnFunction blocks F).isSome = true ↔
      ∀ b ∈ blocks, ∀ φ ∈ (F.block b).phis, CanDefine φ)
  | [], F, _ => ⟨fun _ _ hb => absurd hb List.not_mem_nil, fun _ => rfl⟩
  | b :: blocks, F, hF => by
    have hsome := isSome_runOnBasicBlock hF (b := b)
    rw [runOnFunction, List.foldlM_cons, Option.bind_eq_bind, List.forall_mem_cons, ← hsome]
    cases hrun : runOnBasicBlock b F with
    | none =>
      constructor
      · rintro ⟨⟩
      · rintro ⟨⟨⟩, -⟩
    | some F₁ =>
      obtain ⟨hstep, -⟩ := runOnBasicBlock_spec hF hrun
      have ih := isSome_runOnFunction blocks hstep.wellFormed
      simp only [hstep.forall_canDefine_iff] at ih
      exact ⟨fun h => ⟨rfl, ih.mp h⟩, fun h => ih.mpr h.2⟩

end TVMCompiler.DefineUndef
