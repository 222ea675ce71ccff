import Mathlib.Data.List.Forall2
import Mathlib.Data.Option.Defs
import Mathlib.Logic.Function.Basic
import Mathlib.Order.Basic

/-!
# Code in static single assignment form

A function consists of blocks, and a block of phis and of instructions. Both give names to values,
and each name is given in one place. On an edge the phis take their values at the same time, and
then the instructions run. Values may be undefined.

A function refines another one if its code is the code of the other one with other names, but that
it may use a value where the other one uses an undefined one, and that it may have further
instructions that only compute values. Then it sees the values that the other one sees.

## Main definitions

* `Function`: the blocks of a function
* `Function.WellFormed`: names are given once
* `Meaning`, `runPath`: what the instructions do, and the run along a path
* `Refines`: the code of one function is that of another one
* `Function.setInstrs`, `Function.insertPhi`, `Function.replaceAllUsesWith`: edits

## Main results

* `Refines.runPath`: a refinement sees every value that the other function sees
* `Refines.trans`: refinements one after the other
* `refines_setInstrs`, `refines_replacePhi`: edits that are refinements
-/

namespace TVMCompiler.Lib.Ssa

variable {Op Ty C V S : Type}

/-! ## Code -/

inductive Value (Ty C : Type) where
  | undef (ty : Ty)
  | const (c : C)
  | name (n : ℕ)
  deriving DecidableEq

/-- A phi with its incoming values, each with its incoming block. -/
structure Phi (Ty C : Type) where
  result : ℕ
  ty : Ty
  incoming : List (Value Ty C × ℕ)
  deriving DecidableEq

structure Instr (Op Ty C : Type) where
  result : ℕ
  op : Op
  operands : List (Value Ty C)
  deriving DecidableEq

structure Block (Op Ty C : Type) where
  phis : List (Phi Ty C)
  instrs : List (Instr Op Ty C)

/-- The names from `next` on are not in use. -/
structure Function (Op Ty C : Type) where
  next : ℕ
  block : ℕ → Block Op Ty C

def findPhi (phis : List (Phi Ty C)) (n : ℕ) : Option (Phi Ty C) := phis.find? (·.result = n)

/-- Some phi or some instruction takes the value with this name. -/
def Function.Uses (F : Function Op Ty C) (n : ℕ) : Prop :=
  ∃ q, (∃ φ ∈ (F.block q).phis, ∃ e ∈ φ.incoming, e.1 = .name n) ∨
    ∃ i ∈ (F.block q).instrs, .name n ∈ i.operands

/-- A name below `next`, if the value is one. -/
def Value.Below (next : ℕ) (v : Value Ty C) : Prop := ∀ n, v = .name n → n < next

/-- Names are given once, and those that are given or used are below `next`. -/
structure Function.WellFormed (F : Function Op Ty C) : Prop where
  phi_lt : ∀ q, ∀ φ ∈ (F.block q).phis, φ.result < F.next
  instr_lt : ∀ q, ∀ i ∈ (F.block q).instrs, i.result < F.next
  incoming_below : ∀ q, ∀ φ ∈ (F.block q).phis, ∀ e ∈ φ.incoming, e.1.Below F.next
  operand_below : ∀ q, ∀ i ∈ (F.block q).instrs, ∀ v ∈ i.operands, v.Below F.next
  phi_ne_instr : ∀ p, ∀ φ ∈ (F.block p).phis, ∀ q, ∀ i ∈ (F.block q).instrs, i.result ≠ φ.result
  phi_unique : ∀ p, ∀ φ ∈ (F.block p).phis, ∀ q, ∀ ψ ∈ (F.block q).phis,
    φ.result = ψ.result → p = q ∧ φ = ψ

/-! ## Runs -/

/-- The second value may be used for the first one. -/
def Refined (a b : Option V) : Prop := ∀ v, a = some v → b = some v

/-- What the instructions do with the operands they see. The operations in `isPure` leave the memory
as it is. Operands that are more defined lead to more defined results. -/
structure Meaning (isPure : Op → Bool) (C V S : Type) [Preorder S] where
  const : C → V
  eval : Op → List (Option V) → S → Option V × S
  mono : ∀ op args args' s s', List.Forall₂ Refined args args' → s ≤ s' →
    Refined (eval op args s).1 (eval op args' s').1 ∧ (eval op args s).2 ≤ (eval op args' s').2
  eval_pure : ∀ op args s, isPure op = true → (eval op args s).2 = s

structure State (V S : Type) where
  env : ℕ → Option V
  memory : S

section Run

variable {isPure : Op → Bool} [Preorder S] (M : Meaning isPure C V S)

def value (env : ℕ → Option V) : Value Ty C → Option V
  | .undef _ => none
  | .const c => some (M.const c)
  | .name n => env n

/-- The value of a phi on an edge from `p`. -/
def Phi.valueFrom (env : ℕ → Option V) (p : ℕ) (φ : Phi Ty C) : Option V :=
  (φ.incoming.find? (·.2 = p)).bind fun e => value M env e.1

def assignPhis (p : ℕ) (phis : List (Phi Ty C)) (env : ℕ → Option V) : ℕ → Option V := fun n =>
  match findPhi phis n with
  | some φ => φ.valueFrom M env p
  | none => env n

def runInstr (st : State V S) (i : Instr Op Ty C) : State V S :=
  let r := M.eval i.op (i.operands.map (value M st.env)) st.memory
  ⟨Function.update st.env i.result r.1, r.2⟩

/-- The block `q`, on the edge from `p`. -/
def runBlock (F : Function Op Ty C) (p q : ℕ) (st : State V S) : State V S :=
  (F.block q).instrs.foldl (runInstr M) ⟨assignPhis M p (F.block q).phis st.env, st.memory⟩

/-- The blocks of a path that comes from `p`. -/
def runPath (F : Function Op Ty C) : ℕ → List ℕ → State V S → State V S
  | _, [], st => st
  | p, q :: path, st => runPath F q path (runBlock M F p q st)

end Run

/-! ## Refinements -/

/-- The second value is the first one, with another name, unless the first one is undefined. -/
def Renames (σ : ℕ → ℕ) (next : ℕ) : Value Ty C → Value Ty C → Prop
  | .undef _, _ => True
  | .const c, v => v = .const c
  | .name n, v => n < next ∧ v = .name (σ n)

/-- The incoming values of one phi are those of another one. -/
def PhiCovers (σ : ℕ → ℕ) (next : ℕ) (φ φ' : Phi Ty C) : Prop :=
  List.Forall₂ (fun e e' => Renames σ next e.1 e'.1 ∧ e'.2 = e.2) φ.incoming φ'.incoming

/-- The instructions are those of another block, with instructions in between that only compute
values. -/
inductive Covers (isPure : Op → Bool) (σ : ℕ → ℕ) (next : ℕ) :
    List (Instr Op Ty C) → List (Instr Op Ty C) → Prop where
  | nil : Covers isPure σ next [] []
  | keep {i i' : Instr Op Ty C} {is is' : List (Instr Op Ty C)} (hlt : i.result < next)
      (hresult : i'.result = σ i.result) (hother : ∀ m < next, σ m = σ i.result → m = i.result)
      (hop : i'.op = i.op) (hoperands : List.Forall₂ (Renames σ next) i.operands i'.operands)
      (hrest : Covers isPure σ next is is') : Covers isPure σ next (i :: is) (i' :: is')
  | insert {i' : Instr Op Ty C} {is is' : List (Instr Op Ty C)} (hpure : isPure i'.op = true)
      (hfresh : ∀ m < next, σ m ≠ i'.result) (hrest : Covers isPure σ next is is') :
      Covers isPure σ next is (i' :: is')

/-- The code of `F'` is the code of `F`, and what is called `n` there is called `σ n` here. -/
structure Refines (isPure : Op → Bool) (σ : ℕ → ℕ) (F F' : Function Op Ty C) : Prop where
  lt_next : ∀ n < F.next, σ n < F'.next
  phis : ∀ q, ∀ n < F.next, Option.Rel (PhiCovers σ F.next) (findPhi (F.block q).phis n)
    (findPhi (F'.block q).phis (σ n))
  instrs : ∀ q, Covers isPure σ F.next (F.block q).instrs (F'.block q).instrs

/-- The second state holds the values and the memory of the first one. -/
structure Related [Preorder S] (σ : ℕ → ℕ) (next : ℕ) (st st' : State V S) : Prop where
  env : ∀ n < next, Refined (st.env n) (st'.env (σ n))
  memory : st.memory ≤ st'.memory

section Simulation

variable {isPure : Op → Bool} [Preorder S] (M : Meaning isPure C V S) {σ : ℕ → ℕ} {next : ℕ}

theorem Refined.refl (a : Option V) : Refined a a := fun _ h => h

theorem refined_none (a : Option V) : Refined none a := by
  rintro v ⟨⟩

theorem Renames.value {env env' : ℕ → Option V} (henv : ∀ n < next, Refined (env n) (env' (σ n)))
    {v v' : Value Ty C} (h : Renames σ next v v') : Refined (value M env v) (value M env' v') := by
  cases v with
  | undef ty => exact refined_none _
  | const c =>
    rw [show v' = .const c from h]
    exact Refined.refl _
  | name n =>
    obtain ⟨hlt, rfl⟩ := h
    exact henv n hlt

/-- The entry for a block is at the same place in both phis. -/
theorem PhiCovers.valueFrom {env env' : ℕ → Option V}
    (henv : ∀ n < next, Refined (env n) (env' (σ n))) {φ φ' : Phi Ty C}
    (h : PhiCovers σ next φ φ') (p : ℕ) :
    Refined (φ.valueFrom M env p) (φ'.valueFrom M env' p) := by
  unfold Phi.valueFrom
  unfold PhiCovers at h
  generalize φ.incoming = l at h
  generalize φ'.incoming = l' at h
  induction h with
  | nil => exact Refined.refl none
  | @cons e e' l l' he hrest ih =>
    obtain ⟨hvalue, hblock⟩ := he
    by_cases hp : e.2 = p
    · rw [List.find?_cons_of_pos (by simpa using hp),
        List.find?_cons_of_pos (by simpa [hblock] using hp)]
      exact hvalue.value M henv
    · rw [List.find?_cons_of_neg (by simpa using hp),
        List.find?_cons_of_neg (by simpa [hblock] using hp)]
      exact ih

/-- The phis take the values that the other phis take. -/
theorem assignPhis_refined {env env' : ℕ → Option V}
    (henv : ∀ n < next, Refined (env n) (env' (σ n))) {phis phis' : List (Phi Ty C)}
    (h : ∀ n < next, Option.Rel (PhiCovers σ next) (findPhi phis n) (findPhi phis' (σ n))) (p : ℕ) :
    ∀ n < next, Refined (assignPhis M p phis env n) (assignPhis M p phis' env' (σ n)) := by
  intro n hn
  have hphi := h n hn
  unfold assignPhis
  generalize findPhi phis n = found at hphi
  generalize findPhi phis' (σ n) = found' at hphi
  cases hphi with
  | some hcovers => exact hcovers.valueFrom M henv p
  | none => exact henv n hn

/-- **The instructions see the values** that the other instructions see, by induction on how the
instructions cover the others. -/
theorem Covers.foldl {is is' : List (Instr Op Ty C)} (h : Covers isPure σ next is is') :
    ∀ {st st' : State V S}, Related σ next st st' →
      Related σ next (is.foldl (runInstr M) st) (is'.foldl (runInstr M) st') := by
  induction h with
  | nil => exact fun hst => hst
  | @keep i i' is is' hlt hresult hother hop hoperands _ ih =>
    intro st st' hst
    have hargs : List.Forall₂ Refined (i.operands.map (value M st.env))
        (i'.operands.map (value M st'.env)) := by
      rw [List.forall₂_map_left_iff, List.forall₂_map_right_iff]
      exact hoperands.imp fun _ _ hv => hv.value M hst.env
    obtain ⟨hvalue, hmemory⟩ := M.mono i.op _ _ _ _ hargs hst.memory
    refine ih ⟨fun n hn => ?_, ?_⟩
    · simp only [runInstr, hresult, hop]
      by_cases hn' : n = i.result
      · subst hn'
        rw [Function.update_self, Function.update_self]
        exact hvalue
      · rw [Function.update_of_ne hn', Function.update_of_ne fun heq => hn' (hother n hn heq)]
        exact hst.env n hn
    · simp only [runInstr, hop]
      exact hmemory
  | @insert i' is is' hpure hfresh _ ih =>
    intro st st' hst
    refine ih ⟨fun n hn => ?_, ?_⟩
    · simp only [runInstr]
      rw [Function.update_of_ne (hfresh n hn)]
      exact hst.env n hn
    · simp only [runInstr]
      rw [M.eval_pure _ _ _ hpure]
      exact hst.memory

variable {F F' : Function Op Ty C}

theorem Refines.runBlock (h : Refines isPure σ F F') (p q : ℕ) {st st' : State V S}
    (hst : Related σ F.next st st') :
    Related σ F.next (runBlock M F p q st) (runBlock M F' p q st') :=
  (h.instrs q).foldl M ⟨assignPhis_refined M hst.env (h.phis q) p, hst.memory⟩

/-- **A refinement sees every value that the other function sees**, along every path. -/
theorem Refines.runPath (h : Refines isPure σ F F') (path : List ℕ) :
    ∀ (p : ℕ) {st st' : State V S}, Related σ F.next st st' →
      Related σ F.next (runPath M F p path st) (runPath M F' p path st') := by
  induction path with
  | nil => exact fun _ _ _ hst => hst
  | cons q path ih => exact fun p _ _ hst => ih q (h.runBlock M p q hst)

end Simulation

/-! ## Refinements one after the other -/

section Composition

variable {isPure : Op → Bool} {σ τ : ℕ → ℕ} {next next' : ℕ}

theorem forall₂_trans {α : Type} {R R' R'' : α → α → Prop}
    (htrans : ∀ a b c, R a b → R' b c → R'' a c) {l l' l'' : List α} (h : List.Forall₂ R l l')
    (h' : List.Forall₂ R' l' l'') : List.Forall₂ R'' l l'' := by
  induction h generalizing l'' with
  | nil =>
    cases h'
    exact .nil
  | cons ha _ ih =>
    cases h' with
    | cons hb hrest => exact .cons (htrans _ _ _ ha hb) (ih hrest)

theorem Renames.trans {v v' v'' : Value Ty C} (h : Renames σ next v v')
    (h' : Renames τ next' v' v'') : Renames (τ ∘ σ) next v v'' := by
  cases v with
  | undef ty => trivial
  | const c =>
    rw [show v' = .const c from h] at h'
    exact h'
  | name n =>
    obtain ⟨hlt, rfl⟩ := h
    exact ⟨hlt, h'.2⟩

theorem PhiCovers.trans {φ φ' φ'' : Phi Ty C} (h : PhiCovers σ next φ φ')
    (h' : PhiCovers τ next' φ' φ'') : PhiCovers (τ ∘ σ) next φ φ'' :=
  forall₂_trans (fun _ _ _ he he' => ⟨he.1.trans he'.1, he'.2.trans he.2⟩) h h'

theorem Covers.trans (hlt : ∀ n < next, σ n < next') {is is' is'' : List (Instr Op Ty C)}
    (h : Covers isPure σ next is is') (h' : Covers isPure τ next' is' is'') :
    Covers isPure (τ ∘ σ) next is is'' := by
  induction h' generalizing is with
  | nil =>
    cases h
    exact .nil
  | @keep i' i'' is' is'' _ hresult' hother' hop' hoperands' _ ih =>
    cases h with
    | keep hi hresult hother hop hoperands hrest =>
      refine .keep hi (by rw [hresult', hresult]; rfl) (fun m hm heq => ?_) (hop'.trans hop)
        (forall₂_trans (fun _ _ _ hv hv' => hv.trans hv') hoperands hoperands') (ih hrest)
      rw [Function.comp_apply, Function.comp_apply, ← hresult] at heq
      exact hother m hm ((hother' (σ m) (hlt m hm) heq).trans hresult)
    | insert hpure hfresh hrest =>
      -- what the first refinement inserts is kept by the second one
      refine .insert (by rw [hop', hpure]) (fun m hm heq => ?_) (ih hrest)
      rw [hresult'] at heq
      exact hfresh m hm (hother' (σ m) (hlt m hm) heq)
  | insert hpure hfresh _ ih =>
    exact .insert hpure (fun m hm => hfresh (σ m) (hlt m hm)) (ih h)

theorem Refines.trans {F F' F'' : Function Op Ty C} (h : Refines isPure σ F F')
    (h' : Refines isPure τ F' F'') : Refines isPure (τ ∘ σ) F F'' := by
  refine ⟨fun n hn => h'.lt_next _ (h.lt_next n hn), fun q n hn => ?_,
    fun q => (h.instrs q).trans h.lt_next (h'.instrs q)⟩
  have hphi := h.phis q n hn
  have hphi' := h'.phis q (σ n) (h.lt_next n hn)
  rw [Function.comp_apply]
  generalize findPhi (F.block q).phis n = found at hphi
  generalize findPhi (F'.block q).phis (σ n) = found' at hphi hphi'
  generalize findPhi (F''.block q).phis (τ (σ n)) = found'' at hphi'
  cases hphi with
  | none =>
    cases hphi'
    exact .none
  | some hcovers =>
    cases hphi' with
    | some hcovers' => exact .some (hcovers.trans hcovers')

end Composition

/-! ## Edits -/

section Edits

def Value.replace (old new : ℕ) : Value Ty C → Value Ty C
  | .name n => if n = old then .name new else .name n
  | v => v

def Phi.replace (old new : ℕ) (φ : Phi Ty C) : Phi Ty C :=
  { φ with incoming := φ.incoming.map fun e => (e.1.replace old new, e.2) }

def Instr.replace (old new : ℕ) (i : Instr Op Ty C) : Instr Op Ty C :=
  { i with operands := i.operands.map (Value.replace old new) }

namespace Function

variable (F : Function Op Ty C)

/-- A new phi in front of the phi `old`. -/
def insertPhi (b old : ℕ) (ty : Ty) (incoming : List (Value Ty C × ℕ)) : Function Op Ty C :=
  { next := F.next + 1
    block := Function.update F.block b ⟨(F.block b).phis.flatMap fun ψ =>
      if ψ.result = old then [⟨F.next, ty, incoming⟩, ψ] else [ψ], (F.block b).instrs⟩ }

def replaceAllUsesWith (old new : ℕ) : Function Op Ty C :=
  { F with
    block := fun q => ⟨(F.block q).phis.map (Phi.replace old new),
      (F.block q).instrs.map (Instr.replace old new)⟩ }

/-- Other instructions in the block `b`. -/
def setInstrs (b next : ℕ) (is : List (Instr Op Ty C)) : Function Op Ty C :=
  { next := next, block := Function.update F.block b ⟨(F.block b).phis, is⟩ }

end Function

variable {isPure : Op → Bool} {F : Function Op Ty C} {b old new next : ℕ}

@[simp] theorem Phi.replace_result (φ : Phi Ty C) : (φ.replace old new).result = φ.result := rfl

@[simp] theorem Phi.replace_ty (φ : Phi Ty C) : (φ.replace old new).ty = φ.ty := rfl

@[simp] theorem Instr.replace_result (i : Instr Op Ty C) :
    (i.replace old new).result = i.result := rfl

theorem Value.Below.mono {v : Value Ty C} (h : v.Below next) {next' : ℕ} (hnext : next ≤ next') :
    v.Below next' := fun n hn => Nat.lt_of_lt_of_le (h n hn) hnext

theorem Value.below_undef (ty : Ty) : (Value.undef ty : Value Ty C).Below next := by
  rintro n ⟨⟩

theorem Value.below_const (c : C) : (Value.const c : Value Ty C).Below next := by
  rintro n ⟨⟩

theorem Value.below_name {n : ℕ} (h : n < next) : (Value.name n : Value Ty C).Below next := by
  intro m hm
  cases hm
  exact h

theorem Value.Below.replace {v : Value Ty C} (h : v.Below next) (hnew : new < next) :
    (v.replace old new).Below next := by
  cases v with
  | undef ty => exact below_undef ty
  | const c => exact below_const c
  | name n =>
    unfold Value.replace
    dsimp only
    split
    · exact below_name hnew
    · exact h

/-! ### Other instructions -/

theorem Function.setInstrs_phis (is : List (Instr Op Ty C)) (q : ℕ) :
    ((F.setInstrs b next is).block q).phis = (F.block q).phis := by
  by_cases hq : q = b
  · subst hq
    simp only [Function.setInstrs, Function.update_self]
  · simp only [Function.setInstrs, Function.update_of_ne hq]

theorem Function.setInstrs_instrs_self (is : List (Instr Op Ty C)) :
    ((F.setInstrs b next is).block b).instrs = is := by
  simp only [Function.setInstrs, Function.update_self]

theorem Function.setInstrs_instrs_of_ne (is : List (Instr Op Ty C)) {q : ℕ} (hq : q ≠ b) :
    ((F.setInstrs b next is).block q).instrs = (F.block q).instrs := by
  simp only [Function.setInstrs, Function.update_of_ne hq]

/-- The instructions of a block after others have been put there. -/
theorem Function.mem_setInstrs {is : List (Instr Op Ty C)} {q : ℕ} {i : Instr Op Ty C}
    (h : i ∈ ((F.setInstrs b next is).block q).instrs) :
    i ∈ is ∨ i ∈ (F.block q).instrs := by
  by_cases hq : q = b
  · subst hq
    rw [Function.setInstrs_instrs_self] at h
    exact .inl h
  · rw [Function.setInstrs_instrs_of_ne is hq] at h
    exact .inr h

theorem renames_id {v : Value Ty C} (h : v.Below next) : Renames id next v v := by
  cases v with
  | undef ty => trivial
  | const c => rfl
  | name n => exact ⟨h n rfl, rfl⟩

theorem phiCovers_id {φ : Phi Ty C} (h : ∀ e ∈ φ.incoming, e.1.Below next) :
    PhiCovers id next φ φ := List.forall₂_same.mpr fun e he => ⟨renames_id (h e he), rfl⟩

theorem Covers.cons_id {i : Instr Op Ty C} (hlt : i.result < next)
    (hbelow : ∀ v ∈ i.operands, v.Below next) {is is' : List (Instr Op Ty C)}
    (hrest : Covers isPure id next is is') : Covers isPure id next (i :: is) (i :: is') :=
  .keep hlt rfl (fun _ _ heq => heq) rfl
    (List.forall₂_same.mpr fun v hv => renames_id (hbelow v hv)) hrest

theorem covers_id : ∀ {is : List (Instr Op Ty C)}, (∀ i ∈ is, i.result < next) →
    (∀ i ∈ is, ∀ v ∈ i.operands, v.Below next) → Covers isPure id next is is
  | [], _, _ => .nil
  | i :: _, hlt, hbelow =>
    (covers_id (List.forall_mem_cons.mp hlt).2 (List.forall_mem_cons.mp hbelow).2).cons_id
      (hlt i List.mem_cons_self) (hbelow i List.mem_cons_self)

theorem Covers.append {σ : ℕ → ℕ} {is is' js js' : List (Instr Op Ty C)}
    (h : Covers isPure σ next is is') (h' : Covers isPure σ next js js') :
    Covers isPure σ next (is ++ js) (is' ++ js') := by
  induction h with
  | nil => exact h'
  | keep hlt hresult hother hop hoperands _ ih =>
    exact .keep hlt hresult hother hop hoperands ih
  | insert hpure hfresh _ ih => exact .insert hpure hfresh ih

theorem Function.WellFormed.covers_id (hF : F.WellFormed) (q : ℕ) :
    Covers isPure id F.next (F.block q).instrs (F.block q).instrs :=
  Ssa.covers_id (hF.instr_lt q) (hF.operand_below q)

theorem rel_phi_id (hF : F.WellFormed) (q n : ℕ) :
    Option.Rel (PhiCovers id F.next) (findPhi (F.block q).phis n) (findPhi (F.block q).phis n) := by
  cases hfind : findPhi (F.block q).phis n with
  | none => exact .none
  | some φ => exact .some (phiCovers_id (hF.incoming_below q φ (List.mem_of_find?_eq_some hfind)))

theorem refines_id (hF : F.WellFormed) : Refines isPure id F F :=
  ⟨fun _ hn => hn, fun q n _ => rel_phi_id hF q n, hF.covers_id⟩

/-- Instructions that cover those of a block may take their place. -/
theorem refines_setInstrs (hF : F.WellFormed) (hnext : F.next ≤ next) {is : List (Instr Op Ty C)}
    (hcovers : Covers isPure id F.next (F.block b).instrs is) :
    Refines isPure id F (F.setInstrs b next is) := by
  refine ⟨fun n hn => Nat.lt_of_lt_of_le hn hnext, fun q n _ => ?_, fun q => ?_⟩
  · rw [Function.setInstrs_phis]
    exact rel_phi_id hF q n
  · by_cases hq : q = b
    · subst hq
      rw [Function.setInstrs_instrs_self]
      exact hcovers
    · rw [Function.setInstrs_instrs_of_ne is hq]
      exact hF.covers_id q

theorem Function.WellFormed.setInstrs (hF : F.WellFormed) (hnext : F.next ≤ next)
    {is : List (Instr Op Ty C)} (hlt : ∀ i ∈ is, i.result < next)
    (hbelow : ∀ i ∈ is, ∀ v ∈ i.operands, v.Below next)
    (hnew : ∀ i ∈ is, F.next ≤ i.result ∨ ∃ j ∈ (F.block b).instrs, j.result = i.result) :
    (F.setInstrs b next is).WellFormed := by
  constructor
  · intro q φ hφ
    rw [Function.setInstrs_phis] at hφ
    exact Nat.lt_of_lt_of_le (hF.phi_lt q φ hφ) hnext
  · intro q i hi
    rcases Function.mem_setInstrs hi with hi | hi
    · exact hlt i hi
    · exact Nat.lt_of_lt_of_le (hF.instr_lt q i hi) hnext
  · intro q φ hφ e he
    rw [Function.setInstrs_phis] at hφ
    exact (hF.incoming_below q φ hφ e he).mono hnext
  · intro q i hi v hv
    rcases Function.mem_setInstrs hi with hi | hi
    · exact hbelow i hi v hv
    · exact (hF.operand_below q i hi v hv).mono hnext
  · intro p φ hφ q i hi
    rw [Function.setInstrs_phis] at hφ
    rcases Function.mem_setInstrs hi with hi | hi
    · rcases hnew i hi with hge | ⟨j, hj, hresult⟩
      · exact Nat.ne_of_gt (Nat.lt_of_lt_of_le (hF.phi_lt p φ hφ) hge)
      · rw [← hresult]
        exact hF.phi_ne_instr p φ hφ b j hj
    · exact hF.phi_ne_instr p φ hφ q i hi
  · intro p φ hφ q ψ hψ hresult
    rw [Function.setInstrs_phis] at hφ hψ
    exact hF.phi_unique p φ hφ q ψ hψ hresult

/-! ### A phi in the place of another one -/

theorem findPhi_map_replace (phis : List (Phi Ty C)) (n : ℕ) :
    findPhi (phis.map (Phi.replace old new)) n = (findPhi phis n).map (Phi.replace old new) := by
  unfold findPhi
  rw [List.find?_map]
  rfl

theorem findPhi_eq_none {phis : List (Phi Ty C)} {n : ℕ} (h : ∀ φ ∈ phis, φ.result ≠ n) :
    findPhi phis n = none := List.find?_eq_none.mpr fun φ hφ => by simpa using h φ hφ

theorem Function.insertPhi_phis_self (ty : Ty) (incoming : List (Value Ty C × ℕ)) :
    ((F.insertPhi b old ty incoming).block b).phis = (F.block b).phis.flatMap fun ψ =>
      if ψ.result = old then [⟨F.next, ty, incoming⟩, ψ] else [ψ] := by
  simp only [Function.insertPhi, Function.update_self]

theorem Function.insertPhi_phis_of_ne (ty : Ty) (incoming : List (Value Ty C × ℕ)) {q : ℕ}
    (hq : q ≠ b) : ((F.insertPhi b old ty incoming).block q).phis = (F.block q).phis := by
  simp only [Function.insertPhi, Function.update_of_ne hq]

theorem Function.insertPhi_instrs (ty : Ty) (incoming : List (Value Ty C × ℕ)) (q : ℕ) :
    ((F.insertPhi b old ty incoming).block q).instrs = (F.block q).instrs := by
  by_cases hq : q = b
  · subst hq
    simp only [Function.insertPhi, Function.update_self]
  · simp only [Function.insertPhi, Function.update_of_ne hq]

theorem Function.mem_insertPhi {ty : Ty} {incoming : List (Value Ty C × ℕ)} {q : ℕ}
    {ψ : Phi Ty C} (h : ψ ∈ ((F.insertPhi b old ty incoming).block q).phis) :
    ψ ∈ (F.block q).phis ∨ q = b ∧ ψ = ⟨F.next, ty, incoming⟩ := by
  by_cases hq : q = b
  · subst hq
    rw [Function.insertPhi_phis_self, List.mem_flatMap] at h
    obtain ⟨χ, hχ, hψ⟩ := h
    split at hψ
    · rcases List.mem_pair.mp hψ with rfl | rfl
      · exact .inr ⟨rfl, rfl⟩
      · exact .inl hχ
    · rw [List.mem_singleton.mp hψ]
      exact .inl hχ
  · rw [Function.insertPhi_phis_of_ne ty incoming hq] at h
    exact .inl h

theorem Function.mem_insertPhi_of_mem (ty : Ty) (incoming : List (Value Ty C × ℕ)) {q : ℕ}
    {ψ : Phi Ty C} (h : ψ ∈ (F.block q).phis) :
    ψ ∈ ((F.insertPhi b old ty incoming).block q).phis := by
  by_cases hq : q = b
  · subst hq
    rw [Function.insertPhi_phis_self, List.mem_flatMap]
    refine ⟨ψ, h, ?_⟩
    split
    · exact List.mem_pair.mpr (.inr rfl)
    · exact List.mem_singleton_self ψ
  · rwa [Function.insertPhi_phis_of_ne ty incoming hq]

/-- The phis that were there are found as before. -/
theorem findPhi_insertPhi_of_ne (φ' : Phi Ty C) {n : ℕ} (hn : φ'.result ≠ n) :
    ∀ phis : List (Phi Ty C),
      findPhi (phis.flatMap fun ψ => if ψ.result = old then [φ', ψ] else [ψ]) n = findPhi phis n
  | [] => rfl
  | ψ :: phis => by
    have ih := findPhi_insertPhi_of_ne φ' hn phis
    unfold findPhi at ih ⊢
    rw [List.flatMap_cons, List.find?_append, ih]
    by_cases hψ : ψ.result = n
    · split <;> simp [hψ, hn]
    · split <;> simp [hψ, hn]

theorem findPhi_insertPhi_self (φ' : Phi Ty C) : ∀ {phis : List (Phi Ty C)},
    (∀ ψ ∈ phis, ψ.result ≠ φ'.result) → (∃ ψ ∈ phis, ψ.result = old) →
      findPhi (phis.flatMap fun ψ => if ψ.result = old then [φ', ψ] else [ψ]) φ'.result = some φ'
  | [], _, hold => by
    obtain ⟨ψ, hψ, -⟩ := hold
    cases hψ
  | ψ :: phis, hne, hold => by
    have hne' := List.forall_mem_cons.mp hne
    by_cases hψ : ψ.result = old
    · unfold findPhi
      rw [List.flatMap_cons, if_pos hψ]
      exact List.find?_cons_of_pos (by simp)
    · -- the phi is further behind
      obtain ⟨χ, hχ, hresult⟩ := hold
      rcases List.mem_cons.mp hχ with rfl | hχ
      · exact absurd hresult hψ
      · have ih := findPhi_insertPhi_self φ' hne'.2 ⟨χ, hχ, hresult⟩
        unfold findPhi at ih ⊢
        rw [List.flatMap_cons, if_neg hψ, List.singleton_append,
          List.find?_cons_of_neg (by simpa using hne'.1), ih]

/-- A name is renamed to the name that takes its place. -/
theorem renames_replace {v : Value Ty C} (h : v.Below next) :
    Renames (Function.update id old new) next v (v.replace old new) := by
  cases v with
  | undef ty => trivial
  | const c => rfl
  | name n =>
    refine ⟨h n rfl, ?_⟩
    by_cases hn : n = old
    · rw [hn, Function.update_self]
      exact if_pos rfl
    · rw [Function.update_of_ne hn]
      exact if_neg hn

theorem covers_replace (hnew : next ≤ new) : ∀ {is : List (Instr Op Ty C)},
    (∀ i ∈ is, i.result < next) → (∀ i ∈ is, i.result ≠ old) →
      (∀ i ∈ is, ∀ v ∈ i.operands, v.Below next) →
        Covers isPure (Function.update id old new) next is (is.map (Instr.replace old new))
  | [], _, _, _ => .nil
  | i :: _, hlt, hne, hbelow => by
    have hlt' := List.forall_mem_cons.mp hlt
    have hne' := List.forall_mem_cons.mp hne
    have hbelow' := List.forall_mem_cons.mp hbelow
    have hresult : Function.update id old new i.result = i.result :=
      Function.update_of_ne hne'.1 _ _
    refine .keep hlt'.1 (by rw [hresult]; rfl) (fun m _ heq => ?_) rfl ?_
      (covers_replace hnew hlt'.2 hne'.2 hbelow'.2)
    · rw [hresult] at heq
      by_cases hm : m = old
      · rw [hm, Function.update_self] at heq
        exact absurd (heq ▸ hnew) (Nat.not_le.mpr hlt'.1)
      · rwa [Function.update_of_ne hm] at heq
    · rw [Instr.replace, List.forall₂_map_right_iff]
      exact List.forall₂_same.mpr fun v hv => renames_replace (hbelow'.1 v hv)

theorem Function.WellFormed.findPhi_self (hF : F.WellFormed) {φ : Phi Ty C}
    (hφ : φ ∈ (F.block b).phis) : findPhi (F.block b).phis φ.result = some φ := by
  cases hfind : findPhi (F.block b).phis φ.result with
  | none =>
    have hnone := List.find?_eq_none.mp hfind φ hφ
    simp at hnone
  | some ψ =>
    have hψ : ψ.result = φ.result := by simpa using List.find?_some hfind
    rw [(hF.phi_unique b ψ (List.mem_of_find?_eq_some hfind) b φ hφ hψ).2]

/-- No other block has a phi of this name. -/
theorem Function.WellFormed.findPhi_of_ne (hF : F.WellFormed) {φ : Phi Ty C}
    (hφ : φ ∈ (F.block b).phis) {q : ℕ} (hq : q ≠ b) :
    findPhi (F.block q).phis φ.result = none :=
  findPhi_eq_none fun ψ hψ hresult => hq (hF.phi_unique q ψ hψ b φ hφ hresult).1

/-- No phi has a name that is not in use. -/
theorem Function.WellFormed.findPhi_next (hF : F.WellFormed) (q : ℕ) :
    findPhi (F.block q).phis F.next = none :=
  findPhi_eq_none fun ψ hψ => Nat.ne_of_lt (hF.phi_lt q ψ hψ)

theorem phiCovers_replace {φ : Phi Ty C} (h : ∀ e ∈ φ.incoming, e.1.Below next) :
    PhiCovers (Function.update id old new) next φ (φ.replace old new) := by
  unfold PhiCovers Phi.replace
  rw [List.forall₂_map_right_iff]
  exact List.forall₂_same.mpr fun e he => ⟨renames_replace (h e he), rfl⟩

/-- The entries of the new phi, with the names that they get. -/
theorem phiCovers_new {φ : Phi Ty C} (h : ∀ e ∈ φ.incoming, e.1.Below next) (n : ℕ)
    {incoming : List (Value Ty C × ℕ)}
    (hincoming : List.Forall₂ (fun e e' => (e' = e ∨ ∃ ty, e.1 = .undef ty) ∧ e'.2 = e.2)
      φ.incoming incoming) :
    PhiCovers (Function.update id old new) next φ
      ((⟨n, φ.ty, incoming⟩ : Phi Ty C).replace old new) := by
  unfold PhiCovers Phi.replace
  rw [List.forall₂_map_right_iff]
  have hboth := (List.forall₂_and_left _ _).mpr ⟨h, hincoming⟩
  refine hboth.imp ?_
  rintro e e' ⟨hbelow, hvalue, hblock⟩
  refine ⟨?_, hblock⟩
  rcases hvalue with rfl | ⟨ty, hundef⟩
  · exact renames_replace hbelow
  · rw [hundef]
    trivial

/-- **A phi may take the place of another one** if its incoming values are the same, but for those
that are undefined. -/
theorem refines_replacePhi (hF : F.WellFormed) {φ : Phi Ty C} (hφ : φ ∈ (F.block b).phis)
    {incoming : List (Value Ty C × ℕ)}
    (hincoming : List.Forall₂ (fun e e' => (e' = e ∨ ∃ ty, e.1 = .undef ty) ∧ e'.2 = e.2)
      φ.incoming incoming) :
    Refines isPure (Function.update id φ.result F.next) F
      ((F.insertPhi b φ.result φ.ty incoming).replaceAllUsesWith φ.result F.next) := by
  refine ⟨fun n hn => ?_, fun q n hn => ?_, fun q => ?_⟩
  · show _ < F.next + 1
    by_cases hn' : n = φ.result
    · rw [hn', Function.update_self]
      exact Nat.lt_succ_self _
    · rw [Function.update_of_ne hn']
      exact Nat.lt_succ_of_lt hn
  · show Option.Rel _ _ (findPhi (List.map (Phi.replace φ.result F.next) _) _)
    rw [findPhi_map_replace]
    by_cases hn' : n = φ.result
    · subst hn'
      rw [Function.update_self]
      by_cases hq : q = b
      · -- the phi itself
        subst hq
        rw [Function.insertPhi_phis_self, hF.findPhi_self hφ,
          findPhi_insertPhi_self ⟨F.next, φ.ty, incoming⟩
            (fun ψ hψ => Nat.ne_of_lt (hF.phi_lt q ψ hψ)) ⟨φ, hφ, rfl⟩]
        exact .some (phiCovers_new (hF.incoming_below q φ hφ) F.next hincoming)
      · rw [Function.insertPhi_phis_of_ne φ.ty incoming hq, hF.findPhi_of_ne hφ hq,
          hF.findPhi_next q]
        exact .none
    · -- any other phi
      have hfind : findPhi ((F.insertPhi b φ.result φ.ty incoming).block q).phis n =
          findPhi (F.block q).phis n := by
        by_cases hq : q = b
        · subst hq
          rw [Function.insertPhi_phis_self]
          exact findPhi_insertPhi_of_ne ⟨F.next, φ.ty, incoming⟩ (Nat.ne_of_gt hn) _
        · rw [Function.insertPhi_phis_of_ne φ.ty incoming hq]
      rw [Function.update_of_ne hn']
      show Option.Rel _ _ (Option.map _ (findPhi _ n))
      rw [hfind]
      cases hψ : findPhi (F.block q).phis n with
      | none => exact .none
      | some ψ =>
        exact .some (phiCovers_replace (hF.incoming_below q ψ (List.mem_of_find?_eq_some hψ)))
  · show Covers isPure _ _ _ (List.map (Instr.replace φ.result F.next) _)
    rw [Function.insertPhi_instrs]
    exact covers_replace (Nat.le_refl _) (hF.instr_lt q)
      (fun i hi => hF.phi_ne_instr b φ hφ q i hi) (hF.operand_below q)

theorem Function.WellFormed.insertPhi (hF : F.WellFormed) (ty : Ty)
    {incoming : List (Value Ty C × ℕ)} (hbelow : ∀ e ∈ incoming, e.1.Below F.next) :
    (F.insertPhi b old ty incoming).WellFormed := by
  constructor
  · intro q φ hφ
    rcases Function.mem_insertPhi hφ with hφ | ⟨-, rfl⟩
    · exact Nat.lt_succ_of_lt (hF.phi_lt q φ hφ)
    · exact Nat.lt_succ_self _
  · intro q i hi
    rw [Function.insertPhi_instrs] at hi
    exact Nat.lt_succ_of_lt (hF.instr_lt q i hi)
  · intro q φ hφ e he
    rcases Function.mem_insertPhi hφ with hφ | ⟨-, rfl⟩
    · exact (hF.incoming_below q φ hφ e he).mono (Nat.le_succ _)
    · exact (hbelow e he).mono (Nat.le_succ _)
  · intro q i hi v hv
    rw [Function.insertPhi_instrs] at hi
    exact (hF.operand_below q i hi v hv).mono (Nat.le_succ _)
  · intro p φ hφ q i hi
    rw [Function.insertPhi_instrs] at hi
    rcases Function.mem_insertPhi hφ with hφ | ⟨-, rfl⟩
    · exact hF.phi_ne_instr p φ hφ q i hi
    · exact Nat.ne_of_lt (hF.instr_lt q i hi)
  · intro p φ hφ q ψ hψ hresult
    rcases Function.mem_insertPhi hφ with hφ | ⟨rfl, rfl⟩
    · rcases Function.mem_insertPhi hψ with hψ | ⟨-, rfl⟩
      · exact hF.phi_unique p φ hφ q ψ hψ hresult
      · exact absurd hresult (Nat.ne_of_lt (hF.phi_lt p φ hφ))
    · rcases Function.mem_insertPhi hψ with hψ | ⟨rfl, rfl⟩
      · exact absurd hresult (Nat.ne_of_gt (hF.phi_lt q ψ hψ))
      · exact ⟨rfl, rfl⟩

theorem Function.WellFormed.replaceAllUsesWith (hF : F.WellFormed) (hnew : new < F.next) :
    (F.replaceAllUsesWith old new).WellFormed := by
  constructor
  · intro q φ hφ
    obtain ⟨ψ, hψ, rfl⟩ := List.mem_map.mp hφ
    exact hF.phi_lt q ψ hψ
  · intro q i hi
    obtain ⟨j, hj, rfl⟩ := List.mem_map.mp hi
    exact hF.instr_lt q j hj
  · intro q φ hφ e he
    obtain ⟨ψ, hψ, rfl⟩ := List.mem_map.mp hφ
    obtain ⟨d, hd, rfl⟩ := List.mem_map.mp he
    exact (hF.incoming_below q ψ hψ d hd).replace hnew
  · intro q i hi v hv
    obtain ⟨j, hj, rfl⟩ := List.mem_map.mp hi
    obtain ⟨w, hw, rfl⟩ := List.mem_map.mp hv
    exact (hF.operand_below q j hj w hw).replace hnew
  · intro p φ hφ q i hi
    obtain ⟨ψ, hψ, rfl⟩ := List.mem_map.mp hφ
    obtain ⟨j, hj, rfl⟩ := List.mem_map.mp hi
    exact hF.phi_ne_instr p ψ hψ q j hj
  · intro p φ hφ q ψ hψ hresult
    obtain ⟨φ₀, hφ₀, rfl⟩ := List.mem_map.mp hφ
    obtain ⟨ψ₀, hψ₀, rfl⟩ := List.mem_map.mp hψ
    obtain ⟨hblock, rfl⟩ := hF.phi_unique p φ₀ hφ₀ q ψ₀ hψ₀ hresult
    exact ⟨hblock, rfl⟩

/-! ### Uses -/

theorem Value.replace_eq_name {v : Value Ty C} {n : ℕ} (h : v.replace old new = .name n) :
    (v = .name n ∧ n ≠ old) ∨ n = new := by
  cases v with
  | undef ty => cases h
  | const c => cases h
  | name m =>
    by_cases hm : m = old
    · rw [Value.replace, if_pos hm] at h
      cases h
      exact .inr rfl
    · rw [Value.replace, if_neg hm] at h
      cases h
      exact .inl ⟨rfl, hm⟩

theorem Value.replace_eq_undef_iff {v : Value Ty C} {ty : Ty} :
    v.replace old new = .undef ty ↔ v = .undef ty := by
  cases v with
  | undef ty' => exact Iff.rfl
  | const c => exact Iff.rfl
  | name m =>
    unfold Value.replace
    dsimp only
    split <;> simp

/-- The name that is replaced is not in use. -/
theorem Function.uses_replaceAllUsesWith {n : ℕ} (h : (F.replaceAllUsesWith old new).Uses n) :
    (F.Uses n ∧ n ≠ old) ∨ n = new := by
  obtain ⟨q, hphi | hinstr⟩ := h
  · obtain ⟨φ, hφ, e, he, hname⟩ := hphi
    obtain ⟨ψ, hψ, rfl⟩ := List.mem_map.mp hφ
    obtain ⟨d, hd, rfl⟩ := List.mem_map.mp he
    rcases Value.replace_eq_name hname with ⟨hd', hne⟩ | hnew
    · exact .inl ⟨⟨q, .inl ⟨ψ, hψ, d, hd, hd'⟩⟩, hne⟩
    · exact .inr hnew
  · obtain ⟨i, hi, hname⟩ := hinstr
    obtain ⟨j, hj, rfl⟩ := List.mem_map.mp hi
    obtain ⟨v, hv, heq⟩ := List.mem_map.mp hname
    rcases Value.replace_eq_name heq with ⟨rfl, hne⟩ | hnew
    · exact .inl ⟨⟨q, .inr ⟨j, hj, hv⟩⟩, hne⟩
    · exact .inr hnew

theorem Function.uses_insertPhi {ty : Ty} {incoming : List (Value Ty C × ℕ)} {n : ℕ}
    (h : (F.insertPhi b old ty incoming).Uses n) :
    F.Uses n ∨ ∃ e ∈ incoming, e.1 = .name n := by
  obtain ⟨q, hphi | hinstr⟩ := h
  · obtain ⟨φ, hφ, hentry⟩ := hphi
    rcases Function.mem_insertPhi hφ with hφ | ⟨-, rfl⟩
    · exact .inl ⟨q, .inl ⟨φ, hφ, hentry⟩⟩
    · exact .inr hentry
  · rw [Function.insertPhi_instrs] at hinstr
    exact .inl ⟨q, .inr hinstr⟩

theorem Function.uses_setInstrs {is : List (Instr Op Ty C)} {n : ℕ}
    (h : (F.setInstrs b next is).Uses n) : F.Uses n ∨ ∃ i ∈ is, .name n ∈ i.operands := by
  obtain ⟨q, hphi | hinstr⟩ := h
  · rw [Function.setInstrs_phis] at hphi
    exact .inl ⟨q, .inl hphi⟩
  · obtain ⟨i, hi, hname⟩ := hinstr
    rcases Function.mem_setInstrs hi with hi | hi
    · exact .inr ⟨i, hi, hname⟩
    · exact .inl ⟨q, .inr ⟨i, hi, hname⟩⟩

end Edits

end TVMCompiler.Lib.Ssa
