import Mathlib.Data.Set.Function
import TVMCompiler.Lib.Behaviour
import TVMCompiler.StackModel.Meaning

/-!
# Changing code in register form

The passes in front of the stack model move instructions of a block and add new ones, whose results
are in registers that the function did not have before. The changed code refines the code before,
where the two differ in these registers only.

## Main definitions

* `AgreeOff`: states that differ in some registers only
* `RegCode`: the run of a block, instruction by instruction
* `CodeRefines`: whatever the changed code does the code may do as well
* `LoadsConst`: an instruction that gives a register a constant

## Main results

* `RegStep.agreeOff`, `RegLeaves.agreeOff`: registers that an instruction does not read
* `regCode_moveDown`: a constant may be loaded later
* `codeRefines_insert`: a constant may be loaded into a register that nothing reads
* `refines_of_codeRefines`: the function refines the function before
-/

namespace TVMCompiler

open Lib

/-! ## States that differ in some registers -/

section AgreeOff

variable {Label Data State : Type} {F G : Set StackVreg} {s s' s'' : RegState Label Data State}

/-- The states differ in the registers of the set only. -/
def AgreeOff (F : Set StackVreg) (s s' : RegState Label Data State) : Prop :=
  s.state = s'.state ∧ Set.EqOn s.regs s'.regs Fᶜ

theorem AgreeOff.refl (F : Set StackVreg) (s : RegState Label Data State) : AgreeOff F s s :=
  ⟨rfl, Set.eqOn_refl _ _⟩

theorem AgreeOff.trans (h : AgreeOff F s s') (h' : AgreeOff F s' s'') : AgreeOff F s s'' :=
  ⟨h.1.trans h'.1, h.2.trans h'.2⟩

theorem AgreeOff.mono (h : AgreeOff G s s') (hsub : G ⊆ F) : AgreeOff F s s' :=
  ⟨h.1, h.2.mono (Set.compl_subset_compl.mpr hsub)⟩

theorem AgreeOff.symm (h : AgreeOff F s s') : AgreeOff F s' s := ⟨h.1.symm, h.2.symm⟩

theorem agreeOff_update (s : RegState Label Data State) (r : StackVreg)
    (x : Option (Value Label Data)) : AgreeOff {r} s ⟨Function.update s.regs r x, s.state⟩ :=
  ⟨rfl, fun _ hv => (Function.update_of_ne hv _ _).symm⟩

variable {regs regs' : StackVreg → Option (Value Label Data)}

theorem Reads.congr {uses : List RegOperand} {xs : List (Value Label Data)}
    (h : Reads regs uses xs)
    (hregs : ∀ r isDead, .reg r false isDead ∈ uses → regs r = regs' r) : Reads regs' uses xs := by
  unfold Reads at h ⊢
  induction uses generalizing xs with
  | nil =>
    cases h
    exact List.Forall₂.nil
  | cons op uses ih =>
    have hrest := fun r isDead hr => hregs r isDead (List.mem_cons_of_mem _ hr)
    cases op with
    | reg r isUndef isDead =>
      cases h with
      | cons hx h =>
        refine List.Forall₂.cons ?_ (ih h hrest)
        rintro rfl
        unfold SlotValue
        rw [← hregs r isDead List.mem_cons_self]
        exact hx rfl
    | _ => exact ih h hrest

theorem writeResults_of_notMem {defs : List StackVreg} {xs : List (Value Label Data)}
    {v : StackVreg} (hv : v ∉ defs) : writeResults regs defs xs v = regs v := by
  induction defs generalizing regs xs with
  | nil => rfl
  | cons r defs ih =>
    cases xs with
    | nil => rfl
    | cons x xs =>
      have hne : v ≠ r := by
        rintro rfl
        exact hv List.mem_cons_self
      rw [writeResults, ih fun h => hv (List.mem_cons_of_mem _ h), Function.update_of_ne hne]

theorem eqOn_update {A : Set StackVreg} (h : Set.EqOn regs regs' A) (r : StackVreg)
    (x : Option (Value Label Data)) :
    Set.EqOn (Function.update regs r x) (Function.update regs' r x) A := by
  intro v hv
  by_cases hne : v = r
  · rw [hne, Function.update_self, Function.update_self]
  · rw [Function.update_of_ne hne, Function.update_of_ne hne]
    exact h hv

theorem eqOn_writeResults {A : Set StackVreg} (h : Set.EqOn regs regs' A) (defs : List StackVreg)
    (xs : List (Value Label Data)) :
    Set.EqOn (writeResults regs defs xs) (writeResults regs' defs xs) A := by
  induction defs generalizing regs regs' xs with
  | nil => exact h
  | cons r defs ih =>
    cases xs with
    | nil => exact h
    | cons x xs => exact ih (eqOn_update h r (some x)) xs

end AgreeOff

/-! ## Instructions -/

section Step

variable {Label Data State : Type} {meaning : Meaning Label Data State}
  {hidden : List (Value Label Data)} {mi : RegInstr} {F : Set StackVreg}
  {s s' : RegState Label Data State} {out : Option (RegState Label Data State)}

/-- For opcodes that are terminators exactly where they are returns. -/
theorem return_terminator_id (b : Bool) (h : b = true) : b = true := h

theorem not_isSkipped_of_hasSForm {op : RegOpcode} (h : op.hasSForm) : ¬op.isSkipped := by
  cases op <;> simp_all [RegOpcode.hasSForm, RegOpcode.isSkipped]

/-- The registers that the execution of the instruction depends on. -/
def RegInstr.asked (mi : RegInstr) : List StackVreg :=
  if mi.opcode.isSkipped then [] else mi.readRegs

theorem mem_readRegs {r : StackVreg} :
    r ∈ mi.readRegs ↔ ∃ isDead, .reg r false isDead ∈ mi.uses := by
  constructor
  · intro h
    obtain ⟨op, hop, h⟩ := List.mem_filterMap.mp h
    cases op with
    | reg v isUndef isDead =>
      cases isUndef with
      | true => cases h
      | false =>
        cases h
        exact ⟨isDead, hop⟩
    | _ => cases h
  · rintro ⟨isDead, hop⟩
    exact List.mem_filterMap.mpr ⟨_, hop, rfl⟩

theorem asked_subset_readRegs : mi.asked ⊆ mi.readRegs := by
  unfold RegInstr.asked
  split_ifs
  · exact List.nil_subset _
  · exact fun _ h => h

/-- **An instruction that does not ask for a register** does the same whatever is in it. -/
theorem RegStep.agreeOff (h : RegStep meaning hidden mi s out) (hagree : AgreeOff F s s')
    (hreads : ∀ v ∈ mi.asked, v ∉ F) :
    ∃ out', RegStep meaning hidden mi s' out' ∧ Option.Rel (AgreeOff F) out out' := by
  obtain ⟨regs, st⟩ := s
  obtain ⟨regs', st'⟩ := s'
  obtain ⟨rfl, hregs⟩ : st = st' ∧ Set.EqOn regs regs' Fᶜ := hagree
  cases h with
  | skipped _ hop => exact ⟨_, .skipped _ hop, .some ⟨rfl, hregs⟩⟩
  | implicitDef _ hop =>
    refine ⟨_, .implicitDef _ hop, .some ⟨rfl, fun v hv => ?_⟩⟩
    simp only [undefine]
    split_ifs
    · rfl
    · exact hregs hv
  | @hiddenStack r _ _ element _ hop hdefs huses =>
    refine ⟨_, .hiddenStack _ hop hdefs huses, ?_⟩
    cases hidden[element.toNat]? with
    | none => exact .none
    | some x => exact .some ⟨rfl, eqOn_update hregs r (some x)⟩
  | @exec xs _ hop hterm hxs =>
    have hasked : mi.asked = mi.readRegs := if_neg (not_isSkipped_of_hasSForm hop)
    have hxs' : Reads regs' mi.uses xs := hxs.congr fun r isDead hr =>
      hregs (hreads r (hasked ▸ mem_readRegs.mpr ⟨isDead, hr⟩))
    refine ⟨_, .exec _ hop hterm hxs', ?_⟩
    show Option.Rel _ (Option.map _ (meaning.exec mi.opcode mi.passed st xs mi.defs.length))
      (Option.map _ (meaning.exec mi.opcode mi.passed st xs mi.defs.length))
    cases meaning.exec mi.opcode mi.passed st xs mi.defs.length with
    | none => exact .none
    | some p => exact .some ⟨rfl, eqOn_writeResults hregs _ _⟩

theorem RegStep.regs_of_notMem (h : RegStep meaning hidden mi s (some s')) {v : StackVreg}
    (hv : v ∉ mi.defRegs) : s'.regs v = s.regs v := by
  generalize hout : some s' = out at h
  cases h with
  | skipped =>
    cases hout
    rfl
  | implicitDef =>
    cases hout
    exact if_neg hv
  | hiddenStack _ _ hdefs =>
    obtain ⟨x, -, heq⟩ := Option.map_eq_some_iff.mp hout.symm
    cases heq
    refine Function.update_of_ne ?_ _ _
    rintro rfl
    refine hv ?_
    rw [RegInstr.defRegs, hdefs]
    exact List.mem_cons_self
  | exec =>
    obtain ⟨p, -, heq⟩ := Option.map_eq_some_iff.mp hout.symm
    cases heq
    exact writeResults_of_notMem hv

theorem RegStep.isTerminator (h : RegStep meaning hidden mi s out) :
    mi.opcode.isTerminator = false := by
  cases h with
  | skipped _ hop =>
    cases hterm : mi.opcode.isTerminator with
    | false => rfl
    | true =>
      rw [(RegOpcode.prepared_of_isTerminator hterm).1] at hop
      cases hop
  | implicitDef _ hop => rw [hop]; rfl
  | hiddenStack _ hop => rw [hop]; rfl
  | exec _ _ hterm => exact hterm

end Step

/-! ## Blocks -/

section Code

variable {Block Data State : Type}

/-- The same block, in states that differ in the registers of the set only. -/
def SameBlock (F : Set StackVreg) (c c' : Block × RegState Block Data State) : Prop :=
  c.1 = c'.1 ∧ AgreeOff F c.2 c'.2

theorem SameBlock.trans {F : Set StackVreg} {c c' c'' : Block × RegState Block Data State}
    (h : SameBlock F c c') (h' : SameBlock F c' c'') : SameBlock F c c'' :=
  ⟨h.1.trans h'.1, h.2.trans h'.2⟩

section Leaves

variable
  {jump : RegOpcode → List RegOperand → State → List (Value Block Data) → Option (State × Block)}
  {hidden : List (Value Block Data)} {mi : RegInstr} {F : Set StackVreg}
  {s s' : RegState Block Data State}
  {out : (Block × RegState Block Data State) ⊕ Outcome Block Data State}

theorem RegLeaves.isTerminator (h : RegLeaves jump hidden mi s out) : mi.opcode.isTerminator := by
  cases h with
  | ret _ hop => exact RegOpcode.isTerminator_of_isReturn hop
  | jump _ hop => exact hop
  | throws _ hop => exact hop

theorem RegLeaves.agreeOff (h : RegLeaves jump hidden mi s out) (hagree : AgreeOff F s s')
    (hreads : ∀ v ∈ mi.asked, v ∉ F) :
    ∃ out', RegLeaves jump hidden mi s' out' ∧ Sum.LiftRel (SameBlock F) Eq out out' := by
  obtain ⟨regs, st⟩ := s
  obtain ⟨regs', st'⟩ := s'
  obtain ⟨rfl, hregs⟩ : st = st' ∧ Set.EqOn regs regs' Fᶜ := hagree
  have hasked : mi.asked = mi.readRegs := if_neg (by
    rw [(RegOpcode.prepared_of_isTerminator h.isTerminator).1]
    exact Bool.false_ne_true)
  have hread {xs : List (Value Block Data)} (hxs : Reads regs mi.uses xs) :
      Reads regs' mi.uses xs := hxs.congr fun r isDead hr =>
    hregs (hreads r (hasked ▸ mem_readRegs.mpr ⟨isDead, hr⟩))
  cases h with
  | ret _ hop hxs => exact ⟨_, .ret _ hop (hread hxs), .inr rfl⟩
  | jump _ hop hret hxs hjump =>
    exact ⟨_, .jump _ hop hret (hread hxs) hjump, .inl ⟨rfl, rfl, hregs⟩⟩
  | throws _ hop hret hxs hjump => exact ⟨_, .throws _ hop hret (hread hxs) hjump, .inr rfl⟩

end Leaves

variable (meaning : Meaning Block Data State)
  (jump : RegOpcode → List RegOperand → State → List (Value Block Data) → Option (State × Block))
  (hidden : List (Value Block Data))

/-- The instructions of a block up to the first terminator. -/
inductive RegCode : List RegInstr → RegState Block Data State →
    (Block × RegState Block Data State) ⊕ Outcome Block Data State → Prop
  | throws {mi : RegInstr} {l : List RegInstr} {s : RegState Block Data State}
      (hstep : RegStep meaning hidden mi s none) : RegCode (mi :: l) s (.inr .threw)
  | step {mi : RegInstr} {l : List RegInstr} {s s' : RegState Block Data State}
      {out : (Block × RegState Block Data State) ⊕ Outcome Block Data State}
      (hstep : RegStep meaning hidden mi s (some s')) (hrest : RegCode l s' out) :
      RegCode (mi :: l) s out
  | leaves {mi : RegInstr} {l : List RegInstr} {s : RegState Block Data State}
      {out : (Block × RegState Block Data State) ⊕ Outcome Block Data State}
      (hleaves : RegLeaves jump hidden mi s out) : RegCode (mi :: l) s out

/-- Whatever the changed code does the code may do as well, up to the registers of the set. -/
def CodeRefines (F : Set StackVreg) (l l' : List RegInstr) : Prop :=
  ∀ s s' out', AgreeOff F s s' → RegCode meaning jump hidden l' s' out' →
    ∃ out, RegCode meaning jump hidden l s out ∧ Sum.LiftRel (SameBlock F) Eq out out'

variable {meaning jump hidden} {F G : Set StackVreg} {l l' l'' : List RegInstr}
  {s s' : RegState Block Data State}
  {out : (Block × RegState Block Data State) ⊕ Outcome Block Data State}

theorem RegRun.snoc {init : List RegInstr} {mi : RegInstr}
    {o : Option (RegState Block Data State)} (hrun : RegRun meaning hidden init s (some s'))
    (hstep : RegStep meaning hidden mi s' o) : RegRun meaning hidden (init ++ [mi]) s o := by
  generalize ho : some s' = o' at hrun
  induction hrun with
  | nil =>
    cases ho
    cases o with
    | none => exact .throws hstep
    | some s'' => exact .cons hstep (.nil s'')
  | throws => cases ho
  | cons hfirst _ ih => exact .cons hfirst (ih ho)

theorem RegRun.regCode_none {init : List RegInstr} (hrun : RegRun meaning hidden init s none)
    (rest : List RegInstr) : RegCode meaning jump hidden (init ++ rest) s (.inr .threw) := by
  generalize ho : none = o at hrun
  induction hrun with
  | nil => cases ho
  | throws hstep => exact .throws hstep
  | cons hstep _ ih => exact .step hstep (ih ho)

theorem RegRun.regCode {init : List RegInstr} (hrun : RegRun meaning hidden init s (some s'))
    (h : RegCode meaning jump hidden l s' out) :
    RegCode meaning jump hidden (init ++ l) s out := by
  generalize ho : some s' = o at hrun
  induction hrun with
  | nil =>
    cases ho
    exact h
  | throws => cases ho
  | cons hstep _ ih => exact .step hstep (ih ho)

theorem regBlock_iff {fn : RegFunction Block} {b : Block} :
    fn.RegBlock meaning jump hidden (b, s) out ↔
      RegCode meaning jump hidden (fn.instrs b) s out := by
  constructor
  · intro h
    cases h with
    | throws hb hrun => exact hb ▸ hrun.regCode_none _
    | leaves hb hrun hleaves => exact hb ▸ hrun.regCode (.leaves hleaves)
  · -- the instructions in front have been run
    suffices hgen : ∀ init s₀, RegRun meaning hidden init s₀ (some s) → ∀ l,
        fn.instrs b = init ++ l → RegCode meaning jump hidden l s out →
          fn.RegBlock meaning jump hidden (b, s₀) out from hgen [] s (.nil s) _ rfl
    intro init s₀ hrun l hb h
    induction h generalizing init with
    | @throws mi l _ hstep =>
      exact .throws (hb.trans (List.append_cons init mi l)) (hrun.snoc hstep)
    | @step mi l _ _ _ hstep _ ih =>
      exact ih _ (hrun.snoc hstep) (hb.trans (List.append_cons init mi l))
    | leaves hleaves => exact .leaves hb hrun hleaves

/-! ## Refinement -/

theorem liftRel_sameBlock_trans {o o' o'' : (Block × RegState Block Data State) ⊕
    Outcome Block Data State} (h : Sum.LiftRel (SameBlock F) Eq o o')
    (h' : Sum.LiftRel (SameBlock G) Eq o' o'') (hsub : G ⊆ F) :
    Sum.LiftRel (SameBlock F) Eq o o'' := by
  cases h with
  | inl h =>
    cases h' with
    | inl h' => exact .inl (h.trans ⟨h'.1, h'.2.mono hsub⟩)
  | inr h =>
    cases h' with
    | inr h' => exact .inr (h.trans h')

/-- Code that reads none of the registers. -/
theorem codeRefines_refl (hreads : ∀ mi ∈ l, ∀ v ∈ mi.asked, v ∉ F) :
    CodeRefines meaning jump hidden F l l := by
  intro s s' out' hagree h
  induction h generalizing s with
  | throws hstep =>
    obtain ⟨o, ho, hrel⟩ := hstep.agreeOff hagree.symm (hreads _ List.mem_cons_self)
    cases hrel
    exact ⟨_, .throws ho, .inr rfl⟩
  | step hstep _ ih =>
    obtain ⟨o, ho, hrel⟩ := hstep.agreeOff hagree.symm (hreads _ List.mem_cons_self)
    cases hrel with
    | some hnext =>
      obtain ⟨out, hout, hrel⟩ :=
        ih (fun mi hmi => hreads mi (List.mem_cons_of_mem _ hmi)) _ hnext.symm
      exact ⟨out, .step ho hout, hrel⟩
  | leaves hleaves =>
    obtain ⟨o, ho, hrel⟩ := hleaves.agreeOff hagree.symm (hreads _ List.mem_cons_self)
    refine ⟨o, .leaves ho, ?_⟩
    cases hrel with
    | inl h => exact .inl ⟨h.1.symm, h.2.symm⟩
    | inr h => exact .inr h.symm

theorem CodeRefines.trans (h : CodeRefines meaning jump hidden F l l')
    (h' : CodeRefines meaning jump hidden G l' l'') (hsub : G ⊆ F) :
    CodeRefines meaning jump hidden F l l'' := by
  intro s s' out'' hagree hcode
  obtain ⟨out', hout', hrel'⟩ := h' s' s' out'' (.refl G s') hcode
  obtain ⟨out, hout, hrel⟩ := h s s' out' hagree hout'
  exact ⟨out, hout, liftRel_sameBlock_trans hrel hrel' hsub⟩

/-- Code that does, in the very same states, what other code may do. -/
theorem CodeRefines.of_imp (h : CodeRefines meaning jump hidden F l l')
    (himp : ∀ s out, RegCode meaning jump hidden l'' s out → RegCode meaning jump hidden l' s out) :
    CodeRefines meaning jump hidden F l l'' :=
  fun s s' out' hagree hcode => h s s' out' hagree (himp s' out' hcode)

theorem regCode_append_left {init : List RegInstr}
    (himp : ∀ s out, RegCode meaning jump hidden l s out → RegCode meaning jump hidden l' s out)
    (h : RegCode meaning jump hidden (init ++ l) s out) :
    RegCode meaning jump hidden (init ++ l') s out := by
  induction init generalizing s with
  | nil => exact himp s out h
  | cons mi init ih =>
    cases h with
    | throws hstep => exact .throws hstep
    | step hstep hrest => exact .step hstep (ih hrest)
    | leaves hleaves => exact .leaves hleaves

/-! ## Constants -/

variable (meaning hidden) in
/-- The instruction gives the register this constant, or leaves it undefined. -/
def LoadsConst (mi : RegInstr) (r : StackVreg) (x : Option (Value Block Data)) : Prop :=
  mi.defRegs = [r] ∧ ∀ s o, RegStep meaning hidden mi s o ↔
    o = some ⟨Function.update s.regs r x, s.state⟩

variable {d mi : RegInstr} {r : StackVreg} {x : Option (Value Block Data)}

theorem LoadsConst.regCode_iff (hd : LoadsConst meaning hidden d r x) :
    RegCode meaning jump hidden (d :: l) s out ↔
      RegCode meaning jump hidden l ⟨Function.update s.regs r x, s.state⟩ out := by
  have hterm : d.opcode.isTerminator = false := ((hd.2 s _).mpr rfl).isTerminator
  constructor
  · intro h
    cases h with
    | throws hstep => cases (hd.2 _ _).mp hstep
    | step hstep hrest =>
      cases (hd.2 _ _).mp hstep
      exact hrest
    | leaves hleaves =>
      rw [hleaves.isTerminator] at hterm
      cases hterm
  · exact fun h => .step ((hd.2 _ _).mpr rfl) h

/-- A constant may be loaded behind an instruction that does not ask for its register. -/
theorem regCode_swap (hd : LoadsConst meaning hidden d r x) (hterm : mi.opcode.isTerminator = false)
    (hread : r ∉ mi.asked) (hdef : r ∉ mi.defRegs)
    (h : RegCode meaning jump hidden (mi :: d :: l) s out) :
    RegCode meaning jump hidden (d :: mi :: l) s out := by
  rw [hd.regCode_iff]
  have hreads : ∀ v ∈ mi.asked, v ∉ ({r} : Set StackVreg) := by
    rintro v hv rfl
    exact hread hv
  cases h with
  | throws hstep =>
    obtain ⟨o, ho, hrel⟩ := hstep.agreeOff (agreeOff_update s r x) hreads
    cases hrel
    exact .throws ho
  | @step _ _ _ s₁ _ hstep hrest =>
    rw [hd.regCode_iff] at hrest
    obtain ⟨o, ho, hrel⟩ := hstep.agreeOff (agreeOff_update s r x) hreads
    cases hrel with
    | @some _ s₂ hagree =>
      -- the register has the constant in either order
      have hsame : Function.update s₁.regs r x = s₂.regs := by
        funext v
        by_cases hv : v = r
        · rw [hv, Function.update_self, ho.regs_of_notMem hdef]
          exact (Function.update_self r x s.regs).symm
        · rw [Function.update_of_ne hv]
          exact hagree.2 hv
      refine .step ho ?_
      rw [hsame, hagree.1] at hrest
      exact hrest
  | leaves hleaves =>
    rw [hleaves.isTerminator] at hterm
    cases hterm

/-- **A constant may be loaded later**, behind instructions that do not ask for its register. -/
theorem regCode_moveDown (hd : LoadsConst meaning hidden d r x) {init mid rest : List RegInstr}
    (hmid : ∀ mi ∈ mid, mi.opcode.isTerminator = false ∧ r ∉ mi.asked ∧ r ∉ mi.defRegs)
    (h : RegCode meaning jump hidden (init ++ (mid ++ d :: rest)) s out) :
    RegCode meaning jump hidden (init ++ d :: (mid ++ rest)) s out := by
  refine regCode_append_left (fun s out h => ?_) h
  clear * - hd hmid h
  induction mid generalizing s with
  | nil => exact h
  | cons mi mid ih =>
    obtain ⟨hterm, hread, hdef⟩ := hmid mi List.mem_cons_self
    refine regCode_swap hd hterm hread hdef ?_
    have hrest {s : RegState Block Data State} :
        RegCode meaning jump hidden (mid ++ d :: rest) s out →
          RegCode meaning jump hidden (d :: (mid ++ rest)) s out :=
      ih (fun mi hmi => hmid mi (List.mem_cons_of_mem _ hmi)) s
    cases h with
    | throws hstep => exact .throws hstep
    | step hstep h => exact .step hstep (hrest h)
    | leaves hleaves => exact .leaves hleaves

/-- **A constant may be loaded** into a register that nothing reads. -/
theorem codeRefines_insert (hd : LoadsConst meaning hidden d r x) {init rest : List RegInstr}
    (hreads : ∀ mi ∈ init ++ rest, r ∉ mi.asked) :
    CodeRefines meaning jump hidden {r} (init ++ rest) (init ++ d :: rest) := by
  intro s s' out' hagree h
  have hreads' (mi : RegInstr) (hmi : mi ∈ init ++ rest) :
      ∀ v ∈ mi.asked, v ∉ ({r} : Set StackVreg) := by
    rintro v hv rfl
    exact hreads mi hmi hv
  induction init generalizing s s' with
  | nil =>
    rw [List.nil_append, hd.regCode_iff] at h
    have hrest : CodeRefines meaning jump hidden {r} rest rest := codeRefines_refl hreads'
    exact hrest s _ out' (hagree.trans (agreeOff_update s' r x)) h
  | cons mi init ih =>
    have hmi := hreads' mi List.mem_cons_self
    cases h with
    | throws hstep =>
      obtain ⟨o, ho, hrel⟩ := hstep.agreeOff hagree.symm hmi
      cases hrel
      exact ⟨_, .throws ho, .inr rfl⟩
    | step hstep h =>
      obtain ⟨o, ho, hrel⟩ := hstep.agreeOff hagree.symm hmi
      cases hrel with
      | some hnext =>
        obtain ⟨out, hout, hrel⟩ := ih (fun mi h => hreads mi (List.mem_cons_of_mem _ h)) _ _
          hnext.symm h fun mi h => hreads' mi (List.mem_cons_of_mem _ h)
        exact ⟨out, .step ho hout, hrel⟩
    | leaves hleaves =>
      obtain ⟨o, ho, hrel⟩ := hleaves.agreeOff hagree.symm hmi
      refine ⟨o, .leaves ho, ?_⟩
      cases hrel with
      | inl h => exact .inl ⟨h.1.symm, h.2.symm⟩
      | inr h => exact .inr h.symm

/-- **The function refines the function before** where its blocks do. -/
theorem refines_of_codeRefines {fn fn' : RegFunction Block}
    (h : ∀ b, CodeRefines meaning jump hidden F (fn.instrs b) (fn'.instrs b))
    (c : Block × RegState Block Data State) :
    Refines (fn.RegBlock meaning jump hidden) (fn'.RegBlock meaning jump hidden) c c := by
  have hmatch : Matches (fn.RegBlock meaning jump hidden) (fn'.RegBlock meaning jump hidden)
      (SameBlock F) c := by
    rintro ⟨b, s⟩ ⟨_, s'⟩ - ⟨rfl, hagree⟩ out' hout'
    obtain ⟨out, hout, hrel⟩ := h b s s' out' hagree (regBlock_iff.mp hout')
    exact ⟨out, regBlock_iff.mpr hout, hrel⟩
  exact hmatch.refines ⟨rfl, .refl F c.2⟩

end Code

end TVMCompiler
