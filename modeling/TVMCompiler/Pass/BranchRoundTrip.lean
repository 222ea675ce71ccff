import TVMCompiler.Pass.BranchInterface

/-!
# Removing and inserting branches

A branch that `analyzeBranch` understands is removed and inserted again. The block leads to the
same places afterwards if the branch was its only terminator. A jump behind conditional jumps
is put together with the first of them, which then comes after the others.

## Main definitions

* `Accepted`: the branches that `analyzeBranch` understands
* `Removed`: the block after its branch has been removed

## Main results

* `Removed.jump_iff`, `Removed.jumpIf_iff`, `Removed.ifelse_iff`: when each branch can go back
* `roundTrips_iff`: the blocks whose branch survives removal and insertion
-/

namespace TVMCompiler

variable {Block : Type}

namespace MachineFunction

/-! ## The round trip -/

section RoundTrip

variable {f : MachineFunction Block} {b : Block}

theorem transfer_eq_control_terminators (f : MachineFunction Block) (b : Block)
    (ρ : Register → ℤ) : f.transfer b ρ = control f.continuation ρ (terminators (f.instrs b)) :=
  (control_terminators _).symm

/-- Erasing an instruction that defines no register. -/
theorem defsOf_erase {r : Register} {mi : MachineInstr Block} (h : mi.countDefs r = 0)
    (l l' : List (MachineInstr Block)) : defsOf r (l ++ l') = defsOf r (l ++ mi :: l') := by
  rw [defsOf_append, defsOf_append]
  congr 1
  rw [defsOf, defsOf, List.filter_cons_of_neg (by simp [h])]

theorem jump_eq_block {κ : Register → Option Block} {r : Register} {x : Block}
    (h : κ r = some x) : jump κ r = .block x := by
  rw [jump, h]

/-- The block after its branch has been removed. -/
structure Removed (f g : MachineFunction Block) (b : Block)
    (before : List (MachineInstr Block)) : Prop where
  mem : b ∈ g.layout
  last : TerminatorsLast (g.instrs b)
  fresh : g.Fresh
  same : g.continuation = f.continuation
  sub : ∀ mi ∈ g.instrs b, mi ∈ f.instrs b
  before_eq : terminators (g.instrs b) = before

theorem WellFormedAt.countDefs (hf : f.WellFormedAt b) {mi : MachineInstr Block}
    (hmi : mi ∈ f.instrs b) (hbranch : mi.opcode.isBranch) (r : Register) :
    mi.countDefs r = 0 := by
  refine countDefs_eq_zero fun op hop => Or.inl ?_
  obtain ⟨r', heq, hdef⟩ := hf.operands mi hmi hbranch _ hop
  cases heq
  exact hdef

theorem Removed.transfer {g : MachineFunction Block} {ts : List (MachineInstr Block)}
    (hg : Removed f g b ts) (ρ : Register → ℤ) :
    g.transfer b ρ = control f.continuation ρ ts := by
  rw [transfer_eq_control_terminators, hg.same, hg.before_eq]

theorem Removed.getFirstTerminator {g : MachineFunction Block} {ts : List (MachineInstr Block)}
    (hg : Removed f g b ts) : g.getFirstTerminator b = ts.head? := by
  rw [MachineFunction.getFirstTerminator, getElem?_firstInstrTerminator hg.last, hg.before_eq]

theorem useOf_isDef {r : Register} {op : RegisterOperand}
    (h : (.register op : MachineOperand Block) = useOf r) : op.isDef = false := by
  cases h
  rfl

theorem exit_IFELSE (κ : Register → Option Block) (ρ : Register → ℤ) (id : ℕ)
    (c : RegisterOperand) (t e : Register) :
    exit κ ρ ⟨id, .IFELSE, [.register c, useOf t, useOf e]⟩ =
      if ρ c.reg ≠ 0 then jump κ t else jump κ e := rfl

theorem reinsertable_iff {ts : List (MachineInstr Block)} {mi : MachineInstr Block}
    (hterm : terminators (f.instrs b) = ts ++ [mi]) :
    f.Reinsertable b ↔ ts = [] ∨ mi.opcode = .JMPX ∧ ∃ first between jumpsWhen c t,
      ts = first :: between ∧ JumpsIf first jumpsWhen c t ∧
      ∀ ρ : Register → ℤ, decide (ρ c ≠ 0) = jumpsWhen →
        control f.continuation ρ between = .fallThrough ∨
          control f.continuation ρ between = jump f.continuation t := by
  constructor
  · rintro ⟨before, mi', hsplit, hrest⟩
    obtain ⟨rfl, hmi⟩ := List.append_inj' (hterm.symm.trans hsplit) rfl
    obtain rfl := (List.cons.inj hmi).1
    exact hrest
  · intro hrest
    exact ⟨ts, mi, hterm, hrest⟩

variable [DecidableEq Block]

/-- The branches that `analyzeBranch` understands. -/
inductive Accepted (f : MachineFunction Block) (b : Block) :
    MachineInstr Block → Branch Block → Prop
  | jmpx {id : ℕ} {t : RegisterOperand} {rest : List (MachineOperand Block)} {x : Block} :
    f.continuation t.reg = some x →
    Accepted f b ⟨id, .JMPX, .register t :: rest⟩ ⟨some x, none, []⟩
  | ifelse {id : ℕ} {c : MachineOperand Block} {t e : RegisterOperand}
    {rest : List (MachineOperand Block)} {x y : Block} :
    f.continuation t.reg = some x → f.continuation e.reg = some y →
    Accepted f b ⟨id, .IFELSE, c :: .register t :: .register e :: rest⟩
      (if y = b then ⟨some y, some x, [.imm 1, c]⟩ else ⟨some x, some y, [.imm 0, c]⟩)
  | ifjmp {id : ℕ} {c : MachineOperand Block} {t : RegisterOperand}
    {rest : List (MachineOperand Block)} {x : Block} : f.continuation t.reg = some x →
    Accepted f b ⟨id, .IFJMP, c :: .register t :: rest⟩ ⟨some x, none, [.imm 0, c]⟩
  | ifnotjmp {id : ℕ} {c : MachineOperand Block} {t : RegisterOperand}
    {rest : List (MachineOperand Block)} {x : Block} : f.continuation t.reg = some x →
    Accepted f b ⟨id, .IFNOTJMP, c :: .register t :: rest⟩ ⟨some x, none, [.imm 1, c]⟩

theorem Accepted.isBranch {mi : MachineInstr Block} {br : Branch Block} (h : Accepted f b mi br) :
    mi.opcode.isBranch := by
  cases h <;> rfl

/-- A block that `analyzeBranch` accepts has no terminators, or ends in a branch. -/
theorem analyzeBranch_cases {br : Branch Block} (hlast : TerminatorsLast (f.instrs b))
    (h : f.analyzeBranch b = some br) :
    br.tbb = none ∧ terminators (f.instrs b) = [] ∨
      ∃ pre mi debug, f.instrs b = pre ++ mi :: debug ∧ (∀ d ∈ debug, d.opcode.isDebugInstr) ∧
        removeLastBranch (f.instrs b) = pre ++ debug ∧ Accepted f b mi br := by
  unfold analyzeBranch at h
  cases hdrop : (f.instrs b).reverse.dropWhile fun mi => mi.opcode.isDebugInstr with
  | nil =>
    rw [hdrop] at h
    obtain rfl := Option.some.inj h
    refine Or.inl ⟨rfl, terminators_of_debug fun mi hmi => ?_⟩
    exact List.dropWhile_eq_nil_iff.mp hdrop mi (List.mem_reverse.mpr hmi)
  | cons mi before =>
    rw [hdrop] at h
    obtain ⟨debug, hsplit, hdebug, hdebugEq⟩ := eq_append_of_dropWhile hdrop
    dsimp only at h
    cases hterm : mi.opcode.isTerminator with
    | false =>
      -- no terminator can come before an instruction that is none
      rw [hterm] at h
      obtain rfl := Option.some.inj h
      refine Or.inl ⟨rfl, ?_⟩
      have hmi : mi.opcode.isDebugInstr = false := by
        have hhead := List.head?_dropWhile_not
          (fun mi : MachineInstr Block => mi.opcode.isDebugInstr) (f.instrs b).reverse
        rw [hdrop] at hhead
        simpa using hhead
      rw [hsplit, terminators_append]
      have hrest : terminators (mi :: debug) = [] := by
        rw [terminators, List.filter_cons_of_neg (by simp [hterm])]
        exact terminators_of_debug hdebug
      rw [hrest, List.append_nil]
      refine List.filter_eq_nil_iff.mpr fun x hx hxt => ?_
      have hpair := hlast
      rw [hsplit] at hpair
      rcases (List.pairwise_append.mp hpair).2.2 x hx mi List.mem_cons_self hxt with ht | hd
      · rw [hterm] at ht
        cases ht
      · rw [hmi] at hd
        cases hd
    | true =>
      rw [hterm] at h
      have haccepted : Accepted f b mi br := by
        obtain ⟨id, opcode, operands⟩ := mi
        simp only [Bool.not_true, Bool.false_eq_true, if_false] at h
        split at h
        · obtain ⟨x, hx, hbr⟩ := Option.bind_eq_some_iff.mp h
          obtain rfl := Option.some.inj hbr
          exact .jmpx hx
        · obtain ⟨x, hx, hrest⟩ := Option.bind_eq_some_iff.mp h
          obtain ⟨y, hy, hbr⟩ := Option.bind_eq_some_iff.mp hrest
          obtain rfl := Option.some.inj hbr
          exact .ifelse hx hy
        · obtain ⟨x, hx, hbr⟩ := Option.bind_eq_some_iff.mp h
          obtain rfl := Option.some.inj hbr
          exact .ifjmp hx
        · obtain ⟨x, hx, hbr⟩ := Option.bind_eq_some_iff.mp h
          obtain rfl := Option.some.inj hbr
          exact .ifnotjmp hx
        · cases h
      refine Or.inr ⟨before.reverse, mi, debug, hsplit, hdebug, ?_, haccepted⟩
      unfold removeLastBranch
      rw [hdrop]
      dsimp only
      rw [if_pos haccepted.isBranch, hdebugEq]

/-- An instruction built at the end of the block comes after the terminators before it. -/
theorem transfer_buildMI {opcode : Opcode} {operands : List (MachineOperand Block)}
    (h : ∀ op : RegisterOperand, .register op ∈ operands → op.isDef = false) (ρ : Register → ℤ) :
    (f.buildMI b opcode operands).transfer b ρ =
      (f.transfer b ρ).orElse (exit f.continuation ρ ⟨f.nextId, opcode, operands⟩) := by
  have hκ : (f.buildMI b opcode operands).continuation = f.continuation :=
    funext (continuation_buildMI h)
  rw [transfer, hκ, buildMI_instrs_self, control_append]
  simp [transfer]

/-- A new `PUSHCONT_MBB` transfers no control. -/
theorem transfer_buildPushcont (hf : f.Fresh) (hb : b ∈ f.layout) (t : Block)
    (ρ : Register → ℤ) : (f.buildPushcont b t).transfer b ρ = f.transfer b ρ := by
  rw [transfer, buildPushcont_instrs_self, control_append, control_cons, control_nil,
    exit_of_not_isTerminator rfl, orElse_fallThrough, orElse_fallThrough, transfer]
  refine control_congr fun mi hmi op hop => ?_
  rw [continuation_buildPushcont hf hb, if_neg (Nat.ne_of_lt (hf b mi hmi op hop))]

/-- Erasing a branch of the block. -/
theorem WellFormedAt.setInstrs_removed (hf : f.WellFormedAt b) {g : MachineFunction Block}
    {pre post : List (MachineInstr Block)} {mi : MachineInstr Block}
    {ts : List (MachineInstr Block)} (hg : Removed f g b ts)
    (hsplit : g.instrs b = pre ++ mi :: post) (hbranch : mi.opcode.isBranch) :
    Removed f (g.setInstrs b (pre ++ post)) b (terminators pre ++ terminators post) := by
  have hsub : (pre ++ post).Sublist (g.instrs b) := by
    rw [hsplit]
    exact (List.Sublist.refl pre).append (List.sublist_cons_self mi post)
  have hmi : mi ∈ f.instrs b := hg.sub mi (by simp [hsplit])
  refine ⟨hg.mem, ?_, hg.fresh.setInstrs fun x hx => hsub.subset hx, ?_, ?_, ?_⟩
  · rw [setInstrs_instrs_self]
    exact hg.last.sublist hsub
  · rw [← hg.same]
    funext r
    refine continuation_setInstrs ?_
    rw [hsplit]
    exact defsOf_erase (hf.countDefs hmi hbranch r) _ _
  · intro x hx
    rw [setInstrs_instrs_self] at hx
    exact hg.sub x (hsub.subset hx)
  · rw [setInstrs_instrs_self, terminators_append]

/-- The `IFELSE` that takes the place of a conditional jump and a jump to `x`. -/
theorem Removed.insert_behind_jump (hf : f.WellFormedAt b) {g : MachineFunction Block}
    {first : MachineInstr Block} {between : List (MachineInstr Block)}
    (hg : Removed f g b (first :: between)) (x : Block) :
    (∃ jumpsWhen c t, JumpsIf first jumpsWhen c t ∧
      ∃ h, g.insertBranch b (some x) none [] = some h ∧ ∀ ρ, h.transfer b ρ =
        (control f.continuation ρ between).orElse
          (if decide (ρ c ≠ 0) = jumpsWhen then jump f.continuation t else .block x)) ∨
    g.insertBranch b (some x) none [] = none ∧ ∀ jumpsWhen c t, ¬ JumpsIf first jumpsWhen c t := by
  have hfirst := hg.getFirstTerminator
  rw [List.head?_cons] at hfirst
  by_cases hbranch : first.opcode.isBranch
  case neg =>
    refine Or.inr ⟨?_, ?_⟩
    · rw [insertBranch, hfirst]
      split
      · rename_i heq
        cases heq
      · rename_i heq
        cases heq
        exact absurd rfl hbranch
      · rename_i heq
        cases heq
        exact absurd rfl hbranch
      · rfl
    · rintro jumpsWhen c t ⟨hop, -⟩
      rw [hop] at hbranch
      cases jumpsWhen <;> exact hbranch rfl
  have hget := hfirst
  rw [MachineFunction.getFirstTerminator] at hget
  obtain ⟨hlt, hidx⟩ := List.getElem?_eq_some_iff.mp hget
  set k := firstInstrTerminator (g.instrs b) with hk
  -- the function without the conditional jump
  have hsplit : g.instrs b = (g.instrs b).take k ++ first :: (g.instrs b).drop (k + 1) := by
    rw [← hidx, List.getElem_cons_drop, List.take_append_drop]
  have hmem : first ∈ f.instrs b := hg.sub first (by
    rw [hsplit]
    simp)
  have herased : Removed f (g.setInstrs b ((g.instrs b).eraseIdx k)) b between := by
    have h := hf.setInstrs_removed hg hsplit hbranch
    have hbetween : terminators ((g.instrs b).take k) ++ terminators ((g.instrs b).drop (k + 1)) =
        between := by
      rw [← terminators_append, ← List.eraseIdx_eq_take_drop_succ, hk,
        terminators_eraseIdx hg.last, hg.before_eq, List.tail_cons]
    rw [← List.eraseIdx_eq_take_drop_succ, hbetween] at h
    exact h
  set erased := g.setInstrs b ((g.instrs b).eraseIdx k) with herasedEq
  -- what is built on it
  have hbuild (c t' e' : Register) (cop : RegisterOperand) (hc : cop.isDef = false)
      (hcr : cop.reg = c) (ρ : Register → ℤ) :
      ((erased.buildPushcont b x).buildMI b .IFELSE
        [.register cop, useOf t', useOf e']).transfer b ρ =
        (control f.continuation ρ between).orElse (if ρ c ≠ 0
          then jump (erased.buildPushcont b x).continuation t'
          else jump (erased.buildPushcont b x).continuation e') := by
    rw [transfer_buildMI, transfer_buildPushcont herased.fresh herased.mem, herased.transfer,
      exit_IFELSE, hcr]
    intro op hop
    simp only [List.mem_cons, List.not_mem_nil, or_false] at hop
    rcases hop with heq | heq | heq
    · cases heq
      exact hc
    · exact useOf_isDef heq
    · exact useOf_isDef heq
  have hnew : jump (erased.buildPushcont b x).continuation erased.freshRegister = .block x := by
    refine jump_eq_block ?_
    rw [continuation_buildPushcont herased.fresh herased.mem, if_pos rfl]
  have hold {t : RegisterOperand} (ht : .register t ∈ first.operands) :
      jump (erased.buildPushcont b x).continuation t.reg = jump f.continuation t.reg := by
    refine jump_congr ?_
    have hlt : t.reg < erased.freshRegister := hg.fresh b first (by
      rw [hsplit]
      simp) t ht
    rw [continuation_buildPushcont herased.fresh herased.mem, if_neg (Nat.ne_of_lt hlt),
      herased.same]
  have hoperand := hf.operands first hmem hbranch
  obtain ⟨id, opcode, operands⟩ := first
  have hinsert (jumpsWhen : Bool) (c t : RegisterOperand) (rest : List (MachineOperand Block))
      (hop : opcode = if jumpsWhen then .IFJMP else .IFNOTJMP)
      (hoperands : operands = .register c :: .register t :: rest) :
      ∃ h, g.insertBranch b (some x) none [] = some h ∧ ∀ ρ, h.transfer b ρ =
        (control f.continuation ρ between).orElse
          (if decide (ρ c.reg ≠ 0) = jumpsWhen then jump f.continuation t.reg else .block x) := by
    subst hop hoperands
    obtain ⟨c', heq, hcdef⟩ := hoperand (.register c) List.mem_cons_self
    cases heq
    have ht := hold (t := t) (by simp)
    cases jumpsWhen with
    | true =>
      refine ⟨_, by rw [insertBranch, hfirst]; rfl, fun ρ => ?_⟩
      rw [← hk, ← herasedEq, hbuild c.reg t.reg erased.freshRegister c hcdef rfl, hnew, ht]
      simp
    | false =>
      refine ⟨_, by rw [insertBranch, hfirst]; rfl, fun ρ => ?_⟩
      rw [← hk, ← herasedEq, hbuild c.reg erased.freshRegister t.reg c hcdef rfl, hnew, ht]
      by_cases hρ : ρ c.reg = 0 <;> simp [hρ]
  -- a conditional jump has a condition and a target, both in registers
  have hshape (hop : opcode = .IFJMP ∨ opcode = .IFNOTJMP) (c t : MachineOperand Block)
      (rest : List (MachineOperand Block)) (hoperands : operands = c :: t :: rest) :
      ∃ c' t' : RegisterOperand, c = .register c' ∧ t = .register t' := by
    subst hoperands
    obtain ⟨c', hc, -⟩ := hoperand c List.mem_cons_self
    obtain ⟨t', ht, -⟩ := hoperand t (by simp)
    exact ⟨c', t', hc, ht⟩
  by_cases hjump : ∃ jumpsWhen c t, JumpsIf (⟨id, opcode, operands⟩ : MachineInstr Block) jumpsWhen c t
  · obtain ⟨jumpsWhen, c, t, hop, c', t', rest, hoperands, rfl, rfl⟩ := hjump
    exact Or.inl ⟨jumpsWhen, c'.reg, t'.reg, ⟨hop, c', t', rest, hoperands, rfl, rfl⟩,
      hinsert jumpsWhen c' t' rest hop hoperands⟩
  · right
    refine ⟨?_, fun jumpsWhen c t h => hjump ⟨jumpsWhen, c, t, h⟩⟩
    rw [insertBranch, hfirst]
    split
    · rename_i heq
      cases heq
    · rename_i c t rest heq
      cases heq
      obtain ⟨c', t', rfl, -⟩ := hshape (Or.inl rfl) c (.register t) rest rfl
      exact absurd ⟨true, c'.reg, t.reg, rfl, c', t, rest, rfl, rfl, rfl⟩ hjump
    · rename_i c t rest heq
      cases heq
      obtain ⟨c', t', rfl, -⟩ := hshape (Or.inr rfl) c (.register t) rest rfl
      exact absurd ⟨false, c'.reg, t.reg, rfl, c', t, rest, rfl, rfl, rfl⟩ hjump
    · rfl

/-- A jump goes back where it was, or completes the conditional jump in front of it. -/
theorem Removed.jump_iff (hf : f.WellFormedAt b) {g : MachineFunction Block}
    {ts : List (MachineInstr Block)} (hg : Removed f g b ts) (x : Block)
    (htransfer : ∀ ρ, f.transfer b ρ = (control f.continuation ρ ts).orElse (.block x)) :
    (∃ h, g.insertBranch b (some x) none [] = some h ∧ ∀ ρ, h.transfer b ρ = f.transfer b ρ) ↔
      ts = [] ∨ ∃ first between jumpsWhen c t, ts = first :: between ∧
        JumpsIf first jumpsWhen c t ∧ ∀ ρ : Register → ℤ, decide (ρ c ≠ 0) = jumpsWhen →
          control f.continuation ρ between = .fallThrough ∨
            control f.continuation ρ between = jump f.continuation t := by
  cases ts with
  | nil =>
    refine iff_of_true ?_ (Or.inl rfl)
    have hfirst := hg.getFirstTerminator
    rw [List.head?_nil] at hfirst
    refine ⟨_, by rw [insertBranch, hfirst], fun ρ => ?_⟩
    have hnew : jump (g.buildPushcont b x).continuation g.freshRegister = .block x := by
      refine jump_eq_block ?_
      rw [continuation_buildPushcont hg.fresh hg.mem, if_pos rfl]
    rw [htransfer, transfer_buildMI fun op hop => useOf_isDef (List.mem_singleton.mp hop),
      transfer_buildPushcont hg.fresh hg.mem, hg.transfer]
    exact congrArg (Transfer.orElse _) hnew
  | cons first between =>
    rcases hg.insert_behind_jump hf x with ⟨jumpsWhen, c, t, hjumps, h, hinsert, hh⟩ |
      ⟨hnone, hnot⟩
    · have hexit (ρ : Register → ℤ) := exit_jumpsIf (κ := f.continuation) (ρ := ρ) hjumps
      constructor
      · rintro ⟨h', hinsert', hsame⟩
        obtain rfl : h = h' := Option.some.inj (hinsert.symm.trans hinsert')
        refine Or.inr ⟨first, between, jumpsWhen, c, t, rfl, hjumps, fun ρ hρ => ?_⟩
        have hboth := hsame ρ
        rw [hh, htransfer, control_cons, hexit, if_pos hρ, if_pos hρ, jump_orElse,
          jump_orElse] at hboth
        cases hbetween : control f.continuation ρ between with
        | fallThrough => exact Or.inl rfl
        | _ =>
          rw [hbetween] at hboth
          exact Or.inr hboth
      · rintro (hnil | ⟨_, _, jumpsWhen', c', t', hsplit, hjumps', hbetween⟩)
        · cases hnil
        · obtain ⟨rfl, rfl⟩ := List.cons.inj hsplit
          refine ⟨h, hinsert, fun ρ => ?_⟩
          have hexit' := exit_jumpsIf (κ := f.continuation) (ρ := ρ) hjumps'
          rw [hh, htransfer, control_cons]
          by_cases hρ : decide (ρ c ≠ 0) = jumpsWhen
          · rw [if_pos hρ, hexit, if_pos hρ, jump_orElse, jump_orElse]
            -- the two readings of the conditional jump agree
            rw [hexit, if_pos hρ] at hexit'
            by_cases hρ' : decide (ρ c' ≠ 0) = jumpsWhen'
            · rw [if_pos hρ'] at hexit'
              rcases hbetween ρ hρ' with hfall | hjump
              · rw [hfall]
                rfl
              · rw [hjump, ← hexit', jump_orElse]
            · rw [if_neg hρ'] at hexit'
              exact absurd hexit' (jump_ne_fallThrough _ _)
          · rw [if_neg hρ, hexit, if_neg hρ]
            rfl
    · refine iff_of_false ?_ ?_
      · rintro ⟨h, hinsert, -⟩
        rw [hnone] at hinsert
        cases hinsert
      · rintro (hnil | ⟨_, _, jumpsWhen, c, t, hsplit, hjumps, -⟩)
        · cases hnil
        · obtain ⟨rfl, rfl⟩ := List.cons.inj hsplit
          exact hnot jumpsWhen c t hjumps

/-- A conditional jump goes back only where no other terminator is left. -/
theorem Removed.jumpIf_iff {g : MachineFunction Block} {ts : List (MachineInstr Block)}
    (hg : Removed f g b ts) (x : Block) (inverted : ℤ) {c : RegisterOperand}
    (hc : c.isDef = false)
    (htransfer : ∀ ρ, f.transfer b ρ = (control f.continuation ρ ts).orElse
      (if decide (ρ c.reg ≠ 0) = decide (inverted = 0) then .block x else .fallThrough)) :
    (∃ h, g.insertBranch b (some x) none [.imm inverted, .register c] = some h ∧
      ∀ ρ, h.transfer b ρ = f.transfer b ρ) ↔ ts = [] := by
  have hfirst := hg.getFirstTerminator
  cases ts with
  | nil =>
    refine iff_of_true ?_ rfl
    rw [List.head?_nil] at hfirst
    have hnew : jump (g.buildPushcont b x).continuation g.freshRegister = .block x := by
      refine jump_eq_block ?_
      rw [continuation_buildPushcont hg.fresh hg.mem, if_pos rfl]
    refine ⟨_, by rw [insertBranch, hfirst]; rfl, fun ρ => ?_⟩
    rw [htransfer, transfer_buildMI, transfer_buildPushcont hg.fresh hg.mem, hg.transfer]
    · congr 1
      by_cases hinv : inverted = 0 <;> by_cases hρ : ρ c.reg = 0 <;>
        simp [hinv, hρ, exit, useOf, hnew]
    · intro op hop
      rcases List.mem_pair.mp hop with heq | heq
      · cases heq
        exact hc
      · exact useOf_isDef heq
  | cons first between =>
    refine iff_of_false ?_ (List.cons_ne_nil _ _)
    rintro ⟨h, hinsert, -⟩
    rw [insertBranch, hfirst] at hinsert
    cases hinsert

/-- So does an `IFELSE`. -/
theorem Removed.ifelse_iff {g : MachineFunction Block} {ts : List (MachineInstr Block)}
    (hg : Removed f g b ts) (x y : Block) (inverted : ℤ) {c : RegisterOperand}
    (hc : c.isDef = false)
    (htransfer : ∀ ρ, f.transfer b ρ = (control f.continuation ρ ts).orElse
      (if decide (ρ c.reg ≠ 0) = decide (inverted = 0) then .block x else .block y)) :
    (∃ h, g.insertBranch b (some x) (some y) [.imm inverted, .register c] = some h ∧
      ∀ ρ, h.transfer b ρ = f.transfer b ρ) ↔ ts = [] := by
  have hfirst := hg.getFirstTerminator
  cases ts with
  | nil =>
    refine iff_of_true ?_ rfl
    rw [List.head?_nil] at hfirst
    set pushed := (g.buildPushcont b x).buildPushcont b y with hpushed
    have hfresh := hg.fresh.buildPushcont b x
    have hmem : b ∈ (g.buildPushcont b x).layout := hg.mem
    have hx : jump pushed.continuation g.freshRegister = .block x := by
      refine jump_eq_block ?_
      rw [hpushed, continuation_buildPushcont hfresh hmem, freshRegister_buildPushcont,
        if_neg (Nat.ne_of_lt (Nat.lt_succ_self _)), continuation_buildPushcont hg.fresh hg.mem,
        if_pos rfl]
    have hy : jump pushed.continuation (g.buildPushcont b x).freshRegister = .block y := by
      refine jump_eq_block ?_
      rw [hpushed, continuation_buildPushcont hfresh hmem, if_pos rfl]
    have hbuild (t e : Register) (ρ : Register → ℤ) :
        (pushed.buildMI b .IFELSE [.register c, useOf t, useOf e]).transfer b ρ =
          if ρ c.reg ≠ 0 then jump pushed.continuation t else jump pushed.continuation e := by
      rw [transfer_buildMI, hpushed, transfer_buildPushcont hfresh hmem,
        transfer_buildPushcont hg.fresh hg.mem, hg.transfer, exit_IFELSE]
      · rfl
      · intro op hop
        simp only [List.mem_cons, List.not_mem_nil, or_false] at hop
        rcases hop with heq | heq | heq
        · cases heq
          exact hc
        · exact useOf_isDef heq
        · exact useOf_isDef heq
    by_cases hinv : inverted = 0
    · refine ⟨_, by rw [insertBranch, hfirst]; exact if_pos hinv, fun ρ => ?_⟩
      rw [htransfer, hbuild, hx, hy]
      simp [hinv, Transfer.orElse]
    · refine ⟨_, by rw [insertBranch, hfirst]; exact if_neg hinv, fun ρ => ?_⟩
      rw [htransfer, hbuild, hx, hy]
      by_cases hρ : ρ c.reg = 0 <;> simp [hinv, hρ, Transfer.orElse]
  | cons first between =>
    refine iff_of_false ?_ (List.cons_ne_nil _ _)
    rintro ⟨h, hinsert, -⟩
    rw [insertBranch, hfirst] at hinsert
    cases hinsert

/-- **A branch survives removal and insertion exactly in the reinsertable blocks**, and so does
the reversed one if there are two targets. -/
theorem roundTrips_iff (f : MachineFunction Block) (b : Block) (br : Branch Block)
    (hf : f.WellFormedAt b) (h : f.analyzeBranch b = some br) :
    (f.RoundTrips b br.tbb br.fbb br.cond ∧
      (br.fbb ≠ none → ∃ cond, reverseBranchCondition br.cond = some cond ∧
        f.RoundTrips b br.fbb br.tbb cond)) ↔ f.Reinsertable b := by
  rcases analyzeBranch_cases hf.last h with ⟨htbb, hnone⟩ | ⟨pre, mi, debug, hsplit, hdebug,
    hremove, haccepted⟩
  · -- there is no branch to put back
    refine iff_of_false ?_ ?_
    · rintro ⟨⟨g, hinsert, -⟩, -⟩
      rw [htbb] at hinsert
      cases hinsert
    · rintro ⟨before, mi, hterm, -⟩
      rw [hnone] at hterm
      simp at hterm
  · have hrefl : Removed f f b (terminators (f.instrs b)) :=
      ⟨hf.mem, hf.last, hf.fresh, rfl, fun _ h => h, rfl⟩
    have hg := hf.setInstrs_removed hrefl hsplit haccepted.isBranch
    rw [terminators_of_debug hdebug, List.append_nil, ← hremove] at hg
    have hterm : terminators (f.instrs b) = terminators pre ++ [mi] := by
      rw [hsplit, terminators_append, terminators, terminators, List.filter_cons_of_pos
        (by simpa using Opcode.isTerminator_of_isBranch haccepted.isBranch)]
      exact congrArg (terminators pre ++ mi :: ·) (terminators_of_debug hdebug)
    have htransfer (ρ : Register → ℤ) : f.transfer b ρ =
        (control f.continuation ρ (terminators pre)).orElse (exit f.continuation ρ mi) := by
      rw [transfer_eq_control_terminators, hterm, control_append, control_cons, control_nil,
        orElse_fallThrough]
    have hoperands := hf.operands mi (by simp [hsplit]) haccepted.isBranch
    rw [reinsertable_iff hterm]
    change ((∃ g, (f.setInstrs b (removeLastBranch (f.instrs b))).insertBranch b _ _ _ = some g ∧ _)
      ∧ _) ↔ _
    cases haccepted with
    | @jmpx id t rest x hx =>
      have hiff := hg.jump_iff hf x fun ρ => by
        rw [htransfer]
        exact congrArg (Transfer.orElse _) (jump_eq_block hx)
      refine (and_iff_left fun hne => absurd rfl hne).trans (hiff.trans ?_)
      exact or_congr_right ⟨fun h => ⟨rfl, h⟩, fun h => h.2⟩
    | @ifelse id c t e rest x y hx hy =>
      obtain ⟨c', rfl, hc⟩ := hoperands c List.mem_cons_self
      have hexit (ρ : Register → ℤ) : f.transfer b ρ =
          (control f.continuation ρ (terminators pre)).orElse
            (if ρ c'.reg ≠ 0 then .block x else .block y) := by
        rw [htransfer, ← jump_eq_block hx, ← jump_eq_block hy]
        rfl
      have hstraight := hg.ifelse_iff x y 0 hc fun ρ => by
        rw [hexit]
        simp
      have hswapped := hg.ifelse_iff y x 1 hc fun ρ => by
        rw [hexit]
        by_cases hρ : ρ c'.reg = 0 <;> simp [hρ]
      have hright : ∀ P : Prop, terminators pre = [] ∨
          (Opcode.IFELSE = Opcode.JMPX ∧ P) ↔ terminators pre = [] := fun P =>
        or_iff_left fun hP => by cases hP.1
      rw [hright]
      split
      · refine ⟨fun hboth => hswapped.mp hboth.1, fun hnil => ⟨hswapped.mpr hnil, fun _ => ?_⟩⟩
        exact ⟨_, rfl, hstraight.mpr hnil⟩
      · refine ⟨fun hboth => hstraight.mp hboth.1, fun hnil => ⟨hstraight.mpr hnil, fun _ => ?_⟩⟩
        exact ⟨_, rfl, hswapped.mpr hnil⟩
    | @ifjmp id c t rest x hx =>
      obtain ⟨c', rfl, hc⟩ := hoperands c List.mem_cons_self
      have hiff := hg.jumpIf_iff x 0 hc fun ρ => by
        rw [htransfer, ← jump_eq_block hx]
        simp [exit]
      refine (and_iff_left fun hne => absurd rfl hne).trans (hiff.trans ?_)
      exact (or_iff_left fun hP => by cases hP.1).symm
    | @ifnotjmp id c t rest x hx =>
      obtain ⟨c', rfl, hc⟩ := hoperands c List.mem_cons_self
      have hiff := hg.jumpIf_iff x 1 hc fun ρ => by
        rw [htransfer, ← jump_eq_block hx]
        by_cases hρ : ρ c'.reg = 0 <;> simp [exit, hρ]
      refine (and_iff_left fun hne => absurd rfl hne).trans (hiff.trans ?_)
      exact (or_iff_left fun hP => by cases hP.1).symm

end RoundTrip

/-! ## Conditional jumps in front of a jump -/

/-- Block `0` pushes the continuations of the blocks `1`, `2` and `3`, which follow it. The
conditions are in the virtual registers `3` and `4`. -/
def pushThree (branches : List (MachineInstr ℕ)) : MachineFunction ℕ where
  cfg :=
    { entry := 0
      succs := fun p => if p = 0 then [1, 2, 3] else []
      preds := fun b => if b ∈ [1, 2, 3] then [0] else []
      mem_preds := fun p b => by
        by_cases hp : p = 0 <;> by_cases hb : b ∈ [1, 2, 3] <;> simp_all }
  layout := [0, 1, 2, 3]
  instrs
    | 0 =>
      [⟨0, .PUSHCONT_MBB, [.register ⟨2 ^ 31, true, false, false, false⟩, .mbb 1, .imm 0]⟩,
        ⟨1, .PUSHCONT_MBB, [.register ⟨2 ^ 31 + 1, true, false, false, false⟩, .mbb 2, .imm 0]⟩,
        ⟨2, .PUSHCONT_MBB, [.register ⟨2 ^ 31 + 2, true, false, false, false⟩, .mbb 3, .imm 0]⟩] ++
        branches
    | _ => []
  nextId := 6
  numVirtRegs := 5

/-- A conditional jump to block `1`, and a jump to block `3`. -/
def jumpBehindJump : MachineFunction ℕ :=
  pushThree [⟨3, .IFJMP, [useOf (2 ^ 31 + 3), useOf (2 ^ 31)]⟩, ⟨4, .JMPX, [useOf (2 ^ 31 + 2)]⟩]

/-- Conditional jumps to the blocks `1` and `2`, and a jump to block `3`. -/
def jumpBehindTwo : MachineFunction ℕ :=
  pushThree [⟨3, .IFJMP, [useOf (2 ^ 31 + 3), useOf (2 ^ 31)]⟩,
    ⟨4, .IFJMP, [useOf (2 ^ 31 + 4), useOf (2 ^ 31 + 1)]⟩, ⟨5, .JMPX, [useOf (2 ^ 31 + 2)]⟩]

theorem pushThree_wellFormedAt {branches : List (MachineInstr ℕ)}
    (hterm : ∀ mi ∈ branches, mi.opcode.isTerminator)
    (hregs : ∀ mi ∈ branches, ∀ op ∈ mi.operands, ∃ r < 2 ^ 31 + 5, op = useOf r) :
    (pushThree branches).WellFormedAt 0 where
  mem := List.mem_cons_self
  last := by
    have hall : ∀ mi ∈ branches, ∀ mi' ∈ branches, mi.opcode.isTerminator →
        mi'.opcode.isTerminator ∨ mi'.opcode.isDebugInstr :=
      fun _ _ mi' hmi' _ => Or.inl (hterm mi' hmi')
    simp only [pushThree, List.cons_append, List.nil_append, List.pairwise_cons]
    refine ⟨nofun, nofun, nofun, List.pairwise_of_forall_mem_list fun mi hmi mi' hmi' => ?_⟩
    exact hall mi hmi mi' hmi'
  operands mi hmi hbranch op hop := by
    rcases List.mem_append.mp hmi with hpush | hmem
    · simp only [List.mem_cons, List.not_mem_nil, or_false] at hpush
      rcases hpush with rfl | rfl | rfl <;> cases hbranch
    · obtain ⟨r, -, rfl⟩ := hregs mi hmem op hop
      exact ⟨_, rfl, rfl⟩
  fresh b mi hmi r hr := by
    match b with
    | 0 =>
      rcases List.mem_append.mp hmi with hpush | hmem
      · simp only [List.mem_cons, List.not_mem_nil, or_false] at hpush
        rcases hpush with rfl | rfl | rfl
        all_goals
          simp only [List.mem_cons, List.not_mem_nil, or_false, MachineOperand.register.injEq,
            reduceCtorEq] at hr
          subst hr
          simp [freshRegister, pushThree]
      · obtain ⟨r', hlt, heq⟩ := hregs mi hmem _ hr
        cases heq
        exact hlt
    | b + 1 => cases hmi

theorem jumpBehindJump_wellFormedAt : jumpBehindJump.WellFormedAt 0 :=
  pushThree_wellFormedAt (by simp [Opcode.isTerminator])
    (by simp [useOf])

theorem jumpBehindTwo_wellFormedAt : jumpBehindTwo.WellFormedAt 0 :=
  pushThree_wellFormedAt (by simp [Opcode.isTerminator])
    (by simp [useOf])

theorem jumpBehindJump_roundTrips :
    (jumpBehindJump.RoundTrips 0 (some 3) none [] ∧
      ((none : Option ℕ) ≠ none → ∃ cond, reverseBranchCondition ([] : List (MachineOperand ℕ)) =
        some cond ∧ jumpBehindJump.RoundTrips 0 none (some 3) cond)) ↔
      jumpBehindJump.Reinsertable 0 :=
  roundTrips_iff jumpBehindJump 0 ⟨some 3, none, []⟩ jumpBehindJump_wellFormedAt rfl

/-- If both conditions hold, control goes to block `1`. After the jump has been removed and
inserted again, it goes to block `2`. -/
theorem jumpBehindTwo_not_roundTrips :
    jumpBehindTwo.WellFormedAt 0 ∧ jumpBehindTwo.analyzeBranch 0 = some ⟨some 3, none, []⟩ ∧
      jumpBehindTwo.transfer 0 (fun _ => 1) = .block 1 ∧
      ((jumpBehindTwo.removeBranch 0).insertBranch 0 (some 3) none []).map
        (fun g => g.transfer 0 fun _ => 1) = some (.block 2) ∧
      ¬ jumpBehindTwo.RoundTrips 0 (some 3) none [] := by
  have hbefore : jumpBehindTwo.transfer 0 (fun _ => 1) = .block 1 := rfl
  have hafter : ((jumpBehindTwo.removeBranch 0).insertBranch 0 (some 3) none []).map
      (fun g => g.transfer 0 fun _ => 1) = some (.block 2) := rfl
  refine ⟨jumpBehindTwo_wellFormedAt, rfl, hbefore, hafter, ?_⟩
  rintro ⟨g, hinsert, hsame⟩
  rw [hinsert, Option.map_some, hsame, hbefore] at hafter
  cases hafter

end MachineFunction

end TVMCompiler
