import TVMCompiler.Pass.BranchRoundTrip

/-!
# If-conversion of terminating branches

`TVMIfConversionTerm` turns a conditional branch to a block that only throws into a conditional
throw, and appends the other successor to the block. The branch has two explicit targets, or one
and the block that follows.

## Main definitions

* `run`: the instructions that are executed, and how the execution ends
* `tryConvertIf`: the pass on one block
* `SuccessorsExact`: the successors are the blocks to which control can go
* `Convertible`: the blocks that are converted as they should be

## Main results

* `run_append`, `run_congr`: execution in parts, and what it depends on
* `run_merged`: a converted block is the block and its successor
* `tryConvertIf_sound_iff`: when the conversion is right
-/

namespace TVMCompiler

variable {Block : Type}

/-! ## Execution -/

/-- The execution of some instructions ends with a transfer of control or with an exception. -/
inductive Ending (Block : Type) where
  | control (t : Transfer Block)
  | throws (err : MachineOperand Block)

/-- The exception that an instruction throws. -/
def thrown (ρ : Register → ℤ) (mi : MachineInstr Block) : Option (MachineOperand Block) :=
  match mi.opcode, mi.operands with
  | .THROW, err :: _ => some err
  | .THROWIF, .register c :: err :: _ => if ρ c.reg ≠ 0 then some err else none
  | .THROWIFNOT, .register c :: err :: _ => if ρ c.reg = 0 then some err else none
  | _, _ => none

def Ending.step (κ : Register → Option Block) (ρ : Register → ℤ) (mi : MachineInstr Block) :
    Ending Block :=
  match thrown ρ mi with
  | some err => .throws err
  | none => .control (exit κ ρ mi)

namespace MachineInstr

def isPHI (mi : MachineInstr Block) : Bool := mi.opcode = .PHI

/-- What is executed of an instruction that neither throws nor transfers control. A condition that
does not hold has no effect, and a PHI does the same for other names of the blocks. -/
def executed (mi : MachineInstr Block) : List (MachineInstr Block) :=
  if mi.opcode.isDebugInstr || mi.opcode.isBranch || mi.opcode.isPredicated then []
  else if mi.isPHI then
    [{ mi with operands := mi.operands.filter fun | .mbb _ => false | _ => true }]
  else [mi]

end MachineInstr

namespace Ending

/-- Control goes on behind the instructions. -/
def falls : Ending Block → Bool
  | .control .fallThrough => true
  | _ => false

/-- The block to which control goes. -/
def target : Ending Block → Option Block
  | .control (.block b) => some b
  | _ => none

/-- At the end of a block control falls through to the next one. -/
def resolve (next : Option Block) (e : Ending Block) : Ending Block :=
  if e.falls then
    match next with
    | some b => .control (.block b)
    | none => e
  else e

end Ending

/-- The instructions that are executed, and how this ends; `κ` tells the blocks, and `ρ` the values
of the registers at each instruction. -/
def run (κ : Register → Option Block) (ρ : ℕ → Register → ℤ) :
    List (MachineInstr Block) → List (MachineInstr Block) × Ending Block
  | [] => ([], .control .fallThrough)
  | mi :: l =>
    let ending := Ending.step κ (ρ mi.id) mi
    if ending.falls then (mi.executed ++ (run κ ρ l).1, (run κ ρ l).2) else ([], ending)

namespace MachineFunction

section Pass

variable [DecidableEq Block] (f : MachineFunction Block)

/-- The execution of a block. -/
def exec (κ : Register → Option Block) (ρ : ℕ → Register → ℤ) (b : Block) :
    List (MachineInstr Block) × Ending Block :=
  ((run κ ρ (f.instrs b)).1, (run κ ρ (f.instrs b)).2.resolve (f.following b).head?)

/-- The execution of a block and of the one to which it leads. -/
def execThrough (κ : Register → Option Block) (ρ : ℕ → Register → ℤ) (b : Block) :
    List (MachineInstr Block) × Ending Block :=
  match (f.exec κ ρ b).2.target with
  | some next => ((f.exec κ ρ b).1 ++ (f.exec κ ρ next).1, (f.exec κ ρ next).2)
  | none => f.exec κ ρ b

/-- The successors of a block are those to which control can go. -/
def SuccessorsExact (κ : Register → Option Block) (b : Block) : Prop :=
  ∀ next, next ∈ f.cfg.succs b ↔ ∃ ρ, (f.exec κ ρ b).2 = .control (.block next)

/-! ## The pass -/

/-- The last instruction of a block, without debug instructions. -/
def lastInstr (b : Block) : Option (MachineInstr Block) :=
  ((f.instrs b).reverse.dropWhile fun mi => mi.opcode.isDebugInstr).head?

/-- `TVMInstrInfo::PredicateInstruction`. -/
def predicateInstruction (mi : MachineInstr Block) :
    List (MachineOperand Block) → Option (MachineInstr Block)
  | [.imm inverted, pred] =>
    match mi.opcode, mi.operands with
    | .THROW, errCode :: rest =>
      some ⟨mi.id, if inverted ≠ 0 then .THROWIFNOT else .THROWIF, pred :: errCode :: rest⟩
    | _, _ => none
  | _ => none

/-- `MachineBasicBlock::removeSuccessor` asserts that there is one. -/
def removeSuccessor (succs : List Block) : Option Block → Option (List Block)
  | some b => if b ∈ succs then some (succs.erase b) else none
  | none => none

/-- The two successors, the one that throws first. -/
def canonicalSuccs (b : Block) : Option (Block × Block) :=
  match f.cfg.succs b with
  | [succ0, succ1] =>
    let throwFinalized := (f.cfg.succs succ0).isEmpty &&
      match f.getFirstTerminator succ0 with
      | some mi => mi.opcode = .THROW
      | none => false
    some (if throwFinalized then (succ0, succ1) else (succ1, succ0))
  | _ => none

/-- The PHIs of a block name the new predecessor. -/
def updatePHIs (old new : Block) (l : List (MachineInstr Block)) : List (MachineInstr Block) :=
  (l.takeWhile fun mi => mi.isPHI).map (fun mi =>
      { mi with operands := mi.operands.map fun
        | .mbb b => .mbb (if b = old then new else b)
        | op => op }) ++
    l.dropWhile fun mi => mi.isPHI

/-- The edges after the head has taken over the successors of `succ1`. -/
def mergeCfg (head succ0 succ1 : Block) : Cfg Block where
  entry := f.cfg.entry
  succs b := if b = succ0 ∨ b = succ1 then [] else
    if b = head then f.cfg.succs succ1 else f.cfg.succs b
  preds b := (((f.cfg.preds b).filter fun p => p ≠ head).map fun p =>
    if p = succ1 then head else p).filter fun p => p ≠ succ0 ∧ p ≠ succ1
  mem_preds p b := by
    simp only [List.mem_filter, List.mem_map, decide_eq_true_eq, f.cfg.mem_preds]
    by_cases herased : p = succ0 ∨ p = succ1
    · rw [if_pos herased]
      exact ⟨fun h => (not_or.mpr h.2 herased).elim, fun h => absurd h List.not_mem_nil⟩
    · rw [if_neg herased]
      have hkept := not_or.mp herased
      by_cases hhead : p = head
      · subst hhead
        rw [if_pos rfl]
        constructor
        · rintro ⟨⟨q, ⟨hq, hne⟩, heq⟩, -⟩
          by_cases hsucc : q = succ1
          · exact hsucc ▸ hq
          · rw [if_neg hsucc] at heq
            exact absurd heq hne
        · intro hb
          exact ⟨⟨succ1, ⟨hb, Ne.symm hkept.2⟩, if_pos rfl⟩, hkept⟩
      · rw [if_neg hhead]
        constructor
        · rintro ⟨⟨q, ⟨hq, -⟩, heq⟩, -⟩
          by_cases hsucc : q = succ1
          · rw [if_pos hsucc] at heq
            exact absurd heq.symm hhead
          · rw [if_neg hsucc] at heq
            exact heq ▸ hq
        · intro hb
          exact ⟨⟨p, ⟨hb, hhead⟩, if_neg hkept.2⟩, hkept⟩

/-- The branch is removed, the conditional throw and the instructions of `succ1` are appended, and
the two successors erased. -/
def mergeSuccs (head succ0 succ1 : Block) (mi : MachineInstr Block) : MachineFunction Block :=
  { f with
    cfg := f.mergeCfg head succ0 succ1
    layout := f.layout.filter fun b => b ≠ succ0 ∧ b ≠ succ1
    instrs := fun b =>
      if b = succ0 ∨ b = succ1 then [] else
        let l := if b = head then removeLastBranch (f.instrs head) ++ mi :: f.instrs succ1
          else f.instrs b
        if b ∈ f.cfg.succs succ1 then updatePHIs succ1 head l else l }

/-- What becomes of a block. -/
inductive IfConversion (Block : Type) where
  | unchanged
  | asserts
  | converted (g : MachineFunction Block)

/-- The branch of the head becomes the condition of the throw, and the successors are merged. The
condition of a branch to the other successor is inverted in place. -/
def convertBranch (head succ0 succ1 : Block) (mi : MachineInstr Block) (br : Branch Block) :
    IfConversion Block :=
  match if br.tbb ≠ some succ0 then reverseBranchCondition br.cond else some br.cond with
  | none => .asserts
  | some cond =>
    match predicateInstruction mi cond with
    | none => .unchanged
    | some mi =>
      match (removeSuccessor (f.cfg.succs head) br.tbb).bind fun succs =>
        removeSuccessor succs br.fbb with
      | some [] => .converted (f.mergeSuccs head succ0 succ1 mi)
      | _ => .asserts

/-- `TVMIfConversionTerm::tryConvertIf`. -/
def tryConvertIf (head : Block) : IfConversion Block :=
  match f.canonicalSuccs head with
  | none => .unchanged
  | some (succ0, succ1) =>
    if (f.cfg.preds succ0).length ≠ 1 ∨ (f.cfg.preds succ1).length ≠ 1 then .unchanged
    else if f.cfg.succs succ0 ≠ [] then .unchanged
    else if (f.instrs succ1).head?.any MachineInstr.isPHI then .unchanged
    else
      match f.instrs succ0 with
      | [mi] =>
        if mi.opcode ≠ .THROW then .unchanged
        else
          match f.analyzeBranch head with
          | none => .unchanged
          | some br => f.convertBranch head succ0 succ1 mi br
      | _ => .unchanged

/-! ## What is right -/

/-- The converted head executes what the head and its successor did, if the condition has the same
value at the throw as at the branch; and its successors are the blocks that it leads to. -/
structure ConversionSound (κ : Register → Option Block) (head : Block)
    (g : MachineFunction Block) : Prop where
  same : ∀ ρ br, f.lastInstr head = some br →
    (∀ s ∈ f.cfg.succs head, ∀ mi, f.instrs s = [mi] → mi.opcode = .THROW →
      ρ mi.id = ρ br.id) → g.exec κ ρ head = f.execThrough κ ρ head
  exact : g.SuccessorsExact κ head

/-- The instructions in front of the last one. -/
def beforeLast (b : Block) : List (MachineInstr Block) :=
  ((f.instrs b).reverse.dropWhile fun mi => mi.opcode.isDebugInstr).tail.reverse

/-- The block that follows the head once its successors are erased. -/
def followingMerged (head succ0 succ1 : Block) : Option Block :=
  ((f.layout.filter fun b => b ≠ succ0 ∧ b ≠ succ1).dropWhile (· ≠ head)).tail.head?

/-- The branch has two explicit targets, no terminator in front of it leads to a block, and the
successor that is kept is followed by the same block as the head will be if it falls through. -/
structure Convertible (head : Block) : Prop where
  explicit : ∃ br, f.lastInstr head = some br ∧ br.opcode = .IFELSE
  only : ∀ ρ b, (run f.continuation ρ (f.beforeLast head)).2 ≠ .control (.block b)
  follows : ∀ succ0 succ1, f.canonicalSuccs head = some (succ0, succ1) →
    (∃ ρ, (run f.continuation ρ (f.instrs succ1)).2 = .control .fallThrough) →
    f.followingMerged head succ0 succ1 = (f.following succ1).head?

end Pass

end MachineFunction

/-! ## Execution in parts -/

section Run

variable {κ : Register → Option Block} {ρ ρ' : ℕ → Register → ℤ}

theorem Ending.falls_iff {e : Ending Block} : e.falls = true ↔ e = .control .fallThrough := by
  constructor
  · intro h
    cases e with
    | control t =>
      cases t with
      | fallThrough => rfl
      | _ => cases h
    | throws _ => cases h
  · rintro rfl
    rfl

theorem Ending.resolve_of_not_falls {e : Ending Block} (h : e.falls = false)
    (next : Option Block) : e.resolve next = e := by
  unfold resolve
  rw [if_neg (by rw [h]; exact Bool.false_ne_true)]

theorem Ending.resolve_fallThrough (next : Option Block) :
    (Ending.control .fallThrough).resolve next =
      next.elim (.control .fallThrough) fun b => .control (.block b) := by
  cases next <;> rfl

/-- The second execution follows the first one if that one falls through. -/
def andThen (r r' : List (MachineInstr Block) × Ending Block) :
    List (MachineInstr Block) × Ending Block :=
  if r.2.falls then (r.1 ++ r'.1, r'.2) else r

theorem run_cons (mi : MachineInstr Block) (l : List (MachineInstr Block)) :
    run κ ρ (mi :: l) = if (Ending.step κ (ρ mi.id) mi).falls then
      (mi.executed ++ (run κ ρ l).1, (run κ ρ l).2) else ([], Ending.step κ (ρ mi.id) mi) := rfl

theorem run_append (l l' : List (MachineInstr Block)) :
    run κ ρ (l ++ l') = andThen (run κ ρ l) (run κ ρ l') := by
  induction l with
  | nil => rfl
  | cons mi l ih =>
    rw [List.cons_append, run_cons, run_cons, ih]
    by_cases hstep : (Ending.step κ (ρ mi.id) mi).falls = true
    · rw [if_pos hstep, if_pos hstep]
      unfold andThen
      by_cases hfalls : (run κ ρ l).2.falls = true
      · simp only [if_pos hfalls, List.append_assoc]
      · simp only [if_neg hfalls]
    · rw [if_neg hstep, if_neg hstep, andThen, if_neg hstep]

/-- Only the values at the instructions themselves matter. -/
theorem run_congr {l : List (MachineInstr Block)} (h : ∀ mi ∈ l, ρ mi.id = ρ' mi.id) :
    run κ ρ l = run κ ρ' l := by
  induction l with
  | nil => rfl
  | cons mi l ih =>
    obtain ⟨hmi, hl⟩ := List.forall_mem_cons.mp h
    rw [run_cons, run_cons, hmi, ih hl]

/-- Nothing that is kept is changed. -/
theorem filter_map_of_fixed {α : Type*} {p : α → Bool} {h : α → α}
    (hfixed : ∀ a, p (h a) = p a ∧ (p a = true → h a = a)) (l : List α) :
    (l.map h).filter p = l.filter p := by
  induction l with
  | nil => rfl
  | cons a l ih =>
    obtain ⟨hp, heq⟩ := hfixed a
    rw [List.map_cons, List.filter_cons, List.filter_cons, hp, ih]
    by_cases ha : p a = true
    · rw [if_pos ha, if_pos ha, heq ha]
    · rw [if_neg ha, if_neg ha]

/-- What the instructions are changed to executes and leads on as they do. -/
theorem run_map {h : MachineInstr Block → MachineInstr Block} {l : List (MachineInstr Block)}
    (hsame : ∀ mi ∈ l, (h mi).id = mi.id ∧ (h mi).executed = mi.executed ∧
      ∀ ρ, Ending.step κ ρ (h mi) = Ending.step κ ρ mi) : run κ ρ (l.map h) = run κ ρ l := by
  induction l with
  | nil => rfl
  | cons mi l ih =>
    obtain ⟨⟨hid, hexec, hstep⟩, hl⟩ := List.forall_mem_cons.mp hsame
    rw [List.map_cons, run_cons, run_cons, hid, hexec, hstep, ih hl]

theorem thrown_of_not_throw {mi : MachineInstr Block} {r : Register → ℤ}
    (h : mi.opcode ≠ .THROW ∧ mi.opcode ≠ .THROWIF ∧ mi.opcode ≠ .THROWIFNOT) :
    thrown r mi = none := by
  unfold thrown
  split
  · rename_i hop _; exact absurd hop h.1
  · rename_i hop _; exact absurd hop h.2.1
  · rename_i hop _; exact absurd hop h.2.2
  · rfl

theorem step_of_not_throw {mi : MachineInstr Block} {r : Register → ℤ}
    (h : mi.opcode ≠ .THROW ∧ mi.opcode ≠ .THROWIF ∧ mi.opcode ≠ .THROWIFNOT) :
    Ending.step κ r mi = .control (exit κ r mi) := by
  rw [Ending.step, thrown_of_not_throw h]

theorem run_debug {l : List (MachineInstr Block)} (h : ∀ mi ∈ l, mi.opcode.isDebugInstr) :
    run κ ρ l = ([], .control .fallThrough) := by
  induction l with
  | nil => rfl
  | cons mi l ih =>
    obtain ⟨hmi, hl⟩ := List.forall_mem_cons.mp h
    have hthrow : mi.opcode ≠ .THROW ∧ mi.opcode ≠ .THROWIF ∧ mi.opcode ≠ .THROWIFNOT := by
      refine ⟨?_, ?_, ?_⟩ <;> rintro hop <;> rw [hop] at hmi <;> cases hmi
    have hexec : mi.executed = [] := by
      rw [MachineInstr.executed, hmi]
      rfl
    rw [run_cons, step_of_not_throw hthrow,
      exit_of_not_isTerminator (Opcode.not_isTerminator_of_isDebugInstr hmi), ih hl, hexec]
    rfl

/-- An instruction that only throws does not fall through. -/
theorem falls_throw (κ : Register → Option Block) (ρ : ℕ → Register → ℤ)
    {m : MachineInstr Block} (hop : m.opcode = .THROW) : (run κ ρ [m]).2.falls = false := by
  obtain ⟨i, opcode, operands⟩ := m
  dsimp only at hop
  subst hop
  cases operands with
  | nil => rfl
  | cons err rest => rfl

theorem resolve_fallThrough_inj {next next' : Option Block}
    (h : (Ending.control (.fallThrough : Transfer Block)).resolve next =
      (Ending.control .fallThrough).resolve next') : next = next' := by
  rw [Ending.resolve_fallThrough, Ending.resolve_fallThrough] at h
  cases next with
  | none =>
    cases next' with
    | none => rfl
    | some _ => cases h
  | some b =>
    cases next' with
    | none => cases h
    | some b' =>
      cases h
      rfl

end Run

namespace MachineFunction

section PHIs

variable [DecidableEq Block] {κ : Register → Option Block} {ρ : ℕ → Register → ℤ}

/-- A PHI is executed as before. -/
theorem run_updatePHIs (old new : Block) (l : List (MachineInstr Block)) :
    run κ ρ (updatePHIs old new l) = run κ ρ l := by
  conv_rhs => rw [← List.takeWhile_append_dropWhile (p := fun mi => mi.isPHI) (l := l)]
  rw [updatePHIs, run_append, run_append, run_map]
  intro mi hmi
  have hphi : mi.opcode = .PHI := by
    have := List.mem_takeWhile_imp hmi
    simpa [MachineInstr.isPHI] using this
  obtain ⟨id, opcode, operands⟩ := mi
  dsimp only at hphi
  subst hphi
  refine ⟨rfl, ?_, fun ρ => ?_⟩
  · refine congrArg (fun l => [(⟨id, .PHI, l⟩ : MachineInstr Block)]) (filter_map_of_fixed ?_ operands)
    intro op
    cases op <;> exact ⟨rfl, fun h => by first | rfl | cases h⟩
  · rw [step_of_not_throw (by simp), step_of_not_throw (by simp),
      exit_of_not_isTerminator rfl, exit_of_not_isTerminator rfl]

end PHIs

/-! ## The conversion -/

section Convert

variable {f : MachineFunction Block} {head succ0 succ1 : Block}

theorem succs_of_canonicalSuccs (h : f.canonicalSuccs head = some (succ0, succ1)) :
    f.cfg.succs head = [succ0, succ1] ∨ f.cfg.succs head = [succ1, succ0] := by
  unfold canonicalSuccs at h
  split at h
  · rename_i a b hsuccs
    rw [hsuccs]
    dsimp only at h
    generalize (_ && _) = throwFinalized at h
    cases throwFinalized with
    | true =>
      obtain ⟨rfl, rfl⟩ := Prod.mk.inj (Option.some.inj h)
      exact .inl rfl
    | false =>
      obtain ⟨rfl, rfl⟩ := Prod.mk.inj (Option.some.inj h)
      exact .inr rfl
  · cases h

/-- A block that can be reached is not its own only predecessor. -/
theorem ne_of_single (hreach : ∀ b, f.cfg.Reachable b)
    (hentry : f.cfg.preds f.cfg.entry = []) {b : Block} (hsucc : b ∈ f.cfg.succs head)
    (hsingle : (f.cfg.preds b).length = 1) : f.cfg.preds b = [head] ∧ b ≠ head := by
  obtain ⟨p, hp⟩ := List.length_eq_one_iff.mp hsingle
  have hmem : head ∈ f.cfg.preds b := (f.cfg.mem_preds head b).mpr hsucc
  rw [hp, List.mem_singleton] at hmem
  subst hmem
  refine ⟨hp, ?_⟩
  rintro rfl
  have hne : b ≠ f.cfg.entry := by
    rintro heq
    rw [heq, hentry] at hp
    cases hp
  obtain ⟨u, hu, havoids⟩ := Lib.exists_first_edge (hreach b) hne
  have hub : u ∈ f.cfg.preds b := (f.cfg.mem_preds u b).mpr hu
  rw [hp, List.mem_singleton] at hub
  exact havoids.ne hub

theorem dropWhile_debug {pre debug : List (MachineInstr Block)} {mi : MachineInstr Block}
    (hdebug : ∀ d ∈ debug, d.opcode.isDebugInstr) (hmi : mi.opcode.isDebugInstr = false) :
    (pre ++ mi :: debug).reverse.dropWhile (fun mi => mi.opcode.isDebugInstr) =
      mi :: pre.reverse := by
  rw [List.reverse_append, List.reverse_cons, List.append_assoc,
    List.dropWhile_append_of_pos fun d hd => hdebug d (List.mem_reverse.mp hd)]
  rw [List.singleton_append, List.dropWhile_cons_of_neg (by rw [hmi]; exact Bool.false_ne_true)]

/-- A block that ends in an `IFELSE` on `c` with the targets `x` and `y`. -/
structure EndsInIfelse (f : MachineFunction Block) (head : Block)
    (pre debug : List (MachineInstr Block)) (id : ℕ) (c : RegisterOperand) (x y : Block) :
    Prop where
  instrs : ∃ t e rest, f.instrs head = pre ++ ⟨id, .IFELSE,
      .register c :: .register t :: .register e :: rest⟩ :: debug ∧
    f.continuation t.reg = some x ∧ f.continuation e.reg = some y
  isDebug : ∀ d ∈ debug, d.opcode.isDebugInstr
  removed : removeLastBranch (f.instrs head) = pre ++ debug
  before : f.beforeLast head = pre
  last : ∃ br, f.lastInstr head = some br ∧ br.id = id

section Ifelse

variable {κ : Register → Option Block} {ρ : ℕ → Register → ℤ}
  {pre debug : List (MachineInstr Block)} {id : ℕ} {c : RegisterOperand} {x y : Block}

/-- The execution of a block that ends in an `IFELSE`. -/
theorem EndsInIfelse.run (h : EndsInIfelse f head pre debug id c x y) (ρ : ℕ → Register → ℤ) :
    TVMCompiler.run f.continuation ρ (f.instrs head) =
      andThen (TVMCompiler.run f.continuation ρ pre)
        ([], .control (.block (if ρ id c.reg ≠ 0 then x else y))) := by
  obtain ⟨t, e, rest, hinstrs, ht, he⟩ := h.instrs
  have hexit : Ending.step f.continuation (ρ id) ⟨id, .IFELSE,
      .register c :: .register t :: .register e :: rest⟩ =
        .control (.block (if ρ id c.reg ≠ 0 then x else y)) := by
    rw [step_of_not_throw (by simp)]
    show Ending.control (if ρ id c.reg ≠ 0 then jump f.continuation t.reg
      else jump f.continuation e.reg) = _
    rw [jump_eq_block ht, jump_eq_block he]
    split <;> rfl
  rw [hinstrs, run_append, run_cons, hexit]
  rfl

/-- The execution of a conditional throw. -/
theorem run_throwif (κ : Register → Option Block) (ρ : ℕ → Register → ℤ) (id : ℕ) (inverted : ℤ)
    (c : RegisterOperand) (err : MachineOperand Block) (rest : List (MachineOperand Block))
    (l : List (MachineInstr Block)) :
    TVMCompiler.run κ ρ (⟨id, if inverted ≠ 0 then .THROWIFNOT else .THROWIF,
        .register c :: err :: rest⟩ :: l) =
      if (ρ id c.reg ≠ 0 ↔ inverted = 0) then ([], .throws err) else TVMCompiler.run κ ρ l := by
  -- the condition is read, and nothing else is done where it does not hold
  have hstep (opcode : Opcode) (hop : opcode.isPredicated = true) (throws : Prop)
      [Decidable throws] (hthrown : thrown (ρ id) ⟨id, opcode, .register c :: err :: rest⟩ =
        if throws then some err else none) :
      TVMCompiler.run κ ρ (⟨id, opcode, .register c :: err :: rest⟩ :: l) =
        if throws then ([], .throws err) else TVMCompiler.run κ ρ l := by
    have hexec : (⟨id, opcode, .register c :: err :: rest⟩ : MachineInstr Block).executed = [] := by
      rw [MachineInstr.executed, hop, Bool.or_true]
      rfl
    have hexit : exit κ (ρ id) ⟨id, opcode, .register c :: err :: rest⟩ = .fallThrough :=
      exit_of_not_isTerminator (by cases opcode <;> first | rfl | cases hop)
    rw [run_cons, Ending.step, hthrown, hexec]
    by_cases hthrows : throws
    · rw [if_pos hthrows, if_pos hthrows]
      rfl
    · rw [if_neg hthrows, if_neg hthrows, hexit]
      rfl
  by_cases hinv : inverted = 0
  · rw [if_neg (not_not.mpr hinv), hstep .THROWIF rfl (ρ id c.reg ≠ 0) rfl]
    exact if_congr (by simp [hinv]) rfl rfl
  · rw [if_pos hinv, hstep .THROWIFNOT rfl (ρ id c.reg = 0) rfl]
    exact if_congr (by simp [hinv]) rfl rfl

end Ifelse

variable [DecidableEq Block]

/-- What `tryConvertIf` has checked when it comes to the branch. -/
structure Candidate (f : MachineFunction Block) (head succ0 succ1 : Block)
    (mi : MachineInstr Block) (br : Branch Block) : Prop where
  canonical : f.canonicalSuccs head = some (succ0, succ1)
  single0 : (f.cfg.preds succ0).length = 1
  single1 : (f.cfg.preds succ1).length = 1
  last : f.cfg.succs succ0 = []
  only : f.instrs succ0 = [mi]
  throws : mi.opcode = .THROW
  analyzed : f.analyzeBranch head = some br

theorem exists_candidate (h : f.tryConvertIf head ≠ .unchanged) :
    ∃ succ0 succ1 mi br, Candidate f head succ0 succ1 mi br ∧
      f.tryConvertIf head = f.convertBranch head succ0 succ1 mi br := by
  unfold tryConvertIf at h ⊢
  cases hcanonical : f.canonicalSuccs head with
  | none => rw [hcanonical] at h; exact absurd rfl h
  | some p =>
    obtain ⟨succ0, succ1⟩ := p
    simp only [hcanonical] at h
    dsimp only
    by_cases hpreds : (f.cfg.preds succ0).length ≠ 1 ∨ (f.cfg.preds succ1).length ≠ 1
    · exact absurd (if_pos hpreds) h
    · rw [if_neg hpreds] at h ⊢
      obtain ⟨hpreds0, hpreds1⟩ := not_or.mp hpreds
      by_cases hlast : f.cfg.succs succ0 ≠ []
      · exact absurd (if_pos hlast) h
      · rw [if_neg hlast] at h ⊢
        by_cases hphi : (f.instrs succ1).head?.any MachineInstr.isPHI = true
        · exact absurd (if_pos hphi) h
        · rw [if_neg hphi] at h ⊢
          split at h
          · rename_i mi honly
            by_cases hthrow : mi.opcode ≠ .THROW
            · exact absurd (if_pos hthrow) h
            · rw [if_neg hthrow] at h ⊢
              cases hanalyzed : f.analyzeBranch head with
              | none => rw [hanalyzed] at h; exact absurd rfl h
              | some br =>
                exact ⟨succ0, succ1, mi, br, ⟨hcanonical, not_not.mp hpreds0, not_not.mp hpreds1,
                  not_not.mp hlast, honly, not_not.mp hthrow, hanalyzed⟩, rfl⟩
          · exact absurd rfl h

/-- A branch that is analyzed and stands last is the one that is analyzed. -/
theorem Accepted.lastInstr {pre debug : List (MachineInstr Block)} {mi : MachineInstr Block}
    {br : Branch Block} (h : Accepted f head mi br) (hsplit : f.instrs head = pre ++ mi :: debug)
    (hdebug : ∀ d ∈ debug, d.opcode.isDebugInstr) :
    f.lastInstr head = some mi ∧ f.beforeLast head = pre := by
  have hmi : mi.opcode.isDebugInstr = false := by
    cases h <;> rfl
  rw [MachineFunction.lastInstr, beforeLast, hsplit, dropWhile_debug hdebug hmi]
  exact ⟨rfl, List.reverse_reverse pre⟩

/-- A conversion that does not assert has removed two explicit targets. -/
theorem targets_of_converted {mi : MachineInstr Block} {br : Branch Block}
    {g : MachineFunction Block} (h : f.convertBranch head succ0 succ1 mi br = .converted g) :
    ∃ x y, br.tbb = some x ∧ br.fbb = some y ∧ x ∈ f.cfg.succs head ∧
      y ∈ (f.cfg.succs head).erase x := by
  unfold convertBranch at h
  split at h
  · cases h
  · split at h
    · cases h
    · split at h
      · rename_i hremoved
        obtain ⟨succs, hx, hy⟩ := Option.bind_eq_some_iff.mp hremoved
        cases htbb : br.tbb with
        | none => rw [htbb] at hx; cases hx
        | some x =>
          cases hfbb : br.fbb with
          | none => rw [hfbb] at hy; cases hy
          | some y =>
            rw [htbb, removeSuccessor] at hx
            rw [hfbb, removeSuccessor] at hy
            split at hx
            · rename_i hmem
              obtain rfl := Option.some.inj hx
              split at hy
              · rename_i hmem'
                exact ⟨x, y, rfl, rfl, hmem, hmem'⟩
              · cases hy
            · cases hx
      · cases h

/-- The conditional throw in front of `succ1`. -/
def throwIf (id : ℕ) (inverted : ℤ) (c : RegisterOperand)
    (operands : List (MachineOperand Block)) : MachineInstr Block :=
  ⟨id, if inverted ≠ 0 then .THROWIFNOT else .THROWIF, .register c :: operands⟩

/-- The conversion of an `IFELSE` to the two successors. -/
theorem convertBranch_ifelse {mi : MachineInstr Block} (hthrow : mi.opcode = .THROW)
    {err : MachineOperand Block} {rest : List (MachineOperand Block)}
    (hoperands : mi.operands = err :: rest) {x y : Block} {c : RegisterOperand}
    (hsuccs : f.cfg.succs head = [succ0, succ1] ∨ f.cfg.succs head = [succ1, succ0])
    (hne : succ0 ≠ succ1) (htargets : x = succ0 ∧ y = succ1 ∨ x = succ1 ∧ y = succ0) :
    f.convertBranch head succ0 succ1 mi ⟨some x, some y, [.imm 0, .register c]⟩ =
      .converted (f.mergeSuccs head succ0 succ1
        (throwIf mi.id (if x = succ0 then 0 else 1) c (err :: rest))) := by
  have hremoved : ((removeSuccessor (f.cfg.succs head) (some x)).bind fun succs =>
      removeSuccessor succs (some y)) = some [] := by
    rcases htargets with ⟨rfl, rfl⟩ | ⟨rfl, rfl⟩ <;> rcases hsuccs with hsuccs | hsuccs <;>
      simp [removeSuccessor, hsuccs, hne, Ne.symm hne]
  have hpredicate (inverted : ℤ) : predicateInstruction mi [.imm inverted, .register c] =
      some (throwIf mi.id inverted c (err :: rest)) := by
    obtain ⟨id, opcode, operands⟩ := mi
    dsimp only at hthrow hoperands
    subst hthrow hoperands
    rfl
  unfold convertBranch
  by_cases hx : x = succ0
  · rw [if_neg (by rw [hx]; exact not_not.mpr rfl)]
    dsimp only
    rw [hpredicate, hremoved, if_pos hx]
  · rw [if_pos fun h => hx (Option.some.inj h)]
    show (match predicateInstruction mi [.imm 1, .register c] with
      | none => IfConversion.unchanged
      | some mi => _) = _
    rw [hpredicate, hremoved, if_neg hx]

/-- The execution of the head after the conversion. -/
theorem run_merged (κ : Register → Option Block) (ρ : ℕ → Register → ℤ)
    {pre debug : List (MachineInstr Block)} (hne0 : head ≠ succ0) (hne1 : head ≠ succ1)
    (hremoved : removeLastBranch (f.instrs head) = pre ++ debug)
    (hdebug : ∀ d ∈ debug, d.opcode.isDebugInstr) (mi : MachineInstr Block) :
    run κ ρ ((f.mergeSuccs head succ0 succ1 mi).instrs head) =
      andThen (run κ ρ pre) (run κ ρ (mi :: f.instrs succ1)) := by
  have hrun : run κ ρ ((f.mergeSuccs head succ0 succ1 mi).instrs head) =
      run κ ρ (removeLastBranch (f.instrs head) ++ mi :: f.instrs succ1) := by
    show run κ ρ (if head = succ0 ∨ head = succ1 then [] else _) = _
    rw [if_neg (not_or.mpr ⟨hne0, hne1⟩), if_pos rfl]
    split
    · exact run_updatePHIs _ _ _
    · rfl
  rw [hrun, hremoved, List.append_assoc, run_append, run_append, run_debug hdebug]
  rfl

end Convert

/-! ## The converted head -/

/-- The head ends in an `IFELSE` to its two successors, of which the first one only throws. -/
structure Branches (f : MachineFunction Block) (head succ0 succ1 : Block)
    (mi : MachineInstr Block) (err : MachineOperand Block) (rest : List (MachineOperand Block))
    (pre debug : List (MachineInstr Block)) (id : ℕ) (c : RegisterOperand) (x y : Block) :
    Prop where
  ends : EndsInIfelse f head pre debug id c x y
  targets : x = succ0 ∧ y = succ1 ∨ x = succ1 ∧ y = succ0
  ne : succ0 ≠ succ1
  ne0 : head ≠ succ0
  ne1 : head ≠ succ1
  only : f.instrs succ0 = [mi]
  throws : mi.opcode = .THROW
  operands : mi.operands = err :: rest
  ids : ∀ {b b' : Block} {mi mi' : MachineInstr Block}, mi ∈ f.instrs b → mi' ∈ f.instrs b' →
    mi.id = mi'.id → b = b'

section Branches

variable {f : MachineFunction Block} {head succ0 succ1 : Block}
  {mi : MachineInstr Block} {err : MachineOperand Block} {rest : List (MachineOperand Block)}
  {pre debug : List (MachineInstr Block)} {id : ℕ} {c : RegisterOperand} {x y : Block}

theorem Branches.mem_pre (h : Branches f head succ0 succ1 mi err rest pre debug id c x y)
    {m : MachineInstr Block} (hm : m ∈ pre) : m ∈ f.instrs head := by
  obtain ⟨t, e, rest, hinstrs, -⟩ := h.ends.instrs
  rw [hinstrs]
  exact List.mem_append_left _ hm

/-- The values at the instructions of `succ1` are taken from `ρ'`, and the condition of the throw
has the value that it has at the branch. -/
def mixed (f : MachineFunction Block) (succ1 : Block) (mi : MachineInstr Block) (id : ℕ)
    (ρ ρ' : ℕ → Register → ℤ) (i : ℕ) : Register → ℤ :=
  if (f.instrs succ1).any fun m => m.id = i then ρ' i else if i = mi.id then ρ id else ρ i

theorem any_id_eq_false (h : Branches f head succ0 succ1 mi err rest pre debug id c x y)
    {b : Block} (hb : b ≠ succ1) {m : MachineInstr Block} (hm : m ∈ f.instrs b) :
    ((f.instrs succ1).any fun m' => m'.id = m.id) = false := by
  rw [List.any_eq_false]
  intro m' hm' hid
  exact hb (h.ids hm hm' (of_decide_eq_true hid).symm)

theorem Branches.mem_throw (h : Branches f head succ0 succ1 mi err rest pre debug id c x y) :
    mi ∈ f.instrs succ0 := by
  rw [h.only]
  exact List.mem_singleton_self mi

theorem Branches.mixed_head (h : Branches f head succ0 succ1 mi err rest pre debug id c x y)
    {ρ ρ' : ℕ → Register → ℤ} {m : MachineInstr Block} (hm : m ∈ f.instrs head) :
    mixed f succ1 mi id ρ ρ' m.id = ρ m.id := by
  have hne : m.id ≠ mi.id := fun hid => h.ne0 (h.ids hm h.mem_throw hid)
  rw [mixed, any_id_eq_false h h.ne1 hm, if_neg Bool.false_ne_true, if_neg hne]

theorem Branches.mixed_throw (h : Branches f head succ0 succ1 mi err rest pre debug id c x y)
    (ρ ρ' : ℕ → Register → ℤ) : mixed f succ1 mi id ρ ρ' mi.id = ρ id := by
  rw [mixed, any_id_eq_false h h.ne h.mem_throw, if_neg Bool.false_ne_true, if_pos rfl]

theorem run_mixed_succ (f : MachineFunction Block) (succ1 : Block) (mi : MachineInstr Block)
    (id : ℕ) (ρ ρ' : ℕ → Register → ℤ) :
    run f.continuation (mixed f succ1 mi id ρ ρ') (f.instrs succ1) =
      run f.continuation ρ' (f.instrs succ1) := by
  refine run_congr fun m hm => ?_
  have hany : ((f.instrs succ1).any fun m' => m'.id = m.id) = true :=
    List.any_eq_true.mpr ⟨m, hm, decide_eq_true rfl⟩
  rw [mixed, if_pos hany]

variable [DecidableEq Block]

/-- The head after the conversion. -/
abbrev mergedHead (f : MachineFunction Block) (head succ0 succ1 : Block)
    (mi : MachineInstr Block) (err : MachineOperand Block) (rest : List (MachineOperand Block))
    (c : RegisterOperand) (x : Block) : MachineFunction Block :=
  f.mergeSuccs head succ0 succ1 (throwIf mi.id (if x = succ0 then 0 else 1) c (err :: rest))

/-- The branch leads to the throw exactly if the condition of the throw holds. -/
theorem Branches.target_eq (h : Branches f head succ0 succ1 mi err rest pre debug id c x y)
    (v : ℤ) : (if v ≠ 0 then x else y) = if (v ≠ 0 ↔ x = succ0) then succ0 else succ1 := by
  have hne := h.ne
  rcases h.targets with ⟨rfl, rfl⟩ | ⟨rfl, rfl⟩
  · by_cases hv : v = 0
    · simp [hv]
    · simp [hv]
  · by_cases hv : v = 0
    · simp [hv, Ne.symm hne]
    · simp [hv, Ne.symm hne]

theorem Branches.run_merged (h : Branches f head succ0 succ1 mi err rest pre debug id c x y)
    (ρ : ℕ → Register → ℤ) :
    run f.continuation ρ ((f.mergedHead head succ0 succ1 mi err rest c x).instrs head) =
      andThen (run f.continuation ρ pre)
        (if (ρ mi.id c.reg ≠ 0 ↔ x = succ0) then ([], .throws err)
          else run f.continuation ρ (f.instrs succ1)) := by
  rw [MachineFunction.run_merged _ _ h.ne0 h.ne1 h.ends.removed h.ends.isDebug, throwIf,
    run_throwif]
  congr 1
  refine if_congr ?_ rfl rfl
  by_cases hx : x = succ0
  · simp [hx]
  · simp [hx]

/-- The head leads to its successor `b` if nothing ends the execution before the branch. -/
theorem Branches.exec_head (h : Branches f head succ0 succ1 mi err rest pre debug id c x y)
    {ρ : ℕ → Register → ℤ} (hfalls : (run f.continuation ρ pre).2.falls = true) :
    f.exec f.continuation ρ head = ((run f.continuation ρ pre).1,
      .control (.block (if (ρ id c.reg ≠ 0 ↔ x = succ0) then succ0 else succ1))) := by
  rw [exec, h.ends.run, andThen, if_pos hfalls, List.append_nil, h.target_eq]
  rfl

theorem Branches.exec_throws (h : Branches f head succ0 succ1 mi err rest pre debug id c x y)
    (ρ : ℕ → Register → ℤ) : f.exec f.continuation ρ succ0 = ([], .throws err) := by
  have hthrown : thrown (ρ mi.id) mi = some err := by
    obtain ⟨i, opcode, operands⟩ := mi
    have hop := h.throws
    have hoperands := h.operands
    dsimp only at hop hoperands
    subst hop hoperands
    rfl
  rw [exec, h.only, run_cons, Ending.step, hthrown]
  rfl

/-- If the head leads to `succ1` under `ρ`, the converted head executes `succ1` as under `ρ'`. -/
theorem Branches.run_mixed (h : Branches f head succ0 succ1 mi err rest pre debug id c x y)
    {ρ : ℕ → Register → ℤ} (ρ' : ℕ → Register → ℤ)
    (hfalls : (run f.continuation ρ pre).2.falls = true)
    (htarget : ¬ (ρ id c.reg ≠ 0 ↔ x = succ0)) :
    run f.continuation (mixed f succ1 mi id ρ ρ')
        ((f.mergedHead head succ0 succ1 mi err rest c x).instrs head) =
      ((run f.continuation ρ pre).1 ++ (run f.continuation ρ' (f.instrs succ1)).1,
        (run f.continuation ρ' (f.instrs succ1)).2) := by
  rw [h.run_merged, run_congr fun m hm => h.mixed_head (h.mem_pre hm), h.mixed_throw,
    if_neg htarget, run_mixed_succ, andThen, if_pos hfalls]

/-- Falling through, the converted head comes to the same block as `succ1`. -/
def FollowsSame (f : MachineFunction Block) (head succ0 succ1 : Block) : Prop :=
  (∃ ρ, (run f.continuation ρ (f.instrs succ1)).2 = .control .fallThrough) →
    f.followingMerged head succ0 succ1 = (f.following succ1).head?

/-- The converted head resolves its end as `succ1` did. -/
theorem FollowsSame.resolve (h : f.FollowsSame head succ0 succ1) (ρ : ℕ → Register → ℤ) :
    (run f.continuation ρ (f.instrs succ1)).2.resolve (f.followingMerged head succ0 succ1) =
      (run f.continuation ρ (f.instrs succ1)).2.resolve (f.following succ1).head? := by
  by_cases hfalls : (run f.continuation ρ (f.instrs succ1)).2.falls = true
  · rw [h ⟨ρ, Ending.falls_iff.mp hfalls⟩]
  · rw [Bool.not_eq_true] at hfalls
    rw [Ending.resolve_of_not_falls hfalls, Ending.resolve_of_not_falls hfalls]

theorem Branches.same (h : Branches f head succ0 succ1 mi err rest pre debug id c x y)
    (honly : ∀ ρ b, (run f.continuation ρ pre).2 ≠ .control (.block b))
    (hfollows : f.FollowsSame head succ0 succ1) {ρ : ℕ → Register → ℤ}
    (hcond : ρ mi.id = ρ id) :
    (f.mergedHead head succ0 succ1 mi err rest c x).exec f.continuation ρ head =
      f.execThrough f.continuation ρ head := by
  have hexec (g : MachineFunction Block) : g.exec f.continuation ρ head =
      ((run f.continuation ρ (g.instrs head)).1,
        (run f.continuation ρ (g.instrs head)).2.resolve (g.following head).head?) := rfl
  rw [hexec, h.run_merged, execThrough]
  by_cases hfalls : (run f.continuation ρ pre).2.falls = true
  · rw [h.exec_head hfalls, hcond, andThen, if_pos hfalls]
    by_cases hthrows : ρ id c.reg ≠ 0 ↔ x = succ0
    · -- the exception is thrown
      rw [if_pos hthrows, if_pos hthrows]
      show _ = ((run f.continuation ρ pre).1 ++ (f.exec f.continuation ρ succ0).1,
        (f.exec f.continuation ρ succ0).2)
      rw [h.exec_throws]
      rfl
    · -- the other successor is executed
      rw [if_neg hthrows, if_neg hthrows]
      exact congrArg (Prod.mk _) (hfollows.resolve ρ)
  · -- the execution ends in front of the branch, and not at a block
    rw [Bool.not_eq_true] at hfalls
    have hend : f.exec f.continuation ρ head = run f.continuation ρ pre := by
      rw [exec, h.ends.run, andThen, hfalls, if_neg Bool.false_ne_true,
        Ending.resolve_of_not_falls hfalls]
    have htarget : (run f.continuation ρ pre).2.target = none := by
      have hnot := honly ρ
      cases hend' : (run f.continuation ρ pre).2 with
      | control t =>
        cases t with
        | block b => exact absurd hend' (hnot b)
        | _ => rfl
      | throws _ => rfl
    rw [hend, htarget, andThen, hfalls, if_neg Bool.false_ne_true,
      Ending.resolve_of_not_falls hfalls]

theorem exec_eq (g : MachineFunction Block) (κ : Register → Option Block)
    (ρ : ℕ → Register → ℤ) (b : Block) : g.exec κ ρ b =
      ((run κ ρ (g.instrs b)).1, (run κ ρ (g.instrs b)).2.resolve (g.following b).head?) := rfl

/-- An execution that ends at a block in front of the branch. -/
theorem Branches.exec_of_block (h : Branches f head succ0 succ1 mi err rest pre debug id c x y)
    {ρ : ℕ → Register → ℤ} {b : Block}
    (hend : (run f.continuation ρ pre).2 = .control (.block b)) :
    (f.exec f.continuation ρ head).2 = .control (.block b) ∧
      ((f.mergedHead head succ0 succ1 mi err rest c x).exec f.continuation ρ head).2 =
        .control (.block b) := by
  have hfalls : (run f.continuation ρ pre).2.falls = false := by
    rw [hend]
    rfl
  rw [exec_eq, exec_eq, h.ends.run, h.run_merged, andThen, andThen, hfalls,
    if_neg Bool.false_ne_true, if_neg Bool.false_ne_true, Ending.resolve_of_not_falls hfalls,
    Ending.resolve_of_not_falls hfalls]
  exact ⟨hend, hend⟩

/-- The head may lead to the successor that is kept. -/
theorem Branches.exists_target (h : Branches f head succ0 succ1 mi err rest pre debug id c x y)
    (honly : ∀ ρ b, (run f.continuation ρ pre).2 ≠ .control (.block b))
    (hexact : f.SuccessorsExact f.continuation head) (hmem : succ1 ∈ f.cfg.succs head) :
    ∃ ρ : ℕ → Register → ℤ, (run f.continuation ρ pre).2.falls = true ∧
      ¬ (ρ id c.reg ≠ 0 ↔ x = succ0) := by
  obtain ⟨ρ, hρ⟩ := (hexact succ1).mp hmem
  refine ⟨ρ, ?_⟩
  by_cases hfalls : (run f.continuation ρ pre).2.falls = true
  · refine ⟨hfalls, fun hthrows => h.ne ?_⟩
    rw [h.exec_head hfalls, if_pos hthrows] at hρ
    cases hρ
    rfl
  · rw [Bool.not_eq_true] at hfalls
    rw [exec, h.ends.run, andThen, hfalls, if_neg Bool.false_ne_true,
      Ending.resolve_of_not_falls hfalls] at hρ
    exact absurd hρ (honly ρ succ1)

theorem Branches.succs_merged (h : Branches f head succ0 succ1 mi err rest pre debug id c x y) :
    (f.mergedHead head succ0 succ1 mi err rest c x).cfg.succs head = f.cfg.succs succ1 := by
  show (if head = succ0 ∨ head = succ1 then [] else _) = _
  rw [if_neg (not_or.mpr ⟨h.ne0, h.ne1⟩), if_pos rfl]

theorem Branches.exact (h : Branches f head succ0 succ1 mi err rest pre debug id c x y)
    (honly : ∀ ρ b, (run f.continuation ρ pre).2 ≠ .control (.block b))
    (hfollows : f.FollowsSame head succ0 succ1)
    (hexact : ∀ b, f.SuccessorsExact f.continuation b) (hmem : succ1 ∈ f.cfg.succs head) :
    (f.mergedHead head succ0 succ1 mi err rest c x).SuccessorsExact f.continuation head := by
  intro next
  rw [h.succs_merged, hexact succ1 next]
  constructor
  · rintro ⟨ρ', hρ'⟩
    obtain ⟨ρ, hfalls, htarget⟩ := h.exists_target honly (hexact head) hmem
    refine ⟨mixed f succ1 mi id ρ ρ', ?_⟩
    rw [exec_eq, h.run_mixed ρ' hfalls htarget]
    exact (hfollows.resolve ρ').trans hρ'
  · rintro ⟨ρ, hρ⟩
    refine ⟨ρ, ?_⟩
    rw [exec_eq, h.run_merged, andThen] at hρ
    by_cases hfalls : (run f.continuation ρ pre).2.falls = true
    · rw [if_pos hfalls] at hρ
      split at hρ
      · cases hρ
      · exact (hfollows.resolve ρ).symm.trans hρ
    · rw [if_neg hfalls] at hρ
      rw [Bool.not_eq_true] at hfalls
      rw [Ending.resolve_of_not_falls hfalls] at hρ
      exact absurd hρ (honly ρ next)

/-- A conversion that is right comes to the same block behind `succ1`. -/
theorem Branches.followsSame (h : Branches f head succ0 succ1 mi err rest pre debug id c x y)
    (honly : ∀ ρ b, (run f.continuation ρ pre).2 ≠ .control (.block b))
    (hexact : f.SuccessorsExact f.continuation head)
    (hsuccs : f.cfg.succs head = [succ0, succ1] ∨ f.cfg.succs head = [succ1, succ0])
    (hsound : f.ConversionSound f.continuation head
      (f.mergedHead head succ0 succ1 mi err rest c x)) :
    f.FollowsSame head succ0 succ1 := by
  rintro ⟨ρ', hρ'⟩
  have hmem : succ1 ∈ f.cfg.succs head := by
    rcases hsuccs with hsuccs | hsuccs <;> simp [hsuccs]
  obtain ⟨ρ, hfalls, htarget⟩ := h.exists_target honly hexact hmem
  obtain ⟨br, hlast, hid⟩ := h.ends.last
  obtain ⟨t, e, rest', hinstrs, -⟩ := h.ends.instrs
  have hbr : mixed f succ1 mi id ρ ρ' id = ρ id := by
    refine h.mixed_head (m := ⟨id, .IFELSE, .register c :: .register t :: .register e :: rest'⟩) ?_
    rw [hinstrs]
    exact List.mem_append_right _ List.mem_cons_self
  have hsame := hsound.same (mixed f succ1 mi id ρ ρ') br hlast (by
    rintro s hs m hm hop
    rw [hid, hbr]
    have hcases : s = succ0 ∨ s = succ1 := by
      rcases hsuccs with hsuccs | hsuccs <;> rw [hsuccs] at hs <;> simp at hs <;> tauto
    rcases hcases with rfl | rfl
    · obtain rfl : mi = m := (List.cons.inj (h.only.symm.trans hm)).1
      exact h.mixed_throw ρ ρ'
    · have hnot := falls_throw f.continuation ρ' hop
      rw [← hm, hρ'] at hnot
      cases hnot)
  have hfalls' : (run f.continuation (mixed f succ1 mi id ρ ρ') pre).2.falls = true := by
    rw [run_congr fun m hm => h.mixed_head (h.mem_pre hm)]
    exact hfalls
  have hthrough : (f.execThrough f.continuation (mixed f succ1 mi id ρ ρ') head).2 =
      (run f.continuation ρ' (f.instrs succ1)).2.resolve (f.following succ1).head? := by
    rw [execThrough, h.exec_head hfalls', hbr, if_neg htarget]
    show (f.exec f.continuation _ succ1).2 = _
    rw [exec_eq, run_mixed_succ]
  have hend := congrArg Prod.snd hsame
  rw [hthrough, exec_eq, h.run_mixed ρ' hfalls htarget, hρ'] at hend
  exact resolve_fallThrough_inj hend

end Branches

/-! ## When the conversion is right -/

section Sound

variable {f : MachineFunction Block} {head succ0 succ1 : Block}
  {mi last : MachineInstr Block} {br : Branch Block}

theorem mem_of_lastInstr (h : f.lastInstr head = some last) : last ∈ f.instrs head := by
  have hmem := List.mem_of_mem_head? h
  exact List.mem_reverse.mp ((List.dropWhile_suffix _).subset hmem)

variable [DecidableEq Block]

/-- The branch that is analyzed is an `IFELSE`, or has one explicit target. -/
theorem Candidate.cases (h : Candidate f head succ0 succ1 mi br) (hf : f.WellFormedAt head)
    (hlast : f.lastInstr head = some last)
    (hop : last.opcode = .IFELSE ∨ last.opcode = .IFJMP ∨ last.opcode = .IFNOTJMP) :
    br.fbb = none ∧ last.opcode ≠ .IFELSE ∨
      last.opcode = .IFELSE ∧ ∃ pre debug id c x y, EndsInIfelse f head pre debug id c x y ∧
        br = if y = head then ⟨some y, some x, [.imm 1, .register c]⟩
          else ⟨some x, some y, [.imm 0, .register c]⟩ := by
  rcases analyzeBranch_cases hf.last h.analyzed with ⟨-, hnone⟩ | ⟨pre, mi', debug, hsplit, hdebug,
    hremoved, haccepted⟩
  · -- the branch is a terminator
    have hterm : last.opcode.isTerminator := by
      rcases hop with hop | hop | hop <;> rw [hop] <;> rfl
    have hmem : last ∈ terminators (f.instrs head) :=
      List.mem_filter.mpr ⟨mem_of_lastInstr hlast, hterm⟩
    rw [hnone] at hmem
    exact absurd hmem List.not_mem_nil
  · obtain ⟨hlast', hbefore⟩ := haccepted.lastInstr hsplit hdebug
    obtain rfl := Option.some.inj (hlast.symm.trans hlast')
    have hbranch := haccepted.isBranch
    have hmem : last ∈ f.instrs head := mem_of_lastInstr hlast
    cases haccepted with
    | jmpx _ => rcases hop with hop | hop | hop <;> cases hop
    | ifjmp _ => exact .inl ⟨rfl, nofun⟩
    | ifnotjmp _ => exact .inl ⟨rfl, nofun⟩
    | @ifelse id c t e rest x y ht he =>
      obtain ⟨c, rfl, -⟩ := hf.operands _ hmem hbranch c List.mem_cons_self
      exact .inr ⟨rfl, pre, debug, id, c, x, y,
        ⟨⟨t, e, rest, hsplit, ht, he⟩, hdebug, hremoved, hbefore, _, hlast, rfl⟩, rfl⟩

/-- The exception of the throw that is made conditional. -/
theorem exists_operands {inverted : ℤ} {pred : MachineOperand Block}
    (hcond : br.cond = [.imm inverted, pred])
    (h : f.convertBranch head succ0 succ1 mi br ≠ .unchanged) :
    ∃ err rest, mi.operands = err :: rest := by
  cases hoperands : mi.operands with
  | cons err rest => exact ⟨err, rest, rfl⟩
  | nil =>
    have hnone (v : ℤ) : predicateInstruction mi [.imm v, pred] = none := by
      unfold predicateInstruction
      rw [hoperands]
      cases mi.opcode <;> rfl
    refine absurd ?_ h
    unfold convertBranch
    rw [hcond]
    by_cases hx : br.tbb ≠ some succ0
    · rw [if_pos hx]
      show (match predicateInstruction mi [.imm (if inverted = 0 then 1 else 0), pred] with
        | none => IfConversion.unchanged
        | some mi => _) = _
      rw [hnone]
    · rw [if_neg hx]
      dsimp only
      rw [hnone]

/-- **When the conversion is right**: of the blocks that end in a conditional branch and are
rewritten, those with an `IFELSE`. The successor that is kept must not fall through to a block
that does not follow the head. -/
theorem tryConvertIf_sound_iff (hf : f.WellFormed) (hat : f.WellFormedAt head)
    (hreach : ∀ b, f.cfg.Reachable b) (hentry : f.cfg.preds f.cfg.entry = [])
    (hexact : ∀ b, f.SuccessorsExact f.continuation b) (hnodup : (f.cfg.succs head).Nodup)
    (hlast : f.lastInstr head = some last)
    (hop : last.opcode = .IFELSE ∨ last.opcode = .IFJMP ∨ last.opcode = .IFNOTJMP)
    (hconv : f.tryConvertIf head ≠ .unchanged) :
    (∃ g, f.tryConvertIf head = .converted g ∧ f.ConversionSound f.continuation head g) ↔
      f.Convertible head := by
  obtain ⟨succ0, succ1, mi, br, hcand, hresult⟩ := exists_candidate hconv
  have hsuccs := succs_of_canonicalSuccs hcand.canonical
  have hmem0 : succ0 ∈ f.cfg.succs head := by
    rcases hsuccs with hsuccs | hsuccs <;> simp [hsuccs]
  have hmem1 : succ1 ∈ f.cfg.succs head := by
    rcases hsuccs with hsuccs | hsuccs <;> simp [hsuccs]
  have hmem {b : Block} (hb : b ∈ f.cfg.succs head) : b = succ0 ∨ b = succ1 := by
    rcases hsuccs with hsuccs | hsuccs <;> rw [hsuccs] at hb <;> simp at hb <;> tauto
  have hne : succ0 ≠ succ1 := by
    rcases hsuccs with hsuccs | hsuccs <;> rw [hsuccs] at hnodup <;> simp at hnodup <;> tauto
  obtain ⟨hpreds0, hne0⟩ := ne_of_single hreach hentry hmem0 hcand.single0
  obtain ⟨hpreds1, hne1⟩ := ne_of_single hreach hentry hmem1 hcand.single1
  rcases hcand.cases hat hlast hop with ⟨hfbb, hnot⟩ | ⟨hifelse, pre, debug, id, c, x, y, hends, hbr⟩
  · -- a target that does not exist is removed
    constructor
    · rintro ⟨g, hg, -⟩
      obtain ⟨-, y, -, hy, -⟩ := targets_of_converted (hresult.symm.trans hg)
      rw [hfbb] at hy
      cases hy
    · rintro ⟨⟨br', hbr', hop'⟩, -, -⟩
      obtain rfl := Option.some.inj (hlast.symm.trans hbr')
      exact absurd hop' hnot
  · -- if the targets are the two successors, the head is converted
    have hconverted (htargets : x = succ0 ∧ y = succ1 ∨ x = succ1 ∧ y = succ0) :
        ∃ err rest, Branches f head succ0 succ1 mi err rest pre debug id c x y ∧
          f.tryConvertIf head = .converted (f.mergedHead head succ0 succ1 mi err rest c x) := by
      have hy : y ≠ head := by
        rcases htargets with ⟨-, rfl⟩ | ⟨-, rfl⟩
        · exact hne1
        · exact hne0
      rw [if_neg hy] at hbr
      obtain ⟨err, rest, hoperands⟩ := exists_operands (congrArg Branch.cond hbr)
        (hresult ▸ hconv)
      refine ⟨err, rest, ⟨hends, htargets, hne, Ne.symm hne0, Ne.symm hne1, hcand.only,
        hcand.throws, hoperands, fun hm hm' hid => (hf.eq_of_id hm hm' hid).1⟩, ?_⟩
      rw [hresult, hbr]
      exact convertBranch_ifelse hcand.throws hoperands hsuccs hne htargets
    constructor
    · rintro ⟨g, hg, hsound⟩
      obtain ⟨x', y', hx', hy', hmemx, hmemy⟩ := targets_of_converted (hresult.symm.trans hg)
      have hy : y ≠ head := by
        intro hy
        rw [hbr, if_pos hy] at hx'
        obtain rfl := Option.some.inj hx'
        rcases hmem hmemx with h | h
        · exact hne0 (h.symm.trans hy)
        · exact hne1 (h.symm.trans hy)
      rw [hbr, if_neg hy] at hx' hy'
      obtain rfl := Option.some.inj hx'
      obtain rfl := Option.some.inj hy'
      have hxy : y ≠ x := ((List.Nodup.mem_erase_iff hnodup).mp hmemy).1
      have htargets : x = succ0 ∧ y = succ1 ∨ x = succ1 ∧ y = succ0 := by
        rcases hmem hmemx with hx | hx <;> rcases hmem (List.mem_of_mem_erase hmemy) with hy | hy
        · exact absurd (hy.trans hx.symm) hxy
        · exact .inl ⟨hx, hy⟩
        · exact .inr ⟨hx, hy⟩
        · exact absurd (hy.trans hx.symm) hxy
      obtain ⟨err, rest, hbranches, hg'⟩ := hconverted htargets
      obtain rfl : _ = g := IfConversion.converted.inj (hg'.symm.trans hg)
      have honly : ∀ ρ b, (run f.continuation ρ pre).2 ≠ .control (.block b) := by
        intro ρ b hend
        obtain ⟨hexec, hexec'⟩ := hbranches.exec_of_block hend
        have hb := (hexact head b).mpr ⟨ρ, hexec⟩
        have hb' := (hsound.exact b).mpr ⟨ρ, hexec'⟩
        rw [hbranches.succs_merged] at hb'
        -- the head is the only predecessor of its successors
        have hpred := (f.cfg.mem_preds succ1 b).mpr hb'
        rcases hmem hb with rfl | rfl
        · rw [hpreds0, List.mem_singleton] at hpred
          exact hne1 hpred
        · rw [hpreds1, List.mem_singleton] at hpred
          exact hne1 hpred
      have hfollows := hbranches.followsSame honly (hexact head) hsuccs hsound
      refine ⟨⟨last, hlast, hifelse⟩, hends.before ▸ honly, fun s0 s1 hcanonical => ?_⟩
      obtain ⟨rfl, rfl⟩ := Prod.mk.inj (Option.some.inj (hcand.canonical.symm.trans hcanonical))
      exact hfollows
    · rintro ⟨-, honly, hfollows⟩
      rw [hends.before] at honly
      -- the two successors are reached over the branch alone
      have hreached {b : Block} (hb : b ∈ f.cfg.succs head) : b = x ∨ b = y := by
        obtain ⟨ρ, hρ⟩ := (hexact head b).mp hb
        by_cases hfalls : (run f.continuation ρ pre).2.falls = true
        · rw [exec, hends.run, andThen, if_pos hfalls] at hρ
          have htarget : (if ρ id c.reg ≠ 0 then x else y) = b :=
            Transfer.block.inj (Ending.control.inj hρ)
          split at htarget
          · exact .inl htarget.symm
          · exact .inr htarget.symm
        · rw [Bool.not_eq_true] at hfalls
          rw [exec, hends.run, andThen, hfalls, if_neg Bool.false_ne_true,
            Ending.resolve_of_not_falls hfalls] at hρ
          exact absurd hρ (honly ρ b)
      have htargets : x = succ0 ∧ y = succ1 ∨ x = succ1 ∧ y = succ0 := by
        rcases hreached hmem0 with h0 | h0 <;> rcases hreached hmem1 with h1 | h1
        · exact absurd (h0.trans h1.symm) hne
        · exact .inl ⟨h0.symm, h1.symm⟩
        · exact .inr ⟨h1.symm, h0.symm⟩
        · exact absurd (h0.trans h1.symm) hne
      obtain ⟨err, rest, hbranches, hg⟩ := hconverted htargets
      have hsame := hfollows succ0 succ1 hcand.canonical
      obtain ⟨br', hbr', hid⟩ := hends.last
      refine ⟨_, hg, fun ρ br'' hbr'' hcond => ?_, hbranches.exact honly hsame hexact hmem1⟩
      obtain rfl := Option.some.inj (hbr'.symm.trans hbr'')
      exact hbranches.same honly hsame
        ((hcond succ0 hmem0 mi hcand.only hcand.throws).trans (congrArg ρ hid))

/-- Block `0` leads to block `2`, which throws, or to block `1`. -/
def throwBranch (head : List (MachineInstr (Fin 3))) : MachineFunction (Fin 3) where
  cfg :=
    { entry := 0
      succs := fun | 0 => [2, 1] | 1 => [] | 2 => []
      preds := fun | 0 => [] | 1 => [0] | 2 => [0]
      mem_preds := by decide }
  layout := [0, 1, 2]
  instrs
    | 0 => head
    | 1 => [⟨8, .other 0 true true, []⟩]
    | 2 => [⟨9, .THROW, [.imm 42]⟩]
  nextId := 10
  numVirtRegs := 3

/-- Both targets are explicit. -/
def throwIfelse : MachineFunction (Fin 3) :=
  throwBranch [⟨0, .PUSHCONT_MBB, [.register ⟨2 ^ 31, true, false, false, false⟩, .mbb 2, .imm 0]⟩,
    ⟨1, .PUSHCONT_MBB, [.register ⟨2 ^ 31 + 1, true, false, false, false⟩, .mbb 1, .imm 0]⟩,
    ⟨2, .IFELSE, [.register ⟨2 ^ 31 + 2, false, false, false, false⟩,
      .register ⟨2 ^ 31, false, false, false, false⟩,
      .register ⟨2 ^ 31 + 1, false, false, false, false⟩]⟩]

/-- The other successor is the block that follows. -/
def throwIfjmp : MachineFunction (Fin 3) :=
  throwBranch [⟨0, .PUSHCONT_MBB, [.register ⟨2 ^ 31, true, false, false, false⟩, .mbb 2, .imm 0]⟩,
    ⟨2, .IFJMP, [.register ⟨2 ^ 31 + 2, false, false, false, false⟩,
      .register ⟨2 ^ 31, false, false, false, false⟩]⟩]

theorem throwBranch_reachable (head : List (MachineInstr (Fin 3))) (b : Fin 3) :
    (throwBranch head).cfg.Reachable b := by
  match b with
  | 0 => exact Relation.ReflTransGen.refl
  | 1 => exact Relation.ReflTransGen.single (List.mem_cons_of_mem _ List.mem_cons_self)
  | 2 => exact Relation.ReflTransGen.single List.mem_cons_self

/-- The head leads to block `2` or to block `1`. -/
theorem throwBranch_exact {head : List (MachineInstr (Fin 3))} {κ : Register → Option (Fin 3)}
    (hexec : ∀ ρ : ℕ → Register → ℤ, ((throwBranch head).exec κ ρ 0).2 =
      .control (.block (if ρ 2 (2 ^ 31 + 2) ≠ 0 then 2 else 1))) (b : Fin 3) :
    (throwBranch head).SuccessorsExact κ b := by
  intro next
  match b with
  | 0 =>
    constructor
    · intro hnext
      have hcases : next = 2 ∨ next = 1 := by simpa [throwBranch] using hnext
      rcases hcases with rfl | rfl
      · exact ⟨fun _ _ => 1, (hexec _).trans rfl⟩
      · exact ⟨fun _ _ => 0, (hexec _).trans rfl⟩
    · rintro ⟨ρ, hρ⟩
      have hnext := Transfer.block.inj (Ending.control.inj ((hexec ρ).symm.trans hρ))
      split at hnext
      · exact hnext ▸ List.mem_cons_self
      · exact hnext ▸ List.mem_cons_of_mem _ List.mem_cons_self
  | 1 =>
    refine ⟨fun h => absurd h List.not_mem_nil, ?_⟩
    rintro ⟨ρ, hρ⟩
    cases hρ
  | 2 =>
    refine ⟨fun h => absurd h List.not_mem_nil, ?_⟩
    rintro ⟨ρ, hρ⟩
    cases hρ

theorem throwIfelse_ends : EndsInIfelse throwIfelse 0
    [⟨0, .PUSHCONT_MBB, [.register ⟨2 ^ 31, true, false, false, false⟩, .mbb 2, .imm 0]⟩,
      ⟨1, .PUSHCONT_MBB, [.register ⟨2 ^ 31 + 1, true, false, false, false⟩, .mbb 1, .imm 0]⟩]
    [] 2 ⟨2 ^ 31 + 2, false, false, false, false⟩ 2 1 where
  instrs := ⟨_, _, [], rfl, rfl, rfl⟩
  isDebug := nofun
  removed := rfl
  before := rfl
  last := ⟨_, rfl, rfl⟩

theorem throwIfelse_exact (b : Fin 3) :
    throwIfelse.SuccessorsExact throwIfelse.continuation b := by
  refine throwBranch_exact (fun ρ => ?_) b
  show ((run throwIfelse.continuation ρ (throwIfelse.instrs 0)).2.resolve (some 1)) = _
  rw [throwIfelse_ends.run]
  rfl

theorem throwIfjmp_exact (b : Fin 3) :
    throwIfjmp.SuccessorsExact throwIfjmp.continuation b := by
  refine throwBranch_exact (fun ρ => ?_) b
  have hrun : (run throwIfjmp.continuation ρ (throwIfjmp.instrs 0)).2 =
      .control (if ρ 2 (2 ^ 31 + 2) ≠ 0 then .block 2 else .fallThrough) := by
    have hstep : Ending.step throwIfjmp.continuation (ρ 2) ⟨2, .IFJMP,
        [.register ⟨2 ^ 31 + 2, false, false, false, false⟩,
          .register ⟨2 ^ 31, false, false, false, false⟩]⟩ =
        .control (if ρ 2 (2 ^ 31 + 2) ≠ 0 then .block 2 else .fallThrough) := rfl
    show (run throwIfjmp.continuation ρ ([⟨0, .PUSHCONT_MBB, _⟩] ++ [⟨2, .IFJMP, _⟩])).2 = _
    rw [run_append, andThen, if_pos (by rfl)]
    dsimp only
    rw [run_cons, hstep]
    by_cases hc : ρ 2 (2 ^ 31 + 2) ≠ 0
    · rw [if_pos hc]
      rfl
    · rw [if_neg hc]
      rfl
  show ((run throwIfjmp.continuation ρ (throwIfjmp.instrs 0)).2.resolve (some 1)) = _
  rw [hrun]
  split <;> rfl

theorem throwBranch_wellFormedAt {head : List (MachineInstr (Fin 3))}
    (hlast : TerminatorsLast head)
    (huses : ∀ mi ∈ head, mi.opcode.isBranch → mi.operands.all fun
      | .register r => !r.isDef
      | _ => false)
    (hfresh : ∀ mi ∈ head, mi.operands.all fun
      | .register r => r.reg < 2 ^ 31 + 3
      | _ => true) : (throwBranch head).WellFormedAt 0 where
  mem := List.mem_cons_self
  last := hlast
  operands mi hmi hbranch op hop := by
    have huse := List.all_eq_true.mp (huses mi hmi hbranch) op hop
    cases op with
    | register r => exact ⟨r, rfl, by simpa using huse⟩
    | _ => cases huse
  fresh b mi hmi r hr := by
    match b with
    | 0 => exact of_decide_eq_true (List.all_eq_true.mp (hfresh mi hmi) _ hr)
    | 1 =>
      obtain rfl := List.mem_singleton.mp hmi
      exact absurd hr List.not_mem_nil
    | 2 =>
      obtain rfl := List.mem_singleton.mp hmi
      cases List.mem_singleton.mp hr

theorem tryConvertIf_throwIfelse : ∃ g, throwIfelse.tryConvertIf 0 = .converted g ∧
    throwIfelse.ConversionSound throwIfelse.continuation 0 g := by
  refine (tryConvertIf_sound_iff ⟨by decide, by decide, by decide⟩
    (throwBranch_wellFormedAt (by decide) (by decide) (by decide)) (throwBranch_reachable _) rfl
    throwIfelse_exact (by decide) rfl (.inl rfl) nofun).mpr
    ⟨⟨_, rfl, rfl⟩, fun ρ b hb => ?_, fun succ0 succ1 hcanonical => ?_⟩
  · cases hb
  · obtain ⟨rfl, rfl⟩ := Prod.mk.inj (Option.some.inj hcanonical)
    rintro ⟨ρ, hρ⟩
    cases hρ

/-- A block that ends in an `IFJMP`: the pass looks for the missing target among the successors. -/
theorem tryConvertIf_throwIfjmp :
    throwIfjmp.WellFormed ∧ throwIfjmp.WellFormedAt 0 ∧ (∀ b, throwIfjmp.cfg.Reachable b) ∧
      throwIfjmp.cfg.preds throwIfjmp.cfg.entry = [] ∧
      (∀ b, throwIfjmp.SuccessorsExact throwIfjmp.continuation b) ∧
      (∃ br, throwIfjmp.lastInstr 0 = some br ∧ br.opcode = .IFJMP) ∧
      throwIfjmp.tryConvertIf 0 = .asserts ∧
      ¬ ∃ g, throwIfjmp.tryConvertIf 0 = .converted g ∧
        throwIfjmp.ConversionSound throwIfjmp.continuation 0 g :=
  ⟨⟨by decide, by decide, by decide⟩,
    throwBranch_wellFormedAt (by decide) (by decide) (by decide), throwBranch_reachable _, rfl,
    throwIfjmp_exact, ⟨_, rfl, rfl⟩, rfl, fun ⟨_, hg, _⟩ => nomatch hg⟩

end Sound

end MachineFunction

end TVMCompiler
