import TVMCompiler.Lib.Simulation
import TVMCompiler.Machine.StackForm
import TVMCompiler.StackModel.Roads

/-!
# Machine functions in stack form

The code of a block in stack form, and what it does when it is written out. A continuation that
`PUSHCONT_MBB` pushes is written out as the code of its block and of the blocks that this one falls
through to.

## Main definitions

* `StackFunction`: the blocks of a function with their code
* `StackFunction.getFallThrough`: `MachineBasicBlock::getFallThrough`
* `StackFunction.expand`: the code of a continuation
* `StackFunction.step`: a step of the execution

## Main results

* `fallThroughChain_eq`, `expand_eq`: a block, and what is behind it
* `fallThrough_induction`: induction along the fall-through
* `notMem_chain_layoutSuccessor`: the fall-through does not go back
-/

namespace TVMCompiler

open Lib

variable {Block Data : Type}

namespace StackInstr

def isTerminator : StackInstr Block → Bool
  | JMPX_S => true
  | other _ isTerminator _ => isTerminator
  | _ => false

def isBarrier : StackInstr Block → Bool
  | JMPX_S => true
  | other _ _ isBarrier => isBarrier
  | _ => false

end StackInstr

/-- Whether control does not come to the end of the code. `analyzeBranch` does not know the
instructions in stack form, so the flags of the last one decide. -/
def endsInBarrier (code : List (StackInstr Block)) : Bool :=
  code.getLast?.any fun i => i.isTerminator && i.isBarrier

/-- A machine function in stack form. -/
structure StackFunction (Block : Type) where
  cfg : Cfg Block
  layout : List Block
  nodup : layout.Nodup
  code : Block → List (StackInstr Block)

namespace StackFunction

variable [DecidableEq Block] (f : StackFunction Block)

/-- The blocks after `b` in the layout. -/
def following (b : Block) : List Block := (f.layout.dropWhile (· ≠ b)).tail

/-- Whether control may pass from the end of `b` to the block that follows it: it is a successor,
and `canFallthrough`. -/
def enters (b next : Block) : Bool :=
  decide (next ∈ f.cfg.succs b) && (f.cfg.preds next).length = 1

/-- The block that `b` falls through to where its code comes to an end. -/
def layoutSuccessor (b : Block) : Option Block := (f.following b).head?.filter (f.enters b)

/-- `MachineBasicBlock::getFallThrough`. -/
def getFallThrough (b : Block) : Option Block :=
  if endsInBarrier (f.code b) then none else f.layoutSuccessor b

/-- The loop of `TVMMCInstLower::lower` over the blocks of a continuation. -/
def chainFrom : Block → List Block → List Block
  | b, [] => [b]
  | b, next :: rest =>
    if f.getFallThrough b = some next then b :: chainFrom next rest else [b]

/-- The block and the blocks that it falls through to. -/
def fallThroughChain (b : Block) : List Block := f.chainFrom b (f.following b)

/-- The code that is written out for a block. -/
def expand (b : Block) : List (StackInstr Block) := (f.fallThroughChain b).flatMap f.code

/-- The code that is written out behind that of the block itself. -/
def behind (b : Block) : List (StackInstr Block) := (f.getFallThrough b).elim [] f.expand

def setCode (b : Block) (code : List (StackInstr Block)) : StackFunction Block :=
  { f with code := Function.update f.code b code }

variable {f}

/-- What follows a block in the layout follows its neighbour. -/
theorem following_of_cons {b next : Block} {rest : List Block} (h : f.following b = next :: rest) :
    f.following next = rest := by
  obtain ⟨c, hdrop⟩ : ∃ c, f.layout.dropWhile (· ≠ b) = c :: next :: rest := by
    unfold following at h
    cases hdrop : f.layout.dropWhile (· ≠ b) with
    | nil =>
      rw [hdrop] at h
      cases h
    | cons c cs =>
      rw [hdrop, List.tail_cons] at h
      exact ⟨c, by rw [h]⟩
  obtain ⟨as, hlayout⟩ : ∃ as, f.layout = (as ++ [c]) ++ next :: rest :=
    ⟨f.layout.takeWhile (· ≠ b), by
      rw [List.append_assoc, List.singleton_append, ← hdrop, List.takeWhile_append_dropWhile]⟩
  have hnodup := f.nodup
  rw [hlayout] at hnodup
  have hbefore : ∀ a ∈ as ++ [c], (decide (a ≠ next)) = true := by
    intro a ha
    have hne := (List.nodup_append.mp hnodup).2.2 a ha next List.mem_cons_self
    exact decide_eq_true hne
  rw [following, hlayout, List.dropWhile_append_of_pos hbefore]
  simp

theorem getFallThrough_mem {b next : Block} (h : f.getFallThrough b = some next) :
    ∃ rest, f.following b = next :: rest := by
  unfold getFallThrough at h
  split_ifs at h
  obtain ⟨hhead, -⟩ := Option.filter_eq_some_iff.mp h
  exact ⟨_, (List.eq_cons_of_mem_head? hhead)⟩

/-- **Induction along the fall-through**, which goes on in the layout. -/
theorem fallThrough_induction {P : Block → Prop}
    (hstep : ∀ b, (∀ next, f.getFallThrough b = some next → P next) → P b) (b : Block) : P b := by
  generalize hrest : f.following b = rest
  induction rest generalizing b with
  | nil =>
    refine hstep b fun next hnext => ?_
    obtain ⟨rest, hcons⟩ := getFallThrough_mem hnext
    rw [hrest] at hcons
    cases hcons
  | cons next rest ih =>
    refine hstep b fun next' hnext => ?_
    obtain ⟨rest', hcons⟩ := getFallThrough_mem hnext
    obtain ⟨rfl, rfl⟩ := List.cons_eq_cons.mp (hrest.symm.trans hcons)
    exact ih next (following_of_cons hrest)

variable (f)

theorem fallThroughChain_eq (b : Block) :
    f.fallThroughChain b = b :: (f.getFallThrough b).elim [] f.fallThroughChain := by
  rw [fallThroughChain]
  cases hrest : f.following b with
  | nil =>
    cases hnext : f.getFallThrough b with
    | none => rfl
    | some next =>
      obtain ⟨rest, hcons⟩ := getFallThrough_mem hnext
      rw [hrest] at hcons
      cases hcons
  | cons next rest =>
    rw [chainFrom]
    split_ifs with hnext
    · rw [hnext, Option.elim_some, fallThroughChain, following_of_cons hrest]
    · cases hnext' : f.getFallThrough b with
      | none => rfl
      | some next' =>
        obtain ⟨rest', hcons⟩ := getFallThrough_mem hnext'
        rw [hrest] at hcons
        cases hcons
        exact absurd hnext' hnext

theorem expand_eq (b : Block) : f.expand b = f.code b ++ f.behind b := by
  rw [expand, fallThroughChain_eq, List.flatMap_cons, behind]
  cases f.getFallThrough b <;> rfl

variable {f}

/-- A block comes before the ones that follow it. -/
theorem notMem_following (f : StackFunction Block) (b : Block) : b ∉ f.following b := by
  have hnodup : (f.layout.dropWhile (· ≠ b)).Nodup :=
    f.nodup.sublist (List.dropWhile_suffix _).sublist
  unfold following
  cases hdrop : f.layout.dropWhile (· ≠ b) with
  | nil => exact List.not_mem_nil
  | cons c cs =>
    rw [hdrop, List.nodup_cons] at hnodup
    have hc : c = b := by
      have hhead := List.head?_dropWhile_not (fun a => decide (a ≠ b)) f.layout
      rw [hdrop] at hhead
      simpa using hhead
    rw [List.tail_cons, ← hc]
    exact hnodup.1

theorem mem_following_of_chain {c d : Block} (h : d ∈ f.fallThroughChain c) :
    d = c ∨ d ∈ f.following c := by
  induction c using fallThrough_induction (f := f) with
  | hstep c ih =>
    rw [fallThroughChain_eq, List.mem_cons] at h
    refine h.imp_right fun h => ?_
    cases hnext : f.getFallThrough c with
    | none =>
      rw [hnext] at h
      exact absurd h List.not_mem_nil
    | some next =>
      rw [hnext] at h
      obtain ⟨rest, hrest⟩ := getFallThrough_mem hnext
      rw [hrest, List.mem_cons]
      have := ih next hnext h
      rwa [following_of_cons hrest] at this

/-- The block that follows in the layout does not fall back. -/
theorem notMem_chain_layoutSuccessor {b next : Block} (h : f.layoutSuccessor b = some next) :
    b ∉ f.fallThroughChain next := by
  intro hb
  obtain ⟨hhead, -⟩ := Option.filter_eq_some_iff.mp h
  have hrest := List.eq_cons_of_mem_head? hhead
  refine notMem_following f b ?_
  rw [hrest, List.mem_cons]
  have := mem_following_of_chain hb
  rwa [following_of_cons hrest] at this

variable (f)

/-! ## Execution -/

/-- Where control goes behind an instruction that is not modelled. -/
inductive Control (Block : Type) where
  | next
  | jump (bb : Block)
  | call (bb : Block)
  | ret

/-- The code that is left to execute, here and in the callers, and the operand stack. -/
structure Config (Block Data : Type) where
  code : List (StackInstr Block)
  frames : List (List (StackInstr Block))
  stack : List (Value Block Data)

/-- What is seen of an execution: an instruction, and the stack that it finds. -/
abbrev Event (Block Data : Type) := ℕ × List (Value Block Data)

/-- What an instruction does: the event that is seen, the stack, and where control goes. A jump
takes the continuation off the stack. Only the instructions that are not modelled are seen. -/
def effect (sem : ℕ → List (Value Block Data) → Option (List (Value Block Data) × Control Block)) :
    StackInstr Block → List (Value Block Data) →
      Option (Option (Event Block Data) × List (Value Block Data) × Control Block)
  | .JMPX_S, s =>
    match s with
    | .cont bb :: s => some (none, s, .jump bb)
    | _ => none
  | .other code _ _, s => (sem code s).map fun r => (some (code, s), r)
  | i, s => (i.exec (fun _ _ => none) s).map fun t => (none, t, .next)

/-- The code and the callers behind an instruction. -/
def transfer (rest : List (StackInstr Block)) (frames : List (List (StackInstr Block))) :
    Control Block → List (StackInstr Block) × List (List (StackInstr Block))
  | .next => (rest, frames)
  | .jump bb => (f.expand bb, frames)
  | .call bb => (f.expand bb, rest :: frames)
  | .ret => ([], frames)

variable (sem : ℕ → List (Value Block Data) → Option (List (Value Block Data) × Control Block))

/-- A step of the execution. At the end of the code control returns to the caller. -/
def step : Config Block Data → Option (Option (Event Block Data) × Config Block Data)
  | ⟨[], [], _⟩ => none
  | ⟨[], rest :: frames, s⟩ => some (none, ⟨rest, frames, s⟩)
  | ⟨i :: rest, frames, s⟩ =>
    (effect sem i s).map fun r =>
      let (code, frames) := f.transfer rest frames r.2.2
      (r.1, ⟨code, frames, r.2.1⟩)

variable {sem} in
theorem step_of_effect {i : StackInstr Block} {rest : List (StackInstr Block)}
    {frames : List (List (StackInstr Block))} {s t : List (Value Block Data)}
    {e : Option (Event Block Data)} {ctl : Control Block}
    (h : effect sem i s = some (e, t, ctl)) :
    f.step sem ⟨i :: rest, frames, s⟩ =
      some (e, ⟨(f.transfer rest frames ctl).1, (f.transfer rest frames ctl).2, t⟩) := by
  rw [step, h]
  rfl

variable {sem} in
theorem step_of_effect_none {i : StackInstr Block} {rest : List (StackInstr Block)}
    {frames : List (List (StackInstr Block))} {s : List (Value Block Data)}
    (h : effect sem i s = none) : f.step sem ⟨i :: rest, frames, s⟩ = none := by
  rw [step, h]
  rfl

/-- The execution has come to its end. -/
def Config.Halted (c : Config Block Data) : Prop := c.code = [] ∧ c.frames = []

/-- The execution of a block. -/
def start (b : Block) (s : List (Value Block Data)) : Config Block Data := ⟨f.expand b, [], s⟩

end StackFunction

end TVMCompiler
