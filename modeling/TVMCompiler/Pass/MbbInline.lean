import TVMCompiler.Machine.StackFunction

/-!
# Inlining the target of a jump

`runMbbInlineOptimization` replaces the jump at the end of a block, `PUSHCONT_MBB`, drops of the slot
under the continuation and `JMPX`, by drops of the top and a copy of the target. The pass repeats
this as long as the block ends in such a jump.

## Main definitions

* `FinalJump`, `finalJump`: the jump at the end of a block
* `runMbbInlineOptimization`, `inlineJumps`: the pass, and its repetition
* `JumpsEnd`, `follow`: the jumps that the repetition meets

## Main results

* `finalJump_eq_some`: the jump that is found is the one at the end of the block
* `inlineJumps_iff`: the repetition ends exactly where the jumps do
-/

namespace TVMCompiler

open Lib

variable {Block Data : Type}

/-- A jump at the end of a block: the instructions before it, the block whose continuation is
pushed, and how many slots under the continuation are dropped. -/
structure FinalJump (Block : Type) where
  before : List (StackInstr Block)
  target : Block
  pops : ℕ
  deriving DecidableEq, Repr

namespace FinalJump

/-- The instructions from `PUSHCONT_MBB` on. -/
def jump (j : FinalJump Block) : List (StackInstr Block) :=
  .PUSHCONT_MBB_S j.target :: (List.replicate j.pops (.POP 1) ++ [.JMPX_S])

/-- What stands before the copy of the target: the drops have been moved before the push. -/
def front (j : FinalJump Block) : List (StackInstr Block) :=
  j.before ++ List.replicate j.pops (.POP 0)

end FinalJump

/-- The search for `PUSHCONT_MBB`, from the end of the block. -/
def findPushcont : List (StackInstr Block) → Option (FinalJump Block)
  | .PUSHCONT_MBB_S bb :: is => some ⟨is.reverse, bb, 0⟩
  | .POP 1 :: is => (findPushcont is).map fun j => { j with pops := j.pops + 1 }
  | _ => none

/-- The jump at the end of a block. -/
def finalJump (code : List (StackInstr Block)) : Option (FinalJump Block) :=
  match code.reverse with
  | .JMPX_S :: is => findPushcont is
  | _ => none

theorem reverse_of_findPushcont {is : List (StackInstr Block)} {j : FinalJump Block}
    (h : findPushcont is = some j) :
    is.reverse = j.before ++ .PUSHCONT_MBB_S j.target :: List.replicate j.pops (.POP 1) := by
  induction is using findPushcont.induct generalizing j with
  | case1 bb is =>
    cases h
    simp
  | case2 is ih =>
    obtain ⟨j, hj, rfl⟩ := Option.map_eq_some_iff.mp h
    rw [List.reverse_cons, ih hj, List.replicate_succ']
    simp
  | case3 is hpush hpop =>
    rw [findPushcont] at h
    · cases h
    · exact hpush
    · exact hpop

theorem findPushcont_replicate (bb : Block) (k : ℕ) (is : List (StackInstr Block)) :
    findPushcont (List.replicate k (.POP 1) ++ .PUSHCONT_MBB_S bb :: is) =
      some ⟨is.reverse, bb, k⟩ := by
  induction k with
  | zero => rfl
  | succ k ih =>
    rw [List.replicate_succ, List.cons_append, findPushcont, ih]
    rfl

/-- **The jump that is found is the one at the end of the block.** -/
theorem finalJump_eq_some {code : List (StackInstr Block)} {j : FinalJump Block} :
    finalJump code = some j ↔ code = j.before ++ j.jump := by
  constructor
  · intro h
    unfold finalJump at h
    split at h
    · rename_i is hcode
      rw [← List.reverse_reverse code, hcode, List.reverse_cons, reverse_of_findPushcont h]
      simp [FinalJump.jump]
    · cases h
  · rintro rfl
    have hreverse : (j.before ++ j.jump).reverse =
        .JMPX_S :: (List.replicate j.pops (.POP 1) ++ .PUSHCONT_MBB_S j.target :: j.before.reverse) := by
      simp [FinalJump.jump]
    unfold finalJump
    rw [hreverse]
    simp only [findPushcont_replicate, List.reverse_reverse]

/-! ## The pass -/

/-- The loop that copies the instructions of a block in front of its own `PUSHCONT_MBB`. The next one
to copy is number `i` of what stands there; behind it only the jump itself is copied. -/
def cloneOwn (jump : List (StackInstr Block)) :
    ℕ → List (StackInstr Block) → ℕ → Option (List (StackInstr Block))
  | 0, _, _ => none
  | fuel + 1, front, i =>
    match front[i]? with
    | some mi => cloneOwn jump fuel (front ++ [mi]) (i + 1)
    | none => some (front ++ jump)

section Pass

variable [DecidableEq Block]

/-- `runMbbInlineOptimization`, with a bound on the copying. -/
def runMbbInlineOptimization (fuel : ℕ) (f : StackFunction Block) (b : Block) :
    Option (Bool × StackFunction Block) :=
  match finalJump (f.code b) with
  | none => some (false, f)
  | some j =>
    if j.target = b then (cloneOwn j.jump fuel j.front 0).map fun code => (true, f.setCode b code)
    else some (true, f.setCode b (j.front ++ f.code j.target))

/-- The loop of `runOnMachineBasicBlock`. -/
def inlineJumps : ℕ → StackFunction Block → Block → Option (StackFunction Block)
  | 0, _, _ => none
  | fuel + 1, f, b =>
    match runMbbInlineOptimization fuel f b with
    | none => none
    | some (false, g) => some g
    | some (true, g) => inlineJumps fuel g b

/-- The code of a block comes to an end without a jump, where each final jump is replaced by its
target. A jump to the block itself stays. -/
inductive JumpsEnd (code : Block → List (StackInstr Block)) (b : Block) :
    List (StackInstr Block) → Prop where
  | stop {c : List (StackInstr Block)} (hstop : finalJump c = none) : JumpsEnd code b c
  | jump {c : List (StackInstr Block)} {j : FinalJump Block} (hjump : finalJump c = some j)
      (hother : j.target ≠ b) (hrest : JumpsEnd code b (j.front ++ code j.target)) :
      JumpsEnd code b c

omit [DecidableEq Block] in
/-- In front of a copy there is always one more instruction. -/
theorem cloneOwn_eq_none (jump : List (StackInstr Block)) (fuel : ℕ)
    {front : List (StackInstr Block)} {i : ℕ} (hi : i < front.length) :
    cloneOwn jump fuel front i = none := by
  induction fuel generalizing front i with
  | zero => rfl
  | succ fuel ih =>
    rw [cloneOwn, List.getElem?_eq_getElem hi]
    exact ih (by simpa using hi)

omit [DecidableEq Block] in
/-- The jump alone is copied as it is. -/
theorem cloneOwn_eq_some {jump front code : List (StackInstr Block)} {fuel : ℕ}
    (h : cloneOwn jump fuel front 0 = some code) : front = [] ∧ code = jump := by
  cases front with
  | nil =>
    cases fuel with
    | zero => cases h
    | succ fuel =>
      cases h
      exact ⟨rfl, rfl⟩
  | cons mi front =>
    rw [cloneOwn_eq_none jump fuel (by simp)] at h
    cases h

omit [DecidableEq Block] in
theorem JumpsEnd.congr {code code' : Block → List (StackInstr Block)} {b : Block}
    (hcode : ∀ t, t ≠ b → code t = code' t) {c : List (StackInstr Block)}
    (h : JumpsEnd code b c) : JumpsEnd code' b c := by
  induction h with
  | stop hstop => exact .stop hstop
  | jump hjump hother hrest ih => exact .jump hjump hother (by rwa [hcode _ hother] at ih)

theorem jumpsEnd_setCode {f : StackFunction Block} {b : Block} {c c' : List (StackInstr Block)} :
    JumpsEnd (f.setCode b c').code b c ↔ JumpsEnd f.code b c := by
  have hcode (t : Block) (ht : t ≠ b) : (f.setCode b c').code t = f.code t :=
    Function.update_of_ne ht _ _
  exact ⟨fun h => h.congr hcode, fun h => h.congr fun t ht => (hcode t ht).symm⟩

theorem setCode_self (f : StackFunction Block) (b : Block) (c : List (StackInstr Block)) :
    (f.setCode b c).code b = c :=
  Function.update_self _ _ _

/-- Where the jumps end, so does the repetition, from any code of the block. -/
theorem JumpsEnd.exists_inlineJumps {f : StackFunction Block} {b : Block} {c : List (StackInstr Block)}
    (h : JumpsEnd f.code b c) : ∃ fuel g, inlineJumps fuel (f.setCode b c) b = some g := by
  induction h with
  | @stop c hstop =>
    refine ⟨1, f.setCode b c, ?_⟩
    rw [inlineJumps, runMbbInlineOptimization, setCode_self, hstop]
  | @jump c j hjump hother hrest ih =>
    obtain ⟨fuel, g, hg⟩ := ih
    refine ⟨fuel + 1, g, ?_⟩
    have htarget : (f.setCode b c).code j.target = f.code j.target :=
      Function.update_of_ne hother _ _
    have hset (c' : List (StackInstr Block)) : (f.setCode b c).setCode b c' = f.setCode b c' := by
      simp [StackFunction.setCode]
    rw [inlineJumps, runMbbInlineOptimization, setCode_self, hjump]
    simp only [if_neg hother, htarget, hset]
    exact hg

/-- **The repetition ends where the jumps do.** -/
theorem inlineJumps_defined {f : StackFunction Block} {b : Block} :
    (∃ fuel g, inlineJumps fuel f b = some g) ↔ JumpsEnd f.code b (f.code b) := by
  constructor
  · rintro ⟨fuel, g, h⟩
    induction fuel generalizing f with
    | zero => cases h
    | succ fuel ih =>
      rw [inlineJumps, runMbbInlineOptimization] at h
      cases hj : finalJump (f.code b) with
      | none => exact .stop hj
      | some j =>
        rw [hj] at h
        by_cases hself : j.target = b
        · cases hclone : cloneOwn j.jump fuel j.front 0 with
          | none => simp [hself, hclone] at h
          | some code =>
            simp only [hself, hclone, if_true, Option.map_some] at h
            have hrest := ih h
            rw [setCode_self, jumpsEnd_setCode] at hrest
            -- the copying has ended, so the block is the jump alone and has not changed
            obtain ⟨hfront, rfl⟩ := cloneOwn_eq_some hclone
            have hbefore := (List.append_eq_nil_iff.mp hfront).1
            rw [finalJump_eq_some.mp hj, hbefore]
            exact hrest
        · simp only [if_neg hself] at h
          have hrest := ih h
          rw [setCode_self, jumpsEnd_setCode] at hrest
          exact .jump hj hself hrest
  · intro h
    have hsame : f.setCode b (f.code b) = f := by
      simp [StackFunction.setCode]
    simpa [hsame] using h.exists_inlineJumps

end Pass

/-! ### Following the jumps from block to block -/

/-- The block that a block jumps to at its end. -/
def jumpTarget (f : StackFunction Block) (b : Block) : Option Block :=
  (finalJump (f.code b)).map FinalJump.target

/-- The block after `n` jumps. -/
def follow (f : StackFunction Block) : ℕ → Block → Option Block
  | 0, b => some b
  | n + 1, b => (jumpTarget f b).bind (follow f n)

/-- Code that takes the continuation to jump to from what stands before it. -/
def Bare (c : List (StackInstr Block)) : Prop :=
  c = [] ∨ ∃ k, c = List.replicate k (.POP 1) ++ [.JMPX_S]

/-- The code behind the beginning of a jump is bare. -/
theorem bare_of_suffix {k : ℕ} {as c : List (StackInstr Block)}
    (h : List.replicate k (.POP 1) ++ [.JMPX_S] = as ++ c) : Bare c := by
  rcases List.append_eq_append_iff.mp h with ⟨bs, -, hlast⟩ | ⟨bs, hpops, rfl⟩
  · rcases List.append_eq_singleton_iff.mp hlast.symm with ⟨-, rfl⟩ | ⟨-, rfl⟩
    · exact Or.inr ⟨0, rfl⟩
    · exact Or.inl rfl
  · have hbs : bs = List.replicate bs.length (.POP 1) := by
      refine List.eq_replicate_of_mem fun x hx => List.eq_of_mem_replicate (n := k) ?_
      rw [hpops]
      exact List.mem_append_right as hx
    exact Or.inr ⟨bs.length, congrArg (· ++ _) hbs⟩

/-- The final jump is found in the last part of the code, unless that is bare. -/
theorem finalJump_append {front c : List (StackInstr Block)} (hbare : ¬ Bare c) :
    finalJump (front ++ c) =
      (finalJump c).map fun j => { j with before := front ++ j.before } := by
  cases hj : finalJump c with
  | some j =>
    refine finalJump_eq_some.mpr ?_
    rw [finalJump_eq_some.mp hj, ← List.append_assoc]
    rfl
  | none =>
    rw [Option.map_none, Option.eq_none_iff_forall_ne_some]
    intro j hfound
    rcases List.append_eq_append_iff.mp (finalJump_eq_some.mp hfound) with
      ⟨as, -, hc⟩ | ⟨as, -, hjump⟩
    · -- the whole jump is in the last part
      have hsome : finalJump c = some { j with before := as } := finalJump_eq_some.mpr hc
      rw [hj] at hsome
      cases hsome
    · cases as with
      | nil =>
        rw [List.nil_append] at hjump
        have hsome : finalJump c = some { j with before := [] } :=
          finalJump_eq_some.mpr hjump.symm
        rw [hj] at hsome
        cases hsome
      | cons i as =>
        obtain ⟨-, htail⟩ := List.cons_eq_cons.mp hjump
        exact hbare (bare_of_suffix htail)

theorem follow_add (f : StackFunction Block) (m n : ℕ) (b : Block) :
    follow f (m + n) b = (follow f m b).bind (follow f n) := by
  induction m generalizing b with
  | zero => rw [Nat.zero_add, follow, Option.bind_some]
  | succ m ih =>
    rw [Nat.add_right_comm, follow, follow]
    cases jumpTarget f b with
    | none => rfl
    | some t => exact ih t

/-- A block from which the jumps end is not reached again. -/
theorem not_follow_self {f : StackFunction Block} {b : Block} {n : ℕ} (hend : follow f n b = none)
    {m : ℕ} (hm : 0 < m) : follow f m b ≠ some b := by
  intro hself
  induction n using Nat.strongRecOn with
  | ind n ih =>
    by_cases hn : m ≤ n
    · obtain ⟨k, rfl⟩ := Nat.exists_eq_add_of_le hn
      rw [follow_add, hself, Option.bind_some] at hend
      exact ih k (by omega) hend
    · -- where the jumps have ended, none follows
      obtain ⟨k, rfl⟩ := Nat.exists_eq_add_of_le (Nat.le_of_not_le hn)
      rw [follow_add, hend] at hself
      cases hself

/-- The code of a block, alone or behind other code that a jump at its end does not depend on. -/
theorem finalJump_append_code {f : StackFunction Block} {t : Block}
    {front : List (StackInstr Block)} (h : front = [] ∨ ¬ Bare (f.code t)) :
    finalJump (front ++ f.code t) =
      (finalJump (f.code t)).map fun j => { j with before := front ++ j.before } := by
  rcases h with rfl | hbare
  · rw [List.nil_append]
    cases finalJump (f.code t) <;> rfl
  · exact finalJump_append hbare

theorem JumpsEnd.exists_follow {f : StackFunction Block} {b : Block}
    (hbare : ∀ c t, jumpTarget f c = some t → ¬ Bare (f.code t)) {c : List (StackInstr Block)}
    (h : JumpsEnd f.code b c) {front : List (StackInstr Block)} {t : Block}
    (hc : c = front ++ f.code t) (ht : front = [] ∨ ¬ Bare (f.code t)) :
    ∃ n, follow f n t = none := by
  induction h generalizing front t with
  | stop hstop =>
    rw [hc, finalJump_append_code ht, Option.map_eq_none_iff] at hstop
    exact ⟨1, by rw [follow, jumpTarget, hstop]; rfl⟩
  | jump hjump hother hrest ih =>
    rw [hc, finalJump_append_code ht] at hjump
    obtain ⟨j, hj, rfl⟩ := Option.map_eq_some_iff.mp hjump
    have htarget : jumpTarget f t = some j.target := by
      rw [jumpTarget, hj]
      rfl
    obtain ⟨n, hn⟩ := ih rfl (Or.inr (hbare t _ htarget))
    exact ⟨n + 1, by rw [follow, htarget]; exact hn⟩

theorem jumpsEnd_of_follow {f : StackFunction Block} {b : Block} {k : ℕ}
    (hbare : ∀ c t, jumpTarget f c = some t → ¬ Bare (f.code t)) (hend : follow f k b = none)
    {m n : ℕ} {front : List (StackInstr Block)} {t : Block} (hreach : follow f m b = some t)
    (hn : follow f n t = none) (ht : front = [] ∨ ¬ Bare (f.code t)) :
    JumpsEnd f.code b (front ++ f.code t) := by
  induction n generalizing m front t with
  | zero => cases hn
  | succ n ih =>
    cases hj : finalJump (f.code t) with
    | none => exact .stop (by rw [finalJump_append_code ht, hj]; rfl)
    | some j =>
      have htarget : jumpTarget f t = some j.target := by
        rw [jumpTarget, hj]
        rfl
      rw [follow, htarget, Option.bind_some] at hn
      have hnext : follow f (m + 1) b = some j.target := by
        rw [follow_add, hreach, Option.bind_some, follow, htarget]
        rfl
      have hother : j.target ≠ b := by
        intro heq
        rw [heq] at hnext
        exact not_follow_self hend m.succ_pos hnext
      refine .jump (j := { j with before := front ++ j.before }) ?_ hother ?_
      · rw [finalJump_append_code ht, hj]
        rfl
      · exact ih hnext hn (Or.inr (hbare t _ htarget))

/-- Where no target is bare, the jumps that the repetition meets are those of the blocks. -/
theorem jumpsEnd_iff_follow {f : StackFunction Block} {b : Block}
    (hbare : ∀ c t, jumpTarget f c = some t → ¬ Bare (f.code t)) :
    JumpsEnd f.code b (f.code b) ↔ ∃ n, follow f n b = none := by
  constructor
  · intro h
    exact h.exists_follow hbare (List.nil_append _).symm (Or.inl rfl)
  · rintro ⟨n, hn⟩
    have hstart : follow f 0 b = some b := rfl
    exact List.nil_append (f.code b) ▸ jumpsEnd_of_follow hbare hn hstart hn (Or.inl rfl)

section Termination

variable [DecidableEq Block]

/-- **The repetition ends exactly on the blocks whose jumps end**: on the blocks from which the
jumps lead from block to block to one without a jump at its end, if no target is bare. -/
theorem inlineJumps_iff (f : StackFunction Block) (b : Block) :
    ((∃ fuel g, inlineJumps fuel f b = some g) ↔ JumpsEnd f.code b (f.code b)) ∧
      ((∀ c t, jumpTarget f c = some t → ¬ Bare (f.code t)) →
        ((∃ fuel g, inlineJumps fuel f b = some g) ↔ ∃ n, follow f n b = none)) :=
  ⟨inlineJumps_defined, fun hbare => inlineJumps_defined.trans (jumpsEnd_iff_follow hbare)⟩

/-- Two blocks that jump to each other. -/
def jumpCycle : StackFunction (Fin 2) where
  cfg := ⟨0, fun b => [b + 1], fun b => [b + 1], by decide⟩
  layout := [0, 1]
  nodup := by decide
  code b := [.PUSHCONT_MBB_S (b + 1), .JMPX_S]

theorem inlineJumps_jumpCycle : ¬ ∃ fuel g, inlineJumps fuel jumpCycle 0 = some g := by
  intro hends
  have hjumps := inlineJumps_defined.mp hends
  have hfinal (b : Fin 2) : finalJump (jumpCycle.code b) = some ⟨[], b + 1, 0⟩ := rfl
  cases hjumps with
  | stop hstop =>
    rw [hfinal] at hstop
    cases hstop
  | jump hjump hother hrest =>
    cases (hfinal 0).symm.trans hjump
    cases hrest with
    | stop hstop => cases (hfinal 1).symm.trans hstop
    | jump hjump hother hrest =>
      cases (hfinal 1).symm.trans hjump
      exact hother rfl

end Termination

end TVMCompiler
