import TVMCompiler.Lib.Scan
import TVMCompiler.Machine.StackForm

/-!
# Combining drops and pushes

Two passes of `TVMPeephole` over a block in stack form. `runBlkDropCombine` replaces a run of
`POP s0` by one `BLKDROP`, and `runBlkPushCombine` a run of pushes of one value by a `BLKPUSH`.
Both insert the new instruction before the one that follows the run.

## Main definitions

* `combineDrops`, `runBlkDropCombine`: the first pass
* `CombinesDrops`, `DropRunsFit`: what it is for, and the blocks for which it is right
* `PushMode`, `combinePushes`, `runBlkPushCombine`: the second pass
* `KeepsEffect`, `RunFits`: the same for a run of pushes

## Main results

* `runBlkDropCombine_iff`: the first pass is right exactly where the runs fit
* `keepsEffect_iff`: a run of pushes is replaced rightly exactly where it fits
* `runBlkPushCombine_spec`: the second pass is right on a block whose runs fit
-/

namespace TVMCompiler

open Lib

variable {Block : Type}

/-! ## Drops -/

/-- The body of the loop of `runBlkDropCombine`, at the instruction `i`. There is no place to insert
the new instruction behind a run at the end of the block. -/
def combineDrops [DecidableEq Block] (i : StackInstr Block) (is : List (StackInstr Block)) :
    ℕ × Option (List (StackInstr Block)) :=
  let count := ((i :: is).takeWhile (· = .POP 0)).length
  if count > 1 then
    (count - 1, if (is.drop (count - 1)).isEmpty then none else some [.BLKDROP count])
  else (0, some [i])

def runBlkDropCombine [DecidableEq Block] (block : List (StackInstr Block)) :
    Option (List (StackInstr Block)) :=
  rewrite combineDrops block

/-- The instruction takes at least one slot off the stack, and its count can be encoded. -/
def IsDrop : StackInstr Block → Prop
  | .POP i => i = 0
  | .BLKDROP sz => 0 < sz ∧ sz ≤ blkdropImmLimit
  | _ => False

/-- Drops that take `n` slots off every stack. -/
def DropsAs (Data : Type) (n : ℕ) (ds : List (StackInstr Block)) : Prop :=
  (∀ d ∈ ds, IsDrop d) ∧ ∀ (sem) (s : List (Value Block Data)),
    execAll sem ds s = execAll sem (List.replicate n (.POP 0)) s

/-- Each maximal run of two or more drops is replaced by drops with the same effect, and everything
else is kept. -/
inductive CombinesDrops (Data : Type) :
    List (StackInstr Block) → List (StackInstr Block) → Prop where
  | nil : CombinesDrops Data [] []
  | keep {i : StackInstr Block} {is out : List (StackInstr Block)} (hi : i ≠ .POP 0)
      (hrest : CombinesDrops Data is out) : CombinesDrops Data (i :: is) (i :: out)
  | single {is out : List (StackInstr Block)} (hnext : is.head? ≠ some (.POP 0))
      (hrest : CombinesDrops Data is out) : CombinesDrops Data (.POP 0 :: is) (.POP 0 :: out)
  | run {n : ℕ} {is ds out : List (StackInstr Block)} (hn : 2 ≤ n)
      (hnext : is.head? ≠ some (.POP 0)) (hdrops : DropsAs Data n ds)
      (hrest : CombinesDrops Data is out) :
      CombinesDrops Data (List.replicate n (.POP 0) ++ is) (ds ++ out)

/-- Each maximal run of two or more drops is within the limit of `BLKDROP`, and an instruction
follows it. -/
def DropRunsFit (block : List (StackInstr Block)) : Prop :=
  MaximalRuns (.POP 0) (fun n rest => 2 ≤ n → n ≤ blkdropImmLimit ∧ rest ≠ []) block

section Drops

variable {Data : Type} (sem : ℕ → List (Value Block Data) → Option (List (Value Block Data)))

theorem popTo_zero {α : Type} (s : List α) : popTo s 0 = dropTop s 1 := by
  cases s with
  | nil => rfl
  | cons x s => simp [popTo, dropTop]

theorem dropTop_eq {α : Type} (s : List α) (n : ℕ) :
    dropTop s n = if n ≤ s.length then some (s.drop n) else none := by
  split_ifs with h <;> simp [dropTop, h]

theorem dropTop_dropTop {α : Type} (s : List α) (m n : ℕ) :
    (dropTop s m).bind (dropTop · n) = dropTop s (m + n) := by
  rw [dropTop_eq, dropTop_eq]
  split_ifs with hm hmn
  · rw [Option.bind_some, dropTop_eq, List.drop_drop, if_pos]
    rw [List.length_drop]
    omega
  · rw [Option.bind_some, dropTop_eq, if_neg]
    rw [List.length_drop]
    omega
  · omega
  · rfl

/-- A run of drops takes as many slots. -/
theorem execAll_replicate_pop (n : ℕ) (s : List (Value Block Data)) :
    execAll sem (List.replicate n (.POP 0)) s = dropTop s n := by
  induction n generalizing s with
  | zero => simp [dropTop]
  | succ n ih =>
    rw [List.replicate_succ, execAll_cons]
    show (popTo s 0).bind _ = _
    rw [popTo_zero, Nat.add_comm, ← dropTop_dropTop]
    exact congrArg _ (funext ih)

/-- Drops take at least one slot each. -/
theorem execAll_drops {ds : List (StackInstr Block)} (hds : ∀ d ∈ ds, IsDrop d) :
    ∃ n, ds.length ≤ n ∧ ∀ s : List (Value Block Data), execAll sem ds s = dropTop s n := by
  induction ds with
  | nil => exact ⟨0, le_rfl, fun s => by simp [dropTop]⟩
  | cons d ds ih =>
    obtain ⟨n, hn, heff⟩ := ih fun d hd => hds d (List.mem_cons_of_mem _ hd)
    obtain ⟨m, hm, hd⟩ : ∃ m, 1 ≤ m ∧ ∀ s : List (Value Block Data), d.exec sem s = dropTop s m := by
      have hdrop := hds d List.mem_cons_self
      cases d with
      | POP i =>
        cases hdrop
        exact ⟨1, le_rfl, popTo_zero⟩
      | BLKDROP sz => exact ⟨sz, hdrop.1, fun s => rfl⟩
      | _ => exact hdrop.elim
    refine ⟨m + n, by rw [List.length_cons]; omega, fun s => ?_⟩
    rw [execAll_cons, hd, ← dropTop_dropTop]
    exact congrArg _ (funext heff)

/-- Drops for `n` slots are at most `n`, and some for at least one. -/
theorem DropsAs.length_le {n : ℕ} {ds : List (StackInstr Block)} (h : DropsAs Data n ds) :
    ds.length ≤ n ∧ (0 < n → ds ≠ []) := by
  obtain ⟨m, hm, heff⟩ : ∃ m, ds.length ≤ m ∧
      ∀ s : List (Value Block Data), execAll (fun _ _ => none) ds s = dropTop s m :=
    execAll_drops _ h.1
  -- on a stack of `n` slots nothing is left
  have hsame := h.2 (fun _ _ => none) (List.replicate n (.int 0))
  rw [heff, execAll_replicate_pop, dropTop_eq _ n, if_pos (by simp), dropTop_eq] at hsame
  split_ifs at hsame with hle
  rw [List.length_replicate] at hle
  refine ⟨hm.trans hle, ?_⟩
  rintro hn rfl
  have hnil := h.2 (fun _ _ => none) ([] : List (Value Block Data))
  rw [execAll_replicate_pop, dropTop_eq, if_neg (by simpa using Nat.ne_of_gt hn)] at hnil
  cases hnil

/-- Combined drops have the effect of the block. -/
theorem CombinesDrops.execAll_eq {block out : List (StackInstr Block)}
    (h : CombinesDrops Data block out) (s : List (Value Block Data)) :
    execAll sem out s = execAll sem block s := by
  induction h generalizing s with
  | nil => rfl
  | keep hi hrest ih =>
    rw [execAll_cons, execAll_cons]
    exact congrArg _ (funext ih)
  | single hnext hrest ih =>
    rw [execAll_cons, execAll_cons]
    exact congrArg _ (funext ih)
  | run hn hnext hdrops hrest ih =>
    rw [execAll_append, execAll_append, hdrops.2]
    exact congrArg _ (funext ih)

/-! ### The pass at an instruction -/

variable [DecidableEq Block]

theorem combineDrops_of_ne {i : StackInstr Block} (hi : i ≠ .POP 0) (is : List (StackInstr Block)) :
    combineDrops i is = (0, some [i]) := by
  simp [combineDrops, hi]

theorem combineDrops_single {is : List (StackInstr Block)} (hnext : is.head? ≠ some (.POP 0)) :
    combineDrops (.POP 0) is = (0, some [.POP 0]) := by
  have hrun := takeWhile_replicate_append (n := 1) _ hnext
  rw [List.replicate_one, List.singleton_append] at hrun
  simp [combineDrops, hrun]

theorem combineDrops_run {n : ℕ} {is : List (StackInstr Block)}
    (hnext : is.head? ≠ some (.POP 0)) :
    combineDrops (.POP 0) (List.replicate (n + 1) (.POP 0) ++ is) =
      (n + 1, if is.isEmpty then none else some [.BLKDROP (n + 2)]) := by
  have hrun := takeWhile_replicate_append (n := n + 2) _ hnext
  rw [List.replicate_succ, List.cons_append] at hrun
  have hdrop : (List.replicate (n + 1) (StackInstr.POP 0) ++ is).drop (n + 1) = is :=
    List.drop_left' (by simp)
  simp only [combineDrops, hrun, List.length_replicate, List.length_cons]
  rw [if_pos (by omega), Nat.add_sub_cancel, hdrop]

/-! ### The pass over a block -/

theorem runBlkDropCombine_of_ne {i : StackInstr Block} (hi : i ≠ .POP 0)
    (is : List (StackInstr Block)) :
    runBlkDropCombine (i :: is) = (runBlkDropCombine is).map (i :: ·) := by
  rw [runBlkDropCombine, rewrite_cons, combineDrops_of_ne hi]
  rfl

theorem runBlkDropCombine_single {is : List (StackInstr Block)}
    (hnext : is.head? ≠ some (.POP 0)) :
    runBlkDropCombine (.POP 0 :: is) = (runBlkDropCombine is).map (.POP 0 :: ·) := by
  rw [runBlkDropCombine, rewrite_cons, combineDrops_single hnext]
  rfl

theorem runBlkDropCombine_run {n : ℕ} {is : List (StackInstr Block)}
    (hnext : is.head? ≠ some (.POP 0)) :
    runBlkDropCombine (List.replicate (n + 2) (.POP 0) ++ is) =
      if is.isEmpty then none else (runBlkDropCombine is).map (.BLKDROP (n + 2) :: ·) := by
  rw [runBlkDropCombine, List.replicate_succ, List.cons_append, rewrite_cons,
    combineDrops_run hnext, List.drop_left' (by simp)]
  split_ifs <;> rfl

omit [DecidableEq Block] in
/-- The block does not begin with a drop, but for a kept one. -/
theorem CombinesDrops.of_cons {i : StackInstr Block} {is out : List (StackInstr Block)}
    (h : CombinesDrops Data (i :: is) out) (hrun : i ≠ .POP 0 ∨ is.head? ≠ some (.POP 0)) :
    ∃ rest, out = i :: rest ∧ CombinesDrops Data is rest := by
  generalize hblock : i :: is = block at h
  cases h with
  | nil => cases hblock
  | keep hi hrest =>
    cases hblock
    exact ⟨_, rfl, hrest⟩
  | single hnext hrest =>
    cases hblock
    exact ⟨_, rfl, hrest⟩
  | @run n is' ds out hn hnext hdrops hrest =>
    obtain ⟨n, rfl⟩ := Nat.exists_eq_add_of_le' hn
    rw [List.replicate_succ, List.replicate_succ, List.cons_append, List.cons_append] at hblock
    obtain ⟨rfl, rfl⟩ := List.cons_eq_cons.mp hblock
    rcases hrun with hrun | hrun <;> exact absurd rfl hrun

omit [DecidableEq Block] in
/-- A run at the beginning is replaced by drops. -/
theorem CombinesDrops.of_run {n : ℕ} {is out : List (StackInstr Block)}
    (h : CombinesDrops Data (List.replicate (n + 2) (.POP 0) ++ is) out)
    (hnext : is.head? ≠ some (.POP 0)) :
    ∃ ds rest, out = ds ++ rest ∧ DropsAs Data (n + 2) ds ∧ CombinesDrops Data is rest := by
  generalize hblock : List.replicate (n + 2) (StackInstr.POP 0) ++ is = block at h
  cases h with
  | nil => simp at hblock
  | keep hi hrest =>
    rw [List.replicate_succ, List.cons_append] at hblock
    exact absurd (List.cons_eq_cons.mp hblock).1.symm hi
  | single hnext' hrest =>
    rw [List.replicate_succ, List.replicate_succ, List.cons_append, List.cons_append] at hblock
    obtain ⟨-, rfl⟩ := List.cons_eq_cons.mp hblock
    exact absurd rfl hnext'
  | run hn hnext' hdrops hrest =>
    obtain ⟨rfl, rfl⟩ := replicate_append_inj _ hnext hnext' hblock
    exact ⟨_, _, rfl, hdrops, hrest⟩

omit [DecidableEq Block] in
/-- A `BLKDROP` for all the slots leaves nothing to other drops. -/
theorem DropsAs.eq_nil {n : ℕ} {ds : List (StackInstr Block)}
    (h : DropsAs Data n (.BLKDROP n :: ds)) : ds = [] := by
  obtain ⟨m, hm, heff⟩ : ∃ m, ds.length ≤ m ∧
      ∀ s : List (Value Block Data), execAll (fun _ _ => none) ds s = dropTop s m :=
    execAll_drops _ fun d hd => h.1 d (List.mem_cons_of_mem _ hd)
  have hsame := h.2 (fun _ _ => none) (List.replicate n (.int 0))
  rw [execAll_replicate_pop, execAll_cons] at hsame
  change (dropTop _ n).bind _ = _ at hsame
  rw [dropTop_eq, if_pos (by simp), Option.bind_some, heff, dropTop_eq] at hsame
  split_ifs at hsame with hle
  rw [List.length_drop, List.length_replicate, Nat.sub_self] at hle
  exact List.length_eq_zero_iff.mp (Nat.le_zero.mp (hm.trans hle))

/-- **The pass is defined, and replaces each run of drops by drops with the same effect whose counts
can be encoded, exactly on the blocks whose runs are short enough and end before the block
does.** -/
theorem runBlkDropCombine_iff (Data : Type) (block : List (StackInstr Block)) :
    (∃ out, runBlkDropCombine block = some out ∧ CombinesDrops Data block out) ↔
      DropRunsFit block := by
  induction block using runs_induction (StackInstr.POP 0 : StackInstr Block) with
  | hnil => exact ⟨fun _ => maximalRuns_nil, fun _ => ⟨[], rfl, .nil⟩⟩
  | hother i is hi ih =>
    rw [DropRunsFit, maximalRuns_cons hi, ← DropRunsFit, ← ih, runBlkDropCombine_of_ne hi]
    constructor
    · rintro ⟨out, hout, hcombines⟩
      obtain ⟨rest, hrest, rfl⟩ := Option.map_eq_some_iff.mp hout
      obtain ⟨rest', heq, hcombines⟩ := hcombines.of_cons (Or.inl hi)
      cases heq
      exact ⟨rest, hrest, hcombines⟩
    · rintro ⟨rest, hrest, hcombines⟩
      exact ⟨i :: rest, by rw [hrest]; rfl, .keep hi hcombines⟩
  | hrun n is hnext ih =>
    rw [DropRunsFit, maximalRuns_replicate hnext, ← DropRunsFit, ← ih]
    cases n with
    | zero =>
      rw [List.replicate_one, List.singleton_append, runBlkDropCombine_single hnext]
      constructor
      · rintro ⟨out, hout, hcombines⟩
        obtain ⟨rest, hrest, rfl⟩ := Option.map_eq_some_iff.mp hout
        obtain ⟨rest', heq, hcombines⟩ := hcombines.of_cons (Or.inr hnext)
        cases heq
        exact ⟨fun h => absurd h (by omega), rest, hrest, hcombines⟩
      · rintro ⟨-, rest, hrest, hcombines⟩
        exact ⟨.POP 0 :: rest, by rw [hrest]; rfl, .single hnext hcombines⟩
    | succ n =>
      rw [runBlkDropCombine_run hnext]
      constructor
      · rintro ⟨out, hout, hcombines⟩
        split_ifs at hout with hempty
        obtain ⟨rest, hrest, rfl⟩ := Option.map_eq_some_iff.mp hout
        obtain ⟨ds, rest', heq, hdrops, hrest'⟩ := hcombines.of_run hnext
        cases ds with
        | nil => exact absurd rfl (hdrops.length_le.2 (by omega))
        | cons d ds =>
          -- the one `BLKDROP` is all the drops that there are
          obtain ⟨rfl, rfl⟩ := List.cons_eq_cons.mp heq
          obtain rfl := hdrops.eq_nil
          have hle := (hdrops.1 _ List.mem_cons_self).2
          exact ⟨fun _ => ⟨hle, by simpa using hempty⟩, _, hrest, hrest'⟩
      · rintro ⟨hfits, rest, hrest, hcombines⟩
        obtain ⟨hle, hne⟩ := hfits (by omega)
        refine ⟨.BLKDROP (n + 2) :: rest, ?_, ?_⟩
        · rw [if_neg (by simpa using hne), hrest]
          rfl
        · have hdrops : DropsAs Data (n + 2) [(.BLKDROP (n + 2) : StackInstr Block)] := by
            refine ⟨by simp [IsDrop, hle], fun sem s => ?_⟩
            rw [execAll_replicate_pop, execAll_cons, execAll_nil]
            show (dropTop s (n + 2)).bind some = _
            rw [Option.bind_fun_some]
          exact .run (by omega) hnext hdrops hcombines

/-- Two drops at the end of a block, and sixteen drops before an instruction. -/
theorem runBlkDropCombine_fails :
    runBlkDropCombine ([.POP 0, .POP 0] : List (StackInstr ℕ)) = none ∧
      ∃ out, runBlkDropCombine (List.replicate 16 (.POP 0) ++ [.JMPX_S]) = some out ∧
        ¬ CombinesDrops ℕ (List.replicate 16 (.POP 0) ++ [(.JMPX_S : StackInstr ℕ)]) out := by
  refine ⟨rfl, [.BLKDROP 16, .JMPX_S], by decide, fun h => ?_⟩
  obtain ⟨ds, rest, heq, hdrops, -⟩ := h.of_run (n := 14) (by simp)
  cases ds with
  | nil => exact hdrops.length_le.2 (by omega) rfl
  | cons d ds =>
    obtain ⟨rfl, -⟩ := List.cons_eq_cons.mp heq
    exact absurd (hdrops.1 _ List.mem_cons_self).2 (by decide)

end Drops

/-! ## Pushes -/

def blkPushLimit : ℕ := 15

/-- What a run pushes: a slot of the stack, or a number. -/
inductive PushMode where
  | register (reg : ℕ)
  | constant (value : ℤ)
  deriving DecidableEq, Repr

/-- The run that an instruction begins, with the number of instructions to remove so far. The
constant itself is not removed: the slot that `BLKPUSH` copies is the one it pushes. -/
def startPushes : StackInstr Block → Option (PushMode × ℕ)
  | .PUSH reg => if reg ≤ blkPushLimit then some (.register reg, 1) else none
  | .CONST_I257_S value => some (.constant value, 0)
  | _ => none

/-- Whether an instruction continues a run of which `size` instructions are to be removed. -/
def PushMode.continues (mode : PushMode) (size : ℕ) : StackInstr Block → Bool
  | .PUSH r =>
    r ≤ blkPushLimit && match mode with
      | .register reg => r = reg + size
      | .constant _ => r < size
  | .CONST_I257_S value | .CONST_U257_S value => mode = .constant value
  | _ => false

/-- The inner loop of `runBlkPushCombine`: how many instructions continue the run. -/
def collectPushes (mode : PushMode) : ℕ → List (StackInstr Block) → ℕ
  | _, [] => 0
  | size, i :: is =>
    if size ≠ blkPushLimit ∧ mode.continues size i then collectPushes mode (size + 1) is + 1 else 0

/-- The slot that `BLKPUSH` copies. -/
def PushMode.slot : PushMode → ℕ
  | .register reg => reg
  | .constant _ => 0

/-- What remains of the instruction that begins a run. -/
def PushMode.kept (mode : PushMode) (i : StackInstr Block) : List (StackInstr Block) :=
  match mode with
  | .register _ => []
  | .constant _ => [i]

/-- The body of the loop of `runBlkPushCombine`, at the instruction `i`. Again there is no place to
insert the new instruction behind a run at the end of the block. -/
def combinePushes (i : StackInstr Block) (is : List (StackInstr Block)) :
    ℕ × Option (List (StackInstr Block)) :=
  match startPushes i with
  | none => (0, some [i])
  | some (mode, size) =>
    let further := collectPushes mode size is
    if size + further > 1 then
      (further,
        if (is.drop further).isEmpty then none
        else some (mode.kept i ++ [.BLKPUSH (size + further) mode.slot]))
    else (0, some [i])

def runBlkPushCombine (block : List (StackInstr Block)) : Option (List (StackInstr Block)) :=
  rewrite combinePushes block

/-- On every stack that is deep enough for `is`, `js` leaves what `is` leaves. -/
def SameEffect (Data : Type) (is js : List (StackInstr Block)) : Prop :=
  ∀ (sem) (s t : List (Value Block Data)), execAll sem is s = some t → execAll sem js s = some t

/-- What the pass puts out for an instruction and the ones behind it leaves the same stack as the
instructions that are taken. -/
def KeepsEffect (Data : Type) (p : StackInstr Block × List (StackInstr Block)) : Prop :=
  ∃ out, (combinePushes p.1 p.2).2 = some out ∧ SameEffect Data (taken combinePushes p) out

/-- A run that is combined is one of a constant or of the top slot, and an instruction follows
it. -/
def RunFits (p : StackInstr Block × List (StackInstr Block)) : Prop :=
  ∀ mode size, startPushes p.1 = some (mode, size) → 1 < size + collectPushes mode size p.2 →
    p.2.drop (collectPushes mode size p.2) ≠ [] ∧ mode.slot = 0

section Pushes

variable {Data : Type} (sem : ℕ → List (Value Block Data) → Option (List (Value Block Data)))

theorem pushAt_replicate {α : Type} {s : List α} {x : α} {reg : ℕ} (hx : s[reg]? = some x)
    (size : ℕ) :
    pushAt (List.replicate size x ++ s) (reg + size) =
      some (List.replicate (size + 1) x ++ s) := by
  have hslot : (List.replicate size x ++ s)[reg + size]? = some x := by
    rw [List.getElem?_append_right (by simp), List.length_replicate, Nat.add_sub_cancel, hx]
  rw [pushAt, hslot, List.replicate_succ]
  rfl

theorem pushAt_of_lt_replicate {α : Type} {x : α} {r size : ℕ} (hr : r < size) (s : List α) :
    pushAt (List.replicate size x ++ s) r = some (List.replicate (size + 1) x ++ s) := by
  have hslot : (List.replicate size x ++ s)[r]? = some x := by
    rw [List.getElem?_append_left (by simpa using hr), List.getElem?_replicate, if_pos hr]
  rw [pushAt, hslot, List.replicate_succ]
  rfl

/-- The run of a slot pushes what was in it. -/
theorem execAll_collect_register {reg size : ℕ} (is : List (StackInstr Block))
    {s : List (Value Block Data)} {x : Value Block Data} (hx : s[reg]? = some x) :
    execAll sem (is.take (collectPushes (.register reg) size is)) (List.replicate size x ++ s) =
      some (List.replicate (size + collectPushes (.register reg) size is) x ++ s) := by
  induction is generalizing size with
  | nil => rfl
  | cons i is ih =>
    rw [collectPushes]
    split_ifs with hcont
    · obtain ⟨-, hcont⟩ := hcont
      have hi : i = .PUSH (reg + size) := by
        cases i <;> simp [PushMode.continues] at hcont ⊢
        exact hcont.2
      rw [hi, List.take_succ_cons, execAll_cons]
      show (pushAt _ _).bind _ = _
      rw [pushAt_replicate hx, Option.bind_some, ih, Nat.add_right_comm, Nat.add_assoc]
    · rfl

/-- The run of a constant pushes it. -/
theorem execAll_collect_constant {value : ℤ} {size : ℕ} (is : List (StackInstr Block))
    (s : List (Value Block Data)) :
    execAll sem (is.take (collectPushes (.constant value) size is))
        (List.replicate size (.int value) ++ s) =
      some (List.replicate (size + collectPushes (.constant value) size is) (.int value) ++ s) := by
  induction is generalizing size with
  | nil => rfl
  | cons i is ih =>
    rw [collectPushes]
    split_ifs with hcont
    · obtain ⟨-, hcont⟩ := hcont
      have hi : i.exec sem (List.replicate size (.int value) ++ s) =
          some (List.replicate (size + 1) (.int value) ++ s) := by
        cases i <;> simp [PushMode.continues] at hcont
        case PUSH r => exact pushAt_of_lt_replicate hcont.2 s
        case CONST_I257_S v => rw [hcont]; rfl
        case CONST_U257_S v => rw [hcont]; rfl
      rw [List.take_succ_cons, execAll_cons, hi, Option.bind_some, ih, Nat.add_right_comm,
        Nat.add_assoc]
    · rfl

/-- `BLKPUSH` of the top slot repeats it. -/
theorem repeatM_pushAt_zero {α : Type} (n : ℕ) (x : α) (s : List α) :
    repeatM (pushAt · 0) n (x :: s) = some (List.replicate n x ++ x :: s) := by
  induction n generalizing s with
  | zero => rfl
  | succ n ih =>
    rw [repeatM]
    show (some (x :: x :: s)).bind _ = _
    rw [Option.bind_some, ih, List.replicate_succ', List.append_assoc]
    rfl

/-- Pushing leaves what was there. -/
theorem drop_of_repeatM_pushAt {α : Type} {slot n : ℕ} {s t : List α}
    (h : repeatM (pushAt · slot) n s = some t) : t.drop n = s := by
  induction n generalizing s with
  | zero =>
    cases h
    rfl
  | succ n ih =>
    obtain ⟨u, hu, ht⟩ := Option.bind_eq_some_iff.mp h
    obtain ⟨x, -, hx⟩ := Option.bind_eq_some_iff.mp hu
    cases hx
    rw [← List.tail_drop, ih ht]
    rfl

/-- A second `PUSH` of a deeper slot finds the slot above it. -/
theorem slot_above_of_repeatM_pushAt {α : Type} {slot n : ℕ} {s : List α} {x : α}
    (h : repeatM (pushAt · (slot + 1)) (n + 2) s = some (List.replicate (n + 2) x ++ s)) :
    s[slot]? = some x := by
  obtain ⟨u, hu, h⟩ := Option.bind_eq_some_iff.mp h
  obtain ⟨y, hy, hyu⟩ := Option.bind_eq_some_iff.mp hu
  cases hyu
  obtain ⟨v, hv, h⟩ := Option.bind_eq_some_iff.mp h
  obtain ⟨z, hz, hzv⟩ := Option.bind_eq_some_iff.mp hv
  cases hzv
  have hdrop := drop_of_repeatM_pushAt h
  rw [← List.replicate_append_replicate, List.append_assoc, List.drop_left' (by simp)] at hdrop
  have hzx : x = z := (List.cons_eq_cons.mp hdrop).1
  rw [hzx]
  exact hz

/-! ### The pass at an instruction -/

theorem combinePushes_of_not_run {i : StackInstr Block} {is : List (StackInstr Block)}
    (h : ∀ mode size, startPushes i = some (mode, size) → ¬ 1 < size + collectPushes mode size is) :
    combinePushes i is = (0, some [i]) := by
  rw [combinePushes]
  split
  · rfl
  · rename_i mode size hstart
    rw [if_neg (h mode size hstart)]

theorem combinePushes_of_run {i : StackInstr Block} {is : List (StackInstr Block)}
    {mode : PushMode} {size : ℕ} (hstart : startPushes i = some (mode, size))
    (hrun : 1 < size + collectPushes mode size is) :
    combinePushes i is = (collectPushes mode size is,
      if (is.drop (collectPushes mode size is)).isEmpty then none
      else some (mode.kept i ++ [.BLKPUSH (size + collectPushes mode size is) mode.slot])) := by
  simp only [combinePushes, hstart]
  rw [if_pos hrun]

theorem startPushes_register {i : StackInstr Block} {reg size : ℕ}
    (h : startPushes i = some (.register reg, size)) : i = .PUSH reg ∧ size = 1 := by
  cases i <;> simp [startPushes] at h
  exact ⟨congrArg _ h.2.1, h.2.2.symm⟩

theorem startPushes_constant {i : StackInstr Block} {value : ℤ} {size : ℕ}
    (h : startPushes i = some (.constant value, size)) : i = .CONST_I257_S value ∧ size = 0 := by
  cases i <;> simp [startPushes] at h
  exact ⟨congrArg _ h.1, h.2.symm⟩

/-- The effect of the instructions of a run of a slot. -/
theorem execAll_taken_register {i : StackInstr Block} (is : List (StackInstr Block))
    {reg size : ℕ} (hstart : startPushes i = some (.register reg, size))
    (s : List (Value Block Data)) :
    execAll sem (i :: is.take (collectPushes (.register reg) size is)) s =
      s[reg]?.map fun x =>
        List.replicate (size + collectPushes (.register reg) size is) x ++ s := by
  obtain ⟨rfl, rfl⟩ := startPushes_register hstart
  rw [execAll_cons]
  show (pushAt s reg).bind _ = _
  cases hx : s[reg]? with
  | none => simp [pushAt, hx]
  | some x =>
    have hpush : pushAt s reg = some (List.replicate 1 x ++ s) := by
      simp [pushAt, hx]
    rw [hpush, Option.bind_some, execAll_collect_register sem is hx]
    rfl

/-- The effect of the instructions of a run of a constant. -/
theorem execAll_taken_constant {i : StackInstr Block} {is : List (StackInstr Block)} {value : ℤ}
    {size : ℕ} (hstart : startPushes i = some (.constant value, size))
    (s : List (Value Block Data)) :
    execAll sem (i :: is.take (collectPushes (.constant value) size is)) s =
      some (List.replicate (size + collectPushes (.constant value) size is) (.int value) ++
        .int value :: s) := by
  obtain ⟨rfl, rfl⟩ := startPushes_constant hstart
  rw [execAll_cons]
  show execAll sem _ (List.replicate 0 (.int value) ++ .int value :: s) = _
  exact execAll_collect_constant sem is _

/-- A run of a slot other than the top one: on a stack of different numbers `BLKPUSH` pushes two of
them. -/
theorem slot_eq_zero_of_sameEffect {i : StackInstr Block} {is : List (StackInstr Block)}
    {reg size : ℕ} (hstart : startPushes i = some (.register reg, size))
    (hlt : 1 < size + collectPushes (.register reg) size is)
    (hsame : SameEffect Data (i :: is.take (collectPushes (.register reg) size is))
      [.BLKPUSH (size + collectPushes (.register reg) size is) reg]) : reg = 0 := by
  cases reg with
  | zero => rfl
  | succ reg =>
    have hlook (j : ℕ) (hj : j < reg + 2) :
        ((List.range (reg + 2)).map fun j : ℕ => (Value.int j : Value Block Data))[j]? =
          some (.int j) := by
      simp [hj]
    have htaken := execAll_taken_register (fun _ _ => none) is hstart
      ((List.range (reg + 2)).map fun j : ℕ => (Value.int j : Value Block Data))
    rw [hlook (reg + 1) (by omega), Option.map_some] at htaken
    have hpushed := hsame _ _ _ htaken
    rw [execAll_cons, execAll_nil, Option.bind_fun_some] at hpushed
    obtain ⟨n, hn⟩ := Nat.exists_eq_add_of_le' hlt
    rw [hn] at hpushed
    have habove := slot_above_of_repeatM_pushAt hpushed
    rw [hlook reg (by omega)] at habove
    have hreg : (reg : ℤ) = (reg + 1 : ℕ) := Value.int.inj (Option.some.inj habove)
    omega

/-- What replaces a run has its effect exactly if it copies the top slot. -/
theorem sameEffect_run_iff {i : StackInstr Block} {is : List (StackInstr Block)} {mode : PushMode}
    {size : ℕ} (hstart : startPushes i = some (mode, size))
    (hlt : 1 < size + collectPushes mode size is) :
    SameEffect Data (i :: is.take (collectPushes mode size is))
        (mode.kept i ++ [.BLKPUSH (size + collectPushes mode size is) mode.slot]) ↔
      mode.slot = 0 := by
  cases mode with
  | register reg =>
    refine ⟨slot_eq_zero_of_sameEffect hstart hlt, ?_⟩
    rintro rfl sem s t h
    rw [execAll_taken_register sem _ hstart] at h
    obtain ⟨x, hx, rfl⟩ := Option.map_eq_some_iff.mp h
    cases s with
    | nil => cases hx
    | cons y s =>
      cases hx
      rw [PushMode.kept, List.nil_append, execAll_cons, execAll_nil, Option.bind_fun_some]
      exact repeatM_pushAt_zero _ _ _
  | constant value =>
    refine ⟨fun _ => rfl, fun _ sem s t h => ?_⟩
    rw [execAll_taken_constant sem hstart] at h
    rw [← h, PushMode.kept, List.singleton_append, (startPushes_constant hstart).1, execAll_cons]
    show execAll sem _ (.int value :: s) = _
    rw [execAll_cons, execAll_nil, Option.bind_fun_some]
    exact repeatM_pushAt_zero _ _ _

/-- **A run of pushes is replaced by pushes with the same effect exactly where it fits.** -/
theorem keepsEffect_iff (Data : Type) (p : StackInstr Block × List (StackInstr Block)) :
    KeepsEffect Data p ↔ RunFits p := by
  obtain ⟨i, is⟩ := p
  by_cases hrun : ∃ mode size, startPushes i = some (mode, size) ∧
      1 < size + collectPushes mode size is
  swap
  · -- nothing is combined
    have hnot : ∀ mode size, startPushes i = some (mode, size) →
        ¬ 1 < size + collectPushes mode size is :=
      fun mode size hstart hlt => hrun ⟨mode, size, hstart, hlt⟩
    have hcombine := combinePushes_of_not_run hnot
    refine ⟨fun _ mode size hstart hlt => absurd hlt (hnot mode size hstart),
      fun _ => ⟨[i], congrArg Prod.snd hcombine, ?_⟩⟩
    rw [taken, hcombine]
    exact fun sem s t h => h
  obtain ⟨mode, size, hstart, hlt⟩ := hrun
  have hcombine := combinePushes_of_run hstart hlt
  have hfits : RunFits (i, is) ↔
      is.drop (collectPushes mode size is) ≠ [] ∧ mode.slot = 0 := by
    refine ⟨fun h => h mode size hstart hlt, fun h mode' size' hstart' _ => ?_⟩
    cases hstart.symm.trans hstart'
    exact h
  have htaken : taken combinePushes (i, is) = i :: is.take (collectPushes mode size is) := by
    rw [taken, hcombine]
  rw [hfits, KeepsEffect, hcombine, htaken]
  constructor
  · rintro ⟨out, hout, hsame⟩
    split_ifs at hout with hempty
    cases hout
    exact ⟨by simpa using hempty, (sameEffect_run_iff hstart hlt).mp hsame⟩
  · rintro ⟨hne, hslot⟩
    refine ⟨_, ?_, (sameEffect_run_iff hstart hlt).mpr hslot⟩
    rw [if_neg (by simpa using hne)]

theorem SameEffect.append {as bs cs ds : List (StackInstr Block)} (h : SameEffect Data as bs)
    (h' : SameEffect Data cs ds) : SameEffect Data (as ++ cs) (bs ++ ds) := by
  intro sem s t hexec
  rw [execAll_append] at hexec ⊢
  obtain ⟨u, hu, ht⟩ := Option.bind_eq_some_iff.mp hexec
  rw [h sem s u hu]
  exact h' sem u t ht

/-- **At each instruction that the pass comes to, what it puts out keeps the effect exactly if the
run there fits, and where all runs fit, the block after the pass leaves the same stack.** -/
theorem runBlkPushCombine_spec (Data : Type) (block : List (StackInstr Block)) :
    (∀ p ∈ visits combinePushes block, KeepsEffect Data p ↔ RunFits p) ∧
      ((∀ p ∈ visits combinePushes block, RunFits p) →
        ∃ out, runBlkPushCombine block = some out ∧ SameEffect Data block out) := by
  refine ⟨fun p _ => keepsEffect_iff Data p, fun hfits => ?_⟩
  exact rewrite_of_visits combinePushes (fun sem s t h => h)
    (fun as bs cs ds h h' => h.append h') fun p hp => (keepsEffect_iff Data p).mpr (hfits p hp)

/-- Two pushes of the second slot, before an instruction. -/
theorem runBlkPushCombine_fails :
    runBlkPushCombine ([.PUSH 1, .PUSH 2, .JMPX_S] : List (StackInstr ℕ)) =
        some [.BLKPUSH 2 1, .JMPX_S] ∧
      ¬ SameEffect ℕ ([.PUSH 1, .PUSH 2, .JMPX_S] : List (StackInstr ℕ)) [.BLKPUSH 2 1, .JMPX_S] := by
  refine ⟨by decide, fun h => ?_⟩
  have hleft := h (fun _ _ => none) [.int 5, .cont 0] [.cont 0, .int 5, .cont 0] rfl
  cases hleft

end Pushes

end TVMCompiler
