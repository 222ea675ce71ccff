import TVMCompiler.Pass.IntrinsicLoops

/-!
# The expansions of the memory intrinsics

The code that is created in front of a call does what the call does, and then the block goes on
behind the call.

## Main definitions

* `CopyOf`, `MemCpyOf`, `MemMoveOf`, `MemSetOf`: what the calls do
* `Lowers`: the code in front of a call

## Main results

* `createMemCpyLoopKnownSize_lowers`: the copies of a known number of bytes
* `createByteLoop_lowers`, `createWideLoop_lowers`: the loops of an unknown number of bytes
* `createMemMoveLoop_lowers`, `createMemSetLoop_lowers`: the loops of `memmove` and of `memset`
-/

namespace TVMCompiler.LowerIntrinsics

open Lib Lib.Ssa

variable {X E : Type} {o : Others X E} {F : MemProgram X} {b k : ℕ}
  {src dst copyLen : MemValue} {srcTy dstTy ty : IntTy}

/-! ## What an expansion is for -/

/-- From the state to the memory: `y` bytes are copied from `s` to `d`. -/
structure CopyOf (o : Others X E) (src dst copyLen : MemValue) (s d y : Word) (env : ℕ → Val)
    (m m' : Memory) : Prop where
  src : toWord ((semantics o).value env src) = some s
  dst : toWord ((semantics o).value env dst) = some d
  length : toWord ((semantics o).value env copyLen) = some y
  fits_dst : Fits d.toNat y.toNat
  fits_src : Fits s.toNat y.toNat
  memory : m' = copyBytes m d.toNat s.toNat y.toNat

/-- `memcpy`. -/
def MemCpyOf (o : Others X E) (src dst copyLen : MemValue) (env : ℕ → Val) (m m' : Memory) : Prop :=
  ∃ s d y, CopyOf o src dst copyLen s d y env m m' ∧ Apart d.toNat s.toNat y.toNat

/-- `memmove`. -/
def MemMoveOf (o : Others X E) (src dst copyLen : MemValue) (env : ℕ → Val) (m m' : Memory) :
    Prop :=
  ∃ s d y, CopyOf o src dst copyLen s d y env m m'

/-- `memset`. -/
def MemSetOf (o : Others X E) (dst setValue copyLen : MemValue) (env : ℕ → Val) (m m' : Memory) :
    Prop :=
  ∃ d y, toWord ((semantics o).value env dst) = some d ∧
    toWord ((semantics o).value env copyLen) = some y ∧ Fits d.toNat y.toNat ∧
    m' = storeRange m d.toNat y.toNat fun _ => (semantics o).value env setValue 0

/-- The code that has been created in front of the `k`-th instruction of the block `b` does what the
relation says. -/
inductive Lowers (o : Others X E) (F : MemProgram X) (b k : ℕ)
    (R : (ℕ → Val) → Memory → Memory → Prop) : Created X → Prop where
  | split {G : MemProgram X} {code rest : List (MemInstr X)} (hlt : F.nextBlock < G.nextBlock)
      (h : SplitAt F G b k code rest)
      (hrun : ∀ env m m', R env m m' → ∃ j env',
        Trace ((G.eraseInstr F.nextBlock rest.length).step (semantics o)) j ⟨b, code, env, m⟩ []
          ⟨F.nextBlock, (F.block b).instrs.drop (k + 1), env', m'⟩ ∧ SameBelow F.next env env') :
      Lowers o F b k R ⟨G, F.nextBlock, rest.length⟩
  | inPlace {G : MemProgram X} {code : List (MemInstr X)}
      (hblock : G.block = (F.insertInstrs b k code).block) (hterm : G.term = F.term)
      (hnew : ∀ i ∈ code, NewInstr (fun _ => True) i)
      (hrun : ∀ env m m', R env m m' → ∃ env',
        (semantics o).exec code (env, m) = some (env', m') ∧ SameBelow F.next env env') :
      Lowers o F b k R ⟨G, b, k + code.length⟩

/-! ## The loops of `memcpy` -/

theorem Apart.forward {d s n : ℕ} (h : Apart d s n) : d ≤ s ∨ s + n ≤ d := by
  unfold Apart at h
  omega

theorem loopIndex_find?_pre (n pre loop newIndex : ℕ) :
    (loopIndex n pre loop newIndex).incoming.find? (·.2 = pre) = some (.const 0, pre) :=
  List.find?_cons_of_pos (decide_eq_true rfl)

theorem loopIndex_find?_loop {n pre loop newIndex : ℕ} (h : pre ≠ loop) :
    (loopIndex n pre loop newIndex).incoming.find? (·.2 = loop) = some (.name newIndex, loop) := by
  unfold loopIndex
  rw [List.find?_cons_of_neg (by simpa using h)]
  exact List.find?_cons_of_pos (decide_eq_true rfl)

theorem createByteLoop_splitAt (hb : b < F.nextBlock) :
    SplitAt F (createByteLoop F b k src dst srcTy dstTy copyLen).program b k
      ((castPointer F.next src srcTy ByteTy).2 ++ (castPointer (F.next + 1) dst dstTy ByteTy).2 ++
        [⟨F.next + 2, .icmpNE, [copyLen, .const 0]⟩]) [] := by
  have hsplit : SplitAt F (F.addNames 10 |>.splitBasicBlock b k) b k [] [] :=
    (SplitAt.splitBasicBlock (F := F.addNames 10) hb k).congr rfl rfl rfl
  exact ((hsplit.addBlock (Nat.lt_succ_self _) _ _ _ hb).appendInstrs _ hb).setTerm (.inl rfl) _ hb

/-- The casts in front of a loop. -/
theorem exec_casts (env : ℕ → Val) (m : Memory) (srcTy dstTy ty : IntTy) {n : ℕ}
    (hsrc : src.Below n) (hdst : dst.Below n) :
    ∃ env', (semantics o).exec ((castPointer n src srcTy ty).2 ++
        (castPointer (n + 1) dst dstTy ty).2) (env, m) = some (env', m) ∧ SameBelow n env env' ∧
      (semantics o).value env' (castPointer (X := X) n src srcTy ty).1 =
        (semantics o).value env src ∧
      (semantics o).value env' (castPointer (X := X) (n + 1) dst dstTy ty).1 =
        (semantics o).value env dst ∧
      (castPointer (X := X) n src srcTy ty).1.Below (n + 2) ∧
      (castPointer (X := X) (n + 1) dst dstTy ty).1.Below (n + 2) := by
  have hdst' : dst.Below (n + 1) := below_mono hdst (Nat.le_succ n)
  obtain ⟨env₁, hexec₁, hsame₁, hvalue₁, hbelow₁⟩ := exec_castPointer (o := o) env m srcTy ty hsrc
  obtain ⟨env₂, hexec₂, hsame₂, hvalue₂, hbelow₂⟩ := exec_castPointer (o := o) env₁ m dstTy ty hdst'
  refine ⟨env₂, exec_append_some hexec₁ hexec₂, hsame₁.trans (hsame₂.mono (Nat.le_succ n)), ?_, ?_,
    below_mono hbelow₁ (Nat.le_succ _), hbelow₂⟩
  · rw [hsame₂.value hbelow₁, hvalue₁]
  · rw [hvalue₂, hsame₁.value hdst]

/-- **A block that ends in a test.** -/
theorem trace_test {code : List (MemInstr X)} {env env' : ℕ → Val} {m m' : Memory}
    {cond : MemValue} {ifTrue ifFalse : ℕ} {p : Prop} [Decidable p]
    (hexec : (semantics o).exec code (env, m) = some (env', m'))
    (hnew : ∀ i ∈ code, NewInstr (fun _ => True) i)
    (hterm : F.term b = .condBr cond ifTrue ifFalse)
    (htest : (semantics o).truth ((semantics o).value env' cond) = some (decide p)) :
    ∃ j, Trace (F.step (semantics o)) j ⟨b, code, env, m⟩ []
      (F.enter (semantics o) b (if p then ifTrue else ifFalse) env' m') := by
  have hfirst := trace_instrs (F := F) (b := b) hexec
    (fun i hi => event_of_isBasic (hnew i hi).1) []
  rw [List.append_nil] at hfirst
  have hrun := hfirst.silent_append (trace_condBr hterm htest)
  simp only [decide_eq_true_eq] at hrun
  exact ⟨_, hrun⟩

/-- A comparison with 0. -/
theorem eval_icmpNE_zero {v : Val} {y : Word} (hv : toWord v = some y) (m : Memory) :
    eval o.eval .icmpNE [v, ofWord 0] m = some (ofWord (ofBool (decide (0 < y.toNat))), m) := by
  have hne : y ≠ 0 ↔ 0 < y.toNat := by
    rw [← BitVec.toNat_ne_iff_ne, BitVec.ofNat_eq_ofNat, BitVec.toNat_zero, Nat.pos_iff_ne_zero]
  show some (arith _ _ _, m) = _
  rw [arith_ofWord _ hv (toWord_ofWord 0), decide_eq_decide.mpr hne]

theorem createByteLoop_lowers (hb : b < F.nextBlock) (hsrc : src.Below F.next)
    (hdst : dst.Below F.next) (hlen : copyLen.Below F.next) :
    Lowers o F b k (MemCpyOf o src dst copyLen)
      (createByteLoop F b k src dst srcTy dstTy copyLen) := by
  refine .split (Nat.lt_add_of_pos_right (by decide : 0 < 2)) (createByteLoop_splitAt hb) ?_
  rintro env m m' ⟨s, d, y, h, hapart⟩
  let H := (createByteLoop F b k src dst srcTy dstTy copyLen).program.eraseInstr F.nextBlock 0
  have hpost : H.block F.nextBlock = ⟨[], (F.block b).instrs.drop (k + 1)⟩ :=
    (createByteLoop_splitAt hb).eraseInstr_block
  have hterm : H.term b = .condBr (.name (F.next + 2)) (F.nextBlock + 1) F.nextBlock := by
    simp [H, createByteLoop]
  have hloop : H.block (F.nextBlock + 1) = ⟨[loopIndex (F.next + 3) b (F.nextBlock + 1)
      (F.next + 8)],
      copyElement (F.next + 4) ByteTy (castPointer (X := X) F.next src srcTy ByteTy).1
        (castPointer (X := X) (F.next + 1) dst dstTy ByteTy).1 (.name (F.next + 3)) ++
      nextIndex (F.next + 8) .icmpULT (.name (F.next + 3)) copyLen⟩ := by
    have hb' : F.nextBlock + 1 ≠ b := by omega
    simp [H, createByteLoop, hb']
  have hloopTerm : H.term (F.nextBlock + 1) =
      .condBr (.name (F.next + 9)) (F.nextBlock + 1) F.nextBlock := by
    have hb' : F.nextBlock + 1 ≠ b := by omega
    simp [H, createByteLoop, hb']
  -- the block in front of the loop
  obtain ⟨env₁, hexec₁, hsame₁, hvalue, hvalue', hbelow, hbelow'⟩ := exec_casts (o := o) env m
    srcTy dstTy ByteTy hsrc hdst
  have hy : toWord ((semantics o).value env₁ copyLen) = some y := by
    rw [hsame₁.value hlen, h.length]
  have hexec₂ := exec_instr (i := ⟨F.next + 2, .icmpNE, [copyLen, .const 0]⟩)
    (eval_icmpNE_zero hy m)
  let env₂ := Function.update env₁ (F.next + 2) (ofWord (ofBool (decide (0 < y.toNat))))
  have hsame₂ : SameBelow (F.next + 2) env₁ env₂ := .update env₁ (Nat.le_refl _) _
  have hsame : SameBelow F.next env env₂ := hsame₁.trans (hsame₂.mono (Nat.le_add_right _ 2))
  have htest : (semantics o).truth ((semantics o).value env₂ (.name (F.next + 2) : MemValue)) =
      some (decide (0 < y.toNat)) := by
    show (semantics o).truth (Function.update env₁ (F.next + 2) _ (F.next + 2)) = _
    rw [Function.update_self, truth_ofBool]
  obtain ⟨_, hpre⟩ := trace_test (F := H) (exec_append_some hexec₁ hexec₂)
    (newInstr_append (newInstr_append (castPointer_new trivial) (castPointer_new trivial))
      (newInstr_cons rfl (fun _ _ => trivial) newInstr_nil)) hterm htest
  by_cases hpos : 0 < y.toNat
  · rw [if_pos hpos] at hpre
    have hs₂ : toWord ((semantics o).value env₂ (castPointer (X := X) F.next src srcTy ByteTy).1) =
        some s := by rw [hsame₂.value hbelow, hvalue, h.src]
    have hd₂ : toWord ((semantics o).value env₂
        (castPointer (X := X) (F.next + 1) dst dstTy ByteTy).1) = some d := by
      rw [hsame₂.value hbelow', hvalue', h.dst]
    have hy₂ : toWord ((semantics o).value env₂ copyLen) = some y := by
      rw [hsame.value hlen, h.length]
    have hone : y.toNat * storeSize ByteTy = y.toNat := by rw [storeSize_byteTy, Nat.mul_one]
    obtain ⟨j, env₃, hrun, hsame₃⟩ := trace_copyLoop (m := m) b F.nextBlock hloop hloopTerm .ult rfl
      (loopIndex_find?_pre _ _ _ _) (loopIndex_find?_loop (by omega))
      (below_mono hbelow (Nat.le_succ _)) (below_mono hbelow' (Nat.le_succ _))
      (below_mono hlen (Nat.le_add_right _ 3)) hs₂ hd₂ hy₂ hpos (by decide)
      (hone.symm ▸ h.fits_dst) (hone.symm ▸ h.fits_src) (hone.symm ▸ hapart.forward)
    rw [enter_of_phis_nil hpost, hone, ← h.memory] at hrun
    exact ⟨_, env₃, hpre.silent_append hrun, hsame.trans (hsame₃.mono (Nat.le_add_right _ 3))⟩
  · -- nothing is copied
    rw [if_neg hpos, enter_of_phis_nil hpost] at hpre
    obtain rfl : m' = m := by rw [h.memory, Nat.eq_zero_of_not_pos hpos, copyBytes_zero]
    exact ⟨_, env₂, hpre, hsame⟩

/-- The counts in front of a loop of wider elements. -/
theorem exec_counts {env : ℕ → Val} {m : Memory} {n z : ℕ} {y : Word} (hlen : copyLen.Below n)
    (hy : toWord ((semantics o).value env copyLen) = some y) (hpos : 0 < z)
    (hz : z < 2 ^ ByteSizeInBits) :
    ∃ env', (semantics o).exec [⟨n, .udiv, [copyLen, .const (.ofNat _ z)]⟩,
        ⟨n + 1, .urem, [copyLen, .const (.ofNat _ z)]⟩, ⟨n + 2, .sub, [copyLen, .name (n + 1)]⟩,
        ⟨n + 3, .icmpNE, [.name n, .const 0]⟩] (env, m) = some (env', m) ∧ SameBelow n env env' ∧
      env' n = ofWord (.ofNat _ (y.toNat / z)) ∧ env' (n + 1) = ofWord (.ofNat _ (y.toNat % z)) ∧
      env' (n + 2) = ofWord (.ofNat _ (y.toNat / z * z)) ∧
      env' (n + 3) = ofWord (ofBool (decide (0 < y.toNat / z))) := by
  have hzw : (BitVec.ofNat ByteSizeInBits z).toNat = z := by
    rw [BitVec.toNat_ofNat, Nat.mod_eq_of_lt hz]
  have hzero : BitVec.ofNat ByteSizeInBits z ≠ 0 := by
    rw [← BitVec.toNat_ne_iff_ne, hzw, BitVec.ofNat_eq_ofNat, BitVec.toNat_zero]
    exact hpos.ne'
  have hdiv : BitVec.udiv y (.ofNat _ z) = .ofNat _ (y.toNat / z) := by
    rw [← BitVec.toNat_inj, toNat_ofNat_of_le (Nat.div_le_self y.toNat z)]
    show (y / BitVec.ofNat _ z).toNat = _
    rw [BitVec.toNat_udiv, hzw]
  have hmod : BitVec.umod y (.ofNat _ z) = .ofNat _ (y.toNat % z) := by
    rw [← BitVec.toNat_inj, toNat_ofNat_of_le (Nat.mod_le y.toNat z)]
    show (y % BitVec.ofNat _ z).toNat = _
    rw [BitVec.toNat_umod, hzw]
  have hcopied : y - .ofNat _ (y.toNat % z) = .ofNat _ (y.toNat / z * z) := by
    have hsplit := Nat.div_add_mod' y.toNat z
    rw [← BitVec.toNat_inj, toNat_ofNat_of_le (Nat.div_mul_le_self y.toNat z),
      BitVec.toNat_sub_of_le, toNat_ofNat_of_le (Nat.mod_le y.toNat z)]
    · omega
    · rw [BitVec.le_def, toNat_ofNat_of_le (Nat.mod_le y.toNat z)]
      exact Nat.mod_le y.toNat z
  -- one instruction after the other
  have heval₁ : eval o.eval .udiv [(semantics o).value env copyLen, ofWord (.ofNat _ z)] m =
      some (ofWord (.ofNat _ (y.toNat / z)), m) := by
    show (if BitVec.ofNat ByteSizeInBits z = 0 then none else some (arith _ _ _, m)) = _
    rw [if_neg hzero, arith_ofWord _ hy (toWord_ofWord _), hdiv]
  let env₁ := Function.update env n (ofWord (.ofNat _ (y.toNat / z)))
  have hsame₁ : SameBelow n env env₁ := .update env (Nat.le_refl n) _
  have hy₁ : toWord ((semantics o).value env₁ copyLen) = some y := by rw [hsame₁.value hlen, hy]
  have heval₂ : eval o.eval .urem [(semantics o).value env₁ copyLen, ofWord (.ofNat _ z)] m =
      some (ofWord (.ofNat _ (y.toNat % z)), m) := by
    show (if BitVec.ofNat ByteSizeInBits z = 0 then none else some (arith _ _ _, m)) = _
    rw [if_neg hzero, arith_ofWord _ hy₁ (toWord_ofWord _), hmod]
  let env₂ := Function.update env₁ (n + 1) (ofWord (.ofNat _ (y.toNat % z)))
  have hsame₂ : SameBelow (n + 1) env₁ env₂ := .update env₁ (Nat.le_refl _) _
  have hy₂ : toWord ((semantics o).value env₂ copyLen) = some y := by
    rw [hsame₂.value (below_mono hlen (Nat.le_succ n)), hy₁]
  have hresidual : env₂ (n + 1) = ofWord (.ofNat _ (y.toNat % z)) := Function.update_self _ _ _
  have heval₃ : eval o.eval .sub [(semantics o).value env₂ copyLen, env₂ (n + 1)] m =
      some (ofWord (.ofNat _ (y.toNat / z * z)), m) := by
    show some (arith _ _ _, m) = _
    rw [hresidual, arith_ofWord _ hy₂ (toWord_ofWord _), hcopied]
  let env₃ := Function.update env₂ (n + 2) (ofWord (.ofNat _ (y.toNat / z * z)))
  have hsame₃ : SameBelow (n + 2) env₂ env₃ := .update env₂ (Nat.le_refl _) _
  have hcount : env₃ n = ofWord (.ofNat _ (y.toNat / z)) := by
    rw [hsame₃ n (by omega), hsame₂ n (Nat.lt_succ_self n)]
    exact Function.update_self _ _ _
  have heval₄ : eval o.eval .icmpNE [env₃ n, ofWord 0] m =
      some (ofWord (ofBool (decide (0 < y.toNat / z))), m) := by
    rw [hcount, eval_icmpNE_zero (toWord_ofWord _), toNat_ofNat_of_le (Nat.div_le_self y.toNat z)]
  have hsame₄ : SameBelow (n + 3) env₃ (Function.update env₃ (n + 3)
      (ofWord (ofBool (decide (0 < y.toNat / z))))) := .update env₃ (Nat.le_refl _) _
  refine ⟨_, exec_cons_some (exec_instr heval₁) (exec_cons_some (exec_instr heval₂) (exec_cons_some
    (exec_instr heval₃) (exec_instr heval₄))), hsame₁.trans ((hsame₂.mono (by omega)).trans
    ((hsame₃.mono (by omega)).trans (hsame₄.mono (by omega)))), ?_, ?_, ?_,
    Function.update_self _ _ _⟩
  · rw [hsame₄ n (by omega), hcount]
  · rw [hsame₄ (n + 1) (by omega), hsame₃ (n + 1) (by omega), hresidual]
  · rw [hsame₄ (n + 2) (by omega)]
    exact Function.update_self _ _ _

theorem createWideLoop_splitAt (hb : b < F.nextBlock) :
    SplitAt F (createWideLoop F b k src dst srcTy dstTy ty copyLen).program b k
      ((castPointer F.next src srcTy ty).2 ++ (castPointer (F.next + 1) dst dstTy ty).2 ++
        [⟨F.next + 2, .udiv, [copyLen, .const (.ofNat _ (getLoopOperandSizeInBytes ty))]⟩,
          ⟨F.next + 3, .urem, [copyLen, .const (.ofNat _ (getLoopOperandSizeInBytes ty))]⟩,
          ⟨F.next + 4, .sub, [copyLen, .name (F.next + 3)]⟩,
          ⟨F.next + 5, .icmpNE, [.name (F.next + 2), .const 0]⟩]) [] := by
  have hsplit : SplitAt F (F.addNames 24 |>.splitBasicBlock b k) b k [] [] :=
    (SplitAt.splitBasicBlock (F := F.addNames 24) hb k).congr rfl rfl rfl
  exact ((((hsplit.addBlock (Nat.lt_succ_self _) _ _ _ hb).addBlock (Nat.lt_add_right 1
    (Nat.lt_succ_self _)) _ _ _ hb).addBlock (Nat.lt_add_right 2 (Nat.lt_succ_self _)) _ _ _
    hb).appendInstrs _ hb).setTerm (.inl rfl) _ hb

/-- From the header on, the bytes that are left are copied. -/
theorem trace_residual {H : MemProgram X} {header loop post n : ℕ} {is : List (MemInstr X)}
    {env : ℕ → Val} {m : Memory} {s d y : Word} {copied : ℕ} (hpost : H.block post = ⟨[], is⟩)
    (hheader : H.block header = ⟨[], [⟨n + 13, .icmpNE, [.name (n + 3), .const 0]⟩]⟩)
    (hheaderTerm : H.term header = .condBr (.name (n + 13)) loop post)
    (hloop : H.block loop = ⟨[loopIndex (n + 14) header loop (n + 22)],
      (castPointer (n + 15) src ty ByteTy).2 ++ (castPointer (n + 16) dst ty ByteTy).2 ++
      [⟨n + 17, .add, [.name (n + 4), .name (n + 14)]⟩] ++
      copyElement (n + 18) ByteTy (castPointer (X := X) (n + 15) src ty ByteTy).1
        (castPointer (X := X) (n + 16) dst ty ByteTy).1 (.name (n + 17)) ++
      nextIndex (n + 22) .icmpULT (.name (n + 14)) (.name (n + 3))⟩)
    (hloopTerm : H.term loop = .condBr (.name (n + 23)) loop post) (hne : header ≠ loop)
    (hsrc : src.Below (n + 2)) (hdst : dst.Below (n + 2))
    (hs : toWord ((semantics o).value env src) = some s)
    (hd : toWord ((semantics o).value env dst) = some d)
    (hcopied : env (n + 4) = ofWord (.ofNat _ copied)) (hy : env (n + 3) = ofWord y)
    (hfits : Fits d.toNat (copied + y.toNat)) (hfits' : Fits s.toNat (copied + y.toNat))
    (hforward : d.toNat ≤ s.toNat ∨ s.toNat + (copied + y.toNat) ≤ d.toNat) (p : ℕ) :
    ∃ j env', Trace (H.step (semantics o)) j
        (H.enter (semantics o) p header env (copyBytes m d.toNat s.toNat copied)) []
        ⟨post, is, env', copyBytes m d.toNat s.toNat (copied + y.toNat)⟩ ∧
      SameBelow n env env' := by
  let m₁ := copyBytes m d.toNat s.toNat copied
  have hcmp : eval o.eval .icmpNE [env (n + 3), ofWord 0] m₁ =
      some (ofWord (ofBool (decide (0 < y.toNat))), m₁) := by
    rw [hy, eval_icmpNE_zero (toWord_ofWord y)]
  have hexec := exec_instr (i := ⟨n + 13, .icmpNE, [.name (n + 3), .const 0]⟩) hcmp
  let env₁ := Function.update env (n + 13) (ofWord (ofBool (decide (0 < y.toNat))))
  have hsame : SameBelow (n + 13) env env₁ := .update env (Nat.le_refl _) _
  have htest : (semantics o).truth ((semantics o).value env₁ (.name (n + 13) : MemValue)) =
      some (decide (0 < y.toNat)) := by
    show (semantics o).truth (Function.update env (n + 13) _ (n + 13)) = _
    rw [Function.update_self, truth_ofBool]
  obtain ⟨_, hrun⟩ := trace_test (F := H) hexec
    (newInstr_cons rfl (fun _ _ => trivial) newInstr_nil) hheaderTerm htest
  rw [enter_of_phis_nil hheader]
  by_cases hpos : 0 < y.toNat
  · rw [if_pos hpos] at hrun
    have hs₁ : toWord ((semantics o).value env₁ src) = some s := by
      rw [hsame.value (below_mono hsrc (by omega)), hs]
    have hd₁ : toWord ((semantics o).value env₁ dst) = some d := by
      rw [hsame.value (below_mono hdst (by omega)), hd]
    have hcopied₁ : toWord ((semantics o).value env₁ (.name (n + 4) : MemValue)) =
        some (.ofNat _ copied) := congrArg toWord ((hsame (n + 4) (by omega)).trans hcopied)
    have hy₁ : toWord ((semantics o).value env₁ (.name (n + 3) : MemValue)) = some y :=
      congrArg toWord ((hsame (n + 3) (by omega)).trans hy)
    obtain ⟨j, env₂, hrest, hsame₂⟩ := trace_residualLoop (m := m) post hloop hloopTerm rfl
      (loopIndex_find?_pre _ _ _ _) (loopIndex_find?_loop hne) (below_mono hsrc (by omega))
      (below_mono hdst (by omega)) (below_name (by omega)) (below_name (by omega)) hs₁ hd₁ hcopied₁
      hy₁ hpos hfits hfits' hforward
    rw [enter_of_phis_nil hpost] at hrest
    exact ⟨_, env₂, hrun.silent_append hrest,
      (hsame.mono (by omega)).trans (hsame₂.mono (by omega))⟩
  · -- nothing is left
    rw [if_neg hpos, enter_of_phis_nil hpost] at hrun
    rw [Nat.eq_zero_of_not_pos hpos]
    exact ⟨_, env₁, hrun, hsame.mono (by omega)⟩

theorem createWideLoop_lowers (hb : b < F.nextBlock) (hty : WholeBytes ty)
    (hsize : getLoopOperandSizeInBytes ty < 2 ^ ByteSizeInBits) (hsrc : src.Below F.next)
    (hdst : dst.Below F.next) (hlen : copyLen.Below F.next) :
    Lowers o F b k (MemCpyOf o src dst copyLen)
      (createWideLoop F b k src dst srcTy dstTy ty copyLen) := by
  refine .split (Nat.lt_add_of_pos_right (by decide : 0 < 4)) (createWideLoop_splitAt hb) ?_
  rintro env m m' ⟨s, d, y, h, hapart⟩
  let H := (createWideLoop F b k src dst srcTy dstTy ty copyLen).program.eraseInstr F.nextBlock 0
  have hb₁ : F.nextBlock + 1 ≠ b := by omega
  have hb₂ : F.nextBlock + 1 + 1 ≠ b := by omega
  have hb₃ : F.nextBlock + 1 + 1 + 1 ≠ b := by omega
  have hpost : H.block F.nextBlock = ⟨[], (F.block b).instrs.drop (k + 1)⟩ :=
    (createWideLoop_splitAt hb).eraseInstr_block
  have hterm : H.term b = .condBr (.name (F.next + 5)) (F.nextBlock + 1) (F.nextBlock + 3) := by
    simp [H, createWideLoop]
  have hloop : H.block (F.nextBlock + 1) = ⟨[loopIndex (F.next + 6) b (F.nextBlock + 1)
      (F.next + 11)], copyElement (F.next + 7) ty (castPointer (X := X) F.next src srcTy ty).1
        (castPointer (X := X) (F.next + 1) dst dstTy ty).1 (.name (F.next + 6)) ++
      nextIndex (F.next + 11) .icmpULT (.name (F.next + 6)) (.name (F.next + 2))⟩ := by
    simp [H, createWideLoop, hb₁]
  have hloopTerm : H.term (F.nextBlock + 1) =
      .condBr (.name (F.next + 12)) (F.nextBlock + 1) (F.nextBlock + 3) := by
    simp [H, createWideLoop, hb₁]
  have hres : H.block (F.nextBlock + 2) = ⟨[loopIndex (F.next + 14) (F.nextBlock + 3)
      (F.nextBlock + 2) (F.next + 22)],
      (castPointer (F.next + 15) (castPointer (X := X) F.next src srcTy ty).1 ty ByteTy).2 ++
      (castPointer (F.next + 16) (castPointer (X := X) (F.next + 1) dst dstTy ty).1 ty ByteTy).2 ++
      [⟨F.next + 17, .add, [.name (F.next + 4), .name (F.next + 14)]⟩] ++
      copyElement (F.next + 18) ByteTy
        (castPointer (X := X) (F.next + 15) (castPointer (X := X) F.next src srcTy ty).1 ty
          ByteTy).1
        (castPointer (X := X) (F.next + 16) (castPointer (X := X) (F.next + 1) dst dstTy ty).1 ty
          ByteTy).1 (.name (F.next + 17)) ++
      nextIndex (F.next + 22) .icmpULT (.name (F.next + 14)) (.name (F.next + 3))⟩ := by
    simp [H, createWideLoop, hb₂]
  have hresTerm : H.term (F.nextBlock + 2) =
      .condBr (.name (F.next + 23)) (F.nextBlock + 2) F.nextBlock := by
    simp [H, createWideLoop, hb₂]
  have hheader : H.block (F.nextBlock + 3) =
      ⟨[], [⟨F.next + 13, .icmpNE, [.name (F.next + 3), .const 0]⟩]⟩ := by
    simp [H, createWideLoop, hb₃]
  have hheaderTerm : H.term (F.nextBlock + 3) =
      .condBr (.name (F.next + 13)) (F.nextBlock + 2) F.nextBlock := by
    simp [H, createWideLoop, hb₃]
  let z := getLoopOperandSizeInBytes ty
  -- the block in front of the loop
  obtain ⟨env₁, hexec₁, hsame₁, hvalue, hvalue', hbelow, hbelow'⟩ := exec_casts (o := o) env m
    srcTy dstTy ty hsrc hdst
  have hy₁ : toWord ((semantics o).value env₁ copyLen) = some y := by
    rw [hsame₁.value hlen, h.length]
  obtain ⟨env₂, hexec₂, hsame₂, hcount, hresidual, hcopied, hnonzero⟩ := exec_counts (m := m)
    (below_mono hlen (Nat.le_add_right _ 2)) hy₁ hty.size_pos hsize
  have hsame : SameBelow F.next env env₂ := hsame₁.trans (hsame₂.mono (Nat.le_add_right _ 2))
  have htest : (semantics o).truth ((semantics o).value env₂ (.name (F.next + 5) : MemValue)) =
      some (decide (0 < y.toNat / z)) := by
    show (semantics o).truth (env₂ (F.next + 2 + 3)) = _
    rw [hnonzero, truth_ofBool]
  have htrue {v : List MemValue} : ∀ x ∈ v, True := fun _ _ => trivial
  obtain ⟨_, hpre⟩ := trace_test (F := H) (exec_append_some hexec₁ hexec₂)
    (newInstr_append (newInstr_append (castPointer_new trivial) (castPointer_new trivial))
      (newInstr_cons rfl htrue (newInstr_cons rfl htrue (newInstr_cons rfl htrue
      (newInstr_cons rfl htrue newInstr_nil))))) hterm htest
  -- the state behind the loop
  have hs₂ : toWord ((semantics o).value env₂ (castPointer (X := X) F.next src srcTy ty).1) =
      some s := by rw [hsame₂.value hbelow, hvalue, h.src]
  have hd₂ : toWord ((semantics o).value env₂ (castPointer (X := X) (F.next + 1) dst dstTy ty).1) =
      some d := by rw [hsame₂.value hbelow', hvalue', h.dst]
  have hrem : (BitVec.ofNat ByteSizeInBits (y.toNat % z)).toNat = y.toNat % z :=
    toNat_ofNat_of_le (Nat.mod_le _ _)
  have hsplit : y.toNat / z * z + (BitVec.ofNat ByteSizeInBits (y.toNat % z)).toNat = y.toNat := by
    rw [hrem, Nat.div_add_mod']
  have hrest (env₃ : ℕ → Val) (hsame₃ : SameBelow (F.next + 6) env₂ env₃) (p : ℕ) :
      ∃ j env₄, Trace (H.step (semantics o)) j (H.enter (semantics o) p (F.nextBlock + 3) env₃
        (copyBytes m d.toNat s.toNat (y.toNat / z * z))) []
        ⟨F.nextBlock, (F.block b).instrs.drop (k + 1), env₄, m'⟩ ∧ SameBelow F.next env₃ env₄ := by
    obtain ⟨j, env₄, hrun, hsame₄⟩ := trace_residual (m := m) (n := F.next)
      (y := .ofNat _ (y.toNat % z)) hpost hheader hheaderTerm hres hresTerm (by omega) hbelow
      hbelow'
      (by rwa [hsame₃.value (below_mono hbelow (by omega))])
      (by rwa [hsame₃.value (below_mono hbelow' (by omega))])
      ((hsame₃ (F.next + 4) (by omega)).trans hcopied)
      ((hsame₃ (F.next + 3) (by omega)).trans hresidual)
      (hsplit.symm ▸ h.fits_dst) (hsplit.symm ▸ h.fits_src) (hsplit.symm ▸ hapart.forward) p
    rw [hsplit, ← h.memory] at hrun
    exact ⟨j, env₄, hrun, hsame₄⟩
  by_cases hpos : 0 < y.toNat / z
  · rw [if_pos hpos] at hpre
    have hcount₂ : toWord ((semantics o).value env₂ (.name (F.next + 2) : MemValue)) =
        some (.ofNat _ (y.toNat / z)) := congrArg toWord hcount
    have hq : (BitVec.ofNat ByteSizeInBits (y.toNat / z)).toNat = y.toNat / z :=
      toNat_ofNat_of_le (Nat.div_le_self _ _)
    have hle : (BitVec.ofNat ByteSizeInBits (y.toNat / z)).toNat * storeSize ty ≤ y.toNat := by
      rw [hq, hty.storeSize]
      exact Nat.div_mul_le_self y.toNat z
    obtain ⟨j, env₃, hrun, hsame₃⟩ := trace_copyLoop (m := m) b (F.nextBlock + 3) hloop hloopTerm
      .ult rfl (loopIndex_find?_pre _ _ _ _) (loopIndex_find?_loop (by omega))
      (below_mono hbelow (by omega)) (below_mono hbelow' (by omega)) (below_name (by omega)) hs₂ hd₂
      hcount₂ (by rwa [hq]) (hty.storeSize ▸ hty.size_pos)
      (Nat.le_trans (Nat.add_le_add_left hle _) h.fits_dst)
      (Nat.le_trans (Nat.add_le_add_left hle _) h.fits_src)
      (hapart.forward.imp_right fun h => Nat.le_trans (Nat.add_le_add_left hle _) h)
    rw [hq, hty.storeSize] at hrun
    obtain ⟨j', env₄, hrun', hsame₄⟩ := hrest env₃ hsame₃ (F.nextBlock + 1)
    exact ⟨_, env₄, (hpre.silent_append hrun).silent_append hrun',
      hsame.trans ((hsame₃.mono (by omega)).trans hsame₄)⟩
  · -- there is no element of this size
    rw [if_neg hpos] at hpre
    have hmem : copyBytes m d.toNat s.toNat (y.toNat / z * z) = m := by
      rw [Nat.eq_zero_of_not_pos hpos, Nat.zero_mul, copyBytes_zero]
    obtain ⟨j', env₃, hrun', hsame₃⟩ := hrest env₂ (.refl _ _) b
    rw [hmem] at hrun'
    exact ⟨_, env₃, hpre.silent_append hrun', hsame.trans hsame₃⟩

section KnownSize

variable {loopEndCount bytesCopied : ℕ} {remainingOps : List IntTy}

theorem createLoopKnownSize_splitAt (hb : b < F.nextBlock) :
    SplitAt F (createLoopKnownSize F b k src dst srcTy dstTy ty loopEndCount bytesCopied
      remainingOps).program b k
      ((castPointer F.next src srcTy ty).2 ++ (castPointer (F.next + 1) dst dstTy ty).2)
      (residualCopies remainingOps (F.next + 9) (castPointer (X := X) F.next src srcTy ty).1
        (castPointer (X := X) (F.next + 1) dst dstTy ty).1 ty ty bytesCopied) := by
  have hsplit : SplitAt F (F.addNames (9 + 6 * remainingOps.length) |>.splitBasicBlock b k) b k []
      [] := (SplitAt.splitBasicBlock (F := F.addNames _) hb k).congr rfl rfl rfl
  have h : SplitAt F (createLoopKnownSize F b k src dst srcTy dstTy ty loopEndCount bytesCopied
      remainingOps).program b k _ (residualCopies remainingOps (F.next + 9) _ _ ty ty bytesCopied ++
        []) :=
    (((hsplit.setTerm (.inl rfl) _ hb).addBlock (Nat.lt_succ_self _) _ _ _ hb).appendInstrs _
      hb).insertInstrs _ hb
  rwa [List.append_nil] at h

theorem silent_residualCopies (n : ℕ) :
    ∀ i ∈ residualCopies (X := X) remainingOps n src dst srcTy dstTy bytesCopied, ∀ args,
      (semantics o).event i.op args = none :=
  fun i hi => event_of_isBasic (residualCopies_new (P := fun _ => True) (fun _ => trivial) trivial
    trivial _ _ _ (fun _ _ => trivial) i hi).1

theorem createLoopKnownSize_lowers {c : Word} (hb : b < F.nextBlock) (hty : WholeBytes ty)
    (hsrc : src.Below F.next) (hdst : dst.Below F.next) (hpos : 0 < loopEndCount)
    (hbytes : bytesCopied = loopEndCount * getLoopOperandSizeInBytes ty)
    (hrest : CopiesRest remainingOps bytesCopied c.toNat) :
    Lowers o F b k (MemCpyOf o src dst (.const c))
      (createLoopKnownSize F b k src dst srcTy dstTy ty loopEndCount bytesCopied remainingOps) := by
  refine .split (Nat.lt_add_of_pos_right (by decide : 0 < 2)) (createLoopKnownSize_splitAt hb) ?_
  rintro env m m' ⟨s, d, y, h, hapart⟩
  obtain rfl : c = y := Option.some.inj h.length
  let rest := residualCopies (X := X) remainingOps (F.next + 9)
    (castPointer (X := X) F.next src srcTy ty).1 (castPointer (X := X) (F.next + 1) dst dstTy ty).1
    ty ty bytesCopied
  let H := (createLoopKnownSize F b k src dst srcTy dstTy ty loopEndCount bytesCopied
    remainingOps).program.eraseInstr F.nextBlock rest.length
  have hb₁ : F.nextBlock + 1 ≠ b := by omega
  have hpost : H.block F.nextBlock = ⟨[], rest ++ (F.block b).instrs.drop (k + 1)⟩ :=
    (createLoopKnownSize_splitAt hb).eraseInstr_block
  have hterm : H.term b = .br (F.nextBlock + 1) := by
    have hb' : b ≠ F.nextBlock + 1 := hb₁.symm
    simp [H, createLoopKnownSize, hb']
  have hloop : H.block (F.nextBlock + 1) = ⟨[loopIndex (F.next + 2) b (F.nextBlock + 1)
      (F.next + 7)], copyElement (F.next + 3) ty (castPointer (X := X) F.next src srcTy ty).1
        (castPointer (X := X) (F.next + 1) dst dstTy ty).1 (.name (F.next + 2)) ++
      nextIndex (F.next + 7) .icmpULT (.name (F.next + 2)) (.const (.ofNat _ loopEndCount))⟩ := by
    simp [H, createLoopKnownSize, hb₁]
  have hloopTerm : H.term (F.nextBlock + 1) =
      .condBr (.name (F.next + 8)) (F.nextBlock + 1) F.nextBlock := by
    simp [H, createLoopKnownSize]
  -- the block in front of the loop
  obtain ⟨env₁, hexec₁, hsame₁, hvalue, hvalue', hbelow, hbelow'⟩ := exec_casts (o := o) env m
    srcTy dstTy ty hsrc hdst
  have hfirst := trace_instrs (F := H) (b := b) hexec₁ (fun i hi => event_of_isBasic
    (newInstr_append (P := fun _ => True) (castPointer_new trivial) (castPointer_new trivial) i
    hi).1) []
  rw [List.append_nil] at hfirst
  have hpre := hfirst.silent_append (trace_br hterm)
  -- the loop
  have hle : loopEndCount * getLoopOperandSizeInBytes ty ≤ c.toNat := hbytes ▸ hrest.le
  have hcount : (BitVec.ofNat ByteSizeInBits loopEndCount).toNat = loopEndCount :=
    toNat_ofNat_of_le (Nat.le_trans (Nat.le_mul_of_pos_right _ hty.size_pos) hle)
  have hbound : (BitVec.ofNat ByteSizeInBits loopEndCount).toNat * storeSize ty = bytesCopied := by
    rw [hcount, hty.storeSize, hbytes]
  have hs₁ : toWord ((semantics o).value env₁ (castPointer (X := X) F.next src srcTy ty).1) =
      some s := by rw [hvalue, h.src]
  have hd₁ : toWord ((semantics o).value env₁ (castPointer (X := X) (F.next + 1) dst dstTy ty).1) =
      some d := by rw [hvalue', h.dst]
  have hle' : (BitVec.ofNat ByteSizeInBits loopEndCount).toNat * storeSize ty ≤ c.toNat :=
    hbound ▸ hrest.le
  obtain ⟨j, env₂, hrun, hsame₂⟩ := trace_copyLoop (m := m) b F.nextBlock hloop hloopTerm .ult rfl
    (loopIndex_find?_pre _ _ _ _) (loopIndex_find?_loop hb₁.symm) hbelow hbelow' (below_const _) hs₁
    hd₁ (toWord_ofWord _) (by rwa [hcount]) (hty.storeSize ▸ hty.size_pos)
    (Nat.le_trans (Nat.add_le_add_left hle' _) h.fits_dst)
    (Nat.le_trans (Nat.add_le_add_left hle' _) h.fits_src)
    (hapart.forward.imp_right fun h => Nat.le_trans (Nat.add_le_add_left hle' _) h)
  rw [hbound, enter_of_phis_nil hpost] at hrun
  -- the bytes that are left
  obtain ⟨env₃, hexec₃, hsame₃⟩ := exec_residualCopies (m := m) (n := F.next + 9) ty ty hrest
    (below_mono hbelow (by omega)) (below_mono hbelow' (by omega))
    (by rwa [hsame₂.value hbelow]) (by rwa [hsame₂.value hbelow']) h.fits_dst h.fits_src
    hapart.forward
  have hlast := trace_instrs (F := H) (b := F.nextBlock) hexec₃ (silent_residualCopies _)
    ((F.block b).instrs.drop (k + 1))
  rw [← h.memory] at hlast
  exact ⟨_, env₃, (hpre.silent_append hrun).silent_append hlast,
    hsame₁.trans ((hsame₂.mono (by omega)).trans (hsame₃.mono (by omega)))⟩

theorem createCopiesKnownSize_lowers {c : Word} (hsrc : src.Below F.next) (hdst : dst.Below F.next)
    (hrest : CopiesRest remainingOps 0 c.toNat) :
    Lowers o F b k (MemCpyOf o src dst (.const c))
      (createCopiesKnownSize F b k src dst srcTy dstTy 0 remainingOps) := by
  refine .inPlace rfl rfl (residualCopies_new (fun _ => trivial) trivial trivial _ _ _
    fun _ _ => trivial) ?_
  rintro env m m' ⟨s, d, y, h, hapart⟩
  obtain rfl : c = y := Option.some.inj h.length
  have hexec := exec_residualCopies (m := m) (n := F.next) srcTy dstTy hrest hsrc hdst h.src h.dst
    h.fits_dst h.fits_src hapart.forward
  rwa [copyBytes_zero, ← h.memory] at hexec

/-- The assertions of `createMemCpyLoopKnownSize`. -/
theorem createMemCpyLoopKnownSize_lowers {tti : TTI} {c : Word} (htti : tti.Valid)
    (hc : c.toNat < 2 ^ 64) (hb : b < F.nextBlock) (hsrc : src.Below F.next)
    (hdst : dst.Below F.next) :
    Lowers o F b k (MemCpyOf o src dst (.const c))
      (createMemCpyLoopKnownSize tti F b k src dst srcTy dstTy c) := by
  unfold createMemCpyLoopKnownSize
  by_cases hzero : c = 0
  · -- there is nothing to expand
    rw [if_pos hzero]
    have hnil : Lowers o F b k (MemCpyOf o src dst (.const c))
        ⟨F, b, k + ([] : List (MemInstr X)).length⟩ := by
      refine .inPlace (Program.insertInstrs_nil b k).symm rfl newInstr_nil ?_
      rintro env m m' ⟨s, d, y, h, -⟩
      obtain rfl : c = y := Option.some.inj h.length
      obtain rfl : m' = m := by rw [h.memory, hzero, BitVec.ofNat_eq_ofNat, BitVec.toNat_zero,
        copyBytes_zero]
      exact ⟨env, rfl, .refl _ env⟩
    exact hnil
  · rw [if_neg hzero]
    simp only [Nat.mod_eq_of_lt hc]
    have hty := htti.loop (.const c)
    have hresidual := htti.residual (.const c)
    generalize tti.getMemcpyLoopLoweringType (.const c) = ty at hty hresidual ⊢
    have hsplit := Nat.div_add_mod' c.toNat (getLoopOperandSizeInBytes ty)
    -- the assertions
    have hrest : CopiesRest (if c.toNat - c.toNat / getLoopOperandSizeInBytes ty *
        getLoopOperandSizeInBytes ty = 0 then [] else tti.getMemcpyLoopResidualLoweringType
          (c.toNat - c.toNat / getLoopOperandSizeInBytes ty * getLoopOperandSizeInBytes ty))
        (c.toNat / getLoopOperandSizeInBytes ty * getLoopOperandSizeInBytes ty) c.toNat := by
      have hrem : c.toNat - c.toNat / getLoopOperandSizeInBytes ty * getLoopOperandSizeInBytes ty =
          c.toNat % getLoopOperandSizeInBytes ty := by omega
      rw [hrem]
      split_ifs with hmod
      · show c.toNat / _ * _ = c.toNat
        omega
      · have h := hresidual (c.toNat % getLoopOperandSizeInBytes ty) (c.toNat /
          getLoopOperandSizeInBytes ty * getLoopOperandSizeInBytes ty) (Nat.pos_of_ne_zero hmod)
          (Nat.mod_lt _ hty.size_pos) (Nat.dvd_mul_left _ _)
        rwa [hsplit] at h
    generalize (if c.toNat - c.toNat / getLoopOperandSizeInBytes ty *
      getLoopOperandSizeInBytes ty = 0 then [] else tti.getMemcpyLoopResidualLoweringType _) = ops
      at hrest ⊢
    by_cases hcount : c.toNat / getLoopOperandSizeInBytes ty = 0
    · rw [if_pos hcount]
      rw [hcount, Nat.zero_mul] at hrest ⊢
      exact createCopiesKnownSize_lowers hsrc hdst hrest
    · rw [if_neg hcount]
      exact createLoopKnownSize_lowers hb hty hsrc hdst (Nat.pos_of_ne_zero hcount) rfl hrest

end KnownSize

/-! ## The loops of `memmove` -/

theorem createMemMoveLoop_splitAt (hb : b < F.nextBlock) (hk : k ≤ (F.block b).instrs.length) :
    SplitAt F (createMemMoveLoop F b k src dst ty copyLen).program b k
      [⟨F.next, .icmpULT, [src, dst]⟩, ⟨F.next + 1, .icmpEQ, [copyLen, .const 0]⟩] [] := by
  let F₁ := F.addNames 16 |>.insertInstrs b k [⟨F.next, .icmpULT, [src, dst]⟩]
  have hb₁ : b < F₁.nextBlock := hb
  have hsplit : SplitAt F₁ (splitBlockAndInsertIfThenElse F₁ b (k + 1) (.name F.next)) b (k + 1)
      [] [] :=
    (((SplitAt.splitBasicBlock hb₁ (k + 1)).addBlock (Nat.lt_succ_self _) _ _ _ hb₁).addBlock
      (Nat.lt_add_right 1 (Nat.lt_succ_self _)) _ _ _ hb₁).setTerm (.inl rfl) _ hb₁
  have h : SplitAt F₁ (createMemMoveLoop F b k src dst ty copyLen).program b (k + 1)
      [⟨F.next + 1, .icmpEQ, [copyLen, .const 0]⟩] [] :=
    ((((hsplit.appendInstrs _ hb₁).addBlock (Nat.lt_add_right 2 (Nat.lt_succ_self _)) _ _ _
      hb₁).setTerm (.inr (Nat.lt_succ_self _)) _ hb₁).addBlock (Nat.lt_add_right 3
      (Nat.lt_succ_self _)) _ _ _ hb₁).setTerm (.inr (Nat.lt_add_right 1 (Nat.lt_succ_self _))) _
      hb₁
  exact h.of_insertInstrs hk

/-- The comparisons in front of the loops. -/
theorem exec_compare {env : ℕ → Val} {m : Memory} {n : ℕ} {s d y : Word} (hlen : copyLen.Below n)
    (hs : toWord ((semantics o).value env src) = some s)
    (hd : toWord ((semantics o).value env dst) = some d)
    (hy : toWord ((semantics o).value env copyLen) = some y) :
    ∃ env', (semantics o).exec [⟨n, .icmpULT, [src, dst]⟩, ⟨n + 1, .icmpEQ, [copyLen, .const 0]⟩]
        (env, m) = some (env', m) ∧ SameBelow n env env' ∧
      env' n = ofWord (ofBool (decide (s.toNat < d.toNat))) ∧
      env' (n + 1) = ofWord (ofBool (decide (y.toNat = 0))) := by
  have heval : eval o.eval .icmpULT [(semantics o).value env src, (semantics o).value env dst] m =
      some (ofWord (ofBool (decide (s.toNat < d.toNat))), m) := by
    show some (arith _ _ _, m) = _
    rw [arith_ofWord _ hs hd]
  let env₁ := Function.update env n (ofWord (ofBool (decide (s.toNat < d.toNat))))
  have hsame₁ : SameBelow n env env₁ := .update env (Nat.le_refl n) _
  have hy₁ : toWord ((semantics o).value env₁ copyLen) = some y := by rw [hsame₁.value hlen, hy]
  have heval₁ : eval o.eval .icmpEQ [(semantics o).value env₁ copyLen, ofWord 0] m =
      some (ofWord (ofBool (decide (y.toNat = 0))), m) := by
    have hzero : y = 0 ↔ y.toNat = 0 := by
      rw [← BitVec.toNat_inj, BitVec.ofNat_eq_ofNat, BitVec.toNat_zero]
    show some (arith _ _ _, m) = _
    rw [arith_ofWord _ hy₁ (toWord_ofWord 0), decide_eq_decide.mpr hzero]
  have hsame₂ : SameBelow (n + 1) env₁ (Function.update env₁ (n + 1)
      (ofWord (ofBool (decide (y.toNat = 0))))) := .update env₁ (Nat.le_refl _) _
  refine ⟨_, exec_cons_some (exec_instr heval) (exec_instr heval₁),
    hsame₁.trans (hsame₂.mono (Nat.le_succ n)), ?_, Function.update_self _ _ _⟩
  rw [hsame₂ n (Nat.lt_succ_self n)]
  exact Function.update_self _ _ _

theorem createMemMoveLoop_lowers (hb : b < F.nextBlock) (hk : k ≤ (F.block b).instrs.length)
    (hty : storeSize ty = 1) (hsrc : src.Below F.next) (hdst : dst.Below F.next)
    (hlen : copyLen.Below F.next) :
    Lowers o F b k (MemMoveOf o src dst copyLen) (createMemMoveLoop F b k src dst ty copyLen) := by
  refine .split (Nat.lt_add_of_pos_right (by decide : 0 < 5)) (createMemMoveLoop_splitAt hb hk) ?_
  rintro env m m' ⟨s, d, y, h⟩
  let H := (createMemMoveLoop F b k src dst ty copyLen).program.eraseInstr F.nextBlock 0
  have hb₁ : b ≠ F.nextBlock + 1 := by omega
  have hb₂ : b ≠ F.nextBlock + 1 + 1 := by omega
  have hpost : H.block F.nextBlock = ⟨[], (F.block b).instrs.drop (k + 1)⟩ :=
    (createMemMoveLoop_splitAt hb hk).eraseInstr_block
  have hterm : H.term b = .condBr (.name F.next) (F.nextBlock + 1) (F.nextBlock + 2) := by
    have hb₃ : b ≠ F.nextBlock + 1 + 1 + 1 := by omega
    have hb₄ : b ≠ F.nextBlock + 1 + 1 + 1 + 1 := by omega
    simp [H, createMemMoveLoop, splitBlockAndInsertIfThenElse, hb₁, hb₂, hb₃, hb₄]
  have hbackwards : H.block (F.nextBlock + 1) = ⟨[], []⟩ := by
    simp [H, createMemMoveLoop, splitBlockAndInsertIfThenElse, hb₁.symm]
  have hbackwardsTerm : H.term (F.nextBlock + 1) =
      .condBr (.name (F.next + 1)) F.nextBlock (F.nextBlock + 3) := by
    simp [H, createMemMoveLoop, splitBlockAndInsertIfThenElse]
  have hforward : H.block (F.nextBlock + 2) = ⟨[], []⟩ := by
    simp [H, createMemMoveLoop, splitBlockAndInsertIfThenElse, hb₂.symm]
  have hforwardTerm : H.term (F.nextBlock + 2) =
      .condBr (.name (F.next + 1)) F.nextBlock (F.nextBlock + 4) := by
    simp [H, createMemMoveLoop]
  have hloop : H.block (F.nextBlock + 3) = ⟨[⟨F.next + 2, ByteTy, [(.name (F.next + 3),
      F.nextBlock + 3), (copyLen, F.nextBlock + 1)]⟩], copyBackwards (F.next + 2) ty src dst⟩ := by
    simp [H, createMemMoveLoop, splitBlockAndInsertIfThenElse]
  have hloopTerm : H.term (F.nextBlock + 3) =
      .condBr (.name (F.next + 8)) F.nextBlock (F.nextBlock + 3) := by
    simp [H, createMemMoveLoop, splitBlockAndInsertIfThenElse]
  have hfwd : H.block (F.nextBlock + 4) = ⟨[⟨F.next + 9, ByteTy, [(.name (F.next + 14),
      F.nextBlock + 4), (.const 0, F.nextBlock + 2)]⟩],
      copyElement (F.next + 10) ty src dst (.name (F.next + 9)) ++
      nextIndex (F.next + 14) .icmpEQ (.name (F.next + 9)) copyLen⟩ := by
    simp [H, createMemMoveLoop, splitBlockAndInsertIfThenElse]
  have hfwdTerm : H.term (F.nextBlock + 4) =
      .condBr (.name (F.next + 15)) F.nextBlock (F.nextBlock + 4) := by
    simp [H, createMemMoveLoop, splitBlockAndInsertIfThenElse]
  -- the block in front of the loops
  obtain ⟨env₁, hexec, hsame, hcmp, hnone⟩ := exec_compare (o := o) (m := m) hlen h.src h.dst
    h.length
  have htest : (semantics o).truth ((semantics o).value env₁ (.name F.next : MemValue)) =
      some (decide (s.toNat < d.toNat)) := by
    show (semantics o).truth (env₁ F.next) = _
    rw [hcmp, truth_ofBool]
  have htest' : (semantics o).truth ((semantics o).value env₁ (.name (F.next + 1) : MemValue)) =
      some (decide (y.toNat = 0)) := by
    show (semantics o).truth (env₁ (F.next + 1)) = _
    rw [hnone, truth_ofBool]
  obtain ⟨_, hpre⟩ := trace_test (F := H) hexec (newInstr_cons rfl (fun _ _ => trivial)
    (newInstr_cons rfl (fun _ _ => trivial) newInstr_nil)) hterm htest
  have hs₁ : toWord ((semantics o).value env₁ src) = some s := by rw [hsame.value hsrc, h.src]
  have hd₁ : toWord ((semantics o).value env₁ dst) = some d := by rw [hsame.value hdst, h.dst]
  have hy₁ : toWord ((semantics o).value env₁ copyLen) = some y := by
    rw [hsame.value hlen, h.length]
  have hmem (hzero : y.toNat = 0) : m' = m := by rw [h.memory, hzero, copyBytes_zero]
  by_cases hback : s.toNat < d.toNat
  · -- the source is in front of the destination
    rw [if_pos hback, enter_of_phis_nil hbackwards] at hpre
    obtain ⟨_, htail⟩ := trace_test (F := H) (m := m) rfl newInstr_nil hbackwardsTerm htest'
    have hpre := hpre.silent_append htail
    by_cases hzero : y.toNat = 0
    · rw [if_pos hzero, enter_of_phis_nil hpost] at hpre
      rw [hmem hzero]
      exact ⟨_, env₁, hpre, hsame⟩
    · rw [if_neg hzero] at hpre
      obtain ⟨j, env₂, hrun, hsame₂⟩ := trace_backwardsLoop (m := m) (F.nextBlock + 1)
        F.nextBlock hloop hloopTerm rfl (by simp) (by simp) (below_mono hsrc (by omega))
        (below_mono hdst (by omega)) hty hs₁ hd₁ hy₁ (Nat.pos_of_ne_zero hzero) h.fits_dst
        h.fits_src hback
      rw [enter_of_phis_nil hpost, ← h.memory] at hrun
      exact ⟨_, env₂, hpre.silent_append hrun, hsame.trans (hsame₂.mono (by omega))⟩
  · -- the source is not in front
    rw [if_neg hback, enter_of_phis_nil hforward] at hpre
    obtain ⟨_, htail⟩ := trace_test (F := H) (m := m) rfl newInstr_nil hforwardTerm htest'
    have hpre := hpre.silent_append htail
    by_cases hzero : y.toNat = 0
    · rw [if_pos hzero, enter_of_phis_nil hpost] at hpre
      rw [hmem hzero]
      exact ⟨_, env₁, hpre, hsame⟩
    · rw [if_neg hzero] at hpre
      have hone : y.toNat * storeSize ty = y.toNat := by rw [hty, Nat.mul_one]
      obtain ⟨j, env₂, hrun, hsame₂⟩ := trace_copyLoop (m := m) (F.nextBlock + 2)
        F.nextBlock hfwd hfwdTerm .eq rfl (by simp) (by simp) (below_mono hsrc (by omega))
        (below_mono hdst (by omega)) (below_mono hlen (by omega)) hs₁ hd₁ hy₁
        (Nat.pos_of_ne_zero hzero) (hty ▸ Nat.one_pos) (hone.symm ▸ h.fits_dst)
        (hone.symm ▸ h.fits_src) (.inl (Nat.le_of_not_lt hback))
      rw [enter_of_phis_nil hpost, hone, ← h.memory] at hrun
      exact ⟨_, env₂, hpre.silent_append hrun, hsame.trans (hsame₂.mono (by omega))⟩

/-! ## The loop of `memset` -/

theorem createMemSetLoop_splitAt {setValue : MemValue} (hb : b < F.nextBlock) :
    SplitAt F (createMemSetLoop F b k dst dstTy copyLen setValue).program b k
      ((castPointer F.next dst dstTy Int8Ty).2 ++
        (createICmpEQ (F.next + 1) (.const 0) copyLen).2) [] := by
  have hsplit : SplitAt F (F.addNames 7 |>.splitBasicBlock b k) b k [] [] :=
    (SplitAt.splitBasicBlock (F := F.addNames 7) hb k).congr rfl rfl rfl
  exact ((hsplit.appendInstrs _ hb).setTerm (.inl rfl) _ hb).addBlock (Nat.lt_succ_self _) _ _ _ hb

/-- A comparison of 0 with the length, which is one of constants if the length is a constant. -/
theorem exec_createICmpEQ {env : ℕ → Val} {m : Memory} {n : ℕ} {y : Word}
    (hy : toWord ((semantics o).value env copyLen) = some y) :
    ∃ env', (semantics o).exec (createICmpEQ n (.const 0) copyLen).2 (env, m) = some (env', m) ∧
      SameBelow n env env' ∧ (semantics o).truth ((semantics o).value env'
        (createICmpEQ (X := X) n (.const 0) copyLen).1) = some (decide (y.toNat = 0)) := by
  have hzero : 0 = y ↔ y.toNat = 0 := by
    rw [eq_comm, ← BitVec.toNat_inj, BitVec.ofNat_eq_ofNat, BitVec.toNat_zero]
  have heval : eval o.eval .icmpEQ [ofWord 0, (semantics o).value env copyLen] m =
      some (ofWord (ofBool (decide (y.toNat = 0))), m) := by
    show some (arith _ _ _, m) = _
    rw [arith_ofWord _ (toWord_ofWord 0) hy, decide_eq_decide.mpr hzero]
  have hinstr : ∃ env', (semantics o).exec [⟨n, .icmpEQ, [.const 0, copyLen]⟩] (env, m) =
      some (env', m) ∧ SameBelow n env env' ∧ (semantics o).truth
        ((semantics o).value env' (.name n : MemValue)) = some (decide (y.toNat = 0)) := by
    refine ⟨_, exec_instr heval, .update env (Nat.le_refl n) _, ?_⟩
    show (semantics o).truth (Function.update env n _ n) = _
    rw [Function.update_self, truth_ofBool]
  cases copyLen with
  | const c =>
    obtain rfl : c = y := Option.some.inj hy
    refine ⟨env, rfl, .refl n env, ?_⟩
    show (semantics o).truth (ofWord (ofBool (decide (0 = c)))) = _
    rw [truth_ofBool, decide_eq_decide.mpr hzero]
  | undef _ => exact hinstr
  | name _ => exact hinstr

theorem createMemSetLoop_lowers {setValue : MemValue} (hb : b < F.nextBlock)
    (hdst : dst.Below F.next) (hvalue : setValue.Below F.next) (hlen : copyLen.Below F.next) :
    Lowers o F b k (MemSetOf o dst setValue copyLen)
      (createMemSetLoop F b k dst dstTy copyLen setValue) := by
  refine .split (Nat.lt_add_of_pos_right (by decide : 0 < 2)) (createMemSetLoop_splitAt hb) ?_
  rintro env m m' ⟨d, y, hd, hy, hfits, hmem⟩
  let H := (createMemSetLoop F b k dst dstTy copyLen setValue).program.eraseInstr F.nextBlock 0
  have hb₁ : F.nextBlock + 1 ≠ b := by omega
  have hpost : H.block F.nextBlock = ⟨[], (F.block b).instrs.drop (k + 1)⟩ :=
    (createMemSetLoop_splitAt hb).eraseInstr_block
  have hterm : H.term b = .condBr (createICmpEQ (X := X) (F.next + 1) (.const 0) copyLen).1
      F.nextBlock (F.nextBlock + 1) := by
    simp [H, createMemSetLoop, hb₁.symm]
  have hloop : H.block (F.nextBlock + 1) = ⟨[loopIndex (F.next + 2) b (F.nextBlock + 1)
      (F.next + 5)], storeElement (F.next + 3) Int8Ty setValue
        (castPointer (X := X) F.next dst dstTy Int8Ty).1 (.name (F.next + 2)) ++
      nextIndex (F.next + 5) .icmpULT (.name (F.next + 2)) copyLen⟩ := by
    simp [H, createMemSetLoop]
  have hloopTerm : H.term (F.nextBlock + 1) =
      .condBr (.name (F.next + 6)) (F.nextBlock + 1) F.nextBlock := by
    simp [H, createMemSetLoop]
  -- the block in front of the loop
  obtain ⟨env₁, hexec₁, hsame₁, hvalue₁, hbelow⟩ := exec_castPointer (o := o) env m dstTy Int8Ty
    hdst
  have hy₁ : toWord ((semantics o).value env₁ copyLen) = some y := by rw [hsame₁.value hlen, hy]
  obtain ⟨env₂, hexec₂, hsame₂, htest⟩ := exec_createICmpEQ (m := m) (n := F.next + 1) hy₁
  have hsame : SameBelow F.next env env₂ := hsame₁.trans (hsame₂.mono (Nat.le_succ _))
  obtain ⟨_, hpre⟩ := trace_test (F := H) (exec_append_some hexec₁ hexec₂)
    (newInstr_append (castPointer_new trivial) (createICmpEQ_new trivial trivial)) hterm htest
  by_cases hzero : y.toNat = 0
  · -- nothing is filled
    rw [if_pos hzero, enter_of_phis_nil hpost] at hpre
    obtain rfl : m' = m := by rw [hmem, hzero, storeRange_zero]
    exact ⟨_, env₂, hpre, hsame⟩
  · rw [if_neg hzero] at hpre
    obtain ⟨j, env₃, hrun, hsame₃⟩ := trace_fillLoop (m := m) F.nextBlock hloop hloopTerm rfl
      (loopIndex_find?_pre _ _ _ _) (loopIndex_find?_loop hb₁.symm)
      (below_mono hvalue (by omega)) (below_mono hbelow (by omega)) (below_mono hlen (by omega))
      (by rw [hsame₂.value hbelow, hvalue₁, hd]) (by rw [hsame.value hlen, hy])
      (Nat.pos_of_ne_zero hzero) hfits
    rw [enter_of_phis_nil hpost, hsame.value hvalue, ← hmem] at hrun
    exact ⟨_, env₃, hpre.silent_append hrun, hsame.trans (hsame₃.mono (by omega))⟩

end TVMCompiler.LowerIntrinsics
