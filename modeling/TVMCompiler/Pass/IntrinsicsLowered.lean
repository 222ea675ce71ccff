import TVMCompiler.Pass.IntrinsicsPreservation

/-!
# The pass over the memory intrinsics

The code of an expansion takes the place of the call, and the pass leaves no call.

## Main definitions

* `WellFormed`: what holds of the functions that reach the pass
* `Expands`: the code of an expansion is in front of the call
* `callNames`: the calls of a function

## Main results

* `expands_expandMemIntrinsic`: every call is expanded
* `Expands.wellFormed`, `Expands.callNames_eq`: what holds after an expansion
* `runOnModule_lowers`: every function keeps its behaviours, and no call is left
-/

namespace TVMCompiler.LowerIntrinsics

open Lib Lib.Ssa

variable {X E : Type} {o : Others X E} {F : MemProgram X} {b k : ℕ} {call : MemInstr X}
  {created : Created X} {P : MemValue → Prop} {Q : ℕ → Prop}

/-! ## What reaches the pass -/

/-- A call has three operands, and nothing uses its name. If `memcpy` copies a constant number of
bytes, `getZExtValue` takes it. The pointers of `memmove` are to single bytes, such as `i8*`. -/
structure CallOk (F : MemProgram X) (i : MemInstr X) : Prop where
  lt : i.result < F.next
  unused : F.Unused i.result
  arity : i.operands.length = 3
  known : ∀ width dstTy srcTy c, i.op = .memcpy width dstTy srcTy →
    i.operands[2]? = some (.const c) → c.toNat % 2 ^ width < 2 ^ 64
  pointee : ∀ width ty, i.op = .memmove width ty → storeSize ty = 1

structure WellFormed (F : MemProgram X) : Prop where
  inScope : F.Scoped
  calls : ∀ q, ∀ i ∈ (F.block q).instrs, i.op.isMemIntrinsic = true → CallOk F i

/-- The code of an expansion, in which the call still is. -/
structure Expands (o : Others X E) (F : MemProgram X) (b : ℕ) (call : MemInstr X)
    (created : Created X) : Prop where
  replaces : ∃ last, Replaces (semantics o) F
    (created.program.eraseInstr created.block created.index) b last call
  edited : ∀ P Q, Covers F created.program b P Q → (∀ v ∈ call.operands, P v) →
    Edited (NewInstr P) P Q F created.program
  lt : created.block < created.program.nextBlock
  instr : (created.program.block created.block).instrs[created.index]? = some call

/-! ## Code in front of the call -/

section Insert

variable {pre : List (MemInstr X)}

theorem insertInstrs_instrs (pre : List (MemInstr X)) :
    ((F.insertInstrs b k pre).block b).instrs =
      (F.block b).instrs.take k ++ pre ++ (F.block b).instrs.drop k := by
  rw [Program.insertInstrs_block, if_pos rfl, List.append_assoc]

theorem length_take_append (hk : k ≤ (F.block b).instrs.length) (pre : List (MemInstr X)) :
    ((F.block b).instrs.take k ++ pre).length = k + pre.length := by
  rw [List.length_append, List.length_take, Nat.min_eq_left hk]

theorem take_insertInstrs (hk : k ≤ (F.block b).instrs.length) (pre : List (MemInstr X)) :
    ((F.insertInstrs b k pre).block b).instrs.take (k + pre.length) =
      (F.block b).instrs.take k ++ pre := by
  rw [insertInstrs_instrs, List.take_left' (length_take_append hk pre)]

theorem drop_insertInstrs (hk : k ≤ (F.block b).instrs.length) (pre : List (MemInstr X)) (j : ℕ) :
    ((F.insertInstrs b k pre).block b).instrs.drop (k + pre.length + j) =
      (F.block b).instrs.drop (k + j) := by
  rw [insertInstrs_instrs, ← length_take_append hk pre, List.drop_length_add_append,
    List.drop_drop]

/-- The instruction is behind what has been inserted. -/
theorem getElem?_insertInstrs (hk : k ≤ (F.block b).instrs.length) (pre : List (MemInstr X)) :
    ((F.insertInstrs b k pre).block b).instrs[k + pre.length]? = (F.block b).instrs[k]? := by
  have hdrop := drop_insertInstrs hk pre 0
  rw [Nat.add_zero, Nat.add_zero] at hdrop
  rw [← Nat.add_zero (k + pre.length), ← List.getElem?_drop, hdrop, List.getElem?_drop,
    Nat.add_zero]

/-- The call is behind the code. -/
theorem Lowers.instr {R : (ℕ → Val) → Memory → Memory → Prop} (h : Lowers o F b k R created)
    (hcall : (F.block b).instrs[k]? = some call) :
    (created.program.block created.block).instrs[created.index]? = some call := by
  have hk := (List.getElem?_eq_some_iff.mp hcall).1
  cases h with
  | @split G code rest _ h =>
    show (G.block F.nextBlock).instrs[rest.length]? = some call
    rw [h.block]
    show (rest ++ (F.block b).instrs.drop k)[rest.length]? = some call
    rw [List.getElem?_append_right (Nat.le_refl _), Nat.sub_self, List.getElem?_drop, Nat.add_zero,
      hcall]
  | @inPlace G code hblock =>
    show (G.block b).instrs[k + code.length]? = some call
    rw [hblock, getElem?_insertInstrs hk.le, hcall]

theorem Lowers.lt {R : (ℕ → Val) → Memory → Memory → Prop} (h : Lowers o F b k R created)
    (hb : b < F.nextBlock) (hle : F.nextBlock ≤ created.program.nextBlock) :
    created.block < created.program.nextBlock := by
  cases h with
  | split hlt => exact hlt
  | inPlace => exact Nat.lt_of_lt_of_le hb hle

theorem silent_of_new {is : List (MemInstr X)} (h : ∀ i ∈ is, NewInstr P i) :
    ∀ i ∈ is, ∀ args, (semantics o).event i.op args = none :=
  fun i hi => event_of_isBasic (h i hi).1

/-- **The code takes the place of the call**, with code of its own in front of it. -/
theorem Lowers.replaces {R : (ℕ → Val) → Memory → Memory → Prop} (hscoped : F.Scoped)
    (hb : b < F.nextBlock) (hcall : (F.block b).instrs[k]? = some call)
    (hpre : ∀ i ∈ pre, NewInstr (fun _ => True) i)
    (h : Lowers o (F.addNames 1 |>.insertInstrs b k pre) b (k + pre.length) R created)
    (hrun : ∀ env m v m', eval o.eval call.op ((semantics o).args env call) m = some (v, m') →
      (semantics o).event call.op ((semantics o).args env call) = none ∧
      ∃ env', (semantics o).exec pre (env, m) = some (env', m) ∧ SameBelow F.next env env' ∧
        R env' m m') :
    ∃ last, Replaces (semantics o) F (created.program.eraseInstr created.block created.index) b
      last call := by
  have hk := (List.getElem?_eq_some_iff.mp hcall).1
  cases h with
  | @split G code rest _ hsplit hlower =>
    -- the block goes on in the one that has been split off
    refine ⟨F.nextBlock, (hsplit.of_insertInstrs hk.le).replaces hscoped hb hcall
      fun env m v m' heval => ?_⟩
    obtain ⟨hevent, env₁, hexec, hsame, hR⟩ := hrun env m v m' heval
    obtain ⟨j, env₂, htrace, hsame₂⟩ := hlower env₁ m m' hR
    have hdrop := drop_insertInstrs (F := F.addNames 1) hk.le pre 1
    rw [hdrop] at htrace
    have hfirst := trace_instrs (F := G.eraseInstr F.nextBlock rest.length) (b := b) hexec
      (silent_of_new hpre) code
    exact ⟨hevent, _, env₂, hfirst.silent_append htrace,
      hsame.trans (hsame₂.mono (Nat.le_succ F.next))⟩
  | @inPlace G code hblock hterm hnew hlower =>
    -- the code ends where the call was
    have hinstrs : (G.block b).instrs =
        ((F.block b).instrs.take k ++ pre ++ code) ++ (F.block b).instrs.drop k := by
      have hdrop := drop_insertInstrs (F := F.addNames 1) hk.le pre 0
      rw [Nat.add_zero, Nat.add_zero] at hdrop
      rw [hblock, insertInstrs_instrs, take_insertInstrs (F := F.addNames 1) hk.le, hdrop]
      rfl
    have hlength : ((F.block b).instrs.take k ++ pre ++ code).length =
        k + pre.length + code.length := by
      rw [List.length_append, length_take_append hk.le]
    have hold {q : ℕ} (hqb : q ≠ b) : G.block q = F.block q := by
      rw [hblock, Program.insertInstrs_block, if_neg hqb, Program.insertInstrs_block, if_neg hqb]
      rfl
    have hphis : (G.block b).phis = (F.block b).phis := by
      rw [hblock, Program.insertInstrs_block, if_pos rfl, Program.insertInstrs_block, if_pos rfl]
      rfl
    refine ⟨b, replaces_of_insertInstrs hb hcall (fun q => ?_) ?_
      (fun q hqb => ?_) (hterm.trans rfl) (silent_of_new (newInstr_append hpre hnew))
      fun env m v m' heval => ?_⟩
    · rw [Program.eraseInstr_block]
      split_ifs with hqb
      · rw [hqb, hphis]
      · rw [hold hqb]
    · rw [Program.eraseInstr_block, if_pos rfl]
      show (G.block b).instrs.eraseIdx _ = _
      rw [hinstrs, ← hlength, List.eraseIdx_append_of_length_le (Nat.le_refl _), Nat.sub_self,
        List.eraseIdx_zero, List.tail_drop, List.append_assoc, List.append_assoc, List.append_assoc]
    · rw [Program.eraseInstr_block, if_neg hqb, hold hqb]
    · obtain ⟨hevent, env₁, hexec, hsame, hR⟩ := hrun env m v m' heval
      obtain ⟨env₂, hexec₂, hsame₂⟩ := hlower env₁ m m' hR
      exact ⟨hevent, env₂, exec_append_some hexec hexec₂,
        hsame.trans (hsame₂.mono (Nat.le_succ F.next))⟩

end Insert

/-! ## The length -/

section FixLength

variable {n width : ℕ} {len : MemValue}

theorem fixLength_fst (hconst : ∀ c, P (.const c)) (hlen : P len) (hn : P (.name n)) :
    P (fixLength (X := X) n width len).1 := by
  unfold fixLength
  split_ifs
  · exact hlen
  · cases len with
    | const c => exact hconst _
    | undef ty => exact hconst 0
    | name i => exact hn

theorem fixLength_new (hlen : P len) :
    ∀ i ∈ (fixLength (X := X) n width len).2, NewInstr P i := by
  unfold fixLength
  split_ifs
  · exact newInstr_nil
  · cases len with
    | const c => exact newInstr_nil
    | undef ty => exact newInstr_nil
    | name i => exact newInstr_cons rfl (List.forall_mem_singleton.mpr hlen) newInstr_nil

theorem fixLength_eq_const {c : Word} (h : (fixLength (X := X) n width len).1 = .const c) :
    c = 0 ∨ ∃ d : Word, len = .const d ∧ c.toNat = d.toNat % 2 ^ width := by
  unfold fixLength at h
  split_ifs at h with hwidth
  · refine .inr ⟨c, h, ?_⟩
    rw [hwidth, Nat.mod_eq_of_lt c.isLt]
  · cases len with
    | const d =>
      obtain rfl : zeroExtend width d = c := Value.const.inj h
      exact .inr ⟨d, rfl, toNat_ofNat_of_le (Nat.mod_le _ _)⟩
    | undef ty => exact .inl (Value.const.inj h).symm
    | name i => cases h

theorem exec_fixLength (n width : ℕ) {env : ℕ → Val} {m : Memory} {x : Word}
    (hx : toWord ((semantics o).value env len) = some x) :
    ∃ env' y, (semantics o).exec (fixLength n width len).2 (env, m) = some (env', m) ∧
      SameBelow n env env' ∧
      toWord ((semantics o).value env' (fixLength (X := X) n width len).1) = some y ∧
      y.toNat = x.toNat % 2 ^ width := by
  have hext : (zeroExtend width x).toNat = x.toNat % 2 ^ width :=
    toNat_ofNat_of_le (Nat.mod_le _ _)
  unfold fixLength
  split_ifs with hwidth
  · refine ⟨env, x, rfl, .refl n env, hx, ?_⟩
    rw [hwidth, Nat.mod_eq_of_lt x.isLt]
  · cases len with
    | const c =>
      obtain rfl : c = x := Option.some.inj hx
      exact ⟨env, _, rfl, .refl n env, rfl, hext⟩
    | undef ty => cases hx
    | name i =>
      have heval : eval o.eval (.zext width) [env i] m = some (ofWord (zeroExtend width x), m) := by
        have hx : toWord (env i) = some x := hx
        show some (((toWord (env i)).map _).getD _, m) = _
        rw [hx]
        rfl
      refine ⟨_, _, exec_instr heval, .update env (Nat.le_refl n) _, ?_, hext⟩
      show toWord (Function.update env n _ n) = _
      rw [Function.update_self]
      rfl

end FixLength

/-! ## The calls -/

section Expands

variable {tti : TTI} {width r : ℕ} {dstTy srcTy : IntTy} {dst src value len : MemValue}

theorem createMemCpyLoopKnownSize_eq (tti : TTI) (F : MemProgram X) (b k : ℕ) (src dst : MemValue)
    (srcTy dstTy : IntTy) (c : Word) :
    createMemCpyLoopKnownSize tti F b k src dst srcTy dstTy c = ⟨F, b, k⟩ ∨
    (∃ copied ops, createMemCpyLoopKnownSize tti F b k src dst srcTy dstTy c =
      createCopiesKnownSize F b k src dst srcTy dstTy copied ops) ∨
    ∃ ty count copied ops, createMemCpyLoopKnownSize tti F b k src dst srcTy dstTy c =
      createLoopKnownSize F b k src dst srcTy dstTy ty count copied ops := by
  unfold createMemCpyLoopKnownSize
  by_cases hzero : c = 0
  · exact .inl (if_pos hzero)
  · rw [if_neg hzero]
    by_cases hcount : c.toNat % 2 ^ 64 / getLoopOperandSizeInBytes
        (tti.getMemcpyLoopLoweringType (.const c)) = 0
    · exact .inr (.inl ⟨_, _, if_pos hcount⟩)
    · exact .inr (.inr ⟨_, _, _, _, if_neg hcount⟩)

theorem createMemCpyLoopKnownSize_edited {c : Word} (hb : b < F.nextBlock)
    (h : Covers F (createMemCpyLoopKnownSize tti F b k src dst srcTy dstTy c).program b P Q)
    (hsrc : P src) (hdst : P dst) :
    Edited (NewInstr P) P Q F
      (createMemCpyLoopKnownSize tti F b k src dst srcTy dstTy c).program := by
  rcases createMemCpyLoopKnownSize_eq tti F b k src dst srcTy dstTy c with heq | ⟨_, _, heq⟩ |
    ⟨_, _, _, _, heq⟩
  · rw [heq]
    exact .refl
  · rw [heq] at h ⊢
    exact createCopiesKnownSize_edited hb h hsrc hdst
  · rw [heq] at h ⊢
    exact createLoopKnownSize_edited hb h hsrc hdst

theorem createMemCpyLoopUnknownSize_edited (hb : b < F.nextBlock)
    (h : Covers F (createMemCpyLoopUnknownSize tti F b k src dst srcTy dstTy len).program b P Q)
    (hsrc : P src) (hdst : P dst) (hlen : P len) :
    Edited (NewInstr P) P Q F
      (createMemCpyLoopUnknownSize tti F b k src dst srcTy dstTy len).program := by
  unfold createMemCpyLoopUnknownSize at h ⊢
  by_cases hty : tti.getMemcpyLoopLoweringType len = ByteTy
  · rw [if_pos hty] at h ⊢
    exact createByteLoop_edited hb h hsrc hdst hlen
  · rw [if_neg hty] at h ⊢
    exact createWideLoop_edited hb h hsrc hdst hlen

theorem createMemCpyLoopUnknownSize_lowers (htti : tti.Valid) (hb : b < F.nextBlock)
    (hsrc : src.Below F.next) (hdst : dst.Below F.next) (hlen : len.Below F.next) :
    Lowers o F b k (MemCpyOf o src dst len)
      (createMemCpyLoopUnknownSize tti F b k src dst srcTy dstTy len) := by
  unfold createMemCpyLoopUnknownSize
  by_cases hty : tti.getMemcpyLoopLoweringType len = ByteTy
  · rw [if_pos hty]
    exact createByteLoop_lowers hb hsrc hdst hlen
  · rw [if_neg hty]
    exact createWideLoop_lowers hb (htti.loop len) (htti.loop_lt len) hsrc hdst hlen

theorem event_of_isMemIntrinsic {op : MemOp X} (h : op.isMemIntrinsic = true) (args : List Val) :
    (semantics o).event op args = none := by
  cases op
  case memcpy | memmove | memset => rfl
  all_goals cases h

/-- **An expansion behind the instruction that makes the length.** The code does what `R` says if
the length is the one of which the call asks. -/
theorem expands_withFixLength {R : MemValue → (ℕ → Val) → Memory → Memory → Prop}
    {create : MemProgram X → ℕ → MemValue → Created X} (hscoped : F.Scoped) (hb : b < F.nextBlock)
    (hcall : (F.block b).instrs[k]? = some call) (hop : call.op.isMemIntrinsic = true)
    (hlen : len ∈ call.operands)
    (hlowers : ∀ (G : MemProgram X) j, F.next ≤ G.next → G.nextBlock = F.nextBlock →
      (G.block b).instrs[j]? = some call → (fixLength (X := X) F.next width len).1.Below G.next →
      Lowers o G b j (R (fixLength (X := X) F.next width len).1)
        (create G j (fixLength (X := X) F.next width len).1))
    (hedited : ∀ (G : MemProgram X) j P Q, G.nextBlock = F.nextBlock →
      Covers G (create G j (fixLength (X := X) F.next width len).1).program b P Q →
      (∀ v ∈ call.operands, P v) → P (fixLength (X := X) F.next width len).1 →
      Edited (NewInstr P) P Q G (create G j (fixLength (X := X) F.next width len).1).program)
    (hrun : ∀ env m v m', eval o.eval call.op ((semantics o).args env call) m = some (v, m') →
      ∃ x, toWord ((semantics o).value env len) = some x ∧ ∀ env' y, SameBelow F.next env env' →
        toWord ((semantics o).value env' (fixLength (X := X) F.next width len).1) = some y →
        y.toNat = x.toNat % 2 ^ width → R (fixLength (X := X) F.next width len).1 env' m m') :
    Expands o F b call (withFixLength F b k width len create) := by
  let fixed := fixLength (X := X) F.next width len
  let F₁ := F.addNames 1 |>.insertInstrs b k fixed.2
  have hk := (List.getElem?_eq_some_iff.mp hcall).1
  -- the name of the length is the first new one, and the loop has the names behind it
  have hbelow : fixed.1.Below F₁.next :=
    fixLength_fst below_const (below_mono (hscoped.uses.instr b call
      (List.mem_of_getElem? hcall) len hlen) (Nat.le_succ _)) (below_name (Nat.lt_succ_self _))
  have hcall₁ : (F₁.block b).instrs[k + fixed.2.length]? = some call :=
    (getElem?_insertInstrs (F := F.addNames 1) hk.le fixed.2).trans hcall
  have hlow := hlowers F₁ (k + fixed.2.length) (Nat.le_succ _) rfl hcall₁ hbelow
  have hle := (hedited F₁ (k + fixed.2.length) (fun _ => True) (fun _ => True) rfl
    ⟨fun _ => trivial, fun _ _ _ => trivial, fun _ _ _ => trivial, trivial⟩ (fun _ _ => trivial)
    trivial).le
  have hwhole : ∀ P Q, Covers F (create F₁ (k + fixed.2.length) fixed.1).program b P Q →
      (∀ v ∈ call.operands, P v) →
      Edited (NewInstr P) P Q F (create F₁ (k + fixed.2.length) fixed.1).program := by
    intro P Q h hv
    have hfixed : P fixed.1 :=
      fixLength_fst h.const (hv len hlen) (h.name F.next (Nat.le_refl _) hle.1)
    have hcovers : Covers F₁ (create F₁ (k + fixed.2.length) fixed.1).program b P Q :=
      ⟨h.const, fun n hn hn' => h.name n (Nat.le_of_succ_le hn) hn', h.block, h.split⟩
    exact ((Edited.refl.addNames 1).insertInstrs hb k (fixLength_new (hv len hlen))).trans
      (hedited F₁ _ P Q rfl hcovers hv hfixed)
  refine ⟨hlow.replaces hscoped hb hcall (fixLength_new trivial) fun env m v m' heval => ?_, hwhole,
    hlow.lt hb hle.2, hlow.instr hcall₁⟩
  obtain ⟨x, hx, hR⟩ := hrun env m v m' heval
  obtain ⟨env', y, hexec, hsame, hy, hlength⟩ := exec_fixLength F.next width (m := m) hx
  exact ⟨event_of_isMemIntrinsic hop _, env', hexec, hsame, hR env' y hsame hy hlength⟩

theorem expands_memcpy (htti : tti.Valid) (hscoped : F.Scoped) (hb : b < F.nextBlock)
    (hcall : (F.block b).instrs[k]? = some ⟨r, .memcpy width dstTy srcTy, [dst, src, len]⟩)
    (hknown : ∀ c, len = .const c → c.toNat % 2 ^ width < 2 ^ 64) :
    Expands o F b ⟨r, .memcpy width dstTy srcTy, [dst, src, len]⟩
      (expandMemCpyAsLoopTVM tti F b k width dstTy srcTy dst src len) := by
  have hbelow : ∀ v ∈ [dst, src, len], v.Below F.next :=
    hscoped.uses.instr b _ (List.mem_of_getElem? hcall)
  have hdst : dst.Below F.next := hbelow dst (by simp)
  have hsrc : src.Below F.next := hbelow src (by simp)
  refine expands_withFixLength (R := MemCpyOf o src dst) hscoped hb hcall rfl (by simp) ?_ ?_ ?_
  · intro G j hle hnext _ hlen
    rw [← hnext] at hb
    have hdst := below_mono hdst hle
    have hsrc := below_mono hsrc hle
    -- only a constant length is known
    cases hfixed : (fixLength (X := X) F.next width len).1 with
    | const c =>
      have hc : c.toNat < 2 ^ 64 := by
        rcases fixLength_eq_const hfixed with rfl | ⟨d, hd, hcd⟩
        · rw [BitVec.ofNat_eq_ofNat, BitVec.toNat_zero]
          exact Nat.two_pow_pos 64
        · rw [hcd]
          exact hknown d hd
      exact createMemCpyLoopKnownSize_lowers htti hc hb hsrc hdst
    | undef ty =>
      rw [hfixed] at hlen
      exact createMemCpyLoopUnknownSize_lowers htti hb hsrc hdst hlen
    | name n =>
      rw [hfixed] at hlen
      exact createMemCpyLoopUnknownSize_lowers htti hb hsrc hdst hlen
  · intro G j P Q hnext h hv hlen
    rw [← hnext] at hb
    have hdst := hv dst (by simp)
    have hsrc := hv src (by simp)
    cases hfixed : (fixLength (X := X) F.next width len).1 with
    | const c =>
      rw [hfixed] at h
      exact createMemCpyLoopKnownSize_edited hb h hsrc hdst
    | undef ty =>
      rw [hfixed] at h hlen
      exact createMemCpyLoopUnknownSize_edited hb h hsrc hdst hlen
    | name n =>
      rw [hfixed] at h hlen
      exact createMemCpyLoopUnknownSize_edited hb h hsrc hdst hlen
  · intro env m v m' heval
    obtain ⟨d, s, n, hd, hs, hn, hfits, hfits', hapart, hmem⟩ := eval_memcpy_eq_some heval
    obtain ⟨x, hx, rfl⟩ := Option.map_eq_some_iff.mp hn
    refine ⟨x, hx, fun env' y hsame hy hlength => ?_⟩
    -- the length that the loop takes is the one of the call
    rw [← hlength] at hfits hfits' hapart hmem
    refine ⟨s, d, y, ⟨?_, ?_, hy, hfits, hfits', hmem⟩, hapart⟩
    · exact (congrArg toWord (hsame.value hsrc)).trans hs
    · exact (congrArg toWord (hsame.value hdst)).trans hd

theorem expands_memmove {ty : IntTy} (hty : storeSize ty = 1) (hscoped : F.Scoped)
    (hb : b < F.nextBlock)
    (hcall : (F.block b).instrs[k]? = some ⟨r, .memmove width ty, [dst, src, len]⟩) :
    Expands o F b ⟨r, .memmove width ty, [dst, src, len]⟩
      (expandMemMoveAsLoopTVM F b k width ty dst src len) := by
  have hbelow : ∀ v ∈ [dst, src, len], v.Below F.next :=
    hscoped.uses.instr b _ (List.mem_of_getElem? hcall)
  have hdst : dst.Below F.next := hbelow dst (by simp)
  have hsrc : src.Below F.next := hbelow src (by simp)
  refine expands_withFixLength (R := MemMoveOf o src dst) hscoped hb hcall rfl (by simp) ?_ ?_ ?_
  · intro G j hle hnext hcall₁ hlen
    exact createMemMoveLoop_lowers (hnext ▸ hb) (List.getElem?_eq_some_iff.mp hcall₁).1.le hty
      (below_mono hsrc hle) (below_mono hdst hle) hlen
  · intro G j P Q hnext h hv hlen
    exact createMemMoveLoop_edited (hnext ▸ hb) h (hv src (by simp)) (hv dst (by simp)) hlen
  · intro env m v m' heval
    obtain ⟨d, s, n, hd, hs, hn, hfits, hfits', hmem⟩ := eval_memmove_eq_some heval
    obtain ⟨x, hx, rfl⟩ := Option.map_eq_some_iff.mp hn
    refine ⟨x, hx, fun env' y hsame hy hlength => ?_⟩
    rw [← hlength] at hfits hfits' hmem
    refine ⟨s, d, y, ?_, ?_, hy, hfits, hfits', hmem⟩
    · exact (congrArg toWord (hsame.value hsrc)).trans hs
    · exact (congrArg toWord (hsame.value hdst)).trans hd

theorem expands_memset (hscoped : F.Scoped) (hb : b < F.nextBlock)
    (hcall : (F.block b).instrs[k]? = some ⟨r, .memset width dstTy, [dst, value, len]⟩) :
    Expands o F b ⟨r, .memset width dstTy, [dst, value, len]⟩
      (expandMemSetAsLoopTVM F b k width dstTy dst value len) := by
  have hbelow : ∀ v ∈ [dst, value, len], v.Below F.next :=
    hscoped.uses.instr b _ (List.mem_of_getElem? hcall)
  have hdst : dst.Below F.next := hbelow dst (by simp)
  have hvalue : value.Below F.next := hbelow value (by simp)
  refine expands_withFixLength (R := MemSetOf o dst value) hscoped hb hcall rfl (by simp) ?_ ?_ ?_
  · intro G j hle hnext _ hlen
    exact createMemSetLoop_lowers (hnext ▸ hb) (below_mono hdst hle) (below_mono hvalue hle) hlen
  · intro G j P Q hnext h hv hlen
    exact createMemSetLoop_edited (hnext ▸ hb) h (hv dst (by simp)) hlen (hv value (by simp))
  · intro env m v m' heval
    obtain ⟨d, n, hd, hn, hfits, hmem⟩ := eval_memset_eq_some heval
    obtain ⟨x, hx, rfl⟩ := Option.map_eq_some_iff.mp hn
    refine ⟨x, hx, fun env' y hsame hy hlength => ?_⟩
    rw [← hlength] at hfits hmem
    refine ⟨d, y, (congrArg toWord (hsame.value hdst)).trans hd, hy, hfits, ?_⟩
    rw [hmem, ← hsame.value hvalue]

/-- **Every call is expanded.** -/
theorem expands_expandMemIntrinsic (htti : tti.Valid) (hscoped : F.Scoped) (hb : b < F.nextBlock)
    (hcall : (F.block b).instrs[k]? = some call) (hop : call.op.isMemIntrinsic = true)
    (hok : CallOk F call) :
    ∃ created, expandMemIntrinsic tti F b k call =
      created.program.eraseInstr created.block created.index ∧ Expands o F b call created := by
  obtain ⟨r, op, operands⟩ := call
  obtain ⟨x, y, len, rfl⟩ := List.length_eq_three.mp hok.arity
  cases op
  case memcpy width dstTy srcTy =>
    exact ⟨_, rfl, expands_memcpy htti hscoped hb hcall fun c hc =>
      hok.known width dstTy srcTy c rfl (congrArg some hc)⟩
  case memmove width ty =>
    exact ⟨_, rfl, expands_memmove (hok.pointee width ty rfl) hscoped hb hcall⟩
  case memset width dstTy => exact ⟨_, rfl, expands_memset hscoped hb hcall⟩
  all_goals cases hop

end Expands

/-! ## What holds after an expansion -/

theorem not_isMemIntrinsic_of_new {i : MemInstr X} (h : NewInstr P i) :
    i.op.isMemIntrinsic = false := MemOp.isMemIntrinsic_of_isBasic h.1

theorem Expands.le (h : Expands o F b call created) :
    F.next ≤ created.program.next ∧ F.nextBlock ≤ created.program.nextBlock :=
  (h.edited (fun _ => True) (fun _ => True) ⟨fun _ => trivial, fun _ _ _ => trivial,
    fun _ _ _ => trivial, trivial⟩ fun _ _ => trivial).le

/-- A name that was not used is not used by the code either. -/
theorem Expands.unused (h : Expands o F b call created) {n : ℕ} (hn : n < F.next)
    (hunused : F.Unused n) (hcall : call ∈ (F.block b).instrs) :
    (created.program.eraseInstr created.block created.index).Unused n := by
  have hcovers : Covers F created.program b (· ≠ .name n) fun _ => True := by
    -- the new names are behind the old ones
    refine ⟨fun c => nofun, fun m hm _ heq => ?_, fun _ _ _ => trivial, trivial⟩
    rw [Value.name.inj heq] at hm
    exact absurd hn (Nat.not_lt.mpr hm)
  exact ((h.edited _ _ hcovers (hunused.instr b call hcall)).forall_of_forall hunused
    fun i hi => hi.2).eraseInstr

theorem Expands.wellFormed (h : Expands o F b call created) (hF : WellFormed F)
    (hb : b < F.nextBlock) (hcall : call ∈ (F.block b).instrs) :
    WellFormed (created.program.eraseInstr created.block created.index) := by
  have hle := h.le
  refine ⟨⟨?_, Nat.lt_of_lt_of_le hF.inScope.entry_lt hle.2⟩, ?_⟩
  · have hcovers : Covers F created.program b (Value.Below created.program.next)
        (· < created.program.nextBlock) :=
      ⟨below_const, fun _ _ hn => below_name hn, fun _ _ hq => hq, Nat.lt_of_lt_of_le hb hle.2⟩
    have hold : F.AllUses (Value.Below created.program.next) (· < created.program.nextBlock) :=
      hF.inScope.uses.mono (fun i hi v hv => below_mono (hi v hv) hle.1)
        (fun v hv => below_mono hv hle.1) fun q hq => Nat.lt_of_lt_of_le hq hle.2
    exact ((h.edited _ _ hcovers (hold.instr b call hcall)).forall_of_forall hold
      fun i hi => hi.2).eraseInstr
  · -- the calls that are left are old ones
    have hold : F.Forall (fun i => i.op.isMemIntrinsic = true →
        CallOk (created.program.eraseInstr created.block created.index) i) (fun _ => True)
        fun _ => True := by
      refine ⟨fun q i hi hop => ?_, fun _ _ _ _ _ => ⟨trivial, trivial⟩, fun _ _ _ => trivial,
        fun _ _ _ => trivial⟩
      have hok := hF.calls q i hi hop
      exact ⟨Nat.lt_of_lt_of_le hok.lt hle.1, h.unused hok.lt hok.unused hcall, hok.arity,
        hok.known, hok.pointee⟩
    have hcovers : Covers F created.program b (fun _ => True) fun _ => True :=
      ⟨fun _ => trivial, fun _ _ _ => trivial, fun _ _ _ => trivial, trivial⟩
    exact ((h.edited _ _ hcovers fun _ _ => trivial).forall_of_forall hold fun i hi hop => by
      rw [not_isMemIntrinsic_of_new hi] at hop
      cases hop).eraseInstr.instr

/-- The name of a call. -/
def callName (i : MemInstr X) : Multiset ℕ := if i.op.isMemIntrinsic then {i.result} else 0

def callNames (F : MemProgram X) : Multiset ℕ := F.total callName

theorem mem_callNames {n : ℕ} : n ∈ callNames F ↔
    ∃ q < F.nextBlock, ∃ i ∈ (F.block q).instrs, i.op.isMemIntrinsic = true ∧ i.result = n := by
  have hsum (is : List (MemInstr X)) : n ∈ (is.map callName).sum ↔
      ∃ i ∈ is, i.op.isMemIntrinsic = true ∧ i.result = n := by
    induction is with
    | nil => simp
    | cons i is ih =>
      rw [List.map_cons, List.sum_cons, Multiset.mem_add, ih, List.exists_mem_cons_iff]
      refine or_congr_left ?_
      unfold callName
      split_ifs with hop
      · simp [hop, eq_comm]
      · simp [hop]
  unfold callNames Program.total
  simp only [Multiset.mem_sum, Finset.mem_range, hsum]

/-- The call is not there any more. -/
theorem Expands.callNames_eq (h : Expands o F b call created)
    (hop : call.op.isMemIntrinsic = true) :
    call.result ::ₘ callNames (created.program.eraseInstr created.block created.index) =
      callNames F := by
  have htotal : (created.program.eraseInstr created.block created.index).total callName +
      callName call = created.program.total callName := total_eraseInstr h.lt h.instr
  have hedited : created.program.total callName = F.total callName :=
    (h.edited (fun _ => True) (fun _ => True) ⟨fun _ => trivial, fun _ _ _ => trivial,
      fun _ _ _ => trivial, trivial⟩ fun _ _ => trivial).total fun i hi => by
        unfold callName
        rw [not_isMemIntrinsic_of_new hi]
        rfl
  have hname : callName call = {call.result} := if_pos hop
  -- the code has no calls, and the call itself is erased
  rw [hedited, hname, add_comm, Multiset.singleton_add] at htotal
  exact htotal

/-! ## The pass -/

theorem findCall_eq_some {name : ℕ} (h : findCall F name = some (b, k)) :
    b < F.nextBlock ∧ ∃ i, (F.block b).instrs[k]? = some i ∧ i.op.isMemIntrinsic = true ∧
      i.result = name := by
  obtain ⟨q, hq, hfind⟩ := List.exists_of_findSome?_eq_some h
  obtain ⟨j, hj, heq⟩ := Option.map_eq_some_iff.mp hfind
  cases heq
  obtain ⟨hlt, hp, -⟩ := List.findIdx?_eq_some_iff_getElem.mp hj
  simp only [Bool.and_eq_true, beq_iff_eq] at hp
  exact ⟨List.mem_range.mp hq, _, List.getElem?_eq_getElem hlt, hp⟩

theorem notMem_callNames_of_findCall {name : ℕ} (h : findCall F name = none) :
    name ∉ callNames F := by
  intro hmem
  obtain ⟨q, hq, i, hi, hop, hname⟩ := mem_callNames.mp hmem
  have hnone := List.findSome?_eq_none_iff.mp h q (List.mem_range.mpr hq)
  rw [Option.map_eq_none_iff, List.findIdx?_eq_none_iff] at hnone
  have hi := hnone i hi
  rw [hop, hname, beq_self_eq_true] at hi
  cases hi

/-- **One user of an intrinsic.** -/
theorem expandUse_lowers {tti : TTI} (o : Others X E) (htti : tti.Valid) (hF : WellFormed F)
    (name : ℕ) :
    Simulates (semantics o) F (expandUse tti F name) ∧ WellFormed (expandUse tti F name) ∧
      callNames (expandUse tti F name) = (callNames F).erase name := by
  unfold expandUse
  cases hfind : findCall F name with
  | none =>
    exact ⟨.refl _ F, hF, (Multiset.erase_of_notMem (notMem_callNames_of_findCall hfind)).symm⟩
  | some p =>
    obtain ⟨b, k⟩ := p
    obtain ⟨hb, i, hi, hop, rfl⟩ := findCall_eq_some hfind
    have hmem := List.mem_of_getElem? hi
    have hok := hF.calls b i hmem hop
    obtain ⟨created, heq, h⟩ := expands_expandMemIntrinsic (o := o) htti hF.inScope hb hi hop hok
    obtain ⟨last, hreplaces⟩ := h.replaces
    simp only [hi]
    rw [heq, ← h.callNames_eq hop, Multiset.erase_cons_head]
    exact ⟨hreplaces.simulates hF.inScope hok.unused, h.wellFormed hF hb hmem, rfl⟩

/-- The users in one function. -/
def usersIn (users : List (ℕ × ℕ)) (f : ℕ) : Multiset ℕ :=
  ((users.filter (·.1 = f)).map Prod.snd : List ℕ)

theorem usersIn_cons_self (f name : ℕ) (users : List (ℕ × ℕ)) :
    usersIn ((f, name) :: users) f = name ::ₘ usersIn users f := by
  unfold usersIn
  rw [List.filter_cons_of_pos (by simp)]
  rfl

theorem usersIn_cons_of_ne {f g : ℕ} (h : g ≠ f) (name : ℕ) (users : List (ℕ × ℕ)) :
    usersIn ((g, name) :: users) f = usersIn users f := by
  unfold usersIn
  rw [List.filter_cons_of_neg (by simpa using h)]

/-- The users one after the other. -/
theorem runOnModule_cons (tti : TTI) (M : ℕ → MemProgram X) (user : ℕ × ℕ)
    (users : List (ℕ × ℕ)) :
    runOnModule tti M (user :: users) =
      runOnModule tti (Function.update M user.1 (expandUse tti (M user.1) user.2)) users := rfl

theorem runOnModule_simulates {tti : TTI} (o : Others X E) (htti : tti.Valid)
    (users : List (ℕ × ℕ)) {M : ℕ → MemProgram X} (hM : ∀ f, WellFormed (M f)) (f : ℕ) :
    Simulates (semantics o) (M f) (runOnModule tti M users f) ∧
      callNames (runOnModule tti M users f) = callNames (M f) - usersIn users f := by
  induction users generalizing M with
  | nil => exact ⟨.refl _ _, (Multiset.sub_zero _).symm⟩
  | cons user users ih =>
    obtain ⟨g, name⟩ := user
    obtain ⟨hsimulates, hwf, hnames⟩ := expandUse_lowers o htti (hM g) name
    -- the first user leaves well-formed functions for the others
    have hM' : ∀ f, WellFormed (Function.update M g (expandUse tti (M g) name) f) := by
      intro f
      by_cases hf : f = g
      · rw [hf, Function.update_self]
        exact hwf
      · rw [Function.update_of_ne hf]
        exact hM f
    obtain ⟨hrest, hleft⟩ := ih hM'
    rw [runOnModule_cons]
    by_cases hf : f = g
    · subst hf
      rw [Function.update_self] at hrest hleft
      rw [usersIn_cons_self, Multiset.sub_cons, ← hnames]
      exact ⟨hsimulates.trans hrest, hleft⟩
    · rw [Function.update_of_ne hf] at hrest hleft
      rw [usersIn_cons_of_ne (Ne.symm hf)]
      exact ⟨hrest, hleft⟩

/-- **The pass lowers the memory intrinsics.** If every call is among the users, in any order, the
functions keep their behaviours and no call is left. -/
theorem runOnModule_lowers {tti : TTI} (o : Others X E) (htti : tti.Valid)
    {M : ℕ → MemProgram X} (hM : ∀ f, WellFormed (M f)) {users : List (ℕ × ℕ)}
    (husers : ∀ f, callNames (M f) ≤ usersIn users f) (f : ℕ) :
    Simulates (semantics o) (M f) (runOnModule tti M users f) ∧
      ∀ q < (runOnModule tti M users f).nextBlock,
        ∀ i ∈ ((runOnModule tti M users f).block q).instrs, i.op.isMemIntrinsic = false := by
  obtain ⟨hsimulates, hnames⟩ := runOnModule_simulates o htti users hM f
  refine ⟨hsimulates, fun q hq i hi => ?_⟩
  have hnone : callNames (M f) - usersIn users f = 0 := by
    rw [← Multiset.le_zero, Multiset.sub_le_iff_le_add, zero_add]
    exact husers f
  by_contra hop
  have hmem : i.result ∈ callNames (runOnModule tti M users f) :=
    mem_callNames.mpr ⟨q, hq, i, hi, by simpa using hop, rfl⟩
  rw [hnames, hnone] at hmem
  exact absurd hmem (Multiset.notMem_zero _)

/-! ### A copy of three bytes -/

def noOthers : Others Empty Empty where
  eval op _ _ := op.elim
  event op _ := op.elim

def copyCall : MemInstr Empty := ⟨0, .memcpy ByteSizeInBits ByteTy ByteTy,
  [.const 10, .const 20, .const 3]⟩

/-- Function 0 copies three bytes, and the others do nothing. -/
def copyThree (f : ℕ) : MemProgram Empty where
  next := 1
  block q := ⟨[], if f = 0 ∧ q = 0 then [copyCall] else []⟩
  nextBlock := 1
  term _ := .ret (.const 0)

theorem mem_instrs_copyThree {f q : ℕ} {i : MemInstr Empty}
    (h : i ∈ ((copyThree f).block q).instrs) : (f = 0 ∧ q = 0) ∧ i = copyCall := by
  change i ∈ (if f = 0 ∧ q = 0 then [copyCall] else []) at h
  split_ifs at h with hfq
  · exact ⟨hfq, List.mem_singleton.mp h⟩
  · cases h

theorem copyThree_forall {f : ℕ} {P : MemValue → Prop} {Q : ℕ → Prop} (hconst : ∀ c, P (.const c)) :
    (copyThree f).AllUses P Q := by
  refine ⟨fun q i hi v hv => ?_, fun _ _ hφ => (List.not_mem_nil hφ).elim,
    fun _ v hv => ?_, fun _ _ hq => (List.not_mem_nil hq).elim⟩
  · obtain ⟨-, rfl⟩ := mem_instrs_copyThree hi
    have hv : v ∈ ([.const 10, .const 20, .const 3] : List MemValue) := hv
    simp only [List.mem_cons, List.not_mem_nil, or_false] at hv
    rcases hv with rfl | rfl | rfl <;> exact hconst _
  · rw [List.mem_singleton.mp hv]
    exact hconst 0

theorem wellFormed_copyThree (f : ℕ) : WellFormed (copyThree f) := by
  refine ⟨⟨copyThree_forall below_const, Nat.one_pos⟩, fun q i hi _ => ?_⟩
  obtain ⟨-, rfl⟩ := mem_instrs_copyThree hi
  refine ⟨Nat.one_pos, copyThree_forall fun c => nofun, rfl, fun width _ _ c _ hc => ?_,
    fun _ _ => nofun⟩
  obtain rfl : 3 = c := Value.const.inj (Option.some.inj hc)
  refine Nat.lt_of_le_of_lt (Nat.mod_le _ _) ?_
  rw [BitVec.ofNat_eq_ofNat, BitVec.toNat_ofNat]
  exact Nat.lt_of_le_of_lt (Nat.mod_le _ _) (by decide)

theorem callNames_copyThree (f : ℕ) : callNames (copyThree f) ≤ usersIn [(0, 0)] f := by
  by_cases hf : f = 0
  · subst hf
    exact le_of_eq rfl
  · have hnone : callNames (copyThree f) = 0 := by
      refine Multiset.eq_zero_of_forall_notMem fun n hn => ?_
      obtain ⟨q, -, i, hi, -⟩ := mem_callNames.mp hn
      exact hf (mem_instrs_copyThree hi).1.1
    rw [hnone]
    exact Multiset.zero_le _

theorem runOnModule_lowers_copyThree :
    Simulates (semantics noOthers) (copyThree 0) (runOnModule TTI.base copyThree [(0, 0)] 0) ∧
      ∀ q < (runOnModule TTI.base copyThree [(0, 0)] 0).nextBlock,
        ∀ i ∈ ((runOnModule TTI.base copyThree [(0, 0)] 0).block q).instrs,
          i.op.isMemIntrinsic = false :=
  runOnModule_lowers noOthers TTI.base_valid wellFormed_copyThree callNames_copyThree 0

end TVMCompiler.LowerIntrinsics
