import TVMCompiler.Pass.LowerIntrinsics

/-!
# The loops of the memory intrinsics

What the code of the expansions does. The names are given in ascending order, so that the code keeps
the values below its first name, and a loop keeps those below its index.

## Main definitions

* `SameBelow`: the values below a name are the same
* `LoopTest`: the comparison by which a loop is left

## Main results

* `exec_copyElement`, `exec_residualCopies`: the parts of the code
* `trace_indexLoop`: a loop with an index that begins with 0
* `trace_copyLoop`, `trace_backwardsLoop`, `trace_fillLoop`: the loops
-/

namespace TVMCompiler.LowerIntrinsics

open Lib Lib.Ssa

variable {X E : Type} {o : Others X E} {F : MemProgram X} {env env' : ℕ → Val} {m : Memory}
  {n : ℕ} {src dst : MemValue} {ty : IntTy}

/-! ## Values below a name -/

/-- The values of the names below `n` are the same. -/
def SameBelow (n : ℕ) (env env' : ℕ → Val) : Prop := ∀ k < n, env' k = env k

namespace SameBelow

theorem refl (n : ℕ) (env : ℕ → Val) : SameBelow n env env := fun _ _ => rfl

theorem trans {env'' : ℕ → Val} (h : SameBelow n env env') (h' : SameBelow n env' env'') :
    SameBelow n env env'' := fun k hk => (h' k hk).trans (h k hk)

theorem mono {n' : ℕ} (h : SameBelow n env env') (hn : n' ≤ n) : SameBelow n' env env' :=
  fun k hk => h k (Nat.lt_of_lt_of_le hk hn)

theorem update (env : ℕ → Val) {k : ℕ} (hk : n ≤ k) (v : Val) :
    SameBelow n env (Function.update env k v) :=
  fun _ hj => Function.update_of_ne (Nat.ne_of_lt (Nat.lt_of_lt_of_le hj hk)) v env

theorem value (h : SameBelow n env env') {v : MemValue} (hv : v.Below n) :
    (semantics o).value env' v = (semantics o).value env v :=
  value_congr (N := {k | k < n}) h hv

end SameBelow

theorem below_name {k : ℕ} (h : k < n) : Value.Below n (.name k : MemValue) := by
  rintro _ ⟨⟩
  exact h

theorem below_const (c : Word) : Value.Below n (.const c : MemValue) := by
  rintro _ ⟨⟩

theorem below_mono {v : MemValue} {n' : ℕ} (h : v.Below n) (hn : n ≤ n') : v.Below n' :=
  fun k hk => Nat.lt_of_lt_of_le (h k hk) hn

/-! ## Parts of the code -/

theorem exec_instr {i : MemInstr X} {v : Val} {m' : Memory}
    (h : eval o.eval i.op ((semantics o).args env i) m = some (v, m')) :
    (semantics o).exec [i] (env, m) = some (Function.update env i.result v, m') := by
  show (eval o.eval i.op _ m).bind _ = _
  rw [h]
  rfl

theorem exec_pair {i j : MemInstr X} {v w : Val} {m' m'' : Memory}
    (hi : eval o.eval i.op ((semantics o).args env i) m = some (v, m'))
    (hj : eval o.eval j.op ((semantics o).args (Function.update env i.result v) j) m' =
      some (w, m'')) :
    (semantics o).exec [i, j] (env, m) =
      some (Function.update (Function.update env i.result v) j.result w, m'') := by
  show (eval o.eval i.op _ m).bind _ = _
  rw [hi]
  exact exec_instr hj

theorem exec_append_some {is is' : List (MemInstr X)} {s s' s'' : (ℕ → Val) × Memory}
    (h : (semantics o).exec is s = some s') (h' : (semantics o).exec is' s' = some s'') :
    (semantics o).exec (is ++ is') s = some s'' := by
  rw [exec_append, h]
  exact h'

theorem exec_cons_some {i : MemInstr X} {is : List (MemInstr X)} {s s' s'' : (ℕ → Val) × Memory}
    (h : (semantics o).exec [i] s = some s') (h' : (semantics o).exec is s' = some s'') :
    (semantics o).exec (i :: is) s = some s'' := exec_append_some h h'

theorem arith_ofWord (f : Word → Word → Word) {a b : Val} {x y : Word} (ha : toWord a = some x)
    (hb : toWord b = some y) : arith f a b = ofWord (f x y) := by
  unfold arith
  rw [ha, hb]

theorem exec_castPointer (env : ℕ → Val) (m : Memory) (ty opTy : IntTy) {p : MemValue}
    (hp : p.Below n) :
    ∃ env', (semantics o).exec (castPointer n p ty opTy).2 (env, m) = some (env', m) ∧
      SameBelow n env env' ∧ (semantics o).value env' (castPointer (X := X) n p ty opTy).1 =
        (semantics o).value env p ∧ (castPointer (X := X) n p ty opTy).1.Below (n + 1) := by
  unfold castPointer
  split_ifs
  · exact ⟨env, rfl, .refl n env, rfl, below_mono hp (Nat.le_succ n)⟩
  · exact ⟨_, exec_instr rfl, .update env (Nat.le_refl n) _, Function.update_self n _ env,
      below_name (Nat.lt_succ_self n)⟩

theorem exec_loadElement {index : MemValue} {s i : Word}
    (hs : toWord ((semantics o).value env src) = some s)
    (hi : toWord ((semantics o).value env index) = some i) :
    ∃ env', (semantics o).exec (loadElement n ty src index) (env, m) = some (env', m) ∧
      SameBelow n env env' ∧
      env' (n + 1) = loadRange m (elementAddress ty s i).toNat (storeSize ty) := by
  have haddress : arith (elementAddress ty) ((semantics o).value env src)
      ((semantics o).value env index) = ofWord (elementAddress ty s i) := arith_ofWord _ hs hi
  refine ⟨_, exec_pair (o := o) (w := loadRange m (elementAddress ty s i).toNat
    (storeSize ty)) rfl ?_,
    (SameBelow.update env (Nat.le_refl n) _).trans (.update _ (Nat.le_succ n) _),
    Function.update_self _ _ _⟩
  show (toWord (Function.update env n _ n)).map _ = _
  rw [Function.update_self, haddress]
  rfl

theorem exec_storeElement {v index : MemValue} {d i : Word} (hv : v.Below n)
    (hd : toWord ((semantics o).value env dst) = some d)
    (hi : toWord ((semantics o).value env index) = some i) :
    ∃ env', (semantics o).exec (storeElement n ty v dst index) (env, m) =
        some (env', storeRange m (elementAddress ty d i).toNat (storeSize ty)
          ((semantics o).value env v)) ∧
      SameBelow n env env' := by
  have haddress : arith (elementAddress ty) ((semantics o).value env dst)
      ((semantics o).value env index) = ofWord (elementAddress ty d i) := arith_ofWord _ hd hi
  refine ⟨_, exec_pair (o := o) (w := undefined) rfl ?_,
    (SameBelow.update env (Nat.le_refl n) _).trans (.update _ (Nat.le_succ n) _)⟩
  show (toWord (Function.update env n _ n)).map _ = _
  rw [Function.update_self, haddress]
  show some (undefined, storeRange m _ _ ((semantics o).value (Function.update env n _) v)) = _
  rw [(SameBelow.update env (Nat.le_refl n) _).value hv]

/-- An element is copied. -/
theorem exec_copyElement {index : MemValue} {s d i : Word} (hdst : dst.Below n)
    (hindex : index.Below n) (hs : toWord ((semantics o).value env src) = some s)
    (hd : toWord ((semantics o).value env dst) = some d)
    (hi : toWord ((semantics o).value env index) = some i) :
    ∃ env', (semantics o).exec (copyElement n ty src dst index) (env, m) =
        some (env', storeRange m (elementAddress ty d i).toNat (storeSize ty)
          (loadRange m (elementAddress ty s i).toNat (storeSize ty))) ∧
      SameBelow n env env' := by
  obtain ⟨env₁, hload, hsame, hvalue⟩ := exec_loadElement (o := o) (n := n) 
    (m := m) hs hi
  have hd' : toWord ((semantics o).value env₁ dst) = some d := by rwa [hsame.value hdst]
  have hi' : toWord ((semantics o).value env₁ index) = some i := by rwa [hsame.value hindex]
  obtain ⟨env₂, hstore, hsame'⟩ := exec_storeElement  (m := m)
    (below_name (Nat.lt_succ_self (n + 1))) hd' hi'
  refine ⟨env₂, exec_append_some hload ?_, hsame.trans (hsame'.mono (Nat.le_add_right n 2))⟩
  rw [hstore]
  show some (env₂, storeRange m _ _ (env₁ (n + 1))) = _
  rw [hvalue]

/-- The next index, and what the comparison says of it. -/
theorem exec_nextIndex {cmp : MemOp X} {index bound : MemValue} {x : Word} {v : Val}
    (hbound : bound.Below n) (hx : toWord ((semantics o).value env index) = some x)
    (hcmp : eval o.eval cmp [ofWord (x + 1), (semantics o).value env bound] m =
      some (v, m)) :
    ∃ env', (semantics o).exec (nextIndex n cmp index bound) (env, m) = some (env', m) ∧
      SameBelow n env env' ∧ env' n = ofWord (x + 1) ∧ env' (n + 1) = v := by
  have hsum : arith (· + ·) ((semantics o).value env index) (ofWord 1) = ofWord (x + 1) :=
    arith_ofWord _ hx rfl
  refine ⟨_, exec_pair (o := o) rfl ?_,
    (SameBelow.update env (Nat.le_refl n) _).trans (.update _ (Nat.le_succ n) _), ?_,
    Function.update_self _ _ _⟩
  · show eval o.eval cmp [Function.update env n _ n,
      (semantics o).value (Function.update env n _) bound] m = _
    rw [(SameBelow.update env (Nat.le_refl n) _).value hbound, Function.update_self, ← hcmp, ← hsum]
    rfl
  · show Function.update (Function.update env n _) (n + 1) v n = _
    rw [Function.update_of_ne (Nat.ne_of_lt (Nat.lt_succ_self n)), Function.update_self]
    exact hsum

/-! ## Addresses and indices -/

theorem toNat_ofNat_of_le {i : ℕ} {y : Word} (h : i ≤ y.toNat) :
    (BitVec.ofNat ByteSizeInBits i).toNat = i := by
  rw [BitVec.toNat_ofNat, Nat.mod_eq_of_lt (Nat.lt_of_le_of_lt h y.isLt)]

theorem ofNat_add_one (i : ℕ) :
    (BitVec.ofNat ByteSizeInBits i + 1 : Word) = .ofNat _ (i + 1) :=
  (BitVec.ofNat_add i 1).symm

/-- The address of an element that fits. -/
theorem toNat_elementAddress {p : Word} {i : ℕ}
    (h : p.toNat + i * storeSize ty < 2 ^ ByteSizeInBits) :
    (elementAddress ty p (.ofNat _ i)).toNat = p.toNat + i * storeSize ty := by
  unfold elementAddress
  rw [← BitVec.ofNat_mul, BitVec.toNat_add, BitVec.toNat_ofNat, Nat.add_mod_mod,
    Nat.mod_eq_of_lt h]

/-- The element behind others, of which there is one more. -/
theorem toNat_elementAddress_of_fits {p : Word} {i n : ℕ} (hi : i < n) (hsize : 0 < storeSize ty)
    (h : Fits p.toNat (n * storeSize ty)) :
    (elementAddress ty p (.ofNat _ i)).toNat = p.toNat + i * storeSize ty := by
  refine toNat_elementAddress (Nat.lt_of_lt_of_le ?_ h)
  exact Nat.add_lt_add_left (Nat.mul_lt_mul_of_pos_right hi hsize) _

theorem ofBool_true_ne_zero : ofBool true ≠ 0 := by
  intro h
  have hbit := congrArg (BitVec.getLsbD · 0) h
  cases hbit

theorem truth_ofBool (c : Bool) :
    (semantics o).truth (ofWord (ofBool c)) = some c := by
  show some (ofBool c != 0) = some c
  cases c
  · exact congrArg some (bne_self_eq_false _)
  · exact congrArg some (bne_iff_ne.mpr ofBool_true_ne_zero)

/-! ## Loops -/

/-- The values that a phi takes on an edge. -/
theorem assignPhis_singleton {φ : Phi IntTy Word} {p : ℕ} {e : MemValue × ℕ}
    (he : φ.incoming.find? (·.2 = p) = some e) (env : ℕ → Val) :
    (semantics o).assignPhis p [φ] env =
      Function.update env φ.result ((semantics o).value env e.1) := by
  funext k
  unfold Semantics.assignPhis findPhi
  by_cases hk : φ.result = k
  · subst hk
    rw [List.find?_cons_of_pos (by exact decide_eq_true rfl), Function.update_self]
    show (Option.map _ (φ.incoming.find? _)).getD _ = _
    rw [he]
    rfl
  · rw [List.find?_cons_of_neg (by simpa using hk), Function.update_of_ne fun h => hk h.symm]
    rfl

/-- The comparison of the next index with the bound leads back to the loop while it is below. -/
inductive LoopTest (loop next : ℕ) : MemOp X → ℕ → ℕ → Prop where
  | ult : LoopTest loop next .icmpULT loop next
  | eq : LoopTest loop next .icmpEQ next loop

theorem LoopTest.eval {loop next ifTrue ifFalse i : ℕ} {cmp : MemOp X} {bound : Val} {y : Word}
    (h : LoopTest loop next cmp ifTrue ifFalse) (hy : toWord bound = some y) (hi : i < y.toNat) :
    ∃ c, LowerIntrinsics.eval o.eval cmp [ofWord (.ofNat _ i + 1), bound] m =
        some (ofWord (ofBool c), m) ∧
      (if c then ifTrue else ifFalse) = if i + 1 < y.toNat then loop else next := by
  have hnext : (BitVec.ofNat ByteSizeInBits (i + 1)).toNat = i + 1 := toNat_ofNat_of_le hi
  cases h with
  | ult =>
    refine ⟨decide (i + 1 < y.toNat), ?_, ?_⟩
    · show some (arith _ _ _, m) = _
      rw [arith_ofWord _ (toWord_ofWord _) hy, ofNat_add_one, hnext]
    · simp only [decide_eq_true_eq]
  | eq =>
    refine ⟨decide (i + 1 = y.toNat), ?_, ?_⟩
    · have heq : (BitVec.ofNat ByteSizeInBits (i + 1) = y) ↔ i + 1 = y.toNat := by
        rw [← BitVec.toNat_inj, hnext]
      show some (arith _ _ _, m) = _
      rw [arith_ofWord _ (toWord_ofWord _) hy, ofNat_add_one, decide_eq_decide.mpr heq]
    · by_cases hlast : i + 1 = y.toNat
      · rw [if_pos (decide_eq_true hlast), if_neg (by omega)]
      · rw [if_neg (by simpa using hlast), if_pos (by omega)]

/-- **A loop with an index from 0 on.** The body makes of the memory after `i` rounds the one after
`i + 1` rounds. -/
theorem trace_indexLoop {loop pre a c ifTrue ifFalse : ℕ} (next : ℕ) (mem : ℕ → Memory)
    {body : List (MemInstr X)} {cmp : MemOp X} {bound : MemValue} {φ : Phi IntTy Word} {y : Word}
    (hblock : F.block loop = ⟨[φ], body ++ nextIndex c cmp (.name a) bound⟩)
    (hterm : F.term loop = .condBr (.name (c + 1)) ifTrue ifFalse)
    (htest : LoopTest loop next cmp ifTrue ifFalse) (hφ : φ.result = a) (hac : a < c)
    (hpre : φ.incoming.find? (·.2 = pre) = some (.const 0, pre))
    (hloop : φ.incoming.find? (·.2 = loop) = some (.name c, loop))
    (hnew : ∀ i ∈ body, NewInstr (fun _ => True) i) (hbound : bound.Below a)
    (hy : toWord ((semantics o).value env bound) = some y) (hpos : 0 < y.toNat)
    (hbody : ∀ i < y.toNat, ∀ env', SameBelow a env env' → env' a = ofWord (.ofNat _ i) →
      ∃ env'', (semantics o).exec body (env', mem i) = some (env'', mem (i + 1)) ∧
        SameBelow (a + 1) env' env'') :
    ∃ k env', Trace (F.step (semantics o)) k (F.enter (semantics o) pre loop env (mem 0)) []
        (F.enter (semantics o) loop next env' (mem y.toNat)) ∧ SameBelow a env env' := by
  have hsilent : ∀ i ∈ body ++ nextIndex c cmp (.name a) bound, ∀ args,
      (semantics o).event i.op args = none := by
    have hcmp : cmp.isBasic = true := by cases htest <;> rfl
    have hnew' : ∀ i ∈ body ++ nextIndex c cmp (.name a) bound, NewInstr (fun _ => True) i :=
      newInstr_append hnew (nextIndex_new hcmp (fun _ => trivial) trivial trivial trivial)
    exact fun i hi => event_of_isBasic (hnew' i hi).1
  -- the index of the first round is 0
  have hfirst : SameBelow a env ((semantics o).assignPhis pre [φ] env) ∧
      (semantics o).assignPhis pre [φ] env a = ofWord (.ofNat _ 0) ∧ mem 0 = mem 0 := by
    rw [assignPhis_singleton hpre, hφ]
    exact ⟨.update env (Nat.le_refl a) _, Function.update_self a _ env, rfl⟩
  -- a round makes of the memory after `i` rounds the one after `i + 1` rounds
  have hround : ∀ i < y.toNat, ∀ env₁ m₁, SameBelow a env env₁ ∧ env₁ a = ofWord (.ofNat _ i) ∧
      m₁ = mem i → ∃ env₂ m₂ x,
      (semantics o).exec (body ++ nextIndex c cmp (.name a) bound) (env₁, m₁) = some (env₂, m₂) ∧
      (semantics o).truth ((semantics o).value env₂ (.name (c + 1) : MemValue)) = some x ∧
      (if x then ifTrue else ifFalse) = (if i + 1 < y.toNat then loop else next) ∧
      (i + 1 < y.toNat → SameBelow a env ((semantics o).assignPhis loop [φ] env₂) ∧
        (semantics o).assignPhis loop [φ] env₂ a = ofWord (.ofNat _ (i + 1)) ∧
        m₂ = mem (i + 1)) ∧ SameBelow a env env₂ ∧ m₂ = mem (i + 1) := by
    rintro i hi env₁ _ ⟨hsame, hindex, rfl⟩
    obtain ⟨env₂, hexec, hsame₂⟩ := hbody i hi env₁ hsame hindex
    have hindex₂ : (semantics o).value env₂ (.name a : MemValue) = ofWord (.ofNat _ i) :=
      (hsame₂ a (Nat.lt_succ_self a)).trans hindex
    have hsame' : SameBelow a env env₂ := hsame.trans (hsame₂.mono (Nat.le_succ a))
    have hbound₂ : toWord ((semantics o).value env₂ bound) = some y := by
      rw [hsame'.value hbound, hy]
    obtain ⟨x, heval, hdest⟩ := htest.eval (o := o) (m := mem (i + 1)) hbound₂ hi
    obtain ⟨env₃, hexec₃, hsame₃, hnext, htruth⟩ := exec_nextIndex (o := o) (n := c)
      (below_mono hbound hac.le) (by rw [hindex₂]; rfl) heval
    have hsame'' : SameBelow a env env₃ := hsame'.trans (hsame₃.mono hac.le)
    refine ⟨env₃, mem (i + 1), x, exec_append_some hexec hexec₃, ?_, hdest, fun _ => ⟨?_, ?_, rfl⟩,
      hsame'', rfl⟩
    · show (semantics o).truth (env₃ (c + 1)) = _
      rw [htruth, truth_ofBool]
    · rw [assignPhis_singleton hloop, hφ]
      exact hsame''.trans (.update _ (Nat.le_refl a) _)
    · rw [assignPhis_singleton hloop, hφ, Function.update_self]
      show env₃ c = _
      rw [hnext, ofNat_add_one]
  obtain ⟨k, env', m', hrun, hsame, rfl⟩ := trace_loopBlock (M := semantics o) next
    (P := fun i env' m' => SameBelow a env env' ∧ env' a = ofWord (.ofNat _ i) ∧ m' = mem i)
    (Q := fun i env' m' => SameBelow a env env' ∧ m' = mem i) hblock hterm hsilent hround hpos
    hfirst
  have hstart : F.enter (semantics o) pre loop env (mem 0) =
      ⟨loop, body ++ nextIndex c cmp (.name a) bound,
        (semantics o).assignPhis pre [φ] env, mem 0⟩ := by
    rw [Program.enter, hblock]
  exact ⟨k, env', hstart ▸ hrun, hsame⟩

/-- An element is copied behind others. -/
theorem exec_copyElement_of_fits {index : MemValue} {s d : Word} {i k : ℕ} (hdst : dst.Below n)
    (hindex : index.Below n) (hs : toWord ((semantics o).value env src) = some s)
    (hd : toWord ((semantics o).value env dst) = some d)
    (hi : toWord ((semantics o).value env index) = some (.ofNat _ i)) (hik : i < k)
    (hsize : 0 < storeSize ty) (hfits : Fits d.toNat (k * storeSize ty))
    (hfits' : Fits s.toNat (k * storeSize ty))
    (hforward : d.toNat ≤ s.toNat ∨ s.toNat + k * storeSize ty ≤ d.toNat) :
    ∃ env', (semantics o).exec (copyElement n ty src dst index)
        (env, copyBytes m d.toNat s.toNat (i * storeSize ty)) =
          some (env', copyBytes m d.toNat s.toNat ((i + 1) * storeSize ty)) ∧
      SameBelow n env env' := by
  obtain ⟨env', hexec, hsame⟩ := exec_copyElement (n := n)
    (m := copyBytes m d.toNat s.toNat (i * storeSize ty)) hdst hindex hs hd hi
  refine ⟨env', ?_, hsame⟩
  have hle : (i + 1) * storeSize ty ≤ k * storeSize ty := Nat.mul_le_mul_right _ hik
  rw [hexec, toNat_elementAddress_of_fits hik hsize hfits,
    toNat_elementAddress_of_fits hik hsize hfits', Nat.succ_mul]
  rw [Nat.succ_mul] at hle
  rw [copyBytes_add (hforward.imp_right fun h => by omega)]

/-- The copies behind the bytes that have been copied. -/
theorem exec_residualCopies (srcTy dstTy : IntTy) {s d : Word} :
    ∀ {tys : List IntTy} {n copied total : ℕ} {env : ℕ → Val}, CopiesRest tys copied total →
      src.Below n → dst.Below n → toWord ((semantics o).value env src) = some s →
      toWord ((semantics o).value env dst) = some d → Fits d.toNat total → Fits s.toNat total →
      (d.toNat ≤ s.toNat ∨ s.toNat + total ≤ d.toNat) →
      ∃ env', (semantics o).exec (residualCopies tys n src dst srcTy dstTy copied)
          (env, copyBytes m d.toNat s.toNat copied) =
            some (env', copyBytes m d.toNat s.toNat total) ∧ SameBelow n env env'
  | [], n, copied, total, env, hrest, _, _, _, _, _, _, _ => by
    obtain rfl : copied = total := hrest
    exact ⟨env, rfl, .refl n env⟩
  | ty :: tys, n, copied, total, env, hrest, hsrc, hdst, hs, hd, hfits, hfits', hforward => by
    obtain ⟨hty, hdiv, hrest⟩ := hrest
    have hle := hrest.le
    -- the address behind the bytes that have been copied
    have haddress (w : Word) (hw : Fits w.toNat total) :
        (elementAddress ty w (.ofNat _ (copied / getLoopOperandSizeInBytes ty))).toNat =
          w.toNat + copied := by
      have hsize := hty.size_pos
      have hw : w.toNat + total ≤ 2 ^ ByteSizeInBits := hw
      rw [toNat_elementAddress (by rw [hty.storeSize, hdiv]; omega), hty.storeSize, hdiv]
    obtain ⟨env₁, hexec₁, hsame₁, hvalue₁, -⟩ := exec_castPointer (o := o) env
      (copyBytes m d.toNat s.toNat copied) srcTy ty hsrc
    have hindex (env : ℕ → Val) (c : Word) :
        toWord ((semantics o).value env (.const c : MemValue)) = some c := rfl
    obtain ⟨env₂, hexec₂, hsame₂, hvalue₂⟩ := exec_loadElement (n := n + 1)
      (m := copyBytes m d.toNat s.toNat copied) (hvalue₁ ▸ hs) (hindex env₁ _)
    have hsame₁₂ := hsame₁.trans (hsame₂.mono (Nat.le_succ n))
    obtain ⟨env₃, hexec₃, hsame₃, hvalue₃, -⟩ := exec_castPointer (o := o) (n := n + 3) env₂
      (copyBytes m d.toNat s.toNat copied) dstTy ty (below_mono hdst (Nat.le_add_right n 3))
    have hd₃ : toWord ((semantics o).value env₃ (castPointer (X := X) (n + 3) dst dstTy ty).1) =
        some d := by rw [hvalue₃, hsame₁₂.value hdst, hd]
    obtain ⟨env₄, hexec₄, hsame₄⟩ := exec_storeElement (n := n + 4)
      (m := copyBytes m d.toNat s.toNat copied) (below_name (by omega : n + 2 < n + 4)) hd₃
      (hindex env₃ _)
    have hloaded : (semantics o).value env₃ (.name (n + 2) : MemValue) = _ :=
      (hsame₃ (n + 2) (Nat.lt_succ_self _)).trans hvalue₂
    rw [haddress d hfits, hloaded, haddress s hfits', hty.storeSize,
      copyBytes_add (hforward.imp_right fun h => by omega)] at hexec₄
    have hsame := hsame₁₂.trans ((hsame₃.mono (Nat.le_add_right n 3)).trans
      (hsame₄.mono (Nat.le_add_right n 4)))
    obtain ⟨env₅, hexec₅, hsame₅⟩ := exec_residualCopies srcTy dstTy hrest
      (below_mono hsrc (Nat.le_add_right n 6)) (below_mono hdst (Nat.le_add_right n 6))
      (by rwa [hsame.value hsrc]) (by rwa [hsame.value hdst]) hfits hfits' hforward
    exact ⟨env₅, exec_append_some (exec_append_some (exec_append_some (exec_append_some hexec₁
      hexec₂) hexec₃) hexec₄) hexec₅, hsame.trans (hsame₅.mono (Nat.le_add_right n 6))⟩

/-- **The loop of a forward copy.** -/
theorem trace_copyLoop {loop a ifTrue ifFalse : ℕ} (pre next : ℕ) {cmp : MemOp X} {bound : MemValue}
    {φ : Phi IntTy Word} {s d y : Word}
    (hblock : F.block loop = ⟨[φ], copyElement (a + 1) ty src dst (.name a) ++
      nextIndex (a + 5) cmp (.name a) bound⟩)
    (hterm : F.term loop = .condBr (.name (a + 6)) ifTrue ifFalse)
    (htest : LoopTest loop next cmp ifTrue ifFalse) (hφ : φ.result = a)
    (hpre : φ.incoming.find? (·.2 = pre) = some (.const 0, pre))
    (hloop : φ.incoming.find? (·.2 = loop) = some (.name (a + 5), loop))
    (hsrc : src.Below a) (hdst : dst.Below a) (hbound : bound.Below a)
    (hs : toWord ((semantics o).value env src) = some s)
    (hd : toWord ((semantics o).value env dst) = some d)
    (hy : toWord ((semantics o).value env bound) = some y) (hpos : 0 < y.toNat)
    (hsize : 0 < storeSize ty) (hfits : Fits d.toNat (y.toNat * storeSize ty))
    (hfits' : Fits s.toNat (y.toNat * storeSize ty))
    (hforward : d.toNat ≤ s.toNat ∨ s.toNat + y.toNat * storeSize ty ≤ d.toNat) :
    ∃ k env', Trace (F.step (semantics o)) k (F.enter (semantics o) pre loop env m) []
        (F.enter (semantics o) loop next env'
          (copyBytes m d.toNat s.toNat (y.toNat * storeSize ty))) ∧ SameBelow a env env' := by
  have hnew : ∀ i ∈ copyElement (X := X) (a + 1) ty src dst (.name a),
      NewInstr (fun _ => True) i :=
    copyElement_new trivial trivial trivial fun _ _ => trivial
  have hfirst : copyBytes m d.toNat s.toNat (0 * storeSize ty) = m := by
    rw [Nat.zero_mul, copyBytes_zero]
  have hbody : ∀ i < y.toNat, ∀ env₁, SameBelow a env env₁ → env₁ a = ofWord (.ofNat _ i) →
      ∃ env₂, (semantics o).exec (copyElement (a + 1) ty src dst (.name a))
          (env₁, copyBytes m d.toNat s.toNat (i * storeSize ty)) =
            some (env₂, copyBytes m d.toNat s.toNat ((i + 1) * storeSize ty)) ∧
        SameBelow (a + 1) env₁ env₂ := by
    intro i hi env₁ hsame hindex
    refine exec_copyElement_of_fits (below_mono hdst (Nat.le_succ a))
      (below_name (Nat.lt_succ_self a)) ?_ ?_ ?_ hi hsize hfits hfits' hforward
    · rw [hsame.value hsrc, hs]
    · rw [hsame.value hdst, hd]
    · exact congrArg toWord hindex
  obtain ⟨k, env', hrun, hsame⟩ := trace_indexLoop next
    (fun i => copyBytes m d.toNat s.toNat (i * storeSize ty)) hblock hterm htest hφ
    (Nat.lt_add_of_pos_right (by decide)) hpre hloop hnew hbound hy hpos hbody
  exact ⟨k, env', by rwa [hfirst] at hrun, hsame⟩

/-- A byte is copied behind others. The offset of it is a sum. -/
theorem exec_copyByteAt {offset : MemValue} {s d : Word} {copied i k : ℕ} (hsrc : src.Below n)
    (hdst : dst.Below n) (hoffset : offset.Below n)
    (hs : toWord ((semantics o).value env src) = some s)
    (hd : toWord ((semantics o).value env dst) = some d)
    (hcopied : toWord ((semantics o).value env offset) = some (.ofNat _ copied))
    (hi : env n = ofWord (.ofNat _ i)) (hik : i < k) (hfits : Fits d.toNat (copied + k))
    (hfits' : Fits s.toNat (copied + k))
    (hforward : d.toNat ≤ s.toNat ∨ s.toNat + (copied + k) ≤ d.toNat) :
    ∃ env', (semantics o).exec ((castPointer (n + 1) src ty ByteTy).2 ++
        (castPointer (n + 2) dst ty ByteTy).2 ++ [⟨n + 3, .add, [offset, .name n]⟩] ++
        copyElement (n + 4) ByteTy (castPointer (X := X) (n + 1) src ty ByteTy).1
          (castPointer (X := X) (n + 2) dst ty ByteTy).1 (.name (n + 3)))
        (env, copyBytes m d.toNat s.toNat (copied + i)) =
          some (env', copyBytes m d.toNat s.toNat (copied + (i + 1))) ∧
      SameBelow (n + 1) env env' := by
  let m₁ := copyBytes m d.toNat s.toNat (copied + i)
  have hn {j : ℕ} : n ≤ n + j := Nat.le_add_right n j
  obtain ⟨env₁, hexec₁, hsame₁, hvalue₁, hbelow₁⟩ := exec_castPointer (o := o) (n := n + 1) env m₁
    ty ByteTy (below_mono hsrc hn)
  obtain ⟨env₂, hexec₂, hsame₂, hvalue₂, hbelow₂⟩ := exec_castPointer (o := o) (n := n + 2) env₁ m₁
    ty ByteTy (below_mono hdst hn)
  have hsame₁₂ : SameBelow (n + 1) env env₂ := hsame₁.trans (hsame₂.mono (Nat.le_succ _))
  -- the offset
  have hadd : eval o.eval .add [(semantics o).value env₂ offset, env₂ n] m₁ =
      some (ofWord (.ofNat _ (copied + i)), m₁) := by
    have hcopied₂ : toWord ((semantics o).value env₂ offset) = some (.ofNat _ copied) := by
      rw [hsame₁₂.value (below_mono hoffset hn), hcopied]
    have hi₂ : toWord (env₂ n) = some (.ofNat _ i) := by
      rw [hsame₁₂ n (Nat.lt_succ_self n), hi]
      rfl
    show some (arith _ _ _, m₁) = _
    rw [arith_ofWord _ hcopied₂ hi₂, ← BitVec.ofNat_add]
  have hexec₃ := exec_instr (i := ⟨n + 3, .add, [offset, .name n]⟩) hadd
  let env₃ := Function.update env₂ (n + 3) (ofWord (.ofNat _ (copied + i)))
  have hsame₃ : SameBelow (n + 3) env₂ env₃ := .update env₂ (Nat.le_refl _) _
  have hsame : SameBelow (n + 1) env env₃ := hsame₁₂.trans (hsame₃.mono (by omega))
  have hs₃ : toWord ((semantics o).value env₃ (castPointer (X := X) (n + 1) src ty ByteTy).1) =
      some s := by
    rw [hsame₃.value (below_mono hbelow₁ (Nat.le_succ _)), hsame₂.value hbelow₁, hvalue₁, hs]
  have hd₃ : toWord ((semantics o).value env₃ (castPointer (X := X) (n + 2) dst ty ByteTy).1) =
      some d := by
    rw [hsame₃.value hbelow₂, hvalue₂, hsame₁.value (below_mono hdst hn), hd]
  have hindex : env₃ (n + 3) = ofWord (.ofNat _ (copied + i)) := Function.update_self _ _ _
  have hi₃ : toWord ((semantics o).value env₃ (.name (n + 3) : MemValue)) =
      some (.ofNat _ (copied + i)) := congrArg toWord hindex
  have hone (j : ℕ) : j * storeSize ByteTy = j := by rw [storeSize_byteTy, Nat.mul_one]
  obtain ⟨env₄, hexec₄, hsame₄⟩ := exec_copyElement_of_fits (n := n + 4) (m := m)
    (below_mono hbelow₂ (Nat.le_succ _)) (below_name (Nat.lt_succ_self (n + 3))) hs₃ hd₃ hi₃
    (Nat.add_lt_add_left hik copied) (by decide : 0 < storeSize ByteTy) (by rwa [hone])
    (by rwa [hone]) (by rwa [hone])
  rw [hone, hone] at hexec₄
  exact ⟨env₄, exec_append_some (exec_append_some (exec_append_some hexec₁ hexec₂) hexec₃) hexec₄,
    hsame.trans (hsame₄.mono (by omega))⟩

/-- **The loop of the bytes that are left.** -/
theorem trace_residualLoop {loop pre a : ℕ} (next : ℕ) {offset bound : MemValue}
    {φ : Phi IntTy Word} {s d y : Word} {copied : ℕ}
    (hblock : F.block loop = ⟨[φ], (castPointer (a + 1) src ty ByteTy).2 ++
      (castPointer (a + 2) dst ty ByteTy).2 ++ [⟨a + 3, .add, [offset, .name a]⟩] ++
      copyElement (a + 4) ByteTy (castPointer (X := X) (a + 1) src ty ByteTy).1
        (castPointer (X := X) (a + 2) dst ty ByteTy).1 (.name (a + 3)) ++
      nextIndex (a + 8) .icmpULT (.name a) bound⟩)
    (hterm : F.term loop = .condBr (.name (a + 9)) loop next) (hφ : φ.result = a)
    (hpre : φ.incoming.find? (·.2 = pre) = some (.const 0, pre))
    (hloop : φ.incoming.find? (·.2 = loop) = some (.name (a + 8), loop))
    (hsrc : src.Below a) (hdst : dst.Below a) (hoffset : offset.Below a) (hbound : bound.Below a)
    (hs : toWord ((semantics o).value env src) = some s)
    (hd : toWord ((semantics o).value env dst) = some d)
    (hcopied : toWord ((semantics o).value env offset) = some (.ofNat _ copied))
    (hy : toWord ((semantics o).value env bound) = some y) (hpos : 0 < y.toNat)
    (hfits : Fits d.toNat (copied + y.toNat)) (hfits' : Fits s.toNat (copied + y.toNat))
    (hforward : d.toNat ≤ s.toNat ∨ s.toNat + (copied + y.toNat) ≤ d.toNat) :
    ∃ k env', Trace (F.step (semantics o)) k
        (F.enter (semantics o) pre loop env (copyBytes m d.toNat s.toNat copied)) []
        (F.enter (semantics o) loop next env'
          (copyBytes m d.toNat s.toNat (copied + y.toNat))) ∧ SameBelow a env env' := by
  have hnew : ∀ i ∈ ((castPointer (a + 1) src ty ByteTy).2 ++
      (castPointer (a + 2) dst ty ByteTy).2 ++ [⟨a + 3, .add, [offset, .name a]⟩] ++
      copyElement (a + 4) ByteTy (castPointer (X := X) (a + 1) src ty ByteTy).1
        (castPointer (X := X) (a + 2) dst ty ByteTy).1 (.name (a + 3)) : List (MemInstr X)),
      NewInstr (fun _ => True) i :=
    newInstr_append (newInstr_append (newInstr_append (castPointer_new trivial)
      (castPointer_new trivial)) (newInstr_cons rfl (fun _ _ => trivial) newInstr_nil))
      (copyElement_new trivial trivial trivial fun _ _ => trivial)
  obtain ⟨k, env', hrun, hsame⟩ := trace_indexLoop next
    (fun i => copyBytes m d.toNat s.toNat (copied + i)) hblock hterm .ult hφ
    (Nat.lt_add_of_pos_right (by decide)) hpre hloop hnew hbound hy hpos
    (fun i hi env₁ hsame hindex => exec_copyByteAt hsrc hdst hoffset (by rwa [hsame.value hsrc])
      (by rwa [hsame.value hdst]) (by rwa [hsame.value hoffset]) hindex hi hfits hfits' hforward)
  exact ⟨k, env', hrun, hsame⟩

/-- **The loop that fills a range.** -/
theorem trace_fillLoop {loop pre a : ℕ} (next : ℕ) {value bound : MemValue} {φ : Phi IntTy Word}
    {d y : Word}
    (hblock : F.block loop = ⟨[φ], storeElement (a + 1) Int8Ty value dst (.name a) ++
      nextIndex (a + 3) .icmpULT (.name a) bound⟩)
    (hterm : F.term loop = .condBr (.name (a + 4)) loop next) (hφ : φ.result = a)
    (hpre : φ.incoming.find? (·.2 = pre) = some (.const 0, pre))
    (hloop : φ.incoming.find? (·.2 = loop) = some (.name (a + 3), loop))
    (hvalue : value.Below a) (hdst : dst.Below a) (hbound : bound.Below a)
    (hd : toWord ((semantics o).value env dst) = some d)
    (hy : toWord ((semantics o).value env bound) = some y) (hpos : 0 < y.toNat)
    (hfits : Fits d.toNat y.toNat) :
    ∃ k env', Trace (F.step (semantics o)) k (F.enter (semantics o) pre loop env m) []
        (F.enter (semantics o) loop next env' (storeRange m d.toNat y.toNat fun _ =>
          (semantics o).value env value 0)) ∧ SameBelow a env env' := by
  have hnew : ∀ i ∈ storeElement (X := X) (a + 1) Int8Ty value dst (.name a),
      NewInstr (fun _ => True) i :=
    storeElement_new trivial trivial trivial trivial
  have hbody : ∀ i < y.toNat, ∀ env₁, SameBelow a env env₁ → env₁ a = ofWord (.ofNat _ i) →
      ∃ env₂, (semantics o).exec (storeElement (a + 1) Int8Ty value dst (.name a))
          (env₁, storeRange m d.toNat i fun _ => (semantics o).value env value 0) =
            some (env₂, storeRange m d.toNat (i + 1) fun _ => (semantics o).value env value 0) ∧
        SameBelow (a + 1) env₁ env₂ := by
    intro i hi env₁ hsame hindex
    have hd' : toWord ((semantics o).value env₁ dst) = some d := by rw [hsame.value hdst, hd]
    have hi' : toWord ((semantics o).value env₁ (.name a : MemValue)) = some (.ofNat _ i) :=
      congrArg toWord hindex
    obtain ⟨env₂, hexec, hsame₂⟩ := exec_storeElement (n := a + 1)
      (m := storeRange m d.toNat i fun _ => (semantics o).value env value 0)
      (below_mono hvalue (Nat.le_succ a)) hd' hi'
    refine ⟨env₂, ?_, hsame₂⟩
    rw [hexec, toNat_elementAddress_of_fits hi (by decide) (by rwa [storeSize_int8Ty, Nat.mul_one]),
      storeSize_int8Ty, Nat.mul_one, hsame.value hvalue, storeRange_one, storeRange_add]
  obtain ⟨k, env', hrun, hsame⟩ := trace_indexLoop next
    (fun i => storeRange m d.toNat i fun _ => (semantics o).value env value 0) hblock hterm .ult hφ
    (Nat.lt_add_of_pos_right (by decide)) hpre hloop hnew hbound hy hpos hbody
  exact ⟨k, env', by rwa [storeRange_zero] at hrun, hsame⟩

/-- One byte of a backward copy. -/
theorem exec_copyBackwards {j : ℕ} {s d y : Word} (hty : storeSize ty = 1) (hj : j < y.toNat)
    (hsrc : src.Below n) (hdst : dst.Below n) (hs : toWord ((semantics o).value env src) = some s)
    (hd : toWord ((semantics o).value env dst) = some d)
    (hindex : toWord (env n) = some (.ofNat _ (j + 1))) (hfits : Fits d.toNat y.toNat)
    (hfits' : Fits s.toNat y.toNat) :
    ∃ env', (semantics o).exec (copyBackwards n ty src dst) (env, m) =
        some (env', storeRange m (d.toNat + j) 1 (loadRange m (s.toNat + j) 1)) ∧
      SameBelow n env env' ∧ env' (n + 1) = ofWord (.ofNat _ j) ∧
      env' (n + 6) = ofWord (ofBool (decide (j = 0))) := by
  -- the index is one less
  have hsub : eval o.eval .sub [env n, ofWord 1] m = some (ofWord (.ofNat _ j), m) := by
    show some (arith _ _ _, _) = _
    rw [arith_ofWord _ hindex (toWord_ofWord 1), ← ofNat_add_one, BitVec.add_sub_cancel]
  have hexec₁ := exec_instr (i := ⟨n + 1, .sub, [.name n, .const 1]⟩) hsub
  let env₁ := Function.update env (n + 1) (ofWord (.ofNat _ j))
  have hsame₁ : SameBelow (n + 1) env env₁ := .update env (Nat.le_refl _) _
  have hn₁ : n ≤ n + 1 := Nat.le_succ n
  have hindex₁ : env₁ (n + 1) = ofWord (.ofNat _ j) := Function.update_self _ _ _
  have hi' : toWord ((semantics o).value env₁ (.name (n + 1) : MemValue)) = some (.ofNat _ j) :=
    congrArg toWord hindex₁
  obtain ⟨env₂, hexec₂, hsame₂⟩ := exec_copyElement (n := n + 2) (m := m)
    (below_mono hdst (Nat.le_add_right n 2)) (below_name (Nat.lt_succ_self (n + 1)))
    (by rwa [hsame₁.value (below_mono hsrc hn₁)]) (by rwa [hsame₁.value (below_mono hdst hn₁)]) hi'
  have hbyte (w : Word) (hw : Fits w.toNat y.toNat) :
      (elementAddress ty w (.ofNat _ j)).toNat = w.toNat + j := by
    rw [toNat_elementAddress_of_fits hj (hty ▸ Nat.one_pos) (by rwa [hty, Nat.mul_one]), hty,
      Nat.mul_one]
  rw [hbyte d hfits, hbyte s hfits', hty] at hexec₂
  have hindex₂ : env₂ (n + 1) = ofWord (.ofNat _ j) := by
    rw [hsame₂ (n + 1) (Nat.lt_succ_self _), hindex₁]
  -- the first byte is the last one to be copied
  have hcmp (m : Memory) : eval o.eval .icmpEQ [env₂ (n + 1), ofWord 0] m =
      some (ofWord (ofBool (decide (j = 0))), m) := by
    have heq : (BitVec.ofNat ByteSizeInBits j = 0) ↔ j = 0 := by
      rw [← BitVec.toNat_inj, toNat_ofNat_of_le hj.le, BitVec.ofNat_eq_ofNat, BitVec.toNat_zero]
    show some (arith _ _ _, _) = _
    rw [hindex₂, arith_ofWord _ (toWord_ofWord _) (toWord_ofWord 0), decide_eq_decide.mpr heq]
  have hexec₃ := exec_instr (i := ⟨n + 6, .icmpEQ, [.name (n + 1), .const 0]⟩)
    (hcmp (storeRange m (d.toNat + j) 1 (loadRange m (s.toNat + j) 1)))
  refine ⟨_, exec_append_some (exec_cons_some hexec₁ hexec₂) hexec₃,
    (hsame₁.mono hn₁).trans ((hsame₂.mono (Nat.le_add_right n 2)).trans
      (.update _ (Nat.le_add_right n 6) _)), ?_, Function.update_self _ _ _⟩
  show Function.update env₂ (n + 6) _ (n + 1) = _
  rw [Function.update_of_ne (by omega), hindex₂]

/-- **The loop of a backward copy.** The index of the first round is the last one. -/
theorem trace_backwardsLoop {loop a : ℕ} (pre exit : ℕ) {bound : MemValue} {φ : Phi IntTy Word}
    {s d y : Word} (hblock : F.block loop = ⟨[φ], copyBackwards a ty src dst⟩)
    (hterm : F.term loop = .condBr (.name (a + 6)) exit loop) (hφ : φ.result = a)
    (hpre : φ.incoming.find? (·.2 = pre) = some (bound, pre))
    (hloop : φ.incoming.find? (·.2 = loop) = some (.name (a + 1), loop))
    (hsrc : src.Below a) (hdst : dst.Below a) (hty : storeSize ty = 1)
    (hs : toWord ((semantics o).value env src) = some s)
    (hd : toWord ((semantics o).value env dst) = some d)
    (hy : toWord ((semantics o).value env bound) = some y) (hpos : 0 < y.toNat)
    (hfits : Fits d.toNat y.toNat) (hfits' : Fits s.toNat y.toNat) (hlt : s.toNat < d.toNat) :
    ∃ k env', Trace (F.step (semantics o)) k (F.enter (semantics o) pre loop env m) []
        (F.enter (semantics o) loop exit env' (copyBytes m d.toNat s.toNat y.toNat)) ∧
      SameBelow a env env' := by
  -- the bytes that have been copied are the last ones
  let mem (i : ℕ) := copyBytes m (d.toNat + (y.toNat - i)) (s.toNat + (y.toNat - i)) i
  have hround : ∀ i < y.toNat, ∀ env₁ m₁, SameBelow a env env₁ ∧
      toWord (env₁ a) = some (.ofNat _ (y.toNat - i)) ∧ m₁ = mem i → ∃ env₂ m₂ x,
      (semantics o).exec (copyBackwards a ty src dst) (env₁, m₁) = some (env₂, m₂) ∧
      (semantics o).truth ((semantics o).value env₂ (.name (a + 6) : MemValue)) = some x ∧
      (if x then exit else loop) = (if i + 1 < y.toNat then loop else exit) ∧
      (i + 1 < y.toNat → SameBelow a env ((semantics o).assignPhis loop [φ] env₂) ∧
        toWord ((semantics o).assignPhis loop [φ] env₂ a) = some (.ofNat _ (y.toNat - (i + 1))) ∧
        m₂ = mem (i + 1)) ∧ SameBelow a env env₂ ∧ m₂ = mem (i + 1) := by
    rintro i hi env₁ _ ⟨hsame, hindex, rfl⟩
    have hleft : y.toNat - i = y.toNat - (i + 1) + 1 := by omega
    have hleft' : y.toNat - (i + 1) < y.toNat := by omega
    rw [hleft] at hindex
    obtain ⟨env₂, hexec, hsame₂, hnext, htest⟩ := exec_copyBackwards (m := mem i) hty hleft' hsrc
      hdst (by rwa [hsame.value hsrc]) (by rwa [hsame.value hdst]) hindex hfits hfits'
    have hmem : mem i = copyBytes m (d.toNat + (y.toNat - (i + 1)) + 1)
        (s.toNat + (y.toNat - (i + 1)) + 1) i := by
      show copyBytes m (d.toNat + (y.toNat - i)) (s.toNat + (y.toNat - i)) i = _
      rw [hleft]
      rfl
    -- the byte in front of those that have been copied has not been written
    rw [hmem, copyBytes_succ_of_lt (Nat.add_lt_add_right hlt _), ← hmem] at hexec
    have hsame' := hsame.trans hsame₂
    refine ⟨env₂, _, decide (y.toNat - (i + 1) = 0), hexec, ?_, ?_, fun _ => ⟨?_, ?_, rfl⟩, hsame',
      rfl⟩
    · show (semantics o).truth (env₂ (a + 6)) = _
      rw [htest, truth_ofBool]
    · by_cases hlast : i + 1 < y.toNat
      · rw [if_pos hlast, if_neg (by simp; omega)]
      · rw [if_neg hlast, if_pos (by simp; omega)]
    · rw [assignPhis_singleton hloop, hφ]
      exact hsame'.trans (.update _ (Nat.le_refl a) _)
    · rw [assignPhis_singleton hloop, hφ, Function.update_self]
      show toWord (env₂ (a + 1)) = _
      rw [hnext]
      rfl
  -- the index of the first round is the length
  have hfirst : SameBelow a env ((semantics o).assignPhis pre [φ] env) ∧
      toWord ((semantics o).assignPhis pre [φ] env a) = some (.ofNat _ (y.toNat - 0)) ∧
      m = mem 0 := by
    rw [assignPhis_singleton hpre, hφ, Function.update_self]
    refine ⟨.update env (Nat.le_refl a) _, ?_, copyBytes_zero.symm⟩
    rw [hy, Nat.sub_zero, BitVec.ofNat_toNat, BitVec.setWidth_eq]
  have hnew : ∀ i ∈ copyBackwards (X := X) a ty src dst, NewInstr (fun _ => True) i :=
    copyBackwards_new (fun _ => trivial) trivial trivial fun _ _ => trivial
  obtain ⟨k, env', m', hrun, hsame, rfl⟩ := trace_loopBlock (M := semantics o) exit
    (P := fun i env' m' => SameBelow a env env' ∧
      toWord (env' a) = some (.ofNat _ (y.toNat - i)) ∧ m' = mem i)
    (Q := fun i env' m' => SameBelow a env env' ∧ m' = mem i) hblock hterm
    (fun i hi => event_of_isBasic (hnew i hi).1) hround hpos hfirst
  have hstart : F.enter (semantics o) pre loop env m =
      ⟨loop, copyBackwards a ty src dst, (semantics o).assignPhis pre [φ] env, m⟩ := by
    rw [Program.enter, hblock]
  have hlast : mem y.toNat = copyBytes m d.toNat s.toNat y.toNat := by
    show copyBytes m (d.toNat + (y.toNat - y.toNat)) (s.toNat + (y.toNat - y.toNat)) y.toNat = _
    rw [Nat.sub_self]
    rfl
  refine ⟨k, env', ?_, hsame⟩
  rw [hstart, ← hlast]
  exact hrun

end TVMCompiler.LowerIntrinsics
