import TVMCompiler.Pass.MemIntrinsics

/-!
# Lowering of the memory intrinsics

`TVMLowerIntrinsics` makes a loop of every `memcpy`, `memmove` and `memset` of a module.

## Main definitions

* `TTI`: the types that `memcpy` is to copy with
* `createMemCpyLoopKnownSize`, `createMemCpyLoopUnknownSize`: the loops of `memcpy`
* `createMemMoveLoop`, `createMemSetLoop`: the loops of `memmove` and of `memset`
* `runOnModule`: the pass
* `TTI.Valid`: the types take whole bytes, and the assertions hold
* `NewInstr`: the instructions of the loops

## Main results

* `TTI.base_valid`: the types of the target
* `createByteLoop_edited` and the lemmas behind it: what a loop uses, for any property of values
-/

namespace TVMCompiler.LowerIntrinsics

open Lib Lib.Ssa

variable {X E : Type}

abbrev MemValue := Value IntTy Word

abbrev MemInstr (X : Type) := Instr (MemOp X) IntTy Word

abbrev MemProgram (X : Type) := Program (MemOp X) IntTy Word

/-! ## The loops -/

/-- What the target says about the types to copy with. -/
structure TTI where
  getMemcpyLoopLoweringType : MemValue → IntTy
  getMemcpyLoopResidualLoweringType : ℕ → List IntTy

/-- `TargetTransformInfoImplBase`. -/
def TTI.base : TTI where
  getMemcpyLoopLoweringType _ := ByteTy
  getMemcpyLoopResidualLoweringType remainingBytes := List.replicate remainingBytes ByteTy

def getLoopOperandSizeInBytes (ty : IntTy) : ℕ := ty / ByteSizeInBits

/-- A pointer to `opTy`, by the name `n` if there has to be a cast. -/
def castPointer (n : ℕ) (p : MemValue) (ty opTy : IntTy) : MemValue × List (MemInstr X) :=
  if ty = opTy then (p, []) else (.name n, [⟨n, .bitcast, [p]⟩])

def loadElement (n : ℕ) (ty : IntTy) (src index : MemValue) : List (MemInstr X) :=
  [⟨n, .getElementPtr ty, [src, index]⟩, ⟨n + 1, .load ty, [.name n]⟩]

def storeElement (n : ℕ) (ty : IntTy) (v dst index : MemValue) : List (MemInstr X) :=
  [⟨n, .getElementPtr ty, [dst, index]⟩, ⟨n + 1, .store ty, [v, .name n]⟩]

/-- An element is copied. -/
def copyElement (n : ℕ) (ty : IntTy) (src dst index : MemValue) : List (MemInstr X) :=
  loadElement n ty src index ++ storeElement (n + 2) ty (.name (n + 1)) dst index

/-- The index of the next round, and the comparison by which the loop is left. -/
def nextIndex (n : ℕ) (cmp : MemOp X) (index bound : MemValue) : List (MemInstr X) :=
  [⟨n, .add, [index, .const 1]⟩, ⟨n + 1, cmp, [.name n, bound]⟩]

/-- The element in front of the index `n`, and the comparison by which the loop is left. -/
def copyBackwards (n : ℕ) (ty : IntTy) (src dst : MemValue) : List (MemInstr X) :=
  ⟨n + 1, .sub, [.name n, .const 1]⟩ :: copyElement (n + 2) ty src dst (.name (n + 1)) ++
    [⟨n + 6, .icmpEQ, [.name (n + 1), .const 0]⟩]

/-- The phi of an index that begins with 0. -/
def loopIndex (n : ℕ) (pre loop newIndex : ℕ) : Phi IntTy Word :=
  ⟨n, ByteTy, [(.const 0, pre), (.name newIndex, loop)]⟩

/-- The bytes that are left behind a loop of known size. -/
def residualCopies : List IntTy → ℕ → MemValue → MemValue → IntTy → IntTy → ℕ → List (MemInstr X)
  | [], _, _, _, _, _, _ => []
  | ty :: tys, n, src, dst, srcTy, dstTy, bytesCopied =>
    let operandSize := getLoopOperandSizeInBytes ty
    let gepIndex := .const (.ofNat _ (bytesCopied / operandSize))
    let castedSrc := castPointer n src srcTy ty
    let castedDst := castPointer (n + 3) dst dstTy ty
    castedSrc.2 ++ loadElement (n + 1) ty castedSrc.1 gepIndex ++ castedDst.2 ++
      storeElement (n + 4) ty (.name (n + 2)) castedDst.1 gepIndex ++
      residualCopies tys (n + 6) src dst srcTy dstTy (bytesCopied + operandSize)

/-- The program, and where the instruction is then. -/
structure Created (X : Type) where
  program : MemProgram X
  block : ℕ
  index : ℕ

section Create

variable (tti : TTI) (F : MemProgram X) (b k : ℕ) (src dst : MemValue) (srcTy dstTy : IntTy)

/-- The loop of `createMemCpyLoopKnownSize`, with the copies behind it. -/
def createLoopKnownSize (ty : IntTy) (loopEndCount bytesCopied : ℕ) (remainingOps : List IntTy) :
    Created X :=
  let n := F.next
  let post := F.nextBlock
  let loop := F.nextBlock + 1
  let castedSrc := castPointer n src srcTy ty
  let castedDst := castPointer (n + 1) dst dstTy ty
  let rest := residualCopies remainingOps (n + 9) castedSrc.1 castedDst.1 ty ty bytesCopied
  { program := F.addNames (9 + 6 * remainingOps.length)
      |>.splitBasicBlock b k
      |>.setTerm b (.br loop)
      |>.addBlock [loopIndex (n + 2) b loop (n + 7)]
        (copyElement (n + 3) ty castedSrc.1 castedDst.1 (.name (n + 2)) ++
          nextIndex (n + 7) .icmpULT (.name (n + 2)) (.const (.ofNat _ loopEndCount)))
        (.condBr (.name (n + 8)) loop post)
      |>.appendInstrs b (castedSrc.2 ++ castedDst.2)
      |>.insertInstrs post 0 rest
    block := post
    index := rest.length }

/-- The bytes that are left, without a loop. -/
def createCopiesKnownSize (bytesCopied : ℕ) (remainingOps : List IntTy) : Created X :=
  let rest := residualCopies remainingOps F.next src dst srcTy dstTy bytesCopied
  { program := F.addNames (6 * remainingOps.length) |>.insertInstrs b k rest
    block := b
    index := k + rest.length }

/-- The length is taken by `getZExtValue`. -/
def createMemCpyLoopKnownSize (copyLen : Word) : Created X :=
  if copyLen = 0 then ⟨F, b, k⟩
  else
    let loopOpType := tti.getMemcpyLoopLoweringType (.const copyLen)
    let loopOpSize := getLoopOperandSizeInBytes loopOpType
    let length := copyLen.toNat % 2 ^ 64
    let loopEndCount := length / loopOpSize
    let bytesCopied := loopEndCount * loopOpSize
    let remainingBytes := length - bytesCopied
    let remainingOps := if remainingBytes = 0 then []
      else tti.getMemcpyLoopResidualLoweringType remainingBytes
    if loopEndCount = 0 then
      createCopiesKnownSize F b k src dst srcTy dstTy bytesCopied remainingOps
    else createLoopKnownSize F b k src dst srcTy dstTy loopOpType loopEndCount bytesCopied
      remainingOps

/-- The loop of `createMemCpyLoopUnknownSize` that copies byte by byte. -/
def createByteLoop (copyLen : MemValue) : Created X :=
  let n := F.next
  let post := F.nextBlock
  let loop := F.nextBlock + 1
  let castedSrc := castPointer n src srcTy ByteTy
  let castedDst := castPointer (n + 1) dst dstTy ByteTy
  { program := F.addNames 10
      |>.splitBasicBlock b k
      |>.addBlock [loopIndex (n + 3) b loop (n + 8)]
        (copyElement (n + 4) ByteTy castedSrc.1 castedDst.1 (.name (n + 3)) ++
          nextIndex (n + 8) .icmpULT (.name (n + 3)) copyLen)
        (.condBr (.name (n + 9)) loop post)
      |>.appendInstrs b
        (castedSrc.2 ++ castedDst.2 ++ [⟨n + 2, .icmpNE, [copyLen, .const 0]⟩])
      |>.setTerm b (.condBr (.name (n + 2)) loop post)
    block := post
    index := 0 }

/-- The loop of `createMemCpyLoopUnknownSize` that copies wider elements, and the one behind it that
copies the bytes that are left. -/
def createWideLoop (ty : IntTy) (copyLen : MemValue) : Created X :=
  let n := F.next
  let post := F.nextBlock
  let loop := F.nextBlock + 1
  let resLoop := F.nextBlock + 2
  let resHeader := F.nextBlock + 3
  let loopOpSize := .const (.ofNat _ (getLoopOperandSizeInBytes ty))
  let castedSrc := castPointer n src srcTy ty
  let castedDst := castPointer (n + 1) dst dstTy ty
  let srcAsInt8 := castPointer (n + 15) castedSrc.1 ty ByteTy
  let dstAsInt8 := castPointer (n + 16) castedDst.1 ty ByteTy
  { program := F.addNames 24
      |>.splitBasicBlock b k
      |>.addBlock [loopIndex (n + 6) b loop (n + 11)]
        (copyElement (n + 7) ty castedSrc.1 castedDst.1 (.name (n + 6)) ++
          nextIndex (n + 11) .icmpULT (.name (n + 6)) (.name (n + 2)))
        (.condBr (.name (n + 12)) loop resHeader)
      |>.addBlock [loopIndex (n + 14) resHeader resLoop (n + 22)]
        (srcAsInt8.2 ++ dstAsInt8.2 ++ [⟨n + 17, .add, [.name (n + 4), .name (n + 14)]⟩] ++
          copyElement (n + 18) ByteTy srcAsInt8.1 dstAsInt8.1 (.name (n + 17)) ++
          nextIndex (n + 22) .icmpULT (.name (n + 14)) (.name (n + 3)))
        (.condBr (.name (n + 23)) resLoop post)
      |>.addBlock [] [⟨n + 13, .icmpNE, [.name (n + 3), .const 0]⟩]
        (.condBr (.name (n + 13)) resLoop post)
      |>.appendInstrs b
        (castedSrc.2 ++ castedDst.2 ++ [⟨n + 2, .udiv, [copyLen, loopOpSize]⟩,
          ⟨n + 3, .urem, [copyLen, loopOpSize]⟩, ⟨n + 4, .sub, [copyLen, .name (n + 3)]⟩,
          ⟨n + 5, .icmpNE, [.name (n + 2), .const 0]⟩])
      |>.setTerm b (.condBr (.name (n + 5)) loop resHeader)
    block := post
    index := 0 }

def createMemCpyLoopUnknownSize (copyLen : MemValue) : Created X :=
  let loopOpType := tti.getMemcpyLoopLoweringType copyLen
  if loopOpType = ByteTy then createByteLoop F b k src dst srcTy dstTy copyLen
  else createWideLoop F b k src dst srcTy dstTy loopOpType copyLen

/-- The two new blocks are the first ones behind the one that has been split off. -/
def splitBlockAndInsertIfThenElse (cond : MemValue) : MemProgram X :=
  F.splitBasicBlock b k
    |>.addBlock [] [] (.br F.nextBlock)
    |>.addBlock [] [] (.br F.nextBlock)
    |>.setTerm b (.condBr cond (F.nextBlock + 1) (F.nextBlock + 2))

/-- Backwards if the source is in front of the destination, and else forward. -/
def createMemMoveLoop (ty : IntTy) (copyLen : MemValue) : Created X :=
  let n := F.next
  let exit := F.nextBlock
  let backwards := F.nextBlock + 1
  let forward := F.nextBlock + 2
  let loop := F.nextBlock + 3
  let fwdLoop := F.nextBlock + 4
  let split := splitBlockAndInsertIfThenElse
    (F.addNames 16 |>.insertInstrs b k [⟨n, .icmpULT, [src, dst]⟩]) b (k + 1) (.name n)
  { program := split
      |>.appendInstrs b [⟨n + 1, .icmpEQ, [copyLen, .const 0]⟩]
      |>.addBlock [⟨n + 2, ByteTy, [(.name (n + 3), loop), (copyLen, backwards)]⟩]
        (copyBackwards (n + 2) ty src dst) (.condBr (.name (n + 8)) exit loop)
      |>.setTerm backwards (.condBr (.name (n + 1)) exit loop)
      |>.addBlock [⟨n + 9, ByteTy, [(.name (n + 14), fwdLoop), (.const 0, forward)]⟩]
        (copyElement (n + 10) ty src dst (.name (n + 9)) ++
          nextIndex (n + 14) .icmpEQ (.name (n + 9)) copyLen)
        (.condBr (.name (n + 15)) exit fwdLoop)
      |>.setTerm forward (.condBr (.name (n + 1)) exit fwdLoop)
    block := exit
    index := 0 }

/-- `CreateICmpEQ` compares constants itself. What the builder makes of other constants has the same
value as the instructions that are made here. -/
def createICmpEQ (n : ℕ) : MemValue → MemValue → MemValue × List (MemInstr X)
  | .const c, .const d => (.const (ofBool (decide (c = d))), [])
  | x, y => (.name n, [⟨n, .icmpEQ, [x, y]⟩])

def createMemSetLoop (copyLen setValue : MemValue) : Created X :=
  let n := F.next
  let post := F.nextBlock
  let loop := F.nextBlock + 1
  let castedDst := castPointer n dst dstTy Int8Ty
  let isZero := createICmpEQ (n + 1) (.const 0) copyLen
  { program := F.addNames 7
      |>.splitBasicBlock b k
      |>.appendInstrs b (castedDst.2 ++ isZero.2)
      |>.setTerm b (.condBr isZero.1 post loop)
      |>.addBlock [loopIndex (n + 2) b loop (n + 5)]
        (storeElement (n + 3) Int8Ty setValue castedDst.1 (.name (n + 2)) ++
          nextIndex (n + 5) .icmpULT (.name (n + 2)) copyLen)
        (.condBr (.name (n + 6)) loop post)
    block := post
    index := 0 }

end Create

/-! ## The pass -/

section Pass

variable (tti : TTI) (F : MemProgram X)

/-- `CreateZExtOrBitCast` to the widest type, by the name `n` if it is an instruction. -/
def fixLength (n width : ℕ) (len : MemValue) : MemValue × List (MemInstr X) :=
  if width = ByteSizeInBits then (len, [])
  else match len with
    | .const c => (.const (zeroExtend width c), [])
    | .undef _ => (.const 0, [])
    | .name _ => (.name n, [⟨n, .zext width, [len]⟩])

/-- The program with the length as it is needed, and the loop that is created. -/
def withFixLength (b k width : ℕ) (len : MemValue)
    (create : MemProgram X → ℕ → MemValue → Created X) : Created X :=
  let fixed := fixLength F.next width len
  create (F.addNames 1 |>.insertInstrs b k fixed.2) (k + fixed.2.length) fixed.1

def expandMemCpyAsLoopTVM (b k width : ℕ) (dstTy srcTy : IntTy) (dst src len : MemValue) :
    Created X :=
  withFixLength F b k width len fun F k copyLen => match copyLen with
    | .const c => createMemCpyLoopKnownSize tti F b k src dst srcTy dstTy c
    | copyLen => createMemCpyLoopUnknownSize tti F b k src dst srcTy dstTy copyLen

def expandMemMoveAsLoopTVM (b k width : ℕ) (ty : IntTy) (dst src len : MemValue) : Created X :=
  withFixLength F b k width len fun F k copyLen => createMemMoveLoop F b k src dst ty copyLen

def expandMemSetAsLoopTVM (b k width : ℕ) (dstTy : IntTy) (dst value len : MemValue) : Created X :=
  withFixLength F b k width len fun F k copyLen =>
    createMemSetLoop F b k dst dstTy copyLen value

/-- The `k`-th instruction of the block `b` is expanded and erased. -/
def expandMemIntrinsic (b k : ℕ) (i : MemInstr X) : MemProgram X :=
  let erased (created : Created X) := created.program.eraseInstr created.block created.index
  match i.op, i.operands with
  | .memcpy width dstTy srcTy, [dst, src, len] =>
    erased (expandMemCpyAsLoopTVM tti F b k width dstTy srcTy dst src len)
  | .memmove width ty, [dst, src, len] =>
    erased (expandMemMoveAsLoopTVM F b k width ty dst src len)
  | .memset width dstTy, [dst, value, len] =>
    erased (expandMemSetAsLoopTVM F b k width dstTy dst value len)
  | _, _ => F

/-- Where the intrinsic with this name is called. -/
def findCall (name : ℕ) : Option (ℕ × ℕ) :=
  (List.range F.nextBlock).findSome? fun b =>
    ((F.block b).instrs.findIdx? fun i => i.op.isMemIntrinsic && i.result == name).map (b, ·)

/-- One user of an intrinsic. -/
def expandUse (name : ℕ) : MemProgram X :=
  match findCall F name with
  | none => F
  | some (b, k) => match (F.block b).instrs[k]? with
    | none => F
    | some i => expandMemIntrinsic tti F b k i

/-- The users of the intrinsics, each in a function of the module. -/
def runOnModule (M : ℕ → MemProgram X) (users : List (ℕ × ℕ)) : ℕ → MemProgram X :=
  users.foldl (fun M user => Function.update M user.1 (expandUse tti (M user.1) user.2)) M

end Pass

/-! ## What the target may ask for -/

/-- The type takes whole bytes. -/
def WholeBytes (ty : IntTy) : Prop := 0 < ty ∧ ByteSizeInBits ∣ ty

/-- The assertions on the types for the bytes that are left behind `copied` bytes. -/
def CopiesRest : List IntTy → ℕ → ℕ → Prop
  | [], copied, total => copied = total
  | ty :: tys, copied, total => WholeBytes ty ∧
    copied / getLoopOperandSizeInBytes ty * getLoopOperandSizeInBytes ty = copied ∧
    CopiesRest tys (copied + getLoopOperandSizeInBytes ty) total

/-- The types take whole bytes, and the assertions on them hold. The assertions alone let a type of
300 bits pass, which is a byte long to the loops and two bytes long to a load. -/
structure TTI.Valid (tti : TTI) : Prop where
  loop : ∀ len, WholeBytes (tti.getMemcpyLoopLoweringType len)
  loop_lt : ∀ len, getLoopOperandSizeInBytes (tti.getMemcpyLoopLoweringType len) <
    2 ^ ByteSizeInBits
  residual : ∀ len remaining copied, 0 < remaining →
    remaining < getLoopOperandSizeInBytes (tti.getMemcpyLoopLoweringType len) →
    getLoopOperandSizeInBytes (tti.getMemcpyLoopLoweringType len) ∣ copied →
    CopiesRest (tti.getMemcpyLoopResidualLoweringType remaining) copied (copied + remaining)

theorem wholeBytes_byteTy : WholeBytes ByteTy := ⟨by decide, Nat.dvd_refl _⟩

theorem getLoopOperandSizeInBytes_byteTy : getLoopOperandSizeInBytes ByteTy = 1 := by decide

theorem TTI.base_valid : TTI.base.Valid where
  loop _ := wholeBytes_byteTy
  loop_lt _ := by
    rw [show TTI.base.getMemcpyLoopLoweringType _ = ByteTy from rfl,
      getLoopOperandSizeInBytes_byteTy]
    exact Nat.one_lt_two_pow (by decide)
  residual _ _ _ hpos hlt _ :=
    absurd (Nat.lt_one_iff.mp (getLoopOperandSizeInBytes_byteTy ▸ hlt)) hpos.ne'

theorem WholeBytes.storeSize {ty : IntTy} (h : WholeBytes ty) :
    storeSize ty = getLoopOperandSizeInBytes ty := by
  obtain ⟨hpos, k, rfl⟩ := h
  unfold LowerIntrinsics.storeSize getLoopOperandSizeInBytes
  rw [Nat.mul_add_div (by decide), Nat.mul_div_cancel_left k (by decide)]
  rfl

theorem WholeBytes.size_pos {ty : IntTy} (h : WholeBytes ty) :
    0 < getLoopOperandSizeInBytes ty := by
  obtain ⟨hpos, k, rfl⟩ := h
  unfold getLoopOperandSizeInBytes
  rw [Nat.mul_div_cancel_left k (by decide)]
  exact Nat.pos_of_mul_pos_left hpos

theorem CopiesRest.le {tys : List IntTy} {copied total : ℕ} (h : CopiesRest tys copied total) :
    copied ≤ total := by
  induction tys generalizing copied with
  | nil => exact Nat.le_of_eq h
  | cons ty tys ih => exact Nat.le_trans (Nat.le_add_right _ _) (ih h.2.2)

/-! ## What is new in the program -/

/-- An instruction of an expansion. -/
def NewInstr (P : MemValue → Prop) (i : MemInstr X) : Prop :=
  i.op.isBasic = true ∧ ∀ v ∈ i.operands, P v

/-- The constants, the new names and the new blocks have the properties. -/
structure Covers (F G : MemProgram X) (b : ℕ) (P : MemValue → Prop) (Q : ℕ → Prop) : Prop where
  const : ∀ c, P (.const c)
  name : ∀ n, F.next ≤ n → n < G.next → P (.name n)
  block : ∀ q, F.nextBlock ≤ q → q < G.nextBlock → Q q
  split : Q b

section Edited

variable {F : MemProgram X} {b k n : ℕ} {src dst p copyLen : MemValue} {ty opTy srcTy dstTy : IntTy}
  {P : MemValue → Prop} {Q : ℕ → Prop}

theorem castPointer_fst (ty opTy : IntTy) (hp : P p) (hn : P (.name n)) :
    P (castPointer (X := X) n p ty opTy).1 := by
  unfold castPointer
  split_ifs
  · exact hp
  · exact hn

theorem castPointer_new (hp : P p) : ∀ i ∈ (castPointer (X := X) n p ty opTy).2, NewInstr P i := by
  unfold castPointer
  split_ifs
  · exact fun _ hi => by cases hi
  · intro i hi
    obtain rfl := List.mem_singleton.mp hi
    exact ⟨rfl, fun v hv => List.mem_singleton.mp hv ▸ hp⟩

theorem newInstr_append {is is' : List (MemInstr X)} (h : ∀ i ∈ is, NewInstr P i)
    (h' : ∀ i ∈ is', NewInstr P i) : ∀ i ∈ is ++ is', NewInstr P i := by
  intro i hi
  rcases List.mem_append.mp hi with hi | hi
  · exact h i hi
  · exact h' i hi

theorem newInstr_cons {i : MemInstr X} {is : List (MemInstr X)} (hop : i.op.isBasic = true)
    (hv : ∀ v ∈ i.operands, P v) (h : ∀ i ∈ is, NewInstr P i) : ∀ j ∈ i :: is, NewInstr P j :=
  List.forall_mem_cons.mpr ⟨⟨hop, hv⟩, h⟩

theorem newInstr_nil : ∀ i ∈ ([] : List (MemInstr X)), NewInstr P i := fun _ hi => by cases hi

theorem forall_mem_pair {α : Type} {R : α → Prop} {x y : α} (hx : R x) (hy : R y) :
    ∀ z ∈ [x, y], R z := List.forall_mem_cons.mpr ⟨hx, List.forall_mem_singleton.mpr hy⟩

theorem loadElement_new {index : MemValue} (hsrc : P src) (hindex : P index) (hn : P (.name n)) :
    ∀ i ∈ loadElement (X := X) n ty src index, NewInstr P i :=
  newInstr_cons rfl (forall_mem_pair hsrc hindex)
    (newInstr_cons rfl (List.forall_mem_singleton.mpr hn) newInstr_nil)

theorem storeElement_new {v index : MemValue} (hv : P v) (hdst : P dst) (hindex : P index)
    (hn : P (.name n)) : ∀ i ∈ storeElement (X := X) n ty v dst index, NewInstr P i :=
  newInstr_cons rfl (forall_mem_pair hdst hindex)
    (newInstr_cons rfl (forall_mem_pair hv hn) newInstr_nil)

theorem copyElement_new {index : MemValue} (hsrc : P src) (hdst : P dst) (hindex : P index)
    (hn : ∀ j < 4, P (.name (n + j))) :
    ∀ i ∈ copyElement (X := X) n ty src dst index, NewInstr P i :=
  newInstr_append (loadElement_new hsrc hindex (hn 0 (by decide)))
    (storeElement_new (hn 1 (by decide)) hdst hindex (hn 2 (by decide)))

theorem copyBackwards_new (hconst : ∀ c, P (.const c)) (hsrc : P src) (hdst : P dst)
    (hn : ∀ j < 7, P (.name (n + j))) :
    ∀ i ∈ copyBackwards (X := X) n ty src dst, NewInstr P i := by
  refine newInstr_append (newInstr_cons rfl (forall_mem_pair (hn 0 (by decide)) (hconst 1))
    (copyElement_new hsrc hdst (hn 1 (by decide)) fun j hj => ?_))
    (newInstr_cons rfl (forall_mem_pair (hn 1 (by decide)) (hconst 0)) newInstr_nil)
  rw [Nat.add_assoc]
  exact hn (2 + j) (by omega)

theorem nextIndex_new {cmp : MemOp X} (hcmp : cmp.isBasic = true) {index bound : MemValue}
    (hconst : ∀ c, P (.const c)) (hindex : P index) (hbound : P bound) (hn : P (.name n)) :
    ∀ i ∈ nextIndex n cmp index bound, NewInstr P i :=
  newInstr_cons rfl (forall_mem_pair hindex (hconst 1))
    (newInstr_cons hcmp (forall_mem_pair hn hbound) newInstr_nil)

theorem residualCopies_new (hconst : ∀ c, P (.const c)) (hsrc : P src) (hdst : P dst) :
    ∀ (tys : List IntTy) (n bytesCopied : ℕ), (∀ j < 6 * tys.length, P (.name (n + j))) →
      ∀ i ∈ residualCopies (X := X) tys n src dst srcTy dstTy bytesCopied, NewInstr P i
  | [], _, _, _ => newInstr_nil
  | ty :: tys, n, bytesCopied, hn => by
    have hlen : (ty :: tys).length = tys.length + 1 := rfl
    have hn' {j : ℕ} (hj : j < 6) : P (.name (n + j)) := hn j (by omega)
    have hrest := residualCopies_new hconst hsrc hdst tys (n + 6)
      (bytesCopied + getLoopOperandSizeInBytes ty) fun j hj => by
        rw [Nat.add_assoc]
        exact hn (6 + j) (by omega)
    have hsrc' := castPointer_fst (X := X) srcTy ty hsrc (hn' (j := 0) (by decide))
    have hdst' := castPointer_fst (X := X) dstTy ty hdst (hn' (j := 3) (by decide))
    refine newInstr_append (newInstr_append (newInstr_append (newInstr_append
      (castPointer_new hsrc) ?_) (castPointer_new hdst)) ?_) hrest
    · exact loadElement_new hsrc' (hconst _) (hn' (by decide))
    · exact storeElement_new (hn' (by decide)) hdst' (hconst _) (hn' (by decide))

theorem loopIndex_new {pre loop newIndex : ℕ} (hconst : ∀ c, P (.const c))
    (hn : P (.name newIndex)) (hpre : Q pre) (hloop : Q loop) :
    ∀ φ ∈ [loopIndex n pre loop newIndex], ∀ e ∈ φ.incoming, P e.1 ∧ Q e.2 := by
  intro φ hφ
  obtain rfl := List.mem_singleton.mp hφ
  exact List.forall_mem_cons.mpr ⟨⟨hconst 0, hpre⟩, List.forall_mem_singleton.mpr ⟨hn, hloop⟩⟩

theorem createByteLoop_edited (hb : b < F.nextBlock)
    (h : Covers F (createByteLoop F b k src dst srcTy dstTy copyLen).program b P Q)
    (hsrc : P src) (hdst : P dst) (hlen : P copyLen) :
    Edited (NewInstr P) P Q F (createByteLoop F b k src dst srcTy dstTy copyLen).program := by
  have hname (j : ℕ) (hj : j < 10) : P (.name (F.next + j)) :=
    h.name _ (Nat.le_add_right _ _) (Nat.add_lt_add_left hj _)
  have hblock (j : ℕ) (hj : j < 2) : Q (F.nextBlock + j) :=
    h.block _ (Nat.le_add_right _ _) (Nat.add_lt_add_left hj _)
  have hsrc' := castPointer_fst (X := X) srcTy ByteTy hsrc (hname 0 (by decide))
  have hdst' := castPointer_fst (X := X) dstTy ByteTy hdst (hname 1 (by decide))
  refine Edited.setTerm (Edited.appendInstrs (Edited.addBlock (Edited.splitBasicBlock
    (Edited.refl.addNames 10) hb (hblock 0 (by decide)) k) ?_ ?_ ?_ ?_) ?_ ?_) b ?_ ?_
  · exact loopIndex_new h.const (hname 8 (by decide)) h.split (hblock 1 (by decide))
  · refine newInstr_append (copyElement_new hsrc' hdst' (hname 3 (by decide)) fun j hj => ?_)
      (nextIndex_new rfl h.const (hname 3 (by decide)) hlen (hname 8 (by decide)))
    rw [Nat.add_assoc]
    exact hname (4 + j) (by omega)
  · exact List.forall_mem_singleton.mpr (hname 9 (by decide))
  · exact forall_mem_pair (hblock 1 (by decide)) (hblock 0 (by decide))
  · exact Nat.lt_add_right 2 hb
  · exact newInstr_append (newInstr_append (castPointer_new hsrc) (castPointer_new hdst))
      (newInstr_cons rfl (forall_mem_pair hlen (h.const 0)) newInstr_nil)
  · exact List.forall_mem_singleton.mpr (hname 2 (by decide))
  · exact forall_mem_pair (hblock 1 (by decide)) (hblock 0 (by decide))

theorem createLoopKnownSize_edited {loopEndCount bytesCopied : ℕ} {remainingOps : List IntTy}
    (hb : b < F.nextBlock)
    (h : Covers F (createLoopKnownSize F b k src dst srcTy dstTy ty loopEndCount bytesCopied
      remainingOps).program b P Q)
    (hsrc : P src) (hdst : P dst) :
    Edited (NewInstr P) P Q F (createLoopKnownSize F b k src dst srcTy dstTy ty loopEndCount
      bytesCopied remainingOps).program := by
  have hname (j : ℕ) (hj : j < 9 + 6 * remainingOps.length) : P (.name (F.next + j)) :=
    h.name _ (Nat.le_add_right _ _) (Nat.add_lt_add_left hj _)
  have hname' {j : ℕ} (hj : j < 9) : P (.name (F.next + j)) := hname j (by omega)
  have hblock (j : ℕ) (hj : j < 2) : Q (F.nextBlock + j) :=
    h.block _ (Nat.le_add_right _ _) (Nat.add_lt_add_left hj _)
  have hsrc' := castPointer_fst (X := X) srcTy ty hsrc (hname' (j := 0) (by decide))
  have hdst' := castPointer_fst (X := X) dstTy ty hdst (hname' (j := 1) (by decide))
  refine Edited.insertInstrs (Edited.appendInstrs (Edited.addBlock (Edited.setTerm
    (Edited.splitBasicBlock (Edited.refl.addNames _) hb (hblock 0 (by decide)) k) b ?_ ?_)
    ?_ ?_ ?_ ?_) ?_ ?_) ?_ 0 ?_
  · exact fun _ hv => by cases hv
  · exact List.forall_mem_singleton.mpr (hblock 1 (by decide))
  · exact loopIndex_new h.const (hname' (by decide)) h.split (hblock 1 (by decide))
  · refine newInstr_append (copyElement_new hsrc' hdst' (hname' (by decide)) fun j hj => ?_)
      (nextIndex_new rfl h.const (hname' (by decide)) (h.const _) (hname' (by decide)))
    rw [Nat.add_assoc]
    exact hname' (by omega)
  · exact List.forall_mem_singleton.mpr (hname' (by decide))
  · exact forall_mem_pair (hblock 1 (by decide)) (hblock 0 (by decide))
  · exact Nat.lt_add_right 2 hb
  · exact newInstr_append (castPointer_new hsrc) (castPointer_new hdst)
  · exact Nat.lt_add_right 1 (Nat.lt_succ_self F.nextBlock)
  · refine residualCopies_new h.const hsrc' hdst' _ _ _ fun j hj => ?_
    rw [Nat.add_assoc]
    exact hname _ (by omega)

theorem createCopiesKnownSize_edited {bytesCopied : ℕ} {remainingOps : List IntTy}
    (hb : b < F.nextBlock)
    (h : Covers F (createCopiesKnownSize F b k src dst srcTy dstTy bytesCopied
      remainingOps).program b P Q)
    (hsrc : P src) (hdst : P dst) :
    Edited (NewInstr P) P Q F (createCopiesKnownSize F b k src dst srcTy dstTy bytesCopied
      remainingOps).program :=
  (Edited.refl.addNames _).insertInstrs hb k (residualCopies_new h.const hsrc hdst _ _ _
    fun _ hj => h.name _ (Nat.le_add_right _ _) (Nat.add_lt_add_left hj _))

theorem createWideLoop_edited (hb : b < F.nextBlock)
    (h : Covers F (createWideLoop F b k src dst srcTy dstTy ty copyLen).program b P Q)
    (hsrc : P src) (hdst : P dst) (hlen : P copyLen) :
    Edited (NewInstr P) P Q F (createWideLoop F b k src dst srcTy dstTy ty copyLen).program := by
  have hname {j : ℕ} (hj : j < 24) : P (.name (F.next + j)) :=
    h.name _ (Nat.le_add_right _ _) (Nat.add_lt_add_left hj _)
  have hblock {j : ℕ} (hj : j < 4) : Q (F.nextBlock + j) :=
    h.block _ (Nat.le_add_right _ _) (Nat.add_lt_add_left hj _)
  have hsrc' := castPointer_fst (X := X) srcTy ty hsrc (hname (j := 0) (by decide))
  have hdst' := castPointer_fst (X := X) dstTy ty hdst (hname (j := 1) (by decide))
  have hcopy {a : ℕ} (ha : a < 21) : ∀ j < 4, P (.name (F.next + a + j)) := by
    intro j hj
    rw [Nat.add_assoc]
    exact hname (by omega)
  refine Edited.setTerm (Edited.appendInstrs (Edited.addBlock (Edited.addBlock (Edited.addBlock
    (Edited.splitBasicBlock (Edited.refl.addNames 24) hb (hblock (j := 0) (by decide)) k)
    ?_ ?_ ?_ ?_) ?_ ?_ ?_ ?_) ?_ ?_ ?_ ?_) ?_ ?_) b ?_ ?_
  -- the loop
  · exact loopIndex_new h.const (hname (by decide)) h.split (hblock (by decide))
  · exact newInstr_append (copyElement_new hsrc' hdst' (hname (by decide)) (hcopy (by decide)))
      (nextIndex_new rfl h.const (hname (by decide)) (hname (by decide)) (hname (by decide)))
  · exact List.forall_mem_singleton.mpr (hname (by decide))
  · exact forall_mem_pair (hblock (by decide)) (hblock (by decide))
  -- the loop behind it
  · exact loopIndex_new h.const (hname (by decide)) (hblock (by decide)) (hblock (by decide))
  · refine newInstr_append (newInstr_append (newInstr_append (newInstr_append
      (castPointer_new hsrc') (castPointer_new hdst'))
      (newInstr_cons rfl (forall_mem_pair (hname (by decide)) (hname (by decide))) newInstr_nil))
      (copyElement_new ?_ ?_ (hname (by decide)) (hcopy (by decide))))
      (nextIndex_new rfl h.const (hname (by decide)) (hname (by decide)) (hname (by decide)))
    · exact castPointer_fst _ _ hsrc' (hname (by decide))
    · exact castPointer_fst _ _ hdst' (hname (by decide))
  · exact List.forall_mem_singleton.mpr (hname (by decide))
  · exact forall_mem_pair (hblock (by decide)) (hblock (j := 0) (by decide))
  -- the header of it
  · exact fun _ hφ => by cases hφ
  · exact newInstr_cons rfl (forall_mem_pair (hname (by decide)) (h.const 0)) newInstr_nil
  · exact List.forall_mem_singleton.mpr (hname (by decide))
  · exact forall_mem_pair (hblock (by decide)) (hblock (j := 0) (by decide))
  -- the block in front
  · exact Nat.lt_add_right 4 hb
  · exact newInstr_append (newInstr_append (castPointer_new hsrc) (castPointer_new hdst))
      (newInstr_cons rfl (forall_mem_pair hlen (h.const _))
      (newInstr_cons rfl (forall_mem_pair hlen (h.const _))
      (newInstr_cons rfl (forall_mem_pair hlen (hname (by decide)))
      (newInstr_cons rfl (forall_mem_pair (hname (by decide)) (h.const 0)) newInstr_nil))))
  · exact List.forall_mem_singleton.mpr (hname (by decide))
  · exact forall_mem_pair (hblock (by decide)) (hblock (by decide))

theorem createMemMoveLoop_edited (hb : b < F.nextBlock)
    (h : Covers F (createMemMoveLoop F b k src dst ty copyLen).program b P Q)
    (hsrc : P src) (hdst : P dst) (hlen : P copyLen) :
    Edited (NewInstr P) P Q F (createMemMoveLoop F b k src dst ty copyLen).program := by
  have hname {j : ℕ} (hj : j < 16) : P (.name (F.next + j)) :=
    h.name _ (Nat.le_add_right _ _) (Nat.add_lt_add_left hj _)
  have hblock {j : ℕ} (hj : j < 5) : Q (F.nextBlock + j) :=
    h.block _ (Nat.le_add_right _ _) (Nat.add_lt_add_left hj _)
  have hname' {a k : ℕ} (ha : a + k ≤ 16) : ∀ j < k, P (.name (F.next + a + j)) := by
    intro j hj
    rw [Nat.add_assoc]
    exact hname (by omega)
  have hbr : ∀ q ∈ (.br F.nextBlock : Lib.Ssa.Terminator IntTy Word).successors, Q q :=
    List.forall_mem_singleton.mpr (hblock (j := 0) (by decide))
  have hpre : Edited (NewInstr P) P Q F
      (splitBlockAndInsertIfThenElse (F.addNames 16 |>.insertInstrs b k
        [⟨F.next, .icmpULT, [src, dst]⟩]) b (k + 1) (.name F.next)) := by
    refine Edited.setTerm (Edited.addBlock (Edited.addBlock (Edited.splitBasicBlock
      (Edited.insertInstrs (Edited.refl.addNames 16) hb k (newInstr_cons rfl
      (forall_mem_pair hsrc hdst) newInstr_nil)) hb (hblock (j := 0) (by decide)) (k + 1))
      (fun _ hφ => by cases hφ) newInstr_nil (fun _ hv => by cases hv) hbr)
      (fun _ hφ => by cases hφ) newInstr_nil (fun _ hv => by cases hv) hbr) b ?_ ?_
    · exact List.forall_mem_singleton.mpr (hname (j := 0) (by decide))
    · exact forall_mem_pair (hblock (j := 1) (by decide)) (hblock (j := 2) (by decide))
  have hphi {n p q : ℕ} {v w : MemValue} (hv : P v) (hw : P w) (hp : Q p) (hq : Q q) :
      ∀ φ ∈ [(⟨n, ByteTy, [(v, p), (w, q)]⟩ : Phi IntTy Word)], ∀ e ∈ φ.incoming,
        P e.1 ∧ Q e.2 := by
    intro φ hφ
    obtain rfl := List.mem_singleton.mp hφ
    exact forall_mem_pair ⟨hv, hp⟩ ⟨hw, hq⟩
  refine Edited.setTerm (Edited.addBlock (Edited.setTerm (Edited.addBlock (Edited.appendInstrs hpre
    ?_ ?_) ?_ ?_ ?_ ?_) _ ?_ ?_) ?_ ?_ ?_ ?_) _ ?_ ?_
  · exact Nat.lt_add_right 3 hb
  · exact newInstr_cons rfl (forall_mem_pair hlen (h.const 0)) newInstr_nil
  -- backwards
  · exact hphi (hname (by decide)) hlen (hblock (by decide)) (hblock (by decide))
  · exact copyBackwards_new h.const hsrc hdst (hname' (by decide))
  · exact List.forall_mem_singleton.mpr (hname (by decide))
  · exact forall_mem_pair (hblock (j := 0) (by decide)) (hblock (by decide))
  · exact List.forall_mem_singleton.mpr (hname (by decide))
  · exact forall_mem_pair (hblock (j := 0) (by decide)) (hblock (by decide))
  -- forward
  · exact hphi (hname (by decide)) (h.const 0) (hblock (by decide)) (hblock (by decide))
  · exact newInstr_append (copyElement_new hsrc hdst (hname (by decide)) (hname' (by decide)))
      (nextIndex_new rfl h.const (hname (by decide)) hlen (hname (by decide)))
  · exact List.forall_mem_singleton.mpr (hname (by decide))
  · exact forall_mem_pair (hblock (j := 0) (by decide)) (hblock (by decide))
  · exact List.forall_mem_singleton.mpr (hname (by decide))
  · exact forall_mem_pair (hblock (j := 0) (by decide)) (hblock (by decide))

theorem createICmpEQ_fst {x y : MemValue} (hconst : ∀ c, P (.const c)) (hn : P (.name n)) :
    P (createICmpEQ (X := X) n x y).1 := by
  unfold createICmpEQ
  split
  · exact hconst _
  · exact hn

theorem createICmpEQ_new {x y : MemValue} (hx : P x) (hy : P y) :
    ∀ i ∈ (createICmpEQ (X := X) n x y).2, NewInstr P i := by
  unfold createICmpEQ
  split
  · exact newInstr_nil
  · exact newInstr_cons rfl (forall_mem_pair hx hy) newInstr_nil

theorem createMemSetLoop_edited {setValue : MemValue} (hb : b < F.nextBlock)
    (h : Covers F (createMemSetLoop F b k dst dstTy copyLen setValue).program b P Q)
    (hdst : P dst) (hlen : P copyLen) (hvalue : P setValue) :
    Edited (NewInstr P) P Q F (createMemSetLoop F b k dst dstTy copyLen setValue).program := by
  have hname {j : ℕ} (hj : j < 7) : P (.name (F.next + j)) :=
    h.name _ (Nat.le_add_right _ _) (Nat.add_lt_add_left hj _)
  have hblock {j : ℕ} (hj : j < 2) : Q (F.nextBlock + j) :=
    h.block _ (Nat.le_add_right _ _) (Nat.add_lt_add_left hj _)
  have hdst' := castPointer_fst (X := X) dstTy Int8Ty hdst
    (hname (j := 0) (by decide))
  refine Edited.addBlock (Edited.setTerm (Edited.appendInstrs (Edited.splitBasicBlock
    (Edited.refl.addNames 7) hb (hblock (j := 0) (by decide)) k) ?_ ?_) b ?_ ?_) ?_ ?_ ?_ ?_
  · exact Nat.lt_add_right 1 hb
  · exact newInstr_append (castPointer_new hdst) (createICmpEQ_new (h.const 0) hlen)
  · exact List.forall_mem_singleton.mpr (createICmpEQ_fst h.const (hname (by decide)))
  · exact forall_mem_pair (hblock (j := 0) (by decide)) (hblock (by decide))
  · exact loopIndex_new h.const (hname (by decide)) h.split (hblock (by decide))
  · exact newInstr_append (storeElement_new hvalue hdst' (hname (by decide)) (hname (by decide)))
      (nextIndex_new rfl h.const (hname (by decide)) hlen (hname (by decide)))
  · exact List.forall_mem_singleton.mpr (hname (by decide))
  · exact forall_mem_pair (hblock (by decide)) (hblock (j := 0) (by decide))

end Edited

end TVMCompiler.LowerIntrinsics
