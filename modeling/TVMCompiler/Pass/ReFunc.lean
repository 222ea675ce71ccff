import Mathlib.Data.Int.Notation
import Mathlib.Data.List.Basic

/-!
# Message formats

`TVMReFunc` describes a message by the store operations that build its cell. It merges the
descriptions of several messages into one format: where they differ, the format has an unknown
value, which becomes a parameter of a common function. `gen_call` collects the arguments of a
message for the parameters of its format.

## Main definitions

* `StoreOp`, `Val`, `Builder`: values and the store operations that build them
* `valCompare`, `mergeBuilders`: merging two descriptions
* `Val.gatherParams`, `genCall`: the parameters of a format, and the arguments of a message
* `Val.instantiate`: a format with values for its parameters
* `Val.Covers`: the format agrees with the message up to its parameters
* `Val.KeepsRight`: merging two values misplaces no right part of an operation

## Main results

* `Val.Covers.trans`: a format of a format
* `valCompare_mergedOf`, `mergeBuilders_mergedOf`: when what is merged covers both
* `Builder.arguments_iff`: a message has arguments for the formats that cover it
-/

namespace TVMCompiler.ReFunc

/-- A store operation, with the number of bits where it has one. -/
inductive StoreOp where
  | stu (bitsize : ℕ)
  | sti (bitsize : ℕ)
  | stref
  | stslice
  | stvaruint16
  | stvaruint32
  | stvarint16
  | stvarint32
  | stdict
  deriving DecidableEq, Repr

mutual

/-- A value, with the value of the program that it describes. The values that are made for a format
describe none. -/
inductive Val (V : Type) where
  | unknown (llvmVal : Option V)
  | builder (llvmVal : Option V) (b : Builder V)
  | cell (llvmVal : Option V) (b : Builder V)
  | slice (llvmVal : Option V) (b : Builder V)
  | constant (llvmVal : Option V) (val : ℤ)
  | null (llvmVal : Option V)
  | binop (llvmVal : Option V) (opcode : ℕ) (left right : Val V)
  | global (llvmVal : Option V) (idx : ℕ)

/-- The store operations of a builder, in their order. -/
inductive Builder (V : Type) where
  | newc
  | chunk (op : StoreOp) (val : Val V) (rest : Builder V)

end

variable {V : Type}

def Val.llvmVal : Val V → Option V
  | .unknown x | .builder x _ | .cell x _ | .slice x _ | .constant x _ | .null x | .binop x _ _ _
  | .global x _ => x

/-- The kinds of the chunks, with their bit sizes. -/
def Builder.ops : Builder V → List StoreOp
  | .newc => []
  | .chunk op _ rest => op :: rest.ops

/-- `chunks.size()`. -/
def Builder.size (b : Builder V) : ℕ := b.ops.length

mutual

/-- `value::len`. -/
def Val.len : Val V → ℕ
  | .unknown _ | .constant _ _ | .null _ | .global _ _ => 1
  | .binop _ _ left right => 1 + left.len + right.len
  | .builder _ b => 1 + b.chunksLen
  | .cell _ b | .slice _ b => 1 + (1 + b.chunksLen)

def Builder.chunksLen : Builder V → ℕ
  | .newc => 0
  | .chunk _ val rest => (1 + val.len) + rest.chunksLen

end

/-- `builder::len`. -/
def Builder.len (b : Builder V) : ℕ := 1 + b.chunksLen

/-! ## Merging -/

/-- The result of `merge_builders`. -/
structure Merged (V : Type) where
  b : Builder V
  fullEqual : Bool
  leftPrefix : Bool

mutual

/-- `val_compare`: `none` where it breaks off, otherwise the merged value, if the two are not fully
equal. -/
def valCompare : Val V → Val V → Option (Option (Val V))
  | .unknown _, .unknown _ => some none
  | .constant _ left, .constant _ right =>
    some (if left = right then none else some (.unknown none))
  | .null _, .null _ => some none
  | .cell _ l, .cell _ r =>
    if l.size ≠ r.size then some (some (.unknown none))
    else
      let m := mergeBuilders l r
      if m.fullEqual then some none
      else if m.b.size ≠ l.size then some (some (.unknown none))
      else some (some (.cell none m.b))
  | .binop _ op left right, .binop _ op' left' right' =>
    if op ≠ op' then none
    else
      match valCompare left left', valCompare right right' with
      | some none, some none => some none
      | some leftCmp, some rightCmp =>
        -- where the right parts are equal, the left part of the second value is taken
        some (some (.binop none op (leftCmp.getD left) (rightCmp.getD left')))
      | _, _ => none
  | .global _ left, .global _ right => if left = right then some none else none
  | _, _ => none

/-- `merge_builders`, with `chunk_compare` for two chunks: where the values cannot be compared, the
merged chunk has an unknown value. -/
def mergeBuilders : Builder V → Builder V → Merged V
  | .newc, .newc => ⟨.newc, true, false⟩
  | .newc, .chunk _ _ _ => ⟨.newc, false, true⟩
  | .chunk _ _ _, .newc => ⟨.newc, false, false⟩
  | .chunk op l rest, .chunk op' r rest' =>
    if op = op' then
      let m := mergeBuilders rest rest'
      match (valCompare l r).getD (some (.unknown none)) with
      | none => { m with b := .chunk op l m.b }
      | some val => ⟨.chunk op val m.b, false, false⟩
    else ⟨.newc, false, false⟩

end

/-! ## Parameters and arguments -/

inductive ParamType where
  | int257
  | tvmCell
  | tvmSlice
  deriving DecidableEq, Repr

/-- The type of the value that is stored. -/
def StoreOp.paramType : StoreOp → ParamType
  | .stref | .stdict => .tvmCell
  | .stslice => .tvmSlice
  | _ => .int257

mutual

/-- `gather_params`. -/
def Val.gatherParams (ty : ParamType) : Val V → List ParamType
  | .unknown _ => [ty]
  | .binop _ _ left right => left.gatherParams .int257 ++ right.gatherParams .int257
  | .builder _ b | .cell _ b | .slice _ b => b.gatherParams
  | _ => []

def Builder.gatherParams : Builder V → List ParamType
  | .newc => []
  | .chunk op val rest => val.gatherParams op.paramType ++ rest.gatherParams

end

/-- Whether `gen_call` has a case for two chunks. It does not compare the bit sizes. -/
def StoreOp.sameKind : StoreOp → StoreOp → Bool
  | .stu _, .stu _ | .sti _, .sti _ => true
  | l, r => l = r

mutual

/-- `gen_call` for a message and a format, `none` where it reaches a case that is excluded. -/
def genCall : Val V → Val V → Option (List (Option V))
  | left, .unknown _ => some [left.llvmVal]
  | .constant _ _, .constant _ _ | .null _, .null _ | .global _ _, .global _ _ => some []
  | .binop _ _ left right, .binop _ _ left' right' => do
    return (← genCall left left') ++ (← genCall right right')
  | .builder _ l, .builder _ r | .cell _ l, .cell _ r | .slice _ l, .slice _ r => genCallBuilder l r
  | _, _ => none

def genCallBuilder : Builder V → Builder V → Option (List (Option V))
  | .newc, .newc => some []
  | .chunk op l rest, .chunk op' r rest' =>
    if op.sameKind op' then do
      return (← genCall l r) ++ (← genCallBuilder rest rest')
    else none
  | _, _ => none

end

mutual

/-- The format with values for its parameters, taken in the order in which the function that is made
of the format takes its arguments. -/
def Val.instantiate : Val V → List (Val V) → Option (Val V × List (Val V))
  | .unknown _, [] => none
  | .unknown _, val :: vals => some (val, vals)
  | .binop x op left right, vals => do
    let (left, vals) ← left.instantiate vals
    let (right, vals) ← right.instantiate vals
    return (.binop x op left right, vals)
  | .builder x b, vals => (b.instantiate vals).map fun r => (.builder x r.1, r.2)
  | .cell x b, vals => (b.instantiate vals).map fun r => (.cell x r.1, r.2)
  | .slice x b, vals => (b.instantiate vals).map fun r => (.slice x r.1, r.2)
  | val, vals => some (val, vals)

def Builder.instantiate : Builder V → List (Val V) → Option (Builder V × List (Val V))
  | .newc, vals => some (.newc, vals)
  | .chunk op val rest, vals => do
    let (val, vals) ← val.instantiate vals
    let (rest, vals) ← rest.instantiate vals
    return (.chunk op val rest, vals)

end

mutual

/-- The value without the values of the program that it describes. -/
def Val.strip : Val V → Val V
  | .unknown _ => .unknown none
  | .builder _ b => .builder none b.strip
  | .cell _ b => .cell none b.strip
  | .slice _ b => .slice none b.strip
  | .constant _ val => .constant none val
  | .null _ => .null none
  | .binop _ op left right => .binop none op left.strip right.strip
  | .global _ idx => .global none idx

def Builder.strip : Builder V → Builder V
  | .newc => .newc
  | .chunk op val rest => .chunk op val.strip rest.strip

end

/-! ## A format that covers a message -/

mutual

/-- The message is the format with values for its parameters. -/
def Val.Covers : Val V → Val V → Prop
  | .unknown _, _ => True
  | .constant _ l, .constant _ r => l = r
  | .null _, .null _ => True
  | .global _ l, .global _ r => l = r
  | .binop _ op left right, .binop _ op' left' right' =>
    op = op' ∧ left.Covers left' ∧ right.Covers right'
  | .builder _ l, .builder _ r | .cell _ l, .cell _ r | .slice _ l, .slice _ r => l.Covers r
  | _, _ => False

def Builder.Covers : Builder V → Builder V → Prop
  | .newc, .newc => True
  | .chunk op val rest, .chunk op' val' rest' => op = op' ∧ val.Covers val' ∧ rest.Covers rest'
  | _, _ => False

end

section Covers

variable {x : Option V} {m : Val V} {b c : Builder V}

attribute [local simp] Val.Covers Builder.Covers

theorem covers_unknown : (Val.unknown x).Covers m := by
  cases m <;> trivial

theorem covers_constant {val : ℤ} :
    (Val.constant x val).Covers m ↔ ∃ y, m = .constant y val := by
  cases m <;> simp [eq_comm]

theorem covers_null : (Val.null x).Covers m ↔ ∃ y, m = .null y := by
  cases m <;> simp

theorem covers_global {idx : ℕ} : (Val.global x idx).Covers m ↔ ∃ y, m = .global y idx := by
  cases m <;> simp [eq_comm]

theorem covers_binop {op : ℕ} {left right : Val V} :
    (Val.binop x op left right).Covers m ↔
      ∃ y left' right', m = .binop y op left' right' ∧ left.Covers left' ∧ right.Covers right' := by
  cases m <;> simp [eq_comm]

theorem covers_builder : (Val.builder x b).Covers m ↔ ∃ y c, m = .builder y c ∧ b.Covers c := by
  cases m <;> simp

theorem covers_cell : (Val.cell x b).Covers m ↔ ∃ y c, m = .cell y c ∧ b.Covers c := by
  cases m <;> simp

theorem covers_slice : (Val.slice x b).Covers m ↔ ∃ y c, m = .slice y c ∧ b.Covers c := by
  cases m <;> simp

theorem covers_newc : Builder.newc.Covers c ↔ c = .newc := by
  cases c <;> simp

theorem covers_chunk {op : StoreOp} {val : Val V} :
    (Builder.chunk op val b).Covers c ↔
      ∃ val' rest', c = .chunk op val' rest' ∧ val.Covers val' ∧ b.Covers rest' := by
  cases c <;> simp [eq_comm]

theorem covers_binop_binop {y : Option V} {op : ℕ} {left left' right right' : Val V} :
    (Val.binop x op left right).Covers (.binop y op left' right') ↔
      left.Covers left' ∧ right.Covers right' := by
  simp

theorem covers_chunk_chunk {op : StoreOp} {val val' : Val V} :
    (Builder.chunk op val b).Covers (.chunk op val' c) ↔ val.Covers val' ∧ b.Covers c := by
  simp

end Covers

mutual

theorem Val.Covers.refl : ∀ m : Val V, m.Covers m
  | .unknown _ => covers_unknown
  | .constant _ _ => covers_constant.mpr ⟨_, rfl⟩
  | .null _ => covers_null.mpr ⟨_, rfl⟩
  | .global _ _ => covers_global.mpr ⟨_, rfl⟩
  | .binop _ _ left right =>
    covers_binop.mpr ⟨_, _, _, rfl, Val.Covers.refl left, Val.Covers.refl right⟩
  | .builder _ b => covers_builder.mpr ⟨_, _, rfl, Builder.Covers.refl b⟩
  | .cell _ b => covers_cell.mpr ⟨_, _, rfl, Builder.Covers.refl b⟩
  | .slice _ b => covers_slice.mpr ⟨_, _, rfl, Builder.Covers.refl b⟩

theorem Builder.Covers.refl : ∀ b : Builder V, b.Covers b
  | .newc => covers_newc.mpr rfl
  | .chunk _ val rest =>
    covers_chunk.mpr ⟨_, _, rfl, Val.Covers.refl val, Builder.Covers.refl rest⟩

end

mutual

/-- **A format that covers another one covers what this one covers.** -/
theorem Val.Covers.trans : ∀ {f g m : Val V}, f.Covers g → g.Covers m → f.Covers m
  | .unknown _, _, _, _, _ => covers_unknown
  | .constant _ _, _, _, h, h' => by
    obtain ⟨_, rfl⟩ := covers_constant.mp h
    obtain ⟨_, rfl⟩ := covers_constant.mp h'
    exact covers_constant.mpr ⟨_, rfl⟩
  | .null _, _, _, h, h' => by
    obtain ⟨_, rfl⟩ := covers_null.mp h
    obtain ⟨_, rfl⟩ := covers_null.mp h'
    exact covers_null.mpr ⟨_, rfl⟩
  | .global _ _, _, _, h, h' => by
    obtain ⟨_, rfl⟩ := covers_global.mp h
    obtain ⟨_, rfl⟩ := covers_global.mp h'
    exact covers_global.mpr ⟨_, rfl⟩
  | .binop _ _ _ _, _, _, h, h' => by
    obtain ⟨_, _, _, rfl, hleft, hright⟩ := covers_binop.mp h
    obtain ⟨_, _, _, rfl, hleft', hright'⟩ := covers_binop.mp h'
    exact covers_binop.mpr ⟨_, _, _, rfl, hleft.trans hleft', hright.trans hright'⟩
  | .builder _ _, _, _, h, h' => by
    obtain ⟨_, _, rfl, hb⟩ := covers_builder.mp h
    obtain ⟨_, _, rfl, hb'⟩ := covers_builder.mp h'
    exact covers_builder.mpr ⟨_, _, rfl, hb.trans hb'⟩
  | .cell _ _, _, _, h, h' => by
    obtain ⟨_, _, rfl, hb⟩ := covers_cell.mp h
    obtain ⟨_, _, rfl, hb'⟩ := covers_cell.mp h'
    exact covers_cell.mpr ⟨_, _, rfl, hb.trans hb'⟩
  | .slice _ _, _, _, h, h' => by
    obtain ⟨_, _, rfl, hb⟩ := covers_slice.mp h
    obtain ⟨_, _, rfl, hb'⟩ := covers_slice.mp h'
    exact covers_slice.mpr ⟨_, _, rfl, hb.trans hb'⟩

theorem Builder.Covers.trans : ∀ {f g m : Builder V}, f.Covers g → g.Covers m → f.Covers m
  | .newc, _, _, h, h' => by
    obtain rfl := covers_newc.mp h
    exact h'
  | .chunk _ _ _, _, _, h, h' => by
    obtain ⟨_, _, rfl, hval, hrest⟩ := covers_chunk.mp h
    obtain ⟨_, _, rfl, hval', hrest'⟩ := covers_chunk.mp h'
    exact covers_chunk.mpr ⟨_, _, rfl, hval.trans hval', hrest.trans hrest'⟩

end

/-! ## What is merged -/

mutual

/-- Where merging takes the left part of the second value in place of its right part, it is the
right part up to its parameters. -/
def Val.KeepsRight : Val V → Val V → Prop
  | .cell _ l, .cell _ r => l.ops = r.ops → l.KeepsRight r
  | .binop _ _ left right, .binop _ _ left' right' =>
    left.KeepsRight left' ∧ right.KeepsRight right' ∧
      (valCompare left left' ≠ some none → valCompare right right' = some none →
        left'.Covers right')
  | _, _ => True

/-- The same for the chunks that are merged. A value that cannot be compared is given up. -/
def Builder.KeepsRight : Builder V → Builder V → Prop
  | .chunk op l rest, .chunk op' r rest' =>
    op = op' → (valCompare l r ≠ none → l.KeepsRight r) ∧ rest.KeepsRight rest'
  | _, _ => True

end

/-- What merging says of two builders: each covers the other one, and nothing is misplaced. -/
structure Builder.Same (l r : Builder V) : Prop where
  left : l.Covers r
  right : r.Covers l
  keeps : l.KeepsRight r

/-- The same for two values. -/
structure Val.Same (l r : Val V) : Prop where
  left : l.Covers r
  right : r.Covers l
  keeps : l.KeepsRight r

mutual

/-- Values that are fully equal cover each other. -/
theorem valCompare_same : ∀ {l r : Val V}, valCompare l r = some none → l.Same r
  | .unknown _, r, h => by
    cases r <;> cases h
    exact ⟨covers_unknown, covers_unknown, trivial⟩
  | .constant _ a, r, h => by
    cases r <;> simp only [valCompare, reduceCtorEq, Option.some.injEq] at h
    split_ifs at h with heq
    subst heq
    exact ⟨covers_constant.mpr ⟨_, rfl⟩, covers_constant.mpr ⟨_, rfl⟩, trivial⟩
  | .null _, r, h => by
    cases r <;> cases h
    exact ⟨covers_null.mpr ⟨_, rfl⟩, covers_null.mpr ⟨_, rfl⟩, trivial⟩
  | .global _ i, r, h => by
    cases r <;> simp only [valCompare, reduceCtorEq] at h
    split_ifs at h with heq
    subst heq
    exact ⟨covers_global.mpr ⟨_, rfl⟩, covers_global.mpr ⟨_, rfl⟩, trivial⟩
  | .cell _ b, r, h => by
    cases r <;> simp only [valCompare, reduceCtorEq] at h
    split_ifs at h with hsize hequal <;> cases h
    obtain ⟨hl, hr, hkeeps⟩ := mergeBuilders_same hequal
    exact ⟨covers_cell.mpr ⟨_, _, rfl, hl⟩, covers_cell.mpr ⟨_, _, rfl, hr⟩, fun _ => hkeeps⟩
  | .binop _ op left right, r, h => by
    cases r <;> simp only [valCompare, reduceCtorEq] at h
    rename_i op' left' right'
    split_ifs at h with hop
    rw [not_not] at hop
    subst hop
    -- only the first alternative says that all is equal
    split at h
    · rename_i hleft hright
      obtain ⟨hl, hl', hlkeeps⟩ := valCompare_same hleft
      obtain ⟨hr, hr', hrkeeps⟩ := valCompare_same hright
      exact ⟨covers_binop.mpr ⟨_, _, _, rfl, hl, hr⟩, covers_binop.mpr ⟨_, _, _, rfl, hl', hr'⟩,
        hlkeeps, hrkeeps, fun hne => absurd hleft hne⟩
    · cases h
    · cases h
  | .builder _ _, r, h => by cases r <;> cases h
  | .slice _ _, r, h => by cases r <;> cases h

theorem mergeBuilders_same : ∀ {l r : Builder V}, (mergeBuilders l r).fullEqual = true → l.Same r
  | .newc, .newc, _ => ⟨.refl _, .refl _, trivial⟩
  | .newc, .chunk _ _ _, h => nomatch h
  | .chunk _ _ _, .newc, h => nomatch h
  | .chunk op l rest, .chunk op' r rest', h => by
    rw [mergeBuilders] at h
    split_ifs at h with hop
    subst hop
    cases hcmp : valCompare l r with
    | none => simp [hcmp] at h
    | some cmp =>
      cases cmp with
      | some val => simp [hcmp] at h
      | none =>
        rw [hcmp] at h
        obtain ⟨hl, hr, hkeeps⟩ := valCompare_same hcmp
        obtain ⟨hl', hr', hkeeps'⟩ := mergeBuilders_same (l := rest) (r := rest') h
        exact ⟨covers_chunk.mpr ⟨_, _, rfl, hl, hl'⟩, covers_chunk.mpr ⟨_, _, rfl, hr, hr'⟩,
          fun _ => ⟨fun _ => hkeeps, hkeeps'⟩⟩

end

/-- What is merged of two builders stores what both begin with. -/
theorem mergeBuilders_prefix : ∀ l r : Builder V,
    (mergeBuilders l r).b.ops <+: l.ops ∧ (mergeBuilders l r).b.ops <+: r.ops ∧
      ((mergeBuilders l r).leftPrefix = true → l.ops <+: r.ops)
  | .newc, .newc => ⟨List.prefix_refl _, List.prefix_refl _, nofun⟩
  | .newc, .chunk _ _ _ => ⟨List.prefix_refl _, List.nil_prefix, fun _ => List.nil_prefix⟩
  | .chunk _ _ _, .newc => ⟨List.nil_prefix, List.prefix_refl _, nofun⟩
  | .chunk op l rest, .chunk op' r rest' => by
    by_cases hop : op = op'
    · subst hop
      obtain ⟨hleft, hright, hbegins⟩ := mergeBuilders_prefix rest rest'
      have hleft' := List.cons_prefix_cons.mpr ⟨rfl (a := op), hleft⟩
      have hright' := List.cons_prefix_cons.mpr ⟨rfl (a := op), hright⟩
      rw [mergeBuilders, if_pos rfl]
      cases (valCompare l r).getD (some (.unknown none)) with
      | none =>
        exact ⟨hleft', hright', fun h => List.cons_prefix_cons.mpr ⟨rfl, hbegins h⟩⟩
      | some val => exact ⟨hleft', hright', nofun⟩
    · rw [mergeBuilders, if_neg hop]
      exact ⟨List.nil_prefix, List.nil_prefix, nofun⟩

/-- Where the second builder stores what the first one begins with, it is merged as a whole. -/
theorem ops_mergeBuilders : ∀ {l r : Builder V}, r.ops <+: l.ops →
    (mergeBuilders l r).b.ops = r.ops ∧ (mergeBuilders l r).leftPrefix = false
  | .newc, .newc, _ => ⟨rfl, rfl⟩
  | .newc, .chunk _ _ _, h => absurd (List.prefix_nil.mp h) (List.cons_ne_nil _ _)
  | .chunk _ _ _, .newc, _ => ⟨rfl, rfl⟩
  | .chunk op l rest, .chunk op' r rest', h => by
    obtain ⟨rfl, hops⟩ := List.cons_prefix_cons.mp h
    obtain ⟨hrest, hbegins⟩ := ops_mergeBuilders hops
    rw [mergeBuilders, if_pos rfl]
    cases (valCompare l r).getD (some (.unknown none)) with
    | none => exact ⟨congrArg (_ :: ·) hrest, hbegins⟩
    | some val => exact ⟨congrArg (_ :: ·) hrest, rfl⟩

/-- Builders of one size are merged as a whole where they store the same. -/
theorem size_mergeBuilders {l r : Builder V} (hsize : l.size = r.size) :
    (mergeBuilders l r).b.size = l.size ↔ l.ops = r.ops := by
  constructor
  · intro h
    obtain ⟨hl, hr, -⟩ := mergeBuilders_prefix l r
    exact (hl.eq_of_length h).symm.trans (hr.eq_of_length (h.trans hsize))
  · intro h
    have hbegins : r.ops <+: l.ops := h ▸ List.prefix_refl l.ops
    exact congrArg List.length ((ops_mergeBuilders hbegins).1.trans h.symm)

/-- What a merged value covers: each of the two exactly if no right part is misplaced. -/
structure Val.MergedOf (val l r : Val V) : Prop where
  left : val.Covers l ↔ l.KeepsRight r
  right : val.Covers r ↔ l.KeepsRight r

/-- The same for builders, as far as the merged one has all chunks. -/
structure Builder.MergedOf (b l r : Builder V) : Prop where
  left : b.size = l.size → (b.Covers l ↔ l.KeepsRight r)
  right : b.size = r.size → (b.Covers r ↔ l.KeepsRight r)

/-- The left part of a merged operation. -/
theorem leftPart_covers {left left' : Val V} {cmp : Option (Val V)}
    (hleft : valCompare left left' = some cmp)
    (h : ∀ val, cmp = some val → val.MergedOf left left') :
    (cmp.getD left).MergedOf left left' := by
  cases cmp with
  | none =>
    obtain ⟨hl, -, hkeeps⟩ := valCompare_same hleft
    exact ⟨iff_of_true (.refl left) hkeeps, iff_of_true hl hkeeps⟩
  | some val => exact h val rfl

/-- The right part of a merged operation: if the right parts are equal, the left part of the second
operation takes their place. -/
theorem rightPart_covers (left' : Val V) {right right' : Val V} {cmp : Option (Val V)}
    (hright : valCompare right right' = some cmp)
    (h : ∀ val, cmp = some val → val.MergedOf right right') :
    ((cmp.getD left').Covers right ↔
      right.KeepsRight right' ∧ (cmp = none → left'.Covers right')) ∧
    ((cmp.getD left').Covers right' ↔
      right.KeepsRight right' ∧ (cmp = none → left'.Covers right')) := by
  cases cmp with
  | none =>
    obtain ⟨hl, hr, hkeeps⟩ := valCompare_same hright
    refine ⟨⟨fun hcovers => ⟨hkeeps, fun _ => hcovers.trans hl⟩, fun hcovers => ?_⟩,
      fun hcovers => ⟨hkeeps, fun _ => hcovers⟩, fun hcovers => hcovers.2 rfl⟩
    exact (hcovers.2 rfl).trans hr
  | some val =>
    obtain ⟨hl, hr⟩ := h val rfl
    exact ⟨by simpa using hl, by simpa using hr⟩

/-- The value of a merged chunk. -/
theorem chunkVal_covers {l r : Val V}
    (h : ∀ val, valCompare l r = some (some val) → val.MergedOf l r) :
    ((((valCompare l r).getD (some (.unknown none))).getD l).Covers l ↔
      (valCompare l r ≠ none → l.KeepsRight r)) ∧
    ((((valCompare l r).getD (some (.unknown none))).getD l).Covers r ↔
      (valCompare l r ≠ none → l.KeepsRight r)) := by
  cases hcmp : valCompare l r with
  | none =>
    exact ⟨iff_of_true covers_unknown fun hne => absurd rfl hne,
      iff_of_true covers_unknown fun hne => absurd rfl hne⟩
  | some cmp =>
    obtain ⟨hl, hr⟩ := leftPart_covers hcmp fun v hv => h v (hv ▸ hcmp)
    exact ⟨by simpa using hl, by simpa using hr⟩

theorem mergeBuilders_chunk (op : StoreOp) (l r : Val V) (rest rest' : Builder V) :
    (mergeBuilders (.chunk op l rest) (.chunk op r rest')).b =
      .chunk op (((valCompare l r).getD (some (.unknown none))).getD l)
        (mergeBuilders rest rest').b := by
  rw [mergeBuilders, if_pos rfl]
  cases (valCompare l r).getD (some (.unknown none)) <;> rfl

mutual

/-- **The merged value covers both exactly if no right part is misplaced.** -/
theorem valCompare_mergedOf : ∀ {l r val : Val V},
    valCompare l r = some (some val) → val.MergedOf l r
  | .unknown _, r, val, h => by cases r <;> cases h
  | .constant _ a, r, val, h => by
    cases r <;> simp only [valCompare, reduceCtorEq, Option.some.injEq] at h
    split_ifs at h
    cases h
    exact ⟨iff_of_true covers_unknown trivial, iff_of_true covers_unknown trivial⟩
  | .null _, r, val, h => by cases r <;> cases h
  | .global _ i, r, val, h => by
    cases r <;> simp only [valCompare, reduceCtorEq] at h
    split_ifs at h
    cases h
  | .cell x b, r, val, h => by
    cases r <;> simp only [valCompare, reduceCtorEq] at h
    rename_i y c
    obtain ⟨hl, hr⟩ := mergeBuilders_mergedOf b c
    -- cells that do not store the same are given up, whatever their values are
    split_ifs at h with hsize hequal hshort <;> cases h
    · have hne : b.ops ≠ c.ops := fun hops => hsize (congrArg List.length hops)
      exact ⟨iff_of_true covers_unknown hne.elim, iff_of_true covers_unknown hne.elim⟩
    · have hne : b.ops ≠ c.ops := mt (size_mergeBuilders (not_not.mp hsize)).mpr hshort
      exact ⟨iff_of_true covers_unknown hne.elim, iff_of_true covers_unknown hne.elim⟩
    · rw [not_not] at hsize hshort
      have hkeeps : (Val.cell x b).KeepsRight (.cell y c) ↔ b.KeepsRight c :=
        forall_prop_of_true ((size_mergeBuilders hsize).mp hshort)
      exact ⟨(hl hshort).trans hkeeps.symm, (hr (hshort.trans hsize)).trans hkeeps.symm⟩
  | .binop x op left right, r, val, h => by
    cases r <;> simp only [valCompare, reduceCtorEq] at h
    rename_i y op' left' right'
    split_ifs at h with hop
    rw [not_not] at hop
    subst hop
    cases hleft : valCompare left left' with
    | none => simp [hleft] at h
    | some leftCmp =>
      cases hright : valCompare right right' with
      | none => simp [hleft, hright] at h
      | some rightCmp =>
        -- where the right parts are equal, the second left part stands for both of them
        have hl := leftPart_covers hleft fun v hv => valCompare_mergedOf (hv ▸ hleft)
        have hr := rightPart_covers left' hright fun v hv => valCompare_mergedOf (hv ▸ hright)
        have hkeeps : (rightCmp = none → left'.Covers right') ↔
            (some leftCmp ≠ some none → some rightCmp = some none → left'.Covers right') := by
          cases leftCmp <;> cases rightCmp <;> simp_all
        have hval : val = .binop none op (leftCmp.getD left) (rightCmp.getD left') := by
          cases leftCmp <;> cases rightCmp <;> simp_all
        subst hval
        have hkept : (Val.binop x op left right).KeepsRight (.binop y op left' right') ↔
            left.KeepsRight left' ∧ right.KeepsRight right' ∧
              (rightCmp = none → left'.Covers right') := by
          rw [Val.KeepsRight, hleft, hright, hkeeps]
        refine ⟨?_, ?_⟩
        · rw [covers_binop_binop, hl.left, hr.1, hkept]
        · rw [covers_binop_binop, hl.right, hr.2, hkept]
  | .builder _ _, r, val, h => by cases r <;> cases h
  | .slice _ _, r, val, h => by cases r <;> cases h

theorem mergeBuilders_mergedOf : ∀ l r : Builder V, (mergeBuilders l r).b.MergedOf l r
  | .newc, .newc => ⟨fun _ => iff_of_true (.refl _) trivial, fun _ => iff_of_true (.refl _) trivial⟩
  | .newc, .chunk _ _ _ => ⟨fun _ => iff_of_true (.refl _) trivial, nofun⟩
  | .chunk _ _ _, .newc => ⟨nofun, fun _ => iff_of_true (.refl _) trivial⟩
  | .chunk op l rest, .chunk op' r rest' => by
    by_cases hop : op = op'
    · subst hop
      obtain ⟨hl, hr⟩ := mergeBuilders_mergedOf rest rest'
      have hval := chunkVal_covers fun v hv => valCompare_mergedOf (l := l) (r := r) hv
      rw [mergeBuilders_chunk]
      refine ⟨fun hsize => ?_, fun hsize => ?_⟩
      · rw [covers_chunk_chunk, hval.1, hl (Nat.succ.inj hsize)]
        exact ⟨fun h _ => h, fun h => h rfl⟩
      · rw [covers_chunk_chunk, hval.2, hr (Nat.succ.inj hsize)]
        exact ⟨fun h _ => h, fun h => h rfl⟩
    · rw [mergeBuilders, if_neg hop]
      exact ⟨nofun, nofun⟩

end

theorem Builder.Covers.ops_eq : ∀ {f m : Builder V}, f.Covers m → f.ops = m.ops
  | .newc, m, h => by
    obtain rfl := covers_newc.mp h
    rfl
  | .chunk op val rest, m, h => by
    obtain ⟨val', rest', rfl, -, hrest⟩ := covers_chunk.mp h
    exact congrArg (op :: ·) hrest.ops_eq

/-! ## The arguments -/

/-- The arguments `vals` of a message for a format: `gen_call` collects what they describe, as many
as the format has parameters, and the format with these values is the message. -/
def Arguments (f m : Val V) (ty : ParamType) (vals : List (Val V)) : Prop :=
  genCall m f = some (vals.map Val.llvmVal) ∧ vals.length = (f.gatherParams ty).length ∧
    ∀ more, ∃ r, f.instantiate (vals ++ more) = some (r, more) ∧ r.strip = m.strip

def BuilderArguments (f m : Builder V) (vals : List (Val V)) : Prop :=
  genCallBuilder m f = some (vals.map Val.llvmVal) ∧ vals.length = f.gatherParams.length ∧
    ∀ more, ∃ r, f.instantiate (vals ++ more) = some (r, more) ∧ r.strip = m.strip

mutual

/-- **A format that covers a message takes its arguments.** -/
theorem Val.Covers.arguments : ∀ {f m : Val V} (ty : ParamType), f.Covers m →
    ∃ vals, Arguments f m ty vals
  | .unknown _, m, ty, _ => by
    refine ⟨[m], ?_, rfl, fun more => ⟨m, rfl, rfl⟩⟩
    cases m <;> rfl
  | .constant _ _, m, ty, h => by
    obtain ⟨y, rfl⟩ := covers_constant.mp h
    exact ⟨[], rfl, rfl, fun more => ⟨_, rfl, rfl⟩⟩
  | .null _, m, ty, h => by
    obtain ⟨y, rfl⟩ := covers_null.mp h
    exact ⟨[], rfl, rfl, fun more => ⟨_, rfl, rfl⟩⟩
  | .global _ _, m, ty, h => by
    obtain ⟨y, rfl⟩ := covers_global.mp h
    exact ⟨[], rfl, rfl, fun more => ⟨_, rfl, rfl⟩⟩
  | .binop x op left right, m, ty, h => by
    obtain ⟨y, left', right', rfl, hleft, hright⟩ := covers_binop.mp h
    obtain ⟨vals, hcall, hlen, hinst⟩ := hleft.arguments .int257
    obtain ⟨vals', hcall', hlen', hinst'⟩ := hright.arguments .int257
    refine ⟨vals ++ vals', ?_, ?_, fun more => ?_⟩
    · rw [genCall, hcall, hcall', List.map_append]
      rfl
    · rw [Val.gatherParams, List.length_append, List.length_append, hlen, hlen']
    · obtain ⟨r, hr, hstrip⟩ := hinst (vals' ++ more)
      obtain ⟨r', hr', hstrip'⟩ := hinst' more
      refine ⟨.binop x op r r', ?_, by rw [Val.strip, Val.strip, hstrip, hstrip']⟩
      rw [List.append_assoc, Val.instantiate, hr]
      show (right.instantiate (vals' ++ more)).bind _ = _
      rw [hr']
      rfl
  | .builder x b, m, ty, h => by
    obtain ⟨y, c, rfl, hb⟩ := covers_builder.mp h
    obtain ⟨vals, hcall, hlen, hinst⟩ := hb.arguments
    refine ⟨vals, hcall, hlen, fun more => ?_⟩
    obtain ⟨r, hr, hstrip⟩ := hinst more
    exact ⟨.builder x r, by rw [Val.instantiate, hr]; rfl, by rw [Val.strip, Val.strip, hstrip]⟩
  | .cell x b, m, ty, h => by
    obtain ⟨y, c, rfl, hb⟩ := covers_cell.mp h
    obtain ⟨vals, hcall, hlen, hinst⟩ := hb.arguments
    refine ⟨vals, hcall, hlen, fun more => ?_⟩
    obtain ⟨r, hr, hstrip⟩ := hinst more
    exact ⟨.cell x r, by rw [Val.instantiate, hr]; rfl, by rw [Val.strip, Val.strip, hstrip]⟩
  | .slice x b, m, ty, h => by
    obtain ⟨y, c, rfl, hb⟩ := covers_slice.mp h
    obtain ⟨vals, hcall, hlen, hinst⟩ := hb.arguments
    refine ⟨vals, hcall, hlen, fun more => ?_⟩
    obtain ⟨r, hr, hstrip⟩ := hinst more
    exact ⟨.slice x r, by rw [Val.instantiate, hr]; rfl, by rw [Val.strip, Val.strip, hstrip]⟩

theorem Builder.Covers.arguments : ∀ {f m : Builder V}, f.Covers m →
    ∃ vals, BuilderArguments f m vals
  | .newc, m, h => by
    obtain rfl := covers_newc.mp h
    exact ⟨[], rfl, rfl, fun more => ⟨_, rfl, rfl⟩⟩
  | .chunk op val rest, m, h => by
    obtain ⟨val', rest', rfl, hval, hrest⟩ := covers_chunk.mp h
    obtain ⟨vals, hcall, hlen, hinst⟩ := hval.arguments op.paramType
    obtain ⟨vals', hcall', hlen', hinst'⟩ := hrest.arguments
    have hkind : op.sameKind op = true := by
      cases op <;> rfl
    refine ⟨vals ++ vals', ?_, ?_, fun more => ?_⟩
    · rw [genCallBuilder, if_pos hkind, hcall, hcall', List.map_append]
      rfl
    · rw [Builder.gatherParams, List.length_append, List.length_append, hlen, hlen']
    · obtain ⟨r, hr, hstrip⟩ := hinst (vals' ++ more)
      obtain ⟨r', hr', hstrip'⟩ := hinst' more
      refine ⟨.chunk op r r', ?_, by rw [Builder.strip, Builder.strip, hstrip, hstrip']⟩
      rw [List.append_assoc, Builder.instantiate, hr]
      show (rest.instantiate (vals' ++ more)).bind _ = _
      rw [hr']
      rfl

end

/-! ## Formats that have arguments -/

mutual

/-- A format with values for its parameters is covered by it. -/
theorem Val.covers_of_instantiate : ∀ {f r : Val V} {vals more : List (Val V)},
    f.instantiate vals = some (r, more) → f.Covers r
  | .unknown _, r, vals, more, _ => covers_unknown
  | .constant _ _, r, vals, more, h => by cases h; exact .refl _
  | .null _, r, vals, more, h => by cases h; exact .refl _
  | .global _ _, r, vals, more, h => by cases h; exact .refl _
  | .binop x op left right, r, vals, more, h => by
    obtain ⟨⟨l, vals'⟩, hleft, h⟩ := Option.bind_eq_some_iff.mp h
    obtain ⟨⟨l', more'⟩, hright, h⟩ := Option.bind_eq_some_iff.mp h
    cases h
    exact covers_binop_binop.mpr
      ⟨Val.covers_of_instantiate hleft, Val.covers_of_instantiate hright⟩
  | .builder x b, r, vals, more, h => by
    obtain ⟨⟨c, _⟩, hb, h⟩ := Option.map_eq_some_iff.mp h
    cases h
    exact covers_builder.mpr ⟨_, _, rfl, Builder.covers_of_instantiate hb⟩
  | .cell x b, r, vals, more, h => by
    obtain ⟨⟨c, _⟩, hb, h⟩ := Option.map_eq_some_iff.mp h
    cases h
    exact covers_cell.mpr ⟨_, _, rfl, Builder.covers_of_instantiate hb⟩
  | .slice x b, r, vals, more, h => by
    obtain ⟨⟨c, _⟩, hb, h⟩ := Option.map_eq_some_iff.mp h
    cases h
    exact covers_slice.mpr ⟨_, _, rfl, Builder.covers_of_instantiate hb⟩

theorem Builder.covers_of_instantiate : ∀ {f r : Builder V} {vals more : List (Val V)},
    f.instantiate vals = some (r, more) → f.Covers r
  | .newc, r, vals, more, h => by cases h; exact .refl _
  | .chunk op val rest, r, vals, more, h => by
    obtain ⟨⟨v, vals'⟩, hval, h⟩ := Option.bind_eq_some_iff.mp h
    obtain ⟨⟨b, more'⟩, hrest, h⟩ := Option.bind_eq_some_iff.mp h
    cases h
    exact covers_chunk_chunk.mpr
      ⟨Val.covers_of_instantiate hval, Builder.covers_of_instantiate hrest⟩

end

mutual

/-- What a format covers does not depend on the values of the program. -/
theorem Val.covers_strip : ∀ {f m : Val V}, f.Covers m.strip ↔ f.Covers m
  | .unknown _, m => iff_of_true covers_unknown covers_unknown
  | .constant _ _, m => by cases m <;> exact Iff.rfl
  | .null _, m => by cases m <;> exact Iff.rfl
  | .global _ _, m => by cases m <;> exact Iff.rfl
  | .binop _ _ left right, m => by
    cases m with
    | binop y op' left' right' =>
      exact and_congr_right fun _ =>
        and_congr (Val.covers_strip (f := left)) (Val.covers_strip (f := right))
    | _ => exact Iff.rfl
  | .builder _ b, m => by
    cases m with
    | builder y c => exact Builder.covers_strip (f := b)
    | _ => exact Iff.rfl
  | .cell _ b, m => by
    cases m with
    | cell y c => exact Builder.covers_strip (f := b)
    | _ => exact Iff.rfl
  | .slice _ b, m => by
    cases m with
    | slice y c => exact Builder.covers_strip (f := b)
    | _ => exact Iff.rfl

theorem Builder.covers_strip : ∀ {f m : Builder V}, f.Covers m.strip ↔ f.Covers m
  | .newc, m => by cases m <;> exact Iff.rfl
  | .chunk op val rest, m => by
    cases m with
    | newc => exact Iff.rfl
    | chunk op' val' rest' =>
      exact and_congr_right fun _ =>
        and_congr (Val.covers_strip (f := val)) (Builder.covers_strip (f := rest))

end

/-- **The formats that a message has arguments for are those that cover it.** -/
theorem Builder.arguments_iff {f m : Builder V} :
    (∃ vals, BuilderArguments f m vals) ↔ f.Covers m := by
  constructor
  · rintro ⟨vals, -, -, hinst⟩
    obtain ⟨r, hr, hstrip⟩ := hinst []
    have hcovers := Builder.covers_of_instantiate hr
    rwa [← Builder.covers_strip, hstrip, Builder.covers_strip] at hcovers
  · exact Builder.Covers.arguments

end TVMCompiler.ReFunc
