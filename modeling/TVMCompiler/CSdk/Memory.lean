import TVMCompiler.CSdk.StackMachine
import TVMCompiler.Lib.AddressSpace

/-!
# The memory of the C runtime

The words below a limit are kept in the persistent dictionary of `c4`, the others in a dictionary in
a global variable. `:load` and `:store` choose between them by the address, and `memcpy` and
`memset` are loops around these calls.

## Main definitions

* `loadMacro`, `storeMacro`, `memcpy`, `memset`: the routines
* `Memory`: the two dictionaries, with the words that can be loaded
* `Op`, `Op.after`: what a memory does

## Main results

* `exec_load`, `exec_store`: the accesses
* `exec_memset`, `exec_memcpy`: the loops, by invariants over the stack
* `Memory.word_store`, `Memory.word_fill`, `Memory.word_copy`: what can be loaded afterwards
* `exec_ops`: a sequence of operations does what a memory does
-/

namespace TVMCompiler.CSdk

open Lib Sdk

/-! ## The routines -/

/-- The first address that is not persistent. -/
def persistentLimit : ℤ := 100000

/-- The bits of an address. -/
def keyWidth : ℕ := 64

/-- The bits of a word. -/
def wordWidth : ℕ := 257

/-- `load_macro`: `( addr -- value )`. -/
def loadMacro : List Instr :=
  [.DUP, .PUSHINT persistentLimit, .LESS, .PUSHCONT [.PUSH_C4, .CTOS, .PLDDICT],
    .PUSHCONT [.GETGLOB 1], .IFELSE, .PUSHINT keyWidth, .DICTIGET, .THROWIFNOT 60,
    .PUSHINT wordWidth, .LDIX, .ENDS]

/-- `store_macro`: `( addr val -- )`. -/
def storeMacro : List Instr :=
  [.NEWC, .PUSHINT wordWidth, .STIX, .SWAP, .DUP, .PUSHINT persistentLimit, .LESS,
    .PUSHCONT [.PUSH_C4, .CTOS, .PLDDICT, .PUSHINT keyWidth, .DICTISETB, .NEWC, .STDICT, .ENDC,
      .POP_C4],
    .PUSHCONT [.GETGLOB 1, .PUSHINT keyWidth, .DICTISETB, .SETGLOB 1], .IFELSE]

def memcpyBody : List Instr :=
  [.DUP2, .CALL .load, .CALL .store, .INC, .SWAP, .INC, .SWAP]

/-- `memcpy`: `( dst src size -- dst )`. -/
def memcpy : List Instr := [.PUSH 2, .ROLLREV 2, .PUSHCONT memcpyBody, .REPEAT, .DROP2, .RET]

def memsetBody : List Instr := [.PUSH 0, .PUSH 2, .CALL .store, .INC]

/-- `memset`: `( addr value size -- addr )`. -/
def memset : List Instr := [.PUSH 2, .XCHG 0 1, .PUSHCONT memsetBody, .REPEAT, .DROP2, .RET]

def routine : Routine → List Instr
  | .load => loadMacro
  | .store => storeMacro
  | .memcpy => memcpy
  | .memset => memset

/-! ## The memory -/

/-- The number in a slice that holds a word and nothing else. -/
def wordAt (p : Slice) : Option ℤ :=
  if p.bits.length = wordWidth ∧ p.refs = [] then some (intOfBits p.bits) else none

/-- The slice of a word. -/
def wordSlice (v : ℤ) : Slice := .ofBits (intBits wordWidth v)

/-- The persistent and the temporary dictionary. -/
@[ext]
structure Memory where
  persistent : Words
  temporary : Words

namespace Memory

variable (m : Memory)

/-- The state with this memory. The other global variables are `globals`. -/
def state (globals : ℕ → Val) (stack : List Val) : State :=
  ⟨stack, m.persistent, Function.update globals 1 (.dict m.temporary)⟩

/-- The dictionary of an address. -/
def dictOf (a : ℤ) : Words := if a < persistentLimit then m.persistent else m.temporary

/-- The word that can be loaded from an address. -/
def word (a : ℤ) : Option ℤ :=
  (if FitsSigned a keyWidth then (m.dictOf a).lookup a else none).bind wordAt

def store (a v : ℤ) : Memory :=
  if a < persistentLimit then { m with persistent := m.persistent.insert a (wordSlice v) }
  else { m with temporary := m.temporary.insert a (wordSlice v) }

end Memory

theorem FitsSigned.mono {n : ℤ} {w w' : ℕ} (h : FitsSigned n w) (hw : w ≤ w') :
    FitsSigned n w' := by
  have hpow : (2 : ℤ) ^ w ≤ 2 ^ w' := pow_le_pow_right₀ (by decide) hw
  exact ⟨(neg_le_neg hpow).trans h.1, h.2.trans_le hpow⟩

/-- A number of 65 bits is an integer of the stack. -/
theorem FitsSigned.toInt {n : ℤ} (h : FitsSigned n 65) : FitsSigned n 257 := h.mono (by decide)

theorem fitsSigned_persistentLimit : FitsSigned persistentLimit 257 := .toInt (by decide)

theorem fitsSigned_keyWidth : FitsSigned keyWidth 257 := .toInt (by decide)

theorem fitsSigned_wordWidth : FitsSigned wordWidth 257 := .toInt (by decide)

section Access

variable (m : Memory) (g : ℕ → Val) (s : List Val) (depth : ℕ)

/-- The first part of `:load` finds the dictionary of the address. -/
theorem exec_dictOf (a : ℤ) :
    exec routine (depth + 1) (if a < persistentLimit then [.PUSH_C4, .CTOS, .PLDDICT]
      else [.GETGLOB 1]) (m.state g s) = .ok (m.state g (.dict (m.dictOf a) :: s)) := by
  unfold Memory.state Memory.dictOf
  split
  · rfl
  · rw [exec, runCode_GETGLOB, Function.update_self, runCode_nil]

/-- What `:load` does with the dictionary. -/
theorem exec_load_eq (a : ℤ) : exec routine (depth + 2) loadMacro (m.state g (.int a :: s)) =
    match if FitsSigned a keyWidth then (m.dictOf a).lookup a else none with
    | some p => ((p.ldi wordWidth).mapError .machine).bind fun r =>
      (r.2.ends.mapError .machine).bind fun _ => .ok (m.state g (.int r.1 :: s))
    | none => .error (.thrown 60) := by
  have hlimit := exec_dictOf m g (.int a :: s) depth a
  rw [exec, loadMacro, Memory.state, runCode_DUP,
    runCode_PUSHINT _ _ _ _ _ _ fitsSigned_persistentLimit, runCode_LESS, runCode_PUSHCONT,
    runCode_PUSHCONT, runCode_IFELSE]
  rw [Memory.state] at hlimit
  rw [hlimit]
  show runCode _ _ _ _ = _
  rw [Memory.state, runCode_PUSHINT _ _ _ _ _ _ fitsSigned_keyWidth]
  cases hfind : (if FitsSigned a keyWidth then (m.dictOf a).lookup a else none) with
  | none => rw [runCode_DICTIGET_none _ _ _ _ _ _ hfind, runCode_THROWIFNOT_false]
  | some p =>
    rw [runCode_DICTIGET_some _ _ _ _ _ _ hfind, runCode_THROWIFNOT_true,
      runCode_PUSHINT _ _ _ _ _ _ fitsSigned_wordWidth, runCode_LDIX]
    simp only [runCode_ENDS, runCode_nil]
    rfl

theorem sti_empty {v : ℤ} (h : FitsSigned v wordWidth) :
    Builder.sti v wordWidth .empty = .ok (wordSlice v) := by
  have hlen : 0 + (intBits wordWidth v).length ≤ Builder.maxBits := by
    rw [length_intBits]
    decide
  have hroom : Builder.store (wordSlice v) .empty = .ok (wordSlice v) := by
    rw [Builder.store, if_pos ⟨hlen, Nat.zero_le _⟩, Slice.empty_append]
  rw [Builder.sti, if_pos ⟨Nat.le_refl _, h.1, h.2⟩]
  exact hroom

/-- The second part of `:store` puts the word into the dictionary of the address. -/
theorem exec_insert {a : ℤ} (ha : FitsSigned a keyWidth) (v : ℤ) :
    exec routine (depth + 1) (if a < persistentLimit then
      [.PUSH_C4, .CTOS, .PLDDICT, .PUSHINT keyWidth, .DICTISETB, .NEWC, .STDICT, .ENDC, .POP_C4]
      else [.GETGLOB 1, .PUSHINT keyWidth, .DICTISETB, .SETGLOB 1])
        (m.state g (.int a :: .builder (wordSlice v) :: s)) = .ok ((m.store a v).state g s) := by
  unfold Memory.state Memory.store
  split
  · rw [exec, runCode_PUSH_C4, runCode_CTOS, runCode_PLDDICT,
      runCode_PUSHINT _ _ _ _ _ _ fitsSigned_keyWidth, runCode_DICTISETB _ _ _ _ _ _ ha,
      runCode_NEWC, runCode_STDICT, runCode_ENDC, runCode_POP_C4, runCode_nil]
  · rw [exec, runCode_GETGLOB, Function.update_self,
      runCode_PUSHINT _ _ _ _ _ _ fitsSigned_keyWidth, runCode_DICTISETB _ _ _ _ _ _ ha,
      runCode_SETGLOB, Function.update_idem, runCode_nil]

/-- **`:store` writes the word.** -/
theorem exec_store {a v : ℤ} (ha : FitsSigned a keyWidth) (hv : FitsSigned v wordWidth) :
    exec routine (depth + 2) storeMacro (m.state g (.int v :: .int a :: s)) =
      .ok ((m.store a v).state g s) := by
  have hinsert := exec_insert m g s depth ha v
  rw [Memory.state] at hinsert
  rw [exec, storeMacro, Memory.state, runCode_NEWC,
    runCode_PUSHINT _ _ _ _ _ _ fitsSigned_wordWidth,
    runCode_STIX _ _ _ _ _ _ (sti_empty hv), runCode_SWAP, runCode_DUP,
    runCode_PUSHINT _ _ _ _ _ _ fitsSigned_persistentLimit, runCode_LESS, runCode_PUSHCONT,
    runCode_PUSHCONT, runCode_IFELSE, hinsert]
  rfl

/-- A slice is read as the word that it holds, and refused if it holds no word. -/
theorem read_word (p : Slice) (next : ℤ → Except Stop State) :
    ((p.ldi wordWidth).mapError Stop.machine).bind (fun r =>
      (r.2.ends.mapError Stop.machine).bind fun _ => next r.1) =
        match wordAt p with
        | some v => next v
        | none => .error (.machine .cellUnderflow) := by
  have hwidth : ¬257 < wordWidth := by decide
  have hmax : ¬Builder.maxBits < wordWidth := by decide
  unfold wordAt
  rw [Slice.ldi, if_neg hwidth, Slice.ldslice, if_neg hmax]
  by_cases hshort : p.bits.length < wordWidth
  · rw [if_pos hshort, if_neg fun h => absurd h.1 (Nat.ne_of_lt hshort)]
    rfl
  · rw [if_neg hshort]
    by_cases hword : p.bits.length = wordWidth ∧ p.refs = []
    · rw [if_pos hword]
      show (Except.mapError _ (Slice.ends _)).bind _ = _
      rw [Slice.ends, if_pos ⟨List.drop_eq_nil_iff.mpr (Nat.le_of_eq hword.1), hword.2⟩,
        List.take_of_length_le (Nat.le_of_eq hword.1)]
      rfl
    · -- bits or references are left
      rw [if_neg hword]
      show (Except.mapError _ (Slice.ends _)).bind _ = _
      rw [Slice.ends, if_neg]
      · rfl
      · rintro ⟨hdrop, hrefs⟩
        have hle := List.drop_eq_nil_iff.mp hdrop
        exact hword ⟨Nat.le_antisymm hle (Nat.not_lt.mp hshort), hrefs⟩

/-- **`:load` reads the word**, or throws. -/
theorem exec_load (a : ℤ) :
    match m.word a with
    | some v => exec routine (depth + 2) loadMacro (m.state g (.int a :: s)) =
        .ok (m.state g (.int v :: s))
    | none => ∃ e, exec routine (depth + 2) loadMacro (m.state g (.int a :: s)) = .error e ∧
        e ≠ .stuck := by
  rw [exec_load_eq]
  unfold Memory.word
  cases (if FitsSigned a keyWidth then (m.dictOf a).lookup a else none : Option Slice) with
  | none =>
    refine ⟨_, rfl, ?_⟩
    rintro ⟨⟩
  | some p =>
    simp only [read_word p fun v => .ok (m.state g (.int v :: s)), Option.bind_some]
    cases wordAt p with
    | some v => rfl
    | none =>
      refine ⟨_, rfl, ?_⟩
      rintro ⟨⟩

end Access

/-! ## Words -/

theorem fitsSigned_keyWidth_iff {a : ℤ} : FitsSigned a keyWidth ↔ -2 ^ 63 ≤ a ∧ a < 2 ^ 63 := by
  have hpow : (2 : ℤ) ^ keyWidth = 2 * 2 ^ 63 := rfl
  rw [FitsSigned, hpow]
  omega

theorem wordAt_wordSlice {v : ℤ} (h : FitsSigned v wordWidth) : wordAt (wordSlice v) = some v := by
  rw [wordAt, if_pos ⟨length_intBits wordWidth v, rfl⟩]
  exact congrArg some (intOfBits_intBits h.1 h.2)

namespace Memory

variable {m : Memory} {a v : ℤ}

theorem dictOf_store (m : Memory) (a v b : ℤ) : (m.store a v).dictOf b =
    if a < persistentLimit ↔ b < persistentLimit then (m.dictOf b).insert a (wordSlice v)
    else m.dictOf b := by
  unfold dictOf store
  by_cases ha : a < persistentLimit <;> by_cases hb : b < persistentLimit <;> simp [ha, hb]

/-- **A write changes one word** and no other. -/
theorem word_store (m : Memory) (ha : FitsSigned a keyWidth) (hv : FitsSigned v wordWidth) :
    (m.store a v).word = Function.update m.word a (some v) := by
  funext b
  unfold word
  rw [dictOf_store]
  by_cases hb : b = a
  · subst hb
    rw [Function.update_self, if_pos ha, if_pos Iff.rfl, SortedMap.lookup_insert, if_pos rfl,
      Option.bind_some, wordAt_wordSlice hv]
  · rw [Function.update_of_ne hb]
    by_cases hpart : a < persistentLimit ↔ b < persistentLimit
    · rw [if_pos hpart, SortedMap.lookup_insert, if_neg hb]
    · rw [if_neg hpart]

/-- `n` words from `a` on, all of them `v`. -/
def fill (m : Memory) (a v : ℤ) : ℕ → Memory
  | 0 => m
  | n + 1 => (m.store a v).fill (a + 1) v n

/-- `n` words from `src` on, to `dst` and behind, one after the other. -/
def copy (m : Memory) (dst src : ℤ) : ℕ → Option Memory
  | 0 => some m
  | n + 1 => (m.word src).bind fun v => (m.store dst v).copy (dst + 1) (src + 1) n

theorem word_fill {v : ℤ} (hv : FitsSigned v wordWidth) : ∀ (n : ℕ) (m : Memory) {a : ℤ},
    -2 ^ 63 ≤ a → a + n ≤ 2 ^ 63 → (m.fill a v n).word = fillRange m.word a v n
  | 0, _, _, _, _ => fillRange_zero.symm
  | n + 1, m, a, hlow, hhigh => by
    have ha : FitsSigned a keyWidth := fitsSigned_keyWidth_iff.mpr ⟨hlow, by omega⟩
    rw [fill, word_fill hv n (m.store a v) (by omega) (by omega), word_store m ha hv,
      fillRange_succ]

theorem fitsSigned_word (h : m.word a = some v) : FitsSigned v wordWidth := by
  obtain ⟨p, -, hp⟩ := Option.bind_eq_some_iff.mp h
  rw [wordAt] at hp
  split at hp
  · rename_i hword
    rw [← Option.some_inj.mp hp, FitsSigned, ← hword.1]
    exact intOfBits_range p.bits
  · cases hp

/-- **Copying word by word copies the range** if all its words are there and the ranges do not
overlap. -/
theorem word_copy : ∀ (n : ℕ) (m : Memory) {dst src : ℤ}, -2 ^ 63 ≤ dst → dst + n ≤ 2 ^ 63 →
    src + n ≤ dst ∨ dst + n ≤ src →
      match m.copy dst src n with
      | some m' => Present m.word src n ∧ m'.word = copyRange m.word dst src n
      | none => ¬Present m.word src n
  | 0, _, _, _, _, _, _ => ⟨present_zero, copyRange_zero.symm⟩
  | n + 1, m, dst, src, hlow, hhigh, hsep => by
    have hdst : FitsSigned dst keyWidth := fitsSigned_keyWidth_iff.mpr ⟨hlow, by omega⟩
    rw [copy]
    cases hword : m.word src with
    | none =>
      intro hpresent
      rw [present_succ_iff, hword] at hpresent
      exact absurd hpresent.1 Bool.false_ne_true
    | some v =>
      have ih := word_copy n (m.store dst v) (by omega : -2 ^ 63 ≤ dst + 1) (by omega)
        (by omega : src + 1 + n ≤ dst + 1 ∨ dst + 1 + n ≤ src + 1)
      have hword' := word_store m hdst (fitsSigned_word hword)
      -- the source is not touched
      have hpresent : Present (m.store dst v).word (src + 1) n ↔ Present m.word src (n + 1) := by
        rw [hword', present_update dst v (by omega), present_succ_iff, hword]
        exact ⟨fun h => ⟨rfl, h⟩, fun h => h.2⟩
      rw [Option.bind_some]
      cases hcopy : (m.store dst v).copy (dst + 1) (src + 1) n with
      | none =>
        rw [hcopy] at ih
        exact fun h => ih (hpresent.mpr h)
      | some m' =>
        rw [hcopy] at ih
        refine ⟨hpresent.mp ih.1, ?_⟩
        rw [ih.2, hword', copyRange_succ hsep hword]

/-- Writes to the addresses `W` leave the part alone that has none of them. -/
structure KeepsParts (W : ℤ → Prop) (m m' : Memory) : Prop where
  temporary : (∀ b, W b → b < persistentLimit) → m'.temporary = m.temporary
  persistent : (∀ b, W b → persistentLimit ≤ b) → m'.persistent = m.persistent

theorem KeepsParts.refl (W : ℤ → Prop) (m : Memory) : KeepsParts W m m :=
  ⟨fun _ => rfl, fun _ => rfl⟩

theorem KeepsParts.trans {W W' U : ℤ → Prop} {m m' m'' : Memory} (h : KeepsParts W m m')
    (h' : KeepsParts W' m' m'') (hW : ∀ b, W b → U b) (hW' : ∀ b, W' b → U b) :
    KeepsParts U m m'' := by
  constructor
  · intro hU
    exact (h'.temporary fun b hb => hU b (hW' b hb)).trans (h.temporary fun b hb => hU b (hW b hb))
  · intro hU
    exact (h'.persistent fun b hb => hU b (hW' b hb)).trans
      (h.persistent fun b hb => hU b (hW b hb))

theorem keepsParts_store (m : Memory) (a v : ℤ) : KeepsParts (· = a) m (m.store a v) := by
  constructor
  · intro h
    rw [store, if_pos (h a rfl)]
  · intro h
    rw [store, if_neg (Int.not_lt.mpr (h a rfl))]

/-- The addresses of a range. -/
def InRange (a : ℤ) (n : ℕ) (b : ℤ) : Prop := a ≤ b ∧ b < a + n

theorem keepsParts_fill (v : ℤ) : ∀ (n : ℕ) (m : Memory) (a : ℤ),
    KeepsParts (InRange a n) m (m.fill a v n)
  | 0, m, a => .refl _ m
  | n + 1, m, a => by
    refine (keepsParts_store m a v).trans (keepsParts_fill v n (m.store a v) (a + 1)) ?_ ?_
    · rintro b rfl
      exact ⟨le_refl b, by omega⟩
    · rintro b ⟨hlow, hhigh⟩
      exact ⟨by omega, by omega⟩

theorem keepsParts_copy : ∀ (n : ℕ) {m m' : Memory} {dst src : ℤ}, m.copy dst src n = some m' →
    KeepsParts (InRange dst n) m m'
  | 0, m, m', dst, src, h => by
    cases h
    exact .refl _ m
  | n + 1, m, m', dst, src, h => by
    obtain ⟨v, -, hrest⟩ := Option.bind_eq_some_iff.mp h
    refine (keepsParts_store m dst v).trans (keepsParts_copy n hrest) ?_ ?_
    · rintro b rfl
      exact ⟨le_refl b, by omega⟩
    · rintro b ⟨hlow, hhigh⟩
      exact ⟨by omega, by omega⟩

end Memory

/-! ## The loops -/

section Loops

variable (g : ℕ → Val) (s : List Val) (depth : ℕ)

theorem fitsSigned_succ {a : ℤ} (h : FitsSigned a keyWidth) : FitsSigned (a + 1) 257 := by
  obtain ⟨hlow, hhigh⟩ := fitsSigned_keyWidth_iff.mp h
  exact .toInt ⟨by omega, by omega⟩

/-- One round of `memset`. -/
theorem exec_memsetBody (m : Memory) {a v : ℤ} (ha : FitsSigned a keyWidth)
    (hv : FitsSigned v wordWidth) :
    exec routine (depth + 3) memsetBody (m.state g (.int a :: .int v :: s)) =
      .ok ((m.store a v).state g (.int (a + 1) :: .int v :: s)) := by
  have hstore := exec_store m g (.int a :: .int v :: s) depth ha hv
  rw [Memory.state] at hstore
  rw [exec, memsetBody, Memory.state, runCode_PUSH _ _ _ _ _ _ rfl, runCode_PUSH _ _ _ _ _ _ rfl,
    runCode_CALL, routine, hstore]
  show runCode _ _ _ _ = _
  rw [Memory.state, runCode_INC _ _ _ _ _ _ (fitsSigned_succ ha), runCode_nil]
  rfl

/-- **The loop of `memset`**: the next address is on top, above the value. -/
theorem iterate_memset {v : ℤ} (hv : FitsSigned v wordWidth) : ∀ (n : ℕ) (m : Memory) {a : ℤ},
    -2 ^ 63 ≤ a → a + n ≤ 2 ^ 63 →
      iterate (exec routine (depth + 3) memsetBody) n (m.state g (.int a :: .int v :: s)) =
        .ok ((m.fill a v n).state g (.int (a + n) :: .int v :: s))
  | 0, m, a, _, _ => by
    rw [Nat.cast_zero, add_zero]
    rfl
  | n + 1, m, a, hlow, hhigh => by
    have ha : FitsSigned a keyWidth := fitsSigned_keyWidth_iff.mpr ⟨hlow, by omega⟩
    rw [iterate, exec_memsetBody g s depth m ha hv]
    show iterate _ n _ = _
    rw [iterate_memset hv n (m.store a v) (by omega) (by omega), Memory.fill]
    have hnext : a + 1 + (n : ℤ) = a + ((n + 1 : ℕ) : ℤ) := by omega
    rw [hnext]

/-- **`memset` fills its range** and leaves the address. -/
theorem exec_memset (m : Memory) {a v : ℤ} {n : ℕ} (hv : FitsSigned v wordWidth)
    (hlow : -2 ^ 63 ≤ a) (hhigh : a + n ≤ 2 ^ 63) (hn : n < 2 ^ 31) :
    exec routine (depth + 4) memset (m.state g (.int n :: .int v :: .int a :: s)) =
      .ok ((m.fill a v n).state g (.int a :: s)) := by
  have hsize : FitsSigned n 32 := ⟨by omega, by omega⟩
  have hloop := iterate_memset g (.int a :: s) depth hv n m hlow hhigh
  rw [Memory.state] at hloop
  rw [exec, memset, Memory.state, runCode_PUSH _ _ _ _ _ _ rfl, runCode_XCHG01, runCode_PUSHCONT,
    runCode_REPEAT _ _ _ _ _ _ _ hsize, Int.toNat_natCast, hloop]
  rfl

/-- One round of `memcpy`. -/
theorem exec_memcpyBody (m : Memory) {dst src : ℤ} (hdst : FitsSigned dst keyWidth)
    (hsrc : FitsSigned src keyWidth) :
    match m.word src with
    | some v => exec routine (depth + 3) memcpyBody (m.state g (.int src :: .int dst :: s)) =
        .ok ((m.store dst v).state g (.int (src + 1) :: .int (dst + 1) :: s))
    | none => ∃ e, exec routine (depth + 3) memcpyBody (m.state g (.int src :: .int dst :: s)) =
        .error e ∧ e ≠ .stuck := by
  have hload := exec_load m g (.int dst :: .int src :: .int dst :: s) depth src
  have hbegin : exec routine (depth + 3) memcpyBody (m.state g (.int src :: .int dst :: s)) =
      (exec routine (depth + 2) loadMacro
        (m.state g (.int src :: .int dst :: .int src :: .int dst :: s))).bind
          (runCode (exec routine (depth + 2)) routine
            [.CALL .store, .INC, .SWAP, .INC, .SWAP]) := by
    rw [exec, memcpyBody, Memory.state, Memory.state, runCode_DUP2, runCode_CALL, routine]
  rw [hbegin]
  cases hword : m.word src with
  | none =>
    rw [hword] at hload
    obtain ⟨e, he, hne⟩ := hload
    exact ⟨e, by rw [he]; rfl, hne⟩
  | some v =>
    rw [hword] at hload
    have hstore := exec_store m g (.int src :: .int dst :: s) depth hdst
      (Memory.fitsSigned_word hword)
    rw [hload]
    show runCode _ _ _ _ = _
    rw [runCode_CALL, routine, hstore]
    show runCode _ _ _ _ = _
    rw [Memory.state, runCode_INC _ _ _ _ _ _ (fitsSigned_succ hsrc), runCode_SWAP,
      runCode_INC _ _ _ _ _ _ (fitsSigned_succ hdst), runCode_SWAP, runCode_nil]
    rfl

/-- **The loop of `memcpy`**: the next source is on top, above the next destination. -/
theorem iterate_memcpy : ∀ (n : ℕ) (m : Memory) {dst src : ℤ}, -2 ^ 63 ≤ dst → dst + n ≤ 2 ^ 63 →
    -2 ^ 63 ≤ src → src + n ≤ 2 ^ 63 →
      match m.copy dst src n with
      | some m' => iterate (exec routine (depth + 3) memcpyBody) n
          (m.state g (.int src :: .int dst :: s)) =
            .ok (m'.state g (.int (src + n) :: .int (dst + n) :: s))
      | none => ∃ e, iterate (exec routine (depth + 3) memcpyBody) n
          (m.state g (.int src :: .int dst :: s)) = .error e ∧ e ≠ .stuck
  | 0, m, dst, src, _, _, _, _ => by
    rw [Nat.cast_zero, add_zero, add_zero]
    rfl
  | n + 1, m, dst, src, hdst, hdst', hsrc, hsrc' => by
    have hround := exec_memcpyBody g s depth m
      (fitsSigned_keyWidth_iff.mpr ⟨hdst, by omega⟩ : FitsSigned dst keyWidth)
      (fitsSigned_keyWidth_iff.mpr ⟨hsrc, by omega⟩ : FitsSigned src keyWidth)
    rw [Memory.copy, iterate]
    cases hword : m.word src with
    | none =>
      rw [hword] at hround
      obtain ⟨e, he, hne⟩ := hround
      exact ⟨e, by rw [he]; rfl, hne⟩
    | some v =>
      rw [hword] at hround
      have ih := iterate_memcpy n (m.store dst v) (by omega : -2 ^ 63 ≤ dst + 1) (by omega)
        (by omega : -2 ^ 63 ≤ src + 1) (by omega)
      have hnext (a : ℤ) : a + ((n + 1 : ℕ) : ℤ) = a + 1 + n := by omega
      rw [hround, hnext, hnext]
      exact ih

/-- **`memcpy` copies its range** and leaves the destination, or throws. -/
theorem exec_memcpy (m : Memory) {dst src : ℤ} {n : ℕ} (hdst : -2 ^ 63 ≤ dst)
    (hdst' : dst + n ≤ 2 ^ 63) (hsrc : -2 ^ 63 ≤ src) (hsrc' : src + n ≤ 2 ^ 63) (hn : n < 2 ^ 31) :
    match m.copy dst src n with
    | some m' => exec routine (depth + 4) memcpy
        (m.state g (.int n :: .int src :: .int dst :: s)) = .ok (m'.state g (.int dst :: s))
    | none => ∃ e, exec routine (depth + 4) memcpy
        (m.state g (.int n :: .int src :: .int dst :: s)) = .error e ∧ e ≠ .stuck := by
  have hsize : FitsSigned n 32 := ⟨by omega, by omega⟩
  have hbegin : exec routine (depth + 4) memcpy (m.state g (.int n :: .int src :: .int dst :: s)) =
      (iterate (exec routine (depth + 3) memcpyBody) n
        (m.state g (.int src :: .int dst :: .int dst :: s))).bind
          (runCode (exec routine (depth + 3)) routine [.DROP2, .RET]) := by
    rw [exec, memcpy, Memory.state, runCode_PUSH _ _ _ _ _ _ rfl, runCode_ROLLREV2,
      runCode_PUSHCONT, runCode_REPEAT _ _ _ _ _ _ _ hsize, Int.toNat_natCast]
    rfl
  have hloop := iterate_memcpy g (.int dst :: s) depth n m hdst hdst' hsrc hsrc'
  rw [hbegin]
  cases hcopy : m.copy dst src n with
  | none =>
    rw [hcopy] at hloop
    obtain ⟨e, he, hne⟩ := hloop
    exact ⟨e, by rw [he]; rfl, hne⟩
  | some m' =>
    rw [hcopy] at hloop
    dsimp only
    rw [hloop]
    rfl

end Loops

/-! ## Operations -/

inductive Op where
  | load (addr : ℤ)
  | store (addr val : ℤ)
  | memset (addr value : ℤ) (size : ℕ)
  | memcpy (dst src : ℤ) (size : ℕ)

namespace Op

/-- The call of the routine, with its arguments. -/
def code : Op → List Instr
  | load addr => [.PUSHINT addr, .CALL .load]
  | store addr val => [.PUSHINT addr, .PUSHINT val, .CALL .store]
  | memset addr value size => [.PUSHINT addr, .PUSHINT value, .PUSHINT size, .CALL .memset]
  | memcpy dst src size => [.PUSHINT dst, .PUSHINT src, .PUSHINT size, .CALL .memcpy]

/-- Addresses of 64 bits, values of 257 bits, and no overlap. -/
def Fits : Op → Prop
  | load addr => FitsSigned addr keyWidth
  | store addr val => FitsSigned addr keyWidth ∧ FitsSigned val wordWidth
  | memset addr value size => -2 ^ 63 ≤ addr ∧ addr + size ≤ 2 ^ 63 ∧ FitsSigned value wordWidth
  | memcpy dst src size => -2 ^ 63 ≤ dst ∧ dst + size ≤ 2 ^ 63 ∧ -2 ^ 63 ≤ src ∧
      src + size ≤ 2 ^ 63 ∧ (src + size ≤ dst ∨ dst + size ≤ src)

/-- The machine repeats a loop so often. -/
def Repeats : Op → Prop
  | load _ | store _ _ => True
  | memset _ _ size | memcpy _ _ size => size < 2 ^ 31

/-- The addresses that are written. -/
def Writes : Op → ℤ → Prop
  | load _ => fun _ => False
  | store addr _ => fun b => b = addr
  | memset addr _ size => Memory.InRange addr size
  | memcpy dst _ size => Memory.InRange dst size

instance instDecidableFits : (op : Op) → Decidable op.Fits
  | load _ => instDecidableFitsSigned _ _
  | store _ _ => instDecidableAnd
  | memset _ _ _ => instDecidableAnd
  | memcpy _ _ _ => instDecidableAnd

instance instDecidableRepeats : (op : Op) → Decidable op.Repeats
  | load _ => instDecidableTrue
  | store _ _ => instDecidableTrue
  | memset _ _ size => Nat.decLt size _
  | memcpy _ _ size => Nat.decLt size _

/-- What a memory does: its contents afterwards, and the results. -/
def after : Op → Contents ℤ → Option (Contents ℤ × List ℤ)
  | load addr, c => (c addr).map fun v => (c, [v])
  | store addr val, c => some (Function.update c addr (some val), [])
  | memset addr value size, c => some (fillRange c addr value size, [addr])
  | memcpy dst src size, c =>
    if Present c src size then some (copyRange c dst src size, [dst]) else none

end Op

/-- What a memory does for a sequence of operations, with the last result on top. -/
def afterAll : List Op → Contents ℤ → Option (Contents ℤ × List ℤ)
  | [], c => some (c, [])
  | op :: ops, c => (op.after c).bind fun r =>
    (afterAll ops r.1).map fun r' => (r'.1, r'.2 ++ r.2)

/-- The run of the code does what a memory does: the contents are those of the memory, the results
are on the stack above what was there, and the part that nothing is written to stays the same. The
run throws if the memory has no word to load. -/
def BehavesLikeMemory (g : ℕ → Val) (s : List Val) (m : Memory) (W : ℤ → Prop)
    (run : Except Stop State) : Option (Contents ℤ × List ℤ) → Prop
  | some r => ∃ m', run = .ok (m'.state g (r.2.map .int ++ s)) ∧ m'.word = r.1 ∧
      m.KeepsParts W m'
  | none => ∃ e, run = .error e ∧ e ≠ .stuck

section Runs

variable (g : ℕ → Val) (s : List Val) (depth : ℕ) (m : Memory)

theorem fitsSigned_range {a : ℤ} (hlow : -2 ^ 63 ≤ a) (hhigh : a ≤ 2 ^ 63) : FitsSigned a 257 := by
  exact .toInt ⟨by omega, by omega⟩

/-- **One operation.** -/
theorem behaves_op {op : Op} (hfits : op.Fits) (hrepeats : op.Repeats) :
    BehavesLikeMemory g s m op.Writes
      (runCode (exec routine (depth + 4)) routine op.code (m.state g s)) (op.after m.word) := by
  cases op with
  | load addr =>
    have haddr := fitsSigned_keyWidth_iff.mp hfits
    have hload := exec_load m g s (depth + 2) addr
    rw [Op.code, Memory.state,
      runCode_PUSHINT _ _ _ _ _ _ (fitsSigned_range haddr.1 (le_of_lt haddr.2)), runCode_CALL]
    change BehavesLikeMemory g s m _
      ((exec routine _ loadMacro (m.state g (.int addr :: s))).bind _) _
    rw [Op.after]
    cases hword : m.word addr with
    | none =>
      rw [hword] at hload
      obtain ⟨e, he, hne⟩ := hload
      exact ⟨e, by rw [he]; rfl, hne⟩
    | some v =>
      rw [hword] at hload
      exact ⟨m, by rw [hload]; rfl, rfl, .refl _ m⟩
  | store addr val =>
    have haddr := fitsSigned_keyWidth_iff.mp hfits.1
    have hstore := exec_store m g s (depth + 2) hfits.1 hfits.2
    rw [Op.code, Memory.state,
      runCode_PUSHINT _ _ _ _ _ _ (fitsSigned_range haddr.1 (le_of_lt haddr.2)),
      runCode_PUSHINT _ _ _ _ _ _ hfits.2, runCode_CALL]
    change BehavesLikeMemory g s m _
      ((exec routine _ storeMacro (m.state g (.int val :: .int addr :: s))).bind _) _
    exact ⟨m.store addr val, by rw [hstore]; rfl, m.word_store hfits.1 hfits.2,
      m.keepsParts_store addr val⟩
  | memset addr value size =>
    obtain ⟨hlow, hhigh, hvalue⟩ := hfits
    have hmemset := exec_memset g s depth m hvalue hlow hhigh hrepeats
    have hsize : FitsSigned size 257 := fitsSigned_range (by omega) (by
      have hsize : size < 2 ^ 31 := hrepeats
      omega)
    rw [Op.code, Memory.state, runCode_PUSHINT _ _ _ _ _ _ (fitsSigned_range hlow (by omega)),
      runCode_PUSHINT _ _ _ _ _ _ hvalue, runCode_PUSHINT _ _ _ _ _ _ hsize, runCode_CALL]
    change BehavesLikeMemory g s m _ ((exec routine _ CSdk.memset
      (m.state g (.int size :: .int value :: .int addr :: s))).bind _) _
    exact ⟨m.fill addr value size, by rw [hmemset]; rfl, Memory.word_fill hvalue size m hlow hhigh,
      Memory.keepsParts_fill value size m addr⟩
  | memcpy dst src size =>
    obtain ⟨hdst, hdst', hsrc, hsrc', hsep⟩ := hfits
    have hmemcpy := exec_memcpy g s depth m hdst hdst' hsrc hsrc' hrepeats
    have hcopied := Memory.word_copy size m hdst hdst' hsep
    have hsize : FitsSigned size 257 := fitsSigned_range (by omega) (by
      have hsize : size < 2 ^ 31 := hrepeats
      omega)
    rw [Op.code, Memory.state, runCode_PUSHINT _ _ _ _ _ _ (fitsSigned_range hdst (by omega)),
      runCode_PUSHINT _ _ _ _ _ _ (fitsSigned_range hsrc (by omega)),
      runCode_PUSHINT _ _ _ _ _ _ hsize, runCode_CALL]
    change BehavesLikeMemory g s m _
      ((exec routine _ CSdk.memcpy (m.state g (.int size :: .int src :: .int dst :: s))).bind _) _
    rw [Op.after]
    cases hcopy : m.copy dst src size with
    | none =>
      rw [hcopy] at hmemcpy hcopied
      obtain ⟨e, he, hne⟩ := hmemcpy
      rw [if_neg hcopied]
      exact ⟨e, by rw [he]; rfl, hne⟩
    | some m' =>
      rw [hcopy] at hmemcpy hcopied
      rw [if_pos hcopied.1]
      exact ⟨m', by rw [hmemcpy]; rfl, hcopied.2, Memory.keepsParts_copy size hcopy⟩

theorem ret_not_mem_code (op : Op) : .RET ∉ op.code := by
  cases op <;> simp [Op.code]

/-- **The memory of the C runtime behaves like memory**: a sequence of operations does what a memory
does, whatever the two dictionaries hold. -/
theorem exec_ops (ops : List Op) (hfits : ∀ op ∈ ops, op.Fits) (hrepeats : ∀ op ∈ ops, op.Repeats) :
    BehavesLikeMemory g s m (fun b => ∃ op ∈ ops, op.Writes b)
      (exec routine (depth + 5) (ops.flatMap Op.code) (m.state g s)) (afterAll ops m.word) := by
  induction ops generalizing s m with
  | nil => exact ⟨m, rfl, rfl, .refl _ m⟩
  | cons op ops ih =>
    have hfirst := behaves_op g s depth m (hfits op List.mem_cons_self)
      (hrepeats op List.mem_cons_self)
    rw [List.flatMap_cons, exec, runCode_append _ _ (ret_not_mem_code op), afterAll]
    cases hafter : op.after m.word with
    | none =>
      rw [hafter] at hfirst
      obtain ⟨e, he, hne⟩ := hfirst
      exact ⟨e, by rw [he]; rfl, hne⟩
    | some r =>
      rw [hafter] at hfirst
      obtain ⟨m', hrun, hword, hparts⟩ := hfirst
      rw [hrun]
      show BehavesLikeMemory g s m _ (exec routine (depth + 5) (ops.flatMap Op.code)
        (m'.state g (r.2.map .int ++ s))) _
      -- the other operations start from the memory and the stack that the first one leaves
      have hrest := ih (r.2.map .int ++ s) m' (fun o ho => hfits o (List.mem_cons_of_mem op ho))
        fun o ho => hrepeats o (List.mem_cons_of_mem op ho)
      rw [hword] at hrest
      rw [Option.bind_some]
      cases hafters : afterAll ops r.1 with
      | none =>
        rw [hafters] at hrest
        exact hrest
      | some r' =>
        rw [hafters] at hrest
        obtain ⟨m'', hruns, hwords, hparts'⟩ := hrest
        refine ⟨m'', ?_, hwords, hparts.trans hparts' ?_ ?_⟩
        · rw [hruns, List.map_append, List.append_assoc]
        · intro b hb
          exact ⟨op, List.mem_cons_self, hb⟩
        · rintro b ⟨o, ho, hb⟩
          exact ⟨o, List.mem_cons_of_mem op ho, hb⟩

end Runs

/-- A store, a fill and a copy of it over the limit, and a load. -/
theorem exec_ops_sample :
    BehavesLikeMemory (fun _ => .int 0) [.int 9] ⟨.empty, .empty⟩
      (fun b => ∃ op ∈ [Op.store 5 (-3), .memset 99998 7 2, .memcpy 100000 99998 2, .load 5],
        op.Writes b)
      (exec routine 5 ([Op.store 5 (-3), .memset 99998 7 2, .memcpy 100000 99998 2,
        .load 5].flatMap Op.code) (Memory.state ⟨.empty, .empty⟩ (fun _ => .int 0) [.int 9]))
      (afterAll [Op.store 5 (-3), .memset 99998 7 2, .memcpy 100000 99998 2, .load 5]
        (Memory.word ⟨.empty, .empty⟩)) := by
  refine exec_ops _ _ 0 _ _ ?_ ?_
  · intro op hop
    simp only [List.mem_cons, List.not_mem_nil, or_false] at hop
    rcases hop with rfl | rfl | rfl | rfl
    · exact ⟨by decide, .toInt (by decide)⟩
    · exact ⟨by decide, by decide, .toInt (by decide)⟩
    · decide
    · decide
  · intro op hop
    simp only [List.mem_cons, List.not_mem_nil, or_false] at hop
    rcases hop with rfl | rfl | rfl | rfl <;> decide

/-- `memset` of `2 ^ 31` words throws, and writes none. -/
theorem exec_memset_rangeCheck (g : ℕ → Val) (s : List Val) (depth : ℕ) (m : Memory) {a v : ℤ}
    {n : ℕ} (hn : 2 ^ 31 ≤ n) :
    exec routine (depth + 1) memset (m.state g (.int n :: .int v :: .int a :: s)) =
      .error (.machine .rangeCheck) := by
  have hsize : ¬FitsSigned n 32 := by
    rintro ⟨-, hhigh⟩
    omega
  rw [exec, memset, Memory.state, runCode_PUSH _ _ _ _ _ _ rfl, runCode_XCHG01, runCode_PUSHCONT,
    runCode_REPEAT_rangeCheck _ _ _ _ _ _ _ hsize]

/-- So a run with it does not behave like memory. -/
theorem exec_ops_rangeCheck : ∃ ops : List Op, (∀ op ∈ ops, op.Fits) ∧
    ∀ (g : ℕ → Val) (s : List Val) (depth : ℕ) (m : Memory),
      ¬BehavesLikeMemory g s m (fun b => ∃ op ∈ ops, op.Writes b)
        (exec routine (depth + 5) (ops.flatMap Op.code) (m.state g s)) (afterAll ops m.word) := by
  refine ⟨[.memset 0 7 (2 ^ 31)], ?_, ?_⟩
  · intro op hop
    rw [List.mem_singleton.mp hop]
    exact ⟨by decide, by decide, .toInt (by decide)⟩
  · rintro g s depth m ⟨m', hrun, -⟩
    have hthrow := exec_memset_rangeCheck g s (depth + 3) m (a := 0) (v := 7) (le_refl (2 ^ 31))
    rw [Memory.state] at hthrow
    rw [List.flatMap_singleton, exec, Op.code, Memory.state,
      runCode_PUSHINT _ _ _ _ _ _ (.toInt (by decide)),
      runCode_PUSHINT _ _ _ _ _ _ (.toInt (by decide)),
      runCode_PUSHINT _ _ _ _ _ _ (.toInt (by decide)), runCode_CALL, routine, hthrow] at hrun
    cases hrun

end TVMCompiler.CSdk
