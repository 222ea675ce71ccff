import TVMCompiler.Sdk.Sequence

/-!
# Strings in cells

The bytes of a string literal are stored at compile time, several of them at once as one number, in
cells that refer to the rest of the string. The bytes of a string at run time are a `sequence`.

## Main definitions

* `combineBytes`: `combine_bytes`
* `stringIntoCells`: `string_into_cells`

## Main results

* `stringIntoCells_last`, `stringIntoCells_next`: the cells of a string
* `assign_bytes`, `assign_bytes_overflow`: the cells of a sequence of bytes
* `stringIntoCells_eq_iff`: they are the same as long as the stack of builders suffices
-/

namespace TVMCompiler.Sdk

open Lib TupleStack Sequence

/-! ## The code -/

def maxUintSz : ℕ := 256

def byteSz : ℕ := 8

def maxBytesInCell : ℕ := Builder.maxBits / byteSz

def maxBytesInUint : ℕ := maxUintSz / byteSz

/-- `combine_bytes`: the bytes in front, the first one as the most significant. -/
def combineBytes : ℕ → List ℕ → ℕ
  | count + 2, byte :: it => byte <<< (byteSz * (count + 1)) ||| combineBytes (count + 1) it
  | _, byte :: _ => byte
  | _, [] => 0

/-- The store of the bytes in front, and the iterator behind them. -/
def storeBytes (count : ℕ) (s : Builder × List ℕ) : Except TvmException (Builder × List ℕ) :=
  (s.1.stu (combineBytes count s.2) (count * byteSz)).map fun b => (b, s.2.drop count)

/-- The store of the `k`-th number of full width. -/
def storeUint (size k : ℕ) (s : Builder × List ℕ) : Except TvmException (Builder × List ℕ) :=
  if k * maxBytesInUint ≤ size then storeBytes maxBytesInUint s else .ok s

/-- The bytes that do not fill a number. -/
def storeRest (size : ℕ) (s : Builder × List ℕ) : Except TvmException (Builder × List ℕ) :=
  let restSz := min size maxBytesInCell % maxBytesInUint
  if restSz ≠ 0 then storeBytes restSz s else .ok s

/-- `string_into_cells`. -/
def stringIntoCells (it : List ℕ) : Except TvmException Cell :=
  let size := it.length
  (if _h : maxBytesInCell < size then
      (stringIntoCells (it.drop maxBytesInCell)).bind fun nextCell => Builder.stref nextCell .empty
    else .ok .empty).bind fun b =>
  (storeUint size 1 (b, it)).bind fun s =>
  (storeUint size 2 s).bind fun s =>
  (storeUint size 3 s).bind fun s =>
  (storeRest size s).map fun s => s.1.endc
termination_by it.length
decreasing_by
  rw [List.length_drop]
  exact Nat.sub_lt (Nat.zero_lt_of_lt _h) (by decide)

/-! ## The bits of the bytes -/

/-- The bytes one after another. -/
def bitsOf (bytes : List ℕ) : List Bool := bytes.flatMap (natBits byteSz)

theorem length_bitsOf (bytes : List ℕ) : (bitsOf bytes).length = bytes.length * byteSz := by
  induction bytes with
  | nil => rfl
  | cons byte bytes ih =>
    show (natBits byteSz byte ++ bitsOf bytes).length = _
    rw [List.length_append, length_natBits, ih, List.length_cons, Nat.succ_mul, Nat.add_comm]

theorem bitsOf_append (bytes bytes' : List ℕ) :
    bitsOf (bytes ++ bytes') = bitsOf bytes ++ bitsOf bytes' := List.flatMap_append

/-- The combined number fits its width, and its bits are those of the bytes. -/
theorem combineBytes_spec (count : ℕ) (it : List ℕ) (hit : ∀ byte ∈ it, byte < 2 ^ byteSz)
    (hcount : count + 1 ≤ it.length) :
    combineBytes (count + 1) it < 2 ^ ((count + 1) * byteSz) ∧
      natBits ((count + 1) * byteSz) (combineBytes (count + 1) it) =
        bitsOf (it.take (count + 1)) := by
  induction count generalizing it with
  | zero =>
    cases it with
    | nil => exact absurd hcount (Nat.not_succ_le_zero _)
    | cons byte it =>
      have hbyte := hit byte List.mem_cons_self
      refine ⟨by simpa [combineBytes] using hbyte, ?_⟩
      simp [combineBytes, bitsOf]
  | succ count ih =>
    cases it with
    | nil => exact absurd hcount (Nat.not_succ_le_zero _)
    | cons byte it =>
      have hbyte := hit byte List.mem_cons_self
      obtain ⟨hlt, hbits⟩ := ih it (fun b hb => hit b (List.mem_cons_of_mem _ hb))
        (Nat.le_of_succ_le_succ hcount)
      -- the first byte is above all the others
      have hcombine : combineBytes (count + 2) (byte :: it) =
          byte * 2 ^ ((count + 1) * byteSz) + combineBytes (count + 1) it := by
        rw [combineBytes, Nat.mul_comm byteSz, ← Nat.shiftLeft_add_eq_or_of_lt hlt, Nat.shiftLeft_eq]
      have hwidth : (count + 1 + 1) * byteSz = byteSz + (count + 1) * byteSz := by
        rw [Nat.succ_mul, Nat.add_comm]
      rw [hcombine, hwidth]
      refine ⟨?_, ?_⟩
      · have hpow : 2 ^ (byteSz + (count + 1) * byteSz) =
            2 ^ byteSz * 2 ^ ((count + 1) * byteSz) := pow_add _ _ _
        rw [hpow]
        calc byte * 2 ^ ((count + 1) * byteSz) + combineBytes (count + 1) it
            < byte * 2 ^ ((count + 1) * byteSz) + 2 ^ ((count + 1) * byteSz) :=
              Nat.add_lt_add_left hlt _
          _ = (byte + 1) * 2 ^ ((count + 1) * byteSz) := (Nat.succ_mul _ _).symm
          _ ≤ 2 ^ byteSz * 2 ^ ((count + 1) * byteSz) := Nat.mul_le_mul_right _ hbyte
      · rw [natBits_append hbyte hlt, hbits, List.take_succ_cons]
        rfl

/-! ## The cells of a string -/

section Cells

variable {it : List ℕ} {b : Builder}

/-- The builder behind the store of `n` bytes, and the iterator there. -/
def stored (b : Builder) (it : List ℕ) (n : ℕ) : Builder × List ℕ :=
  (b ++ Slice.ofBits (bitsOf (it.take n)), it.drop n)

theorem storeBytes_stored (hit : ∀ byte ∈ it, byte < 2 ^ byteSz) (hb : b.bits = [])
    (hrefs : b.refs.length ≤ Builder.maxRefs) {n count : ℕ} (hpos : count ≠ 0)
    (hcount : count ≤ maxBytesInUint) (hlen : n + count ≤ it.length)
    (hcell : n + count ≤ maxBytesInCell) :
    storeBytes count (stored b it n) = .ok (stored b it (n + count)) := by
  obtain ⟨k, rfl⟩ := Nat.exists_eq_succ_of_ne_zero hpos
  have hdrop : k + 1 ≤ (it.drop n).length := by
    rw [List.length_drop]
    omega
  obtain ⟨hlt, hbits⟩ := combineBytes_spec k (it.drop n)
    (fun byte hbyte => hit byte (List.mem_of_mem_drop hbyte)) hdrop
  have htake : bitsOf (it.take n) ++ bitsOf ((it.drop n).take (k + 1)) =
      bitsOf (it.take (n + (k + 1))) := by
    rw [← bitsOf_append, ← List.take_add]
  have hvalid : Builder.Valid (b ++ Slice.ofBits (bitsOf (it.take n)) ++
      Slice.ofBits (bitsOf ((it.drop n).take (k + 1)))) := by
    constructor
    · rw [Slice.append_assoc, ← Slice.ofBits_append, htake, Slice.append_bits, hb, List.nil_append]
      show (bitsOf _).length ≤ _
      rw [length_bitsOf, List.length_take, Nat.min_eq_left hlen]
      exact Nat.mul_le_of_le_div _ _ _ hcell
    · rw [Slice.append_refs, Slice.append_refs]
      show (b.refs ++ [] ++ []).length ≤ _
      rwa [List.append_nil, List.append_nil]
  have hwidth : (k + 1) * byteSz ≤ 256 := Nat.mul_le_of_le_div _ _ _ hcount
  rw [storeBytes, stored, Builder.stu, if_pos ⟨hwidth, hlt⟩, hbits, store_eq_ok hvalid]
  show Except.ok (_, (it.drop n).drop (k + 1)) = Except.ok (_, it.drop (n + (k + 1)))
  rw [Slice.append_assoc, ← Slice.ofBits_append, htake, List.drop_drop]

/-- The numbers of full width, as far as there are bytes for them. -/
theorem storeUint_stored (hit : ∀ byte ∈ it, byte < 2 ^ byteSz) (hb : b.bits = [])
    (hrefs : b.refs.length ≤ Builder.maxRefs) {k : ℕ} (hk : k < 3) :
    storeUint it.length (k + 1) (stored b it (min k (it.length / maxBytesInUint) * maxBytesInUint)) =
      .ok (stored b it (min (k + 1) (it.length / maxBytesInUint) * maxBytesInUint)) := by
  by_cases hsize : (k + 1) * maxBytesInUint ≤ it.length
  · have hdiv : k + 1 ≤ it.length / maxBytesInUint := (Nat.le_div_iff_mul_le (by decide)).mpr hsize
    have hroom : (k + 1) * maxBytesInUint ≤ maxBytesInCell :=
      (Nat.mul_le_mul_right _ (Nat.succ_le_of_lt hk)).trans (by decide)
    rw [storeUint, if_pos hsize, Nat.min_eq_left hdiv, Nat.min_eq_left ((Nat.le_succ k).trans hdiv)]
    rw [Nat.succ_mul] at hsize hroom ⊢
    exact storeBytes_stored hit hb hrefs (by decide) le_rfl hsize hroom
  · have hdiv : it.length / maxBytesInUint ≤ k :=
      Nat.le_of_lt_succ ((Nat.div_lt_iff_lt_mul (by decide)).mpr (Nat.lt_of_not_le hsize))
    rw [storeUint, if_neg hsize, Nat.min_eq_right hdiv, Nat.min_eq_right (hdiv.trans (Nat.le_succ k))]

theorem storeRest_stored (hit : ∀ byte ∈ it, byte < 2 ^ byteSz) (hb : b.bits = [])
    (hrefs : b.refs.length ≤ Builder.maxRefs) :
    storeRest it.length (stored b it (min 3 (it.length / maxBytesInUint) * maxBytesInUint)) =
      .ok (stored b it (min it.length maxBytesInCell)) := by
  -- the numbers of full width are those that fit the bytes of this cell
  have hfull : min 3 (it.length / maxBytesInUint) * maxBytesInUint +
      min it.length maxBytesInCell % maxBytesInUint = min it.length maxBytesInCell := by
    simp only [show maxBytesInUint = 32 from rfl, show maxBytesInCell = 127 from rfl]
    omega
  unfold storeRest
  dsimp only
  by_cases hrest : min it.length maxBytesInCell % maxBytesInUint = 0
  · rw [hrest, Nat.add_zero] at hfull
    rw [if_neg (not_not_intro hrest), hfull]
  · have hstore := storeBytes_stored (n := min 3 (it.length / maxBytesInUint) * maxBytesInUint) hit hb
      hrefs hrest (Nat.mod_lt _ (by decide)).le (hfull.trans_le (Nat.min_le_left _ _))
      (hfull.trans_le (Nat.min_le_right _ _))
    rw [if_pos hrest, hstore, hfull]

/-- The bytes of a cell, behind what the builder holds already. -/
theorem store_cell (hit : ∀ byte ∈ it, byte < 2 ^ byteSz) (hb : b.bits = [])
    (hrefs : b.refs.length ≤ Builder.maxRefs) :
    ((storeUint it.length 1 (b, it)).bind fun s => (storeUint it.length 2 s).bind fun s =>
      (storeUint it.length 3 s).bind fun s => (storeRest it.length s).map fun s => s.1.endc) =
      .ok (.mk (bitsOf (it.take maxBytesInCell)) b.refs) := by
  have hstart : (b, it) = stored b it (min 0 (it.length / maxBytesInUint) * maxBytesInUint) := by
    rw [Nat.zero_min, Nat.zero_mul]
    show (b, it) = (b ++ Slice.empty, it)
    rw [Slice.append_empty]
  rw [hstart, storeUint_stored hit hb hrefs (by decide), Except.bind,
    storeUint_stored hit hb hrefs (by decide), Except.bind,
    storeUint_stored hit hb hrefs (by decide), Except.bind, storeRest_stored hit hb hrefs]
  show Except.ok (Cell.mk (b.bits ++ bitsOf (it.take (min it.length maxBytesInCell))) (b.refs ++ [])) = _
  rw [hb, List.nil_append, List.append_nil, Nat.min_comm, ← List.take_eq_take_min]

theorem stringIntoCells_last (hit : ∀ byte ∈ it, byte < 2 ^ byteSz)
    (hsize : it.length ≤ maxBytesInCell) : stringIntoCells it = .ok (.mk (bitsOf it) []) := by
  have hcell := store_cell (b := .empty) hit rfl (Nat.zero_le _)
  rw [List.take_of_length_le hsize] at hcell
  rw [stringIntoCells]
  rw [dif_neg (Nat.not_lt_of_le hsize)]
  exact hcell

/-- The first cell of a longer string refers to the rest. -/
theorem stringIntoCells_next (hit : ∀ byte ∈ it, byte < 2 ^ byteSz) {nextCell : Cell}
    (hsize : maxBytesInCell < it.length)
    (hnext : stringIntoCells (it.drop maxBytesInCell) = .ok nextCell) :
    stringIntoCells it = .ok (.mk (bitsOf (it.take maxBytesInCell)) [nextCell]) := by
  have hcell := store_cell (b := ⟨[], [nextCell]⟩) hit rfl (Nat.succ_le_succ (Nat.zero_le _))
  rw [stringIntoCells]
  rw [dif_pos hsize, hnext]
  exact hcell

end Cells

/-! ## The cells of a sequence of bytes -/

section Bytes

/-- What `assign` does with the builders. -/
def finish (s : TupleStack Builder × ℕ) : Except ContainerError Cell :=
  match s.1.top with
  | none => .error .emptyContainer
  | some b => s.1.pop.bind fun bldrs => link bldrs.size bldrs b.endc

/-- The loop over the bytes. -/
def assignBytes (bytes : List ℕ) (s : TupleStack Builder × ℕ) :
    Except ContainerError (TupleStack Builder × ℕ) :=
  bytes.foldlM (assignElem (.uint byteSz)) s

theorem assign_eq_finish (bytes : List ℕ) :
    assign (.uint byteSz) bytes =
      (assignBytes bytes (ofList [.empty], maxCellBits)).bind finish := rfl

variable {bytes bytes' : List ℕ} {byte : ℕ} {b : Builder} {bs : List Builder} {rem : ℕ}

theorem assignBytes_append (s : TupleStack Builder × ℕ) :
    assignBytes (bytes ++ bytes') s = (assignBytes bytes s).bind (assignBytes bytes') :=
  List.foldlM_append

theorem assignBytes_cons (s : TupleStack Builder × ℕ) :
    assignBytes (byte :: bytes) s =
      (put (Builder.stu byte byteSz) byteSz s).bind (assignBytes bytes) :=
  List.foldlM_cons

theorem stu_byte (hbyte : byte < 2 ^ byteSz) (b : Builder) (_ : b.Valid) :
    b.stu byte byteSz = b.store (.ofBits (natBits byteSz byte)) :=
  if_pos ⟨by decide, hbyte⟩

/-- Bytes for which there is room go into the current builder. -/
theorem assignBytes_here (hbytes : ∀ byte ∈ bytes, byte < 2 ^ byteSz) (hrefs : b.refs = [])
    (hrem : b.bits.length + rem ≤ maxCellBits) (hroom : bytes.length * byteSz ≤ rem) :
    assignBytes bytes (ofList (b :: bs), rem) =
      .ok (ofList ((b ++ Slice.ofBits (bitsOf bytes)) :: bs), rem - bytes.length * byteSz) := by
  induction bytes generalizing b rem with
  | nil =>
    show Except.ok (ofList (b :: bs), rem) = Except.ok (ofList ((b ++ Slice.empty) :: bs), _)
    rw [Slice.append_empty, List.length_nil, Nat.zero_mul, Nat.sub_zero]
  | cons byte bytes ih =>
    rw [List.length_cons, Nat.succ_mul] at hroom
    have hbyte := hbytes byte List.mem_cons_self
    have hlen : b.bits.length + (natBits byteSz byte).length ≤ maxCellBits := by
      rw [length_natBits]
      omega
    have hlen' : (b ++ Slice.ofBits (natBits byteSz byte)).bits.length = b.bits.length + byteSz := by
      rw [Slice.append_bits, List.length_append]
      exact congrArg _ (length_natBits byteSz byte)
    have hrefs' : (b ++ Slice.ofBits (natBits byteSz byte)).refs = [] := by
      rw [Slice.append_refs, hrefs]
      rfl
    have hrest : rem - byteSz - bytes.length * byteSz = rem - (byte :: bytes).length * byteSz := by
      rw [List.length_cons, Nat.succ_mul]
      omega
    rw [assignBytes_cons, put_here (stu_byte hbyte) hrefs hlen (by omega), Except.bind,
      ih (fun byte' h => hbytes byte' (List.mem_cons_of_mem _ h)) hrefs' (by rw [hlen']; omega)
        (by omega), Slice.append_assoc, hrest]
    rfl

/-- A byte that does not fit begins a new builder. -/
theorem assignBytes_new (hbyte : byte < 2 ^ byteSz) (hrem : rem < byteSz)
    (hroom : bs.length ≤ maxTuple) :
    assignBytes (byte :: bytes) (ofList bs, rem) =
      assignBytes (byte :: bytes) (ofList (.empty :: bs), maxCellBits) := by
  have hlen : (natBits byteSz byte).length ≤ maxCellBits := by
    rw [length_natBits]
    decide
  have hlen' : (Slice.empty.bits).length + (natBits byteSz byte).length ≤ maxCellBits := by
    rw [length_natBits]
    decide
  rw [assignBytes_cons, assignBytes_cons, put_new (stu_byte hbyte) hlen hrem hroom,
    put_here (stu_byte hbyte) rfl hlen' (by decide), Slice.empty_append]

/-- A full cell of bytes, and the byte behind it in a new builder. -/
theorem assignBytes_full (bs : List Builder) (hbytes : ∀ byte ∈ bytes, byte < 2 ^ byteSz)
    (hsize : maxBytesInCell < bytes.length) :
    ∃ byte rest rem, bytes.drop maxBytesInCell = byte :: rest ∧ rem < byteSz ∧
      assignBytes bytes (ofList (.empty :: bs), maxCellBits) =
        assignBytes (byte :: rest)
          (ofList (Slice.ofBits (bitsOf (bytes.take maxBytesInCell)) :: bs), rem) := by
  have htake : (bytes.take maxBytesInCell).length = maxBytesInCell := by
    rw [List.length_take, Nat.min_eq_left hsize.le]
  have hroom : (bytes.take maxBytesInCell).length * byteSz ≤ maxCellBits := by
    rw [htake]
    decide
  have hne : bytes.drop maxBytesInCell ≠ [] := fun hnil =>
    Nat.not_le_of_lt hsize (List.drop_eq_nil_iff.mp hnil)
  obtain ⟨byte, rest, hrest⟩ := List.exists_cons_of_ne_nil hne
  refine ⟨byte, rest, maxCellBits - maxBytesInCell * byteSz, hrest, by decide, ?_⟩
  conv_lhs => rw [← List.take_append_drop maxBytesInCell bytes]
  rw [assignBytes_append, assignBytes_here (b := .empty)
    (fun b h => hbytes b (List.mem_of_mem_take h)) rfl (Nat.zero_add _).le hroom, hrest, htake,
    Slice.empty_append]
  rfl

/-- **The loops make the cells of the string**, if the stack has room for a builder each. The
induction is on the bytes of the other cells. -/
theorem finish_assignBytes (n : ℕ) : ∀ {bytes : List ℕ} (bs : List Builder), bytes.length ≤ n →
    (∀ byte ∈ bytes, byte < 2 ^ byteSz) →
    bs.length * maxBytesInCell + bytes.length ≤ (maxTuple + 1) * maxBytesInCell →
    ∃ cl, stringIntoCells bytes = .ok cl ∧
      (assignBytes bytes (ofList (.empty :: bs), maxCellBits)).bind finish =
        link bs.length (ofList bs) cl := by
  induction n using Nat.strong_induction_on with
  | _ n ih =>
    intro bytes bs hn hbytes hroom
    by_cases hsize : bytes.length ≤ maxBytesInCell
    · refine ⟨_, stringIntoCells_last hbytes hsize, ?_⟩
      have hfits : bytes.length * byteSz ≤ maxCellBits := Nat.mul_le_of_le_div _ _ _ hsize
      rw [assignBytes_here hbytes rfl (Nat.zero_add _).le hfits, Slice.empty_append]
      show (ofList (_ :: bs)).pop.bind (fun bldrs => link bldrs.size bldrs _) = _
      rw [pop_ofList_cons, Except.bind, size_ofList]
      rfl
    · rw [Nat.not_le] at hsize
      obtain ⟨byte, rest, rem, hrest, hrem, hfull⟩ := assignBytes_full bs hbytes hsize
      have hdrop : (bytes.drop maxBytesInCell).length = bytes.length - maxBytesInCell :=
        List.length_drop
      have hdropped : ∀ byte' ∈ bytes.drop maxBytesInCell, byte' < 2 ^ byteSz :=
        fun byte' h => hbytes byte' (List.mem_of_mem_drop h)
      have hcell : 0 < maxBytesInCell := by decide
      have hslots : (Slice.ofBits (bitsOf (bytes.take maxBytesInCell)) :: bs).length ≤ maxTuple := by
        rw [List.length_cons]
        simp only [show maxBytesInCell = 127 from rfl, show maxTuple = 255 from rfl] at hroom hsize ⊢
        omega
      obtain ⟨nextCell, hnext, hlink⟩ := ih (bytes.length - maxBytesInCell) (by omega)
        (Slice.ofBits (bitsOf (bytes.take maxBytesInCell)) :: bs) hdrop.le hdropped (by
          rw [List.length_cons, Nat.succ_mul, hdrop]
          omega)
      refine ⟨_, stringIntoCells_next hbytes hsize hnext, ?_⟩
      have hbyte : byte < 2 ^ byteSz := hdropped byte (hrest ▸ List.mem_cons_self)
      rw [hfull, assignBytes_new hbyte hrem hslots, ← hrest, hlink, List.length_cons]
      refine link_cons _ _ rfl ?_
      show (bitsOf _).length ≤ _
      rw [length_bitsOf, List.length_take, Nat.min_eq_left hsize.le]
      decide

/-- A string for whose cells the stack has no room. -/
theorem assignBytes_overflow (n : ℕ) : ∀ {bytes : List ℕ} {bs : List Builder}, bytes.length ≤ n →
    (∀ byte ∈ bytes, byte < 2 ^ byteSz) → bs.length ≤ maxTuple →
    (maxTuple + 1) * maxBytesInCell < bs.length * maxBytesInCell + bytes.length →
    assignBytes bytes (ofList (.empty :: bs), maxCellBits) = .error .tupleOverflow := by
  induction n using Nat.strong_induction_on with
  | _ n ih =>
    intro bytes bs hn hbytes hslots hover
    have hsize : maxBytesInCell < bytes.length := by
      simp only [show maxBytesInCell = 127 from rfl, show maxTuple = 255 from rfl] at hover hslots ⊢
      omega
    obtain ⟨byte, rest, rem, hrest, hrem, hfull⟩ := assignBytes_full bs hbytes hsize
    have hdrop : (bytes.drop maxBytesInCell).length = bytes.length - maxBytesInCell :=
      List.length_drop
    have hdropped : ∀ byte' ∈ bytes.drop maxBytesInCell, byte' < 2 ^ byteSz :=
      fun byte' h => hbytes byte' (List.mem_of_mem_drop h)
    have hbyte : byte < 2 ^ byteSz := hdropped byte (hrest ▸ List.mem_cons_self)
    rw [hfull]
    by_cases hroom : (Slice.ofBits (bitsOf (bytes.take maxBytesInCell)) :: bs).length ≤ maxTuple
    · have hcell : 0 < maxBytesInCell := by decide
      rw [assignBytes_new hbyte hrem hroom, ← hrest]
      refine ih (bytes.length - maxBytesInCell) (by omega) hdrop.le hdropped hroom ?_
      rw [List.length_cons, Nat.succ_mul bs.length, hdrop]
      omega
    · rw [assignBytes_cons, put_overflow hrem (Nat.lt_of_not_le hroom)]
      rfl

theorem assign_bytes_overflow (hbytes : ∀ byte ∈ bytes, byte < 2 ^ byteSz)
    (hsize : (maxTuple + 1) * maxBytesInCell < bytes.length) :
    assign (.uint byteSz) bytes = .error .tupleOverflow := by
  rw [assign_eq_finish, assignBytes_overflow bytes.length le_rfl hbytes (Nat.zero_le _)
    (by rw [List.length_nil, Nat.zero_mul, Nat.zero_add]; exact hsize)]
  rfl

/-- **Compile-time strings equal run-time bytes** exactly as long as the stack of builders has room
for all cells, which it has for 32512 bytes. For more bytes `assign` throws. -/
theorem stringIntoCells_eq_iff (bytes : List ℕ) (hbytes : ∀ byte ∈ bytes, byte < 256) :
    ((∃ cl, stringIntoCells bytes = .ok cl ∧ assign (.uint 8) bytes = .ok cl) ↔
      bytes.length ≤ 32512) ∧
      (32512 < bytes.length → assign (.uint 8) bytes = .error .tupleOverflow) := by
  have hover (hsize : 32512 < bytes.length) : assign (.uint 8) bytes = .error .tupleOverflow :=
    assign_bytes_overflow hbytes hsize
  refine ⟨⟨?_, fun hsize => ?_⟩, hover⟩
  · rintro ⟨cl, -, hassign⟩
    by_contra hsize
    cases (hover (Nat.lt_of_not_le hsize)).symm.trans hassign
  · obtain ⟨cl, hcl, hlink⟩ := finish_assignBytes bytes.length [] le_rfl hbytes
      (by rw [List.length_nil, Nat.zero_mul, Nat.zero_add]; exact hsize)
    exact ⟨cl, hcl, (assign_eq_finish bytes).trans hlink⟩

end Bytes

section Example

/-- 200 bytes, in two cells. -/
theorem stringIntoCells_eq_iff_range :
    ∃ cl, stringIntoCells (List.range 200) = .ok cl ∧
      assign (.uint 8) (List.range 200 : List ℕ) = .ok cl := by
  have hbytes : ∀ byte ∈ List.range 200, byte < 256 := fun byte hbyte =>
    (List.mem_range.mp hbyte).trans (by decide)
  have hlen : (List.range 200).length ≤ 32512 := by
    rw [List.length_range]
    decide
  exact (stringIntoCells_eq_iff (List.range 200) hbytes).1.mpr hlen

/-- For 32513 zeros, `assign` would have to push a builder on a full stack. -/
theorem not_stringIntoCells_eq_zeros :
    ¬ ∃ cl, stringIntoCells (List.replicate 32513 0) = .ok cl ∧
      assign (.uint 8) (List.replicate 32513 (0 : ℕ)) = .ok cl := by
  rintro ⟨cl, -, hassign⟩
  have hlen : (List.replicate 32513 (0 : ℕ)).length = 32513 := List.length_replicate
  have hzeros : ∀ byte ∈ List.replicate 32513 (0 : ℕ), byte < 2 ^ byteSz := by
    intro byte hbyte
    rw [List.eq_of_mem_replicate hbyte]
    decide
  have hover := assign_bytes_overflow hzeros (lt_of_lt_of_eq (by decide) hlen.symm)
  cases hover.symm.trans hassign

end Example

end TVMCompiler.Sdk
