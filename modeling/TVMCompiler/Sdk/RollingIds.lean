import Mathlib.Data.Nat.Bitwise
import Mathlib.Order.Bounds.Defs
import TVMCompiler.Lib.Bits

/-!
# The rolling ids replay protection

Each external message carries an id. The protection stores the smallest id it has not accepted
yet and a mask of 32 bits for the ids from there on, packed into one word. When that smallest id
arrives, the window moves on by the number of trailing ones of the mask.

## Main definitions

* `check`, `getNextIds`: the methods of `rolling_ids`
* `checkAll`: messages checked one after another
* `Window`: what the packed word says about the accepted ids

## Main results

* `Window.check`: an accepted id keeps the invariant
* `rolling_ids_spec`: each id is accepted once, and exactly the free ids of the window are accepted
-/

namespace TVMCompiler.Sdk.RollingIds

open Lib

/-- `__builtin_tvm_sdcnttrail1`: the number of ones at the end of a slice. -/
def sdcnttrail1 (sl : List Bool) : ℕ := (sl.reverse.takeWhile fun b => b).length

/-- `start_id`, the upper half of the stored word. -/
def startId (last : ℕ) : ℕ := last >>> 32

/-- `bitmask`, the lower half. -/
def bitmask (last : ℕ) : ℕ := last &&& 0xFFFFFFFF

def init : ℕ := 0

/-- `rolling_ids::check`. -/
def check (msgId last : ℕ) : Option ℕ :=
  if msgId < startId last ∨ msgId ≥ startId last + 32 then none
  else
    let bitnum := msgId - startId last
    if (bitmask last >>> bitnum) &&& 1 = 1 then none
    else
      let mask := bitmask last ||| 1 <<< bitnum
      if startId last = msgId then
        -- the buffer rolls to the next id that has not been registered
        let n := sdcnttrail1 (natBits 32 mask)
        some ((startId last + n) <<< 32 ||| mask >>> n)
      else some (startId last <<< 32 ||| mask)

/-- `dict_array<uint32>::push_back`: an id that does not fit 32 bits cannot be stored. -/
def pushId (rv : List ℕ) (id : ℕ) : Option (List ℕ) :=
  if id < 2 ^ 32 then some (rv ++ [id]) else none

/-- `rolling_ids::get_next_ids`. -/
def getNextIds (last : ℕ) : Option (List ℕ) :=
  (List.range 32).foldlM
    (fun rv i => if (bitmask last >>> i) &&& 1 = 1 then some rv else pushId rv (startId last + i)) []

/-- The state after the messages with the given ids, and the ids accepted among them: a message
that fails changes no state. -/
def checkAll (ids : List ℕ) : ℕ × List ℕ :=
  ids.foldl (fun s id => match check id s.1 with
    | some last => (last, s.2 ++ [id])
    | none => s) (init, [])

/-! ## Words and bits -/

theorem startId_pack (start : ℕ) {mask : ℕ} (h : mask < 2 ^ 32) :
    startId (start <<< 32 ||| mask) = start := by
  rw [startId, ← Nat.shiftLeft_add_eq_or_of_lt h, Nat.shiftLeft_eq, Nat.shiftRight_eq_div_pow]
  omega

theorem bitmask_eq_mod (last : ℕ) : bitmask last = last % 2 ^ 32 :=
  Nat.and_two_pow_sub_one_eq_mod last 32

theorem bitmask_pack (start : ℕ) {mask : ℕ} (h : mask < 2 ^ 32) :
    bitmask (start <<< 32 ||| mask) = mask := by
  rw [bitmask_eq_mod, ← Nat.shiftLeft_add_eq_or_of_lt h, Nat.shiftLeft_eq]
  omega

theorem bitmask_lt (last : ℕ) : bitmask last < 2 ^ 32 := by
  rw [bitmask_eq_mod]
  exact Nat.mod_lt _ (by norm_num)

theorem shiftRight_and_one (mask i : ℕ) : (mask >>> i) &&& 1 = 1 ↔ mask.testBit i = true := by
  rw [Nat.and_one_is_mod, Nat.testBit_eq_decide_div_mod_eq, Nat.shiftRight_eq_div_pow,
    decide_eq_true_eq]

theorem testBit_set (mask bitnum i : ℕ) :
    (mask ||| 1 <<< bitnum).testBit i = true ↔ mask.testBit i = true ∨ i = bitnum := by
  rw [Nat.testBit_or, Bool.or_eq_true, Nat.one_shiftLeft, Nat.testBit_two_pow, decide_eq_true_eq,
    eq_comm (a := bitnum)]

theorem set_lt {mask bitnum : ℕ} (h : mask < 2 ^ 32) (hb : bitnum < 32) :
    mask ||| 1 <<< bitnum < 2 ^ 32 := by
  refine Nat.or_lt_two_pow h ?_
  rw [Nat.one_shiftLeft]
  exact Nat.pow_lt_pow_right (by norm_num) hb

/-- The trailing ones end at the first zero, or at the end of the slice. -/
theorem sdcnttrail1_natBits (w mask : ℕ) :
    sdcnttrail1 (natBits w mask) ≤ w ∧
      (∀ i < sdcnttrail1 (natBits w mask), mask.testBit i = true) ∧
      (sdcnttrail1 (natBits w mask) < w →
        mask.testBit (sdcnttrail1 (natBits w mask)) = false) := by
  induction w generalizing mask with
  | zero => simp [natBits, sdcnttrail1]
  | succ w ih =>
    by_cases hodd : mask % 2 = 1
    · have hcount : sdcnttrail1 (natBits (w + 1) mask) = sdcnttrail1 (natBits w (mask / 2)) + 1 := by
        simp [sdcnttrail1, natBits, hodd]
      obtain ⟨hle, hones, hzero⟩ := ih (mask / 2)
      rw [hcount]
      refine ⟨Nat.succ_le_succ hle, fun i hi => ?_, fun hlt => ?_⟩
      · cases i with
        | zero => simpa [Nat.testBit_zero] using hodd
        | succ i =>
          rw [Nat.testBit_succ]
          exact hones i (Nat.lt_of_succ_lt_succ hi)
      · rw [Nat.testBit_succ]
        exact hzero (Nat.lt_of_succ_lt_succ hlt)
    · have hcount : sdcnttrail1 (natBits (w + 1) mask) = 0 := by
        simp [sdcnttrail1, natBits, hodd]
      rw [hcount]
      refine ⟨Nat.zero_le _, fun i hi => absurd hi (Nat.not_lt_zero i), fun _ => ?_⟩
      simpa [Nat.testBit_zero] using hodd

/-! ## The window -/

/-- Everything below the window has been accepted, nothing above it has, and within it the mask
tells which ids have been. The first id of the window is free. -/
structure Window (accepted : List ℕ) (last : ℕ) : Prop where
  below : ∀ id < startId last, id ∈ accepted
  inside : ∀ i < 32, (bitmask last).testBit i = true ↔ startId last + i ∈ accepted
  above : ∀ id ∈ accepted, id < startId last + 32
  first : startId last ∉ accepted

theorem window_init : Window [] init where
  below id h := absurd h (Nat.not_lt_zero id)
  inside i _ := by simp [bitmask, init]
  above id h := absurd h List.not_mem_nil
  first := List.not_mem_nil

variable {accepted : List ℕ} {last last' msgId : ℕ}

/-- What `check` makes of an id in the window that is not marked. -/
theorem check_eq_some (h : check msgId last = some last') :
    ∃ bitnum < 32, msgId = startId last + bitnum ∧ (bitmask last).testBit bitnum = false ∧
      ((0 < bitnum ∧ last' = startId last <<< 32 ||| (bitmask last ||| 1 <<< bitnum)) ∨
        (bitnum = 0 ∧ ∃ n, n = sdcnttrail1 (natBits 32 (bitmask last ||| 1 <<< bitnum)) ∧
          last' = (startId last + n) <<< 32 ||| (bitmask last ||| 1 <<< bitnum) >>> n)) := by
  unfold check at h
  split at h
  · cases h
  rename_i hwindow
  have hge : startId last ≤ msgId := by omega
  obtain ⟨bitnum, rfl⟩ := Nat.exists_eq_add_of_le hge
  simp only [Nat.add_sub_cancel_left, shiftRight_and_one] at h
  split at h
  · cases h
  rename_i hfree
  refine ⟨bitnum, by omega, rfl, by simpa using hfree, ?_⟩
  split at h
  · rename_i hfirst
    obtain rfl : bitnum = 0 := by omega
    exact Or.inr ⟨rfl, _, rfl, (Option.some.inj h).symm⟩
  · rename_i hnot
    exact Or.inl ⟨by omega, (Option.some.inj h).symm⟩

/-- An id is accepted exactly if it lies in the window and was not accepted before. -/
theorem Window.isSome_check (hw : Window accepted last) :
    (check msgId last).isSome ↔
      msgId ∉ accepted ∧ startId last ≤ msgId ∧ msgId < startId last + 32 := by
  constructor
  · intro h
    obtain ⟨last', hcheck⟩ := Option.isSome_iff_exists.mp h
    obtain ⟨bitnum, hlt, rfl, hfree, -⟩ := check_eq_some hcheck
    refine ⟨fun hmem => ?_, by omega, by omega⟩
    rw [(hw.inside bitnum hlt).mpr hmem] at hfree
    cases hfree
  · rintro ⟨hnew, hge, hlt⟩
    obtain ⟨bitnum, rfl⟩ := Nat.exists_eq_add_of_le hge
    have hfree : ¬ (bitmask last).testBit bitnum = true := fun h =>
      hnew ((hw.inside bitnum (by omega)).mp h)
    unfold check
    rw [if_neg (by omega)]
    simp only [Nat.add_sub_cancel_left, shiftRight_and_one, if_neg hfree]
    split <;> rfl

/-- **An accepted id keeps the invariant**, also when the window rolls. -/
theorem Window.check (hw : Window accepted last) (h : check msgId last = some last') :
    Window (accepted ++ [msgId]) last' := by
  obtain ⟨bitnum, hlt, rfl, -, hcase⟩ := check_eq_some h
  have hmask := set_lt (bitmask_lt last) hlt
  -- the new mask marks the new id besides the old ones
  have hmarked (i : ℕ) (hi : i < 32) : (bitmask last ||| 1 <<< bitnum).testBit i = true ↔
      startId last + i ∈ accepted ++ [startId last + bitnum] := by
    rw [testBit_set, hw.inside i hi, List.mem_append, List.mem_singleton, Nat.add_left_cancel_iff]
  have habove : ∀ id ∈ accepted ++ [startId last + bitnum], id < startId last + 32 := by
    intro id hid
    rcases List.mem_append.mp hid with hid | hid
    · exact hw.above id hid
    · obtain rfl := List.mem_singleton.mp hid
      omega
  rcases hcase with ⟨hpos, rfl⟩ | ⟨rfl, n, hn, rfl⟩
  · constructor
    · intro id hid
      rw [startId_pack _ hmask] at hid
      exact List.mem_append_left _ (hw.below id hid)
    · intro i hi
      rw [startId_pack _ hmask, bitmask_pack _ hmask]
      exact hmarked i hi
    · rwa [startId_pack _ hmask]
    · rw [startId_pack _ hmask, List.mem_append, List.mem_singleton]
      rintro (hmem | heq)
      · exact hw.first hmem
      · omega
  · obtain ⟨hle, hones, hzero⟩ := sdcnttrail1_natBits 32 (bitmask last ||| 1 <<< 0)
    rw [← hn] at hle hones hzero
    have hshift : (bitmask last ||| 1 <<< 0) >>> n < 2 ^ 32 :=
      lt_of_le_of_lt (Nat.shiftRight_le _ _) hmask
    constructor
    · intro id hid
      rw [startId_pack _ hshift] at hid
      rcases Nat.lt_or_ge id (startId last) with hbelow | hge
      · exact List.mem_append_left _ (hw.below id hbelow)
      · obtain ⟨i, rfl⟩ := Nat.exists_eq_add_of_le hge
        exact (hmarked i (by omega)).mp (hones i (by omega))
    · intro i hi
      rw [startId_pack _ hshift, bitmask_pack _ hshift, Nat.testBit_shiftRight, Nat.add_assoc]
      by_cases hin : n + i < 32
      · exact hmarked (n + i) hin
      · -- bits that were shifted in are zero, and their ids lie above the old window
        have hclear : (bitmask last ||| 1 <<< 0).testBit (n + i) = false :=
          Nat.testBit_lt_two_pow (lt_of_lt_of_le hmask
            (Nat.pow_le_pow_right (by norm_num) (by omega)))
        rw [hclear]
        refine iff_of_false (by simp) fun hmem => ?_
        have := habove _ hmem
        omega
    · intro id hid
      rw [startId_pack _ hshift]
      have := habove id hid
      omega
    · rw [startId_pack _ hshift]
      intro hmem
      by_cases hn32 : n < 32
      · rw [← hmarked n hn32, hzero hn32] at hmem
        cases hmem
      · have := habove _ hmem
        omega

/-! ## Sequences of messages -/

theorem checkAll_concat (ids : List ℕ) (id : ℕ) :
    checkAll (ids ++ [id]) = match check id (checkAll ids).1 with
      | some last => (last, (checkAll ids).2 ++ [id])
      | none => checkAll ids := by
  simp [checkAll]

/-- The invariant holds after every sequence of messages, and no id has been accepted twice. -/
theorem window_checkAll (ids : List ℕ) :
    Window (checkAll ids).2 (checkAll ids).1 ∧ (checkAll ids).2.Nodup := by
  induction ids using List.reverseRecOn with
  | nil => exact ⟨window_init, List.nodup_nil⟩
  | append_singleton ids id ih =>
    obtain ⟨hw, hnodup⟩ := ih
    rw [checkAll_concat]
    cases hcheck : check id (checkAll ids).1 with
    | none => exact ⟨hw, hnodup⟩
    | some last =>
      have hnew : id ∉ (checkAll ids).2 := (hw.isSome_check.mp (by rw [hcheck]; rfl)).1
      exact ⟨hw.check hcheck, List.nodup_append.mpr ⟨hnodup, List.nodup_singleton _, by
        intro a ha b hb
        obtain rfl := List.mem_singleton.mp hb
        rintro rfl
        exact hnew ha⟩⟩

/-- The ids listed for the first `n` bits of the mask. -/
theorem foldlM_pushId (hstart : startId last < 2 ^ 32 - 32) (n : ℕ) (hn : n ≤ 32) :
    (List.range n).foldlM (fun rv i =>
        if (bitmask last >>> i) &&& 1 = 1 then some rv else pushId rv (startId last + i)) [] =
      some (((List.range n).filter fun i => ¬ (bitmask last).testBit i = true).map
        (startId last + ·)) := by
  induction n with
  | zero => rfl
  | succ n ih =>
    rw [List.range_succ, List.foldlM_append, ih (by omega), List.filter_append, List.map_append]
    simp only [Option.bind_eq_bind, Option.bind_some, List.foldlM_cons, List.foldlM_nil,
      shiftRight_and_one]
    by_cases hbit : (bitmask last).testBit n = true
    · rw [if_pos hbit]
      simp [hbit]
    · have hfits : startId last + n < 2 ^ 32 := by omega
      rw [if_neg hbit, pushId, if_pos hfits]
      simp [hbit]

theorem getNextIds_eq (hstart : startId last < 2 ^ 32 - 32) :
    getNextIds last = some (((List.range 32).filter fun i => ¬ (bitmask last).testBit i = true).map
      (startId last + ·)) :=
  foldlM_pushId hstart 32 (le_refl 32)

/-- **Rolling ids accept each id exactly once.** After any sequence of messages the window starts
at the smallest id never accepted, a new id is accepted exactly if it lies in the window, and
`get_next_ids` lists these ids in ascending order. -/
theorem rolling_ids_spec (ids : List ℕ) (hstart : startId (checkAll ids).1 < 2 ^ 32 - 32) :
    (checkAll ids).2.Nodup ∧
      IsLeast {id | id ∉ (checkAll ids).2} (startId (checkAll ids).1) ∧
      (∀ id ∈ (checkAll ids).2, check id (checkAll ids).1 = none) ∧
      (∀ id ∉ (checkAll ids).2, (check id (checkAll ids).1).isSome ↔
        startId (checkAll ids).1 ≤ id ∧ id < startId (checkAll ids).1 + 32) ∧
      ∃ next, getNextIds (checkAll ids).1 = some next ∧ next.Pairwise (· < ·) ∧
        ∀ id, id ∈ next ↔ (check id (checkAll ids).1).isSome := by
  obtain ⟨hw, hnodup⟩ := window_checkAll ids
  refine ⟨hnodup, ⟨hw.first, fun id hid => ?_⟩, fun id hid => ?_, fun id hid => ?_,
    _, getNextIds_eq hstart, ?_, fun id => ?_⟩
  · by_contra hlt
    exact hid (hw.below id (by omega))
  · cases hcheck : check id (checkAll ids).1 with
    | none => rfl
    | some last => exact absurd hid (hw.isSome_check.mp (by rw [hcheck]; rfl)).1
  · rw [hw.isSome_check]
    exact and_iff_right hid
  · refine List.pairwise_map.mpr ((List.pairwise_lt_range.filter _).imp fun hij => ?_)
    exact Nat.add_lt_add_left hij _
  · rw [hw.isSome_check, List.mem_map]
    constructor
    · rintro ⟨i, hi, rfl⟩
      obtain ⟨hrange, hbit⟩ := List.mem_filter.mp hi
      have hi32 := List.mem_range.mp hrange
      refine ⟨fun hmem => ?_, by omega, by omega⟩
      simp [(hw.inside i hi32).mpr hmem] at hbit
    · rintro ⟨hnew, hge, hlt⟩
      obtain ⟨i, rfl⟩ := Nat.exists_eq_add_of_le hge
      have hbit : ¬ (bitmask (checkAll ids).1).testBit i = true := fun h =>
        hnew ((hw.inside i (by omega)).mp h)
      exact ⟨i, List.mem_filter.mpr ⟨List.mem_range.mpr (by omega), by simpa using hbit⟩, rfl⟩

/-- The second message fills the gap below the first one, so the window moves on by two. -/
theorem rolling_ids_spec_gap :
    (checkAll [1, 0, 1, 40]).2.Nodup ∧
      IsLeast {id | id ∉ (checkAll [1, 0, 1, 40]).2} (startId (checkAll [1, 0, 1, 40]).1) ∧
      (∀ id ∈ (checkAll [1, 0, 1, 40]).2, check id (checkAll [1, 0, 1, 40]).1 = none) ∧
      (∀ id ∉ (checkAll [1, 0, 1, 40]).2, (check id (checkAll [1, 0, 1, 40]).1).isSome ↔
        startId (checkAll [1, 0, 1, 40]).1 ≤ id ∧ id < startId (checkAll [1, 0, 1, 40]).1 + 32) ∧
      ∃ next, getNextIds (checkAll [1, 0, 1, 40]).1 = some next ∧ next.Pairwise (· < ·) ∧
        ∀ id, id ∈ next ↔ (check id (checkAll [1, 0, 1, 40]).1).isSome :=
  rolling_ids_spec [1, 0, 1, 40] (by decide)

end TVMCompiler.Sdk.RollingIds
