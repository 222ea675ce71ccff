import Mathlib.Algebra.GroupWithZero.Nat
import Mathlib.Data.List.Nodup
import Mathlib.Data.List.Perm.Subperm
import TVMCompiler.Lib.Slices
import TVMCompiler.Stack.Fixup

/-!
# Trains

A `Train` splits the wanted stack into ranges that also occur, in the same or in the reverse
order, in the current one. Bringing these ranges to the top one after the other, the deepest
first, turns the current stack into the wanted one.

## Main definitions

* `Vagon`: a range of slots of the current stack
* `Train.build`: the search of the ranges
* `generateVagonXchgs`: the block moves

## Main results

* `Train.build_spec`: the search succeeds on two arrangements of the same registers, and the
  contents of the ranges make up the wanted stack
* `generateVagonXchgs_spec`: the moves lead to the wanted stack
* `Rearranges_iff`: when they do
-/

namespace TVMCompiler

open Lib

/-- A range of slots, `inverted` if the wanted stack holds it in the reverse order. -/
structure Vagon where
  deepIdx : ℕ
  topIdx : ℕ
  inverted : Bool
  topIdx_le : topIdx ≤ deepIdx
  deriving DecidableEq, Repr

namespace Vagon

def size (v : Vagon) : ℕ := v.deepIdx + 1 - v.topIdx

theorem size_pos (v : Vagon) : 0 < v.size := by
  have := v.topIdx_le
  unfold size
  omega

theorem topIdx_add_size (v : Vagon) : v.topIdx + v.size = v.deepIdx + 1 := by
  have := v.topIdx_le
  unfold size
  omega

/-- The slots of the range in the stack `s`, in the order of the wanted stack. -/
def content (s : Stack) (v : Vagon) : Stack :=
  let block := (s.drop v.topIdx).take v.size
  if v.inverted then block.reverse else block

theorem length_content {s : Stack} {v : Vagon} (h : v.deepIdx < s.length) :
    (v.content s).length = v.size := by
  have := v.topIdx_add_size
  unfold content
  split <;> simp <;> omega

/-- The ranges share no slot. -/
def Disjoint (v w : Vagon) : Prop := v.deepIdx < w.topIdx ∨ w.deepIdx < v.topIdx

end Vagon

/-! ## Building a train -/

/-- `Train::searchSrc`: the deepest slot with the register that is not yet acquired. -/
def searchSrc (src : Stack) (aquired : List Bool) (vreg : StackVreg) : Option ℕ :=
  (List.range src.length).reverse.find? fun j => src[j]? = some vreg ∧ aquired[j]? = some false

/-- `Train::goRight`: the number of slots on the way to the top in which the stacks agree. -/
def goRight (src dst : Stack) (aquired : List Bool) : ℕ → ℕ → ℕ
  | srcIdx + 1, dstIdx + 1 =>
    if dst[dstIdx]? = src[srcIdx]? ∧ aquired[srcIdx]? = some false then
      goRight src dst aquired srcIdx dstIdx + 1
    else 0
  | _, _ => 0

/-- `Train::goLeft`: the same on the way to the bottom of `src`. -/
def goLeft (src dst : Stack) (aquired : List Bool) : ℕ → ℕ → ℕ
  | srcIdx, dstIdx + 1 =>
    if srcIdx < src.length - 1 ∧ dst[dstIdx]? = src[srcIdx + 1]? ∧
        aquired[srcIdx + 1]? = some false then
      goLeft src dst aquired (srcIdx + 1) dstIdx + 1
    else 0
  | _, 0 => 0

/-- `Train::setAquired`. -/
def setAquired (aquired : List Bool) (v : Vagon) : List Bool :=
  aquired.mapIdx fun j b => if v.topIdx ≤ j ∧ j ≤ v.deepIdx then true else b

/-- The range that `Train::build` chooses for the slot `idxI` of `dst`. -/
def nextVagon (src dst : Stack) (aquired : List Bool) (foundSrc idxI : ℕ) : Vagon :=
  let rightLen := goRight src dst aquired foundSrc idxI
  let leftLen := goLeft src dst aquired foundSrc idxI
  if leftLen > rightLen then ⟨foundSrc + leftLen, foundSrc, true, Nat.le_add_right _ _⟩
  else ⟨foundSrc, foundSrc - rightLen, false, Nat.sub_le _ _⟩

/-- The loop of `Train::build` over the top slots of `dst` that no range covers yet. -/
def Train.build (src dst : Stack) : ℕ → List Bool → Option (List Vagon)
  | 0, _ => some []
  | idxI + 1, aquired => do
    let dstVreg ← dst[idxI]?
    let foundSrc ← searchSrc src aquired dstVreg
    let v := nextVagon src dst aquired foundSrc idxI
    let vagons ← Train.build src dst (idxI + 1 - v.size) (setAquired aquired v)
    return v :: vagons
termination_by n => n
decreasing_by exact Nat.sub_lt (Nat.succ_pos _) (Vagon.size_pos _)

section Build

variable {src dst : Stack} {aquired : List Bool}

theorem searchSrc_eq_some {v : StackVreg} {i : ℕ} (h : searchSrc src aquired v = some i) :
    src[i]? = some v ∧ aquired[i]? = some false := by
  simpa using List.find?_some h

theorem goRight_spec (i k : ℕ) :
    goRight src dst aquired i k ≤ i ∧ goRight src dst aquired i k ≤ k ∧
      ∀ j < goRight src dst aquired i k,
        dst[k - 1 - j]? = src[i - 1 - j]? ∧ aquired[i - 1 - j]? = some false := by
  induction i, k using goRight.induct src dst aquired with
  | case1 i k h ih =>
    obtain ⟨hi, hk, hslots⟩ := ih
    rw [goRight, if_pos h]
    refine ⟨by omega, by omega, fun j hj => ?_⟩
    cases j with
    | zero => exact h
    | succ j =>
      have := hslots j (by omega)
      rwa [show k + 1 - 1 - (j + 1) = k - 1 - j by omega,
        show i + 1 - 1 - (j + 1) = i - 1 - j by omega]
  | case2 i k h =>
    rw [goRight, if_neg h]
    simp
  | case3 i k h =>
    rw [goRight]
    · simp
    · exact h

theorem goLeft_spec (i k : ℕ) :
    goLeft src dst aquired i k ≤ k ∧
      ∀ j < goLeft src dst aquired i k, i + 1 + j < src.length ∧
        dst[k - 1 - j]? = src[i + 1 + j]? ∧ aquired[i + 1 + j]? = some false := by
  induction k generalizing i with
  | zero => simp [goLeft]
  | succ k ih =>
    rw [goLeft]
    split
    · rename_i h
      obtain ⟨hk, hslots⟩ := ih (i + 1)
      refine ⟨by omega, fun j hj => ?_⟩
      cases j with
      | zero => exact ⟨by omega, h.2⟩
      | succ j =>
        have := hslots j (by omega)
        rwa [show k + 1 - 1 - (j + 1) = k - 1 - j by omega,
          show i + 1 + (j + 1) = i + 1 + 1 + j by omega]
    · simp

/-- The chosen range is free and holds the wanted registers. -/
theorem nextVagon_spec {i k : ℕ} (hi : i < src.length) (hik : dst[k]? = src[i]?)
    (hfree : aquired[i]? = some false) :
    let v := nextVagon src dst aquired i k
    v.size ≤ k + 1 ∧ v.deepIdx < src.length ∧
      (∀ j, v.topIdx ≤ j → j ≤ v.deepIdx → aquired[j]? = some false) ∧
      v.content src = (dst.drop (k + 1 - v.size)).take v.size := by
  obtain ⟨hri, hrk, hright⟩ := @goRight_spec src dst aquired i k
  obtain ⟨hlk, hleft⟩ := @goLeft_spec src dst aquired i k
  intro v
  by_cases hlen : goLeft src dst aquired i k > goRight src dst aquired i k
  · have hv : v = ⟨i + goLeft src dst aquired i k, i, true, Nat.le_add_right _ _⟩ :=
      if_pos hlen
    have hsize : v.size = goLeft src dst aquired i k + 1 := by simp [hv, Vagon.size]; omega
    -- slot `i + j` of the source is slot `k - j` of the wanted stack
    have hslot (j : ℕ) (hj : j < v.size) :
        i + j < src.length ∧ dst[k - j]? = src[i + j]? ∧ aquired[i + j]? = some false := by
      cases j with
      | zero => exact ⟨hi, hik, hfree⟩
      | succ j =>
        have := hleft j (by omega)
        rwa [show k - (j + 1) = k - 1 - j by omega, show i + (j + 1) = i + 1 + j by omega]
    have hdeep := (hslot (v.size - 1) (by have := v.size_pos; omega)).1
    refine ⟨by omega, by simp only [hv]; omega, ?_, ?_⟩
    · intro j hij hjd
      simp only [hv] at hij hjd
      obtain ⟨d, rfl⟩ := Nat.exists_eq_add_of_le hij
      exact (hslot d (by omega)).2.2
    · have hcontent : v.content src = ((src.drop i).take v.size).reverse := by
        simp [Vagon.content, hv]
      have hlen' : ((src.drop i).take v.size).length = v.size := by simp; omega
      rw [hcontent]
      refine List.ext_getElem? fun j => ?_
      by_cases hj : j < v.size
      · rw [List.getElem?_reverse (by omega), hlen', List.getElem?_take_of_lt (by omega),
          List.getElem?_take_of_lt hj, List.getElem?_drop, List.getElem?_drop,
          ← (hslot (v.size - 1 - j) (by omega)).2.1]
        congr 1
        omega
      · rw [List.getElem?_eq_none (by simp; omega), List.getElem?_eq_none (by simp; omega)]
  · have hv : v = ⟨i, i - goRight src dst aquired i k, false, Nat.sub_le _ _⟩ := if_neg hlen
    have hsize : v.size = goRight src dst aquired i k + 1 := by simp [hv, Vagon.size]; omega
    have hslot (j : ℕ) (hj : j < v.size) :
        dst[k - j]? = src[i - j]? ∧ aquired[i - j]? = some false := by
      cases j with
      | zero => exact ⟨hik, hfree⟩
      | succ j =>
        have := hright j (by omega)
        rwa [show k - (j + 1) = k - 1 - j by omega, show i - (j + 1) = i - 1 - j by omega]
    refine ⟨by omega, by simp only [hv]; omega, ?_, ?_⟩
    · intro j hij hjd
      simp only [hv] at hij hjd
      have := (hslot (i - j) (by omega)).2
      rwa [show i - (i - j) = j by omega] at this
    · have hcontent : v.content src =
          (src.drop (i - goRight src dst aquired i k)).take v.size := by
        simp [Vagon.content, hv]
      rw [hcontent, show i - goRight src dst aquired i k = i + 1 - v.size by omega]
      refine List.ext_getElem? fun j => ?_
      by_cases hj : j < v.size
      · rw [List.getElem?_take_of_lt hj, List.getElem?_take_of_lt hj, List.getElem?_drop,
          List.getElem?_drop]
        have := (hslot (v.size - 1 - j) (by omega)).1
        rw [show i + 1 - v.size + j = i - (v.size - 1 - j) by omega, ← this]
        congr 1
        omega
      · rw [List.getElem?_eq_none (by simp; omega), List.getElem?_eq_none (by simp; omega)]

/-- The registers in the slots that no range has acquired. -/
def freeSlots (src : Stack) (aquired : List Bool) : Stack :=
  ((src.zip aquired).filter fun slot => !slot.2).map Prod.fst

theorem freeSlots_append (s t : Stack) (a b : List Bool) (h : s.length = a.length) :
    freeSlots (s ++ t) (a ++ b) = freeSlots s a ++ freeSlots t b := by
  simp [freeSlots, List.zip_append h]

theorem freeSlots_replicate_false (s : Stack) (n : ℕ) (h : s.length = n) :
    freeSlots s (List.replicate n false) = s := by
  subst h
  induction s with
  | nil => rfl
  | cons x s ih => simpa [freeSlots, List.replicate_succ] using ih

theorem freeSlots_replicate_true (s : Stack) (n : ℕ) :
    freeSlots s (List.replicate n true) = [] := by
  simp only [freeSlots, List.map_eq_nil_iff, List.filter_eq_nil_iff]
  intro slot hslot
  simpa using (List.mem_replicate.mp (List.of_mem_zip hslot).2).2

theorem mem_freeSlots {v : StackVreg} (h : v ∈ freeSlots src aquired) :
    ∃ j : ℕ, src[j]? = some v ∧ aquired[j]? = some false := by
  simp only [freeSlots, List.mem_map, List.mem_filter] at h
  obtain ⟨⟨x, b⟩, ⟨hmem, hb⟩, rfl⟩ := h
  obtain ⟨j, hj⟩ := List.mem_iff_getElem?.mp hmem
  rw [List.getElem?_zip_eq_some] at hj
  exact ⟨j, hj.1, by simpa [hj.2] using hb⟩

/-- A register in a free slot is found. -/
theorem searchSrc_isSome {v : StackVreg} (h : v ∈ freeSlots src aquired) :
    ∃ i, searchSrc src aquired v = some i := by
  obtain ⟨j, hj, ha⟩ := mem_freeSlots h
  rw [← Option.isSome_iff_exists, searchSrc, List.find?_isSome]
  exact ⟨j, by simpa using (List.getElem?_eq_some_iff.mp hj).1, by simp [hj, ha]⟩

/-- Acquiring a free range takes its registers away from the free slots. -/
theorem freeSlots_setAquired (v : Vagon) (hlen : aquired.length = src.length)
    (hdeep : v.deepIdx < src.length)
    (hfree : ∀ j, v.topIdx ≤ j → j ≤ v.deepIdx → aquired[j]? = some false) :
    (freeSlots src aquired).Perm (v.content src ++ freeSlots src (setAquired aquired v)) := by
  have hsize := v.topIdx_add_size
  have htop := v.topIdx_le
  have hblock : (aquired.drop v.topIdx).take v.size = List.replicate v.size false :=
    slice_eq_replicate fun j hj hjd => hfree j hj (by omega)
  have houtside {j : ℕ} (hj : ¬(v.topIdx ≤ j ∧ j ≤ v.deepIdx)) :
      (setAquired aquired v)[j]? = aquired[j]? := by
    simp only [setAquired, List.getElem?_mapIdx, if_neg hj, Option.map_id']
  have hblock' : ((setAquired aquired v).drop v.topIdx).take v.size =
      List.replicate v.size true := by
    refine slice_eq_replicate fun j hj hjd => ?_
    have hin : v.topIdx ≤ j ∧ j ≤ v.deepIdx := by omega
    simp [setAquired, hin, hfree j hj hin.2]
  have htake : (setAquired aquired v).take v.topIdx = aquired.take v.topIdx := by
    refine List.ext_getElem? fun j => ?_
    rw [List.getElem?_take, List.getElem?_take]
    split
    · exact houtside (by omega)
    · rfl
  have hdrop : (setAquired aquired v).drop (v.topIdx + v.size) =
      aquired.drop (v.topIdx + v.size) := by
    refine List.ext_getElem? fun j => ?_
    rw [List.getElem?_drop, List.getElem?_drop, houtside (by omega)]
  have hcontent : (v.content src).Perm ((src.drop v.topIdx).take v.size) := by
    unfold Vagon.content
    split
    · exact List.reverse_perm _
    · exact List.Perm.refl _
  have hfs (a : List Bool) (ha : a.length = src.length) :
      freeSlots src a = freeSlots (src.take v.topIdx) (a.take v.topIdx) ++
        (freeSlots ((src.drop v.topIdx).take v.size) ((a.drop v.topIdx).take v.size) ++
          freeSlots (src.drop (v.topIdx + v.size)) (a.drop (v.topIdx + v.size))) := by
    rw [← freeSlots_append _ _ _ _ (by simp [ha]), ← freeSlots_append _ _ _ _ (by simp [ha]),
      ← take_append_slice_append_drop, ← take_append_slice_append_drop]
  have hcontent_len : ((src.drop v.topIdx).take v.size).length = v.size := by simp; omega
  rw [hfs aquired hlen, hfs (setAquired aquired v) (by simp [setAquired, hlen]), hblock, hblock',
    htake, hdrop, freeSlots_replicate_false _ _ hcontent_len, freeSlots_replicate_true,
    List.nil_append]
  refine List.Perm.trans ?_ (hcontent.symm.append_right _)
  rw [← List.append_assoc, ← List.append_assoc]
  exact List.perm_append_comm.append_right _

/-- **The search of the ranges succeeds** when the free slots hold the registers of the top `n`
slots of `dst`. The ranges are free and share no slot, and their contents, the last one on top,
make up these slots. -/
theorem Train.build_spec (n : ℕ) (hlen : aquired.length = src.length) (hn : n ≤ dst.length)
    (hperm : (freeSlots src aquired).Perm (dst.take n)) :
    ∃ vs, Train.build src dst n aquired = some vs ∧
      (vs.reverse.map (Vagon.content src)).flatten = dst.take n ∧ vs.Pairwise Vagon.Disjoint ∧
      ∀ v ∈ vs, v.deepIdx < src.length ∧
        ∀ j, v.topIdx ≤ j → j ≤ v.deepIdx → aquired[j]? = some false := by
  induction n, aquired using Train.build.induct src dst with
  | case1 aquired => exact ⟨[], by simp [Train.build]⟩
  | case2 idxI aquired ih =>
    obtain ⟨x, hx⟩ : ∃ x, dst[idxI]? = some x := ⟨_, List.getElem?_eq_getElem hn⟩
    have hxfree : x ∈ freeSlots src aquired := by
      rw [hperm.mem_iff, List.mem_iff_getElem?]
      exact ⟨idxI, by rw [List.getElem?_take_of_lt (by omega), hx]⟩
    obtain ⟨i, hfound⟩ := searchSrc_isSome hxfree
    obtain ⟨hix, hia⟩ := searchSrc_eq_some hfound
    set v := nextVagon src dst aquired i idxI with hv
    obtain ⟨hsize, hdeep, hfree, hcontent⟩ := nextVagon_spec
      (List.getElem?_eq_some_iff.mp hix).1 (hx.trans hix.symm) hia
    rw [← hv] at hsize hdeep hfree hcontent
    -- the slots of `dst` that the new range leaves uncovered
    have htake : dst.take (idxI + 1) = dst.take (idxI + 1 - v.size) ++ v.content src := by
      rw [hcontent, ← List.take_add]
      congr 1
      omega
    have hperm' : (freeSlots src (setAquired aquired v)).Perm (dst.take (idxI + 1 - v.size)) := by
      have := (freeSlots_setAquired v hlen hdeep hfree).symm.trans hperm
      rw [htake] at this
      exact (List.perm_append_left_iff _).mp (this.trans List.perm_append_comm)
    obtain ⟨vs, hvs, hflat, hdisj, hrange⟩ :=
      ih i (by simp [setAquired, hlen]) (by omega) hperm'
    simp only [← hv] at hvs hflat hrange
    refine ⟨v :: vs, ?_, ?_, ?_, ?_⟩
    · rw [Train.build, hx]
      simp [hfound, ← hv, hvs]
    · rw [List.reverse_cons, List.map_append, List.flatten_append, hflat, htake]
      simp
    · refine List.pairwise_cons.mpr ⟨fun w hw => ?_, hdisj⟩
      -- a common slot would be both acquired and free
      by_contra hnot
      obtain ⟨-, hwfree⟩ := hrange w hw
      have hv_le := v.topIdx_le
      have hw_le := w.topIdx_le
      simp only [Vagon.Disjoint, not_or, not_lt] at hnot
      have hcommon := hwfree (max v.topIdx w.topIdx) (by omega) (by omega)
      have hin : v.topIdx ≤ max v.topIdx w.topIdx ∧ max v.topIdx w.topIdx ≤ v.deepIdx := by omega
      simp [setAquired, hin] at hcommon
    · intro w hw
      rcases List.mem_cons.mp hw with rfl | hw
      · exact ⟨hdeep, hfree⟩
      · obtain ⟨hwdeep, hwfree⟩ := hrange w hw
        refine ⟨hwdeep, fun j hj hjd => ?_⟩
        have := hwfree j hj hjd
        simp only [setAquired, List.getElem?_mapIdx, Option.map_eq_some_iff] at this
        obtain ⟨b, hb, hbf⟩ := this
        split at hbf
        · cases hbf
        · rw [hb, hbf]

end Build

/-! ## Moving the ranges -/

def Vagon.shift (w : Vagon) (n : ℕ) : Vagon :=
  ⟨w.deepIdx + n, w.topIdx + n, w.inverted, Nat.add_le_add_right w.topIdx_le n⟩

@[simp] theorem Vagon.size_shift (w : Vagon) (n : ℕ) : (w.shift n).size = w.size := by
  simp only [size, shift]
  omega

/-- The range `w` after `v` has been moved to the top. -/
def Vagon.rebase (v w : Vagon) : Vagon :=
  if w.topIdx < v.topIdx then w.shift v.size else w

@[simp] theorem Vagon.size_rebase (v w : Vagon) : (v.rebase w).size = w.size := by
  unfold rebase
  split <;> simp

theorem Vagon.topIdx_rebase (v w : Vagon) :
    (v.rebase w).topIdx = if w.topIdx < v.topIdx then w.topIdx + v.size else w.topIdx :=
  apply_ite Vagon.topIdx _ _ _

theorem Vagon.deepIdx_rebase (v w : Vagon) :
    (v.rebase w).deepIdx = if w.topIdx < v.topIdx then w.deepIdx + v.size else w.deepIdx :=
  apply_ite Vagon.deepIdx _ _ _

section Exchange

variable {src : Stack}

/-- One range goes to the top. -/
def moveVagon (f : Fixup src) (v : Vagon) : Option (Fixup src) := do
  let f ← liftBlock f v.size v.topIdx
  if v.inverted then f.emit (makeReverse v.size) else return f

/-- The loop of `StackFixup::generateVagonXchgs`. -/
def moveVagons (f : Fixup src) : List Vagon → Option (Fixup src)
  | [] => some f
  | v :: vagons => do
    let f ← moveVagon f v
    moveVagons f (if v.topIdx ≠ 0 then vagons.map v.rebase else vagons)
termination_by vagons => vagons.length
decreasing_by split <;> simp

/-- `StackFixup::generateVagonXchgs`. A range that is at the bottom already stays there. -/
def generateVagonXchgs (f : Fixup src) (dst : Stack) : Option (Fixup src) := do
  let sz := f.cur.length
  let vagons ← Train.build f.cur dst sz (List.replicate sz false)
  let v ← vagons.head?
  moveVagons f (if v.deepIdx + 1 = sz ∧ ¬ v.inverted then vagons.tail else vagons)

theorem moveVagon_spec {f : Fixup src} {v : Vagon} {above block below : Stack}
    (hcur : f.cur = above ++ block ++ below) (habove : above.length = v.topIdx)
    (hblock : block.length = v.size) :
    ∃ g, moveVagon f v = some g ∧ g.cur = v.content f.cur ++ above ++ below := by
  have hslice : (f.cur.drop v.topIdx).take v.size = block := by
    rw [hcur, List.append_assoc, ← habove, ← hblock]
    simp
  obtain ⟨g, hg, hgcur⟩ := liftBlock_spec hcur
  rw [hblock, habove] at hg
  cases hinv : v.inverted with
  | false => exact ⟨g, by simp [moveVagon, hg, hinv], by simp [Vagon.content, hinv, hslice, hgcur]⟩
  | true =>
    have happly := apply_makeReverse unusedReg block (above ++ below)
    rw [← List.append_assoc, ← hgcur, hblock] at happly
    obtain ⟨g', hg', hgcur', -⟩ := Fixup.emit_eq_some happly
    exact ⟨g', by simp [moveVagon, hg, hinv, hg'], by
      simp [Vagon.content, hinv, hslice, hgcur']⟩

/-- Moving a range leaves the contents of the ranges that share no slot with it. -/
theorem Vagon.content_rebase {v w : Vagon} {above block below top : Stack}
    (habove : above.length = v.topIdx) (hblock : block.length = v.size)
    (htop : top.length = v.size) (hdisj : v.Disjoint w) :
    (v.rebase w).content (top ++ above ++ below) = w.content (above ++ block ++ below) := by
  have hv := v.topIdx_add_size
  have hw := w.topIdx_add_size
  have hw_pos := w.size_pos
  by_cases habv : w.topIdx < v.topIdx
  · have hdeep : w.deepIdx < v.topIdx := by
      rcases hdisj with h | h
      · omega
      · exact h
    have hslice : ((top ++ above ++ below).drop (w.topIdx + v.size)).take w.size =
        ((above ++ block ++ below).drop w.topIdx).take w.size := by
      rw [List.append_assoc, Nat.add_comm, ← htop, slice_append_right,
        slice_append_left _ _ (by omega), List.append_assoc, slice_append_left _ _ (by omega)]
    simp only [content, rebase, if_pos habv, size_shift]
    simp only [shift, hslice]
  · have hdeep : v.deepIdx < w.topIdx := by
      rcases hdisj with h | h
      · exact h
      · have := w.topIdx_le
        omega
    obtain ⟨d, hd⟩ := Nat.exists_eq_add_of_le (show v.topIdx + v.size ≤ w.topIdx by omega)
    have hslice : ((top ++ above ++ below).drop w.topIdx).take w.size =
        ((above ++ block ++ below).drop w.topIdx).take w.size := by
      rw [hd, show v.topIdx + v.size + d = (top ++ above).length + d by simp; omega,
        slice_append_right,
        show (top ++ above).length + d = (above ++ block).length + d by simp; omega,
        slice_append_right]
    simp only [content, rebase, if_neg habv, hslice]

/-- Ranges that share no slot share none after one of them has been moved away from under or
above them. -/
theorem Vagon.disjoint_rebase {v w x : Vagon} (hw : v.Disjoint w) (hx : v.Disjoint x)
    (hwx : w.Disjoint x) : (v.rebase w).Disjoint (v.rebase x) := by
  have := v.topIdx_add_size
  have := w.topIdx_le
  have := x.topIdx_le
  simp only [Disjoint, topIdx_rebase, deepIdx_rebase] at *
  split <;> split <;> omega

theorem moveVagons_eq (f : Fixup src) (v : Vagon) (vagons : List Vagon) :
    moveVagons f (v :: vagons) =
      (moveVagon f v).bind fun f => moveVagons f (vagons.map v.rebase) := by
  have hrebase : (if v.topIdx ≠ 0 then vagons.map v.rebase else vagons) =
      vagons.map v.rebase := by
    split
    · rfl
    · rename_i htop
      have hid : v.rebase = id := funext fun w => if_neg (by omega)
      rw [hid, List.map_id]
  rw [moveVagons, hrebase]
  rfl

/-- **Moving the ranges one after the other stacks up their contents.** On the way the stack
consists of the slots `done`, of the slots `mid` that the ranges left divide among them, and
of the slots `frozen` at the bottom. -/
theorem moveVagons_spec (f : Fixup src) (vs : List Vagon) (done mid frozen : Stack)
    (hcur : f.cur = done ++ mid ++ frozen) (hdisj : vs.Pairwise Vagon.Disjoint)
    (hrange : ∀ v ∈ vs, done.length ≤ v.topIdx ∧ v.deepIdx < done.length + mid.length)
    (hsum : (vs.map Vagon.size).sum = mid.length) :
    ∃ g, moveVagons f vs = some g ∧
      g.cur = (vs.reverse.map (Vagon.content f.cur)).flatten ++ done ++ frozen := by
  induction hn : vs.length generalizing f vs done mid with
  | zero =>
    obtain rfl : vs = [] := List.length_eq_zero_iff.mp hn
    obtain rfl : mid = [] := by simpa using hsum.symm
    exact ⟨f, by simp [moveVagons], by simpa using hcur⟩
  | succ n ih =>
    obtain ⟨v, vagons, rfl⟩ := List.exists_cons_of_length_eq_add_one hn
    obtain ⟨hhead, htail⟩ := List.pairwise_cons.mp hdisj
    obtain ⟨htop, hdeep⟩ := hrange v (by simp)
    have hv := v.topIdx_add_size
    -- cut the middle part around the range
    set p := v.topIdx - done.length with hp
    have hmid := take_append_slice_append_drop mid p v.size
    set above := mid.take p with habove
    set block := (mid.drop p).take v.size with hblock
    set below := mid.drop (p + v.size) with hbelow
    have habove_len : above.length = p := by simp [habove]; omega
    have hblock_len : block.length = v.size := by simp [hblock]; omega
    have hcur' : f.cur = (done ++ above) ++ block ++ (below ++ frozen) := by
      rw [hcur, hmid]
      simp
    have habove_len' : (done ++ above).length = v.topIdx := by simp; omega
    obtain ⟨g, hg, hgcur⟩ := moveVagon_spec hcur' habove_len' hblock_len
    have hcontent_len : (v.content f.cur).length = v.size :=
      Vagon.length_content (by rw [hcur]; simp; omega)
    have hdisj' : (vagons.map v.rebase).Pairwise Vagon.Disjoint := by
      rw [List.pairwise_map]
      exact htail.imp_of_mem fun hw hx hwx =>
        Vagon.disjoint_rebase (hhead _ hw) (hhead _ hx) hwx
    have hrange' : ∀ w ∈ vagons.map v.rebase, (v.content f.cur ++ done).length ≤ w.topIdx ∧
        w.deepIdx < (v.content f.cur ++ done).length + (above ++ below).length := by
      intro x hx
      obtain ⟨w, hw, rfl⟩ := List.mem_map.mp hx
      have hwv := hhead w hw
      obtain ⟨hwtop, hwdeep⟩ := hrange w (List.mem_cons_of_mem v hw)
      have hw_le := w.topIdx_le
      have hv_le := v.topIdx_le
      have hbelow_len : below.length = mid.length - (p + v.size) := by simp [hbelow]
      rw [Vagon.topIdx_rebase, Vagon.deepIdx_rebase, List.length_append, List.length_append,
        hcontent_len]
      unfold Vagon.Disjoint at hwv
      split <;> omega
    have hsum' : ((vagons.map v.rebase).map Vagon.size).sum = (above ++ below).length := by
      have hsizes : (vagons.map v.rebase).map Vagon.size = vagons.map Vagon.size := by simp
      have hbelow_len : below.length = mid.length - (p + v.size) := by simp [hbelow]
      rw [List.map_cons, List.sum_cons] at hsum
      rw [hsizes, List.length_append]
      omega
    obtain ⟨g', hg', hgcur'⟩ := ih g (vagons.map v.rebase) (v.content f.cur ++ done)
      (above ++ below) (by simp [hgcur]) hdisj' hrange' hsum' (by simpa using hn)
    have hcontents : (vagons.map v.rebase).map (Vagon.content g.cur) =
        vagons.map (Vagon.content f.cur) := by
      rw [List.map_map]
      refine List.map_congr_left fun w hw => ?_
      rw [Function.comp_apply, hgcur, hcur', ← hcur']
      exact (Vagon.content_rebase habove_len' hblock_len hcontent_len (hhead w hw)).trans
        (by rw [← hcur'])
    refine ⟨g', by rw [moveVagons_eq, hg]; exact hg', ?_⟩
    rw [hgcur', List.map_reverse, hcontents, List.reverse_cons, List.map_append,
      List.flatten_append, List.map_reverse]
    simp

theorem length_flatten_content {s : Stack} {vs : List Vagon}
    (h : ∀ v ∈ vs, v.deepIdx < s.length) :
    (vs.reverse.map (Vagon.content s)).flatten.length = (vs.map Vagon.size).sum := by
  rw [List.length_flatten, List.map_map, List.map_reverse, List.sum_reverse]
  exact congrArg List.sum (List.map_congr_left fun v hv => Vagon.length_content (h v hv))

/-- The ranges share no slot and cover `src`, and their contents, the last one on top, make up
`dst`. -/
structure Train.Splits (src dst : Stack) (vagons : List Vagon) : Prop where
  disjoint : vagons.Pairwise Vagon.Disjoint
  inside : ∀ v ∈ vagons, v.deepIdx < src.length
  covers : ∀ j < src.length, ∃ v ∈ vagons, v.topIdx ≤ j ∧ j ≤ v.deepIdx
  content : (vagons.reverse.map (Vagon.content src)).flatten = dst

/-- Ranges that share no slot cover the stack if they have as many slots together. -/
theorem Train.covers_of_sum_size {n : ℕ} {vs : List Vagon} (hdisj : vs.Pairwise Vagon.Disjoint)
    (hinside : ∀ v ∈ vs, v.deepIdx < n) (hsum : (vs.map Vagon.size).sum = n) :
    ∀ j < n, ∃ v ∈ vs, v.topIdx ≤ j ∧ j ≤ v.deepIdx := by
  let slots (v : Vagon) : List ℕ := List.range' v.topIdx v.size
  have hslots (v : Vagon) (j : ℕ) : j ∈ slots v ↔ v.topIdx ≤ j ∧ j ≤ v.deepIdx := by
    have := v.topIdx_add_size
    rw [List.mem_range'_1]
    omega
  have hnodup : (vs.flatMap slots).Nodup := by
    refine List.nodup_flatMap.mpr ⟨fun v _ => List.nodup_range', hdisj.imp ?_⟩
    intro v w hvw j hv hw
    have := (hslots v j).mp hv
    have := (hslots w j).mp hw
    unfold Vagon.Disjoint at hvw
    omega
  have hsub : vs.flatMap slots ⊆ List.range n := by
    intro j hj
    obtain ⟨v, hv, hjv⟩ := List.mem_flatMap.mp hj
    have := hinside v hv
    have := (hslots v j).mp hjv
    rw [List.mem_range]
    omega
  have hlen : (vs.flatMap slots).length = n := by
    rw [List.length_flatMap, ← hsum]
    exact congrArg List.sum (List.map_congr_left fun v _ => List.length_range')
  -- as many different slots as there are in the stack are all of them
  have hperm : (vs.flatMap slots).Perm (List.range n) :=
    (hnodup.subperm hsub).perm_of_length_le (by rw [hlen, List.length_range])
  intro j hj
  obtain ⟨v, hv, hjv⟩ := List.mem_flatMap.mp (hperm.mem_iff.mpr (List.mem_range.mpr hj))
  exact ⟨v, hv, (hslots v j).mp hjv⟩

theorem Train.exists_splits {src dst : Stack} (hperm : src.Perm dst) :
    ∃ vagons, Train.build src dst src.length (List.replicate src.length false) = some vagons ∧
      Train.Splits src dst vagons := by
  have hlen : src.length = dst.length := hperm.length_eq
  have hfree : (freeSlots src (List.replicate src.length false)).Perm (dst.take src.length) := by
    rw [freeSlots_replicate_false _ _ rfl, hlen, List.take_length]
    exact hperm
  obtain ⟨vs, hvs, hflat, hdisj, hrange⟩ := Train.build_spec src.length (by simp) (by omega) hfree
  rw [hlen, List.take_length] at hflat
  have hinside (v : Vagon) (hv : v ∈ vs) : v.deepIdx < src.length := (hrange v hv).1
  have hsizes : (vs.map Vagon.size).sum = src.length := by
    rw [← length_flatten_content hinside, hflat, hlen]
  exact ⟨vs, hvs, hdisj, hinside, Train.covers_of_sum_size hdisj hinside hsizes, hflat⟩

/-- **The moves lead from any stack to any arrangement of its registers.** -/
theorem generateVagonXchgs_spec {f : Fixup src} {dst : Stack} (hperm : f.cur.Perm dst)
    (hne : dst ≠ []) : ∃ g, generateVagonXchgs f dst = some g ∧ g.cur = dst := by
  have hlen : f.cur.length = dst.length := hperm.length_eq
  obtain ⟨vs, hvs, hdisj, hinside, -, hflat⟩ := Train.exists_splits hperm
  have hsizes : (vs.map Vagon.size).sum = dst.length := by
    rw [← length_flatten_content hinside, hflat]
  obtain ⟨v, vagons, rfl⟩ : ∃ v vagons, vs = v :: vagons := by
    refine List.exists_cons_of_ne_nil ?_
    rintro rfl
    exact hne (by simpa using hflat.symm)
  by_cases hstay : v.deepIdx + 1 = f.cur.length ∧ ¬ v.inverted
  · -- the first range stays where it is
    obtain ⟨hdeep, hinv⟩ := hstay
    have htop := v.topIdx_add_size
    have hcontent : v.content f.cur = f.cur.drop v.topIdx := by
      rw [Vagon.content, if_neg hinv, List.take_of_length_le (by simp; omega)]
    obtain ⟨g, hg, hgcur⟩ := moveVagons_spec f vagons [] (f.cur.take v.topIdx)
      (v.content f.cur) (by simp [hcontent]) hdisj.of_cons
      (fun w hw => by
        have hwv := List.rel_of_pairwise_cons hdisj hw
        have hwdeep := hinside w (List.mem_cons_of_mem v hw)
        have hw_le := w.topIdx_le
        unfold Vagon.Disjoint at hwv
        simp
        omega)
      (by
        rw [List.map_cons, List.sum_cons] at hsizes
        simp
        omega)
    refine ⟨g, ?_, ?_⟩
    · simp [generateVagonXchgs, hvs, hdeep, hinv, hg]
    · rw [hgcur, ← hflat]
      simp
  · obtain ⟨g, hg, hgcur⟩ := moveVagons_spec f (v :: vagons) [] f.cur [] (by simp) hdisj
      (fun w hw => by
        have := hinside w hw
        simp
        omega)
      (hsizes.trans hlen.symm)
    refine ⟨g, ?_, by rw [hgcur, hflat]; simp⟩
    rw [generateVagonXchgs, hvs]
    exact (congrArg (moveVagons f) (if_neg hstay)).trans hg

/-! ## What is emitted -/

/-- What has been emitted since the stage `f` leads from its current stack to the one of `g`. -/
theorem Fixup.applyAll_emitted {f g : Fixup src} {emitted : List Change}
    (h : g.changes = f.changes ++ emitted) : applyAll unusedReg emitted f.cur = some g.cur := by
  have hrun := g.run_eq
  rwa [h, applyAll_append, f.run_eq] at hrun

theorem prefix_of_emit {f g : Fixup src} {c : Change} (h : f.emit c = some g) :
    f.changes <+: g.changes := by
  unfold Fixup.emit at h
  split at h
  · cases h
  · cases h
    exact List.prefix_append _ _

theorem prefix_of_moveVagon {f g : Fixup src} {v : Vagon} (h : moveVagon f v = some g) :
    f.changes <+: g.changes := by
  obtain ⟨f', hlift, hrev⟩ := Option.bind_eq_some_iff.mp h
  have hf' : f.changes <+: f'.changes := by
    unfold liftBlock at hlift
    split at hlift
    · exact prefix_of_emit hlift
    · cases hlift
      exact List.prefix_rfl
  refine hf'.trans ?_
  split at hrev
  · exact prefix_of_emit hrev
  · cases hrev
    exact List.prefix_rfl

theorem prefix_of_moveVagons {f g : Fixup src} {vs : List Vagon} (h : moveVagons f vs = some g) :
    f.changes <+: g.changes := by
  induction hn : vs.length generalizing f vs with
  | zero =>
    obtain rfl := List.length_eq_zero_iff.mp hn
    rw [moveVagons] at h
    cases h
    exact List.prefix_rfl
  | succ n ih =>
    obtain ⟨v, vagons, rfl⟩ := List.exists_cons_of_length_eq_add_one hn
    rw [moveVagons_eq] at h
    obtain ⟨f', hf', h⟩ := Option.bind_eq_some_iff.mp h
    exact (prefix_of_moveVagon hf').trans (ih h (by simpa using hn))

theorem prefix_of_generateVagonXchgs {f g : Fixup src} {dst : Stack}
    (h : generateVagonXchgs f dst = some g) : f.changes <+: g.changes := by
  obtain ⟨vagons, -, h⟩ := Option.bind_eq_some_iff.mp h
  obtain ⟨v, -, h⟩ := Option.bind_eq_some_iff.mp h
  exact prefix_of_moveVagons h

/-! ## Rearranging a stack -/

/-- `Train::build` splits the wanted stack, and what `generateVagonXchgs` emits turns the current
stack into it. -/
def Rearranges (f : Fixup src) (dst : Stack) : Prop :=
  ∃ vagons, Train.build f.cur dst f.cur.length (List.replicate f.cur.length false) = some vagons ∧
    Train.Splits f.cur dst vagons ∧
    ∃ g emitted, generateVagonXchgs f dst = some g ∧ g.changes = f.changes ++ emitted ∧
      applyAll unusedReg emitted f.cur = some dst

/-- The first range is looked at before it is known whether there is one. -/
theorem generateVagonXchgs_nil (f : Fixup src) : generateVagonXchgs f [] = none := by
  rw [generateVagonXchgs]
  cases f.cur.length with
  | zero => simp [Train.build]
  | succ n => simp [Train.build]

/-- **Block moves realise any rearrangement of a stack that is not empty.** -/
theorem Rearranges_iff (f : Fixup src) (dst : Stack) (hperm : f.cur.Perm dst) :
    Rearranges f dst ↔ dst ≠ [] := by
  constructor
  · rintro ⟨-, -, -, g, -, hg, -⟩ rfl
    rw [generateVagonXchgs_nil] at hg
    cases hg
  · intro hne
    obtain ⟨vagons, hbuild, hsplits⟩ := Train.exists_splits hperm
    obtain ⟨g, hg, hgcur⟩ := generateVagonXchgs_spec hperm hne
    obtain ⟨emitted, hemitted⟩ := prefix_of_generateVagonXchgs hg
    have hrun := Fixup.applyAll_emitted hemitted.symm
    exact ⟨vagons, hbuild, hsplits, g, emitted, hg, hemitted.symm, hgcur ▸ hrun⟩

/-- Repeated registers, and a range that is reversed. -/
theorem Rearranges_iff_reversed :
    Rearranges (Fixup.start [1, 2, 3, 3, unusedReg]) [unusedReg, 1, 3, 2, 3] ↔
      ([unusedReg, 1, 3, 2, 3] : Stack) ≠ [] :=
  Rearranges_iff (Fixup.start [1, 2, 3, 3, unusedReg]) [unusedReg, 1, 3, 2, 3] (by decide)

/-- There is no first range of an empty stack. -/
theorem not_Rearranges_empty :
    (Fixup.start []).cur.Perm [] ∧ ¬ Rearranges (Fixup.start []) [] := by
  refine ⟨List.Perm.refl _, ?_⟩
  rintro ⟨-, -, -, g, -, hg, -⟩
  rw [generateVagonXchgs_nil] at hg
  cases hg

end Exchange

end TVMCompiler
