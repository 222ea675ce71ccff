import TVMCompiler.Sdk.StoredBits
import TVMCompiler.Sdk.TupleStack

/-!
# The statistics of a tree of cells

`tree_cell` adds up the bits and the cells of a tree. It keeps the slices whose references it has
not followed yet in a stack; a slice is counted when its last reference has been followed.

## Main definitions

* `Cell.totalCells`, `Cell.depth`: with `Cell.totalBits`, the statistics, by recursion on the tree
* `getBitsAndCells`: the loop over the stack

## Main results

* `treeLoop_slice`: the slice on top of the stack is counted, and then it is gone
* `getBitsAndCells_eq`: the loop ends with the statistics of the tree
-/

namespace TVMCompiler.Sdk

/-! ## The statistics -/

namespace Cell

mutual

/-- The number of cells of the tree. A cell that occurs twice counts twice. -/
def totalCells : Cell → ℕ
  | .mk _ refs => 1 + totalCellsList refs

def totalCellsList : List Cell → ℕ
  | [] => 0
  | c :: cs => c.totalCells + totalCellsList cs

end

mutual

/-- The number of references on the longest path. -/
def depth : Cell → ℕ
  | .mk _ refs => depthList refs

/-- The longest path through one of the references. -/
def depthList : List Cell → ℕ
  | [] => 0
  | c :: cs => max (c.depth + 1) (depthList cs)

end

theorem totalCells_pos (c : Cell) : 0 < c.totalCells := by
  cases c
  simp only [totalCells]
  omega

end Cell

/-! ## The loop -/

/-- The variables of the loop. -/
structure TreeState where
  bits : ℕ
  cells : ℕ
  slices : TupleStack Slice

/-- The body of the loop, with `sl` on top of the stack. -/
def treeStep (s : TreeState) (sl : Slice) : Except ContainerError TreeState :=
  match sl.refs with
  | [] => s.slices.pop.map fun slices => ⟨s.bits + sl.bits.length, s.cells + 1, slices⟩
  | child :: refs =>
    -- the top becomes the slice without the reference that is followed
    ((s.slices.setTop { sl with refs := refs }).push child.ctos).map fun slices =>
      ⟨s.bits, s.cells, slices⟩

/-- The loop, for at most `fuel` checks of its condition. -/
def treeLoop : ℕ → TreeState → Option (Except ContainerError (ℕ × ℕ))
  | 0, _ => none
  | fuel + 1, s =>
    match s.slices.top with
    | none => some (.ok (s.bits, s.cells))
    | some sl =>
      match treeStep s sl with
      | .error e => some (.error e)
      | .ok s => treeLoop fuel s

/-- `tree_cell::get_bits_and_cells`. -/
def getBitsAndCells (fuel : ℕ) (root : Cell) : Option (Except ContainerError (ℕ × ℕ)) :=
  match TupleStack.new.push root.ctos with
  | .error e => some (.error e)
  | .ok slices => treeLoop fuel ⟨0, 0, slices⟩

section Loop

variable {bits cells fuel : ℕ} {bs : List Bool} {vals : List Slice}

/-- A slice without references is counted. -/
theorem treeLoop_leaf : treeLoop (fuel + 1) ⟨bits, cells, .ofList (⟨bs, []⟩ :: vals)⟩ =
    treeLoop fuel ⟨bits + bs.length, cells + 1, .ofList vals⟩ := by
  simp [treeLoop, treeStep, Except.map]

/-- Otherwise its first reference is followed, if the stack has room. -/
theorem treeLoop_child {c : Cell} {refs : List Cell} (hroom : vals.length < TupleStack.maxTuple) :
    treeLoop (fuel + 1) ⟨bits, cells, .ofList (⟨bs, c :: refs⟩ :: vals)⟩ =
      treeLoop fuel ⟨bits, cells, .ofList (c.ctos :: ⟨bs, refs⟩ :: vals)⟩ := by
  have hpush : (TupleStack.ofList (⟨bs, refs⟩ :: vals)).push c.ctos =
      .ok (.ofList (c.ctos :: ⟨bs, refs⟩ :: vals)) := TupleStack.push_ofList hroom
  simp [treeLoop, treeStep, hpush, Except.map]

mutual

/-- **The slice on top of the stack is counted, and then it is gone.** The recursion is on the tree
under the slice: the loop visits each reference twice, when it follows it and when it counts the cell
behind it. -/
theorem treeLoop_slice (refs : List Cell) (bs : List Bool) (vals : List Slice) (bits cells fuel : ℕ)
    (hroom : vals.length + Cell.depthList refs ≤ TupleStack.maxTuple) :
    treeLoop (fuel + (1 + 2 * Cell.totalCellsList refs)) ⟨bits, cells, .ofList (⟨bs, refs⟩ :: vals)⟩ =
      treeLoop fuel ⟨bits + (bs.length + totalBitsSeq refs),
        cells + (1 + Cell.totalCellsList refs), .ofList vals⟩ := by
  match refs with
  | [] => exact treeLoop_leaf
  | c :: refs =>
    simp only [Cell.depthList] at hroom
    have hlen : fuel + (1 + 2 * Cell.totalCellsList (c :: refs)) =
        fuel + (1 + 2 * Cell.totalCellsList refs) + (2 * c.totalCells - 1) + 1 := by
      have hpos := Cell.totalCells_pos c
      simp only [Cell.totalCellsList]
      omega
    rw [hlen, treeLoop_child (by omega), treeLoop_cell c _ _ _ _ (by simp; omega),
      treeLoop_slice refs bs vals _ _ fuel (by omega)]
    congr 2 <;> simp only [totalBitsSeq, Cell.totalCellsList] <;> omega

theorem treeLoop_cell (c : Cell) (vals : List Slice) (bits cells fuel : ℕ)
    (hroom : vals.length + c.depth ≤ TupleStack.maxTuple) :
    treeLoop (fuel + (2 * c.totalCells - 1)) ⟨bits, cells, .ofList (c.ctos :: vals)⟩ =
      treeLoop fuel ⟨bits + c.totalBits, cells + c.totalCells, .ofList vals⟩ := by
  match c with
  | .mk bs refs =>
    have hlen : 2 * (Cell.mk bs refs).totalCells - 1 = 1 + 2 * Cell.totalCellsList refs := by
      simp only [Cell.totalCells]
      omega
    rw [hlen]
    exact treeLoop_slice refs bs vals bits cells fuel hroom

end

/-- **The loop ends with the statistics of the tree**, if the stack has room for its longest
path. -/
theorem getBitsAndCells_eq (root : Cell) (hdepth : root.depth ≤ TupleStack.maxTuple) :
    ∃ n, ∀ fuel, n ≤ fuel →
      getBitsAndCells fuel root = some (.ok (root.totalBits, root.totalCells)) := by
  refine ⟨2 * root.totalCells - 1 + 1, fun fuel hfuel => ?_⟩
  obtain ⟨more, rfl⟩ := Nat.exists_eq_add_of_le hfuel
  show treeLoop _ ⟨0, 0, .ofList [root.ctos]⟩ = _
  rw [show 2 * root.totalCells - 1 + 1 + more = (more + 1) + (2 * root.totalCells - 1) by omega,
    treeLoop_cell root [] 0 0 (more + 1) (by simpa using hdepth), Nat.zero_add, Nat.zero_add]
  rfl

end Loop

/-- A root with two references to the same cell. -/
theorem getBitsAndCells_eq_shared : ∃ n, ∀ fuel, n ≤ fuel →
    getBitsAndCells fuel (.mk [true] [.mk [true, false] [], .mk [true, false] []]) =
      some (.ok (5, 3)) :=
  getBitsAndCells_eq (.mk [true] [.mk [true, false] [], .mk [true, false] []]) (by decide)

end TVMCompiler.Sdk
