import TVMCompiler.Lib.Greedy
import TVMCompiler.Pass.StoreCombine

/-!
# Combining the constant stores of a basic block

`TVMStoreCombine` walks over a basic block and combines one chain of stores after the other. It
does not ask whether the constants fit the widths of their stores, so that a store that fails by
itself may become part of one that succeeds.

## Main definitions

* `runOnBasicBlock`: the walk, which records what each emitted instruction stands for
* `Linked`: the groups of instructions that can be combined
* `Emitted.KeepsFields`: the emitted instruction has no part in a store that fails, and holds the
  bits of every other one

## Main results

* `runOnBasicBlock_division`: the pass divides the block greedily into linked groups
* `keepsFields_iff`: when the fields are kept
-/

namespace TVMCompiler

open Lib

/-! ## The walk over the block -/

/-- An instruction of the block after the pass, and the instructions it stands for. -/
structure Emitted where
  instr : Instruction
  replaces : List Instruction
  deriving DecidableEq, Repr

/-- What `tryCombine` leaves of the instructions up to the iterator it returns. The uses of the
last store become uses of the combined one. -/
def combineFrom (start : Instruction) (c : StoreCall) (is : List Instruction) : Emitted :=
  let chain := (tryCombine start c is).1.tail
  let replaces := start :: is.take chain.length
  if chain = [] then ⟨start, replaces⟩
  else
    let last := replaces.getLast (List.cons_ne_nil _ _)
    ⟨{ last with store := some (combine c chain) }, replaces⟩

theorem extendChain_length_le (size prev : ℕ) (is : List Instruction) :
    (extendChain size prev is).2.length ≤ is.length := by
  induction is generalizing size prev with
  | nil => exact le_rfl
  | cons i is ih =>
    unfold extendChain
    split
    · exact le_rfl
    · split_ifs
      · exact Nat.le_succ _
      · exact (ih _ _).trans (Nat.le_succ _)
      · exact le_rfl

def runOnBasicBlock : List Instruction → List Emitted
  | [] => []
  | i :: is =>
    match i.store with
    | none => ⟨i, [i]⟩ :: runOnBasicBlock is
    | some c =>
      -- the search for a store that may begin a chain
      if i.numUses = 1 then combineFrom i c is :: runOnBasicBlock (tryCombine i c is).2
      else ⟨i, [i]⟩ :: runOnBasicBlock is
  termination_by is => is.length
  decreasing_by
    · exact Nat.lt_succ_self _
    · exact Nat.lt_succ_of_le (extendChain_length_le _ _ _)
    · exact Nat.lt_succ_self _

/-! ## Groups of stores -/

/-- The width of the constant of the instruction. -/
def Instruction.width (i : Instruction) : ℕ := (i.store.map StoreCall.width).getD 0

/-- The builder of the store `j` is computed by the store `i`, for `j` alone. -/
def Feeds (i j : Instruction) : Prop :=
  i.store.isSome ∧ i.numUses = 1 ∧ ∃ c, j.store = some c ∧ c.builder = i.id

/-- A single instruction, or stores that feed one another within the size limit. -/
def Linked (g : List Instruction) : Prop :=
  g.IsChain Feeds ∧ (g.length ≤ 1 ∨ (g.map Instruction.width).sum ≤ sizeLimit)

/-- The stores among the instructions. -/
def stores (g : List Instruction) : List StoreCall := g.filterMap Instruction.store

theorem Linked.of_append {g h : List Instruction} (hlinked : Linked (g ++ h)) : Linked g := by
  obtain ⟨hchain, hsize⟩ := hlinked
  refine ⟨hchain.left_of_append, ?_⟩
  rw [List.length_append, List.map_append, List.sum_append] at hsize
  omega

theorem linked_singleton (i : Instruction) : Linked [i] :=
  ⟨List.isChain_singleton i, Or.inl le_rfl⟩

/-- An instruction that does not feed the next one is a group of its own. -/
theorem not_linked_concat {i a : Instruction} (h : ¬ Feeds i a) : ¬ Linked ([i] ++ [a]) := by
  rintro ⟨hchain, -⟩
  exact h (List.isChain_cons_cons.mp hchain).1

/-- What `tryCombine` joins is linked, and what it stops at would not be. -/
theorem extendChain_linked {prev : Instruction} {c : StoreCall} (hprev : prev.store = some c)
    (huses : prev.numUses = 1) (size : ℕ) (is : List Instruction) :
    ∃ joined, is = joined ++ (extendChain size prev.id is).2 ∧
      joined.map Instruction.store = (extendChain size prev.id is).1.map some ∧
      (prev :: joined).IsChain Feeds ∧
      (joined = [] ∨ size + (joined.map Instruction.width).sum ≤ sizeLimit) ∧
      ∀ a ∈ (extendChain size prev.id is).2.head?, (prev :: joined ++ [a]).IsChain Feeds →
        ¬ size + (joined.map Instruction.width).sum + a.width ≤ sizeLimit := by
  induction is generalizing size prev c with
  | nil => exact ⟨[], rfl, rfl, List.isChain_singleton _, Or.inl rfl, nofun⟩
  | cons i is ih =>
    cases hstore : i.store with
    | none =>
      have hstop : extendChain size prev.id (i :: is) = ([], i :: is) := by
        simp [extendChain, hstore]
      rw [hstop]
      refine ⟨[], rfl, rfl, List.isChain_singleton _, Or.inl rfl, ?_⟩
      rintro a ha hchain
      obtain rfl : i = a := by simpa using ha
      obtain ⟨-, -, d, hd, -⟩ := (List.isChain_cons_cons.mp hchain).1
      rw [hstore] at hd
      cases hd
    | some d =>
      have hwidth : i.width = d.width := by simp [Instruction.width, hstore]
      by_cases hjoin : canCombine size i d ≠ .no ∧ d.builder = prev.id
      · have hfits : size + d.width ≤ sizeLimit := by
          by_contra hlt
          exact hjoin.1 (if_pos (by omega))
        have hfeeds : Feeds prev i :=
          ⟨by rw [hprev]; rfl, huses, d, hstore, hjoin.2⟩
        by_cases hlast : canCombine size i d = .last ∨ i.numUses ≠ 1
        · -- the last store of the chain has several uses or none
          have hone : i.numUses ≠ 1 := by
            rcases hlast with hlast | hlast
            · intro hone
              rw [canCombine, if_neg (by omega), if_neg (by omega)] at hlast
              cases hlast
            · exact hlast
          have hstop : extendChain size prev.id (i :: is) = ([d], is) := by
            simp [extendChain, hstore, hjoin, hlast]
          rw [hstop]
          refine ⟨[i], rfl, by simp [hstore], List.isChain_pair.mpr hfeeds,
            Or.inr (by simpa [hwidth] using hfits), ?_⟩
          rintro a - hchain
          have hnext := (List.isChain_cons_cons.mp hchain).2
          exact absurd (List.isChain_cons_cons.mp hnext).1.2.1 hone
        · have hone : i.numUses = 1 := by
            by_contra hne
            exact hlast (Or.inr hne)
          have hgo : extendChain size prev.id (i :: is) =
              (d :: (extendChain (size + d.width) i.id is).1,
                (extendChain (size + d.width) i.id is).2) := by
            simp [extendChain, hstore, hjoin, hlast]
          obtain ⟨joined, hsplit, hmap, hchain, hsize, hclosed⟩ :=
            ih hstore hone (size + d.width)
          rw [hgo]
          refine ⟨i :: joined, congrArg (i :: ·) hsplit, by simp [hstore, hmap],
            List.isChain_cons_cons.mpr ⟨hfeeds, hchain⟩, Or.inr ?_, ?_⟩
          · rw [List.map_cons, List.sum_cons, hwidth, ← Nat.add_assoc]
            rcases hsize with rfl | hsize
            · exact hfits
            · exact hsize
          · intro a ha hlong
            rw [List.map_cons, List.sum_cons, hwidth, ← Nat.add_assoc]
            exact hclosed a ha (List.isChain_cons_cons.mp hlong).2
      · have hstop : extendChain size prev.id (i :: is) = ([], i :: is) := by
          simp [extendChain, hstore, hjoin]
        rw [hstop]
        refine ⟨[], rfl, rfl, List.isChain_singleton _, Or.inl rfl, ?_⟩
        rintro a ha hchain hfits
        obtain rfl : i = a := by simpa using ha
        obtain ⟨-, -, e, he, hbuilder⟩ := (List.isChain_cons_cons.mp hchain).1
        obtain rfl : d = e := by
          rw [hstore] at he
          exact Option.some.inj he
        refine hjoin ⟨?_, hbuilder⟩
        have hle : ¬ size + d.width > sizeLimit := by
          rw [hwidth] at hfits
          simp at hfits
          omega
        unfold canCombine
        rw [if_neg hle]
        split
        · decide
        · decide

/-! ## The division of the block -/

/-- The emitted instruction is the single store that `combine` makes of the others. -/
def Emitted.Combined (e : Emitted) : Prop :=
  ∃ c chain, chain ≠ [] ∧ e.replaces.map Instruction.store = (c :: chain).map some ∧
    e.instr.store = some (combine c chain)

/-- One round of the loop: the group it takes off the block, and what it makes of it. -/
theorem combineFrom_spec {i : Instruction} {c : StoreCall} (hi : i.store = some c)
    (huses : i.numUses = 1) (is : List Instruction) :
    i :: is = (combineFrom i c is).replaces ++ (tryCombine i c is).2 ∧
      Linked (combineFrom i c is).replaces ∧
      (∀ a ∈ (tryCombine i c is).2.head?, ¬ Linked ((combineFrom i c is).replaces ++ [a])) ∧
      (combineFrom i c is = ⟨i, [i]⟩ ∨ (combineFrom i c is).Combined) := by
  obtain ⟨joined, hsplit, hmap, hchain, hsize, hclosed⟩ := extendChain_linked hi huses c.width is
  have htail : (tryCombine i c is).1.tail = (extendChain c.width i.id is).1 := rfl
  have hrest : (tryCombine i c is).2 = (extendChain c.width i.id is).2 := rfl
  have hlength : joined.length = (extendChain c.width i.id is).1.length := by
    simpa using congrArg List.length hmap
  have hreplaces : (combineFrom i c is).replaces = i :: joined := by
    have htake : is.take (extendChain c.width i.id is).1.length = joined := by
      rw [← hlength]
      exact (congrArg (List.take joined.length) hsplit).trans List.take_left
    unfold combineFrom
    simp only [htail, htake]
    split <;> rfl
  have hwidth : i.width = c.width := by simp [Instruction.width, hi]
  rw [hreplaces, hrest]
  refine ⟨congrArg (i :: ·) hsplit, ⟨hchain, ?_⟩, ?_, ?_⟩
  · rcases hsize with rfl | hsize
    · exact Or.inl le_rfl
    · right
      rwa [List.map_cons, List.sum_cons, hwidth]
  · rintro a ha ⟨hlong, hshort | hfits⟩
    · simp at hshort
    · refine hclosed a ha hlong ?_
      rw [List.map_append, List.map_cons, List.sum_append, List.sum_cons, hwidth] at hfits
      simpa using hfits
  · by_cases hnil : (extendChain c.width i.id is).1 = []
    · left
      have hjoined : joined = [] := by
        rw [← List.length_eq_zero_iff, hlength, hnil]
        rfl
      have hinstr : (combineFrom i c is).instr = i := by
        unfold combineFrom
        simp only [htail, if_pos hnil]
      calc combineFrom i c is
          = ⟨(combineFrom i c is).instr, (combineFrom i c is).replaces⟩ := rfl
        _ = ⟨i, [i]⟩ := by rw [hinstr, hreplaces, hjoined]
    · right
      refine ⟨c, (extendChain c.width i.id is).1, hnil, ?_, ?_⟩
      · rw [hreplaces, List.map_cons, hi, hmap, List.map_cons]
      · unfold combineFrom
        simp only [htail, if_neg hnil]

/-- **The pass divides the block greedily into linked groups.** -/
theorem runOnBasicBlock_division (block : List Instruction) :
    GreedyDivision Linked block ((runOnBasicBlock block).map Emitted.replaces) := by
  induction block using runOnBasicBlock.induct with
  | case1 =>
    rw [runOnBasicBlock]
    exact .nil
  | case2 i is hstore ih =>
    rw [runOnBasicBlock, hstore]
    refine .cons (g := [i]) (List.cons_ne_nil _ _) (linked_singleton i) ?_ ih
    rintro a -
    refine not_linked_concat ?_
    rintro ⟨hsome, -⟩
    simp [hstore] at hsome
  | case3 i is c hstore huses ih =>
    obtain ⟨hsplit, hlinked, hclosed, -⟩ := combineFrom_spec hstore huses is
    have hrun : runOnBasicBlock (i :: is) =
        combineFrom i c is :: runOnBasicBlock (tryCombine i c is).2 := by
      rw [runOnBasicBlock, hstore]
      simp only [if_pos huses]
    rw [hrun, List.map_cons, hsplit]
    refine .cons ?_ hlinked hclosed ih
    unfold combineFrom
    dsimp only
    split <;> exact List.cons_ne_nil _ _
  | case4 i is c hstore huses ih =>
    have hrun : runOnBasicBlock (i :: is) = ⟨i, [i]⟩ :: runOnBasicBlock is := by
      rw [runOnBasicBlock, hstore]
      simp only [if_neg huses]
    rw [hrun]
    refine .cons (g := [i]) (List.cons_ne_nil _ _) (linked_singleton i) ?_ ih
    rintro a -
    refine not_linked_concat ?_
    rintro ⟨-, hone, -⟩
    exact huses hone

/-- Each emitted instruction is one of the block or a combined store. -/
theorem emitted_cases {block : List Instruction} {e : Emitted} (he : e ∈ runOnBasicBlock block) :
    (∃ i, e = ⟨i, [i]⟩) ∨ e.Combined := by
  induction block using runOnBasicBlock.induct with
  | case1 => simp [runOnBasicBlock] at he
  | case2 i is hstore ih =>
    rw [runOnBasicBlock, hstore] at he
    rcases List.mem_cons.mp he with rfl | he
    · exact Or.inl ⟨i, rfl⟩
    · exact ih he
  | case3 i is c hstore huses ih =>
    rw [runOnBasicBlock, hstore] at he
    simp only [if_pos huses] at he
    rcases List.mem_cons.mp he with rfl | he
    · obtain ⟨-, -, -, hcases⟩ := combineFrom_spec hstore huses is
      exact hcases.imp_left fun h => ⟨i, h⟩
    · exact ih he
  | case4 i is c hstore huses ih =>
    rw [runOnBasicBlock, hstore] at he
    simp only [if_neg huses] at he
    rcases List.mem_cons.mp he with rfl | he
    · exact Or.inl ⟨i, rfl⟩
    · exact ih he

/-! ## When the fields are kept -/

/-- The constant of the instruction does not fit its store. -/
def Instruction.Oversized (i : Instruction) : Prop := ∃ c, i.store = some c ∧ ¬ c.InRange

/-- A store whose constant does not fit is emitted as it is, and the emitted store succeeds and
holds the bits of every other store in their place. -/
structure Emitted.KeepsFields (e : Emitted) : Prop where
  oversized : ∀ i ∈ e.replaces, i.Oversized → e = ⟨i, [i]⟩
  field : ∀ before i after c, e.replaces = before ++ i :: after → i.store = some c → c.InRange →
    ∃ s, e.instr.store = some s ∧ s.InRange ∧
      (s.bits.drop (chainWidth (stores before))).take c.width = c.bits

theorem stores_append (g h : List Instruction) : stores (g ++ h) = stores g ++ stores h :=
  List.filterMap_append

theorem stores_cons {i : Instruction} {c : StoreCall} (hi : i.store = some c)
    (g : List Instruction) : stores (i :: g) = c :: stores g := by
  rw [stores, List.filterMap_cons, hi]
  rfl

theorem stores_of_map {g : List Instruction} {chain : List StoreCall}
    (h : g.map Instruction.store = chain.map some) : stores g = chain := by
  have hmap : stores g = (g.map Instruction.store).filterMap id := by simp [stores]
  rw [hmap, h]
  simp

theorem chainBits_append (chain rest : List StoreCall) :
    chainBits (chain ++ rest) = chainBits chain ++ chainBits rest := by
  simp [chainBits]

theorem chainBits_cons (c : StoreCall) (chain : List StoreCall) :
    chainBits (c :: chain) = c.bits ++ chainBits chain := by
  simp [chainBits]

/-- The field of a store lies behind those of the stores before it. -/
theorem field_chainBits (before : List StoreCall) (c : StoreCall) (after : List StoreCall) :
    ((chainBits (before ++ c :: after)).drop (chainWidth before)).take c.width = c.bits := by
  have hlength : c.bits.length = c.width := length_intBits _ _
  rw [chainBits_append, chainBits_cons, ← length_chainBits before, List.drop_left, ← hlength,
    List.take_left]

/-- Bits that agree with a chain of stores in each field are those of the chain. -/
theorem eq_chainBits {chain : List StoreCall} {bits : List Bool}
    (hlength : bits.length = chainWidth chain)
    (hfield : ∀ before c after, chain = before ++ c :: after →
      (bits.drop (chainWidth before)).take c.width = c.bits) : bits = chainBits chain := by
  induction chain using List.reverseRecOn generalizing bits with
  | nil => exact List.eq_nil_of_length_eq_zero hlength
  | append_singleton chain c ih =>
    rw [chainWidth_concat] at hlength
    have hinit : bits.take (chainWidth chain) = chainBits chain := by
      refine ih (by simp [hlength]) ?_
      intro before d after hsplit
      have hd := hfield before d (after ++ [c]) (by simp [hsplit])
      have hwidth : chainWidth chain = chainWidth before + (d.width + chainWidth after) := by
        rw [hsplit]
        simp [chainWidth]
      rw [List.drop_take, List.take_take, Nat.min_eq_left (by omega)]
      exact hd
    have hlast : bits.drop (chainWidth chain) = c.bits := by
      rw [← hfield chain c [] rfl, List.take_of_length_le]
      simp [hlength]
    rw [chainBits_concat, ← hinit, ← hlast, List.take_append_drop]

/-- A combined store keeps the fields of exactly those stores that fit and in which each negative
constant follows a bit that is set. -/
theorem Emitted.Combined.keepsFields_iff_fits {e : Emitted} (he : e.Combined)
    (hlinked : Linked e.replaces) :
    e.KeepsFields ↔ (∀ c ∈ stores e.replaces, c.InRange) ∧
      NegativesFollowOnes (stores e.replaces) := by
  obtain ⟨c, chain, hne, hmap, hinstr⟩ := he
  have hstores := stores_of_map hmap
  have hlong : 2 ≤ e.replaces.length := by
    have hlength := congrArg List.length hmap
    have hpos := List.length_pos_of_ne_nil hne
    simp only [List.length_map, List.length_cons] at hlength
    omega
  have hsize : chainWidth (c :: chain) ≤ sizeLimit := by
    obtain ⟨-, hshort | hsize⟩ := hlinked
    · omega
    · have hwidths : e.replaces.map Instruction.width = (c :: chain).map StoreCall.width := by
        have hcomp : e.replaces.map Instruction.width =
            (e.replaces.map Instruction.store).map fun s => (s.map StoreCall.width).getD 0 := by
          simp [Instruction.width]
        rw [hcomp, hmap]
        simp
      rwa [hwidths] at hsize
  have hrange_iff (s : StoreCall) (hs : s = combine c chain) :
      s.InRange ↔ 0 ≤ s.value ∧ s.value < 2 ^ s.width := by
    subst hs
    exact Iff.rfl
  rw [hstores]
  constructor
  · rintro ⟨hoversized, hfield⟩
    -- a store that does not fit would have been emitted alone
    have hchain : ∀ d ∈ c :: chain, d.InRange := by
      intro d hd
      by_contra hbad
      have hmem : some d ∈ e.replaces.map Instruction.store := by
        rw [hmap]
        exact List.mem_map_of_mem hd
      obtain ⟨i, hi, hstore⟩ := List.mem_map.mp hmem
      have halone := hoversized i hi ⟨d, hstore, hbad⟩
      rw [halone] at hlong
      simp at hlong
    refine ⟨hchain, (combine_appends_iff hsize hchain).mp ?_⟩
    have hevery : ∀ before d after, c :: chain = before ++ d :: after →
        (combine c chain).InRange ∧
          ((combine c chain).bits.drop (chainWidth before)).take d.width = d.bits := by
      intro before d after hsplit
      have hsplit' : e.replaces.map Instruction.store =
          before.map some ++ some d :: after.map some := by
        rw [hmap, hsplit]
        simp
      obtain ⟨is, js, hijs, his, hjs⟩ := List.map_eq_append_iff.mp hsplit'
      obtain ⟨i, ks, rfl, hi, -⟩ := List.map_eq_cons_iff.mp hjs
      obtain ⟨s, hs, hin, hbits⟩ := hfield is i ks d hijs hi (hchain d (by simp [hsplit]))
      obtain rfl : combine c chain = s := by
        rw [hinstr] at hs
        exact Option.some.inj hs
      rw [stores_of_map his] at hbits
      exact ⟨hin, hbits⟩
    obtain ⟨hin, -⟩ := hevery [] c chain rfl
    obtain ⟨hpos, hlt⟩ := (hrange_iff _ rfl).mp hin
    refine ⟨rfl, hpos, hlt, ?_⟩
    exact eq_chainBits (length_intBits _ _) fun before d after hsplit =>
      (hevery before d after hsplit).2
  · rintro ⟨hchain, hones⟩
    obtain ⟨-, hpos, hlt, hbits⟩ := (combine_appends_iff hsize hchain).mpr hones
    constructor
    · rintro i hi ⟨d, hd, hbad⟩
      refine absurd (hchain d ?_) hbad
      rw [← hstores]
      exact List.mem_filterMap.mpr ⟨i, hi, hd⟩
    · intro before i after d hsplit hd hin
      refine ⟨combine c chain, hinstr, (hrange_iff _ rfl).mpr ⟨hpos, hlt⟩, ?_⟩
      rw [hbits, ← hstores, hsplit, stores_append, stores_cons hd]
      exact field_chainBits _ _ _

theorem keepsFields_single (i : Instruction) : Emitted.KeepsFields ⟨i, [i]⟩ := by
  constructor
  · intro j hj _
    obtain rfl : j = i := by simpa using hj
    rfl
  · intro before j after c hsplit hj hin
    obtain rfl : before = [] := by
      have hlength := congrArg List.length hsplit
      simp only [List.length_append, List.length_cons, List.length_nil] at hlength
      exact List.eq_nil_of_length_eq_zero (by omega)
    obtain rfl : i = j := (List.cons.inj hsplit).1
    exact ⟨c, hj, hin, by simp [stores, StoreCall.bits]⟩

/-- **The fields of a block are kept exactly when each group of the greedy division with two or
more stores has constants that fit and negative ones only after a bit that is set.** -/
theorem keepsFields_iff (block : List Instruction) :
    (∀ e ∈ runOnBasicBlock block, e.KeepsFields) ↔
      ∀ gs, GreedyDivision Linked block gs → ∀ g ∈ gs, 2 ≤ g.length →
        (∀ c ∈ stores g, c.InRange) ∧ NegativesFollowOnes (stores g) := by
  have hdivision := runOnBasicBlock_division block
  constructor
  · intro hkeeps gs hgs g hg hlong
    -- the greedy division is the one that the pass makes
    obtain rfl := hdivision.unique (fun _ _ => Linked.of_append) hgs
    obtain ⟨e, he, rfl⟩ := List.mem_map.mp hg
    rcases emitted_cases he with ⟨i, rfl⟩ | hcombined
    · simp at hlong
    · exact (hcombined.keepsFields_iff_fits (hdivision.holds _ hg)).mp (hkeeps e he)
  · intro hfit e he
    have hg := List.mem_map_of_mem (f := Emitted.replaces) he
    rcases emitted_cases he with ⟨i, rfl⟩ | hcombined
    · exact keepsFields_single i
    · refine (hcombined.keepsFields_iff_fits (hdivision.holds _ hg)).mpr (hfit _ hdivision _ hg ?_)
      obtain ⟨c, chain, hne, hmap, -⟩ := hcombined
      have hlength := congrArg List.length hmap
      have hpos := List.length_pos_of_ne_nil hne
      simp only [List.length_map, List.length_cons] at hlength
      omega

/-- Of the stores `0` and `2`, each one bit wide, the second fails. Together they are stored as
`10`. -/
theorem oversized_merged :
    (runOnBasicBlock [⟨1, 1, some ⟨false, 0, 0, 1⟩⟩, ⟨2, 1, some ⟨false, 2, 1, 1⟩⟩]).map
        Emitted.instr = [⟨2, 1, some ⟨false, 2, 0, 2⟩⟩] ∧
      ¬ (⟨false, 2, 1, 1⟩ : StoreCall).InRange ∧
      ¬ ∀ e ∈ runOnBasicBlock [⟨1, 1, some ⟨false, 0, 0, 1⟩⟩, ⟨2, 1, some ⟨false, 2, 1, 1⟩⟩],
          e.KeepsFields := by
  have hrun : runOnBasicBlock [⟨1, 1, some ⟨false, 0, 0, 1⟩⟩, ⟨2, 1, some ⟨false, 2, 1, 1⟩⟩] =
      [⟨⟨2, 1, some ⟨false, 2, 0, 2⟩⟩,
        [⟨1, 1, some ⟨false, 0, 0, 1⟩⟩, ⟨2, 1, some ⟨false, 2, 1, 1⟩⟩]⟩] := by
    rw [runOnBasicBlock]
    simp only [if_pos]
    have hrest : (tryCombine ⟨1, 1, some ⟨false, 0, 0, 1⟩⟩ ⟨false, 0, 0, 1⟩
        [⟨2, 1, some ⟨false, 2, 1, 1⟩⟩]).2 = [] := by decide
    rw [hrest, runOnBasicBlock]
    decide +kernel
  have hbad : ¬ (⟨false, 2, 1, 1⟩ : StoreCall).InRange := by simp [StoreCall.InRange]
  refine ⟨by rw [hrun]; rfl, hbad, ?_⟩
  rw [hrun]
  intro h
  have hkept := (h _ (List.mem_singleton_self _)).oversized ⟨2, 1, some ⟨false, 2, 1, 1⟩⟩
    (by simp) ⟨_, rfl, hbad⟩
  cases hkept

end TVMCompiler
