import Mathlib.Algebra.GroupWithZero.Nat
import Mathlib.Data.Fintype.Prod
import Mathlib.Data.Fintype.Card
import Mathlib.Logic.Relation
import TVMCompiler.Lib.Except

/-!
# Roads

The end of a block and the beginning of each of its successors share one stack layout. The
layouts are numbered: a *road* is the number of a layout, and each block has a road at its
beginning and one at its end. `prepareRoads` numbers them road by road, breadth first.

## Main definitions

* `Cfg`, `Cfg.Connected`: control-flow graphs, and the block sides that share their layout
* `PrepareState`, `visit`, `nextRoad`, `prepareRoads`: the numbering
* `RoadInv`: what holds whenever a block is taken from the queue

## Main results

* `visit_spec`, `nextRoad_spec`: each step keeps the invariant
* `prepareRoads_spec`: the numbering ends, and two sides have the same number exactly when they
  are connected
-/

namespace TVMCompiler

open Lib

instance neZero_two : NeZero 2 := ⟨by decide⟩

instance neZero_three : NeZero 3 := ⟨by decide⟩

/-- A control-flow graph, with the lists of successors and predecessors of each block. -/
structure Cfg (Block : Type*) where
  entry : Block
  succs : Block → List Block
  preds : Block → List Block
  mem_preds : ∀ p b, p ∈ preds b ↔ b ∈ succs p

/-- The two sides of a block. -/
inductive Side where
  | roadBegin
  | roadEnd
  deriving DecidableEq, Repr

instance : Fintype Side where
  elems := {.roadBegin, .roadEnd}
  complete side := by cases side <;> simp

def Side.opposite : Side → Side
  | .roadBegin => .roadEnd
  | .roadEnd => .roadBegin

@[simp] theorem Side.opposite_opposite (side : Side) : side.opposite.opposite = side := by
  cases side <;> rfl

@[simp] theorem Side.opposite_ne (side : Side) : side.opposite ≠ side := by
  cases side <;> simp [opposite]

namespace Cfg

variable {Block : Type*} (g : Cfg Block)

/-- The blocks across the edges at a side of a block. -/
def neighbours : Side → Block → List Block
  | .roadBegin, b => g.preds b
  | .roadEnd, b => g.succs b

/-- The block can be reached from the entry. -/
def Reachable (b : Block) : Prop := Relation.ReflTransGen (fun p s => s ∈ g.succs p) g.entry b

/-- The two sides that an edge joins. -/
def Edge (x y : Block × Side) : Prop :=
  y.1 ∈ g.succs x.1 ∧ x.2 = .roadEnd ∧ y.2 = .roadBegin

/-- Two sides are connected by a chain of edges, each walked in either direction. -/
def Connected : Block × Side → Block × Side → Prop := Relation.EqvGen g.Edge

variable {g}

theorem mem_neighbours_opposite {side : Side} {b c : Block} (h : c ∈ g.neighbours side b) :
    b ∈ g.neighbours side.opposite c := by
  cases side with
  | roadBegin => exact (g.mem_preds c b).mp h
  | roadEnd => exact (g.mem_preds b c).mpr h

theorem Connected.refl (x : Block × Side) : g.Connected x x := Relation.EqvGen.refl x

theorem Connected.symm {x y : Block × Side} (h : g.Connected x y) : g.Connected y x :=
  Relation.EqvGen.symm _ _ h

theorem Connected.trans {x y z : Block × Side} (h : g.Connected x y) (h' : g.Connected y z) :
    g.Connected x z :=
  Relation.EqvGen.trans _ _ _ h h'

theorem connected_of_mem_neighbours {side : Side} {b c : Block}
    (h : c ∈ g.neighbours side b) : g.Connected (b, side) (c, side.opposite) := by
  cases side with
  | roadBegin =>
    exact (Relation.EqvGen.rel _ _ ⟨(g.mem_preds c b).mp h, rfl, rfl⟩ : g.Connected (c, _) (b, _)).symm
  | roadEnd => exact Relation.EqvGen.rel _ _ ⟨h, rfl, rfl⟩

end Cfg

/-! ## The numbering -/

/-- The assertions of `prepareRoads`, and the end of the fuel. -/
inductive RoadError where
  | nullRoad
  | differentRoad
  | bothSidesNull
  | outOfFuel
  deriving DecidableEq, Repr

/-- The roads of the block sides, `0` for those not numbered yet, and the local variables of
`prepareRoads`. -/
structure PrepareState (Block : Type*) where
  road : Block × Side → ℕ
  queueThisRoad : List Block
  queueNextRoads : List Block
  curRoad : ℕ

section Numbering

variable {Block : Type*} [DecidableEq Block]

/-- The body of the loops of `processSuccessors` and `processPredecessors`: the block `b` gets
`road` on its given side. -/
def assignRoad (road : ℕ) (side : Side) (s : PrepareState Block) (b : Block) :
    Except RoadError (PrepareState Block) :=
  if s.road (b, side) ≠ road ∧ s.road (b, side) ≠ 0 then .error .differentRoad
  else if s.road (b, side) = 0 then
    .ok { s with
      road := Function.update s.road (b, side) road
      queueThisRoad := s.queueThisRoad ++ [b]
      queueNextRoads :=
        if s.road (b, side.opposite) = 0 then s.queueNextRoads ++ [b] else s.queueNextRoads }
  else .ok s

def processNeighbours (g : Cfg Block) (side : Side) (cur : Block) (s : PrepareState Block) :
    Except RoadError (PrepareState Block) :=
  if s.road (cur, side) = 0 then .error .nullRoad
  else (g.neighbours side cur).foldlM (assignRoad (s.road (cur, side)) side.opposite) s

def processPredecessors (g : Cfg Block) := processNeighbours g .roadBegin

def processSuccessors (g : Cfg Block) := processNeighbours g .roadEnd

/-- One round of the loop over `queueThisRoad`. -/
def visit (g : Cfg Block) (s : PrepareState Block) :
    Except RoadError (Option (PrepareState Block)) :=
  match s.queueThisRoad with
  | [] => .ok none
  | cur :: rest =>
    let s := { s with queueThisRoad := rest }
    (if s.road (cur, .roadBegin) = s.curRoad then processPredecessors g cur s else .ok s).bind
      fun s =>
        (if s.road (cur, .roadEnd) = s.curRoad then processSuccessors g cur s else .ok s).bind
          fun s => .ok (some s)

/-- The loop over `queueNextRoads`: the first block with a side not numbered yet starts the next
road. -/
def nextRoad (s : PrepareState Block) : List Block → Except RoadError (PrepareState Block)
  | [] => .ok { s with queueNextRoads := [] }
  | cur :: rest =>
    if s.road (cur, .roadBegin) ≠ 0 ∧ s.road (cur, .roadEnd) ≠ 0 then nextRoad s rest
    else if s.road (cur, .roadBegin) = 0 ∧ s.road (cur, .roadEnd) = 0 then .error .bothSidesNull
    else .ok { s with
      road := fun x => if x.1 = cur ∧ s.road x = 0 then s.curRoad else s.road x
      queueThisRoad := s.queueThisRoad ++ [cur]
      queueNextRoads := rest }

/-- One round of the outer loop. Its condition is true at the start, so that it can be checked
before the round. -/
def traceRoad (g : Cfg Block) (fuel : ℕ) (s : PrepareState Block) :
    Except RoadError (Option (PrepareState Block)) :=
  if s.queueThisRoad = [] then .ok none
  else do
    let s ← loop .outOfFuel (visit g) fuel s
    let s ← nextRoad { s with curRoad := s.curRoad + 1 } s.queueNextRoads
    return some s

def initialState (g : Cfg Block) : PrepareState Block where
  road := Function.update (fun _ => 0) (g.entry, .roadEnd) 1
  queueThisRoad := [g.entry]
  queueNextRoads := []
  curRoad := 1

def prepareRoads (g : Cfg Block) (fuel : ℕ) : Except RoadError (PrepareState Block) :=
  loop .outOfFuel (traceRoad g fuel) fuel (initialState g)

/-! ## The invariant -/

/-- What holds between two rounds. The sides in `todo` are those whose neighbours the current
round has still to number. -/
structure RoadInv (g : Cfg Block) (todo : Set (Block × Side)) (s : PrepareState Block) : Prop where
  pos : 0 < s.curRoad
  le : ∀ x, s.road x ≤ s.curRoad
  sound : ∀ x y, s.road x = s.road y → s.road x ≠ 0 → g.Connected x y
  closed : ∀ b c side, c ∈ g.neighbours side b → s.road (b, side) ≠ 0 →
    s.road (c, side.opposite) = s.road (b, side) ∨
      s.road (c, side.opposite) = 0 ∧ s.road (b, side) = s.curRoad ∧
        (b ∈ s.queueThisRoad ∨ (b, side) ∈ todo)
  opposite : ∀ b side, s.road (b, side) ≠ 0 →
    s.road (b, side.opposite) ≠ 0 ∨ b ∈ s.queueNextRoads ∨ (b, side) = (g.entry, .roadEnd)
  waiting : ∀ b ∈ s.queueNextRoads, ∃ side, s.road (b, side) ≠ 0
  entry : s.road (g.entry, .roadEnd) ≠ 0

variable {g : Cfg Block} {todo : Set (Block × Side)} {s s' : PrepareState Block}

omit [DecidableEq Block] in
/-- With an empty queue, all neighbours of a numbered side have its number. -/
theorem RoadInv.neighbour (hs : RoadInv g ∅ s) (hqueue : s.queueThisRoad = []) {b c : Block}
    {t : Side} (hc : c ∈ g.neighbours t b) (hb : s.road (b, t) ≠ 0) :
    s.road (c, t.opposite) = s.road (b, t) := by
  rcases hs.closed b c t hc hb with h | ⟨-, -, h | h⟩
  · exact h
  · simp [hqueue] at h
  · exact absurd h (Set.notMem_empty _)

/-- A side that is not numbered yet gets a road of its own. -/
theorem RoadInv.startRoad {rest : List Block} {cur : Block} {t : Side}
    (hs : RoadInv g ∅ { s with queueNextRoads := cur :: rest }) (hqueue : s.queueThisRoad = [])
    (hzero : s.road (cur, t) = 0) (hopp : s.road (cur, t.opposite) ≠ 0) :
    RoadInv g ∅
      { road := Function.update s.road (cur, t) (s.curRoad + 1)
        queueThisRoad := [cur]
        queueNextRoads := rest
        curRoad := s.curRoad + 1 } := by
  have hold (x : Block × Side) (hx : s.road x ≠ 0) :
      Function.update s.road (cur, t) (s.curRoad + 1) x = s.road x :=
    Function.update_of_ne (fun h => hx (by rw [h]; exact hzero)) _ _
  have hlt (x : Block × Side) : s.road x < s.curRoad + 1 := Nat.lt_succ_of_le (hs.le x)
  constructor
  · exact Nat.succ_pos _
  · intro x
    by_cases hx : x = (cur, t)
    · simp [hx]
    · simpa [Function.update_of_ne hx] using (hlt x).le
  · intro x y hxy hx
    by_cases hxcur : x = (cur, t)
    · by_cases hycur : y = (cur, t)
      · rw [hxcur, hycur]
        exact Cfg.Connected.refl _
      · have := hlt y
        simp [hxcur, Function.update_of_ne hycur] at hxy
        omega
    · by_cases hycur : y = (cur, t)
      · have := hlt x
        simp [hycur, Function.update_of_ne hxcur] at hxy
        omega
      · simp only [Function.update_of_ne hxcur, Function.update_of_ne hycur] at hxy hx
        exact hs.sound x y hxy hx
  · intro b c u hc hb
    by_cases hcur : (b, u) = (cur, t)
    · obtain ⟨rfl, rfl⟩ := Prod.mk.inj hcur
      have hne : (c, u.opposite) ≠ (b, u) := fun h => Side.opposite_ne u (congrArg Prod.snd h)
      refine Or.inr ⟨?_, by simp, Or.inl (by simp)⟩
      dsimp only
      rw [Function.update_of_ne hne]
      by_contra h0
      have := hs.neighbour hqueue (Cfg.mem_neighbours_opposite hc) h0
      rw [Side.opposite_opposite] at this
      exact h0 (this.symm.trans hzero)
    · simp only [Function.update_of_ne hcur] at hb ⊢
      have hroad := hs.neighbour hqueue hc hb
      left
      rw [hold _ (by rwa [hroad])]
      exact hroad
  · intro b u hb
    by_cases hcur : b = cur
    · subst hcur
      left
      by_cases hu : u.opposite = t
      · simp [hu]
      · have hne : (b, u.opposite) ≠ (b, t) := fun h => hu (congrArg Prod.snd h)
        obtain rfl : t = u := by cases t <;> cases u <;> simp_all [Side.opposite]
        dsimp only
        rwa [Function.update_of_ne hne]
    · have hne (v : Side) : (b, v) ≠ (cur, t) := fun h => hcur (congrArg Prod.fst h)
      simp only [Function.update_of_ne (hne _)] at hb ⊢
      rcases hs.opposite b u hb with h | h | h
      · exact Or.inl h
      · exact Or.inr (Or.inl ((List.mem_cons.mp h).resolve_left hcur))
      · exact Or.inr (Or.inr h)
  · intro b hb
    obtain ⟨u, hu⟩ := hs.waiting b (List.mem_cons_of_mem _ hb)
    exact ⟨u, by dsimp only; rwa [hold _ hu]⟩
  · dsimp only
    rw [hold _ hs.entry]
    exact hs.entry

theorem initialState_inv (g : Cfg Block) : RoadInv g ∅ (initialState g) := by
  have hroad (x : Block × Side) (hx : (initialState g).road x ≠ 0) : x = (g.entry, .roadEnd) := by
    by_contra h
    exact hx (by simp [initialState, Function.update_of_ne h])
  constructor
  · exact Nat.one_pos
  · intro x
    by_cases hx : x = (g.entry, .roadEnd) <;> simp [initialState, hx]
  · intro x y hxy hx
    rw [hroad x hx, hroad y (hxy ▸ hx)]
    exact Cfg.Connected.refl _
  · intro b c t hc hb
    obtain ⟨rfl, rfl⟩ := Prod.mk.inj (hroad _ hb)
    exact Or.inr ⟨by simp [initialState, Side.opposite], by simp [initialState],
      Or.inl (by simp [initialState])⟩
  · exact fun b t hb => Or.inr (Or.inr (hroad _ hb))
  · simp [initialState]
  · simp [initialState]

omit [DecidableEq Block] in
/-- The numbers after the last round: only the beginning of an entry block without predecessors
has none. -/
theorem RoadInv.road_ne_zero (hs : RoadInv g ∅ s) (hqueue : s.queueThisRoad = [])
    (hnext : s.queueNextRoads = []) {b : Block} (hb : g.Reachable b) :
    s.road (b, .roadEnd) ≠ 0 ∧ (b = g.entry ∨ s.road (b, .roadBegin) ≠ 0) := by
  induction hb with
  | refl => exact ⟨hs.entry, Or.inl rfl⟩
  | @tail p b _ hedge ih =>
    have hbegin : s.road (b, .roadBegin) ≠ 0 := by
      have := hs.neighbour (t := .roadEnd) hqueue hedge ih.1
      rw [Side.opposite] at this
      rw [this]
      exact ih.1
    refine ⟨?_, Or.inr hbegin⟩
    rcases hs.opposite b .roadBegin hbegin with h | h | h
    · exact h
    · simp [hnext] at h
    · cases h

variable [Fintype Block]

/-- The sides not numbered yet and the length of the queue, which bound the rounds to come. -/
def pending (s : PrepareState Block) : ℕ :=
  (Finset.univ.filter fun x => s.road x = 0).card + s.queueThisRoad.length

/-- What the loop over the neighbours `bs` does to a state. -/
structure Assigned (road : ℕ) (side : Side) (bs : List Block) (s s' : PrepareState Block) :
    Prop where
  curRoad : s'.curRoad = s.curRoad
  road : ∀ c t, s'.road (c, t) = if t = side ∧ c ∈ bs then road else s.road (c, t)
  thisRoad : ∀ c, c ∈ s'.queueThisRoad ↔
    c ∈ s.queueThisRoad ∨ c ∈ bs ∧ s.road (c, side) = 0
  nextRoads : ∀ c, c ∈ s'.queueNextRoads ↔
    c ∈ s.queueNextRoads ∨ c ∈ bs ∧ s.road (c, side) = 0 ∧ s.road (c, side.opposite) = 0
  pending : pending s' = pending s

theorem card_update_zero {road : Block × Side → ℕ} {x : Block × Side} {r : ℕ} (hr : r ≠ 0)
    (hx : road x = 0) :
    (Finset.univ.filter fun y => road y = 0).card =
      (Finset.univ.filter fun y => Function.update road x r y = 0).card + 1 := by
  have herase : (Finset.univ.filter fun y => Function.update road x r y = 0) =
      (Finset.univ.filter fun y => road y = 0).erase x := by
    ext y
    by_cases hy : y = x <;> simp [hy, hr]
  rw [herase, Finset.card_erase_add_one (by simpa using hx)]

/-- Numbering a side that has no number yet. -/
theorem assignRoad_assigned {road : ℕ} {side : Side} {b : Block} (hroad : road ≠ 0)
    (hb : s.road (b, side) = road ∨ s.road (b, side) = 0) :
    ∃ s', assignRoad road side s b = .ok s' ∧ Assigned road side [b] s s' := by
  by_cases h0 : s.road (b, side) = 0
  · have hstep : assignRoad road side s b = .ok { s with
        road := Function.update s.road (b, side) road
        queueThisRoad := s.queueThisRoad ++ [b]
        queueNextRoads := if s.road (b, side.opposite) = 0 then s.queueNextRoads ++ [b]
          else s.queueNextRoads } := by
      rw [assignRoad, if_neg (by simp [h0]), if_pos h0]
    refine ⟨_, hstep, rfl, ?_, ?_, ?_, ?_⟩
    · intro c t
      by_cases hc : t = side ∧ c = b
      · obtain ⟨rfl, rfl⟩ := hc
        simp
      · have hne : (c, t) ≠ (b, side) := fun h => hc ⟨congrArg Prod.snd h, congrArg Prod.fst h⟩
        simp [Function.update_of_ne hne, hc]
    · intro c
      by_cases hc : c = b <;> simp [hc, h0]
    · intro c
      by_cases hopp : s.road (b, side.opposite) = 0
      · by_cases hc : c = b <;> simp [hc, h0, hopp]
      · by_cases hc : c = b <;> simp [hc, hopp]
    · simp only [pending, card_update_zero hroad h0, List.length_append, List.length_singleton]
      omega
  · have hb := hb.resolve_right h0
    refine ⟨s, by rw [assignRoad, if_neg (by simp [hb]), if_neg h0], rfl, ?_, ?_, ?_, rfl⟩
    · intro c t
      split
      · rename_i hc
        obtain ⟨rfl, hc⟩ := hc
        rw [List.mem_singleton.mp hc, hb]
      · rfl
    · intro c
      by_cases hc : c = b <;> simp [hc, h0]
    · intro c
      by_cases hc : c = b <;> simp [hc, h0]

/-- Numbering a list of blocks on one side. -/
theorem assignRoads_assigned {road : ℕ} {side : Side} {bs : List Block} (hroad : road ≠ 0)
    (hbs : ∀ b ∈ bs, s.road (b, side) = road ∨ s.road (b, side) = 0) :
    ∃ s', bs.foldlM (assignRoad road side) s = .ok s' ∧ Assigned road side bs s s' := by
  induction bs generalizing s with
  | nil => exact ⟨s, rfl, rfl, by simp, by simp, by simp, rfl⟩
  | cons b bs ih =>
    obtain ⟨s₁, hstep, hs₁⟩ := assignRoad_assigned hroad (hbs b List.mem_cons_self)
    have hroad₁ (c : Block) : s₁.road (c, side) = if c = b then road else s.road (c, side) := by
      simp [hs₁.road]
    obtain ⟨s₂, hrest, hs₂⟩ := ih (s := s₁) fun c hc => by
      rw [hroad₁]
      split
      · exact Or.inl rfl
      · exact hbs c (List.mem_cons_of_mem _ hc)
    refine ⟨s₂, by rw [List.foldlM_cons, hstep]; exact hrest, hs₂.curRoad.trans hs₁.curRoad,
      ?_, ?_, ?_, hs₂.pending.trans hs₁.pending⟩
    · intro c t
      rw [hs₂.road, hs₁.road]
      by_cases ht : t = side <;> by_cases hc : c ∈ bs <;> simp [ht, hc]
    · intro c
      rw [hs₂.thisRoad, hs₁.thisRoad, hroad₁]
      by_cases hc : c = b
      · simp [hc, hroad]
      · simp [hc]
    · intro c
      rw [hs₂.nextRoads, hs₁.nextRoads, hroad₁]
      have hopp : s₁.road (c, side.opposite) = s.road (c, side.opposite) := by
        simp [hs₁.road]
      by_cases hc : c = b
      · simp [hc, hroad]
      · simp [hc, hopp]

/-! ## The steps -/

/-- A side with the road of the round gets all its neighbours numbered. -/
theorem processNeighbours_spec {side : Side} {cur : Block}
    (hs : RoadInv g (insert (cur, side) todo) s) (hcur : s.road (cur, side) = s.curRoad) :
    ∃ s', processNeighbours g side cur s = .ok s' ∧ RoadInv g todo s' ∧ pending s' = pending s := by
  have hpos : s.curRoad ≠ 0 := hs.pos.ne'
  have hbs (b : Block) (hb : b ∈ g.neighbours side cur) :
      s.road (b, side.opposite) = s.curRoad ∨ s.road (b, side.opposite) = 0 := by
    rcases hs.closed cur b side hb (by omega) with h | h
    · exact Or.inl (h.trans hcur)
    · exact Or.inr h.1
  obtain ⟨s', hstep, hs'⟩ := assignRoads_assigned hpos hbs
  have hkeep (x : Block × Side) (hx : s.road x ≠ 0) : s'.road x = s.road x := by
    obtain ⟨b, t⟩ := x
    rw [hs'.road]
    split
    · rename_i hb
      obtain ⟨rfl, hb⟩ := hb
      exact ((hbs b hb).resolve_right hx).symm
    · rfl
  have hnew (b : Block) (t : Side) : s'.road (b, t) = s.road (b, t) ∨
      s.road (b, t) = 0 ∧ s'.road (b, t) = s.curRoad ∧ t = side.opposite ∧
        b ∈ g.neighbours side cur := by
    by_cases hzero : s.road (b, t) = 0
    · rw [hs'.road]
      split
      · rename_i hb
        exact Or.inr ⟨hzero, rfl, hb⟩
      · exact Or.inl rfl
    · exact Or.inl (hkeep _ hzero)
  have hconn (x : Block × Side) (hx : s'.road x = s.curRoad) : g.Connected (cur, side) x := by
    rcases hnew x.1 x.2 with h | ⟨-, -, ht, hb⟩
    · exact hs.sound _ _ (by rw [hcur, ← hx, h]) (by omega)
    · obtain ⟨b, t⟩ := x
      obtain rfl : t = side.opposite := ht
      exact Cfg.connected_of_mem_neighbours hb
  refine ⟨s', ?_, ?_, hs'.pending⟩
  · rw [processNeighbours, if_neg (by omega), hcur]
    exact hstep
  constructor
  · rw [hs'.curRoad]
    exact hs.pos
  · intro x
    rw [hs'.curRoad]
    rcases hnew x.1 x.2 with h | ⟨-, h, -⟩
    · exact h.trans_le (hs.le _)
    · exact h.le
  · intro x y hxy hx
    by_cases hxcur : s'.road x = s.curRoad
    · exact (hconn x hxcur).symm.trans (hconn y (hxy ▸ hxcur))
    · have hold (z : Block × Side) (hz : s'.road z ≠ s.curRoad) : s'.road z = s.road z :=
        (hnew z.1 z.2).resolve_right fun h => hz h.2.1
      have hycur : s'.road y ≠ s.curRoad := hxy ▸ hxcur
      rw [hold x hxcur, hold y hycur] at hxy
      rw [hold x hxcur] at hx
      exact hs.sound x y hxy hx
  · intro b c t hc hb
    rw [hs'.curRoad]
    rcases hnew b t with hbt | ⟨hbt, hbcur, ht, hmem⟩
    · rw [hbt] at hb ⊢
      rcases hs.closed b c t hc hb with h | ⟨h0, hroad, hwhere⟩
      · exact Or.inl ((hkeep _ (by omega)).trans h)
      rcases hnew c t.opposite with hct | ⟨-, hct, -⟩
      · refine Or.inr ⟨hct.trans h0, hroad, ?_⟩
        rcases hwhere with hq | hq | hq
        · exact Or.inl ((hs'.thisRoad b).mpr (Or.inl hq))
        · -- the neighbours of the side at hand have been numbered
          obtain ⟨rfl, rfl⟩ := Prod.mk.inj hq
          rw [hs'.road, if_pos ⟨rfl, hc⟩] at hct
          omega
        · exact Or.inr hq
      · exact Or.inl (hct.trans hroad.symm)
    · rw [hbcur]
      rcases hnew c t.opposite with hct | ⟨-, hct, -⟩
      · by_cases h0 : s.road (c, t.opposite) = 0
        · exact Or.inr ⟨hct.trans h0, rfl, Or.inl ((hs'.thisRoad b).mpr
            (Or.inr ⟨hmem, ht ▸ hbt⟩))⟩
        · -- a numbered neighbour of a side without number has the road of the round
          rcases hs.closed c b t.opposite (Cfg.mem_neighbours_opposite hc) h0 with h | ⟨-, h, -⟩
          · rw [Side.opposite_opposite] at h
            omega
          · exact Or.inl (hct.trans h)
      · exact Or.inl hct
  · intro b t hb
    rcases hnew b t with hbt | ⟨hbt, hbcur, rfl, hmem⟩
    · rw [hbt] at hb
      rcases hs.opposite b t hb with h | h | h
      · exact Or.inl (by rwa [hkeep _ h])
      · exact Or.inr (Or.inl ((hs'.nextRoads b).mpr (Or.inl h)))
      · exact Or.inr (Or.inr h)
    · by_cases h0 : s.road (b, side.opposite.opposite) = 0
      · exact Or.inr (Or.inl ((hs'.nextRoads b).mpr (Or.inr ⟨hmem, hbt, h0⟩)))
      · exact Or.inl (by rwa [hkeep _ h0])
  · intro b hb
    rcases (hs'.nextRoads b).mp hb with h | ⟨h, -⟩
    · obtain ⟨t, ht⟩ := hs.waiting b h
      exact ⟨t, by rwa [hkeep _ ht]⟩
    · exact ⟨side.opposite, by rwa [hs'.road, if_pos ⟨rfl, h⟩]⟩
  · rw [hkeep _ hs.entry]
    exact hs.entry

/-- A side is dealt with once its neighbours are numbered, or if its road is not that of the
round. -/
theorem processSide_spec {side : Side} {cur : Block}
    (hs : RoadInv g (insert (cur, side) todo) s) :
    ∃ s', (if s.road (cur, side) = s.curRoad then processNeighbours g side cur s else .ok s) =
        .ok s' ∧ RoadInv g todo s' ∧ pending s' = pending s := by
  by_cases hcur : s.road (cur, side) = s.curRoad
  · rw [if_pos hcur]
    exact processNeighbours_spec hs hcur
  · refine ⟨s, if_neg hcur, { hs with closed := fun b c t hc hb => ?_ }, rfl⟩
    rcases hs.closed b c t hc hb with h | ⟨h0, hroad, hq | hq | hq⟩
    · exact Or.inl h
    · exact Or.inr ⟨h0, hroad, Or.inl hq⟩
    · exact absurd (hq ▸ hroad) hcur
    · exact Or.inr ⟨h0, hroad, Or.inr hq⟩

/-- A visit takes a block from the queue, or the queue is empty. -/
theorem visit_spec (hs : RoadInv g ∅ s) :
    s.queueThisRoad = [] ∧ visit g s = .ok none ∨
    ∃ s', visit g s = .ok (some s') ∧ RoadInv g ∅ s' ∧ pending s' < pending s := by
  cases hqueue : s.queueThisRoad with
  | nil => exact Or.inl ⟨rfl, by rw [visit, hqueue]⟩
  | cons cur rest =>
    right
    have hpop : RoadInv g (insert (cur, .roadBegin) {(cur, .roadEnd)})
        { s with queueThisRoad := rest } :=
      { hs with
        closed := fun b c t hc hb => by
          rcases hs.closed b c t hc hb with h | ⟨h0, hroad, hq | hq⟩
          · exact Or.inl h
          · rw [hqueue, List.mem_cons] at hq
            rcases hq with rfl | hq
            · exact Or.inr ⟨h0, hroad, Or.inr (by cases t <;> simp)⟩
            · exact Or.inr ⟨h0, hroad, Or.inl hq⟩
          · exact absurd hq (Set.notMem_empty _) }
    obtain ⟨s₁, hstep₁, hs₁, hpending₁⟩ := processSide_spec hpop
    rw [← insert_empty_eq] at hs₁
    obtain ⟨s₂, hstep₂, hs₂, hpending₂⟩ := processSide_spec hs₁
    refine ⟨s₂, ?_, hs₂, ?_⟩
    · rw [visit, hqueue]
      simp only [processPredecessors, processSuccessors]
      rw [hstep₁, Except.bind, hstep₂, Except.bind]
    · rw [hpending₂, hpending₁]
      simp [pending, hqueue]

/-- After a round, the next road is started, or no block is left whose sides are not both
numbered. -/
theorem nextRoad_spec {blocks : List Block}
    (hs : RoadInv g ∅ { s with queueNextRoads := blocks }) (hqueue : s.queueThisRoad = []) :
    ∃ s', nextRoad { s with curRoad := s.curRoad + 1 } blocks = .ok s' ∧ RoadInv g ∅ s' ∧
      (s'.queueThisRoad = [] → s'.queueNextRoads = []) ∧ pending s' ≤ pending s := by
  induction blocks with
  | nil =>
    refine ⟨_, rfl, ?_, fun _ => rfl, le_rfl⟩
    refine { hs with
      pos := Nat.succ_pos _
      le := fun x => (hs.le x).trans (Nat.le_succ _)
      closed := fun b c t hc hb => Or.inl (hs.neighbour hqueue hc hb) }
  | cons cur rest ih =>
    obtain ⟨t, ht⟩ := hs.waiting cur List.mem_cons_self
    by_cases hopp : s.road (cur, t.opposite) = 0
    · have hroad : (fun x : Block × Side =>
            if x.1 = cur ∧ s.road x = 0 then s.curRoad + 1 else s.road x) =
          Function.update s.road (cur, t.opposite) (s.curRoad + 1) := by
        funext x
        obtain ⟨b, u⟩ := x
        by_cases hx : (b, u) = (cur, t.opposite)
        · obtain ⟨rfl, rfl⟩ := Prod.mk.inj hx
          simp [hopp]
        · rw [Function.update_of_ne hx, if_neg]
          rintro ⟨rfl, h0⟩
          cases t <;> cases u <;> simp_all [Side.opposite]
      refine ⟨_, ?_, hs.startRoad hqueue hopp (by rwa [Side.opposite_opposite]), by simp, ?_⟩
      · rw [nextRoad, if_neg, if_neg]
        · simp only [hroad, hqueue, List.nil_append]
        · cases t <;> simp_all [Side.opposite]
        · cases t <;> simp_all [Side.opposite]
      · have hcard := card_update_zero (Nat.add_one_ne_zero s.curRoad) hopp
        simp only [pending, hqueue, List.length_singleton, List.length_nil]
        omega
    · have hboth : s.road (cur, .roadBegin) ≠ 0 ∧ s.road (cur, .roadEnd) ≠ 0 := by
        cases t
        · exact ⟨ht, hopp⟩
        · exact ⟨hopp, ht⟩
      rw [nextRoad, if_pos hboth]
      refine ih { hs with
        opposite := fun b u hb => ?_
        waiting := fun b hb => hs.waiting b (List.mem_cons_of_mem _ hb) }
      rcases hs.opposite b u hb with h | h | h
      · exact Or.inl h
      · rcases List.mem_cons.mp h with rfl | h
        · left
          cases u
          · exact hboth.2
          · exact hboth.1
        · exact Or.inr (Or.inl h)
      · exact Or.inr (Or.inr h)

/-- A round of the outer loop numbers one road. -/
theorem traceRoad_spec {fuel : ℕ} (hs : RoadInv g ∅ s)
    (hnext : s.queueThisRoad = [] → s.queueNextRoads = []) (hfuel : pending s < fuel) :
    s.queueThisRoad = [] ∧ traceRoad g fuel s = .ok none ∨
      ∃ s', traceRoad g fuel s = .ok (some s') ∧ (RoadInv g ∅ s' ∧
        (s'.queueThisRoad = [] → s'.queueNextRoads = [])) ∧ pending s' < pending s := by
  by_cases hqueue : s.queueThisRoad = []
  · exact Or.inl ⟨hqueue, if_pos hqueue⟩
  right
  obtain ⟨s₁, hloop, hs₁, hdone, hlt⟩ := loop_spec RoadError.outOfFuel (visit g) (RoadInv g ∅)
    (fun s hs => (visit_spec hs).imp_left And.right) hs hfuel
  have hqueue₁ : s₁.queueThisRoad = [] := by
    rcases visit_spec hs₁ with h | ⟨s', h, -⟩
    · exact h.1
    · rw [hdone] at h
      cases h
  obtain ⟨s₂, hstep, hs₂, hnext₂, hle⟩ := nextRoad_spec hs₁ hqueue₁
  refine ⟨s₂, ?_, ⟨hs₂, hnext₂⟩, ?_⟩
  · rw [traceRoad, if_neg hqueue, hloop]
    simp only [bind, Except.bind, hstep, pure, Except.pure]
  · rcases hlt with rfl | hlt
    · exact absurd hqueue₁ hqueue
    · omega

/-! ## The whole numbering -/

/-- The numbering ends with the invariant and with empty queues. -/
theorem exists_prepareRoads (g : Cfg Block) {fuel : ℕ} (hfuel : 2 * Fintype.card Block + 1 < fuel) :
    ∃ s, prepareRoads g fuel = .ok s ∧ RoadInv g ∅ s ∧ s.queueThisRoad = [] ∧
      s.queueNextRoads = [] := by
  have hpending : pending (initialState g) < fuel := by
    have hcard : (Finset.univ.filter fun x => (initialState g).road x = 0).card ≤
        Fintype.card (Block × Side) := Finset.card_le_univ _
    have hside : Fintype.card Side = 2 := rfl
    rw [Fintype.card_prod, hside] at hcard
    have hlength : (initialState g).queueThisRoad.length = 1 := rfl
    simp only [pending, hlength]
    omega
  obtain ⟨s, hloop, ⟨⟨hs, hnext⟩, hlt⟩, hdone, -⟩ := loop_spec RoadError.outOfFuel
    (traceRoad g fuel)
    (fun s => (RoadInv g ∅ s ∧ (s.queueThisRoad = [] → s.queueNextRoads = [])) ∧
      pending s < fuel)
    (fun s hs => (traceRoad_spec hs.1.1 hs.1.2 hs.2).imp And.right
      fun ⟨s', hstep, hs', hlt⟩ => ⟨s', hstep, ⟨hs', hlt.trans hs.2⟩, hlt⟩)
    ⟨⟨initialState_inv g, fun _ => rfl⟩, hpending⟩ hpending
  have hqueue : s.queueThisRoad = [] := by
    rcases traceRoad_spec hs hnext hlt with h | ⟨s', h, -⟩
    · exact h.1
    · rw [hdone] at h
      cases h
  exact ⟨s, hloop, hs, hqueue, hnext hqueue⟩

omit [DecidableEq Block] [Fintype Block] in
/-- At the end the two sides of an edge have the same number. -/
theorem RoadInv.edge (hs : RoadInv g ∅ s) (hqueue : s.queueThisRoad = [])
    (hnext : s.queueNextRoads = []) {p b : Block} (hp : g.Reachable p) (hb : b ∈ g.succs p) :
    s.road (p, .roadEnd) = s.road (b, .roadBegin) :=
  (hs.neighbour (t := .roadEnd) hqueue hb (hs.road_ne_zero hqueue hnext hp).1).symm

/-- **Roads agree with edges.** If every block is reachable, the numbering ends without a
violated assertion. Then the two sides of each edge have the same road, and two sides have the
same road exactly when they are connected. -/
theorem prepareRoads_spec (g : Cfg Block) (hreach : ∀ b, g.Reachable b) {fuel : ℕ}
    (hfuel : 2 * Fintype.card Block + 1 < fuel) :
    ∃ s, prepareRoads g fuel = .ok s ∧
      (∀ p b, b ∈ g.succs p → s.road (p, .roadEnd) = s.road (b, .roadBegin) ∧
        s.road (p, .roadEnd) ≠ 0) ∧
      ∀ x y, s.road x = s.road y ↔ g.Connected x y := by
  obtain ⟨s, hloop, hs, hqueue, hnext⟩ := exists_prepareRoads g hfuel
  have hroad (b : Block) := hs.road_ne_zero hqueue hnext (hreach b)
  have hedge (p b : Block) (hb : b ∈ g.succs p) : s.road (p, .roadEnd) = s.road (b, .roadBegin) :=
    hs.edge hqueue hnext (hreach p) hb
  refine ⟨s, hloop, fun p b hb => ⟨hedge p b hb, (hroad p).1⟩, fun x y => ⟨fun hxy => ?_, ?_⟩⟩
  · by_cases hx : s.road x = 0
    · -- the beginning of the entry is the only side that can be left without number
      have hentry (z : Block × Side) (hz : s.road z = 0) : z = (g.entry, .roadBegin) := by
        obtain ⟨b, t⟩ := z
        cases t with
        | roadBegin => rw [(hroad b).2.resolve_right (fun h => h hz)]
        | roadEnd => exact absurd hz (hroad b).1
      rw [hentry x hx, hentry y (hxy ▸ hx)]
      exact Cfg.Connected.refl _
    · exact hs.sound x y hxy hx
  · intro hxy
    induction hxy with
    | rel x y h =>
      obtain ⟨p, t⟩ := x
      obtain ⟨b, u⟩ := y
      obtain ⟨hb, rfl, rfl⟩ := h
      exact hedge p b hb
    | refl x => rfl
    | symm x y _ ih => exact ih.symm
    | trans x y z _ _ ih₁ ih₂ => exact ih₁.trans ih₂

/-- A loop `1 → 1` entered from `0`, with an edge from each of `0` and `1` to `2`. -/
def selfLoop : Cfg (Fin 3) where
  entry := 0
  succs := fun b => if b = 2 then [] else [1, 2]
  preds := fun b => if b = 0 then [] else [0, 1]
  mem_preds := by decide

theorem prepareRoads_spec_selfLoop :
    ∃ s, prepareRoads selfLoop 8 = .ok s ∧
      (∀ p b, b ∈ selfLoop.succs p → s.road (p, .roadEnd) = s.road (b, .roadBegin) ∧
        s.road (p, .roadEnd) ≠ 0) ∧
      ∀ x y, s.road x = s.road y ↔ selfLoop.Connected x y :=
  prepareRoads_spec selfLoop
    (fun b => by
      by_cases hb : b = 0
      · rw [hb]
        exact Relation.ReflTransGen.refl
      · refine Relation.ReflTransGen.single ?_
        revert b
        decide)
    (by decide)

end Numbering

end TVMCompiler
