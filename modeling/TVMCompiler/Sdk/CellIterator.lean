import TVMCompiler.Sdk.Encoding
import TVMCompiler.Sdk.TupleStack

/-!
# Reading the elements of a chain of cells

Sequences keep their elements one after another in a chain of cells, each of which refers to the
next one. An iterator holds the element in front and what follows it; it leaves a cell for the next
one when no bits are left in it.

## Main definitions

* `CellIterator` and its operations: the iterators of `sequence` and `log_sequence`
* `walk`, `enumerate`: the loop over the elements, and the member `enumerate`
* `Ahead`: the elements that lie ahead in a slice
* `IsChain`: a chain of cells

## Main results

* `walk_of_ahead`, `enumerate_of_ahead`: both loops find the elements ahead, in order
-/

namespace TVMCompiler.Sdk

open Lib

/-- An exception of the machine, in the code over the containers. -/
def ofCell {α : Type} (x : Except TvmException α) : Except ContainerError α := x.mapError .cell

/-- `const_iterator` of `sequence` and `const_reverse_iterator` of `log_sequence`. -/
structure CellIterator (t : Ty) where
  p : Slice
  elem : Option t.Val

namespace CellIterator

variable (t : Ty)

def isEnd {t : Ty} (it : CellIterator t) : Bool := it.elem.isNone

/-- The element in front, if its parser gives one. -/
def parseContinue (p : Slice) : Except ContainerError (CellIterator t) :=
  (ofCell (parse t [] p)).map fun r => ⟨r.2, r.1⟩

/-- `create_begin` and `create_rbegin`, which differ in the position of an iterator without an
element. -/
def createBegin (cl : Cell) : Except ContainerError (CellIterator t) :=
  if cl.ctos.bits = [] then .ok ⟨.empty, none⟩ else parseContinue t cl.ctos

/-- `operator++`. -/
def next (it : CellIterator t) : Except ContainerError (CellIterator t) :=
  match it.elem with
  | none => .error .iteratorOverflow
  | some _ =>
    if it.p.bits = [] then
      if it.p.refs = [] then .ok { it with elem := none }
      else (ofCell it.p.ldref).bind fun r => parseContinue t r.1.ctos
    else parseContinue t it.p

/-- The loop from an iterator to the end, with the elements that it passes. -/
def walk : ℕ → CellIterator t → Option (Except ContainerError (List t.Val))
  | 0, _ => none
  | fuel + 1, it =>
    match it.elem with
    | none => some (.ok [])
    | some v =>
      match next t it with
      | .error e => some (.error e)
      | .ok it => (walk fuel it).map (Except.map (v :: ·))

/-- The loop over all elements. -/
def iterate (fuel : ℕ) (cl : Cell) : Option (Except ContainerError (List t.Val)) :=
  match createBegin t cl with
  | .error e => some (.error e)
  | .ok it => walk t fuel it

/-- The inner loop of `enumerate`: the elements in a cell, and what is left of it. -/
def drain : ℕ → Slice → Option (Except ContainerError (List t.Val × Slice))
  | 0, _ => none
  | fuel + 1, p =>
    if p.bits = [] then some (.ok ([], p))
    else
      match parse t [] p with
      | .error e => some (.error (.cell e))
      | .ok (none, p) => some (.ok ([], p))
      | .ok (some v, p) => (drain fuel p).map (Except.map fun r => (v :: r.1, r.2))

/-- `enumerate`, with the elements that the function is called with. -/
def enumerate : ℕ → Slice → Option (Except ContainerError (List t.Val))
  | 0, _ => none
  | fuel + 1, cur =>
    match drain t fuel cur with
    | none => none
    | some (.error e) => some (.error e)
    | some (.ok (vs, p)) =>
      match p.refs with
      | [] => some ((ofCell p.ends).map fun _ => vs)
      | cl :: refs =>
        match Slice.ends { p with refs := refs } with
        | .error e => some (.error (.cell e))
        | .ok _ => (enumerate fuel cl.ctos).map (Except.map (vs ++ ·))

end CellIterator

/-! ## What lies ahead -/

/-- The encodings of the elements follow one another in the slice and in the cells behind its
reference. A cell behind a reference is not empty. -/
inductive Ahead (t : Ty) : Slice → List t.Val → Prop where
  | nil : Ahead t .empty []
  | elem {v : t.Val} {bs : List Bool} {p : Slice} {vs : List t.Val} (henc : Encodes t v bs)
    (hrest : Ahead t p vs) : Ahead t (.ofBits bs ++ p) (v :: vs)
  | ref {cl : Cell} {vs : List t.Val} (hbits : cl.ctos.bits ≠ []) (hcl : Ahead t cl.ctos vs) :
    Ahead t ⟨[], [cl]⟩ vs

/-- Every cell keeps to the limit of bits and has at most one reference. -/
inductive IsChain : Cell → Prop where
  | last {bits : List Bool} (h : bits.length ≤ Builder.maxBits) : IsChain (.mk bits [])
  | next {bits : List Bool} {cl : Cell} (h : bits.length ≤ Builder.maxBits) (hcl : IsChain cl) :
    IsChain (.mk bits [cl])

/-- The chain goes on with more bits in its first cell. -/
theorem IsChain.append {cl : Cell} {bits : List Bool} (h : IsChain cl)
    (hlen : bits.length + cl.ctos.bits.length ≤ Builder.maxBits) :
    IsChain (.mk (bits ++ cl.ctos.bits) cl.ctos.refs) := by
  rw [← List.length_append] at hlen
  cases h with
  | last h => exact .last hlen
  | next h hcl => exact .next hlen hcl

section Reading

variable {t : Ty} {p : Slice} {vs : List t.Val} {v : t.Val}

theorem ofBits_append_bits_ne_nil {bs : List Bool} (h : bs ≠ []) :
    (Slice.ofBits bs ++ p).bits ≠ [] := by
  rw [Slice.append_bits]
  exact List.append_ne_nil_of_left_ne_nil h _

/-- An element is in front of a slice that has bits. -/
theorem Ahead.front (h : Ahead t p vs) (hbits : p.bits ≠ []) :
    ∃ v vs' p', vs = v :: vs' ∧ parse t [] p = .ok (some v, p') ∧ Ahead t p' vs' := by
  cases h with
  | nil => exact absurd rfl hbits
  | elem henc hrest => exact ⟨_, _, _, rfl, henc.parse _, hrest⟩
  | ref hcl hne => exact absurd rfl hbits

theorem Ahead.of_nil (h : Ahead t p []) : p = .empty := by
  cases h with
  | nil => rfl
  | ref hbits hcl =>
    obtain ⟨v, vs', p', hvs, -, -⟩ := hcl.front hbits
    cases hvs

/-- A slice without bits has nothing ahead, or a reference to the cell that has it. -/
theorem Ahead.behind (h : Ahead t p vs) (hbits : p.bits = []) :
    (p = .empty ∧ vs = []) ∨
      ∃ cl, p = ⟨[], [cl]⟩ ∧ cl.ctos.bits ≠ [] ∧ Ahead t cl.ctos vs := by
  cases h with
  | nil => exact Or.inl ⟨rfl, rfl⟩
  | elem henc hrest => exact absurd hbits (ofBits_append_bits_ne_nil henc.ne_nil)
  | ref hne hcl => exact Or.inr ⟨_, rfl, hne, hcl⟩

namespace CellIterator

theorem parseContinue_of_ahead (h : Ahead t p vs) (hbits : p.bits ≠ []) :
    ∃ v vs' p', vs = v :: vs' ∧ parseContinue t p = .ok ⟨p', some v⟩ ∧ Ahead t p' vs' := by
  obtain ⟨v, vs', p', hvs, hparse, hahead⟩ := h.front hbits
  refine ⟨v, vs', p', hvs, ?_, hahead⟩
  rw [parseContinue, hparse]
  rfl

/-- A step leads to the next element, which may be in the next cell. -/
theorem next_of_ahead {v' : t.Val} (h : Ahead t p (v :: vs)) :
    ∃ p', next t ⟨p, some v'⟩ = .ok ⟨p', some v⟩ ∧ Ahead t p' vs := by
  by_cases hbits : p.bits = []
  · rcases h.behind hbits with ⟨-, hnil⟩ | ⟨cl, rfl, hne, hcl⟩
    · cases hnil
    · obtain ⟨_, _, p', hvs, hparse, hahead⟩ := parseContinue_of_ahead hcl hne
      cases hvs
      exact ⟨p', hparse, hahead⟩
  · obtain ⟨_, _, p', hvs, hparse, hahead⟩ := parseContinue_of_ahead h hbits
    cases hvs
    refine ⟨p', ?_, hahead⟩
    show (if p.bits = [] then _ else parseContinue t p) = _
    rw [if_neg hbits, hparse]

theorem walk_next {it : CellIterator t} (fuel : ℕ) (h : next t ⟨p, some v⟩ = .ok it) :
    walk t (fuel + 1) ⟨p, some v⟩ = (walk t fuel it).map (Except.map (v :: ·)) := by
  rw [walk, h]

/-- **The loop passes the elements ahead**, in order. -/
theorem walk_of_ahead (h : Ahead t p vs) (fuel : ℕ) :
    walk t (fuel + (vs.length + 2)) ⟨p, some v⟩ = some (.ok (v :: vs)) := by
  induction vs generalizing p v with
  | nil =>
    rw [h.of_nil]
    rfl
  | cons v' vs ih =>
    obtain ⟨p', hnext, hahead⟩ : ∃ p', next t ⟨p, some v⟩ = .ok ⟨p', some v'⟩ ∧ Ahead t p' vs :=
      next_of_ahead h
    rw [List.length_cons, show fuel + (vs.length + 1 + 2) = fuel + (vs.length + 2) + 1 from rfl,
      walk_next _ hnext, ih hahead]
    rfl

theorem iterate_of_ahead {cl : Cell} (h : Ahead t cl.ctos vs)
    (hbits : cl.ctos.bits = [] → vs = []) (fuel : ℕ) :
    iterate t (fuel + (vs.length + 1)) cl = some (.ok vs) := by
  unfold iterate createBegin
  by_cases hnil : cl.ctos.bits = []
  · rw [if_pos hnil, hbits hnil]
    rfl
  · obtain ⟨v, vs', p', rfl, hparse, hahead⟩ := parseContinue_of_ahead h hnil
    rw [if_neg hnil, hparse]
    exact walk_of_ahead hahead fuel

theorem drain_stop (fuel : ℕ) (hbits : p.bits = []) :
    drain t (fuel + 1) p = some (.ok ([], p)) := by
  rw [drain, if_pos hbits]

theorem drain_elem {p' : Slice} (fuel : ℕ) (hbits : p.bits ≠ [])
    (hparse : parse t [] p = .ok (some v, p')) :
    drain t (fuel + 1) p = (drain t fuel p').map (Except.map fun r => (v :: r.1, r.2)) := by
  rw [drain, if_neg hbits, hparse]

/-- The inner loop finds the elements of the cell. The others are behind its reference. -/
theorem drain_of_ahead (h : Ahead t p vs) :
    ∃ here there p', vs = here ++ there ∧ Ahead t p' there ∧ p'.bits = [] ∧
      (p.bits ≠ [] → here ≠ []) ∧
      ∀ fuel, drain t (fuel + (here.length + 1)) p = some (.ok (here, p')) := by
  induction vs generalizing p with
  | nil =>
    rw [h.of_nil]
    exact ⟨[], [], .empty, rfl, .nil, rfl, fun hne => absurd rfl hne, fun fuel => rfl⟩
  | cons v vs ih =>
    by_cases hbits : p.bits = []
    · refine ⟨[], v :: vs, p, rfl, h, hbits, fun hne => absurd hbits hne, fun fuel => ?_⟩
      exact drain_stop fuel hbits
    · obtain ⟨_, _, p₁, hvs, hparse, hahead⟩ := h.front hbits
      cases hvs
      obtain ⟨here, there, p', rfl, hthere, hbits', -, hdrain⟩ := ih hahead
      refine ⟨v :: here, there, p', rfl, hthere, hbits', fun _ => List.cons_ne_nil _ _,
        fun fuel => ?_⟩
      rw [List.length_cons, ← Nat.add_assoc, drain_elem _ hbits hparse, hdrain fuel]
      rfl

/-- The last cell. -/
theorem enumerate_last {fuel : ℕ} (h : drain t fuel p = some (.ok (vs, .empty))) :
    enumerate t (fuel + 1) p = some (.ok vs) := by
  rw [enumerate, h]
  rfl

theorem enumerate_next {fuel : ℕ} {cl : Cell} (h : drain t fuel p = some (.ok (vs, ⟨[], [cl]⟩))) :
    enumerate t (fuel + 1) p = (enumerate t fuel cl.ctos).map (Except.map (vs ++ ·)) := by
  rw [enumerate, h]
  rfl

/-- **`enumerate` calls its function with the elements ahead**, in order. -/
theorem enumerate_of_ahead (n : ℕ) : ∀ {p : Slice} {vs : List t.Val}, vs.length ≤ n →
    Ahead t p vs → (p.bits = [] → vs = []) →
    ∀ fuel, enumerate t (fuel + (n + 2)) p = some (.ok vs) := by
  induction n with
  | zero =>
    intro p vs hlen h _ fuel
    obtain rfl := List.length_eq_zero_iff.mp (Nat.le_zero.mp hlen)
    rw [h.of_nil]
    rfl
  | succ n ih =>
    intro p vs hlen h hbits fuel
    obtain ⟨here, there, p', rfl, hthere, hbits', hhere, hdrain⟩ := drain_of_ahead h
    rw [List.length_append] at hlen
    have hrun : drain t (fuel + (n + 2)) p = some (.ok (here, p')) := by
      obtain ⟨more, hmore⟩ := Nat.exists_eq_add_of_le' (show here.length + 1 ≤ fuel + (n + 2) by omega)
      rw [hmore]
      exact hdrain more
    rcases hthere.behind hbits' with ⟨rfl, rfl⟩ | ⟨cl, rfl, hne, hcl⟩
    · rw [List.append_nil]
      exact enumerate_last hrun
    · -- the elements behind the reference are fewer than those ahead
      have hpos : here ≠ [] := by
        refine hhere fun hp => ?_
        obtain ⟨_, _, _, rfl, -, -⟩ := hcl.front hne
        exact List.append_ne_nil_of_right_ne_nil _ (List.cons_ne_nil _ _) (hbits hp)
      have hthere : there.length ≤ n := by
        have := List.length_pos_iff.mpr hpos
        omega
      have hnext := ih hthere hcl (fun hnil => absurd hnil hne) fuel
      rw [show fuel + (n + 1 + 2) = fuel + (n + 2) + 1 from rfl, enumerate_next hrun, hnext]
      rfl

end CellIterator

end Reading

end TVMCompiler.Sdk
