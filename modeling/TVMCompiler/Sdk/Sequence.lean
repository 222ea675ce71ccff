import TVMCompiler.Sdk.CellIterator

/-!
# Sequences

A `sequence` keeps its elements in a chain of cells. The writer fills builders one after another and
keeps them in a stack; an element that might not fit the rest of a cell begins a new one. As a
reference can only lead to a cell that is complete, the cells are linked from the last one to the
first.

## Main definitions

* `Sequence.assignElem`, `Sequence.link`: the two loops of `assign`
* `Sequence.assign`: `sequence::assign`
* `Filling`: what is in the builders while they are filled

## Main results

* `put_filling`: an element is put behind those in the builders, or the stack overflows
* `assign_iterate`: the iterator and `enumerate` find the assigned elements
-/

namespace TVMCompiler.Sdk

open Lib TupleStack

namespace Sequence

def maxCellBits : ℕ := 1023

/-! ## The code -/

/-- A new builder, if the bits might not fit the current one. -/
def makeRoom (newBits : ℕ) (s : TupleStack Builder × ℕ) :
    Except ContainerError (TupleStack Builder × ℕ) :=
  if s.2 < newBits then (s.1.push .empty).map fun bldrs => (bldrs, maxCellBits) else .ok s

/-- A store in `top()`, which is there in all stacks of the loops. -/
def onTop (write : Builder → Except TvmException Builder) (bldrs : TupleStack Builder) :
    Except ContainerError (TupleStack Builder) :=
  match bldrs.top with
  | none => .error .emptyContainer
  | some b => (ofCell (write b)).map bldrs.setTop

/-- Room for the bits, the store, and the bits that remain. -/
def put (write : Builder → Except TvmException Builder) (newBits : ℕ)
    (s : TupleStack Builder × ℕ) : Except ContainerError (TupleStack Builder × ℕ) :=
  (makeRoom newBits s).bind fun s =>
    (onTop write s.1).map fun bldrs => (bldrs, s.2 - newBits)

/-- The body of the first loop. An element whose size is not known from its type is built before its
place is decided on. -/
def assignElem (t : Ty) (s : TupleStack Builder × ℕ) (elem : t.Val) :
    Except ContainerError (TupleStack Builder × ℕ) :=
  if getBitsize t ≠ 0 then put (build t elem) (getBitsize t) s
  else (ofCell (build t elem .empty)).bind fun b => put (Builder.store b) b.bits.length s

/-- The second loop, which links the cells. Each round takes one slot of the stack. -/
def link : ℕ → TupleStack Builder → Cell → Except ContainerError Cell
  | 0, _, nextCell => .ok nextCell
  | slots + 1, bldrs, nextCell =>
    match bldrs.top with
    | none => .ok nextCell
    | some b =>
      (ofCell (b.stref nextCell)).bind fun b =>
        bldrs.pop.bind fun bldrs => link slots bldrs b.endc

/-- `sequence::assign`. -/
def assign (t : Ty) (elems : List t.Val) : Except ContainerError Cell :=
  (TupleStack.new.push .empty).bind fun bldrs =>
    (elems.foldlM (assignElem t) (bldrs, maxCellBits)).bind fun s =>
      match s.1.top with
      | none => .error .emptyContainer
      | some b => s.1.pop.bind fun bldrs => link bldrs.size bldrs b.endc

/-! ## One store -/

variable {write : Builder → Except TvmException Builder} {b : Builder} {bs : List Builder}
  {bits : List Bool} {rem newBits : ℕ}

theorem onTop_ofList (hwrite : ∀ b : Builder, b.Valid → write b = b.store (.ofBits bits))
    (hrefs : b.refs = []) (hlen : b.bits.length + bits.length ≤ maxCellBits) :
    onTop write (ofList (b :: bs)) = .ok (ofList ((b ++ Slice.ofBits bits) :: bs)) := by
  have hb : b.Valid := ⟨(Nat.le_add_right _ _).trans hlen, by rw [hrefs]; exact Nat.zero_le _⟩
  have hroom : Builder.Valid (b ++ Slice.ofBits bits) := by
    constructor
    · rw [Slice.append_bits, List.length_append]
      exact hlen
    · rw [Slice.append_refs, hrefs]
      exact Nat.zero_le _
  show (ofCell (write b)).map (ofList (b :: bs)).setTop = _
  rw [hwrite b hb, store_eq_ok hroom]
  rfl

/-- The element goes into the current builder. -/
theorem put_here (hwrite : ∀ b : Builder, b.Valid → write b = b.store (.ofBits bits))
    (hrefs : b.refs = []) (hlen : b.bits.length + bits.length ≤ maxCellBits)
    (hrem : newBits ≤ rem) :
    put write newBits (ofList (b :: bs), rem) =
      .ok (ofList ((b ++ Slice.ofBits bits) :: bs), rem - newBits) := by
  rw [put, makeRoom, if_neg (Nat.not_lt_of_le hrem), Except.bind, onTop_ofList hwrite hrefs hlen]
  rfl

/-- The element begins a new builder. -/
theorem put_new (hwrite : ∀ b : Builder, b.Valid → write b = b.store (.ofBits bits))
    (hlen : bits.length ≤ maxCellBits) (hrem : rem < newBits) (hroom : bs.length ≤ maxTuple) :
    put write newBits (ofList bs, rem) =
      .ok (ofList (Slice.ofBits bits :: bs), maxCellBits - newBits) := by
  have hempty : (Slice.empty.bits).length + bits.length ≤ maxCellBits := by
    rw [show Slice.empty.bits = [] from rfl, List.length_nil, Nat.zero_add]
    exact hlen
  rw [put, makeRoom, if_pos hrem, push_ofList hroom]
  show (onTop write (ofList (.empty :: bs))).map _ = _
  rw [onTop_ofList hwrite rfl hempty, Slice.empty_append]
  rfl

theorem put_overflow (hrem : rem < newBits) (hroom : maxTuple < bs.length) :
    put write newBits (ofList bs, rem) = .error .tupleOverflow := by
  rw [put, makeRoom, if_pos hrem, push_ofList_overflow hroom]
  rfl

/-- A slot below the top is linked to the cell. -/
theorem link_cons (n : ℕ) (nextCell : Cell) (hrefs : b.refs = [])
    (hlen : b.bits.length ≤ maxCellBits) :
    link (n + 1) (ofList (b :: bs)) nextCell =
      link n (ofList bs) (.mk b.bits [nextCell]) := by
  have hvalid : Builder.Valid (b ++ (⟨[], [nextCell]⟩ : Slice)) := by
    constructor
    · rw [Slice.append_bits, List.append_nil]
      exact hlen
    · rw [Slice.append_refs, hrefs]
      exact Nat.succ_le_succ (Nat.zero_le _)
  have hstore : b.stref nextCell = .ok (b ++ (⟨[], [nextCell]⟩ : Slice)) := store_eq_ok hvalid
  have hcell : Builder.endc (b ++ (⟨[], [nextCell]⟩ : Slice)) = .mk b.bits [nextCell] := by
    rw [Builder.endc, Slice.append_bits, Slice.append_refs, hrefs, List.append_nil, List.nil_append]
  show (ofCell (b.stref nextCell)).bind _ = _
  rw [hstore]
  show (ofList (b :: bs)).pop.bind (fun bldrs => link n bldrs (Builder.endc _)) = _
  rw [pop_ofList_cons, hcell]
  rfl

/-! ## The builders -/

/-- The builder holds the encodings of the elements, and nothing else. -/
structure Filled (t : Ty) (b : Builder) (vs : List t.Val) : Prop where
  refs : b.refs = []
  length_le : b.bits.length ≤ maxCellBits
  ahead : ∀ {p vs'}, Ahead t p vs' → Ahead t (b ++ p) (vs ++ vs')

/-- The builders, the last one first, hold the elements, and none is empty. -/
inductive Written (t : Ty) : List Builder → List t.Val → Prop where
  | nil : Written t [] []
  | cons {b : Builder} {bs : List Builder} {vs vs' : List t.Val} (hbs : Written t bs vs)
    (h : Filled t b vs') (hne : b.bits ≠ []) : Written t (b :: bs) (vs ++ vs')

/-- The builders hold the elements, the current one has room for the remaining bits, and only the
first one can be empty. -/
inductive Filling (t : Ty) : TupleStack Builder × ℕ → List t.Val → Prop where
  | mk {b : Builder} {bs : List Builder} {vs vs' : List t.Val} {rem : ℕ} (hbs : Written t bs vs)
    (h : Filled t b vs') (hrem : b.bits.length + rem ≤ maxCellBits)
    (hempty : b.bits = [] → bs = [] ∧ rem = maxCellBits) :
    Filling t (ofList (b :: bs), rem) (vs ++ vs')

variable {t : Ty} {vs vs' : List t.Val} {v : t.Val}

theorem filled_empty (t : Ty) : Filled t .empty [] :=
  ⟨rfl, Nat.zero_le _, fun h => by rwa [Slice.empty_append, List.nil_append]⟩

theorem Filled.append (h : Filled t b vs) (henc : Encodes t v bits)
    (hlen : b.bits.length + bits.length ≤ maxCellBits) :
    Filled t (b ++ Slice.ofBits bits) (vs ++ [v]) := by
  refine ⟨?_, ?_, fun {p vs'} hp => ?_⟩
  · rw [Slice.append_refs, h.refs]
    rfl
  · rw [Slice.append_bits, List.length_append]
    exact hlen
  · rw [Slice.append_assoc, List.append_assoc]
    exact h.ahead (.elem henc hp)

theorem Filled.eq_nil (h : Filled t b vs) (hbits : b.bits = []) : vs = [] := by
  have hahead := h.ahead .nil
  rw [Slice.append_empty, List.append_nil] at hahead
  rcases hahead.behind hbits with ⟨-, hnil⟩ | ⟨cl, hcl, -, -⟩
  · exact hnil
  · have hrefs := h.refs
    rw [hcl] at hrefs
    cases hrefs

/-- **An element is put behind those in the builders**, or the stack overflows. -/
theorem put_filling {s : TupleStack Builder × ℕ} (h : Filling t s vs) (henc : Encodes t v bits)
    (hwrite : ∀ b : Builder, b.Valid → write b = b.store (.ofBits bits))
    (hbits : bits.length ≤ newBits) (hnew : newBits ≤ maxCellBits) :
    put write newBits s = .error .tupleOverflow ∨
      ∃ s', put write newBits s = .ok s' ∧ Filling t s' (vs ++ [v]) := by
  cases h with
  | @mk b bs vs₁ vs₂ rem hbs hb hrem hempty =>
    by_cases hfits : newBits ≤ rem
    · have hlen : b.bits.length + bits.length ≤ maxCellBits := by omega
      refine Or.inr ⟨_, put_here hwrite hb.refs hlen hfits, ?_⟩
      rw [List.append_assoc]
      refine .mk hbs (hb.append henc hlen) ?_ fun hnil => ?_
      · rw [Slice.append_bits, List.length_append]
        show b.bits.length + bits.length + (rem - newBits) ≤ maxCellBits
        omega
      · rw [Slice.append_bits] at hnil
        exact absurd (List.append_eq_nil_iff.mp hnil).2 henc.ne_nil
    · -- an empty builder has room for every element
      have hne : b.bits ≠ [] := fun hnil => hfits (hnew.trans_eq (hempty hnil).2.symm)
      by_cases hroom : (b :: bs).length ≤ maxTuple
      · have hlen : bits.length ≤ maxCellBits := hbits.trans hnew
        have hfilled : Filled t (Slice.ofBits bits) [v] := by
          have hlen' : Slice.empty.bits.length + bits.length ≤ maxCellBits := by
            rw [show Slice.empty.bits = [] from rfl, List.length_nil, Nat.zero_add]
            exact hlen
          have happend := (filled_empty t).append henc hlen'
          rwa [Slice.empty_append] at happend
        refine Or.inr ⟨_, put_new hwrite hlen (Nat.lt_of_not_le hfits) hroom, ?_⟩
        refine .mk (.cons hbs hb hne) hfilled ?_ fun hnil => absurd hnil henc.ne_nil
        show bits.length + (maxCellBits - newBits) ≤ maxCellBits
        omega
      · exact Or.inl (put_overflow (Nat.lt_of_not_le hfits) (Nat.lt_of_not_le hroom))

/-! ## The loops -/

theorem assignElem_filling {s : TupleStack Builder × ℕ} (h : Filling t s vs)
    (henc : Encodes t v bits) (hfits : Fits t [] v) (hsize : getBitsize t ≤ maxCellBits) :
    assignElem t s v = .error .tupleOverflow ∨
      ∃ s', assignElem t s v = .ok s' ∧ Filling t s' (vs ++ [v]) := by
  by_cases hfixed : getBitsize t ≠ 0
  · rw [assignElem, if_pos hfixed]
    exact put_filling h henc henc.build (henc.length_le_getBitsize hfixed hfits) hsize
  · rw [assignElem, if_neg hfixed, henc.build_empty]
    exact put_filling h henc (fun _ _ => rfl) le_rfl henc.length_le

theorem foldlM_filling (hsize : getBitsize t ≤ maxCellBits) {elems : List t.Val}
    (helems : ∀ v ∈ elems, Fits t [] v ∧ ∃ bits, Encodes t v bits)
    {s : TupleStack Builder × ℕ} (h : Filling t s vs) :
    elems.foldlM (assignElem t) s = .error .tupleOverflow ∨
      ∃ s', elems.foldlM (assignElem t) s = .ok s' ∧ Filling t s' (vs ++ elems) := by
  induction elems generalizing s vs with
  | nil => exact Or.inr ⟨s, rfl, by rwa [List.append_nil]⟩
  | cons v elems ih =>
    obtain ⟨hfits, bits, henc⟩ := helems v List.mem_cons_self
    rw [List.foldlM_cons]
    rcases assignElem_filling h henc hfits hsize with hover | ⟨s', hs', hnext⟩
    · rw [hover]
      exact Or.inl rfl
    · rw [hs', List.append_cons]
      exact ih (fun v' hv' => helems v' (List.mem_cons_of_mem _ hv')) hnext

/-- The builders below a cell become the chain in front of it. -/
theorem link_written (hbs : Written t bs vs) {nextCell : Cell} (hahead : Ahead t nextCell.ctos vs')
    (hne : nextCell.ctos.bits ≠ []) (hchain : IsChain nextCell) :
    ∃ cl, link bs.length (ofList bs) nextCell = .ok cl ∧ Ahead t cl.ctos (vs ++ vs') ∧
      cl.ctos.bits ≠ [] ∧ IsChain cl := by
  induction hbs generalizing nextCell vs' with
  | nil => exact ⟨nextCell, rfl, hahead, hne, hchain⟩
  | @cons b bs vs vs₂ hbs hb hbits ih =>
    have hcell : Ahead t (Cell.mk b.bits [nextCell]).ctos (vs₂ ++ vs') := by
      have happend := hb.ahead (.ref hne hahead)
      rwa [show b ++ (⟨[], [nextCell]⟩ : Slice) = ⟨b.bits, [nextCell]⟩ by
        ext1
        · exact List.append_nil _
        · rw [Slice.append_refs, hb.refs]
          rfl] at happend
    obtain ⟨cl, hlink, hcl, hclbits, hclchain⟩ := ih hcell hbits (.next hb.length_le hchain)
    refine ⟨cl, ?_, ?_, hclbits, hclchain⟩
    · rw [List.length_cons, link_cons _ _ hb.refs hb.length_le, hlink]
    · rwa [List.append_assoc]

/-- What the second loop makes of the builders. -/
theorem link_filling {s : TupleStack Builder × ℕ} (h : Filling t s vs) :
    ∃ b bldrs cl, s.1.top = some b ∧ s.1.pop = .ok bldrs ∧
      link bldrs.size bldrs b.endc = .ok cl ∧ Ahead t cl.ctos vs ∧
      (cl.ctos.bits = [] → vs = []) ∧ IsChain cl := by
  cases h with
  | @mk b bs vs₁ vs₂ rem hbs hb hrem hempty =>
    have hahead : Ahead t b.endc.ctos vs₂ := by
      have happend := hb.ahead .nil
      rwa [Slice.append_empty, List.append_nil] at happend
    have hchain : IsChain b.endc := by
      rw [Builder.endc, hb.refs]
      exact .last hb.length_le
    refine ⟨b, ofList bs, ?_⟩
    rw [size_ofList]
    by_cases hbits : b.bits = []
    · -- the only builder, without elements
      obtain ⟨rfl, -⟩ := hempty hbits
      cases hbs
      exact ⟨b.endc, rfl, pop_ofList_cons, rfl, hahead, fun _ => hb.eq_nil hbits, hchain⟩
    · obtain ⟨cl, hlink, hcl, hclbits, hclchain⟩ := link_written hbs hahead hbits hchain
      exact ⟨cl, rfl, pop_ofList_cons, hlink, hcl, fun hnil => absurd hnil hclbits, hclchain⟩

/-- **Sequences round-trip through their chain of cells**: unless the stack of builders overflows,
`assign` makes a chain in which the iterator and `enumerate` find the elements, if each of them has
an encoding of at least one bit and no references that its parser reads back. -/
theorem assign_iterate (t : Ty) (hsize : getBitsize t < maxCellBits) (elems : List t.Val)
    (hfits : ∀ v ∈ elems, Fits t [] v)
    (hbuild : ∀ v ∈ elems, ∃ bits, bits ≠ [] ∧ build t v .empty = .ok (.ofBits bits))
    (hread : ∀ v ∈ elems, RoundTrips (build t v) (parse t []) (some v))
    (hroom : assign t elems ≠ .error .tupleOverflow) :
    ∃ cl, assign t elems = .ok cl ∧ IsChain cl ∧ ∃ n, ∀ fuel, n ≤ fuel →
      CellIterator.iterate t fuel cl = some (.ok elems) ∧
        CellIterator.enumerate t fuel cl.ctos = some (.ok elems) := by
  have helems : ∀ v ∈ elems, Fits t [] v ∧ ∃ bits, Encodes t v bits := by
    intro v hv
    obtain ⟨bits, hne, hbits⟩ := hbuild v hv
    exact ⟨hfits v hv, bits, encodes_of_build hne hbits (hread v hv)⟩
  have hstart : Filling t (ofList [.empty], maxCellBits) [] :=
    .mk .nil (filled_empty t) (by rw [show Slice.empty.bits = [] from rfl, List.length_nil, Nat.zero_add])
      fun _ => ⟨rfl, rfl⟩
  unfold assign at hroom ⊢
  rw [show (TupleStack.new.push Slice.empty) = .ok (ofList [.empty]) from rfl, Except.bind]
    at hroom ⊢
  rcases foldlM_filling hsize.le helems hstart with hover | ⟨s, hs, hfilling⟩
  · rw [hover] at hroom
    exact absurd rfl hroom
  · rw [List.nil_append] at hfilling
    obtain ⟨b, bldrs, cl, htop, hpop, hlink, hahead, hbits, hchain⟩ := link_filling hfilling
    refine ⟨cl, ?_, hchain, elems.length + 2, fun fuel hfuel => ?_⟩
    · rw [hs, Except.bind, htop]
      dsimp only
      rw [hpop]
      exact hlink
    · obtain ⟨more, rfl⟩ := Nat.exists_eq_add_of_le' hfuel
      constructor
      · have hiterate := CellIterator.iterate_of_ahead hahead hbits (more + 1)
        rwa [Nat.add_right_comm] at hiterate
      · exact CellIterator.enumerate_of_ahead elems.length le_rfl hahead hbits more

section Example

/-- Elements of variable size that one cell has no room for. -/
def wideElems : List (Option (List Bool)) :=
  [some (List.replicate 512 true), none, some (List.replicate 512 false)]

theorem build_optional_bitfield (bitlen : ℕ) {bs : List Bool} (hbs : bs.length < maxCellBits) :
    build (.optional (.bitfield bitlen)) (some bs) .empty = .ok (.ofBits (true :: bs)) := by
  have hvalid : Builder.Valid (Slice.ofBits [true] ++ Slice.ofBits bs) := by
    refine ⟨?_, Nat.zero_le _⟩
    show (true :: bs).length ≤ _
    exact hbs
  exact store_eq_ok hvalid

theorem assign_iterate_optional :
    ∃ cl, assign (.optional (.bitfield 512)) wideElems = .ok cl ∧ IsChain cl ∧
      ∃ n, ∀ fuel, n ≤ fuel →
        CellIterator.iterate (.optional (.bitfield 512)) fuel cl = some (.ok wideElems) ∧
          CellIterator.enumerate (.optional (.bitfield 512)) fuel cl.ctos =
            some (.ok wideElems) := by
  have hlengths : wideElems.all (fun v => v.all fun bs => bs.length == 512) = true := by
    decide +kernel
  have hlength (bs : List Bool) (hbs : some bs ∈ wideElems) : bs.length = 512 :=
    beq_iff_eq.mp (List.all_eq_true.mp hlengths (some bs) hbs)
  have hok : (assign (.optional (.bitfield 512)) wideElems).isOk = true := by decide +kernel
  have hfits : ∀ v ∈ wideElems, Fits (.optional (.bitfield 512)) [] v := fun v hv => by
    cases v with
    | none => exact trivial
    | some bs => exact hlength bs hv
  refine assign_iterate (.optional (.bitfield 512)) (by decide) wideElems hfits (fun v hv => ?_)
    (fun v hv => build_roundTrips (.optional (.bitfield 512)) [] v trivial (hfits v hv))
    fun hover => ?_
  · cases v with
    | none => exact ⟨[false], List.cons_ne_nil _ _, rfl⟩
    | some bs =>
      have hlt : bs.length < maxCellBits := lt_of_eq_of_lt (hlength bs hv) (by decide)
      exact ⟨_, List.cons_ne_nil _ _, build_optional_bitfield 512 hlt⟩
  · rw [hover] at hok
    cases hok

/-- An element of a variant without tags is read as two elements of the first alternative. -/
theorem not_assign_iterate_untagged :
    ¬ ∃ cl, assign (.variant [.uint 8, .uint 16]) [.inr (.inl (5 : ℕ))] = .ok cl ∧
      ∃ n, ∀ fuel, n ≤ fuel → CellIterator.iterate (.variant [.uint 8, .uint 16]) fuel cl =
        some (.ok [.inr (.inl (5 : ℕ))]) := by
  rintro ⟨cl, hcl, n, hread⟩
  obtain rfl : cl = .mk (natBits 16 5) [] := (Except.ok.inj hcl).symm
  -- the loop finds the two bytes of the element
  have hbytes : CellIterator.iterate (.variant [.uint 8, .uint 16]) (n + 3)
      (.mk (natBits 16 5) []) = some (.ok [.inl (0 : ℕ), .inl (5 : ℕ)]) := rfl
  have hlength := congrArg (Option.map fun r => r.toOption.map List.length)
    ((hread (n + 3) (Nat.le_add_right n 3)).symm.trans hbytes)
  cases hlength

end Example

end Sequence

end TVMCompiler.Sdk
