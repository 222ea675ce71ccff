import TVMCompiler.Sdk.ChainTuple

/-!
# Static chains

A value is built as a chain of cells whose cuts follow from its type. The reader computes the
same cuts, parses the nested tuple, and folds the row of leaves back along the type. References
to the next cell may stand anywhere inside a struct.

## Main definitions

* `unwrap`, `foldElem`, `chainFold`: the fold of a nested tuple
* `buildChainStatic`, `parseChainStatic`: the writer and the reader
* `Presents`: a nested tuple holds a row of elements
* `Cell.chain`: the cells of a chain

## Main results

* `presents_nest`: nesting keeps the elements
* `foldElem_spec`: the fold takes exactly the elements of a value
* `parse_buildChainStatic`: the reader returns what the writer has built, and each cell keeps to
  the limits
-/

namespace TVMCompiler.Sdk

open Lib

/-! ## Folding -/

/-- A reference in front of something that is not one leads to the next cell. `none` is the
failed assertion that nothing follows the reference, or that there is nothing left to fold. -/
def unwrap : List Elem → Option (List Elem)
  | [] => none
  | [⟨.ref (.tuple ts), vs⟩] => unwrap (elems ts vs)
  | ⟨.ref _, _⟩ :: _ => none
  | e :: l => some (e :: l)
termination_by l => types l
decreasing_by
  rw [types_elems ts vs]
  simp
  omega

/-- The next element of a row. -/
def popFront : List Elem → Option (Elem × List Elem)
  | [] => none
  | e :: l => some (e, l)

mutual

/-- `chain_fold_elem`: an element of a type from the front of a row, and what is left. -/
def foldElem : Ty → List Elem → Option (Elem × List Elem)
  | .tuple ts, l =>
    (unwrap l).bind fun l => (foldSeq ts l).map fun r => (.tuple r.1, r.2)
  | .struct ts, l =>
    (unwrap l).bind fun l => (foldSeq ts l).map fun r => (.struct r.1, r.2)
  | .ref _, l => popFront l
  | _, l => (unwrap l).bind popFront

/-- `chain_fold_cont`. -/
def foldSeq : List Ty → List Elem → Option (List Elem × List Elem)
  | [], l => some ([], l)
  | t :: ts, l =>
    (foldElem t l).bind fun r => (foldSeq ts r.2).map fun s => (r.1 :: s.1, s.2)

end

/-- `chain_fold_tup`: nothing may be left. -/
def chainFoldTup (ts : List Ty) (l : List Elem) : Option (List Elem) :=
  (foldSeq ts l).bind fun r => match r.2 with
    | [] => some r.1
    | _ :: _ => none

/-! ## Building and parsing -/

/-- `make_chain_tuple`. `none` is a tuple that does not compile. -/
def makeChainTuple (offset refsOffset : ℕ) (ts : List Ty) (vs : SeqVal ts) : Option (List Elem) :=
  match makeExpandedTuple ts vs with
  | [] => some []
  | l => (cellSizes offset refsOffset (types l)).map (nest · l)

/-- The type of `make_chain_tuple`. -/
def chainTypes (offset refsOffset : ℕ) (ts : List Ty) : Option (List Ty) :=
  match expandTypes ts with
  | [] => some []
  | ts => (cellSizes offset refsOffset ts).map (nestTypes · ts)

/-- `build(chain_tup).make_cell()`. -/
def buildElems (l : List Elem) : Except TvmException Cell :=
  (build (.tuple (types l)) (tupleVal l) .empty).map Builder.endc

/-- `build_chain_static`. -/
def buildChainStatic : (t : Ty) → t.Val → Option (Except TvmException Cell)
  | .tuple ts, vs => (makeChainTuple 0 0 ts vs).map buildElems
  | .struct ts, vs => (makeChainTuple 0 0 ts vs).map buildElems
  | _, _ => none

/-- What a reader of messages or data throws. -/
inductive ParseError where
  | exception (e : TvmException)
  | customDataParseError
  | badArguments
  | methodCalledWithoutInit
  | persistentDataParseError
  | nonSingleRefsAtCellWrap
  | nonEmptyBitsAtCellWrap
  deriving DecidableEq, Repr

/-- The outcome of a reader. `none` is a reader that does not compile. -/
abbrev Read (α : Type) := Option (Except ParseError α)

namespace Read

variable {α β : Type}

abbrev value (a : α) : Read α := some (.ok a)

def throw (e : ParseError) : Read α := some (.error e)

def bind : Read α → (α → Read β) → Read β
  | none, _ => none
  | some (.error e), _ => throw e
  | some (.ok a), f => f a

def map (f : α → β) (x : Read α) : Read β := x.bind fun a => value (f a)

@[simp] theorem bind_value (a : α) (f : α → Read β) : (value a).bind f = f a := rfl

@[simp] theorem map_value (a : α) (f : α → β) : (value a).map f = value (f a) := rfl

/-- A load. -/
def ofLoad : Except TvmException α → Read α
  | .error e => throw (.exception e)
  | .ok a => value a

/-- `parse_continue` with an error for an empty result, and `parse` with the default one. -/
def ofParsed (x : Parsed α) (noValue : ParseError) : Read (α × Slice) :=
  (ofLoad x).bind fun r => match r.1 with
    | none => throw noValue
    | some a => value (a, r.2)

end Read

/-- The nested tuple is parsed and folded along the types of the elements. -/
def parseFold (linear ts : List Ty) (p : Slice) : Read (List Elem) :=
  (Read.ofParsed (parse (.tuple linear) [] p) .customDataParseError).bind fun r =>
    (chainFoldTup ts (elems linear r.1)).map .ok

/-- The elements of a tuple or struct, from a chain that begins at an offset. -/
def parseElems (offset refsOffset : ℕ) (ts : List Ty) (p : Slice) : Read (List Elem) :=
  (chainTypes offset refsOffset ts).bind fun linear => parseFold linear ts p

/-- `parse_chain_static`. -/
def parseChainStatic : Ty → Slice → Read Elem
  | .tuple ts, p => (parseElems 0 0 ts p).map .tuple
  | .struct ts, p => (parseElems 0 0 ts p).map .struct
  | _, _ => none

/-! ## What a nested tuple holds -/

/-- The nested tuple holds the elements of a row, none of which is a reference. -/
inductive Presents : List Elem → List Elem → Prop
  | nil : Presents [] []
  | cons {t : Ty} {v : t.Val} {l l' : List Elem} (hne : ∀ u, t ≠ .ref u) (h : Presents l l') :
      Presents (⟨t, v⟩ :: l) (⟨t, v⟩ :: l')
  | wrap {ts : List Ty} {vs : SeqVal ts} {l : List Elem} (hne : l ≠ [])
      (h : Presents (elems ts vs) l) : Presents [⟨.ref (.tuple ts), vs⟩] l

def NoRef (l : List Elem) : Prop := ∀ e ∈ l, ∀ u, e.1 ≠ .ref u

theorem Presents.refl {l : List Elem} (h : NoRef l) : Presents l l := by
  induction l with
  | nil => exact .nil
  | cons e l ih =>
    exact .cons (h e List.mem_cons_self) (ih fun e' he' => h e' (List.mem_cons_of_mem _ he'))

theorem Presents.append {pre l l' : List Elem} (hpre : NoRef pre) (h : Presents l l') :
    Presents (pre ++ l) (pre ++ l') := by
  induction pre with
  | nil => exact h
  | cons e pre ih =>
    exact .cons (hpre e List.mem_cons_self) (ih fun e' he' => hpre e' (List.mem_cons_of_mem _ he'))

/-- **Nesting keeps the elements.** -/
theorem presents_nest {bits refs : ℕ} {sizes : List ℕ} {l : List Elem}
    (h : Layout bits refs sizes (types l)) (hl : NoRef l) : Presents (nest sizes l) l := by
  induction sizes generalizing bits refs l with
  | nil => exact .refl hl
  | cons n sizes ih =>
    have hdrop : types (l.drop n) = (types l).drop n := List.map_drop
    have hrest : Layout Builder.maxBits Builder.maxRefs sizes (types (l.drop n)) := hdrop ▸ h.2.2
    have hne : l.drop n ≠ [] := fun hnil => hrest.ne_nil (by rw [hnil]; rfl)
    have hinner := ih hrest fun e he => hl e (List.mem_of_mem_drop he)
    rw [← elems_tupleVal (nest sizes (l.drop n))] at hinner
    have happend := Presents.append
      (show NoRef (l.take n) from fun e he => hl e (List.mem_of_mem_take he)) (.wrap hne hinner)
    rwa [List.take_append_drop] at happend

theorem unwrap_cons {t : Ty} {v : t.Val} {l : List Elem} (hne : ∀ u, t ≠ .ref u) :
    unwrap (⟨t, v⟩ :: l) = some (⟨t, v⟩ :: l) := by
  rw [unwrap]
  · rintro ts vs ⟨⟩
    exact absurd rfl (hne _)
  · rintro u w ⟨⟩
    exact hne _ rfl

theorem unwrap_wrap (ts : List Ty) (vs : SeqVal ts) :
    unwrap [⟨.ref (.tuple ts), vs⟩] = unwrap (elems ts vs) :=
  unwrap.eq_2 ts vs

/-- The first element is reached through the references in front of it. -/
theorem unwrap_spec {l l' : List Elem} {e : Elem} (h : Presents l (e :: l')) :
    ∃ l₁, unwrap l = some (e :: l₁) ∧ Presents l₁ l' ∧ ∀ u, e.1 ≠ .ref u := by
  generalize hrow : e :: l' = row at h
  induction h with
  | nil => cases hrow
  | cons hne h _ =>
    cases hrow
    exact ⟨_, unwrap_cons hne, h, hne⟩
  | wrap _ _ ih =>
    obtain ⟨l₁, hunwrap, hl₁⟩ := ih hrow
    exact ⟨l₁, (unwrap_wrap _ _).trans hunwrap, hl₁⟩

/-- Following the references in front of a row keeps its elements. -/
theorem exists_unwrap {l row : List Elem} (h : Presents l row) (hne : row ≠ []) :
    ∃ l', unwrap l = some l' ∧ Presents l' row := by
  cases row with
  | nil => exact absurd rfl hne
  | cons e row =>
    obtain ⟨l', hunwrap, hl', href⟩ := unwrap_spec h
    exact ⟨e :: l', hunwrap, .cons href hl'⟩

/-! ## The fold takes the elements of a value -/

mutual

/-- The type does not end with a tuple or struct without elements, behind which there would be
nothing to fold. -/
def Ty.EndsInLeaf : Ty → Prop
  | .tuple ts => SeqEndsInLeaf ts
  | .struct ts => SeqEndsInLeaf ts
  | _ => True

def SeqEndsInLeaf : List Ty → Prop
  | [] => False
  | [t] => t.EndsInLeaf
  | _ :: t :: ts => SeqEndsInLeaf (t :: ts)

end

mutual

theorem expandElem_ne_nil : ∀ (t : Ty) (v : t.Val), t.EndsInLeaf → expandElem t v ≠ []
  | .tuple ts, vs, h => makeExpandedTuple_ne_nil ts vs h
  | .struct ts, vs, h => makeExpandedTuple_ne_nil ts vs h
  | .bitconst _ _, _, _ | .bitfield _, _, _ | .bool, _, _ | .uint _, _, _ | .int _, _, _
  | .varuint _, _, _ | .varint _, _, _ | .dict, _, _ | .cell, _, _ | .msgAddress _, _, _
  | .addrStdCompact, _, _ | .ref _, _, _
  | .optional _, _, _ | .either _ _, _, _ | .dynamicBitfield _, _, _ | .dynamicUint _, _, _
  | .dynamicInt _, _, _ | .variant _, _, _ => List.cons_ne_nil _ _

theorem makeExpandedTuple_ne_nil : ∀ (ts : List Ty) (vs : SeqVal ts), SeqEndsInLeaf ts →
    makeExpandedTuple ts vs ≠ []
  | [t], (v, _), h => by
    rw [makeExpandedTuple]
    exact List.append_ne_nil_of_left_ne_nil (expandElem_ne_nil t v h) _
  | t :: t' :: ts, (v, vs), h => by
    rw [makeExpandedTuple]
    exact List.append_ne_nil_of_right_ne_nil _ (makeExpandedTuple_ne_nil (t' :: ts) vs h)

end

/-- A leaf is taken from behind the references in front of it. -/
theorem unwrap_popFront {t : Ty} {v : t.Val} {l rest : List Elem}
    (h : Presents l (⟨t, v⟩ :: rest)) :
    ∃ l', (unwrap l).bind popFront = some (⟨t, v⟩, l') ∧ Presents l' rest := by
  obtain ⟨l', hunwrap, hl', -⟩ := unwrap_spec h
  exact ⟨l', by rw [hunwrap]; rfl, hl'⟩

/-- A tuple or struct is folded behind the references in front of it, if its elements are. -/
theorem unwrap_foldSeq {ts : List Ty} {vs : SeqVal ts} {l rest : List Elem} {e : Elem}
    {make : List Elem → Elem} (hmake : make (elems ts vs) = e)
    (h : Presents l (makeExpandedTuple ts vs ++ rest))
    (hend : SeqEndsInLeaf ts ∨ rest ≠ [])
    (hfold : ∀ {l}, Presents l (makeExpandedTuple ts vs ++ rest) →
      ∃ l', foldSeq ts l = some (elems ts vs, l') ∧ Presents l' rest) :
    ∃ l', ((unwrap l).bind fun l => (foldSeq ts l).map fun r => (make r.1, r.2)) =
      some (e, l') ∧ Presents l' rest := by
  have hne : makeExpandedTuple ts vs ++ rest ≠ [] := by
    rcases hend with hend | hend
    · exact List.append_ne_nil_of_left_ne_nil (makeExpandedTuple_ne_nil ts vs hend) _
    · exact List.append_ne_nil_of_right_ne_nil _ hend
  obtain ⟨l₁, hunwrap, hl₁⟩ := exists_unwrap h hne
  obtain ⟨l₂, hseq, hl₂⟩ := hfold hl₁
  refine ⟨l₂, ?_, hl₂⟩
  rw [hunwrap, Option.bind_some, hseq, Option.map_some, hmake]

mutual

/-- **The fold takes exactly the elements of a value**, wherever the references stand. -/
theorem foldElem_spec : ∀ (t : Ty) (v : t.Val) {l rest : List Elem},
    Presents l (expandElem t v ++ rest) → NoRef (expandElem t v) → t.EndsInLeaf ∨ rest ≠ [] →
    ∃ l', foldElem t l = some (⟨t, v⟩, l') ∧ Presents l' rest
  | .tuple ts, vs, _, _, h, href, hend =>
    unwrap_foldSeq (Elem.tuple_elems ts vs) h hend fun h => foldSeq_spec ts vs h href (.inr hend)
  | .struct ts, vs, _, _, h, href, hend =>
    unwrap_foldSeq (Elem.struct_elems ts vs) h hend fun h => foldSeq_spec ts vs h href (.inr hend)
  | .ref t, _, _, _, _, href, _ => absurd rfl (href _ List.mem_cons_self t)
  | .bitconst _ _, _, _, _, h, _, _ | .bitfield _, _, _, _, h, _, _ | .bool, _, _, _, h, _, _
  | .uint _, _, _, _, h, _, _ | .int _, _, _, _, h, _, _ | .varuint _, _, _, _, h, _, _
  | .varint _, _, _, _, h, _, _ | .dict, _, _, _, h, _, _ | .cell, _, _, _, h, _, _
  | .msgAddress _, _, _, _, h, _, _ | .addrStdCompact, _, _, _, h, _, _
  | .optional _, _, _, _, h, _, _ | .either _ _, _, _, _, h, _, _
  | .dynamicBitfield _, _, _, _, h, _, _ | .dynamicUint _, _, _, _, h, _, _
  | .dynamicInt _, _, _, _, h, _, _ | .variant _, _, _, _, h, _, _ => unwrap_popFront h

theorem foldSeq_spec : ∀ (ts : List Ty) (vs : SeqVal ts) {l rest : List Elem},
    Presents l (makeExpandedTuple ts vs ++ rest) → NoRef (makeExpandedTuple ts vs) →
    ts = [] ∨ SeqEndsInLeaf ts ∨ rest ≠ [] →
    ∃ l', foldSeq ts l = some (elems ts vs, l') ∧ Presents l' rest
  | [], _, l, _, h, _, _ => ⟨l, rfl, h⟩
  | t :: ts, (v, vs), l, rest, h, href, hend => by
    rw [makeExpandedTuple, List.append_assoc] at h
    have hrefs : NoRef (expandElem t v) ∧ NoRef (makeExpandedTuple ts vs) :=
      List.forall_mem_append.mp href
    have hends : (t.EndsInLeaf ∨ makeExpandedTuple ts vs ++ rest ≠ []) ∧
        (ts = [] ∨ SeqEndsInLeaf ts ∨ rest ≠ []) := by
      rcases hend with hend | hend | hend
      · cases hend
      · cases ts with
        | nil => exact ⟨.inl hend, .inl rfl⟩
        | cons t' ts =>
          -- the last leaf of the row comes after the first element
          have hne := makeExpandedTuple_ne_nil (t' :: ts) vs hend
          exact ⟨.inr (List.append_ne_nil_of_left_ne_nil hne _), .inr (.inl hend)⟩
      · exact ⟨.inr (List.append_ne_nil_of_right_ne_nil _ hend), .inr (.inr hend)⟩
    obtain ⟨l₁, hfirst, hl₁⟩ := foldElem_spec t v h hrefs.1 hends.1
    obtain ⟨l₂, hrest, hl₂⟩ := foldSeq_spec ts vs hl₁ hrefs.2 hends.2
    refine ⟨l₂, ?_, hl₂⟩
    rw [foldSeq, hfirst, Option.bind_some, hrest, Option.map_some]
    rfl

end

/-- The fold of all elements leaves nothing. -/
theorem chainFoldTup_spec (ts : List Ty) (vs : SeqVal ts) {l : List Elem}
    (h : Presents l (makeExpandedTuple ts vs)) (href : NoRef (makeExpandedTuple ts vs))
    (hend : ts = [] ∨ SeqEndsInLeaf ts) : chainFoldTup ts l = some (elems ts vs) := by
  rw [← List.append_nil (makeExpandedTuple ts vs)] at h
  obtain ⟨l', hfold, hl'⟩ := foldSeq_spec ts vs h href (hend.imp_right .inl)
  rw [chainFoldTup, hfold, Option.bind_some]
  cases hl' with
  | nil => rfl
  | wrap hne _ => exact absurd rfl hne

/-! ## The reader undoes the writer -/

/-- What the writer stores for the nested tuple is read back as the elements, in front of any
other content. -/
theorem nest_roundTrips {bits refs : ℕ} {sizes : List ℕ} {ts : List Ty}
    (vs : SeqVal ts) (hlayout : Layout bits refs sizes (expandTypes ts))
    (hencodable : ∀ e ∈ makeExpandedTuple ts vs, Encodable e)
    (href : NoRef (makeExpandedTuple ts vs)) (hend : ts = [] ∨ SeqEndsInLeaf ts) {b b' : Builder}
    (hbuild : buildSeq (types (nest sizes (makeExpandedTuple ts vs))) (tupleVal _) b = .ok b') :
    ∃ s, b' = b ++ s ∧ ∀ rest, parseFold (nestTypes sizes (expandTypes ts)) ts (s ++ rest) =
      Read.value (elems ts vs) := by
  rw [← types_makeExpandedTuple ts vs] at hlayout ⊢
  rw [← types_nest]
  have hparse := tuple_roundTrips (nest_of_layout hlayout hencodable).1
  obtain ⟨s, rfl, hread⟩ := hparse b b' hbuild
  refine ⟨s, rfl, fun rest => ?_⟩
  rw [parseFold, hread]
  show (chainFoldTup ts (elems _ (tupleVal _))).map _ = _
  rw [elems_tupleVal, chainFoldTup_spec ts vs (presents_nest hlayout href) href hend]
  rfl

namespace Cell

def bits : Cell → List Bool
  | .mk bits _ => bits

def refs : Cell → List Cell
  | .mk _ refs => refs

/-- A cell and the next ones, each behind the last reference of the one before. -/
def chain : ℕ → Cell → List Cell
  | 0, c => [c]
  | n + 1, c => c :: match c.refs.getLast? with
    | some c' => c'.chain n
    | none => []

/-- The cell keeps to the limits. -/
def Valid (c : Cell) : Prop :=
  c.bits.length ≤ Builder.maxBits ∧ c.refs.length ≤ Builder.maxRefs

end Cell

theorem buildSeq_append (l l' : List Elem) (b : Builder) :
    buildSeq (types (l ++ l')) (tupleVal (l ++ l')) b =
      (buildSeq (types l) (tupleVal l) b).bind (buildSeq (types l') (tupleVal l')) := by
  induction l generalizing b with
  | nil => rfl
  | cons e l ih =>
    show (build e.1 e.2 b).bind (buildSeq (types (l ++ l')) (tupleVal (l ++ l'))) =
      ((build e.1 e.2 b).bind (buildSeq (types l) (tupleVal l))).bind _
    cases build e.1 e.2 b with
    | error _ => rfl
    | ok b₁ => exact ih b₁

theorem valid_of_buildSeq {l : List Elem} (hl : ∀ e ∈ l, Encodable e) {b b' : Builder}
    (hb : b.Valid) (hbuild : buildSeq (types l) (tupleVal l) b = .ok b') : b'.endc.Valid := by
  obtain ⟨s, -, hstore⟩ := buildSeq_stores_of_encodable hl
  exact valid_of_store ((hstore b hb).symm.trans hbuild)

/-- **Each cell of a built chain keeps to the limits.** -/
theorem chain_valid {bits refs : ℕ} {sizes : List ℕ} {l : List Elem}
    (hlayout : Layout bits refs sizes (types l)) (hl : ∀ e ∈ l, Encodable e) {b b' : Builder}
    (hb : b.Valid)
    (hbuild : buildSeq (types (nest sizes l)) (tupleVal (nest sizes l)) b = .ok b') :
    (b'.endc.chain sizes.length).length = sizes.length + 1 ∧
      ∀ c ∈ b'.endc.chain sizes.length, c.Valid := by
  have hvalid := valid_of_buildSeq (nest_of_layout hlayout hl).1 hb hbuild
  induction sizes generalizing bits refs l b b' with
  | nil => exact ⟨rfl, fun c hc => by obtain rfl := List.mem_singleton.mp hc; exact hvalid⟩
  | cons n sizes ih =>
    rw [nest, buildSeq_append] at hbuild
    obtain ⟨b₁, -, hlast⟩ := bind_eq_ok.mp hbuild
    obtain ⟨b₂, hrefBuild, hb₂⟩ := bind_eq_ok.mp hlast
    obtain rfl : b₂ = b' := Except.ok.inj hb₂
    obtain ⟨inner, hinner, hstore⟩ := bind_eq_ok.mp hrefBuild
    -- the last reference of this cell is the next one
    have hlastRef : b₂.endc.refs.getLast? = some inner.endc := by
      unfold Builder.stref Builder.store at hstore
      split at hstore
      · cases hstore
        exact List.getLast?_concat
      · cases hstore
    have hrest : Layout Builder.maxBits Builder.maxRefs sizes (types (l.drop n)) := by
      rw [types, List.map_drop]
      exact hlayout.2.2
    have hdrop : ∀ e ∈ l.drop n, Encodable e := fun e he => hl e (List.mem_of_mem_drop he)
    obtain ⟨hlength, hcells⟩ := ih hrest hdrop valid_empty hinner
      (valid_of_buildSeq (nest_of_layout hrest hdrop).1 valid_empty hinner)
    rw [List.length_cons, Cell.chain, hlastRef]
    exact ⟨congrArg (· + 1) hlength, List.forall_mem_cons.mpr ⟨hvalid, hcells⟩⟩

/-! ## Static chains -/

/-- The leaves of static chains. -/
def Ty.ChainLeaf : Ty → Prop
  | .bitconst _ _ | .bitfield _ | .bool | .uint _ | .int _ | .varuint _ | .varint _ | .dict
  | .cell | .msgAddress _ | .addrStdCompact | .optional _ | .variant _ => True
  | _ => False

/-- `is_expandable`, for the types of chains. -/
def Ty.IsExpandable : Ty → Prop
  | .tuple _ | .struct _ => True
  | _ => False

theorem Ty.ChainLeaf.ne_ref {t : Ty} (h : t.ChainLeaf) (u : Ty) : t ≠ .ref u := by
  rintro rfl
  exact h

theorem makeChainTuple_of_ne_nil {offset refsOffset : ℕ} {ts : List Ty} {vs : SeqVal ts}
    (h : makeExpandedTuple ts vs ≠ []) : makeChainTuple offset refsOffset ts vs =
      (cellSizes offset refsOffset (expandTypes ts)).map (nest · (makeExpandedTuple ts vs)) := by
  unfold makeChainTuple
  split
  · exact absurd ‹_› h
  · rw [types_makeExpandedTuple]

theorem chainTypes_of_ne_nil {offset refsOffset : ℕ} {ts : List Ty} (h : expandTypes ts ≠ []) :
    chainTypes offset refsOffset ts =
      (cellSizes offset refsOffset (expandTypes ts)).map (nestTypes · (expandTypes ts)) := by
  unfold chainTypes
  split
  · exact absurd ‹_› h
  · rfl

/-- The chain of a tuple or a struct with these elements, with a cell for each of the sizes that the
types are cut into, and one more. -/
theorem exists_chain {ts : List Ty} (vs : SeqVal ts) (hend : SeqEndsInLeaf ts)
    (hleaf : ∀ e ∈ makeExpandedTuple ts vs, e.1.ChainLeaf ∧ LeavesRef e.1)
    (hencodable : ∀ e ∈ makeExpandedTuple ts vs, Encodable e) :
    ∃ c sizes, cellSizes 0 0 (expandTypes ts) = some sizes ∧
      (makeChainTuple 0 0 ts vs).map buildElems = some (.ok c) ∧
      parseElems 0 0 ts c.ctos = Read.value (elems ts vs) ∧
      (c.chain sizes.length).length = sizes.length + 1 ∧
      ∀ c' ∈ c.chain sizes.length, c'.Valid := by
  have hne := makeExpandedTuple_ne_nil ts vs hend
  have htypes : types (makeExpandedTuple ts vs) = expandTypes ts := types_makeExpandedTuple ts vs
  have hneTypes : expandTypes ts ≠ [] :=
    htypes ▸ fun h => hne (List.map_eq_nil_iff.mp h)
  -- the sizes of the cells depend on the types only
  have hleaves : ∀ t ∈ expandTypes ts, LeavesRef t :=
    htypes ▸ forall_mem_types.mpr fun e he => (hleaf e he).2
  obtain ⟨sizes, hsizes⟩ := exists_cellSizes 0 0 hleaves
  have hlayout := layout_cellSizes hneTypes (Nat.zero_le _) (by decide) hsizes
  have hlayout' : Layout Builder.maxBits Builder.maxRefs sizes (types (makeExpandedTuple ts vs)) :=
    htypes.symm ▸ hlayout
  obtain ⟨hnested, hbits, hrefs⟩ := nest_of_layout hlayout' hencodable
  obtain ⟨s, -, hbuild⟩ := (buildSeq_stores_of_encodable hnested).exists_ok (b := .empty)
    (by simpa [Slice.empty] using hbits) (by simpa [Slice.empty] using hrefs)
  refine ⟨Builder.endc (.empty ++ s), sizes, hsizes, ?_, ?_, ?_⟩
  · rw [makeChainTuple_of_ne_nil hne, hsizes]
    show some (Except.map _ (buildSeq (types _) (tupleVal _) _)) = _
    rw [hbuild]
    rfl
  · obtain ⟨s', hs', hread⟩ := nest_roundTrips vs hlayout hencodable
      (fun e he => (hleaf e he).1.ne_ref) (.inr hend) hbuild
    have hall := hread .empty
    rw [Slice.append_empty] at hall
    rw [parseElems, chainTypes_of_ne_nil hneTypes, hsizes, Option.map_some, Option.bind_some,
      ctos_endc, hs', Slice.empty_append, hall]
  · exact chain_valid hlayout' hencodable valid_empty hbuild

/-- **Static chains round-trip and fit**: the reader returns the value that the writer has built
into a chain of cells, one more than its type is cut, each of which keeps to the limits. -/
theorem parse_buildChainStatic (t : Ty) (v : t.Val) (htuple : t.IsExpandable) (hend : t.EndsInLeaf)
    (hleaf : ∀ u ∈ expandType t, u.ChainLeaf ∧ LeavesRef u)
    (hencodable : ∀ e ∈ expandElem t v, Encodable e) :
    ∃ c sizes, cellSizes 0 0 (expandType t) = some sizes ∧
      buildChainStatic t v = some (.ok c) ∧ parseChainStatic t c.ctos = Read.value ⟨t, v⟩ ∧
      (c.chain sizes.length).length = sizes.length + 1 ∧
      ∀ c' ∈ c.chain sizes.length, c'.Valid := by
  rw [← types_expandElem t v] at hleaf
  match t, v, htuple with
  | .tuple ts, vs, _ =>
    obtain ⟨c, sizes, hsizes, hbuild, hparse, hcells⟩ :=
      exists_chain vs hend (forall_mem_types.mp hleaf) hencodable
    refine ⟨c, sizes, hsizes, hbuild, ?_, hcells⟩
    show (parseElems 0 0 ts c.ctos).map _ = _
    rw [hparse]
    exact congrArg Read.value (Elem.tuple_elems ts vs)
  | .struct ts, vs, _ =>
    obtain ⟨c, sizes, hsizes, hbuild, hparse, hcells⟩ :=
      exists_chain vs hend (forall_mem_types.mp hleaf) hencodable
    refine ⟨c, sizes, hsizes, hbuild, ?_, hcells⟩
    show (parseElems 0 0 ts c.ctos).map _ = _
    rw [hparse]
    exact congrArg Read.value (Elem.struct_elems ts vs)

section Example

/-- Four numbers of 256 bits, which take two cells, a dictionary and an optional cell. -/
def recordTy : Ty :=
  .struct [.uint 256, .tuple [.uint 256, .optional .cell, .uint 256], .uint 256,
    .struct [.dict, .variant [.struct [.bitconst 1 0, .uint 8], .struct [.bitconst 1 1, .bool]]]]

def record : recordTy.Val :=
  ((1 : ℕ), ((2 : ℕ), some (.mk [true] []), (3 : ℕ), ()), (4 : ℕ),
    (none, .inr (.inl ((), true, ())), ()), ())

theorem parse_buildChainStatic_record :
    ∃ c sizes, cellSizes 0 0 (expandType recordTy) = some sizes ∧
      buildChainStatic recordTy record = some (.ok c) ∧
      parseChainStatic recordTy c.ctos = Read.value ⟨recordTy, record⟩ ∧
      (c.chain sizes.length).length = sizes.length + 1 ∧
      ∀ c' ∈ c.chain sizes.length, c'.Valid := by
  refine parse_buildChainStatic recordTy record trivial trivial ?_ ?_
  · show ∀ u ∈ [Ty.uint 256, .uint 256, .optional .cell, .uint 256, .uint 256, .dict, _], _
    simp only [List.forall_mem_cons]
    exact ⟨⟨trivial, by decide⟩, ⟨trivial, by decide⟩, ⟨trivial, by decide⟩, ⟨trivial, by decide⟩,
      ⟨trivial, by decide⟩, ⟨trivial, by decide⟩, ⟨trivial, by decide⟩, by simp⟩
  · show ∀ e ∈ ([⟨.uint 256, (1 : ℕ)⟩, ⟨.uint 256, (2 : ℕ)⟩, ⟨.optional .cell, some (.mk [true] [])⟩,
      ⟨.uint 256, (3 : ℕ)⟩, ⟨.uint 256, (4 : ℕ)⟩, ⟨.dict, none⟩,
      ⟨.variant [.struct [.bitconst 1 0, .uint 8], .struct [.bitconst 1 1, .bool]],
        .inr (.inl ((), true, ()))⟩] : List Elem), _
    simp only [List.forall_mem_cons]
    have huint (n : ℕ) (h : n < 2 ^ 256) : Encodable ⟨.uint 256, n⟩ :=
      ⟨trivial, trivial, ⟨le_rfl, h⟩, trivial⟩
    refine ⟨huint 1 (by decide), huint 2 (by decide), ⟨trivial, trivial, trivial, trivial⟩,
      huint 3 (by decide), huint 4 (by decide), ⟨trivial, trivial, trivial, trivial⟩, ?_, by simp⟩
    refine ⟨⟨⟨trivial, trivial, trivial⟩, ⟨trivial, trivial, trivial⟩, trivial⟩, ⟨?_, ?_⟩,
      ⟨⟨by decide, by decide⟩, trivial, trivial⟩, ⟨trivial, trivial, trivial⟩⟩
    · exact ⟨⟨trivial, trivial, trivial⟩, ⟨trivial, trivial, trivial⟩, trivial⟩
    · exact List.pairwise_pair.mpr ⟨(1, 0), (1, 1), rfl, rfl, le_rfl, by decide⟩

/-- Two alternatives that cannot be told apart. -/
def ambiguousTy : Ty := .tuple [.variant [.uint 8, .uint 16]]

def ambiguous : ambiguousTy.Val := (.inr (.inl (5 : ℕ)), ())

/-- The first alternative that can be loaded is taken. -/
theorem parse_buildChainStatic_ambiguous :
    (∀ u ∈ expandType ambiguousTy, u.ChainLeaf ∧ LeavesRef u) ∧
      (∀ e ∈ expandElem ambiguousTy ambiguous,
        e.1.Estimable [] ∧ InRange e.1 e.2 ∧ Fits e.1 [] e.2) ∧
      ∃ c w, buildChainStatic ambiguousTy ambiguous = some (.ok c) ∧
        parseChainStatic ambiguousTy c.ctos = Read.value ⟨ambiguousTy, w⟩ ∧ w ≠ ambiguous := by
  have hsizes : cellSizes 0 0 [.variant [.uint 8, .uint 16]] = some [] := by
    rw [cellSizes]
    exact if_pos (by decide)
  refine ⟨?_, ?_, .mk (natBits 16 5) [], (.inl (0 : ℕ), ()), ?_, ?_, ?_⟩
  · show ∀ u ∈ [Ty.variant [.uint 8, .uint 16]], _
    exact List.forall_mem_singleton.mpr ⟨trivial, by decide⟩
  · show ∀ e ∈ ([⟨.variant [.uint 8, .uint 16], .inr (.inl (5 : ℕ))⟩] : List Elem), _
    exact List.forall_mem_singleton.mpr
      ⟨⟨trivial, trivial, trivial⟩, ⟨by decide, (by decide : (5 : ℕ) < 2 ^ 16)⟩, trivial⟩
  · show ((cellSizes 0 0 [.variant [.uint 8, .uint 16]]).map (nest · _)).map buildElems = _
    rw [hsizes]
    rfl
  · show Read.map _ (((cellSizes 0 0 [.variant [.uint 8, .uint 16]]).map (nestTypes · _)).bind _) = _
    rw [hsizes]
    -- the first alternative loads eight of the sixteen bits
    have href : NoRef [⟨.variant [.uint 8, .uint 16], .inl (0 : ℕ)⟩] :=
      List.forall_mem_singleton.mpr fun _ => by rintro ⟨⟩
    exact congrArg (fun x => Read.map Elem.tuple (x.map Except.ok))
      (chainFoldTup_spec [.variant [.uint 8, .uint 16]] (.inl (0 : ℕ), ()) (.refl href) href
        (.inr trivial))
  · intro heq
    cases congrArg Prod.fst heq

end Example

end TVMCompiler.Sdk
