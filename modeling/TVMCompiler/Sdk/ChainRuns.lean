import TVMCompiler.Sdk.ChainDynamic
import TVMCompiler.Sdk.ChainOffset

/-!
# Chains for the dynamic reader

A writer cuts the leaves of its elements, while the dynamic reader steps to the next cell between
whole elements. Where no element is cut, the cells that the writer builds hold runs of whole
elements, and the dynamic reader finds each of them.

## Main definitions

* `CutsBetween`: all cuts fall between the elements of a row
* `DynReadable`: what the dynamic reader needs of the elements behind a header
* `storedBehind`: what a writer stores of the elements behind a header

## Main results

* `cutsBetween_of_leaves`: elements without inner structure are not cut
* `nest_chainOf`: the writer builds a chain of runs
* `buildElems_behind`: the writer stores the header, and the elements as they are cut behind it
* `parseChainDynamic_behind`: the dynamic reader finds the elements behind a header
-/

namespace TVMCompiler.Sdk

open Lib

/-! ## Cuts between elements -/

/-- The cuts of a row of elements fall between them, not inside a tuple or a struct. -/
def CutsBetween : List ℕ → List Elem → Prop
  | [], _ => True
  | n :: sizes, es =>
    ∃ run rest, es = run ++ rest ∧ (expandAll run).length = n ∧ CutsBetween sizes rest

theorem expandAll_of_leaves {es : List Elem} (h : ∀ e ∈ es, expandElem e.1 e.2 = [e]) :
    expandAll es = es := by
  induction es with
  | nil => rfl
  | cons e es ih =>
    obtain ⟨he, hes⟩ := List.forall_mem_cons.mp h
    rw [expandAll_cons, he, ih hes, List.singleton_append]

/-- Elements without inner structure are not cut. -/
theorem cutsBetween_of_leaves {bits refs : ℕ} {sizes : List ℕ} {es : List Elem}
    (hlayout : Layout bits refs sizes (types es)) (h : ∀ e ∈ es, expandElem e.1 e.2 = [e]) :
    CutsBetween sizes es := by
  induction sizes generalizing bits refs es with
  | nil => trivial
  | cons n sizes ih =>
    have hdrop : types (es.drop n) = (types es).drop n := List.map_drop
    have hrest : Layout Builder.maxBits Builder.maxRefs sizes (types (es.drop n)) :=
      hdrop ▸ hlayout.2.2
    have hlt : n ≤ es.length := by
      by_contra hlt
      refine hrest.ne_nil ?_
      rw [List.drop_eq_nil_of_le (by omega)]
      rfl
    refine ⟨es.take n, es.drop n, (List.take_append_drop n es).symm, ?_,
      ih hrest fun e he => h e (List.mem_of_mem_drop he)⟩
    rw [expandAll_of_leaves fun e he => h e (List.mem_of_mem_take he),
      List.length_take_of_le hlt]

/-! ## The writer's cells -/

/-- What the writer stores for an element whose leaves can be stored. -/
theorem encoded_of_leaves {e : Elem} (h : ∀ e' ∈ expandElem e.1 e.2, StorableLeaf e')
    {b b' : Builder} (hb : b.Valid) (hbuild : build e.1 e.2 b = .ok b') :
    Encoded e ∧ b' = b ++ encoding e ∧ b'.Valid := by
  obtain ⟨s, hs, hstore⟩ := buildSeq_stores_of_encodable fun e' he' => (h e' he').encodable
  have hwrite (b : Builder) (hb : b.Valid) : build e.1 e.2 b = b.store s :=
    (build_expandElem e.1 e.2 b).symm.trans (hstore b hb)
  have hok := (hwrite b hb).symm.trans hbuild
  have hvalid : b'.Valid := valid_of_store hok
  obtain rfl : b' = b ++ s := store_eq_append hok
  -- it fits an empty cell as well
  have hempty : build e.1 e.2 .empty = .ok s := by
    rw [hwrite .empty valid_empty, store_eq_ok, Slice.empty_append]
    obtain ⟨hbits, hrefs⟩ := hvalid
    simp only [Slice.append_bits, Slice.append_refs, List.length_append] at hbits hrefs
    rw [Slice.empty_append]
    exact ⟨by omega, by omega⟩
  have hencoding : encoding e = s := by rw [encoding, hempty]
  obtain ⟨hwf, hfits⟩ := whole_of_leaves e.1 e.2 h
  obtain ⟨s', hs', hread⟩ := build_roundTrips e.1 [] e.2 hwf (hfits []) _ _ hempty
  rw [Slice.empty_append] at hs'
  subst hs'
  refine ⟨⟨fun rest => ?_, ?_⟩, by rw [hencoding], hvalid⟩
  · rw [hencoding]
    exact hread rest
  · rw [hencoding, estimate_expandType, ← types_expandElem e.1 e.2]
    · exact hs
    · rw [← types_expandElem e.1 e.2]
      exact forall_mem_types.mpr fun e' he' => (h e' he').closed

/-- What the writer stores for a run. -/
theorem buildSeq_encodeRun {run : List Elem} (h : ChainValue run) {b b' : Builder} (hb : b.Valid)
    (hbuild : buildSeq (types run) (tupleVal run) b = .ok b') :
    (∀ e ∈ run, Encoded e) ∧ b' = b ++ encodeRun run ∧ b'.Valid := by
  induction run generalizing b with
  | nil =>
    obtain rfl := Except.ok.inj hbuild
    exact ⟨nofun, (Slice.append_empty b).symm, hb⟩
  | cons e run ih =>
    obtain ⟨he, hrun⟩ := chainValue_cons.mp h
    obtain ⟨b₁, hfirst, hrest⟩ := bind_eq_ok.mp hbuild
    obtain ⟨hencoded, rfl, hb₁⟩ := encoded_of_leaves he hb hfirst
    obtain ⟨hall, rfl, hb'⟩ := ih hrun hb₁ hrest
    exact ⟨List.forall_mem_cons.mpr ⟨hencoded, hall⟩, by rw [encodeRun, Slice.append_assoc], hb'⟩

/-- The last run of the writer is no single reference: it would have fit the cell in front. -/
theorem not_mayBeOneRef {e : Elem} (h : ChainValue [e]) (htakes : TakesBitOrRefs e.1)
    (hneeded : (estimateSeq [] (types (expandAll [e]))).maxBits ≠ 0 ∨
      1 < (estimateSeq [] (types (expandAll [e]))).maxRefs) : ¬ MayBeOneRef e.1 := by
  rintro ⟨hbits, hrefs⟩
  rw [← h.estimate [], types_cons, types_nil, estimateSeq, estimateSeq, Estimate.add_zero]
    at hneeded
  rcases htakes with htakes | ⟨hmaxBits, hsame, -⟩ <;> omega

/-- One more run in front of those of the next cells. -/
theorem Pending.cons {run run' rest : List Elem} {runs : List (List Elem)}
    (hpending : Pending rest run' runs) (hne : run' ≠ [])
    (hrun : ∀ e ∈ run, Encoded e ∧ TakesBitOrRefs e.1)
    (hlast : ∀ e, runs = [] → rest = [e] → ¬ MayBeOneRef e.1) :
    Pending (run ++ rest) run (run' :: runs) where
  flatten := by rw [List.flatten_cons, hpending.flatten]
  encoded := List.forall_mem_append.mpr ⟨hrun, hpending.encoded⟩
  nonempty := List.forall_mem_cons.mpr ⟨hne, hpending.nonempty⟩
  last := by
    intro e he
    cases runs with
    | nil =>
      obtain rfl : run' = [e] := Option.some.inj he
      exact hlast e rfl (hpending.flatten.symm.trans (List.append_nil [e]))
    | cons run'' runs =>
      rw [List.getLast?_cons_cons] at he
      exact hpending.last e he

/-- **The writer builds a chain of runs** of whole elements, if its cuts fall between them. -/
theorem nest_chainOf {bits refs : ℕ} {sizes : List ℕ} {es : List Elem}
    (hlayout : Layout bits refs sizes (types (expandAll es)))
    (hneeded : NeededCuts sizes (types (expandAll es))) (hcuts : CutsBetween sizes es)
    (hvalue : ChainValue es) (htakes : ∀ e ∈ es, TakesBitOrRefs e.1) {b b' : Builder}
    (hb : b.Valid)
    (hbuild : buildSeq (types (nest sizes (expandAll es))) (tupleVal (nest sizes (expandAll es)))
      b = .ok b') :
    ∃ run runs, b' = b ++ chainOf (run :: runs) ∧ Pending es run runs ∧
      runs.length = sizes.length ∧ ((∀ n ∈ sizes.head?, n ≠ 0) → run ≠ []) := by
  induction sizes generalizing bits refs es b b' with
  | nil =>
    have hrun := (buildSeq_makeExpandedTuple (types es) (tupleVal es) b).symm.trans hbuild
    obtain ⟨hencoded, rfl, -⟩ := buildSeq_encodeRun hvalue hb hrun
    refine ⟨es, [], rfl, ⟨List.append_nil es, fun e he => ⟨hencoded e he, htakes e he⟩, by simp,
      by simp⟩, rfl, fun _ hnil => hlayout.ne_nil ?_⟩
    rw [hnil]
    rfl
  | cons n sizes ih =>
    obtain ⟨run, rest, rfl, hlength, hcuts⟩ := hcuts
    obtain ⟨hrunValue, hrestValue⟩ := chainValue_append.mp hvalue
    obtain ⟨hrunTakes, hrestTakes⟩ := List.forall_mem_append.mp htakes
    have hdrop : (types (expandAll (run ++ rest))).drop n = types (expandAll rest) := by
      rw [expandAll_append, types_append, ← hlength, ← length_types, List.drop_left]
    have hrestLayout : Layout Builder.maxBits Builder.maxRefs sizes (types (expandAll rest)) :=
      hdrop ▸ hlayout.2.2
    rw [nest, expandAll_append, ← hlength, List.take_left, List.drop_left, buildSeq_append]
      at hbuild
    obtain ⟨b₁, hrun, hlast⟩ := bind_eq_ok.mp hbuild
    obtain ⟨b₂, hrefBuild, hb₂⟩ := bind_eq_ok.mp hlast
    obtain rfl : b₂ = b' := Except.ok.inj hb₂
    obtain ⟨inner, hinner, hstore⟩ := bind_eq_ok.mp hrefBuild
    have hrun' := (buildSeq_makeExpandedTuple (types run) (tupleVal run) b).symm.trans hrun
    obtain ⟨hencoded, rfl, -⟩ := buildSeq_encodeRun hrunValue hb hrun'
    -- the next cells
    have hrestNeeded : NeededCuts sizes (types (expandAll rest)) := by
      cases sizes with
      | nil => trivial
      | cons m sizes => exact hdrop ▸ hneeded.2
    obtain ⟨run', runs, rfl, hpending, hlen, hnonempty⟩ :=
      ih hrestLayout hrestNeeded hcuts hrestValue hrestTakes valid_empty hinner
    have hrun'Ne : run' ≠ [] := by
      refine hnonempty ?_
      cases sizes with
      | nil => simp
      | cons m sizes => rintro _ ⟨⟩; exact hneeded.1
    refine ⟨run, run' :: runs, ?_, hpending.cons hrun'Ne
      (fun e he => ⟨hencoded e he, hrunTakes e he⟩) fun e hruns hrest => ?_,
      congrArg (· + 1) hlen, ?_⟩
    · rw [store_eq_append hstore, Slice.empty_append, Slice.append_assoc]
      rfl
    · -- the writer cuts no more often than it has to
      subst hruns hrest
      obtain rfl : sizes = [] := List.length_eq_zero_iff.mp hlen.symm
      refine not_mayBeOneRef hrestValue (hrestTakes e (List.mem_singleton_self e)) ?_
      rw [← hdrop]
      exact hneeded
    · intro hfirst hnil
      rw [hnil] at hlength
      exact hfirst n rfl hlength.symm

/-! ## Behind a header -/

/-- What the dynamic reader needs of the elements behind a header: each takes a bit or references,
and no cut falls inside one of them. -/
structure DynReadable (hdr : Ty) (es : List Elem) : Prop where
  takes : ∀ e ∈ es, TakesBitOrRefs e.1
  cuts : ∀ sizes, cellSizes (estimateSeq [] [hdr]).maxBits (estimateSeq [] [hdr]).maxRefs
    (types (expandAll es)) = some sizes → CutsBetween sizes es

/-- Elements without inner structure need to take a bit or references only. -/
theorem dynReadable_of_leaves {hdr : Ty} {es : List Elem}
    (hbits : (estimateSeq [] [hdr]).maxBits ≤ Builder.maxBits)
    (hrefs : (estimateSeq [] [hdr]).maxRefs < Builder.maxRefs)
    (h : ∀ e ∈ es, expandElem e.1 e.2 = [e]) (htakes : ∀ e ∈ es, TakesBitOrRefs e.1) :
    DynReadable hdr es := by
  refine ⟨htakes, fun sizes hsizes => ?_⟩
  rw [expandAll_of_leaves h] at hsizes
  cases es with
  | nil =>
    rw [cellSizes] at hsizes
    obtain rfl := Option.some.inj ((if_pos rfl).symm.trans hsizes)
    trivial
  | cons e es =>
    have hlayout := layout_cellSizes (List.cons_ne_nil e.1 (types es)) hbits hrefs hsizes
    exact cutsBetween_of_leaves hlayout h

/-- What a writer stores of elements behind a header: they are cut where the header ends. -/
def storedBehind (hdr : Ty) (es : List Elem) : Slice :=
  encodeRun (nest ((cellSizes (estimateSeq [] [hdr]).maxBits (estimateSeq [] [hdr]).maxRefs
    (types (expandAll es))).getD []) (expandAll es))

theorem expandElem_of_chainLeaf {t : Ty} (h : t.ChainLeaf) (v : t.Val) :
    expandElem t v = [⟨t, v⟩] := by
  cases t with
  | ref | either | tuple | struct | dynamicBitfield | dynamicUint | dynamicInt => cases h
  | _ => rfl

theorem chainValue_of_leaves {es : List Elem} (h : ∀ e ∈ es, StorableLeaf e) : ChainValue es := by
  rw [ChainValue, expandAll_of_leaves fun e he => expandElem_of_chainLeaf (h e he).leaf e.2]
  exact h

/-- Cut elements are stored one after another, and last the reference to the next cell. -/
theorem buildSeq_nest {sizes : List ℕ} {es : List Elem} (h : ∀ e ∈ es, StorableLeaf e)
    {b b' : Builder} (hb : b.Valid)
    (hbuild : buildSeq (types (nest sizes es)) (tupleVal (nest sizes es)) b = .ok b') :
    b' = b ++ encodeRun (nest sizes es) := by
  cases sizes with
  | nil => exact (buildSeq_encodeRun (chainValue_of_leaves h) hb hbuild).2.1
  | cons n sizes =>
    rw [nest, buildSeq_append] at hbuild
    obtain ⟨b₁, hrun, hlast⟩ := bind_eq_ok.mp hbuild
    have htake : ∀ e ∈ es.take n, StorableLeaf e := fun e he => h e (List.mem_of_mem_take he)
    obtain ⟨-, rfl, -⟩ := buildSeq_encodeRun (chainValue_of_leaves htake) hb hrun
    obtain ⟨b₂, href, hb₂⟩ := bind_eq_ok.mp hlast
    obtain rfl : b₂ = b' := Except.ok.inj hb₂
    obtain ⟨inner, hinner, hstore⟩ := bind_eq_ok.mp href
    have hencoding : encoding (Elem.ref (nest sizes (es.drop n))) = ⟨[], [inner.endc]⟩ := by
      have hempty : build (Elem.ref (nest sizes (es.drop n))).1
          (Elem.ref (nest sizes (es.drop n))).2 .empty = .ok ⟨[], [inner.endc]⟩ := by
        show (build (.tuple _) _ .empty).bind _ = _
        rw [hinner]
        rfl
      rw [encoding, hempty]
    rw [store_eq_append hstore, nest, encodeRun_append, encodeRun, hencoding, encodeRun,
      Slice.append_empty, Slice.append_assoc]

section Behind

variable {hdr : Elem} {es l : List Elem} (hvalue : ChainValue (hdr :: es))
  (hne : expandAll es ≠ []) (hbits : (estimateSeq [] [hdr.1]).maxBits ≤ Builder.maxBits)
  (hrefs : (estimateSeq [] [hdr.1]).maxRefs < Builder.maxRefs)
  (hpos : (estimateSeq [] [hdr.1]).maxBits ≠ 0)
  (hchain : makeChainTuple 0 0 (types (hdr :: es)) (tupleVal (hdr :: es)) = some l)

include hvalue hne hbits hrefs hpos hchain

/-- The writer builds the header, and behind it the elements that are cut there. -/
theorem exists_build_header :
    ∃ sizes b b', cellSizes (estimateSeq [] [hdr.1]).maxBits (estimateSeq [] [hdr.1]).maxRefs
        (types (expandAll es)) = some sizes ∧
      Layout (Builder.maxBits - (estimateSeq [] [hdr.1]).maxBits)
        (Builder.maxRefs - (estimateSeq [] [hdr.1]).maxRefs) sizes (types (expandAll es)) ∧
      build hdr.1 hdr.2 .empty = .ok b ∧ b.Valid ∧
      buildSeq (types (nest sizes (expandAll es))) (tupleVal (nest sizes (expandAll es))) b =
        .ok b' ∧ buildElems l = .ok b'.endc := by
  have hvalue' : ChainValue ([hdr] ++ es) := hvalue
  obtain ⟨sizes, b, b', hbehind, hlayout, hb, hbuild, hcell⟩ :=
    exists_build_behind hvalue' hbits hrefs hpos hne hchain
  have hvalid : b.Valid := valid_of_buildSeq (fun e he =>
    ((chainValue_append.mp hvalue').1 e he).encodable) valid_empty hb
  refine ⟨sizes, b, b', hbehind, hlayout, ?_, hvalid, hbuild, hcell⟩
  rw [← buildSeq_singleton hdr, ← buildSeq_makeExpandedTuple]
  exact hb

/-- **The writer stores the header, and the elements behind it** as they are cut there. -/
theorem buildElems_behind :
    ∃ b, build hdr.1 hdr.2 .empty = .ok b ∧
      buildElems l = .ok (Builder.endc (b ++ storedBehind hdr.1 es)) := by
  obtain ⟨sizes, b, b', hbehind, -, hb, hvalid, hbuild, hcell⟩ :=
    exists_build_header hvalue hne hbits hrefs hpos hchain
  have hstored : storedBehind hdr.1 es = encodeRun (nest sizes (expandAll es)) := by
    rw [storedBehind, hbehind]
    rfl
  refine ⟨b, hb, ?_⟩
  rw [hstored, ← buildSeq_nest (chainValue_cons.mp hvalue).2 hvalid hbuild]
  exact hcell

/-- **The dynamic reader finds the elements** that the writer has cut together with a header. -/
theorem parseChainDynamic_behind (hread : DynReadable hdr.1 es) :
    ∃ b s, build hdr.1 hdr.2 .empty = .ok b ∧ buildElems l = .ok (Builder.endc (b ++ s)) ∧
      ∀ emptyContent, parseChainDynamic emptyContent (types es) s = .value es := by
  obtain ⟨sizes, b, b', hbehind, hlayout, hb, hvalid, hbuild, hcell⟩ :=
    exists_build_header hvalue hne hbits hrefs hpos hchain
  obtain ⟨hneeded, -⟩ := neededCuts_cellSizes hbits hrefs hbehind
  obtain ⟨run, runs, rfl, hpending, -, -⟩ := nest_chainOf hlayout hneeded
    (hread.cuts sizes hbehind) (chainValue_cons.mp hvalue).2 hread.takes hvalid hbuild
  refine ⟨b, chainOf (run :: runs), hb, hcell,
    fun emptyContent => parseChainDynamic_chainOf emptyContent ?_ hpending⟩
  rintro rfl
  exact hne rfl

end Behind

end TVMCompiler.Sdk
