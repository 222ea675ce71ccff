import TVMCompiler.Stack.Diff
import TVMCompiler.Stack.Encodable

/-!
# Leaving only the results

Before a return the stack of the function is cleaned up. A single result changes places with the
bottom of the stack, and everything above it is dropped; several results go through the universal
diff.

## Main definitions

* `xchgResult`: the exchange of the result with the bottom
* `DiffForReturn`, `DiffForReturnMulti`: the functions of `StackFixup`

## Main results

* `DiffForReturn_spec`: what is left on the stack
* `DiffForReturn_encodable`: the changes are within the limits on a stack of at most 256 slots
-/

namespace TVMCompiler

section Definitions

variable {src : Stack}

/-- The result in slot `i` goes to the bottom slot `j`. Only an exchange with the top can address a
deep slot, so two deep slots are exchanged through the top. -/
def xchgResult (f : Fixup src) (i j : ℕ) : Option (Fixup src) :=
  if i = j then some f
  else if i = 0 then f.emit (.xchgTop j)
  else if j = 0 then f.emit (.xchgTop i)
  else if i ≤ xchgLimit ∧ j ≤ xchgLimit then f.emit (.mkXchg i j)
  else do
    let f ← f.emit (.xchgTop i)
    let f ← f.emit (.xchgTop j)
    f.emit (.xchgTop i)

/-- The top `numPops` slots are dropped. -/
def dropPops (f : Fixup src) (numPops : ℕ) : Option (Fixup src) :=
  if numPops ≠ 0 then f.emit (makeBlkdrop numPops) else some f

/-- The result goes to the bottom slot. An undefined one needs a slot only. -/
def placeResult (src : Stack) (preserved : StackVreg) : Option (Fixup src) :=
  let j := src.length - 1
  if preserved = unusedReg then
    if src.length = 0 then (Fixup.start src).emit .pushUndef else some (Fixup.start src)
  else do
    let i ← position src preserved
    xchgResult (Fixup.start src) i j

/-- `StackFixup::DiffForReturn`. The result itself is not dropped. -/
def DiffForReturn (src : Stack) : Option StackVreg → Option (List Change)
  | none => do
    let rv ← dropPops (Fixup.start src) src.length
    return optimize false rv.changes
  | some preserved => do
    let rv ← placeResult src preserved
    let rv ← dropPops rv (src.length - 1)
    return optimize false rv.changes

/-- `StackFixup::DiffForReturnMulti`: the results are wanted with the last one on top. -/
def DiffForReturnMulti (src : Stack) (retRegs : List StackVreg) : Option (List Change) :=
  Diff retRegs.reverse src

end Definitions

/-! ## The exchange with the bottom -/

section Exchange

variable {src : Stack} {f : Fixup src} {i j : ℕ}

/-- Three exchanges with the top exchange two other slots. -/
theorem swapAt_three {α : Type} {s : List α} (hi : i ≠ 0) (hj : j ≠ 0) (hij : i ≠ j)
    (hi' : i < s.length) (hj' : j < s.length) :
    ∃ t u r, swapAt s 0 i = some t ∧ swapAt t 0 j = some u ∧ swapAt u 0 i = some r ∧
      swapAt s i j = some r := by
  have hpos : 0 < s.length := by omega
  obtain ⟨r, -, hrun, hr, -⟩ := runSteps_spec [.xchg 0 i, .xchg 0 j, .xchg 0 i] s
    ⟨⟨hpos, hi'⟩, ⟨hpos, hj'⟩, ⟨hpos, hi'⟩, trivial⟩
  simp only [runSteps, List.foldlM_cons, List.foldlM_nil, Step.apply, Option.bind_eq_bind,
    Option.bind_eq_some_iff] at hrun
  obtain ⟨t, ht, u, hu, w, hw, hr'⟩ := hrun
  obtain rfl := Option.some.inj hr'
  have hx := List.getElem?_eq_getElem hi'
  have hy := List.getElem?_eq_getElem hj'
  refine ⟨t, u, w, ht, hu, hw, ?_⟩
  rw [swapAt_eq hx hy]
  refine congrArg some (List.ext_getElem? fun k => ?_)
  rw [getElem?_set_set hx hy, hr]
  simp only [viewAll, Step.view]
  grind

theorem emit_xchgTop {t : Stack} (h : swapAt f.cur 0 i = some t) :
    ∃ g, f.emit (.xchgTop i) = some g ∧ g.cur = t := by
  obtain ⟨g, hg, hcur, -⟩ :=
    Fixup.emit_eq_some (show (Change.xchgTop i).apply unusedReg f.cur = some t from h)
  exact ⟨g, hg, hcur⟩

/-- The four shapes of the exchange have one effect. -/
theorem xchgResult_spec (hi : i < f.cur.length) (hj : j < f.cur.length) :
    ∃ g, xchgResult f i j = some g ∧ swapAt f.cur i j = some g.cur := by
  have hswap := swapAt_eq (List.getElem?_eq_getElem hi) (List.getElem?_eq_getElem hj)
  unfold xchgResult
  split_ifs with heq hi₀ hj₀ hlimit
  · subst heq
    exact ⟨f, rfl, swapAt_self hi⟩
  · subst hi₀
    obtain ⟨g, hg, hcur⟩ := emit_xchgTop hswap
    exact ⟨g, hg, by rw [hcur, hswap]⟩
  · subst hj₀
    rw [swapAt_comm] at hswap ⊢
    obtain ⟨g, hg, hcur⟩ := emit_xchgTop hswap
    exact ⟨g, hg, by rw [hcur, hswap]⟩
  · have happly : (Change.mkXchg i j).apply unusedReg f.cur = some _ :=
      (applyAll_singleton unusedReg _ _).symm.trans
        (expandsTo_xchg i j f.cur _ (by simpa [runSteps, Step.apply] using hswap))
    obtain ⟨g, hg, hcur, -⟩ := Fixup.emit_eq_some happly
    exact ⟨g, hg, by rw [hcur, hswap]⟩
  · obtain ⟨t, u, r, ht, hu, hr, hrun⟩ := swapAt_three hi₀ hj₀ heq hi hj
    obtain ⟨g, hg, rfl⟩ := emit_xchgTop ht
    obtain ⟨g', hg', rfl⟩ := emit_xchgTop hu
    obtain ⟨g'', hg'', rfl⟩ := emit_xchgTop hr
    exact ⟨g'', by simp [hg, hg', hg''], hrun⟩

end Exchange

/-! ## What is left -/

section Left

variable {src : Stack} {f : Fixup src}

/-- Dropping everything above the bottom slot. -/
theorem drop_above_bottom {s : Stack} (hne : s ≠ []) :
    s.drop (s.length - 1) = [s.getLast hne] := by
  conv_lhs => rw [← List.dropLast_append_getLast hne]
  rw [List.drop_append_of_le_length (by simp), List.drop_of_length_le (by simp), List.nil_append]

theorem dropPops_spec {numPops : ℕ} (h : numPops ≤ f.cur.length) :
    ∃ g, dropPops f numPops = some g ∧ g.cur = f.cur.drop numPops := by
  by_cases hzero : numPops = 0
  · exact ⟨f, by simp [dropPops, hzero], by simp [hzero]⟩
  · have hlen : (f.cur.take numPops).length = numPops := by simp [h]
    have happly := apply_makeBlkdrop unusedReg (f.cur.take numPops) (f.cur.drop numPops)
      (by rw [← List.length_pos_iff]; omega)
    rw [hlen, List.take_append_drop] at happly
    obtain ⟨g, hg, hcur, -⟩ := Fixup.emit_eq_some happly
    exact ⟨g, by rw [dropPops, if_pos hzero, hg], hcur⟩

/-- Without a result nothing is left. -/
theorem DiffForReturn_none (src : Stack) :
    ∃ changes, DiffForReturn src none = some changes ∧
      applyAll unusedReg changes src = some [] := by
  have hle : src.length ≤ (Fixup.start src).cur.length := le_rfl
  obtain ⟨g, hg, hcur⟩ := dropPops_spec hle
  refine ⟨optimize false g.changes, ?_, applyAll_optimize_false unusedReg ?_⟩
  · simp [DiffForReturn, hg]
  · rw [g.run_eq, hcur]
    simp [Fixup.start]

/-- An exchange leaves the length, and the slot `j` holds what was in the slot `i`. -/
theorem swapAt_spec {α : Type} {s t : List α} {i j : ℕ} (h : swapAt s i j = some t) :
    t.length = s.length ∧ t[j]? = s[i]? := by
  simp only [swapAt, Option.bind_eq_bind, Option.bind_eq_some_iff] at h
  obtain ⟨x, hx, y, hy, h⟩ := h
  cases h
  refine ⟨by simp, ?_⟩
  rw [getElem?_set_set hx hy, if_pos rfl]
  split_ifs with hji
  · rw [hji]
  · rfl

/-- A register on the stack is the only one that is left. -/
theorem DiffForReturn_reg {reg : StackVreg} (hreg : reg ≠ unusedReg) (hmem : reg ∈ src) :
    ∃ changes, DiffForReturn src (some reg) = some changes ∧
      applyAll unusedReg changes src = some [reg] := by
  obtain ⟨i, hi, hslot⟩ := position_spec hmem
  obtain ⟨hlt, -⟩ := List.getElem?_eq_some_iff.mp hslot
  have hbottom : src.length - 1 < src.length := by omega
  obtain ⟨f, hf, hswap⟩ := xchgResult_spec (f := Fixup.start src) hlt hbottom
  -- the result is at the bottom
  obtain ⟨hlen, hget⟩ := swapAt_spec hswap
  rw [show (Fixup.start src).cur = src from rfl] at hlen hget
  have hle : src.length - 1 ≤ f.cur.length := by omega
  obtain ⟨g, hg, hcur⟩ := dropPops_spec hle
  refine ⟨optimize false g.changes, ?_, applyAll_optimize_false unusedReg ?_⟩
  · simp [DiffForReturn, placeResult, hreg, hi, hf, hg]
  · have hne : f.cur ≠ [] := by
      rw [← List.length_pos_iff]
      omega
    have hlast : f.cur.getLast? = some reg := by
      rw [List.getLast?_eq_getElem?, hlen, hget, hslot]
    rw [g.run_eq, hcur, ← hlen, drop_above_bottom hne]
    rw [List.getLast?_eq_some_getLast hne] at hlast
    exact congrArg some (congrArg (fun x => [x]) (Option.some.inj hlast))

/-- An undefined result is whatever is left in the one slot. -/
theorem DiffForReturn_undef (src : Stack) :
    ∃ changes v, DiffForReturn src (some unusedReg) = some changes ∧
      applyAll unusedReg changes src = some [v] := by
  by_cases hempty : src = []
  · subst hempty
    exact ⟨[.pushUndef], unusedReg, by decide, rfl⟩
  · have hle : src.length - 1 ≤ (Fixup.start src).cur.length := Nat.sub_le _ _
    obtain ⟨g, hg, hcur⟩ := dropPops_spec hle
    refine ⟨optimize false g.changes, src.getLast hempty, ?_,
      applyAll_optimize_false unusedReg ?_⟩
    · simp [DiffForReturn, placeResult, hempty, hg]
    · rw [g.run_eq, hcur]
      exact congrArg some (drop_above_bottom hempty)

/-- Several results are left in their order. -/
theorem DiffForReturnMulti_regs {regs : List StackVreg} (hne : regs ≠ [])
    (hsrc : ∀ v ∈ regs, v ≠ unusedReg → v ∈ src) :
    ∃ changes r, DiffForReturnMulti src regs = some changes ∧
      applyAll unusedReg changes src = some r ∧ r.length = regs.length ∧
      ∀ (k : ℕ) v, regs.reverse[k]? = some v → v ≠ unusedReg → r[k]? = some v := by
  obtain ⟨changes, hchanges, hrun⟩ := applyAll_Diff src regs.reverse (by simpa using hne)
    fun v hv => hsrc v (List.mem_reverse.mp hv)
  exact ⟨changes, _, hchanges, hrun, by simp [length_filledDst],
    fun k v hk hv => getElem?_filledDst src hk hv⟩

/-- **Return fixups leave exactly the results**: nothing, one slot with the result, or as many
slots as there are results, with the last one on top. -/
theorem DiffForReturn_spec (src : Stack) :
    (∃ changes, DiffForReturn src none = some changes ∧
      applyAll unusedReg changes src = some []) ∧
    (∀ reg ∈ src, reg ≠ unusedReg → ∃ changes, DiffForReturn src (some reg) = some changes ∧
      applyAll unusedReg changes src = some [reg]) ∧
    (∃ changes v, DiffForReturn src (some unusedReg) = some changes ∧
      applyAll unusedReg changes src = some [v]) ∧
    ∀ regs : List StackVreg, 2 ≤ regs.length → (∀ v ∈ regs, v ≠ unusedReg → v ∈ src) →
      ∃ changes r, DiffForReturnMulti src regs = some changes ∧
        applyAll unusedReg changes src = some r ∧ r.length = regs.length ∧
        ∀ (k : ℕ) v, regs.reverse[k]? = some v → v ≠ unusedReg → r[k]? = some v := by
  refine ⟨DiffForReturn_none src, fun reg hmem hreg => DiffForReturn_reg hreg hmem,
    DiffForReturn_undef src, fun regs hlen hsrc => DiffForReturnMulti_regs ?_ hsrc⟩
  rintro rfl
  simp at hlen

end Left

/-! ## Within the limits -/

section Limits

variable {src : Stack} {f g : Fixup src}

theorem encodable_of_emit {c : Change} (h : f.emit c = some g) (hf : ∀ d ∈ f.changes, d.Encodable)
    (hc : c.Encodable) : ∀ d ∈ g.changes, d.Encodable := by
  rw [(Fixup.of_emit h).2, List.forall_mem_append]
  exact ⟨hf, by simpa using hc⟩

/-- Slots that an exchange with the top can address go to the bottom within the limits. -/
theorem encodable_xchgResult {i j : ℕ} (hi : i ≤ xchgDeepLimit) (hj : j ≤ xchgDeepLimit)
    (hf : ∀ c ∈ f.changes, c.Encodable) (h : xchgResult f i j = some g) :
    ∀ c ∈ g.changes, c.Encodable := by
  unfold xchgResult at h
  split_ifs at h with heq hi₀ hj₀ hlimit
  · cases h
    exact hf
  · exact encodable_of_emit h hf (encodable_xchgTop.mpr hj)
  · exact encodable_of_emit h hf (encodable_xchgTop.mpr hi)
  · exact encodable_of_emit h hf (encodable_mkXchg.mpr hlimit)
  · simp only [Option.bind_eq_bind, Option.bind_eq_some_iff] at h
    obtain ⟨f₁, hf₁, f₂, hf₂, h⟩ := h
    have h₁ := encodable_of_emit hf₁ hf (encodable_xchgTop.mpr hi)
    have h₂ := encodable_of_emit hf₂ h₁ (encodable_xchgTop.mpr hj)
    exact encodable_of_emit h h₂ (encodable_xchgTop.mpr hi)

theorem encodable_dropPops {numPops : ℕ} (hf : ∀ c ∈ f.changes, c.Encodable)
    (h : dropPops f numPops = some g) : ∀ c ∈ g.changes, c.Encodable := by
  unfold dropPops at h
  split_ifs at h
  · exact encodable_of_emit h hf encodable_makeBlkdrop
  · cases h
    exact hf

/-- **The cleanup for a single result is within the limits** on a stack of at most 256 slots. -/
theorem DiffForReturn_encodable {preserved : Option StackVreg} {changes : List Change}
    (hlen : src.length ≤ xchgDeepLimit + 1) (h : DiffForReturn src preserved = some changes) :
    ∀ c ∈ changes, c.Encodable := by
  have hstart : ∀ c ∈ (Fixup.start src).changes, c.Encodable := by simp [Fixup.start]
  cases preserved with
  | none =>
    simp only [DiffForReturn, Option.bind_eq_bind, Option.bind_eq_some_iff] at h
    obtain ⟨g, hg, h⟩ := h
    cases h
    exact fun c hc => encodable_dropPops hstart hg c (mem_optimize.1 hc)
  | some reg =>
    simp only [DiffForReturn, Option.bind_eq_bind, Option.bind_eq_some_iff] at h
    obtain ⟨f, hf, g, hg, h⟩ := h
    cases h
    refine fun c hc => encodable_dropPops ?_ hg c (mem_optimize.1 hc)
    simp only [placeResult] at hf
    split_ifs at hf
    · exact encodable_of_emit hf hstart encodable_pushUndef
    · cases hf
      exact hstart
    · obtain ⟨i, hi, hf⟩ := Option.bind_eq_some_iff.mp hf
      obtain ⟨hlt, -⟩ := List.getElem?_eq_some_iff.mp (position_slot hi)
      exact encodable_xchgResult (by omega) (by omega) hstart hf

end Limits

/-- The only register on a stack of two slots, and both slots in the order of two results. -/
theorem DiffForReturn_spec_example :
    (∃ changes, DiffForReturn [7, unusedReg] none = some changes ∧
      applyAll unusedReg changes [7, unusedReg] = some []) ∧
    (∃ changes, DiffForReturn [7, unusedReg] (some 7) = some changes ∧
      applyAll unusedReg changes [7, unusedReg] = some [7]) ∧
    (∃ changes v, DiffForReturn [7, unusedReg] (some unusedReg) = some changes ∧
      applyAll unusedReg changes [7, unusedReg] = some [v]) ∧
    ∃ changes r, DiffForReturnMulti [7, unusedReg] [unusedReg, 7] = some changes ∧
      applyAll unusedReg changes [7, unusedReg] = some r ∧ r.length = 2 ∧
      ∀ (k : ℕ) v, ([7, unusedReg] : Stack)[k]? = some v → v ≠ unusedReg → r[k]? = some v := by
  obtain ⟨hnone, hreg, hundef, hmulti⟩ := DiffForReturn_spec [7, unusedReg]
  exact ⟨hnone, hreg 7 (by simp) (by decide), hundef,
    hmulti [unusedReg, 7] (by simp) (by simp)⟩

end TVMCompiler
