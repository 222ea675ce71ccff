import TVMCompiler.Sdk.Dictionary

/-!
# Arrays in a dictionary

A `dict_array` keeps its elements in a dictionary, together with their number, which is also the
key of the next element. It inherits the operations of `dict_base`, which every dictionary
container has.

## Main definitions

* `DictArray` and its operations
* `Op`, `step`, `run`: the public operations, one after another
* `Contiguous`: the keys are the numbers below the size

## Main results

* `contiguous_remMin_iff`: removing the smallest key breaks every array of two or more elements
* `contiguous_run`: in all other runs the keys stay contiguous
-/

namespace TVMCompiler.Sdk

open Lib Dictionary

/-- `dict_array`, with the members of `dict_base`. -/
structure DictArray (Stored : Type) where
  size : ℕ
  dict : Dictionary Stored

namespace DictArray

variable {Element Stored : Type} (codec : ElementCodec Element Stored) (keyLen : ℕ)

def empty : DictArray Stored := ⟨0, .empty⟩

/-! ## The operations of `dict_base` -/

/-- `rem_min`. The element comes back with its key. -/
def remMin (a : DictArray Stored) : Except SdkError (DictArray Stored × Option (ℕ × Element)) :=
  match a.dict.dicturemmin with
  | (dict, some (idx, val)) =>
    (codec.parse val).map fun elem => (⟨a.size - 1, dict⟩, some (idx, elem))
  | (dict, none) => .ok (⟨a.size, dict⟩, none)

/-- `rem_max`. -/
def remMax (a : DictArray Stored) : Except SdkError (DictArray Stored × Option (ℕ × Element)) :=
  match a.dict.dicturemmax with
  | (dict, some (idx, val)) =>
    (codec.parse val).map fun elem => (⟨a.size - 1, dict⟩, some (idx, elem))
  | (dict, none) => .ok (⟨a.size, dict⟩, none)

def clear (_ : DictArray Stored) : DictArray Stored := empty

def lookup (a : DictArray Stored) (key : ℕ) : Except SdkError (Option Element) :=
  match a.dict.dictuget key with
  | some val => (codec.parse val).map some
  | none => .ok none

/-! ## The operations of `dict_array` -/

def pushBack (a : DictArray Stored) (elem : Element) : Except SdkError (DictArray Stored) :=
  (a.dict.dictuset (codec.build elem) a.size keyLen).map fun dict => ⟨a.size + 1, dict⟩

/-- `pop_back`. It calls `dictureremmax`, which no class under the SDK declares, so that function
is a parameter. -/
def popBack (dictureremmax : Dictionary Stored → Dictionary Stored × Option (ℕ × Stored))
    (a : DictArray Stored) : Except SdkError (DictArray Stored) :=
  let (dict, val) := dictureremmax a.dict
  (require val.isSome .iteratorOverflow).map fun _ => ⟨a.size - 1, dict⟩

def setAt (a : DictArray Stored) (idx : ℕ) (val : Element) : Except SdkError (DictArray Stored) :=
  (require (idx < a.size) .iteratorOverflow).bind fun _ =>
    (a.dict.dictuset (codec.build val) idx keyLen).map fun dict => ⟨a.size, dict⟩

/-- `assign`, and the assignment of an initializer list. -/
def assign (a : DictArray Stored) (elems : List Element) : Except SdkError (DictArray Stored) :=
  elems.foldlM (pushBack codec keyLen) a.clear

/-- The constructor from an initializer list. -/
def ofList (elems : List Element) : Except SdkError (DictArray Stored) :=
  elems.foldlM (pushBack codec keyLen) empty

/-! ## Runs -/

/-- The public operations that change the array. -/
inductive Op (Element : Type) where
  | pushBack (elem : Element)
  | popBack
  | setAt (idx : ℕ) (val : Element)
  | remMin
  | remMax
  | clear
  | assign (elems : List Element)
  | ofList (elems : List Element)

variable (dictureremmax : Dictionary Stored → Dictionary Stored × Option (ℕ × Stored))

def step (a : DictArray Stored) : Op Element → Except SdkError (DictArray Stored)
  | .pushBack elem => pushBack codec keyLen a elem
  | .popBack => popBack dictureremmax a
  | .setAt idx val => setAt codec keyLen a idx val
  | .remMin => (remMin codec a).map Prod.fst
  | .remMax => (remMax codec a).map Prod.fst
  | .clear => .ok a.clear
  | .assign elems => assign codec keyLen a elems
  | .ofList elems => ofList codec keyLen elems

/-- An exception ends the run. -/
def run (ops : List (Op Element)) (a : DictArray Stored) : Except SdkError (DictArray Stored) :=
  ops.foldlM (step codec keyLen dictureremmax) a

/-- No step of the run removes the smallest key of an array of two or more elements. -/
def KeepsFront : List (Op Element) → DictArray Stored → Prop
  | [], _ => True
  | op :: ops, a => (op = .remMin → a.size ≤ 1) ∧
    ∀ a', step codec keyLen dictureremmax a op = .ok a' → KeepsFront ops a'

/-! ## Contiguous keys -/

/-- The keys are the numbers below the size, so that the size is the number of elements and the
next key is free. -/
def Contiguous (a : DictArray Stored) : Prop := a.dict.keys = List.range a.size

variable {codec keyLen dictureremmax} {a a' : DictArray Stored}

theorem Contiguous.length (h : Contiguous a) : a.dict.entries.length = a.size := by
  rw [← SortedMap.length_keys, h, List.length_range]

theorem contiguous_empty : Contiguous (empty : DictArray Stored) := rfl

/-- The next key is free. -/
theorem Contiguous.size_notMem (h : Contiguous a) : a.size ∉ a.dict.keys := by
  rw [h]
  simp

theorem Contiguous.pushBack {elem : Element} (h : Contiguous a)
    (hpush : pushBack codec keyLen a elem = .ok a') : Contiguous a' := by
  unfold DictArray.pushBack dictuset at hpush
  split at hpush
  · cases hpush
    have hlt : ∀ k ∈ a.dict.keys, k < a.size := by
      rw [h]
      exact fun k hk => List.mem_range.mp hk
    show (a.dict.insert a.size _).keys = List.range (a.size + 1)
    rw [SortedMap.keys_insert_of_lt hlt, h, List.range_succ]
  · cases hpush

theorem Contiguous.foldlM_pushBack {elems : List Element} (h : Contiguous a)
    (hrun : elems.foldlM (DictArray.pushBack codec keyLen) a = .ok a') : Contiguous a' := by
  induction elems generalizing a with
  | nil =>
    cases hrun
    exact h
  | cons elem elems ih =>
    rw [List.foldlM_cons] at hrun
    cases hpush : DictArray.pushBack codec keyLen a elem with
    | error e =>
      rw [hpush] at hrun
      cases hrun
    | ok b =>
      rw [hpush] at hrun
      exact ih (h.pushBack hpush) hrun

theorem Contiguous.setAt {idx : ℕ} {val : Element} (h : Contiguous a)
    (hset : setAt codec keyLen a idx val = .ok a') : Contiguous a' := by
  unfold DictArray.setAt require dictuset at hset
  by_cases hidx : idx < a.size
  · rw [if_pos (decide_eq_true hidx)] at hset
    dsimp only [Except.bind] at hset
    split at hset
    · cases hset
      have hmem : idx ∈ a.dict.keys := by
        rw [h]
        exact List.mem_range.mpr hidx
      exact (SortedMap.keys_insert_of_mem hmem).trans h
    · cases hset
  · rw [if_neg (by simpa using hidx)] at hset
    cases hset

/-- The last entry of a contiguous array has the last key. -/
theorem Contiguous.split_last (h : Contiguous a) (hne : a.dict.entries ≠ []) :
    ∃ before val, a.dict.entries = before ++ [(a.size - 1, val)] ∧
      before.map Prod.fst = List.range (a.size - 1) := by
  obtain ⟨before, ⟨key, val⟩, hsplit⟩ :=
    List.eq_nil_or_concat a.dict.entries |>.resolve_left hne
  rw [List.concat_eq_append] at hsplit
  have hkeys : before.map Prod.fst ++ [key] = List.range a.size := by
    rw [← h, SortedMap.keys, hsplit, List.map_append]
    rfl
  have hpos : 0 < a.size := by
    rw [← h.length, hsplit, List.length_append]
    exact Nat.succ_pos _
  obtain ⟨n, hn⟩ := Nat.exists_eq_add_of_le' hpos
  rw [hn, List.range_succ] at hkeys
  obtain ⟨hbefore, hlast⟩ := List.append_inj' hkeys rfl
  obtain rfl : key = n := by simpa using hlast
  exact ⟨before, val, by rw [hsplit, hn, Nat.add_sub_cancel], by rw [hbefore, hn, Nat.add_sub_cancel]⟩

theorem Contiguous.dicturemmax (h : Contiguous a) (hne : a.dict.entries ≠ []) :
    ∃ dict e, a.dict.dicturemmax = (dict, some e) ∧
      Contiguous (⟨a.size - 1, dict⟩ : DictArray Stored) := by
  obtain ⟨before, val, hsplit, hkeys⟩ := h.split_last hne
  obtain ⟨rest, hrem, hrest⟩ := dicturemmax_of_concat hsplit
  exact ⟨rest, _, hrem, by rw [Contiguous, SortedMap.keys, hrest, hkeys]⟩

theorem Contiguous.remMax (h : Contiguous a) {r : Option (ℕ × Element)}
    (hrem : remMax codec a = .ok (a', r)) : Contiguous a' := by
  unfold DictArray.remMax at hrem
  by_cases hne : a.dict.entries = []
  · rw [dicturemmax_of_nil hne] at hrem
    cases hrem
    exact h
  · obtain ⟨dict, ⟨idx, val⟩, hmax, hcont⟩ := h.dicturemmax hne
    rw [hmax] at hrem
    cases hparse : codec.parse val with
    | error e => simp [hparse, Except.map] at hrem
    | ok elem =>
      simp only [hparse, Except.map, Except.ok.injEq, Prod.mk.injEq] at hrem
      exact hrem.1 ▸ hcont

theorem Contiguous.popBack (hmax : ∀ dict, dictureremmax dict = dict.dicturemmax)
    (h : Contiguous a) (hpop : popBack dictureremmax a = .ok a') : Contiguous a' := by
  unfold DictArray.popBack at hpop
  rw [hmax] at hpop
  by_cases hne : a.dict.entries = []
  · rw [dicturemmax_of_nil hne] at hpop
    cases hpop
  · obtain ⟨dict, e, hrem, hcont⟩ := h.dicturemmax hne
    rw [hrem] at hpop
    cases hpop
    exact hcont

/-- **Removing the smallest key keeps the keys contiguous exactly if no other key is left.** -/
theorem contiguous_remMin_iff (h : Contiguous a) {r : Option (ℕ × Element)}
    (hrem : remMin codec a = .ok (a', r)) : Contiguous a' ↔ a.size ≤ 1 := by
  unfold DictArray.remMin at hrem
  have hlen := h.length
  have hkeys := h
  unfold Contiguous SortedMap.keys at hkeys
  cases hentries : a.dict.entries with
  | nil =>
    rw [dicturemmin_of_nil hentries] at hrem
    cases hrem
    refine iff_of_true h ?_
    rw [← hlen, hentries]
    exact Nat.zero_le 1
  | cons e after =>
    obtain ⟨rest, hmin, hrest⟩ := dicturemmin_of_cons hentries
    rw [hmin] at hrem
    cases hparse : codec.parse e.2 with
    | error err => simp [hparse, Except.map] at hrem
    | ok elem =>
      simp only [hparse, Except.map, Except.ok.injEq, Prod.mk.injEq] at hrem
      obtain ⟨rfl, -⟩ := hrem
      rw [hentries, List.length_cons] at hlen
      rw [hentries, ← hlen, List.range_succ_eq_map, List.map_cons, List.cons.injEq] at hkeys
      -- the keys that are left begin with `1`
      have hrestKeys : rest.keys = (List.range (a.size - 1)).map Nat.succ := by
        rw [SortedMap.keys, hrest, hkeys.2, ← hlen, Nat.add_sub_cancel]
      show rest.keys = List.range (a.size - 1) ↔ a.size ≤ 1
      rw [hrestKeys]
      constructor
      · intro heq
        by_contra hsize
        obtain ⟨n, hn⟩ := Nat.exists_eq_add_of_le' (show 2 ≤ a.size by omega)
        rw [hn, show n + 2 - 1 = n + 1 from rfl, List.range_succ_eq_map, List.map_cons] at heq
        exact Nat.succ_ne_zero 0 (List.cons.inj heq).1
      · intro hsize
        obtain hzero : a.size - 1 = 0 := by omega
        rw [hzero]
        rfl

/-- Each step keeps the keys contiguous, except a removal of the smallest one of several. -/
theorem Contiguous.step (hmax : ∀ dict, dictureremmax dict = dict.dicturemmax) {op : Op Element}
    (h : Contiguous a) (hop : op = .remMin → a.size ≤ 1)
    (hstep : step codec keyLen dictureremmax a op = .ok a') : Contiguous a' := by
  cases op with
  | pushBack elem => exact h.pushBack hstep
  | popBack => exact h.popBack hmax hstep
  | setAt idx val => exact h.setAt hstep
  | remMin =>
    cases hrem : remMin codec a with
    | error e => simp [DictArray.step, hrem, Except.map] at hstep
    | ok p =>
      simp only [DictArray.step, hrem, Except.map, Except.ok.injEq] at hstep
      exact hstep ▸ (contiguous_remMin_iff h hrem).mpr (hop rfl)
  | remMax =>
    cases hrem : DictArray.remMax codec a with
    | error e => simp [DictArray.step, hrem, Except.map] at hstep
    | ok p =>
      simp only [DictArray.step, hrem, Except.map, Except.ok.injEq] at hstep
      exact hstep ▸ h.remMax hrem
  | clear =>
    cases hstep
    exact contiguous_empty
  | assign elems => exact contiguous_empty.foldlM_pushBack hstep
  | ofList elems => exact contiguous_empty.foldlM_pushBack hstep

/-- **Dictionary arrays stay contiguous** in every run that does not remove the smallest key of
an array of several elements: the keys are those below the size, the size is the number of
elements, and the next `push_back` replaces none. -/
theorem contiguous_run (codec : ElementCodec Element Stored) (keyLen : ℕ)
    (dictureremmax : Dictionary Stored → Dictionary Stored × Option (ℕ × Stored))
    (hmax : ∀ dict, dictureremmax dict = dict.dicturemmax) (ops : List (Op Element))
    (hops : KeepsFront codec keyLen dictureremmax ops empty) (a : DictArray Stored)
    (hrun : run codec keyLen dictureremmax ops empty = .ok a) :
    a.dict.keys = List.range a.size ∧ a.dict.entries.length = a.size ∧
      a.dict.dictuget a.size = none := by
  suffices hgen : ∀ b, Contiguous b → KeepsFront codec keyLen dictureremmax ops b →
      run codec keyLen dictureremmax ops b = .ok a → Contiguous a by
    have h := hgen empty contiguous_empty hops hrun
    exact ⟨h, h.length, SortedMap.lookup_eq_none h.size_notMem⟩
  clear hops hrun
  induction ops with
  | nil =>
    intro b hb _ hrun
    cases hrun
    exact hb
  | cons op ops ih =>
    intro b hb hops hrun
    unfold run at hrun
    rw [List.foldlM_cons] at hrun
    cases hstep : step codec keyLen dictureremmax b op with
    | error e =>
      rw [hstep] at hrun
      cases hrun
    | ok c =>
      rw [hstep] at hrun
      exact ih c (hb.step hmax hops.1 hstep) (hops.2 c hstep) hrun

section Example

theorem contiguous_run_example :
    ([(0, 7)] : List (ℕ × ℕ)).map Prod.fst = List.range 1 ∧ ([(0, 7)] : List (ℕ × ℕ)).length = 1 ∧
      dictuget ⟨[(0, 7)], List.pairwise_singleton _ _⟩ 1 = none :=
  contiguous_run (.plain ℕ) 32 dicturemmax (fun _ => rfl)
    [.ofList [4, 5], .popBack, .remMin, .pushBack 6, .setAt 0 7] (by
      refine ⟨nofun, fun a₁ h₁ => ?_⟩
      cases h₁
      refine ⟨nofun, fun a₂ h₂ => ?_⟩
      cases h₂
      refine ⟨fun _ => le_refl 1, fun a₃ h₃ => ?_⟩
      cases h₃
      refine ⟨nofun, fun a₄ h₄ => ?_⟩
      cases h₄
      exact ⟨nofun, fun _ _ => trivial⟩)
    ⟨1, ⟨[(0, 7)], List.pairwise_singleton _ _⟩⟩ rfl

/-- After `rem_min` the key `1` is left, and `push_back` replaces its element. -/
theorem remMin_breaks_pushBack :
    ∃ a b : DictArray ℕ,
      run (.plain ℕ) 32 dicturemmax [.ofList [4, 5], .remMin] empty = .ok a ∧
        a.dict.entries = [(1, 5)] ∧ a.size = 1 ∧ ¬ Contiguous a ∧
        run (.plain ℕ) 32 dicturemmax [.ofList [4, 5], .remMin, .pushBack 6] empty = .ok b ∧
        b.dict.entries = [(1, 6)] ∧ b.size = 2 := by
  refine ⟨⟨1, ⟨[(1, 5)], List.pairwise_singleton _ _⟩⟩,
    ⟨2, ⟨[(1, 6)], List.pairwise_singleton _ _⟩⟩, rfl, rfl, rfl, ?_, rfl, rfl, rfl⟩
  intro h
  have hkeys : [1] = List.range 1 := h
  cases hkeys

end Example

end DictArray

end TVMCompiler.Sdk
