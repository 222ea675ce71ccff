import TVMCompiler.Sdk.Dictionary

/-!
# Iterators of dictionary maps

An iterator holds the key that it is at, and the value there. Behind the last key it has no value;
the key stays what it was.

## Main definitions

* `MapIterator` and its operations: `dictionary_map_const_iterator`
* `walk`: the loop from an iterator to the end
* `Lawful`: the loop visits every entry, and each step can be taken back

## Main results

* `walk_createBegin`: the loop visits every entry
* `prev_next_iff`, `next_prev_iff`: the steps that can be taken back
* `lawful_iff`: no step can be taken back from the end
-/

namespace TVMCompiler.Sdk

open Lib Dictionary

/-- `dictionary_map_const_iterator`. The value is a slice where the elements are stored inline, and
else the cell that the entry refers to. -/
@[ext]
structure MapIterator (Stored : Type) where
  dict : Dictionary Stored
  idx : ℕ
  val : Option Stored

namespace MapIterator

variable {Element Stored : Type}

def isEnd (it : MapIterator Stored) : Bool := it.val.isNone

/-- `create_begin`. In an empty dictionary the search leaves `noIdx` in the key. -/
def createBegin (noIdx : ℕ) (dict : Dictionary Stored) : MapIterator Stored :=
  match dict.dictumin with
  | some (idx, val) => ⟨dict, idx, some val⟩
  | none => ⟨dict, noIdx, none⟩

/-- `create_end`. -/
def createEnd (dict : Dictionary Stored) : MapIterator Stored := ⟨dict, 0, none⟩

/-- `operator++`. -/
def next (it : MapIterator Stored) : MapIterator Stored :=
  match it.dict.dictugetnext it.idx with
  | some (nextIdx, val) => { it with idx := nextIdx, val := some val }
  | none => { it with val := none }

/-- `operator--`. -/
def prev (it : MapIterator Stored) : MapIterator Stored :=
  match it.dict.dictugetprev it.idx with
  | some (prevIdx, val) => { it with idx := prevIdx, val := some val }
  | none => { it with val := none }

/-- `operator==`. -/
def same (it it' : MapIterator Stored) : Bool :=
  (it.isEnd && it'.isEnd) || (!it.isEnd && !it'.isEnd && it.idx == it'.idx)

variable (codec : ElementCodec Element Stored)

/-- `operator*`. -/
def deref (it : MapIterator Stored) : Except SdkError (ℕ × Element) :=
  match it.val with
  | none => .error .iteratorOverflow
  | some val => (codec.parse val).map fun elem => (it.idx, elem)

/-- The loop from `it` to `end()`, with what is found at each position. -/
def walk : ℕ → MapIterator Stored → Option (List (Except SdkError (ℕ × Element)))
  | 0, _ => none
  | fuel + 1, it =>
    if it.same (createEnd it.dict) then some []
    else (walk fuel it.next).map (it.deref codec :: ·)

/-- What an entry reads as. -/
def entry (e : ℕ × Stored) : Except SdkError (ℕ × Element) :=
  (codec.parse e.2).map fun elem => (e.1, elem)

/-- The positions that the loop comes to. -/
inductive Reached (noIdx : ℕ) (dict : Dictionary Stored) : MapIterator Stored → Prop where
  | first : Reached noIdx dict (createBegin noIdx dict)
  | next {it : MapIterator Stored} (h : Reached noIdx dict it) (hit : it.isEnd = false) :
    Reached noIdx dict it.next

/-- The iterator at an entry. -/
def atEntry (dict : Dictionary Stored) (e : ℕ × Stored) : MapIterator Stored := ⟨dict, e.1, some e.2⟩

/-- The loop visits every entry, in the order of the keys. At every position that it comes to, a
step forward can be taken back, and so can a step back, except before the first key. A step back
from the end leads to the last key, however the end has been reached. -/
structure Lawful (noIdx : ℕ) (dict : Dictionary Stored) : Prop where
  visits : ∃ n, ∀ fuel, n ≤ fuel →
    walk codec fuel (createBegin noIdx dict) = some (dict.entries.map (entry codec))
  prev_next : ∀ it, Reached noIdx dict it → it.isEnd = false → it.next.prev.same it
  next_prev : ∀ it, Reached noIdx dict it → it.same (createBegin noIdx dict) = false →
    it.prev.next.same it
  prev_end : ∀ it, Reached noIdx dict it → it.isEnd → ∀ e, dict.dictumax = some e →
    it.prev.same (atEntry dict e)
  prev_createEnd : ∀ e, dict.dictumax = some e → (createEnd dict).prev.same (atEntry dict e)

/-! ## Steps -/

variable {codec} {dict : Dictionary Stored} {before after : List (ℕ × Stored)} {e e' : ℕ × Stored}
  {noIdx : ℕ}

theorem createBegin_of_cons (h : dict.entries = e :: after) :
    createBegin noIdx dict = atEntry dict e := by
  have hmin : dict.dictumin = some e := by rw [dictumin, SortedMap.min?, h, List.head?_cons]
  rw [createBegin, hmin]
  rfl

theorem createBegin_of_nil (h : dict.entries = []) : (createBegin noIdx dict).isEnd = true := by
  have hmin : dict.dictumin = none := SortedMap.min?_eq_none.mpr h
  rw [createBegin, hmin]
  rfl

/-- A step forward from an entry leads to the entry behind it, or to the end. -/
theorem next_atEntry (h : dict.entries = before ++ e :: after) :
    (atEntry dict e).next = (after.head?).elim ⟨dict, e.1, none⟩ (atEntry dict) := by
  have hnext : dict.dictugetnext e.1 = after.head? := SortedMap.next?_of_split h
  rw [next]
  show (match dict.dictugetnext e.1 with
    | some (nextIdx, val) => _
    | none => _) = _
  rw [hnext]
  cases after <;> rfl

/-- A step back from an entry, or from the end that has been reached from it, leads to the entry
before it, or to the end. -/
theorem prev_of_idx (h : dict.entries = before ++ e :: after) (val : Option Stored) :
    (MapIterator.mk dict e.1 val).prev =
      (before.getLast?).elim ⟨dict, e.1, none⟩ (atEntry dict) := by
  have hprev : dict.dictugetprev e.1 = before.getLast? := SortedMap.prev?_of_split h
  rw [prev]
  show (match dict.dictugetprev e.1 with
    | some (prevIdx, val) => _
    | none => _) = _
  rw [hprev]
  cases before.getLast? <;> rfl

@[simp] theorem same_atEntry : (atEntry dict e).same (atEntry dict e') = (e.1 == e'.1) := by
  simp [same, isEnd, atEntry]

@[simp] theorem same_none_atEntry {idx : ℕ} :
    (MapIterator.mk dict idx none).same (atEntry dict e) = false := by
  simp [same, isEnd, atEntry]

/-- **A step forward can be taken back** exactly from the entries before the last one. -/
theorem prev_next_iff (h : dict.entries = before ++ e :: after) :
    (atEntry dict e).next.prev.same (atEntry dict e) = true ↔ after ≠ [] := by
  rw [next_atEntry h]
  cases after with
  | nil =>
    -- the end keeps the key, and the step back leads to the entry before it
    rw [List.head?_nil, Option.elim_none, prev_of_idx h]
    refine iff_of_false ?_ fun hne => hne rfl
    cases hlast : before.getLast? with
    | none => simp
    | some e' =>
      have hlt := (SortedMap.lt_of_split h).1 e' (List.mem_of_mem_getLast? hlast)
      simpa using Nat.ne_of_lt hlt
  | cons e' after =>
    have hsplit : dict.entries = (before ++ [e]) ++ e' :: after := by
      rw [h, List.append_assoc, List.singleton_append]
    rw [List.head?_cons, Option.elim_some, atEntry, prev_of_idx hsplit, List.getLast?_concat,
      Option.elim_some, same_atEntry]
    simp

/-- **A step back can be taken back** exactly from the entries behind the first one. -/
theorem next_prev_iff (h : dict.entries = before ++ e :: after) :
    (atEntry dict e).prev.next.same (atEntry dict e) = true ↔ before ≠ [] := by
  rw [atEntry, prev_of_idx h]
  rcases List.eq_nil_or_concat before with rfl | ⟨front, e', rfl⟩
  · -- the end keeps the key, and the step forward leads to the entry behind it
    rw [List.getLast?_nil, Option.elim_none]
    refine iff_of_false ?_ fun hne => hne rfl
    have hnext : (MapIterator.mk dict e.1 none).next = (atEntry dict e).next := rfl
    rw [hnext, next_atEntry h]
    cases after with
    | nil => simp [same, isEnd]
    | cons e' after =>
      have hlt := (SortedMap.lt_of_split h).2 e' List.mem_cons_self
      simp only [List.head?_cons, Option.elim_some, same, isEnd, atEntry]
      simpa using Nat.ne_of_gt hlt
  · rw [List.concat_eq_append] at h ⊢
    have hsplit : dict.entries = front ++ e' :: (e :: after) := by
      rw [h, List.append_assoc, List.singleton_append]
    rw [List.getLast?_concat, Option.elim_some, next_atEntry hsplit]
    simp [same, isEnd, atEntry]

/-! ## The loop -/

theorem walk_end {it : MapIterator Stored} (h : it.isEnd = true) (fuel : ℕ) :
    walk codec (fuel + 1) it = some [] := by
  have hsame : it.same (createEnd it.dict) = true := by
    rw [same, h]
    rfl
  rw [walk, if_pos hsame]

theorem walk_atEntry (h : dict.entries = before ++ e :: after) {fuel : ℕ}
    (hfuel : after.length + 2 ≤ fuel) :
    walk codec fuel (atEntry dict e) = some ((e :: after).map (entry codec)) := by
  induction after generalizing before e fuel with
  | nil =>
    obtain ⟨fuel, rfl⟩ := Nat.exists_eq_add_of_le' hfuel
    have hend : (atEntry dict e).next.isEnd = true := by rw [next_atEntry h]; rfl
    show walk codec (fuel + 1 + 1) _ = _
    rw [walk, if_neg (by simp [same, atEntry, createEnd, isEnd]), walk_end hend]
    rfl
  | cons e' after ih =>
    obtain ⟨fuel, rfl⟩ := Nat.exists_eq_add_of_le' (Nat.le_trans (Nat.le_add_left 1 _) hfuel)
    have hsplit : dict.entries = (before ++ [e]) ++ e' :: after := by
      rw [h, List.append_assoc, List.singleton_append]
    have hnext : (atEntry dict e).next = atEntry dict e' := by rw [next_atEntry h]; rfl
    rw [walk, if_neg (by simp [same, atEntry, createEnd, isEnd]), hnext,
      ih hsplit (by rw [List.length_cons] at hfuel; omega)]
    rfl

/-- **The loop visits every entry**, in the order of the keys. -/
theorem walk_createBegin (dict : Dictionary Stored) {fuel : ℕ}
    (hfuel : dict.entries.length + 1 ≤ fuel) :
    walk codec fuel (createBegin noIdx dict) = some (dict.entries.map (entry codec)) := by
  cases hentries : dict.entries with
  | nil =>
    obtain ⟨fuel, rfl⟩ := Nat.exists_eq_add_of_le' (Nat.le_trans (Nat.le_add_left 1 _) hfuel)
    exact walk_end (createBegin_of_nil hentries) fuel
  | cons e after =>
    rw [createBegin_of_cons hentries]
    refine walk_atEntry (show dict.entries = [] ++ e :: after from hentries) ?_
    rw [hentries, List.length_cons] at hfuel
    omega

/-- In an empty dictionary the loop comes to the end alone. -/
theorem Reached.eq_begin (h : dict.entries = []) {it : MapIterator Stored}
    (hit : Reached noIdx dict it) : it = createBegin noIdx dict := by
  induction hit with
  | first => rfl
  | next hreached hend ih =>
    rw [ih, createBegin_of_nil h] at hend
    cases hend

/-- The end that has been created does not know the last key. -/
theorem prev_createEnd (dict : Dictionary Stored) : (createEnd dict).prev = createEnd dict := by
  have hprev : dict.dictugetprev 0 = none := by
    have hnil : dict.entries.filter (·.1 < 0) = [] :=
      List.filter_eq_nil_iff.mpr fun e _ => by simp
    rw [dictugetprev, SortedMap.prev?, hnil, List.getLast?_nil]
  rw [prev]
  show (match dict.dictugetprev 0 with
    | some (prevIdx, val) => _
    | none => _) = _
  rw [hprev]
  rfl

/-- **The loop visits every entry of every dictionary**, and a step can be taken back between two
entries. It cannot be taken back at the ends, so that an iterator of a dictionary is lawful only if
the dictionary is empty. -/
theorem lawful_iff (codec : ElementCodec Element Stored) (noIdx : ℕ) (dict : Dictionary Stored) :
    (Lawful codec noIdx dict ↔ dict.entries = []) ∧
      (∀ fuel, dict.entries.length + 1 ≤ fuel →
        walk codec fuel (createBegin noIdx dict) = some (dict.entries.map (entry codec))) ∧
      ∀ before e after, dict.entries = before ++ e :: after →
        ((atEntry dict e).next.prev.same (atEntry dict e) = true ↔ after ≠ []) ∧
          ((atEntry dict e).prev.next.same (atEntry dict e) = true ↔ before ≠ []) := by
  refine ⟨⟨fun h => ?_, fun h => ?_⟩, fun fuel hfuel => walk_createBegin dict hfuel,
    fun before e after hsplit => ⟨prev_next_iff hsplit, next_prev_iff hsplit⟩⟩
  · -- a dictionary with a last key has an end from which it is not reached
    by_contra hne
    obtain ⟨e, hlast⟩ : ∃ e, dict.dictumax = some e := by
      cases hmax : dict.dictumax with
      | none => exact absurd (SortedMap.max?_eq_none.mp hmax) hne
      | some e => exact ⟨e, rfl⟩
    have hback := h.prev_createEnd e hlast
    rw [prev_createEnd, createEnd, same_none_atEntry] at hback
    cases hback
  · have hbegin : (createBegin noIdx dict).isEnd = true := createBegin_of_nil h
    have hmax : dict.dictumax = none := SortedMap.max?_eq_none.mpr h
    constructor
    · exact ⟨dict.entries.length + 1, fun fuel hfuel => walk_createBegin dict hfuel⟩
    · intro it hit hend
      rw [hit.eq_begin h, hbegin] at hend
      cases hend
    · intro it hit hne
      rw [hit.eq_begin h, same, hbegin] at hne
      cases hne
    · intro it hit hend e he
      rw [hmax] at he
      cases he
    · intro e he
      rw [hmax] at he
      cases he

/-- From the end of a map with the keys 1 and 2, created or reached, a step back does not lead to
the key 2. -/
theorem not_lawful_two :
    ¬ Lawful (ElementCodec.plain ℕ) 0 ((SortedMap.empty.insert 1 10).insert 2 20) ∧
      ((createEnd ((SortedMap.empty.insert 1 10).insert 2 20)).prev.deref (ElementCodec.plain ℕ) =
        .error .iteratorOverflow) ∧
      ((createBegin 0 ((SortedMap.empty.insert 1 10).insert 2 20)).next.next.prev.deref
        (ElementCodec.plain ℕ) = .ok (1, 10)) := by
  refine ⟨fun h => ?_, rfl, rfl⟩
  have hback := h.prev_createEnd (2, 20) rfl
  cases hback

end MapIterator

end TVMCompiler.Sdk
