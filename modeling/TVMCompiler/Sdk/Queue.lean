import Mathlib.Data.List.Induction
import Mathlib.Data.List.InsertIdx
import TVMCompiler.Lib.Except
import TVMCompiler.Sdk.Dictionary

/-!
# Queues in a dictionary

A `queue` keeps its elements in a dictionary with keys of 64 bits, oldest first: a push takes the
key after the greatest one, and when the keys are used up the elements are numbered anew. A
`big_queue` stores each element in a cell of its own and removes the front with one primitive
instead of two.

## Main definitions

* `Queue`, `Kind`, and the operations of `queue` and `big_queue`
* `ConstIterator`: the iterators
* `Op`, `step`, `run`: sequences of operations
* `refStep`, `refRun`: the same operations on a list
* `Repr`: the queue holds the elements of the list, in order

## Main results

* `reindexLoop_spec`: numbering the elements anew keeps them and their order
* `run_refines`: a queue is a list of which the front is taken and to which the back is added
-/

namespace TVMCompiler.Sdk

open Lib Dictionary

structure Queue (Stored : Type) where
  size : ℕ
  dict : Dictionary Stored

namespace Queue

inductive Kind where
  | queue
  | bigQueue
  deriving DecidableEq, Repr

def keyLen : ℕ := 64

variable {Element Stored : Type}

def empty : Queue Stored := ⟨0, .empty⟩

/-- The removal of the first entry: `dictumin` and `dictudel`, or `dicturemminref`. -/
def Kind.takeFront (kind : Kind) (dict : Dictionary Stored) :
    Dictionary Stored × Option (ℕ × Stored) :=
  match kind with
  | .queue =>
    match dict.dictumin with
    | some (idx, sl) => ((dict.dictudel idx).1, some (idx, sl))
    | none => (dict, none)
  | .bigQueue => dict.dicturemmin

/-! ## Iterators -/

structure ConstIterator (Stored : Type) where
  dict : Dictionary Stored
  idx : ℕ
  sl : Option Stored

/-- `begin`. The index of an empty queue's iterator is not looked at. -/
def begin (q : Queue Stored) : ConstIterator Stored :=
  match q.dict.dictumin with
  | some (idx, sl) => ⟨q.dict, idx, some sl⟩
  | none => ⟨q.dict, 0, none⟩

/-- `operator++`. -/
def ConstIterator.next (it : ConstIterator Stored) : Except SdkError (ConstIterator Stored) :=
  (require it.sl.isSome .iteratorOverflow).map fun _ =>
    match it.dict.dictugetnext it.idx with
    | some (idx, sl) => { it with idx := idx, sl := some sl }
    | none => { it with sl := none }

/-- The iterator `i` elements after `begin`. -/
def iteratorAt (q : Queue Stored) : ℕ → Except SdkError (ConstIterator Stored)
  | 0 => .ok q.begin
  | i + 1 => (q.iteratorAt i).bind ConstIterator.next

/-! ## Operations -/

section Operations

variable (codec : ElementCodec Element Stored) (q : Queue Stored)

def frontOpt : Except SdkError (Option Element) :=
  match q.dict.dictumin with
  | some (_, sl) => (codec.parse sl).map some
  | none => .ok none

def backOpt : Except SdkError (Option Element) :=
  match q.dict.dictumax with
  | some (_, sl) => (codec.parse sl).map some
  | none => .ok none

def front : Except SdkError Element :=
  (frontOpt codec q).bind fun rv => rv.elim (.error .iteratorOverflow) .ok

def back : Except SdkError Element :=
  (backOpt codec q).bind fun rv => rv.elim (.error .iteratorOverflow) .ok

def changeFront (val : Element) : Except SdkError (Queue Stored) :=
  match q.dict.dictumin with
  | some (idx, _) =>
    (q.dict.dictuset (codec.build val) idx keyLen).map fun dict => { q with dict := dict }
  | none => .error .iteratorOverflow

theorem length_dicturemmin {dict rest : Dictionary Stored} {e : ℕ × Stored}
    (h : dict.dicturemmin = (rest, some e)) : rest.entries.length < dict.entries.length := by
  cases hentries : dict.entries with
  | nil =>
    rw [dicturemmin_of_nil hentries] at h
    cases h
  | cons e' after =>
    obtain ⟨rest', hrem, hafter⟩ := dicturemmin_of_cons hentries
    rw [hrem] at h
    cases h
    rw [hafter]
    exact Nat.lt_succ_self _

/-- The loop of `reindex`. -/
def reindexLoop (dict newDict : Dictionary Stored) (newIdx : ℕ) :
    Except SdkError (Dictionary Stored) :=
  match h : dict.dicturemmin with
  | (rest, some (_, sl)) =>
    (newDict.dictuset sl newIdx keyLen).bind fun newDict => reindexLoop rest newDict (newIdx + 1)
  | (_, none) => .ok newDict
termination_by dict.entries.length
decreasing_by exact length_dicturemmin h

def reindex : Except SdkError (Queue Stored) :=
  (reindexLoop q.dict .empty 1).map fun dict => { q with dict := dict }

def push (val : Element) : Except SdkError (Queue Stored) :=
  match q.dict.dictumax with
  | none =>
    (q.dict.dictuset (codec.build val) 1 keyLen).map fun dict => ⟨q.size + 1, dict⟩
  | some (idx, _) =>
    if idx ≠ 0xFFFFFFFFFFFFFFFF then
      (q.dict.dictuset (codec.build val) (idx + 1) keyLen).map fun dict => ⟨q.size + 1, dict⟩
    else
      (reindex q).bind fun q =>
        let idx := (q.dict.dictumax.map Prod.fst).getD 0
        (q.dict.dictuset (codec.build val) (idx + 1) keyLen).map fun dict => ⟨q.size + 1, dict⟩

def popOpt (kind : Kind) : Except SdkError (Queue Stored × Option Element) :=
  match kind.takeFront q.dict with
  | (dict, some (_, sl)) => (codec.parse sl).map fun elem => (⟨q.size - 1, dict⟩, some elem)
  | (_, none) => .ok (q, none)

def pop (kind : Kind) : Except SdkError (Queue Stored) :=
  match kind.takeFront q.dict with
  | (dict, some _) => .ok ⟨q.size - 1, dict⟩
  | (_, none) => .error .iteratorOverflow

def erase (it : ConstIterator Stored) : Queue Stored × Bool :=
  match q.dict.dictudel it.idx with
  | (dict, true) => (⟨q.size - 1, dict⟩, true)
  | (dict, false) => ({ q with dict := dict }, false)

/-- The elements in the order of their keys. -/
def elements : Except SdkError (List Element) := q.dict.values.mapM codec.parse

end Operations

/-! ## Runs -/

/-- The operations that change the queue. An iterator is given by the element it points at. -/
inductive Op (Element : Type) where
  | push (val : Element)
  | pop
  | popOpt
  | changeFront (val : Element)
  | erase (i : ℕ)
  | reindex

def step (kind : Kind) (codec : ElementCodec Element Stored) (q : Queue Stored) :
    Op Element → Except SdkError (Queue Stored)
  | .push val => push codec q val
  | .pop => pop q kind
  | .popOpt => (popOpt codec q kind).map Prod.fst
  | .changeFront val => changeFront codec q val
  | .erase i => (q.iteratorAt i).map fun it => (q.erase it).1
  | .reindex => reindex q

def run (kind : Kind) (codec : ElementCodec Element Stored) (ops : List (Op Element))
    (q : Queue Stored) : Except SdkError (Queue Stored) :=
  ops.foldlM (step kind codec) q

/-- The operations on a list of elements. -/
def refStep (l : List Element) : Op Element → Except SdkError (List Element)
  | .push val => .ok (l ++ [val])
  | .pop => if l = [] then .error .iteratorOverflow else .ok l.tail
  | .popOpt => .ok l.tail
  | .changeFront val => if l = [] then .error .iteratorOverflow else .ok (val :: l.tail)
  | .erase i => .ok (l.eraseIdx i)
  | .reindex => .ok l

def refRun (ops : List (Op Element)) (l : List Element) : Except SdkError (List Element) :=
  ops.foldlM refStep l

/-- At any time there are fewer than `2^32` elements, and an iterator points at one of them. -/
def Allowed : List (Op Element) → List Element → Prop
  | [], l => l.length < 2 ^ 32
  | op :: ops, l => l.length < 2 ^ 32 ∧ (∀ i, op = .erase i → i < l.length) ∧
    ∀ l', refStep l op = .ok l' → Allowed ops l'

/-- The queue holds the elements of the list in the order of their keys. -/
structure Repr (codec : ElementCodec Element Stored) (q : Queue Stored) (l : List Element) :
    Prop where
  values : q.dict.values = l.map codec.build
  size : q.size = l.length
  keys_lt : ∀ k ∈ q.dict.keys, k < 2 ^ keyLen

variable {codec : ElementCodec Element Stored} {q : Queue Stored} {l : List Element}

theorem Repr.length_entries (h : Repr codec q l) : q.dict.entries.length = l.length := by
  have hlen := congrArg List.length h.values
  simpa [SortedMap.values] using hlen

/-! ## Reading -/

theorem mapM_parse_build (l : List Element) : (l.map codec.build).mapM codec.parse = .ok l := by
  induction l with
  | nil => rfl
  | cons elem l ih =>
    rw [List.map_cons, List.mapM_cons, codec.parse_build, ih]
    rfl

theorem Repr.elements (h : Repr codec q l) : q.elements codec = .ok l := by
  rw [Queue.elements, h.values, mapM_parse_build]

/-- The first entry holds the first element. -/
theorem Repr.entries_cons {elem : Element} {tail : List Element} (h : Repr codec q (elem :: tail)) :
    ∃ idx after, q.dict.entries = (idx, codec.build elem) :: after ∧
      after.map Prod.snd = tail.map codec.build := by
  have hvalues := h.values
  cases hentries : q.dict.entries with
  | nil => simp [SortedMap.values, hentries] at hvalues
  | cons e after =>
    simp only [SortedMap.values, hentries, List.map_cons, List.cons.injEq] at hvalues
    exact ⟨e.1, after, by rw [← hvalues.1], hvalues.2⟩

theorem Repr.entries_concat {elem : Element} {init : List Element}
    (h : Repr codec q (init ++ [elem])) :
    ∃ idx before, q.dict.entries = before ++ [(idx, codec.build elem)] := by
  have hvalues := h.values
  rcases List.eq_nil_or_concat q.dict.entries with hnil | ⟨before, e, hsplit⟩
  · simp [SortedMap.values, hnil] at hvalues
  · rw [List.concat_eq_append] at hsplit
    simp only [SortedMap.values, hsplit, List.map_append, List.map_cons, List.map_nil] at hvalues
    have hlast := (List.append_inj' hvalues rfl).2
    exact ⟨e.1, before, by rw [hsplit, ← List.singleton_inj.mp hlast]⟩

theorem Repr.dictumin_cons {elem : Element} {tail : List Element}
    (h : Repr codec q (elem :: tail)) :
    ∃ idx, q.dict.dictumin = some (idx, codec.build elem) := by
  obtain ⟨idx, after, hentries, -⟩ := h.entries_cons
  exact ⟨idx, by rw [dictumin, SortedMap.min?, hentries]; rfl⟩

theorem Repr.entries_nil (h : Repr codec q []) : q.dict.entries = [] :=
  List.length_eq_zero_iff.mp h.length_entries

theorem Repr.front (h : Repr codec q l) :
    q.front codec = l.head?.elim (.error .iteratorOverflow) .ok := by
  cases l with
  | nil => rw [Queue.front, frontOpt, dictumin, SortedMap.min?_eq_none.mpr h.entries_nil]; rfl
  | cons elem tail =>
    obtain ⟨idx, hmin⟩ := h.dictumin_cons
    rw [Queue.front, frontOpt, hmin]
    dsimp only
    rw [codec.parse_build]
    rfl

theorem Repr.back (h : Repr codec q l) :
    q.back codec = l.getLast?.elim (.error .iteratorOverflow) .ok := by
  rcases List.eq_nil_or_concat l with rfl | ⟨init, elem, rfl⟩
  · rw [Queue.back, backOpt, dictumax, SortedMap.max?_eq_none.mpr h.entries_nil]
    rfl
  · rw [List.concat_eq_append] at h ⊢
    obtain ⟨idx, before, hentries⟩ := h.entries_concat
    rw [Queue.back, backOpt, dictumax, SortedMap.max?, hentries, List.getLast?_concat,
      List.getLast?_concat]
    dsimp only
    rw [codec.parse_build]
    rfl

/-! ## Numbering anew -/

/-- **The elements are numbered from `newIdx` on**, after those that are there already. -/
theorem reindexLoop_spec (es : List (ℕ × Stored)) {dict : Dictionary Stored}
    (newDict : Dictionary Stored) (newIdx : ℕ) (hes : dict.entries = es) (hkeys : ∀ k ∈ newDict.keys, k < newIdx)
    (hroom : newIdx + es.length ≤ 2 ^ keyLen) :
    ∃ d, reindexLoop dict newDict newIdx = .ok d ∧
      d.values = newDict.values ++ es.map Prod.snd ∧ ∀ k ∈ d.keys, k < newIdx + es.length := by
  induction es generalizing dict newDict newIdx with
  | nil =>
    refine ⟨newDict, ?_, by simp, by simpa using hkeys⟩
    unfold reindexLoop
    split
    · rename_i rest idx sl hrem
      rw [dicturemmin_of_nil hes] at hrem
      cases hrem
    · rfl
  | cons e es ih =>
    obtain ⟨rest, hmin, hrest⟩ := dicturemmin_of_cons hes
    rw [List.length_cons] at hroom
    -- the new entry comes last
    have hentries := SortedMap.entries_insert_of_lt (v := e.2) hkeys
    have hnewKeys : ∀ k ∈ (newDict.insert newIdx e.2).keys, k < newIdx + 1 := by
      rw [SortedMap.keys_insert_of_lt hkeys]
      intro k hk
      rcases List.mem_append.mp hk with hk | hk
      · exact Nat.lt_succ_of_lt (hkeys k hk)
      · obtain rfl := List.mem_singleton.mp hk
        exact Nat.lt_succ_self _
    obtain ⟨d, hd, hvalues, hlt⟩ := ih _ _ hrest hnewKeys (by omega)
    refine ⟨d, ?_, ?_, fun k hk => ?_⟩
    · unfold reindexLoop
      split
      · rename_i rest' idx sl hrem
        rw [hmin] at hrem
        cases hrem
        rw [dictuset_eq_ok (by omega)]
        exact hd
      · rename_i rest' hrem
        rw [hmin] at hrem
        cases hrem
    · rw [hvalues, SortedMap.values, SortedMap.values, hentries, List.map_append,
        List.append_assoc]
      rfl
    · have := hlt k hk
      rw [List.length_cons]
      omega

theorem Repr.reindex (h : Repr codec q l) (hlen : l.length < 2 ^ 32) :
    ∃ q', q.reindex = .ok q' ∧ Repr codec q' l ∧ ∀ k ∈ q'.dict.keys, k ≤ l.length := by
  have hroom : 1 + q.dict.entries.length ≤ 2 ^ keyLen := by
    rw [h.length_entries, keyLen]
    omega
  obtain ⟨d, hd, hvalues, hlt⟩ := reindexLoop_spec q.dict.entries .empty 1
    rfl (fun k hk => absurd hk List.not_mem_nil) hroom
  rw [h.length_entries] at hlt
  refine ⟨{ q with dict := d }, by rw [Queue.reindex, hd]; rfl, ⟨?_, h.size, fun k hk => ?_⟩,
    fun k hk => ?_⟩
  · exact hvalues.trans h.values
  · have := hlt k hk
    rw [keyLen]
    omega
  · have := hlt k hk
    omega

/-! ## Steps -/

/-- An element is added behind the greatest key. -/
theorem Repr.insert_last (h : Repr codec q l) (key : ℕ) (val : Element)
    (hkeys : ∀ k ∈ q.dict.keys, k < key) (hlt : key < 2 ^ keyLen) :
    q.dict.dictuset (codec.build val) key keyLen = .ok (q.dict.insert key (codec.build val)) ∧
      Repr codec ⟨q.size + 1, q.dict.insert key (codec.build val)⟩ (l ++ [val]) := by
  refine ⟨dictuset_eq_ok hlt, ?_, ?_, fun k hk => ?_⟩
  · rw [SortedMap.values, SortedMap.entries_insert_of_lt hkeys, List.map_append, List.map_append,
      ← h.values]
    rfl
  · rw [List.length_append, List.length_singleton, h.size]
  · rw [SortedMap.keys_insert_of_lt hkeys, List.mem_append, List.mem_singleton] at hk
    rcases hk with hk | rfl
    · exact h.keys_lt k hk
    · exact hlt

/-- **A push adds the element at the back**, also when the keys are used up. -/
theorem Repr.push (h : Repr codec q l) (hlen : l.length < 2 ^ 32) (val : Element) :
    ∃ q', q.push codec val = .ok q' ∧ Repr codec q' (l ++ [val]) := by
  unfold Queue.push
  cases hmax : q.dict.dictumax with
  | none =>
    have hnil := SortedMap.max?_eq_none.mp hmax
    have hkeys : ∀ k ∈ q.dict.keys, k < 1 := by
      intro k hk
      rw [SortedMap.keys, hnil] at hk
      exact absurd hk List.not_mem_nil
    obtain ⟨hset, hrepr⟩ := h.insert_last 1 val hkeys (by rw [keyLen]; omega)
    exact ⟨_, by dsimp only; rw [hset]; rfl, hrepr⟩
  | some e =>
    obtain ⟨idx, sl⟩ := e
    obtain ⟨before, hsplit, hle⟩ := SortedMap.split_of_max? hmax
    have hidx : idx < 2 ^ 64 := h.keys_lt idx (SortedMap.mem_keys.mpr ⟨sl, by rw [hsplit]; simp⟩)
    by_cases hfull : idx = 0xFFFFFFFFFFFFFFFF
    · obtain ⟨q', hq', hrepr', hsmall⟩ := h.reindex hlen
      -- the key to take next comes after the new greatest one
      have hkeys : ∀ k ∈ q'.dict.keys, k < (q'.dict.dictumax.map Prod.fst).getD 0 + 1 := by
        intro k hk
        cases hmax' : q'.dict.dictumax with
        | none =>
          rw [SortedMap.keys, SortedMap.max?_eq_none.mp hmax'] at hk
          exact absurd hk List.not_mem_nil
        | some e' => exact Nat.lt_succ_of_le ((SortedMap.split_of_max? hmax').choose_spec.2 k hk)
      have hlt : (q'.dict.dictumax.map Prod.fst).getD 0 + 1 < 2 ^ keyLen := by
        rw [keyLen]
        cases hmax' : q'.dict.dictumax with
        | none =>
          show 0 + 1 < 2 ^ 64
          omega
        | some e' =>
          obtain ⟨before', hsplit', -⟩ := SortedMap.split_of_max? hmax'
          have := hsmall e'.1 (SortedMap.mem_keys.mpr ⟨e'.2, by rw [hsplit']; simp⟩)
          show e'.1 + 1 < 2 ^ 64
          omega
      obtain ⟨hset, hrepr⟩ := hrepr'.insert_last _ val hkeys hlt
      refine ⟨_, ?_, hrepr⟩
      dsimp only
      rw [if_neg (by simpa using hfull), hq']
      dsimp only [Except.bind]
      rw [hset]
      rfl
    · obtain ⟨hset, hrepr⟩ := h.insert_last (idx + 1) val
        (fun k hk => Nat.lt_succ_of_le (hle k hk)) (by rw [keyLen]; omega)
      exact ⟨_, by dsimp only; rw [if_pos hfull, hset]; rfl, hrepr⟩

/-- An entry is taken out together with its element. -/
theorem Repr.remove (h : Repr codec q l) {before after : List (ℕ × Stored)} {e : ℕ × Stored}
    (hentries : q.dict.entries = before ++ e :: after) {dict : Dictionary Stored}
    (hdict : dict.entries = before ++ after) :
    Repr codec ⟨q.size - 1, dict⟩ (l.eraseIdx before.length) := by
  have hvalues := h.values
  have hlen := h.length_entries
  rw [SortedMap.values, hentries, List.map_append, List.map_cons] at hvalues
  refine ⟨?_, ?_, fun k hk => ?_⟩
  · have hmap : (l.eraseIdx before.length).map codec.build =
        (l.map codec.build).eraseIdx before.length := by
      rw [List.eraseIdx_map]
    rw [hmap, ← hvalues, SortedMap.values, hdict, List.map_append,
      List.eraseIdx_append_of_length_le (by simp)]
    simp
  · rw [hentries, List.length_append, List.length_cons] at hlen
    rw [List.length_eraseIdx_of_lt (by omega), h.size]
  · refine h.keys_lt k ?_
    rw [SortedMap.keys, hdict, List.map_append, List.mem_append] at hk
    rw [SortedMap.keys, hentries, List.map_append, List.map_cons, List.mem_append, List.mem_cons]
    rcases hk with hk | hk
    · exact Or.inl hk
    · exact Or.inr (Or.inr hk)

theorem Kind.takeFront_eq (kind : Kind) (dict : Dictionary Stored) :
    kind.takeFront dict = dict.dicturemmin := by
  cases kind with
  | queue =>
    rw [takeFront, dicturemmin, dictumin]
    cases dict.min? <;> rfl
  | bigQueue => rfl

theorem Repr.takeFront (h : Repr codec q l) (kind : Kind) :
    match l with
    | [] => kind.takeFront q.dict = (q.dict, none)
    | elem :: tail => ∃ idx dict, kind.takeFront q.dict = (dict, some (idx, codec.build elem)) ∧
        Repr codec ⟨q.size - 1, dict⟩ tail := by
  rw [Kind.takeFront_eq]
  cases l with
  | nil => exact dicturemmin_of_nil h.entries_nil
  | cons elem tail =>
    obtain ⟨idx, after, hentries, -⟩ := h.entries_cons
    obtain ⟨rest, hrem, hrest⟩ := dicturemmin_of_cons hentries
    exact ⟨idx, rest, hrem, h.remove (show q.dict.entries = [] ++ _ from hentries) hrest⟩

/-- `pop_opt` gives the first element. -/
theorem Repr.popOpt (h : Repr codec q l) (kind : Kind) :
    ∃ q', q.popOpt codec kind = .ok (q', l.head?) ∧ Repr codec q' l.tail := by
  have htake := h.takeFront kind
  unfold Queue.popOpt
  cases l with
  | nil =>
    rw [show kind.takeFront q.dict = (q.dict, none) from htake]
    exact ⟨q, rfl, h⟩
  | cons elem tail =>
    obtain ⟨idx, dict, htake, hrepr⟩ := htake
    refine ⟨_, ?_, hrepr⟩
    rw [htake]
    dsimp only
    rw [codec.parse_build]
    rfl

theorem Repr.changeFront (h : Repr codec q l) (val : Element) :
    match l with
    | [] => q.changeFront codec val = .error .iteratorOverflow
    | _ :: tail => ∃ q', q.changeFront codec val = .ok q' ∧ Repr codec q' (val :: tail) := by
  cases l with
  | nil =>
    rw [Queue.changeFront, dictumin, SortedMap.min?_eq_none.mpr h.entries_nil]
  | cons elem tail =>
    obtain ⟨idx, after, hentries, hafter⟩ := h.entries_cons
    have hmin : q.dict.dictumin = some (idx, codec.build elem) := by
      rw [dictumin, SortedMap.min?, hentries]
      rfl
    have hkey : idx ∈ q.dict.keys := SortedMap.mem_keys.mpr
      ⟨codec.build elem, by rw [hentries]; exact List.mem_cons_self⟩
    have hset := @SortedMap.entries_insert_of_split _ _ _ _ _ _ (codec.build val) [] after hentries
    refine ⟨{ q with dict := q.dict.insert idx (codec.build val) }, ?_, ⟨?_, h.size, ?_⟩⟩
    · rw [Queue.changeFront, hmin]
      dsimp only
      rw [dictuset_eq_ok (h.keys_lt idx hkey)]
      rfl
    · rw [SortedMap.values, hset, List.map_cons, ← hafter]
      rfl
    · intro k hk
      rw [SortedMap.keys_insert_of_mem hkey] at hk
      exact h.keys_lt k hk

/-- The iterator `i` elements after the beginning points at the `i`-th entry. -/
theorem iteratorAt_of_split {before after : List (ℕ × Stored)} {e : ℕ × Stored}
    (h : q.dict.entries = before ++ e :: after) :
    q.iteratorAt before.length = .ok ⟨q.dict, e.1, some e.2⟩ := by
  induction before using List.reverseRecOn generalizing e after with
  | nil =>
    have hmin : q.dict.dictumin = some e := by
      rw [dictumin, SortedMap.min?, h]
      rfl
    rw [List.length_nil, iteratorAt, begin, hmin]
  | append_singleton before e' ih =>
    rw [List.append_assoc] at h
    have hnext : q.dict.dictugetnext e'.1 = some e := SortedMap.next?_of_split h
    rw [List.length_append, List.length_singleton, iteratorAt, ih h]
    show ConstIterator.next ⟨q.dict, e'.1, some e'.2⟩ = _
    rw [ConstIterator.next]
    dsimp only
    rw [hnext]
    rfl

theorem Repr.erase (h : Repr codec q l) {i : ℕ} (hi : i < l.length) :
    ∃ it, q.iteratorAt i = .ok it ∧ (q.erase it).2 = true ∧
      Repr codec (q.erase it).1 (l.eraseIdx i) := by
  rw [← h.length_entries] at hi
  have hsplit : q.dict.entries = q.dict.entries.take i ++ q.dict.entries[i] ::
      q.dict.entries.drop (i + 1) := by
    rw [List.getElem_cons_drop, List.take_append_drop]
  have hlen : (q.dict.entries.take i).length = i := by
    rw [List.length_take]
    omega
  have hat := iteratorAt_of_split hsplit
  rw [hlen] at hat
  have hkey : q.dict.entries[i].1 ∈ q.dict.keys := List.mem_map_of_mem (List.getElem_mem hi)
  have hdel : q.dict.dictudel q.dict.entries[i].1 =
      (SortedMap.erase q.dict q.dict.entries[i].1, true) := by
    rw [dictudel, decide_eq_true hkey]
  refine ⟨_, hat, by rw [Queue.erase, hdel], ?_⟩
  have hrest := h.remove hsplit (SortedMap.entries_erase_of_split hsplit)
  rw [hlen] at hrest
  rw [Queue.erase, hdel]
  exact hrest

/-! ## Refinement -/

/-- **One step.** Each operation does to the queue what it does to the list, exceptions
included. -/
theorem Repr.step (h : Repr codec q l) (kind : Kind) (op : Op Element) (hlen : l.length < 2 ^ 32)
    (herase : ∀ i, op = .erase i → i < l.length) :
    match refStep l op with
    | .ok l' => ∃ q', step kind codec q op = .ok q' ∧ Repr codec q' l'
    | .error e => step kind codec q op = .error e := by
  cases op with
  | push val => exact h.push hlen val
  | pop =>
    have htake := h.takeFront kind
    cases l with
    | nil =>
      show pop q kind = _
      rw [pop, show kind.takeFront q.dict = (q.dict, none) from htake]
    | cons elem tail =>
      obtain ⟨idx, dict, htake, hrepr⟩ := htake
      refine ⟨_, ?_, hrepr⟩
      show pop q kind = _
      rw [pop, htake]
  | popOpt =>
    obtain ⟨q', hpop, hrepr⟩ := h.popOpt kind
    refine ⟨q', ?_, hrepr⟩
    show (Queue.popOpt codec q kind).map Prod.fst = _
    rw [hpop]
    rfl
  | changeFront val =>
    have hchange := h.changeFront val
    cases l with
    | nil => exact hchange
    | cons elem tail => exact hchange
  | erase i =>
    obtain ⟨it, hat, -, hrepr⟩ := h.erase (herase i rfl)
    refine ⟨_, ?_, hrepr⟩
    show (q.iteratorAt i).map _ = _
    rw [hat]
    rfl
  | reindex =>
    obtain ⟨q', hq', hrepr, -⟩ := h.reindex hlen
    exact ⟨q', hq', hrepr⟩

theorem Repr.run (kind : Kind) (ops : List (Op Element)) {q : Queue Stored} {l : List Element}
    (h : Repr codec q l) (hops : Allowed ops l) :
    match refRun ops l with
    | .ok l' => ∃ q', run kind codec ops q = .ok q' ∧ Repr codec q' l'
    | .error e => run kind codec ops q = .error e := by
  induction ops generalizing q l with
  | nil => exact ⟨q, rfl, h⟩
  | cons op ops ih =>
    obtain ⟨hlen, herase, hnext⟩ := hops
    have hstep := h.step kind op hlen herase
    unfold Queue.run refRun
    rw [List.foldlM_cons, List.foldlM_cons]
    cases href : refStep l op with
    | error e =>
      rw [href] at hstep
      rw [show Queue.step kind codec q op = .error e from hstep]
      rfl
    | ok l₁ =>
      rw [href] at hstep
      obtain ⟨q₁, hq₁, hrepr⟩ := hstep
      rw [hq₁]
      exact ih hrepr (hnext l₁ href)

/-- **`queue` and `big_queue` are first-in first-out lists**: from any queue, wherever its keys
are, a run does to the elements in key order what it does to a list. Front and back are the first
and the last element, the size is their number, and an exception of one is one of the other. -/
theorem run_refines (kind : Kind) (codec : ElementCodec Element Stored) (ops : List (Op Element))
    (q : Queue Stored) (l : List Element) (h : Repr codec q l) (hops : Allowed ops l) :
    match refRun ops l with
    | .ok l' => ∃ q', run kind codec ops q = .ok q' ∧ q'.elements codec = .ok l' ∧
        q'.front codec = l'.head?.elim (.error .iteratorOverflow) .ok ∧
        q'.back codec = l'.getLast?.elim (.error .iteratorOverflow) .ok ∧ q'.size = l'.length
    | .error e => run kind codec ops q = .error e := by
  have hrun := h.run kind ops hops
  cases href : refRun ops l with
  | error e =>
    rw [href] at hrun
    exact hrun
  | ok l' =>
    rw [href] at hrun
    obtain ⟨q', hq', hrepr⟩ := hrun
    exact ⟨q', hq', hrepr.elements, hrepr.front, hrepr.back, hrepr.size⟩

section Example

/-- A queue whose keys are used up. -/
def lastKey : Queue ℕ := ⟨1, ⟨[(0xFFFFFFFFFFFFFFFF, 5)], List.pairwise_singleton _ _⟩⟩

theorem repr_lastKey : Repr (.plain ℕ) lastKey [5] where
  values := rfl
  size := rfl
  keys_lt k hk := by
    obtain rfl := List.mem_singleton.mp hk
    decide

theorem run_refines_lastKey : ∃ q' : Queue ℕ,
    run .queue (.plain ℕ) [.push 6, .push 7, .erase 1, .popOpt, .changeFront 8] lastKey = .ok q' ∧
      q'.elements (.plain ℕ) = .ok [8] ∧ q'.front (.plain ℕ) = .ok 8 ∧
      q'.back (.plain ℕ) = .ok 8 ∧ q'.size = 1 :=
  run_refines .queue (.plain ℕ) [.push 6, .push 7, .erase 1, .popOpt, .changeFront 8] lastKey [5]
    repr_lastKey (by
      refine ⟨by decide, nofun, fun l₁ h₁ => ?_⟩
      cases h₁
      refine ⟨by decide, nofun, fun l₂ h₂ => ?_⟩
      cases h₂
      refine ⟨by decide, fun i hi => by cases hi; decide, fun l₃ h₃ => ?_⟩
      cases h₃
      refine ⟨by decide, nofun, fun l₄ h₄ => ?_⟩
      cases h₄
      refine ⟨by decide, nofun, fun l₅ h₅ => ?_⟩
      cases h₅
      exact (by decide : 1 < 2 ^ 32))

end Example

end Queue

end TVMCompiler.Sdk
