import Mathlib.Data.List.Basic
import Mathlib.Order.Defs.LinearOrder
import Mathlib.Order.Basic
import Mathlib.Order.Lattice
import Mathlib.Order.Monotone.Basic

/-!
# Finite maps with ordered keys

A finite map is kept as the list of its entries in ascending order of their keys. Each update is
described by where it acts: an entry splits the list into those before and those after it.

## Main definitions

* `SortedMap`: the entries, with their order
* `SortedMap.lookup`, `SortedMap.insert`, `SortedMap.erase`
* `SortedMap.min?`, `SortedMap.max?`: the ends
* `SortedMap.next?`, `SortedMap.prev?`: the entries after and before a key

## Main results

* `SortedMap.entries_insert_of_split`, `SortedMap.entries_insert_of_lt`,
  `SortedMap.entries_erase_of_split`: the entries after an update
* `SortedMap.insert_relabel` and its companions: the operations on other keys and values
-/

namespace TVMCompiler.Lib

/-- A finite map, as the list of its entries in ascending order of the keys. -/
@[ext]
structure SortedMap (κ ν : Type) [LinearOrder κ] where
  entries : List (κ × ν)
  sorted : entries.Pairwise fun p q => p.1 < q.1

namespace SortedMap

variable {κ ν : Type} [LinearOrder κ]

def empty : SortedMap κ ν := ⟨[], List.Pairwise.nil⟩

def keys (m : SortedMap κ ν) : List κ := m.entries.map Prod.fst

def values (m : SortedMap κ ν) : List ν := m.entries.map Prod.snd

def lookup (m : SortedMap κ ν) (k : κ) : Option ν := m.entries.lookup k

/-- The entry `(k, v)` takes its place among the entries, or that of an entry with its key. -/
def insertEntry (k : κ) (v : ν) : List (κ × ν) → List (κ × ν)
  | [] => [(k, v)]
  | e :: es =>
    if k < e.1 then (k, v) :: e :: es
    else if k = e.1 then (k, v) :: es
    else e :: insertEntry k v es

theorem mem_insertEntry {k : κ} {v : ν} {es : List (κ × ν)} {e : κ × ν}
    (h : e ∈ insertEntry k v es) : e = (k, v) ∨ e ∈ es := by
  induction es with
  | nil => exact Or.inl (List.mem_singleton.mp h)
  | cons e' es ih =>
    unfold insertEntry at h
    split_ifs at h
    · exact List.mem_cons.mp h
    · exact (List.mem_cons.mp h).imp_right (List.mem_cons_of_mem e')
    · rcases List.mem_cons.mp h with rfl | h
      · exact Or.inr List.mem_cons_self
      · exact (ih h).imp_right (List.mem_cons_of_mem e')

theorem pairwise_insertEntry (k : κ) (v : ν) {es : List (κ × ν)}
    (h : es.Pairwise fun p q => p.1 < q.1) :
    (insertEntry k v es).Pairwise fun p q => p.1 < q.1 := by
  induction es with
  | nil => exact List.pairwise_singleton _ _
  | cons e es ih =>
    obtain ⟨hhead, htail⟩ := List.pairwise_cons.mp h
    unfold insertEntry
    split_ifs with hlt heq
    · refine List.pairwise_cons.mpr ⟨fun q hq => ?_, h⟩
      rcases List.mem_cons.mp hq with rfl | hq
      · exact hlt
      · exact hlt.trans (hhead q hq)
    · subst heq
      exact List.pairwise_cons.mpr ⟨hhead, htail⟩
    · refine List.pairwise_cons.mpr ⟨fun q hq => ?_, ih htail⟩
      rcases mem_insertEntry hq with rfl | hq
      · exact lt_of_le_of_ne (not_lt.mp hlt) (Ne.symm heq)
      · exact hhead q hq

def insert (m : SortedMap κ ν) (k : κ) (v : ν) : SortedMap κ ν :=
  ⟨insertEntry k v m.entries, pairwise_insertEntry k v m.sorted⟩

def erase (m : SortedMap κ ν) (k : κ) : SortedMap κ ν :=
  ⟨m.entries.filter (·.1 ≠ k), m.sorted.filter _⟩

def min? (m : SortedMap κ ν) : Option (κ × ν) := m.entries.head?

def max? (m : SortedMap κ ν) : Option (κ × ν) := m.entries.getLast?

/-- The first entry with a greater key. -/
def next? (m : SortedMap κ ν) (k : κ) : Option (κ × ν) := m.entries.find? (k < ·.1)

/-- The last entry with a smaller key. -/
def prev? (m : SortedMap κ ν) (k : κ) : Option (κ × ν) := (m.entries.filter (·.1 < k)).getLast?

/-! ## The entries after an update -/

variable {m : SortedMap κ ν} {k : κ} {v w : ν} {before after : List (κ × ν)}

@[simp] theorem entries_empty : (empty : SortedMap κ ν).entries = [] := rfl

@[simp] theorem keys_empty : (empty : SortedMap κ ν).keys = [] := rfl

theorem length_keys (m : SortedMap κ ν) : m.keys.length = m.entries.length :=
  List.length_map _

theorem mem_keys : k ∈ m.keys ↔ ∃ v, (k, v) ∈ m.entries := by
  simp [keys]

/-- An entry splits the list, with smaller keys before it and greater ones after it. -/
theorem split_of_mem_keys (h : k ∈ m.keys) :
    ∃ before v after, m.entries = before ++ (k, v) :: after := by
  obtain ⟨v, hv⟩ := mem_keys.mp h
  obtain ⟨before, after, hsplit⟩ := List.append_of_mem hv
  exact ⟨before, v, after, hsplit⟩

theorem lt_of_split (h : m.entries = before ++ (k, v) :: after) :
    (∀ e ∈ before, e.1 < k) ∧ ∀ e ∈ after, k < e.1 := by
  have hsorted := m.sorted
  rw [h] at hsorted
  obtain ⟨-, hright, hcross⟩ := List.pairwise_append.mp hsorted
  exact ⟨fun e he => hcross e he _ List.mem_cons_self, (List.pairwise_cons.mp hright).1⟩

theorem insertEntry_append (hbefore : ∀ e ∈ before, e.1 < k) :
    insertEntry k w (before ++ after) = before ++ insertEntry k w after := by
  induction before with
  | nil => rfl
  | cons e before ih =>
    have hlt := hbefore e List.mem_cons_self
    rw [List.cons_append, insertEntry, if_neg (not_lt.mpr hlt.le), if_neg (ne_of_gt hlt),
      ih fun e' he' => hbefore e' (List.mem_cons_of_mem e he')]
    rfl

/-- A new value takes the place of the old one. -/
theorem entries_insert_of_split (h : m.entries = before ++ (k, v) :: after) :
    (m.insert k w).entries = before ++ (k, w) :: after := by
  show insertEntry k w m.entries = _
  rw [h, insertEntry_append (lt_of_split h).1, insertEntry, if_neg (lt_irrefl k), if_pos rfl]

/-- An entry whose key is greater than all others comes last. -/
theorem entries_insert_of_lt (h : ∀ k' ∈ m.keys, k' < k) :
    (m.insert k v).entries = m.entries ++ [(k, v)] := by
  show insertEntry k v m.entries = _
  have hbefore : ∀ e ∈ m.entries, e.1 < k := fun e he => h _ (List.mem_map_of_mem he)
  have hinsert : insertEntry k v (m.entries ++ []) = m.entries ++ insertEntry k v [] :=
    insertEntry_append hbefore
  rwa [List.append_nil] at hinsert

theorem keys_insert_of_lt (h : ∀ k' ∈ m.keys, k' < k) : (m.insert k v).keys = m.keys ++ [k] := by
  rw [keys, entries_insert_of_lt h, List.map_append]
  rfl

/-- A value for a key that is there already leaves the keys as they are. -/
theorem keys_insert_of_mem (h : k ∈ m.keys) : (m.insert k v).keys = m.keys := by
  obtain ⟨before, v', after, hsplit⟩ := split_of_mem_keys h
  rw [keys, keys, entries_insert_of_split hsplit, hsplit, List.map_append, List.map_append]
  rfl

theorem entries_erase_of_split (h : m.entries = before ++ (k, v) :: after) :
    (m.erase k).entries = before ++ after := by
  obtain ⟨hbefore, hafter⟩ := lt_of_split h
  have hkeep (es : List (κ × ν)) (hes : ∀ e ∈ es, e.1 ≠ k) : es.filter (·.1 ≠ k) = es :=
    List.filter_eq_self.mpr fun e he => by simpa using hes e he
  show m.entries.filter (·.1 ≠ k) = _
  rw [h, List.filter_append, List.filter_cons_of_neg (by simp),
    hkeep before fun e he => ne_of_lt (hbefore e he), hkeep after fun e he => ne_of_gt (hafter e he)]

/-- A key that is not there is not removed. -/
theorem erase_of_notMem (h : k ∉ m.keys) : m.erase k = m := by
  ext1
  refine List.filter_eq_self.mpr fun e he => ?_
  have hne : e.1 ≠ k := fun heq => h (heq ▸ List.mem_map_of_mem he)
  simpa using hne

theorem lookup_eq_none (h : k ∉ m.keys) : m.lookup k = none :=
  List.lookup_eq_none_iff.mpr fun e he => by
    have hne : e.1 ≠ k := fun heq => h (heq ▸ List.mem_map_of_mem he)
    simpa using hne.symm

/-! ## The ends -/

theorem split_of_max? (h : m.max? = some (k, v)) :
    ∃ before, m.entries = before ++ [(k, v)] ∧ ∀ k' ∈ m.keys, k' ≤ k := by
  obtain ⟨before, hsplit⟩ := List.getLast?_eq_some_iff.mp h
  refine ⟨before, hsplit, fun k' hk' => ?_⟩
  obtain ⟨v', hv'⟩ := mem_keys.mp hk'
  rw [hsplit, List.mem_append, List.mem_singleton] at hv'
  rcases hv' with hv' | hv'
  · exact ((lt_of_split hsplit).1 _ hv').le
  · exact (Prod.ext_iff.mp hv').1.le

theorem max?_eq_none : m.max? = none ↔ m.entries = [] := List.getLast?_eq_none_iff

theorem min?_eq_none : m.min? = none ↔ m.entries = [] := List.head?_eq_none_iff

/-- The entry after a key is the one that follows it in the list. -/
theorem next?_of_split (h : m.entries = before ++ (k, v) :: after) : m.next? k = after.head? := by
  obtain ⟨hbefore, hafter⟩ := lt_of_split h
  have hskip : before.find? (k < ·.1) = none :=
    List.find?_eq_none.mpr fun e he => by simpa using (hbefore e he).le
  rw [next?, h, List.find?_append, hskip, Option.none_or, List.find?_cons_of_neg (by simp)]
  cases after with
  | nil => rfl
  | cons e after =>
    rw [List.find?_cons_of_pos (by simpa using hafter e List.mem_cons_self)]
    rfl

/-- The entry before a key is the one that it follows in the list. -/
theorem prev?_of_split (h : m.entries = before ++ (k, v) :: after) :
    m.prev? k = before.getLast? := by
  obtain ⟨hbefore, hafter⟩ := lt_of_split h
  have hkeep : before.filter (·.1 < k) = before :=
    List.filter_eq_self.mpr fun e he => by simpa using hbefore e he
  have hdrop : after.filter (·.1 < k) = [] :=
    List.filter_eq_nil_iff.mpr fun e he => by simpa using (hafter e he).le
  rw [prev?, h, List.filter_append, List.filter_cons_of_neg (by simp), hkeep, hdrop,
    List.append_nil]

/-! ## The number of entries -/

theorem lookup_of_split (h : m.entries = before ++ (k, v) :: after) : m.lookup k = some v := by
  have hskip : before.lookup k = none := List.lookup_eq_none_iff.mpr fun e he => by
    simpa using ne_of_gt ((lt_of_split h).1 e he)
  rw [lookup, h, List.lookup_append, hskip, Option.none_or, List.lookup_cons_self]

theorem isSome_lookup : (m.lookup k).isSome = true ↔ k ∈ m.keys := by
  constructor
  · intro h
    by_contra hk
    rw [lookup_eq_none hk] at h
    cases h
  · intro hk
    obtain ⟨before, v, after, hsplit⟩ := split_of_mem_keys hk
    rw [lookup_of_split hsplit]
    rfl

theorem lookup_cons_of_ne {k k' : κ} (h : k' ≠ k) (v : ν) (es : List (κ × ν)) :
    ((k, v) :: es).lookup k' = es.lookup k' := by
  rw [List.lookup_cons, beq_false_of_ne h]

theorem lookup_insertEntry_self (k : κ) (v : ν) : ∀ es : List (κ × ν),
    (insertEntry k v es).lookup k = some v
  | [] => List.lookup_cons_self
  | e :: es => by
    unfold insertEntry
    split_ifs with hlt heq
    · exact List.lookup_cons_self
    · exact List.lookup_cons_self
    · exact (lookup_cons_of_ne heq e.2 _).trans (lookup_insertEntry_self k v es)

theorem lookup_insertEntry_of_ne {k k' : κ} (hk : k' ≠ k) (v : ν) : ∀ es : List (κ × ν),
    (insertEntry k v es).lookup k' = es.lookup k'
  | [] => lookup_cons_of_ne hk v []
  | e :: es => by
    unfold insertEntry
    split_ifs with hlt heq
    · exact lookup_cons_of_ne hk v _
    · subst heq
      exact (lookup_cons_of_ne hk v es).trans (lookup_cons_of_ne hk e.2 es).symm
    · rw [List.lookup_cons, List.lookup_cons, lookup_insertEntry_of_ne hk v es]

/-- The value that a key has after an update. -/
theorem lookup_insert (m : SortedMap κ ν) (k : κ) (v : ν) (k' : κ) :
    (m.insert k v).lookup k' = if k' = k then some v else m.lookup k' := by
  split_ifs with hk
  · subst hk
    exact lookup_insertEntry_self k' v m.entries
  · exact lookup_insertEntry_of_ne hk v m.entries

theorem length_insertEntry_of_ne {es : List (κ × ν)} (h : ∀ e ∈ es, e.1 ≠ k) :
    (insertEntry k v es).length = es.length + 1 := by
  induction es with
  | nil => rfl
  | cons e es ih =>
    unfold insertEntry
    split_ifs with hlt heq
    · rfl
    · exact absurd heq.symm (h e List.mem_cons_self)
    · rw [List.length_cons, ih fun e' he' => h e' (List.mem_cons_of_mem e he'), List.length_cons]

/-- A value for a new key is one entry more, and otherwise the number stays. -/
theorem length_insert (m : SortedMap κ ν) (k : κ) (v : ν) : (m.insert k v).entries.length =
    if (m.lookup k).isSome then m.entries.length else m.entries.length + 1 := by
  by_cases hk : k ∈ m.keys
  · rw [if_pos (isSome_lookup.mpr hk), ← length_keys, keys_insert_of_mem hk, length_keys]
  · rw [if_neg fun h => hk (isSome_lookup.mp h)]
    exact length_insertEntry_of_ne fun e he heq => hk (heq ▸ List.mem_map_of_mem he)

/-- A key that is there is one entry less when it has been removed. -/
theorem length_erase (m : SortedMap κ ν) (k : κ) : (m.erase k).entries.length =
    if (m.lookup k).isSome then m.entries.length - 1 else m.entries.length := by
  by_cases hk : k ∈ m.keys
  · obtain ⟨before, v, after, hsplit⟩ := split_of_mem_keys hk
    rw [if_pos (isSome_lookup.mpr hk), entries_erase_of_split hsplit, hsplit, List.length_append,
      List.length_append, List.length_cons]
    rfl
  · rw [if_neg fun h => hk (isSome_lookup.mp h), erase_of_notMem hk]

theorem isSome_lookup_of_min? {e : κ × ν} (h : m.min? = some e) : (m.lookup e.1).isSome = true :=
  isSome_lookup.mpr (List.mem_map_of_mem (List.mem_of_mem_head? h))

theorem isSome_lookup_of_max? {e : κ × ν} (h : m.max? = some e) : (m.lookup e.1).isSome = true :=
  isSome_lookup.mpr (List.mem_map_of_mem (List.mem_of_mem_getLast? h))

/-! ## Other keys and values -/

section Relabel

variable {κ' ν' : Type} [LinearOrder κ'] {f : κ → κ'} (hf : StrictMono f) (g : ν → ν')

/-- The same entries under other keys in the same order, with other values. -/
def relabel (m : SortedMap κ ν) : SortedMap κ' ν' :=
  ⟨m.entries.map fun e => (f e.1, g e.2), List.pairwise_map.mpr (m.sorted.imp fun h => hf h)⟩

@[simp] theorem entries_relabel : (m.relabel hf g).entries = m.entries.map fun e => (f e.1, g e.2) :=
  rfl

include hf in
theorem insertEntry_map (es : List (κ × ν)) :
    insertEntry (f k) (g v) (es.map fun e => (f e.1, g e.2)) =
      (insertEntry k v es).map fun e => (f e.1, g e.2) := by
  induction es with
  | nil => rfl
  | cons e es ih =>
    rw [List.map_cons, insertEntry, insertEntry]
    -- the new keys compare as the old ones
    simp only [hf.lt_iff_lt, hf.injective.eq_iff, ih]
    split_ifs <;> rfl

theorem insert_relabel (m : SortedMap κ ν) (k : κ) (v : ν) :
    (m.relabel hf g).insert (f k) (g v) = (m.insert k v).relabel hf g :=
  SortedMap.ext (insertEntry_map hf g m.entries)

theorem erase_relabel (m : SortedMap κ ν) (k : κ) :
    (m.relabel hf g).erase (f k) = (m.erase k).relabel hf g := by
  ext1
  show (m.entries.map _).filter _ = (m.entries.filter _).map _
  rw [List.filter_map]
  congr 1
  refine List.filter_congr fun e _ => ?_
  simp [hf.injective.eq_iff]

theorem lookup_relabel (m : SortedMap κ ν) (k : κ) :
    (m.relabel hf g).lookup (f k) = (m.lookup k).map g := by
  show (m.entries.map _).lookup (f k) = (m.entries.lookup k).map g
  induction m.entries with
  | nil => rfl
  | cons e es ih =>
    rw [List.map_cons, List.lookup_cons, List.lookup_cons, ih]
    by_cases hk : k = e.1
    · rw [hk]
      simp
    · have hk' : f k ≠ f e.1 := fun h => hk (hf.injective h)
      rw [beq_eq_false_iff_ne.mpr hk, beq_eq_false_iff_ne.mpr hk']

theorem min?_relabel (m : SortedMap κ ν) :
    (m.relabel hf g).min? = m.min?.map fun e => (f e.1, g e.2) := List.head?_map

theorem max?_relabel (m : SortedMap κ ν) :
    (m.relabel hf g).max? = m.max?.map fun e => (f e.1, g e.2) := List.getLast?_map

end Relabel

end SortedMap

end TVMCompiler.Lib
