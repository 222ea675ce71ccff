import TVMCompiler.Lib.Bits
import TVMCompiler.Lib.Refinement
import TVMCompiler.Sdk.DictArray

/-!
# Maps and sets in a dictionary

`dict_map`, `small_dict_map` and `dict_set` keep a dictionary and, beside it, the number of its
keys. The number is updated from what each operation of the machine says about the key: whether it
was there before. The elements of a `dict_map` are also reached through references, which hold the
map and a key.

## Main definitions

* `DictMap`, `DictMap.step`: `dict_map` with its element references
* `SmallDictMap.step`, `DictSet.step`: `small_dict_map` and `dict_set`
* `FiniteMap`: the operations of a finite map with ordered keys
* `Represents`: the container holds the map

## Main results

* `Represents.setAt` and its companions: each operation keeps the container in step with the map
* `dictMap_refines`: in every run the containers give the results of finite maps
-/

namespace TVMCompiler.Sdk

open Lib Dictionary

/-- `dict_map`, `small_dict_map` and `dict_set`. The members of `dict_base` are those of
`DictArray`. -/
abbrev DictMap (Stored : Type) := DictArray Stored

/-- What an operation gives back. -/
inductive Result (Key Element : Type) where
  | done
  | bool (b : Bool)
  | number (n : ℕ)
  | elem (e : Element)
  | optElem (e : Option Element)
  | optEntry (e : Option (Key × Element))

/-! ## The operations of the containers -/

namespace DictMap

variable {Element Stored : Type} (codec : ElementCodec Element Stored) (keyLen : ℕ)

def contains (m : DictMap Stored) (key : ℕ) : Bool := (m.dict.dictuget key).isSome

def erase (m : DictMap Stored) (key : ℕ) : DictMap Stored :=
  let (dict, succ) := m.dict.dictudel key
  ⟨if succ then m.size - 1 else m.size, dict⟩

/-- `set_at`, with whether the key is new. The size is increased for a new key. -/
def setAt (m : DictMap Stored) (idx : ℕ) (val : Element) :
    Except SdkError (DictMap Stored × Bool) :=
  (m.dict.dictusetget (codec.build val) idx keyLen).map fun r =>
    (⟨if r.2.isSome then m.size else m.size + 1, r.1⟩, r.2.isNone)

def getAt (m : DictMap Stored) (idx : ℕ) : Except SdkError Element :=
  match m.dict.dictuget idx with
  | some val => codec.parse val
  | none => .error .iteratorOverflow

def extract (m : DictMap Stored) (idx : ℕ) : Except SdkError (DictMap Stored × Option Element) :=
  match m.dict.dictudelget idx with
  | (dict, some val) => (codec.parse val).map fun elem => (⟨m.size - 1, dict⟩, some elem)
  | (dict, none) => .ok (⟨m.size, dict⟩, none)

/-- The constructor and the assignment from an initializer list. -/
def assign (m : DictMap Stored) (elems : List (ℕ × Element)) : Except SdkError (DictMap Stored) :=
  elems.foldlM (fun m e => (setAt codec keyLen m e.1 e.2).map Prod.fst) m.clear

/-- `dict_base::empty`: the dictionary is null. -/
def isEmpty (m : DictMap Stored) : Bool := m.dict.entries.isEmpty

/-- The operations on one map. `refSet` and `refGet` are the assignment to an element reference and
its conversion to an element. -/
inductive Op (Element : Type) where
  | contains (key : ℕ)
  | erase (key : ℕ)
  | setAt (idx : ℕ) (val : Element)
  | getAt (idx : ℕ)
  | lookup (key : ℕ)
  | extract (idx : ℕ)
  | remMin
  | remMax
  | clear
  | empty
  | size
  | assign (elems : List (ℕ × Element))
  | refSet (idx : ℕ) (val : Element)
  | refGet (idx : ℕ)

def stepOne (m : DictMap Stored) :
    Op Element → Except SdkError (DictMap Stored × Result ℕ Element)
  | .contains key => .ok (m, .bool (contains m key))
  | .erase key => .ok (erase m key, .done)
  | .setAt idx val => (setAt codec keyLen m idx val).map fun r => (r.1, .done)
  | .getAt idx => (getAt codec m idx).map fun e => (m, .elem e)
  | .lookup key => (DictArray.lookup codec m key).map fun e => (m, .optElem e)
  | .extract idx => (extract codec m idx).map fun r => (r.1, .optElem r.2)
  | .remMin => (DictArray.remMin codec m).map fun r => (r.1, .optEntry r.2)
  | .remMax => (DictArray.remMax codec m).map fun r => (r.1, .optEntry r.2)
  | .clear => .ok (m.clear, .done)
  | .empty => .ok (m, .bool (isEmpty m))
  | .size => .ok (m, .number m.size)
  | .assign elems => (assign codec keyLen m elems).map fun m => (m, .done)
  | .refSet idx val => (setAt codec keyLen m idx val).map fun r => (r.1, .done)
  | .refGet idx => (getAt codec m idx).map fun e => (m, .elem e)

/-- The value at a key, as it is stored, or `iterator_overflow`. -/
def getStored (m : DictMap Stored) (idx : ℕ) : Except SdkError Stored :=
  match m.dict.dictuget idx with
  | some val => .ok val
  | none => .error .iteratorOverflow

/-- `dictuset` or `dictusetref` through a reference: the size stays. -/
def putStored (Element : Type) (m : DictMap Stored) (idx : ℕ) (val : Stored) :
    Except SdkError (DictMap Stored × Result ℕ Element) :=
  (m.dict.dictuset val idx keyLen).map fun dict => (⟨m.size, dict⟩, .done)

/-- The operations on several maps. References belong to a map each: `refSwap` is the member
`swap` of a reference, `swap` the function on two references. -/
inductive FamilyOp (Name Element : Type) where
  | on (c : Name) (op : Op Element)
  | refSwap (c : Name) (idx : ℕ) (c' : Name) (idx' : ℕ)
  | swap (c : Name) (idx : ℕ) (c' : Name) (idx' : ℕ)

variable {Name : Type} [DecidableEq Name]

def step (s : Name → DictMap Stored) :
    FamilyOp Name Element → Except SdkError ((Name → DictMap Stored) × Result ℕ Element)
  | .on c op => onMember s c fun m => stepOne codec keyLen m op
  | .refSwap c idx c' idx' =>
    (getStored (s c) idx).bind fun val =>
      (getStored (s c') idx').bind fun val' =>
        (onMember s c fun m => putStored keyLen Element m idx val').bind fun r =>
          onMember r.1 c' fun m => putStored keyLen Element m idx' val
  | .swap c idx c' idx' =>
    (getAt codec (s c) idx).bind fun val =>
      (getAt codec (s c') idx').bind fun val' =>
        (onMember s c fun m => stepOne codec keyLen m (.refSet idx val')).bind fun r =>
          onMember r.1 c' fun m => stepOne codec keyLen m (.refSet idx' val)

end DictMap

/-- The keys of a `small_dict_map`: all encodings have the same number of bits, and the keys come in
their order. -/
structure KeyCodec (Key : Type) [LinearOrder Key] (keyLen : ℕ) where
  build : Key → List Bool
  length_build : ∀ key, (build key).length = keyLen
  strictMono : StrictMono fun key => natOfBits (build key)

/-- The number that stands for the slice of a key in the dictionary. -/
def KeyCodec.number {Key : Type} [LinearOrder Key] {keyLen : ℕ} (keys : KeyCodec Key keyLen)
    (key : Key) : ℕ := natOfBits (keys.build key)

/-- The keys of `uint_t`. -/
def KeyCodec.uint (keyLen : ℕ) : KeyCodec {n : ℕ // n < 2 ^ keyLen} keyLen where
  build key := natBits keyLen key.1
  length_build key := length_natBits keyLen key.1
  strictMono key key' h := by
    show natOfBits (natBits keyLen key.1) < natOfBits (natBits keyLen key'.1)
    rwa [natOfBits_natBits key.2, natOfBits_natBits key'.2]

namespace SmallDictMap

variable {Key Element Stored : Type} [LinearOrder Key] {keyLen : ℕ} (keys : KeyCodec Key keyLen)
  (codec : ElementCodec Element Stored)

inductive Op (Key Element : Type) where
  | contains (key : Key)
  | erase (key : Key)
  | setAt (key : Key) (val : Element)
  | insert (pair : Key × Element)
  | getAt (key : Key)
  | lookup (key : Key)
  | extract (key : Key)
  | clear
  | empty
  | size
  | assign (elems : List (Key × Element))

/-- The operations of `small_dict_map`, which address the dictionary by the slice of a key. -/
def step (m : DictMap Stored) :
    Op Key Element → Except SdkError (DictMap Stored × Result Key Element)
  | .contains key => .ok (m, .bool (DictMap.contains m (keys.number key)))
  | .erase key => .ok (DictMap.erase m (keys.number key), .done)
  | .setAt key val =>
    (DictMap.setAt codec keyLen m (keys.number key) val).map fun r => (r.1, .bool r.2)
  | .insert pair =>
    (DictMap.setAt codec keyLen m (keys.number pair.1) pair.2).map fun r => (r.1, .bool r.2)
  | .getAt key => (DictMap.getAt codec m (keys.number key)).map fun e => (m, .elem e)
  | .lookup key => (DictArray.lookup codec m (keys.number key)).map fun e => (m, .optElem e)
  | .extract key =>
    (DictMap.extract codec m (keys.number key)).map fun r => (r.1, .optElem r.2)
  | .clear => .ok (m.clear, .done)
  | .empty => .ok (m, .bool (DictMap.isEmpty m))
  | .size => .ok (m, .number m.size)
  | .assign elems =>
    (DictMap.assign codec keyLen m (elems.map fun e => (keys.number e.1, e.2))).map fun m =>
      (m, .done)

end SmallDictMap

namespace DictSet

/-- The elements of a set have an empty slice. -/
def unit : ElementCodec Unit (List Bool) where
  build _ := []
  parse _ := .ok ()
  parse_build _ := rfl

variable (keyLen : ℕ)

inductive Op where
  | contains (key : ℕ)
  | erase (key : ℕ)
  | insert (key : ℕ)
  | clear
  | empty
  | size
  | assign (keys : List ℕ)

/-- The operations of `dict_set`. The set is empty if its size is zero. -/
def step (m : DictMap (List Bool)) : Op → Except SdkError (DictMap (List Bool) × Result ℕ Unit)
  | .contains key => .ok (m, .bool (DictMap.contains m key))
  | .erase key => .ok (DictMap.erase m key, .done)
  | .insert key => (DictMap.setAt unit keyLen m key ()).map fun r => (r.1, .done)
  | .clear => .ok (m.clear, .done)
  | .empty => .ok (m, .bool (m.size == 0))
  | .size => .ok (m, .number m.size)
  | .assign keys =>
    (DictMap.assign unit keyLen m (keys.map fun key => (key, ()))).map fun m => (m, .done)

end DictSet

/-! ## Finite maps -/

namespace FiniteMap

variable {Key Element : Type} [LinearOrder Key]

def setAt (valid : Bool) (a : SortedMap Key Element) (key : Key) (val : Element) :
    Except SdkError (SortedMap Key Element × Bool) :=
  if valid then .ok (a.insert key val, (a.lookup key).isNone) else .error .rangeCheck

def getAt (a : SortedMap Key Element) (key : Key) : Except SdkError Element :=
  match a.lookup key with
  | some val => .ok val
  | none => .error .iteratorOverflow

def extract (a : SortedMap Key Element) (key : Key) : SortedMap Key Element × Option Element :=
  (a.erase key, a.lookup key)

/-- The entry, and the map without it. -/
def remove (a : SortedMap Key Element) (e : Option (Key × Element)) :
    SortedMap Key Element × Option (Key × Element) :=
  (e.elim a fun e => a.erase e.1, e)

def assign (valid : Key → Bool) (elems : List (Key × Element)) :
    Except SdkError (SortedMap Key Element) :=
  elems.foldlM (fun a e => (setAt (valid e.1) a e.1 e.2).map Prod.fst) .empty

end FiniteMap

/-- A key that fits the width of the keys. -/
def fitsKey (keyLen key : ℕ) : Bool := decide (key < 2 ^ keyLen)

namespace DictMap

variable {Element : Type} (keyLen : ℕ)

/-- The operations on a finite map. -/
def specOne (a : SortedMap ℕ Element) :
    Op Element → Except SdkError (SortedMap ℕ Element × Result ℕ Element)
  | .contains key => .ok (a, .bool (a.lookup key).isSome)
  | .erase key => .ok (a.erase key, .done)
  | .setAt idx val | .refSet idx val =>
    (FiniteMap.setAt (fitsKey keyLen idx) a idx val).map fun r => (r.1, .done)
  | .getAt idx | .refGet idx => (FiniteMap.getAt a idx).map fun e => (a, .elem e)
  | .lookup key => .ok (a, .optElem (a.lookup key))
  | .extract idx => .ok ((FiniteMap.extract a idx).1, .optElem (FiniteMap.extract a idx).2)
  | .remMin => .ok ((FiniteMap.remove a a.min?).1, .optEntry a.min?)
  | .remMax => .ok ((FiniteMap.remove a a.max?).1, .optEntry a.max?)
  | .clear => .ok (.empty, .done)
  | .empty => .ok (a, .bool a.entries.isEmpty)
  | .size => .ok (a, .number a.entries.length)
  | .assign elems => (FiniteMap.assign (fitsKey keyLen) elems).map fun a => (a, .done)

variable {Name : Type} [DecidableEq Name]

/-- The operations on several finite maps. A swap sets both elements. -/
def spec (t : Name → SortedMap ℕ Element) :
    FamilyOp Name Element → Except SdkError ((Name → SortedMap ℕ Element) × Result ℕ Element)
  | .on c op => onMember t c fun a => specOne keyLen a op
  | .refSwap c idx c' idx' | .swap c idx c' idx' =>
    (FiniteMap.getAt (t c) idx).bind fun val =>
      (FiniteMap.getAt (t c') idx').bind fun val' =>
        (onMember t c fun a => specOne keyLen a (.setAt idx val')).bind fun r =>
          onMember r.1 c' fun a => specOne keyLen a (.setAt idx' val)

end DictMap

/-- The operations on a finite map with the keys of a `small_dict_map`. -/
def SmallDictMap.spec {Key Element : Type} [LinearOrder Key] (a : SortedMap Key Element) :
    SmallDictMap.Op Key Element → Except SdkError (SortedMap Key Element × Result Key Element)
  | .contains key => .ok (a, .bool (a.lookup key).isSome)
  | .erase key => .ok (a.erase key, .done)
  | .setAt key val | .insert (key, val) => .ok (a.insert key val, .bool (a.lookup key).isNone)
  | .getAt key => (FiniteMap.getAt a key).map fun e => (a, .elem e)
  | .lookup key => .ok (a, .optElem (a.lookup key))
  | .extract key => .ok ((FiniteMap.extract a key).1, .optElem (FiniteMap.extract a key).2)
  | .clear => .ok (.empty, .done)
  | .empty => .ok (a, .bool a.entries.isEmpty)
  | .size => .ok (a, .number a.entries.length)
  | .assign elems => (FiniteMap.assign (fun _ => true) elems).map fun a => (a, .done)

/-- The operations on a finite set, as a map to the unit. -/
def DictSet.spec (keyLen : ℕ) (a : SortedMap ℕ Unit) :
    DictSet.Op → Except SdkError (SortedMap ℕ Unit × Result ℕ Unit)
  | .contains key => .ok (a, .bool (a.lookup key).isSome)
  | .erase key => .ok (a.erase key, .done)
  | .insert key => (FiniteMap.setAt (fitsKey keyLen key) a key ()).map fun r => (r.1, .done)
  | .clear => .ok (.empty, .done)
  | .empty => .ok (a, .bool a.entries.isEmpty)
  | .size => .ok (a, .number a.entries.length)
  | .assign keys =>
    (FiniteMap.assign (fitsKey keyLen) (keys.map fun key => (key, ()))).map fun a => (a, .done)


/-! ## The containers hold finite maps -/

section Represents

variable {Key Element Stored : Type} [LinearOrder Key] {number : Key → ℕ}
  (hnumber : StrictMono number) (codec : ElementCodec Element Stored)

/-- The container holds the map: its dictionary has the encoded elements under the numbers of the
keys, and its size is the number of keys. -/
structure Represents (m : DictMap Stored) (a : SortedMap Key Element) : Prop where
  dict : m.dict = a.relabel hnumber codec.build
  size : m.size = a.entries.length

theorem represents_empty : Represents hnumber codec DictArray.empty .empty := ⟨rfl, rfl⟩

variable {hnumber codec} {m : DictMap Stored} {a : SortedMap Key Element}

namespace Represents

/-- The same value read, or the same failure. -/
theorem read (h : Represents hnumber codec m a) {α : Type} {x y : Except SdkError α} (hxy : x = y)
    (f : α → Result Key Element) :
    Agree (Represents hnumber codec) (x.map fun r => (m, f r)) (y.map fun r => (a, f r)) := by
  subst hxy
  cases x with
  | ok r => exact .ok (f r) h
  | error err => exact .error err

theorem answer (h : Represents hnumber codec m a) {r r' : Result Key Element} (hr : r = r') :
    Agree (Represents hnumber codec) (.ok (m, r) : Except SdkError _) (.ok (a, r')) := by
  rw [hr]
  exact .ok r' h

theorem dictuget (h : Represents hnumber codec m a) (key : Key) :
    m.dict.dictuget (number key) = (a.lookup key).map codec.build := by
  rw [h.dict]
  exact SortedMap.lookup_relabel hnumber codec.build a key

/-- The dictionary without a key, with the size one less if the key was there. -/
theorem erase_dict (h : Represents hnumber codec m a) (key : Key) :
    Represents hnumber codec
      ⟨if (a.lookup key).isSome then m.size - 1 else m.size, m.dict.erase (number key)⟩
      (a.erase key) := by
  constructor
  · show m.dict.erase (number key) = _
    rw [h.dict, SortedMap.erase_relabel]
  · show (if (a.lookup key).isSome = true then m.size - 1 else m.size) = _
    rw [SortedMap.length_erase, h.size]

theorem contains (h : Represents hnumber codec m a) (key : Key) :
    DictMap.contains m (number key) = (a.lookup key).isSome := by
  rw [DictMap.contains, h.dictuget, Option.isSome_map]

theorem isEmpty (h : Represents hnumber codec m a) :
    DictMap.isEmpty m = a.entries.isEmpty := by
  rw [DictMap.isEmpty, h.dict, SortedMap.entries_relabel, List.isEmpty_map]

theorem erase (h : Represents hnumber codec m a) (key : Key) :
    Represents hnumber codec (DictMap.erase m (number key)) (a.erase key) := by
  have hsucc : decide (number key ∈ m.dict.keys) = (a.lookup key).isSome := by
    rw [← h.contains, DictMap.contains, Bool.eq_iff_iff, decide_eq_true_iff]
    exact SortedMap.isSome_lookup.symm
  have herase := h.erase_dict key
  rw [← hsucc] at herase
  exact herase

theorem setAt (h : Represents hnumber codec m a) (keyLen : ℕ) (key : Key) (val : Element) :
    Agree (Represents hnumber codec) (DictMap.setAt codec keyLen m (number key) val)
      (FiniteMap.setAt (fitsKey keyLen (number key)) a key val) := by
  have hold : (m.dict.lookup (number key)).isSome = (a.lookup key).isSome := h.contains key
  unfold DictMap.setAt dictusetget FiniteMap.setAt fitsKey
  by_cases hkey : number key < 2 ^ keyLen
  · rw [if_pos hkey, if_pos (decide_eq_true hkey)]
    have hnew : (m.dict.lookup (number key)).isNone = (a.lookup key).isNone := by
      rw [← Option.not_isSome, ← Option.not_isSome, hold]
    show Agree _ (Except.ok (_, (m.dict.lookup (number key)).isNone)) _
    rw [hnew]
    refine .ok _ ⟨?_, ?_⟩
    · show m.dict.insert (number key) (codec.build val) = _
      rw [h.dict, SortedMap.insert_relabel]
    · show (if (m.dict.lookup (number key)).isSome = true then m.size else m.size + 1) = _
      rw [SortedMap.length_insert, hold, h.size]
  · rw [if_neg hkey, if_neg (by simpa using hkey)]
    exact .error _

theorem getAt (h : Represents hnumber codec m a) (key : Key) :
    DictMap.getAt codec m (number key) = FiniteMap.getAt a key := by
  rw [DictMap.getAt, FiniteMap.getAt, h.dictuget]
  cases a.lookup key with
  | none => rfl
  | some val => exact codec.parse_build val

theorem lookup (h : Represents hnumber codec m a) (key : Key) :
    DictArray.lookup codec m (number key) = .ok (a.lookup key) := by
  rw [DictArray.lookup, h.dictuget]
  cases a.lookup key with
  | none => rfl
  | some val =>
    show (codec.parse (codec.build val)).map some = _
    rw [codec.parse_build]
    rfl

theorem extract (h : Represents hnumber codec m a) (key : Key) :
    Agree (Represents hnumber codec) (DictMap.extract codec m (number key))
      (.ok (FiniteMap.extract a key)) := by
  have hold : m.dict.lookup (number key) = (a.lookup key).map codec.build := h.dictuget key
  have herase := h.erase_dict key
  unfold DictMap.extract dictudelget FiniteMap.extract
  rw [hold]
  cases hval : a.lookup key with
  | none =>
    rw [hval] at herase
    exact .ok none herase
  | some val =>
    rw [hval] at herase
    show Agree _ ((codec.parse (codec.build val)).map _) _
    rw [codec.parse_build]
    exact .ok (some val) herase

theorem clear (m : DictMap Stored) : Represents hnumber codec m.clear .empty :=
  represents_empty hnumber codec

theorem assign (keyLen : ℕ) (m : DictMap Stored) (elems : List (Key × Element)) :
    Agree (Represents hnumber codec)
      ((DictMap.assign codec keyLen m (elems.map fun e => (number e.1, e.2))).map
        fun m => (m, (Result.done : Result Key Element)))
      ((FiniteMap.assign (fun key => fitsKey keyLen (number key)) elems).map
        fun a => (a, Result.done)) := by
  unfold DictMap.assign FiniteMap.assign
  have h : Represents hnumber codec m.clear (.empty : SortedMap Key Element) := clear m
  generalize m.clear = m at h ⊢
  generalize (SortedMap.empty : SortedMap Key Element) = a at h ⊢
  -- the container is in step with the map before each element
  induction elems generalizing m a with
  | nil => exact .ok Result.done h
  | cons e elems ih =>
    have hset := h.setAt keyLen e.1 e.2
    rw [List.map_cons, List.foldlM_cons, List.foldlM_cons]
    generalize DictMap.setAt codec keyLen m (number e.1) e.2 = x at hset
    generalize FiniteMap.setAt (fitsKey keyLen (number e.1)) a e.1 e.2 = y at hset
    cases hset with
    | ok isNew hnext => exact ih _ _ hnext
    | error err => exact .error err

/-- An entry that is there is removed, and its element parsed. -/
theorem remove {codec : ElementCodec Element Stored} {a : SortedMap ℕ Element}
    (h : Represents strictMono_id codec m a) {e : ℕ × Element}
    (he : (a.lookup e.1).isSome = true) :
    Agree (Represents strictMono_id codec)
      ((codec.parse (codec.build e.2)).map fun elem =>
        ((⟨m.size - 1, m.dict.erase e.1⟩ : DictMap Stored), some (e.1, elem)))
      (.ok (FiniteMap.remove a (some e))) := by
  have herase := h.erase_dict e.1
  rw [if_pos he] at herase
  rw [codec.parse_build]
  exact .ok (some e) herase

theorem remMin {codec : ElementCodec Element Stored} {a : SortedMap ℕ Element}
    (h : Represents strictMono_id codec m a) :
    Agree (Represents strictMono_id codec) (DictArray.remMin codec m)
      (.ok (FiniteMap.remove a a.min?)) := by
  have hmin : m.dict.min? = a.min?.map fun e => (id e.1, codec.build e.2) := by
    rw [h.dict, SortedMap.min?_relabel]
  unfold DictArray.remMin dicturemmin
  rw [hmin]
  cases he : a.min? with
  | none => exact .ok none h
  | some e => exact h.remove (SortedMap.isSome_lookup_of_min? he)

theorem remMax {codec : ElementCodec Element Stored} {a : SortedMap ℕ Element}
    (h : Represents strictMono_id codec m a) :
    Agree (Represents strictMono_id codec) (DictArray.remMax codec m)
      (.ok (FiniteMap.remove a a.max?)) := by
  have hmax : m.dict.max? = a.max?.map fun e => (id e.1, codec.build e.2) := by
    rw [h.dict, SortedMap.max?_relabel]
  unfold DictArray.remMax dicturemmax
  rw [hmax]
  cases he : a.max? with
  | none => exact .ok none h
  | some e => exact h.remove (SortedMap.isSome_lookup_of_max? he)

end Represents

end Represents

/-! ## Each operation -/

namespace DictMap

variable {Element Stored : Type} {codec : ElementCodec Element Stored} {m : DictMap Stored}
  {a : SortedMap ℕ Element}

theorem stepOne_agree (keyLen : ℕ) (h : Represents strictMono_id codec m a) (op : Op Element) :
    Agree (Represents strictMono_id codec) (stepOne codec keyLen m op) (specOne keyLen a op) := by
  cases op with
  | contains key => exact h.answer (congrArg Result.bool (h.contains key))
  | erase key => exact .ok Result.done (h.erase key)
  | setAt idx val | refSet idx val =>
    exact (h.setAt keyLen idx val).map (fun _ => Result.done) fun _ _ hnext => hnext
  | getAt idx | refGet idx => exact h.read (h.getAt idx) Result.elem
  | lookup key => exact h.read (h.lookup key) Result.optElem
  | extract idx => exact (h.extract idx).map Result.optElem fun _ _ hnext => hnext
  | remMin => exact h.remMin.map Result.optEntry fun _ _ hnext => hnext
  | remMax => exact h.remMax.map Result.optEntry fun _ _ hnext => hnext
  | clear => exact .ok Result.done (.clear m)
  | empty => exact h.answer (congrArg Result.bool h.isEmpty)
  | size => exact h.answer (congrArg Result.number h.size)
  | assign elems =>
    have hassign : Agree (Represents strictMono_id codec) _ _ :=
      Represents.assign keyLen m elems
    rw [show (elems.map fun e => (id e.1, e.2)) = elems from List.map_id elems] at hassign
    exact hassign

theorem getStored_eq (h : Represents strictMono_id codec m a) (idx : ℕ) :
    getStored m idx = (FiniteMap.getAt a idx).map codec.build := by
  have hget : m.dict.dictuget idx = (a.lookup idx).map codec.build := h.dictuget idx
  rw [getStored, FiniteMap.getAt, hget]
  cases a.lookup idx <;> rfl

/-- A value put at a key that is there leaves the number of keys. -/
theorem putStored_agree (keyLen : ℕ) (h : Represents strictMono_id codec m a) {idx : ℕ}
    (hidx : (a.lookup idx).isSome = true) (val : Element) :
    Agree (Represents strictMono_id codec) (putStored keyLen Element m idx (codec.build val))
      (specOne keyLen a (.setAt idx val)) := by
  have hset := stepOne_agree keyLen h (.setAt idx val)
  have hold : (m.dict.lookup idx).isSome = true := (h.contains idx).trans hidx
  suffices hput : putStored keyLen Element m idx (codec.build val) =
      stepOne codec keyLen m (.setAt idx val) by rwa [hput]
  show putStored keyLen Element m idx (codec.build val) =
    (DictMap.setAt codec keyLen m idx val).map fun r => (r.1, Result.done)
  unfold putStored DictMap.setAt dictuset dictusetget
  by_cases hkey : idx < 2 ^ keyLen
  · rw [if_pos hkey, if_pos hkey]
    show Except.ok _ = Except.ok ((⟨if (m.dict.lookup idx).isSome = true then _ else _, _⟩ :
      DictMap Stored), _)
    rw [if_pos hold]
  · rw [if_neg hkey, if_neg hkey]
    rfl

section Family

variable {Name : Type} [DecidableEq Name] {s : Name → DictMap Stored}
  {t : Name → SortedMap ℕ Element}

/-- A set at a key that is there leaves the keys of all maps. -/
theorem isSome_lookup_of_set {keyLen : ℕ} {c c' : Name} {idx idx' : ℕ} {val : Element}
    (hidx : ((t c).lookup idx).isSome = true) (hidx' : ((t c').lookup idx').isSome = true)
    {t' : Name → SortedMap ℕ Element} {r : Result ℕ Element}
    (hset : (onMember t c fun a => specOne keyLen a (.setAt idx val)) = .ok (t', r)) :
    ((t' c').lookup idx').isSome = true := by
  simp only [onMember, specOne, FiniteMap.setAt] at hset
  split at hset
  · cases hset
    by_cases hc : c' = c
    · subst hc
      show ((Function.update t c' ((t c').insert idx val) c').lookup idx').isSome = true
      rw [Function.update_self, SortedMap.isSome_lookup,
        SortedMap.keys_insert_of_mem (SortedMap.isSome_lookup.mp hidx)]
      exact SortedMap.isSome_lookup.mp hidx'
    · show ((Function.update t c ((t c).insert idx val) c').lookup idx').isSome = true
      rw [Function.update_of_ne hc]
      exact hidx'
  · cases hset

theorem on_agree (keyLen : ℕ) (h : ∀ c, Represents strictMono_id codec (s c) (t c)) (c : Name)
    (op : Op Element) :
    Agree (fun s t => ∀ c, Represents strictMono_id codec (s c) (t c))
      (onMember s c fun m => stepOne codec keyLen m op)
      (onMember t c fun a => specOne keyLen a op) :=
  Agree.onMember h c (stepOne_agree keyLen (h c) op)

theorem put_agree (keyLen : ℕ) (h : ∀ c, Represents strictMono_id codec (s c) (t c)) {c : Name}
    {idx : ℕ} (hidx : ((t c).lookup idx).isSome = true) (val : Element) :
    Agree (fun s t => ∀ c, Represents strictMono_id codec (s c) (t c))
      (onMember s c fun m => putStored keyLen Element m idx (codec.build val))
      (onMember t c fun a => specOne keyLen a (.setAt idx val)) :=
  Agree.onMember h c (putStored_agree keyLen (h c) hidx val)

theorem step_agree (keyLen : ℕ) (h : ∀ c, Represents strictMono_id codec (s c) (t c))
    (op : FamilyOp Name Element) :
    Agree (fun s t => ∀ c, Represents strictMono_id codec (s c) (t c))
      (step codec keyLen s op) (spec keyLen t op) := by
  cases op with
  | on c op => exact on_agree keyLen h c op
  | swap c idx c' idx' =>
    have hget : getAt codec (s c) idx = FiniteMap.getAt (t c) idx := (h c).getAt idx
    have hget' : getAt codec (s c') idx' = FiniteMap.getAt (t c') idx' := (h c').getAt idx'
    rw [step, spec, hget, hget']
    cases FiniteMap.getAt (t c) idx with
    | error err => exact .error err
    | ok val =>
      cases FiniteMap.getAt (t c') idx' with
      | error err => exact .error err
      | ok val' =>
        exact (on_agree keyLen h c (.refSet idx val')).bind
          fun _ _ _ hnext => on_agree keyLen hnext c' (.refSet idx' val)
  | refSwap c idx c' idx' =>
    rw [step, spec, getStored_eq (h c), getStored_eq (h c')]
    unfold FiniteMap.getAt
    cases hval : (t c).lookup idx with
    | none => exact .error _
    | some val =>
      cases hval' : (t c').lookup idx' with
      | none => exact .error _
      | some val' =>
        have hidx : ((t c).lookup idx).isSome = true := by rw [hval]; rfl
        have hidx' : ((t c').lookup idx').isSome = true := by rw [hval']; rfl
        have hfirst := put_agree keyLen h hidx val'
        -- the second key is still there after the first element is put
        exact (hfirst.and fun _ _ hset => isSome_lookup_of_set hidx hidx' hset).bind
          fun _ _ _ hnext => put_agree keyLen hnext.1 hnext.2 val

end Family

end DictMap

theorem SmallDictMap.step_agree {Key Element Stored : Type} [LinearOrder Key] {keyLen : ℕ}
    (keys : KeyCodec Key keyLen) {codec : ElementCodec Element Stored} {m : DictMap Stored}
    {a : SortedMap Key Element} (h : Represents keys.strictMono codec m a)
    (op : Op Key Element) :
    Agree (Represents keys.strictMono codec) (step keys codec m op) (spec a op) := by
  -- the number of an encoded key fits the width of the keys
  have hfits (key : Key) : fitsKey keyLen (natOfBits (keys.build key)) = true := by
    have hlt := natOfBits_lt (keys.build key)
    rw [keys.length_build] at hlt
    exact decide_eq_true hlt
  have hset (key : Key) (val : Element) :
      Agree (Represents keys.strictMono codec)
        (DictMap.setAt codec keyLen m (keys.number key) val)
        (.ok (a.insert key val, (a.lookup key).isNone)) := by
    have hset := h.setAt keyLen key val
    rw [FiniteMap.setAt, if_pos (hfits key)] at hset
    exact hset
  cases op with
  | contains key => exact h.answer (congrArg Result.bool (h.contains key))
  | erase key => exact .ok Result.done (h.erase key)
  | setAt key val => exact (hset key val).map Result.bool fun _ _ hnext => hnext
  | insert pair => exact (hset pair.1 pair.2).map Result.bool fun _ _ hnext => hnext
  | getAt key => exact h.read (h.getAt key) Result.elem
  | lookup key => exact h.read (h.lookup key) Result.optElem
  | extract key => exact (h.extract key).map Result.optElem fun _ _ hnext => hnext
  | clear => exact .ok Result.done (.clear m)
  | empty => exact h.answer (congrArg Result.bool h.isEmpty)
  | size => exact h.answer (congrArg Result.number h.size)
  | assign elems =>
    have hassign : Agree (Represents keys.strictMono codec) _ _ :=
      Represents.assign keyLen m elems
    rw [show (fun key => fitsKey keyLen (natOfBits (keys.build key))) = fun _ => true from
      funext hfits] at hassign
    exact hassign

theorem DictSet.step_agree (keyLen : ℕ) {m : DictMap (List Bool)} {a : SortedMap ℕ Unit}
    (h : Represents strictMono_id unit m a) (op : Op) :
    Agree (Represents strictMono_id unit) (step keyLen m op) (spec keyLen a op) := by
  cases op with
  | contains key => exact h.answer (congrArg Result.bool (h.contains key))
  | erase key => exact .ok Result.done (h.erase key)
  | insert key =>
    exact (h.setAt keyLen key ()).map (fun _ => Result.done) fun _ _ hnext => hnext
  | clear => exact .ok Result.done (.clear m)
  | empty =>
    have hsize : (m.size == 0) = a.entries.isEmpty := by
      rw [h.size]
      cases a.entries <;> rfl
    exact h.answer (congrArg Result.bool hsize)
  | size => exact h.answer (congrArg Result.number h.size)
  | assign keys =>
    have hassign : Agree (Represents strictMono_id unit) _ _ :=
      Represents.assign keyLen m (keys.map fun key => (key, ()))
    rw [List.map_map] at hassign
    exact hassign

/-! ## Runs -/

/-- In every run the results are those of the other machine, and the states have the property. -/
def Refines {σ τ ω α : Type} (step : σ → ω → Except SdkError (σ × α))
    (spec : τ → ω → Except SdkError (τ × α)) (s : σ) (t : τ) (P : σ → Prop) : Prop :=
  ∀ ops, results step s ops = results spec t ops ∧ ∀ s', final step s ops = .ok s' → P s'

theorem refines_of_agree {σ τ ω α : Type} {step : σ → ω → Except SdkError (σ × α)}
    {spec : τ → ω → Except SdkError (τ × α)} {R : σ → τ → Prop} {P : σ → Prop} {s : σ} {t : τ}
    (hstep : ∀ s t op, R s t → Agree R (step s op) (spec t op)) (h : R s t)
    (hP : ∀ s t, R s t → P s) : Refines step spec s t P := by
  refine fun ops => ⟨results_eq hstep ops h, fun s' hfinal => ?_⟩
  obtain ⟨t', -, hs'⟩ := final_related hstep ops h hfinal
  exact hP s' t' hs'

/-- The size is the number of keys in the dictionary. -/
def SizeIsKeys {Stored : Type} (m : DictMap Stored) : Prop := m.size = m.dict.keys.length

theorem Represents.sizeIsKeys {Key Element Stored : Type} [LinearOrder Key] {number : Key → ℕ}
    {hnumber : StrictMono number} {codec : ElementCodec Element Stored} {m : DictMap Stored}
    {a : SortedMap Key Element} (h : Represents hnumber codec m a) : SizeIsKeys m := by
  rw [SizeIsKeys, h.size, h.dict, SortedMap.length_keys, SortedMap.entries_relabel,
    List.length_map]

/-- **Dictionary maps and sets are finite maps** in every run from the empty containers, however
the elements are stored: maps with their element references, maps whose keys have an encoding of
fixed size, and sets. -/
theorem dictMap_refines {Element Stored : Type} (codec : ElementCodec Element Stored)
    (keyLen : ℕ) :
    (∀ (Name : Type) [DecidableEq Name],
      Refines (fun s (op : DictMap.FamilyOp Name Element) => DictMap.step codec keyLen s op)
        (DictMap.spec keyLen) (fun _ => DictArray.empty) (fun _ => .empty)
        (fun s => ∀ c, SizeIsKeys (s c))) ∧
    (∀ (Key : Type) [LinearOrder Key] (keys : KeyCodec Key keyLen),
      Refines (SmallDictMap.step keys codec) SmallDictMap.spec DictArray.empty .empty
        SizeIsKeys) ∧
    Refines (DictSet.step keyLen) (DictSet.spec keyLen) DictArray.empty .empty SizeIsKeys := by
  refine ⟨fun Name _ => ?_, fun Key _ keys => ?_, ?_⟩
  · exact refines_of_agree (fun s t op h => DictMap.step_agree keyLen h op)
      (fun _ => represents_empty strictMono_id codec) fun s t h c => (h c).sizeIsKeys
  · exact refines_of_agree (fun m a op h => SmallDictMap.step_agree keys h op)
      (represents_empty keys.strictMono codec) fun m a h => h.sizeIsKeys
  · exact refines_of_agree (fun m a op h => DictSet.step_agree keyLen h op)
      (represents_empty strictMono_id DictSet.unit) fun m a h => h.sizeIsKeys

end TVMCompiler.Sdk
