import Mathlib.Data.List.GetD
import GnuRadio.Grc.Python
import GnuRadio.Misc.OrderedMap
import GnuRadio.Misc.Trace

/-!
# The ordered dictionary of the flow graph editor

An `odict` has a list of its keys and a `dict` of its values, both objects of their own. What its
calls do is compared with what they do to a map with an order.
-/

namespace GnuRadio

/-- An `odict`: its `_keys` and its `_data`, as places among the lists and the dictionaries. -/
structure Odict where
  keys : ℕ
  data : ℕ
  deriving DecidableEq, Repr

/-- All objects of a program that works with odicts. -/
structure OdictStore (K V : Type) where
  lists : List (List K)
  dicts : List (PyDict K V)
  objects : List Odict

/-- The calls of an `odict`. -/
inductive OdictCall (K V : Type) where
  | getItem (key : K)
  | setItem (key : K) (value : V)
  | delItem (key : K)
  | keys
  | copy
  | insertAfter (posKey : Option K) (key : K) (val : V)
  | insertBefore (posKey : Option K) (key : K) (val : V)

/-- What a call returns or raises. -/
inductive OdictResult (K V : Type) where
  | returned
  | value (v : V)
  | keys (l : List K)
  | raised (e : PyError)
  deriving DecidableEq, Repr

/-- `condition and first or second` for numbers, of which 0 is false. -/
def pyAndOr (condition : Bool) (first second : Except PyError ℕ) : Except PyError ℕ :=
  if condition then
    match first with
    | .error e => .error e
    | .ok i => if i ≠ 0 then .ok i else second
  else second

variable {K V : Type} [DecidableEq K]

/-- `keys.index(pos_key)`, where `None` is no key. -/
def pyIndexOf (keys : List K) (posKey : Option K) : Except PyError ℕ :=
  match posKey with
  | none => .error .valueError
  | some posKey => pyIndex keys posKey

namespace OdictStore

def keysOf (h : OdictStore K V) (o : Odict) : List K := h.lists.getD o.keys []

def dataOf (h : OdictStore K V) (o : Odict) : PyDict K V := h.dicts.getD o.data ∅

def setKeys (h : OdictStore K V) (o : Odict) (keys : List K) : OdictStore K V :=
  { h with lists := h.lists.set o.keys keys }

def setData (h : OdictStore K V) (o : Odict) (data : PyDict K V) : OdictStore K V :=
  { h with dicts := h.dicts.set o.data data }

/-- `__init__` (`odict.py:24-26`), with a list and a dictionary that are new. -/
def init (h : OdictStore K V) (d : PyDict K V) : OdictStore K V × Odict :=
  ({ h with lists := h.lists ++ [d.keys], dicts := h.dicts ++ [d] },
    ⟨h.lists.length, h.dicts.length⟩)

/-- `__setitem__` (`odict.py:28-31`). -/
def setItem (h : OdictStore K V) (o : Odict) (key : K) (value : V) : OdictStore K V :=
  let h := if key ∈ h.dataOf o then h else h.setKeys o (h.keysOf o ++ [key])
  h.setData o ((h.dataOf o).insert key value)

/-- `__delitem__` (`odict.py:36-38`). -/
def delItem (h : OdictStore K V) (o : Odict) (key : K) : OdictResult K V × OdictStore K V :=
  match pyDelItem (h.dataOf o) key with
  | .error e => (.raised e, h)
  | .ok data =>
      let h := h.setData o data
      match pyRemove (h.keysOf o) key with
      | .error e => (.raised e, h)
      | .ok keys => (.returned, h.setKeys o keys)

/-- `copy` (`odict.py:43-47`). -/
def copy (h : OdictStore K V) (o : Odict) : OdictStore K V :=
  let (h, copyDict) := h.init ∅
  let copyDict := { copyDict with data := h.dicts.length }
  let h := { h with dicts := h.dicts ++ [h.dataOf o] }
  let copyDict := { copyDict with keys := h.lists.length }
  let h := { h with lists := h.lists ++ [h.keysOf o] }
  { h with objects := h.objects ++ [copyDict] }

/-- What the two insertions do with the index (`odict.py:58-60`, `odict.py:71-73`). -/
def insertAt (h : OdictStore K V) (o : Odict) (index : ℕ) (key : K) (val : V) :
    OdictResult K V × OdictStore K V :=
  if key ∈ h.keysOf o then (.raised .cannotInsert, h)
  else
    let h := h.setKeys o (pyInsert (h.keysOf o) index key)
    (.returned, h.setData o ((h.dataOf o).insert key val))

/-- `insert_after` (`odict.py:49-60`). -/
def insertAfter (h : OdictStore K V) (o : Odict) (posKey : Option K) (key : K) (val : V) :
    OdictResult K V × OdictStore K V :=
  match pyAndOr posKey.isNone (.ok (h.keysOf o).length) (pyIndexOf (h.keysOf o) posKey) with
  | .error e => (.raised e, h)
  | .ok index => h.insertAt o (index + 1) key val

/-- `insert_before` (`odict.py:62-73`). -/
def insertBefore (h : OdictStore K V) (o : Odict) (posKey : Option K) (key : K) (val : V) :
    OdictResult K V × OdictStore K V :=
  match pyAndOr posKey.isSome (pyIndexOf (h.keysOf o) posKey) (.ok 0) with
  | .error e => (.raised e, h)
  | .ok index => h.insertAt o index key val

/-- A call, with what becomes of the objects. -/
def call (h : OdictStore K V) (o : Odict) : OdictCall K V → OdictResult K V × OdictStore K V
  | .getItem key =>
      match pyGetItem (h.dataOf o) key with
      | .error e => (.raised e, h)
      | .ok value => (.value value, h)
  | .setItem key value => (.returned, h.setItem o key value)
  | .delItem key => h.delItem o key
  | .keys => (.keys (h.keysOf o), h)
  | .copy => (.returned, h.copy o)
  | .insertAfter posKey key val => h.insertAfter o posKey key val
  | .insertBefore posKey key val => h.insertBefore o posKey key val

end OdictStore

/-! ## Maps with an order -/

namespace OrderedMap

/-- The last value set. -/
def find (m : OrderedMap K V) (key : K) : OdictResult K V :=
  match m.entries.find? (·.1 = key) with
  | none => .raised .keyError
  | some entry => .value entry.2

/-- A key that is new comes last, and one that is not keeps its place. -/
def set (m : OrderedMap K V) (key : K) (value : V) : OrderedMap K V :=
  if there : key ∈ m.keys then m.replace key value else m.append key value there

/-- A new key next to another one, or at an end when none is named. -/
def insert (m : OrderedMap K V) (behind : Bool) (posKey : Option K) (key : K) (val : V) :
    OdictResult K V × OrderedMap K V :=
  if there : key ∈ m.keys then
    match posKey with
    | some posKey => (.raised (if posKey ∈ m.keys then .cannotInsert else .valueError), m)
    | none => (.raised .cannotInsert, m)
  else
    match posKey with
    | some posKey =>
        if posKey ∈ m.keys then (.returned, m.insertBeside behind posKey key val there)
        else (.raised .valueError, m)
    | none =>
        (.returned, if behind then m.append key val there else m.prepend key val there)

/-- What a call is for. -/
def call (m : OrderedMap K V) : OdictCall K V → OdictResult K V × OrderedMap K V
  | .getItem key => (m.find key, m)
  | .setItem key value => (.returned, m.set key value)
  | .delItem key =>
      if key ∈ m.keys then (.returned, m.delete key) else (.raised .keyError, m)
  | .keys => (.keys m.keys, m)
  | .copy => (.returned, m)
  | .insertAfter posKey key val => m.insert true posKey key val
  | .insertBefore posKey key val => m.insert false posKey key val

end OrderedMap

end GnuRadio

/-!
## Programs with odicts

Whatever calls a program makes to its odicts, they return what maps with an order return, until it
asks for an insertion at the end of an empty one: there `insert_after` looks for the key `None`.
-/

namespace GnuRadio

variable {K V : Type}

namespace OdictStore

/-- Another list of keys and other values for an object. -/
def change (h : OdictStore K V) (o : Odict) (keys : List K) (data : PyDict K V) : OdictStore K V :=
  (h.setKeys o keys).setData o data

/-- The places of an object are there. -/
def Holds (h : OdictStore K V) (o : Odict) : Prop :=
  o.keys < h.lists.length ∧ o.data < h.dicts.length

variable {h : OdictStore K V} {o : Odict}

theorem change_self (holds : h.Holds o) : h.change o (h.keysOf o) (h.dataOf o) = h := by
  have keys : h.lists.set o.keys (h.keysOf o) = h.lists := by
    rw [keysOf, List.getD_eq_getElem _ _ holds.1, List.set_getElem_self]
  have data : h.dicts.set o.data (h.dataOf o) = h.dicts := by
    rw [dataOf, List.getD_eq_getElem _ _ holds.2, List.set_getElem_self]
  rw [change, setKeys, setData]
  dsimp only
  rw [keys, data]

theorem keysOf_change {p : Odict} (holds : h.Holds o) (keys : List K) (data : PyDict K V) :
    (h.change o keys data).keysOf p = if p.keys = o.keys then keys else h.keysOf p := by
  change (h.lists.set o.keys keys).getD p.keys [] = _
  by_cases same : p.keys = o.keys
  · rw [if_pos same, same, List.getD_eq_getElem?_getD, List.getElem?_set_self holds.1]
    rfl
  · rw [if_neg same, List.getD_eq_getElem?_getD, List.getElem?_set_ne (Ne.symm same),
      ← List.getD_eq_getElem?_getD]
    rfl

theorem dataOf_change {p : Odict} (holds : h.Holds o) (keys : List K) (data : PyDict K V) :
    (h.change o keys data).dataOf p = if p.data = o.data then data else h.dataOf p := by
  change (h.dicts.set o.data data).getD p.data ∅ = _
  by_cases same : p.data = o.data
  · rw [if_pos same, same, List.getD_eq_getElem?_getD, List.getElem?_set_self holds.2]
    rfl
  · rw [if_neg same, List.getD_eq_getElem?_getD, List.getElem?_set_ne (Ne.symm same),
      ← List.getD_eq_getElem?_getD]
    rfl

theorem copy_eq (holds : h.Holds o) :
    h.copy o =
      { lists := h.lists ++ [[], h.keysOf o]
        dicts := h.dicts ++ [∅, h.dataOf o]
        objects := h.objects ++ [⟨h.lists.length + 1, h.dicts.length + 1⟩] } := by
  have keys : (h.lists ++ [[]]).getD o.keys [] = h.lists.getD o.keys [] :=
    List.getD_append _ _ _ _ holds.1
  have data : (h.dicts ++ [∅]).getD o.data ∅ = h.dicts.getD o.data ∅ :=
    List.getD_append _ _ _ _ holds.2
  simp only [copy, init, keysOf, dataOf, AList.keys_empty, List.length_append, List.length_cons,
    List.length_nil, List.append_assoc, keys, data]
  rfl

end OdictStore

variable [DecidableEq K]

/-- A list of keys and a dictionary that stand for a map with an order. -/
structure StandsFor (keys : List K) (data : PyDict K V) (m : OrderedMap K V) : Prop where
  keys : keys = m.keys
  values : ∀ k v, data.lookup k = some v ↔ m.Maps k v

namespace StandsFor

variable {keys : List K} {data : PyDict K V} {m : OrderedMap K V}

theorem mem_iff (shows : StandsFor keys data m) (k : K) : k ∈ data ↔ k ∈ m.keys := by
  rw [← AList.lookup_isSome, Option.isSome_iff_exists]
  constructor
  · rintro ⟨v, known⟩
    exact ((shows.values k v).mp known).mem
  · intro there
    exact (OrderedMap.exists_maps there).imp fun v maps => (shows.values k v).mpr maps

theorem extend (shows : StandsFor keys data m) {entries : List (K × V)} {k : K} {v : V}
    (new : k ∉ m.keys) (perm : entries.Perm ((k, v) :: m.entries)) {keys' : List K}
    (placed : keys' = (m.extend entries k v new perm).keys) :
    StandsFor keys' (data.insert k v) (m.extend entries k v new perm) := by
  refine ⟨placed, fun k' v' => ?_⟩
  rw [OrderedMap.maps_extend]
  by_cases same : k' = k
  · subst same
    rw [AList.lookup_insert, Option.some.injEq]
    constructor
    · rintro rfl
      exact Or.inl ⟨rfl, rfl⟩
    · rintro (⟨-, rfl⟩ | maps)
      · rfl
      · exact absurd maps.mem new
  · rw [AList.lookup_insert_ne same, shows.values]
    constructor
    · exact Or.inr
    · rintro (⟨here, -⟩ | maps)
      · exact absurd here same
      · exact maps

theorem replace (shows : StandsFor keys data m) {k : K} (there : k ∈ m.keys) (v : V) :
    StandsFor keys (data.insert k v) (m.replace k v) := by
  refine ⟨shows.keys.trans (m.keys_replace k v).symm, fun k' v' => ?_⟩
  rw [OrderedMap.maps_replace there]
  by_cases same : k' = k
  · subst same
    rw [AList.lookup_insert, if_pos rfl, Option.some.injEq, eq_comm]
  · rw [AList.lookup_insert_ne same, if_neg same, shows.values]

theorem delete (shows : StandsFor keys data m) (k : K) :
    StandsFor (keys.erase k) (data.erase k) (m.delete k) := by
  refine ⟨by rw [shows.keys, m.keys_delete], fun k' v' => ?_⟩
  rw [OrderedMap.maps_delete]
  by_cases same : k' = k
  · subst same
    rw [AList.lookup_erase]
    simp
  · rw [AList.lookup_erase_ne same, shows.values]
    exact (and_iff_right same).symm

end StandsFor

/-! ## One call -/

namespace OdictStore

variable {h : OdictStore K V} {o : Odict} {m : OrderedMap K V}

/-- An object does a call as the map does, and only its own list and dictionary change. -/
def Does (h : OdictStore K V) (o : Odict) (result : OdictResult K V × OdictStore K V)
    (expected : OdictResult K V × OrderedMap K V) : Prop :=
  ∃ keys data, result = (expected.1, h.change o keys data) ∧ StandsFor keys data expected.2

theorem pyIndexOf_some (keys : List K) (p : K) :
    pyIndexOf keys (some p) = if p ∈ keys then .ok (keys.idxOf p) else .error .valueError := rfl

variable (holds : h.Holds o) (shows : StandsFor (h.keysOf o) (h.dataOf o) m)
include holds shows

theorem Does.same (r : OdictResult K V) : h.Does o (r, h) (r, m) :=
  ⟨h.keysOf o, h.dataOf o, by rw [change_self holds], shows⟩

theorem getItem_does (key : K) :
    h.Does o (h.call o (.getItem key)) (m.call (.getItem key)) := by
  have found : h.call o (.getItem key) = (m.find key, h) := by
    rw [call, pyGetItem, OrderedMap.find]
    cases known : (h.dataOf o).lookup key with
    | none =>
      have absent : m.entries.find? (·.1 = key) = none := by
        refine List.find?_eq_none.mpr fun entry member same => ?_
        obtain rfl := of_decide_eq_true same
        have there := (shows.values entry.1 entry.2).mpr member
        rw [known] at there
        cases there
      rw [absent]
    | some value =>
      have maps := (shows.values key value).mp known
      have there : (m.entries.find? (·.1 = key)).isSome :=
        List.find?_isSome.mpr ⟨(key, value), maps, decide_eq_true rfl⟩
      obtain ⟨entry, first⟩ := Option.isSome_iff_exists.mp there
      have same : entry.1 = key := by simpa using List.find?_some first
      have here : m.Maps key entry.2 := by
        rw [← same]
        exact List.mem_of_find?_eq_some first
      rw [first, maps.unique here]
  rw [found]
  exact Does.same holds shows _

theorem setItem_does (key : K) (value : V) :
    h.Does o (h.call o (.setItem key value)) (m.call (.setItem key value)) := by
  rw [call, setItem, OrderedMap.call, OrderedMap.set]
  by_cases there : key ∈ m.keys
  · have inside : key ∈ h.dataOf o := (shows.mem_iff key).mpr there
    refine ⟨h.keysOf o, (h.dataOf o).insert key value, ?_, ?_⟩
    · rw [if_pos inside, change]
      have keys : h.setKeys o (h.keysOf o) = h := by
        rw [setKeys, keysOf, List.getD_eq_getElem _ _ holds.1, List.set_getElem_self]
      rw [keys]
    · rw [dif_pos there]
      exact shows.replace there value
  · have outside : key ∉ h.dataOf o := fun inside => there ((shows.mem_iff key).mp inside)
    refine ⟨h.keysOf o ++ [key], (h.dataOf o).insert key value, ?_, ?_⟩
    · rw [if_neg outside]
      rfl
    · rw [dif_neg there]
      refine shows.extend there (List.perm_append_singleton (key, value) m.entries) ?_
      rw [shows.keys, OrderedMap.keys, OrderedMap.keys, OrderedMap.extend, List.map_append]
      rfl

theorem delItem_does (key : K) :
    h.Does o (h.call o (.delItem key)) (m.call (.delItem key)) := by
  rw [call, delItem, pyDelItem, OrderedMap.call]
  by_cases there : key ∈ m.keys
  · have inside : key ∈ h.dataOf o := (shows.mem_iff key).mpr there
    have listed : key ∈ h.keysOf o := by rwa [shows.keys]
    refine ⟨(h.keysOf o).erase key, (h.dataOf o).erase key, ?_, ?_⟩
    · rw [if_pos inside, if_pos there]
      dsimp only
      rw [show (h.setData o _).keysOf o = h.keysOf o from rfl, pyRemove, if_pos listed]
      rfl
    · rw [if_pos there]
      exact shows.delete key
  · have outside : key ∉ h.dataOf o := fun inside => there ((shows.mem_iff key).mp inside)
    rw [if_neg outside, if_neg there]
    exact Does.same holds shows _

omit holds in
theorem insertAt_does (index : ℕ) (key : K) (val : V) {entries : List (K × V)}
    (new : key ∉ m.keys) (perm : entries.Perm ((key, val) :: m.entries))
    (placed : pyInsert m.keys index key = (m.extend entries key val new perm).keys) :
    h.Does o (h.insertAt o index key val) (.returned, m.extend entries key val new perm) := by
  have absent : key ∉ h.keysOf o := by rwa [shows.keys]
  refine ⟨pyInsert (h.keysOf o) index key, (h.dataOf o).insert key val, ?_, ?_⟩
  · rw [insertAt, if_neg absent]
    rfl
  · refine shows.extend new perm ?_
    rw [shows.keys, placed]

omit holds in
theorem insertAt_present {index : ℕ} {key : K}
    {val : V} (there : key ∈ m.keys) :
    h.insertAt o index key val = (.raised .cannotInsert, h) := by
  rw [insertAt, if_pos (by rwa [shows.keys])]

theorem insertAt_beside (behind : Bool) {p : K} (beside : p ∈ m.keys) (key : K) (val : V) :
    h.Does o (h.insertAt o (m.keys.idxOf p + behind.toNat) key val)
      (m.insert behind (some p) key val) := by
  rw [OrderedMap.insert]
  by_cases there : key ∈ m.keys
  · rw [dif_pos there, insertAt_present shows there, if_pos beside]
    exact Does.same holds shows _
  · rw [dif_neg there, if_pos beside]
    exact insertAt_does shows _ key val there _
      (OrderedMap.keys_insertBeside behind there beside).symm

theorem does_missing (behind : Bool) {p : K} (missing : p ∉ m.keys) (key : K) (val : V) :
    h.Does o (.raised .valueError, h) (m.insert behind (some p) key val) := by
  have raised : m.insert behind (some p) key val = (.raised .valueError, m) := by
    rw [OrderedMap.insert]
    split
    · rfl
    · rfl
  rw [raised]
  exact Does.same holds shows _

theorem insertBefore_does (posKey : Option K) (key : K) (val : V) :
    h.Does o (h.call o (.insertBefore posKey key val)) (m.call (.insertBefore posKey key val)) := by
  rw [call, OrderedMap.call, insertBefore]
  cases posKey with
  | none =>
    change h.Does o (h.insertAt o 0 key val) _
    rw [OrderedMap.insert]
    by_cases there : key ∈ m.keys
    · rw [dif_pos there, insertAt_present shows there]
      exact Does.same holds shows _
    · rw [dif_neg there]
      exact insertAt_does shows 0 key val there (List.Perm.refl _) rfl
  | some p =>
    rw [pyIndexOf_some, shows.keys]
    by_cases beside : p ∈ m.keys
    · have index : pyAndOr true (.ok (m.keys.idxOf p)) (.ok 0) = .ok (m.keys.idxOf p) := by
        simp only [pyAndOr, if_true]
        split
        · rfl
        · rename_i first
          rw [not_not.mp first]
      rw [if_pos beside, Option.isSome_some, index]
      exact insertAt_beside holds shows false beside key val
    · rw [if_neg beside]
      exact does_missing holds shows false beside key val

theorem insertAfter_does {posKey : Option K} (placed : posKey = none → m.keys ≠ []) (key : K)
    (val : V) :
    h.Does o (h.call o (.insertAfter posKey key val)) (m.call (.insertAfter posKey key val)) := by
  rw [call, OrderedMap.call, insertAfter]
  cases posKey with
  | none =>
    have some : m.keys.length ≠ 0 := fun none =>
      placed rfl (List.eq_nil_of_length_eq_zero none)
    have index : pyAndOr true (.ok m.keys.length) (pyIndexOf m.keys none) =
        .ok m.keys.length := by
      simp only [pyAndOr, if_true]
      exact if_pos some
    rw [shows.keys, Option.isNone_none, index]
    change h.Does o (h.insertAt o (m.keys.length + 1) key val) _
    rw [OrderedMap.insert]
    by_cases there : key ∈ m.keys
    · rw [dif_pos there, insertAt_present shows there]
      exact Does.same holds shows _
    · rw [dif_neg there, if_pos rfl]
      refine insertAt_does shows _ key val there (List.perm_append_singleton (key, val) _) ?_
      rw [pyInsert, List.take_of_length_le (Nat.le_succ _), List.drop_of_length_le (Nat.le_succ _),
        OrderedMap.keys, OrderedMap.keys, OrderedMap.extend, List.map_append]
      rfl
  | some p =>
    rw [pyIndexOf_some, shows.keys]
    by_cases beside : p ∈ m.keys
    · rw [if_pos beside]
      exact insertAt_beside holds shows true beside key val
    · rw [if_neg beside]
      exact does_missing holds shows true beside key val

omit holds shows in
theorem insertAfter_empty (empty : h.keysOf o = []) (key : K) (val : V) :
    h.call o (.insertAfter none key val) = (.raised .valueError, h) := by
  rw [call, insertAfter, empty]
  rfl

end OdictStore

/-! ## Runs -/

/-- The call is a copy. -/
def OdictCall.isCopy : OdictCall K V → Bool
  | copy => true
  | _ => false

/-- The insertion at the end is not asked of an empty map. -/
def OdictCall.Placed (keys : List K) : OdictCall K V → Prop
  | insertAfter none _ _ => keys ≠ []
  | _ => True

variable {h : OdictStore K V} {maps : List (OrderedMap K V)}

theorem OdictStore.call_does {o : Odict} {m : OrderedMap K V} (holds : h.Holds o)
    (shows : StandsFor (h.keysOf o) (h.dataOf o) m) {c : OdictCall K V} (single : c.isCopy = false)
    (placed : c.Placed (h.keysOf o)) : h.Does o (h.call o c) (m.call c) := by
  cases c with
  | getItem key => exact getItem_does holds shows key
  | setItem key value => exact setItem_does holds shows key value
  | delItem key => exact delItem_does holds shows key
  | keys =>
    change h.Does o (.keys (h.keysOf o), h) (.keys m.keys, m)
    rw [shows.keys]
    exact Does.same holds shows _
  | copy => cases single
  | insertBefore posKey key val => exact insertBefore_does holds shows posKey key val
  | insertAfter posKey key val =>
    refine insertAfter_does holds shows (fun none => ?_) key val
    subst none
    rw [← shows.keys]
    exact placed

namespace OdictStore

/-- An action names an object and a call of it. There is no result where there is no object. -/
def step (h : OdictStore K V) (action : ℕ × OdictCall K V) : Option (OdictStore K V) :=
  h.objects[action.1]?.map fun o => (h.call o action.2).2

/-- What the call returns or raises. -/
def results (h : OdictStore K V) (action : ℕ × OdictCall K V) : List (OdictResult K V) :=
  (h.objects[action.1]?.map fun o => (h.call o action.2).1).toList

/-- A program begins with an `odict` of a dictionary. -/
def start (d : PyDict K V) : OdictStore K V :=
  let (h, o) := init ⟨[], [], []⟩ d
  { h with objects := [o] }

/-- No insertion at the end is asked of an empty map. -/
def Placed (h : OdictStore K V) (action : ℕ × OdictCall K V) : Prop :=
  ∀ o, h.objects[action.1]? = some o → action.2.Placed (h.keysOf o)

end OdictStore

namespace OrderedMap

/-- The same for maps. -/
def step (maps : List (OrderedMap K V)) (action : ℕ × OdictCall K V) :
    Option (List (OrderedMap K V)) :=
  maps[action.1]?.map fun m =>
    maps.set action.1 (m.call action.2).2 ++ if action.2.isCopy then [m] else []

/-- What the call gives on the ordered map. -/
def results (maps : List (OrderedMap K V)) (action : ℕ × OdictCall K V) :
    List (OdictResult K V) :=
  (maps[action.1]?.map fun m => (m.call action.2).1).toList

def start (d : PyDict K V) : List (OrderedMap K V) :=
  [{ entries := d.entries.map fun e => (e.1, e.2)
     nodup := by
       rw [List.map_map]
       exact d.nodupKeys }]

end OrderedMap

/-- Every object stands for its map, and no two share a list or a dictionary. -/
structure Agree (h : OdictStore K V) (maps : List (OrderedMap K V)) : Prop where
  count : maps.length = h.objects.length
  holds : ∀ o ∈ h.objects, h.Holds o
  apart : ∀ (i j : ℕ) (o p : Odict), i ≠ j → h.objects[i]? = some o → h.objects[j]? = some p →
    o.keys ≠ p.keys ∧ o.data ≠ p.data
  shows : ∀ (i : ℕ) (o : Odict) (m : OrderedMap K V), h.objects[i]? = some o →
    maps[i]? = some m → StandsFor (h.keysOf o) (h.dataOf o) m

namespace Agree

variable {h : OdictStore K V} {maps : List (OrderedMap K V)}

theorem start (d : PyDict K V) : Agree (OdictStore.start d) (OrderedMap.start d) := by
  have single : ∀ (i : ℕ) (o : Odict), (OdictStore.start d).objects[i]? = some o →
      i = 0 ∧ o = ⟨0, 0⟩ := by
    intro i o there
    cases i with
    | zero => exact ⟨rfl, (Option.some.inj there).symm⟩
    | succ i => cases there
  constructor
  · rfl
  · intro o member
    obtain rfl := List.mem_singleton.mp member
    exact ⟨Nat.zero_lt_one, Nat.zero_lt_one⟩
  · intro i j o p apart first second
    exact absurd ((single i o first).1.trans (single j p second).1.symm) apart
  · intro i o m first second
    obtain ⟨rfl, rfl⟩ := single i o first
    obtain rfl := Option.some.inj second
    refine ⟨?_, fun k v => ?_⟩
    · change d.keys = (d.entries.map fun e => (e.1, e.2)).map Prod.fst
      rw [List.map_map]
      rfl
    · change d.lookup k = some v ↔ (k, v) ∈ d.entries.map fun e => (e.1, e.2)
      rw [List.mem_map, ← Option.mem_def, AList.mem_lookup_iff]
      constructor
      · exact fun member => ⟨_, member, rfl⟩
      · rintro ⟨⟨k', v'⟩, member, same⟩
        obtain ⟨rfl, rfl⟩ := Prod.mk.inj same
        exact member

theorem change (agree : Agree h maps) {i : ℕ} {o : Odict} {m : OrderedMap K V}
    (object : h.objects[i]? = some o) (map : maps[i]? = some m) {keys : List K}
    {data : PyDict K V} {m' : OrderedMap K V} (shows : StandsFor keys data m') :
    Agree (h.change o keys data) (maps.set i m') := by
  have holds := agree.holds o (List.mem_of_getElem? object)
  constructor
  · rw [List.length_set]
    exact agree.count
  · intro p member
    have inside := agree.holds p member
    refine ⟨?_, ?_⟩
    · change p.keys < (h.lists.set o.keys keys).length
      rw [List.length_set]
      exact inside.1
    · change p.data < (h.dicts.set o.data data).length
      rw [List.length_set]
      exact inside.2
  · exact agree.apart
  · intro j p m'' first second
    rw [OdictStore.keysOf_change holds, OdictStore.dataOf_change holds]
    by_cases same : j = i
    · subst same
      obtain rfl := Option.some.inj (object.symm.trans first)
      rw [List.getElem?_set_self (List.getElem?_eq_some_iff.mp map).1] at second
      obtain rfl := Option.some.inj second
      rw [if_pos rfl, if_pos rfl]
      exact shows
    · have other := agree.apart j i p o same first object
      rw [if_neg other.1, if_neg other.2]
      rw [List.getElem?_set_ne (Ne.symm same)] at second
      exact agree.shows j p m'' first second

theorem copy (agree : Agree h maps) {i : ℕ} {o : Odict} {m : OrderedMap K V}
    (object : h.objects[i]? = some o) (map : maps[i]? = some m) :
    Agree (h.copy o) (maps ++ [m]) := by
  have holds := agree.holds o (List.mem_of_getElem? object)
  have shows := agree.shows i o m object map
  rw [OdictStore.copy_eq holds]
  have split : ∀ (j : ℕ) (p : Odict),
      (h.objects ++ [⟨h.lists.length + 1, h.dicts.length + 1⟩])[j]? = some p →
      (h.objects[j]? = some p ∧ h.Holds p) ∨
        (j = h.objects.length ∧ p = ⟨h.lists.length + 1, h.dicts.length + 1⟩) := by
    intro j p there
    rcases lt_or_ge j h.objects.length with before | after
    · rw [List.getElem?_append_left before] at there
      exact Or.inl ⟨there, agree.holds p (List.mem_of_getElem? there)⟩
    · rw [List.getElem?_append_right after] at there
      obtain ⟨last, same⟩ := List.getElem?_eq_some_iff.mp there
      rw [List.length_singleton] at last
      have place : j = h.objects.length := by omega
      subst place
      refine Or.inr ⟨rfl, ?_⟩
      simpa using same.symm
  constructor
  · simp [agree.count]
  · intro p member
    obtain ⟨j, inside, rfl⟩ := List.mem_iff_getElem.mp member
    rcases split j _ (List.getElem?_eq_getElem inside) with ⟨-, keys, data⟩ | ⟨-, same⟩
    · refine ⟨?_, ?_⟩
      · rw [List.length_append]
        exact Nat.lt_add_right 2 keys
      · rw [List.length_append]
        exact Nat.lt_add_right 2 data
    · refine ⟨?_, ?_⟩
      · rw [same, List.length_append]
        exact Nat.lt_succ_self _
      · rw [same, List.length_append]
        exact Nat.lt_succ_self _
  · intro j k p q apart first second
    rcases split j p first with ⟨old, inside⟩ | ⟨rfl, rfl⟩
    · rcases split k q second with ⟨old', -⟩ | ⟨rfl, rfl⟩
      · exact agree.apart j k p q apart old old'
      · exact ⟨Nat.ne_of_lt (Nat.lt_succ_of_lt inside.1), Nat.ne_of_lt (Nat.lt_succ_of_lt inside.2)⟩
    · rcases split k q second with ⟨-, inside⟩ | ⟨rfl, rfl⟩
      · exact ⟨Nat.ne_of_gt (Nat.lt_succ_of_lt inside.1), Nat.ne_of_gt (Nat.lt_succ_of_lt inside.2)⟩
      · exact absurd rfl apart
  · intro j p m' first second
    change StandsFor ((h.lists ++ [[], h.keysOf o]).getD p.keys [])
      ((h.dicts ++ [∅, h.dataOf o]).getD p.data ∅) m'
    rcases split j p first with ⟨old, keys, data⟩ | ⟨rfl, rfl⟩
    · have before : j < maps.length := by
        rw [agree.count]
        exact (List.getElem?_eq_some_iff.mp old).1
      rw [List.getElem?_append_left before] at second
      rw [List.getD_append _ _ _ _ keys, List.getD_append _ _ _ _ data]
      exact agree.shows j p m' old second
    · rw [← agree.count, List.getElem?_concat_length] at second
      obtain rfl := Option.some.inj second
      rw [List.getD_append_right _ _ _ _ (Nat.le_add_right _ 1),
        List.getD_append_right _ _ _ _ (Nat.le_add_right _ 1), Nat.add_sub_cancel_left,
        Nat.add_sub_cancel_left]
      exact shows

end Agree

/-! ## What a program sees -/

/-- An action that is placed returns what it returns for the maps. -/
theorem Agree.step {h : OdictStore K V} {maps : List (OrderedMap K V)} (agree : Agree h maps)
    {action : ℕ × OdictCall K V} (placed : h.Placed action) :
    h.results action = OrderedMap.results maps action ∧
      ∀ h', h.step action = some h' →
        ∃ maps', OrderedMap.step maps action = some maps' ∧ Agree h' maps' := by
  obtain ⟨i, c⟩ := action
  cases object : h.objects[i]? with
  | none =>
    have map : maps[i]? = none := by
      rw [List.getElem?_eq_none_iff, agree.count]
      exact List.getElem?_eq_none_iff.mp object
    refine ⟨?_, fun h' stepped => ?_⟩
    · simp only [OdictStore.results, OrderedMap.results, object, map, Option.map_none]
    · simp only [OdictStore.step, object, Option.map_none] at stepped
      cases stepped
  | some o =>
    obtain ⟨m, map⟩ : ∃ m, maps[i]? = some m := by
      have inside := (List.getElem?_eq_some_iff.mp object).1
      rw [← agree.count] at inside
      exact ⟨maps[i], List.getElem?_eq_getElem inside⟩
    have holds := agree.holds o (List.mem_of_getElem? object)
    have shows := agree.shows i o m object map
    simp only [OdictStore.results, OrderedMap.results, OdictStore.step, OrderedMap.step, object,
      map, Option.map_some, Option.toList_some, Option.some.injEq, List.cons.injEq, and_true,
      forall_eq', exists_eq_left']
    cases single : c.isCopy with
    | true =>
      obtain rfl : c = .copy := by
        cases c <;> first | rfl | cases single
      refine ⟨rfl, ?_⟩
      have same : maps.set i m = maps := by
        obtain ⟨inside, here⟩ := List.getElem?_eq_some_iff.mp map
        rw [← here, List.set_getElem_self]
      change Agree (h.copy o) (maps.set i m ++ [m])
      rw [same]
      exact agree.copy object map
    | false =>
      obtain ⟨keys, data, called, shows'⟩ :=
        OdictStore.call_does holds shows single (placed o object)
      rw [called, if_neg Bool.false_ne_true, List.append_nil]
      exact ⟨rfl, agree.change object map shows'⟩

theorem Agree.differ (agree : Agree h maps) {action : ℕ × OdictCall K V}
    (misplaced : ¬h.Placed action) :
    ∃ r r', h.results action = [r] ∧ OrderedMap.results maps action = [r'] ∧ r ≠ r' := by
  obtain ⟨i, c⟩ := action
  simp only [OdictStore.Placed, not_forall] at misplaced
  obtain ⟨o, object, misplaced⟩ := misplaced
  obtain ⟨m, map⟩ : ∃ m, maps[i]? = some m := by
    have inside := (List.getElem?_eq_some_iff.mp object).1
    rw [← agree.count] at inside
    exact ⟨maps[i], List.getElem?_eq_getElem inside⟩
  have shows := agree.shows i o m object map
  cases c with
  | insertAfter posKey key val =>
    cases posKey with
    | none =>
      have empty : h.keysOf o = [] := not_not.mp misplaced
      have new : key ∉ m.keys := by
        rw [← shows.keys, empty]
        exact List.not_mem_nil
      refine ⟨.raised .valueError, .returned, ?_, ?_, fun same => by cases same⟩
      · simp only [OdictStore.results, object, Option.map_some, Option.toList_some,
          OdictStore.insertAfter_empty empty]
      · simp only [OrderedMap.results, map, Option.map_some, Option.toList_some, OrderedMap.call,
          OrderedMap.insert, dif_neg new]
    | some p => exact absurd trivial misplaced
  | getItem key => exact absurd trivial misplaced
  | setItem key value => exact absurd trivial misplaced
  | delItem key => exact absurd trivial misplaced
  | keys => exact absurd trivial misplaced
  | copy => exact absurd trivial misplaced
  | insertBefore posKey key val => exact absurd trivial misplaced

theorem Agree.results_iff (agree : Agree h maps) (actions : List (ℕ × OdictCall K V)) :
    observed OdictStore.results OdictStore.step h actions =
        observed OrderedMap.results OrderedMap.step maps actions ↔
      Throughout OdictStore.Placed OdictStore.step h actions := by
  induction actions generalizing h maps with
  | nil => exact iff_of_true rfl trivial
  | cons action actions ih =>
    by_cases placed : h.Placed action
    · obtain ⟨same, next⟩ := agree.step placed
      rw [observed, observed, same, List.append_cancel_left_eq, Throughout, and_iff_right placed]
      cases stepped : h.step action with
      | none =>
        have none : OrderedMap.step maps action = none := by
          simp only [OdictStore.step, Option.map_eq_none_iff, List.getElem?_eq_none_iff] at stepped
          rw [← agree.count] at stepped
          simp only [OrderedMap.step, Option.map_eq_none_iff, List.getElem?_eq_none_iff, stepped]
        rw [none]
        simp
      | some h' =>
        obtain ⟨maps', stepped', agree'⟩ := next h' stepped
        rw [stepped']
        dsimp only
        rw [ih agree']
        simp
    · refine iff_of_false (fun same => ?_) fun all => placed all.1
      obtain ⟨r, r', first, second, differ⟩ := agree.differ placed
      rw [observed, observed, first, second] at same
      exact differ (List.cons.inj same).1

/-- From any dictionary, the calls of a program return and raise what they do for maps with an
order, if and only if none of them asks an empty map for an insertion at its end. -/
theorem odict_iff (d : PyDict K V) (actions : List (ℕ × OdictCall K V)) :
    observed OdictStore.results OdictStore.step (OdictStore.start d) actions =
        observed OrderedMap.results OrderedMap.step (OrderedMap.start d) actions ↔
      Throughout OdictStore.Placed OdictStore.step (OdictStore.start d) actions :=
  (Agree.start d).results_iff actions

/-- The first entry of an empty map, put at its end. -/
theorem insertAfter_none_empty :
    observed OdictStore.results OdictStore.step (OdictStore.start (∅ : PyDict ℕ ℕ))
        [(0, .insertAfter none 1 2), (0, .keys)] = [.raised .valueError, .keys []] ∧
      observed OrderedMap.results OrderedMap.step (OrderedMap.start (∅ : PyDict ℕ ℕ))
        [(0, .insertAfter none 1 2), (0, .keys)] = [.returned, .keys [1]] := by
  decide

end GnuRadio
