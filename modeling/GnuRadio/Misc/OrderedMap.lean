import Mathlib.Data.List.Nodup
import Mathlib.Data.List.Perm.Basic

/-!
# Maps with an order

A map whose keys are in an order of their own: new keys come last unless a place is named for them,
and a key keeps its place when it gets another value.
-/

namespace GnuRadio

variable {K V : Type}

structure OrderedMap (K V : Type) where
  entries : List (K × V)
  nodup : (entries.map Prod.fst).Nodup

namespace OrderedMap

def keys (m : OrderedMap K V) : List K := m.entries.map Prod.fst

/-- The key has the value. -/
def Maps (m : OrderedMap K V) (k : K) (v : V) : Prop := (k, v) ∈ m.entries

variable {m : OrderedMap K V} {k : K} {v : V}

theorem Maps.mem (maps : m.Maps k v) : k ∈ m.keys :=
  List.mem_map_of_mem maps

theorem exists_maps (there : k ∈ m.keys) : ∃ v, m.Maps k v := by
  obtain ⟨⟨k, v⟩, member, rfl⟩ := List.mem_map.mp there
  exact ⟨v, member⟩

theorem Maps.unique {w : V} (first : m.Maps k v) (second : m.Maps k w) : v = w :=
  congrArg Prod.snd (List.inj_on_of_nodup_map m.nodup first second rfl)

/-- A new key with its value, at a place among the others. -/
def extend (m : OrderedMap K V) (entries : List (K × V)) (k : K) (v : V) (new : k ∉ m.keys)
    (perm : entries.Perm ((k, v) :: m.entries)) : OrderedMap K V where
  entries := entries
  nodup := by
    rw [(perm.map Prod.fst).nodup_iff]
    exact List.nodup_cons.mpr ⟨new, m.nodup⟩

theorem maps_extend {entries : List (K × V)} (new : k ∉ m.keys)
    (perm : entries.Perm ((k, v) :: m.entries)) (k' : K) (v' : V) :
    (m.extend entries k v new perm).Maps k' v' ↔ k' = k ∧ v' = v ∨ m.Maps k' v' := by
  rw [Maps, extend, perm.mem_iff, List.mem_cons, Prod.mk.injEq, Maps]

def prepend (m : OrderedMap K V) (k : K) (v : V) (new : k ∉ m.keys) : OrderedMap K V :=
  m.extend ((k, v) :: m.entries) k v new (List.Perm.refl _)

def append (m : OrderedMap K V) (k : K) (v : V) (new : k ∉ m.keys) : OrderedMap K V :=
  m.extend (m.entries ++ [(k, v)]) k v new
    (List.perm_append_singleton (k, v) m.entries)

variable [DecidableEq K]

/-- An entry right behind the one of a key, or right before it. -/
def putBeside (behind : Bool) (p : K) (entry : K × V) : List (K × V) → List (K × V)
  | [] => [entry]
  | e :: l =>
      if e.1 = p then if behind then e :: entry :: l else entry :: e :: l
      else e :: putBeside behind p entry l

theorem perm_putBeside (behind : Bool) (p : K) (entry : K × V) (l : List (K × V)) :
    (putBeside behind p entry l).Perm (entry :: l) := by
  induction l with
  | nil => exact List.Perm.refl _
  | cons e l ih =>
    rw [putBeside]
    split
    · cases behind with
      | true => exact List.Perm.swap entry e l
      | false => exact List.Perm.refl _
    · exact (ih.cons e).trans (List.Perm.swap entry e l)

/-- A new key comes right behind another one, or right before it. -/
def insertBeside (m : OrderedMap K V) (behind : Bool) (p k : K) (v : V) (new : k ∉ m.keys) :
    OrderedMap K V :=
  m.extend (putBeside behind p (k, v) m.entries) k v new
    (perm_putBeside behind p (k, v) m.entries)

theorem keys_insertBeside (behind : Bool) {p : K} (new : k ∉ m.keys) (there : p ∈ m.keys) :
    (m.insertBeside behind p k v new).keys =
      m.keys.take (m.keys.idxOf p + behind.toNat) ++
        k :: m.keys.drop (m.keys.idxOf p + behind.toNat) := by
  have general : ∀ l : List (K × V), p ∈ l.map Prod.fst →
      (putBeside behind p (k, v) l).map Prod.fst =
        (l.map Prod.fst).take ((l.map Prod.fst).idxOf p + behind.toNat) ++
          k :: (l.map Prod.fst).drop ((l.map Prod.fst).idxOf p + behind.toNat) := by
    intro l
    induction l with
    | nil => exact fun member => absurd member List.not_mem_nil
    | cons e l ih =>
      intro member
      rw [putBeside, List.map_cons]
      by_cases here : e.1 = p
      · rw [if_pos here, List.idxOf_cons_eq _ here]
        cases behind <;> rfl
      · have rest := (List.mem_cons.mp member).resolve_left fun same => here same.symm
        rw [if_neg here, List.idxOf_cons_ne _ here, List.map_cons, ih rest, Nat.succ_add]
        rfl
  exact general m.entries there

/-- A key gets another value, at the place that it has. -/
def replace (m : OrderedMap K V) (k : K) (v : V) : OrderedMap K V where
  entries := m.entries.map fun e => if e.1 = k then (k, v) else e
  nodup := by
    have same : ((m.entries.map fun e => if e.1 = k then (k, v) else e).map Prod.fst) =
        m.entries.map Prod.fst := by
      rw [List.map_map]
      refine List.map_congr_left fun e _ => ?_
      by_cases here : e.1 = k
      · rw [Function.comp_apply, if_pos here, here]
      · rw [Function.comp_apply, if_neg here]
    rw [same]
    exact m.nodup

theorem keys_replace (m : OrderedMap K V) (k : K) (v : V) : (m.replace k v).keys = m.keys := by
  rw [keys, replace, List.map_map]
  refine List.map_congr_left fun e _ => ?_
  by_cases here : e.1 = k
  · rw [Function.comp_apply, if_pos here, here]
  · rw [Function.comp_apply, if_neg here]

theorem maps_replace (there : k ∈ m.keys) (v : V) (k' : K) (v' : V) :
    (m.replace k v).Maps k' v' ↔ if k' = k then v' = v else m.Maps k' v' := by
  rw [Maps, replace, List.mem_map]
  by_cases same : k' = k
  · subst same
    rw [if_pos rfl]
    constructor
    · rintro ⟨e, -, changed⟩
      by_cases here : e.1 = k'
      · rw [if_pos here] at changed
        exact (congrArg Prod.snd changed).symm
      · rw [if_neg here] at changed
        exact absurd (congrArg Prod.fst changed) here
    · rintro rfl
      obtain ⟨w, member⟩ := exists_maps there
      exact ⟨(k', w), member, if_pos rfl⟩
  · rw [if_neg same]
    constructor
    · rintro ⟨e, member, changed⟩
      by_cases here : e.1 = k
      · rw [if_pos here] at changed
        exact absurd (congrArg Prod.fst changed).symm same
      · rw [if_neg here] at changed
        rwa [changed] at member
    · intro member
      exact ⟨(k', v'), member, if_neg same⟩

def delete (m : OrderedMap K V) (k : K) : OrderedMap K V where
  entries := m.entries.filter (·.1 ≠ k)
  nodup := m.nodup.sublist (List.filter_sublist.map Prod.fst)

theorem keys_delete (m : OrderedMap K V) (k : K) : (m.delete k).keys = m.keys.erase k := by
  have nodup : m.keys.Nodup := m.nodup
  rw [nodup.erase_eq_filter, keys, delete, keys, List.filter_map]
  congr 1
  refine List.filter_congr fun e _ => ?_
  by_cases here : e.1 = k <;> simp [here]

theorem maps_delete (k' : K) (v' : V) : (m.delete k).Maps k' v' ↔ k' ≠ k ∧ m.Maps k' v' := by
  rw [Maps, delete, List.mem_filter, decide_eq_true_iff, and_comm, Maps]

end OrderedMap

end GnuRadio
