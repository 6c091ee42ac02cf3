import Mathlib.Data.List.Basic

/-!
# Maps up to an equivalence of the keys

Entries are found by a test of keys that is an equivalence on the keys in use,
not by equality. `live` is the map that a list of operations makes, read from the
last operation back; `lookup` finds the first entry of a list.
-/

namespace GnuRadio

/-- An operation on a map. -/
inductive MapOp (κ β : Type) where
  | put (key : κ) (value : β)
  | remove (key : κ)

namespace EqvMap

variable {κ β : Type}

/-- The test is an equivalence on these keys. -/
structure EquivalenceOn (keys : κ → Prop) (eqv : κ → κ → Bool) : Prop where
  refl : ∀ k, keys k → eqv k k = true
  symm : ∀ k l, keys k → keys l → eqv k l = true → eqv l k = true
  trans : ∀ k l m, keys k → keys l → keys m → eqv k l = true → eqv l m = true → eqv k m = true

variable (eqv : κ → κ → Bool)

def key : MapOp κ β → κ
  | .put k _ => k
  | .remove k => k

/-- What an operation leaves at its key. -/
def value : MapOp κ β → Option β
  | .put _ v => some v
  | .remove _ => none

/-- What is at a key after some operations: what the last one on this key has left. -/
def live (ops : List (MapOp κ β)) (k : κ) : Option β :=
  (ops.reverse.find? fun op => eqv (key op) k).bind value

/-- The value of the first entry with a key. -/
def lookup (entries : List (κ × β)) (k : κ) : Option β :=
  (entries.find? fun entry => eqv entry.1 k).map Prod.snd

/-- The entries without the first one that has a key. -/
def erase (entries : List (κ × β)) (k : κ) : List (κ × β) :=
  entries.eraseP fun entry => eqv entry.1 k

/-- No two entries have equivalent keys. -/
def Distinct (entries : List (κ × β)) : Prop :=
  entries.Pairwise fun entry entry' => eqv entry.1 entry'.1 = false

variable {eqv} {keys : κ → Prop} {entries : List (κ × β)} {k l : κ} {v : β}

theorem live_append (ops : List (MapOp κ β)) (op : MapOp κ β) (k : κ) :
    live eqv (ops ++ [op]) k = if eqv (key op) k then value op else live eqv ops k := by
  unfold live
  rw [List.reverse_append, List.reverse_singleton, List.singleton_append, List.find?_cons]
  cases eqv (key op) k <;> rfl

theorem live_put (ops : List (MapOp κ β)) (l : κ) (v : β) (k : κ) :
    live eqv (ops ++ [.put l v]) k = if eqv l k then some v else live eqv ops k :=
  live_append ops (.put l v) k

theorem live_remove (ops : List (MapOp κ β)) (l k : κ) :
    live eqv (ops ++ [.remove l]) k = if eqv l k then none else live eqv ops k :=
  live_append ops (.remove l) k

@[simp] theorem lookup_nil : lookup eqv ([] : List (κ × β)) k = none := rfl

theorem lookup_cons : lookup eqv ((l, v) :: entries) k =
    if eqv l k then some v else lookup eqv entries k := by
  unfold lookup
  rw [List.find?_cons]
  cases eqv l k <;> rfl

theorem erase_cons : erase eqv ((l, v) :: entries) k =
    if eqv l k then entries else (l, v) :: erase eqv entries k := by
  unfold erase
  rw [List.eraseP_cons]
  cases eqv l k <;> rfl

theorem lookup_eq_none_iff :
    lookup eqv entries k = none ↔ ∀ entry ∈ entries, eqv entry.1 k = false := by
  simp [lookup]

theorem erase_of_lookup_none (missing : lookup eqv entries k = none) :
    erase eqv entries k = entries := by
  refine List.eraseP_of_forall_not ?_
  intro entry member
  rw [lookup_eq_none_iff.mp missing entry member]
  exact Bool.false_ne_true

theorem Distinct.erase (distinct : Distinct eqv entries) (k : κ) :
    Distinct eqv (EqvMap.erase eqv entries k) :=
  distinct.sublist List.eraseP_sublist

theorem EquivalenceOn.eqv_congr (equivalence : EquivalenceOn keys eqv) {m : κ} (first : keys k)
    (second : keys l) (third : keys m) (same : eqv k l = true) : eqv k m = eqv l m := by
  rw [Bool.eq_iff_iff]
  constructor
  · exact equivalence.trans l k m second first third (equivalence.symm k l first second same)
  · exact equivalence.trans k l m first second third same

/-- Erasing a key leaves what is found at the others. -/
theorem lookup_erase (equivalence : EquivalenceOn keys eqv) (distinct : Distinct eqv entries)
    (inside : ∀ entry ∈ entries, keys entry.1) (first : keys l) (second : keys k) :
    lookup eqv (erase eqv entries l) k =
      if eqv l k then none else lookup eqv entries k := by
  induction entries with
  | nil => simp [erase]
  | cons entry entries ih =>
    obtain ⟨key, value⟩ := entry
    have here : keys key := inside _ List.mem_cons_self
    have others : ∀ entry ∈ entries, keys entry.1 :=
      fun entry member => inside entry (List.mem_cons_of_mem _ member)
    obtain ⟨apart, rest⟩ := List.pairwise_cons.mp distinct
    by_cases found : eqv key l = true
    · rw [erase_cons, if_pos found, lookup_cons,
        equivalence.eqv_congr here first second found]
      split
      · rename_i same
        rw [lookup_eq_none_iff]
        intro entry member
        have different := apart entry member
        rw [Bool.eq_false_iff] at different ⊢
        intro again
        apply different
        have third := others entry member
        have back := equivalence.symm _ _ third second again
        have forth := equivalence.trans _ _ _ here first second found same
        exact equivalence.trans _ _ _ here second third forth back
      · rfl
    · rw [erase_cons, if_neg found, lookup_cons, lookup_cons, ih rest others]
      by_cases same : eqv l k = true
      · have other : eqv key k = false := by
          rw [Bool.eq_false_iff]
          intro again
          apply found
          exact equivalence.trans _ _ _ here second first again
            (equivalence.symm _ _ first second same)
        rw [other, same]
        rfl
      · rw [Bool.not_eq_true] at same
        rw [same]
        rfl

theorem Distinct.cons (distinct : Distinct eqv entries) (new : lookup eqv entries l = none)
    (symmetric : ∀ entry ∈ entries, eqv l entry.1 = true → eqv entry.1 l = true) :
    Distinct eqv ((l, v) :: entries) := by
  refine List.pairwise_cons.mpr ⟨?_, distinct⟩
  intro entry member
  have different := lookup_eq_none_iff.mp new entry member
  rw [Bool.eq_false_iff] at different ⊢
  exact fun same => different (symmetric entry member same)

theorem length_filter (equivalence : EquivalenceOn keys eqv) (distinct : Distinct eqv entries)
    (inside : ∀ entry ∈ entries, keys entry.1) (known : keys k) :
    (entries.filter fun entry => eqv entry.1 k).length =
      if (lookup eqv entries k).isSome then 1 else 0 := by
  induction entries with
  | nil => rfl
  | cons entry entries ih =>
    obtain ⟨key, value⟩ := entry
    have here : keys key := inside _ List.mem_cons_self
    have others : ∀ entry ∈ entries, keys entry.1 :=
      fun entry member => inside entry (List.mem_cons_of_mem _ member)
    obtain ⟨apart, rest⟩ := List.pairwise_cons.mp distinct
    rw [lookup_cons]
    by_cases same : eqv key k = true
    · have noOther : entries.filter (fun entry => eqv entry.1 k) = [] := by
        rw [List.filter_eq_nil_iff]
        intro entry member again
        have third := others entry member
        have back := equivalence.symm _ _ third known again
        have different := apart entry member
        rw [equivalence.trans _ _ _ here known third same back] at different
        cases different
      simp only [List.filter_cons, same, noOther]
      rfl
    · simp only [List.filter_cons, same]
      exact ih rest others

theorem lookup_of_mem (equivalence : EquivalenceOn keys eqv) (distinct : Distinct eqv entries)
    (inside : ∀ entry ∈ entries, keys entry.1) {entry : κ × β} (member : entry ∈ entries) :
    lookup eqv entries entry.1 = some entry.2 := by
  induction entries with
  | nil => cases member
  | cons first entries ih =>
    obtain ⟨key, value⟩ := first
    obtain ⟨apart, rest⟩ := List.pairwise_cons.mp distinct
    rw [lookup_cons]
    rcases List.mem_cons.mp member with rfl | later
    · rw [if_pos (equivalence.refl _ (inside _ member))]
    · rw [apart entry later]
      exact ih rest (fun entry member => inside entry (List.mem_cons_of_mem _ member)) later

end EqvMap

end GnuRadio
