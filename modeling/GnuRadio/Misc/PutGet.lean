import Mathlib.Data.List.Nodup

/-!
# Cells that are written one after another

A store has a cell for each valid key. A write changes its own cell and no other, so a list of
writes to different cells leaves each with what was written into it.
-/

namespace GnuRadio

/-- The cells of a store that is `whole`. -/
structure PutGet {σ κ ν : Type} (put : σ → κ → ν → σ) (get : σ → κ → ν) (whole : σ → Prop)
    (valid : κ → Prop) : Prop where
  kept : ∀ s k v, whole s → whole (put s k v)
  same : ∀ s k v, whole s → valid k → get (put s k v) k = v
  other : ∀ s k l v, whole s → valid k → valid l → k ≠ l → get (put s k v) l = get s l

namespace PutGet

variable {σ κ ν : Type} {put : σ → κ → ν → σ} {get : σ → κ → ν} {whole : σ → Prop}
  {valid : κ → Prop} {writes : List (κ × ν)} {s : σ} {l : κ}

theorem get_foldl_of_notMem (cells : PutGet put get whole valid) (ready : whole s) (known : valid l)
    (keys : ∀ w ∈ writes, valid w.1) (free : l ∉ writes.map Prod.fst) :
    get (writes.foldl (fun s w => put s w.1 w.2) s) l = get s l := by
  induction writes generalizing s with
  | nil => rfl
  | cons w writes ih =>
    rw [List.map_cons, List.mem_cons, not_or] at free
    rw [List.foldl_cons, ih (cells.kept s w.1 w.2 ready)
      (fun w' member => keys w' (List.mem_cons_of_mem _ member)) free.2]
    exact cells.other s w.1 l w.2 ready (keys w List.mem_cons_self) known (Ne.symm free.1)

theorem get_foldl (cells : PutGet put get whole valid) (ready : whole s)
    (keys : ∀ w ∈ writes, valid w.1) (different : (writes.map Prod.fst).Nodup) :
    ∀ w ∈ writes, get (writes.foldl (fun s w => put s w.1 w.2) s) w.1 = w.2 := by
  induction writes generalizing s with
  | nil => simp
  | cons w writes ih =>
    rw [List.map_cons, List.nodup_cons] at different
    have rest : ∀ w' ∈ writes, valid w'.1 :=
      fun w' member => keys w' (List.mem_cons_of_mem _ member)
    have first : valid w.1 := keys w List.mem_cons_self
    intro w' member
    rw [List.foldl_cons]
    rcases List.mem_cons.mp member with rfl | member
    · rw [cells.get_foldl_of_notMem (cells.kept s w'.1 w'.2 ready) first rest different.1]
      exact cells.same s w'.1 w'.2 ready first
    · exact ih (cells.kept s w.1 w.2 ready) rest different.2 w' member

theorem map_get_foldl (cells : PutGet put get whole valid) (ready : whole s)
    (keys : ∀ w ∈ writes, valid w.1) (different : (writes.map Prod.fst).Nodup) {places : List κ}
    {values : List ν} (length : values.length = places.length)
    (written : ∀ w ∈ places.zip values, w ∈ writes) :
    places.map (get (writes.foldl (fun s w => put s w.1 w.2) s)) = values := by
  apply List.ext_getElem
  · rw [List.length_map, length]
  intro i inside inside'
  rw [List.length_map] at inside
  have member : (places[i], values[i]) ∈ places.zip values := by
    rw [← List.getElem_zip (h := by rw [List.length_zip]; omega)]
    exact List.getElem_mem _
  rw [List.getElem_map]
  exact cells.get_foldl ready keys different _ (written _ member)

end PutGet

end GnuRadio
