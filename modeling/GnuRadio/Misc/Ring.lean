import Mathlib.Data.Int.ModEq
import Mathlib.Tactic.Ring

/-!
# Positions on a ring of cells

A ring of `n` cells holds the positions of an unbounded stream: position `k`
lies in cell `k % n`. The facts here relate a window of positions shorter than
the ring to its cells. `Holds` says that the cells hold the live items.
-/

namespace GnuRadio.Ring

variable {n : Nat} {α : Type}

theorem cell_ne {j k : Nat} (below : j < k) (window : k < j + n) : j % n ≠ k % n := by
  intro same
  have divides : n ∣ k - j := (Nat.modEq_iff_dvd' below.le).mp same
  have := Nat.le_of_dvd (by omega) divides
  omega

theorem cell_add {k m : Nat} (positive : 0 < n) (bound : m ≤ n) :
    (k + m) % n = if k % n + m ≥ n then k % n + m - n else k % n + m := by
  have inside := Nat.mod_lt k positive
  rw [Nat.add_mod]
  split
  · rename_i wraps
    by_cases whole : m = n
    · subst whole
      simp
    · rw [Nat.mod_eq_of_lt (show m < n by omega), Nat.mod_eq_sub_mod wraps,
        Nat.mod_eq_of_lt (by omega)]
  · rename_i fits
    rw [Nat.mod_eq_of_lt (show m < n by omega), Nat.mod_eq_of_lt (by omega)]

theorem cell_distance {r w : Nat} (ordered : r ≤ w) (window : w < r + n) :
    (if w % n < r % n then w % n + n - r % n else w % n - r % n) = w - r := by
  have positive : 0 < n := by omega
  have inside := Nat.mod_lt r positive
  have reached := cell_add (n := n) (k := r) (m := w - r) positive (by omega)
  rw [Nat.add_sub_cancel' ordered] at reached
  rw [reached]
  split <;> split <;> omega

/-- Store `items` in the cells of consecutive positions from `start` on. -/
def store {α : Type} (n : Nat) (cells : Nat → α) (start : Nat) : List α → Nat → α
  | [] => cells
  | x :: xs => store n (Function.update cells (start % n) x) (start + 1) xs

theorem store_outside (n : Nat) (cells : Nat → α) (start c : Nat) (items : List α)
    (outside : ∀ j < items.length, c ≠ (start + j) % n) :
    store n cells start items c = cells c := by
  induction items generalizing cells start with
  | nil => rfl
  | cons x xs ih =>
    have here : c ≠ start % n := outside 0 (by simp)
    rw [store, ih, Function.update_of_ne here]
    intro j bound
    have := outside (j + 1) (by simpa using bound)
    rwa [show start + (j + 1) = start + 1 + j by omega] at this

theorem store_inside (n : Nat) (cells : Nat → α) (start : Nat) (items : List α)
    (fits : items.length ≤ n) (j : Nat) (bound : j < items.length) :
    store n cells start items ((start + j) % n) = items[j] := by
  induction items generalizing cells start j with
  | nil => simp at bound
  | cons x xs ih =>
    simp only [List.length_cons] at fits bound
    cases j with
    | zero =>
      rw [store, store_outside]
      · simp
      · intro j later
        rw [show start + 1 + j = start + (j + 1) by omega]
        exact cell_ne (by omega) (by omega)
    | succ j =>
      have next := ih (Function.update cells (start % n) x) (start + 1) (by omega) j (by omega)
      rw [show start + (j + 1) = start + 1 + j by omega, store]
      simpa using next

theorem store_mod (n : Nat) (cells : Nat → α) (start : Nat) (items : List α) :
    store n cells (start % n) items = store n cells start items := by
  induction items generalizing cells start with
  | nil => rfl
  | cons x xs ih =>
    rw [store, store, Nat.mod_mod, ← ih _ (start % n + 1), ← ih _ (start + 1)]
    rw [show (start % n + 1) % n = (start + 1) % n by simp [Nat.add_mod]]

/-! ## Windows of a ring -/

/-- The items in the cells of consecutive positions. -/
def view {α : Type} (n : Nat) (cells : Nat → α) (start count : Nat) : List α :=
  (List.range count).map fun i => cells ((start + i) % n)

@[simp] theorem length_view (n : Nat) (cells : Nat → α) (start count : Nat) :
    (view n cells start count).length = count := by
  simp [view]

theorem view_congr {start start' : Nat} (cells : Nat → α) (count : Nat)
    (same : start % n = start' % n) : view n cells start count = view n cells start' count := by
  refine List.map_congr_left fun i _ => ?_
  rw [Nat.add_mod, same, ← Nat.add_mod]

theorem view_add (n : Nat) (cells : Nat → α) (start count more : Nat) :
    view n cells start (count + more) =
      view n cells start count ++ view n cells (start + count) more := by
  simp only [view, List.range_add, List.map_append, List.map_map]
  congr 1
  refine List.map_congr_left fun i _ => ?_
  rw [Function.comp, Nat.add_assoc]

theorem view_store (cells : Nat → α) (start count : Nat) {items : List α}
    (fits : count + items.length ≤ n) :
    view n (store n cells (start + count) items) start (count + items.length) =
      view n cells start count ++ items := by
  rw [view_add]
  congr 1
  · refine List.map_congr_left fun i member => store_outside n cells _ _ items fun j bound => ?_
    have inside := List.mem_range.mp member
    rw [Nat.add_assoc]
    exact cell_ne (by omega) (by omega)
  · refine List.ext_getElem (length_view ..) fun j _ bound => ?_
    simp only [view, List.getElem_map, List.getElem_range]
    exact store_inside n cells _ items (by omega) j bound

/-- Storing what the cells hold changes nothing. -/
theorem store_view (cells : Nat → α) (start count : Nat) :
    store n cells start (view n cells start count) = cells := by
  induction count generalizing start with
  | zero => rfl
  | succ count ih =>
    have first : view n cells start (count + 1) =
        cells (start % n) :: view n cells (start + 1) count := by
      rw [Nat.add_comm count, view_add]
      rfl
    rw [first, store, Function.update_eq_self, ih]

/-! ## Cells that hold the live items of a stream -/

/-- The live items lie in the cells of their positions, nothing else lies in any cell, and no item is
live that lies a full turn before the next one. -/
structure Holds {α : Type} (n : Nat) (cells : Nat → Option α) (items : List α) (live : Nat → Prop) :
    Prop where
  held : ∀ i, live i → ∃ x, items[i]? = some x ∧ cells (i % n) = some x
  taken : ∀ j x, cells j = some x → ∃ i, live i ∧ i % n = j
  window : ∀ i, live i → items.length ≤ i + n

namespace Holds

variable {α : Type} {n : Nat} {cells : Nat → Option α} {items : List α} {live live' : Nat → Prop}

section

variable (holds : Holds n cells items live)
include holds

theorem congr (same : ∀ i, live i ↔ live' i) : Holds n cells items live' := by
  obtain rfl : live = live' := funext fun i => propext (same i)
  exact holds

theorem lt {i : Nat} (here : live i) : i < items.length := by
  obtain ⟨x, item, -⟩ := holds.held i here
  exact (List.getElem?_eq_some_iff.mp item).1

theorem cell_inj {i j : Nat} (here : live i) (there : live j) (same : i % n = j % n) : i = j := by
  have first := holds.lt here
  have second := holds.lt there
  have window := holds.window i here
  have window' := holds.window j there
  rcases Nat.lt_trichotomy i j with less | equal | more
  · exact absurd same (cell_ne less (by omega))
  · exact equal
  · exact absurd same.symm (cell_ne more (by omega))

theorem push (pos : 0 < n) (free : cells (items.length % n) = none)
    (x : α) : Holds n (Function.update cells (items.length % n) (some x)) (items ++ [x])
      (fun i => live i ∨ i = items.length) where
  held i here := by
    rcases here with old | rfl
    · obtain ⟨y, item, cell⟩ := holds.held i old
      have other : i % n ≠ items.length % n := by
        intro same
        rw [same, free] at cell
        cases cell
      refine ⟨y, ?_, ?_⟩
      · rw [List.getElem?_append_left (holds.lt old), item]
      · rw [Function.update_of_ne other, cell]
    · exact ⟨x, by simp, Function.update_self ..⟩
  taken j y cell := by
    by_cases here : j = items.length % n
    · exact ⟨items.length, Or.inr rfl, here.symm⟩
    · rw [Function.update_of_ne here] at cell
      obtain ⟨i, old, place⟩ := holds.taken j y cell
      exact ⟨i, Or.inl old, place⟩
  window i here := by
    rw [List.length_append, List.length_singleton]
    rcases here with old | rfl
    · have window := holds.window i old
      have other : items.length ≠ i + n := by
        intro turn
        obtain ⟨y, -, cell⟩ := holds.held i old
        rw [turn, Nat.add_mod_right, cell] at free
        cases free
      omega
    · omega

theorem drop {i : Nat} (here : live i) :
    Holds n (Function.update cells (i % n) none) items (fun j => live j ∧ j ≠ i) where
  held j there := by
    obtain ⟨x, item, cell⟩ := holds.held j there.1
    refine ⟨x, item, ?_⟩
    rw [Function.update_of_ne fun same => there.2 (holds.cell_inj there.1 here same), cell]
  taken j x cell := by
    by_cases same : j = i % n
    · rw [same, Function.update_self] at cell
      cases cell
    · rw [Function.update_of_ne same] at cell
      obtain ⟨k, there, place⟩ := holds.taken j x cell
      refine ⟨k, ⟨there, ?_⟩, place⟩
      rintro rfl
      exact same place.symm
  window j there := holds.window j there.1

/-- A cell holds its live item when no live one lies a full turn before it. -/
theorem here {k : Nat} {x : α} (cell : cells (k % n) = some x)
    (near : ∀ i, live i → i < k → k < i + n) (pending : k < items.length → live k) :
    live k ∧ items[k]? = some x := by
  obtain ⟨i, there, place⟩ := holds.taken _ x cell
  have less := holds.lt there
  have same : i = k := by
    rcases Nat.lt_trichotomy i k with before | equal | after
    · exact absurd place (cell_ne before (near i there before))
    · exact equal
    · have window := holds.window k (pending (after.trans less))
      exact absurd place.symm (cell_ne after (by omega))
  subst same
  obtain ⟨y, item, cell'⟩ := holds.held i there
  rw [cell] at cell'
  exact ⟨there, Option.some.inj cell' ▸ item⟩

end

end Holds

end GnuRadio.Ring
