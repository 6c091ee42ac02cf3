import Mathlib.Data.List.GetD

/-!
# Histories that are kept twice

The last `n` values are written at decreasing places of a buffer of `n` places, and once more in a
second buffer behind it. So the last values lie together behind the place that is written next,
newest first, wherever that is in the first buffer. Before the first value there are zeros.
-/

namespace GnuRadio

variable {α : Type}

/-- The place that is written after `latest`. -/
def previousPlace (n latest : ℕ) : ℕ := if latest = 0 then n - 1 else latest - 1

/-- `x` is written at `latest` and in the second buffer. -/
def writeTwice (n : ℕ) (buffer : List α) (latest : ℕ) (x : α) : List α :=
  (buffer.set latest x).set (latest + n) x

/-- The buffers after the values `past`, newest first. -/
structure DoubledHistory [Zero α] (n : ℕ) (buffer : List α) (latest : ℕ) (past : List α) :
    Prop where
  length : buffer.length = 2 * n
  inside : latest < n
  halves : ∀ j < n, buffer[j]? = buffer[j + n]?
  recent : ∀ i < n, buffer[latest + i + 1]? = some (past.getD i 0)

theorem previousPlace_cases (n latest : ℕ) :
    latest = 0 ∧ previousPlace n latest = n - 1 ∨
      0 < latest ∧ previousPlace n latest = latest - 1 := by
  unfold previousPlace
  split
  · exact Or.inl ⟨‹_›, rfl⟩
  · exact Or.inr ⟨Nat.pos_of_ne_zero ‹_›, rfl⟩

theorem getElem?_writeTwice {n latest : ℕ} {buffer : List α} (length : buffer.length = 2 * n)
    (inside : latest < n) (x : α) (j : ℕ) : (writeTwice n buffer latest x)[j]? =
      if j = latest ∨ j = latest + n then some x else buffer[j]? := by
  rw [writeTwice, List.getElem?_set, List.getElem?_set, List.length_set]
  by_cases second : latest + n = j
  · rw [if_pos second, if_pos (by omega), if_pos (Or.inr second.symm)]
  · rw [if_neg second]
    by_cases first : latest = j
    · rw [if_pos first, if_pos (by omega), if_pos (Or.inl first.symm)]
    · rw [if_neg first, if_neg (by omega)]

namespace DoubledHistory

variable [Zero α] {n latest : ℕ} {buffer past : List α}

theorem initial (some : 0 < n) : DoubledHistory n (List.replicate (2 * n) (0 : α)) 0 [] where
  length := List.length_replicate
  inside := some
  halves j inside := by
    rw [List.getElem?_replicate, List.getElem?_replicate, if_pos (by omega), if_pos (by omega)]
  recent i inside := by
    rw [List.getElem?_replicate, if_pos (by omega)]
    rfl

theorem next_inside (history : DoubledHistory n buffer latest past) :
    previousPlace n latest < n := by
  have := history.inside
  have := previousPlace_cases n latest
  omega

theorem push (history : DoubledHistory n buffer latest past) (x : α) :
    DoubledHistory n (writeTwice n buffer latest x) (previousPlace n latest) (x :: past) := by
  have inside := history.inside
  have next := previousPlace_cases n latest
  have entry := getElem?_writeTwice history.length inside x
  refine ⟨?_, history.next_inside, fun j below => ?_, fun i below => ?_⟩
  · rw [writeTwice, List.length_set, List.length_set, history.length]
  · rw [entry, entry, ← history.halves j below]
    by_cases here : j = latest
    · rw [if_pos (Or.inl here), if_pos (Or.inr (by omega))]
    · rw [if_neg (by omega), if_neg (by omega)]
  · rw [entry]
    cases i with
    | zero =>
      rw [if_pos (by omega)]
      rfl
    | succ i =>
      rw [if_neg (by omega), List.getD_cons_succ, ← history.recent i (by omega)]
      rcases next with ⟨wraps, place⟩ | ⟨within, place⟩
      · -- the place is the last one, and behind it lies the second buffer
        have there : previousPlace n latest + (i + 1) + 1 = i + 1 + n := by omega
        rw [there, wraps, Nat.zero_add, history.halves (i + 1) (by omega)]
      · have there : previousPlace n latest + (i + 1) + 1 = latest + i + 1 := by omega
        rw [there]

end DoubledHistory

end GnuRadio
