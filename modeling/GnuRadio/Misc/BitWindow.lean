import GnuRadio.Misc.Bits
import Mathlib.Data.Nat.Bitwise
import Mathlib.Data.List.Basic

/-!
# Registers as windows on a stream

A bit that enters a shift register moves one place at each step until it falls out. So the
register shows the last bits that entered, each at the place that belongs to its age. The bits
that entered are listed newest first.
-/

namespace GnuRadio

/-- A word shows the last `n` bits that entered: the one of age `k` stands at `place k`. -/
def Shows (place : ℕ → ℕ) (n : ℕ) (past : List Bool) (word : ℕ) : Prop :=
  ∀ k < n, word.testBit (place k) = past.getD k false

namespace Shows

variable {place : ℕ → ℕ} {n : ℕ} {past : List Bool} {word next : ℕ} {bit : Bool}

theorem zero : Shows place n [] 0 := by
  intro k _
  simp

theorem enter (shown : Shows place n past word) (enters : next.testBit (place 0) = bit)
    (moves : ∀ k, k + 1 < n → next.testBit (place (k + 1)) = word.testBit (place k)) :
    Shows place n (bit :: past) next := by
  intro k inside
  cases k with
  | zero => simpa using enters
  | succ k =>
    rw [moves k inside, shown k (Nat.lt_of_succ_lt inside)]
    simp

end Shows

theorem testBit_shiftLeft_bit (bit : Bool) (p k : ℕ) :
    (bit.toNat <<< p).testBit k = (decide (k = p) && bit) := by
  rw [Nat.testBit_shiftLeft]
  cases bit with
  | false => simp
  | true =>
    rcases Nat.lt_trichotomy k p with below | rfl | above
    · have other : k ≠ p := Nat.ne_of_lt below
      simp [other, below]
    · simp
    · have other : k ≠ p := Nat.ne_of_gt above
      have later : Nat.testBit 1 (k - p) = false := by
        rw [Bool.eq_false_iff, ne_eq, Nat.testBit_one_eq_true_iff_self_eq_zero]
        omega
      simp [other, later]

/-! ## Registers that shift to the left -/

/-- A word of `w` bits that shifts to the left, new bits being or-ed in at place `p`: it shows
what entered from there on, and nothing is below. -/
structure LeftWindow (w p : ℕ) (past : List Bool) (word : ℕ) : Prop where
  shows : Shows (p + ·) (w - p) past word
  low : ∀ k < p, word.testBit k = false

namespace LeftWindow

variable {w p : ℕ} {past : List Bool} {word : ℕ}

theorem zero : LeftWindow w p [] 0 := ⟨Shows.zero, fun _ _ => Nat.zero_testBit _⟩

theorem testBit_enter {k : ℕ} (bit : Bool) (inside : k < w) :
    ((word <<< 1 % 2 ^ w) ||| bit.toNat <<< p).testBit k =
      ((decide (1 ≤ k) && word.testBit (k - 1)) || (decide (k = p) && bit)) := by
  rw [Nat.testBit_or, testBit_shiftLeft_bit, Nat.testBit_mod_two_pow, Nat.testBit_shiftLeft]
  simp [inside]

theorem enter (window : LeftWindow w p past word) (bit : Bool) (inside : p < w) :
    LeftWindow w p (bit :: past) ((word <<< 1 % 2 ^ w) ||| bit.toNat <<< p) := by
  have below : ∀ k ≤ p, (decide (1 ≤ k) && word.testBit (k - 1)) = false := by
    intro k least
    cases k with
    | zero => rfl
    | succ k => simpa using window.low k least
  constructor
  · apply window.shows.enter
    · rw [Nat.add_zero, testBit_enter bit inside, below p le_rfl]
      simp
    · intro k more
      have other : p + (k + 1) ≠ p := by omega
      have later : p + (k + 1) - 1 = p + k := by omega
      have positive : 1 ≤ p + (k + 1) := by omega
      rw [testBit_enter bit (by omega), later]
      simp [positive]
  · intro k least
    have other : k ≠ p := Nat.ne_of_lt least
    rw [testBit_enter bit (by omega), below k (Nat.le_of_lt least)]
    simp [other]

theorem enter_false (window : LeftWindow w p past word) (inside : p < w) :
    LeftWindow w p (false :: past) (word <<< 1 % 2 ^ w) := by
  have entered := window.enter false inside
  rwa [Bool.toNat_false, Nat.zero_shiftLeft, Nat.or_zero] at entered

end LeftWindow

/-! ## Registers that shift to the right -/

/-- A word that shifts to the right, new bits being or-ed in at its top place `L`. -/
structure RightWindow (L : ℕ) (past : List Bool) (word : ℕ) : Prop where
  shows : Shows (L - ·) (L + 1) past word
  below : word < 2 ^ (L + 1)

namespace RightWindow

variable {L : ℕ} {past past' : List Bool} {word word' : ℕ}

theorem seed (below : word < 2 ^ (L + 1)) : RightWindow L (bitsOf (L + 1) word) word := by
  refine ⟨fun k inside => ?_, below⟩
  have place : L + 1 - 1 - k = L - k := by omega
  rw [bitsOf, List.getD_eq_getElem _ _ (by simpa using inside), List.getElem_map,
    List.getElem_reverse, List.getElem_range, List.length_range, place]

theorem enter (window : RightWindow L past word) (bit : Bool) :
    RightWindow L (bit :: past) ((word >>> 1) ||| bit.toNat <<< L) := by
  have places (k : ℕ) : ((word >>> 1) ||| bit.toNat <<< L).testBit k =
      (word.testBit (k + 1) || (decide (k = L) && bit)) := by
    rw [Nat.testBit_or, Nat.testBit_shiftRight, testBit_shiftLeft_bit, Nat.add_comm]
  constructor
  · apply window.shows.enter
    · rw [places, Nat.sub_zero, Nat.testBit_lt_two_pow window.below]
      simp
    · intro k more
      have other : L - (k + 1) ≠ L := by omega
      have place : L - (k + 1) + 1 = L - k := by omega
      rw [places, place]
      simp [other]
  · apply Nat.or_lt_two_pow
    · have word := window.below
      rw [Nat.shiftRight_eq_div_pow]
      omega
    · have small := Bool.toNat_le bit
      rw [Nat.shiftLeft_eq, pow_succ, Nat.mul_comm]
      exact (Nat.mul_lt_mul_left (Nat.two_pow_pos L)).mpr (Nat.lt_succ_of_le small)

theorem ext (window : RightWindow L past word) (window' : RightWindow L past' word')
    (same : ∀ k ≤ L, past.getD k false = past'.getD k false) : word = word' := by
  apply Nat.eq_of_testBit_eq
  intro i
  by_cases inside : i ≤ L
  · have place : L - (L - i) = i := Nat.sub_sub_self inside
    have one := window.shows (L - i) (by omega)
    have other := window'.shows (L - i) (by omega)
    dsimp only at one other
    rw [place] at one other
    rw [one, other, same _ (Nat.sub_le _ _)]
  · have beyond : 2 ^ (L + 1) ≤ 2 ^ i := Nat.pow_le_pow_right (by decide) (by omega)
    rw [Nat.testBit_lt_two_pow (Nat.lt_of_lt_of_le window.below beyond),
      Nat.testBit_lt_two_pow (Nat.lt_of_lt_of_le window'.below beyond)]

end RightWindow

end GnuRadio
