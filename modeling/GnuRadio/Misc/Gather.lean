import Mathlib.Data.Nat.Notation

/-!
# Gathering bits

Bits that are shifted into a word one after another, at the bottom or at the top.
-/

namespace GnuRadio

/-- The first `k` bits, each shifted in at the bottom. -/
def gather (w : ℕ) (bits : ℕ → Bool) : ℕ → BitVec w
  | 0 => 0
  | k + 1 => (gather w bits k <<< 1) ||| BitVec.ofNat w (bits k).toNat

/-- The first `k` bits, each put in at place `top` of a wider word, which moves down before. -/
def gatherDown (w top : ℕ) (bits : ℕ → Bool) : ℕ → BitVec w
  | 0 => 0
  | k + 1 => (gatherDown w top bits k >>> 1) ||| BitVec.ofNat w ((bits k).toNat <<< top)

theorem getLsbD_ofNat_toNat (w i : ℕ) (bit : Bool) :
    (BitVec.ofNat w bit.toNat).getLsbD i = (decide (i < w) && decide (i = 0) && bit) := by
  rw [BitVec.getLsbD_ofNat]
  cases bit <;> cases i <;> simp [Nat.testBit_succ]

theorem getLsbD_gather {w k i : ℕ} (bits : ℕ → Bool) (within : k ≤ w) :
    (gather w bits k).getLsbD i = (decide (i < k) && bits (k - 1 - i)) := by
  induction k generalizing i with
  | zero => simp [gather]
  | succ k ih =>
    rw [gather, BitVec.getLsbD_or, BitVec.getLsbD_shiftLeft, ih (by omega), getLsbD_ofNat_toNat]
    cases i with
    | zero => simp; omega
    | succ i =>
      have back : k + 1 - 1 - (i + 1) = k - 1 - i := by omega
      rw [back]
      by_cases inside : i < k
      · simp [inside]
        omega
      · simp [inside]

theorem getLsbD_ofNat_shiftLeft (w top i : ℕ) (bit : Bool) :
    (BitVec.ofNat w (bit.toNat <<< top)).getLsbD i = (decide (i < w) && decide (i = top) && bit) := by
  rw [BitVec.getLsbD_ofNat, Nat.testBit_shiftLeft]
  by_cases here : i = top
  · subst here
    cases bit <;> simp
  · by_cases above : top ≤ i
    · obtain ⟨d, rfl⟩ : ∃ d, i = top + (d + 1) := ⟨i - top - 1, by omega⟩
      cases bit <;> simp [Nat.testBit_succ]
    · simp [above, here]

theorem getLsbD_gatherDown {w top k i : ℕ} (bits : ℕ → Bool) (wide : top < w)
    (within : k ≤ top + 1) : (gatherDown w top bits k).getLsbD i =
      (decide (top + 1 ≤ i + k ∧ i ≤ top) && bits (i + k - (top + 1))) := by
  induction k generalizing i with
  | zero =>
    rw [gatherDown, decide_eq_false (by omega)]
    simp
  | succ k ih =>
    rw [gatherDown, BitVec.getLsbD_or, BitVec.getLsbD_ushiftRight, ih (by omega),
      getLsbD_ofNat_shiftLeft]
    by_cases here : i = top
    · subst here
      have last : i + (k + 1) - (i + 1) = k := by omega
      rw [last, decide_eq_false (by omega), decide_eq_true wide,
        decide_eq_true (show i + 1 ≤ i + (k + 1) ∧ i ≤ i by omega)]
      simp
    · have shift : 1 + i + k = i + (k + 1) := by omega
      have same : 1 + i ≤ top ↔ i ≤ top := by omega
      simp only [same, shift, here, decide_false, Bool.and_false, Bool.false_and, Bool.or_false]

end GnuRadio
