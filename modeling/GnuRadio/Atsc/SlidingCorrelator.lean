import GnuRadio.Atsc.Types
import GnuRadio.Misc.PopulationCount
import Mathlib.Algebra.BigOperators.Ring.Finset
import Mathlib.Algebra.Order.BigOperators.Group.Finset

/-!
# The sliding correlator

`atsci_sliding_correlator` keeps the last 511 bits in a shift register of several words, newest
first, compares it with the PN sequence and counts the places that differ. The words are of type
`unsigned long`, while the count of bits is written for 32 of them.
-/

namespace GnuRadio

/-- The widths that an `unsigned long` may have. -/
inductive UnsignedLong where
  | bits32
  | bits64
  deriving DecidableEq, Repr

def UnsignedLong.srblockBitsize : UnsignedLong → ℕ
  | .bits32 => 32
  | .bits64 => 64

/-- `popcount32` (`atsci_sliding_correlator.cc:33-41`). -/
def popcount32 {w : ℕ} (v : BitVec w) : Int :=
  let u := v - ((v >>> 1) &&& 0x55555555#w)
  let x := (u &&& 0x33333333#w) + ((u >>> 2) &&& 0x33333333#w)
  let y := (x + (x >>> 4)) &&& 0x0f0f0f0f#w
  let z := (y * 0x01010101#w) >>> 24
  (z.setWidth 32).toInt

def nsrblocks (w : ℕ) : ℕ := (511 + w - 1) / w

/-- `atsci_sliding_correlator` (`atsci_sliding_correlator.h:65-81`). -/
structure SlidingCorrelator (w : ℕ) where
  mask : ℕ → BitVec w
  input : ℕ → BitVec w
  and_mask : ℕ → BitVec w

namespace SlidingCorrelator

variable {w : ℕ}

/-- What a word becomes when the register shifts. -/
def shifted (d : ℕ → BitVec w) (i : ℕ) : BitVec w :=
  ((d (i - 1) &&& 1#w) <<< (w - 1)) ||| (d i >>> 1)

/-- `shift_reg::shift_in` (`atsci_sliding_correlator.cc:69-76`). -/
def shiftIn (d : ℕ → BitVec w) (bit : Int) : ℕ → BitVec w :=
  let d := ((List.range (nsrblocks w - 1)).map (nsrblocks w - 1 - ·)).foldl
    (fun (d : ℕ → BitVec w) i => Function.update d i (shifted d i)) d
  Function.update d 0 ((BitVec.ofInt w bit <<< (w - 1)) ||| (d 0 >>> 1))

/-- The constructor (`atsci_sliding_correlator.cc:43-56`). -/
def make : SlidingCorrelator w where
  mask := atscPn511.foldl (fun d bit => shiftIn d bit.toNat) fun _ => 0#w
  input := fun _ => 0#w
  and_mask := (List.range 511).foldl (fun d _ => shiftIn d 1) (shiftIn (fun _ => 0#w) 0)

/-- `reset` clears the input register. -/
def reset (c : SlidingCorrelator w) : SlidingCorrelator w := { c with input := fun _ => 0#w }

/-- `input_bit` (`atsci_sliding_correlator.cc:78-89`). -/
def inputBit (c : SlidingCorrelator w) (bit : Int) : Int × SlidingCorrelator w :=
  let input := shiftIn c.input bit
  ((List.range (nsrblocks w)).foldl (fun count i =>
    count + popcount32 ((input i ^^^ c.mask i) &&& c.and_mask i)) 0, { c with input })

/-! ## The register -/

theorem shiftIn_loop (d : ℕ → BitVec w) {m : ℕ} (within : m < nsrblocks w) (i : ℕ) :
    ((List.range m).map (nsrblocks w - 1 - ·)).foldl
      (fun (d : ℕ → BitVec w) i => Function.update d i (shifted d i)) d i =
    if nsrblocks w - 1 - m < i ∧ i < nsrblocks w then shifted d i else d i := by
  induction m generalizing i with
  | zero =>
    have none : ¬(nsrblocks w - 1 - 0 < i ∧ i < nsrblocks w) := by omega
    rw [if_neg none]
    rfl
  | succ m ih =>
    have before := ih (Nat.lt_of_succ_lt within)
    rw [List.range_succ, List.map_append, List.foldl_append, List.map_singleton, List.foldl_cons,
      List.foldl_nil]
    by_cases here : i = nsrblocks w - 1 - m
    · subst here
      have here := before (nsrblocks w - 1 - m)
      have lower := before (nsrblocks w - 1 - m - 1)
      rw [if_neg (by omega)] at here lower
      rw [Function.update_self, if_pos (by omega), shifted, shifted, here, lower]
    · have same : nsrblocks w - 1 - (m + 1) < i ∧ i < nsrblocks w ↔
          nsrblocks w - 1 - m < i ∧ i < nsrblocks w := by omega
      rw [Function.update_of_ne here, before]
      simp only [same]

theorem shiftIn_zero (d : ℕ → BitVec w) (bit : Int) :
    shiftIn d bit 0 = (BitVec.ofInt w bit <<< (w - 1)) ||| (d 0 >>> 1) := by
  rw [shiftIn, Function.update_self]
  by_cases some : 0 < nsrblocks w
  · rw [shiftIn_loop d (by omega), if_neg (by omega)]
  · have none : nsrblocks w - 1 = 0 := by omega
    rw [none]
    rfl

theorem shiftIn_succ (d : ℕ → BitVec w) (bit : Int) {i : ℕ} (inside : i + 1 < nsrblocks w) :
    shiftIn d bit (i + 1) = shifted d (i + 1) := by
  rw [shiftIn, Function.update_of_ne (Nat.succ_ne_zero i), shiftIn_loop d (by omega),
    if_pos (by omega)]

/-- The register shows the bits that have entered, newest first: that of age `k` is at the place
`k % w` from the top of word `k / w`. -/
def Shows (past : List Bool) (d : ℕ → BitVec w) : Prop :=
  ∀ k < nsrblocks w * w, (d (k / w)).getLsbD (w - 1 - k % w) = past.getD k false

theorem shows_zero : Shows [] (fun _ => 0#w) := by
  intro k _
  simp

theorem getLsbD_ofInt_bit (some : 0 < w) (bit : Bool) :
    (BitVec.ofInt w bit.toNat).getLsbD 0 = bit := by
  rw [BitVec.ofInt_natCast, BitVec.getLsbD_ofNat]
  cases bit <;> simp [some]

theorem Shows.shiftIn {past : List Bool} {d : ℕ → BitVec w} (shows : Shows past d) (some : 0 < w)
    (bit : Bool) : Shows (bit :: past) (shiftIn d bit.toNat) := by
  intro k inside
  have word : k % w < w := Nat.mod_lt k some
  cases k with
  | zero =>
    rw [Nat.zero_div, Nat.zero_mod, shiftIn_zero, BitVec.getLsbD_or, BitVec.getLsbD_shiftLeft,
      BitVec.getLsbD_ushiftRight, Nat.sub_zero, Nat.sub_self, getLsbD_ofInt_bit some]
    have beyond : (d 0).getLsbD (1 + (w - 1)) = false := BitVec.getLsbD_of_ge _ _ (by omega)
    simp [beyond, some]
  | succ k =>
    have before := shows k (Nat.lt_of_succ_lt inside)
    have division := Nat.div_add_mod k w
    rw [List.getD_cons_succ, ← before]
    by_cases border : k % w = w - 1
    · -- from the bottom of a word to the top of the next
      have next : (k + 1) / w = k / w + 1 ∧ (k + 1) % w = 0 := by
        have whole : k + 1 = w * (k / w + 1) := by
          rw [Nat.mul_succ]
          omega
        rw [whole, Nat.mul_div_cancel_left _ some, Nat.mul_mod_right]
        exact ⟨rfl, rfl⟩
      have block : k / w + 1 < nsrblocks w := by
        rw [← next.1]
        exact Nat.div_lt_of_lt_mul ((Nat.mul_comm _ _).trans_gt inside)
      have beyond : (d (k / w + 1)).getLsbD (1 + (w - 1)) = false :=
        BitVec.getLsbD_of_ge _ _ (by omega)
      rw [next.1, next.2, shiftIn_succ d _ block, shifted, Nat.add_sub_cancel, BitVec.getLsbD_or,
        BitVec.getLsbD_shiftLeft, BitVec.getLsbD_ushiftRight, Nat.sub_zero, beyond, Nat.sub_self,
        BitVec.getLsbD_and, border, Nat.sub_self]
      simp [some]
    · have inner : k % w + 1 < w := by
        have small := Nat.mod_lt k some
        omega
      have next : (k + 1) / w = k / w ∧ (k + 1) % w = k % w + 1 := by
        have split : k + 1 = k % w + 1 + w * (k / w) := by omega
        rw [split, Nat.add_mul_div_left _ _ some, Nat.add_mul_mod_self_left, Nat.div_eq_of_lt inner,
          Nat.mod_eq_of_lt inner]
        exact ⟨Nat.zero_add _, rfl⟩
      have place : 1 + (w - 1 - (k % w + 1)) = w - 1 - k % w := by omega
      have below : w - 1 - (k % w + 1) < w - 1 := by omega
      rw [next.1, next.2]
      rcases Nat.eq_zero_or_pos (k / w) with first | later
      · rw [first, shiftIn_zero, BitVec.getLsbD_or, BitVec.getLsbD_shiftLeft,
          BitVec.getLsbD_ushiftRight, place]
        simp [below]
      · have block : k / w < nsrblocks w := by
          rw [← next.1]
          exact Nat.div_lt_of_lt_mul ((Nat.mul_comm _ _).trans_gt inside)
        obtain ⟨i, same⟩ : ∃ i, k / w = i + 1 := ⟨k / w - 1, by omega⟩
        rw [same] at block ⊢
        rw [shiftIn_succ d _ block, shifted, BitVec.getLsbD_or, BitVec.getLsbD_shiftLeft,
          BitVec.getLsbD_ushiftRight, place]
        simp [below]

end SlidingCorrelator

/-! ## The count of bits -/

section PopulationCount

variable {w : ℕ}

/-- How many of the `n` bits from place `lo` on are set. -/
def ones (v : BitVec w) (lo n : ℕ) : ℕ := (List.range n).countP fun i => v.getLsbD (lo + i)

theorem ones_add (v : BitVec w) (lo a b : ℕ) :
    ones v lo (a + b) = ones v lo a + ones v (lo + a) b := by
  rw [ones, List.range_add, List.countP_append, List.countP_map]
  simp only [ones, Function.comp_def, Nat.add_assoc]

theorem ones_le (v : BitVec w) (lo n : ℕ) : ones v lo n ≤ n :=
  List.countP_le_length.trans_eq List.length_range

variable {c : ℕ}

theorem toNat_mask (wide : 32 ≤ w) (small : c < 2 ^ 32) : (BitVec.ofNat w c).toNat = c := by
  rw [BitVec.toNat_ofNat]
  exact Nat.mod_eq_of_lt (small.trans_le (Nat.pow_le_pow_right (by decide) wide))

theorem and_eq_mod_and {k : ℕ} (small : c < 2 ^ k) (x : ℕ) : x &&& c = x % 2 ^ k &&& c := by
  have below : x &&& c < 2 ^ k := Nat.and_lt_two_pow x small
  rw [← Nat.mod_eq_of_lt below, Nat.and_mod_two_pow, Nat.mod_eq_of_lt small]

theorem toNat_byteCounts (wide : 32 ≤ w) (v : BitVec w) :
    let u := v - ((v >>> 1) &&& 0x55555555#w)
    let x := (u &&& 0x33333333#w) + ((u >>> 2) &&& 0x33333333#w)
    ((x + (x >>> 4)) &&& 0x0f0f0f0f#w).toNat = byteCounts 4 (v.toNat % 2 ^ 32) := by
  intro u x
  have word : 2 ^ 32 ≤ 2 ^ w := Nat.pow_le_pow_right (by decide) wide
  have first : u.toNat % 2 ^ 32 = addNeighbours 1 16 (v.toNat % 2 ^ 32) := by
    have half : ((v >>> 1) &&& 0x55555555#w).toNat = v.toNat >>> 1 &&& 0x55555555 := by
      rw [BitVec.toNat_and, BitVec.toNat_ushiftRight, toNat_mask wide (by decide)]
    have low : v.toNat >>> 1 &&& 0x55555555 = (v.toNat % 2 ^ 32) >>> 1 &&& 0x55555555 := by
      have same : v.toNat >>> 1 % 2 ^ 31 = (v.toNat % 2 ^ 32) >>> 1 := by
        rw [Nat.shiftRight_eq_div_pow, Nat.shiftRight_eq_div_pow]
        omega
      rw [and_eq_mod_and (k := 31) (by decide), same]
    have less : (v.toNat % 2 ^ 32) >>> 1 &&& 0x55555555 ≤ (v.toNat % 2 ^ 32) >>> 1 :=
      Nat.and_le_left
    have small : (v.toNat % 2 ^ 32) >>> 1 ≤ v.toNat % 2 ^ 32 := by
      rw [Nat.shiftRight_eq_div_pow]
      omega
    have fits : ((v >>> 1) &&& 0x55555555#w) ≤ v := by
      rw [BitVec.le_def, half, low]
      omega
    have sum := sub_and_shift 16 (Nat.mod_lt v.toNat (by decide) : v.toNat % 2 ^ 32 < 2 ^ (2 * 16))
    have mask : lowHalves 1 16 = 0x55555555 := by decide
    rw [mask] at sum
    rw [← sum, BitVec.toNat_sub_of_le fits, half, low]
    omega
  have second : x.toNat = addNeighbours 2 8 (u.toNat % 2 ^ 32) := by
    have bound := addNeighbours_lt (w := 2) (by decide) 8 (u.toNat % 2 ^ 32)
    have shift : u.toNat >>> 2 % 2 ^ 30 = (u.toNat % 2 ^ 32) >>> 2 := by
      rw [Nat.shiftRight_eq_div_pow, Nat.shiftRight_eq_div_pow]
      omega
    have mask : lowHalves 2 8 = 0x33333333 := by decide
    have sum : (u.toNat &&& 0x33333333) + (u.toNat >>> 2 &&& 0x33333333) =
        addNeighbours 2 8 (u.toNat % 2 ^ 32) := by
      rw [addNeighbours, mask, and_eq_mod_and (k := 32) (by decide) u.toNat,
        and_eq_mod_and (k := 30) (by decide) (u.toNat >>> 2), shift]
    rw [BitVec.toNat_add, BitVec.toNat_and, BitVec.toNat_and, BitVec.toNat_ushiftRight,
      toNat_mask wide (by decide), sum, Nat.mod_eq_of_lt (bound.trans_le word)]
  have third : ((x + (x >>> 4)) &&& 0x0f0f0f0f#w).toNat = addNeighbours 4 4 x.toNat := by
    have bound := addNeighbours_lt (w := 2) (by decide) 8 (u.toNat % 2 ^ 32)
    rw [← second] at bound
    have fits : ∀ i, x.toNat / 2 ^ (4 * i) % 2 ^ 4 + x.toNat / 2 ^ (4 * (i + 1)) % 2 ^ 4 <
        2 ^ 4 := by
      intro i
      have one := addNeighbours_field_lt (w := 2) (by decide) 8 (u.toNat % 2 ^ 32) i
      have other := addNeighbours_field_lt (w := 2) (by decide) 8 (u.toNat % 2 ^ 32) (i + 1)
      rw [show 2 * 2 = 4 from rfl] at one other
      rw [second]
      omega
    have mask : lowHalves 4 4 = 0x0f0f0f0f := by decide
    have sum := and_add_shift 4 x.toNat fits
    rw [mask] at sum
    have low : x.toNat + x.toNat >>> 4 &&& 0x0f0f0f0f =
        (x.toNat + x.toNat >>> 4) % 2 ^ w &&& 0x0f0f0f0f := by
      exact and_eq_mod_and (by omega) _
    rw [BitVec.toNat_and, BitVec.toNat_add, BitVec.toNat_ushiftRight, toNat_mask wide (by decide),
      ← low, sum]
  rw [third, second, first, byteCounts]

theorem byteCounts_eq (v : BitVec w) :
    byteCounts 4 (v.toNat % 2 ^ 32) =
      ones v 0 8 + 2 ^ 8 * (ones v 8 8 + 2 ^ 8 * (ones v 16 8 + 2 ^ 8 * ones v 24 8)) := by
  have bits : ∀ k ≤ 24, (List.range 8).countP (v.toNat % 2 ^ 32 / 2 ^ k).testBit = ones v k 8 := by
    intro k within
    apply List.countP_congr
    intro i inside
    have small := List.mem_range.mp inside
    have place : i + k < 32 := by omega
    rw [Nat.testBit_div_two_pow, Nat.testBit_mod_two_pow, decide_eq_true place, Bool.true_and,
      BitVec.testBit_toNat, Nat.add_comm]
  have none : ∀ x, byteCounts 0 x = 0 := by
    intro x
    simp [byteCounts, addNeighbours, lowHalves]
  have first := bits 0 (by decide)
  have second := bits 8 (by decide)
  have third := bits 16 (by decide)
  have fourth := bits 24 (by decide)
  rw [pow_zero, Nat.div_one] at first
  rw [byteCounts_succ, byteCounts_succ, byteCounts_succ, byteCounts_succ, none, first,
    Nat.div_div_eq_div_mul, ← pow_add, second, Nat.div_div_eq_div_mul, ← pow_add, third, fourth,
    Nat.mul_zero, Nat.add_zero]

theorem mul_counts (a b c d : ℕ) :
    (a + 2 ^ 8 * (b + 2 ^ 8 * (c + 2 ^ 8 * d))) * 0x01010101 =
      (a + 2 ^ 8 * (a + b) + 2 ^ 16 * (a + b + c)) + 2 ^ 24 * ((a + b + c + d) +
        2 ^ 8 * ((b + c + d) + 2 ^ 8 * ((c + d) + 2 ^ 8 * d))) := by
  ring

theorem mul_counts_32 {a b d : ℕ} (first : a ≤ 8) (second : b ≤ 8) (third : c ≤ 8)
    (fourth : d ≤ 8) : (a + 2 ^ 8 * (b + 2 ^ 8 * (c + 2 ^ 8 * d))) * 0x01010101 % 2 ^ 32 / 2 ^ 24 =
      a + b + c + d := by
  have low : a + 2 ^ 8 * (a + b) + 2 ^ 16 * (a + b + c) < 2 ^ 24 := by omega
  have count : a + b + c + d < 2 ^ 8 := by omega
  rw [mul_counts, show 2 ^ 32 = 2 ^ 24 * 2 ^ 8 from rfl, Nat.mod_mul_right_div_self,
    Nat.add_mul_div_left _ _ (by decide), Nat.div_eq_of_lt low, Nat.zero_add,
    Nat.add_mul_mod_self_left, Nat.mod_eq_of_lt count]

theorem mul_counts_64 {a b d : ℕ} (first : a ≤ 8) (second : b ≤ 8) (third : c ≤ 8)
    (fourth : d ≤ 8) : (a + 2 ^ 8 * (b + 2 ^ 8 * (c + 2 ^ 8 * d))) * 0x01010101 % 2 ^ 64 / 2 ^ 24 =
      (a + b + c + d) + 2 ^ 8 * (b + c + d) + 2 ^ 16 * (c + d) + 2 ^ 24 * d := by
  have low : a + 2 ^ 8 * (a + b) + 2 ^ 16 * (a + b + c) < 2 ^ 24 := by omega
  have whole : (a + 2 ^ 8 * (b + 2 ^ 8 * (c + 2 ^ 8 * d))) * 0x01010101 < 2 ^ 64 := by omega
  rw [Nat.mod_eq_of_lt whole, mul_counts, Nat.add_mul_div_left _ _ (by decide),
    Nat.div_eq_of_lt low]
  ring

theorem popcount32_of_32 (v : BitVec 32) : popcount32 v = ones v 0 32 := by
  have counts := toNat_byteCounts le_rfl v
  have bytes : ones v 0 32 = ones v 0 8 + ones v 8 8 + ones v 16 8 + ones v 24 8 := by
    rw [← ones_add v 0 8 8, ← ones_add v 0 16 8, ← ones_add v 0 24 8]
  have whole := ones_le v 0 32
  have product := mul_counts_32 (ones_le v 0 8) (ones_le v 8 8) (ones_le v 16 8) (ones_le v 24 8)
  rw [byteCounts_eq] at counts
  rw [← bytes, ← counts] at product
  rw [popcount32]
  rw [BitVec.setWidth_eq, BitVec.toInt_eq_toNat_of_lt, BitVec.toNat_ushiftRight, BitVec.toNat_mul,
    toNat_mask le_rfl (by decide), Nat.shiftRight_eq_div_pow, product]
  rw [BitVec.toNat_ushiftRight, BitVec.toNat_mul, toNat_mask le_rfl (by decide),
    Nat.shiftRight_eq_div_pow, product]
  omega

/-- The high half is not counted, and what the product has above the count is not dropped. -/
theorem popcount32_of_64 (v : BitVec 64) : popcount32 v =
    (ones v 0 32 + 2 ^ 8 * ones v 8 24 + 2 ^ 16 * ones v 16 16 + 2 ^ 24 * ones v 24 8 : ℕ) := by
  have counts := toNat_byteCounts (by decide) v
  have product := mul_counts_64 (ones_le v 0 8) (ones_le v 8 8) (ones_le v 16 8) (ones_le v 24 8)
  rw [byteCounts_eq] at counts
  rw [← ones_add v 8 8 8, ← ones_add v 16 8 8, ← ones_add v 8 16 8, ← ones_add v 0 8 8,
    ← ones_add v 0 16 8, ← ones_add v 0 24 8, ← counts] at product
  have bound : ones v 0 32 + 2 ^ 8 * ones v 8 24 + 2 ^ 16 * ones v 16 16 +
      2 ^ 24 * ones v 24 8 < 2 ^ 28 := by
    have first := ones_le v 0 32
    have second := ones_le v 8 24
    have third := ones_le v 16 16
    have fourth := ones_le v 24 8
    omega
  rw [popcount32]
  rw [BitVec.toInt_eq_toNat_of_lt, BitVec.toNat_setWidth, BitVec.toNat_ushiftRight,
    BitVec.toNat_mul, toNat_mask (by decide) (by decide), Nat.shiftRight_eq_div_pow, product,
    Nat.mod_eq_of_lt (bound.trans (by decide))]
  rw [BitVec.toNat_setWidth, BitVec.toNat_ushiftRight, BitVec.toNat_mul,
    toNat_mask (by decide) (by decide), Nat.shiftRight_eq_div_pow, product,
    Nat.mod_eq_of_lt (bound.trans (by decide))]
  omega

end PopulationCount

/-! ## What the block is for -/

namespace SlidingCorrelator

variable {w : ℕ}

/-- The PN sequence, its last bit first. -/
def pnNewestFirst : List Bool := (atscPn511.map (· == 1)).reverse

/-- The bit of age `k` differs from the PN sequence. Before the first bit there are zeros. -/
def wrong (past : List Bool) (k : ℕ) : Bool := past.getD k false != pnNewestFirst.getD k false

/-- The number of places in which the last 511 bits differ from the PN sequence. -/
def wrongBits (past : List Bool) : ℕ := (List.range 511).countP (wrong past)

/-- The number of these with a place in their words, counted from the top, from `first` to
`last`. -/
def wrongIn (w : ℕ) (past : List Bool) (first last : ℕ) : ℕ :=
  (List.range 511).countP fun k => wrong past k && decide (first ≤ k % w ∧ k % w < last)

/-- Where the count of 32 bits in words of 64 comes to the right number: nothing is wrong but in the
lowest byte of a word, or 256 wrong bits are made up for by one that counts 256 times too often. -/
def Spared (past : List Bool) : Prop :=
  wrongIn 64 past 0 56 = 0 ∨
    wrongIn 64 past 0 32 = 256 ∧ wrongIn 64 past 32 48 = 0 ∧ wrongIn 64 past 48 56 = 1

theorem wrongBits_le (past : List Bool) : wrongBits past ≤ 511 :=
  List.countP_le_length.trans_eq List.length_range

/-! ## The registers of the correlator -/

theorem Shows.foldl {past : List Bool} {d : ℕ → BitVec w} (shows : Shows past d) (some : 0 < w)
    {bits : List UInt8} (binary : ∀ bit ∈ bits, bit = 0 ∨ bit = 1) :
    Shows ((bits.map (· == 1)).reverse ++ past)
      (bits.foldl (fun d bit => SlidingCorrelator.shiftIn d bit.toNat) d) := by
  induction bits generalizing past d with
  | nil => exact shows
  | cons bit bits ih =>
    have value : bit.toNat = (bit == 1).toNat := by
      rcases binary bit List.mem_cons_self with rfl | rfl <;> rfl
    have rest := ih (shows.shiftIn some (bit == 1)) fun bit' member =>
      binary bit' (List.mem_cons_of_mem bit member)
    rw [List.map_cons, List.reverse_cons, List.append_assoc, List.singleton_append, List.foldl_cons,
      value]
    exact rest

theorem binary_atscPn511 : ∀ bit ∈ atscPn511, bit = 0 ∨ bit = 1 := by
  have all : atscPn511.all (fun bit => bit == 0 || bit == 1) = true := by decide +kernel
  simpa using all

theorem shows_mask (some : 0 < w) : Shows pnNewestFirst (make (w := w)).mask := by
  have shows := (shows_zero (w := w)).foldl some binary_atscPn511
  rw [List.append_nil] at shows
  simp only [make, pnNewestFirst]
  exact shows

theorem shows_ones (some : 0 < w) (count : ℕ) : Shows (List.replicate count true ++ [false])
    ((List.range count).foldl (fun d _ => SlidingCorrelator.shiftIn d 1)
      (SlidingCorrelator.shiftIn (fun _ => 0#w) 0)) := by
  induction count with
  | zero => exact shows_zero.shiftIn some false
  | succ count ih =>
    rw [List.range_succ, List.foldl_append, List.replicate_succ, List.cons_append]
    exact ih.shiftIn some true

theorem shows_and_mask (some : 0 < w) :
    Shows (List.replicate 511 true ++ [false]) (make (w := w)).and_mask := by
  have shows := shows_ones some 511
  simp only [make]
  exact shows

/-- The words that `input_bit` counts the bits of. -/
def differences (c : SlidingCorrelator w) (input : ℕ → BitVec w) (i : ℕ) : BitVec w :=
  (input i ^^^ c.mask i) &&& c.and_mask i

theorem getD_ones (count k : ℕ) :
    (List.replicate count true ++ [false]).getD k false = decide (k < count) := by
  rw [List.getD_eq_getElem?_getD, List.getElem?_append, List.length_replicate]
  by_cases early : k < count
  · rw [if_pos early, List.getElem?_replicate, if_pos early, decide_eq_true early]
    rfl
  · rw [if_neg early, decide_eq_false early]
    cases k - count <;> rfl

variable {past : List Bool} {input : ℕ → BitVec w} {c : SlidingCorrelator w}

theorem getLsbD_differences (whole : nsrblocks w * w = 512) (shows : Shows past input) {k : ℕ}
    (inside : k < 512) :
    (differences make input (k / w)).getLsbD (w - 1 - k % w) =
      (wrong past k && decide (k < 511)) := by
  have some : 0 < w := by
    rcases Nat.eq_zero_or_pos w with rfl | positive
    · exact absurd whole (by decide)
    · exact positive
  rw [← whole] at inside
  rw [differences, BitVec.getLsbD_and, BitVec.getLsbD_xor, shows k inside,
    shows_mask some k inside, shows_and_mask some k inside, getD_ones, wrong]

/-! ## The sum over the words -/

theorem countP_blocks (p : ℕ → Bool) (n w : ℕ) : (List.range (n * w)).countP p =
    ∑ i ∈ Finset.range n, (List.range w).countP fun r => p (i * w + r) := by
  induction n with
  | zero => simp
  | succ n ih =>
    rw [Nat.succ_mul, List.range_add, List.countP_append, ih, List.countP_map,
      Finset.sum_range_succ]
    rfl

theorem countP_window (q : ℕ → Bool) {lo n : ℕ} (within : lo + n ≤ w) :
    (List.range w).countP (fun r => q (w - 1 - r) && decide (w - lo - n ≤ r ∧ r < w - lo)) =
      (List.range n).countP fun i => q (lo + i) := by
  have reversed : (List.range w).countP
      (fun r => q (w - 1 - r) && decide (w - lo - n ≤ r ∧ r < w - lo)) =
      (List.range w).countP fun b => q b && decide (lo ≤ b ∧ b < lo + n) := by
    have down : (List.range w).reverse = (List.range w).map (w - 1 - ·) := by
      rw [List.range_eq_range', List.reverse_range', Nat.zero_add, List.range_eq_range']
    rw [← List.countP_reverse (l := List.range w) (p := fun b => q b && _), down, List.countP_map]
    apply List.countP_congr
    intro r inside
    have less := List.mem_range.mp inside
    have same : (w - lo - n ≤ r ∧ r < w - lo) ↔ (lo ≤ w - 1 - r ∧ w - 1 - r < lo + n) := by omega
    simp only [Function.comp_apply, same]
  obtain ⟨rest, rfl⟩ := Nat.exists_eq_add_of_le within
  have below : (List.range lo).countP (fun b => q b && decide (lo ≤ b ∧ b < lo + n)) = 0 := by
    apply List.countP_eq_zero.mpr
    intro b inside
    have less := List.mem_range.mp inside
    simp
    omega
  have above : (List.range rest).countP
      (fun b => q (lo + n + b) && decide (lo ≤ lo + n + b ∧ lo + n + b < lo + n)) = 0 := by
    apply List.countP_eq_zero.mpr
    intro b _
    simp
  rw [reversed, List.range_add, List.range_add, List.countP_append, List.countP_append,
    List.countP_map, List.countP_map, below, Nat.zero_add, Function.comp_def, Function.comp_def,
    above, Nat.add_zero]
  apply List.countP_congr
  intro i inside
  have less := List.mem_range.mp inside
  simp [less]

theorem sum_ones (whole : nsrblocks w * w = 512) (shows : Shows past input) {lo n : ℕ}
    (within : lo + n ≤ w) :
    ∑ i ∈ Finset.range (nsrblocks w), ones (differences make input i) lo n =
      wrongIn w past (w - lo - n) (w - lo) := by
  have last : wrongIn w past (w - lo - n) (w - lo) = (List.range (nsrblocks w * w)).countP
      fun k => (wrong past k && decide (k < 511)) &&
        decide (w - lo - n ≤ k % w ∧ k % w < w - lo) := by
    rw [whole, show 512 = 511 + 1 from rfl, List.range_succ, List.countP_append, wrongIn]
    rw [List.countP_singleton, decide_eq_false (Nat.lt_irrefl 511), Bool.and_false, Bool.false_and,
      if_neg Bool.false_ne_true, Nat.add_zero]
    apply List.countP_congr
    intro k inside
    rw [decide_eq_true (List.mem_range.mp inside), Bool.and_true]
  rw [last, countP_blocks]
  apply Finset.sum_congr rfl
  intro i block
  rw [ones, ← countP_window _ within]
  apply List.countP_congr
  intro r inside
  have less := List.mem_range.mp inside
  have some : 0 < w := Nat.zero_lt_of_lt less
  have place : (i * w + r) / w = i ∧ (i * w + r) % w = r := by
    rw [Nat.add_comm, Nat.add_mul_div_right _ _ some, Nat.add_mul_mod_self_right,
      Nat.div_eq_of_lt less, Nat.mod_eq_of_lt less]
    exact ⟨Nat.zero_add _, rfl⟩
  have early : i * w + r < 512 := by
    have next := Nat.mul_le_mul_right w (Nat.succ_le_of_lt (Finset.mem_range.mp block))
    rw [Nat.succ_mul] at next
    omega
  have bit := getLsbD_differences whole shows early
  rw [place.1, place.2] at bit
  rw [bit, place.2]

theorem wrongIn_add (w : ℕ) (past : List Bool) {a b c : ℕ} (first : a ≤ b) (second : b ≤ c) :
    wrongIn w past a b + wrongIn w past b c = wrongIn w past a c := by
  simp only [wrongIn]
  induction List.range 511 with
  | nil => rfl
  | cons k l ih =>
    rw [List.countP_cons, List.countP_cons, List.countP_cons, ← ih]
    cases wrong past k with
    | false => simp
    | true =>
      simp only [Bool.true_and, decide_eq_true_eq]
      split <;> split <;> split <;> omega

theorem wrongIn_whole (some : 0 < w) (past : List Bool) : wrongIn w past 0 w = wrongBits past := by
  apply List.countP_congr
  intro k _
  simp [Nat.mod_lt k some]

/-! ## What `input_bit` returns -/

theorem foldl_add (f : ℕ → Int) (n : ℕ) :
    (List.range n).foldl (fun count i => count + f i) 0 = ∑ i ∈ Finset.range n, f i := by
  induction n with
  | zero => rfl
  | succ n ih => rw [List.range_succ, List.foldl_append, ih, Finset.sum_range_succ]; rfl

/-- A correlator after some bits, newest first. -/
structure Correlates (past : List Bool) (c : SlidingCorrelator w) : Prop where
  mask : c.mask = (make (w := w)).mask
  and_mask : c.and_mask = (make (w := w)).and_mask
  input : Shows past c.input

theorem correlates_make : Correlates [] (make (w := w)) := ⟨rfl, rfl, shows_zero⟩

theorem Correlates.reset (correlates : Correlates past c) : Correlates [] c.reset :=
  ⟨correlates.mask, correlates.and_mask, shows_zero⟩

theorem Correlates.inputBit (correlates : Correlates past c) (some : 0 < w) (bit : Bool) :
    Correlates (bit :: past) (c.inputBit bit.toNat).2 :=
  ⟨correlates.mask, correlates.and_mask, correlates.input.shiftIn some bit⟩

theorem Correlates.count (correlates : Correlates past c) (bit : Bool) : (c.inputBit bit.toNat).1 =
      ∑ i ∈ Finset.range (nsrblocks w),
        popcount32 (differences make (SlidingCorrelator.shiftIn c.input bit.toNat) i) := by
  rw [SlidingCorrelator.inputBit, foldl_add]
  simp only [differences, correlates.mask, correlates.and_mask]

theorem Correlates.count_32 {c : SlidingCorrelator 32}
    (correlates : Correlates past c) (bit : Bool) :
    (c.inputBit bit.toNat).1 = wrongBits (bit :: past) := by
  have shows := correlates.input.shiftIn (by decide) bit
  have sum := sum_ones rfl shows (show 0 + 32 ≤ 32 by decide)
  rw [wrongIn_whole (by decide)] at sum
  rw [correlates.count bit, ← sum, Nat.cast_sum]
  exact Finset.sum_congr rfl fun i _ => popcount32_of_32 _

variable {c : SlidingCorrelator 64}

theorem Correlates.count_64
    (correlates : Correlates past c) (bit : Bool) : (c.inputBit bit.toNat).1 =
      (wrongIn 64 (bit :: past) 32 64 + 2 ^ 8 * wrongIn 64 (bit :: past) 32 56 +
        2 ^ 16 * wrongIn 64 (bit :: past) 32 48 + 2 ^ 24 * wrongIn 64 (bit :: past) 32 40 : ℕ) := by
  have shows := correlates.input.shiftIn (by decide) bit
  have first := sum_ones rfl shows (show 0 + 32 ≤ 64 by decide)
  have second := sum_ones rfl shows (show 8 + 24 ≤ 64 by decide)
  have third := sum_ones rfl shows (show 16 + 16 ≤ 64 by decide)
  have fourth := sum_ones rfl shows (show 24 + 8 ≤ 64 by decide)
  rw [correlates.count bit, ← first, ← second, ← third, ← fourth, Finset.mul_sum, Finset.mul_sum,
    Finset.mul_sum, ← Finset.sum_add_distrib, ← Finset.sum_add_distrib, ← Finset.sum_add_distrib,
    Nat.cast_sum]
  exact Finset.sum_congr rfl fun i _ => popcount32_of_64 _

theorem Correlates.high_le (correlates : Correlates past c) : wrongIn 64 past 0 32 ≤ 256 := by
  rw [← sum_ones rfl correlates.input (show 32 + 32 ≤ 64 by decide)]
  exact Finset.sum_le_card_nsmul _ _ 32 fun i _ => ones_le _ 32 32

theorem Correlates.count_64_iff (correlates : Correlates past c) (bit : Bool) :
    (c.inputBit bit.toNat).1 = wrongBits (bit :: past) ↔ Spared (bit :: past) := by
  have high := (correlates.inputBit (by decide) bit).high_le
  have whole := wrongIn_whole (w := 64) (by decide) (bit :: past)
  have a := wrongIn_add 64 (bit :: past) (show 0 ≤ 32 by decide) (show 32 ≤ 64 by decide)
  have b := wrongIn_add 64 (bit :: past) (show 0 ≤ 32 by decide) (show 32 ≤ 56 by decide)
  have c := wrongIn_add 64 (bit :: past) (show 32 ≤ 48 by decide) (show 48 ≤ 56 by decide)
  have d := wrongIn_add 64 (bit :: past) (show 32 ≤ 40 by decide) (show 40 ≤ 48 by decide)
  rw [correlates.count_64 bit, Int.natCast_inj, Spared]
  constructor
  · intro same
    have none : wrongIn 64 (bit :: past) 32 40 = 0 := by omega
    have none' : wrongIn 64 (bit :: past) 40 48 = 0 := by omega
    omega
  · omega

/-- What is done with a correlator. -/
inductive Call where
  | inputBit (bit : Bool)
  | reset
  deriving DecidableEq, Repr

def call (c : SlidingCorrelator w) : Call → SlidingCorrelator w
  | .inputBit bit => (c.inputBit bit.toNat).2
  | .reset => c.reset

/-- The bits since the start or the last reset, newest first. -/
def received : List Call → List Bool :=
  List.foldl (fun past call => match call with
    | .inputBit bit => bit :: past
    | .reset => []) []

theorem correlates_calls (some : 0 < w) (calls : List Call) :
    Correlates (received calls) (calls.foldl call (make (w := w))) := by
  induction calls using List.reverseRecOn with
  | nil => exact correlates_make
  | append_singleton calls next ih =>
    rw [received, List.foldl_append, List.foldl_append]
    cases next with
    | inputBit bit => exact ih.inputBit some bit
    | reset => exact ih.reset

/-- After any calls, `input_bit` returns the number of wrong bits, if and only if the words have 32
bits or what the count does in words of 64 bits comes to the same. -/
theorem inputBit_iff (long : UnsignedLong) (calls : List Call) (bit : Bool) :
    (((calls.foldl call (make (w := long.srblockBitsize))).inputBit bit.toNat).1 =
        wrongBits (bit :: received calls) ∧ wrongBits (bit :: received calls) ≤ 511) ↔
      long = .bits32 ∨ Spared (bit :: received calls) := by
  rw [and_iff_left (wrongBits_le _)]
  cases long with
  | bits32 => exact iff_of_true ((correlates_calls (by decide) calls).count_32 bit) (Or.inl rfl)
  | bits64 =>
    refine ((correlates_calls (by decide) calls).count_64_iff bit).trans ?_
    simp

/-- Zeros do not match the PN sequence, and with words of 64 bits the first result is not the number
of places. -/
theorem inputBit_zero : ((make (w := UnsignedLong.bits64.srblockBitsize)).inputBit 0).1 ≠
    wrongBits [false] := by
  intro same
  have here : wrong [false] 33 = true := by decide +kernel
  have counted : ∀ first last, first ≤ 33 → 33 < last → wrongIn 64 [false] first last ≠ 0 := by
    intro first last least less none
    have never := List.countP_eq_zero.mp none 33 (List.mem_range.mpr (by decide))
    simp [here] at never
    omega
  rcases ((correlates_make (w := 64)).count_64_iff false).mp same with none | ⟨-, none, -⟩
  · exact counted 0 56 (by decide) (by decide) none
  · exact counted 32 48 (by decide) (by decide) none

end SlidingCorrelator

end GnuRadio
