import GnuRadio.Misc.PopulationCount

/-!
# Counting bits

`gr_count_bits.cc`. The functions for 32 and 64 bits add neighbouring fields in
parallel, and what they return is the number of bits set.
-/

namespace GnuRadio

/-- `gr_count_bits32` (`gr_count_bits.cc:76-84`). -/
def grCountBits32 (x : UInt32) : UInt32 :=
  let res : UInt32 := (x &&& (0x55555555 : UInt32)) + ((x >>> 1) &&& (0x55555555 : UInt32))
  let res : UInt32 := (res &&& (0x33333333 : UInt32)) + ((res >>> 2) &&& (0x33333333 : UInt32))
  let res : UInt32 := (res &&& (0x0F0F0F0F : UInt32)) + ((res >>> 4) &&& (0x0F0F0F0F : UInt32))
  let res : UInt32 := (res &&& (0x00FF00FF : UInt32)) + ((res >>> 8) &&& (0x00FF00FF : UInt32))
  (res &&& (0x0000FFFF : UInt32)) + ((res >>> 16) &&& (0x0000FFFF : UInt32))

/-- `gr_count_bits64` (`gr_count_bits.cc:90-94`). -/
def grCountBits64 (x : UInt64) : UInt32 :=
  grCountBits32 ((x >>> 32) &&& 0xffffffff).toUInt32 + grCountBits32 (x &&& 0xffffffff).toUInt32

theorem toNat_addNeighbours {w n : Nat} {shift mask : UInt32} (some : 0 < w) (whole : 2 * w * n = 32)
    (amount : shift.toNat = w) (half : mask.toNat = lowHalves w n) (x : UInt32) :
    ((x &&& mask) + ((x >>> shift) &&& mask)).toNat = addNeighbours w n x.toNat := by
  have bound := addNeighbours_lt some n x.toNat
  rw [whole] at bound
  have inside : w < 32 := by
    rcases n with - | n
    · omega
    · rw [Nat.mul_succ] at whole
      omega
  rw [UInt32.toNat_add, UInt32.toNat_and, UInt32.toNat_and, UInt32.toNat_shiftRight, amount,
    Nat.mod_eq_of_lt inside, half, ← addNeighbours, Nat.mod_eq_of_lt bound]

theorem toNat_grCountBits32 (x : UInt32) :
    (grCountBits32 x).toNat = (List.range 32).countP x.toNat.testBit := by
  have small := (grCountBits32 x).toNat_lt
  have last : (grCountBits32 x).toNat = fieldSum 32 1 (grCountBits32 x).toNat := by
    simp [fieldSum]
  rw [← fieldSum_one, last]
  unfold grCountBits32
  dsimp only
  rw [toNat_addNeighbours (w := 16) (n := 1) (by decide) rfl rfl rfl]
  rw [fieldSum_addNeighbours (w := 16) (by decide) 1]
  rw [toNat_addNeighbours (w := 8) (n := 2) (by decide) rfl rfl rfl]
  rw [fieldSum_addNeighbours (w := 8) (by decide) 2]
  rw [toNat_addNeighbours (w := 4) (n := 4) (by decide) rfl rfl rfl]
  rw [fieldSum_addNeighbours (w := 4) (by decide) 4]
  rw [toNat_addNeighbours (w := 2) (n := 8) (by decide) rfl rfl rfl]
  rw [fieldSum_addNeighbours (w := 2) (by decide) 8]
  rw [toNat_addNeighbours (w := 1) (n := 16) (by decide) rfl rfl rfl]
  rw [fieldSum_addNeighbours (w := 1) (by decide) 16]

theorem toNat_lowWord (x : UInt64) : (x &&& 0xffffffff).toUInt32.toNat = x.toNat % 2 ^ 32 := by
  have mask : (0xffffffff : UInt64).toNat = 2 ^ 32 - 1 := rfl
  rw [UInt64.toNat_toUInt32, UInt64.toNat_and, mask, Nat.and_two_pow_sub_one_eq_mod, Nat.mod_mod]

theorem toNat_grCountBits64 (x : UInt64) :
    (grCountBits64 x).toNat = (List.range 64).countP x.toNat.testBit := by
  have high : (x >>> 32).toNat % 2 ^ 32 = x.toNat / 2 ^ 32 := by
    have word := x.toNat_lt
    have shifted : (x >>> 32).toNat = x.toNat / 2 ^ 32 := Nat.shiftRight_eq_div_pow _ _
    omega
  have lowBits : (List.range 32).countP (x.toNat % 2 ^ 32).testBit =
      (List.range 32).countP x.toNat.testBit := by
    apply List.countP_congr
    intro i member
    rw [Nat.testBit_mod_two_pow, decide_eq_true (List.mem_range.mp member), Bool.true_and]
  have highBits : (List.range 32).countP (x.toNat / 2 ^ 32).testBit =
      ((List.range 32).map (32 + ·)).countP x.toNat.testBit := by
    rw [List.countP_map]
    apply List.countP_congr
    intro i _
    rw [Nat.testBit_div_two_pow, Function.comp_apply, Nat.add_comm]
  have one := (List.range 32).countP_le_length (p := (x.toNat / 2 ^ 32).testBit)
  have other := (List.range 32).countP_le_length (p := (x.toNat % 2 ^ 32).testBit)
  rw [List.length_range] at one other
  rw [grCountBits64, UInt32.toNat_add, toNat_grCountBits32, toNat_grCountBits32, toNat_lowWord,
    toNat_lowWord, high, Nat.mod_eq_of_lt (by omega), highBits, lowBits, Nat.add_comm,
    ← List.countP_append,
    ← List.range_add]

end GnuRadio
