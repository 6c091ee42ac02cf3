import GnuRadio.Misc.DigitPolynomial
import GnuRadio.Packet.Crc32
import Mathlib.Algebra.Field.ZMod
import Mathlib.Tactic.LinearCombination

/-!
# What a CRC-32 detects

The table of `gr_update_crc32` holds eight steps of a division of polynomials with coefficients
modulo 2, so the register is a remainder. Two strings with matching CRCs differ by a multiple of
the divisor, and no burst of 32 bits is one.
-/

namespace GnuRadio

open Polynomial

/-- The digit modulo 2 of a bit. -/
def bitDigit (bit : Bool) : ZMod 2 := if bit then 1 else 0

theorem bitDigit_xor (a b : Bool) : bitDigit (a ^^ b) = bitDigit a + bitDigit b := by
  cases a <;> cases b <;> rfl

theorem bitDigit_injective : Function.Injective bitDigit := by
  intro a b equal
  revert equal
  cases a <;> cases b <;> decide

noncomputable def bitsPoly (bits : List Bool) : (ZMod 2)[X] := digitsPoly (bits.map bitDigit)

noncomputable def wordPoly (word : UInt32) : (ZMod 2)[X] := bitsPoly (bitsOf 32 word.toNat)

/-- The polynomial of CRC-32. -/
noncomputable def crcPolynomial : (ZMod 2)[X] :=
  X ^ 32 + X ^ 26 + X ^ 23 + X ^ 22 + X ^ 16 + X ^ 12 + X ^ 11 + X ^ 10 + X ^ 8 + X ^ 7 + X ^ 5 +
    X ^ 4 + X ^ 2 + X + 1

/-- A step of the division by it: a bit meets the top one, and what they add up to decides whether
the divisor is subtracted. -/
def divideBit (crc : UInt32) (bit : Bool) : UInt32 :=
  if crc.toNat.testBit 31 ^^ bit then (crc <<< 1) ^^^ 0x04C11DB7 else crc <<< 1

/-! ## Polynomials of words -/

theorem bitsPoly_append (bits rest : List Bool) :
    bitsPoly (bits ++ rest) = bitsPoly bits * X ^ rest.length + bitsPoly rest := by
  rw [bitsPoly, List.map_append, digitsPoly_append, List.length_map]
  rfl

variable {bits rest : List Bool} {s errors : PyStr}

theorem bitsPoly_inj (same : bits.length = rest.length) (equal : bitsPoly bits = bitsPoly rest) :
    bits = rest := by
  apply List.map_injective_iff.mpr bitDigit_injective
  exact digitsPoly_inj (by simpa using same) equal

theorem bitsPoly_zipWith (same : bits.length = rest.length) :
    bitsPoly (List.zipWith (· ^^ ·) bits rest) = bitsPoly bits + bitsPoly rest := by
  have digits : (List.zipWith (· ^^ ·) bits rest).map bitDigit =
      List.zipWith (· + ·) (bits.map bitDigit) (rest.map bitDigit) := by
    rw [List.map_zipWith, List.zipWith_map]
    simp only [bitDigit_xor]
  rw [bitsPoly, digits, digitsPoly_zipWith (by simpa using same)]
  rfl

theorem bitsPoly_replicate_false (n : ℕ) : bitsPoly (List.replicate n false) = 0 := by
  ext k
  rw [bitsPoly, List.map_replicate, coeff_digitsPoly, List.reverse_replicate, coeff_zero,
    List.getD_eq_getElem?_getD, List.getElem?_replicate]
  split
  · rfl
  · rfl

theorem degree_bitsPoly_lt (bits : List Bool) : (bitsPoly bits).degree < bits.length := by
  have bound := degree_digitsPoly_lt (bits.map bitDigit)
  rwa [List.length_map] at bound

theorem degree_wordPoly_lt (word : UInt32) : (wordPoly word).degree < (32 : ℕ) := by
  have bound := degree_bitsPoly_lt (bitsOf 32 word.toNat)
  rwa [length_bitsOf] at bound

theorem bitsOf_xor (n v w : ℕ) :
    bitsOf n (v ^^^ w) = List.zipWith (· ^^ ·) (bitsOf n v) (bitsOf n w) := by
  induction n with
  | zero => rfl
  | succ n ih => simp [bitsOf_succ, ih]

@[simp] theorem wordPoly_xor (v w : UInt32) : wordPoly (v ^^^ w) = wordPoly v + wordPoly w := by
  rw [wordPoly, UInt32.toNat_xor, bitsOf_xor, bitsPoly_zipWith (by simp)]
  rfl

theorem wordPoly_injective : Function.Injective wordPoly := by
  intro v w equal
  have bits := bitsPoly_inj (by simp) equal
  have numbers := congrArg ofBits bits
  rw [ofBits_bitsOf, ofBits_bitsOf, Nat.mod_eq_of_lt v.toNat_lt,
    Nat.mod_eq_of_lt w.toNat_lt] at numbers
  exact UInt32.toNat_inj.mp numbers

theorem wordPoly_shiftLeft (word : UInt32) {shift : UInt32} {n m : ℕ} (amount : shift.toNat = n)
    (inside : n < 32) (split : m + n = 32) :
    wordPoly (word <<< shift) = bitsPoly (bitsOf m word.toNat) * X ^ n := by
  have zeros : bitsOf n (word.toNat <<< n) = List.replicate n false := by
    apply List.eq_replicate_iff.mpr
    refine ⟨by simp, fun bit member => ?_⟩
    obtain ⟨i, low, rfl⟩ := List.mem_map.mp member
    have below : i < n := by simpa using low
    simp [below]
  rw [wordPoly, UInt32.toNat_shiftLeft, amount, Nat.mod_eq_of_lt inside, bitsOf_mod]
  conv_lhs => rw [← split]
  rw [bitsOf_add, zeros, Nat.shiftLeft_shiftRight, bitsPoly_append, bitsPoly_replicate_false,
    add_zero, List.length_replicate]

theorem wordPoly_split (word : UInt32) {n m : ℕ} (split : n + m = 32) :
    wordPoly word = bitsPoly (bitsOf n (word.toNat >>> m)) * X ^ m +
      bitsPoly (bitsOf m word.toNat) := by
  rw [wordPoly, ← split, bitsOf_add, bitsPoly_append, length_bitsOf]

/-! ## The division -/

theorem crcPolynomial_eq : crcPolynomial = X ^ 32 + wordPoly 0x04C11DB7 := by
  have bits : (bitsOf 32 (0x04C11DB7 : UInt32).toNat).map bitDigit =
      [0, 0, 0, 0, 0, 1, 0, 0, 1, 1, 0, 0, 0, 0, 0, 1, 0, 0, 0, 1, 1, 1, 0, 1, 1, 0, 1, 1, 0, 1, 1,
        1] := by decide
  rw [wordPoly, bitsPoly, bits]
  simp only [digitsPoly, List.foldl_cons, List.foldl_nil, map_zero, map_one, crcPolynomial]
  ring

theorem crcPolynomial_monic : crcPolynomial.Monic := by
  rw [crcPolynomial_eq]
  exact monic_X_pow_add (degree_wordPoly_lt _)

theorem crcPolynomial_degree : crcPolynomial.degree = (32 : ℕ) := by
  rw [crcPolynomial_eq, degree_add_eq_left_of_degree_lt, degree_X_pow]
  rw [degree_X_pow]
  exact degree_wordPoly_lt _

theorem wordPoly_divideBit (crc : UInt32) (bit : Bool) :
    wordPoly (divideBit crc bit) = divideDigit crcPolynomial 32 (wordPoly crc) (bitDigit bit) := by
  have top : wordPoly crc = C (bitDigit (crc.toNat.testBit 31)) * X ^ 31 +
      bitsPoly (bitsOf 31 crc.toNat) := by
    have first : bitsPoly [crc.toNat.testBit 31] = C (bitDigit (crc.toNat.testBit 31)) := by
      simp [bitsPoly, digitsPoly]
    rw [wordPoly, bitsOf_succ, ← List.singleton_append, bitsPoly_append, first, length_bitsOf]
  have shifted : wordPoly (crc <<< 1) = bitsPoly (bitsOf 31 crc.toNat) * X ^ 1 :=
    wordPoly_shiftLeft crc rfl (by decide) rfl
  have sum := bitDigit_xor (crc.toNat.testBit 31) bit
  have quotient : wordPoly (divideBit crc bit) +
      crcPolynomial * C (bitDigit (crc.toNat.testBit 31) + bitDigit bit) =
        wordPoly crc * X + C (bitDigit bit) * X ^ 32 := by
    rw [← sum, top, divideBit]
    have digits : C (bitDigit (crc.toNat.testBit 31 ^^ bit)) =
        C (bitDigit (crc.toNat.testBit 31)) + C (bitDigit bit) := by rw [sum, C_add]
    cases differ : crc.toNat.testBit 31 ^^ bit with
    | true =>
      have one : C (bitDigit true) = (1 : (ZMod 2)[X]) := C_1
      rw [differ, one] at digits
      have twice : wordPoly 0x04C11DB7 + wordPoly 0x04C11DB7 = 0 := CharTwo.add_self_eq_zero _
      rw [if_pos rfl, wordPoly_xor, shifted, crcPolynomial_eq, one]
      calc bitsPoly (bitsOf 31 crc.toNat) * X ^ 1 + wordPoly 0x04C11DB7 +
            (X ^ 32 + wordPoly 0x04C11DB7) * 1
        _ = bitsPoly (bitsOf 31 crc.toNat) * X + 1 * X ^ 32 +
            (wordPoly 0x04C11DB7 + wordPoly 0x04C11DB7) := by ring
        _ = _ := by rw [digits, twice]; ring
    | false =>
      have none : C (bitDigit false) = (0 : (ZMod 2)[X]) := C_0
      rw [differ, none] at digits
      rw [if_neg Bool.false_ne_true, shifted, none]
      calc bitsPoly (bitsOf 31 crc.toNat) * X ^ 1 + crcPolynomial * 0
        _ = bitsPoly (bitsOf 31 crc.toNat) * X + 0 * X ^ 32 := by ring
        _ = _ := by rw [digits]; ring
  have small : (wordPoly (divideBit crc bit)).degree < crcPolynomial.degree := by
    rw [crcPolynomial_degree]
    exact degree_wordPoly_lt _
  rw [divideDigit]
  exact (div_modByMonic_unique (C (bitDigit (crc.toNat.testBit 31) + bitDigit bit))
    (wordPoly (divideBit crc bit)) crcPolynomial_monic ⟨quotient, small⟩).2.symm

theorem wordPoly_foldl_divideBit (crc : UInt32) (bits : List Bool) :
    wordPoly (bits.foldl divideBit crc) =
      (wordPoly crc * X ^ bits.length + bitsPoly bits * X ^ 32) %ₘ crcPolynomial := by
  have digits : wordPoly (bits.foldl divideBit crc) =
      (bits.map bitDigit).foldl (divideDigit crcPolynomial 32) (wordPoly crc) := by
    induction bits generalizing crc with
    | nil => rw [List.foldl_nil, List.map_nil, List.foldl_nil]
    | cons bit bits ih =>
      rw [List.foldl_cons, ih, wordPoly_divideBit, List.map_cons, List.foldl_cons]
  rw [digits, foldl_divideDigit crcPolynomial_monic crcPolynomial_degree (degree_wordPoly_lt crc),
    List.length_map, bitsPoly]

/-! ## The table -/

theorem crc32Table_eq :
    crc32Table = (List.range 256).map fun i => (bitsOf 8 i).foldl divideBit 0 := by
  decide +kernel

theorem divideByte_eq (crc : UInt32) (byte : UInt8) :
    crc32Table.getD (byte.toUInt32 ^^^ ((crc >>> 24) &&& 0xff)).toNat 0 ^^^ (crc <<< 8) =
      (bitsOf 8 byte.toNat).foldl divideBit crc := by
  have high : crc.toNat >>> 24 < 256 := by
    have word := crc.toNat_lt
    rw [Nat.shiftRight_eq_div_pow]
    omega
  have mask : ((crc >>> 24) &&& 0xff).toNat = crc.toNat >>> 24 := by
    have ones : (0xff : UInt32).toNat = 2 ^ 8 - 1 := rfl
    rw [UInt32.toNat_and, ones, Nat.and_two_pow_sub_one_eq_mod]
    exact Nat.mod_eq_of_lt high
  have index : (byte.toUInt32 ^^^ ((crc >>> 24) &&& 0xff)).toNat =
      byte.toNat ^^^ crc.toNat >>> 24 := by
    rw [UInt32.toNat_xor, mask, UInt8.toNat_toUInt32]
  have inside : byte.toNat ^^^ crc.toNat >>> 24 < 256 :=
    Nat.xor_lt_two_pow (n := 8) byte.toNat_lt high
  have zero : wordPoly 0 = 0 := by
    have twice := wordPoly_xor 0 0
    rw [UInt32.xor_self] at twice
    simpa using twice
  have shifted : wordPoly (crc <<< 8) = bitsPoly (bitsOf 24 crc.toNat) * X ^ 8 :=
    wordPoly_shiftLeft crc rfl (by decide) rfl
  have low : (bitsPoly (bitsOf 24 crc.toNat) * X ^ 8) %ₘ crcPolynomial =
      bitsPoly (bitsOf 24 crc.toNat) * X ^ 8 := by
    rw [modByMonic_eq_self_iff crcPolynomial_monic, crcPolynomial_degree, ← shifted]
    exact degree_wordPoly_lt _
  apply wordPoly_injective
  rw [wordPoly_xor, index, crc32Table_eq, List.getD_eq_getElem?_getD, List.getElem?_map,
    List.getElem?_range inside, Option.map_some, Option.getD_some, wordPoly_foldl_divideBit,
    wordPoly_foldl_divideBit, zero, zero_mul, zero_add, bitsOf_xor, bitsPoly_zipWith (by simp),
    shifted, ← low, ← add_modByMonic, wordPoly_split crc (show 8 + 24 = 32 from rfl),
    length_bitsOf]
  have sum : (bitsPoly (bitsOf 8 byte.toNat) + bitsPoly (bitsOf 8 (crc.toNat >>> 24))) * X ^ 32 +
      bitsPoly (bitsOf 24 crc.toNat) * X ^ 8 =
        (bitsPoly (bitsOf 8 (crc.toNat >>> 24)) * X ^ 24 + bitsPoly (bitsOf 24 crc.toNat)) * X ^ 8 +
          bitsPoly (bitsOf 8 byte.toNat) * X ^ 32 := by ring
  rw [sum]

theorem updateCrc32_eq (crc : UInt32) (data : List UInt8) :
    updateCrc32 crc data = (byteBits data).foldl divideBit crc := by
  induction data generalizing crc with
  | nil => rfl
  | cons byte data ih =>
    rw [updateCrc32, List.foldl_cons, divideByte_eq, ← updateCrc32, ih, byteBits, byteBits,
      List.flatMap_cons, List.foldl_append]

theorem wordPoly_updateCrc32 (crc : UInt32) (data : List UInt8) :
    wordPoly (updateCrc32 crc data) =
      (wordPoly crc * X ^ (8 * data.length) + bitsPoly (byteBits data) * X ^ 32) %ₘ
        crcPolynomial := by
  rw [updateCrc32_eq, wordPoly_foldl_divideBit, length_byteBits]

theorem updateCrc32_flatten (crc : UInt32) (pieces : List (List UInt8)) :
    updateCrc32 crc pieces.flatten = pieces.foldl updateCrc32 crc := by
  induction pieces generalizing crc with
  | nil => rfl
  | cons piece pieces ih =>
    rw [List.flatten_cons, updateCrc32, List.foldl_append, ← updateCrc32, ← updateCrc32, ih,
      List.foldl_cons]


/-! ## Strings that pass the check -/

def flipped (s errors : PyStr) : PyStr := List.zipWith (· ^^^ ·) s errors

/-- An error that is confined to 32 consecutive bits. -/
structure Burst (errors : PyStr) : Prop where
  some : true ∈ byteBits errors
  confined : ∃ k, ∀ i, (byteBits errors)[i]? = Option.some true → k ≤ i ∧ i < k + 32

theorem byteBits_flipped (same : s.length = errors.length) :
    byteBits (flipped s errors) = List.zipWith (· ^^ ·) (byteBits s) (byteBits errors) := by
  induction s generalizing errors with
  | nil => rfl
  | cons byte s ih =>
    cases errors with
    | nil => cases same
    | cons error errors =>
      have rest := ih (Nat.succ.inj same)
      rw [flipped] at rest ⊢
      have first (b : UInt8) (bs : PyStr) :
          byteBits (b :: bs) = bitsOf 8 b.toNat ++ byteBits bs := rfl
      rw [List.zipWith_cons_cons, first, first, first, rest, UInt8.toNat_xor, bitsOf_xor,
        List.zipWith_append (by simp)]

theorem bitsOf_ofBits (bits : List Bool) : bitsOf bits.length (ofBits bits) = bits := by
  induction bits using List.reverseRecOn with
  | nil => rfl
  | append_singleton bits bit ih =>
    have last : bitsOf 1 (ofBits (bits ++ [bit])) = [bit] := by
      cases bit <;> simp [bitsOf]
    have before : ofBits (bits ++ [bit]) >>> 1 = ofBits bits := by
      have small := Bool.toNat_lt bit
      rw [ofBits_concat, Nat.shiftRight_eq_div_pow]
      omega
    rw [List.length_append, List.length_singleton, bitsOf_add, last, before, ih]

/-- What passes is a multiple of the divisor, up to a term that depends on its length. -/
theorem dvd_of_checkCrc32 (passes : (checkCrc32 s).1 = true) :
    crcPolynomial ∣ wordPoly 0xffffffff * X ^ (8 * (s.length - 4)) + wordPoly 0xffffffff +
      bitsPoly (byteBits s) := by
  by_cases short : s.length < 4
  · rw [checkCrc32, if_pos short] at passes
    cases passes
  · have tail : (s.drop (s.length - 4)).length = 4 := by
      simp
      omega
    obtain ⟨front, back⟩ := pySlice_append (s.take (s.length - 4))
      (show 0 < (s.drop (s.length - 4)).length by omega)
    rw [List.take_append_drop, tail] at front back
    change pySlice s 0 (-4) = _ at front
    change pySlice s (-4) _ = _ at back
    have equal : (crc32 (s.take (s.length - 4))).toNat = ofBytesBE (s.drop (s.length - 4)) := by
      rw [checkCrc32, if_neg short] at passes
      simp only [front, back] at passes
      simpa using passes
    have bits : (byteBits (s.drop (s.length - 4))).length = 32 := by simp [tail]
    have expected : wordPoly (crc32 (s.take (s.length - 4))) =
        bitsPoly (byteBits (s.drop (s.length - 4))) := by
      rw [wordPoly, equal, ofBytesBE_eq, ← bits, bitsOf_ofBits]
    have length : (s.take (s.length - 4)).length = s.length - 4 := by simp
    rw [crc32, wordPoly_xor, wordPoly_updateCrc32, length] at expected
    have whole : bitsPoly (byteBits s) =
        bitsPoly (byteBits (s.take (s.length - 4))) * X ^ 32 +
          bitsPoly (byteBits (s.drop (s.length - 4))) := by
      rw [← bits, ← bitsPoly_append, ← byteBits_append, List.take_append_drop]
    have two : (2 : (ZMod 2)[X]) = 0 := CharTwo.two_eq_zero
    have difference : ∀ ones shifted first last remainder : (ZMod 2)[X],
        remainder + ones = last → ones * shifted + ones + (first + last) =
          remainder - (ones * shifted + first) := by
      intro ones shifted first last remainder sum
      rw [← sum]
      linear_combination (ones * shifted + ones + first) * two
    rw [whole, difference _ _ _ _ _ expected]
    exact dvd_modByMonic_sub _ _

theorem Burst.not_dvd (burst : Burst errors) : ¬crcPolynomial ∣ bitsPoly (byteBits errors) := by
  obtain ⟨k, confined⟩ := burst.confined
  have digit : ∀ j < (byteBits errors).length, (byteBits errors).length - 1 - j < k ∨
      k + 32 ≤ (byteBits errors).length - 1 - j → (bitsPoly (byteBits errors)).coeff j = 0 := by
    intro j inside outside
    have place : (byteBits errors).length - 1 - j < (byteBits errors).length := by omega
    have clear : (byteBits errors)[(byteBits errors).length - 1 - j] = false := by
      cases bit : (byteBits errors)[(byteBits errors).length - 1 - j] with
      | false => rfl
      | true =>
        have within := confined _ (by rw [List.getElem?_eq_getElem place, bit])
        omega
    rw [bitsPoly, coeff_digitsPoly, ← List.map_reverse,
      List.getD_eq_getElem _ _ (by simpa using inside), List.getElem_map, List.getElem_reverse,
      clear]
    rfl
  have beyond : ∀ j ≥ (byteBits errors).length, (bitsPoly (byteBits errors)).coeff j = 0 := by
    intro j outside
    rw [bitsPoly, coeff_digitsPoly]
    exact List.getD_eq_default _ _ (by simpa using outside)
  have constant : IsUnit (crcPolynomial.coeff 0) := by
    have one : crcPolynomial.coeff 0 = 1 := by
      simp [crcPolynomial, coeff_X_pow, coeff_one]
    rw [one]
    exact isUnit_one
  have some : bitsPoly (byteBits errors) ≠ 0 := by
    intro none
    have zeros : bitsPoly (List.replicate (byteBits errors).length false) = 0 :=
      bitsPoly_replicate_false _
    have bits := bitsPoly_inj (by simp) (none.trans zeros.symm)
    have member := burst.some
    rw [bits] at member
    cases (List.mem_replicate.mp member).2
  apply not_dvd_burst crcPolynomial_monic crcPolynomial_degree constant some
    ((byteBits errors).length - (k + 32))
  · intro j low
    exact digit j (by omega) (Or.inr (by omega))
  · intro j high
    by_cases inside : j < (byteBits errors).length
    · exact digit j inside (Or.inl (by omega))
    · exact beyond j (Nat.le_of_not_lt inside)

theorem checkCrc32_flipped (passes : (checkCrc32 s).1 = true) (same : errors.length = s.length)
    (burst : Burst errors) : (checkCrc32 (flipped s errors)).1 = false := by
  cases also : (checkCrc32 (flipped s errors)).1 with
  | false => rfl
  | true =>
    have length : (flipped s errors).length = s.length := by simp [flipped, same]
    have one := dvd_of_checkCrc32 passes
    have other := dvd_of_checkCrc32 also
    rw [length, byteBits_flipped same.symm, bitsPoly_zipWith (by simp [same]),
      ← add_assoc] at other
    exact absurd ((dvd_add_right one).mp other) burst.not_dvd

/-- **CRC-32 is polynomial division and protects packets.** -/
theorem crc32_divides_and_protects :
    (∀ crc data, updateCrc32 crc data = (byteBits data).foldl divideBit crc) ∧
    (∀ data, crc32 data = (byteBits data).foldl divideBit 0xffffffff ^^^ 0xffffffff) ∧
    (∀ crc data, wordPoly (updateCrc32 crc data) =
      (wordPoly crc * X ^ (8 * data.length) + bitsPoly (byteBits data) * X ^ 32) %ₘ
        crcPolynomial) ∧
    (∀ crc (pieces : List (List UInt8)),
      updateCrc32 crc pieces.flatten = pieces.foldl updateCrc32 crc) ∧
    (∀ s, checkCrc32 (genAndAppendCrc32 s) = (true, s)) ∧
    ∀ s errors, errors.length = (genAndAppendCrc32 s).length → Burst errors →
      (checkCrc32 (flipped (genAndAppendCrc32 s) errors)).1 = false := by
  refine ⟨updateCrc32_eq, ?_, wordPoly_updateCrc32, updateCrc32_flatten,
    checkCrc32_genAndAppendCrc32, ?_⟩
  · intro data
    rw [crc32, updateCrc32_eq]
  · intro s errors same burst
    exact checkCrc32_flipped (by rw [checkCrc32_genAndAppendCrc32]) same burst

/-- A burst from the last bit of the message on. -/
theorem crc32_protects_one : (checkCrc32 (flipped (genAndAppendCrc32 [0x31])
    [0x01, 0xff, 0, 0, 0x80])).1 = false := by
  have burst : Burst [0x01, 0xff, 0, 0, 0x80] := by
    refine ⟨by decide, 6, ?_⟩
    intro i bit
    by_cases inside : i < 40
    · revert bit
      revert i
      decide
    · rw [List.getElem?_eq_none (by simpa using inside)] at bit
      cases bit
  exact crc32_divides_and_protects.2.2.2.2.2 [0x31] _ (by simp) burst

end GnuRadio
