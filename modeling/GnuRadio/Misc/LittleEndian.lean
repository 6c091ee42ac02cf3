import Mathlib.Data.UInt
import Mathlib.Tactic.Ring

/-!
# Numbers from their low end

Numbers as bytes and as bits, the least significant first.
-/

namespace GnuRadio

/-! ## Bytes -/

/-- The low `n` bytes of a number. -/
def bytesLE : Nat → Nat → List UInt8
  | 0, _ => []
  | n + 1, v => UInt8.ofNat v :: bytesLE n (v / 256)

/-- The number that bytes stand for. -/
def ofBytesLE : List UInt8 → Nat
  | [] => 0
  | byte :: bytes => byte.toNat + 256 * ofBytesLE bytes

@[simp] theorem length_bytesLE (n v : Nat) : (bytesLE n v).length = n := by
  induction n generalizing v with
  | zero => rfl
  | succ n ih => rw [bytesLE, List.length_cons, ih]

theorem ofBytesLE_bytesLE (n v : Nat) : ofBytesLE (bytesLE n v) = v % 256 ^ n := by
  induction n generalizing v with
  | zero => simp [bytesLE, ofBytesLE, Nat.mod_one]
  | succ n ih =>
    rw [bytesLE, ofBytesLE, ih, pow_succ', Nat.mod_mul]
    rfl

/-! ## Bits -/

/-- The low `n` bits of a number. -/
def bitsLE (n v : Nat) : List Bool := (List.range n).map v.testBit

/-- The number that bits stand for. -/
def ofBitsLE : List Bool → Nat
  | [] => 0
  | bit :: bits => bit.toNat + 2 * ofBitsLE bits

/-- The bits of numbers of `n` bits. -/
def wordBits (n : Nat) (words : List Nat) : List Bool := words.flatMap (bitsLE n)

def byteBitsLE (bytes : List UInt8) : List Bool := bytes.flatMap fun byte => bitsLE 8 byte.toNat

@[simp] theorem length_bitsLE (n v : Nat) : (bitsLE n v).length = n := by
  simp [bitsLE]

@[simp] theorem bitsLE_zero (v : Nat) : bitsLE 0 v = [] := rfl

theorem bitsLE_add (m n v : Nat) : bitsLE (m + n) v = bitsLE m v ++ bitsLE n (v >>> m) := by
  simp [bitsLE, List.range_add, Function.comp_def, Nat.testBit_shiftRight]

theorem bitsLE_succ (n v : Nat) : bitsLE (n + 1) v = v.testBit 0 :: bitsLE n (v >>> 1) := by
  rw [Nat.add_comm, bitsLE_add]
  rfl

variable {n v w : Nat} {bits : List Bool}

theorem bitsLE_congr (same : ∀ i < n, v.testBit i = w.testBit i) : bitsLE n v = bitsLE n w := by
  apply List.map_congr_left
  intro i inside
  exact same i (List.mem_range.mp inside)

theorem bitsLE_mask (n v : Nat) : bitsLE n (((1 <<< n) - 1) &&& v) = bitsLE n v := by
  apply bitsLE_congr
  intro i inside
  simp [Nat.one_shiftLeft, inside]

theorem mask_lt (n v : Nat) : ((1 <<< n) - 1) &&& v < 2 ^ n := by
  have positive := Nat.two_pow_pos n
  have below : ((1 <<< n) - 1) &&& v ≤ (1 <<< n) - 1 := Nat.and_le_left
  rw [Nat.one_shiftLeft] at below ⊢
  omega

theorem or_lt {m : Nat} (low : v < 2 ^ m) (high : w < 2 ^ n) : v ||| w <<< m < 2 ^ (m + n) := by
  apply Nat.or_lt_two_pow
  · exact low.trans_le (Nat.pow_le_pow_right (by decide) (Nat.le_add_right m n))
  · rw [Nat.shiftLeft_eq, Nat.add_comm, pow_add]
    exact Nat.mul_lt_mul_of_pos_right high (Nat.two_pow_pos m)

theorem bitsLE_or {m : Nat} (small : v < 2 ^ m) (n w : Nat) :
    bitsLE (m + n) (v ||| w <<< m) = bitsLE m v ++ bitsLE n w := by
  rw [bitsLE_add]
  congr 1
  · apply bitsLE_congr
    intro i inside
    simp [Nat.testBit_shiftLeft, inside]
  · apply bitsLE_congr
    intro i _
    have above : v.testBit (m + i) = false :=
      Nat.testBit_lt_two_pow (small.trans_le (Nat.pow_le_pow_right (by decide) (by omega)))
    simp [Nat.testBit_shiftRight, Nat.testBit_shiftLeft, above]

theorem ofBitsLE_bitsLE (n v : Nat) : ofBitsLE (bitsLE n v) = v % 2 ^ n := by
  induction n generalizing v with
  | zero => simp [ofBitsLE, Nat.mod_one]
  | succ n ih =>
    rw [bitsLE_succ, ofBitsLE, ih, pow_succ', Nat.mod_mul, Nat.shiftRight_one, Nat.toNat_testBit]
    simp

theorem bitsLE_ofBitsLE (bits : List Bool) : bitsLE bits.length (ofBitsLE bits) = bits := by
  induction bits with
  | nil => rfl
  | cons bit bits ih =>
    have small := Bool.toNat_le bit
    have half : (bit.toNat + 2 * ofBitsLE bits) >>> 1 = ofBitsLE bits := by
      rw [Nat.shiftRight_one]
      omega
    rw [List.length_cons, bitsLE_succ, ofBitsLE, half, ih]
    cases bit <;> simp [Nat.testBit_zero]

theorem ofBitsLE_lt (bits : List Bool) : ofBitsLE bits < 2 ^ bits.length := by
  induction bits with
  | nil => decide
  | cons bit bits ih =>
    have small := Bool.toNat_le bit
    rw [ofBitsLE, List.length_cons, pow_succ']
    omega

theorem eq_of_bitsLE_eq (first : v < 2 ^ n) (second : w < 2 ^ n) (same : bitsLE n v = bitsLE n w) :
    v = w := by
  have equal := congrArg ofBitsLE same
  rwa [ofBitsLE_bitsLE, ofBitsLE_bitsLE, Nat.mod_eq_of_lt first, Nat.mod_eq_of_lt second] at equal

@[simp] theorem wordBits_nil (n : Nat) : wordBits n [] = [] := rfl

@[simp] theorem wordBits_cons (n word : Nat) (words : List Nat) :
    wordBits n (word :: words) = bitsLE n word ++ wordBits n words := rfl

@[simp] theorem wordBits_append (n : Nat) (words rest : List Nat) :
    wordBits n (words ++ rest) = wordBits n words ++ wordBits n rest := by
  simp [wordBits]

@[simp] theorem length_wordBits (n : Nat) (words : List Nat) :
    (wordBits n words).length = n * words.length := by
  induction words with
  | nil => rfl
  | cons word words ih =>
    rw [wordBits_cons, List.length_append, length_bitsLE, ih, List.length_cons]
    ring

@[simp] theorem byteBitsLE_append (bytes rest : List UInt8) :
    byteBitsLE (bytes ++ rest) = byteBitsLE bytes ++ byteBitsLE rest := by
  simp [byteBitsLE]

@[simp] theorem length_byteBitsLE (bytes : List UInt8) :
    (byteBitsLE bytes).length = 8 * bytes.length := by
  induction bytes with
  | nil => rfl
  | cons byte bytes ih =>
    rw [byteBitsLE, List.flatMap_cons, List.length_append, length_bitsLE, ← byteBitsLE, ih,
      List.length_cons]
    ring

/-- The bytes that bits fill. -/
def bytesOfLE (bits : List Bool) : List UInt8 :=
  (List.range (bits.length / 8)).map fun i => UInt8.ofNat (ofBitsLE ((bits.drop (8 * i)).take 8))

@[simp] theorem length_bytesOfLE (bits : List Bool) :
    (bytesOfLE bits).length = bits.length / 8 := by
  simp [bytesOfLE]

theorem bytesOfLE_short (short : bits.length < 8) : bytesOfLE bits = [] := by
  rw [bytesOfLE, Nat.div_eq_of_lt short]
  rfl

theorem bytesOfLE_append (bytes : List UInt8) (rest : List Bool) :
    bytesOfLE (byteBitsLE bytes ++ rest) = bytes ++ bytesOfLE rest := by
  induction bytes with
  | nil => rfl
  | cons byte bytes ih =>
    have front : byteBitsLE (byte :: bytes) ++ rest =
        bitsLE 8 byte.toNat ++ (byteBitsLE bytes ++ rest) := List.append_assoc _ _ _
    have size : (bitsLE 8 byte.toNat ++ (byteBitsLE bytes ++ rest)).length / 8 =
        (byteBitsLE bytes ++ rest).length / 8 + 1 := by
      rw [List.length_append, length_bitsLE]
      omega
    have first : ofBitsLE (bitsLE 8 byte.toNat) = byte.toNat := by
      rw [ofBitsLE_bitsLE]
      exact Nat.mod_eq_of_lt byte.toNat_lt
    rw [front, List.cons_append, ← ih, bytesOfLE, size, List.range_succ_eq_map, List.map_cons,
      List.map_map, bytesOfLE]
    apply congrArg₂ List.cons
    · rw [Nat.mul_zero, List.drop_zero, List.take_left' (length_bitsLE 8 byte.toNat), first,
        UInt8.ofNat_toNat]
    · apply List.map_congr_left
      intro i _
      have behind : 8 * (i + 1) = (bitsLE 8 byte.toNat).length + 8 * i := by
        rw [length_bitsLE]
        ring
      rw [Function.comp_apply, Nat.succ_eq_add_one, behind, ← List.drop_drop, List.drop_left]

theorem byteBitsLE_ofBitsLE (eight : bits.length = 8) :
    byteBitsLE [UInt8.ofNat (ofBitsLE bits)] = bits := by
  have small := ofBitsLE_lt bits
  have word := bitsLE_ofBitsLE bits
  rw [eight] at small word
  have byte : (UInt8.ofNat (ofBitsLE bits)).toNat = ofBitsLE bits := UInt8.toNat_ofNat_of_lt small
  rw [byteBitsLE, List.flatMap_singleton, byte, word]

theorem byteBitsLE_bytesOfLE (bits : List Bool) :
    byteBitsLE (bytesOfLE bits) ++ bits.drop (8 * (bits.length / 8)) = bits := by
  generalize count : bits.length / 8 = n
  induction n generalizing bits with
  | zero =>
    rw [bytesOfLE_short (by omega)]
    rfl
  | succ n ih =>
    have front : (bits.take 8).length = 8 := by
      rw [List.length_take]
      omega
    have rest := ih (bits.drop 8) (by rw [List.length_drop]; omega)
    have first := byteBitsLE_ofBitsLE front
    have bytes := bytesOfLE_append [UInt8.ofNat (ofBitsLE (bits.take 8))] (bits.drop 8)
    rw [first, List.take_append_drop] at bytes
    rw [bytes, byteBitsLE_append, first, Nat.mul_add, Nat.mul_one, Nat.add_comm (8 * n),
      ← List.drop_drop, List.append_assoc, rest, List.take_append_drop]

end GnuRadio
