import Mathlib.Data.List.Induction
import Mathlib.Tactic.Ring

/-!
# Bits and bytes in network order

Numbers as bits and as bytes, the most significant first. A machine that shifts
bits into a word from the right reads numbers in this order.
-/

namespace GnuRadio

/-! ## Bits -/

/-- The low `n` bits of a number. -/
def bitsOf (n v : Nat) : List Bool := (List.range n).reverse.map v.testBit

/-- The number that bits stand for. -/
def ofBits (bits : List Bool) : Nat := bits.foldl (fun v bit => 2 * v + bit.toNat) 0

@[simp] theorem length_bitsOf (n v : Nat) : (bitsOf n v).length = n := by
  simp [bitsOf]

theorem bitsOf_succ (n v : Nat) : bitsOf (n + 1) v = v.testBit n :: bitsOf n v := by
  simp [bitsOf, List.range_succ]

@[simp] theorem ofBits_concat (bits : List Bool) (bit : Bool) :
    ofBits (bits ++ [bit]) = 2 * ofBits bits + bit.toNat := by
  simp [ofBits]

theorem ofBits_append (bits rest : List Bool) :
    ofBits (bits ++ rest) = ofBits bits * 2 ^ rest.length + ofBits rest := by
  induction rest using List.reverseRecOn with
  | nil => simp [ofBits]
  | append_singleton rest bit ih =>
    rw [← List.append_assoc, ofBits_concat, ih, ofBits_concat, List.length_append,
      List.length_singleton, pow_succ]
    ring

theorem ofBits_lt (bits : List Bool) : ofBits bits < 2 ^ bits.length := by
  induction bits using List.reverseRecOn with
  | nil => simp [ofBits]
  | append_singleton bits bit ih =>
    have := Bool.toNat_le bit
    rw [ofBits_concat, List.length_append, List.length_singleton, pow_succ]
    omega

theorem ofBits_append_mod (bits rest : List Bool) :
    ofBits (bits ++ rest) % 2 ^ rest.length = ofBits rest := by
  rw [ofBits_append, Nat.mul_add_mod_self_right, Nat.mod_eq_of_lt (ofBits_lt rest)]

theorem ofBits_bitsOf (n v : Nat) : ofBits (bitsOf n v) = v % 2 ^ n := by
  induction n with
  | zero => simp [bitsOf, ofBits, Nat.mod_one]
  | succ n ih =>
    rw [bitsOf_succ, ← List.singleton_append, ofBits_append, length_bitsOf, ih, Nat.mod_pow_succ,
      ← Nat.toNat_testBit]
    simp [ofBits]
    ring

theorem shiftLeft_or_bit (n x : Nat) {y : Nat} (bit : y < 2) :
    (x <<< 1 % 2 ^ (n + 1)) ||| y = (2 * x + y) % 2 ^ (n + 1) := by
  have half : x <<< 1 % (2 * 2 ^ n) = (x % 2 ^ n) <<< 1 := by
    rw [Nat.shiftLeft_eq, pow_one, Nat.mul_comm x, Nat.mul_mod_mul_left, Nat.shiftLeft_eq, pow_one,
      Nat.mul_comm]
  have even : (2 * x + y) % (2 * 2 ^ n) = (x % 2 ^ n) <<< 1 + y := by
    have whole := Nat.div_add_mod x (2 ^ n)
    have small := Nat.mod_lt x (Nat.two_pow_pos n)
    have split : 2 * x + y = 2 * (x % 2 ^ n) + y + 2 * 2 ^ n * (x / 2 ^ n) := by
      conv_lhs => rw [← whole]
      ring
    rw [split, Nat.add_mul_mod_self_left, Nat.mod_eq_of_lt (by omega), Nat.shiftLeft_eq, pow_one,
      Nat.mul_comm]
  rw [Nat.pow_succ', even, half, Nat.shiftLeft_add_eq_or_of_lt (by omega)]

/-! ## Bytes -/

/-- The bit of a byte that holds one bit. -/
def lsb (byte : UInt8) : Bool := byte.toNat.testBit 0

theorem toNat_and_one (byte : UInt8) : (byte &&& 1).toNat = (lsb byte).toNat := by
  rw [UInt8.toNat_and, lsb, Nat.toNat_testBit, pow_zero, Nat.div_one]
  exact Nat.and_one_is_mod _

def byteBits (bytes : List UInt8) : List Bool := bytes.flatMap fun byte => bitsOf 8 byte.toNat

/-- The low `n` bytes of a number. -/
def bytesBE (n v : Nat) : List UInt8 :=
  (List.range n).reverse.map fun i => UInt8.ofNat (v >>> (8 * i))

/-- The number that bytes stand for. -/
def ofBytesBE (bytes : List UInt8) : Nat := bytes.foldl (fun v byte => v * 256 + byte.toNat) 0

/-- The first `n` bytes that bits fill. -/
def bytesOf (n : Nat) (bits : List Bool) : List UInt8 :=
  (List.range n).map fun i => UInt8.ofNat (ofBits ((bits.drop (8 * i)).take 8))

@[simp] theorem length_byteBits (bytes : List UInt8) :
    (byteBits bytes).length = 8 * bytes.length := by
  induction bytes with
  | nil => rfl
  | cons byte bytes ih =>
    rw [byteBits, List.flatMap_cons, List.length_append, length_bitsOf, ← byteBits, ih,
      List.length_cons]
    ring

@[simp] theorem byteBits_append (bytes rest : List UInt8) :
    byteBits (bytes ++ rest) = byteBits bytes ++ byteBits rest := by
  simp [byteBits]

@[simp] theorem length_bytesBE (n v : Nat) : (bytesBE n v).length = n := by
  simp [bytesBE]

theorem bytesBE_succ (n v : Nat) :
    bytesBE (n + 1) v = UInt8.ofNat (v >>> (8 * n)) :: bytesBE n v := by
  simp [bytesBE, List.range_succ]

theorem bitsOf_add (m n v : Nat) : bitsOf (m + n) v = bitsOf m (v >>> n) ++ bitsOf n v := by
  induction m with
  | zero => simp [bitsOf]
  | succ m ih =>
    rw [Nat.succ_add, bitsOf_succ, bitsOf_succ, ih, Nat.testBit_shiftRight, Nat.add_comm n m,
      List.cons_append]

theorem bitsOf_mod (n v : Nat) : bitsOf n (v % 2 ^ n) = bitsOf n v := by
  apply List.map_congr_left
  intro i member
  have inside : i < n := by simpa using member
  simp [Nat.testBit_mod_two_pow, inside]

theorem byteBits_bytesBE (n v : Nat) : byteBits (bytesBE n v) = bitsOf (8 * n) v := by
  induction n with
  | zero => rfl
  | succ n ih =>
    have first := bitsOf_mod 8 (v >>> (8 * n))
    rw [bytesBE_succ, byteBits, List.flatMap_cons, ← byteBits, ih, UInt8.toNat_ofNat', first,
      Nat.mul_succ, Nat.add_comm (8 * n) 8, bitsOf_add]

theorem ofBytesBE_eq (bytes : List UInt8) : ofBytesBE bytes = ofBits (byteBits bytes) := by
  induction bytes using List.reverseRecOn with
  | nil => rfl
  | append_singleton bytes byte ih =>
    have small : byte.toNat % 2 ^ 8 = byte.toNat := Nat.mod_eq_of_lt byte.toNat_lt
    have last : byteBits [byte] = bitsOf 8 byte.toNat := by simp [byteBits]
    rw [byteBits_append, ofBits_append, ← ih, last, ofBits_bitsOf, small, length_bitsOf]
    simp [ofBytesBE]

theorem ofBytesBE_bytesBE (n v : Nat) : ofBytesBE (bytesBE n v) = v % 2 ^ (8 * n) := by
  rw [ofBytesBE_eq, byteBits_bytesBE, ofBits_bitsOf]

theorem bytesOf_succ {n : Nat} {bits : List Bool} (length : bits.length = 8 * (n + 1)) :
    bytesOf (n + 1) bits = bytesOf n bits ++ [UInt8.ofNat (ofBits bits)] := by
  have last : ((bits.drop (8 * n)).take 8).length = 8 := by
    simp
    omega
  have whole : bits = bits.take (8 * n) ++ (bits.drop (8 * n)).take 8 := by
    rw [List.take_of_length_le (l := bits.drop (8 * n)) (by simp; omega), List.take_append_drop]
  have low := ofBits_append_mod (bits.take (8 * n)) ((bits.drop (8 * n)).take 8)
  rw [← whole, last] at low
  rw [bytesOf, bytesOf, List.range_succ, List.map_append, List.map_singleton, ← low]
  congr 2
  exact UInt8.ofNat_mod_size

theorem bytesOf_append {n : Nat} {bits : List Bool} (rest : List Bool)
    (length : 8 * n ≤ bits.length) : bytesOf n (bits ++ rest) = bytesOf n bits := by
  apply List.map_congr_left
  intro i member
  have inside : i < n := List.mem_range.mp member
  rw [List.drop_append_of_le_length (by omega),
    List.take_append_of_le_length (by simp; omega)]

/-- A byte is stored behind the others when its last bit has come. -/
theorem take_set_bytesOf {packet : List UInt8} {bits : List Bool} {bit : Bool}
    (full : bits.length % 8 = 7) (inside : bits.length / 8 < packet.length)
    (stored : packet.take (bits.length / 8) = bytesOf (bits.length / 8) bits) :
    (packet.set (bits.length / 8) (UInt8.ofNat (ofBits (bits ++ [bit])))).take
      (bits.length / 8 + 1) = bytesOf (bits.length / 8 + 1) (bits ++ [bit]) := by
  rw [bytesOf_succ (by rw [List.length_append, List.length_singleton]; omega),
    bytesOf_append _ (by omega), ← stored, List.take_add_one, List.take_set_of_le le_rfl,
    List.getElem?_set_self inside]
  rfl

theorem bytesOf_byteBits (bytes : List UInt8) : bytesOf bytes.length (byteBits bytes) = bytes := by
  induction bytes using List.reverseRecOn with
  | nil => rfl
  | append_singleton bytes byte ih =>
    have last : byteBits [byte] = bitsOf 8 byte.toNat := by simp [byteBits]
    have low := ofBits_append_mod (byteBits bytes) (byteBits [byte])
    have small : byte.toNat % 2 ^ 8 = byte.toNat := Nat.mod_eq_of_lt byte.toNat_lt
    rw [← byteBits_append, last, length_bitsOf, ofBits_bitsOf, small] at low
    have whole : UInt8.ofNat (ofBits (byteBits (bytes ++ [byte]))) = byte := by
      rw [← UInt8.ofNat_mod_size, low, UInt8.ofNat_toNat]
    rw [List.length_append, List.length_singleton, bytesOf_succ (by simp; ring), whole,
      byteBits_append, bytesOf_append _ (by simp), ih]

end GnuRadio
