import Mathlib.Data.Nat.Bitwise

/-!
# Rounding to powers of two

`ROUND_DN` and `ROUND_UP` clear the low bits of a machine word. As numbers they go to a multiple of
the power of two, as long as the sum of `ROUND_UP` does not wrap around.
-/

namespace GnuRadio

variable {w : Nat}

/-- `ROUND_DN`: `x` rounded down to a multiple of `p`, a power of two. -/
def roundDnWord (x p : BitVec w) : BitVec w := x &&& ~~~(p - 1#w)

/-- `ROUND_UP`: `x` rounded up to a multiple of `p`, a power of two. -/
def roundUpWord (x p : BitVec w) : BitVec w := roundDnWord (x + (p - 1#w)) p

theorem and_add_and_not (x m : BitVec w) : (x &&& m) + (x &&& ~~~m) = x := by
  have apart : (x &&& m) &&& (x &&& ~~~m) = 0#w := by
    apply BitVec.eq_of_getLsbD_eq
    intro i inside
    simp only [BitVec.getLsbD_and, BitVec.getLsbD_not, inside, decide_true, Bool.true_and,
      BitVec.getLsbD_zero]
    cases x.getLsbD i <;> cases m.getLsbD i <;> rfl
  rw [BitVec.add_eq_or_of_and_eq_zero _ _ apart]
  apply BitVec.eq_of_getLsbD_eq
  intro i inside
  simp only [BitVec.getLsbD_or, BitVec.getLsbD_and, BitVec.getLsbD_not, inside, decide_true,
    Bool.true_and]
  cases x.getLsbD i <;> cases m.getLsbD i <;> rfl

variable {p : BitVec w} {k : Nat}

theorem toNat_sub_one (positive : 0 < p.toNat) : (p - 1#w).toNat = p.toNat - 1 := by
  have small := p.isLt
  have one : (1#w).toNat = 1 := by
    rw [BitVec.toNat_ofNat, Nat.mod_eq_of_lt (by omega)]
  rw [BitVec.toNat_sub_of_le, one]
  rw [BitVec.le_def, one]
  exact positive

theorem toNat_and_low (x : BitVec w) (power : p.toNat = 2 ^ k) :
    (x &&& (p - 1#w)).toNat = x.toNat % p.toNat := by
  rw [BitVec.toNat_and, toNat_sub_one (power ▸ Nat.two_pow_pos k), power,
    Nat.and_two_pow_sub_one_eq_mod]

theorem toNat_roundDnWord (x : BitVec w) (power : p.toNat = 2 ^ k) :
    (roundDnWord x p).toNat = x.toNat - x.toNat % p.toNat := by
  have parts := congrArg BitVec.toNat (and_add_and_not x (p - 1#w))
  have low := toNat_and_low x power
  have less : (x &&& ~~~(p - 1#w)).toNat ≤ x.toNat := by
    rw [BitVec.toNat_and]
    exact Nat.and_le_left
  have bound := x.isLt
  have remainder := Nat.mod_le x.toNat p.toNat
  rw [BitVec.toNat_add, low] at parts
  rw [roundDnWord]
  by_cases fits : x.toNat % p.toNat + (x &&& ~~~(p - 1#w)).toNat < 2 ^ w
  · rw [Nat.mod_eq_of_lt fits] at parts
    omega
  · rw [Nat.mod_eq_sub_mod (by omega), Nat.mod_eq_of_lt (by omega)] at parts
    omega

theorem toNat_roundUpWord (x : BitVec w) (power : p.toNat = 2 ^ k)
    (fits : x.toNat + p.toNat - 1 < 2 ^ w) :
    (roundUpWord x p).toNat = (x.toNat + p.toNat - 1) / p.toNat * p.toNat := by
  have positive : 0 < p.toNat := power ▸ Nat.two_pow_pos k
  have sum : (x + (p - 1#w)).toNat = x.toNat + p.toNat - 1 := by
    rw [BitVec.toNat_add, toNat_sub_one positive, ← Nat.add_sub_assoc positive,
      Nat.mod_eq_of_lt fits]
  have parts := Nat.div_add_mod (x.toNat + p.toNat - 1) p.toNat
  rw [roundUpWord, toNat_roundDnWord _ power, sum, Nat.mul_comm]
  omega

theorem and_power_ne_zero {x : BitVec w} (power : p.toNat = 2 ^ k) :
    x &&& p ≠ 0#w ↔ x.toNat / p.toNat % 2 = 1 := by
  rw [Ne, ← BitVec.toNat_inj, BitVec.toNat_and, BitVec.toNat_zero, power, Nat.and_two_pow,
    Nat.testBit_eq_decide_div_mod_eq]
  by_cases odd : x.toNat / 2 ^ k % 2 = 1
  · simp [odd]
  · simp [odd]

theorem toNat_add_mod (x : BitVec w) (k : Nat) {n : Nat} (divides : n ∣ 2 ^ w) :
    (x + BitVec.ofNat w k).toNat % n = (x.toNat + k) % n := by
  rw [BitVec.toNat_add, BitVec.toNat_ofNat, Nat.add_mod_mod, Nat.mod_mod_of_dvd _ divides]

end GnuRadio
