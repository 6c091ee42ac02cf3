import Mathlib.Data.Int.Log
import Mathlib.Data.Rat.Floor
import Mathlib.Tactic.Positivity

/-!
# Arithmetic on `double`

A finite `double` is a rational number. Each operation gives the exact result
rounded to 53 significant bits, to the nearest and to the even one of two
nearest. The range of the exponent is left out: a result too large or too small
for a `double` is only ever converted to an `int` here, which such a result
does not fit, or to which it adds nothing.
-/

namespace GnuRadio

/-- The integer nearest to `x`, and the even one of two nearest. -/
def roundEven (x : ℚ) : Int :=
  let whole := ⌊x⌋
  if x - whole < 1 / 2 then whole
  else if 1 / 2 < x - whole then whole + 1
  else if whole % 2 = 0 then whole else whole + 1

theorem roundEven_near (x : ℚ) : |(roundEven x : ℚ) - x| ≤ 1 / 2 := by
  have low := Int.floor_le x
  have high := Int.lt_floor_add_one x
  unfold roundEven
  dsimp only
  rw [abs_le]
  split_ifs <;> push_cast <;> constructor <;> linarith

theorem roundEven_intCast (n : Int) : roundEven n = n := by
  simp [roundEven]

namespace Double

/-- The distance between neighbouring numbers of 53 bits around `x`. -/
def ulp (x : ℚ) : ℚ := 2 ^ (Int.log 2 |x| - 52)

/-- The number of 53 significant bits nearest to `x`. -/
def round (x : ℚ) : ℚ := roundEven (x / ulp x) * ulp x

/-- Division of two `double`s; the divisor is not zero. -/
def div (x y : ℚ) : ℚ := round (x / y)

def mul (x y : ℚ) : ℚ := round (x * y)

def add (x y : ℚ) : ℚ := round (x + y)

/-- `static_cast<int>`: towards zero, undefined when `int` cannot hold the result. -/
def toInt (x : ℚ) : Option Int :=
  let whole := if 0 ≤ x then ⌊x⌋ else ⌈x⌉
  if -2147483648 ≤ whole ∧ whole ≤ 2147483647 then some whole else none

/-- Half the relative distance between neighbours, the error bound of one operation. -/
def unit : ℚ := 1 / 2 ^ 53

theorem ulp_pos (x : ℚ) : 0 < ulp x := zpow_pos (by norm_num) _

variable {x : ℚ}

theorem ulp_le (nonzero : x ≠ 0) : ulp x / 2 ≤ |x| * unit := by
  have below := Int.zpow_log_le_self (b := 2) (by decide) (abs_pos.mpr nonzero)
  rw [ulp, unit, zpow_sub₀ (by norm_num)]
  norm_num at below ⊢
  linarith

theorem round_near (x : ℚ) : |round x - x| ≤ |x| * unit := by
  by_cases zero : x = 0
  · simp [zero, round, roundEven]
  · have near := roundEven_near (x / ulp x)
    have error : round x - x = (roundEven (x / ulp x) - x / ulp x) * ulp x := by
      rw [sub_mul, div_mul_cancel₀ _ (ulp_pos x).ne', round]
    rw [error, abs_mul, abs_of_pos (ulp_pos x)]
    calc |(roundEven (x / ulp x) : ℚ) - x / ulp x| * ulp x
        ≤ 1 / 2 * ulp x := mul_le_mul_of_nonneg_right near (ulp_pos x).le
      _ = ulp x / 2 := by ring
      _ ≤ |x| * unit := ulp_le zero

theorem round_lower (nonneg : 0 ≤ x) : x * (1 - unit) ≤ round x := by
  have near := round_near x
  rw [abs_of_nonneg nonneg, abs_le] at near
  linarith [near.1]

theorem round_lower_trans {y k : ℚ} (nonneg : 0 ≤ y) (units : 0 ≤ k) (few : k * unit ≤ 1)
    (below : y * (1 - k * unit) ≤ x) : y * (1 - (k + 1) * unit) ≤ round x := by
  have positive : (0 : ℚ) < unit := by norm_num [unit]
  have small : unit ≤ 1 := by norm_num [unit]
  have xNonneg : 0 ≤ x := le_trans (mul_nonneg nonneg (by linarith)) below
  calc y * (1 - (k + 1) * unit)
      ≤ y * (1 - k * unit) * (1 - unit) := by
        linarith [mul_nonneg (mul_nonneg nonneg units) (mul_pos positive positive).le]
    _ ≤ x * (1 - unit) := mul_le_mul_of_nonneg_right below (by linarith)
    _ ≤ round x := round_lower xNonneg

theorem round_upper (nonneg : 0 ≤ x) : round x ≤ x * (1 + unit) := by
  have near := round_near x
  rw [abs_of_nonneg nonneg, abs_le] at near
  linarith [near.2]

theorem round_nonneg (nonneg : 0 ≤ x) : 0 ≤ round x :=
  le_trans (mul_nonneg nonneg (by norm_num [unit])) (round_lower nonneg)

theorem round_natCast {n : ℕ} (small : n < 2 ^ 53) : round n = n := by
  rcases Nat.eq_zero_or_pos n with rfl | positive
  · simp [round, roundEven]
  · have places : Nat.log 2 n ≤ 52 :=
      Nat.lt_succ_iff.mp ((Nat.log_lt_iff_lt_pow (by decide) positive.ne').mpr small)
    have last : ulp n = ((2 : ℚ) ^ (52 - Nat.log 2 n))⁻¹ := by
      rw [ulp, abs_of_nonneg (Nat.cast_nonneg n), Int.log_natCast, ← zpow_natCast, ← zpow_neg,
        Nat.cast_sub places]
      congr 1
      push_cast
      ring
    have whole : (n : ℚ) / ulp n = ((n * 2 ^ (52 - Nat.log 2 n) : ℕ) : Int) := by
      rw [last, div_inv_eq_mul]
      push_cast
      ring
    rw [round, whole, roundEven_intCast, ← whole, div_mul_cancel₀ _ (ulp_pos _).ne']

theorem floor_div_natCast {a b : ℕ} (positive : 0 < b) (small : a < 2 ^ 53) :
    ⌊div a b⌋ = (a / b : ℕ) := by
  have rounding := round_near ((a : ℚ) / b)
  have divisor : (0 : ℚ) < b := by exact_mod_cast positive
  have nonneg : (0 : ℚ) ≤ (a : ℚ) / b := by positivity
  have bound : (a : ℚ) / b * unit < 1 / b := by
    have less : (a : ℚ) < 2 ^ 53 := by exact_mod_cast small
    rw [unit, div_mul_div_comm, mul_one, div_lt_div_iff₀ (by positivity) divisor]
    nlinarith
  rw [abs_of_nonneg nonneg, abs_le] at rounding
  have parts : ((b * (a / b) + a % b : ℕ) : ℚ) = a := by rw [Nat.div_add_mod]
  have quotient : (a : ℚ) / b = (a / b : ℕ) + (a % b : ℕ) / b := by
    rw [← parts]
    push_cast
    field_simp
  rw [div, Int.floor_eq_iff]
  rcases Nat.eq_zero_or_pos (a % b) with exact | some
  · rw [exact, Nat.cast_zero, zero_div, add_zero] at quotient
    rw [quotient, round_natCast (lt_of_le_of_lt (Nat.div_le_self a b) small)]
    constructor
    · exact le_of_eq rfl
    · exact lt_add_one _
  · have low : (1 : ℚ) / b ≤ (a % b : ℕ) / b := by
      rw [div_le_div_iff_of_pos_right divisor]
      exact_mod_cast some
    have high : ((a % b : ℕ) : ℚ) / b + 1 / b ≤ 1 := by
      rw [← add_div, div_le_one divisor]
      exact_mod_cast Nat.mod_lt a positive
    rw [quotient] at rounding bound ⊢
    obtain ⟨below, above⟩ := rounding
    rw [Int.cast_natCast]
    constructor
    · linarith
    · linarith

theorem toInt_spec (nonneg : 0 ≤ x) {n : Int} (converted : toInt x = some n) :
    0 ≤ n ∧ n ≤ 2147483647 ∧ x < n + 1 := by
  rw [toInt, if_pos nonneg] at converted
  split at converted
  · rename_i range
    obtain rfl := Option.some.inj converted
    exact ⟨Int.floor_nonneg.mpr nonneg, range.2, Int.lt_floor_add_one x⟩
  · cases converted

end Double

end GnuRadio
