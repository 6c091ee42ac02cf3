import Mathlib.Tactic.Ring

/-!
# Counting the bits of a word in parallel

A word is taken as fields of `w` bits. Adding every field to its neighbour gives
half as many fields of twice the width, with the same sum. From single bits the
sum ends in one field, and this is the number of bits set.
-/

namespace GnuRadio

/-- The sum of the first `n` fields of `w` bits. -/
def fieldSum (w : Nat) : Nat → Nat → Nat
  | 0, _ => 0
  | n + 1, x => x % 2 ^ w + fieldSum w n (x / 2 ^ w)

/-- The low half of each of `n` fields of `2 * w` bits. -/
def lowHalves (w : Nat) : Nat → Nat
  | 0 => 0
  | n + 1 => (2 ^ w - 1) + 2 ^ (2 * w) * lowHalves w n

/-- Every field added to its neighbour. -/
def addNeighbours (w n x : Nat) : Nat := (x &&& lowHalves w n) + ((x >>> w) &&& lowHalves w n)

theorem and_blocks (k : Nat) {a c : Nat} (b d : Nat) (left : a < 2 ^ k) (right : c < 2 ^ k) :
    (a + 2 ^ k * b) &&& (c + 2 ^ k * d) = (a &&& c) + 2 ^ k * (b &&& d) := by
  have small : a &&& c < 2 ^ k := Nat.and_lt_two_pow a right
  apply Nat.eq_of_testBit_eq
  intro i
  rw [Nat.testBit_and, Nat.add_comm, Nat.add_comm c, Nat.add_comm (a &&& c),
    Nat.testBit_two_pow_mul_add b left, Nat.testBit_two_pow_mul_add d right,
    Nat.testBit_two_pow_mul_add _ small]
  split <;> simp

theorem half_lt (w : Nat) : 2 ^ w - 1 < 2 ^ (2 * w) := by
  have wider : 2 ^ w ≤ 2 ^ (2 * w) := Nat.pow_le_pow_right (by decide) (by omega)
  have := Nat.two_pow_pos w
  omega

theorem and_lowHalves (w n x : Nat) :
    x &&& lowHalves w (n + 1) = x % 2 ^ w + 2 ^ (2 * w) * (x / 2 ^ (2 * w) &&& lowHalves w n) := by
  have block := Nat.mod_add_div x (2 ^ (2 * w))
  have low : x % 2 ^ (2 * w) % 2 ^ w = x % 2 ^ w :=
    Nat.mod_mod_of_dvd x (Nat.pow_dvd_pow 2 (by omega))
  conv_lhs => rw [← block]
  rw [lowHalves, and_blocks _ _ _ (Nat.mod_lt x (Nat.two_pow_pos _)) (half_lt w),
    Nat.and_two_pow_sub_one_eq_mod, low]

theorem addNeighbours_succ (w n x : Nat) :
    addNeighbours w (n + 1) x =
      (x % 2 ^ w + x / 2 ^ w % 2 ^ w) + 2 ^ (2 * w) * addNeighbours w n (x / 2 ^ (2 * w)) := by
  have next : x / 2 ^ w / 2 ^ (2 * w) = x / 2 ^ (2 * w) / 2 ^ w := by
    rw [Nat.div_div_eq_div_mul, Nat.div_div_eq_div_mul, Nat.mul_comm]
  rw [addNeighbours, and_lowHalves, and_lowHalves, Nat.shiftRight_eq_div_pow, next, addNeighbours,
    Nat.shiftRight_eq_div_pow]
  ring

variable {w : Nat}

theorem neighbours_lt (some : 0 < w) (x : Nat) : x % 2 ^ w + x / 2 ^ w % 2 ^ w < 2 ^ (2 * w) := by
  have first := Nat.mod_lt x (Nat.two_pow_pos w)
  have second := Nat.mod_lt (x / 2 ^ w) (Nat.two_pow_pos w)
  have wider : 2 ^ (w + 1) ≤ 2 ^ (2 * w) := Nat.pow_le_pow_right (by decide) (by omega)
  rw [pow_succ] at wider
  omega

theorem addNeighbours_lt (some : 0 < w) (n x : Nat) : addNeighbours w n x < 2 ^ (2 * w * n) := by
  induction n generalizing x with
  | zero => simp [addNeighbours, lowHalves]
  | succ n ih =>
    have first := neighbours_lt some x
    have rest := Nat.mul_le_mul_left (2 ^ (2 * w)) (Nat.succ_le_of_lt (ih (x / 2 ^ (2 * w))))
    rw [addNeighbours_succ, Nat.mul_succ, Nat.add_comm (2 * w * n), pow_add]
    rw [Nat.mul_succ] at rest
    omega

theorem addNeighbours_blocks (n m : Nat) {lo : Nat} (hi : Nat) (low : lo < 2 ^ (2 * w * n)) :
    addNeighbours w (n + m) (lo + 2 ^ (2 * w * n) * hi) =
      addNeighbours w n lo + 2 ^ (2 * w * n) * addNeighbours w m hi := by
  induction n generalizing lo with
  | zero =>
    have none : lo = 0 := by simpa using low
    simp [none, addNeighbours, lowHalves]
  | succ n ih =>
    have width : 2 * w * (n + 1) = 2 * w + 2 * w * n := by ring
    have above : (lo + 2 ^ (2 * w) * (2 ^ (2 * w * n) * hi)) / 2 ^ (2 * w) =
        lo / 2 ^ (2 * w) + 2 ^ (2 * w * n) * hi :=
      Nat.add_mul_div_left _ _ (Nat.two_pow_pos _)
    have first : (lo + 2 ^ (2 * w) * (2 ^ (2 * w * n) * hi)) % 2 ^ w = lo % 2 ^ w := by
      rw [two_mul, pow_add, Nat.mul_assoc, Nat.add_mul_mod_self_left]
    have second : (lo + 2 ^ (2 * w) * (2 ^ (2 * w * n) * hi)) / 2 ^ w % 2 ^ w =
        lo / 2 ^ w % 2 ^ w := by
      rw [two_mul, pow_add, Nat.mul_assoc, Nat.add_mul_div_left _ _ (Nat.two_pow_pos _),
        Nat.add_mul_mod_self_left]
    have rest : lo / 2 ^ (2 * w) < 2 ^ (2 * w * n) := by
      rw [Nat.div_lt_iff_lt_mul (Nat.two_pow_pos _), ← pow_add, Nat.add_comm, ← width]
      exact low
    rw [Nat.succ_add, width, pow_add, Nat.mul_assoc, addNeighbours_succ, above, first, second,
      ih rest, addNeighbours_succ]
    ring

theorem fieldSum_addNeighbours (some : 0 < w) (n x : Nat) :
    fieldSum (2 * w) n (addNeighbours w n x) = fieldSum w (2 * n) x := by
  induction n generalizing x with
  | zero => rfl
  | succ n ih =>
    have block := neighbours_lt some x
    have twice : x / 2 ^ w / 2 ^ w = x / 2 ^ (2 * w) := by
      rw [Nat.div_div_eq_div_mul, ← pow_add, two_mul]
    rw [addNeighbours_succ, fieldSum, Nat.add_mul_mod_self_left, Nat.mod_eq_of_lt block,
      Nat.add_mul_div_left _ _ (Nat.two_pow_pos _), Nat.div_eq_of_lt block, Nat.zero_add, ih,
      Nat.mul_succ, fieldSum, fieldSum, twice]
    omega

/-- Where sums do not spill, they may be added before the other halves are masked away. -/
theorem and_add_shift (n x : Nat)
    (fits : ∀ i, x / 2 ^ (w * i) % 2 ^ w + x / 2 ^ (w * (i + 1)) % 2 ^ w < 2 ^ w) :
    (x + (x >>> w)) &&& lowHalves w n = addNeighbours w n x := by
  induction n generalizing x with
  | zero => simp [addNeighbours, lowHalves]
  | succ n ih =>
    have here := fits 0
    have next := fits 1
    have further : ∀ i, x / 2 ^ (2 * w) / 2 ^ (w * i) = x / 2 ^ (w * (i + 2)) := by
      intro i
      rw [Nat.div_div_eq_div_mul, ← pow_add]
      congr 2
      ring
    have rest := ih (x / 2 ^ (2 * w)) fun i => by
      rw [further, further]
      exact fits (i + 2)
    have twice : x / 2 ^ w / 2 ^ w = x / 2 ^ (2 * w) := by
      rw [Nat.div_div_eq_div_mul, ← pow_add, two_mul]
    -- the sum as two fields and what is above them
    have parts : x + x / 2 ^ w = (x % 2 ^ w + x / 2 ^ w % 2 ^ w) +
        2 ^ w * ((x / 2 ^ w % 2 ^ w + x / 2 ^ (2 * w) % 2 ^ w) +
          2 ^ w * (x / 2 ^ (2 * w) + x / 2 ^ (2 * w) / 2 ^ w)) := by
      have first := Nat.mod_add_div x (2 ^ w)
      have second := Nat.mod_add_div (x / 2 ^ w) (2 ^ w)
      have third := Nat.mod_add_div (x / 2 ^ (2 * w)) (2 ^ w)
      rw [twice] at second
      calc x + x / 2 ^ w
        _ = (x % 2 ^ w + 2 ^ w * (x / 2 ^ w % 2 ^ w + 2 ^ w * (x / 2 ^ (2 * w)))) +
            (x / 2 ^ w % 2 ^ w + 2 ^ w * (x / 2 ^ (2 * w) % 2 ^ w +
              2 ^ w * (x / 2 ^ (2 * w) / 2 ^ w))) := by rw [third, second, first]
        _ = _ := by ring
    rw [Nat.mul_zero, pow_zero, Nat.div_one, Nat.zero_add, Nat.mul_one] at here
    rw [Nat.mul_one, show w * (1 + 1) = 2 * w by ring] at next
    have low : (x + x / 2 ^ w) % 2 ^ w = x % 2 ^ w + x / 2 ^ w % 2 ^ w := by
      rw [parts, Nat.add_mul_mod_self_left, Nat.mod_eq_of_lt here]
    have high : (x + x / 2 ^ w) / 2 ^ (2 * w) = x / 2 ^ (2 * w) + (x / 2 ^ (2 * w)) >>> w := by
      rw [parts, two_mul, pow_add, ← Nat.div_div_eq_div_mul,
        Nat.add_mul_div_left _ _ (Nat.two_pow_pos _), Nat.div_eq_of_lt here, Nat.zero_add,
        ← pow_add, ← two_mul, Nat.add_mul_div_left _ _ (Nat.two_pow_pos _),
        Nat.div_eq_of_lt next, Nat.zero_add, Nat.shiftRight_eq_div_pow]
    rw [and_lowHalves, Nat.shiftRight_eq_div_pow, low, high, rest, addNeighbours_succ]

theorem fieldSum_one (n x : Nat) : fieldSum 1 n x = (List.range n).countP x.testBit := by
  induction n generalizing x with
  | zero => rfl
  | succ n ih =>
    have shifted : x.testBit ∘ Nat.succ = (x / 2).testBit := by
      funext i
      exact Nat.testBit_succ x i
    rw [fieldSum, pow_one, ih, List.range_succ_eq_map, List.countP_cons, List.countP_map, shifted,
      Nat.add_comm, Nat.testBit_zero]
    rcases Nat.mod_two_eq_zero_or_one x with even | odd
    · simp [even]
    · simp [odd]

/-! ## Sums that may be left in bytes -/

theorem addNeighbours_field_lt (some : 0 < w) (n x i : Nat) :
    addNeighbours w n x / 2 ^ (2 * w * i) % 2 ^ (2 * w) + 1 < 2 * 2 ^ w := by
  have positive : 2 ≤ 2 ^ w := Nat.le_self_pow some.ne' 2
  induction n generalizing x i with
  | zero =>
    have none : addNeighbours w 0 x = 0 := by simp [addNeighbours, lowHalves]
    rw [none, Nat.zero_div, Nat.zero_mod]
    omega
  | succ n ih =>
    have block := neighbours_lt some x
    rw [addNeighbours_succ]
    cases i with
    | zero =>
      have first := Nat.mod_lt x (Nat.two_pow_pos w)
      have second := Nat.mod_lt (x / 2 ^ w) (Nat.two_pow_pos w)
      rw [Nat.mul_zero, pow_zero, Nat.div_one, Nat.add_mul_mod_self_left, Nat.mod_eq_of_lt block]
      omega
    | succ i =>
      rw [Nat.mul_succ, Nat.add_comm (2 * w * i), pow_add, ← Nat.div_div_eq_div_mul,
        Nat.add_mul_div_left _ _ (Nat.two_pow_pos _), Nat.div_eq_of_lt block, Nat.zero_add]
      exact ih _ i

theorem and_add_two_mul (n : Nat) {x : Nat} (below : x < 2 ^ (2 * n)) :
    (x &&& lowHalves 1 n) + 2 * ((x >>> 1) &&& lowHalves 1 n) = x := by
  induction n generalizing x with
  | zero =>
    have none : x = 0 := by simpa using below
    simp [none, lowHalves]
  | succ n ih =>
    have next : x / 2 ^ 1 / 2 ^ (2 * 1) = x / 2 ^ (2 * 1) / 2 ^ 1 := by omega
    have rest := @ih (x / 2 ^ (2 * 1)) (by
      rw [Nat.div_lt_iff_lt_mul (by decide), ← pow_add]
      exact below)
    rw [Nat.shiftRight_eq_div_pow] at rest
    rw [and_lowHalves, and_lowHalves, Nat.shiftRight_eq_div_pow, next]
    omega

theorem sub_and_shift (n : Nat) {x : Nat} (below : x < 2 ^ (2 * n)) :
    x - ((x >>> 1) &&& lowHalves 1 n) = addNeighbours 1 n x := by
  have whole := and_add_two_mul n below
  rw [addNeighbours]
  omega

/-- The number of bits set in each byte, as a byte. -/
def byteCounts (n x : Nat) : Nat :=
  addNeighbours 4 n (addNeighbours 2 (2 * n) (addNeighbours 1 (4 * n) x))

theorem byteCounts_succ (n x : Nat) :
    byteCounts (n + 1) x = (List.range 8).countP x.testBit + 2 ^ 8 * byteCounts n (x / 2 ^ 8) := by
  have lo : x % 2 ^ 8 < 2 ^ (2 * 1 * 4) := Nat.mod_lt x (by decide)
  have sums : addNeighbours 1 4 (x % 2 ^ 8) < 2 ^ (2 * 2 * 2) := addNeighbours_lt (by decide) 4 _
  have sums' : addNeighbours 2 2 (addNeighbours 1 4 (x % 2 ^ 8)) < 2 ^ (2 * 4 * 1) :=
    addNeighbours_lt (by decide) 2 _
  have last : addNeighbours 4 1 (addNeighbours 2 2 (addNeighbours 1 4 (x % 2 ^ 8))) < 2 ^ 8 :=
    addNeighbours_lt (by decide) 1 _
  have count : addNeighbours 4 1 (addNeighbours 2 2 (addNeighbours 1 4 (x % 2 ^ 8))) =
      (List.range 8).countP x.testBit := by
    have field := fieldSum_addNeighbours (w := 4) (by decide) 1
      (addNeighbours 2 2 (addNeighbours 1 4 (x % 2 ^ 8)))
    rw [fieldSum_addNeighbours (w := 2) (by decide) 2,
      fieldSum_addNeighbours (w := 1) (by decide) 4, fieldSum_one, fieldSum, fieldSum,
      Nat.mod_eq_of_lt last, Nat.add_zero] at field
    rw [field]
    apply List.countP_congr
    intro i inside
    rw [Nat.testBit_mod_two_pow, decide_eq_true (List.mem_range.mp inside), Bool.true_and]
  conv_lhs => rw [← Nat.mod_add_div x (2 ^ 8)]
  rw [byteCounts, Nat.mul_add, Nat.mul_add, Nat.add_comm (4 * n), Nat.add_comm (2 * n),
    Nat.add_comm n]
  have first := addNeighbours_blocks 4 (4 * n) (x / 2 ^ 8) lo
  have second := addNeighbours_blocks 2 (2 * n) (addNeighbours 1 (4 * n) (x / 2 ^ 8)) sums
  have third := addNeighbours_blocks 1 n
    (addNeighbours 2 (2 * n) (addNeighbours 1 (4 * n) (x / 2 ^ 8))) sums'
  rw [← count, byteCounts]
  rw [← third, ← second, ← first]

end GnuRadio
