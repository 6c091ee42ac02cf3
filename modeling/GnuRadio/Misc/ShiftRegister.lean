import Mathlib.Tactic.Ring

/-!
# Shift registers of bits

A register of `m` bits is a number below `2 ^ m`, its newest bit the most significant one. A bit
enters above it and the oldest one falls out. The bits that entered are listed newest first.
-/

namespace GnuRadio

namespace ShiftRegister

/-- The register and the bit that enters. -/
def entered (m b r : ℕ) : ℕ := b * 2 ^ m + r

/-- What the register holds after these bits, from a register of zeros. -/
def content (m : ℕ) : List ℕ → ℕ
  | [] => 0
  | b :: past => entered m b (content m past) / 2

variable {m b r : ℕ} {past : List ℕ}

theorem entered_lt (bit : b < 2) (below : r < 2 ^ m) : entered m b r < 2 ^ m * 2 := by
  have least : b * 2 ^ m ≤ 1 * 2 ^ m := Nat.mul_le_mul_right _ (Nat.le_of_lt_succ bit)
  rw [entered]
  omega

theorem content_lt (bits : ∀ b ∈ past, b < 2) : content m past < 2 ^ m := by
  induction past with
  | nil => exact Nat.two_pow_pos m
  | cons b past ih =>
    have below := ih fun c older => bits c (List.mem_cons_of_mem b older)
    exact Nat.div_lt_of_lt_mul (Nat.mul_comm (2 ^ m) 2 ▸
      entered_lt (bits b List.mem_cons_self) below)

theorem entered_top (bit : b < 2) (below : r < 2 ^ m) : entered m b r / 2 ^ m % 2 = b := by
  rw [entered, Nat.add_comm, Nat.add_mul_div_right _ _ (Nat.two_pow_pos m),
    Nat.div_eq_of_lt below, Nat.zero_add, Nat.mod_eq_of_lt bit]

theorem entered_below {p : ℕ} (inside : p < m) : entered m b r / 2 ^ p % 2 = r / 2 ^ p % 2 := by
  obtain ⟨rest, rfl⟩ := Nat.exists_eq_add_of_lt inside
  have split : entered (p + rest + 1) b r = r + 2 * (b * 2 ^ rest) * 2 ^ p := by
    rw [entered]
    ring
  rw [split, Nat.add_mul_div_right _ _ (Nat.two_pow_pos p), Nat.add_mul_mod_self_left]

theorem entered_content (bit : b < 2) (bits : ∀ c ∈ past, c < 2) {d : ℕ} (within : d ≤ m) :
    entered m b (content m past) / 2 ^ (m - d) % 2 = (b :: past).getD d 0 := by
  induction past generalizing b d with
  | nil =>
    cases d with
    | zero => exact entered_top bit (Nat.two_pow_pos m)
    | succ d =>
      rw [entered_below (by omega)]
      simp [content]
  | cons c past ih =>
    cases d with
    | zero => exact entered_top bit (content_lt bits)
    | succ d =>
      have place : (m - (d + 1)).succ = m - d := by omega
      have earlier := ih (bits c List.mem_cons_self)
        (fun e older => bits e (List.mem_cons_of_mem c older)) (Nat.le_of_succ_le within)
      rw [entered_below (by omega), content, Nat.div_div_eq_div_mul, ← Nat.pow_succ', place,
        earlier, List.getD_cons_succ]

end ShiftRegister

end GnuRadio
