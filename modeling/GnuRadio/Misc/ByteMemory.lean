import GnuRadio.Misc.LittleEndian
import Mathlib.Data.List.GetD

/-!
# Bytes in memory

Words that are stored as eight bytes, areas that do not overlap, and addresses that are rounded up.
-/

namespace GnuRadio

/-! ## Words -/

def readWord (memory : ℕ → UInt8) (p : ℕ) : UInt64 :=
  UInt64.ofNat (ofBytesLE ((List.range 8).map fun i => memory (p + i)))

def writeWord (memory : ℕ → UInt8) (p : ℕ) (v : UInt64) : ℕ → UInt8 := fun a =>
  if p ≤ a ∧ a < p + 8 then (bytesLE 8 v.toNat).getD (a - p) 0 else memory a

variable {memory : ℕ → UInt8} {p size alignment : ℕ}

theorem writeWord_other {a : ℕ} {v : UInt64} (other : a < p ∨ p + 8 ≤ a) :
    writeWord memory p v a = memory a :=
  if_neg (by omega)

theorem readWord_writeWord (memory : ℕ → UInt8) (p : ℕ) (v : UInt64) :
    readWord (writeWord memory p v) p = v := by
  have bytes : (List.range 8).map (fun i => writeWord memory p v (p + i)) = bytesLE 8 v.toNat := by
    refine List.ext_getElem (by simp) fun i inside inside' => ?_
    rw [length_bytesLE] at inside'
    rw [List.getElem_map, List.getElem_range, writeWord, if_pos ⟨by omega, by omega⟩,
      Nat.add_sub_cancel_left]
    exact List.getD_eq_getElem _ _ _
  have fits : v.toNat % 256 ^ 8 = v.toNat := Nat.mod_eq_of_lt v.toNat_lt
  rw [readWord, bytes, ofBytesLE_bytesLE, fits, UInt64.ofNat_toNat]

theorem readWord_congr {memory' : ℕ → UInt8}
    (same : ∀ a, p ≤ a → a < p + 8 → memory' a = memory a) :
    readWord memory' p = readWord memory p := by
  have bytes : (List.range 8).map (fun i => memory' (p + i)) =
      (List.range 8).map fun i => memory (p + i) := by
    refine List.map_congr_left fun i inside => ?_
    have less := List.mem_range.mp inside
    exact same (p + i) (by omega) (by omega)
  rw [readWord, readWord, bytes]

/-! ## Areas -/

/-- Two areas of the same size do not overlap. -/
def Apart (size p q : ℕ) : Prop := p + size ≤ q ∨ q + size ≤ p

instance (size p q : ℕ) : Decidable (Apart size p q) := inferInstanceAs (Decidable (_ ∨ _))

theorem Apart.symm {q : ℕ} (apart : Apart size p q) : Apart size q p := Or.symm apart

theorem Apart.mono {less q : ℕ} (apart : Apart size p q) (small : less ≤ size) :
    Apart less p q := by
  unfold Apart at *
  omega

theorem apart_of_ne {start i j : ℕ} (other : i ≠ j) :
    Apart size (start + i * size) (start + j * size) := by
  obtain before | behind := Nat.lt_or_gt_of_ne other
  · have next := Nat.mul_le_mul_right size (Nat.succ_le_of_lt before)
    rw [Nat.succ_mul] at next
    exact Or.inl (by omega)
  · have next := Nat.mul_le_mul_right size (Nat.succ_le_of_lt behind)
    rw [Nat.succ_mul] at next
    exact Or.inr (by omega)

theorem length_lt_of_nodup {l : List UInt64} (nodup : l.Nodup) (notNull : ∀ p ∈ l, p ≠ 0) :
    l.length < 2 ^ 64 := by
  have injective : Function.Injective UInt64.toNat := fun p q same => UInt64.toNat_inj.mp same
  have nodup' : ((0 :: l).map UInt64.toNat).Nodup :=
    (List.nodup_cons.mpr ⟨fun member => notNull 0 member rfl, nodup⟩).map injective
  have small : (0 :: l).map UInt64.toNat ⊆ List.range (2 ^ 64) := by
    intro a member
    obtain ⟨p, -, rfl⟩ := List.mem_map.mp member
    exact List.mem_range.mpr p.toNat_lt
  have length := (nodup'.subperm small).length_le
  rw [List.length_map, List.length_cons, List.length_range] at length
  exact length

/-! ## Alignment -/

def alignUp (x alignment : ℕ) : ℕ := (x + alignment - 1) / alignment * alignment

theorem dvd_alignUp (x alignment : ℕ) : alignment ∣ alignUp x alignment := Nat.dvd_mul_left ..

theorem le_alignUp {x : ℕ} (positive : 0 < alignment) : x ≤ alignUp x alignment := by
  have division := Nat.div_add_mod (x + alignment - 1) alignment
  have remainder := Nat.mod_lt (x + alignment - 1) positive
  rw [alignUp, Nat.mul_comm]
  omega

theorem add_sub_one_lt {x limit : ℕ} (divides : alignment ∣ limit)
    (inside : alignUp x alignment < limit) : x + alignment - 1 < limit := by
  by_contra beyond
  obtain ⟨m, rfl⟩ := divides
  rw [Nat.not_lt] at beyond
  obtain rfl | positive := Nat.eq_zero_or_pos alignment
  · rw [Nat.zero_mul] at inside
    cases inside
  · rw [Nat.mul_comm] at beyond
    have quotient := (Nat.le_div_iff_mul_le positive).mpr beyond
    have reached := Nat.mul_le_mul_right alignment quotient
    rw [Nat.mul_comm m] at reached
    exact absurd inside (Nat.not_lt.mpr reached)

end GnuRadio
