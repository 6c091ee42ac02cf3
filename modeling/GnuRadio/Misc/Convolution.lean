import Mathlib.Algebra.BigOperators.Intervals
import Mathlib.Algebra.Module.Defs

/-!
# Convolution

Taps `h` act on a stream `x` of items of a module. `firAfter h x T` is what they make of
the first `T` items: the newest item meets the first tap. Before its first item the stream
is zero. A filter that keeps a window of the stream, oldest item first, and its taps in
reverse finds the same sum.
-/

namespace GnuRadio

variable {R M : Type} [Semiring R] [AddCommMonoid M] [Module R M]

/-- The sum of the first `n` products. -/
def dot (n : ℕ) (h : ℕ → R) (x : ℕ → M) : M := ∑ k ∈ Finset.range n, h k • x k

/-- What the taps make of the first `T` items. -/
def firAfter (h : ℕ → R) (x : ℕ → M) (T : ℕ) : M := ∑ k ∈ Finset.range T, h k • x (T - 1 - k)

/-- Item `t` of the convolution of the taps with the stream. -/
def conv (h : ℕ → R) (x : ℕ → M) (t : ℕ) : M := firAfter h x (t + 1)

/-- The stream after `d` zeros. -/
def precede (d : ℕ) (x : ℕ → M) (t : ℕ) : M := if t < d then 0 else x (t - d)

@[simp] theorem precede_zero (x : ℕ → M) : precede 0 x = x := rfl

omit [Module R M] in
theorem precede_add (d : ℕ) (x : ℕ → M) (t : ℕ) : precede d x (d + t) = x t := by
  rw [precede, if_neg (by omega), Nat.add_sub_cancel_left]

variable {h : ℕ → R} {n : ℕ}

theorem firAfter_eq_sum (short : ∀ k, n ≤ k → h k = 0) (x : ℕ → M) (T : ℕ) :
    firAfter h x T = ∑ k ∈ Finset.range n, if k < T then h k • x (T - 1 - k) else 0 := by
  have inside : ∑ k ∈ Finset.range n, (if k < T then h k • x (T - 1 - k) else 0) =
      ∑ k ∈ Finset.range (max n T), if k < T then h k • x (T - 1 - k) else 0 := by
    refine Finset.sum_subset (Finset.range_mono (le_max_left n T)) fun k _ beyond => ?_
    rw [short k (not_lt.mp fun less => beyond (Finset.mem_range.mpr less)), zero_smul, ite_self]
  have whole : firAfter h x T =
      ∑ k ∈ Finset.range (max n T), if k < T then h k • x (T - 1 - k) else 0 := by
    refine (Finset.sum_congr rfl fun k less => ?_).trans
      (Finset.sum_subset (Finset.range_mono (le_max_right n T)) fun k _ beyond => ?_)
    · rw [if_pos (Finset.mem_range.mp less)]
    · rw [if_neg fun less => beyond (Finset.mem_range.mpr less)]
  rw [inside, whole]

theorem dot_window (short : ∀ k, n ≤ k → h k = 0) (x : ℕ → M) (T : ℕ) :
    dot n (fun k => h (n - 1 - k)) (fun k => precede n x (T + k)) = firAfter h x T := by
  rw [firAfter_eq_sum short, dot, ← Finset.sum_range_reflect]
  refine Finset.sum_congr rfl fun k less => ?_
  rw [Finset.mem_range] at less
  have back : n - 1 - (n - 1 - k) = k := by omega
  rw [back, precede]
  by_cases early : k < T
  · rw [if_neg (by omega), if_pos early]
    congr 2
    omega
  · rw [if_pos (by omega), if_neg early, smul_zero]

theorem dot_history (short : ∀ k, n ≤ k → h k = 0) (some : 0 < n) (x : ℕ → M) (t : ℕ) :
    dot n (fun k => h (n - 1 - k)) (fun k => precede (n - 1) x (t + k)) = conv h x t := by
  rw [conv, ← dot_window short]
  refine Finset.sum_congr rfl fun k _ => ?_
  have place : t + 1 + k - n = t + k - (n - 1) := by omega
  simp only [precede, place]
  by_cases early : t + k < n - 1
  · rw [if_pos early, if_pos (by omega)]
  · rw [if_neg early, if_neg (by omega)]

theorem conv_single (h : ℕ → R) (s t : ℕ) :
    conv h (Pi.single s (1 : R)) t = if s ≤ t then h (t - s) else 0 := by
  rw [conv, firAfter, Nat.add_sub_cancel]
  by_cases early : s ≤ t
  · rw [if_pos early, Finset.sum_eq_single_of_mem (t - s) (Finset.mem_range.mpr (by omega))]
    · rw [Nat.sub_sub_self early, Pi.single_eq_same, smul_eq_mul, mul_one]
    · intro k less other
      rw [Finset.mem_range] at less
      rw [Pi.single_eq_of_ne (by omega), smul_zero]
  · rw [if_neg early]
    refine Finset.sum_eq_zero fun k _ => ?_
    rw [Pi.single_eq_of_ne (by omega), smul_zero]

@[simp] theorem conv_zero (x : ℕ → M) (t : ℕ) : conv (fun _ => (0 : R)) x t = 0 := by
  simp [conv, firAfter]

/-- The stream with `I - 1` zeros after each item. -/
def upsample (I : ℕ) (x : ℕ → M) (t : ℕ) : M := if t % I = 0 then x (t / I) else 0

@[simp] theorem upsample_one (x : ℕ → M) : upsample 1 x = x := by
  funext t
  rw [upsample, if_pos (Nat.mod_one t), Nat.div_one]

theorem conv_upsample {I : ℕ} (positive : 0 < I) (h : ℕ → R) (x : ℕ → M) (u : ℕ) :
    conv h (upsample I x) u = conv (fun j => h (u % I + I * j)) x (u / I) := by
  have whole := Nat.div_add_mod u I
  have meets : conv h (upsample I x) u =
      ∑ k ∈ (Finset.range (u + 1)).filter (fun k => k % I = u % I), h k • x (u / I - k / I) := by
    rw [conv, firAfter, Finset.sum_filter]
    refine Finset.sum_congr rfl fun k less => ?_
    rw [Finset.mem_range] at less
    have split := Nat.div_add_mod k I
    have below : k / I ≤ u / I := Nat.div_le_div_right (by omega)
    rw [Nat.add_sub_cancel, upsample]
    by_cases same : k % I = u % I
    · have rest : u - k = I * (u / I - k / I) := by
        rw [Nat.mul_sub]
        omega
      rw [if_pos same, rest, if_pos (Nat.mul_mod_right _ _), Nat.mul_div_cancel_left _ positive]
    · rw [if_neg same, if_neg fun divides => same ?_, smul_zero]
      have multiple := Nat.div_add_mod (u - k) I
      have sum : u = k + I * ((u - k) / I) := by omega
      rw [sum, Nat.add_mul_mod_self_left]
  rw [meets, conv, firAfter]
  refine Finset.sum_nbij' (fun k => k / I) (fun j => u % I + I * j) ?_ ?_ ?_ ?_ ?_
  · intro k member
    rw [Finset.mem_filter, Finset.mem_range] at member
    have below : k / I ≤ u / I := Nat.div_le_div_right (by omega)
    exact Finset.mem_range.mpr (by omega)
  · intro j less
    have below : I * j ≤ I * (u / I) :=
      Nat.mul_le_mul_left I (Nat.lt_succ_iff.mp (Finset.mem_range.mp less))
    rw [Finset.mem_filter, Finset.mem_range, Nat.add_mul_mod_self_left, Nat.mod_mod]
    exact ⟨by omega, rfl⟩
  · intro k member
    rw [Finset.mem_filter] at member
    rw [← member.2, Nat.mod_add_div]
  · intro j _
    rw [Nat.add_mul_div_left _ _ positive, Nat.div_eq_of_lt (Nat.mod_lt u positive), Nat.zero_add]
  · intro k member
    rw [Finset.mem_filter] at member
    rw [← member.2, Nat.mod_add_div, Nat.add_sub_cancel]

theorem dot_delayed {d N : ℕ} (short : ∀ k, n ≤ k → h k = 0) (room : d + n ≤ N) (x : ℕ → M) :
    dot N (fun k => if k < d then 0 else h (k - d)) x = dot n h fun k => x (d + k) := by
  have whole : d + (N - d) = N := by omega
  have early : ∑ k ∈ Finset.range d, (if k < d then 0 else h (k - d)) • x k = 0 :=
    Finset.sum_eq_zero fun k less => by rw [if_pos (Finset.mem_range.mp less), zero_smul]
  rw [dot, ← whole, Finset.sum_range_add, early, zero_add, dot]
  have shifted : ∀ k, (if d + k < d then 0 else h (d + k - d)) • x (d + k) = h k • x (d + k) := by
    intro k
    rw [if_neg (by omega), Nat.add_sub_cancel_left]
  rw [Finset.sum_congr rfl fun k _ => shifted k]
  refine (Finset.sum_subset (Finset.range_mono (by omega)) fun k _ beyond => ?_).symm
  rw [short k (not_lt.mp fun less => beyond (Finset.mem_range.mpr less)), zero_smul]

end GnuRadio

/-!
## Overlap and add

`fromFirst h x T t` is what the first `T` items of a stream give to item `t` of its convolution
with the taps. It can be added up block by block, and for one block it is a circular
convolution, when that has room for the block and for what the taps make of its end.
-/

namespace GnuRadio

variable {R : Type} [CommSemiring R]

/-- Item `t` of the circular convolution of size `n`. -/
def circular (n : ℕ) (a b : ℕ → R) (t : ℕ) : R :=
  ∑ s ∈ Finset.range n, a s * b ((t + n - s) % n)

/-- What the first `T` items give to item `t` of the convolution. -/
def fromFirst (h x : ℕ → R) (T t : ℕ) : R :=
  ∑ s ∈ Finset.range T, if s ≤ t then x s * h (t - s) else 0

@[simp] theorem fromFirst_zero (h x : ℕ → R) (t : ℕ) : fromFirst h x 0 t = 0 := rfl

theorem fromFirst_add (h x : ℕ → R) (T n t : ℕ) : fromFirst h x (T + n) (T + t) =
    fromFirst h (fun s => x (T + s)) n t + fromFirst h x T (T + t) := by
  rw [fromFirst, Finset.sum_range_add, add_comm, fromFirst, fromFirst]
  congr 1
  refine Finset.sum_congr rfl fun s _ => ?_
  rw [Nat.add_sub_add_left]
  by_cases early : s ≤ t
  · rw [if_pos early, if_pos (by omega)]
  · rw [if_neg early, if_neg (by omega)]

variable {t ntaps : ℕ} {h : ℕ → R}

theorem fromFirst_eq_conv (h x : ℕ → R) {T : ℕ} (inside : t < T) :
    fromFirst h x T t = conv h x t := by
  have rest : ∑ s ∈ Finset.range (t + 1), (if s ≤ t then x s * h (t - s) else 0) =
      fromFirst h x T t := by
    refine Finset.sum_subset (Finset.range_mono inside) fun s _ beyond => ?_
    rw [if_neg fun early => beyond (Finset.mem_range.mpr (by omega))]
  rw [← rest, conv, firAfter, ← Finset.sum_range_reflect, Nat.add_sub_cancel]
  refine Finset.sum_congr rfl fun s less => ?_
  rw [Finset.mem_range] at less
  rw [if_pos (by omega), Nat.sub_sub_self (by omega), smul_eq_mul, mul_comm]

theorem fromFirst_beyond (short : ∀ k, ntaps ≤ k → h k = 0) (x : ℕ → R) {T : ℕ}
    (far : T + ntaps ≤ t + 1) : fromFirst h x T t = 0 := by
  refine Finset.sum_eq_zero fun s less => ?_
  rw [Finset.mem_range] at less
  split
  · rw [short _ (by omega), mul_zero]
  · rfl

theorem circular_padded {nsamples n : ℕ} (short : ∀ k, ntaps ≤ k → h k = 0) (positive : 0 < ntaps)
    (room : n + 1 = ntaps + nsamples) (x : ℕ → R) (inside : t < n) :
    circular n (fun s => if s < nsamples then x s else 0) h t = fromFirst h x nsamples t := by
  have block : ∑ s ∈ Finset.range nsamples, (if s < nsamples then x s else 0) *
      h ((t + n - s) % n) = circular n (fun s => if s < nsamples then x s else 0) h t := by
    refine Finset.sum_subset (Finset.range_mono (by omega)) fun s _ beyond => ?_
    rw [if_neg fun less => beyond (Finset.mem_range.mpr less), zero_mul]
  rw [← block]
  refine Finset.sum_congr rfl fun s less => ?_
  rw [Finset.mem_range] at less
  rw [if_pos less]
  by_cases early : s ≤ t
  · have turn : t + n - s = t - s + n := by omega
    rw [if_pos early, turn, Nat.add_mod_right, Nat.mod_eq_of_lt (by omega)]
  · -- the taps that come round meet the zeros after them
    rw [if_neg early, Nat.mod_eq_of_lt (by omega), short _ (by omega), mul_zero]

end GnuRadio
