import Mathlib.Algebra.Polynomial.Div
import Mathlib.RingTheory.Coprime.Lemmas
import Mathlib.Data.List.GetD

/-!
# Division of digit strings

A string of digits is the polynomial that has them as its coefficients, the first one the
highest. A register that takes a digit at a time, feeding it in above its top place, holds the
remainder of what it has taken. A divisor with a unit as its constant term divides no non-zero
string whose digits all vanish outside of a window as long as its degree.
-/

namespace GnuRadio

open Polynomial

section Digits

variable {R : Type} [CommRing R]

noncomputable def digitsPoly (ds : List R) : R[X] := ds.foldl (fun p d => p * X + C d) 0

@[simp] theorem digitsPoly_nil : digitsPoly ([] : List R) = 0 := rfl

@[simp] theorem digitsPoly_concat (ds : List R) (d : R) :
    digitsPoly (ds ++ [d]) = digitsPoly ds * X + C d := by
  simp [digitsPoly]

theorem digitsPoly_append (ds es : List R) :
    digitsPoly (ds ++ es) = digitsPoly ds * X ^ es.length + digitsPoly es := by
  induction es using List.reverseRecOn with
  | nil => simp
  | append_singleton es e ih =>
    rw [← List.append_assoc, digitsPoly_concat, digitsPoly_concat, ih, List.length_append,
      List.length_singleton, pow_succ]
    ring

theorem coeff_digitsPoly (ds : List R) (k : ℕ) :
    (digitsPoly ds).coeff k = ds.reverse.getD k 0 := by
  induction ds using List.reverseRecOn generalizing k with
  | nil => simp
  | append_singleton ds d ih =>
    rw [digitsPoly_concat, List.reverse_append, List.reverse_singleton, List.singleton_append]
    cases k with
    | zero => simp
    | succ k => simp [ih]

theorem degree_digitsPoly_lt (ds : List R) : (digitsPoly ds).degree < ds.length := by
  rw [degree_lt_iff_coeff_zero]
  intro k beyond
  rw [coeff_digitsPoly]
  exact List.getD_eq_default _ _ (by simpa using beyond)

variable {ds es : List R}

theorem digitsPoly_inj (same : ds.length = es.length) (equal : digitsPoly ds = digitsPoly es) :
    ds = es := by
  apply List.reverse_injective
  apply List.ext_getElem (by simpa using same)
  intro k low high
  have coeffs := congrArg (coeff · k) equal
  rwa [coeff_digitsPoly, coeff_digitsPoly, List.getD_eq_getElem _ _ low,
    List.getD_eq_getElem _ _ high] at coeffs

theorem digitsPoly_zipWith (same : ds.length = es.length) :
    digitsPoly (List.zipWith (· + ·) ds es) = digitsPoly ds + digitsPoly es := by
  induction ds using List.reverseRecOn generalizing es with
  | nil =>
    obtain rfl := List.eq_nil_of_length_eq_zero same.symm
    simp
  | append_singleton ds d ih =>
    cases es using List.reverseRecOn with
    | nil => simp at same
    | append_singleton es e =>
      have rest : ds.length = es.length := by simpa using same
      rw [List.zipWith_append rest, List.zipWith_cons_cons, List.zipWith_nil_left,
        digitsPoly_concat, digitsPoly_concat, digitsPoly_concat, ih rest, C_add]
      ring

end Digits

section Division

variable {R : Type} [CommRing R] {g : R[X]}

/-- A register takes a digit, above its top place `n`. -/
noncomputable def divideDigit (g : R[X]) (n : ℕ) (r : R[X]) (d : R) : R[X] :=
  (r * X + C d * X ^ n) %ₘ g

theorem modByMonic_mul_add (monic : g.Monic) (p q r : R[X]) :
    (p %ₘ g * q + r) %ₘ g = (p * q + r) %ₘ g := by
  apply modByMonic_eq_of_dvd_sub monic
  have factor : p %ₘ g * q + r - (p * q + r) = (p %ₘ g - p) * q := by ring
  rw [factor]
  exact (dvd_modByMonic_sub p g).mul_right q

theorem foldl_divideDigit [Nontrivial R] (monic : g.Monic) {n : ℕ} (degree : g.degree = n)
    {r : R[X]} (small : r.degree < n) (ds : List R) :
    ds.foldl (divideDigit g n) r = (r * X ^ ds.length + digitsPoly ds * X ^ n) %ₘ g := by
  induction ds using List.reverseRecOn with
  | nil =>
    rw [← degree] at small
    simpa using ((modByMonic_eq_self_iff monic).mpr small).symm
  | append_singleton ds d ih =>
    rw [List.foldl_append, ih, List.foldl_cons, List.foldl_nil, divideDigit,
      modByMonic_mul_add monic, digitsPoly_concat, List.length_append, List.length_singleton,
      pow_succ]
    congr 1
    ring

theorem isCoprime_X (unit : IsUnit (g.coeff 0)) : IsCoprime g X := by
  obtain ⟨c, inverse⟩ := unit.exists_left_inv
  refine ⟨C c, -(C c * g.divX), ?_⟩
  calc C c * g + -(C c * g.divX) * X
    _ = C c * (g.divX * X + C (g.coeff 0)) + -(C c * g.divX) * X := by rw [divX_mul_X_add]
    _ = C (c * g.coeff 0) := by rw [C_mul]; ring
    _ = 1 := by rw [inverse, C_1]

theorem not_dvd_burst [Nontrivial R] (monic : g.Monic) {n : ℕ} (degree : g.degree = n)
    (unit : IsUnit (g.coeff 0)) {p : R[X]} (some : p ≠ 0) (m : ℕ)
    (low : ∀ k < m, p.coeff k = 0) (high : ∀ k ≥ m + n, p.coeff k = 0) : ¬g ∣ p := by
  intro divides
  obtain ⟨e, rfl⟩ := X_pow_dvd_iff.mpr low
  have burst : g ∣ e := ((isCoprime_X unit).pow_right).dvd_of_dvd_mul_left divides
  have small : e.degree < g.degree := by
    rw [degree, degree_lt_iff_coeff_zero]
    intro k beyond
    have zero := high (k + m) (by omega)
    rwa [coeff_X_pow_mul] at zero
  have none : e = 0 := by
    rw [← (modByMonic_eq_self_iff monic).mpr small]
    exact (modByMonic_eq_zero_iff_dvd monic).mpr burst
  rw [none, mul_zero] at some
  exact some rfl

end Division

end GnuRadio
