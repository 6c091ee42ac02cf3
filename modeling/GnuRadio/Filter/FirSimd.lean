import GnuRadio.Filter.Fir
import GnuRadio.Runtime.Types
import Mathlib.Algebra.Module.NatInt
import Mathlib.Algebra.Module.Prod

/-!
# The aligned FIR kernels

`gr_fir_fff_simd` and `gr_fir_ccf_simd` call an assembly routine that works on blocks of four
floats, from addresses that are multiples of 16 bytes. They keep four copies of the taps, one
for each place of the input in its first block, with zeros around the taps. Addresses are
counted in floats here.
-/

namespace GnuRadio

/-- `gr_fir_fff_simd` and `gr_fir_ccf_simd` (`gr_fir_fff_simd.h:48-72`). -/
structure GrFirSimd (R : Type) extends GrFir R where
  d_aligned_taps : List (List R)

/-- `input & ~15`. -/
def roundDown16 (input : ℕ) : ℕ := input / 4 * 4

namespace GrFirSimd

variable {R : Type} [CommSemiring R]

/-- The copy that starts at place `i` (`gr_fir_fff_simd.cc:86-97`). With no taps the unsigned
`0 - 1` wraps in the source and is zero here; no tap of the copy is read then. -/
def alignedTaps (new_taps : List R) (i : ℕ) : List R :=
  let zeros := List.replicate (4 * (1 + (new_taps.length + i - 1) / 4)) 0
  (List.range new_taps.length).foldl (fun taps j => taps.set (j + i) (new_taps.getD j 0)) zeros

/-- `set_taps` (`gr_fir_fff_simd.cc:69-99`, `gr_fir_ccf_simd.cc:71-101`). -/
def setTaps (inew_taps : List R) : GrFirSimd R where
  toGrFir := GrFir.setTaps inew_taps
  d_aligned_taps := (List.range 4).map (alignedTaps inew_taps.reverse)

/-- `d_aligned_taps[al]`. -/
def aligned (fir : GrFirSimd R) (al : ℕ) : List R := fir.d_aligned_taps.getD al []

/-- The place of the input in its block (`al` of `gr_fir_fff_simd.cc:121`). -/
def alFff (input : ℕ) : ℕ := input - roundDown16 input

/-- The blocks that the routine is given (`gr_fir_fff_simd.cc:131`). -/
def blocksFff (fir : GrFirSimd R) (al : ℕ) : ℕ := (fir.ntaps + al - 1) / 4 + 1

/-- `gr_fir_fff_simd::filter` (`gr_fir_fff_simd.cc:101-136`). -/
def filterFff (d_float_dotprod : (ℕ → R) → (ℕ → R) → ℕ → R) (fir : GrFirSimd R) (mem : ℕ → R)
    (input : ℕ) : R :=
  if fir.ntaps = 0 then 0
  else
    let ar := offset mem (roundDown16 input)
    let al := alFff input
    d_float_dotprod ar ((fir.aligned al).getD · 0) (fir.blocksFff al)

/-- The place of the input in its block, counted in complex numbers (`al` of
`gr_fir_ccf_simd.cc:126`). -/
def alCcf (input : ℕ) : ℕ := (input - roundDown16 input) / 2

/-- The blocks of two complex numbers that the routine is given (`gr_fir_ccf_simd.cc:139`). -/
def blocksCcf (fir : GrFirSimd R) (al : ℕ) : ℕ := (fir.ntaps + al - 1) / 2 + 1

/-- `gr_fir_ccf_simd::filter` (`gr_fir_ccf_simd.cc:103-144`). The routine is called with the input
as taps and the taps as input; its result is a real and an imaginary part. -/
def filterCcf (d_fcomplex_dotprod : (ℕ → R) → (ℕ → R) → ℕ → R × R) (fir : GrFirSimd R)
    (mem : ℕ → R) (input : ℕ) : Except CppException (R × R) :=
  if fir.ntaps = 0 then .ok 0
  else if input % 2 ≠ 0 then .error (.invalidArgument "gr_complex must be 8-byte aligned")
  else
    let ar := offset mem (roundDown16 input)
    let al := alCcf input
    .ok (d_fcomplex_dotprod ((fir.aligned al).getD · 0) ar (fir.blocksCcf al))

/-- The assembly routine sums the products over the blocks of four floats. -/
def SumsFloats (dotprod : (ℕ → R) → (ℕ → R) → ℕ → R) : Prop :=
  ∀ input taps blocks, 0 < blocks → dotprod input taps blocks = dot (4 * blocks) taps input

/-- It sums the products of a float and a complex number over the blocks of two of them. -/
def SumsComplex (dotprod : (ℕ → R) → (ℕ → R) → ℕ → R × R) : Prop :=
  ∀ input taps blocks, 0 < blocks →
    dotprod input taps blocks = dot (2 * blocks) input fun k => (taps (2 * k), taps (2 * k + 1))

/-! ## The copies of the taps -/

theorem length_copy (new_taps taps : List R) (i count : ℕ) :
    ((List.range count).foldl (fun taps j => taps.set (j + i) (new_taps.getD j 0)) taps).length =
      taps.length := by
  induction count with
  | zero => rfl
  | succ count ih =>
    rw [List.range_succ, List.foldl_append, List.foldl_cons, List.foldl_nil, List.length_set, ih]

@[simp] theorem length_alignedTaps (new_taps : List R) (i : ℕ) :
    (alignedTaps new_taps i).length = 4 * (1 + (new_taps.length + i - 1) / 4) := by
  rw [alignedTaps, length_copy, List.length_replicate]

theorem getD_alignedTaps (new_taps : List R) (i k : ℕ) :
    (alignedTaps new_taps i).getD k 0 = if k < i then 0 else new_taps.getD (k - i) 0 := by
  have room : new_taps.length + i ≤ 4 * (1 + (new_taps.length + i - 1) / 4) := by omega
  have placed : ∀ count ≤ new_taps.length, ((List.range count).foldl (fun taps j =>
      taps.set (j + i) (new_taps.getD j 0)) (List.replicate
        (4 * (1 + (new_taps.length + i - 1) / 4)) 0)).getD k 0 =
      if i ≤ k ∧ k < count + i then new_taps.getD (k - i) 0 else 0 := by
    intro count within
    induction count with
    | zero =>
      rw [if_neg (by omega), List.range_zero, List.foldl_nil, List.getD_eq_getElem?_getD,
        List.getElem?_replicate]
      split <;> rfl
    | succ count ih =>
      have before := ih (by omega)
      rw [List.getD_eq_getElem?_getD] at before
      rw [List.range_succ, List.foldl_append, List.foldl_cons, List.foldl_nil,
        List.getD_eq_getElem?_getD, List.getElem?_set]
      by_cases here : count + i = k
      · subst here
        rw [if_pos rfl, if_pos (by rw [length_copy, List.length_replicate]; omega), if_pos (by omega),
          Nat.add_sub_cancel]
        rfl
      · rw [if_neg here, before]
        by_cases old : i ≤ k ∧ k < count + i
        · rw [if_pos old, if_pos (by omega)]
        · rw [if_neg old, if_neg (by omega)]
  rw [alignedTaps, placed _ le_rfl]
  by_cases before : k < i
  · rw [if_neg (by omega), if_pos before]
  · rw [if_neg before]
    split
    · rfl
    · rw [List.getD_eq_default _ _ (by omega)]

/-! ## What the kernels find -/

variable {mem : ℕ → R}

theorem aligned_setTaps (taps : List R) {al : ℕ} (inside : al < 4) :
    (setTaps taps).aligned al = alignedTaps taps.reverse al := by
  rw [aligned, setTaps, List.getD_eq_getElem?_getD, List.getElem?_map,
    List.getElem?_range inside]
  rfl

theorem alFff_lt (input : ℕ) : alFff input < 4 := by
  unfold alFff roundDown16
  omega

theorem alCcf_lt (input : ℕ) : alCcf input < 2 := by
  unfold alCcf roundDown16
  omega

theorem blocksFff_inside (taps : List R) (input : ℕ) : 4 * (setTaps taps).blocksFff (alFff input) ≤
    ((setTaps taps).aligned (alFff input)).length := by
  rw [aligned_setTaps taps (alFff_lt input), length_alignedTaps, List.length_reverse, blocksFff]
  simp only [setTaps, GrFir.ntaps_setTaps]
  omega

theorem blocksCcf_inside (taps : List R) (input : ℕ) : 2 * (setTaps taps).blocksCcf (alCcf input) ≤
    ((setTaps taps).aligned (alCcf input)).length := by
  have small := alCcf_lt input
  rw [aligned_setTaps taps (by omega), length_alignedTaps, List.length_reverse, blocksCcf]
  simp only [setTaps, GrFir.ntaps_setTaps]
  omega

theorem dot_aligned {M : Type} [AddCommMonoid M] [Module R M] (taps : List R) {al N : ℕ}
    (inside : al < 4) (room : al + taps.length ≤ N) (N_UNROLL : ℕ) (x : ℕ → M) :
    dot N (((setTaps taps).aligned al).getD · 0) x =
      (GrFir.setTaps taps).filter N_UNROLL (offset x al) := by
  have entries : (((setTaps taps).aligned al).getD · 0) =
      fun k => if k < al then 0 else taps.reverse.getD (k - al) 0 := by
    rw [aligned_setTaps taps inside]
    exact funext fun k => getD_alignedTaps taps.reverse al k
  have short : ∀ k, taps.length ≤ k → taps.reverse.getD k 0 = 0 := fun k beyond =>
    List.getD_eq_default _ _ (by rwa [List.length_reverse])
  rw [entries, dot_delayed short room, GrFir.filter_eq_dot, GrFir.ntaps_setTaps]
  rfl

theorem filterFff_eq {d_float_dotprod : (ℕ → R) → (ℕ → R) → ℕ → R}
    (sums : SumsFloats d_float_dotprod) (taps : List R) (N_UNROLL input : ℕ) :
    filterFff d_float_dotprod (setTaps taps) mem input =
      (GrFir.setTaps taps).filter N_UNROLL (offset mem input) := by
  have ntaps : (setTaps taps).ntaps = taps.length := GrFir.ntaps_setTaps taps
  unfold filterFff
  split
  · rename_i none
    rw [GrFir.filter_eq_dot, GrFir.ntaps_setTaps, ← ntaps, none]
    rfl
  · rename_i some
    have place : roundDown16 input + alFff input = input := by
      unfold alFff roundDown16
      omega
    have room : alFff input + taps.length ≤ 4 * (setTaps taps).blocksFff (alFff input) := by
      rw [blocksFff, ntaps]
      omega
    have positive : 0 < (setTaps taps).blocksFff (alFff input) := Nat.succ_pos _
    dsimp only
    rw [sums _ _ _ positive, dot_aligned taps (alFff_lt input) room N_UNROLL]
    congr 1
    funext k
    rw [offset, offset, offset, ← Nat.add_assoc, place]

/-- The complex numbers from an address on. -/
def complexes (mem : ℕ → R) (input : ℕ) : ℕ → R × R :=
  fun k => (mem (input + 2 * k), mem (input + 2 * k + 1))

variable {d_fcomplex_dotprod : (ℕ → R) → (ℕ → R) → ℕ → R × R} {input : ℕ}

theorem filterCcf_eq (sums : SumsComplex d_fcomplex_dotprod) (taps : List R) (N_UNROLL : ℕ)
    (even : input % 2 = 0) :
    filterCcf d_fcomplex_dotprod (setTaps taps) mem input =
      .ok ((GrFir.setTaps taps).filter N_UNROLL (complexes mem input)) := by
  have ntaps : (setTaps taps).ntaps = taps.length := GrFir.ntaps_setTaps taps
  unfold filterCcf
  split
  · rename_i none
    rw [GrFir.filter_eq_dot, GrFir.ntaps_setTaps, ← ntaps, none]
    rfl
  · rename_i some
    have small := alCcf_lt input
    have place : roundDown16 input + 2 * alCcf input = input := by
      unfold alCcf roundDown16
      omega
    have room : alCcf input + taps.length ≤ 2 * (setTaps taps).blocksCcf (alCcf input) := by
      rw [blocksCcf, ntaps]
      omega
    have items : offset (fun k => (offset mem (roundDown16 input) (2 * k),
        offset mem (roundDown16 input) (2 * k + 1))) (alCcf input) = complexes mem input := by
      funext k
      simp only [offset, complexes]
      refine Prod.ext (congrArg mem ?_) (congrArg mem ?_)
      · omega
      · omega
    have positive : 0 < (setTaps taps).blocksCcf (alCcf input) := Nat.succ_pos _
    rw [if_neg (by omega)]
    dsimp only
    rw [sums _ _ _ positive, dot_aligned taps (by omega) room N_UNROLL, items]

theorem filterCcf_odd (taps : List R) (odd : input % 2 = 1) :
    filterCcf d_fcomplex_dotprod (setTaps taps) mem input =
      if taps = [] then .ok 0
      else .error (.invalidArgument "gr_complex must be 8-byte aligned") := by
  have ntaps : (setTaps taps).ntaps = taps.length := GrFir.ntaps_setTaps taps
  have refused : input % 2 ≠ 0 := by omega
  rw [filterCcf, ntaps, if_pos refused]
  simp only [List.length_eq_zero_iff]

/-- The unrolled kernel sums the products of the reversed taps with the input. The aligned kernels
find the same wherever their input is in its block, and read taps of their copies only. -/
theorem fir_kernels_agree {M : Type} [AddCommMonoid M] [Module R M]
    {d_float_dotprod : (ℕ → R) → (ℕ → R) → ℕ → R}
    {d_fcomplex_dotprod : (ℕ → R) → (ℕ → R) → ℕ → R × R} (floats : SumsFloats d_float_dotprod)
    (complex : SumsComplex d_fcomplex_dotprod) (taps : List R) (N_UNROLL : ℕ) (x : ℕ → M)
    (mem : ℕ → R) (input : ℕ) :
    (GrFir.setTaps taps).filter N_UNROLL x =
      ∑ k ∈ Finset.range taps.length, taps.reverse.getD k 0 • x k ∧
    filterFff d_float_dotprod (setTaps taps) mem input =
      (GrFir.setTaps taps).filter N_UNROLL (offset mem input) ∧
    4 * (setTaps taps).blocksFff (alFff input) ≤ ((setTaps taps).aligned (alFff input)).length ∧
    (input % 2 = 0 → filterCcf d_fcomplex_dotprod (setTaps taps) mem input =
      .ok ((GrFir.setTaps taps).filter N_UNROLL (complexes mem input))) ∧
    (input % 2 = 1 → filterCcf d_fcomplex_dotprod (setTaps taps) mem input =
      if taps = [] then .ok 0
      else .error (.invalidArgument "gr_complex must be 8-byte aligned")) ∧
    2 * (setTaps taps).blocksCcf (alCcf input) ≤ ((setTaps taps).aligned (alCcf input)).length := by
  refine ⟨?_, filterFff_eq floats taps N_UNROLL input, blocksFff_inside taps input,
    fun even => filterCcf_eq complex taps N_UNROLL even, fun odd => filterCcf_odd taps odd,
    blocksCcf_inside taps input⟩
  rw [GrFir.filter_eq_dot, GrFir.ntaps_setTaps]
  rfl

/-- Three taps at address 5. -/
theorem fir_kernels_agree_three :
    filterFff (fun input taps blocks => dot (4 * blocks) taps input) (setTaps [1, 2, 3])
      (fun k => (k : ℤ)) 5 = 34 :=
  (fir_kernels_agree (fun _ _ _ _ => rfl) (fun _ _ _ _ => rfl) [1, 2, 3] 4 (fun k => (k : ℤ))
    (fun k => (k : ℤ)) 5).2.1.trans (by decide)

/-- One tap at address 1. -/
theorem ccf_refuses_odd :
    filterCcf (fun input taps blocks => dot (2 * blocks) input fun k =>
        (taps (2 * k), taps (2 * k + 1))) (setTaps [(1 : ℤ)]) (fun k => k) 1 ≠
      .ok ((GrFir.setTaps [(1 : ℤ)]).filter 4 (complexes (fun k => k) 1)) := by
  rw [filterCcf_odd [1] rfl, if_neg (List.cons_ne_nil 1 [])]
  intro same
  cases same

end GrFirSimd

end GnuRadio
