import Mathlib.Data.List.GetD
import Mathlib.Data.Rat.Floor
import GnuRadio.Misc.Convolution

/-!
# FIR kernels

A `gr_fir_XXX` keeps its taps in reverse. The generic kernel is unrolled two or four
times. The types of the items, the taps and the results differ from one instance to the
next, so the items here belong to any module over the taps.
-/

namespace GnuRadio

/-- `gr_fir_XXX` (`gr_fir_XXX.h.t:50-126`). -/
structure GrFir (R : Type) where
  d_taps : List R
  deriving DecidableEq

/-- How a call of a filter ends when it does not return. -/
inductive FilterException where
  | outOfRange (what : String)
  | invalidArgument (what : String)
  /-- A failed `assert`. -/
  | assertFailed
  deriving DecidableEq, Repr

/-- The memory from item `i` on. -/
def offset {M : Type} (input : ℕ → M) (i : ℕ) : ℕ → M := fun k => input (i + k)

namespace GrFir

variable {R M : Type} [Semiring R] [AddCommMonoid M] [Module R M]

/-- `set_taps` (`gr_fir_XXX.h.t:104-107`). -/
def setTaps (taps : List R) : GrFir R := ⟨taps.reverse⟩

/-- `ntaps` (`gr_fir_XXX.h.t:114`). -/
def ntaps (fir : GrFir R) : ℕ := fir.d_taps.length

/-- `d_taps[i]`. -/
def tap (fir : GrFir R) (i : ℕ) : R := fir.d_taps.getD i 0

/-- The accumulators after the unrolled loop and the loop over what is left, which uses the
first accumulator only. -/
def accumulate (fir : GrFir R) (input : ℕ → M) (N_UNROLL : ℕ) : ℕ → M :=
  let n := fir.ntaps / N_UNROLL * N_UNROLL
  let acc := (List.range (fir.ntaps / N_UNROLL)).foldl (fun acc b j =>
    acc j + fir.tap (b * N_UNROLL + j) • input (b * N_UNROLL + j)) fun _ => 0
  (List.range' n (fir.ntaps - n)).foldl (fun acc i =>
    Function.update acc 0 (acc 0 + fir.tap i • input i)) acc

/-- `filter` (`gr_fir_XXX_generic.cc.t:28-81`). -/
def filter (fir : GrFir R) (N_UNROLL : ℕ) (input : ℕ → M) : M :=
  if N_UNROLL = 4 then
    let acc := fir.accumulate input 4
    acc 0 + acc 1 + acc 2 + acc 3
  else
    let acc := fir.accumulate input 2
    acc 0 + acc 1

/-- `filterN` (`gr_fir_XXX_generic.cc.t:83-90`). -/
def filterN (fir : GrFir R) (N_UNROLL : ℕ) (input : ℕ → M) (n : ℕ) : List M :=
  (List.range n).map fun i => fir.filter N_UNROLL (offset input i)

/-- `filterNdec` (`gr_fir_XXX_generic.cc.t:92-103`), where `j` is `i * decimate`. -/
def filterNdec (fir : GrFir R) (N_UNROLL : ℕ) (input : ℕ → M) (n decimate : ℕ) : List M :=
  (List.range n).map fun i => fir.filter N_UNROLL (offset input (i * decimate))

/-! ## What the kernel finds -/

omit [Semiring R] in
@[simp] theorem ntaps_setTaps (taps : List R) : (setTaps taps).ntaps = taps.length :=
  List.length_reverse

variable {fir : GrFir R} {input : ℕ → M}

theorem tap_setTaps (taps : List R) {k : ℕ} (inside : k < taps.length) :
    (setTaps taps).tap k = taps.getD (taps.length - 1 - k) 0 := by
  simp [tap, setTaps, List.getD_eq_getElem?_getD, List.getElem?_reverse inside]

theorem sum_unrolled (N_UNROLL rounds : ℕ) :
    ∑ j ∈ Finset.range N_UNROLL, (List.range rounds).foldl (fun (acc : ℕ → M) b j =>
      acc j + fir.tap (b * N_UNROLL + j) • input (b * N_UNROLL + j)) (fun _ => 0) j =
      dot (rounds * N_UNROLL) fir.tap input := by
  induction rounds with
  | zero => simp [dot]
  | succ rounds ih =>
    rw [List.range_succ, List.foldl_append, List.foldl_cons, List.foldl_nil,
      Finset.sum_add_distrib, ih, dot, dot, Nat.succ_mul, Finset.sum_range_add]

theorem sum_leftover {N_UNROLL : ℕ} (positive : 0 < N_UNROLL) (acc : ℕ → M) (n count : ℕ) :
    ∑ j ∈ Finset.range N_UNROLL, (List.range' n count).foldl (fun acc i =>
      Function.update acc 0 (acc 0 + fir.tap i • input i)) acc j =
      ∑ j ∈ Finset.range N_UNROLL, acc j + ∑ k ∈ Finset.range count,
        fir.tap (n + k) • input (n + k) := by
  induction count generalizing acc n with
  | zero => simp
  | succ count ih =>
    have first : ∑ j ∈ Finset.range N_UNROLL,
        Function.update acc 0 (acc 0 + fir.tap n • input n) j =
          ∑ j ∈ Finset.range N_UNROLL, acc j + fir.tap n • input n := by
      have member : 0 ∈ Finset.range N_UNROLL := Finset.mem_range.mpr positive
      rw [Finset.sum_update_of_mem member, ← Finset.add_sum_erase _ _ member,
        Finset.sdiff_singleton_eq_erase]
      exact add_right_comm _ _ _
    have shift : ∀ k, n + 1 + k = n + (k + 1) := fun k => by omega
    rw [List.range'_succ, List.foldl_cons, ih, first, Finset.sum_range_succ', add_assoc]
    simp only [shift, Nat.add_zero]
    rw [add_comm (fir.tap n • input n)]

theorem sum_accumulate {N_UNROLL : ℕ} (positive : 0 < N_UNROLL) :
    ∑ j ∈ Finset.range N_UNROLL, fir.accumulate input N_UNROLL j =
      dot fir.ntaps fir.tap input := by
  have whole : fir.ntaps / N_UNROLL * N_UNROLL +
      (fir.ntaps - fir.ntaps / N_UNROLL * N_UNROLL) = fir.ntaps :=
    Nat.add_sub_of_le (Nat.div_mul_le_self _ _)
  rw [accumulate]
  rw [sum_leftover positive, sum_unrolled, dot, ← Finset.sum_range_add, whole]
  rfl

theorem filter_eq_dot (N_UNROLL : ℕ) :
    fir.filter N_UNROLL input = dot fir.ntaps fir.tap input := by
  unfold filter
  split
  · have four : ∑ j ∈ Finset.range 4, fir.accumulate input 4 j = dot fir.ntaps fir.tap input :=
      sum_accumulate (by decide)
    rw [← four]
    simp [Finset.sum_range_succ]
  · have two : ∑ j ∈ Finset.range 2, fir.accumulate input 2 j = dot fir.ntaps fir.tap input :=
      sum_accumulate (by decide)
    rw [← two]
    simp [Finset.sum_range_succ]

theorem filter_history (N_UNROLL : ℕ) {taps : List R} (some : 0 < taps.length) (x : ℕ → M)
    (t : ℕ) : (setTaps taps).filter N_UNROLL (fun k => precede (taps.length - 1) x (t + k)) =
      conv (taps.getD · 0) x t := by
  have short : ∀ k, taps.length ≤ k → taps.getD k 0 = 0 := fun k beyond =>
    List.getD_eq_default _ _ beyond
  rw [filter_eq_dot, ntaps_setTaps, ← dot_history short some]
  refine Finset.sum_congr rfl fun k less => ?_
  rw [tap_setTaps taps (Finset.mem_range.mp less)]

end GrFir

/-!
## The taps of a filterbank

The polyphase channelizer and the arbitrary resampler round the number of their taps up with zeros
at the end, and filter `i` of `nfilters` has every `nfilters`-th tap from `i` on.
-/

variable {R M : Type} [Semiring R]

/-- `d_taps_per_filter` (`gr_pfb_channelizer_ccf.cc:110`, `gr_pfb_arb_resampler_ccf.cc:97`). -/
def tapsPerFilter (ntaps nfilters : ℕ) : ℕ := ⌈(ntaps : ℚ) / nfilters⌉₊

/-- The taps that each filter is given (`gr_pfb_channelizer_ccf.cc:115-133`,
`gr_pfb_arb_resampler_ccf.cc:102-121`). The loop that adds zeros compares `float`s, which are exact
below `2 ^ 24` taps. -/
def partitionTaps (nfilters : ℕ) (taps : List R) : List (List R) :=
  let tmp_taps := taps ++
    List.replicate (nfilters * tapsPerFilter taps.length nfilters - taps.length) 0
  (List.range nfilters).map fun i => (List.range (tapsPerFilter taps.length nfilters)).map fun j =>
    tmp_taps.getD (i + j * nfilters) 0

theorem partitionTaps_filters (taps : List R) {nfilters i : ℕ} (inside : i < nfilters) :
    ∃ fir, ((partitionTaps nfilters taps).map GrFir.setTaps)[i]? = some fir ∧
      fir.ntaps = tapsPerFilter taps.length nfilters := by
  simp only [partitionTaps, List.getElem?_map, List.getElem?_range inside, Option.map_some,
    Option.some.injEq, exists_eq_left', GrFir.ntaps_setTaps, List.length_map, List.length_range]

theorem GrFir.filter_congr [AddCommMonoid M] [Module R M] (N_UNROLL : ℕ) {fir : GrFir R}
    {input other : ℕ → M} (same : ∀ t < fir.ntaps, input t = other t) :
    fir.filter N_UNROLL input = fir.filter N_UNROLL other := by
  rw [filter_eq_dot, filter_eq_dot]
  refine Finset.sum_congr rfl fun t less => ?_
  rw [same t (Finset.mem_range.mp less)]

end GnuRadio
