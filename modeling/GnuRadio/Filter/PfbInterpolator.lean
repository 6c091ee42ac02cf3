import GnuRadio.Filter.Resampler

/-!
# The polyphase interpolator

`gr_pfb_interpolator_ccf` rounds the number of its taps up with zeros at the end, where
`gr_interp_fir_filter_XXX` puts them in front. Its first call of `work` returns nothing.
-/

namespace GnuRadio

variable {R M : Type} [Semiring R] [AddCommMonoid M] [Module R M]

/-- `gr_pfb_interpolator_ccf` and what it has of its base classes. -/
structure GrPfbInterpolator (R : Type) where
  gr_block_history : ℕ
  d_interpolation : ℕ
  d_rate : ℕ
  d_filters : List (GrFir R)
  d_taps_per_filter : ℕ
  d_updated : Bool

namespace GrPfbInterpolator

/-- `set_taps` (`gr_pfb_interpolator_ccf.cc:68-104`). -/
def setTaps (block : GrPfbInterpolator R) (taps : List R) : GrPfbInterpolator R :=
  { block with
    d_taps_per_filter := tapsPerFilter taps.length block.d_rate
    d_filters := (partitionTaps block.d_rate taps).map GrFir.setTaps
    gr_block_history := tapsPerFilter taps.length block.d_rate
    d_updated := true }

/-- The constructor (`gr_pfb_interpolator_ccf.cc:40-59`): the one of `gr_sync_interpolator` sets the
    output multiple first (`gr_sync_interpolator.h:49-54`). -/
def make (interp : ℕ) (taps : List R) : Except FilterException (GrPfbInterpolator R) :=
  if interp < 1 then .error (.invalidArgument "gr_block::set_output_multiple")
  else
    let block : GrPfbInterpolator R := {
      gr_block_history := 1
      d_interpolation := interp
      d_rate := interp
      d_filters := List.replicate interp (GrFir.setTaps [])
      d_taps_per_filter := 0
      d_updated := false }
    .ok (block.setTaps taps)

/-- The loop of `work` (`gr_pfb_interpolator_ccf.cc:134-140`). With rate zero it would not end, and
    no block has that. -/
def loop (N_UNROLL : ℕ) (block : GrPfbInterpolator R) (input : ℕ → M) (noutput_items i count : ℕ)
    (out : List M) : List M × ℕ :=
  if 0 < block.d_rate ∧ i < noutput_items then
    loop N_UNROLL block input noutput_items (i + block.d_rate) (count + 1)
      (out ++ (List.range block.d_rate).map fun j =>
        (block.d_filters.getD j (GrFir.setTaps [])).filter N_UNROLL (offset input count))
  else (out, i)
termination_by noutput_items - i

/-- `work` (`gr_pfb_interpolator_ccf.cc:119-143`): the outputs written, the number returned and the
    block after. -/
def work (N_UNROLL : ℕ) (block : GrPfbInterpolator R) (input : ℕ → M) (noutput_items : ℕ) :
    List M × ℕ × GrPfbInterpolator R :=
  if block.d_updated then ([], 0, { block with d_updated := false })
  else
    let (out, i) := block.loop N_UNROLL input noutput_items 0 0 []
    (out, i, block)

/-- `gr_sync_interpolator::general_work` (`gr_sync_interpolator.cc:62-71`). -/
def generalWork (N_UNROLL : ℕ) (block : GrPfbInterpolator R) (input : ℕ → M)
    (noutput_items : ℕ) : List M × ℕ × GrPfbInterpolator R :=
  let (out, r, block) := block.work N_UNROLL input noutput_items
  (out, if 0 < r then r / block.d_interpolation else 0, block)

def outputs (N_UNROLL : ℕ) (block : GrPfbInterpolator R) (x : ℕ → M) (calls : List ℕ) : List M :=
  served (generalWork N_UNROLL) (block.gr_block_history - 1) x 0 block calls

/-- The stream with zeros between the items, convolved with the taps. -/
def interpolated (I : ℕ) (taps : List R) (x : ℕ → M) : ℕ → M :=
  conv (taps.getD · 0) (upsample I x)

/-! ## The filters -/

variable {I : ℕ} {taps : List R}

omit [Semiring R] in
theorem tapsPerFilter_covers (positive : 0 < I) (taps : List R) :
    taps.length ≤ I * tapsPerFilter taps.length I := by
  have above := Nat.le_ceil ((taps.length : ℚ) / I)
  rw [div_le_iff₀ (by exact_mod_cast positive), mul_comm] at above
  exact_mod_cast above

omit [Semiring R] in
theorem tapsPerFilter_pos (positive : 0 < I) (some : taps ≠ []) :
    0 < tapsPerFilter taps.length I := by
  have covers := tapsPerFilter_covers positive taps
  have nonempty := List.length_pos_iff.mpr some
  by_contra none
  rw [Nat.eq_zero_of_not_pos none, Nat.mul_zero] at covers
  omega

theorem getD_partitionTaps (positive : 0 < I) (taps : List R) {n : ℕ} (inside : n < I) :
    ∃ row, (partitionTaps I taps)[n]? = some row ∧
      row.length = tapsPerFilter taps.length I ∧
      ∀ j, row.getD j 0 = taps.getD (n + I * j) 0 := by
  have covers := tapsPerFilter_covers positive taps
  have padded : ∀ count k, (taps ++ List.replicate count (0 : R)).getD k 0 = taps.getD k 0 := by
    intro count k
    rcases Nat.lt_or_ge k taps.length with within | beyond
    · exact List.getD_append _ _ _ _ within
    · rw [List.getD_append_right _ _ _ _ beyond, List.getD_eq_default _ _ beyond,
        List.getD_eq_getElem?_getD, List.getElem?_getD_replicate_default_eq]
  refine ⟨_, by rw [partitionTaps, List.getElem?_map, List.getElem?_range inside]; rfl, by simp,
    fun j => ?_⟩
  rcases Nat.lt_or_ge j (tapsPerFilter taps.length I) with within | beyond
  · rw [List.getD_eq_getElem _ _ (by simpa using within), List.getElem_map, List.getElem_range,
      padded, Nat.mul_comm j]
  · have more := Nat.mul_le_mul_left I beyond
    rw [List.getD_eq_default _ _ (by simpa using beyond), List.getD_eq_default _ _ (by omega)]

theorem filter_partitionTaps (N_UNROLL : ℕ) (positive : 0 < I) (some : taps ≠ []) {n : ℕ}
    (inside : n < I) (x : ℕ → M) (t : ℕ) :
    (((partitionTaps I taps).map GrFir.setTaps).getD n (GrFir.setTaps [])).filter N_UNROLL
        (fun k => precede (tapsPerFilter taps.length I - 1) x (t + k)) =
      interpolated I taps x (I * t + n) := by
  obtain ⟨row, found, length, every⟩ := getD_partitionTaps positive taps inside
  rw [List.getD_eq_getElem?_getD, List.getElem?_map, found, Option.map_some, Option.getD_some,
    ← length, GrFir.filter_history N_UNROLL (length ▸ tapsPerFilter_pos positive some),
    interpolated, conv_upsample positive, Nat.mul_add_mod, Nat.mod_eq_of_lt inside,
    Nat.mul_add_div positive, Nat.div_eq_of_lt inside, Nat.add_zero, funext every]

/-! ## Calls -/

/-- The block that the constructor makes, before the first call and after it. -/
def built (I : ℕ) (taps : List R) (d_updated : Bool) : GrPfbInterpolator R where
  gr_block_history := tapsPerFilter taps.length I
  d_interpolation := I
  d_rate := I
  d_filters := (partitionTaps I taps).map GrFir.setTaps
  d_taps_per_filter := tapsPerFilter taps.length I
  d_updated := d_updated

theorem make_eq (positive : 0 < I) (taps : List R) : make I taps = .ok (built I taps true) := by
  rw [make, if_neg (by omega)]
  rfl

theorem loop_eq (N_UNROLL : ℕ) (positive : 0 < I) (some : taps ≠ []) (x : ℕ → M)
    (consumed rounds count : ℕ) (out : List M) :
    (built I taps false).loop N_UNROLL
        (fun k => precede (tapsPerFilter taps.length I - 1) x (consumed + k))
        (I * (count + rounds)) (I * count) count out =
      (out ++ (List.range (I * rounds)).map fun i =>
        interpolated I taps x (I * (consumed + count) + i), I * (count + rounds)) := by
  induction rounds generalizing count out with
  | zero =>
    rw [loop, if_neg (fun more => absurd more.2 (by rw [Nat.add_zero]; exact lt_irrefl _))]
    simp
  | succ rounds ih =>
    have more : I * count < I * (count + (rounds + 1)) :=
      Nat.mul_lt_mul_of_pos_left (by omega) positive
    have round : (List.range I).map (fun j =>
        ((built I taps false).d_filters.getD j (GrFir.setTaps [])).filter N_UNROLL
          (offset (fun k => precede (tapsPerFilter taps.length I - 1) x (consumed + k)) count)) =
        (List.range I).map fun i => interpolated I taps x (I * (consumed + count) + i) := by
      refine List.map_congr_left fun n member => ?_
      rw [← filter_partitionTaps N_UNROLL positive some (List.mem_range.mp member)]
      congr 1
      funext k
      rw [offset, Nat.add_assoc]
    have next : I * count + I = I * (count + 1) := (Nat.mul_succ I count).symm
    have last : count + (rounds + 1) = count + 1 + rounds := by omega
    have split : I * (rounds + 1) = I + I * rounds := by rw [Nat.mul_succ, Nat.add_comm]
    rw [loop, if_pos ⟨positive, more⟩]
    change loop N_UNROLL _ _ _ (I * count + I) (count + 1) (out ++ (List.range I).map _) = _
    rw [round, next, last, ih, split, List.range_add, List.map_append, List.map_map,
      List.append_assoc]
    congr 3
    refine List.map_congr_left fun i _ => ?_
    rw [Function.comp]
    congr 1
    ring

theorem generalWork_eq (N_UNROLL : ℕ) (positive : 0 < I) (some : taps ≠ []) (x : ℕ → M)
    (consumed rounds : ℕ) : (built I taps false).generalWork N_UNROLL
        (fun k => precede (tapsPerFilter taps.length I - 1) x (consumed + k)) (I * rounds) =
      ((List.range (I * rounds)).map fun i => interpolated I taps x (I * consumed + i), rounds,
        built I taps false) := by
  have looped := loop_eq N_UNROLL positive some x consumed rounds 0 []
  rw [Nat.zero_add, Nat.mul_zero, Nat.add_zero, List.nil_append] at looped
  have count : (if 0 < I * rounds then I * rounds / I else 0) = rounds := by
    rw [Nat.mul_div_cancel_left _ positive]
    rcases Nat.eq_zero_or_pos rounds with rfl | more
    · exact ite_self 0
    · exact if_pos (Nat.mul_pos positive more)
  rw [generalWork, work, if_neg (by simp [built]), looped]
  exact Prod.ext rfl (Prod.ext count rfl)

theorem outputs_built (N_UNROLL : ℕ) (positive : 0 < I) (some : taps ≠ []) (x : ℕ → M)
    (first : ℕ) {calls : List ℕ} (multiples : ∀ n ∈ calls, I ∣ n) :
    (built I taps true).outputs N_UNROLL x (first :: calls) =
      (List.range calls.sum).map (interpolated I taps x) := by
  have rest : served (generalWork N_UNROLL) (tapsPerFilter taps.length I - 1) x 0
      (built I taps false) calls =
        (List.range calls.sum).map fun i => interpolated I taps x (0 + i) := by
    refine served_eq (fun count consumed block => count = I * consumed ∧ block = built I taps false)
      ?_ ⟨rfl, rfl⟩
    rintro n member count consumed block ⟨rfl, rfl⟩
    obtain ⟨rounds, rfl⟩ := multiples n member
    exact ⟨rounds, _, generalWork_eq N_UNROLL positive some x consumed rounds,
      (Nat.mul_add ..).symm, rfl⟩
  simp only [Nat.zero_add] at rest
  exact rest

/-- A block gives the convolution, and so what `interp_fir_filter` gives where the number of taps
    is a multiple of the rate. -/
theorem pfb_interpolates (N_UNROLL : ℕ) (positive : 0 < I) (some : taps ≠ []) (x : ℕ → M) :
    ∃ block filter, make I taps = .ok block ∧ GrInterpFirFilter.make I taps = .ok filter ∧
      ∀ first calls, (∀ n ∈ first :: calls, I ∣ n) →
        block.outputs N_UNROLL x (first :: calls) =
          (List.range calls.sum).map (conv (taps.getD · 0) (upsample I x)) ∧
        (I ∣ taps.length → ∀ others, (∀ n ∈ others, I ∣ n) → others.sum = calls.sum →
          block.outputs N_UNROLL x (first :: calls) = filter.outputs N_UNROLL x others) := by
  refine ⟨_, _, make_eq positive taps, GrInterpFirFilter.make_eq positive taps,
    fun first calls multiples => ?_⟩
  have outputs := outputs_built N_UNROLL positive some x first
    fun n member => multiples n (List.mem_cons_of_mem first member)
  refine ⟨outputs, fun whole others multiples' sums => ?_⟩
  have padded : paddedTaps I taps = taps := by
    rw [paddedTaps, Nat.mod_eq_zero_of_dvd whole]
    rfl
  rw [outputs, GrInterpFirFilter.outputs_built N_UNROLL positive some x multiples', sums]
  refine List.map_congr_left fun m _ => ?_
  rw [resampled, padded, Nat.mul_one]
  rfl

theorem pfb_interpolates_two : ∃ block filter, make 2 [(1 : ℤ), 2, 3, 4] = .ok block ∧
    GrInterpFirFilter.make 2 [(1 : ℤ), 2, 3, 4] = .ok filter ∧
    block.outputs 4 (fun k => (k : ℤ)) [2, 4, 6] = filter.outputs 4 (fun k => (k : ℤ)) [8, 2] := by
  obtain ⟨block, filter, made, made', same⟩ := pfb_interpolates 4 Nat.two_pos
    (List.cons_ne_nil (1 : ℤ) [2, 3, 4]) fun k => (k : ℤ)
  exact ⟨block, filter, made, made', (same 2 [4, 6] (by decide)).2 (by decide) [8, 2] (by decide)
    rfl⟩

end GrPfbInterpolator

end GnuRadio
