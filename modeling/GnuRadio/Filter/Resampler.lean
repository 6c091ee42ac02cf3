import GnuRadio.Filter.Fir

/-!
# Polyphase taps

The resampler and the interpolator round the number of their taps up with zeros in front and
deal them to as many FIR kernels as the interpolation. The text of `set_taps` and of
`install_taps` is the same in both.
-/

namespace GnuRadio

variable {R M : Type} [Semiring R] [AddCommMonoid M] [Module R M]

/-- The taps that `set_taps` keeps (`gr_rational_resampler_base_XXX.cc.t:82-97`,
`gr_interp_fir_filter_XXX.cc.t:72-87`). -/
def paddedTaps (interpolation : ℕ) (taps : List R) : List R :=
  let n := taps.length % interpolation
  if 0 < n then
    (List.range (interpolation - n)).foldl (fun d_new_taps _ => 0 :: d_new_taps) taps
  else
    taps

/-- The taps of each filter (`gr_rational_resampler_base_XXX.cc.t:100-118`,
`gr_interp_fir_filter_XXX.cc.t:90-108`). -/
def dealTaps (nfilters : ℕ) (taps : List R) : List (List R) :=
  (List.range taps.length).foldl (fun xtaps i =>
    xtaps.modify (i % nfilters) fun row => row.set (i / nfilters) (taps.getD i 0))
    (List.replicate nfilters (List.replicate (taps.length / nfilters) 0))

/-- What filter `n` has of its taps once `count` taps have been dealt. -/
def dealt (nfilters : ℕ) (taps : List R) (count n : ℕ) : List R :=
  (List.range (taps.length / nfilters)).map fun j =>
    if n + nfilters * j < count then taps.getD (n + nfilters * j) 0 else 0

/-! ## Padding -/

theorem paddedTaps_eq (I : ℕ) (taps : List R) : paddedTaps I taps =
    List.replicate (if 0 < taps.length % I then I - taps.length % I else 0) 0 ++ taps := by
  have inserted : ∀ n, (List.range n).foldl (fun d_new_taps _ => 0 :: d_new_taps) taps =
      List.replicate n 0 ++ taps := by
    intro n
    induction n with
    | zero => rfl
    | succ n ih => simp [List.range_succ, ih, List.replicate_succ]
  unfold paddedTaps
  split <;> simp_all

theorem dvd_length_paddedTaps {I : ℕ} (positive : 0 < I) (taps : List R) :
    I ∣ (paddedTaps I taps).length := by
  rw [paddedTaps_eq, List.length_append, List.length_replicate]
  have whole := Nat.div_add_mod taps.length I
  have below := Nat.mod_lt taps.length positive
  split
  · refine ⟨taps.length / I + 1, ?_⟩
    rw [Nat.mul_succ]
    omega
  · rw [Nat.zero_add]
    exact Nat.dvd_of_mod_eq_zero (by omega)

theorem length_le_paddedTaps (I : ℕ) (taps : List R) : taps.length ≤ (paddedTaps I taps).length := by
  rw [paddedTaps_eq, List.length_append]
  exact Nat.le_add_left _ _

@[simp] theorem paddedTaps_one (taps : List R) : paddedTaps 1 taps = taps := by
  simp [paddedTaps, Nat.mod_one]

/-! ## Dealing -/

variable {nfilters : ℕ}

theorem dealt_succ (positive : 0 < nfilters) (taps : List R) (count : ℕ) {n : ℕ}
    (inside : n < nfilters) : dealt nfilters taps (count + 1) n =
      if n = count % nfilters then
        (dealt nfilters taps count n).set (count / nfilters) (taps.getD count 0)
      else dealt nfilters taps count n := by
  have whole := Nat.div_add_mod count nfilters
  have turn : ∀ j, n + nfilters * j = count ↔ n = count % nfilters ∧ j = count / nfilters := by
    intro j
    constructor
    · intro same
      rw [← same, Nat.add_mul_mod_self_left, Nat.mod_eq_of_lt inside,
        Nat.add_mul_div_left _ _ positive, Nat.div_eq_of_lt inside, Nat.zero_add]
      exact ⟨rfl, rfl⟩
    · rintro ⟨rfl, rfl⟩
      rw [Nat.mod_add_div]
  refine List.ext_getElem (by split <;> simp [dealt]) fun j within _ => ?_
  have shorter : j < taps.length / nfilters := by simpa [dealt] using within
  by_cases row : n = count % nfilters
  · simp only [if_pos row, dealt, List.getElem_map, List.getElem_range, List.getElem_set]
    by_cases here : count / nfilters = j
    · have now : n + nfilters * j = count := (turn j).mpr ⟨row, here.symm⟩
      rw [if_pos here, now, if_pos (Nat.lt_succ_self count)]
    · have other : n + nfilters * j ≠ count := fun same => here ((turn j).mp same).2.symm
      rw [if_neg here]
      by_cases before : n + nfilters * j < count
      · rw [if_pos before, if_pos (by omega)]
      · rw [if_neg before, if_neg (by omega)]
  · have other : n + nfilters * j ≠ count := fun same => row ((turn j).mp same).1
    simp only [if_neg row, dealt, List.getElem_map, List.getElem_range]
    by_cases before : n + nfilters * j < count
    · rw [if_pos before, if_pos (by omega)]
    · rw [if_neg before, if_neg (by omega)]

theorem dealTaps_eq (positive : 0 < nfilters) (taps : List R) :
    dealTaps nfilters taps = (List.range nfilters).map (dealt nfilters taps taps.length) := by
  have rounds : ∀ count, (List.range count).foldl (fun xtaps i =>
      xtaps.modify (i % nfilters) fun row => row.set (i / nfilters) (taps.getD i 0))
      (List.replicate nfilters (List.replicate (taps.length / nfilters) 0)) =
        (List.range nfilters).map (dealt nfilters taps count) := by
    intro count
    induction count with
    | zero =>
      have empty : ∀ n, dealt nfilters taps 0 n = List.replicate (taps.length / nfilters) 0 := by
        intro n
        simp [dealt]
      simp [funext empty]
    | succ count ih =>
      rw [List.range_succ, List.foldl_append, ih, List.foldl_cons, List.foldl_nil]
      refine List.ext_getElem (by simp) fun n within _ => ?_
      have inside : n < nfilters := by simpa using within
      rw [List.getElem_modify, List.getElem_map, List.getElem_map, List.getElem_range,
        dealt_succ positive taps count inside]
      by_cases row : count % nfilters = n
      · rw [if_pos row, if_pos row.symm]
      · rw [if_neg row, if_neg (Ne.symm row)]
  exact rounds taps.length

theorem getD_dealt {taps : List R} (whole : nfilters ∣ taps.length) {n : ℕ} (inside : n < nfilters)
    (j : ℕ) : (dealt nfilters taps taps.length n).getD j 0 = taps.getD (n + nfilters * j) 0 := by
  obtain ⟨nt, length⟩ := whole
  have positive : 0 < nfilters := by omega
  have count : taps.length / nfilters = nt := by rw [length, Nat.mul_div_cancel_left _ positive]
  by_cases within : j < nt
  · have more : nfilters * (j + 1) ≤ nfilters * nt := Nat.mul_le_mul_left _ within
    rw [Nat.mul_succ] at more
    have there : n + nfilters * j < taps.length := by omega
    rw [dealt, count, List.getD_eq_getElem _ _ (by simpa using within)]
    simp only [List.getElem_map, List.getElem_range]
    rw [if_pos there]
  · have more : nfilters * nt ≤ nfilters * j := Nat.mul_le_mul_left _ (not_lt.mp within)
    rw [List.getD_eq_default _ _ (by simp [dealt, count]; omega),
      List.getD_eq_default _ _ (by omega)]

end GnuRadio

/-!
## The rational resampler and its special cases

`gr_rational_resampler_base_XXX` has a `history` of its own besides the one of `gr_block`,
and the runtime asks `gr_block` how many zeros come before the first input. The interpolator
and the decimator use the history of `gr_block`.
-/

namespace GnuRadio

variable {R M : Type} [Semiring R] [AddCommMonoid M] [Module R M]

/-- `gr_rational_resampler_base_XXX` (`gr_rational_resampler_base_XXX.h.t:47-57`). -/
structure GrRationalResampler (R : Type) where
  /-- `d_history` of `gr_block`. -/
  gr_block_history : ℕ
  d_history : ℕ
  d_interpolation : ℕ
  d_decimation : ℕ
  d_ctr : ℕ
  d_new_taps : List R
  d_updated : Bool
  d_firs : List (GrFir R)

/-- `gr_interp_fir_filter_XXX` and what it has of its base classes. -/
structure GrInterpFirFilter (R : Type) where
  gr_block_history : ℕ
  d_interpolation : ℕ
  d_new_taps : List R
  d_updated : Bool
  d_firs : List (GrFir R)

/-- `gr_fir_filter_XXX` and what it has of its base classes. -/
structure GrFirFilter (R : Type) where
  gr_block_history : ℕ
  d_decimation : ℕ
  d_new_taps : List R
  d_updated : Bool
  d_fir : GrFir R

namespace GrRationalResampler

/-- `set_taps` (`gr_rational_resampler_base_XXX.cc.t:82-97`). -/
def setTaps (block : GrRationalResampler R) (taps : List R) : GrRationalResampler R :=
  { block with d_new_taps := paddedTaps block.d_interpolation taps, d_updated := true }

/-- `install_taps` (`gr_rational_resampler_base_XXX.cc.t:100-121`): `set_history` is the one of
this class. -/
def installTaps (block : GrRationalResampler R) (taps : List R) : GrRationalResampler R :=
  { block with
    d_firs := (dealTaps block.d_interpolation taps).map GrFir.setTaps
    d_history := taps.length / block.d_interpolation
    d_updated := false }

/-- The constructor (`gr_rational_resampler_base_XXX.cc.t:47-72`). -/
def make (interpolation decimation : ℕ) (taps : List R) :
    Except FilterException (GrRationalResampler R) :=
  if interpolation = 0 then
    .error (.outOfRange "interpolation must be > 0")
  else if decimation = 0 then
    .error (.outOfRange "decimation must be > 0")
  else
    let block : GrRationalResampler R := {
      gr_block_history := 1
      d_history := 1
      d_interpolation := interpolation
      d_decimation := decimation
      d_ctr := 0
      d_new_taps := []
      d_updated := false
      d_firs := List.replicate interpolation (GrFir.setTaps []) }
    let block := block.setTaps taps
    .ok (block.installTaps block.d_new_taps)

/-- The inner loop of `general_work`: the counter and how far the input has moved on. With
interpolation zero it would not end, and no block has that. -/
def carry (interpolation ctr moved : ℕ) : ℕ × ℕ :=
  if 0 < interpolation ∧ interpolation ≤ ctr then
    carry interpolation (ctr - interpolation) (moved + 1)
  else
    (ctr, moved)
termination_by ctr

/-- A round of the outer loop of `general_work`. The counter is an `unsigned int`. -/
def round (block : GrRationalResampler R) (N_UNROLL : ℕ) (input : ℕ → M) :
    List M × ℕ × ℕ → List M × ℕ × ℕ
  | (out, ctr, moved) =>
      (out ++ [(block.d_firs.getD ctr (GrFir.setTaps [])).filter N_UNROLL (offset input moved)],
        carry block.d_interpolation ((ctr + block.d_decimation) % 2 ^ 32) moved)

/-- `general_work` (`gr_rational_resampler_base_XXX.cc.t:143-172`): the outputs, the number of
inputs consumed and the block after. -/
def generalWork (N_UNROLL : ℕ) (block : GrRationalResampler R) (input : ℕ → M)
    (noutput_items : ℕ) : List M × ℕ × GrRationalResampler R :=
  if block.d_updated then
    ([], 0, block.installTaps block.d_new_taps)
  else
    let (out, ctr, moved) :=
      (List.range noutput_items).foldl (fun s _ => block.round N_UNROLL input s) ([], block.d_ctr, 0)
    (out, moved, { block with d_ctr := ctr })

end GrRationalResampler

namespace GrInterpFirFilter

/-- `set_taps` (`gr_interp_fir_filter_XXX.cc.t:72-87`). -/
def setTaps (block : GrInterpFirFilter R) (taps : List R) : GrInterpFirFilter R :=
  { block with d_new_taps := paddedTaps block.d_interpolation taps, d_updated := true }

/-- `install_taps` (`gr_interp_fir_filter_XXX.cc.t:90-111`). -/
def installTaps (block : GrInterpFirFilter R) (taps : List R) : GrInterpFirFilter R :=
  { block with
    d_firs := (dealTaps block.d_interpolation taps).map GrFir.setTaps
    gr_block_history := taps.length / block.d_interpolation
    d_updated := false }

/-- The constructor (`gr_interp_fir_filter_XXX.cc.t:45-62`): the one of `gr_sync_interpolator`
sets the output multiple first (`gr_sync_interpolator.h:49-54`). -/
def make (interpolation : ℕ) (taps : List R) : Except FilterException (GrInterpFirFilter R) :=
  if interpolation < 1 then
    .error (.invalidArgument "gr_block::set_output_multiple")
  else
    let block : GrInterpFirFilter R := {
      gr_block_history := 1
      d_interpolation := interpolation
      d_new_taps := []
      d_updated := false
      d_firs := List.replicate interpolation (GrFir.setTaps []) }
    let block := block.setTaps taps
    .ok (block.installTaps block.d_new_taps)

/-- `work` (`gr_interp_fir_filter_XXX.cc.t:124-146`): the outputs written, the number
returned and the block after. -/
def work (N_UNROLL : ℕ) (block : GrInterpFirFilter R) (input : ℕ → M) (noutput_items : ℕ) :
    List M × ℕ × GrInterpFirFilter R :=
  if block.d_updated then
    ([], 0, block.installTaps block.d_new_taps)
  else
    let ni := noutput_items / block.d_interpolation
    let out := (List.range ni).flatMap fun i => (List.range block.d_interpolation).map fun nf =>
      (block.d_firs.getD nf (GrFir.setTaps [])).filter N_UNROLL (offset input i)
    (out, noutput_items, block)

/-- `gr_sync_interpolator::general_work` (`gr_sync_interpolator.cc:62-71`). -/
def generalWork (N_UNROLL : ℕ) (block : GrInterpFirFilter R) (input : ℕ → M)
    (noutput_items : ℕ) : List M × ℕ × GrInterpFirFilter R :=
  let (out, r, block) := block.work N_UNROLL input noutput_items
  (out, if 0 < r then r / block.d_interpolation else 0, block)

end GrInterpFirFilter

namespace GrFirFilter

/-- The constructor (`gr_fir_filter_XXX.cc.t:43-52`). -/
def make (decimation : ℕ) (taps : List R) : GrFirFilter R where
  gr_block_history := (GrFir.setTaps taps).ntaps
  d_decimation := decimation
  d_new_taps := []
  d_updated := false
  d_fir := GrFir.setTaps taps

/-- `work` (`gr_fir_filter_XXX.cc.t:66-88`). -/
def work (N_UNROLL : ℕ) (block : GrFirFilter R) (input : ℕ → M) (noutput_items : ℕ) :
    List M × ℕ × GrFirFilter R :=
  if block.d_updated then
    let d_fir := GrFir.setTaps block.d_new_taps
    ([], 0, { block with d_fir := d_fir, gr_block_history := d_fir.ntaps, d_updated := false })
  else if block.d_decimation = 1 then
    (block.d_fir.filterN N_UNROLL input noutput_items, noutput_items, block)
  else
    (block.d_fir.filterNdec N_UNROLL input noutput_items block.d_decimation, noutput_items, block)

/-- `gr_sync_decimator::general_work` (`gr_sync_decimator.cc:60-69`). -/
def generalWork (N_UNROLL : ℕ) (block : GrFirFilter R) (input : ℕ → M) (noutput_items : ℕ) :
    List M × ℕ × GrFirFilter R :=
  let (out, r, block) := block.work N_UNROLL input noutput_items
  (out, if 0 < r then r * block.d_decimation else 0, block)

end GrFirFilter

/-! ## Runs -/

/-- The outputs of one call after another: each reads from its first input that is not
consumed. The reader starts `preload` zeros before the stream. -/
def served {σ : Type} (work : σ → (ℕ → M) → ℕ → List M × ℕ × σ) (preload : ℕ) (x : ℕ → M) :
    ℕ → σ → List ℕ → List M
  | _, _, [] => []
  | consumed, block, noutput_items :: rest =>
      let (out, more, block) := work block (fun k => precede preload x (consumed + k)) noutput_items
      out ++ served work preload x (consumed + more) block rest

/-- The reader of a resampler is made with the history of `gr_block` less one
(`gr_flat_flowgraph.cc:150`). -/
def GrRationalResampler.outputs (N_UNROLL : ℕ) (block : GrRationalResampler R) (x : ℕ → M)
    (calls : List ℕ) : List M :=
  served (GrRationalResampler.generalWork N_UNROLL) (block.gr_block_history - 1) x 0 block calls

def GrInterpFirFilter.outputs (N_UNROLL : ℕ) (block : GrInterpFirFilter R) (x : ℕ → M)
    (calls : List ℕ) : List M :=
  served (GrInterpFirFilter.generalWork N_UNROLL) (block.gr_block_history - 1) x 0 block calls

def GrFirFilter.outputs (N_UNROLL : ℕ) (block : GrFirFilter R) (x : ℕ → M)
    (calls : List ℕ) : List M :=
  served (GrFirFilter.generalWork N_UNROLL) (block.gr_block_history - 1) x 0 block calls

/-- The reference: zeros between the items, the convolution with the padded taps, and of that
every `D`-th item. -/
def resampled (I D : ℕ) (taps : List R) (x : ℕ → M) (m : ℕ) : M :=
  conv ((paddedTaps I taps).getD · 0) (upsample I x) (m * D)

/-- The resampler agrees with its reference and its special cases, however the outputs are
asked for. An interpolator is asked for multiples of its interpolation. -/
structure ResamplerAgrees (N_UNROLL I D : ℕ) (taps : List R) : Prop where
  reference : ∀ block, GrRationalResampler.make I D taps = .ok block → ∀ (x : ℕ → R) calls,
    block.outputs N_UNROLL x calls = (List.range calls.sum).map (resampled I D taps x)
  interp_fir_filter : D = 1 → ∀ block filter, GrRationalResampler.make I D taps = .ok block →
    GrInterpFirFilter.make I taps = .ok filter → ∀ (x : ℕ → R) calls multiples,
      (∀ n ∈ multiples, I ∣ n) → calls.sum = multiples.sum →
        block.outputs N_UNROLL x calls = filter.outputs N_UNROLL x multiples
  fir_filter : I = 1 → ∀ block, GrRationalResampler.make I D taps = .ok block →
    ∀ (x : ℕ → R) calls others, calls.sum = others.sum →
      block.outputs N_UNROLL x calls = (GrFirFilter.make D taps).outputs N_UNROLL x others

/-- The counter of the resampler never exceeds an `unsigned int`. -/
def CounterFits (I D : ℕ) : Prop := ∀ m, m * D % I + D < 2 ^ 32

/-! ## What the blocks do -/

omit [Semiring R] [Module R M] in
theorem served_eq {σ : Type} {work : σ → (ℕ → M) → ℕ → List M × ℕ × σ} {preload : ℕ} {x f : ℕ → M}
    (Holds : ℕ → ℕ → σ → Prop) {calls : List ℕ}
    (step : ∀ n ∈ calls, ∀ count consumed block, Holds count consumed block → ∃ more block',
      work block (fun k => precede preload x (consumed + k)) n =
        ((List.range n).map fun i => f (count + i), more, block') ∧
          Holds (count + n) (consumed + more) block') {count consumed : ℕ} {block : σ}
    (holds : Holds count consumed block) : served work preload x consumed block calls =
      (List.range calls.sum).map fun i => f (count + i) := by
  induction calls generalizing count consumed block with
  | nil => rfl
  | cons n calls ih =>
    obtain ⟨more, block', worked, holds'⟩ := step n List.mem_cons_self count consumed block holds
    rw [served, worked]
    dsimp only
    rw [ih (fun n member => step n (List.mem_cons_of_mem _ member)) holds', List.sum_cons,
      List.range_add, List.map_append, List.map_map]
    congr 1
    refine List.map_congr_left fun i _ => ?_
    rw [Function.comp, Nat.add_assoc]

theorem filter_dealt (N_UNROLL : ℕ) {I : ℕ} (positive : 0 < I) {taps : List R} (some : taps ≠ [])
    {n : ℕ} (inside : n < I) (x : ℕ → M) (t : ℕ) :
    ((((dealTaps I (paddedTaps I taps)).map GrFir.setTaps).getD n (GrFir.setTaps [])).filter N_UNROLL
      fun k => precede ((paddedTaps I taps).length / I - 1) x (t + k)) =
        conv (fun j => (paddedTaps I taps).getD (n + I * j) 0) x t := by
  have whole := dvd_length_paddedTaps positive taps
  have length : (dealt I (paddedTaps I taps) (paddedTaps I taps).length n).length =
      (paddedTaps I taps).length / I := by
    simp [dealt]
  have nonempty : 0 < (paddedTaps I taps).length / I :=
    Nat.div_pos (Nat.le_of_dvd ((List.length_pos_iff.mpr some).trans_le
      (length_le_paddedTaps I taps)) whole) positive
  rw [dealTaps_eq positive, List.map_map, List.getD_eq_getElem _ _ (by simpa using inside)]
  simp only [List.getElem_map, List.getElem_range, Function.comp]
  rw [← length, GrFir.filter_history N_UNROLL (length ▸ nonempty)]
  congr 1
  funext j
  exact getD_dealt whole inside j

theorem resampled_eq {I : ℕ} (positive : 0 < I) (D : ℕ) (taps : List R) (x : ℕ → M) (m : ℕ) :
    resampled I D taps x m =
      conv (fun j => (paddedTaps I taps).getD (m * D % I + I * j) 0) x (m * D / I) :=
  conv_upsample positive _ x (m * D)

namespace GrRationalResampler

theorem carry_eq {I : ℕ} (positive : 0 < I) (ctr moved : ℕ) :
    carry I ctr moved = (ctr % I, moved + ctr / I) := by
  induction ctr, moved using carry.induct I with
  | case1 ctr moved enough ih =>
    rw [carry, if_pos enough, ih, ← Nat.mod_eq_sub_mod enough.2,
      Nat.div_eq_sub_div enough.1 enough.2]
    simp only [Prod.mk.injEq, true_and]
    omega
  | case2 ctr moved below =>
    have less : ctr < I := by
      by_contra enough
      exact below ⟨positive, not_lt.mp enough⟩
    rw [carry, if_neg below, Nat.mod_eq_of_lt less, Nat.div_eq_of_lt less, Nat.add_zero]

/-- The block that the constructor makes. -/
def built (I D : ℕ) (taps : List R) (d_ctr : ℕ) : GrRationalResampler R where
  gr_block_history := 1
  d_history := (paddedTaps I taps).length / I
  d_interpolation := I
  d_decimation := D
  d_ctr := d_ctr
  d_new_taps := paddedTaps I taps
  d_updated := false
  d_firs := (dealTaps I (paddedTaps I taps)).map GrFir.setTaps

theorem make_eq {I D : ℕ} (interpolation_pos : 0 < I) (decimation_pos : 0 < D) (taps : List R) :
    make I D taps = .ok (built I D taps 0) := by
  rw [make, if_neg interpolation_pos.ne', if_neg decimation_pos.ne']
  rfl

/-- What the resampler finds for output `m`: its windows begin where those of the reference
end. -/
def shifted (I D : ℕ) (taps : List R) (x : ℕ → M) (m : ℕ) : M :=
  conv (fun j => (paddedTaps I taps).getD (m * D % I + I * j) 0) x
    (m * D / I + ((paddedTaps I taps).length / I - 1))

variable {I D : ℕ} {taps : List R}

theorem round_eq (N_UNROLL : ℕ) (positive : 0 < I) (some : taps ≠ []) (fits : CounterFits I D)
    (x : ℕ → M) {m consumed moved : ℕ} (place : consumed + moved = m * D / I) (d_ctr : ℕ)
    (out : List M) : ∃ moved', consumed + moved' = (m + 1) * D / I ∧
      (built I D taps d_ctr).round N_UNROLL (fun k => precede 0 x (consumed + k))
        (out, m * D % I, moved) = (out ++ [shifted I D taps x m], (m + 1) * D % I, moved') := by
  have next : (m + 1) * D = I * (m * D / I) + (m * D % I + D) := by
    have whole := Nat.div_add_mod (m * D) I
    rw [Nat.succ_mul]
    omega
  have window : offset (fun k => precede 0 x (consumed + k)) moved = fun k =>
      precede ((paddedTaps I taps).length / I - 1) x
        (m * D / I + ((paddedTaps I taps).length / I - 1) + k) := by
    funext k
    have here : m * D / I + ((paddedTaps I taps).length / I - 1) + k =
        (paddedTaps I taps).length / I - 1 + (consumed + (moved + k)) := by omega
    rw [here, precede_add]
    rfl
  refine ⟨moved + (m * D % I + D) / I, ?_, ?_⟩
  · rw [next, Nat.mul_add_div positive]
    omega
  · rw [round, built, Nat.mod_eq_of_lt (fits m), carry_eq positive, window,
      filter_dealt N_UNROLL positive some (Nat.mod_lt _ positive), next, Nat.mul_add_mod]
    rfl

theorem rounds_eq (N_UNROLL : ℕ) (positive : 0 < I) (some : taps ≠ []) (fits : CounterFits I D)
    (x : ℕ → M) {count consumed : ℕ} (place : consumed = count * D / I) (d_ctr n : ℕ) :
    ∃ moved, consumed + moved = (count + n) * D / I ∧
      (List.range n).foldl (fun s _ => (built I D taps d_ctr).round N_UNROLL
        (fun k => precede 0 x (consumed + k)) s) ([], count * D % I, 0) =
          ((List.range n).map fun i => shifted I D taps x (count + i),
            (count + n) * D % I, moved) := by
  induction n with
  | zero => exact ⟨0, by simpa using place, rfl⟩
  | succ n ih =>
    obtain ⟨moved, before, rounds⟩ := ih
    obtain ⟨moved', after, last⟩ := round_eq N_UNROLL positive some fits x before d_ctr
      ((List.range n).map fun i => shifted I D taps x (count + i))
    refine ⟨moved', after, ?_⟩
    rw [List.range_succ, List.foldl_append, rounds, List.foldl_cons, List.foldl_nil, last,
      List.map_append]
    rfl

theorem outputs_built (N_UNROLL : ℕ) (positive : 0 < I) (some : taps ≠ []) (fits : CounterFits I D)
    (x : ℕ → M) (calls : List ℕ) : (built I D taps 0).outputs N_UNROLL x calls =
      (List.range calls.sum).map (shifted I D taps x) := by
  have start : (built I D taps 0).outputs N_UNROLL x calls =
      (List.range calls.sum).map fun i => shifted I D taps x (0 + i) := by
    show served (generalWork N_UNROLL) 0 x 0 (built I D taps 0) calls = _
    refine served_eq (fun count consumed block =>
      consumed = count * D / I ∧ block = built I D taps (count * D % I)) ?_
      ⟨by simp, by simp [built]⟩
    rintro n - count consumed block ⟨place, rfl⟩
    obtain ⟨moved, after, rounds⟩ :=
      rounds_eq N_UNROLL positive some fits x place (count * D % I) n
    refine ⟨moved, built I D taps ((count + n) * D % I), ?_, after, rfl⟩
    have counter : (built I D taps (count * D % I)).d_ctr = count * D % I := rfl
    rw [generalWork, if_neg (by simp [built]), counter, rounds]
    rfl
  simpa using start

end GrRationalResampler

namespace GrInterpFirFilter

/-- The block that the constructor makes. -/
def built (I : ℕ) (taps : List R) : GrInterpFirFilter R where
  gr_block_history := (paddedTaps I taps).length / I
  d_interpolation := I
  d_new_taps := paddedTaps I taps
  d_updated := false
  d_firs := (dealTaps I (paddedTaps I taps)).map GrFir.setTaps

theorem make_eq {I : ℕ} (positive : 0 < I) (taps : List R) :
    make I taps = .ok (built I taps) := by
  rw [make, if_neg (by omega)]
  rfl

theorem outputs_built (N_UNROLL : ℕ) {I : ℕ} (positive : 0 < I) {taps : List R} (some : taps ≠ [])
    (x : ℕ → M) {calls : List ℕ} (multiples : ∀ n ∈ calls, I ∣ n) :
    (built I taps).outputs N_UNROLL x calls =
      (List.range calls.sum).map (resampled I 1 taps x) := by
  have start : (built I taps).outputs N_UNROLL x calls =
      (List.range calls.sum).map fun i => resampled I 1 taps x (0 + i) := by
    refine served_eq (fun count consumed block => count = I * consumed ∧ block = built I taps) ?_
      ⟨rfl, rfl⟩
    rintro n member count consumed block ⟨place, rfl⟩
    obtain ⟨rounds, length⟩ := multiples n member
    have quotient : n / I = rounds := by rw [length, Nat.mul_div_cancel_left _ positive]
    have written : ((List.range rounds).flatMap fun i => (List.range I).map fun nf =>
        ((built I taps).d_firs.getD nf (GrFir.setTaps [])).filter N_UNROLL
          (offset (fun k => precede ((built I taps).gr_block_history - 1) x (consumed + k)) i)) =
        (List.range n).map fun i => resampled I 1 taps x (count + i) := by
      rw [length]
      clear length quotient
      induction rounds with
      | zero => simp
      | succ rounds ih =>
        rw [List.range_succ, List.flatMap_append, ih, Nat.mul_succ, List.range_add, List.map_append,
          List.flatMap_singleton, List.map_map]
        congr 1
        refine List.map_congr_left fun nf member => ?_
        have inside : nf < I := List.mem_range.mp member
        have here : (count + (I * rounds + nf)) * 1 = nf + I * (consumed + rounds) := by
          rw [place, Nat.mul_one, Nat.mul_add]
          omega
        have window : offset (fun k => precede ((built I taps).gr_block_history - 1) x
            (consumed + k)) rounds = fun k => precede ((paddedTaps I taps).length / I - 1) x
              (consumed + rounds + k) := by
          funext k
          rw [offset, Nat.add_assoc]
          rfl
        rw [Function.comp, resampled_eq positive, here, Nat.add_mul_mod_self_left,
          Nat.mod_eq_of_lt inside, Nat.add_mul_div_left _ _ positive, Nat.div_eq_of_lt inside,
          Nat.zero_add, window]
        exact filter_dealt N_UNROLL positive some inside x (consumed + rounds)
    refine ⟨rounds, built I taps, ?_, ?_, rfl⟩
    · rw [generalWork, work, if_neg (by simp [built])]
      show ((List.range (n / I)).flatMap _, if 0 < n then n / I else 0, built I taps) = _
      rw [quotient]
      refine Prod.ext written (Prod.ext ?_ rfl)
      rcases Nat.eq_zero_or_pos n with nothing | more
      · rw [← quotient, nothing]
        simp
      · exact if_pos more
    · rw [place, length, Nat.mul_add]
  simpa using start

end GrInterpFirFilter

namespace GrFirFilter

theorem outputs_make (N_UNROLL : ℕ) {D : ℕ} {taps : List R} (some : taps ≠ [])
    (x : ℕ → M) (calls : List ℕ) : (make D taps).outputs N_UNROLL x calls =
      (List.range calls.sum).map (resampled 1 D taps x) := by
  have start : (make D taps).outputs N_UNROLL x calls =
      (List.range calls.sum).map fun i => resampled 1 D taps x (0 + i) := by
    refine served_eq (fun count consumed block => consumed = count * D ∧ block = make D taps) ?_
      ⟨(Nat.zero_mul D).symm, rfl⟩
    rintro n - count consumed block ⟨rfl, rfl⟩
    have written : (GrFir.setTaps taps).filterNdec N_UNROLL (fun k =>
        precede ((make D taps).gr_block_history - 1) x (count * D + k)) n D =
          (List.range n).map fun i => resampled 1 D taps x (count + i) := by
      refine List.map_congr_left fun i _ => ?_
      have window : offset (fun k => precede ((make D taps).gr_block_history - 1) x
          (count * D + k)) (i * D) = fun k => precede (taps.length - 1) x ((count + i) * D + k) := by
        funext k
        rw [offset, make, GrFir.ntaps_setTaps, Nat.add_mul, Nat.add_assoc]
      rw [window, GrFir.filter_history N_UNROLL (List.length_pos_iff.mpr some), resampled,
        upsample_one, paddedTaps_one]
    refine ⟨n * D, make D taps, ?_, (Nat.add_mul count n D).symm, rfl⟩
    have counted : (if 0 < n then n * D else 0) = n * D := by
      rcases Nat.eq_zero_or_pos n with rfl | more
      · simp
      · exact if_pos more
    rw [generalWork, work, if_neg (by simp [make])]
    by_cases single : D = 1
    · subst single
      rw [if_pos (by rfl)]
      show ((GrFir.setTaps taps).filterN N_UNROLL _ n, if 0 < n then n * 1 else 0, make 1 taps) = _
      rw [counted, ← written, GrFir.filterN, GrFir.filterNdec]
      simp
    · rw [if_neg (by simpa [make] using single)]
      show ((GrFir.setTaps taps).filterNdec N_UNROLL _ n D, if 0 < n then n * D else 0,
        make D taps) = _
      rw [counted, written]
  simpa using start

end GrFirFilter

/-! ## When the resampler agrees -/

namespace GrRationalResampler

variable {I D : ℕ} {taps : List R}

theorem rows_eq_one (positive : 0 < I) (some : taps ≠ []) (few : taps.length ≤ I) :
    (paddedTaps I taps).length / I = 1 := by
  have nonempty : 0 < taps.length := List.length_pos_iff.mpr some
  have length : (paddedTaps I taps).length = I := by
    rw [paddedTaps_eq, List.length_append, List.length_replicate]
    rcases few.lt_or_eq with less | same
    · rw [Nat.mod_eq_of_lt less, if_pos nonempty]
      omega
    · rw [same, Nat.mod_self, if_neg (Nat.lt_irrefl 0), Nat.zero_add]
  rw [length, Nat.div_self positive]

theorem two_le_rows (positive : 0 < I) (many : I < taps.length) :
    2 ≤ (paddedTaps I taps).length / I := by
  obtain ⟨nt, length⟩ := dvd_length_paddedTaps positive taps
  have longer := length_le_paddedTaps I taps
  rw [length, Nat.mul_div_cancel_left _ positive]
  by_contra small
  have few : I * nt ≤ I * 1 := Nat.mul_le_mul_left I (by omega)
  omega

theorem reference_iff (N_UNROLL : ℕ) (interpolation_pos : 0 < I) (decimation_pos : 0 < D)
    (some : taps ≠ []) (fits : CounterFits I D) : ResamplerAgrees N_UNROLL I D taps ↔
      ∀ (x : ℕ → R) m, shifted I D taps x m = resampled I D taps x m := by
  have made := make_eq interpolation_pos decimation_pos taps
  constructor
  · intro agrees x m
    have outputs := agrees.reference _ made x [m + 1]
    rw [outputs_built N_UNROLL interpolation_pos some fits, List.map_inj_left] at outputs
    exact outputs m (by simp)
  · intro same
    have outputs : ∀ block, make I D taps = .ok block → ∀ (x : ℕ → R) calls,
        block.outputs N_UNROLL x calls = (List.range calls.sum).map (resampled I D taps x) := by
      rintro block is_made x calls
      cases made.symm.trans is_made
      rw [outputs_built N_UNROLL interpolation_pos some fits]
      exact List.map_congr_left fun m _ => same x m
    refine ⟨outputs, ?_, ?_⟩
    · rintro rfl block filter is_made filter_made x calls multiples whole sums
      cases (GrInterpFirFilter.make_eq interpolation_pos taps).symm.trans filter_made
      rw [outputs block is_made, GrInterpFirFilter.outputs_built N_UNROLL interpolation_pos some x
        whole, sums]
    · rintro rfl block is_made x calls others sums
      rw [outputs block is_made, GrFirFilter.outputs_make N_UNROLL some, sums]

/-- The zeros that the history asks for are not there. So the resampler agrees with its reference
just when no filter has more than one tap, or the filters it uses have no other taps than zero. -/
theorem resampler_agrees_iff (N_UNROLL : ℕ) (interpolation_pos : 0 < I) (decimation_pos : 0 < D)
    (some : taps ≠ []) (fits : CounterFits I D) : ResamplerAgrees N_UNROLL I D taps ↔
      taps.length ≤ I ∨ ∀ m j, (paddedTaps I taps).getD (m * D % I + I * j) 0 = 0 := by
  rw [reference_iff N_UNROLL interpolation_pos decimation_pos some fits]
  constructor
  · intro same
    by_cases few : taps.length ≤ I
    · exact Or.inl few
    · refine Or.inr fun m j => ?_
      have rows := two_le_rows interpolation_pos (not_le.mp few)
      obtain ⟨nt, length⟩ := dvd_length_paddedTaps interpolation_pos taps
      have quotient : (paddedTaps I taps).length / I = nt := by
        rw [length, Nat.mul_div_cancel_left _ interpolation_pos]
      rw [quotient] at rows
      -- a stream with a single one tells each tap of the filter
      have impulse : ∀ s, (if s ≤ m * D / I + (nt - 1) then
          (paddedTaps I taps).getD (m * D % I + I * (m * D / I + (nt - 1) - s)) 0 else 0) =
            if s ≤ m * D / I then
              (paddedTaps I taps).getD (m * D % I + I * (m * D / I - s)) 0 else 0 := by
        intro s
        have outputs := same (Pi.single s 1) m
        rwa [shifted, resampled_eq interpolation_pos, conv_single, conv_single, quotient] at outputs
      generalize m * D / I = q at impulse
      have first : ∀ j < nt - 1, (paddedTaps I taps).getD (m * D % I + I * j) 0 = 0 := by
        intro j less
        have tap := impulse (q + (nt - 1) - j)
        have back : q + (nt - 1) - (q + (nt - 1) - j) = j := by omega
        rwa [if_pos (by omega), if_neg (by omega), back] at tap
      rcases lt_trichotomy j (nt - 1) with less | rfl | beyond
      · exact first j less
      · have tap := impulse q
        rw [if_pos (by omega), if_pos le_rfl, Nat.add_sub_cancel_left, Nat.sub_self] at tap
        rw [tap]
        exact first 0 (by omega)
      · have more : I * nt ≤ I * j := Nat.mul_le_mul_left I (by omega)
        exact List.getD_eq_default _ _ (by omega)
  · rintro (few | zeros) x m
    · rw [shifted, resampled_eq interpolation_pos, rows_eq_one interpolation_pos some few]
      rfl
    · rw [shifted, resampled_eq interpolation_pos, funext (zeros m), conv_zero, conv_zero]

/-- Two filters with one tap each. -/
theorem resampler_agrees_two : ResamplerAgrees 4 2 3 [(1 : ℤ), 10] := by
  refine (resampler_agrees_iff 4 (by decide) (by decide) (by simp) fun m => ?_).mpr
    (Or.inl (by decide))
  have below := Nat.mod_lt (m * 3) (show 0 < 2 by decide)
  omega

/-- The stream of `test_000_1_to_1` (`qa_rational_resampler.py`), which expects `-936` first. -/
theorem resampler_misses_history :
    (∃ block, make 1 1 [(-4 : ℤ), 5] = .ok block ∧
      block.outputs 4 ([234, -4, 23, -56, 45, 98, -23, -7].getD · 0) [7] =
        [1186, -112, 339, -460, -167, 582, -87]) ∧
    (List.range 7).map (resampled 1 1 [(-4 : ℤ), 5] ([234, -4, 23, -56, 45, 98, -23, -7].getD · 0)) =
      [-936, 1186, -112, 339, -460, -167, 582] ∧
    ¬ ResamplerAgrees 4 1 1 [(-4 : ℤ), 5] := by
  have made : make 1 1 [(-4 : ℤ), 5] = .ok (built 1 1 [-4, 5] 0) :=
    make_eq Nat.one_pos Nat.one_pos _
  have outputs : (built 1 1 [(-4 : ℤ), 5] 0).outputs 4
      ([234, -4, 23, -56, 45, 98, -23, -7].getD · 0) [7] =
        [(1186 : ℤ), -112, 339, -460, -167, 582, -87] := by
    rw [outputs_built 4 Nat.one_pos (by simp) fun m => by rw [Nat.mod_one]; decide]
    decide +kernel
  have expected : (List.range 7).map (resampled 1 1 [(-4 : ℤ), 5]
      ([234, -4, 23, -56, 45, 98, -23, -7].getD · 0)) =
        [-936, 1186, -112, 339, -460, -167, 582] := by
    decide +kernel
  refine ⟨⟨_, made, outputs⟩, expected, fun agrees => ?_⟩
  have same := agrees.reference _ made ([234, -4, 23, -56, 45, 98, -23, -7].getD · 0) [7]
  rw [outputs, List.sum_singleton, expected] at same
  simp at same

end GrRationalResampler

end GnuRadio
