import GnuRadio.Filter.Fir
import GnuRadio.Misc.Except
import Mathlib.Algebra.BigOperators.Ring.Finset
import Mathlib.Data.Nat.Log

/-!
# FFT filter

`gri_fft_filter_fff_generic` multiplies the transform of each block of inputs with the one of
the taps and adds the tail of the block before. The transforms are FFTW's: here they are
parameters. The items belong to a field in which the scale of the taps is exact.
-/

namespace GnuRadio

variable {K C : Type}

/-- A pair of real transforms of a size, without a scale: the spectrum has `size / 2 + 1`
values. -/
structure RealTransforms (K C : Type) where
  fwd : ℕ → List K → List C
  rev : ℕ → List C → List K

/-- `gri_fft_filter_fff_generic` (`gri_fft_filter_fff_generic.h:33-49`). -/
structure GriFftFilter (K C : Type) where
  d_ntaps : ℕ
  d_nsamples : ℕ
  d_fftsize : ℕ
  d_decimation : ℕ
  d_tail : List K
  d_xformed_taps : List C

/-- `gr_fft_filter_fff` and what it has of its base classes. -/
structure GrFftFilter (K C : Type) where
  gr_block_history : ℕ
  d_decimation : ℕ
  d_output_multiple : ℕ
  d_nsamples : ℕ
  d_updated : Bool
  d_filter : GriFftFilter K C
  d_new_taps : List K

namespace GriFftFilter

variable [Field K] [CommSemiring C] (fft : RealTransforms K C)

def tailsize (filter : GriFftFilter K C) : ℕ := filter.d_ntaps - 1

/-- `(int) (2 * pow(2.0, ceil(log(double(ntaps)) / log(2.0))))`: the logarithm of zero gives
size zero. -/
def fftsize (ntaps : ℕ) : ℕ := if ntaps = 0 then 0 else 2 * 2 ^ Nat.clog 2 ntaps

/-- `compute_sizes` (`gri_fft_filter_fff_generic.cc:84-105`). A plan of size zero cannot be made
(`gri_fft.cc:144`). -/
def computeSizes (filter : GriFftFilter K C) (ntaps : ℕ) :
    Except FilterException (GriFftFilter K C) :=
  if fftsize ntaps = 0 then
    .error (.outOfRange "gri_fftw: invalid fft_size")
  else
    .ok { filter with
      d_ntaps := ntaps
      d_fftsize := fftsize ntaps
      d_nsamples := fftsize ntaps - ntaps + 1 }

/-- `set_taps` (`gri_fft_filter_fff_generic.cc:50-80`), with the number of samples that it
returns. -/
def setTaps (filter : GriFftFilter K C) (taps : List K) :
    Except FilterException (ℕ × GriFftFilter K C) := do
  let filter ← filter.computeSizes taps.length
  let scale : K := 1 / filter.d_fftsize
  let inbuf := (List.range filter.d_fftsize).map fun i =>
    if i < filter.d_ntaps then taps.getD i 0 * scale else 0
  let out := fft.fwd filter.d_fftsize inbuf
  return (filter.d_nsamples, { filter with
    d_tail := List.replicate filter.tailsize 0
    d_xformed_taps := (List.range (filter.d_fftsize / 2 + 1)).map fun i => out.getD i 0 })

/-- The constructor (`gri_fft_filter_fff_generic.cc:34-39`). -/
def make (decimation : ℕ) (taps : List K) : Except FilterException (GriFftFilter K C) := do
  let filter : GriFftFilter K C := {
    d_ntaps := 0
    d_nsamples := 0
    d_fftsize := 0
    d_decimation := decimation
    d_tail := []
    d_xformed_taps := [] }
  let (_, filter) ← filter.setTaps fft taps
  return filter

/-- The block from input `i` on, filtered, with the tail of the block before added
(`gri_fft_filter_fff_generic.cc:116-131`). -/
def block (filter : GriFftFilter K C) (input : ℕ → K) (i : ℕ) : List K :=
  let inbuf := (List.range filter.d_fftsize).map fun j =>
    if j < filter.d_nsamples then input (i + j) else 0
  let a := fft.fwd filter.d_fftsize inbuf
  let b := filter.d_xformed_taps
  let c := (List.range (filter.d_fftsize / 2 + 1)).map fun j => a.getD j 0 * b.getD j 0
  let outbuf := fft.rev filter.d_fftsize c
  outbuf.mapIdx fun j value => if j < filter.tailsize then value + filter.d_tail.getD j 0 else value

/-- The loop that copies every `d_decimation`-th sample from `j` on, with `j` after it. With
decimation zero it would not end. -/
def pick (filter : GriFftFilter K C) (outbuf : List K) (j : ℕ) : List K × ℕ :=
  if 0 < filter.d_decimation ∧ j < filter.d_nsamples then
    let (output, last) := filter.pick outbuf (j + filter.d_decimation)
    (outbuf.getD j 0 :: output, last)
  else
    ([], j)
termination_by filter.d_nsamples - j

/-- A round of `filter` (`gri_fft_filter_fff_generic.cc:114-153`): the outputs so far, `dec_ctr`
and the filter. -/
def round (input : ℕ → K) :
    List K × ℕ × GriFftFilter K C → ℕ → List K × ℕ × GriFftFilter K C
  | (output, dec_ctr, filter), i =>
      let outbuf := filter.block fft input i
      let (more, j) := filter.pick outbuf dec_ctr
      (output ++ more, j - filter.d_nsamples, { filter with
        d_tail := (List.range filter.tailsize).map fun j => outbuf.getD (filter.d_nsamples + j) 0 })

/-- `filter` (`gri_fft_filter_fff_generic.cc:107-158`), with an exact `ninput_items`. -/
def filter (filter : GriFftFilter K C) (nitems : ℕ) (input : ℕ → K) :
    Except FilterException (List K × GriFftFilter K C) :=
  let ninput_items := nitems * filter.d_decimation
  let blocks := (ninput_items + filter.d_nsamples - 1) / filter.d_nsamples
  let (output, dec_ctr, filter) :=
    (List.range' 0 blocks filter.d_nsamples).foldl (round fft input) ([], 0, filter)
  if dec_ctr = 0 then .ok (output, filter) else .error .assertFailed

end GriFftFilter

namespace GrFftFilter

variable [Field K] [CommSemiring C] (fft : RealTransforms K C)

/-- The constructor (`gr_fft_filter_fff.cc:45-63`). -/
def make (decimation : ℕ) (taps : List K) : Except FilterException (GrFftFilter K C) := do
  let d_filter ← GriFftFilter.make fft decimation taps
  let (d_nsamples, d_filter) ← d_filter.setTaps fft taps
  return {
    gr_block_history := 1
    d_decimation := decimation
    d_output_multiple := d_nsamples
    d_nsamples := d_nsamples
    d_updated := false
    d_filter := d_filter
    d_new_taps := [] }

/-- `work` (`gr_fft_filter_fff.cc:77-97`): the outputs, the number returned and the block
after. -/
def work (block : GrFftFilter K C) (noutput_items : ℕ) (input : ℕ → K) :
    Except FilterException (List K × ℕ × GrFftFilter K C) := do
  if block.d_updated then
    let (d_nsamples, d_filter) ← block.d_filter.setTaps fft block.d_new_taps
    return ([], 0, { block with
      d_nsamples := d_nsamples
      d_filter := d_filter
      d_updated := false
      d_output_multiple := d_nsamples })
  else if noutput_items % block.d_nsamples = 0 then
    let (output, d_filter) ← block.d_filter.filter fft noutput_items input
    return (output, noutput_items, { block with d_filter := d_filter })
  else
    .error .assertFailed

/-- The outputs of one call of `gr_sync_decimator::general_work` after another, each from the
first input that is not consumed (`gr_sync_decimator.cc:60-69`). -/
def outputs (block : GrFftFilter K C) (x : ℕ → K) (calls : List ℕ) :
    Except FilterException (List K × ℕ × GrFftFilter K C) :=
  calls.foldlM (fun (out, consumed, block) noutput_items => do
    let (more, r, after) ← block.work fft noutput_items fun k =>
      precede (block.gr_block_history - 1) x (consumed + k)
    return (out ++ more, consumed + r * block.d_decimation, after)) ([], 0, block)

end GrFftFilter

/-- The transforms of this size are exact: multiplying the spectra is a circular convolution,
scaled with the size. -/
def RealTransforms.Exact [Field K] [CommSemiring C] (fft : RealTransforms K C) (size : ℕ) : Prop :=
  ∀ a b : List K, a.length = size → b.length = size →
    fft.rev size ((List.range (size / 2 + 1)).map fun j =>
      (fft.fwd size a).getD j 0 * (fft.fwd size b).getD j 0) =
        (List.range size).map fun t => size * circular size (a.getD · 0) (b.getD · 0) t

namespace GriFftFilter

/-! ## Sizes -/

theorem fftsize_pos {ntaps : ℕ} (some : 0 < ntaps) : 0 < fftsize ntaps := by
  rw [fftsize, if_neg some.ne']
  exact Nat.mul_pos Nat.two_pos (Nat.two_pow_pos _)

theorem le_fftsize (ntaps : ℕ) : ntaps ≤ fftsize ntaps := by
  unfold fftsize
  split
  · omega
  · have enough : ntaps ≤ 2 ^ Nat.clog 2 ntaps := Nat.le_pow_clog (by decide) ntaps
    omega

/-! ## Blocks -/

variable [Field K] [CommSemiring C] {fft : RealTransforms K C} {D T : ℕ} {taps : List K}
  {x : ℕ → K} {filter : GriFftFilter K C}

/-- The taps as they are transformed. -/
def scaled (taps : List K) : List K :=
  (List.range (fftsize taps.length)).map fun i =>
    if i < taps.length then taps.getD i 0 * (1 / (fftsize taps.length : K)) else 0

/-- The filter after the first `T` items: its tail is what they give to the next ones. -/
structure Ready (fft : RealTransforms K C) (D : ℕ) (taps : List K) (x : ℕ → K) (T : ℕ)
    (filter : GriFftFilter K C) : Prop where
  ntaps : filter.d_ntaps = taps.length
  fftsize : filter.d_fftsize = GriFftFilter.fftsize taps.length
  nsamples : filter.d_nsamples = GriFftFilter.fftsize taps.length - taps.length + 1
  decimation : filter.d_decimation = D
  xformed : ∀ j < filter.d_fftsize / 2 + 1,
    filter.d_xformed_taps.getD j 0 = (fft.fwd filter.d_fftsize (scaled taps)).getD j 0
  tail : ∀ j < taps.length - 1,
    filter.d_tail.getD j 0 = fromFirst (taps.getD · 0) x T (T + j)

theorem Ready.room (ready : Ready fft D taps x T filter) :
    filter.d_fftsize + 1 = taps.length + filter.d_nsamples := by
  have enough := le_fftsize taps.length
  rw [ready.fftsize, ready.nsamples]
  omega

theorem getD_scaled (taps : List K) : ((scaled taps).getD · 0) = fun k =>
    taps.getD k 0 * (1 / (fftsize taps.length : K)) := by
  have enough := le_fftsize taps.length
  funext k
  by_cases inside : k < fftsize taps.length
  · rw [scaled, List.getD_eq_getElem _ _ (by simpa using inside)]
    simp only [List.getElem_map, List.getElem_range]
    split
    · rfl
    · rw [List.getD_eq_default _ _ (not_lt.mp ‹_›), zero_mul]
  · rw [List.getD_eq_default _ _ (by simpa [scaled] using not_lt.mp inside),
      List.getD_eq_default _ _ (by omega), zero_mul]

theorem circular_scaled [CharZero K] (some : taps ≠ []) (a : ℕ → K) (t : ℕ) :
    (fftsize taps.length : K) * circular (fftsize taps.length) a ((scaled taps).getD · 0) t =
      circular (fftsize taps.length) a (taps.getD · 0) t := by
  have positive := fftsize_pos (List.length_pos_iff.mpr some)
  have nonzero : (fftsize taps.length : K) ≠ 0 := Nat.cast_ne_zero.mpr positive.ne'
  rw [getD_scaled, circular, circular, Finset.mul_sum]
  refine Finset.sum_congr rfl fun s _ => ?_
  rw [mul_comm, mul_assoc, mul_assoc, one_div, inv_mul_cancel₀ nonzero, mul_one]

variable {input : ℕ → K}

theorem Ready.block [CharZero K] (ready : Ready fft D taps x T filter)
    (exact : fft.Exact (GriFftFilter.fftsize taps.length)) (some : taps ≠ []) {i : ℕ}
    (reads : ∀ j, input (i + j) = x (T + j)) : filter.block fft input i =
      (List.range filter.d_fftsize).map fun t =>
        fromFirst (taps.getD · 0) x (T + filter.d_nsamples) (T + t) := by
  have room := ready.room
  have nonempty : 0 < taps.length := List.length_pos_iff.mpr some
  have short : ∀ k, taps.length ≤ k → taps.getD k 0 = 0 := fun k beyond =>
    List.getD_eq_default _ _ beyond
  obtain ⟨inbuf, inbuf_eq⟩ : ∃ inbuf, inbuf = (List.range filter.d_fftsize).map fun j =>
    if j < filter.d_nsamples then input (i + j) else 0 := ⟨_, rfl⟩
  have items : (inbuf.getD · 0) = fun s => if s < filter.d_nsamples then x (T + s) else 0 := by
    funext s
    by_cases inside : s < filter.d_fftsize
    · rw [inbuf_eq, List.getD_eq_getElem _ _ (by simpa using inside)]
      simp only [List.getElem_map, List.getElem_range, reads]
    · rw [inbuf_eq, List.getD_eq_default _ _ (by simpa using not_lt.mp inside), if_neg (by omega)]
  have spectrum : ((List.range (filter.d_fftsize / 2 + 1)).map fun j =>
      (fft.fwd filter.d_fftsize inbuf).getD j 0 * filter.d_xformed_taps.getD j 0) =
        (List.range (filter.d_fftsize / 2 + 1)).map fun j =>
          (fft.fwd filter.d_fftsize inbuf).getD j 0 *
            (fft.fwd filter.d_fftsize (scaled taps)).getD j 0 :=
    List.map_congr_left fun j member => by rw [ready.xformed j (List.mem_range.mp member)]
  have outbuf : fft.rev filter.d_fftsize ((List.range (filter.d_fftsize / 2 + 1)).map fun j =>
      (fft.fwd filter.d_fftsize inbuf).getD j 0 * filter.d_xformed_taps.getD j 0) =
        (List.range filter.d_fftsize).map fun t =>
          fromFirst (taps.getD · 0) (fun s => x (T + s)) filter.d_nsamples t := by
    rw [spectrum, ready.fftsize, exact inbuf (scaled taps) (by simp [inbuf_eq, ready.fftsize])
      (by simp [scaled]), items]
    refine List.map_congr_left fun t member => ?_
    rw [circular_scaled some, circular_padded short nonempty (ready.fftsize ▸ room) _
      (List.mem_range.mp member)]
  rw [GriFftFilter.block, ← inbuf_eq, outbuf]
  refine List.ext_getElem (by simp) fun t within _ => ?_
  have inside : t < filter.d_fftsize := by simpa using within
  rw [List.getElem_mapIdx]
  simp only [List.getElem_map, List.getElem_range, tailsize, ready.ntaps]
  rw [fromFirst_add]
  by_cases overlap : t < taps.length - 1
  · rw [if_pos overlap, ready.tail t overlap]
  · rw [if_neg overlap, fromFirst_beyond short x (by omega), add_zero]

/-! ## Decimation -/

omit [CommSemiring C] in
theorem pick_eq (positive : 0 < filter.d_decimation) (outbuf : List K) (j : ℕ) : ∃ count,
    filter.pick outbuf j = ((List.range count).map fun i =>
      outbuf.getD (j + i * filter.d_decimation) 0, j + count * filter.d_decimation) ∧
        filter.d_nsamples ≤ j + count * filter.d_decimation ∧
          ∀ i < count, j + i * filter.d_decimation < filter.d_nsamples := by
  fun_induction pick filter outbuf j with
  | case1 j inside output last copied ih =>
    obtain ⟨count, picked, past, within⟩ := ih
    have shift : ∀ i, j + filter.d_decimation + i * filter.d_decimation =
        j + (i + 1) * filter.d_decimation := by
      intro i
      rw [Nat.succ_mul]
      omega
    simp only [shift] at picked past within
    refine ⟨count + 1, ?_, past, fun i less => ?_⟩
    · rw [copied, Prod.mk.injEq] at picked
      rw [picked.1, picked.2, List.range_succ_eq_map, List.map_cons, List.map_map, Nat.zero_mul,
        Nat.add_zero]
      rfl
    · cases i with
      | zero => simpa using inside.2
      | succ i => exact within i (by omega)
  | case2 j past =>
    refine ⟨0, by rw [Nat.zero_mul]; rfl, ?_, fun i less => ?_⟩
    · rw [Nat.zero_mul]
      by_contra inside
      exact past ⟨positive, by omega⟩
    · exact absurd less (Nat.not_lt_zero i)

/-- A call that began at item `start` has put out `count` items when it is at item `T`. -/
structure Picked (D : ℕ) (taps : List K) (x : ℕ → K) (start T : ℕ) (output : List K)
    (dec_ctr : ℕ) : Prop where
  below : dec_ctr < D
  output : ∃ count, start + count * D = T + dec_ctr ∧
    output = (List.range count).map fun m => conv (taps.getD · 0) x (start + m * D)

theorem Ready.round [CharZero K] (ready : Ready fft D taps x T filter)
    (exact : fft.Exact (GriFftFilter.fftsize taps.length)) (some : taps ≠ []) {i : ℕ}
    (reads : ∀ j, input (i + j) = x (T + j)) {start dec_ctr : ℕ} {output : List K}
    (picked : Picked D taps x start T output dec_ctr) : ∃ output' dec_ctr' filter',
      GriFftFilter.round fft input (output, dec_ctr, filter) i = (output', dec_ctr', filter') ∧
        Picked D taps x start (T + filter.d_nsamples) output' dec_ctr' ∧
          Ready fft D taps x (T + filter.d_nsamples) filter' := by
  have room := ready.room
  have positive : 0 < filter.d_decimation := by
    rw [ready.decimation]
    exact Nat.zero_lt_of_lt picked.below
  have nonempty : 0 < taps.length := List.length_pos_iff.mpr some
  obtain ⟨count, place, so_far⟩ := picked.output
  have outbuf := ready.block exact some reads
  have sample : ∀ t < filter.d_fftsize, (filter.block fft input i).getD t 0 =
      fromFirst (taps.getD · 0) x (T + filter.d_nsamples) (T + t) := by
    intro t inside
    rw [outbuf, List.getD_eq_getElem _ _ (by simpa using inside)]
    simp
  obtain ⟨more, copied, past, within⟩ := pick_eq positive (filter.block fft input i) dec_ctr
  rw [ready.decimation] at copied past within
  refine ⟨_, _, _, by rw [GriFftFilter.round, copied], ⟨?_, count + more, ?_, ?_⟩, ?_⟩
  · cases more with
    | zero => exact lt_of_le_of_lt (by omega) picked.below
    | succ more =>
      have last := within more (Nat.lt_succ_self more)
      rw [Nat.succ_mul] at past ⊢
      omega
  · rw [Nat.add_mul]
    omega
  · rw [so_far, List.range_add, List.map_append, List.map_map]
    congr 1
    refine List.map_congr_left fun i member => ?_
    have inside := within i (List.mem_range.mp member)
    have here : T + (dec_ctr + i * D) = start + (count + i) * D := by
      rw [Nat.add_mul]
      omega
    rw [sample _ (by omega), fromFirst_eq_conv _ _ (by omega), here]
    rfl
  · refine ⟨ready.ntaps, ready.fftsize, ready.nsamples, ready.decimation, ready.xformed,
      fun j inside => ?_⟩
    rw [List.getD_eq_getElem _ _ (by simpa [tailsize, ready.ntaps] using inside)]
    simp only [List.getElem_map, List.getElem_range]
    rw [sample _ (by omega), Nat.add_assoc]

theorem Ready.rounds [CharZero K] (ready : Ready fft D taps x T filter)
    (exact : fft.Exact (GriFftFilter.fftsize taps.length)) (some : taps ≠ []) (positive : 0 < D)
    (reads : ∀ j, input j = x (T + j)) (blocks : ℕ) : ∃ output dec_ctr filter',
      (List.range' 0 blocks filter.d_nsamples).foldl (GriFftFilter.round fft input) ([], 0, filter) =
        (output, dec_ctr, filter') ∧
          Picked D taps x T (T + filter.d_nsamples * blocks) output dec_ctr ∧
            Ready fft D taps x (T + filter.d_nsamples * blocks) filter' := by
  induction blocks with
  | zero =>
    exact ⟨[], 0, filter, rfl, ⟨positive, 0, by simp, rfl⟩, by simpa using ready⟩
  | succ blocks ih =>
    obtain ⟨output, dec_ctr, filter₁, rounds, picked, ready₁⟩ := ih
    have same : filter₁.d_nsamples = filter.d_nsamples := by
      rw [ready.nsamples, ready₁.nsamples]
    have reads' : ∀ j, input (0 + filter.d_nsamples * blocks + j) =
        x (T + filter.d_nsamples * blocks + j) := by
      intro j
      rw [reads, Nat.zero_add, Nat.add_assoc]
    obtain ⟨output', dec_ctr', filter', last, picked', ready'⟩ :=
      ready₁.round exact some reads' picked
    rw [same, Nat.add_assoc, ← Nat.mul_succ] at picked' ready'
    refine ⟨output', dec_ctr', filter', ?_, picked', ready'⟩
    rw [List.range'_concat, List.foldl_append, rounds, List.foldl_cons, List.foldl_nil, last]

/-- A call takes a whole number of blocks, `d_decimation` times what it puts out. -/
theorem Ready.filtered [CharZero K] (ready : Ready fft D taps x T filter)
    (exact : fft.Exact (GriFftFilter.fftsize taps.length)) (some : taps ≠ []) (positive : 0 < D)
    {nitems : ℕ} (whole : filter.d_nsamples ∣ nitems)
    (reads : ∀ j, input j = x (T + j)) : ∃ filter',
      filter.filter fft nitems input =
        .ok ((List.range nitems).map fun m => conv (taps.getD · 0) x (T + m * D), filter') ∧
          Ready fft D taps x (T + nitems * D) filter' := by
  obtain ⟨blocks, length⟩ := Nat.dvd_trans whole (Nat.dvd_mul_right nitems D)
  have samples : 0 < filter.d_nsamples := by
    rw [ready.nsamples]
    omega
  have count : (nitems * D + filter.d_nsamples - 1) / filter.d_nsamples = blocks := by
    rw [length, Nat.add_sub_assoc samples, Nat.mul_add_div samples,
      Nat.div_eq_of_lt (by omega), Nat.add_zero]
  obtain ⟨output, dec_ctr, filter', rounds, ⟨below, produced, place, so_far⟩, ready'⟩ :=
    ready.rounds exact some positive reads blocks
  rw [← length] at place ready'
  have quotient : produced = nitems := by
    have equal : produced * D = nitems * D + dec_ctr := by omega
    have divided : produced * D / D = (nitems * D + dec_ctr) / D := by rw [equal]
    rwa [Nat.mul_div_cancel _ positive, Nat.mul_comm nitems, Nat.mul_add_div positive,
      Nat.div_eq_of_lt below, Nat.add_zero] at divided
  subst quotient
  refine ⟨filter', ?_, ready'⟩
  rw [GriFftFilter.filter, ready.decimation, count, rounds]
  show (if dec_ctr = 0 then _ else _) = _
  rw [if_pos (by omega), so_far]

/-- The filter with new taps. -/
def retapped (fft : RealTransforms K C) (filter : GriFftFilter K C) (taps : List K) :
    GriFftFilter K C where
  d_ntaps := taps.length
  d_nsamples := GriFftFilter.fftsize taps.length - taps.length + 1
  d_fftsize := GriFftFilter.fftsize taps.length
  d_decimation := filter.d_decimation
  d_tail := List.replicate (taps.length - 1) 0
  d_xformed_taps := (List.range (GriFftFilter.fftsize taps.length / 2 + 1)).map fun i =>
    (fft.fwd (GriFftFilter.fftsize taps.length) (scaled taps)).getD i 0

theorem setTaps_eq (filter : GriFftFilter K C) (some : taps ≠ []) : filter.setTaps fft taps =
    .ok (GriFftFilter.fftsize taps.length - taps.length + 1, filter.retapped fft taps) := by
  rw [setTaps, computeSizes, if_neg (fftsize_pos (List.length_pos_iff.mpr some)).ne']
  rfl

theorem ready_retapped (filter : GriFftFilter K C) (taps : List K) (x : ℕ → K) :
    Ready fft filter.d_decimation taps x 0 (filter.retapped fft taps) := by
  refine ⟨rfl, rfl, rfl, rfl, fun j inside => ?_, fun j inside => ?_⟩
  · have within : j < GriFftFilter.fftsize taps.length / 2 + 1 := inside
    simp [retapped, List.getD_eq_getElem?_getD, List.getElem?_range within]
  · rw [fromFirst_zero]
    simp [retapped, List.getD_eq_getElem?_getD, inside]

end GriFftFilter

namespace GrFftFilter

variable [Field K] [CommSemiring C] {fft : RealTransforms K C} {D : ℕ} {taps : List K}

/-- The block after the first `T` items. -/
structure Ready (fft : RealTransforms K C) (D : ℕ) (taps : List K) (x : ℕ → K) (T : ℕ)
    (block : GrFftFilter K C) : Prop where
  history : block.gr_block_history = 1
  decimation : block.d_decimation = D
  not_updated : block.d_updated = false
  nsamples : block.d_nsamples = block.d_filter.d_nsamples
  output_multiple : block.d_output_multiple = block.d_nsamples
  filter : GriFftFilter.Ready fft D taps x T block.d_filter

theorem make_ready (some : taps ≠ []) (D : ℕ) :
    ∃ block, make fft D taps = .ok block ∧ ∀ x, Ready fft D taps x 0 block := by
  obtain ⟨first, made, decimation⟩ :
      ∃ first, GriFftFilter.make fft D taps = .ok first ∧ first.d_decimation = D :=
    ⟨_, by rw [GriFftFilter.make]; dsimp only; rw [GriFftFilter.setTaps_eq _ some]; rfl, rfl⟩
  exact ⟨_, by rw [make, made, ok_bind, GriFftFilter.setTaps_eq first some]; rfl, fun x =>
    ⟨rfl, rfl, rfl, rfl, rfl, decimation ▸ GriFftFilter.ready_retapped first taps x⟩⟩

theorem make_nil (D : ℕ) : (make fft D [] : Except FilterException (GrFftFilter K C)) =
    .error (.outOfRange "gri_fftw: invalid fft_size") := rfl

theorem Ready.work [CharZero K] {x : ℕ → K} {T : ℕ} {block : GrFftFilter K C}
    (ready : Ready fft D taps x T block) (exact : fft.Exact (GriFftFilter.fftsize taps.length))
    (some : taps ≠ []) (positive : 0 < D) {noutput_items : ℕ}
    (multiple : block.d_output_multiple ∣ noutput_items) : ∃ after,
      block.work fft noutput_items (fun k => precede (block.gr_block_history - 1) x (T + k)) =
        .ok ((List.range noutput_items).map fun m => conv (taps.getD · 0) x (T + m * D),
          noutput_items, after) ∧
        Ready fft D taps x (T + noutput_items * D) after ∧
          after.d_output_multiple = block.d_output_multiple := by
  have whole : block.d_filter.d_nsamples ∣ noutput_items := by
    rwa [← ready.nsamples, ← ready.output_multiple]
  obtain ⟨filter', filtered, ready'⟩ := ready.filter.filtered exact some positive whole
    (fun j => rfl : ∀ j, (fun k => x (T + k)) j = x (T + j))
  have samples : filter'.d_nsamples = block.d_filter.d_nsamples := by
    rw [ready'.nsamples, ready.filter.nsamples]
  refine ⟨{ block with d_filter := filter' }, ?_, ⟨ready.history, ready.decimation,
    ready.not_updated, ready.nsamples.trans samples.symm, ready.output_multiple, ready'⟩, rfl⟩
  rw [GrFftFilter.work, ready.not_updated, if_neg Bool.false_ne_true,
    if_pos (Nat.mod_eq_zero_of_dvd (ready.nsamples ▸ whole)), ready.history, precede_zero, filtered]
  rfl

/-- Filtering with exact transforms is direct filtering, in whatever calls of whole blocks, and
no assertion fails: the decimation counter is zero after each call. -/
theorem fft_filter_convolves [CharZero K] (positive : 0 < D)
    (exact : fft.Exact (GriFftFilter.fftsize taps.length)) :
    (taps = [] → make fft D taps = .error (.outOfRange "gri_fftw: invalid fft_size")) ∧
      (taps ≠ [] → ∃ block, make fft D taps = .ok block ∧
        block.d_output_multiple = GriFftFilter.fftsize taps.length - taps.length + 1 ∧
          ∀ x calls, (∀ n ∈ calls, block.d_output_multiple ∣ n) → ∃ after,
            block.outputs fft x calls = .ok ((List.range calls.sum).map fun m =>
              conv (taps.getD · 0) x (m * D), calls.sum * D, after)) := by
  refine ⟨fun empty => empty ▸ make_nil D, fun some => ?_⟩
  obtain ⟨block, made, ready⟩ := @make_ready _ _ _ _ fft _ some D
  refine ⟨block, made, ?_, fun x calls multiples => ?_⟩
  · rw [(ready fun _ => 0).output_multiple, (ready fun _ => 0).nsamples,
      (ready fun _ => 0).filter.nsamples]
  -- calls in a row, from any point on
  have rest : ∀ calls : List ℕ, (∀ n ∈ calls, block.d_output_multiple ∣ n) → ∀ count now,
      Ready fft D taps x (count * D) now → now.d_output_multiple = block.d_output_multiple →
        ∃ after, calls.foldlM (fun (out, consumed, block) noutput_items => do
          let (more, r, after) ← block.work fft noutput_items fun k =>
            precede (block.gr_block_history - 1) x (consumed + k)
          return (out ++ more, consumed + r * block.d_decimation, after))
          ((List.range count).map fun m => conv (taps.getD · 0) x (m * D), count * D, now) =
            (.ok ((List.range (count + calls.sum)).map fun m => conv (taps.getD · 0) x (m * D),
              (count + calls.sum) * D, after) : Except FilterException _) := by
    intro calls
    induction calls with
    | nil => exact fun _ count now _ _ => ⟨now, rfl⟩
    | cons n calls ih =>
      intro multiples count now ready same
      obtain ⟨next, worked, ready', same'⟩ := ready.work exact some positive
        (same ▸ multiples n List.mem_cons_self)
      rw [← Nat.add_mul] at ready'
      obtain ⟨after, outputs⟩ := ih (fun m member => multiples m (List.mem_cons_of_mem _ member))
        (count + n) next ready' (same'.trans same)
      refine ⟨after, ?_⟩
      have joined : ((List.range count).map fun m => conv (taps.getD · 0) x (m * D)) ++
          ((List.range n).map fun m => conv (taps.getD · 0) x (count * D + m * D)) =
            (List.range (count + n)).map fun m => conv (taps.getD · 0) x (m * D) := by
        simp only [List.range_add, List.map_append, List.map_map, ← Nat.add_mul]
        rfl
      rw [Nat.add_assoc, ← List.sum_cons] at outputs
      refine foldlM_cons_ok.mpr ⟨_, by dsimp only; rw [worked]; rfl, ?_⟩
      rw [joined, ready.decimation, ← Nat.add_mul]
      exact outputs
  have start := rest calls multiples 0 block (by simpa using ready x) rfl
  rw [Nat.zero_add, Nat.zero_mul] at start
  exact start

/-- The transforms of size two. -/
def sizeTwo : RealTransforms ℚ ℚ where
  fwd _ a := [a.getD 0 0 + a.getD 1 0, a.getD 0 0 - a.getD 1 0]
  rev _ c := [c.getD 0 0 + c.getD 1 0, c.getD 0 0 - c.getD 1 0]

/-- One tap, every other item. -/
theorem fft_filter_convolves_one : ∃ block, make sizeTwo 2 [3] = .ok block ∧ ∃ after,
    block.outputs sizeTwo (fun k => k + 1) [2, 2] = .ok ([3, 9, 15, 21], 8, after) := by
  have size : GriFftFilter.fftsize [(3 : ℚ)].length = 2 := by simp [GriFftFilter.fftsize]
  have exact : sizeTwo.Exact (GriFftFilter.fftsize [(3 : ℚ)].length) := by
    rw [size]
    intro a b two_a two_b
    obtain ⟨p, q, rfl⟩ := List.length_eq_two.mp two_a
    obtain ⟨r, s, rfl⟩ := List.length_eq_two.mp two_b
    simp [sizeTwo, circular, List.range_succ, Finset.sum_range_succ]
    constructor <;> ring
  obtain ⟨block, made, multiple, outputs⟩ :=
    (fft_filter_convolves Nat.two_pos exact).2 (by simp)
  rw [size] at multiple
  obtain ⟨after, filtered⟩ := outputs (fun k => k + 1) [2, 2] (by simp [multiple])
  have expected : (List.range [2, 2].sum).map (fun m =>
      conv ([(3 : ℚ)].getD · 0) (fun k => (k : ℚ) + 1) (m * 2)) = [3, 9, 15, 21] := by
    decide +kernel
  exact ⟨block, made, after, expected ▸ filtered⟩

/-- The transforms of size zero. -/
def sizeZero : RealTransforms ℚ ℚ := ⟨fun _ _ => [], fun _ _ => []⟩

/-- Without taps there is no filter, with exact transforms too. -/
theorem fft_filter_without_taps : sizeZero.Exact (GriFftFilter.fftsize 0) ∧
    ¬∃ block, make sizeZero 1 [] = .ok block :=
  ⟨fun _ _ _ _ => rfl, fun ⟨_, made⟩ => by cases (make_nil 1).symm.trans made⟩

end GrFftFilter

end GnuRadio
