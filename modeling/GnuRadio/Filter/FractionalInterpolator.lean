import GnuRadio.Filter.PfbArbResampler
import GnuRadio.Misc.Double

/-!
# The fractional interpolator

`gr_fractional_interpolator_ff` adds its ratio to a phase for every output and moves on by the
whole part. Each output comes from the filter of an interpolator whose place is nearest to the
phase. `float` and `double` are the rational numbers.
-/

namespace GnuRadio

/-- `NTAPS` (`interpolator_taps.h:6`). -/
def GriMmseFirInterpolator.NTAPS : ℕ := 8

/-- `NSTEPS` (`interpolator_taps.h:7`). -/
def GriMmseFirInterpolator.NSTEPS : ℕ := 128

open GriMmseFirInterpolator in
/-- `gri_mmse_fir_interpolator` (`gri_mmse_fir_interpolator.h:42-63`), for any table of as many taps
    as that of `interpolator_taps.h`. -/
structure GriMmseFirInterpolator where
  filters : List (GrFir ℚ)
  count : filters.length = NSTEPS + 1
  taps : ∀ fir ∈ filters, fir.ntaps = NTAPS

namespace GriMmseFirInterpolator

/-- `ntaps` (`gri_mmse_fir_interpolator.cc:49-53`). -/
def ntaps (_ : GriMmseFirInterpolator) : ℕ := NTAPS

/-- `interpolate` (`gri_mmse_fir_interpolator.cc:61-71`) from item `ii` of the input on. -/
def interpolate (interp : GriMmseFirInterpolator) (N_UNROLL : ℕ) (input : List ℚ) (ii : Int)
    (mu : ℚ) : Except CppException ℚ := do
  let imu ← asInt (roundEven (mu * NSTEPS))
  if ¬0 ≤ imu then .error .assertFailed
  else if ¬imu ≤ NSTEPS then .error .assertFailed
  else
    match interp.filters[imu.toNat]? with
    | none => .error .undefinedBehaviour
    | some fir =>
        if 0 ≤ ii ∧ ii + fir.ntaps ≤ input.length then
          .ok (fir.filter N_UNROLL (offset (input.getD · 0) ii.toNat))
        else .error .undefinedBehaviour

/-- The filter whose place is nearest to a phase. -/
def nearest (interp : GriMmseFirInterpolator) (mu : ℚ) : GrFir ℚ :=
  interp.filters.getD (roundEven (mu * NSTEPS)).toNat (GrFir.setTaps [])

variable {interp : GriMmseFirInterpolator} {mu : ℚ}

theorem roundEven_place (low : 0 ≤ mu) (high : mu ≤ 1) :
    0 ≤ roundEven (mu * NSTEPS) ∧ roundEven (mu * NSTEPS) ≤ (NSTEPS : Int) := by
  obtain ⟨above, below⟩ := abs_le.mp (roundEven_near (mu * NSTEPS))
  have steps : ((NSTEPS : ℕ) : ℚ) = 128 := rfl
  rw [steps] at above below ⊢
  change 0 ≤ roundEven (mu * 128) ∧ roundEven (mu * 128) ≤ 128
  constructor
  · have least : (-1 : ℚ) < roundEven (mu * 128) := by linarith
    have whole : (-1 : Int) < roundEven (mu * 128) := by exact_mod_cast least
    omega
  · have most : (roundEven (mu * 128) : ℚ) < 129 := by linarith
    have whole : roundEven (mu * 128) < 129 := by exact_mod_cast most
    omega

theorem getElem?_nearest (interp : GriMmseFirInterpolator) (low : 0 ≤ mu) (high : mu ≤ 1) :
    interp.filters[(roundEven (mu * NSTEPS)).toNat]? = some (interp.nearest mu) ∧
      (interp.nearest mu).ntaps = NTAPS := by
  have place := (roundEven_place low high).2
  have inside : (roundEven (mu * NSTEPS)).toNat < interp.filters.length := by
    have count := interp.count
    omega
  have found : interp.nearest mu = interp.filters.get ⟨_, inside⟩ := List.getD_eq_getElem _ _ inside
  rw [found]
  exact ⟨List.getElem?_eq_getElem inside, interp.taps _ (List.get_mem _ _)⟩

theorem interpolate_ok (N_UNROLL : ℕ) {input : List ℚ} {ii : Int} (low : 0 ≤ mu) (high : mu ≤ 1)
    (from_start : 0 ≤ ii) (room : ii + NTAPS ≤ input.length) :
    interp.interpolate N_UNROLL input ii mu =
      .ok ((interp.nearest mu).filter N_UNROLL (offset (input.getD · 0) ii.toNat)) := by
  obtain ⟨found, taps⟩ := getElem?_nearest interp low high
  obtain ⟨least, most⟩ := roundEven_place low high
  have fits : asInt (roundEven (mu * NSTEPS)) = .ok (roundEven (mu * NSTEPS)) :=
    if_pos ⟨by omega, most.trans (by decide)⟩
  rw [interpolate, fits, ok_bind, if_neg (not_not.mpr least), if_neg (not_not.mpr most), found]
  exact if_pos ⟨from_start, taps ▸ room⟩

end GriMmseFirInterpolator

/-- `gr_fractional_interpolator_ff` (`gr_fractional_interpolator_ff.h:40-65`). -/
structure GrFractionalInterpolatorFf where
  d_mu : ℚ
  d_mu_inc : ℚ
  d_interp : GriMmseFirInterpolator

/-- The variables of `general_work`. `uses` records the item and the phase of each
    interpolation. -/
structure FractionalLoop where
  ii : Int
  d_mu : ℚ
  out : List ℚ
  uses : List (Int × ℚ)

/-- What a call of `general_work` does. -/
structure FractionalWork where
  out : List ℚ
  uses : List (Int × ℚ)
  consumed : Int
  returned : ℕ
  block : GrFractionalInterpolatorFf

/-- What a call of `general_work` is given. -/
structure FractionalCall where
  ninput_items : ℕ
  noutput_items : ℕ

/-- A block with what it consumed and produced of a stream. -/
structure FractionalSession where
  block : GrFractionalInterpolatorFf
  consumed : ℕ
  out : List ℚ

namespace GrFractionalInterpolatorFf

/-- The constructor (`gr_fractional_interpolator_ff.cc:38-50`). -/
def make (phase_shift interp_ratio : ℚ) (interp : GriMmseFirInterpolator) :
    Except FilterException GrFractionalInterpolatorFf :=
  if interp_ratio ≤ 0 then .error (.outOfRange "interpolation ratio must be > 0")
  else if phase_shift < 0 ∨ 1 < phase_shift then
    .error (.outOfRange "phase shift ratio must be > 0 and < 1")
  else .ok ⟨phase_shift, interp_ratio, interp⟩

/-- `forecast` (`gr_fractional_interpolator_ff.cc:57-65`). -/
def forecast (block : GrFractionalInterpolatorFf) (noutput_items : ℕ) : Except CppException Int :=
  asInt ⌈noutput_items * block.d_mu_inc + block.d_interp.ntaps⌉

/-- A round of the loop (`gr_fractional_interpolator_ff.cc:81-87`). -/
def produce (block : GrFractionalInterpolatorFf) (N_UNROLL : ℕ) (input : List ℚ)
    (s : FractionalLoop) : Except CppException FractionalLoop := do
  let o ← block.d_interp.interpolate N_UNROLL input s.ii s.d_mu
  let f := ⌊s.d_mu + block.d_mu_inc⌋
  let incr ← asInt f
  let ii ← asInt (s.ii + incr)
  return {
    ii
    d_mu := s.d_mu + block.d_mu_inc - f
    out := s.out ++ [o]
    uses := s.uses ++ [(s.ii, s.d_mu)] }

/-- `general_work` (`gr_fractional_interpolator_ff.cc:67-93`). -/
def generalWork (block : GrFractionalInterpolatorFf) (N_UNROLL : ℕ) (input : List ℚ)
    (noutput_items : ℕ) : Except CppException FractionalWork := do
  let s ← (List.range noutput_items).foldlM (fun s _ => block.produce N_UNROLL input s)
    ⟨0, block.d_mu, [], []⟩
  return ⟨s.out, s.uses, s.ii, noutput_items, { block with d_mu := s.d_mu }⟩

/-- A call sees the stream from the first item that is not consumed. -/
def work (N_UNROLL : ℕ) (x : ℕ → ℚ) (s : FractionalSession) (call : FractionalCall) :
    Except CppException FractionalWork :=
  s.block.generalWork N_UNROLL ((List.range call.ninput_items).map fun k => x (s.consumed + k))
    call.noutput_items

def serve (N_UNROLL : ℕ) (x : ℕ → ℚ) (s : FractionalSession) (call : FractionalCall) :
    Option FractionalSession :=
  (work N_UNROLL x s call).toOption.map fun done =>
    ⟨done.block, s.consumed + done.consumed.toNat, s.out ++ done.out⟩

/-! ## Where the outputs come from -/

/-- The item of output `k`, when the phase of the first one is `mu`. -/
def index (mu inc : ℚ) : ℕ → Int
  | 0 => 0
  | k + 1 => ⌊mu + ((k + 1 : ℕ) : ℚ) * inc⌋

/-- The phase of output `k`. -/
def phase (mu inc : ℚ) : ℕ → ℚ
  | 0 => mu
  | k + 1 => Int.fract (mu + ((k + 1 : ℕ) : ℚ) * inc)

variable {mu inc : ℚ}

theorem index_add_phase (mu inc : ℚ) (k : ℕ) : index mu inc k + phase mu inc k = mu + k * inc := by
  cases k with
  | zero => simp [index, phase]
  | succ k => exact Int.floor_add_fract _

theorem index_add (mu inc : ℚ) (a b : ℕ) :
    index mu inc (a + b) = index mu inc a + index (phase mu inc a) inc b := by
  cases b with
  | zero => exact (Int.add_zero _).symm
  | succ b =>
    have sum : mu + ((a + b + 1 : ℕ) : ℚ) * inc =
        phase mu inc a + ((b + 1 : ℕ) : ℚ) * inc + (index mu inc a : ℚ) := by
      have := index_add_phase mu inc a
      push_cast
      linarith
    rw [← Nat.add_assoc, index, index, sum, Int.floor_add_intCast, Int.add_comm]

theorem phase_add (mu inc : ℚ) (a b : ℕ) :
    phase mu inc (a + b) = phase (phase mu inc a) inc b := by
  have whole := index_add_phase mu inc (a + b)
  have first := index_add_phase mu inc a
  have second := index_add_phase (phase mu inc a) inc b
  rw [index_add] at whole
  push_cast at whole
  linarith

theorem phase_mem (inc : ℚ) (low : 0 ≤ mu) (high : mu ≤ 1) (k : ℕ) :
    0 ≤ phase mu inc k ∧ phase mu inc k ≤ 1 := by
  cases k with
  | zero => exact ⟨low, high⟩
  | succ k => exact ⟨Int.fract_nonneg _, (Int.fract_lt_one _).le⟩

theorem index_nonneg (low : 0 ≤ mu) (positive : 0 < inc) (k : ℕ) : 0 ≤ index mu inc k := by
  cases k with
  | zero => exact Int.le_refl 0
  | succ k => exact Int.floor_nonneg.mpr (by positivity)

theorem index_le (inc : ℚ) (high : mu ≤ 1) (k : ℕ) :
    index mu inc k ≤ ⌈(k : ℚ) * inc⌉ + 1 := by
  cases k with
  | zero => simp [index]
  | succ k =>
    refine Int.floor_le_iff.mpr ?_
    have := Int.le_ceil (((k + 1 : ℕ) : ℚ) * inc)
    push_cast at this ⊢
    linarith

variable {k n : ℕ} {phase_shift interp_ratio : ℚ}

theorem index_le_ceil (high : mu ≤ 1) (positive : 0 < inc) (less : k < n) :
    index mu inc k ≤ ⌈(n : ℚ) * inc⌉ := by
  cases k with
  | zero => exact Int.ceil_nonneg (by positivity)
  | succ k =>
    -- the whole part of what the outputs before the last one add is below that of all
    have below : ((k + 1 : ℕ) : ℚ) * inc < (n : ℚ) * inc :=
      mul_lt_mul_of_pos_right (by exact_mod_cast less) positive
    have floor : ⌊((k + 1 : ℕ) : ℚ) * inc⌋ < ⌈(n : ℚ) * inc⌉ :=
      Int.lt_ceil.mpr ((Int.floor_le _).trans_lt below)
    calc index mu inc (k + 1) ≤ ⌊((k + 1 : ℕ) : ℚ) * inc + 1⌋ :=
          Int.floor_le_floor (by linarith)
      _ = ⌊((k + 1 : ℕ) : ℚ) * inc⌋ + 1 := Int.floor_add_one _
      _ ≤ ⌈(n : ℚ) * inc⌉ := floor

/-! ## A call -/

/-- Output `k` of a block that was just made. -/
def output (made : GrFractionalInterpolatorFf) (N_UNROLL : ℕ) (x : ℕ → ℚ) (k : ℕ) : ℚ :=
  (made.d_interp.nearest (phase made.d_mu made.d_mu_inc k)).filter N_UNROLL
    (offset x (index made.d_mu made.d_mu_inc k).toNat)

/-- What the block relies on. -/
structure Ready (block : GrFractionalInterpolatorFf) : Prop where
  low : 0 ≤ block.d_mu
  high : block.d_mu ≤ 1
  positive : 0 < block.d_mu_inc

/-- A call is given the items that `forecast` demands. -/
def Demanded (s : FractionalSession) (call : FractionalCall) : Prop :=
  ∃ required, s.block.forecast call.noutput_items = .ok required ∧ required ≤ call.ninput_items

/-- A call keeps to what it is given. -/
structure Sound (call : FractionalCall) (done : FractionalWork) : Prop where
  reads : ∀ use ∈ done.uses,
    0 ≤ use.1 ∧ use.1 + GriMmseFirInterpolator.NTAPS ≤ call.ninput_items
  phases : ∀ use ∈ done.uses, 0 ≤ use.2 ∧ use.2 ≤ 1
  consumed : 0 ≤ done.consumed ∧ done.consumed ≤ call.ninput_items
  written : done.returned = call.noutput_items ∧ done.out.length = call.noutput_items ∧
    done.uses.length = call.noutput_items

/-- The variables of a call after `k` outputs. -/
def loopAt (block : GrFractionalInterpolatorFf) (N_UNROLL : ℕ) (input : ℕ → ℚ) (k : ℕ) :
    FractionalLoop where
  ii := index block.d_mu block.d_mu_inc k
  d_mu := phase block.d_mu block.d_mu_inc k
  out := (List.range k).map (block.output N_UNROLL input)
  uses := (List.range k).map fun i =>
    (index block.d_mu block.d_mu_inc i, phase block.d_mu block.d_mu_inc i)

variable {block : GrFractionalInterpolatorFf} {N_UNROLL : ℕ} {x : ℕ → ℚ}

theorem forecast_ok {required : Int} (demanded : block.forecast n = .ok required) :
    ⌈(n : ℚ) * block.d_mu_inc⌉ + 8 ≤ required ∧ required ≤ 2147483647 := by
  obtain ⟨rfl, -, fits⟩ := asInt_ok demanded
  have taps : ((block.d_interp.ntaps : ℕ) : ℚ) = ((8 : Int) : ℚ) := rfl
  rw [taps, Int.ceil_add_intCast] at fits ⊢
  exact ⟨le_rfl, fits⟩

theorem step_fits (ready : block.Ready) (less : k < n)
    (fits : ⌈(n : ℚ) * block.d_mu_inc⌉ + 8 ≤ 2147483647) :
    asInt ⌊phase block.d_mu block.d_mu_inc k + block.d_mu_inc⌋ =
        .ok ⌊phase block.d_mu block.d_mu_inc k + block.d_mu_inc⌋ ∧
      asInt (index block.d_mu block.d_mu_inc k +
        ⌊phase block.d_mu block.d_mu_inc k + block.d_mu_inc⌋) =
          .ok (index block.d_mu block.d_mu_inc (k + 1)) := by
  have step : index block.d_mu block.d_mu_inc (k + 1) = index block.d_mu block.d_mu_inc k +
      ⌊phase block.d_mu block.d_mu_inc k + block.d_mu_inc⌋ := by
    rw [index_add]
    simp [index]
  have start := index_nonneg ready.low ready.positive k
  have forward : 0 ≤ ⌊phase block.d_mu block.d_mu_inc k + block.d_mu_inc⌋ :=
    Int.floor_nonneg.mpr (add_nonneg (phase_mem block.d_mu_inc ready.low ready.high k).1
      ready.positive.le)
  have most := index_le block.d_mu_inc ready.high (k + 1)
  have rounds : ⌈((k + 1 : ℕ) : ℚ) * block.d_mu_inc⌉ ≤ ⌈(n : ℚ) * block.d_mu_inc⌉ :=
    Int.ceil_le_ceil (mul_le_mul_of_nonneg_right (by exact_mod_cast less) ready.positive.le)
  rw [← step]
  exact ⟨if_pos ⟨by omega, by omega⟩, if_pos ⟨by omega, by omega⟩⟩

theorem produce_loopAt (ready : block.Ready) (N_UNROLL : ℕ) (input : ℕ → ℚ) {given : ℕ}
    (less : k < n) (room : ⌈(n : ℚ) * block.d_mu_inc⌉ + 8 ≤ given)
    (fits : ⌈(n : ℚ) * block.d_mu_inc⌉ + 8 ≤ 2147483647) :
    block.produce N_UNROLL ((List.range given).map input) (block.loopAt N_UNROLL input k) =
      .ok (block.loopAt N_UNROLL input (k + 1)) := by
  have start := index_nonneg ready.low ready.positive k
  have inside := index_le_ceil ready.high ready.positive less
  obtain ⟨low, high⟩ := phase_mem block.d_mu_inc ready.low ready.high k
  obtain ⟨whole, moved⟩ := step_fits ready less fits
  have taps := (GriMmseFirInterpolator.getElem?_nearest block.d_interp low high).2
  have within : (index block.d_mu block.d_mu_inc k).toNat +
      (block.d_interp.nearest (phase block.d_mu block.d_mu_inc k)).ntaps ≤ given := by
    rw [taps, GriMmseFirInterpolator.NTAPS]
    omega
  have window := PfbArbResampler.filter_window N_UNROLL input 0 within
  simp only [Nat.zero_add] at window
  have interpolated : block.d_interp.interpolate N_UNROLL ((List.range given).map input)
      (index block.d_mu block.d_mu_inc k) (phase block.d_mu block.d_mu_inc k) =
        .ok (block.output N_UNROLL input k) := by
    rw [GriMmseFirInterpolator.interpolate_ok N_UNROLL low high start, window]
    · rfl
    · rw [List.length_map, List.length_range, GriMmseFirInterpolator.NTAPS]
      omega
  have next : phase block.d_mu block.d_mu_inc k + block.d_mu_inc -
      ⌊phase block.d_mu block.d_mu_inc k + block.d_mu_inc⌋ =
        phase block.d_mu block.d_mu_inc (k + 1) := by
    rw [phase_add, Int.self_sub_floor]
    simp [phase]
  dsimp only [produce, loopAt]
  rw [interpolated, ok_bind, whole, ok_bind, moved, ok_bind, next, List.range_succ, List.map_append,
    List.map_append]
  rfl

theorem loop_eq (ready : block.Ready) (N_UNROLL : ℕ) (input : ℕ → ℚ) (given : ℕ)
    (room : ⌈(n : ℚ) * block.d_mu_inc⌉ + 8 ≤ given)
    (fits : ⌈(n : ℚ) * block.d_mu_inc⌉ + 8 ≤ 2147483647) (within : k ≤ n) :
    (List.range k).foldlM (fun s _ => block.produce N_UNROLL ((List.range given).map input) s)
      ⟨0, block.d_mu, [], []⟩ = .ok (block.loopAt N_UNROLL input k) := by
  induction k with
  | zero => rfl
  | succ k ih =>
    rw [List.range_succ, foldlM_append_ok]
    exact ⟨_, ih (by omega), foldlM_singleton_ok.mpr
      (produce_loopAt ready N_UNROLL input within room fits)⟩

theorem work_eq (ready : block.Ready) (N_UNROLL : ℕ) (x : ℕ → ℚ) {s : FractionalSession}
    (same : s.block = block) {call : FractionalCall} (demanded : Demanded s call) :
    work N_UNROLL x s call = .ok {
      out := (List.range call.noutput_items).map (block.output N_UNROLL (offset x s.consumed))
      uses := (List.range call.noutput_items).map fun i =>
        (index block.d_mu block.d_mu_inc i, phase block.d_mu block.d_mu_inc i)
      consumed := index block.d_mu block.d_mu_inc call.noutput_items
      returned := call.noutput_items
      block := { block with d_mu := phase block.d_mu block.d_mu_inc call.noutput_items } } := by
  subst same
  obtain ⟨required, forecast, enough⟩ := demanded
  obtain ⟨room, fits⟩ := forecast_ok forecast
  have looped := loop_eq ready N_UNROLL (offset x s.consumed) call.ninput_items
    (room.trans enough) (room.trans fits) (k := call.noutput_items) le_rfl
  exact bind_ok.mpr ⟨_, looped, rfl⟩

theorem work_sound (ready : block.Ready) (N_UNROLL : ℕ) (x : ℕ → ℚ) {s : FractionalSession}
    (same : s.block = block) {call : FractionalCall} (demanded : Demanded s call) :
    ∃ done, work N_UNROLL x s call = .ok done ∧ Sound call done := by
  refine ⟨_, work_eq ready N_UNROLL x same demanded, ?_⟩
  obtain ⟨required, forecast, enough⟩ := demanded
  obtain ⟨room, -⟩ := forecast_ok forecast
  rw [same] at room
  have total := index_le block.d_mu_inc ready.high call.noutput_items
  refine ⟨fun use member => ?_, fun use member => ?_,
    ⟨index_nonneg ready.low ready.positive _, by dsimp only; omega⟩, rfl, by simp, by simp⟩
  · obtain ⟨i, less, rfl⟩ := List.mem_map.mp member
    have last := index_le_ceil ready.high ready.positive (List.mem_range.mp less)
    rw [GriMmseFirInterpolator.NTAPS]
    exact ⟨index_nonneg ready.low ready.positive i, by dsimp only; omega⟩
  · obtain ⟨i, -, rfl⟩ := List.mem_map.mp member
    exact phase_mem _ ready.low ready.high i

/-! ## Runs -/

/-- After so many outputs of the block that was `made`. -/
structure Served (made : GrFractionalInterpolatorFf) (N_UNROLL : ℕ) (x : ℕ → ℚ) (outputs : ℕ)
    (s : FractionalSession) : Prop where
  block : s.block = { made with d_mu := phase made.d_mu made.d_mu_inc outputs }
  consumed : (s.consumed : Int) = index made.d_mu made.d_mu_inc outputs
  out : s.out = (List.range outputs).map (made.output N_UNROLL x)

variable {made : GrFractionalInterpolatorFf} {outputs : ℕ} {s : FractionalSession}

theorem Served.ready (ready : made.Ready) (served : made.Served N_UNROLL x outputs s) :
    s.block.Ready := by
  obtain ⟨low, high⟩ := phase_mem made.d_mu_inc ready.low ready.high outputs
  rw [served.block]
  exact ⟨low, high, ready.positive⟩

theorem Served.output (ready : made.Ready) (served : made.Served N_UNROLL x outputs s) (k : ℕ) :
    s.block.output N_UNROLL (offset x s.consumed) k = made.output N_UNROLL x (outputs + k) := by
  have behind := index_nonneg (served.ready ready).low (served.ready ready).positive k
  have consumed := served.consumed
  have place : s.consumed + (index s.block.d_mu s.block.d_mu_inc k).toNat =
      (index made.d_mu made.d_mu_inc (outputs + k)).toNat := by
    rw [served.block] at behind ⊢
    rw [index_add]
    dsimp only at behind ⊢
    omega
  have stream : offset (offset x s.consumed) (index s.block.d_mu s.block.d_mu_inc k).toNat =
      offset x (index made.d_mu made.d_mu_inc (outputs + k)).toNat := by
    funext t
    rw [offset, offset, offset, ← place, Nat.add_assoc]
  rw [GrFractionalInterpolatorFf.output, GrFractionalInterpolatorFf.output, stream, phase_add,
    served.block]

theorem Served.call (ready : made.Ready) (served : made.Served N_UNROLL x outputs s)
    {call : FractionalCall} (demanded : Demanded s call) :
    ∃ t, serve N_UNROLL x s call = some t ∧
      made.Served N_UNROLL x (outputs + call.noutput_items) t := by
  have ready' := served.ready ready
  have worked := work_eq ready' N_UNROLL x rfl demanded
  have behind := index_nonneg ready'.low ready'.positive call.noutput_items
  have consumed := served.consumed
  refine ⟨_, by rw [serve, worked]; rfl, ?_, ?_, ?_⟩
  · dsimp only
    rw [phase_add, served.block]
  · rw [served.block] at behind
    dsimp only at behind ⊢
    rw [served.block, index_add, Nat.cast_add, Int.toNat_of_nonneg behind, consumed]
  · rw [List.range_add, List.map_append, ← served.out, List.map_map]
    exact congrArg (s.out ++ ·) (List.map_congr_left fun k _ => served.output ready k)

theorem Served.throughout (ready : made.Ready) (served : made.Served N_UNROLL x outputs s)
    {calls : List FractionalCall} (demanded : ∀ call ∈ calls, ∃ required,
      made.forecast call.noutput_items = .ok required ∧ required ≤ call.ninput_items) :
    Throughout Demanded (serve N_UNROLL x) s calls := by
  induction calls generalizing outputs s with
  | nil => trivial
  | cons call calls ih =>
    have now : Demanded s call := by
      rw [Demanded, served.block]
      exact demanded call List.mem_cons_self
    refine ⟨now, fun t stepped => ?_⟩
    obtain ⟨u, stepped', served'⟩ := served.call ready now
    obtain rfl : u = t := Option.some.inj (stepped'.symm.trans stepped)
    exact ih served' fun call' member => demanded call' (List.mem_cons_of_mem call member)

theorem make_ok (low : 0 ≤ phase_shift) (high : phase_shift ≤ 1) (positive : 0 < interp_ratio)
    (interp : GriMmseFirInterpolator) :
    make phase_shift interp_ratio interp = .ok ⟨phase_shift, interp_ratio, interp⟩ := by
  rw [make, if_neg (not_le.mpr positive), if_neg (by simp [low, high])]

theorem ready_make {interp : GriMmseFirInterpolator}
    (constructed : make phase_shift interp_ratio interp = .ok made) : made.Ready := by
  rw [make] at constructed
  split at constructed
  · cases constructed
  · rename_i positive
    split at constructed
    · cases constructed
    · rename_i between
      cases constructed
      exact ⟨not_lt.mp fun low => between (Or.inl low),
        not_lt.mp fun high => between (Or.inr high), not_le.mp positive⟩

theorem served_make (made : GrFractionalInterpolatorFf) (N_UNROLL : ℕ) (x : ℕ → ℚ) :
    made.Served N_UNROLL x 0 ⟨made, 0, []⟩ := ⟨rfl, rfl, rfl⟩

/-- Whatever the calls, as long as each is given what is demanded for it: the outputs are the
    beginning of one sequence, and the next call keeps to what it is given. -/
theorem calls_agree {phase_shift interp_ratio : ℚ} {interp : GriMmseFirInterpolator}
    (constructed : make phase_shift interp_ratio interp = .ok made) (N_UNROLL : ℕ) (x : ℕ → ℚ)
    {calls : List FractionalCall}
    (met : Throughout Demanded (serve N_UNROLL x) ⟨made, 0, []⟩ calls) :
    ∃ s, run (serve N_UNROLL x) ⟨made, 0, []⟩ calls = some s ∧
      s.out = (List.range (calls.map FractionalCall.noutput_items).sum).map
        (made.output N_UNROLL x) ∧
      ∀ call, Demanded s call → ∃ done, work N_UNROLL x s call = .ok done ∧ Sound call done := by
  have ready := ready_make constructed
  obtain ⟨s, ran, served⟩ := run_defined
    (fun calls s => made.Served N_UNROLL x (calls.map FractionalCall.noutput_items).sum s)
    (served_make made N_UNROLL x) (fun _ t call _ served demanded => by
      obtain ⟨u, stepped, served'⟩ := served.call ready demanded
      refine ⟨u, stepped, ?_⟩
      rwa [List.map_append, List.sum_append, List.map_singleton, List.sum_singleton]) met
  exact ⟨s, ran, served.out, fun call demanded =>
    work_sound (served.ready ready) N_UNROLL x rfl demanded⟩

/-- A phase of one and three halves of an item for each output. The filter is the first one of the
    table for every phase. -/
theorem calls_agree_two : ∃ made s, make 1 (3 / 2) ⟨List.replicate 129
      (GrFir.setTaps [0, 0, 0, 0, 1, 0, 0, 0]), List.length_replicate, fun _ member =>
        List.eq_of_mem_replicate member ▸ rfl⟩ = .ok made ∧
    Throughout Demanded (serve 4 fun k => (k : ℚ)) ⟨made, 0, []⟩ [⟨11, 2⟩, ⟨20, 3⟩] ∧
    run (serve 4 fun k => (k : ℚ)) ⟨made, 0, []⟩ [⟨11, 2⟩, ⟨20, 3⟩] = some s ∧
    s.out = (List.range 5).map (made.output 4 fun k => (k : ℚ)) ∧
    ∀ call, Demanded s call → ∃ done, work 4 (fun k => (k : ℚ)) s call = .ok done ∧
      Sound call done := by
  have constructed := make_ok (zero_le_one (α := ℚ)) le_rfl (by norm_num : (0 : ℚ) < 3 / 2)
    ⟨List.replicate 129 (GrFir.setTaps [0, 0, 0, 0, 1, 0, 0, 0]), List.length_replicate,
      fun _ member => List.eq_of_mem_replicate member ▸ rfl⟩
  have two : ⌈((2 : ℕ) : ℚ) * (3 / 2) + ((8 : ℕ) : ℚ)⌉ = 11 := by norm_num
  have three : ⌈((3 : ℕ) : ℚ) * (3 / 2) + ((8 : ℕ) : ℚ)⌉ = 13 := by
    norm_num [Int.ceil_eq_iff]
  have met : Throughout Demanded (serve 4 fun k => (k : ℚ)) ⟨_, 0, []⟩ [⟨11, 2⟩, ⟨20, 3⟩] :=
    (served_make _ 4 fun k => (k : ℚ)).throughout (ready_make constructed)
      (List.forall_mem_cons.mpr ⟨⟨11, congrArg asInt two, by decide⟩,
        List.forall_mem_singleton.mpr ⟨13, congrArg asInt three, by decide⟩⟩)
  obtain ⟨s, ran, out, sound⟩ := calls_agree constructed 4 (fun k => (k : ℚ)) met
  exact ⟨_, s, constructed, met, ran, out, sound⟩

end GrFractionalInterpolatorFf

end GnuRadio
