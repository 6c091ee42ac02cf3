import GnuRadio.Filter.FirWithBuffer
import GnuRadio.Misc.DoubledHistory

/-!
# IIR filters

A `gri_iir` is in direct form I. It keeps its last inputs and its last outputs, each list twice and
with the newest value first, so that the loops over the taps need not wrap around.
-/

namespace GnuRadio

open GriFirFilterWithBuffer (load store)

/-! ## What the code uses of its integers -/

/-- `latest + i` for an `int` and an `unsigned`. -/
def unsignedSum (latest : Int) (i : ℕ) : ℕ := ((latest + i) % 4294967296).toNat

/-- An `int` that is used as an index. -/
def asIndex (latest : Int) : ℕ := (latest % 18446744073709551616).toNat

/-- `latest += n` for an `int` and an `unsigned`. -/
def addUnsigned (latest : Int) (n : ℕ) : Int := (latest + n).bmod 4294967296

theorem unsignedSum_natCast {latest i : ℕ} (fits : latest + i < 4294967296) :
    unsignedSum latest i = latest + i := by
  unfold unsignedSum
  omega

theorem asIndex_natCast {latest : ℕ} (fits : latest < 4294967296) : asIndex latest = latest := by
  unfold asIndex
  omega

theorem addUnsigned_neg_one {n : ℕ} (some : 0 < n) (fits : n < 2147483648) :
    addUnsigned (-1) n = ((n - 1 : ℕ) : Int) := by
  rw [addUnsigned, Int.bmod_eq_of_le (by omega) (by omega)]
  omega

/-- `gri_iir` (`gri_iir.h:32-119`). -/
structure GriIir (R : Type) where
  d_fftaps : List R
  d_fbtaps : List R
  d_latest_n : Int
  d_latest_m : Int
  d_prev_output : List R
  d_prev_input : List R
  deriving DecidableEq, Repr

/-- A call, with the array of a `filter_n`. -/
inductive IirCall (R : Type) where
  | filter (input : R)
  | filterN (input : List R)
  deriving DecidableEq, Repr

def IirCall.inputs {R : Type} : IirCall R → List R
  | .filter input => [input]
  | .filterN input => input

namespace GriIir

variable {R : Type} [Semiring R]

/-- The default constructor (`gri_iir.h:64`). -/
def empty : GriIir R := ⟨[], [], 0, 0, [], []⟩

/-- `ntaps_ff` (`gri_iir.h:83`). -/
def ntapsFf (iir : GriIir R) : ℕ := iir.d_fftaps.length

/-- `ntaps_fb` (`gri_iir.h:84`). -/
def ntapsFb (iir : GriIir R) : ℕ := iir.d_fbtaps.length

/-- `std::vector::resize`. -/
def resize (v : List R) (size : ℕ) : List R := v.take size ++ List.replicate (size - v.length) 0

/-- The loops that clear a history (`gri_iir.h:104-109`). -/
def clear (v : List R) (size : ℕ) : Except CppException (List R) :=
  (List.range size).foldlM (fun v i => store v i 0) v

/-- `set_taps` (`gri_iir.h:89-110`). -/
def setTaps (iir : GriIir R) (fftaps fbtaps : List R) : Except CppException (GriIir R) := do
  let n ← asInt fftaps.length
  let m ← asInt fbtaps.length
  let inputs ← asInt (2 * n)
  let outputs ← asInt (2 * m)
  let prevInput ← clear (resize iir.d_prev_input inputs.toNat) inputs.toNat
  let prevOutput ← clear (resize iir.d_prev_output outputs.toNat) outputs.toNat
  return {
    d_fftaps := fftaps
    d_fbtaps := fbtaps
    d_latest_n := 0
    d_latest_m := 0
    d_prev_output := prevOutput
    d_prev_input := prevInput }

/-- A loop over the taps behind the first one (`gri_iir.h:141-144`). -/
def accumulate (taps prev : List R) (latest : Int) (acc : R) : Except CppException R :=
  (List.range' 1 (taps.length - 1)).foldlM (fun acc i => do
    let tap ← load taps i
    let item ← load prev (unsignedSum latest i)
    return acc + tap * item) acc

/-- A value is stored twice (`gri_iir.h:146-150`). -/
def storeTwice (prev : List R) (latest : Int) (n : ℕ) (value : R) :
    Except CppException (List R) := do
  let prev ← store prev (asIndex latest) value
  store prev (unsignedSum latest n) value

/-- The next place (`gri_iir.h:152-157`). -/
def stepBack (latest : Int) (n : ℕ) : Int :=
  let latest := latest - 1
  if latest < 0 then addUnsigned latest n else latest

/-- `filter` (`gri_iir.h:125-162`). -/
def filter (iir : GriIir R) (input : R) : Except CppException (R × GriIir R) := do
  let n := iir.ntapsFf
  let m := iir.ntapsFb
  if n = 0 then return (0, iir)
  else
    let tap ← load iir.d_fftaps 0
    let acc ← accumulate iir.d_fftaps iir.d_prev_input iir.d_latest_n (tap * input)
    let acc ← accumulate iir.d_fbtaps iir.d_prev_output iir.d_latest_m acc
    let prevOutput ← storeTwice iir.d_prev_output iir.d_latest_m m acc
    let prevInput ← storeTwice iir.d_prev_input iir.d_latest_n n input
    return (acc, { iir with
      d_latest_n := stepBack iir.d_latest_n n
      d_latest_m := stepBack iir.d_latest_m m
      d_prev_output := prevOutput
      d_prev_input := prevInput })

/-- `filter_n` (`gri_iir.h:165-173`): `n` is a `long` and `i` an `int`. -/
def filterN (iir : GriIir R) (input : List R) : Except CppException (List R × GriIir R) :=
  (List.range input.length).foldlM (fun (output, iir) i => do
    let item ← load input i
    let (acc, iir) ← iir.filter item
    let _ ← asInt (i + 1)
    return (output ++ [acc], iir)) ([], iir)

/-- One call of the filter. -/
def call (iir : GriIir R) : IirCall R → Except CppException (List R × GriIir R)
  | .filter input => do
      let (acc, iir) ← iir.filter input
      return ([acc], iir)
  | .filterN input => iir.filterN input

def calls (iir : GriIir R) (calls : List (IirCall R)) :
    Except CppException (List R × GriIir R) :=
  calls.foldlM (fun (outputs, iir) c => do
    let (more, iir) ← iir.call c
    return (outputs ++ more, iir)) ([], iir)

/-! ## The difference equation -/

/-- Item `k` of a signal that is zero before it begins. -/
def signal (xs : List R) (k : ℤ) : R := if k < 0 then 0 else xs.getD k.toNat 0

/-- `y[n] = ∑ b_k x[n - k] + ∑ a_k y[n - k]`, where the second sum leaves out `k = 0`. -/
structure DifferenceEquation (fftaps fbtaps xs ys : List R) : Prop where
  length : ys.length = xs.length
  holds : ∀ k < xs.length, signal ys k =
    ∑ i ∈ Finset.range fftaps.length, fftaps.getD i 0 * signal xs (k - i) +
      ∑ i ∈ Finset.Ico 1 fbtaps.length, fbtaps.getD i 0 * signal ys (k - i)

theorem DifferenceEquation.initial (fftaps fbtaps : List R) :
    DifferenceEquation fftaps fbtaps [] [] :=
  ⟨rfl, fun k below => absurd below (Nat.not_lt_zero k)⟩

theorem signal_append_of_lt (xs : List R) (x : R) {k : ℤ} (before : k < xs.length) :
    signal (xs ++ [x]) k = signal xs k := by
  unfold signal
  split
  · rfl
  · rw [List.getD_append _ _ _ _ (by omega)]

theorem signal_append_last (xs : List R) (x : R) : signal (xs ++ [x]) xs.length = x := by
  rw [signal, if_neg (by omega), Int.toNat_natCast, List.getD_append_right _ _ _ _ le_rfl,
    Nat.sub_self]
  rfl

theorem signal_behind (xs : List R) (i : ℕ) :
    signal xs ((xs.length : ℤ) - (i + 1 : ℕ)) = xs.reverse.getD i 0 := by
  unfold signal
  by_cases inside : i < xs.length
  · have place : ((xs.length : ℤ) - (i + 1 : ℕ)).toNat = xs.length - 1 - i := by omega
    rw [if_neg (by omega), place]
    simp [List.getD_eq_getElem?_getD, List.getElem?_reverse inside]
  · rw [if_pos (by omega), List.getD_eq_default _ _ (by rw [List.length_reverse]; omega)]

/-- What `filter` computes for one more input. -/
def nextOutput (fftaps fbtaps xs ys : List R) (x : R) : R :=
  fftaps.getD 0 0 * x +
    ∑ i ∈ Finset.Ico 1 fftaps.length, fftaps.getD i 0 * xs.reverse.getD (i - 1) 0 +
    ∑ i ∈ Finset.Ico 1 fbtaps.length, fbtaps.getD i 0 * ys.reverse.getD (i - 1) 0

variable {fftaps fbtaps xs ys : List R}

theorem sum_behind (taps xs : List R) (x : R) :
    ∑ i ∈ Finset.Ico 1 taps.length, taps.getD i 0 * xs.reverse.getD (i - 1) 0 =
      ∑ i ∈ Finset.Ico 1 taps.length, taps.getD i 0 * signal (xs ++ [x]) (xs.length - i) := by
  refine Finset.sum_congr rfl fun i member => ?_
  obtain ⟨first, -⟩ := Finset.mem_Ico.mp member
  obtain ⟨j, rfl⟩ := Nat.exists_eq_add_of_le' first
  rw [signal_append_of_lt xs x (by omega), signal_behind, Nat.add_sub_cancel]

theorem DifferenceEquation.next (equation : DifferenceEquation fftaps fbtaps xs ys)
    (some : fftaps ≠ []) (x : R) : DifferenceEquation fftaps fbtaps (xs ++ [x])
      (ys ++ [nextOutput fftaps fbtaps xs ys x]) := by
  have length := equation.length
  refine ⟨by simp [length], fun k inside => ?_⟩
  rw [List.length_append, List.length_singleton] at inside
  rcases Nat.lt_succ_iff_lt_or_eq.mp inside with earlier | rfl
  · have inputs : ∀ i ∈ Finset.range fftaps.length, fftaps.getD i 0 * signal (xs ++ [x]) (k - i) =
        fftaps.getD i 0 * signal xs (k - i) := fun i _ => by
      rw [signal_append_of_lt xs x (by omega)]
    have outputs : ∀ i ∈ Finset.Ico 1 fbtaps.length,
        fbtaps.getD i 0 * signal (ys ++ [nextOutput fftaps fbtaps xs ys x]) (k - i) =
          fbtaps.getD i 0 * signal ys (k - i) := fun i _ => by
      rw [signal_append_of_lt ys _ (by omega)]
    rw [signal_append_of_lt ys _ (by omega), equation.holds k earlier,
      Finset.sum_congr rfl inputs, Finset.sum_congr rfl outputs]
  · have first : 0 < fftaps.length := List.length_pos_iff.mpr some
    obtain ⟨y, value⟩ : ∃ y, y = nextOutput fftaps fbtaps xs ys x := ⟨_, rfl⟩
    rw [← value, ← length, signal_append_last]
    refine value.trans ?_
    rw [nextOutput, sum_behind fftaps xs x, sum_behind fbtaps ys y, length, Finset.range_eq_Ico,
      Finset.sum_eq_sum_Ico_succ_bot first, Nat.cast_zero, sub_zero, signal_append_last]

/-! ## What a filter keeps -/

variable {v prev past input : List R} {before iir : GriIir R} {latest : ℕ} {r : List R × GriIir R}

omit [Semiring R] in
theorem store_ok {i : ℕ} (inside : i < v.length) (x : R) : store v i x = .ok (v.set i x) :=
  if_pos inside

omit [Semiring R] in
theorem load_ok {i : ℕ} {x : R} (item : v[i]? = some x) : load v i = .ok x := by
  rw [load, item]

theorem length_resize (v : List R) (size : ℕ) : (resize v size).length = size := by
  rw [resize, List.length_append, List.length_take, List.length_replicate]
  omega

theorem clear_ok {size : ℕ} (length : v.length = size) :
    clear v size = .ok (List.replicate size 0) := by
  have cleared : ∀ count ≤ size, (List.range count).foldlM (fun v i => store v i 0) v =
      (.ok (List.replicate count 0 ++ v.drop count) : Except CppException (List R)) := by
    intro count within
    induction count with
    | zero => rfl
    | succ count ih =>
      have inside : count < v.length := by omega
      rw [List.range_succ, List.foldlM_append, ih (by omega), ok_bind, List.foldlM_cons,
        store_ok (by rw [List.length_append, List.length_replicate, List.length_drop]; omega)]
      have written : (List.replicate count (0 : R) ++ v.drop count).set count 0 =
          List.replicate (count + 1) 0 ++ v.drop (count + 1) := by
        rw [List.set_append_right _ _ (List.length_replicate).le, List.length_replicate,
          Nat.sub_self, List.drop_eq_getElem_cons inside, List.set_cons_zero,
          List.replicate_succ', List.append_assoc, List.singleton_append]
      exact congrArg Except.ok written
  rw [clear, cleared size le_rfl, List.drop_eq_nil_of_le length.le, List.append_nil]

/-- After the inputs `xs` and the outputs `ys`. -/
structure Keeps (fftaps fbtaps xs ys : List R) (iir : GriIir R) : Prop where
  fftaps_eq : iir.d_fftaps = fftaps
  fbtaps_eq : iir.d_fbtaps = fbtaps
  fits : 2 * fftaps.length ≤ intMax ∧ 2 * fbtaps.length ≤ intMax
  inputs : ∃ latest : ℕ, iir.d_latest_n = latest ∧
    DoubledHistory fftaps.length iir.d_prev_input latest xs.reverse
  outputs : ∃ latest : ℕ, iir.d_latest_m = latest ∧
    DoubledHistory fbtaps.length iir.d_prev_output latest ys.reverse

theorem setTaps_eq (accepted : before.setTaps fftaps fbtaps = .ok iir) :
    (2 * fftaps.length ≤ intMax ∧ 2 * fbtaps.length ≤ intMax) ∧
      iir = ⟨fftaps, fbtaps, 0, 0, List.replicate (2 * fbtaps.length) 0,
        List.replicate (2 * fftaps.length) 0⟩ := by
  obtain ⟨n, size_n, accepted⟩ := bind_ok.mp accepted
  obtain ⟨m, size_m, accepted⟩ := bind_ok.mp accepted
  obtain ⟨inputs, size_inputs, accepted⟩ := bind_ok.mp accepted
  obtain ⟨outputs, size_outputs, accepted⟩ := bind_ok.mp accepted
  obtain ⟨rfl, -⟩ := asInt_ok size_n
  obtain ⟨rfl, -⟩ := asInt_ok size_m
  obtain ⟨rfl, -, top_inputs⟩ := asInt_ok size_inputs
  obtain ⟨rfl, -, top_outputs⟩ := asInt_ok size_outputs
  have places_inputs : (2 * (fftaps.length : ℤ)).toNat = 2 * fftaps.length := by omega
  have places_outputs : (2 * (fbtaps.length : ℤ)).toNat = 2 * fbtaps.length := by omega
  rw [places_inputs, places_outputs, clear_ok (length_resize _ _), ok_bind,
    clear_ok (length_resize _ _), ok_bind] at accepted
  unfold intMax
  exact ⟨⟨by omega, by omega⟩, (pure_ok.mp accepted).symm⟩

theorem keeps_setTaps (accepted : before.setTaps fftaps fbtaps = .ok iir) (forward : fftaps ≠ [])
    (feedback : fbtaps ≠ []) : Keeps fftaps fbtaps [] [] iir := by
  obtain ⟨fits, rfl⟩ := setTaps_eq accepted
  exact ⟨rfl, rfl, fits, ⟨0, rfl, .initial (List.length_pos_iff.mpr forward)⟩,
    ⟨0, rfl, .initial (List.length_pos_iff.mpr feedback)⟩⟩

theorem accumulate_ok {taps : List R} (fits : 2 * taps.length ≤ intMax)
    (history : DoubledHistory taps.length prev latest past) (acc : R) :
    accumulate taps prev latest acc =
      .ok (acc + ∑ i ∈ Finset.Ico 1 taps.length, taps.getD i 0 * past.getD (i - 1) 0) := by
  have inside := history.inside
  unfold intMax at fits
  have sums : ∀ count < taps.length, (List.range' 1 count).foldlM (fun acc i => do
      let tap ← load taps i
      let item ← load prev (unsignedSum latest i)
      return acc + tap * item) acc = (.ok (acc +
        ∑ i ∈ Finset.Ico 1 (count + 1), taps.getD i 0 * past.getD (i - 1) 0) :
          Except CppException R) := by
    intro count within
    induction count with
    | zero => simp [pure, Except.pure]
    | succ count ih =>
      have tap : load taps (1 + 1 * count) = .ok (taps.getD (count + 1) 0) := by
        refine load_ok ?_
        rw [Nat.one_mul, Nat.add_comm, List.getD_eq_getElem _ _ within,
          List.getElem?_eq_getElem within]
      have item : load prev (unsignedSum latest (1 + 1 * count : ℕ)) = .ok (past.getD count 0) := by
        rw [unsignedSum_natCast (by omega)]
        refine load_ok ((congrArg (prev[·]?) ?_).trans (history.recent count (by omega)))
        omega
      rw [List.range'_concat, List.foldlM_append, ih (by omega), ok_bind, List.foldlM_cons, tap,
        ok_bind, item, ok_bind, Finset.sum_Ico_succ_top (b := count + 1) (by omega), ← add_assoc]
      rfl
  rw [accumulate, sums (taps.length - 1) (by omega), Nat.sub_add_cancel (by omega)]

theorem storeTwice_ok {n : ℕ} (fits : 2 * n ≤ intMax) (history : DoubledHistory n prev latest past)
    (x : R) : storeTwice prev latest n x = .ok (writeTwice n prev latest x) := by
  have inside := history.inside
  have length := history.length
  unfold intMax at fits
  rw [storeTwice, asIndex_natCast (by omega), unsignedSum_natCast (by omega),
    store_ok (by omega), ok_bind, store_ok (by rw [List.length_set]; omega), writeTwice]

theorem stepBack_natCast {n : ℕ} (fits : 2 * n ≤ intMax) (inside : latest < n) :
    stepBack latest n = previousPlace n latest := by
  unfold intMax at fits
  unfold stepBack previousPlace
  by_cases wraps : latest = 0
  · rw [if_pos wraps, wraps, if_pos (by omega), ← addUnsigned_neg_one (by omega) (by omega)]
    rfl
  · rw [if_neg wraps, if_neg (by omega)]
    omega

theorem Keeps.filter (keeps : Keeps fftaps fbtaps xs ys iir) (some : fftaps ≠ []) (x : R) : ∃ iir',
      iir.filter x = .ok (nextOutput fftaps fbtaps xs ys x, iir') ∧
        Keeps fftaps fbtaps (xs ++ [x]) (ys ++ [nextOutput fftaps fbtaps xs ys x]) iir' := by
  obtain ⟨rfl, rfl, fits, ⟨latest_n, place_n, inputs⟩, latest_m, place_m, outputs⟩ := keeps
  have first : 0 < iir.d_fftaps.length := List.length_pos_iff.mpr some
  have tap : load iir.d_fftaps 0 = .ok (iir.d_fftaps.getD 0 0) := by
    refine load_ok ?_
    rw [List.getD_eq_getElem _ _ first, List.getElem?_eq_getElem first]
  refine ⟨{ iir with
    d_latest_n := stepBack iir.d_latest_n iir.d_fftaps.length
    d_latest_m := stepBack iir.d_latest_m iir.d_fbtaps.length
    d_prev_output := writeTwice iir.d_fbtaps.length iir.d_prev_output latest_m
      (nextOutput iir.d_fftaps iir.d_fbtaps xs ys x)
    d_prev_input := writeTwice iir.d_fftaps.length iir.d_prev_input latest_n x }, ?_, ?_⟩
  · rw [GriIir.filter, ntapsFf, ntapsFb, if_neg first.ne', tap, ok_bind, place_n, place_m,
      accumulate_ok fits.1 inputs, ok_bind, accumulate_ok fits.2 outputs, ok_bind,
      storeTwice_ok fits.2 outputs, ok_bind, storeTwice_ok fits.1 inputs, ok_bind]
    rfl
  · refine ⟨rfl, rfl, fits, ⟨previousPlace iir.d_fftaps.length latest_n, ?_, ?_⟩,
      previousPlace iir.d_fbtaps.length latest_m, ?_, ?_⟩
    · exact (congrArg (stepBack · _) place_n).trans (stepBack_natCast fits.1 inputs.inside)
    · rw [List.reverse_append, List.reverse_singleton, List.singleton_append]
      exact inputs.push x
    · exact (congrArg (stepBack · _) place_m).trans (stepBack_natCast fits.2 outputs.inside)
    · rw [List.reverse_append, List.reverse_singleton, List.singleton_append]
      exact outputs.push _

/-! ## Runs -/

def inputs (calls : List (IirCall R)) : List R := calls.flatMap IirCall.inputs

/-- The filter has been given `xs` and has answered with `ys`. -/
structure Meets (fftaps fbtaps xs ys : List R) (iir : GriIir R) : Prop where
  keeps : Keeps fftaps fbtaps xs ys iir
  equation : DifferenceEquation fftaps fbtaps xs ys

theorem Meets.filter (meets : Meets fftaps fbtaps xs ys iir) (some : fftaps ≠ []) (x : R) :
    ∃ y iir', iir.filter x = .ok (y, iir') ∧ Meets fftaps fbtaps (xs ++ [x]) (ys ++ [y]) iir' := by
  obtain ⟨iir', filtered, keeps⟩ := meets.keeps.filter some x
  exact ⟨_, iir', filtered, keeps, meets.equation.next some x⟩

theorem Meets.filterN (meets : Meets fftaps fbtaps xs ys iir) (some : fftaps ≠ [])
    (fits : input.length ≤ intMax) :
    ∃ more iir', iir.filterN input = .ok (more, iir') ∧
      Meets fftaps fbtaps (xs ++ input) (ys ++ more) iir' := by
  have rounds : ∀ count ≤ input.length, ∃ more iir',
      (List.range count).foldlM (fun (output, iir) i => do
        let item ← load input i
        let (acc, iir) ← GriIir.filter iir item
        let _ ← asInt (i + 1)
        return (output ++ [acc], iir)) ([], iir) =
          (.ok (more, iir') : Except CppException (List R × GriIir R)) ∧
        Meets fftaps fbtaps (xs ++ input.take count) (ys ++ more) iir' := by
    intro count within
    induction count with
    | zero => exact ⟨[], iir, rfl, by simpa using meets⟩
    | succ count ih =>
      obtain ⟨more, iir₁, before, meets₁⟩ := ih (by omega)
      obtain ⟨y, iir₂, filtered, meets₂⟩ := meets₁.filter some (input.get ⟨count, within⟩)
      have item : load input count = .ok (input.get ⟨count, within⟩) :=
        load_ok (List.getElem?_eq_getElem within)
      have counted : asInt ((count : ℤ) + 1) = .ok ((count + 1 : ℕ) : ℤ) :=
        asInt_natCast (n := count + 1) (by omega)
      refine ⟨more ++ [y], iir₂, ?_, ?_⟩
      · rw [List.range_succ, foldlM_append_ok]
        refine ⟨_, before, foldlM_singleton_ok.mpr ?_⟩
        dsimp only
        rw [item, ok_bind, filtered, ok_bind, counted]
        rfl
      · rw [List.take_succ_eq_append_getElem within, ← List.append_assoc, ← List.append_assoc]
        exact meets₂
  obtain ⟨more, iir', looped, after⟩ := rounds input.length le_rfl
  rw [List.take_length] at after
  exact ⟨more, iir', looped, after⟩

theorem Meets.call {iir : GriIir R} (meets : Meets fftaps fbtaps xs ys iir) (some : fftaps ≠ [])
    {c : IirCall R} (fits : c.inputs.length ≤ intMax) : ∃ more iir',
      iir.call c = .ok (more, iir') ∧ Meets fftaps fbtaps (xs ++ c.inputs) (ys ++ more) iir' := by
  cases c with
  | filter input =>
    obtain ⟨y, iir', filtered, after⟩ := meets.filter some input
    exact ⟨[y], iir', bind_ok.mpr ⟨_, filtered, rfl⟩, after⟩
  | filterN input => exact meets.filterN some fits

theorem Meets.calls (meets : Meets fftaps fbtaps xs ys iir)
    (some : fftaps ≠ []) {calls : List (IirCall R)} (fits : ∀ c ∈ calls, c.inputs.length ≤ intMax)
    (outputs : List R) : ∃ more iir',
      calls.foldlM (fun (outputs, iir) c => do
        let (more, iir) ← GriIir.call iir c
        return (outputs ++ more, iir)) (outputs, iir) =
          (.ok (outputs ++ more, iir') : Except CppException (List R × GriIir R)) ∧
        Meets fftaps fbtaps (xs ++ inputs calls) (ys ++ more) iir' := by
  induction calls generalizing xs ys iir outputs with
  | nil => exact ⟨[], iir, by simp [pure, Except.pure], by simpa [inputs] using meets⟩
  | cons c calls ih =>
    obtain ⟨more, iir₁, called, meets₁⟩ := meets.call some (fits c List.mem_cons_self)
    obtain ⟨rest, iir₂, looped, meets₂⟩ := ih meets₁
      (fun c' member => fits c' (List.mem_cons_of_mem c member)) (outputs ++ more)
    refine ⟨more ++ rest, iir₂, foldlM_cons_ok.mpr ⟨(outputs ++ more, iir₁), ?_, ?_⟩, ?_⟩
    · exact bind_ok.mpr ⟨_, called, rfl⟩
    · rw [looped, List.append_assoc]
    · rw [inputs, List.flatMap_cons, ← List.append_assoc, ← List.append_assoc]
      exact meets₂

/-! ## What goes wrong -/

theorem filterN_fits (returned : iir.filterN input = .ok r) : input.length ≤ intMax := by
  rcases Nat.eq_zero_or_pos input.length with none | some
  · omega
  · obtain ⟨u, v, round⟩ := foldlM_mem returned
      (List.mem_range.mpr (Nat.sub_lt some Nat.one_pos))
    obtain ⟨item, -, round⟩ := bind_ok.mp round
    obtain ⟨⟨acc, iir'⟩, -, round⟩ := bind_ok.mp round
    obtain ⟨next, counted, -⟩ := bind_ok.mp round
    have top := (asInt_ok counted).2.2
    unfold intMax
    omega

theorem filter_no_feedback (forward : iir.d_fftaps ≠ []) (outputs : iir.d_prev_output = []) (x : R)
    (r : R × GriIir R) : iir.filter x ≠ .ok r := by
  intro returned
  have first : iir.ntapsFf ≠ 0 := (List.length_pos_iff.mpr forward).ne'
  rw [GriIir.filter, if_neg first] at returned
  obtain ⟨tap, -, returned⟩ := bind_ok.mp returned
  obtain ⟨acc₁, -, returned⟩ := bind_ok.mp returned
  obtain ⟨acc₂, -, returned⟩ := bind_ok.mp returned
  obtain ⟨prevOutput, stored, -⟩ := bind_ok.mp returned
  obtain ⟨prev, written, -⟩ := bind_ok.mp stored
  rw [outputs, store, if_neg (List.length_nil.symm ▸ Nat.not_lt_zero _)] at written
  cases written

theorem call_no_feedback (forward : iir.d_fftaps ≠ []) (outputs : iir.d_prev_output = [])
    {c : IirCall R} {more : List R} {iir' : GriIir R} (returned : iir.call c = .ok (more, iir')) :
    c.inputs = [] ∧ iir' = iir := by
  cases c with
  | filter input =>
    obtain ⟨r, filtered, -⟩ := bind_ok.mp returned
    exact absurd filtered (filter_no_feedback forward outputs input r)
  | filterN input =>
    cases input with
    | nil => exact ⟨rfl, (congrArg Prod.snd (Except.ok.inj returned)).symm⟩
    | cons x rest =>
      rw [GriIir.call, GriIir.filterN, List.length_cons, List.range_succ_eq_map] at returned
      obtain ⟨u, round, -⟩ := foldlM_cons_ok.mp returned
      obtain ⟨item, -, round⟩ := bind_ok.mp round
      obtain ⟨r, filtered, -⟩ := bind_ok.mp round
      exact absurd filtered (filter_no_feedback forward outputs item r)

theorem calls_no_feedback (forward : iir.d_fftaps ≠ []) (outputs : iir.d_prev_output = [])
    {calls : List (IirCall R)} (returned : iir.calls calls = .ok r) : inputs calls = [] := by
  refine (foldlM_history (fun done (s : List R × GriIir R) => inputs done = [] ∧ s.2 = iir)
    ⟨rfl, rfl⟩ (fun done u v c _ kept round => ?_) returned).1
  obtain ⟨none, same⟩ := kept
  obtain ⟨⟨more, iir'⟩, called, round⟩ := bind_ok.mp round
  rw [same] at called
  obtain ⟨empty, still⟩ := call_no_feedback forward outputs called
  rw [← pure_ok.mp round]
  exact ⟨by rw [inputs, List.flatMap_append, ← inputs, none]; simpa using empty, still⟩

theorem calls_fit {calls : List (IirCall R)} (returned : iir.calls calls = .ok r) :
    ∀ c ∈ calls, c.inputs.length ≤ intMax := by
  intro c member
  obtain ⟨u, v, round⟩ := foldlM_mem returned member
  obtain ⟨⟨more, iir'⟩, called, -⟩ := bind_ok.mp round
  cases c with
  | filter input => exact (by decide : 1 ≤ intMax)
  | filterN input => exact filterN_fits called

omit [Semiring R] in
theorem inputs_cons (c : IirCall R) (calls : List (IirCall R)) :
    inputs (c :: calls) = c.inputs ++ inputs calls := List.flatMap_cons

theorem calls_none (iir : GriIir R) {calls : List (IirCall R)} (none : inputs calls = []) :
    iir.calls calls = .ok ([], iir) := by
  induction calls with
  | nil => rfl
  | cons c calls ih =>
    rw [inputs_cons, List.append_eq_nil_iff] at none
    cases c with
    | filter input => cases none.1
    | filterN input =>
      have empty : input = [] := none.1
      subst empty
      exact foldlM_cons_ok.mpr ⟨([], iir), rfl, ih none.2⟩

/-- A run returns and its outputs meet the difference equation just when there is a feedback tap and
no array is longer than an `int` counts. -/
theorem difference_iff {before iir : GriIir R} {fftaps fbtaps : List R}
    (accepted : before.setTaps fftaps fbtaps = .ok iir) (some : fftaps ≠ [])
    (calls : List (IirCall R)) :
    (∃ outputs iir', iir.calls calls = .ok (outputs, iir') ∧
      DifferenceEquation fftaps fbtaps (inputs calls) outputs) ↔
      (fbtaps ≠ [] ∨ inputs calls = []) ∧ ∀ c ∈ calls, c.inputs.length ≤ intMax := by
  constructor
  · rintro ⟨outputs, iir', returned, -⟩
    refine ⟨?_, calls_fit returned⟩
    by_cases feedback : fbtaps = []
    · obtain ⟨-, rfl⟩ := setTaps_eq accepted
      subst feedback
      exact Or.inr (calls_no_feedback some rfl returned)
    · exact Or.inl feedback
  · rintro ⟨feedback | none, fits⟩
    · have meets : Meets fftaps fbtaps [] [] iir :=
        ⟨keeps_setTaps accepted some feedback, .initial fftaps fbtaps⟩
      obtain ⟨outputs, iir', returned, after⟩ := meets.calls some fits []
      exact ⟨outputs, iir', returned, after.equation⟩
    · refine ⟨[], iir, calls_none iir none, ?_⟩
      rw [none]
      exact .initial fftaps fbtaps

theorem difference_iff_two : ∃ iir, (empty : GriIir ℤ).setTaps [2, 1] [0, -1, 3] = .ok iir ∧
    [(2 : ℤ), 1] ≠ [] ∧ ((∃ outputs iir', iir.calls [.filter 1, .filterN [2, 3]] =
      .ok (outputs, iir') ∧ DifferenceEquation [2, 1] [0, -1, 3]
        (inputs [.filter 1, .filterN [2, 3]]) outputs) ↔
      ([(0 : ℤ), -1, 3] ≠ [] ∨ inputs [IirCall.filter (1 : ℤ), .filterN [2, 3]] = []) ∧
        ∀ c ∈ [IirCall.filter (1 : ℤ), .filterN [2, 3]], c.inputs.length ≤ intMax) := by
  have accepted : (empty : GriIir ℤ).setTaps [2, 1] [0, -1, 3] =
      .ok ⟨[2, 1], [0, -1, 3], 0, 0, [0, 0, 0, 0, 0, 0], [0, 0, 0, 0]⟩ := by rfl
  exact ⟨_, accepted, by decide, difference_iff accepted (by decide) _⟩

/-- One tap and no feedback: the first output is stored into an empty list. -/
theorem filter_empty_feedback : ∃ iir, (empty : GriIir ℤ).setTaps [1] [] = .ok iir ∧
    iir.calls [.filter 5] = .error .undefinedBehaviour := ⟨_, rfl, rfl⟩

end GriIir

end GnuRadio
