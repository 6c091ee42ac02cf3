import GnuRadio.Filter.Fir
import GnuRadio.Misc.Double
import GnuRadio.Misc.Except
import GnuRadio.Misc.Rotation
import GnuRadio.Runtime.Types
import Mathlib.Algebra.BigOperators.Ring.List
import Mathlib.Data.Int.ModEq

/-!
# The polyphase channelizer

`gr_pfb_channelizer_ccf` deals its taps to one filter for each channel. A commutator goes backward
over the filters; each round of it fills the input of an FFT, whose output is a vector of the block.
Rates are exact rational numbers. The FFT is a function of its input.
-/

namespace GnuRadio

variable {R M : Type} [Semiring R] [AddCommMonoid M] [Module R M]

/-- `gr_pfb_channelizer_ccf` (`gr_pfb_channelizer_ccf.h:139-149`) with the `d_history` of `gr_block`
and the input of `d_fft`. -/
structure PfbChannelizer (R M : Type) where
  d_history : ℕ
  d_updated : Bool
  d_numchans : ℕ
  d_oversample_rate : ℚ
  d_filters : List (GrFir R)
  d_taps_per_filter : ℕ
  inbuf : List M
  d_idxlut : List ℕ
  d_rate_ratio : Int
  d_output_multiple : ℕ

/-- The state of the two loops of a round. `uses` records the filters with the places of their
results. -/
structure PfbTurn (M : Type) where
  i : Int
  j : ℕ
  inbuf : List M
  uses : List (ℕ × ℕ)

/-- The state of the loop over the rounds. -/
structure PfbRounds (M : Type) where
  n : ℕ
  i : Int
  inbuf : List M
  out : List (List M)
  uses : List (List (ℕ × ℕ))

/-- What a call of `general_work` does. -/
structure PfbWork (R M : Type) where
  out : List (List M)
  uses : List (List (ℕ × ℕ))
  i : Int
  consumed : Int
  returned : ℕ
  block : PfbChannelizer R M

namespace PfbChannelizer

/-- `set_taps` (`gr_pfb_channelizer_ccf.cc:104-139`). -/
def setTaps (block : PfbChannelizer R M) (taps : List R) : PfbChannelizer R M :=
  { block with
    d_taps_per_filter := tapsPerFilter taps.length block.d_numchans
    d_filters := (partitionTaps block.d_numchans taps).map GrFir.setTaps
    d_history := tapsPerFilter taps.length block.d_numchans + 1
    d_updated := true }

/-- The last loop of the constructor, which has found a multiple after `numchans` tries. -/
def align (d_rate_ratio : Int) (numchans : ℕ) : ℕ → ℕ → Except CppException ℕ
  | 0, _ => .error .undefinedBehaviour
  | tries + 1, d_output_multiple => do
      let product ← asInt (d_output_multiple * d_rate_ratio)
      if product % numchans ≠ 0 then align d_rate_ratio numchans tries (d_output_multiple + 1)
      else return d_output_multiple

/-- The constructor (`gr_pfb_channelizer_ccf.cc:44-93`). The FFT has a buffer of its own, which
is not cleared. -/
def make (numchans : ℕ) (taps : List R) (oversample_rate : ℚ) (inbuf : List M) :
    Except CppException (PfbChannelizer R M) :=
  if Int.fract (numchans / oversample_rate) ≠ 0 then
    .error (.invalidArgument
      "gr_pfb_channelizer: oversample rate must be N/i for i in [1, N]")
  else do
    let d_rate_ratio ← asInt (roundEven (numchans / oversample_rate))
    let d_output_multiple ← align d_rate_ratio numchans numchans 1
    let block : PfbChannelizer R M := {
      d_history := 1
      d_updated := false
      d_numchans := numchans
      d_oversample_rate := oversample_rate
      d_filters := List.replicate numchans (GrFir.setTaps [])
      d_taps_per_filter := 0
      inbuf := inbuf
      d_idxlut := (List.range numchans).map fun i : ℕ =>
        (numchans - (i + d_rate_ratio) % numchans - 1 : Int).toNat
      d_rate_ratio
      d_output_multiple }
    return block.setTaps taps

/-- A round of the inner loops: filter `i` reads stream `j` from item `n` on. There is no result
when something is not there. -/
def use (block : PfbChannelizer R M) (N_UNROLL : ℕ) (input_items : List (List M)) (n : ℕ)
    (turn : PfbTurn M) : Option (PfbTurn M) := do
  let input ← input_items[turn.j]?
  let slot ← block.d_idxlut[turn.j]?
  let fir ← if 0 ≤ turn.i then block.d_filters[turn.i.toNat]? else none
  if n + fir.ntaps ≤ input.length ∧ slot < turn.inbuf.length then
    some {
      i := turn.i - 1
      j := turn.j + 1
      inbuf := turn.inbuf.set slot (fir.filter N_UNROLL (offset (input.getD · 0) n))
      uses := turn.uses ++ [(turn.i.toNat, slot)] }
  else none

/-- An inner loop, which ends when `i` has come down to `last`. -/
def loop (block : PfbChannelizer R M) (N_UNROLL : ℕ) (input_items : List (List M)) (n : ℕ)
    (last : Int) (turn : PfbTurn M) : Option (PfbTurn M) :=
  (List.range (turn.i - last).toNat).foldlM (fun turn _ => block.use N_UNROLL input_items n turn)
    turn

/-- A round of the commutator (`gr_pfb_channelizer_ccf.cc:174-197`). -/
def round (block : PfbChannelizer R M) (N_UNROLL : ℕ) (fft : List M → List M)
    (input_items : List (List M)) (s : PfbRounds M) : Option (PfbRounds M) := do
  let last := (s.i + block.d_rate_ratio) % block.d_numchans
  let turn ← block.loop N_UNROLL input_items s.n (-1) ⟨last, 0, s.inbuf, []⟩
  let turn ← block.loop N_UNROLL input_items (s.n - 1) last
    { turn with i := block.d_numchans - 1 }
  some {
    n := s.n + if block.d_numchans ≤ turn.i + block.d_rate_ratio then 1 else 0
    i := turn.i
    inbuf := turn.inbuf
    out := s.out ++ [fft turn.inbuf]
    uses := s.uses ++ [turn.uses] }

/-- The loop over the rounds, with no result when the fuel does not suffice. -/
def rounds (block : PfbChannelizer R M) (N_UNROLL : ℕ) (fft : List M → List M)
    (input_items : List (List M)) (toconsume : Int) : ℕ → PfbRounds M → Option (PfbRounds M)
  | 0, _ => none
  | fuel + 1, s =>
      if s.n ≤ toconsume then
        (block.round N_UNROLL fft input_items s).bind
          (block.rounds N_UNROLL fft input_items toconsume fuel)
      else some s

/-- `general_work` (`gr_pfb_channelizer_ccf.cc:154-200`). -/
def generalWork (N_UNROLL : ℕ) (fft : List M → List M) (fuel : ℕ) (block : PfbChannelizer R M)
    (input_items : List (List M)) (noutput_items : ℕ) : Option (PfbWork R M) :=
  if block.d_updated then
    some ⟨[], [], -1, 0, 0, { block with d_updated := false }⟩
  else
    let toconsume := roundEven (noutput_items / block.d_oversample_rate)
    (block.rounds N_UNROLL fft input_items toconsume fuel ⟨1, -1, block.inbuf, [], []⟩).map fun s =>
      ⟨s.out, s.uses, s.i, toconsume, noutput_items, { block with inbuf := s.inbuf }⟩

/-- Calls of `general_work` one after another, each with the items it asks for from the first that
is not consumed on: their vectors. -/
def calls (N_UNROLL : ℕ) (fft : List M → List M) (fuel : ℕ) (block : PfbChannelizer R M)
    (input_items : List (List M)) : List ℕ → Option (List (List M))
  | [] => some []
  | noutput_items :: rest => do
      let work ← block.generalWork N_UNROLL fft fuel
        (input_items.map fun input => input.take (noutput_items + block.d_history - 1))
        noutput_items
      let more ← calls N_UNROLL fft fuel work.block
        (input_items.map fun input => input.drop work.consumed.toNat) rest
      some (work.out ++ more)

/-- The call with `noutput_items` goes as it should. -/
structure Closes (N_UNROLL : ℕ) (fft : List M → List M) (fuel : ℕ) (block : PfbChannelizer R M)
    (input_items : List (List M)) (noutput_items : ℕ) (work : PfbWork R M) : Prop where
  worked : block.generalWork N_UNROLL fft fuel input_items noutput_items = some work
  vectors : work.out.length = noutput_items ∧ work.returned = noutput_items
  /-- In each vector every filter and every place is used once. -/
  used : work.uses.length = noutput_items ∧ ∀ uses ∈ work.uses,
    (uses.map Prod.fst).Perm (List.range block.d_numchans) ∧
      (uses.map Prod.snd).Perm (List.range block.d_numchans)
  /-- The commutator is where it started, at `-1`. -/
  closed : work.i % block.d_numchans = -1 % block.d_numchans

/-! ## The block that is made -/

/-- `d_idxlut[j]`. -/
def slot (N D j : ℕ) : ℕ := N - 1 - (j + D) % N

/-- What the rounds rely on: filters of the same length, a place for each stream. -/
structure Ready (N D ntaps : ℕ) (block : PfbChannelizer R M) : Prop where
  running : block.d_updated = false
  history : block.d_history = ntaps + 1
  numchans : block.d_numchans = N
  rate : block.d_oversample_rate = (N : ℚ) / D
  ratio : block.d_rate_ratio = D
  filters : ∀ i < N, ∃ fir, block.d_filters[i]? = some fir ∧ fir.ntaps = ntaps
  places : ∀ j < N, block.d_idxlut[j]? = some (slot N D j)
  buffer : block.inbuf.length = N

/-- The block as a later call finds it: what the FFT had in its buffer is all that changes. -/
def later (made : PfbChannelizer R M) (inbuf : List M) : PfbChannelizer R M :=
  { made with
    d_updated := false
    inbuf }

variable {numchans tries first multiple j n k toconsume noutput_items fuel : ℕ}
  {inbuf input : List M} {s : PfbRounds M} {fft : List M → List M}

theorem align_ok {d_rate_ratio : Int}
    (aligned : align d_rate_ratio numchans tries first = .ok multiple) :
    (numchans : Int) ∣ multiple * d_rate_ratio := by
  induction tries generalizing first with
  | zero => cases aligned
  | succ tries ih =>
    obtain ⟨product, fits, aligned⟩ := bind_ok.mp aligned
    rw [(asInt_ok fits).1] at aligned
    split at aligned
    · exact ih aligned
    · rename_i whole
      obtain rfl := pure_ok.mp aligned
      exact Int.dvd_of_emod_eq_zero (not_not.mp whole)

theorem slot_lt {N D : ℕ} (inside : j < N) : slot N D j < N := by
  rw [slot]
  omega

theorem idxlut_slot {N D : ℕ} (inside : j < N) :
    (N - (j + (D : Int)) % N - 1 : Int).toNat = slot N D j := by
  have below := Nat.mod_lt (j + D) (Nat.zero_lt_of_lt inside)
  have cast : ((j : Int) + D) % N = ((j + D) % N : ℕ) := by push_cast; rfl
  rw [cast, slot]
  omega

theorem slot_perm (N D : ℕ) : ((List.range N).map (slot N D)).Perm (List.range N) := by
  refine map_range_perm (fun j inside => slot_lt inside) fun j here k there same => ?_
  have positive := Nat.zero_lt_of_lt here
  have first := Nat.mod_lt (j + D) positive
  have second := Nat.mod_lt (k + D) positive
  rw [slot, slot] at same
  have residues : Nat.ModEq N (j + D) (k + D) := by
    rw [Nat.ModEq]
    omega
  exact Nat.ModEq.eq_of_lt_of_lt (Nat.ModEq.add_right_cancel' D residues) here there

theorem ratio_eq {N D : ℕ} (positive : 1 ≤ D) (small : D ≤ N) :
    (N : ℚ) / (N / D) = (D : Int) := by
  have channels : (N : ℚ) ≠ 0 := by
    exact_mod_cast (show N ≠ 0 by omega)
  rw [div_div_cancel₀ channels]
  rfl

theorem align_total {D : ℕ} (begun : first ≤ multiple) (tried : multiple < first + tries)
    (whole : numchans ∣ multiple * D) (fits : multiple * D ≤ intMax) :
    ∃ found, align D numchans tries first = .ok found := by
  induction tries generalizing first with
  | zero => omega
  | succ tries ih =>
    have below : first * D ≤ intMax := Nat.le_trans (Nat.mul_le_mul_right D begun) fits
    have product : asInt ((first : Int) * D) = .ok ((first * D : ℕ) : Int) := by
      rw [← Int.natCast_mul]
      exact asInt_natCast below
    rw [align, product, ok_bind]
    split
    · rename_i remains
      have differs : first ≠ multiple := by
        rintro rfl
        exact remains (by exact_mod_cast Nat.mod_eq_zero_of_dvd whole)
      exact ih (by omega) (by omega)
    · exact ⟨first, rfl⟩

omit [AddCommMonoid M] [Module R M] in
theorem make_total {N D : ℕ} (positive : 1 ≤ D) (small : D ≤ N) (fits : N.lcm D ≤ intMax)
    (taps : List R) (inbuf : List M) :
    ∃ made : PfbChannelizer R M, make N taps (N / D) inbuf = .ok made := by
  have bound : D ≤ N.lcm D :=
    Nat.le_of_dvd (Nat.lcm_pos (by omega) positive) (Nat.dvd_lcm_right N D)
  obtain ⟨multiple, product⟩ := Nat.dvd_lcm_right N D
  rw [Nat.mul_comm] at product
  have within : multiple ≤ N := by
    have least : N.lcm D ≤ N * D := Nat.le_of_dvd (Nat.mul_pos (by omega) positive)
      (Nat.lcm_dvd (Nat.dvd_mul_right N D) (Nat.dvd_mul_left D N))
    rw [product] at least
    exact Nat.le_of_mul_le_mul_right least positive
  have some : 1 ≤ multiple := by
    rcases Nat.eq_zero_or_pos multiple with rfl | some
    · have lcm_pos := Nat.lcm_pos (show 0 < N by omega) positive
      omega
    · exact some
  have tried : multiple < 1 + N := by omega
  obtain ⟨found, aligned⟩ := align_total some tried
    (product ▸ Nat.dvd_lcm_left N D) (product ▸ fits)
  rw [make, ratio_eq positive small, Int.fract_intCast, if_neg (fun differs => differs rfl),
    roundEven_intCast, asInt_natCast (Nat.le_trans bound fits), ok_bind, aligned, ok_bind]
  exact ⟨_, rfl⟩

omit [AddCommMonoid M] [Module R M] in
theorem ready_of_make {N D : ℕ} (positive : 1 ≤ D) (small : D ≤ N) {taps : List R} {other : List M}
    {made : PfbChannelizer R M} (constructed : make N taps (N / D) inbuf = .ok made)
    (buffer : other.length = N) :
    N ∣ made.d_output_multiple * D ∧ made.d_updated = true ∧ made.inbuf = inbuf ∧
      Ready N D (tapsPerFilter taps.length N) (made.later other) := by
  rw [make, ratio_eq positive small, Int.fract_intCast, if_neg (fun differs => differs rfl),
    roundEven_intCast] at constructed
  obtain ⟨d_rate_ratio, fits, constructed⟩ := bind_ok.mp constructed
  obtain ⟨multiple, aligned, constructed⟩ := bind_ok.mp constructed
  obtain rfl := (asInt_ok fits).1
  obtain rfl := pure_ok.mp constructed
  refine ⟨?_, rfl, rfl, ?_⟩
  · exact_mod_cast align_ok aligned
  · exact
      { running := rfl
        history := rfl
        numchans := rfl
        rate := rfl
        ratio := rfl
        filters := fun i inside => partitionTaps_filters taps inside
        places := fun j inside => by
          change ((List.range N).map _)[j]? = _
          rw [List.getElem?_map, List.getElem?_range inside, Option.map_some, idxlut_slot inside]
        buffer := buffer }

/-! ## A round -/

/-- What the filter at distance `P + N - j` finds in stream `j`. -/
def found (block : PfbChannelizer R M) (N_UNROLL : ℕ) (input_items : List (List M))
    (N P j : ℕ) : M :=
  (block.d_filters.getD ((P + N - j) % N) (GrFir.setTaps [])).filter N_UNROLL
    (offset ((input_items.getD j []).getD · 0) ((P + N - j) / N))

/-- The buffer after the first `j` streams of the round that begins at distance `P`. -/
def filled (block : PfbChannelizer R M) (N_UNROLL : ℕ) (input_items : List (List M))
    (N D P : ℕ) (before : List M) (j : ℕ) : List M :=
  (List.range j).foldl
    (fun buf j => buf.set (slot N D j) (block.found N_UNROLL input_items N P j)) before

/-- The filters and places of the first `j` streams. -/
def usesOf (N D P j : ℕ) : List (ℕ × ℕ) :=
  (List.range j).map fun j => ((P + N - j) % N, slot N D j)

/-- The state of the inner loops before stream `j`. -/
def turnAt (block : PfbChannelizer R M) (N_UNROLL : ℕ) (input_items : List (List M))
    (N D P : ℕ) (before : List M) (i : Int) (j : ℕ) : PfbTurn M :=
  ⟨i, j, block.filled N_UNROLL input_items N D P before j, usesOf N D P j⟩

variable {block : PfbChannelizer R M} {N_UNROLL : ℕ} {input_items : List (List M)}
  {N D ntaps P : ℕ} {before : List M}

theorem length_filled (j : ℕ) :
    (block.filled N_UNROLL input_items N D P before j).length = before.length :=
  length_foldl_set _ _ _ _

theorem use_some {turn : PfbTurn M} {fir : GrFir R} {place : ℕ}
    (stream : input_items[turn.j]? = some input) (lut : block.d_idxlut[turn.j]? = some place)
    (index : turn.i = k) (filter : block.d_filters[k]? = some fir)
    (items : n + fir.ntaps ≤ input.length) (inside : place < turn.inbuf.length) :
    block.use N_UNROLL input_items n turn = some {
      i := turn.i - 1
      j := turn.j + 1
      inbuf := turn.inbuf.set place (fir.filter N_UNROLL (offset (input.getD · 0) n))
      uses := turn.uses ++ [(k, place)] } := by
  simp only [use, stream, lut, index, if_pos (Int.natCast_nonneg k), Int.toNat_natCast, filter,
    Option.bind_eq_bind, Option.bind_some]
  exact if_pos ⟨items, inside⟩

variable (N_UNROLL) in
theorem use_eq (ready : block.Ready N D ntaps) (stream : j < N) (length : before.length = N)
    (here : input_items[j]? = some input) (items : (P + N - j) / N + ntaps ≤ input.length)
    (item : n = (P + N - j) / N) {i : Int} (place : i = ((P + N - j) % N : ℕ)) :
    block.use N_UNROLL input_items n (block.turnAt N_UNROLL input_items N D P before i j) =
      some (block.turnAt N_UNROLL input_items N D P before (i - 1) (j + 1)) := by
  have inside : (P + N - j) % N < N := Nat.mod_lt _ (Nat.zero_lt_of_lt stream)
  obtain ⟨fir, filter, ntaps⟩ := ready.filters _ inside
  subst item place
  have value : block.found N_UNROLL input_items N P j =
      fir.filter N_UNROLL (offset (input.getD · 0) ((P + N - j) / N)) := by
    rw [found, List.getD_eq_getElem?_getD, List.getD_eq_getElem?_getD, filter, here]
    rfl
  have room : slot N D j < (block.filled N_UNROLL input_items N D P before j).length := by
    rw [length_filled, length]
    exact slot_lt stream
  refine (use_some here (ready.places j stream) rfl filter (ntaps ▸ items) room).trans ?_
  rw [← value]
  simp only [turnAt, filled, usesOf, List.range_succ, List.foldl_append, List.foldl_cons,
    List.foldl_nil, List.map_append, List.map_cons, List.map_nil]

theorem loop_eq (ready : block.Ready N D ntaps) {m next : ℕ} (streams : next ≤ N)
    (after : next = j + m) (length : before.length = N) (width : input_items.length = N)
    (items : ∀ input ∈ input_items, n + ntaps ≤ input.length) {i last : Int} (count : i - last = m)
    (steady : ∀ k < m, n = (P + N - (j + k)) / N ∧ i - k = ((P + N - (j + k)) % N : ℕ)) :
    block.loop N_UNROLL input_items n last (block.turnAt N_UNROLL input_items N D P before i j) =
      some (block.turnAt N_UNROLL input_items N D P before last next) := by
  have turns : ∀ k ≤ m, (List.range k).foldlM
      (fun turn _ => block.use N_UNROLL input_items n turn)
      (block.turnAt N_UNROLL input_items N D P before i j) =
        some (block.turnAt N_UNROLL input_items N D P before (i - k) (j + k)) := by
    intro k less
    induction k with
    | zero => simp
    | succ k ih =>
      obtain ⟨item, place⟩ := steady k less
      have stream : j + k < input_items.length := by omega
      have down : i - k - 1 = i - (k + 1 : ℕ) := by omega
      have one := use_eq N_UNROLL ready (by omega) length (List.getElem?_eq_getElem stream)
        (item ▸ items _ (List.getElem_mem stream)) item place
      rw [List.range_succ, List.foldlM_append, ih (by omega)]
      simp only [List.foldlM_cons, List.foldlM_nil, Option.bind_eq_bind, Option.bind_some]
      rw [one, down]
      rfl
  have whole := turns m (Nat.le_refl m)
  have rest : i - m = last := by omega
  rw [rest, ← after] at whole
  rw [loop, ← whole]
  congr 2
  change (i - last).toNat = m
  omega

theorem round_eq (ready : block.Ready N D ntaps) (positive : 0 < N) (short : D ≤ N)
    (fft : List M → List M) (item : s.n = P / N + 1)
    (place : (s.i + D) % N = (P % N : ℕ)) (length : s.inbuf.length = N)
    (width : input_items.length = N)
    (items : ∀ input ∈ input_items, P / N + 1 + ntaps ≤ input.length) :
    block.round N_UNROLL fft input_items s = some {
      n := (P + D) / N + 1
      i := (P % N : ℕ)
      inbuf := block.filled N_UNROLL input_items N D P s.inbuf N
      out := s.out ++ [fft (block.filled N_UNROLL input_items N D P s.inbuf N)]
      uses := s.uses ++ [usesOf N D P N] } := by
  have below := Nat.mod_lt P positive
  have first : block.loop N_UNROLL input_items (P / N + 1) (-1)
      (block.turnAt N_UNROLL input_items N D P s.inbuf (P % N : ℕ) 0) =
        some (block.turnAt N_UNROLL input_items N D P s.inbuf (-1) (P % N + 1)) := by
    refine loop_eq ready below (Nat.zero_add _).symm length width items (by omega) fun k less => ?_
    obtain ⟨mod, div⟩ := back_near positive (show k ≤ P % N by omega)
    rw [Nat.zero_add, mod, div]
    omega
  have second : block.loop N_UNROLL input_items (P / N) (P % N : ℕ)
      (block.turnAt N_UNROLL input_items N D P s.inbuf ((N : Int) - 1) (P % N + 1)) =
        some (block.turnAt N_UNROLL input_items N D P s.inbuf (P % N : ℕ) N) := by
    have rest : N = P % N + 1 + (N - 1 - P % N) := by omega
    refine loop_eq ready (Nat.le_refl N) rest length width (fun input member => ?_) (by omega)
      fun k less => ?_
    · have more := items input member
      omega
    · obtain ⟨mod, div⟩ := back_far (P := P) (N := N) (j := P % N + 1 + k) (by omega) (by omega)
      rw [mod, div]
      omega
  have passes : ((N : Int) ≤ (P % N : ℕ) + (D : Int)) = (N ≤ P % N + D) :=
    propext (by exact_mod_cast Iff.rfl)
  have start : (⟨(P % N : ℕ), 0, s.inbuf, []⟩ : PfbTurn M) =
    block.turnAt N_UNROLL input_items N D P s.inbuf (P % N : ℕ) 0 := rfl
  have again : ({ block.turnAt N_UNROLL input_items N D P s.inbuf (-1) (P % N + 1) with
      i := (N : Int) - 1 } : PfbTurn M) =
    block.turnAt N_UNROLL input_items N D P s.inbuf ((N : Int) - 1) (P % N + 1) := rfl
  rw [round, ready.ratio, ready.numchans, place, item, start]
  rw [first, Option.bind_eq_bind, Option.bind_some, Nat.add_sub_cancel, again]
  rw [second, Option.bind_some]
  simp only [turnAt, turns_step positive short, passes, Nat.add_right_comm]

/-! ## The rounds of a call -/

/-- How far the commutator comes in round `k`. -/
def distance (D k : ℕ) : ℕ := (k + 1) * D - 1

/-- The input of the FFT in the round that begins at distance `P`. -/
def frame (block : PfbChannelizer R M) (N_UNROLL : ℕ) (input_items : List (List M))
    (N D P : ℕ) : List M :=
  block.filled N_UNROLL input_items N D P (List.replicate N 0) N

theorem filled_eq_frame (length : before.length = N) :
    block.filled N_UNROLL input_items N D P before N = block.frame N_UNROLL input_items N D P := by
  refine foldl_set_covered _ _ (by rw [length, List.length_replicate]) fun i inside => ?_
  have member : i ∈ (List.range N).map (slot N D) :=
    (slot_perm N D).mem_iff.mpr (List.mem_range.mpr (length ▸ inside))
  exact List.mem_map.mp member

/-- What is known before round `k`. -/
structure Walked (block : PfbChannelizer R M) (N_UNROLL : ℕ) (fft : List M → List M)
    (input_items : List (List M)) (N D k : ℕ) (s : PfbRounds M) : Prop where
  item : s.n = distance D k / N + 1
  place : (s.i + D) % N = (distance D k % N : ℕ)
  buffer : s.inbuf.length = N
  out : s.out =
    (List.range k).map fun k => fft (block.frame N_UNROLL input_items N D (distance D k))
  uses : s.uses = (List.range k).map fun k => usesOf N D (distance D k) N

theorem distance_succ (positive : 1 ≤ D) (k : ℕ) : distance D (k + 1) = distance D k + D := by
  have product : (k + 1 + 1) * D = (k + 1) * D + D := Nat.succ_mul _ _
  have some : 1 ≤ (k + 1) * D := Nat.mul_pos (Nat.succ_pos k) positive
  rw [distance, distance, product]
  omega

theorem walked_zero (block : PfbChannelizer R M) (N_UNROLL : ℕ) (fft : List M → List M)
    (input_items : List (List M)) (positive : 1 ≤ D) (short : D ≤ N) (length : inbuf.length = N) :
    Walked block N_UNROLL fft input_items N D 0 ⟨1, -1, inbuf, [], []⟩ := by
  have start : distance D 0 = D - 1 := by rw [distance, Nat.zero_add, Nat.one_mul]
  have less : D - 1 < N := by omega
  exact
    { item := by rw [start, Nat.div_eq_of_lt less]
      place := by
        rw [start, Nat.mod_eq_of_lt less]
        change (-1 + (D : Int)) % N = _
        rw [Int.emod_eq_of_lt (by omega) (by omega)]
        omega
      buffer := length
      out := rfl
      uses := rfl }

theorem goes_on_iff (positive : 1 ≤ D) (channels : 0 < N)
    (whole : toconsume * N = noutput_items * D) :
    distance D k / N + 1 ≤ toconsume ↔ k < noutput_items := by
  have some : 1 ≤ (k + 1) * D := Nat.mul_pos (Nat.succ_pos k) positive
  rw [Nat.succ_le_iff, Nat.div_lt_iff_lt_mul channels, whole, distance]
  constructor
  · intro less
    have le : (k + 1) * D ≤ noutput_items * D := by omega
    exact Nat.le_of_mul_le_mul_right le positive
  · intro less
    have le : (k + 1) * D ≤ noutput_items * D := Nat.mul_le_mul_right D less
    omega

theorem consumed_le (positive : 1 ≤ D) (short : D ≤ N) (whole : toconsume * N = noutput_items * D) :
    toconsume ≤ noutput_items := by
  have product : toconsume * N ≤ noutput_items * N := by
    rw [whole]
    exact Nat.mul_le_mul_left noutput_items short
  exact Nat.le_of_mul_le_mul_right product (Nat.lt_of_lt_of_le positive short)

theorem Walked.step {fft : List M → List M} {k : ℕ} {s : PfbRounds M}
    (ready : block.Ready N D ntaps) (positive : 1 ≤ D) (short : D ≤ N)
    (walked : Walked block N_UNROLL fft input_items N D k s) (width : input_items.length = N)
    (items : ∀ input ∈ input_items, distance D k / N + 1 + ntaps ≤ input.length) :
    ∃ after, block.round N_UNROLL fft input_items s = some after ∧
      Walked block N_UNROLL fft input_items N D (k + 1) after := by
  have channels : 0 < N := Nat.lt_of_lt_of_le positive short
  refine ⟨_, round_eq ready channels short fft walked.item walked.place walked.buffer width items,
    ?_⟩
  exact
    { item := by rw [distance_succ positive]
      place := by
        rw [distance_succ positive]
        push_cast
        rw [Int.emod_add_emod]
      buffer := (length_filled N).trans walked.buffer
      out := by
        rw [List.range_succ, List.map_append, walked.out, filled_eq_frame walked.buffer]
        rfl
      uses := by
        rw [List.range_succ, List.map_append, walked.uses]
        rfl }

theorem rounds_eq (ready : block.Ready N D ntaps) (positive : 1 ≤ D) (short : D ≤ N)
    (whole : toconsume * N = noutput_items * D) (width : input_items.length = N)
    (items : ∀ input ∈ input_items, toconsume + ntaps ≤ input.length)
    (enough : noutput_items < fuel + k) (bound : k ≤ noutput_items)
    (walked : Walked block N_UNROLL fft input_items N D k s) :
    ∃ after, block.rounds N_UNROLL fft input_items toconsume fuel s = some after ∧
      Walked block N_UNROLL fft input_items N D noutput_items after := by
  have channels : 0 < N := Nat.lt_of_lt_of_le positive short
  induction fuel generalizing k s with
  | zero => omega
  | succ fuel ih =>
    have condition : ((s.n : Int) ≤ toconsume) = (k < noutput_items) := by
      rw [walked.item, Int.ofNat_le, goes_on_iff positive channels whole]
    rw [rounds]
    by_cases more : k < noutput_items
    · have inside := (goes_on_iff positive channels whole).mpr more
      obtain ⟨next, stepped, walked'⟩ := walked.step ready positive short width
        fun input member => Nat.le_trans (Nat.add_le_add_right inside _) (items input member)
      rw [if_pos (condition ▸ more), stepped, Option.bind_some]
      exact ih (by omega) more walked'
    · obtain rfl : k = noutput_items := by omega
      rw [if_neg (condition ▸ more)]
      exact ⟨s, rfl, walked⟩

variable (N_UNROLL) in
theorem generalWork_eq (fft : List M → List M) (ready : block.Ready N D ntaps) (positive : 1 ≤ D)
    (short : D ≤ N) (whole : toconsume * N = noutput_items * D) (width : input_items.length = N)
    (items : ∀ input ∈ input_items, toconsume + ntaps ≤ input.length)
    (enough : noutput_items < fuel) :
    ∃ s, Walked block N_UNROLL fft input_items N D noutput_items s ∧
      block.generalWork N_UNROLL fft fuel input_items noutput_items =
        some ⟨s.out, s.uses, s.i, toconsume, noutput_items, { block with inbuf := s.inbuf }⟩ := by
  have channels : (N : ℚ) ≠ 0 := by
    exact_mod_cast (show N ≠ 0 by omega)
  have consumes : roundEven (noutput_items / block.d_oversample_rate) = toconsume := by
    have exact : (noutput_items : ℚ) / (N / D) = (toconsume : Int) := by
      rw [div_div_eq_mul_div, div_eq_iff channels]
      exact_mod_cast whole.symm
    rw [ready.rate, exact, roundEven_intCast]
  obtain ⟨s, looped, walked⟩ := rounds_eq (k := 0) ready positive short whole width items
    enough (Nat.zero_le _) (walked_zero block N_UNROLL fft input_items positive short ready.buffer)
  refine ⟨s, walked, ?_⟩
  rw [generalWork, ready.running]
  dsimp only
  rw [if_neg Bool.false_ne_true, consumes, looped, Option.map_some]

/-! ## Calls one after another -/

theorem frame_congr (ready : block.Ready N D ntaps) {other : List (List M)} {P' : ℕ}
    (same : ∀ j < N, (P' + N - j) % N = (P + N - j) % N ∧ ∀ t < ntaps,
      (other.getD j []).getD ((P' + N - j) / N + t) 0 =
        (input_items.getD j []).getD ((P + N - j) / N + t) 0) :
    block.frame N_UNROLL other N D P' = block.frame N_UNROLL input_items N D P := by
  rw [frame, frame, filled, filled]
  refine List.foldl_ext _ _ _ fun buf j member => ?_
  have stream := List.mem_range.mp member
  obtain ⟨filter, window⟩ := same j stream
  obtain ⟨fir, there, ntaps⟩ :=
    ready.filters ((P + N - j) % N) (Nat.mod_lt _ (Nat.zero_lt_of_lt stream))
  congr 1
  rw [found, found, filter, List.getD_eq_getElem?_getD, there, Option.getD_some]
  exact GrFir.filter_congr N_UNROLL fun t less => window t (ntaps ▸ less)

theorem frame_drop (ready : block.Ready N D ntaps) (consumed : ℕ) :
    block.frame N_UNROLL (input_items.map fun input => input.drop consumed) N D P =
      block.frame N_UNROLL input_items N D (P + consumed * N) := by
  refine frame_congr ready fun j stream => ?_
  have there : P + consumed * N + N - j = P + N - j + N * consumed := by
    rw [Nat.mul_comm consumed]
    omega
  rw [there, Nat.add_mul_mod_self_left,
    Nat.add_mul_div_left _ _ (Nat.zero_lt_of_lt stream)]
  refine ⟨rfl, fun t _ => ?_⟩
  have row : (input_items.map fun input => input.drop consumed).getD j [] =
      (input_items.getD j []).drop consumed := by
    rw [List.getD_eq_getElem?_getD, List.getElem?_map, List.getD_eq_getElem?_getD]
    cases input_items[j]? with
    | none => exact List.drop_nil.symm
    | some input => rfl
  rw [row, List.getD_eq_getElem?_getD, List.getElem?_drop, List.getD_eq_getElem?_getD]
  congr 2
  omega

theorem frame_take (ready : block.Ready N D ntaps) {count : ℕ}
    (inside : P / N + 1 + ntaps ≤ count) :
    block.frame N_UNROLL (input_items.map fun input => input.take count) N D P =
      block.frame N_UNROLL input_items N D P := by
  refine frame_congr ready fun j stream => ⟨rfl, fun t less => ?_⟩
  have item : (P + N - j) / N ≤ P / N + 1 := by
    calc (P + N - j) / N ≤ (P + N) / N := Nat.div_le_div_right (Nat.sub_le _ _)
      _ = P / N + 1 := Nat.add_div_right P (Nat.zero_lt_of_lt stream)
  have row : (input_items.map fun input => input.take count).getD j [] =
      (input_items.getD j []).take count := by
    rw [List.getD_eq_getElem?_getD, List.getElem?_map, List.getD_eq_getElem?_getD]
    cases input_items[j]? with
    | none => exact List.take_nil.symm
    | some input => rfl
  rw [row, List.getD_eq_getElem?_getD, List.getElem?_take_of_lt (by omega),
    ← List.getD_eq_getElem?_getD]

theorem calls_eq (fft : List M → List M) (positive : 1 ≤ D) (short : D ≤ N) {counts : List ℕ}
    (multiples : ∀ count ∈ counts, N ∣ count * D) (enough : counts.sum < fuel)
    (ready : block.Ready N D ntaps) (width : input_items.length = N)
    (items : ∀ input ∈ input_items, counts.sum + ntaps ≤ input.length) :
    block.calls N_UNROLL fft fuel input_items counts = some ((List.range counts.sum).map fun k =>
      fft (block.frame N_UNROLL input_items N D (distance D k))) := by
  have channels : 0 < N := Nat.lt_of_lt_of_le positive short
  induction counts generalizing block input_items with
  | nil => rfl
  | cons count counts ih =>
    rw [List.sum_cons] at enough items
    obtain ⟨toconsume, whole⟩ := multiples count List.mem_cons_self
    rw [Nat.mul_comm N] at whole
    have less := consumed_le positive short whole.symm
    have asked : count + block.d_history - 1 = count + ntaps := by
      rw [ready.history]
      omega
    have served : ∀ input ∈ input_items.map fun input => input.take (count + ntaps),
        toconsume + ntaps ≤ input.length := by
      intro input member
      obtain ⟨long, there, rfl⟩ := List.mem_map.mp member
      have enough := items long there
      rw [List.length_take]
      omega
    have left : ∀ input ∈ input_items.map fun input => input.drop toconsume,
        counts.sum + ntaps ≤ input.length := by
      intro input member
      obtain ⟨long, there, rfl⟩ := List.mem_map.mp member
      have enough := items long there
      rw [List.length_drop]
      omega
    obtain ⟨s, walked, worked⟩ := generalWork_eq N_UNROLL fft ready positive short whole.symm
      ((List.length_map _).trans width) served (show count < fuel by omega)
    have after : ({ block with inbuf := s.inbuf } : PfbChannelizer R M).Ready N D ntaps :=
      { ready with buffer := walked.buffer }
    have rest := ih (fun other member => multiples other (List.mem_cons_of_mem _ member))
      (by omega) after ((List.length_map _).trans width) left
    rw [calls, asked, worked, Option.bind_eq_bind, Option.bind_some]
    dsimp only
    rw [Int.toNat_natCast, rest, Option.bind_eq_bind, Option.bind_some, walked.out, List.sum_cons,
      List.range_add, List.map_append, List.map_map]
    congr 2
    · refine List.map_congr_left fun k member => ?_
      have round := (goes_on_iff positive channels whole.symm).mpr (List.mem_range.mp member)
      rw [frame_take ready (by omega)]
    · refine List.map_congr_left fun k _ => ?_
      have later : distance D (count + k) = distance D k + toconsume * N := by
        have some : 1 ≤ (k + 1) * D := Nat.mul_pos (Nat.succ_pos k) positive
        have product : (count + k + 1) * D = count * D + (k + 1) * D := by
          rw [Nat.add_assoc, Nat.add_mul]
        rw [distance, distance, product, whole]
        omega
      rw [Function.comp, later, ← frame_drop ready]
      rfl

theorem usesOf_perm (N D P : ℕ) : ((usesOf N D P N).map Prod.fst).Perm (List.range N) ∧
    ((usesOf N D P N).map Prod.snd).Perm (List.range N) := by
  rw [usesOf, List.map_map, List.map_map]
  exact ⟨back_perm P, slot_perm N D⟩

theorem Walked.closed (positive : 1 ≤ D) (whole : toconsume * N = noutput_items * D)
    (walked : Walked block N_UNROLL fft input_items N D noutput_items s) :
    s.i % N = -1 % (N : Int) := by
  have place := walked.place
  have last : ((distance D noutput_items : ℕ) : Int) = -1 + D + toconsume * N := by
    have product : (noutput_items + 1) * D = noutput_items * D + D := Nat.succ_mul _ _
    have cast : (toconsume : Int) * N = (noutput_items * D : ℕ) := by exact_mod_cast whole
    rw [distance, product, cast]
    omega
  have turned : Int.ModEq N (s.i + D) (-1 + D) := by
    rw [Int.ModEq, place, Int.natCast_emod, last, Int.add_mul_emod_self_right]
  exact Int.ModEq.add_right_cancel' D turned

/-- The commutator closes. The first call returns nothing, since the taps have just been set;
each call after that goes as it should, and it does not matter how the vectors are asked for. -/
theorem commutator_closes {N D : ℕ} (positive : 1 ≤ D) (small : D ≤ N) (taps : List R)
    (N_UNROLL : ℕ) (fft : List M → List M) {inbuf : List M} (buffer : inbuf.length = N)
    {made : PfbChannelizer R M} (constructed : make N taps (N / D) inbuf = .ok made) :
    (∀ fuel input_items noutput_items,
      made.generalWork N_UNROLL fft fuel input_items noutput_items =
        some ⟨[], [], -1, 0, 0, made.later inbuf⟩) ∧
    ∀ other : List M, other.length = N →
      (∀ noutput_items, made.d_output_multiple ∣ noutput_items → ∀ input_items : List (List M),
        input_items.length = N →
        (∀ input ∈ input_items, input.length = noutput_items + made.d_history - 1) →
        ∀ fuel > noutput_items, ∃ work, Closes N_UNROLL fft fuel (made.later other) input_items
          noutput_items work ∧ ∃ next : List M, next.length = N ∧ work.block = made.later next) ∧
      ∀ counts : List ℕ, (∀ count ∈ counts, made.d_output_multiple ∣ count) →
        ∀ input_items : List (List M), input_items.length = N →
        (∀ input ∈ input_items, input.length = counts.sum + made.d_history - 1) →
        ∀ fuel > counts.sum, (made.later other).calls N_UNROLL fft fuel input_items counts =
          ((made.later other).generalWork N_UNROLL fft fuel input_items counts.sum).map
            PfbWork.out := by
  have channels : 0 < N := Nat.lt_of_lt_of_le positive small
  obtain ⟨multiple, updated, kept, -⟩ := ready_of_make positive small constructed buffer
  have aligned : ∀ count, made.d_output_multiple ∣ count → N ∣ count * D := fun count divides =>
    Nat.dvd_trans multiple (Nat.mul_dvd_mul_right divides D)
  refine ⟨fun fuel input_items noutput_items => ?_, fun other length => ⟨?_, ?_⟩⟩
  · rw [generalWork, if_pos updated, later, ← kept]
  · intro noutput_items divides input_items width items fuel enough
    obtain ⟨-, -, -, ready⟩ := ready_of_make positive small constructed length
    obtain ⟨toconsume, whole⟩ := aligned noutput_items divides
    rw [Nat.mul_comm N] at whole
    have history : made.d_history = _ := ready.history
    have less := consumed_le positive small whole.symm
    have served : ∀ input ∈ input_items,
        toconsume + tapsPerFilter taps.length N ≤ input.length := by
      intro input member
      rw [items input member, history]
      omega
    obtain ⟨s, walked, worked⟩ := generalWork_eq N_UNROLL fft ready positive small whole.symm width
      served enough
    have numchans : (made.later other).d_numchans = N := ready.numchans
    have closes : Closes N_UNROLL fft fuel (made.later other) input_items noutput_items _ :=
      { worked := worked
        vectors := by
          rw [walked.out, List.length_map, List.length_range]
          exact ⟨rfl, rfl⟩
        used := by
          rw [numchans, walked.uses, List.length_map, List.length_range]
          refine ⟨rfl, fun uses member => ?_⟩
          obtain ⟨k, -, rfl⟩ := List.mem_map.mp member
          exact usesOf_perm N D (distance D k)
        closed := by
          rw [numchans]
          exact walked.closed positive whole.symm }
    exact ⟨_, closes, s.inbuf, walked.buffer, rfl⟩
  · intro counts divides input_items width items fuel enough
    obtain ⟨-, -, -, ready⟩ := ready_of_make positive small constructed length
    have multiples : ∀ count ∈ counts, N ∣ count * D := fun count member =>
      aligned count (divides count member)
    obtain ⟨toconsume, whole⟩ := aligned counts.sum (List.dvd_sum divides)
    rw [Nat.mul_comm N] at whole
    have history : made.d_history = _ := ready.history
    have less := consumed_le positive small whole.symm
    have given : ∀ input ∈ input_items,
        counts.sum + tapsPerFilter taps.length N ≤ input.length := by
      intro input member
      rw [items input member, history]
      omega
    obtain ⟨s, walked, worked⟩ := generalWork_eq N_UNROLL fft ready positive small whole.symm width
      (fun input member => Nat.le_trans (Nat.add_le_add_right less _) (given input member)) enough
    rw [calls_eq fft positive small multiples enough ready width given, worked, Option.map_some,
      walked.out]

/-- A fresh block with one channel is asked for one vector, and returns none. -/
theorem first_call_returns_nothing : ∃ made : PfbChannelizer ℚ ℚ,
    make 1 [1] ((1 : ℕ) / (1 : ℕ)) [0] = .ok made ∧ made.d_output_multiple ∣ 1 ∧
      made.d_history = 2 ∧ ∀ fuel, (made.generalWork 4 id fuel [[3, 5]] 1).map
        (fun work => (work.out.length, work.returned)) = some (0, 0) := by
  refine ⟨(⟨1, false, 1, (1 : ℕ) / (1 : ℕ), [GrFir.setTaps []], 0, [0], [0], 1, 1⟩ :
    PfbChannelizer ℚ ℚ).setTaps [1], ?_, Nat.dvd_refl 1, ?_, fun fuel => rfl⟩
  · rw [make, ratio_eq (by decide) (by decide), Int.fract_intCast,
      if_neg (fun differs => differs rfl), roundEven_intCast]
    rfl
  · change ⌈((1 : ℕ) : ℚ) / (1 : ℕ)⌉₊ + 1 = 2
    norm_num

/-- Three channels at one and a half times the rate. -/
theorem commutator_closes_three : ∃ made : PfbChannelizer ℚ ℚ,
    make 3 [1, 2, 3, 4] ((3 : ℕ) / (2 : ℕ)) [0, 0, 0] = .ok made ∧
    (∀ fuel input_items noutput_items,
      made.generalWork 4 id fuel input_items noutput_items =
        some ⟨[], [], -1, 0, 0, made.later [0, 0, 0]⟩) ∧
    ∀ other : List ℚ, other.length = 3 →
      (∀ noutput_items, made.d_output_multiple ∣ noutput_items → ∀ input_items : List (List ℚ),
        input_items.length = 3 →
        (∀ input ∈ input_items, input.length = noutput_items + made.d_history - 1) →
        ∀ fuel > noutput_items, ∃ work, Closes 4 id fuel (made.later other) input_items
          noutput_items work ∧ ∃ next : List ℚ, next.length = 3 ∧ work.block = made.later next) ∧
      ∀ counts : List ℕ, (∀ count ∈ counts, made.d_output_multiple ∣ count) →
        ∀ input_items : List (List ℚ), input_items.length = 3 →
        (∀ input ∈ input_items, input.length = counts.sum + made.d_history - 1) →
        ∀ fuel > counts.sum, (made.later other).calls 4 id fuel input_items counts =
          ((made.later other).generalWork 4 id fuel input_items counts.sum).map PfbWork.out := by
  obtain ⟨made, constructed⟩ :=
    make_total (N := 3) (D := 2) (by decide) (by decide) (by decide) [(1 : ℚ), 2, 3, 4]
      [(0 : ℚ), 0, 0]
  exact ⟨made, constructed,
    commutator_closes (by decide) (by decide) [1, 2, 3, 4] 4 id rfl constructed⟩

end PfbChannelizer

end GnuRadio
