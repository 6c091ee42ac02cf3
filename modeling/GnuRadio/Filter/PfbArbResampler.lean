import GnuRadio.Filter.Fir
import GnuRadio.Misc.Except
import GnuRadio.Misc.Trace
import GnuRadio.Runtime.Types

/-!
# The polyphase arbitrary resampler

`gr_pfb_arb_resampler_ccf` goes through a filterbank in steps of a whole number of filters and a
rest, by which it interpolates between a filter and the next. `float` is the rational numbers; the
filter index is an `unsigned int` and the item count an `int`.
-/

namespace GnuRadio

variable {M : Type} [AddCommMonoid M] [Module ℚ M]

/-- `gr_pfb_arb_resampler_ccf` (`gr_pfb_arb_resampler_ccf.h:114-125`) with the `d_history` of
`gr_block`. -/
structure PfbArbResampler where
  d_history : ℕ
  d_filters : List (GrFir ℚ)
  d_diff_filters : List (GrFir ℚ)
  d_int_rate : ℕ
  d_dec_rate : ℕ
  d_flt_rate : ℚ
  d_acc : ℚ
  d_last_filter : ℕ
  d_start_index : Int
  d_taps_per_filter : ℕ
  d_updated : Bool

/-- The variables of `general_work`. `uses` records the filters with the accumulator they are
used with. -/
structure PfbArbLoop (M : Type) where
  i : ℕ
  count : Int
  j : ℕ
  d_acc : ℚ
  out : List M
  uses : List (ℕ × ℚ)

/-- What a call of `general_work` does. -/
structure PfbArbWork (M : Type) where
  out : List M
  uses : List (ℕ × ℚ)
  consumed : Int
  returned : ℕ
  block : PfbArbResampler

/-- What a call of `general_work` is given. -/
structure PfbArbCall where
  ninput_items : ℕ
  noutput_items : ℕ

namespace PfbArbResampler

/-- `create_diff_taps` (`gr_pfb_arb_resampler_ccf.cc:129-142`) of at least one tap: `tap` is not
initialised. -/
def createDiffTaps (newtaps : List ℚ) (tap : ℚ) : List ℚ :=
  let (difftaps, tap) := (List.range (newtaps.length - 1)).foldl (fun (difftaps, _) i =>
    let tap := newtaps.getD (i + 1) 0 - newtaps.getD i 0
    (difftaps ++ [tap], tap)) ([], tap)
  difftaps ++ [tap]

/-- The constructor (`gr_pfb_arb_resampler_ccf.cc:43-84`) with `set_rate`
(`gr_pfb_arb_resampler_ccf.h:164-168`). Without filters there is no number of taps for each, and
without taps `create_diff_taps` reads what is not there. -/
def make (rate : ℚ) (taps : List ℚ) (filter_size : ℕ) (tap : ℚ) :
    Except CppException PfbArbResampler :=
  if filter_size = 0 ∨ taps = [] ∨ 2 ^ 32 ≤ ⌊filter_size / rate⌋ then .error .undefinedBehaviour
  else
    let d_dec_rate := ⌊filter_size / rate⌋.toNat
    .ok {
      d_history := tapsPerFilter taps.length filter_size + 1
      d_filters := (partitionTaps filter_size taps).map GrFir.setTaps
      d_diff_filters := (partitionTaps filter_size (createDiffTaps taps tap)).map GrFir.setTaps
      d_int_rate := filter_size
      d_dec_rate
      d_flt_rate := filter_size / rate - d_dec_rate
      d_acc := 0
      d_last_filter := 0
      d_start_index := 0
      d_taps_per_filter := tapsPerFilter (createDiffTaps taps tap).length filter_size
      d_updated := true }

/-- A round of the inner loop (`gr_pfb_arb_resampler_ccf.cc:181-191`). There is no result when a
filter or an item is not there. -/
def produce (block : PfbArbResampler) (N_UNROLL : ℕ) (input : List M) (s : PfbArbLoop M) :
    Option (PfbArbLoop M) := do
  let fir ← block.d_filters[s.j]?
  let diff ← block.d_diff_filters[s.j]?
  if 0 ≤ s.count ∧ s.count + fir.ntaps ≤ input.length ∧ s.count + diff.ntaps ≤ input.length then
    let o0 := fir.filter N_UNROLL (offset (input.getD · 0) s.count.toNat)
    let o1 := diff.filter N_UNROLL (offset (input.getD · 0) s.count.toNat)
    let d_acc := s.d_acc + block.d_flt_rate
    some {
      i := s.i + 1
      count := s.count
      j := (s.j + (block.d_dec_rate + ⌊d_acc⌋.toNat)) % 2 ^ 32
      d_acc := Int.fract d_acc
      out := s.out ++ [o0 + s.d_acc • o1]
      uses := s.uses ++ [(s.j, s.d_acc)] }
  else none

/-- The inner loop, with room for as many outputs. -/
def inner (block : PfbArbResampler) (N_UNROLL : ℕ) (input : List M) :
    ℕ → PfbArbLoop M → Option (PfbArbLoop M)
  | 0, s => some s
  | room + 1, s =>
      if s.j < block.d_int_rate then
        (block.produce N_UNROLL input s).bind (block.inner N_UNROLL input room)
      else some s

/-- To the next item that is needed (`gr_pfb_arb_resampler_ccf.cc:193-197`). The skip count is
converted to `int`, and an `int` has to hold the sum. -/
def skip (block : PfbArbResampler) (s : PfbArbLoop M) : Option (PfbArbLoop M) := do
  let ss := (BitVec.ofNat 32 (s.j / block.d_int_rate)).toInt
  let count ← (asInt (s.count + ss)).toOption
  some { s with
    count
    j := s.j % block.d_int_rate }

/-- The outer loop, with no result when the fuel does not suffice. -/
def outer (block : PfbArbResampler) (N_UNROLL : ℕ) (input : List M) (noutput_items : ℕ)
    (max_input : Int) : ℕ → PfbArbLoop M → Option (PfbArbLoop M)
  | 0, _ => none
  | fuel + 1, s =>
      if s.i < noutput_items ∧ s.count < max_input then do
        let s ← block.inner N_UNROLL input (noutput_items - s.i) s
        let s ← if s.i < noutput_items then block.skip s else some s
        block.outer N_UNROLL input noutput_items max_input fuel s
      else some s

/-- `general_work` (`gr_pfb_arb_resampler_ccf.cc:157-209`). -/
def generalWork (N_UNROLL fuel : ℕ) (block : PfbArbResampler) (input : List M)
    (noutput_items : ℕ) : Option (PfbArbWork M) :=
  if block.d_updated then
    some ⟨[], [], 0, 0, { block with d_updated := false }⟩
  else
    let ninput_items : Int := input.length
    let max_input := ninput_items - block.d_taps_per_filter
    (block.outer N_UNROLL input noutput_items max_input fuel
      ⟨0, block.d_start_index, block.d_last_filter, block.d_acc, [], []⟩).map fun s =>
        ⟨s.out, s.uses, min s.count ninput_items, s.i, { block with
          d_acc := s.d_acc
          d_last_filter := s.j
          d_start_index := max 0 (s.count - ninput_items) }⟩

end PfbArbResampler

/-- A block with what it consumed and produced of a stream. -/
structure PfbArbSession (M : Type) where
  block : PfbArbResampler
  consumed : ℕ
  out : List M

namespace PfbArbResampler

/-- A call sees the stream from the first item that is not consumed. -/
def work (N_UNROLL : ℕ) (x : ℕ → M) (s : PfbArbSession M) (call : PfbArbCall) :
    Option (PfbArbWork M) :=
  s.block.generalWork N_UNROLL (call.noutput_items + 2)
    ((List.range call.ninput_items).map fun k => x (s.consumed + k)) call.noutput_items

def serve (N_UNROLL : ℕ) (x : ℕ → M) (s : PfbArbSession M) (call : PfbArbCall) :
    Option (PfbArbSession M) :=
  (work N_UNROLL x s call).map fun work =>
    ⟨work.block, s.consumed + work.consumed.toNat, s.out ++ work.out⟩

/-- Where the block takes output `m`: an item, a filter and an accumulator. -/
def place (block : PfbArbResampler) : ℕ → ℕ × ℕ × ℚ
  | 0 => (0, 0, 0)
  | m + 1 =>
      let (item, filter, acc) := block.place m
      let j := (filter + (block.d_dec_rate + ⌊acc + block.d_flt_rate⌋.toNat)) % 2 ^ 32
      (item + j / block.d_int_rate, j % block.d_int_rate, Int.fract (acc + block.d_flt_rate))

/-- Output `m`. -/
def output (block : PfbArbResampler) (N_UNROLL : ℕ) (x : ℕ → M) (m : ℕ) : M :=
  let (item, filter, acc) := block.place m
  (block.d_filters.getD filter (GrFir.setTaps [])).filter N_UNROLL (offset x item) +
    acc • (block.d_diff_filters.getD filter (GrFir.setTaps [])).filter N_UNROLL (offset x item)

/-- The item counts of a call fit an `int`. -/
def Fits (block : PfbArbResampler) (call : PfbArbCall) : Prop :=
  call.ninput_items + block.d_dec_rate / block.d_int_rate ≤ intMax + block.d_taps_per_filter

/-- A call keeps to what it is given. -/
structure Respects (block : PfbArbResampler) (call : PfbArbCall) (work : PfbArbWork M) : Prop where
  filters : ∀ use ∈ work.uses, use.1 < block.d_int_rate ∧ 0 ≤ use.2 ∧ use.2 < 1
  consumed : 0 ≤ work.consumed ∧ work.consumed ≤ call.ninput_items
  written : work.returned = work.out.length ∧ work.out.length ≤ call.noutput_items

/-! ## A round -/

/-- What the loops rely on: filters of the same length and a rest below one. -/
structure Ready (block : PfbArbResampler) : Prop where
  nonempty : 0 < block.d_int_rate
  filters : ∀ j < block.d_int_rate, ∃ fir, block.d_filters[j]? = some fir ∧
    fir.ntaps = block.d_taps_per_filter
  diff_filters : ∀ j < block.d_int_rate, ∃ fir, block.d_diff_filters[j]? = some fir ∧
    fir.ntaps = block.d_taps_per_filter
  rest : 0 ≤ block.d_flt_rate ∧ block.d_flt_rate < 1

/-- The variables of a call that begins with output `first`, when `consumed` items are gone. -/
structure Stands (block : PfbArbResampler) (N_UNROLL : ℕ) (x : ℕ → M) (consumed first : ℕ)
    (s : PfbArbLoop M) : Prop where
  count : 0 ≤ s.count
  place : (consumed + s.count.toNat + s.j / block.d_int_rate, s.j % block.d_int_rate, s.d_acc) =
    block.place (first + s.i)
  stride : s.j ≤ block.d_int_rate + block.d_dec_rate
  acc : 0 ≤ s.d_acc ∧ s.d_acc < 1
  out : s.out = (List.range s.i).map fun k => block.output N_UNROLL x (first + k)
  uses : ∀ use ∈ s.uses, use.1 < block.d_int_rate ∧ 0 ≤ use.2 ∧ use.2 < 1

variable {block : PfbArbResampler} {N_UNROLL : ℕ} {x : ℕ → M} {consumed first n : ℕ}
  {s : PfbArbLoop M}

omit [Module ℚ M] in
theorem getD_window (x : ℕ → M) (consumed : ℕ) {k : ℕ} (inside : k < n) :
    ((List.range n).map fun k => x (consumed + k)).getD k 0 = x (consumed + k) := by
  rw [List.getD_eq_getElem?_getD, List.getElem?_map, List.getElem?_range inside]
  rfl

theorem filter_window (N_UNROLL : ℕ) {fir : GrFir ℚ} (x : ℕ → M) (consumed : ℕ) {count : ℕ}
    (inside : count + fir.ntaps ≤ n) :
    fir.filter N_UNROLL (offset
      (((List.range n).map fun k => x (consumed + k)).getD · 0) count) =
      fir.filter N_UNROLL (offset x (consumed + count)) := by
  refine GrFir.filter_congr N_UNROLL fun t less => ?_
  rw [offset, offset, getD_window x consumed (by omega), Nat.add_assoc]

theorem Stands.produce (ready : block.Ready) (stands : block.Stands N_UNROLL x consumed first s)
    (filter : s.j < block.d_int_rate) (items : s.count + block.d_taps_per_filter ≤ n) :
    ∃ after, block.produce N_UNROLL ((List.range n).map fun k => x (consumed + k)) s =
        some after ∧ block.Stands N_UNROLL x consumed first after ∧ after.i = s.i + 1 ∧
        after.count = s.count := by
  obtain ⟨fir, here, ntaps⟩ := ready.filters s.j filter
  obtain ⟨diff, there, ntaps'⟩ := ready.diff_filters s.j filter
  obtain ⟨count, counted⟩ := Int.eq_ofNat_of_zero_le stands.count
  have place := stands.place
  rw [Nat.mod_eq_of_lt filter, Nat.div_eq_of_lt filter, Nat.add_zero, counted,
    Int.toNat_natCast] at place
  have inside : 0 ≤ s.count ∧ s.count + fir.ntaps ≤ n ∧ s.count + diff.ntaps ≤ n := by
    rw [ntaps, ntaps']
    exact ⟨stands.count, items, items⟩
  have given : ((List.range n).map fun k => x (consumed + k)).length = n := by
    rw [List.length_map, List.length_range]
  have value : block.output N_UNROLL x (first + s.i) =
      fir.filter N_UNROLL (offset x (consumed + count)) +
        s.d_acc • diff.filter N_UNROLL (offset x (consumed + count)) := by
    rw [output, ← place]
    dsimp only
    rw [List.getD_eq_getElem?_getD, List.getD_eq_getElem?_getD, here, there, Option.getD_some,
      Option.getD_some]
  have step : (⌊s.d_acc + block.d_flt_rate⌋).toNat ≤ 1 := by
    have below : s.d_acc + block.d_flt_rate < 2 := by linarith [stands.acc.2, ready.rest.2]
    have floor : ⌊s.d_acc + block.d_flt_rate⌋ < 2 := Int.floor_lt.mpr (by exact_mod_cast below)
    omega
  have produced : block.produce N_UNROLL ((List.range n).map fun k => x (consumed + k)) s = some {
      i := s.i + 1
      count := s.count
      j := (s.j + (block.d_dec_rate + ⌊s.d_acc + block.d_flt_rate⌋.toNat)) % 2 ^ 32
      d_acc := Int.fract (s.d_acc + block.d_flt_rate)
      out := s.out ++ [block.output N_UNROLL x (first + s.i)]
      uses := s.uses ++ [(s.j, s.d_acc)] } := by
    simp only [PfbArbResampler.produce, here, there, Option.bind_eq_bind, Option.bind_some, given]
    rw [if_pos inside, value, counted, Int.toNat_natCast, filter_window, filter_window]
    · omega
    · omega
  refine ⟨_, produced, ?_, rfl, rfl⟩
  exact
    { count := stands.count
      place := by
        change _ = block.place (first + s.i + 1)
        rw [PfbArbResampler.place, ← place, counted, Int.toNat_natCast]
      stride := by
        have wrapped := Nat.mod_le
          (s.j + (block.d_dec_rate + ⌊s.d_acc + block.d_flt_rate⌋.toNat)) (2 ^ 32)
        dsimp only
        omega
      acc := ⟨Int.fract_nonneg _, Int.fract_lt_one _⟩
      out := by
        rw [stands.out, List.range_succ, List.map_append]
        rfl
      uses := fun use member => by
        rcases List.mem_append.mp member with old | new
        · exact stands.uses use old
        · rw [List.mem_singleton.mp new]
          exact ⟨filter, stands.acc⟩ }

theorem Stands.inner (ready : block.Ready) (room : ℕ)
    (stands : block.Stands N_UNROLL x consumed first s)
    (items : s.count + block.d_taps_per_filter ≤ n) :
    ∃ after, block.inner N_UNROLL ((List.range n).map fun k => x (consumed + k)) room s =
        some after ∧ block.Stands N_UNROLL x consumed first after ∧ after.count = s.count ∧
        s.i ≤ after.i ∧ after.i ≤ s.i + room ∧
        (after.i = s.i + room ∨ block.d_int_rate ≤ after.j) ∧
        (s.j < block.d_int_rate → 0 < room → s.i < after.i) := by
  induction room generalizing s with
  | zero =>
    exact ⟨s, rfl, stands, rfl, Nat.le_refl _, Nat.le_refl _, Or.inl rfl,
      fun _ none => absurd none (Nat.lt_irrefl 0)⟩
  | succ room ih =>
    rw [PfbArbResampler.inner]
    by_cases filter : s.j < block.d_int_rate
    · obtain ⟨next, produced, stands', one, count⟩ := stands.produce ready filter items
      rw [if_pos filter, produced, Option.bind_some]
      obtain ⟨after, looped, last, same, low, high, ends, -⟩ := ih stands' (count ▸ items)
      refine ⟨after, looped, last, same.trans count, by omega, by omega, ?_, fun _ _ => by omega⟩
      rcases ends with full | done
      · left
        omega
      · exact Or.inr done
    · rw [if_neg filter]
      exact ⟨s, rfl, stands, rfl, Nat.le_refl _, Nat.le_add_right _ _, Or.inr (by omega),
        fun here => absurd here filter⟩

theorem Stands.skip (ready : block.Ready) (stands : block.Stands N_UNROLL x consumed first s)
    (fits : s.count + 1 + (block.d_dec_rate / block.d_int_rate : ℕ) ≤ intMax) :
    ∃ after, block.skip s = some after ∧ block.Stands N_UNROLL x consumed first after ∧
      after.i = s.i ∧ after.j < block.d_int_rate := by
  obtain ⟨count, counted⟩ := Int.eq_ofNat_of_zero_le stands.count
  have skipped : s.j / block.d_int_rate ≤ 1 + block.d_dec_rate / block.d_int_rate := by
    refine Nat.le_trans (Nat.div_le_div_right stands.stride) (Nat.le_of_eq ?_)
    rw [Nat.add_comm, Nat.add_div_right _ ready.nonempty, Nat.add_comm]
  have small : count + s.j / block.d_int_rate ≤ intMax := by omega
  have converted : (BitVec.ofNat 32 (s.j / block.d_int_rate)).toInt =
      (s.j / block.d_int_rate : ℕ) := by
    rw [intMax] at small
    rw [BitVec.toInt_eq_toNat_of_lt, BitVec.toNat_ofNat, Nat.mod_eq_of_lt (by omega)]
    rw [BitVec.toNat_ofNat, Nat.mod_eq_of_lt (by omega)]
    omega
  have sum : asInt (s.count + (s.j / block.d_int_rate : ℕ)) =
      .ok ((count + s.j / block.d_int_rate : ℕ) : Int) := by
    rw [counted, ← Int.natCast_add]
    exact asInt_natCast small
  have inside : s.j % block.d_int_rate < block.d_int_rate := Nat.mod_lt _ ready.nonempty
  refine ⟨{ s with
    count := (count + s.j / block.d_int_rate : ℕ)
    j := s.j % block.d_int_rate }, ?_, ?_, rfl, inside⟩
  · rw [PfbArbResampler.skip]
    simp only [converted, sum, Except.toOption, Option.bind_eq_bind, Option.bind_some]
  · exact
      { count := Int.natCast_nonneg _
        place := by
          dsimp only
          rw [Int.toNat_natCast, Nat.div_eq_of_lt inside, Nat.mod_mod, Nat.add_zero,
            ← stands.place, counted, Int.toNat_natCast, Nat.add_assoc]
        stride := by
          dsimp only
          omega
        acc := stands.acc
        out := stands.out
        uses := stands.uses }

variable {noutput_items filter_size : ℕ} {rate : ℚ} {taps : List ℚ} {made : PfbArbResampler}

theorem outer_done {input : List M} {fuel : ℕ} {max_input : Int}
    (ends : ¬(s.i < noutput_items ∧ s.count < max_input)) (some : 0 < fuel) :
    block.outer N_UNROLL input noutput_items max_input fuel s = Option.some s := by
  obtain ⟨fuel, rfl⟩ := Nat.exists_eq_succ_of_ne_zero some.ne'
  rw [PfbArbResampler.outer, if_neg ends]

/-- The outer loop needs a round more when it begins between two items. -/
theorem Stands.outer (ready : block.Ready) {fuel : ℕ}
    (stands : block.Stands N_UNROLL x consumed first s) (room : s.i ≤ noutput_items)
    (enough : noutput_items - s.i + (if s.j < block.d_int_rate then 0 else 1) < fuel)
    (fits : n + block.d_dec_rate / block.d_int_rate ≤ intMax + block.d_taps_per_filter) :
    ∃ after, block.outer N_UNROLL ((List.range n).map fun k => x (consumed + k)) noutput_items
        ((n : Int) - block.d_taps_per_filter) fuel s = some after ∧
      block.Stands N_UNROLL x consumed first after ∧ after.i ≤ noutput_items := by
  induction fuel generalizing s with
  | zero => omega
  | succ fuel ih =>
    rw [PfbArbResampler.outer]
    by_cases more : s.i < noutput_items ∧ s.count < (n : Int) - block.d_taps_per_filter
    · obtain ⟨next, looped, stands', count, low, high, ends, progress⟩ :=
        stands.inner (n := n) ready (noutput_items - s.i) (by omega)
      rw [if_pos more, looped, Option.bind_eq_bind, Option.bind_some]
      by_cases unfinished : next.i < noutput_items
      · obtain ⟨after, skipped, stands'', same, filter⟩ := stands'.skip ready (by omega)
        rw [if_pos unfinished, skipped, Option.bind_some]
        refine ih stands'' (by omega) ?_
        rw [if_pos filter, same]
        split at enough
        · rename_i here
          have further := progress here (by omega)
          omega
        · omega
      · have full : next.i = noutput_items := by omega
        have last : ¬(next.i < noutput_items ∧
            next.count < (n : Int) - block.d_taps_per_filter) := fun both => unfinished both.1
        rw [if_neg unfinished, Option.bind_some]
        exact ⟨next, outer_done last (by omega), stands', by omega⟩
    · rw [if_neg more]
      exact ⟨s, rfl, stands, room⟩

/-! ## Calls one after another -/

/-- The block with what another has changed in its calls. -/
def carried (made block : PfbArbResampler) : PfbArbResampler :=
  { made with
    d_updated := block.d_updated
    d_acc := block.d_acc
    d_last_filter := block.d_last_filter
    d_start_index := block.d_start_index }

theorem place_carried (made block : PfbArbResampler) (m : ℕ) :
    (made.carried block).place m = made.place m := by
  induction m with
  | zero => rfl
  | succ m ih =>
    rw [PfbArbResampler.place, ih]
    rfl

theorem output_carried (made block : PfbArbResampler) (N_UNROLL : ℕ) (x : ℕ → M) (m : ℕ) :
    (made.carried block).output N_UNROLL x m = made.output N_UNROLL x m := by
  rw [output, place_carried]
  rfl

/-- What holds between two calls. -/
structure Served (made : PfbArbResampler) (N_UNROLL : ℕ) (x : ℕ → M) (s : PfbArbSession M) :
    Prop where
  same : s.block = made.carried s.block
  start : 0 ≤ s.block.d_start_index
  place : (s.consumed + s.block.d_start_index.toNat + s.block.d_last_filter / made.d_int_rate,
    s.block.d_last_filter % made.d_int_rate, s.block.d_acc) = made.place s.out.length
  stride : s.block.d_last_filter ≤ made.d_int_rate + made.d_dec_rate
  acc : 0 ≤ s.block.d_acc ∧ s.block.d_acc < 1
  out : s.out = (List.range s.out.length).map (made.output N_UNROLL x)

theorem length_createDiffTaps {newtaps : List ℚ} (some : newtaps ≠ []) (tap : ℚ) :
    (createDiffTaps newtaps tap).length = newtaps.length := by
  have rounds : ∀ m, ((List.range m).foldl (fun (s : List ℚ × ℚ) i =>
      let tap := newtaps.getD (i + 1) 0 - newtaps.getD i 0
      (s.1 ++ [tap], tap)) ([], tap)).1.length = m := by
    intro m
    induction m with
    | zero => rfl
    | succ m ih =>
      rw [List.range_succ, List.foldl_append, List.foldl_cons, List.foldl_nil]
      dsimp only
      rw [List.length_append, ih, List.length_singleton]
  have positive := List.length_pos_iff.mpr some
  have whole := rounds (newtaps.length - 1)
  unfold createDiffTaps
  dsimp only at whole ⊢
  rw [List.length_append, whole, List.length_singleton]
  omega

theorem served_make {tap : ℚ} (positive : 0 < rate)
    (constructed : make rate taps filter_size tap = .ok made) (N_UNROLL : ℕ) (x : ℕ → M) :
    made.Ready ∧ Served made N_UNROLL x ⟨made, 0, []⟩ := by
  rw [make] at constructed
  split at constructed
  · cases constructed
  · rename_i fine
    obtain rfl := Except.ok.inj constructed
    have nonempty : 0 < filter_size := Nat.pos_of_ne_zero fun none => fine (Or.inl none)
    have stride : (0 : ℚ) ≤ filter_size / rate := div_nonneg (Nat.cast_nonneg _) positive.le
    have whole : ((⌊(filter_size : ℚ) / rate⌋.toNat : ℕ) : ℚ) = ⌊(filter_size : ℚ) / rate⌋ := by
      have cast : ((⌊(filter_size : ℚ) / rate⌋.toNat : ℕ) : Int) = ⌊(filter_size : ℚ) / rate⌋ :=
        Int.toNat_of_nonneg (Int.floor_nonneg.mpr stride)
      exact_mod_cast cast
    have length : (createDiffTaps taps tap).length = taps.length :=
      length_createDiffTaps (fun none => fine (Or.inr (Or.inl none))) tap
    constructor
    · exact
        { nonempty := nonempty
          filters := fun j inside => by
            rw [length]
            exact partitionTaps_filters taps inside
          diff_filters := fun j inside => partitionTaps_filters _ inside
          rest := by
            dsimp only
            rw [whole]
            exact ⟨Int.fract_nonneg _, Int.fract_lt_one _⟩ }
    · exact
        { same := rfl
          start := Int.le_refl 0
          place := by simp [PfbArbResampler.place]
          stride := Nat.zero_le _
          acc := ⟨le_refl _, zero_lt_one⟩
          out := rfl }

theorem ready_carried (ready : made.Ready) (block : PfbArbResampler) : (made.carried block).Ready :=
  ⟨ready.nonempty, ready.filters, ready.diff_filters, ready.rest⟩

theorem carried_congr {other : PfbArbResampler} (same : block = made.carried block)
    (later : other = block.carried other) : other = made.carried other := by
  rw [same] at later
  exact later

theorem Served.call_running (ready : made.Ready) {s : PfbArbSession M}
    (served : made.Served N_UNROLL x s) (running : s.block.d_updated = false) {call : PfbArbCall}
    (fits : made.Fits call) :
    ∃ done, work N_UNROLL x s call = some done ∧ made.Respects call done ∧
      made.Served N_UNROLL x
        ⟨done.block, s.consumed + done.consumed.toNat, s.out ++ done.out⟩ := by
  have ready' : s.block.Ready := by
    rw [served.same]
    exact ready_carried ready s.block
  have places : ∀ m, s.block.place m = made.place m := by
    intro m
    rw [served.same]
    exact place_carried made s.block m
  have outputs : ∀ m, s.block.output N_UNROLL x m = made.output N_UNROLL x m := by
    intro m
    rw [served.same]
    exact output_carried made s.block N_UNROLL x m
  have int_rate : s.block.d_int_rate = made.d_int_rate := by
    rw [served.same]
    rfl
  have dec_rate : s.block.d_dec_rate = made.d_dec_rate := by
    rw [served.same]
    rfl
  have taps : s.block.d_taps_per_filter = made.d_taps_per_filter := by
    rw [served.same]
    rfl
  have begins : s.block.Stands N_UNROLL x s.consumed s.out.length
      ⟨0, s.block.d_start_index, s.block.d_last_filter, s.block.d_acc, [], []⟩ :=
    { count := served.start
      place := by
        rw [int_rate, places]
        exact served.place
      stride := by
        rw [int_rate, dec_rate]
        exact served.stride
      acc := served.acc
      out := rfl
      uses := fun use member => absurd member List.not_mem_nil }
  have given : ((List.range call.ninput_items).map fun k => x (s.consumed + k)).length =
      call.ninput_items := by
    rw [List.length_map, List.length_range]
  obtain ⟨after, looped, stands, room⟩ := begins.outer (n := call.ninput_items) ready'
    (Nat.zero_le call.noutput_items)
    (show _ < call.noutput_items + 2 by
      dsimp only
      split <;> omega)
    (by
      rw [int_rate, dec_rate, taps]
      exact fits)
  obtain ⟨count, counted⟩ := Int.eq_ofNat_of_zero_le stands.count
  have length : after.out.length = after.i := by
    rw [stands.out, List.length_map, List.length_range]
  have worked : work N_UNROLL x s call = some ⟨after.out, after.uses,
      min after.count call.ninput_items, after.i, { s.block with
        d_acc := after.d_acc
        d_last_filter := after.j
        d_start_index := max 0 (after.count - call.ninput_items) }⟩ := by
    rw [work, generalWork, if_neg (by simp [running]), given]
    dsimp only
    rw [looped, Option.map_some]
  refine ⟨_, worked, ?_, ?_⟩
  · exact
      { filters := int_rate ▸ stands.uses
        consumed := by
          dsimp only
          omega
        written := ⟨length.symm, length ▸ room⟩ }
  · exact
      { same := carried_congr served.same rfl
        start := Int.le_max_left 0 _
        place := by
          have position : s.consumed + (min after.count (call.ninput_items : Int)).toNat +
              (max 0 (after.count - (call.ninput_items : Int))).toNat =
                s.consumed + after.count.toNat := by
            omega
          dsimp only
          rw [position, ← int_rate, stands.place, places, List.length_append, length]
        stride := by
          rw [← int_rate, ← dec_rate]
          exact stands.stride
        acc := stands.acc
        out := by
          dsimp only
          rw [List.length_append, List.range_add, List.map_append, ← served.out, length,
            stands.out, List.map_map]
          congr 1
          exact List.map_congr_left fun k _ => outputs _ }

theorem Served.call {made : PfbArbResampler} (ready : made.Ready) {s : PfbArbSession M}
    (served : made.Served N_UNROLL x s) {call : PfbArbCall} (fits : made.Fits call) :
    ∃ done, work N_UNROLL x s call = some done ∧ made.Respects call done ∧
      made.Served N_UNROLL x
        ⟨done.block, s.consumed + done.consumed.toNat, s.out ++ done.out⟩ := by
  cases updated : s.block.d_updated with
  | true =>
    refine ⟨⟨[], [], 0, 0, { s.block with d_updated := false }⟩, ?_, ?_, ?_⟩
    · rw [work, generalWork, if_pos updated]
    · exact
        { filters := fun use member => absurd member List.not_mem_nil
          consumed := ⟨Int.le_refl 0, Int.natCast_nonneg _⟩
          written := ⟨rfl, Nat.zero_le _⟩ }
    · rw [List.append_nil]
      exact
        { same := carried_congr served.same rfl
          start := served.start
          place := served.place
          stride := served.stride
          acc := served.acc
          out := served.out }
  | false => exact served.call_running ready updated fits

theorem make_total (filters : filter_size ≠ 0) (some : taps ≠ [])
    (stride : ⌊filter_size / rate⌋ < 2 ^ 32) (tap : ℚ) :
    ∃ made, make rate taps filter_size tap = .ok made := by
  refine ⟨_, if_neg ?_⟩
  rintro (none | none | beyond)
  · exact filters none
  · exact some none
  · exact absurd stride (not_lt.mpr beyond)

theorem fits_of_one_le (raises : 1 ≤ rate) {tap : ℚ}
    (constructed : make rate taps filter_size tap = .ok made) {call : PfbArbCall}
    (items : call.ninput_items ≤ intMax) : made.Fits call := by
  rw [make] at constructed
  split at constructed
  · cases constructed
  · rename_i fine
    obtain rfl := Except.ok.inj constructed
    have nonempty : 0 < filter_size := Nat.pos_of_ne_zero fun none => fine (Or.inl none)
    have differences := length_createDiffTaps (fun none => fine (Or.inr (Or.inl none))) tap
    have some : 0 < (createDiffTaps taps tap).length := by
      rw [differences]
      exact List.length_pos_iff.mpr fun none => fine (Or.inr (Or.inl none))
    have slow : ⌊(filter_size : ℚ) / rate⌋ ≤ filter_size := by
      have less : (filter_size : ℚ) / rate ≤ filter_size :=
        div_le_self (Nat.cast_nonneg _) raises
      have floor := Int.floor_le_floor less
      rwa [Int.floor_natCast] at floor
    have step : ⌊(filter_size : ℚ) / rate⌋.toNat / filter_size ≤ 1 := by
      have less : ⌊(filter_size : ℚ) / rate⌋.toNat ≤ filter_size := by omega
      calc ⌊(filter_size : ℚ) / rate⌋.toNat / filter_size ≤ filter_size / filter_size :=
            Nat.div_le_div_right less
        _ = 1 := Nat.div_self nonempty
    have tapped : 1 ≤ tapsPerFilter (createDiffTaps taps tap).length filter_size := by
      rw [tapsPerFilter, Nat.one_le_ceil_iff]
      positivity
    rw [Fits]
    dsimp only
    omega

/-- However a stream is split into calls, the outputs are the beginning of one sequence. -/
theorem chunks_agree {rate : ℚ} (positive : 0 < rate) {taps : List ℚ} {filter_size : ℕ} {tap : ℚ}
    {made : PfbArbResampler} (constructed : make rate taps filter_size tap = .ok made)
    (N_UNROLL : ℕ) (x : ℕ → M) {calls : List PfbArbCall}
    (fits : ∀ call ∈ calls, made.Fits call) :
    ∃ s, run (serve N_UNROLL x) ⟨made, 0, []⟩ calls = some s ∧
      s.out = (List.range s.out.length).map (made.output N_UNROLL x) ∧
      ∀ call, made.Fits call →
        ∃ done, work N_UNROLL x s call = some done ∧ made.Respects call done := by
  obtain ⟨ready, initial⟩ := served_make positive constructed N_UNROLL x
  have met : Throughout (fun _ call => made.Fits call) (serve N_UNROLL x)
      (⟨made, 0, []⟩ : PfbArbSession M) calls :=
    Throughout.of_mem (fun call member _ => fits call member) _
  obtain ⟨s, ran, served⟩ := run_defined (fun _ s => made.Served N_UNROLL x s) initial
    (fun _ s call _ served fits => by
      obtain ⟨done, worked, -, next⟩ := served.call ready fits
      exact ⟨_, by rw [serve, worked, Option.map_some], next⟩) met
  refine ⟨s, ran, served.out, fun call fits => ?_⟩
  obtain ⟨done, worked, respects, -⟩ := served.call ready fits
  exact ⟨done, worked, respects⟩

/-- Two filters at one and a half times the rate. -/
theorem chunks_agree_two : ∃ made, make (3 / 2) [1, 2, 3] 2 0 = .ok made ∧
    ∃ s, run (serve 4 fun k => (k : ℚ)) ⟨made, 0, []⟩ [⟨5, 2⟩, ⟨6, 4⟩, ⟨7, 9⟩] = some s ∧
      s.out = (List.range s.out.length).map (made.output 4 fun k => (k : ℚ)) ∧
      ∀ call, made.Fits call → ∃ done, work 4 (fun k => (k : ℚ)) s call = some done ∧
        made.Respects call done := by
  obtain ⟨made, constructed⟩ : ∃ made, make (3 / 2) [1, 2, 3] 2 0 = .ok made :=
    make_total (by decide) (by decide) (by norm_num [Int.floor_lt]) 0
  have small : ∀ call ∈ [(⟨5, 2⟩ : PfbArbCall), ⟨6, 4⟩, ⟨7, 9⟩], call.ninput_items ≤ intMax := by
    decide
  exact ⟨made, constructed, chunks_agree (by norm_num) constructed 4 (fun k => (k : ℚ))
    fun call member => fits_of_one_le (by norm_num) constructed (small call member)⟩

/-- With one filter and a rate of `2 ^ -31` the skip count is negative as an `int`: the second
output would be taken from before the input. -/
theorem chunks_leave_input :
    ((make (1 / 2 ^ 31) [1] 1 0).toOption.map fun made => (made.d_history,
      (run (serve 4 fun _ => (1 : ℚ)) ⟨made, 0, []⟩ [⟨3, 2⟩]).map fun s =>
        (work 4 (fun _ => (1 : ℚ)) s ⟨3, 2⟩).isNone)) = some (2, some true) := by
  decide +kernel

end PfbArbResampler

end GnuRadio
