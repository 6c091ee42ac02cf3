import GnuRadio.Misc.Except
import GnuRadio.Misc.Trace
import GnuRadio.Runtime.Types
import Mathlib.Order.Lattice.Nat
import Mathlib.Tactic.Positivity
import Mathlib.Tactic.Ring

/-!
# Alignment on sample numbers

`gr_align_on_samplenumbers_ss` skips groups of samples until the counters in them are the same on
all inputs. The number of items to skip is the lead of the furthest input times the size of a
group, in `int` arithmetic.
-/

namespace GnuRadio

/-- What the constructor of `gr_align_on_samplenumbers_ss` sets, with the output multiple. The code
    without `ALIGN_ADVANCED_IMPLEMENTATION` keeps nothing else from call to call. -/
structure GrAlignOnSamplenumbersSs where
  d_nchan : ℕ
  output_multiple : ℕ

namespace GrAlignOnSamplenumbersSs

/-- The constructor (`gr_align_on_samplenumbers_ss.cc:54-69`). -/
def make (nchan : ℕ) (align_interval : ℤ) : Except CppException GrAlignOnSamplenumbersSs := do
  let multiple ← asInt (if align_interval < 0 then nchan * 2 else align_interval * nchan * 2)
  if multiple < 1 then .error (.invalidArgument "gr_block::set_output_multiple")
  else return ⟨nchan, multiple.toNat⟩

/-- `forecast` (`gr_align_on_samplenumbers_ss.cc:75-82`), the same for each input; the history
    is 1. -/
def forecast (block : GrAlignOnSamplenumbersSs) (noutput_items : ℕ) : Except CppException ℤ := do
  let asked ← asInt (noutput_items * block.d_nchan * 2)
  let least ← asInt (1024 * block.d_nchan * 2)
  return max asked least

/-- The counter at a place of an input. -/
def counter (uin : ℕ → BitVec 16) (place : ℕ) : BitVec 32 :=
  ((uin place).setWidth 32 <<< 16) ||| (uin (place + 1)).setWidth 32

/-- `common_end` (`gr_align_on_samplenumbers_ss.cc:322-354`). -/
def commonEnd (block : GrAlignOnSamplenumbersSs) (noutput_items ninputs : ℕ)
    (ninput_items : ℕ → ℕ) : ℕ :=
  (List.range ninputs).foldl (fun common_end i => min (ninput_items i) common_end) noutput_items /
    (block.d_nchan * 2) * (block.d_nchan * 2)

/-- `d_state[i].diff_end+diff_comp_end_max` (`gr_align_on_samplenumbers_ss.cc:365-377`). -/
def lead (ninputs : ℕ) (ucounter_end : ℕ → BitVec 32) (i : ℕ) : ℤ :=
  (ucounter_end 0 - ucounter_end i).toInt + (List.range ninputs).foldl
    (fun most k => max (ucounter_end k - ucounter_end 0).toInt most) 0

/-- A value of type `int`. -/
def IsInt (x : ℤ) : Prop := -2147483648 ≤ x ∧ x ≤ 2147483647

instance (x : ℤ) : Decidable (IsInt x) := inferInstanceAs (Decidable (_ ∧ _))

/-- `general_work` (`gr_align_on_samplenumbers_ss.cc:303-463`) without its messages: what is
    consumed on each input, and the number of items that each output gets from its input. -/
def generalWork (block : GrAlignOnSamplenumbersSs) (noutput_items ninputs : ℕ)
    (ninput_items : ℕ → ℕ) (input_items : ℕ → ℕ → BitVec 16) :
    Except CppException ((ℕ → ℤ) × ℕ) :=
  let group := block.d_nchan * 2
  let common_end := block.commonEnd noutput_items ninputs ninput_items
  -- without a whole group `common_last` is negative
  if common_end < group then .error .undefinedBehaviour
  else
    let common_last := common_end - group
    let ucounter_begin i := counter (input_items i) 0
    let ucounter_end i := counter (input_items i) common_last
    let sync_found := ∃ i < ninputs,
      ucounter_end i < ucounter_begin i + BitVec.ofNat 32 (common_last / group) ∨
        ucounter_end i = 0 ∨ ucounter_begin i = 0
    let all_diffs_zero := ∀ i < ninputs, (ucounter_end 0 - ucounter_end i).toInt = 0
    if ∃ i < ninputs, ¬ IsInt (lead ninputs ucounter_end i) then .error .undefinedBehaviour
    else if sync_found ∨ all_diffs_zero ∨
        ∃ i < ninputs, 0x4000000 < lead ninputs ucounter_end i then
      .ok (fun _ => common_end, common_end)
    else if ∃ i < ninputs, ¬ IsInt (lead ninputs ucounter_end i * block.d_nchan * 2) then
      .error .undefinedBehaviour
    else
      .ok (fun i => (min (lead ninputs ucounter_end i * block.d_nchan * 2)
        (ninput_items i)).tdiv group * group, 0)

/-! ## Runs -/

/-- `noutput_items` and `ninput_items` of a call. -/
structure Call where
  noutput_items : ℕ
  ninput_items : ℕ → ℕ

/-- What a call found on its inputs, consumed and put out. -/
structure Done where
  ninput_items : ℕ → ℕ
  consumes : ℕ → ℤ
  produced : ℕ

/-- A call consumes whole groups that are there, and gets on. -/
structure Done.Steady (ninputs group : ℕ) (d : Done) : Prop where
  consumes : ∀ i < ninputs,
    0 ≤ d.consumes i ∧ (group : ℤ) ∣ d.consumes i ∧ d.consumes i ≤ d.ninput_items i
  advances : 0 < d.produced ∨ ∃ i < ninputs, 0 < d.consumes i

/-- What has been consumed and put out, and the calls so far. -/
structure Session where
  consumed : ℕ → ℕ
  out : ℕ → List (BitVec 16)
  done : List Done

def start : Session := ⟨fun _ => 0, fun _ => [], []⟩

variable (block : GrAlignOnSamplenumbersSs) (ninputs : ℕ) (x : ℕ → ℕ → BitVec 16)

/-- A call on the streams `x`; negative numbers of items are not consumed. -/
def serve (s : Session) (call : Call) : Option Session :=
  match block.generalWork call.noutput_items ninputs call.ninput_items
      (fun i j => x i (s.consumed i + j)) with
  | .ok (consumes, produced) => some {
      consumed := fun i => s.consumed i + (consumes i).toNat
      out := fun i => s.out i ++ (List.range produced).map fun j => x i (s.consumed i + j)
      done := s.done ++ [⟨call.ninput_items, consumes, produced⟩] }
  | .error _ => none

/-- The calls that the scheduler makes, where `length i` items come on input `i`. -/
def Allowed (length : ℕ → ℕ) (s : Session) (call : Call) : Prop :=
  0 < call.noutput_items ∧ block.output_multiple ∣ call.noutput_items ∧
    ∃ required, block.forecast call.noutput_items = .ok required ∧ ∀ i < ninputs,
      required ≤ call.ninput_items i ∧ s.consumed i + call.ninput_items i ≤ length i

/-- The counters increase by one for each group, do not wrap, and never are zero. -/
def Numbered (group : ℕ) (length first : ℕ → ℕ) : Prop :=
  ∀ i < ninputs, ∀ k, group * (k + 1) ≤ length i →
    (counter (x i) (group * k)).toNat = first i + k ∧ 0 < first i + k

/-- The largest start value. -/
def target (first : ℕ → ℕ) : ℕ := (Finset.range ninputs).sup first

/-- The groups before the largest start value are skipped, and those from there on are put out. -/
structure Aligned (group : ℕ) (first : ℕ → ℕ) (s : Session) : Prop where
  steady : ∀ d ∈ s.done, d.Steady ninputs group
  aligned : ∃ groups, ∀ i < ninputs,
    s.out i = (List.range (group * groups)).map
        (fun j => x i (group * (target ninputs first - first i) + j)) ∧
      (∀ g < groups, (counter (x i) (group * (target ninputs first - first i) + group * g)).toNat =
        target ninputs first + g) ∧
      if groups = 0 then s.consumed i ≤ group * (target ninputs first - first i)
      else s.consumed i = group * (target ninputs first - first i + groups)

/-! ## One call -/

variable {block ninputs x}

theorem foldl_min_spec (ninput_items : ℕ → ℕ) (noutput_items ninputs : ℕ) :
    let least := (List.range ninputs).foldl (fun c i => min (ninput_items i) c) noutput_items
    least ≤ noutput_items ∧ (∀ i < ninputs, least ≤ ninput_items i) ∧
      ∀ m ≤ noutput_items, (∀ i < ninputs, m ≤ ninput_items i) → m ≤ least := by
  induction ninputs with
  | zero => exact ⟨le_rfl, fun i none => absurd none (Nat.not_lt_zero i), fun m below _ => below⟩
  | succ n ih =>
    obtain ⟨below, each, greatest⟩ := ih
    rw [List.range_succ, List.foldl_append]
    refine ⟨(Nat.min_le_right ..).trans below, fun i inside => ?_, fun m low every => ?_⟩
    · rcases Nat.lt_succ_iff_lt_or_eq.mp inside with earlier | rfl
      · exact (Nat.min_le_right ..).trans (each i earlier)
      · exact Nat.min_le_left ..
    · exact Nat.le_min.mpr ⟨every n (Nat.lt_succ_self n),
        greatest m low fun i inside => every i (Nat.lt_succ_of_lt inside)⟩

theorem foldl_max_spec (d : ℕ → ℤ) (n : ℕ) :
    let most := (List.range n).foldl (fun m k => max (d k) m) 0
    (∀ i < n, d i ≤ most) ∧ (most = 0 ∨ ∃ i < n, most = d i) := by
  induction n with
  | zero => exact ⟨fun i none => absurd none (Nat.not_lt_zero i), .inl rfl⟩
  | succ n ih =>
    obtain ⟨each, reached⟩ := ih
    rw [List.range_succ, List.foldl_append]
    refine ⟨fun i inside => ?_, ?_⟩
    · rcases Nat.lt_succ_iff_lt_or_eq.mp inside with earlier | rfl
      · exact (each i earlier).trans (le_max_right ..)
      · exact le_max_left ..
    · rcases max_choice (d n) ((List.range n).foldl (fun m k => max (d k) m) 0) with last | before
      · exact .inr ⟨n, Nat.lt_succ_self n, last⟩
      · rcases reached with zero | ⟨i, inside, same⟩
        · exact .inl (before.trans zero)
        · exact .inr ⟨i, Nat.lt_succ_of_lt inside, before.trans same⟩

theorem toInt_sub_near {a b : BitVec 32} (near : a.toNat ≤ b.toNat + 2 ^ 26)
    (near' : b.toNat ≤ a.toNat + 2 ^ 26) : (a - b).toInt = (a.toNat : ℤ) - b.toNat := by
  have small := a.isLt
  rw [BitVec.toInt_eq_toNat_cond, BitVec.toNat_sub]
  omega

/-- A call on inputs whose first groups have the numbers `head`, at most `2 ^ 26` apart, the largest
    one being `most`. -/
structure Ready (block : GrAlignOnSamplenumbersSs) (noutput_items ninputs : ℕ)
    (ninput_items : ℕ → ℕ) (input_items : ℕ → ℕ → BitVec 16) (head : ℕ → ℕ) (most : ℕ) : Prop where
  positive : 0 < block.d_nchan
  output : block.d_nchan * 2 ≤ noutput_items
  input : ∀ i < ninputs, block.d_nchan * 2 ≤ ninput_items i
  numbered : Numbered ninputs input_items (block.d_nchan * 2) ninput_items head
  near : ∀ i < ninputs, ∀ j < ninputs, head i ≤ head j + 2 ^ 26
  below : ∀ i < ninputs, head i ≤ most
  reached : ∃ i < ninputs, head i = most

section Ready

variable {noutput_items most : ℕ} {ninput_items head : ℕ → ℕ} {input_items : ℕ → ℕ → BitVec 16}

theorem Ready.whole
    (ready : Ready block noutput_items ninputs ninput_items input_items head most) :
    ∃ q, block.commonEnd noutput_items ninputs ninput_items = block.d_nchan * 2 * (q + 1) ∧
      block.d_nchan * 2 * (q + 1) ≤ noutput_items ∧
      ∀ i < ninputs, block.d_nchan * 2 * (q + 1) ≤ ninput_items i := by
  obtain ⟨below, each, greatest⟩ := foldl_min_spec ninput_items noutput_items ninputs
  unfold commonEnd
  generalize (List.range ninputs).foldl (fun c i => min (ninput_items i) c) noutput_items = least
    at below each greatest
  have positive := ready.positive
  have some := Nat.div_pos (greatest _ ready.output ready.input) (by omega : 0 < block.d_nchan * 2)
  have rounded := Nat.mul_div_le least (block.d_nchan * 2)
  refine ⟨least / (block.d_nchan * 2) - 1, ?_, ?_, fun i inside => ?_⟩
  all_goals rw [Nat.sub_add_cancel some]
  · exact Nat.mul_comm ..
  · exact rounded.trans below
  · exact rounded.trans (each i inside)

variable {ends : ℕ → BitVec 32}

section

variable (ready : Ready block noutput_items ninputs ninput_items input_items head most)
include ready

theorem Ready.diff {q : ℕ} (ended : ∀ i < ninputs, (ends i).toNat = head i + q) {j k : ℕ}
    (first : j < ninputs) (second : k < ninputs) :
    (ends j - ends k).toInt = (head j : ℤ) - head k := by
  have close := ready.near j first k second
  have close' := ready.near k second j first
  rw [toInt_sub_near (by rw [ended j first, ended k second]; omega)
    (by rw [ended j first, ended k second]; omega), ended j first, ended k second]
  omega

theorem Ready.lead {q : ℕ} (ended : ∀ i < ninputs, (ends i).toNat = head i + q) {i : ℕ}
    (inside : i < ninputs) : lead ninputs ends i = (most : ℤ) - head i := by
  have zero : 0 < ninputs := Nat.zero_lt_of_lt inside
  obtain ⟨each, reached⟩ := foldl_max_spec (fun k => (ends k - ends 0).toInt) ninputs
  obtain ⟨top, topInside, highest⟩ := ready.reached
  have first := ready.below 0 zero
  have above := each top topInside
  rw [ready.diff ended topInside zero] at above
  have least := each 0 zero
  rw [ready.diff ended zero zero] at least
  rw [GrAlignOnSamplenumbersSs.lead, ready.diff ended zero inside]
  rcases reached with none | ⟨k, kInside, same⟩
  · omega
  · rw [ready.diff ended kInside zero] at same
    have bound := ready.below k kInside
    omega

/-- What a call does. -/
theorem Ready.work :
    ∃ q, ∃ ahead : ℕ → ℤ, block.d_nchan * 2 * (q + 1) ≤ noutput_items ∧
      (∀ i < ninputs, block.d_nchan * 2 * (q + 1) ≤ ninput_items i) ∧
      (∀ i < ninputs, ahead i = (most : ℤ) - head i) ∧
      block.generalWork noutput_items ninputs ninput_items input_items =
        if ∀ i < ninputs, head i = most then
          .ok (fun _ => (block.d_nchan * 2 * (q + 1) : ℕ), block.d_nchan * 2 * (q + 1))
        else if ∃ i < ninputs, ¬ IsInt (ahead i * block.d_nchan * 2) then
          .error .undefinedBehaviour
        else .ok (fun i => (min (ahead i * block.d_nchan * 2) (ninput_items i)).tdiv
          (block.d_nchan * 2) * (block.d_nchan * 2), 0) := by
  obtain ⟨q, whole, output, input⟩ := ready.whole
  have positive := ready.positive
  have last : block.d_nchan * 2 * (q + 1) - block.d_nchan * 2 = block.d_nchan * 2 * q := by
    rw [Nat.mul_succ, Nat.add_sub_cancel]
  have enough : ¬ block.d_nchan * 2 * (q + 1) < block.d_nchan * 2 :=
    Nat.not_lt.mpr (Nat.le_mul_of_pos_right _ (Nat.succ_pos q))
  have ended : ∀ i < ninputs,
      (counter (input_items i) (block.d_nchan * 2 * q)).toNat = head i + q ∧ 0 < head i + q :=
    fun i inside => ready.numbered i inside q (input i inside)
  have began : ∀ i < ninputs, (counter (input_items i) 0).toNat = head i ∧ 0 < head i :=
    fun i inside => ready.numbered i inside 0 (by simpa using ready.input i inside)
  have leads : ∀ i < ninputs, GrAlignOnSamplenumbersSs.lead ninputs
      (fun i => counter (input_items i) (block.d_nchan * 2 * q)) i = (most : ℤ) - head i :=
    fun i inside => ready.lead (fun i inside => (ended i inside).1) inside
  refine ⟨q, _, output, input, leads, ?_⟩
  have small : ¬ ∃ i < ninputs, ¬ IsInt (GrAlignOnSamplenumbersSs.lead ninputs
      (fun i => counter (input_items i) (block.d_nchan * 2 * q)) i) := by
    rintro ⟨i, inside, not⟩
    obtain ⟨top, topInside, rfl⟩ := ready.reached
    have close := ready.near top topInside i inside
    have below := ready.below i inside
    rw [leads i inside] at not
    exact not ⟨by omega, by omega⟩
  have copies : ((∃ i < ninputs, counter (input_items i) (block.d_nchan * 2 * q) <
          counter (input_items i) 0 +
            BitVec.ofNat 32 (block.d_nchan * 2 * q / (block.d_nchan * 2)) ∨
        counter (input_items i) (block.d_nchan * 2 * q) = 0 ∨ counter (input_items i) 0 = 0) ∨
      (∀ i < ninputs, (counter (input_items 0) (block.d_nchan * 2 * q) -
        counter (input_items i) (block.d_nchan * 2 * q)).toInt = 0) ∨
      ∃ i < ninputs, 0x4000000 < GrAlignOnSamplenumbersSs.lead ninputs
        (fun i => counter (input_items i) (block.d_nchan * 2 * q)) i) ↔
      ∀ i < ninputs, head i = most := by
    obtain ⟨top, topInside, highest⟩ := ready.reached
    have diff : ∀ {j k : ℕ}, j < ninputs → k < ninputs →
        (counter (input_items j) (block.d_nchan * 2 * q) -
          counter (input_items k) (block.d_nchan * 2 * q)).toInt = (head j : ℤ) - head k :=
      ready.diff fun i inside => (ended i inside).1
    constructor
    · rintro (⟨i, inside, wraps | zero | zero⟩ | zeros | ⟨i, inside, far⟩)
      · have fits := (counter (input_items i) (block.d_nchan * 2 * q)).isLt
        rw [Nat.mul_div_cancel_left q (by omega), BitVec.lt_def, BitVec.toNat_add,
          BitVec.toNat_ofNat, (began i inside).1, (ended i inside).1] at wraps
        rw [(ended i inside).1] at fits
        omega
      · have some := ended i inside
        rw [zero] at some
        exact absurd some.1 (by simpa using some.2.ne)
      · have some := began i inside
        rw [zero] at some
        exact absurd some.1 (by simpa using some.2.ne)
      · intro i inside
        have same := zeros i inside
        have same' := zeros top topInside
        rw [diff (Nat.zero_lt_of_lt inside) inside] at same
        rw [diff (Nat.zero_lt_of_lt inside) topInside] at same'
        omega
      · have close := ready.near top topInside i inside
        rw [leads i inside] at far
        omega
    · intro equal
      refine .inr (.inl fun i inside => ?_)
      rw [diff (Nat.zero_lt_of_lt inside) inside, equal i inside,
        equal 0 (Nat.zero_lt_of_lt inside), Int.sub_self]
  simp only [generalWork, whole, last, if_neg enough, if_neg small, copies]
  rfl

end

end Ready

/-! ## Calls one after another -/

variable {length first : ℕ → ℕ}

/-- What a flowgraph promises: the block has output multiple and inputs, and the streams count. -/
structure Setting (block : GrAlignOnSamplenumbersSs) (ninputs : ℕ) (x : ℕ → ℕ → BitVec 16)
    (length first : ℕ → ℕ) : Prop where
  positive : 0 < block.d_nchan
  multiple : block.d_nchan * 2 ∣ block.output_multiple
  some : 0 < ninputs
  numbered : Numbered ninputs x (block.d_nchan * 2) length first
  near : ∀ i < ninputs, ∀ j < ninputs, first i ≤ first j + 2 ^ 26

/-- So many groups have been skipped on each input, and so many put out. -/
structure Progress (block : GrAlignOnSamplenumbersSs) (ninputs : ℕ) (x : ℕ → ℕ → BitVec 16)
    (first : ℕ → ℕ) (s : Session) (skipped : ℕ → ℕ) (groups : ℕ) : Prop where
  consumed : ∀ i < ninputs, s.consumed i = block.d_nchan * 2 * (skipped i + groups)
  below : ∀ i < ninputs, first i + skipped i ≤ target ninputs first
  equal : 0 < groups → ∀ i < ninputs, first i + skipped i = target ninputs first
  out : ∀ i < ninputs, s.out i = (List.range (block.d_nchan * 2 * groups)).map
    fun j => x i (block.d_nchan * 2 * (target ninputs first - first i) + j)
  numbers : ∀ i < ninputs, ∀ g < groups, (counter (x i) (block.d_nchan * 2 *
    (target ninputs first - first i) + block.d_nchan * 2 * g)).toNat = target ninputs first + g
  steady : ∀ d ∈ s.done, d.Steady ninputs (block.d_nchan * 2)

theorem le_target {i : ℕ} (inside : i < ninputs) : first i ≤ target ninputs first :=
  Finset.le_sup (Finset.mem_range.mpr inside)

variable {s : Session} {skipped : ℕ → ℕ} {groups nchan : ℕ} {call : Call}

theorem Progress.ready (setting : Setting block ninputs x length first)
    (progress : Progress block ninputs x first s skipped groups)
    (allowed : Allowed block ninputs length s call) :
    Ready block call.noutput_items ninputs call.ninput_items (fun i j => x i (s.consumed i + j))
      (fun i => first i + skipped i + groups) (target ninputs first + groups) := by
  obtain ⟨output, multiple, required, forecast, each⟩ := allowed
  obtain ⟨asked, _, forecast⟩ := bind_ok.mp forecast
  obtain ⟨least, known, same⟩ := bind_ok.mp forecast
  have bound : least ≤ required := (pure_ok.mp same) ▸ le_max_right ..
  obtain ⟨rfl, -⟩ := asInt_ok known
  have positive := setting.positive
  have below := progress.below
  have atLeast : ∀ i < ninputs, first i ≤ target ninputs first := fun i => le_target
  obtain ⟨top, member, highest⟩ := Finset.exists_mem_eq_sup (Finset.range ninputs)
    (Finset.nonempty_range_iff.mpr setting.some.ne') first
  have topInside := Finset.mem_range.mp member
  refine ⟨positive, Nat.le_of_dvd output (Nat.dvd_trans setting.multiple multiple),
    fun i inside => ?_, fun i inside k fits => ?_, fun i inside j inside' => ?_, fun i inside => ?_,
    top, topInside, ?_⟩
  · have enough := (each i inside).1
    omega
  · have place : s.consumed i + block.d_nchan * 2 * k =
        block.d_nchan * 2 * (skipped i + groups + k) := by
      rw [progress.consumed i inside, ← Nat.mul_add]
    have room : block.d_nchan * 2 * (skipped i + groups + k + 1) ≤ length i := by
      have inStream := (each i inside).2
      rw [progress.consumed i inside] at inStream
      rw [Nat.add_assoc (skipped i + groups), Nat.mul_add]
      omega
    have numbered := setting.numbered i inside _ room
    rw [← place, ← Nat.add_assoc, ← Nat.add_assoc] at numbered
    exact numbered
  · have close := setting.near top topInside j inside'
    have low := below i inside
    change target ninputs first = first top at highest
    omega
  · exact Nat.add_le_add_right (below i inside) groups
  · have low := below top topInside
    change target ninputs first = first top at highest
    omega

theorem Progress.done (progress : Progress block ninputs x first s skipped groups) :
    Aligned ninputs x (block.d_nchan * 2) first s := by
  refine ⟨progress.steady, groups, fun i inside => ⟨progress.out i inside,
    progress.numbers i inside, ?_⟩⟩
  have low := progress.below i inside
  have above : first i ≤ target ninputs first := le_target inside
  rw [progress.consumed i inside]
  split
  next none =>
    rw [none, Nat.add_zero]
    exact Nat.mul_le_mul_left _ (by omega)
  next some =>
    have same := progress.equal (Nat.pos_of_ne_zero some) i inside
    rw [show skipped i = target ninputs first - first i by omega]

theorem steady_of {group : ℕ} {d : Done} {taken : ℕ → ℕ}
    (known : ∀ i < ninputs, d.consumes i = (group * taken i : ℕ))
    (there : ∀ i < ninputs, group * taken i ≤ d.ninput_items i)
    (some : 0 < d.produced ∨ ∃ i < ninputs, 0 < group * taken i) : d.Steady ninputs group := by
  refine ⟨fun i inside => ?_, some.imp_right fun ⟨i, inside, positive⟩ => ⟨i, inside, ?_⟩⟩
  · rw [known i inside]
    exact ⟨Int.natCast_nonneg _, Int.natCast_dvd_natCast.mpr (Nat.dvd_mul_right ..),
      Int.ofNat_le.mpr (there i inside)⟩
  · rw [known i inside]
    exact_mod_cast positive

/-- Once the inputs are aligned a call copies. -/
theorem Progress.copies (setting : Setting block ninputs x length first)
    (progress : Progress block ninputs x first s skipped groups)
    (allowed : Allowed block ninputs length s call) {q : ℕ}
    (input : ∀ i < ninputs, block.d_nchan * 2 * (q + 1) ≤ call.ninput_items i)
    (equal : ∀ i < ninputs, first i + skipped i = target ninputs first) :
    Progress block ninputs x first {
      consumed := fun i => s.consumed i + ((block.d_nchan * 2 * (q + 1) : ℕ) : ℤ).toNat
      out := fun i => s.out i ++
        (List.range (block.d_nchan * 2 * (q + 1))).map fun j => x i (s.consumed i + j)
      done := s.done ++ [⟨call.ninput_items, fun _ => (block.d_nchan * 2 * (q + 1) : ℕ),
        block.d_nchan * 2 * (q + 1)⟩] } skipped (groups + (q + 1)) := by
  have positive := setting.positive
  have skips : ∀ i < ninputs, skipped i = target ninputs first - first i := by
    intro i inside
    have same := equal i inside
    omega
  refine ⟨fun i inside => ?_, progress.below, fun _ => equal, fun i inside => ?_,
    fun i inside g later => ?_, List.forall_mem_append.mpr ⟨progress.steady, ?_⟩⟩
  · dsimp only
    rw [progress.consumed i inside, Int.toNat_natCast, ← Nat.mul_add, Nat.add_assoc]
  · dsimp only
    rw [progress.out i inside, progress.consumed i inside, skips i inside, Nat.mul_add _ groups,
      List.range_add, List.map_append, List.map_map]
    refine congrArg _ (List.map_congr_left fun j _ => ?_)
    rw [Function.comp, Nat.mul_add, Nat.add_assoc]
  · have inStream := allowed.2.2
    obtain ⟨required, -, each⟩ := inStream
    have inStream := (each i inside).2
    rw [progress.consumed i inside] at inStream
    have more := input i inside
    have room : block.d_nchan * 2 * (skipped i + g + 1) ≤ length i := by
      have last := Nat.mul_le_mul_left (block.d_nchan * 2)
        (show skipped i + g + 1 ≤ skipped i + groups + (q + 1) by omega)
      rw [Nat.mul_add _ (skipped i + groups)] at last
      omega
    have numbered := (setting.numbered i inside _ room).1
    rw [← Nat.add_assoc, equal i inside, Nat.mul_add, skips i inside] at numbered
    exact numbered
  · intro d new
    obtain rfl := List.mem_singleton.mp new
    exact steady_of (fun _ _ => rfl) input (.inl (Nat.mul_pos (by omega) (Nat.succ_pos q)))

/-- Before that it skips groups, at least one of them. -/
theorem Progress.skips
    (progress : Progress block ninputs x first s skipped 0) {consumes : ℕ → ℤ}
    {more : ℕ → ℕ} (known : ∀ i < ninputs, consumes i = (block.d_nchan * 2 * more i : ℕ))
    (there : ∀ i < ninputs, block.d_nchan * 2 * more i ≤ call.ninput_items i)
    (below : ∀ i < ninputs, first i + skipped i + more i ≤ target ninputs first)
    (some : ∃ i < ninputs, 0 < block.d_nchan * 2 * more i) :
    Progress block ninputs x first {
      consumed := fun i => s.consumed i + (consumes i).toNat
      out := fun i => s.out i ++ (List.range 0).map fun j => x i (s.consumed i + j)
      done := s.done ++ [⟨call.ninput_items, consumes, 0⟩] } (fun i => skipped i + more i) 0 := by
  refine ⟨fun i inside => ?_, fun i inside => ?_, fun none => absurd none (lt_irrefl 0),
    fun i inside => ?_, fun i inside g none => absurd none (Nat.not_lt_zero g),
    List.forall_mem_append.mpr ⟨progress.steady, ?_⟩⟩
  · dsimp only
    rw [progress.consumed i inside, known i inside, Int.toNat_natCast, ← Nat.mul_add]
    rfl
  · rw [← Nat.add_assoc]
    exact below i inside
  · exact (List.append_nil _).trans (progress.out i inside)
  · intro d new
    obtain rfl := List.mem_singleton.mp new
    exact steady_of known there (.inr some)

/-- The number of items between the start value of an input and the largest one is an `int`. -/
def Fits (block : GrAlignOnSamplenumbersSs) (ninputs : ℕ) (first : ℕ → ℕ) : Prop :=
  ∀ i < ninputs, (target ninputs first - first i) * (block.d_nchan * 2) ≤ intMax

theorem Progress.step (setting : Setting block ninputs x length first)
    (fits : Fits block ninputs first) {s : Session} {skipped : ℕ → ℕ} {groups : ℕ}
    (progress : Progress block ninputs x first s skipped groups) {call : Call}
    (allowed : Allowed block ninputs length s call) :
    ∃ t, serve block ninputs x s call = some t ∧
      ∃ skipped groups, Progress block ninputs x first t skipped groups := by
  have positive := setting.positive
  have ready := progress.ready setting allowed
  obtain ⟨q, ahead, -, input, leads, result⟩ := ready.work
  by_cases equal : ∀ i < ninputs, first i + skipped i = target ninputs first
  · rw [if_pos fun i inside => congrArg (· + groups) (equal i inside)] at result
    exact ⟨_, by rw [serve, result], _, _, progress.copies setting allowed input equal⟩
  · obtain rfl : groups = 0 := by
      by_contra some
      exact equal (progress.equal (Nat.pos_of_ne_zero some))
    have size : ∀ i < ninputs, ahead i * block.d_nchan * 2 =
        ((target ninputs first - (first i + skipped i)) * (block.d_nchan * 2) : ℕ) := by
      intro i inside
      have low := progress.below i inside
      rw [leads i inside]
      push_cast [low]
      ring
    have int : ¬ ∃ i < ninputs, ¬ IsInt (ahead i * block.d_nchan * 2) := by
      rintro ⟨i, inside, not⟩
      have less : (target ninputs first - (first i + skipped i)) * (block.d_nchan * 2) ≤
          (target ninputs first - first i) * (block.d_nchan * 2) :=
        Nat.mul_le_mul_right _ (by omega)
      have fit := fits i inside
      unfold intMax at fit
      rw [size i inside] at not
      exact not ⟨by omega, by omega⟩
    rw [if_neg fun same => equal fun i inside => Nat.add_right_cancel (same i inside),
      if_neg int] at result
    have there : ∀ i, block.d_nchan * 2 *
        (min ((target ninputs first - (first i + skipped i)) * (block.d_nchan * 2))
          (call.ninput_items i) / (block.d_nchan * 2)) ≤ min ((target ninputs first -
            (first i + skipped i)) * (block.d_nchan * 2)) (call.ninput_items i) :=
      fun i => Nat.mul_div_le ..
    refine ⟨_, by rw [serve, result], _, 0, progress.skips (fun i inside => ?_)
      (fun i _ => (there i).trans (Nat.min_le_right ..)) (fun i inside => ?_) ?_⟩
    · rw [size i inside, Nat.mul_comm _ (_ / _)]
      push_cast
      rw [Int.tdiv_eq_ediv_of_nonneg (by positivity)]
    · have low := progress.below i inside
      have most : min ((target ninputs first - (first i + skipped i)) * (block.d_nchan * 2))
          (call.ninput_items i) / (block.d_nchan * 2) ≤
            target ninputs first - (first i + skipped i) :=
        (Nat.div_le_div_right (Nat.min_le_left ..)).trans
          (Nat.mul_div_cancel _ (by omega)).le
      omega
    · push Not at equal
      obtain ⟨i, inside, behind⟩ := equal
      have low := progress.below i inside
      have one : 1 * (block.d_nchan * 2) ≤
          (target ninputs first - (first i + skipped i)) * (block.d_nchan * 2) :=
        Nat.mul_le_mul_right _ (by omega)
      have enough := ready.input i inside
      exact ⟨i, inside, Nat.mul_pos (by omega) (Nat.div_pos (by omega) (by omega))⟩

theorem Progress.initial (block : GrAlignOnSamplenumbersSs) (ninputs : ℕ)
    (x : ℕ → ℕ → BitVec 16) (first : ℕ → ℕ) :
    Progress block ninputs x first start (fun _ => 0) 0 :=
  ⟨fun _ _ => rfl, fun _ inside => le_target inside, fun none => absurd none (lt_irrefl 0),
    fun _ _ => rfl, fun _ _ _ none => absurd none (Nat.not_lt_zero _),
    fun _ none => absurd none List.not_mem_nil⟩

/-- The first call is defined only where the products are. -/
theorem fits_of_serve (setting : Setting block ninputs x length first)
    (allowed : Allowed block ninputs length start call) {t : Session}
    (served : serve block ninputs x start call = some t) : Fits block ninputs first := by
  intro i inside
  have above : first i ≤ target ninputs first := le_target inside
  obtain ⟨q, ahead, -, -, leads, result⟩ :=
    ((Progress.initial block ninputs x first).ready setting allowed).work
  by_contra large
  have behind : ¬ ∀ k < ninputs, first k + 0 + 0 = target ninputs first + 0 := by
    intro equal
    have same := equal i inside
    rw [show target ninputs first - first i = 0 by omega, Nat.zero_mul] at large
    exact large (Nat.zero_le _)
  have size : ahead i * block.d_nchan * 2 =
      ((target ninputs first - first i) * (block.d_nchan * 2) : ℕ) := by
    rw [leads i inside]
    push_cast [above]
    ring
  have overflow : ∃ k < ninputs, ¬ IsInt (ahead k * block.d_nchan * 2) := by
    refine ⟨i, inside, fun int => ?_⟩
    have fit := int.2
    rw [size] at fit
    unfold intMax at large
    omega
  rw [if_neg behind, if_pos overflow] at result
  rw [serve, result] at served
  cases served

theorem make_ok {align_interval : ℤ} (made : make nchan align_interval = .ok block) :
    block.d_nchan = nchan ∧ nchan * 2 ∣ block.output_multiple := by
  obtain ⟨multiple, int, made⟩ := bind_ok.mp made
  split at made
  · cases made
  next positive =>
    cases made
    obtain ⟨rfl, -⟩ := asInt_ok int
    refine ⟨rfl, Int.natCast_dvd_natCast.mp ?_⟩
    rw [Int.toNat_of_nonneg (by omega)]
    split
    · exact dvd_of_eq (by push_cast; rfl)
    · rw [mul_assoc]
      exact Dvd.intro_left _ (by push_cast; rfl)

/-! ## Counting streams -/

/-- An input that counts from a number on. -/
def counting (nchan first : ℕ) (j : ℕ) : BitVec 16 :=
  if j % (nchan * 2) = 0 then BitVec.ofNat 16 ((first + j / (nchan * 2)) / 2 ^ 16)
  else if j % (nchan * 2) = 1 then BitVec.ofNat 16 (first + j / (nchan * 2))
  else 0

theorem counter_counting {first k : ℕ} (two : 2 ≤ nchan) (fits : first + k < 2 ^ 32) :
    (counter (counting nchan first) (nchan * 2 * k)).toNat = first + k := by
  have one : 1 < nchan * 2 := by omega
  have high : counting nchan first (nchan * 2 * k) = BitVec.ofNat 16 ((first + k) / 2 ^ 16) := by
    rw [counting, if_pos (Nat.mul_mod_right ..), Nat.mul_div_cancel_left _ (by omega)]
  have low : counting nchan first (nchan * 2 * k + 1) = BitVec.ofNat 16 (first + k) := by
    rw [counting, Nat.mul_add_mod, Nat.mod_eq_of_lt one, if_neg Nat.one_ne_zero, if_pos rfl,
      Nat.mul_add_div (by omega), Nat.div_eq_of_lt one, Nat.add_zero]
  rw [counter, high, low, BitVec.toNat_or, BitVec.toNat_shiftLeft, BitVec.toNat_setWidth,
    BitVec.toNat_setWidth, BitVec.toNat_ofNat, BitVec.toNat_ofNat]
  have upper : (first + k) / 2 ^ 16 < 2 ^ 16 := Nat.div_lt_of_lt_mul fits
  have lower : (first + k) % 2 ^ 16 < 2 ^ 16 := Nat.mod_lt _ (by decide)
  have shifted : ((first + k) / 2 ^ 16) <<< 16 < 2 ^ 32 := by
    rw [Nat.shiftLeft_eq]
    omega
  rw [Nat.mod_eq_of_lt upper, Nat.mod_eq_of_lt (upper.trans (by decide)), Nat.mod_eq_of_lt shifted,
    Nat.mod_eq_of_lt (lower.trans (by decide)), ← Nat.shiftLeft_add_eq_or_of_lt lower,
    Nat.shiftLeft_eq, Nat.div_add_mod']

theorem numbered_counting {ninputs : ℕ} (two : 2 ≤ nchan) (positive : ∀ i < ninputs, 0 < first i)
    (fits : ∀ i < ninputs, first i + length i < 2 ^ 32) :
    Numbered ninputs (fun i => counting nchan (first i)) (nchan * 2) length first := by
  intro i inside k room
  have some := positive i inside
  have fit := fits i inside
  have least : k + 1 ≤ nchan * 2 * (k + 1) := Nat.le_mul_of_pos_left _ (by omega)
  exact ⟨counter_counting two (by omega), by omega⟩

/-- Every call keeps the promises and the inputs get aligned exactly where the distance of the start
    values, in items, is an `int`. -/
theorem aligns_iff {nchan : ℕ} {align_interval : ℤ} (made : make nchan align_interval = .ok block)
    (two : 2 ≤ nchan) (several : 2 ≤ ninputs)
    (numbered : Numbered ninputs x (nchan * 2) length first)
    (near : ∀ i < ninputs, ∀ j < ninputs, first i ≤ first j + 2 ^ 26) {calls : List Call}
    (allowed : Throughout (Allowed block ninputs length) (serve block ninputs x) start calls) :
    (∃ s, run (serve block ninputs x) start calls = some s ∧
      Aligned ninputs x (nchan * 2) first s) ↔
    calls = [] ∨ ∀ i < ninputs, (target ninputs first - first i) * (nchan * 2) ≤ intMax := by
  obtain ⟨rfl, multiple⟩ := make_ok made
  have setting : Setting block ninputs x length first :=
    ⟨by omega, multiple, by omega, numbered, near⟩
  have initial := Progress.initial block ninputs x first
  constructor
  · rintro ⟨s, ran, -⟩
    cases calls with
    | nil => exact .inl rfl
    | cons call calls =>
      obtain ⟨t, served, -⟩ := run_cons.mp ran
      exact .inr (fits_of_serve setting allowed.1 served)
  · rintro (rfl | fits)
    · exact ⟨start, rfl, initial.done⟩
    · obtain ⟨s, ran, skipped, groups, progress⟩ := run_defined
        (fun _ s => ∃ skipped groups, Progress block ninputs x first s skipped groups)
        ⟨_, _, initial⟩ (fun _ t _ _ ⟨_, _, progress⟩ met => progress.step setting fits met) allowed
      exact ⟨s, ran, progress.done⟩

theorem aligns_iff_two : ∃ s,
    run (serve ⟨2, 4⟩ 2 fun i => counting 2 (5 + 2 * i)) start [⟨4, fun _ => 4096⟩] = some s ∧
      Aligned 2 (fun i => counting 2 (5 + 2 * i)) 4 (5 + 2 * ·) s := by
  have allowed : Throughout (Allowed ⟨2, 4⟩ 2 fun _ => 4096)
      (serve ⟨2, 4⟩ 2 fun i => counting 2 (5 + 2 * i)) start [⟨4, fun _ => 4096⟩] :=
    ⟨⟨by decide, by decide, 4096, rfl, fun i _ => by simp [start]⟩, fun _ _ => trivial⟩
  exact (aligns_iff (show make 2 (-1) = .ok ⟨2, 4⟩ from rfl) le_rfl le_rfl
    (numbered_counting le_rfl (fun i _ => by omega) fun i inside => by omega)
    (fun i _ j _ => by omega) allowed).mpr (.inr (by decide))

/-- With 16 channels `2 ^ 26` groups have `2 ^ 31` items. -/
theorem aligns_overflow : make 16 (-1) = .ok ⟨16, 32⟩ ∧
    Setting ⟨16, 32⟩ 2 (fun i => counting 16 (1 + 2 ^ 26 * i)) (fun _ => 32768) (1 + 2 ^ 26 * ·) ∧
    Allowed ⟨16, 32⟩ 2 (fun _ => 32768) start ⟨32, fun _ => 32768⟩ ∧
    ¬ ∃ s, run (serve ⟨16, 32⟩ 2 fun i => counting 16 (1 + 2 ^ 26 * i)) start
      [⟨32, fun _ => 32768⟩] = some s := by
  have setting : Setting ⟨16, 32⟩ 2 (fun i => counting 16 (1 + 2 ^ 26 * i)) (fun _ => 32768)
      (1 + 2 ^ 26 * ·) :=
    ⟨by decide, by decide, by decide,
      numbered_counting (by decide) (fun i _ => by omega) fun i inside => by omega,
      fun i _ j _ => by omega⟩
  have allowed : Allowed ⟨16, 32⟩ 2 (fun _ => 32768) start ⟨32, fun _ => 32768⟩ :=
    ⟨by decide, by decide, 32768, rfl, fun i _ => by simp [start]⟩
  refine ⟨rfl, setting, allowed, ?_⟩
  rintro ⟨s, ran⟩
  obtain ⟨t, served, -⟩ := run_cons.mp ran
  exact absurd (fits_of_serve setting allowed served 0 (by decide)) (by decide)

end GrAlignOnSamplenumbersSs

end GnuRadio
