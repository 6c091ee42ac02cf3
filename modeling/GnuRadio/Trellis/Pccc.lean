import GnuRadio.Misc.Except
import GnuRadio.Trellis.Interleaver
import GnuRadio.Trellis.RadixFsm

/-!
# Parallel concatenated codes

`trellis_pccc_encoder` packs the outputs of two machines into a symbol, and
`pccc_decoder` reads the metrics of the pairs of outputs from an array. Both
multiply the first output with the first machine's number of outputs; the joint
machine multiplies it with the second's.
-/

namespace GnuRadio

section Encoder

variable {To : Type} (cast : Nat → To) (FSM1 : Fsm) (ST1 : Nat) (FSM2 : Fsm) (ST2 : Nat)
  (INTERLEAVER : Interleaver)

/-- `ST1_tmp` and `ST2_tmp` before step `i` of a block
(`trellis_pccc_encoder_XX.cc.t:77-86`). -/
def pcccStates (input : List Nat) : Nat → Nat × Nat
  | 0 => (ST1, ST2)
  | i + 1 =>
      let (s₁, s₂) := pcccStates input i
      let k := INTERLEAVER.INTER.getD i 0
      (FSM1.next s₁ (input.getD i 0), FSM2.next s₂ (input.getD k 0))

/-- The inputs of the two machines at step `i`. -/
def pcccInputs (input : List Nat) (i : Nat) : Nat × Nat :=
  (input.getD i 0, input.getD (INTERLEAVER.INTER.getD i 0) 0)

/-- `o1` and `o2` at step `i` of a block. -/
def pcccOutputs (input : List Nat) (i : Nat) : Nat × Nat :=
  let (s₁, s₂) := pcccStates FSM1 ST1 FSM2 ST2 INTERLEAVER input i
  let (u₁, u₂) := pcccInputs INTERLEAVER input i
  (FSM1.output s₁ u₁, FSM2.output s₂ u₂)

/-- `work` (`trellis_pccc_encoder_XX.cc.t:67-89`). `cast` is the conversion to the type of the
output. -/
def pcccEncoderWork (blocklength noutput_items : Nat) (input : List Nat) : List To :=
  (List.range (noutput_items / blocklength)).flatMap fun b =>
    let block := input.drop (b * blocklength)
    (List.range blocklength).map fun i =>
      let (o1, o2) := pcccOutputs FSM1 ST1 FSM2 ST2 INTERLEAVER block i
      cast (o1 * FSM1.O + o2)

end Encoder

/-- The place of the metric of a pair of outputs at step `k` in `cprioro`. -/
def pcccIndex (O1 O2 k i j : Nat) : Nat := k * O1 * O2 + i * O1 + j

/-- The arrays that live from one iteration to the next. -/
structure PcccArrays where
  priori1 : List ℚ
  posti1 : List ℚ
  priori2 : List ℚ
  deriving DecidableEq

section Decoder

variable {To : Type} (cast : Nat → To) (FSM1 : Fsm) (ST10 ST1K : Int) (FSM2 : Fsm)
  (ST20 ST2K : Int) (INTERLEAVER : Interleaver) (blocklength repetitions : Nat)
  (p2mymin : ℚ → ℚ → ℚ) (cprioro : List ℚ)

/-- `prioro1` (`core_algorithms.cc:1127-1133`). -/
def pcccPrioro1 : List ℚ :=
  (List.range blocklength).flatMap fun k => (List.range FSM1.O).map fun i =>
    accumulate p2mymin (cprioro.getD (pcccIndex FSM1.O FSM2.O k i 0) 0)
      (fun j => cprioro.getD (pcccIndex FSM1.O FSM2.O k i j) 0) (List.range' 1 (FSM2.O - 1))

/-- `prioro2` (`core_algorithms.cc:1135-1140`). -/
def pcccPrioro2 : List ℚ :=
  (List.range blocklength).flatMap fun k => (List.range FSM2.O).map fun i =>
    accumulate p2mymin (cprioro.getD (pcccIndex FSM1.O FSM2.O k 0 i) 0)
      (fun j => cprioro.getD (pcccIndex FSM1.O FSM2.O k j i) 0) (List.range' 1 (FSM1.O - 1))

/-- One iteration (`core_algorithms.cc:1143-1188`). -/
def pcccIteration (prioro1 prioro2 : List ℚ) (a : PcccArrays) : Except String PcccArrays := do
  let posti1 ← sisoAlgorithm FSM1 ST10 ST1K p2mymin a.priori1 prioro1 blocklength true false
  let priori2 := (List.range blocklength).foldl (fun priori2 k =>
    let ki := INTERLEAVER.INTER.getD k 0
    memcpy priori2 (k * FSM2.I) posti1 (ki * FSM1.I) FSM1.I) a.priori2
  let posti2 ← sisoAlgorithm FSM2 ST20 ST2K p2mymin priori2 prioro2 blocklength true false
  let priori1 := (List.range blocklength).foldl (fun priori1 k =>
    let ki := INTERLEAVER.INTER.getD k 0
    memcpy priori1 (ki * FSM1.I) posti2 (k * FSM2.I) FSM1.I) a.priori1
  return { priori1, posti1, priori2 }

/-- `pccc_decoder` (`core_algorithms.cc:1104-1209`). -/
def pcccDecoder : Except String (List To) := do
  let prioro1 := pcccPrioro1 FSM1 FSM2 blocklength p2mymin cprioro
  let prioro2 := pcccPrioro2 FSM1 FSM2 blocklength p2mymin cprioro
  let a ← (List.range repetitions).foldlM (fun a _ =>
      pcccIteration FSM1 ST10 ST1K FSM2 ST20 ST2K INTERLEAVER blocklength p2mymin prioro1 prioro2 a)
    ⟨List.replicate (blocklength * FSM1.I) 0, List.replicate (blocklength * FSM1.I) 0,
      List.replicate (blocklength * FSM2.I) 0⟩
  let posti1 := List.zipWith p2mymin a.priori1 a.posti1
  return hardDecisions cast posti1 FSM1.I blocklength

end Decoder

/-! ## The symbols -/

/-- The types of the items put out: `unsigned char`, `short` and `int` (`generate_trellis.py`). -/
inductive OutputType
  | b
  | s
  | i

namespace OutputType

/-- The number of values from 0 on. -/
def values : OutputType → Nat
  | .b => 256
  | .s => 32768
  | .i => 2147483648

/-- The conversion `(O_TYPE)`, which keeps the low bits. -/
def cast : OutputType → Nat → Int
  | .b, o => (o % 256 : Nat)
  | .s, o => (o : Int).bmod 65536
  | .i, o => (o : Int).bmod 4294967296

theorem cast_eq_iff {type : OutputType} {o : Nat} : type.cast o = o ↔ o < type.values := by
  cases type with
  | b =>
    show ((o % 256 : Nat) : Int) = o ↔ o < 256
    omega
  | s =>
    show (o : Int).bmod 65536 = o ↔ o < 32768
    rw [Int.bmod_def]
    split <;> omega
  | i =>
    show (o : Int).bmod 4294967296 = o ↔ o < 2147483648
    rw [Int.bmod_def]
    split <;> omega

end OutputType

/-- A call of `work` with states, symbols and an interleaver in range. -/
structure EncoderCall (FSM1 FSM2 : Fsm) where
  ST1 : Nat
  ST2 : Nat
  INTERLEAVER : Interleaver
  blocklength : Nat
  noutput_items : Nat
  input : List Nat
  st1_lt : ST1 < FSM1.S
  st2_lt : ST2 < FSM2.S
  inter_lt : ∀ i < blocklength, INTERLEAVER.INTER.getD i 0 < blocklength
  enough : noutput_items ≤ input.length
  input_lt : ∀ u ∈ input, u < FSM1.I

namespace EncoderCall

variable {FSM1 FSM2 : Fsm} (e : EncoderCall FSM1 FSM2)

def block (b : Nat) : List Nat := e.input.drop (b * e.blocklength)

def states (b i : Nat) : Nat × Nat := pcccStates FSM1 e.ST1 FSM2 e.ST2 e.INTERLEAVER (e.block b) i

def inputs (b i : Nat) : Nat × Nat := pcccInputs e.INTERLEAVER (e.block b) i

/-- The outputs of the constituent machines at a step. -/
def outputs (b i : Nat) : Nat × Nat :=
  pcccOutputs FSM1 e.ST1 FSM2 e.ST2 e.INTERLEAVER (e.block b) i

/-- The symbol put out at a step. -/
def symbol (type : OutputType) (b i : Nat) : Int :=
  (pcccEncoderWork type.cast FSM1 e.ST1 FSM2 e.ST2 e.INTERLEAVER e.blocklength e.noutput_items
    e.input).getD (b * e.blocklength + i) 0

/-- The steps of the call. -/
def Step (b i : Nat) : Prop := b < e.noutput_items / e.blocklength ∧ i < e.blocklength

variable {e : EncoderCall FSM1 FSM2} {type : OutputType} {b i : Nat}

/-- `o1` counts as often as the first machine has outputs. -/
theorem symbol_eq (step : e.Step b i) :
    e.symbol type b i = type.cast ((e.outputs b i).1 * FSM1.O + (e.outputs b i).2) := by
  rw [symbol, pcccEncoderWork, getD_flatMap 0
    (fun _ _ => by rw [List.length_map, List.length_range]) step.1 step.2]
  exact getD_map_range _ 0 step.2

theorem block_lt (block : b < e.noutput_items / e.blocklength) (inside : i < e.blocklength) :
    (e.block b).getD i 0 < FSM1.I := by
  have used : (b + 1) * e.blocklength ≤ e.noutput_items :=
    (Nat.mul_le_mul_right e.blocklength block).trans (Nat.div_mul_le_self _ _)
  rw [Nat.succ_mul] at used
  have read : i < (e.block b).length := by
    rw [EncoderCall.block, List.length_drop]
    have enough := e.enough
    omega
  rw [List.getD_eq_getElem _ _ read]
  exact e.input_lt _ (List.mem_of_mem_drop (List.getElem_mem read))

theorem inputs_lt (same : FSM1.I = FSM2.I) (step : e.Step b i) :
    (e.inputs b i).1 < FSM1.I ∧ (e.inputs b i).2 < FSM2.I :=
  ⟨block_lt step.1 step.2, same ▸ block_lt step.1 (e.inter_lt i step.2)⟩

theorem states_lt (same : FSM1.I = FSM2.I) (block : b < e.noutput_items / e.blocklength)
    (inside : i ≤ e.blocklength) : (e.states b i).1 < FSM1.S ∧ (e.states b i).2 < FSM2.S := by
  induction i with
  | zero => exact ⟨e.st1_lt, e.st2_lt⟩
  | succ i ih =>
    have ⟨first, second⟩ := ih (Nat.le_of_succ_le inside)
    have ⟨input₁, input₂⟩ := inputs_lt (i := i) same ⟨block, inside⟩
    exact ⟨Fsm.next_lt first input₁, Fsm.next_lt second input₂⟩

theorem outputs_lt (same : FSM1.I = FSM2.I) (step : e.Step b i) :
    (e.outputs b i).1 < FSM1.O ∧ (e.outputs b i).2 < FSM2.O := by
  have ⟨state₁, state₂⟩ := states_lt same step.1 step.2.le
  have ⟨input₁, input₂⟩ := inputs_lt same step
  exact ⟨Fsm.output_lt state₁ input₁, Fsm.output_lt state₂ input₂⟩

/-- What a joint machine of the two puts out at a step. -/
def jointSymbol (e : EncoderCall FSM1 FSM2) (G : Fsm) (b i : Nat) : Nat :=
  G.output ((e.states b i).1 * FSM2.S + (e.states b i).2)
    ((e.inputs b i).1 * FSM2.I + (e.inputs b i).2)

theorem jointSymbol_eq {G : Fsm} (same : FSM1.I = FSM2.I) (built : FSM1.jointFsm FSM2 = .ok G)
    (step : e.Step b i) : e.jointSymbol G b i = (e.outputs b i).1 * FSM2.O + (e.outputs b i).2 := by
  have ⟨state₁, state₂⟩ := states_lt same step.1 step.2.le
  have ⟨input₁, input₂⟩ := inputs_lt same step
  rw [Fsm.eq_joint built]
  exact Fsm.joint_output state₁ state₂ input₁ input₂

end EncoderCall

/-- In all encoders with these output alphabets a symbol is in range, is that of the joint machine
where that can be built, is where the decoder reads the metric of the pair of outputs, and is no
other pair's. -/
def PackingAgrees (type : OutputType) (O1 O2 : Nat) : Prop :=
  ∀ FSM1 FSM2 : Fsm, FSM1.O = O1 → FSM2.O = O2 → FSM1.I = FSM2.I →
    ∀ (e e' : EncoderCall FSM1 FSM2) (b i b' i' : Nat), e.Step b i → e'.Step b' i' →
      (0 ≤ e.symbol type b i ∧ e.symbol type b i < (O1 * O2 : Nat)) ∧
      (∀ G, FSM1.jointFsm FSM2 = .ok G → e.symbol type b i = e.jointSymbol G b i) ∧
      (∀ k, (pcccIndex O1 O2 k (e.outputs b i).1 (e.outputs b i).2 : Int) =
        (k * (O1 * O2) : Nat) + e.symbol type b i) ∧
      (e.symbol type b i = e'.symbol type b' i' → e.outputs b i = e'.outputs b' i')

theorem packingAgrees_of {type : OutputType} {O1 O2 : Nat} (alphabets : O1 = O2 ∨ O1 = 1)
    (fits : O1 * O2 ≤ type.values) : PackingAgrees type O1 O2 := by
  rintro FSM1 FSM2 rfl rfl same e e' b i b' i' step step'
  have ⟨first, second⟩ := EncoderCall.outputs_lt same step
  have ⟨first', second'⟩ := EncoderCall.outputs_lt same step'
  -- the first output counts as much as in the joint machine
  have packed : ∀ {o o₂}, o < FSM1.O → o * FSM1.O + o₂ = o * FSM2.O + o₂ := by
    intro o o₂ below
    rcases alphabets with equal | one
    · rw [equal]
    · have zero : o = 0 := by omega
      rw [zero, Nat.zero_mul, Nat.zero_mul]
  have symbol : ∀ {e : EncoderCall FSM1 FSM2} {b i}, e.Step b i → e.symbol type b i =
      ((e.outputs b i).1 * FSM2.O + (e.outputs b i).2 : Nat) := by
    intro e b i step
    have ⟨first, second⟩ := EncoderCall.outputs_lt same step
    rw [e.symbol_eq step, packed first]
    exact OutputType.cast_eq_iff.mpr ((packed_lt first second).trans_le fits)
  rw [symbol step, symbol step']
  refine ⟨⟨Int.natCast_nonneg _, Int.ofNat_lt.mpr (packed_lt first second)⟩, fun G built => ?_,
    fun k => ?_, fun equal => ?_⟩
  · rw [EncoderCall.jointSymbol_eq same built step]
  · rw [pcccIndex, Nat.add_assoc, packed first, Nat.mul_assoc]
    exact Int.natCast_add _ _
  · have equal := Int.ofNat.inj equal
    refine Prod.ext ?_ ?_
    · have quotients := congrArg (· / FSM2.O) equal
      simpa only [packed_div second, packed_div second'] using quotients
    · have remainders := congrArg (· % FSM2.O) equal
      simpa only [packed_mod second, packed_mod second'] using remainders

/-! ## Machines with two pairs of outputs -/

/-- The machine of one state that puts out `o` for the input 0 and `o'` for 1. -/
def twoOutputs (O o o' : Nat) (below : ∀ x ∈ [o, o'], x < O) : Fsm := Fsm.memoryless O [o, o'] below

theorem unit_inter_lt : ∀ i < 1, Interleaver.unit.INTER.getD i 0 < 1 := by decide

variable {type : OutputType} {O1 O2 o₁ o₁' o₂ o₂' u : Nat}

/-- The call that encodes one input. -/
def pairCall (below₁ : ∀ x ∈ [o₁, o₁'], x < O1) (below₂ : ∀ x ∈ [o₂, o₂'], x < O2)
    (input : ∀ x ∈ [u], x < 2) :
    EncoderCall (twoOutputs O1 o₁ o₁' below₁) (twoOutputs O2 o₂ o₂' below₂) where
  ST1 := 0
  ST2 := 0
  INTERLEAVER := Interleaver.unit
  blocklength := 1
  noutput_items := 1
  input := [u]
  st1_lt := Nat.one_pos
  st2_lt := Nat.one_pos
  inter_lt := unit_inter_lt
  enough := Nat.le_refl 1
  input_lt := input

variable (below₁ : ∀ x ∈ [o₁, o₁'], x < O1) (below₂ : ∀ x ∈ [o₂, o₂'], x < O2)

theorem pairCall_step (input : ∀ x ∈ [u], x < 2) : (pairCall below₁ below₂ input).Step 0 0 :=
  ⟨show 0 < 1 / 1 by decide, Nat.one_pos⟩

theorem zero_lt_two : ∀ x ∈ [0], x < 2 := by decide

theorem one_lt_two : ∀ x ∈ [1], x < 2 := by decide

/-- The first pair has the symbol that the source computes for it. -/
theorem pairCall_first : (pairCall below₁ below₂ zero_lt_two).symbol type 0 0 =
    type.cast (o₁ * O1 + o₂) :=
  EncoderCall.symbol_eq (pairCall_step below₁ below₂ zero_lt_two)

@[inherit_doc pairCall_first]
theorem pairCall_second : (pairCall below₁ below₂ one_lt_two).symbol type 0 0 =
    type.cast (o₁' * O1 + o₂') :=
  EncoderCall.symbol_eq (pairCall_step below₁ below₂ one_lt_two)

/-- A pair whose symbol is right fits the type and the alphabets. -/
theorem lt_of_agrees (agrees : PackingAgrees type O1 O2) (first : o₁ < O1) (second : o₂ < O2) :
    o₁ * O1 + o₂ < type.values ∧ o₁ * O1 + o₂ < O1 * O2 := by
  have below₁ : ∀ x ∈ [o₁, o₁], x < O1 := by simp [first]
  have below₂ : ∀ x ∈ [o₂, o₂], x < O2 := by simp [second]
  have step := pairCall_step below₁ below₂ zero_lt_two
  obtain ⟨⟨-, range⟩, -, index, -⟩ := agrees (twoOutputs O1 o₁ o₁ below₁)
    (twoOutputs O2 o₂ o₂ below₂) rfl rfl rfl _ _ 0 0 0 0 step step
  have place : ((pcccIndex O1 O2 0 o₁ o₂ : Nat) : Int) =
      (0 * (O1 * O2) : Nat) + (pairCall below₁ below₂ zero_lt_two).symbol type 0 0 := index 0
  rw [pairCall_first] at range place
  rw [pcccIndex, Nat.zero_mul, Nat.zero_mul, Nat.zero_mul, Nat.zero_add, Int.natCast_zero,
    Int.zero_add] at place
  have kept := place.symm
  rw [kept] at range
  exact ⟨OutputType.cast_eq_iff.mp kept, Int.ofNat_lt.mp range⟩

theorem alphabets_of (agrees : PackingAgrees type O1 O2) (positive₁ : 0 < O1) (positive₂ : 0 < O2) :
    O1 = O2 ∨ O1 = 1 := by
  by_contra other
  rw [not_or] at other
  rcases Nat.lt_or_gt_of_ne other.1 with less | greater
  · -- the pairs `(0, O1)` and `(1, 0)` have the symbol `O1`
    have below₁ : ∀ x ∈ [0, 1], x < O1 := by simp; omega
    have below₂ : ∀ x ∈ [O1, 0], x < O2 := by simp; omega
    have pair := (agrees (twoOutputs O1 0 1 below₁) (twoOutputs O2 O1 0 below₂) rfl rfl rfl _ _
      0 0 0 0 (pairCall_step below₁ below₂ zero_lt_two)
      (pairCall_step below₁ below₂ one_lt_two)).2.2.2
    rw [pairCall_first, pairCall_second, Nat.zero_mul, Nat.one_mul, Nat.zero_add] at pair
    exact absurd (congrArg Prod.fst (pair rfl)) Nat.zero_ne_one
  · -- the symbol of the last pair is out of range
    have range := (lt_of_agrees agrees (show O1 - 1 < O1 by omega) (show O2 - 1 < O2 by omega)).2
    obtain ⟨a, rfl⟩ : ∃ a, O1 = a + 1 := ⟨O1 - 1, by omega⟩
    have products : a * O2 ≤ a * a := Nat.mul_le_mul_left a (by omega)
    rw [Nat.add_sub_cancel, Nat.mul_succ, Nat.succ_mul] at range
    omega

/-- **Packing of the outputs.** In all encoders with these alphabets the symbols are in range, are
those of the joint machine and of the decoder and determine the pairs of outputs, if and only if the
alphabets are of one size or the first has one output, and the type of the items holds all pairs. -/
theorem pccc_packing_iff (positive₁ : 0 < O1) (positive₂ : 0 < O2) :
    PackingAgrees type O1 O2 ↔ (O1 = O2 ∨ O1 = 1) ∧ O1 * O2 ≤ type.values := by
  refine ⟨fun agrees => ?_, fun ⟨alphabets, fits⟩ => packingAgrees_of alphabets fits⟩
  have alphabets := alphabets_of agrees positive₁ positive₂
  have last := (lt_of_agrees agrees (show O1 - 1 < O1 by omega) (show O2 - 1 < O2 by omega)).1
  refine ⟨alphabets, ?_⟩
  obtain ⟨a, rfl⟩ : ∃ a, O1 = a + 1 := ⟨O1 - 1, by omega⟩
  rw [Nat.add_sub_cancel] at last
  rcases alphabets with rfl | one
  · rw [Nat.mul_succ] at last ⊢
    rw [Nat.succ_mul]
    omega
  · have zero : a = 0 := by omega
    rw [zero] at last ⊢
    omega

theorem pccc_packing_iff_bytes : PackingAgrees .b 2 4 ↔ (2 = 4 ∨ 2 = 1) ∧ 2 * 4 ≤ 256 :=
  pccc_packing_iff (by decide) (by decide)

theorem zero_one_lt : ∀ x ∈ [0, 1], x < 2 := by decide

theorem two_zero_lt : ∀ x ∈ [2, 0], x < 4 := by decide

/-- With 2 and 4 outputs the pairs `(0, 2)` and `(1, 0)` have one symbol. -/
theorem pccc_packing_collides :
    ∃ e e' : EncoderCall (twoOutputs 2 0 1 zero_one_lt) (twoOutputs 4 2 0 two_zero_lt),
      e.Step 0 0 ∧ e'.Step 0 0 ∧ e.symbol .i 0 0 = 2 ∧ e'.symbol .i 0 0 = 2 ∧
        e.outputs 0 0 = (0, 2) ∧ e'.outputs 0 0 = (1, 0) :=
  ⟨pairCall _ _ zero_lt_two, pairCall _ _ one_lt_two, pairCall_step _ _ _, pairCall_step _ _ _,
    pairCall_first _ _, pairCall_second _ _, rfl, rfl⟩

end GnuRadio
