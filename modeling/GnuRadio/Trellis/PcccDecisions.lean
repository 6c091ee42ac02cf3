import GnuRadio.Trellis.Pccc

/-!
# Decisions of the parallel decoder

In each iteration what one code says about the inputs becomes the priors of the
other. Metrics are combined by adding them up, and `p2mymin` leaves out what is
not asked for; the decisions take `p2mymin` of what the two codes say. A second
code that says nothing then hides what the first one says.
-/

namespace GnuRadio

/-- The least of the first `n` values is at `u`. -/
def Minimises (n : Nat) (f : Nat → ℚ) (u : Nat) : Prop := u < n ∧ ∀ i < n, f u ≤ f i

/-- The first `n` places of the tables permute the steps of a block. -/
structure Interleaver.Fits (INTERLEAVER : Interleaver) (n : Nat) : Prop where
  le : n ≤ INTERLEAVER.K
  lt : ∀ k < n, INTERLEAVER.INTER.getD k 0 < n

/-- A call of `pccc_decoder` with machines of one input alphabet and an interleaver of the block. -/
structure DecoderCall where
  FSM1 : Fsm
  ST10 : Int
  ST1K : Int
  FSM2 : Fsm
  ST20 : Int
  ST2K : Int
  INTERLEAVER : Interleaver
  blocklength : Nat
  repetitions : Nat
  cprioro : List ℚ
  same : FSM1.I = FSM2.I
  fits : INTERLEAVER.Fits blocklength
  repeated : 0 < repetitions

namespace DecoderCall

section SoftValues

variable (d : DecoderCall) (p2mymin : ℚ → ℚ → ℚ)

/-- What the call writes, converted by `cast`. -/
def decoder {To : Type} (cast : Nat → To) : Except String (List To) :=
  pcccDecoder cast d.FSM1 d.ST10 d.ST1K d.FSM2 d.ST20 d.ST2K d.INTERLEAVER d.blocklength
    d.repetitions p2mymin d.cprioro

/-- The metrics of the outputs of the first machine. -/
def prioro1 : List ℚ := pcccPrioro1 d.FSM1 d.FSM2 d.blocklength p2mymin d.cprioro

/-- The metrics of the outputs of the second machine. -/
def prioro2 : List ℚ := pcccPrioro2 d.FSM1 d.FSM2 d.blocklength p2mymin d.cprioro

/-- One iteration of the call. -/
def iteration (a : PcccArrays) : Except String PcccArrays :=
  pcccIteration d.FSM1 d.ST10 d.ST1K d.FSM2 d.ST20 d.ST2K d.INTERLEAVER d.blocklength p2mymin
    (d.prioro1 p2mymin) (d.prioro2 p2mymin) a

/-- The arrays after `n` iterations. -/
def arrays (n : Nat) : Except String PcccArrays :=
  (List.range n).foldlM (fun a _ => d.iteration p2mymin a)
    ⟨List.replicate (d.blocklength * d.FSM1.I) 0, List.replicate (d.blocklength * d.FSM1.I) 0,
      List.replicate (d.blocklength * d.FSM2.I) 0⟩

/-- The sum of what the codes say about input `i` of step `k`: the second's metrics have been
de-interleaved into `priori1`. -/
def evidence (a : PcccArrays) (k i : Nat) : ℚ :=
  a.posti1.getD (k * d.FSM1.I + i) 0 + a.priori1.getD (k * d.FSM1.I + i) 0

/-- Priors that say nothing. -/
def silence : List ℚ := List.replicate (d.blocklength * d.FSM1.I) 0

/-- What the first code alone says about input `i` of step `k`, with zero priors and the metrics
`prioro` of its outputs. -/
def alone (prioro : List ℚ) (k i : Nat) : ℚ :=
  (sisoPosti d.FSM1 d.ST10 d.ST1K p2mymin d.silence prioro d.blocklength k).getD i 0

/-- The symbols written are, converted, the places of the least values of `score`. -/
def Decides (score : Nat → Nat → ℚ) : Prop :=
  ∃ data : List Nat, (∀ (To : Type) (cast : Nat → To),
      d.decoder p2mymin cast = .ok (data.map cast)) ∧ data.length = d.blocklength ∧
    ∀ k < d.blocklength, Minimises d.FSM1.I (score k) (data.getD k 0)

end SoftValues

/-! ## Metrics that say nothing -/

section Silence

variable {l row priori prioro : List ℚ} {n K k i j m : Nat} {f : Fsm} {S0 SK : Int} {c : ℚ}

theorem getD_zero (zero : ∀ x ∈ l, x = 0) (i : Nat) : l.getD i 0 = 0 := by
  rw [List.getD_eq_getElem?_getD]
  cases entry : l[i]? with
  | none => rfl
  | some x => exact zero x (List.mem_of_getElem? entry)

/-- Zero metrics copied into zero metrics change nothing. -/
theorem memcpy_zero (zero : ∀ x ∈ l, x = 0) :
    memcpy (List.replicate n 0) i l j m = List.replicate n 0 :=
  List.foldl_fixed' (fun k => by rw [getD_zero zero, List.set_replicate_self]) (List.range m)

theorem normalize_nonneg : ∀ x ∈ normalize n row, 0 ≤ x := by
  intro x member
  obtain ⟨j, inside, rfl⟩ := List.mem_map.mp member
  refine sub_nonneg.mpr ((leastAt_isLeast INF _ n).2 (Or.inr ⟨j, ?_, rfl⟩))
  exact List.mem_range.mp inside

/-- Equal metrics are normalised to 0. -/
theorem normalize_const (capped : c ≤ INF) (same : ∀ i < n, row.getD i 0 = c) :
    ∀ x ∈ normalize n row, x = 0 := by
  intro x member
  obtain ⟨j, inside, rfl⟩ := List.mem_map.mp member
  rw [List.mem_range] at inside
  have least := leastAt_isLeast INF (fun j => row.getD j 0) n
  have below := least.2 (Or.inr ⟨j, inside, rfl⟩)
  rw [same j inside, sub_eq_zero]
  rw [same j inside] at below
  refine le_antisymm ?_ below
  rcases least.1 with top | ⟨i, inside', value⟩
  · rw [top]
    exact capped
  · rw [← value, same i inside']

theorem sisoPosti_nonneg : ∀ x ∈ sisoPosti f S0 SK min priori prioro K k, 0 ≤ x := normalize_nonneg

/-- A code of one state and one output says nothing about its inputs. -/
theorem sisoPosti_trivial (state : f.S = 1) (output : f.O = 1) :
    ∀ x ∈ sisoPosti f S0 SK min priori prioro K k, x = 0 := by
  let alpha := sisoAlpha f S0 min priori prioro k
  let beta := sisoBeta f SK min priori prioro K (K - (k + 1))
  let only := accumulate min INF
    (fun _ => alpha.getD 0 0 + prioro.getD (k * f.O) 0 + beta.getD 0 0) (List.range f.S)
  have capped : only ≤ INF := (accumulate_isLeast INF _ _).2 (Or.inl rfl)
  refine normalize_const capped fun i inside => ?_
  rw [getD_map_range _ 0 inside]
  refine accumulate_congr fun j member => ?_
  have first : j = 0 := by
    have below := List.mem_range.mp member
    omega
  have puts : f.output 0 i = 0 := by
    have below := Fsm.output_lt (f := f) (s := 0) (by omega) inside
    omega
  have stays : f.next 0 i = 0 := by
    have below := Fsm.next_lt (f := f) (s := 0) (by omega) inside
    omega
  rw [first, puts, stays, Nat.add_zero]

theorem leastAt_zero {g : Nat → ℚ} (zero : ∀ i < n, g i = 0) : (leastAt INF g n).2 = 0 := by
  by_contra later
  have less := leastAt_first (Nat.pos_of_ne_zero later)
  have below : (leastAt INF g n).1 < INF := by
    rcases Nat.eq_zero_or_pos n with rfl | some
    · exact absurd rfl later
    · exact (less.trans_eq (zero 0 some)).trans (by decide)
  obtain ⟨inside, attained⟩ := leastAt_index below
  rw [← attained, zero _ inside, zero 0 (Nat.zero_lt_of_lt inside)] at less
  exact lt_irrefl 0 less

end Silence

/-! ## A second code of one state and one output -/

variable {d : DecoderCall} {k i n : Nat}

/-- What the first code says, with priors that say nothing, for all steps. -/
def posti1 (d : DecoderCall) : List ℚ :=
  (List.range d.blocklength).flatMap
    (sisoPosti d.FSM1 d.ST10 d.ST1K min d.silence (d.prioro1 min) d.blocklength)

/-- The second code gives back priors that say nothing. -/
theorem iteration_silent (state : d.FSM2.S = 1) (output : d.FSM2.O = 1) {a : PcccArrays}
    (quiet : a.priori1 = d.silence) :
    ∃ a', d.iteration min a = .ok a' ∧ a'.priori1 = d.silence ∧ a'.posti1 = d.posti1 := by
  refine ⟨_, rfl, ?_, congrArg (fun priori => (List.range d.blocklength).flatMap
    (sisoPosti d.FSM1 d.ST10 d.ST1K min priori (d.prioro1 min) d.blocklength)) quiet⟩
  refine (congrArg (fun priori => List.foldl _ priori (List.range d.blocklength)) quiet).trans ?_
  refine List.foldl_fixed' (fun k => memcpy_zero fun x member => ?_) (List.range d.blocklength)
  obtain ⟨step, -, member⟩ := List.mem_flatMap.mp member
  exact sisoPosti_trivial state output x member

theorem arrays_silent (state : d.FSM2.S = 1) (output : d.FSM2.O = 1) (n : Nat) :
    ∃ a, d.arrays min (n + 1) = .ok a ∧ a.priori1 = d.silence ∧ a.posti1 = d.posti1 := by
  have before : ∃ a, d.arrays min n = .ok a ∧ a.priori1 = d.silence := by
    induction n with
    | zero => exact ⟨_, rfl, rfl⟩
    | succ n ih =>
      obtain ⟨a, reached, quiet⟩ := ih
      obtain ⟨a', iterated, quiet', -⟩ := iteration_silent state output quiet
      refine ⟨a', ?_, quiet'⟩
      rw [arrays, List.range_succ, foldlM_append_ok]
      exact ⟨a, reached, foldlM_singleton_ok.mpr iterated⟩
  obtain ⟨a, reached, quiet⟩ := before
  obtain ⟨a', iterated, found⟩ := iteration_silent state output quiet
  refine ⟨a', ?_, found⟩
  rw [arrays, List.range_succ, foldlM_append_ok]
  exact ⟨a, reached, foldlM_singleton_ok.mpr iterated⟩

theorem posti1_getD (step : k < d.blocklength) (inside : i < d.FSM1.I) :
    d.posti1.getD (k * d.FSM1.I + i) 0 = d.alone min (d.prioro1 min) k i :=
  getD_flatMap 0 (fun _ _ => sisoPosti_length) step inside

/-- What a silent second code says is never more than what the first one says, so that 0 is
written at every step. -/
theorem decoder_silent (state : d.FSM2.S = 1) (output : d.FSM2.O = 1) {To : Type}
    (cast : Nat → To) : d.decoder min cast = .ok ((List.replicate d.blocklength 0).map cast) := by
  obtain ⟨a, reached, quiet, found⟩ := arrays_silent state output (d.repetitions - 1)
  rw [Nat.sub_add_cancel d.repeated] at reached
  have combined : ∀ x ∈ List.zipWith min d.silence d.posti1, x = 0 := by
    intro x member
    obtain ⟨n, here⟩ := List.mem_iff_getElem?.mp member
    obtain ⟨y, z, zero, said, rfl⟩ := List.getElem?_zipWith_eq_some.mp here
    obtain rfl := List.eq_of_mem_replicate (List.mem_of_getElem? zero)
    obtain ⟨step, -, member⟩ := List.mem_flatMap.mp (List.mem_of_getElem? said)
    exact min_eq_left (sisoPosti_nonneg z member)
  have decided : d.decoder min cast = .ok (hardDecisions cast
      (List.zipWith min d.silence d.posti1) d.FSM1.I d.blocklength) := by
    have parts : d.decoder min cast = d.arrays min d.repetitions >>= fun a =>
      .ok (hardDecisions cast (List.zipWith min a.priori1 a.posti1) d.FSM1.I d.blocklength) := rfl
    rw [parts, reached, ok_bind, quiet, found]
  rw [decided, hardDecisions, List.map_replicate]
  refine congrArg Except.ok (List.eq_replicate_iff.mpr ⟨by simp, fun x member => ?_⟩)
  obtain ⟨k, -, rfl⟩ := List.mem_map.mp member
  exact congrArg cast (leastAt_zero fun i _ => getD_zero combined _)

theorem decides_iff (state : d.FSM2.S = 1) (output : d.FSM2.O = 1) (score : Nat → Nat → ℚ) :
    d.Decides min score ↔ ∀ k < d.blocklength, Minimises d.FSM1.I (score k) 0 := by
  constructor
  · rintro ⟨data, written, -, minimal⟩ k step
    have same := (decoder_silent state output id).symm.trans (written Nat id)
    rw [List.map_id, List.map_id] at same
    have least := minimal k step
    rwa [← Except.ok.inj same, List.getD_replicate 0 step] at least
  · intro minimal
    refine ⟨List.replicate d.blocklength 0, fun _ => decoder_silent state output, by simp, ?_⟩
    intro k step
    rw [List.getD_replicate 0 step]
    exact minimal k step

end DecoderCall
theorem lastInput_length : [0, 1, 0, 1].length = 2 * 2 := rfl

theorem lastInput_lt : ∀ s ∈ [0, 1, 0, 1], s < 2 := by decide

theorem silent_lt : ∀ o ∈ [0, 0, 0, 0], o < 1 := by decide

/-- The machine whose state is its last input, with one output. -/
def lastInput : Fsm :=
  Fsm.ofTables 2 2 1 [0, 1, 0, 1] [0, 0, 0, 0] lastInput_length rfl lastInput_lt silent_lt

theorem ignoring_lt : ∀ o ∈ [0, 0], o < 1 := by decide

/-- The machine of one state and one output, with two inputs. -/
def ignoring : Fsm := Fsm.memoryless 1 [0, 0] ignoring_lt

theorem unit_fits : Interleaver.unit.Fits 1 := ⟨Nat.le_refl 1, by decide⟩

/-- One step of a code that ends in state 1, with a second code that ignores its input. -/
def endsInOne : DecoderCall where
  FSM1 := lastInput
  ST10 := 0
  ST1K := 1
  FSM2 := ignoring
  ST20 := 0
  ST2K := 0
  INTERLEAVER := Interleaver.unit
  blocklength := 1
  repetitions := 1
  cprioro := [0]
  same := rfl
  fits := unit_fits
  repeated := Nat.one_pos

end GnuRadio
