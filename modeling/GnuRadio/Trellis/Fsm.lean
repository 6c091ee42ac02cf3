import Mathlib.Algebra.Order.Ring.Rat
import Mathlib.Data.List.GetD
import GnuRadio.Misc.CappedLeast

/-!
# Finite state machines of gr-trellis

An `fsm` is kept as flat tables: `NS` and `OS` give the next state and the output
of each state and input, `PS` and `PI` list for each state the states and inputs
that lead to it. The metrics are exact rationals.
-/

namespace GnuRadio

/-- `INF` (`core_algorithms.cc:30`). -/
def INF : ℚ := 1000000000

theorem INF_nonneg : 0 ≤ INF := by decide

/-- The tables list the transitions into each state. -/
def PredecessorTables (I S : Nat) (NS : List Nat) (PS PI : List (List Nat)) : Prop :=
  ∀ j < S, (PS.getD j []).length = (PI.getD j []).length ∧
    ∀ s u, (s, u) ∈ (PS.getD j []).zip (PI.getD j []) ↔ s < S ∧ u < I ∧ NS.getD (s * I + u) 0 = j

/-- `fsm` (`fsm.h:32-72`), with tables that fit together. Sizes are exact: the source has `int`s,
and products such as `d_S*d_S` and `K*d_S` which have to fit one. -/
structure Fsm where
  I : Nat
  S : Nat
  O : Nat
  NS : List Nat
  OS : List Nat
  PS : List (List Nat)
  PI : List (List Nat)
  ns_length : NS.length = S * I
  os_length : OS.length = S * I
  ns_lt : ∀ s ∈ NS, s < S
  os_lt : ∀ o ∈ OS, o < O
  predecessors : PredecessorTables I S NS PS PI

/-- The transitions into a state, in the order of `generate_PS_PI` (`fsm.cc:386-391`). -/
def transitionsInto (I S : Nat) (NS : List Nat) (i : Nat) : List (Nat × Nat) :=
  (List.range S).flatMap fun ii => (List.range I).filterMap fun jj =>
    if NS.getD (ii * I + jj) 0 = i then some (ii, jj) else none

/-- `generate_PS_PI` (`fsm.cc:377-395`). -/
def generatePSPI (I S : Nat) (NS : List Nat) : List (List Nat) × List (List Nat) :=
  ((List.range S).map fun i => (transitionsInto I S NS i).map Prod.fst,
    (List.range S).map fun i => (transitionsInto I S NS i).map Prod.snd)

variable {α : Type} {n j S : Nat} {rows : Nat → List α}

theorem getD_map_range (f : Nat → α) (d : α) (below : j < n) :
    ((List.range n).map f).getD j d = f j := by
  rw [List.getD_eq_getElem?_getD, List.getElem?_map, List.getElem?_range below]
  rfl

theorem length_flatMap {K : Nat} (lengths : ∀ k < K, (rows k).length = n) :
    ((List.range K).flatMap rows).length = K * n := by
  induction K with
  | zero => exact (Nat.zero_mul n).symm
  | succ K ih =>
    rw [List.range_succ, List.flatMap_append, List.length_append, List.flatMap_singleton,
      lengths K (Nat.lt_succ_self K), Nat.succ_mul,
      ih fun k less => lengths k (Nat.lt_succ_of_lt less)]

theorem getD_flatMap {K k i : Nat} (d : α) (lengths : ∀ k < K, (rows k).length = n) (step : k < K)
    (inside : i < n) : ((List.range K).flatMap rows).getD (k * n + i) d = (rows k).getD i d := by
  induction K with
  | zero => exact absurd step (Nat.not_lt_zero k)
  | succ K ih =>
    rw [List.range_succ, List.flatMap_append, List.flatMap_singleton]
    have before := length_flatMap fun k less => lengths k (Nat.lt_succ_of_lt less)
    rcases Nat.lt_succ_iff_lt_or_eq.mp step with earlier | rfl
    · have below : k * n + i < K * n :=
        calc
          k * n + i < k * n + n := Nat.add_lt_add_left inside _
          _ = (k + 1) * n := (Nat.succ_mul k n).symm
          _ ≤ K * n := Nat.mul_le_mul_right n earlier
      rw [List.getD_append _ _ _ _ (before ▸ below)]
      exact ih (fun k less => lengths k (Nat.lt_succ_of_lt less)) earlier
    · rw [List.getD_append_right _ _ _ _ (by omega), before, Nat.add_sub_cancel_left]

theorem mem_transitionsInto {I : Nat} {NS : List Nat} {i s u : Nat} :
    (s, u) ∈ transitionsInto I S NS i ↔ s < S ∧ u < I ∧ NS.getD (s * I + u) 0 = i := by
  simp only [transitionsInto, List.mem_flatMap, List.mem_range, List.mem_filterMap]
  constructor
  · rintro ⟨ii, state, jj, input, entry⟩
    split at entry
    · rename_i into
      cases entry
      exact ⟨state, input, into⟩
    · cases entry
  · intro ⟨state, input, into⟩
    exact ⟨s, state, u, input, if_pos into⟩

theorem generatePSPI_tables (I S : Nat) (NS : List Nat) :
    PredecessorTables I S NS (generatePSPI I S NS).1 (generatePSPI I S NS).2 := by
  intro j below
  simp only [generatePSPI]
  rw [getD_map_range _ _ below, getD_map_range _ _ below]
  refine ⟨by rw [List.length_map, List.length_map], fun s u => ?_⟩
  have pairs : ((transitionsInto I S NS j).map Prod.fst).zip
      ((transitionsInto I S NS j).map Prod.snd) = transitionsInto I S NS j :=
    (List.zip_of_prod rfl rfl).symm
  rw [pairs]
  exact mem_transitionsInto

/-- `fsm::fsm(int I, int S, int O, NS, OS)` (`fsm.cc:60-70`), for tables that are in range. -/
def Fsm.ofTables (I S O : Nat) (NS OS : List Nat) (ns_length : NS.length = S * I)
    (os_length : OS.length = S * I) (ns_lt : ∀ s ∈ NS, s < S) (os_lt : ∀ o ∈ OS, o < O) : Fsm where
  I := I
  S := S
  O := O
  NS := NS
  OS := OS
  PS := (generatePSPI I S NS).1
  PI := (generatePSPI I S NS).2
  ns_length := ns_length
  os_length := os_length
  ns_lt := ns_lt
  os_lt := os_lt
  predecessors := generatePSPI_tables I S NS

theorem accumulator_length : [0, 1, 1, 0].length = 2 * 2 := rfl

theorem accumulator_lt : ∀ s ∈ [0, 1, 1, 0], s < 2 := by decide

/-- The accumulator of bits, the machine with generator `1/(1+D)`. -/
def accumulator : Fsm :=
  Fsm.ofTables 2 2 2 [0, 1, 1, 0] [0, 1, 1, 0] accumulator_length accumulator_length
    accumulator_lt accumulator_lt

theorem memoryless_next_length (I : Nat) : (List.replicate I 0).length = 1 * I := by
  rw [List.length_replicate, Nat.one_mul]

theorem memoryless_output_length (OS : List Nat) : OS.length = 1 * OS.length :=
  (Nat.one_mul _).symm

theorem memoryless_next_lt (I : Nat) : ∀ s ∈ List.replicate I 0, s < 1 := by
  intro s member
  rw [List.eq_of_mem_replicate member]
  exact Nat.one_pos

/-- The machine of one state with these outputs. -/
def Fsm.memoryless (O : Nat) (OS : List Nat) (os_lt : ∀ o ∈ OS, o < O) : Fsm :=
  Fsm.ofTables OS.length 1 O (List.replicate OS.length 0) OS (memoryless_next_length OS.length)
    (memoryless_output_length OS) (memoryless_next_lt OS.length) os_lt

theorem uncoded_lt : ∀ o ∈ [0, 1], o < 2 := by decide

/-- The machine of one state whose output is its input, a bit. -/
def uncoded : Fsm := Fsm.memoryless 2 [0, 1] uncoded_lt

theorem inverted_lt : ∀ o ∈ [1, 0], o < 2 := by decide

/-- The machine of one state that inverts a bit. -/
def inverted : Fsm := Fsm.memoryless 2 [1, 0] inverted_lt

namespace Fsm

/-- The entry of `d_NS`. -/
def next (f : Fsm) (s u : Nat) : Nat := f.NS.getD (s * f.I + u) 0

/-- The entry of `d_OS`. -/
def output (f : Fsm) (s u : Nat) : Nat := f.OS.getD (s * f.I + u) 0

variable {f : Fsm} {s u : Nat}

theorem index_lt (state : s < f.S) (input : u < f.I) : s * f.I + u < f.S * f.I :=
  calc
    s * f.I + u < s * f.I + f.I := Nat.add_lt_add_left input _
    _ = (s + 1) * f.I := (Nat.succ_mul s f.I).symm
    _ ≤ f.S * f.I := Nat.mul_le_mul_right f.I state

theorem next_lt (state : s < f.S) (input : u < f.I) : f.next s u < f.S := by
  have inside : s * f.I + u < f.NS.length := f.ns_length ▸ index_lt state input
  rw [next, List.getD_eq_getElem _ _ inside]
  exact f.ns_lt _ (List.getElem_mem inside)

theorem output_lt (state : s < f.S) (input : u < f.I) : f.output s u < f.O := by
  have inside : s * f.I + u < f.OS.length := f.os_length ▸ index_lt state input
  rw [output, List.getD_eq_getElem _ _ inside]
  exact f.os_lt _ (List.getElem_mem inside)

/-- `PS[j][i]`. -/
def ps (f : Fsm) (j i : Nat) : Nat := (f.PS.getD j []).getD i 0

/-- `PI[j][i]`. -/
def pi (f : Fsm) (j i : Nat) : Nat := (f.PI.getD j []).getD i 0

theorem predecessor {j i : Nat} (state : j < f.S) (inside : i < (f.PS.getD j []).length) :
    f.ps j i < f.S ∧ f.pi j i < f.I ∧ f.next (f.ps j i) (f.pi j i) = j := by
  obtain ⟨lengths, listed⟩ := f.predecessors j state
  apply (listed (f.ps j i) (f.pi j i)).mp
  have inside' : i < (f.PI.getD j []).length := lengths ▸ inside
  have both : i < ((f.PS.getD j []).zip (f.PI.getD j [])).length := by
    rw [List.length_zip]
    omega
  have entry := List.getElem_mem both
  rw [List.getElem_zip] at entry
  rwa [ps, pi, List.getD_eq_getElem _ _ inside, List.getD_eq_getElem _ _ inside']

theorem exists_predecessor {j : Nat} (state : j < f.S) {α : Type} (g : Nat → Nat → α) (x : α) :
    (∃ i < (f.PS.getD j []).length, g (f.ps j i) (f.pi j i) = x) ↔
      ∃ s u, s < f.S ∧ u < f.I ∧ f.next s u = j ∧ g s u = x := by
  constructor
  · intro ⟨i, inside, value⟩
    have ⟨before, input, reached⟩ := predecessor state inside
    exact ⟨_, _, before, input, reached, value⟩
  · intro ⟨s, u, before, input, reached, value⟩
    obtain ⟨lengths, listed⟩ := f.predecessors j state
    obtain ⟨i, inside, entry⟩ := List.mem_iff_getElem.mp ((listed s u).mpr ⟨before, input, reached⟩)
    rw [List.length_zip] at inside
    rw [List.getElem_zip] at entry
    have inside₁ : i < (f.PS.getD j []).length := by omega
    have inside₂ : i < (f.PI.getD j []).length := by omega
    obtain ⟨first, second⟩ := Prod.mk.inj entry
    refine ⟨i, inside₁, ?_⟩
    rw [ps, pi, List.getD_eq_getElem _ _ inside₁, List.getD_eq_getElem _ _ inside₂, first, second]
    exact value

/-- The machine drawn over time, from `S0` to `SK`; a negative one stands for any state. -/
def trellis (f : Fsm) (S0 SK : Int) (cost : Nat → Nat → Nat → ℚ) : Trellis Nat Nat ℚ where
  state s := s < f.S
  input u := u < f.I
  start s := s < f.S ∧ (S0 < 0 ∨ S0 = s)
  accept s := SK < 0 ∨ SK = s
  next := f.next
  cost := cost
  next_state := next_lt
  start_state start := start.1

end Fsm

/-! ## Rows of metrics -/

/-- The row that says where paths begin or end: `S0` or `SK`
(`core_algorithms.cc:64-70`, `core_algorithms.cc:437-443`, `core_algorithms.cc:461-467`). -/
def edgeRow (S : Nat) (S0 : Int) : List ℚ :=
  if S0 < 0 then List.replicate S 0 else (List.replicate S INF).set S0.toNat 0

/-- The least metric of a row is taken off, "so they do not explode". -/
def normalize (n : Nat) (row : List ℚ) : List ℚ :=
  let norm := (leastAt INF (fun j => row.getD j 0) n).1
  (List.range n).map fun j => row.getD j 0 - norm

theorem getD_nonneg {l : List ℚ} (nonneg : ∀ x ∈ l, 0 ≤ x) (i : Nat) : 0 ≤ l.getD i 0 := by
  rw [List.getD_eq_getElem?_getD]
  cases entry : l[i]? with
  | none => exact le_rfl
  | some x => exact nonneg x (List.mem_of_getElem? entry)

theorem normalize_getD {row : List ℚ} (below : j < n) :
    (normalize n row).getD j 0 = row.getD j 0 - (leastAt INF (fun j => row.getD j 0) n).1 :=
  getD_map_range _ 0 below

theorem edgeRow_getD {S0 : Int} (below : j < S) :
    (edgeRow S S0).getD j 0 = if S0 < 0 ∨ S0 = j then 0 else INF := by
  unfold edgeRow
  by_cases any : S0 < 0
  · rw [if_pos any, if_pos (Or.inl any), List.getD_eq_getElem?_getD, List.getElem?_replicate,
      if_pos below]
    rfl
  · rw [if_neg any, List.getD_eq_getElem?_getD, List.getElem?_set, List.length_replicate]
    by_cases same : S0 = j
    · have place : S0.toNat = j := by omega
      rw [if_pos (Or.inr same), if_pos place, if_pos (place ▸ below)]
      rfl
    · have place : S0.toNat ≠ j := by omega
      rw [if_neg (not_or.mpr ⟨any, same⟩), if_neg place, List.getElem?_replicate, if_pos below]
      rfl

theorem edgeRow_represents {S0 : Int} {P : Nat → Set ℚ}
    (empty : ∀ j < S, ∀ t, t ∈ P j ↔ (S0 < 0 ∨ S0 = j) ∧ t = 0) :
    Represents INF (· < S) P (fun j => (edgeRow S S0).getD j 0) 0 where
  least j below := by
    rw [edgeRow_getD below, add_zero]
    split
    · rename_i edge
      refine ⟨fun t member _ => ?_, fun _ => (empty j below 0).mpr ⟨edge, rfl⟩⟩
      exact ((empty j below t).mp member).2.ge
    · rename_i elsewhere
      exact cappedLeast_empty le_rfl fun t member => elsewhere ((empty j below t).mp member).1
  nonneg j below := by
    rw [edgeRow_getD below, add_zero]
    split
    · exact le_rfl
    · exact INF_nonneg
  members j below t member := ((empty j below t).mp member).2.ge
  offset_nonneg := le_rfl

section Steps

variable {T : Trellis Nat Nat ℚ} {n k steps : Nat} {before : List ℚ} {low offset : ℚ}

theorem normalize_norm (states : T.state = fun j => j < n) (row : List ℚ) :
    IsLeast (insert INF {x | ∃ j, T.state j ∧ row.getD j 0 = x})
      (leastAt INF (fun j => row.getD j 0) n).1 := by
  rw [states]
  exact leastAt_isLeast INF (fun j => row.getD j 0) n

theorem forward_row (row : List ℚ) (states : T.state = fun j => j < n)
    (represents : Represents INF T.state (T.prefixes k) (fun j => before.getD j 0) offset)
    (costs : ∀ s u, T.state s → T.input u → 0 ≤ T.cost k s u) (lowNonpos : low ≤ 0)
    (relaxed : ∀ j, T.state j → IsLeast (insert INF {x | ∃ s u, T.state s ∧ T.input u ∧
      T.next s u = j ∧ before.getD s 0 + (T.cost k s u + low) = x}) (row.getD j 0)) :
    Represents INF T.state (T.prefixes (k + 1)) (fun j => (normalize n row).getD j 0)
      (offset - low + (leastAt INF (fun j => row.getD j 0) n).1) := by
  have stepped := Trellis.forward represents costs INF_nonneg lowNonpos relaxed
    (normalize_norm states row)
  refine stepped.congr fun j state => normalize_getD ?_
  rwa [states] at state

theorem backward_row (row : List ℚ) (states : T.state = fun j => j < n)
    (represents : Represents INF T.state (T.suffixes steps (k + 1)) (fun j => before.getD j 0)
      offset)
    (costs : ∀ s u, T.state s → T.input u → 0 ≤ T.cost k s u) (lowNonpos : low ≤ 0)
    (relaxed : ∀ j, T.state j → IsLeast (insert INF {x | ∃ u, T.input u ∧
      before.getD (T.next j u) 0 + (T.cost k j u + low) = x}) (row.getD j 0)) :
    Represents INF T.state (T.suffixes (steps + 1) k) (fun j => (normalize n row).getD j 0)
      (offset - low + (leastAt INF (fun j => row.getD j 0) n).1) := by
  have stepped := Trellis.backward represents costs INF_nonneg lowNonpos relaxed
    (normalize_norm states row)
  refine stepped.congr fun j state => normalize_getD ?_
  rwa [states] at state

end Steps

/-!
## The joint machine of two machines

Its states, inputs and outputs are pairs, packed with the second machine's number
of states, inputs and outputs.
-/

/-- A table with a row of `I` entries for each of `S` states. -/
def table (S I : Nat) (g : Nat → Nat → Nat) : List Nat :=
  (List.range S).flatMap fun s => (List.range I).map (g s)

theorem table_length (S I : Nat) (g : Nat → Nat → Nat) : (table S I g).length = S * I :=
  length_flatMap fun _ _ => by rw [List.length_map, List.length_range]

theorem table_getD {S I s i : Nat} (g : Nat → Nat → Nat) (state : s < S) (input : i < I) :
    (table S I g).getD (s * I + i) 0 = g s i := by
  rw [table, getD_flatMap 0 (fun _ _ => by rw [List.length_map, List.length_range]) state input]
  exact getD_map_range _ 0 input

theorem table_lt {S I bound : Nat} {g : Nat → Nat → Nat}
    (below : ∀ s < S, ∀ i < I, g s i < bound) : ∀ x ∈ table S I g, x < bound := by
  intro x member
  obtain ⟨s, state, row⟩ := List.mem_flatMap.mp member
  obtain ⟨i, input, rfl⟩ := List.mem_map.mp row
  exact below s (List.mem_range.mp state) i (List.mem_range.mp input)

variable {a b B : Nat}

theorem packed_lt {A : Nat} (first : a < A) (second : b < B) : a * B + b < A * B :=
  calc
    a * B + b < a * B + B := Nat.add_lt_add_left second _
    _ = (a + 1) * B := (Nat.succ_mul a B).symm
    _ ≤ A * B := Nat.mul_le_mul_right B first

/-- What `fsm::fsm(const fsm &FSM1, const fsm &FSM2)` writes to `d_NS` and `d_OS`
(`fsm.cc:316-325`). -/
def jointNext (FSM1 FSM2 : Fsm) (s i : Nat) : Nat :=
  FSM1.next (s / FSM2.S) (i / FSM2.I) * FSM2.S + FSM2.next (s % FSM2.S) (i % FSM2.I)

@[inherit_doc jointNext]
def jointOutput (FSM1 FSM2 : Fsm) (s i : Nat) : Nat :=
  FSM1.output (s / FSM2.S) (i / FSM2.I) * FSM2.O + FSM2.output (s % FSM2.S) (i % FSM2.I)

theorem parts_lt {s A : Nat} (below : s < A * B) : s / B < A ∧ s % B < B := by
  have positive : 0 < B := Nat.pos_of_ne_zero fun zero => by
    rw [zero, Nat.mul_zero] at below
    exact Nat.not_lt_zero s below
  exact ⟨(Nat.div_lt_iff_lt_mul positive).mpr below, Nat.mod_lt s positive⟩

theorem jointNext_lt {FSM1 FSM2 : Fsm} : ∀ s < FSM1.S * FSM2.S, ∀ i < FSM1.I * FSM2.I,
    jointNext FSM1 FSM2 s i < FSM1.S * FSM2.S := by
  intro s state i input
  have ⟨s₁, s₂⟩ := parts_lt state
  have ⟨i₁, i₂⟩ := parts_lt input
  exact packed_lt (Fsm.next_lt s₁ i₁) (Fsm.next_lt s₂ i₂)

theorem jointOutput_lt {FSM1 FSM2 : Fsm} : ∀ s < FSM1.S * FSM2.S, ∀ i < FSM1.I * FSM2.I,
    jointOutput FSM1 FSM2 s i < FSM1.O * FSM2.O := by
  intro s state i input
  have ⟨s₁, s₂⟩ := parts_lt state
  have ⟨i₁, i₂⟩ := parts_lt input
  exact packed_lt (Fsm.output_lt s₁ i₁) (Fsm.output_lt s₂ i₂)

/-- The machine with these tables, whose sizes `Fsm.jointFsm` checks. -/
def Fsm.joint (FSM1 FSM2 : Fsm) : Fsm :=
  Fsm.ofTables (FSM1.I * FSM2.I) (FSM1.S * FSM2.S) (FSM1.O * FSM2.O)
    (table (FSM1.S * FSM2.S) (FSM1.I * FSM2.I) (jointNext FSM1 FSM2))
    (table (FSM1.S * FSM2.S) (FSM1.I * FSM2.I) (jointOutput FSM1 FSM2))
    (table_length _ _ _) (table_length _ _ _) (table_lt jointNext_lt) (table_lt jointOutput_lt)

theorem packed_div (second : b < B) : (a * B + b) / B = a := by
  rw [Nat.add_comm, Nat.add_mul_div_right _ _ (Nat.zero_lt_of_lt second), Nat.div_eq_of_lt second,
    Nat.zero_add]

theorem packed_mod (second : b < B) : (a * B + b) % B = b := by
  rw [Nat.add_comm, Nat.add_mul_mod_self_right, Nat.mod_eq_of_lt second]

namespace Fsm

variable {FSM1 FSM2 : Fsm} {s₁ s₂ u₁ u₂ : Nat}

theorem joint_output (state₁ : s₁ < FSM1.S) (state₂ : s₂ < FSM2.S) (input₁ : u₁ < FSM1.I)
    (input₂ : u₂ < FSM2.I) :
    (joint FSM1 FSM2).output (s₁ * FSM2.S + s₂) (u₁ * FSM2.I + u₂) =
      FSM1.output s₁ u₁ * FSM2.O + FSM2.output s₂ u₂ := by
  rw [output]
  change (table _ _ _).getD (_ * (FSM1.I * FSM2.I) + _) 0 = _
  rw [table_getD _ (packed_lt state₁ state₂) (packed_lt input₁ input₂), jointOutput,
    packed_div state₂, packed_div input₂, packed_mod state₂, packed_mod input₂]

end Fsm

/-!
## Metrics of observations

`calc_metric` is written for real and for complex observations: `distance x y` is
the squared modulus of `x - y`, with `x - y` in the type of the observations.
-/

/-- `trellis_metric_type_t` (`metric_type.h`). -/
inductive MetricType where
  | euclidean
  | hardSymbol
  | hardBit
  deriving DecidableEq, Repr

def fltMax : ℚ := 340282346638528859811704183484516925440

section

variable {Ti : Type} [Inhabited Ti] (distance : Ti → Ti → ℚ) (O D : Nat) (TABLE input : List Ti)

/-- The squared distance of the observations from the point of an output
(`calc_metric.cc:39-45`). -/
def euclidean (o : Nat) : ℚ :=
  (List.range D).foldl (fun metric m =>
    metric + distance (input.getD m default) (TABLE.getD (o * D + m) default)) 0

/-- `calc_metric` (`calc_metric.cc:29-72`, and for complex observations `calc_metric.cc:212-250`). -/
def calcMetric : MetricType → Except String (List ℚ)
  | .euclidean => .ok ((List.range O).map (euclidean distance D TABLE input))
  | .hardSymbol =>
      let minmi := (leastAt fltMax (euclidean distance D TABLE input) O).2
      .ok ((List.range O).map fun o => if o = minmi then 0 else 1)
  | .hardBit => .error "Invalid metric type (not yet implemented)."

end

/-- The squared distance of real observations, `s*s`. -/
def realDistance (x y : ℚ) : ℚ := (x - y) * (x - y)

end GnuRadio
