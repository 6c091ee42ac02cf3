import Mathlib.Data.List.Basic
import GnuRadio.Misc.Except
import GnuRadio.Trellis.Siso

/-!
# The Viterbi algorithm

`viterbi_algorithm` finds, step by step, the least metric with which each state
is reached, remembers the predecessor that gave it, and follows these from the
last state back. States that no path reaches have a metric of `INF` and more,
less what has been taken off; they lose against all paths below `INF`.
-/

namespace GnuRadio

variable {T : Type}

/-- The metrics of the transitions into the state `j` at time `k`
(`core_algorithms.cc:80`). -/
def branchMetric (f : Fsm) (input : List ℚ) (k : Nat) (alpha : List ℚ) (j i : Nat) : ℚ :=
  alpha.getD (f.ps j i) 0 + input.getD (k * f.O + f.output (f.ps j i) (f.pi j i)) 0

/-- Add, compare and select: for each next state, `minm` and `minmi`
(`core_algorithms.cc:75-86`). -/
def acs (f : Fsm) (input : List ℚ) (k : Nat) (alpha : List ℚ) : List (ℚ × Nat) :=
  (List.range f.S).map fun j =>
    leastAt INF (branchMetric f input k alpha j) (f.PS.getD j []).length

/-- The row of `alpha` before step `k` (`core_algorithms.cc:64-90`). -/
def viterbiAlpha (f : Fsm) (S0 : Int) (input : List ℚ) : Nat → List ℚ
  | 0 => edgeRow f.S S0
  | k + 1 => normalize f.S ((acs f input k (viterbiAlpha f S0 input k)).map Prod.fst)

/-- The row of `trace` of step `k`. -/
def viterbiTrace (f : Fsm) (S0 : Int) (input : List ℚ) (k : Nat) : List Nat :=
  (acs f input k (viterbiAlpha f S0 input k)).map Prod.snd

/-- The traceback (`core_algorithms.cc:103-107`), from `st` after `k` steps; `none` when it reads
outside the tables. -/
def traceback (f : Fsm) (trace : Nat → List Nat) : Nat → Nat → Option (List Nat)
  | 0, _ => some []
  | k + 1, st => do
      let i0 ← (trace k)[st]?
      let out ← (f.PI.getD st [])[i0]?
      let st' ← (f.PS.getD st [])[i0]?
      let outs ← traceback f trace k st'
      return outs ++ [out]

/-- The state where the traceback begins (`core_algorithms.cc:92-101`). -/
def lastState (f : Fsm) (S0 SK : Int) (input : List ℚ) (K : Nat) : Nat :=
  if SK < 0 then (leastAt INF (fun i => (viterbiAlpha f S0 input K).getD i 0) f.S).2 else SK.toNat

/-- `viterbi_algorithm` (`core_algorithms.cc:45-109`). `cast` is the conversion of the inputs to
the type of the output. -/
def viterbiAlgorithm (cast : Nat → T) (f : Fsm) (K : Nat) (S0 SK : Int) (input : List ℚ) :
    Option (List T) :=
  (traceback f (viterbiTrace f S0 input) K (lastState f S0 SK input K)).map fun outs =>
    outs.map cast

/-- The paths, with the metrics of the transitions. -/
def viterbiTrellis (f : Fsm) (S0 SK : Int) (input : List ℚ) : Trellis Nat Nat ℚ :=
  f.trellis S0 SK fun k s u => input.getD (k * f.O + f.output s u) 0

variable {f : Fsm} {S0 SK : Int} {input : List ℚ} {k j : Nat}

theorem acs_fst {alpha : List ℚ} (state : j < f.S) :
    ((acs f input k alpha).map Prod.fst).getD j 0 =
      (leastAt INF (branchMetric f input k alpha j) (f.PS.getD j []).length).1 := by
  rw [acs, List.map_map]
  exact getD_map_range _ 0 state

theorem viterbiTrace_getElem (f : Fsm) (S0 : Int) (input : List ℚ) (k : Nat) (state : j < f.S) :
    (viterbiTrace f S0 input k)[j]? = some (leastAt INF
      (branchMetric f input k (viterbiAlpha f S0 input k) j) (f.PS.getD j []).length).2 := by
  rw [viterbiTrace, acs, List.map_map, List.getElem?_map, List.getElem?_range state]
  rfl

theorem acs_isLeast {alpha : List ℚ} (state : j < f.S) :
    IsLeast (insert INF {x | ∃ s u, s < f.S ∧ u < f.I ∧ f.next s u = j ∧
      alpha.getD s 0 + input.getD (k * f.O + f.output s u) 0 = x})
      (leastAt INF (branchMetric f input k alpha j) (f.PS.getD j []).length).1 := by
  apply isLeast_insert_congr
    (leastAt_isLeast INF (branchMetric f input k alpha j) (f.PS.getD j []).length)
  exact Fsm.exists_predecessor state
    fun s u => alpha.getD s 0 + input.getD (k * f.O + f.output s u) 0

/-- The traceback follows a path whose metric is the one of the row, up to the offset. -/
def Traced (f : Fsm) (S0 SK : Int) (input : List ℚ) (k : Nat) (offset : ℚ) : Prop :=
  ∀ j < f.S, (viterbiAlpha f S0 input k).getD j 0 + offset < INF → ∃ s us,
    (viterbiTrellis f S0 SK input).start s ∧ us.length = k ∧ (∀ u ∈ us, u < f.I) ∧
    (viterbiTrellis f S0 SK input).walk s us = j ∧
    (viterbiTrellis f S0 SK input).weight 0 s us = (viterbiAlpha f S0 input k).getD j 0 + offset ∧
    traceback f (viterbiTrace f S0 input) k j = some us

theorem traced_zero : Traced f S0 SK input 0 0 := by
  intro j state below
  rw [viterbiAlpha, edgeRow_getD state, add_zero] at below
  split at below
  · rename_i first
    refine ⟨j, [], ⟨state, first⟩, rfl, fun _ member => absurd member List.not_mem_nil, rfl, ?_, rfl⟩
    rw [viterbiAlpha, edgeRow_getD state, if_pos first]
    exact (add_zero 0).symm
  · exact absurd below (lt_irrefl INF)

theorem Traced.step {offset norm : ℚ} (traced : Traced f S0 SK input k offset)
    (nonneg : ∀ x ∈ input, 0 ≤ x) (offsetNonneg : 0 ≤ offset)
    (normed : norm = (leastAt INF (fun j =>
      ((acs f input k (viterbiAlpha f S0 input k)).map Prod.fst).getD j 0) f.S).1) :
    Traced f S0 SK input (k + 1) (offset + norm) := by
  intro j state below
  have value : (viterbiAlpha f S0 input (k + 1)).getD j 0 + (offset + norm) =
      (leastAt INF (branchMetric f input k (viterbiAlpha f S0 input k) j)
        (f.PS.getD j []).length).1 + offset := by
    rw [viterbiAlpha, normalize_getD state, acs_fst state, ← normed]
    abel
  rw [value] at below ⊢
  have least := (le_add_of_nonneg_right offsetNonneg).trans_lt below
  obtain ⟨inside, attained⟩ := leastAt_index least
  have trace := viterbiTrace_getElem f S0 input k state
  generalize (leastAt INF (branchMetric f input k (viterbiAlpha f S0 input k) j)
    (f.PS.getD j []).length).2 = i0 at inside attained trace
  rw [← attained] at below ⊢
  obtain ⟨before, u, reached⟩ := Fsm.predecessor state inside
  have metric := getD_nonneg nonneg (k * f.O + f.output (f.ps j i0) (f.pi j i0))
  have sum : branchMetric f input k (viterbiAlpha f S0 input k) j i0 + offset =
      (viterbiAlpha f S0 input k).getD (f.ps j i0) 0 + offset +
        input.getD (k * f.O + f.output (f.ps j i0) (f.pi j i0)) 0 := by
    rw [branchMetric]
    abel
  rw [sum] at below ⊢
  obtain ⟨s, us, start, length, inputs, walked, weight, traced⟩ :=
    traced _ before ((le_add_of_nonneg_right metric).trans_lt below)
  refine ⟨s, us ++ [f.pi j i0], start, ?_, ?_, ?_, ?_, ?_⟩
  · rw [List.length_append, length, List.length_singleton]
  · intro v member
    rcases List.mem_append.mp member with old | new
    · exact inputs v old
    · rw [List.mem_singleton.mp new]
      exact u
  · rw [Trellis.walk_concat, walked]
    exact reached
  · rw [Trellis.weight_append, Trellis.weight_singleton, weight, walked, length, Nat.zero_add]
    rfl
  · have inside' : i0 < (f.PI.getD j []).length := (f.predecessors j state).1 ▸ inside
    have output : (f.PI.getD j [])[i0]? = some (f.pi j i0) := by
      rw [Fsm.pi, List.getD_eq_getElem _ _ inside', List.getElem?_eq_getElem inside']
    have previous : (f.PS.getD j [])[i0]? = some (f.ps j i0) := by
      rw [Fsm.ps, List.getD_eq_getElem _ _ inside, List.getElem?_eq_getElem inside]
    rw [traceback, trace, Option.bind_eq_bind, Option.bind_some, output]
    simp only [Option.bind_eq_bind, Option.bind_some, previous, traced]
    rfl

theorem viterbiAlpha_represents (f : Fsm) (S0 SK : Int) (nonneg : ∀ x ∈ input, 0 ≤ x) (k : Nat) :
    ∃ offset, Represents INF (· < f.S) ((viterbiTrellis f S0 SK input).prefixes k)
      (fun j => (viterbiAlpha f S0 input k).getD j 0) offset ∧ Traced f S0 SK input k offset := by
  induction k with
  | zero =>
    refine ⟨0, edgeRow_represents fun j below t => ?_, traced_zero⟩
    rw [Trellis.mem_prefixes_zero]
    exact and_congr_left fun _ => ⟨And.right, fun first => ⟨below, first⟩⟩
  | succ k ih =>
    obtain ⟨offset, represents, traced⟩ := ih
    refine ⟨_, ?_, traced.step nonneg represents.offset_nonneg rfl⟩
    have stepped := forward_row (T := viterbiTrellis f S0 SK input) (n := f.S)
      ((acs f input k (viterbiAlpha f S0 input k)).map Prod.fst) rfl represents
      (fun s u _ _ => getD_nonneg nonneg _) (le_refl 0) fun j state => ?_
    · rwa [sub_zero] at stepped
    · rw [acs_fst state]
      apply isLeast_insert_congr (acs_isLeast state)
      intro x
      simp only [add_zero]
      rfl

/-- The last state has the least metric of those where paths may end, if one is below `INF`. -/
theorem lastState_least {K : Nat} (exists_path : ∃ s us, (viterbiTrellis f S0 SK input).Path K s us ∧
      (viterbiAlpha f S0 input K).getD ((viterbiTrellis f S0 SK input).walk s us) 0 < INF) :
    lastState f S0 SK input K < f.S ∧ (SK < 0 ∨ SK = lastState f S0 SK input K) ∧
      ∀ s us, (viterbiTrellis f S0 SK input).Path K s us →
        (viterbiAlpha f S0 input K).getD (lastState f S0 SK input K) 0 ≤
          (viterbiAlpha f S0 input K).getD ((viterbiTrellis f S0 SK input).walk s us) 0 := by
  have ends : ∀ s us, (viterbiTrellis f S0 SK input).Path K s us →
      (viterbiTrellis f S0 SK input).walk s us < f.S := by
    intro s us ⟨start, _, inputs, _⟩
    exact (viterbiTrellis f S0 SK input).walk_state start.1 inputs
  obtain ⟨s, us, path, below⟩ := exists_path
  unfold lastState
  by_cases any : SK < 0
  · rw [if_pos any]
    have least := leastAt_isLeast INF (fun i => (viterbiAlpha f S0 input K).getD i 0) f.S
    have first := least.2 (Or.inr ⟨_, ends s us path, rfl⟩)
    obtain ⟨inside, attained⟩ := leastAt_index (first.trans_lt below)
    refine ⟨inside, Or.inl any, fun s' us' path' => ?_⟩
    exact attained.le.trans (least.2 (Or.inr ⟨_, ends s' us' path', rfl⟩))
  · rw [if_neg any]
    have same : ∀ s us, (viterbiTrellis f S0 SK input).Path K s us →
        (viterbiTrellis f S0 SK input).walk s us = SK.toNat := by
      intro s us path
      have accepted := path.2.2.2.resolve_left any
      omega
    refine ⟨same s us path ▸ ends s us path, Or.inr (by omega), fun s' us' path' => ?_⟩
    rw [same s' us' path']

/-- **Viterbi optimality.** When some path from `S0` to `SK` has a metric below `INF`, the sequence
written is the input sequence of such a path whose metric is minimal. -/
theorem viterbi_optimal (cast : Nat → T) (f : Fsm) (K : Nat) (S0 SK : Int) (input : List ℚ)
    (nonneg : ∀ x ∈ input, 0 ≤ x)
    (exists_path : ∃ s us, (viterbiTrellis f S0 SK input).Path K s us ∧
      (viterbiTrellis f S0 SK input).weight 0 s us < INF) :
    ∃ s us, (viterbiTrellis f S0 SK input).Path K s us ∧
      viterbiAlgorithm cast f K S0 SK input = some (us.map cast) ∧
      ∀ s' us', (viterbiTrellis f S0 SK input).Path K s' us' →
        (viterbiTrellis f S0 SK input).weight 0 s us ≤
          (viterbiTrellis f S0 SK input).weight 0 s' us' := by
  obtain ⟨offset, represents, traced⟩ := viterbiAlpha_represents f S0 SK nonneg K
  have bound : ∀ s us, (viterbiTrellis f S0 SK input).Path K s us →
      (viterbiTrellis f S0 SK input).weight 0 s us < INF →
      (viterbiAlpha f S0 input K).getD ((viterbiTrellis f S0 SK input).walk s us) 0 + offset ≤
        (viterbiTrellis f S0 SK input).weight 0 s us := by
    intro s us ⟨start, length, inputs, _⟩ below
    have state := (viterbiTrellis f S0 SK input).walk_state start.1 inputs
    exact (represents.least _ state).1 _ ⟨s, us, start, length, inputs, rfl, rfl⟩ below
  obtain ⟨s₀, us₀, path₀, below₀⟩ := exists_path
  have reached := (bound s₀ us₀ path₀ below₀).trans_lt below₀
  obtain ⟨state, accept, least⟩ := lastState_least
    ⟨s₀, us₀, path₀, (le_add_of_nonneg_right represents.offset_nonneg).trans_lt reached⟩
  have below := (add_le_add_left (least s₀ us₀ path₀) offset).trans_lt reached
  obtain ⟨s, us, start, length, inputs, walked, weight, follows⟩ := traced _ state below
  refine ⟨s, us, ⟨start, length, inputs, ?_⟩, ?_, ?_⟩
  · rw [walked]
    exact accept
  · rw [viterbiAlgorithm, follows, Option.map_some]
  · intro s' us' path'
    rw [weight]
    rcases lt_or_ge ((viterbiTrellis f S0 SK input).weight 0 s' us') INF with small | large
    · exact (add_le_add_left (least s' us' path') offset).trans (bound s' us' path' small)
    · exact below.le.trans large

theorem viterbi_optimal_accumulator :
    ∃ s us, (viterbiTrellis accumulator 0 (-1) [0, 1, 1, 0]).Path 2 s us ∧
      viterbiAlgorithm id accumulator 2 0 (-1) [0, 1, 1, 0] = some (us.map id) ∧
      ∀ s' us', (viterbiTrellis accumulator 0 (-1) [0, 1, 1, 0]).Path 2 s' us' →
        (viterbiTrellis accumulator 0 (-1) [0, 1, 1, 0]).weight 0 s us ≤
          (viterbiTrellis accumulator 0 (-1) [0, 1, 1, 0]).weight 0 s' us' :=
  viterbi_optimal id accumulator 2 0 (-1) [0, 1, 1, 0] (by decide)
    ⟨0, [0, 1], ⟨⟨by decide, Or.inr rfl⟩, rfl, show ∀ u ∈ [0, 1], u < 2 by decide,
      Or.inl (by decide)⟩, by decide +kernel⟩

example : viterbiAlgorithm id accumulator 2 0 (-1) [0, 1, 1, 0] = some [0, 1] := by
  decide +kernel

end GnuRadio

/-!
## Algorithms on observations

`viterbi_algorithm_combined` and `siso_algorithm_combined` compute the metrics of a step when they
come to it. The first keeps the metrics of one step only, the second those of the steps so far.
-/

namespace GnuRadio

section Algorithms

variable {Ti To : Type} [Inhabited Ti] (cast : Nat → To) (distance : Ti → Ti → ℚ) (f : Fsm) (K : Nat)
  (S0 SK : Int) (D : Nat) (TABLE : List Ti) (TYPE : MetricType) (input : List Ti)

/-- The loop over the steps of `trellis_metrics` (`trellis_metrics_X.cc.t:88-90`). -/
def metricRows (O : Nat) : Except String (List (List ℚ)) :=
  (List.range K).mapM fun k => calcMetric distance O D TABLE (input.drop (k * D)) TYPE

/-- Add, compare and select with the metrics of the step (`core_algorithms.cc:186-195`). -/
def acsCombined (metric alpha : List ℚ) : List (ℚ × Nat) :=
  (List.range f.S).map fun j =>
    leastAt INF (fun i =>
      alpha.getD (f.ps j i) 0 + metric.getD (f.output (f.ps j i) (f.pi j i)) 0)
      (f.PS.getD j []).length

/-- One step of `viterbi_algorithm_combined`: the row of `alpha` and the rows of `trace`. -/
def viterbiStep (state : List ℚ × List (List Nat)) (metric : List ℚ) : List ℚ × List (List Nat) :=
  let row := acsCombined f metric state.1
  (normalize f.S (row.map Prod.fst), state.2 ++ [row.map Prod.snd])

/-- `viterbi_algorithm_combined` (`core_algorithms.cc:150-217`). -/
def viterbiAlgorithmCombined : Except String (Option (List To)) := do
  let (alpha, trace) ← (List.range K).foldlM (fun state k => do
    let metric ← calcMetric distance f.O D TABLE (input.drop (k * D)) TYPE
    return viterbiStep f state metric) (edgeRow f.S S0, [])
  let st := if SK < 0 then (leastAt INF (fun i => alpha.getD i 0) f.S).2 else SK.toNat
  return (traceback f (fun k => trace.getD k []) K st).map fun outs => outs.map cast

variable (POSTI POSTO : Bool) (p2mymin : ℚ → ℚ → ℚ) (priori : List ℚ)

/-- One step of the forward recursion of `siso_algorithm_combined` (`core_algorithms.cc:597-611`):
the rows of `alpha` and the metrics so far. -/
def sisoStep (state : List (List ℚ) × List ℚ) (k : Nat) (metric : List ℚ) :
    List (List ℚ) × List ℚ :=
  let prioro := state.2 ++ metric
  let alpha := state.1.getD k []
  let row := (List.range f.S).map fun j =>
    accumulate p2mymin INF (fun i =>
      alpha.getD (f.ps j i) 0 + priori.getD (k * f.I + f.pi j i) 0 +
        prioro.getD (k * f.O + f.output (f.ps j i) (f.pi j i)) 0)
      (List.range (f.PS.getD j []).length)
  (state.1 ++ [normalize f.S row], prioro)

/-- `siso_algorithm_combined` (`core_algorithms.cc:566-713`). The backward recursion and the
combining are the same text as in `siso_algorithm`. -/
def sisoAlgorithmCombined : Except String (List ℚ) := do
  let (alpha, prioro) ← (List.range K).foldlM (fun state k => do
    let metric ← calcMetric distance f.O D TABLE (input.drop (k * D)) TYPE
    return sisoStep f p2mymin priori state k metric) ([edgeRow f.S S0], [])
  let beta := sisoBeta f SK p2mymin priori prioro K
  let posti k := inputCombining f p2mymin prioro (alpha.getD k []) (beta (K - (k + 1))) k
  let posto k := outputCombining f p2mymin priori (alpha.getD k []) (beta (K - (k + 1))) k
  match POSTI, POSTO with
  | true, true => return (List.range K).flatMap fun k => posti k ++ posto k
  | true, false => return (List.range K).flatMap posti
  | false, true => return (List.range K).flatMap posto
  | false, false => throw "Not both POSTI and POSTO can be false."

end Algorithms

/-! ## The metrics of all steps -/

section Rows

variable {Ti To : Type} [Inhabited Ti] {cast : Nat → To} {distance : Ti → Ti → ℚ} {f : Fsm} {K : Nat}
  {S0 SK : Int} {D O : Nat} {TABLE : List Ti} {TYPE : MetricType} {input : List Ti}
  {rows : List (List ℚ)}

theorem calcMetric_length {metric : List ℚ}
    (computed : calcMetric distance O D TABLE input TYPE = .ok metric) : metric.length = O := by
  cases TYPE with
  | euclidean => simp [← Except.ok.inj computed]
  | hardSymbol => simp [← Except.ok.inj computed]
  | hardBit => cases computed

theorem metricRows_ok (computed : metricRows distance K D TABLE TYPE input O = .ok rows) :
    rows.length = K ∧ ∀ k < K, (rows.getD k []).length = O := by
  have each := mapM_ok computed
  have length : rows.length = K := (mapM_length computed).trans (List.length_range ..)
  refine ⟨length, fun k step => ?_⟩
  have row := each k
  rw [List.getElem?_range step, List.getElem?_eq_getElem (length ▸ step)] at row
  rw [List.getD_eq_getElem _ _ (length ▸ step)]
  exact calcMetric_length (Option.some.inj row).symm

theorem flatten_getD (each : ∀ k < rows.length, (rows.getD k []).length = O) {k o : Nat}
    (step : k < rows.length) (output : o < O) :
    rows.flatten.getD (k * O + o) 0 = (rows.getD k []).getD o 0 := by
  have listed : rows = (List.range rows.length).map fun k => rows.getD k [] := by
    refine List.ext_getElem (by simp) fun k inside _ => ?_
    simp [inside]
  have flat : rows.flatten = (List.range rows.length).flatMap fun k => rows.getD k [] := by
    rw [List.flatMap_def, ← listed]
  rw [flat]
  exact getD_flatMap 0 each step output

theorem zip_range (length : rows.length = K) :
    (List.range K).zip rows = (List.range K).map fun k => (k, rows.getD k []) := by
  refine List.ext_getElem (by simp [length]) fun k inside _ => ?_
  have step : k < rows.length := by simpa [length] using inside
  simp [step]

/-! ## The Viterbi algorithm -/

theorem acsCombined_eq {metric alpha metrics : List ℚ} {k : Nat}
    (same : ∀ o < f.O, metric.getD o 0 = metrics.getD (k * f.O + o) 0) :
    acsCombined f metric alpha = acs f metrics k alpha := by
  refine List.map_congr_left fun j state => leastAt_congr fun i inside => ?_
  obtain ⟨before, u, -⟩ := Fsm.predecessor (List.mem_range.mp state) inside
  rw [branchMetric, same _ (Fsm.output_lt before u)]

theorem viterbiSteps_eq (each : ∀ k < rows.length, (rows.getD k []).length = f.O) {n : Nat}
    (within : n ≤ rows.length) :
    (List.range n).foldl (fun state k => viterbiStep f state (rows.getD k []))
        (edgeRow f.S S0, []) =
      (viterbiAlpha f S0 rows.flatten n, (List.range n).map (viterbiTrace f S0 rows.flatten)) := by
  induction n with
  | zero => rfl
  | succ n ih =>
    have row := @acsCombined_eq f _ (viterbiAlpha f S0 rows.flatten n) _ _
      fun o output => (flatten_getD each within output).symm
    rw [List.range_succ, List.foldl_append, ih (Nat.le_of_succ_le within), List.foldl_cons,
      List.foldl_nil, viterbiStep, row, List.map_append]
    rfl

theorem traceback_congr {trace trace' : Nat → List Nat} {k : Nat}
    (same : ∀ n < k, trace n = trace' n) (st : Nat) :
    traceback f trace k st = traceback f trace' k st := by
  induction k generalizing st with
  | zero => rfl
  | succ k ih =>
    have rest := ih fun n less => same n (Nat.lt_succ_of_lt less)
    simp only [traceback, same k (Nat.lt_succ_self k), rest]

theorem viterbiCombined_eq :
    viterbiAlgorithmCombined cast distance f K S0 SK D TABLE TYPE input =
      metricRows distance K D TABLE TYPE input f.O >>= fun rows =>
        return viterbiAlgorithm cast f K S0 SK rows.flatten := by
  have fused := foldlM_bind_pure
    (fun k => calcMetric distance f.O D TABLE (input.drop (k * D)) TYPE)
    (fun state _ metric => viterbiStep f state metric) (List.range K) (edgeRow f.S S0, [])
  rw [viterbiAlgorithmCombined, fused]
  cases computed : metricRows distance K D TABLE TYPE input f.O with
  | error e =>
    rw [metricRows] at computed
    rw [computed]
    rfl
  | ok rows =>
    obtain ⟨length, each⟩ := metricRows_ok computed
    have steps := @viterbiSteps_eq f S0 rows (length.symm ▸ each) K length.ge
    have rowsRead := @traceback_congr f
      (fun k => ((List.range K).map (viterbiTrace f S0 rows.flatten)).getD k []) _ K
      fun n step => getD_map_range (viterbiTrace f S0 rows.flatten) [] step
    rw [metricRows] at computed
    rw [computed]
    simp only [ok_bind, pure_bind, zip_range length, List.foldl_map, steps, rowsRead]
    rfl

/-! ## The soft-input soft-output algorithm -/

theorem sisoSteps_eq {p2mymin : ℚ → ℚ → ℚ} {priori : List ℚ}
    (each : ∀ k < rows.length, (rows.getD k []).length = f.O) {n : Nat} (within : n ≤ rows.length) :
    (List.range n).foldl (fun state k => sisoStep f p2mymin priori state k (rows.getD k []))
        ([edgeRow f.S S0], []) =
      ((List.range (n + 1)).map (sisoAlpha f S0 p2mymin priori rows.flatten),
        (rows.take n).flatten) := by
  induction n with
  | zero => rfl
  | succ n ih =>
    have sofar : (rows.take n).flatten ++ rows.getD n [] = (rows.take (n + 1)).flatten := by
      rw [List.take_succ_eq_append_getElem within, List.flatten_append, List.getD_eq_getElem _ _ within]
      simp
    have short : (rows.take (n + 1)).length = n + 1 := by simpa using within
    have taken : ∀ k < n + 1, (rows.take (n + 1)).getD k [] = rows.getD k [] := by
      intro k step
      rw [List.getD_eq_getElem _ _ (short.symm ▸ step), List.getElem_take,
        List.getD_eq_getElem _ _ (by omega)]
    have eachTaken : ∀ k < (rows.take (n + 1)).length,
        ((rows.take (n + 1)).getD k []).length = f.O := by
      intro k step
      rw [short] at step
      rw [taken k step]
      exact each k (by omega)
    -- the metrics of this step are the last ones there are
    have metric : ∀ o < f.O, (rows.take (n + 1)).flatten.getD (n * f.O + o) 0 =
        rows.flatten.getD (n * f.O + o) 0 := by
      intro o output
      rw [flatten_getD eachTaken (short.symm ▸ Nat.lt_succ_self n) output,
        flatten_getD each within output, taken n (Nat.lt_succ_self n)]
    rw [List.range_succ, List.foldl_append, ih (Nat.le_of_succ_le within), List.foldl_cons,
      List.foldl_nil, sisoStep, sofar, getD_map_range _ _ (Nat.lt_succ_self n),
      List.range_succ (n := n + 1), List.map_append, List.map_singleton]
    refine congrArg (fun row => (_ ++ [normalize f.S row], _)) ?_
    refine List.map_congr_left fun j state => accumulate_congr fun i inside => ?_
    obtain ⟨before, u, -⟩ :=
      Fsm.predecessor (List.mem_range.mp state) (List.mem_range.mp inside)
    rw [metric _ (Fsm.output_lt before u)]

theorem sisoCombined_eq {POSTI POSTO : Bool} {p2mymin : ℚ → ℚ → ℚ} {priori : List ℚ} :
    sisoAlgorithmCombined distance f K S0 SK D TABLE TYPE input POSTI POSTO p2mymin priori =
      metricRows distance K D TABLE TYPE input f.O >>= fun rows =>
        sisoAlgorithm f S0 SK p2mymin priori rows.flatten K POSTI POSTO := by
  have fused := foldlM_bind_pure
    (fun k => calcMetric distance f.O D TABLE (input.drop (k * D)) TYPE)
    (fun state k metric => sisoStep f p2mymin priori state k metric) (List.range K)
    ([edgeRow f.S S0], [])
  rw [sisoAlgorithmCombined, fused]
  cases computed : metricRows distance K D TABLE TYPE input f.O with
  | error e =>
    rw [metricRows] at computed
    rw [computed]
    rfl
  | ok rows =>
    obtain ⟨length, each⟩ := metricRows_ok computed
    have steps := @sisoSteps_eq f S0 rows p2mymin priori
      (length.symm ▸ each) K length.ge
    have whole : (rows.take K).flatten = rows.flatten := by rw [← length, List.take_length]
    have row : ∀ k < K, ((List.range (K + 1)).map
        (sisoAlpha f S0 p2mymin priori rows.flatten)).getD k [] =
          sisoAlpha f S0 p2mymin priori rows.flatten k := fun k step =>
      getD_map_range _ [] (Nat.lt_succ_of_lt step)
    rw [metricRows] at computed
    rw [computed]
    simp only [ok_bind, pure_bind, zip_range length, List.foldl_map, steps, whole]
    cases POSTI <;> cases POSTO
    · rfl
    all_goals
      refine congrArg Except.ok (List.flatMap_congr fun k step => ?_)
      rw [row k (List.mem_range.mp step)]
      rfl

/-- The fused algorithms give what the separate ones give on the metrics of all steps, and fail
when one of these does. -/
theorem combined_eq_separate (cast : Nat → To) (distance : Ti → Ti → ℚ) (f : Fsm) (K : Nat)
    (S0 SK : Int) (D : Nat) (TABLE : List Ti) (TYPE : MetricType) (input : List Ti)
    (POSTI POSTO : Bool) (p2mymin : ℚ → ℚ → ℚ) (priori : List ℚ) :
    (viterbiAlgorithmCombined cast distance f K S0 SK D TABLE TYPE input =
      metricRows distance K D TABLE TYPE input f.O >>= fun rows =>
        return viterbiAlgorithm cast f K S0 SK rows.flatten) ∧
    sisoAlgorithmCombined distance f K S0 SK D TABLE TYPE input POSTI POSTO p2mymin priori =
      metricRows distance K D TABLE TYPE input f.O >>= fun rows =>
        sisoAlgorithm f S0 SK p2mymin priori rows.flatten K POSTI POSTO :=
  ⟨viterbiCombined_eq, sisoCombined_eq⟩

end Rows

end GnuRadio
