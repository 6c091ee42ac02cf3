import GnuRadio.Misc.Except
import GnuRadio.Trellis.Interleaver

/-!
# Decoders of serially concatenated codes

`sccc_decoder` works on metrics, `sccc_decoder_combined` on observations, whose
metrics it computes and scales first. The iterations are the same text in both.
-/

namespace GnuRadio

/-- The arrays that live from one iteration to the next. -/
structure ScccArrays where
  ipriori : List ℚ
  oprioro : List ℚ
  oposti : List ℚ

section Decoders

variable {To : Type} (cast : Nat → To) (FSMo : Fsm) (STo0 SToK : Int) (FSMi : Fsm) (STi0 STiK : Int)
  (INTERLEAVER : Interleaver) (blocklength repetitions : Nat) (p2mymin : ℚ → ℚ → ℚ)

/-- One iteration (`core_algorithms.cc:814-862`, `core_algorithms.cc:992-1051`). -/
def scccIteration (iprioro : List ℚ) (a : ScccArrays) (rep : Nat) : Except String ScccArrays := do
  let iposti ← sisoAlgorithm FSMi STi0 STiK p2mymin a.ipriori iprioro blocklength true false
  let oprioro := (List.range blocklength).foldl (fun oprioro k =>
    let ki := INTERLEAVER.DEINTER.getD k 0
    memcpy oprioro (k * FSMi.I) iposti (ki * FSMi.I) FSMi.I) a.oprioro
  let opriori := List.replicate (blocklength * FSMo.I) 0
  if rep + 1 < repetitions then
    let oposto ← sisoAlgorithm FSMo STo0 SToK p2mymin opriori oprioro blocklength false true
    let ipriori := (List.range blocklength).foldl (fun ipriori k =>
      let ki := INTERLEAVER.DEINTER.getD k 0
      memcpy ipriori (ki * FSMi.I) oposto (k * FSMi.I) FSMi.I) a.ipriori
    return { a with ipriori, oprioro }
  else
    let oposti ← sisoAlgorithm FSMo STo0 SToK p2mymin opriori oprioro blocklength true false
    return { a with oprioro, oposti }

/-- `sccc_decoder` (`core_algorithms.cc:972-1070`). -/
def scccDecoder (iprioro : List ℚ) : Except String (List To) := do
  let a ← (List.range repetitions).foldlM
    (scccIteration FSMo STo0 SToK FSMi STi0 STiK INTERLEAVER blocklength repetitions p2mymin
      iprioro)
    ⟨List.replicate (blocklength * FSMi.I) 0, List.replicate (blocklength * FSMo.O) 0,
      List.replicate (blocklength * FSMo.I) 0⟩
  return hardDecisions cast a.oposti FSMo.I blocklength

variable {Ti : Type} [Inhabited Ti] (distance : Ti → Ti → ℚ) (D : Nat) (TABLE : List Ti)
  (METRIC_TYPE : MetricType) (scaling : ℚ) (observations : List Ti)

/-- `sccc_decoder_combined` (`core_algorithms.cc:783-892`). The metric that is scaled is the one at
`k*FSMi.O()`, the first of the step. -/
def scccDecoderCombined : Except String (List To) := do
  let iprioro ← (List.range blocklength).mapM fun k => do
    let metric ← calcMetric distance FSMi.O D TABLE (observations.drop (k * D)) METRIC_TYPE
    return metric.set 0 (metric.getD 0 0 * scaling)
  scccDecoder cast FSMo STo0 SToK FSMi STi0 STiK INTERLEAVER blocklength repetitions p2mymin
    iprioro.flatten

/-- The metrics of the observations, every one scaled. -/
def scaledMetrics (O : Nat) : Except String (List ℚ) := do
  let rows ← (List.range blocklength).mapM fun k =>
    calcMetric distance O D TABLE (observations.drop (k * D)) METRIC_TYPE
  return rows.flatten.map (· * scaling)

/-- The metrics of every step, the first one aside, are what they are when scaled. -/
def OthersUnscaled : Prop :=
  ∀ k < blocklength, ∀ metric,
    calcMetric distance FSMi.O D TABLE (observations.drop (k * D)) METRIC_TYPE = .ok metric →
    ∀ x ∈ metric.tail, x * scaling = x

/-- The decoder of observations and the decoder of their scaled metrics decide the same. -/
def DecodersAgree : Prop :=
  scccDecoderCombined cast FSMo STo0 SToK FSMi STi0 STiK INTERLEAVER blocklength repetitions p2mymin
      distance D TABLE METRIC_TYPE scaling observations =
    scaledMetrics blocklength distance D TABLE METRIC_TYPE scaling observations FSMi.O >>=
      scccDecoder cast FSMo STo0 SToK FSMi STi0 STiK INTERLEAVER blocklength repetitions p2mymin

end Decoders

variable {scaling : ℚ}

theorem set_eq_map {metric : List ℚ} (others : ∀ x ∈ metric.tail, x * scaling = x) :
    metric.set 0 (metric.getD 0 0 * scaling) = metric.map (· * scaling) := by
  cases metric with
  | nil => rfl
  | cons x metric =>
    have same : metric.map (· * scaling) = metric.map id := List.map_congr_left others
    rw [List.map_cons, same, List.map_id]
    rfl

theorem decodersAgree {To Ti : Type} [Inhabited Ti] {cast : Nat → To} {FSMo FSMi : Fsm}
    {STo0 SToK STi0 STiK : Int} {INTERLEAVER : Interleaver} {blocklength repetitions : Nat}
    {p2mymin : ℚ → ℚ → ℚ} {distance : Ti → Ti → ℚ} {D : Nat} {TABLE observations : List Ti}
    {METRIC_TYPE : MetricType}
    (others : OthersUnscaled FSMi blocklength distance D TABLE METRIC_TYPE scaling observations) :
    DecodersAgree cast FSMo STo0 SToK FSMi STi0 STiK INTERLEAVER blocklength repetitions p2mymin
      distance D TABLE METRIC_TYPE scaling observations := by
  unfold DecodersAgree scccDecoderCombined scaledMetrics
  rw [mapM_bind_pure fun metric : List ℚ => metric.set 0 (metric.getD 0 0 * scaling)]
  cases rows : (List.range blocklength).mapM fun k =>
    calcMetric distance FSMi.O D TABLE (observations.drop (k * D)) METRIC_TYPE with
  | error e => rfl
  | ok rows' =>
    have same : rows'.map (fun metric => metric.set 0 (metric.getD 0 0 * scaling)) =
        rows'.map (List.map (· * scaling)) := by
      refine List.map_congr_left fun metric member => ?_
      obtain ⟨k, inside, computed⟩ := mem_mapM rows member
      exact set_eq_map (others k (List.mem_range.mp inside) metric computed)
    change scccDecoder _ _ _ _ _ _ _ _ _ _ _ _ = scccDecoder _ _ _ _ _ _ _ _ _ _ _ _
    rw [same, List.map_flatten]

/-! ## One uncoded step -/

variable {x y b a : ℚ} {f : Fsm} {metrics : List ℚ}

theorem normalize_pair (first : x ≤ INF) : normalize 2 [x, y] = [x - min x y, y - min x y] := by
  have least : (leastAt INF (fun j => [x, y].getD j 0) 2).1 = min x y := by
    apply (leastAt_isLeast INF (fun j => [x, y].getD j 0) 2).unique
    refine ⟨Or.inr ?_, ?_⟩
    · rcases min_choice x y with left | right
      · exact ⟨0, by decide, left.symm⟩
      · exact ⟨1, by decide, right.symm⟩
    · rintro z (rfl | ⟨i, inside, rfl⟩)
      · exact (min_le_left x y).trans first
      · match i, inside with
        | 0, _ => exact min_le_left x y
        | 1, _ => exact min_le_right x y
  simp only [normalize, least]
  rfl

/-- The metrics of two inputs, capped, with the lesser one taken off. -/
def pairMetrics (x y : ℚ) : List ℚ :=
  [min INF x - min (min INF x) (min INF y), min INF y - min (min INF x) (min INF y)]

theorem normalize_capped (x y : ℚ) :
    normalize 2 [min INF (0 + x + 0), min INF (0 + y + 0)] ++ [] = pairMetrics x y := by
  rw [List.append_nil, zero_add, zero_add, add_zero, add_zero, normalize_pair (min_le_left _ _)]
  rfl

theorem siso_uncoded (x y : ℚ) :
    sisoAlgorithm uncoded 0 0 min [0, 0] [x, y] 1 true false = .ok (pairMetrics x y) :=
  congrArg Except.ok (normalize_capped x y)

theorem siso_inverted (x y : ℚ) :
    sisoAlgorithm inverted 0 0 min [0, 0] [x, y] 1 true false = .ok (pairMetrics y x) :=
  congrArg Except.ok (normalize_capped y x)

theorem pairMetrics_first (least : min INF x ≤ min INF y) :
    ∃ b, 0 ≤ b ∧ pairMetrics x y = [0, b] := by
  refine ⟨min INF y - min INF x, sub_nonneg.mpr least, ?_⟩
  rw [pairMetrics, min_eq_left least, sub_self]

theorem pairMetrics_second (less : min INF y < min INF x) :
    ∃ a, 0 < a ∧ pairMetrics x y = [a, 0] := by
  refine ⟨min INF x - min INF y, sub_pos.mpr less, ?_⟩
  rw [pairMetrics, min_eq_right less.le, sub_self]

theorem hardDecisions_pair (x y : ℚ) : hardDecisions id [x, y] 2 1 =
    [if y < (if x < INF then (x, 0) else (INF, 0)).1 then 1 else 0] := by
  have decision : hardDecisions id [x, y] 2 1 = [(leastAt INF (fun i => [x, y].getD i 0) 2).2] := by
    simp only [hardDecisions, List.range_one, List.map_singleton, Nat.zero_mul, Nat.zero_add]
    rfl
  rw [decision, leastAt_succ, leastAt_succ]
  change [(if y < (if x < INF then (x, 0) else (INF, 0)).1 then (y, 1) else
    if x < INF then (x, 0) else (INF, 0)).2] = _
  by_cases capped : x < INF
  · rw [if_pos capped]
    split <;> rfl
  · rw [if_neg capped]
    split <;> rfl

theorem decision_first (nonneg : 0 ≤ b) : hardDecisions id [0, b] 2 1 = [0] := by
  have positive : (0 : ℚ) < INF := by decide
  rw [hardDecisions_pair, if_pos positive, if_neg (not_lt.mpr nonneg)]

theorem decision_second (positive : 0 < a) : hardDecisions id [a, 0] 2 1 = [1] := by
  rw [hardDecisions_pair, if_pos]
  split
  · exact positive
  · decide

theorem scccIteration_uncoded (inputs : f.I = 2)
    (inner : sisoAlgorithm f 0 0 min [0, 0] metrics 1 true false = .ok [a, b]) :
    scccIteration uncoded 0 0 f 0 0 Interleaver.unit 1 1 min metrics ⟨[0, 0], [0, 0], [0, 0]⟩ 0 =
      .ok ⟨[0, 0], [a, b], pairMetrics a b⟩ := by
  simp only [scccIteration, inputs, inner, Nat.zero_add, Nat.lt_irrefl, if_false]
  have outer : (sisoAlgorithm uncoded 0 0 min [0, 0] [a, b] 1 true false >>= fun oposti =>
      Except.ok (⟨[0, 0], [a, b], oposti⟩ : ScccArrays)) =
        .ok ⟨[0, 0], [a, b], pairMetrics a b⟩ := by
    rw [siso_uncoded a b]
    rfl
  exact outer

theorem scccDecoder_uncoded (inputs : f.I = 2)
    (inner : sisoAlgorithm f 0 0 min [0, 0] metrics 1 true false = .ok [a, b]) :
    scccDecoder id uncoded 0 0 f 0 0 Interleaver.unit 1 1 min metrics =
      .ok (hardDecisions id (pairMetrics a b) 2 1) := by
  unfold scccDecoder
  rw [inputs]
  change ([0].foldlM (scccIteration uncoded 0 0 f 0 0 Interleaver.unit 1 1 min metrics)
    ⟨[0, 0], [0, 0], [0, 0]⟩ >>= _) = _
  rw [List.foldlM_cons, scccIteration_uncoded inputs inner]
  rfl

theorem scccDecoder_decides (inputs : f.I = 2)
    (inner : sisoAlgorithm f 0 0 min [0, 0] metrics 1 true false = .ok (pairMetrics x y)) :
    scccDecoder id uncoded 0 0 f 0 0 Interleaver.unit 1 1 min metrics =
      .ok [if min INF y < min INF x then 1 else 0] := by
  have zero : min INF 0 = 0 := min_eq_right INF_nonneg
  split
  · rename_i less
    obtain ⟨a, positive, pair⟩ := pairMetrics_second less
    have less' : min INF 0 < min INF a := by
      rw [zero]
      exact lt_min (by decide) positive
    obtain ⟨a', positive', pair'⟩ := pairMetrics_second less'
    rw [pair] at inner
    rw [scccDecoder_uncoded inputs inner, pair', decision_second positive']
  · rename_i notLess
    obtain ⟨b, nonneg, pair⟩ := pairMetrics_first (not_lt.mp notLess)
    have least : min INF 0 ≤ min INF b := by
      rw [zero]
      exact le_min INF_nonneg nonneg
    obtain ⟨b', nonneg', pair'⟩ := pairMetrics_first least
    rw [pair] at inner
    rw [scccDecoder_uncoded inputs inner, pair', decision_first nonneg']

theorem calcMetric_between :
    calcMetric realDistance 2 1 [1, -1] ([0].drop (0 * 1)) .euclidean = .ok [1, 1] := by
  decide +kernel

theorem combined_between (outputs : f.O = 2) (scaling : ℚ) :
    scccDecoderCombined id uncoded 0 0 f 0 0 Interleaver.unit 1 1 min realDistance 1 [1, -1]
      .euclidean scaling [0] =
    scccDecoder id uncoded 0 0 f 0 0 Interleaver.unit 1 1 min [scaling, 1] := by
  simp only [scccDecoderCombined, List.range_one, List.mapM_cons, List.mapM_nil, outputs,
    calcMetric_between, ok_bind, pure_bind, List.set_cons_zero, List.getD_cons_zero, one_mul]
  rfl

theorem scaledMetrics_between (scaling : ℚ) :
    scaledMetrics 1 realDistance 1 [1, -1] .euclidean scaling [0] 2 = .ok [scaling, scaling] := by
  simp only [scaledMetrics, List.range_one, List.mapM_cons, List.mapM_nil, calcMetric_between,
    ok_bind, pure_bind, List.flatten_cons, List.flatten_nil, List.append_nil, List.map_cons, one_mul]
  rfl

/-- Here the decoders agree for both uncoded inner codes only if the scaling is 1. -/
theorem scaling_eq_one
    (direct : DecodersAgree id uncoded 0 0 uncoded 0 0 Interleaver.unit 1 1 min realDistance 1
      [1, -1] .euclidean scaling [0])
    (inverse : DecodersAgree id uncoded 0 0 inverted 0 0 Interleaver.unit 1 1 min realDistance 1
      [1, -1] .euclidean scaling [0]) : scaling = 1 := by
  have one : min INF 1 = 1 := min_eq_right (by decide)
  have decide₁ := fun x y => scccDecoder_decides (f := uncoded) rfl (siso_uncoded x y)
  have decide₂ := fun x y => scccDecoder_decides (f := inverted) rfl (siso_inverted x y)
  rw [DecodersAgree, combined_between rfl, decide₁,
    show scaledMetrics 1 realDistance 1 [1, -1] .euclidean scaling [0] uncoded.O = _ from
      scaledMetrics_between scaling] at direct
  rw [DecodersAgree, combined_between rfl, decide₂,
    show scaledMetrics 1 realDistance 1 [1, -1] .euclidean scaling [0] inverted.O = _ from
      scaledMetrics_between scaling] at inverse
  change _ = scccDecoder id uncoded 0 0 uncoded 0 0 Interleaver.unit 1 1 min [scaling, scaling]
    at direct
  change _ = scccDecoder id uncoded 0 0 inverted 0 0 Interleaver.unit 1 1 min [scaling, scaling]
    at inverse
  rw [decide₁, one, if_neg (lt_irrefl _)] at direct
  rw [decide₂, one, if_neg (lt_irrefl _)] at inverse
  have above : ¬1 < min INF scaling := by
    intro less
    rw [if_pos less] at direct
    cases direct
  have below : ¬min INF scaling < 1 := by
    intro less
    rw [if_pos less] at inverse
    cases inverse
  have same := le_antisymm (not_lt.mp above) (not_lt.mp below)
  rcases min_choice INF scaling with capped | free
  · rw [capped] at same
    exact absurd same (by decide)
  · rw [← free, same]

/-- **The fused decoder.** It decides as the other one on the scaled metrics where scaling leaves
all metrics but the first of each step as they are; on all inputs only if the scaling is 1. -/
theorem sccc_combined_iff (scaling : ℚ) :
    (∀ (To Ti : Type) [Inhabited Ti] (cast : Nat → To) (FSMo : Fsm) (STo0 SToK : Int) (FSMi : Fsm)
      (STi0 STiK : Int) (INTERLEAVER : Interleaver) (blocklength repetitions : Nat)
      (p2mymin : ℚ → ℚ → ℚ) (distance : Ti → Ti → ℚ) (D : Nat) (TABLE : List Ti)
      (METRIC_TYPE : MetricType) (observations : List Ti),
      OthersUnscaled FSMi blocklength distance D TABLE METRIC_TYPE scaling observations →
      DecodersAgree cast FSMo STo0 SToK FSMi STi0 STiK INTERLEAVER blocklength repetitions p2mymin
        distance D TABLE METRIC_TYPE scaling observations) ∧
    ((∀ (To Ti : Type) [Inhabited Ti] (cast : Nat → To) (FSMo : Fsm)
      (STo0 SToK : Int) (FSMi : Fsm) (STi0 STiK : Int) (INTERLEAVER : Interleaver)
      (blocklength repetitions : Nat) (p2mymin : ℚ → ℚ → ℚ) (distance : Ti → Ti → ℚ) (D : Nat)
      (TABLE : List Ti) (METRIC_TYPE : MetricType) (observations : List Ti),
      DecodersAgree cast FSMo STo0 SToK FSMi STi0 STiK INTERLEAVER blocklength repetitions p2mymin
        distance D TABLE METRIC_TYPE scaling observations) ↔ scaling = 1) := by
  refine ⟨fun _ _ _ _ _ _ _ _ _ _ _ _ _ _ _ _ _ _ _ => decodersAgree,
    fun agree => ?_, ?_⟩
  · exact scaling_eq_one (agree _ _ _ _ _ _ _ _ _ _ _ _ _ _ _ _ _ _)
      (agree _ _ _ _ _ _ _ _ _ _ _ _ _ _ _ _ _ _)
  · rintro rfl To Ti _ cast FSMo STo0 SToK FSMi STi0 STiK INTERLEAVER blocklength repetitions p2mymin
      distance D TABLE METRIC_TYPE observations
    exact decodersAgree fun k _ metric _ x _ => mul_one x

theorem sccc_combined_iff_unscaled :
    DecodersAgree id uncoded 0 0 uncoded 0 0 Interleaver.unit 1 1 min realDistance 1 [1, -1]
      .euclidean 1 [0] :=
  (sccc_combined_iff 1).1 Nat ℚ id uncoded 0 0 uncoded 0 0 Interleaver.unit 1 1 min realDistance 1
    [1, -1] .euclidean [0] fun _ _ _ _ x _ => mul_one x

/-- With two outputs and equal metrics, twice the first is compared with the second. -/
theorem sccc_combined_first_only :
    scccDecoderCombined id uncoded 0 0 uncoded 0 0 Interleaver.unit 1 1 min realDistance 1 [1, -1]
        .euclidean 2 [0] = .ok [1] ∧
      (scaledMetrics 1 realDistance 1 [1, -1] .euclidean 2 [0] 2 >>=
        scccDecoder id uncoded 0 0 uncoded 0 0 Interleaver.unit 1 1 min) = .ok [0] := by
  have decides := fun x y => scccDecoder_decides (f := uncoded) rfl (siso_uncoded x y)
  constructor
  · rw [combined_between rfl, decides, if_pos (by decide)]
  · rw [scaledMetrics_between]
    exact decides 2 2

end GnuRadio
