import GnuRadio.Trellis.Fsm
import Mathlib.Tactic.Linarith

/-!
# The soft-input soft-output algorithm

`siso_algorithm` runs over the trellis forward and backward, and combines the two
for each input, or each output, of each step, leaving out its own prior.
`p2mymin` is the way two metrics are combined. With the minimum, the results are
the marginals: the least metrics of the paths that use the input or the output.
-/

namespace GnuRadio

section Algorithm

variable (f : Fsm) (S0 SK : Int) (p2mymin : ℚ → ℚ → ℚ) (priori prioro : List ℚ)

/-- The forward recursion (`core_algorithms.cc:437-459`): the row of `alpha` before step `k`. -/
def sisoAlpha : Nat → List ℚ
  | 0 => edgeRow f.S S0
  | k + 1 =>
      let alpha := sisoAlpha k
      normalize f.S ((List.range f.S).map fun j =>
        accumulate p2mymin INF (fun i =>
          alpha.getD (f.ps j i) 0 + priori.getD (k * f.I + f.pi j i) 0 +
            prioro.getD (k * f.O + f.output (f.ps j i) (f.pi j i)) 0)
          (List.range (f.PS.getD j []).length))

/-- The backward recursion (`core_algorithms.cc:461-483`): the row of `beta` before the last `n`
of `K` steps. -/
def sisoBeta (K : Nat) : Nat → List ℚ
  | 0 => edgeRow f.S SK
  | n + 1 =>
      let beta := sisoBeta K n
      let k := K - (n + 1)
      normalize f.S ((List.range f.S).map fun j =>
        accumulate p2mymin INF (fun i =>
          beta.getD (f.next j i) 0 + priori.getD (k * f.I + i) 0 +
            prioro.getD (k * f.O + f.output j i) 0)
          (List.range f.I))

/-- Input combining (`core_algorithms.cc:488-501`, `core_algorithms.cc:523-536`) at step `k`, with
the rows of `alpha` before it and of `beta` after it. -/
def inputCombining (alpha beta : List ℚ) (k : Nat) : List ℚ :=
  normalize f.I ((List.range f.I).map fun i =>
    accumulate p2mymin INF (fun j =>
      alpha.getD j 0 + prioro.getD (k * f.O + f.output j i) 0 + beta.getD (f.next j i) 0)
      (List.range f.S))

/-- Output combining (`core_algorithms.cc:504-519`, `core_algorithms.cc:540-555`) at step `k`. -/
def outputCombining (alpha beta : List ℚ) (k : Nat) : List ℚ :=
  normalize f.O ((List.range f.O).map fun n =>
    (List.range f.S).foldl (fun minm j =>
      accumulate p2mymin minm (fun i =>
        if n = f.output j i then
          alpha.getD j 0 + priori.getD (k * f.I + i) 0 + beta.getD (f.next j i) 0
        else INF)
        (List.range f.I)) INF)

/-- What is found for the inputs of step `k`. -/
def sisoPosti (K k : Nat) : List ℚ :=
  inputCombining f p2mymin prioro (sisoAlpha f S0 p2mymin priori prioro k)
    (sisoBeta f SK p2mymin priori prioro K (K - (k + 1))) k

/-- What is found for the outputs of step `k`. -/
def sisoPosto (K k : Nat) : List ℚ :=
  outputCombining f p2mymin priori (sisoAlpha f S0 p2mymin priori prioro k)
    (sisoBeta f SK p2mymin priori prioro K (K - (k + 1))) k

/-- `siso_algorithm` (`core_algorithms.cc:418-560`). -/
def sisoAlgorithm (K : Nat) (POSTI POSTO : Bool) : Except String (List ℚ) :=
  let posti := sisoPosti f S0 SK p2mymin priori prioro K
  let posto := sisoPosto f S0 SK p2mymin priori prioro K
  match POSTI, POSTO with
  | true, true => .ok ((List.range K).flatMap fun k => posti k ++ posto k)
  | true, false => .ok ((List.range K).flatMap posti)
  | false, true => .ok ((List.range K).flatMap posto)
  | false, false => .error "Not both POSTI and POSTO can be false."

/-- The paths, with the priors of the transitions. -/
def sisoTrellis : Trellis Nat Nat ℚ :=
  f.trellis S0 SK fun k s u => priori.getD (k * f.I + u) 0 + prioro.getD (k * f.O + f.output s u) 0

/-- The metrics of the paths of length `K` with the input `i` at step `k`, without its prior. -/
def inputMarginal (K k i : Nat) : Set ℚ :=
  {t | ∃ s us, (sisoTrellis f S0 SK priori prioro).Path K s us ∧ us[k]? = some i ∧
    (sisoTrellis f S0 SK priori prioro).weight 0 s us - priori.getD (k * f.I + i) 0 = t}

/-- The metrics of the paths of length `K` with the output `o` at step `k`, without its prior. -/
def outputMarginal (K k o : Nat) : Set ℚ :=
  {t | ∃ s us u, (sisoTrellis f S0 SK priori prioro).Path K s us ∧ us[k]? = some u ∧
    f.output ((sisoTrellis f S0 SK priori prioro).walk s (us.take k)) u = o ∧
    (sisoTrellis f S0 SK priori prioro).weight 0 s us - prioro.getD (k * f.O + o) 0 = t}

/-- The least of `n` priors, or 0 when none is negative. -/
def lowest (prior : List ℚ) (n k : Nat) : ℚ :=
  (leastAt 0 (fun i => prior.getD (k * n + i) 0) n).1

/-- The least priors of a step. -/
def lowestPriors (k : Nat) : ℚ := lowest priori f.I k + lowest prioro f.O k

end Algorithm

variable {f : Fsm} {S0 SK : Int} {p2mymin : ℚ → ℚ → ℚ} {priori prioro : List ℚ} {K k n i j : Nat}

theorem normalize_length {row : List ℚ} : (normalize n row).length = n := by
  rw [normalize, List.length_map, List.length_range]

theorem sisoPosti_length : (sisoPosti f S0 SK p2mymin priori prioro K k).length = f.I :=
  normalize_length

theorem sisoPosto_length : (sisoPosto f S0 SK p2mymin priori prioro K k).length = f.O :=
  normalize_length

theorem lowest_nonpos (prior : List ℚ) (n k : Nat) : lowest prior n k ≤ 0 :=
  (leastAt_isLeast 0 (fun i => prior.getD (k * n + i) 0) n).2 (Or.inl rfl)

theorem lowest_le (prior : List ℚ) (k : Nat) (inside : i < n) :
    lowest prior n k ≤ prior.getD (k * n + i) 0 :=
  (leastAt_isLeast 0 (fun i => prior.getD (k * n + i) 0) n).2 (Or.inr ⟨i, inside, rfl⟩)

/-! ## The two recursions -/

/-- The trellis with the least priors of each step taken off. -/
def lessTrellis (f : Fsm) (S0 SK : Int) (priori prioro : List ℚ) : Trellis Nat Nat ℚ :=
  (sisoTrellis f S0 SK priori prioro).less (lowestPriors f priori prioro)

theorem lessTrellis_cost (s u : Nat) : (lessTrellis f S0 SK priori prioro).cost k s u =
    priori.getD (k * f.I + u) 0 - lowest priori f.I k +
      (prioro.getD (k * f.O + f.output s u) 0 - lowest prioro f.O k) := by
  change priori.getD (k * f.I + u) 0 + prioro.getD (k * f.O + f.output s u) 0 -
    (lowest priori f.I k + lowest prioro f.O k) = _
  abel

theorem lessTrellis_nonneg (s u : Nat) (state : s < f.S) (input : u < f.I) :
    0 ≤ (lessTrellis f S0 SK priori prioro).cost k s u := by
  rw [lessTrellis_cost]
  exact add_nonneg (sub_nonneg.mpr (lowest_le priori k input))
    (sub_nonneg.mpr (lowest_le prioro k (Fsm.output_lt state input)))

theorem lessTrellis_add (x : ℚ) (s u : Nat) :
    x + ((lessTrellis f S0 SK priori prioro).cost k s u + lowestPriors f priori prioro k) =
      x + priori.getD (k * f.I + u) 0 + prioro.getD (k * f.O + f.output s u) 0 := by
  rw [lessTrellis_cost, lowestPriors]
  abel

theorem lowestPriors_nonpos (f : Fsm) (priori prioro : List ℚ) (k : Nat) :
    lowestPriors f priori prioro k ≤ 0 :=
  add_nonpos (lowest_nonpos _ _ _) (lowest_nonpos _ _ _)

theorem sisoAlpha_represents (f : Fsm) (S0 SK : Int) (priori prioro : List ℚ) (k : Nat) :
    ∃ offset, Represents INF (· < f.S)
    ((lessTrellis f S0 SK priori prioro).prefixes k)
    (fun j => (sisoAlpha f S0 min priori prioro k).getD j 0) offset := by
  induction k with
  | zero =>
    refine ⟨0, edgeRow_represents fun j below t => ?_⟩
    rw [Trellis.mem_prefixes_zero]
    exact and_congr_left fun _ => ⟨And.right, fun first => ⟨below, first⟩⟩
  | succ k ih =>
    obtain ⟨offset, represents⟩ := ih
    refine ⟨_, forward_row (T := lessTrellis f S0 SK priori prioro) (n := f.S) _ rfl represents
      lessTrellis_nonneg (lowestPriors_nonpos f priori prioro k) ?_⟩
    intro j state
    rw [getD_map_range _ 0 state]
    apply isLeast_insert_congr (accumulate_isLeast INF _ _)
    intro x
    simp only [List.mem_range, lessTrellis_add]
    exact Fsm.exists_predecessor state (fun s u => (sisoAlpha f S0 min priori prioro k).getD s 0 +
      priori.getD (k * f.I + u) 0 + prioro.getD (k * f.O + f.output s u) 0) x

theorem sisoBeta_represents (f : Fsm) (S0 SK : Int) (priori prioro : List ℚ) (enough : n ≤ K) :
    ∃ offset,
    Represents INF (· < f.S) ((lessTrellis f S0 SK priori prioro).suffixes n (K - n))
    (fun j => (sisoBeta f SK min priori prioro K n).getD j 0) offset := by
  induction n with
  | zero =>
    refine ⟨0, edgeRow_represents fun j below t => ?_⟩
    rw [Trellis.mem_suffixes_zero]
    rfl
  | succ n ih =>
    obtain ⟨offset, represents⟩ := ih (Nat.le_of_succ_le enough)
    have later : K - n = K - (n + 1) + 1 := by omega
    rw [later] at represents
    refine ⟨_, backward_row (T := lessTrellis f S0 SK priori prioro) (n := f.S) _ rfl represents
      lessTrellis_nonneg (lowestPriors_nonpos f priori prioro (K - (n + 1))) ?_⟩
    intro j state
    rw [getD_map_range _ 0 state]
    apply isLeast_insert_congr (accumulate_isLeast INF _ _)
    intro x
    simp only [List.mem_range, lessTrellis_add]
    rfl

/-! ## The marginals -/

theorem lessTrellis_weight (s : Nat) (us : List Nat) (length : us.length = K) :
    (lessTrellis f S0 SK priori prioro).weight 0 s us =
      (sisoTrellis f S0 SK priori prioro).weight 0 s us -
        Trellis.lows (lowestPriors f priori prioro) 0 K := by
  rw [lessTrellis, Trellis.weight_less, length]

section Marginals

variable (step : k < K)
  (fits : ∀ s us, (lessTrellis f S0 SK priori prioro).Path K s us →
    (lessTrellis f S0 SK priori prioro).weight 0 s us < INF)
include step fits

theorem combining_marginal {m : Nat} {row : List ℚ} {P : Nat → Nat → Nat → Prop}
    {w : Nat → Nat → ℚ} {low d : ℚ} {Q : Nat → Set ℚ} (lowNonpos : low ≤ 0)
    (own : ∀ j u, j < f.S → u < f.I →
      0 ≤ w j u ∧ 0 ≤ (lessTrellis f S0 SK priori prioro).cost k j u - w j u)
    (least : ∀ i < m, IsLeast (insert INF {x | ∃ j u, (j < f.S ∧ u < f.I ∧ P i j u) ∧
      (sisoAlpha f S0 min priori prioro k).getD j 0 +
        ((lessTrellis f S0 SK priori prioro).cost k j u - w j u + low) +
        (sisoBeta f SK min priori prioro K (K - (k + 1))).getD (f.next j u) 0 = x}) (row.getD i 0))
    (sets : ∀ i t, t ∈ Q i ↔ ∃ s us u, (lessTrellis f S0 SK priori prioro).Path K s us ∧
      us[k]? = some u ∧ P i ((lessTrellis f S0 SK priori prioro).walk s (us.take k)) u ∧
      (lessTrellis f S0 SK priori prioro).weight 0 s us -
        w ((lessTrellis f S0 SK priori prioro).walk s (us.take k)) u = t - d) :
    Marginal (fun i => (normalize m row).getD i 0) (· < m) Q := by
  obtain ⟨N, before⟩ := sisoAlpha_represents f S0 SK priori prioro k
  obtain ⟨N', after⟩ := sisoBeta_represents f S0 SK priori prioro (Nat.sub_le K (k + 1))
  have later : K - (K - (k + 1)) = k + 1 := by omega
  have total : k + 1 + (K - (k + 1)) = K := by omega
  rw [later] at after
  let R := fun i => {t | ∃ s us u, (lessTrellis f S0 SK priori prioro).Path K s us ∧
    us[k]? = some u ∧ P i ((lessTrellis f S0 SK priori prioro).walk s (us.take k)) u ∧
    (lessTrellis f S0 SK priori prioro).weight 0 s us -
      w ((lessTrellis f S0 SK priori prioro).walk s (us.take k)) u = t}
  let norm := (leastAt INF (fun i => row.getD i 0) m).1
  have capped : ∀ i, i < m →
      CappedLeast INF (R i) ((normalize m row).getD i 0 + (N + N' - low + norm)) := by
    intro i inside
    have value : (normalize m row).getD i 0 + (N + N' - low + norm) =
        row.getD i 0 + (N + N' - low) := by
      rw [normalize_getD inside]
      change _ - norm + _ = _
      abel
    have through := Trellis.through (T := lessTrellis f S0 SK priori prioro) before after lowNonpos
      (fun j u state input _ => (own j u state input).2) (least i inside)
    rw [total] at through
    rwa [value]
  have below : ∀ i, i < m → ∀ t ∈ R i, t < INF := by
    rintro i - t ⟨s, us, u, path, here, -, rfl⟩
    have firsts : ∀ v ∈ us.take k, (lessTrellis f S0 SK priori prioro).input v :=
      fun v member => path.2.2.1 v (List.mem_of_mem_take member)
    have state := (lessTrellis f S0 SK priori prioro).walk_state path.1.1 firsts
    have positive := (own _ u state (path.2.2.1 u (List.mem_of_getElem? here))).1
    exact (sub_le_self _ positive).trans_lt (fits s us path)
  exact Marginal.of_cappedLeast capped below sets

theorem sisoPosti_marginal :
    Marginal (fun i => (sisoPosti f S0 SK min priori prioro K k).getD i 0) (· < f.I)
      (inputMarginal f S0 SK priori prioro K k) := by
  refine combining_marginal (P := fun i _ u => u = i)
    (w := fun _ u => priori.getD (k * f.I + u) 0 - lowest priori f.I k)
    (d := Trellis.lows (lowestPriors f priori prioro) 0 K - lowest priori f.I k)
    step fits (lowest_nonpos prioro f.O k) ?_ ?_ ?_
  · intro j u state input
    refine ⟨sub_nonneg.mpr (lowest_le priori k input), ?_⟩
    rw [lessTrellis_cost, add_sub_cancel_left]
    exact sub_nonneg.mpr (lowest_le prioro k (Fsm.output_lt state input))
  · intro i inside
    rw [getD_map_range _ 0 inside]
    apply isLeast_insert_congr (accumulate_isLeast INF _ _)
    intro x
    simp only [List.mem_range, lessTrellis_cost, add_sub_cancel_left, sub_add_cancel]
    constructor
    · intro ⟨j, state, value⟩
      exact ⟨j, i, ⟨state, inside, rfl⟩, value⟩
    · rintro ⟨j, u, ⟨state, input, rfl⟩, value⟩
      exact ⟨j, state, value⟩
  · intro i t
    constructor
    · rintro ⟨s, us, path, here, rfl⟩
      refine ⟨s, us, i, path, here, rfl, ?_⟩
      rw [lessTrellis_weight s us path.2.1]
      abel
    · rintro ⟨s, us, u, path, here, rfl, value⟩
      refine ⟨s, us, path, here, ?_⟩
      rw [lessTrellis_weight s us path.2.1] at value
      linarith only [value]

theorem sisoPosto_marginal :
    Marginal (fun o => (sisoPosto f S0 SK min priori prioro K k).getD o 0) (· < f.O)
      (outputMarginal f S0 SK priori prioro K k) := by
  refine combining_marginal (P := fun o j u => f.output j u = o)
    (w := fun j u => prioro.getD (k * f.O + f.output j u) 0 - lowest prioro f.O k)
    (d := Trellis.lows (lowestPriors f priori prioro) 0 K - lowest prioro f.O k)
    step fits (lowest_nonpos priori f.I k) ?_ ?_ ?_
  · intro j u state input
    refine ⟨sub_nonneg.mpr (lowest_le prioro k (Fsm.output_lt state input)), ?_⟩
    rw [lessTrellis_cost, add_sub_cancel_right]
    exact sub_nonneg.mpr (lowest_le priori k input)
  · intro o inside
    rw [getD_map_range _ 0 inside]
    have nested := accumulate_nested_isLeast INF
      (fun j u => if o = f.output j u then (sisoAlpha f S0 min priori prioro k).getD j 0 +
        priori.getD (k * f.I + u) 0 +
        (sisoBeta f SK min priori prioro K (K - (k + 1))).getD (f.next j u) 0 else INF)
      (List.range f.S) (List.range f.I)
    have pairs := isLeast_insert_guarded (isLeast_insert_congr nested
      (Y := {x | ∃ e : Nat × Nat, (e.1 < f.S ∧ e.2 < f.I) ∧ (if o = f.output e.1 e.2 then
        (sisoAlpha f S0 min priori prioro k).getD e.1 0 + priori.getD (k * f.I + e.2) 0 +
        (sisoBeta f SK min priori prioro K (K - (k + 1))).getD (f.next e.1 e.2) 0 else INF) = x})
      fun x => ?_)
    · apply isLeast_insert_congr pairs
      intro x
      simp only [lessTrellis_cost, add_sub_cancel_right, sub_add_cancel]
      constructor
      · rintro ⟨⟨j, u⟩, ⟨⟨state, input⟩, output⟩, value⟩
        exact ⟨j, u, ⟨state, input, output.symm⟩, value⟩
      · rintro ⟨j, u, ⟨state, input, output⟩, value⟩
        exact ⟨(j, u), ⟨⟨state, input⟩, output.symm⟩, value⟩
    · simp only [Set.mem_ofPred_eq, List.mem_range]
      constructor
      · rintro ⟨j, state, u, input, value⟩
        exact ⟨(j, u), ⟨state, input⟩, value⟩
      · rintro ⟨⟨j, u⟩, ⟨state, input⟩, value⟩
        exact ⟨j, state, u, input, value⟩
  · intro o t
    have same : ∀ s us, (lessTrellis f S0 SK priori prioro).walk s us =
      (sisoTrellis f S0 SK priori prioro).walk s us := fun _ _ => rfl
    simp only [same]
    constructor
    · rintro ⟨s, us, u, path, here, rfl, rfl⟩
      refine ⟨s, us, u, path, here, rfl, ?_⟩
      rw [lessTrellis_weight s us path.2.1]
      abel
    · rintro ⟨s, us, u, path, here, rfl, value⟩
      refine ⟨s, us, u, path, here, rfl, ?_⟩
      rw [lessTrellis_weight s us path.2.1] at value
      linarith only [value]

end Marginals

/-- **Marginalisation.** Where all path totals are below `INF`, the values for the inputs of a step
are, up to one constant, the least metrics of the paths with this input, without its prior; likewise
for the outputs. -/
theorem siso_marginal (f : Fsm) (K : Nat) (S0 SK : Int) (priori prioro : List ℚ)
    (fits : ∀ s us, (lessTrellis f S0 SK priori prioro).Path K s us →
      (lessTrellis f S0 SK priori prioro).weight 0 s us < INF) :
    ∃ posti posto post, sisoAlgorithm f S0 SK min priori prioro K true false = .ok posti ∧
      sisoAlgorithm f S0 SK min priori prioro K false true = .ok posto ∧
      sisoAlgorithm f S0 SK min priori prioro K true true = .ok post ∧ ∀ k < K,
      Marginal (fun i => posti.getD (k * f.I + i) 0) (· < f.I)
        (inputMarginal f S0 SK priori prioro K k) ∧
      Marginal (fun o => posto.getD (k * f.O + o) 0) (· < f.O)
        (outputMarginal f S0 SK priori prioro K k) ∧
      (∀ i < f.I, post.getD (k * (f.I + f.O) + i) 0 = posti.getD (k * f.I + i) 0) ∧
      ∀ o < f.O, post.getD (k * (f.I + f.O) + f.I + o) 0 = posto.getD (k * f.O + o) 0 := by
  refine ⟨_, _, _, rfl, rfl, rfl, fun k step => ?_⟩
  have inputs : ∀ i < f.I, _ = (sisoPosti f S0 SK min priori prioro K k).getD i 0 :=
    fun i inside => getD_flatMap 0 (fun k _ => sisoPosti_length) step inside
  have outputs : ∀ o < f.O, _ = (sisoPosto f S0 SK min priori prioro K k).getD o 0 :=
    fun o inside => getD_flatMap 0 (fun k _ => sisoPosto_length) step inside
  have lengths : ∀ k < K, (sisoPosti f S0 SK min priori prioro K k ++
      sisoPosto f S0 SK min priori prioro K k).length = f.I + f.O := by
    intro k _
    rw [List.length_append, sisoPosti_length, sisoPosto_length]
  refine ⟨(sisoPosti_marginal step fits).congr inputs, (sisoPosto_marginal step fits).congr outputs,
    fun i inside => ?_, fun o inside => ?_⟩
  · rw [inputs i inside, getD_flatMap 0 lengths step (Nat.lt_add_right f.O inside),
      List.getD_append _ _ _ _ (sisoPosti_length.symm ▸ inside)]
  · rw [outputs o inside, Nat.add_assoc, getD_flatMap 0 lengths step (by omega),
      List.getD_append_right _ _ _ _ (sisoPosti_length.symm ▸ Nat.le_add_right f.I o),
      sisoPosti_length, Nat.add_sub_cancel_left]

theorem siso_marginal_accumulator :
    ∃ posti posto post, sisoAlgorithm accumulator 0 (-1) min [0, 1] [0, 2] 1 true false = .ok posti ∧
      sisoAlgorithm accumulator 0 (-1) min [0, 1] [0, 2] 1 false true = .ok posto ∧
      sisoAlgorithm accumulator 0 (-1) min [0, 1] [0, 2] 1 true true = .ok post ∧ ∀ k < 1,
      Marginal (fun i => posti.getD (k * 2 + i) 0) (· < 2)
        (inputMarginal accumulator 0 (-1) [0, 1] [0, 2] 1 k) ∧
      Marginal (fun o => posto.getD (k * 2 + o) 0) (· < 2)
        (outputMarginal accumulator 0 (-1) [0, 1] [0, 2] 1 k) ∧
      (∀ i < 2, post.getD (k * (2 + 2) + i) 0 = posti.getD (k * 2 + i) 0) ∧
      ∀ o < 2, post.getD (k * (2 + 2) + 2 + o) 0 = posto.getD (k * 2 + o) 0 := by
  refine siso_marginal accumulator 1 0 (-1) [0, 1] [0, 2] ?_
  intro s us ⟨start, length, inputs, _⟩
  obtain ⟨u, rfl⟩ := List.length_eq_one_iff.mp length
  have all : ∀ s < 2, ∀ u < 2,
      (lessTrellis accumulator 0 (-1) [0, 1] [0, 2]).weight 0 s [u] < INF := by decide +kernel
  exact all s start.1 u (inputs u (List.mem_singleton_self u))

/-- With negative priors a path from a state where none begins can win: `INF` and its metrics are
less than the metrics of the others. All totals are below `INF` here, in both directions. -/
theorem siso_negative_priors :
    (∀ s us, (sisoTrellis accumulator (-1) (-1) [0, 0] [600000000, -600000000]).Path 1 s us →
      |(sisoTrellis accumulator (-1) (-1) [0, 0] [600000000, -600000000]).weight 0 s us| < INF) ∧
    ∃ posti, sisoAlgorithm accumulator 0 (-1) min [0, 0] [600000000, -600000000] 1 true false =
        .ok posti ∧
      ¬∃ c, ∀ i < 2, IsLeast (inputMarginal accumulator 0 (-1) [0, 0] [600000000, -600000000] 1 0 i)
        (posti.getD i 0 + c) := by
  refine ⟨?_, [1000000000, 0], by decide +kernel, ?_⟩
  · intro s us ⟨start, length, inputs, _⟩
    obtain ⟨u, rfl⟩ := List.length_eq_one_iff.mp length
    have all : ∀ s < 2, ∀ u < 2,
        |(sisoTrellis accumulator (-1) (-1) [0, 0] [600000000, -600000000]).weight 0 s [u]| < INF := by
      decide +kernel
    exact all s start.1 u (inputs u (List.mem_singleton_self u))
  · intro ⟨c, least⟩
    have single : ∀ i t, t ∈ inputMarginal accumulator 0 (-1) [0, 0] [600000000, -600000000] 1 0 i →
        (sisoTrellis accumulator 0 (-1) [0, 0] [600000000, -600000000]).weight 0 0 [i] -
          [0, 0].getD i (0 : ℚ) = t := by
      rintro i t ⟨s, us, ⟨start, length, _⟩, here, value⟩
      obtain ⟨u, rfl⟩ := List.length_eq_one_iff.mp length
      obtain rfl : u = i := Option.some.inj here
      have edge : (0 : Int) < 0 ∨ (0 : Int) = s := start.2
      have first : s = 0 := by omega
      rw [first] at value
      simpa using value
    have zero := single 0 _ (least 0 (by decide)).1
    have one := single 1 _ (least 1 (by decide)).1
    have costs : (sisoTrellis accumulator 0 (-1) [0, 0] [600000000, -600000000]).weight 0 0 [0] -
        [0, 0].getD 0 (0 : ℚ) = 600000000 ∧
        (sisoTrellis accumulator 0 (-1) [0, 0] [600000000, -600000000]).weight 0 0 [1] -
        [0, 0].getD 1 (0 : ℚ) = -600000000 := by decide +kernel
    rw [costs.1] at zero
    rw [costs.2] at one
    simp only [List.getD_cons_zero, List.getD_cons_succ] at zero one
    linarith only [zero, one]

end GnuRadio
