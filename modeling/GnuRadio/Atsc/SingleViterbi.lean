import GnuRadio.Misc.CappedLeast
import GnuRadio.Misc.DelayLine
import Mathlib.Data.Fintype.Basic
import Mathlib.Data.Rat.Cast.Order

/-!
# One trellis coder and its decoder

`atsci_basic_trellis_encoder` turns dibits into symbols of three bits, and
`atsci_single_viterbi` turns the levels of symbols back into dibits. The decoder keeps the
last 32 dibits of the best way into each state and puts out the oldest. What it computes with `float`
is computed exactly here.
-/

namespace GnuRadio

theorem neZero_four : NeZero 4 := ⟨by decide⟩

theorem neZero_eight : NeZero 8 := ⟨by decide⟩

attribute [local instance] neZero_four neZero_eight

/-! ## `atsci_basic_trellis_encoder` -/

/-- `next_state` (`atsci_basic_trellis_encoder.cc:26-35`). -/
def basicNextState : List (Fin 8) := [
  0, 1, 4, 5,
  2, 3, 6, 7,
  1, 0, 5, 4,
  3, 2, 7, 6,
  4, 5, 0, 1,
  6, 7, 2, 3,
  5, 4, 1, 0,
  7, 6, 3, 2]

/-- `out_symbol` (`atsci_basic_trellis_encoder.cc:37-46`). -/
def basicOutSymbol : List (Fin 8) := [
  0, 2, 4, 6,
  1, 3, 5, 7,
  0, 2, 4, 6,
  1, 3, 5, 7,
  4, 6, 0, 2,
  5, 7, 1, 3,
  4, 6, 0, 2,
  5, 7, 1, 3]

/-- `encode` (`atsci_basic_trellis_encoder.cc:54-61`). -/
def basicEncode (state : Fin 8) (input : Fin 4) : Fin 8 × Fin 8 :=
  let index := (state.val <<< 2) + input.val
  (basicOutSymbol.getD index 0, basicNextState.getD index 0)

/-- The level of a symbol: `map_to_soft_symbols` (`atsc_ds_to_softds.cc:48-55`). -/
def level (symbol : Fin 8) : Int := symbol.val * 2 - 7

/-! ## `atsci_single_viterbi` -/

/-- `was_sent` (`atsci_single_viterbi.cc:30-35`). -/
def wasSent : List Int := [
  -7, -3, -7, -3, -7, -3, -7, -3,
  -5, -1, -5, -1, -5, -1, -5, -1,
  1, 5, 1, 5, 1, 5, 1, 5,
  3, 7, 3, 7, 3, 7, 3, 7]

/-- `transition_table` (`atsci_single_viterbi.cc:37-46`). -/
def transitionTable : List (Fin 8) := [
  0, 2, 4, 6,
  2, 0, 6, 4,
  1, 3, 5, 7,
  3, 1, 7, 5,
  4, 6, 0, 2,
  6, 4, 2, 0,
  5, 7, 1, 3,
  7, 5, 3, 1]

/-- `atsci_single_viterbi`: the half of its arrays that `phase` selects. -/
structure SingleViterbi where
  pathMetrics : Fin 8 → ℚ
  traceback : Fin 8 → UInt64

namespace SingleViterbi

/-- `reset` (`atsci_single_viterbi.cc:48-57`). -/
def reset : SingleViterbi := ⟨fun _ => 0, fun _ => 0⟩

/-- The level that was sent on the way into a state with a dibit. -/
def sent (nextState : Fin 8) (symbolSent : Nat) : Int :=
  wasSent.getD ((nextState.val <<< 2) + symbolSent) 0

/-- The state before a branch. -/
def transition (nextState : Fin 8) (symbolSent : Nat) : Fin 8 :=
  transitionTable.getD ((nextState.val <<< 2) + symbolSent) 0

/-- The metric of a path that ends with this branch. -/
def metric (v : SingleViterbi) (input : ℚ) (nextState : Fin 8) (symbolSent : Nat) : ℚ :=
  |input - sent nextState symbolSent| + v.pathMetrics (transition nextState symbolSent)

/-- `min_metric` and `min_metric_symb`. Comparing the first with itself changes nothing. -/
def minMetric (v : SingleViterbi) (input : ℚ) (nextState : Fin 8) : ℚ × Nat :=
  leastAt (v.metric input nextState 0) (v.metric input nextState) 4

/-- `delay`: `TB_LEN - 1`. -/
def delay : Nat := 32 - 1

/-- A dibit goes into a traceback at the top. -/
def pushDibit (symbol : Nat) (traceback : UInt64) : UInt64 :=
  (UInt64.ofNat symbol <<< 62) ||| (traceback >>> 2)

/-- The best branch into every state is added to its path. -/
def advance (v : SingleViterbi) (input : ℚ) : SingleViterbi where
  pathMetrics nextState := (v.minMetric input nextState).1
  traceback nextState :=
    let symbol := (v.minMetric input nextState).2
    pushDibit symbol (v.traceback (transition nextState symbol))

/-- `best_state_metric` and `best_state`. -/
def bestState (v : SingleViterbi) : ℚ × Nat :=
  leastAt (v.pathMetrics 0) (fun state => v.pathMetrics (Fin.ofNat 8 state)) 8

/-- `decode` (`atsci_single_viterbi.cc:64-100`). -/
def decode (v : SingleViterbi) (input : ℚ) : Fin 4 × SingleViterbi :=
  let next := v.advance input
  let best := next.bestState
  (Fin.ofNat 4 (0x3 &&& next.traceback (Fin.ofNat 8 best.2)).toNat,
    { next with
      pathMetrics := fun state =>
        if 10000 < best.1 then next.pathMetrics state - best.1 else next.pathMetrics state })

/-! ## The traceback -/

/-- The dibit at place `j` of a traceback. -/
def field (traceback : UInt64) (j : Nat) : Fin 4 := Fin.ofNat 4 (traceback.toNat / 4 ^ j)

/-- The traceback has the last dibits of a history, the latest first. -/
def Recalls (traceback : UInt64) (history : List (Fin 4)) : Prop :=
  ∀ j < 32, field traceback (31 - j) = history.getD j 0

theorem toNat_pushDibit {symbol : Nat} (small : symbol < 4) (traceback : UInt64) :
    (pushDibit symbol traceback).toNat = symbol * 4 ^ 31 + traceback.toNat / 4 := by
  have bound := traceback.toNat_lt
  have whole : symbol % 2 ^ 64 = symbol := Nat.mod_eq_of_lt (by omega)
  have top : symbol * 2 ^ 62 % 2 ^ 64 = 2 ^ 62 * symbol := by
    rw [Nat.mod_eq_of_lt (by omega), Nat.mul_comm]
  have low : traceback.toNat / 4 < 2 ^ 62 := by omega
  have joined := Nat.two_pow_add_eq_or_of_lt low symbol
  rw [pushDibit, UInt64.toNat_or, UInt64.toNat_shiftLeft, UInt64.toNat_shiftRight,
    UInt64.toNat_ofNat', whole]
  have places : (62 : UInt64).toNat % 64 = 62 ∧ (2 : UInt64).toNat % 64 = 2 := by decide
  have four : (2 : Nat) ^ 2 = 4 ∧ (2 : Nat) ^ 62 = 4 ^ 31 := by decide
  rw [places.1, places.2, Nat.shiftLeft_eq, Nat.shiftRight_eq_div_pow, top, four.1, ← joined,
    Nat.mul_comm, four.2]

theorem Recalls.push {traceback : UInt64} {history : List (Fin 4)} (recalls : Recalls traceback history)
    {symbol : Nat} (small : symbol < 4) :
    Recalls (pushDibit symbol traceback) (Fin.ofNat 4 symbol :: history) := by
  intro j below
  have bound := traceback.toNat_lt
  rw [field, toNat_pushDibit small]
  cases j with
  | zero =>
    have rest : traceback.toNat / 4 / 4 ^ 31 = 0 := by
      rw [Nat.div_div_eq_div_mul]
      omega
    rw [Nat.sub_zero, Nat.add_comm, Nat.add_mul_div_right _ _ (by decide), rest, Nat.zero_add]
    rfl
  | succ j =>
    have high : symbol * 4 ^ 31 = 4 ^ (31 - (j + 1)) * (symbol * 4 ^ j * 4) := by
      have whole : (4 : Nat) ^ 31 = 4 ^ (31 - (j + 1)) * (4 ^ j * 4) := by
        rw [← Nat.pow_succ, ← Nat.pow_add]
        congr 1
        omega
      rw [whole]
      ring
    have place : traceback.toNat / 4 / 4 ^ (31 - (j + 1)) = traceback.toNat / 4 ^ (31 - j) := by
      rw [Nat.div_div_eq_div_mul, ← Nat.pow_succ']
      congr 2
      omega
    have last := recalls j (by omega)
    rw [high, Nat.mul_add_div (Nat.pow_pos (by decide)), place, List.getD_cons_succ, ← last, field]
    apply Fin.ext
    exact Nat.mul_add_mod_self_right ..

theorem recalls_zero : Recalls 0 [] := by
  intro j _
  simp [field]

/-! ## Decoding what was encoded -/

theorem level_injective : ∀ x y : Fin 8, level x = level y → x = y := by decide

theorem transition_spec : ∀ (state : Fin 8) (symbol : Fin 4),
    (basicEncode (transition state symbol) symbol).2 = state ∧
      sent state symbol = level (basicEncode (transition state symbol) symbol).1 := by
  decide

theorem transition_next : ∀ (state : Fin 8) (symbol : Fin 4),
    transition (basicEncode state symbol).2 symbol = state := by
  decide

theorem next_close : ∀ (s t : Fin 8) (d k : Fin 4),
    (basicEncode t k).1 = (basicEncode s d).1 →
      (basicEncode t k).2.val / 2 = (basicEncode s d).2.val / 2 := by
  decide

theorem encode_injective : ∀ (s t : Fin 8) (d k : Fin 4), t.val / 2 = s.val / 2 →
    (basicEncode t k).1 = (basicEncode s d).1 → t = s ∧ k = d := by
  decide

/-- The decoder knows the state of the encoder but for one bit, and the dibits that led there. -/
structure Tracks (v : SingleViterbi) (state : Fin 8) (history : List (Fin 4)) : Prop where
  nonneg : ∀ j, 0 ≤ v.pathMetrics j
  zero : v.pathMetrics state = 0
  close : ∀ j, v.pathMetrics j = 0 → j.val / 2 = state.val / 2
  recalls : Recalls (v.traceback state) history

variable {v : SingleViterbi}

variable {symbol state : Fin 8}

theorem metric_eq_zero (nonneg : ∀ j, 0 ≤ v.pathMetrics j) {nextState : Fin 8}
    {k : Nat} : v.metric (level symbol) nextState k = 0 ↔
      level symbol = sent nextState k ∧ v.pathMetrics (transition nextState k) = 0 := by
  rw [metric, add_eq_zero_iff_of_nonneg (abs_nonneg _) (nonneg _), abs_eq_zero, sub_eq_zero,
    Int.cast_inj]

theorem metric_nonneg (nonneg : ∀ j, 0 ≤ v.pathMetrics j) (input : ℚ) (nextState : Fin 8) (k : Nat) :
    0 ≤ v.metric input nextState k :=
  add_nonneg (abs_nonneg _) (nonneg _)

theorem minMetric_spec (v : SingleViterbi) (input : ℚ) (nextState : Fin 8) :
    (v.minMetric input nextState).2 < 4 ∧
      v.metric input nextState (v.minMetric input nextState).2 = (v.minMetric input nextState).1 ∧
      ∀ k < 4, (v.minMetric input nextState).1 ≤ v.metric input nextState k :=
  leastAt_head (v.metric input nextState) (by decide)

section

variable (nonneg : ∀ j, 0 ≤ v.pathMetrics j)
include nonneg

theorem advance_nonneg (input : ℚ) (j : Fin 8) : 0 ≤ (v.advance input).pathMetrics j := by
  obtain ⟨-, same, -⟩ := v.minMetric_spec input j
  exact (metric_nonneg nonneg input j _).trans_eq same

theorem advance_zero (zero : v.pathMetrics state = 0) (d : Fin 4) :
    (v.advance (level (basicEncode state d).1)).pathMetrics (basicEncode state d).2 = 0 := by
  have came := transition_next state d
  have sent := (transition_spec (basicEncode state d).2 d).2
  rw [came] at sent
  apply le_antisymm
  · obtain ⟨-, -, least⟩ := v.minMetric_spec (level (basicEncode state d).1) (basicEncode state d).2
    refine (least d d.isLt).trans (le_of_eq ?_)
    exact (metric_eq_zero nonneg).mpr ⟨sent.symm, by rw [came, zero]⟩
  · exact advance_nonneg nonneg _ _

theorem advance_came (zero : (v.advance (level symbol)).pathMetrics state = 0) :
    ∃ k : Fin 4, (v.minMetric (level symbol) state).2 = k ∧
      v.pathMetrics (transition state k) = 0 ∧
      (basicEncode (transition state k) k).1 = symbol ∧
      (basicEncode (transition state k) k).2 = state := by
  obtain ⟨below, same, -⟩ := v.minMetric_spec (level symbol) state
  obtain ⟨next, output⟩ := transition_spec state ⟨_, below⟩
  obtain ⟨equal, from_zero⟩ := (metric_eq_zero nonneg).mp (same.trans zero)
  exact ⟨⟨_, below⟩, rfl, from_zero, level_injective _ _ (output.symm.trans equal.symm), next⟩

theorem decode_eq {input : ℚ} (zero : (v.advance input).pathMetrics state = 0) :
    ∃ best, (v.advance input).pathMetrics best = 0 ∧
      v.decode input = (field ((v.advance input).traceback best) 0, v.advance input) := by
  obtain ⟨-, met, least⟩ := leastAt_head
    (fun state => (v.advance input).pathMetrics (Fin.ofNat 8 state)) (n := 8) (by decide)
  have reached := least state state.isLt
  simp only [Fin.ofNat_val_eq_self, zero] at reached
  have none : (v.advance input).bestState.1 = 0 :=
    le_antisymm reached (met ▸ advance_nonneg nonneg input _)
  refine ⟨Fin.ofNat 8 (v.advance input).bestState.2, met.trans none, ?_⟩
  have kept : ¬(10000 : ℚ) < 0 := by decide
  simp only [decode, none, if_neg kept]
  refine Prod.ext (Fin.ext ?_) rfl
  rw [field, Nat.pow_zero, Nat.div_one, UInt64.toNat_and, Nat.and_comm]
  exact (congrArg (· % 4) (Nat.and_two_pow_sub_one_eq_mod _ 2)).trans (Nat.mod_mod _ _)

end

theorem Tracks.step {state : Fin 8} {history : List (Fin 4)} (tracks : v.Tracks state history)
    (d : Fin 4) :
    ∃ v', v.decode (level (basicEncode state d).1) = ((d :: history).getD 31 0, v') ∧
      v'.Tracks (basicEncode state d).2 (d :: history) := by
  have zero := advance_zero tracks.nonneg tracks.zero d
  have only : ∀ j, (v.advance (level (basicEncode state d).1)).pathMetrics j = 0 →
      j = (basicEncode state d).2 ∧ (v.minMetric (level (basicEncode state d).1) j).2 = d := by
    intro j none
    obtain ⟨k, chosen, came, output, next⟩ := advance_came tracks.nonneg none
    obtain ⟨same, equal⟩ := encode_injective state _ d k (tracks.close _ came) output
    rw [same, equal] at next
    exact ⟨next.symm, by rw [chosen, equal]⟩
  obtain ⟨best, none, decoded⟩ := decode_eq tracks.nonneg zero
  have chosen := (only _ zero).2
  have recalls : Recalls ((v.advance (level (basicEncode state d).1)).traceback
      (basicEncode state d).2) (d :: history) := by
    simp only [advance, chosen, transition_next]
    simpa using tracks.recalls.push d.isLt
  refine ⟨_, ?_, advance_nonneg tracks.nonneg _, zero, ?_, recalls⟩
  · rw [decoded, (only best none).1, recalls 31 (by decide)]
  · intro j zero'
    rw [(only j zero').1]

theorem tracks_first (state : Fin 8) (d : Fin 4) :
    ∃ v' x, reset.decode (level (basicEncode state d).1) = (0, v') ∧
      v'.Tracks (basicEncode state d).2 [x] := by
  have nonneg : ∀ j, 0 ≤ reset.pathMetrics j := fun _ => le_rfl
  have zero := advance_zero nonneg (show reset.pathMetrics state = 0 from rfl) d
  have recalls : ∀ j, Recalls ((reset.advance (level (basicEncode state d).1)).traceback j)
      [Fin.ofNat 4 (reset.minMetric (level (basicEncode state d).1) j).2] :=
    fun j => recalls_zero.push (reset.minMetric_spec _ j).1
  obtain ⟨best, none, decoded⟩ := decode_eq nonneg zero
  refine ⟨_, _, ?_, advance_nonneg nonneg _, zero, ?_, recalls _⟩
  · rw [decoded, recalls best 31 (by decide)]
    rfl
  · intro j zero'
    obtain ⟨k, -, -, output, next⟩ := advance_came nonneg zero'
    rw [← next]
    exact next_close state _ d k output

/-! ## The delay of the decoder -/

/-- A symbol is encoded and decoded. -/
def basicCoder : Fin 8 × SingleViterbi → Fin 4 → Fin 4 × (Fin 8 × SingleViterbi) :=
  cascade basicEncode fun v symbol => v.decode (level symbol)

/-- The dibits that are still to come out, oldest first. -/
def lag (history : List (Fin 4)) : List (Fin 4) :=
  (List.range 31).map fun i => history.getD (30 - i) 0

theorem shift_lag (history : List (Fin 4)) (d : Fin 4) :
    shift (lag history) d = ((d :: history).getD 31 0, lag (d :: history)) := by
  have whole : lag history = (d :: history).getD 31 0 :: (List.range 30).map
      (fun i => history.getD (29 - i) 0) := by
    rw [lag, List.range_succ_eq_map, List.map_cons, List.map_map]
    congr 1
  rw [whole, shift, lag, List.range_succ, List.map_append]
  congr 2

/-- The coder and its decoder delay by what is still to come out. -/
def Lags (c : Fin 8 × SingleViterbi) (q : List (Fin 4)) : Prop :=
  ∃ history, c.2.Tracks c.1 history ∧ q = lag history

theorem Lags.step {c : Fin 8 × SingleViterbi} {q : List (Fin 4)} (lags : Lags c q) (d : Fin 4) :
    (basicCoder c d).1 = (shift q d).1 ∧ Lags (basicCoder c d).2 (shift q d).2 := by
  obtain ⟨history, tracks, rfl⟩ := lags
  obtain ⟨v, decoded, next⟩ := tracks.step d
  rw [shift_lag]
  simp only [basicCoder, cascade, decoded]
  exact ⟨trivial, d :: history, next, rfl⟩

theorem lags_first (d : Fin 4) :
    ∃ x, (basicCoder (0, reset) d).1 = (shift (List.replicate 31 0) x).1 ∧
      Lags (basicCoder (0, reset) d).2 (shift (List.replicate 31 0) x).2 := by
  obtain ⟨v, x, decoded, tracks⟩ := tracks_first 0 d
  have none : List.replicate 31 0 = lag [] := rfl
  refine ⟨x, ?_⟩
  rw [none, shift_lag]
  simp only [basicCoder, cascade, decoded]
  exact ⟨rfl, [x], tracks, rfl⟩

/-! ## The dibits that come back -/

/-- The symbols of the encoder, from `reset` on. -/
def encoded (dibits : List (Fin 4)) : List (Fin 8) := (feed basicEncode 0 dibits).1

/-- What `decode` returns step by step on levels without noise, from `reset` on. -/
def decoded (symbols : List (Fin 8)) : List (Fin 4) :=
  (feed (fun v symbol => v.decode (level symbol)) reset symbols).1

theorem decoded_encoded (d : Fin 4) (dibits : List (Fin 4)) :
    ∃ x, decoded (encoded (d :: dibits)) =
      (List.replicate delay 0 ++ x :: dibits).take (d :: dibits).length := by
  obtain ⟨x, output, lags⟩ := lags_first d
  obtain ⟨outputs, -⟩ := feed_simulates Lags (fun c q d lags => lags.step d) lags dibits
  have coded : decoded (encoded (d :: dibits)) = (feed basicCoder (0, reset) (d :: dibits)).1 := by
    rw [basicCoder, feed_cascade]
    rfl
  have shifted : (feed shift (List.replicate delay (0 : Fin 4)) (x :: dibits)).1 =
      (List.replicate delay 0 ++ x :: dibits).take (x :: dibits).length := by
    rw [feed_shift]
  refine ⟨x, ?_⟩
  rw [coded, feed_cons, output, outputs]
  exact shifted

/-- **The decoder inverts the encoder**: from the second dibit behind its delay on, each step
returns the dibit that was encoded as many steps before. -/
theorem decode_inverts_encode {dibits : List (Fin 4)} {n : Nat} (settled : delay + 2 ≤ n)
    (inside : n < dibits.length) : (decoded (encoded dibits))[n]? = dibits[n - delay]? := by
  cases dibits with
  | nil => cases inside
  | cons d dibits =>
    obtain ⟨x, returned⟩ := decoded_encoded d dibits
    have behind : n - delay = (n - delay - 1) + 1 := by omega
    rw [returned, List.getElem?_take_of_lt inside,
      List.getElem?_append_right (by rw [List.length_replicate]; omega), List.length_replicate,
      behind, List.getElem?_cons_succ, List.getElem?_cons_succ]

/-- The third of forty dibits is the first one that is promised. -/
theorem decode_inverts_third :
    (decoded (encoded ([3, 1, 2] ++ List.replicate 37 0)))[33]? = some 2 :=
  decode_inverts_encode (show delay + 2 ≤ 33 by decide) (by decide)

end SingleViterbi

end GnuRadio
