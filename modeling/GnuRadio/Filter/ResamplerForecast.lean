import GnuRadio.Filter.Resampler
import GnuRadio.Misc.Double
import GnuRadio.Misc.Except
import GnuRadio.Runtime.Types

/-!
# What the rational resampler asks for and what it reads

`forecast` multiplies the outputs and one more by the decimation, divides by the interpolation, and
adds the history less one. `general_work` moves on by its phase counter, which need not start at
zero.
-/

namespace GnuRadio

namespace GrRationalResampler

variable {R M : Type} [Semiring R] [AddCommMonoid M] [Module R M]

/-- `(double) (noutput_items+1) * decimation() / interpolation()` of `forecast`, towards zero. -/
def ratio (block : GrRationalResampler R) (noutput_items : ℕ) : ℕ :=
  ⌊Double.div (Double.mul ((noutput_items + 1 : ℕ) : ℚ) block.d_decimation)
    block.d_interpolation⌋.toNat

/-- `forecast` (`gr_rational_resampler_base_XXX.cc.t:133-140`). The history is `unsigned`, and so
are the sum and the maximum. -/
def forecast (block : GrRationalResampler R) (noutput_items : ℕ) : Except CppException Int := do
  let _ ← asInt (noutput_items + 1)
  let whole ← asInt (block.ratio noutput_items)
  let nreqd := max 1 ((whole + block.d_history - 1) % 2 ^ 32)
  pure (nreqd.bmod (2 ^ 32))

/-- The loop of `general_work` (`gr_rational_resampler_base_XXX.cc.t:160-167`): the filter and the
first item of each evaluation, the counter at its end, and how far the input has moved on. -/
def evaluate (block : GrRationalResampler R) (noutput_items : ℕ) : List (ℕ × ℕ) × ℕ × ℕ :=
  (List.range noutput_items).foldl (fun s _ =>
    (s.1 ++ [s.2], carry block.d_interpolation ((s.2.1 + block.d_decimation) % 2 ^ 32) s.2.2))
    ([], block.d_ctr, 0)

/-- The evaluations of a call: with new taps it makes none. -/
def evaluations (block : GrRationalResampler R) (noutput_items : ℕ) : List (ℕ × ℕ) :=
  if block.d_updated then [] else (block.evaluate noutput_items).1

/-- `d_firs[ctr]`. -/
def fir (block : GrRationalResampler R) (ctr : ℕ) : GrFir R :=
  block.d_firs.getD ctr (GrFir.setTaps [])

/-- Every evaluation of a call reads items among the first `given`, and no more are consumed. -/
structure StaysBelow (block : GrRationalResampler R) (noutput_items given : ℕ) : Prop where
  reads : ∀ p ∈ block.evaluations noutput_items, ∀ i < (block.fir p.1).ntaps, p.2 + i < given
  consumes : ∀ (N_UNROLL : ℕ) (input : ℕ → R),
    (block.generalWork N_UNROLL input noutput_items).2.1 ≤ given

/-- What holds of a resampler whatever is called: `installed_make`, and `setTaps` and `generalWork`
below. -/
structure Installed (block : GrRationalResampler R) : Prop where
  positive : 0 < block.d_interpolation
  count : block.d_firs.length = block.d_interpolation
  ntaps : ∀ fir ∈ block.d_firs, fir.ntaps = block.d_history
  ctr : block.d_ctr < block.d_interpolation

/-- The truncated ratio `q` leaves room for the outputs: with two taps and more in a filter, the
last output begins before item `q`, and with one tap one item is enough as well. -/
def Enough (block : GrRationalResampler R) (noutput_items q : ℕ) : Prop :=
  block.d_updated = true ∨
  if block.d_history = 0 then
    block.d_ctr + noutput_items * block.d_decimation <
      (if q = 0 then 1 else max 2 q) * block.d_interpolation
  else
    q + block.d_history ≤ 2 ^ 31 ∧
    (block.d_ctr + (noutput_items - 1) * block.d_decimation < q * block.d_interpolation ∨
      block.d_history = 1 ∧
        block.d_ctr + (noutput_items - 1) * block.d_decimation < block.d_interpolation) ∧
    block.d_ctr + noutput_items * block.d_decimation <
      (max 1 (q + block.d_history - 1) + 1) * block.d_interpolation

/-! ## The invariant -/

theorem installed_installTaps {block : GrRationalResampler R}
    (positive : 0 < block.d_interpolation) (ctr : block.d_ctr < block.d_interpolation)
    (taps : List R) : Installed (block.installTaps taps) := by
  refine ⟨positive, ?_, ?_, ctr⟩
  · simp [installTaps, dealTaps_eq positive]
  · intro fir member
    simp only [installTaps, dealTaps_eq positive, List.map_map, List.mem_map] at member
    obtain ⟨n, -, rfl⟩ := member
    simp [installTaps, dealt]

theorem installed_make {I D : ℕ} {taps : List R} {block : GrRationalResampler R}
    (made : make I D taps = .ok block) : Installed block := by
  unfold make at made
  split at made
  · cases made
  split at made
  · cases made
  · obtain rfl := Except.ok.inj made
    have positive : 0 < I := by omega
    exact installed_installTaps positive positive _

variable {block : GrRationalResampler R}

omit [Semiring R] in
theorem evaluate_succ (block : GrRationalResampler R) (n : ℕ) :
    block.evaluate (n + 1) = ((block.evaluate n).1 ++ [(block.evaluate n).2],
      carry block.d_interpolation (((block.evaluate n).2.1 + block.d_decimation) % 2 ^ 32)
        (block.evaluate n).2.2) := by
  rw [evaluate, List.range_succ, List.foldl_append, List.foldl_cons, List.foldl_nil]
  rfl

theorem rounds_evaluate (N_UNROLL : ℕ) (input : ℕ → M) (n : ℕ) :
    (List.range n).foldl (fun s _ => block.round N_UNROLL input s) ([], block.d_ctr, 0) =
      ((block.evaluate n).1.map fun p => (block.fir p.1).filter N_UNROLL (offset input p.2),
        (block.evaluate n).2) := by
  induction n with
  | zero => rfl
  | succ n ih =>
    rw [List.range_succ, List.foldl_append, ih, List.foldl_cons, List.foldl_nil, evaluate_succ,
      List.map_append]
    rfl

theorem generalWork_eq (N_UNROLL : ℕ) (input : ℕ → M) (n : ℕ) :
    (block.generalWork N_UNROLL input n).1 =
        (block.evaluations n).map (fun p => (block.fir p.1).filter N_UNROLL (offset input p.2)) ∧
      (block.generalWork N_UNROLL input n).2.1 =
        if block.d_updated then 0 else (block.evaluate n).2.2 := by
  rw [generalWork, evaluations]
  by_cases updated : block.d_updated
  · simp [updated]
  · rw [if_neg updated, if_neg updated, if_neg updated, rounds_evaluate]
    exact ⟨rfl, rfl⟩

/-- After some rounds: how far the counter and the input have come, and where the evaluations
begin. They come as far as the decimation says unless the counter has wrapped. -/
structure Moves (block : GrRationalResampler R) (n : ℕ) (s : List (ℕ × ℕ) × ℕ × ℕ) : Prop where
  ctr : s.2.1 < block.d_interpolation
  least : s.2.2 * block.d_interpolation + s.2.1 ≤ block.d_ctr + n * block.d_decimation
  begins : ∀ p ∈ s.1, p.1 < block.d_interpolation ∧
    ∃ k < n, p.2 * block.d_interpolation + p.1 ≤ block.d_ctr + k * block.d_decimation
  exact : block.d_interpolation + block.d_decimation ≤ 2 ^ 32 →
    s.2.2 * block.d_interpolation + s.2.1 = block.d_ctr + n * block.d_decimation ∧
    ∀ k < n, ∃ p ∈ s.1, p.2 * block.d_interpolation + p.1 = block.d_ctr + k * block.d_decimation

omit [Semiring R] in
theorem Installed.moves (installed : Installed block) (n : ℕ) :
    Moves block n (block.evaluate n) := by
  induction n with
  | zero =>
    refine ⟨installed.ctr, by simp [evaluate], by simp [evaluate], fun _ => ?_⟩
    simp [evaluate]
  | succ n ih =>
    rw [evaluate_succ, carry_eq installed.positive]
    generalize block.evaluate n = s at ih
    obtain ⟨seen, ctr, moved⟩ := s
    dsimp only
    generalize sum : (ctr + block.d_decimation) % 2 ^ 32 = next
    have parts := Nat.div_add_mod next block.d_interpolation
    have place : (moved + next / block.d_interpolation) * block.d_interpolation +
        next % block.d_interpolation = moved * block.d_interpolation + next := by
      rw [Nat.add_mul, Nat.mul_comm (next / _), Nat.add_assoc, parts]
    have most : next ≤ ctr + block.d_decimation := sum ▸ Nat.mod_le _ _
    have least := ih.least
    have step : block.d_ctr + (n + 1) * block.d_decimation =
        block.d_ctr + n * block.d_decimation + block.d_decimation := by
      rw [Nat.succ_mul, Nat.add_assoc]
    refine ⟨Nat.mod_lt _ installed.positive, ?_, ?_, ?_⟩
    · dsimp only at least ⊢
      omega
    · intro p member
      rcases List.mem_append.mp member with before | now
      · obtain ⟨inside, k, less, begins⟩ := ih.begins p before
        exact ⟨inside, k, Nat.lt_succ_of_lt less, begins⟩
      · obtain rfl := List.mem_singleton.mp now
        exact ⟨ih.ctr, n, Nat.lt_succ_self n, ih.least⟩
    · intro fits
      obtain ⟨here, each⟩ := ih.exact fits
      have below := ih.ctr
      have whole : next = ctr + block.d_decimation := by
        dsimp only at below
        rw [← sum, Nat.mod_eq_of_lt (by omega)]
      refine ⟨?_, fun k less => ?_⟩
      · dsimp only at here ⊢
        omega
      · rcases Nat.lt_succ_iff_lt_or_eq.mp less with before | rfl
        · obtain ⟨p, member, begins⟩ := each k before
          exact ⟨p, List.mem_append_left _ member, begins⟩
        · exact ⟨_, List.mem_append_right _ (List.mem_singleton_self _), here⟩

theorem Installed.setTaps (installed : Installed block) (taps : List R) :
    Installed (block.setTaps taps) :=
  ⟨installed.positive, installed.count, installed.ntaps, installed.ctr⟩

theorem Installed.generalWork (installed : Installed block) (N_UNROLL : ℕ) (input : ℕ → M)
    (n : ℕ) : Installed (block.generalWork N_UNROLL input n).2.2 := by
  unfold GrRationalResampler.generalWork
  by_cases updated : block.d_updated
  · rw [if_pos updated]
    exact installed_installTaps installed.positive installed.ctr _
  · rw [if_neg updated, rounds_evaluate]
    exact ⟨installed.positive, installed.count, installed.ntaps, (installed.moves n).ctr⟩

omit [Semiring R] in
theorem Installed.ntaps_fir (installed : Installed block) {ctr : ℕ}
    (inside : ctr < block.d_interpolation) : (block.fir ctr).ntaps = block.d_history := by
  rw [← installed.count] at inside
  rw [fir, List.getD_eq_getElem _ _ inside]
  exact installed.ntaps _ (List.getElem_mem inside)

/-! ## What is asked for -/

omit [Semiring R] in
theorem forecast_ok {n : ℕ} {required : Int} (asked : block.forecast n = .ok required) :
    block.ratio n ≤ intMax ∧
      required = (max 1 (((block.ratio n : Int) + block.d_history - 1) % 2 ^ 32)).bmod (2 ^ 32) := by
  unfold forecast at asked
  obtain ⟨items, -, rest⟩ := bind_ok.mp asked
  obtain ⟨whole, held, last⟩ := bind_ok.mp rest
  obtain ⟨rfl, -, small⟩ := asInt_ok held
  refine ⟨?_, (pure_ok.mp last).symm⟩
  unfold intMax
  omega

theorem demand_eq (q h : ℕ) (small : q ≤ intMax) :
    (h = 0 → ((max 1 (((q : Int) + h - 1) % 2 ^ 32)).bmod (2 ^ 32)).toNat + 1 =
      if q = 0 then 1 else max 2 q) ∧
    (0 < h → q + h ≤ 2 ^ 31 →
      ((max 1 (((q : Int) + h - 1) % 2 ^ 32)).bmod (2 ^ 32)).toNat = max 1 (q + h - 1)) ∧
    (2 ^ 31 < q + h → ((max 1 (((q : Int) + h - 1) % 2 ^ 32)).bmod (2 ^ 32)).toNat < h) := by
  unfold intMax at small
  rw [Int.bmod_def]
  refine ⟨fun _ => ?_, fun _ _ => ?_, fun _ => ?_⟩
  · split <;> split <;> omega
  · split <;> omega
  · split <;> omega

/-! ## Products of 53 bits -/

omit [Semiring R] in
theorem ratio_eq (positive : 0 < block.d_interpolation) {n : ℕ}
    (exact : (n + 1) * block.d_decimation < 2 ^ 53) :
    block.ratio n = (n + 1) * block.d_decimation / block.d_interpolation := by
  have product : Double.mul ((n + 1 : ℕ) : ℚ) block.d_decimation =
      ((n + 1) * block.d_decimation : ℕ) := by
    rw [Double.mul, ← Nat.cast_mul, Double.round_natCast exact]
  rw [ratio, product, Double.floor_div_natCast positive exact, Int.toNat_natCast]

omit [Semiring R] in
theorem forecast_eq (positive : 0 < block.d_interpolation) {n : ℕ} (count : n + 1 ≤ intMax)
    (exact : (n + 1) * block.d_decimation < 2 ^ 53)
    (held : (n + 1) * block.d_decimation / block.d_interpolation + block.d_history ≤ 2 ^ 31)
    (some : 0 < block.d_history) : block.forecast n = .ok
      (max 1 ((n + 1) * block.d_decimation / block.d_interpolation + block.d_history - 1) : ℕ) := by
  unfold intMax at count
  rw [forecast, ratio_eq positive exact]
  generalize (n + 1) * block.d_decimation / block.d_interpolation = q at held
  have items : asInt (n + 1) = .ok (n + 1 : Int) := if_pos (by omega)
  have whole : asInt (q : Int) = .ok (q : Int) := if_pos (by omega)
  obtain ⟨-, demand, -⟩ := demand_eq q block.d_history (by unfold intMax; omega)
  have nonneg : 0 ≤ (max 1 (((q : Int) + block.d_history - 1) % 2 ^ 32)).bmod (2 ^ 32) := by
    rw [Int.bmod_def]
    split <;> omega
  rw [items, ok_bind, whole, ok_bind, ← demand some held, Int.toNat_of_nonneg nonneg]
  rfl

/-! ## The evaluations and the demand -/

theorem staysBelow_updated (updated : block.d_updated = true) (n given : ℕ) :
    block.StaysBelow n given := by
  refine ⟨?_, fun N_UNROLL input => ?_⟩
  · simp [evaluations, updated]
  · rw [(generalWork_eq N_UNROLL input n).2, if_pos updated]
    exact Nat.zero_le _

theorem Installed.staysBelow_iff (installed : Installed block) (kept : ¬block.d_updated = true)
    (n given : ℕ) : block.StaysBelow n given ↔
      (0 < block.d_history → ∀ p ∈ (block.evaluate n).1, p.2 + block.d_history ≤ given) ∧
      (block.evaluate n).2.2 ≤ given := by
  have made : block.evaluations n = (block.evaluate n).1 := by rw [evaluations, if_neg kept]
  have taps : ∀ p ∈ (block.evaluate n).1, (block.fir p.1).ntaps = block.d_history :=
    fun p member => installed.ntaps_fir ((installed.moves n).begins p member).1
  constructor
  · intro below
    have consumed := below.consumes 2 fun _ => 0
    rw [(generalWork_eq 2 _ n).2, if_neg kept] at consumed
    refine ⟨fun some p member => ?_, consumed⟩
    have last := below.reads p (made ▸ member) (block.d_history - 1)
      (by rw [taps p member]; omega)
    omega
  · rintro ⟨reads, consumed⟩
    refine ⟨fun p member i inside => ?_, fun N_UNROLL input => ?_⟩
    · rw [made] at member
      rw [taps p member] at inside
      have last := reads (by omega) p member
      omega
    · rw [(generalWork_eq N_UNROLL input n).2, if_neg kept]
      exact consumed

/-- **The forecast is sufficient where its ratio leaves room for the outputs**, and nowhere else as
long as the phase counter does not wrap. -/
theorem forecast_suffices_iff (installed : Installed block) {n : ℕ} (positive : 1 ≤ n)
    {required : Int} (asked : block.forecast n = .ok required) :
    (block.Enough n (block.ratio n) → block.StaysBelow n required.toNat) ∧
    (block.d_interpolation + block.d_decimation ≤ 2 ^ 32 →
      block.StaysBelow n required.toNat → block.Enough n (block.ratio n)) := by
  obtain ⟨small, rfl⟩ := forecast_ok asked
  obtain ⟨empty, demand, wrapped⟩ := demand_eq (block.ratio n) block.d_history small
  have moves := installed.moves n
  have factor := installed.positive
  generalize ((max 1 (((block.ratio n : Int) + block.d_history - 1) % 2 ^ 32)).bmod
    (2 ^ 32)).toNat = given at *
  generalize block.ratio n = q at *
  by_cases updated : block.d_updated = true
  · exact ⟨fun _ => staysBelow_updated updated n given, fun _ _ => Or.inl updated⟩
  · rw [installed.staysBelow_iff updated, Enough, or_iff_right updated]
    by_cases none : block.d_history = 0
    · rw [if_pos none, ← empty none]
      constructor
      · intro room
        refine ⟨fun some => absurd none some.ne', Nat.lt_succ_iff.mp ?_⟩
        exact Nat.lt_of_mul_lt_mul_right
          ((Nat.le_add_right _ _).trans_lt (moves.least.trans_lt room))
      · rintro fits ⟨-, consumed⟩
        rw [← (moves.exact fits).1, Nat.succ_mul]
        exact Nat.add_lt_add_of_le_of_lt (Nat.mul_le_mul_right _ consumed) moves.ctr
    · rw [if_neg none]
      have some : 0 < block.d_history := Nat.pos_of_ne_zero none
      constructor
      · rintro ⟨held, begins, ends⟩
        rw [← demand some held] at ends
        refine ⟨fun _ p member => ?_, Nat.lt_succ_iff.mp ?_⟩
        · obtain ⟨-, k, less, least⟩ := moves.begins p member
          have steps : k * block.d_decimation ≤ (n - 1) * block.d_decimation :=
            Nat.mul_le_mul_right _ (by omega)
          have given_eq := demand some held
          rcases begins with inside | ⟨one, inside⟩
          · have start : p.2 < q := Nat.lt_of_mul_lt_mul_right
              (show p.2 * block.d_interpolation < q * block.d_interpolation by omega)
            omega
          · have start : p.2 < 1 := Nat.lt_of_mul_lt_mul_right
              (show p.2 * block.d_interpolation < 1 * block.d_interpolation by omega)
            omega
        · exact Nat.lt_of_mul_lt_mul_right
            ((Nat.le_add_right _ _).trans_lt (moves.least.trans_lt ends))
      · rintro fits ⟨reads, consumed⟩
        obtain ⟨last, each⟩ := moves.exact fits
        obtain ⟨p, member, begins⟩ := each (n - 1) (by omega)
        have read := reads some p member
        have held : q + block.d_history ≤ 2 ^ 31 := by
          by_contra beyond
          have short := wrapped (by omega)
          omega
        have given_eq := demand some held
        have inside := (moves.begins p member).1
        refine ⟨held, ?_, ?_⟩
        · rw [← begins]
          by_cases start : p.2 < q
          · left
            have whole := Nat.mul_le_mul_right block.d_interpolation start
            rw [Nat.succ_mul] at whole
            omega
          · right
            have zero : p.2 = 0 := by omega
            rw [zero, Nat.zero_mul]
            exact ⟨by omega, by omega⟩
        · rw [← last, ← given_eq, Nat.succ_mul]
          exact Nat.add_lt_add_of_le_of_lt (Nat.mul_le_mul_right _ consumed) moves.ctr

/-- Two thirds with two taps in each filter. -/
theorem forecast_suffices_decimating : ∃ block : GrRationalResampler Int,
    make 2 3 [1, 2, 3, 4] = .ok block ∧ block.forecast 4 = .ok 8 ∧ block.StaysBelow 4 8 := by
  have asked : (built 2 3 [1, 2, 3, 4] 0 : GrRationalResampler Int).forecast 4 = .ok 8 :=
    forecast_eq (by decide) (by decide) (by decide) (by decide) (by decide)
  have made : make 2 3 [1, 2, 3, 4] = .ok (built 2 3 [1, 2, 3, 4] 0 : GrRationalResampler Int) :=
    make_eq (by decide) (by decide) _
  refine ⟨_, made, asked, (forecast_suffices_iff (installed_make made) (by decide) asked).1 ?_⟩
  have ratio : (built 2 3 [1, 2, 3, 4] 0 : GrRationalResampler Int).ratio 4 = 7 :=
    ratio_eq (by decide) (by decide)
  rw [ratio]
  exact Or.inr (by decide)

/-- Three outputs for each input: the first output takes two items, and one is asked for. -/
theorem forecast_one_short : ∃ block : GrRationalResampler Int,
    make 3 1 [1, 2, 3, 4, 5, 6] = .ok block ∧ block.forecast 1 = .ok 1 ∧
      ¬block.StaysBelow 1 1 := by
  have asked : (built 3 1 [1, 2, 3, 4, 5, 6] 0 : GrRationalResampler Int).forecast 1 = .ok 1 :=
    forecast_eq (by decide) (by decide) (by decide) (by decide) (by decide)
  refine ⟨built 3 1 [1, 2, 3, 4, 5, 6] 0, make_eq (by decide) (by decide) _, asked, ?_⟩
  intro below
  exact absurd (below.reads (0, 0) (by decide) 1 (by decide)) (by decide)

end GrRationalResampler

end GnuRadio
