import GnuRadio.Misc.Trace
import Mathlib.Order.WellFounded

/-!
# Infinite executions and weak fairness

In an execution an action is taken at each moment, or none. Every action that is
not one of the environment belongs to a party. Fairness is weak: a party that
from some time on always has an action enabled takes one. The rule
`eventually_of_rank` is the one for a party that works off something.
-/

namespace GnuRadio

variable {σ ε π : Type} {step : σ → ε → Option σ}

/-- An execution of a system; time passes also when nothing is done. -/
structure Execution (step : σ → ε → Option σ) where
  state : Nat → σ
  action : Nat → Option ε
  next : ∀ n, match action n with
    | none => state (n + 1) = state n
    | some e => step (state n) e = some (state (n + 1))

/-- A party has an action that is enabled. -/
def Enabled (step : σ → ε → Option σ) (owner : ε → Option π) (s : σ) (p : π) : Prop :=
  ∃ e, owner e = some p ∧ (step s e).isSome = true

namespace Execution

/-- A party that is enabled from some time on takes an action at that time or later. -/
def Fair (x : Execution step) (owner : ε → Option π) : Prop :=
  ∀ p n, (∀ m ≥ n, Enabled step owner (x.state m) p) →
    ∃ m ≥ n, ∃ e, x.action m = some e ∧ owner e = some p

variable {n : Nat} {owner : ε → Option π} {es : List ε}

theorem always (x : Execution step) (I : σ → Prop)
    (preserved : ∀ s e t, I s → step s e = some t → I t) (initial : I (x.state n)) :
    ∀ m ≥ n, I (x.state m) := by
  intro m later
  induction m, later using Nat.le_induction with
  | base => exact initial
  | succ m _ ih =>
    have next := x.next m
    cases action : x.action m with
    | none =>
      rw [action] at next
      dsimp only at next
      rw [next]
      exact ih
    | some e =>
      rw [action] at next
      exact preserved _ e _ ih next

theorem always_until (x : Execution step) (P Q : σ → Prop)
    (kept : ∀ s e t, P s → step s e = some t → Q t ∨ P t) (initial : P (x.state n))
    (never : ∀ m ≥ n, ¬ Q (x.state m)) : ∀ m ≥ n, P (x.state m) := by
  intro m later
  induction m, later using Nat.le_induction with
  | base => exact initial
  | succ m later ih =>
    have next := x.next m
    cases action : x.action m with
    | none =>
      rw [action] at next
      dsimp only at next
      rw [next]
      exact ih
    | some e =>
      rw [action] at next
      exact (kept _ e _ ih next).resolve_left (never (m + 1) (by omega))

/-- An enabled party that works off a rank that nobody else raises comes to `Q`. -/
theorem eventually_of_rank {ρ : Type} [Preorder ρ] [WellFoundedLT ρ] {x : Execution step}
    (fair : x.Fair owner) {p : π} (P Q : σ → Prop) (rank : σ → ρ)
    (enabled : ∀ s, P s → Enabled step owner s p)
    (own : ∀ s e t, P s → step s e = some t → owner e = some p → Q t ∨ P t ∧ rank t < rank s)
    (others : ∀ s e t, P s → step s e = some t → owner e ≠ some p → Q t ∨ P t ∧ rank t ≤ rank s)
    (initial : P (x.state n)) : ∃ m ≥ n, Q (x.state m) := by
  by_contra never
  push Not at never
  have kept : ∀ s e t, P s → step s e = some t → Q t ∨ P t := by
    intro s e t before stepped
    by_cases mine : owner e = some p
    · exact (own s e t before stepped mine).imp_right And.left
    · exact (others s e t before stepped mine).imp_right And.left
  have holds := x.always_until P Q kept initial never
  -- the rank is worked off again and again
  have bounded : ∀ r, ∀ m ≥ n, rank (x.state m) ≠ r := by
    intro r
    induction r using WellFoundedLT.induction with
    | _ r ih =>
      intro m later same
      obtain ⟨l, after, e, action, mine⟩ := fair p m fun k after => enabled _ (holds k (by omega))
      have down : ∀ k ≥ m, rank (x.state k) ≤ r := by
        intro k after
        induction k, after using Nat.le_induction with
        | base => exact same.le
        | succ k after below =>
          have next := x.next k
          cases action : x.action k with
          | none =>
            rw [action] at next
            dsimp only at next
            rw [next]
            exact below
          | some e =>
            rw [action] at next
            have before := holds k (by omega)
            have stays := never (k + 1) (by omega)
            by_cases mine : owner e = some p
            · exact (((own _ e _ before next mine).resolve_left stays).2.le).trans below
            · exact ((others _ e _ before next mine).resolve_left stays).2.trans below
      have next := x.next l
      rw [action] at next
      have less := ((own _ e _ (holds l (by omega)) next mine).resolve_left
        (never (l + 1) (by omega))).2
      exact ih (rank (x.state (l + 1))) (less.trans_le (down l after)) (l + 1) (by omega) rfl
  exact bounded _ n le_rfl rfl

/-! ## Finite runs as executions -/

/-- A run after which nothing more is done. -/
def ofRun {s t : σ} {es : List ε} (reached : run step s es = some t) : Execution step where
  state n := (run step s (es.take n)).getD s
  action n := es[n]?
  next n := by
    have whole : ∀ n, ∃ u, run step s (es.take n) = some u := by
      intro n
      rw [← List.take_append_drop n es, run_append] at reached
      obtain ⟨u, first, -⟩ := reached
      exact ⟨u, first⟩
    obtain ⟨u, first⟩ := whole n
    obtain ⟨v, second⟩ := whole (n + 1)
    rw [first, second, Option.getD_some, Option.getD_some]
    rw [List.take_add_one] at second
    cases action : es[n]? with
    | none =>
      rw [action, Option.toList_none, List.append_nil, first] at second
      exact (Option.some.inj second).symm
    | some e =>
      rw [action, Option.toList_some] at second
      obtain ⟨u', first', last⟩ := run_append.mp second
      obtain rfl := Option.some.inj (first.symm.trans first')
      obtain ⟨v', stepped, same⟩ := run_cons.mp last
      obtain rfl := Option.some.inj same
      exact stepped

theorem ofRun_end {s t : σ} (reached : run step s es = some t) (after : es.length ≤ n) :
    (ofRun reached).state n = t := by
  change (run step s (es.take n)).getD s = t
  rw [List.take_of_length_le after, reached, Option.getD_some]

theorem ofRun_fair {s t : σ} (reached : run step s es = some t)
    (stuck : ∀ p, ¬ Enabled step owner t p) : (ofRun reached).Fair owner := by
  intro p n enabled
  have last := enabled (max n es.length) (le_max_left _ _)
  rw [ofRun_end reached (le_max_right _ _)] at last
  exact absurd last (stuck p)

end Execution

end GnuRadio
