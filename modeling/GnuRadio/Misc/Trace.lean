import Mathlib.Data.List.Induction

/-!
# Runs of a deterministic labelled transition system

A system is a function `step : σ → ε → Option σ`: `step s e = none` when the
action `e` is not enabled in `s`. Nondeterminism, the order in which parties
act and the results of outside calls are all carried by the actions, so a run
is given by its list of actions and can be evaluated. The rules below turn a
step lemma into a statement about whole runs.
-/

namespace GnuRadio

variable {σ ε τ : Type}

/-- The state after a list of actions, or `none` when one of them is not enabled. -/
def run (step : σ → ε → Option σ) (s : σ) : List ε → Option σ
  | [] => some s
  | e :: es => (step s e).bind fun t => run step t es

/-- `C` holds of the state before each step of the run, paired with its action. -/
def Throughout (C : σ → ε → Prop) (step : σ → ε → Option σ) (s : σ) : List ε → Prop
  | [] => True
  | e :: es => C s e ∧ ∀ t, step s e = some t → Throughout C step t es

instance Throughout.decidable {C : σ → ε → Prop} {step : σ → ε → Option σ}
    [∀ s e, Decidable (C s e)] : ∀ s es, Decidable (Throughout C step s es)
  | _, [] => isTrue trivial
  | s, e :: es =>
      match next : step s e with
      | none => decidable_of_iff (C s e) (by simp [Throughout, next])
      | some t =>
          have : Decidable (Throughout C step t es) := Throughout.decidable t es
          decidable_of_iff (C s e ∧ Throughout C step t es) (by simp [Throughout, next])

@[simp] theorem run_nil (step : σ → ε → Option σ) (s : σ) : run step s [] = some s := rfl

variable {step : σ → ε → Option σ} {s t : σ} {es fs : List ε} {C D : σ → ε → Prop} {β : Type}
  {f : σ → ε → List β}

theorem run_cons {u : σ} {e : ε} :
    run step s (e :: es) = some u ↔ ∃ t, step s e = some t ∧ run step t es = some u := by
  simp [run, Option.bind_eq_some_iff]

theorem run_append {u : σ} :
    run step s (es ++ fs) = some u ↔ ∃ t, run step s es = some t ∧ run step t fs = some u := by
  induction es generalizing s with
  | nil => simp
  | cons e es ih =>
    simp only [List.cons_append, run_cons, ih]
    constructor
    · rintro ⟨t, first, v, middle, last⟩
      exact ⟨v, ⟨t, first, middle⟩, last⟩
    · rintro ⟨v, ⟨t, first, middle⟩, last⟩
      exact ⟨t, first, v, middle, last⟩

/-- What every step preserves under a condition, a run that meets it preserves. -/
theorem run_invariant_of (I : σ → Prop) (preserved : ∀ s e t, I s → C s e → step s e = some t → I t)
    (initial : I s) (met : Throughout C step s es) (reached : run step s es = some t) : I t := by
  induction es generalizing s with
  | nil => cases reached; exact initial
  | cons e es ih =>
    obtain ⟨u, first, rest⟩ := Iff.mp run_cons reached
    exact ih (preserved s e u initial met.1 first) (met.2 u first) rest

/-- Simulation: when each step is matched under a translation of the actions, so is each run. -/
theorem run_simulates {ρ δ : Type} {abstractStep : ρ → δ → Option ρ}
    (R : σ → ρ → Prop) (translate : ε → δ)
    (simulated : ∀ s e t a, R s a → step s e = some t →
      ∃ b, abstractStep a (translate e) = some b ∧ R t b) {a : ρ} (related : R s a)
    (reached : run step s es = some t) :
    ∃ b, run abstractStep a (es.map translate) = some b ∧ R t b := by
  induction es generalizing s a with
  | nil => cases reached; exact ⟨a, rfl, related⟩
  | cons e es ih =>
    obtain ⟨u, first, rest⟩ := Iff.mp run_cons reached
    obtain ⟨c, stepped, relatedMid⟩ := simulated s e u a related first
    obtain ⟨b, steps, relatedEnd⟩ := ih relatedMid rest
    exact ⟨b, Iff.mpr run_cons ⟨c, stepped, steps⟩, relatedEnd⟩

theorem Throughout.mono (weaker : ∀ s e, C s e → D s e) (met : Throughout C step s es) :
    Throughout D step s es := by
  induction es generalizing s with
  | nil => trivial
  | cons e es ih => exact ⟨weaker s e met.1, fun t next => ih (met.2 t next)⟩

theorem Throughout.append (met : Throughout C step s (es ++ fs))
    (reached : run step s es = some t) :
    Throughout C step t fs := by
  induction es generalizing s with
  | nil => cases reached; exact met
  | cons e es ih =>
    obtain ⟨u, first, rest⟩ := Iff.mp run_cons reached
    exact ih (met.2 u first) rest

theorem Throughout.left (met : Throughout C step s (es ++ fs)) : Throughout C step s es := by
  induction es generalizing s with
  | nil => trivial
  | cons e es ih => exact ⟨met.1, fun t next => ih (met.2 t next)⟩

theorem Throughout.extend (met : Throughout C step s es) (reached : run step s es = some t)
    (after : Throughout C step t fs) : Throughout C step s (es ++ fs) := by
  induction es generalizing s with
  | nil => cases reached; exact after
  | cons e es ih =>
    obtain ⟨u, first, rest⟩ := Iff.mp run_cons reached
    refine ⟨met.1, fun v next => ?_⟩
    obtain rfl := Option.some.inj (first.symm.trans next)
    exact ih (met.2 u first) rest

theorem Throughout.and (met : Throughout C step s es) (also : Throughout D step s es) :
    Throughout (fun s e => C s e ∧ D s e) step s es := by
  induction es generalizing s with
  | nil => trivial
  | cons e es ih => exact ⟨⟨met.1, also.1⟩, fun t next => ih (met.2 t next) (also.2 t next)⟩

theorem Throughout.of_mem (each : ∀ e ∈ es, ∀ s, C s e) (s : σ) : Throughout C step s es := by
  induction es generalizing s with
  | nil => trivial
  | cons e es ih =>
    refine ⟨each e List.mem_cons_self s, fun t _ => ?_⟩
    exact ih (fun e' member => each e' (List.mem_cons_of_mem e member)) t

theorem Throughout.of_forall (always : ∀ s e, C s e) (s : σ) (es : List ε) :
    Throughout C step s es := .of_mem (fun e _ s => always s e) s

theorem run_invariant (I : σ → Prop) (preserved : ∀ s e t, I s → step s e = some t → I t)
    (initial : I s) (reached : run step s es = some t) : I t :=
  run_invariant_of I (fun s e t before (_ : True) => preserved s e t before) initial
    (.of_forall (fun _ _ => trivial) s es) reached

/-! ## Runs with their history -/

/-- A run keeps what holds of the empty history and is kept when it grows by a step. -/
theorem run_history (I : List ε → σ → Prop)
    (initial : I [] s)
    (extended : ∀ es t e u, run step s es = some t → I es t → C t e → step t e = some u →
      I (es ++ [e]) u) (met : Throughout C step s es) (reached : run step s es = some t) :
    I es t := by
  induction es using List.reverseRecOn generalizing t with
  | nil => cases reached; exact initial
  | append_singleton es e ih =>
    obtain ⟨u, before, last⟩ := Iff.mp run_append reached
    obtain ⟨v, stepped, same⟩ := Iff.mp run_cons last
    obtain rfl := Option.some.inj same
    exact extended es u e v before (ih met.left before) (met.append before).1 stepped

/-- Where each step that meets the condition is enabled, so is a run. -/
theorem run_defined (I : List ε → σ → Prop)
    (initial : I [] s)
    (extended : ∀ es t e, run step s es = some t → I es t → C t e →
      ∃ u, step t e = some u ∧ I (es ++ [e]) u) (met : Throughout C step s es) :
    ∃ t, run step s es = some t ∧ I es t := by
  induction es using List.reverseRecOn with
  | nil => exact ⟨s, rfl, initial⟩
  | append_singleton es e ih =>
    obtain ⟨t, before, known⟩ := ih met.left
    obtain ⟨u, stepped, known'⟩ := extended es t e before known (met.append before).1
    exact ⟨u, Iff.mpr run_append ⟨t, before, Iff.mpr run_cons ⟨u, stepped, rfl⟩⟩, known'⟩

theorem run_total (I : σ → Prop) (initial : I s) (total : ∀ t e, I t → ∃ u, step t e = some u ∧ I u)
    (es : List ε) : ∃ t, run step s es = some t ∧ I t :=
  run_defined (C := fun _ _ => True) (fun _ t => I t) initial
    (fun _ t e _ known _ => total t e known) (Throughout.of_forall (fun _ _ => trivial) s es)

/-- What is observed at the steps of a run, one after another. -/
def observed {β : Type} (f : σ → ε → List β) (step : σ → ε → Option σ) (s : σ) : List ε → List β
  | [] => []
  | e :: es => f s e ++ match step s e with
      | none => []
      | some t => observed f step t es

theorem observed_append (reached : run step s es = some t) :
    observed f step s (es ++ fs) = observed f step s es ++ observed f step t fs := by
  induction es generalizing s with
  | nil => cases reached; rfl
  | cons e es ih =>
    obtain ⟨u, first, rest⟩ := Iff.mp run_cons reached
    simp only [List.cons_append, observed, first, ih rest, List.append_assoc]

theorem exists_of_mem_observed {b : β} (member : b ∈ observed f step s es) :
    ∃ t, ∃ e ∈ es, b ∈ f t e := by
  induction es generalizing s with
  | nil => cases member
  | cons e es ih =>
    rw [observed, List.mem_append] at member
    obtain now | later := member
    · exact ⟨s, e, List.mem_cons_self, now⟩
    · cases next : step s e with
      | none =>
        rw [next] at later
        cases later
      | some t =>
        rw [next] at later
        obtain ⟨u, d, inside, seen⟩ := ih later
        exact ⟨u, d, List.mem_cons_of_mem e inside, seen⟩

theorem observed_singleton {e : ε} : observed f step s [e] = f s e := by
  unfold observed
  cases step s e with
  | none => exact List.append_nil _
  | some t => exact List.append_nil _

end GnuRadio
