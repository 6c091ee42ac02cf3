import GnuRadio.Misc.Except

/-!
# A loop around a switch

State machines over a stream are written as a loop around a switch on the mode,
with an inner loop in every case that reads items until the mode is another one.
The whole loop reads one item after the other.
-/

namespace GnuRadio

variable {ε α σ μ : Type}

/-- An inner loop: a step says whether the loop is left behind it. -/
def readUntil (step : σ → α → Except ε (σ × Bool)) (s : σ) : List α → Except ε (σ × List α)
  | [] => .ok (s, [])
  | a :: rest => do
    let (s, left) ← step s a
    if left then return (s, rest) else readUntil step s rest

theorem readUntil_length {step : σ → α → Except ε (σ × Bool)} {s : σ} {l : List α}
    {next : σ × List α} (looped : readUntil step s l = .ok next) : next.2.length ≤ l.length - 1 := by
  induction l generalizing s with
  | nil =>
    cases looped
    exact Nat.le_refl _
  | cons a rest ih =>
    rw [readUntil] at looped
    obtain ⟨⟨t, left⟩, -, looped⟩ := bind_ok.mp looped
    cases left with
    | true =>
      cases looped
      simp
    | false =>
      have shorter := ih looped
      simp only [List.length_cons]
      omega

/-- The loop around the switch: the case of the mode reads, until there are no items. -/
def switchLoop (mode : σ → μ) (step : μ → σ → α → Except ε (σ × Bool)) (s : σ)
    (input : List α) : Except ε σ :=
  match input with
  | [] => .ok s
  | a :: rest =>
    match _ended : readUntil (step (mode s)) s (a :: rest) with
    | .error e => .error e
    | .ok next => switchLoop mode step next.1 next.2
termination_by input.length
decreasing_by exact Nat.lt_succ_of_le (readUntil_length _ended)

/-- One item in the case of the mode. -/
def switchItem (mode : σ → μ) (step : μ → σ → α → Except ε (σ × Bool)) (s : σ) (a : α) :
    Except ε σ := do
  let (s, _) ← step (mode s) s a
  return s

section

variable {mode : σ → μ} {step : μ → σ → α → Except ε (σ × Bool)}
  (stays : ∀ s a t, step (mode s) s a = .ok (t, false) → mode t = mode s)

include stays

theorem readUntil_items (s : σ) (l : List α) :
    (do let next ← readUntil (step (mode s)) s l
        next.2.foldlM (switchItem mode step) next.1) = l.foldlM (switchItem mode step) s := by
  induction l generalizing s with
  | nil => rfl
  | cons a rest ih =>
    rw [readUntil, List.foldlM_cons, switchItem]
    cases first : step (mode s) s a with
    | error e => rfl
    | ok result =>
      obtain ⟨t, left⟩ := result
      cases left with
      | true => rfl
      | false =>
        have same := ih t
        rw [stays s a t first] at same
        exact same

theorem switchLoop_eq (s : σ) (input : List α) :
    switchLoop mode step s input = input.foldlM (switchItem mode step) s := by
  induction s, input using switchLoop.induct mode step with
  | case1 s =>
    rw [switchLoop]
    rfl
  | case2 s a rest e failed =>
    rw [switchLoop, ← readUntil_items stays, failed]
    split
    · rename_i other
      cases other
      rfl
    · rename_i other
      cases other
  | case3 s a rest next ended ih =>
    rw [switchLoop, ← readUntil_items stays, ended, ok_bind, ← ih]

end

end GnuRadio
