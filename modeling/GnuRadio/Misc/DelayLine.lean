import GnuRadio.Misc.Except
import Mathlib.Data.List.Basic
import Mathlib.Tactic.Ring

/-!
# Machines on streams, and delay lines

`feed` runs a machine that turns each symbol it reads into one it writes. A delay
line holds a queue of symbols, oldest first: `shift` puts a symbol in at the end
and takes one out at the front. Two delay lines in a row are one, and so are `n`
delay lines of one length that take turns.
-/

namespace GnuRadio

variable {σ τ α β γ : Type}

/-- What a machine writes on reading a list, and the state it is left in. -/
def feed (step : σ → α → β × σ) (s : σ) : List α → List β × σ
  | [] => ([], s)
  | x :: xs =>
      let first := step s x
      let rest := feed step first.2 xs
      (first.1 :: rest.1, rest.2)

section Feed

variable (step : σ → α → β × σ) (next : τ → β → γ × τ)

@[simp] theorem feed_nil (s : σ) : feed step s [] = ([], s) := rfl

@[simp] theorem feed_cons (s : σ) (x : α) (xs : List α) :
    feed step s (x :: xs) =
      ((step s x).1 :: (feed step (step s x).2 xs).1, (feed step (step s x).2 xs).2) := rfl

@[simp] theorem length_feed (s : σ) (xs : List α) : (feed step s xs).1.length = xs.length := by
  induction xs generalizing s with
  | nil => rfl
  | cons x xs ih => simp [ih]

theorem feed_append (s : σ) (xs ys : List α) :
    feed step s (xs ++ ys) =
      ((feed step s xs).1 ++ (feed step (feed step s xs).2 ys).1,
        (feed step (feed step s xs).2 ys).2) := by
  induction xs generalizing s with
  | nil => rfl
  | cons x xs ih => simp [ih]

theorem feed_map (f : γ → α) (s : σ) (xs : List γ) :
    feed step s (xs.map f) = feed (fun s x => step s (f x)) s xs := by
  induction xs generalizing s with
  | nil => rfl
  | cons x xs ih => simp [ih]

theorem feed_feed (s : σ) (calls : List (List α)) :
    (feed (feed step) s calls).1.flatten = (feed step s calls.flatten).1 ∧
      (feed (feed step) s calls).2 = (feed step s calls.flatten).2 := by
  induction calls generalizing s with
  | nil => exact ⟨rfl, rfl⟩
  | cons call calls ih =>
    obtain ⟨outputs, last⟩ := ih (feed step s call).2
    rw [List.flatten_cons, feed_append]
    simp [outputs, last]

/-- One machine after another. -/
def cascade (s : σ × τ) (x : α) : γ × (σ × τ) :=
  let first := step s.1 x
  let second := next s.2 first.1
  (second.1, first.2, second.2)

theorem feed_cascade (s : σ) (t : τ) (xs : List α) :
    feed (cascade step next) (s, t) xs =
      ((feed next t (feed step s xs).1).1, (feed step s xs).2,
        (feed next t (feed step s xs).1).2) := by
  induction xs generalizing s t with
  | nil => rfl
  | cons x xs ih => simp [cascade, ih]

theorem feed_simulates {step : σ → α → β × σ} {next : τ → α → β × τ} (R : σ → τ → Prop)
    (simulated : ∀ s t x, R s t → (step s x).1 = (next t x).1 ∧ R (step s x).2 (next t x).2)
    {s : σ} {t : τ} (related : R s t) (xs : List α) :
    (feed step s xs).1 = (feed next t xs).1 ∧ R (feed step s xs).2 (feed next t xs).2 := by
  induction xs generalizing s t with
  | nil => exact ⟨rfl, related⟩
  | cons x xs ih =>
    obtain ⟨same, after⟩ := simulated s t x related
    obtain ⟨outputs, last⟩ := ih after
    exact ⟨by simp [same, outputs], last⟩

end Feed

/-! ## Machines that may fail -/

section FeedM

variable {ε : Type}

/-- `feed` for a machine that may throw. -/
def feedM (step : σ → α → Except ε (β × σ)) (s : σ) : List α → Except ε (List β × σ)
  | [] => .ok ([], s)
  | x :: xs => do
      let (y, t) ← step s x
      let (ys, u) ← feedM step t xs
      return (y :: ys, u)

/-- `cascade` for machines that may throw. -/
def cascadeM (step : σ → α → Except ε (β × σ)) (next : τ → β → Except ε (γ × τ)) (s : σ × τ)
    (x : α) : Except ε (γ × (σ × τ)) := do
  let (y, s') ← step s.1 x
  let (z, t') ← next s.2 y
  return (z, s', t')

variable {step : σ → α → Except ε (β × σ)} {xs : List α}

theorem feedM_cons_ok {s t u : σ} {x : α} {y : β} {ys : List β} (first : step s x = .ok (y, t))
    (rest : feedM step t xs = .ok (ys, u)) : feedM step s (x :: xs) = .ok (y :: ys, u) :=
  bind_ok.mpr ⟨(y, t), first, bind_ok.mpr ⟨(ys, u), rest, rfl⟩⟩

theorem feedM_cascade {next : τ → β → Except ε (γ × τ)} {s s' : σ} {t t' : τ} {zs : List γ}
    (ran : feedM (cascadeM step next) (s, t) xs = .ok (zs, s', t')) :
    ∃ ys, feedM step s xs = .ok (ys, s') ∧ feedM next t ys = .ok (zs, t') := by
  induction xs generalizing s t zs with
  | nil =>
    cases ran
    exact ⟨[], rfl, rfl⟩
  | cons x xs ih =>
    obtain ⟨⟨z, u, v⟩, both, ran⟩ := bind_ok.mp ran
    obtain ⟨⟨y, a⟩, first, both⟩ := bind_ok.mp both
    obtain ⟨⟨w, b⟩, second, both⟩ := bind_ok.mp both
    cases pure_ok.mp both
    obtain ⟨⟨ws, last⟩, ran, ends⟩ := bind_ok.mp ran
    cases pure_ok.mp ends
    obtain ⟨ys, front, back⟩ := ih ran
    exact ⟨y :: ys, feedM_cons_ok first front, feedM_cons_ok second back⟩

end FeedM

/-! ## Delay lines -/

/-- A delay line that holds `q`, oldest first, reads `x`. -/
def shift : List α → α → α × List α
  | [], x => (x, [])
  | a :: q, x => (a, q ++ [x])

@[simp] theorem length_shift (q : List α) (x : α) : (shift q x).2.length = q.length := by
  cases q <;> simp [shift]

theorem cons_shift (q : List α) (x : α) : (shift q x).1 :: (shift q x).2 = q ++ [x] := by
  cases q <;> rfl

theorem getElem?_shift (q : List α) (x : α) (i : Nat) :
    (shift q x).2[i]? = if i + 1 = q.length then some x else q[i + 1]? := by
  cases q with
  | nil => simp [shift]
  | cons a q =>
    simp only [shift, List.length_cons, Nat.add_right_cancel_iff, List.getElem?_cons_succ]
    split
    · rename_i last
      rw [last, List.getElem?_concat_length]
    · rename_i other
      rcases Nat.lt_or_gt_of_ne other with before | behind
      · exact List.getElem?_append_left before
      · rw [List.getElem?_eq_none (by simp; omega), List.getElem?_eq_none behind.le]

theorem feed_shift (q xs : List α) :
    feed shift q xs = ((q ++ xs).take xs.length, (q ++ xs).drop xs.length) := by
  induction xs generalizing q with
  | nil => simp
  | cons x xs ih =>
    have whole : q ++ x :: xs = (shift q x).1 :: ((shift q x).2 ++ xs) := by
      rw [← List.cons_append, cons_shift, List.append_assoc, List.singleton_append]
    rw [feed_cons, ih, whole]
    rfl

def delayed [Zero α] (n : Nat) (xs : List α) : List α := (List.replicate n 0 ++ xs).take xs.length

theorem shift_shift (q r : List α) (x : α) :
    (shift r (shift q x).1).1 = (shift (r ++ q) x).1 ∧
      (shift r (shift q x).1).2 ++ (shift q x).2 = (shift (r ++ q) x).2 := by
  have whole : (shift (r ++ q) x).1 :: (shift (r ++ q) x).2 =
      (shift r (shift q x).1).1 :: ((shift r (shift q x).1).2 ++ (shift q x).2) := by
    rw [cons_shift, ← List.cons_append, cons_shift, List.append_assoc, List.append_assoc,
      List.singleton_append, cons_shift]
  exact ⟨(List.cons.inj whole).1.symm, (List.cons.inj whole).2.symm⟩

theorem feed_shift_shift (q r xs : List α) :
    (feed shift r (feed shift q xs).1).1 = (r ++ q ++ xs).take xs.length ∧
      (feed shift r (feed shift q xs).1).2 ++ (feed shift q xs).2 =
        (r ++ q ++ xs).drop xs.length := by
  have stepped : ∀ (s : List α × List α) (t : List α) (x : α), s.2 ++ s.1 = t →
      (cascade shift shift s x).1 = (shift t x).1 ∧
        (cascade shift shift s x).2.2 ++ (cascade shift shift s x).2.1 = (shift t x).2 := by
    intro s t x whole
    rw [← whole]
    exact shift_shift s.1 s.2 x
  have run := feed_simulates (fun s t => s.2 ++ s.1 = t) stepped (s := (q, r)) rfl xs
  rwa [feed_cascade, feed_shift (r ++ q)] at run

/-! ## Delay lines that take turns -/

/-- `n` delay lines of length `k`, of which line `turn` is to read next, hold together what
`q` holds. -/
structure Spread (n k turn : Nat) (lines : Nat → List α) (q : List α) : Prop where
  turn_lt : turn < n
  length : q.length = n * k
  holds : ∀ m < n, ∀ j, (lines ((turn + m) % n))[j]? = q[m + j * n]?

variable {n k turn : Nat} {lines : Nat → List α} {q : List α}

theorem Spread.head (spread : Spread n k turn lines q) (j : Nat) :
    (lines turn)[j]? = q[j * n]? := by
  have here := spread.holds 0 (Nat.zero_lt_of_lt spread.turn_lt) j
  rwa [Nat.add_zero, Nat.mod_eq_of_lt spread.turn_lt, Nat.zero_add] at here

/-- The line after the one whose turn it is. -/
def turnAfter (n turn : Nat) : Nat := if turn + 1 ≥ n then 0 else turn + 1

theorem turnAfter_lt (inside : turn < n) : turnAfter n turn < n := by
  unfold turnAfter
  split <;> omega

theorem turnAfter_add_mod (inside : turn < n) (m : Nat) :
    (turnAfter n turn + m) % n = (turn + (m + 1)) % n := by
  unfold turnAfter
  split
  · have last : turn + (m + 1) = m + n := by omega
    rw [last, Nat.add_mod_right, Nat.zero_add]
  · congr 1
    omega

theorem Spread.length_line (spread : Spread n k turn lines q) : (lines turn).length = k := by
  have positive : 0 < n := Nat.zero_lt_of_lt spread.turn_lt
  have beyond : ∀ j, (lines turn).length ≤ j ↔ k ≤ j := by
    intro j
    rw [← List.getElem?_eq_none_iff, spread.head, List.getElem?_eq_none_iff, spread.length,
      Nat.mul_comm n k]
    exact Nat.mul_le_mul_right_iff positive
  exact Nat.le_antisymm ((beyond k).mpr le_rfl) ((beyond _).mp le_rfl)

theorem Spread.shift (spread : Spread n k turn lines q) (x : α) :
    (shift (lines turn) x).1 = (shift q x).1 ∧
      Spread n k (turnAfter n turn) (Function.update lines turn (shift (lines turn) x).2)
        (shift q x).2 := by
  have inside := spread.turn_lt
  have same : (lines turn ++ [x]).head? = (q ++ [x]).head? := by
    have front := spread.head 0
    rw [Nat.zero_mul, ← List.head?_eq_getElem?, ← List.head?_eq_getElem?] at front
    rw [List.head?_append, List.head?_append, front]
  refine ⟨?_, turnAfter_lt inside, (length_shift q x).trans spread.length, ?_⟩
  · rw [← cons_shift, ← cons_shift] at same
    exact Option.some.inj same
  · intro m below j
    rw [turnAfter_add_mod inside, getElem?_shift, spread.length]
    by_cases last : m + 1 = n
    · have back : (turn + (m + 1)) % n = turn := by
        rw [last, Nat.add_mod_right, Nat.mod_eq_of_lt inside]
      have next : m + j * n + 1 = (j + 1) * n := by
        rw [Nat.succ_mul]
        omega
      rw [back, Function.update_self, getElem?_shift, spread.length_line, spread.head, next,
        Nat.mul_comm n k]
      simp only [Nat.mul_left_inj (Nat.ne_of_gt (Nat.zero_lt_of_lt inside))]
    · have other : (turn + (m + 1)) % n ≠ turn := by
        intro again
        by_cases wraps : turn + (m + 1) < n
        · rw [Nat.mod_eq_of_lt wraps] at again
          omega
        · rw [Nat.mod_eq_sub_mod (by omega), Nat.mod_eq_of_lt (by omega)] at again
          omega
      have inner : m + j * n + 1 ≠ n * k := by
        intro ends
        have divides : n ∣ m + 1 := by
          have multiple : n ∣ m + 1 + j * n := ⟨k, by omega⟩
          exact (Nat.dvd_add_left (Nat.dvd_mul_left n j)).mp multiple
        have := Nat.le_of_dvd (Nat.succ_pos m) divides
        omega
      rw [Function.update_of_ne other, spread.holds (m + 1) (by omega), if_neg inner]
      congr 1
      omega

theorem spread_replicate [Zero α] (positive : 0 < n) (lines : Nat → List α)
    (zeros : ∀ m < n, lines m = List.replicate k 0) :
    Spread n k 0 lines (List.replicate (n * k) 0) := by
  refine ⟨positive, List.length_replicate, ?_⟩
  intro m below j
  rw [Nat.zero_add, Nat.mod_eq_of_lt below, zeros m below, List.getElem?_replicate,
    List.getElem?_replicate]
  have same : j < k ↔ m + j * n < n * k := by
    constructor
    · intro less
      calc m + j * n < n + j * n := by omega
        _ = n * (j + 1) := by ring
        _ ≤ n * k := Nat.mul_le_mul_left n less
    · intro less
      by_contra more
      have := Nat.mul_le_mul_left n (Nat.le_of_not_lt more)
      have := Nat.mul_comm j n
      omega
  simp only [same]

end GnuRadio
