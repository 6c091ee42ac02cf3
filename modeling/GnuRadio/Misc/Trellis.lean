import Mathlib.Algebra.Order.Group.Defs
import Mathlib.Order.Bounds.Basic
import Mathlib.Tactic.Abel

/-!
# Trellises

A deterministic system drawn over time: each step has a cost that depends on the
time, the state and the input. A path is a first state and a list of inputs; the
least cost of the paths that reach a state, or leave it, is found one step at a
time.
-/

namespace GnuRadio

/-- A deterministic system with costs, and the states where paths begin and end. -/
structure Trellis (V U M : Type) where
  state : V → Prop
  input : U → Prop
  start : V → Prop
  accept : V → Prop
  next : V → U → V
  cost : Nat → V → U → M
  next_state : ∀ {s u}, state s → input u → state (next s u)
  start_state : ∀ {s}, start s → state s

namespace Trellis

variable {V U M : Type}

def walk (T : Trellis V U M) (s : V) (us : List U) : V := us.foldl T.next s

/-- The cost of some inputs, the first of them given at time `k`. -/
def weight [AddCommGroup M] (T : Trellis V U M) : Nat → V → List U → M
  | _, _, [] => 0
  | k, s, u :: us => T.cost k s u + T.weight (k + 1) (T.next s u) us

/-- A path with these inputs begins in `s`. -/
def Path (T : Trellis V U M) (K : Nat) (s : V) (us : List U) : Prop :=
  T.start s ∧ us.length = K ∧ (∀ u ∈ us, T.input u) ∧ T.accept (T.walk s us)

theorem walk_state (T : Trellis V U M) {s : V} {us : List U} (state : T.state s)
    (inputs : ∀ u ∈ us, T.input u) : T.state (T.walk s us) := by
  induction us generalizing s with
  | nil => exact state
  | cons u us ih =>
    have first := T.next_state state (inputs u List.mem_cons_self)
    exact ih first fun v member => inputs v (List.mem_cons_of_mem u member)

theorem walk_append (T : Trellis V U M) (s : V) (us vs : List U) :
    T.walk s (us ++ vs) = T.walk (T.walk s us) vs := List.foldl_append

theorem walk_concat (T : Trellis V U M) (s : V) (us : List U) (u : U) :
    T.walk s (us ++ [u]) = T.next (T.walk s us) u := T.walk_append s us [u]

section Weight

variable [AddCommGroup M]

theorem weight_append (T : Trellis V U M) (k : Nat) (s : V) (us vs : List U) :
    T.weight k s (us ++ vs) = T.weight k s us + T.weight (k + us.length) (T.walk s us) vs := by
  induction us generalizing k s with
  | nil => exact (zero_add _).symm
  | cons u us ih =>
    have later : k + 1 + us.length = k + (us.length + 1) := by omega
    rw [List.cons_append, weight, weight, ih, List.length_cons, later, add_assoc]
    rfl

theorem weight_singleton (T : Trellis V U M) (k : Nat) (s : V) (u : U) :
    T.weight k s [u] = T.cost k s u := add_zero _

/-- The costs of the paths of length `k` that reach `j`. -/
def prefixes (T : Trellis V U M) (k : Nat) (j : V) : Set M :=
  {t | ∃ s us, T.start s ∧ us.length = k ∧ (∀ u ∈ us, T.input u) ∧ T.walk s us = j ∧
    T.weight 0 s us = t}

/-- The costs of the paths of length `n` that leave `j` at time `k`. -/
def suffixes (T : Trellis V U M) (n k : Nat) (j : V) : Set M :=
  {t | ∃ us, us.length = n ∧ (∀ u ∈ us, T.input u) ∧ T.accept (T.walk j us) ∧
    T.weight k j us = t}

variable {T : Trellis V U M} {j : V} {t : M} {k : Nat}

theorem mem_prefixes_zero : t ∈ T.prefixes 0 j ↔ T.start j ∧ t = 0 := by
  constructor
  · intro ⟨s, us, start, length, _, reached, total⟩
    obtain rfl := List.length_eq_zero_iff.mp length
    obtain rfl : s = j := reached
    exact ⟨start, total.symm⟩
  · intro ⟨start, zero⟩
    exact ⟨j, [], start, rfl, fun _ member => absurd member List.not_mem_nil, rfl, zero.symm⟩

theorem mem_prefixes_succ :
    t ∈ T.prefixes (k + 1) j ↔ ∃ s u, T.state s ∧ T.input u ∧ T.next s u = j ∧
      ∃ r ∈ T.prefixes k s, r + T.cost k s u = t := by
  constructor
  · intro ⟨s, us, start, length, inputs, reached, total⟩
    have nonempty : us ≠ [] := by
      intro empty
      rw [empty] at length
      cases length
    obtain ⟨front, u, rfl⟩ := List.eq_nil_or_concat us |>.resolve_left nonempty
    rw [List.concat_eq_append] at length inputs reached total
    rw [List.length_append, List.length_singleton, Nat.add_right_cancel_iff] at length
    have before := fun v member => inputs v (List.mem_append_left [u] member)
    refine ⟨T.walk s front, u, T.walk_state (T.start_state start) before,
      inputs u (List.mem_append_right front (List.mem_singleton_self u)), ?_, T.weight 0 s front,
      ⟨s, front, start, length, before, rfl, rfl⟩, ?_⟩
    · rw [← walk_concat, reached]
    · rw [← total, weight_append, weight_singleton, Nat.zero_add, length]
  · intro ⟨s, u, _, input, reached, r, ⟨s₀, us, start, length, inputs, walked, total⟩, sum⟩
    refine ⟨s₀, us ++ [u], start, ?_, ?_, ?_, ?_⟩
    · rw [List.length_append, length, List.length_singleton]
    · intro v member
      rcases List.mem_append.mp member with old | new
      · exact inputs v old
      · rw [List.mem_singleton.mp new]
        exact input
    · rw [walk_concat, walked, reached]
    · rw [weight_append, weight_singleton, Nat.zero_add, length, walked, total, sum]

theorem mem_suffixes_zero : t ∈ T.suffixes 0 k j ↔ T.accept j ∧ t = 0 := by
  constructor
  · intro ⟨us, length, _, accept, total⟩
    obtain rfl := List.length_eq_zero_iff.mp length
    exact ⟨accept, total.symm⟩
  · intro ⟨accept, zero⟩
    exact ⟨[], rfl, fun _ member => absurd member List.not_mem_nil, accept, zero.symm⟩

theorem mem_suffixes_succ {n : Nat} :
    t ∈ T.suffixes (n + 1) k j ↔ ∃ u, T.input u ∧
      ∃ r ∈ T.suffixes n (k + 1) (T.next j u), r + T.cost k j u = t := by
  constructor
  · intro ⟨us, length, inputs, accept, total⟩
    cases us with
    | nil => cases length
    | cons u us =>
      refine ⟨u, inputs u List.mem_cons_self, _, ⟨us, Nat.succ.inj length, ?_, accept, rfl⟩, ?_⟩
      · exact fun v member => inputs v (List.mem_cons_of_mem u member)
      · rw [← total, weight, add_comm]
  · intro ⟨u, input, r, ⟨us, length, inputs, accept, total⟩, sum⟩
    refine ⟨u :: us, congrArg Nat.succ length, ?_, accept, ?_⟩
    · intro v member
      rcases List.mem_cons.mp member with first | later
      · rw [first]
        exact input
      · exact inputs v later
    · rw [weight, total, ← sum, add_comm]

theorem path_through {n : Nat} {P : V → U → Prop} {w : V → U → M} :
    (∃ s us u, T.Path (k + 1 + n) s us ∧ us[k]? = some u ∧ P (T.walk s (us.take k)) u ∧
      T.weight 0 s us - w (T.walk s (us.take k)) u = t) ↔
    ∃ j u, T.state j ∧ T.input u ∧ P j u ∧ ∃ a ∈ T.prefixes k j,
      ∃ b ∈ T.suffixes n (k + 1) (T.next j u), a + (T.cost k j u - w j u) + b = t := by
  constructor
  · intro ⟨s, us, u, ⟨start, length, inputs, accept⟩, here, holds, total⟩
    have before : k < us.length := by omega
    have split : us = us.take k ++ u :: us.drop (k + 1) := by
      obtain ⟨_, value⟩ := List.getElem?_eq_some_iff.mp here
      rw [← value, ← List.drop_eq_getElem_cons before, List.take_append_drop]
    have taken : (us.take k).length = k := List.length_take_of_le before.le
    have firsts := fun v (member : v ∈ us.take k) => inputs v (List.mem_of_mem_take member)
    have lasts := fun v (member : v ∈ us.drop (k + 1)) => inputs v (List.mem_of_mem_drop member)
    refine ⟨T.walk s (us.take k), u, T.walk_state (T.start_state start) firsts,
      inputs u (List.mem_of_getElem? here), holds, _,
      ⟨s, us.take k, start, taken, firsts, rfl, rfl⟩, _,
      ⟨us.drop (k + 1), ?_, lasts, ?_, rfl⟩, ?_⟩
    · rw [List.length_drop]
      omega
    · rw [split, walk_append] at accept
      exact accept
    · rw [← total]
      conv => rhs; lhs; rw [split, weight_append, weight, taken, Nat.zero_add]
      abel
  · intro ⟨j, u, _, input, holds, a, ⟨s, front, start, length, firsts, reached, before⟩,
      b, ⟨back, rest, lasts, accept, after⟩, sum⟩
    have taken : (front ++ u :: back).take k = front := by
      rw [← length, List.take_left]
    refine ⟨s, front ++ u :: back, u, ⟨start, ?_, ?_, ?_⟩, ?_, ?_, ?_⟩
    · rw [List.length_append, List.length_cons]
      omega
    · intro v member
      rcases List.mem_append.mp member with first | last
      · exact firsts v first
      · rcases List.mem_cons.mp last with here | later
        · rw [here]
          exact input
        · exact lasts v later
    · rw [walk_append, reached]
      exact accept
    · rw [← length, List.getElem?_append_right (Nat.le_refl _), Nat.sub_self]
      rfl
    · rw [taken, reached]
      exact holds
    · rw [taken, weight_append, weight, reached, before, length, Nat.zero_add, after, ← sum]
      abel

/-- The costs of each step are less by `low`. -/
def less (T : Trellis V U M) (low : Nat → M) : Trellis V U M where
  state := T.state
  input := T.input
  start := T.start
  accept := T.accept
  next := T.next
  cost := fun k s u => T.cost k s u - low k
  next_state := T.next_state
  start_state := T.start_state

/-- What is taken off the cost of a path of length `n` from time `k` on. -/
def lows (low : Nat → M) : Nat → Nat → M
  | _, 0 => 0
  | k, n + 1 => low k + lows low (k + 1) n

theorem weight_less (T : Trellis V U M) (low : Nat → M) (k : Nat) (s : V) (us : List U) :
    (T.less low).weight k s us = T.weight k s us - lows low k us.length := by
  induction us generalizing k s with
  | nil => exact (sub_zero _).symm
  | cons u us ih =>
    rw [weight, weight, ih, List.length_cons, lows]
    simp only [less]
    abel

end Weight

end Trellis

end GnuRadio
