import Mathlib.Data.List.Nodup
import Mathlib.Data.List.Range
import Mathlib.Data.List.Perm.Subperm

/-!
# Going around a ring

A walk around `N` places is known by its distance from the beginning: distance `q` is place `q % N`
in turn `q / N`. Walks go backward here, and a full turn meets each place once.
-/

namespace GnuRadio

variable {α : Type} {N : ℕ}

theorem map_range_perm {f : ℕ → ℕ} (inside : ∀ j < N, f j < N)
    (distinct : ∀ j < N, ∀ k < N, f j = f k → j = k) :
    ((List.range N).map f).Perm (List.range N) := by
  have nodup : ((List.range N).map f).Nodup := by
    refine List.Nodup.map_on (fun j here k there same => ?_) List.nodup_range
    exact distinct j (List.mem_range.mp here) k (List.mem_range.mp there) same
  have subset : (List.range N).map f ⊆ List.range N := by
    intro place member
    obtain ⟨j, here, rfl⟩ := List.mem_map.mp member
    exact List.mem_range.mpr (inside j (List.mem_range.mp here))
  refine (List.subperm_of_subset nodup subset).perm_of_length_le ?_
  rw [List.length_map]

theorem back_near {P j : ℕ} (positive : 0 < N) (near : j ≤ P % N) :
    (P + N - j) % N = P % N - j ∧ (P + N - j) / N = P / N + 1 := by
  have parts := Nat.div_add_mod P N
  have below := Nat.mod_lt P positive
  have here : P + N - j = P % N - j + N * (P / N + 1) := by
    rw [Nat.mul_succ]
    omega
  rw [here, Nat.add_mul_mod_self_left, Nat.add_mul_div_left _ _ positive,
    Nat.mod_eq_of_lt (by omega), Nat.div_eq_of_lt (by omega), Nat.zero_add]
  exact ⟨rfl, rfl⟩

theorem back_far {P j : ℕ} (far : P % N < j) (less : j < N) :
    (P + N - j) % N = P % N + N - j ∧ (P + N - j) / N = P / N := by
  have parts := Nat.div_add_mod P N
  have here : P + N - j = P % N + N - j + N * (P / N) := by omega
  rw [here, Nat.add_mul_mod_self_left, Nat.add_mul_div_left _ _ (by omega),
    Nat.mod_eq_of_lt (by omega), Nat.div_eq_of_lt (by omega), Nat.zero_add]
  exact ⟨rfl, rfl⟩

theorem back_perm (P : ℕ) : ((List.range N).map fun j => (P + N - j) % N).Perm (List.range N) := by
  rcases Nat.eq_zero_or_pos N with rfl | positive
  · exact List.Perm.refl _
  · refine map_range_perm (fun j _ => Nat.mod_lt _ positive) fun j here k there same => ?_
    rcases Nat.lt_or_ge (P % N) j with far | near
    · rcases Nat.lt_or_ge (P % N) k with far' | near'
      · rw [(back_far far here).1, (back_far far' there).1] at same
        omega
      · rw [(back_far far here).1, (back_near positive near').1] at same
        omega
    · rcases Nat.lt_or_ge (P % N) k with far' | near'
      · rw [(back_near positive near).1, (back_far far' there).1] at same
        omega
      · rw [(back_near positive near).1, (back_near positive near').1] at same
        omega

theorem turns_step {R : ℕ} (positive : 0 < N) (short : R ≤ N) (P : ℕ) :
    (P + R) / N = P / N + if N ≤ P % N + R then 1 else 0 := by
  have parts := Nat.div_add_mod P N
  have below := Nat.mod_lt P positive
  have here : P + R = P % N + R + N * (P / N) := by omega
  rw [here, Nat.add_mul_div_left _ _ positive, Nat.add_comm]
  congr 1
  by_cases passes : N ≤ P % N + R
  · rw [if_pos passes]
    exact Nat.div_eq_of_lt_le (by omega) (by omega)
  · rw [if_neg passes]
    exact Nat.div_eq_of_lt (by omega)

theorem foldl_set_covered {β : Type} (place : β → ℕ) (value : β → α) {l : List β}
    {before other : List α} (length : before.length = other.length)
    (covered : ∀ i < before.length, ∃ b ∈ l, place b = i) :
    l.foldl (fun buf b => buf.set (place b) (value b)) before =
      l.foldl (fun buf b => buf.set (place b) (value b)) other := by
  have agree : ∀ i, (∃ b ∈ l, place b = i) ∨ before[i]? = other[i]? →
      (l.foldl (fun buf b => buf.set (place b) (value b)) before)[i]? =
        (l.foldl (fun buf b => buf.set (place b) (value b)) other)[i]? := by
    clear covered
    intro i
    induction l generalizing before other with
    | nil =>
      intro known
      rcases known with written | same
      · obtain ⟨b, member, _⟩ := written
        cases member
      · exact same
    | cons b l ih =>
      intro known
      rw [List.foldl_cons, List.foldl_cons]
      refine ih (by rw [List.length_set, List.length_set, length]) ?_
      by_cases here : place b = i
      · right
        subst here
        rw [List.getElem?_set, List.getElem?_set, if_pos rfl, if_pos rfl, length]
      · rcases known with written | same
        · obtain ⟨c, member, there⟩ := written
          rcases List.mem_cons.mp member with rfl | later
          · exact absurd there here
          · exact Or.inl ⟨c, later, there⟩
        · right
          rw [List.getElem?_set_ne here, List.getElem?_set_ne here, same]
  apply List.ext_getElem?
  intro i
  rcases Nat.lt_or_ge i before.length with inside | outside
  · exact agree i (Or.inl (covered i inside))
  · refine agree i (Or.inr ?_)
    rw [List.getElem?_eq_none outside, List.getElem?_eq_none (length ▸ outside)]

theorem length_foldl_set {β : Type} (place : β → ℕ) (value : β → α) (l : List β)
    (before : List α) :
    (l.foldl (fun buf b => buf.set (place b) (value b)) before).length = before.length := by
  induction l generalizing before with
  | nil => rfl
  | cons b l ih => rw [List.foldl_cons, ih, List.length_set]

end GnuRadio
