import Mathlib.Data.List.Basic

/-!
# What the parties of a system hold

The parties are a list, and `g` gives what a party in a state holds. When one
party goes on, what all hold together changes by what this party holds.
-/

namespace GnuRadio

variable {α β : Type} {parties : List α} {t : Nat} {u : α}

theorem flatMap_set_perm (g : α → List β) (here : parties[t]? = some u) (u' : α) :
    ((parties.set t u').flatMap g ++ g u).Perm (parties.flatMap g ++ g u') := by
  induction parties generalizing t with
  | nil => cases here
  | cons v parties ih =>
    cases t with
    | zero =>
      obtain rfl := Option.some.inj here
      rw [List.set_cons_zero, List.flatMap_cons, List.flatMap_cons, List.append_assoc,
        List.append_assoc]
      exact (List.perm_append_comm_assoc _ _ _).trans
        ((List.Perm.append_left _ List.perm_append_comm).trans (List.perm_append_comm_assoc _ _ _))
    | succ t =>
      rw [List.set_cons_succ, List.flatMap_cons, List.flatMap_cons, List.append_assoc,
        List.append_assoc]
      exact (ih here).append_left (g v)

theorem length_flatMap_set (g : α → List β) (here : parties[t]? = some u) (u' : α) :
    ((parties.set t u').flatMap g).length + (g u).length =
      (parties.flatMap g).length + (g u').length := by
  have lengths := (flatMap_set_perm g here u').length_eq
  rwa [List.length_append, List.length_append] at lengths

theorem count_flatMap_set [BEq β] [LawfulBEq β] (g : α → List β) (here : parties[t]? = some u)
    (u' : α) (b : β) : ((parties.set t u').flatMap g).count b + (g u).count b =
      (parties.flatMap g).count b + (g u').count b := by
  have counts := (flatMap_set_perm g here u').count_eq b
  rwa [List.count_append, List.count_append] at counts

theorem getElem?_set_cases {i : Nat} {v : α} (found : (parties.set t u)[i]? = some v) :
    v = u ∧ i = t ∨ i ≠ t ∧ parties[i]? = some v := by
  by_cases same : i = t
  · subst same
    have inside : i < parties.length := by
      have length := (List.getElem?_eq_some_iff.mp found).1
      rwa [List.length_set] at length
    rw [List.getElem?_set_self inside] at found
    exact Or.inl ⟨(Option.some.inj found).symm, rfl⟩
  · rw [List.getElem?_set_ne (Ne.symm same)] at found
    exact Or.inr ⟨same, found⟩

theorem map_set_same {f : α → β} {u' : α} (here : parties[t]? = some u) (same : f u' = f u) :
    (parties.set t u').map f = parties.map f := by
  obtain ⟨inside, rfl⟩ := List.getElem?_eq_some_iff.mp here
  rw [List.map_set, same, ← List.map_set, List.set_getElem_self]

theorem foldl_filter {σ τ ε : Type} {step : σ → ε → σ} (view : σ → τ) {one : τ → ε → τ}
    {mine : ε → Bool} (stepped : ∀ s e, mine e = true → view (step s e) = one (view s) e)
    (other : ∀ s e, mine e = false → view (step s e) = view s) (s : σ) (events : List ε) :
    view (events.foldl step s) = (events.filter mine).foldl one (view s) := by
  induction events generalizing s with
  | nil => rfl
  | cons e events ih =>
    rw [List.foldl_cons, ih]
    cases about : mine e with
    | true => rw [List.filter_cons_of_pos about, List.foldl_cons, stepped s e about]
    | false => rw [List.filter_cons_of_neg (by simp [about]), other s e about]

end GnuRadio
