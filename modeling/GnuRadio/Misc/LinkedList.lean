import Mathlib.Data.List.Basic

/-!
# Linked lists

`Linked next head l` says that `l` is what one meets from `head` on, following
`next` until there is no next. There is at most one such list, and it has no
repetitions.
-/

namespace GnuRadio

variable {V : Type}

/-- The list from `head` on. -/
def Linked (next : V → Option V) : Option V → List V → Prop
  | head, [] => head = none
  | head, v :: l => head = some v ∧ Linked next (next v) l

namespace Linked

variable {next : V → Option V} {head : Option V} {l : List V}

theorem head_eq (linked : Linked next head l) : head = l.head? := by
  cases l with
  | nil => exact linked
  | cons v l => exact linked.1

theorem head_eq_none_iff (linked : Linked next head l) : head = none ↔ l = [] := by
  rw [linked.head_eq, List.head?_eq_none_iff]

theorem unique {l' : List V} (linked : Linked next head l) (linked' : Linked next head l') :
    l = l' := by
  induction l generalizing head l' with
  | nil =>
    rw [linked.head_eq] at linked'
    exact (linked'.head_eq_none_iff.mp rfl).symm
  | cons v l ih =>
    cases l' with
    | nil => exact absurd (linked.1.symm.trans linked') (by simp)
    | cons w l' =>
      obtain rfl := Option.some.inj (linked.1.symm.trans linked'.1)
      rw [ih linked.2 linked'.2]

variable {front : List V} {v : V}

theorem split {back : List V} (linked : Linked next head (front ++ v :: back)) :
    Linked next (next v) back := by
  induction front generalizing head with
  | nil => exact linked.2
  | cons w front ih => exact ih linked.2

theorem nodup (linked : Linked next head l) : l.Nodup := by
  induction l generalizing head with
  | nil => exact List.nodup_nil
  | cons v l ih =>
    refine List.nodup_cons.mpr ⟨?_, ih linked.2⟩
    intro again
    obtain ⟨front, back, rfl⟩ := List.append_of_mem again
    have same := linked.2.unique linked.2.split
    have length := congrArg List.length same
    simp only [List.length_append, List.length_cons] at length
    omega

theorem next_eq_none_iff (linked : Linked next head l) (member : v ∈ l) :
    next v = none ↔ l.getLast? = some v := by
  obtain ⟨front, back, rfl⟩ := List.append_of_mem member
  rw [linked.split.head_eq_none_iff, List.getLast?_append_cons]
  cases back with
  | nil => simp
  | cons w back =>
    have once := (List.nodup_append.mp linked.nodup).2.1
    have later : (w :: back).getLast? ≠ some v :=
      fun last => (List.nodup_cons.mp once).1 (List.mem_of_getLast? last)
    simp [later]

theorem congr {next' : V → Option V} (linked : Linked next head l)
    (same : ∀ v ∈ l, next' v = next v) : Linked next' head l := by
  induction l generalizing head with
  | nil => exact linked
  | cons v l ih =>
    refine ⟨linked.1, ?_⟩
    rw [same v List.mem_cons_self]
    exact ih linked.2 fun w member => same w (List.mem_cons_of_mem v member)

variable [DecidableEq V]

theorem update (linked : Linked next head l) (outside : v ∉ l) (target : Option V) :
    Linked (Function.update next v target) head l := by
  refine linked.congr fun w member => Function.update_of_ne ?_ ..
  rintro rfl
  exact outside member

theorem concat {w : V} (linked : Linked next head (front ++ [v])) (outside : w ∉ front ++ [v]) :
    Linked (Function.update (Function.update next v (some w)) w none) head
      (front ++ [v] ++ [w]) := by
  induction front generalizing head with
  | nil =>
    have other : w ≠ v := by simpa using outside
    refine ⟨linked.1, ?_, ?_⟩
    · rw [Function.update_of_ne (Ne.symm other), Function.update_self]
    · rw [Linked, Function.update_self]
  | cons u front ih =>
    have distinct : u ≠ v := by
      have nodup := linked.nodup
      rw [List.cons_append, List.nodup_cons] at nodup
      rintro rfl
      exact nodup.1 (by simp)
    rw [List.cons_append, List.mem_cons, not_or] at outside
    refine ⟨linked.1, ?_⟩
    rw [Function.update_of_ne (Ne.symm outside.1), Function.update_of_ne distinct]
    exact ih linked.2 outside.2

end Linked

end GnuRadio
