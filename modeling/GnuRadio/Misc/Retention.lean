import Mathlib.Data.List.Perm.Basic

/-!
# What is kept of what was put

Items with offsets are put into a store, and some of them are dropped again. A
reader takes them in windows, one behind the other: what lies below its mark it has
taken. `Retained` says that the store still has everything that was put from the
mark on.
-/

namespace GnuRadio

variable {α ι : Type} {offset : α → ℕ}

/-- Of the items from `mark` on, those kept are those put, in their order. -/
def Retained (offset : α → ℕ) (put kept : List α) (mark : ℕ) : Prop :=
  put.filter (fun x => mark ≤ offset x) = kept.filter (fun x => mark ≤ offset x)

namespace Retained

variable {put kept : List α} {mark : ℕ}

section

variable (retained : Retained offset put kept mark)
include retained

theorem append (more : List α) : Retained offset (put ++ more) (kept ++ more) mark := by
  rw [Retained, List.filter_append, List.filter_append, retained]

theorem advance {mark' : ℕ} (less : mark ≤ mark') : Retained offset put kept mark' := by
  have finer : ∀ l : List α, l.filter (fun x => mark' ≤ offset x) =
      (l.filter fun x => mark ≤ offset x).filter fun x => mark' ≤ offset x := by
    intro l
    rw [List.filter_filter]
    apply List.filter_congr
    intro x _
    grind
  rw [Retained, finer put, finer kept, retained]

theorem drop {limit : ℕ} (spared : ∀ x ∈ kept, offset x < limit → offset x < mark) :
    Retained offset put (kept.filter fun x => limit ≤ offset x) mark := by
  rw [Retained, retained, List.filter_filter]
  apply List.filter_congr
  intro x member
  have below := spared x member
  grind

theorem window (stop : ℕ) :
    kept.filter (fun x => mark ≤ offset x ∧ offset x < stop) =
      put.filter (fun x => mark ≤ offset x ∧ offset x < stop) := by
  have cut : ∀ l : List α, l.filter (fun x => mark ≤ offset x ∧ offset x < stop) =
      (l.filter fun x => mark ≤ offset x).filter fun x => offset x < stop := by
    intro l
    rw [List.filter_filter]
    apply List.filter_congr
    intro x _
    rw [Bool.decide_and, Bool.and_comm]
  rw [cut kept, cut put, retained]

theorem mem {x : α} (member : x ∈ put) (above : mark ≤ offset x) : x ∈ kept := by
  have both : x ∈ put.filter fun x => mark ≤ offset x := by simp [member, above]
  rw [retained] at both
  exact List.mem_of_mem_filter both

end

end Retained

theorem filter_lt_perm (put : List α) {mark stop : ℕ} (less : mark ≤ stop) :
    (put.filter fun x => offset x < stop).Perm
      ((put.filter fun x => offset x < mark) ++
        put.filter fun x => mark ≤ offset x ∧ offset x < stop) := by
  have parts := List.filter_append_perm (fun x => decide (offset x < mark))
    (put.filter fun x => offset x < stop)
  rw [List.filter_filter, List.filter_filter] at parts
  refine parts.symm.trans (List.Perm.of_eq ?_)
  congr 1
  · apply List.filter_congr
    intro x _
    grind
  · apply List.filter_congr
    intro x _
    grind

theorem flatMap_grown {l : List ι} {f g : ι → List α} {i : ι} {more : List α} (nodup : l.Nodup)
    (member : i ∈ l) (same : ∀ j ∈ l, j ≠ i → g j = f j) (grown : (g i).Perm (f i ++ more)) :
    (l.flatMap g).Perm (l.flatMap f ++ more) := by
  obtain ⟨front, back, rfl⟩ := List.append_of_mem member
  have apart := List.perm_middle.nodup_iff.mp nodup
  rw [List.nodup_cons, List.mem_append, not_or] at apart
  have fronts : front.flatMap g = front.flatMap f := by
    apply List.flatMap_congr
    intro j inside
    exact same j (by simp [inside]) fun equal => apart.1.1 (equal ▸ inside)
  have backs : back.flatMap g = back.flatMap f := by
    apply List.flatMap_congr
    intro j inside
    exact same j (by simp [inside]) fun equal => apart.1.2 (equal ▸ inside)
  rw [List.flatMap_append, List.flatMap_append, List.flatMap_cons, List.flatMap_cons, fronts, backs,
    List.append_assoc]
  refine List.Perm.append_left _ ?_
  calc
    (g i ++ back.flatMap f).Perm (f i ++ more ++ back.flatMap f) := grown.append_right _
    _ = f i ++ (more ++ back.flatMap f) := List.append_assoc ..
    (f i ++ (more ++ back.flatMap f)).Perm (f i ++ (back.flatMap f ++ more)) :=
      List.perm_append_comm.append_left _
    _ = f i ++ back.flatMap f ++ more := (List.append_assoc ..).symm

end GnuRadio
