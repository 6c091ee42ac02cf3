import Mathlib.Data.List.Basic
import Mathlib.Algebra.Group.End

/-!
# Rearranging a vector in place

A vector that only ever has two of its elements swapped is a rearrangement of what it was, by a
permutation of the places. Vectors that are swapped at the same places are rearranged by the same
permutation, whatever is in them. Places are integers, and there is nothing at the wrong ones.
-/

namespace GnuRadio

variable {α β : Type}

/-- The element at a place. -/
def vectorAt (v : List α) (i : Int) : Option α := if 0 ≤ i then v[i.toNat]? else none

/-- Two elements are swapped. -/
def vectorSwap (v : List α) (i j : Int) : Option (List α) := do
  let a ← vectorAt v i
  let b ← vectorAt v j
  return (v.set i.toNat b).set j.toNat a

theorem vectorAt_natCast (v : List α) (i : ℕ) : vectorAt v i = v[i]? :=
  if_pos (Int.natCast_nonneg i)

variable {v : List α} {right : Int}

theorem exists_vectorAt {i : Int} (least : 0 ≤ i) (most : i < v.length) :
    ∃ a, vectorAt v i = some a := by
  have inside : i.toNat < v.length := by omega
  exact ⟨v[i.toNat], (if_pos least).trans (List.getElem?_eq_getElem inside)⟩

/-- The vector `v'` has at each place what `v` has at the place that `σ` takes it to. -/
def Rearranged (σ : Equiv.Perm Int) (v v' : List α) : Prop :=
  v'.length = v.length ∧ ∀ k, vectorAt v' k = vectorAt v (σ k)

namespace Rearranged

variable {σ τ : Equiv.Perm Int} {v v' v'' : List α}

theorem refl (v : List α) : Rearranged 1 v v := ⟨rfl, fun _ => rfl⟩

theorem trans (first : Rearranged σ v v') (second : Rearranged τ v' v'') :
    Rearranged (σ * τ) v v'' :=
  ⟨second.1.trans first.1, fun k => (second.2 k).trans (first.2 (τ k))⟩

end Rearranged

theorem vectorSwap_spec {i j : Int} (least : 0 ≤ i) (most : i < v.length) (least' : 0 ≤ j)
    (most' : j < v.length) :
    ∃ v', vectorSwap v i j = some v' ∧ Rearranged (Equiv.swap i j) v v' := by
  obtain ⟨a, first⟩ := exists_vectorAt least most
  obtain ⟨b, second⟩ := exists_vectorAt least' most'
  refine ⟨(v.set i.toNat b).set j.toNat a, by rw [vectorSwap, first, second]; rfl, ?_, ?_⟩
  · rw [List.length_set, List.length_set]
  · intro k
    by_cases low : 0 ≤ k
    · have place : vectorAt ((v.set i.toNat b).set j.toNat a) k =
          ((v.set i.toNat b).set j.toNat a)[k.toNat]? := if_pos low
      have inside : i.toNat < v.length := by omega
      have inside' : j.toNat < v.length := by omega
      rw [place, List.getElem?_set, List.getElem?_set, List.length_set, Equiv.swap_apply_def]
      by_cases isSecond : k = j
      · subst isSecond
        rw [if_pos rfl, if_pos inside']
        by_cases isFirst : k = i
        · rw [if_pos isFirst, ← first, isFirst]
        · rw [if_neg isFirst, if_pos rfl, first]
      · rw [if_neg (by omega)]
        by_cases isFirst : k = i
        · rw [if_pos isFirst, if_pos (by rw [isFirst]), if_pos inside, second]
        · rw [if_neg isFirst, if_neg isSecond, if_neg (by omega)]
          exact (if_pos low).symm
    · have outside : Equiv.swap i j k = k :=
        Equiv.swap_apply_of_ne_of_ne (by omega) (by omega)
      rw [outside, vectorAt, vectorAt, if_neg low, if_neg low]

/-- A permutation that moves nothing outside of `left` to `right`. -/
def FixesOutside (left right : Int) (σ : Equiv.Perm Int) : Prop :=
  ∀ k, k < left ∨ right < k → σ k = k

namespace FixesOutside

variable {left right : Int} {σ τ : Equiv.Perm Int}

theorem one (left right : Int) : FixesOutside left right 1 := fun _ _ => rfl

theorem mul (first : FixesOutside left right σ) (second : FixesOutside left right τ) :
    FixesOutside left right (σ * τ) := by
  intro k outside
  rw [Equiv.Perm.mul_apply, second k outside, first k outside]

theorem inv (within : FixesOutside left right σ) : FixesOutside left right σ⁻¹ := by
  intro k outside
  exact (Equiv.Perm.inv_eq_iff_eq (f := σ)).mpr (within k outside).symm

theorem mono (within : FixesOutside left right σ) {left' right' : Int} (first : left' ≤ left)
    (second : right ≤ right') : FixesOutside left' right' σ := by
  intro k outside
  exact within k (by omega)

theorem swap {i j : Int} (least : left ≤ i) (most : i ≤ right) (least' : left ≤ j)
    (most' : j ≤ right) : FixesOutside left right (Equiv.swap i j) := by
  intro k outside
  exact Equiv.swap_apply_of_ne_of_ne (by omega) (by omega)

theorem inside (within : FixesOutside left right σ) {k : Int} (least : left ≤ k)
    (most : k ≤ right) :
    left ≤ σ k ∧ σ k ≤ right := by
  by_contra outside
  have fixed := within (σ k) (by omega)
  have same := σ.injective fixed
  omega

end FixesOutside

/-! ## What holds of the elements between two places -/

/-- `P` holds of every element from `left` to `right`. -/
def HoldsBetween (P : α → Prop) (v : List α) (left right : Int) : Prop :=
  ∀ k a, left ≤ k → k ≤ right → vectorAt v k = some a → P a

/-- The elements from `left` to `right` are in order. -/
def Ascending [LE α] (v : List α) (left right : Int) : Prop :=
  ∀ i j a b, left ≤ i → i ≤ j → j ≤ right → vectorAt v i = some a → vectorAt v j = some b → a ≤ b

namespace HoldsBetween

variable {P : α → Prop} {v v' : List α} {left right : Int} {σ : Equiv.Perm Int}

variable {left' right' : Int}

theorem mono (holding : HoldsBetween P v left right) (first : left ≤ left')
    (second : right' ≤ right) : HoldsBetween P v left' right' :=
  fun k a least most there => holding k a (first.trans least) (most.trans second) there

theorem append {middle next : Int} (front : HoldsBetween P v left middle)
    (back : HoldsBetween P v next right) (adjacent : next = middle + 1) :
    HoldsBetween P v left right := by
  intro k a least most there
  rcases le_or_gt k middle with before | after
  · exact front k a least before there
  · exact back k a (by omega) most there

theorem inside (holding : HoldsBetween P v left right) (moved : Rearranged σ v v')
    (within : FixesOutside left right σ) : HoldsBetween P v' left right := by
  intro k a least most there
  obtain ⟨least', most'⟩ := within.inside least most
  exact holding (σ k) a least' most' ((moved.2 k).symm.trans there)

theorem outside (holding : HoldsBetween P v left right) (moved : Rearranged σ v v')
    (within : FixesOutside left' right' σ) (apart : right' < left ∨ right < left') :
    HoldsBetween P v' left right := by
  intro k a least most there
  rw [moved.2, within k (by omega)] at there
  exact holding k a least most there

end HoldsBetween

theorem Ascending.outside [LE α] {v' : List α} {left : Int} {σ : Equiv.Perm Int}
    (ascending : Ascending v left right) (moved : Rearranged σ v v') {left' right' : Int}
    (within : FixesOutside left' right' σ) (apart : right' < left ∨ right < left') :
    Ascending v' left right := by
  intro i j a b least ordered most first second
  rw [moved.2, within i (by omega)] at first
  rw [moved.2, within j (by omega)] at second
  exact ascending i j a b least ordered most first second

theorem Ascending.join [LinearOrder α] {left middle : Int} {pivot : α}
    (front : Ascending v left (middle - 1)) (back : Ascending v (middle + 1) right)
    (below : HoldsBetween (· ≤ pivot) v left middle)
    (above : HoldsBetween (pivot ≤ ·) v middle right) : Ascending v left right := by
  intro i j a b least ordered most first second
  rcases lt_or_ge j middle with before | after
  · exact front i j a b least ordered (by omega) first second
  · rcases le_or_gt i middle with before' | after'
    · have upper := above j b after most second
      exact (below i a least before' first).trans upper
    · exact back i j a b (by omega) ordered most first second

end GnuRadio
