import GnuRadio.Misc.Trellis
import Mathlib.Algebra.Order.Group.Basic

/-!
# Least costs below a cap

A large number stands for "no path" in loops that look for the least cost, and
the rows of costs are shifted so that their least value is 0. What such a row
represents is the least cost of the paths that cost less than the cap, up to an
offset.
-/

namespace GnuRadio

variable {M ι κ : Type}

/-! ## The loops -/

section Loops

variable [LinearOrder M]

/-- The least of `top` and the `f i`, and the first place where it is met. -/
def leastAt (top : M) (f : Nat → M) (n : Nat) : M × Nat :=
  (List.range n).foldl (fun best i => if f i < best.1 then (f i, i) else best) (top, 0)

/-- The values combined one after another. -/
def accumulate (op : M → M → M) (top : M) (f : ι → M) (l : List ι) : M :=
  l.foldl (fun least i => op least (f i)) top

theorem leastAt_succ (top : M) (f : Nat → M) (n : Nat) :
    leastAt top f (n + 1) =
      if f n < (leastAt top f n).1 then (f n, n) else leastAt top f n := by
  rw [leastAt, List.range_succ, List.foldl_append]
  rfl

variable {top y : M} {f : Nat → M} {n : Nat}

omit [LinearOrder M] in
theorem accumulate_congr {op : M → M → M} {f g : ι → M} {l : List ι} (same : ∀ i ∈ l, f i = g i) :
    accumulate op top f l = accumulate op top g l := by
  unfold accumulate
  induction l generalizing top with
  | nil => rfl
  | cons i l ih =>
    rw [List.foldl_cons, List.foldl_cons, same i List.mem_cons_self]
    exact ih fun j member => same j (List.mem_cons_of_mem i member)

theorem leastAt_congr {g : Nat → M} (same : ∀ i < n, f i = g i) :
    leastAt top f n = leastAt top g n := by
  induction n with
  | zero => rfl
  | succ n ih =>
    rw [leastAt_succ, leastAt_succ, same n (Nat.lt_succ_self n),
      ih fun i less => same i (Nat.lt_succ_of_lt less)]

theorem leastAt_isLeast (top : M) (f : Nat → M) (n : Nat) :
    IsLeast (insert top {x | ∃ i < n, f i = x}) (leastAt top f n).1 := by
  induction n with
  | zero =>
    refine ⟨Or.inl rfl, ?_⟩
    rintro x (rfl | ⟨i, impossible, _⟩)
    · exact le_refl _
    · exact absurd impossible (Nat.not_lt_zero i)
  | succ n ih =>
    rw [leastAt_succ]
    split
    · rename_i less
      refine ⟨Or.inr ⟨n, Nat.lt_succ_self n, rfl⟩, ?_⟩
      rintro x (rfl | ⟨i, before, rfl⟩)
      · exact less.le.trans (ih.2 (Or.inl rfl))
      · rcases Nat.lt_succ_iff_lt_or_eq.mp before with earlier | rfl
        · exact less.le.trans (ih.2 (Or.inr ⟨i, earlier, rfl⟩))
        · exact le_refl _
    · rename_i notLess
      refine ⟨ih.1.imp id fun ⟨i, before, same⟩ => ⟨i, before.trans (Nat.lt_succ_self n), same⟩, ?_⟩
      rintro x (rfl | ⟨i, before, rfl⟩)
      · exact ih.2 (Or.inl rfl)
      · rcases Nat.lt_succ_iff_lt_or_eq.mp before with earlier | rfl
        · exact ih.2 (Or.inr ⟨i, earlier, rfl⟩)
        · exact not_lt.mp notLess

theorem leastAt_index (below : (leastAt top f n).1 < top) :
    (leastAt top f n).2 < n ∧ f (leastAt top f n).2 = (leastAt top f n).1 := by
  induction n with
  | zero => exact absurd below (lt_irrefl top)
  | succ n ih =>
    rw [leastAt_succ] at below ⊢
    split at below
    · rename_i less
      rw [if_pos less]
      exact ⟨Nat.lt_succ_self n, rfl⟩
    · rename_i notLess
      rw [if_neg notLess]
      exact ⟨(ih below).1.trans (Nat.lt_succ_self n), (ih below).2⟩

theorem leastAt_first {i : Nat} (before : i < (leastAt top f n).2) : (leastAt top f n).1 < f i := by
  induction n with
  | zero => exact absurd before (Nat.not_lt_zero i)
  | succ n ih =>
    rw [leastAt_succ] at before ⊢
    split at before
    · rename_i less
      rw [if_pos less]
      exact less.trans_le ((leastAt_isLeast top f n).2 (Or.inr ⟨i, before, rfl⟩))
    · rename_i notLess
      rw [if_neg notLess]
      exact ih before

theorem leastAt_head (f : Nat → M) (some : 0 < n) :
    (leastAt (f 0) f n).2 < n ∧ f (leastAt (f 0) f n).2 = (leastAt (f 0) f n).1 ∧
      ∀ i < n, (leastAt (f 0) f n).1 ≤ f i := by
  have least := leastAt_isLeast (f 0) f n
  have below : ∀ i < n, (leastAt (f 0) f n).1 ≤ f i := fun i less => least.2 (Or.inr ⟨i, less, rfl⟩)
  rcases lt_or_eq_of_le (below 0 some) with less | same
  · exact ⟨(leastAt_index less).1, (leastAt_index less).2, below⟩
  · have first : (leastAt (f 0) f n).2 = 0 := by
      by_contra later
      exact (leastAt_first (Nat.pos_of_ne_zero later)).ne same
    rw [first]
    exact ⟨some, same.symm, below⟩

theorem isLeast_insert_union {x : M} {X Y : Set M} (first : IsLeast (insert top X) x)
    (second : IsLeast (insert x Y) y) : IsLeast (insert top (X ∪ Y)) y := by
  constructor
  · rcases second.1 with rfl | member
    · exact first.1.imp id Or.inl
    · exact Or.inr (Or.inr member)
  · rintro z (rfl | member | member)
    · exact (second.2 (Or.inl rfl)).trans (first.2 (Or.inl rfl))
    · exact (second.2 (Or.inl rfl)).trans (first.2 (Or.inr member))
    · exact second.2 (Or.inr member)

theorem isLeast_insert_congr {X Y : Set M} (least : IsLeast (insert top X) y)
    (same : ∀ x, x ∈ X ↔ x ∈ Y) : IsLeast (insert top Y) y := by
  rwa [Set.ext same] at least

theorem isLeast_insert_guarded {A B : ι → Prop} [DecidablePred B] {f : ι → M}
    (least : IsLeast (insert top {x | ∃ i, A i ∧ (if B i then f i else top) = x}) y) :
    IsLeast (insert top {x | ∃ i, (A i ∧ B i) ∧ f i = x}) y := by
  constructor
  · rcases least.1 with same | ⟨i, valid, value⟩
    · exact Or.inl same
    · split at value
      · rename_i holds
        exact Or.inr ⟨i, ⟨valid, holds⟩, value⟩
      · exact Or.inl value.symm
  · rintro x (rfl | ⟨i, ⟨valid, holds⟩, rfl⟩)
    · exact least.2 (Or.inl rfl)
    · exact least.2 (Or.inr ⟨i, valid, if_pos holds⟩)

theorem foldl_isLeast {body : M → ι → M} {X : ι → Set M}
    (bodyLeast : ∀ x i, IsLeast (insert x (X i)) (body x i)) (top : M) (l : List ι) :
    IsLeast (insert top {x | ∃ i ∈ l, x ∈ X i}) (l.foldl body top) := by
  induction l generalizing top with
  | nil =>
    refine ⟨Or.inl rfl, ?_⟩
    rintro x (rfl | ⟨i, impossible, _⟩)
    · exact le_refl _
    · exact absurd impossible List.not_mem_nil
  | cons i l ih =>
    apply isLeast_insert_congr (isLeast_insert_union (bodyLeast top i) (ih (body top i)))
    intro x
    simp only [Set.mem_union, Set.mem_ofPred_eq, List.mem_cons, exists_eq_or_imp]

theorem min_isLeast (x y : M) : IsLeast (insert x {z | y = z}) (min x y) := by
  refine ⟨?_, ?_⟩
  · rcases min_choice x y with left | right
    · exact Or.inl left
    · exact Or.inr right.symm
  · rintro z (rfl | rfl)
    · exact min_le_left z y
    · exact min_le_right x y

theorem accumulate_isLeast (top : M) (f : ι → M) (l : List ι) :
    IsLeast (insert top {x | ∃ i ∈ l, f i = x}) (accumulate min top f l) :=
  foldl_isLeast (fun x i => min_isLeast x (f i)) top l

theorem accumulate_nested_isLeast (top : M) (f : ι → κ → M) (l : List ι) (l' : List κ) :
    IsLeast (insert top {x | ∃ i ∈ l, ∃ j ∈ l', f i j = x})
      (l.foldl (fun least i => accumulate min least (f i) l') top) :=
  foldl_isLeast (fun x i => accumulate_isLeast x (f i) l') top l

end Loops

/-! ## Capped minima -/

/-- Below the cap, `x` is the least member of `P`. -/
def CappedLeast [LE M] [LT M] (cap : M) (P : Set M) (x : M) : Prop :=
  (∀ t ∈ P, t < cap → x ≤ t) ∧ (x < cap → x ∈ P)

section Capped

variable [LinearOrder M] {cap x y : M} {P Q : Set M}

theorem CappedLeast.isLeast (least : CappedLeast cap P x) {t : M} (member : t ∈ P)
    (below : t < cap) : IsLeast P x := by
  have less := (least.1 t member below).trans_lt below
  refine ⟨least.2 less, fun u other => ?_⟩
  rcases lt_or_ge u cap with small | large
  · exact least.1 u other small
  · exact less.le.trans large

theorem CappedLeast.cap_le (least : CappedLeast cap P x) (empty : ∀ t, t ∉ P) : cap ≤ x :=
  not_lt.mp fun below => empty x (least.2 below)

theorem CappedLeast.congr (least : CappedLeast cap P x) (same : ∀ t, t ∈ P ↔ t ∈ Q) :
    CappedLeast cap Q x := by
  rwa [Set.ext same] at least

theorem cappedLeast_empty (large : cap ≤ x) (empty : ∀ t, t ∉ P) : CappedLeast cap P x :=
  ⟨fun t member => absurd member (empty t), fun below => absurd below (not_lt.mpr large)⟩

variable [AddCommGroup M] [IsOrderedAddMonoid M]

theorem CappedLeast.add (first : CappedLeast cap P x) (second : CappedLeast cap Q y)
    (positive : 0 ≤ x ∧ ∀ t ∈ P, 0 ≤ t) (positive' : 0 ≤ y ∧ ∀ t ∈ Q, 0 ≤ t) :
    CappedLeast cap {t | ∃ a ∈ P, ∃ b ∈ Q, a + b = t} (x + y) := by
  constructor
  · rintro t ⟨a, left, b, right, rfl⟩ below
    have aBelow := (le_add_of_nonneg_right (positive'.2 b right)).trans_lt below
    have bBelow := (le_add_of_nonneg_left (positive.2 a left)).trans_lt below
    exact add_le_add (first.1 a left aBelow) (second.1 b right bBelow)
  · intro below
    have xBelow := (le_add_of_nonneg_right positive'.1).trans_lt below
    have yBelow := (le_add_of_nonneg_left positive.1).trans_lt below
    exact ⟨x, first.2 xBelow, y, second.2 yBelow, rfl⟩

theorem CappedLeast.add_const (least : CappedLeast cap P x) {c : M} (nonneg : 0 ≤ c) :
    CappedLeast cap {t | ∃ a ∈ P, a + c = t} (x + c) := by
  constructor
  · rintro t ⟨a, member, rfl⟩ below
    have aBelow := (le_add_of_nonneg_right nonneg).trans_lt below
    exact add_le_add (least.1 a member aBelow) (le_refl c)
  · intro below
    exact ⟨x, least.2 ((le_add_of_nonneg_right nonneg).trans_lt below), rfl⟩

theorem CappedLeast.of_isLeast {top offset : M} {A : ι → Prop} {f : ι → M} {P : ι → Set M}
    (least : IsLeast (insert top {x | ∃ i, A i ∧ f i = x}) x) (large : cap ≤ top + offset)
    (each : ∀ i, A i → CappedLeast cap (P i) (f i + offset)) :
    CappedLeast cap {t | ∃ i, A i ∧ t ∈ P i} (x + offset) := by
  constructor
  · rintro t ⟨i, holds, member⟩ below
    have less := least.2 (Or.inr ⟨i, holds, rfl⟩)
    exact (add_le_add less (le_refl offset)).trans ((each i holds).1 t member below)
  · intro below
    rcases least.1 with rfl | ⟨i, holds, rfl⟩
    · exact absurd below (not_lt.mpr large)
    · exact ⟨i, holds, (each i holds).2 below⟩

end Capped

/-! ## Rows -/

variable {V U : Type} [AddCommGroup M] [LinearOrder M]

/-- The values of a row, with the offset, are the capped minima of the sets. -/
structure Represents (cap : M) (state : V → Prop) (P : V → Set M) (row : V → M) (offset : M) :
    Prop where
  least : ∀ j, state j → CappedLeast cap (P j) (row j + offset)
  nonneg : ∀ j, state j → 0 ≤ row j + offset
  members : ∀ j, state j → ∀ t ∈ P j, 0 ≤ t
  offset_nonneg : 0 ≤ offset

variable {cap : M} {state : V → Prop} {P Q : V → Set M} {row row' : V → M}

theorem Represents.congr {offset : M} (represents : Represents cap state P row offset)
    (same : ∀ j, state j → row' j = row j) : Represents cap state P row' offset where
  least j valid := same j valid ▸ represents.least j valid
  nonneg j valid := same j valid ▸ represents.nonneg j valid
  members := represents.members
  offset_nonneg := represents.offset_nonneg

variable [IsOrderedAddMonoid M]

/-- A row is found from the one before, and its least value is taken off. -/
theorem Represents.relax {low norm offset : M} {E : V → Set (V × M)}
    (represents : Represents cap state P row offset)
    (capNonneg : 0 ≤ cap) (lowNonpos : low ≤ 0)
    (edges : ∀ j, state j → ∀ e ∈ E j, state e.1 ∧ 0 ≤ e.2)
    (sets : ∀ j t, t ∈ Q j ↔ ∃ e, e ∈ E j ∧ ∃ r ∈ P e.1, r + e.2 = t)
    (relaxed : ∀ j, state j →
      IsLeast (insert cap {x | ∃ e, e ∈ E j ∧ row e.1 + (e.2 + low) = x}) (row' j))
    (normed : IsLeast (insert cap {x | ∃ j, state j ∧ row' j = x}) norm) :
    Represents cap state Q (fun j => row' j - norm) (offset - low + norm) := by
  have more : 0 ≤ offset - low := sub_nonneg.mpr (lowNonpos.trans represents.offset_nonneg)
  have shifted : ∀ j e, row e + (j + low) + (offset - low) = row e + offset + j := by
    intro j e
    abel
  have large : ∀ j, state j → 0 ≤ row' j + (offset - low) := by
    intro j valid
    rcases (relaxed j valid).1 with top | ⟨e, edge, value⟩
    · rw [top]
      exact add_nonneg capNonneg more
    · rw [← value, shifted]
      have ⟨valid', nonneg⟩ := edges j valid e edge
      exact add_nonneg (represents.nonneg e.1 valid') nonneg
  have cancel : ∀ j, row' j - norm + (offset - low + norm) = row' j + (offset - low) := by
    intro j
    abel
  refine ⟨?_, ?_, ?_, ?_⟩
  · intro j valid
    rw [cancel]
    have same : Q j = {t | ∃ e, e ∈ E j ∧ t ∈ {t | ∃ r ∈ P e.1, r + e.2 = t}} := by
      ext t
      exact sets j t
    rw [same]
    refine CappedLeast.of_isLeast (relaxed j valid) (le_add_of_nonneg_right more) ?_
    intro e edge
    rw [shifted]
    have ⟨valid', nonneg⟩ := edges j valid e edge
    exact (represents.least e.1 valid').add_const nonneg
  · intro j valid
    rw [cancel]
    exact large j valid
  · intro j valid t member
    obtain ⟨e, edge, r, before, rfl⟩ := (sets j t).mp member
    have ⟨valid', nonneg⟩ := edges j valid e edge
    exact add_nonneg (represents.members e.1 valid' r before) nonneg
  · rw [add_comm]
    rcases normed.1 with top | ⟨j, valid, value⟩
    · rw [top]
      exact add_nonneg capNonneg more
    · rw [← value]
      exact large j valid

theorem CappedLeast.through {low x N N' : M} {A : V → U → Prop} {next : V → U → V} {c : V → U → M}
    (before : Represents cap state P row N) (after : Represents cap state Q row' N')
    (lowNonpos : low ≤ 0) (valid : ∀ j u, A j u → state j ∧ state (next j u) ∧ 0 ≤ c j u)
    (least : IsLeast (insert cap
      {x | ∃ j u, A j u ∧ row j + (c j u + low) + row' (next j u) = x}) x) :
    CappedLeast cap {t | ∃ j u, A j u ∧ ∃ a ∈ P j, ∃ b ∈ Q (next j u), a + c j u + b = t}
      (x + (N + N' - low)) := by
  have offset : 0 ≤ N + N' - low :=
    sub_nonneg.mpr (lowNonpos.trans (add_nonneg before.offset_nonneg after.offset_nonneg))
  have pairs := isLeast_insert_congr least
    (Y := {x | ∃ e : V × U, A e.1 e.2 ∧ row e.1 + (c e.1 e.2 + low) + row' (next e.1 e.2) = x})
    fun x => ⟨fun ⟨j, u, rest⟩ => ⟨(j, u), rest⟩, fun ⟨e, rest⟩ => ⟨e.1, e.2, rest⟩⟩
  have union := CappedLeast.of_isLeast pairs (le_add_of_nonneg_right offset)
    (P := fun e => {t | ∃ a ∈ P e.1, ∃ b ∈ Q (next e.1 e.2), a + c e.1 e.2 + b = t}) ?_
  · exact union.congr fun t => ⟨fun ⟨e, rest⟩ => ⟨e.1, e.2, rest⟩, fun ⟨j, u, rest⟩ => ⟨(j, u), rest⟩⟩
  · intro ⟨j, u⟩ step
    obtain ⟨state, state', nonneg⟩ := valid j u step
    have sum : row j + (c j u + low) + row' (next j u) + (N + N' - low) =
        row j + N + c j u + (row' (next j u) + N') := by abel
    rw [sum]
    have first := (before.least j state).add_const nonneg
    refine (first.add (after.least _ state') ⟨?_, ?_⟩
      ⟨after.nonneg _ state', after.members _ state'⟩).congr fun t => ⟨?_, ?_⟩
    · exact add_nonneg (before.nonneg j state) nonneg
    · rintro t ⟨a, member, rfl⟩
      exact add_nonneg (before.members j state a member) nonneg
    · rintro ⟨_, ⟨a, left, rfl⟩, b, right, rfl⟩
      exact ⟨a, left, b, right, rfl⟩
    · rintro ⟨a, left, b, right, rfl⟩
      exact ⟨_, ⟨a, left, rfl⟩, b, right, rfl⟩

/-- Up to one constant the values are the least members of the sets, and those of empty sets are
greater than all others. -/
def Marginal (value : ι → M) (valid : ι → Prop) (P : ι → Set M) : Prop :=
  (∃ c, ∀ i, valid i → (P i).Nonempty → IsLeast (P i) (value i + c)) ∧
    ∀ i i', valid i → valid i' → (P i).Nonempty → ¬(P i').Nonempty → value i < value i'

variable {P : ι → Set M} {value : ι → M} {valid : ι → Prop}

omit [IsOrderedAddMonoid M] in
theorem Marginal.congr {value' : ι → M} (marginal : Marginal value valid P)
    (same : ∀ i, valid i → value' i = value i) : Marginal value' valid P := by
  obtain ⟨⟨c, least⟩, order⟩ := marginal
  refine ⟨⟨c, fun i inside some => ?_⟩, fun i i' inside inside' some none => ?_⟩
  · rw [same i inside]
    exact least i inside some
  · rw [same i inside, same i' inside']
    exact order i i' inside inside' some none

theorem Marginal.of_cappedLeast {c d : M} {Q : ι → Set M}
    (least : ∀ i, valid i → CappedLeast cap (Q i) (value i + c))
    (below : ∀ i, valid i → ∀ t ∈ Q i, t < cap) (shift : ∀ i t, t ∈ P i ↔ t - d ∈ Q i) :
    Marginal value valid P := by
  constructor
  · refine ⟨c + d, fun i isValid ⟨t, member⟩ => ?_⟩
    have inside := (shift i t).mp member
    have ⟨attained, bound⟩ := (least i isValid).isLeast inside (below i isValid _ inside)
    refine ⟨(shift i _).mpr ?_, fun u other => ?_⟩
    · rwa [← add_assoc, add_sub_cancel_right]
    · rw [← add_assoc]
      exact le_sub_iff_add_le.mp (bound ((shift i u).mp other))
  · intro i i' isValid isValid' ⟨t, member⟩ empty
    have inside := (shift i t).mp member
    have small := ((least i isValid).1 _ inside (below i isValid _ inside)).trans_lt
      (below i isValid _ inside)
    have large := (least i' isValid').cap_le fun u other =>
      empty ⟨u + d, (shift i' _).mpr (by rwa [add_sub_cancel_right])⟩
    exact lt_of_add_lt_add_right (small.trans_le large)

namespace Trellis

variable {T : Trellis V U M} {cap low norm offset : M} {row row' : V → M} {k n : Nat}

theorem forward (represents : Represents cap T.state (T.prefixes k) row offset)
    (costs : ∀ s u, T.state s → T.input u → 0 ≤ T.cost k s u)
    (capNonneg : 0 ≤ cap) (lowNonpos : low ≤ 0)
    (relaxed : ∀ j, T.state j → IsLeast (insert cap {x | ∃ s u, T.state s ∧ T.input u ∧
      T.next s u = j ∧ row s + (T.cost k s u + low) = x}) (row' j))
    (normed : IsLeast (insert cap {x | ∃ j, T.state j ∧ row' j = x}) norm) :
    Represents cap T.state (T.prefixes (k + 1)) (fun j => row' j - norm)
      (offset - low + norm) := by
  let E := fun j => {e : V × M | ∃ s u, T.state s ∧ T.input u ∧ T.next s u = j ∧
    (s, T.cost k s u) = e}
  refine represents.relax (E := E) capNonneg lowNonpos ?_ ?_ ?_ normed
  · rintro j valid e ⟨s, u, state, input, -, rfl⟩
    exact ⟨state, costs s u state input⟩
  · intro j t
    rw [mem_prefixes_succ]
    constructor
    · intro ⟨s, u, state, input, reached, rest⟩
      exact ⟨_, ⟨s, u, state, input, reached, rfl⟩, rest⟩
    · rintro ⟨e, ⟨s, u, state, input, reached, rfl⟩, rest⟩
      exact ⟨s, u, state, input, reached, rest⟩
  · intro j valid
    refine isLeast_insert_congr (relaxed j valid) fun x => ⟨?_, ?_⟩
    · intro ⟨s, u, state, input, reached, value⟩
      exact ⟨_, ⟨s, u, state, input, reached, rfl⟩, value⟩
    · rintro ⟨e, ⟨s, u, state, input, reached, rfl⟩, value⟩
      exact ⟨s, u, state, input, reached, value⟩

theorem backward (represents : Represents cap T.state (T.suffixes n (k + 1)) row offset)
    (costs : ∀ s u, T.state s → T.input u → 0 ≤ T.cost k s u)
    (capNonneg : 0 ≤ cap) (lowNonpos : low ≤ 0)
    (relaxed : ∀ j, T.state j → IsLeast (insert cap {x | ∃ u, T.input u ∧
      row (T.next j u) + (T.cost k j u + low) = x}) (row' j))
    (normed : IsLeast (insert cap {x | ∃ j, T.state j ∧ row' j = x}) norm) :
    Represents cap T.state (T.suffixes (n + 1) k) (fun j => row' j - norm)
      (offset - low + norm) := by
  let E := fun j => {e : V × M | ∃ u, T.input u ∧ (T.next j u, T.cost k j u) = e}
  refine represents.relax (E := E) capNonneg lowNonpos ?_ ?_ ?_ normed
  · rintro j valid e ⟨u, input, rfl⟩
    exact ⟨T.next_state valid input, costs j u valid input⟩
  · intro j t
    rw [mem_suffixes_succ]
    constructor
    · intro ⟨u, input, rest⟩
      exact ⟨_, ⟨u, input, rfl⟩, rest⟩
    · rintro ⟨e, ⟨u, input, rfl⟩, rest⟩
      exact ⟨u, input, rest⟩
  · intro j valid
    refine isLeast_insert_congr (relaxed j valid) fun x => ⟨?_, ?_⟩
    · intro ⟨u, input, value⟩
      exact ⟨_, ⟨u, input, rfl⟩, value⟩
    · rintro ⟨e, ⟨u, input, rfl⟩, value⟩
      exact ⟨u, input, value⟩

theorem through {P : V → U → Prop} {w : V → U → M} {x offset' : M}
    (before : Represents cap T.state (T.prefixes k) row offset)
    (after : Represents cap T.state (T.suffixes n (k + 1)) row' offset') (lowNonpos : low ≤ 0)
    (nonneg : ∀ j u, T.state j → T.input u → P j u → 0 ≤ T.cost k j u - w j u)
    (least : IsLeast (insert cap {x | ∃ j u, (T.state j ∧ T.input u ∧ P j u) ∧
      row j + (T.cost k j u - w j u + low) + row' (T.next j u) = x}) x) :
    CappedLeast cap {t | ∃ s us u, T.Path (k + 1 + n) s us ∧ us[k]? = some u ∧
      P (T.walk s (us.take k)) u ∧ T.weight 0 s us - w (T.walk s (us.take k)) u = t}
      (x + (offset + offset' - low)) := by
  have steps : ∀ j u, T.state j ∧ T.input u ∧ P j u →
      T.state j ∧ T.state (T.next j u) ∧ 0 ≤ T.cost k j u - w j u :=
    fun j u ⟨state, input, holds⟩ =>
      ⟨state, T.next_state state input, nonneg j u state input holds⟩
  refine (CappedLeast.through before after lowNonpos steps least).congr fun t => ?_
  refine Iff.trans ?_ path_through.symm
  simp only [Set.mem_ofPred_eq, and_assoc]

end Trellis

end GnuRadio
