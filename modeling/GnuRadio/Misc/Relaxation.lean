import Mathlib.Data.Finset.Card
import Mathlib.Data.Nat.Find
import Mathlib.Order.Bounds.Basic

/-!
# Distances to a goal, relaxed in place

The vertices are the numbers below `S`, and `next s u` is where the edge `u < I` of vertex `s`
leads. A column holds for each vertex a length, `S` as long as none is known, and the first edge
of a path of this length. A sweep visits the vertices in order and gives a vertex without a length
the least one that its neighbours have at that moment.
-/

namespace GnuRadio

namespace Relaxation

/-- The lengths and the first edges. -/
structure Column where
  len : ℕ → ℕ
  first : ℕ → ℤ

variable (I S : ℕ) (next : ℕ → ℕ → ℕ)

/-- The least length through a neighbour, and the edge to it. -/
def best (col : Column) (s : ℕ) : ℕ × ℤ :=
  (List.range I).foldl (fun (minl, mini) u =>
    if 1 + col.len (next s u) < minl then (1 + col.len (next s u), (u : ℤ)) else (minl, mini))
    (S, -1)

/-- A vertex without a length gets one from its neighbours. -/
def visit (col : Column) (s : ℕ) : Column :=
  if col.len s < S then col
  else
    let (minl, mini) := best I S next col s
    if mini ≠ -1 then ⟨Function.update col.len s minl, Function.update col.first s mini⟩ else col

/-- The first `j` visits of a sweep. -/
def visits (col : Column) (j : ℕ) : Column := (List.range j).foldl (visit I S next) col

/-- At first only the goal has a length. -/
def initial (goal : ℕ) : Column where
  len := fun s => if s = goal then 0 else S
  first := fun _ => -1

/-- The column after `k` sweeps. -/
def sweeps (goal : ℕ) : ℕ → Column
  | 0 => initial S goal
  | k + 1 => visits I S next (sweeps goal k) S

/-- A path of `n` edges. -/
inductive Steps (goal : ℕ) : ℕ → ℕ → Prop
  | goal : Steps goal 0 goal
  | cons {n s u : ℕ} (edge : u < I) (rest : Steps goal n (next s u)) : Steps goal (n + 1) s

/-- A vertex has a length after `k` sweeps: there is a path to the goal on which at most `k` edges
lead to a vertex that is not smaller, or to the goal. -/
inductive Sweeps (goal : ℕ) : ℕ → ℕ → Prop
  | goal {k : ℕ} : Sweeps goal k goal
  | down {k s u : ℕ} (edge : u < I) (smaller : next s u < s) (rest : Sweeps goal (k + 1) (next s u)) :
      Sweeps goal (k + 1) s
  | up {k s u : ℕ} (edge : u < I) (rest : Sweeps goal k (next s u)) : Sweeps goal (k + 1) s

/-- Vertex `t` has a length when `s` is visited in sweep number `k`. -/
def Before (goal k t s : ℕ) : Prop :=
  ∃ j, k = j + 1 ∧ (Sweeps I next goal j t ∨ t < s ∧ Sweeps I next goal k t)

variable {I S next} {goal k : ℕ}

variable {s t : ℕ} {col : Column}

theorem Sweeps.succ (set : Sweeps I next goal k s) : Sweeps I next goal (k + 1) s := by
  induction set with
  | goal => exact .goal
  | down edge smaller _ ih => exact .down edge smaller ih
  | up edge _ ih => exact .up edge ih

theorem Sweeps.mono {j : ℕ} (set : Sweeps I next goal k s) (le : k ≤ j) :
    Sweeps I next goal j s := by
  induction le with
  | refl => exact set
  | step _ ih => exact ih.succ

theorem Before.mono {j : ℕ} (before : Before I next goal k t s) (le : k ≤ j) :
    Before I next goal j t s := by
  obtain ⟨i, rfl, early⟩ := before
  refine ⟨j - 1, by omega, ?_⟩
  rcases early with earlier | ⟨smaller, same⟩
  · exact Or.inl (earlier.mono (by omega))
  · exact Or.inr ⟨smaller, same.mono le⟩

theorem sweeps_succ_iff : Sweeps I next goal (k + 1) s ↔
    s = goal ∨ ∃ u < I, Before I next goal (k + 1) (next s u) s := by
  constructor
  · intro set
    cases set with
    | goal => exact Or.inl rfl
    | down edge smaller rest => exact Or.inr ⟨_, edge, k, rfl, Or.inr ⟨smaller, rest⟩⟩
    | up edge rest => exact Or.inr ⟨_, edge, k, rfl, Or.inl rest⟩
  · rintro (rfl | ⟨u, edge, j, same, early⟩)
    · exact .goal
    · obtain rfl := Nat.succ_inj.mp same
      rcases early with earlier | ⟨smaller, rest⟩
      · exact .up edge earlier
      · exact .down edge smaller rest

theorem Steps.sweeps {n : ℕ} (path : Steps I next goal n s) : Sweeps I next goal n s := by
  induction path with
  | goal => exact .goal
  | cons edge _ ih => exact .up edge ih

/-! ## One visit -/

variable (I S next) in
theorem best_spec (col : Column) (s : ℕ) :
    (best I S next col s = (S, -1) ∧ ∀ u < I, S ≤ 1 + col.len (next s u)) ∨
      ∃ u < I, best I S next col s = (1 + col.len (next s u), (u : ℤ)) ∧
        1 + col.len (next s u) < S ∧
        ∀ v < I, 1 + col.len (next s u) ≤ 1 + col.len (next s v) := by
  unfold best
  induction I with
  | zero => exact Or.inl ⟨rfl, fun u none => absurd none (Nat.not_lt_zero u)⟩
  | succ I ih =>
    rw [List.range_succ, List.foldl_append, List.foldl_cons, List.foldl_nil]
    rcases ih with ⟨same, unset⟩ | ⟨u, edge, same, small, least⟩
    · rw [same]
      dsimp only
      split
      · rename_i first
        refine Or.inr ⟨I, Nat.lt_succ_self I, rfl, first, fun v below => ?_⟩
        rcases Nat.lt_succ_iff_lt_or_eq.mp below with earlier | rfl
        · exact first.le.trans (unset v earlier)
        · exact le_rfl
      · rename_i none
        refine Or.inl ⟨rfl, fun v below => ?_⟩
        rcases Nat.lt_succ_iff_lt_or_eq.mp below with earlier | rfl
        · exact unset v earlier
        · exact not_lt.mp none
    · rw [same]
      dsimp only
      split
      · rename_i better
        refine Or.inr ⟨I, Nat.lt_succ_self I, rfl, better.trans small, fun v below => ?_⟩
        rcases Nat.lt_succ_iff_lt_or_eq.mp below with earlier | rfl
        · exact better.le.trans (least v earlier)
        · exact le_rfl
      · rename_i worse
        refine Or.inr ⟨u, Nat.lt_succ_of_lt edge, rfl, small, fun v below => ?_⟩
        rcases Nat.lt_succ_iff_lt_or_eq.mp below with earlier | rfl
        · exact least v earlier
        · exact not_lt.mp worse

variable (I S next) in
theorem visit_cases (col : Column) (s : ℕ) :
    (visit I S next col s = col ∧ (col.len s < S ∨ ∀ u < I, S ≤ 1 + col.len (next s u))) ∨
      ∃ u < I, S ≤ col.len s ∧ visit I S next col s =
          ⟨Function.update col.len s (1 + col.len (next s u)), Function.update col.first s u⟩ ∧
        1 + col.len (next s u) < S ∧
        ∀ v < I, 1 + col.len (next s u) ≤ 1 + col.len (next s v) := by
  unfold visit
  by_cases set : col.len s < S
  · exact Or.inl ⟨if_pos set, Or.inl set⟩
  · rw [if_neg set]
    rcases best_spec I S next col s with
      ⟨same, unset⟩ | ⟨u, edge, same, small, least⟩
    · refine Or.inl ⟨?_, Or.inr unset⟩
      rw [same]
      rfl
    · refine Or.inr ⟨u, edge, not_lt.mp set, ?_, small, least⟩
      rw [same]
      exact if_pos (by omega)

theorem visit_keeps (set : col.len t < S) (s : ℕ) :
    (visit I S next col s).len t = col.len t ∧ (visit I S next col s).first t = col.first t := by
  rcases visit_cases I S next col s with
    ⟨same, -⟩ | ⟨u, -, unset, same, -⟩
  · rw [same]
    exact ⟨rfl, rfl⟩
  · have other : t ≠ s := by
      rintro rfl
      omega
    rw [same]
    exact ⟨Function.update_of_ne other _ _, Function.update_of_ne other _ _⟩

/-! ## What holds of every column -/

variable (S) in
/-- The vertices with a length. -/
def known (col : Column) : Finset ℕ := (Finset.range S).filter fun t => col.len t < S

variable (I S next goal) in
/-- Every length is that of a path, whose first edge stands in the column, and it is less than
the number of vertices that have one. -/
structure Sound (col : Column) : Prop where
  goal_len : col.len goal = 0
  most : ∀ t, col.len t ≤ S
  bounded : ∀ t < S, col.len t < S → col.len t < (known S col).card
  path : ∀ t < S, col.len t < S → Steps I next goal (col.len t) t
  edge : ∀ t < S, t ≠ goal → col.len t < S →
    ∃ u < I, col.first t = u ∧ col.len (next t u) < S ∧ col.len t = 1 + col.len (next t u)

theorem mem_known : t ∈ known S col ↔ t < S ∧ col.len t < S := by
  rw [known, Finset.mem_filter, Finset.mem_range]

theorem sound_initial (pos : 0 < S) : Sound I S next goal (initial S goal) where
  goal_len := if_pos rfl
  most t := by
    by_cases here : t = goal
    · simp [initial, here]
    · simp [initial, here]
  bounded t below set := by
    obtain rfl : t = goal := by
      by_contra other
      simp [initial, other] at set
    have start : (initial S t).len t = 0 := if_pos rfl
    rw [start]
    exact Finset.card_pos.mpr ⟨t, mem_known.mpr ⟨below, by rw [start]; exact pos⟩⟩
  path t _ set := by
    obtain rfl : t = goal := by
      by_contra other
      simp [initial, other] at set
    have start : (initial S t).len t = 0 := if_pos rfl
    rw [start]
    exact .goal
  edge t _ other set := by simp [initial, other] at set

theorem known_lt (below : s < S) (unset : S ≤ col.len s) : (known S col).card < S := by
  have strict : known S col ⊂ Finset.range S := by
    refine Finset.ssubset_iff_subset_ne.mpr ⟨Finset.filter_subset _ _, fun same => ?_⟩
    have member : s ∈ known S col := same ▸ Finset.mem_range.mpr below
    have set := (mem_known.mp member).2
    omega
  simpa using Finset.card_lt_card strict

theorem Sound.visit (sound : Sound I S next goal col) (below : s < S)
    (closed : ∀ s < S, ∀ u < I, next s u < S) : Sound I S next goal (visit I S next col s) := by
  rcases visit_cases I S next col s with
    ⟨same, -⟩ | ⟨u, edge, unset, same, small, -⟩
  · rwa [same]
  · have other : ∀ t, col.len t < S → t ≠ s := by
      rintro t set rfl
      omega
    have target := closed s below u edge
    have keeps : ∀ t, col.len t < S →
        Function.update col.len s (1 + col.len (next s u)) t = col.len t := fun t set =>
      Function.update_of_ne (other t set) _ _
    have neighbour : col.len (next s u) < S := by omega
    rw [same]
    -- the vertices with a length after the visit
    have more : known S ⟨Function.update col.len s (1 + col.len (next s u)),
        Function.update col.first s u⟩ = insert s (known S col) := by
      ext t
      rw [mem_known, Finset.mem_insert, mem_known]
      by_cases here : t = s
      · subst here
        simp [below, small]
      · simp [here]
    have count : (insert s (known S col)).card = (known S col).card + 1 :=
      Finset.card_insert_of_notMem fun member => other s (mem_known.mp member).2 rfl
    refine ⟨?_, fun t => ?_, fun t inside set => ?_, fun t inside set => ?_,
      fun t inside elsewhere set => ?_⟩
    · show Function.update col.len s _ goal = 0
      rw [keeps goal (by rw [sound.goal_len]; omega), sound.goal_len]
    · by_cases here : t = s
      · subst here
        simpa only [Function.update_self] using small.le
      · simpa only [Function.update_of_ne here] using sound.most t
    · rw [more, count]
      by_cases here : t = s
      · subst here
        have bound := sound.bounded _ target neighbour
        simp only [Function.update_self]
        omega
      · simp only [Function.update_of_ne here] at set ⊢
        exact (sound.bounded t inside set).trans (Nat.lt_succ_self _)
    · by_cases here : t = s
      · subst here
        simp only [Function.update_self]
        rw [Nat.add_comm]
        exact .cons edge (sound.path _ target neighbour)
      · simp only [Function.update_of_ne here] at set ⊢
        exact sound.path t inside set
    · by_cases here : t = s
      · subst here
        exact ⟨u, edge, Function.update_self _ _ _, by
          simpa only [keeps _ neighbour] using neighbour, by
          simp only [Function.update_self, keeps _ neighbour]⟩
      · simp only [Function.update_of_ne here] at set ⊢
        obtain ⟨v, edge', first, set', length⟩ := sound.edge t inside elsewhere set
        exact ⟨v, edge', first, by rwa [keeps _ set'], by rw [keeps _ set', length]⟩

theorem Sound.visit_set (sound : Sound I S next goal col) (below : s < S)
    (closed : ∀ s < S, ∀ u < I, next s u < S) (t : ℕ) :
    (Relaxation.visit I S next col s).len t < S ↔
      col.len t < S ∨ t = s ∧ ∃ u < I, col.len (next s u) < S := by
  rcases visit_cases I S next col s with
    ⟨same, none⟩ | ⟨u, edge, unset, same, small, -⟩
  · rw [same]
    constructor
    · exact Or.inl
    · intro either
      rcases either with set | ⟨rfl, u, edge, set⟩
      · exact set
      · rcases none with set | unset
        · exact set
        · by_contra without
          -- a vertex without a length keeps the others short
          have room := known_lt below (not_lt.mp without)
          have short := sound.bounded _ (closed t below u edge) set
          have := unset u edge
          omega
  · rw [same]
    by_cases here : t = s
    · subst here
      have neighbour : col.len (next t u) < S := by omega
      have now : Function.update col.len t (1 + col.len (next t u)) t < S := by
        rwa [Function.update_self]
      exact ⟨fun _ => Or.inr ⟨rfl, u, edge, neighbour⟩, fun _ => now⟩
    · simp [here]

/-! ## The sweeps -/

theorem visits_zero (col : Column) : visits I S next col 0 = col := rfl

theorem visits_succ (col : Column) (j : ℕ) :
    visits I S next col (j + 1) = visit I S next (visits I S next col j) j := by
  simp [visits, List.range_succ]

section Closed

variable (closed : ∀ s < S, ∀ u < I, next s u < S)

variable {col : Column} {j t s n : ℕ}

theorem Sound.visits (sound : Sound I S next goal col) (closed : ∀ s < S, ∀ u < I, next s u < S)
    (within : j ≤ S) : Sound I S next goal (visits I S next col j) := by
  induction j with
  | zero => exact sound
  | succ j ih =>
    rw [visits_succ]
    exact (ih (Nat.le_of_succ_le within)).visit within closed

variable (goal) in
include closed in
theorem sound_sweeps (pos : 0 < S) (k : ℕ) : Sound I S next goal (sweeps I S next goal k) := by
  induction k with
  | zero => exact sound_initial pos
  | succ k ih => exact ih.visits closed le_rfl

theorem visits_keep (set : (visits I S next col j).len t < S) (more : ℕ) :
    (visits I S next col (j + more)).len t = (visits I S next col j).len t := by
  induction more with
  | zero => rfl
  | succ more ih =>
    rw [← Nat.add_assoc, visits_succ, (visit_keeps (ih ▸ set) _).1, ih]

theorem sweeps_keep (within : j ≤ S) (set : (visits I S next (sweeps I S next goal k) j).len t < S)
    (more : ℕ) :
    (sweeps I S next goal (k + 1 + more)).len t =
      (visits I S next (sweeps I S next goal k) j).len t := by
  induction more with
  | zero =>
    obtain ⟨rest, total⟩ := Nat.exists_eq_add_of_le within
    have kept := visits_keep set rest
    rw [← total] at kept
    exact kept
  | succ more ih =>
    have still : (visits I S next (sweeps I S next goal (k + 1 + more)) 0).len t < S := by
      rwa [visits_zero, ih]
    have kept := visits_keep still S
    rw [Nat.zero_add, visits_zero, ih] at kept
    exact kept

theorem sweeps_full (full : ∀ t < S, (sweeps I S next goal k).len t < S) (more : ℕ) :
    sweeps I S next goal (k + more) = sweeps I S next goal k := by
  have still : ∀ j ≤ S, visits I S next (sweeps I S next goal k) j = sweeps I S next goal k := by
    intro j
    induction j with
    | zero => exact fun _ => rfl
    | succ j ih =>
      intro within
      rw [visits_succ, ih (Nat.le_of_succ_le within), visit, if_pos (full j within)]
  induction more with
  | zero => rfl
  | succ more ih =>
    rw [← Nat.add_assoc, sweeps, ih]
    exact still S le_rfl

theorem before_succ_iff : Before I next goal (k + 1) t s ↔
    if t < s then Sweeps I next goal (k + 1) t else Sweeps I next goal k t := by
  constructor
  · intro ⟨j, same, early⟩
    obtain rfl := Nat.succ_inj.mp same
    split
    · rcases early with earlier | ⟨-, this⟩
      · exact earlier.succ
      · exact this
    · rename_i notSmaller
      rcases early with earlier | ⟨smaller, -⟩
      · exact earlier
      · exact absurd smaller notSmaller
  · intro early
    split at early
    · rename_i smaller
      exact ⟨k, rfl, Or.inr ⟨smaller, early⟩⟩
    · exact ⟨k, rfl, Or.inl early⟩

include closed in
theorem visits_set_iff (pos : 0 < S)
    (start : ∀ t < S, (sweeps I S next goal k).len t < S ↔ Sweeps I next goal k t) (within : j ≤ S)
    (below : t < S) :
    (visits I S next (sweeps I S next goal k) j).len t < S ↔
      Before I next goal (k + 1) t j := by
  induction j generalizing t with
  | zero =>
    rw [visits_zero, before_succ_iff, if_neg (Nat.not_lt_zero t)]
    exact start t below
  | succ j ih =>
    have inside : j < S := within
    have now := fun t (below : t < S) => ih inside.le below
    have sound := (sound_sweeps goal closed pos k).visits closed inside.le
    rw [visits_succ, sound.visit_set inside closed, now t below, before_succ_iff, before_succ_iff]
    by_cases here : t = j
    · subst here
      rw [if_neg (Nat.lt_irrefl t), if_pos (Nat.lt_succ_self t), sweeps_succ_iff]
      constructor
      · intro either
        rcases either with earlier | ⟨-, u, edge, set⟩
        · exact sweeps_succ_iff.mp earlier.succ
        · exact Or.inr ⟨u, edge, (now _ (closed t inside u edge)).mp set⟩
      · intro either
        rcases either with rfl | ⟨u, edge, before⟩
        · exact Or.inl .goal
        · exact Or.inr ⟨rfl, u, edge, (now _ (closed t inside u edge)).mpr before⟩
    · have same : t < j + 1 ↔ t < j := by omega
      simp [here, same]

variable (goal) in
include closed in
theorem sweeps_set_iff (pos : 0 < S) (k : ℕ) :
    ∀ t < S, (sweeps I S next goal k).len t < S ↔ Sweeps I next goal k t := by
  induction k with
  | zero =>
    intro t below
    constructor
    · intro set
      have here : t = goal := by
        by_contra other
        simp [sweeps, initial, other] at set
      exact here ▸ .goal
    · intro set
      cases set
      simpa [sweeps, initial] using pos
  | succ k ih =>
    intro t below
    have last := visits_set_iff closed pos ih le_rfl below
    rwa [before_succ_iff, if_pos below] at last

/-! ## The distances -/

variable (I next goal) in
/-- The length of the shortest paths. -/
def Distance (n s : ℕ) : Prop := Steps I next goal n s ∧ ∀ m, Steps I next goal m s → n ≤ m

theorem Distance.unique {m : ℕ} (one : Distance I next goal m s)
    (other : Distance I next goal n s) : m = n :=
  Nat.le_antisymm (one.2 n other.1) (other.2 m one.1)

theorem Steps.distance {m : ℕ} (path : Steps I next goal m s) : ∃ n, Distance I next goal n s := by
  classical
  have some : ∃ n, Steps I next goal n s := ⟨m, path⟩
  exact ⟨Nat.find some, Nat.find_spec some, fun n other => Nat.find_min' some other⟩

theorem Distance.cases (shortest : Distance I next goal n s) :
    n = 0 ∧ s = goal ∨
      ∃ m, n = m + 1 ∧ s ≠ goal ∧ ∃ u < I, Distance I next goal m (next s u) := by
  obtain ⟨path, least⟩ := shortest
  cases path with
  | goal => exact Or.inl ⟨rfl, rfl⟩
  | @cons m s u edge rest =>
    refine Or.inr ⟨m, rfl, ?_, u, edge, rest, fun n other => ?_⟩
    · rintro rfl
      exact absurd (least 0 .goal) (Nat.not_succ_le_zero m)
    · exact Nat.le_of_succ_le_succ (least (n + 1) (.cons edge other))

include closed in
theorem Distance.layers (shortest : Distance I next goal n s) (below : s < S) :
    ∃ nearer : Finset ℕ, n + 1 ≤ nearer.card ∧
      ∀ t ∈ nearer, t < S ∧ ∃ m ≤ n, Distance I next goal m t := by
  induction n generalizing s with
  | zero =>
    refine ⟨{s}, by simp, fun t member => ?_⟩
    obtain rfl := Finset.mem_singleton.mp member
    exact ⟨below, 0, le_rfl, shortest⟩
  | succ n ih =>
    rcases shortest.cases with ⟨none, -⟩ | ⟨m, same, -, u, edge, rest⟩
    · exact absurd none (Nat.succ_ne_zero n)
    · obtain rfl := Nat.succ_inj.mp same
      obtain ⟨nearer, many, inside⟩ := ih rest (closed s below u edge)
      have outside : s ∉ nearer := by
        intro member
        obtain ⟨-, m, small, other⟩ := inside s member
        have := other.unique shortest
        omega
      refine ⟨insert s nearer, ?_, fun t member => ?_⟩
      · rw [Finset.card_insert_of_notMem outside]
        omega
      · rcases Finset.mem_insert.mp member with rfl | earlier
        · exact ⟨below, n + 1, le_rfl, shortest⟩
        · obtain ⟨lower, m, small, other⟩ := inside t earlier
          exact ⟨lower, m, Nat.le_succ_of_le small, other⟩

include closed in
theorem Distance.lt (shortest : Distance I next goal n s) (below : s < S) : n < S := by
  obtain ⟨nearer, many, inside⟩ := shortest.layers closed below
  have within : nearer ⊆ Finset.range S := fun t member => Finset.mem_range.mpr (inside t member).1
  have few := Finset.card_le_card within
  rw [Finset.card_range] at few
  omega

/-! ## The lengths at the end -/

variable (I S next goal) in
/-- The column after the last sweep. -/
def final : Column := sweeps I S next goal (S - 1)

variable (goal) in
include closed in
theorem final_set_iff (pos : 0 < S) (below : s < S) :
    (final I S next goal).len s < S ↔ ∃ n, Steps I next goal n s := by
  constructor
  · intro set
    exact ⟨_, (sound_sweeps goal closed pos (S - 1)).path s below set⟩
  · intro ⟨m, path⟩
    obtain ⟨n, shortest⟩ := path.distance
    have short := shortest.lt closed below
    exact (sweeps_set_iff goal closed pos _ s below).mpr (shortest.1.sweeps.mono (by omega))

variable (I S next goal) in
/-- A vertex gets its length in sweep number `k + 1`, over edge `u`: one more than the least of the
lengths that its neighbours have at that moment. -/
structure Settled (s k u : ℕ) : Prop where
  set : Sweeps I next goal (k + 1) s
  unset : ¬Sweeps I next goal k s
  edge : u < I
  before : Before I next goal (k + 1) (next s u) s
  length : (final I S next goal).len s = 1 + (final I S next goal).len (next s u)
  least : ∀ v < I, Before I next goal (k + 1) (next s v) s →
    (final I S next goal).len s ≤ 1 + (final I S next goal).len (next s v)

theorem sweeps_first (set : Sweeps I next goal j s) (other : s ≠ goal) :
    ∃ k < j, Sweeps I next goal (k + 1) s ∧ ¬Sweeps I next goal k s := by
  induction j with
  | zero =>
    cases set
    exact absurd rfl other
  | succ j ih =>
    by_cases earlier : Sweeps I next goal j s
    · obtain ⟨k, less, first⟩ := ih earlier
      exact ⟨k, Nat.lt_succ_of_lt less, first⟩
    · exact ⟨j, Nat.lt_succ_self j, set, earlier⟩

include closed in
theorem settled (below : s < S) (set : (final I S next goal).len s < S) (other : s ≠ goal) :
    ∃ k u, Settled I S next goal s k u := by
  have pos : 0 < S := Nat.zero_lt_of_lt below
  obtain ⟨k, less, now, notYet⟩ :=
    sweeps_first ((sweeps_set_iff goal closed pos _ s below).mp set) other
  obtain ⟨more, last⟩ : ∃ more, S - 1 = k + 1 + more := ⟨S - 1 - (k + 1), by omega⟩
  have start := sweeps_set_iff goal closed pos k
  -- what stands in the column before and after the visit stays
  have early : ∀ t < S, Before I next goal (k + 1) t s →
      (visits I S next (sweeps I S next goal k) s).len t < S ∧ (final I S next goal).len t =
        (visits I S next (sweeps I S next goal k) s).len t := by
    intro t inside before
    have there := (visits_set_iff closed pos start below.le inside).mpr before
    rw [final, last]
    exact ⟨there, sweeps_keep below.le there more⟩
  have after : (visits I S next (sweeps I S next goal k) (s + 1)).len s < S := by
    rw [visits_set_iff closed pos start below below, before_succ_iff, if_pos (Nat.lt_succ_self s)]
    exact now
  have kept : (final I S next goal).len s =
      (visits I S next (sweeps I S next goal k) (s + 1)).len s := by
    rw [final, last]
    exact sweeps_keep below after more
  rw [visits_succ] at after kept
  rcases visit_cases I S next
      (visits I S next (sweeps I S next goal k) s) s with ⟨same, -⟩ | ⟨u, edge, -, same, small, least⟩
  · rw [same, visits_set_iff closed pos start below.le below, before_succ_iff,
      if_neg (Nat.lt_irrefl s)] at after
    exact absurd after notYet
  · rw [same] at kept
    simp only [Function.update_self] at kept
    have target := closed s below u edge
    have before : Before I next goal (k + 1) (next s u) s :=
      (visits_set_iff closed pos start below.le target).mp (by omega)
    refine ⟨k, u, now, notYet, edge, before, ?_, fun v edge' before' => ?_⟩
    · rw [kept, (early _ target before).2]
    · rw [kept, (early _ (closed s below v edge') before').2]
      exact least v edge'

variable (I next goal) in
/-- The first vertex of some shortest path has its length in time. -/
def InTime (s : ℕ) : Prop :=
  ∃ u < I, ∃ n, Distance I next goal n (next s u) ∧ Distance I next goal (n + 1) s ∧
    ∀ k, Sweeps I next goal k s → Before I next goal k (next s u) s

include closed in
theorem Distance.final (shortest : Distance I next goal n s) (below : s < S)
    (inTime : ∀ s < S, s ≠ goal → (∃ n, Steps I next goal n s) → InTime I next goal s) :
    (Relaxation.final I S next goal).len s = n := by
  have pos : 0 < S := Nat.zero_lt_of_lt below
  have sound := sound_sweeps goal closed pos (S - 1)
  induction n generalizing s with
  | zero =>
    rcases shortest.cases with ⟨-, rfl⟩ | ⟨m, none, -⟩
    · exact sound.goal_len
    · exact absurd none.symm (Nat.succ_ne_zero m)
  | succ n ih =>
    have other : s ≠ goal := by
      rintro rfl
      exact absurd (shortest.2 0 .goal) (Nat.not_succ_le_zero n)
    have set := (final_set_iff goal closed pos below).mpr ⟨_, shortest.1⟩
    obtain ⟨u, edge, m, first, same, before⟩ := inTime s below other ⟨_, shortest.1⟩
    obtain rfl : m = n := Nat.succ_inj.mp (same.unique shortest)
    obtain ⟨k, v, now⟩ := settled closed below set other
    have atMost := now.least u edge (before _ now.set)
    rw [ih first (closed s below u edge)] at atMost
    have atLeast := shortest.2 _ (sound.path s below set)
    exact Nat.le_antisymm (by omega) atLeast

variable (goal) in
include closed in
theorem distances_iff : (∀ s < S, (∃ n, Steps I next goal n s) →
      Distance I next goal ((final I S next goal).len s) s) ↔
    ∀ s < S, s ≠ goal → (∃ n, Steps I next goal n s) → InTime I next goal s := by
  constructor
  · intro lengths s below other reached
    have pos : 0 < S := Nat.zero_lt_of_lt below
    have set := (final_set_iff goal closed pos below).mpr reached
    obtain ⟨k, u, now⟩ := settled closed below set other
    have target := closed s below u now.edge
    have rest := (final_set_iff goal closed pos target).mp (by have := now.length; omega)
    refine ⟨u, now.edge, _, lengths _ target rest, ?_, fun j set => ?_⟩
    · rw [Nat.add_comm, ← now.length]
      exact lengths s below reached
    · refine now.before.mono ?_
      by_contra sooner
      exact now.unset (set.mono (by omega))
  · intro inTime s below reached
    obtain ⟨m, path⟩ := reached
    obtain ⟨n, shortest⟩ := path.distance
    rw [shortest.final closed below inTime]
    exact shortest

end Closed

end Relaxation

end GnuRadio
