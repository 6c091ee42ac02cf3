import GnuRadio.Misc.Rearrangement

/-!
# Quicksort with an index

`quicksort_index` sorts keys in place and moves an index with each of them. There is no result where
the code would read or write beside a vector.
-/

namespace GnuRadio

variable {T : Type}

/-- The two vectors. -/
structure Keyed (T : Type) where
  p : List T
  index : List Int
  deriving DecidableEq, Repr

namespace Keyed

/-- `SWAP` at the same places of both vectors. -/
def swap (v : Keyed T) (i j : Int) : Option (Keyed T) := do
  let p ← vectorSwap v.p i j
  let index ← vectorSwap v.index i j
  return ⟨p, index⟩

/-- Both vectors are rearranged in the same way, between two places. -/
def Moved (left right : Int) (v v' : Keyed T) : Prop :=
  ∃ σ, FixesOutside left right σ ∧ Rearranged σ v.p v'.p ∧ Rearranged σ v.index v'.index

namespace Moved

variable {left right : Int} {v v' v'' : Keyed T}

theorem refl (left right : Int) (v : Keyed T) : Moved left right v v :=
  ⟨1, FixesOutside.one left right, Rearranged.refl v.p, Rearranged.refl v.index⟩

theorem trans (first : Moved left right v v') (second : Moved left right v' v'') :
    Moved left right v v'' := by
  obtain ⟨σ, within, keys, indices⟩ := first
  obtain ⟨τ, within', keys', indices'⟩ := second
  exact ⟨σ * τ, within.mul within', keys.trans keys', indices.trans indices'⟩

theorem mono (moved : Moved left right v v') {left' right' : Int} (first : left' ≤ left)
    (second : right ≤ right') : Moved left' right' v v' := by
  obtain ⟨σ, within, both⟩ := moved
  exact ⟨σ, within.mono first second, both⟩

theorem length (moved : Moved left right v v') :
    v'.p.length = v.p.length ∧ v'.index.length = v.index.length := by
  obtain ⟨σ, -, keys, indices⟩ := moved
  exact ⟨keys.1, indices.1⟩

end Moved

variable {v v' : Keyed T} {i j right left j' : Int} {p : List T} {pivot : T}

theorem swap_spec (same : v.index.length = v.p.length) (least : 0 ≤ i) (most : i < v.p.length)
    (least' : 0 ≤ j) (most' : j < v.p.length) :
    ∃ v', v.swap i j = some v' ∧ Rearranged (Equiv.swap i j) v.p v'.p ∧
      Rearranged (Equiv.swap i j) v.index v'.index := by
  obtain ⟨p, keys, moved⟩ := vectorSwap_spec least most least' most'
  rw [← same] at most most'
  obtain ⟨index, indices, moved'⟩ := vectorSwap_spec least most least' most'
  exact ⟨⟨p, index⟩, by rw [swap, keys, indices]; rfl, moved, moved'⟩

/-! ## The algorithm -/

variable [LinearOrder T]

/-- The first inner loop (`quicksort_index.cc:45-47`), which ends at the place that it returns. -/
def scanUp (p : List T) (pivot : T) (right i : Int) : Option Int :=
  match vectorAt p (i + 1) with
  | none => none
  | some key => if key < pivot ∧ i + 1 < right then scanUp p pivot right (i + 1) else some (i + 1)
termination_by (right - i).toNat

/-- The second inner loop (`quicksort_index.cc:48-50`). -/
def scanDown (p : List T) (pivot : T) (left j : Int) : Option Int :=
  match vectorAt p (j - 1) with
  | none => none
  | some key => if pivot < key ∧ left < j - 1 then scanDown p pivot left (j - 1) else some (j - 1)
termination_by (j - left).toNat

theorem lt_of_scanUp {i' : Int} (scanned : scanUp p pivot right i = some i') : i < i' := by
  fun_induction scanUp p pivot right i with
  | case1 => cases scanned
  | case2 i key there more ih => exact (Int.lt_succ i).trans (ih scanned)
  | case3 i key there last =>
    obtain rfl := Option.some.inj scanned
    exact Int.lt_succ i

theorem scanDown_lt (scanned : scanDown p pivot left j = some j') : j' < j := by
  fun_induction scanDown p pivot left j with
  | case1 => cases scanned
  | case2 j key there more ih =>
    have further := ih scanned
    omega
  | case3 j key there last =>
    obtain rfl := Option.some.inj scanned
    omega

/-- The outer loop (`quicksort_index.cc:44-55`), with the last value of `j`. -/
def partitionLoop (pivot : T) (left right : Int) (v : Keyed T) (i j : Int) :
    Option (Keyed T × Int) :=
  match _up : scanUp v.p pivot right i with
  | none => none
  | some i' =>
      match _down : scanDown v.p pivot left j with
      | none => none
      | some j' =>
          if _more : i' < j' then
            match v.swap i' j' with
            | none => none
            | some v => partitionLoop pivot left right v i' j'
          else some (v, j')
termination_by (j - i).toNat
decreasing_by
  have first := lt_of_scanUp _up
  have second := scanDown_lt _down
  omega

/-- The keys on the two sides of the pivot, with the place of the pivot. -/
def partition (v : Keyed T) (left right : Int) : Option (Keyed T × Int) := do
  let pivot ← vectorAt v.p left
  let (v, j) ← partitionLoop pivot left right v left (right + 1)
  let v ← v.swap left j
  return (v, j)

theorem le_of_scanDown (scanned : scanDown p pivot left j = some j') (above : left < j) :
    left ≤ j' := by
  fun_induction scanDown p pivot left j with
  | case1 => cases scanned
  | case2 j key there more ih => exact ih scanned more.2
  | case3 j key there last =>
    obtain rfl := Option.some.inj scanned
    omega

theorem partitionLoop_eq (pivot : T) (left right : Int) (v : Keyed T) (i j : Int) :
    partitionLoop pivot left right v i j =
      (scanUp v.p pivot right i).bind fun i' => (scanDown v.p pivot left j).bind fun j' =>
        if i' < j' then
          (v.swap i' j').bind fun v => partitionLoop pivot left right v i' j'
        else some (v, j') := by
  rw [partitionLoop]
  split
  · rename_i up
    rw [up, Option.bind_none]
  · rename_i i' up
    rw [up, Option.bind_some]
    split
    · rename_i down
      rw [down, Option.bind_none]
    · rename_i j' down
      rw [down, Option.bind_some]
      split
      · cases v.swap i' j' <;> rfl
      · rfl

theorem partitionLoop_bounds (looped : partitionLoop pivot left right v i j = some (v', j'))
    (least : left ≤ i) (above : left < j) : left ≤ j' ∧ j' < j := by
  fun_induction partitionLoop pivot left right v i j with
  | case1 => cases looped
  | case2 => cases looped
  | case3 => cases looped
  | case4 v i j i' up j' down more v'' swapped ih =>
    have first := lt_of_scanUp up
    have second := scanDown_lt down
    have further := ih looped (by omega) (by omega)
    omega
  | case5 v i j i' up j' down last =>
    obtain ⟨rfl, rfl⟩ := Prod.mk.inj (Option.some.inj looped)
    exact ⟨le_of_scanDown down above, scanDown_lt down⟩

theorem partition_bounds (parted : partition v left right = some (v', j)) (less : left < right) :
    left ≤ j ∧ j ≤ right := by
  simp only [partition, Option.bind_eq_bind, Option.bind_eq_some_iff, Prod.exists] at parted
  obtain ⟨pivot, -, u, j', looped, w, -, same⟩ := parted
  obtain ⟨-, rfl⟩ := Prod.mk.inj (Option.some.inj same)
  have bounds := partitionLoop_bounds looped le_rfl (by omega)
  omega

/-- `quicksort_index` (`quicksort_index.cc:35-61`). -/
def quicksortIndex (v : Keyed T) (left right : Int) : Option (Keyed T) :=
  if _less : left < right then
    match _parted : partition v left right with
    | none => none
    | some (v, j) =>
        match quicksortIndex v left (j - 1) with
        | none => none
        | some v => quicksortIndex v (j + 1) right
  else some v
termination_by (right - left).toNat
decreasing_by
  all_goals
    have bounds := partition_bounds _parted _less
    omega

theorem quicksortIndex_eq (v : Keyed T) (left right : Int) : quicksortIndex v left right =
    if left < right then
      (partition v left right).bind fun (v, j) =>
        (quicksortIndex v left (j - 1)).bind fun v => quicksortIndex v (j + 1) right
    else some v := by
  rw [quicksortIndex]
  split
  · split
    · rename_i parted
      rw [parted, Option.bind_none]
    · rename_i u j parted
      rw [parted, Option.bind_some]
      dsimp only
      cases quicksortIndex u left (j - 1) <;> rfl
  · rfl

/-! ## The inner loops -/

theorem scanUp_spec (pivot : T) (least : 0 ≤ i + 1) (most : i + 1 ≤ right)
    (inside : right < p.length) :
    ∃ i', scanUp p pivot right i = some i' ∧ i' ≤ right ∧
      HoldsBetween (· ≤ pivot) p (i + 1) (i' - 1) ∧
      (i' = right ∨ HoldsBetween (pivot ≤ ·) p i' i') := by
  fun_induction scanUp p pivot right i with
  | case1 i none =>
    obtain ⟨key, there⟩ := exists_vectorAt least (most.trans_lt inside)
    exact absurd (there.symm.trans none) (by simp)
  | case2 i key there more ih =>
    obtain ⟨i', scanned, within, passed, stops⟩ := ih (by omega) (by omega)
    refine ⟨i', scanned, within, ?_, stops⟩
    intro k a from_ to_ here
    rcases eq_or_lt_of_le from_ with rfl | later
    · obtain rfl := Option.some.inj (there.symm.trans here)
      exact more.1.le
    · exact passed k a (by omega) to_ here
  | case3 i key there last =>
    refine ⟨i + 1, rfl, most, ?_, ?_⟩
    · intro k a from_ to_ _
      omega
    · by_cases border : i + 1 = right
      · exact Or.inl border
      · refine Or.inr fun k a from_ to_ here => ?_
        obtain rfl : k = i + 1 := by omega
        obtain rfl := Option.some.inj (there.symm.trans here)
        exact not_lt.mp fun below => last ⟨below, by omega⟩

theorem scanDown_spec (pivot : T) (least : 0 ≤ left) (most : left ≤ j - 1)
    (inside : j - 1 < p.length) :
    ∃ j', scanDown p pivot left j = some j' ∧ left ≤ j' ∧
      HoldsBetween (pivot ≤ ·) p (j' + 1) (j - 1) ∧
      (j' = left ∨ HoldsBetween (· ≤ pivot) p j' j') := by
  fun_induction scanDown p pivot left j with
  | case1 j none =>
    obtain ⟨key, there⟩ := exists_vectorAt (least.trans most) inside
    exact absurd (there.symm.trans none) (by simp)
  | case2 j key there more ih =>
    obtain ⟨j', scanned, within, passed, stops⟩ := ih (by omega) (by omega)
    refine ⟨j', scanned, within, ?_, stops⟩
    intro k a from_ to_ here
    rcases eq_or_lt_of_le to_ with rfl | earlier
    · obtain rfl := Option.some.inj (there.symm.trans here)
      exact more.1.le
    · exact passed k a from_ (by omega) here
  | case3 j key there last =>
    refine ⟨j - 1, rfl, most, ?_, ?_⟩
    · intro k a from_ to_ _
      omega
    · by_cases border : j - 1 = left
      · exact Or.inl border
      · refine Or.inr fun k a from_ to_ here => ?_
        obtain rfl : k = j - 1 := by omega
        obtain rfl := Option.some.inj (there.symm.trans here)
        exact not_lt.mp fun above => last ⟨above, by omega⟩

/-! ## The partition -/

/-- What the outer loop knows when it begins a round. -/
structure Parting (pivot : T) (left right : Int) (v : Keyed T) (i j : Int) : Prop where
  same : v.index.length = v.p.length
  least : 0 ≤ left
  inside : right < v.p.length
  first : left ≤ i
  second : j ≤ right + 1
  apart : i < j
  room : i < right
  pivotAt : vectorAt v.p left = some pivot
  below : HoldsBetween (· ≤ pivot) v.p left i
  above : HoldsBetween (pivot ≤ ·) v.p j right

/-- What it has done when it ends. -/
structure Parted (pivot : T) (left right : Int) (v v' : Keyed T) (j : Int) : Prop where
  moved : Moved left right v v'
  least : left ≤ j
  most : j ≤ right
  pivotAt : vectorAt v'.p left = some pivot
  below : HoldsBetween (· ≤ pivot) v'.p left j
  above : HoldsBetween (pivot ≤ ·) v'.p (j + 1) right

theorem partitionLoop_spec {pivot : T} {left right : Int} {v : Keyed T} {i j : Int}
    (parting : Parting pivot left right v i j) :
    ∃ v' j', partitionLoop pivot left right v i j = some (v', j') ∧
      Parted pivot left right v v' j' := by
  have least := parting.least
  have inside := parting.inside
  have first := parting.first
  have second := parting.second
  have apart := parting.apart
  have room := parting.room
  obtain ⟨i', up, upmost, passed, stops⟩ := scanUp_spec (p := v.p) pivot (i := i)
    (by omega) (by omega) inside
  obtain ⟨j', down, downmost, passed', stops'⟩ := scanDown_spec (p := v.p) pivot (j := j)
    least (by omega) (by omega)
  have below := parting.below.append passed rfl
  have above := passed'.append parting.above (by omega)
  have upward := lt_of_scanUp up
  have downward := scanDown_lt down
  by_cases more : i' < j'
  · obtain ⟨u, swapped, keys, indices⟩ := swap_spec (i := i') (j := j') parting.same (by omega)
      (by omega) (by omega) (by omega)
    have within : FixesOutside i' j' (Equiv.swap i' j') :=
      FixesOutside.swap le_rfl more.le more.le le_rfl
    have atI : HoldsBetween (· ≤ pivot) u.p i' i' := by
      intro k a from_ to_ there
      obtain rfl : k = i' := by omega
      rw [keys.2, Equiv.swap_apply_left] at there
      exact (stops'.resolve_left (by omega)) j' a le_rfl le_rfl there
    have atJ : HoldsBetween (pivot ≤ ·) u.p j' j' := by
      intro k a from_ to_ there
      obtain rfl : k = j' := by omega
      rw [keys.2, Equiv.swap_apply_right] at there
      exact (stops.resolve_left (by omega)) i' a le_rfl le_rfl there
    have next : Parting pivot left right u i' j' := by
      refine ⟨?_, least, ?_, by omega, by omega, more, by omega, ?_, ?_, ?_⟩
      · rw [keys.1, indices.1, parting.same]
      · rw [keys.1]
        exact inside
      · rw [keys.2, within left (by omega)]
        exact parting.pivotAt
      · exact (below.outside keys within (by omega)).append atI (by omega)
      · exact atJ.append (above.outside keys within (by omega)) rfl
    obtain ⟨v', j'', looped, parted⟩ := partitionLoop_spec next
    refine ⟨v', j'', ?_, ?_⟩
    · rw [partitionLoop_eq, up, Option.bind_some, down, Option.bind_some, if_pos more, swapped,
        Option.bind_some, looped]
    · have moved : Moved left right v u :=
        ⟨_, FixesOutside.swap (by omega) (by omega) (by omega) (by omega), keys, indices⟩
      exact ⟨moved.trans parted.moved, parted.least, parted.most, parted.pivotAt, parted.below,
        parted.above⟩
  · refine ⟨v, j', ?_, Moved.refl left right v, downmost, by omega, parting.pivotAt, ?_, above⟩
    · rw [partitionLoop_eq, up, Option.bind_some, down, Option.bind_some, if_neg more]
    · rcases eq_or_lt_of_le (not_lt.mp more) with met | crossed
      · have last := stops'.resolve_left (by omega)
        rw [met] at last
        rw [met]
        exact below.append last (by omega)
      · exact below.mono le_rfl (by omega)
termination_by (j - i).toNat

theorem partition_spec (same : v.index.length = v.p.length) (least : 0 ≤ left) (less : left < right)
    (inside : right < v.p.length) :
    ∃ v' j pivot, partition v left right = some (v', j) ∧ Moved left right v v' ∧
      left ≤ j ∧ j ≤ right ∧ HoldsBetween (· ≤ pivot) v'.p left j ∧
      HoldsBetween (pivot ≤ ·) v'.p j right := by
  obtain ⟨pivot, first⟩ := exists_vectorAt least (less.trans inside)
  have alone : HoldsBetween (· ≤ pivot) v.p left left := by
    intro k a from_ to_ there
    obtain rfl : k = left := by omega
    exact (Option.some.inj (there.symm.trans first)).le
  have nothing : HoldsBetween (pivot ≤ ·) v.p (right + 1) right := by
    intro k a from_ to_ there
    omega
  obtain ⟨u, j, looped, parted⟩ := partitionLoop_spec
    ⟨same, least, inside, le_rfl, le_rfl, by omega, less, first, alone, nothing⟩
  have most := parted.most
  have least' := parted.least
  have length := parted.moved.length
  obtain ⟨v', swapped, keys, indices⟩ := swap_spec (v := u) (i := left) (j := j) (by omega) least
    (by omega) (by omega) (by omega)
  have within : FixesOutside left j (Equiv.swap left j) :=
    FixesOutside.swap le_rfl least' least' le_rfl
  have here : HoldsBetween (pivot ≤ ·) v'.p j j := by
    intro k a from_ to_ there
    obtain rfl : k = j := by omega
    rw [keys.2, Equiv.swap_apply_right, parted.pivotAt] at there
    exact (Option.some.inj there).le
  refine ⟨v', j, pivot, ?_, ?_, least', most, parted.below.inside keys within, ?_⟩
  · simp only [partition, first, looped, swapped, Option.bind_eq_bind, Option.bind_some,
      Option.pure_def]
  · exact parted.moved.trans ⟨_, within.mono le_rfl most, keys, indices⟩
  · exact here.append (parted.above.outside keys within (by omega)) rfl

/-- `quicksort_index` returns, sorts the keys and moves every index with its key. -/
theorem quicksortIndex_spec {v : Keyed T} (left right : Int) (same : v.index.length = v.p.length)
    (least : 0 ≤ left) (inside : right < v.p.length) :
    ∃ v', quicksortIndex v left right = some v' ∧ Moved left right v v' ∧
      Ascending v'.p left right := by
  by_cases less : left < right
  · obtain ⟨u, j, pivot, parted, moved, least', most, below, above⟩ :=
      partition_spec same least less inside
    have length := moved.length
    obtain ⟨w, front, movedFront, sortedFront⟩ := quicksortIndex_spec (v := u) left
      (j - 1) (by omega) least (by omega)
    have length' := movedFront.length
    obtain ⟨v', back, movedBack, sortedBack⟩ := quicksortIndex_spec (v := w) (j + 1)
      right (by omega) (by omega) (by omega)
    refine ⟨v', ?_, ?_, ?_⟩
    · rw [quicksortIndex_eq, if_pos less, parted, Option.bind_some]
      dsimp only
      rw [front, Option.bind_some, back]
    · exact (moved.trans (movedFront.mono le_rfl (by omega))).trans
        (movedBack.mono (by omega) le_rfl)
    · obtain ⟨σ, within, keys, -⟩ := movedFront
      obtain ⟨τ, within', keys', -⟩ := movedBack
      have low := below.inside keys (within.mono le_rfl (by omega))
      have high := above.outside keys within (by omega)
      exact (sortedFront.outside keys' within' (by omega)).join sortedBack
        (low.outside keys' within' (by omega)) (high.inside keys' (within'.mono (by omega) le_rfl))
  · refine ⟨v, by rw [quicksortIndex_eq, if_neg less], Moved.refl left right v, ?_⟩
    intro i j a b from_ ordered to_ first second
    obtain rfl : i = j := by omega
    exact (Option.some.inj (first.symm.trans second)).le
termination_by (right - left).toNat

end Keyed

end GnuRadio
