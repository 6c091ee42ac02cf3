import GnuRadio.Filter.Fir
import GnuRadio.Misc.Except
import GnuRadio.Runtime.Types

/-!
# FIR filters with a buffer

A `gri_fir_filter_with_buffer_XXX` keeps its last inputs itself, each of them twice, in
buffers one after the other. So the last inputs lie together from `d_idx` on, wherever that
is in the first buffer.
-/

namespace GnuRadio

/-- `gri_fir_filter_with_buffer_XXX` (`gri_fir_filter_with_buffer_XXX.h.t:46-49`). -/
structure GriFirFilterWithBuffer (R M : Type) where
  d_taps : List R
  d_buffer : List M
  d_idx : ℕ

/-- A call, with the memory it reads its inputs from. -/
inductive FirCall (M : Type) where
  | filter (input : M)
  | filterDec (input : ℕ → M) (dec : ℕ)
  | filterN (input : ℕ → M) (n : ℕ)
  | filterNdec (input : ℕ → M) (n decimate : ℕ)

namespace GriFirFilterWithBuffer

variable {R M : Type} [Semiring R] [AddCommMonoid M] [Module R M]

/-- `set_taps` (`gri_fir_filter_with_buffer_XXX.cc.t:41-57`). -/
def setTaps (taps : List R) : GriFirFilterWithBuffer R M where
  d_taps := taps.reverse
  d_buffer := List.replicate (2 * taps.length) 0
  d_idx := 0

def ntaps (fir : GriFirFilterWithBuffer R M) : ℕ := fir.d_taps.length

/-- `d_buffer[i] = input`. -/
def store (buffer : List M) (i : ℕ) (input : M) : Except CppException (List M) :=
  if i < buffer.length then .ok (buffer.set i input) else .error .undefinedBehaviour

/-- `d_buffer[i]`. -/
def load (buffer : List M) (i : ℕ) : Except CppException M :=
  match buffer[i]? with
  | some item => .ok item
  | none => .error .undefinedBehaviour

/-- An input is stored in both buffers (`gri_fir_filter_with_buffer_XXX.cc.t:64-72`,
`gri_fir_filter_with_buffer_XXX.cc.t:86-90`). -/
def push (fir : GriFirFilterWithBuffer R M) (input : M) :
    Except CppException (GriFirFilterWithBuffer R M) := do
  let buffer ← store fir.d_buffer fir.d_idx input
  let buffer ← store buffer (fir.d_idx + fir.ntaps) input
  let idx := fir.d_idx + 1
  return { fir with
    d_buffer := buffer
    d_idx := if fir.ntaps ≤ idx then 0 else idx }

/-- The sum over the window (`gri_fir_filter_with_buffer_XXX.cc.t:74-78`,
`gri_fir_filter_with_buffer_XXX.cc.t:93-97`). -/
def output (fir : GriFirFilterWithBuffer R M) : Except CppException M :=
  (List.range fir.ntaps).foldlM (fun out i => do
    let item ← load fir.d_buffer (fir.d_idx + i)
    return out + fir.d_taps.getD i 0 • item) 0

/-- `filter` of one input (`gri_fir_filter_with_buffer_XXX.cc.t:59-79`). -/
def filter (fir : GriFirFilterWithBuffer R M) (input : M) :
    Except CppException (M × GriFirFilterWithBuffer R M) := do
  let fir ← fir.push input
  let out ← fir.output
  return (out, fir)

/-- `filter` of a block (`gri_fir_filter_with_buffer_XXX.cc.t:81-98`). Its counter is an `unsigned
int`: with `dec` from `2 ^ 32` on the loop would not end. -/
def filterDec (fir : GriFirFilterWithBuffer R M) (input : ℕ → M) (dec : ℕ) :
    Except CppException (M × GriFirFilterWithBuffer R M) := do
  let fir ← (List.range dec).foldlM (fun fir i => fir.push (input i)) fir
  let out ← fir.output
  return (out, fir)

/-- `filterN` (`gri_fir_filter_with_buffer_XXX.cc.t:100-108`). -/
def filterN (fir : GriFirFilterWithBuffer R M) (input : ℕ → M) (n : ℕ) :
    Except CppException (List M × GriFirFilterWithBuffer R M) :=
  (List.range n).foldlM (fun (outputs, fir) i => do
    let (out, fir) ← fir.filter (input i)
    return (outputs ++ [out], fir)) ([], fir)

/-- `filterNdec` (`gri_fir_filter_with_buffer_XXX.cc.t:110-121`), where `j` is `i * decimate`. -/
def filterNdec (fir : GriFirFilterWithBuffer R M) (input : ℕ → M) (n decimate : ℕ) :
    Except CppException (List M × GriFirFilterWithBuffer R M) :=
  (List.range n).foldlM (fun (outputs, fir) i => do
    let (out, fir) ← fir.filterDec (offset input (i * decimate)) decimate
    return (outputs ++ [out], fir)) ([], fir)

def call (fir : GriFirFilterWithBuffer R M) :
    FirCall M → Except CppException (List M × GriFirFilterWithBuffer R M)
  | .filter input => do
      let (out, fir) ← fir.filter input
      return ([out], fir)
  | .filterDec input dec => do
      let (out, fir) ← fir.filterDec input dec
      return ([out], fir)
  | .filterN input n => fir.filterN input n
  | .filterNdec input n decimate => fir.filterNdec input n decimate

def calls (fir : GriFirFilterWithBuffer R M) (calls : List (FirCall M)) :
    Except CppException (List M × GriFirFilterWithBuffer R M) :=
  calls.foldlM (fun (outputs, fir) c => do
    let (more, fir) ← fir.call c
    return (outputs ++ more, fir)) ([], fir)

end GriFirFilterWithBuffer

/-- The groups of inputs that a call takes, each before an output. -/
def FirCall.groups {M : Type} : FirCall M → List (List M)
  | .filter input => [[input]]
  | .filterDec input dec => [(List.range dec).map input]
  | .filterN input n => (List.range n).map fun i => [input i]
  | .filterNdec input n decimate =>
      (List.range n).map fun i => (List.range decimate).map (offset input (i * decimate))

section Spec

variable {R M : Type} [Semiring R] [AddCommMonoid M] [Module R M]

/-- The last inputs, oldest first, of a stream that begins with zeros. -/
def window (taps : List R) (past : List M) (k : ℕ) : M :=
  precede taps.length (past.getD · 0) (past.length + k)

/-- What a FIR kernel with these taps finds at the end of the stream. -/
def plainFir (taps : List R) (past : List M) : M :=
  (GrFir.setTaps taps).filter 4 (window taps past)

/-- What it finds after each group of inputs. -/
def afterGroups (taps : List R) : List M → List (List M) → List M
  | _, [] => []
  | past, group :: groups =>
      plainFir taps (past ++ group) :: afterGroups taps (past ++ group) groups

end Spec

namespace GriFirFilterWithBuffer

variable {R M : Type} [Semiring R] [AddCommMonoid M] [Module R M]

/-- After the inputs `past`: they lie together from `d_idx` on, and the two buffers are alike. -/
structure Holds (taps : List R) (past : List M) (fir : GriFirFilterWithBuffer R M) : Prop where
  reversed : fir.d_taps = taps.reverse
  length : fir.d_buffer.length = 2 * taps.length
  idx : fir.d_idx < taps.length
  halves : ∀ j < taps.length, fir.d_buffer[j]? = fir.d_buffer[j + taps.length]?
  inputs : ∀ i < taps.length, fir.d_buffer[fir.d_idx + i]? = some (window taps past i)

variable {taps : List R} {past : List M} {fir : GriFirFilterWithBuffer R M}

omit [Semiring R] [Module R M] in
theorem Holds.ntaps (holds : Holds taps past fir) : fir.ntaps = taps.length := by
  rw [GriFirFilterWithBuffer.ntaps, holds.reversed, List.length_reverse]

omit [Semiring R] [Module R M] in
theorem holds_setTaps (some : 0 < taps.length) :
    Holds taps [] (setTaps taps : GriFirFilterWithBuffer R M) where
  reversed := rfl
  length := List.length_replicate
  idx := some
  halves j inside := by
    simp only [setTaps, List.getElem?_replicate]
    rw [if_pos (by omega), if_pos (by omega)]
  inputs i inside := by
    simp only [setTaps, List.getElem?_replicate]
    rw [if_pos (by omega), window, precede, if_pos (by simpa using inside)]

omit [Semiring R] [Module R M] in
theorem window_append (input : M) {i : ℕ} (inside : i < taps.length) :
    window taps (past ++ [input]) i =
      if i = taps.length - 1 then input else window taps past (i + 1) := by
  have next : past.length + 1 + i = past.length + (i + 1) := by omega
  rw [window, window, precede, precede, List.length_append, List.length_singleton, next]
  by_cases last : i = taps.length - 1
  · have place : past.length + (i + 1) - taps.length = past.length := by omega
    rw [if_pos last, if_neg (by omega), place]
    simp [List.getD_eq_getElem?_getD]
  · rw [if_neg last]
    by_cases early : past.length + (i + 1) < taps.length
    · rw [if_pos early, if_pos early]
    · rw [if_neg early, if_neg early, List.getD_append _ _ _ _ (by omega)]

omit [Semiring R] [Module R M] in
theorem Holds.push (holds : Holds taps past fir) (input : M) :
    ∃ fir', fir.push input = .ok fir' ∧ Holds taps (past ++ [input]) fir' := by
  have idx := holds.idx
  have length := holds.length
  let buffer := (fir.d_buffer.set fir.d_idx input).set (fir.d_idx + taps.length) input
  obtain ⟨next, next_eq⟩ : ∃ next, next = if taps.length ≤ fir.d_idx + 1 then 0 else fir.d_idx + 1 :=
    ⟨_, rfl⟩
  have pushed : fir.push input = .ok { fir with d_buffer := buffer, d_idx := next } := by
    have first : fir.d_idx < fir.d_buffer.length := by omega
    have second : fir.d_idx + taps.length < (fir.d_buffer.set fir.d_idx input).length := by
      rw [List.length_set]
      omega
    rw [GriFirFilterWithBuffer.push, holds.ntaps, store, if_pos first, ok_bind, store,
      if_pos second, next_eq]
    rfl
  have next_cases : taps.length ≤ fir.d_idx + 1 ∧ next = 0 ∨
      fir.d_idx + 1 < taps.length ∧ next = fir.d_idx + 1 := by
    rw [next_eq]
    split
    · exact Or.inl ⟨‹_›, rfl⟩
    · exact Or.inr ⟨not_le.mp ‹_›, rfl⟩
  have entry : ∀ j < 2 * taps.length, buffer[j]? =
      if j = fir.d_idx ∨ j = fir.d_idx + taps.length then some input else fir.d_buffer[j]? := by
    intro j inside
    rw [List.getElem?_set, List.getElem?_set, List.length_set]
    by_cases second : fir.d_idx + taps.length = j
    · rw [if_pos second, if_pos (by omega), if_pos (Or.inr second.symm)]
    · rw [if_neg second]
      by_cases first : fir.d_idx = j
      · rw [if_pos first, if_pos (by omega), if_pos (Or.inl first.symm)]
      · rw [if_neg first, if_neg (by omega)]
  refine ⟨_, pushed, holds.reversed, ?_, ?_, fun j inside => ?_, fun i inside => ?_⟩
  · rw [List.length_set, List.length_set, length]
  · change next < taps.length
    omega
  · rw [entry j (by omega), entry (j + taps.length) (by omega), ← holds.halves j inside]
    by_cases here : j = fir.d_idx
    · rw [if_pos (Or.inl here), if_pos (Or.inr (by omega))]
    · rw [if_neg (by omega), if_neg (by omega)]
  · change buffer[next + i]? = _
    rw [entry _ (by omega), window_append input inside]
    by_cases last : i = taps.length - 1
    · rw [if_pos last, if_pos (by omega)]
    · rw [if_neg last, if_neg (by omega), ← holds.inputs (i + 1) (by omega)]
      by_cases wraps : taps.length ≤ fir.d_idx + 1
      · -- the window starts anew, and its items are found in the other half
        have place : fir.d_idx + (i + 1) = i + taps.length := by omega
        have start : next + i = i := by omega
        rw [start, place, holds.halves i inside]
      · have place : next + i = fir.d_idx + (i + 1) := by omega
        rw [place]

theorem Holds.output (holds : Holds taps past fir) : fir.output = .ok (plainFir taps past) := by
  have sums : ∀ count ≤ taps.length, (List.range count).foldlM (fun out i => do
      let item ← load fir.d_buffer (fir.d_idx + i)
      return out + fir.d_taps.getD i 0 • item) 0 =
        (.ok (dot count (fir.d_taps.getD · 0) (window taps past)) : Except CppException M) := by
    intro count within
    induction count with
    | zero => rfl
    | succ count ih =>
      have item : load fir.d_buffer (fir.d_idx + count) = .ok (window taps past count) := by
        rw [load, holds.inputs count (by omega)]
      rw [List.range_succ, List.foldlM_append, ih (by omega), ok_bind, List.foldlM_cons, item, dot,
        dot, Finset.sum_range_succ]
      rfl
  rw [GriFirFilterWithBuffer.output, holds.ntaps, sums _ le_rfl, plainFir, GrFir.filter_eq_dot,
    GrFir.ntaps_setTaps, holds.reversed]
  rfl

/-! ## Calls -/

theorem Holds.filter (holds : Holds taps past fir) (input : M) : ∃ fir',
    fir.filter input = .ok (plainFir taps (past ++ [input]), fir') ∧
      Holds taps (past ++ [input]) fir' := by
  obtain ⟨fir', pushed, holds'⟩ := holds.push input
  refine ⟨fir', ?_, holds'⟩
  rw [GriFirFilterWithBuffer.filter, pushed, ok_bind, holds'.output]
  rfl

theorem Holds.filterDec (holds : Holds taps past fir) (input : ℕ → M) (dec : ℕ) : ∃ fir',
    fir.filterDec input dec = .ok (plainFir taps (past ++ (List.range dec).map input), fir') ∧
      Holds taps (past ++ (List.range dec).map input) fir' := by
  have pushes : ∃ fir', (List.range dec).foldlM (fun fir i => fir.push (input i)) fir = .ok fir' ∧
      Holds taps (past ++ (List.range dec).map input) fir' := by
    induction dec with
    | zero => exact ⟨fir, rfl, by simpa using holds⟩
    | succ dec ih =>
      obtain ⟨fir₁, before, holds₁⟩ := ih
      obtain ⟨fir₂, pushed, holds₂⟩ := holds₁.push (input dec)
      refine ⟨fir₂, ?_, ?_⟩
      · rw [List.range_succ, foldlM_append_ok]
        exact ⟨fir₁, before, foldlM_singleton_ok.mpr pushed⟩
      · rwa [List.range_succ, List.map_append, ← List.append_assoc]
  obtain ⟨fir', pushed, holds'⟩ := pushes
  refine ⟨fir', ?_, holds'⟩
  rw [GriFirFilterWithBuffer.filterDec, pushed, ok_bind, holds'.output]
  rfl

theorem afterGroups_append (taps : List R) (past : List M) (groups more : List (List M)) :
    afterGroups taps past (groups ++ more) =
      afterGroups taps past groups ++ afterGroups taps (past ++ groups.flatten) more := by
  induction groups generalizing past with
  | nil => simp [afterGroups]
  | cons group groups ih => simp [afterGroups, ih]

theorem Holds.loop {α : Type} (groups : α → List (List M))
    {round : List M × GriFirFilterWithBuffer R M → α →
      Except CppException (List M × GriFirFilterWithBuffer R M)}
    (step : ∀ outputs past fir a, Holds taps past fir → ∃ fir',
      round (outputs, fir) a = .ok (outputs ++ afterGroups taps past (groups a), fir') ∧
        Holds taps (past ++ (groups a).flatten) fir')
    (holds : Holds taps past fir) (outputs : List M) (l : List α) : ∃ fir',
    l.foldlM round (outputs, fir) =
      .ok (outputs ++ afterGroups taps past (l.flatMap groups), fir') ∧
        Holds taps (past ++ (l.flatMap groups).flatten) fir' := by
  induction l generalizing past fir outputs with
  | nil => exact ⟨fir, by simp [afterGroups]; rfl, by simpa using holds⟩
  | cons a l ih =>
    obtain ⟨fir₁, first, holds₁⟩ := step outputs past fir a holds
    obtain ⟨fir₂, rest, holds₂⟩ := ih holds₁ (outputs ++ afterGroups taps past (groups a))
    refine ⟨fir₂, foldlM_cons_ok.mpr ⟨_, first, ?_⟩, ?_⟩
    · rw [rest, List.flatMap_cons, afterGroups_append, List.append_assoc]
    · rwa [List.flatMap_cons, List.flatten_append, ← List.append_assoc]

theorem Holds.call (holds : Holds taps past fir) (c : FirCall M) : ∃ fir',
    fir.call c = .ok (afterGroups taps past c.groups, fir') ∧
      Holds taps (past ++ c.groups.flatten) fir' := by
  cases c with
  | filter input =>
    obtain ⟨fir', filtered, holds'⟩ := holds.filter input
    refine ⟨fir', ?_, by simpa [FirCall.groups] using holds'⟩
    rw [GriFirFilterWithBuffer.call, filtered]
    rfl
  | filterDec input dec =>
    obtain ⟨fir', filtered, holds'⟩ := holds.filterDec input dec
    refine ⟨fir', ?_, by simpa [FirCall.groups] using holds'⟩
    rw [GriFirFilterWithBuffer.call, filtered]
    rfl
  | filterN input n =>
    rw [GriFirFilterWithBuffer.call, GriFirFilterWithBuffer.filterN, FirCall.groups,
      List.map_eq_flatMap]
    refine holds.loop (fun i => [[input i]]) (fun outputs past fir i holds => ?_) [] (List.range n)
    obtain ⟨fir', filtered, holds'⟩ := holds.filter (input i)
    exact ⟨fir', by dsimp only; rw [filtered]; rfl, by simpa using holds'⟩
  | filterNdec input n decimate =>
    rw [GriFirFilterWithBuffer.call, GriFirFilterWithBuffer.filterNdec, FirCall.groups,
      List.map_eq_flatMap]
    refine holds.loop (fun i => [(List.range decimate).map (offset input (i * decimate))])
      (fun outputs past fir i holds => ?_) [] (List.range n)
    obtain ⟨fir', filtered, holds'⟩ := holds.filterDec (offset input (i * decimate)) decimate
    exact ⟨fir', by dsimp only; rw [filtered]; rfl, by simpa using holds'⟩

/-- The outputs are those of a plain FIR filter after each group of inputs, and the window is in
order after every call. -/
theorem fir_with_buffer_plain (taps : List R) (some : taps ≠ []) (calls : List (FirCall M)) :
    ∃ fir, (setTaps taps : GriFirFilterWithBuffer R M).calls calls =
      .ok (afterGroups taps [] (calls.flatMap FirCall.groups), fir) ∧
        Holds taps (calls.flatMap FirCall.groups).flatten fir := by
  refine (holds_setTaps (List.length_pos_iff.mpr some)).loop FirCall.groups
    (fun outputs past fir c holds => ?_) [] calls
  obtain ⟨fir', called, holds'⟩ := holds.call c
  exact ⟨fir', by dsimp only; rw [called]; rfl, holds'⟩

/-- Two taps, an input and then two more. -/
theorem fir_with_buffer_plain_two : ∃ fir,
    (setTaps [1, 10] : GriFirFilterWithBuffer ℤ ℤ).calls
      [.filter 3, .filterNdec (fun k => k + 4) 1 2] = .ok ([3, 45], fir) := by
  obtain ⟨fir, called, -⟩ := fir_with_buffer_plain [(1 : ℤ), 10] (List.cons_ne_nil 1 [10])
    [FirCall.filter (3 : ℤ), .filterNdec (fun k => k + 4) 1 2]
  have outputs : afterGroups [(1 : ℤ), 10] [] ([FirCall.filter (3 : ℤ),
      .filterNdec (fun k => k + 4) 1 2].flatMap FirCall.groups) = [(3 : ℤ), 45] := by
    decide +kernel
  exact ⟨fir, outputs ▸ called⟩

end GriFirFilterWithBuffer

end GnuRadio
