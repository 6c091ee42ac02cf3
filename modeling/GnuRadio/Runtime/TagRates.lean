import GnuRadio.Runtime.BlockExecutor
import Mathlib.Algebra.Order.Floor.Semifield
import Mathlib.Data.List.GetD

/-!
# Where the tags of sync blocks land

`propagate_tags` scales the offset of a tag by the relative rate, taken as an exact rational here,
while `consume_each` and `produce_each` count the items of the two sides on their own.
-/

namespace GnuRadio

/-- `gr_sync_block`, `gr_sync_decimator` and `gr_sync_interpolator`. -/
inductive SyncKind where
  | block
  | decimator (decimation : ℕ)
  | interpolator (interpolation : ℕ)

namespace SyncKind

/-- The relative rate (`gr_block.cc:37`, `gr_sync_decimator.h:51`, `gr_sync_interpolator.h:50`). -/
def rate : SyncKind → ℚ
  | .block => 1
  | .decimator decimation => 1 / decimation
  | .interpolator interpolation => interpolation

/-- `fixed_rate_noutput_to_ninput` (`gr_sync_block.cc:46-50`, `gr_sync_decimator.cc:46-50`,
    `gr_sync_interpolator.cc:46-50`). -/
def noutputToNinput (history noutput_items : ℕ) : SyncKind → ℤ
  | .block => fixedRateNoutputToNinput 1 history noutput_items
  | .decimator decimation => fixedRateNoutputToNinput decimation history noutput_items
  | .interpolator interpolation =>
      fixedRateNoutputToNinput 1 history (noutput_items / interpolation)

/-- `fixed_rate_ninput_to_noutput` (`gr_sync_block.cc:52-56`, `gr_sync_decimator.cc:52-56`,
    `gr_sync_interpolator.cc:52-56`). -/
def ninputToNoutput (history : ℕ) (ninput_items : ℤ) : SyncKind → ℤ
  | .block => fixedRateNinputToNoutput 1 history ninput_items
  | .decimator decimation => fixedRateNinputToNoutput decimation history ninput_items
  | .interpolator interpolation =>
      (fixedRateNinputToNoutput 1 history ninput_items * interpolation).bmod (2 ^ 32)

/-- What `general_work` consumes on each input when `work` returns `r`, which is positive
    (`gr_sync_block.cc:64-66`, `gr_sync_decimator.cc:64-66`, `gr_sync_interpolator.cc:64-66`). -/
def consumes (r : ℤ) : SyncKind → ℤ
  | .block => r
  | .decimator decimation => (r * decimation).bmod (2 ^ 32)
  | .interpolator interpolation => r / interpolation

def decimation : SyncKind → ℕ
  | .decimator decimation => decimation
  | _ => 1

def interpolation : SyncKind → ℕ
  | .interpolator interpolation => interpolation
  | _ => 1

end SyncKind

/-- A block of one of the kinds. An interpolator has its interpolation in its output multiple
    (`gr_sync_interpolator.h:51`). -/
structure SyncTagBlock where
  kind : SyncKind
  history : ℕ
  outputMultiple : ℕ
  policy : TagPropagationPolicy
  decimation_pos : 0 < kind.decimation
  interpolation_dvd : kind.interpolation ∣ outputMultiple
  outputMultiple_pos : 0 < outputMultiple
  outputMultiple_le : outputMultiple ≤ intMax

/-- A tag that `propagate_tags` found and the one that it added to an output, with the
    `nitems_written` of this output before the iteration and the items produced in it. -/
structure Landing (τ : Type) where
  output : ℕ
  found : Tag τ
  added : Tag τ
  written : ℕ
  produced : ℕ
  deriving DecidableEq

/-- `nitems_read` of the inputs, `nitems_written` of the outputs, and the tags added so far. -/
structure SyncPorts (τ : Type) where
  nitemsRead : List ℕ
  nitemsWritten : List ℕ
  landings : List (Landing τ)
  deriving DecidableEq

/-- What an iteration finds: the inputs, the space at the outputs, the tags in the buffer of each
    input, and what `work` returns if it is called. -/
structure SyncIteration (τ : Type) where
  inputs : List Heap.InputView
  space : ℕ
  tags : List (List (Tag τ))
  result : ℤ

variable {τ : Type}

/-- The tag at the offset `newcount * rrate`. -/
def Tag.scaledExactly (t : Tag τ) (rrate : ℚ) : Tag τ :=
  { t with offset := ⌊(t.offset : ℚ) * rrate⌋.toNat % 2 ^ 64 }

namespace SyncTagBlock

/-- The block as the executor sees it. -/
def grBlock (block : SyncTagBlock) : GrBlock :=
  { GrBlock.plain block.history block.outputMultiple block.outputMultiple_pos
      block.outputMultiple_le with
    relativeRate := block.kind.rate
    fixedRate := true
    fixedRateNinputToNoutput := fun n => block.kind.ninputToNoutput block.history n
    forecast := fun n _ => block.kind.noutputToNinput block.history n
    tagPropagationPolicy := block.policy
    relativeRate_nonneg := by cases block.kind <;> simp [SyncKind.rate] }

/-- `propagate_tags` (`gr_block_executor.cc:90-162`) on the tags found in the windows of the
    inputs: the outputs that get a tag, with the tag found and the one added; `none` for `false`. -/
def propagateTags (policy : TagPropagationPolicy) (rrate : ℚ) (noutputs : ℕ)
    (rtags : List (List (Tag τ))) : Option (List (ℕ × Tag τ × Tag τ)) :=
  if noutputs = 0 then some []
  else
    match policy with
    | .dont => some []
    | .allToAll => some (rtags.flatMap fun tags => tags.flatMap fun t =>
        (List.range noutputs).map fun o => (o, t, if rrate = 1 then t else t.scaledExactly rrate))
    | .oneToOne =>
        if rtags.length = noutputs then
          some (rtags.zipIdx.flatMap fun (tags, i) => tags.map fun t =>
            (i, t, t.scaledExactly rrate))
        else none

/-- `get_tags_in_range` for each input. -/
def tagsInWindows (start stop : List ℕ) (tags : List (List (Tag τ))) : List (List (Tag τ)) :=
  (tags.zip (start.zip stop)).map fun (tags, first, last) =>
    tags.filter fun t => first ≤ t.offset ∧ t.offset < last

/-- The counters of a side after `n` items. -/
def advance (n : ℤ) (counts : List ℕ) : List ℕ :=
  if 0 < n then counts.map fun count => (count + n.toNat) % 2 ^ 64 else counts

/-- The call of `general_work` and what follows it (`gr_block_executor.cc:372-394`), when `work`
    returns `r`; `none` where `propagate_tags` fails and the block is done. -/
def callWork (block : SyncTagBlock) (s : SyncPorts τ) (tags : List (List (Tag τ))) (r : ℤ) :
    Option (SyncPorts τ) :=
  let nitemsRead := if 0 < r then advance (block.kind.consumes r) s.nitemsRead else s.nitemsRead
  let rtags := tagsInWindows s.nitemsRead nitemsRead tags
  (propagateTags block.policy block.kind.rate s.nitemsWritten.length rtags).map fun moved => {
    nitemsRead := nitemsRead
    nitemsWritten := advance r s.nitemsWritten
    landings := s.landings ++ moved.map fun (o, found, added) =>
      ⟨o, found, added, s.nitemsWritten.getD o 0, r.toNat⟩ }

/-- What `work` may return when it is asked for `noutput_items`. -/
def Returns (block : SyncTagBlock) (noutput_items : ℕ) (r : ℤ) : Prop :=
  r = workDone ∨ 0 ≤ r ∧ r ≤ noutput_items ∧ (block.outputMultiple : ℤ) ∣ r

instance (block : SyncTagBlock) (noutput_items : ℕ) (r : ℤ) :
    Decidable (block.Returns noutput_items r) :=
  inferInstanceAs (Decidable (_ ∨ _ ∧ _ ∧ _))

/-- An iteration: where the inputs have not enough for any request, `work` is not called. -/
def iterate (block : SyncTagBlock) (s : SyncPorts τ) (it : SyncIteration τ) :
    Option (SyncPorts τ) :=
  match tryAgain block.grBlock it.inputs (Heap.maxItemsAvail it.inputs) it.space it.space with
  | some (.enough noutput_items) =>
      if block.Returns noutput_items it.result then block.callWork s it.tags it.result else none
  | _ => some s

/-- What is consumed is an `int`, and the counters stay below `2 ^ 64`. -/
structure Fits (block : SyncTagBlock) (s : SyncPorts τ) (it : SyncIteration τ) : Prop where
  consumed : it.result * block.kind.decimation ≤ intMax
  read : ∀ n ∈ s.nitemsRead,
    n + it.result.toNat * block.kind.decimation / block.kind.interpolation < 2 ^ 64
  written : ∀ n ∈ s.nitemsWritten, n + it.result.toNat < 2 ^ 64

instance (block : SyncTagBlock) (s : SyncPorts τ) (it : SyncIteration τ) :
    Decidable (block.Fits s it) :=
  decidable_of_iff (it.result * block.kind.decimation ≤ intMax ∧
    (∀ n ∈ s.nitemsRead,
      n + it.result.toNat * block.kind.decimation / block.kind.interpolation < 2 ^ 64) ∧
    ∀ n ∈ s.nitemsWritten, n + it.result.toNat < 2 ^ 64)
    ⟨fun ⟨consumed, read, written⟩ => ⟨consumed, read, written⟩,
      fun fits => ⟨fits.consumed, fits.read, fits.written⟩⟩

/-- Before the first iteration. -/
def start (ninputs noutputs : ℕ) : SyncPorts τ :=
  ⟨List.replicate ninputs 0, List.replicate noutputs 0, []⟩

/-! ## Offsets -/

variable {block : SyncTagBlock}

/-- Where a tag at offset `t` of an input goes. -/
def place (kind : SyncKind) (t : ℕ) : ℕ := t * kind.interpolation / kind.decimation

theorem place_mono (kind : SyncKind) {t t' : ℕ} (earlier : t ≤ t') : place kind t ≤ place kind t' :=
  Nat.div_le_div_right (Nat.mul_le_mul_right _ earlier)

variable {kind : SyncKind} {written n noutputs ninputs : ℕ} {t s : SyncPorts τ}
  {it : SyncIteration τ}

/-- The offsets of the window of an iteration go to the items produced in it. -/
theorem place_inside (positive : 0 < kind.decimation) {read r t : ℕ}
    (balanced : read * kind.interpolation = written * kind.decimation)
    (whole : kind.interpolation ∣ r) (first : read ≤ t)
    (last : t < read + r * kind.decimation / kind.interpolation) :
    written ≤ place kind t ∧ place kind t < written + r := by
  obtain ⟨rounds, rfl⟩ := whole
  constructor
  · rw [place, Nat.le_div_iff_mul_le positive, ← balanced]
    exact Nat.mul_le_mul_right _ first
  · rcases Nat.eq_zero_or_pos kind.interpolation with none | some
    · simp [none] at last
      omega
    · rw [Nat.mul_assoc, Nat.mul_div_cancel_left _ some] at last
      rw [place, Nat.div_lt_iff_lt_mul positive]
      calc t * kind.interpolation < (read + rounds * kind.decimation) * kind.interpolation :=
            Nat.mul_lt_mul_of_pos_right last some
        _ = (written + kind.interpolation * rounds) * kind.decimation := by
            rw [Nat.add_mul, balanced]
            ring

theorem floor_rate (kind : SyncKind) (t : ℕ) : ⌊(t : ℚ) * kind.rate⌋.toNat = place kind t := by
  have rate : kind.rate = kind.interpolation / kind.decimation := by
    cases kind <;> simp [SyncKind.rate, SyncKind.interpolation, SyncKind.decimation]
  have fraction : (t : ℚ) * kind.rate = ((t * kind.interpolation : ℕ) : ℚ) / kind.decimation := by
    rw [rate]
    push_cast
    ring
  rw [fraction, Int.floor_toNat, Nat.floor_div_eq_div]
  rfl

theorem place_of_rate_one (one : kind.rate = 1) (t : ℕ) : place kind t = t := by
  have same := floor_rate kind t
  rw [one, mul_one, Int.floor_toNat, Nat.floor_natCast] at same
  exact same.symm

theorem consumes_eq {r : ℕ} (fits : (r : ℤ) * kind.decimation ≤ intMax) :
    kind.consumes r = (r * kind.decimation / kind.interpolation : ℕ) := by
  cases kind with
  | block => simp [SyncKind.consumes, SyncKind.decimation, SyncKind.interpolation]
  | decimator D =>
    simp only [SyncKind.consumes, SyncKind.decimation, SyncKind.interpolation, intMax,
      Nat.div_one] at fits ⊢
    have nonneg : 0 ≤ (r : ℤ) * D := by positivity
    rw [Int.bmod_eq_of_le (by omega) (by omega)]
    push_cast
    rfl
  | interpolator I => simp [SyncKind.consumes, SyncKind.decimation, SyncKind.interpolation]

/-! ## An iteration -/

/-- The counters of each side are all the same, the two sides agree, and every tag is at the place
    of the one found, among the items produced with it. -/
structure Balanced (block : SyncTagBlock) (ninputs noutputs : ℕ) (s : SyncPorts τ) (read : ℕ)
    (written : ℕ) : Prop where
  reads : s.nitemsRead = List.replicate ninputs read
  writes : s.nitemsWritten = List.replicate noutputs written
  balanced : read * block.kind.interpolation = written * block.kind.decimation
  placed : ∀ x ∈ s.landings, x.added.offset = place block.kind x.found.offset
  inside : ∀ x ∈ s.landings, x.written ≤ x.added.offset ∧ x.added.offset < x.written + x.produced

theorem mem_tagsInWindows {first last : ℕ} {tags : List (List (Tag τ))} {found : List (Tag τ)}
    (member : found ∈ tagsInWindows (List.replicate n first) (List.replicate n last) tags)
    {t : Tag τ} (among : t ∈ found) : first ≤ t.offset ∧ t.offset < last := by
  obtain ⟨⟨tags, first', last'⟩, listed, rfl⟩ := List.mem_map.mp member
  have windows := (List.of_mem_zip listed).2
  obtain ⟨here, there⟩ := List.of_mem_zip windows
  obtain rfl := List.eq_of_mem_replicate here
  obtain rfl := List.eq_of_mem_replicate there
  simpa using (List.mem_filter.mp among).2

/-- A tag added is one found, scaled. -/
theorem mem_propagateTags {policy : TagPropagationPolicy} {rtags : List (List (Tag τ))}
    {moved : List (ℕ × Tag τ × Tag τ)}
    (propagated : propagateTags policy kind.rate noutputs rtags = some moved) {o : ℕ}
    {found added : Tag τ} (member : (o, found, added) ∈ moved) :
    o < noutputs ∧ (∃ tags ∈ rtags, found ∈ tags) ∧
      (place kind found.offset < 2 ^ 64 → added.offset = place kind found.offset) := by
  have scaled : ∀ t : Tag τ, place kind t.offset < 2 ^ 64 →
      (t.scaledExactly kind.rate).offset = place kind t.offset := by
    intro t fits
    rw [Tag.scaledExactly, floor_rate, Nat.mod_eq_of_lt fits]
  unfold propagateTags at propagated
  split at propagated
  · cases propagated
    cases member
  cases policy with
  | dont =>
    cases propagated
    cases member
  | allToAll =>
    cases propagated
    simp only [List.mem_flatMap, List.mem_map, List.mem_range, Prod.mk.injEq] at member
    obtain ⟨tags, listed, t, among, o', inside, rfl, rfl, rfl⟩ := member
    refine ⟨inside, ⟨tags, listed, among⟩, fun fits => ?_⟩
    split
    next one => exact (place_of_rate_one one t.offset).symm
    next => exact scaled t fits
  | oneToOne =>
    dsimp only at propagated
    split at propagated
    next equal =>
      cases propagated
      simp only [List.mem_flatMap, List.mem_map, Prod.mk.injEq, Prod.exists] at member
      obtain ⟨tags, i, listed, t, among, rfl, rfl, rfl⟩ := member
      have inside := List.mem_zipIdx_iff_getElem?.mp listed
      obtain ⟨bound, -⟩ := List.getElem?_eq_some_iff.mp inside
      exact ⟨equal ▸ bound, ⟨tags, List.mem_of_getElem? inside, among⟩, scaled t⟩
    next => cases propagated

theorem advance_replicate {k count : ℕ} (fits : ∀ x ∈ List.replicate k count, x + n < 2 ^ 64) :
    advance n (List.replicate k count) = List.replicate k (count + n) := by
  unfold advance
  split
  · rw [List.map_replicate]
    rcases Nat.eq_zero_or_pos k with rfl | some
    · rfl
    · have fit := fits count (List.mem_replicate.mpr ⟨by omega, rfl⟩)
      rw [Int.toNat_natCast, Nat.mod_eq_of_lt fit]
  · rw [show n = 0 by omega, Nat.add_zero]

theorem advance_toNat (n : ℤ) (counts : List ℕ) : advance n.toNat counts = advance n counts := by
  unfold advance
  split <;> split <;> first | rfl | omega

theorem Balanced.callWork {read : ℕ} (balanced : block.Balanced ninputs noutputs s read written)
    (fits : block.Fits s it) {noutput_items : ℕ} (returned : block.Returns noutput_items it.result)
    (called : block.callWork s it.tags it.result = some t) :
    block.Balanced ninputs noutputs t
      (read + it.result.toNat * block.kind.decimation / block.kind.interpolation)
      (written + it.result.toNat) := by
  obtain ⟨consumed, fitsRead, fitsWritten⟩ := fits
  have whole : block.kind.interpolation ∣ it.result.toNat := by
    rcases returned with done | ⟨nonneg, -, multiple⟩
    · simp [done, workDone]
    · rw [← Int.toNat_of_nonneg nonneg] at multiple
      exact block.interpolation_dvd.trans (Int.natCast_dvd_natCast.mp multiple)
  rw [balanced.reads] at fitsRead
  rw [balanced.writes] at fitsWritten
  have reads : (if 0 < it.result then
        advance (block.kind.consumes it.result) (List.replicate ninputs read)
      else List.replicate ninputs read) = List.replicate ninputs
        (read + it.result.toNat * block.kind.decimation / block.kind.interpolation) := by
    split
    next positive =>
      have natural := Int.toNat_of_nonneg positive.le
      rw [← natural] at consumed ⊢
      rw [consumes_eq consumed, Int.toNat_natCast, advance_replicate fitsRead]
    next none => rw [show it.result.toNat = 0 by omega, Nat.zero_mul, Nat.zero_div, Nat.add_zero]
  have writes : advance it.result (List.replicate noutputs written) =
      List.replicate noutputs (written + it.result.toNat) := by
    rw [← advance_toNat, advance_replicate fitsWritten]
  simp only [SyncTagBlock.callWork, balanced.reads, balanced.writes, reads, writes,
    List.length_replicate, Option.map_eq_some_iff] at called
  obtain ⟨moved, propagated, rfl⟩ := called
  have fresh : ∀ x ∈ moved.map (fun (o, found, added) =>
      (⟨o, found, added, (List.replicate noutputs written).getD o 0, it.result.toNat⟩ : Landing τ)),
      x.added.offset = place block.kind x.found.offset ∧ x.written ≤ x.added.offset ∧
        x.added.offset < x.written + x.produced := by
    intro x member
    obtain ⟨⟨o, found, added⟩, listed, rfl⟩ := List.mem_map.mp member
    obtain ⟨port, ⟨tags, among, here⟩, offset⟩ := mem_propagateTags propagated listed
    obtain ⟨first, last⟩ := mem_tagsInWindows among here
    obtain ⟨low, high⟩ := place_inside block.decimation_pos balanced.balanced whole first last
    have fit := fitsWritten written (List.mem_replicate.mpr ⟨by omega, rfl⟩)
    have before : (List.replicate noutputs written).getD o 0 = written := by
      rw [List.getD_replicate _ port]
    have added := offset (high.trans fit)
    dsimp only
    rw [before, added]
    exact ⟨rfl, low, high⟩
  refine ⟨rfl, rfl, ?_, fun x member => ?_, fun x member => ?_⟩
  · obtain ⟨rounds, all⟩ := whole
    rcases Nat.eq_zero_or_pos block.kind.interpolation with none | some
    · rw [all, none, Nat.zero_mul, Nat.zero_mul, Nat.zero_div, Nat.add_zero, Nat.add_zero, ← none,
        balanced.balanced]
    · rw [all, Nat.mul_assoc, Nat.mul_div_cancel_left _ some, Nat.add_mul, Nat.add_mul,
        balanced.balanced]
      ring
  · rcases List.mem_append.mp member with old | new
    · exact balanced.placed x old
    · exact (fresh x new).1
  · rcases List.mem_append.mp member with old | new
    · exact balanced.inside x old
    · exact (fresh x new).2

theorem tryAgain_first {g : GrBlock} {inputs : List Heap.InputView} {most fuel k : ℕ}
    (request : fixedRateRequest g most n = k) (enough : lackingInput (g.forecast k) inputs = none) :
    tryAgain g inputs most (fuel + 1) n = some (.enough k) := by
  simp only [tryAgain, request, enough]

theorem iterate_called
    (enough : tryAgain block.grBlock it.inputs (Heap.maxItemsAvail it.inputs) it.space it.space =
      some (.enough n)) (returned : block.Returns n it.result) :
    block.iterate s it = block.callWork s it.tags it.result := by
  rw [SyncTagBlock.iterate, enough]
  exact if_pos returned

theorem Balanced.iterate (balanced : ∃ read written, block.Balanced ninputs noutputs s read written)
    (fits : block.Fits s it) (stepped : block.iterate s it = some t) :
    ∃ read written, block.Balanced ninputs noutputs t read written := by
  obtain ⟨read, written, balanced⟩ := balanced
  unfold SyncTagBlock.iterate at stepped
  split at stepped
  · split at stepped
    next returned => exact ⟨_, _, balanced.callWork fits returned stepped⟩
    next => cases stepped
  · cases stepped
    exact ⟨read, written, balanced⟩

/-- In a run without overflow each tag lands on the items produced in its own iteration, and the
    tags keep their order. -/
theorem tags_land (block : SyncTagBlock) (ninputs noutputs : ℕ) {es : List (SyncIteration τ)}
    {s : SyncPorts τ} (safe : Throughout block.Fits block.iterate (start ninputs noutputs) es)
    (reached : run block.iterate (start ninputs noutputs) es = some s) :
    (∀ x ∈ s.landings, x.written ≤ x.added.offset ∧ x.added.offset < x.written + x.produced) ∧
      ∀ x ∈ s.landings, ∀ y ∈ s.landings, x.found.offset ≤ y.found.offset →
        x.added.offset ≤ y.added.offset := by
  have initial : block.Balanced ninputs noutputs (start ninputs noutputs : SyncPorts τ) 0 0 :=
    ⟨rfl, rfl, by simp, by simp [start], by simp [start]⟩
  obtain ⟨read, written, balanced⟩ := run_invariant_of
    (fun s => ∃ read written, block.Balanced ninputs noutputs s read written)
    (fun _ _ _ known fits stepped => Balanced.iterate known fits stepped) ⟨0, 0, initial⟩ safe
    reached
  refine ⟨balanced.inside, fun x member y member' earlier => ?_⟩
  rw [balanced.placed x member, balanced.placed y member']
  exact place_mono block.kind earlier

/-- A decimator with the history and the output multiple of its constructor. -/
def decimator (D : ℕ) (positive : 0 < D) : SyncTagBlock where
  kind := .decimator D
  history := 1
  outputMultiple := 1
  policy := .oneToOne
  decimation_pos := positive
  interpolation_dvd := dvd_rfl
  outputMultiple_pos := Nat.one_pos
  outputMultiple_le := one_le_intMax

theorem tags_land_decimator : ∃ s : SyncPorts Unit,
    run (decimator 2 Nat.two_pos).iterate (start 1 1)
      [⟨[⟨2, false, 8⟩], 4, [[]], 1⟩, ⟨[⟨4, false, 8⟩], 4, [[⟨5, ()⟩]], 2⟩] = some s ∧
    s.landings.length = 1 ∧ ∀ x ∈ s.landings,
      x.written ≤ x.added.offset ∧ x.added.offset < x.written + x.produced := by
  obtain ⟨s, reached, landed⟩ := Option.map_eq_some_iff.mp (show
    (run (decimator 2 Nat.two_pos).iterate (start 1 1) [⟨[⟨2, false, 8⟩], 4, [[]], 1⟩,
      ⟨[⟨4, false, 8⟩], 4, [[⟨5, ()⟩]], 2⟩]).map (fun s : SyncPorts Unit => s.landings.length) =
        some 1 from rfl)
  exact ⟨s, reached, landed, (tags_land (decimator 2 Nat.two_pos) 1 1 (by decide) reached).1⟩

/-- The first iteration asks for 64 items on an empty input, as `64 * 2 ^ 26` is zero on 32 bits,
    and consumes nothing. -/
theorem tags_land_overflow : ∃ s : SyncPorts Unit,
    run (decimator 67108864 (by decide)).iterate (start 1 1)
      [⟨[⟨0, false, 134217728⟩], 64, [[]], 64⟩,
        ⟨[⟨67108864, false, 134217728⟩], 64, [[⟨0, ()⟩]], 1⟩] = some s ∧
    ∃ x ∈ s.landings, x.added.offset < x.written := by
  have zero : (Tag.scaledExactly ⟨0, ()⟩ (SyncKind.rate (.decimator 67108864))).offset = 0 := by
    simp [Tag.scaledExactly]
  refine ⟨⟨[67108864], [65], [⟨0, ⟨0, ()⟩, Tag.scaledExactly ⟨0, ()⟩ _, 64, 1⟩]⟩,
    run_cons.mpr ⟨⟨[0], [64], []⟩, by decide, run_cons.mpr ⟨_, ?_, rfl⟩⟩, _,
    List.mem_singleton_self _, by rw [zero]; decide⟩
  exact iterate_called (tryAgain_first (k := 1) (by decide) (by decide)) (by decide)

end SyncTagBlock

end GnuRadio
