import GnuRadio.Runtime.EndOfStream
import GnuRadio.Runtime.MergeConnections

/-!
# What a block asks for when it works

`run_one_iteration` settles on a request, or on not calling `general_work` at all, before the
block does anything. The decision is separated here from what follows it.
-/

namespace GnuRadio

variable {α τ : Type}

/-- What `run_one_iteration` has decided by `setup_call_to_work` or by its end. -/
inductive Decision (α τ : Type) where
  /-- `general_work (noutput_items, ...)` is called. -/
  | work (heap : Heap α τ) (noutputItems : Nat)
  | blkdOut (heap : Heap α τ)
  /-- A sink with less than one output multiple on every input. -/
  | sinkBlkdIn (heap : Heap α τ)
  /-- `BLKD_IN` from the code at `try_again`. -/
  | blkdIn (heap : Heap α τ)
  | wereDone (heap : Heap α τ) (cause : DoneCause)

namespace Heap

/-- The code after the loop when input `i` lacks items (`gr_block_executor.cc:327-346`). -/
def lackItems (h : Heap α τ) (g : GrBlock) (inputs : List InputView) (i noutputItems : Nat) :
    Except CppException (Decision α τ) :=
  match inputs[i]? with
  | none => .error .undefinedBehaviour
  | some view =>
      if view.inputDone then .ok (.wereDone h (.inputDone i))
      else if (view.maxPossible : Int) < g.forecast noutputItems i then
        .ok (.wereDone h (.neverEnough i))
      else .ok (.blkdIn h)

/-- From `try_again` on (`gr_block_executor.cc:297-353`), when the loop ends in so many passes. -/
def attemptWithin (passes : Nat) (h : Heap α τ) (g : GrBlock) (inputs : List InputView)
    (maxItemsAvail noutputItems : Nat) : Option (Except CppException (Decision α τ)) :=
  (tryAgain g inputs maxItemsAvail passes noutputItems).map fun
    | .enough n => .ok (.work h n)
    | .lacking i n => h.lackItems g inputs i n

/-- `run_one_iteration` up to the call of `general_work` (`gr_block_executor.cc:187-353`);
`none` when the loop at `try_again` has not ended after so many passes. -/
def decisionWithin (passes : Nat) (env : Blocks) (h : Heap α τ) (block : BlockId) :
    Option (Except CppException (Decision α τ)) :=
  match h.detail block, (env block).grBlock with
  | none, _ => some (.error .undefinedBehaviour)
  | _, none => some (.error .undefinedBehaviour)
  | some d, some g =>
      let (noutputItems, pruned) := minAvailableSpace g.outputMultiple h d.output intMax
      if d.done then some (.error .assertFailed)
      else if d.input = [] then
        if noutputItems = -1 then some (.ok (.wereDone pruned .outputsDone))
        else if noutputItems = 0 then some (.ok (.blkdOut pruned))
        else some (.ok (.work pruned noutputItems.toNat))
      else match d.input.mapM h.inputView with
        | .error e => some (.error e)
        | .ok inputs =>
            if d.output = [] then
              match finishedInput g.outputMultiple inputs with
              | some i => some (.ok (.wereDone h (.inputDone i)))
              | none =>
                  match Double.toInt (Double.mul (maxItemsAvail inputs) g.relativeRate) with
                  | none => some (.error .undefinedBehaviour)
                  | some n =>
                      let noutputItems := roundDown n.toNat g.outputMultiple
                      if noutputItems = 0 then some (.ok (.sinkBlkdIn h))
                      else h.attemptWithin passes g inputs (maxItemsAvail inputs) noutputItems
            else if noutputItems = -1 then some (.ok (.wereDone pruned .outputsDone))
            else if noutputItems = 0 then some (.ok (.blkdOut pruned))
            else pruned.attemptWithin passes g inputs (maxItemsAvail inputs) noutputItems.toNat

end Heap

/-- The rest of the iteration. -/
def Decision.carryOut (block : BlockId) (d : BlockDetail) (g : GrBlock) (work : Work α τ) :
    Decision α τ → Except CppException (Iteration α τ)
  | .work h _ => h.callWork block d g work
  | .blkdOut h => .ok ⟨h, .blkdOut, none⟩
  | .sinkBlkdIn h => .ok ⟨h, .blkdIn, none⟩
  | .blkdIn h => .ok ⟨h, .blkdIn, none⟩
  | .wereDone h cause => h.wereDone block d cause

namespace Heap

variable {env : Blocks} {h : Heap α τ} {block : BlockId} {d : BlockDetail} {g : GrBlock}

/-! ## The demands -/

/-- A request that the buffers can meet: whole output multiples, room for it in every output
buffer, and on every input the items that `forecast` asks for. -/
structure DemandsMet (h : Heap α τ) (d : BlockDetail) (g : GrBlock) (noutputItems : Nat) :
    Prop where
  pos : 0 < noutputItems
  whole : g.outputMultiple ∣ noutputItems
  room : ∀ id ∈ d.output, noutputItems ≤ (h.buffer id).spaceAvailable.1
  supplied : ∀ i p r, d.input[i]? = some (some p) → h.readerAt p = some r →
    g.forecast noutputItems i ≤ (h.buffer p.buffer).itemsAvailable r

/-- An input that lacks items for one output multiple, from a block that may still write. -/
def Starved (h : Heap α τ) (d : BlockDetail) (g : GrBlock) : Prop :=
  ∃ i p r, d.input[i]? = some (some p) ∧ h.readerAt p = some r ∧
    ((h.buffer p.buffer).itemsAvailable r : Int) < g.forecast g.outputMultiple i ∧
    (h.buffer p.buffer).done = false

/-- What is to hold of a decision. -/
def Decent (h : Heap α τ) (d : BlockDetail) (g : GrBlock) : Decision α τ → Prop
  | .work _ noutputItems => DemandsMet h d g noutputItems
  | .blkdIn _ => Starved h d g
  | _ => True

variable {inputs : List InputView} {i : Nat} {x : Decision α τ}

theorem inputView_spec {ptrs : List (Option ReaderPtr)}
    (viewed : ptrs.mapM h.inputView = .ok inputs) {view : InputView}
    (there : inputs[i]? = some view) : ∃ p r, ptrs[i]? = some (some p) ∧ h.readerAt p = some r ∧
      view = ⟨(h.buffer p.buffer).itemsAvailable r, (h.buffer p.buffer).done,
        (h.buffer p.buffer).maxPossibleItemsAvailable⟩ := by
  have each := mapM_ok viewed i
  rw [there] at each
  obtain ⟨ptr, place, seen⟩ := Option.map_eq_some_iff.mp each.symm
  unfold inputView at seen
  split at seen
  · cases seen
  · rename_i p
    split at seen
    · cases seen
    · rename_i r found
      exact ⟨p, r, place, found, (Except.ok.inj seen).symm⟩

theorem spaceAvailable_pruned (b : Buffer α τ) :
    b.spaceAvailable.2.spaceAvailable.1 = b.spaceAvailable.1 := by
  obtain ⟨_, _, same⟩ := b.spaceAvailable_snd
  rw [same]
  unfold Buffer.spaceAvailable
  cases b.readers <;> rfl

theorem minAvailableSpace_le (outputMultiple : Nat) (ids : List BufferId) (h : Heap α τ)
    (minSpace : Int) : (h.minAvailableSpace outputMultiple ids minSpace).1 ≤ 0 ∨
      (h.minAvailableSpace outputMultiple ids minSpace).1 ≤ minSpace ∧
      ∀ id ∈ ids, (h.minAvailableSpace outputMultiple ids minSpace).1 ≤
        (h.buffer id).spaceAvailable.1 := by
  induction ids generalizing h minSpace with
  | nil => simp [minAvailableSpace]
  | cons id ids ih =>
    unfold minAvailableSpace
    dsimp only
    split
    · left
      split <;> simp
    · have offered := roundDown_le
        (min (h.buffer id).spaceAvailable.1 ((h.buffer id).bufsize / 2)) outputMultiple
      rcases ih (h.mapBuffer id fun b => b.spaceAvailable.2)
        (min minSpace (offeredSpace (h.buffer id) outputMultiple)) with none | ⟨least, others⟩
      · exact Or.inl none
      · unfold offeredSpace at least others ⊢
        refine Or.inr ⟨by omega, fun other member => ?_⟩
        rcases List.mem_cons.mp member with rfl | member
        · omega
        · refine (others other member).trans (le_of_eq ?_)
          by_cases same : other = id
          · subst same
            simp [mapBuffer, spaceAvailable_pruned]
          · simp [mapBuffer, same]

/-- The loop ends, the iteration goes on from what it has decided, and the decision is decent. -/
def Settles (h : Heap α τ) (block : BlockId) (d : BlockDetail) (g : GrBlock)
    (decide : Nat → Option (Except CppException (Decision α τ)))
    (iterate : Work α τ → Except CppException (Iteration α τ)) : Prop :=
  ∃ decision, (∀ passes, intMax ≤ passes → decide passes = some decision) ∧
    (∀ work, iterate work = decision >>= Decision.carryOut block d g work) ∧
    ∀ x, decision = .ok x → Decent h d g x

theorem settles_error (e : CppException) :
    Settles h block d g (fun _ => some (.error e)) fun _ => .error e :=
  ⟨.error e, fun _ _ => rfl, fun _ => rfl, fun _ none => by cases none⟩

theorem settles_decided (decent : Decent h d g x) :
    Settles h block d g (fun _ => some (.ok x)) fun work => x.carryOut block d g work :=
  ⟨.ok x, fun _ _ => rfl, fun _ => rfl, fun _ same => Except.ok.inj same ▸ decent⟩

theorem supplied_of_views {n : Nat} (viewed : d.input.mapM h.inputView = .ok inputs)
    (supplied : lackingInput (g.forecast n) inputs = none) {p : ReaderPtr} {r : BufferReader}
    (port : d.input[i]? = some (some p)) (found : h.readerAt p = some r) :
    g.forecast n i ≤ (h.buffer p.buffer).itemsAvailable r := by
  have each := mapM_ok viewed i
  rw [port] at each
  obtain ⟨view, there, seen⟩ := Option.map_eq_some_iff.mp each
  have inside := (List.getElem?_eq_some_iff.mp there).1
  have enough := List.find?_eq_none.mp supplied i (List.mem_range.mpr inside)
  simp only [inputView, found, Except.ok.injEq] at seen
  subst seen
  simpa [there] using enough

theorem lackItems_decent (mid : Heap α τ) (viewed : d.input.mapM h.inputView = .ok inputs)
    (lacks : lackingInput (g.forecast g.outputMultiple) inputs = some i)
    (decided : mid.lackItems g inputs i g.outputMultiple = .ok x) : Decent h d g x := by
  unfold lackItems at decided
  split at decided
  · cases decided
  · rename_i view there
    obtain ⟨p, r, port, found, rfl⟩ := inputView_spec viewed there
    split at decided
    · cases decided
      trivial
    · rename_i unmarked
      split at decided
      · cases decided
        trivial
      · cases decided
        have short := (lackingInput_spec lacks).1 _ there
        exact ⟨i, p, r, port, found, short, by simpa using unmarked⟩

theorem attempt_settles (mid : Heap α τ) (most : Nat) {n : Nat}
    (viewed : d.input.mapM h.inputView = .ok inputs) (pos : 0 < n) (le : n ≤ intMax)
    (whole : g.outputMultiple ∣ n) (room : ∀ id ∈ d.output, n ≤ (h.buffer id).spaceAvailable.1) :
    Settles h block d g (fun passes => mid.attemptWithin passes g inputs most n)
      (mid.attempt block d g inputs most n) := by
  obtain ⟨result, tried, ends⟩ := tryAgain_spec g inputs most pos le whole
  have within : ∀ passes, intMax ≤ passes → tryAgain g inputs most passes n = some result :=
    fun passes enough => tried passes (le.trans enough)
  unfold Settles attemptWithin attempt
  simp only [tried n le_rfl]
  cases ends with
  | @enough k pos less whole supplied =>
    refine ⟨.ok (.work mid k), fun passes enough => ?_, fun _ => rfl, ?_⟩
    · simp only [within passes enough, Option.map_some]
    · intro x same
      cases same
      exact ⟨pos, whole, fun id member => less.trans (room id member),
        fun i p r port found => supplied_of_views viewed supplied port found⟩
  | @lacking i lacks =>
    refine ⟨mid.lackItems g inputs i g.outputMultiple, fun passes enough => ?_, fun work => ?_,
      fun x decided => lackItems_decent mid viewed lacks decided⟩
    · simp only [within passes enough, Option.map_some]
    · unfold lackItems
      cases there : inputs[i]? with
      | none =>
        simp only [there]
        rfl
      | some view =>
        simp only [there]
        split
        · rfl
        · split <;> rfl

theorem offer_spec (ports : d.output ≠ []) {n : Int}
    (offer : (h.minAvailableSpace g.outputMultiple d.output intMax).1 = n) (open_ : n ≠ -1)
    (some : n ≠ 0) : 0 < n.toNat ∧ n.toNat ≤ intMax ∧ g.outputMultiple ∣ n.toNat ∧
      ∀ id ∈ d.output, n.toNat ≤ (h.buffer id).spaceAvailable.1 := by
  subst offer
  obtain ⟨k, same, fits, whole⟩ := (minAvailableSpace_request g.outputMultiple d.output h
    (Or.inr ⟨ports, rfl⟩)).resolve_left open_
  have bound := minAvailableSpace_le g.outputMultiple d.output h intMax
  rw [same] at bound some ⊢
  rcases bound with none | ⟨-, room⟩
  · omega
  · rw [Int.toNat_natCast]
    exact ⟨by omega, fits, whole, fun id member => by exact_mod_cast room id member⟩

/-- `run_one_iteration` ends its loop, and never calls `general_work` with unmet demands. A used
block is an end of an edge, so it has a port. Where `(int) (max_items_avail * relative_rate)` is out
of range, which a rate above 1 of a sink can bring about, the conversion is undefined and the
iteration an error. -/
theorem run_one_iteration_demands (detail : h.detail block = some d)
    (leaf : (env block).grBlock = some g) (ports : d.input ≠ [] ∨ d.output ≠ []) :
    Settles h block d g (fun passes => h.decisionWithin passes env block)
      (h.runOneIteration env block) := by
  have offered := fun (outputs : d.output ≠ []) n => @offer_spec _ _ h d g outputs n
  unfold decisionWithin runOneIteration
  simp only [detail, leaf]
  generalize h.minAvailableSpace g.outputMultiple d.output intMax = offer at offered ⊢
  obtain ⟨noutputItems, pruned⟩ := offer
  dsimp only at offered ⊢
  by_cases closed : d.done = true
  · simp only [closed, if_true]
    exact settles_error _
  simp only [if_neg closed]
  by_cases source : d.input = []
  · simp only [source, if_true]
    have outputs := ports.resolve_left (absurd source)
    by_cases finished : noutputItems = -1
    · simp only [finished, if_true]
      exact settles_decided (x := .wereDone pruned .outputsDone) trivial
    by_cases blocked : noutputItems = 0
    · simp only [blocked]
      exact settles_decided (x := .blkdOut pruned) trivial
    simp only [if_neg finished, if_neg blocked]
    obtain ⟨pos, -, whole, room⟩ := offered outputs noutputItems rfl finished blocked
    exact settles_decided (x := .work pruned noutputItems.toNat)
      ⟨pos, whole, room, by simp [source]⟩
  simp only [if_neg source]
  cases viewed : d.input.mapM h.inputView with
  | error e => exact settles_error e
  | ok inputs =>
    simp only [ok_bind]
    by_cases sink : d.output = []
    · simp only [sink, if_true]
      cases finished : finishedInput g.outputMultiple inputs with
      | some i => exact settles_decided (x := .wereDone h (.inputDone i)) trivial
      | none =>
        cases converted : Double.toInt (Double.mul (maxItemsAvail inputs) g.relativeRate) with
        | none => exact settles_error _
        | some n =>
          dsimp only
          by_cases blocked : roundDown n.toNat g.outputMultiple = 0
          · simp only [blocked, if_true]
            exact settles_decided (x := .sinkBlkdIn h) trivial
          simp only [if_neg blocked]
          have scaled : 0 ≤ Double.mul (maxItemsAvail inputs) g.relativeRate :=
            Double.round_nonneg (mul_nonneg (Nat.cast_nonneg _) g.relativeRate_nonneg)
          obtain ⟨nonneg, fits, -⟩ := Double.toInt_spec scaled converted
          have down := roundDown_le n.toNat g.outputMultiple
          exact attempt_settles h _ viewed (Nat.pos_of_ne_zero blocked) (by unfold intMax; omega)
            (Nat.dvd_mul_left _ _) (by simp [sink])
    · simp only [if_neg sink]
      by_cases finished : noutputItems = -1
      · simp only [finished, if_true]
        exact settles_decided (x := .wereDone pruned .outputsDone) trivial
      by_cases blocked : noutputItems = 0
      · simp only [blocked]
        exact settles_decided (x := .blkdOut pruned) trivial
      simp only [if_neg finished, if_neg blocked]
      obtain ⟨pos, fits, whole, room⟩ := offered sink noutputItems rfl finished blocked
      exact attempt_settles pruned _ viewed pos fits whole room

/-- A block with room for 16 items behind it and 5 items in front of it. -/
def fiveItems : Heap Nat Nat where
  detail := fun b => if b = 1 then some ⟨[some ⟨0, 0⟩], [1], false⟩ else none
  buffer := fun id =>
    if id = 0 then
      { Buffer.ofSize 16 (by decide) (by decide) 0 with
        readers := [⟨0, 0, 0, 1⟩], writeIndex := 5, absWriteOffset := 5 }
    else Buffer.ofSize 16 (by decide) (by decide) 1
  nbuffers := 2
  nreaders := 1

def copyBlocks : Blocks := fun _ => BasicBlock.leaf "copy" 1 1 GrBlock.initial 4 sizeofFloat_pos

/-- Eight would be room for, but there is only enough for the half of it. -/
theorem five_items_demands :
    ((fiveItems.decisionWithin 16 copyBlocks 1).map fun
      | .ok (.work _ n) => n
      | _ => 0) = some 4 ∧
    Settles fiveItems 1 ⟨[some ⟨0, 0⟩], [1], false⟩ GrBlock.initial
      (fun passes => fiveItems.decisionWithin passes copyBlocks 1)
      (fiveItems.runOneIteration copyBlocks 1) :=
  ⟨by decide +kernel, run_one_iteration_demands rfl rfl (Or.inr (List.cons_ne_nil 1 []))⟩

end Heap

end GnuRadio
