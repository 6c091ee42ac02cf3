import GnuRadio.Runtime.BlockDetail

/-!
# `gr_block_executor`

One call of `run_one_iteration` on the heap of details and buffers
(`gr_block_executor.cc`). What the block's own `general_work` does is given with
the call: the runtime functions it calls, in their order, and what it returns.
-/

namespace GnuRadio

variable {α τ : Type}

/-- `round_up` on `unsigned int`s (`gr_block_executor.cc:48-52`). -/
def roundUp (n multiple : Nat) : Nat := (n + multiple - 1) % 2 ^ 32 / multiple * multiple

/-- `round_down` (`gr_block_executor.cc:54-58`). -/
def roundDown (n multiple : Nat) : Nat := n / multiple * multiple

/-- What `min_available_space` offers the writer of one output buffer: no more
than half the buffer, in whole multiples (`gr_block_executor.cc:75-77`). -/
def offeredSpace (b : Buffer α τ) (outputMultiple : Nat) : Nat :=
  roundDown (min b.spaceAvailable.1 (b.bufsize / 2)) outputMultiple

theorem le_roundDown {n multiple : Nat} (pos : 0 < multiple) (enough : multiple ≤ n) :
    multiple ≤ roundDown n multiple := by
  have whole : 1 ≤ n / multiple := (Nat.le_div_iff_mul_le pos).mpr (by omega)
  exact Nat.le_mul_of_pos_left multiple whole

theorem roundDown_le (n multiple : Nat) : roundDown n multiple ≤ n :=
  Nat.div_mul_le_self n multiple

/-! ## The calls of `general_work` -/

/-- What `general_work` may do to its inputs and outputs. -/
inductive WorkCall (α τ : Type) where
  | consume (whichInput howManyItems : Int)
  | consumeEach (howManyItems : Int)
  | produce (whichOutput howManyItems : Int)
  | addItemTag (whichOutput : Int) (tag : Tag τ)
  /-- Items stored from the write pointer of an output on. -/
  | write (whichOutput : Int) (items : List α)

/-- One execution of `general_work`. -/
structure Work (α τ : Type) where
  calls : List (WorkCall α τ)
  result : Int

/-- `gr_block::WORK_DONE`. -/
def workDone : Int := -1

/-- `gr_block::WORK_CALLED_PRODUCE`. -/
def workCalledProduce : Int := -2

namespace Heap

/-- A change of one buffer. -/
def mapBuffer (h : Heap α τ) (id : BufferId) (f : Buffer α τ → Buffer α τ) : Heap α τ :=
  { h with buffer := Function.update h.buffer id (f (h.buffer id)) }

/-- `gr_buffer_reader::update_read_pointer` through a pointer of a detail. -/
def consumeAt (h : Heap α τ) (n : Nat) : Option ReaderPtr → Except CppException (Heap α τ)
  | none => .error .undefinedBehaviour
  | some p => .ok (h.mapBuffer p.buffer fun b => b.updateReadPointer p.ident n)

/-- One runtime call of `general_work`: the heap after it, and whether it added to
`d_produce_or` (`gr_block_detail.cc:90-132`, `gr_block_detail.cc:158-176`). -/
def workCall (h : Heap α τ) (d : BlockDetail) : WorkCall α τ → Except CppException (Heap α τ × Bool)
  | .consume which n =>
      if 0 < n then
        if 0 ≤ which ∧ which < d.input.length then do
          let h ← h.consumeAt n.toNat (d.input.getD which.toNat none)
          return (h, false)
        else .error (.invalidArgument "gr_block_detail::input")
      else .ok (h, false)
  | .consumeEach n =>
      if 0 < n then do
        let h ← d.input.foldlM (fun h p => h.consumeAt n.toNat p) h
        return (h, false)
      else .ok (h, false)
  | .produce which n =>
      if 0 < n then
        if 0 ≤ which ∧ which < d.output.length then
          .ok (h.mapBuffer (d.output.getD which.toNat 0) fun b => b.updateWritePointer n.toNat, true)
        else .error .undefinedBehaviour
      else .ok (h, false)
  | .addItemTag which tag =>
      if 0 ≤ which ∧ which < d.output.length then
        .ok (h.mapBuffer (d.output.getD which.toNat 0) fun b => b.addItemTag tag, false)
      else .error .undefinedBehaviour
  | .write which items =>
      if 0 ≤ which ∧ which < d.output.length then
        .ok (h.mapBuffer (d.output.getD which.toNat 0) fun b => b.writeItems items, false)
      else .error .undefinedBehaviour

/-- All calls of one `general_work`. -/
def workCalls (h : Heap α τ) (d : BlockDetail) (calls : List (WorkCall α τ)) :
    Except CppException (Heap α τ × Bool) :=
  calls.foldlM (fun s call => do
    let (h, produced) ← s.1.workCall d call
    return (h, s.2 || produced)) (h, false)

/-- `gr_block_detail::produce_each` (`gr_block_detail.cc:123-132`). -/
def produceEach (h : Heap α τ) (d : BlockDetail) (n : Int) : Heap α τ × Bool :=
  if 0 < n then
    (d.output.foldl (fun h id => h.mapBuffer id fun b => b.updateWritePointer n.toNat) h, true)
  else (h, false)

/-- `gr_buffer_reader::set_done` (`gr_buffer.h:243`): the mark of the buffer. -/
def setReaderDone (done : Bool) (h : Heap α τ) :
    Option ReaderPtr → Except CppException (Heap α τ)
  | none => .error .undefinedBehaviour
  | some p => .ok (h.mapBuffer p.buffer fun b => b.setDone done)

/-- `gr_block_detail::set_done` (`gr_block_detail.cc:79-88`): it marks the outputs and,
through the readers, the input buffers. -/
def setDone (h : Heap α τ) (block : BlockId) (d : BlockDetail) (done : Bool) :
    Except CppException (Heap α τ) :=
  let h := { h with detail := Function.update h.detail block (some { d with done := done }) }
  let h := d.output.foldl (fun h id => h.mapBuffer id fun b => b.setDone done) h
  d.input.foldlM (setReaderDone done) h

/-! ## Looking at inputs and outputs -/

/-- What `run_one_iteration` reads of one input: `d_ninput_items[i]`, `d_input_done[i]`
and the most items it could ever find there. -/
structure InputView where
  ninputItems : Nat
  inputDone : Bool
  maxPossible : Nat
  deriving DecidableEq, Repr

/-- Reading one input. -/
def inputView (h : Heap α τ) : Option ReaderPtr → Except CppException InputView
  | none => .error .undefinedBehaviour
  | some p =>
      match h.readerAt p with
      | none => .error .undefinedBehaviour
      | some r =>
          let b := h.buffer p.buffer
          .ok ⟨b.itemsAvailable r, b.done, b.maxPossibleItemsAvailable⟩

/-- `nitems_read` of all inputs. -/
def nitemsRead (h : Heap α τ) (d : BlockDetail) : List Nat :=
  d.input.map fun p => match p.bind h.readerAt with
    | none => 0
    | some r => r.absReadOffset

/-- `min_available_space` (`gr_block_executor.cc:60-88`) over the outputs that are left;
asking a buffer for its space may prune its tags. -/
def minAvailableSpace (outputMultiple : Nat) :
    Heap α τ → List BufferId → Int → Int × Heap α τ
  | h, [], minSpace => (minSpace, h)
  | h, id :: ids, minSpace =>
      let n := offeredSpace (h.buffer id) outputMultiple
      let h := h.mapBuffer id fun b => b.spaceAvailable.2
      if n = 0 then (if (h.buffer id).done then -1 else 0, h)
      else minAvailableSpace outputMultiple h ids (min minSpace n)

end Heap

/-! ## Tags -/

/-- A tag at the offset `newcount * rrate`, computed as a `double`. -/
def Tag.scaled (t : Tag τ) (rrate : ℚ) : Tag τ :=
  { t with offset := ⌊Double.mul (Double.round t.offset) rrate⌋.toNat % 2 ^ 64 }

namespace Heap

/-- `get_tags_in_range` on one input. -/
def tagsInRange (h : Heap α τ) (start stop : Nat) : Option ReaderPtr → List (Tag τ)
  | none => []
  | some p => (h.buffer p.buffer).getTagsInRange start stop

/-- Adding a list of tags to an output. -/
def addTags (h : Heap α τ) (id : BufferId) (tags : List (Tag τ)) : Heap α τ :=
  tags.foldl (fun h t => h.mapBuffer id fun b => b.addItemTag t) h

/-- `propagate_tags` (`gr_block_executor.cc:90-162`); `none` stands for `false`. The
tags of an input are read once and then added tag by tag to each output. -/
def propagateTags (h : Heap α τ) (policy : TagPropagationPolicy) (d : BlockDetail)
    (startNitemsRead : List Nat) (rrate : ℚ) : Option (Heap α τ) :=
  if d.output = [] then some h
  else
    let windows := (d.input.zip (startNitemsRead.zip (h.nitemsRead d)))
    match policy with
    | .dont => some h
    | .allToAll => some (windows.foldl (fun h (p, start, stop) =>
        (h.tagsInRange start stop p).foldl (fun h t =>
          let t := if rrate = 1 then t else t.scaled rrate
          d.output.foldl (fun h id => h.mapBuffer id fun b => b.addItemTag t) h) h) h)
    | .oneToOne =>
        if d.input.length = d.output.length then
          some ((windows.zip d.output).foldl (fun h ((p, start, stop), id) =>
            h.addTags id ((h.tagsInRange start stop p).map (·.scaled rrate))) h)
        else none

end Heap

/-! ## One iteration -/

/-- `gr_block_executor::state`. -/
inductive ExecState where
  | ready
  | readyNoOutput
  | blkdIn
  | blkdOut
  | done
  deriving DecidableEq, Repr

/-- The places from which `run_one_iteration` goes to `were_done`. -/
inductive DoneCause where
  /-- An output is blocked and its buffer is marked done. -/
  | outputsDone
  /-- An input lacks items and its buffer is marked done. -/
  | inputDone (port : Nat)
  /-- An input needs more items than its buffer can hold. -/
  | neverEnough (port : Nat)
  | tagError
  | workDone
  | sourceNoOutput
  deriving DecidableEq, Repr

/-- The result of one iteration. -/
structure Iteration (α τ : Type) where
  heap : Heap α τ
  state : ExecState
  cause : Option DoneCause

/-- The first input that lacks items for what `forecast` asks. -/
def lackingInput (required : Nat → Int) (inputs : List Heap.InputView) : Option Nat :=
  (List.range inputs.length).find? fun i =>
    (((inputs[i]?.map Heap.InputView.ninputItems).getD 0 : Nat) : Int) < required i

/-- How the loop at `try_again` ends. -/
inductive Attempt where
  | enough (noutputItems : Nat)
  | lacking (port noutputItems : Nat)
  deriving DecidableEq, Repr

/-- The request after the `fixed_rate` adjustment (`gr_block_executor.cc:298-305`). -/
def fixedRateRequest (g : GrBlock) (maxItemsAvail noutputItems : Nat) : Nat :=
  if g.fixedRate then
    let ninput := g.fixedRateNinputToNoutput maxItemsAvail
    let reqd : Int := (roundUp (ninput % 2 ^ 32).toNat g.outputMultiple : Int).bmod (2 ^ 32)
    if 0 < reqd ∧ reqd ≤ noutputItems then reqd.toNat else noutputItems
  else noutputItems

/-- The loop at `try_again` (`gr_block_executor.cc:297-324`): the request is halved
until the inputs have enough for it or it is down to one output multiple. -/
def tryAgain (g : GrBlock) (inputs : List Heap.InputView) (maxItemsAvail : Nat) :
    Nat → Nat → Option Attempt
  | 0, _ => none
  | fuel + 1, noutputItems =>
      let noutputItems := fixedRateRequest g maxItemsAvail noutputItems
      match lackingInput (g.forecast noutputItems) inputs with
      | none => some (.enough noutputItems)
      | some i =>
          if g.outputMultiple < noutputItems then
            tryAgain g inputs maxItemsAvail fuel (roundUp (noutputItems / 2) g.outputMultiple)
          else some (.lacking i noutputItems)

namespace Heap

/-- The code at `were_done`. -/
def wereDone (h : Heap α τ) (block : BlockId) (d : BlockDetail) (cause : DoneCause) :
    Except CppException (Iteration α τ) := do
  let h ← h.setDone block d true
  return ⟨h, .done, some cause⟩

/-- The code at `setup_call_to_work` (`gr_block_executor.cc:355-406`). -/
def callWork (h : Heap α τ) (block : BlockId) (d : BlockDetail) (g : GrBlock) (work : Work α τ) :
    Except CppException (Iteration α τ) := do
  let startNitemsRead := h.nitemsRead d
  let (h, produced) ← h.workCalls d work.calls
  match h.propagateTags g.tagPropagationPolicy d startNitemsRead g.relativeRate with
  | none => h.wereDone block d .tagError
  | some h =>
      if work.result = GnuRadio.workDone then h.wereDone block d .workDone
      else
        let (h, more) :=
          if work.result ≠ workCalledProduce then h.produceEach d work.result else (h, false)
        if produced || more then .ok ⟨h, .ready, none⟩
        else if d.input = [] then h.wereDone block d .sourceNoOutput
        else .ok ⟨h, .readyNoOutput, none⟩

/-- From `try_again` on (`gr_block_executor.cc:297-406`). -/
def attempt (h : Heap α τ) (block : BlockId) (d : BlockDetail) (g : GrBlock)
    (inputs : List InputView) (maxItemsAvail noutputItems : Nat) (work : Work α τ) :
    Except CppException (Iteration α τ) :=
  match tryAgain g inputs maxItemsAvail noutputItems noutputItems with
  | none => .error .undefinedBehaviour
  | some (.enough _) => h.callWork block d g work
  | some (.lacking i n) =>
      match inputs[i]? with
      | none => .error .undefinedBehaviour
      | some view =>
          if view.inputDone then h.wereDone block d (.inputDone i)
          else if (view.maxPossible : Int) < g.forecast n i then
            h.wereDone block d (.neverEnough i)
          else .ok ⟨h, .blkdIn, none⟩

/-- The first input of a sink with less than one output multiple and a buffer that is
marked done (`gr_block_executor.cc:236-238`). -/
def finishedInput (outputMultiple : Nat) (inputs : List InputView) : Option Nat :=
  inputs.findIdx? fun view => view.ninputItems < outputMultiple && view.inputDone

/-- The most items any input has. -/
def maxItemsAvail (inputs : List InputView) : Nat :=
  inputs.foldl (fun most view => max most view.ninputItems) 0

/-- `gr_block_executor::run_one_iteration` (`gr_block_executor.cc:187-415`) on one block,
with what its `general_work` does if it is called. -/
def runOneIteration (env : Blocks) (h : Heap α τ) (block : BlockId) (work : Work α τ) :
    Except CppException (Iteration α τ) :=
  match h.detail block, (env block).grBlock with
  | none, _ => .error .undefinedBehaviour
  | _, none => .error .undefinedBehaviour
  | some d, some g =>
      if d.done then .error .assertFailed
      else if d.input = [] then
        let (noutputItems, h) := minAvailableSpace g.outputMultiple h d.output intMax
        if noutputItems = -1 then h.wereDone block d .outputsDone
        else if noutputItems = 0 then .ok ⟨h, .blkdOut, none⟩
        else h.callWork block d g work
      else do
        let inputs ← d.input.mapM h.inputView
        if d.output = [] then
          match finishedInput g.outputMultiple inputs with
          | some i => h.wereDone block d (.inputDone i)
          | none =>
              match Double.toInt (Double.mul (maxItemsAvail inputs) g.relativeRate) with
              | none => .error .undefinedBehaviour
              | some n =>
                  let noutputItems := roundDown n.toNat g.outputMultiple
                  if noutputItems = 0 then .ok ⟨h, .blkdIn, none⟩
                  else h.attempt block d g inputs (maxItemsAvail inputs) noutputItems work
        else
          let (noutputItems, h) := minAvailableSpace g.outputMultiple h d.output intMax
          if noutputItems = -1 then h.wereDone block d .outputsDone
          else if noutputItems = 0 then .ok ⟨h, .blkdOut, none⟩
          else h.attempt block d g inputs (maxItemsAvail inputs) noutputItems.toNat work

end Heap

/-!
## What one iteration of the executor does

An iteration leaves the pointers and marks of the heap alone unless it ends its
block. The cases in which an input is the reason for that are read off here once
(`runOneIteration_ended`).
-/

variable {h h' : Heap α τ} {env : Blocks}

namespace Heap

/-! ## What an iteration leaves alone -/

/-- Items, indices and tags may change, pointers and marks may not. -/
structure Quiet (h h' : Heap α τ) : Prop where
  detail : h'.detail = h.detail
  bufsize : ∀ id, (h'.buffer id).bufsize = (h.buffer id).bufsize
  done : ∀ id, (h'.buffer id).done = (h.buffer id).done
  wires : ∀ id, (h'.buffer id).wires = (h.buffer id).wires

theorem Quiet.refl (h : Heap α τ) : Quiet h h := ⟨rfl, fun _ => rfl, fun _ => rfl, fun _ => rfl⟩

variable {h'' : Heap α τ} {d : BlockDetail} {produced done : Bool} {first second : BufferId → Prop}

theorem Quiet.trans (first : Quiet h h') (second : Quiet h' h'') : Quiet h h'' :=
  ⟨second.detail.trans first.detail, fun id => (second.bufsize id).trans (first.bufsize id),
    fun id => (second.done id).trans (first.done id),
    fun id => (second.wires id).trans (first.wires id)⟩

theorem quiet_mapBuffer (h : Heap α τ) (id : BufferId) {f : Buffer α τ → Buffer α τ}
    (bufsize : ∀ b, (f b).bufsize = b.bufsize) (done : ∀ b, (f b).done = b.done)
    (wires : ∀ b, (f b).wires = b.wires) : Quiet h (h.mapBuffer id f) := by
  refine ⟨rfl, ?_, ?_, ?_⟩
  all_goals
    intro c
    simp only [mapBuffer]
    by_cases same : c = id
    · subst same
      simp [bufsize, done, wires]
    · simp [same]

theorem quiet_foldl {β : Type} {f : Heap α τ → β → Heap α τ} (quiet : ∀ h x, Quiet h (f h x))
    (l : List β) (h : Heap α τ) : Quiet h (l.foldl f h) := by
  induction l generalizing h with
  | nil => exact Quiet.refl h
  | cons x l ih => exact (quiet h x).trans (ih (f h x))

theorem wires_updateReadPointer (b : Buffer α τ) (ident n : Nat) :
    (b.updateReadPointer ident n).wires = b.wires := by
  simp only [Buffer.wires, Buffer.updateReadPointer, List.map_map, Prod.mk.injEq, true_and]
  apply List.map_congr_left
  intro r _
  simp only [Function.comp_apply]
  split <;> rfl

theorem quiet_consumeAt {n : Nat} {p : Option ReaderPtr} (consumed : h.consumeAt n p = .ok h') :
    Quiet h h' := by
  cases p with
  | none => cases consumed
  | some p =>
    obtain rfl := Except.ok.inj consumed
    exact quiet_mapBuffer h _ (fun _ => rfl) (fun _ => rfl)
      fun b => wires_updateReadPointer b p.ident n

theorem quiet_produce (h : Heap α τ) (id : BufferId) (n : Nat) :
    Quiet h (h.mapBuffer id fun b => b.updateWritePointer n) :=
  quiet_mapBuffer h id (fun _ => rfl) (fun _ => rfl) fun _ => rfl

theorem quiet_addItemTag (h : Heap α τ) (id : BufferId) (t : Tag τ) :
    Quiet h (h.mapBuffer id fun b => b.addItemTag t) :=
  quiet_mapBuffer h id (fun _ => rfl) (fun _ => rfl) fun _ => rfl

theorem quiet_workCall {call : WorkCall α τ} (called : h.workCall d call = .ok (h', produced)) :
    Quiet h h' := by
  unfold workCall at called
  split at called
  · split at called
    · split at called
      · obtain ⟨mid, consumed, same⟩ := bind_ok.mp called
        obtain ⟨rfl, -⟩ := Prod.mk.inj (pure_ok.mp same)
        exact quiet_consumeAt consumed
      · cases called
    · obtain ⟨rfl, -⟩ := Prod.mk.inj (Except.ok.inj called)
      exact Quiet.refl h
  · split at called
    · obtain ⟨mid, consumed, same⟩ := bind_ok.mp called
      obtain ⟨rfl, -⟩ := Prod.mk.inj (pure_ok.mp same)
      exact foldlM_invariant (Quiet h) (fun _ _ _ _ before next =>
        before.trans (quiet_consumeAt next)) (Quiet.refl h) consumed
    · obtain ⟨rfl, -⟩ := Prod.mk.inj (Except.ok.inj called)
      exact Quiet.refl h
  · split at called
    · split at called
      · obtain ⟨rfl, -⟩ := Prod.mk.inj (Except.ok.inj called)
        exact quiet_produce h _ _
      · cases called
    · obtain ⟨rfl, -⟩ := Prod.mk.inj (Except.ok.inj called)
      exact Quiet.refl h
  · split at called
    · obtain ⟨rfl, -⟩ := Prod.mk.inj (Except.ok.inj called)
      exact quiet_addItemTag h _ _
    · cases called
  · split at called
    · obtain ⟨rfl, -⟩ := Prod.mk.inj (Except.ok.inj called)
      exact quiet_mapBuffer h _ (fun _ => rfl) (fun _ => rfl) fun _ => rfl
    · cases called

theorem quiet_workCalls {calls : List (WorkCall α τ)}
    (called : h.workCalls d calls = .ok (h', produced)) : Quiet h h' := by
  refine foldlM_invariant (fun s => Quiet h s.1) ?_ (Quiet.refl h) called
  intro s t call _ before next
  obtain ⟨⟨mid, more⟩, called, same⟩ := bind_ok.mp next
  obtain rfl := pure_ok.mp same
  exact before.trans (quiet_workCall called)

theorem quiet_produceEach (h : Heap α τ) (d : BlockDetail) (n : Int) :
    Quiet h (h.produceEach d n).1 := by
  unfold produceEach
  split
  · exact quiet_foldl (fun h id => quiet_produce h id _) _ h
  · exact Quiet.refl h

theorem quiet_propagateTags {policy : TagPropagationPolicy} {start : List Nat} {rrate : ℚ}
    (propagated : h.propagateTags policy d start rrate = some h') : Quiet h h' := by
  unfold propagateTags at propagated
  split at propagated
  · obtain rfl := Option.some.inj propagated
    exact Quiet.refl h
  dsimp only at propagated
  split at propagated
  · obtain rfl := Option.some.inj propagated
    exact Quiet.refl h
  · obtain rfl := Option.some.inj propagated
    refine quiet_foldl ?_ _ h
    rintro h ⟨p, start, stop⟩
    exact quiet_foldl (fun h t => quiet_foldl (fun h id => quiet_addItemTag h id _) _ h) _ h
  · split at propagated
    · obtain rfl := Option.some.inj propagated
      refine quiet_foldl ?_ _ h
      rintro h ⟨⟨p, start, stop⟩, id⟩
      exact quiet_foldl (fun h t => quiet_addItemTag h id t) _ h
    · cases propagated

theorem quiet_minAvailableSpace (outputMultiple : Nat) (ids : List BufferId) (h : Heap α τ)
    (minSpace : Int) : Quiet h (h.minAvailableSpace outputMultiple ids minSpace).2 := by
  induction ids generalizing h minSpace with
  | nil => exact Quiet.refl h
  | cons id ids ih =>
    have pruned : Quiet h (h.mapBuffer id fun b => b.spaceAvailable.2) :=
      quiet_mapBuffer h id (fun b => b.spaceAvailable_bufsize)
        (fun b => by obtain ⟨_, _, same⟩ := b.spaceAvailable_snd; rw [same])
        (fun b => by obtain ⟨_, _, same⟩ := b.spaceAvailable_snd; rw [same]; rfl)
    unfold minAvailableSpace
    dsimp only
    split
    · exact pruned
    · exact pruned.trans (ih _ _)

/-! ## Marking a block done -/

/-- The buffers in `marked` get the mark `done`; nothing else changes. -/
structure Marks (h h' : Heap α τ) (marked : BufferId → Prop) (done : Bool) : Prop where
  detail : h'.detail = h.detail
  bufsize : ∀ id, (h'.buffer id).bufsize = (h.buffer id).bufsize
  wires : ∀ id, (h'.buffer id).wires = (h.buffer id).wires
  set : ∀ id, marked id → (h'.buffer id).done = done
  others : ∀ id, ¬ marked id → (h'.buffer id).done = (h.buffer id).done

theorem Marks.trans (one : Marks h h' first done) (two : Marks h' h'' second done) :
    Marks h h'' (fun id => first id ∨ second id) done := by
  refine ⟨two.detail.trans one.detail, fun id => (two.bufsize id).trans (one.bufsize id),
    fun id => (two.wires id).trans (one.wires id), ?_, ?_⟩
  · intro id marked
    by_cases late : second id
    · exact two.set id late
    · rw [two.others id late]
      exact one.set id (marked.resolve_right late)
  · intro id unmarked
    rw [two.others id fun late => unmarked (Or.inr late),
      one.others id fun early => unmarked (Or.inl early)]

theorem Marks.congr (marks : Marks h h' first done) (same : ∀ id, second id ↔ first id) :
    Marks h h' second done := by
  rwa [show second = first from funext fun id => propext (same id)]

theorem marks_mapBuffer (h : Heap α τ) (id : BufferId) (done : Bool) :
    Marks h (h.mapBuffer id fun b => b.setDone done) (· = id) done := by
  refine ⟨rfl, ?_, ?_, ?_, ?_⟩
  · intro c
    by_cases same : c = id
    · subst same
      simp [mapBuffer, Buffer.setDone]
    · simp [mapBuffer, same]
  · intro c
    by_cases same : c = id
    · subst same
      simp [mapBuffer, Buffer.wires, Buffer.setDone]
    · simp [mapBuffer, same]
  · rintro c rfl
    simp [mapBuffer, Buffer.setDone]
  · intro c other
    simp [mapBuffer, other]

theorem marks_outputs (ids : List BufferId) (h : Heap α τ) (done : Bool) :
    Marks h (ids.foldl (fun h id => h.mapBuffer id fun b => b.setDone done) h) (· ∈ ids) done := by
  induction ids generalizing h with
  | nil => exact ⟨rfl, fun _ => rfl, fun _ => rfl, by simp, fun _ _ => rfl⟩
  | cons id ids ih =>
    refine ((marks_mapBuffer h id done).trans (ih _)).congr ?_
    intro c
    rw [List.mem_cons]

theorem marks_inputs {ptrs : List (Option ReaderPtr)}
    (marked : ptrs.foldlM (setReaderDone done) h = .ok h') :
    Marks h h' (fun id => ∃ p, some p ∈ ptrs ∧ p.buffer = id) done := by
  induction ptrs generalizing h with
  | nil =>
    obtain rfl := Except.ok.inj marked
    exact ⟨rfl, fun _ => rfl, fun _ => rfl, by simp, fun _ _ => rfl⟩
  | cons p ptrs ih =>
    obtain ⟨mid, first, rest⟩ := foldlM_cons_ok.mp marked
    cases p with
    | none => cases first
    | some p =>
      obtain rfl := Except.ok.inj first
      refine ((marks_mapBuffer h p.buffer done).trans (ih rest)).congr ?_
      intro id
      simp only [List.mem_cons, Option.some.injEq]
      constructor
      · rintro ⟨q, rfl | later, rfl⟩
        · exact Or.inl rfl
        · exact Or.inr ⟨q, later, rfl⟩
      · rintro (rfl | ⟨q, later, rfl⟩)
        · exact ⟨p, Or.inl rfl, rfl⟩
        · exact ⟨q, Or.inr later, rfl⟩

theorem setDone_ok {block : BlockId} (set : h.setDone block d done = .ok h') :
    h'.detail = Function.update h.detail block (some { d with done := done }) ∧
    (∀ id, (h'.buffer id).bufsize = (h.buffer id).bufsize) ∧
    (∀ id, (h'.buffer id).wires = (h.buffer id).wires) ∧
    ∀ id, (h'.buffer id).done ≠ (h.buffer id).done →
      id ∈ d.output ∨ ∃ p, some p ∈ d.input ∧ p.buffer = id := by
  have marks := (marks_outputs d.output _ done).trans (marks_inputs set)
  refine ⟨marks.detail, marks.bufsize, marks.wires, ?_⟩
  intro id changed
  by_contra unmarked
  exact changed (marks.others id unmarked)

end Heap

/-! ## The loop at `try_again` -/

variable {n multiple : Nat}

theorem roundUp_eq (fits : n + multiple ≤ 2 ^ 32) :
    roundUp n multiple = (n + multiple - 1) / multiple * multiple := by
  by_cases zero : n + multiple = 0
  · simp [roundUp, zero]
  · rw [roundUp, Nat.mod_eq_of_lt (by omega)]

theorem roundUp_half_lt (pos : 0 < multiple) (above : multiple < n) (le : n ≤ intMax) :
    roundUp (n / 2) multiple < n ∧ 0 < roundUp (n / 2) multiple := by
  unfold intMax at le
  rw [roundUp_eq (by omega)]
  have whole : 1 ≤ (n / 2 + multiple - 1) / multiple :=
    (Nat.le_div_iff_mul_le pos).mpr (by omega)
  refine ⟨?_, Nat.mul_pos whole pos⟩
  -- a request of less than two multiples goes down to one multiple
  by_cases small : n / 2 ≤ multiple
  · have least : (n / 2 + multiple - 1) / multiple = 1 := by
      apply Nat.div_eq_of_lt_le <;> omega
    rw [least]
    omega
  · have := Nat.div_mul_le_self (n / 2 + multiple - 1) multiple
    omega

theorem fixedRateRequest_spec (g : GrBlock) (maxItemsAvail : Nat) (pos : 0 < n)
    (whole : g.outputMultiple ∣ n) :
    0 < fixedRateRequest g maxItemsAvail n ∧ fixedRateRequest g maxItemsAvail n ≤ n ∧
      g.outputMultiple ∣ fixedRateRequest g maxItemsAvail n := by
  unfold fixedRateRequest
  split
  · dsimp only
    split
    · rename_i adjusted
      refine ⟨by omega, by omega, ?_⟩
      have bound : roundUp (g.fixedRateNinputToNoutput maxItemsAvail % 2 ^ 32).toNat
          g.outputMultiple < 2 ^ 32 :=
        (Nat.div_mul_le_self _ _).trans_lt (Nat.mod_lt _ (by norm_num))
      have same : ((roundUp (g.fixedRateNinputToNoutput maxItemsAvail % 2 ^ 32).toNat
          g.outputMultiple : Nat) : Int).bmod (2 ^ 32) =
          (roundUp (g.fixedRateNinputToNoutput maxItemsAvail % 2 ^ 32).toNat
            g.outputMultiple : Nat) := by
        have positive := adjusted.1
        rw [Int.bmod_def] at positive ⊢
        split at positive <;> omega
      rw [same, Int.toNat_natCast]
      exact Nat.dvd_mul_left _ _
    · exact ⟨pos, le_rfl, whole⟩
  · exact ⟨pos, le_rfl, whole⟩

/-- The end of the loop for a request `n`: either a smaller request that the inputs have enough
for, or the least request, which they do not. -/
inductive AttemptEnds (g : GrBlock) (inputs : List Heap.InputView) (n : Nat) : Attempt → Prop
  | enough {k : Nat} (pos : 0 < k) (le : k ≤ n) (whole : g.outputMultiple ∣ k)
      (supplied : lackingInput (g.forecast k) inputs = none) : AttemptEnds g inputs n (.enough k)
  | lacking {i : Nat} (lacks : lackingInput (g.forecast g.outputMultiple) inputs = some i) :
      AttemptEnds g inputs n (.lacking i g.outputMultiple)

theorem AttemptEnds.le_trans {g : GrBlock} {inputs : List Heap.InputView} {m : Nat}
    {result : Attempt} (ends : AttemptEnds g inputs m result) (le : m ≤ n) :
    AttemptEnds g inputs n result := by
  cases ends with
  | enough pos less whole supplied => exact .enough pos (less.trans le) whole supplied
  | lacking lacks => exact .lacking lacks

/-- The loop ends, and when it gives up it was down to one output multiple. -/
theorem tryAgain_spec (g : GrBlock) (inputs : List Heap.InputView) (maxItemsAvail : Nat)
    (pos : 0 < n) (le : n ≤ intMax) (whole : g.outputMultiple ∣ n) :
    ∃ result, (∀ fuel, n ≤ fuel → tryAgain g inputs maxItemsAvail fuel n = some result) ∧
      AttemptEnds g inputs n result := by
  induction n using Nat.strong_induction_on with
  | _ n ih =>
  obtain ⟨reqdPos, reqdLe, reqdWhole⟩ := fixedRateRequest_spec g maxItemsAvail pos whole
  have pass : ∀ fuel, n ≤ fuel → ∃ rest, fuel = rest + 1 := fun fuel enough =>
    ⟨fuel - 1, by omega⟩
  cases lacks : lackingInput (g.forecast (fixedRateRequest g maxItemsAvail n)) inputs with
  | none =>
    refine ⟨.enough (fixedRateRequest g maxItemsAvail n), fun fuel enough => ?_,
      .enough reqdPos reqdLe reqdWhole lacks⟩
    obtain ⟨rest, rfl⟩ := pass fuel enough
    simp only [tryAgain, lacks]
  | some i =>
    by_cases above : g.outputMultiple < fixedRateRequest g maxItemsAvail n
    · obtain ⟨less, more⟩ := roundUp_half_lt g.outputMultiple_pos above (reqdLe.trans le)
      obtain ⟨result, ended, ends⟩ := ih _ (less.trans_le reqdLe) more (by omega)
        (Nat.dvd_mul_left _ _)
      refine ⟨result, fun fuel enough => ?_, ends.le_trans (by omega)⟩
      obtain ⟨rest, rfl⟩ := pass fuel enough
      simp only [tryAgain, lacks, if_pos above]
      exact ended rest (by omega)
    · have same : fixedRateRequest g maxItemsAvail n = g.outputMultiple :=
        le_antisymm (not_lt.mp above) (Nat.le_of_dvd reqdPos reqdWhole)
      rw [same] at lacks
      refine ⟨.lacking i g.outputMultiple, fun fuel enough => ?_, .lacking lacks⟩
      obtain ⟨rest, rfl⟩ := pass fuel enough
      simp only [tryAgain, same, lacks, lt_irrefl, if_false]

/-! ## Why an iteration ends a block -/

namespace Heap

/-- What makes an input end the block: a sink looks for a marked input with less than
one output multiple, otherwise it is the first input that lacks items for the least
request. -/
def EndsAt (g : GrBlock) (d : BlockDetail) (inputs : List InputView) (i : Nat) : Prop :=
  ∃ view, inputs[i]? = some view ∧
    ((d.output = [] ∧ view.ninputItems < g.outputMultiple ∧ view.inputDone) ∨
      (lackingInput (g.forecast g.outputMultiple) inputs = some i ∧
        (view.inputDone ∨ (view.maxPossible : Int) < g.forecast g.outputMultiple i)))

/-- How an iteration of block `b` ends. -/
inductive Ended (h : Heap α τ) (b : BlockId) (d : BlockDetail) (g : GrBlock)
    (inputs : List InputView) (it : Iteration α τ) : Prop
  | goesOn : it.cause = none → Quiet h it.heap → Ended h b d g inputs it
  | done (cause : DoneCause) (mid : Heap α τ) : it.cause = some cause → Quiet h mid →
      mid.setDone b d true = .ok it.heap →
      (∀ i, cause = .inputDone i ∨ cause = .neverEnough i → EndsAt g d inputs i) →
      Ended h b d g inputs it

variable {b : BlockId} {d : BlockDetail} {g : GrBlock} {inputs : List InputView}
  {work : Work α τ} {it : Iteration α τ}

theorem Ended.after {mid : Heap α τ} (quiet : Quiet h mid) (ended : Ended mid b d g inputs it) :
    Ended h b d g inputs it := by
  cases ended with
  | goesOn none rest => exact .goesOn none (quiet.trans rest)
  | done cause last some rest set ends => exact .done cause last some (quiet.trans rest) set ends

theorem wereDone_ended {cause : DoneCause} (was : h.wereDone b d cause = .ok it)
    (ends : ∀ i, cause = .inputDone i ∨ cause = .neverEnough i → EndsAt g d inputs i) :
    Ended h b d g inputs it := by
  obtain ⟨h', set, same⟩ := bind_ok.mp was
  obtain rfl := pure_ok.mp same
  exact .done cause h rfl (Quiet.refl h) set ends

theorem callWork_ended (called : h.callWork b d g work = .ok it) : Ended h b d g inputs it := by
  obtain ⟨⟨mid, produced⟩, worked, called⟩ := bind_ok.mp called
  refine Ended.after (quiet_workCalls worked) ?_
  dsimp only at called
  split at called
  · exact wereDone_ended called (by simp)
  · rename_i tagged propagated
    refine Ended.after (quiet_propagateTags propagated) ?_
    split at called
    · exact wereDone_ended called (by simp)
    · have quiet : Quiet tagged (if work.result ≠ workCalledProduce then
          tagged.produceEach d work.result else (tagged, false)).1 := by
        split
        · exact quiet_produceEach tagged d work.result
        · exact Quiet.refl tagged
      refine Ended.after quiet ?_
      generalize (if work.result ≠ workCalledProduce then
          tagged.produceEach d work.result else (tagged, false)) = last at called
      obtain ⟨last, more⟩ := last
      dsimp only at called ⊢
      split at called
      · obtain rfl := Except.ok.inj called
        exact .goesOn rfl (Quiet.refl last)
      · split at called
        · exact wereDone_ended called (by simp)
        · obtain rfl := Except.ok.inj called
          exact .goesOn rfl (Quiet.refl last)

theorem attempt_ended {most noutputItems : Nat} (pos : 0 < noutputItems)
    (le : noutputItems ≤ intMax) (whole : g.outputMultiple ∣ noutputItems)
    (attempted : h.attempt b d g inputs most noutputItems work = .ok it) :
    Ended h b d g inputs it := by
  obtain ⟨result, tried, ends⟩ := tryAgain_spec g inputs most pos le whole
  unfold attempt at attempted
  rw [tried _ le_rfl] at attempted
  cases ends with
  | enough => exact callWork_ended attempted
  | @lacking i lacks =>
    dsimp only at attempted
    split at attempted
    · cases attempted
    · rename_i view there
      split at attempted
      · rename_i marked
        refine wereDone_ended attempted ?_
        rintro j (same | same)
        · obtain rfl := DoneCause.inputDone.inj same
          exact ⟨view, there, Or.inr ⟨lacks, Or.inl marked⟩⟩
        · cases same
      · split at attempted
        · rename_i never
          refine wereDone_ended attempted ?_
          rintro j (same | same)
          · cases same
          · obtain rfl := DoneCause.neverEnough.inj same
            exact ⟨view, there, Or.inr ⟨lacks, Or.inr never⟩⟩
        · obtain rfl := Except.ok.inj attempted
          exact .goesOn rfl (Quiet.refl h)

/-- Items that can be asked for: an `int` in whole output multiples. -/
def Request (outputMultiple : Nat) (n : Int) : Prop :=
  ∃ k : Nat, n = k ∧ k ≤ intMax ∧ outputMultiple ∣ k

theorem request_offeredSpace (b : Buffer α τ) (outputMultiple : Nat) :
    Request outputMultiple (offeredSpace b outputMultiple) := by
  refine ⟨_, rfl, ?_, Nat.dvd_mul_left _ _⟩
  have offered := roundDown_le (min b.spaceAvailable.1 (b.bufsize / 2)) outputMultiple
  have fits := b.bufsize_le
  unfold offeredSpace
  omega

theorem Request.min {outputMultiple : Nat} {m n : Int} (left : Request outputMultiple m)
    (right : Request outputMultiple n) : Request outputMultiple (min m n) := by
  rcases min_choice m n with same | same
  · rwa [same]
  · rwa [same]

theorem minAvailableSpace_request (outputMultiple : Nat) (ids : List BufferId) (h : Heap α τ)
    {minSpace : Int} (initial : Request outputMultiple minSpace ∨ ids ≠ [] ∧ minSpace = intMax) :
    (h.minAvailableSpace outputMultiple ids minSpace).1 = -1 ∨
      Request outputMultiple (h.minAvailableSpace outputMultiple ids minSpace).1 := by
  induction ids generalizing h minSpace with
  | nil => exact Or.inr (initial.resolve_right fun empty => empty.1 rfl)
  | cons id ids ih =>
    have offered := request_offeredSpace (h.buffer id) outputMultiple
    unfold minAvailableSpace
    dsimp only
    split
    · split
      · exact Or.inl rfl
      · exact Or.inr ⟨0, rfl, Nat.zero_le _, Nat.dvd_zero _⟩
    · apply ih
      refine Or.inl ?_
      rcases initial with request | ⟨-, rfl⟩
      · exact request.min offered
      · obtain ⟨k, same, fits, whole⟩ := offered
        refine ⟨k, ?_, fits, whole⟩
        rw [same]
        omega

theorem runOneIteration_ended (ran : h.runOneIteration env b work = .ok it) :
    ∃ d g inputs, h.detail b = some d ∧ (env b).grBlock = some g ∧ d.done = false ∧
      d.input.mapM h.inputView = .ok inputs ∧ Ended h b d g inputs it := by
  unfold runOneIteration at ran
  split at ran
  · cases ran
  · cases ran
  rename_i d g detail block
  split at ran
  · cases ran
  rename_i open_
  refine ⟨d, g, ?_⟩
  have space := @minAvailableSpace_request _ _ g.outputMultiple d.output h intMax
  have pruned := quiet_minAvailableSpace g.outputMultiple d.output h intMax
  generalize h.minAvailableSpace g.outputMultiple d.output intMax = offer at ran space pruned
  obtain ⟨noutputItems, mid⟩ := offer
  dsimp only at ran space pruned
  split at ran
  · -- a source
    rename_i source
    refine ⟨[], detail, block, by simpa using open_, by rw [source]; rfl, ?_⟩
    refine Ended.after pruned ?_
    split at ran
    · exact wereDone_ended ran (by simp)
    · split at ran
      · obtain rfl := Except.ok.inj ran
        exact .goesOn rfl (Quiet.refl mid)
      · exact callWork_ended ran
  · obtain ⟨inputs, viewed, ran⟩ := bind_ok.mp ran
    refine ⟨inputs, detail, block, by simpa using open_, viewed, ?_⟩
    split at ran
    · -- a sink
      rename_i sink
      split at ran
      · rename_i i found
        refine wereDone_ended ran ?_
        rintro j (same | same)
        · obtain rfl := DoneCause.inputDone.inj same
          obtain ⟨inside, stops, -⟩ := List.findIdx?_eq_some_iff_getElem.mp found
          refine ⟨inputs[i], List.getElem?_eq_getElem inside, Or.inl ⟨sink, ?_⟩⟩
          simpa using stops
        · cases same
      · split at ran
        · cases ran
        · rename_i n converted
          split at ran
          · obtain rfl := Except.ok.inj ran
            exact .goesOn rfl (Quiet.refl h)
          · rename_i some
            refine attempt_ended (Nat.pos_of_ne_zero some) ?_ (Nat.dvd_mul_left _ _) ran
            have scaled : 0 ≤ Double.mul (maxItemsAvail inputs) g.relativeRate :=
              Double.round_nonneg (mul_nonneg (Nat.cast_nonneg _) g.relativeRate_nonneg)
            obtain ⟨nonneg, fits, -⟩ := Double.toInt_spec scaled converted
            have down := roundDown_le n.toNat g.outputMultiple
            unfold intMax
            omega
    · rename_i regular
      refine Ended.after pruned ?_
      split at ran
      · exact wereDone_ended ran (by simp)
      · rename_i room
        split at ran
        · obtain rfl := Except.ok.inj ran
          exact .goesOn rfl (Quiet.refl mid)
        · rename_i some
          obtain ⟨k, rfl, fits, whole⟩ := (space (Or.inr ⟨regular, rfl⟩)).resolve_left room
          exact attempt_ended (by omega) (by simpa using fits) (by simpa using whole) ran

end Heap

end GnuRadio
