import GnuRadio.Runtime.SetupConnections

/-!
# End of stream

When a block is done it marks the buffers of its outputs and, through its
readers, the buffers of its inputs. The mark on a buffer therefore says that its
writer or one of its readers is done. A block that lacks items looks only at the
mark, so it finishes at the right time as long as no other reader of a buffer
has finished before the writer.
-/

namespace GnuRadio

variable {α τ : Type} {h h' : Heap α τ} {env : Blocks} {fg : Flowgraph}

namespace Heap

/-! ## The marks of a running flowgraph -/

/-- `done()` of the detail of a block. -/
def blockDone (h : Heap α τ) (b : BlockId) : Bool := (h.detail b).any BlockDetail.done

/-- `items_available` at an input. -/
def itemsAt (h : Heap α τ) (dst : Endpoint) : Nat :=
  match h.inputAt dst with
  | none => 0
  | some p => ((h.readerAt p).map (h.buffer p.buffer).itemsAvailable).getD 0

/-- `max_possible_items_available` at an input. -/
def maxPossibleAt (h : Heap α τ) (dst : Endpoint) : Nat :=
  match h.inputAt dst with
  | none => 0
  | some p => (h.buffer p.buffer).maxPossibleItemsAvailable

variable {inputs : List InputView}

theorem view_spec {b : BlockId} {d : BlockDetail} {i : Nat} (detail : h.detail b = some d)
    (viewed : d.input.mapM h.inputView = .ok inputs) :
    (∀ view, inputs[i]? = some view → ∃ p, h.inputAt ⟨b, i⟩ = some p ∧
      view = ⟨h.itemsAt ⟨b, i⟩, (h.buffer p.buffer).done, h.maxPossibleAt ⟨b, i⟩⟩) ∧
    ∀ p, h.inputAt ⟨b, i⟩ = some p → ∃ view, inputs[i]? = some view := by
  have each := mapM_ok viewed i
  have port : h.inputAt ⟨b, i⟩ = (d.input[i]?).join := by
    simp [inputAt, detail]
  constructor
  · intro view there
    rw [there, Option.map_some, eq_comm, Option.map_eq_some_iff] at each
    obtain ⟨ptr, input, read⟩ := each
    rw [input, Option.join_some] at port
    unfold inputView at read
    split at read
    · cases read
    · rename_i p
      split at read
      · cases read
      · rename_i r found
        refine ⟨p, port, (Except.ok.inj read).symm.trans ?_⟩
        simp only [itemsAt, maxPossibleAt, port, found, Option.map_some, Option.getD_some]
  · intro p held
    rw [port] at held
    rw [Option.join_eq_some_iff.mp held, Option.map_some, Option.map_eq_some_iff] at each
    obtain ⟨view, there, -⟩ := each
    exact ⟨view, there⟩

theorem lackingInput_spec {required : Nat → Int} {i : Nat}
    (lacks : lackingInput required inputs = some i) :
    (∀ view, inputs[i]? = some view → (view.ninputItems : Int) < required i) ∧
    ∀ j view, j < i → inputs[j]? = some view → required j ≤ view.ninputItems := by
  unfold lackingInput at lacks
  obtain ⟨short, -, before⟩ := List.find?_range_eq_some.mp lacks
  constructor
  · intro view there
    simpa [there] using short
  · intro j view less there
    have enough := before j less
    simpa [there] using enough

end Heap

/-- The items `forecast` asks for at an input for one output multiple, the smallest
output of the block. -/
def Blocks.leastRequired (env : Blocks) (dst : Endpoint) : Int :=
  match (env dst.block).grBlock with
  | none => 0
  | some g => g.forecast g.outputMultiple dst.port.toNat

/-- `output_multiple()` of a block. -/
def Blocks.outputMultiple (env : Blocks) (b : BlockId) : Nat :=
  match (env b).grBlock with
  | none => 0
  | some g => g.outputMultiple

namespace Flowgraph

/-- A block of the flowgraph runs one iteration. -/
def iterate (env : Blocks) (fg : Flowgraph) (h : Heap α τ) (action : BlockId × Work α τ) :
    Option (Heap α τ) :=
  if action.1 ∈ fg.calcUsedBlocks then
    (h.runOneIteration env action.1 action.2).toOption.map Iteration.heap
  else none

/-- Some block that reads the output `src` is done. -/
def ReaderDone (fg : Flowgraph) (h : Heap α τ) (src : Endpoint) : Prop :=
  ∃ e ∈ fg.edges, e.src = src ∧ h.blockDone e.dst.block = true

/-- Edge `e` leads to the first input of its block that lacks items for the smallest output. -/
def FirstLacking (env : Blocks) (fg : Flowgraph) (h : Heap α τ) (e : Edge) : Prop :=
  (h.itemsAt e.dst : Int) < env.leastRequired e.dst ∧
  ∀ e' ∈ fg.edges, e'.dst.block = e.dst.block → e'.dst.port < e.dst.port →
    env.leastRequired e'.dst ≤ h.itemsAt e'.dst

/-- Edge `e` leads to an input of a sink with less than one output multiple. -/
def SinkBelow (env : Blocks) (fg : Flowgraph) (h : Heap α τ) (e : Edge) : Prop :=
  (∀ e' ∈ fg.edges, e'.src.block ≠ e.dst.block) ∧ h.itemsAt e.dst < env.outputMultiple e.dst.block

/-- At an input where the block may end no other reader is done before the writer, and a sink does
not end with items left for its smallest output. -/
def MarksTrusted (env : Blocks) (fg : Flowgraph) (h : Heap α τ) (b : BlockId) : Prop :=
  (∀ e ∈ fg.edges, e.dst.block = b → FirstLacking env fg h e ∨ SinkBelow env fg h e →
    ReaderDone fg h e.src → h.blockDone e.src.block = true) ∧
  ∀ e ∈ fg.edges, e.dst.block = b → SinkBelow env fg h e → h.blockDone e.src.block = true →
    (h.itemsAt e.dst : Int) < env.leastRequired e.dst

instance (src : Endpoint) : Decidable (ReaderDone fg h src) :=
  inferInstanceAs (Decidable (∃ e ∈ fg.edges, e.src = src ∧ h.blockDone e.dst.block = true))

instance (e : Edge) : Decidable (FirstLacking env fg h e) :=
  inferInstanceAs (Decidable (_ ∧ ∀ e' ∈ fg.edges, _ → _ → _))

instance (e : Edge) : Decidable (SinkBelow env fg h e) :=
  inferInstanceAs (Decidable ((∀ e' ∈ fg.edges, _) ∧ _))

instance (b : BlockId) : Decidable (MarksTrusted env fg h b) :=
  inferInstanceAs (Decidable ((∀ e ∈ fg.edges, _ → _ → _ → _) ∧ ∀ e ∈ fg.edges, _ → _ → _ → _))

/-- What a run keeps of the heap `h₀` it started from, and what the marks mean. -/
structure Streaming (fg : Flowgraph) (h₀ h : Heap α τ) : Prop where
  inputs : h.inputAt = h₀.inputAt
  outputs : h.outputAt = h₀.outputAt
  bufsize : ∀ id, (h.buffer id).bufsize = (h₀.buffer id).bufsize
  marked : ∀ src id, h.outputAt src = some id → (h.buffer id).done = true →
    h.blockDone src.block = true ∨ fg.ReaderDone h src

variable {b : BlockId} {h₀ : Heap α τ}

theorem Streaming.quiet (streaming : Streaming fg h₀ h) (quiet : Heap.Quiet h h') :
    Streaming fg h₀ h' := by
  have inputs : h'.inputAt = h.inputAt := by
    funext e
    rw [Heap.inputAt, Heap.inputAt, quiet.detail]
  have outputs : h'.outputAt = h.outputAt := by
    funext e
    rw [Heap.outputAt, Heap.outputAt, quiet.detail]
  have dones : h'.blockDone = h.blockDone := by
    funext b
    rw [Heap.blockDone, Heap.blockDone, quiet.detail]
  refine ⟨inputs.trans streaming.inputs, outputs.trans streaming.outputs,
    fun id => (quiet.bufsize id).trans (streaming.bufsize id), ?_⟩
  intro src id there marked
  rw [outputs] at there
  rw [quiet.done] at marked
  simp only [ReaderDone, dones]
  exact streaming.marked src id there marked

variable {d : BlockDetail} {g : GrBlock} {inputs : List Heap.InputView}

theorem Streaming.setDone (wired : h₀.WellWired none) (serves : h₀.Serves (· ∈ fg.edges))
    (streaming : Streaming fg h₀ h) (detail : h.detail b = some d)
    (set : h.setDone b d true = .ok h') : Streaming fg h₀ h' := by
  obtain ⟨details, bufsize, -, changed⟩ := Heap.setDone_ok set
  have inputs : h'.inputAt = h.inputAt := by
    funext e
    rw [Heap.inputAt, Heap.inputAt, details]
    by_cases here : e.block = b
    · rw [here, Function.update_self, detail]
      rfl
    · rw [Function.update_of_ne here]
  have outputs : h'.outputAt = h.outputAt := by
    funext e
    rw [Heap.outputAt, Heap.outputAt, details]
    by_cases here : e.block = b
    · rw [here, Function.update_self, detail]
      rfl
    · rw [Function.update_of_ne here]
  have ended : h'.blockDone b = true := by
    rw [Heap.blockDone, details, Function.update_self]
    rfl
  have stays : ∀ c, h.blockDone c = true → h'.blockDone c = true := by
    intro c before
    by_cases same : c = b
    · rw [same]
      exact ended
    · rwa [Heap.blockDone, details, Function.update_of_ne same]
  refine ⟨inputs.trans streaming.inputs, outputs.trans streaming.outputs,
    fun id => (bufsize id).trans (streaming.bufsize id), ?_⟩
  intro src id there marked
  rw [outputs] at there
  by_cases before : (h.buffer id).done = true
  · rcases streaming.marked src id there before with writer | ⟨e, member, same, reader⟩
    · exact Or.inl (stays _ writer)
    · exact Or.inr ⟨e, member, same, stays _ reader⟩
  · have there₀ : h₀.outputAt src = some id := by rw [← streaming.outputs, there]
    rcases changed id (by rw [marked]; exact Ne.symm before) with output | ⟨p, input, rfl⟩
    · obtain ⟨i, port⟩ := List.mem_iff_getElem?.mp output
      have mine : h.outputAt ⟨b, i⟩ = some id := by
        simp [Heap.outputAt, detail, port]
      rw [streaming.outputs] at mine
      rw [wired.output_inj _ _ id there₀ mine]
      exact Or.inl ended
    · obtain ⟨i, port⟩ := List.mem_iff_getElem?.mp input
      have mine : h.inputAt ⟨b, i⟩ = some p := by
        simp [Heap.inputAt, detail, port]
      rw [streaming.inputs] at mine
      obtain ⟨e, member, dst⟩ := serves.only _ p mine
      obtain ⟨q, held, source⟩ := serves.wired e member
      rw [dst, mine] at held
      obtain rfl := Option.some.inj held
      refine Or.inr ⟨e, member, wired.output_inj _ _ _ source there₀, ?_⟩
      rw [dst]
      exact ended

theorem Streaming.ended {it : Iteration α τ} (wired : h₀.WellWired none)
    (serves : h₀.Serves (· ∈ fg.edges)) (streaming : Streaming fg h₀ h)
    (detail : h.detail b = some d) (ended : Heap.Ended h b d g inputs it) :
    Streaming fg h₀ it.heap := by
  cases ended with
  | goesOn _ quiet => exact streaming.quiet quiet
  | done cause mid _ quiet set _ =>
    exact (streaming.quiet quiet).setDone wired serves (by rw [quiet.detail, detail]) set

theorem Streaming.maxPossibleAt (streaming : Streaming fg h₀ h) (dst : Endpoint) :
    h.maxPossibleAt dst = h₀.maxPossibleAt dst := by
  unfold Heap.maxPossibleAt
  rw [streaming.inputs]
  split
  · rfl
  · rw [Buffer.maxPossibleItemsAvailable, Buffer.maxPossibleItemsAvailable, streaming.bufsize]

theorem Streaming.endsAt {i : Nat} (serves : h₀.Serves (· ∈ fg.edges))
    (streaming : Streaming fg h₀ h)
    (fits : ∀ e ∈ fg.edges, env.leastRequired e.dst ≤ h₀.maxPossibleAt e.dst)
    (trusted : MarksTrusted env fg h b) (detail : h.detail b = some d)
    (block : (env b).grBlock = some g) (viewed : d.input.mapM h.inputView = .ok inputs)
    (ends : Heap.EndsAt g d inputs i) :
    ∃ e ∈ fg.edges, e.dst.block = b ∧ h.blockDone e.src.block = true ∧
      (h.itemsAt e.dst : Int) < env.leastRequired e.dst := by
  have served : ∀ dst p, h.inputAt dst = some p →
      ∃ e ∈ fg.edges, e.dst = dst ∧ h.outputAt e.src = some p.buffer := by
    intro dst p held
    rw [streaming.inputs] at held
    obtain ⟨e, member, rfl⟩ := serves.only dst p held
    obtain ⟨q, same, source⟩ := serves.wired e member
    rw [held] at same
    obtain rfl := Option.some.inj same
    exact ⟨e, member, rfl, by rw [streaming.outputs, source]⟩
  have required : ∀ j : Nat, env.leastRequired ⟨b, j⟩ = g.forecast g.outputMultiple j := by
    intro j
    simp [Blocks.leastRequired, block]
  obtain ⟨view, there, why⟩ := ends
  obtain ⟨p, held, rfl⟩ := (Heap.view_spec detail viewed).1 view there
  obtain ⟨e, member, dst, source⟩ := served _ p held
  dsimp only at why
  have mark : (h.buffer p.buffer).done = true →
      h.blockDone e.src.block = true ∨ fg.ReaderDone h e.src := streaming.marked _ _ source
  refine ⟨e, member, by rw [dst], ?_⟩
  rcases why with ⟨sink, below, marked⟩ | ⟨lacks, why⟩
  · have last : SinkBelow env fg h e := by
      refine ⟨?_, ?_⟩
      · intro e' member' from_b
        obtain ⟨q, -, output⟩ := serves.wired e' member'
        rw [← streaming.outputs, Heap.outputAt, from_b, dst, detail] at output
        simp [sink] at output
      · simpa [dst, Blocks.outputMultiple, block] using below
    have writer : h.blockDone e.src.block = true :=
      (mark marked).elim id (trusted.1 e member (by rw [dst]) (Or.inr last))
    exact ⟨writer, trusted.2 e member (by rw [dst]) last writer⟩
  · obtain ⟨short, before⟩ := Heap.lackingInput_spec lacks
    have lacking : (h.itemsAt e.dst : Int) < env.leastRequired e.dst := by
      rw [dst, required]
      exact short _ there
    have first : FirstLacking env fg h e := by
      refine ⟨lacking, ?_⟩
      intro e' member' same less
      obtain ⟨q, held', -⟩ := serves.wired e' member'
      rw [← streaming.inputs] at held'
      have nonneg : 0 ≤ e'.dst.port := by
        by_contra negative
        rw [Heap.inputAt, if_pos (not_le.mp negative)] at held'
        cases held'
      have here : e'.dst = ⟨b, (e'.dst.port.toNat : Nat)⟩ := by
        rw [Int.toNat_of_nonneg nonneg, ← show e'.dst.block = b by rw [same, dst]]
      rw [here] at held' ⊢
      obtain ⟨view', there'⟩ := (Heap.view_spec detail viewed).2 q held'
      obtain ⟨_, -, shape⟩ := (Heap.view_spec detail viewed).1 view' there'
      have enough := before _ view' (by rw [dst] at less; dsimp only at less; omega) there'
      rw [shape] at enough
      rw [required]
      exact enough
    refine ⟨?_, lacking⟩
    rcases why with marked | never
    · exact (mark marked).elim id (trusted.1 e member (by rw [dst]) (Or.inl first))
    · have possible := fits e member
      rw [dst, required, ← streaming.maxPossibleAt] at possible
      exact absurd never (not_lt.mpr possible)

variable [Zero α]

theorem SetUp.streaming {granularity : Nat}
    (ready : SetUp env granularity fg h₀) : Streaming fg h₀ h₀ := by
  refine ⟨rfl, rfl, fun _ => rfl, ?_⟩
  intro src id there marked
  have used : src.block ∈ fg.calcUsedBlocks := by
    by_contra unused
    have none := ready.unused src.block unused
    rw [Heap.ports, Option.map_eq_none_iff] at none
    unfold Heap.outputAt at there
    rw [none] at there
    split at there <;> cases there
  obtain ⟨-, b, allocated, same⟩ := (ready.detailed src.block used).made src.port id there
  obtain ⟨_, _, _, _, _, _, rfl⟩ := allocateBuffer_ok allocated
  rw [same] at marked
  cases marked

theorem Streaming.run {granularity : Nat} (ready : SetUp env granularity fg h₀)
    {actions : List (BlockId × Work α τ)} (streaming : Streaming fg h₀ h)
    (reached : GnuRadio.run (fg.iterate env) h actions = some h') : Streaming fg h₀ h' := by
  refine run_invariant (Streaming fg h₀) ?_ streaming reached
  rintro s ⟨b, work⟩ t before stepped
  unfold iterate at stepped
  split at stepped
  · cases ran : s.runOneIteration env b work with
    | error e => rw [ran] at stepped; cases stepped
    | ok it =>
      rw [ran] at stepped
      obtain rfl := Option.some.inj stepped
      obtain ⟨d, g, inputs, detail, -, -, -, ended⟩ := Heap.runOneIteration_ended ran
      exact before.ended ready.wellWired ready.serves detail ended
  · cases stepped

/-- No premature end of stream: where the marks can be trusted, a block that ends because of its
inputs has an input with too few items for its smallest output whose upstream block is done. -/
theorem endOfStream_not_premature {granularity : Nat} {actions : List (BlockId × Work α τ)}
    {work : Work α τ} {it : Iteration α τ} (valid : fg.Valid env)
    (setup : fg.setupConnections env granularity (Heap.empty : Heap α τ) = .ok h₀)
    (fits : ∀ e ∈ fg.edges, env.leastRequired e.dst ≤ h₀.maxPossibleAt e.dst)
    (trusted : Throughout (fun h action => MarksTrusted env fg h action.1) (fg.iterate env) h₀
      (actions ++ [(b, work)]))
    (reached : GnuRadio.run (fg.iterate env) h₀ actions = some h)
    (ran : h.runOneIteration env b work = .ok it)
    (because : ∃ i, it.cause = some (.inputDone i) ∨ it.cause = some (.neverEnough i)) :
    ∃ e ∈ fg.edges, e.dst.block = b ∧ h.blockDone e.src.block = true ∧
      (h.itemsAt e.dst : Int) < env.leastRequired e.dst := by
  have ready := setupConnections_ok valid setup
  have streaming := ready.streaming.run ready reached
  obtain ⟨d, g, inputs, detail, block, -, viewed, ended⟩ := Heap.runOneIteration_ended ran
  obtain ⟨i, because⟩ := because
  cases ended with
  | goesOn none _ => simp [none] at because
  | done cause mid same _ _ ends =>
    simp only [same, Option.some.injEq] at because
    exact streaming.endsAt ready.serves fits (trusted.append reached).1 detail block viewed
      (ends i because)

/-! ## A source that feeds two sinks -/

/-- Two sources, as block 2 a sink with two inputs, as block 3 a sink with one. -/
def fanOutBlocks : Blocks := fun b =>
  let plain := GrBlock.initial
  if b = 2 then BasicBlock.leaf "mixer" 2 0 plain 4 sizeofFloat_pos
  else if b = 3 then BasicBlock.leaf "sink" 1 0 plain 4 sizeofFloat_pos
  else BasicBlock.leaf "source" 0 1 plain 4 sizeofFloat_pos

/-- Both sinks read source 0, the mixer reads source 1 as well. -/
def fanOut : Flowgraph :=
  ⟨[0, 1, 2, 3], [⟨⟨0, 0⟩, ⟨2, 0⟩⟩, ⟨⟨1, 0⟩, ⟨2, 1⟩⟩, ⟨⟨0, 0⟩, ⟨3, 0⟩⟩]⟩

theorem fanOut_valid : fanOut.Valid fanOutBlocks where
  built := .validate (Built.empty.connectAll fanOut.edges rfl) rfl
  validated := rfl

def idle : Work Nat Unit := ⟨[], 0⟩

/-- `general_work` of a source that has come to its end. -/
def finished : Work Nat Unit := ⟨[], workDone⟩

/-- Source 1 comes to its end, and with it the mixer. -/
def mixerEnds : List (BlockId × Work Nat Unit) := [(1, finished), (2, idle)]

/-- Sink 3 ends although its only upstream block, source 0, is not done: the mixer has
marked the buffer they share. -/
theorem endOfStream_premature : fanOut.Valid fanOutBlocks ∧
    (∀ action ∈ mixerEnds, action.2.result = workDone → fanOut.ninputs action.1 = 0) ∧
    ∃ (h₀ h : Heap Nat Unit) (it : Iteration Nat Unit),
    fanOut.setupConnections fanOutBlocks 4096 Heap.empty = .ok h₀ ∧
    (∀ e ∈ fanOut.edges, fanOutBlocks.leastRequired e.dst ≤ h₀.maxPossibleAt e.dst) ∧
    GnuRadio.run (fanOut.iterate fanOutBlocks) h₀ mixerEnds = some h ∧
    h.runOneIteration fanOutBlocks 3 idle = .ok it ∧ it.cause = some (.inputDone 0) ∧
    ¬ ∃ e ∈ fanOut.edges, e.dst.block = 3 ∧ h.blockDone e.src.block = true ∧
      (h.itemsAt e.dst : Int) < fanOutBlocks.leastRequired e.dst := by
  refine ⟨fanOut_valid, by decide +kernel, ?_⟩
  have evaluated : ((fanOut.setupConnections (α := Nat) (τ := Unit) fanOutBlocks 4096
      Heap.empty).toOption.any fun h₀ =>
        decide (∀ e ∈ fanOut.edges,
          fanOutBlocks.leastRequired e.dst ≤ h₀.maxPossibleAt e.dst) &&
        (GnuRadio.run (fanOut.iterate fanOutBlocks) h₀ mixerEnds).any fun h =>
          (h.runOneIteration fanOutBlocks 3 idle).toOption.any fun it =>
            decide (it.cause = some (.inputDone 0)) &&
            decide (¬ ∃ e ∈ fanOut.edges, e.dst.block = 3 ∧ h.blockDone e.src.block = true ∧
              (h.itemsAt e.dst : Int) < fanOutBlocks.leastRequired e.dst)) = true := by
    decide +kernel
  simp only [Option.any_eq_true, toOption_some, Bool.and_eq_true, decide_eq_true_iff] at evaluated
  obtain ⟨h₀, setup, fits, h, reached, it, ran, cause, never⟩ := evaluated
  exact ⟨h₀, h, it, setup, fits, reached, ran, cause, never⟩

/-- Source 0 writes an item, then source 1 comes to its end. -/
def sourceEnds : List (BlockId × Work Nat Unit) := [(0, ⟨[.write 0 [7]], 1⟩), (1, finished)]

/-- The mixer ends on its empty input from source 1. -/
theorem endOfStream_not_premature_mixer : ∃ (h₀ h : Heap Nat Unit) (it : Iteration Nat Unit),
    fanOut.setupConnections fanOutBlocks 4096 Heap.empty = .ok h₀ ∧
    GnuRadio.run (fanOut.iterate fanOutBlocks) h₀ sourceEnds = some h ∧
    h.runOneIteration fanOutBlocks 2 idle = .ok it ∧
    ∃ e ∈ fanOut.edges, e.dst.block = 2 ∧ h.blockDone e.src.block = true ∧
      (h.itemsAt e.dst : Int) < fanOutBlocks.leastRequired e.dst := by
  have evaluated : ((fanOut.setupConnections (α := Nat) (τ := Unit) fanOutBlocks 4096
      Heap.empty).toOption.any fun h₀ =>
        decide (∀ e ∈ fanOut.edges,
          fanOutBlocks.leastRequired e.dst ≤ h₀.maxPossibleAt e.dst) &&
        decide (Throughout (fun h action => MarksTrusted fanOutBlocks fanOut h action.1)
          (fanOut.iterate fanOutBlocks) h₀ (sourceEnds ++ [(2, idle)])) &&
        (GnuRadio.run (fanOut.iterate fanOutBlocks) h₀ sourceEnds).any fun h =>
          (h.runOneIteration fanOutBlocks 2 idle).toOption.any fun it =>
            decide (it.cause = some (.inputDone 1))) = true := by
    decide +kernel
  simp only [Option.any_eq_true, toOption_some, Bool.and_eq_true, decide_eq_true_iff] at evaluated
  obtain ⟨h₀, setup, ⟨fits, trusted⟩, h, reached, it, ran, cause⟩ := evaluated
  exact ⟨h₀, h, it, setup, reached, ran,
    endOfStream_not_premature fanOut_valid setup fits trusted reached ran ⟨1, Or.inl cause⟩⟩

end Flowgraph

end GnuRadio
