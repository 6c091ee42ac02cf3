import GnuRadio.Runtime.BlockExecutor

/-!
# The size of an output buffer

`gr_flat_flowgraph::allocate_buffer` makes a buffer twice as large as one round
of its writer or of any of its readers asks for. In every run of the buffer the
writer is then offered one output multiple, or some reader has the items for one
of its own output multiples.
-/

namespace GnuRadio

variable {α τ : Type}

/-- `s_fixed_buffer_size` (`gr_flat_flowgraph.cc:36-39`). -/
def fixedBufferSize : Nat := 32 * 2 ^ 10

/-- The items `allocate_buffer` asks for on behalf of one downstream block
(`gr_flat_flowgraph.cc:116-119`). The decimation is infinite when the rate is 0. -/
def GrBlock.downstreamItems (d : GrBlock) : Except CppException Int :=
  if d.relativeRate = 0 then .error .undefinedBehaviour
  else do
    let decimation := Double.div 1 d.relativeRate
    let history ← asInt d.history
    match Double.toInt (Double.mul 2 (Double.add (Double.mul decimation d.outputMultiple) history))
    with
    | some nitems => .ok nitems
    | none => .error .undefinedBehaviour

namespace Flowgraph

/-- One round of the loop of `allocate_buffer` over the downstream blocks. -/
def downstreamStep (env : Blocks) (nitems : Int) (p : BlockId) : Except CppException Int :=
  match (env p).grBlock with
  | none => .error (.runtimeError "allocate_buffer found non-gr_block")
  | some d => do
      let needed ← d.downstreamItems
      return max nitems needed

/-- The number of items `gr_flat_flowgraph::allocate_buffer` chooses
(`gr_flat_flowgraph.cc:89-120`). The division is one of `unsigned int`s. -/
def bufferItems (env : Blocks) (fg : Flowgraph) (block : BlockId) (port : Int) :
    Except CppException Int :=
  match (env block).grBlock with
  | none => .error (.runtimeError "allocate_buffer found non-gr_block")
  | some grblock => do
      let itemSize ← (env block).outputSignature.sizeofStreamItem port
      let divisor := (itemSize % 2 ^ 32).toNat
      if divisor = 0 then .error .undefinedBehaviour
      else do
        let nitems : Int := (fixedBufferSize * 2 / divisor : Nat)
        let twice ← asInt (2 * grblock.outputMultiple)
        let nitems := if nitems < twice then twice else nitems
        (fg.calcDownstreamBlocksOf block port).foldlM (downstreamStep env) nitems

/-- `gr_flat_flowgraph::allocate_buffer` (`gr_flat_flowgraph.cc:89-122`). -/
def allocateBuffer [Zero α] (env : Blocks) (fg : Flowgraph) (granularity : Nat) (block : BlockId)
    (port : Int) : Except CppException (Buffer α τ) := do
  let nitems ← fg.bufferItems env block port
  let itemSize ← (env block).outputSignature.sizeofStreamItem port
  Buffer.make granularity nitems.toNat itemSize.toNat block

variable {env : Blocks} {fg : Flowgraph} {block : BlockId} {nitems : Int}

theorem allocateBuffer_ok [Zero α] {granularity : Nat} {port : Int} {b : Buffer α τ}
    (allocated : fg.allocateBuffer env granularity block port = .ok b) :
    ∃ nitems n pos le, fg.bufferItems env block port = .ok nitems ∧ nitems ≤ (n : Nat) ∧
      b = Buffer.ofSize n pos le block := by
  obtain ⟨nitems, chosen, allocated⟩ := bind_ok.mp allocated
  obtain ⟨itemSize, -, allocated⟩ := bind_ok.mp allocated
  obtain ⟨pos, le, enough, same⟩ := Buffer.make_ok allocated
  exact ⟨nitems, _, pos, le, chosen, by omega, same⟩

/-! ## What the chosen size covers -/

theorem downstreamStep_ok {next : Int} {p : BlockId}
    (stepped : downstreamStep env nitems p = .ok next) :
    ∃ d needed, (env p).grBlock = some d ∧ d.downstreamItems = .ok needed ∧
      next = max nitems needed := by
  unfold downstreamStep at stepped
  split at stepped
  · cases stepped
  · rename_i d block
    obtain ⟨needed, items, same⟩ := bind_ok.mp stepped
    exact ⟨d, needed, block, items, (pure_ok.mp same).symm⟩

theorem downstream_ge {blocks : List BlockId} {total : Int}
    (looped : blocks.foldlM (downstreamStep env) nitems = .ok total) :
    nitems ≤ total ∧ ∀ p ∈ blocks, ∃ d needed, (env p).grBlock = some d ∧
      d.downstreamItems = .ok needed ∧ needed ≤ total := by
  induction blocks generalizing nitems with
  | nil =>
    obtain rfl := Except.ok.inj looped
    exact ⟨le_rfl, by simp⟩
  | cons p blocks ih =>
    obtain ⟨next, first, rest⟩ := foldlM_cons_ok.mp looped
    obtain ⟨d, needed, block, items, rfl⟩ := downstreamStep_ok first
    obtain ⟨more, covered⟩ := ih rest
    refine ⟨(le_max_left _ _).trans more, ?_⟩
    intro q member
    rcases List.mem_cons.mp member with rfl | member
    · exact ⟨d, needed, block, items, (le_max_right _ _).trans more⟩
    · exact covered q member

theorem bufferItems_ge {port : Int} (chosen : fg.bufferItems env block port = .ok nitems) :
    (∃ grblock, (env block).grBlock = some grblock ∧ 2 * (grblock.outputMultiple : Int) ≤ nitems) ∧
    ∀ p ∈ fg.calcDownstreamBlocksOf block port, ∃ d needed, (env p).grBlock = some d ∧
      d.downstreamItems = .ok needed ∧ needed ≤ nitems := by
  unfold bufferItems at chosen
  split at chosen
  · cases chosen
  · rename_i grblock block
    obtain ⟨itemSize, -, chosen⟩ := bind_ok.mp chosen
    dsimp only at chosen
    split at chosen
    · cases chosen
    obtain ⟨twice, fits, chosen⟩ := bind_ok.mp chosen
    obtain ⟨more, covered⟩ := downstream_ge chosen
    refine ⟨⟨grblock, block, ?_⟩, covered⟩
    rw [← (asInt_ok fits).1]
    refine le_trans ?_ more
    split <;> omega

end Flowgraph

/-- The rate of a block that turns `decimation` items into one: what
`gr_sync_decimator::set_decimation` sets (`gr_sync_decimator.h:55-59`). -/
def GrBlock.IsDecimator (d : GrBlock) (decimation : Nat) : Prop :=
  1 ≤ decimation ∧ d.relativeRate = Double.div 1 decimation

variable {decimation multiple : Nat} {d : GrBlock} {needed : Int}

theorem decimation_lower (pos : 1 ≤ decimation) :
    (decimation : ℚ) * (1 - 2 * Double.unit) ≤ Double.div 1 (Double.div 1 decimation) := by
  have many : (0 : ℚ) < decimation := by exact_mod_cast pos
  have small : Double.unit ≤ 1 / 8 := by norm_num [Double.unit]
  have positive : (0 : ℚ) < Double.unit := by norm_num [Double.unit]
  have low : (1 / decimation : ℚ) * (1 - Double.unit) ≤ Double.div 1 decimation :=
    Double.round_lower (by positivity)
  have high : Double.div 1 decimation ≤ (1 / decimation : ℚ) * (1 + Double.unit) :=
    Double.round_upper (by positivity)
  have rate : (0 : ℚ) < Double.div 1 decimation :=
    lt_of_lt_of_le (mul_pos (by positivity) (by linarith)) low
  have inverse : (decimation : ℚ) * (1 - 1 * Double.unit) ≤ 1 / Double.div 1 decimation := by
    rw [le_div_iff₀ rate]
    calc (decimation : ℚ) * (1 - 1 * Double.unit) * Double.div 1 decimation
        ≤ decimation * (1 - 1 * Double.unit) * ((1 / decimation) * (1 + Double.unit)) :=
          mul_le_mul_of_nonneg_left high (mul_nonneg many.le (by linarith))
      _ = 1 - Double.unit * Double.unit := by field_simp; ring
      _ ≤ 1 := by linarith [mul_pos positive positive]
  have := Double.round_lower_trans many.le (by norm_num) (by linarith) inverse
  rw [one_add_one_eq_two] at this
  exact this

theorem requirement_lower {x decimation multiple history : ℚ} (decimationPos : 0 ≤ decimation)
    (multiplePos : 0 ≤ multiple) (historyPos : 0 ≤ history)
    (decimated : decimation * (1 - 2 * Double.unit) ≤ x) :
    2 * (decimation * multiple + history) * (1 - 5 * Double.unit) ≤
      Double.mul 2 (Double.add (Double.mul x multiple) history) := by
  have small : Double.unit ≤ 1 / 8 := by norm_num [Double.unit]
  have positive : (0 : ℚ) < Double.unit := by norm_num [Double.unit]
  have scaled : decimation * multiple * (1 - 2 * Double.unit) ≤ x * multiple := by
    linarith [mul_le_mul_of_nonneg_right decimated multiplePos]
  have product : decimation * multiple * (1 - 3 * Double.unit) ≤ Double.mul x multiple := by
    have := Double.round_lower_trans (mul_nonneg decimationPos multiplePos) (by norm_num)
      (by linarith) scaled
    norm_num at this
    exact this
  have shifted : (decimation * multiple + history) * (1 - 3 * Double.unit) ≤
      Double.mul x multiple + history := by
    linarith [mul_nonneg historyPos positive.le]
  have total : 0 ≤ decimation * multiple + history :=
    add_nonneg (mul_nonneg decimationPos multiplePos) historyPos
  have sum : (decimation * multiple + history) * (1 - 4 * Double.unit) ≤
      Double.add (Double.mul x multiple) history := by
    have := Double.round_lower_trans total (by norm_num) (by linarith) shifted
    norm_num at this
    exact this
  have doubled : 2 * (decimation * multiple + history) * (1 - 4 * Double.unit) ≤
      2 * Double.add (Double.mul x multiple) history := by linarith
  have := Double.round_lower_trans (mul_nonneg (by norm_num) total) (by norm_num)
    (by linarith) doubled
  norm_num at this
  exact this

/-- Twice the decimation times the multiple plus the history, less one at most for rounding. -/
theorem downstreamItems_lower
    (decimated : (decimation : ℚ) * (1 - 2 * Double.unit) ≤ Double.div 1 d.relativeRate)
    (items : d.downstreamItems = .ok needed) :
    2 * ((decimation : Int) * d.outputMultiple + d.history) - 1 ≤ needed ∧
      0 ≤ needed ∧ needed ≤ 2147483647 ∧ d.history ≤ intMax := by
  unfold GrBlock.downstreamItems at items
  split at items
  · cases items
  obtain ⟨history, fits, items⟩ := bind_ok.mp items
  obtain ⟨rfl, -, fits⟩ := asInt_ok fits
  split at items
  · rename_i nitems converted
    obtain rfl := Except.ok.inj items
    have history : (0 : ℚ) ≤ ((d.history : Int) : ℚ) := by positivity
    have lower := requirement_lower (Nat.cast_nonneg decimation) (Nat.cast_nonneg d.outputMultiple)
      history decimated
    have total : (0 : ℚ) ≤ decimation * d.outputMultiple + ((d.history : Int) : ℚ) := by positivity
    have nonneg : 0 ≤ Double.mul 2 (Double.add (Double.mul (Double.div 1 d.relativeRate)
        d.outputMultiple) ((d.history : Int) : ℚ)) :=
      le_trans (mul_nonneg (mul_nonneg (by norm_num) total) (by norm_num [Double.unit])) lower
    obtain ⟨least, most, above⟩ := Double.toInt_spec nonneg converted
    have limit : (nitems : ℚ) ≤ 2147483647 := by exact_mod_cast most
    -- the total stays below 2^32, so five last places of it are less than one item
    have near : 2 * ((decimation : ℚ) * d.outputMultiple + d.history) < nitems + 2 := by
      have lt := lt_of_le_of_lt lower above
      norm_num [Double.unit] at lt ⊢
      linarith
    have near : 2 * ((decimation : Int) * d.outputMultiple + d.history) < nitems + 2 := by
      exact_mod_cast near
    exact ⟨by omega, least, most, by unfold intMax; omega⟩
  · cases items

theorem downstreamItems_ge (decimator : d.IsDecimator decimation)
    (items : d.downstreamItems = .ok needed) :
    2 * ((decimation : Int) * d.outputMultiple + d.history) - 1 ≤ needed := by
  obtain ⟨pos, rate⟩ := decimator
  exact (downstreamItems_lower (rate ▸ decimation_lower pos) items).1

theorem fixedRateNoutputToNinput_eq {history : Nat} (some : 1 ≤ history)
    (fits : decimation * multiple + history ≤ intMax) :
    fixedRateNoutputToNinput decimation history multiple =
      (decimation * multiple + history - 1 : Nat) := by
  unfold fixedRateNoutputToNinput
  unfold intMax at fits
  rw [Nat.mul_comm] at fits ⊢
  have product : ((multiple * decimation : Nat) : Int) = (multiple : Int) * decimation := by
    push_cast
    ring
  rw [← product, bmod_int (by omega) (by omega)]
  omega

/-- With less than half of the buffer in front of each reader, a multiple is offered. -/
theorem offered_of_backlogs {n most : Nat} (pos : 0 < multiple) (twice : 2 * multiple ≤ n)
    (short : 2 * most + 1 ≤ n) : multiple ≤ roundDown (min (n - 1 - most) (n / 2)) multiple := by
  apply le_roundDown pos
  omega

theorem foldr_max_le {l : List Nat} {m : Nat} (bounded : ∀ k ∈ l, k ≤ m) :
    l.foldr max 0 ≤ m := by
  induction l with
  | nil => simp
  | cons x xs ih =>
    simp only [List.foldr_cons]
    exact max_le (bounded x List.mem_cons_self)
      (ih fun k member => bounded k (List.mem_cons_of_mem x member))

/-- A buffer of the size `allocate_buffer` chooses, or larger: in every state the writer is offered
its output multiple, or some reader has the items for one of its own. -/
theorem buffer_never_stalls [Zero α] {env : Blocks} {fg : Flowgraph} {block : BlockId} {port : Int}
    {nitems : Int} {n : Nat} {grblock : GrBlock} {d : BlockId → GrBlock} {decimation : BlockId → Nat}
    {readers : List BlockId} (writer : (env block).grBlock = some grblock)
    (chosen : fg.bufferItems env block port = .ok nitems) (enough : nitems ≤ n)
    (pos : 0 < n) (le : n ≤ intMax)
    (fed : ∀ j ∈ readers, j ∈ fg.calcDownstreamBlocksOf block port)
    (decimators : ∀ j ∈ readers, (env j).grBlock = some (d j) ∧ (d j).IsDecimator (decimation j) ∧
      1 ≤ (d j).history) :
    ∃ s₀ : BufferSession α τ,
      BufferSession.start n pos le block (fun i => readers.getD i 0)
        (readers.map fun j => (d j).history - 1) = .ok s₀ ∧
      ∀ ops s, run BufferSession.step s₀ ops = some s →
        grblock.outputMultiple ≤ offeredSpace s.buf grblock.outputMultiple ∨
        ∃ i j r, readers[i]? = some j ∧ s.buf.reader? i = some r ∧
          fixedRateNoutputToNinput (decimation j) (d j).history (d j).outputMultiple =
            (decimation j * (d j).outputMultiple + (d j).history - 1 : Nat) ∧
          decimation j * (d j).outputMultiple + (d j).history - 1 ≤ s.buf.itemsAvailable r := by
  obtain ⟨⟨_, same, twice⟩, covered⟩ := Flowgraph.bufferItems_ge chosen
  obtain rfl : grblock = _ := Option.some.inj (writer.symm.trans same)
  have size : ∀ j ∈ readers,
      2 * (decimation j * (d j).outputMultiple + (d j).history) ≤ n + 1 := by
    intro j member
    obtain ⟨same, decimator, -⟩ := decimators j member
    obtain ⟨other, needed, found, items, least⟩ := covered j (fed j member)
    obtain rfl : d j = other := Option.some.inj (same.symm.trans found)
    have := (downstreamItems_ge decimator items).trans (least.trans enough)
    zify
    linarith
  have fits : ∀ p ∈ readers.map fun j => (d j).history - 1, p < n := by
    intro p member
    obtain ⟨j, inside, rfl⟩ := List.mem_map.mp member
    obtain ⟨-, -, some⟩ := decimators j inside
    have := size j inside
    omega
  obtain ⟨s₀, started, -⟩ := BufferSession.start_refines (α := α) (τ := τ) pos le block
    (fun i => readers.getD i 0) fits
  refine ⟨s₀, started, ?_⟩
  intro ops s reached
  obtain ⟨q, ordered, refines⟩ := BufferSession.run_simulated pos le block _ fits started reached
  have state := refines.faithful ordered
  rw [or_iff_not_imp_right]
  intro waiting
  -- every reader lacks an item, so its backlog is below half of the buffer
  have short : ∀ k ∈ (List.range (readers.map fun j => (d j).history - 1).length).map
      (s.backlog (readers.map fun j => (d j).history - 1)), k ≤ (n - 1) / 2 := by
    intro k member
    obtain ⟨i, inside, rfl⟩ := List.mem_map.mp member
    rw [List.mem_range] at inside
    obtain ⟨r, found, -, -, available, -⟩ := state.reader i inside
    rw [List.length_map] at inside
    have here : readers[i] ∈ readers := List.getElem_mem inside
    have room := size _ here
    obtain ⟨-, -, some⟩ := decimators _ here
    by_contra much
    refine waiting ⟨i, readers[i], r, List.getElem?_eq_getElem inside, found,
      fixedRateNoutputToNinput_eq some (by omega), ?_⟩
    rw [available]
    omega
  have most := foldr_max_le short
  rw [offeredSpace, state.bufsize, state.space]
  have twice : 2 * grblock.outputMultiple ≤ n := by omega
  have half : 2 * ((n - 1) / 2) + 1 ≤ n := by omega
  have offered := offered_of_backlogs grblock.outputMultiple_pos twice half
  refine offered.trans (Nat.mul_le_mul_right _ (Nat.div_le_div_right ?_))
  omega

theorem sizeofVector_pos : 0 < 4096 := by decide

theorem decimatorMultiple_pos : 0 < 4 := by decide

theorem decimatorMultiple_le : 4 ≤ intMax := by decide

/-- A decimator by 93 that reads a source of large items. Rounding makes the buffer one
item smaller than twice the requirement. -/
def decimatorBlocks : Blocks := fun b =>
  if b = 0 then .leaf "source" 0 1 .initial 4096 sizeofVector_pos
  else .leaf "decimator" 1 1 (.syncDecimator 93 5 4 decimatorMultiple_pos decimatorMultiple_le) 4096
    sizeofVector_pos

theorem buffer_never_stalls_decimator : ∃ s₀ s : BufferSession Nat Unit,
    BufferSession.start 753 (by decide) (by decide) 0 (fun i => [1].getD i 0) [4] = .ok s₀ ∧
    run BufferSession.step s₀ [.write [7, 8, 9], .read 0 2] = some s ∧
    (1 ≤ offeredSpace s.buf 1 ∨ ∃ i j r, [1][i]? = some j ∧ s.buf.reader? i = some r ∧
      fixedRateNoutputToNinput 93 5 4 = 376 ∧ 376 ≤ s.buf.itemsAvailable r) := by
  obtain ⟨s₀, started, running⟩ := @buffer_never_stalls Nat Unit _ decimatorBlocks
    ⟨[], [⟨⟨0, 0⟩, ⟨1, 0⟩⟩]⟩ 0 0 753 753 .initial
    (fun _ => .syncDecimator 93 5 4 decimatorMultiple_pos decimatorMultiple_le) (fun _ => 93) [1]
    rfl (by decide +kernel) le_rfl (by decide) (by decide) (by decide)
    (by
      intro j member
      obtain rfl := List.mem_singleton.mp member
      exact ⟨rfl, ⟨by decide, rfl⟩, by decide⟩)
  have enabled : ((BufferSession.start (α := Nat) (τ := Unit) 753 (by decide) (by decide) 0
      (fun i => [1].getD i 0) [4]).toOption.bind fun s =>
        run BufferSession.step s [.write [7, 8, 9], .read 0 2]).isSome := by
    decide +kernel
  rw [show BufferSession.start 753 _ _ 0 _ [4] = .ok s₀ from started] at enabled
  obtain ⟨s, reached⟩ := Option.isSome_iff_exists.mp enabled
  exact ⟨s₀, s, started, reached, running _ s reached⟩

end GnuRadio

/-!
## `gr_flat_flowgraph`

Wiring a validated flowgraph of leaf blocks, and wiring it again after a
reconfiguration (`gr_flat_flowgraph.cc`). The flowgraph works on the heap of
details and buffers its blocks point to.
-/

namespace GnuRadio

variable {α τ : Type} [Zero α]

/-- `history()-1` as the `int` argument of `gr_buffer_add_reader`. -/
def GrBlock.preload (g : GrBlock) : Int := ((g.history : Int) - 1).bmod (2 ^ 32)

namespace Flowgraph

/-- One output of `allocate_block_detail`: a buffer for port `i`. -/
def allocateOutput (env : Blocks) (granularity : Nat) (fg : Flowgraph) (block : BlockId)
    (s : List BufferId × Heap α τ) (i : Nat) : Except CppException (List BufferId × Heap α τ) := do
  let b ← fg.allocateBuffer env granularity block i
  let (id, h) := s.2.newBuffer b
  return (s.1 ++ [id], h)

/-- `gr_flat_flowgraph::allocate_block_detail` (`gr_flat_flowgraph.cc:67-87`). -/
def allocateBlockDetail (env : Blocks) (granularity : Nat) (fg : Flowgraph) (block : BlockId)
    (h : Heap α τ) : Except CppException (BlockDetail × Heap α τ) := do
  let ninputs := (fg.calcUsedPorts block true).length
  let noutputs := (fg.calcUsedPorts block false).length
  let (output, h) ← (List.range noutputs).foldlM (fg.allocateOutput env granularity block) ([], h)
  return (⟨List.replicate ninputs none, output, false⟩, h)

/-- `cast_to_block_sptr(*p)->set_detail(allocate_block_detail(*p))`; the cast of a block
that is not a `gr_block` is null. -/
def assignDetail (env : Blocks) (granularity : Nat) (fg : Flowgraph) (h : Heap α τ) (p : BlockId) :
    Except CppException (Heap α τ) := do
  let (d, h) ← fg.allocateBlockDetail env granularity p h
  match (env p).grBlock with
  | none => .error .undefinedBehaviour
  | some _ => h.setDetail p d

/-- The body of the loop of `connect_block_inputs` (`gr_flat_flowgraph.cc:135-151`). -/
def connectEdge (env : Blocks) (grblock : GrBlock) (h : Heap α τ) (e : Edge) :
    Except CppException (Heap α τ) :=
  match (env e.src.block).grBlock with
  | none => .error (.runtimeError "connect_block_inputs found non-gr_block")
  | some _ => do
      let srcBuffer ← h.output e.src.block e.src.port
      h.connectInput e.dst.block e.dst.port srcBuffer grblock.preload

/-- `gr_flat_flowgraph::connect_block_inputs` (`gr_flat_flowgraph.cc:124-152`). -/
def connectBlockInputs (env : Blocks) (fg : Flowgraph) (h : Heap α τ) (block : BlockId) :
    Except CppException (Heap α τ) :=
  match (env block).grBlock with
  | none => .error (.runtimeError "connect_block_inputs found non-gr_block")
  | some grblock => (fg.calcUpstreamEdges block).foldlM (connectEdge env grblock) h

/-- `gr_flat_flowgraph::setup_connections` (`gr_flat_flowgraph.cc:53-65`). -/
def setupConnections (env : Blocks) (granularity : Nat) (fg : Flowgraph) (h : Heap α τ) :
    Except CppException (Heap α τ) := do
  let blocks := fg.calcUsedBlocks
  let h ← blocks.foldlM (fg.assignDetail env granularity) h
  blocks.foldlM (fg.connectBlockInputs env) h

/-- The first loop of `merge_connections`: only blocks without a detail are given one
(`gr_flat_flowgraph.cc:157-171`). -/
def mergeDetail (env : Blocks) (granularity : Nat) (fg : Flowgraph) (h : Heap α τ) (p : BlockId) :
    Except CppException (Heap α τ) :=
  match (env p).grBlock, h.detail p with
  | none, _ => .error .undefinedBehaviour
  | some _, some _ => .ok h
  | some _, none => fg.assignDetail env granularity h p

/-- The second loop: the reader of an old edge that is going away is cleared
(`gr_flat_flowgraph.cc:173-198`). -/
def mergeOldEdge (env : Blocks) (fg : Flowgraph) (h : Heap α τ) (oldEdge : Edge) :
    Except CppException (Heap α τ) :=
  if oldEdge ∈ fg.edges then .ok h
  else match (env oldEdge.dst.block).grBlock with
    | none => .error .undefinedBehaviour
    | some _ => h.setInput oldEdge.dst.block oldEdge.dst.port none

/-- The reader input `i` of a kept block has now; the detail may have fewer inputs
(`gr_flat_flowgraph.cc:224-226`). -/
def oldReader (h : Heap α τ) (block : BlockId) (i : Nat) :
    Except CppException (Option ReaderPtr) :=
  match h.detail block with
  | none => .error .undefinedBehaviour
  | some d => if i < d.input.length then h.input block i else .ok none

/-- One input of a block of both flowgraphs: its reader is kept when it reads the right
buffer (`gr_flat_flowgraph.cc:215-242`). -/
def mergeInput (env : Blocks) (fg : Flowgraph) (block : BlockId) (grblock : GrBlock)
    (h : Heap α τ) (i : Nat) : Except CppException (Heap α τ) :=
  match fg.calcUpstreamEdge block i with
  | none => .error .undefinedBehaviour
  | some edge =>
      match (env edge.src.block).grBlock with
      | none => .error .undefinedBehaviour
      | some _ => do
          let srcBuffer ← h.output edge.src.block edge.src.port
          let reader ← oldReader h block i
          if reader.map ReaderPtr.buffer = some srcBuffer then .ok h
          else h.connectInput block i srcBuffer grblock.preload

/-- The third loop: a block of both flowgraphs is checked input by input, a new one is
wired as `setup_connections` does (`gr_flat_flowgraph.cc:200-250`). -/
def mergeBlock (env : Blocks) (fg old : Flowgraph) (h : Heap α τ) (p : BlockId) :
    Except CppException (Heap α τ) :=
  match (env p).grBlock with
  | none => .error .undefinedBehaviour
  | some grblock =>
      if old.hasBlockP p then
        let ninputs := (fg.calcUsedPorts p true).length
        (List.range ninputs).foldlM (fg.mergeInput env p grblock) h
      else fg.connectBlockInputs env h p

/-- `gr_flat_flowgraph::merge_connections` (`gr_flat_flowgraph.cc:154-251`). -/
def mergeConnections (env : Blocks) (granularity : Nat) (fg old : Flowgraph) (h : Heap α τ) :
    Except CppException (Heap α τ) := do
  let h ← fg.blocks.foldlM (fg.mergeDetail env granularity) h
  let h ← old.edges.foldlM (fg.mergeOldEdge env) h
  fg.blocks.foldlM (fg.mergeBlock env old) h

end Flowgraph

end GnuRadio
