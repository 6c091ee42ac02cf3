import GnuRadio.Runtime.MergeConnections

/-!
# Tag offsets across reconfiguration

A tag names its item by the number of the item in the stream of the buffer. A
reader asks for the tags of the items it consumes by its own count of items,
which agrees with the count of the writer when the reader was there before the
first item. `merge_connections` also attaches readers to buffers that have been
written to, and these count from 0 as well.
-/

namespace GnuRadio

variable {α τ : Type}

namespace Buffer

/-! ## The number of an item -/

/-- The number in the stream of the item `j` places behind the read pointer: the last item
available is the last one written. -/
def numberAt (b : Buffer α τ) (stream : List α) (r : BufferReader) (j : Int) : Int :=
  (stream.length - b.itemsAvailable r : Int) + j

/-- The counts of a reader with the given preload agree with those of the writer, so the tags
it is given are those of the items that it consumes. -/
structure Aligned (b : Buffer α τ) (stream : List α) (preload : Int) (r : BufferReader) : Prop where
  /-- `nitems_read() + items_available() = nitems_written() + p`. -/
  counts : (r.absReadOffset + b.itemsAvailable r : Int) = b.absWriteOffset + preload
  /-- What lies in front of the reader are the items of these numbers. -/
  items : ∀ j < b.itemsAvailable r, 0 ≤ b.numberAt stream r j →
    (b.itemsAt r (b.itemsAvailable r))[j]? = stream[(b.numberAt stream r j).toNat]?
  /-- Behind the preload follow the `n` items that consuming `n` items takes in. -/
  tags : ∀ n ≤ b.itemsAvailable r,
    b.getTagsInRange r.absReadOffset ((r.absReadOffset + n) % 2 ^ 64) =
      b.itemTags.filter fun t => b.numberAt stream r preload ≤ t.offset ∧
        t.offset < b.numberAt stream r (preload + n)

/-! ## Following the writer -/

/-- The writer of a buffer has put the stream there. -/
structure Streams (b : Buffer α τ) (stream : List α) : Prop where
  writeIndex : b.writeIndex = (b.bufsize + stream.length) % b.bufsize
  absWriteOffset : b.absWriteOffset = stream.length

/-- A reader that was attached with `preload` in front of it has taken as many items as it
counted, and the rest is still there. -/
structure Follows (b : Buffer α τ) (preload stream : List α) (r : BufferReader) : Prop where
  bounded : stream.length + preload.length < 2 ^ 64
  passed : r.absReadOffset ≤ preload.length + stream.length
  holds : b.Holds (b.bufsize + stream.length) r ((preload ++ stream).drop r.absReadOffset)

variable {b c : Buffer α τ} {preload stream : List α} {r : BufferReader}

theorem Streams.congr (streams : b.Streams stream) (size : c.bufsize = b.bufsize)
    (writer : c.writeIndex = b.writeIndex) (count : c.absWriteOffset = b.absWriteOffset) :
    c.Streams stream := by
  refine ⟨?_, ?_⟩
  · rw [size, writer]
    exact streams.writeIndex
  · rw [count]
    exact streams.absWriteOffset

theorem Streams.writeIndex_lt (streams : b.Streams stream) : b.writeIndex < b.bufsize := by
  rw [streams.writeIndex]
  exact Nat.mod_lt _ b.bufsize_pos

theorem Streams.write (streams : b.Streams stream) {items : List α}
    (few : items.length ≤ b.bufsize) (count : b.absWriteOffset + items.length < 2 ^ 64) :
    ((b.writeItems items).updateWritePointer items.length).Streams (stream ++ items) := by
  refine ⟨?_, ?_⟩
  · simp only [updateWritePointer_writeIndex, writeItems_writeIndex, writeItems_bufsize,
      updateWritePointer_bufsize]
    rw [indexAdd_eq b.bufsize_le streams.writeIndex_lt few, streams.writeIndex, Nat.mod_add_mod,
      List.length_append, Nat.add_assoc]
  · simp only [updateWritePointer, writeItems, List.length_append]
    rw [Nat.mod_eq_of_lt count, streams.absWriteOffset]

section

variable (follows : b.Follows preload stream r)
include follows

theorem Follows.congr (size : c.bufsize = b.bufsize) (base : c.base = b.base) :
    c.Follows preload stream r := by
  refine ⟨follows.bounded, follows.passed, ?_⟩
  rw [size]
  exact follows.holds.congr size base

theorem Follows.available (streams : b.Streams stream) :
    b.itemsAvailable r = preload.length + stream.length - r.absReadOffset := by
  rw [follows.holds.itemsAvailable streams.writeIndex, List.length_drop, List.length_append]

theorem Follows.write (streams : b.Streams stream) {items : List α} (member : r ∈ b.readers)
    (offered : items.length ≤ b.spaceAvailable.1)
    (count : stream.length + items.length + preload.length < 2 ^ 64) :
    ((b.writeItems items).updateWritePointer items.length).Follows preload (stream ++ items) r := by
  have passed := follows.passed
  have available := follows.holds.itemsAvailable streams.writeIndex
  have room := itemsAvailable_add_le member offered
    (by rw [available]; exact follows.holds.short)
  rw [available] at room
  refine ⟨?_, ?_, ?_⟩
  · rw [List.length_append]
    exact count
  · rw [List.length_append]
    omega
  · have wrote := follows.holds.write streams.writeIndex room
    rw [← List.append_assoc, List.drop_append_of_le_length (by rwa [List.length_append]),
      List.length_append, ← Nat.add_assoc]
    exact wrote

theorem Follows.read (streams : b.Streams stream) {n : Nat} (enough : n ≤ b.itemsAvailable r) :
    b.Follows preload stream (r.updateReadPointer b.bufsize n) := by
  have passed := follows.passed
  have bounded := follows.bounded
  have available := follows.available streams
  have count : (r.updateReadPointer b.bufsize n).absReadOffset = r.absReadOffset + n :=
    Nat.mod_eq_of_lt (by omega)
  refine ⟨bounded, by omega, ?_⟩
  rw [count, ← List.drop_drop]
  refine follows.holds.read ?_
  rw [List.length_drop, List.length_append]
  omega

end

theorem Follows.attached {p : Int} (attached : Heap.Attached b p r) (streams : b.Streams [])
    (fits : p < b.bufsize) :
    ∃ preload : List α, (preload.length : Int) = p ∧ b.Follows preload [] r := by
  have nonneg := attached.nonneg
  have size := b.bufsize_le
  have unwritten : b.writeIndex = 0 := by
    rw [streams.writeIndex, List.length_nil, Nat.add_zero, Nat.mod_self]
  have behind := attached.readIndex
  rw [unwritten] at behind
  have length : (b.itemsAt r p.toNat).length = p.toNat := by simp [itemsAt]
  refine ⟨b.itemsAt r p.toNat, by rw [length]; omega, ?_, ?_, ?_⟩
  · rw [length, List.length_nil]
    unfold intMax at size
    omega
  · rw [attached.absReadOffset]
    exact Nat.zero_le _
  · rw [attached.absReadOffset, List.append_nil, List.drop_zero, List.length_nil, Nat.add_zero]
    exact holds_behind (by omega) behind

theorem Follows.aligned (follows : b.Follows preload stream r) (streams : b.Streams stream) :
    b.Aligned stream preload.length r := by
  have passed := follows.passed
  have bounded := follows.bounded
  have available := follows.available streams
  have written := streams.absWriteOffset
  have first : b.numberAt stream r preload.length = r.absReadOffset := by
    unfold numberAt
    omega
  refine ⟨by omega, ?_, ?_⟩
  · intro j inside nonneg
    rw [follows.holds.itemsAt (by rw [List.length_drop, List.length_append, ← available]),
      List.take_of_length_le (by rw [List.length_drop, List.length_append, ← available]),
      List.getElem?_drop]
    unfold numberAt at nonneg ⊢
    rw [List.getElem?_append_right (by omega)]
    congr 1
    omega
  · intro n enough
    have last : b.numberAt stream r (preload.length + n) = r.absReadOffset + n := by
      rw [← first]
      unfold numberAt
      omega
    rw [Nat.mod_eq_of_lt (by omega), first, last]
    unfold getTagsInRange
    refine List.filter_congr fun t _ => ?_
    simp only [decide_eq_decide]
    omega

end Buffer

/-! ## Writes, reads, tags and merges -/

/-- A flowgraph that passed `validate`, the details and buffers of its blocks, and all items
that were ever written to each buffer. -/
structure LiveFlowgraph (env : Blocks) (α τ : Type) where
  flowgraph : { fg : Flowgraph // fg.Valid env }
  heap : Heap α τ
  stream : BufferId → List α

/-- What happens to a flowgraph between setup and teardown. -/
inductive LiveOp (env : Blocks) (α τ : Type) where
  /-- Items are stored at an output and the write pointer is moved. -/
  | write (src : Endpoint) (items : List α)
  /-- The read pointer of an input is moved. -/
  | read (dst : Endpoint) (n : Nat)
  | addTag (src : Endpoint) (tag : Tag τ)
  | prune (src : Endpoint) (maxTime : Nat)
  /-- `space_available` of an output, which may prune. -/
  | askSpace (src : Endpoint)
  | merge (fg : { fg : Flowgraph // fg.Valid env })

namespace LiveFlowgraph

variable {env : Blocks} {granularity : Nat} {w w' : LiveFlowgraph env α τ}

/-- After `setup_connections`. -/
def start (fg : { fg : Flowgraph // fg.Valid env }) (h : Heap α τ) : LiveFlowgraph env α τ :=
  ⟨fg, h, fun _ => []⟩

/-- A change of the buffer at an output that is no write. -/
def mapOutput (w : LiveFlowgraph env α τ) (src : Endpoint) (f : Buffer α τ → Buffer α τ) :
    Option (LiveFlowgraph env α τ) :=
  (w.heap.outputAt src).map fun id => { w with heap := w.heap.mapBuffer id f }

/-- The writer stores no more items than it has space for, a reader takes no more than it
has available. -/
def step [Zero α] (granularity : Nat) (w : LiveFlowgraph env α τ) :
    LiveOp env α τ → Option (LiveFlowgraph env α τ)
  | .write src items =>
      match w.heap.outputAt src with
      | none => none
      | some id =>
          if items.length ≤ (w.heap.buffer id).spaceAvailable.1 then
            some
              { w with
                heap := w.heap.mapBuffer id fun b =>
                  (b.writeItems items).updateWritePointer items.length
                stream := Function.update w.stream id (w.stream id ++ items) }
          else none
  | .read dst n =>
      match w.heap.inputAt dst with
      | none => none
      | some p =>
          match w.heap.readerAt p with
          | none => none
          | some r =>
              if n ≤ (w.heap.buffer p.buffer).itemsAvailable r then
                some { w with
                  heap := w.heap.mapBuffer p.buffer fun b => b.updateReadPointer p.ident n }
              else none
  | .addTag src tag => w.mapOutput src fun b => b.addItemTag tag
  | .prune src maxTime => w.mapOutput src fun b => b.pruneTags maxTime
  | .askSpace src => w.mapOutput src fun b => b.spaceAvailable.2
  | .merge fg =>
      (fg.1.mergeConnections env granularity w.flowgraph.1 w.heap).toOption.map fun heap =>
        { w with flowgraph := fg, heap := heap }

/-- Every reader that is attached to a buffer is aligned with it. -/
def Aligned (w : LiveFlowgraph env α τ) : Prop :=
  ∀ id, ∀ r ∈ (w.heap.buffer id).readers, ∃ g, (env r.link).grBlock = some g ∧
    (w.heap.buffer id).Aligned (w.stream id) g.preload r

/-- New edges of a merge lead from buffers that nothing was written to and that are larger
than the preload, and no count gets to `2^64`. -/
def Clean (w : LiveFlowgraph env α τ) : LiveOp env α τ → Prop
  | .write src items => ∀ id ∈ w.heap.outputAt src,
      (w.heap.buffer id).absWriteOffset + items.length < 2 ^ 64 ∧
      ∀ r ∈ (w.heap.buffer id).readers, ∀ g ∈ (env r.link).grBlock,
        ((w.heap.buffer id).absWriteOffset + items.length + g.preload : Int) < 2 ^ 64
  | .merge fg => ∀ e ∈ fg.1.edges, e ∉ w.flowgraph.1.edges → ∀ id ∈ w.heap.outputAt e.src,
      (w.heap.buffer id).absWriteOffset = 0 ∧
      ∀ g ∈ (env e.dst.block).grBlock, g.preload < (w.heap.buffer id).bufsize
  | _ => True

instance (w : LiveFlowgraph env α τ) (op : LiveOp env α τ) : Decidable (w.Clean op) := by
  cases op <;> unfold Clean <;> infer_instance

/-! ## What clean steps keep -/

/-- The reader follows the writer from the first item on, with the preload of its block. -/
def Attends (env : Blocks) (b : Buffer α τ) (stream : List α) (r : BufferReader) : Prop :=
  ∃ g preload, (env r.link).grBlock = some g ∧ ((preload : List α).length : Int) = g.preload ∧
    b.Follows preload stream r

/-- The pointers are in order, and every reader follows the writer of its buffer. -/
structure Consistent (w : LiveFlowgraph env α τ) : Prop where
  wellWired : w.heap.WellWired none
  serves : w.heap.Serves (· ∈ w.flowgraph.1.edges)
  unwritten : ∀ id, (∀ src, w.heap.outputAt src ≠ some id) → w.stream id = []
  streams : ∀ src id, w.heap.outputAt src = some id → (w.heap.buffer id).Streams (w.stream id)
  attends : ∀ id, ∀ r ∈ (w.heap.buffer id).readers,
    Attends env (w.heap.buffer id) (w.stream id) r

variable {id : BufferId} {r : BufferReader} {f : Buffer α τ → Buffer α τ} {src : Endpoint}
  {h h₁ h' : Heap α τ} {fg : Flowgraph}

section

variable (consistent : w.Consistent)
include consistent

theorem Consistent.output (member : r ∈ (w.heap.buffer id).readers) :
    ∃ src, w.heap.outputAt src = some id := by
  obtain ⟨dst, held⟩ := (consistent.wellWired.held id r.ident
    (List.mem_map_of_mem member)).resolve_right (by simp)
  obtain ⟨e, there, rfl⟩ := consistent.serves.only dst _ held
  obtain ⟨p, held', feeds⟩ := consistent.serves.wired e there
  obtain rfl := Option.some.inj (held'.symm.trans held)
  exact ⟨e.src, feeds⟩

theorem Consistent.aligned : w.Aligned := by
  intro id r member
  obtain ⟨src, there⟩ := consistent.output member
  obtain ⟨g, preload, block, length, follows⟩ := consistent.attends id r member
  refine ⟨g, block, ?_⟩
  rw [← length]
  exact follows.aligned (consistent.streams src id there)

theorem Consistent.mapBuffer (stream : List α)
    (there : w.heap.outputAt src = some id)
    (idents : (f (w.heap.buffer id)).readers.map BufferReader.ident = w.heap.idents id)
    (streams : (f (w.heap.buffer id)).Streams stream)
    (attends : ∀ r ∈ (f (w.heap.buffer id)).readers, Attends env (f (w.heap.buffer id)) stream r) :
    Consistent { w with
      heap := w.heap.mapBuffer id f
      stream := Function.update w.stream id stream } := by
  have buffer : ∀ c, (w.heap.mapBuffer id f).buffer c =
      if c = id then f (w.heap.buffer id) else w.heap.buffer c :=
    fun c => Function.update_apply ..
  have outputs : (w.heap.mapBuffer id f).outputAt = w.heap.outputAt := rfl
  refine ⟨consistent.wellWired.congr rfl rfl ?_ rfl rfl,
    ⟨consistent.serves.wired, consistent.serves.only⟩, ?_, ?_, ?_⟩
  · funext c
    unfold Heap.idents
    rw [buffer]
    split
    · rename_i same
      rw [same]
      exact idents
    · rfl
  · intro c free
    dsimp only at free ⊢
    rw [outputs] at free
    rw [Function.update_of_ne]
    · exact consistent.unwritten c free
    · rintro rfl
      exact free src there
  · intro e c feeds
    dsimp only at feeds ⊢
    rw [outputs] at feeds
    rw [buffer]
    split
    · rename_i same
      rw [same, Function.update_self]
      exact streams
    · rename_i other
      rw [Function.update_of_ne other]
      exact consistent.streams e c feeds
  · intro c r member
    dsimp only at member ⊢
    rw [buffer] at member ⊢
    split at member
    · rename_i same
      rw [if_pos same, same, Function.update_self]
      exact attends r member
    · rename_i other
      rw [if_neg other, Function.update_of_ne other]
      exact consistent.attends c r member

theorem Consistent.write [Zero α] {items : List α} (clean : w.Clean (.write src items))
    (stepped : w.step granularity (.write src items) = some w') : w'.Consistent := by
  simp only [step] at stepped
  split at stepped
  · cases stepped
  rename_i id there
  obtain ⟨offered, same⟩ := Option.ite_none_right_eq_some.mp stepped
  obtain rfl := Option.some.inj same
  obtain ⟨count, counts⟩ := clean id there
  have streams := consistent.streams src id there
  have few : items.length ≤ (w.heap.buffer id).bufsize := by
    rw [Buffer.spaceAvailable_fst] at offered
    omega
  apply consistent.mapBuffer _ there
  · rfl
  · exact streams.write few count
  · intro r member
    obtain ⟨g, preload, block, length, follows⟩ := consistent.attends id r member
    have bounded := counts r member g block
    have written := streams.absWriteOffset
    exact ⟨g, preload, block, length, follows.write streams member offered (by omega)⟩

theorem Consistent.read [Zero α] {dst : Endpoint} {n : Nat}
    (stepped : w.step granularity (.read dst n) = some w') : w'.Consistent := by
  simp only [step] at stepped
  split at stepped
  · cases stepped
  rename_i p held
  split at stepped
  · cases stepped
  rename_i r found
  obtain ⟨enough, same⟩ := Option.ite_none_right_eq_some.mp stepped
  obtain rfl := Option.some.inj same
  obtain ⟨member, ident⟩ := Buffer.reader?_some found
  obtain ⟨src, there⟩ := consistent.output member
  have streams := consistent.streams src _ there
  have moved := consistent.mapBuffer (w.stream p.buffer)
    (f := fun b => b.updateReadPointer p.ident n) there
    (by
      unfold Heap.idents
      simp only [Buffer.updateReadPointer, List.map_map]
      apply List.map_congr_left
      intro other _
      simp only [Function.comp_apply]
      split <;> rfl)
    (streams.congr rfl rfl rfl)
    (by
      intro after inside
      obtain ⟨other, present, rfl⟩ := List.mem_map.mp inside
      obtain ⟨g, preload, block, length, follows⟩ := consistent.attends _ other present
      by_cases same : other.ident = p.ident
      · obtain rfl : other = r := by
          refine List.inj_on_of_nodup_map (consistent.wellWired.idents_nodup p.buffer) present member ?_
          rw [same, ident]
        rw [if_pos same]
        exact ⟨g, preload, block, length, (follows.read streams enough).congr rfl rfl⟩
      · rw [if_neg same]
        exact ⟨g, preload, block, length, follows.congr rfl rfl⟩)
  rwa [Function.update_eq_self] at moved

theorem Consistent.mapOutput
    (tags : ∀ b, ∃ tags mark, f b = { b with itemTags := tags, lastMinItemsRead := mark })
    (mapped : w.mapOutput src f = some w') : w'.Consistent := by
  obtain ⟨id, there, rfl⟩ := Option.map_eq_some_iff.mp mapped
  obtain ⟨_, _, same⟩ := tags (w.heap.buffer id)
  have moved := consistent.mapBuffer (w.stream id) (f := f) there
    (by rw [same]; rfl)
    (by rw [same]; exact (consistent.streams src id there).congr rfl rfl rfl)
    (by
      rw [same]
      intro r member
      obtain ⟨g, preload, block, length, follows⟩ := consistent.attends id r member
      exact ⟨g, preload, block, length, follows.congr rfl rfl⟩)
  rwa [Function.update_eq_self] at moved

end

theorem output_merged [Zero α] {E : Edge → Prop}
    (first : Flowgraph.DetailsMerged env granularity fg h h₁ fg.calcUsedBlocks)
    (progress : Flowgraph.Progress env h₁ h' E) (there : h'.outputAt src = some id) :
    h.outputAt src = some id ∨ ((∀ e, h.outputAt e ≠ some id) ∧
      ∃ b, fg.allocateBuffer env granularity src.block src.port = .ok b ∧
        h'.buffer id = { b with readers := (h'.buffer id).readers }) := by
  rw [progress.outputs] at there
  by_cases kept : h.detail src.block ≠ none ∨ src.block ∉ fg.calcUsedBlocks
  · left
    unfold Heap.outputAt at there ⊢
    rw [← first.kept src.block kept]
    exact there
  · right
    obtain ⟨blank, used⟩ := not_or.mp kept
    rw [not_not] at blank used
    obtain ⟨inside, b, allocated, same⟩ := (first.detailed _ used blank).made src.port id there
    refine ⟨?_, b, allocated, by rw [progress.grows.buffer id inside, same]⟩
    intro e before
    obtain rfl := first.wellWired.output_inj e src id (first.grows.outputs e id before) there
    rw [Heap.outputAt, blank] at before
    split at before <;> cases before

theorem edge_new [Zero α] {old : Flowgraph} (serves : h.Serves (· ∈ old.edges))
    (first : Flowgraph.DetailsMerged env granularity fg h h₁ fg.calcUsedBlocks)
    (kept : Flowgraph.KeepsServed old fg h₁ h') {e : Edge} {p : ReaderPtr} (stays : e ∈ fg.edges)
    (held : h'.inputAt e.dst = some p) (new : h₁.nreaders ≤ p.ident) : e ∉ old.edges := by
  intro there
  obtain ⟨q, before, feeds⟩ := serves.wired e there
  have middle : h₁.inputAt e.dst = some q := by rw [first.inputs, before]
  have after := kept e there stays q middle (first.grows.outputs _ _ feeds)
  obtain rfl := Option.some.inj (after.symm.trans held)
  exact absurd (first.wellWired.idents_lt _ _ (first.wellWired.input_reader _ _ middle)).2
    (not_lt.mpr new)

theorem readerAt_of_mem (wired : h.WellWired none) (member : r ∈ (h.buffer id).readers) :
    h.readerAt ⟨id, r.ident⟩ = some r := by
  obtain ⟨found, same⟩ : ∃ s, h.readerAt ⟨id, r.ident⟩ = some s := by
    rw [← Option.isSome_iff_exists, Heap.readerAt, Buffer.reader?, List.find?_isSome]
    exact ⟨r, member, by simp⟩
  obtain ⟨present, ident⟩ := Buffer.reader?_some same
  rw [same, List.inj_on_of_nodup_map (wired.idents_nodup id) present member ident]

theorem Consistent.merge [Zero α] (consistent : w.Consistent)
    {fg : { fg : Flowgraph // fg.Valid env }} (clean : w.Clean (.merge fg))
    (stepped : w.step granularity (.merge fg) = some w') : w'.Consistent := by
  obtain ⟨h', merged, rfl⟩ := Option.map_eq_some_iff.mp stepped
  obtain ⟨h₁, first, progress, kept, placed⟩ := Flowgraph.mergeConnections_stages
    w.flowgraph.2 fg.2 consistent.wellWired consistent.serves (toOption_some.mp merged)
  have grows := first.grows.trans progress.grows
  have fresh : ∀ (src : Endpoint) id, (∀ e, w.heap.outputAt e ≠ some id) → ∀ b : Buffer α τ,
      fg.1.allocateBuffer env granularity src.block src.port = .ok b →
      h'.buffer id = { b with readers := (h'.buffer id).readers } →
      w.stream id = [] ∧ (h'.buffer id).Streams [] := by
    intro src id unowned b allocated same
    obtain ⟨_, _, _, _, -, -, rfl⟩ := Flowgraph.allocateBuffer_ok allocated
    refine ⟨consistent.unwritten id unowned, ?_⟩
    rw [same]
    exact ⟨by simp [Buffer.ofSize], rfl⟩
  have streams : ∀ src id, h'.outputAt src = some id → (h'.buffer id).Streams (w.stream id) := by
    intro src id there
    rcases output_merged first progress there with before | ⟨unowned, b, allocated, same⟩
    · rw [grows.buffer id (consistent.wellWired.output_lt _ _ before)]
      exact (consistent.streams src id before).congr rfl rfl rfl
    · obtain ⟨empty, streams⟩ := fresh src id unowned b allocated same
      rw [empty]
      exact streams
  refine ⟨progress.wellWired, progress.serves, ?_, streams, ?_⟩
  · intro id free
    apply consistent.unwritten
    exact fun src before => free src (grows.outputs src id before)
  · intro id r member
    dsimp only at member ⊢
    obtain ⟨dst, held⟩ := (progress.wellWired.held id r.ident
      (List.mem_map_of_mem member)).resolve_right (by simp)
    have here := readerAt_of_mem progress.wellWired member
    by_cases new : h₁.nreaders ≤ r.ident
    · -- a new edge leads from a buffer that is unwritten or new
      obtain ⟨e, stays, rfl⟩ := progress.serves.only dst _ held
      obtain ⟨p, held', feeds⟩ := progress.serves.wired e stays
      obtain rfl := Option.some.inj (held'.symm.trans held)
      obtain ⟨g, block, attached⟩ := placed id r member new
      obtain ⟨s, found, link, -⟩ := progress.fresh e.dst _ held new
      obtain rfl := Option.some.inj (found.symm.trans here)
      rw [link] at block
      have suitable : w.stream id = [] ∧ g.preload < (h'.buffer id).bufsize := by
        rcases output_merged first progress feeds with before | ⟨unowned, b, allocated, same⟩
        · obtain ⟨unwritten, fits⟩ :=
            clean e stays (edge_new consistent.serves first kept stays held new) id before
          rw [(consistent.streams _ id before).absWriteOffset] at unwritten
          refine ⟨List.eq_nil_of_length_eq_zero unwritten, ?_⟩
          rw [grows.buffer id (consistent.wellWired.output_lt _ _ before)]
          exact fits g block
        · refine ⟨(fresh _ id unowned b allocated same).1, ?_⟩
          obtain ⟨_, _, _, _, chosen, enough, rfl⟩ := Flowgraph.allocateBuffer_ok allocated
          rw [same]
          exact (Flowgraph.preload_lt stays block chosen).trans_le enough
      have started := streams _ id feeds
      rw [suitable.1] at started ⊢
      obtain ⟨preload, length, follows⟩ := Buffer.Follows.attached attached started suitable.2
      exact ⟨g, preload, by rw [link, block], length, follows⟩
    · -- an old reader is still at its input
      obtain ⟨middle, -⟩ := progress.grows.inputs dst _ held (not_le.mp new)
      rw [first.inputs] at middle
      have lt := consistent.wellWired.idents_lt _ _ (consistent.wellWired.input_reader _ _ middle)
      obtain ⟨-, same⟩ := grows.inputs dst _ held lt.2
      rw [here] at same
      obtain ⟨g, preload, block, length, follows⟩ :=
        consistent.attends id r (Buffer.reader?_some same.symm).1
      rw [grows.buffer id lt.1]
      exact ⟨g, preload, block, length, follows.congr rfl rfl⟩

theorem Consistent.step [Zero α] (consistent : w.Consistent) {op : LiveOp env α τ}
    (clean : w.Clean op) (stepped : w.step granularity op = some w') : w'.Consistent := by
  cases op with
  | write src items => exact consistent.write clean stepped
  | read dst n => exact consistent.read stepped
  | addTag src tag => exact consistent.mapOutput (fun b => ⟨_, b.lastMinItemsRead, rfl⟩) stepped
  | prune src maxTime =>
    exact consistent.mapOutput (fun b => ⟨_, b.lastMinItemsRead, rfl⟩) stepped
  | askSpace src => exact consistent.mapOutput Buffer.spaceAvailable_snd stepped
  | merge fg => exact consistent.merge clean stepped

/-! ## From setup on -/

theorem empty_valid : Flowgraph.empty.Valid env := ⟨.empty, rfl⟩

theorem setup_merges [Zero α] (valid : fg.Valid env)
    (setup : fg.setupConnections env granularity Heap.empty = .ok h) :
    fg.mergeConnections env granularity Flowgraph.empty Heap.empty = .ok h := by
  obtain ⟨mid, assigned, connected⟩ := bind_ok.mp setup
  have details := Flowgraph.mergeDetails_of_assignDetails (uniqueVector_nodup _)
    (fun _ _ => rfl) assigned
  have blocks := (Flowgraph.mergeDetails_ok Flowgraph.wellWired_empty details).blocks
  unfold Flowgraph.mergeConnections
  rw [valid.blocks_eq]
  refine bind_ok.mpr ⟨mid, details, bind_ok.mpr ⟨mid, rfl, ?_⟩⟩
  rw [← connected]
  refine foldlM_congr (fun s p member => ?_) mid
  obtain ⟨g, block⟩ := Option.isSome_iff_exists.mp (blocks p member)
  unfold Flowgraph.mergeBlock
  rw [block]
  rfl

theorem start_consistent [Zero α] (fg : { fg : Flowgraph // fg.Valid env })
    (setup : fg.1.setupConnections env granularity Heap.empty = .ok h) :
    (start fg h).Consistent := by
  let nothing : LiveFlowgraph env α τ := start ⟨Flowgraph.empty, empty_valid⟩ Heap.empty
  have idle : nothing.Consistent := by
    refine ⟨Flowgraph.wellWired_empty, ⟨?_, ?_⟩, fun _ _ => rfl, ?_, ?_⟩
    · intro e member
      cases member
    all_goals simp [nothing, start, Heap.empty, Heap.inputAt, Heap.outputAt, Buffer.ofSize]
  apply @Consistent.merge _ _ _ granularity _ _ _ idle fg
  · intro e _ _ id feeds
    simp [nothing, start, Heap.empty, Heap.outputAt] at feeds
  · exact Option.map_eq_some_iff.mpr ⟨h, toOption_some.mpr (setup_merges fg.2 setup), rfl⟩

/-- As long as no reader is attached to a buffer that has been written to, every reader has the
tags of the items it consumes, in every state that writes, reads, tags and merges lead to. -/
theorem aligned_of_clean [Zero α] (fg : { fg : Flowgraph // fg.Valid env }) {h : Heap α τ}
    (setup : fg.1.setupConnections env granularity Heap.empty = .ok h) {ops : List (LiveOp env α τ)}
    (clean : Throughout Clean (step granularity) (start fg h) ops)
    (reached : run (step granularity) (start fg h) ops = some w) : w.Aligned :=
  (run_invariant_of Consistent (fun _ _ _ consistent clean stepped => consistent.step clean stepped)
    (start_consistent fg setup) clean reached).aligned

/-! ## A sink that is connected later -/

/-- Blocks 0 and 3 are sources, the others sinks. -/
def tapBlocks : Blocks := fun b =>
  if b = 0 ∨ b = 3 then BasicBlock.leaf "source" 0 1 .initial 4 sizeofFloat_pos
  else BasicBlock.leaf "sink" 1 0 .initial 4 sizeofFloat_pos

/-- A source with one sink. -/
def oneTap : Flowgraph := ⟨[0, 1], [⟨⟨0, 0⟩, ⟨1, 0⟩⟩]⟩

/-- A second sink at the same source. -/
def twoTaps : Flowgraph := ⟨[0, 1, 2], [⟨⟨0, 0⟩, ⟨1, 0⟩⟩, ⟨⟨0, 0⟩, ⟨2, 0⟩⟩]⟩

/-- A second sink at a source of its own. -/
def ownSource : Flowgraph := ⟨[0, 1, 2, 3], [⟨⟨0, 0⟩, ⟨1, 0⟩⟩, ⟨⟨3, 0⟩, ⟨2, 0⟩⟩]⟩

theorem oneTap_valid : oneTap.Valid tapBlocks where
  built := .validate (Flowgraph.Built.empty.connectAll oneTap.edges rfl) rfl
  validated := rfl

theorem twoTaps_valid : twoTaps.Valid tapBlocks where
  built := .validate (Flowgraph.Built.empty.connectAll twoTaps.edges rfl) rfl
  validated := rfl

theorem ownSource_valid : ownSource.Valid tapBlocks where
  built := .validate (Flowgraph.Built.empty.connectAll ownSource.edges rfl) rfl
  validated := rfl

/-- Three items are written before the second sink is connected: its reader counts from 0, and
nothing is available to it. -/
def lateTap : List (LiveOp tapBlocks Nat Unit) :=
  [.write ⟨0, 0⟩ [7, 8, 9], .addTag ⟨0, 0⟩ ⟨1, ()⟩, .merge ⟨twoTaps, twoTaps_valid⟩]

/-- A new source and its sink are merged into a flowgraph that has run. -/
def cleanMerge : List (LiveOp tapBlocks Nat Unit) :=
  [.write ⟨0, 0⟩ [7, 8, 9], .addTag ⟨0, 0⟩ ⟨1, ()⟩, .read ⟨1, 0⟩ 2, .askSpace ⟨0, 0⟩,
    .merge ⟨ownSource, ownSource_valid⟩, .write ⟨3, 0⟩ [5], .prune ⟨0, 0⟩ 1, .read ⟨2, 0⟩ 1]

theorem lateTap_misaligned : ∃ (h : Heap Nat Unit) (w : LiveFlowgraph tapBlocks Nat Unit),
    oneTap.setupConnections tapBlocks 4096 Heap.empty = .ok h ∧
    run (step 4096) (start ⟨oneTap, oneTap_valid⟩ h) lateTap = some w ∧ ¬ w.Aligned := by
  have returns : (oneTap.setupConnections (α := Nat) (τ := Unit) tapBlocks 4096
      Heap.empty).isOk = true := by decide +kernel
  have counts : ((oneTap.setupConnections (α := Nat) (τ := Unit) tapBlocks 4096
      Heap.empty).toOption.bind fun h =>
        (run (step 4096) (start ⟨oneTap, oneTap_valid⟩ h) lateTap).map fun w =>
          (w.heap.buffer 0).readers.map fun r => (r.absReadOffset, r.link,
            (w.heap.buffer 0).itemsAvailable r, (w.heap.buffer 0).absWriteOffset)) =
      some [(0, 1, 3, 3), (0, 2, 0, 3)] := by
    decide +kernel
  cases setup : oneTap.setupConnections (α := Nat) (τ := Unit) tapBlocks 4096 Heap.empty with
  | error e => rw [setup] at returns; cases returns
  | ok h =>
    rw [setup] at counts
    obtain ⟨w, reached, readers⟩ := Option.map_eq_some_iff.mp counts
    refine ⟨h, w, rfl, reached, ?_⟩
    intro aligned
    obtain ⟨r, member, same⟩ : ∃ r ∈ (w.heap.buffer 0).readers, (r.absReadOffset, r.link,
        (w.heap.buffer 0).itemsAvailable r, (w.heap.buffer 0).absWriteOffset) = (0, 2, 0, 3) := by
      rw [← List.mem_map, readers]
      simp
    simp only [Prod.mk.injEq] at same
    obtain ⟨g, block, alignment⟩ := aligned 0 r member
    have counts := alignment.counts
    rw [same.2.1] at block
    obtain rfl := Option.some.inj block
    rw [same.1, same.2.2.1, same.2.2.2] at counts
    revert counts
    decide

theorem aligned_of_clean_merge : ∃ (h : Heap Nat Unit) (w : LiveFlowgraph tapBlocks Nat Unit),
    oneTap.setupConnections tapBlocks 4096 Heap.empty = .ok h ∧
    run (step 4096) (start ⟨oneTap, oneTap_valid⟩ h) cleanMerge = some w ∧ w.Aligned := by
  have met : ((oneTap.setupConnections (α := Nat) (τ := Unit) tapBlocks 4096
      Heap.empty).toOption.any fun h =>
        decide (Throughout Clean (step 4096) (start ⟨oneTap, oneTap_valid⟩ h) cleanMerge) &&
          (run (step 4096) (start ⟨oneTap, oneTap_valid⟩ h) cleanMerge).isSome) = true := by
    decide +kernel
  cases setup : oneTap.setupConnections (α := Nat) (τ := Unit) tapBlocks 4096 Heap.empty with
  | error e => rw [setup] at met; cases met
  | ok h =>
    rw [setup] at met
    obtain ⟨clean, enabled⟩ := (Bool.and_eq_true _ _).mp met
    obtain ⟨w, reached⟩ := Option.isSome_iff_exists.mp enabled
    exact ⟨h, w, rfl, reached, aligned_of_clean ⟨oneTap, oneTap_valid⟩ setup
      (of_decide_eq_true clean) reached⟩

end LiveFlowgraph

end GnuRadio
