import GnuRadio.Misc.ProcessNetwork
import GnuRadio.Runtime.TagsOnce

/-!
# Streams do not depend on the scheduler

In every interleaving of the threads each reader gets what the writer of its buffer publishes, in
order. A flowgraph in which `general_work` computes a function of its inputs is therefore a process
network, and what its blocks publish is the same in all runs.
-/

namespace GnuRadio

variable {α τ μ : Type} {env : Blocks} {id : BufferId}

/-! ## What the readers of a buffer have in front of them -/

namespace Buffer

/-- The `n` items found from `gr_buffer::write_pointer` on. -/
def itemsAhead (b : Buffer α τ) (n : Nat) : List α := Ring.view b.bufsize b.base b.writeIndex n

@[simp] theorem length_itemsAhead (b : Buffer α τ) (n : Nat) : (b.itemsAhead n).length = n :=
  Ring.length_view ..

@[simp] theorem itemsAhead_zero (b : Buffer α τ) : b.itemsAhead 0 = [] := rfl

/-- The writer is at position `w`, and each reader has its items in front of it. -/
structure Shows (b : Buffer α τ) (w : Nat) (front : Nat → List α) : Prop where
  writeIndex : b.writeIndex = w % b.bufsize
  holds : ∀ r ∈ b.readers, b.Holds w r (front r.ident)

variable {b c : Buffer α τ} {w n : Nat} {front : Nat → List α}

section

variable (shows : b.Shows w front)
include shows

theorem Shows.available {r : BufferReader} (member : r ∈ b.readers) :
    b.itemsAvailable r = (front r.ident).length :=
  (shows.holds r member).itemsAvailable shows.writeIndex

theorem Shows.congr {front' : Nat → List α} (size : c.bufsize = b.bufsize) (base : c.base = b.base)
    (writer : c.writeIndex = b.writeIndex) (readers : c.readers = b.readers)
    (same : ∀ r ∈ b.readers, front' r.ident = front r.ident) : c.Shows w front' := by
  refine ⟨by rw [size, writer, shows.writeIndex], ?_⟩
  intro r member
  rw [readers] at member
  rw [same r member]
  exact (shows.holds r member).congr size base

/-- The cells of the free space are in front of no reader. -/
theorem Shows.room (offered : n ≤ b.spaceAvailable.1) {r : BufferReader} (member : r ∈ b.readers) :
    (front r.ident).length + n < b.bufsize := by
  rw [← shows.available member]
  refine itemsAvailable_add_le member offered ?_
  rw [shows.available member]
  exact (shows.holds r member).short

theorem Shows.store {items : List α} (offered : items.length ≤ b.spaceAvailable.1) :
    (b.writeItems items).Shows w front := by
  refine ⟨shows.writeIndex, ?_⟩
  intro r member
  have holds := shows.holds r member
  have started := holds.started
  have room := shows.room offered member
  refine ⟨holds.short, started, holds.readIndex, ?_⟩
  intro k inside
  rw [← holds.cells k inside]
  change Ring.store b.bufsize b.base b.writeIndex items _ = _
  rw [shows.writeIndex, Ring.store_mod]
  refine Ring.store_outside _ _ _ _ _ fun j later => ?_
  rw [writeItems_bufsize]
  exact Ring.cell_ne (by omega) (by omega)

/-- What is published has been stored, so nothing changes when it is stored again. -/
theorem Shows.publish (offered : n ≤ b.spaceAvailable.1) :
    (b.updateWritePointer n).Shows (w + n) fun i => front i ++ b.itemsAhead n := by
  have stored : b.writeItems (b.itemsAhead n) = b := by
    rw [writeItems, itemsAhead, Ring.store_view]
  have writer : b.writeIndex < b.bufsize := by
    rw [shows.writeIndex]
    exact Nat.mod_lt _ b.bufsize_pos
  have few : n ≤ b.bufsize := by
    rw [spaceAvailable_fst] at offered
    omega
  refine ⟨?_, ?_⟩
  · rw [updateWritePointer_writeIndex, updateWritePointer_bufsize, indexAdd_eq b.bufsize_le writer
      few, shows.writeIndex, Nat.mod_add_mod]
  · intro r member
    have room : (front r.ident).length + (b.itemsAhead n).length < b.bufsize := by
      rw [length_itemsAhead]
      exact shows.room offered member
    have written := (shows.holds r member).write shows.writeIndex room
    rwa [stored, length_itemsAhead] at written

theorem Shows.read {i : Nat} (enough : ∀ r ∈ b.readers, r.ident = i → n ≤ b.itemsAvailable r) :
    (b.updateReadPointer i n).Shows w fun j => (front j).drop (if j = i then n else 0) := by
  refine ⟨shows.writeIndex, ?_⟩
  intro moved inside
  obtain ⟨r, member, rfl⟩ := List.mem_map.mp inside
  have holds := shows.holds r member
  by_cases here : r.ident = i
  · have few := enough r member here
    rw [shows.available member] at few
    rw [if_pos here, if_pos (show (r.updateReadPointer _ _).ident = i from here)]
    exact (holds.read few).congr rfl rfl
  · rw [if_neg here, if_neg here, List.drop_zero]
    exact holds.congr rfl rfl

end

theorem Evolves.idents {effect : Effect α τ} (evolves : b.Evolves c effect) :
    c.readers.map (·.ident) = b.readers.map (·.ident) := by
  induction evolves with
  | done | tag | store | publish => rfl
  | ask => rw [spaceAvailable_readers]
  | consume =>
    rw [updateReadPointer, List.map_map]
    refine List.map_congr_left fun r _ => ?_
    simp only [Function.comp]
    split <;> rfl
  | both _ _ first second => exact second.trans first

/-- A step that stores and publishes no more than there is space for, and consumes no more than there
are items, takes from the front of what the readers have and puts at its end. -/
theorem Shows.evolves {effect : Effect α τ} (shows : b.Shows w front) (evolves : b.Evolves c effect)
    (stored : effect.stored.length ≤ b.spaceAvailable.1)
    (published : effect.published ≤ b.spaceAvailable.1)
    (consumed : ∀ r ∈ b.readers, effect.consumed r.ident ≤ b.itemsAvailable r) :
    c.Shows (w + effect.published) fun i =>
      (front i).drop (effect.consumed i) ++ b.itemsAhead effect.published := by
  induction evolves generalizing front with
  | done | tag => exact shows.congr rfl rfl rfl rfl fun _ _ => by simp
  | ask b =>
    exact shows.congr b.spaceAvailable_bufsize b.spaceAvailable_base b.spaceAvailable_writeIndex
      b.spaceAvailable_readers fun _ _ => by simp
  | store => exact (shows.store stored).congr rfl rfl rfl rfl fun _ _ => by simp
  | publish => exact shows.publish published
  | consume b ident n =>
    have enough : ∀ r ∈ b.readers, r.ident = ident → n ≤ b.itemsAvailable r :=
      fun r member here => by simpa [here] using consumed r member
    exact (shows.read enough).congr rfl rfl rfl rfl fun _ _ => by simp
  | @both b b' b'' early more first second ih ih' =>
    have some := ih shows (Nat.zero_le _) (Nat.zero_le _) fun r member =>
      (Nat.le_add_right _ _).trans (consumed r member)
    refine (ih' some (Nat.zero_le _) (Nat.zero_le _) fun r' member' => ?_).congr rfl rfl rfl rfl
      fun _ _ => by simp [List.drop_drop]
    obtain ⟨r, member, same⟩ : ∃ r ∈ b.readers, r.ident = r'.ident := by
      rw [← List.mem_map, ← first.idents]
      exact List.mem_map_of_mem member'
    have enough : early r.ident + more r.ident ≤ b.itemsAvailable r := consumed r member
    rw [shows.available member, same] at enough
    rw [some.available member']
    simp only [itemsAhead_zero, List.append_nil, List.length_drop]
    omega

end Buffer

/-- A step stores and publishes no more items in a buffer than there is space for, and consumes no
more than its readers have. -/
def World.Within (w : World α τ μ) (id : BufferId) (a : Action α τ μ) : Prop :=
  (w.stores id a).length ≤ (w.heap.buffer id).spaceAvailable.1 ∧
  w.publishes id a ≤ (w.heap.buffer id).spaceAvailable.1 ∧
  ∀ r ∈ (w.heap.buffer id).readers,
    w.consumes ⟨id, r.ident⟩ a ≤ (w.heap.buffer id).itemsAvailable r

instance (w : World α τ μ) (id : BufferId) (a : Action α τ μ) : Decidable (w.Within id a) :=
  inferInstanceAs (Decidable (_ ∧ _ ∧ ∀ _ ∈ _, _))

/-! ## The streams of a run -/

namespace Heap

variable {h h' : Heap α τ}

theorem SameWires.outputAt (same : SameWires h h') (e : Endpoint) :
    h'.outputAt e = h.outputAt e := by
  have ports := congrArg (Option.bind · fun d => d.2[e.port.toNat]?) (same.ports e.block)
  simp only [Option.bind_map] at ports
  unfold Heap.outputAt
  split
  · rfl
  · exact ports

theorem SameWires.inputAt (same : SameWires h h') (e : Endpoint) : h'.inputAt e = h.inputAt e := by
  have ports := congrArg (Option.bind · fun d => (d.1[e.port.toNat]?).join) (same.ports e.block)
  simp only [Option.bind_map] at ports
  unfold Heap.inputAt
  split
  · rfl
  · exact ports

theorem SameWires.idents (same : SameWires h h') (id : BufferId) : h'.idents id = h.idents id := by
  have wires := congrArg (fun x => x.2.map Prod.fst) (same.wires id)
  simp only [Buffer.wires, List.map_map] at wires
  exact wires

/-- The items in front of a reader. -/
def ahead (h : Heap α τ) (id : BufferId) (i : Nat) : List α :=
  ((h.buffer id).reader? i).elim [] fun r =>
    (h.buffer id).itemsAt r ((h.buffer id).itemsAvailable r)

/-- The items in front of an input. -/
def front (h : Heap α τ) (dst : Endpoint) : List α :=
  (h.inputAt dst).elim [] fun p => h.ahead p.buffer p.ident

theorem ahead_eq {n i : Nat} {front : Nat → List α} (shows : (h.buffer id).Shows n front)
    (held : i ∈ h.idents id) : h.ahead id i = front i := by
  obtain ⟨r, found⟩ : ∃ r, (h.buffer id).reader? i = some r := by
    obtain ⟨r, member, same⟩ := List.mem_map.mp held
    rw [← Option.isSome_iff_exists, Buffer.reader?, List.find?_isSome]
    exact ⟨r, member, by simp [same]⟩
  obtain ⟨member, ident⟩ := Buffer.reader?_some found
  rw [ahead, found, Option.elim_some, (shows.holds r member).itemsAt (shows.available member).le,
    shows.available member, List.take_length, ident]

end Heap

/-- A step takes from the front of a stream and writes at its end. -/
theorem BroadcastQueue.InOrder.moves {prior : Nat → List α} {q t : BroadcastQueue α Nat}
    (ordered : q.InOrder prior) {i k : Nat} {items : List α} (few : k ≤ (q.pending prior i).length)
    (stream : t.stream = q.stream ++ items)
    (taken : t.taken i = q.taken i ++ (q.pending prior i).take k) :
    t.pending prior i = (q.pending prior i).drop k ++ items ∧
      t.taken i ++ t.pending prior i = prior i ++ t.stream := by
  have before := ordered i
  have after : t.pending prior i = (q.pending prior i).drop k ++ items := by
    rw [pending, stream, taken, ← List.append_assoc, ← before, List.append_assoc,
      List.length_append, List.length_take, Nat.min_eq_left few, ← List.drop_drop,
      List.drop_left, List.drop_append_of_le_length few]
  refine ⟨after, ?_⟩
  rw [after, taken, stream, List.append_assoc, ← List.append_assoc (List.take k _),
    List.take_append_drop, ← List.append_assoc, before, List.append_assoc]

/-- The threads at work, with what was published in each buffer and what its readers have taken. -/
structure Watched (α τ μ : Type) where
  world : World α τ μ
  queue : BufferId → BroadcastQueue α Nat

namespace Watched

variable {fg : Flowgraph} {h₀ : Heap α τ} {s t : Watched α τ μ} {a : Action α τ μ}

/-- The threads of a flowgraph that has just been set up. -/
def start (h : Heap α τ) : Watched α τ μ := ⟨.start h, fun _ => .empty⟩

/-- A step; the items it publishes and consumes are read off the memory of the buffers. -/
def step (env : Blocks) (s : Watched α τ μ) (a : Action α τ μ) : Option (Watched α τ μ) :=
  (tpbStep env s.world a).map fun w => ⟨w, fun id =>
    let b := s.world.heap.buffer id
    { stream := (s.queue id).stream ++ b.itemsAhead (s.world.publishes id a)
      taken := fun i => (s.queue id).taken i ++ (b.reader? i).elim [] fun r =>
        b.itemsAt r (s.world.consumes ⟨id, i⟩ a) }⟩

/-- All items an output has published. -/
def published (s : Watched α τ μ) (src : Endpoint) : List α :=
  (s.world.heap.outputAt src).elim [] fun id => (s.queue id).stream

/-- All items an input has taken. -/
def taken (s : Watched α τ μ) (dst : Endpoint) : List α :=
  (s.world.heap.inputAt dst).elim [] fun p => (s.queue p.buffer).taken p.ident

/-- A step stays within the space of the outputs and the items of the inputs. -/
def Within (fg : Flowgraph) (s : Watched α τ μ) (a : Action α τ μ) : Prop :=
  ∀ e ∈ fg.edges, ∀ id ∈ s.world.heap.outputAt e.src, s.world.Within id a

instance (s : Watched α τ μ) (a : Action α τ μ) : Decidable (s.Within fg a) :=
  inferInstanceAs (Decidable (∀ e ∈ fg.edges, ∀ id ∈ s.world.heap.outputAt e.src, _))

/-- The buffers at the edges have the wires of the heap `h₀` the run began with, and each reader
takes its stream in order. -/
structure Fed (fg : Flowgraph) (h₀ : Heap α τ) (s : Watched α τ μ) : Prop where
  wires : h₀.SameWires s.world.heap
  ordered : ∀ e ∈ fg.edges, ∀ id, h₀.outputAt e.src = some id → (s.queue id).InOrder (h₀.ahead id)
  shows : ∀ e ∈ fg.edges, ∀ id, h₀.outputAt e.src = some id → (s.world.heap.buffer id).Shows
    ((h₀.buffer id).bufsize + (s.queue id).stream.length) ((s.queue id).pending (h₀.ahead id))

theorem Fed.step (fed : Fed fg h₀ s) (within : s.Within fg a) (stepped : s.step env a = some t) :
    Fed fg h₀ t := by
  obtain ⟨w, moved, rfl⟩ := Option.map_eq_some_iff.mp stepped
  have moves := tpbStep_moves moved
  have inside : ∀ e ∈ fg.edges, ∀ id, h₀.outputAt e.src = some id → s.world.Within id a :=
    fun e member id there => within e member id ((fed.wires.outputAt e.src).trans there)
  -- a reader of the buffer takes as many items as it consumes, any other number takes none
  have taken : ∀ e ∈ fg.edges, ∀ id, h₀.outputAt e.src = some id → ∀ i, ∃ k,
      k ≤ ((s.queue id).pending (h₀.ahead id) i).length ∧
      (((s.world.heap.buffer id).reader? i).elim [] fun r =>
        (s.world.heap.buffer id).itemsAt r (s.world.consumes ⟨id, i⟩ a)) =
          ((s.queue id).pending (h₀.ahead id) i).take k ∧
      (i ∈ s.world.heap.idents id → k = s.world.consumes ⟨id, i⟩ a) := by
    intro e member id there i
    have shows := fed.shows e member id there
    cases found : (s.world.heap.buffer id).reader? i with
    | none =>
      refine ⟨0, Nat.zero_le _, rfl, fun held => ?_⟩
      obtain ⟨r, inside, rfl⟩ := List.mem_map.mp held
      exact absurd (List.find?_eq_none.mp found r inside) (by simp)
    | some r =>
      obtain ⟨reader, rfl⟩ := Buffer.reader?_some found
      have few := (inside e member id there).2.2 r reader
      rw [shows.available reader] at few
      exact ⟨_, few, (shows.holds r reader).itemsAt few, fun _ => rfl⟩
  refine ⟨fed.wires.trans moves.sameWires, ?_, ?_⟩
  · intro e member id there i
    obtain ⟨k, few, items, -⟩ := taken e member id there i
    exact ((fed.ordered e member id there).moves few rfl (congrArg (_ ++ ·) items)).2
  · intro e member id there
    obtain ⟨stored, published, consumed⟩ := inside e member id there
    have shown := (fed.shows e member id there).evolves (moves.evolves id) stored published consumed
    dsimp only
    rw [List.length_append, Buffer.length_itemsAhead, ← Nat.add_assoc]
    refine shown.congr rfl rfl rfl rfl fun r reader => ?_
    have held : r.ident ∈ s.world.heap.idents id := by
      rw [← moves.sameWires.idents]
      exact List.mem_map_of_mem reader
    obtain ⟨k, few, items, consumed⟩ := taken e member id there r.ident
    rw [((fed.ordered e member id there).moves few rfl (congrArg (_ ++ ·) items)).1, consumed held]
    rfl

theorem Fed.in_order (fed : Fed fg h₀ s) (wired : h₀.WellWired none)
    (serves : h₀.Serves (· ∈ fg.edges)) {e : Edge} (member : e ∈ fg.edges) :
    s.taken e.dst ++ s.world.heap.front e.dst = h₀.front e.dst ++ s.published e.src := by
  obtain ⟨p, held, feeds⟩ := serves.wired e member
  have reader : p.ident ∈ s.world.heap.idents p.buffer := by
    rw [fed.wires.idents]
    exact wired.input_reader _ p held
  simp only [taken, published, Heap.front, fed.wires.inputAt, fed.wires.outputAt, held, feeds,
    Option.elim_some]
  rw [Heap.ahead_eq (fed.shows e member _ feeds) reader]
  exact fed.ordered e member _ feeds p.ident

theorem fed_start [Zero α] {granularity : Nat} (valid : fg.Valid env)
    (setup : fg.setupConnections env granularity (Heap.empty : Heap α τ) = .ok h₀) :
    Fed fg h₀ (.start h₀ : Watched α τ μ) := by
  have consistent := LiveFlowgraph.start_consistent ⟨fg, valid⟩ setup
  refine ⟨Heap.SameWires.refl _, fun _ _ _ _ => BroadcastQueue.inOrder_empty _, ?_⟩
  intro e member id there
  have streams := consistent.streams e.src id there
  refine ⟨streams.writeIndex, fun r reader => ?_⟩
  obtain ⟨g, preload, -, -, follows⟩ := consistent.attends id r reader
  have holds := follows.holds
  have found : (h₀.buffer id).reader? r.ident = some r :=
    LiveFlowgraph.readerAt_of_mem consistent.wellWired reader
  have available := holds.itemsAvailable streams.writeIndex
  have ahead : h₀.ahead id r.ident = (preload ++ []).drop r.absReadOffset := by
    rw [Heap.ahead, found, Option.elim_some]
    exact (holds.itemsAt available.le).trans (by rw [available, List.take_length]; rfl)
  have pending : ((start h₀ : Watched α τ μ).queue id).pending (h₀.ahead id) r.ident =
      h₀.ahead id r.ident := by simp [start, BroadcastQueue.empty, BroadcastQueue.pending]
  rw [pending, ahead]
  exact holds

/-! ## Blocks that compute -/

/-- All that an input has been shown: what it has taken, and what is in front of it. -/
def shown (s : Watched α τ μ) (dst : Endpoint) : List α := s.taken dst ++ s.world.heap.front dst

/-- A step publishes what the process of the block may have written at the output by then. -/
def Computes (fg : Flowgraph) (process : BlockId → Process Int Int α) (s : Watched α τ μ)
    (a : Action α τ μ) : Prop :=
  ∀ e ∈ fg.edges, ∀ id ∈ s.world.heap.outputAt e.src, s.world.publishes id a ≠ 0 →
    (process e.src.block).emits (fun port => s.shown ⟨e.src.block, port⟩) e.src.port
      ((s.queue id).stream ++ (s.world.heap.buffer id).itemsAhead (s.world.publishes id a))

end Watched

namespace Flowgraph

variable {fg : Flowgraph} {h₀ : Heap α τ} {s t : Watched α τ μ} {a : Action α τ μ}
  {process : BlockId → Process Int Int α}

/-- What the inputs are shown when the edges carry the given streams. -/
def shownBy (fg : Flowgraph) (h₀ : Heap α τ) (stream : { e // e ∈ fg.edges } → List α)
    (dst : Endpoint) : List α :=
  (fg.edges.attach.find? fun e => e.1.dst = dst).elim [] fun e => h₀.front dst ++ stream e

/-- The network of the blocks of a flowgraph; its channels are the edges. -/
def network (fg : Flowgraph) (h₀ : Heap α τ) (process : BlockId → Process Int Int α) :
    Network { e // e ∈ fg.edges } α where
  emits stream e u := (process e.1.src.block).emits
    (fun port => fg.shownBy h₀ stream ⟨e.1.src.block, port⟩) e.1.src.port u
  mono longer := (process _).mono fun port => by
    unfold shownBy
    cases fg.edges.attach.find? _ with
    | none => exact List.prefix_rfl
    | some e => exact List.prefix_append_right_inj _ |>.mpr (longer e)
  agree := (process _).agree

/-- The streams on the edges. -/
def streams (fg : Flowgraph) (s : Watched α τ μ) (e : { e // e ∈ fg.edges }) : List α :=
  s.published e.1.src

theorem shownBy_streams (fed : Watched.Fed fg h₀ s) (wired : h₀.WellWired none)
    (serves : h₀.Serves (· ∈ fg.edges)) : fg.shownBy h₀ (fg.streams s) = s.shown := by
  funext dst
  unfold shownBy
  cases found : fg.edges.attach.find? fun e => e.1.dst = dst with
  | some e =>
    obtain rfl : e.1.dst = dst := by simpa using List.find?_some found
    exact (fed.in_order wired serves e.2).symm
  | none =>
    have free : h₀.inputAt dst = none := by
      refine Option.eq_none_iff_forall_not_mem.mpr fun p held => ?_
      obtain ⟨e, member, same⟩ := serves.only dst p held
      have other := List.find?_eq_none.mp found ⟨e, member⟩ (List.mem_attach _ _)
      exact other (by simpa using same)
    simp [Watched.shown, Watched.taken, Heap.front, fed.wires.inputAt, free]

/-- A step of the threads is a step of the network. -/
theorem reaches_step (fed : Watched.Fed fg h₀ s) (wired : h₀.WellWired none)
    (serves : h₀.Serves (· ∈ fg.edges)) (reached : (fg.network h₀ process).Reaches (fg.streams s))
    (computes : s.Computes fg process a) (stepped : s.step env a = some t) :
    (fg.network h₀ process).Reaches (fg.streams t) := by
  obtain ⟨w, moved, rfl⟩ := Option.map_eq_some_iff.mp stepped
  have same := (tpbStep_moves moved).sameWires.outputAt
  refine reached.step fun e => ?_
  obtain ⟨p, -, feeds⟩ := serves.wired e.1 e.2
  have output := (fed.wires.outputAt e.1.src).trans feeds
  have before : fg.streams s e = (s.queue p.buffer).stream := by
    rw [streams, Watched.published, output, Option.elim_some]
  simp only [streams, Watched.published, same, output, Option.elim_some]
  by_cases idle : s.world.publishes p.buffer a = 0
  · left
    simp [idle]
  · refine Or.inr ⟨List.prefix_append _ _, ?_⟩
    have emitted := computes e.1 e.2 _ output idle
    rw [← shownBy_streams fed wired serves] at emitted
    exact emitted

/-! ## Whole runs -/

/-- The steps stay within the buffers, and the blocks compute what their processes say. -/
def Lawful (env : Blocks) (fg : Flowgraph) (process : BlockId → Process Int Int α) (h₀ : Heap α τ)
    (as : List (Action α τ μ)) : Prop :=
  Throughout (fun s a => s.Within fg a ∧ s.Computes fg process a) (Watched.step env) (.start h₀) as

variable [Zero α] {granularity : Nat} {as bs : List (Action α τ μ)} (valid : fg.Valid env)
  (setup : fg.setupConnections env granularity (Heap.empty : Heap α τ) = .ok h₀)
include valid setup

theorem fed_of_run (within : Throughout (Watched.Within fg) (Watched.step env) (.start h₀) as)
    (reached : run (Watched.step env) (.start h₀) as = some s) : Watched.Fed fg h₀ s :=
  run_invariant_of (Watched.Fed fg h₀) (fun _ _ _ fed within stepped => fed.step within stepped)
    (Watched.fed_start valid setup) within reached

/-- Each reader gets what the output it is connected to publishes, in order and without loss: what
it has taken and what is in front of it are the items it began with and the published ones. -/
theorem streams_in_order
    (within : Throughout (Watched.Within fg) (Watched.step env) (.start h₀) as)
    (reached : run (Watched.step env) (.start h₀) as = some s) {e : Edge} (member : e ∈ fg.edges) :
    s.taken e.dst ++ s.world.heap.front e.dst = h₀.front e.dst ++ s.published e.src := by
  have ready := setupConnections_ok valid setup
  exact (fed_of_run valid setup within reached).in_order ready.wellWired ready.serves member

theorem reaches_of_run (lawful : fg.Lawful env process h₀ as)
    (reached : run (Watched.step env) (.start h₀) as = some s) :
    (fg.network h₀ process).Reaches (fg.streams s) := by
  have ready := setupConnections_ok valid setup
  have initial : (fg.network h₀ process).Reaches (fg.streams (.start h₀ : Watched α τ μ)) := by
    refine Network.Reaches.start.step fun e => Or.inl ?_
    rw [streams, Watched.published]
    cases (Watched.start h₀ : Watched α τ μ).world.heap.outputAt e.1.src <;> rfl
  refine (run_invariant_of (fun s => Watched.Fed fg h₀ s ∧
    (fg.network h₀ process).Reaches (fg.streams s)) ?_
    ⟨Watched.fed_start valid setup, initial⟩ lawful reached).2
  rintro s a t ⟨fed, before⟩ ⟨within, computes⟩ stepped
  exact ⟨fed.step within stepped,
    reaches_step fed ready.wellWired ready.serves before computes stepped⟩

variable (lawful : fg.Lawful env process h₀ as) (lawful' : fg.Lawful env process h₀ bs)
  (reached : run (Watched.step env) (.start h₀) as = some s)
  (reached' : run (Watched.step env) (.start h₀) bs = some t) {e : Edge} (member : e ∈ fg.edges)
include lawful lawful' reached reached' member

/-- Whatever the order of the steps of the threads, the streams of two runs do not contradict each
other: one of them has published a beginning of what the other has. -/
theorem streams_agree :
    s.published e.src <+: t.published e.src ∨ t.published e.src <+: s.published e.src :=
  (reaches_of_run valid setup lawful reached).agree (reaches_of_run valid setup lawful' reached')
    ⟨e, member⟩

/-- A run after which no block has anything left to publish has published all that any other run
does. -/
theorem streams_complete
    (nothing : ∀ e ∈ fg.edges, ∀ u, (process e.src.block).emits
      (fun port => t.shown ⟨e.src.block, port⟩) e.src.port u → u <+: t.published e.src) :
    s.published e.src <+: t.published e.src := by
  have ready := setupConnections_ok valid setup
  have fed := fed_of_run valid setup (lawful'.mono fun _ _ both => both.1) reached'
  refine (reaches_of_run valid setup lawful reached).prefix_exhausted (t := fg.streams t) ?_
    ⟨e, member⟩
  intro e u emitted
  refine nothing e.1 e.2 u ?_
  rw [← shownBy_streams fed ready.wellWired ready.serves]
  exact emitted

end Flowgraph

/-! ## Two orders of the same relay -/

instance [DecidableEq α] {f : (Int → List α) → Int → List α} {mono} (shown : Int → List α)
    (o : Int) (u : List α) : Decidable ((Process.ofFun f mono).emits shown o u) :=
  inferInstanceAs (Decidable (u <+: f shown o))

instance {fg : Flowgraph} {process : BlockId → Process Int Int α} (s : Watched α τ μ)
    (a : Action α τ μ) [∀ b shown o u, Decidable ((process b).emits shown o u)] :
    Decidable (s.Computes fg process a) :=
  inferInstanceAs (Decidable (∀ e ∈ fg.edges, ∀ id ∈ s.world.heap.outputAt e.src, _ → _))

/-- The source has two items, and the others copy what they read. -/
def relayProcess (b : BlockId) : Process Int Int Nat :=
  .ofFun (fun shown port => if b = 0 then [7, 9] else shown port) fun shown more longer port => by
    split
    · exact List.prefix_rfl
    · exact longer port

instance {process : BlockId → Process Int Int α} {fg : Flowgraph} {h₀ : Heap α τ}
    {as : List (Action α τ μ)} [∀ b shown o u, Decidable ((process b).emits shown o u)] :
    Decidable (fg.Lawful env process h₀ as) :=
  inferInstanceAs (Decidable (Throughout _ _ _ _))

instance (b : BlockId) (shown : Int → List Nat) (o : Int) (u : List Nat) :
    Decidable ((relayProcess b).emits shown o u) := inferInstanceAs (Decidable (u <+: _))

/-- A block publishes some items, for as many that it consumes. -/
def copies (b : BlockId) (items : List Nat) : List (Action Nat Unit Unit) :=
  works b (if b = 0 then [.write 0 items] else [.consume 0 items.length, .write 0 items]) ++
    [.thread b (.workReturns items.length)] ++ advances b (if b = 0 then 2 else 3)

/-- The first item has come to block 2 before the source would publish the second. -/
def oneItem : List (Action Nat Unit Unit) := copies 0 [7] ++ copies 1 [7]

def bothItems : List (Action Nat Unit Unit) := copies 0 [7, 9] ++ copies 1 [7, 9] ++ copies 2 [7, 9]

theorem relay_runs : ∃ (h₀ : Heap Nat Unit) (s t : Watched Nat Unit Unit),
    relay.setupConnections relayBlocks 4096 Heap.empty = .ok h₀ ∧
    relay.Lawful relayBlocks relayProcess h₀ oneItem ∧
    relay.Lawful relayBlocks relayProcess h₀ bothItems ∧
    run (Watched.step relayBlocks) (.start h₀) oneItem = some s ∧
    run (Watched.step relayBlocks) (.start h₀) bothItems = some t ∧
    (∀ e ∈ relay.edges, t.published e.src = [7, 9]) ∧ t.shown ⟨1, 0⟩ = [7, 9] ∧
    t.shown ⟨2, 0⟩ = [7, 9] ∧ s.published ⟨1, 0⟩ = [7] := by
  have evaluated : ((relay.setupConnections (α := Nat) (τ := Unit) relayBlocks 4096
      Heap.empty).toOption.any fun h₀ =>
        (run (Watched.step relayBlocks) (.start h₀) oneItem).any fun s =>
          (run (Watched.step relayBlocks) (.start h₀) bothItems).any fun t =>
            decide (relay.Lawful relayBlocks relayProcess h₀ oneItem ∧
              relay.Lawful relayBlocks relayProcess h₀ bothItems ∧
              (∀ e ∈ relay.edges, t.published e.src = [7, 9]) ∧ t.shown ⟨1, 0⟩ = [7, 9] ∧
              t.shown ⟨2, 0⟩ = [7, 9] ∧ s.published ⟨1, 0⟩ = [7])) = true := by
    decide +kernel
  simp only [Option.any_eq_true, toOption_some, decide_eq_true_iff] at evaluated
  obtain ⟨h₀, setup, s, reached, t, reached', lawful, lawful', rest⟩ := evaluated
  exact ⟨h₀, s, t, setup, lawful, lawful', reached, reached', rest⟩

theorem streams_in_order_relay : ∃ (h₀ : Heap Nat Unit) (s : Watched Nat Unit Unit),
    run (Watched.step relayBlocks) (.start h₀) oneItem = some s ∧
    s.taken ⟨2, 0⟩ ++ s.world.heap.front ⟨2, 0⟩ = h₀.front ⟨2, 0⟩ ++ [7] := by
  obtain ⟨h₀, s, t, setup, lawful, -, reached, -, -, -, -, one⟩ := relay_runs
  have order := Flowgraph.streams_in_order relay_valid setup
    (lawful.mono fun _ _ both => both.1) reached (e := ⟨⟨1, 0⟩, ⟨2, 0⟩⟩) (by decide)
  exact ⟨h₀, s, reached, by rw [order, one]⟩

theorem streams_agree_relay : ∃ (h₀ : Heap Nat Unit) (s t : Watched Nat Unit Unit),
    run (Watched.step relayBlocks) (.start h₀) oneItem = some s ∧
    run (Watched.step relayBlocks) (.start h₀) bothItems = some t ∧
    (s.published ⟨2, 0⟩ <+: t.published ⟨2, 0⟩ ∨ t.published ⟨2, 0⟩ <+: s.published ⟨2, 0⟩) := by
  obtain ⟨h₀, s, t, setup, lawful, lawful', reached, reached', -⟩ := relay_runs
  exact ⟨h₀, s, t, reached, reached', Flowgraph.streams_agree relay_valid setup lawful lawful'
    reached reached' (e := ⟨⟨2, 0⟩, ⟨3, 0⟩⟩) (by decide)⟩

theorem streams_complete_relay : ∃ (h₀ : Heap Nat Unit) (s t : Watched Nat Unit Unit),
    run (Watched.step relayBlocks) (.start h₀) oneItem = some s ∧
    run (Watched.step relayBlocks) (.start h₀) bothItems = some t ∧
    s.published ⟨1, 0⟩ <+: t.published ⟨1, 0⟩ := by
  obtain ⟨h₀, s, t, setup, lawful, lawful', reached, reached', all, first, second, -⟩ := relay_runs
  refine ⟨h₀, s, t, reached, reached', Flowgraph.streams_complete relay_valid setup lawful lawful'
    reached reached' (e := ⟨⟨1, 0⟩, ⟨2, 0⟩⟩) (by decide) ?_⟩
  intro e member u emitted
  have shown : u <+: if e.src.block = 0 then [7, 9] else t.shown ⟨e.src.block, e.src.port⟩ := emitted
  rw [all e member]
  simp only [relay, List.mem_cons, List.not_mem_nil, or_false] at member
  rcases member with rfl | rfl | rfl
  · exact shown
  · rwa [← first]
  · rwa [← second]

end GnuRadio
