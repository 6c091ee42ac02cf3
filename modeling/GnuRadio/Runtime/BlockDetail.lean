import GnuRadio.Runtime.BufferFifo
import GnuRadio.Runtime.Flowgraph

/-!
# `gr_block_detail` and the objects of a running flowgraph

A detail holds the readers of its block's inputs and the buffers of its
outputs (`gr_block_detail.h`, `gr_block_detail.cc`). The details and buffers of
all blocks form a heap. A reader belongs to one input at a time: when the input
is given another one, the destructor takes the old one off its buffer.
-/

namespace GnuRadio

variable {α τ : Type}

/-- A `gr_buffer_reader_sptr` that is not null. -/
structure ReaderPtr where
  buffer : BufferId
  ident : Nat
  deriving DecidableEq, Repr

/-- The data of a `gr_block_detail`; `d_ninputs` and `d_noutputs` are the lengths. -/
structure BlockDetail where
  input : List (Option ReaderPtr)
  output : List BufferId
  done : Bool
  deriving DecidableEq, Repr

/-- The details of all blocks, the buffers, and the addresses given out so far. -/
structure Heap (α τ : Type) where
  detail : BlockId → Option BlockDetail
  buffer : BufferId → Buffer α τ
  nbuffers : Nat
  nreaders : Nat

namespace Heap

/-- No block has a detail. -/
def empty [Zero α] : Heap α τ where
  detail := fun _ => none
  buffer := fun _ => Buffer.ofSize 1 Nat.one_pos one_le_intMax 0
  nbuffers := 0
  nreaders := 0

/-- `gr_block_detail::input` (`gr_block_detail.h:55-60`) on the detail of a block. -/
def input (h : Heap α τ) (block : BlockId) (which : Int) : Except CppException (Option ReaderPtr) :=
  match h.detail block with
  | none => .error .undefinedBehaviour
  | some d =>
      if 0 ≤ which ∧ which < d.input.length then .ok (d.input.getD which.toNat none)
      else .error (.invalidArgument "gr_block_detail::input")

/-- `gr_block_detail::output` (`gr_block_detail.h:63-68`) on the detail of a block. -/
def output (h : Heap α τ) (block : BlockId) (which : Int) : Except CppException BufferId :=
  match h.detail block with
  | none => .error .undefinedBehaviour
  | some d =>
      if 0 ≤ which ∧ which < d.output.length then .ok (d.output.getD which.toNat 0)
      else .error (.invalidArgument "gr_block_detail::output")

/-- `gr_buffer_add_reader`; the new reader gets an address of its own. -/
def addReader (h : Heap α τ) (id : BufferId) (nzeroPreload : Int) (link : BlockId) :
    Except CppException (ReaderPtr × Heap α τ) := do
  let b ← (h.buffer id).addReader h.nreaders nzeroPreload link
  return (⟨id, h.nreaders⟩,
    { h with buffer := Function.update h.buffer id b, nreaders := h.nreaders + 1 })

/-- `gr_buffer_reader::~gr_buffer_reader` (`gr_buffer.cc:283-287`). -/
def dropReader (h : Heap α τ) (p : ReaderPtr) : Except CppException (Heap α τ) := do
  let b ← (h.buffer p.buffer).dropReader p.ident
  return { h with buffer := Function.update h.buffer p.buffer b }

/-- Releasing what a pointer that may be null pointed to. -/
def release (h : Heap α τ) : Option ReaderPtr → Except CppException (Heap α τ)
  | none => .ok h
  | some p => h.dropReader p

/-- `gr_block_detail::set_input` (`gr_block_detail.cc:55-62`) on the detail of a block. -/
def setInput (h : Heap α τ) (block : BlockId) (which : Int) (reader : Option ReaderPtr) :
    Except CppException (Heap α τ) :=
  match h.detail block with
  | none => .error .undefinedBehaviour
  | some d =>
      if 0 ≤ which ∧ which < d.input.length then
        let d' := { d with input := d.input.set which.toNat reader }
        release { h with detail := Function.update h.detail block (some d') }
          (d.input.getD which.toNat none)
      else .error (.invalidArgument "gr_block_detail::set_input")

/-- `gr_block::set_detail`; the readers of a detail that is replaced are released. -/
def setDetail (h : Heap α τ) (block : BlockId) (d : BlockDetail) : Except CppException (Heap α τ) :=
  let replaced := match h.detail block with
    | none => []
    | some old => old.input
  replaced.foldlM release { h with detail := Function.update h.detail block (some d) }

/-- A new buffer at an address of its own. -/
def newBuffer (h : Heap α τ) (b : Buffer α τ) : BufferId × Heap α τ :=
  let buffer := Function.update h.buffer h.nbuffers b
  (h.nbuffers, { h with buffer := buffer, nbuffers := h.nbuffers + 1 })

/-- `set_input` of a reader made for it by `gr_buffer_add_reader`, as the flat
flowgraph does it (`gr_flat_flowgraph.cc:150`, `gr_flat_flowgraph.cc:238`). -/
def connectInput (h : Heap α τ) (block : BlockId) (which : Int) (id : BufferId)
    (nzeroPreload : Int) : Except CppException (Heap α τ) := do
  let (reader, h) ← h.addReader id nzeroPreload block
  h.setInput block which (some reader)

/-! ## Reading the wiring off the heap -/

/-- The reader at an input port, if the port exists and is not null. -/
def inputAt (h : Heap α τ) (e : Endpoint) : Option ReaderPtr :=
  if e.port < 0 then none
  else (h.detail e.block).bind fun d => (d.input[e.port.toNat]?).join

/-- The buffer at an output port, if the port exists. -/
def outputAt (h : Heap α τ) (e : Endpoint) : Option BufferId :=
  if e.port < 0 then none
  else (h.detail e.block).bind fun d => d.output[e.port.toNat]?

/-- The numbers of inputs and outputs of a detail. -/
def ports (h : Heap α τ) (block : BlockId) : Option (Nat × Nat) :=
  (h.detail block).map fun d => (d.input.length, d.output.length)

/-- The reader object behind a pointer. -/
def readerAt (h : Heap α τ) (p : ReaderPtr) : Option BufferReader :=
  (h.buffer p.buffer).reader? p.ident

/-- The addresses of the readers of a buffer. -/
def idents (h : Heap α τ) (id : BufferId) : List Nat :=
  (h.buffer id).readers.map BufferReader.ident

variable {h h' : Heap α τ}

/-- The pointers of a heap: outputs have buffers of their own, inputs have readers
of their own, and every reader is held by an input, except for one that is still
`loose`. -/
structure WellWired (h : Heap α τ) (loose : Option ReaderPtr) : Prop where
  output_lt : ∀ e id, h.outputAt e = some id → id < h.nbuffers
  output_inj : ∀ e e' id, h.outputAt e = some id → h.outputAt e' = some id → e = e'
  input_reader : ∀ e p, h.inputAt e = some p → p.ident ∈ h.idents p.buffer
  input_inj : ∀ e e' p, h.inputAt e = some p → h.inputAt e' = some p → e = e'
  held : ∀ id i, i ∈ h.idents id → (∃ e, h.inputAt e = some ⟨id, i⟩) ∨ loose = some ⟨id, i⟩
  loose_reader : ∀ p, loose = some p → p.ident ∈ h.idents p.buffer
  loose_free : ∀ e p, loose = some p → h.inputAt e ≠ some p
  idents_lt : ∀ id i, i ∈ h.idents id → id < h.nbuffers ∧ i < h.nreaders
  idents_nodup : ∀ id, (h.idents id).Nodup

variable {loose old reader : Option ReaderPtr} {block link : BlockId} {which nzeroPreload : Int}
  {dst : Endpoint} {id : BufferId} {p : ReaderPtr} {E F : Edge → Prop}

theorem WellWired.congr (wired : h.WellWired loose) (inputs : h'.inputAt = h.inputAt)
    (outputs : h'.outputAt = h.outputAt) (idents : h'.idents = h.idents)
    (nbuffers : h'.nbuffers = h.nbuffers) (nreaders : h'.nreaders = h.nreaders) :
    h'.WellWired loose := by
  constructor
  all_goals simp only [inputs, outputs, idents, nbuffers, nreaders]
  exacts [wired.output_lt, wired.output_inj, wired.input_reader, wired.input_inj, wired.held,
    wired.loose_reader, wired.loose_free, wired.idents_lt, wired.idents_nodup]

theorem map_eraseP_ident (readers : List BufferReader) (i : Nat) :
    (readers.eraseP fun r => r.ident == i).map BufferReader.ident =
      (readers.map BufferReader.ident).erase i := by
  induction readers with
  | nil => rfl
  | cons r readers ih =>
    by_cases same : r.ident = i
    · simp [same]
    · simp [same, ih]

/-- What a pointer assignment leaves alone. -/
structure SameBuffers (h h' : Heap α τ) : Prop where
  nbuffers : h'.nbuffers = h.nbuffers
  nreaders : h'.nreaders = h.nreaders
  buffer : ∀ id, h'.buffer id = { h.buffer id with readers := (h'.buffer id).readers }

/-- The readers of buffer `id` that a released pointer leaves. -/
def remaining (id : BufferId) (readers : List BufferReader) :
    Option ReaderPtr → List BufferReader
  | none => readers
  | some p => if id = p.buffer then readers.eraseP fun r => r.ident == p.ident else readers

theorem release_ok (released : h.release old = .ok h') :
    h'.detail = h.detail ∧ SameBuffers h h' ∧
    ∀ id, (h'.buffer id).readers = remaining id (h.buffer id).readers old := by
  cases old with
  | none =>
    obtain rfl := Except.ok.inj released
    exact ⟨rfl, ⟨rfl, rfl, fun _ => rfl⟩, fun _ => rfl⟩
  | some p =>
    obtain ⟨b, dropped, same⟩ := bind_ok.mp released
    obtain rfl := pure_ok.mp same
    unfold Buffer.dropReader at dropped
    split at dropped
    · obtain rfl := Except.ok.inj dropped
      refine ⟨rfl, ⟨rfl, rfl, ?_⟩, ?_⟩
      · intro id
        by_cases here : id = p.buffer
        · subst here
          simp
        · simp [here]
      · intro id
        by_cases here : id = p.buffer
        · subst here
          simp [remaining]
        · simp [remaining, here]
    · cases dropped

/-- The effect of `set_input` on the wiring. -/
structure InputSet (h h' : Heap α τ) (dst : Endpoint) (reader : Option ReaderPtr) : Prop where
  same : SameBuffers h h'
  inputs : h'.inputAt = Function.update h.inputAt dst reader
  outputs : h'.outputAt = h.outputAt
  ports : h'.ports = h.ports
  readers : ∀ id, (h'.buffer id).readers = remaining id (h.buffer id).readers (h.inputAt dst)

theorem setInput_ok (set : h.setInput block which reader = .ok h') :
    InputSet h h' ⟨block, which⟩ reader := by
  unfold setInput at set
  cases here : h.detail block with
  | none => rw [here] at set; cases set
  | some d =>
    rw [here] at set
    dsimp only at set
    split at set
    · rename_i range
      have old : h.inputAt ⟨block, which⟩ = d.input.getD which.toNat none := by
        rw [inputAt, if_neg (not_lt.mpr range.1), here, Option.bind_some,
          List.getD_eq_getElem?_getD]
        cases d.input[which.toNat]? <;> rfl
      obtain ⟨details, same, readers⟩ := release_ok set
      rw [← old] at readers
      refine ⟨⟨same.nbuffers, same.nreaders, same.buffer⟩, ?_, ?_, ?_, readers⟩
      · funext e
        unfold inputAt
        rw [details]
        dsimp only
        by_cases same : e = ⟨block, which⟩
        · subst same
          have inside : which.toNat < d.input.length := by omega
          simp [not_lt.mpr range.1, inside]
        · rw [Function.update_of_ne same]
          split
          · rfl
          · by_cases owner : e.block = block
            · have port : which.toNat ≠ e.port.toNat := by
                intro port
                exact same (Endpoint.ext owner (by dsimp only; omega))
              rw [owner, Function.update_self, here, Option.bind_some, Option.bind_some,
                List.getElem?_set_ne port]
            · rw [Function.update_of_ne owner]
      · funext e
        unfold outputAt
        rw [details]
        dsimp only
        by_cases owner : e.block = block
        · rw [owner, Function.update_self, here, Option.bind_some, Option.bind_some]
        · rw [Function.update_of_ne owner]
      · funext b
        unfold ports
        rw [details]
        dsimp only
        by_cases owner : b = block
        · rw [owner, Function.update_self, here, Option.map_some, Option.map_some,
            List.length_set]
        · rw [Function.update_of_ne owner]
    · cases set

theorem InputSet.idents (set : InputSet h h' dst reader) (id : BufferId) :
    h'.idents id = match h.inputAt dst with
      | none => h.idents id
      | some p => if id = p.buffer then (h.idents id).erase p.ident else h.idents id := by
  unfold Heap.idents
  rw [set.readers id]
  cases h.inputAt dst with
  | none => rfl
  | some p =>
    simp only [remaining]
    by_cases here : id = p.buffer
    · simp only [here, if_true]
      exact map_eraseP_ident _ _
    · simp only [here, if_false]

theorem InputSet.mem_idents (set : InputSet h h' dst reader) (wired : h.WellWired loose) {i : Nat} :
    i ∈ h'.idents id ↔ i ∈ h.idents id ∧ h.inputAt dst ≠ some ⟨id, i⟩ := by
  rw [set.idents id]
  cases old : h.inputAt dst with
  | none => simp
  | some p =>
    obtain ⟨buffer, ident⟩ := p
    dsimp only
    split
    · rename_i here
      subst here
      rw [(wired.idents_nodup id).mem_erase_iff]
      simp only [ne_eq, Option.some.injEq, ReaderPtr.mk.injEq, true_and]
      tauto
    · rename_i elsewhere
      have : ¬ (buffer = id ∧ ident = i) := fun both => elsewhere both.1.symm
      simp [this]

theorem InputSet.wellWired (set : InputSet h h' dst loose) (wired : h.WellWired loose) :
    h'.WellWired none := by
  have inputs : ∀ e, h'.inputAt e = if e = dst then loose else h.inputAt e := by
    intro e
    rw [set.inputs, Function.update_apply]
  constructor
  · rw [set.outputs, set.same.nbuffers]
    exact wired.output_lt
  · rw [set.outputs]
    exact wired.output_inj
  · intro e p held
    rw [inputs] at held
    refine (set.mem_idents wired).mpr ?_
    split at held
    · exact ⟨wired.loose_reader p held, wired.loose_free dst p held⟩
    · rename_i other
      exact ⟨wired.input_reader e p held, fun same => other (wired.input_inj e dst p held same)⟩
  · intro e e' p held held'
    rw [inputs] at held held'
    split at held <;> split at held'
    · rename_i first second
      rw [first, second]
    · exact absurd held' (wired.loose_free e' p held)
    · exact absurd held (wired.loose_free e p held')
    · exact wired.input_inj e e' p held held'
  · intro id i member
    obtain ⟨before, other⟩ := (set.mem_idents wired).mp member
    left
    rcases wired.held id i before with ⟨e, held⟩ | held
    · refine ⟨e, ?_⟩
      rw [inputs, if_neg]
      · exact held
      · rintro rfl
        exact other held
    · exact ⟨dst, by rw [inputs, if_pos rfl, held]⟩
  · intro p none
    cases none
  · intro _ p none
    cases none
  · intro id i member
    rw [set.same.nbuffers, set.same.nreaders]
    exact wired.idents_lt id i ((set.mem_idents wired).mp member).1
  · intro id
    rw [set.idents id]
    split
    · exact wired.idents_nodup id
    · split
      · exact (wired.idents_nodup id).erase _
      · exact wired.idents_nodup id

theorem release_total (present : ∀ p, old = some p → p.ident ∈ h.idents p.buffer) :
    ∃ h', h.release old = .ok h' := by
  cases old with
  | none => exact ⟨h, rfl⟩
  | some p =>
    obtain ⟨r, member, same⟩ := List.mem_map.mp (present p rfl)
    have found : ((h.buffer p.buffer).readers.any fun r => r.ident == p.ident) = true := by
      rw [List.any_eq_true]
      exact ⟨r, member, by simpa using same⟩
    simp only [release, dropReader, Buffer.dropReader, found, if_true]
    exact ⟨_, rfl⟩

theorem setInput_total {loose reader : Option ReaderPtr} (wired : h.WellWired loose)
    {block : BlockId} {which : Int} {ports : Nat × Nat} (detail : h.ports block = some ports)
    (low : 0 ≤ which) (high : which < ports.1) :
    ∃ h', h.setInput block which reader = .ok h' := by
  unfold Heap.ports at detail
  cases here : h.detail block with
  | none => rw [here] at detail; cases detail
  | some d =>
    rw [here] at detail
    obtain rfl := Option.some.inj detail
    have range : 0 ≤ which ∧ which < d.input.length := ⟨low, high⟩
    simp only [setInput, here, range, and_self, if_true]
    apply release_total
    intro p held
    have old : h.inputAt ⟨block, which⟩ = some p := by
      rw [inputAt, if_neg (not_lt.mpr range.1), here, Option.bind_some, ← held,
        List.getD_eq_getElem?_getD]
      cases d.input[which.toNat]? <;> rfl
    exact wired.input_reader _ _ old

/-! ## A new reader -/

/-- The effect of `gr_buffer_add_reader`. -/
structure ReaderAdded (h h' : Heap α τ) (id : BufferId) (p : ReaderPtr) (link : BlockId) :
    Prop where
  address : p = ⟨id, h.nreaders⟩
  detail : h'.detail = h.detail
  nbuffers : h'.nbuffers = h.nbuffers
  nreaders : h'.nreaders = h.nreaders + 1
  buffer : ∀ c, h'.buffer c = { h.buffer c with readers := (h'.buffer c).readers }
  others : ∀ c, c ≠ id → (h'.buffer c).readers = (h.buffer c).readers
  readers : ∃ readIndex, (h'.buffer id).readers =
    (h.buffer id).readers ++ [⟨h.nreaders, readIndex, 0, link⟩]

theorem addReader_ok (added : h.addReader id nzeroPreload link = .ok (p, h')) :
    0 ≤ nzeroPreload ∧ ReaderAdded h h' id p link := by
  obtain ⟨b, attached, same⟩ := bind_ok.mp added
  obtain ⟨rfl, rfl⟩ := Prod.mk.inj (pure_ok.mp same)
  unfold Buffer.addReader at attached
  split at attached
  · cases attached
  · rename_i nonneg
    dsimp only at attached
    split at attached
    · obtain rfl := Except.ok.inj attached
      refine ⟨by omega, rfl, rfl, rfl, rfl, ?_, ?_, ?_, ?_⟩
      · intro c
        by_cases here : c = id
        · subst here
          simp
        · simp [here]
      · intro c other
        simp [other]
      · exact indexSub (h.buffer id).bufsize (h.buffer id).writeIndex nzeroPreload.toNat
      · simp only [Function.update_self]
    · cases attached

/-- Where `gr_buffer_add_reader` puts a new reader. -/
structure Attached (b : Buffer α τ) (nzeroPreload : Int) (r : BufferReader) : Prop where
  nonneg : 0 ≤ nzeroPreload
  absReadOffset : r.absReadOffset = 0
  readIndex : r.readIndex = indexSub b.bufsize b.writeIndex nzeroPreload.toNat
  inside : r.readIndex < b.bufsize

theorem Attached.congr {b c : Buffer α τ} {r : BufferReader} (attached : Attached b nzeroPreload r)
    (size : c.bufsize = b.bufsize) (writer : c.writeIndex = b.writeIndex) :
    Attached c nzeroPreload r := by
  refine ⟨attached.nonneg, attached.absReadOffset, ?_, ?_⟩
  · rw [size, writer]
    exact attached.readIndex
  · rw [size]
    exact attached.inside

theorem addReader_attached (added : h.addReader id nzeroPreload link = .ok (p, h')) :
    ∃ r, Attached (h.buffer id) nzeroPreload r ∧ r.link = link ∧
      (h'.buffer id).readers = (h.buffer id).readers ++ [r] := by
  obtain ⟨b, attached, same⟩ := bind_ok.mp added
  obtain ⟨rfl, rfl⟩ := Prod.mk.inj (pure_ok.mp same)
  let readIndex := indexSub (h.buffer id).bufsize (h.buffer id).writeIndex nzeroPreload.toNat
  unfold Buffer.addReader at attached
  split at attached
  · cases attached
  · rename_i nonneg
    dsimp only at attached
    split at attached
    · rename_i inside
      obtain rfl := Except.ok.inj attached
      refine ⟨⟨h.nreaders, readIndex, 0, link⟩, ⟨not_lt.mp nonneg, rfl, rfl, inside⟩, rfl, ?_⟩
      simp only [Function.update_self, readIndex]
    · cases attached

theorem addReader_total {id : BufferId} {nzeroPreload : Int} {link : BlockId}
    (nonneg : 0 ≤ nzeroPreload) (fits : nzeroPreload ≤ (h.buffer id).bufsize)
    (writer : (h.buffer id).writeIndex < (h.buffer id).bufsize) :
    ∃ p h', h.addReader id nzeroPreload link = .ok (p, h') := by
  have inside : indexSub (h.buffer id).bufsize (h.buffer id).writeIndex nzeroPreload.toNat <
      (h.buffer id).bufsize := indexSub_lt (h.buffer id).bufsize_le writer (by omega)
  simp only [addReader, Buffer.addReader, not_lt.mpr nonneg, if_false, inside, if_true]
  exact ⟨_, _, rfl⟩

theorem addReader_wellWired (wired : h.WellWired none) (allocated : id < h.nbuffers)
    (added : h.addReader id nzeroPreload link = .ok (p, h')) : h'.WellWired (some p) := by
  obtain ⟨-, effect⟩ := addReader_ok added
  obtain ⟨readIndex, readers⟩ := effect.readers
  have inputs : h'.inputAt = h.inputAt := by
    funext e
    rw [inputAt, inputAt, effect.detail]
  have outputs : h'.outputAt = h.outputAt := by
    funext e
    rw [outputAt, outputAt, effect.detail]
  have idents : ∀ c, h'.idents c = if c = id then h.idents c ++ [h.nreaders] else h.idents c := by
    intro c
    unfold Heap.idents
    split
    · rename_i here
      rw [here, readers, List.map_append, List.map_singleton]
    · rename_i other
      rw [effect.others c other]
  have fresh : ∀ c, h.nreaders ∉ h.idents c := fun c member =>
    (lt_irrefl _ (wired.idents_lt c _ member).2)
  have kept : ∀ c i, i ∈ h.idents c → i ∈ h'.idents c := by
    intro c i member
    rw [idents]
    split
    · exact List.mem_append_left _ member
    · exact member
  rw [effect.address]
  constructor
  · rw [outputs, effect.nbuffers]
    exact wired.output_lt
  · rw [outputs]
    exact wired.output_inj
  · rw [inputs]
    exact fun e q held => kept _ _ (wired.input_reader e q held)
  · rw [inputs]
    exact wired.input_inj
  · intro c i member
    rw [idents] at member
    rw [inputs]
    split at member
    · rename_i here
      rcases List.mem_append.mp member with old | new
      · exact Or.inl ((wired.held c i old).resolve_right (by simp))
      · rw [here, List.mem_singleton.mp new]
        exact Or.inr rfl
    · exact Or.inl ((wired.held c i member).resolve_right (by simp))
  · intro q same
    obtain rfl := Option.some.inj same
    rw [idents, if_pos rfl]
    exact List.mem_append_right _ (List.mem_singleton_self _)
  · intro e q same held
    obtain rfl := Option.some.inj same
    rw [inputs] at held
    exact fresh id (wired.input_reader e _ held)
  · intro c i member
    rw [effect.nbuffers, effect.nreaders]
    rw [idents] at member
    split at member
    · rename_i here
      rcases List.mem_append.mp member with old | new
      · exact ⟨(wired.idents_lt c i old).1, Nat.lt_succ_of_lt (wired.idents_lt c i old).2⟩
      · rw [here, List.mem_singleton.mp new]
        exact ⟨allocated, Nat.lt_succ_self _⟩
    · exact ⟨(wired.idents_lt c i member).1, Nat.lt_succ_of_lt (wired.idents_lt c i member).2⟩
  · intro c
    rw [idents]
    split
    · rw [List.nodup_append]
      refine ⟨wired.idents_nodup c, List.nodup_singleton _, ?_⟩
      intro i old j new
      obtain rfl := List.mem_singleton.mp new
      rintro rfl
      exact fresh c old
    · exact wired.idents_nodup c

/-! ## How a heap grows -/

/-- Details and buffers of `h` are still there in `h'`, and a reader of `h` that is
still at an input is the same object at the same input. -/
structure Extends (h h' : Heap α τ) : Prop where
  nbuffers : h.nbuffers ≤ h'.nbuffers
  nreaders : h.nreaders ≤ h'.nreaders
  ports : ∀ b n, h.ports b = some n → h'.ports b = some n
  outputs : ∀ e id, h.outputAt e = some id → h'.outputAt e = some id
  buffer : ∀ id < h.nbuffers, h'.buffer id = { h.buffer id with readers := (h'.buffer id).readers }
  inputs : ∀ e p, h'.inputAt e = some p → p.ident < h.nreaders →
    h.inputAt e = some p ∧ h'.readerAt p = h.readerAt p

theorem Extends.refl (h : Heap α τ) : Extends h h :=
  ⟨le_rfl, le_rfl, fun _ _ => id, fun _ _ => id, fun _ _ => rfl, fun _ _ held _ => ⟨held, rfl⟩⟩

theorem Extends.trans {h'' : Heap α τ} (first : Extends h h') (second : Extends h' h'') :
    Extends h h'' := by
  refine ⟨first.nbuffers.trans second.nbuffers, first.nreaders.trans second.nreaders,
    fun b n => second.ports b n ∘ first.ports b n, fun e id => second.outputs e id ∘
    first.outputs e id, ?_, ?_⟩
  · intro id inside
    rw [second.buffer id (inside.trans_le first.nbuffers), first.buffer id inside]
  · intro e p held old
    obtain ⟨mid, same⟩ := second.inputs e p held (old.trans_le first.nreaders)
    obtain ⟨start, same'⟩ := first.inputs e p mid old
    exact ⟨start, same.trans same'⟩

theorem outputAt_iff {p : BlockId} {ports : Nat × Nat} (detail : h.ports p = some ports)
    {port : Int} : (∃ id, h.outputAt ⟨p, port⟩ = some id) ↔ 0 ≤ port ∧ port < ports.2 := by
  unfold Heap.ports at detail
  unfold Heap.outputAt
  dsimp only
  cases here : h.detail p with
  | none => rw [here] at detail; cases detail
  | some d =>
    rw [here] at detail
    obtain rfl := Option.some.inj detail
    rw [← Option.isSome_iff_exists]
    split
    · simp only [Option.isSome_none, Bool.false_eq_true, false_iff]
      omega
    · rw [Option.bind_some, isSome_getElem?]
      dsimp only
      omega

theorem Extends.outputAt_of_ports (grows : Extends h h') {p : BlockId} {ports : Nat × Nat}
    (detail : h.ports p = some ports) {port : Int} (there : h'.outputAt ⟨p, port⟩ = some id) :
    h.outputAt ⟨p, port⟩ = some id := by
  have after := grows.ports p _ detail
  obtain ⟨id', before⟩ := (outputAt_iff detail).mpr ((outputAt_iff after).mp ⟨id, there⟩)
  rw [before, ← there]
  exact (grows.outputs _ _ before).symm

theorem find?_eraseP_other {readers : List BufferReader} {i j : Nat} (other : i ≠ j) :
    (readers.eraseP fun r => r.ident == j).find? (fun r => r.ident == i) =
      readers.find? fun r => r.ident == i := by
  induction readers with
  | nil => rfl
  | cons r readers ih =>
    by_cases erased : r.ident = j
    · simp [erased, other.symm]
    · simp only [beq_iff_eq, erased, not_false_eq_true, List.eraseP_cons_of_neg, List.find?_cons, ih]

theorem InputSet.readerAt (set : InputSet h h' dst reader) (other : h.inputAt dst ≠ some p) :
    h'.readerAt p = h.readerAt p := by
  unfold Heap.readerAt Buffer.reader?
  rw [set.readers]
  cases old : h.inputAt dst with
  | none => rfl
  | some q =>
    rw [remaining]
    split
    · rename_i same
      apply find?_eraseP_other
      intro ident
      apply other
      rw [old]
      obtain ⟨_, _⟩ := p
      obtain ⟨_, _⟩ := q
      simp only at same ident
      rw [same, ident]
    · rfl

theorem ReaderAdded.readerAt {q : ReaderPtr} (added : ReaderAdded h h' id q link)
    (old : p.ident < h.nreaders) : h'.readerAt p = h.readerAt p := by
  unfold Heap.readerAt Buffer.reader?
  by_cases here : p.buffer = id
  · obtain ⟨readIndex, readers⟩ := added.readers
    have new : (h.nreaders == p.ident) = false := beq_false_of_ne (by omega)
    rw [here, readers, List.find?_append, List.find?_cons, new, List.find?_nil, Option.or_none]
  · rw [added.others _ here]

theorem clearInput_ok (wired : h.WellWired none) (set : h.setInput block which none = .ok h') :
    h'.WellWired none ∧ Extends h h' ∧ h'.ports = h.ports ∧
      h'.inputAt = Function.update h.inputAt ⟨block, which⟩ none ∧ h'.outputAt = h.outputAt := by
  have effect := setInput_ok set
  refine ⟨effect.wellWired wired, ?_, effect.ports, effect.inputs, effect.outputs⟩
  refine ⟨effect.same.nbuffers.ge, effect.same.nreaders.ge, ?_, ?_, fun id _ => effect.same.buffer id,
    ?_⟩
  · rw [effect.ports]
    exact fun _ _ => id
  · rw [effect.outputs]
    exact fun _ _ => id
  · intro e p held old
    rw [effect.inputs, Function.update_apply] at held
    split at held
    · cases held
    · rename_i other
      exact ⟨held, effect.readerAt fun same => other (wired.input_inj _ _ p held same)⟩

theorem connectInput_ok (wired : h.WellWired none) (allocated : id < h.nbuffers)
    (connected : h.connectInput block which id nzeroPreload = .ok h') :
    0 ≤ nzeroPreload ∧ h'.WellWired none ∧ Extends h h' ∧ h'.ports = h.ports ∧
      h'.inputAt = Function.update h.inputAt ⟨block, which⟩ (some ⟨id, h.nreaders⟩) ∧
      h'.outputAt = h.outputAt := by
  obtain ⟨⟨p, mid⟩, added, set⟩ := bind_ok.mp connected
  have loose := addReader_wellWired wired allocated added
  obtain ⟨nonneg, first⟩ := addReader_ok added
  have second := setInput_ok set
  have inputs : mid.inputAt = h.inputAt := by
    funext e
    rw [inputAt, inputAt, first.detail]
  have outputs : mid.outputAt = h.outputAt := by
    funext e
    rw [outputAt, outputAt, first.detail]
  have updated : h'.inputAt = Function.update h.inputAt ⟨block, which⟩ (some ⟨id, h.nreaders⟩) := by
    rw [second.inputs, inputs, first.address]
  have ports : h'.ports = h.ports := by
    rw [second.ports]
    funext b
    rw [Heap.ports, Heap.ports, first.detail]
  refine ⟨nonneg, second.wellWired loose, ?_, ports, updated, second.outputs.trans outputs⟩
  refine ⟨?_, ?_, ?_, ?_, ?_, ?_⟩
  · rw [second.same.nbuffers, first.nbuffers]
  · rw [second.same.nreaders, first.nreaders]
    exact Nat.le_succ _
  · rw [ports]
    exact fun _ _ same => same
  · rw [second.outputs, outputs]
    exact fun _ _ same => same
  · intro c _
    rw [second.same.buffer c, first.buffer c]
  · intro e q held old
    rw [updated, Function.update_apply] at held
    split at held
    · obtain rfl := Option.some.inj held
      exact absurd old (lt_irrefl _)
    · rename_i other
      refine ⟨held, ?_⟩
      rw [second.readerAt, first.readerAt old]
      rw [inputs]
      exact fun same => other (wired.input_inj _ _ q held same)

theorem connectInput_readerAt (wired : h.WellWired none) (allocated : id < h.nbuffers)
    (connected : h.connectInput block which id nzeroPreload = .ok h') :
    ∃ r, h'.readerAt ⟨id, h.nreaders⟩ = some r ∧ r.link = block ∧ r.absReadOffset = 0 := by
  obtain ⟨⟨p, mid⟩, added, set⟩ := bind_ok.mp connected
  have loose := addReader_wellWired wired allocated added
  obtain ⟨-, first⟩ := addReader_ok added
  obtain ⟨readIndex, readers⟩ := first.readers
  have free : mid.inputAt ⟨block, which⟩ ≠ some ⟨id, h.nreaders⟩ :=
    loose.loose_free _ _ (congrArg some first.address)
  refine ⟨⟨h.nreaders, readIndex, 0, block⟩, ?_, rfl, rfl⟩
  rw [(setInput_ok set).readerAt free, Heap.readerAt, Buffer.reader?, readers, List.find?_append,
    List.find?_eq_none.mpr, Option.none_or, List.find?_cons_of_pos (by simp)]
  intro r member same
  exact lt_irrefl _ ((beq_iff_eq.mp same) ▸
    (wired.idents_lt id _ (List.mem_map_of_mem member)).2)

theorem connectInput_total {ports : Nat × Nat} (wired : h.WellWired none)
    (allocated : id < h.nbuffers) (detail : h.ports block = some ports) (low : 0 ≤ which)
    (high : which < ports.1) (nonneg : 0 ≤ nzeroPreload)
    (fits : nzeroPreload ≤ (h.buffer id).bufsize)
    (writer : (h.buffer id).writeIndex < (h.buffer id).bufsize) :
    ∃ h', h.connectInput block which id nzeroPreload = .ok h' := by
  obtain ⟨p, mid, added⟩ := @addReader_total _ _ h _ _ block nonneg fits writer
  have same : mid.ports block = some ports := by
    rw [Heap.ports, (addReader_ok added).2.detail]
    exact detail
  have loose := addReader_wellWired wired allocated added
  obtain ⟨h', set⟩ := @setInput_total _ _ mid _ (some p) loose block which ports same low high
  exact ⟨h', bind_ok.mpr ⟨(p, mid), added, set⟩⟩

/-! ## Serving the edges of a flowgraph -/

/-- The inputs of the heap are exactly the destinations of the edges in `E`, each
with a reader on the buffer of the edge's source. -/
structure Serves (h : Heap α τ) (E : Edge → Prop) : Prop where
  wired : ∀ e, E e → ∃ p, h.inputAt e.dst = some p ∧ h.outputAt e.src = some p.buffer
  only : ∀ dst p, h.inputAt dst = some p → ∃ e, E e ∧ e.dst = dst

theorem Serves.clear (serves : h.Serves E)
    (inputs : h'.inputAt = Function.update h.inputAt dst none) (outputs : h'.outputAt = h.outputAt)
    (left : ∀ e, F e ↔ E e ∧ e.dst ≠ dst) : h'.Serves F := by
  constructor
  · intro e member
    obtain ⟨before, other⟩ := (left e).mp member
    rw [inputs, outputs, Function.update_of_ne other]
    exact serves.wired e before
  · intro d p held
    rw [inputs, Function.update_apply] at held
    split at held
    · cases held
    · rename_i other
      obtain ⟨e, member, rfl⟩ := serves.only d p held
      exact ⟨e, (left e).mpr ⟨member, other⟩, rfl⟩

theorem Serves.connect (serves : h.Serves E) {e : Edge}
    (inputs : h'.inputAt = Function.update h.inputAt e.dst (some p))
    (outputs : h'.outputAt = h.outputAt) (source : h.outputAt e.src = some p.buffer)
    (alone : ∀ e', E e' → e'.dst = e.dst → e' = e) (more : ∀ e', F e' ↔ E e' ∨ e' = e) :
    h'.Serves F := by
  constructor
  · intro e' member
    rw [inputs, outputs]
    by_cases same : e' = e
    · subst same
      exact ⟨p, Function.update_self .., source⟩
    · have before := ((more e').mp member).resolve_right same
      rw [Function.update_of_ne fun dst => same (alone e' before dst)]
      exact serves.wired e' before
  · intro d q held
    rw [inputs, Function.update_apply] at held
    split at held
    · rename_i here
      exact ⟨e, (more e).mpr (Or.inr rfl), here.symm⟩
    · obtain ⟨e', member, rfl⟩ := serves.only d q held
      exact ⟨e', (more e').mpr (Or.inl member), rfl⟩

theorem Serves.congr (serves : h.Serves E) (same : ∀ e, F e ↔ E e) : h.Serves F := by
  rwa [show F = E from funext fun e => propext (same e)]

end Heap

end GnuRadio
