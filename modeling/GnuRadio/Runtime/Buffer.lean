import GnuRadio.Misc.Ring
import GnuRadio.Runtime.Types

/-!
# `gr_buffer` and `gr_buffer_reader`

The buffer between the output port of one block and the input ports it feeds
(`gr_buffer.h`, `gr_buffer.cc`). Its memory is mapped twice, so that
`d_base[i]` and `d_base[i + d_bufsize]` are one cell; it is a function on cell
numbers here, always applied below `bufsize`. A reader object belongs to one
buffer for its whole life and is stored in the buffer's `readers`, in the order
of `d_readers`; `ident` stands for its address.
-/

namespace GnuRadio

variable {α τ : Type}

/-- A tag tuple: `offset` is element 0 as an unsigned 64-bit number, `body` the
source id, key and value. -/
structure Tag (τ : Type) where
  offset : Nat
  body : τ
  deriving DecidableEq, Repr

/-- The data of a `gr_buffer_reader`. -/
structure BufferReader where
  ident : Nat
  readIndex : Nat
  absReadOffset : Nat
  /-- The block that reads through this reader. -/
  link : BlockId
  deriving DecidableEq, Repr

/-- The data of a `gr_buffer`. The size comes from an `int` and the memory
factories refuse an empty segment (`gr_vmcircbuf_mmap_shm_open.cc:52`). -/
structure Buffer (α τ : Type) where
  base : Nat → α
  bufsize : Nat
  bufsize_pos : 0 < bufsize
  bufsize_le : bufsize ≤ intMax
  readers : List BufferReader
  /-- The block that writes to this buffer. -/
  link : BlockId
  writeIndex : Nat
  absWriteOffset : Nat
  done : Bool
  itemTags : List (Tag τ)
  lastMinItemsRead : Nat

/-- `gr_buffer::index_add` on `unsigned int`s (`gr_buffer.h:141-150`). -/
def indexAdd (bufsize a b : Nat) : Nat :=
  let s := (a + b) % 2 ^ 32
  if s ≥ bufsize then s - bufsize else s

/-- `gr_buffer::index_sub` (`gr_buffer.h:152-163`): the unsigned difference is
read as an `int`, and a negative one is moved up by `d_bufsize`. -/
def indexSub (bufsize a b : Nat) : Nat :=
  let s : Int := ((a : Int) - b).bmod (2 ^ 32)
  let s : Int := if s < 0 then (s + bufsize).bmod (2 ^ 32) else s
  (s % 2 ^ 32).toNat

/-- `minimum_buffer_items` (`gr_buffer.cc:78-82`). -/
def minimumBufferItems (typeSize pageSize : Nat) : Nat :=
  pageSize / Nat.gcd typeSize pageSize

/-- The number of items `gr_buffer::allocate_buffer` settles on: `nitems` rounded
up to whole pages (`gr_buffer.cc:112-124`). -/
def roundUpItems (granularity nitems sizeofItem : Nat) : Nat :=
  let minNitems := minimumBufferItems sizeofItem granularity
  if nitems % minNitems ≠ 0 then (nitems / minNitems + 1) * minNitems else nitems

/-- `gr_buffer_reader::update_read_pointer` (`gr_buffer.cc:300-306`). -/
def BufferReader.updateReadPointer (r : BufferReader)
    (bufsize nitems : Nat) : BufferReader :=
  { r with
    readIndex := indexAdd bufsize r.readIndex nitems
    absReadOffset := (r.absReadOffset + nitems) % 2 ^ 64 }

namespace Buffer

/-- A buffer of `n` zeroed cells with no reader attached. -/
def ofSize [Zero α] (n : Nat) (pos : 0 < n) (le : n ≤ intMax) (link : BlockId) : Buffer α τ where
  base := fun _ => 0
  bufsize := n
  bufsize_pos := pos
  bufsize_le := le
  readers := []
  link := link
  writeIndex := 0
  absWriteOffset := 0
  done := false
  itemTags := []
  lastMinItemsRead := 0

/-- `gr_make_buffer` (`gr_buffer.cc:85-102`). The memory factories take the
number of bytes as an `int` and refuse one that is not positive. -/
def make [Zero α] (granularity nitems sizeofItem : Nat) (link : BlockId) :
    Except CppException (Buffer α τ) :=
  let n := roundUpItems granularity nitems sizeofItem
  if h : 0 < n ∧ n ≤ intMax ∧ n * sizeofItem ≤ intMax then .ok (ofSize n h.1 h.2.1 link)
  else .error .badAlloc

theorem make_ok [Zero α] {granularity nitems sizeofItem : Nat} {link : BlockId} {b : Buffer α τ}
    (made : make granularity nitems sizeofItem link = .ok b) :
    ∃ pos le, nitems ≤ roundUpItems granularity nitems sizeofItem ∧
      b = ofSize (roundUpItems granularity nitems sizeofItem) pos le link := by
  unfold make at made
  dsimp only at made
  split at made
  · rename_i fits
    refine ⟨fits.1, fits.2.1, ?_, (Except.ok.inj made).symm⟩
    have pos := fits.1
    unfold roundUpItems at pos ⊢
    dsimp only at pos ⊢
    split_ifs at pos ⊢ with whole
    · have page := Nat.pos_of_mul_pos_left pos
      exact (Nat.lt_mul_div_succ nitems page).le.trans (by rw [Nat.mul_comm])
    · exact le_rfl
  · cases made

/-- `gr_buffer_reader::items_available` (`gr_buffer.cc:288-292`). -/
def itemsAvailable (b : Buffer α τ) (r : BufferReader) : Nat :=
  indexSub b.bufsize b.writeIndex r.readIndex

/-- `gr_buffer_reader::max_possible_items_available`. -/
def maxPossibleItemsAvailable (b : Buffer α τ) : Nat := b.bufsize - 1

/-- The `n` items found from `gr_buffer_reader::read_pointer` on. -/
def itemsAt (b : Buffer α τ) (r : BufferReader) (n : Nat) : List α :=
  (List.range n).map fun k => b.base ((r.readIndex + k) % b.bufsize)

/-- Store items from `gr_buffer::write_pointer` on. -/
def writeItems (b : Buffer α τ) (items : List α) : Buffer α τ :=
  { b with base := Ring.store b.bufsize b.base b.writeIndex items }

/-- `gr_buffer::update_write_pointer` (`gr_buffer.cc:185-191`). -/
def updateWritePointer (b : Buffer α τ) (nitems : Nat) : Buffer α τ :=
  { b with
    writeIndex := indexAdd b.bufsize b.writeIndex nitems
    absWriteOffset := (b.absWriteOffset + nitems) % 2 ^ 64 }

/-- `gr_buffer_reader::update_read_pointer` on the reader `ident` of the buffer. -/
def updateReadPointer (b : Buffer α τ) (ident nitems : Nat) : Buffer α τ :=
  { b with readers := b.readers.map fun r =>
      if r.ident = ident then r.updateReadPointer b.bufsize nitems else r }

/-- The reader at an address. -/
def reader? (b : Buffer α τ) (ident : Nat) : Option BufferReader :=
  b.readers.find? fun r => r.ident == ident

/-- The blocks at the two sides of the buffer: its writer, and each reader with its block. -/
def wires (b : Buffer α τ) : BlockId × List (Nat × BlockId) :=
  (b.link, b.readers.map fun r => (r.ident, r.link))

/-- `gr_buffer::set_done`; `gr_buffer_reader::set_done` calls it (`gr_buffer.h:243`). -/
def setDone (b : Buffer α τ) (done : Bool) : Buffer α τ := { b with done := done }

/-- `gr_buffer_add_reader` (`gr_buffer.cc:200-213`). The new reader starts
`nzeroPreload` items behind the writer; `index_sub` asserts its result. -/
def addReader (b : Buffer α τ) (ident : Nat) (nzeroPreload : Int) (link : BlockId) :
    Except CppException (Buffer α τ) :=
  if nzeroPreload < 0 then
    .error (.invalidArgument "gr_buffer_add_reader: nzero_preload must be >= 0")
  else
    let readIndex := indexSub b.bufsize b.writeIndex nzeroPreload.toNat
    if readIndex < b.bufsize then
      .ok { b with readers := b.readers ++ [⟨ident, readIndex, 0, link⟩] }
    else .error .assertFailed

/-- `gr_buffer::drop_reader` (`gr_buffer.cc:215-227`). -/
def dropReader (b : Buffer α τ) (ident : Nat) : Except CppException (Buffer α τ) :=
  if b.readers.any fun r => r.ident == ident then
    .ok { b with readers := b.readers.eraseP fun r => r.ident == ident }
  else .error (.invalidArgument "gr_buffer::drop_reader")

/-- `gr_buffer::add_item_tag` (`gr_buffer.cc:229-234`). -/
def addItemTag (b : Buffer α τ) (tag : Tag τ) : Buffer α τ :=
  { b with itemTags := b.itemTags ++ [tag] }

/-- The loop of `gr_buffer::prune_tags` (`gr_buffer.cc:236-270`): erase the first
tag before `maxTime` and start again from the beginning. -/
def pruneLoop (maxTime : Nat) : Nat → List (Tag τ) → List (Tag τ)
  | 0, tags => tags
  | fuel + 1, tags =>
      if tags.any fun t => t.offset < maxTime then
        pruneLoop maxTime fuel (tags.eraseP fun t => t.offset < maxTime)
      else tags

/-- `gr_buffer::prune_tags`. Each round erases one tag. -/
def pruneTags (b : Buffer α τ) (maxTime : Nat) : Buffer α τ :=
  { b with itemTags := pruneLoop maxTime b.itemTags.length b.itemTags }

/-- `gr_buffer_reader::get_tags_in_range` (`gr_buffer.cc:308-329`). -/
def getTagsInRange (b : Buffer α τ) (absStart absEnd : Nat) : List (Tag τ) :=
  b.itemTags.filter fun t => absStart ≤ t.offset ∧ t.offset < absEnd

/-- `most_data` of `space_available`: the items available to the reader that has
most, over at least one reader. -/
def mostData (b : Buffer α τ) (first : BufferReader) (rest : List BufferReader) : Nat :=
  rest.foldl (fun most r => max most (b.itemsAvailable r)) (b.itemsAvailable first)

/-- `min_items_read` of `space_available`, the least number of items a reader has read. -/
def minItemsRead (first : BufferReader) (rest : List BufferReader) : Nat :=
  rest.foldl (fun least r => min least r.absReadOffset) first.absReadOffset

/-- `gr_buffer::space_available` (`gr_buffer.cc:150-177`): the free space, and the
buffer with the tags pruned that the slowest reader had passed at the last change. -/
def spaceAvailable (b : Buffer α τ) : Nat × Buffer α τ :=
  match b.readers with
  | [] => (b.bufsize - 1, b)
  | first :: rest =>
      let least := minItemsRead first rest
      let pruned :=
        if least ≠ b.lastMinItemsRead then
          { b.pruneTags b.lastMinItemsRead with lastMinItemsRead := least }
        else b
      (b.bufsize - b.mostData first rest - 1, pruned)

/-! ## Frame lemmas -/

section

variable (b : Buffer α τ)
include b

@[simp] theorem writeItems_bufsize (items : List α) : (b.writeItems items).bufsize = b.bufsize := rfl
@[simp] theorem writeItems_writeIndex (items : List α) :
    (b.writeItems items).writeIndex = b.writeIndex := rfl
@[simp] theorem writeItems_readers (items : List α) : (b.writeItems items).readers = b.readers := rfl
@[simp] theorem updateWritePointer_bufsize (n : Nat) :
    (b.updateWritePointer n).bufsize = b.bufsize := rfl
@[simp] theorem updateWritePointer_base (n : Nat) : (b.updateWritePointer n).base = b.base := rfl
@[simp] theorem updateWritePointer_writeIndex (n : Nat) :
    (b.updateWritePointer n).writeIndex = indexAdd b.bufsize b.writeIndex n := rfl
@[simp] theorem updateWritePointer_readers (n : Nat) :
    (b.updateWritePointer n).readers = b.readers := rfl
@[simp] theorem updateReadPointer_bufsize (ident n : Nat) :
    (b.updateReadPointer ident n).bufsize = b.bufsize := rfl
@[simp] theorem updateReadPointer_base (ident n : Nat) :
    (b.updateReadPointer ident n).base = b.base := rfl
@[simp] theorem updateReadPointer_writeIndex (ident n : Nat) :
    (b.updateReadPointer ident n).writeIndex = b.writeIndex := rfl

theorem spaceAvailable_snd : ∃ tags mark,
    b.spaceAvailable.2 = { b with itemTags := tags, lastMinItemsRead := mark } := by
  unfold spaceAvailable
  split
  · exact ⟨b.itemTags, b.lastMinItemsRead, rfl⟩
  · dsimp only
    split
    · exact ⟨_, _, rfl⟩
    · exact ⟨b.itemTags, b.lastMinItemsRead, rfl⟩

@[simp] theorem spaceAvailable_bufsize : b.spaceAvailable.2.bufsize = b.bufsize := by
  obtain ⟨_, _, same⟩ := b.spaceAvailable_snd
  rw [same]
@[simp] theorem spaceAvailable_base : b.spaceAvailable.2.base = b.base := by
  obtain ⟨_, _, same⟩ := b.spaceAvailable_snd
  rw [same]
@[simp] theorem spaceAvailable_readers : b.spaceAvailable.2.readers = b.readers := by
  obtain ⟨_, _, same⟩ := b.spaceAvailable_snd
  rw [same]
@[simp] theorem spaceAvailable_writeIndex : b.spaceAvailable.2.writeIndex = b.writeIndex := by
  obtain ⟨_, _, same⟩ := b.spaceAvailable_snd
  rw [same]

end

end Buffer

end GnuRadio
