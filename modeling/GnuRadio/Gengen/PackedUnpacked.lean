import Mathlib.Algebra.GroupWithZero.Nat
import Mathlib.Data.List.GetD
import Mathlib.Data.Nat.Bits
import GnuRadio.Misc.Except
import GnuRadio.Misc.Gather
import GnuRadio.Misc.Trace
import GnuRadio.Runtime.Types

/-!
# Packed and unpacked bits

`gr_packed_to_unpacked_XX` cuts the bits of its input items into chunks, each in an item of its
own, and `gr_unpacked_to_packed_XX` puts the chunks together again. Chunks may lie across
items, so both keep the index of the next bit.
-/

namespace GnuRadio

/-- The items: `bb`, `ss` and `ii` (`generate_common.py:59-60`). -/
inductive ItemType where
  | char
  | short
  | int
  deriving DecidableEq, Repr

/-- `gr_endianness_t`. -/
inductive Endianness where
  | msbFirst
  | lsbFirst
  deriving DecidableEq, Repr

/-- `BITS_PER_TYPE`. -/
def ItemType.bits : ItemType → ℕ
  | char => 8
  | short => 16
  | int => 32

/-- `LOG2_L_TYPE` (`gr_log2_const.h`). -/
def ItemType.log2 : ItemType → ℕ
  | char => 3
  | short => 4
  | int => 5

abbrev ItemType.Item (type : ItemType) : Type := BitVec type.bits

/-- What both blocks are made of (`gr_packed_to_unpacked_XX.h.t`, `gr_unpacked_to_packed_XX.h.t`). -/
structure ChunkBlock where
  d_bits_per_chunk : ℕ
  d_endianness : Endianness
  d_index : ℕ
  deriving DecidableEq, Repr

variable {type : ItemType}

/-- The item at an address of the memory that a call is given. -/
def itemAt (input : List type.Item) (i : ℕ) : Except CppException type.Item :=
  match input[i]? with
  | some x => .ok x
  | none => .error .undefinedBehaviour

namespace PackedToUnpacked

/-- `get_bit_le` (`gr_packed_to_unpacked_XX.cc.t:70-75`). -/
def getBitLe (input : List type.Item) (bit_addr : ℕ) : Except CppException ℕ := do
  let x ← itemAt input (bit_addr >>> type.log2)
  return x.toNat >>> (bit_addr &&& (type.bits - 1)) &&& 1

/-- `get_bit_be` (`gr_packed_to_unpacked_XX.cc.t:77-82`). -/
def getBitBe (input : List type.Item) (bit_addr : ℕ) : Except CppException ℕ := do
  let x ← itemAt input (bit_addr >>> type.log2)
  return x.toNat >>> ((type.bits - 1) - (bit_addr &&& (type.bits - 1))) &&& 1

def getBit : Endianness → List type.Item → ℕ → Except CppException ℕ
  | .msbFirst => getBitBe
  | .lsbFirst => getBitLe

/-- `forecast` (`gr_packed_to_unpacked_XX.cc.t:57-67`): the sum is one of `unsigned int`. -/
def forecast (type : ItemType) (block : ChunkBlock) (noutput_items : ℕ) : ℕ :=
  ((block.d_index + noutput_items * block.d_bits_per_chunk) % 2 ^ 32 + type.bits - 1) / type.bits

/-- The loop over the bits of a chunk. -/
def chunk (block : ChunkBlock) (input : List type.Item) (index_tmp : ℕ) :
    Except CppException (type.Item × ℕ) :=
  (List.range block.d_bits_per_chunk).foldlM (fun (x, index_tmp) _ => do
    let bit ← getBit block.d_endianness input index_tmp
    return ((x <<< 1) ||| BitVec.ofNat type.bits bit, (index_tmp + 1) % 2 ^ 32)) (0, index_tmp)

/-- The loop over the outputs of a stream. -/
def stream (block : ChunkBlock) (noutput_items : ℕ) (input : List type.Item) :
    Except CppException (List type.Item × ℕ) :=
  (List.range noutput_items).foldlM (fun (out, index_tmp) _ => do
    let (x, index_tmp) ← chunk block input index_tmp
    return (out ++ [x], index_tmp)) ([], block.d_index)

/-- `general_work` (`gr_packed_to_unpacked_XX.cc.t:84-137`): the outputs, the number of items
consumed and the block after. -/
def generalWork (block : ChunkBlock) (noutput_items : ℕ) (input_items : List (List type.Item)) :
    Except CppException (List (List type.Item) × ℕ × ChunkBlock) := do
  let (output_items, index_tmp) ← input_items.foldlM (fun (output_items, _) input => do
    let (out, index_tmp) ← stream block noutput_items input
    if (block.d_index + (type.bits - 1)) >>> type.log2 ≤ input.length then
      return (output_items ++ [out], index_tmp)
    else
      .error .assertFailed) ([], block.d_index)
  return (output_items, index_tmp >>> type.log2,
    { block with d_index := index_tmp &&& (type.bits - 1) })

end PackedToUnpacked

namespace UnpackedToPacked

/-- `get_bit_be1` (`gr_unpacked_to_packed_XX.cc.t:67-75`). -/
def getBitBe1 (input : List type.Item) (bit_addr bits_per_chunk : ℕ) : Except CppException ℕ := do
  let byte_addr := bit_addr / bits_per_chunk
  let x ← itemAt input byte_addr
  let residue := bit_addr - byte_addr * bits_per_chunk
  return x.toNat >>> (bits_per_chunk - 1 - residue) &&& 1

/-- `forecast` (`gr_unpacked_to_packed_XX.cc.t:56-64`), in `double` all the way. -/
def forecast (type : ItemType) (block : ChunkBlock) (noutput_items : ℕ) : ℕ :=
  (block.d_index + noutput_items * type.bits + block.d_bits_per_chunk - 1) / block.d_bits_per_chunk

/-- The loop over the bits of an item; with the least significant bit first they are shifted
down in an `unsigned long`. -/
def item (block : ChunkBlock) (input : List type.Item) (index_tmp : ℕ) :
    Except CppException (type.Item × ℕ) :=
  match block.d_endianness with
  | .msbFirst =>
      (List.range type.bits).foldlM (fun (tmp, index_tmp) _ => do
        let bit ← getBitBe1 input index_tmp block.d_bits_per_chunk
        return ((tmp <<< 1) ||| BitVec.ofNat type.bits bit, (index_tmp + 1) % 2 ^ 32)) (0, index_tmp)
  | .lsbFirst => do
      let (tmp, index_tmp) ← (List.range type.bits).foldlM (fun (tmp, index_tmp) _ => do
        let bit ← getBitBe1 input index_tmp block.d_bits_per_chunk
        return ((tmp >>> 1) ||| BitVec.ofNat 64 (bit <<< (type.bits - 1)),
          (index_tmp + 1) % 2 ^ 32)) ((0 : BitVec 64), index_tmp)
      return (tmp.setWidth type.bits, index_tmp)

/-- The loop over the outputs of a stream. -/
def stream (block : ChunkBlock) (noutput_items : ℕ) (input : List type.Item) :
    Except CppException (List type.Item × ℕ) :=
  (List.range noutput_items).foldlM (fun (out, index_tmp) _ => do
    let (tmp, index_tmp) ← item block input index_tmp
    return (out ++ [tmp], index_tmp)) ([], block.d_index)

/-- `general_work` (`gr_unpacked_to_packed_XX.cc.t:77-129`). -/
def generalWork (block : ChunkBlock) (noutput_items : ℕ) (input_items : List (List type.Item)) :
    Except CppException (List (List type.Item) × ℕ × ChunkBlock) := do
  let (output_items, index_tmp) ← input_items.foldlM (fun (output_items, _) input => do
    let (out, index_tmp) ← stream block noutput_items input
    return (output_items ++ [out], index_tmp)) ([], block.d_index)
  return (output_items, index_tmp / block.d_bits_per_chunk,
    { block with d_index := index_tmp % block.d_bits_per_chunk })

end UnpackedToPacked

/-! ## Runs -/

/-- A block with its streams: how many items of each it has consumed and what it put out. -/
structure Streams (type : ItemType) where
  block : ChunkBlock
  consumed : ℕ
  outputs : List (List type.Item)
  deriving DecidableEq

/-- A call of `general_work`. It is made when every stream has as many items left as the
forecast asks for, which is an `int`, and it is shown these items and no others. -/
def call (forecast : ChunkBlock → ℕ → ℕ)
    (work : ChunkBlock → ℕ → List (List type.Item) →
      Except CppException (List (List type.Item) × ℕ × ChunkBlock))
    (streams : List (List type.Item)) :
    Except CppException (Streams type) → ℕ → Option (Except CppException (Streams type))
  | .error _, _ => none
  | .ok s, noutput_items =>
      let required := forecast s.block noutput_items
      if required ≤ intMax ∧ ∀ stream ∈ streams, s.consumed + required ≤ stream.length then
        some do
          let (outs, consumed, block) ← work s.block noutput_items
            (streams.map fun stream => (stream.drop s.consumed).take required)
          return {
            block := block
            consumed := s.consumed + consumed
            outputs := List.zipWith (· ++ ·) s.outputs outs }
      else
        none

def packedCall (streams : List (List type.Item)) :
    Except CppException (Streams type) → ℕ → Option (Except CppException (Streams type)) :=
  call (PackedToUnpacked.forecast type) PackedToUnpacked.generalWork streams

def unpackedCall (streams : List (List type.Item)) :
    Except CppException (Streams type) → ℕ → Option (Except CppException (Streams type)) :=
  call (UnpackedToPacked.forecast type) UnpackedToPacked.generalWork streams

/-- A new block, whose constructor asserts that a chunk has bits and fits an item
(`gr_packed_to_unpacked_XX.cc.t:46-54`, `gr_unpacked_to_packed_XX.cc.t:44-52`). -/
def startWith (bits_per_chunk : ℕ) (endianness : Endianness) (streams : List (List type.Item)) :
    Except CppException (Streams type) :=
  if bits_per_chunk ≤ type.bits ∧ 0 < bits_per_chunk then
    .ok {
      block := { d_bits_per_chunk := bits_per_chunk, d_endianness := endianness, d_index := 0 }
      consumed := 0
      outputs := streams.map fun _ => [] }
  else
    .error .assertFailed

/-- A call that moves the index by `step` bits an output keeps it in an `unsigned int`. -/
def IndexFits (step : ChunkBlock → ℕ) : Except CppException (Streams type) → ℕ → Prop
  | .error _, _ => True
  | .ok s, noutput_items => s.block.d_index + noutput_items * step s.block < 2 ^ 32

instance (step : ChunkBlock → ℕ) (s : Except CppException (Streams type)) (n : ℕ) :
    Decidable (IndexFits step s n) :=
  match s with
  | .error _ => isTrue trivial
  | .ok s => inferInstanceAs (Decidable (s.block.d_index + n * step s.block < 2 ^ 32))

end GnuRadio

/-!
## Packing undoes unpacking

Both blocks read the same sequence of bits: the first bit of an item is its most or its least
significant one, and the first bit of a chunk is the most significant of its
`bits_per_chunk` bits.
-/

namespace GnuRadio

variable {type : ItemType}

/-! ## Loops -/

theorem indexLoop {X : Type} {f : X → ℕ → X} {get : ℕ → Except CppException ℕ} {bits : ℕ → Bool}
    {x : ℕ → X} (next : ∀ j, x (j + 1) = f (x j) (bits j).toNat) {a k : ℕ}
    (reads : ∀ j < k, get (a + j) = .ok (bits j).toNat) (fits : a + k < 2 ^ 32) :
    (List.range k).foldlM (fun (x, index_tmp) _ => do
      let bit ← get index_tmp
      return (f x bit, (index_tmp + 1) % 2 ^ 32)) (x 0, a) = .ok (x k, a + k) := by
  induction k with
  | zero => rfl
  | succ k ih =>
    have before := ih (fun j less => reads j (by omega)) (by omega)
    rw [List.range_succ, foldlM_append_ok]
    refine ⟨_, before, foldlM_singleton_ok.mpr ?_⟩
    dsimp only
    rw [reads k (Nat.lt_succ_self k), ok_bind, next, Nat.mod_eq_of_lt (by omega)]
    rfl

variable {a consumed required : ℕ} {block : ChunkBlock} {input stream : List type.Item}

theorem outputsLoop {X : Type} {make : ℕ → Except CppException (X × ℕ)} {y : ℕ → X} {w n : ℕ}
    (each : ∀ i < n, make (a + i * w) = .ok (y i, a + i * w + w)) :
    (List.range n).foldlM (fun (out, index_tmp) _ => do
      let (x, index_tmp) ← make index_tmp
      return (out ++ [x], index_tmp)) ([], a) = .ok ((List.range n).map y, a + n * w) := by
  induction n with
  | zero => simp; rfl
  | succ n ih =>
    rw [List.range_succ, foldlM_append_ok]
    refine ⟨_, ih fun i less => each i (by omega), foldlM_singleton_ok.mpr ?_⟩
    dsimp only
    rw [each n (Nat.lt_succ_self n), ok_bind, List.map_append, Nat.succ_mul, Nat.add_assoc]
    rfl

theorem streamsLoop {I X : Type} {body : List X × ℕ → I → Except CppException (List X × ℕ)}
    {items : List I} (some : items ≠ []) (g : I → X) (last : ℕ)
    (each : ∀ outs index, ∀ input ∈ items, body (outs, index) input = .ok (outs ++ [g input], last))
    (start : ℕ) : items.foldlM body ([], start) = .ok (items.map g, last) := by
  have rest : ∀ (l : List I), (∀ input ∈ l, input ∈ items) → ∀ outs,
      l.foldlM body (outs, last) = .ok (outs ++ l.map g, last) := by
    intro l
    induction l with
    | nil =>
      intro _ outs
      simp
      rfl
    | cons input l ih =>
      intro inside outs
      refine foldlM_cons_ok.mpr ⟨_, each outs last input (inside input List.mem_cons_self), ?_⟩
      rw [ih (fun i member => inside i (List.mem_cons_of_mem _ member)), List.append_assoc]
      rfl
  cases items with
  | nil => exact absurd rfl some
  | cons input items =>
    refine foldlM_cons_ok.mpr ⟨_, each [] start input List.mem_cons_self, ?_⟩
    rw [rest items fun i member => List.mem_cons_of_mem _ member]
    rfl

/-! ## Bits of items and of chunks -/

theorem ItemType.bits_pos (type : ItemType) : 0 < type.bits := by
  cases type <;> decide

theorem ItemType.bits_le (type : ItemType) : type.bits ≤ 32 := by
  cases type <;> decide

theorem shiftRight_log2 (type : ItemType) (addr : ℕ) : addr >>> type.log2 = addr / type.bits := by
  rw [Nat.shiftRight_eq_div_pow]
  cases type <;> rfl

theorem and_bits (type : ItemType) (addr : ℕ) : addr &&& (type.bits - 1) = addr % type.bits := by
  cases type
  · exact Nat.and_two_pow_sub_one_eq_mod addr 3
  · exact Nat.and_two_pow_sub_one_eq_mod addr 4
  · exact Nat.and_two_pow_sub_one_eq_mod addr 5

theorem shiftRight_and_one {w : ℕ} (x : BitVec w) (k : ℕ) :
    x.toNat >>> k &&& 1 = (x.getLsbD k).toNat := by
  rw [Nat.and_one_is_mod, Nat.shiftRight_eq_div_pow, BitVec.getLsbD, Nat.toNat_testBit]

/-- Bit `j` of an item, in the order of the bits. -/
def itemBit (endianness : Endianness) (x : type.Item) (j : ℕ) : Bool :=
  match endianness with
  | .msbFirst => x.getLsbD (type.bits - 1 - j)
  | .lsbFirst => x.getLsbD j

/-- Bit `t` of a stream of items. -/
def streamBit (endianness : Endianness) (stream : List type.Item) (t : ℕ) : Bool :=
  itemBit endianness (stream.getD (t / type.bits) 0) (t % type.bits)

/-- Bit `t` of a stream of chunks. -/
def chunkBit (b : ℕ) (stream : List type.Item) (t : ℕ) : Bool :=
  (stream.getD (t / b) 0).getLsbD (b - 1 - t % b)

theorem item_ext (endianness : Endianness) {x y : type.Item}
    (same : ∀ j < type.bits, itemBit endianness x j = itemBit endianness y j) : x = y := by
  refine BitVec.eq_of_getLsbD_eq fun i inside => ?_
  cases endianness with
  | lsbFirst => exact same i inside
  | msbFirst =>
    have mirrored := same (type.bits - 1 - i) (by omega)
    have back : type.bits - 1 - (type.bits - 1 - i) = i := by omega
    simpa only [itemBit, back] using mirrored

theorem itemAt_window {i : ℕ} (inside : i < required)
    (enough : consumed + required ≤ stream.length) :
    itemAt ((stream.drop consumed).take required) i = .ok (stream.getD (consumed + i) 0) := by
  rw [itemAt, List.getElem?_take_of_lt inside, List.getElem?_drop,
    List.getElem?_eq_getElem (by omega), List.getD_eq_getElem _ _ (by omega)]

theorem getBit_window {addr : ℕ} (endianness : Endianness)
    (inside : addr < required * type.bits) (enough : consumed + required ≤ stream.length) :
    PackedToUnpacked.getBit endianness ((stream.drop consumed).take required) addr =
      .ok (streamBit endianness stream (consumed * type.bits + addr)).toNat := by
  have positive := type.bits_pos
  have place : (consumed * type.bits + addr) / type.bits = consumed + addr / type.bits := by
    rw [Nat.mul_comm, Nat.mul_add_div positive]
  have bit : (consumed * type.bits + addr) % type.bits = addr % type.bits := by
    rw [Nat.mul_comm, Nat.mul_add_mod]
  have here : addr / type.bits < required := (Nat.div_lt_iff_lt_mul positive).mpr inside
  rw [streamBit, place, bit]
  cases endianness with
  | msbFirst =>
    rw [PackedToUnpacked.getBit, PackedToUnpacked.getBitBe, shiftRight_log2,
      itemAt_window here enough, ok_bind, and_bits, shiftRight_and_one]
    rfl
  | lsbFirst =>
    rw [PackedToUnpacked.getBit, PackedToUnpacked.getBitLe, shiftRight_log2,
      itemAt_window here enough, ok_bind, and_bits, shiftRight_and_one]
    rfl

theorem getBitBe1_window {b addr : ℕ} (positive : 0 < b)
    (inside : addr < required * b) (enough : consumed + required ≤ stream.length) :
    UnpackedToPacked.getBitBe1 ((stream.drop consumed).take required) addr b =
      .ok (chunkBit b stream (consumed * b + addr)).toNat := by
  have place : (consumed * b + addr) / b = consumed + addr / b := by
    rw [Nat.mul_comm, Nat.mul_add_div positive]
  have bit : (consumed * b + addr) % b = addr % b := by
    rw [Nat.mul_comm, Nat.mul_add_mod]
  have here : addr / b < required := (Nat.div_lt_iff_lt_mul positive).mpr inside
  have residue : addr - addr / b * b = addr % b := by
    rw [Nat.mul_comm]
    exact Nat.mod_eq_sub_mul_div.symm
  rw [chunkBit, place, bit, UnpackedToPacked.getBitBe1]
  dsimp only
  rw [itemAt_window here enough, ok_bind, residue, shiftRight_and_one]
  rfl

/-! ## Unpacking -/

/-- The first `count` chunks of a stream. -/
def chunks (endianness : Endianness) (b : ℕ) (stream : List type.Item) (count : ℕ) :
    List type.Item :=
  (List.range count).map fun i =>
    gather type.bits (fun j => streamBit endianness stream (i * b + j)) b

theorem chunks_add (endianness : Endianness) (b : ℕ) (stream : List type.Item) (count n : ℕ) :
    chunks endianness b stream (count + n) = chunks endianness b stream count ++
      (List.range n).map fun i =>
        gather type.bits (fun j => streamBit endianness stream (count * b + i * b + j)) b := by
  simp only [chunks, List.range_add, List.map_append, List.map_map, ← Nat.add_mul]
  rfl

theorem chunk_eq {bits : ℕ → Bool}
    (reads : ∀ j < block.d_bits_per_chunk,
      PackedToUnpacked.getBit block.d_endianness input (a + j) = .ok (bits j).toNat)
    (fits : a + block.d_bits_per_chunk < 2 ^ 32) : PackedToUnpacked.chunk block input a =
      .ok (gather type.bits bits block.d_bits_per_chunk, a + block.d_bits_per_chunk) :=
  indexLoop (f := fun (x : type.Item) bit => (x <<< 1) ||| BitVec.ofNat type.bits bit)
    (x := gather type.bits bits) (fun _ => rfl) reads fits

theorem stream_packed {n : ℕ}
    (fits : block.d_index + n * block.d_bits_per_chunk < 2 ^ 32)
    (room : block.d_index + n * block.d_bits_per_chunk ≤ required * type.bits)
    (enough : consumed + required ≤ stream.length) :
    PackedToUnpacked.stream block n ((stream.drop consumed).take required) =
      .ok ((List.range n).map fun i => gather type.bits (fun j =>
        streamBit block.d_endianness stream (consumed * type.bits + block.d_index +
          i * block.d_bits_per_chunk + j)) block.d_bits_per_chunk,
        block.d_index + n * block.d_bits_per_chunk) := by
  refine outputsLoop fun i less => ?_
  have last : i * block.d_bits_per_chunk + block.d_bits_per_chunk ≤ n * block.d_bits_per_chunk := by
    rw [← Nat.succ_mul]
    exact Nat.mul_le_mul_right _ less
  refine chunk_eq (fun j within => ?_) (by omega)
  rw [getBit_window _ (by omega) enough]
  congr 3
  omega

/-- The block and its streams after `count` chunks. -/
structure Unpacked (b : ℕ) (endianness : Endianness) (streams : List (List type.Item)) (count : ℕ)
    (s : Streams type) : Prop where
  bits_per_chunk : s.block.d_bits_per_chunk = b
  order : s.block.d_endianness = endianness
  index : s.consumed * type.bits + s.block.d_index = count * b
  below : s.block.d_index < type.bits
  outputs : s.outputs = streams.map fun stream => chunks endianness b stream count
  inside : ∀ stream ∈ streams, count * b ≤ stream.length * type.bits

variable {b count n : ℕ} {endianness : Endianness} {streams : List (List type.Item)}
  {s : Streams type}

theorem Unpacked.forecast (unpacked : Unpacked b endianness streams count s)
    (fits : s.block.d_index + n * s.block.d_bits_per_chunk < 2 ^ 32) (required : ℕ) :
    PackedToUnpacked.forecast type s.block n ≤ required ↔
      s.block.d_index + n * b ≤ required * type.bits := by
  have positive := type.bits_pos
  rw [PackedToUnpacked.forecast, Nat.mod_eq_of_lt fits, unpacked.bits_per_chunk,
    ← Nat.lt_succ_iff, Nat.div_lt_iff_lt_mul positive, Nat.succ_mul]
  omega

theorem generalWork_packed {block : ChunkBlock} {window out : List type.Item → List type.Item}
    {last : ℕ} (nonempty : streams ≠ []) (each : ∀ stream ∈ streams,
      PackedToUnpacked.stream block n (window stream) = .ok (out stream, last))
    (shown : ∀ stream ∈ streams,
      (block.d_index + (type.bits - 1)) / type.bits ≤ (window stream).length) :
    PackedToUnpacked.generalWork block n (streams.map window) =
      .ok (streams.map out, last / type.bits, { block with d_index := last % type.bits }) := by
  rw [PackedToUnpacked.generalWork, List.foldlM_map,
    streamsLoop nonempty out last (fun outs index stream member => ?_), ok_bind]
  · dsimp only
    rw [shiftRight_log2, and_bits]
    rfl
  · dsimp only
    rw [each stream member, ok_bind]
    dsimp only
    rw [shiftRight_log2, if_pos (shown stream member)]
    rfl

theorem Unpacked.call (unpacked : Unpacked b endianness streams count s) (nonempty : streams ≠ [])
    (fits : s.block.d_index + n * s.block.d_bits_per_chunk < 2 ^ 32)
    {result : Except CppException (Streams type)}
    (called : packedCall streams (.ok s) n = some result) :
    ∃ s', result = .ok s' ∧ Unpacked b endianness streams (count + n) s' := by
  have positive := type.bits_pos
  have index := unpacked.index
  have below := unpacked.below
  have bits := unpacked.bits_per_chunk
  have order := unpacked.order
  obtain ⟨required, required_eq⟩ : ∃ required,
      PackedToUnpacked.forecast type s.block n = required := ⟨_, rfl⟩
  have room := (unpacked.forecast fits required).mp (Nat.le_of_eq required_eq)
  simp only [packedCall, GnuRadio.call, required_eq] at called
  split at called
  case isFalse => cases called
  case isTrue permitted =>
    have enough := permitted.2
    have worked := @generalWork_packed type n streams s.block
      (fun stream => (stream.drop s.consumed).take required)
      (fun stream => (List.range n).map fun i => gather type.bits (fun j =>
        streamBit endianness stream (count * b + i * b + j)) b) (s.block.d_index + n * b) nonempty
      (fun stream member => by
        rw [stream_packed fits (bits ▸ room) (enough stream member), bits, order, index])
      (fun stream member => by
        have more := enough stream member
        have length : ((stream.drop s.consumed).take required).length = required := by
          rw [List.length_take, List.length_drop]
          omega
        rw [length, ← Nat.lt_succ_iff, Nat.div_lt_iff_lt_mul positive, Nat.succ_mul]
        omega)
    rw [worked, ok_bind] at called
    refine ⟨_, (Option.some.inj called).symm, bits, order, ?_, Nat.mod_lt _ positive, ?_,
      fun stream member => ?_⟩
    · show (s.consumed + (s.block.d_index + n * b) / type.bits) * type.bits +
        (s.block.d_index + n * b) % type.bits = (count + n) * b
      have whole := Nat.div_add_mod (s.block.d_index + n * b) type.bits
      rw [Nat.add_mul, Nat.add_mul, Nat.mul_comm (_ / _)]
      omega
    · rw [unpacked.outputs]
      simp only [List.zipWith_map, List.zipWith_self, chunks_add]
    · have more := Nat.mul_le_mul_right type.bits (enough stream member)
      rw [Nat.add_mul] at more ⊢
      omega

theorem Unpacked.run (nonempty : streams ≠ []) {calls : List ℕ}
    (unpacked : Unpacked b endianness streams count s)
    (fits : Throughout (IndexFits ChunkBlock.d_bits_per_chunk) (packedCall streams) (.ok s) calls)
    {result : Except CppException (Streams type)}
    (ran : GnuRadio.run (packedCall streams) (.ok s) calls = some result) :
    ∃ s', result = .ok s' ∧ Unpacked b endianness streams (count + calls.sum) s' := by
  induction calls generalizing s count with
  | nil =>
    cases ran
    exact ⟨s, rfl, unpacked⟩
  | cons n calls ih =>
    obtain ⟨next, called, rest⟩ := run_cons.mp ran
    obtain ⟨s', rfl, unpacked'⟩ := unpacked.call nonempty fits.1 called
    rw [List.sum_cons, ← Nat.add_assoc]
    exact ih unpacked' (fits.2 _ called) rest

/-! ## Packing -/

/-- The item that has these bits. -/
def itemOf (type : ItemType) (endianness : Endianness) (bits : ℕ → Bool) : type.Item :=
  match endianness with
  | .msbFirst => gather type.bits bits type.bits
  | .lsbFirst => (gatherDown 64 (type.bits - 1) bits type.bits).setWidth type.bits

theorem itemBit_itemOf (endianness : Endianness) (bits : ℕ → Bool) {j : ℕ} (inside : j < type.bits) :
    itemBit endianness (itemOf type endianness bits) j = bits j := by
  have narrow := type.bits_le
  cases endianness with
  | msbFirst =>
    have back : type.bits - 1 - (type.bits - 1 - j) = j := by omega
    rw [itemBit, itemOf, getLsbD_gather bits (Nat.le_refl _), back, decide_eq_true (by omega)]
    rfl
  | lsbFirst =>
    have back : j + type.bits - (type.bits - 1 + 1) = j := by omega
    rw [itemBit, itemOf, BitVec.getLsbD_setWidth, getLsbD_gatherDown bits (by omega) (by omega),
      back, decide_eq_true inside, decide_eq_true (by omega)]
    rfl

/-- The first `count` items that a stream of chunks gives. -/
def items (endianness : Endianness) (b : ℕ) (stream : List type.Item) (count : ℕ) :
    List type.Item :=
  (List.range count).map fun i => itemOf type endianness fun j => chunkBit b stream (i * type.bits + j)

theorem items_add (endianness : Endianness) (b : ℕ) (stream : List type.Item) (count n : ℕ) :
    items endianness b stream (count + n) = items endianness b stream count ++
      (List.range n).map fun i => itemOf type endianness fun j =>
        chunkBit b stream (count * type.bits + i * type.bits + j) := by
  simp only [items, List.range_add, List.map_append, List.map_map, ← Nat.add_mul]
  rfl

theorem item_eq {bits : ℕ → Bool}
    (reads : ∀ j < type.bits,
      UnpackedToPacked.getBitBe1 input (a + j) block.d_bits_per_chunk = .ok (bits j).toNat)
    (fits : a + type.bits < 2 ^ 32) : UnpackedToPacked.item block input a =
      .ok (itemOf type block.d_endianness bits, a + type.bits) := by
  cases order : block.d_endianness with
  | msbFirst =>
    rw [UnpackedToPacked.item, order]
    exact @indexLoop _ (fun (tmp : type.Item) bit => (tmp <<< 1) ||| BitVec.ofNat type.bits bit)
      (UnpackedToPacked.getBitBe1 input · block.d_bits_per_chunk) bits (gather type.bits bits)
      (fun _ => rfl) a type.bits reads fits
  | lsbFirst =>
    have looped := @indexLoop _ (fun (tmp : BitVec 64) bit =>
      (tmp >>> 1) ||| BitVec.ofNat 64 (bit <<< (type.bits - 1)))
      (UnpackedToPacked.getBitBe1 input · block.d_bits_per_chunk) bits
      (gatherDown 64 (type.bits - 1) bits) (fun _ => rfl) a type.bits reads fits
    rw [UnpackedToPacked.item, order]
    show (_ >>= _) = _
    rw [bind_ok]
    exact ⟨_, looped, rfl⟩

theorem stream_unpacked (positive : 0 < block.d_bits_per_chunk)
    (fits : block.d_index + n * type.bits < 2 ^ 32)
    (room : block.d_index + n * type.bits ≤ required * block.d_bits_per_chunk)
    (enough : consumed + required ≤ stream.length) :
    UnpackedToPacked.stream block n ((stream.drop consumed).take required) =
      .ok ((List.range n).map fun i => itemOf type block.d_endianness fun j =>
        chunkBit block.d_bits_per_chunk stream (consumed * block.d_bits_per_chunk + block.d_index +
          i * type.bits + j), block.d_index + n * type.bits) := by
  refine outputsLoop fun i less => ?_
  have last : i * type.bits + type.bits ≤ n * type.bits := by
    rw [← Nat.succ_mul]
    exact Nat.mul_le_mul_right _ less
  refine item_eq (fun j within => ?_) (by omega)
  rw [getBitBe1_window positive (by omega) enough]
  congr 3
  omega

/-- The block and its streams after `count` items. -/
structure Packed (b : ℕ) (endianness : Endianness) (streams : List (List type.Item)) (count : ℕ)
    (s : Streams type) : Prop where
  bits_per_chunk : s.block.d_bits_per_chunk = b
  order : s.block.d_endianness = endianness
  index : s.consumed * b + s.block.d_index = count * type.bits
  below : s.block.d_index < b
  outputs : s.outputs = streams.map fun stream => items endianness b stream count
  inside : ∀ stream ∈ streams, count * type.bits ≤ stream.length * b

theorem Packed.forecast (packed : Packed b endianness streams count s) (required : ℕ) :
    UnpackedToPacked.forecast type s.block n ≤ required ↔
      s.block.d_index + n * type.bits ≤ required * b := by
  have positive : 0 < b := Nat.zero_lt_of_lt packed.below
  rw [UnpackedToPacked.forecast, packed.bits_per_chunk, ← Nat.lt_succ_iff,
    Nat.div_lt_iff_lt_mul positive, Nat.succ_mul]
  omega

theorem generalWork_unpacked {block : ChunkBlock} {window out : List type.Item → List type.Item}
    {last : ℕ} (nonempty : streams ≠ []) (each : ∀ stream ∈ streams,
      UnpackedToPacked.stream block n (window stream) = .ok (out stream, last)) :
    UnpackedToPacked.generalWork block n (streams.map window) =
      .ok (streams.map out, last / block.d_bits_per_chunk,
        { block with d_index := last % block.d_bits_per_chunk }) := by
  rw [UnpackedToPacked.generalWork, List.foldlM_map,
    streamsLoop nonempty out last (fun outs index stream member => ?_), ok_bind]
  · rfl
  · dsimp only
    rw [each stream member, ok_bind]
    rfl

theorem Packed.call (packed : Packed b endianness streams count s) (nonempty : streams ≠ [])
    (fits : s.block.d_index + n * type.bits < 2 ^ 32)
    {result : Except CppException (Streams type)}
    (called : unpackedCall streams (.ok s) n = some result) :
    ∃ s', result = .ok s' ∧ Packed b endianness streams (count + n) s' := by
  have positive : 0 < b := Nat.zero_lt_of_lt packed.below
  have index := packed.index
  have bits := packed.bits_per_chunk
  have order := packed.order
  obtain ⟨required, required_eq⟩ : ∃ required,
      UnpackedToPacked.forecast type s.block n = required := ⟨_, rfl⟩
  have room := (packed.forecast required).mp (Nat.le_of_eq required_eq)
  simp only [unpackedCall, GnuRadio.call, required_eq] at called
  split at called
  case isFalse => cases called
  case isTrue permitted =>
    have enough := permitted.2
    have worked := @generalWork_unpacked type n streams s.block
      (fun stream => (stream.drop s.consumed).take required)
      (fun stream => (List.range n).map fun i => itemOf type endianness fun j =>
        chunkBit b stream (count * type.bits + i * type.bits + j))
      (s.block.d_index + n * type.bits) nonempty
      (fun stream member => by
        rw [stream_unpacked (bits.symm ▸ positive) fits (bits.symm ▸ room) (enough stream member),
          bits, order, index])
    rw [worked, ok_bind, bits] at called
    refine ⟨_, (Option.some.inj called).symm, rfl, order, ?_, Nat.mod_lt _ positive, ?_,
      fun stream member => ?_⟩
    · show (s.consumed + (s.block.d_index + n * type.bits) / b) * b +
        (s.block.d_index + n * type.bits) % b = (count + n) * type.bits
      have whole := Nat.div_add_mod (s.block.d_index + n * type.bits) b
      rw [Nat.add_mul, Nat.add_mul, Nat.mul_comm (_ / _)]
      omega
    · rw [packed.outputs]
      simp only [List.zipWith_map, List.zipWith_self, items_add]
    · have more := Nat.mul_le_mul_right b (enough stream member)
      rw [Nat.add_mul] at more ⊢
      omega

theorem Packed.run (nonempty : streams ≠ []) {calls : List ℕ}
    (packed : Packed b endianness streams count s)
    (fits : Throughout (IndexFits fun _ => type.bits) (unpackedCall streams) (.ok s) calls)
    {result : Except CppException (Streams type)}
    (ran : GnuRadio.run (unpackedCall streams) (.ok s) calls = some result) :
    ∃ s', result = .ok s' ∧ Packed b endianness streams (count + calls.sum) s' := by
  induction calls generalizing s count with
  | nil =>
    cases ran
    exact ⟨s, rfl, packed⟩
  | cons n calls ih =>
    obtain ⟨next, called, rest⟩ := run_cons.mp ran
    obtain ⟨s', rfl, packed'⟩ := packed.call nonempty fits.1 called
    rw [List.sum_cons, ← Nat.add_assoc]
    exact ih packed' (fits.2 _ called) rest

/-! ## The round trip -/

theorem chunkBit_chunks (positive : 0 < b) (narrow : b ≤ type.bits)
    {t : ℕ} (inside : t < count * b) :
    chunkBit b (chunks endianness b stream count) t = streamBit endianness stream t := by
  have chunk : t / b < count := (Nat.div_lt_iff_lt_mul positive).mpr inside
  have bit : t % b < b := Nat.mod_lt t positive
  have back : b - 1 - (b - 1 - t % b) = t % b := by omega
  have here : t / b * b + t % b = t := Nat.div_add_mod' t b
  rw [chunkBit, chunks, List.getD_eq_getElem _ _ (by simpa using chunk)]
  simp only [List.getElem_map, List.getElem_range]
  rw [getLsbD_gather _ narrow, back, here, decide_eq_true (by omega), Bool.true_and]

theorem items_chunks (positive : 0 < b) (narrow : b ≤ type.bits)
    (cut : n * type.bits ≤ count * b) (inside : n ≤ stream.length) :
    items endianness b (chunks endianness b stream count) n = stream.take n := by
  have wide := type.bits_pos
  refine List.ext_getElem (by simp [items, Nat.min_eq_left inside]) fun i within other => ?_
  have less : i < n := by simpa [items] using within
  have more : i * type.bits + type.bits ≤ n * type.bits := by
    rw [← Nat.succ_mul]
    exact Nat.mul_le_mul_right _ less
  simp only [items, List.getElem_map, List.getElem_range, List.getElem_take]
  refine item_ext endianness fun j small => ?_
  have place : (i * type.bits + j) / type.bits = i := by
    rw [Nat.mul_comm, Nat.mul_add_div wide, Nat.div_eq_of_lt small, Nat.add_zero]
  have bit : (i * type.bits + j) % type.bits = j := by
    rw [Nat.mul_comm, Nat.mul_add_mod, Nat.mod_eq_of_lt small]
  rw [itemBit_itemOf _ _ small, chunkBit_chunks positive narrow (by omega), streamBit, place, bit,
    List.getD_eq_getElem _ _ (by omega)]

theorem Unpacked.next (unpacked : Unpacked b endianness streams count s) (narrow : b ≤ type.bits) :
    (packedCall streams (.ok s) 1).isSome ↔
      ∀ stream ∈ streams, (count + 1) * b ≤ stream.length * type.bits := by
  have positive := type.bits_pos
  have wide := type.bits_le
  have index := unpacked.index
  have below := unpacked.below
  have bits := unpacked.bits_per_chunk
  have forecast := unpacked.forecast (n := 1) (by omega)
  have int : PackedToUnpacked.forecast type s.block 1 ≤ intMax :=
    Nat.le_trans ((forecast 2).mpr (by omega)) (by decide)
  have each : ∀ stream ∈ streams, (s.consumed + PackedToUnpacked.forecast type s.block 1 ≤
      stream.length ↔ (count + 1) * b ≤ stream.length * type.bits) := by
    intro stream member
    have inside := unpacked.inside stream member
    have so_far : s.consumed ≤ stream.length :=
      Nat.le_of_mul_le_mul_right (by omega : s.consumed * type.bits ≤ stream.length * type.bits)
        positive
    have split : stream.length * type.bits =
        s.consumed * type.bits + (stream.length - s.consumed) * type.bits := by
      rw [← Nat.add_mul, Nat.add_sub_cancel' so_far]
    have enough := forecast (stream.length - s.consumed)
    rw [Nat.succ_mul]
    omega
  simp only [packedCall, GnuRadio.call]
  constructor
  · intro made stream member
    split at made
    case isTrue permitted => exact (each stream member).mp (permitted.2 stream member)
    case isFalse => cases made
  · intro room
    rw [if_pos ⟨int, fun stream member => (each stream member).mpr (room stream member)⟩]
    rfl

theorem Packed.next (packed : Packed b endianness streams count s) :
    (unpackedCall streams (.ok s) 1).isSome ↔
      ∀ stream ∈ streams, (count + 1) * type.bits ≤ stream.length * b := by
  have positive : 0 < b := Nat.zero_lt_of_lt packed.below
  have wide := type.bits_le
  have index := packed.index
  have below := packed.below
  have forecast := packed.forecast (n := 1)
  have int : UnpackedToPacked.forecast type s.block 1 ≤ intMax := by
    have many : type.bits ≤ type.bits * b := Nat.le_mul_of_pos_right _ positive
    have small := (forecast (type.bits + 1)).mpr (by rw [Nat.add_mul _ 1 b]; omega)
    have large : 33 ≤ intMax := by decide
    omega
  have each : ∀ stream ∈ streams, (s.consumed + UnpackedToPacked.forecast type s.block 1 ≤
      stream.length ↔ (count + 1) * type.bits ≤ stream.length * b) := by
    intro stream member
    have inside := packed.inside stream member
    have so_far : s.consumed ≤ stream.length :=
      Nat.le_of_mul_le_mul_right (by omega : s.consumed * b ≤ stream.length * b) positive
    have split : stream.length * b = s.consumed * b + (stream.length - s.consumed) * b := by
      rw [← Nat.add_mul, Nat.add_sub_cancel' so_far]
    have enough := forecast (stream.length - s.consumed)
    rw [Nat.succ_mul]
    omega
  simp only [unpackedCall, GnuRadio.call]
  constructor
  · intro made stream member
    split at made
    case isTrue permitted => exact (each stream member).mp (permitted.2 stream member)
    case isFalse => cases made
  · intro room
    rw [if_pos ⟨int, fun stream member => (each stream member).mpr (room stream member)⟩]
    rfl

/-- While the index of the bits fits, no call fails or reads more than its forecast, and what is
packed again is the original stream, up to the last group of bits that is not complete. -/
theorem packed_unpacked_round_trip (nonempty : streams ≠ []) (positive : 0 < b)
    (narrow : b ≤ type.bits) {cuts : List ℕ} {p : Except CppException (Streams type)}
    (cuts_fit : Throughout (IndexFits ChunkBlock.d_bits_per_chunk) (packedCall streams)
      (startWith b endianness streams) cuts)
    (unpacked : run (packedCall streams) (startWith b endianness streams) cuts = some p) :
    ∃ middle, p = .ok middle ∧
      middle.consumed * type.bits + middle.block.d_index = cuts.sum * b ∧
      middle.block.d_index < type.bits ∧
      ((packedCall streams p 1).isSome ↔
        ∀ stream ∈ streams, (cuts.sum + 1) * b ≤ stream.length * type.bits) ∧
      ∀ packs q, Throughout (IndexFits fun _ => type.bits) (unpackedCall middle.outputs)
          (startWith b endianness middle.outputs) packs →
        run (unpackedCall middle.outputs) (startWith b endianness middle.outputs) packs = some q →
        ∃ last, q = .ok last ∧
          last.consumed * b + last.block.d_index = packs.sum * type.bits ∧ last.block.d_index < b ∧
          last.outputs = streams.map (List.take packs.sum) ∧
          (∀ stream ∈ streams, packs.sum ≤ stream.length) ∧
          ((unpackedCall middle.outputs q 1).isSome ↔
            (packs.sum + 1) * type.bits ≤ cuts.sum * b) := by
  have wide := type.bits_pos
  have start : ∀ l : List (List type.Item), startWith b endianness l = .ok {
      block := { d_bits_per_chunk := b, d_endianness := endianness, d_index := 0 }
      consumed := 0
      outputs := l.map fun _ => [] } := fun l => if_pos ⟨narrow, positive⟩
  rw [start] at cuts_fit unpacked
  obtain ⟨middle, rfl, after⟩ := @Unpacked.run _ _ 0 _ _ _ nonempty _
    ⟨rfl, rfl, by simp, wide, rfl, by simp⟩ cuts_fit _ unpacked
  rw [Nat.zero_add] at after
  refine ⟨middle, rfl, after.index, after.below, after.next narrow, fun packs q fits ran => ?_⟩
  have chunks_nonempty : middle.outputs ≠ [] := by
    rw [after.outputs]
    exact fun empty => nonempty (List.map_eq_nil_iff.mp empty)
  rw [start] at fits ran
  obtain ⟨last, rfl, after'⟩ := @Packed.run _ _ 0 _ _ _ chunks_nonempty _
    ⟨rfl, rfl, by simp, positive, rfl, by simp⟩ fits _ ran
  rw [Nat.zero_add] at after'
  have length : ∀ stream ∈ middle.outputs, stream.length = cuts.sum := by
    intro stream member
    rw [after.outputs] at member
    obtain ⟨original, -, rfl⟩ := List.mem_map.mp member
    simp [chunks]
  obtain ⟨stream, member⟩ := List.exists_mem_of_ne_nil _ chunks_nonempty
  have cut : packs.sum * type.bits ≤ cuts.sum * b := length stream member ▸ after'.inside stream member
  have inside : ∀ stream ∈ streams, packs.sum ≤ stream.length := fun stream member =>
    Nat.le_of_mul_le_mul_right (Nat.le_trans cut (after.inside stream member)) wide
  refine ⟨last, rfl, after'.index, after'.below, ?_, inside, after'.next.trans
    ⟨fun room => length stream member ▸ room stream member, fun room other there =>
      (length other there).symm ▸ room⟩⟩
  rw [after'.outputs, after.outputs, List.map_map]
  exact List.map_congr_left fun stream member => items_chunks positive narrow cut (inside stream member)

/-- Two bytes, cut into chunks of three bits in two calls. -/
def threeBits : Streams .char where
  block := { d_bits_per_chunk := 3, d_endianness := .msbFirst, d_index := 7 }
  consumed := 1
  outputs := [[5, 5, 0, 5, 5]]

/-- The first of them, packed again. -/
def oneByte : Streams .char where
  block := { d_bits_per_chunk := 3, d_endianness := .msbFirst, d_index := 2 }
  consumed := 2
  outputs := [[0xB4]]

theorem packed_unpacked_round_trip_bytes :
    run (packedCall [[0xB4, 0x5A]]) (startWith 3 .msbFirst [[0xB4, 0x5A]]) [2, 3] =
        some (.ok threeBits) ∧
      run (unpackedCall threeBits.outputs) (startWith 3 .msbFirst threeBits.outputs) [1] =
        some (.ok oneByte) ∧
      oneByte.outputs = [[0xB4, 0x5A]].map (List.take 1) := by
  have cut : run (packedCall [[0xB4, 0x5A]]) (startWith 3 .msbFirst [[0xB4, 0x5A]]) [2, 3] =
      some (.ok threeBits) := by decide +kernel
  have packs : run (unpackedCall threeBits.outputs) (startWith 3 .msbFirst threeBits.outputs) [1] =
      some (.ok oneByte) := by decide +kernel
  obtain ⟨middle, same, -, -, -, again⟩ := packed_unpacked_round_trip (List.cons_ne_nil _ _)
    (by decide) (by decide) (by decide +kernel) cut
  cases same
  obtain ⟨last, same', -, -, outputs, -⟩ := again [1] _ (by decide +kernel) packs
  cases same'
  exact ⟨cut, packs, outputs⟩

/-- A new block whose chunks are whole `int`s. -/
def wholeInts : ChunkBlock := { d_bits_per_chunk := 32, d_endianness := .msbFirst, d_index := 0 }

/-- For `2 ^ 27` chunks that are whole `int`s the index comes round to zero: the forecast asks
for no items, and the call reads one. -/
theorem packed_forecast_wraps : PackedToUnpacked.forecast .int wholeInts (2 ^ 27) = 0 ∧
    run (packedCall [([] : List ItemType.int.Item)]) (startWith 32 .msbFirst [[]]) [2 ^ 27] =
      some (.error .undefinedBehaviour) := by
  have forecast : PackedToUnpacked.forecast .int wholeInts (2 ^ 27) = 0 := by decide
  have many : (2 : ℕ) ^ 27 = 134217727 + 1 := rfl
  have work : PackedToUnpacked.generalWork wholeInts (2 ^ 27) [([] : List ItemType.int.Item)] =
      .error .undefinedBehaviour := by
    rw [PackedToUnpacked.generalWork, List.foldlM_cons]
    dsimp only
    rw [PackedToUnpacked.stream, many, List.range_succ_eq_map, List.foldlM_cons]
    rfl
  have start : startWith 32 .msbFirst [([] : List ItemType.int.Item)] =
      .ok { block := wholeInts, consumed := 0, outputs := [[]] } := rfl
  refine ⟨forecast, run_cons.mpr ⟨_, ?_, rfl⟩⟩
  rw [start, packedCall, GnuRadio.call]
  dsimp only
  rw [forecast, if_pos ⟨by decide, by simp⟩]
  simp only [List.map_cons, List.map_nil, List.drop_nil, List.take_nil]
  rw [work]
  rfl

end GnuRadio
