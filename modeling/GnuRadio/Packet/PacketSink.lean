import GnuRadio.Misc.SwitchLoop
import GnuRadio.Packet.CountBits
import GnuRadio.Packet.FramerSink1

/-!
# The packet sink

`gr_packet_sink` slices a stream of floats to bits, looks for a sync vector in
them, reads a header behind it and then as many bytes as the header says. Calls of
`work` take up where the last one stopped.
-/

namespace GnuRadio

/-- `DEFAULT_THRESHOLD` (`gr_packet_sink.cc:40`). -/
def defaultThreshold : Int := 12

/-- `gr_packet_sink` (`gr_packet_sink.h:51-69`). The queue is what was inserted in it. Its states
are those of the framer. -/
structure PacketSink where
  targetQueue : List GrMessage
  syncVector : UInt64
  threshold : UInt32
  state : FramerState
  shiftReg : UInt64
  header : UInt32
  headerbitlenCnt : Nat
  packet : Vector UInt8 maxPktLen
  packetByte : UInt8
  packetByteIndex : Nat
  packetlen : Nat
  packetlenCnt : Nat

namespace PacketSink

/-- A sink of which all memory is zero. -/
def idle : PacketSink where
  targetQueue := []
  syncVector := 0
  threshold := 0
  state := .syncSearch
  shiftReg := 0
  header := 0
  headerbitlenCnt := 0
  packet := Vector.replicate maxPktLen 0
  packetByte := 0
  packetByteIndex := 0
  packetlen := 0
  packetlenCnt := 0

/-- `slice` (`gr_packet_sink.h:80`) on the bits of a float: above zero are the positive numbers and
infinity, and nothing that is not a number. -/
def slice (x : UInt32) : Bool := 0 < x && x ≤ 0x7f800000

/-- A bit shifted into a word from the right, as all three loops do. -/
def shiftIn64 (word : UInt64) (bit : Bool) : UInt64 :=
  if bit then (word <<< 1) ||| 1 else word <<< 1

/-- The same on 32 bits. -/
def shiftIn32 (word : UInt32) (bit : Bool) : UInt32 :=
  if bit then (word <<< 1) ||| 1 else word <<< 1

/-- The same on 8 bits. -/
def shiftIn8 (word : UInt8) (bit : Bool) : UInt8 :=
  if bit then (word <<< 1) ||| 1 else word <<< 1

/-- `enter_search` (`gr_packet_sink.cc:42-50`). -/
def enterSearch (d : PacketSink) : PacketSink := { d with state := .syncSearch, shiftReg := 0 }

/-- `enter_have_sync` (`gr_packet_sink.cc:52-61`). -/
def enterHaveSync (d : PacketSink) : PacketSink :=
  { d with
    state := .haveSync
    header := 0
    headerbitlenCnt := 0 }

/-- `enter_have_header` (`gr_packet_sink.cc:63-74`). -/
def enterHaveHeader (d : PacketSink) (payloadLen : Nat) : PacketSink :=
  { d with
    state := .haveHeader
    packetlen := payloadLen
    packetlenCnt := 0
    packetByte := 0
    packetByteIndex := 0 }

/-- The constructor (`gr_packet_sink.cc:84-98`) on memory that held anything. It reads eight bytes
of the sync vector and sets nothing of the packet. -/
def construct (memory : PacketSink) (syncVector : List UInt8) (threshold : Int) :
    Except CppException PacketSink :=
  if syncVector.length < 8 then .error .undefinedBehaviour
  else
    let word : UInt64 := (syncVector.take 8).foldl
      (fun (word : UInt64) byte => (word <<< 8) ||| byte.toUInt64) 0
    .ok { memory with
      targetQueue := []
      threshold := UInt32.ofInt (if threshold = -1 then defaultThreshold else threshold)
      syncVector := word }.enterSearch

/-- `header_ok` (`gr_packet_sink.h:82-86`). -/
def headerOk (d : PacketSink) : Bool := (d.header >>> 16) ^^^ (d.header &&& 0xffff) == 0

/-- `header_payload_len` (`gr_packet_sink.h:88-93`). -/
def headerPayloadLen (d : PacketSink) : Nat := ((d.header >>> 16) &&& 0xffff).toNat

/-- The body of the loop of `STATE_SYNC_SEARCH` (`gr_packet_sink.cc:123-134`). -/
def searchItem (d : PacketSink) (item : UInt32) : PacketSink × Bool :=
  let d := { d with shiftReg := shiftIn64 d.shiftReg (slice item) }
  if grCountBits64 (d.shiftReg ^^^ d.syncVector) ≤ d.threshold then (d.enterHaveSync, true)
  else (d, false)

/-- What a full header leads to (`gr_packet_sink.cc:153-162`). -/
def headerDone (d : PacketSink) : PacketSink :=
  if d.headerOk then
    if d.headerPayloadLen ≤ maxPktLen then d.enterHaveHeader d.headerPayloadLen
    else d.enterSearch
  else d.enterSearch

/-- `gr_packet_sink.cc:143-148`, but for the test. -/
def shiftHeader (d : PacketSink) (item : UInt32) : PacketSink :=
  { d with
    header := shiftIn32 d.header (slice item)
    headerbitlenCnt := d.headerbitlenCnt + 1 }

/-- The body of the loop of `STATE_HAVE_SYNC` (`gr_packet_sink.cc:143-165`). -/
def headerItem (d : PacketSink) (item : UInt32) : PacketSink × Bool :=
  let d := d.shiftHeader item
  if d.headerbitlenCnt = headerbitlen then (d.headerDone, true) else (d, false)

/-- `gr_packet_sink.cc:173-178`, but for the test. -/
def shiftPacketByte (d : PacketSink) (item : UInt32) : PacketSink :=
  { d with
    packetByte := shiftIn8 d.packetByte (slice item)
    packetByteIndex := d.packetByteIndex + 1 }

/-- A full byte moves to the packet (`gr_packet_sink.cc:179-180`). -/
def storeByte (d : PacketSink) : Except CppException PacketSink :=
  if inside : d.packetlenCnt < maxPktLen then
    .ok { d with
      packet := d.packet.set d.packetlenCnt d.packetByte
      packetlenCnt := d.packetlenCnt + 1
      packetByteIndex := 0 }
  else .error .undefinedBehaviour

/-- A message of the bytes of the packet, and its sending (`gr_packet_sink.cc:185-189`). -/
def sendMessage (d : PacketSink) : PacketSink :=
  { d with targetQueue := d.targetQueue ++ [⟨0, 0, 0, d.packet.toList.take d.packetlenCnt⟩] }

/-- The body of the loop of `STATE_HAVE_HEADER` (`gr_packet_sink.cc:173-195`). -/
def packetItem (d : PacketSink) (item : UInt32) : Except CppException (PacketSink × Bool) :=
  let full := d.packetByteIndex = 7
  let d := d.shiftPacketByte item
  if full then do
    let d ← d.storeByte
    return if d.packetlenCnt = d.packetlen then (d.sendMessage.enterSearch, true) else (d, false)
  else .ok (d, false)

/-- The cases of the switch. -/
def loopItem (state : FramerState) (d : PacketSink) (item : UInt32) :
    Except CppException (PacketSink × Bool) :=
  match state with
  | .syncSearch => .ok (d.searchItem item)
  | .haveSync => .ok (d.headerItem item)
  | .haveHeader => d.packetItem item

/-- `work` (`gr_packet_sink.cc:104-206`): the items consumed, which are all. -/
def work (d : PacketSink) (input : List UInt32) : Except CppException (Int × PacketSink) := do
  let d ← switchLoop state loopItem d input
  return (input.length, d)

/-- What one item does. -/
def readItem : PacketSink → UInt32 → Except CppException PacketSink := switchItem state loopItem

theorem storeByte_state {d e : PacketSink} (stored : d.storeByte = .ok e) : e.state = d.state := by
  unfold storeByte at stored
  split at stored
  · cases stored
    rfl
  · cases stored

theorem loopItem_stays (d : PacketSink) (item : UInt32) (e : PacketSink)
    (looped : loopItem d.state d item = .ok (e, false)) : e.state = d.state := by
  unfold loopItem at looped
  split at looped
  · have same := congrArg Prod.fst (Except.ok.inj looped)
    have stay := congrArg Prod.snd (Except.ok.inj looped)
    unfold searchItem at same stay
    dsimp only at same stay
    split at stay
    · cases stay
    · rw [if_neg ‹_›] at same
      rw [← same]
  · have same := congrArg Prod.fst (Except.ok.inj looped)
    have stay := congrArg Prod.snd (Except.ok.inj looped)
    unfold headerItem at same stay
    dsimp only at same stay
    split at stay
    · cases stay
    · rw [if_neg ‹_›] at same
      rw [← same]
      rfl
  · unfold packetItem at looped
    dsimp only at looped
    split at looped
    · obtain ⟨next, stored, same⟩ := bind_ok.mp looped
      split at same
      · cases same
      · cases same
        exact (storeByte_state stored).trans rfl
    · cases looped
      rfl

/-- The state after `work` has had the chunks. -/
def calls (d : PacketSink) (chunks : List (List UInt32)) : Except CppException PacketSink :=
  chunks.foldlM (fun d chunk => do
    let (_, d) ← d.work chunk
    return d) d

theorem calls_eq (d : PacketSink) (chunks : List (List UInt32)) :
    calls d chunks = chunks.flatten.foldlM readItem d := by
  have each : ∀ (d : PacketSink) (chunk : List UInt32), (do
      let (_, d) ← d.work chunk
      return d) = chunk.foldlM readItem d := by
    intro d chunk
    rw [work, switchLoop_eq loopItem_stays, ← readItem]
    cases chunk.foldlM readItem d <;> rfl
  rw [calls, ← List.flatMap_id, foldlM_flatMap]
  exact foldlM_congr (fun d chunk _ => each d chunk) d

end PacketSink

/-!
## What the packet sink reports

`packets` reads the packets of a whole stream of bits. The sink sends them in
whatever pieces it is given the stream, until a header says that there is no byte:
the test for the end of a packet is made behind a byte only, and this packet has no
end.
-/

namespace PacketSink

/-! ## The packets of a stream -/

/-- In how many places the last 64 bits read, behind zeros, differ from the sync vector. -/
def differing (syncVector : UInt64) (bits : List Bool) : Nat :=
  (List.range 64).countP fun i => (ofBits bits).testBit i != syncVector.toNat.testBit i

/-- The bits differ from the sync vector in no more places than the threshold. -/
def matching (syncVector : UInt64) (threshold : UInt32) (bits : List Bool) : Bool :=
  differing syncVector bits ≤ threshold.toNat

/-- The place of the first bit with which a sync vector is read. -/
def syncEnd (syncVector : UInt64) (threshold : UInt32) (bits : List Bool) : Option Nat :=
  (List.range bits.length).find? fun i => matching syncVector threshold (bits.take (i + 1))

/-- The packets of a stream: behind the next sync vector a header with two equal halves, which are
a length that has room, and as many bytes as it says. -/
def packets (syncVector : UInt64) (threshold : UInt32) (bits : List Bool) : List (List UInt8) :=
  match syncEnd syncVector threshold bits with
  | none => []
  | some i =>
    let found := bits.drop (i + 1)
    if short : found.length < headerbitlen then []
    else
      let header := ofBits (found.take headerbitlen)
      let rest := found.drop headerbitlen
      let len := header / 2 ^ 16
      if len = header % 2 ^ 16 ∧ len ≤ maxPktLen then
        if rest.length < 8 * len then []
        else bytesOf len (rest.take (8 * len)) ::
          packets syncVector threshold (rest.drop (8 * len))
      else packets syncVector threshold rest
termination_by bits.length
decreasing_by
  all_goals
    rw [List.length_drop] at short
    simp only [List.length_drop]
    unfold headerbitlen at *
    omega

def packetMessage (bytes : List UInt8) : GrMessage := ⟨0, 0, 0, bytes⟩

/-! ## Words -/

theorem shiftIn64_ofNat (x : Nat) (bit : Bool) :
    shiftIn64 (UInt64.ofNat x) bit = UInt64.ofNat (2 * x + bit.toNat) := by
  have word := shiftLeft_or_bit 63 (x % 2 ^ 64) (Bool.toNat_lt bit)
  apply UInt64.toNat_inj.mp
  cases bit with
  | true =>
    simp [shiftIn64, UInt64.toNat_shiftLeft] at word ⊢
    omega
  | false =>
    simp [shiftIn64, UInt64.toNat_shiftLeft] at word ⊢
    omega

theorem shiftIn32_ofNat (x : Nat) (bit : Bool) :
    shiftIn32 (UInt32.ofNat x) bit = UInt32.ofNat (2 * x + bit.toNat) := by
  have word := shiftLeft_or_bit 31 (x % 2 ^ 32) (Bool.toNat_lt bit)
  apply UInt32.toNat_inj.mp
  cases bit with
  | true =>
    simp [shiftIn32, UInt32.toNat_shiftLeft] at word ⊢
    omega
  | false =>
    simp [shiftIn32, UInt32.toNat_shiftLeft] at word ⊢
    omega

theorem shiftIn8_ofNat (x : Nat) (bit : Bool) :
    shiftIn8 (UInt8.ofNat x) bit = UInt8.ofNat (2 * x + bit.toNat) := by
  have word := shiftLeft_or_bit 7 (x % 2 ^ 8) (Bool.toNat_lt bit)
  apply UInt8.toNat_inj.mp
  cases bit with
  | true =>
    simp [shiftIn8, UInt8.toNat_shiftLeft] at word ⊢
    omega
  | false =>
    simp [shiftIn8, UInt8.toNat_shiftLeft] at word ⊢
    omega

theorem grCountBits64_differing (syncVector : UInt64) (bits : List Bool) :
    (grCountBits64 (UInt64.ofNat (ofBits bits) ^^^ syncVector)).toNat =
      differing syncVector bits := by
  rw [toNat_grCountBits64, differing]
  apply List.countP_congr
  intro i member
  rw [UInt64.toNat_xor, Nat.testBit_xor, UInt64.toNat_ofNat', Nat.testBit_mod_two_pow,
    decide_eq_true (List.mem_range.mp member), Bool.true_and]

theorem headerPayloadLen_eq (d : PacketSink) : d.headerPayloadLen = d.header.toNat / 2 ^ 16 := by
  have masked := Nat.and_two_pow_sub_one_eq_mod (d.header.toNat >>> 16) 16
  have word := d.header.toNat_lt
  rw [headerPayloadLen, UInt32.toNat_and, UInt32.toNat_shiftRight]
  refine masked.trans ?_
  rw [Nat.shiftRight_eq_div_pow]
  omega

/-! ## In the search -/

variable {d first e : PacketSink} {items : List UInt32} {bits : List Bool} {len : Nat}
  {syncVector : UInt64} {threshold : UInt32} {memory : Prop}

theorem readItem_search (search : d.state = .syncSearch) (item : UInt32) :
    d.readItem item = .ok (d.searchItem item).1 := by
  simp only [readItem, switchItem, loopItem, search]
  rfl

theorem readItem_sync (sync : d.state = .haveSync) (item : UInt32) :
    d.readItem item = .ok (d.headerItem item).1 := by
  simp only [readItem, switchItem, loopItem, sync]
  rfl

theorem readItem_header (header : d.state = .haveHeader) (item : UInt32) :
    d.readItem item = do
      let (d, _) ← d.packetItem item
      return d := by
  simp only [readItem, switchItem, loopItem, header]

/-- The sink has read some bits since it searches. -/
def searched (d : PacketSink) (bits : List Bool) : PacketSink :=
  { d with shiftReg := UInt64.ofNat (ofBits bits) }

theorem searchItem_searched (d : PacketSink) (bits : List Bool) (item : UInt32) :
    (d.searched bits).searchItem item =
      if matching d.syncVector d.threshold (bits ++ [slice item]) then
        ((d.searched (bits ++ [slice item])).enterHaveSync, true)
      else (d.searched (bits ++ [slice item]), false) := by
  have count := grCountBits64_differing d.syncVector (bits ++ [slice item])
  simp only [searchItem, searched, shiftIn64_ofNat, ← ofBits_concat, UInt32.le_iff_toNat_le, count,
    matching, decide_eq_true_eq]

theorem searched_run (search : d.state = .syncSearch) (bits : List Bool)
    (items : List UInt32)
    (none : ∀ i < items.length,
      matching d.syncVector d.threshold (bits ++ (items.take (i + 1)).map slice) = false) :
    items.foldlM readItem (d.searched bits) = .ok (d.searched (bits ++ items.map slice)) := by
  induction items generalizing bits with
  | nil =>
    rw [List.map_nil, List.append_nil]
    rfl
  | cons item items ih =>
    have first := none 0 (by simp)
    rw [List.foldlM_cons, readItem_search (d := d.searched bits) search, searchItem_searched,
      if_neg (by simpa using first)]
    refine (ih (bits ++ [slice item]) ?_).trans ?_
    · intro i inside
      have later := none (i + 1) (by simpa using inside)
      rw [List.append_assoc]
      exact later
    · rw [List.append_assoc]
      rfl

theorem search_none (search : d.state = .syncSearch) (items : List UInt32)
    (none : syncEnd d.syncVector d.threshold (items.map slice) = none) :
    items.foldlM readItem (d.searched []) = .ok (d.searched (items.map slice)) := by
  apply searched_run search []
  intro i inside
  have apart := List.find?_eq_none.mp none i (by simpa using inside)
  simpa [List.map_take] using apart

theorem search_some (search : d.state = .syncSearch) {i : Nat}
    (found : syncEnd d.syncVector d.threshold (items.map slice) = some i) :
    (items.take (i + 1)).foldlM readItem (d.searched []) =
      .ok (d.searched ((items.take (i + 1)).map slice)).enterHaveSync := by
  obtain ⟨here, member, before⟩ := List.find?_range_eq_some.mp found
  have inside : i < items.length := by simpa using member
  have passed := searched_run search [] (items.take i) (by
    intro j earlier
    have earlier : j < i := by simpa using (lt_min_iff.mp (by simpa using earlier)).1
    have apart := before j earlier
    rw [List.nil_append, List.take_take, min_eq_left (by omega), List.map_take]
    simpa using apart)
  have whole : items.take (i + 1) = items.take i ++ [items[i]] := by
    rw [List.take_add_one, List.getElem?_eq_getElem inside]
    rfl
  have bits : (items.take i).map slice ++ [slice items[i]] = (items.take (i + 1)).map slice := by
    rw [whole, List.map_append]
    rfl
  rw [List.nil_append] at passed
  rw [← bits, whole, List.foldlM_append, passed, ok_bind, List.foldlM_cons,
    readItem_search (d := d.searched _) search, searchItem_searched, bits,
    if_pos (by rw [List.map_take]; exact here)]
  rfl

/-! ## In the header -/

/-- The sink has read some bits of a header. -/
def headerRead (d : PacketSink) (bits : List Bool) : PacketSink :=
  { d with
    header := UInt32.ofNat (ofBits bits)
    headerbitlenCnt := bits.length }

theorem shiftHeader_headerRead (d : PacketSink) (bits : List Bool) (item : UInt32) :
    (d.headerRead bits).shiftHeader item = d.headerRead (bits ++ [slice item]) := by
  simp only [shiftHeader, headerRead, shiftIn32_ofNat, ofBits_concat, List.length_append,
    List.length_singleton]

theorem headerRead_run (sync : d.state = .haveSync) (bits : List Bool) (items : List UInt32)
    (room : bits.length + items.length < headerbitlen) :
    items.foldlM readItem (d.headerRead bits) = .ok (d.headerRead (bits ++ items.map slice)) := by
  induction items generalizing bits with
  | nil =>
    rw [List.map_nil, List.append_nil]
    rfl
  | cons item items ih =>
    rw [List.length_cons] at room
    have partly : (d.headerRead (bits ++ [slice item])).headerbitlenCnt ≠ headerbitlen := by
      change (bits ++ [slice item]).length ≠ headerbitlen
      rw [List.length_append, List.length_singleton]
      omega
    rw [List.foldlM_cons, readItem_sync (d := d.headerRead bits) sync, headerItem,
      shiftHeader_headerRead, if_neg partly]
    refine (ih (bits ++ [slice item]) (by simp; omega)).trans ?_
    rw [List.append_assoc]
    rfl

theorem headerRead_done (sync : d.state = .haveSync) (length : items.length = headerbitlen) :
    items.foldlM readItem (d.headerRead []) = .ok (d.headerRead (items.map slice)).headerDone := by
  rcases items.eq_nil_or_concat' with rfl | ⟨front, last, rfl⟩
  · cases length
  have count : (d.headerRead (front.map slice ++ [slice last])).headerbitlenCnt = headerbitlen := by
    change (front.map slice ++ [slice last]).length = headerbitlen
    simpa using length
  rw [List.length_append, List.length_singleton] at length
  have read := headerRead_run sync [] front (by simp; omega)
  rw [List.foldlM_append, read, ok_bind, List.nil_append, List.foldlM_cons,
    readItem_sync (d := d.headerRead _) sync, headerItem, shiftHeader_headerRead, if_pos count,
    List.map_append]
  rfl

theorem toNat_headerRead (d : PacketSink) (length : bits.length = headerbitlen) :
    (d.headerRead bits).header.toNat = ofBits bits := by
  have bound := ofBits_lt bits
  rw [length, headerbitlen] at bound
  exact Nat.mod_eq_of_lt bound

theorem headerDone_bad
    (bad : ¬(d.header.toNat / 2 ^ 16 = d.header.toNat % 2 ^ 16 ∧
      d.header.toNat / 2 ^ 16 ≤ maxPktLen)) :
    d.headerDone = d.enterSearch := by
  rw [headerDone, headerPayloadLen_eq]
  split
  · rename_i agree
    rw [if_neg fun fits => bad ⟨(halves_agree_iff d.header).mp agree, fits⟩]
  · rfl

theorem headerDone_packet (agree : d.header.toNat / 2 ^ 16 = d.header.toNat % 2 ^ 16)
    (fits : d.header.toNat / 2 ^ 16 ≤ maxPktLen) :
    d.headerDone = d.enterHaveHeader (d.header.toNat / 2 ^ 16) := by
  rw [headerDone, headerOk, if_pos ((halves_agree_iff d.header).mpr agree), headerPayloadLen_eq,
    if_pos fits]

/-! ## In the packet -/

/-- Since the state `first`, the sink has read some bits of a packet. -/
structure InPacket (first : PacketSink) (len : Nat) (bits : List Bool) (d : PacketSink) :
    Prop where
  state : d.state = .haveHeader
  queue : d.targetQueue = first.targetQueue
  sync : d.syncVector = first.syncVector
  threshold : d.threshold = first.threshold
  packetlen : d.packetlen = len
  count : d.packetlenCnt = bits.length / 8
  index : d.packetByteIndex = bits.length % 8
  byte : d.packetByte = UInt8.ofNat (ofBits bits)
  stored : d.packet.toList.take (bits.length / 8) = bytesOf (bits.length / 8) bits

theorem inPacket_enter (d : PacketSink) (len : Nat) :
    InPacket d len [] (d.enterHaveHeader len) := by
  constructor <;> rfl

theorem InPacket.shift (reading : InPacket first len bits d) (item : UInt32)
    (partly : bits.length % 8 ≠ 7) :
    InPacket first len (bits ++ [slice item]) (d.shiftPacketByte item) where
  state := reading.state
  queue := reading.queue
  sync := reading.sync
  threshold := reading.threshold
  packetlen := reading.packetlen
  count := by
    have count := reading.count
    simp [shiftPacketByte]
    omega
  index := by
    have index := reading.index
    simp [shiftPacketByte]
    omega
  byte := by rw [shiftPacketByte, reading.byte, shiftIn8_ofNat, ofBits_concat]
  stored := by
    have same : (bits ++ [slice item]).length / 8 = bits.length / 8 := by
      simp
      omega
    rw [same, bytesOf_append _ (by omega)]
    exact reading.stored

theorem InPacket.store (reading : InPacket first len bits d) (item : UInt32)
    (full : bits.length % 8 = 7) (inside : bits.length / 8 < maxPktLen) :
    ∃ e, (d.shiftPacketByte item).storeByte = .ok e ∧
      InPacket first len (bits ++ [slice item]) e := by
  have room : (d.shiftPacketByte item).packetlenCnt < maxPktLen := by
    rw [shiftPacketByte, reading.count]
    exact inside
  have length : (bits ++ [slice item]).length = 8 * (bits.length / 8 + 1) := by
    simp
    omega
  have count : (bits ++ [slice item]).length / 8 = bits.length / 8 + 1 := by omega
  have byte : (d.shiftPacketByte item).packetByte = UInt8.ofNat (ofBits (bits ++ [slice item])) := by
    rw [shiftPacketByte, reading.byte, shiftIn8_ofNat, ofBits_concat]
  refine ⟨_, dif_pos room, reading.state, reading.queue, reading.sync, reading.threshold,
    reading.packetlen, ?_, ?_, byte, ?_⟩
  · rw [count, ← reading.count]
    rfl
  · rw [length, Nat.mul_mod_right]
  · have place : (d.shiftPacketByte item).packetlenCnt = bits.length / 8 := reading.count
    rw [Vector.toList_set, place, count, byte]
    exact take_set_bytesOf full (by rw [Vector.length_toList]; exact inside) reading.stored

theorem InPacket.item (reading : InPacket first len bits d) (fits : len ≤ maxPktLen) (item : UInt32)
    (room : bits.length + 1 < 8 * len) :
    ∃ e, d.readItem item = .ok e ∧ InPacket first len (bits ++ [slice item]) e := by
  rw [readItem_header reading.state, packetItem, reading.index]
  split
  · rename_i full
    obtain ⟨e, stored, next⟩ := reading.store item full (by omega)
    have more : e.packetlenCnt ≠ e.packetlen := by
      rw [next.count, next.packetlen, List.length_append, List.length_singleton]
      omega
    rw [stored, ok_bind, if_neg more]
    exact ⟨e, rfl, next⟩
  · rename_i partly
    exact ⟨_, rfl, reading.shift item partly⟩

theorem InPacket.last (reading : InPacket first len bits d) (fits : len ≤ maxPktLen) (item : UInt32)
    (room : bits.length + 1 = 8 * len) :
    ∃ e : PacketSink, InPacket first len (bits ++ [slice item]) e ∧
      d.readItem item = .ok (enterSearch { e with
        targetQueue := first.targetQueue ++ [packetMessage (bytesOf len (bits ++ [slice item]))] })
      := by
  have full : bits.length % 8 = 7 := by omega
  obtain ⟨e, stored, next⟩ := reading.store item full (by omega)
  have length : (bits ++ [slice item]).length / 8 = len := by
    simp
    omega
  have whole : e.packetlenCnt = e.packetlen := by rw [next.count, next.packetlen, length]
  have message := next.stored
  rw [length] at message
  refine ⟨e, next, ?_⟩
  rw [readItem_header reading.state, packetItem, reading.index, if_pos full, stored, ok_bind,
    if_pos whole]
  simp only [sendMessage, next.count, length, message, next.queue, packetMessage]
  rfl

theorem InPacket.run {first d : PacketSink} {len : Nat} {bits : List Bool}
    (reading : InPacket first len bits d) (fits : len ≤ maxPktLen) (items : List UInt32)
    (room : bits.length + items.length < 8 * len) :
    ∃ e, items.foldlM readItem d = .ok e ∧ InPacket first len (bits ++ items.map slice) e := by
  induction items generalizing bits d with
  | nil => exact ⟨d, rfl, by simpa using reading⟩
  | cons item items ih =>
    rw [List.length_cons] at room
    obtain ⟨u, once, next⟩ := reading.item fits item (by omega)
    obtain ⟨e, ran, last⟩ := ih next (by simp; omega)
    refine ⟨e, foldlM_cons_ok.mpr ⟨u, once, ran⟩, ?_⟩
    rwa [List.append_assoc] at last

theorem InPacket.done (reading : InPacket first len [] d) (fits : len ≤ maxPktLen) (some : len ≠ 0)
    (items : List UInt32) (length : items.length = 8 * len) :
    ∃ e : PacketSink, InPacket first len (items.map slice) e ∧
      items.foldlM readItem d = .ok (enterSearch { e with
        targetQueue := first.targetQueue ++ [packetMessage (bytesOf len (items.map slice))] }) := by
  rcases items.eq_nil_or_concat' with rfl | ⟨front, last, rfl⟩
  · rw [List.length_nil] at length
    omega
  rw [List.length_append, List.length_singleton] at length
  obtain ⟨u, ran, partly⟩ := reading.run fits front (by simp; omega)
  obtain ⟨e, next, final⟩ := partly.last fits last (by simp; omega)
  rw [List.nil_append] at next final
  rw [List.map_append]
  exact ⟨e, next, foldlM_append_ok.mpr ⟨u, ran, foldlM_singleton_ok.mpr final⟩⟩

/-! ## A whole stream -/

/-- The sink is in a packet of no byte. -/
def Stuck (d : PacketSink) : Prop := d.state = .haveHeader ∧ d.packetlen = 0

theorem packets_none (none : syncEnd syncVector threshold bits = none) :
    packets syncVector threshold bits = [] := by
  rw [packets, none]

theorem packets_some {i : Nat} (found : syncEnd syncVector threshold bits = some i) :
    packets syncVector threshold bits =
      if (bits.drop (i + 1)).length < headerbitlen then []
      else
        let header := ofBits ((bits.drop (i + 1)).take headerbitlen)
        let rest := (bits.drop (i + 1)).drop headerbitlen
        let len := header / 2 ^ 16
        if len = header % 2 ^ 16 ∧ len ≤ maxPktLen then
          if rest.length < 8 * len then []
          else bytesOf len (rest.take (8 * len)) ::
            packets syncVector threshold (rest.drop (8 * len))
        else packets syncVector threshold rest := by
  rw [packets, found]
  rfl

theorem readItem_packets (items : List UInt32) {d : PacketSink} (search : d.state = .syncSearch)
    (good : [] ∉ packets d.syncVector d.threshold (items.map slice)) :
    ∃ e, items.foldlM readItem (d.searched []) = .ok e ∧ ¬Stuck e ∧
      e.targetQueue = d.targetQueue ++
        (packets d.syncVector d.threshold (items.map slice)).map packetMessage := by
  cases found : syncEnd d.syncVector d.threshold (items.map slice) with
  | none =>
    refine ⟨_, search_none search items found, ?_, ?_⟩
    · rintro ⟨header, -⟩
      cases search.symm.trans header
    · rw [packets_none found, List.map_nil, List.append_nil]
      rfl
  | some i =>
    have shorter : (items.drop (i + 1)).length < items.length := by
      obtain ⟨-, member, -⟩ := List.find?_range_eq_some.mp found
      have inside : i < items.length := by simpa using member
      rw [List.length_drop]
      omega
    have reached : items.foldlM readItem (d.searched []) =
        (items.drop (i + 1)).foldlM readItem
          ((d.searched ((items.take (i + 1)).map slice)).enterHaveSync.headerRead []) := by
      conv_lhs => rw [← List.take_append_drop (i + 1) items, List.foldlM_append,
        search_some search found]
      rfl
    rw [packets_some found, ← List.map_drop] at good ⊢
    rw [reached]
    generalize sync : (d.searched ((items.take (i + 1)).map slice)).enterHaveSync = s
    have state : s.state = .haveSync := by rw [← sync]; rfl
    have queue : s.targetQueue = d.targetQueue := by rw [← sync]; rfl
    have vector : s.syncVector = d.syncVector := by rw [← sync]; rfl
    have bound : s.threshold = d.threshold := by rw [← sync]; rfl
    generalize items.drop (i + 1) = tail at good shorter ⊢
    rw [List.length_map] at good ⊢
    by_cases short : tail.length < headerbitlen
    · rw [if_pos short]
      refine ⟨_, headerRead_run state [] tail (by simpa using short), ?_, ?_⟩
      · rintro ⟨header, -⟩
        cases state.symm.trans header
      · rw [List.map_nil, List.append_nil, ← queue]
        rfl
    · have taken : (tail.take headerbitlen).length = headerbitlen :=
        List.length_take_of_le (not_lt.mp short)
      have sliced : ((tail.take headerbitlen).map slice).length = headerbitlen := by
        rw [List.length_map, taken]
      have word := toNat_headerRead s sliced
      have header : tail.foldlM readItem (s.headerRead []) =
          (tail.drop headerbitlen).foldlM readItem
            (s.headerRead ((tail.take headerbitlen).map slice)).headerDone := by
        conv_lhs => rw [← List.take_append_drop headerbitlen tail, List.foldlM_append,
          headerRead_done state taken]
        rfl
      have less : (tail.drop headerbitlen).length < items.length := by
        rw [List.length_drop]
        omega
      rw [if_neg short, ← List.map_take, ← List.map_drop, ← word] at good ⊢
      rw [header]
      generalize read : s.headerRead ((tail.take headerbitlen).map slice) = h at good ⊢
      have queue' : h.targetQueue = d.targetQueue := by rw [← read, ← queue]; rfl
      have vector' : h.syncVector = d.syncVector := by rw [← read, ← vector]; rfl
      have bound' : h.threshold = d.threshold := by rw [← read, ← bound]; rfl
      generalize tail.drop headerbitlen = rest at good less ⊢
      dsimp only at good ⊢
      by_cases accepted : h.header.toNat / 2 ^ 16 = h.header.toNat % 2 ^ 16 ∧
          h.header.toNat / 2 ^ 16 ≤ maxPktLen
      · have fits := accepted.2
        have entered := inPacket_enter h (h.header.toNat / 2 ^ 16)
        rw [if_pos accepted] at good ⊢
        rw [headerDone_packet accepted.1 fits]
        generalize h.header.toNat / 2 ^ 16 = len at good fits entered ⊢
        rw [List.length_map] at good ⊢
        by_cases partly : rest.length < 8 * len
        · obtain ⟨e, ran, reading⟩ := entered.run fits rest (by simpa using partly)
          rw [if_pos partly, List.map_nil, List.append_nil]
          refine ⟨e, ran, ?_, reading.queue.trans queue'⟩
          rintro ⟨-, empty⟩
          rw [reading.packetlen] at empty
          omega
        · rw [if_neg partly, ← List.map_take, ← List.map_drop] at good ⊢
          have some : len ≠ 0 := by
            rintro rfl
            exact good List.mem_cons_self
          obtain ⟨e, reading, ran⟩ := entered.done fits some (rest.take (8 * len))
            (List.length_take_of_le (not_lt.mp partly))
          have fewer : (rest.drop (8 * len)).length < items.length := by
            rw [List.length_drop]
            omega
          have later : [] ∉ packets e.syncVector e.threshold ((rest.drop (8 * len)).map slice) := by
            rw [reading.sync, reading.threshold, vector', bound']
            exact fun empty => good (List.mem_cons_of_mem _ empty)
          obtain ⟨e', ran', free, sent⟩ := readItem_packets (rest.drop (8 * len))
            (d := enterSearch { e with targetQueue := h.targetQueue ++
              [packetMessage (bytesOf len ((rest.take (8 * len)).map slice))] }) rfl later
          refine ⟨e', ?_, free, ?_⟩
          · rw [← List.take_append_drop (8 * len) rest, List.foldlM_append, ran]
            exact ran'
          · rw [sent, List.map_cons, ← queue', ← vector', ← bound', ← reading.sync,
              ← reading.threshold]
            exact List.append_assoc _ [_] _
      · rw [if_neg accepted] at good ⊢
        rw [headerDone_bad accepted, ← queue', ← vector', ← bound']
        rw [← vector', ← bound'] at good
        exact readItem_packets rest (d := h.enterSearch) rfl good
termination_by items.length

/-! ## Inside the packet -/

/-- The bytes counted are inside the packet, and the packet is inside `d_packet`. -/
def Within (d : PacketSink) : Prop := d.packetlenCnt ≤ d.packetlen ∧ d.packetlen ≤ maxPktLen

/-- While a packet is read there is a byte to come. Whether the counts say anything in front of the
first packet depends on the memory. -/
structure Counted (memory : Prop) (d : PacketSink) : Prop where
  within : memory ∨ d.state = .haveHeader → Within d
  more : d.state = .haveHeader → d.packetlenCnt < d.packetlen

theorem Counted.outside (counted : Counted memory d) (outside : e.state ≠ .haveHeader)
    (count : e.packetlenCnt = d.packetlenCnt) (len : e.packetlen = d.packetlen) :
    Counted memory e where
  within := by
    rintro (known | header)
    · have before := counted.within (.inl known)
      rwa [Within, count, len]
    · exact absurd header outside
  more header := absurd header outside

theorem counted_headerDone (counted : Counted memory d) :
    Counted memory d.headerDone ∨ Stuck d.headerDone := by
  by_cases accepted : d.header.toNat / 2 ^ 16 = d.header.toNat % 2 ^ 16 ∧
      d.header.toNat / 2 ^ 16 ≤ maxPktLen
  · rw [headerDone_packet accepted.1 accepted.2]
    have fits := accepted.2
    generalize d.header.toNat / 2 ^ 16 = len at fits ⊢
    rcases Nat.eq_zero_or_pos len with rfl | some
    · exact .inr ⟨rfl, rfl⟩
    · exact .inl ⟨fun _ => ⟨Nat.zero_le _, fits⟩, fun _ => some⟩
  · rw [headerDone_bad accepted]
    refine .inl (counted.outside ?_ rfl rfl)
    intro header
    cases header

theorem counted_packetItem {item : UInt32} {left : Bool} (packet : d.state = .haveHeader)
    (counted : Counted memory d) (read : d.packetItem item = .ok (e, left)) : Counted memory e := by
  have more := counted.more packet
  have within := counted.within (.inr packet)
  rw [packetItem] at read
  split at read
  · have room : (d.shiftPacketByte item).packetlenCnt < maxPktLen := more.trans_le within.2
    rw [storeByte, dif_pos room, ok_bind] at read
    have next : d.packetlenCnt + 1 ≤ d.packetlen := more
    split at read
    · cases read
      refine ⟨fun _ => ⟨next, within.2⟩, ?_⟩
      intro header
      cases header
    · rename_i further
      cases read
      exact ⟨fun _ => ⟨next, within.2⟩, fun _ => lt_of_le_of_ne next further⟩
  · cases read
    exact ⟨fun _ => within, fun _ => more⟩

theorem counted_readItem {item : UInt32} (counted : Counted memory d)
    (read : d.readItem item = .ok e) : Counted memory e ∨ Stuck e := by
  cases state : d.state with
  | syncSearch =>
    rw [readItem_search state] at read
    cases read
    refine .inl (counted.outside ?_ ?_ ?_)
    all_goals
      rw [searchItem]
      dsimp only
      split
    · simp [enterHaveSync]
    · simp [state]
    · rfl
    · rfl
    · rfl
    · rfl
  | haveSync =>
    have shifted : Counted memory (d.shiftHeader item) := by
      refine counted.outside ?_ rfl rfl
      change d.state ≠ _
      simp [state]
    rw [readItem_sync state] at read
    cases read
    rw [headerItem]
    split
    · exact counted_headerDone shifted
    · exact .inl shifted
  | haveHeader =>
    rw [readItem_header state] at read
    obtain ⟨⟨next, left⟩, once, same⟩ := bind_ok.mp read
    cases same
    exact .inl (counted_packetItem state counted once)

theorem stuck_readItem {item : UInt32} (stuck : Stuck d) (read : d.readItem item = .ok e) :
    Stuck e := by
  obtain ⟨header, empty⟩ := stuck
  rw [readItem_header header, packetItem] at read
  obtain ⟨⟨next, left⟩, once, same⟩ := bind_ok.mp read
  cases same
  split at once
  · rw [storeByte] at once
    split at once
    · rw [ok_bind, if_neg (by simp [shiftPacketByte, empty])] at once
      cases once
      exact ⟨header, empty⟩
    · cases once
  · cases once
    exact ⟨header, empty⟩

theorem stuck_run (stuck : Stuck d) (ran : items.foldlM readItem d = .ok e) : Stuck e :=
  foldlM_invariant Stuck (fun _ _ _ _ => stuck_readItem) stuck ran

theorem counted_run (counted : Counted memory d) (ran : items.foldlM readItem d = .ok e)
    (free : ¬Stuck e) {read : List UInt32} (part : read <+: items) :
    ∃ c, read.foldlM readItem d = .ok c ∧ Counted memory c := by
  induction items generalizing d read with
  | nil =>
    rw [List.prefix_nil.mp part]
    exact ⟨d, rfl, counted⟩
  | cons item items ih =>
    obtain ⟨u, once, rest⟩ := foldlM_cons_ok.mp ran
    rcases counted_readItem counted once with next | stuck
    · rcases List.prefix_cons_iff.mp part with rfl | ⟨read', rfl, part'⟩
      · exact ⟨d, rfl, counted⟩
      · obtain ⟨c, ran', last⟩ := ih next rest part'
        exact ⟨c, foldlM_cons_ok.mpr ⟨u, once, ran'⟩, last⟩
    · exact absurd (stuck_run stuck rest) free

/-! ## No empty message -/

/-- No message sent is empty. -/
def NoneEmpty (d : PacketSink) : Prop := [] ∉ d.targetQueue.map GrMessage.msg

theorem noneEmpty_readItem {item : UInt32} (none : NoneEmpty d) (read : d.readItem item = .ok e) :
    NoneEmpty e := by
  cases state : d.state with
  | syncSearch =>
    rw [readItem_search state, searchItem] at read
    dsimp only at read
    split at read <;> cases read <;> exact none
  | haveSync =>
    rw [readItem_sync state, headerItem] at read
    split at read <;> cases read
    · rw [headerDone]
      split
      · split <;> exact none
      · exact none
    · exact none
  | haveHeader =>
    rw [readItem_header state, packetItem] at read
    obtain ⟨⟨next, left⟩, once, same⟩ := bind_ok.mp read
    cases same
    split at once
    · rw [storeByte] at once
      split at once
      · rw [ok_bind] at once
        split at once
        · cases once
          simp only [NoneEmpty, enterSearch, sendMessage, List.map_append, List.mem_append,
            List.map_singleton, List.mem_singleton]
          rintro (before | empty)
          · exact none before
          · have length := congrArg List.length empty
            simp [maxPktLen] at length
            omega
        · cases once
          exact none
      · cases once
    · cases once
      exact none

/-! ## Reports -/

/-- The sink reports each packet's own bytes, and behind every item the bytes counted are inside the
packet and the packet inside `d_packet`, which before the first header depends on the memory. -/
def Reports (d : PacketSink) (chunks : List (List UInt32)) : Prop :=
  ∃ e, calls d chunks = .ok e ∧
    e.targetQueue =
      (packets d.syncVector d.threshold (chunks.flatten.map slice)).map packetMessage ∧
    ∀ read, read <+: chunks.flatten →
      ∃ c, calls d [read] = .ok c ∧ (Within d ∨ c.state = .haveHeader → Within c)

theorem construct_ok {memory : PacketSink} {syncVector : List UInt8} {threshold : Int}
    (constructed : construct memory syncVector threshold = .ok d) :
    d.state = .syncSearch ∧ d = d.searched [] ∧ d.targetQueue = [] := by
  unfold construct at constructed
  split at constructed
  · cases constructed
  · cases constructed
    exact ⟨rfl, rfl, rfl⟩

/-- A sync vector. -/
def accessCode : List UInt8 := [0xac, 0xdd, 0xa4, 0xe2, 0xf2, 0x8c, 0x20, 0xfc]

/-- The samples 1.0 and -1.0 for the bits of the sync vector and of the bytes behind it. -/
def samples (bytes : List UInt8) : List UInt32 :=
  (byteBits (accessCode ++ bytes)).map fun bit => if bit then 0x3f800000 else 0xbf800000

/-- A new sink for the sync vector, with the default threshold. -/
def newSink : PacketSink := { idle with syncVector := 0xacdda4e2f28c20fc, threshold := 12 }

theorem construct_newSink : construct idle accessCode (-1) = .ok newSink := rfl

end PacketSink

open PacketSink

theorem not_empty_of_reports {memory d : PacketSink} {syncVector : List UInt8} {threshold : Int}
    (constructed : construct memory syncVector threshold = .ok d) {chunks : List (List UInt32)}
    (reports : Reports d chunks) :
    [] ∉ packets d.syncVector d.threshold (chunks.flatten.map PacketSink.slice) := by
  obtain ⟨search, fresh, empty⟩ := construct_ok constructed
  obtain ⟨e, ran, queue, -⟩ := reports
  intro member
  rw [PacketSink.calls_eq] at ran
  have sent : NoneEmpty e := by
    refine foldlM_invariant NoneEmpty (fun _ _ _ _ => noneEmpty_readItem) ?_ ran
    simp [NoneEmpty, empty]
  apply sent
  rw [queue, List.map_map]
  exact List.mem_map.mpr ⟨[], member, rfl⟩

/-- A new sink reports the packets of a stream if and only if none of them is empty. -/
theorem packet_sink_reports_iff {memory d : PacketSink} {syncVector : List UInt8} {threshold : Int}
    (constructed : construct memory syncVector threshold = .ok d) (chunks : List (List UInt32)) :
    Reports d chunks ↔
      [] ∉ packets d.syncVector d.threshold (chunks.flatten.map PacketSink.slice) := by
  obtain ⟨search, fresh, empty⟩ := construct_ok constructed
  constructor
  · exact not_empty_of_reports constructed
  · intro good
    obtain ⟨e, ran, free, queue⟩ := readItem_packets chunks.flatten search good
    rw [← fresh] at ran
    rw [empty, List.nil_append] at queue
    have counted : Counted (Within d) d := by
      constructor
      · rintro (known | header)
        · exact known
        · cases search.symm.trans header
      · intro header
        cases search.symm.trans header
    refine ⟨e, (PacketSink.calls_eq d chunks).trans ran, queue, ?_⟩
    intro read part
    obtain ⟨c, ran', last⟩ := counted_run counted ran free part
    refine ⟨c, ?_, last.within⟩
    rw [PacketSink.calls_eq, List.flatten_singleton]
    exact ran'

theorem packet_sink_reports_one :
    Reports newSink [samples [0, 1, 0, 1, 0x5a]] ↔
      [] ∉ packets newSink.syncVector newSink.threshold
        ([samples [0, 1, 0, 1, 0x5a]].flatten.map PacketSink.slice) :=
  packet_sink_reports_iff construct_newSink _

/-- A header says twice that there is no byte, and no message comes. -/
theorem packet_sink_misses_empty :
    construct idle accessCode (-1) = .ok newSink ∧ ¬Reports newSink [samples [0, 0, 0, 0]] := by
  refine ⟨construct_newSink, ?_⟩
  intro reports
  apply not_empty_of_reports construct_newSink reports
  rw [packets_some (i := 63) (by decide +kernel)]
  simp only
  rw [if_neg (by decide +kernel), if_pos (by decide +kernel), if_neg (by decide +kernel)]
  have none : ofBits ((([samples [0, 0, 0, 0]].flatten.map PacketSink.slice).drop (63 + 1)).take
      headerbitlen) / 2 ^ 16 = 0 := by decide +kernel
  rw [none]
  exact List.mem_cons_self

end GnuRadio
