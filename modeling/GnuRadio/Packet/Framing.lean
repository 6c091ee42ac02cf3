import GnuRadio.Packet.FramerSink1

/-!
# What the framer reads

`readPackets` reads the packets of a whole stream. The framer sends its messages
in whatever pieces it is given the stream. While it reads, its state stands for
the bits read since the flag or since the header.
-/

namespace GnuRadio

/-- The bit of an item. -/
def dataBit (item : UInt8) : Bool := item &&& 0x1 != 0

/-- The bits of items. -/
def dataBits (items : List UInt8) : List Bool := items.map dataBit

open FramerSink1

variable {items : List UInt8} {bits : List Bool} {d e : FramerSink1} {offset len : Nat}

theorem behind_lt {found : List UInt8} (suffix : found <:+ items) (long : ¬found.length < 32)
    (n : Nat) : ((found.drop 32).drop n).length < items.length := by
  have inside := suffix.length_le
  rw [List.length_drop, List.length_drop]
  omega

/-- The messages of a stream: behind the next flag a header with two equal halves, and as many
bytes as it says. -/
def readPackets (items : List UInt8) : List GrMessage :=
  let found := items.dropWhile fun item => !flagged item
  if short : found.length < 32 then []
  else
    let header := ofBits (dataBits (found.take 32))
    let rest := found.drop 32
    if header / 2 ^ 16 = header % 2 ^ 16 then
      let len := header / 2 ^ 16 % 2 ^ 12
      if rest.length < 8 * len then []
      else ⟨0, (header / 2 ^ 28 : Nat), 0, bytesOf len (dataBits (rest.take (8 * len)))⟩ ::
        readPackets (rest.drop (8 * len))
    else readPackets rest
termination_by items.length
decreasing_by
  · exact behind_lt (List.dropWhile_suffix _) short _
  · exact behind_lt (List.dropWhile_suffix _) short 0

/-! ## Words -/

theorem toNat_dataBit (item : UInt8) : item.toNat &&& 1 = (dataBit item).toNat := by
  have same : dataBit item = decide (item.toNat % 2 = 1) := by
    rw [dataBit, Bool.eq_iff_iff, bne_iff_ne, ne_eq, ← UInt8.toNat_inj, UInt8.toNat_and,
      decide_eq_true_eq]
    simp [Nat.and_one_is_mod]
  rw [same, Nat.and_one_is_mod]
  rcases Nat.mod_two_eq_zero_or_one item.toNat with zero | one
  · simp [zero]
  · simp [one]

theorem toNat_shiftPacket (x item : UInt8) :
    ((x <<< 1) ||| (item &&& 0x1)).toNat = (2 * x.toNat + (dataBit item).toNat) % 2 ^ 8 := by
  rw [← toNat_dataBit, ← shiftLeft_or_bit 7 _ (by rw [Nat.and_one_is_mod]; omega)]
  simp [UInt8.toNat_shiftLeft]

theorem toNat_shiftHeader (x : UInt32) (item : UInt8) :
    ((x <<< 1) ||| (item.toUInt32 &&& 0x1)).toNat =
      (2 * x.toNat + (dataBit item).toNat) % 2 ^ 32 := by
  rw [← toNat_dataBit, ← shiftLeft_or_bit 31 _ (by rw [Nat.and_one_is_mod]; omega)]
  simp [UInt32.toNat_shiftLeft]

theorem headerPayload_eq (d : FramerSink1) :
    d.headerPayload = (d.header.toNat / 2 ^ 16 % 2 ^ 12, d.header.toNat / 2 ^ 28) := by
  have length := Nat.and_two_pow_sub_one_eq_mod (d.header.toNat >>> 16) 12
  have offset := Nat.and_two_pow_sub_one_eq_mod (d.header.toNat >>> 28) 4
  have word := d.header.toNat_lt
  rw [headerPayload, UInt32.toNat_and, UInt32.toNat_and, UInt32.toNat_shiftRight,
    UInt32.toNat_shiftRight, ← Nat.shiftRight_eq_div_pow, ← length]
  congr 1
  refine offset.trans ?_
  rw [Nat.shiftRight_eq_div_pow]
  omega

/-! ## In the header -/

/-- The framer has read some bits of a header. -/
structure InHeader (bits : List Bool) (d : FramerSink1) : Prop where
  state : d.state = .haveSync
  count : d.headerbitlenCnt = bits.length
  header : d.header.toNat = ofBits bits % 2 ^ 32

theorem inHeader_enter (d : FramerSink1) : InHeader [] d.enterHaveSync := ⟨rfl, rfl, rfl⟩

theorem InHeader.shift (reading : InHeader bits d) (item : UInt8) :
    InHeader (bits ++ [dataBit item]) (d.shiftHeader item) := by
  refine ⟨reading.state, ?_, ?_⟩
  · rw [List.length_append, List.length_singleton, ← reading.count]
    rfl
  · rw [ofBits_concat, shiftHeader, toNat_shiftHeader, reading.header]
    omega

theorem InHeader.run {bits : List Bool} {d : FramerSink1} (reading : InHeader bits d)
    (items : List UInt8) (room : bits.length + items.length < 32) :
    ∃ e, items.foldlM readItem d = .ok e ∧ InHeader (bits ++ dataBits items) e ∧
      e.targetQueue = d.targetQueue := by
  induction items generalizing bits d with
  | nil => exact ⟨d, rfl, by simpa [dataBits] using reading, rfl⟩
  | cons item items ih =>
    rw [List.length_cons] at room
    have partly : (d.shiftHeader item).headerbitlenCnt ≠ headerbitlen := by
      rw [(reading.shift item).count, List.length_append, List.length_singleton, headerbitlen]
      omega
    obtain ⟨e, ran, last, queue⟩ := ih (reading.shift item) (by simp; omega)
    refine ⟨e, foldlM_cons_ok.mpr ⟨_, ?_, ran⟩, ?_, queue⟩
    · rw [readItem_sync reading.state, headerItem, if_neg partly]
    · rwa [List.append_assoc] at last

theorem InHeader.done (reading : InHeader [] d) (items : List UInt8) (length : items.length = 32) :
    ∃ e : FramerSink1, items.foldlM readItem d = .ok e.headerDone ∧
      e.header.toNat = ofBits (dataBits items) ∧ e.targetQueue = d.targetQueue := by
  rcases items.eq_nil_or_concat' with rfl | ⟨front, last, rfl⟩
  · cases length
  rw [List.length_append, List.length_singleton] at length
  obtain ⟨e, ran, partly, queue⟩ := reading.run front (by simp; omega)
  have whole := partly.shift last
  have full : (e.shiftHeader last).headerbitlenCnt = headerbitlen := by
    rw [whole.count, headerbitlen]
    simp [dataBits]
    omega
  refine ⟨e.shiftHeader last, ?_, ?_, queue⟩
  · refine foldlM_append_ok.mpr ⟨e, ran, foldlM_singleton_ok.mpr ?_⟩
    rw [readItem_sync partly.state, headerItem, if_pos full]
  · have bound := ofBits_lt (dataBits (front ++ [last]))
    have count : (dataBits (front ++ [last])).length = 32 := by simpa [dataBits] using length
    rw [count] at bound
    rw [whole.header, List.nil_append, ← Nat.mod_eq_of_lt bound]
    simp [dataBits]

/-! ## In the packet -/

/-- The framer has read some bits of a packet. -/
structure InPacket (offset len : Nat) (bits : List Bool) (d : FramerSink1) : Prop where
  state : d.state = .haveHeader
  offset : d.packetWhitenerOffset = offset
  packetlen : d.packetlen = len
  count : d.packetlenCnt = bits.length / 8
  index : d.packetByteIndex = bits.length % 8
  byte : d.packetByte.toNat = ofBits bits % 2 ^ 8
  stored : d.packet.toList.take (bits.length / 8) = bytesOf (bits.length / 8) bits

theorem inPacket_enter (d : FramerSink1) (len offset : Nat) :
    InPacket offset len [] (d.enterHaveHeader len offset) :=
  ⟨rfl, rfl, rfl, rfl, rfl, rfl, rfl⟩

section

variable (reading : InPacket offset len bits d)
include reading

theorem InPacket.shift (item : UInt8) (partly : bits.length % 8 ≠ 7) :
    InPacket offset len (bits ++ [dataBit item]) (d.shiftPacketByte item) := by
  have same : (bits ++ [dataBit item]).length / 8 = bits.length / 8 := by
    simp
    omega
  refine ⟨reading.state, reading.offset, reading.packetlen, ?_, ?_, ?_, ?_⟩
  · rw [same]
    exact reading.count
  · have index := reading.index
    simp [shiftPacketByte]
    omega
  · rw [ofBits_concat, shiftPacketByte, toNat_shiftPacket, reading.byte]
    omega
  · rw [same, bytesOf_append _ (by omega)]
    exact reading.stored

theorem InPacket.store (item : UInt8)
    (full : bits.length % 8 = 7) (inside : bits.length / 8 < 4096) :
    ∃ e, (d.shiftPacketByte item).storeByte = .ok e ∧
      InPacket offset len (bits ++ [dataBit item]) e ∧ e.targetQueue = d.targetQueue := by
  have room : (d.shiftPacketByte item).packetlenCnt < maxPktLen := by
    rw [shiftPacketByte, reading.count]
    exact inside
  have length : (bits ++ [dataBit item]).length = 8 * (bits.length / 8 + 1) := by
    simp
    omega
  have count : (bits ++ [dataBit item]).length / 8 = bits.length / 8 + 1 := by omega
  have byte : (d.shiftPacketByte item).packetByte.toNat =
      ofBits (bits ++ [dataBit item]) % 2 ^ 8 := by
    rw [ofBits_concat, shiftPacketByte, toNat_shiftPacket, reading.byte]
    omega
  refine ⟨_, dif_pos room, ⟨?_, ?_, ?_, ?_, ?_, byte, ?_⟩, rfl⟩
  · exact reading.state
  · exact reading.offset
  · exact reading.packetlen
  · rw [count, ← reading.count]
    rfl
  · rw [length, Nat.mul_mod_right]
  · have last : UInt8.ofNat (ofBits (bits ++ [dataBit item])) =
        (d.shiftPacketByte item).packetByte := by
      rw [← UInt8.ofNat_mod_size, ← byte, UInt8.ofNat_toNat]
    have place : (d.shiftPacketByte item).packetlenCnt = bits.length / 8 := reading.count
    rw [Vector.toList_set, place, count, ← last]
    exact take_set_bytesOf full (by rw [Vector.length_toList]; exact inside) reading.stored

theorem InPacket.item (fits : len < 4096) (item : UInt8) (room : bits.length + 1 < 8 * len) :
    ∃ e, d.readItem item = .ok e ∧ InPacket offset len (bits ++ [dataBit item]) e ∧
      e.targetQueue = d.targetQueue := by
  rw [readItem_header reading.state, packetItem, reading.index]
  split
  · rename_i full
    obtain ⟨e, stored, next, queue⟩ := reading.store item full (by omega)
    have more : e.packetlenCnt ≠ e.packetlen := by
      rw [next.count, next.packetlen, List.length_append, List.length_singleton]
      omega
    exact ⟨e, by rw [stored, ok_bind, if_neg more]; rfl, next, queue⟩
  · rename_i partly
    exact ⟨_, rfl, reading.shift item partly, rfl⟩

theorem InPacket.last (fits : len < 4096) (item : UInt8) (room : bits.length + 1 = 8 * len) :
    ∃ e : FramerSink1, d.readItem item = .ok e ∧ e.state = .syncSearch ∧
      e.targetQueue =
        d.targetQueue ++ [⟨0, offset, 0, bytesOf len (bits ++ [dataBit item])⟩] := by
  have full : bits.length % 8 = 7 := by omega
  obtain ⟨e, stored, next, queue⟩ := reading.store item full (by omega)
  have length : (bits ++ [dataBit item]).length / 8 = len := by
    simp
    omega
  have whole : e.packetlenCnt = e.packetlen := by rw [next.count, next.packetlen, length]
  refine ⟨(e.sendMessage e.packetlenCnt).enterSearch, ?_, rfl, ?_⟩
  · rw [readItem_header reading.state, packetItem, reading.index, if_pos full, stored, ok_bind,
      if_pos whole]
    rfl
  · have message := next.stored
    rw [length] at message
    change e.targetQueue ++
      [⟨0, e.packetWhitenerOffset, 0, e.packet.toList.take e.packetlenCnt⟩] = _
    rw [queue, next.offset, next.count, length, message]

end

theorem InPacket.run {offset len : Nat} {bits : List Bool} {d : FramerSink1}
    (reading : InPacket offset len bits d) (fits : len < 4096) (items : List UInt8)
    (room : bits.length + items.length < 8 * len) :
    ∃ e, items.foldlM readItem d = .ok e ∧ InPacket offset len (bits ++ dataBits items) e ∧
      e.targetQueue = d.targetQueue := by
  induction items generalizing bits d with
  | nil => exact ⟨d, rfl, by simpa [dataBits] using reading, rfl⟩
  | cons item items ih =>
    rw [List.length_cons] at room
    obtain ⟨e, first, next, same⟩ := reading.item fits item (by omega)
    obtain ⟨e', ran, last, queue⟩ := ih next (by simp; omega)
    refine ⟨e', foldlM_cons_ok.mpr ⟨e, first, ran⟩, ?_, queue.trans same⟩
    rwa [List.append_assoc] at last

theorem InPacket.done (reading : InPacket offset len [] d) (fits : len < 4096) (some : len ≠ 0)
    (items : List UInt8) (length : items.length = 8 * len) :
    ∃ e : FramerSink1, items.foldlM readItem d = .ok e ∧ e.state = .syncSearch ∧
      e.targetQueue = d.targetQueue ++ [⟨0, offset, 0, bytesOf len (dataBits items)⟩] := by
  rcases items.eq_nil_or_concat' with rfl | ⟨front, last, rfl⟩
  · rw [List.length_nil] at length
    omega
  rw [List.length_append, List.length_singleton] at length
  obtain ⟨e, ran, partly, same⟩ := reading.run fits front (by simp; omega)
  obtain ⟨e', final, search, queue⟩ := partly.last fits last (by simp [dataBits]; omega)
  refine ⟨e', foldlM_append_ok.mpr ⟨e, ran, foldlM_singleton_ok.mpr final⟩, search, ?_⟩
  rw [queue, same]
  simp [dataBits]

/-! ## A whole stream -/

theorem search_dropWhile (search : d.state = .syncSearch) (items : List UInt8) :
    items.foldlM readItem d = (items.dropWhile fun item => !flagged item).foldlM readItem d := by
  induction items with
  | nil => rfl
  | cons item items ih =>
    by_cases flag : flagged item = true
    · rw [List.dropWhile_cons_of_neg (by simp [flag])]
    · rw [List.dropWhile_cons_of_pos (by simp [flag]), ← ih, List.foldlM_cons,
        readItem_search search, if_neg flag, ok_bind]

theorem search_flagged (search : d.state = .syncSearch)
    (flag : ∀ item ∈ items.head?, flagged item = true) (some : items ≠ []) :
    items.foldlM readItem d = items.foldlM readItem d.enterHaveSync := by
  cases items with
  | nil => exact absurd rfl some
  | cons item items =>
    rw [List.foldlM_cons, List.foldlM_cons, readItem_search search, if_pos (flag item rfl),
      readItem_sync rfl]

theorem flagged_head (items : List UInt8) :
    ∀ item ∈ (items.dropWhile fun item => !flagged item).head?, flagged item = true := by
  intro item first
  have stopped := List.head?_dropWhile_not (fun item => !flagged item) items
  rw [Option.mem_def.mp first] at stopped
  simpa using stopped

theorem headerDone_bad (differ : d.header.toNat / 2 ^ 16 ≠ d.header.toNat % 2 ^ 16) :
    d.headerDone = d.enterSearch :=
  if_neg fun ok => differ ((halves_agree_iff d.header).mp ok)

theorem headerDone_empty (agree : d.header.toNat / 2 ^ 16 = d.header.toNat % 2 ^ 16)
    (empty : d.header.toNat / 2 ^ 16 % 2 ^ 12 = 0) :
    d.headerDone.state = .syncSearch ∧ d.headerDone.targetQueue =
      d.targetQueue ++ [⟨0, (d.header.toNat / 2 ^ 28 : Nat), 0, []⟩] := by
  have done : d.headerDone = ((d.enterHaveHeader (d.header.toNat / 2 ^ 16 % 2 ^ 12)
      (d.header.toNat / 2 ^ 28)).sendMessage 0).enterSearch := by
    rw [headerDone, headerOk, if_pos ((halves_agree_iff d.header).mpr agree), headerPayload_eq]
    exact if_pos empty
  rw [done]
  exact ⟨rfl, rfl⟩

theorem headerDone_packet (agree : d.header.toNat / 2 ^ 16 = d.header.toNat % 2 ^ 16)
    (some : d.header.toNat / 2 ^ 16 % 2 ^ 12 ≠ 0) :
    d.headerDone =
      d.enterHaveHeader (d.header.toNat / 2 ^ 16 % 2 ^ 12) (d.header.toNat / 2 ^ 28) := by
  rw [headerDone, headerOk, if_pos ((halves_agree_iff d.header).mpr agree), headerPayload_eq]
  exact if_neg some

theorem readItem_readPackets (items : List UInt8) {d : FramerSink1}
    (search : d.state = .syncSearch) :
    ∃ e : FramerSink1, items.foldlM readItem d = .ok e ∧
      e.targetQueue = d.targetQueue ++ readPackets items := by
  have flag := flagged_head items
  have suffix := List.dropWhile_suffix (l := items) fun item => !flagged item
  rw [search_dropWhile search, readPackets]
  generalize items.dropWhile (fun item => !flagged item) = found at flag suffix ⊢
  dsimp only
  split
  · rename_i short
    rw [List.append_nil]
    by_cases none : found = []
    · exact ⟨d, by rw [none]; rfl, rfl⟩
    · rw [search_flagged search flag none]
      obtain ⟨e, ran, -, queue⟩ := (inHeader_enter d).run found (by simpa using short)
      exact ⟨e, ran, queue⟩
  · rename_i long
    have some : found ≠ [] := by
      rintro rfl
      exact long (by decide)
    obtain ⟨e, ran, word, queue⟩ :=
      (inHeader_enter d).done (found.take 32) (by simp; omega)
    have reached : found.foldlM readItem d = (found.drop 32).foldlM readItem e.headerDone := by
      rw [search_flagged search flag some]
      conv_lhs => rw [← List.take_append_drop 32 found, List.foldlM_append, ran, ok_bind]
    rw [reached, ← word, ← show e.targetQueue = d.targetQueue from queue]
    split
    · rename_i agree
      by_cases empty : e.header.toNat / 2 ^ 16 % 2 ^ 12 = 0
      · obtain ⟨state, sent⟩ := headerDone_empty agree empty
        obtain ⟨e', rest, last⟩ := readItem_readPackets ((found.drop 32).drop 0) state
        rw [empty, if_neg (Nat.not_lt_zero _)]
        refine ⟨e', rest, ?_⟩
        rw [last, sent, List.append_assoc]
        rfl
      · rw [headerDone_packet agree empty]
        have fits : e.header.toNat / 2 ^ 16 % 2 ^ 12 < 4096 := Nat.mod_lt _ (by decide)
        have entered := inPacket_enter e (e.header.toNat / 2 ^ 16 % 2 ^ 12)
          (e.header.toNat / 2 ^ 28)
        generalize e.header.toNat / 2 ^ 16 % 2 ^ 12 = len at empty fits entered ⊢
        split
        · rename_i short
          obtain ⟨e', ran', -, same⟩ :=
            entered.run fits (found.drop 32) (by simpa using short)
          exact ⟨e', ran', by rw [List.append_nil]; exact same⟩
        · rename_i enough
          obtain ⟨e', packet, state, sent⟩ :=
            entered.done fits empty ((found.drop 32).take (8 * len))
              (List.length_take_of_le (not_lt.mp enough))
          obtain ⟨e'', rest, last⟩ := readItem_readPackets ((found.drop 32).drop (8 * len)) state
          refine ⟨e'', ?_, ?_⟩
          · rw [← List.take_append_drop (8 * len) (found.drop 32), List.foldlM_append, packet]
            exact rest
          · rw [last, sent, List.append_assoc]
            rfl
    · rename_i differ
      rw [headerDone_bad differ]
      obtain ⟨e', rest, last⟩ := readItem_readPackets (found.drop 32) (d := e.enterSearch) rfl
      exact ⟨e', rest, last⟩
termination_by items.length
decreasing_by
  · exact behind_lt suffix ‹_› 0
  · exact behind_lt suffix ‹_› 0
  · exact behind_lt suffix ‹_› _

/-- The state after `work` has had the chunks. -/
def calls (d : FramerSink1) (chunks : List (List UInt8)) : Except CppException FramerSink1 :=
  chunks.foldlM (fun d chunk => do
    let (_, d) ← d.work chunk
    return d) d

theorem calls_eq (d : FramerSink1) (chunks : List (List UInt8)) :
    calls d chunks = chunks.flatten.foldlM readItem d := by
  have each : ∀ (d : FramerSink1) (chunk : List UInt8), (do
      let (_, d) ← d.work chunk
      return d) = chunk.foldlM readItem d := by
    intro d chunk
    rw [work, workLoop_eq]
    cases chunk.foldlM readItem d <;> rfl
  rw [calls, ← List.flatMap_id, foldlM_flatMap]
  exact foldlM_congr (fun d chunk _ => each d chunk) d

theorem calls_readPackets (chunks : List (List UInt8)) (search : d.state = .syncSearch) :
    ∃ e : FramerSink1, calls d chunks = .ok e ∧
      e.targetQueue = d.targetQueue ++ readPackets chunks.flatten := by
  rw [calls_eq]
  exact readItem_readPackets _ search

/-- Where the next byte of a packet goes is inside the packet, and the packet is inside `d_packet`.
-/
def Indexed (d : FramerSink1) : Prop :=
  d.state = .haveHeader → d.packetlenCnt < d.packetlen ∧ d.packetlen < maxPktLen

theorem indexed_enterSearch (d : FramerSink1) : Indexed d.enterSearch := by
  intro packet
  cases packet

theorem indexed_headerItem (d : FramerSink1) (item : UInt8) (sync : d.state = .haveSync) :
    Indexed (d.headerItem item) := by
  have header : (d.shiftHeader item).state = .haveSync := sync
  rw [headerItem]
  split
  · rw [headerDone]
    split
    · rw [headerPayload_eq]
      dsimp only
      split
      · apply indexed_enterSearch
      · intro _
        refine ⟨?_, ?_⟩
        · exact Nat.pos_of_ne_zero ‹_›
        · exact Nat.mod_lt _ (by decide)
    · apply indexed_enterSearch
  · intro packet
    rw [header] at packet
    cases packet

theorem indexed_packetItem {item : UInt8} (packet : d.state = .haveHeader) (indexed : Indexed d)
    (read : d.packetItem item = .ok e) : Indexed e := by
  have inside := indexed packet
  rw [packetItem] at read
  split at read
  · rw [storeByte, dif_pos (show (d.shiftPacketByte item).packetlenCnt < maxPktLen from
      inside.1.trans inside.2), ok_bind] at read
    cases read
    split
    · apply indexed_enterSearch
    · rename_i more
      intro _
      exact ⟨lt_of_le_of_ne inside.1 more, inside.2⟩
  · cases read
    exact fun _ => inside

theorem indexed_readItem {item : UInt8} (indexed : Indexed d) (read : d.readItem item = .ok e) :
    Indexed e := by
  cases state : d.state with
  | syncSearch =>
    rw [readItem_search state] at read
    cases read
    split
    · apply indexed_headerItem
      rfl
    · exact indexed
  | haveSync =>
    rw [readItem_sync state] at read
    cases read
    exact indexed_headerItem d item state
  | haveHeader =>
    rw [readItem_header state] at read
    exact indexed_packetItem state indexed read

theorem indexed_run (indexed : Indexed d) (ran : items.foldlM readItem d = .ok e) : Indexed e := by
  induction items generalizing d with
  | nil =>
    cases ran
    exact indexed
  | cons item items ih =>
    obtain ⟨d', first, rest⟩ := foldlM_cons_ok.mp ran
    exact ih (indexed_readItem indexed first) rest

/-- **Chunking.** However a stream is split into calls of `work`, a new framer sends the packets
of the stream, and no byte is put outside of `d_packet`. -/
theorem framer_chunking (memory : FramerSink1) (chunks : List (List UInt8)) :
    ∃ e : FramerSink1, calls memory.construct chunks = .ok e ∧
      e.targetQueue = readPackets chunks.flatten ∧
      (e.state = .haveHeader → e.packetlenCnt < e.packetlen ∧ e.packetlen < maxPktLen) := by
  obtain ⟨e, ran, queue⟩ := calls_readPackets chunks (d := memory.construct) rfl
  have fresh : Indexed memory.construct := by
    intro packet
    cases packet
  refine ⟨e, ran, queue, ?_⟩
  rw [calls_eq] at ran
  exact indexed_run fresh ran

/-! ## Streams of packets -/

theorem readPackets_quiet {quiet : List UInt8} (none : ∀ item ∈ quiet, flagged item = false)
    (items : List UInt8) : readPackets (quiet ++ items) = readPackets items := by
  have skipped : (quiet ++ items).dropWhile (fun item => !flagged item) =
      items.dropWhile fun item => !flagged item := by
    rw [List.dropWhile_append_of_pos]
    intro item member
    rw [none item member]
    rfl
  rw [readPackets, skipped]
  conv_rhs => rw [readPackets]

theorem readPackets_packet {header body : List UInt8} (length : header.length = 32)
    (flag : ∀ item ∈ header.head?, flagged item = true)
    (agree : ofBits (dataBits header) / 2 ^ 16 = ofBits (dataBits header) % 2 ^ 16)
    (whole : body.length = 8 * (ofBits (dataBits header) / 2 ^ 16 % 2 ^ 12)) (items : List UInt8) :
    readPackets (header ++ body ++ items) =
      ⟨0, (ofBits (dataBits header) / 2 ^ 28 : Nat), 0,
        bytesOf (ofBits (dataBits header) / 2 ^ 16 % 2 ^ 12) (dataBits body)⟩ ::
      readPackets items := by
  have found : (header ++ body ++ items).dropWhile (fun item => !flagged item) =
      header ++ body ++ items := by
    cases header with
    | nil => cases length
    | cons item header => exact List.dropWhile_cons_of_neg (by simp [flag item rfl])
  have first : (header ++ (body ++ items)).take 32 = header := List.take_left' length
  have rest : (header ++ (body ++ items)).drop 32 = body ++ items := List.drop_left' length
  have long : ¬(header ++ (body ++ items)).length < 32 := by
    rw [List.length_append, length]
    omega
  have enough : ¬(body ++ items).length < 8 * (ofBits (dataBits header) / 2 ^ 16 % 2 ^ 12) := by
    rw [List.length_append, whole]
    omega
  rw [readPackets, found, List.append_assoc, dif_neg long, first, rest, if_pos agree,
    if_neg enough, List.take_left' whole, List.drop_left' whole]

end GnuRadio
