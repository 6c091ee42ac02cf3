import GnuRadio.Packet.Framing
import GnuRadio.Packet.PacketUtils

/-!
# Packets through the framer

The bits of packets that `make_packet` makes are given to the framer with a flag
on the first bit behind each access code. `unmake_packet` turns the messages back
into payloads as long as the length of a payload fits the field of the header,
the offset fits its own, and the whitening sequence reaches to the end.
-/

namespace GnuRadio

open FramerSink1

/-! ## Headers -/

/-- The bits of a packet, as a string of zeros and ones has them. -/
def bitStream (pkt : PyStr) : List Bool :=
  (convPackedBinaryStringTo10String pkt).map fun ch => ch == 49

theorem bitStream_eq (pkt : PyStr) : bitStream pkt = byteBits pkt := by
  have bit : ∀ v i : Nat,
      (UInt8.ofNat ((v >>> i &&& 0x1) + ordZero.toNat) == 49) = v.testBit i := by
    intro v i
    rw [Nat.testBit, Nat.and_comm 1, Nat.and_one_is_mod]
    rcases Nat.mod_two_eq_zero_or_one (v >>> i) with zero | one
    · rw [zero]
      rfl
    · rw [one]
      rfl
  simp only [bitStream, convPackedBinaryStringTo10String, byteBits, List.map_map, List.map_flatMap]
  congr 1
  funext byte
  rw [bitsOf]
  apply List.map_congr_left
  intro i member
  exact bit byte.toNat i

theorem makeHeader_word (L : Nat) (o : Int) :
    ∃ val, makeHeader L o = bytesBE 2 val ++ bytesBE 2 val ∧
      val = (o % 16).toNat * 2 ^ 12 + L % 2 ^ 12 := by
  refine ⟨_, rfl, ?_⟩
  have low := Nat.and_two_pow_sub_one_eq_mod L 12
  rw [show (0x0fff : Nat) = 2 ^ 12 - 1 from rfl, low,
    ← Nat.shiftLeft_add_eq_or_of_lt (Nat.mod_lt L (by decide)), Nat.shiftLeft_eq]
  rfl

theorem makeHeader_fields (L : Nat) (o : Int) :
    (byteBits (makeHeader L o)).length = 32 ∧
    ofBits (byteBits (makeHeader L o)) / 2 ^ 16 = ofBits (byteBits (makeHeader L o)) % 2 ^ 16 ∧
    ofBits (byteBits (makeHeader L o)) / 2 ^ 16 % 2 ^ 12 = L % 2 ^ 12 ∧
    ofBits (byteBits (makeHeader L o)) / 2 ^ 28 = (o % 16).toNat := by
  obtain ⟨val, same, fields⟩ := makeHeader_word L o
  have word : ofBits (byteBits (makeHeader L o)) = val % 2 ^ 16 * 2 ^ 16 + val % 2 ^ 16 := by
    rw [same, byteBits_append, ofBits_append, byteBits_bytesBE, ofBits_bitsOf, length_bitsOf]
  have offset : (o % 16).toNat < 16 := by omega
  have small : val % 2 ^ 16 = val := Nat.mod_eq_of_lt (by omega)
  rw [small] at word
  have high : ofBits (byteBits (makeHeader L o)) / 2 ^ 16 = val := by omega
  refine ⟨by simp [same], ?_, ?_, ?_⟩
  · omega
  · rw [high]
    omega
  · omega

/-! ## Streams -/

/-- Where the header of a packet starts in its bits. -/
def MakePacket.headerStart (p : MakePacket) : Nat := 8 * (2 + (p.accessCode.length + 7) / 8)

/-- Where the body of a packet ends in its bits. -/
def MakePacket.bodyEnd (p : MakePacket) : Nat :=
  p.headerStart + 32 + 8 * (p.payload.length + 4)

/-- Items that carry the bits of a packet. The first bit behind the access code is flagged, and
flags elsewhere are in the header or in the body. -/
structure Carries (p : MakePacket) (pkt : PyStr) (items : List UInt8) : Prop where
  bits : dataBits items = bitStream pkt
  start : ∀ item ∈ items[p.headerStart]?, flagged item = true
  inside : ∀ i, ∀ item ∈ items[i]?, flagged item = true → p.headerStart ≤ i ∧ i < p.bodyEnd

def messageOf (p : MakePacket) (body : PyStr) : GrMessage :=
  ⟨0, (p.whitenerOffset % 16).toNat, 0, body.take (body.length % 2 ^ 12)⟩

theorem getElem?_part {α : Type} {a b c : List α} {x : α} (member : x ∈ b) :
    ∃ i, (a ++ b ++ c)[i]? = some x ∧ a.length ≤ i ∧ i < a.length + b.length := by
  obtain ⟨j, inside, rfl⟩ := List.mem_iff_getElem.mp member
  refine ⟨a.length + j, ?_, Nat.le_add_right _ _, Nat.add_lt_add_left inside _⟩
  rw [List.append_assoc, List.getElem?_append_right (Nat.le_add_right _ _), Nat.add_sub_cancel_left,
    List.getElem?_append_left inside, List.getElem?_eq_getElem]

variable {p : MakePacket} {pkt front body trail : PyStr} {packets : List MakePacket}

theorem Carries.reads {items : List UInt8} (carries : Carries p pkt items)
    (parts : Parts p pkt front body trail) (length : body.length = p.payload.length + 4)
    (fits : body.length ≤ 4096)
    (clear : body.length = 4096 → ∀ i, ∀ item ∈ items[i]?, flagged item = true → i = p.headerStart)
    (rest : List UInt8) : readPackets (items ++ rest) = messageOf p body :: readPackets rest := by
  obtain ⟨headerLength, agree, size, offset⟩ :=
    makeHeader_fields (p.payload.length + 4) p.whitenerOffset
  have bits := carries.bits
  rw [bitStream_eq, parts.whole, byteBits_append, byteBits_append, byteBits_append] at bits
  -- the items split as the bits do
  obtain ⟨others, trailing, rfl, bits, trailBits⟩ := List.map_eq_append_iff.mp bits
  obtain ⟨others, inner, rfl, bits, innerBits⟩ := List.map_eq_append_iff.mp bits
  obtain ⟨lead, header, rfl, leadBits, headerBits⟩ := List.map_eq_append_iff.mp bits
  change dataBits header = _ at headerBits
  change dataBits inner = _ at innerBits
  have leadLength : lead.length = p.headerStart := by
    have same := congrArg List.length leadBits
    rw [List.length_map, length_byteBits, parts.front_length] at same
    exact same
  have headerLength' : header.length = 32 := by
    have same := congrArg List.length headerBits
    rwa [dataBits, List.length_map, headerLength] at same
  have innerLength : inner.length = 8 * body.length := by
    have same := congrArg List.length innerBits
    rwa [dataBits, List.length_map, length_byteBits] at same
  have ends : p.bodyEnd = lead.length + 32 + inner.length := by
    rw [MakePacket.bodyEnd, leadLength, innerLength, length]
  have quiet : ∀ item ∈ lead, flagged item = false := by
    intro item member
    by_contra flag
    obtain ⟨i, there, -, before⟩ :=
      getElem?_part (a := []) (c := header ++ inner ++ trailing) member
    have := carries.inside i item (by simpa using there) (by simpa using flag)
    rw [List.length_nil] at before
    omega
  have start : ∀ item ∈ header.head?, flagged item = true := by
    intro item first
    apply carries.start item
    rw [← leadLength, List.append_assoc, List.append_assoc,
      List.getElem?_append_right (Nat.le_refl _), Nat.sub_self]
    cases header with
    | nil => cases headerLength'
    | cons other header => exact first
  have after : ∀ item ∈ trailing, flagged item = false := by
    intro item member
    by_contra flag
    obtain ⟨i, there, behind, -⟩ := getElem?_part (a := lead ++ header ++ inner) (c := []) member
    have := carries.inside i item (by simpa using there) (by simpa using flag)
    simp at behind
    omega
  rw [List.append_assoc, List.append_assoc, List.append_assoc, readPackets_quiet quiet]
  rw [← headerBits] at agree size offset
  by_cases full : body.length = 4096
  · have empty : ofBits (dataBits header) / 2 ^ 16 % 2 ^ 12 = 0 := by
      rw [size, ← length, full]
      rfl
    have skipped : ∀ item ∈ inner ++ trailing, flagged item = false := by
      intro item member
      by_contra flag
      obtain ⟨i, there, behind, -⟩ := getElem?_part (a := lead ++ header) (c := []) member
      have := clear full i item (by simpa using there) (by simpa using flag)
      simp at behind
      omega
    have none : ([] : List UInt8).length = 8 * (ofBits (dataBits header) / 2 ^ 16 % 2 ^ 12) := by
      rw [empty]
      rfl
    have read := readPackets_packet headerLength' start agree none (inner ++ trailing ++ rest)
    rw [List.append_nil, readPackets_quiet skipped, offset, empty] at read
    rw [← List.append_assoc inner, read, messageOf, full]
    rfl
  · have size' : ofBits (dataBits header) / 2 ^ 16 % 2 ^ 12 = body.length := by
      rw [size, ← length, Nat.mod_eq_of_lt (by omega)]
    have read := readPackets_packet headerLength' start agree (by rw [size', innerLength])
      (trailing ++ rest)
    rw [offset, size', innerBits, bytesOf_byteBits, readPackets_quiet after] at read
    rw [← List.append_assoc header, read, messageOf, Nat.mod_eq_of_lt (by omega), List.take_length]

/-! ## The round trip -/

/-- What is made into packets: the checks of `make_packet` pass but for the length. -/
structure Accepted (p : MakePacket) : Prop where
  whitening : p.whitening = true
  access_code : is10String p.accessCode = true
  offset : 0 ≤ p.whitenerOffset

/-- `unmake_packet` of a message is the payload, and the message says the offset. -/
def Recovered (p : MakePacket) (message : GrMessage) : Prop :=
  message.arg1 = p.whitenerOffset ∧
    unmakePacket message.msg p.whitenerOffset = .ok (true, p.payload)

/-- The packets can be made, and a framer that is searching sends one message for each of them,
in whatever pieces it is given their bits. -/
def RoundTrip (packets : List MakePacket) : Prop :=
  (∀ p ∈ packets, ∃ pkt, makePacket p = .ok pkt) ∧
    ∀ streams, List.Forall₂ (fun p items => ∃ pkt, makePacket p = .ok pkt ∧ Carries p pkt items)
        packets streams →
      ∀ chunks : List (List UInt8), chunks.flatten = streams.flatten →
        ∀ d : FramerSink1, d.state = .syncSearch →
          ∃ (e : FramerSink1) (messages : List GrMessage), calls d chunks = .ok e ∧
            e.targetQueue = d.targetQueue ++ messages ∧ List.Forall₂ Recovered packets messages

/-- The offset fits its field, the length fits its own, and the mask and the padding exist. -/
structure Fits (p : MakePacket) : Prop where
  offset : p.whitenerOffset < 16
  length : p.payload.length + 4 < 4096
  reaches : p.payload.length + 4 + p.whitenerOffset ≤ 4096
  padding : p.padForUsrp = true → p.samplesPerSymbol ≠ 0 ∧ p.bitsPerSymbol ≠ 0

theorem Fits.recovered (fits : Fits p) (accepted : Accepted p) :
    ∃ pkt, makePacket p = .ok pkt ∧ ∃ front body trail, Parts p pkt front body trail ∧
      body.length = p.payload.length + 4 ∧ Recovered p (messageOf p body) := by
  obtain ⟨o, offset⟩ := Int.eq_ofNat_of_zero_le accepted.offset
  have small := fits.offset
  have reaches := fits.reaches
  have short := fits.length
  rw [offset] at small reaches
  obtain ⟨body, whitened, length, dewhitened⟩ :=
    whiten_ok (s := genAndAppendCrc32 p.payload) (o := o) (by simp; omega)
  rw [length_genAndAppendCrc32] at length
  rw [← offset] at whitened dewhitened
  obtain ⟨pkt, made⟩ := makePacket_total ⟨accepted.access_code, accepted.offset, short.le⟩
    accepted.whitening whitened fits.padding
  obtain ⟨front, body', trail, parts⟩ := makePacket_parts accepted.whitening made
  obtain rfl : body = body' := Except.ok.inj (whitened.symm.trans parts.whitened)
  refine ⟨pkt, made, front, body, trail, parts, length, ?_, ?_⟩
  · change ((p.whitenerOffset % 16).toNat : Int) = p.whitenerOffset
    omega
  · rw [messageOf, Nat.mod_eq_of_lt (by omega), List.take_length, unmakePacket, if_pos rfl,
      dewhitened, ok_bind]
    exact congrArg Except.ok (checkCrc32_genAndAppendCrc32 p.payload)

theorem reads_of_fits (accepted : ∀ p ∈ packets, Accepted p)
    (fits : ∀ p ∈ packets, Fits p) {streams : List (List UInt8)}
    (carried : List.Forall₂ (fun p items => ∃ pkt, makePacket p = .ok pkt ∧ Carries p pkt items)
      packets streams) :
    List.Forall₂ Recovered packets (readPackets streams.flatten) := by
  induction carried with
  | nil =>
    rw [List.flatten_nil, readPackets]
    exact .nil
  | @cons p items packets streams first rest ih =>
    obtain ⟨pkt, made, carries⟩ := first
    obtain ⟨pkt', made', front, body, trail, parts, length, recovered⟩ :=
      (fits p List.mem_cons_self).recovered (accepted p List.mem_cons_self)
    obtain rfl := Except.ok.inj (made'.symm.trans made)
    have short := (fits p List.mem_cons_self).length
    rw [List.flatten_cons, carries.reads parts length (by omega) (by omega)]
    exact .cons recovered (ih (fun p member => accepted p (.tail _ member))
      fun p member => fits p (.tail _ member))

theorem roundTrip_of_fits (accepted : ∀ p ∈ packets, Accepted p) (fits : ∀ p ∈ packets, Fits p) :
    RoundTrip packets := by
  refine ⟨?_, ?_⟩
  · intro p member
    obtain ⟨pkt, made, -⟩ := (fits p member).recovered (accepted p member)
    exact ⟨pkt, made⟩
  · intro streams carried chunks same d search
    obtain ⟨e, ran, queue⟩ := calls_readPackets chunks search
    rw [same] at queue
    exact ⟨e, _, ran, queue, reads_of_fits accepted fits carried⟩

/-- An item with a bit and a flag. -/
def carrier (bit flag : Bool) : UInt8 := (if bit then 1 else 0) ||| (if flag then 2 else 0)

@[simp] theorem dataBit_carrier (bit flag : Bool) : dataBit (carrier bit flag) = bit := by
  cases bit <;> cases flag <;> rfl

@[simp] theorem flagged_carrier (bit flag : Bool) : flagged (carrier bit flag) = flag := by
  cases bit <;> cases flag <;> rfl

/-- The items of a packet with one flag. -/
def flagOnly (p : MakePacket) (pkt : PyStr) : List UInt8 :=
  (bitStream pkt).mapIdx fun i bit => carrier bit (decide (i = p.headerStart))

theorem flagged_flagOnly {i : Nat} {item : UInt8} (there : item ∈ (flagOnly p pkt)[i]?) :
    flagged item = decide (i = p.headerStart) := by
  rw [flagOnly, List.getElem?_mapIdx, Option.mem_map] at there
  obtain ⟨bit, -, rfl⟩ := there
  exact flagged_carrier _ _

theorem carries_flagOnly (p : MakePacket) (pkt : PyStr) : Carries p pkt (flagOnly p pkt) := by
  refine ⟨?_, ?_, ?_⟩
  · apply List.ext_getElem?
    intro i
    have same : (dataBit ∘ fun bit => carrier bit (decide (i = p.headerStart))) = id := by
      funext bit
      exact dataBit_carrier _ _
    simp [dataBits, flagOnly, same]
  · intro item there
    simp [flagged_flagOnly there]
  · intro i item there flag
    rw [flagged_flagOnly there] at flag
    have start := of_decide_eq_true flag
    rw [MakePacket.bodyEnd]
    omega

theorem fits_of_recovered (accepted : Accepted p) (made : makePacket p = .ok pkt)
    (parts : Parts p pkt front body trail) (recovered : Recovered p (messageOf p body)) :
    Fits p := by
  obtain ⟨o, offset⟩ := Int.eq_ofNat_of_zero_le accepted.offset
  obtain ⟨same, unmade⟩ := recovered
  have short := (makePacket_checked made).length
  change ((p.whitenerOffset % 16).toNat : Int) = p.whitenerOffset at same
  have small : o < 16 := by omega
  have whitened := parts.whitened
  have length := arrayXor_length (by simp) whitened
  rw [offset] at whitened unmade
  rw [length_genAndAppendCrc32] at length
  have reaches := reaches_of_whiten small (by simp) whitened
  rw [length_genAndAppendCrc32] at reaches
  refine ⟨by omega, ?_, by omega, parts.padding⟩
  by_contra long
  have full : body.length = 4096 := by omega
  obtain ⟨nothing, -, none, dewhitened⟩ := whiten_ok (s := []) (o := o) (by simp; omega)
  obtain rfl := List.eq_nil_of_length_eq_zero none
  rw [messageOf, full, unmakePacket, if_pos rfl] at unmade
  change (dewhiten [] o >>= fun payload => pure (checkCrc32 payload)) = _ at unmade
  rw [dewhitened, ok_bind, pure_ok] at unmade
  cases unmade

/-- The items of the packet that is made, with one flag. -/
def madeStream (p : MakePacket) : List UInt8 := flagOnly p ((makePacket p).toOption.getD [])

theorem carries_madeStream (made : makePacket p = .ok pkt) : Carries p pkt (madeStream p) := by
  rw [madeStream, made]
  exact carries_flagOnly p pkt

theorem fits_of_reads (accepted : ∀ p ∈ packets, Accepted p)
    (made : ∀ p ∈ packets, ∃ pkt, makePacket p = .ok pkt)
    (recovered : List.Forall₂ Recovered packets (readPackets (packets.map madeStream).flatten)) :
    ∀ p ∈ packets, Fits p := by
  induction packets with
  | nil => exact fun p member => nomatch member
  | cons p packets ih =>
    obtain ⟨pkt, here⟩ := made p List.mem_cons_self
    obtain ⟨front, body, trail, parts⟩ :=
      makePacket_parts (accepted p List.mem_cons_self).whitening here
    have length := arrayXor_length (by simp) parts.whitened
    have short := (makePacket_checked here).length
    rw [length_genAndAppendCrc32] at length
    have clear : ∀ i, ∀ item ∈ (madeStream p)[i]?, flagged item = true → i = p.headerStart := by
      intro i item there flag
      rw [flagged_flagOnly there] at flag
      exact of_decide_eq_true flag
    rw [List.map_cons, List.flatten_cons,
      (carries_madeStream here).reads parts length (by omega) fun _ => clear] at recovered
    cases recovered with
    | cons first rest =>
      have others := ih (fun p member => accepted p (.tail _ member))
        (fun p member => made p (.tail _ member)) rest
      exact List.forall_mem_cons.mpr
        ⟨fits_of_recovered (accepted p List.mem_cons_self) here parts first, others⟩

theorem fits_of_roundTrip (accepted : ∀ p ∈ packets, Accepted p) (trip : RoundTrip packets) :
    ∀ p ∈ packets, Fits p := by
  obtain ⟨made, reads⟩ := trip
  have carried : List.Forall₂ (fun p items => ∃ pkt, makePacket p = .ok pkt ∧ Carries p pkt items)
      packets (packets.map madeStream) := by
    rw [List.forall₂_map_right_iff, List.forall₂_same]
    intro p member
    obtain ⟨pkt, here⟩ := made p member
    exact ⟨pkt, here, carries_madeStream here⟩
  obtain ⟨e, messages, ran, queue, recovered⟩ := reads _ carried
    [(packets.map madeStream).flatten] List.flatten_singleton idle rfl
  obtain ⟨e', ran', queue'⟩ :=
    calls_readPackets [(packets.map madeStream).flatten] (d := idle) rfl
  obtain rfl := Except.ok.inj (ran.symm.trans ran')
  rw [queue', List.flatten_singleton, List.append_right_inj] at queue
  rw [← queue] at recovered
  exact fits_of_reads accepted made recovered

/-- **Make, frame and unmake.** The payloads come back in order exactly if every packet fits. -/
theorem make_packet_round_trip_iff (packets : List MakePacket)
    (accepted : ∀ p ∈ packets, Accepted p) : RoundTrip packets ↔ ∀ p ∈ packets, Fits p :=
  ⟨fits_of_roundTrip accepted, roundTrip_of_fits accepted⟩

/-- A packet of one letter with an offset. -/
def letterPacket : MakePacket where
  payload := [0x61]
  samplesPerSymbol := 2
  bitsPerSymbol := 1
  whitenerOffset := 3

theorem make_packet_round_trip_iff_letter : RoundTrip [letterPacket] :=
  (make_packet_round_trip_iff [letterPacket]
      (List.forall_mem_singleton.mpr ⟨rfl, by decide, by decide⟩)).mpr
    (List.forall_mem_singleton.mpr ⟨by decide, by decide, by decide, by decide⟩)

/-- A packet of the greatest length that `make_packet` lets pass. -/
def fullPacket : MakePacket where
  payload := List.replicate 4092 0
  samplesPerSymbol := 2
  bitsPerSymbol := 1

theorem length_fullPacket : fullPacket.payload.length = 4092 := List.length_replicate

/-- Its length is a zero in the header. -/
theorem make_packet_round_trip_full :
    Accepted fullPacket ∧ fullPacket.payload.length + 4 ≤ 4096 ∧
      fullPacket.whitenerOffset ≤ 15 ∧ ¬RoundTrip [fullPacket] := by
  have accepted : Accepted fullPacket := ⟨rfl, by decide, by decide⟩
  refine ⟨accepted, by rw [length_fullPacket], by decide, ?_⟩
  intro trip
  have fits := fits_of_roundTrip (List.forall_mem_singleton.mpr accepted) trip fullPacket
    List.mem_cons_self
  have short := fits.length
  rw [length_fullPacket] at short
  exact Nat.lt_irrefl _ short

end GnuRadio
