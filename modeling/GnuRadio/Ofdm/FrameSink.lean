import GnuRadio.Misc.LittleEndian
import GnuRadio.Packet.FramerSink1

/-!
# The OFDM frame sink

`gr_ofdm_frame_sink` waits for a flagged symbol, cuts the values of the symbols behind it into
bytes, the least significant bits first, reads a header from them, and then as many bytes as the
header says.
-/

namespace GnuRadio

/-- The fields of `gr_ofdm_frame_sink` that its demapper keeps bits in
(`gr_ofdm_frame_sink.h:70-71,85-86`). -/
structure OfdmDemapper where
  byteOffset : Nat
  partialByte : Nat
  resid : Nat
  nresid : Nat
  deriving DecidableEq, Repr

/-- `gr_ofdm_frame_sink` (`gr_ofdm_frame_sink.h:59-93`). The queue is what was inserted in it. The
constellation, the equaliser and the phase loop decide which value a carrier is sliced to, and are
not here. -/
structure OfdmFrameSink where
  targetQueue : List GrMessage
  state : FramerState
  header : UInt32
  headerbytelenCnt : Nat
  demap : OfdmDemapper
  packet : Vector UInt8 maxPktLen
  packetlen : Nat
  packetWhitenerOffset : Nat
  packetlenCnt : Nat

def headerbytelen : Nat := 4

/-- What a call of `work` gets: the flag, and the values that the used carriers are sliced to. -/
structure OfdmInput where
  sig : Bool
  values : List Nat
  deriving DecidableEq, Repr

namespace OfdmDemapper

/-- Residual bits go into the next byte (`gr_ofdm_frame_sink.cc:116-121`). -/
def takeResid (d : OfdmDemapper) : OfdmDemapper :=
  if 0 < d.nresid then
    { byteOffset := d.byteOffset + d.nresid
      partialByte := d.partialByte ||| d.resid
      nresid := 0
      resid := 0 }
  else d

/-- The bits of a carrier go into the byte, and what does not fit is kept
(`gr_ofdm_frame_sink.cc:143-153`). -/
def takeValue (nbits : Nat) (d : OfdmDemapper) (bits : Nat) : OfdmDemapper :=
  if nbits ≤ 8 - d.byteOffset then
    { d with
      partialByte := d.partialByte ||| bits <<< d.byteOffset
      byteOffset := d.byteOffset + nbits }
  else
    let nresid := nbits - (8 - d.byteOffset)
    let mask := (1 <<< (8 - d.byteOffset)) - 1
    { nresid
      partialByte := d.partialByte ||| (bits &&& mask) <<< d.byteOffset
      resid := bits >>> (8 - d.byteOffset)
      byteOffset := d.byteOffset + (nbits - nresid) }

/-- The inner loop: values are taken until the byte is full. -/
def fillByte (nbits : Nat) (d : OfdmDemapper) : List Nat → OfdmDemapper × List Nat
  | [] => (d, [])
  | bits :: rest =>
    if d.byteOffset < 8 then fillByte nbits (takeValue nbits d bits) rest else (d, bits :: rest)

/-- A full byte is put out (`gr_ofdm_frame_sink.cc:158-163`). -/
def giveByte (d : OfdmDemapper) : OfdmDemapper × List UInt8 :=
  if d.byteOffset = 8 then
    ({ d with
      byteOffset := 0
      partialByte := 0 }, [UInt8.ofNat d.partialByte])
  else (d, [])

/-- The outer loop of `demapper` (`gr_ofdm_frame_sink.cc:105-178`). A round that takes no value, for
its byte is full of residual bits, is followed by one that does (`demapper_bits`). -/
def demapper (nbits : Nat) : Nat → OfdmDemapper → List Nat → List UInt8 → OfdmDemapper × List UInt8
  | 0, d, _, out => (d, out)
  | _ + 1, d, [], out => (d, out)
  | fuel + 1, d, bits :: values, out =>
    let (d, rest) := fillByte nbits d.takeResid (bits :: values)
    let (d, byte) := giveByte d
    demapper nbits fuel d rest (out ++ byte)

end OfdmDemapper

/-- `header_ok` (`gr_ofdm_frame_sink.h:105-109`): the two copies of the header are the same. -/
def ofdmHeaderOk (header : UInt32) : Bool := (header >>> 16) ^^^ (header &&& 0xffff) == 0

/-- The length in a header. -/
def ofdmPacketlen (header : UInt32) : Nat := ((header >>> 16) &&& 0x0fff).toNat

/-- The whitener offset in a header. -/
def ofdmWhitenerOffset (header : UInt32) : Nat := ((header >>> 28) &&& 0x000f).toNat

namespace OfdmDemapper

/-- The bits that are kept: those of the byte that is not full, and residual ones. -/
def pending (d : OfdmDemapper) : List Bool :=
  bitsLE d.byteOffset d.partialByte ++ bitsLE d.nresid d.resid

/-- What holds inside the loops. Values whose width divides a byte are never split. -/
structure Filling (nbits : Nat) (d : OfdmDemapper) : Prop where
  byteOffset : d.byteOffset ≤ 8
  aligned : nbits ∣ 8 → nbits ∣ d.byteOffset ∧ d.nresid = 0
  nresid : d.nresid < nbits
  split : 0 < d.nresid → d.byteOffset = 8
  partialByte : d.partialByte < 2 ^ d.byteOffset
  resid : d.resid < 2 ^ d.nresid

/-- What holds between calls: residual bits are kept alone, and a byte that is not full was begun
with a whole value. -/
structure Settled (nbits : Nat) (d : OfdmDemapper) : Prop where
  byteOffset : d.byteOffset < 8
  aligned : nbits ∣ 8 → nbits ∣ d.byteOffset ∧ d.nresid = 0
  nresid : d.nresid < nbits
  split : 0 < d.nresid → d.byteOffset = 0
  partialByte : d.partialByte < 2 ^ d.byteOffset
  resid : d.resid < 2 ^ d.nresid
  whole : 0 < d.byteOffset → min nbits 8 ≤ d.byteOffset

section
variable {nbits : Nat} {d : OfdmDemapper}

theorem Settled.takeResid (settled : Settled nbits d) (width : nbits ≤ 9) :
    Filling nbits d.takeResid ∧ d.takeResid.nresid = 0 ∧
      (d.takeResid.byteOffset = 8 → d.nresid = 8) ∧ d.takeResid.pending = d.pending := by
  have offset := settled.byteOffset
  have nresid := settled.nresid
  rw [OfdmDemapper.takeResid]
  split
  · rename_i residual
    have start := settled.split residual
    have none : d.partialByte = 0 := by
      have small := settled.partialByte
      rw [start, pow_zero] at small
      omega
    refine ⟨⟨?_, ?_, Nat.zero_lt_of_lt nresid, ?_, ?_, Nat.two_pow_pos _⟩, rfl, ?_, ?_⟩
    · dsimp only
      omega
    · intro divides
      exact absurd (settled.aligned divides).2 residual.ne'
    · intro positive
      exact absurd positive (lt_irrefl 0)
    · simpa [start, none] using settled.resid
    · dsimp only
      omega
    · simp [pending, start, none]
  · rename_i none
    refine ⟨⟨offset.le, settled.aligned, nresid, ?_, settled.partialByte, settled.resid⟩,
      Nat.eq_zero_of_not_pos none, fun full => absurd full offset.ne, rfl⟩
    intro positive
    exact absurd positive none

theorem Filling.takeValue (filling : Filling nbits d) (room : d.byteOffset < 8)
    {bits : Nat} (small : bits < 2 ^ nbits) :
    Filling nbits (d.takeValue nbits bits) ∧
      min nbits 8 ≤ (d.takeValue nbits bits).byteOffset ∧
      (8 < nbits → 0 < (d.takeValue nbits bits).nresid) ∧
      (d.takeValue nbits bits).pending = d.pending ++ bitsLE nbits bits := by
  have positive := filling.nresid
  have none : d.nresid = 0 := by
    by_contra residual
    have full := filling.split (Nat.pos_of_ne_zero residual)
    omega
  rw [OfdmDemapper.takeValue]
  split
  · rename_i fits
    refine ⟨⟨?_, ?_, positive, ?_, ?_, filling.resid⟩, ?_, ?_, ?_⟩
    · dsimp only
      omega
    · intro divides
      exact ⟨Nat.dvd_add (filling.aligned divides).1 (Nat.dvd_refl _), none⟩
    · intro residual
      exact absurd residual (by simp [none])
    · exact or_lt filling.partialByte small
    · exact (min_le_left _ _).trans (Nat.le_add_left _ _)
    · intro wide
      omega
    · simp [pending, none, bitsLE_or filling.partialByte]
  · rename_i ended
    have offset : d.byteOffset + (nbits - (nbits - (8 - d.byteOffset))) = d.byteOffset +
        (8 - d.byteOffset) := by omega
    have width' : 8 - d.byteOffset + (nbits - (8 - d.byteOffset)) = nbits := by omega
    have eight : d.byteOffset + (8 - d.byteOffset) = 8 := by omega
    refine ⟨⟨?_, ?_, ?_, ?_, ?_, ?_⟩, ?_, ?_, ?_⟩
    · dsimp only
      omega
    · intro divides
      -- what is left of the byte is a multiple of the width
      have rest := Nat.dvd_sub divides (filling.aligned divides).1
      exact absurd (Nat.le_of_dvd (by omega) rest) ended
    · dsimp only
      omega
    · intro _
      dsimp only
      omega
    · dsimp only
      rw [offset, Nat.and_comm]
      exact or_lt filling.partialByte (mask_lt _ _)
    · dsimp only
      rw [Nat.shiftRight_eq_div_pow, Nat.div_lt_iff_lt_mul (Nat.two_pow_pos _), ← pow_add,
        Nat.add_comm, width']
      exact small
    · dsimp only
      omega
    · intro _
      dsimp only
      omega
    · dsimp only [pending]
      rw [offset, Nat.and_comm, bitsLE_or filling.partialByte, bitsLE_mask, none, bitsLE_zero,
        List.append_nil, List.append_assoc, ← bitsLE_add, width']

theorem Filling.fillByte (filling : Filling nbits d) {values : List Nat}
    (small : ∀ value ∈ values, value < 2 ^ nbits) :
    Filling nbits (d.fillByte nbits values).1 ∧
      (d.fillByte nbits values).1.pending ++ wordBits nbits (d.fillByte nbits values).2 =
        d.pending ++ wordBits nbits values ∧
      (0 < d.nresid → 0 < (d.fillByte nbits values).1.nresid) ∧
      (d.fillByte nbits values).2 <:+ values ∧
      (min nbits 8 ≤ d.byteOffset → min nbits 8 ≤ (d.fillByte nbits values).1.byteOffset) := by
  induction values generalizing d with
  | nil => exact ⟨filling, rfl, id, List.suffix_rfl, id⟩
  | cons bits rest ih =>
    rw [OfdmDemapper.fillByte]
    split
    · rename_i room
      rw [List.forall_mem_cons] at small
      obtain ⟨taken, whole, -, kept⟩ := filling.takeValue room small.1
      obtain ⟨final, same, -, suffix, above⟩ := ih taken small.2
      refine ⟨final, ?_, fun residual => ?_, suffix.trans (List.suffix_cons _ _),
        fun _ => above whole⟩
      · rw [same, kept, wordBits_cons, List.append_assoc]
      · exact absurd (filling.split residual) room.ne
    · exact ⟨filling, rfl, id, List.suffix_rfl, id⟩

/-- A byte that is put out, and one that is not full yet, leave a demapper between two calls. -/
theorem Filling.giveByte (filling : Filling nbits d)
    (whole : d.byteOffset < 8 → min nbits 8 ≤ d.byteOffset) :
    Settled nbits d.giveByte.1 ∧ d.giveByte.1.nresid = d.nresid ∧
      byteBitsLE d.giveByte.2 ++ d.giveByte.1.pending = d.pending := by
  rw [OfdmDemapper.giveByte]
  split
  · rename_i full
    have byte : d.partialByte < 256 := by
      have small := filling.partialByte
      rwa [full] at small
    refine ⟨⟨Nat.zero_lt_succ 7, ?_, filling.nresid, fun _ => rfl, Nat.one_pos, filling.resid, ?_⟩,
      rfl, ?_⟩
    · exact fun divides => ⟨Nat.dvd_zero _, (filling.aligned divides).2⟩
    · intro positive
      exact absurd positive (lt_irrefl 0)
    · simp [byteBitsLE, pending, full, Nat.mod_eq_of_lt byte]
  · rename_i part
    have room : d.byteOffset < 8 := lt_of_le_of_ne filling.byteOffset part
    refine ⟨⟨room, filling.aligned, filling.nresid, ?_, filling.partialByte, filling.resid,
      fun _ => whole room⟩, rfl, rfl⟩
    intro residual
    exact absurd (filling.split residual) part

theorem demapper_nil (fuel : Nat) (out : List UInt8) : demapper nbits fuel d [] out = (d, out) := by
  cases fuel <;> rfl

/-- **The demapper.** The bytes and the bits that are kept are those of the values. Values of more
than a byte always leave bits. -/
theorem demapper_bits (width : nbits ≤ 9) (fuel : Nat) {values : List Nat} (out : List UInt8)
    (settled : Settled nbits d) (small : ∀ value ∈ values, value < 2 ^ nbits)
    (enough : 2 * values.length + (if d.nresid = 8 then 1 else 0) ≤ fuel) :
    Settled nbits (demapper nbits fuel d values out).1 ∧
      byteBitsLE (demapper nbits fuel d values out).2 ++
          (demapper nbits fuel d values out).1.pending =
        byteBitsLE out ++ (d.pending ++ wordBits nbits values) ∧
      (8 < nbits → values ≠ [] → 0 < (demapper nbits fuel d values out).1.nresid) := by
  induction fuel generalizing d values out with
  | zero =>
    obtain rfl := List.length_eq_zero_iff.mp (show values.length = 0 by omega)
    exact ⟨settled, by rw [demapper_nil, wordBits_nil, List.append_nil],
      fun _ some => absurd rfl some⟩
  | succ fuel ih =>
    cases values with
    | nil =>
      exact ⟨settled, by rw [demapper_nil, wordBits_nil, List.append_nil],
        fun _ some => absurd rfl some⟩
    | cons bits values =>
      obtain ⟨emptied, none, residual, pending⟩ := settled.takeResid width
      rw [List.length_cons] at enough
      rcases Nat.lt_or_ge d.takeResid.byteOffset 8 with room | full
      · rw [demapper, fillByte, if_pos room]
        rw [List.forall_mem_cons] at small
        obtain ⟨taken, whole, left, kept⟩ := emptied.takeValue room small.1
        obtain ⟨filled, same, leaves, suffix, above⟩ := taken.fillByte small.2
        obtain ⟨given, nresid, byte⟩ := filled.giveByte fun _ => above whole
        have fewer := suffix.length_le
        obtain ⟨final, bits', later⟩ := ih (out ++ (giveByte ((d.takeResid.takeValue nbits
          bits).fillByte nbits values).1).2) given
          (fun value member => small.2 value (suffix.mem member))
          (by split at enough <;> split <;> omega)
        refine ⟨final, ?_, fun wide _ => ?_⟩
        · rw [bits', byteBitsLE_append, List.append_assoc,
            ← List.append_assoc (byteBitsLE (giveByte _).2), byte, same, kept, pending,
            wordBits_cons, List.append_assoc]
        · by_cases done : ((d.takeResid.takeValue nbits bits).fillByte nbits values).2 = []
          · show 0 < (demapper nbits fuel (giveByte ((d.takeResid.takeValue nbits bits).fillByte
              nbits values).1).1 ((d.takeResid.takeValue nbits bits).fillByte nbits values).2 _).1.nresid
            rw [done, demapper_nil, nresid]
            exact leaves (left wide)
          · exact later wide done
      · have eight : d.takeResid.byteOffset = 8 := Nat.le_antisymm emptied.byteOffset full
        rw [demapper, fillByte, if_neg (Nat.not_lt.mpr full)]
        obtain ⟨given, nresid, byte⟩ := emptied.giveByte fun room => absurd room (Nat.not_lt.mpr full)
        rw [if_pos (residual eight)] at enough
        obtain ⟨final, bits', later⟩ := ih (out ++ d.takeResid.giveByte.2) given small (by
          rw [nresid, none, List.length_cons]
          simpa using enough)
        refine ⟨final, ?_, later⟩
        rw [bits', byteBitsLE_append, List.append_assoc,
          ← List.append_assoc (byteBitsLE (giveByte _).2), byte, pending]

end

end OfdmDemapper

namespace OfdmFrameSink

/-- The constructor (`gr_ofdm_frame_sink.cc:192-265`) on memory that held anything. -/
def construct (memory : OfdmFrameSink) : OfdmFrameSink :=
  { memory with
    targetQueue := []
    demap := ⟨0, 0, 0, 0⟩
    state := .syncSearch }

/-- `enter_search` (`gr_ofdm_frame_sink.cc:39-47`). -/
def enterSearch (d : OfdmFrameSink) : OfdmFrameSink := { d with state := .syncSearch }

/-- `enter_have_sync` (`gr_ofdm_frame_sink.cc:49-67`), but for the phase loop. -/
def enterHaveSync (d : OfdmFrameSink) : OfdmFrameSink :=
  { d with
    state := .haveSync
    demap := { d.demap with
      byteOffset := 0
      partialByte := 0 }
    header := 0
    headerbytelenCnt := 0 }

/-- `enter_have_header` (`gr_ofdm_frame_sink.cc:69-84`). -/
def enterHaveHeader (d : OfdmFrameSink) : OfdmFrameSink :=
  { d with
    state := .haveHeader
    packetlen := ofdmPacketlen d.header
    packetWhitenerOffset := ofdmWhitenerOffset d.header
    packetlenCnt := 0 }

/-- A byte goes to the packet. -/
def storeByte (d : OfdmFrameSink) (byte : UInt8) : Except CppException OfdmFrameSink :=
  if inside : d.packetlenCnt < maxPktLen then
    .ok { d with
      packet := d.packet.set d.packetlenCnt byte
      packetlenCnt := d.packetlenCnt + 1 }
  else .error .undefinedBehaviour

/-- A message of the packet, and its sending. -/
def sendMessage (d : OfdmFrameSink) : OfdmFrameSink :=
  { d with targetQueue := d.targetQueue ++
      [⟨0, d.packetWhitenerOffset, 0, d.packet.toList.take d.packetlenCnt⟩] }

/-- The loop behind a header: bytes of its symbol are the first of the packet. -/
def copyPacket (d : OfdmFrameSink) :
    List UInt8 → Except CppException (OfdmFrameSink × List UInt8)
  | [] => .ok (d, [])
  | byte :: rest =>
    if d.packetlenCnt < d.packetlen then do
      let d ← d.storeByte byte
      copyPacket d rest
    else .ok (d, byte :: rest)

/-- A byte of the header. -/
def shiftHeader (d : OfdmFrameSink) (byte : UInt8) : OfdmFrameSink :=
  { d with
    header := (d.header <<< 8) ||| (byte.toUInt32 &&& 0xff)
    headerbytelenCnt := d.headerbytelenCnt + 1 }

/-- A packet that is full is sent. -/
def finishPacket (d : OfdmFrameSink) : OfdmFrameSink :=
  if d.packetlenCnt = d.packetlen then d.sendMessage.enterSearch else d

/-- The loop of `STATE_HAVE_SYNC` (`gr_ofdm_frame_sink.cc:332-367`). It goes on behind a header that
was full, whatever became of it; the number of bytes is fuel enough. -/
def haveSyncLoop : Nat → OfdmFrameSink → List UInt8 → Except CppException OfdmFrameSink
  | 0, d, _ => .ok d
  | _ + 1, d, [] => .ok d
  | fuel + 1, d, byte :: rest =>
    let d := d.shiftHeader byte
    if d.headerbytelenCnt = headerbytelen then
      if ofdmHeaderOk d.header then do
        let (d, rest) ← d.enterHaveHeader.copyPacket rest
        haveSyncLoop fuel d.finishPacket rest
      else haveSyncLoop fuel d.enterSearch rest
    else haveSyncLoop fuel d rest

/-- The loop of `STATE_HAVE_HEADER` (`gr_ofdm_frame_sink.cc:379-396`). -/
def haveHeaderLoop (d : OfdmFrameSink) : List UInt8 → Except CppException OfdmFrameSink
  | [] => .ok d
  | byte :: rest => do
    let d ← d.storeByte byte
    if d.packetlenCnt = d.packetlen then return d.sendMessage.enterSearch
    else haveHeaderLoop d rest

/-- `gr_ofdm_frame_sink::work` (`gr_ofdm_frame_sink.cc:290-404`); `nbits` is `d_nbits`. -/
def work (nbits : Nat) (d : OfdmFrameSink) (input : OfdmInput) :
    Except CppException OfdmFrameSink :=
  match d.state with
  | .syncSearch => .ok (if input.sig then d.enterHaveSync else d)
  | .haveSync =>
    let (demap, bytes) := OfdmDemapper.demapper nbits (2 * input.values.length + 1) d.demap
      input.values []
    haveSyncLoop bytes.length { d with demap } bytes
  | .haveHeader =>
    let (demap, bytes) := OfdmDemapper.demapper nbits (2 * input.values.length + 1) d.demap
      input.values []
    haveHeaderLoop { d with demap } bytes

/-! ## A frame, byte by byte -/

/-- The header that bytes make. -/
def headerOf (bytes : List UInt8) : UInt32 :=
  bytes.foldl (fun header byte => (header <<< 8) ||| (byte.toUInt32 &&& 0xff)) 0

/-- Nothing more of the frame is read: its header is bad, or its packet is there. -/
def Finished (bytes : List UInt8) : Prop :=
  4 ≤ bytes.length ∧ (ofdmHeaderOk (headerOf (bytes.take 4)) = true →
    4 + ofdmPacketlen (headerOf (bytes.take 4)) ≤ bytes.length)

instance (bytes : List UInt8) : Decidable (Finished bytes) :=
  inferInstanceAs (Decidable (_ ∧ (_ → _)))

/-- The messages of a frame: one when its header is good and its packet is there. -/
def frameMessages (bytes : List UInt8) : List GrMessage :=
  let header := headerOf (bytes.take 4)
  if 4 ≤ bytes.length ∧ ofdmHeaderOk header = true ∧ 4 + ofdmPacketlen header ≤ bytes.length then
    [⟨0, ofdmWhitenerOffset header, 0, (bytes.drop 4).take (ofdmPacketlen header)⟩]
  else []

/-- The sink has read so many bytes of a frame and reads on. -/
inductive Reads (bytes : List UInt8) (d : OfdmFrameSink) : Prop
  | header (short : bytes.length < 4) (state : d.state = .haveSync)
      (header : d.header = headerOf bytes) (count : d.headerbytelenCnt = bytes.length)
  | packet (long : 4 ≤ bytes.length) (ok : ofdmHeaderOk (headerOf (bytes.take 4)) = true)
      (state : d.state = .haveHeader) (len : d.packetlen = ofdmPacketlen (headerOf (bytes.take 4)))
      (offset : d.packetWhitenerOffset = ofdmWhitenerOffset (headerOf (bytes.take 4)))
      (count : d.packetlenCnt = bytes.length - 4) (more : d.packetlenCnt < d.packetlen)
      (packet : d.packet.toList.take d.packetlenCnt = bytes.drop 4)

/-- What the sink is when it has read some bytes of a frame. -/
structure Follows (bytes : List UInt8) (d e : OfdmFrameSink) : Prop where
  reads : ¬Finished bytes → Reads bytes e ∧ e.targetQueue = d.targetQueue
  search : Finished bytes →
    e.state = .syncSearch ∧ e.targetQueue = d.targetQueue ++ frameMessages bytes
  demap : e.demap = d.demap
  beyond : ∀ i, e.packetlen ≤ i → e.packet.toList[i]? = d.packet.toList[i]?

theorem ofdmPacketlen_lt (header : UInt32) : ofdmPacketlen header < maxPktLen := by
  have below : ((header >>> 16) &&& 0x0fff).toNat ≤ 0x0fff := by
    rw [UInt32.toNat_and]
    exact Nat.and_le_right
  exact Nat.lt_succ_of_le below

variable {d : OfdmFrameSink}

theorem copyPacket_spec (bytes : List UInt8) (fits : d.packetlen < maxPktLen)
    (count : d.packetlenCnt ≤ d.packetlen) :
    ∃ packet, d.copyPacket bytes =
        .ok ({ d with
          packet
          packetlenCnt := min d.packetlen (d.packetlenCnt + bytes.length) },
          bytes.drop (d.packetlen - d.packetlenCnt)) ∧
      packet.toList.take (min d.packetlen (d.packetlenCnt + bytes.length)) =
        d.packet.toList.take d.packetlenCnt ++ bytes.take (d.packetlen - d.packetlenCnt) ∧
      ∀ i, d.packetlen ≤ i → packet.toList[i]? = d.packet.toList[i]? := by
  induction bytes generalizing d with
  | nil =>
    have same : min d.packetlen (d.packetlenCnt + 0) = d.packetlenCnt := by omega
    refine ⟨d.packet, ?_, ?_, fun _ _ => rfl⟩
    · rw [copyPacket, List.length_nil, same, List.drop_nil]
    · rw [List.length_nil, same, List.take_nil, List.append_nil]
  | cons byte bytes ih =>
    rw [copyPacket]
    split
    · rename_i room
      have inside : d.packetlenCnt < maxPktLen := room.trans fits
      obtain ⟨packet, copied, content, beyond⟩ := @ih
        { d with
          packet := d.packet.set d.packetlenCnt byte
          packetlenCnt := d.packetlenCnt + 1 } fits room
      have step : d.packetlen - d.packetlenCnt = d.packetlen - (d.packetlenCnt + 1) + 1 := by omega
      have total : d.packetlenCnt + 1 + bytes.length = d.packetlenCnt + (byte :: bytes).length := by
        rw [List.length_cons]
        omega
      rw [total] at copied content
      refine ⟨packet, ?_, ?_, ?_⟩
      · rw [storeByte, dif_pos inside, ok_bind, copied, step, List.drop_succ_cons]
      · rw [content, step, List.take_succ_cons, Vector.toList_set, List.take_add_one,
          List.take_set_of_le le_rfl, List.getElem?_set_self (by simpa using inside)]
        simp
      · intro i above
        rw [beyond i above, Vector.toList_set, List.getElem?_set_ne]
        omega
    · rename_i full
      have same : min d.packetlen (d.packetlenCnt + (byte :: bytes).length) = d.packetlenCnt := by
        rw [List.length_cons]
        omega
      have none : d.packetlen - d.packetlenCnt = 0 := by omega
      refine ⟨d.packet, ?_, ?_, fun _ _ => rfl⟩
      · rw [same, none, List.drop_zero]
      · rw [same, none, List.take_zero, List.append_nil]

theorem haveHeaderLoop_eq (bytes : List UInt8) (more : d.packetlenCnt < d.packetlen) :
    d.haveHeaderLoop bytes = do
      let (e, _) ← d.copyPacket bytes
      return e.finishPacket := by
  induction bytes generalizing d with
  | nil =>
    change Except.ok d = .ok d.finishPacket
    rw [finishPacket, if_neg more.ne]
  | cons byte bytes ih =>
    rw [haveHeaderLoop, copyPacket, if_pos more]
    unfold storeByte
    split
    · simp only [ok_bind]
      split
      · rename_i full
        cases bytes with
        | nil =>
          rw [copyPacket, ok_bind]
          dsimp only
          rw [finishPacket, if_pos full]
        | cons next bytes =>
          rw [copyPacket, if_neg full.ge.not_gt, ok_bind]
          dsimp only
          rw [finishPacket, if_pos full]
      · rename_i part
        exact ih (lt_of_le_of_ne more part)
    · rfl

theorem copied_follows {bytes : List UInt8} {d : OfdmFrameSink} (long : 4 ≤ bytes.length)
    (ok : ofdmHeaderOk (headerOf (bytes.take 4)) = true) (state : d.state = .haveHeader)
    (len : d.packetlen = ofdmPacketlen (headerOf (bytes.take 4)))
    (offset : d.packetWhitenerOffset = ofdmWhitenerOffset (headerOf (bytes.take 4)))
    (count : d.packetlenCnt ≤ d.packetlen) {out : List UInt8}
    (content : d.packet.toList.take d.packetlenCnt ++ out = bytes.drop 4)
    (inside : d.packetlenCnt ≤ d.packet.toList.length) :
    ∃ e rest, d.copyPacket out = .ok (e, rest) ∧ Follows bytes d e.finishPacket ∧
      (rest = [] ∨ Finished bytes) ∧ e.headerbytelenCnt = d.headerbytelenCnt := by
  obtain ⟨packet, copied, filled, beyond⟩ :=
    copyPacket_spec out (len ▸ ofdmPacketlen_lt _) count
  have total : d.packetlenCnt + out.length = bytes.length - 4 := by
    have lengths := congrArg List.length content
    rw [List.length_append, List.length_take, List.length_drop, min_eq_left inside] at lengths
    exact lengths
  have finished : Finished bytes ↔ d.packetlen ≤ bytes.length - 4 := by
    rw [Finished, ← len]
    constructor
    · rintro ⟨-, whole⟩
      have bound := whole ok
      omega
    · intro whole
      exact ⟨long, fun _ => by omega⟩
  refine ⟨_, _, copied, ?_, ?_, rfl⟩
  · rw [total] at filled ⊢
    by_cases whole : d.packetlen ≤ bytes.length - 4
    · rw [min_eq_left whole] at filled ⊢
      rw [finishPacket, if_pos rfl]
      refine ⟨fun unfinished => absurd (finished.mpr whole) unfinished, fun _ => ⟨rfl, ?_⟩, rfl,
        beyond⟩
      have good : 4 ≤ bytes.length ∧ ofdmHeaderOk (headerOf (bytes.take 4)) = true ∧
          4 + ofdmPacketlen (headerOf (bytes.take 4)) ≤ bytes.length :=
        ⟨long, ok, by omega⟩
      have payload : packet.toList.take d.packetlen = (bytes.drop 4).take d.packetlen := by
        rw [filled, ← content, List.take_append, List.take_take, List.length_take,
          min_eq_left inside, min_eq_right count]
      rw [frameMessages, if_pos good, ← len, ← offset]
      simp only [enterSearch, sendMessage]
      rw [payload]
    · rw [min_eq_right (not_le.mp whole).le] at filled ⊢
      have part : ¬bytes.length - 4 = d.packetlen := by omega
      rw [finishPacket, if_neg part]
      refine ⟨fun _ => ⟨.packet long ok state len offset rfl (not_le.mp whole) ?_, rfl⟩,
        fun all => absurd (finished.mp all) whole, rfl, beyond⟩
      change packet.toList.take (bytes.length - 4) = bytes.drop 4
      have all : out.length ≤ d.packetlen - d.packetlenCnt := by omega
      rw [filled, ← content, List.take_of_length_le all]
  · obtain whole | part := le_or_gt d.packetlen (bytes.length - 4)
    · exact Or.inr (finished.mpr whole)
    · exact Or.inl (List.drop_eq_nil_of_le (by omega))

theorem haveSyncLoop_full (fuel : Nat) {d : OfdmFrameSink} (bytes : List UInt8)
    (full : headerbytelen ≤ d.headerbytelenCnt) :
    ∃ header count, haveSyncLoop fuel d bytes = .ok { d with
      header
      headerbytelenCnt := count } := by
  induction fuel generalizing d bytes with
  | zero => exact ⟨_, _, rfl⟩
  | succ fuel ih =>
    cases bytes with
    | nil => exact ⟨_, _, rfl⟩
    | cons byte bytes =>
      have past : ¬(d.shiftHeader byte).headerbytelenCnt = headerbytelen := by
        dsimp only [shiftHeader]
        omega
      obtain ⟨header, count, rest⟩ := @ih (d.shiftHeader byte) bytes (by
        dsimp only [shiftHeader]
        omega)
      exact ⟨header, count, by rw [haveSyncLoop, if_neg past, rest]; rfl⟩

theorem headerOf_concat (bytes : List UInt8) (byte : UInt8) :
    headerOf (bytes ++ [byte]) = (headerOf bytes <<< 8) ||| (byte.toUInt32 &&& 0xff) := by
  rw [headerOf, List.foldl_append]
  rfl

theorem Follows.of_finished {bytes : List UInt8} {e : OfdmFrameSink} (follows : Follows bytes d e)
    (finished : Finished bytes) (header : UInt32) (count : Nat) :
    Follows bytes d { e with
      header
      headerbytelenCnt := count } where
  reads := fun unfinished => absurd finished unfinished
  search := follows.search
  demap := follows.demap
  beyond := follows.beyond

theorem haveSyncLoop_follows (fuel : Nat) {bytes : List UInt8} {d : OfdmFrameSink}
    (short : bytes.length < 4) (state : d.state = .haveSync) (header : d.header = headerOf bytes)
    (count : d.headerbytelenCnt = bytes.length) {out : List UInt8} (enough : out.length ≤ fuel) :
    ∃ e, haveSyncLoop fuel d out = .ok e ∧ Follows (bytes ++ out) d e := by
  induction out generalizing fuel bytes d with
  | nil =>
    have stays : haveSyncLoop fuel d [] = .ok d := by cases fuel <;> rfl
    refine ⟨d, stays, ?_⟩
    rw [List.append_nil]
    refine ⟨fun _ => ⟨.header short state header count, rfl⟩, fun finished => ?_, rfl,
      fun _ _ => rfl⟩
    exact absurd finished.1 (not_le.mpr short)
  | cons byte out ih =>
    obtain ⟨fuel, rfl⟩ := Nat.exists_eq_add_one_of_ne_zero (Nat.ne_of_gt
      (Nat.lt_of_lt_of_le (Nat.zero_lt_succ out.length) enough))
    have shifted : (d.shiftHeader byte).header = headerOf (bytes ++ [byte]) := by
      rw [headerOf_concat, shiftHeader, header]
    have counted : (d.shiftHeader byte).headerbytelenCnt = (bytes ++ [byte]).length := by
      rw [shiftHeader, count, List.length_append, List.length_singleton]
    have split : bytes ++ byte :: out = bytes ++ [byte] ++ out := by simp
    rw [haveSyncLoop, split]
    dsimp only
    split
    · -- the header is full
      rename_i full
      rw [counted, headerbytelen] at full
      have front : (bytes ++ [byte] ++ out).take 4 = bytes ++ [byte] := List.take_left' full
      have long : 4 ≤ (bytes ++ [byte] ++ out).length := by
        rw [List.length_append, full]
        exact Nat.le_add_right 4 _
      split
      · rename_i good
        rw [shifted] at good
        obtain ⟨e, rest, copied, follows, ends, same⟩ := @copied_follows (bytes ++ [byte] ++ out)
          (d.shiftHeader byte).enterHaveHeader long (front.symm ▸ good) rfl
          (by rw [front, ← shifted]; rfl) (by rw [front, ← shifted]; rfl) (Nat.zero_le _) out
          (by rw [List.drop_left' full]; simp [enterHaveHeader]) (Nat.zero_le _)
        have follows' : Follows (bytes ++ [byte] ++ out) d e.finishPacket :=
          ⟨follows.reads, follows.search, follows.demap, follows.beyond⟩
        rw [copied, ok_bind]
        obtain rfl | finished := ends
        · refine ⟨e.finishPacket, ?_, follows'⟩
          cases fuel <;> rfl
        · have after : headerbytelen ≤ e.finishPacket.headerbytelenCnt := by
            have kept : e.finishPacket.headerbytelenCnt = e.headerbytelenCnt := by
              rw [finishPacket]
              split <;> rfl
            rw [kept, same]
            exact (counted.trans full).ge
          obtain ⟨header', count', looped⟩ := haveSyncLoop_full fuel rest after
          exact ⟨_, looped, follows'.of_finished finished header' count'⟩
      · rename_i bad
        have finished : Finished (bytes ++ [byte] ++ out) := by
          refine ⟨long, fun good => ?_⟩
          rw [front, ← shifted] at good
          exact absurd good bad
        have follows : Follows (bytes ++ [byte] ++ out) d (d.shiftHeader byte).enterSearch := by
          refine ⟨fun unfinished => absurd finished unfinished, fun _ => ⟨rfl, ?_⟩, rfl,
            fun _ _ => rfl⟩
          rw [frameMessages, if_neg, List.append_nil]
          · rfl
          · rw [front, ← shifted]
            exact fun all => bad all.2.1
        obtain ⟨header', count', looped⟩ := @haveSyncLoop_full fuel (d.shiftHeader byte).enterSearch
          out (counted.trans full).ge
        exact ⟨_, looped, follows.of_finished finished header' count'⟩
    · rename_i part
      rw [counted, headerbytelen, List.length_append, List.length_singleton] at part
      obtain ⟨e, looped, follows⟩ := @ih fuel (bytes ++ [byte]) (d.shiftHeader byte)
        (by rw [List.length_append, List.length_singleton]; omega) state shifted counted
        (Nat.le_of_succ_le_succ enough)
      exact ⟨e, looped, follows.reads, follows.search, follows.demap, follows.beyond⟩

theorem haveHeaderLoop_follows {bytes : List UInt8} {d : OfdmFrameSink} (long : 4 ≤ bytes.length)
    (ok : ofdmHeaderOk (headerOf (bytes.take 4)) = true) (state : d.state = .haveHeader)
    (len : d.packetlen = ofdmPacketlen (headerOf (bytes.take 4)))
    (offset : d.packetWhitenerOffset = ofdmWhitenerOffset (headerOf (bytes.take 4)))
    (count : d.packetlenCnt = bytes.length - 4) (more : d.packetlenCnt < d.packetlen)
    (packet : d.packet.toList.take d.packetlenCnt = bytes.drop 4) (out : List UInt8) :
    ∃ e, d.haveHeaderLoop out = .ok e ∧ Follows (bytes ++ out) d e := by
  have front : (bytes ++ out).take 4 = bytes.take 4 := List.take_append_of_le_length long
  have inside : d.packetlenCnt ≤ d.packet.toList.length := by
    have fits := ofdmPacketlen_lt (headerOf (bytes.take 4))
    rw [Vector.length_toList]
    omega
  obtain ⟨e, rest, copied, follows, -, -⟩ := @copied_follows (bytes ++ out) d
    (by rw [List.length_append]; omega) (front.symm ▸ ok) state (front.symm ▸ len)
    (front.symm ▸ offset) more.le out (by rw [packet, List.drop_append_of_le_length long]) inside
  exact ⟨e.finishPacket, by rw [haveHeaderLoop_eq out more, copied]; rfl, follows⟩

end OfdmFrameSink

end GnuRadio
