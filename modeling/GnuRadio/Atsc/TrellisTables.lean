import GnuRadio.Atsc.DataInterleaver
import GnuRadio.Atsc.SingleViterbi
import GnuRadio.Misc.Parties

/-!
# Twelve trellis coders that take turns

`atsci_trellis_encoder` deals the bytes of twelve segments out to twelve coders and puts their
symbols out in turn, with a jump at each segment sync. `atsci_viterbi_gen` goes through the same
loops to write down which symbols a coder has and where its dibits belong, and
`atsci_viterbi_decoder` runs twelve decoders by these tables.
-/

namespace GnuRadio

attribute [local instance] neZero_four neZero_eight

/-! ## The loops -/

def ncoders : Nat := 12

/-- What the loops do. -/
inductive MuxEvent where
  /-- A coder gets the byte at a place. -/
  | load (encoder byte : Nat)
  /-- A segment sync begins at a symbol. -/
  | sync (symbol : Nat)
  /-- A coder codes the dibit of its byte at `shift` as the symbol at a place. -/
  | code (encoder shift symbol : Nat)

/-- The variables of the loops. -/
structure Mux where
  encoder : Nat
  skipEncoderBump : Bool
  out : Nat
  nextOutSeg : Nat
  deriving DecidableEq

namespace Mux

def start : Mux := ⟨ncoders - 4, false, 0, 0⟩

/-- `encoder++`, round at `NCODERS`. -/
def turn (m : Mux) : Mux :=
  { m with encoder := if m.encoder + 1 ≥ ncoders then 0 else m.encoder + 1 }

/-- The jump by `ENCODER_SEG_BUMP`. -/
def bump (m : Mux) : Mux := { m with encoder := (m.encoder + 4) % ncoders }

/-- A round of the loop that deals out a chunk. -/
def load (chunk : Nat) (m : Mux) (i : Nat) : MuxEvent × Mux :=
  (.load m.encoder (chunk + i), m.turn)

/-- A round of the loop over the coders. -/
def code (shift : Nat) (m : Mux) (_ : Nat) : MuxEvent × Mux :=
  (.code m.encoder shift m.out, { m.turn with out := m.out + 1 })

/-- A round of the loop over the bit shifts, which begins a segment where one is due. -/
def shift (m : Mux) (shift : Nat) : List MuxEvent × Mux :=
  if m.out ≥ m.nextOutSeg then
    let m' := if m.skipEncoderBump then m else m.bump
    let codes := feed (code shift)
      { m' with
        skipEncoderBump := false
        out := m.out + 4
        nextOutSeg := m.out + 4 + atscMpegRsEncodedLength * 4 } (List.range ncoders)
    (.sync m.out :: codes.1, codes.2)
  else feed (code shift) m (List.range ncoders)

/-- A round of the loop over the chunks. -/
def chunk (m : Mux) (chunk : Nat) : List MuxEvent × Mux :=
  let m := if m.out ≥ m.nextOutSeg then { m.bump with skipEncoderBump := true } else m
  let loads := feed (load chunk) m (List.range ncoders)
  let codes := feed Mux.shift loads.2 [6, 4, 2, 0]
  (loads.1 ++ codes.1.flatten, codes.2)

def inputSize : Nat := atscMpegRsEncodedLength * 12

/-- The loops of `encode_helper` (`atsci_trellis_encoder.cc:128-193`) and of
`build_decode_structures` (`atsci_viterbi_gen.cc:104-174`). -/
def loops : List MuxEvent × Mux :=
  let chunks := feed chunk start ((List.range atscMpegRsEncodedLength).map (· * ncoders))
  (chunks.1.flatten, chunks.2)

end Mux

/-! ## The encoder -/

/-- The dibit of a byte: `0x03 & (byte >> shift)`. -/
def dibitAt (byte : UInt8) (shift : Nat) : Fin 4 := Fin.ofNat 4 (byte.toNat >>> shift)

/-- The arrays of `encode_helper`: what is written so far, the bytes that the coders have, and the
states of the coders. -/
structure EncodeArrays where
  output : List (Fin 8)
  trellisBuffer : Nat → UInt8
  enc : Nat → Fin 8

/-- What `encode_helper` does at each place of the loops. -/
def EncodeArrays.step (input : List UInt8) (a : EncodeArrays) : MuxEvent → EncodeArrays
  | .load encoder byte =>
      { a with trellisBuffer := Function.update a.trellisBuffer encoder (input.getD byte 0) }
  | .sync _ => { a with output := a.output ++ [6, 1, 1, 6] }
  | .code encoder shift _ =>
      let coded := basicEncode (a.enc encoder) (dibitAt (a.trellisBuffer encoder) shift)
      { a with
        output := a.output ++ [coded.1]
        enc := Function.update a.enc encoder coded.2 }

/-- The bytes of a group of packets: the copy into a contiguous buffer. -/
def groupBytes (group : Fin 12 → AtscMpegPacketRsEncoded) : List UInt8 :=
  (List.ofFn group).flatMap AtscMpegPacketRsEncoded.data

/-- `encode_helper` (`atsci_trellis_encoder.cc:111-207`), with its last assertions. -/
def encodeHelper (enc : Nat → Fin 8) (input : List UInt8) :
    Except CppException
      ({ output : List (Fin 8) // output.length = 12 * atscDataSegmentLength } × (Nat → Fin 8)) :=
  let done := Mux.loops.1.foldl (EncodeArrays.step input) ⟨[], fun _ => 0, enc⟩
  if whole : done.output.length = 12 * atscDataSegmentLength then
    if ncoders - 4 = Mux.loops.2.encoder then .ok (⟨done.output, whole⟩, done.enc)
    else .error .assertFailed
  else .error .assertFailed

theorem length_chunk {α : Type} {n m : Nat} {l : List α} (length : l.length = n * m) (i : Fin n) :
    ((l.drop (i * m)).take m).length = m := by
  have inside := Nat.mul_le_mul_right m (Nat.succ_le_of_lt i.isLt)
  rw [Nat.succ_mul] at inside
  rw [List.length_take, List.length_drop]
  omega

/-- `encode` (`atsci_trellis_encoder.cc:68-104`). -/
def trellisEncode (enc : Nat → Fin 8) (input : Fin 12 → AtscMpegPacketRsEncoded) :
    Except CppException ((Fin 12 → AtscDataSegment) × (Nat → Fin 8)) := do
  let _ ← sequence fun i =>
    if !(input i).pli.regularSegP then .error .assertFailed else (input i).pli.sanityCheck
  let done ← encodeHelper enc (groupBytes input)
  let out ← sequence fun i => do
    (input i).pli.sanityCheck
    if !(input i).pli.regularSegP then .error .assertFailed
    else return ⟨(input i).pli, _, length_chunk done.1.2 i⟩
  return (out, done.2)

/-! ## The tables of the decoder -/

/-- `BIT_PTR` (`atsci_viterbi_gen.cc:99`). -/
def bitPtr (byte shift : Nat) : Nat := (byte <<< 3) ||| (shift &&& 0x7)

/-- The arrays of `build_decode_structures`. -/
structure DecodeTables where
  wheredata : Nat → Nat
  syncSymbolIndices : List Nat
  encoWhichSyms : Nat → List Nat
  encoWhichDibits : Nat → List Nat

/-- What `build_decode_structures` does at each place of the loops. -/
def DecodeTables.step (t : DecodeTables) : MuxEvent → DecodeTables
  | .load encoder byte => { t with wheredata := Function.update t.wheredata encoder byte }
  | .sync symbol => { t with syncSymbolIndices := t.syncSymbolIndices ++ [symbol] }
  | .code encoder shift symbol => { t with
      encoWhichSyms := Function.update t.encoWhichSyms encoder (t.encoWhichSyms encoder ++ [symbol])
      encoWhichDibits := Function.update t.encoWhichDibits encoder
        (t.encoWhichDibits encoder ++ [bitPtr (t.wheredata encoder) shift]) }

/-- `build_decode_structures` (`atsci_viterbi_gen.cc:78-232`): what it writes to `atsci_viterbi_mux.cc`.
`trellis_wheredata` is not initialized, for which a place behind the input stands. -/
def buildDecodeStructures : DecodeTables :=
  Mux.loops.1.foldl DecodeTables.step ⟨fun _ => Mux.inputSize, [], fun _ => [], fun _ => []⟩

/-! ## The decoder -/

/-- The levels of a segment: `atsc_ds_to_softds::work` (`atsc_ds_to_softds.cc:57-72`). -/
def AtscDataSegment.soft (segment : AtscDataSegment) : AtscSoftDataSegment where
  pli := segment.pli
  data := segment.data.map fun symbol => level symbol
  length_eq := by rw [List.length_map, segment.length_eq]

/-- One decoder and its fifo. -/
structure CoderLine where
  viterbi : SingleViterbi
  fifo : InterleaverFifo (Fin 4)

/-- After the constructor (`atsci_viterbi_decoder.cc:39-64`). -/
def CoderLine.make : CoderLine := ⟨.reset, .make (atscDataSegmentLength - 4 - SingleViterbi.delay)⟩

/-- A dibit is written into a byte. -/
def putDibit (byte : UInt8) (shift : Nat) (dibit : Fin 4) : UInt8 :=
  (byte &&& ~~~(0x03 <<< UInt8.ofNat shift)) ||| (UInt8.ofNat dibit.val <<< UInt8.ofNat shift)

/-- A dibit is written where a bit pointer says. -/
def storeDibit (out : List UInt8) (dbwhere : Nat) (dibit : Fin 4) : List UInt8 :=
  out.modify (dbwhere >>> 3) fun byte => putDibit byte (dbwhere &&& 0x7) dibit

/-- A symbol is decoded, and the dibit goes through the fifo. -/
def CoderLine.step (line : CoderLine) (symbol : ℚ) : Fin 4 × CoderLine :=
  let decoded := line.viterbi.decode symbol
  let stuffed := line.fifo.stuff decoded.1
  (stuffed.1, ⟨decoded.2, stuffed.2⟩)

/-- A round of the loop over the symbols of a coder (`atsci_viterbi_decoder.cc:159-171`). -/
def decodeSymbol (symbolsIn : List ℚ) (s : CoderLine × List UInt8) (slot : Nat × Nat) :
    CoderLine × List UInt8 :=
  let dibit := s.1.step (symbolsIn.getD slot.1 0)
  (dibit.2, storeDibit s.2 slot.2 dibit.1)

/-- `decode_helper` (`atsci_viterbi_decoder.cc:104-176`). The check of the segment sync only writes
messages. -/
def decodeHelper (t : DecodeTables) (lines : Nat → CoderLine) (symbolsIn : List ℚ) :
    List UInt8 × (Nat → CoderLine) :=
  (List.range ncoders).foldl (fun s encoder =>
    let done := ((t.encoWhichSyms encoder).zip (t.encoWhichDibits encoder)).foldl
      (decodeSymbol symbolsIn) (s.2 encoder, s.1)
    (done.2, Function.update s.2 encoder done.1)) (List.replicate Mux.inputSize 0, lines)

@[simp] theorem length_storeDibit (out : List UInt8) (dbwhere : Nat) (dibit : Fin 4) :
    (storeDibit out dbwhere dibit).length = out.length :=
  List.length_modify ..

theorem length_decodeHelper (t : DecodeTables) (lines : Nat → CoderLine) (symbolsIn : List ℚ) :
    (decodeHelper t lines symbolsIn).1.length = 12 * atscMpegRsEncodedLength := by
  have inner : ∀ (slots : List (Nat × Nat)) (s : CoderLine × List UInt8),
      (slots.foldl (decodeSymbol symbolsIn) s).2.length = s.2.length := by
    intro slots
    induction slots with
    | nil => exact fun _ => rfl
    | cons slot slots ih =>
      intro s
      rw [List.foldl_cons, ih]
      exact length_storeDibit ..
  have outer : ∀ (encoders : List Nat) (s : List UInt8 × (Nat → CoderLine)),
      (encoders.foldl (fun s encoder =>
        let done := ((t.encoWhichSyms encoder).zip (t.encoWhichDibits encoder)).foldl
          (decodeSymbol symbolsIn) (s.2 encoder, s.1)
        (done.2, Function.update s.2 encoder done.1)) s).1.length = s.1.length := by
    intro encoders
    induction encoders with
    | nil => exact fun _ => rfl
    | cons encoder encoders ih =>
      intro s
      rw [List.foldl_cons, ih]
      exact inner _ _
  rw [decodeHelper, outer, List.length_replicate]
  rfl

/-- `decode` (`atsci_viterbi_decoder.cc:74-101`). -/
def viterbiDecode (t : DecodeTables) (lines : Nat → CoderLine) (input : Fin 12 → AtscSoftDataSegment) :
    Except CppException ((Fin 12 → AtscMpegPacketRsEncoded) × (Nat → CoderLine)) := do
  let _ ← sequence fun i =>
    if !(input i).pli.regularSegP then Except.error CppException.assertFailed else .ok ()
  let symbolsIn := (List.ofFn input).flatMap AtscSoftDataSegment.data
  let out ← sequence fun i => do
    let pli ← (input i).pli.delay 12
    return ⟨pli, _, length_chunk (length_decodeHelper t lines symbolsIn) i⟩
  return (out, (decodeHelper t lines symbolsIn).2)

/-!
## The tables of the trellis decoder

Between two segment syncs the coders take turns, so each gets one byte of a chunk and codes its
four dibits. The tables therefore hold every dibit of the input once.
-/

attribute [local instance] neZero_four neZero_eight

namespace Mux

/-- Where the loops are when `t` shifts are done. -/
def reached (t : Nat) : Mux where
  encoder := (8 + 4 * ((t + 68) / 69)) % 12
  skipEncoderBump := false
  out := 12 * t + 4 * ((t + 68) / 69)
  nextOutSeg := 832 * ((t + 68) / 69)

variable {m : Mux}

theorem encoder_turn (inside : m.encoder < 12) : m.turn.encoder = (m.encoder + 1) % 12 := by
  show (if m.encoder + 1 ≥ 12 then 0 else m.encoder + 1) = (m.encoder + 1) % 12
  by_cases last : m.encoder + 1 ≥ 12
  · rw [if_pos last]
    omega
  · rw [if_neg last]
    omega

theorem feed_load (inside : m.encoder < 12) (chunk n : Nat) :
    feed (load chunk) m (List.range n) =
      ((List.range n).map fun i => .load ((m.encoder + i) % 12) (chunk + i),
        { m with encoder := (m.encoder + n) % 12 }) := by
  induction n with
  | zero => simp [Nat.mod_eq_of_lt inside]
  | succ n ih =>
    have next := encoder_turn (m := { m with encoder := (m.encoder + n) % 12 })
      (Nat.mod_lt _ (by decide))
    rw [Nat.mod_add_mod] at next
    rw [List.range_succ, feed_append, ih, List.map_append]
    refine Prod.ext rfl ?_
    simp only [feed_cons, feed_nil, load]
    rw [Mux.mk.injEq]
    exact ⟨next, rfl, rfl, rfl⟩

theorem feed_code (inside : m.encoder < 12) (shift n : Nat) :
    feed (code shift) m (List.range n) =
      ((List.range n).map fun i => .code ((m.encoder + i) % 12) shift (m.out + i),
        { m with encoder := (m.encoder + n) % 12, out := m.out + n }) := by
  induction n with
  | zero => simp [Nat.mod_eq_of_lt inside]
  | succ n ih =>
    have next := encoder_turn
      (m := { m with encoder := (m.encoder + n) % 12, out := m.out + n }) (Nat.mod_lt _ (by decide))
    rw [Nat.mod_add_mod] at next
    rw [List.range_succ, feed_append, ih, List.map_append]
    refine Prod.ext rfl ?_
    simp only [feed_cons, feed_nil, code]
    rw [Mux.mk.injEq]
    exact ⟨next, rfl, rfl, rfl⟩

/-- The twelve symbols after a bit shift. -/
def codes (encoder shift out : Nat) : List MuxEvent :=
  (List.range 12).map fun i => .code ((encoder + i) % 12) shift (out + i)

theorem feed_codes (inside : m.encoder < 12) (shift : Nat) :
    feed (code shift) m (List.range ncoders) =
      (codes m.encoder shift m.out, { m with out := m.out + 12 }) := by
  rw [feed_code inside]
  simp only [ncoders, codes, Nat.add_mod_right, Nat.mod_eq_of_lt inside]

/-- The symbols are written one behind the other, from one place to another. -/
def Placed : Nat → List MuxEvent → Nat → Prop
  | out, [], last => out = last
  | out, .load .. :: events, last => Placed out events last
  | out, .sync symbol :: events, last => symbol = out ∧ Placed (out + 4) events last
  | out, .code _ shift symbol :: events, last =>
      shift < 8 ∧ symbol = out ∧ Placed (out + 1) events last

theorem Placed.append {events rest : List MuxEvent} {out middle last : Nat}
    (first : Placed out events middle) (second : Placed middle rest last) :
    Placed out (events ++ rest) last := by
  induction events generalizing out with
  | nil =>
    obtain rfl : out = middle := first
    exact second
  | cons event events ih =>
    cases event with
    | load => exact ih first
    | sync => exact ⟨first.1, ih first.2⟩
    | code => exact ⟨first.1, first.2.1, ih first.2.2⟩

variable {shift encoder : Nat}

theorem placed_codes (small : shift < 8) (encoder out : Nat) :
    Placed out (codes encoder shift out) (out + 12) := by
  have some : ∀ n, Placed out ((List.range n).map fun i =>
      .code ((encoder + i) % 12) shift (out + i)) (out + n) := by
    intro n
    induction n with
    | zero => rfl
    | succ n ih =>
      rw [List.range_succ, List.map_append]
      exact ih.append ⟨small, rfl, rfl⟩
  exact some 12

/-- What the loops do in a bit shift. -/
structure Shifted (shift : Nat) (m : Mux) (done : List MuxEvent × Mux) : Prop where
  events : ∃ front encoder out, (front = [] ∨ front = [.sync m.out]) ∧ encoder < 12 ∧
    done.1 = front ++ codes encoder shift out
  placed : Placed m.out done.1 done.2.out
  encoder_lt : done.2.encoder < 12

theorem shifted (inside : m.encoder < 12) (small : shift < 8) :
    Shifted shift m (m.shift shift) := by
  unfold Mux.shift
  split
  · have turned : (if m.skipEncoderBump then m else m.bump).encoder < 12 := by
      split
      · exact inside
      · exact Nat.mod_lt _ (by decide)
    simp only
    rw [feed_codes (by exact turned)]
    exact ⟨⟨[.sync m.out], _, _, Or.inr rfl, turned, rfl⟩, ⟨rfl, placed_codes small _ _⟩, turned⟩
  · rw [feed_codes inside]
    exact ⟨⟨[], _, _, Or.inl rfl, inside, rfl⟩, placed_codes small _ _, inside⟩

/-- The state before a bit shift: at the beginning of a chunk the coders have jumped already. -/
def before (first : Bool) (t : Nat) : Mux :=
  if first ∧ t % 69 = 0 then { (reached t).bump with skipEncoderBump := true } else reached t

theorem encoder_before (first : Bool) (t : Nat) : (before first t).encoder < 12 := by
  unfold before
  split
  · exact Nat.mod_lt _ (by decide)
  · exact Nat.mod_lt _ (by decide)

theorem shift_before (first : Bool) (t shift : Nat) :
    (Mux.shift (before first t) shift).2 = reached (t + 1) := by
  by_cases due : t % 69 = 0
  · have now : (before first t).out ≥ (before first t).nextOutSeg := by
      unfold before
      split <;> simp only [bump, reached] <;> omega
    have turned : (if (before first t).skipEncoderBump then before first t
        else (before first t).bump).encoder = (reached (t + 1)).encoder := by
      cases first <;> simp [before, due, bump, reached, ncoders] <;> omega
    have out : (before first t).out = (reached t).out := by
      unfold before
      split <;> rfl
    unfold Mux.shift
    rw [if_pos now]
    simp only
    rw [feed_codes (by rw [turned]; exact Nat.mod_lt _ (by decide)), Mux.mk.injEq]
    refine ⟨turned, rfl, ?_, ?_⟩
    · simp only [out, reached]
      omega
    · simp only [out, reached, atscMpegRsEncodedLength]
      omega
  · have same : before first t = reached t := by simp [before, due]
    have later : ¬(reached t).out ≥ (reached t).nextOutSeg := by
      show ¬12 * t + 4 * ((t + 68) / 69) ≥ 832 * ((t + 68) / 69)
      omega
    unfold Mux.shift
    rw [same, if_neg later, feed_codes (Nat.mod_lt _ (by decide)), Mux.mk.injEq]
    refine ⟨?_, rfl, ?_, ?_⟩
    all_goals
      simp only [reached]
      omega

/-- Whether something is about a coder. -/
def about (encoder : Nat) : MuxEvent → Bool
  | .load e _ | .code e _ _ => e == encoder
  | .sync _ => false

/-- What a coder does in a chunk: it gets a byte, and codes it. -/
def Turn (encoder byte : Nat) (events : List MuxEvent) : Prop :=
  ∃ a b c d, events.filter (about encoder) = [.load encoder byte, .code encoder 6 a,
    .code encoder 4 b, .code encoder 2 c, .code encoder 0 d]

theorem range_filter : ∀ encoder < 12, ∀ first < 12,
    (List.range 12).filter (fun i => (first + i) % 12 == encoder) =
      [(encoder + (12 - first)) % 12] := by
  decide

theorem turn_back {first : Nat} (inside : first < 12) (coder : encoder < 12) :
    (first + (encoder + (12 - first)) % 12) % 12 = encoder := by
  omega

/-- The bytes that the coders get in a chunk. -/
def loads (first chunk : Nat) : List MuxEvent :=
  (List.range 12).map fun i => .load ((first + i) % 12) (chunk + i)

theorem filter_loads {first : Nat} (inside : first < 12) (coder : encoder < 12)
    (chunk : Nat) : (loads first chunk).filter (about encoder) =
      [.load encoder (chunk + (encoder + (12 - first)) % 12)] := by
  have turn := range_filter encoder coder first inside
  rw [loads, List.filter_map]
  show ((List.range 12).filter fun i => (first + i) % 12 == encoder).map _ = _
  rw [turn, List.map_singleton, turn_back inside coder]

theorem filter_codes {first : Nat} (inside : first < 12) (coder : encoder < 12)
    (shift out : Nat) : (codes first shift out).filter (about encoder) =
      [.code encoder shift (out + (encoder + (12 - first)) % 12)] := by
  have turn := range_filter encoder coder first inside
  rw [codes, List.filter_map]
  show ((List.range 12).filter fun i => (first + i) % 12 == encoder).map _ = _
  rw [turn, List.map_singleton, turn_back inside coder]

theorem Shifted.filter {done : List MuxEvent × Mux} (shifted : Shifted shift m done)
    (coder : encoder < 12) :
    ∃ symbol, done.1.filter (about encoder) = [.code encoder shift symbol] := by
  obtain ⟨front, first, out, sync, inside, events⟩ := shifted.events
  have none : front.filter (about encoder) = [] := by
    rcases sync with rfl | rfl <;> rfl
  exact ⟨_, by rw [events, List.filter_append, none, filter_codes inside coder]; rfl⟩

/-- The first coder of a chunk. -/
def first (k : Nat) : Nat := (before true (4 * k)).encoder

/-- The byte that a coder gets in a chunk. -/
def place (k encoder : Nat) : Nat := k * 12 + (encoder + (12 - first k)) % 12

theorem placed_loads (first chunk out : Nat) : Placed out (loads first chunk) out := by
  have some : ∀ events : List MuxEvent, (∀ event ∈ events, ∃ e b, event = .load e b) →
      Placed out events out := by
    intro events all
    induction events with
    | nil => rfl
    | cons event events ih =>
      obtain ⟨e, b, rfl⟩ := all event List.mem_cons_self
      exact ih fun other member => all other (List.mem_cons_of_mem _ member)
  apply some
  intro event member
  obtain ⟨i, -, rfl⟩ := List.mem_map.mp member
  exact ⟨_, _, rfl⟩

theorem begun (t : Nat) :
    (if (reached t).out ≥ (reached t).nextOutSeg then
      { (reached t).bump with skipEncoderBump := true } else reached t) = before true t := by
  have due : (reached t).out ≥ (reached t).nextOutSeg ↔ t % 69 = 0 := by
    show 12 * t + 4 * ((t + 68) / 69) ≥ 832 * ((t + 68) / 69) ↔ t % 69 = 0
    omega
  simp only [before, due, true_and]

theorem shift_reached (t shift : Nat) : (Mux.shift (reached t) shift).2 = reached (t + 1) := by
  have same : before false t = reached t := by simp [before]
  rw [← same]
  exact shift_before false t shift

theorem chunk_reached (k : Nat) :
    (∀ encoder < 12, Turn encoder (place k encoder) ((reached (4 * k)).chunk (k * 12)).1) ∧
      Placed (reached (4 * k)).out ((reached (4 * k)).chunk (k * 12)).1
        (reached (4 * (k + 1))).out ∧
      ((reached (4 * k)).chunk (k * 12)).2 = reached (4 * (k + 1)) := by
  have inside := encoder_before true (4 * k)
  have dealt : feed (load (k * 12)) (before true (4 * k)) (List.range ncoders) =
      (loads (first k) (k * 12), before true (4 * k)) := by
    rw [feed_load inside]
    refine Prod.ext rfl ?_
    simp only [ncoders, Nat.add_mod_right, Nat.mod_eq_of_lt inside]
  have six := shifted inside (show 6 < 8 by decide)
  have four := shifted (m := reached (4 * k + 1)) (Nat.mod_lt _ (by decide)) (show 4 < 8 by decide)
  have two := shifted (m := reached (4 * k + 2)) (Nat.mod_lt _ (by decide)) (show 2 < 8 by decide)
  have zero := shifted (m := reached (4 * k + 3)) (Nat.mod_lt _ (by decide)) (show 0 < 8 by decide)
  have out : (before true (4 * k)).out = (reached (4 * k)).out := by
    unfold before
    split <;> rfl
  have whole : (reached (4 * k)).chunk (k * 12) =
      (loads (first k) (k * 12) ++ ((Mux.shift (before true (4 * k)) 6).1 ++
        ((Mux.shift (reached (4 * k + 1)) 4).1 ++ ((Mux.shift (reached (4 * k + 2)) 2).1 ++
          (Mux.shift (reached (4 * k + 3)) 0).1))), reached (4 * (k + 1))) := by
    simp only [chunk, begun, dealt, feed_cons, feed_nil, shift_before, shift_reached,
      List.flatten_cons, List.flatten_nil, List.append_nil]
    rfl
  rw [whole]
  refine ⟨fun encoder coder => ?_, ?_, rfl⟩
  · obtain ⟨a, filter₆⟩ := six.filter coder
    obtain ⟨b, filter₄⟩ := four.filter coder
    obtain ⟨c, filter₂⟩ := two.filter coder
    obtain ⟨d, filter₀⟩ := zero.filter coder
    refine ⟨a, b, c, d, ?_⟩
    have loaded : (loads (first k) (k * 12)).filter (about encoder) =
        [.load encoder (place k encoder)] := filter_loads inside coder _
    rw [List.filter_append, List.filter_append, List.filter_append, List.filter_append, filter₆,
      filter₄, filter₂, filter₀, loaded]
    rfl
  · have placed₆ := six.placed
    have placed₄ := four.placed
    have placed₂ := two.placed
    have placed₀ := zero.placed
    rw [shift_before, out] at placed₆
    rw [shift_reached] at placed₄ placed₂ placed₀
    exact (placed_loads _ _ _).append
      (placed₆.append (placed₄.append (placed₂.append placed₀)))

theorem feed_chunk (n : Nat) :
    ∃ events, feed chunk start ((List.range n).map (· * ncoders)) = (events, reached (4 * n)) ∧
      Placed 0 events.flatten (reached (4 * n)).out ∧ events.length = n ∧
      ∀ k chunk, events[k]? = some chunk →
        ∀ encoder < 12, Turn encoder (place k encoder) chunk := by
  induction n with
  | zero => exact ⟨[], rfl, rfl, rfl, by simp⟩
  | succ n ih =>
    obtain ⟨events, fed, placed, length, turns⟩ := ih
    obtain ⟨turn, more, next⟩ := chunk_reached n
    refine ⟨events ++ [((reached (4 * n)).chunk (n * 12)).1], ?_, ?_, ?_, ?_⟩
    · rw [List.range_succ, List.map_append, feed_append, fed, List.map_cons, List.map_nil, feed_cons,
        feed_nil]
      rw [show n * ncoders = n * 12 from rfl, next]
    · rw [List.flatten_append, List.flatten_singleton]
      exact placed.append more
    · rw [List.length_append, length, List.length_singleton]
    · clear fed placed more next
      intro k chunk here
      rcases Nat.lt_or_ge k n with less | last
      · rw [List.getElem?_append_left (by omega)] at here
        exact turns k chunk here
      · have same : k = n := by
          have inside := (List.getElem?_eq_some_iff.mp here).1
          rw [List.length_append, length, List.length_singleton] at inside
          omega
        subst same
        rw [← length, List.getElem?_concat_length] at here
        rw [length] at here
        exact Option.some.inj here ▸ turn

theorem loops_spec :
    (∃ events : List (List MuxEvent), loops.1 = events.flatten ∧ events.length = 207 ∧
      ∀ k chunk, events[k]? = some chunk →
        ∀ encoder < 12, Turn encoder (place k encoder) chunk) ∧
      Placed 0 loops.1 (reached 828).out ∧ loops.2 = reached 828 := by
  obtain ⟨events, fed, placed, length, turns⟩ := feed_chunk 207
  have chunks : feed chunk start ((List.range atscMpegRsEncodedLength).map (· * ncoders)) =
      (events, reached 828) := fed
  have whole : loops = (events.flatten, reached 828) := by rw [loops, chunks]
  rw [whole]
  exact ⟨⟨events, rfl, length, turns⟩, placed, rfl⟩

end Mux

/-! ## The dibits of a coder -/

open Mux

/-- The places of the dibits of a byte, in the order in which they are coded. -/
def bytePtrs (byte : Nat) : List Nat := [6, 4, 2, 0].map (bitPtr byte)

/-- One coder's part of `DecodeTables.step`. -/
def coderStep (s : Nat × List Nat) : MuxEvent → Nat × List Nat
  | .load _ byte => (byte, s.2)
  | .sync _ => s
  | .code _ shift _ => (s.1, s.2 ++ [bitPtr s.1 shift])

theorem foldl_coderStep (encoder : Nat) (t : DecodeTables) (events : List MuxEvent) :
    ((events.foldl DecodeTables.step t).wheredata encoder,
      (events.foldl DecodeTables.step t).encoWhichDibits encoder) =
        (events.filter (about encoder)).foldl coderStep
          (t.wheredata encoder, t.encoWhichDibits encoder) := by
  refine foldl_filter (fun t : DecodeTables => (t.wheredata encoder, t.encoWhichDibits encoder))
    ?_ ?_ t events
  · intro t event mine
    cases event with
    | sync => cases mine
    | load e byte =>
      obtain rfl := eq_of_beq mine
      simp [DecodeTables.step, coderStep]
    | code e shift symbol =>
      obtain rfl := eq_of_beq mine
      simp [DecodeTables.step, coderStep]
  · intro t event other
    cases event with
    | sync => rfl
    | load e byte =>
      have ne : encoder ≠ e := by
        rintro rfl
        simp [about] at other
      simp [DecodeTables.step, ne]
    | code e shift symbol =>
      have ne : encoder ≠ e := by
        rintro rfl
        simp [about] at other
      simp [DecodeTables.step, ne]

variable {encoder shift byte : Nat}

theorem encoWhichDibits_eq (coder : encoder < 12) :
    buildDecodeStructures.encoWhichDibits encoder =
      (List.range 207).flatMap fun k => bytePtrs (place k encoder) := by
  obtain ⟨⟨events, whole, length, turns⟩, -, -⟩ := loops_spec
  have some : ∀ n ≤ events.length, ∀ t : DecodeTables,
      ((events.take n).flatten.foldl DecodeTables.step t).encoWhichDibits encoder =
        t.encoWhichDibits encoder ++ (List.range n).flatMap fun k => bytePtrs (place k encoder) := by
    intro n within t
    induction n with
    | zero => simp
    | succ n ih =>
      obtain ⟨a, b, c, d, turn⟩ := turns n events[n] (List.getElem?_eq_getElem (by omega)) encoder
        coder
      have one := foldl_coderStep encoder ((events.take n).flatten.foldl DecodeTables.step t)
        events[n]
      rw [turn, ih (by omega)] at one
      rw [List.take_succ_eq_append_getElem (by omega), List.flatten_append, List.foldl_append,
        List.flatten_singleton, List.range_succ, List.flatMap_append, List.flatMap_singleton]
      rw [(Prod.mk.inj one).2]
      simp [coderStep, bytePtrs]
  have all := some events.length le_rfl ⟨fun _ => Mux.inputSize, [], fun _ => [], fun _ => []⟩
  rw [List.take_length, ← whole, length] at all
  rw [buildDecodeStructures, all]
  exact List.nil_append _

theorem length_encoWhichDibits (coder : encoder < 12) :
    (buildDecodeStructures.encoWhichDibits encoder).length = 828 := by
  have some : ∀ n, ((List.range n).flatMap fun k => bytePtrs (place k encoder)).length = 4 * n := by
    intro n
    induction n with
    | zero => rfl
    | succ n ih =>
      rw [List.range_succ, List.flatMap_append, List.length_append, ih, List.flatMap_singleton]
      rfl
  rw [encoWhichDibits_eq coder, some]

theorem bitPtr_eq (byte : Nat) (small : shift < 8) : bitPtr byte shift = 8 * byte + shift := by
  have low : shift &&& 0x7 = shift := by
    rw [show 0x7 = 2 ^ 3 - 1 from rfl, Nat.and_two_pow_sub_one_eq_mod, Nat.mod_eq_of_lt small]
  rw [bitPtr, low, Nat.shiftLeft_eq, Nat.mul_comm, ← Nat.two_pow_add_eq_or_of_lt small]

theorem bitPtr_byte (byte : Nat) (small : shift < 8) : bitPtr byte shift >>> 3 = byte := by
  rw [bitPtr_eq byte small, Nat.shiftRight_eq_div_pow]
  omega

theorem bitPtr_shift (byte : Nat) (small : shift < 8) : bitPtr byte shift &&& 0x7 = shift := by
  rw [bitPtr_eq byte small, show 0x7 = 2 ^ 3 - 1 from rfl, Nat.and_two_pow_sub_one_eq_mod]
  omega

theorem mem_bytePtrs {ptr : Nat} :
    ptr ∈ bytePtrs byte ↔ ∃ shift ∈ [6, 4, 2, 0], ptr = bitPtr byte shift := by
  simp only [bytePtrs, List.mem_map]
  exact exists_congr fun shift => and_congr_right fun _ => eq_comm

theorem shift_lt (member : shift ∈ [6, 4, 2, 0]) : shift < 8 := by
  simp at member
  omega

/-- The coder that codes a byte. -/
def coderOf (byte : Nat) : Nat := (Mux.first (byte / 12) + byte % 12) % 12

theorem coderOf_lt (byte : Nat) : coderOf byte < 12 := Nat.mod_lt _ (by decide)

theorem place_eq_iff {k : Nat} (coder : encoder < 12) :
    place k encoder = byte ↔ k = byte / 12 ∧ encoder = coderOf byte := by
  have inside : Mux.first k < 12 := encoder_before true (4 * k)
  unfold place coderOf
  constructor
  · intro same
    have chunk : k = byte / 12 := by omega
    refine ⟨chunk, ?_⟩
    rw [← chunk]
    omega
  · intro ⟨chunk, same⟩
    rw [← chunk] at same
    omega

theorem mem_encoWhichDibits (coder : encoder < 12) (small : byte < inputSize)
    (member : shift ∈ [6, 4, 2, 0]) :
    bitPtr byte shift ∈ buildDecodeStructures.encoWhichDibits encoder ↔ encoder = coderOf byte := by
  rw [encoWhichDibits_eq coder, List.mem_flatMap]
  constructor
  · intro ⟨k, _, inside⟩
    obtain ⟨other, among, same⟩ := mem_bytePtrs.mp inside
    rw [bitPtr_eq _ (shift_lt member), bitPtr_eq _ (shift_lt among)] at same
    have := shift_lt member
    have := shift_lt among
    have placed : place k encoder = byte := by omega
    exact ((place_eq_iff coder).mp placed).2
  · intro same
    have within : byte < 207 * 12 := small
    refine ⟨byte / 12, List.mem_range.mpr (by omega), mem_bytePtrs.mpr ⟨shift, member, ?_⟩⟩
    rw [(place_eq_iff coder).mpr ⟨rfl, same⟩]

theorem nodup_bytePtrs (byte : Nat) : (bytePtrs byte).Nodup := by
  simp [bytePtrs, bitPtr_eq]

theorem byte_eq_of_mem {other ptr : Nat} (here : ptr ∈ bytePtrs byte)
    (there : ptr ∈ bytePtrs other) : byte = other := by
  obtain ⟨shift, member, rfl⟩ := mem_bytePtrs.mp here
  obtain ⟨shift', member', same⟩ := mem_bytePtrs.mp there
  have := shift_lt member
  have := shift_lt member'
  rw [bitPtr_eq _ (by omega), bitPtr_eq _ (by omega)] at same
  omega

theorem nodup_encoWhichDibits (coder : encoder < 12) :
    (buildDecodeStructures.encoWhichDibits encoder).Nodup := by
  rw [encoWhichDibits_eq coder, List.nodup_flatMap]
  refine ⟨fun k _ => nodup_bytePtrs _, List.nodup_range.imp fun {k l} other => ?_⟩
  intro ptr here there
  have chunk := ((place_eq_iff coder).mp (byte_eq_of_mem here there)).1
  have chunk' := ((place_eq_iff (k := l) coder).mp rfl).1
  omega

theorem count_encoWhichDibits (coder : encoder < 12) (small : byte < inputSize)
    (member : shift ∈ [6, 4, 2, 0]) :
    (buildDecodeStructures.encoWhichDibits encoder).count (bitPtr byte shift) =
      if encoder = coderOf byte then 1 else 0 := by
  have mem := mem_encoWhichDibits coder small member
  rw [(nodup_encoWhichDibits coder).count]
  by_cases same : encoder = coderOf byte
  · rw [if_pos (mem.mpr same), if_pos same]
  · rw [if_neg (mt mem.mp same), if_neg same]

end GnuRadio
