import GnuRadio.Misc.LittleEndian
import GnuRadio.Packet.FramerSink1

/-!
# The OFDM mapper

`gr_ofdm_mapper_bcv` cuts the bytes of messages into values of `d_nbits` bits, the least
significant bits first, and puts them on the carriers of OFDM symbols. A message starts on a
symbol of its own, and what is left of its last symbol is filled with random values.
-/

namespace GnuRadio

/-- `gr_ofdm_mapper_bcv` (`gr_ofdm_mapper_bcv.h:61-79`). The queue is what waits in it. -/
structure OfdmMapper where
  msgq : List GrMessage
  msg : Option GrMessage
  msgOffset : Nat
  eof : Bool
  bitOffset : Nat
  pendingFlag : Bool
  msgbytes : UInt8
  resid : Nat
  nresid : Nat
  deriving DecidableEq, Repr

/-- What one call puts out: the flag, and the index of the constellation point on each of the
used carriers, in the order of `d_subcarrier_map`. -/
structure OfdmSymbol where
  flag : Bool
  values : List Nat
  deriving DecidableEq, Repr

/-- What a call of `work` does: it waits in `delete_head`, or returns -1, or makes a symbol. -/
inductive MapperResult where
  | waits
  | done
  | symbol (symbol : OfdmSymbol)
  deriving DecidableEq, Repr

namespace OfdmMapper

/-- A new mapper (`gr_ofdm_mapper_bcv.cc:44-59`); `d_msgbytes` may hold anything. -/
def init : OfdmMapper where
  msgq := []
  msg := none
  msgOffset := 0
  eof := false
  bitOffset := 0
  pendingFlag := false
  msgbytes := 0
  resid := 0
  nresid := 0

/-- `randsym` (`gr_ofdm_mapper_bcv.cc:122-126`), where `rand` says what `rand()` returns for a
carrier. -/
def randsym (nbits : Nat) (rand : Nat → Nat) (i : Nat) : Nat := rand i % 2 ^ nbits

/-- Values are cut from the byte in hand: the first branch of the loop completes the residual bits,
the second takes a whole value, and the third keeps what is left of the byte. -/
def cut (nbits : Nat) (mapper : OfdmMapper) : OfdmMapper × Option Nat :=
  if 0 < mapper.nresid then
    let bits := (mapper.resid |||
      (((1 <<< mapper.nresid) - 1) &&& mapper.msgbytes.toNat) <<< (nbits - mapper.nresid)) % 256
    ({ mapper with
        bitOffset := mapper.bitOffset + mapper.nresid
        nresid := 0
        resid := 0 }, some bits)
  else if nbits ≤ 8 - mapper.bitOffset then
    ({ mapper with bitOffset := mapper.bitOffset + nbits },
      some (((1 <<< nbits) - 1) &&& (mapper.msgbytes.toNat >>> mapper.bitOffset)))
  else
    let extra := 8 - mapper.bitOffset
    ({ mapper with
        resid := ((1 <<< extra) - 1) &&& (mapper.msgbytes.toNat >>> mapper.bitOffset)
        bitOffset := mapper.bitOffset + extra
        nresid := nbits - extra }, none)

/-- The byte at `d_msg_offset`, taken up when none of its bits was read. -/
def load (bytes : List UInt8) (mapper : OfdmMapper) : OfdmMapper :=
  if mapper.bitOffset = 0 then { mapper with msgbytes := bytes.getD mapper.msgOffset 0 }
  else mapper

/-- On to the next byte when all bits of this one were read. -/
def advance (mapper : OfdmMapper) : OfdmMapper :=
  if mapper.bitOffset = 8 then
    { mapper with
      bitOffset := 0
      msgOffset := mapper.msgOffset + 1 }
  else mapper

/-- The loop that fills carriers with the message (`gr_ofdm_mapper_bcv.cc:169-213`). Every round
reads a bit or more, so the bits of the message are fuel enough (`fill_sending`). -/
def fill (nbits carriers : Nat) (bytes : List UInt8) :
    Nat → OfdmMapper → List Nat → OfdmMapper × List Nat
  | 0, mapper, values => (mapper, values)
  | fuel + 1, mapper, values =>
    if mapper.msgOffset < bytes.length ∧ values.length < carriers then
      let (mapper, value) := cut nbits (load bytes mapper)
      fill nbits carriers bytes fuel (advance mapper) (values ++ value.toList)
    else (mapper, values)

/-- The end of a message: residual bits go into `bits`, which is not put on a carrier. -/
def dropResid (mapper : OfdmMapper) : OfdmMapper :=
  if 0 < mapper.nresid then
    { mapper with
      nresid := 0
      resid := 0 }
  else mapper

/-- `work` from the message on (`gr_ofdm_mapper_bcv.cc:159-241`). -/
def makeSymbol (nbits carriers : Nat) (rand : Nat → Nat) (msg : GrMessage) (mapper : OfdmMapper) :
    Except CppException (MapperResult × OfdmMapper) :=
  let (mapper, values) := fill nbits carriers msg.msg (8 * msg.msg.length) mapper []
  if mapper.msgOffset = msg.msg.length then
    let mapper := dropResid mapper
    let random := (List.range' values.length (carriers - values.length)).map (randsym nbits rand)
    let mapper := { mapper with
      eof := mapper.eof || msg.type == 1
      msg := none }
    if mapper.bitOffset ≠ 0 then .error .assertFailed
    else .ok (.symbol ⟨mapper.pendingFlag, values ++ random⟩, { mapper with pendingFlag := false })
  else .ok (.symbol ⟨mapper.pendingFlag, values⟩, { mapper with pendingFlag := false })

/-- `gr_ofdm_mapper_bcv::work` (`gr_ofdm_mapper_bcv.cc:128-241`) for a constellation of `2 ^ nbits`
points and so many used carriers. -/
def work (nbits carriers : Nat) (rand : Nat → Nat) (mapper : OfdmMapper) :
    Except CppException (MapperResult × OfdmMapper) :=
  if mapper.eof then .ok (.done, mapper)
  else
    match mapper.msg with
    | some msg => makeSymbol nbits carriers rand msg mapper
    | none =>
      match mapper.msgq with
      | [] => .ok (.waits, mapper)
      | msg :: msgq =>
        let mapper := { mapper with
          msgq
          msg := some msg
          msgOffset := 0
          bitOffset := 0
          pendingFlag := true }
        if msg.msg.length = 0 ∧ msg.type = 1 then .ok (.done, { mapper with msg := none })
        else makeSymbol nbits carriers rand msg mapper

/-! ## What is on the carriers -/

def pending (nbits : Nat) (mapper : OfdmMapper) : List Bool :=
  if 0 < mapper.nresid then bitsLE (nbits - mapper.nresid) mapper.resid else []

/-- The values on the carriers and the residual bits are the bits that were read. -/
structure Sending (nbits : Nat) (bytes : List UInt8) (values : List Nat) (mapper : OfdmMapper) :
    Prop where
  inside : mapper.msgOffset ≤ bytes.length
  bitOffset : mapper.bitOffset < 8
  nresid : mapper.nresid < nbits
  resid : 0 < mapper.nresid → mapper.resid < 2 ^ (nbits - mapper.nresid)
  whole : 0 < mapper.nresid → mapper.bitOffset = 0
  byte : 0 < mapper.bitOffset → bytes[mapper.msgOffset]? = some mapper.msgbytes
  small : ∀ value ∈ values, value < 2 ^ nbits
  bits : wordBits nbits values ++ mapper.pending nbits =
    byteBitsLE (bytes.take mapper.msgOffset) ++
      bitsLE mapper.bitOffset mapper.msgbytes.toNat

/-- How many bits of the message were read. -/
def read (mapper : OfdmMapper) : Nat := 8 * mapper.msgOffset + mapper.bitOffset

/-- A round of the loop leaves the queue and the message alone. -/
structure SameMessage (mapper next : OfdmMapper) : Prop where
  msgq : next.msgq = mapper.msgq
  msg : next.msg = mapper.msg
  eof : next.eof = mapper.eof
  pendingFlag : next.pendingFlag = mapper.pendingFlag

theorem SameMessage.refl (mapper : OfdmMapper) : SameMessage mapper mapper := ⟨rfl, rfl, rfl, rfl⟩

theorem SameMessage.trans {first second third : OfdmMapper} (one : SameMessage first second)
    (two : SameMessage second third) : SameMessage first third :=
  ⟨two.msgq.trans one.msgq, two.msg.trans one.msg, two.eof.trans one.eof,
    two.pendingFlag.trans one.pendingFlag⟩

section
variable {nbits carriers : Nat} {bytes : List UInt8} {values : List Nat} {mapper : OfdmMapper}

theorem Sending.load (sending : Sending nbits bytes values mapper)
    (more : mapper.msgOffset < bytes.length) :
    Sending nbits bytes values (mapper.load bytes) ∧
      bytes[(mapper.load bytes).msgOffset]? = some (mapper.load bytes).msgbytes ∧
      (mapper.load bytes).read = mapper.read ∧ SameMessage mapper (mapper.load bytes) := by
  rw [OfdmMapper.load]
  split
  · rename_i zero
    refine ⟨⟨sending.inside, sending.bitOffset, sending.nresid, sending.resid, sending.whole, ?_,
      sending.small, ?_⟩, ?_, rfl, rfl, rfl, rfl, rfl⟩
    · intro positive
      exact absurd zero positive.ne'
    · have bits := sending.bits
      rw [zero] at bits
      simpa [zero, pending] using bits
    · simp [List.getD_eq_getElem?_getD, more]
  · rename_i positive
    exact ⟨sending, sending.byte (Nat.pos_of_ne_zero positive), rfl, SameMessage.refl _⟩

/-- What cutting does, before the byte is left. -/
structure Cut (nbits : Nat) (bytes : List UInt8) (values : List Nat) (mapper next : OfdmMapper) :
    Prop where
  msgOffset : next.msgOffset = mapper.msgOffset
  msgbytes : next.msgbytes = mapper.msgbytes
  forward : mapper.bitOffset < next.bitOffset
  bitOffset : next.bitOffset ≤ 8
  nresid : next.nresid < nbits
  resid : 0 < next.nresid → next.resid < 2 ^ (nbits - next.nresid)
  whole : 0 < next.nresid → next.bitOffset = 8
  small : ∀ value ∈ values, value < 2 ^ nbits
  bits : wordBits nbits values ++ next.pending nbits =
    byteBitsLE (bytes.take mapper.msgOffset) ++ bitsLE next.bitOffset mapper.msgbytes.toNat
  same : SameMessage mapper next

theorem Sending.cut (sending : Sending nbits bytes values mapper) (width : nbits ≤ 8) :
    Cut nbits bytes (values ++ (mapper.cut nbits).2.toList) mapper (mapper.cut nbits).1 := by
  have small := sending.small
  have bits := sending.bits
  rw [OfdmMapper.cut]
  split
  · -- the residual bits are completed from the beginning of a byte
    rename_i residual
    have start := sending.whole residual
    have nresid := sending.nresid
    have split : nbits - mapper.nresid + mapper.nresid = nbits := Nat.sub_add_cancel nresid.le
    have bound := or_lt (sending.resid residual) (mask_lt mapper.nresid mapper.msgbytes.toNat)
    have byte : 2 ^ nbits ≤ 256 := Nat.pow_le_pow_right (by decide) width
    have value := bitsLE_or (sending.resid residual) mapper.nresid
      (((1 <<< mapper.nresid) - 1) &&& mapper.msgbytes.toNat)
    rw [split] at bound value
    rw [bitsLE_mask] at value
    rw [pending, if_pos residual, start, bitsLE_zero, List.append_nil] at bits
    refine ⟨rfl, rfl, ?_, ?_, ?_, ?_, ?_, ?_, ?_, ⟨rfl, rfl, rfl, rfl⟩⟩
    · exact Nat.lt_add_of_pos_right residual
    · dsimp only
      omega
    · exact Nat.zero_lt_of_lt nresid
    · intro positive
      exact absurd positive (lt_irrefl 0)
    · intro positive
      exact absurd positive (lt_irrefl 0)
    · simp only [Option.toList_some, List.forall_mem_append, List.forall_mem_singleton]
      exact ⟨small, by rwa [Nat.mod_eq_of_lt (bound.trans_le byte)]⟩
    · rw [Option.toList_some, wordBits_append, wordBits_cons, wordBits_nil, List.append_nil,
        Nat.mod_eq_of_lt (bound.trans_le byte), value, ← List.append_assoc, bits]
      simp [pending, start]
  · rename_i noResidual
    have none : mapper.nresid = 0 := by omega
    rw [pending, if_neg noResidual, List.append_nil] at bits
    split
    · rename_i fits
      refine ⟨rfl, rfl, ?_, ?_, sending.nresid, sending.resid, ?_, ?_, ?_, ⟨rfl, rfl, rfl, rfl⟩⟩
      · have positive := sending.nresid
        dsimp only
        omega
      · have inside := sending.bitOffset
        dsimp only
        omega
      · intro positive
        exact absurd positive noResidual
      · simp only [Option.toList_some, List.forall_mem_append, List.forall_mem_singleton]
        exact ⟨small, mask_lt _ _⟩
      · rw [Option.toList_some, wordBits_append, wordBits_cons, wordBits_nil, bitsLE_mask, bits,
          bitsLE_add]
        simp [pending, none]
    · rename_i short
      have inside := sending.bitOffset
      refine ⟨rfl, rfl, ?_, ?_, ?_, ?_, ?_, ?_, ?_, ⟨rfl, rfl, rfl, rfl⟩⟩
      · dsimp only
        omega
      · dsimp only
        omega
      · dsimp only
        omega
      · intro _
        dsimp only
        rw [show nbits - (nbits - (8 - mapper.bitOffset)) = 8 - mapper.bitOffset by omega]
        exact mask_lt _ _
      · intro _
        dsimp only
        omega
      · rw [Option.toList_none, List.append_nil]
        exact small
      · rw [Option.toList_none, List.append_nil, bits, pending]
        dsimp only
        rw [if_pos (by omega),
          show nbits - (nbits - (8 - mapper.bitOffset)) = 8 - mapper.bitOffset by omega,
          bitsLE_mask, List.append_assoc, ← bitsLE_add]

theorem Cut.advance {next : OfdmMapper} (cut : Cut nbits bytes values mapper next)
    (byte : bytes[mapper.msgOffset]? = some mapper.msgbytes) :
    Sending nbits bytes values next.advance ∧ mapper.read < next.advance.read ∧
      SameMessage mapper next.advance := by
  have inside : mapper.msgOffset < bytes.length := (List.getElem?_eq_some_iff.mp byte).1
  have forward := cut.forward
  rw [OfdmMapper.advance]
  split
  · rename_i full
    have whole : byteBitsLE (bytes.take (mapper.msgOffset + 1)) =
        byteBitsLE (bytes.take mapper.msgOffset) ++ bitsLE 8 mapper.msgbytes.toNat := by
      rw [List.take_add_one, byte, byteBitsLE_append]
      simp [byteBitsLE]
    refine ⟨⟨?_, ?_, cut.nresid, cut.resid, ?_, ?_, cut.small, ?_⟩, ?_, cut.same.msgq, cut.same.msg,
      cut.same.eof, cut.same.pendingFlag⟩
    · simp only [cut.msgOffset]
      exact inside
    · exact Nat.zero_lt_succ 7
    · intro _
      rfl
    · intro positive
      exact absurd positive (lt_irrefl 0)
    · have bits := cut.bits
      rw [full] at bits
      simp only [cut.msgOffset, whole, bitsLE_zero, List.append_nil, ← bits]
      rfl
    · simp only [read, cut.msgOffset]
      omega
  · rename_i part
    have below : next.bitOffset < 8 := lt_of_le_of_ne cut.bitOffset part
    refine ⟨⟨?_, below, cut.nresid, cut.resid, ?_, ?_, cut.small, ?_⟩, ?_, cut.same⟩
    · rw [cut.msgOffset]
      exact inside.le
    · intro residual
      exact absurd (cut.whole residual) part
    · intro _
      rw [cut.msgOffset, cut.msgbytes, byte]
    · rw [cut.msgOffset, cut.msgbytes]
      exact cut.bits
    · simp only [read, cut.msgOffset]
      omega

theorem Sending.round (sending : Sending nbits bytes values mapper) (width : nbits ≤ 8)
    (more : mapper.msgOffset < bytes.length) :
    Sending nbits bytes (values ++ ((mapper.load bytes).cut nbits).2.toList)
        ((mapper.load bytes).cut nbits).1.advance ∧
      mapper.read < ((mapper.load bytes).cut nbits).1.advance.read ∧
      SameMessage mapper ((mapper.load bytes).cut nbits).1.advance := by
  obtain ⟨loaded, byte, read, same⟩ := sending.load more
  obtain ⟨next, forward, also⟩ := (loaded.cut width).advance byte
  exact ⟨next, read ▸ forward, same.trans also⟩

theorem Sending.read_le (sending : Sending nbits bytes values mapper) :
    mapper.read ≤ 8 * bytes.length := by
  have inside := sending.inside
  have offset := sending.bitOffset
  rw [read]
  obtain zero | positive := Nat.eq_zero_or_pos mapper.bitOffset
  · omega
  · have more := (List.getElem?_eq_some_iff.mp (sending.byte positive)).1
    omega

/-- The loop ends with the message or with the symbol; `before` were on carriers before the call. -/
theorem fill_sending (width : nbits ≤ 8) {before : List Nat} (fuel : Nat)
    (sending : Sending nbits bytes (before ++ values) mapper) (room : values.length ≤ carriers)
    (enough : 8 * bytes.length ≤ fuel + mapper.read) :
    Sending nbits bytes (before ++ (fill nbits carriers bytes fuel mapper values).2)
        (fill nbits carriers bytes fuel mapper values).1 ∧
      SameMessage mapper (fill nbits carriers bytes fuel mapper values).1 ∧
      (fill nbits carriers bytes fuel mapper values).2.length ≤ carriers ∧
      mapper.read ≤ (fill nbits carriers bytes fuel mapper values).1.read ∧
      ((fill nbits carriers bytes fuel mapper values).1.msgOffset ≠ bytes.length →
        (fill nbits carriers bytes fuel mapper values).2.length = carriers) := by
  induction fuel generalizing mapper values with
  | zero =>
    refine ⟨sending, SameMessage.refl _, room, le_rfl, fun unfinished => ?_⟩
    have short := sending.inside
    have offset := sending.bitOffset
    change mapper.msgOffset ≠ bytes.length at unfinished
    rw [read] at enough
    omega
  | succ fuel ih =>
    rw [fill]
    split
    · rename_i goesOn
      obtain ⟨next, forward, same⟩ := sending.round width goesOn.1
      rw [List.append_assoc] at next
      have room' : (values ++ ((mapper.load bytes).cut nbits).2.toList).length ≤ carriers := by
        have one := Option.length_toList_le (o := ((mapper.load bytes).cut nbits).2)
        rw [List.length_append]
        omega
      obtain ⟨final, also, fits, further, full⟩ := ih next room' (by omega)
      exact ⟨final, same.trans also, fits, forward.le.trans further, full⟩
    · rename_i stops
      refine ⟨sending, SameMessage.refl _, room, le_rfl, fun unfinished => ?_⟩
      have short := sending.inside
      change mapper.msgOffset ≠ bytes.length at unfinished
      change values.length = carriers
      omega

theorem Sending.length_pending (sending : Sending nbits bytes values mapper) :
    (mapper.pending nbits).length < nbits := by
  have positive := sending.nresid
  rw [pending]
  split
  · rw [length_bitsLE]
    omega
  · exact Nat.zero_lt_of_lt positive

theorem Sending.read_eq (sending : Sending nbits bytes values mapper) :
    mapper.read = nbits * values.length + (mapper.pending nbits).length := by
  have lengths := congrArg List.length sending.bits
  have inside := sending.inside
  simp only [List.length_append, length_wordBits, length_byteBitsLE, List.length_take,
    length_bitsLE, min_eq_left inside] at lengths
  rw [read, lengths]

@[simp] theorem bitOffset_dropResid (mapper : OfdmMapper) :
    mapper.dropResid.bitOffset = mapper.bitOffset := by
  rw [dropResid]
  split <;> rfl

@[simp] theorem nresid_dropResid (mapper : OfdmMapper) : mapper.dropResid.nresid = 0 := by
  rw [dropResid]
  split
  · rfl
  · exact Nat.eq_zero_of_not_pos ‹_›

theorem same_dropResid (mapper : OfdmMapper) : SameMessage mapper mapper.dropResid := by
  rw [dropResid]
  split <;> exact ⟨rfl, rfl, rfl, rfl⟩

theorem Sending.isPrefix (sending : Sending nbits bytes values mapper) :
    wordBits nbits values <+: byteBitsLE bytes := by
  have shown : wordBits nbits values <+: byteBitsLE (bytes.take mapper.msgOffset) ++
      bitsLE mapper.bitOffset mapper.msgbytes.toNat :=
    sending.bits ▸ List.prefix_append _ _
  apply shown.trans
  have split := List.take_append_drop mapper.msgOffset bytes
  obtain zero | positive := Nat.eq_zero_or_pos mapper.bitOffset
  · rw [zero, bitsLE_zero, List.append_nil]
    conv_rhs => rw [← split, byteBitsLE_append]
    apply List.prefix_append
  · obtain ⟨inside, byte⟩ := List.getElem?_eq_some_iff.mp (sending.byte positive)
    have eight : mapper.bitOffset + (8 - mapper.bitOffset) = 8 :=
      Nat.add_sub_cancel' sending.bitOffset.le
    have whole : bitsLE 8 mapper.msgbytes.toNat = bitsLE mapper.bitOffset mapper.msgbytes.toNat ++
        bitsLE (8 - mapper.bitOffset) (mapper.msgbytes.toNat >>> mapper.bitOffset) := by
      rw [← bitsLE_add, eight]
    conv_rhs => rw [← split, byteBitsLE_append]
    rw [List.prefix_append_right_inj, List.drop_eq_getElem_cons inside, byte, byteBitsLE,
      List.flatMap_cons, whole, List.append_assoc]
    apply List.prefix_append

/-- A mapper without a message. -/
structure Idle (mapper : OfdmMapper) : Prop where
  msg : mapper.msg = none
  nresid : mapper.nresid = 0

/-- A message that was sent: the values with its bits in them, and the bits that were left over. -/
structure Sent (nbits : Nat) (bytes : List UInt8) (values : List Nat) (rest : List Bool) :
    Prop where
  bits : wordBits nbits values ++ rest = byteBitsLE bytes
  rest : rest.length < nbits

theorem Sent.rest_eq_nil {rest : List Bool} (sent : Sent nbits bytes values rest)
    (fits : nbits ∣ 8 * bytes.length) : rest = [] := by
  have lengths := congrArg List.length sent.bits
  rw [List.length_append, length_wordBits, length_byteBitsLE] at lengths
  rw [← lengths, Nat.dvd_add_right (Nat.dvd_mul_right _ _)] at fits
  exact List.length_eq_zero_iff.mp (Nat.eq_zero_of_dvd_of_lt fits sent.rest)

/-- A symbol is full and the message goes on, or the message ends on it and random values follow. -/
theorem makeSymbol_spec (width : nbits ≤ 8) {msg : GrMessage} {before : List Nat}
    (sending : Sending nbits msg.msg before mapper) (now : mapper.msg = some msg)
    (rand : Nat → Nat) :
    ∃ own next, next.msgq = mapper.msgq ∧ next.pendingFlag = false ∧ own.length ≤ carriers ∧
      ((makeSymbol nbits carriers rand msg mapper =
            .ok (.symbol ⟨mapper.pendingFlag, own⟩, next) ∧
          Sending nbits msg.msg (before ++ own) next ∧ next.msg = some msg ∧
          next.eof = mapper.eof ∧ next.msgOffset < msg.msg.length ∧ own.length = carriers) ∨
        (makeSymbol nbits carriers rand msg mapper =
            .ok (.symbol ⟨mapper.pendingFlag,
              own ++ (List.range' own.length (carriers - own.length)).map (randsym nbits rand)⟩,
              next) ∧
          Idle next ∧ next.eof = (mapper.eof || msg.type == 1) ∧
          ∃ rest, Sent nbits msg.msg (before ++ own) rest)) := by
  have fed : Sending nbits msg.msg (before ++ []) mapper := by rwa [List.append_nil]
  obtain ⟨final, same, room, -, full⟩ := fill_sending width (8 * msg.msg.length) fed
    (Nat.zero_le carriers) (Nat.le_add_right _ _)
  rw [makeSymbol]
  generalize fill nbits carriers msg.msg (8 * msg.msg.length) mapper [] = filled at *
  obtain ⟨next, own⟩ := filled
  dsimp only at final same room full ⊢
  by_cases finished : next.msgOffset = msg.msg.length
  · have aligned : next.bitOffset = 0 := by
      have bound := final.read_le
      rw [read] at bound
      omega
    have bits := final.bits
    rw [aligned, bitsLE_zero, List.append_nil, finished, List.take_length] at bits
    have also := same.trans (same_dropResid next)
    refine ⟨own, { next.dropResid with
      eof := next.dropResid.eof || msg.type == 1
      msg := none
      pendingFlag := false }, also.msgq, rfl, room, Or.inr ⟨?_, ⟨rfl, ?_⟩, ?_, next.pending nbits, bits,
      final.length_pending⟩⟩
    · have asserted : ¬next.dropResid.bitOffset ≠ 0 := by simp [aligned]
      rw [if_pos finished, if_neg asserted, also.pendingFlag]
    · exact nresid_dropResid next
    · exact congrArg (· || msg.type == 1) also.eof
  · refine ⟨own, { next with pendingFlag := false }, same.msgq, rfl, room,
      Or.inl ⟨?_, ?_, same.msg.trans now, same.eof, ?_,
      full finished⟩⟩
    · rw [if_neg finished, same.pendingFlag]
    · exact ⟨final.inside, final.bitOffset, final.nresid, final.resid, final.whole, final.byte,
        final.small, final.bits⟩
    · exact lt_of_le_of_ne final.inside finished

end

end OfdmMapper

end GnuRadio
