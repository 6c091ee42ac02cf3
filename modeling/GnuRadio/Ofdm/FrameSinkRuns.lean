import GnuRadio.Misc.Trace
import GnuRadio.Ofdm.FrameSink

/-!
# Runs of the OFDM frame sink

The sink is a receiver that searches for a flag, and then collects the bits of a frame until the
frame is finished. What it keeps from one frame to the next are the bits of a value that was split
between two bytes.
-/

namespace GnuRadio

/-- How many bytes are put out of so many bits. When a value is wider than a byte, the last byte waits
for the next value, also if it is full. -/
def bytesOut (nbits bits : Nat) : Nat := if nbits ≤ 8 then bits / 8 else (bits - 1) / 8

/-- The bytes that are put out. -/
def demapped (nbits : Nat) (bits : List Bool) : List UInt8 :=
  bytesOfLE (bits.take (8 * bytesOut nbits bits.length))

/-- The bits that are left over. -/
def leftOver (nbits : Nat) (bits : List Bool) : List Bool :=
  bits.drop (8 * bytesOut nbits bits.length)

section Demapped

variable {nbits : Nat}

theorem bytesOut_le (bits : Nat) : 8 * bytesOut nbits bits ≤ bits := by
  unfold bytesOut
  split <;> omega

theorem bytesOut_length {bits out pending : Nat} (split : 8 * out + pending = bits)
    (most : pending ≤ 8) (short : nbits ≤ 8 → pending < 8)
    (wide : 8 < nbits → 0 < bits → 0 < pending) : bytesOut nbits bits = out := by
  unfold bytesOut
  split <;> omega

theorem demapped_bits (bits : List Bool) :
    byteBitsLE (demapped nbits bits) ++ leftOver nbits bits = bits := by
  have length : (bits.take (8 * bytesOut nbits bits.length)).length =
      8 * bytesOut nbits bits.length := by
    rw [List.length_take, Nat.min_eq_left (bytesOut_le _)]
  have whole := byteBitsLE_bytesOfLE (bits.take (8 * bytesOut nbits bits.length))
  have rest : (bits.take (8 * bytesOut nbits bits.length)).drop
      (8 * ((bits.take (8 * bytesOut nbits bits.length)).length / 8)) = [] := by
    rw [length, Nat.mul_div_cancel_left _ (by decide)]
    exact List.drop_eq_nil_of_le length.le
  rw [rest, List.append_nil] at whole
  rw [demapped, whole, leftOver, List.take_append_drop]

theorem length_leftOver (bits : List Bool) :
    (leftOver nbits bits).length = bits.length - 8 * bytesOut nbits bits.length := by
  rw [leftOver, List.length_drop]

theorem demapped_append {bytes : List UInt8} {rest : List Bool}
    (some : nbits ≤ 8 ∨ rest ≠ [] ∨ bytes = []) :
    demapped nbits (byteBitsLE bytes ++ rest) = bytes ++ demapped nbits rest := by
  have count : bytesOut nbits (8 * bytes.length + rest.length) =
      bytes.length + bytesOut nbits rest.length := by
    unfold bytesOut
    rcases some with narrow | nonempty | rfl
    · rw [if_pos narrow, if_pos narrow]
      omega
    · have positive := List.length_pos_iff.mpr nonempty
      split <;> omega
    · rw [List.length_nil, Nat.mul_zero, Nat.zero_add, Nat.zero_add]
  rw [demapped, List.length_append, length_byteBitsLE, count, Nat.mul_add, ← length_byteBitsLE,
    List.take_length_add_append, bytesOfLE_append, demapped]

/-- More bits lead to the bytes of what was left over and of these. -/
theorem demapped_more (bits more : List Bool) : demapped nbits (bits ++ more) =
    demapped nbits bits ++ demapped nbits (leftOver nbits bits ++ more) := by
  conv_lhs => rw [← @demapped_bits nbits bits, List.append_assoc]
  refine demapped_append ?_
  rcases Nat.lt_or_ge 8 nbits with wide | narrow
  · rcases Nat.eq_zero_or_pos bits.length with none | some
    · obtain rfl := List.length_eq_zero_iff.mp none
      exact Or.inr (Or.inr (by simp [demapped, bytesOfLE]))
    · refine Or.inr (Or.inl fun empty => ?_)
      have length := congrArg List.length empty
      rw [List.length_append, length_leftOver, bytesOut, if_neg (by omega), List.length_nil] at length
      omega
  · exact Or.inl narrow

theorem demapped_short {bits : List Bool} (none : bytesOut nbits bits.length = 0) :
    demapped nbits bits = [] := by
  rw [demapped, none, Nat.mul_zero, List.take_zero]
  rfl

theorem leftOver_short {bits : List Bool} (none : bytesOut nbits bits.length = 0) :
    leftOver nbits bits = bits := by
  rw [leftOver, none, Nat.mul_zero, List.drop_zero]

end Demapped

/-- What the sink is for: it searches, or reads a frame. The bits are those that are left over. -/
inductive OfdmReceiver where
  | search (left : List Bool)
  | frame (bytes : List UInt8) (left : List Bool)

namespace OfdmReceiver

open OfdmFrameSink

variable (nbits : Nat)

/-- One symbol, and the messages that it leads to. The flag drops whole values that are left over,
and not the end of one that was split. -/
def step (input : OfdmInput) : OfdmReceiver → OfdmReceiver × List GrMessage
  | search left => (if input.sig then frame [] left else search left, [])
  | frame bytes left =>
    let bits := left ++ wordBits nbits input.values
    let read := bytes ++ demapped nbits bits
    let left := leftOver nbits bits
    if Finished read then (search (if left.length < nbits then left else []), frameMessages read)
    else (frame read left, [])

def messages : OfdmReceiver → List OfdmInput → List GrMessage
  | _, [] => []
  | receiver, input :: inputs =>
    (step nbits input receiver).2 ++ messages (step nbits input receiver).1 inputs

end OfdmReceiver

namespace OfdmFrameSink

variable {nbits : Nat}

/-- The sink is at the place of the receiver. -/
def Refines (nbits : Nat) (d : OfdmFrameSink) : OfdmReceiver → Prop
  | .search left => d.state = .syncSearch ∧ d.demap.Settled nbits ∧
      bitsLE d.demap.nresid d.demap.resid = left
  | .frame bytes left => Reads bytes d ∧ d.demap.Settled nbits ∧ d.demap.pending = left

variable {demap : OfdmDemapper} {bytes : List UInt8} {left : List Bool} {d : OfdmFrameSink}
  {receiver : OfdmReceiver} {inputs : List OfdmInput}

/-- A byte is kept back only of values that are wider than one. -/
theorem length_pending (settled : demap.Settled nbits) (width : nbits ≤ 9) :
    demap.pending.length ≤ 8 ∧ (nbits ≤ 8 → demap.pending.length < 8) := by
  have offset := settled.byteOffset
  have nresid := settled.nresid
  rw [OfdmDemapper.pending, List.length_append, length_bitsLE, length_bitsLE]
  obtain zero | residual := Nat.eq_zero_or_pos demap.nresid
  · omega
  · have start := settled.split residual
    omega

theorem demapper_eq (width : nbits ≤ 9) (settled : demap.Settled nbits) {values : List Nat}
    (small : ∀ value ∈ values, value < 2 ^ nbits) :
    ∃ next, OfdmDemapper.demapper nbits (2 * values.length + 1) demap values [] =
        (next, demapped nbits (demap.pending ++ wordBits nbits values)) ∧
      next.Settled nbits ∧
      next.pending = leftOver nbits (demap.pending ++ wordBits nbits values) := by
  rcases eq_or_ne values [] with rfl | some
  · have before := length_pending settled width
    have none : bytesOut nbits demap.pending.length = 0 := by
      unfold bytesOut
      split <;> omega
    rw [wordBits_nil, List.append_nil, demapped_short none, leftOver_short none]
    exact ⟨demap, OfdmDemapper.demapper_nil _ _, settled, rfl⟩
  obtain ⟨after, bits, wide⟩ := OfdmDemapper.demapper_bits width (2 * values.length + 1) [] settled
    small (by split <;> omega)
  generalize OfdmDemapper.demapper nbits (2 * values.length + 1) demap values [] = result at *
  obtain ⟨next, out⟩ := result
  dsimp only at after bits wide
  have most := length_pending after width
  change byteBitsLE out ++ next.pending = demap.pending ++ wordBits nbits values at bits
  have lengths := congrArg List.length bits
  rw [List.length_append, length_byteBitsLE] at lengths
  have count : bytesOut nbits (demap.pending ++ wordBits nbits values).length = out.length := by
    refine bytesOut_length lengths most.1 most.2 fun more _ => ?_
    have residual := wide more some
    rw [OfdmDemapper.pending, List.length_append, length_bitsLE, length_bitsLE]
    omega
  refine ⟨next, ?_, after, ?_⟩
  · rw [demapped, count, ← bits, ← length_byteBitsLE, List.take_left, ← List.append_nil (byteBitsLE out),
      bytesOfLE_append]
    exact congrArg _ (List.append_nil out).symm
  · rw [leftOver, count, ← bits, ← length_byteBitsLE, List.drop_left]

theorem resid_eq (settled : demap.Settled nbits) :
    bitsLE demap.nresid demap.resid =
      if demap.pending.length < nbits then demap.pending else [] := by
  have offset := settled.byteOffset
  have nresid := settled.nresid
  obtain zero | residual := Nat.eq_zero_or_pos demap.nresid
  · rw [OfdmDemapper.pending, zero, bitsLE_zero, List.append_nil, length_bitsLE]
    split
    · rename_i part
      have none : demap.byteOffset = 0 := by
        by_contra some
        have whole := settled.whole (Nat.pos_of_ne_zero some)
        omega
      rw [none, bitsLE_zero]
    · rfl
  · rw [OfdmDemapper.pending, settled.split residual, bitsLE_zero, List.nil_append, length_bitsLE,
      if_pos nresid]

theorem not_finished_nil : ¬Finished [] := by decide

theorem Follows.refines {e : OfdmFrameSink} (follows : Follows bytes d e)
    (settled : d.demap.Settled nbits) (pending : d.demap.pending = left) :
    Refines nbits e (if Finished bytes then .search (if left.length < nbits then left else [])
      else .frame bytes left) ∧
      e.targetQueue = d.targetQueue ++ if Finished bytes then frameMessages bytes else [] := by
  rw [← follows.demap] at settled pending
  split
  · rename_i finished
    obtain ⟨state, queue⟩ := follows.search finished
    exact ⟨⟨state, settled, by rw [resid_eq settled, pending]⟩, queue⟩
  · rename_i unfinished
    obtain ⟨reads, queue⟩ := follows.reads unfinished
    exact ⟨⟨reads, settled, pending⟩, by rw [queue, List.append_nil]⟩

theorem work_refines (width : nbits ≤ 9) (refines : Refines nbits d receiver) {input : OfdmInput}
    (small : ∀ value ∈ input.values, value < 2 ^ nbits) :
    ∃ e, work nbits d input = .ok e ∧ Refines nbits e (receiver.step nbits input).1 ∧
      e.targetQueue = d.targetQueue ++ (receiver.step nbits input).2 ∧
      ∀ i, e.packetlen ≤ i → e.packet.toList[i]? = d.packet.toList[i]? := by
  cases receiver with
  | search left =>
    obtain ⟨state, settled, residual⟩ := refines
    refine ⟨if input.sig then d.enterHaveSync else d, by rw [work, state], ?_⟩
    rw [OfdmReceiver.step]
    split
    · refine ⟨⟨.header (Nat.zero_lt_succ 3) rfl rfl rfl, ?_, ?_⟩, (List.append_nil _).symm,
        fun _ _ => rfl⟩
      · exact ⟨Nat.zero_lt_succ 7, fun divides => ⟨Nat.dvd_zero _, (settled.aligned divides).2⟩,
          settled.nresid, fun _ => rfl, Nat.one_pos, settled.resid,
          fun positive => absurd positive (lt_irrefl 0)⟩
      · exact residual
    · exact ⟨⟨state, settled, residual⟩, (List.append_nil _).symm, fun _ _ => rfl⟩
  | frame bytes left =>
    obtain ⟨reads, settled, pending⟩ := refines
    obtain ⟨next, ran, after, kept⟩ := demapper_eq width settled small
    rw [pending] at ran kept
    have follows : ∃ e, work nbits d input = .ok e ∧
        Follows (bytes ++ demapped nbits (left ++ wordBits nbits input.values)) { d with demap := next }
          e := by
      cases reads with
      | header short state header count =>
        have goes : work nbits d input = haveSyncLoop
            (demapped nbits (left ++ wordBits nbits input.values)).length { d with demap := next }
            (demapped nbits (left ++ wordBits nbits input.values)) := by
          rw [work, ran, state]
        rw [goes]
        exact @haveSyncLoop_follows _ bytes { d with demap := next } short state header count _ le_rfl
      | packet long ok state len offset count more packet =>
        have goes : work nbits d input = haveHeaderLoop { d with demap := next }
            (demapped nbits (left ++ wordBits nbits input.values)) := by
          rw [work, ran, state]
        rw [goes]
        exact @haveHeaderLoop_follows bytes { d with demap := next } long ok state len offset count
          more packet _
    obtain ⟨e, worked, follows⟩ := follows
    obtain ⟨refines, queue⟩ := follows.refines after kept
    refine ⟨e, worked, ?_, ?_, follows.beyond⟩
    · rw [OfdmReceiver.step]
      split
      · rename_i finished
        rwa [if_pos finished] at refines
      · rename_i unfinished
        rwa [if_neg unfinished] at refines
    · rw [queue, OfdmReceiver.step]
      split <;> rfl

/-! ## Whole frames -/

/-- A call of `work`; it is undefined when the packet is written out of bounds. -/
def step (nbits : Nat) (d : OfdmFrameSink) (input : OfdmInput) : Option OfdmFrameSink :=
  (work nbits d input).toOption

/-- The messages that are enqueued in a run. -/
def enqueued (nbits : Nat) (d : OfdmFrameSink) (inputs : List OfdmInput) :
    Option (List GrMessage) :=
  (run (step nbits) d inputs).map fun e => e.targetQueue.drop d.targetQueue.length

/-- A symbol of so many used carriers, each of them sliced to one of `2 ^ n` points. -/
def Sliced (n carriers : Nat) (input : OfdmInput) : Prop :=
  input.values.length = carriers ∧ ∀ value ∈ input.values, value < 2 ^ n

theorem run_refines (width : nbits ≤ 9) (refines : Refines nbits d receiver)
    (small : ∀ input ∈ inputs, ∀ value ∈ input.values, value < 2 ^ nbits) :
    ∃ e last, run (step nbits) d inputs = some e ∧ Refines nbits e last ∧
      e.targetQueue = d.targetQueue ++ receiver.messages nbits inputs := by
  induction inputs generalizing d receiver with
  | nil => exact ⟨d, receiver, rfl, refines, (List.append_nil _).symm⟩
  | cons input inputs ih =>
    rw [List.forall_mem_cons] at small
    obtain ⟨next, worked, after, queue, -⟩ := work_refines width refines small.1
    obtain ⟨e, last, reached, final, queue'⟩ := ih after small.2
    refine ⟨e, last, run_cons.mpr ⟨next, toOption_some.mpr worked, reached⟩, final, ?_⟩
    rw [queue', queue, OfdmReceiver.messages, List.append_assoc]

theorem enqueued_eq (width : nbits ≤ 9) (refines : Refines nbits d receiver)
    (small : ∀ input ∈ inputs, ∀ value ∈ input.values, value < 2 ^ nbits) :
    enqueued nbits d inputs = some (receiver.messages nbits inputs) := by
  obtain ⟨e, last, reached, -, queue⟩ := run_refines width refines small
  rw [enqueued, reached, Option.map_some, queue, List.drop_left]

theorem refines_construct (positive : 0 < nbits) (memory : OfdmFrameSink) :
    Refines nbits (construct memory) (.search []) :=
  ⟨rfl, ⟨Nat.zero_lt_succ 7, fun _ => ⟨Nat.dvd_zero _, rfl⟩, positive, fun _ => rfl, Nat.one_pos,
    Nat.one_pos, fun residual => absurd residual (lt_irrefl 0)⟩, rfl⟩

theorem messages_search (quiet : ∀ input ∈ inputs, input.sig = false) (left : List Bool) :
    OfdmReceiver.messages nbits (.search left) inputs = [] := by
  induction inputs with
  | nil => rfl
  | cons input inputs ih =>
    rw [List.forall_mem_cons] at quiet
    rw [OfdmReceiver.messages, OfdmReceiver.step, quiet.1]
    exact ih quiet.2

theorem frameMessages_append (finished : Finished bytes) (more : List UInt8) :
    frameMessages (bytes ++ more) = frameMessages bytes := by
  have front : (bytes ++ more).take 4 = bytes.take 4 :=
    List.take_append_of_le_length finished.1
  have long : bytes.length ≤ (bytes ++ more).length := by
    rw [List.length_append]
    exact Nat.le_add_right _ _
  rw [frameMessages, frameMessages, front]
  by_cases ok : ofdmHeaderOk (headerOf (bytes.take 4)) = true
  · have whole := finished.2 ok
    rw [if_pos ⟨finished.1.trans long, ok, whole.trans long⟩, if_pos ⟨finished.1, ok, whole⟩,
      List.drop_append_of_le_length finished.1, List.take_append_of_le_length]
    rw [List.length_drop]
    omega
  · rw [if_neg fun all => ok all.2.1, if_neg fun all => ok all.2.1]

theorem frameMessages_unfinished (unfinished : ¬Finished bytes) : frameMessages bytes = [] := by
  apply if_neg
  rintro ⟨long, -, whole⟩
  exact unfinished ⟨long, fun _ => whole⟩

/-- However the bits of a frame are spread over the symbols, it leads to the message of its bytes. -/
theorem messages_frame (quiet : ∀ input ∈ inputs, input.sig = false) (unfinished : ¬Finished bytes)
    (short : bytesOut nbits left.length = 0) :
    OfdmReceiver.messages nbits (.frame bytes left) inputs =
      frameMessages (bytes ++
        demapped nbits (left ++ wordBits nbits (inputs.flatMap OfdmInput.values))) := by
  induction inputs generalizing bytes left with
  | nil =>
    rw [List.flatMap_nil, wordBits_nil, List.append_nil, demapped_short short, List.append_nil,
      frameMessages_unfinished unfinished]
    rfl
  | cons input inputs ih =>
    rw [List.forall_mem_cons] at quiet
    rw [List.flatMap_cons, wordBits_append, ← List.append_assoc, demapped_more,
      ← List.append_assoc, OfdmReceiver.messages, OfdmReceiver.step]
    split
    · rename_i finished
      rw [messages_search quiet.2, List.append_nil, frameMessages_append finished]
    · rename_i reading
      rw [List.nil_append]
      apply ih quiet.2 reading
      rw [length_leftOver]
      unfold bytesOut
      split <;> omega

/-- The residual bits of a value are no byte. -/
theorem bytesOut_left (width : nbits ≤ 9) (refines : Refines nbits d (.search left)) :
    left.length ≤ 8 ∧ bytesOut nbits left.length = 0 := by
  have bound := refines.2.1.nresid
  rw [← refines.2.2, length_bitsLE]
  unfold bytesOut
  split <;> omega

theorem enqueued_frame (width : nbits ≤ 9) (refines : Refines nbits d (.search left))
    {preamble : List Nat} {symbols : List OfdmInput}
    (smallPreamble : ∀ value ∈ preamble, value < 2 ^ nbits)
    (small : ∀ input ∈ symbols, ∀ value ∈ input.values, value < 2 ^ nbits)
    (quiet : ∀ input ∈ symbols, input.sig = false) :
    enqueued nbits d (⟨true, preamble⟩ :: symbols) =
      some (frameMessages
        (demapped nbits (left ++ wordBits nbits (symbols.flatMap OfdmInput.values)))) := by
  rw [enqueued_eq width refines (List.forall_mem_cons.mpr ⟨smallPreamble, small⟩),
    OfdmReceiver.messages, OfdmReceiver.step, if_pos rfl, List.nil_append,
    messages_frame quiet not_finished_nil (bytesOut_left width refines).2, List.nil_append]

theorem exists_symbols {n carriers : Nat} (count : Nat) {values : List Nat}
    (length : values.length = carriers * count) (small : ∀ value ∈ values, value < 2 ^ n) :
    ∃ symbols : List OfdmInput,
      (∀ input ∈ symbols, Sliced n carriers input ∧ input.sig = false) ∧
      symbols.flatMap OfdmInput.values = values := by
  induction count generalizing values with
  | zero =>
    obtain rfl := List.length_eq_zero_iff.mp length
    exact ⟨[], List.forall_mem_nil _, rfl⟩
  | succ count ih =>
    rw [Nat.mul_succ] at length
    obtain ⟨symbols, sliced, rest⟩ := @ih (values.drop carriers)
      (by rw [List.length_drop]; omega) fun value member => small value (List.mem_of_mem_drop member)
    have first : (values.take carriers).length = carriers := by
      rw [List.length_take]
      omega
    refine ⟨⟨false, values.take carriers⟩ :: symbols, List.forall_mem_cons.mpr
      ⟨⟨⟨first, fun value member => small value (List.mem_of_mem_take member)⟩, rfl⟩, sliced⟩, ?_⟩
    rw [List.flatMap_cons, rest, List.take_append_drop]

theorem toNat_shiftByte {header : UInt32} (small : header.toNat < 2 ^ 24) (byte : UInt8) :
    ((header <<< 8) ||| (byte.toUInt32 &&& 0xff)).toNat = 256 * header.toNat + byte.toNat := by
  have low : byte.toNat < 2 ^ 8 := byte.toNat_lt
  have mask : byte.toNat &&& 255 = byte.toNat := by
    rw [show 255 = 2 ^ 8 - 1 by decide, Nat.and_two_pow_sub_one_eq_mod, Nat.mod_eq_of_lt low]
  have word : header.toNat <<< 8 % 2 ^ 32 = header.toNat <<< 8 := by
    rw [Nat.shiftLeft_eq]
    omega
  have sum := Nat.shiftLeft_add_eq_or_of_lt low header.toNat
  rw [UInt32.toNat_or, UInt32.toNat_and, UInt32.toNat_shiftLeft, UInt8.toNat_toUInt32]
  change header.toNat <<< 8 % 2 ^ 32 ||| byte.toNat &&& 255 = _
  rw [mask, word, ← sum, Nat.shiftLeft_eq]
  omega

theorem ofdmHeaderOk_iff (a b c d : UInt8) :
    ofdmHeaderOk (headerOf [a, b, c, d]) = true ↔ a = c ∧ b = d := by
  have boundA := a.toNat_lt
  have boundB := b.toNat_lt
  have boundC := c.toNat_lt
  have boundD := d.toNat_lt
  have zero : (0 : UInt32).toNat = 0 := rfl
  have one := @toNat_shiftByte 0 (by decide) a
  have two := @toNat_shiftByte _ (by rw [one, zero]; omega) b
  have three := @toNat_shiftByte _ (by rw [two, one, zero]; omega) c
  have four := @toNat_shiftByte _ (by rw [three, two, one, zero]; omega) d
  have word : (headerOf [a, b, c, d]).toNat =
      256 * (256 * (256 * a.toNat + b.toNat) + c.toNat) + d.toNat := by
    rw [headerOf]
    simp only [List.foldl_cons, List.foldl_nil]
    rw [four, three, two, one, zero, Nat.mul_zero, Nat.zero_add]
  clear one two three four
  have low := Nat.and_two_pow_sub_one_eq_mod (headerOf [a, b, c, d]).toNat 16
  have halves : ofdmHeaderOk (headerOf [a, b, c, d]) = true ↔
      (headerOf [a, b, c, d]).toNat / 2 ^ 16 = (headerOf [a, b, c, d]).toNat % 2 ^ 16 := by
    rw [ofdmHeaderOk, beq_iff_eq, UInt32.xor_eq_zero_iff, ← UInt32.toNat_inj,
      UInt32.toNat_shiftRight, UInt32.toNat_and, ← low, ← Nat.shiftRight_eq_div_pow]
    rfl
  have high : (256 * (256 * (256 * a.toNat + b.toNat) + c.toNat) + d.toNat) / 2 ^ 16 =
      256 * a.toNat + b.toNat := by omega
  have copy : (256 * (256 * (256 * a.toNat + b.toNat) + c.toNat) + d.toNat) % 2 ^ 16 =
      256 * c.toNat + d.toNat := by omega
  rw [halves, word, high, copy, ← UInt8.toNat_inj, ← UInt8.toNat_inj]
  omega

/-! ## Frames that residual bits spoil -/

theorem byteBitsLE_four (w x y z : UInt8) : byteBitsLE [w, x, y, z] =
    byteBitsLE [w] ++ (byteBitsLE [x] ++ (byteBitsLE [y] ++ byteBitsLE [z])) := by
  simp [byteBitsLE]

/-- With enough bits behind it, the header decides whether there is a message. -/
theorem frameMessages_header {rest : List Bool} (many : 8 * maxPktLen < rest.length)
    (a b c e : UInt8) :
    frameMessages (demapped nbits (byteBitsLE [a, b, c, e] ++ rest)) = [] ↔ ¬(a = c ∧ b = e) := by
  have some : rest ≠ [] := List.length_pos_iff.mp (by omega)
  have fits := ofdmPacketlen_lt (headerOf [a, b, c, e])
  have room : maxPktLen ≤ (demapped nbits rest).length := by
    rw [demapped, length_bytesOfLE, List.length_take, Nat.min_eq_left (bytesOut_le _),
      Nat.mul_div_cancel_left _ (by decide)]
    unfold bytesOut
    split <;> omega
  rw [demapped_append (Or.inr (Or.inl some)), frameMessages, ← ofdmHeaderOk_iff]
  constructor
  · intro none ok
    have long : 4 + ofdmPacketlen (headerOf [a, b, c, e]) ≤
        ([a, b, c, e] ++ demapped nbits rest).length := by
      rw [List.length_append]
      exact Nat.add_le_add_left (fits.le.trans room) 4
    rw [if_pos ⟨(Nat.le_add_right 4 _).trans long, ok, long⟩] at none
    cases none
  · exact fun bad => if_neg fun all => bad all.2.1

/-- Values with the bits 15 and 31 set, the last of the two halves of a header. -/
def lastBits (nbits : Nat) : List Nat :=
  (List.range 32).map fun i =>
    if i = 15 / nbits then 2 ^ (15 % nbits) else if i = 31 / nbits then 2 ^ (31 % nbits) else 0

theorem wordBits_lastBits : ∀ nbits < 10, 0 < nbits → wordBits nbits (lastBits nbits) =
    byteBitsLE [0, 128, 0, 128] ++ List.replicate (32 * nbits - 32) false := by
  decide +kernel

/-- All these values are points, unless no value is ever split. -/
theorem lastBits_lt : ∀ nbits < 10, 0 < nbits → ¬nbits ∣ 8 → ∀ value ∈ lastBits nbits,
    value < 2 ^ (nbits - 1) := by
  decide +kernel

theorem wordBits_zeros (count : Nat) :
    wordBits nbits (List.replicate count 0) = List.replicate (nbits * count) false := by
  induction count with
  | zero => rfl
  | succ count ih =>
    have zero : bitsLE nbits 0 = List.replicate nbits false := by
      simp [bitsLE, List.eq_replicate_iff]
    rw [List.replicate_succ, wordBits_cons, ih, zero, List.replicate_append_replicate, Nat.mul_succ,
      Nat.add_comm]

/-- Residual bits that are not all zero spoil the header of an empty packet. -/
theorem clash_zeros (one : true ∈ left) (most : left.length ≤ 8) {zeros : Nat}
    (many : 32 + 8 * maxPktLen < zeros) :
    frameMessages (demapped nbits (left ++ List.replicate zeros false)) = [] ∧
      frameMessages (demapped nbits (List.replicate zeros false)) ≠ [] := by
  obtain ⟨more, rfl⟩ := Nat.exists_eq_add_of_lt many
  have byte : byteBitsLE [0] = List.replicate 8 false := rfl
  have header : List.replicate 32 false = byteBitsLE [0, 0, 0, 0] := rfl
  generalize first : UInt8.ofNat (ofBitsLE (left ++ List.replicate (8 - left.length) false)) = c
  have eight : (left ++ List.replicate (8 - left.length) false).length = 8 := by simp; omega
  have firstBits := first ▸ byteBitsLE_ofBitsLE eight
  have other : c ≠ 0 := by
    rintro rfl
    rw [byte] at firstBits
    have there : true ∈ List.replicate 8 false := firstBits ▸ List.mem_append_left _ one
    simp at there
  constructor
  · have shifted : left ++ List.replicate (32 + 8 * maxPktLen + more + 1) false =
        byteBitsLE [c, 0, 0, 0] ++
          List.replicate (8 * maxPktLen + more + 1 + left.length) false := by
      rw [byteBitsLE_four, firstBits, byte]
      simp only [List.append_assoc, List.replicate_append_replicate]
      congr 2
      omega
    rw [shifted, frameMessages_header (by rw [List.length_replicate]; omega)]
    exact fun same => other same.1
  · have whole : List.replicate (32 + 8 * maxPktLen + more + 1) false =
        byteBitsLE [0, 0, 0, 0] ++ List.replicate (8 * maxPktLen + more + 1) false := by
      rw [← header, List.replicate_append_replicate]
      congr 1
      omega
    rw [whole, Ne, frameMessages_header (by rw [List.length_replicate]; omega)]
    exact not_not.mpr ⟨rfl, rfl⟩

/-- Residual zeros push the last bit of a header out of it. -/
theorem clash_last {k : Nat} (some : 0 < k) (most : k ≤ 8) {zeros : Nat}
    (many : 8 * maxPktLen < zeros) :
    frameMessages (demapped nbits (List.replicate k false ++
      (byteBitsLE [0, 128, 0, 128] ++ List.replicate zeros false))) = [] ∧
      frameMessages (demapped nbits
        (byteBitsLE [0, 128, 0, 128] ++ List.replicate zeros false)) ≠ [] := by
  have length : 8 * maxPktLen < (List.replicate zeros false).length := by
    rwa [List.length_replicate]
  constructor
  · have late : ∀ k < 9, 0 < k → List.replicate k false ++ byteBitsLE [0, 128, 0, 128] =
        byteBitsLE [0, 0, UInt8.ofNat (2 ^ (k - 1)), 0] ++ (List.replicate (k - 1) false ++ [true]) ∧
        (0 : UInt8) ≠ UInt8.ofNat (2 ^ (k - 1)) := by decide +kernel
    obtain ⟨shifted, other⟩ := late k (by omega) some
    rw [← List.append_assoc, shifted, List.append_assoc, frameMessages_header (by
      rw [List.length_append]
      omega)]
    exact fun same => other same.1
  · rw [Ne, frameMessages_header length]
    exact not_not.mpr ⟨rfl, rfl⟩

/-- There is a frame that residual bits spoil. -/
theorem exists_clash {n : Nat} (points : 1 ≤ n) (computed : nbits = n ∨ nbits = n + 1)
    (width : nbits ≤ 9) (split : ¬nbits ∣ 8) (some : 0 < left.length) (most : left.length ≤ 8)
    {count : Nat} (many : 64 + 8 * maxPktLen < count) :
    ∃ values : List Nat, values.length = count ∧ (∀ value ∈ values, value < 2 ^ n) ∧
      frameMessages (demapped nbits (left ++ wordBits nbits values)) = [] ∧
      frameMessages (demapped nbits (wordBits nbits values)) ≠ [] := by
  have product := Nat.le_mul_of_pos_left count (show 0 < nbits by omega)
  by_cases one : true ∈ left
  · refine ⟨List.replicate count 0, List.length_replicate, fun value member => ?_, ?_⟩
    · rw [List.eq_of_mem_replicate member]
      exact Nat.two_pow_pos n
    · rw [wordBits_zeros]
      exact clash_zeros one most (by omega)
  · have zeros : left = List.replicate left.length false := List.eq_replicate_of_mem fun bit member =>
      Bool.eq_false_iff.mpr fun set => one (set ▸ member)
    have length : (lastBits nbits).length = 32 := by simp [lastBits]
    refine ⟨lastBits nbits ++ List.replicate (count - 32) 0, ?_, fun value member => ?_, ?_⟩
    · rw [List.length_append, length, List.length_replicate]
      omega
    · rcases List.mem_append.mp member with front | back
      · have below := lastBits_lt nbits (by omega) (by omega) split value front
        exact below.trans_le (Nat.pow_le_pow_right Nat.two_pos (by omega))
      · rw [List.eq_of_mem_replicate back]
        exact Nat.two_pow_pos n
    · have rest := Nat.le_mul_of_pos_left (count - 32) (show 0 < nbits by omega)
      rw [wordBits_append, wordBits_lastBits nbits (by omega) (by omega), wordBits_zeros,
        List.append_assoc, List.replicate_append_replicate, zeros]
      exact clash_last some most (by omega)

/-- The next frame leads to the messages that a new sink makes of it, and these are the ones that
its bytes say. -/
structure Lawful (n nbits carriers : Nat) (memory d : OfdmFrameSink) : Prop where
  independent : ∀ preamble symbols, Sliced n carriers ⟨true, preamble⟩ →
    (∀ input ∈ symbols, Sliced n carriers input) →
    enqueued nbits d (⟨true, preamble⟩ :: symbols) =
      enqueued nbits (construct memory) (⟨true, preamble⟩ :: symbols)
  told : ∀ preamble symbols, Sliced n carriers ⟨true, preamble⟩ →
    (∀ input ∈ symbols, Sliced n carriers input ∧ input.sig = false) →
    enqueued nbits d (⟨true, preamble⟩ :: symbols) =
      some (frameMessages (demapped nbits (wordBits nbits (symbols.flatMap OfdmInput.values))))

theorem Sliced.lt {n carriers : Nat} {input : OfdmInput} (sliced : Sliced n carriers input)
    (computed : nbits = n ∨ nbits = n + 1) : ∀ value ∈ input.values, value < 2 ^ nbits :=
  fun value member => (sliced.2 value member).trans_le
    (Nat.pow_le_pow_right Nat.two_pos (by omega))

theorem lawful_iff_left {n carriers : Nat} (points : 1 ≤ n ∧ n ≤ 8)
    (computed : nbits = n ∨ nbits = n + 1) (used : 1 ≤ carriers) (memory : OfdmFrameSink)
    (refines : Refines nbits d (.search left)) : Lawful n nbits carriers memory d ↔ left = [] := by
  have width : nbits ≤ 9 := by omega
  have fresh : Refines nbits (construct memory) (.search []) := refines_construct (by omega) memory
  constructor
  · intro lawful
    by_contra some
    have residual : d.demap.nresid = left.length := by rw [← refines.2.2, length_bitsLE]
    have split : ¬nbits ∣ 8 := by
      intro divides
      rw [(refines.2.1.aligned divides).2] at residual
      exact some (List.length_eq_zero_iff.mp residual.symm)
    -- enough symbols for the longest packet
    have many : 64 + 8 * maxPktLen < carriers * (65 + 8 * maxPktLen) := by
      have enough := Nat.le_mul_of_pos_left (65 + 8 * maxPktLen) used
      omega
    obtain ⟨values, length, small, clash⟩ := exists_clash points.1 computed width split
      (List.length_pos_iff.mpr some) (bytesOut_left width refines).1 many
    obtain ⟨symbols, sliced, spread⟩ := exists_symbols _ length small
    have preamble : Sliced n carriers ⟨true, List.replicate carriers 0⟩ :=
      ⟨List.length_replicate, fun value member => by
        rw [List.eq_of_mem_replicate member]
        exact Nat.two_pow_pos n⟩
    have same := lawful.independent _ symbols preamble fun input member => (sliced input member).1
    have below : ∀ input ∈ symbols, ∀ value ∈ input.values, value < 2 ^ nbits :=
      fun input member => (sliced input member).1.lt computed
    have quiet : ∀ input ∈ symbols, input.sig = false :=
      fun input member => (sliced input member).2
    rw [enqueued_frame width refines (preamble.lt computed) below quiet,
      enqueued_frame width fresh (preamble.lt computed) below quiet, spread, List.nil_append,
      clash.1] at same
    exact clash.2 (Option.some.inj same).symm
  · rintro rfl
    constructor
    · intro preamble symbols first sliced
      have small : ∀ input ∈ ⟨true, preamble⟩ :: symbols, ∀ value ∈ input.values,
          value < 2 ^ nbits := List.forall_mem_cons.mpr
        ⟨first.lt computed, fun input member => (sliced input member).lt computed⟩
      rw [enqueued_eq width refines small, enqueued_eq width fresh small]
    · intro preamble symbols first sliced
      exact enqueued_frame width refines (first.lt computed)
        (fun input member => (sliced input member).1.lt computed)
        fun input member => (sliced input member).2

/-- Memory full of zeros. -/
def blank : OfdmFrameSink where
  targetQueue := []
  state := .syncSearch
  header := 0
  headerbytelenCnt := 0
  demap := ⟨0, 0, 0, 0⟩
  packet := Vector.replicate maxPktLen 0
  packetlen := 0
  packetWhitenerOffset := 0
  packetlenCnt := 0

end OfdmFrameSink

end GnuRadio
