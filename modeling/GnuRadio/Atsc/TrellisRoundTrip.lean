import GnuRadio.Atsc.TrellisTables
import GnuRadio.Misc.PutGet

/-!
# Trellis coding and back

The symbols at the places that the tables name for a coder are what this coder makes of the
dibits of its bytes. Its decoder and its fifo hold as many dibits as a group has for one coder, so
what they put out for a group are the dibits of the group before, and the tables bring each back to
its place.
-/

namespace GnuRadio

attribute [local instance] neZero_four neZero_eight

open Mux

/-! ## What the encoder sends -/

/-- The dibit of the input where a bit pointer says. -/
def readDibit (bytes : List UInt8) (ptr : Nat) : Fin 4 :=
  dibitAt (bytes.getD (ptr >>> 3) 0) (ptr &&& 0x7)

theorem readDibit_bitPtr (bytes : List UInt8) (byte : Nat) {shift : Nat} (small : shift < 8) :
    readDibit bytes (bitPtr byte shift) = dibitAt (bytes.getD byte 0) shift := by
  rw [readDibit, bitPtr_byte byte small, bitPtr_shift byte small]

/-- What a coder makes of the dibits at some places. -/
def codeDibits (input : List UInt8) (enc : Fin 8) (ptrs : List Nat) : List (Fin 8) × Fin 8 :=
  feed basicEncode enc (ptrs.map (readDibit input))

theorem codeDibits_append (input : List UInt8) (enc : Fin 8) (ptrs : List Nat) (ptr : Nat) :
    codeDibits input enc (ptrs ++ [ptr]) =
      ((codeDibits input enc ptrs).1 ++
          [(basicEncode (codeDibits input enc ptrs).2 (readDibit input ptr)).1],
        (basicEncode (codeDibits input enc ptrs).2 (readDibit input ptr)).2) := by
  simp [codeDibits, feed_append]

/-- The loops of the encoder and of the generator of the tables go along. -/
structure Along (input : List UInt8) (enc : Nat → Fin 8) (a : EncodeArrays) (t : DecodeTables) :
    Prop where
  loaded : ∀ e, a.trellisBuffer e = input.getD (t.wheredata e) 0
  coded : ∀ e, a.enc e = (codeDibits input (enc e) (t.encoWhichDibits e)).2
  sent : ∀ e, (t.encoWhichSyms e).map (a.output[·]?) =
    (codeDibits input (enc e) (t.encoWhichDibits e)).1.map some

theorem sent_append {output : List (Fin 8)} (more : List (Fin 8)) {places : List Nat}
    {symbols : List (Fin 8)} (sent : places.map (output[·]?) = symbols.map some) :
    places.map ((output ++ more)[·]?) = symbols.map some := by
  rw [← sent]
  apply List.map_congr_left
  intro place member
  have found : output[place]? ∈ symbols.map some := sent ▸ List.mem_map_of_mem member
  obtain ⟨symbol, -, here⟩ := List.mem_map.mp found
  exact List.getElem?_append_left (List.getElem?_eq_some_iff.mp here.symm).1

variable {input : List UInt8} {enc : Nat → Fin 8} {a : EncodeArrays} {t : DecodeTables}

theorem Along.load (along : Along input enc a t) (encoder byte : Nat) :
    Along input enc (a.step input (.load encoder byte)) (t.step (.load encoder byte)) where
  loaded e := by
    by_cases same : e = encoder
    · simp [EncodeArrays.step, DecodeTables.step, same]
    · simpa [EncodeArrays.step, DecodeTables.step, same] using along.loaded e
  coded := along.coded
  sent := along.sent

theorem Along.sync (along : Along input enc a t) (symbol : Nat) :
    Along input enc (a.step input (.sync symbol)) (t.step (.sync symbol)) where
  loaded := along.loaded
  coded := along.coded
  sent e := sent_append _ (along.sent e)

theorem Along.code (along : Along input enc a t) (encoder : Nat) {shift : Nat} (small : shift < 8) :
    Along input enc (a.step input (.code encoder shift a.output.length))
      (t.step (.code encoder shift a.output.length)) := by
  have dibit : readDibit input (bitPtr (t.wheredata encoder) shift) =
      dibitAt (a.trellisBuffer encoder) shift := by
    rw [readDibit_bitPtr _ _ small, along.loaded encoder]
  refine ⟨along.loaded, ?_, ?_⟩
  · intro e
    by_cases same : e = encoder
    · subst same
      simp only [EncodeArrays.step, DecodeTables.step, Function.update_self]
      rw [codeDibits_append, dibit, ← along.coded e]
    · simpa [EncodeArrays.step, DecodeTables.step, same] using along.coded e
  · intro e
    have before := sent_append
      [(basicEncode (a.enc encoder) (dibitAt (a.trellisBuffer encoder) shift)).1] (along.sent e)
    by_cases same : e = encoder
    · subst same
      simp only [EncodeArrays.step, DecodeTables.step, Function.update_self]
      rw [List.map_append, before, codeDibits_append, dibit, ← along.coded e, List.map_append]
      simp
    · simpa [EncodeArrays.step, DecodeTables.step, same] using before

theorem Along.run {events : List MuxEvent} (along : Along input enc a t) {last : Nat}
    (placed : Placed a.output.length events last) :
    Along input enc (events.foldl (EncodeArrays.step input) a) (events.foldl DecodeTables.step t) ∧
      (events.foldl (EncodeArrays.step input) a).output.length = last := by
  induction events generalizing a t with
  | nil => exact ⟨along, placed⟩
  | cons event events ih =>
    cases event with
    | load encoder byte => exact ih (along.load encoder byte) placed
    | sync symbol =>
      refine ih (along.sync symbol) ?_
      have length : (a.step input (.sync symbol)).output.length = a.output.length + 4 :=
        List.length_append
      rw [length]
      exact placed.2
    | code encoder shift symbol =>
      obtain ⟨small, rfl, rest⟩ := placed
      refine ih (along.code encoder small) ?_
      have length : (a.step input (.code encoder shift a.output.length)).output.length =
          a.output.length + 1 := List.length_append
      rw [length]
      exact rest

theorem encodeHelper_spec (whole : input.length = inputSize) (enc : Nat → Fin 8) :
    ∃ output enc', encodeHelper enc input = .ok (output, enc') ∧ ∀ encoder,
      (buildDecodeStructures.encoWhichSyms encoder).map (output.1[·]?) =
        (codeDibits input (enc encoder) (buildDecodeStructures.encoWhichDibits encoder)).1.map some ∧
      enc' encoder =
        (codeDibits input (enc encoder) (buildDecodeStructures.encoWhichDibits encoder)).2 := by
  obtain ⟨-, placed, last⟩ := loops_spec
  have start : Along input enc ⟨[], fun _ => 0, enc⟩
      ⟨fun _ => inputSize, [], fun _ => [], fun _ => []⟩ := by
    refine ⟨fun _ => ?_, fun _ => rfl, fun _ => rfl⟩
    simp [← whole]
  obtain ⟨along, length⟩ := start.run placed
  have tables : loops.1.foldl DecodeTables.step
      ⟨fun _ => inputSize, [], fun _ => [], fun _ => []⟩ = buildDecodeStructures := by
    rw [buildDecodeStructures]
  rw [tables] at along
  obtain ⟨done, final⟩ : ∃ done, loops.1.foldl (EncodeArrays.step input)
      ⟨[], fun _ => 0, enc⟩ = done := ⟨_, rfl⟩
  rw [final] at along length
  have sized : done.output.length = 12 * atscDataSegmentLength := by
    rw [length]
    simp [reached, atscDataSegmentLength]
  have synced : ncoders - 4 = loops.2.encoder := by
    rw [last]
    simp [reached, ncoders]
  refine ⟨⟨done.output, sized⟩, done.enc, ?_, ?_⟩
  · unfold encodeHelper
    simp only [final]
    rw [dif_pos sized, if_pos synced]
  · intro encoder
    exact ⟨along.sent encoder, along.coded encoder⟩

/-! ## Groups and their contiguous buffers -/

section Chunks

variable {α : Type} {n m : Nat}

theorem flatten_chunks {l : List α} (length : l.length = n * m) :
    (List.ofFn fun i : Fin n => (l.drop (i * m)).take m).flatten = l := by
  induction n generalizing l with
  | zero => simpa using (List.eq_nil_of_length_eq_zero (length.trans (Nat.zero_mul m))).symm
  | succ n ih =>
    have rest : (l.drop m).length = n * m := by
      rw [List.length_drop, length, Nat.succ_mul, Nat.add_sub_cancel]
    have chunks : (fun i : Fin n => (l.drop (i.succ * m)).take m) =
        fun i : Fin n => ((l.drop m).drop (i * m)).take m := by
      funext i
      rw [List.drop_drop, Fin.val_succ, Nat.succ_mul, Nat.add_comm]
    rw [List.ofFn_succ, List.flatten_cons, chunks, ih rest]
    simp

theorem chunk_flatten {f : Fin n → List α} (each : ∀ i, (f i).length = m) (i : Fin n) :
    ((List.ofFn f).flatten.drop (i * m)).take m = f i := by
  induction n with
  | zero => exact i.elim0
  | succ n ih =>
    rw [List.ofFn_succ, List.flatten_cons]
    induction i using Fin.cases with
    | zero => simp [each 0]
    | succ i =>
      have place : i.succ * m = (f 0).length + i * m := by
        rw [each 0, Fin.val_succ, Nat.succ_mul, Nat.add_comm]
      rw [place, List.drop_length_add_append]
      exact ih (fun j => each j.succ) i

end Chunks

theorem groupBytes_eq (group : Fin 12 → AtscMpegPacketRsEncoded) :
    groupBytes group = (List.ofFn fun i => (group i).data).flatten := by
  rw [groupBytes, List.flatMap_def, List.map_ofFn]
  rfl

theorem groupBytes_chunk (group : Fin 12 → AtscMpegPacketRsEncoded) (i : Fin 12) :
    ((groupBytes group).drop (i * atscMpegRsEncodedLength)).take atscMpegRsEncodedLength =
      (group i).data := by
  rw [groupBytes_eq]
  exact chunk_flatten (fun i => (group i).length_eq) i

theorem length_groupBytes (group : Fin 12 → AtscMpegPacketRsEncoded) :
    (groupBytes group).length = inputSize := by
  have lengths : (List.ofFn fun i => (group i).data.length) =
      List.replicate 12 atscMpegRsEncodedLength := by
    simp only [(group _).length_eq, List.ofFn_const]
  rw [groupBytes_eq, List.length_flatten, List.map_ofFn]
  exact (congrArg List.sum lengths).trans rfl

/-- A group whose pipeline info passes the checks of the encoder. -/
def RegularGroup (group : Fin 12 → AtscMpegPacketRsEncoded) : Prop :=
  ∀ i, (group i).pli.regularSegP = true ∧ (group i).pli.sanityCheck = .ok ()

/-- The levels of a group of segments, as the decoder copies them. -/
def levels (segments : Fin 12 → AtscDataSegment) : List ℚ :=
  (List.ofFn fun i => (segments i).soft).flatMap AtscSoftDataSegment.data

/-- The levels that the decoder of a coder gets. -/
def coderLevels (segments : Fin 12 → AtscDataSegment) (encoder : Nat) : List ℚ :=
  (buildDecodeStructures.encoWhichSyms encoder).map fun place => (levels segments).getD place 0

/-- The dibits of a group that are one coder's. -/
def coderDibits (group : Fin 12 → AtscMpegPacketRsEncoded) (encoder : Nat) : List (Fin 4) :=
  (buildDecodeStructures.encoWhichDibits encoder).map (readDibit (groupBytes group))

variable {group : Fin 12 → AtscMpegPacketRsEncoded} {encoder : Nat} {dibits : List (Fin 4)}

theorem trellisEncode_spec (regular : RegularGroup group) (enc : Nat → Fin 8) :
    ∃ segments enc', trellisEncode enc group = .ok (segments, enc') ∧
      (∀ i, (segments i).pli = (group i).pli) ∧ ∀ encoder,
        coderLevels segments encoder =
          (feed basicEncode (enc encoder) (coderDibits group encoder)).1.map
            (fun symbol => (level symbol : ℚ)) ∧
        enc' encoder = (feed basicEncode (enc encoder) (coderDibits group encoder)).2 := by
  obtain ⟨output, enc', ran, coders⟩ := encodeHelper_spec (length_groupBytes group) enc
  refine ⟨fun i => ⟨(group i).pli, _, length_chunk output.2 i⟩, enc', ?_, fun i => rfl, ?_⟩
  · have checked : sequence (fun i : Fin 12 =>
        if !(group i).pli.regularSegP then .error .assertFailed
        else (group i).pli.sanityCheck) = Except.ok fun _ => () := by
      refine sequence_ok fun i => ?_
      rw [(regular i).1]
      exact (regular i).2
    have copied : sequence (fun i : Fin 12 => do
        (group i).pli.sanityCheck
        if !(group i).pli.regularSegP then Except.error CppException.assertFailed
        else return (⟨(group i).pli, _, length_chunk output.2 i⟩ : AtscDataSegment)) =
        .ok fun i => ⟨(group i).pli, _, length_chunk output.2 i⟩ := by
      refine sequence_ok fun i => ?_
      rw [(regular i).1, (regular i).2]
      rfl
    exact bind_ok.mpr ⟨_, checked, bind_ok.mpr ⟨_, ran, bind_ok.mpr ⟨_, copied, rfl⟩⟩⟩
  · intro encoder
    refine ⟨?_, (coders encoder).2⟩
    have sent : levels (fun i => ⟨(group i).pli, _, length_chunk output.2 i⟩) =
        output.1.map fun symbol => (level symbol : ℚ) := by
      have chunks : (fun i : Fin 12 => ((output.1.drop (i * atscDataSegmentLength)).take
          atscDataSegmentLength).map fun symbol => (level symbol : ℚ)) =
          fun i : Fin 12 => ((output.1.map fun symbol => (level symbol : ℚ)).drop
            (i * atscDataSegmentLength)).take atscDataSegmentLength := by
        funext i
        rw [List.map_take, List.map_drop]
      rw [levels, List.flatMap_def, List.map_ofFn]
      exact (congrArg (fun f => (List.ofFn f).flatten) chunks).trans
        (flatten_chunks (by rw [List.length_map, output.2]))
    have each : ∀ places : List Nat, ∀ symbols : List (Fin 8),
        places.map (output.1[·]?) = symbols.map some →
        (places.map fun place => (output.1.map fun symbol => (level symbol : ℚ)).getD place 0) =
          symbols.map fun symbol => (level symbol : ℚ) := by
      intro places symbols same
      have levels := congrArg (List.map fun symbol => (Option.map (fun symbol =>
        (level symbol : ℚ)) symbol).getD 0) same
      rw [List.map_map, List.map_map] at levels
      simpa [Function.comp_def, List.getD_eq_getElem?_getD] using levels
    rw [coderLevels, sent]
    exact each _ _ (coders encoder).1

/-! ## What the decoder writes -/

/-- A place that a bit pointer can name. -/
def Slot (ptr : Nat) : Prop :=
  ∃ byte < inputSize, ∃ shift ∈ [6, 4, 2, 0], ptr = bitPtr byte shift

theorem testBit_dibitAt (byte : UInt8) (shift i : Nat) :
    (dibitAt byte shift).val.testBit i = (decide (i < 2) && byte.toNat.testBit (shift + i)) := by
  show (byte.toNat >>> shift % 2 ^ 2).testBit i = _
  rw [Nat.testBit_mod_two_pow, Nat.testBit_shiftRight]

theorem testBit_putDibit (byte : UInt8) {shift i : Nat} (member : shift ∈ [6, 4, 2, 0])
    (below : i < 8) (dibit : Fin 4) : (putDibit byte shift dibit).toNat.testBit i =
      if shift ≤ i ∧ i < shift + 2 then dibit.val.testBit (i - shift) else byte.toNat.testBit i := by
  have mask : ∀ shift ∈ [6, 4, 2, 0], ∀ i < 8,
      (~~~(0x03 <<< UInt8.ofNat shift) : UInt8).toNat.testBit i =
        !decide (shift ≤ i ∧ i < shift + 2) := by
    decide
  have placed : ∀ shift ∈ [6, 4, 2, 0], ∀ dibit : Fin 4, ∀ i < 8,
      (UInt8.ofNat dibit.val <<< UInt8.ofNat shift).toNat.testBit i =
        (decide (shift ≤ i ∧ i < shift + 2) && dibit.val.testBit (i - shift)) := by
    decide
  rw [putDibit, UInt8.toNat_or, UInt8.toNat_and, Nat.testBit_or, Nat.testBit_and,
    mask shift member i below, placed shift member dibit i below]
  split <;> simp [*]

theorem dibitAt_putDibit (byte : UInt8) {shift other : Nat} (member : shift ∈ [6, 4, 2, 0])
    (member' : other ∈ [6, 4, 2, 0]) (dibit : Fin 4) :
    dibitAt (putDibit byte shift dibit) other =
      if other = shift then dibit else dibitAt byte other := by
  have even : shift % 2 = 0 ∧ other % 2 = 0 ∧ other + 2 ≤ 8 := by
    simp at member member'
    omega
  apply Fin.ext
  apply Nat.eq_of_testBit_eq
  intro i
  rw [testBit_dibitAt]
  by_cases inside : i < 2
  · rw [testBit_putDibit byte member (by omega)]
    by_cases same : other = shift
    · subst same
      simp [inside]
    · rw [if_neg (by omega), if_neg same, testBit_dibitAt]
  · have four : 2 ^ 2 ≤ 2 ^ i := Nat.pow_le_pow_right (by decide) (by omega)
    have high : ∀ d : Fin 4, d.val.testBit i = false :=
      fun d => Nat.testBit_lt_two_pow (d.isLt.trans_le four)
    rw [high]
    simp [inside]

theorem readDibit_storeDibit {out : List UInt8} {byte other shift shift' : Nat} (dibit : Fin 4)
    (inside : byte < out.length) (member : shift ∈ [6, 4, 2, 0]) (member' : shift' ∈ [6, 4, 2, 0]) :
    readDibit (storeDibit out (bitPtr byte shift) dibit) (bitPtr other shift') =
      if other = byte ∧ shift' = shift then dibit else readDibit out (bitPtr other shift') := by
  have put := dibitAt_putDibit (out.getD byte 0) member member' dibit
  rw [readDibit_bitPtr _ _ (shift_lt member'), readDibit_bitPtr _ _ (shift_lt member'), storeDibit,
    bitPtr_byte _ (shift_lt member), bitPtr_shift _ (shift_lt member), List.getD_eq_getElem?_getD,
    List.getD_eq_getElem?_getD, List.getElem?_modify]
  by_cases same : byte = other
  · subst same
    rw [List.getD_eq_getElem?_getD] at put
    simpa [List.getElem?_eq_getElem inside] using put
  · simp [same, Ne.symm same]

theorem dibit_cells : PutGet storeDibit readDibit (fun out => out.length = inputSize) Slot where
  kept out ptr dibit length := by rw [length_storeDibit, length]
  same out ptr dibit length valid := by
    obtain ⟨byte, inside, shift, member, rfl⟩ := valid
    rw [readDibit_storeDibit dibit (by omega) member member, if_pos ⟨rfl, rfl⟩]
  other out ptr ptr' dibit length valid valid' ne := by
    obtain ⟨byte, inside, shift, member, rfl⟩ := valid
    obtain ⟨byte', inside', shift', member', rfl⟩ := valid'
    rw [readDibit_storeDibit dibit (by omega) member member', if_neg]
    rintro ⟨rfl, rfl⟩
    exact ne rfl

theorem slot_of_mem {ptr : Nat} (coder : encoder < 12)
    (member : ptr ∈ buildDecodeStructures.encoWhichDibits encoder) : Slot ptr := by
  rw [encoWhichDibits_eq coder, List.mem_flatMap] at member
  obtain ⟨k, chunk, member⟩ := member
  obtain ⟨shift, among, rfl⟩ := mem_bytePtrs.mp member
  have inside : Mux.place k encoder < 207 * 12 := by
    have := List.mem_range.mp chunk
    unfold place
    omega
  exact ⟨_, inside, shift, among, rfl⟩

theorem foldl_decodeSymbol (symbolsIn : List ℚ) (slots : List (Nat × Nat)) (line : CoderLine)
    (out : List UInt8) :
    let decoded := feed CoderLine.step line (slots.map fun slot => symbolsIn.getD slot.1 0)
    slots.foldl (decodeSymbol symbolsIn) (line, out) =
      (decoded.2, ((slots.map Prod.snd).zip decoded.1).foldl (fun out w => storeDibit out w.1 w.2)
        out) := by
  induction slots generalizing line out with
  | nil => rfl
  | cons slot slots ih =>
    simp only [List.foldl_cons, List.map_cons, feed_cons, List.zip_cons_cons]
    exact ih _ _

/-- What a coder's decoder makes of the levels. -/
def decodeLevels (t : DecodeTables) (lines : Nat → CoderLine) (symbolsIn : List ℚ)
    (encoder : Nat) : List (Fin 4) × CoderLine :=
  feed CoderLine.step (lines encoder)
    ((t.encoWhichSyms encoder).map fun place => symbolsIn.getD place 0)

/-- What the decoder of a coder writes, and where. -/
def coderWrites (t : DecodeTables) (lines : Nat → CoderLine) (symbolsIn : List ℚ)
    (encoder : Nat) : List (Nat × Fin 4) :=
  (t.encoWhichDibits encoder).zip (decodeLevels t lines symbolsIn encoder).1

theorem decodeHelper_eq (lines : Nat → CoderLine) (symbolsIn : List ℚ)
    (paired : ∀ encoder < 12,
      (t.encoWhichSyms encoder).length = (t.encoWhichDibits encoder).length) :
    decodeHelper t lines symbolsIn =
      (((List.range 12).flatMap (coderWrites t lines symbolsIn)).foldl
          (fun out w => storeDibit out w.1 w.2) (List.replicate inputSize 0),
        fun encoder =>
          if encoder < 12 then (decodeLevels t lines symbolsIn encoder).2 else lines encoder) := by
  have some : ∀ n ≤ 12, (List.range n).foldl (fun s encoder =>
      let done := ((t.encoWhichSyms encoder).zip (t.encoWhichDibits encoder)).foldl
        (decodeSymbol symbolsIn) (s.2 encoder, s.1)
      (done.2, Function.update s.2 encoder done.1)) (List.replicate inputSize 0, lines) =
      (((List.range n).flatMap (coderWrites t lines symbolsIn)).foldl
          (fun out w => storeDibit out w.1 w.2) (List.replicate inputSize 0),
        fun encoder =>
          if encoder < n then (decodeLevels t lines symbolsIn encoder).2 else lines encoder) := by
    intro n most
    induction n with
    | zero => rfl
    | succ n ih =>
      have equal := paired n (by omega)
      have symbols : ((t.encoWhichSyms n).zip (t.encoWhichDibits n)).map
          (fun slot => symbolsIn.getD slot.1 0) =
          (t.encoWhichSyms n).map fun place => symbolsIn.getD place 0 := by
        rw [← Function.comp_def (fun place => symbolsIn.getD place 0), ← List.map_map,
          List.map_fst_zip equal.le]
      have places : ((t.encoWhichSyms n).zip (t.encoWhichDibits n)).map Prod.snd =
          t.encoWhichDibits n := List.map_snd_zip equal.ge
      rw [List.range_succ, List.foldl_append, ih (by omega), List.foldl_cons, List.foldl_nil,
        List.flatMap_append, List.foldl_append, List.flatMap_singleton]
      simp only [if_neg (Nat.lt_irrefl n)]
      rw [foldl_decodeSymbol, symbols, places]
      refine Prod.ext rfl (funext fun encoder => ?_)
      by_cases same : encoder = n
      · subst same
        simp [decodeLevels]
      · simp [same, show encoder < n + 1 ↔ encoder < n by omega]
  exact some 12 le_rfl

theorem nodup_coderWrites {lines : Nat → CoderLine} {symbolsIn : List ℚ}
    (paired : ∀ encoder < 12, (buildDecodeStructures.encoWhichSyms encoder).length =
      (buildDecodeStructures.encoWhichDibits encoder).length) :
    ((((List.range 12).flatMap (coderWrites buildDecodeStructures lines symbolsIn))).map
      Prod.fst).Nodup := by
  have places : ∀ encoder ∈ List.range 12,
      (coderWrites buildDecodeStructures lines symbolsIn encoder).map Prod.fst =
        buildDecodeStructures.encoWhichDibits encoder := by
    intro encoder member
    apply List.map_fst_zip
    rw [decodeLevels, length_feed, List.length_map, paired encoder (List.mem_range.mp member)]
  rw [List.map_flatMap, List.flatMap_congr places, List.nodup_flatMap]
  refine ⟨fun encoder member => nodup_encoWhichDibits (List.mem_range.mp member), ?_⟩
  refine List.Pairwise.imp_of_mem ?_ List.nodup_range
  intro encoder encoder' member member' ne ptr here there
  have coder := List.mem_range.mp member
  have coder' := List.mem_range.mp member'
  obtain ⟨byte, inside, shift, among, rfl⟩ := slot_of_mem coder here
  have mine := (mem_encoWhichDibits coder inside among).mp here
  have other := (mem_encoWhichDibits coder' inside among).mp there
  exact ne (mine.trans other.symm)

theorem decodeHelper_spec (lines : Nat → CoderLine) (symbolsIn : List ℚ)
    (paired : ∀ encoder < 12, (buildDecodeStructures.encoWhichSyms encoder).length =
      (buildDecodeStructures.encoWhichDibits encoder).length) :
    ∀ encoder < 12,
      (buildDecodeStructures.encoWhichDibits encoder).map
          (readDibit (decodeHelper buildDecodeStructures lines symbolsIn).1) =
        (decodeLevels buildDecodeStructures lines symbolsIn encoder).1 ∧
      (decodeHelper buildDecodeStructures lines symbolsIn).2 encoder =
        (decodeLevels buildDecodeStructures lines symbolsIn encoder).2 := by
  intro encoder coder
  have whole := decodeHelper_eq lines symbolsIn paired
  have valid : ∀ w ∈ (List.range 12).flatMap (coderWrites buildDecodeStructures lines symbolsIn),
      Slot w.1 := by
    intro w member
    obtain ⟨e, below, here⟩ := List.mem_flatMap.mp member
    exact slot_of_mem (List.mem_range.mp below) (List.of_mem_zip here).1
  have length : (decodeLevels buildDecodeStructures lines symbolsIn encoder).1.length =
      (buildDecodeStructures.encoWhichDibits encoder).length := by
    rw [decodeLevels, length_feed, List.length_map, paired encoder coder]
  have ready : (List.replicate inputSize (0 : UInt8)).length = inputSize := List.length_replicate
  have written := dibit_cells.map_get_foldl ready valid (nodup_coderWrites paired) length
    fun w member => List.mem_flatMap.mpr ⟨encoder, List.mem_range.mpr coder, member⟩
  rw [whole]
  simp only [if_pos coder, and_true]
  rw [written]

theorem eq_of_coderDibits {group' : Fin 12 → AtscMpegPacketRsEncoded}
    (same : ∀ encoder < 12, coderDibits group encoder = coderDibits group' encoder) (i : Fin 12) :
    (group i).data = (group' i).data := by
  have bytes : ∀ x y : UInt8, (∀ shift ∈ [6, 4, 2, 0], dibitAt x shift = dibitAt y shift) →
      x = y := by
    intro x y dibits
    have dibit : ∀ shift ∈ [6, 4, 2, 0], x.toNat / 2 ^ shift % 4 = y.toNat / 2 ^ shift % 4 := by
      intro shift member
      have equal := congrArg Fin.val (dibits shift member)
      simpa [dibitAt, Nat.shiftRight_eq_div_pow] using equal
    have six := dibit 6 (by simp)
    have four := dibit 4 (by simp)
    have two := dibit 2 (by simp)
    have zero := dibit 0 (by simp)
    have := x.toNat_lt
    have := y.toNat_lt
    apply UInt8.toNat_inj.mp
    omega
  have whole : groupBytes group = groupBytes group' := by
    apply List.ext_getElem
    · rw [length_groupBytes, length_groupBytes]
    intro byte inside inside'
    apply bytes
    intro shift member
    have small : byte < inputSize := length_groupBytes group ▸ inside
    have mine := (mem_encoWhichDibits (coderOf_lt byte) small member).mpr rfl
    have equal := same _ (coderOf_lt byte)
    rw [coderDibits, coderDibits, List.map_inj_left] at equal
    have read := equal _ mine
    rw [readDibit_bitPtr _ _ (shift_lt member), readDibit_bitPtr _ _ (shift_lt member),
      List.getD_eq_getElem?_getD, List.getD_eq_getElem?_getD, List.getElem?_eq_getElem inside,
      List.getElem?_eq_getElem inside'] at read
    exact read
  rw [← groupBytes_chunk, whole, groupBytes_chunk]

/-! ## The delay of a coder -/

/-- A dibit is encoded, decoded and goes through the fifo. -/
def coderLine : Fin 8 × CoderLine → Fin 4 → Fin 4 × (Fin 8 × CoderLine) :=
  cascade basicEncode fun line symbol => line.step (level symbol)

/-- A coder, its decoder and its fifo delay by what is still to come out. -/
def Delays (c : Fin 8 × CoderLine) (q : List (Fin 4)) : Prop :=
  ∃ back, SingleViterbi.Lags (c.1, c.2.viterbi) back ∧ q = c.2.fifo.contents ++ back

theorem delays_of_lags (enc : Fin 8) (line : CoderLine) {back : List (Fin 4)} {d x : Fin 4}
    (output : (SingleViterbi.basicCoder (enc, line.viterbi) d).1 = (shift back x).1)
    (lags : SingleViterbi.Lags (SingleViterbi.basicCoder (enc, line.viterbi) d).2 (shift back x).2) :
    (coderLine (enc, line) d).1 = (shift (line.fifo.contents ++ back) x).1 ∧
      Delays (coderLine (enc, line) d).2 (shift (line.fifo.contents ++ back) x).2 := by
  obtain ⟨first, rest⟩ :=
    line.fifo.stuff_eq (SingleViterbi.basicCoder (enc, line.viterbi) d).1
  obtain ⟨through, held⟩ := shift_shift back line.fifo.contents x
  rw [output] at first rest
  refine ⟨?_, (shift back x).2, lags, ?_⟩
  · rw [← through, ← first, ← output]
    rfl
  · rw [← held, ← rest, ← output]
    rfl

theorem Delays.step {c : Fin 8 × CoderLine} {q : List (Fin 4)} (delays : Delays c q) (d : Fin 4) :
    (coderLine c d).1 = (shift q d).1 ∧ Delays (coderLine c d).2 (shift q d).2 := by
  obtain ⟨back, lags, rfl⟩ := delays
  obtain ⟨output, next⟩ := lags.step d
  exact delays_of_lags _ _ output next

theorem Delays.pass {c : Fin 8 × CoderLine} {q : List (Fin 4)} (delays : Delays c q)
    (length : dibits.length = q.length) :
    (feed coderLine c dibits).1 = q ∧ Delays (feed coderLine c dibits).2 dibits := by
  obtain ⟨output, next⟩ := feed_simulates Delays (fun c q d delays => delays.step d) delays dibits
  rw [feed_shift] at output next
  simp only [length, List.take_left, List.drop_left] at output next
  exact ⟨output, next⟩

theorem delays_start (length : dibits.length = 828) :
    ∃ q, q.tail = dibits.tail ∧ q.length = 828 ∧
      Delays (feed coderLine (0, .make) dibits).2 q := by
  cases dibits with
  | nil => cases length
  | cons d dibits =>
    obtain ⟨x, output, lags⟩ := SingleViterbi.lags_first d
    obtain ⟨-, next⟩ := delays_of_lags 0 .make output lags
    obtain ⟨-, last⟩ := feed_simulates Delays (fun c q d delays => delays.step d) next dibits
    have held : CoderLine.make.fifo.contents ++ List.replicate 31 0 = List.replicate 828 0 := by
      rw [CoderLine.make, InterleaverFifo.contents_make, List.replicate_append_replicate]
      rfl
    have whole := congrArg Prod.snd (feed_shift (List.replicate 828 0) (x :: dibits))
    rw [feed_cons] at whole
    rw [held, whole, List.drop_left' (by rw [List.length_replicate, ← length]; rfl)] at last
    exact ⟨x :: dibits, rfl, length, last⟩

/-! ## Groups -/

/-- A group is encoded, sent without noise and decoded. -/
def trellisRoundTrip : (Nat → Fin 8) × (Nat → CoderLine) → (Fin 12 → AtscMpegPacketRsEncoded) →
    Except CppException
      ((Fin 12 → AtscMpegPacketRsEncoded) × ((Nat → Fin 8) × (Nat → CoderLine))) :=
  cascadeM trellisEncode fun lines segments =>
    viterbiDecode buildDecodeStructures lines fun i => (segments i).soft

theorem length_coderDibits (group : Fin 12 → AtscMpegPacketRsEncoded) (coder : encoder < 12) :
    (coderDibits group encoder).length = 828 := by
  rw [coderDibits, List.length_map, length_encoWhichDibits coder]

theorem trellisRoundTrip_spec (regular : RegularGroup group) (enc : Nat → Fin 8)
    (lines : Nat → CoderLine) :
    ∃ out enc' lines', trellisRoundTrip (enc, lines) group = .ok (out, enc', lines') ∧
      (∀ i, (group i).pli.delay 12 = .ok (out i).pli) ∧ ∀ encoder < 12,
        feed coderLine (enc encoder, lines encoder) (coderDibits group encoder) =
          (coderDibits out encoder, enc' encoder, lines' encoder) := by
  obtain ⟨segments, enc', sent, info, coders⟩ := trellisEncode_spec regular enc
  choose pli delayed using fun i => Plinfo.delay_ok (regular i).1 (regular i).2 (d := 12) (by decide)
  have paired : ∀ encoder < 12, (buildDecodeStructures.encoWhichSyms encoder).length =
      (buildDecodeStructures.encoWhichDibits encoder).length := by
    intro encoder coder
    have lengths := congrArg List.length (coders encoder).1
    rw [coderLevels, List.length_map, List.length_map, length_feed, coderDibits,
      List.length_map] at lengths
    exact lengths
  have length := length_decodeHelper buildDecodeStructures lines (levels segments)
  refine ⟨fun i => ⟨pli i, _, length_chunk length i⟩, enc',
    (decodeHelper buildDecodeStructures lines (levels segments)).2, ?_, delayed, ?_⟩
  · have checked : sequence (fun i : Fin 12 =>
        if !(segments i).soft.pli.regularSegP then Except.error CppException.assertFailed
        else .ok ()) = .ok fun _ => () := by
      refine sequence_ok fun i => ?_
      rw [show (segments i).soft.pli = (group i).pli from info i, (regular i).1]
      rfl
    have copied : sequence (fun i : Fin 12 => do
        let pli ← (segments i).soft.pli.delay 12
        return (⟨pli, _, length_chunk length i⟩ : AtscMpegPacketRsEncoded)) =
        .ok fun i => ⟨pli i, _, length_chunk length i⟩ := by
      refine sequence_ok fun i => ?_
      rw [show (segments i).soft.pli = (group i).pli from info i]
      exact bind_ok.mpr ⟨pli i, delayed i, rfl⟩
    have received : viterbiDecode buildDecodeStructures lines (fun i => (segments i).soft) =
        .ok (fun i => ⟨pli i, _, length_chunk length i⟩,
          (decodeHelper buildDecodeStructures lines (levels segments)).2) :=
      bind_ok.mpr ⟨_, checked, bind_ok.mpr ⟨_, copied, rfl⟩⟩
    exact bind_ok.mpr ⟨_, sent, bind_ok.mpr ⟨_, received, rfl⟩⟩
  · intro encoder coder
    obtain ⟨read, after⟩ := decodeHelper_spec lines (levels segments) paired encoder coder
    obtain ⟨coded, left⟩ := coders encoder
    have bytes : groupBytes (fun i => ⟨pli i, _, length_chunk length i⟩) =
        (decodeHelper buildDecodeStructures lines (levels segments)).1 := by
      rw [groupBytes_eq]
      exact flatten_chunks length
    have output : coderDibits (fun i => ⟨pli i, _, length_chunk length i⟩) encoder =
        (decodeLevels buildDecodeStructures lines (levels segments) encoder).1 := by
      rw [coderDibits, bytes, read]
    have received : decodeLevels buildDecodeStructures lines (levels segments) encoder =
        feed (fun line symbol => CoderLine.step line (level symbol)) (lines encoder)
          (feed basicEncode (enc encoder) (coderDibits group encoder)).1 := by
      rw [← feed_map, ← coded]
      rfl
    rw [output, after, left, received]
    exact feed_cascade _ _ _ _ _

/-- What the coders hold after a group comes out with the next. -/
def Holding (s : (Nat → Fin 8) × (Nat → CoderLine)) (q : Nat → List (Fin 4)) : Prop :=
  ∀ encoder < 12, Delays (s.1 encoder, s.2 encoder) (q encoder) ∧ (q encoder).length = 828

theorem Holding.step {s : (Nat → Fin 8) × (Nat → CoderLine)} {q : Nat → List (Fin 4)}
    (holding : Holding s q) {group : Fin 12 → AtscMpegPacketRsEncoded}
    (regular : RegularGroup group) :
    ∃ out s', trellisRoundTrip s group = .ok (out, s') ∧
      (∀ i, (group i).pli.delay 12 = .ok (out i).pli) ∧
      (∀ encoder < 12, coderDibits out encoder = q encoder) ∧ Holding s' (coderDibits group) := by
  obtain ⟨out, enc', lines', ran, info, coders⟩ := trellisRoundTrip_spec regular s.1 s.2
  refine ⟨out, (enc', lines'), ran, info, ?_, ?_⟩
  · intro encoder coder
    obtain ⟨delays, length⟩ := holding encoder coder
    obtain ⟨output, -⟩ := delays.pass ((length_coderDibits group coder).trans length.symm)
    simp only [coders encoder coder] at output
    exact output
  · intro encoder coder
    obtain ⟨delays, length⟩ := holding encoder coder
    obtain ⟨-, next⟩ := delays.pass ((length_coderDibits group coder).trans length.symm)
    rw [coders encoder coder] at next
    exact ⟨next, length_coderDibits group coder⟩

theorem holding_start (regular : RegularGroup group) :
    ∃ out s q, trellisRoundTrip (fun _ => 0, fun _ => .make) group = .ok (out, s) ∧
      (∀ i, (group i).pli.delay 12 = .ok (out i).pli) ∧
      (∀ encoder < 12, (q encoder).tail = (coderDibits group encoder).tail) ∧ Holding s q := by
  obtain ⟨out, enc', lines', ran, info, coders⟩ :=
    trellisRoundTrip_spec regular (fun _ => 0) (fun _ => .make)
  have each : ∀ encoder, ∃ q, encoder < 12 → q.tail = (coderDibits group encoder).tail ∧
      q.length = 828 ∧ Delays (enc' encoder, lines' encoder) q := by
    intro encoder
    by_cases coder : encoder < 12
    · obtain ⟨q, tail, length, delays⟩ := delays_start (length_coderDibits group coder)
      rw [coders encoder coder] at delays
      exact ⟨q, fun _ => ⟨tail, length, delays⟩⟩
    · exact ⟨[], fun below => absurd below coder⟩
  choose q held using each
  refine ⟨out, (enc', lines'), q, ran, info, fun encoder coder => (held encoder coder).1, ?_⟩
  intro encoder coder
  exact ⟨(held encoder coder).2.2, (held encoder coder).2.1⟩

theorem Holding.run {groups : List (Fin 12 → AtscMpegPacketRsEncoded)}
    (regular : ∀ group ∈ groups, RegularGroup group) {s : (Nat → Fin 8) × (Nat → CoderLine)}
    {q : Nat → List (Fin 4)} (holding : Holding s q) :
    ∃ outs s', feedM trellisRoundTrip s groups = .ok (outs, s') ∧ outs.length = groups.length ∧
      (∀ out, outs[0]? = some out → ∀ encoder < 12, coderDibits out encoder = q encoder) ∧
      (∀ (n : Nat) (group out : Fin 12 → AtscMpegPacketRsEncoded), groups[n]? = some group →
        outs[n]? = some out → ∀ i, (group i).pli.delay 12 = .ok (out i).pli) ∧
      ∀ n group out, groups[n]? = some group → outs[n + 1]? = some out →
        ∀ encoder < 12, coderDibits out encoder = coderDibits group encoder := by
  induction groups generalizing s q with
  | nil => exact ⟨[], s, rfl, rfl, by simp, by simp, by simp⟩
  | cons group groups ih =>
    obtain ⟨out, t, first, info, held, next⟩ := holding.step (regular group List.mem_cons_self)
    obtain ⟨outs, s', rest, length, front, infos, later⟩ := ih (fun group' member =>
      regular group' (List.mem_cons_of_mem _ member)) next
    refine ⟨out :: outs, s', feedM_cons_ok first rest, by simp [length], ?_, ?_, ?_⟩
    · intro out' here
      cases here
      exact held
    · intro n group' out' here there
      cases n with
      | zero =>
        cases here
        cases there
        exact info
      | succ n => exact infos n group' out' here there
    · intro n group' out' here there
      cases n with
      | zero =>
        cases here
        exact front out' there
      | succ n => exact later n group' out' here there

/-- Trellis coding and back: group `g + 1` has the bytes of group `g`, but for the first dibit of
each coder in the first group, and the pipeline info goes back by twelve segments. -/
theorem trellis_round_trip {groups : List (Fin 12 → AtscMpegPacketRsEncoded)}
    (regular : ∀ group ∈ groups, RegularGroup group) :
    ∃ outs s, feedM trellisRoundTrip (fun _ => 0, fun _ => .make) groups = .ok (outs, s) ∧
      outs.length = groups.length ∧
      (∀ (g : Nat) (group out : Fin 12 → AtscMpegPacketRsEncoded), groups[g]? = some group →
        outs[g + 1]? = some out →
        (∀ encoder < 12, ∀ ptr ∈ (buildDecodeStructures.encoWhichDibits encoder).tail,
          readDibit (groupBytes out) ptr = readDibit (groupBytes group) ptr) ∧
        (0 < g → ∀ i, (out i).data = (group i).data)) ∧
      (∀ (g : Nat) (group out : Fin 12 → AtscMpegPacketRsEncoded), groups[g]? = some group →
        outs[g]? = some out → ∀ i, (group i).pli.delay 12 = .ok (out i).pli ∧
        ∀ s, (group i).pli = Plinfo.segment (s + 12) → (out i).pli = Plinfo.segment s) ∧
      (∀ encoder < 12, ∀ ptr ∈ buildDecodeStructures.encoWhichDibits encoder, Slot ptr) ∧
      ∀ byte < inputSize, ∃ coder < 12, ∀ encoder < 12, ∀ shift ∈ [6, 4, 2, 0],
        (buildDecodeStructures.encoWhichDibits encoder).count (bitPtr byte shift) =
          if encoder = coder then 1 else 0 := by
  have segment : ∀ {x y : Plinfo}, x.delay 12 = .ok y →
      ∀ s, x = Plinfo.segment (s + 12) → y = Plinfo.segment s := by
    intro x y delayed s same
    subst same
    have back := Plinfo.delay_segment (s + 12) (d := 12) (e := 612) rfl
    rw [show s + 12 + 612 = s + 624 from rfl, Plinfo.segment_add_624] at back
    exact Except.ok.inj (delayed.symm.trans back)
  have slots : ∀ encoder < 12, ∀ ptr ∈ buildDecodeStructures.encoWhichDibits encoder, Slot ptr :=
    fun encoder coder ptr member => slot_of_mem coder member
  have counts : ∀ byte < inputSize, ∃ coder < 12, ∀ encoder < 12, ∀ shift ∈ [6, 4, 2, 0],
      (buildDecodeStructures.encoWhichDibits encoder).count (bitPtr byte shift) =
        if encoder = coder then 1 else 0 :=
    fun byte small => ⟨coderOf byte, coderOf_lt byte,
      fun encoder coder shift member => count_encoWhichDibits coder small member⟩
  cases groups with
  | nil => exact ⟨[], _, rfl, rfl, by simp, by simp, slots, counts⟩
  | cons group groups =>
    obtain ⟨out, t, q, first, info, tails, holding⟩ :=
      holding_start (regular group List.mem_cons_self)
    obtain ⟨outs, s, rest, length, front, infos, later⟩ :=
      holding.run fun group' member => regular group' (List.mem_cons_of_mem _ member)
    refine ⟨out :: outs, s, feedM_cons_ok first rest, by simp [length], ?_, ?_, slots, counts⟩
    · intro g group' out' here there
      cases g with
      | zero =>
        cases here
        refine ⟨?_, fun positive => absurd positive (Nat.lt_irrefl 0)⟩
        intro encoder coder ptr member
        have same := tails encoder coder
        rw [← front out' there encoder coder, coderDibits, coderDibits, ← List.map_tail,
          ← List.map_tail, List.map_inj_left] at same
        exact same ptr member
      | succ g =>
        have same := later g group' out' here there
        refine ⟨?_, fun _ => eq_of_coderDibits same⟩
        intro encoder coder ptr member
        have equal := same encoder coder
        rw [coderDibits, coderDibits, List.map_inj_left] at equal
        exact equal ptr (List.mem_of_mem_tail member)
    · intro g group' out' here there i
      cases g with
      | zero =>
        cases here
        cases there
        exact ⟨info i, segment (info i)⟩
      | succ g => exact ⟨infos g group' out' here there i, segment (infos g group' out' here there i)⟩

/-- A group of segments that hold their number. -/
def numberedGroup (g : Nat) (i : Fin 12) : AtscMpegPacketRsEncoded where
  pli := Plinfo.segment (12 * g + i)
  data := List.replicate 207 (UInt8.ofNat (12 * g + i))
  length_eq := List.length_replicate

theorem regular_numberedGroup (g : Nat) : RegularGroup (numberedGroup g) :=
  fun _ => ⟨Plinfo.regularSegP_segment _, Plinfo.sanityCheck_segment _⟩

/-- Three groups of numbered segments. -/
theorem trellis_round_trip_numbered :
    ∃ outs s, feedM trellisRoundTrip (fun _ => 0, fun _ => .make)
        ([0, 1, 2].map numberedGroup) = .ok (outs, s) ∧
      outs.length = 3 ∧ ∀ out, outs[2]? = some out → ∀ i : Fin 12,
        (out i).data = List.replicate 207 (UInt8.ofNat (12 + i)) ∧
        (out i).pli = Plinfo.segment (12 + i) := by
  have regular : ∀ group ∈ [0, 1, 2].map numberedGroup, RegularGroup group := by
    intro group member
    obtain ⟨g, -, rfl⟩ := List.mem_map.mp member
    exact regular_numberedGroup g
  obtain ⟨outs, s, ran, length, bytes, info, -, -⟩ := trellis_round_trip regular
  refine ⟨outs, s, ran, length, ?_⟩
  intro out here i
  refine ⟨(bytes 1 (numberedGroup 1) out rfl here).2 (by decide) i,
    (info 2 (numberedGroup 2) out rfl here i).2 (12 + i) ?_⟩
  exact congrArg Plinfo.segment (by omega)

end GnuRadio
