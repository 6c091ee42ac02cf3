import GnuRadio.Atsc.ConvolutionalInterleaver
import GnuRadio.Atsc.Types

/-!
# The data interleaver with its pipeline info

`atsci_data_interleaver` interleaves the bytes of packets over 52 banks and
starts again with the first segment of each field. A field has 312 segments of
207 bytes, which is a multiple of 52, so starting again changes nothing. The
`alignment_fifo` of the deinterleaver fills the delay up to 52 packets, and
`plinfo::delay` moves the pipeline info back by as many segments.
-/

namespace GnuRadio

/-! ## The interleaver and the deinterleaver -/

open ConvolutionalInterleaver

/-- `atsci_data_interleaver::interleave` (`atsci_data_interleaver.cc:27-39`). -/
def interleave (c : ConvolutionalInterleaver UInt8) (input : AtscMpegPacketRsEncoded) :
    Except CppException (AtscMpegPacketRsEncoded × ConvolutionalInterleaver UInt8) :=
  if !input.pli.regularSegP then .error .assertFailed
  else do
    input.pli.sanityCheck
    let c := if input.pli.firstRegularSegP then c.sync else c
    let transformed := c.transformAll input.data
    return ({
      pli := input.pli
      data := transformed.1
      length_eq := (length_feed _ _ _).trans input.length_eq }, transformed.2)

/-- `atsci_data_deinterleaver` (`atsci_data_interleaver.h:45-69`). -/
structure DataDeinterleaver where
  interleaver : ConvolutionalInterleaver UInt8
  alignmentFifo : InterleaverFifo UInt8

/-- `atsci_data_deinterleaver::deinterleave` (`atsci_data_interleaver.cc:42-64`). -/
def deinterleave (d : DataDeinterleaver) (input : AtscMpegPacketRsEncoded) :
    Except CppException (AtscMpegPacketRsEncoded × DataDeinterleaver) :=
  if !input.pli.regularSegP then .error .assertFailed
  else do
    input.pli.sanityCheck
    let interleaver := if input.pli.firstRegularSegP then d.interleaver.sync else d.interleaver
    let pli ← input.pli.delay 52
    let done := feed (cascade transform InterleaverFifo.stuff) (interleaver, d.alignmentFifo)
      input.data
    return ({
      pli := pli
      data := done.1
      length_eq := (length_feed _ _ _).trans input.length_eq }, ⟨done.2.1, done.2.2⟩)

/-- A new `atsci_data_interleaver`. -/
def dataInterleaver : Except CppException (ConvolutionalInterleaver UInt8) := make true 52 4

/-- A new `atsci_data_deinterleaver`. -/
def dataDeinterleaver : Except CppException DataDeinterleaver := do
  let interleaver ← make false 52 4
  return ⟨interleaver, .make 156⟩

/-! ## Segments -/

namespace Plinfo

/-- The pipeline info passes `sanity_check` as that of the segment at a position in the two fields.
`fl_transport_error` may be set. -/
structure Marks (x : Plinfo) (s : Nat) : Prop where
  sane : x.sanityCheck = .ok ()
  regular : x.regularSegP = true
  segno : x.segno.toNat = s % 312
  field2 : x.inField2P = decide (312 ≤ s % 624)

/-- The pipeline info without `fl_transport_error`. -/
def cleared (x : Plinfo) : Plinfo := { x with flags := x.flags &&& ~~~flTransportError }

theorem flags_lt {flags : UInt16} (low : flags &&& ~~~0x3f = 0) : flags.toNat < 64 := by
  have whole : flags.toNat &&& (2 ^ 16 - 1 - 63) = 0 := by
    have same := congrArg UInt16.toNat low
    rwa [UInt16.toNat_and] at same
  have high : flags.toNat >>> 6 &&& 1023 = 0 := by
    have same := congrArg (· >>> 6) whole
    rwa [Nat.shiftRight_and_distrib] at same
  rw [Nat.and_two_pow_sub_one_eq_mod _ 10, Nat.shiftRight_eq_div_pow] at high
  have bound := flags.toNat_lt
  omega

theorem cleared_flags : ∀ n < 64, UInt16.ofNat n &&& flRegularSeg != 0 →
    (UInt16.ofNat n &&& flFieldSync1 != 0 || UInt16.ofNat n &&& flFieldSync2 != 0) = false →
      UInt16.ofNat n &&& ~~~flTransportError = flRegularSeg |||
        (if UInt16.ofNat n &&& flFirstRegularSeg != 0 then flFirstRegularSeg else 0) |||
        (if UInt16.ofNat n &&& flField2 != 0 then flField2 else 0) := by
  decide

theorem clean_flags : ∀ n < 64, UInt16.ofNat n &&& flTransportError = 0 →
    UInt16.ofNat n &&& ~~~flTransportError = UInt16.ofNat n := by
  decide

theorem clean_segment (s : Nat) : (segment s).flags &&& flTransportError = 0 := by
  simp only [segment]
  split <;> split <;> decide

variable {x : Plinfo} {s : Nat}

theorem cleared_of_clean (sane : x.sanityCheck = .ok ()) (clean : x.flags &&& flTransportError = 0) :
    x.cleared = x := by
  unfold sanityCheck at sane
  split at sane
  · rename_i checked
    have same := clean_flags _ (flags_lt checked.2.1)
    rw [UInt16.ofNat_toNat] at same
    rw [cleared, same clean]
  · cases sane

theorem Marks.first (marks : x.Marks s) : x.firstRegularSegP = decide (s % 312 = 0) := by
  have sane := marks.sane
  unfold sanityCheck at sane
  split at sane
  · rename_i checked
    have number := marks.segno
    have zero : x.segno = 0 ↔ s % 312 = 0 := by
      rw [← UInt16.toNat_inj, number, UInt16.toNat_zero]
    have either := checked.2.2.2
    by_cases here : s % 312 = 0
    · simpa [zero.mpr here, here] using either
    · have other : (x.segno != 0) = true := bne_iff_ne.mpr (mt zero.mp here)
      simpa [other, here] using either
  · cases sane

/-- Apart from `fl_transport_error` it is what `set_regular_seg` makes. -/
theorem Marks.cleared_eq (marks : x.Marks s) : x.cleared = segment s := by
  have sane := marks.sane
  unfold sanityCheck at sane
  split at sane
  · rename_i checked
    have place : x.segno = UInt16.ofNat (s % 312) := by
      rw [← marks.segno, UInt16.ofNat_toNat]
    have sync : x.fieldSyncP = false := by
      simpa [marks.regular] using checked.2.2.1
    have made := cleared_flags _ (flags_lt checked.2.1)
    rw [UInt16.ofNat_toNat] at made
    have flags := made marks.regular sync
    rw [cleared, segment, place, flags]
    congr 1
    rw [show (x.flags &&& flFirstRegularSeg != 0) = _ from marks.first,
      show (x.flags &&& flField2 != 0) = _ from marks.field2]
    simp only [decide_eq_true_eq]
  · cases sane

theorem Marks.delay_eq (marks : x.Marks s) (d : Int) : x.delay d = (segment s).delay d := by
  simp only [delay, marks.regular, marks.field2, marks.segno, regularSegP_segment,
    inField2P_segment, segno_segment]

end Plinfo

/-- A packet with its pipeline info cleared of `fl_transport_error`. -/
def AtscMpegPacketRsEncoded.cleared (p : AtscMpegPacketRsEncoded) : AtscMpegPacketRsEncoded :=
  { p with pli := p.pli.cleared }

/-! ## Packets in order -/

variable {α : Type} {c : ConvolutionalInterleaver UInt8} {d : DataDeinterleaver}

theorem sync_eq {c : ConvolutionalInterleaver α} (start : c.commutator = 0) : c.sync = c := by
  cases c
  cases start
  rfl

theorem feed_commutator (c : ConvolutionalInterleaver α) (xs : List α) :
    (feed transform c xs).2.commutator = (c.commutator + xs.length) % c.nbanks := by
  induction xs generalizing c with
  | nil => exact (Nat.mod_eq_of_lt c.commutator_lt).symm
  | cons x xs ih =>
    rw [feed_cons, ih, transform_commutator, transform_nbanks, turnAfter_add_mod c.commutator_lt,
      List.length_cons]

theorem feed_stuff (f : InterleaverFifo α) (xs : List α) :
    (feed InterleaverFifo.stuff f xs).1 = (feed shift f.contents xs).1 ∧
      (feed InterleaverFifo.stuff f xs).2.contents = (feed shift f.contents xs).2 := by
  refine feed_simulates (fun (f : InterleaverFifo α) q => f.contents = q) ?_ rfl xs
  intro f q x same
  rw [← same]
  exact f.stuff_eq x

/-- Before the packet at a position of the two fields the interleaver and the deinterleaver
hold 52 packets together. -/
structure Held (s : Nat) (held : List AtscMpegPacketRsEncoded) (c : ConvolutionalInterleaver UInt8)
    (d : DataDeinterleaver) : Prop where
  count : held.length = 52
  info : ∀ j p, held[j]? = some p → p.pli = Plinfo.segment (s + 572 + j)
  commutator : c.commutator = 207 * s % 52
  bytes : ∃ q, Aligned 52 204 c d.interleaver q ∧
    d.alignmentFifo.contents ++ q = held.flatMap AtscMpegPacketRsEncoded.data

theorem Held.sync {s : Nat} {held : List AtscMpegPacketRsEncoded} (related : Held s held c d) :
    (if (Plinfo.segment s).firstRegularSegP = true then c.sync else c) = c ∧
      (if (Plinfo.segment s).firstRegularSegP = true then d.interleaver.sync else d.interleaver) =
        d.interleaver := by
  obtain ⟨q, aligned, -⟩ := related.bytes
  rw [Plinfo.firstRegularSegP_segment]
  split
  · rename_i first
    have whole : s % 312 = 0 := of_decide_eq_true first
    have start : c.commutator = 0 := by
      rw [related.commutator]
      omega
    exact ⟨sync_eq start, sync_eq (aligned.together.trans start)⟩
  · exact ⟨rfl, rfl⟩

theorem feed_deinterleaver {n k : Nat} {q : List UInt8} (aligned : Aligned n k c d.interleaver q)
    (xs : List UInt8) :
    ∃ done, feed (cascade transform InterleaverFifo.stuff) (d.interleaver, d.alignmentFifo)
        (feed transform c xs).1 = done ∧
      done.1 = (d.alignmentFifo.contents ++ q ++ xs).take xs.length ∧
      ∃ q', Aligned n k (feed transform c xs).2 done.2.1 q' ∧
        done.2.2.contents ++ q' = (d.alignmentFifo.contents ++ q ++ xs).drop xs.length := by
  obtain ⟨through, next⟩ := aligned.passed xs
  obtain ⟨output, rest⟩ := feed_stuff d.alignmentFifo (feed transform d.interleaver
    (feed transform c xs).1).1
  obtain ⟨taken, left⟩ := feed_shift_shift q d.alignmentFifo.contents xs
  have middle : (feed transform d.interleaver (feed transform c xs).1).1 = (feed shift q xs).1 := by
    rw [through, feed_shift]
  have back : (feed shift q xs).2 = (q ++ xs).drop xs.length := by
    rw [feed_shift]
  refine ⟨_, feed_cascade _ _ _ _ _, ?_, _, next, ?_⟩
  · rw [output, middle, taken]
  · rw [rest, middle, ← back, left]

theorem Held.step {s : Nat} {held : List AtscMpegPacketRsEncoded}
    {c : ConvolutionalInterleaver UInt8} {d : DataDeinterleaver} (related : Held s held c d)
    {p : AtscMpegPacketRsEncoded} (marks : p.pli.Marks s) :
    ∃ c' d', cascadeM interleave deinterleave (c, d) p = .ok ((shift held p.cleared).1, c', d') ∧
      Held (s + 1) (shift held p.cleared).2 c' d' := by
  obtain ⟨q, aligned, bytes⟩ := related.bytes
  obtain ⟨syncC, syncD⟩ := related.sync
  obtain ⟨first, rest, rfl⟩ : ∃ first rest, held = first :: rest := by
    cases held with
    | nil => exact absurd related.count (by decide)
    | cons first rest => exact ⟨first, rest, rfl⟩
  obtain ⟨done, ran, output, q', next, left⟩ := feed_deinterleaver aligned p.data
  rw [bytes, List.flatMap_cons, List.append_assoc, p.length_eq, ← first.length_eq] at output left
  rw [List.take_left] at output
  rw [List.drop_left] at left
  have moved : p.pli.delay 52 = .ok first.pli := by
    rw [marks.delay_eq, related.info 0 first rfl]
    exact Plinfo.delay_segment s rfl
  rw [Plinfo.firstRegularSegP_segment, ← marks.first] at syncC syncD
  refine ⟨(feed transform c p.data).2, ⟨done.2.1, done.2.2⟩, ?_, ?_, ?_, ?_, q', next, ?_⟩
  · have sent : interleave c p = .ok (⟨p.pli, (feed transform c p.data).1,
        (length_feed _ _ _).trans p.length_eq⟩, (feed transform c p.data).2) := by
      simp only [interleave, marks.regular, marks.sane, syncC]
      rfl
    have received : deinterleave d ⟨p.pli, (feed transform c p.data).1,
        (length_feed _ _ _).trans p.length_eq⟩ = .ok (first, ⟨done.2.1, done.2.2⟩) := by
      simp only [deinterleave, marks.regular, marks.sane, syncD, moved, ran, output]
      rfl
    exact bind_ok.mpr ⟨_, sent, bind_ok.mpr ⟨_, received, rfl⟩⟩
  · rw [length_shift]
    exact related.count
  · intro j packet here
    rw [getElem?_shift, related.count] at here
    split at here
    · rename_i last
      cases here
      have round : s + 1 + 572 + j = s + 624 := by omega
      rw [round, Plinfo.segment_add_624]
      exact marks.cleared_eq
    · rw [related.info (j + 1) packet here]
      congr 1
      omega
  · rw [feed_commutator, related.commutator, aligned.banks, p.length_eq, atscMpegRsEncodedLength]
    omega
  · rw [left, shift, List.flatMap_append, List.flatMap_singleton, AtscMpegPacketRsEncoded.cleared]

theorem Held.run {packets : List AtscMpegPacketRsEncoded} {s : Nat}
    {held : List AtscMpegPacketRsEncoded} {c : ConvolutionalInterleaver UInt8}
    {d : DataDeinterleaver} (related : Held s held c d)
    (marks : ∀ n p, packets[n]? = some p → Plinfo.Marks p.pli (s + n)) :
    ∃ c' d', feedM (cascadeM interleave deinterleave) (c, d) packets =
      .ok ((feed shift held (packets.map .cleared)).1, c', d') := by
  induction packets generalizing s held c d with
  | nil => exact ⟨c, d, rfl⟩
  | cons p packets ih =>
    obtain ⟨c₁, d₁, first, next⟩ := related.step (marks 0 p rfl)
    obtain ⟨c₂, d₂, rest⟩ := ih next fun n packet here => by
      rw [Nat.add_assoc, Nat.add_comm 1 n]
      exact marks (n + 1) packet here
    exact ⟨c₂, d₂, feedM_cons_ok first rest⟩

/-- The packets are marked as the regular segments of consecutive fields, from the first segment of
a field on. -/
def FieldSegments (field2 : Bool) (packets : List AtscMpegPacketRsEncoded) : Prop :=
  ∀ n p, packets[n]? = some p → p.pli.sanityCheck = .ok () ∧ p.pli.regularSegP = true ∧
    p.pli.segno.toNat = n % 312 ∧ p.pli.inField2P = (field2 ^^ decide (n / 312 % 2 = 1))

theorem FieldSegments.marks {field2 : Bool} {packets : List AtscMpegPacketRsEncoded}
    (segments : FieldSegments field2 packets) {n : Nat} {p : AtscMpegPacketRsEncoded}
    (here : packets[n]? = some p) : p.pli.Marks ((if field2 then 312 else 0) + n) := by
  obtain ⟨sane, regular, segno, second⟩ := segments n p here
  refine ⟨sane, regular, ?_, ?_⟩
  · rw [segno]
    split <;> omega
  · rw [second]
    cases field2 with
    | false =>
      rw [Bool.false_xor, if_neg Bool.false_ne_true]
      exact decide_eq_decide.mpr (by omega)
    | true =>
      rw [Bool.true_xor, if_pos rfl, ← decide_not]
      exact decide_eq_decide.mpr (by omega)

/-- A packet of zeros. -/
def zeroPacket (s : Nat) : AtscMpegPacketRsEncoded where
  pli := Plinfo.segment s
  data := List.replicate 207 0
  length_eq := List.length_replicate

theorem flatMap_zeroPacket (l : List Nat) :
    (l.map zeroPacket).flatMap AtscMpegPacketRsEncoded.data =
      List.replicate (l.length * 207) 0 := by
  induction l with
  | nil => rfl
  | cons s l ih =>
    rw [List.map_cons, List.flatMap_cons, ih, zeroPacket, List.replicate_append_replicate,
      List.length_cons]
    congr 1
    omega

theorem held_start {s : Nat} (first : s % 312 = 0) :
    ∃ c d, dataInterleaver = .ok c ∧ dataDeinterleaver = .ok d ∧
      Held s ((List.range 52).map fun j => zeroPacket (s + 572 + j)) c d := by
  obtain ⟨c, madeC⟩ := make_total (α := UInt8) (n := 52) (k := 4) true (by decide) (by decide)
    (by decide)
  obtain ⟨e, madeD⟩ := make_total (α := UInt8) (n := 52) (k := 4) false (by decide) (by decide)
    (by decide)
  refine ⟨c, ⟨e, .make 156⟩, madeC, bind_ok.mpr ⟨e, madeD, rfl⟩, ?_, ?_, ?_, ?_⟩
  · rw [List.length_map, List.length_range]
  · intro j p here
    rw [List.getElem?_map, Option.map_eq_some_iff] at here
    obtain ⟨i, found, rfl⟩ := here
    obtain ⟨inside, same⟩ := List.getElem?_eq_some_iff.mp found
    rw [List.getElem_range] at same
    rw [← same]
    rfl
  · rw [(make_ok madeC).1]
    omega
  · refine ⟨_, aligned_make (by decide) madeC madeD, ?_⟩
    have zeros := flatMap_zeroPacket ((List.range 52).map fun j => s + 572 + j)
    rw [List.map_map, List.length_map, List.length_range] at zeros
    rw [InterleaverFifo.contents_make, List.replicate_append_replicate]
    exact zeros.symm

theorem delayed_cleared {field2 : Bool} {packets : List AtscMpegPacketRsEncoded}
    (segments : FieldSegments field2 packets) :
    ∃ c d sent c' received d', dataInterleaver = .ok c ∧ dataDeinterleaver = .ok d ∧
      feedM interleave c packets = .ok (sent, c') ∧ feedM deinterleave d sent = .ok (received, d') ∧
      received.length = packets.length ∧
      (∀ p ∈ received.take 52, p.data = List.replicate 207 0) ∧
      received.drop 52 = (packets.take (packets.length - 52)).map .cleared := by
  have first : (if field2 then 312 else 0) % 312 = 0 := by
    split <;> rfl
  obtain ⟨c, d, madeC, madeD, held⟩ := held_start first
  obtain ⟨c', d', ran⟩ := held.run fun n p here => segments.marks here
  obtain ⟨sent, front, back⟩ := feedM_cascade ran
  rw [feed_shift] at back
  refine ⟨c, d, sent, c', _, d', madeC, madeD, front, back, ?_, ?_, ?_⟩
  · simp
  · intro p member
    rw [List.take_take] at member
    have early := (List.take_prefix_take_left (Nat.min_le_left _ _)).subset member
    rw [List.take_left' (by simp), List.mem_map] at early
    obtain ⟨i, -, rfl⟩ := early
    rfl
  · rw [List.drop_take, List.drop_left' (by simp), List.map_take, List.length_map]

/-- **Interleaving and deinterleaving.** The packets are delayed by 52, and each comes with its own
field and segment number. `plinfo::delay` makes new pipeline info, without `fl_transport_error`. -/
theorem data_interleaver_delay {field2 : Bool} {packets : List AtscMpegPacketRsEncoded}
    (segments : FieldSegments field2 packets) :
    ∃ c d sent c' received d', dataInterleaver = .ok c ∧ dataDeinterleaver = .ok d ∧
      feedM interleave c packets = .ok (sent, c') ∧ feedM deinterleave d sent = .ok (received, d') ∧
      received.length = packets.length ∧
      (∀ p ∈ received.take 52, p.data = List.replicate 207 0) ∧
      received.drop 52 = (packets.take (packets.length - 52)).map .cleared ∧
      ((∀ p ∈ packets, p.pli.flags &&& Plinfo.flTransportError = 0) →
        received.drop 52 = packets.take (packets.length - 52)) := by
  obtain ⟨c, d, sent, c', received, d', madeC, madeD, front, back, length, zeros, delayed⟩ :=
    delayed_cleared segments
  refine ⟨c, d, sent, c', received, d', madeC, madeD, front, back, length, zeros, delayed, ?_⟩
  intro clean
  refine delayed.trans ((List.map_congr_left fun p member => ?_).trans (List.map_id _))
  have inside := List.mem_of_mem_take member
  obtain ⟨n, here⟩ := List.mem_iff_getElem?.mp inside
  rw [AtscMpegPacketRsEncoded.cleared, Plinfo.cleared_of_clean (segments.marks here).sane
    (clean p inside), id]

/-- Packets of a field that hold their number. -/
def numberedPackets (n : Nat) : List AtscMpegPacketRsEncoded := (List.range n).map fun i =>
  { pli := Plinfo.segment i
    data := List.replicate 207 (UInt8.ofNat i)
    length_eq := List.length_replicate }

theorem numberedPackets_segments (n : Nat) : FieldSegments false (numberedPackets n) := by
  intro i p here
  rw [numberedPackets, List.getElem?_map, Option.map_eq_some_iff] at here
  obtain ⟨k, found, rfl⟩ := here
  obtain ⟨inside, same⟩ := List.getElem?_eq_some_iff.mp found
  rw [List.getElem_range] at same
  have field : decide (312 ≤ i % 624) = (false ^^ decide (i / 312 % 2 = 1)) := by
    rw [Bool.false_xor]
    exact decide_eq_decide.mpr (by omega)
  rw [← same, ← field]
  exact ⟨Plinfo.sanityCheck_segment i, Plinfo.regularSegP_segment i, Plinfo.segno_segment i,
    Plinfo.inField2P_segment i⟩

/-- Two fields of numbered packets. -/
theorem data_interleaver_delay_numbered :
    ∃ c d sent c' received d', dataInterleaver = .ok c ∧ dataDeinterleaver = .ok d ∧
      feedM interleave c (numberedPackets 624) = .ok (sent, c') ∧
      feedM deinterleave d sent = .ok (received, d') ∧ received.length = 624 ∧
      (∀ p ∈ received.take 52, p.data = List.replicate 207 0) ∧
      received.drop 52 = (numberedPackets 624).take 572 := by
  have length : (numberedPackets 624).length = 624 := by
    rw [numberedPackets, List.length_map, List.length_range]
  obtain ⟨c, d, sent, c', received, d', madeC, madeD, front, back, same, zeros, -, delayed⟩ :=
    data_interleaver_delay (numberedPackets_segments 624)
  rw [length] at same delayed
  refine ⟨c, d, sent, c', received, d', madeC, madeD, front, back, same, zeros, delayed ?_⟩
  intro p member
  obtain ⟨i, -, rfl⟩ := List.mem_map.mp member
  exact Plinfo.clean_segment i

/-- The first segment of a field, received with an error. -/
def erroneousPacket : AtscMpegPacketRsEncoded where
  pli := ⟨Plinfo.flRegularSeg ||| Plinfo.flFirstRegularSeg ||| Plinfo.flTransportError, 0⟩
  data := List.replicate 207 0
  length_eq := List.length_replicate

/-- `fl_transport_error` does not come through. -/
theorem transport_error_is_lost :
    let packets := erroneousPacket :: (numberedPackets 53).tail
    FieldSegments false packets ∧ ∃ c d sent c' received d', dataInterleaver = .ok c ∧
      dataDeinterleaver = .ok d ∧ feedM interleave c packets = .ok (sent, c') ∧
      feedM deinterleave d sent = .ok (received, d') ∧
      (received.drop 52).map AtscMpegPacketRsEncoded.pli ≠ [erroneousPacket.pli] := by
  have segments : FieldSegments false (erroneousPacket :: (numberedPackets 53).tail) := by
    rintro (_ | n) p here
    · obtain rfl := Option.some.inj here
      decide
    · rw [List.getElem?_cons_succ, List.getElem?_tail] at here
      exact numberedPackets_segments 53 (n + 1) p here
  obtain ⟨c, d, sent, c', received, d', madeC, madeD, front, back, -, -, delayed⟩ :=
    delayed_cleared segments
  refine ⟨segments, c, d, sent, c', received, d', madeC, madeD, front, back, ?_⟩
  have length : (erroneousPacket :: (numberedPackets 53).tail).length = 53 := by
    simp [numberedPackets]
  rw [delayed, length]
  decide

end GnuRadio
