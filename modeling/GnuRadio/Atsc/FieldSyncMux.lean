import GnuRadio.Atsc.Types
import GnuRadio.Misc.Except
import GnuRadio.Misc.Trace

/-!
# The field sync multiplexer

`atsc_field_sync_mux` puts a field sync in front of the first regular segment of each field. It is a
`gr_sync_block`, and so consumes as many segments as it has written, those with a field sync
included.
-/

namespace GnuRadio

/-- The last symbols of a segment, of which there are `N_SAVED_SYMBOLS`. -/
abbrev SavedSymbols : Type := { symbols : List (Fin 8) // symbols.length = 12 }

/-- `atsc_field_sync_mux` (`atsc_field_sync_mux.h:57-59`). -/
structure FieldSyncMux where
  d_current_index : ℕ
  d_already_output_field_sync : Bool
  d_saved_symbols : SavedSymbols

/-- The state of the loop of `work`. -/
structure MuxTurn where
  index : ℕ
  d_already_output_field_sync : Bool
  d_saved_symbols : SavedSymbols
  out : List AtscDataSegment

namespace FieldSyncMux

def nSavedSymbols : ℕ := 12

/-- `bin_map`: binary values as two of the eight levels. -/
def binMap (bit : UInt8) : Fin 8 := [1, 6].getD bit.toNat 0

/-- The mode identifier of VSB8. -/
def vsb8Mode : List UInt8 :=
  [0, 0, 0, 0, 1, 0, 1, 0, 0, 1, 0, 1, 1, 1, 1, 1, 0, 1, 0, 1, 1, 0, 1, 0]

/-- `init_field_sync_common` (`atsc_field_sync_mux.cc:51-116`). -/
def initFieldSyncCommon (mask : UInt8) (saved_symbols : SavedSymbols) : List (Fin 8) :=
  [1, 0, 0, 1].map binMap ++ atscPn511.map binMap ++ atscPn63.map binMap ++
    atscPn63.map (fun bit => binMap (bit ^^^ mask)) ++ atscPn63.map binMap ++
    vsb8Mode.map binMap ++
    (List.range 92).map (fun j => binMap (atscPn63.getD (j % 63) 0)) ++ saved_symbols.val

theorem length_initFieldSyncCommon (mask : UInt8) (saved_symbols : SavedSymbols) :
    (initFieldSyncCommon mask saved_symbols).length = atscDataSegmentLength := by
  simp only [initFieldSyncCommon, List.length_append, List.length_map, List.length_range,
    length_atscPn511, length_atscPn63, saved_symbols.property]
  decide

/-- The field sync in front of a segment: its pipeline info is that of the constructor. -/
def fieldSync (first : AtscDataSegment) (saved_symbols : SavedSymbols) : AtscDataSegment where
  pli := ⟨0, 0⟩
  data := initFieldSyncCommon (if !first.pli.inField2P then 0 else 1) saved_symbols
  length_eq := length_initFieldSyncCommon _ saved_symbols

theorem length_lastSymbols (seg : AtscDataSegment) :
    (seg.data.drop (atscDataSegmentLength - nSavedSymbols)).length = 12 := by
  rw [List.length_drop, seg.length_eq]
  decide

/-- `save_last_symbols` (`atsc_field_sync_mux.cc:132-137`). -/
def saveLastSymbols (seg : AtscDataSegment) : SavedSymbols :=
  ⟨seg.data.drop (atscDataSegmentLength - nSavedSymbols), length_lastSymbols seg⟩

/-- `last_regular_seg_p` (`atsc_field_sync_mux.cc:140-144`). -/
def lastRegularSegP (pli : Plinfo) : Bool :=
  pli.regularSegP && pli.segno.toNat == atscDsegsPerField - 1

/-- A round of the loop of `work` (`atsc_field_sync_mux.cc:165-198`). -/
def muxRound (input : ℕ → AtscDataSegment) (turn : MuxTurn) : Except CppException MuxTurn :=
  let seg := input turn.index
  if !seg.pli.regularSegP then .error .assertFailed
  else if !seg.pli.firstRegularSegP then .ok { turn with
    out := turn.out ++ [seg]
    d_saved_symbols := if lastRegularSegP seg.pli then saveLastSymbols seg else turn.d_saved_symbols
    index := turn.index + 1 }
  else if !turn.d_already_output_field_sync then .ok { turn with
    out := turn.out ++ [fieldSync seg turn.d_saved_symbols]
    d_already_output_field_sync := true }
  else .ok { turn with
    out := turn.out ++ [seg]
    index := turn.index + 1
    d_already_output_field_sync := false }

/-- `work` (`atsc_field_sync_mux.cc:156-203`): the output, and the block after it. -/
def work (block : FieldSyncMux) (noutput_items : ℕ) (input : ℕ → AtscDataSegment) :
    Except CppException (List AtscDataSegment × FieldSyncMux) := do
  let turn ← (List.range noutput_items).foldlM (fun turn _ => muxRound input turn)
    ⟨0, block.d_already_output_field_sync, block.d_saved_symbols, []⟩
  return (turn.out, {
    d_current_index := block.d_current_index + turn.index
    d_already_output_field_sync := turn.d_already_output_field_sync
    d_saved_symbols := turn.d_saved_symbols })

/-- `gr_sync_block::general_work` (`gr_sync_block.cc:58-68`) with the `work` of this block: the
output, the items consumed, and the block after it. -/
def generalWork (block : FieldSyncMux) (noutput_items : ℕ) (input : ℕ → AtscDataSegment) :
    Except CppException (List AtscDataSegment × ℕ × FieldSyncMux) := do
  let (out, block) ← work block noutput_items input
  return (out, if 0 < noutput_items then noutput_items else 0, block)

end FieldSyncMux

/-- A stream of regular segments. -/
structure SegmentStream where
  segment : ℕ → AtscDataSegment
  regular : ∀ i, (segment i).pli.regularSegP = true

/-- The block with what its calls have consumed and written. -/
structure MuxRun where
  block : FieldSyncMux
  position : ℕ
  out : List AtscDataSegment

namespace MuxRun

open FieldSyncMux

variable (stream : SegmentStream)

/-- Before the first call. The constructor leaves the block as it finds it. -/
def start (block : FieldSyncMux) : MuxRun := ⟨block, 0, []⟩

/-- A call, given at least the segments that `forecast` demands. -/
def step (w : MuxRun) (noutput_items : ℕ) : Option MuxRun :=
  (generalWork w.block noutput_items fun i => stream.segment (w.position + i)).toOption.map
    fun (out, consumed, block) => ⟨block, w.position + consumed, w.out ++ out⟩

def consumed (w : MuxRun) : List AtscDataSegment := (List.range w.position).map stream.segment

/-! ## What the block is for -/

/-- The symbols saved behind a segment. -/
def savedBehind (saved_symbols : SavedSymbols) (seg : AtscDataSegment) : SavedSymbols :=
  if !seg.pli.firstRegularSegP && lastRegularSegP seg.pli then saveLastSymbols seg
  else saved_symbols

/-- Segments with a field sync in front of each that is the first of a field. -/
def muxed : SavedSymbols → List AtscDataSegment → List AtscDataSegment
  | _, [] => []
  | saved_symbols, seg :: segs =>
      (if seg.pli.firstRegularSegP then [fieldSync seg saved_symbols] else []) ++
        seg :: muxed (savedBehind saved_symbols seg) segs

/-- Every segment consumed has passed, once and in its place, with the field syncs in front of the
first ones and of nothing else. -/
def Passes (saved_symbols : SavedSymbols) (w : MuxRun) : Prop :=
  (w.out = muxed saved_symbols (w.consumed stream) ∨
    (stream.segment w.position).pli.firstRegularSegP = true ∧
      w.out = muxed saved_symbols (w.consumed stream) ++ [fieldSync (stream.segment w.position)
        ((w.consumed stream).foldl savedBehind saved_symbols)]) ∧
  w.out.filter (·.pli.regularSegP) = w.consumed stream

/-! ## Rounds -/

variable {input : ℕ → AtscDataSegment} {turn : MuxTurn}

theorem round_regular
    (regular : (input turn.index).pli.regularSegP = true)
    (other : (input turn.index).pli.firstRegularSegP = false) :
    muxRound input turn = .ok { turn with
      out := turn.out ++ [input turn.index]
      d_saved_symbols := savedBehind turn.d_saved_symbols (input turn.index)
      index := turn.index + 1 } := by
  simp only [muxRound, regular, other, savedBehind, Bool.not_true, Bool.not_false, Bool.true_and,
    if_true, Bool.false_eq_true, if_false]

theorem round_fieldSync
    (regular : (input turn.index).pli.regularSegP = true)
    (first : (input turn.index).pli.firstRegularSegP = true)
    (missing : turn.d_already_output_field_sync = false) :
    muxRound input turn = .ok { turn with
      out := turn.out ++ [fieldSync (input turn.index) turn.d_saved_symbols]
      d_already_output_field_sync := true } := by
  simp only [muxRound, regular, first, missing, Bool.not_true, Bool.not_false, if_true,
    Bool.false_eq_true, if_false]

theorem round_first
    (regular : (input turn.index).pli.regularSegP = true)
    (first : (input turn.index).pli.firstRegularSegP = true)
    (already : turn.d_already_output_field_sync = true) :
    muxRound input turn = .ok { turn with
      out := turn.out ++ [input turn.index]
      index := turn.index + 1
      d_already_output_field_sync := false } := by
  simp only [muxRound, regular, first, already, Bool.not_true, Bool.false_eq_true, if_false]

theorem exists_round (turn : MuxTurn) (regular : (input turn.index).pli.regularSegP = true) :
    ∃ turn' seg, muxRound input turn = .ok turn' ∧ turn'.out = turn.out ++ [seg] := by
  cases first : (input turn.index).pli.firstRegularSegP with
  | false => exact ⟨_, _, round_regular regular first, rfl⟩
  | true =>
    cases already : turn.d_already_output_field_sync with
    | false => exact ⟨_, _, round_fieldSync regular first already, rfl⟩
    | true => exact ⟨_, _, round_first regular first already, rfl⟩

theorem exists_rounds (input : ℕ → AtscDataSegment)
    (regular : ∀ i, (input i).pli.regularSegP = true) (noutput_items : ℕ) (turn : MuxTurn) :
    ∃ turn', (List.range noutput_items).foldlM (fun turn _ => muxRound input turn) turn =
        .ok turn' ∧
      turn'.out.length = turn.out.length + noutput_items := by
  induction noutput_items with
  | zero => exact ⟨turn, rfl, rfl⟩
  | succ noutput_items ih =>
    obtain ⟨mid, looped, length⟩ := ih
    obtain ⟨turn', seg, rounded, more⟩ := exists_round mid (regular mid.index)
    refine ⟨turn', ?_, ?_⟩
    · rw [List.range_succ]
      exact foldlM_append_ok.mpr ⟨mid, looped, foldlM_singleton_ok.mpr rounded⟩
    · rw [more, List.length_append, length, List.length_singleton, Nat.add_assoc]

theorem rounds_regular {noutput_items : ℕ} (turn : MuxTurn)
    (regular : ∀ i, (input i).pli.regularSegP = true)
    (others : ∀ i < noutput_items, (input (turn.index + i)).pli.firstRegularSegP = false) :
    ∃ turn', (List.range noutput_items).foldlM (fun turn _ => muxRound input turn) turn =
        .ok turn' ∧
      turn'.index = turn.index + noutput_items ∧
      turn'.out = turn.out ++ (List.range noutput_items).map fun i => input (turn.index + i) := by
  induction noutput_items with
  | zero => exact ⟨turn, rfl, rfl, (List.append_nil _).symm⟩
  | succ noutput_items ih =>
    obtain ⟨mid, looped, index, out⟩ := ih fun i less => others i (Nat.lt_succ_of_lt less)
    have other := others noutput_items (Nat.lt_succ_self _)
    rw [← index] at other
    refine ⟨{ mid with
        out := mid.out ++ [input mid.index]
        d_saved_symbols := savedBehind mid.d_saved_symbols (input mid.index)
        index := mid.index + 1 }, ?_, ?_, ?_⟩
    · rw [List.range_succ]
      exact foldlM_append_ok.mpr ⟨mid, looped, foldlM_singleton_ok.mpr
        (round_regular (regular mid.index) other)⟩
    · exact congrArg (· + 1) index
    · rw [List.range_succ, List.map_append, ← List.append_assoc, ← out, List.map_singleton, ← index]

/-! ## Runs -/

theorem exists_step (w : MuxRun) (noutput_items : ℕ) :
    ∃ w', w.step stream noutput_items = some w' ∧ w'.position = w.position + noutput_items ∧
      ∃ out, out.length = noutput_items ∧ w'.out = w.out ++ out ∧
        ((∀ i < noutput_items,
            (stream.segment (w.position + i)).pli.firstRegularSegP = false) →
          out = (List.range noutput_items).map fun i => stream.segment (w.position + i)) := by
  have regular : ∀ i, (stream.segment (w.position + i)).pli.regularSegP = true :=
    fun i => stream.regular _
  obtain ⟨turn, looped, length⟩ := exists_rounds
    (fun i => stream.segment (w.position + i)) regular noutput_items
    ⟨0, w.block.d_already_output_field_sync, w.block.d_saved_symbols, []⟩
  have amount : (if 0 < noutput_items then noutput_items else 0) = noutput_items := by
    split
    · rfl
    · omega
  refine ⟨⟨⟨w.block.d_current_index + turn.index, turn.d_already_output_field_sync,
    turn.d_saved_symbols⟩, w.position + noutput_items, w.out ++ turn.out⟩, ?_, rfl, turn.out, ?_,
    rfl, ?_⟩
  · rw [step, generalWork, work, looped, ok_bind, amount]
    rfl
  · rw [length]
    exact Nat.zero_add _
  · intro others
    obtain ⟨turn', looped', -, out⟩ := rounds_regular
      ⟨0, w.block.d_already_output_field_sync, w.block.d_saved_symbols, []⟩ regular
      (fun i less => (Nat.zero_add i).symm ▸ others i less)
    obtain rfl := Except.ok.inj (looped.symm.trans looped')
    rw [out]
    simp only [List.nil_append, Nat.zero_add]

/-- What every run keeps: there are as many output items as segments consumed, and without the
first segment of a field among these they are the output. -/
structure Known (w : MuxRun) : Prop where
  length : w.out.length = w.position
  copied : (∀ i < w.position, (stream.segment i).pli.firstRegularSegP = false) →
    w.out = w.consumed stream

theorem Known.step {w w' : MuxRun} {noutput_items : ℕ} (known : w.Known stream)
    (stepped : w.step stream noutput_items = some w') : w'.Known stream := by
  obtain ⟨w'', stepped', position, out, length, same, copied⟩ := w.exists_step stream noutput_items
  obtain rfl := Option.some.inj (stepped.symm.trans stepped')
  constructor
  · rw [same, List.length_append, known.length, length, position]
  · intro others
    rw [position] at others
    rw [same, known.copied fun i less => others i (Nat.lt_add_right _ less),
      copied fun i less => others _ (Nat.add_lt_add_left less _), consumed, consumed, position,
      List.range_add, List.map_append, List.map_map]
    rfl

theorem length_muxed (saved_symbols : SavedSymbols) (segs : List AtscDataSegment) :
    (muxed saved_symbols segs).length = segs.length + segs.countP (·.pli.firstRegularSegP) := by
  induction segs generalizing saved_symbols with
  | nil => rfl
  | cons seg segs ih =>
    rw [muxed, List.length_append, List.length_cons, ih, List.length_cons, List.countP_cons]
    split
    · rw [List.length_singleton]
      omega
    · rw [List.length_nil]
      omega

theorem muxed_regular (saved_symbols : SavedSymbols) {segs : List AtscDataSegment}
    (others : ∀ seg ∈ segs, seg.pli.firstRegularSegP = false) :
    muxed saved_symbols segs = segs := by
  induction segs generalizing saved_symbols with
  | nil => rfl
  | cons seg segs ih =>
    rw [muxed, others seg List.mem_cons_self,
      ih _ fun seg' member => others seg' (List.mem_cons_of_mem seg member)]
    rfl

theorem Known.passes {w : MuxRun} (known : w.Known stream) (saved_symbols : SavedSymbols) :
    w.Passes stream saved_symbols ↔
      ∀ i < w.position, (stream.segment i).pli.firstRegularSegP = false := by
  have size : (w.consumed stream).length = w.position := by simp [consumed]
  constructor
  · rintro ⟨out, -⟩ i less
    have none : (w.consumed stream).countP (·.pli.firstRegularSegP) = 0 := by
      have length := known.length
      rcases out with out | ⟨-, out⟩
      · rw [out, length_muxed] at length
        omega
      · rw [out, List.length_append, length_muxed] at length
        omega
    have member : stream.segment i ∈ w.consumed stream :=
      List.mem_map_of_mem (List.mem_range.mpr less)
    exact eq_false_of_ne_true (List.countP_eq_zero.mp none _ member)
  · intro others
    have each : ∀ seg ∈ w.consumed stream, seg.pli.firstRegularSegP = false := by
      intro seg member
      obtain ⟨i, inside, rfl⟩ := List.mem_map.mp member
      exact others i (List.mem_range.mp inside)
    refine ⟨Or.inl ?_, ?_⟩
    · rw [muxed_regular saved_symbols each, known.copied others]
    · rw [known.copied others]
      apply List.filter_eq_self.mpr
      intro seg member
      obtain ⟨i, -, rfl⟩ := List.mem_map.mp member
      exact stream.regular i

/-- After any calls, the segments consumed have passed if and only if none of them is the first of
a field. -/
theorem passes_iff (block : FieldSyncMux) (calls : List ℕ) :
    ∃ w, run (step stream) (start block) calls = some w ∧
      (w.Passes stream block.d_saved_symbols ↔
        ∀ i < w.position, (stream.segment i).pli.firstRegularSegP = false) := by
  have total : ∀ w noutput_items, w.Known stream →
      ∃ w', step stream w noutput_items = some w' ∧ w'.Known stream := by
    intro w noutput_items known
    obtain ⟨w', stepped, -⟩ := w.exists_step stream noutput_items
    exact ⟨w', stepped, known.step stream stepped⟩
  obtain ⟨w, reached, known⟩ := run_total (s := start block) (fun w => w.Known stream)
    ⟨rfl, fun _ => rfl⟩ total calls
  exact ⟨w, reached, known.passes stream block.d_saved_symbols⟩

/-- The segments of field after field, from the beginning of the first one on. -/
def fields : SegmentStream where
  segment i := ⟨Plinfo.segment i, List.replicate atscDataSegmentLength 1, List.length_replicate⟩
  regular := Plinfo.regularSegP_segment

/-- A block as the constructor may leave it. -/
def fresh : FieldSyncMux := ⟨0, false, List.replicate nSavedSymbols 1, List.length_replicate⟩

/-- A call for three items writes a field sync and two segments, and consumes three. -/
theorem third_segment_lost : ¬ ∀ w, run (step fields) (start fresh) [3] = some w →
    w.Passes fields fresh.d_saved_symbols := by
  intro passes
  have first : (run (step fields) (start fresh) [3]).map
      (fun w => ((w.out.filter (·.pli.regularSegP)).length, (w.consumed fields).length)) =
        some (2, 3) := by
    decide +kernel
  obtain ⟨w, reached, lengths⟩ := Option.map_eq_some_iff.mp first
  obtain ⟨two, three⟩ := Prod.mk.inj lengths
  have same := congrArg List.length (passes w reached).2
  rw [two, three] at same
  exact absurd same (by decide)

end MuxRun

end GnuRadio
