import GnuRadio.Atsc.Types
import GnuRadio.Misc.Except
import GnuRadio.Misc.Trace
import Mathlib.Algebra.Order.BigOperators.Group.List

/-!
# The field sync demultiplexer

`atsc_field_sync_demux` reads symbols with a tag each. It looks for the beginning of a field sync,
and from there on turns every segment of 832 symbols but the field syncs into an output item. The
scheduler takes as many items from the input as the block says, and the block says what it has
noted in `d_consume`.
-/

namespace GnuRadio

/-- `atsc::syminfo` (`atsci_syminfo.h:30-35`). -/
structure Syminfo where
  symbol_num : BitVec 10
  segment_num : BitVec 9
  field_num : BitVec 1
  valid : BitVec 1
  deriving DecidableEq, Repr

namespace Syminfo

def siFieldSyncSegmentNum : BitVec 9 := 0x1ff

def tagIsStartFieldSync (tag : Syminfo) : Bool :=
  tag.symbol_num == 0 && tag.segment_num == siFieldSyncSegmentNum && tag.valid != 0

def tagIsStartFieldSync1 (tag : Syminfo) : Bool := tag.tagIsStartFieldSync && tag.field_num == 0

def tagIsStartFieldSync2 (tag : Syminfo) : Bool := tag.tagIsStartFieldSync && tag.field_num == 1

/-- `tag_is_seg_sync_or_field_sync` (`atsc_field_sync_demux.cc:61-65`). -/
def tagIsSegSyncOrFieldSync (tag : Syminfo) : Bool := tag.symbol_num == 0 && tag.valid != 0

theorem fieldSync_cases (tag : Syminfo) :
    tag.tagIsStartFieldSync = (tag.tagIsStartFieldSync1 || tag.tagIsStartFieldSync2) := by
  have field : tag.field_num = 0 ∨ tag.field_num = 1 := by
    generalize tag.field_num = f
    revert f
    decide
  rcases field with first | second
  · simp [tagIsStartFieldSync1, tagIsStartFieldSync2, first]
  · simp [tagIsStartFieldSync1, tagIsStartFieldSync2, second]

end Syminfo

/-- What is written to `cerr`. -/
inductive DemuxNote where
  | lostSync (index : ℕ)
  | synced (str : String) (index delta : ℕ)
  | ranOutOfInputData
  | segmentNumberOverflow
  deriving DecidableEq, Repr

/-- What becomes of items that are read. -/
inductive DemuxPiece where
  /-- Items that were passed while searching for a field sync. -/
  | skipped (count : ℕ)
  | fieldSync
  /-- A segment that was written to the output. -/
  | segment
  deriving DecidableEq, Repr

/-- `atsc_field_sync_demux` (`atsc_field_sync_demux.h:62-70`). -/
structure FieldSyncDemux where
  d_locked : Bool
  d_in_field2 : Bool
  d_segment_number : ℕ
  d_next_input : ℕ
  d_lost_index : ℕ
  d_inputs0_index : ℕ
  d_inputs0_size : ℕ
  d_consume : ℕ
  deriving DecidableEq, Repr

/-- What a call returns. -/
structure DemuxWork where
  block : FieldSyncDemux
  out : List AtscSoftDataSegment
  notes : List DemuxNote
  pieces : List DemuxPiece

/-- The state of the loop that produces output. -/
structure DemuxTurn where
  ii : ℕ
  d_in_field2 : Bool
  d_segment_number : ℕ
  out : List AtscSoftDataSegment
  notes : List DemuxNote
  pieces : List DemuxPiece

namespace FieldSyncDemux

/-- The constructor. -/
def make : FieldSyncDemux where
  d_locked := false
  d_in_field2 := true
  d_segment_number := 0
  d_next_input := 0
  d_lost_index := 0
  d_inputs0_index := 0
  d_inputs0_size := 0
  d_consume := 0

/-- `forecast` (`atsc_field_sync_demux.cc:67-77`): what it demands, and the block after it. -/
def forecast (block : FieldSyncDemux) (noutput_items : ℕ) : ℕ × FieldSyncDemux :=
  (noutput_items * atscDataSegmentLength + 2 * atscDataSegmentLength, { block with
    d_inputs0_index := block.d_next_input
    d_inputs0_size := noutput_items * atscDataSegmentLength + 2 * atscDataSegmentLength })

/-- The search (`atsc_field_sync_demux.cc:122-144`) over `count` more items: where it ends, and
whether there is the beginning of a field sync. -/
def search (input_tags : ℕ → Syminfo) : ℕ → ℕ → ℕ × Bool
  | 0, ii => (ii, false)
  | count + 1, ii =>
      if (input_tags ii).tagIsStartFieldSync then (ii, true) else search input_tags count (ii + 1)

/-- How the log calls a field sync. -/
def syncName (tag : Syminfo) : String :=
  if tag.tagIsStartFieldSync1 then "FIELD-1"
  else if tag.tagIsStartFieldSync2 then "FIELD-2"
  else "SEGMENT"

/-- The branch without sync (`atsc_field_sync_demux.cc:107-150`). -/
def resync (block : FieldSyncDemux) (input_tags : ℕ → Syminfo) : DemuxWork :=
  let lost := if block.d_locked then [DemuxNote.lostSync block.d_inputs0_index] else []
  let block := if block.d_locked then
    { block with d_locked := false, d_lost_index := block.d_inputs0_index } else block
  let found := search input_tags (block.d_inputs0_size - 1) 1
  let here := block.d_inputs0_index + found.1
  { block := { block with
      d_locked := found.2
      d_next_input := block.d_next_input + found.1
      d_consume := found.1 }
    out := []
    notes := lost ++ if found.2 then
      [.synced (syncName (input_tags found.1)) here (here - block.d_lost_index)] else []
    pieces := [.skipped found.1] }

/-- The copy of a segment (`atsc_field_sync_demux.cc:195-196`). -/
def segmentOf (data : ℕ → ℚ) (q : ℕ) : List ℚ :=
  (List.range atscDataSegmentLength).map fun jj => data (q + jj)

theorem length_segmentOf (data : ℕ → ℚ) (q : ℕ) :
    (segmentOf data q).length = atscDataSegmentLength := by
  simp [segmentOf]

/-- The loop that produces output (`atsc_field_sync_demux.cc:154-199`), with its turn and whether
it ran to its end. The rounds are counted. -/
def produce (noutput_items size index : ℕ) (input : ℕ → ℚ) (input_tags : ℕ → Syminfo) :
    ℕ → DemuxTurn → Except CppException (DemuxTurn × Bool)
  | 0, _ => .error .undefinedBehaviour
  | rounds + 1, turn =>
      if turn.out.length < noutput_items then
        if size - turn.ii < atscDataSegmentLength then
          .ok ({ turn with notes := turn.notes ++ [.ranOutOfInputData] }, false)
        else if !(input_tags turn.ii).tagIsSegSyncOrFieldSync then
          .ok ({ turn with notes := turn.notes ++ [.lostSync (index + turn.ii)] }, false)
        else if (input_tags turn.ii).tagIsStartFieldSync1 then
          produce noutput_items size index input input_tags rounds { turn with
            d_in_field2 := false
            d_segment_number := 0
            ii := turn.ii + atscDataSegmentLength
            pieces := turn.pieces ++ [.fieldSync] }
        else if (input_tags turn.ii).tagIsStartFieldSync2 then
          produce noutput_items size index input input_tags rounds { turn with
            d_in_field2 := true
            d_segment_number := 0
            ii := turn.ii + atscDataSegmentLength
            pieces := turn.pieces ++ [.fieldSync] }
        else do
          let overflow := atscDsegsPerField ≤ turn.d_segment_number
          let number := if overflow then 0 else turn.d_segment_number
          let pli ← Plinfo.setRegularSeg turn.d_in_field2 number
          produce noutput_items size index input input_tags rounds { turn with
            d_segment_number := number + 1
            notes := turn.notes ++ if overflow then [.segmentNumberOverflow] else []
            out := turn.out ++ [⟨pli, segmentOf input turn.ii, length_segmentOf input turn.ii⟩]
            ii := turn.ii + atscDataSegmentLength
            pieces := turn.pieces ++ [.segment] }
      else .ok (turn, true)

/-- `work` (`atsc_field_sync_demux.cc:94-205`). Only the end of the loop sets `d_consume`. -/
def work (block : FieldSyncDemux) (noutput_items : ℕ) (input : ℕ → ℚ) (input_tags : ℕ → Syminfo) :
    Except CppException DemuxWork :=
  if !(input_tags 0).tagIsSegSyncOrFieldSync then .ok (resync block input_tags)
  else do
    let (turn, finished) ← produce noutput_items block.d_inputs0_size block.d_inputs0_index input
      input_tags (block.d_inputs0_size / atscDataSegmentLength + 1)
      ⟨0, block.d_in_field2, block.d_segment_number, [], [], []⟩
    return {
      block := { block with
        d_in_field2 := turn.d_in_field2
        d_segment_number := turn.d_segment_number
        d_next_input := block.d_next_input + turn.ii
        d_consume := if finished then turn.ii else block.d_consume }
      out := turn.out
      notes := turn.notes
      pieces := turn.pieces }

/-- `general_work` (`atsc_field_sync_demux.cc:79-91`): what `work` does, and the items that the
call consumes. -/
def generalWork (block : FieldSyncDemux) (noutput_items : ℕ) (input : ℕ → ℚ)
    (input_tags : ℕ → Syminfo) : Except CppException (DemuxWork × ℕ) := do
  let r ← work block noutput_items input input_tags
  return (r, r.block.d_consume)

/-! ## What a call reads -/

/-- The tags of `m` segments from `p` on say that they begin there. -/
def InSync (tags : ℕ → Syminfo) (p m : ℕ) : Prop :=
  ∀ i < m, (tags (p + atscDataSegmentLength * i)).tagIsSegSyncOrFieldSync = true

/-- How many of the `m` segments from `p` on are no field syncs. -/
def regularSegments (tags : ℕ → Syminfo) (p m : ℕ) : ℕ :=
  (List.range m).countP fun i => !(tags (p + atscDataSegmentLength * i)).tagIsStartFieldSync

/-- Sync is not lost before `noutput_items` segments have been read, and at most two field syncs
are between them. -/
def Uninterrupted (tags : ℕ → Syminfo) (p noutput_items : ℕ) : Prop :=
  ∃ m ≤ noutput_items + 2, InSync tags p m ∧ regularSegments tags p m = noutput_items

/-- A call stops after `m` segments: there is no more input, or sync is lost. -/
def StopsAfter (tags : ℕ → Syminfo) (p noutput_items m : ℕ) : Prop :=
  m ≤ noutput_items + 2 ∧ InSync tags p m ∧ (m = noutput_items + 2 ∨
    (tags (p + atscDataSegmentLength * m)).tagIsSegSyncOrFieldSync = false)

end FieldSyncDemux

namespace DemuxPiece

def length : DemuxPiece → ℕ
  | .skipped count => count
  | .fieldSync => atscDataSegmentLength
  | .segment => atscDataSegmentLength

/-- The tags of a piece that begins at `q`. -/
def Tagged (tags : ℕ → Syminfo) (q : ℕ) : DemuxPiece → Prop
  | .skipped count => (tags q).tagIsSegSyncOrFieldSync = false ∧
      ∀ i, 0 < i → i < count → (tags (q + i)).tagIsStartFieldSync = false
  | .fieldSync => (tags q).tagIsStartFieldSync = true
  | .segment => (tags q).tagIsSegSyncOrFieldSync = true ∧ (tags q).tagIsStartFieldSync = false

/-- Pieces with their tags, one after another from `p` to `q`. -/
def Covers (tags : ℕ → Syminfo) : ℕ → List DemuxPiece → ℕ → Prop
  | p, [], q => p = q
  | p, piece :: pieces, q => piece.Tagged tags p ∧ Covers tags (p + piece.length) pieces q

/-- Where the segments begin among pieces one after another from `p` on. -/
def segmentsAt : ℕ → List DemuxPiece → List ℕ
  | _, [] => []
  | p, .segment :: pieces => p :: segmentsAt (p + atscDataSegmentLength) pieces
  | p, piece :: pieces => segmentsAt (p + piece.length) pieces

variable {tags : ℕ → Syminfo} {p q r : ℕ} {pieces more : List DemuxPiece}

theorem Covers.length (covered : Covers tags p pieces q) :
    p + (pieces.map DemuxPiece.length).sum = q := by
  induction pieces generalizing p with
  | nil => exact covered
  | cons piece pieces ih =>
    have rest := ih covered.2
    rw [List.map_cons, List.sum_cons]
    omega

theorem Covers.append (covered : Covers tags p pieces q) (behind : Covers tags q more r) :
    Covers tags p (pieces ++ more) r := by
  induction pieces generalizing p with
  | nil => exact covered ▸ behind
  | cons piece pieces ih => exact ⟨covered.1, ih covered.2⟩

theorem Covers.concat {piece : DemuxPiece} (covered : Covers tags p pieces q)
    (tagged : piece.Tagged tags q) : Covers tags p (pieces ++ [piece]) (q + piece.length) :=
  covered.append ⟨tagged, rfl⟩

theorem segmentsAt_append (covered : Covers tags p pieces q) :
    segmentsAt p (pieces ++ more) = segmentsAt p pieces ++ segmentsAt q more := by
  induction pieces generalizing p with
  | nil => exact covered ▸ rfl
  | cons piece pieces ih =>
    have rest := ih covered.2
    cases piece with
    | segment => exact congrArg (p :: ·) rest
    | fieldSync => exact rest
    | skipped count => exact rest

end DemuxPiece

namespace FieldSyncDemux

variable {data : ℕ → ℚ} {tags : ℕ → Syminfo} {p : ℕ}

open DemuxPiece

theorem regularSegments_succ (tags : ℕ → Syminfo) (p m : ℕ) :
    regularSegments tags p (m + 1) = regularSegments tags p m +
      if (tags (p + atscDataSegmentLength * m)).tagIsStartFieldSync then 0 else 1 := by
  simp only [regularSegments, List.range_succ, List.countP_append, List.countP_singleton]
  cases (tags (p + atscDataSegmentLength * m)).tagIsStartFieldSync <;> rfl

variable {m noutput_items : ℕ}

theorem regularSegments_mono (tags : ℕ → Syminfo) (p : ℕ) {m' : ℕ} (less : m ≤ m') :
    regularSegments tags p m ≤ regularSegments tags p m' := by
  induction m', less using Nat.le_induction with
  | base => exact le_rfl
  | succ m' _ ih =>
    rw [regularSegments_succ]
    omega

theorem InSync.succ (synced : InSync tags p m)
    (next : (tags (p + atscDataSegmentLength * m)).tagIsSegSyncOrFieldSync = true) :
    InSync tags p (m + 1) := by
  intro i less
  rcases Nat.lt_succ_iff_lt_or_eq.mp less with less | rfl
  · exact synced i less
  · exact next

/-- What the loop has read when it is at the beginning of its `m`-th segment from `p` on. -/
structure HasRead (data : ℕ → ℚ) (tags : ℕ → Syminfo) (p m : ℕ) (turn : DemuxTurn) : Prop where
  ii : turn.ii = atscDataSegmentLength * m
  synced : InSync tags p m
  count : turn.out.length = regularSegments tags p m
  covers : Covers tags p turn.pieces (p + turn.ii)
  out : turn.out.map (·.data) = (segmentsAt p turn.pieces).map (segmentOf data)

namespace HasRead

variable {m : ℕ} {turn : DemuxTurn}

theorem fieldSync (read : HasRead data tags p m turn) {turn' : DemuxTurn}
    (start : (tags (p + turn.ii)).tagIsStartFieldSync = true)
    (ii : turn'.ii = turn.ii + atscDataSegmentLength) (out : turn'.out = turn.out)
    (pieces : turn'.pieces = turn.pieces ++ [.fieldSync]) : HasRead data tags p (m + 1) turn' := by
  have tagged : (tags (p + turn.ii)).tagIsSegSyncOrFieldSync = true := by
    simp only [Syminfo.tagIsStartFieldSync, Bool.and_eq_true] at start
    simp only [Syminfo.tagIsSegSyncOrFieldSync, Bool.and_eq_true]
    exact ⟨start.1.1, start.2⟩
  have here := read.ii
  constructor
  · rw [ii, here, Nat.mul_succ]
  · exact read.synced.succ (here ▸ tagged)
  · rw [out, read.count, regularSegments_succ, ← here, start, if_pos rfl, Nat.add_zero]
  · rw [pieces, ii, ← Nat.add_assoc]
    exact read.covers.concat start
  · rw [out, pieces, segmentsAt_append read.covers, List.map_append, ← read.out]
    exact (List.append_nil _).symm

theorem segment (read : HasRead data tags p m turn) {turn' : DemuxTurn} (pli : Plinfo)
    (tagged : (tags (p + turn.ii)).tagIsSegSyncOrFieldSync = true)
    (regular : (tags (p + turn.ii)).tagIsStartFieldSync = false)
    (ii : turn'.ii = turn.ii + atscDataSegmentLength)
    (out : turn'.out =
      turn.out ++ [⟨pli, segmentOf data (p + turn.ii), length_segmentOf data (p + turn.ii)⟩])
    (pieces : turn'.pieces = turn.pieces ++ [.segment]) : HasRead data tags p (m + 1) turn' := by
  have here := read.ii
  constructor
  · rw [ii, here, Nat.mul_succ]
  · exact read.synced.succ (here ▸ tagged)
  · rw [out, List.length_append, read.count, regularSegments_succ, ← here, regular]
    rfl
  · rw [pieces, ii, ← Nat.add_assoc]
    exact read.covers.concat ⟨tagged, regular⟩
  · have last : segmentsAt (p + turn.ii) [.segment] = [p + turn.ii] := rfl
    rw [out, pieces, segmentsAt_append read.covers, List.map_append, List.map_append, ← read.out,
      last, List.map_singleton, List.map_singleton]

theorem uninterrupted_iff (read : HasRead data tags p m turn) {noutput_items : ℕ}
    (within : m ≤ noutput_items + 2) (stops : turn.out.length < noutput_items →
      StopsAfter tags p noutput_items m) (most : turn.out.length ≤ noutput_items) :
    Uninterrupted tags p noutput_items ↔ turn.out.length = noutput_items := by
  constructor
  · rintro ⟨m', within', synced, enough⟩
    by_contra other
    have short : turn.out.length < noutput_items := Nat.lt_of_le_of_ne most other
    have far : m < m' := by
      by_contra near
      have few := regularSegments_mono tags p (not_lt.mp near)
      rw [← read.count] at few
      omega
    rcases (stops short).2.2 with full | lost
    · omega
    · exact absurd (synced m far) (by simp [lost])
  · intro full
    exact ⟨m, within, read.synced, read.count.symm.trans full⟩

end HasRead

theorem StopsAfter.unique {m' : ℕ} (stops : StopsAfter tags p noutput_items m)
    (stops' : StopsAfter tags p noutput_items m') : m = m' := by
  obtain ⟨within, synced, last⟩ := stops
  obtain ⟨within', synced', last'⟩ := stops'
  rcases Nat.lt_trichotomy m m' with less | same | more
  · rcases last with full | lost
    · omega
    · exact absurd (synced' m less) (by simp [lost])
  · exact same
  · rcases last' with full | lost
    · omega
    · exact absurd (synced m' more) (by simp [lost])

theorem setRegularSeg_ok (field2 : Bool) {number : ℕ} (inside : number < atscDsegsPerField) :
    ∃ pli, Plinfo.setRegularSeg field2 number = .ok pli := by
  refine ⟨_, if_neg (not_not.mpr ⟨Int.natCast_nonneg _, ?_⟩)⟩
  exact Int.ofNat_lt.mpr inside

theorem produce_spec (noutput_items index : ℕ) (data : ℕ → ℚ) (tags : ℕ → Syminfo) (p : ℕ)
    {rounds : ℕ} {turn : DemuxTurn} (read : HasRead data tags p m turn)
    (within : m ≤ noutput_items + 2) (enough : noutput_items + 2 - m < rounds)
    (most : turn.out.length ≤ noutput_items) :
    ∃ m' turn' finished, produce noutput_items
        (noutput_items * atscDataSegmentLength + 2 * atscDataSegmentLength) index
        (fun i => data (p + i)) (fun i => tags (p + i)) rounds turn = .ok (turn', finished) ∧
      HasRead data tags p m' turn' ∧ m' ≤ noutput_items + 2 ∧ turn'.out.length ≤ noutput_items ∧
      (finished = true ↔ turn'.out.length = noutput_items) ∧
      (turn'.out.length < noutput_items → StopsAfter tags p noutput_items m') := by
  induction rounds generalizing m turn with
  | zero => omega
  | succ rounds ih =>
    have here := read.ii
    rw [produce]
    by_cases more : turn.out.length < noutput_items
    · rw [if_pos more]
      by_cases short : noutput_items * atscDataSegmentLength + 2 * atscDataSegmentLength - turn.ii <
          atscDataSegmentLength
      · have last : m = noutput_items + 2 := by
          rw [here, atscDataSegmentLength] at short
          omega
        rw [if_pos short]
        exact ⟨m, _, false, rfl, ⟨read.1, read.2, read.3, read.4, read.5⟩, within, most,
          by simp [more.ne], fun _ => ⟨within, read.synced, Or.inl last⟩⟩
      · have next : m + 1 ≤ noutput_items + 2 := by
          rw [here, atscDataSegmentLength] at short
          omega
        rw [if_neg short]
        cases tagged : (tags (p + turn.ii)).tagIsSegSyncOrFieldSync with
        | false =>
          exact ⟨m, _, false, rfl, ⟨read.1, read.2, read.3, read.4, read.5⟩, within, most,
            by simp [more.ne], fun _ => ⟨within, read.synced, Or.inr (here ▸ tagged)⟩⟩
        | true =>
          have fields := (tags (p + turn.ii)).fieldSync_cases
          rw [Bool.not_true, if_neg Bool.false_ne_true]
          cases first : (tags (p + turn.ii)).tagIsStartFieldSync1 with
          | true =>
            rw [first, Bool.true_or] at fields
            rw [if_pos rfl]
            exact ih (read.fieldSync fields rfl rfl rfl) next (by omega) most
          | false =>
            rw [if_neg Bool.false_ne_true]
            cases second : (tags (p + turn.ii)).tagIsStartFieldSync2 with
            | true =>
              rw [second, Bool.or_true] at fields
              rw [if_pos rfl]
              exact ih (read.fieldSync fields rfl rfl rfl) next (by omega) most
            | false =>
              rw [first, second, Bool.or_false] at fields
              have inside : (if atscDsegsPerField ≤ turn.d_segment_number then 0
                  else turn.d_segment_number) < atscDsegsPerField := by
                split
                · decide
                · omega
              obtain ⟨pli, set⟩ := setRegularSeg_ok turn.d_in_field2 inside
              rw [if_neg Bool.false_ne_true]
              dsimp only
              rw [set, ok_bind]
              refine ih (read.segment pli tagged fields rfl ?_ rfl) next (by omega) ?_
              · simp only [segmentOf, Nat.add_assoc]
              · rw [List.length_append, List.length_singleton]
                exact more
    · have full : turn.out.length = noutput_items := by omega
      rw [if_neg more]
      exact ⟨m, turn, true, rfl, read, within, most, by simp [full], fun less => absurd less more⟩

theorem search_spec (input_tags : ℕ → Syminfo) (count ii : ℕ) :
    ii ≤ (search input_tags count ii).1 ∧ ∀ i, ii ≤ i → i < (search input_tags count ii).1 →
      (input_tags i).tagIsStartFieldSync = false := by
  induction count generalizing ii with
  | zero =>
    rw [search]
    exact ⟨le_rfl, fun i least less => absurd least (not_le.mpr less)⟩
  | succ count ih =>
    rw [search]
    split
    · exact ⟨le_rfl, fun i least less => absurd least (not_le.mpr less)⟩
    · rename_i regular
      obtain ⟨further, passed⟩ := ih (ii + 1)
      refine ⟨Nat.le_of_succ_le further, fun i least less => ?_⟩
      rcases Nat.eq_or_lt_of_le least with rfl | later
      · exact eq_false_of_ne_true regular
      · exact passed i later less

/-- Where a call notes how many items it has read: without sync, or when it is not interrupted.
Otherwise `d_consume` is what an earlier call left. -/
def Settles (tags : ℕ → Syminfo) (p : ℕ) (block : FieldSyncDemux) (noutput_items : ℕ) : Prop :=
  (tags p).tagIsSegSyncOrFieldSync = false ∨ Uninterrupted tags p noutput_items ∨
    ∃ m, StopsAfter tags p noutput_items m ∧ block.d_consume = atscDataSegmentLength * m

/-- What a call does with the input from `p` on. -/
structure Called (data : ℕ → ℚ) (tags : ℕ → Syminfo) (p noutput_items : ℕ) (block : FieldSyncDemux)
    (r : DemuxWork) : Prop where
  covers : Covers tags p r.pieces (p + (r.pieces.map DemuxPiece.length).sum)
  out : r.out.map (·.data) = (segmentsAt p r.pieces).map (segmentOf data)
  next_input : r.block.d_next_input = block.d_next_input + (r.pieces.map DemuxPiece.length).sum
  consumes_iff : r.block.d_consume = (r.pieces.map DemuxPiece.length).sum ↔
    Settles tags p block noutput_items

theorem called_resync (block : FieldSyncDemux)
    (untagged : (tags p).tagIsSegSyncOrFieldSync = false) :
    Called data tags p noutput_items block (resync block fun i => tags (p + i)) := by
  constructor
  · refine ⟨⟨untagged, fun i positive less => ?_⟩, ?_⟩
    · exact (search_spec (fun i => tags (p + i)) _ 1).2 i positive less
    · exact congrArg (p + ·) (List.sum_singleton).symm
  · rfl
  · simp only [resync, List.map_singleton, List.sum_singleton, DemuxPiece.length]
    split <;> rfl
  · simp only [resync, List.map_singleton, List.sum_singleton, DemuxPiece.length, true_iff]
    exact Or.inl untagged

theorem work_spec (data : ℕ → ℚ) (tags : ℕ → Syminfo) (p noutput_items : ℕ) (block : FieldSyncDemux)
    (size : block.d_inputs0_size =
      noutput_items * atscDataSegmentLength + 2 * atscDataSegmentLength) :
    ∃ r, work block noutput_items (fun i => data (p + i)) (fun i => tags (p + i)) = .ok r ∧
      Called data tags p noutput_items block r := by
  rw [work, Nat.add_zero]
  cases tagged : (tags p).tagIsSegSyncOrFieldSync with
  | false => exact ⟨_, if_pos rfl, called_resync block tagged⟩
  | true =>
    have rounds : noutput_items + 2 - 0 < block.d_inputs0_size / atscDataSegmentLength + 1 := by
      rw [size, ← Nat.add_mul, Nat.mul_div_cancel _ (by decide)]
      omega
    have nothing : HasRead data tags p 0
        (⟨0, block.d_in_field2, block.d_segment_number, [], [], []⟩ : DemuxTurn) :=
      ⟨rfl, fun i less => absurd less (Nat.not_lt_zero i), rfl, rfl, rfl⟩
    obtain ⟨m, turn, finished, produced, read, within, most, ends, stops⟩ :=
      produce_spec noutput_items block.d_inputs0_index data tags p nothing (Nat.zero_le _) rounds
        (Nat.zero_le _)
    rw [← size] at produced
    have far := Nat.add_left_cancel read.covers.length
    rw [Bool.not_true, if_neg Bool.false_ne_true, produced]
    refine ⟨_, rfl, ?_, read.out, ?_, ?_⟩
    · rw [far]
      exact read.covers
    · rw [far]
    · rw [far]
      dsimp only
      have known := read.uninterrupted_iff within stops most
      cases finished with
      | true =>
        rw [if_pos rfl]
        exact iff_of_true rfl (Or.inr (Or.inl (known.mpr (ends.mp rfl))))
      | false =>
        have other : turn.out.length ≠ noutput_items := fun full => by simpa using ends.mpr full
        have stopped := stops (Nat.lt_of_le_of_ne most other)
        rw [if_neg Bool.false_ne_true, read.ii]
        constructor
        · intro stale
          exact Or.inr (Or.inr ⟨m, stopped, stale⟩)
        · rintro (untagged | whole | ⟨m', stopped', stale⟩)
          · exact absurd (tagged.symm.trans untagged) (by decide)
          · exact absurd (known.mp whole) other
          · rw [stopped.unique stopped', stale]

/-! ## Runs -/

end FieldSyncDemux

/-- The block with what its calls have done so far: how many items they have consumed, their output
and what became of the items that they read. -/
structure DemuxRun where
  block : FieldSyncDemux
  position : ℕ
  out : List AtscSoftDataSegment
  pieces : List DemuxPiece

namespace DemuxRun

open FieldSyncDemux DemuxPiece

variable (data : ℕ → ℚ) (tags : ℕ → Syminfo)

def start : DemuxRun := ⟨FieldSyncDemux.make, 0, [], []⟩

/-- The call of `general_work` that follows a call of `forecast`. -/
def call (w : DemuxRun) (noutput_items : ℕ) : Except CppException (DemuxWork × ℕ) :=
  generalWork (w.block.forecast noutput_items).2 noutput_items (fun i => data (w.position + i))
    (fun i => tags (w.position + i))

/-- A call, given at least the items that `forecast` demands. -/
def step (w : DemuxRun) (noutput_items : ℕ) : Option DemuxRun :=
  (w.call data tags noutput_items).toOption.map fun (r, consumed) => {
    block := r.block
    position := w.position + consumed
    out := w.out ++ r.out
    pieces := w.pieces ++ r.pieces }

/-- The call consumes as many items as it has skipped, turned into output or recognised as a field
sync. -/
def Accounts (w : DemuxRun) (noutput_items : ℕ) : Prop :=
  ∀ r consumed, w.call data tags noutput_items = .ok (r, consumed) →
    consumed = (r.pieces.map DemuxPiece.length).sum

/-- The output consists of the segments of the input, one after another, and everything between
them was skipped in search for sync or is a field sync. -/
def Consecutive (w : DemuxRun) : Prop :=
  Covers tags 0 w.pieces w.position ∧
    w.out.map (·.data) = (segmentsAt 0 w.pieces).map (segmentOf data)

theorem call_spec (w : DemuxRun) (noutput_items : ℕ) :
    ∃ r, w.call data tags noutput_items = .ok (r, r.block.d_consume) ∧
      Called data tags w.position noutput_items (w.block.forecast noutput_items).2 r := by
  obtain ⟨r, worked, called⟩ := work_spec data tags w.position noutput_items
    (w.block.forecast noutput_items).2 rfl
  refine ⟨r, ?_, called⟩
  rw [call, generalWork, worked]
  rfl

theorem accounts_iff (w : DemuxRun) (noutput_items : ℕ) :
    w.Accounts data tags noutput_items ↔ Settles tags w.position w.block noutput_items := by
  obtain ⟨r, called, spec⟩ := w.call_spec data tags noutput_items
  refine Iff.trans ?_ spec.consumes_iff
  constructor
  · intro accounts
    exact accounts r _ called
  · intro same r' consumed called'
    obtain ⟨rfl, rfl⟩ := Prod.mk.inj (Except.ok.inj (called.symm.trans called'))
    exact same

theorem Consecutive.step {w : DemuxRun} (known : w.Consecutive data tags) {noutput_items : ℕ}
    (settles : Settles tags w.position w.block noutput_items) :
    ∃ w', w.step data tags noutput_items = some w' ∧ w'.Consecutive data tags := by
  obtain ⟨r, called, spec⟩ := w.call_spec data tags noutput_items
  have consumed := spec.consumes_iff.mpr settles
  refine ⟨_, by rw [DemuxRun.step, called]; rfl, ?_, ?_⟩
  · rw [consumed]
    exact known.1.append spec.covers
  · rw [List.map_append, segmentsAt_append known.1, List.map_append, known.2, spec.out]

/-- Every call of a run consumes what it has read, and its output is one segment of the input after
another, if and only if every call settles how much it has read. -/
theorem consecutive_iff (calls : List ℕ) :
    (Throughout (Accounts data tags) (step data tags) start calls ∧
      ∃ w, run (step data tags) start calls = some w ∧ w.Consecutive data tags) ↔
    Throughout (fun w noutput_items => Settles tags w.position w.block noutput_items)
      (step data tags) start calls := by
  constructor
  · rintro ⟨accounts, -⟩
    exact accounts.mono fun w noutput_items => (w.accounts_iff data tags noutput_items).mp
  · intro settles
    refine ⟨settles.mono fun w noutput_items => (w.accounts_iff data tags noutput_items).mpr, ?_⟩
    exact run_defined (fun _ w => w.Consecutive data tags) ⟨rfl, rfl⟩
      (fun _ w _ _ known settled => known.step data tags settled) settles

/-- A field sync and a segment, behind which the sync is lost. -/
def lostTags (i : ℕ) : Syminfo :=
  if i = 0 then ⟨0, 0x1ff, 0, 1⟩ else if i = 832 then ⟨0, 0, 0, 1⟩ else ⟨0, 0, 0, 0⟩

/-- The first call writes the segment behind the field sync and consumes nothing, so that the next
one writes it again. -/
theorem segment_twice :
    ¬(Throughout (Accounts (fun i => i) lostTags) (step (fun i => i) lostTags) start [2, 2] ∧
      ∃ w, run (step (fun i => i) lostTags) start [2, 2] = some w ∧
        w.Consecutive (fun i => i) lostTags) := by
  rintro ⟨accounts, -⟩
  have first : (call (fun i => i) lostTags start 2).toOption.map
      (fun (r, consumed) => (consumed, (r.pieces.map DemuxPiece.length).sum)) = some (0, 1664) := by
    decide +kernel
  obtain ⟨⟨r, consumed⟩, called, known⟩ := Option.map_eq_some_iff.mp first
  obtain ⟨rfl, total⟩ := Prod.mk.inj known
  exact absurd ((accounts.1 r 0 (toOption_some.mp called)).trans total) (by decide)

end DemuxRun

end GnuRadio
