import GnuRadio.Misc.Mealy
import GnuRadio.Misc.Trace
import GnuRadio.Trellis.Fsm
import Mathlib.Algebra.Order.BigOperators.Group.List

/-!
# The trellis encoder

`trellis_encoder` runs a machine on any number of streams. It keeps one state from call to call,
the one its last stream ended in, and every stream of the next call starts from there.
-/

namespace GnuRadio

def Fsm.machine (f : Fsm) : Mealy Nat Nat Nat := ⟨f.next, f.output⟩

namespace TrellisEncoder

variable {To : Type} (cast : Nat → To) (FSM : Fsm)

/-- The loop over the items of a stream (`trellis_encoder_XX.cc.t:66-69`); `cast` is the conversion
to the type of the output. -/
def stream (d_ST : Nat) (input : List Nat) : List To × Nat :=
  input.foldl (fun (out, ST_tmp) u => (out ++ [cast (FSM.output ST_tmp u)], FSM.next ST_tmp u))
    ([], d_ST)

/-- `work` (`trellis_encoder_XX.cc.t:50-76`) on the items of a call: the outputs and `d_ST`. -/
def work (d_ST : Nat) (input_items : List (List Nat)) : List (List To) × Nat :=
  input_items.foldl (fun (output_items, _) input =>
    let (out, ST_tmp) := stream cast FSM d_ST input
    (output_items ++ [out], ST_tmp)) ([], 0)

/-- An encoder at work on its streams: how many items of each it has taken, and what it has put
out for each. -/
structure Encoding (To : Type) where
  d_ST : Nat
  consumed : Nat
  outputs : List (List To)
  deriving DecidableEq, Repr

def start (ST : Nat) (streams : List (List Nat)) : Encoding To where
  d_ST := ST
  consumed := 0
  outputs := streams.map fun _ => []

/-- The next `noutput_items` items of a stream. -/
def chunk (consumed noutput_items : Nat) (stream : List Nat) : List Nat :=
  (stream.drop consumed).take noutput_items

/-- A call of `work`. It is made when every stream has the items. -/
def call (streams : List (List Nat)) (s : Encoding To) (noutput_items : Nat) :
    Option (Encoding To) :=
  if ∀ stream ∈ streams, s.consumed + noutput_items ≤ stream.length then
    let (outs, d_ST) := work cast FSM s.d_ST (streams.map (chunk s.consumed noutput_items))
    some {
      d_ST := d_ST
      consumed := s.consumed + noutput_items
      outputs := List.zipWith (· ++ ·) s.outputs outs }
  else none

/-- The outputs of the machine on one stream alone. -/
def encode (ST : Nat) (stream : List Nat) : List To := (FSM.machine.outputs ST stream).map cast

variable {cast FSM}

@[simp] theorem length_encode (ST : Nat) (stream : List Nat) :
    (encode cast FSM ST stream).length = stream.length := by
  simp [encode]

theorem encode_append (ST : Nat) (us vs : List Nat) : encode cast FSM ST (us ++ vs) =
    encode cast FSM ST us ++ encode cast FSM (FSM.machine.after ST us) vs := by
  rw [encode, Mealy.outputs_append, List.map_append]
  rfl

theorem encode_take_add (ST count n : Nat) (stream : List Nat) :
    encode cast FSM ST (stream.take (count + n)) = encode cast FSM ST (stream.take count) ++
      encode cast FSM (FSM.machine.after ST (stream.take count)) (chunk count n stream) := by
  rw [List.take_add, encode_append]
  rfl

theorem length_chunk {count n : Nat} {stream : List Nat} (room : count + n ≤ stream.length) :
    (chunk count n stream).length = n := by
  rw [chunk, List.length_take, List.length_drop]
  omega

/-! ## One call -/

theorem stream_eq (ST : Nat) (input : List Nat) :
    stream cast FSM ST input = (encode cast FSM ST input, FSM.machine.after ST input) := by
  have loop : ∀ out : List To, input.foldl (fun (out, ST_tmp) u =>
      (out ++ [cast (FSM.output ST_tmp u)], FSM.next ST_tmp u)) (out, ST) =
        (out ++ encode cast FSM ST input, FSM.machine.after ST input) := by
    induction input generalizing ST with
    | nil => simp [encode]
    | cons u input ih =>
      intro out
      rw [List.foldl_cons, ih]
      simp [encode, Fsm.machine]
  exact loop []

theorem work_eq (d_ST : Nat) (others : List (List Nat)) (last : List Nat) :
    work cast FSM d_ST (others ++ [last]) =
      ((others ++ [last]).map (encode cast FSM d_ST), FSM.machine.after d_ST last) := by
  have loop : ∀ (inputs : List (List Nat)) (state : List (List To) × Nat),
      (inputs.foldl (fun (output_items, _) input =>
        let (out, ST_tmp) := stream cast FSM d_ST input
        (output_items ++ [out], ST_tmp)) state).1 =
          state.1 ++ inputs.map (encode cast FSM d_ST) := by
    intro inputs
    induction inputs with
    | nil => simp
    | cons input inputs ih =>
      intro state
      rw [List.foldl_cons, ih, stream_eq]
      simp
  have before := loop others ([], 0)
  unfold work
  rw [List.foldl_append, List.foldl_cons, List.foldl_nil]
  simp only [stream_eq] at before ⊢
  rw [before]
  simp

section Run

variable (cast FSM) (ST : Nat) (others : List (List Nat)) (last : List Nat)

/-- In a call, every stream's items are coded the same from the state of its own machine as from
the state that the machine of the last stream is in. -/
def SameCoding (s : Encoding To) (noutput_items : Nat) : Prop :=
  ∀ stream ∈ others,
    encode cast FSM (FSM.machine.after ST (last.take s.consumed))
        (chunk s.consumed noutput_items stream) =
      encode cast FSM (FSM.machine.after ST (stream.take s.consumed))
        (chunk s.consumed noutput_items stream)

/-- An encoder that has put out `out stream` for each stream. -/
structure Encoded (count : Nat) (out : List Nat → List To) (s : Encoding To) : Prop where
  consumed : s.consumed = count
  state : s.d_ST = FSM.machine.after ST (last.take count)
  outputs : s.outputs = (others ++ [last]).map out
  lengths : ∀ stream ∈ others ++ [last], (out stream).length = (stream.take count).length

variable {cast FSM ST others last} {count n : Nat} {out : List Nat → List To} {s s' : Encoding To}

theorem encoded_start :
    Encoded FSM ST others last 0 (fun _ => []) (@start To ST (others ++ [last])) :=
  ⟨rfl, rfl, rfl, fun _ _ => by simp⟩

theorem Encoded.call (encoded : Encoded FSM ST others last count out s)
    (called : call cast FSM (others ++ [last]) s n = some s') :
    (∀ stream ∈ others ++ [last], count + n ≤ stream.length) ∧
      Encoded FSM ST others last (count + n)
        (fun stream => out stream ++
          encode cast FSM (FSM.machine.after ST (last.take count)) (chunk count n stream)) s' := by
  unfold TrellisEncoder.call at called
  split at called
  · rename_i room
    rw [encoded.consumed] at room called
    rw [List.map_append, List.map_cons, List.map_nil, work_eq, encoded.state] at called
    cases called
    refine ⟨room, rfl, ?_, ?_, fun stream member => ?_⟩
    · show FSM.machine.after (FSM.machine.after ST (last.take count)) (chunk count n last) = _
      rw [← Mealy.after_append, List.take_add]
      rfl
    · show List.zipWith (· ++ ·) s.outputs _ = _
      rw [encoded.outputs, ← List.map_singleton, ← List.map_append, List.map_map]
      rw [List.zipWith_map, List.zipWith_self]
      rfl
    · have length := encoded.lengths stream member
      have space := room stream member
      rw [List.length_take] at length
      rw [List.length_append, length_encode, length_chunk space, List.length_take, length]
      omega
  · cases called

/-- What every stream is to give up to `count`. -/
def Right (cast : Nat → To) (FSM : Fsm) (ST : Nat) (streams : List (List Nat)) (count : Nat)
    (out : List Nat → List To) : Prop :=
  ∀ stream ∈ streams, out stream = encode cast FSM ST (stream.take count)

/-- Right items are added exactly when they are coded the same from the state kept. -/
theorem Encoded.right_call (encoded : Encoded FSM ST others last count out s) :
    Right cast FSM ST (others ++ [last]) (count + n) (fun stream => out stream ++
        encode cast FSM (FSM.machine.after ST (last.take count)) (chunk count n stream)) ↔
      Right cast FSM ST (others ++ [last]) count out ∧ SameCoding cast FSM ST others last s n := by
  have halves : ∀ stream ∈ others ++ [last], (out stream ++ encode cast FSM
        (FSM.machine.after ST (last.take count)) (chunk count n stream) =
      encode cast FSM ST (stream.take (count + n)) ↔
      out stream = encode cast FSM ST (stream.take count) ∧
        encode cast FSM (FSM.machine.after ST (last.take count)) (chunk count n stream) =
          encode cast FSM (FSM.machine.after ST (stream.take count)) (chunk count n stream)) := by
    intro stream member
    rw [encode_take_add]
    have length : (out stream).length = (encode cast FSM ST (stream.take count)).length := by
      rw [encoded.lengths stream member, length_encode]
    exact ⟨fun same => List.append_inj same length, fun ⟨left, right⟩ => by rw [left, right]⟩
  unfold Right SameCoding
  rw [encoded.consumed]
  constructor
  · intro right
    refine ⟨fun stream member => ((halves stream member).mp (right stream member)).1,
      fun stream member => ?_⟩
    have member' := List.mem_append_left [last] member
    exact ((halves stream member').mp (right stream member')).2
  · intro ⟨right, same⟩ stream member
    refine (halves stream member).mpr ⟨right stream member, ?_⟩
    rcases List.mem_append.mp member with other | only
    · exact same stream other
    · rw [List.mem_singleton.mp only]

/-! ## Runs -/

theorem Encoded.run {calls : List Nat} (encoded : Encoded FSM ST others last count out s)
    (ran : GnuRadio.run (TrellisEncoder.call cast FSM (others ++ [last])) s calls = some s') :
    s'.outputs = (others ++ [last]).map
        (fun stream => encode cast FSM ST (stream.take (count + calls.sum))) ↔
      Right cast FSM ST (others ++ [last]) count out ∧
        Throughout (SameCoding cast FSM ST others last)
          (TrellisEncoder.call cast FSM (others ++ [last])) s calls := by
  induction calls generalizing s count out with
  | nil =>
    cases ran
    rw [encoded.outputs, List.map_inj_left]
    simp [Right, Throughout]
  | cons n calls ih =>
    obtain ⟨t, called, rest⟩ := run_cons.mp ran
    obtain ⟨-, encoded'⟩ := encoded.call called
    rw [List.sum_cons, ← Nat.add_assoc, ih encoded' rest, encoded.right_call, and_assoc]
    simp [Throughout, called]

/-- Over any calls each stream gives what its machine gives on this stream alone, exactly when in
every call its items are coded the same from the state of the last stream. -/
theorem streams_independent_iff {calls : List Nat}
    (ran : GnuRadio.run (TrellisEncoder.call cast FSM (others ++ [last]))
      (start ST (others ++ [last])) calls = some s) :
    s.outputs = (others ++ [last]).map
        (fun stream => encode cast FSM ST (stream.take calls.sum)) ↔
      Throughout (SameCoding cast FSM ST others last)
        (TrellisEncoder.call cast FSM (others ++ [last])) (start ST (others ++ [last])) calls := by
  have whole := encoded_start.run ran
  rw [Nat.zero_add] at whole
  rw [whole]
  simp [Right, encode]

end Run

instance {To : Type} [DecidableEq To] (cast : Nat → To) (FSM : Fsm) (ST : Nat)
    (others : List (List Nat)) (last : List Nat) (s : Encoding To) (n : Nat) :
    Decidable (SameCoding cast FSM ST others last s n) :=
  inferInstanceAs (Decidable (∀ stream ∈ others, _ = _))

/-- Two streams in one call, and then nothing. -/
theorem streams_independent_one_call :
    GnuRadio.run (call id accumulator [[1, 0], [0, 1]]) (start 0 [[1, 0], [0, 1]]) [2] =
        some ⟨1, 2, [[1, 1], [0, 1]]⟩ ∧
      [[1, 1], [0, 1]] =
        [[1, 0], [0, 1]].map fun stream => encode id accumulator 0 (stream.take 2) := by
  have ran : GnuRadio.run (call id accumulator [[1, 0], [0, 1]]) (start 0 [[1, 0], [0, 1]]) [2] =
      some ⟨1, 2, [[1, 1], [0, 1]]⟩ := by decide
  exact ⟨ran, (@streams_independent_iff _ id accumulator 0 [[1, 0]] [0, 1] _ [2] ran).mpr (by decide)⟩

/-- In two calls of one item the first stream goes on from the state of the second. -/
theorem streams_mixed_up :
    (GnuRadio.run (call id accumulator [[1, 0], [0, 1]]) (start 0 [[1, 0], [0, 1]]) [1, 1]).map
        Encoding.outputs = some [[1, 0], [0, 1]] ∧
      [[1, 0], [0, 1]] ≠
        [[1, 0], [0, 1]].map fun stream => encode id accumulator 0 (stream.take 2) := by
  decide

end TrellisEncoder

end GnuRadio
