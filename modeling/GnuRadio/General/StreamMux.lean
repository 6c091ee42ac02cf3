import GnuRadio.Misc.Trace

/-!
# The stream multiplexer

`gr_stream_mux` takes so many items of its first input, so many of its second one, and so on in
turn. A call stops anywhere, and the next one goes on from there.
-/

namespace GnuRadio

/-- `gr_stream_mux` (`gr_stream_mux.h:73-75`). -/
structure StreamMux where
  stream : Nat
  residual : Nat
  lengths : List Nat
  deriving DecidableEq, Repr

namespace StreamMux

variable {α : Type}

/-- The loop of `increment_stream` (`gr_stream_mux.cc:69-71`). When it comes around without having
found a length that is not zero, it has no end. -/
def nextStream (lengths : List Nat) : Nat → Nat → Option Nat
  | 0, _ => none
  | turns + 1, stream =>
    let stream := (stream + 1) % lengths.length
    if lengths.getD stream 0 = 0 then nextStream lengths turns stream else some stream

/-- `increment_stream` (`gr_stream_mux.cc:67-74`). -/
def incrementStream (d : StreamMux) : Option StreamMux := do
  let stream ← nextStream d.lengths d.lengths.length d.stream
  some { d with
    stream
    residual := d.lengths.getD stream 0 }

/-- The constructor (`gr_stream_mux.cc:40-53`). -/
def construct (lengths : List Nat) : Option StreamMux := do
  let d : StreamMux := ⟨0, 0, lengths⟩
  let d ← if d.lengths.getD d.stream 0 = 0 then d.incrementStream else some d
  some { d with residual := d.lengths.getD d.stream 0 }

/-- A call of `general_work` under way: the items it has put out and, for each input, its index and
what has been consumed. -/
structure Work (α : Type) where
  mux : StreamMux
  out : List α
  inputIndex : Nat → Nat
  consumed : Nat → Nat

/-- What is copied at once (`gr_stream_mux.cc:94-96`). -/
def Work.count (w : Work α) (noutputItems : Nat) (ninputItems : Nat → Nat) : Nat :=
  min (noutputItems - w.out.length)
    (min w.mux.residual (ninputItems w.mux.stream - w.inputIndex w.mux.stream))

/-- The copying of `r` items (`gr_stream_mux.cc:111-118`). -/
def Work.copy (w : Work α) (inputItems : Nat → Nat → α) (r : Nat) : Work α :=
  let stream := w.mux.stream
  { mux := { w.mux with residual := w.mux.residual - r }
    out := w.out ++ (List.range r).map fun i => inputItems stream (w.inputIndex stream + i)
    inputIndex := Function.update w.inputIndex stream (w.inputIndex stream + r)
    consumed := Function.update w.consumed stream (w.consumed stream + r) }

/-- The loop of `general_work` (`gr_stream_mux.cc:93-123`), which has so many turns left. -/
def loop (noutputItems : Nat) (ninputItems : Nat → Nat) (inputItems : Nat → Nat → α) :
    Nat → Work α → Option (Work α)
  | 0, _ => none
  | turns + 1, w =>
    let r := w.count noutputItems ninputItems
    if r ≤ 0 then some w
    else
      let w := w.copy inputItems r
      if w.mux.residual = 0 then
        match w.mux.incrementStream with
        | none => none
        | some mux => loop noutputItems ninputItems inputItems turns { w with mux }
      else loop noutputItems ninputItems inputItems turns w

/-- `general_work` (`gr_stream_mux.cc:76-124`). Each turn but the last copies an item. -/
def generalWork (d : StreamMux) (noutputItems : Nat) (ninputItems : Nat → Nat)
    (inputItems : Nat → Nat → α) : Option (Work α) :=
  loop noutputItems ninputItems inputItems (noutputItems + 1) ⟨d, [], fun _ => 0, fun _ => 0⟩

/-- The space of a call: room for so many items, and so many on each input. -/
structure Offer where
  noutputItems : Nat
  ninputItems : Nat → Nat

/-- The block on its streams, what it has consumed of each and put out. -/
structure Session (α : Type) where
  mux : StreamMux
  consumed : Nat → Nat
  out : List α

/-- The inputs of a session from where it stands. -/
def Session.inputItems (inputs : Nat → Nat → α) (s : Session α) (stream i : Nat) : α :=
  inputs stream (s.consumed stream + i)

def Session.work (inputs : Nat → Nat → α) (s : Session α) (offer : Offer) : Option (Work α) :=
  s.mux.generalWork offer.noutputItems offer.ninputItems (s.inputItems inputs)

/-- One call of `general_work`, on what is left of the inputs. -/
def Session.call (inputs : Nat → Nat → α) (s : Session α) (offer : Offer) : Option (Session α) := do
  let w ← s.work inputs offer
  some ⟨w.mux, fun stream => s.consumed stream + w.consumed stream, s.out ++ w.out⟩

/-! ## The cyclic concatenation -/

section CyclicConcatenation

variable (lengths : List Nat) (inputs : Nat → Nat → α)

/-- The items of a stream that belong into round `q`. -/
def segment (q stream : Nat) : List α :=
  (List.range (lengths.getD stream 0)).map fun i => inputs stream (q * lengths.getD stream 0 + i)

def round (q : Nat) : List α := (List.range lengths.length).flatMap (segment lengths inputs q)

def rounds (count : Nat) : List α := (List.range count).flatMap (round lengths inputs)

/-- What comes before item `k` of a stream in round `q`. -/
def upTo (q stream k : Nat) : List α :=
  rounds lengths inputs q ++ (List.range stream).flatMap (segment lengths inputs q) ++
    (segment lengths inputs q stream).take k

/-- How many items of stream `t` come before item `k` of a stream in round `q`. -/
def taken (q stream k t : Nat) : Nat :=
  q * lengths.getD t 0 + if t < stream then lengths.getD t 0 else if t = stream then k else 0

end CyclicConcatenation

variable {lengths : List Nat} {inputs : Nat → Nat → α} {q stream k : Nat}

theorem upTo_complete :
    upTo lengths inputs q stream (lengths.getD stream 0) =
      upTo lengths inputs q (stream + 1) 0 := by
  have whole : (segment lengths inputs q stream).take (lengths.getD stream 0) =
      segment lengths inputs q stream := List.take_of_length_le (by simp [segment])
  rw [upTo, upTo, whole, List.range_succ, List.flatMap_append, List.flatMap_singleton,
    List.take_zero, List.append_nil, List.append_assoc]

theorem taken_complete (t : Nat) :
    taken lengths q stream (lengths.getD stream 0) t = taken lengths q (stream + 1) 0 t := by
  unfold taken
  rcases Nat.lt_trichotomy t stream with before | rfl | behind
  · rw [if_pos before, if_pos (Nat.lt_succ_of_lt before)]
  · rw [if_neg (Nat.lt_irrefl t), if_pos rfl, if_pos (Nat.lt_succ_self t)]
  · rw [if_neg (by omega), if_neg (by omega), if_neg (by omega), ite_self]

theorem upTo_round : upTo lengths inputs q lengths.length 0 = upTo lengths inputs (q + 1) 0 0 := by
  have next : rounds lengths inputs (q + 1) =
      rounds lengths inputs q ++ round lengths inputs q := by
    rw [rounds, rounds, List.range_succ, List.flatMap_append, List.flatMap_singleton]
  rw [upTo, upTo, next, List.take_zero, List.take_zero, List.append_nil, List.range_zero,
    List.flatMap_nil, List.append_nil, List.append_nil, round]

theorem taken_round (t : Nat) :
    taken lengths q lengths.length 0 t = taken lengths (q + 1) 0 0 t := by
  unfold taken
  rw [if_neg (Nat.not_lt_zero t), ite_self, ite_self, Nat.add_mul, Nat.one_mul, Nat.add_zero]
  by_cases inside : t < lengths.length
  · rw [if_pos inside]
  · have none : lengths.getD t 0 = 0 := by
      simp [Nat.le_of_not_lt inside]
    rw [if_neg inside, none]

theorem upTo_prefix (inside : stream < lengths.length) :
    upTo lengths inputs q stream k <+: rounds lengths inputs (q + 1) := by
  have split : List.range lengths.length =
      List.range stream ++ List.range' stream (lengths.length - stream) := by
    have joined := List.range'_append_1 (s := 0) (m := stream) (n := lengths.length - stream)
    rw [Nat.zero_add, Nat.add_sub_cancel' (Nat.le_of_lt inside)] at joined
    rw [List.range_eq_range', List.range_eq_range', joined]
  have count : lengths.length - stream = (lengths.length - stream - 1) + 1 := by omega
  have here : (segment lengths inputs q stream).take k ++ (segment lengths inputs q stream).drop k =
    segment lengths inputs q stream := List.take_append_drop ..
  rw [rounds, List.range_succ, List.flatMap_append, List.flatMap_singleton, round, split, count,
    List.range'_succ, List.flatMap_append, List.flatMap_cons, ← here, upTo, List.append_assoc,
    List.append_assoc]
  apply List.prefix_append_right_inj _ |>.mpr
  apply List.prefix_append_right_inj _ |>.mpr
  exact List.prefix_append _ _

theorem upTo_next (inputs : Nat → Nat → α) (q : Nat) (inside : stream < lengths.length) :
    upTo lengths inputs q stream (lengths.getD stream 0) =
        upTo lengths inputs (q + (stream + 1) / lengths.length) ((stream + 1) % lengths.length) 0 ∧
      ∀ t, taken lengths q stream (lengths.getD stream 0) t =
        taken lengths (q + (stream + 1) / lengths.length) ((stream + 1) % lengths.length) 0 t := by
  rw [upTo_complete]
  by_cases last : stream + 1 = lengths.length
  · rw [last, Nat.mod_self, Nat.div_self (by omega)]
    refine ⟨upTo_round, fun t => ?_⟩
    rw [taken_complete, last, taken_round]
  · have less : stream + 1 < lengths.length := by omega
    rw [Nat.mod_eq_of_lt less, Nat.div_eq_of_lt less, Nat.add_zero]
    exact ⟨rfl, taken_complete⟩

theorem take_segment {r : Nat} (fits : k + r ≤ lengths.getD stream 0) :
    (segment lengths inputs q stream).take (k + r) = (segment lengths inputs q stream).take k ++
      (List.range r).map fun i => inputs stream (q * lengths.getD stream 0 + k + i) := by
  have items : (List.range (lengths.getD stream 0)).take (k + r) =
      (List.range (lengths.getD stream 0)).take k ++ (List.range r).map (k + ·) := by
    rw [List.take_range, List.take_range, Nat.min_eq_left fits, Nat.min_eq_left (by omega),
      List.range_add]
  rw [segment, ← List.map_take, ← List.map_take, items, List.map_append, List.map_map]
  congr 1
  apply List.map_congr_left
  intro i _
  exact congrArg (inputs stream) (Nat.add_assoc ..).symm

theorem taken_add (r t : Nat) :
    taken lengths q stream (k + r) t =
      taken lengths q stream k t + if t = stream then r else 0 := by
  unfold taken
  rcases Nat.lt_trichotomy t stream with before | rfl | behind
  · rw [if_pos before, if_pos before, if_neg (Nat.ne_of_lt before), Nat.add_zero]
  · rw [if_neg (Nat.lt_irrefl t), if_neg (Nat.lt_irrefl t), if_pos rfl, if_pos rfl, if_pos rfl,
      Nat.add_assoc]
  · have other : t ≠ stream := Nat.ne_of_gt behind
    have later : ¬t < stream := by omega
    rw [if_neg later, if_neg later, if_neg other, if_neg other, if_neg other, Nat.add_zero]

/-! ## The block in the sequence -/

/-- The block stands before an item of the sequence, with what has come out and been consumed. -/
structure Stands (lengths : List Nat) (inputs : Nat → Nat → α) (q stream k : Nat) (d : StreamMux)
    (out : List α) (consumed : Nat → Nat) : Prop where
  config : d.lengths = lengths
  turn : d.stream = stream
  inside : stream < lengths.length
  residual : d.residual + k = lengths.getD stream 0
  left : 0 < d.residual
  out : out = upTo lengths inputs q stream k
  consumed : ∀ t, consumed t = taken lengths q stream k t

theorem nextStream_eq (inputs : Nat → Nat → α) {turns : Nat} (inside : stream < lengths.length)
    (found : ∃ j < turns, lengths.getD ((stream + 1 + j) % lengths.length) 0 ≠ 0) :
    ∃ q' next, nextStream lengths turns stream = some next ∧ next < lengths.length ∧
      lengths.getD next 0 ≠ 0 ∧
      upTo lengths inputs q stream (lengths.getD stream 0) = upTo lengths inputs q' next 0 ∧
      ∀ t, taken lengths q stream (lengths.getD stream 0) t = taken lengths q' next 0 t := by
  induction turns generalizing q stream with
  | zero =>
    obtain ⟨j, none, -⟩ := found
    cases none
  | succ turns ih =>
    obtain ⟨out, consumed⟩ := upTo_next inputs q inside
    have within : (stream + 1) % lengths.length < lengths.length :=
      Nat.mod_lt _ (Nat.zero_lt_of_lt inside)
    rw [nextStream]
    by_cases empty : lengths.getD ((stream + 1) % lengths.length) 0 = 0
    · rw [if_pos empty]
      have later : ∃ j < turns, lengths.getD
          (((stream + 1) % lengths.length + 1 + j) % lengths.length) 0 ≠ 0 := by
        obtain ⟨j, less, positive⟩ := found
        cases j with
        | zero => exact absurd empty positive
        | succ j =>
          refine ⟨j, Nat.lt_of_succ_lt_succ less, ?_⟩
          rwa [Nat.add_assoc, Nat.mod_add_mod, Nat.add_comm 1 j]
      obtain ⟨q', next, step, bound, positive, rest, others⟩ :=
        ih (q := q + (stream + 1) / lengths.length) within later
      rw [empty] at rest others
      exact ⟨q', next, step, bound, positive, out.trans rest,
        fun t => (consumed t).trans (others t)⟩
    · rw [if_neg empty]
      exact ⟨_, _, rfl, within, empty, out, consumed⟩

theorem exists_turn (inside : stream < lengths.length) (nonzero : ∃ len ∈ lengths, len ≠ 0) :
    ∃ j < lengths.length, lengths.getD ((stream + 1 + j) % lengths.length) 0 ≠ 0 := by
  obtain ⟨len, member, positive⟩ := nonzero
  obtain ⟨t, below, rfl⟩ := List.getElem_of_mem member
  refine ⟨(t + lengths.length - (stream + 1)) % lengths.length, Nat.mod_lt _ (by omega), ?_⟩
  have place : stream + 1 + (t + lengths.length - (stream + 1)) = t + lengths.length := by omega
  rw [Nat.add_mod_mod, place, Nat.add_mod_right, Nat.mod_eq_of_lt below]
  simpa [below] using positive

theorem incrementStream_eq {d : StreamMux} {out : List α} {consumed : Nat → Nat}
    (config : d.lengths = lengths) (turn : d.stream = stream) (inside : stream < lengths.length)
    (nonzero : ∃ len ∈ lengths, len ≠ 0)
    (come : out = upTo lengths inputs q stream (lengths.getD stream 0))
    (gone : ∀ t, consumed t = taken lengths q stream (lengths.getD stream 0) t) :
    ∃ e q' next, d.incrementStream = some e ∧ Stands lengths inputs q' next 0 e out consumed := by
  obtain ⟨q', next, step, bound, positive, rest, others⟩ :=
    nextStream_eq (q := q) inputs inside (exists_turn inside nonzero)
  refine ⟨⟨next, lengths.getD next 0, lengths⟩, q', next, ?_, rfl, rfl, bound, rfl,
    Nat.pos_of_ne_zero positive, come.trans rest, fun t => (gone t).trans (others t)⟩
  rw [incrementStream, config, turn, step]
  rfl

theorem construct_stands (inputs : Nat → Nat → α) (nonzero : ∃ len ∈ lengths, len ≠ 0) :
    ∃ d q stream, construct lengths = some d ∧
      Stands lengths inputs q stream 0 d [] fun _ => 0 := by
  have inside : 0 < lengths.length := by
    obtain ⟨len, member, -⟩ := nonzero
    exact List.length_pos_of_mem member
  have none : ∀ t, 0 = taken lengths 0 0 0 t := by
    intro t
    simp [taken]
  unfold construct
  dsimp only
  by_cases empty : lengths.getD 0 0 = 0
  · have skipped : ([] : List α) = upTo lengths inputs 0 0 (lengths.getD 0 0) := by
      rw [empty]
      rfl
    have idle : ∀ t, (fun _ => 0) t = taken lengths 0 0 (lengths.getD 0 0) t := by
      rw [empty]
      exact none
    obtain ⟨f, q, next, step, stands⟩ := incrementStream_eq (d := ⟨0, 0, lengths⟩) rfl rfl inside
      nonzero skipped idle
    rw [if_pos empty, step]
    refine ⟨_, q, next, rfl, stands.config, stands.turn, stands.inside, ?_, ?_, stands.out,
      stands.consumed⟩
    · dsimp only
      rw [stands.config, stands.turn, Nat.add_zero]
    · dsimp only
      rw [stands.config, stands.turn]
      exact stands.residual ▸ stands.left
  · rw [if_neg empty]
    exact ⟨_, 0, 0, rfl, rfl, rfl, inside, Nat.add_zero _, Nat.pos_of_ne_zero empty, rfl, none⟩

/-! ## Calls -/

/-- What holds of a call under way, behind a session. -/
structure Going (lengths : List Nat) (inputs : Nat → Nat → α) (s : Session α) (offer : Offer)
    (w : Work α) : Prop where
  stands : ∃ q stream k, Stands lengths inputs q stream k w.mux (s.out ++ w.out)
    fun t => s.consumed t + w.consumed t
  same : w.inputIndex = w.consumed
  within : ∀ t, w.consumed t ≤ offer.ninputItems t
  room : w.out.length ≤ offer.noutputItems

variable {s : Session α} {offer : Offer} {w : Work α}

theorem Going.copy (going : Going lengths inputs s offer w)
    (nonzero : ∃ len ∈ lengths, len ≠ 0)
    (some : w.count offer.noutputItems offer.ninputItems ≠ 0) :
    let e := w.copy (s.inputItems inputs) (w.count offer.noutputItems offer.ninputItems)
    w.out.length < e.out.length ∧
      ((e.mux.residual ≠ 0 ∧ Going lengths inputs s offer e) ∨
      (e.mux.residual = 0 ∧ ∃ mux, e.mux.incrementStream = Option.some mux ∧
        Going lengths inputs s offer { e with mux })) := by
  obtain ⟨q, stream, k, stands⟩ := going.stands
  generalize count : w.count offer.noutputItems offer.ninputItems = r at some ⊢
  have fits : r ≤ offer.noutputItems - w.out.length ∧ r ≤ w.mux.residual ∧
      r ≤ offer.ninputItems w.mux.stream - w.inputIndex w.mux.stream := by
    rw [← count, Work.count]
    omega
  obtain ⟨room, left, available⟩ := fits
  have residual := stands.residual
  have items : s.out ++ (w.copy (s.inputItems inputs) r).out =
      upTo lengths inputs q stream (k + r) := by
    have base := stands.consumed stream
    have here : taken lengths q stream k stream = q * lengths.getD stream 0 + k := by
      simp [taken]
    rw [here] at base
    have next : ∀ i, s.inputItems inputs w.mux.stream (w.inputIndex w.mux.stream + i) =
        inputs stream (q * lengths.getD stream 0 + k + i) := by
      intro i
      rw [Session.inputItems, stands.turn, going.same, ← Nat.add_assoc, base]
    rw [upTo, take_segment (by omega), ← List.append_assoc, ← upTo, ← stands.out, Work.copy]
    simp only [next, List.append_assoc]
  have consumed : ∀ t, s.consumed t + (w.copy (s.inputItems inputs) r).consumed t =
      taken lengths q stream (k + r) t := by
    intro t
    rw [taken_add, ← stands.consumed, Nat.add_assoc]
    congr 1
    change Function.update w.consumed w.mux.stream _ t = _
    rw [stands.turn]
    by_cases turn : t = stream
    · rw [turn, Function.update_self, if_pos rfl]
    · rw [Function.update_of_ne turn, if_neg turn, Nat.add_zero]
  have length : (w.copy (s.inputItems inputs) r).out.length = w.out.length + r := by
    simp [Work.copy]
  have within : ∀ t, (w.copy (s.inputItems inputs) r).consumed t ≤ offer.ninputItems t := by
    intro t
    change Function.update w.consumed w.mux.stream _ t ≤ _
    have bound := going.within t
    by_cases turn : t = w.mux.stream
    · rw [turn] at bound ⊢
      rw [Function.update_self]
      rw [going.same] at available
      omega
    · rw [Function.update_of_ne turn]
      exact bound
  have same : (w.copy (s.inputItems inputs) r).inputIndex =
      (w.copy (s.inputItems inputs) r).consumed := by
    simp [Work.copy, going.same]
  refine ⟨by omega, ?_⟩
  by_cases done : w.mux.residual - r = 0
  · right
    refine ⟨done, ?_⟩
    have full : k + r = lengths.getD stream 0 := by omega
    rw [full] at items consumed
    obtain ⟨mux, q', next, step, stands'⟩ := incrementStream_eq
      (d := (w.copy (s.inputItems inputs) r).mux) stands.config stands.turn stands.inside nonzero
      items consumed
    exact ⟨mux, step, ⟨⟨q', next, 0, stands'⟩, same, within, by dsimp only; omega⟩⟩
  · left
    refine ⟨done, ⟨⟨q, stream, k + r, stands.config, stands.turn, stands.inside, ?_, ?_, items,
      consumed⟩, same, within, by omega⟩⟩
    · change w.mux.residual - r + (k + r) = _
      omega
    · exact Nat.pos_of_ne_zero done

theorem Going.loop (going : Going lengths inputs s offer w) (nonzero : ∃ len ∈ lengths, len ≠ 0)
    (turns : Nat) (enough : offer.noutputItems - w.out.length < turns) :
    ∃ e, StreamMux.loop offer.noutputItems offer.ninputItems (s.inputItems inputs) turns w =
        some e ∧ Going lengths inputs s offer e ∧
      (e.out.length = offer.noutputItems ∨
        e.consumed e.mux.stream = offer.ninputItems e.mux.stream) := by
  induction turns generalizing w with
  | zero => cases enough
  | succ turns ih =>
    rw [StreamMux.loop]
    by_cases none : w.count offer.noutputItems offer.ninputItems ≤ 0
    · refine ⟨w, if_pos none, going, ?_⟩
      obtain ⟨q, stream, k, stands⟩ := going.stands
      have left := stands.left
      have room := going.room
      have within := going.within w.mux.stream
      rw [Work.count, going.same] at none
      omega
    · obtain ⟨more, step⟩ := going.copy nonzero (Nat.pos_iff_ne_zero.mp (Nat.lt_of_not_le none))
      dsimp only
      rw [if_neg none]
      rcases step with ⟨left, going⟩ | ⟨done, mux, turned, going⟩
      · have room := going.room
        rw [if_neg left]
        exact ih going (by omega)
      · have room := going.room
        rw [if_pos done, turned]
        exact ih going (by dsimp only at room ⊢; omega)

/-- A session stands before an item of the sequence. -/
def Delivered (lengths : List Nat) (inputs : Nat → Nat → α) (s : Session α) : Prop :=
  ∃ q stream k, Stands lengths inputs q stream k s.mux s.out s.consumed

/-- A call stays within its space, and it ends with the output full, or with nothing left of the
input whose turn it is. -/
structure Delivers (offer : Offer) (w : Work α) : Prop where
  room : w.out.length ≤ offer.noutputItems
  within : ∀ t, w.consumed t ≤ offer.ninputItems t
  ends : w.out.length = offer.noutputItems ∨
    w.consumed w.mux.stream = offer.ninputItems w.mux.stream

theorem Delivered.call (delivered : Delivered lengths inputs s)
    (nonzero : ∃ len ∈ lengths, len ≠ 0) (offer : Offer) :
    (∃ w, s.work inputs offer = some w ∧ Delivers offer w) ∧
      ∃ next, s.call inputs offer = some next ∧ Delivered lengths inputs next := by
  have start : Going lengths inputs s offer ⟨s.mux, [], fun _ => 0, fun _ => 0⟩ := by
    obtain ⟨q, stream, k, stands⟩ := delivered
    refine ⟨⟨q, stream, k, ?_⟩, rfl, fun t => Nat.zero_le _, Nat.zero_le _⟩
    rw [List.append_nil]
    exact stands
  obtain ⟨w, worked, going, ends⟩ := start.loop nonzero (offer.noutputItems + 1)
    (Nat.lt_succ_self _)
  refine ⟨⟨w, worked, going.room, going.within, ends⟩,
    ⟨w.mux, fun t => s.consumed t + w.consumed t, s.out ++ w.out⟩, ?_, going.stands⟩
  exact Option.bind_eq_some_iff.mpr ⟨w, worked, rfl⟩

/-- **Cyclic concatenation.** The constructor comes back, and over any calls the output is a prefix of
the sequence. A call stops when the output is full or the current input has run out. -/
theorem muxes_cyclically (nonzero : ∃ len ∈ lengths, len ≠ 0) :
    ∃ d, construct lengths = some d ∧ ∀ (inputs : Nat → Nat → α) (offers : List Offer),
      ∃ s, run (Session.call inputs) ⟨d, fun _ => 0, []⟩ offers = some s ∧
        (∃ q k, s.mux.stream < lengths.length ∧ k < lengths.getD s.mux.stream 0 ∧
          s.out = upTo lengths inputs q s.mux.stream k ∧
          s.out <+: rounds lengths inputs (q + 1) ∧
          ∀ t, s.consumed t = taken lengths q s.mux.stream k t) ∧
        ∀ offer, ∃ w, s.work inputs offer = some w ∧ Delivers offer w := by
  obtain ⟨d, -, -, ok, -⟩ := construct_stands (fun _ _ => ()) nonzero
  refine ⟨d, ok, fun inputs offers => ?_⟩
  have initial : Delivered lengths inputs ⟨d, fun _ => 0, []⟩ := by
    obtain ⟨e, q, stream, ok', stands⟩ := construct_stands inputs nonzero
    obtain rfl := Option.some.inj (ok.symm.trans ok')
    exact ⟨q, stream, 0, stands⟩
  obtain ⟨s, ran, delivered⟩ := run_total (Delivered lengths inputs) initial
    (fun s offer delivered => by
      obtain ⟨-, next, called, still⟩ := delivered.call nonzero offer
      exact ⟨next, called, still⟩) offers
  refine ⟨s, ran, ?_, fun offer => (delivered.call nonzero offer).1⟩
  obtain ⟨q, stream, k, stands⟩ := delivered
  have residual := stands.residual
  have left := stands.left
  rw [stands.turn]
  refine ⟨q, k, stands.inside, by omega, stands.out, ?_, stands.consumed⟩
  rw [stands.out]
  exact upTo_prefix stands.inside

/-- Three inputs, the second one without items in a round. -/
theorem muxes_two_inputs : ∃ s, run (Session.call fun stream i => 10 * stream + i)
      ⟨⟨0, 2, [2, 0, 1]⟩, fun _ => 0, []⟩ [⟨4, fun _ => 2⟩, ⟨9, fun _ => 1⟩] = some s ∧
    s.out = [0, 1, 20, 2] ∧
    ∃ q, s.out <+: rounds [2, 0, 1] (fun stream i => 10 * stream + i) (q + 1) := by
  obtain ⟨d, ok, muxes⟩ := @muxes_cyclically Nat [2, 0, 1] ⟨2, by decide, by decide⟩
  obtain rfl := Option.some.inj (ok.symm.trans (show construct [2, 0, 1] =
    some ⟨0, 2, [2, 0, 1]⟩ from rfl))
  obtain ⟨s, ran, ⟨q, k, -, -, -, begins, -⟩, -⟩ := muxes (fun stream i => 10 * stream + i)
    [⟨4, fun _ => 2⟩, ⟨9, fun _ => 1⟩]
  have out : (run (Session.call fun stream i => 10 * stream + i)
      ⟨⟨0, 2, [2, 0, 1]⟩, fun _ => 0, []⟩ [⟨4, fun _ => 2⟩, ⟨9, fun _ => 1⟩]).map Session.out =
        some [0, 1, 20, 2] := by decide
  rw [ran] at out
  exact ⟨s, ran, Option.some.inj out, q, begins⟩

end StreamMux

end GnuRadio
