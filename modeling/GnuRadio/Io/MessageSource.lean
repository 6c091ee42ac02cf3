import GnuRadio.Misc.Trace
import GnuRadio.Packet.FramerSink1

/-!
# The message source

`gr_message_source` turns the messages of a queue into a stream of items, up to the end of a
message of type 1. Messages are put into the queue at any time; a turn of the loop of `work` is a
step, and there is none while `delete_head` waits.
-/

namespace GnuRadio

/-- `gr_message_source` (`gr_message_source.h:43-47`), without its queue. -/
structure MessageSource where
  itemsize : Nat
  msg : Option GrMessage
  msgOffset : UInt32
  eof : Bool
  deriving DecidableEq, Repr

namespace MessageSource

/-- The constructor (`gr_message_source.cc:61-68`). The size of an item, as an `int`, has to be
positive. -/
def construct (itemsize : Nat) : Except CppException MessageSource :=
  if (itemsize : Int).bmod (2 ^ 32) < 1 then .error (.invalidArgument "gr_io_signature(3)")
  else .ok ⟨itemsize, none, 0, false⟩

/-- Where the block is in `work`. -/
inductive Phase where
  | idle
  /-- In the loop: `noutput_items`, `nn` and what has been written to the output. -/
  | working (noutputItems nn : Nat) (out : List UInt8)
  /-- `work` has returned -1, and it is not called again. -/
  | done
  | raised (how : CppException)
  deriving DecidableEq, Repr

/-- The source, its queue, and the bytes of the items that `work` has returned. -/
structure World where
  source : MessageSource
  queue : List GrMessage
  phase : Phase
  reported : List UInt8
  deriving DecidableEq, Repr

/-- The number of items left of a message, which is cast to `int` (`gr_message_source.cc:86`). -/
def itemsLeft (d : MessageSource) (m : GrMessage) : Int :=
  (((m.msg.length - d.msgOffset.toNat) / d.itemsize : Nat) : Int).bmod (2 ^ 32)

/-- What is done with the current message (`gr_message_source.cc:82-99`). -/
def World.consumeMessage (w : World) (m : GrMessage) (noutputItems nn : Nat)
    (out : List UInt8) : World :=
  let mm := min ((noutputItems : Int) - nn) (w.source.itemsLeft m)
  if mm < 0 then { w with phase := .raised .undefinedBehaviour }
  else
    let bytes := mm.toNat * w.source.itemsize
    let copied := (m.msg.drop w.source.msgOffset.toNat).take bytes
    let offset := w.source.msgOffset + UInt32.ofNat bytes
    let phase := Phase.working noutputItems (nn + mm.toNat) (out ++ copied)
    if offset.toNat > m.msg.length then { w with phase := .raised .assertFailed }
    else if offset.toNat = m.msg.length then
      { w with
        source := { w.source with
          msgOffset := offset
          eof := w.source.eof || m.type = 1
          msg := none }
        phase }
    else
      { w with
        source := { w.source with msgOffset := offset }
        phase }

/-- `work` returns `nn` items. -/
def World.returns (w : World) (nn : Nat) (out : List UInt8) : World :=
  { w with
    phase := .idle
    reported := w.reported ++ out.take (nn * w.source.itemsize) }

/-- What is done without a current message (`gr_message_source.cc:100-116`). With nothing in the
queue, `delete_head` waits. -/
def World.nextMessage (w : World) (nn : Nat) (out : List UInt8) : Option World :=
  if w.queue = [] ∧ nn > 0 then some (w.returns nn out)
  else if w.source.eof then some { w with phase := .done }
  else match w.queue with
    | [] => none
    | m :: rest =>
      let w := { w with
        source := { w.source with
          msg := some m
          msgOffset := 0 }
        queue := rest }
      if m.msg.length % w.source.itemsize ≠ 0 then
        some { w with
          phase := .raised (.runtimeError "msg length is not a multiple of d_itemsize") }
      else some w

/-- What happens: a message is put into the queue, `work` is called, or its loop makes a turn. -/
inductive Action where
  | insertTail (m : GrMessage)
  | call (noutputItems : Nat)
  | turn
  deriving DecidableEq, Repr

/-- A step (`gr_message_source.cc:73-120`). -/
def step (w : World) : Action → Option World
  | .insertTail m => some { w with queue := w.queue ++ [m] }
  | .call noutputItems =>
    match w.phase with
    | .idle => some { w with phase := .working noutputItems 0 [] }
    | _ => none
  | .turn =>
    match w.phase with
    | .working noutputItems nn out =>
      if nn < noutputItems then
        match w.source.msg with
        | some m => some (w.consumeMessage m noutputItems nn out)
        | none => w.nextMessage nn out
      else some (w.returns nn out)
    | _ => none

/-- The source at the beginning, with an empty queue. -/
def start (d : MessageSource) : World := ⟨d, [], .idle, []⟩

/-- The messages that were put into the queue. -/
def inserted (es : List Action) : List GrMessage :=
  es.filterMap fun e => match e with
    | .insertTail m => some m
    | _ => none

/-- The messages up to the first one of type 1. -/
def throughEof : List GrMessage → List GrMessage
  | [] => []
  | m :: ms => if m.type = 1 then [m] else m :: throughEof ms

def bodies (ms : List GrMessage) : List UInt8 := ms.flatMap GrMessage.msg

/-- A call that has written something and has room left. -/
def Phase.partway : Phase → Bool
  | .working noutputItems nn _ => 0 < nn && nn < noutputItems
  | _ => false

/-- Behind the end mark, in a call that has written items and has room left, there are messages in
the queue. -/
def DropsItems (w : World) : Prop :=
  w.phase.partway = true ∧ w.source.msg = none ∧ w.source.eof = true ∧ w.queue ≠ []

instance (w : World) : Decidable (DropsItems w) :=
  inferInstanceAs (Decidable (_ ∧ _ ∧ _ ∧ _))

/-- A message whose length and number of items the source can count. -/
def Countable (itemsize : Nat) (m : GrMessage) : Prop :=
  m.msg.length < 2 ^ 32 ∧ m.msg.length / itemsize < 2 ^ 31

instance (itemsize : Nat) (m : GrMessage) : Decidable (Countable itemsize m) :=
  inferInstanceAs (Decidable (_ ∧ _))

/-- A message that is put into the queue consists of items; no turn drops items, or is about a
message that is too long. -/
def Careful (w : World) : Action → Prop
  | .insertTail m => m.msg.length % w.source.itemsize = 0
  | .call _ => True
  | .turn => ¬DropsItems w ∧ ∀ m ∈ w.source.msg.toList, Countable w.source.itemsize m

instance (w : World) : ∀ e, Decidable (Careful w e)
  | .insertTail m => inferInstanceAs (Decidable (m.msg.length % w.source.itemsize = 0))
  | .call _ => inferInstanceAs (Decidable True)
  | .turn => inferInstanceAs (Decidable (_ ∧ _))

/-! ## What has been delivered -/

/-- The bytes that have been returned, and those that the call under way has written. -/
def World.delivered (w : World) : List UInt8 :=
  w.reported ++ match w.phase with
    | .working _ _ out => out
    | _ => []

/-- The bytes left of the current message. -/
def rest (d : MessageSource) : List UInt8 :=
  match d.msg with
  | some m => m.msg.drop d.msgOffset.toNat
  | none => []

/-- A call under way has written whole items. -/
def World.Counts (w : World) : Prop :=
  ∀ noutputItems nn out, w.phase = .working noutputItems nn out →
    nn ≤ noutputItems ∧ out.length = nn * w.source.itemsize

/-- The source has not come to the end mark: what it has delivered and what is left of the current
message are the messages that it has taken. -/
structure World.Before (w : World) (ms : List GrMessage) : Prop where
  eof : w.source.eof = false
  going : w.phase ≠ .done ∧ ∀ how, w.phase ≠ .raised how
  taken : ∃ past, (∀ m ∈ past, m.type ≠ 1) ∧ ms = past ++ (w.source.msg.toList ++ w.queue) ∧
    w.delivered ++ w.source.rest = bodies (past ++ w.source.msg.toList)

/-- The source has come to the end mark, and has delivered everything up to there. -/
structure World.Behind (w : World) (ms : List GrMessage) : Prop where
  eof : w.source.eof = true
  msg : w.source.msg = none
  fine : ∀ how, w.phase ≠ .raised how
  taken : ∃ past last, (∀ m ∈ past, m.type ≠ 1) ∧ last.type = 1 ∧
    ms = past ++ last :: w.queue ∧ w.delivered = bodies (past ++ [last])

/-- What holds behind a careful run in which these messages were put into the queue. -/
structure World.Sound (itemsize : Nat) (w : World) (ms : List GrMessage) : Prop where
  size : w.source.itemsize = itemsize
  positive : 0 < itemsize
  whole : ∀ m ∈ w.source.msg.toList ++ w.queue, m.msg.length % itemsize = 0
  offset : ∀ m, w.source.msg = some m →
    w.source.msgOffset.toNat ≤ m.msg.length ∧ w.source.msgOffset.toNat % itemsize = 0
  counts : w.Counts
  side : w.Before ms ∨ w.Behind ms

theorem throughEof_append {past : List GrMessage} (noMark : ∀ m ∈ past, m.type ≠ 1)
    (ms : List GrMessage) : throughEof (past ++ ms) = past ++ throughEof ms := by
  induction past with
  | nil => rfl
  | cons m past ih =>
    rw [List.cons_append, throughEof, if_neg (noMark m List.mem_cons_self),
      ih (fun m member => noMark m (List.mem_cons_of_mem _ member)), List.cons_append]

theorem bodies_append (ms more : List GrMessage) :
    bodies (ms ++ more) = bodies ms ++ bodies more := List.flatMap_append

theorem World.Sound.delivered {itemsize : Nat} {w : World} {ms : List GrMessage}
    (sound : w.Sound itemsize ms) : w.delivered <+: bodies (throughEof ms) ∧
      (w.source.eof = true → w.delivered = bodies (throughEof ms)) := by
  rcases sound.side with before | behind
  · obtain ⟨past, noMark, split, delivered⟩ := before.taken
    refine ⟨?_, fun mark => absurd (mark.symm.trans before.eof) (by decide)⟩
    have start : past ++ w.source.msg.toList <+: throughEof ms := by
      rw [split, throughEof_append noMark]
      apply (List.prefix_append_right_inj _).mpr
      cases w.source.msg with
      | none => exact List.nil_prefix
      | some m =>
        rw [Option.toList_some, List.singleton_append, throughEof]
        split
        · exact List.prefix_rfl
        · exact List.prefix_cons_inj m |>.mpr List.nil_prefix
    obtain ⟨more, rest⟩ := start
    rw [← rest, bodies_append, ← delivered, List.append_assoc]
    exact List.prefix_append _ _
  · obtain ⟨past, last, noMark, mark, split, delivered⟩ := behind.taken
    have ends : throughEof ms = past ++ [last] := by
      rw [split, throughEof_append noMark, throughEof, if_pos mark]
    rw [ends, delivered]
    exact ⟨List.prefix_rfl, fun _ => rfl⟩

/-! ## Steps -/

variable {itemsize : Nat} {w : World} {m : GrMessage} {ms : List GrMessage}

theorem itemsLeft_eq {d : MessageSource} (countable : Countable d.itemsize m) :
    d.itemsLeft m = ((m.msg.length - d.msgOffset.toNat) / d.itemsize : Nat) := by
  have few : (m.msg.length - d.msgOffset.toNat) / d.itemsize < 2 ^ 31 :=
    Nat.lt_of_le_of_lt (Nat.div_le_div_right (Nat.sub_le _ _)) countable.2
  unfold itemsLeft
  generalize (m.msg.length - d.msgOffset.toNat) / d.itemsize = left at few
  exact Int.bmod_eq_of_le (by omega) (by omega)

variable {nn noutputItems : Nat} {out : List UInt8}

theorem toNat_min_sub {n : Nat} (left : Nat) (room : nn ≤ n) :
    ¬min ((n : Int) - nn) (left : Int) < 0 ∧
      (min ((n : Int) - nn) (left : Int)).toNat = min (n - nn) left := by
  omega

theorem consumeMessage_eq (out : List UInt8)
    (sound : w.Sound itemsize ms) (current : w.source.msg = some m)
    (countable : Countable itemsize m) (room : nn ≤ noutputItems) :
    ∃ mm offset, nn + mm ≤ noutputItems ∧ offset.toNat = w.source.msgOffset.toNat + mm * itemsize ∧
      offset.toNat ≤ m.msg.length ∧ offset.toNat % itemsize = 0 ∧
      w.consumeMessage m noutputItems nn out =
        let copied := (m.msg.drop w.source.msgOffset.toNat).take (mm * itemsize)
        if offset.toNat = m.msg.length then
          { w with
            source := { w.source with
              msgOffset := offset
              eof := w.source.eof || m.type = 1
              msg := none }
            phase := .working noutputItems (nn + mm) (out ++ copied) }
        else
          { w with
            source := { w.source with msgOffset := offset }
            phase := .working noutputItems (nn + mm) (out ++ copied) } := by
  obtain ⟨inside, aligned⟩ := sound.offset m current
  have whole := sound.whole m (by rw [current]; exact List.mem_cons_self)
  obtain ⟨r, start⟩ := Nat.dvd_of_mod_eq_zero aligned
  obtain ⟨q, length⟩ := Nat.dvd_of_mod_eq_zero whole
  have positive := sound.positive
  have left : (m.msg.length - w.source.msgOffset.toNat) / itemsize = q - r := by
    rw [length, start, ← Nat.mul_sub, Nat.mul_div_cancel_left _ positive]
  have items : w.source.itemsLeft m = ((q - r : Nat) : Int) := by
    rw [itemsLeft_eq (sound.size.symm ▸ countable), sound.size, left]
  have less : r ≤ q := by
    rw [length, start] at inside
    exact Nat.le_of_mul_le_mul_left inside positive
  obtain ⟨notNegative, count⟩ := toNat_min_sub (q - r) room
  rw [← items] at notNegative count
  have fits : w.source.msgOffset.toNat + min (noutputItems - nn) (q - r) * itemsize ≤
      m.msg.length := by
    have most : r + min (noutputItems - nn) (q - r) ≤ q :=
      Nat.add_le_of_le_sub' less (Nat.min_le_right _ _)
    rw [length, start, Nat.mul_comm _ itemsize, ← Nat.mul_add]
    exact Nat.mul_le_mul_left itemsize most
  have offset : (w.source.msgOffset +
      UInt32.ofNat (min (noutputItems - nn) (q - r) * itemsize)).toNat =
        w.source.msgOffset.toNat + min (noutputItems - nn) (q - r) * itemsize := by
    have word := countable.1
    rw [UInt32.toNat_add, UInt32.toNat_ofNat']
    omega
  have bounded : nn + min (noutputItems - nn) (q - r) ≤ noutputItems :=
    Nat.add_le_of_le_sub' room (Nat.min_le_left _ _)
  rw [← offset] at fits
  refine ⟨min (noutputItems - nn) (q - r), _, bounded, offset, fits, ?_, ?_⟩
  · rw [offset, start, Nat.mul_comm _ itemsize, ← Nat.mul_add]
    exact Nat.mul_mod_right _ _
  · unfold World.consumeMessage
    dsimp only
    rw [if_neg notNegative, count, sound.size, if_neg (Nat.not_lt.mpr fits)]

section

variable (sound : w.Sound itemsize ms)
include sound

theorem World.Sound.consumeMessage (phase : w.phase = .working noutputItems nn out)
    (current : w.source.msg = some m) (countable : Countable itemsize m) :
    (w.consumeMessage m noutputItems nn out).Sound itemsize ms := by
  obtain ⟨room, bytes⟩ := sound.counts noutputItems nn out phase
  obtain ⟨mm, offset, fits, moved, inside, aligned, step⟩ :=
    consumeMessage_eq out sound current countable room
  have before : w.Before ms := by
    rcases sound.side with before | behind
    · exact before
    · rw [behind.msg] at current
      cases current
  obtain ⟨past, noMark, split, delivered⟩ := before.taken
  have whole := sound.whole
  rw [World.delivered, phase, MessageSource.rest, current] at delivered
  rw [current] at split whole
  dsimp only at delivered
  have copied : ((m.msg.drop w.source.msgOffset.toNat).take (mm * itemsize)).length =
      mm * itemsize := by
    rw [List.length_take, List.length_drop]
    exact Nat.min_eq_left (by omega)
  have counted : (out ++ (m.msg.drop w.source.msgOffset.toNat).take (mm * itemsize)).length =
      (nn + mm) * itemsize := by
    rw [List.length_append, copied, bytes, sound.size, Nat.add_mul]
  rw [step]
  dsimp only
  by_cases ends : offset.toNat = m.msg.length
  · rw [if_pos ends]
    have all : (m.msg.drop w.source.msgOffset.toNat).take (mm * itemsize) =
        m.msg.drop w.source.msgOffset.toNat := by
      apply List.take_of_length_le
      rw [List.length_drop]
      omega
    refine ⟨sound.size, sound.positive, fun m member => whole m (List.mem_cons_of_mem _ member),
      ?_, ?_, ?_⟩
    · intro other none
      cases none
    · intro n k written working
      cases working
      exact ⟨fits, by rw [counted, sound.size]⟩
    · have said : w.reported ++ (out ++ (m.msg.drop w.source.msgOffset.toNat).take
          (mm * itemsize)) = bodies (past ++ [m]) := by
        rw [all, ← List.append_assoc, delivered]
        rfl
      by_cases mark : m.type = 1
      · right
        refine ⟨by simp [mark], rfl, fun how => by simp, past, m, noMark, mark, split, said⟩
      · left
        refine ⟨by simp [mark, before.eof], ⟨by simp, by simp⟩, past ++ [m], ?_, ?_, ?_⟩
        · intro other member
          rcases List.mem_append.mp member with old | new
          · exact noMark other old
          · rw [List.mem_singleton.mp new]
            exact mark
        · rw [split, List.append_assoc]
          rfl
        · rw [Option.toList_none, List.append_nil, ← said]
          exact List.append_nil _
  · rw [if_neg ends]
    refine ⟨sound.size, sound.positive, ?_, ?_, ?_, Or.inl ⟨before.eof, ⟨by simp, by simp⟩, past,
      noMark, ?_, ?_⟩⟩
    · rw [current]
      exact whole
    · intro other same
      obtain rfl := Option.some.inj (current.symm.trans same)
      exact ⟨inside, aligned⟩
    · intro n k written working
      cases working
      exact ⟨fits, by rw [counted, sound.size]⟩
    · rw [current]
      exact split
    · rw [current]
      refine Eq.trans ?_ delivered
      have rest : (m.msg.drop w.source.msgOffset.toNat).take (mm * itemsize) ++
          m.msg.drop offset.toNat = m.msg.drop w.source.msgOffset.toNat := by
        rw [moved, ← List.drop_drop, List.take_append_drop]
      rw [World.delivered, MessageSource.rest]
      dsimp only
      rw [List.append_assoc, List.append_assoc, rest, ← List.append_assoc]

theorem World.Sound.returns (phase : w.phase = .working noutputItems nn out) :
    (w.returns nn out).Sound itemsize ms := by
  obtain ⟨-, bytes⟩ := sound.counts noutputItems nn out phase
  have same : (w.returns nn out).delivered = w.delivered := by
    rw [World.delivered, World.delivered, phase, World.returns]
    dsimp only
    rw [List.append_nil, List.take_of_length_le (Nat.le_of_eq bytes)]
  refine ⟨sound.size, sound.positive, sound.whole, sound.offset, ?_, ?_⟩
  · intro n k written working
    cases working
  · rcases sound.side with before | behind
    · obtain ⟨past, noMark, split, delivered⟩ := before.taken
      exact Or.inl ⟨before.eof, ⟨by simp [World.returns], by simp [World.returns]⟩, past, noMark,
        split, by rw [same]; exact delivered⟩
    · obtain ⟨past, last, noMark, mark, split, delivered⟩ := behind.taken
      exact Or.inr ⟨behind.eof, behind.msg, by simp [World.returns], past, last, noMark, mark,
        split, by rw [same]; exact delivered⟩

theorem World.Sound.nextMessage {w' : World} (phase : w.phase = .working noutputItems nn out)
    (less : nn < noutputItems) (current : w.source.msg = none) (careful : ¬DropsItems w)
    (next : w.nextMessage nn out = some w') : w'.Sound itemsize ms := by
  obtain ⟨room, bytes⟩ := sound.counts noutputItems nn out phase
  unfold World.nextMessage at next
  split at next
  · cases next
    exact sound.returns phase
  · rename_i goesOn
    split at next
    · rename_i mark
      cases next
      -- the end mark has been seen, and nothing is lost
      have none : nn = 0 := by
        by_contra some
        have empty : w.queue ≠ [] := fun empty => goesOn ⟨empty, Nat.pos_of_ne_zero some⟩
        have partway : w.phase.partway = true := by
          rw [phase, Phase.partway]
          simp [Nat.pos_of_ne_zero some, less]
        exact careful ⟨partway, current, mark, empty⟩
      rcases sound.side with before | behind
      · rw [before.eof] at mark
        cases mark
      · obtain ⟨past, last, noMark, mark, split, delivered⟩ := behind.taken
        have nothing : out = [] := by
          apply List.eq_nil_of_length_eq_zero
          rw [bytes, none, Nat.zero_mul]
        rw [World.delivered, phase, nothing] at delivered
        refine ⟨sound.size, sound.positive, sound.whole, sound.offset, ?_, Or.inr ⟨behind.eof,
          behind.msg, by simp, past, last, noMark, mark, split, delivered⟩⟩
        intro n k written working
        cases working
    · rename_i noMark
      rcases sound.side with before | behind
      · obtain ⟨past, noMarks, split, delivered⟩ := before.taken
        have whole := sound.whole
        rw [current] at whole split
        rw [World.delivered, phase, MessageSource.rest, current] at delivered
        cases list : w.queue with
        | nil =>
          rw [list] at next
          cases next
        | cons m rest =>
          rw [list] at next whole split
          have even := whole m List.mem_cons_self
          dsimp only at next
          rw [sound.size, if_neg (fun odd => odd even)] at next
          cases next
          refine ⟨rfl, sound.positive, whole, ?_, ?_, Or.inl ⟨before.eof, ⟨?_, ?_⟩, past, noMarks,
            split, ?_⟩⟩
          · intro other same
            cases same
            exact ⟨Nat.zero_le _, Nat.zero_mod _⟩
          · intro n k written working
            have held := sound.counts n k written working
            rw [sound.size] at held
            exact held
          · dsimp only
            rw [phase]
            simp
          · dsimp only
            rw [phase]
            simp
          · rw [World.delivered, MessageSource.rest]
            dsimp only
            rw [phase]
            rw [Option.toList_none, List.append_nil, List.append_nil] at delivered
            rw [delivered, bodies_append]
            simp [bodies]
      · exact absurd behind.eof noMark

theorem World.Sound.insertTail (whole : m.msg.length % itemsize = 0) :
    ({ w with queue := w.queue ++ [m] } : World).Sound itemsize (ms ++ [m]) := by
  refine ⟨sound.size, sound.positive, ?_, sound.offset, sound.counts, ?_⟩
  · intro other member
    dsimp only at member
    rw [← List.append_assoc] at member
    rcases List.mem_append.mp member with old | new
    · exact sound.whole other old
    · rw [List.mem_singleton.mp new]
      exact whole
  · rcases sound.side with before | behind
    · obtain ⟨past, noMark, split, delivered⟩ := before.taken
      refine Or.inl ⟨before.eof, before.going, past, noMark, ?_, delivered⟩
      rw [split, List.append_assoc, List.append_assoc]
    · obtain ⟨past, last, noMark, mark, split, delivered⟩ := behind.taken
      refine Or.inr ⟨behind.eof, behind.msg, behind.fine, past, last, noMark, mark, ?_, delivered⟩
      rw [split, List.append_assoc, List.cons_append]

theorem World.Sound.call (phase : w.phase = .idle) (noutputItems : Nat) :
    ({ w with phase := .working noutputItems 0 [] } : World).Sound itemsize ms := by
  have same : ({ w with phase := .working noutputItems 0 [] } : World).delivered =
      w.delivered := by
    rw [World.delivered, World.delivered, phase]
  refine ⟨sound.size, sound.positive, sound.whole, sound.offset, ?_, ?_⟩
  · intro n k written working
    cases working
    exact ⟨Nat.zero_le _, by rw [Nat.zero_mul]; rfl⟩
  · rcases sound.side with before | behind
    · obtain ⟨past, noMark, split, delivered⟩ := before.taken
      exact Or.inl ⟨before.eof, ⟨by simp, by simp⟩, past, noMark, split,
        by rw [same]; exact delivered⟩
    · obtain ⟨past, last, noMark, mark, split, delivered⟩ := behind.taken
      exact Or.inr ⟨behind.eof, behind.msg, by simp, past, last, noMark, mark, split,
        by rw [same]; exact delivered⟩

theorem World.Sound.step {w' : World} {e : Action} (careful : Careful w e)
    (stepped : MessageSource.step w e = some w') : w'.Sound itemsize (ms ++ inserted [e]) := by
  cases e with
  | insertTail m =>
    cases stepped
    exact sound.insertTail (sound.size ▸ careful)
  | call noutputItems =>
    rw [MessageSource.step] at stepped
    split at stepped
    · rename_i idle
      cases stepped
      exact (List.append_nil ms).symm ▸ sound.call idle noutputItems
    · cases stepped
  | turn =>
    have same : ms ++ inserted [.turn] = ms := List.append_nil ms
    rw [same]
    rw [MessageSource.step] at stepped
    split at stepped
    · rename_i noutputItems nn out phase
      split at stepped
      · rename_i less
        split at stepped
        · rename_i m current
          have countable := careful.2 m (by rw [current]; exact List.mem_cons_self)
          rw [sound.size] at countable
          obtain rfl := Option.some.inj stepped
          exact sound.consumeMessage phase current countable
        · rename_i current
          exact sound.nextMessage phase less current careful.1 stepped
      · cases stepped
        exact sound.returns phase
    · cases stepped

end

/-- **Before the source returns -1 it delivers the messages up to the end mark, each item once and
in order, in every careful run.** -/
theorem delivers_through_eof {d : MessageSource} {es : List Action} {w : World}
    (ok : construct itemsize = .ok d) (careful : Throughout Careful step (start d) es)
    (reached : run step (start d) es = some w) :
    (w.phase = .done → (∃ m ∈ inserted es, m.type = 1) ∧
      w.reported = bodies (throughEof (inserted es))) ∧
    w.reported <+: bodies (throughEof (inserted es)) ∧ ∀ how, w.phase ≠ .raised how := by
  unfold construct at ok
  split at ok
  · cases ok
  rename_i size
  cases ok
  have positive : 0 < itemsize := by
    apply Nat.pos_of_ne_zero
    rintro rfl
    exact size (by decide)
  have sound : w.Sound itemsize (inserted es) := by
    refine run_history (fun es w => w.Sound itemsize (inserted es)) ?_ ?_ careful reached
    · refine ⟨rfl, positive, ?_, ?_, ?_, Or.inl ⟨rfl, ⟨by simp [start], by simp [start]⟩, [], ?_,
        rfl, rfl⟩⟩
      · intro m none
        cases none
      · intro m none
        cases none
      · intro n k written working
        cases working
      · intro m none
        cases none
    · intro es v e u _ sound careful stepped
      have more : inserted (es ++ [e]) = inserted es ++ inserted [e] := List.filterMap_append ..
      rw [more]
      exact sound.step careful stepped
  obtain ⟨begins, all⟩ := sound.delivered
  have reported : w.reported <+: w.delivered := List.prefix_append _ _
  refine ⟨fun done => ?_, reported.trans begins, ?_⟩
  · rcases sound.side with before | behind
    · exact absurd done before.going.1
    · obtain ⟨past, last, -, mark, split, -⟩ := behind.taken
      have every := all behind.eof
      rw [World.delivered, done] at every
      refine ⟨⟨last, ?_, mark⟩, (List.append_nil _).symm.trans every⟩
      rw [split]
      exact List.mem_append_right past List.mem_cons_self
  · rcases sound.side with before | behind
    · exact before.going.2
    · exact behind.fine

/-- Two bytes, an end mark that carries one, and three calls. -/
def markedRun : List Action :=
  [.insertTail ⟨0, 0, 0, [5, 6]⟩, .call 3, .turn, .turn, .turn, .insertTail ⟨1, 0, 0, [7]⟩,
    .call 3, .turn, .turn, .turn, .call 3, .turn]

/-- Its bytes are returned before -1. -/
theorem delivers_three_bytes : ∃ w, run step (start ⟨1, none, 0, false⟩) markedRun = some w ∧
    w.phase = .done ∧ w.reported = [5, 6, 7] ∧
      w.reported = bodies (throughEof (inserted markedRun)) := by
  have careful : Throughout Careful step (start ⟨1, none, 0, false⟩) markedRun := by decide
  have reached : run step (start ⟨1, none, 0, false⟩) markedRun =
      some ⟨⟨1, none, 1, true⟩, [], .done, [5, 6, 7]⟩ := by decide
  have made : construct 1 = .ok ⟨1, none, 0, false⟩ := rfl
  exact ⟨_, reached, rfl, rfl, ((delivers_through_eof made careful reached).1 rfl).2⟩

/-- An end mark of one byte with a message behind it, in a call with room for two: the byte has been
written, and `work` returns -1. -/
theorem drops_last_item : ∃ w, run step (start ⟨1, none, 0, false⟩)
      [.insertTail ⟨1, 0, 0, [7]⟩, .insertTail ⟨0, 0, 0, [8]⟩, .call 2, .turn, .turn, .turn] =
        some w ∧
    w.phase = .done ∧ w.reported ≠ bodies (throughEof [⟨1, 0, 0, [7]⟩, ⟨0, 0, 0, [8]⟩]) :=
  ⟨⟨⟨1, none, 1, true⟩, [⟨0, 0, 0, [8]⟩], .done, []⟩, by decide, rfl, by decide⟩

end MessageSource

end GnuRadio
