import GnuRadio.Misc.Ring
import GnuRadio.Misc.Trace
import GnuRadio.Runtime.Types
import Mathlib.Data.List.GetD

/-!
# The circular buffer of the USRP host library

`circular_buffer` (`circular_buffer.h`) lies between the thread that submits and the callback that
completes requests. Each call holds its mutex but for the time that it waits, so that a call is one
step, which is not enabled while it would wait.
-/

namespace GnuRadio

/-- `circular_buffer` (`circular_buffer.h:41-62`). -/
structure CircularBuffer (α : Type) where
  buffer : Nat → α
  bufLen : Nat
  readNdx : Nat
  writeNdx : Nat
  nAvailWrite : Nat
  nAvailRead : Nat
  doWriteBlock : Bool
  doFullRead : Bool
  doAbort : Bool

/-- A `bcopy` of items into a buffer, from an index on. -/
def bcopyTo {α : Type} (buffer : Nat → α) (start : Nat) (items : List α) : Nat → α :=
  fun i => if start ≤ i then items.getD (i - start) (buffer i) else buffer i

/-- A `bcopy` of items out of a buffer. -/
def bcopyFrom {α : Type} (buffer : Nat → α) (start count : Nat) : List α :=
  (List.range count).map fun i => buffer (start + i)

namespace CircularBuffer

variable {α : Type}

/-- The constructor (`circular_buffer.h:75-92`) with `reset`, which clears the items. -/
def construct (zero : α) (bufLen : Nat) (doWriteBlock doFullRead : Bool) :
    Except CppException (CircularBuffer α) :=
  if bufLen = 0 then
    .error (.runtimeError "circular_buffer(): Number of items to buffer must be > 0.\n")
  else .ok {
    buffer := fun _ => zero
    bufLen
    readNdx := 0
    writeNdx := 0
    nAvailWrite := bufLen
    nAvailRead := 0
    doWriteBlock
    doFullRead
    doAbort := false }

/-- The end of `enqueue` (`circular_buffer.h:197-210`). -/
def put (b : CircularBuffer α) (buf : List α) : CircularBuffer α :=
  let room := b.bufLen - b.writeNdx
  let nNow := if room > buf.length then buf.length else room
  let nStart := if room < buf.length then buf.length - nNow else 0
  let buffer := bcopyTo b.buffer b.writeNdx (buf.take nNow)
  { b with
    buffer := if nStart ≠ 0 then bcopyTo buffer 0 (buf.drop nNow) else buffer
    writeNdx := if nStart ≠ 0 then nStart else b.writeNdx + nNow
    nAvailRead := b.nAvailRead + buf.length
    nAvailWrite := b.nAvailWrite - buf.length }

/-- `enqueue` (`circular_buffer.h:153-212`): what it returns, or `none` while it waits for room. -/
def enqueue (b : CircularBuffer α) (buf : List α) :
    Except CppException (Option (Int × CircularBuffer α)) :=
  if b.bufLen < buf.length then .error (.runtimeError "circular_buffer::enqueue()")
  else if buf.length = 0 then .ok (some (0, b))
  else if b.doAbort then .ok (some (2, b))
  else if b.nAvailWrite < buf.length then
    if b.doWriteBlock then .ok none
    else .ok (some (-1, put { b with
      nAvailRead := b.bufLen - buf.length
      nAvailWrite := buf.length } buf))
  else .ok (some (1, b.put buf))

/-- The end of `dequeue` (`circular_buffer.h:284-304`): the items and the buffer after. -/
def get (b : CircularBuffer α) (bufLen : Nat) : List α × CircularBuffer α :=
  let count := if b.nAvailRead < bufLen then b.nAvailRead else bufLen
  let room := b.bufLen - b.readNdx
  let nNow := if room > count then count else room
  let nStart := if room < count then count - nNow else 0
  (bcopyFrom b.buffer b.readNdx nNow ++
      (if nStart ≠ 0 then bcopyFrom b.buffer 0 nStart else []),
    { b with
      readNdx := if nStart ≠ 0 then nStart else b.readNdx + nNow
      nAvailRead := b.nAvailRead - count
      nAvailWrite := b.nAvailWrite + count })

/-- `dequeue` (`circular_buffer.h:235-305`): what it returns and the items, or `none` while it
waits for items. -/
def dequeue (b : CircularBuffer α) (bufLen : Nat) :
    Except CppException (Option (Int × List α × CircularBuffer α)) :=
  if bufLen = 0 then .ok (some (0, [], b))
  else if b.bufLen < bufLen then .error (.runtimeError "circular_buffer::dequeue()")
  else if b.doAbort then .ok (some (2, [], b))
  else if (if b.doFullRead then b.nAvailRead < bufLen else b.nAvailRead = 0) then .ok none
  else .ok (some (1, b.get bufLen))

/-- `abort` (`circular_buffer.h:307-312`). -/
def abort (b : CircularBuffer α) : CircularBuffer α := { b with doAbort := true }

/-- The items that are stored, in the order in which they are to be read. -/
def contents (b : CircularBuffer α) : List α :=
  Ring.view b.bufLen b.buffer b.readNdx b.nAvailRead

/-- The indices are those of a ring that holds as many items as can be read. -/
structure Sound (b : CircularBuffer α) : Prop where
  positive : 0 < b.bufLen
  read : b.readNdx ≤ b.bufLen
  write : b.writeNdx ≤ b.bufLen
  sum : b.nAvailRead + b.nAvailWrite = b.bufLen
  place : b.writeNdx % b.bufLen = (b.readNdx + b.nAvailRead) % b.bufLen

/-! ## Copies around the end of the buffer -/

variable {buffer : Nat → α} {start bufLen capacity : Nat} {items buf : List α}
  {b : CircularBuffer α}

theorem bcopyTo_inside {k : Nat} (inside : k < items.length) :
    bcopyTo buffer start items (start + k) = items[k] := by
  rw [bcopyTo, if_pos (Nat.le_add_right _ _), Nat.add_sub_cancel_left,
    List.getD_eq_getElem _ _ inside]

theorem bcopyTo_outside {i : Nat} (outside : i < start ∨ start + items.length ≤ i) :
    bcopyTo buffer start items i = buffer i := by
  unfold bcopyTo
  split
  · exact List.getD_eq_default _ _ (by omega)
  · rfl

theorem bcopyTo_store (buffer : Nat → α) {n : Nat} (inside : start ≤ n) (fits : items.length ≤ n) :
    bcopyTo (bcopyTo buffer start (items.take (n - start))) 0 (items.drop (n - start)) =
      Ring.store n buffer start items := by
  funext i
  have first : (items.take (n - start)).length ≤ n - start := List.length_take_le ..
  by_cases hit : ∃ k < items.length, i = (start + k) % n
  · obtain ⟨k, bound, rfl⟩ := hit
    rw [Ring.store_inside n buffer start items fits k bound]
    by_cases before : k < n - start
    · have here : k < (items.take (n - start)).length := by
        rw [List.length_take]
        omega
      have last : (items.drop (n - start)).length ≤ start := by
        rw [List.length_drop]
        omega
      rw [Nat.mod_eq_of_lt (by omega), bcopyTo_outside (Or.inr (by omega)), bcopyTo_inside here,
        List.getElem_take]
    · have wrapped : (start + k) % n = 0 + (k - (n - start)) := by
        rw [Nat.mod_eq_sub_mod (by omega), Nat.mod_eq_of_lt (by omega)]
        omega
      have here : k - (n - start) < (items.drop (n - start)).length := by
        rw [List.length_drop]
        omega
      rw [wrapped, bcopyTo_inside here, List.getElem_drop]
      congr 1
      omega
  · have missed : ∀ k < items.length, i ≠ (start + k) % n :=
      fun k bound same => hit ⟨k, bound, same⟩
    rw [Ring.store_outside n buffer start i items missed, bcopyTo_outside, bcopyTo_outside]
    · rw [List.length_take]
      by_contra within
      refine missed (i - start) (by omega) ?_
      rw [Nat.mod_eq_of_lt (by omega)]
      omega
    · right
      rw [List.length_drop]
      by_contra within
      refine missed (i + (n - start)) (by omega) ?_
      have turn : start + (i + (n - start)) = i + n := by omega
      rw [turn, Nat.add_mod_right, Nat.mod_eq_of_lt (by omega)]

theorem bcopyFrom_view (buffer : Nat → α) {n count : Nat} (inside : start ≤ n)
    (fits : count ≤ n) : bcopyFrom buffer start (min count (n - start)) ++
      bcopyFrom buffer 0 (count - (n - start)) = Ring.view n buffer start count := by
  have parts : count = min count (n - start) + (count - (n - start)) := by omega
  conv_rhs => rw [parts]
  rw [Ring.view_add]
  congr 1
  · refine List.map_congr_left fun i member => ?_
    have within := List.mem_range.mp member
    rw [Nat.mod_eq_of_lt (by omega)]
  · refine List.map_congr_left fun i member => ?_
    have within := List.mem_range.mp member
    have turn : start + min count (n - start) + i = i + n := by omega
    rw [turn, Nat.add_mod_right, Nat.mod_eq_of_lt (by omega), Nat.zero_add]

/-! ## Both ends of the buffer -/

theorem pieces_eq (room count : Nat) :
    (if room > count then count else room) = min count room ∧
      (if room < count then count - min count room else 0) = count - room := by
  constructor
  · split <;> omega
  · split <;> omega

theorem put_buffer (write : b.writeNdx ≤ b.bufLen) (fits : buf.length ≤ b.bufLen) :
    (b.put buf).buffer = Ring.store b.bufLen b.buffer b.writeNdx buf := by
  obtain ⟨now, start⟩ := pieces_eq (b.bufLen - b.writeNdx) buf.length
  have first : buf.take (min buf.length (b.bufLen - b.writeNdx)) =
      buf.take (b.bufLen - b.writeNdx) := by
    rw [List.take_eq_take_iff]
    omega
  rw [← bcopyTo_store b.buffer write fits, put]
  dsimp only
  rw [now, start, first]
  by_cases more : buf.length - (b.bufLen - b.writeNdx) = 0
  · rw [if_neg (not_not_intro more), List.drop_of_length_le (by omega)]
    funext i
    exact (bcopyTo_outside (Or.inr (Nat.zero_le _))).symm
  · rw [if_pos more, Nat.min_eq_right (by omega)]

theorem put_writeNdx (write : b.writeNdx ≤ b.bufLen)
    (fits : buf.length ≤ b.bufLen) : (b.put buf).writeNdx ≤ b.bufLen ∧
      (b.put buf).writeNdx % b.bufLen = (b.writeNdx + buf.length) % b.bufLen := by
  obtain ⟨now, start⟩ := pieces_eq (b.bufLen - b.writeNdx) buf.length
  rw [put]
  dsimp only
  rw [now, start]
  by_cases more : buf.length - (b.bufLen - b.writeNdx) = 0
  · rw [if_neg (not_not_intro more), Nat.min_eq_left (by omega)]
    exact ⟨by omega, rfl⟩
  · have turn : b.writeNdx + buf.length =
        buf.length - (b.bufLen - b.writeNdx) + b.bufLen := by omega
    rw [if_pos more, turn, Nat.add_mod_right]
    exact ⟨by omega, rfl⟩

theorem Sound.put (sound : Sound b) (room : buf.length ≤ b.nAvailWrite) :
    Sound (b.put buf) ∧ (b.put buf).contents = b.contents ++ buf := by
  have sum := sound.sum
  obtain ⟨write, place⟩ := put_writeNdx sound.write (show buf.length ≤ b.bufLen by omega)
  have kept : (b.put buf).bufLen = b.bufLen ∧ (b.put buf).readNdx = b.readNdx ∧
      (b.put buf).nAvailRead = b.nAvailRead + buf.length ∧
      (b.put buf).nAvailWrite = b.nAvailWrite - buf.length := ⟨rfl, rfl, rfl, rfl⟩
  obtain ⟨size, start, more, less⟩ := kept
  constructor
  · refine ⟨size ▸ sound.positive, ?_, size ▸ write, ?_, ?_⟩
    · rw [size, start]
      exact sound.read
    · rw [size, more, less]
      omega
    · rw [size, place, start, more, ← Nat.add_assoc, Nat.add_mod, sound.place, ← Nat.add_mod]
  · rw [contents, size, start, more, put_buffer sound.write (by omega), ← Ring.store_mod,
      sound.place, Ring.store_mod, contents]
    exact Ring.view_store b.buffer b.readNdx b.nAvailRead (by omega)

theorem get_eq (read : b.readNdx ≤ b.bufLen) (fits : bufLen ≤ b.bufLen) :
    (b.get bufLen).1 = Ring.view b.bufLen b.buffer b.readNdx (min bufLen b.nAvailRead) ∧
      (b.get bufLen).2.readNdx ≤ b.bufLen ∧ (b.get bufLen).2.readNdx % b.bufLen =
        (b.readNdx + min bufLen b.nAvailRead) % b.bufLen ∧
      (b.get bufLen).2.nAvailRead = b.nAvailRead - min bufLen b.nAvailRead ∧
      (b.get bufLen).2.nAvailWrite = b.nAvailWrite + min bufLen b.nAvailRead := by
  have least : (if b.nAvailRead < bufLen then b.nAvailRead else bufLen) =
      min bufLen b.nAvailRead := by
    split <;> omega
  rw [get]
  dsimp only
  rw [least]
  generalize count : min bufLen b.nAvailRead = c
  have bound : c ≤ b.bufLen := by omega
  obtain ⟨now, rest⟩ := pieces_eq (b.bufLen - b.readNdx) c
  rw [now, rest, ← bcopyFrom_view b.buffer read bound]
  by_cases more : c - (b.bufLen - b.readNdx) = 0
  · have whole : min c (b.bufLen - b.readNdx) = c := by omega
    rw [more, if_neg (by simp), if_neg (by simp), whole]
    exact ⟨rfl, by omega, rfl, rfl, rfl⟩
  · rw [if_pos more, if_pos more]
    refine ⟨rfl, by omega, ?_, rfl, rfl⟩
    have turn : b.readNdx + c = c - (b.bufLen - b.readNdx) + b.bufLen := by omega
    rw [turn, Nat.add_mod_right]

theorem Sound.get (sound : Sound b) (fits : bufLen ≤ b.bufLen) : Sound (b.get bufLen).2 ∧
      (b.get bufLen).1 = b.contents.take bufLen ∧
      (b.get bufLen).2.contents = b.contents.drop bufLen := by
  have sum := sound.sum
  obtain ⟨items, read, place, less, more⟩ := get_eq sound.read fits
  have kept : (b.get bufLen).2.bufLen = b.bufLen ∧ (b.get bufLen).2.buffer = b.buffer ∧
    (b.get bufLen).2.writeNdx = b.writeNdx := ⟨rfl, rfl, rfl⟩
  obtain ⟨size, same, written⟩ := kept
  have parts : b.nAvailRead =
      min bufLen b.nAvailRead + (b.nAvailRead - min bufLen b.nAvailRead) := by omega
  have split : b.contents = (b.get bufLen).1 ++ (b.get bufLen).2.contents := by
    rw [items, contents, contents, size, same, less, Ring.view_congr _ _ place, ← Ring.view_add,
      ← parts]
  have length : (b.get bufLen).1.length = min bufLen b.contents.length := by
    rw [items, Ring.length_view, contents, Ring.length_view]
  refine ⟨⟨size ▸ sound.positive, size ▸ read, ?_, ?_, ?_⟩, ?_, ?_⟩
  · rw [size, written]
    exact sound.write
  · rw [size, less, more]
    omega
  · have ends : (b.get bufLen).2.readNdx % b.bufLen = _ := place
    rw [size, written, sound.place, less, Nat.add_mod _ (b.nAvailRead - _), ends, ← Nat.add_mod,
      Nat.add_assoc, ← parts]
  · have same : b.contents.take bufLen = b.contents.take (b.get bufLen).1.length := by
      rw [List.take_eq_take_iff, length]
      omega
    rw [same, split, List.take_left]
  · have same : b.contents.drop bufLen = b.contents.drop (b.get bufLen).1.length := by
      rcases Nat.le_total bufLen b.contents.length with enough | few
      · rw [length, Nat.min_eq_left enough]
      · rw [length, Nat.min_eq_right few, List.drop_length, List.drop_of_length_le few]
    rw [same, split, List.drop_left]

/-- A buffer whose items are all given up. -/
def cleared (b : CircularBuffer α) : CircularBuffer α :=
  { b with
    nAvailRead := 0
    nAvailWrite := b.bufLen }

theorem Sound.cleared (sound : Sound b) (full : b.nAvailRead = b.bufLen) : Sound b.cleared where
  positive := sound.positive
  read := sound.read
  write := sound.write
  sum := Nat.zero_add _
  place := by
    have place := sound.place
    rw [full, Nat.add_mod_right] at place
    exact place

/-! ## Sessions -/

/-- A buffer with the items that were enqueued and those that were delivered. -/
structure Session (α : Type) where
  buffer : CircularBuffer α
  enqueued : List α
  delivered : List α

/-- What is called, by whichever thread. -/
inductive Call (α : Type) where
  | enqueue (buf : List α)
  | dequeue (bufLen : Nat)
  | abort

/-- A call that returns, or throws and leaves all as it is. It is not enabled while it would
wait. -/
def Session.call (s : Session α) : Call α → Option (Session α)
  | .enqueue buf =>
    match s.buffer.enqueue buf with
    | .error _ => some s
    | .ok none => none
    | .ok (some (retval, b)) =>
      some ⟨b, if retval = 1 ∨ retval = -1 then s.enqueued ++ buf else s.enqueued, s.delivered⟩
  | .dequeue bufLen =>
    match s.buffer.dequeue bufLen with
    | .error _ => some s
    | .ok none => none
    | .ok (some (_, items, b)) => some ⟨b, s.enqueued, s.delivered ++ items⟩
  | .abort => some { s with buffer := s.buffer.abort }

/-- What is left of a queue of a given capacity when items come that need room. -/
def recent (capacity : Nat) (contents items : List α) : List α :=
  (contents ++ items).drop (contents.length + items.length - capacity)

/-- What a call does: new items push out the oldest as they need room, and the oldest ones are
delivered. A call that is too long or comes after an abort does nothing. -/
def Effect (s t : Session α) : Call α → Prop
  | .enqueue buf =>
    if s.buffer.doAbort ∨ s.buffer.bufLen < buf.length then t = s
    else t.enqueued = s.enqueued ++ buf ∧ t.delivered = s.delivered ∧
      t.buffer.contents = recent s.buffer.bufLen s.buffer.contents buf
  | .dequeue bufLen =>
    if s.buffer.doAbort ∨ s.buffer.bufLen < bufLen then t = s
    else t.enqueued = s.enqueued ∧
      t.delivered = s.delivered ++ s.buffer.contents.take bufLen ∧
      t.buffer.contents = s.buffer.contents.drop bufLen
  | .abort => t.enqueued = s.enqueued ∧ t.delivered = s.delivered ∧
      t.buffer.contents = s.buffer.contents

/-- An enqueue that overflows finds the buffer full and replaces it as a whole. -/
def Careful (s : Session α) : Call α → Prop
  | .enqueue buf => s.buffer.doWriteBlock = false → s.buffer.nAvailWrite < buf.length →
      s.buffer.nAvailRead = s.buffer.bufLen ∧ buf.length = s.buffer.bufLen
  | _ => True

instance Careful.decidable (s : Session α) : ∀ c, Decidable (Careful s c)
  | .enqueue buf => inferInstanceAs (Decidable (s.buffer.doWriteBlock = false →
      s.buffer.nAvailWrite < buf.length →
        s.buffer.nAvailRead = s.buffer.bufLen ∧ buf.length = s.buffer.bufLen))
  | .dequeue _ => isTrue trivial
  | .abort => isTrue trivial

/-- The items that were delivered and those that are stored are among the enqueued ones, in their
order, and those that are stored are the last of them. -/
structure Queues (s : Session α) : Prop where
  sound : Sound s.buffer
  order : (s.delivered ++ s.buffer.contents).Sublist s.enqueued
  latest : s.buffer.contents <:+ s.enqueued

theorem length_contents (b : CircularBuffer α) : b.contents.length = b.nAvailRead :=
  Ring.length_view ..

theorem recent_fits {contents : List α} (fits : contents.length + items.length ≤ capacity) :
    recent capacity contents items = contents ++ items := by
  rw [recent, Nat.sub_eq_zero_of_le fits, List.drop_zero]

theorem recent_whole {contents : List α} (full : contents.length = capacity)
    (whole : items.length = capacity) : recent capacity contents items = items := by
  rw [recent, full, whole, Nat.add_sub_cancel, ← full, List.drop_left]

variable {s t : Session α}

theorem call_enqueue (sound : Sound s.buffer) (careful : Careful s (.enqueue buf))
    (called : s.call (.enqueue buf) = some t) : Effect s t (.enqueue buf) ∧ Sound t.buffer := by
  have sum := sound.sum
  have length := length_contents s.buffer
  dsimp only [Session.call, enqueue] at called
  dsimp only [Effect]
  by_cases long : s.buffer.bufLen < buf.length
  · simp only [if_pos long] at called
    obtain rfl := Option.some.inj called
    rw [if_pos (Or.inr long)]
    exact ⟨rfl, sound⟩
  · by_cases none : buf.length = 0
    · simp only [if_neg long, if_pos none] at called
      obtain rfl := Option.some.inj called
      obtain rfl := List.length_eq_zero_iff.mp none
      refine ⟨?_, sound⟩
      split
      · rfl
      · refine ⟨(List.append_nil _).symm, rfl, ?_⟩
        rw [recent_fits (by rw [length, List.length_nil]; omega)]
        exact (List.append_nil _).symm
    · by_cases abort : s.buffer.doAbort
      · simp only [if_neg long, if_neg none, if_pos abort] at called
        obtain rfl := Option.some.inj called
        rw [if_pos (Or.inl abort)]
        exact ⟨rfl, sound⟩
      · rw [if_neg (by simp [abort, long])]
        by_cases full : s.buffer.nAvailWrite < buf.length
        · by_cases block : s.buffer.doWriteBlock
          · simp only [if_neg long, if_neg none, if_neg abort, if_pos full, if_pos block] at called
            cases called
          · simp only [if_neg long, if_neg none, if_neg abort, if_pos full, if_neg block] at called
            obtain rfl := Option.some.inj called
            obtain ⟨whole, same⟩ := careful (by simpa using block) full
            obtain ⟨still, contents⟩ := (sound.cleared whole).put (show buf.length ≤ _ from same.le)
            have emptied : { s.buffer with
                nAvailRead := s.buffer.bufLen - buf.length
                nAvailWrite := buf.length } = s.buffer.cleared := by
              rw [same, Nat.sub_self]
              rfl
            rw [recent_whole (length.trans whole) same, emptied]
            exact ⟨⟨rfl, rfl, contents⟩, still⟩
        · simp only [if_neg long, if_neg none, if_neg abort, if_neg full] at called
          obtain rfl := Option.some.inj called
          have room : buf.length ≤ s.buffer.nAvailWrite := by omega
          obtain ⟨still, contents⟩ := sound.put room
          refine ⟨⟨rfl, rfl, ?_⟩, still⟩
          rw [recent_fits (by omega)]
          exact contents

theorem call_dequeue (sound : Sound s.buffer) (called : s.call (.dequeue bufLen) = some t) :
    Effect s t (.dequeue bufLen) ∧ Sound t.buffer := by
  dsimp only [Session.call, dequeue] at called
  dsimp only [Effect]
  by_cases none : bufLen = 0
  · simp only [if_pos none] at called
    obtain rfl := Option.some.inj called
    refine ⟨?_, sound⟩
    split
    · rw [List.append_nil]
    · rw [none, List.take_zero, List.drop_zero]
      exact ⟨rfl, rfl, rfl⟩
  · by_cases long : s.buffer.bufLen < bufLen
    · simp only [if_neg none, if_pos long] at called
      obtain rfl := Option.some.inj called
      rw [if_pos (Or.inr long)]
      exact ⟨rfl, sound⟩
    · by_cases abort : s.buffer.doAbort
      · simp only [if_neg none, if_neg long, if_pos abort, List.append_nil] at called
        obtain rfl := Option.some.inj called
        rw [if_pos (Or.inl abort)]
        exact ⟨rfl, sound⟩
      · simp only [if_neg none, if_neg long, if_neg abort] at called
        rw [if_neg (by simp [abort, long])]
        by_cases waits :
            if s.buffer.doFullRead then s.buffer.nAvailRead < bufLen else s.buffer.nAvailRead = 0
        · simp only [if_pos waits] at called
          cases called
        · simp only [if_neg waits] at called
          obtain rfl := Option.some.inj called
          obtain ⟨still, items, rest⟩ := sound.get (show bufLen ≤ _ by omega)
          exact ⟨⟨rfl, by rw [items], rest⟩, still⟩

theorem Queues.call {s t : Session α} (queues : Queues s) {c : Call α} (careful : Careful s c)
    (called : s.call c = some t) : Effect s t c ∧ Queues t := by
  cases c with
  | enqueue buf =>
    obtain ⟨effect, still⟩ := call_enqueue queues.sound careful called
    refine ⟨effect, ?_⟩
    dsimp only [Effect] at effect
    split at effect
    · rw [effect]
      exact queues
    · obtain ⟨enqueued, delivered, contents⟩ := effect
      obtain ⟨before, whole⟩ := queues.latest
      refine ⟨still, ?_, ?_⟩
      · rw [enqueued, delivered, contents, recent]
        refine ((List.drop_sublist _ _).append_left s.delivered).trans ?_
        rw [← List.append_assoc]
        exact queues.order.append_right buf
      · rw [enqueued, contents, recent]
        refine (List.drop_suffix _ _).trans ⟨before, ?_⟩
        rw [← List.append_assoc, whole]
  | dequeue bufLen =>
    obtain ⟨effect, still⟩ := call_dequeue queues.sound called
    refine ⟨effect, ?_⟩
    dsimp only [Effect] at effect
    split at effect
    · rw [effect]
      exact queues
    · obtain ⟨enqueued, delivered, contents⟩ := effect
      refine ⟨still, ?_, ?_⟩
      · rw [enqueued, delivered, contents, List.append_assoc, List.take_append_drop]
        exact queues.order
      · rw [enqueued, contents]
        exact (List.drop_suffix _ _).trans queues.latest
  | abort =>
    obtain rfl := Option.some.inj called
    have sound := queues.sound
    exact ⟨⟨rfl, rfl, rfl⟩, ⟨sound.positive, sound.read, sound.write, sound.sum, sound.place⟩,
      queues.order, queues.latest⟩

theorem queues_construct {zero : α} {doWriteBlock doFullRead : Bool}
    (made : construct zero bufLen doWriteBlock doFullRead = .ok b) : Queues ⟨b, [], []⟩ := by
  unfold construct at made
  split at made
  · cases made
  · rename_i positive
    obtain rfl := Except.ok.inj made
    refine ⟨⟨Nat.pos_of_ne_zero positive, Nat.zero_le _, Nat.zero_le _, Nat.zero_add _, rfl⟩, ?_,
      ?_⟩
    · exact List.Sublist.refl _
    · exact List.suffix_rfl

/-- **The buffer is a queue that gives up its oldest items for new ones**, in every run in which an
enqueue that overflows finds the buffer full and replaces it as a whole. -/
theorem overflow_drops_oldest {zero : α} {bufLen : Nat} {doWriteBlock doFullRead : Bool}
    {b : CircularBuffer α} (made : construct zero bufLen doWriteBlock doFullRead = .ok b)
    {calls : List (Call α)} (careful : Throughout Careful Session.call ⟨b, [], []⟩ calls)
    {s : Session α} (reached : run Session.call ⟨b, [], []⟩ calls = some s) :
    (s.delivered ++ s.buffer.contents).Sublist s.enqueued ∧ s.buffer.contents <:+ s.enqueued ∧
      s.buffer.nAvailRead = s.buffer.contents.length ∧
      s.buffer.nAvailRead + s.buffer.nAvailWrite = s.buffer.bufLen ∧
      ∀ c t, Careful s c → s.call c = some t → Effect s t c := by
  have queues := run_invariant_of Queues
    (fun _ _ _ queues careful called => (queues.call careful called).2) (queues_construct made)
    careful reached
  exact ⟨queues.order, queues.latest, (length_contents _).symm, queues.sound.sum,
    fun c t careful called => (queues.call careful called).1⟩

/-- A buffer for two items. -/
def two : CircularBuffer Nat := ⟨fun _ => 0, 2, 0, 0, 2, 0, false, false, false⟩

/-- A full buffer is replaced. -/
theorem overflow_drops_both : ∃ s, run Session.call ⟨two, [], []⟩
      [.enqueue [1, 2], .dequeue 1, .enqueue [3], .enqueue [4, 5]] = some s ∧
    (s.delivered ++ s.buffer.contents).Sublist s.enqueued ∧ s.buffer.contents <:+ s.enqueued := by
  obtain ⟨order, latest, -⟩ := overflow_drops_oldest
    (show construct 0 2 false false = .ok two from rfl)
    (show Throughout Careful Session.call ⟨two, [], []⟩
      [.enqueue [1, 2], .dequeue 1, .enqueue [3], .enqueue [4, 5]] by decide) rfl
  exact ⟨_, rfl, order, latest⟩

/-- One item is pushed out of a buffer for two: the other two come out in the wrong order. -/
theorem overflow_turns_around : ∃ s, run Session.call ⟨two, [], []⟩
      [.enqueue [1], .enqueue [2, 3], .dequeue 2] = some s ∧
    s.enqueued = [1, 2, 3] ∧ s.delivered = [3, 2] ∧ ¬s.delivered.Sublist s.enqueued :=
  ⟨_, rfl, rfl, rfl, by decide⟩

end CircularBuffer

end GnuRadio
