import GnuRadio.General.BurstTagger
import GnuRadio.Misc.Trace
import Mathlib.Data.List.TakeWhile

/-!
# The tagged file sink

`gr_tagged_file_sink` writes the items of each burst into a file of its own. A burst begins and ends
at tags, which come with the items of each call.
-/

namespace GnuRadio

/-- The states of `gr_tagged_file_sink` (`gr_tagged_file_sink.h:46-49`). -/
inductive BurstState where
  | notInBurst
  | inBurst
  deriving DecidableEq, Repr

/-- `gr_tagged_file_sink` (`gr_tagged_file_sink.h:51-57`), without the times in the names of its
files. `handle` is what has been written through `d_handle`, while it is open. -/
structure TaggedFileSink where
  itemsize : Nat
  state : BurstState
  handle : Option (List UInt8)
  n : Nat
  lastN : Nat
  closed : List (List UInt8)
  deriving DecidableEq, Repr

namespace TaggedFileSink

open BurstTagger

/-- The constructor (`gr_tagged_file_sink.cc:51-60`). The size of an item, as an `int`, has to be
positive. -/
def construct (itemsize : Nat) : Except CppException TaggedFileSink :=
  if (itemsize : Int).bmod (2 ^ 32) < 1 then .error (.invalidArgument "gr_io_signature(3)")
  else .ok ⟨itemsize, .notInBurst, none, 0, 0, []⟩

/-- The test for the start of a burst (`gr_tagged_file_sink.cc:95-96`): to `pmt_is_true` everything
is true but `PMT_F`. -/
def isStart (tag : Tag TagBody) : Bool := tag.body.key = "burst" && tag.body.value ≠ .bool false

/-- The test for the end of a burst (`gr_tagged_file_sink.cc:174-175`). -/
def isEnd (tag : Tag TagBody) : Bool := tag.body.key = "burst" && tag.body.value = .bool false

/-- The opening of a file at an item (`gr_tagged_file_sink.cc:104-163`). The number `d_n` in its name
tells it from those before. The last time tag since the file before gives the time in the name;
taking a value apart that is no time throws. -/
def openFile (d : TaggedFileSink) (itemTags : List (Tag TagBody)) (N : Nat) :
    Option TaggedFileSink :=
  let timeTags := itemTags.filter fun tag =>
    d.lastN ≤ tag.offset && tag.offset < N && tag.body.key = "time"
  if ∀ tag ∈ timeTags.getLast?, tag.body.value = .time then
    some { d with
      state := .inBurst
      handle := some []
      n := d.n + 1
      lastN := N }
  else none

/-- `fwrite` of so many items from a place in the input (`gr_tagged_file_sink.cc:182`, `199`). -/
def fwrite (d : TaggedFileSink) (inbuf : Nat → UInt8) (place count : Nat) : TaggedFileSink :=
  { d with handle := d.handle.map fun content =>
      content ++ (List.range (count * d.itemsize)).map fun i => inbuf (place + i) }

/-- `fclose` at the end of a burst (`gr_tagged_file_sink.cc:189-191`). -/
def fclose (d : TaggedFileSink) : TaggedFileSink :=
  { d with
    state := .notInBurst
    handle := none
    closed := d.closed ++ d.handle.toList }

/-- The loop of `work` (`gr_tagged_file_sink.cc:91-208`), which has so many turns left. The tags are
those of the call, so that the casts of their distances are exact; `itemTags` are all of the
buffer. -/
def loop (itemTags : List (Tag TagBody)) (startN noutputItems : Nat) (inbuf : Nat → UInt8) :
    Nat → Nat → List (Tag TagBody) → TaggedFileSink → Option TaggedFileSink
  | 0, _, _, _ => none
  | turns + 1, idx, vitr, d =>
    if idx < noutputItems then
      match d.state with
      | .notInBurst =>
        match vitr.dropWhile fun tag => !isStart tag with
        | [] => some d
        | tag :: rest =>
          match d.openFile itemTags tag.offset with
          | none => none
          | some d =>
            loop itemTags startN noutputItems inbuf turns (tag.offset - startN) (tag :: rest) d
      | .inBurst =>
        match vitr.dropWhile fun tag => !isEnd tag with
        | tag :: rest =>
          let idxStop := tag.offset - startN
          let d := d.fwrite inbuf (d.itemsize * idx) (idxStop - idx)
          loop itemTags startN noutputItems inbuf turns idxStop rest d.fclose
        | [] =>
          let d := d.fwrite inbuf idx (noutputItems - idx)
          loop itemTags startN noutputItems inbuf turns noutputItems [] d
    else some d

/-- `work` (`gr_tagged_file_sink.cc:72-211`) on the sorted tags of its items. A turn but the last
two passes over a tag. -/
def work (d : TaggedFileSink) (startN noutputItems : Nat) (inbuf : Nat → UInt8)
    (itemTags allTags : List (Tag TagBody)) : Option TaggedFileSink :=
  loop itemTags startN noutputItems inbuf (allTags.length + 2) 0 allTags d

/-- The files that have been opened, in their order. -/
def files (d : TaggedFileSink) : List (List UInt8) := d.closed ++ d.handle.toList

/-- A call: how many items it is given, the tags of the buffer, and how `std::sort` has left those
of the items. -/
structure Call where
  noutputItems : Nat
  itemTags : List (Tag TagBody)
  allTags : List (Tag TagBody)
  deriving DecidableEq, Repr

/-- The sink on a stream of bytes, and how many items it has read. -/
structure Session where
  sink : TaggedFileSink
  nitemsRead : Nat
  deriving DecidableEq, Repr

/-- One call of `work`, on the items that come next. -/
def Session.call (stream : List UInt8) (s : Session) (c : Call) : Option Session := do
  let sink ← s.sink.work s.nitemsRead c.noutputItems
    (fun i => stream.getD (s.sink.itemsize * s.nitemsRead + i) 0) c.itemTags c.allTags
  some ⟨sink, s.nitemsRead + c.noutputItems⟩

/-! ## Bursts -/

section Bursts

variable (itemsize : Nat) (signal : Nat → UInt8) (trigger : Nat → Int)

def item (i : Nat) : List UInt8 :=
  (List.range itemsize).map fun j => signal (itemsize * i + j)

/-- The items that have a start tag, among the first `n`. -/
def starts (n : Nat) : List Nat :=
  (List.range n).filter fun i => high trigger i && !before trigger i

/-- The items from one with a start tag up to the one with the next end tag. -/
def burst (n start : Nat) : List UInt8 :=
  ((List.range' start (n - start)).takeWhile (high trigger)).flatMap (item itemsize signal)

/-- The bursts that have begun in the first `n` items, as far as they go. -/
def bursts (n : Nat) : List (List UInt8) :=
  (starts trigger n).map (burst itemsize signal trigger n)

end Bursts

/-- Files that are closed, and what the open one holds. -/
structure Recording where
  closed : List (List UInt8)
  current : Option (List UInt8)

/-- What happens before an item: a file is opened, or closed. -/
def Recording.mark (level : Bool) (r : Recording) : Recording :=
  match r.current with
  | none => if level then ⟨r.closed, some []⟩ else r
  | some content => if level then r else ⟨r.closed ++ [content], none⟩

/-- An item goes into the open file. -/
def Recording.store (item : List UInt8) (r : Recording) : Recording :=
  ⟨r.closed, r.current.map (· ++ item)⟩

/-- The recording of the first items, one by one. -/
def recording (itemsize : Nat) (signal : Nat → UInt8) (trigger : Nat → Int) : Nat → Recording
  | 0 => ⟨[], none⟩
  | n + 1 => ((recording itemsize signal trigger n).mark (high trigger n)).store
      (item itemsize signal n)

/-! ## Recording -/

variable {itemsize : Nat} {signal : Nat → UInt8} {trigger : Nat → Int}

theorem isSome_mark (level : Bool) (r : Recording) : (r.mark level).current.isSome = level := by
  unfold Recording.mark
  cases level <;> cases current : r.current <;> simp [current]

theorem isSome_recording (n : Nat) :
    (recording itemsize signal trigger n).current.isSome = before trigger n := by
  cases n with
  | zero => rfl
  | succ n =>
    rw [recording, before_succ, Recording.store, Option.isSome_map, isSome_mark]

variable {p q count : Nat} {kind : Tag TagBody → Bool} {stale fresh : List (Tag TagBody)}
  {tag : Tag TagBody} {tagged : BurstTagger.Session} {s : Session}

section Mark

variable {r : Recording}
  (same : r.mark (high trigger p) = (recording itemsize signal trigger p).mark (high trigger p))
include same

theorem recording_of_high {content : List UInt8} (current : r.current = some content) (less : p < q)
    (level : ∀ i, p ≤ i → i < q → high trigger i = true) :
    recording itemsize signal trigger q =
      ⟨r.closed, some (content ++ (List.range' p (q - p)).flatMap (item itemsize signal))⟩ := by
  induction q, less using Nat.le_induction with
  | base =>
    rw [level p (Nat.le_refl _) (Nat.lt_succ_self p)] at same
    have one : p + 1 - p = 1 := by omega
    rw [recording, level p (Nat.le_refl _) (Nat.lt_succ_self p), ← same, one, Recording.mark,
      current]
    simp [Recording.store, current]
  | succ q less ih =>
    have count : q + 1 - p = (q - p) + 1 := by omega
    have place : p + (q - p) = q := by omega
    rw [recording, ih fun i low small => level i low (by omega), level q (by omega) (by omega),
      count, List.range'_concat, Nat.one_mul, place, List.flatMap_append, List.flatMap_singleton]
    simp [Recording.mark, Recording.store]

theorem recording_of_low (current : r.current = none) (less : p < q)
    (level : ∀ i, p ≤ i → i < q → high trigger i = false) :
    recording itemsize signal trigger q = r := by
  induction q, less using Nat.le_induction with
  | base =>
    rw [level p (Nat.le_refl _) (Nat.lt_succ_self p)] at same
    rw [recording, level p (Nat.le_refl _) (Nat.lt_succ_self p), ← same]
    cases r
    simp_all [Recording.mark, Recording.store]
  | succ q less ih =>
    rw [recording, ih fun i low small => level i low (by omega), level q (by omega) (by omega)]
    cases r
    simp_all [Recording.mark, Recording.store]

theorem mark_of_end {content : List UInt8} (current : r.current = some content) (least : p ≤ q)
    (level : ∀ i, p ≤ i → i < q → high trigger i = true) (ends : high trigger q = false) :
    (recording itemsize signal trigger q).mark (high trigger q) =
      ⟨r.closed ++ [content ++ (List.range' p (q - p)).flatMap (item itemsize signal)], none⟩ := by
  rcases Nat.lt_or_eq_of_le least with less | rfl
  · rw [recording_of_high same current less level, ends]
    rfl
  · rw [← same, ends, Recording.mark, current, Nat.sub_self]
    simp

theorem mark_of_start (current : r.current = none) (least : p ≤ q)
    (level : ∀ i, p ≤ i → i < q → high trigger i = false) (starts : high trigger q = true) :
    (recording itemsize signal trigger q).mark (high trigger q) = ⟨r.closed, some []⟩ := by
  rcases Nat.lt_or_eq_of_le least with less | rfl
  · rw [recording_of_low same current less level, starts, Recording.mark, current]
    rfl
  · rw [← same, starts, Recording.mark, current]
    rfl

end Mark

theorem starts_succ (n : Nat) : starts trigger (n + 1) =
    starts trigger n ++ if high trigger n && !before trigger n then [n] else [] := by
  rw [starts, List.range_succ, List.filter_append, List.filter_cons, List.filter_nil]
  rfl

theorem burst_of_high {n start : Nat}
    (level : ∀ i, start ≤ i → i < n → high trigger i = true) :
    burst itemsize signal trigger n start =
      (List.range' start (n - start)).flatMap (item itemsize signal) := by
  have all : (List.range' start (n - start)).takeWhile (high trigger) =
      List.range' start (n - start) := by
    rw [List.takeWhile_eq_self_iff]
    intro i member
    have bounds := List.mem_range'_1.mp member
    exact level i bounds.1 (by omega)
  rw [burst, all]

theorem burst_succ_of_low {n start i : Nat} (least : start ≤ i) (most : i ≤ n)
    (ends : high trigger i = false) :
    burst itemsize signal trigger (n + 1) start = burst itemsize signal trigger n start := by
  have count : n + 1 - start = (n - start) + 1 := by omega
  have place : start + (n - start) = n := by omega
  rw [burst, burst, count, List.range'_concat, Nat.one_mul, place, List.takeWhile_append]
  split
  · rename_i all
    have whole : (List.range' start (n - start)).takeWhile (high trigger) =
        List.range' start (n - start) := (List.takeWhile_prefix _).eq_of_length all
    have last : i = n := by
      by_contra other
      have member : i ∈ List.range' start (n - start) := List.mem_range'_1.mpr (by omega)
      have positive := List.takeWhile_eq_self_iff.mp whole i member
      rw [ends] at positive
      cases positive
    rw [whole, List.takeWhile_cons, ← last, ends]
    simp
  · rfl

variable (itemsize signal trigger) in
theorem recording_eq (n : Nat) : ∃ done opened, starts trigger n = done ++ opened ∧
    (∀ start ∈ done, ∃ i, start ≤ i ∧ i < n ∧ high trigger i = false) ∧
    (recording itemsize signal trigger n).closed =
      done.map (burst itemsize signal trigger n) ∧
    (((recording itemsize signal trigger n).current = none ∧ opened = []) ∨
      ∃ start, opened = [start] ∧ start < n ∧
        (∀ i, start ≤ i → i < n → high trigger i = true) ∧
        (recording itemsize signal trigger n).current =
          some (burst itemsize signal trigger n start)) := by
  induction n with
  | zero =>
    refine ⟨[], [], rfl, ?_, rfl, Or.inl ⟨rfl, rfl⟩⟩
    intro start member
    cases member
  | succ n ih =>
    obtain ⟨done, opened, split, ended, closed, rest⟩ := ih
    have held : (recording itemsize signal trigger n).current.isSome = before trigger n :=
      isSome_recording n
    have stays : done.map (burst itemsize signal trigger (n + 1)) =
        done.map (burst itemsize signal trigger n) := by
      apply List.map_congr_left
      intro start member
      obtain ⟨i, least, less, low⟩ := ended start member
      exact burst_succ_of_low least (Nat.le_of_lt less) low
    have still : ∀ start ∈ done, ∃ i, start ≤ i ∧ i < n + 1 ∧ high trigger i = false := by
      intro start member
      obtain ⟨i, least, less, low⟩ := ended start member
      exact ⟨i, least, Nat.lt_succ_of_lt less, low⟩
    rw [starts_succ, recording]
    rcases rest with ⟨none, rfl⟩ | ⟨start, rfl, less, level, some⟩
    · rw [none] at held
      have first : before trigger n = false := held.symm
      cases now : high trigger n with
      | false =>
        refine ⟨done, [], ?_, still, ?_, Or.inl ⟨?_, rfl⟩⟩
        · simp [split]
        · rw [stays, ← closed, Recording.mark, none]
          rfl
        · rw [Recording.mark, none]
          simp [Recording.store, none]
      | true =>
        have own : burst itemsize signal trigger (n + 1) n = item itemsize signal n := by
          have one : n + 1 - n = 1 := by omega
          rw [burst_of_high fun i least less => (by omega : n = i) ▸ now, one]
          simp
        refine ⟨done, [n], ?_, still, ?_, Or.inr ⟨n, rfl, Nat.lt_succ_self n, ?_, ?_⟩⟩
        · simp [split, first]
        · rw [stays, ← closed, Recording.mark, none]
          rfl
        · intro i least less
          obtain rfl : n = i := by omega
          exact now
        · rw [Recording.mark, none, own]
          rfl
    · rw [some] at held
      have going : before trigger n = true := held.symm
      cases now : high trigger n with
      | false =>
        have last : burst itemsize signal trigger (n + 1) start =
            burst itemsize signal trigger n start :=
          burst_succ_of_low (Nat.le_of_lt less) (Nat.le_refl n) now
        refine ⟨done ++ [start], [], ?_, ?_, ?_, Or.inl ⟨?_, rfl⟩⟩
        · simp [split]
        · intro other member
          rcases List.mem_append.mp member with old | new
          · exact still other old
          · rw [List.mem_singleton.mp new]
            exact ⟨n, Nat.le_of_lt less, Nat.lt_succ_self n, now⟩
        · rw [List.map_append, stays, ← closed, List.map_singleton, last, Recording.mark, some]
          rfl
        · rw [Recording.mark, some]
          rfl
      | true =>
        have longer : ∀ i, start ≤ i → i < n + 1 → high trigger i = true := by
          intro i least less
          rcases Nat.lt_or_eq_of_le (Nat.le_of_lt_succ less) with earlier | rfl
          · exact level i least earlier
          · exact now
        have count : n + 1 - start = (n - start) + 1 := by omega
        have place : start + (n - start) = n := by omega
        refine ⟨done, [start], ?_, still, ?_, Or.inr ⟨start, rfl, by omega, longer, ?_⟩⟩
        · simp [split, going]
        · rw [stays, ← closed, Recording.mark, some]
          rfl
        · rw [Recording.mark, some, burst_of_high longer, burst_of_high level, count,
            List.range'_concat, Nat.one_mul, place, List.flatMap_append, List.flatMap_singleton]
          simp [Recording.store, some, burst_of_high level]

/-! ## The loop -/

/-- The tags that start or end a burst. -/
def isBurst (tag : Tag TagBody) : Bool := isStart tag || isEnd tag

theorem isStart_burstTag (i : Nat) (level : Bool) : isStart (burstTag i level) = level := by
  cases level <;> rfl

theorem isEnd_burstTag (i : Nat) (level : Bool) : isEnd (burstTag i level) = !level := by
  cases level <;> rfl

/-- The tags that are left are about the items from `p` on, up to where the trigger is known to
stay at its level. -/
def Pending (trigger : Nat → Int) (p stop : Nat) (level : Bool) (tags : List (Tag TagBody)) :
    Prop :=
  ∃ q, p ≤ q ∧ q ≤ stop ∧ (∀ i, p ≤ i → i < q → high trigger i = level) ∧
    before trigger q = level ∧ tags.filter isBurst = changes trigger q (stop - q)

theorem Pending.next {p stop : Nat} {level : Bool} {tags : List (Tag TagBody)}
    (pending : Pending trigger p stop level tags) :
    ((∀ tag ∈ tags, isBurst tag = false) ∧
      ∀ i, p ≤ i → i < stop → high trigger i = level) ∨
    ∃ c skipped rest, p ≤ c ∧ c < stop ∧ (∀ i, p ≤ i → i < c → high trigger i = level) ∧
      high trigger c = !level ∧ tags = skipped ++ burstTag c (!level) :: rest ∧
      (∀ tag ∈ skipped, isBurst tag = false) ∧ Pending trigger c stop (!level) rest := by
  obtain ⟨q, least, most, stays, here, left⟩ := pending
  have ends : q + (stop - q) = stop := Nat.add_sub_cancel' most
  have joined : ∀ n, (∀ i, q ≤ i → i < n → high trigger i = level) → ∀ i, p ≤ i → i < n →
      high trigger i = level := by
    intro n later i low less
    rcases Nat.lt_or_ge i q with early | late
    · exact stays i low early
    · exact later i late less
  rcases changes_cases here (stop - q) with ⟨none, level⟩ | ⟨c, low, less, level, flips, split⟩
  · left
    rw [none] at left
    rw [ends] at level
    refine ⟨fun tag member => ?_, joined stop level⟩
    simpa using List.filter_eq_nil_iff.mp left tag member
  · right
    rw [ends] at less split
    rw [split] at left
    obtain ⟨skipped, rest, parts, others, -, later⟩ := List.filter_eq_cons_iff.mp left
    refine ⟨c, skipped, rest, Nat.le_trans least low, less, joined c level, flips, parts, ?_,
      c + 1, Nat.le_succ c, less, ?_, ?_, later⟩
    · intro tag member
      simpa using others tag member
    · intro i least less
      obtain rfl : i = c := by omega
      exact flips
    · rw [before_succ]
      exact flips

theorem dropWhile_eq_nil (passed : ∀ tag ∈ stale, kind tag = false)
    (others : ∀ tag ∈ fresh, kind tag = false) :
    (stale ++ fresh).dropWhile (fun tag => !kind tag) = [] := by
  rw [List.dropWhile_eq_nil_iff]
  intro tag member
  rcases List.mem_append.mp member with old | new
  · rw [passed tag old]
    rfl
  · rw [others tag new]
    rfl

theorem dropWhile_eq_cons {skipped rest : List (Tag TagBody)}
    (passed : ∀ tag ∈ stale, kind tag = false) (others : ∀ tag ∈ skipped, kind tag = false)
    (here : kind tag = true) :
    (stale ++ (skipped ++ tag :: rest)).dropWhile (fun tag => !kind tag) = tag :: rest := by
  rw [List.dropWhile_append_of_pos, List.dropWhile_append_of_pos, List.dropWhile_cons, here]
  · rfl
  · intro other member
    rw [others other member]
    rfl
  · intro other member
    rw [passed other member]
    rfl

/-- The sink holds a recording. -/
structure Holds (itemsize : Nat) (d : TaggedFileSink) (r : Recording) : Prop where
  size : d.itemsize = itemsize
  closed : d.closed = r.closed
  handle : d.handle = r.current
  count : d.n = r.closed.length + r.current.toList.length
  state : d.state = if r.current.isSome then .inBurst else .notInBurst

theorem map_range_eq_items (p count : Nat) :
    (List.range (count * itemsize)).map (fun i => signal (itemsize * p + i)) =
      (List.range' p count).flatMap (item itemsize signal) := by
  induction count with
  | zero => simp
  | succ count ih =>
    have bytes : (count + 1) * itemsize = count * itemsize + itemsize := Nat.succ_mul ..
    rw [bytes, List.range_add, List.map_append, ih, List.map_map, List.range'_concat, Nat.one_mul,
      List.flatMap_append, List.flatMap_singleton]
    congr 1
    apply List.map_congr_left
    intro j _
    have place : itemsize * p + (count * itemsize + j) = itemsize * (p + count) + j := by
      rw [Nat.mul_add, Nat.mul_comm count, Nat.add_assoc]
    exact congrArg signal place

theorem fwrite_eq {d : TaggedFileSink} {inbuf : Nat → UInt8} {start n idx : Nat}
    {content : List UInt8} (size : d.itemsize = itemsize) (handle : d.handle = some content)
    (bytes : ∀ j < n * itemsize, inbuf j = signal (itemsize * start + j)) (fits : idx + count ≤ n) :
    d.fwrite inbuf (itemsize * idx) count =
      { d with handle := some (content ++
        (List.range' (start + idx) count).flatMap (item itemsize signal)) } := by
  rw [fwrite, handle, Option.map_some, ← map_range_eq_items, size]
  congr 3
  apply List.map_congr_left
  intro i member
  have less := List.mem_range.mp member
  have inside : itemsize * idx + i < n * itemsize := by
    have room : (idx + count) * itemsize ≤ n * itemsize := Nat.mul_le_mul_right itemsize fits
    rw [Nat.add_mul, Nat.mul_comm idx] at room
    omega
  rw [bytes _ inside, Nat.mul_add, Nat.add_assoc]

/-- A burst that is open at the end of a chunk began with it, or before, or items are bytes. -/
def Careful (itemsize : Nat) (trigger : Nat → Int) (start n : Nat) : Prop :=
  itemsize = 1 ∨ (∃ last, n = last + 1 ∧ high trigger (start + last) = false) ∨
    ∀ i, start ≤ i → i < start + n → high trigger i = true

variable {d : TaggedFileSink} {r : Recording} {start n idx : Nat} {inbuf : Nat → UInt8}
  {content : List UInt8} {itemTags : List (Tag TagBody)}

theorem Holds.openFile (holds : Holds itemsize d r) (none : r.current = none)
    (timely : ∀ tag ∈ itemTags, tag.body.key = "time" → tag.body.value = .time) (N : Nat) :
    ∃ e, d.openFile itemTags N = some e ∧ Holds itemsize e ⟨r.closed, some []⟩ := by
  refine ⟨_, if_pos fun tag last => ?_, holds.size, holds.closed, rfl, ?_, rfl⟩
  · have found := List.mem_filter.mp (List.mem_of_getLast? last)
    refine timely tag found.1 ?_
    simpa using (Bool.and_eq_true_iff.mp found.2).2
  · have count := holds.count
    rw [none] at count
    exact congrArg (· + 1) count

theorem Holds.fwrite (holds : Holds itemsize d r) (current : r.current = some content)
    (bytes : ∀ j < n * itemsize, inbuf j = signal (itemsize * start + j)) (fits : idx + count ≤ n) :
    Holds itemsize (d.fwrite inbuf (itemsize * idx) count) ⟨r.closed,
      some (content ++ (List.range' (start + idx) count).flatMap (item itemsize signal))⟩ := by
  have counted := holds.count
  have state := holds.state
  rw [current] at counted state
  rw [fwrite_eq holds.size (holds.handle.trans current) bytes fits]
  exact ⟨holds.size, holds.closed, rfl, counted, state⟩

theorem Holds.fclose (holds : Holds itemsize d r) (current : r.current = some content) :
    Holds itemsize d.fclose ⟨r.closed ++ [content], none⟩ := by
  refine ⟨holds.size, ?_, rfl, ?_, rfl⟩
  · rw [TaggedFileSink.fclose, holds.handle, holds.closed, current]
    rfl
  · have counted := holds.count
    rw [current] at counted
    rw [List.length_append]
    exact counted

theorem place_of_careful (careful : Careful itemsize trigger start n) (inside : idx < n)
    (low : idx = 0 ∨ ∃ i, start ≤ i ∧ i < start + n ∧ high trigger i = false)
    (level : ∀ i, start + idx ≤ i → i < start + n → high trigger i = true) :
    idx = itemsize * idx := by
  rcases careful with rfl | ⟨last, rfl, ends⟩ | all
  · exact (Nat.one_mul idx).symm
  · rw [level (start + last) (by omega) (by omega)] at ends
    cases ends
  · rcases low with rfl | ⟨i, least, less, low⟩
    · rfl
    · rw [all i least less] at low
      cases low

theorem loop_eq (timely : ∀ tag ∈ itemTags, tag.body.key = "time" → tag.body.value = .time)
    (careful : Careful itemsize trigger start n)
    (bytes : ∀ j < n * itemsize, inbuf j = signal (itemsize * start + j)) (turns : Nat)
    (holds : Holds itemsize d r)
    (same : r.mark (high trigger (start + idx)) =
      (recording itemsize signal trigger (start + idx)).mark (high trigger (start + idx)))
    (inside : idx < n)
    (passed : ∀ tag ∈ stale, (if r.current.isSome then isEnd tag else isStart tag) = false)
    (pending : Pending trigger (start + idx) (start + n) r.current.isSome fresh)
    (low : idx = 0 ∨ ∃ i, start ≤ i ∧ i < start + n ∧ high trigger i = false)
    (enough : fresh.length + 2 ≤ turns) :
    ∃ e, loop itemTags start n inbuf turns idx (stale ++ fresh) d = some e ∧
      Holds itemsize e (recording itemsize signal trigger (start + n)) := by
  induction turns generalizing d r idx stale fresh with
  | zero => cases enough
  | succ turns ih =>
    have state := holds.state
    have next := pending.next
    rw [loop, if_pos inside]
    cases current : r.current with
    | none =>
      rw [current] at state next passed
      rw [Option.isSome_none, Bool.not_false] at next
      have notInBurst : d.state = .notInBurst := state
      have skips : ∀ tag ∈ stale, isStart tag = false := passed
      rw [notInBurst]
      dsimp only
      rcases next with ⟨others, level⟩ | ⟨c, skipped, rest, least, less, level, flips, split,
        others, later⟩
      · have never : ∀ tag ∈ fresh, isStart tag = false := fun tag member =>
          (Bool.or_eq_false_iff.mp (others tag member)).1
        rw [dropWhile_eq_nil skips never]
        refine ⟨d, rfl, ?_⟩
        rw [recording_of_low same current (by omega) level]
        exact holds
      · have never : ∀ tag ∈ skipped, isStart tag = false := fun tag member =>
          (Bool.or_eq_false_iff.mp (others tag member)).1
        have place : start + (c - start) = c := by omega
        rw [split, dropWhile_eq_cons skips never (isStart_burstTag c true)]
        obtain ⟨opened, ok, holding⟩ := holds.openFile current timely c
        change ∃ e, (match d.openFile itemTags c with
          | none => none
          | some d => loop itemTags start n inbuf turns (c - start) ([burstTag c true] ++ rest) d) =
          some e ∧ _
        rw [ok]
        refine ih holding ?_ (by omega) ?_ ?_ ?_ ?_
        · rw [place, mark_of_start same current least level flips, flips]
          rfl
        · intro tag member
          rw [List.mem_singleton.mp member]
          rfl
        · rw [place]
          exact later
        · rcases Nat.lt_or_eq_of_le least with behind | rfl
          · exact Or.inr ⟨c - 1, by omega, by omega, level (c - 1) (by omega) (by omega)⟩
          · rw [Nat.add_sub_cancel_left]
            exact low
        · rw [split, List.length_append, List.length_cons] at enough
          omega
    | some content =>
      rw [current] at state next passed
      rw [Option.isSome_some, Bool.not_true] at next
      have inBurst : d.state = .inBurst := state
      have skips : ∀ tag ∈ stale, isEnd tag = false := passed
      rw [inBurst]
      dsimp only
      rcases next with ⟨others, level⟩ | ⟨c, skipped, rest, least, less, level, flips, split,
        others, later⟩
      · have never : ∀ tag ∈ fresh, isEnd tag = false := fun tag member =>
          (Bool.or_eq_false_iff.mp (others tag member)).2
        rw [dropWhile_eq_nil skips never]
        dsimp only
        have count : start + n - (start + idx) = n - idx := by omega
        have place := place_of_careful careful inside low level
        have written : Holds itemsize _ _ := holds.fwrite current bytes
          (show idx + (n - idx) ≤ n by omega)
        rw [← place] at written
        refine ⟨d.fwrite inbuf idx (n - idx), ?_, ?_⟩
        · cases turns with
          | zero => omega
          | succ turns => rw [loop, if_neg (Nat.lt_irrefl n)]
        · rw [recording_of_high same current (by omega) level, count]
          exact written
      · have never : ∀ tag ∈ skipped, isEnd tag = false := fun tag member =>
          (Bool.or_eq_false_iff.mp (others tag member)).2
        have place : start + (c - start) = c := by omega
        have count : c - start - idx = c - (start + idx) := by omega
        rw [split, dropWhile_eq_cons skips never (isEnd_burstTag c false)]
        have written : Holds itemsize _ _ := holds.fwrite current bytes
          (show idx + (c - start - idx) ≤ n by omega)
        rw [count] at written
        change ∃ e, loop itemTags start n inbuf turns (c - start) ([] ++ rest)
          (d.fwrite inbuf (d.itemsize * idx) (c - start - idx)).fclose = some e ∧ _
        rw [count, holds.size]
        refine ih (written.fclose rfl) ?_ (by omega) ?_ ?_ ?_ ?_
        · rw [place, mark_of_end same current least level flips, flips]
          rfl
        · intro tag member
          cases member
        · rw [place]
          exact later
        · exact Or.inr ⟨c, by omega, less, flips⟩
        · rw [split, List.length_append, List.length_cons] at enough
          omega

theorem work_eq (timely : ∀ tag ∈ itemTags, tag.body.key = "time" → tag.body.value = .time)
    (careful : Careful itemsize trigger start n)
    (bytes : ∀ j < n * itemsize, inbuf j = signal (itemsize * start + j))
    (holds : Holds itemsize d (recording itemsize signal trigger start))
    {allTags : List (Tag TagBody)} (tags : allTags.filter isBurst = changes trigger start n) :
    ∃ e, d.work start n inbuf itemTags allTags = some e ∧
      Holds itemsize e (recording itemsize signal trigger (start + n)) := by
  rcases Nat.eq_zero_or_pos n with rfl | some
  · exact ⟨d, rfl, holds⟩
  · have pending : Pending trigger (start + 0) (start + n)
        (recording itemsize signal trigger start).current.isSome allTags := by
      refine ⟨start, Nat.le_refl _, Nat.le_add_right _ _, ?_, (isSome_recording start).symm, ?_⟩
      · intro i least less
        omega
      · rw [Nat.add_sub_cancel_left]
        exact tags
    exact loop_eq timely careful bytes (allTags.length + 2) holds rfl some
      (fun tag member => absurd member List.not_mem_nil) pending (Or.inl rfl) (Nat.le_refl _)

/-! ## Tagger and sink -/

/-- The tags of the items of a call (`gr_buffer.cc:308-329`). -/
def inRange (start n : Nat) (tag : Tag TagBody) : Bool :=
  start ≤ tag.offset ∧ tag.offset < start + n

/-- What a call of the sink is given: items that the tagger has written, and the tags of the buffer
that belong to them, sorted. The tags of bursts among them are the tagger's, and the value of a time
tag is a time. -/
structure Offered (tagged : BurstTagger.Session) (s : Session) (c : Call) : Prop where
  inside : s.nitemsRead + c.noutputItems ≤ tagged.nitemsWritten
  found : c.allTags.Perm (c.itemTags.filter (inRange s.nitemsRead c.noutputItems))
  sorted : c.allTags.Pairwise fun a b => a.offset ≤ b.offset
  burst : ((c.itemTags.filter (inRange s.nitemsRead c.noutputItems)).filter isBurst).Perm
    (tagged.tags.filter (inRange s.nitemsRead c.noutputItems))
  timely : ∀ tag ∈ c.itemTags, tag.body.key = "time" → tag.body.value = .time

theorem mem_changes (member : tag ∈ changes trigger start count) :
    start ≤ tag.offset ∧ tag.offset < start + count ∧
      tag = burstTag tag.offset (high trigger tag.offset) := by
  obtain ⟨i, inside, tagged⟩ := List.mem_filterMap.mp member
  obtain ⟨least, less⟩ := List.mem_range'_1.mp inside
  unfold change at tagged
  split at tagged
  · cases tagged
  · cases tagged
    exact ⟨least, less, rfl⟩

theorem sorted_changes (start count : Nat) :
    (changes trigger start count).Pairwise fun a b => a.offset ≤ b.offset := by
  induction count with
  | zero => exact List.Pairwise.nil
  | succ count ih =>
    rw [changes_succ, List.pairwise_append]
    refine ⟨ih, ?_, ?_⟩
    · cases change trigger (start + count) with
      | none => exact List.Pairwise.nil
      | some tag => exact List.pairwise_singleton _ _
    · intro a early b late
      have less := (mem_changes early).2.1
      have last : b ∈ changes trigger (start + count) 1 := by
        rw [changes_succ]
        exact List.mem_append_right _ late
      have least := (mem_changes last).1
      omega

theorem filter_changes (n total : Nat) (inside : start + n ≤ total) :
    (changes trigger 0 total).filter (inRange start n) = changes trigger start n := by
  have count : total = start + (n + (total - (start + n))) := by omega
  have front : (changes trigger 0 start).filter (inRange start n) = [] := by
    rw [List.filter_eq_nil_iff]
    intro tag member
    have less := (mem_changes member).2.1
    simp [inRange]
    omega
  have middle : (changes trigger start n).filter (inRange start n) = changes trigger start n := by
    rw [List.filter_eq_self]
    intro tag member
    obtain ⟨least, less, -⟩ := mem_changes member
    simp [inRange, least, less]
  have back :
      (changes trigger (start + n) (total - (start + n))).filter (inRange start n) = [] := by
    rw [List.filter_eq_nil_iff]
    intro tag member
    have least := (mem_changes member).1
    simp [inRange]
    omega
  rw [count, changes_append, Nat.zero_add, changes_append, List.filter_append, List.filter_append,
    front, middle, back, List.nil_append, List.append_nil]

theorem filter_allTags {c : Call} (offered : Offered tagged s c)
    (tags : tagged.tags = changes trigger 0 tagged.nitemsWritten) :
    c.allTags.filter isBurst = changes trigger s.nitemsRead c.noutputItems := by
  have burst := offered.burst
  rw [tags, filter_changes _ _ offered.inside] at burst
  refine List.Perm.eq_of_pairwise ?_ (offered.sorted.filter isBurst) (sorted_changes _ _)
    ((offered.found.filter isBurst).trans burst)
  intro a b here there before after
  have member := ((offered.found.filter isBurst).trans burst).subset here
  have same : a.offset = b.offset := Nat.le_antisymm before after
  rw [(mem_changes member).2.2, (mem_changes there).2.2, same]

theorem call_eq {c : Call}
    (tagging : Tagged itemsize signal trigger tagged)
    (holds : Holds itemsize s.sink (recording itemsize signal trigger s.nitemsRead))
    (offered : Offered tagged s c)
    (careful : Careful itemsize trigger s.nitemsRead c.noutputItems) :
    ∃ next, s.call tagged.out c = some next ∧
      next.nitemsRead = s.nitemsRead + c.noutputItems ∧
      Holds itemsize next.sink (recording itemsize signal trigger next.nitemsRead) := by
  have bytes : ∀ j < c.noutputItems * itemsize,
      tagged.out.getD (s.sink.itemsize * s.nitemsRead + j) 0 =
        signal (itemsize * s.nitemsRead + j) := by
    intro j less
    have room : (s.nitemsRead + c.noutputItems) * itemsize ≤ tagged.nitemsWritten * itemsize :=
      Nat.mul_le_mul_right itemsize offered.inside
    rw [Nat.add_mul, Nat.mul_comm s.nitemsRead] at room
    have within : itemsize * s.nitemsRead + j < tagged.nitemsWritten * itemsize := by omega
    rw [holds.size, tagging.out]
    simp [within]
  obtain ⟨e, worked, held⟩ := work_eq offered.timely careful bytes holds
    (filter_allTags offered tagging.tags)
  exact ⟨⟨e, s.nitemsRead + c.noutputItems⟩, Option.bind_eq_some_iff.mpr ⟨e, worked, rfl⟩, rfl,
    held⟩

theorem files_eq (holds : Holds itemsize d (recording itemsize signal trigger n)) :
    d.files = bursts itemsize signal trigger n ∧ d.n = d.files.length := by
  obtain ⟨done, opened, split, -, closed, rest⟩ := recording_eq itemsize signal trigger n
  have count := holds.count
  rw [files, holds.closed, holds.handle]
  refine ⟨?_, by rw [List.length_append]; exact count⟩
  rw [bursts, split, List.map_append, closed]
  rcases rest with ⟨none, rfl⟩ | ⟨start, rfl, -, -, some⟩
  · rw [none]
    rfl
  · rw [some]
    rfl

/-- **The files of the sink are the bursts that the tagger has marked, over any calls of both, when
no burst of items that are not bytes begins within a chunk and goes on behind it.** -/
theorem writes_bursts {d : TaggedFileSink} (ok : construct itemsize = .ok d)
    (signal : Nat → UInt8) (trigger : Nat → Int) (taggerCalls : List Nat) (calls : List Call)
    (offered : Throughout (Offered (BurstTagger.session itemsize signal trigger taggerCalls))
      (Session.call (BurstTagger.session itemsize signal trigger taggerCalls).out) ⟨d, 0⟩ calls)
    (careful : Throughout (fun s c => Careful itemsize trigger s.nitemsRead c.noutputItems)
      (Session.call (BurstTagger.session itemsize signal trigger taggerCalls).out) ⟨d, 0⟩ calls) :
    ∃ s, run (Session.call (BurstTagger.session itemsize signal trigger taggerCalls).out) ⟨d, 0⟩
        calls = some s ∧
      s.sink.files = bursts itemsize signal trigger s.nitemsRead ∧
      s.sink.n = s.sink.files.length := by
  have tagging := tagged_session itemsize signal trigger taggerCalls
  generalize BurstTagger.session itemsize signal trigger taggerCalls = tagged at *
  have initial : Holds itemsize d (recording itemsize signal trigger 0) := by
    unfold construct at ok
    split at ok
    · cases ok
    · cases ok
      exact ⟨rfl, rfl, rfl, rfl, rfl⟩
  obtain ⟨s, ran, holds⟩ := run_defined
    (fun _ s => Holds itemsize s.sink (recording itemsize signal trigger s.nitemsRead)) initial
    (fun _ s c _ holds met => by
      obtain ⟨next, called, -, held⟩ := call_eq tagging holds met.1 met.2
      exact ⟨next, called, held⟩) (offered.and careful)
  exact ⟨s, ran, files_eq holds⟩

/-- A trigger at two items of four. -/
def twoHigh (i : Nat) : Int := if i = 1 ∨ i = 2 then 1 else 0

/-- Items of two bytes, with the burst inside the chunk. -/
theorem writes_inner_burst : ∃ s,
    run (Session.call (BurstTagger.session 2 UInt8.ofNat twoHigh [4]).out)
      ⟨⟨2, .notInBurst, none, 0, 0, []⟩, 0⟩
      [⟨4, [burstTag 1 true, burstTag 3 false], [burstTag 1 true, burstTag 3 false]⟩] = some s ∧
    s.sink.files = bursts 2 UInt8.ofNat twoHigh s.nitemsRead ∧ s.sink.n = s.sink.files.length :=
  writes_bursts (show construct 2 = .ok ⟨2, .notInBurst, none, 0, 0, []⟩ from rfl) UInt8.ofNat twoHigh
    [4] _
    ⟨⟨by decide, by decide, by decide, by decide, by decide⟩, fun _ _ => trivial⟩
    ⟨Or.inr (Or.inl ⟨3, rfl, rfl⟩), fun _ _ => trivial⟩

/-- The burst goes on behind a chunk of two items: from its second item it is bytes 1 and 2 that
are written, and not 2 and 3. -/
theorem writes_shifted_tail :
    Offered (BurstTagger.session 2 UInt8.ofNat twoHigh [4]) ⟨⟨2, .notInBurst, none, 0, 0, []⟩, 0⟩
      ⟨2, [burstTag 1 true, burstTag 3 false], [burstTag 1 true]⟩ ∧
    ∃ s, run (Session.call (BurstTagger.session 2 UInt8.ofNat twoHigh [4]).out)
        ⟨⟨2, .notInBurst, none, 0, 0, []⟩, 0⟩
        [⟨2, [burstTag 1 true, burstTag 3 false], [burstTag 1 true]⟩] = some s ∧
      s.sink.files = [[1, 2]] ∧ bursts 2 UInt8.ofNat twoHigh s.nitemsRead = [[2, 3]] := by
  refine ⟨⟨by decide, by decide, by decide, by decide, by decide⟩, ?_⟩
  exact ⟨⟨⟨2, .inBurst, some [1, 2], 1, 1, []⟩, 2⟩, by decide, rfl, by decide⟩

end TaggedFileSink

end GnuRadio
