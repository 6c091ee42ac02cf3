import Mathlib.Data.List.Basic
import GnuRadio.Misc.Bits
import GnuRadio.Misc.Except
import GnuRadio.Runtime.Types

/-!
# The framer

`gr_framer_sink_1` reads a stream of bits, one in each byte, with a flag on the
first bit behind an access code. It reads a header from there, and then as many
bytes as the header says. Calls of `work` take up where the last one stopped.
-/

namespace GnuRadio

/-- `gr_message` (`gr_message.h`). The framer stores integers in the arguments. -/
structure GrMessage where
  type : Int
  arg1 : Int
  arg2 : Int
  msg : List UInt8
  deriving DecidableEq, Repr

/-- `state_t` (`gr_framer_sink_1.h:59`). -/
inductive FramerState where
  | syncSearch
  | haveSync
  | haveHeader
  deriving DecidableEq, Repr

def maxPktLen : Nat := 4096

def headerbitlen : Nat := 32

/-- `gr_framer_sink_1` (`gr_framer_sink_1.h:64-74`). The queue is what was inserted in it. -/
structure FramerSink1 where
  targetQueue : List GrMessage
  state : FramerState
  header : UInt32
  headerbitlenCnt : Nat
  packet : Vector UInt8 maxPktLen
  packetByte : UInt8
  packetByteIndex : Nat
  packetlen : Nat
  packetWhitenerOffset : Nat
  packetlenCnt : Nat

namespace FramerSink1

/-- A new framer (`gr_framer_sink_1.cc:76-84`): the constructor sets the state alone, and the other
fields may hold anything. -/
def idle : FramerSink1 where
  targetQueue := []
  state := .syncSearch
  header := 0
  headerbitlenCnt := 0
  packet := Vector.replicate maxPktLen 0
  packetByte := 0
  packetByteIndex := 0
  packetlen := 0
  packetWhitenerOffset := 0
  packetlenCnt := 0

/-- The constructor (`gr_framer_sink_1.cc:76-84`) on memory that held anything: it sets the queue,
which is empty, and the state. -/
def construct (memory : FramerSink1) : FramerSink1 :=
  { memory with
    targetQueue := []
    state := .syncSearch }

/-- `in[count] & 0x2`. -/
def flagged (item : UInt8) : Bool := item &&& 0x2 != 0

/-- `enter_search` (`gr_framer_sink_1.cc:35-42`). -/
def enterSearch (d : FramerSink1) : FramerSink1 := { d with state := .syncSearch }

/-- `enter_have_sync` (`gr_framer_sink_1.cc:44-53`). -/
def enterHaveSync (d : FramerSink1) : FramerSink1 :=
  { d with
    state := .haveSync
    header := 0
    headerbitlenCnt := 0 }

/-- `enter_have_header` (`gr_framer_sink_1.cc:55-67`). -/
def enterHaveHeader (d : FramerSink1) (payloadLen whitenerOffset : Nat) : FramerSink1 :=
  { d with
    state := .haveHeader
    packetlen := payloadLen
    packetWhitenerOffset := whitenerOffset
    packetlenCnt := 0
    packetByte := 0
    packetByteIndex := 0 }

/-- `header_ok` (`gr_framer_sink_1.h:83-87`). -/
def headerOk (d : FramerSink1) : Bool := (d.header >>> 16) ^^^ (d.header &&& 0xffff) == 0

/-- `header_payload` (`gr_framer_sink_1.h:89-96`): the length and the offset. -/
def headerPayload (d : FramerSink1) : Nat × Nat :=
  (((d.header >>> 16) &&& 0x0fff).toNat, ((d.header >>> 28) &&& 0x000f).toNat)

/-- A message of the first bytes of the packet, and its sending. -/
def sendMessage (d : FramerSink1) (length : Nat) : FramerSink1 :=
  { d with targetQueue := d.targetQueue ++
      [⟨0, d.packetWhitenerOffset, 0, d.packet.toList.take length⟩] }

/-- The loop of `STATE_SYNC_SEARCH` (`gr_framer_sink_1.cc:107-113`) and what it leaves. -/
def syncSearchLoop (d : FramerSink1) : List UInt8 → FramerSink1 × List UInt8
  | [] => (d, [])
  | item :: rest => if flagged item then (d.enterHaveSync, item :: rest) else d.syncSearchLoop rest

/-- `gr_framer_sink_1.cc:122-123`, but for the test. -/
def shiftHeader (d : FramerSink1) (item : UInt8) : FramerSink1 :=
  { d with
    header := (d.header <<< 1) ||| (item.toUInt32 &&& 0x1)
    headerbitlenCnt := d.headerbitlenCnt + 1 }

/-- What a full header leads to (`gr_framer_sink_1.cc:129-148`). -/
def headerDone (d : FramerSink1) : FramerSink1 :=
  if d.headerOk then
    let (payloadLen, whitenerOffset) := d.headerPayload
    let d := d.enterHaveHeader payloadLen whitenerOffset
    if d.packetlen = 0 then (d.sendMessage 0).enterSearch else d
  else d.enterSearch

/-- The loop of `STATE_HAVE_SYNC` (`gr_framer_sink_1.cc:121-151`). -/
def haveSyncLoop (d : FramerSink1) : List UInt8 → FramerSink1 × List UInt8
  | [] => (d, [])
  | item :: rest =>
    let d := d.shiftHeader item
    if d.headerbitlenCnt = headerbitlen then (d.headerDone, rest) else d.haveSyncLoop rest

/-- `gr_framer_sink_1.cc:159-160`, but for the test. -/
def shiftPacketByte (d : FramerSink1) (item : UInt8) : FramerSink1 :=
  { d with
    packetByte := (d.packetByte <<< 1) ||| (item &&& 0x1)
    packetByteIndex := d.packetByteIndex + 1 }

/-- A full byte moves to the packet (`gr_framer_sink_1.cc:161-162`). -/
def storeByte (d : FramerSink1) : Except CppException FramerSink1 :=
  if inside : d.packetlenCnt < maxPktLen then
    .ok { d with
      packet := d.packet.set d.packetlenCnt d.packetByte
      packetlenCnt := d.packetlenCnt + 1
      packetByteIndex := 0 }
  else .error .undefinedBehaviour

/-- The loop of `STATE_HAVE_HEADER` (`gr_framer_sink_1.cc:158-179`). -/
def haveHeaderLoop (d : FramerSink1) : List UInt8 → Except CppException (FramerSink1 × List UInt8)
  | [] => .ok (d, [])
  | item :: rest =>
    let full := d.packetByteIndex = 7
    let d := d.shiftPacketByte item
    if full then do
      let d ← d.storeByte
      if d.packetlenCnt = d.packetlen then
        return ((d.sendMessage d.packetlenCnt).enterSearch, rest)
      else d.haveHeaderLoop rest
    else d.haveHeaderLoop rest

/-! ## One item at a time -/

/-- One item read in the header. -/
def headerItem (d : FramerSink1) (item : UInt8) : FramerSink1 :=
  if (d.shiftHeader item).headerbitlenCnt = headerbitlen then (d.shiftHeader item).headerDone
  else d.shiftHeader item

/-- One item read in the packet. -/
def packetItem (d : FramerSink1) (item : UInt8) : Except CppException FramerSink1 :=
  if d.packetByteIndex = 7 then do
    let d ← (d.shiftPacketByte item).storeByte
    return if d.packetlenCnt = d.packetlen then (d.sendMessage d.packetlenCnt).enterSearch else d
  else .ok (d.shiftPacketByte item)

/-- What one item does. -/
def readItem (d : FramerSink1) (item : UInt8) : Except CppException FramerSink1 :=
  match d.state with
  | .syncSearch => .ok (if flagged item then d.enterHaveSync.headerItem item else d)
  | .haveSync => .ok (d.headerItem item)
  | .haveHeader => d.packetItem item

variable {d : FramerSink1} {e : CppException} {item : UInt8} {rest : List UInt8}
  {next : FramerSink1 × List UInt8}

theorem readItem_search (search : d.state = .syncSearch) (item : UInt8) :
    d.readItem item = .ok (if flagged item then d.enterHaveSync.headerItem item else d) := by
  simp only [readItem, search]

theorem readItem_sync (sync : d.state = .haveSync) (item : UInt8) :
    d.readItem item = .ok (d.headerItem item) := by
  simp only [readItem, sync]

theorem readItem_header (header : d.state = .haveHeader) (item : UInt8) :
    d.readItem item = d.packetItem item := by
  simp only [readItem, header]

theorem syncSearchLoop_spec (search : d.state = .syncSearch) (items : List UInt8) :
    d.syncSearchLoop items = (d, []) ∧ items.foldlM readItem d = .ok d ∨
      ∃ passed item rest, items = passed ++ item :: rest ∧ passed.foldlM readItem d = .ok d ∧
        flagged item = true ∧ d.syncSearchLoop items = (d.enterHaveSync, item :: rest) := by
  induction items with
  | nil => exact .inl ⟨rfl, rfl⟩
  | cons item rest ih =>
    by_cases flag : flagged item = true
    · exact .inr ⟨[], item, rest, rfl, rfl, flag, by rw [syncSearchLoop, if_pos flag]⟩
    · have first : d.readItem item = .ok d := by rw [readItem_search search, if_neg flag]
      rw [syncSearchLoop, if_neg flag]
      obtain ⟨none, through⟩ | ⟨passed, next, left, rfl, through, found, same⟩ := ih
      · exact .inl ⟨none, foldlM_cons_ok.mpr ⟨d, first, through⟩⟩
      · exact .inr ⟨item :: passed, next, left, rfl, foldlM_cons_ok.mpr ⟨d, first, through⟩, found,
          same⟩

theorem haveSyncLoop_spec (sync : d.state = .haveSync) (item : UInt8) (rest : List UInt8) :
    ∃ read, item :: rest = item :: read ++ (d.haveSyncLoop (item :: rest)).2 ∧
      (item :: read).foldlM readItem d = .ok (d.haveSyncLoop (item :: rest)).1 := by
  induction rest generalizing d item with
  | nil =>
    refine ⟨[], ?_⟩
    rw [foldlM_singleton_ok, readItem_sync sync, headerItem, haveSyncLoop]
    split <;> exact ⟨rfl, rfl⟩
  | cons next rest ih =>
    by_cases full : (d.shiftHeader item).headerbitlenCnt = headerbitlen
    · refine ⟨[], ?_⟩
      rw [foldlM_singleton_ok, readItem_sync sync, headerItem, if_pos full, haveSyncLoop,
        if_pos full]
      exact ⟨rfl, rfl⟩
    · obtain ⟨read, whole, ran⟩ := ih (d := d.shiftHeader item) sync next
      rw [haveSyncLoop, if_neg full]
      refine ⟨next :: read, congrArg (item :: ·) whole, foldlM_cons_ok.mpr ⟨_, ?_, ran⟩⟩
      rw [readItem_sync sync, headerItem, if_neg full]

theorem storeByte_state {e : FramerSink1} (stored : d.storeByte = .ok e) : e.state = d.state := by
  unfold storeByte at stored
  split at stored
  · cases stored
    rfl
  · cases stored

theorem haveHeaderLoop_cons (header : d.state = .haveHeader) (item : UInt8) (rest : List UInt8) :
    d.haveHeaderLoop (item :: rest) = do
      let e ← d.packetItem item
      if e.state = .haveHeader then e.haveHeaderLoop rest else return (e, rest) := by
  rw [haveHeaderLoop, packetItem]
  split
  · cases stored : (d.shiftPacketByte item).storeByte with
    | error e => rfl
    | ok e =>
      have state : e.state = .haveHeader := (storeByte_state stored).trans header
      simp only [ok_bind, pure_bind]
      split
      · rw [if_neg (by simp [enterSearch])]
      · rfl
  · have state : (d.shiftPacketByte item).state = .haveHeader := header
    rw [ok_bind, if_pos state]

theorem haveHeaderLoop_error (header : d.state = .haveHeader)
    (failed : d.haveHeaderLoop (item :: rest) = .error e) :
    (item :: rest).foldlM readItem d = .error e := by
  induction rest generalizing d item with
  | nil =>
    rw [haveHeaderLoop_cons header] at failed
    rw [List.foldlM_cons, readItem_header header]
    cases first : d.packetItem item with
    | error e' =>
      rw [first] at failed
      cases failed
      rfl
    | ok d' =>
      rw [first, ok_bind] at failed
      split at failed <;> cases failed
  | cons item' rest ih =>
    rw [haveHeaderLoop_cons header] at failed
    rw [List.foldlM_cons, readItem_header header]
    cases first : d.packetItem item with
    | error e' =>
      rw [first] at failed
      cases failed
      rfl
    | ok d' =>
      rw [first, ok_bind] at failed
      split at failed
      · exact ih ‹_› failed
      · cases failed

theorem haveHeaderLoop_ok (header : d.state = .haveHeader)
    (looped : d.haveHeaderLoop (item :: rest) = .ok next) :
    ∃ read, item :: rest = item :: read ++ next.2 ∧
      (item :: read).foldlM readItem d = .ok next.1 := by
  induction rest generalizing d item with
  | nil =>
    rw [haveHeaderLoop_cons header] at looped
    obtain ⟨e, first, looped⟩ := bind_ok.mp looped
    refine ⟨[], ?_⟩
    rw [foldlM_singleton_ok, readItem_header header, first]
    split at looped <;> cases looped <;> exact ⟨rfl, rfl⟩
  | cons item' rest ih =>
    rw [haveHeaderLoop_cons header] at looped
    obtain ⟨e, first, looped⟩ := bind_ok.mp looped
    rw [← readItem_header header] at first
    split at looped
    · obtain ⟨read, whole, ran⟩ := ih ‹_› looped
      exact ⟨item' :: read, congrArg (item :: ·) whole, foldlM_cons_ok.mpr ⟨e, first, ran⟩⟩
    · cases looped
      exact ⟨[], rfl, foldlM_singleton_ok.mpr first⟩

/-! ## `work` -/

/-- What bounds the rounds of the loop: a search may end in front of an item. -/
def remaining (next : FramerSink1 × List UInt8) : Nat :=
  2 * next.2.length + if next.1.state = .syncSearch then 1 else 0

theorem syncSearchLoop_remaining (search : d.state = .syncSearch) (item : UInt8)
    (rest : List UInt8) :
    remaining (d.syncSearchLoop (item :: rest)) < remaining (d, item :: rest) := by
  obtain ⟨same, -⟩ | ⟨passed, found, left, whole, -, -, same⟩ :=
    syncSearchLoop_spec search (item :: rest)
  · rw [same]
    simp [remaining]
  · have length := congrArg List.length whole
    rw [same]
    simp [remaining, enterHaveSync, search] at length ⊢
    omega

theorem remaining_lt {read : List UInt8} (whole : item :: rest = item :: read ++ next.2) :
    remaining next < remaining (d, item :: rest) := by
  have length := congrArg List.length whole
  simp [remaining] at length ⊢
  split <;> split <;> omega

/-- One round of the loop of `work` (`gr_framer_sink_1.cc:101-185`). -/
def round (d : FramerSink1) (input : List UInt8) :
    Except CppException (FramerSink1 × List UInt8) :=
  match d.state with
  | .syncSearch => .ok (d.syncSearchLoop input)
  | .haveSync => .ok (d.haveSyncLoop input)
  | .haveHeader => d.haveHeaderLoop input

theorem round_error (failed : d.round (item :: rest) = .error e) :
    (item :: rest).foldlM readItem d = .error e := by
  unfold round at failed
  split at failed
  · cases failed
  · cases failed
  · exact haveHeaderLoop_error ‹_› failed

theorem round_ok (ended : d.round (item :: rest) = .ok next) :
    remaining next < remaining (d, item :: rest) ∧
      (item :: rest).foldlM readItem d = next.2.foldlM readItem next.1 := by
  unfold round at ended
  split at ended
  · rename_i search
    cases ended
    refine ⟨syncSearchLoop_remaining search item rest, ?_⟩
    obtain ⟨same, through⟩ | ⟨passed, found, left, whole, through, flag, same⟩ :=
      syncSearchLoop_spec search (item :: rest)
    · rw [same, through]
      rfl
    · rw [same, whole, List.foldlM_append, through, ok_bind, List.foldlM_cons, List.foldlM_cons,
        readItem_search search, if_pos flag, readItem_sync rfl]
  · rename_i sync
    cases ended
    obtain ⟨read, whole, ran⟩ := haveSyncLoop_spec sync item rest
    refine ⟨remaining_lt whole, ?_⟩
    conv_lhs => rw [whole, List.foldlM_append, ran]
    rfl
  · obtain ⟨read, whole, ran⟩ := haveHeaderLoop_ok ‹_› ended
    refine ⟨remaining_lt whole, ?_⟩
    rw [whole, List.foldlM_append, ran]
    rfl

/-- The loop of `work` (`gr_framer_sink_1.cc:100-187`). -/
def workLoop (d : FramerSink1) (input : List UInt8) : Except CppException FramerSink1 :=
  match input with
  | [] => .ok d
  | item :: rest =>
    match _ended : d.round (item :: rest) with
    | .error e => .error e
    | .ok next => workLoop next.1 next.2
termination_by remaining (d, input)
decreasing_by exact (round_ok _ended).1

/-- `work` (`gr_framer_sink_1.cc:88-190`): the items consumed, which are all. -/
def work (d : FramerSink1) (input : List UInt8) : Except CppException (Int × FramerSink1) := do
  let d ← d.workLoop input
  return (input.length, d)

theorem workLoop_eq (d : FramerSink1) (input : List UInt8) :
    d.workLoop input = input.foldlM readItem d := by
  induction d, input using workLoop.induct with
  | case1 d =>
    rw [workLoop]
    rfl
  | case2 d item rest e failed =>
    rw [workLoop, round_error failed]
    split
    · rename_i other
      exact congrArg Except.error (Except.error.inj (other.symm.trans failed))
    · rename_i other
      cases other.symm.trans failed
  | case3 d item rest next ended ih =>
    rw [workLoop, (round_ok ended).2, ← ih]
    split
    · rename_i other
      cases other.symm.trans ended
    · rename_i other
      cases other.symm.trans ended
      rfl

end FramerSink1

theorem halves_agree_iff (header : UInt32) : ((header >>> 16) ^^^ (header &&& 0xffff) == 0) = true ↔
    header.toNat / 2 ^ 16 = header.toNat % 2 ^ 16 := by
  have low := Nat.and_two_pow_sub_one_eq_mod header.toNat 16
  rw [beq_iff_eq, UInt32.xor_eq_zero_iff, ← UInt32.toNat_inj, UInt32.toNat_shiftRight,
    UInt32.toNat_and, ← low, ← Nat.shiftRight_eq_div_pow]
  rfl

end GnuRadio
