import GnuRadio.Misc.Trace
import GnuRadio.Runtime.Types
import Mathlib.Data.UInt

/-!
# Receiving frames on the host

`usrp2::impl` takes frames from the ethernet buffer in a background thread and
leaves them in the ring of their channel. The threads of the user take them from
there, look at them and release them. `d_num_enqueued` counts the frames that the
background thread has to wait for (`usrp2_impl.cc`). A statement that other
threads can observe, or a critical section, is one step.
-/

namespace GnuRadio.Usrp2

def controlChan : UInt32 := 0x1f

/-- A frame in the ethernet buffer, known by the number of its reception. Of its contents the
sequence number, the fixed header and the number of bytes from the fixed header on are used. -/
structure EthFrame where
  base : Nat
  seqno : UInt8
  word0 : UInt32
  timestamp : UInt32
  len : Nat
  deriving DecidableEq

/-- `u2p_chan` (`usrp2_eth_packet.h:105-109`). -/
def u2pChan (frame : EthFrame) : UInt32 := (frame.word0 >>> 27) &&& 0x1f

/-- `rx_metadata`. -/
structure RxMetadata where
  word0 : UInt32
  timestamp : UInt32
  start_of_burst : Bool
  end_of_burst : Bool
  rx_overrun : Bool
  deriving DecidableEq

/-- `sizeof(u2_fixed_hdr_t)`. -/
def sizeofFixedHdr : Nat := 8

/-- `parse_rx_metadata` (`usrp2_impl.cc:99-129`): `nitems_in_uint32s` and the metadata, or `none`
when it returns `false`. -/
def parseRxMetadata (p : EthFrame) : Except CppException (Option (Nat × RxMetadata)) :=
  if p.len < sizeofFixedHdr then .ok none
  else
    let nbytes := p.len - sizeofFixedHdr
    if nbytes % 4 ≠ 0 then .error .assertFailed
    else .ok (some (nbytes / 4, ⟨p.word0, p.timestamp, false, false, false⟩))

/-! ## Rings -/

/-- `ring` (`ring.h`): what was enqueued and not yet dequeued. One of the `d_max` places stays
empty. -/
structure HostRing where
  d_max : Nat
  frames : List EthFrame
  deriving DecidableEq

/-- `ring::enqueue` (`ring.cc:50-63`). -/
def HostRing.enqueue (r : HostRing) (p : EthFrame) : Option HostRing :=
  if r.frames.length + 1 = r.d_max then none else some { r with frames := r.frames ++ [p] }

/-- `ring::dequeue` (`ring.cc:65-77`). -/
def HostRing.dequeue (r : HostRing) : Option (EthFrame × HostRing) :=
  match r.frames with
  | [] => none
  | p :: rest => some (p, { r with frames := rest })

/-! ## Threads -/

/-- Where a thread of the user is. `rp` is the ring its `ring_sptr` points to. -/
inductive UserState where
  | idle
  /-- `start_rx_streaming` (`usrp2_impl.cc:656-692`), before it has the mutex. -/
  | startLock
  /-- It has the mutex and waits for the reply to its command. -/
  | startWait
  /-- `flush_rx_samples` (`usrp2_impl.cc:896-925`), by itself or in `stop_rx_streaming`. -/
  | flushStart (stopping : Bool)
  | flushLoop (rp : Nat) (stopping : Bool)
  | flushHolding (rp : Nat) (p : EthFrame) (stopping : Bool)
  | flushReleased (rp : Nat) (p : EthFrame) (stopping : Bool)
  /-- `stop_rx_streaming` (`usrp2_impl.cc:806-849`) after the flush, before it has the mutex. -/
  | stopLock
  | stopWait
  /-- `rx_samples` (`usrp2_impl.cc:851-893`). -/
  | rxWait (rp : Nat)
  | rxLoop (rp : Nat)
  /-- The handler has been called. -/
  | rxHandling (rp : Nat) (p : EthFrame) (nitems : Nat) (md : RxMetadata)
  | rxReleased (rp : Nat) (p : EthFrame) (want_more : Bool)
  deriving DecidableEq

/-- Where the background thread is. -/
inductive BgState where
  /-- In `rx_frames`, at the test for the next frame. -/
  | rxFrames
  /-- `handle_data_packet` (`usrp2_impl.cc:440-493`) has been called. -/
  | handling (p : EthFrame)
  | locking (p : EthFrame)
  /-- It has the mutex. -/
  | locked (p : EthFrame)
  /-- It has enqueued the frame. -/
  | counting (p : EthFrame)
  | keeping (p : EthFrame)
  /-- `rx_frames` has returned. -/
  | checking
  /-- In `d_bg_pending_cond.wait`. -/
  | waiting
  deriving DecidableEq

/-- Who has `d_channel_rings_mutex`. -/
inductive MutexOwner where
  | bg
  | user (thread : Nat)
  deriving DecidableEq

/-- What `handle_data_packet` counts. -/
structure RxStats where
  d_rx_seqno : Int
  d_num_rx_frames : UInt32
  d_num_rx_bytes : UInt32
  d_num_rx_overruns : UInt32
  d_num_rx_missing : UInt32
  deriving DecidableEq

/-- The bytes of a frame before the fixed header. -/
def fixedOffset : Nat := 20

/-- The fake transport layer handler (`usrp2_impl.cc:444-466`). -/
def RxStats.count (stats : RxStats) (pkt : EthFrame) : RxStats :=
  let stats := { stats with
    d_num_rx_frames := stats.d_num_rx_frames + 1
    d_num_rx_bytes := stats.d_num_rx_bytes + UInt32.ofNat (pkt.len + fixedOffset) }
  let seqno : Int := pkt.seqno.toNat
  let expected_seqno := (stats.d_rx_seqno + 1) % 256
  if stats.d_rx_seqno ≠ -1 ∧ seqno ≠ expected_seqno then
    let missing := if seqno - expected_seqno < 0 then seqno - expected_seqno + 256
      else seqno - expected_seqno
    { stats with
      d_num_rx_overruns := stats.d_num_rx_overruns + 1
      d_num_rx_missing := stats.d_num_rx_missing + UInt32.ofNat missing.toNat
      d_rx_seqno := seqno }
  else { stats with d_rx_seqno := seqno }

/-- The state shared by the threads, and where they are. `rings` has every ring ever made;
`enqueued`, `kept` and `released` record the frames that `enqueue` took, that were reported as
`KEEP` and that were given to `release_frame`. -/
structure HostRx where
  max_frames : Nat
  received : Nat
  d_num_enqueued : UInt32
  d_dont_enqueue : Bool
  d_channel_rings : UInt32 → Option Nat
  d_channel_rings_mutex : Option MutexOwner
  rings : List HostRing
  stats : RxStats
  bg : BgState
  users : List UserState
  enqueued : List EthFrame
  kept : List EthFrame
  released : List EthFrame

namespace HostRx

/-- After the constructor: no channel streams, and `n` threads of the user do nothing. -/
def initial (max_frames n : Nat) : HostRx where
  max_frames := max_frames
  received := 0
  d_num_enqueued := 0
  d_dont_enqueue := true
  d_channel_rings _ := none
  d_channel_rings_mutex := none
  rings := []
  stats := ⟨-1, 0, 0, 0, 0⟩
  bg := .rxFrames
  users := List.replicate n .idle
  enqueued := []
  kept := []
  released := []

/-- A thread of the user goes on. -/
def setUser (s : HostRx) (t : Nat) (u : UserState) : HostRx := { s with users := s.users.set t u }

/-- `*rp`. -/
def ring (s : HostRx) (rp : Nat) : HostRing := s.rings.getD rp ⟨0, []⟩

/-- Locks the mutex, when it is free. -/
def lock (s : HostRx) (owner : MutexOwner) : Option HostRx :=
  if s.d_channel_rings_mutex = none then some { s with d_channel_rings_mutex := some owner } else none

/-- The mutex is released. -/
def unlock (s : HostRx) : HostRx := { s with d_channel_rings_mutex := none }

/-- `inc_enqueued` (`usrp2_impl.h:95-98`). -/
def incEnqueued (s : HostRx) : HostRx := { s with d_num_enqueued := s.d_num_enqueued + 1 }

/-- `dec_enqueued` (`usrp2_impl.h:100-104`). -/
def decEnqueued (s : HostRx) : HostRx :=
  let n := s.d_num_enqueued - 1
  { s with
    d_num_enqueued := n
    bg := if n = 0 ∧ s.bg = .waiting then .checking else s.bg }

/-- `release_frame` (`eth_buffer.cc:271-277`). -/
def releaseFrame (s : HostRx) (p : EthFrame) : HostRx := { s with released := s.released ++ [p] }

/-- What a dequeue leaves. -/
def dequeue (s : HostRx) (rp : Nat) : Option (EthFrame × HostRx) :=
  (s.ring rp).dequeue.map fun (p, ring) => (p, { s with rings := s.rings.set rp ring })

/-! ## The background thread -/

/-- `handle_control_packet` (`usrp2_impl.cc:408-438`) hands the reply to the thread that waits for
it, which the action of this thread says, and returns `RELEASE`. -/
def handleControlPacket (s : HostRx) : HostRx := s

/-- `operator()` (`usrp2_impl.cc:382-406`). -/
def handlePacket (s : HostRx) (pkt : EthFrame) : HostRx :=
  if u2pChan pkt = controlChan then s.handleControlPacket
  else if s.d_dont_enqueue then s
  else { s with bg := .handling pkt }

/-- `handle_data_packet` with the mutex: enqueues the frame, or lets go of it. -/
def enqueuePacket (s : HostRx) (pkt : EthFrame) : HostRx :=
  match s.d_channel_rings (u2pChan pkt) with
  | none => { s.unlock with bg := .rxFrames }
  | some rp =>
      match (s.ring rp).enqueue pkt with
      | none => { s.unlock with bg := .rxFrames }
      | some ring => { s with
          rings := s.rings.set rp ring
          enqueued := s.enqueued ++ [pkt]
          bg := .counting pkt }

/-- The next step of `bg_loop` (`usrp2_impl.cc:352-377`) and what it calls. In `rx_frames` it finds
no more frames; a wait may end for no reason. -/
def background (s : HostRx) : Option HostRx :=
  match s.bg with
  | .rxFrames => some { s with bg := .checking }
  | .handling pkt => some { s with stats := s.stats.count pkt, bg := .locking pkt }
  | .locking pkt => (s.lock .bg).map fun s => { s with bg := .locked pkt }
  | .locked pkt => some (s.enqueuePacket pkt)
  | .counting pkt => some { s.incEnqueued with bg := .keeping pkt }
  | .keeping pkt => some { s.unlock with kept := s.kept ++ [pkt], bg := .rxFrames }
  | .checking => some { s with bg := if 0 < s.d_num_enqueued then .waiting else .rxFrames }
  | .waiting => some { s with bg := .checking }

/-! ## The threads of the user -/

/-- What a call does up to its first step. -/
inductive HostCall where
  | startRxStreaming (channel : Nat)
  | stopRxStreaming (channel : Nat)
  | rxSamples (channel : Nat)
  | flushRxSamples (channel : Nat)

/-- A call. Channels other than 0 are refused. -/
def enter (s : HostRx) (t : Nat) : HostCall → HostRx
  | .startRxStreaming channel => if 0 < channel then s else s.setUser t .startLock
  | .stopRxStreaming channel =>
      if 0 < channel then s else { s with d_dont_enqueue := true }.setUser t (.flushStart true)
  | .rxSamples channel =>
      if 0 < channel then s
      else match s.d_channel_rings 0 with
        | none => s
        | some rp => s.setUser t (.rxWait rp)
  | .flushRxSamples channel => if 0 < channel then s else s.setUser t (.flushStart false)

/-- Where a thread is after `flush_rx_samples`. -/
def afterFlush (stopping : Bool) : UserState := if stopping then .stopLock else .idle

/-- The next step of a thread that is in a call, and waits for nothing but the mutex or a frame. -/
def userStep (s : HostRx) (t : Nat) : UserState → Option HostRx
  | .startLock => (s.lock (.user t)).map fun s =>
      if (s.d_channel_rings 0).isSome then s.unlock.setUser t .idle
      else { s with d_dont_enqueue := false }.setUser t .startWait
  | .flushStart stopping =>
      match s.d_channel_rings 0 with
      | none => some (s.setUser t (afterFlush stopping))
      | some rp => some (s.setUser t (.flushLoop rp stopping))
  | .flushLoop rp stopping =>
      match s.dequeue rp with
      | none => some (s.setUser t (afterFlush stopping))
      | some (p, s) => some (s.setUser t (.flushHolding rp p stopping))
  | .flushHolding rp p stopping => some ((s.releaseFrame p).setUser t (.flushReleased rp p stopping))
  | .flushReleased rp _ stopping => some (s.decEnqueued.setUser t (.flushLoop rp stopping))
  | .stopLock => (s.lock (.user t)).map fun s => s.setUser t .stopWait
  | .rxWait rp => if (s.ring rp).frames = [] then none else some (s.setUser t (.rxLoop rp))
  | .rxLoop rp =>
      match s.dequeue rp with
      | none => some (s.setUser t .idle)
      | some (p, s) =>
          match parseRxMetadata p with
          | .error _ => none
          | .ok none => some (s.setUser t .idle)
          | .ok (some (nitems, md)) => some (s.setUser t (.rxHandling rp p nitems md))
  | .rxReleased rp _ want_more =>
      some (s.decEnqueued.setUser t (if want_more then .rxLoop rp else .idle))
  | _ => none

/-- The reply to a command came, or did not come in time. -/
def reply (s : HostRx) (t : Nat) (success : Bool) : UserState → Option HostRx
  | .startWait =>
      if success then
        some ({ s with
          rings := s.rings ++ [HostRing.mk s.max_frames []]
          d_channel_rings := Function.update s.d_channel_rings 0 (some s.rings.length) }.unlock.setUser
            t .idle)
      else some ({ s with d_dont_enqueue := true }.unlock.setUser t .idle)
  | .stopWait =>
      some ({ s with
        d_channel_rings := Function.update s.d_channel_rings 0 none
        stats := { s.stats with d_rx_seqno := -1 } }.unlock.setUser t .idle)
  | _ => none

/-- The handler of `rx_samples` returns. -/
def handled (s : HostRx) (t : Nat) (want_more : Bool) : UserState → Option HostRx
  | .rxHandling rp p _ _ => some ((s.releaseFrame p).setUser t (.rxReleased rp p want_more))
  | _ => none

end HostRx

/-- What happens next: a frame is there when the background thread looks for one, the background
thread goes on, or a thread of the user makes a call, goes on, or gets a reply or an answer. -/
inductive HostAction where
  | frame (seqno : UInt8) (word0 timestamp : UInt32) (len : Nat)
  | background
  | call (t : Nat) (call : HostRx.HostCall)
  | user (t : Nat)
  | reply (t : Nat) (success : Bool)
  | handler (t : Nat) (want_more : Bool)

/-- The state after the action. -/
def hostStep (s : HostRx) : HostAction → Option HostRx
  | .frame seqno word0 timestamp len =>
      if s.bg = .rxFrames then
        some ({ s with received := s.received + 1 }.handlePacket
          (EthFrame.mk s.received seqno word0 timestamp len))
      else none
  | .background => s.background
  | .call t call => if s.users[t]? = some .idle then some (s.enter t call) else none
  | .user t => s.users[t]?.bind (s.userStep t)
  | .reply t success => s.users[t]?.bind (s.reply t success)
  | .handler t want_more => s.users[t]?.bind (s.handled t want_more)

/-! ## Accounts -/

/-- The frame a thread has and has not released. -/
def UserState.holds : UserState → List EthFrame
  | .flushHolding _ p _ => [p]
  | .rxHandling _ p _ _ => [p]
  | _ => []

/-- The frame a thread handles, until it is counted off. -/
def UserState.handles : UserState → List EthFrame
  | .flushHolding _ p _ | .flushReleased _ p _ => [p]
  | .rxHandling _ p _ _ | .rxReleased _ p _ => [p]
  | _ => []

namespace HostRx

/-- The frames in the rings of the channels; only channel 0 has one. -/
def ringFrames (s : HostRx) : List EthFrame :=
  match s.d_channel_rings 0 with
  | none => []
  | some rp => (s.ring rp).frames

/-- The frames in the rings and those that are handled. -/
def outstanding (s : HostRx) : List EthFrame :=
  s.ringFrames ++ s.users.flatMap UserState.handles

/-- The frames in the rings and those that threads have and have not released. -/
def unreleased (s : HostRx) : List EthFrame := s.ringFrames ++ s.users.flatMap UserState.holds

/-- Whether `handle_data_packet` has enqueued a frame that it counts next. -/
def uncounted (s : HostRx) : Nat :=
  match s.bg with
  | .counting _ => 1
  | _ => 0

/-- The accounts are right: `d_num_enqueued` counts the frames in the rings and those that are
handled; a kept frame is in one place and not released, or released once; and the background thread
waits only while a frame is outstanding. -/
structure Accounted (s : HostRx) : Prop where
  count : s.d_num_enqueued + UInt32.ofNat s.uncounted = UInt32.ofNat s.outstanding.length
  once : ∀ p ∈ s.kept, (s.unreleased ++ s.released).count p = 1
  waits : s.bg = .waiting → s.outstanding ≠ []

/-- A frame that `rx_samples` dequeues has a fixed header, and a ring that `stop_rx_streaming` lets
go of is empty. -/
def Clean (s : HostRx) : HostAction → Prop
  | .user t => ∀ rp, s.users[t]? = some (.rxLoop rp) →
      ∀ p ∈ (s.ring rp).frames.head?, sizeofFixedHdr ≤ p.len
  | .reply t _ => s.users[t]? = some .stopWait → s.ringFrames = []
  | _ => True

instance (s : HostRx) : ∀ a, Decidable (s.Clean a)
  | .user t =>
      match here : s.users[t]? with
      | some (.rxLoop rp) =>
          decidable_of_iff (∀ p ∈ (s.ring rp).frames.head?, sizeofFixedHdr ≤ p.len)
            (by simp [Clean, here])
      | none | some .idle | some .startLock | some .startWait | some (.flushStart _)
      | some (.flushLoop ..) | some (.flushHolding ..) | some (.flushReleased ..) | some .stopLock
      | some .stopWait | some (.rxWait _) | some (.rxHandling ..) | some (.rxReleased ..) =>
          isTrue (by simp [Clean, here])
  | .reply t _ => inferInstanceAs (Decidable (s.users[t]? = some .stopWait → s.ringFrames = []))
  | .frame .. | .background | .call .. | .handler .. => isTrue trivial

end HostRx

end GnuRadio.Usrp2
