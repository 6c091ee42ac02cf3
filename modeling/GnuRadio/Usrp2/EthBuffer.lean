import GnuRadio.Misc.Ring
import GnuRadio.Usrp2.HostRx

/-!
# The packet ring

The kernel fills the frame slots of the packet ring in order, each as soon as its status is
`TP_STATUS_KERNEL`. The background thread passes the frames to `usrp2::impl`, which keeps some in
the ring of their channel, and a thread of the user takes these from there and releases them
(`eth_buffer.cc`, `usrp2_impl.cc`). The status of a slot is all that tells a new frame from one
that is kept.
-/

namespace GnuRadio.Usrp2

/-- `tp_status`: `TP_STATUS_KERNEL` or not. -/
inductive TpStatus where
  | kernel
  | user
  deriving DecidableEq

/-- A frame slot: `tpacket_hdr` and what the kernel put behind it. -/
structure FrameSlot where
  tp_status : TpStatus
  frame : EthFrame
  deriving DecidableEq

/-- `ring_desc` (`ring.h:42-46`). `slot` is where `d_base` points, and `frame` the frame that was
there when it was enqueued. -/
structure RingDesc where
  slot : Nat
  frame : EthFrame
  deriving DecidableEq

/-- Where the background thread is. -/
inductive EthBgState where
  /-- `rx_frames` at the test for the first frame (`eth_buffer.cc:186`). -/
  | first
  /-- In `poll`. -/
  | polling
  /-- At the test for the next frame (`eth_buffer.cc:212`). -/
  | testing
  /-- The handler has been called. -/
  | handling (pkt : EthFrame)
  /-- `handle_data_packet` has counted the frame. -/
  | enqueuing (pkt : EthFrame)
  /-- It has enqueued the frame. -/
  | counting
  /-- The handler has returned `RELEASE`. -/
  | releasing
  /-- At `inc_head`. -/
  | advancing
  /-- `rx_frames` has returned. -/
  | checking
  /-- In `d_bg_pending_cond.wait`. -/
  | waiting
  | stopped
  deriving DecidableEq

/-- Where the thread of the user is. -/
inductive EthUserState where
  | idle
  | holding (d : RingDesc)
  | released
  deriving DecidableEq

/-- The packet ring and its three parties. `filled` has the frames that the kernel put into slots,
and `passed` those that were passed to the handler. -/
structure EthRx where
  slots : List FrameSlot
  kernelNext : Nat
  d_head : Nat
  d_dont_enqueue : Bool
  d_bg_running : Bool
  d_num_enqueued : UInt32
  stats : RxStats
  ring : List RingDesc
  bg : EthBgState
  user : EthUserState
  filled : List EthFrame
  passed : List EthFrame
  deriving DecidableEq

namespace EthRx

/-- After `open`: all `N` slots are the kernel's. -/
def initial (N : Nat) : EthRx where
  slots := List.replicate N ⟨.kernel, ⟨0, 0, 0, 0, 0⟩⟩
  kernelNext := 0
  d_head := 0
  d_dont_enqueue := true
  d_bg_running := true
  d_num_enqueued := 0
  stats := ⟨-1, 0, 0, 0, 0⟩
  ring := []
  bg := .first
  user := .idle
  filled := []
  passed := []

/-- The next slot: `inc_head` (`eth_buffer.h:62-68`), and what the kernel does. -/
def incHead (d_frame_nr d_head : Nat) : Nat := if d_head + 1 ≥ d_frame_nr then 0 else d_head + 1

/-- `frame_available` (`eth_buffer.cc:175-179`) of the slot at `d_head`. -/
def frameAvailable (s : EthRx) : Option Bool :=
  s.slots[s.d_head]?.map fun slot => slot.tp_status ≠ .kernel

/-- Marks a slot free. -/
def free (s : EthRx) (slot : Nat) : EthRx :=
  { s with slots := s.slots.modify slot fun hdr => { hdr with tp_status := .kernel } }

/-- The kernel receives a frame into the next slot. Frames are known by the number of their
reception. -/
def fill (s : EthRx) (seqno : UInt8) (word0 timestamp : UInt32) (len : Nat) : Option EthRx :=
  match s.slots[s.kernelNext]? with
  | some ⟨.kernel, _⟩ =>
      let frame : EthFrame := ⟨s.filled.length, seqno, word0, timestamp, len⟩
      some { s with
        slots := s.slots.set s.kernelNext ⟨.user, frame⟩
        kernelNext := incHead s.slots.length s.kernelNext
        filled := s.filled ++ [frame] }
  | _ => none

/-! ## The background thread -/

/-- `handle_data_packet` (`usrp2_impl.cc:471-491`) after the counts: channel 0 has a ring of as many
entries as there are slots, one of which stays empty (`ring.h:66`, `ring.cc:50-63`). -/
def enqueuePacket (s : EthRx) (pkt : EthFrame) : EthRx :=
  if u2pChan pkt ≠ 0 then { s with bg := .releasing }
  else if s.ring.length + 1 = s.slots.length then { s with bg := .releasing }
  else { s with ring := s.ring ++ [⟨s.d_head, pkt⟩], bg := .counting }

/-- The next step of `bg_loop` (`usrp2_impl.cc:352-377`), of `rx_frames` (`eth_buffer.cc:181-239`) and
of the handler (`usrp2_impl.cc:382-406`). The wait may end for no reason. -/
def background (s : EthRx) : Option EthRx :=
  match s.bg with
  | .first => s.frameAvailable.map fun available =>
      { s with bg := if available then .testing else .polling }
  | .polling => none
  | .testing =>
      match s.slots[s.d_head]? with
      | none => none
      | some ⟨.kernel, _⟩ => some { s with bg := .checking }
      | some ⟨.user, pkt⟩ => some { s with passed := s.passed ++ [pkt], bg := .handling pkt }
  | .handling pkt =>
      if u2pChan pkt = controlChan ∨ s.d_dont_enqueue then some { s with bg := .releasing }
      else some { s with stats := s.stats.count pkt, bg := .enqueuing pkt }
  | .enqueuing pkt => some (s.enqueuePacket pkt)
  | .counting => some { s with d_num_enqueued := s.d_num_enqueued + 1, bg := .advancing }
  | .releasing => some { s.free s.d_head with bg := .advancing }
  | .advancing => some { s with d_head := incHead s.slots.length s.d_head, bg := .testing }
  | .checking => some { s with
      bg := if s.d_bg_running then (if 0 < s.d_num_enqueued then .waiting else .first) else .stopped }
  | .waiting => some { s with bg := .checking }
  | .stopped => none

/-- How `poll` ends. -/
inductive PollResult where
  | ready
  | timedOut
  | error
  deriving DecidableEq

/-- `rx_frames` after `poll` (`eth_buffer.cc:199-208`). -/
def afterPoll (s : EthRx) (result : PollResult) : Option EthRx :=
  if s.bg = .polling then
    some { s with
      bg := match result with
        | .ready => .first
        | .timedOut => .checking
        | .error => .stopped
      d_bg_running := s.d_bg_running && result ≠ .error }
  else none

/-! ## The thread of the user -/

/-- `dequeue` (`ring.cc:65-77`), `release_frame` (`eth_buffer.cc:271-277`) and `dec_enqueued`
(`usrp2_impl.h:99-103`). -/
def userStep (s : EthRx) : Option EthRx :=
  match s.user with
  | .idle =>
      match s.ring with
      | [] => none
      | d :: rest => some { s with ring := rest, user := .holding d }
  | .holding d => some { s.free d.slot with user := .released }
  | .released => some { s with d_num_enqueued := s.d_num_enqueued - 1, user := .idle }

end EthRx

/-- What happens next. -/
inductive EthAction where
  | fill (seqno : UInt8) (word0 timestamp : UInt32) (len : Nat)
  | background
  | poll (result : EthRx.PollResult)
  | user
  /-- `d_dont_enqueue` is set by a thread that starts or stops streaming. -/
  | dontEnqueue (value : Bool)
  /-- `stop_bg`. -/
  | stop

/-- The state after the action. -/
def ethStep (s : EthRx) : EthAction → Option EthRx
  | .fill seqno word0 timestamp len => s.fill seqno word0 timestamp len
  | .background => s.background
  | .poll result => s.afterPoll result
  | .user => s.userStep
  | .dontEnqueue value => some { s with d_dont_enqueue := value }
  | .stop => some { s with d_bg_running := false }

namespace EthRx

/-- The frames that the handler kept and that were not released. -/
def unreleased (s : EthRx) : List RingDesc :=
  match s.user with
  | .holding d => d :: s.ring
  | _ => s.ring

/-- Each frame is delivered once: the frames passed to the handler are those that the kernel put
into slots, in this order and up to the last one when no other is available; a kept frame stays in
its slot until it is released. -/
structure Delivered (s : EthRx) : Prop where
  order : s.passed <+: s.filled
  complete : s.bg = .first ∨ s.bg = .testing → s.frameAvailable = some false → s.passed = s.filled
  intact : ∀ d ∈ s.unreleased, s.slots[d.slot]? = some ⟨.user, d.frame⟩
  another : ∀ pkt, s.bg = .handling pkt → ∀ d ∈ s.unreleased, d.slot ≠ s.d_head

/-- When `rx_frames` looks for the next frame, fewer frames than there are slots were passed to the
handler since the oldest one that is not released, this one included. -/
def KeepsUp (s : EthRx) : EthAction → Prop
  | .background => s.bg = .testing →
      ∀ d ∈ s.unreleased, s.passed.length < d.frame.base + s.slots.length
  | _ => True

instance (s : EthRx) : ∀ a, Decidable (s.KeepsUp a)
  | .background => inferInstanceAs (Decidable (_ → _))
  | .fill .. | .poll _ | .user | .dontEnqueue _ | .stop => isTrue trivial

end EthRx

end GnuRadio.Usrp2

/-!
## When every frame is delivered once

As long as the user is less than one turn of the ring behind, a slot whose status is not
`TP_STATUS_KERNEL` holds a new frame when the background thread comes to it. Behind that, the
handler is called again for a kept frame, and may have it freed.
-/

namespace GnuRadio.Usrp2

namespace EthRx

/-- The frames in the slots that the kernel does not have. -/
def cells (s : EthRx) (j : Nat) : Option EthFrame :=
  match s.slots[j]? with
  | some ⟨.user, frame⟩ => some frame
  | _ => none

/-- The rounds that `rx_frames` has finished. -/
def rounds (s : EthRx) : Nat :=
  match s.bg with
  | .handling _ | .enqueuing _ | .counting | .releasing | .advancing => s.passed.length - 1
  | _ => s.passed.length

/-- The frames that were passed to the handler and are kept, or free again. -/
def settled (s : EthRx) : Nat :=
  match s.bg with
  | .handling _ | .enqueuing _ | .releasing => s.passed.length - 1
  | _ => s.passed.length

/-- Whether a frame is passed and its round is not over. -/
def inRound (s : EthRx) : Bool :=
  match s.bg with
  | .handling _ | .enqueuing _ | .counting | .releasing | .advancing => true
  | _ => false

/-- The frame that the handler has to decide on. -/
def undecided (s : EthRx) : Option EthFrame :=
  match s.bg with
  | .handling pkt | .enqueuing pkt => some pkt
  | _ => none

/-- The frames that are to be passed or decided on, and the kept ones. -/
def Live (s : EthRx) (i : Nat) : Prop :=
  s.settled ≤ i ∧ i < s.filled.length ∨ ∃ d ∈ s.unreleased, d.frame.base = i

/-- What holds of the ring in every state of a run. -/
structure Sound (N : Nat) (s : EthRx) : Prop where
  size : s.slots.length = N
  order : s.passed = s.filled.take s.passed.length
  round : s.inRound → s.passed ≠ []
  current : ∀ pkt, s.undecided = some pkt → s.filled[s.settled]? = some pkt
  next : s.kernelNext = s.filled.length % N
  head : s.d_head = s.rounds % N
  pos : s.filled ≠ [] → 0 < N
  numbered : ∀ i (frame : EthFrame), s.filled[i]? = some frame → frame.base = i
  kept : ∀ d ∈ s.unreleased, s.filled[d.frame.base]? = some d.frame ∧ d.slot = d.frame.base % N ∧
    d.frame.base < s.settled
  once : (s.unreleased.map fun d => d.frame.base).Nodup
  holds : Ring.Holds N s.cells s.filled s.Live

variable {s : EthRx} {frame : EthFrame} {k : Nat}

theorem cells_eq_some {j : Nat} : s.cells j = some frame ↔ s.slots[j]? = some ⟨.user, frame⟩ := by
  unfold cells
  constructor
  · intro cell
    split at cell
    · rename_i slot
      rw [slot, Option.some.inj cell]
    · cases cell
  · intro slot
    rw [slot]

theorem cells_set {t : EthRx} (inside : k < s.slots.length)
    (filled : t.slots = s.slots.set k ⟨.user, frame⟩) :
    t.cells = Function.update s.cells k (some frame) := by
  funext j
  by_cases here : j = k
  · subst here
    simp [cells, filled, inside]
  · rw [Function.update_of_ne here]
    simp [cells, filled, List.getElem?_set_ne (Ne.symm here)]

theorem cells_free {t : EthRx} (freed : t.slots = (s.free k).slots) :
    t.cells = Function.update s.cells k none := by
  funext j
  by_cases here : j = k
  · subst here
    cases slot : s.slots[j]? with
    | none => simp [cells, freed, free, slot]
    | some hdr => simp [cells, freed, free, slot]
  · rw [Function.update_of_ne here]
    simp [cells, freed, free, Ne.symm here]

theorem incHead_mod {N : Nat} (pos : 0 < N) : incHead N (k % N) = (k + 1) % N := by
  have inside := Nat.mod_lt k pos
  rw [incHead, Ring.cell_add pos (show 1 ≤ N from pos)]
  split
  · omega
  · rfl

theorem sound_initial (N : Nat) : Sound N (initial N) where
  size := List.length_replicate ..
  order := rfl
  round := by simp [inRound, initial]
  current := by simp [undecided, initial]
  next := (Nat.zero_mod N).symm
  head := (Nat.zero_mod N).symm
  pos := by simp [initial]
  numbered := by simp [initial]
  kept := by simp [unreleased, initial]
  once := by simp [unreleased, initial]
  holds := by
    have none : ∀ i, ¬(initial N).Live i := by simp [Live, initial, unreleased]
    refine ⟨fun i live => absurd live (none i), fun j x cell => ?_, fun i live => absurd live (none i)⟩
    rw [cells_eq_some, initial, List.getElem?_replicate] at cell
    split at cell <;> simp at cell

section Steps

variable {N : Nat} {s t : EthRx}

theorem Sound.passed_le (sound : Sound N s) : s.passed.length ≤ s.filled.length := by
  have length := congrArg List.length sound.order
  rw [List.length_take] at length
  omega

theorem settled_le : s.settled ≤ s.passed.length := by
  unfold settled
  split <;> omega

section

variable (sound : Sound N s)
include sound

theorem Sound.control (slots : t.slots = s.slots) (kernelNext : t.kernelNext = s.kernelNext)
    (d_head : t.d_head = s.d_head) (filled : t.filled = s.filled) (passed : t.passed = s.passed)
    (unreleased : t.unreleased = s.unreleased) (rounds : t.rounds = s.rounds)
    (settled : t.settled = s.settled) (inRound : t.inRound → s.inRound)
    (undecided : ∀ pkt, t.undecided = some pkt → s.undecided = some pkt) : Sound N t where
  size := by rw [slots, sound.size]
  order := by rw [passed, filled, ← sound.order]
  round inside := by
    rw [passed]
    exact sound.round (inRound inside)
  current pkt here := by
    rw [filled, settled]
    exact sound.current pkt (undecided pkt here)
  next := by rw [kernelNext, filled, sound.next]
  head := by rw [d_head, rounds, sound.head]
  pos := by
    rw [filled]
    exact sound.pos
  numbered := by
    rw [filled]
    exact sound.numbered
  kept := by
    rw [unreleased, filled, settled]
    exact sound.kept
  once := by
    rw [unreleased]
    exact sound.once
  holds := by
    have cells : t.cells = s.cells := by
      funext j
      simp [EthRx.cells, slots]
    have live : ∀ i, s.Live i ↔ t.Live i := by simp [Live, settled, filled, unreleased]
    rw [cells, filled]
    exact sound.holds.congr live

theorem Sound.fill {seqno : UInt8} {word0 timestamp : UInt32} {len : Nat}
    (done : s.fill seqno word0 timestamp len = some t) : Sound N t := by
  unfold EthRx.fill at done
  split at done
  · rename_i old slot
    obtain rfl := Option.some.inj done
    have inside : s.kernelNext < s.slots.length := (List.getElem?_eq_some_iff.mp slot).1
    have pos : 0 < N := by
      rw [← sound.size]
      exact Nat.zero_lt_of_lt inside
    have free : s.cells (s.filled.length % N) = none := by
      rw [← sound.next]
      simp [cells, slot]
    have within := sound.passed_le
    have before : s.settled ≤ s.filled.length := settled_le.trans within
    have early : ∀ {i : Nat} {frame : EthFrame}, s.filled[i]? = some frame →
        ∀ x, (s.filled ++ [x])[i]? = some frame := by
      intro i frame item x
      rw [List.getElem?_append_left (List.getElem?_eq_some_iff.mp item).1, item]
    refine ⟨?_, ?_, sound.round, ?_, ?_, sound.head, fun _ => pos, ?_, ?_, sound.once, ?_⟩
    · rw [List.length_set, sound.size]
    · show s.passed = (s.filled ++ [_]).take s.passed.length
      rw [List.take_append_of_le_length within]
      exact sound.order
    · exact fun pkt here => early (sound.current pkt here) _
    · show incHead s.slots.length s.kernelNext = (s.filled ++ [_]).length % N
      rw [sound.size, sound.next, incHead_mod pos, List.length_append, List.length_singleton]
    · intro i frame item
      rcases Nat.lt_trichotomy i s.filled.length with less | same | more
      · exact sound.numbered i frame (by rwa [List.getElem?_append_left less] at item)
      · subst same
        simp at item
        rw [← item]
      · have inside := (List.getElem?_eq_some_iff.mp item).1
        simp at inside
        omega
    · intro d member
      obtain ⟨item, rest⟩ := sound.kept d member
      exact ⟨early item _, rest⟩
    · rw [cells_set inside rfl, sound.next]
      refine (sound.holds.push pos free _).congr fun i => ?_
      show s.Live i ∨ i = s.filled.length ↔
        s.settled ≤ i ∧ i < (s.filled ++ [_]).length ∨ ∃ d ∈ s.unreleased, d.frame.base = i
      rw [Live, List.length_append, List.length_singleton]
      grind
  · cases done

theorem Sound.pass (here : s.bg = .testing) {pkt : EthFrame}
    (slot : s.slots[s.d_head]? = some ⟨.user, pkt⟩)
    (near : ∀ d ∈ s.unreleased, s.passed.length < d.frame.base + s.slots.length) :
    Sound N { s with passed := s.passed ++ [pkt], bg := .handling pkt } := by
  have rounds : s.rounds = s.passed.length := by simp [EthRx.rounds, here]
  have settled : s.settled = s.passed.length := by simp [EthRx.settled, here]
  have cell := cells_eq_some.mpr slot
  rw [sound.head, rounds] at cell
  obtain ⟨live, item⟩ := sound.holds.here cell (fun i live before => by
      rcases live with ⟨pending, -⟩ | ⟨d, member, rfl⟩
      · omega
      · exact sound.size ▸ near d member)
    (fun less => Or.inl ⟨settled.le, less⟩)
  have less := sound.holds.lt live
  refine ⟨sound.size, ?_, fun _ => by simp, ?_, sound.next, ?_, sound.pos, sound.numbered, ?_,
    sound.once, ?_⟩
  · show s.passed ++ [pkt] = s.filled.take (s.passed ++ [pkt]).length
    rw [List.length_append, List.length_singleton, List.take_add_one, item, ← sound.order]
    rfl
  · intro pkt' same
    obtain rfl : pkt = pkt' := Option.some.inj same
    simpa [EthRx.settled] using item
  · show s.d_head = ((s.passed ++ [pkt]).length - 1) % N
    rw [sound.head, rounds]
    simp
  · have kept := sound.kept
    simpa [EthRx.settled, here, unreleased] using kept
  · refine sound.holds.congr fun i => ?_
    simp [Live, EthRx.settled, here, unreleased]

theorem Sound.keep {pkt : EthFrame} (here : s.bg = .enqueuing pkt) :
    Sound N { s with ring := s.ring ++ [⟨s.d_head, pkt⟩], bg := .counting } := by
  have nonempty := List.length_pos_iff.mpr (sound.round (by simp [inRound, here]))
  have settled : s.settled = s.passed.length - 1 := by simp [EthRx.settled, here]
  have rounds : s.rounds = s.passed.length - 1 := by simp [EthRx.rounds, here]
  have item := sound.current pkt (by simp [undecided, here])
  have base := sound.numbered _ pkt item
  set t : EthRx := { s with ring := s.ring ++ [⟨s.d_head, pkt⟩], bg := .counting } with made
  have unreleased : t.unreleased = s.unreleased ++ [⟨s.d_head, pkt⟩] := by
    rw [made]
    cases user : s.user <;> simp [EthRx.unreleased, user]
  have settled' : t.settled = s.passed.length := by simp [EthRx.settled, made]
  refine ⟨sound.size, sound.order, fun _ => List.length_pos_iff.mp nonempty, ?_, sound.next, ?_,
    sound.pos, sound.numbered, ?_, ?_, ?_⟩
  · simp [undecided, made]
  · rw [show t.rounds = s.rounds by simp [EthRx.rounds, made, here]]
    exact sound.head
  · intro d member
    rw [unreleased, List.mem_append, List.mem_singleton] at member
    rcases member with old | rfl
    · obtain ⟨there, place, before⟩ := sound.kept d old
      exact ⟨there, place, settled' ▸ before.trans_le settled_le⟩
    · refine ⟨?_, ?_, ?_⟩
      · rw [base]
        exact item
      · rw [base, settled, ← rounds]
        exact sound.head
      · show pkt.base < t.settled
        omega
  · rw [unreleased, List.map_append, List.nodup_append]
    refine ⟨sound.once, by simp, fun i old j new => ?_⟩
    obtain ⟨d, member, rfl⟩ := List.mem_map.mp old
    rw [List.map_singleton, List.mem_singleton] at new
    have before := (sound.kept d member).2.2
    rw [new, base]
    exact before.ne
  · refine sound.holds.congr fun i => ?_
    have less := (List.getElem?_eq_some_iff.mp item).1
    have filled : t.filled = s.filled := rfl
    rw [Live, Live, settled', unreleased, filled]
    simp only [List.mem_append, List.mem_singleton]
    grind

theorem Sound.discard (here : s.bg = .releasing) :
    Sound N { s.free s.d_head with bg := .advancing } := by
  have nonempty := List.length_pos_iff.mpr (sound.round (by simp [inRound, here]))
  have settled : s.settled = s.passed.length - 1 := by simp [EthRx.settled, here]
  have rounds : s.rounds = s.passed.length - 1 := by simp [EthRx.rounds, here]
  have within := sound.passed_le
  set t : EthRx := { s.free s.d_head with bg := .advancing } with made
  have unreleased : t.unreleased = s.unreleased := rfl
  have filled : t.filled = s.filled := rfl
  have settled' : t.settled = s.passed.length := by simp [EthRx.settled, made, free]
  have now : s.Live s.settled := Or.inl ⟨le_rfl, by omega⟩
  refine ⟨?_, sound.order, fun _ => List.length_pos_iff.mp nonempty, ?_, sound.next, ?_,
    sound.pos, sound.numbered, ?_, sound.once, ?_⟩
  · rw [← sound.size, made]
    exact List.length_modify ..
  · simp [undecided, made]
  · rw [show t.rounds = s.rounds by simp [EthRx.rounds, made, here, free]]
    exact sound.head
  · intro d member
    obtain ⟨there, place, before⟩ := sound.kept d member
    exact ⟨there, place, by omega⟩
  · rw [cells_free (t := t) (s := s) (k := s.d_head) rfl, sound.head, rounds, ← settled]
    refine (sound.holds.drop now).congr fun i => ?_
    have kept := sound.kept
    rw [Live, Live, settled', unreleased, filled]
    grind

theorem Sound.advance (here : s.bg = .advancing) :
    Sound N { s with d_head := incHead s.slots.length s.d_head, bg := .testing } := by
  have nonempty := List.length_pos_iff.mpr (sound.round (by simp [inRound, here]))
  have settled : s.settled = s.passed.length := by simp [EthRx.settled, here]
  have rounds : s.rounds = s.passed.length - 1 := by simp [EthRx.rounds, here]
  have within := sound.passed_le
  have pos : 0 < N := sound.pos (List.length_pos_iff.mp (nonempty.trans_le within))
  refine ⟨sound.size, sound.order, by simp [inRound], by simp [undecided], sound.next, ?_, sound.pos,
    sound.numbered, ?_, sound.once, ?_⟩
  · show incHead s.slots.length s.d_head = s.passed.length % N
    rw [sound.size, sound.head, rounds, incHead_mod pos, Nat.sub_add_cancel nonempty]
  · have kept := sound.kept
    rw [settled] at kept
    exact kept
  · refine sound.holds.congr fun i => ?_
    rw [Live, settled]
    rfl

theorem Sound.release {d : RingDesc} (here : s.user = .holding d) :
    Sound N { s.free d.slot with user := .released } := by
  have unreleased : s.unreleased = d :: s.ring := by simp [EthRx.unreleased, here]
  have once := sound.once
  rw [unreleased, List.map_cons, List.nodup_cons] at once
  obtain ⟨-, place, before⟩ := sound.kept d (by simp [unreleased])
  set t : EthRx := { s.free d.slot with user := .released } with made
  have rest : t.unreleased = s.ring := by simp [EthRx.unreleased, made, free]
  have filled : t.filled = s.filled := rfl
  have settled : t.settled = s.settled := rfl
  have now : s.Live d.frame.base := Or.inr ⟨d, by simp [unreleased], rfl⟩
  refine ⟨?_, sound.order, sound.round, sound.current, sound.next, sound.head, sound.pos,
    sound.numbered, ?_, ?_, ?_⟩
  · rw [← sound.size, made]
    exact List.length_modify ..
  · intro d' member
    rw [rest] at member
    exact sound.kept d' (by simp [unreleased, member])
  · rw [rest]
    exact once.2
  · rw [cells_free (t := t) (s := s) (k := d.slot) rfl, place]
    refine (sound.holds.drop now).congr fun i => ?_
    have first := once.1
    rw [Live, Live, settled, rest, filled, unreleased]
    simp only [List.mem_map, not_exists, not_and, List.mem_cons] at first ⊢
    grind

theorem Sound.background (met : s.KeepsUp .background) (next : s.background = some t) :
    Sound N t := by
  unfold EthRx.background at next
  cases here : s.bg with
  | first =>
    simp only [here, Option.map_eq_some_iff] at next
    obtain ⟨available, -, rfl⟩ := next
    apply sound.control <;> try rfl
    all_goals cases available <;> simp [rounds, settled, inRound, undecided, here]
  | testing =>
    simp only [here] at next
    split at next
    · cases next
    · obtain rfl := Option.some.inj next
      apply sound.control <;> try rfl
      all_goals simp [rounds, settled, inRound, undecided, here]
    · rename_i pkt slot
      obtain rfl := Option.some.inj next
      exact sound.pass here slot (met here)
  | handling pkt =>
    simp only [here] at next
    split at next
    all_goals
      obtain rfl := Option.some.inj next
      apply sound.control <;> try rfl
      all_goals simp [rounds, settled, inRound, undecided, here]
  | enqueuing pkt =>
    simp only [here, enqueuePacket, Option.some.injEq] at next
    split at next
    · subst next
      apply sound.control <;> try rfl
      all_goals simp [rounds, settled, inRound, undecided, here]
    · split at next
      · subst next
        apply sound.control <;> try rfl
        all_goals simp [rounds, settled, inRound, undecided, here]
      · subst next
        exact sound.keep here
  | releasing =>
    simp only [here, Option.some.injEq] at next
    subst next
    exact sound.discard here
  | advancing =>
    simp only [here, Option.some.injEq] at next
    subst next
    exact sound.advance here
  | counting =>
    simp only [here, Option.some.injEq] at next
    subst next
    apply sound.control <;> try rfl
    all_goals simp [rounds, settled, inRound, undecided, here]
  | checking =>
    simp only [here, Option.some.injEq] at next
    subst next
    apply sound.control <;> try rfl
    all_goals split <;> (try split) <;> simp [rounds, settled, inRound, undecided, here]
  | waiting =>
    simp only [here, Option.some.injEq] at next
    subst next
    apply sound.control <;> try rfl
    all_goals simp [rounds, settled, inRound, undecided, here]
  | polling | stopped => simp [here] at next

theorem Sound.userStep (next : s.userStep = some t) : Sound N t := by
  unfold EthRx.userStep at next
  cases here : s.user with
  | idle =>
    simp only [here] at next
    split at next
    · cases next
    · rename_i d rest ring
      obtain rfl := Option.some.inj next
      apply sound.control <;> try rfl
      all_goals simp [unreleased, here, ring, inRound, undecided]
  | holding d =>
    simp only [here, Option.some.injEq] at next
    subst next
    exact sound.release here
  | released =>
    simp only [here, Option.some.injEq] at next
    subst next
    apply sound.control <;> try rfl
    all_goals simp [unreleased, here, inRound, undecided]

theorem Sound.step {action : EthAction} (met : s.KeepsUp action)
    (next : ethStep s action = some t) : Sound N t := by
  cases action with
  | fill seqno word0 timestamp len => exact sound.fill next
  | background => exact sound.background met next
  | poll result =>
    simp only [ethStep, afterPoll] at next
    split at next
    · rename_i polling
      obtain rfl := Option.some.inj next
      apply sound.control <;> try rfl
      all_goals cases result <;> simp [rounds, settled, inRound, undecided, polling]
    · cases next
  | user => exact sound.userStep next
  | dontEnqueue | stop =>
    obtain rfl := Option.some.inj next
    apply sound.control <;> try rfl
    all_goals simp [inRound, undecided]

theorem Sound.complete (looking : s.bg = .first ∨ s.bg = .testing)
    (nothing : s.frameAvailable = some false) : s.passed = s.filled := by
  have rounds : s.rounds = s.passed.length := by rcases looking with h | h <;> simp [EthRx.rounds, h]
  have settled : s.settled = s.passed.length := by
    rcases looking with h | h <;> simp [EthRx.settled, h]
  have all : s.filled.length ≤ s.passed.length := by
    by_contra more
    obtain ⟨x, -, cell⟩ := sound.holds.held s.passed.length (Or.inl ⟨settled.le, by omega⟩)
    rw [← rounds, ← sound.head] at cell
    simp [frameAvailable, cells_eq_some.mp cell] at nothing
  rw [sound.order, List.take_of_length_le all]

theorem Sound.delivered : s.Delivered where
  order := by
    rw [sound.order]
    exact List.take_prefix ..
  complete := sound.complete
  intact d member := by
    obtain ⟨item, place, -⟩ := sound.kept d member
    obtain ⟨x, same, cell⟩ := sound.holds.held d.frame.base (Or.inr ⟨d, member, rfl⟩)
    obtain rfl := Option.some.inj (item.symm.trans same)
    rw [place]
    exact cells_eq_some.mp cell
  another pkt handling d member same := by
    have nonempty := List.length_pos_iff.mpr (sound.round (by simp [inRound, handling]))
    have settled : s.settled = s.passed.length - 1 := by simp [EthRx.settled, handling]
    have rounds : s.rounds = s.passed.length - 1 := by simp [EthRx.rounds, handling]
    have within := sound.passed_le
    obtain ⟨-, place, before⟩ := sound.kept d member
    have cell : d.frame.base % N = s.settled % N := by
      rw [← place, same, sound.head, rounds, settled]
    have equal := sound.holds.cell_inj (Or.inr ⟨d, member, rfl⟩) (Or.inl ⟨le_rfl, by omega⟩) cell
    exact before.ne equal

end

end Steps

end EthRx

/-- The frames are delivered once as long as the user is less than one turn of the ring behind when
`rx_frames` looks for the next frame. -/
theorem frames_delivered_once (N : Nat) {actions : List EthAction} {s : EthRx}
    (met : Throughout EthRx.KeepsUp ethStep (.initial N) actions)
    (reached : run ethStep (.initial N) actions = some s) : s.Delivered :=
  (run_invariant_of (EthRx.Sound N) (fun _ _ _ sound met next => sound.step met next)
    (EthRx.sound_initial N) met reached).delivered

namespace EthRx

/-- Two frames, of which the first is kept. -/
def keptRun : List EthAction :=
  [.fill 0 0 0 64, .fill 1 0 0 64, .dontEnqueue false] ++ List.replicate 6 .background

/-- The first frame is released before the second is passed. -/
theorem frames_delivered_once_released :
    ∃ s, run ethStep (initial 2) (keptRun ++ [.user, .user, .user] ++
        List.replicate 6 .background) = some s ∧
      s.passed.map (·.base) = [0, 1] ∧ s.Delivered := by
  have ran : (run ethStep (initial 2) (keptRun ++ [.user, .user, .user] ++
      List.replicate 6 .background)).map (·.passed.map (·.base)) = some [0, 1] := by decide +kernel
  obtain ⟨s, reached, passed⟩ := Option.map_eq_some_iff.mp ran
  exact ⟨s, reached, passed, frames_delivered_once 2 (by decide +kernel) reached⟩

/-- The second frame finds the ring of the channel full. `rx_frames` comes back to the first one, calls
the handler again for it, and marks its slot free. -/
theorem kept_frame_passed_again :
    ∃ s, run ethStep (initial 2) (keptRun ++ List.replicate 9 .background) = some s ∧
      s.passed.map (·.base) = [0, 1, 0] ∧ (s.unreleased.map (·.slot)) = [0] ∧
      (s.slots.map (·.tp_status)) = [.kernel, .kernel] ∧ ¬s.Delivered := by
  have ran : (run ethStep (initial 2) (keptRun ++ List.replicate 9 .background)).map (fun s =>
      (s.passed.map (·.base), s.unreleased.map (·.slot), s.slots.map (·.tp_status),
        s.filled.length)) = some ([0, 1, 0], [0], [.kernel, .kernel], 2) := by decide +kernel
  obtain ⟨s, reached, seen⟩ := Option.map_eq_some_iff.mp ran
  simp only [Prod.mk.injEq] at seen
  obtain ⟨passed, unreleased, slots, filled⟩ := seen
  refine ⟨s, reached, passed, unreleased, slots, fun delivered => ?_⟩
  have within := delivered.order.length_le
  have three := congrArg List.length passed
  simp at three
  omega

end EthRx

end GnuRadio.Usrp2
