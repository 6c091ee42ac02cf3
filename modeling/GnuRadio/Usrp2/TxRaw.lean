import GnuRadio.Misc.Parties
import GnuRadio.Misc.Trace

/-!
# Sending samples to the USRP2

`usrp2::impl::tx_raw` cuts its items into frames (`usrp2_impl.cc:1140-1205`). Any number of calls
and of control commands are under way at a time. They share the transport sequence number, and a
header is initialised in one step; the rest of a turn of the loop of `tx_raw` concerns its own call
only. The frames are known in the order of their headers.
-/

namespace GnuRadio

/-- `U2_MAX_SAMPLES` (`usrp2_eth_packet.h:153`). -/
def u2MaxSamples : Nat := 370

/-- `U2_MIN_SAMPLES` (`usrp2_eth_packet.h:154`). -/
def u2MinSamples : Nat := 10

/-- `CONTROL_CHAN` (`usrp2_eth_packet.h:103`). -/
def controlChan : BitVec 32 := 0x1f#32

/-- `U2P_TX_IMMEDIATE`, `U2P_TX_START_OF_BURST` and `U2P_TX_END_OF_BURST`
(`usrp2_eth_packet.h:97-99`). -/
def u2pTxImmediate : BitVec 32 := 4#32

def u2pTxStartOfBurst : BitVec 32 := 2#32

def u2pTxEndOfBurst : BitVec 32 := 1#32

/-- `tx_metadata` (`metadata.h:53-62`). -/
structure TxMetadata where
  timestamp : BitVec 32
  sendNow : Bool
  startOfBurst : Bool
  endOfBurst : Bool
  deriving DecidableEq

/-- What the headers of a frame say, in host order. -/
structure TxHeader where
  seqno : BitVec 8
  ack : BitVec 8
  word0 : BitVec 32
  timestamp : BitVec 32
  deriving DecidableEq

/-- `u2p_set_word0` (`usrp2_eth_packet.h:123-128`). -/
def u2pWord0 (flags chan : BitVec 32) : BitVec 32 :=
  (flags &&& 0x7#32) ||| ((chan &&& 0x1f#32) <<< 27)

/-- `init_et_hdrs` (`usrp2_impl.cc:252-261`): the sequence number of the frame and `d_tx_seqno`
after. -/
def initEtHdrs (txSeqno : BitVec 32) : BitVec 8 × BitVec 32 := (txSeqno.setWidth 8, txSeqno + 1#32)

/-- `init_etf_hdrs` (`usrp2_impl.cc:263-275`). -/
def initEtfHdrs (txSeqno word0Flags chan timestamp : BitVec 32) : TxHeader × BitVec 32 :=
  let (seqno, txSeqno) := initEtHdrs txSeqno
  if chan = controlChan then (⟨0#8, 0#8, u2pWord0 word0Flags chan, timestamp⟩, txSeqno - 1#32)
  else (⟨seqno, 0#8, u2pWord0 word0Flags chan, timestamp⟩, txSeqno)

/-- A call of `tx_raw` with the variables of its loop. -/
structure TxCall where
  channel : BitVec 32
  items : List (BitVec 32)
  metadata : TxMetadata
  fn : Nat
  n : Nat
  deriving DecidableEq

/-- What the call was given. -/
def TxCall.request (call : TxCall) : BitVec 32 × List (BitVec 32) × TxMetadata :=
  (call.channel, call.items, call.metadata)

/-- A frame that is handed to `tx_framev` or `tx_frame`, with the channel that its header was
initialised for. -/
structure TxFrame where
  chan : BitVec 32
  hdrs : TxHeader
  payload : List (BitVec 32)
  deriving DecidableEq

namespace TxCall

def nframes (call : TxCall) : Nat := (call.items.length + u2MaxSamples - 1) / u2MaxSamples

def timestamp (call : TxCall) : BitVec 32 := if call.fn = 0 then call.metadata.timestamp else 0#32

def flags (call : TxCall) : BitVec 32 :=
  let flags := if call.fn = 0 ∧ call.metadata.sendNow then u2pTxImmediate else 0#32
  let flags := if call.fn = 0 ∧ call.metadata.startOfBurst then flags ||| u2pTxStartOfBurst
    else flags
  let flags := if 0 < call.fn then flags ||| u2pTxImmediate else flags
  if call.fn = call.nframes - 1 ∧ call.metadata.endOfBurst then flags ||| u2pTxEndOfBurst else flags

/-- `i`, the number of items in a frame: the last two frames share what is left when the last
would be short. -/
def count (call : TxCall) : Nat :=
  let left := call.items.length - call.n
  if u2MaxSamples < left ∧ left < u2MaxSamples + u2MinSamples then left / 2
  else min u2MaxSamples left

/-- A turn of the loop (`usrp2_impl.cc:1159-1201`) with a transmission that succeeds: the call, the
sequence number after, and the frame. -/
def turn (call : TxCall) (txSeqno : BitVec 32) : TxCall × BitVec 32 × TxFrame :=
  let (hdrs, txSeqno) := initEtfHdrs txSeqno call.flags call.channel call.timestamp
  ({ call with
      fn := call.fn + 1
      n := call.n + call.count },
    txSeqno, ⟨call.channel, hdrs, (call.items.drop call.n).take call.count⟩)

/-- The call is at its end. Without items it ends before the loop. -/
def Returned (call : TxCall) : Prop := call.nframes ≤ call.fn

end TxCall

/-- The host object: its calls of `tx_raw`, known by the number of their beginning, and the frames
in the order of their headers, each with the number of its call. -/
structure TxHost where
  txSeqno : BitVec 32
  calls : List TxCall
  frames : List (Option Nat × TxFrame)

/-- What happens at the host object. -/
inductive TxAction where
  /-- `tx_raw` is called. -/
  | txRaw (channel : BitVec 32) (items : List (BitVec 32)) (metadata : TxMetadata)
  /-- A call of `tx_raw` makes a turn of its loop. -/
  | turn (c : Nat)
  /-- A command of the host object initialises its header and is sent. -/
  | command (timestamp : BitVec 32) (payload : List (BitVec 32))

namespace TxHost

/-- The host object as it is constructed (`usrp2_impl.cc:134`). -/
def init : TxHost := ⟨0#32, [], []⟩

/-- One step of the host: a call, a turn of its loop, or a command. -/
def step (h : TxHost) : TxAction → Option TxHost
  | .txRaw channel items metadata =>
    some { h with calls := h.calls ++ [⟨channel, items, metadata, 0, 0⟩] }
  | .turn c =>
    match h.calls[c]? with
    | none => none
    | some call =>
      if call.fn < call.nframes then
        let (call, txSeqno, frame) := call.turn h.txSeqno
        some ⟨txSeqno, h.calls.set c call, h.frames ++ [(some c, frame)]⟩
      else none
  | .command timestamp payload =>
    let (hdrs, txSeqno) := initEtfHdrs h.txSeqno 0#32 controlChan timestamp
    some { h with
      txSeqno
      frames := h.frames ++ [(none, ⟨controlChan, hdrs, payload⟩)] }

/-- The frames of one call. -/
def framesOf (h : TxHost) (c : Nat) : List TxFrame :=
  h.frames.filterMap fun entry => if entry.1 = some c then some entry.2 else none

/-- The frames for the data channels. -/
def dataFrames (h : TxHost) : List TxFrame :=
  (h.frames.map Prod.snd).filter fun frame => frame.chan ≠ controlChan

end TxHost

/-- What the calls of `tx_raw` were given, in the order in which they began. -/
def requests (actions : List TxAction) : List (BitVec 32 × List (BitVec 32) × TxMetadata) :=
  actions.filterMap fun action => match action with
    | .txRaw channel items metadata => some (channel, items, metadata)
    | _ => none

/-- The frames that `tx_raw` makes of its items. -/
structure Fragments (items : List (BitVec 32)) (metadata : TxMetadata) (frames : List TxFrame) :
    Prop where
  payloads : (frames.map TxFrame.payload).flatten = items
  most : ∀ frame ∈ frames, frame.payload.length ≤ u2MaxSamples
  least : u2MinSamples ≤ items.length → ∀ frame ∈ frames, u2MinSamples ≤ frame.payload.length
  timestamps : ∀ k frame, frames[k]? = some frame →
    frame.hdrs.timestamp = if k = 0 then metadata.timestamp else 0#32
  starts : ∀ k frame, frames[k]? = some frame →
    (frame.hdrs.word0 &&& u2pTxStartOfBurst ≠ 0#32 ↔ k = 0 ∧ metadata.startOfBurst = true)
  ends : ∀ k frame, frames[k]? = some frame → (frame.hdrs.word0 &&& u2pTxEndOfBurst ≠ 0#32 ↔
    k + 1 = frames.length ∧ metadata.endOfBurst = true)

/-! ## The headers -/

theorem word0_and (flags chan : BitVec 32) {mask : BitVec 32} (small : mask &&& 7#32 = mask) :
    u2pWord0 flags chan &&& mask = flags &&& mask := by
  have high : (chan &&& 0x1f#32) <<< 27 &&& 7#32 = 0#32 := by
    apply BitVec.eq_of_getLsbD_eq
    intro i inside
    rw [BitVec.getLsbD_and, BitVec.getLsbD_shiftLeft]
    by_cases low : i < 27
    · simp [low]
    · have place : i = 27 ∨ i = 28 ∨ i = 29 ∨ i = 30 ∨ i = 31 := by omega
      rcases place with rfl | rfl | rfl | rfl | rfl <;> simp
  have seven : 7#32 &&& mask = mask := by rw [BitVec.and_comm, small]
  have none : (chan &&& 0x1f#32) <<< 27 &&& mask = 0#32 := by
    rw [← seven, ← BitVec.and_assoc, high, BitVec.zero_and]
  rw [u2pWord0, BitVec.and_or_distrib_right, none, BitVec.or_zero, BitVec.and_assoc, seven]

theorem initEtfHdrs_control (txSeqno flags timestamp : BitVec 32) :
    (initEtfHdrs txSeqno flags controlChan timestamp).2 = txSeqno := by
  rw [initEtfHdrs]
  dsimp only [initEtHdrs]
  rw [if_pos rfl]
  exact BitVec.add_sub_cancel txSeqno 1#32

theorem initEtfHdrs_data (txSeqno flags timestamp : BitVec 32) {chan : BitVec 32}
    (data : chan ≠ controlChan) : initEtfHdrs txSeqno flags chan timestamp =
      (⟨txSeqno.setWidth 8, 0#8, u2pWord0 flags chan, timestamp⟩, txSeqno + 1#32) := by
  rw [initEtfHdrs]
  dsimp only [initEtHdrs]
  rw [if_neg data]

theorem initEtfHdrs_fixed (txSeqno flags chan timestamp : BitVec 32) :
    (initEtfHdrs txSeqno flags chan timestamp).1.word0 = u2pWord0 flags chan ∧
      (initEtfHdrs txSeqno flags chan timestamp).1.timestamp = timestamp := by
  unfold initEtfHdrs
  dsimp only
  split
  · exact ⟨rfl, rfl⟩
  · exact ⟨rfl, rfl⟩

namespace TxCall

theorem flag_bits : ∀ now start later last : Bool,
    let flags := if now then u2pTxImmediate else 0#32
    let flags := if start then flags ||| u2pTxStartOfBurst else flags
    let flags := if later then flags ||| u2pTxImmediate else flags
    let flags := if last then flags ||| u2pTxEndOfBurst else flags
    (flags &&& u2pTxStartOfBurst ≠ 0#32 ↔ start = true) ∧
      (flags &&& u2pTxEndOfBurst ≠ 0#32 ↔ last = true) := by
  decide

theorem flags_and (call : TxCall) :
    (call.flags &&& u2pTxStartOfBurst ≠ 0#32 ↔
      call.fn = 0 ∧ call.metadata.startOfBurst = true) ∧
    (call.flags &&& u2pTxEndOfBurst ≠ 0#32 ↔
      call.fn = call.nframes - 1 ∧ call.metadata.endOfBurst = true) := by
  have bits := flag_bits (decide (call.fn = 0 ∧ call.metadata.sendNow))
    (decide (call.fn = 0 ∧ call.metadata.startOfBurst)) (decide (0 < call.fn))
    (decide (call.fn = call.nframes - 1 ∧ call.metadata.endOfBurst))
  simp only [decide_eq_true_iff] at bits
  exact bits

/-- How far a call is: `frames` are those it sent so far. -/
structure Sent (call : TxCall) (frames : List TxFrame) : Prop where
  payloads : (frames.map TxFrame.payload).flatten = call.items.take call.n
  inside : call.n ≤ call.items.length
  turns : frames.length = call.fn
  remaining : call.fn + (call.items.length - call.n + u2MaxSamples - 1) / u2MaxSamples =
    call.nframes
  enough : u2MinSamples ≤ call.items.length →
    call.n = call.items.length ∨ u2MinSamples ≤ call.items.length - call.n
  most : ∀ frame ∈ frames, frame.payload.length ≤ u2MaxSamples
  least : u2MinSamples ≤ call.items.length → ∀ frame ∈ frames,
    u2MinSamples ≤ frame.payload.length
  timestamps : ∀ k frame, frames[k]? = some frame →
    frame.hdrs.timestamp = if k = 0 then call.metadata.timestamp else 0#32
  starts : ∀ k frame, frames[k]? = some frame →
    (frame.hdrs.word0 &&& u2pTxStartOfBurst ≠ 0#32 ↔ k = 0 ∧ call.metadata.startOfBurst = true)
  ends : ∀ k frame, frames[k]? = some frame → (frame.hdrs.word0 &&& u2pTxEndOfBurst ≠ 0#32 ↔
    k = call.nframes - 1 ∧ call.metadata.endOfBurst = true)

theorem Sent.nil (channel : BitVec 32) (items : List (BitVec 32)) (metadata : TxMetadata) :
    Sent ⟨channel, items, metadata, 0, 0⟩ [] where
  payloads := rfl
  inside := Nat.zero_le _
  turns := rfl
  remaining := Nat.zero_add _
  enough := fun long => Or.inr long
  most := fun frame member => absurd member List.not_mem_nil
  least := fun _ frame member => absurd member List.not_mem_nil
  timestamps := fun k frame found => by simp at found
  starts := fun k frame found => by simp at found
  ends := fun k frame found => by simp at found

variable {call : TxCall} {frames : List TxFrame}

/-- The next turns have a frame less to send, and are not left with a short one. -/
theorem count_spec (more : call.n < call.items.length) :
    call.n + call.count ≤ call.items.length ∧ call.count ≤ u2MaxSamples ∧
      (u2MinSamples ≤ call.items.length - call.n → u2MinSamples ≤ call.count) ∧
      (u2MinSamples ≤ call.items.length - call.n → call.n + call.count = call.items.length ∨
        u2MinSamples ≤ call.items.length - (call.n + call.count)) ∧
      (call.items.length - (call.n + call.count) + u2MaxSamples - 1) / u2MaxSamples + 1 =
        (call.items.length - call.n + u2MaxSamples - 1) / u2MaxSamples := by
  rw [count]
  by_cases short : u2MaxSamples < call.items.length - call.n ∧
      call.items.length - call.n < u2MaxSamples + u2MinSamples
  · rw [if_pos short]
    dsimp only [u2MaxSamples, u2MinSamples] at *
    omega
  · rw [if_neg short]
    dsimp only [u2MaxSamples, u2MinSamples] at *
    omega

theorem place_append {P : Nat → TxFrame → Prop} {last : TxFrame}
    (before : ∀ k frame, frames[k]? = some frame → P k frame) (now : P frames.length last) (k : Nat)
    (frame : TxFrame) (found : (frames ++ [last])[k]? = some frame) : P k frame := by
  rcases Nat.lt_or_ge k frames.length with old | new
  · rw [List.getElem?_append_left old] at found
    exact before k frame found
  · rw [List.getElem?_append_right new] at found
    have place : k = frames.length := by
      have bound := (List.getElem?_eq_some_iff.mp found).1
      rw [List.length_singleton] at bound
      omega
    subst place
    rw [Nat.sub_self] at found
    obtain rfl := Option.some.inj found
    exact now

theorem Sent.turn (sent : call.Sent frames)
    (goesOn : call.fn < call.nframes) (txSeqno : BitVec 32) :
    (call.turn txSeqno).1.Sent (frames ++ [(call.turn txSeqno).2.2]) := by
  have more : call.n < call.items.length := by
    have remaining := sent.remaining
    have inside := sent.inside
    simp only [u2MaxSamples] at remaining
    by_contra none
    have all : call.items.length - call.n = 0 := by omega
    rw [all] at remaining
    omega
  obtain ⟨fits, most, least, enough, remaining⟩ := count_spec more
  have length : ((call.items.drop call.n).take call.count).length = call.count := by
    rw [List.length_take, List.length_drop]
    omega
  have fixed := initEtfHdrs_fixed txSeqno call.flags call.channel call.timestamp
  have flags := call.flags_and
  have turns := sent.turns
  exact
    { payloads := by
        rw [List.map_append, List.flatten_append, sent.payloads, List.map_singleton,
          List.flatten_singleton]
        exact List.take_add.symm
      inside := fits
      turns := by
        rw [List.length_append, List.length_singleton, turns]
        rfl
      remaining := by
        have before := sent.remaining
        rw [← remaining, ← Nat.add_assoc, Nat.add_right_comm] at before
        exact before
      enough := fun long => by
        rcases sent.enough long with done | left
        · omega
        · exact enough left
      most := fun frame member => by
        rcases List.mem_append.mp member with old | new
        · exact sent.most frame old
        · rw [List.mem_singleton.mp new]
          exact Nat.le_trans (Nat.le_of_eq length) most
      least := fun long frame member => by
        rcases List.mem_append.mp member with old | new
        · exact sent.least long frame old
        · rw [List.mem_singleton.mp new]
          rcases sent.enough long with done | left
          · omega
          · exact Nat.le_trans (least left) (Nat.le_of_eq length.symm)
      timestamps := place_append sent.timestamps (by
        rw [turns]
        exact fixed.2)
      starts := place_append sent.starts (by
        rw [turns]
        change initEtfHdrs .. |>.1.word0 &&& _ ≠ _ ↔ _
        rw [fixed.1, word0_and _ _ (by decide)]
        exact flags.1)
      ends := place_append sent.ends (by
        rw [turns]
        change initEtfHdrs .. |>.1.word0 &&& _ ≠ _ ↔ _
        rw [fixed.1, word0_and _ _ (by decide)]
        exact flags.2) }

theorem Sent.fragments (sent : call.Sent frames) (returned : call.Returned) :
    Fragments call.items call.metadata frames := by
  have remaining := sent.remaining
  have inside := sent.inside
  have turns := sent.turns
  have all : call.n = call.items.length := by
    simp only [Returned, u2MaxSamples] at remaining returned
    omega
  have frameCount : frames.length = call.nframes := by
    rw [turns]
    exact Nat.le_antisymm (Nat.le_trans (Nat.le_add_right _ _) (Nat.le_of_eq remaining)) returned
  exact
    { payloads := by rw [sent.payloads, all, List.take_length]
      most := sent.most
      least := sent.least
      timestamps := sent.timestamps
      starts := sent.starts
      ends := fun k frame found => by
        have bound := (List.getElem?_eq_some_iff.mp found).1
        have last : k = call.nframes - 1 ↔ k + 1 = frames.length := by omega
        rw [← last]
        exact sent.ends k frame found }

end TxCall

namespace TxHost

/-! ## The host object -/

/-- What holds at the host object between two steps. -/
structure Invariant (h : TxHost) : Prop where
  calls : ∀ c (call : TxCall), h.calls[c]? = some call → call.Sent (h.framesOf c)
  others : ∀ c, h.calls.length ≤ c → h.framesOf c = []
  numbered : h.dataFrames.map (fun frame => frame.hdrs.seqno) =
    (List.range h.dataFrames.length).map (BitVec.ofNat 8)
  next : h.txSeqno = BitVec.ofNat 32 h.dataFrames.length

theorem invariant_init : init.Invariant where
  calls := fun c call found => by simp [init] at found
  others := fun c _ => rfl
  numbered := rfl
  next := rfl

theorem framesOf_append (h : TxHost) (c : Nat) (txSeqno : BitVec 32) (calls : List TxCall)
    (owner : Option Nat) (frame : TxFrame) :
    framesOf ⟨txSeqno, calls, h.frames ++ [(owner, frame)]⟩ c =
      h.framesOf c ++ if owner = some c then [frame] else [] := by
  rw [framesOf, List.filterMap_append, framesOf]
  by_cases mine : owner = some c
  · simp [mine]
  · simp [mine]

theorem dataFrames_append (h : TxHost) (txSeqno : BitVec 32) (calls : List TxCall)
    (owner : Option Nat) (frame : TxFrame) :
    dataFrames ⟨txSeqno, calls, h.frames ++ [(owner, frame)]⟩ =
      h.dataFrames ++ if frame.chan ≠ controlChan then [frame] else [] := by
  rw [dataFrames, List.map_append, List.filter_append, dataFrames]
  by_cases data : frame.chan = controlChan
  · simp [data]
  · simp [data]

variable {h after : TxHost}

/-- Headers are numbered for data channels only. -/
theorem numbered_append (invariant : h.Invariant) (flags chan timestamp : BitVec 32)
    (calls : List TxCall) (owner : Option Nat) (payload : List (BitVec 32)) :
    let made := initEtfHdrs h.txSeqno flags chan timestamp
    let after : TxHost := ⟨made.2, calls, h.frames ++ [(owner, ⟨chan, made.1, payload⟩)]⟩
    after.dataFrames.map (fun frame => frame.hdrs.seqno) =
        (List.range after.dataFrames.length).map (BitVec.ofNat 8) ∧
      after.txSeqno = BitVec.ofNat 32 after.dataFrames.length := by
  intro made after
  rw [dataFrames_append]
  dsimp only [after]
  by_cases control : chan = controlChan
  · subst control
    rw [if_neg (fun differs => differs rfl), List.append_nil, initEtfHdrs_control]
    exact ⟨invariant.numbered, invariant.next⟩
  · rw [if_pos control]
    dsimp only [made]
    rw [initEtfHdrs_data _ _ _ control, List.length_append, List.length_singleton,
      List.range_succ, List.map_append, List.map_append, invariant.numbered, invariant.next]
    constructor
    · rw [List.map_singleton, List.map_singleton, BitVec.setWidth_ofNat_of_le (by decide)]
    · rw [BitVec.ofNat_add]

theorem step_turn {c : Nat} (stepped : h.step (.turn c) = some after) :
    ∃ call, h.calls[c]? = some call ∧ call.fn < call.nframes ∧
      after = ⟨(call.turn h.txSeqno).2.1, h.calls.set c (call.turn h.txSeqno).1,
        h.frames ++ [(some c, (call.turn h.txSeqno).2.2)]⟩ := by
  rw [step] at stepped
  split at stepped
  · cases stepped
  · rename_i call here
    split at stepped
    · rename_i goesOn
      exact ⟨call, here, goesOn, (Option.some.inj stepped).symm⟩
    · cases stepped

theorem invariant_step {action : TxAction} (invariant : h.Invariant)
    (stepped : h.step action = some after) : after.Invariant := by
  cases action with
  | txRaw channel items metadata =>
    obtain rfl := Option.some.inj stepped
    refine ⟨fun c call found => ?_, fun c outside => ?_, invariant.numbered, invariant.next⟩
    · rcases Nat.lt_or_ge c h.calls.length with old | new
      · rw [List.getElem?_append_left old] at found
        exact invariant.calls c call found
      · rw [List.getElem?_append_right new, List.getElem?_singleton] at found
        split at found
        · obtain rfl := Option.some.inj found
          have none : h.framesOf c = [] := invariant.others c new
          change TxCall.Sent _ (h.framesOf c)
          rw [none]
          exact TxCall.Sent.nil channel items metadata
        · cases found
    · rw [List.length_append] at outside
      exact invariant.others c (Nat.le_trans (Nat.le_add_right _ _) outside)
  | turn c =>
    obtain ⟨call, here, goesOn, rfl⟩ := step_turn stepped
    have numbers := numbered_append invariant call.flags call.channel call.timestamp
      (h.calls.set c (call.turn h.txSeqno).1) (some c) ((call.items.drop call.n).take call.count)
    refine ⟨fun d other found => ?_, fun d outside => ?_, numbers.1, numbers.2⟩
    · rw [framesOf_append]
      rcases getElem?_set_cases found with same | differs
      · obtain ⟨rfl, rfl⟩ := same
        rw [if_pos rfl]
        exact (invariant.calls d call here).turn goesOn h.txSeqno
      · rw [if_neg (fun same => differs.1 (Option.some.inj same).symm), List.append_nil]
        exact invariant.calls d other differs.2
    · rw [List.length_set] at outside
      have known := (List.getElem?_eq_some_iff.mp here).1
      rw [framesOf_append, invariant.others d outside,
        if_neg (fun same => by have := Option.some.inj same; omega), List.append_nil]
  | command timestamp payload =>
    obtain rfl := Option.some.inj stepped
    have numbers := numbered_append invariant 0#32 controlChan timestamp h.calls none payload
    refine ⟨fun c call found => ?_, fun c outside => ?_, numbers.1, numbers.2⟩
    · rw [framesOf_append, if_neg (by simp), List.append_nil]
      exact invariant.calls c call found
    · rw [framesOf_append, if_neg (by simp), List.append_nil]
      exact invariant.others c outside

theorem calls_requested {actions : List TxAction} (reached : run step init actions = some h) :
    h.calls.map TxCall.request = requests actions := by
  refine run_history (C := fun _ _ => True)
    (fun actions h => h.calls.map TxCall.request = requests actions) rfl
    (fun actions h action after _ before _ stepped => ?_)
    (Throughout.of_forall (fun _ _ => trivial) init actions) reached
  rw [requests, List.filterMap_append]
  change _ = requests actions ++ _
  rw [← before]
  cases action with
  | txRaw channel items metadata =>
    obtain rfl := Option.some.inj stepped
    exact List.map_append
  | turn c =>
    obtain ⟨call, here, _, rfl⟩ := step_turn stepped
    have same : (call.turn h.txSeqno).1.request = call.request := rfl
    exact (map_set_same here same).trans (List.append_nil _).symm
  | command timestamp payload =>
    obtain rfl := Option.some.inj stepped
    exact (List.append_nil _).symm

/-- A call of `tx_raw` goes on until it returns, and has then sent its items in frames; the frames
for the data channels are numbered one after another. -/
theorem txRaw_fragments {h : TxHost} {actions : List TxAction}
    (reached : run step init actions = some h) :
    h.calls.map TxCall.request = requests actions ∧
      (∀ c (call : TxCall), h.calls[c]? = some call → call.Returned →
        Fragments call.items call.metadata (h.framesOf c)) ∧
      (∀ c (call : TxCall), h.calls[c]? = some call → ¬call.Returned →
        ∃ after, h.step (.turn c) = some after ∧
          after.calls[c]? = some (call.turn h.txSeqno).1) ∧
      h.dataFrames.map (fun frame => frame.hdrs.seqno) =
        (List.range h.dataFrames.length).map (BitVec.ofNat 8) := by
  have invariant : h.Invariant :=
    run_invariant Invariant (fun _ _ _ before stepped => invariant_step before stepped)
      invariant_init reached
  refine ⟨calls_requested reached, fun c call here returned => ?_, fun c call here runs => ?_,
    invariant.numbered⟩
  · exact (invariant.calls c call here).fragments returned
  · have inside := (List.getElem?_eq_some_iff.mp here).1
    rw [step, here]
    dsimp only
    rw [if_pos (Nat.lt_of_not_le runs)]
    exact ⟨_, rfl, List.getElem?_set_self inside⟩

/-- Two calls, with a command between their frames. -/
def twoCalls : List TxAction :=
  [.txRaw 0#32 (List.replicate 12 5#32) ⟨7#32, true, true, true⟩,
    .txRaw 1#32 [1#32, 2#32] ⟨9#32, false, true, false⟩,
    .turn 1, .command 3#32 [4#32], .turn 0]

theorem txRaw_two_calls : ∃ h, run step init twoCalls = some h ∧
    h.calls.map TxCall.request = requests twoCalls ∧
      (∀ c (call : TxCall), h.calls[c]? = some call → call.Returned →
        Fragments call.items call.metadata (h.framesOf c)) ∧
      (∀ c (call : TxCall), h.calls[c]? = some call → ¬call.Returned →
        ∃ after, h.step (.turn c) = some after ∧
          after.calls[c]? = some (call.turn h.txSeqno).1) ∧
      h.dataFrames.map (fun frame => frame.hdrs.seqno) =
        (List.range h.dataFrames.length).map (BitVec.ofNat 8) :=
  ⟨_, rfl, txRaw_fragments rfl⟩

end TxHost

end GnuRadio
