import GnuRadio.Usrp2.BufferRing
import GnuRadio.Misc.Trace

/-!
# One input, two outputs

`bsm12.c` takes packets from one port to one of two others through three buffers that
it uses in turn. The inspector says where a packet goes.
-/

namespace GnuRadio.Usrp2

/-- `bsm12_t` (`bsm12.h:51-68`) with the arrays of `bsm12.c` and the transfers of the buffer pool.
`none` is `ST_IDLE` in `rx_state` and `tx_state`, and -1 in `buffer_target`. -/
structure Bsm12 where
  buf0 : Fin nbuffers
  running : Bool
  rxState : Option (Fin 4)
  txState : Fin 2 → Option (Fin 4)
  recvArgs : BufCmdArgs
  sendArgs : Fin 2 → BufCmdArgs
  lastLineAdj : UInt32
  bpsError : UInt32
  bpsDone : UInt32
  bpsErrorOrDone : UInt32
  nextBuf : Fin nbuffers → Fin nbuffers
  precomputedReceiveToBufCtrlWord : Fin 4 → CtrlWord
  precomputedSendFromBufCtrlWord : Fin 4 → Fin 2 → CtrlWord
  bufferState : Fin nbuffers → BufferState
  lastSendCtrl : Fin nbuffers → CtrlWord
  bufferTarget : Fin nbuffers → Option (Fin 2)
  bufferDst : Fin nbuffers → Fin 2
  bufferPool : BufferPool

namespace Bsm12

/-- `bufno & 0x3`. -/
def low (bufno : Fin nbuffers) : Fin 4 := Fin.ofNat 4 bufno

/-- An assignment to `buffer_state[bufno]`. -/
def setState (sm : Bsm12) (bufno : Fin nbuffers) (state : BufferState) : Bsm12 :=
  { sm with bufferState := Function.update sm.bufferState bufno state }

/-- An assignment to `buffer_target[bufno]`. -/
def setTarget (sm : Bsm12) (bufno : Fin nbuffers) (target : Option (Fin 2)) : Bsm12 :=
  { sm with bufferTarget := Function.update sm.bufferTarget bufno target }

/-- `bp_clear_buf` (`buffer_pool.h:40-44`). -/
def clearBuf (sm : Bsm12) (bufnum : Fin nbuffers) : Bsm12 :=
  { sm with bufferPool := sm.bufferPool.ctrl (clearWord bufnum) }

/-- The buffers of a machine: `buf0 + 0`, `buf0 + 1` and `buf0 + 2`. -/
def buf (buf0 : Fin nbuffers) (i : Fin 3) : Fin nbuffers := buf0 + Fin.castLE (by decide) i

/-- `next_buf`, as it is set up (`bsm12.c:89-94`). -/
def nextOf (buf0 : Fin nbuffers) : Fin nbuffers → Fin nbuffers :=
  Function.update (Function.update (Function.update (fun _ => buf0) (buf buf0 0) (buf buf0 1))
    (buf buf0 1) (buf buf0 2)) (buf buf0 2) (buf buf0 0)

def portEth : UInt16 := 2

/-- `bsm12_init` (`bsm12.c:51-115`) on the arrays and the buffers as they are, or `none` where it
aborts. Of the words it computes those for 0, 1 and 2. -/
def init (memory : Bsm12) (buf0 : Fin nbuffers) (recv send0 send1 : BufCmdArgs) : Option Bsm12 :=
  if buf0 &&& 0x3 ≠ 0 then none
  else
    let error := Usrp2.bpsError (buf buf0 0) ||| Usrp2.bpsError (buf buf0 1) |||
      Usrp2.bpsError (buf buf0 2)
    let done := Usrp2.bpsDone (buf buf0 0) ||| Usrp2.bpsDone (buf buf0 1) |||
      Usrp2.bpsDone (buf buf0 2)
    let sm : Bsm12 := { memory with
      buf0
      running := false
      recvArgs := recv
      sendArgs := fun dst => if dst = 0 then send0 else send1
      rxState := none
      txState := fun _ => none
      bpsError := error
      bpsDone := done
      bpsErrorOrDone := error ||| done
      lastLineAdj := if recv.port = portEth then 3 else 1
      nextBuf := nextOf buf0
      precomputedReceiveToBufCtrlWord := fun i =>
        receiveWord (buf0 + Fin.castLE (by decide) i) recv
      precomputedSendFromBufCtrlWord := fun i dst =>
        sendWord (buf0 + Fin.castLE (by decide) i) (if dst = 0 then send0 else send1) }
    let sm := ((sm.setState (buf buf0 0) .empty).setState (buf buf0 1) .empty).setState
      (buf buf0 2) .empty
    some (((sm.setTarget (buf buf0 0) none).setTarget (buf buf0 1) none).setTarget
      (buf buf0 2) none)

/-- The memory of a machine before it is set up. -/
def blank : Bsm12 where
  buf0 := 0
  running := false
  rxState := some 0
  txState := fun _ => some 0
  recvArgs := ⟨0, 0, 0⟩
  sendArgs := fun _ => ⟨0, 0, 0⟩
  lastLineAdj := 0
  bpsError := 0
  bpsDone := 0
  bpsErrorOrDone := 0
  nextBuf := fun _ => 0
  precomputedReceiveToBufCtrlWord := fun _ => ⟨0, 0, false, false, false, 0, 0, 0⟩
  precomputedSendFromBufCtrlWord := fun _ _ => ⟨0, 0, false, false, false, 0, 0, 0⟩
  bufferState := fun _ => .empty
  lastSendCtrl := fun _ => ⟨0, 0, false, false, false, 0, 0, 0⟩
  bufferTarget := fun _ => some 0
  bufferDst := fun _ => 0
  bufferPool := fun _ => .idle

/-- `bsm12_receive_to_buf` (`bsm12.c:117-121`). -/
def receiveToBuf (sm : Bsm12) (bufno : Fin nbuffers) : Bsm12 :=
  { sm with
    bufferPool := sm.bufferPool.ctrl (sm.precomputedReceiveToBufCtrlWord (low bufno)) }

/-- `bsm12_send_from_buf` (`bsm12.c:123-135`). -/
def sendFromBuf (sm : Bsm12) (lastLine : Fin nbuffers → UInt32) (bufno : Fin nbuffers)
    (dstIdx : Fin 2) : Bsm12 :=
  let t := (sm.precomputedSendFromBufCtrlWord (low bufno) dstIdx).withLastLine
    (lastLine bufno - sm.lastLineAdj)
  { sm with
    bufferPool := sm.bufferPool.ctrl t
    lastSendCtrl := Function.update sm.lastSendCtrl bufno t
    bufferDst := Function.update sm.bufferDst bufno dstIdx }

/-- `bsm12_resend_from_buf` (`bsm12.c:137-141`). -/
def resendFromBuf (sm : Bsm12) (bufno : Fin nbuffers) : Bsm12 :=
  { sm with bufferPool := sm.bufferPool.ctrl (sm.lastSendCtrl bufno) }

/-- `bsm12_start` (`bsm12.c:143-165`). -/
def start (sm : Bsm12) : Bsm12 :=
  let buf0 := sm.buf0
  let sm := { sm with running := true }
  let sm := ((sm.setState (buf buf0 0) .empty).setState (buf buf0 1) .empty).setState
    (buf buf0 2) .empty
  let sm := ((sm.setTarget (buf buf0 0) none).setTarget (buf buf0 1) none).setTarget
    (buf buf0 2) none
  let sm := ((sm.clearBuf (buf buf0 0)).clearBuf (buf buf0 1)).clearBuf (buf buf0 2)
  let sm := { sm with
    rxState := some 0
    txState := fun _ => none }
  (sm.receiveToBuf buf0).setState buf0 .filling

variable {α : Type}

/-- Sending from a buffer that waited (`bsm12.c:279-282` and `286-289`). -/
def sendNext (sm : Bsm12) (event : PoolEvent α (Option (Fin 2))) (t : Fin nbuffers)
    (dst : Fin 2) : Bsm12 :=
  let sm := ((sm.sendFromBuf event.lastLine t dst).setState t .emptying).setTarget t none
  { sm with txState := Function.update sm.txState dst (some (low t)) }

/-- `bsm12_process_helper` (`bsm12.c:211-295`). -/
def processHelper (sm : Bsm12) (event : PoolEvent α (Option (Fin 2))) (bufThis : Fin nbuffers) :
    Bsm12 :=
  let sm := sm.clearBuf bufThis
  if sm.bufferState bufThis = .filling then
    let sm := (sm.setState bufThis .full).setTarget bufThis none
    match event.inspect bufThis with
    | none =>
      let sm := ((sm.receiveToBuf bufThis).setState bufThis .filling).setTarget bufThis none
      { sm with rxState := some (low bufThis) }
    | some dst =>
      let t := sm.nextBuf bufThis
      let sm : Bsm12 := if sm.bufferState t = .empty then
          let sm := ((sm.receiveToBuf t).setState t .filling).setTarget t none
          { sm with rxState := some (low t) }
        else { sm with rxState := none }
      if sm.txState dst = none then
        let sm := sm.sendFromBuf event.lastLine bufThis dst
        let sm := { sm with txState := Function.update sm.txState dst (some (low bufThis)) }
        (sm.setState bufThis .emptying).setTarget bufThis none
      else sm.setTarget bufThis (some dst)
  else
    let sm := (sm.setState bufThis .empty).setTarget bufThis none
    let sm : Bsm12 := if sm.rxState = none then
        let sm := { sm with rxState := some (low bufThis) }
        ((sm.receiveToBuf bufThis).setState bufThis .filling).setTarget bufThis none
      else sm
    let dst := sm.bufferDst bufThis
    let t := sm.nextBuf bufThis
    if sm.bufferTarget t = some dst then sm.sendNext event t dst
    else
      let t := sm.nextBuf t
      if sm.bufferTarget t = some dst then sm.sendNext event t dst
      else { sm with txState := Function.update sm.txState dst none }

/-- `bsm12_error_helper` (`bsm12.c:297-308`). -/
def errorHelper (sm : Bsm12) (bufThis : Fin nbuffers) : Bsm12 :=
  let sm := sm.clearBuf bufThis
  if sm.bufferState bufThis = .filling then sm.receiveToBuf bufThis
  else sm.resendFromBuf bufThis

/-- `bsm12_process_status` (`bsm12.c:182-209`). -/
def processStatus (sm : Bsm12) (event : PoolEvent α (Option (Fin 2))) : Bsm12 :=
  if !anyOf event.status sm.bpsErrorOrDone || !sm.running then sm
  else
    let sm := if anyOf event.status sm.bpsError then
        let sm := if event.error (buf sm.buf0 0) then sm.errorHelper (buf sm.buf0 0) else sm
        let sm := if event.error (buf sm.buf0 1) then sm.errorHelper (buf sm.buf0 1) else sm
        if event.error (buf sm.buf0 2) then sm.errorHelper (buf sm.buf0 2) else sm
      else sm
    let sm := if event.done (buf sm.buf0 0) then sm.processHelper event (buf sm.buf0 0) else sm
    let sm := if event.done (buf sm.buf0 1) then sm.processHelper event (buf sm.buf0 1) else sm
    if event.done (buf sm.buf0 2) then sm.processHelper event (buf sm.buf0 2) else sm

end Bsm12

/-! ## The machine in the ring -/

/-- The `buffer_state` of a cell. -/
def Cell.state : Cell → BufferState
  | .empty => .empty
  | .filling => .filling
  | .full _ => .full
  | .emptying _ => .emptying

/-- The `buffer_target` of a cell. -/
def Cell.target : Cell → Option (Fin 2)
  | .full dst => some dst
  | _ => none

namespace Bsm12

variable {α : Type}

/-- The transfer of a cell. -/
def transferOf (sm : Bsm12) : Cell → Transfer
  | .filling => .receiving (bpcPort sm.recvArgs.port)
  | .emptying dst => .sending (bpcPort (sm.sendArgs dst).port)
  | .empty | .full _ => .idle

theorem buf_inj : ∀ (buf0 : Fin nbuffers) (i j : Fin 3), buf buf0 i = buf buf0 j ↔ i = j := by
  decide

theorem nextOf_buf : ∀ buf0 : Fin nbuffers, buf0 &&& 0x3 = 0 →
    ∀ i, nextOf buf0 (buf buf0 i) = buf buf0 (i + 1) := by
  decide

/-- The machine runs, and has the words for its buffers. -/
structure Configured (sm : Bsm12) : Prop where
  running : sm.running = true
  order : ∀ i j, buf sm.buf0 i < buf sm.buf0 j ↔ i < j
  next : ∀ i, sm.nextBuf (buf sm.buf0 i) = buf sm.buf0 (i + 1)
  receive : ∀ i, sm.precomputedReceiveToBufCtrlWord (low (buf sm.buf0 i)) =
    receiveWord (buf sm.buf0 i) sm.recvArgs
  send : ∀ i dst, sm.precomputedSendFromBufCtrlWord (low (buf sm.buf0 i)) dst =
    sendWord (buf sm.buf0 i) (sm.sendArgs dst)
  error : sm.bpsError = Usrp2.bpsError (buf sm.buf0 0) ||| Usrp2.bpsError (buf sm.buf0 1) |||
    Usrp2.bpsError (buf sm.buf0 2)
  errorOrDone : sm.bpsErrorOrDone = sm.bpsError |||
    (Usrp2.bpsDone (buf sm.buf0 0) ||| Usrp2.bpsDone (buf sm.buf0 1) |||
      Usrp2.bpsDone (buf sm.buf0 2))

/-- The machine uses its buffers as the cells say. -/
structure Shows (sm : Bsm12) (cells : Cells) : Prop where
  configured : sm.Configured
  state : ∀ i, sm.bufferState (buf sm.buf0 i) = (cells i).state
  target : ∀ i, sm.bufferTarget (buf sm.buf0 i) = (cells i).target
  pool : ∀ i, sm.bufferPool (buf sm.buf0 i) = sm.transferOf (cells i)
  dst : ∀ i dst, cells i = .emptying dst → sm.bufferDst (buf sm.buf0 i) = dst
  resend : ∀ i dst, cells i = .emptying dst → ∀ pool : BufferPool,
    pool.ctrl (sm.lastSendCtrl (buf sm.buf0 i)) =
      Function.update pool (buf sm.buf0 i) (sm.transferOf (.emptying dst))
  rx : sm.rxState = none ↔ ¬cells.Receives
  tx : ∀ dst, sm.txState dst = none ↔ ¬cells.Busy dst

section Helpers

variable {sm : Bsm12} {cells : Cells} {i : Fin 3} {event : PoolEvent α (Option (Fin 2))}

theorem Shows.filling_iff (shows : sm.Shows cells) (i : Fin 3) :
    sm.bufferState (buf sm.buf0 i) = .filling ↔ cells i = .filling := by
  rw [shows.state]
  cases cells i <;> simp [Cell.state]

theorem Shows.empty_iff (shows : sm.Shows cells) (i : Fin 3) :
    sm.bufferState (buf sm.buf0 i) = .empty ↔ cells i = .empty := by
  rw [shows.state]
  cases cells i <;> simp [Cell.state]

theorem Shows.full_iff (shows : sm.Shows cells) (i : Fin 3) (dst : Fin 2) :
    sm.bufferTarget (buf sm.buf0 i) = some dst ↔ cells i = .full dst := by
  rw [shows.target]
  cases cells i <;> simp [Cell.target]

theorem Configured.shows (configured : sm.Configured) {rxState : Option (Fin 4)}
    {txState : Fin 2 → Option (Fin 4)} {bufferState : Fin nbuffers → BufferState}
    {lastSendCtrl : Fin nbuffers → CtrlWord} {bufferTarget : Fin nbuffers → Option (Fin 2)}
    {bufferDst : Fin nbuffers → Fin 2} {bufferPool : BufferPool}
    (state : ∀ i, bufferState (buf sm.buf0 i) = (cells i).state)
    (target : ∀ i, bufferTarget (buf sm.buf0 i) = (cells i).target)
    (pool : ∀ i, bufferPool (buf sm.buf0 i) = sm.transferOf (cells i))
    (dst : ∀ i dst, cells i = .emptying dst → bufferDst (buf sm.buf0 i) = dst)
    (resend : ∀ i dst, cells i = .emptying dst → ∀ pool : BufferPool,
      pool.ctrl (lastSendCtrl (buf sm.buf0 i)) =
        Function.update pool (buf sm.buf0 i) (sm.transferOf (.emptying dst)))
    (rx : rxState = none ↔ ¬cells.Receives) (tx : ∀ dst, txState dst = none ↔ ¬cells.Busy dst) :
    Shows { sm with
      rxState, txState, bufferState, lastSendCtrl, bufferTarget, bufferDst, bufferPool } cells :=
  ⟨⟨configured.running, configured.order, configured.next, configured.receive, configured.send,
    configured.error, configured.errorOrDone⟩, state, target, pool, dst, resend, rx, tx⟩

theorem update_buf {β : Type} (f : Fin nbuffers → β) (buf0 : Fin nbuffers) (i j : Fin 3) (x : β) :
    Function.update f (buf buf0 i) x (buf buf0 j) = if j = i then x else f (buf buf0 j) := by
  simp [Function.update_apply, buf_inj]

theorem buf_zero (buf0 : Fin nbuffers) : buf buf0 0 = buf0 := add_zero buf0

theorem update_buf0 {β : Type} (f : Fin nbuffers → β) (buf0 : Fin nbuffers) (j : Fin 3) (x : β) :
    Function.update f buf0 x (buf buf0 j) = if j = 0 then x else f (buf buf0 j) := by
  have zero := update_buf f buf0 0 j x
  rwa [buf_zero] at zero

theorem processHelper_refill (shows : sm.Shows cells) (comes : cells i = .filling)
    (handled : event.inspect (buf sm.buf0 i) = none) :
    (sm.processHelper event (buf sm.buf0 i)).Shows cells := by
  have filling := (shows.filling_iff i).mpr comes
  simp [processHelper, clearBuf, setState, setTarget, receiveToBuf, filling, handled,
    shows.configured.receive]
  apply shows.configured.shows
  · intro j
    by_cases same : j = i <;> simp [update_buf, same, comes, Cell.state, shows.state]
  · intro j
    by_cases same : j = i <;> simp [update_buf, same, comes, Cell.target, shows.target]
  · intro j
    by_cases same : j = i <;> simp [update_buf, same, comes, transferOf, shows.pool]
  · exact shows.dst
  · exact shows.resend
  · simpa using ⟨i, comes⟩
  · exact shows.tx

theorem processHelper_fill (shows : sm.Shows cells) (valid : cells.Valid)
    (comes : cells i = .filling) {dst : Fin 2}
    (passed : event.inspect (buf sm.buf0 i) = some dst) :
    (sm.processHelper event (buf sm.buf0 i)).Shows (cells.fill i dst) := by
  have filling := (shows.filling_iff i).mpr comes
  have fills := Cells.fill_spec valid comes dst
  by_cases next : cells (i + 1) = .empty <;> by_cases busy : cells.Busy dst
  all_goals
    simp [processHelper, clearBuf, setState, setTarget, receiveToBuf, sendFromBuf, filling,
      passed, shows.configured.receive, shows.configured.send, shows.configured.next, update_buf,
      shows.empty_iff, shows.tx, next, busy]
    apply shows.configured.shows
    · intro j
      rcases Cells.around i j with rfl | rfl | rfl <;>
        simp [update_buf, Cells.fill_this, Cells.fill_next, Cells.fill_last, next, busy,
          Cell.state, shows.state]
    · intro j
      rcases Cells.around i j with rfl | rfl | rfl <;>
        simp [update_buf, Cells.fill_this, Cells.fill_next, Cells.fill_last, next, busy,
          Cell.target, shows.target]
    · intro j
      rcases Cells.around i j with rfl | rfl | rfl <;>
        simp [update_buf, Cells.fill_this, Cells.fill_next, Cells.fill_last, next, busy,
          transferOf, shows.pool]
    · intro j other
      rcases Cells.around i j with rfl | rfl | rfl <;>
        simp [update_buf, Cells.fill_this, Cells.fill_next, Cells.fill_last, next, busy]
      all_goals exact shows.dst _ _
    · intro j other
      rcases Cells.around i j with rfl | rfl | rfl <;>
        simp [update_buf, Cells.fill_this, Cells.fill_next, Cells.fill_last, next, busy]
      all_goals first
        | exact shows.resend _ _
        | rintro rfl pool; rfl
    · simp [fills.receives, next]
    · intro other
      by_cases same : other = dst <;> simp [fills.busy, shows.tx, same, busy]

theorem processHelper_drain (shows : sm.Shows cells) (valid : cells.Valid) {dst : Fin 2}
    (leaves : cells i = .emptying dst) :
    (sm.processHelper event (buf sm.buf0 i)).Shows (cells.drain i dst) := by
  have drains := Cells.drain_spec valid leaves
  have here := shows.dst i dst leaves
  by_cases receives : cells.Receives <;> by_cases next : cells (i + 1) = .full dst <;>
    by_cases last : cells (i + 1 + 1) = .full dst
  all_goals
    simp [processHelper, sendNext, clearBuf, setState, setTarget, receiveToBuf, sendFromBuf,
      shows.configured.receive, shows.configured.send, shows.configured.next, update_buf,
      shows.filling_iff, shows.full_iff, shows.rx, leaves, here, receives, next, last]
    apply shows.configured.shows
    · intro j
      rcases Cells.around i j with rfl | rfl | rfl <;>
        simp [update_buf, Cells.drain_this, Cells.drain_next, Cells.drain_last, receives, next,
          last, Cell.state, shows.state]
    · intro j
      rcases Cells.around i j with rfl | rfl | rfl <;>
        simp [update_buf, Cells.drain_this, Cells.drain_next, Cells.drain_last, receives, next,
          last, Cell.target, shows.target]
    · intro j
      rcases Cells.around i j with rfl | rfl | rfl <;>
        simp [update_buf, Cells.drain_this, Cells.drain_next, Cells.drain_last, receives, next,
          last, transferOf, shows.pool]
    · intro j other
      rcases Cells.around i j with rfl | rfl | rfl <;>
        simp [update_buf, Cells.drain_this, Cells.drain_next, Cells.drain_last, receives, next,
          last]
      all_goals exact shows.dst _ _
    · intro j other
      rcases Cells.around i j with rfl | rfl | rfl <;>
        simp [update_buf, Cells.drain_this, Cells.drain_next, Cells.drain_last, receives, next,
          last]
      all_goals first
        | exact shows.resend _ _
        | rintro rfl pool; rfl
    · simp [drains.receives, shows.rx, receives]
    · intro other
      by_cases same : other = dst <;> simp [drains.busy, shows.tx, same, next, last]

theorem errorHelper_eq (shows : sm.Shows cells) (moves : cells.Moves i) :
    sm.errorHelper (buf sm.buf0 i) = sm := by
  have restored : Function.update sm.bufferPool (buf sm.buf0 i) (sm.transferOf (cells i)) =
      sm.bufferPool := by
    rw [← shows.pool, Function.update_eq_self]
  obtain comes | ⟨dst, leaves⟩ := moves
  · rw [comes, transferOf] at restored
    simp [errorHelper, clearBuf, receiveToBuf, shows.filling_iff, comes, shows.configured.receive,
      restored]
  · rw [leaves] at restored
    simp [errorHelper, clearBuf, resendFromBuf, shows.filling_iff, leaves,
      shows.resend i dst leaves, restored]

end Helpers

/-! ## What a status does to the machine -/

/-- The part of `processStatus` about a buffer that is done. -/
def doneAt (event : PoolEvent α (Option (Fin 2))) (sm : Bsm12) (bufno : Fin nbuffers) : Bsm12 :=
  if event.done bufno then sm.processHelper event bufno else sm

/-- The report of an event about a buffer. -/
def reportOf (event : PoolEvent α (Option (Fin 2))) (buf0 : Fin nbuffers) (i : Fin 3) : Report :=
  if event.done (buf buf0 i) then some (event.inspect (buf buf0 i)) else none

def buffers (sm : Bsm12) : List (Fin nbuffers) := Cells.all.map (buf sm.buf0)

theorem isSome_reportOf (event : PoolEvent α (Option (Fin 2))) (buf0 : Fin nbuffers) (i : Fin 3) :
    (reportOf event buf0 i).isSome = event.done (buf buf0 i) := by
  rw [reportOf]
  split <;> simp_all

/-- What the machine was set up with. -/
def setup (sm : Bsm12) : Fin nbuffers × BufCmdArgs × (Fin 2 → BufCmdArgs) :=
  (sm.buf0, sm.recvArgs, sm.sendArgs)

section

variable (sm : Bsm12) (bufno : Fin nbuffers) (event : PoolEvent α (Option (Fin 2)))

@[simp] theorem setup_setState (state : BufferState) :
    (sm.setState bufno state).setup = sm.setup :=
  rfl

@[simp] theorem setup_setTarget (target : Option (Fin 2)) :
    (sm.setTarget bufno target).setup = sm.setup :=
  rfl

@[simp] theorem setup_rxState (rxState : Option (Fin 4)) :
    { sm with rxState }.setup = sm.setup :=
  rfl

@[simp] theorem setup_txState (txState : Fin 2 → Option (Fin 4)) :
    { sm with txState }.setup = sm.setup :=
  rfl

@[simp] theorem setup_clearBuf : (sm.clearBuf bufno).setup = sm.setup := rfl

@[simp] theorem setup_receiveToBuf : (sm.receiveToBuf bufno).setup = sm.setup := rfl

@[simp] theorem setup_sendFromBuf (lastLine : Fin nbuffers → UInt32) (dst : Fin 2) :
    (sm.sendFromBuf lastLine bufno dst).setup = sm.setup :=
  rfl

@[simp] theorem setup_sendNext (dst : Fin 2) : (sm.sendNext event bufno dst).setup = sm.setup := rfl

theorem setup_processHelper : (sm.processHelper event bufno).setup = sm.setup := by
  simp only [processHelper]
  split
  · split <;> simp [apply_ite setup]
  · simp [apply_ite setup]

end

theorem setup_doneAt (event : PoolEvent α (Option (Fin 2))) (sm : Bsm12) (bufno : Fin nbuffers) :
    (doneAt event sm bufno).setup = sm.setup := by
  rw [doneAt]
  split
  · exact setup_processHelper sm bufno event
  · rfl

theorem buf0_doneAt (event : PoolEvent α (Option (Fin 2))) (sm : Bsm12) (bufno : Fin nbuffers) :
    (doneAt event sm bufno).buf0 = sm.buf0 :=
  congrArg Prod.fst (setup_doneAt event sm bufno)

variable {sm : Bsm12} {cells : Cells} {event : PoolEvent α (Option (Fin 2))}

theorem Shows.doneAt (shows : sm.Shows cells) (valid : cells.Valid) {i : Fin 3}
    (sound : (reportOf event sm.buf0 i).isSome = true → cells.Moves i) :
    (doneAt event sm (buf sm.buf0 i)).Shows (cells.report (reportOf event sm.buf0) i) ∧
      (cells.report (reportOf event sm.buf0) i).Valid ∧
      ∀ j, j ≠ i → cells.Moves j → cells.report (reportOf event sm.buf0) i j = cells j := by
  rw [isSome_reportOf] at sound
  rw [Bsm12.doneAt, Cells.report, reportOf]
  cases done : event.done (buf sm.buf0 i) with
  | false => exact ⟨shows, valid, fun _ _ _ => rfl⟩
  | true =>
    obtain comes | ⟨dst, leaves⟩ := sound done
    · simp only [comes, if_true]
      cases answer : event.inspect (buf sm.buf0 i) with
      | none => exact ⟨processHelper_refill shows comes answer, valid, fun _ _ _ => rfl⟩
      | some dst =>
        have fills := Cells.fill_spec valid comes dst
        exact ⟨processHelper_fill shows valid comes answer, fills.valid, fills.moves⟩
    · have drains := Cells.drain_spec valid leaves
      simp only [leaves, if_true]
      exact ⟨processHelper_drain shows valid leaves, drains.valid, drains.moves⟩

theorem Shows.foldl {sm : Bsm12} {cells : Cells} (shows : sm.Shows cells) (valid : cells.Valid)
    {event : PoolEvent α (Option (Fin 2))} {is : List (Fin 3)} (distinct : is.Nodup)
    (sound : ∀ i ∈ is, (reportOf event sm.buf0 i).isSome = true → cells.Moves i) :
    ((is.map (buf sm.buf0)).foldl (Bsm12.doneAt event) sm).Shows
      (cells.reports (reportOf event sm.buf0) is) := by
  induction is generalizing sm cells with
  | nil => exact shows
  | cons i is ih =>
    obtain ⟨fresh, distinct⟩ := List.nodup_cons.mp distinct
    obtain ⟨next, stays, moves⟩ := shows.doneAt valid (sound i List.mem_cons_self)
    have same := buf0_doneAt event sm (buf sm.buf0 i)
    have rest := ih next stays distinct fun j member ended => by
      rw [same] at ended
      have moving := sound j (List.mem_cons_of_mem i member) ended
      have kept := moves j (fun equal => fresh (equal ▸ member)) moving
      rwa [Cells.Moves, kept]
    rw [same] at rest
    exact rest

theorem mem_all : ∀ i : Fin 3, i ∈ Cells.all := by decide

theorem Shows.moves (shows : sm.Shows cells) {i : Fin 3}
    (busy : sm.bufferPool (buf sm.buf0 i) ≠ .idle) : cells.Moves i := by
  rw [shows.pool] at busy
  cases cell : cells i with
  | empty => simp [cell, transferOf] at busy
  | filling => exact .inl cell
  | full dst => simp [cell, transferOf] at busy
  | emptying dst => exact .inr ⟨dst, cell⟩

theorem processStatus_eq (shows : sm.Shows cells) (sound : event.Sound sm.bufferPool sm.buffers) :
    sm.processStatus event = sm.buffers.foldl (doneAt event) sm := by
  have restarted : ∀ i, (if event.error (buf sm.buf0 i) then sm.errorHelper (buf sm.buf0 i)
      else sm) = sm := by
    intro i
    split
    · rename_i error
      apply errorHelper_eq shows
      apply shows.moves
      exact (sound _ (List.mem_map_of_mem (mem_all i))).2 error
    · rfl
  have first := buf0_doneAt event sm (buf sm.buf0 0)
  have second := buf0_doneAt event (doneAt event sm (buf sm.buf0 0)) (buf sm.buf0 1)
  rw [processStatus]
  split
  · rename_i quiet
    simp only [shows.configured.running, shows.configured.errorOrDone, anyOf_or, Bool.not_true,
      Bool.or_false, Bool.not_eq_true', Bool.or_eq_false_iff] at quiet
    obtain ⟨-, ⟨none, second⟩, third⟩ := quiet
    simp [buffers, Cells.all, doneAt, PoolEvent.done, none, second, third]
  · have refold : ∀ sm bufno, (if event.done bufno then sm.processHelper event bufno else sm) =
        doneAt event sm bufno := fun _ _ => rfl
    simp only [restarted, ite_self, refold]
    rw [first, second, first]
    rfl

theorem setup_processStatus (shows : sm.Shows cells)
    (sound : event.Sound sm.bufferPool sm.buffers) :
    (sm.processStatus event).setup = sm.setup := by
  rw [processStatus_eq shows sound]
  generalize sm.buffers = buffers
  clear shows sound
  induction buffers generalizing sm with
  | nil => rfl
  | cons bufno buffers ih => exact ih.trans (setup_doneAt event sm bufno)

theorem start_shows {memory : Bsm12} {buf0 : Fin nbuffers} {recv send0 send1 : BufCmdArgs}
    (made : init memory buf0 recv send0 send1 = some sm) :
    sm.start.Shows (Cells.of .filling .empty .empty) := by
  have words : ∀ buf0 : Fin nbuffers, buf0 &&& 0x3 = 0 →
      (∀ i j, buf buf0 i < buf buf0 j ↔ i < j) ∧
      ∀ i, buf0 + Fin.castLE (by decide : 4 ≤ 8) (low (buf buf0 i)) = buf buf0 i := by decide
  rw [init] at made
  split at made
  · cases made
  · rename_i aligned
    obtain ⟨order, word⟩ := words buf0 (not_not.mp aligned)
    cases made
    have first := word 0
    rw [buf_zero] at first
    refine ⟨⟨rfl, order, nextOf_buf buf0 (not_not.mp aligned), ?_, ?_, rfl, rfl⟩, ?_, ?_, ?_, ?_,
      ?_, ?_, ?_⟩
    · intro i
      exact congrArg (receiveWord · recv) (word i)
    · intro i dst
      exact congrArg (sendWord · _) (word i)
    · intro i
      fin_cases i <;> simp [start, clearBuf, receiveToBuf, setState, setTarget, update_buf,
        update_buf0, Cells.of, Cell.state]
    · intro i
      fin_cases i <;> simp [start, clearBuf, receiveToBuf, setState, setTarget, update_buf,
        Cells.of, Cell.target]
    · intro i
      fin_cases i <;> simp [start, clearBuf, receiveToBuf, setState, setTarget, update_buf,
        update_buf0, first, Cells.of, transferOf]
    · intro i dst leaves
      fin_cases i <;> cases leaves
    · intro i dst leaves
      fin_cases i <;> cases leaves
    · have receives : (Cells.of .filling .empty .empty).Receives := ⟨0, rfl⟩
      simp [start, receiveToBuf, setState, receives]
    · have busy : ∀ dst, ¬(Cells.of .filling .empty .empty).Busy dst := by
        rintro dst ⟨i, leaves⟩
        fin_cases i <;> cases leaves
      simp [start, receiveToBuf, setState, clearBuf, setTarget, busy]

/-- The buffer is empty when `bsm12_process_status` comes to buffer `f`. -/
def Free (sm : Bsm12) (event : PoolEvent α (Option (Fin 2))) (f bufno : Fin nbuffers) : Prop :=
  sm.bufferState bufno = .empty ∨ event.done bufno = true ∧ bufno < f

instance (sm : Bsm12) (event : PoolEvent α (Option (Fin 2))) (f bufno : Fin nbuffers) :
    Decidable (sm.Free event f bufno) :=
  inferInstanceAs (Decidable (_ ∨ _))

/-- When a packet comes in, the next buffer does not wait for the same destination, unless the one
behind it is done sending before; and if that one is empty, so is the next one, unless it is done
sending afterwards. -/
def Clean (sm : Bsm12) (event : PoolEvent α (Option (Fin 2))) : Prop :=
  ∀ f ∈ sm.buffers, sm.bufferState f = .filling → event.done f = true →
    ∀ dst, event.inspect f = some dst →
      (sm.bufferTarget (sm.nextBuf f) = some dst →
        event.done (sm.nextBuf (sm.nextBuf f)) = true ∧ sm.nextBuf (sm.nextBuf f) < f) ∧
      (sm.Free event f (sm.nextBuf (sm.nextBuf f)) → sm.Free event f (sm.nextBuf f) ∨
        event.done (sm.nextBuf f) = true ∧ f < sm.nextBuf f)

instance (sm : Bsm12) (event : PoolEvent α (Option (Fin 2))) : Decidable (sm.Clean event) :=
  inferInstanceAs (Decidable (∀ f ∈ sm.buffers, sm.bufferState f = .filling →
    event.done f = true → ∀ dst, event.inspect f = some dst → _ ∧ _))

theorem Shows.clean (shows : sm.Shows cells) (clean : sm.Clean event) :
    cells.Clean (reportOf event sm.buf0) := by
  intro f comes dst ended
  have done : event.done (buf sm.buf0 f) = true := by
    rw [← isSome_reportOf, ended]
    rfl
  have answer : event.inspect (buf sm.buf0 f) = some dst := by
    rw [reportOf, if_pos done] at ended
    exact Option.some.inj ended
  have met := clean (buf sm.buf0 f) (List.mem_map_of_mem (mem_all f))
    ((shows.filling_iff f).mpr comes) done dst answer
  simp only [shows.configured.next, shows.full_iff, shows.configured.order] at met
  simp only [Cells.Free, isSome_reportOf]
  simpa only [Free, shows.empty_iff, shows.configured.order] using met

end Bsm12

end GnuRadio.Usrp2

/-!
## Runs of the machine with two outputs

What the machine keeps about packets while the hardware fills and empties its buffers.
-/

namespace GnuRadio.Usrp2

/-- The machine, the contents of the buffers with the answers of the inspector, the packets that
the inspector passed on, and the packets whose send was completed with the transfer. -/
structure Bsm12World (α : Type) where
  sm : Bsm12
  memory : Fin nbuffers → α × Option (Fin 2)
  received : List (α × Option (Fin 2))
  sent : List ((α × Option (Fin 2)) × Transfer)

/-- The transfer takes a packet out of a buffer. -/
def Transfer.isSending : Transfer → Bool
  | .sending _ => true
  | _ => false

/-- The transfer puts a packet in a buffer. -/
def Transfer.isReceiving : Transfer → Bool
  | .receiving _ => true
  | _ => false

namespace Bsm12World

open Bsm12 (buf reportOf)

variable {α : Type}

/-- The contents of the buffers after the transfers that the status reports are over. -/
def memoryAfter (w : Bsm12World α) (event : PoolEvent α (Option (Fin 2))) (bufno : Fin nbuffers) :
    α × Option (Fin 2) :=
  if event.done bufno && (w.sm.bufferPool bufno).isReceiving then
    (event.packet bufno, event.inspect bufno)
  else w.memory bufno

/-- The transfers that the status reports are over, and the machine sees to it. -/
def step (w : Bsm12World α) (event : PoolEvent α (Option (Fin 2))) : Option (Bsm12World α) :=
  if event.Sound w.sm.bufferPool w.sm.buffers then
    some {
      sm := w.sm.processStatus event
      memory := w.memoryAfter event
      received := w.received ++ (w.sm.buffers.filter fun bufno => event.done bufno &&
        (w.sm.bufferPool bufno).isReceiving && (event.inspect bufno).isSome).map
          fun bufno => (event.packet bufno, event.inspect bufno)
      sent := w.sent ++ (w.sm.buffers.filter fun bufno => event.done bufno &&
        (w.sm.bufferPool bufno).isSending).map fun bufno => (w.memory bufno, w.sm.bufferPool bufno) }
  else none

/-- The packets for `dst` that were passed on. -/
def receivedFor (w : Bsm12World α) (dst : Fin 2) : List (α × Option (Fin 2)) :=
  w.received.filter fun packet => packet.2 = some dst

/-- The packets for `dst` that have left. -/
def sentFor (w : Bsm12World α) (dst : Fin 2) : List (α × Option (Fin 2)) :=
  (w.sent.map Prod.fst).filter fun packet => packet.2 = some dst

/-- The buffer holds a packet for `dst`. -/
def Holds (w : Bsm12World α) (dst : Fin 2) (bufno : Fin nbuffers) : Prop :=
  bufno ∈ w.sm.buffers ∧ (w.sm.bufferTarget bufno = some dst ∨
    w.sm.bufferState bufno = .emptying ∧ w.sm.bufferDst bufno = dst)

/-- What the machine is meant to promise. -/
structure Lawful (w : Bsm12World α) : Prop where
  inOrder : ∀ dst, ∃ queue : List (Fin nbuffers), queue.Nodup ∧
    (∀ bufno, bufno ∈ queue ↔ w.Holds dst bufno) ∧
    w.receivedFor dst = w.sentFor dst ++ queue.map w.memory
  rightPort : ∀ entry ∈ w.sent, ∃ dst, entry.1.2 = some dst ∧
    entry.2 = .sending (bpcPort (w.sm.sendArgs dst).port)
  receives : (∃ bufno ∈ w.sm.buffers, w.sm.bufferState bufno = .empty) →
    ∃ bufno ∈ w.sm.buffers, w.sm.bufferState bufno = .filling ∧
      w.sm.bufferPool bufno = .receiving (bpcPort w.sm.recvArgs.port)

/-- The packets that have come in are those that have left and those in the ring. -/
structure Accounts (w : Bsm12World α) (cells : Cells) : Prop where
  shows : w.sm.Shows cells
  valid : cells.Valid
  opens : cells.Open
  equal : ∀ dst, w.receivedFor dst =
    w.sentFor dst ++ (cells.queue dst).map fun i => w.memory (buf w.sm.buf0 i)
  tagged : ∀ dst, ∀ i ∈ cells.queue dst, (w.memory (buf w.sm.buf0 i)).2 = some dst
  ports : ∀ entry ∈ w.sent, ∃ dst, entry.1.2 = some dst ∧
    entry.2 = .sending (bpcPort (w.sm.sendArgs dst).port)

variable {w : Bsm12World α} {cells : Cells}

open Cells in
theorem arrived_eq (shows : w.sm.Shows cells) (event : PoolEvent α (Option (Fin 2))) (dst : Fin 2) :
    ((w.sm.buffers.filter fun bufno => event.done bufno &&
        (w.sm.bufferPool bufno).isReceiving && (event.inspect bufno).isSome).map
          fun bufno => (event.packet bufno, event.inspect bufno)).filter (fun p => p.2 = some dst) =
      (cells.arriving (reportOf event w.sm.buf0) dst all).map
        fun i => (event.packet (buf w.sm.buf0 i), event.inspect (buf w.sm.buf0 i)) := by
  simp only [Bsm12.buffers, List.filter_map, List.map_map, List.filter_filter, arriving]
  congr 1
  apply List.filter_congr
  intro i _
  have pool := shows.pool i
  simp only [Function.comp_apply, pool, reportOf]
  by_cases answer : event.inspect (buf w.sm.buf0 i) = some dst <;>
    cases done : event.done (buf w.sm.buf0 i) <;>
      cases cell : cells i <;> simp [Bsm12.transferOf, Transfer.isReceiving, answer]

open Cells in
theorem departed_eq (accounts : w.Accounts cells) (event : PoolEvent α (Option (Fin 2)))
    (dst : Fin 2) :
    (((w.sm.buffers.filter fun bufno => event.done bufno &&
        (w.sm.bufferPool bufno).isSending).map
          fun bufno => (w.memory bufno, w.sm.bufferPool bufno)).map Prod.fst).filter
            (fun p => p.2 = some dst) =
      (cells.departing (reportOf event w.sm.buf0) dst all).map
        fun i => w.memory (buf w.sm.buf0 i) := by
  simp only [Bsm12.buffers, List.filter_map, List.map_map, List.filter_filter, departing]
  congr 1
  apply List.filter_congr
  intro i _
  have pool := accounts.shows.pool i
  have tag := fun other leaves =>
    accounts.tagged other i ((mem_queue accounts.valid).mpr (.inr leaves))
  simp only [Function.comp_apply, pool, Bsm12.isSome_reportOf]
  cases cell : cells i with
  | emptying other =>
    by_cases same : other = dst <;> cases event.done (buf w.sm.buf0 i) <;>
      simp [Bsm12.transferOf, Transfer.isSending, tag other cell, same]
  | _ => simp [Bsm12.transferOf, Transfer.isSending]

open Cells in
theorem memoryAfter_queue (accounts : w.Accounts cells) (event : PoolEvent α (Option (Fin 2)))
    {dst : Fin 2} {i : Fin 3} (member : i ∈ cells.queue dst) :
    w.memoryAfter event (buf w.sm.buf0 i) = w.memory (buf w.sm.buf0 i) := by
  have pool := accounts.shows.pool i
  rw [memoryAfter, pool]
  obtain full | leaves := (mem_queue accounts.valid).mp member
  · simp [full, Bsm12.transferOf, Transfer.isReceiving]
  · simp [leaves, Bsm12.transferOf, Transfer.isReceiving]

open Cells in
theorem memoryAfter_arriving {w : Bsm12World α} {cells : Cells} (shows : w.sm.Shows cells)
    {event : PoolEvent α (Option (Fin 2))} {dst : Fin 2} {i : Fin 3}
    (member : i ∈ cells.arriving (reportOf event w.sm.buf0) dst all) :
    w.memoryAfter event (buf w.sm.buf0 i) =
        (event.packet (buf w.sm.buf0 i), event.inspect (buf w.sm.buf0 i)) ∧
      event.inspect (buf w.sm.buf0 i) = some dst := by
  have came := List.of_mem_filter member
  simp only [Bool.and_eq_true, beq_iff_eq] at came
  obtain ⟨ended, comes⟩ := came
  have done : event.done (buf w.sm.buf0 i) = true := by
    rw [← Bsm12.isSome_reportOf, ended]
    rfl
  rw [reportOf, if_pos done] at ended
  refine ⟨?_, Option.some.inj ended⟩
  rw [memoryAfter, shows.pool, comes, done]
  rfl

open Cells in
theorem step_accounts {next : Bsm12World α} {event : PoolEvent α (Option (Fin 2))}
    (accounts : w.Accounts cells) (clean : w.sm.Clean event) (stepped : w.step event = some next) :
    ∃ cells, next.Accounts cells := by
  have shows := accounts.shows
  rw [step] at stepped
  split at stepped
  · rename_i sound
    have moves : ∀ i, (reportOf event w.sm.buf0 i).isSome = true → cells.Moves i := by
      intro i ended
      rw [Bsm12.isSome_reportOf] at ended
      exact shows.moves ((sound _ (List.mem_map_of_mem (Bsm12.mem_all i))).1 ended).1
    have settled := settled_of_clean accounts.valid accounts.opens moves (shows.clean clean)
    have after := @Bsm12.Shows.foldl _ _ _ shows accounts.valid event all (by decide) fun i _ => moves i
    have setup := Bsm12.setup_processStatus shows sound
    have buf0 : (w.sm.processStatus event).buf0 = w.sm.buf0 := congrArg Prod.fst setup
    have sendArgs : (w.sm.processStatus event).sendArgs = w.sm.sendArgs :=
      congrArg (fun setup => setup.2.2) setup
    cases stepped
    refine ⟨_, ⟨?_, settled.valid, settled.opens, ?_, ?_, ?_⟩⟩
    · rw [Bsm12.processStatus_eq shows sound]
      exact after
    · intro dst
      obtain ⟨kept, before, behind⟩ := settled.queue dst
      have old : kept.map (fun i => w.memoryAfter event (buf w.sm.buf0 i)) =
          kept.map fun i => w.memory (buf w.sm.buf0 i) := by
        apply List.map_congr_left
        intro i member
        exact memoryAfter_queue accounts event (before ▸ List.mem_append_right _ member)
      have new := List.map_congr_left fun i member =>
        (@memoryAfter_arriving α _ _ shows event dst i member).1
      have received := accounts.equal dst
      rw [receivedFor, sentFor] at received ⊢
      dsimp only
      rw [buf0, behind]
      simp only [List.map_append, List.filter_append]
      rw [old, new, arrived_eq shows, departed_eq accounts, received, before]
      simp only [List.map_append, List.append_assoc]
    · intro dst i member
      obtain ⟨kept, before, behind⟩ := settled.queue dst
      rw [behind] at member
      dsimp only
      rw [buf0]
      obtain member | member := List.mem_append.mp member
      · have queued : i ∈ cells.queue dst := before ▸ List.mem_append_right _ member
        rw [memoryAfter_queue accounts event queued]
        exact accounts.tagged dst i queued
      · obtain ⟨packet, answer⟩ := memoryAfter_arriving shows member
        rw [packet]
        exact answer
    · intro entry member
      dsimp only
      rw [sendArgs]
      obtain member | member := List.mem_append.mp member
      · exact accounts.ports entry member
      · obtain ⟨bufno, emptied, rfl⟩ := List.mem_map.mp member
        have sends := List.of_mem_filter emptied
        obtain ⟨i, -, rfl⟩ := List.mem_map.mp (List.mem_of_mem_filter emptied)
        rw [shows.pool, Bool.and_eq_true] at sends
        dsimp only
        rw [shows.pool]
        cases cell : cells i with
        | emptying dst =>
          refine ⟨dst, ?_, rfl⟩
          exact accounts.tagged dst i ((mem_queue accounts.valid).mpr (.inr cell))
        | _ =>
          rw [cell] at sends
          cases sends.2
  · cases stepped

open Cells in
theorem Accounts.lawful (accounts : w.Accounts cells) : w.Lawful := by
  have shows := accounts.shows
  have distinct : Function.Injective (buf w.sm.buf0) := fun i j same =>
    (Bsm12.buf_inj _ i j).mp same
  refine ⟨?_, accounts.ports, ?_⟩
  · intro dst
    refine ⟨(cells.queue dst).map (buf w.sm.buf0), ?_, ?_, ?_⟩
    · exact (nodup_queue accounts.valid dst).map distinct
    · intro bufno
      constructor
      · intro member
        obtain ⟨i, queued, rfl⟩ := List.mem_map.mp member
        refine ⟨List.mem_map_of_mem (Bsm12.mem_all i), ?_⟩
        obtain full | leaves := (mem_queue accounts.valid).mp queued
        · exact .inl ((shows.full_iff i dst).mpr full)
        · exact .inr ⟨by rw [shows.state, leaves]; rfl, shows.dst i dst leaves⟩
      · rintro ⟨used, held⟩
        obtain ⟨i, -, rfl⟩ := List.mem_map.mp used
        apply List.mem_map_of_mem
        apply (mem_queue accounts.valid).mpr
        obtain target | ⟨state, here⟩ := held
        · exact .inl ((shows.full_iff i dst).mp target)
        · rw [shows.state] at state
          cases cell : cells i with
          | emptying other => rw [← here, shows.dst i other cell]; exact .inr rfl
          | _ => rw [cell] at state; cases state
    · rw [List.map_map]
      exact accounts.equal dst
  · rintro ⟨bufno, used, empty⟩
    obtain ⟨i, -, rfl⟩ := List.mem_map.mp used
    obtain ⟨j, comes⟩ := accounts.opens ⟨i, (shows.empty_iff i).mp empty⟩
    refine ⟨buf w.sm.buf0 j, List.mem_map_of_mem (Bsm12.mem_all j), ?_, ?_⟩
    · exact (shows.filling_iff j).mpr comes
    · rw [shows.pool, comes]
      rfl

/-- A transfer is over, of a packet with this answer if one came in. -/
def ended (bufno : Fin nbuffers) (packet : Nat) (answer : Option (Fin 2)) :
    PoolEvent Nat (Option (Fin 2)) :=
  ⟨bpsDone bufno, fun _ => packet, fun _ => answer, fun _ => 0⟩

/-- The machine of the example runs. -/
def started : Bsm12World Nat :=
  ⟨((Bsm12.init .blank 4 ⟨2, 0, 500⟩ ⟨0, 0, 500⟩ ⟨1, 0, 500⟩).get rfl).start,
    fun _ => (0, none), [], []⟩

end Bsm12World

end GnuRadio.Usrp2
