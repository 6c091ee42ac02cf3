import GnuRadio.Misc.Trace
import GnuRadio.Usrp2.BufferPool
import Mathlib.Data.Fin.VecNotation

/-!
# The double buffering state machine

`dbsm.c` takes packets from one port to another through two buffers. While one is
filled, the other is emptied.
-/

namespace GnuRadio.Usrp2

/-- `dbsm_t` (`dbsm.h:53-65`) with `buffer_state` and the transfers of the buffer pool. The answers
of `inspect` come with the events. -/
structure Dbsm where
  buf0 : Fin nbuffers
  running : Bool
  rxIdle : Bool
  txIdle : Bool
  recvArgs : BufCmdArgs
  sendArgs : BufCmdArgs
  precomputedReceiveToBufCtrlWord : Fin 2 → CtrlWord
  precomputedSendFromBufCtrlWord : Fin 2 → CtrlWord
  lastLineAdj : UInt32
  bufferState : Fin nbuffers → BufferState
  bufferPool : BufferPool

namespace Dbsm

/-- `bufno & 1`, an index of the words. -/
def low (bufno : Fin nbuffers) : Fin 2 := Fin.ofNat 2 bufno

/-- An assignment to `buffer_state[bufno]`. -/
def setState (sm : Dbsm) (bufno : Fin nbuffers) (state : BufferState) : Dbsm :=
  { sm with bufferState := Function.update sm.bufferState bufno state }

/-- `bp_clear_buf` (`buffer_pool.h:40-44`). -/
def clearBuf (sm : Dbsm) (bufnum : Fin nbuffers) : Dbsm :=
  { sm with bufferPool := sm.bufferPool.ctrl (clearWord bufnum) }

/-- `dbsm_init` (`dbsm.c:45-103`) on the buffers as they are, or `none` where it aborts. -/
def init (bufferState : Fin nbuffers → BufferState) (bufferPool : BufferPool)
    (buf0 : Fin nbuffers) (recv send : BufCmdArgs) : Option Dbsm :=
  if buf0 &&& 1 ≠ 0 then none
  else some {
    buf0
    running := false
    rxIdle := true
    txIdle := true
    recvArgs := recv
    sendArgs := send
    precomputedReceiveToBufCtrlWord := ![receiveWord buf0 recv, receiveWord (buf0 ^^^ 1) recv]
    precomputedSendFromBufCtrlWord := ![sendWord buf0 send, sendWord (buf0 ^^^ 1) send]
    lastLineAdj := 1
    bufferState :=
      Function.update (Function.update bufferState buf0 .empty) (buf0 ^^^ 1) .empty
    bufferPool }

/-- `dbsm_receive_to_buf` (`dbsm.c:105-109`). -/
def receiveToBuf (sm : Dbsm) (bufno : Fin nbuffers) : Dbsm :=
  { sm with
    bufferPool := sm.bufferPool.ctrl (sm.precomputedReceiveToBufCtrlWord (low bufno)) }

/-- `dbsm_send_from_buf` (`dbsm.c:111-117`). -/
def sendFromBuf (sm : Dbsm) (lastLine : Fin nbuffers → UInt32) (bufno : Fin nbuffers) : Dbsm :=
  let word := sm.precomputedSendFromBufCtrlWord (low bufno)
  { sm with
    bufferPool := sm.bufferPool.ctrl (word.withLastLine (lastLine bufno - sm.lastLineAdj)) }

/-- `dbsm_start` (`dbsm.c:119-137`). -/
def start (sm : Dbsm) : Dbsm :=
  let sm := { sm with running := true }
  let sm := (sm.setState sm.buf0 .empty).setState (sm.buf0 ^^^ 1) .empty
  let sm := (sm.clearBuf sm.buf0).clearBuf (sm.buf0 ^^^ 1)
  let sm := { sm with txIdle := true, rxIdle := false }
  (sm.receiveToBuf sm.buf0).setState sm.buf0 .filling

variable {α : Type}

/-- `dbsm_process_helper` (`dbsm.c:176-224`). -/
def processHelper (sm : Dbsm) (event : PoolEvent α Bool) (bufThis : Fin nbuffers) : Dbsm :=
  let bufOther := bufThis ^^^ 1
  let sm := sm.clearBuf bufThis
  if sm.bufferState bufThis = .filling then
    let sm := sm.setState bufThis .full
    if event.inspect bufThis then (sm.receiveToBuf bufThis).setState bufThis .filling
    else
      let sm := if sm.bufferState bufOther = .empty then
          (sm.receiveToBuf bufOther).setState bufOther .filling
        else { sm with rxIdle := true }
      if sm.txIdle then
        ({ sm with txIdle := false }.sendFromBuf event.lastLine bufThis).setState bufThis .emptying
      else sm
  else
    let sm := sm.setState bufThis .empty
    let sm := if sm.rxIdle then
        ({ sm with rxIdle := false }.receiveToBuf bufThis).setState bufThis .filling
      else sm
    if sm.bufferState bufOther = .full then
      (sm.sendFromBuf event.lastLine bufOther).setState bufOther .emptying
    else { sm with txIdle := true }

/-- `dbsm_error_helper` (`dbsm.c:226-237`). -/
def errorHelper (sm : Dbsm) (event : PoolEvent α Bool) (bufThis : Fin nbuffers) : Dbsm :=
  let sm := sm.clearBuf bufThis
  if sm.bufferState bufThis = .filling then sm.receiveToBuf bufThis
  else sm.sendFromBuf event.lastLine bufThis

/-- `dbsm_process_status` (`dbsm.c:153-174`). -/
def processStatus (sm : Dbsm) (event : PoolEvent α Bool) : Dbsm :=
  if !sm.running then sm
  else
    let sm := if anyOf event.status (bpsError sm.buf0 ||| bpsError (sm.buf0 ^^^ 1)) then
        let sm := if event.error sm.buf0 then sm.errorHelper event sm.buf0 else sm
        if event.error (sm.buf0 ^^^ 1) then sm.errorHelper event (sm.buf0 ^^^ 1) else sm
      else sm
    let sm := if event.done sm.buf0 then sm.processHelper event sm.buf0 else sm
    if event.done (sm.buf0 ^^^ 1) then sm.processHelper event (sm.buf0 ^^^ 1) else sm

/-! ## The two buffers -/

/-- One of the two buffers of the machine. -/
def Uses (sm : Dbsm) (bufno : Fin nbuffers) : Prop := bufno = sm.buf0 ∨ bufno = sm.buf0 ^^^ 1

@[simp] theorem other_other : ∀ bufno : Fin nbuffers, bufno ^^^ 1 ^^^ 1 = bufno := by decide

@[simp] theorem other_ne : ∀ bufno : Fin nbuffers, bufno ^^^ 1 ≠ bufno := by decide

@[simp] theorem ne_other : ∀ bufno : Fin nbuffers, bufno ≠ bufno ^^^ 1 := by decide

variable {sm : Dbsm} {bufno : Fin nbuffers} {this : BufferState} {rxIdle txIdle : Bool}
  {event : PoolEvent α Bool} {queue : List (Fin nbuffers)}

theorem Uses.other (uses : sm.Uses bufno) : sm.Uses (bufno ^^^ 1) := by
  obtain rfl | rfl := uses
  · exact .inr rfl
  · exact .inl (other_other sm.buf0)

/-- The machine runs, and has the words for its buffers. -/
structure Configured (sm : Dbsm) : Prop where
  running : sm.running = true
  receive : ∀ bufno, sm.Uses bufno →
    sm.precomputedReceiveToBufCtrlWord (low bufno) = receiveWord bufno sm.recvArgs
  send : ∀ bufno, sm.Uses bufno →
    sm.precomputedSendFromBufCtrlWord (low bufno) = sendWord bufno sm.sendArgs

/-- The transfer of a buffer in a state. -/
def transferOf (sm : Dbsm) : BufferState → Transfer
  | .filling => .receiving (bpcPort sm.recvArgs.port)
  | .emptying => .sending (bpcPort sm.sendArgs.port)
  | .empty | .full => .idle

/-- The states of a buffer and of the other one, and of the two sides. -/
structure Stands (sm : Dbsm) (bufThis : Fin nbuffers) (this other : BufferState)
    (rxIdle txIdle : Bool) : Prop where
  configured : sm.Configured
  uses : sm.Uses bufThis
  stateThis : sm.bufferState bufThis = this
  stateOther : sm.bufferState (bufThis ^^^ 1) = other
  transferThis : sm.bufferPool bufThis = sm.transferOf this
  transferOther : sm.bufferPool (bufThis ^^^ 1) = sm.transferOf other
  rxIdle : sm.rxIdle = rxIdle
  txIdle : sm.txIdle = txIdle

/-- What the machine can be doing, with the buffers that hold packets, the oldest first. -/
inductive Holds (sm : Dbsm) : List (Fin nbuffers) → Prop
  | receiving (bufno : Fin nbuffers) (stands : sm.Stands bufno .filling .empty false true) :
      Holds sm []
  | both (bufno : Fin nbuffers) (stands : sm.Stands bufno .filling .emptying false false) :
      Holds sm [bufno ^^^ 1]
  | sending (bufno : Fin nbuffers) (stands : sm.Stands bufno .full .emptying true false) :
      Holds sm [bufno ^^^ 1, bufno]

theorem Stands.swap {bufThis : Fin nbuffers} {other : BufferState}
    (stands : sm.Stands bufThis this other rxIdle txIdle) :
    sm.Stands (bufThis ^^^ 1) other this rxIdle txIdle where
  configured := stands.configured
  uses := stands.uses.other
  stateThis := stands.stateOther
  stateOther := by rw [other_other, stands.stateThis]
  transferThis := stands.transferOther
  transferOther := by rw [other_other, stands.transferThis]
  rxIdle := stands.rxIdle
  txIdle := stands.txIdle

/-! ## What the helpers do -/

section Helpers

variable {sm : Dbsm} {bufThis : Fin nbuffers} {event : PoolEvent α Bool}

variable {this : BufferState} {rxIdle txIdle : Bool}

theorem Configured.change (configured : sm.Configured) (uses : sm.Uses bufThis)
    {bufferState : Fin nbuffers → BufferState} {bufferPool : BufferPool} (rxIdle txIdle : Bool)
    {other : BufferState} (stateThis : bufferState bufThis = this)
    (stateOther : bufferState (bufThis ^^^ 1) = other)
    (transferThis : bufferPool bufThis = sm.transferOf this)
    (transferOther : bufferPool (bufThis ^^^ 1) = sm.transferOf other) :
    Stands { sm with bufferState, bufferPool, rxIdle, txIdle } bufThis this other rxIdle txIdle :=
  ⟨⟨configured.running, configured.receive, configured.send⟩, uses, stateThis, stateOther,
    transferThis, transferOther, rfl, rfl⟩

theorem errorHelper_eq {other : BufferState} (stands : sm.Stands bufThis this other rxIdle txIdle)
    (busy : this = .filling ∨ this = .emptying) : sm.errorHelper event bufThis = sm := by
  have restored : Function.update sm.bufferPool bufThis (sm.transferOf this) = sm.bufferPool := by
    rw [← stands.transferThis, Function.update_eq_self]
  obtain rfl | rfl := busy
  · rw [transferOf] at restored
    simp [errorHelper, clearBuf, receiveToBuf, stands.stateThis,
      stands.configured.receive bufThis stands.uses, restored]
  · rw [transferOf] at restored
    simp [errorHelper, clearBuf, sendFromBuf, stands.stateThis,
      stands.configured.send bufThis stands.uses, restored]

theorem processHelper_handled {other : BufferState}
    (stands : sm.Stands bufThis .filling other rxIdle txIdle)
    (handled : event.inspect bufThis = true) :
    (sm.processHelper event bufThis).Stands bufThis .filling other rxIdle txIdle := by
  simp only [processHelper, clearBuf, setState, receiveToBuf, stands.stateThis, handled,
    stands.configured.receive bufThis stands.uses, stands.rxIdle, stands.txIdle, if_true]
  apply stands.configured.change stands.uses
  · simp
  · simp [stands.stateOther]
  · simp [transferOf]
  · simp [stands.transferOther]

theorem processHelper_filled (stands : sm.Stands bufThis .filling .empty false true)
    (passed : event.inspect bufThis = false) :
    (sm.processHelper event bufThis).Stands bufThis .emptying .filling false false := by
  simp [processHelper, clearBuf, setState, receiveToBuf, sendFromBuf, stands.stateThis, passed,
    stands.stateOther, stands.configured.receive _ stands.uses.other,
    stands.configured.send bufThis stands.uses, stands.rxIdle, stands.txIdle]
  apply stands.configured.change stands.uses <;> simp [transferOf]

theorem processHelper_waits (stands : sm.Stands bufThis .filling .emptying false false)
    (passed : event.inspect bufThis = false) :
    (sm.processHelper event bufThis).Stands bufThis .full .emptying true false := by
  simp [processHelper, clearBuf, setState, stands.stateThis, passed, stands.stateOther,
    stands.txIdle]
  apply stands.configured.change stands.uses <;>
    simp [transferOf, stands.stateOther, stands.transferOther]

theorem processHelper_sent (stands : sm.Stands bufThis .emptying .filling false false) :
    (sm.processHelper event bufThis).Stands bufThis .empty .filling false true := by
  simp [processHelper, clearBuf, setState, stands.stateThis, stands.stateOther, stands.rxIdle]
  apply stands.configured.change stands.uses <;>
    simp [transferOf, stands.stateOther, stands.transferOther]

theorem processHelper_next (stands : sm.Stands bufThis .emptying .full true false) :
    (sm.processHelper event bufThis).Stands bufThis .filling .emptying false false := by
  simp [processHelper, clearBuf, setState, receiveToBuf, sendFromBuf, stands.stateThis,
    stands.stateOther, stands.rxIdle, stands.txIdle, stands.configured.receive _ stands.uses,
    stands.configured.send _ stands.uses.other]
  apply stands.configured.change stands.uses <;> simp [transferOf]

end Helpers

/-! ## What a status does -/

def buffers (sm : Dbsm) : List (Fin nbuffers) := [sm.buf0, sm.buf0 ^^^ 1]

theorem mem_buffers : bufno ∈ sm.buffers ↔ sm.Uses bufno := by
  simp [buffers, Uses]

/-- The part of `processStatus` about a buffer that is done. -/
def doneAt (event : PoolEvent α Bool) (sm : Dbsm) (bufno : Fin nbuffers) : Dbsm :=
  if event.done bufno then sm.processHelper event bufno else sm

theorem doneAt_of_done (done : event.done bufno = true) (sm : Dbsm) :
    doneAt event sm bufno = sm.processHelper event bufno :=
  if_pos done

theorem doneAt_of_not (done : event.done bufno = false) (sm : Dbsm) : doneAt event sm bufno = sm :=
  if_neg (by simp [done])

section

variable (sm : Dbsm) (bufno : Fin nbuffers)

@[simp] theorem buf0_setState (state : BufferState) : (sm.setState bufno state).buf0 = sm.buf0 :=
  rfl

@[simp] theorem buf0_clearBuf : (sm.clearBuf bufno).buf0 = sm.buf0 := rfl

@[simp] theorem buf0_receiveToBuf : (sm.receiveToBuf bufno).buf0 = sm.buf0 := rfl

@[simp] theorem buf0_sendFromBuf (lastLine : Fin nbuffers → UInt32) :
    (sm.sendFromBuf lastLine bufno).buf0 = sm.buf0 :=
  rfl

end

theorem buf0_doneAt (event : PoolEvent α Bool) (sm : Dbsm) (bufno : Fin nbuffers) :
    (doneAt event sm bufno).buf0 = sm.buf0 := by
  simp only [doneAt, processHelper, apply_ite buf0, buf0_setState, buf0_clearBuf,
    buf0_receiveToBuf, buf0_sendFromBuf, ite_self]

theorem Holds.stands (holds : sm.Holds queue) (uses : sm.Uses bufno) :
    ∃ this other rxIdle txIdle, sm.Stands bufno this other rxIdle txIdle := by
  have either : ∀ first : Fin nbuffers, sm.Uses first → bufno = first ∨ bufno = first ^^^ 1 := by
    rintro first (rfl | rfl)
    · exact uses
    · obtain rfl | rfl := uses
      · exact .inr (other_other sm.buf0).symm
      · exact .inl rfl
  obtain ⟨first, stands⟩ | ⟨first, stands⟩ | ⟨first, stands⟩ := holds <;>
    obtain rfl | rfl := either first stands.uses
  all_goals first
    | exact ⟨_, _, _, _, stands⟩
    | exact ⟨_, _, _, _, stands.swap⟩

theorem Stands.busy {other : BufferState} (stands : sm.Stands bufno this other rxIdle txIdle)
    (some : sm.bufferPool bufno ≠ .idle) : this = .filling ∨ this = .emptying := by
  rw [stands.transferThis] at some
  cases this with
  | empty => exact absurd rfl some
  | filling => exact .inl rfl
  | full => exact absurd rfl some
  | emptying => exact .inr rfl

theorem not_done (sound : event.Sound sm.bufferPool sm.buffers) (uses : sm.Uses bufno)
    (idle : sm.bufferPool bufno = .idle) : event.done bufno = false := by
  by_contra done
  exact ((sound bufno (mem_buffers.mpr uses)).1 (by simpa using done)).1 idle

theorem processStatus_eq (holds : sm.Holds queue) (sound : event.Sound sm.bufferPool sm.buffers) :
    sm.processStatus event = doneAt event (doneAt event sm sm.buf0) (sm.buf0 ^^^ 1) := by
  have restarted : ∀ bufno, sm.Uses bufno →
      (if event.error bufno then sm.errorHelper event bufno else sm) = sm := by
    intro bufno uses
    split
    · rename_i error
      obtain ⟨this, other, rxIdle, txIdle, stands⟩ := holds.stands uses
      exact errorHelper_eq stands
        (stands.busy ((sound bufno (mem_buffers.mpr uses)).2 error))
    · rfl
  obtain ⟨this, other, rxIdle, txIdle, stands⟩ := holds.stands (.inl rfl)
  have kept := buf0_doneAt event sm sm.buf0
  simp only [doneAt] at kept ⊢
  simp [processStatus, stands.configured.running, restarted _ (.inl rfl),
    restarted _ (.inr rfl)]
  rw [kept]

/-- The buffers whose send is over. -/
def departing (sm : Dbsm) (event : PoolEvent α Bool) : List (Fin nbuffers) :=
  sm.buffers.filter fun bufno =>
    event.done bufno && sm.bufferPool bufno == .sending (bpcPort sm.sendArgs.port)

/-- The buffers that were filled with a packet that the inspector leaves alone. -/
def arriving (sm : Dbsm) (event : PoolEvent α Bool) : List (Fin nbuffers) :=
  sm.buffers.filter fun bufno =>
    event.done bufno && sm.bufferPool bufno == .receiving (bpcPort sm.recvArgs.port) &&
      !event.inspect bufno

theorem mem_buffers_of (uses : sm.Uses bufno) (other : Fin nbuffers) :
    other ∈ sm.buffers ↔ other = bufno ∨ other = bufno ^^^ 1 := by
  obtain rfl | rfl := uses
  · simp [buffers]
  · simp [buffers, or_comm]

theorem filter_buffers (uses : sm.Uses bufno) {p : Fin nbuffers → Bool}
    (other : p (bufno ^^^ 1) = false) : sm.buffers.filter p = if p bufno then [bufno] else [] := by
  obtain rfl | rfl := uses
  · simp [buffers, List.filter_cons, other]
  · rw [other_other] at other
    simp [buffers, List.filter_cons, other]

/-- Two buffers in the order of the machine, when the second one has nothing to do. -/
theorem doneAt_one {sm : Dbsm} {event : PoolEvent α Bool} {bufno : Fin nbuffers}
    (uses : sm.Uses bufno) (other : event.done (bufno ^^^ 1) = false) :
    doneAt event (doneAt event sm sm.buf0) (sm.buf0 ^^^ 1) = doneAt event sm bufno := by
  obtain rfl | rfl := uses
  · rw [doneAt_of_not other]
  · rw [other_other] at other
    rw [doneAt_of_not other]

theorem Stands.alone (stands : sm.Stands bufno .filling .empty false true) :
    (doneAt event sm bufno).Holds
      (if event.done bufno && !event.inspect bufno then [bufno] else []) := by
  cases filled : event.done bufno with
  | false =>
    rw [doneAt_of_not filled]
    exact .receiving bufno stands
  | true =>
    rw [doneAt_of_done filled]
    cases handled : event.inspect bufno with
    | true => exact .receiving bufno (processHelper_handled stands handled)
    | false =>
      have next := Holds.both _ (processHelper_filled stands handled).swap
      rw [other_other] at next
      exact next

theorem Stands.fillFirst {sm : Dbsm} {bufno : Fin nbuffers} {event : PoolEvent α Bool}
    (stands : sm.Stands bufno .filling .emptying false false) :
    (doneAt event (doneAt event sm bufno) (bufno ^^^ 1)).Holds
      ((if event.done (bufno ^^^ 1) then [] else [bufno ^^^ 1]) ++
        if event.done bufno && !event.inspect bufno then [bufno] else []) := by
  have refilled : ∀ {sm : Dbsm}, sm.Stands bufno .filling .emptying false false →
      (doneAt event sm (bufno ^^^ 1)).Holds
        (if event.done (bufno ^^^ 1) then [] else [bufno ^^^ 1]) := by
    intro sm stands
    cases emptied : event.done (bufno ^^^ 1) with
    | false =>
      rw [doneAt_of_not emptied]
      exact .both bufno stands
    | true =>
      have next := (@processHelper_sent _ _ _ event stands.swap).swap
      rw [other_other] at next
      rw [doneAt_of_done emptied]
      exact .receiving bufno next
  cases filled : event.done bufno with
  | false =>
    rw [doneAt_of_not filled]
    simpa using refilled stands
  | true =>
    rw [doneAt_of_done filled]
    cases handled : event.inspect bufno with
    | true => simpa using refilled (processHelper_handled stands handled)
    | false =>
      have waits := processHelper_waits stands handled
      cases emptied : event.done (bufno ^^^ 1) with
      | false =>
        rw [doneAt_of_not emptied]
        exact .sending bufno waits
      | true =>
        have next := Holds.both _ (@processHelper_next _ _ _ event waits.swap)
        rw [other_other] at next
        rw [doneAt_of_done emptied]
        exact next

theorem Stands.emptyFirst (stands : sm.Stands bufno .filling .emptying false false) :
    (doneAt event (doneAt event sm (bufno ^^^ 1)) bufno).Holds
      ((if event.done (bufno ^^^ 1) then [] else [bufno ^^^ 1]) ++
        if event.done bufno && !event.inspect bufno then [bufno] else []) := by
  cases emptied : event.done (bufno ^^^ 1) with
  | false =>
    have first := @Stands.fillFirst _ _ _ event stands
    rw [doneAt_of_not emptied] at first ⊢
    simpa [emptied] using first
  | true =>
    have next := (@processHelper_sent _ _ _ event stands.swap).swap
    rw [other_other] at next
    rw [doneAt_of_done emptied]
    exact next.alone

theorem Holds.not_receiving (holds : sm.Holds queue)
    (bufno : Fin nbuffers) (member : bufno ∈ queue) :
    sm.bufferPool bufno ≠ .receiving (bpcPort sm.recvArgs.port) := by
  cases holds with
  | receiving first stands => cases member
  | both first stands =>
    obtain rfl := List.mem_singleton.mp member
    simp [stands.transferOther, transferOf]
  | sending first stands =>
    obtain rfl | member := List.mem_cons.mp member
    · simp [stands.transferOther, transferOf]
    · obtain rfl := List.mem_singleton.mp member
      simp [stands.transferThis, transferOf]

/-- **One status.** The oldest packets have left, and the newest ones have come in. -/
theorem Holds.processStatus (holds : sm.Holds queue)
    (sound : event.Sound sm.bufferPool sm.buffers) :
    ∃ kept, queue = sm.departing event ++ kept ∧
      (sm.processStatus event).Holds (kept ++ sm.arriving event) := by
  rw [processStatus_eq holds sound]
  cases holds with
  | receiving bufno stands =>
    have idle := not_done sound stands.uses.other stands.transferOther
    refine ⟨[], ?_, ?_⟩
    · simp [departing, filter_buffers stands.uses, idle, stands.transferThis, transferOf]
    · rw [doneAt_one stands.uses idle, arriving, filter_buffers stands.uses (by simp [idle])]
      simpa [stands.transferThis, transferOf] using stands.alone
  | both bufno stands =>
    refine ⟨if event.done (bufno ^^^ 1) then [] else [bufno ^^^ 1], ?_, ?_⟩
    · rw [departing, filter_buffers stands.uses.other
        (by simp [stands.transferThis, transferOf])]
      cases emptied : event.done (bufno ^^^ 1) <;> simp [stands.transferOther, transferOf]
    · have arrived : sm.arriving event =
          if event.done bufno && !event.inspect bufno then [bufno] else [] := by
        rw [arriving, filter_buffers stands.uses (by simp [stands.transferOther, transferOf])]
        simp [stands.transferThis, transferOf]
      rw [arrived]
      obtain same | same := stands.uses
      · rw [← same]
        exact stands.fillFirst
      · have second : sm.buf0 = bufno ^^^ 1 := by rw [same, other_other]
        rw [second, other_other]
        exact stands.emptyFirst
  | sending bufno stands =>
    have idle := not_done sound stands.uses stands.transferThis
    have alone := @doneAt_one _ _ event _ stands.uses.other (by rwa [other_other])
    have arrived : sm.arriving event = [] := by
      rw [arriving, filter_buffers stands.uses (by simp [stands.transferOther, transferOf])]
      simp [idle]
    rw [alone, arrived, departing, filter_buffers stands.uses.other (by simp [idle])]
    cases emptied : event.done (bufno ^^^ 1) with
    | false =>
      refine ⟨_, rfl, ?_⟩
      rw [doneAt_of_not emptied]
      exact .sending bufno stands
    | true =>
      have next := Holds.both _ (@processHelper_next _ _ _ event stands.swap)
      rw [other_other] at next
      refine ⟨[bufno], ?_, ?_⟩
      · simp [stands.transferOther, transferOf]
      · rw [doneAt_of_done emptied]
        exact next

theorem start_holds {bufferState : Fin nbuffers → BufferState} {bufferPool : BufferPool}
    {buf0 : Fin nbuffers} {recv send : BufCmdArgs}
    (made : init bufferState bufferPool buf0 recv send = some sm) : sm.start.Holds [] := by
  have words : ∀ bufno : Fin nbuffers, bufno &&& 1 = 0 →
      low bufno = 0 ∧ low (bufno ^^^ 1) = 1 := by decide
  rw [init] at made
  split at made
  · cases made
  · rename_i even
    obtain ⟨first, second⟩ := words buf0 (not_not.mp even)
    cases made
    simp [start, clearBuf, setState, receiveToBuf, first]
    refine .receiving buf0 ⟨⟨rfl, ?_, ?_⟩, .inl rfl, ?_, ?_, ?_, ?_, rfl, rfl⟩
    · rintro bufno (rfl | rfl)
      · simp [first]
      · simp [second]
    · rintro bufno (rfl | rfl)
      · simp [first]
      · simp [second]
    all_goals simp [transferOf]

end Dbsm

/-! ## Runs -/

/-- The machine, the contents of the buffers, the packets that the inspector left alone and the
packets whose send was completed. -/
structure DbsmWorld (α : Type) where
  sm : Dbsm
  memory : Fin nbuffers → α
  received : List α
  sent : List α

namespace DbsmWorld

variable {α : Type}

/-- The transfers that the status reports are over, and the machine sees to it. -/
def step (w : DbsmWorld α) (event : PoolEvent α Bool) : Option (DbsmWorld α) :=
  if event.Sound w.sm.bufferPool w.sm.buffers then
    some {
      sm := w.sm.processStatus event
      memory := fun bufno => if event.done bufno &&
        w.sm.bufferPool bufno == .receiving (bpcPort w.sm.recvArgs.port) then event.packet bufno
        else w.memory bufno
      received := w.received ++ (w.sm.arriving event).map event.packet
      sent := w.sent ++ (w.sm.departing event).map w.memory }
  else none

/-- What the machine promises. -/
structure Lawful (w : DbsmWorld α) : Prop where
  oneFilling : ∀ bufno ∈ w.sm.buffers, ∀ other ∈ w.sm.buffers,
    w.sm.bufferState bufno = .filling → w.sm.bufferState other = .filling → bufno = other
  oneEmptying : ∀ bufno ∈ w.sm.buffers, ∀ other ∈ w.sm.buffers,
    w.sm.bufferState bufno = .emptying → w.sm.bufferState other = .emptying → bufno = other
  rxIdle : w.sm.rxIdle = true ↔ ∀ bufno ∈ w.sm.buffers, w.sm.bufferState bufno ≠ .filling
  txIdle : w.sm.txIdle = true ↔ ∀ bufno ∈ w.sm.buffers, w.sm.bufferState bufno ≠ .emptying
  receives : (∃ bufno ∈ w.sm.buffers, w.sm.bufferState bufno = .empty) →
    ∃ bufno ∈ w.sm.buffers, w.sm.bufferState bufno = .filling ∧
      w.sm.bufferPool bufno = .receiving (bpcPort w.sm.recvArgs.port)
  sends : (∃ bufno ∈ w.sm.buffers, w.sm.bufferState bufno = .full) →
    ∃ bufno ∈ w.sm.buffers, w.sm.bufferState bufno = .emptying ∧
      w.sm.bufferPool bufno = .sending (bpcPort w.sm.sendArgs.port)
  inOrder : ∃ queue : List (Fin nbuffers), queue.Nodup ∧
    (∀ bufno, bufno ∈ queue ↔ bufno ∈ w.sm.buffers ∧
      (w.sm.bufferState bufno = .full ∨ w.sm.bufferState bufno = .emptying)) ∧
    w.received = w.sent ++ queue.map w.memory

/-- The packets that have come in are those that have left and those in the buffers. -/
def Accounts (w : DbsmWorld α) : Prop :=
  ∃ queue, w.sm.Holds queue ∧ w.received = w.sent ++ queue.map w.memory

theorem step_accounts {w next : DbsmWorld α} {event : PoolEvent α Bool} (accounts : w.Accounts)
    (stepped : w.step event = some next) : next.Accounts := by
  obtain ⟨queue, holds, equal⟩ := accounts
  rw [step] at stepped
  split at stepped
  · rename_i sound
    obtain ⟨kept, split, after⟩ := holds.processStatus sound
    cases stepped
    refine ⟨kept ++ w.sm.arriving event, after, ?_⟩
    have memory : kept.map w.memory = kept.map fun bufno => if event.done bufno &&
        w.sm.bufferPool bufno == .receiving (bpcPort w.sm.recvArgs.port) then event.packet bufno
        else w.memory bufno := by
      apply List.map_congr_left
      intro bufno member
      have stays := holds.not_receiving bufno (split ▸ List.mem_append_right _ member)
      simp [stays]
    have packets : (w.sm.arriving event).map event.packet =
        (w.sm.arriving event).map fun bufno => if event.done bufno &&
          w.sm.bufferPool bufno == .receiving (bpcPort w.sm.recvArgs.port) then event.packet bufno
          else w.memory bufno := by
      apply List.map_congr_left
      intro bufno member
      have came := List.of_mem_filter member
      simp only [Bool.and_eq_true] at came
      rw [if_pos (by simpa using came.1)]
    dsimp only
    rw [equal, split, List.map_append, List.map_append, ← memory, ← packets]
    simp only [List.append_assoc]
  · cases stepped

theorem Accounts.lawful {w : DbsmWorld α} (accounts : w.Accounts) : w.Lawful := by
  obtain ⟨queue, holds, equal⟩ := accounts
  cases holds with
  | receiving bufno stands =>
    have pair := Dbsm.mem_buffers_of stands.uses
    refine ⟨?_, ?_, ?_, ?_, ?_, ?_, [], ?_, ?_, equal⟩
    all_goals simp [pair, stands.stateThis, stands.stateOther, stands.transferThis,
      stands.transferOther, stands.rxIdle, stands.txIdle, Dbsm.transferOf]
  | both bufno stands =>
    have pair := Dbsm.mem_buffers_of stands.uses
    have held : ∀ b, b ∈ [bufno ^^^ 1] ↔ b ∈ w.sm.buffers ∧
        (w.sm.bufferState b = .full ∨ w.sm.bufferState b = .emptying) := by
      intro b
      rw [List.mem_singleton, pair]
      constructor
      · rintro rfl
        exact ⟨.inr rfl, .inr stands.stateOther⟩
      · rintro ⟨rfl | rfl, held⟩
        · simp [stands.stateThis] at held
        · rfl
    refine ⟨?_, ?_, ?_, ?_, ?_, ?_, [bufno ^^^ 1], ?_, held, equal⟩
    all_goals simp [pair, stands.stateThis, stands.stateOther, stands.transferThis,
      stands.transferOther, stands.rxIdle, stands.txIdle, Dbsm.transferOf]
  | sending bufno stands =>
    have pair := Dbsm.mem_buffers_of stands.uses
    have held : ∀ b, b ∈ [bufno ^^^ 1, bufno] ↔ b ∈ w.sm.buffers ∧
        (w.sm.bufferState b = .full ∨ w.sm.bufferState b = .emptying) := by
      intro b
      rw [pair]
      constructor
      · intro member
        obtain rfl | member := List.mem_cons.mp member
        · exact ⟨.inr rfl, .inr stands.stateOther⟩
        · obtain rfl := List.mem_singleton.mp member
          exact ⟨.inl rfl, .inl stands.stateThis⟩
      · rintro ⟨rfl | rfl, held⟩ <;> simp
    refine ⟨?_, ?_, ?_, ?_, ?_, ?_, [bufno ^^^ 1, bufno], ?_, held, equal⟩
    all_goals simp [pair, stands.stateThis, stands.stateOther, stands.transferThis,
      stands.transferOther, stands.rxIdle, stands.txIdle, Dbsm.transferOf]

end DbsmWorld

end GnuRadio.Usrp2
