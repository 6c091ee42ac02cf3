import GnuRadio.Misc.Trace
import Mathlib.Data.Int.Notation

/-!
# The request blocks of a USB endpoint

`fusb_ephandle_linux` moves a fixed number of request blocks between its free list, the pending
list of the device, its completed list and the write or the read in progress (`fusb_linux.cc`). The
code runs from one request to the kernel to the next; how the kernel answers is the input of a
step. One endpoint is open on the device, as in `usrp_basic`, and `MINIMIZE_TX_BUFFERING` is 1.
-/

namespace GnuRadio.Usrp

/-- `usbdevfs_urb`, as far as it changes. -/
structure UsbdevfsUrb where
  status : Int
  actual_length : Nat
  buffer : List UInt8
  deriving DecidableEq

/-- `fusb_sysconfig::max_block_size` (`fusb_sysconfig_linux.cc:32,42-45`). -/
def maxBlockSize : Nat := 16 * 1024

/-- What calls `submit_urb`. -/
inductive SubmitCaller where
  | start (nerrors : Nat)
  | write (src : List UInt8) (n : Nat)
  | reload (nbytes : Int) (n : Nat)
  deriving DecidableEq

/-- What calls `_reap`. -/
inductive ReapCaller where
  | waitForCompletion
  /-- `stop` before its loop. -/
  | cancelled
  | stop
  | write (src : List UInt8) (n : Nat)
  | reload (nbytes : Int) (n : Nat)
  deriving DecidableEq

/-- Where the thread is: in no call, at the head of a loop, or in the kernel. -/
inductive FusbPc where
  | idle
  | starting (nerrors : Nat)
  | writing (src : List UInt8) (n : Nat)
  | reading (nbytes : Int) (n : Nat)
  /-- The loop of `reload_read_buffer`. -/
  | reloading (nbytes : Int) (n : Nat)
  | stopping
  /-- The loop of `_wait_for_completion`. -/
  | waiting
  /-- `USBDEVFS_SUBMITURB`. -/
  | submitting (urb : Nat) (caller : SubmitCaller)
  /-- `USBDEVFS_REAPURBNDELAY`. -/
  | reaping (ok_to_block_p : Bool) (nreaped : Nat) (caller : ReapCaller)
  /-- `USBDEVFS_REAPURB`. -/
  | blocked (caller : ReapCaller)
  deriving DecidableEq

/-- `fusb_ephandle_linux` and its device. The kernel has the request blocks `inFlight`. The last
four fields record what happened: the blocks taken to send, the buffers given to `write` and what it
returned, and, since the last `stop`, the blocks that were reaped and the bytes that `read` copied.
-/
structure Fusb where
  d_input_p : Bool
  d_nblocks : Nat
  d_started : Bool
  urbs : Nat → UsbdevfsUrb
  d_free_list : List Nat
  d_completed_list : List Nat
  d_pending_rqsts : List Nat
  d_write_work_in_progress : Option Nat
  d_read_work_in_progress : Option Nat
  /-- From `d_read_buffer` to `d_read_buffer_end`. -/
  d_read_buffer : List UInt8
  inFlight : List Nat
  pc : FusbPc
  submitted : List (List UInt8)
  writes : List (List UInt8 × Int)
  completions : List (Int × List UInt8)
  bytesRead : List UInt8

namespace Fusb

/-- The constructor (`fusb_linux.cc:297-335`). -/
def initial (d_input_p : Bool) (d_nblocks : Nat) : Fusb where
  d_input_p := d_input_p
  d_nblocks := d_nblocks
  d_started := false
  urbs := fun _ => ⟨0, 0, []⟩
  d_free_list := List.range d_nblocks
  d_completed_list := []
  d_pending_rqsts := []
  d_write_work_in_progress := none
  d_read_work_in_progress := none
  d_read_buffer := []
  inFlight := []
  pc := .idle
  submitted := []
  writes := []
  completions := []
  bytesRead := []

/-- `urb->actual_length = 0`. -/
def clear (urbs : Nat → UsbdevfsUrb) (urb : Nat) : Nat → UsbdevfsUrb :=
  Function.update urbs urb { urbs urb with actual_length := 0 }

/-- `free_list_add` (`fusb_linux.cc:641-647`). -/
def freeListAdd (s : Fusb) (urb : Nat) : Fusb :=
  { s with urbs := clear s.urbs urb, d_free_list := s.d_free_list ++ [urb] }

/-- Every completed request block goes to the free list: the loops of `stop` and of
`reap_complete_writes` (`fusb_linux.cc:530-554`), which reports errors and goes on. -/
def freeCompleted (s : Fusb) : Fusb :=
  s.d_completed_list.foldl freeListAdd { s with d_completed_list := [] }

/-- What `write` returns. -/
def returnWrite (s : Fusb) (src : List UInt8) (result : Int) : Fusb :=
  { s with writes := s.writes ++ [(src, result)], pc := .idle }

/-! ## Calls -/

/-- `start` (`fusb_linux.cc:362-380`). -/
def start (s : Fusb) : Fusb :=
  if s.d_started then s
  else { s with d_started := true, pc := if s.d_input_p then .starting 0 else .idle }

/-- `stop` up to its loop (`fusb_linux.cc:388-405`). What `_cancel_pending_rqsts` asks of the kernel
shows in the status of the request blocks at most. -/
def stop (s : Fusb) : Fusb :=
  if ¬s.d_started then s
  else
    let s := match s.d_write_work_in_progress with
      | some urb => { s.freeListAdd urb with d_write_work_in_progress := none }
      | none => s
    let s := match s.d_read_work_in_progress with
      | some urb => { s.freeListAdd urb with d_read_work_in_progress := none, d_read_buffer := [] }
      | none => s
    { s with pc := .reaping false 0 .cancelled }

/-- `stop` returns. -/
def stopped (s : Fusb) : Fusb :=
  { s with d_started := false, pc := .idle, completions := [], bytesRead := [] }

/-- `write` up to its loop (`fusb_linux.cc:429-438`), with a buffer of `nbytes`. -/
def write (s : Fusb) (src : List UInt8) : Option Fusb :=
  if ¬s.d_started then some (s.returnWrite src (-1))
  else if s.d_input_p then some (s.returnWrite src (-1))
  else if src.length % 512 = 0 then some { s with pc := .writing src 0 }
  else none

/-- `read` up to its loop (`fusb_linux.cc:568-579`). -/
def read (s : Fusb) (nbytes : Int) : Fusb :=
  if ¬s.d_started then s
  else if ¬s.d_input_p then s
  else { s with pc := .reading nbytes 0 }

/-! ## Rounds of the loops -/

/-- `write` once it has a request block (`fusb_linux.cc:446-455`). -/
def fillWrite (s : Fusb) (urb : Nat) (src : List UInt8) (n : Nat) : Option Fusb :=
  let m := min (src.length - n) maxBlockSize
  if (s.urbs urb).actual_length = 0 then
    some { s with
      urbs := Function.update s.urbs urb { s.urbs urb with buffer := (src.drop n).take m }
      pc := .submitting urb (.write src (n + m)) }
  else none

/-- The loop of `write`, and `get_write_work_in_progress` (`fusb_linux.cc:500-528`). -/
def writing (s : Fusb) (src : List UInt8) (n : Nat) : Option Fusb :=
  if n < src.length then
    match s.d_write_work_in_progress with
    | some urb => s.fillWrite urb src n
    | none =>
        let s := s.freeCompleted
        match s.d_free_list with
        | urb :: rest =>
            if (s.urbs urb).actual_length = 0 then
              { s with d_free_list := rest, d_write_work_in_progress := some urb }.fillWrite urb src n
            else none
        | [] => some { s with pc := .reaping true 0 (.write src n) }
  else some (s.returnWrite src n)

/-- The loop of `start`. -/
def starting (s : Fusb) (nerrors : Nat) : Fusb :=
  match s.d_free_list with
  | [] => { s with pc := .idle }
  | urb :: rest =>
      if nerrors < s.d_nblocks then
        { s with d_free_list := rest, pc := .submitting urb (.start nerrors) }
      else { s with d_free_list := rest, pc := .idle }

/-- The loop of `read`, and `reload_read_buffer` up to its loop (`fusb_linux.cc:580-610`). -/
def reading (s : Fusb) (nbytes : Int) (n : Nat) : Fusb :=
  if n < nbytes then
    if s.d_read_buffer = [] then
      match s.d_read_work_in_progress with
      | some urb => { s with
          urbs := clear s.urbs urb
          d_read_work_in_progress := none
          pc := .submitting urb (.reload nbytes n) }
      | none => { s with pc := .reloading nbytes n }
    else
      let m := min (nbytes - n).toNat s.d_read_buffer.length
      { s with
        d_read_buffer := s.d_read_buffer.drop m
        pc := .reading nbytes (n + m)
        bytesRead := s.bytesRead ++ s.d_read_buffer.take m }
  else { s with pc := .idle }

/-- The loop of `reload_read_buffer` (`fusb_linux.cc:612-637`). -/
def reloading (s : Fusb) (nbytes : Int) (n : Nat) : Fusb :=
  match s.d_completed_list with
  | [] => { s with pc := .reaping true 0 (.reload nbytes n) }
  | urb :: rest =>
      if (s.urbs urb).status ≠ 0 then
        { { s with d_completed_list := rest }.freeListAdd urb with pc := .idle }
      else { s with
        d_completed_list := rest
        d_read_work_in_progress := some urb
        d_read_buffer := (s.urbs urb).buffer.take (s.urbs urb).actual_length
        pc := .reading nbytes n }

/-- The loop of `stop` (`fusb_linux.cc:407-417`). -/
def stopping (s : Fusb) : Fusb :=
  let s := s.freeCompleted
  if s.d_free_list.length = s.d_nblocks then s.stopped
  else { s with pc := .reaping true 0 .stop }

/-- The loop of `_wait_for_completion` (`fusb_linux.cc:291-296`). -/
def waiting (s : Fusb) : Fusb :=
  { s with
    pc := if s.d_pending_rqsts = [] then .idle else .reaping true 0 .waitForCompletion }

/-- The thread goes on at the head of a loop. -/
def go (s : Fusb) : Option Fusb :=
  match s.pc with
  | .starting nerrors => some (s.starting nerrors)
  | .writing src n => s.writing src n
  | .reading nbytes n => some (s.reading nbytes n)
  | .reloading nbytes n => some (s.reloading nbytes n)
  | .stopping => some s.stopping
  | .waiting => some s.waiting
  | _ => none

/-! ## Answers of the kernel -/

/-- What the caller does when `submit_urb` has returned. -/
def afterSubmit (s : Fusb) : SubmitCaller → Bool → Fusb
  | .start nerrors, ok => { s with pc := .starting (if ok then nerrors else nerrors + 1) }
  | .write src n, true => { s with d_write_work_in_progress := none, pc := .writing src n }
  | .write src _, false => s.returnWrite src (-1)
  | .reload nbytes n, true => { s with pc := .reloading nbytes n }
  | .reload _ _, false => { s with pc := .idle }

/-- The kernel takes the request block, or does not: `_submit_urb` (`fusb_linux.cc:204-217`) and
`submit_urb` (`fusb_linux.cc:680-692`). -/
def submitUrb (s : Fusb) (ok : Bool) : Option Fusb :=
  match s.pc, ok with
  | .submitting urb caller, true => some ({ s with
      inFlight := s.inFlight ++ [urb]
      d_pending_rqsts := s.d_pending_rqsts ++ [urb]
      submitted := if s.d_input_p then s.submitted else s.submitted ++ [(s.urbs urb).buffer]
        }.afterSubmit caller true)
  | .submitting urb caller, false => some ((s.freeListAdd urb).afterSubmit caller false)
  | _, _ => none

/-- What the caller does when `_reap` has returned. -/
def afterReap (s : Fusb) : ReapCaller → Bool → Fusb
  | .waitForCompletion, true => { s with pc := .waiting }
  | .waitForCompletion, false => { s with pc := .idle }
  | .cancelled, _ => { s with pc := .stopping }
  | .stop, true => { s with pc := .stopping }
  | .stop, false => s.stopped
  | .write src n, true => { s with pc := .writing src n }
  | .write src _, false => s.returnWrite src (-1)
  | .reload nbytes n, true => { s with pc := .reloading nbytes n }
  | .reload _ _, false => { s with pc := .idle }

/-- The kernel hands a request block back, with a status and what was transferred. -/
def complete (s : Fusb) (urb : Nat) (status : Int) (data : List UInt8) : Fusb :=
  { s with
    urbs := Function.update s.urbs urb ⟨status, data.length, data⟩
    inFlight := s.inFlight.erase urb
    d_pending_rqsts := s.d_pending_rqsts.erase urb
    d_completed_list := s.d_completed_list ++ [urb]
    completions := s.completions ++ [(status, data)] }

/-- `_reap` (`fusb_linux.cc:252-289`) is given a request block. -/
def reaped (s : Fusb) (urb : Nat) (status : Int) (data : List UInt8) : Option Fusb :=
  if urb ∈ s.inFlight then
    match s.pc with
    | .reaping ok_to_block_p nreaped caller => some { s.complete urb status data with
        pc := .reaping ok_to_block_p (nreaped + 1) caller }
    | .blocked caller => some ((s.complete urb status data).afterReap caller true)
    | _ => none
  else none

/-- `_reap` is given none. -/
def notReaped (s : Fusb) : Option Fusb :=
  match s.pc with
  | .reaping ok_to_block_p nreaped caller =>
      if 0 < nreaped then some (s.afterReap caller true)
      else if ok_to_block_p then some { s with pc := .blocked caller }
      else some (s.afterReap caller false)
  | .blocked caller => some (s.afterReap caller false)
  | _ => none

end Fusb

/-- The calls of the user. -/
inductive FusbCall where
  | start
  | stop
  | write (src : List UInt8)
  | read (nbytes : Int)
  | waitForCompletion

/-- What happens next: a call, a round of a loop, or an answer of the kernel. -/
inductive FusbEvent where
  | call (c : FusbCall)
  | go
  | submitted (ok : Bool)
  | reaped (urb : Nat) (status : Int) (data : List UInt8)
  | notReaped

namespace Fusb

/-- What a call of the user does first. -/
def call (s : Fusb) : FusbCall → Option Fusb
  | .start => some s.start
  | .stop => some s.stop
  | .write src => s.write src
  | .read nbytes => some (s.read nbytes)
  | .waitForCompletion => some { s with pc := .waiting }

end Fusb

/-- The state after the event. -/
def fusbStep (s : Fusb) : FusbEvent → Option Fusb
  | .call c => if s.pc = .idle then s.call c else none
  | .go => s.go
  | .submitted ok => s.submitUrb ok
  | .reaped urb status data => s.reaped urb status data
  | .notReaped => s.notReaped

namespace Fusb

/-! ## What is promised -/

/-- The request block that `start` or `reload_read_buffer` has in hand. -/
def inHand (s : Fusb) : List Nat :=
  match s.pc with
  | .submitting urb (.start _) | .submitting urb (.reload ..) => [urb]
  | _ => []

/-- In how many places a request block is. -/
def places (s : Fusb) (urb : Nat) : Nat :=
  s.d_free_list.count urb + s.d_pending_rqsts.count urb + s.d_completed_list.count urb +
    s.d_write_work_in_progress.toList.count urb + s.d_read_work_in_progress.toList.count urb +
    s.inHand.count urb

/-- The data of a reaped block, when the transfer did not fail. -/
def received (s : Fusb) (urb : Nat) : List UInt8 :=
  if (s.urbs urb).status = 0 then (s.urbs urb).buffer.take (s.urbs urb).actual_length else []

/-- A call of `write` that returns its length has handed its whole buffer on, and one that returns
-1 a beginning of it. -/
def Handed (call : List UInt8 × Int) (part : List UInt8) : Prop :=
  part = call.1 ∧ call.2 = call.1.length ∨ part <+: call.1 ∧ call.2 = -1

/-- Every request block is in one place. The bytes read since the last `stop` and those still to be
read are the blocks that were transferred, in the order of their completion, and the kernel has been
given what `write` handed on. -/
structure Accounted (s : Fusb) : Prop where
  onePlace : ∀ urb, s.places urb = if urb < s.d_nblocks then 1 else 0
  read : s.d_input_p → s.pc = .idle →
    (s.completions.filter (·.1 = 0)).flatMap (·.2) =
      s.bytesRead ++ s.d_read_buffer ++ s.d_completed_list.flatMap s.received
  written : s.pc = .idle →
    ∃ parts, List.Forall₂ Handed s.writes parts ∧ s.submitted.flatten = parts.flatten

/-- The submission may fail: it is one of `read`, or one of `start` after which it still goes on. -/
def mayFail (s : Fusb) : Bool :=
  match s.pc with
  | .submitting _ (.start nerrors) => nerrors + 1 < s.d_nblocks
  | .submitting _ (.write ..) => false
  | _ => true

/-- No submission of `write` fails, and of those of a `start` fewer than there are request blocks. -/
def Submits (s : Fusb) : FusbEvent → Prop
  | .submitted false => s.mayFail
  | _ => True

instance (s : Fusb) : ∀ event, Decidable (s.Submits event)
  | .submitted false => inferInstanceAs (Decidable (s.mayFail = true))
  | .submitted true | .call _ | .go | .reaped .. | .notReaped => isTrue trivial

end Fusb

end GnuRadio.Usrp
