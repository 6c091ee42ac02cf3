import GnuRadio.Misc.Parties
import GnuRadio.Misc.Trace
import Mathlib.Data.UInt

/-!
# Commands and their replies on the host

`transmit_cmd_and_wait` leaves its `pending_reply` in the slot of an 8-bit request id, sends
the command and waits. The background thread copies a reply that comes in into the buffer of
the `pending_reply` in the slot of the reply's id (`usrp2_impl.cc`, `control.cc`). A statement
that other threads can observe, or a critical section, is one step. The network may lose,
delay, reorder and duplicate what the device sends.
-/

namespace GnuRadio.PendingReplies

/-- Where the caller of `transmit_cmd_and_wait` is. -/
inductive CallState where
  /-- The command and its `pending_reply` are made. -/
  | made
  /-- The `pending_reply` is in its slot. -/
  | registered
  /-- `transmit_cmd` has failed. -/
  | unsent
  /-- `wait_for_completion` is at its test of `d_complete`. -/
  | testing
  /-- It is in `timed_wait`. -/
  | timedWait
  /-- It has returned `res`. -/
  | waited (res : Bool)
  /-- `transmit_cmd_and_wait` has returned. -/
  | returned (ok : Bool)
  /-- The `pending_reply` and the buffer of the caller are out of scope. -/
  | left (ok : Bool)
  deriving DecidableEq

/-- The call has a reply to its command. -/
def CallState.succeeded : CallState → Bool
  | waited res => res
  | returned ok | left ok => ok
  | _ => false

/-- The `pending_reply` is gone. -/
def CallState.gone : CallState → Bool
  | left _ => true
  | _ => false

/-- A command with its `pending_reply`, known by the number of its making. `transmitted` says
that its frame is on the way to the device. -/
structure Command where
  d_rid : UInt8
  d_buffer : List UInt8
  d_complete : Bool
  call : CallState
  transmitted : Bool
  deriving DecidableEq

/-- What the device sent for a command: the subpacket of the reply, and what follows it. -/
structure Reply where
  command : Nat
  payload : List UInt8
  deriving DecidableEq

/-- `p[1]` and `p[2]` of a payload. -/
def Reply.oplen (r : Reply) : Nat := (r.payload.getD 1 0).toNat

def Reply.rid (r : Reply) : UInt8 := r.payload.getD 2 0

/-- Where the background thread is in `handle_control_packet` (`usrp2_impl.cc:408-438`). -/
inductive HandlerState where
  | idle
  /-- It has found `rp` in the slot. -/
  | found (rp : Nat) (reply : Reply)
  /-- It has copied the reply. -/
  | copied (rp : Nat) (rid : UInt8)
  | notified (rid : UInt8)
  deriving DecidableEq

/-- The host's state. `replies` has what the device has sent so far, and `dangling` says that a
`pending_reply` was used that is out of scope. -/
structure Host where
  d_next_rid : Nat
  commands : List Command
  d_pending_replies : UInt8 → Option Nat
  replies : List Reply
  handler : HandlerState
  dangling : Bool

namespace Host

def initial : Host where
  d_next_rid := 0
  commands := []
  d_pending_replies _ := none
  replies := []
  handler := .idle
  dangling := false

def set (s : Host) (c : Nat) (command : Command) : Host :=
  { s with commands := s.commands.set c command }

/-- `d_pending_replies[rid] = rp`. -/
def setSlot (s : Host) (rid : UInt8) (rp : Option Nat) : Host :=
  { s with d_pending_replies := Function.update s.d_pending_replies rid rp }

/-- The host makes a command with the next request id, and a `pending_reply` for it. -/
def issue (s : Host) (buffer : List UInt8) : Host :=
  { s with
    d_next_rid := s.d_next_rid + 1
    commands := s.commands ++ [⟨UInt8.ofNat s.d_next_rid, buffer, false, .made, false⟩] }

/-- `transmit_cmd_and_wait` (`usrp2_impl.cc:319-332`) up to `wait_for_completion`. -/
def register (s : Host) (c : Nat) (command : Command) : Option Host :=
  if command.call = .made then
    some ((s.setSlot command.d_rid (some c)).set c { command with call := .registered })
  else none

/-- `transmit_cmd`: the frame is out, or the socket refused it. -/
def transmit (s : Host) (c : Nat) (ok : Bool) (command : Command) : Option Host :=
  if command.call = .registered then
    if ok then some (s.set c { command with call := .testing, transmitted := true })
    else some (s.set c { command with call := .unsent })
  else none

/-- `wait_for_completion` (`control.cc:43-54`): the test of `d_complete`, the end of a
`timed_wait` that was notified or woke up by itself, and one that timed out. -/
def test (s : Host) (c : Nat) (command : Command) : Option Host :=
  if command.call = .testing then
    if command.d_complete then some (s.set c { command with call := .waited true })
    else some (s.set c { command with call := .timedWait })
  else none

/-- A `timed_wait` that ends before its time. -/
def wake (s : Host) (c : Nat) (command : Command) : Option Host :=
  if command.call = .timedWait then some (s.set c { command with call := .testing }) else none

/-- A `timed_wait` that runs out. -/
def timeout (s : Host) (c : Nat) (command : Command) : Option Host :=
  if command.call = .timedWait then some (s.set c { command with call := .waited false })
  else none

/-- `transmit_cmd_and_wait` clears the slot and returns. -/
def clear (s : Host) (c : Nat) (command : Command) : Option Host :=
  match command.call with
  | .unsent => some ((s.setSlot command.d_rid none).set c { command with call := .returned false })
  | .waited res =>
      some ((s.setSlot command.d_rid none).set c { command with call := .returned res })
  | _ => none

/-- The caller leaves the scope of its `pending_reply` and of its buffer. -/
def leave (s : Host) (c : Nat) (command : Command) : Option Host :=
  match command.call with
  | .returned ok => some (s.set c { command with call := .left ok })
  | _ => none

/-- The device answers a command that reached it, once, with a whole subpacket that has the
command's request id. -/
def answer (s : Host) (c : Nat) (payload : List UInt8) (command : Command) : Option Host :=
  let reply : Reply := ⟨c, payload⟩
  if command.transmitted ∧ c ∉ s.replies.map Reply.command ∧ 3 ≤ payload.length ∧
      reply.oplen ≤ payload.length ∧ reply.rid = command.d_rid then
    some { s with replies := s.replies ++ [reply] }
  else none

/-- `handle_control_packet` is called for a reply, and looks at the slot. -/
def receive (s : Host) (reply : Reply) : Option Host :=
  if s.handler = .idle then
    match s.d_pending_replies reply.rid with
    | none => some s
    | some rp => some { s with handler := .found rp reply }
  else none

/-- What `memcpy` leaves in a buffer. -/
def copied (buffer : List UInt8) (reply : Reply) : List UInt8 :=
  let n := min reply.oplen buffer.length
  reply.payload.take n ++ buffer.drop n

/-- The use of a `pending_reply` by the background thread. -/
def use (s : Host) (rp : Nat) (f : Command → Command) : Option Host :=
  (s.commands[rp]?).map fun command =>
    if command.call.gone then { s with dangling := true } else s.set rp (f command)

/-- The rest of `handle_control_packet`: it copies the reply, notifies the caller and clears the
slot. -/
def handle (s : Host) : Option Host :=
  match s.handler with
  | .idle => none
  | .found rp reply =>
      { s with handler := .copied rp reply.rid }.use rp fun command =>
        { command with d_buffer := copied command.d_buffer reply }
  | .copied rp rid =>
      { s with handler := .notified rid }.use rp fun command => { command with d_complete := true }
  | .notified rid => some ({ s with handler := .idle }.setSlot rid none)

end Host

/-- What happens next. -/
inductive Act where
  | issue (buffer : List UInt8)
  | register (c : Nat)
  | transmit (c : Nat) (ok : Bool)
  | test (c : Nat)
  | wake (c : Nat)
  | timeout (c : Nat)
  | clear (c : Nat)
  | leave (c : Nat)
  | answer (c : Nat) (payload : List UInt8)
  /-- The network delivers a reply, perhaps not for the first time. -/
  | receive (i : Nat)
  | handle
  deriving DecidableEq

/-- One step. What follows the use of a `pending_reply` that is gone is undefined. -/
def step (s : Host) (a : Act) : Option Host :=
  if s.dangling then none
  else match a with
  | .issue buffer => some (s.issue buffer)
  | .register c => s.commands[c]?.bind (s.register c)
  | .transmit c ok => s.commands[c]?.bind (s.transmit c ok)
  | .test c => s.commands[c]?.bind (s.test c)
  | .wake c => s.commands[c]?.bind (s.wake c)
  | .timeout c => s.commands[c]?.bind (s.timeout c)
  | .clear c => s.commands[c]?.bind (s.clear c)
  | .leave c => s.commands[c]?.bind (s.leave c)
  | .answer c payload => s.commands[c]?.bind (s.answer c payload)
  | .receive i => s.replies[i]?.bind s.receive
  | .handle => s.handle

/-- A buffer has the reply that the device sent to the command `c`. -/
def Holds (replies : List Reply) (c : Nat) (buffer : List UInt8) : Prop :=
  ∃ reply ∈ replies, reply.command = c ∧ ∃ old, buffer = Host.copied old reply

/-- No `pending_reply` was used out of scope, and each command that reports success has its own
reply in its buffer. -/
def OwnReplies (s : Host) : Prop :=
  s.dangling = false ∧
    ∀ (c : Nat) (command : Command), s.commands[c]? = some command →
      command.call.succeeded → Holds s.replies c command.d_buffer

/-- The command that the background thread has found is still in scope. -/
def InScope (commands : List Command) (rp : Nat) : Prop :=
  match commands[rp]? with
  | none => True
  | some command => command.call.gone = false

/-- The slot of a reply that comes in is empty or has the command that the reply answers, and a
`pending_reply` that the background thread has found is in scope when it is used. -/
def Matched (s : Host) : Act → Prop
  | .receive i =>
      match s.replies[i]? with
      | none => True
      | some reply =>
          s.d_pending_replies reply.rid = none ∨
            s.d_pending_replies reply.rid = some reply.command
  | .handle =>
      match s.handler with
      | .found rp _ | .copied rp _ => InScope s.commands rp
      | _ => True
  | _ => True

instance (commands : List Command) (rp : Nat) : Decidable (InScope commands rp) := by
  unfold InScope
  split <;> infer_instance

instance (s : Host) : DecidablePred (Matched s) := fun a => by
  unfold Matched
  split <;> try infer_instance
  all_goals split <;> infer_instance

/-! ## The invariant -/

/-- What is kept while the steps are matched: the background thread has found the command of its
reply, a command that is complete has its own reply, and a call succeeds after its completion. -/
structure Inv (s : Host) : Prop where
  safe : s.dangling = false
  found : ∀ rp reply, s.handler = .found rp reply → reply ∈ s.replies ∧ reply.command = rp
  copied : ∀ rp rid, s.handler = .copied rp rid →
    ∃ command, s.commands[rp]? = some command ∧ Holds s.replies rp command.d_buffer
  complete : ∀ (c : Nat) (command : Command), s.commands[c]? = some command →
    command.d_complete → Holds s.replies c command.d_buffer
  success : ∀ (c : Nat) (command : Command), s.commands[c]? = some command →
    command.call.succeeded → command.d_complete

variable {s t : Host} {c : Nat} {command : Command}

theorem Inv.initial : Inv Host.initial where
  safe := rfl
  found _ _ none := by cases none
  copied _ _ none := by cases none
  complete _ _ none := by cases none
  success _ _ none := by cases none

theorem Inv.update (inv : Inv s) (there : s.commands[c]? = some command) {command' : Command}
    {handler : HandlerState} (slots : UInt8 → Option Nat)
    (found : ∀ rp reply, handler = .found rp reply → reply ∈ s.replies ∧ reply.command = rp)
    (copied : ∀ rp rid, handler = .copied rp rid →
      handler = s.handler ∨ rp = c ∧ Holds s.replies c command'.d_buffer)
    (keeps : Holds s.replies c command.d_buffer → Holds s.replies c command'.d_buffer)
    (complete : command'.d_complete → Holds s.replies c command'.d_buffer)
    (success : command'.call.succeeded → command'.d_complete) :
    Inv ({ s with d_pending_replies := slots, handler := handler }.set c command') := by
  have self : (s.commands.set c command')[c]? = some command' :=
    List.getElem?_set_self (List.getElem?_eq_some_iff.mp there).1
  have other : ∀ c' (command'' : Command), (s.commands.set c command')[c']? = some command'' →
      (c' = c ∧ command'' = command') ∨ s.commands[c']? = some command'' := by
    intro c' command'' got
    by_cases same : c' = c
    · subst same
      exact .inl ⟨rfl, Option.some.inj (got.symm.trans self)⟩
    · exact .inr ((List.getElem?_set_ne (Ne.symm same)).symm.trans got)
  refine ⟨inv.safe, found, ?_, ?_, ?_⟩
  · intro rp rid state
    rcases copied rp rid state with old | ⟨rfl, holds⟩
    · obtain ⟨waiting, got, holds⟩ := inv.copied rp rid (old ▸ state)
      by_cases same : rp = c
      · subst same
        obtain rfl := Option.some.inj (there.symm.trans got)
        exact ⟨command', self, keeps holds⟩
      · exact ⟨waiting, (List.getElem?_set_ne (Ne.symm same)).trans got, holds⟩
    · exact ⟨command', self, holds⟩
  · intro c' command'' got done
    rcases other c' command'' got with ⟨rfl, rfl⟩ | same
    · exact complete done
    · exact inv.complete c' command'' same done
  · intro c' command'' got succeeded
    rcases other c' command'' got with ⟨rfl, rfl⟩ | same
    · exact success succeeded
    · exact inv.success c' command'' same succeeded

theorem Inv.set (inv : Inv s) (there : s.commands[c]? = some command) (call : CallState)
    (transmitted : Bool) (success : call.succeeded → command.d_complete)
    (slots : UInt8 → Option Nat) :
    Inv ({ s with d_pending_replies := slots }.set c
      { command with call := call, transmitted := transmitted }) :=
  inv.update there slots inv.found (fun _ _ _ => .inl rfl) id (inv.complete c command there) success

theorem Inv.issue (inv : Inv s) (buffer : List UInt8) : Inv (s.issue buffer) := by
  have other : ∀ (c : Nat) (command : Command), (s.issue buffer).commands[c]? = some command →
      s.commands[c]? = some command ∨ command.d_complete = false ∧ command.call = .made := by
    intro c command got
    by_cases old : c < s.commands.length
    · rw [Host.issue, List.getElem?_append_left old] at got
      exact .inl got
    · rw [Host.issue, List.getElem?_append_right (Nat.le_of_not_lt old),
        List.getElem?_singleton] at got
      split at got
      · cases got
        exact .inr ⟨rfl, rfl⟩
      · cases got
  refine ⟨inv.safe, inv.found, ?_, ?_, ?_⟩
  · intro rp rid state
    obtain ⟨command, got, holds⟩ := inv.copied rp rid state
    exact ⟨command, (List.getElem?_append_left (List.getElem?_eq_some_iff.mp got).1).trans got,
      holds⟩
  · intro c command got done
    rcases other c command got with old | ⟨new, _⟩
    · exact inv.complete c command old done
    · rw [new] at done
      cases done
  · intro c command got succeeded
    rcases other c command got with old | ⟨_, new⟩
    · exact inv.success c command old succeeded
    · rw [new] at succeeded
      cases succeeded

theorem Holds.more {replies : List Reply} {buffer : List UInt8} (holds : Holds replies c buffer)
    (reply : Reply) : Holds (replies ++ [reply]) c buffer := by
  obtain ⟨own, member, rest⟩ := holds
  exact ⟨own, List.mem_append_left _ member, rest⟩

theorem Inv.answer (inv : Inv s) {payload : List UInt8}
    (stepped : s.answer c payload command = some t) : Inv t := by
  simp only [Host.answer, Option.ite_none_right_eq_some, Option.some.injEq] at stepped
  obtain ⟨_, rfl⟩ := stepped
  refine ⟨inv.safe, ?_, ?_, ?_, inv.success⟩
  · intro rp reply state
    obtain ⟨member, own⟩ := inv.found rp reply state
    exact ⟨List.mem_append_left _ member, own⟩
  · intro rp rid state
    obtain ⟨command, got, holds⟩ := inv.copied rp rid state
    exact ⟨command, got, holds.more _⟩
  · intro c command got done
    exact (inv.complete c command got done).more _

theorem Inv.receive (inv : Inv s) {i : Nat} (matched : Matched s (.receive i)) {reply : Reply}
    (there : s.replies[i]? = some reply) (stepped : s.receive reply = some t) : Inv t := by
  simp only [Matched, there] at matched
  unfold Host.receive at stepped
  split at stepped
  · split at stepped
    · cases stepped
      exact inv
    · rename_i rp slot
      cases stepped
      refine ⟨inv.safe, ?_, fun rp rid state => (by cases state), inv.complete, inv.success⟩
      intro rp' reply' state
      cases state
      rw [slot] at matched
      rcases matched with none | own
      · cases none
      · exact ⟨List.mem_of_getElem? there, (Option.some.inj own).symm⟩
  · cases stepped

theorem use_inScope {f : Command → Command} (used : s.use c f = some t)
    (scope : InScope s.commands c) :
    ∃ command, s.commands[c]? = some command ∧ t = s.set c (f command) := by
  simp only [Host.use, Option.map_eq_some_iff] at used
  obtain ⟨command, there, rfl⟩ := used
  simp only [InScope, there] at scope
  rw [scope]
  exact ⟨command, there, rfl⟩

theorem Inv.handle (inv : Inv s) (matched : Matched s .handle) (stepped : s.handle = some t) :
    Inv t := by
  unfold Host.handle at stepped
  cases state : s.handler with
  | idle => rw [state] at stepped; cases stepped
  | found rp reply =>
    simp only [state] at stepped
    simp only [Matched, state] at matched
    obtain ⟨command, there, rfl⟩ := use_inScope stepped matched
    obtain ⟨member, own⟩ := inv.found rp reply state
    have holds : Holds s.replies rp (Host.copied command.d_buffer reply) :=
      ⟨reply, member, own, _, rfl⟩
    exact inv.update there s.d_pending_replies (fun _ _ state => (by cases state))
      (fun _ _ state => (by cases state; exact .inr ⟨rfl, holds⟩)) (fun _ => holds)
      (fun _ => holds) (inv.success rp command there)
  | copied rp rid =>
    simp only [state] at stepped
    simp only [Matched, state] at matched
    obtain ⟨command, there, rfl⟩ := use_inScope stepped matched
    obtain ⟨_, got, holds⟩ := inv.copied rp rid state
    obtain rfl := Option.some.inj (there.symm.trans got)
    exact inv.update there s.d_pending_replies (fun _ _ state => (by cases state))
      (fun _ _ state => (by cases state)) id (fun _ => holds) (fun _ => rfl)
  | notified rid =>
    simp only [state] at stepped
    cases stepped
    exact ⟨inv.safe, fun _ _ state => (by cases state), fun _ _ state => (by cases state),
      inv.complete, inv.success⟩

theorem Inv.next {a : Act} (inv : Inv s) (matched : Matched s a) (stepped : step s a = some t) :
    Inv t := by
  unfold step at stepped
  rw [inv.safe] at stepped
  cases a with
  | issue buffer =>
    cases stepped
    exact inv.issue buffer
  | register c =>
    obtain ⟨command, there, stepped⟩ := Option.bind_eq_some_iff.mp stepped
    simp only [Host.register, Option.ite_none_right_eq_some, Option.some.injEq] at stepped
    obtain ⟨_, rfl⟩ := stepped
    exact inv.set there .registered command.transmitted (by simp [CallState.succeeded]) _
  | transmit c ok =>
    obtain ⟨command, there, stepped⟩ := Option.bind_eq_some_iff.mp stepped
    simp only [Host.transmit, Option.ite_none_right_eq_some] at stepped
    obtain ⟨_, stepped⟩ := stepped
    split at stepped
    · cases stepped
      exact inv.set there .testing true (by simp [CallState.succeeded]) _
    · cases stepped
      exact inv.set there .unsent command.transmitted (by simp [CallState.succeeded]) _
  | test c =>
    obtain ⟨command, there, stepped⟩ := Option.bind_eq_some_iff.mp stepped
    simp only [Host.test, Option.ite_none_right_eq_some] at stepped
    obtain ⟨_, stepped⟩ := stepped
    split at stepped
    · rename_i complete
      cases stepped
      exact inv.set there (.waited true) command.transmitted (fun _ => complete) _
    · cases stepped
      exact inv.set there .timedWait command.transmitted (by simp [CallState.succeeded]) _
  | wake c =>
    obtain ⟨command, there, stepped⟩ := Option.bind_eq_some_iff.mp stepped
    simp only [Host.wake, Option.ite_none_right_eq_some, Option.some.injEq] at stepped
    obtain ⟨_, rfl⟩ := stepped
    exact inv.set there .testing command.transmitted (by simp [CallState.succeeded]) _
  | timeout c =>
    obtain ⟨command, there, stepped⟩ := Option.bind_eq_some_iff.mp stepped
    simp only [Host.timeout, Option.ite_none_right_eq_some, Option.some.injEq] at stepped
    obtain ⟨_, rfl⟩ := stepped
    exact inv.set there (.waited false) command.transmitted (by simp [CallState.succeeded]) _
  | clear c =>
    obtain ⟨command, there, stepped⟩ := Option.bind_eq_some_iff.mp stepped
    unfold Host.clear at stepped
    split at stepped
    · cases stepped
      exact inv.set there (.returned false) command.transmitted (by simp [CallState.succeeded]) _
    · rename_i res waited
      cases stepped
      refine inv.set there (.returned res) command.transmitted (fun done => ?_) _
      exact inv.success c command there (by rwa [waited])
    · cases stepped
  | leave c =>
    obtain ⟨command, there, stepped⟩ := Option.bind_eq_some_iff.mp stepped
    unfold Host.leave at stepped
    split at stepped
    · rename_i ok returned
      cases stepped
      refine inv.set there (.left ok) command.transmitted (fun done => ?_) _
      exact inv.success c command there (by rwa [returned])
    · cases stepped
  | answer c payload =>
    obtain ⟨command, there, stepped⟩ := Option.bind_eq_some_iff.mp stepped
    exact inv.answer stepped
  | receive i =>
    obtain ⟨reply, there, stepped⟩ := Option.bind_eq_some_iff.mp stepped
    exact inv.receive matched there stepped
  | handle => exact inv.handle matched stepped

theorem Inv.ownReplies (inv : Inv s) : OwnReplies s :=
  ⟨inv.safe, fun c command got succeeded =>
    inv.complete c command got (inv.success c command got succeeded)⟩

/-- When the slot of every reply that comes in is empty or has the command that the reply answers,
and no `pending_reply` goes out of scope between its finding and its notification, each command that
reports success has its own reply. -/
theorem command_completes_with_own_reply {acts : List Act}
    (matched : Throughout Matched step Host.initial acts)
    (reached : run step Host.initial acts = some s) : OwnReplies s :=
  (run_invariant_of Inv (fun _ _ _ inv met stepped => inv.next met stepped) .initial matched
    reached).ownReplies

/-- A command that gets its reply in time. -/
def prompt : List Act :=
  [.issue [0, 0, 0, 0], .register 0, .transmit 0 true, .test 0, .answer 0 [0x87, 4, 0, 1],
    .receive 0, .handle, .handle, .wake 0, .handle, .test 0, .clear 0, .receive 0, .leave 0]

theorem prompt_own_reply : ∃ s, run step Host.initial prompt = some s ∧
    s.commands.map Command.call = [.left true] ∧ OwnReplies s := by
  have reached : ((run step Host.initial prompt).map fun s => s.commands.map Command.call) =
      some [.left true] := by decide +kernel
  obtain ⟨s, ran, last⟩ := Option.map_eq_some_iff.mp reached
  exact ⟨s, ran, last, command_completes_with_own_reply (by decide +kernel) ran⟩

/-- A command times out before its reply comes. Then 255 commands are made, and the next one has
its request id. -/
def wrapped : List Act :=
  [.issue [0, 0, 0, 0], .register 0, .transmit 0 true, .answer 0 [0x87, 4, 0, 1], .test 0,
    .timeout 0, .clear 0, .leave 0] ++
  List.replicate 255 (.issue []) ++
  [.issue [0, 0, 0, 0], .register 256, .transmit 256 true, .receive 0, .handle, .handle, .test 256,
    .clear 256]

/-- Then the reply to the first command completes the last. -/
theorem wrapped_wrong : ∃ s, run step Host.initial wrapped = some s ∧ ¬ OwnReplies s := by
  have reached : ((run step Host.initial wrapped).map fun s =>
      (s.commands[256]?.map Command.call, s.replies.map Reply.command)) =
        some (some (.returned true), [0]) := by decide +kernel
  obtain ⟨s, ran, last⟩ := Option.map_eq_some_iff.mp reached
  refine ⟨s, ran, fun own => ?_⟩
  obtain ⟨call, replies⟩ := Prod.mk.inj last
  obtain ⟨command, there, returned⟩ := Option.map_eq_some_iff.mp call
  obtain ⟨reply, member, number, _⟩ := own.2 256 command there (by rw [returned]; rfl)
  have only : reply.command ∈ s.replies.map Reply.command := List.mem_map_of_mem member
  rw [replies, number] at only
  cases List.mem_singleton.mp only

end GnuRadio.PendingReplies
