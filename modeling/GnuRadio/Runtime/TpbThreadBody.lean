import GnuRadio.Runtime.SetupConnections

/-!
# `gr_tpb_thread_body`

The thread-per-block scheduler: one thread for each block runs its executor again
and again, tells its neighbours about progress and waits when it is blocked
(`gr_tpb_thread_body.cc`, `gr_tpb_detail.h`, `gr_tpb_detail.cc`). A step of a
thread is what it does while it holds one mutex. Which blocks can run, what
`general_work` calls and returns, who posts messages and when, and in which order
the threads take their steps, is given by the actions.
-/

namespace GnuRadio

variable {α τ μ : Type}

/-- The sides of a block on which it can be blocked. -/
inductive Side where
  | input
  | output
  deriving DecidableEq, Repr

/-- The data of a `gr_tpb_detail` that its mutex protects. -/
structure TpbDetail (μ : Type) where
  inputChanged : Bool
  outputChanged : Bool
  msgQueue : List μ
  deriving DecidableEq, Repr

namespace TpbDetail

/-- The constructor of `gr_tpb_detail`. -/
def make : TpbDetail μ := ⟨false, false, []⟩

/-- `input_changed` or `output_changed`. -/
def changed (t : TpbDetail μ) : Side → Bool
  | .input => t.inputChanged
  | .output => t.outputChanged

/-- `gr_tpb_detail::clear_changed` (`gr_tpb_detail.h:58-63`). -/
def clearChanged (t : TpbDetail μ) : TpbDetail μ :=
  { t with inputChanged := false, outputChanged := false }

/-- `gr_tpb_detail::set_input_changed` and `set_output_changed` (`gr_tpb_detail.h:84-98`). -/
def setChanged (t : TpbDetail μ) : Side → TpbDetail μ
  | .input => { t with inputChanged := true }
  | .output => { t with outputChanged := true }

/-- `gr_tpb_detail::insert_tail` (`gr_tpb_detail.cc:71-81`). -/
def insertTail (t : TpbDetail μ) (msg : μ) : TpbDetail μ :=
  { t with msgQueue := t.msgQueue ++ [msg] }

@[simp] theorem clearChanged_changed (t : TpbDetail μ) (side : Side) :
    t.clearChanged.changed side = false := by cases side <;> rfl
@[simp] theorem insertTail_changed (t : TpbDetail μ) (msg : μ) (side : Side) :
    (t.insertTail msg).changed side = t.changed side := by cases side <;> rfl
@[simp] theorem setChanged_self (t : TpbDetail μ) (side : Side) :
    (t.setChanged side).changed side = true := by cases side <;> rfl

theorem setChanged_changed (t : TpbDetail μ) {set side : Side} (before : t.changed side = true) :
    (t.setChanged set).changed side = true := by
  cases set <;> cases side <;> first | rfl | exact before

end TpbDetail

/-- Where the thread of a block is. -/
inductive Phase (τ : Type) where
  /-- At the top of the loop, handling queued up messages. -/
  | messages
  /-- Before `clear_changed`. -/
  | clearing
  /-- In `run_one_iteration`, before `general_work`. -/
  | looking
  /-- In `general_work`, with `d_start_nitems_read` and whether `d_produce_or` is set. -/
  | working (start : List Nat) (produced : Bool)
  /-- In `propagate_tags`: the inputs that are left with the starts of their windows, and the
  tags that were read and are still to be added to outputs. -/
  | propagating (windows : List (Nat × Nat)) (pending : List (BufferId × Tag τ))
      (produced : Bool) (result : Int)
  /-- In `produce_each`. -/
  | producing (left : List BufferId) (howManyItems : Nat)
  /-- At `were_done`. -/
  | wereDone
  /-- Notifying neighbours; after `DONE` the thread returns. -/
  | notifying (left : List (Side × BlockId)) (last : Bool)
  /-- Blocked, before the mutex is taken. -/
  | blocked (side : Side)
  /-- In `wait` on the condition variable of a side. -/
  | asleep (side : Side) (notified : Bool)
  /-- Handling pending messages while blocked. -/
  | draining (side : Side)
  | finished
  deriving DecidableEq, Repr

/-- The heap all threads share, and what belongs to the thread of each block. -/
structure World (α τ μ : Type) where
  heap : Heap α τ
  tpb : BlockId → TpbDetail μ
  phase : BlockId → Phase τ

/-- What the inputs and outputs of a block let `run_one_iteration` decide before
`general_work`. -/
inductive Verdict where
  | blkdIn
  | blkdOut
  | wereDone
  | callWork
  deriving DecidableEq, Repr

/-- Where the thread goes on; `start` is `nitems_read` of the inputs. -/
def Verdict.phase (start : List Nat) : Verdict → Phase τ
  | .blkdIn => .blocked .input
  | .blkdOut => .blocked .output
  | .wereDone => .wereDone
  | .callWork => .working start false

/-- The steps of a thread. -/
inductive ThreadAction (α τ : Type) where
  /-- The next step of the program where there is only one. -/
  | advance
  /-- `space_available` of an output. -/
  | askSpace (which : Nat)
  | decide (verdict : Verdict)
  /-- A runtime call of `general_work`. -/
  | call (c : WorkCall α τ)
  /-- `general_work` returns. -/
  | workReturns (result : Int)

/-- The steps of the threads and of the rest of the program. -/
inductive Action (α τ μ : Type) where
  | thread (b : BlockId) (a : ThreadAction α τ)
  /-- `insert_tail` of a message for a block. -/
  | post (b : BlockId) (msg : μ)
  /-- A condition variable may wake its thread for no reason. -/
  | spuriousWake (b : BlockId)

/-- The thread that takes the step. -/
def Action.owner : Action α τ μ → Option BlockId
  | .thread b _ => some b
  | .post _ _ => none
  | .spuriousWake _ => none

namespace Heap

/-- The blocks that `notify_upstream` tells (`gr_tpb_detail.cc:37-48`). -/
def notifyUpstream (h : Heap α τ) (d : BlockDetail) :
    Except CppException (List (Side × BlockId)) :=
  d.input.mapM fun p => match p with
    | none => .error .undefinedBehaviour
    | some p => .ok (.output, (h.buffer p.buffer).link)

/-- The blocks that `notify_downstream` tells (`gr_tpb_detail.cc:50-61`). -/
def notifyDownstream (h : Heap α τ) (d : BlockDetail) : List (Side × BlockId) :=
  d.output.flatMap fun id => (h.buffer id).readers.map fun r => (.input, r.link)

/-- The blocks that `notify_neighbors` tells (`gr_tpb_detail.cc:63-68`). -/
def notifyNeighbors (h : Heap α τ) (d : BlockDetail) :
    Except CppException (List (Side × BlockId)) := do
  let upstream ← h.notifyUpstream d
  return h.notifyDownstream d ++ upstream

/-- `nitems_read` of one input. -/
def nitemsReadAt (h : Heap α τ) (d : BlockDetail) (which : Nat) : Nat :=
  (h.nitemsRead d).getD which 0

/-- The tags that `propagate_tags` reads of one input, with the outputs it adds them to. -/
def pendingTags (h : Heap α τ) (g : GrBlock) (d : BlockDetail) (which start : Nat) :
    List (BufferId × Tag τ) :=
  let tags := h.tagsInRange start (h.nitemsReadAt d which) (d.input.getD which none)
  match g.tagPropagationPolicy with
  | .dont => []
  | .allToAll => tags.flatMap fun t =>
      d.output.map fun id => (id, if g.relativeRate = 1 then t else t.scaled g.relativeRate)
  | .oneToOne => tags.map fun t => (d.output.getD which 0, t.scaled g.relativeRate)

end Heap

namespace World

/-- The thread of a block goes on. -/
def goto (w : World α τ μ) (b : BlockId) (phase : Phase τ) : World α τ μ :=
  { w with phase := Function.update w.phase b phase }

/-- A change of the flags and the queue of a block. -/
def mapTpb (w : World α τ μ) (b : BlockId) (f : TpbDetail μ → TpbDetail μ) : World α τ μ :=
  { w with tpb := Function.update w.tpb b (f (w.tpb b)) }

/-- `notify_one` on the condition variable of a side: its block is the only one to wait
there. -/
def notifyOne (w : World α τ μ) (b : BlockId) (side : Side) : World α τ μ :=
  match w.phase b with
  | .asleep on _ => if on = side then w.goto b (.asleep on true) else w
  | _ => w

/-- `set_input_changed` or `set_output_changed` of a block. -/
def setChanged (w : World α τ μ) (b : BlockId) (side : Side) : World α τ μ :=
  (w.mapTpb b (·.setChanged side)).notifyOne b side

/-- `insert_tail` of a message for a block. -/
def post (w : World α τ μ) (b : BlockId) (msg : μ) : World α τ μ :=
  ((w.mapTpb b (·.insertTail msg)).notifyOne b .input).notifyOne b .output

/-- The test of the inner loop of a blocked thread (`gr_tpb_thread_body.cc:70-71`). -/
def testInner (w : World α τ μ) (b : BlockId) (side : Side) : World α τ μ :=
  if (w.tpb b).changed side = false ∧ (w.tpb b).msgQueue = [] then w.goto b (.asleep side false)
  else w.goto b (.draining side)

/-- The test of the outer loop of a blocked thread (`gr_tpb_thread_body.cc:67`). -/
def testOuter (w : World α τ μ) (b : BlockId) (side : Side) : World α τ μ :=
  if (w.tpb b).changed side = true then w.goto b .messages else w.testInner b side

/-- The thread begins to notify some blocks. -/
def notify (w : World α τ μ) (b : BlockId) (targets : Except CppException (List (Side × BlockId)))
    (last : Bool) : Option (World α τ μ) :=
  targets.toOption.map fun left => w.goto b (.notifying left last)

/-- After `propagate_tags` (`gr_block_executor.cc:378-406`). -/
def settle (w : World α τ μ) (b : BlockId) (d : BlockDetail) (produced : Bool) (result : Int) :
    Option (World α τ μ) :=
  if result = workDone then some (w.goto b .wereDone)
  else if result ≠ workCalledProduce ∧ 0 < result then
    some (w.goto b (.producing d.output result.toNat))
  else if produced then w.notify b (w.heap.notifyNeighbors d) false
  else if d.input = [] then some (w.goto b .wereDone)
  else w.notify b (w.heap.notifyUpstream d) false

/-- `general_work` has returned, and `propagate_tags` begins (`gr_block_executor.cc:90-102`,
`gr_block_executor.cc:133-155`, `gr_block_executor.cc:373-376`). -/
def workReturns (w : World α τ μ) (b : BlockId) (d : BlockDetail) (g : GrBlock) (start : List Nat)
    (produced : Bool) (result : Int) : World α τ μ :=
  if d.output = [] ∨ g.tagPropagationPolicy = .dont then
    w.goto b (.propagating [] [] produced result)
  else if g.tagPropagationPolicy = .oneToOne ∧ d.input.length ≠ d.output.length then
    w.goto b .wereDone
  else
    let windows := start.zipIdx.map fun (first, which) => (which, first)
    w.goto b (.propagating windows [] produced result)

/-- The next step of the thread of a block where there is only one. -/
def advance (w : World α τ μ) (b : BlockId) (d : BlockDetail) (g : GrBlock) :
    Option (World α τ μ) :=
  match w.phase b with
  | .messages =>
      match (w.tpb b).msgQueue with
      | [] => some (w.goto b .clearing)
      | _ :: queue => some (w.mapTpb b ({ · with msgQueue := queue }))
  | .clearing => some ((w.mapTpb b (·.clearChanged)).goto b .looking)
  | .propagating windows ((id, t) :: pending) produced result =>
      let heap := w.heap.mapBuffer id fun buffer => buffer.addItemTag t
      some ({ w with heap := heap }.goto b (.propagating windows pending produced result))
  | .propagating ((which, start) :: windows) [] produced result =>
      let pending := w.heap.pendingTags g d which start
      some (w.goto b (.propagating windows pending produced result))
  | .propagating [] [] produced result => w.settle b d produced result
  | .producing (id :: left) n =>
      let heap := w.heap.mapBuffer id fun buffer => buffer.updateWritePointer n
      some ({ w with heap := heap }.goto b (.producing left n))
  | .producing [] _ => w.notify b (w.heap.notifyNeighbors d) false
  | .wereDone =>
      (w.heap.setDone b d true).toOption.bind fun heap =>
        { w with heap := heap }.notify b (heap.notifyNeighbors d) true
  | .notifying ((side, c) :: left) last =>
      some ((w.goto b (.notifying left last)).setChanged c side)
  | .notifying [] last => some (w.goto b (if last then .finished else .messages))
  | .blocked side => some (w.testOuter b side)
  | .asleep side notified => if notified then some (w.testInner b side) else none
  | .draining side =>
      match (w.tpb b).msgQueue with
      | [] => some (w.testOuter b side)
      | _ :: queue => some (w.mapTpb b ({ · with msgQueue := queue }))
  | .looking => none
  | .working _ _ => none
  | .finished => none

/-- A step of the thread of a block. -/
def threadStep (w : World α τ μ) (b : BlockId) (d : BlockDetail) (g : GrBlock) :
    ThreadAction α τ → Option (World α τ μ)
  | .advance => w.advance b d g
  | .askSpace which =>
      match w.phase b, d.output[which]? with
      | .looking, some id =>
          some { w with heap := w.heap.mapBuffer id fun buffer => buffer.spaceAvailable.2 }
      | _, _ => none
  | .decide verdict =>
      match w.phase b with
      | .looking => some (w.goto b (verdict.phase (w.heap.nitemsRead d)))
      | _ => none
  | .call c =>
      match w.phase b with
      | .working start produced => (w.heap.workCall d c).toOption.map fun (heap, more) =>
          { w with heap := heap }.goto b (.working start (produced || more))
      | _ => none
  | .workReturns result =>
      match w.phase b with
      | .working start produced => some (w.workReturns b d g start produced result)
      | _ => none

end World

/-- A step of the scheduler. -/
def tpbStep (env : Blocks) (w : World α τ μ) : Action α τ μ → Option (World α τ μ)
  | .thread b a =>
      match w.heap.detail b, (env b).grBlock with
      | some d, some g => w.threadStep b d g a
      | _, _ => none
  | .post b msg => some (w.post b msg)
  | .spuriousWake b =>
      match w.phase b with
      | .asleep side _ => some (w.testInner b side)
      | _ => none

/-- The threads of a flowgraph that has just been set up. -/
def World.start (heap : Heap α τ) : World α τ μ :=
  ⟨heap, fun _ => .make, fun _ => .messages⟩

end GnuRadio

/-!
## The steps of the thread-per-block scheduler

Every step of the scheduler is one of the cases of `TpbMoves`; invariants of its
runs go through them. No step changes which block writes and reads which buffer.
-/

namespace GnuRadio

variable {α τ μ : Type} {env : Blocks} {w w' : World α τ μ} {b c : BlockId}

namespace World

/-! ## The parts of the world a step changes -/

@[simp] theorem goto_heap (phase : Phase τ) : (w.goto b phase).heap = w.heap := rfl
@[simp] theorem goto_tpb (phase : Phase τ) : (w.goto b phase).tpb = w.tpb := rfl
@[simp] theorem goto_phase_self (phase : Phase τ) : (w.goto b phase).phase b = phase :=
  Function.update_self ..
theorem goto_phase_of_ne (phase : Phase τ) (other : c ≠ b) :
    (w.goto b phase).phase c = w.phase c := Function.update_of_ne other ..
@[simp] theorem mapTpb_heap (f : TpbDetail μ → TpbDetail μ) : (w.mapTpb b f).heap = w.heap := rfl
@[simp] theorem mapTpb_phase (f : TpbDetail μ → TpbDetail μ) : (w.mapTpb b f).phase = w.phase := rfl
@[simp] theorem mapTpb_tpb_self (f : TpbDetail μ → TpbDetail μ) :
    (w.mapTpb b f).tpb b = f (w.tpb b) := Function.update_self ..
theorem mapTpb_tpb_of_ne (f : TpbDetail μ → TpbDetail μ) (other : c ≠ b) :
    (w.mapTpb b f).tpb c = w.tpb c := Function.update_of_ne other ..

@[simp] theorem notifyOne_heap (side : Side) : (w.notifyOne b side).heap = w.heap := by
  unfold notifyOne
  split
  · split <;> rfl
  · rfl
@[simp] theorem notifyOne_tpb (side : Side) : (w.notifyOne b side).tpb = w.tpb := by
  unfold notifyOne
  split
  · split <;> rfl
  · rfl

theorem notifyOne_phase (side : Side) : (w.notifyOne b side).phase c = w.phase c ∨
    ∃ on notified, w.phase c = .asleep on notified ∧
      (w.notifyOne b side).phase c = .asleep on true := by
  unfold notifyOne
  split
  · rename_i on notified sleeps
    split
    · by_cases same : c = b
      · subst same
        exact Or.inr ⟨on, notified, sleeps, goto_phase_self _⟩
      · exact Or.inl (goto_phase_of_ne _ same)
    · exact Or.inl rfl
  · exact Or.inl rfl

theorem notifyOne_self {side : Side} {notified : Bool}
    (sleeps : (w.notifyOne b side).phase b = .asleep side notified) : notified = true := by
  unfold notifyOne at sleeps
  split at sleeps
  · rename_i on before sleeping
    split at sleeps
    · rename_i same
      rw [goto_phase_self, Phase.asleep.injEq] at sleeps
      exact sleeps.2.symm
    · rename_i other
      rw [sleeping, Phase.asleep.injEq] at sleeps
      exact absurd sleeps.1 other
  · rename_i awake
    exact absurd sleeps (awake side notified)

theorem testInner_eq (side : Side) : ∃ phase, w.testInner b side = w.goto b phase ∧
    (phase = .draining side ∨ phase = .asleep side false ∧ (w.tpb b).changed side = false) := by
  unfold testInner
  split
  · rename_i idle
    exact ⟨_, rfl, Or.inr ⟨rfl, idle.1⟩⟩
  · exact ⟨_, rfl, Or.inl rfl⟩

theorem testOuter_eq (side : Side) : ∃ phase, w.testOuter b side = w.goto b phase ∧
    (phase = .messages ∨ phase = .draining side ∨
      phase = .asleep side false ∧ (w.tpb b).changed side = false) := by
  unfold testOuter
  split
  · exact ⟨_, rfl, Or.inl rfl⟩
  · obtain ⟨phase, same, which⟩ := testInner_eq (w := w) (b := b) side
    exact ⟨phase, same, Or.inr which⟩

theorem notify_ok {targets : Except CppException (List (Side × BlockId))} {last : Bool}
    (notified : w.notify b targets last = some w') :
    ∃ left, targets = .ok left ∧ w' = w.goto b (.notifying left last) := by
  obtain ⟨left, found, rfl⟩ := Option.map_eq_some_iff.mp notified
  exact ⟨left, toOption_some.mp found, rfl⟩

variable {d : BlockDetail} {g : GrBlock}

/-- The steps of a thread, one case for each kind. -/
inductive Moves (w : World α τ μ) (b : BlockId) (d : BlockDetail) (g : GrBlock) :
    ThreadAction α τ → World α τ μ → Prop
  | handleMessage {msg : μ} {queue : List μ} (here : w.phase b = .messages)
      (queued : (w.tpb b).msgQueue = msg :: queue) :
      Moves w b d g .advance (w.mapTpb b ({ · with msgQueue := queue }))
  | noMessage (here : w.phase b = .messages) (empty : (w.tpb b).msgQueue = []) :
      Moves w b d g .advance (w.goto b .clearing)
  | clear (here : w.phase b = .clearing) :
      Moves w b d g .advance ((w.mapTpb b (·.clearChanged)).goto b .looking)
  | askSpace {which : Nat} {id : BufferId} (here : w.phase b = .looking)
      (output : d.output[which]? = some id) : Moves w b d g (.askSpace which)
      { w with heap := w.heap.mapBuffer id fun buffer => buffer.spaceAvailable.2 }
  | decide {verdict : Verdict} (here : w.phase b = .looking) :
      Moves w b d g (.decide verdict) (w.goto b (verdict.phase (w.heap.nitemsRead d)))
  | call {start : List Nat} {produced more : Bool} {c : WorkCall α τ} {heap : Heap α τ}
      (here : w.phase b = .working start produced)
      (called : w.heap.workCall d c = .ok (heap, more)) : Moves w b d g (.call c)
      ({ w with heap := heap }.goto b (.working start (produced || more)))
  | workReturns {start : List Nat} {produced : Bool} {result : Int}
      (here : w.phase b = .working start produced) :
      Moves w b d g (.workReturns result) (w.workReturns b d g start produced result)
  | addTag {windows : List (Nat × Nat)} {id : BufferId} {t : Tag τ}
      {pending : List (BufferId × Tag τ)} {produced : Bool} {result : Int}
      (here : w.phase b = .propagating windows ((id, t) :: pending) produced result) :
      Moves w b d g .advance
        ({ w with heap := w.heap.mapBuffer id fun buffer => buffer.addItemTag t }.goto b
          (.propagating windows pending produced result))
  | collect {windows : List (Nat × Nat)} {which start : Nat} {produced : Bool} {result : Int}
      (here : w.phase b = .propagating ((which, start) :: windows) [] produced result) :
      Moves w b d g .advance
        (w.goto b (.propagating windows (w.heap.pendingTags g d which start) produced result))
  | settle {produced : Bool} {result : Int} {w' : World α τ μ}
      (here : w.phase b = .propagating [] [] produced result)
      (settled : w.settle b d produced result = some w') : Moves w b d g .advance w'
  | produce {id : BufferId} {left : List BufferId} {n : Nat}
      (here : w.phase b = .producing (id :: left) n) : Moves w b d g .advance
        ({ w with heap := w.heap.mapBuffer id fun buffer => buffer.updateWritePointer n }.goto b
          (.producing left n))
  | ready {n : Nat} {left : List (Side × BlockId)} (here : w.phase b = .producing [] n)
      (targets : w.heap.notifyNeighbors d = .ok left) :
      Moves w b d g .advance (w.goto b (.notifying left false))
  | markDone {heap : Heap α τ} {left : List (Side × BlockId)} (here : w.phase b = .wereDone)
      (marked : w.heap.setDone b d true = .ok heap)
      (targets : heap.notifyNeighbors d = .ok left) : Moves w b d g .advance
        ({ w with heap := heap }.goto b (.notifying left true))
  | tell {side : Side} {c : BlockId} {left : List (Side × BlockId)} {last : Bool}
      (here : w.phase b = .notifying ((side, c) :: left) last) : Moves w b d g .advance
        ((w.goto b (.notifying left last)).setChanged c side)
  | told {last : Bool} (here : w.phase b = .notifying [] last) :
      Moves w b d g .advance (w.goto b (if last then .finished else .messages))
  | block {side : Side} (here : w.phase b = .blocked side) :
      Moves w b d g .advance (w.testOuter b side)
  | wake {side : Side} (here : w.phase b = .asleep side true) :
      Moves w b d g .advance (w.testInner b side)
  | handlePending {side : Side} {msg : μ} {queue : List μ} (here : w.phase b = .draining side)
      (queued : (w.tpb b).msgQueue = msg :: queue) :
      Moves w b d g .advance (w.mapTpb b ({ · with msgQueue := queue }))
  | nonePending {side : Side} (here : w.phase b = .draining side)
      (empty : (w.tpb b).msgQueue = []) : Moves w b d g .advance (w.testOuter b side)

theorem advance_moves (advanced : w.advance b d g = some w') : Moves w b d g .advance w' := by
  unfold advance at advanced
  split at advanced
  · rename_i here
    split at advanced
    · rename_i empty
      obtain rfl := Option.some.inj advanced
      exact .noMessage here empty
    · rename_i queued
      obtain rfl := Option.some.inj advanced
      exact .handleMessage here queued
  · rename_i here
    obtain rfl := Option.some.inj advanced
    exact .clear here
  · rename_i here
    obtain rfl := Option.some.inj advanced
    exact .addTag here
  · rename_i here
    obtain rfl := Option.some.inj advanced
    exact .collect here
  · rename_i here
    exact .settle here advanced
  · rename_i here
    obtain rfl := Option.some.inj advanced
    exact .produce here
  · rename_i here
    obtain ⟨left, targets, rfl⟩ := notify_ok advanced
    exact .ready here targets
  · rename_i here
    obtain ⟨heap, marked, advanced⟩ := Option.bind_eq_some_iff.mp advanced
    obtain ⟨left, targets, rfl⟩ := notify_ok advanced
    exact .markDone here (toOption_some.mp marked) targets
  · rename_i here
    obtain rfl := Option.some.inj advanced
    exact .tell here
  · rename_i here
    obtain rfl := Option.some.inj advanced
    exact .told here
  · rename_i here
    obtain rfl := Option.some.inj advanced
    exact .block here
  · rename_i side notified here
    split at advanced
    · rename_i told
      rw [told] at here
      obtain rfl := Option.some.inj advanced
      exact .wake here
    · cases advanced
  · rename_i here
    split at advanced
    · rename_i empty
      obtain rfl := Option.some.inj advanced
      exact .nonePending here empty
    · rename_i queued
      obtain rfl := Option.some.inj advanced
      exact .handlePending here queued
  all_goals cases advanced

theorem threadStep_moves {a : ThreadAction α τ} (stepped : w.threadStep b d g a = some w') :
    Moves w b d g a w' := by
  cases a with
  | advance => exact advance_moves stepped
  | askSpace which =>
    simp only [threadStep] at stepped
    split at stepped
    · rename_i here output
      obtain rfl := Option.some.inj stepped
      exact .askSpace here output
    · cases stepped
  | decide verdict =>
    simp only [threadStep] at stepped
    split at stepped
    · rename_i here
      obtain rfl := Option.some.inj stepped
      exact .decide here
    · cases stepped
  | call c =>
    simp only [threadStep] at stepped
    split at stepped
    · rename_i here
      obtain ⟨⟨heap, more⟩, called, rfl⟩ := Option.map_eq_some_iff.mp stepped
      exact .call here (toOption_some.mp called)
    · cases stepped
  | workReturns result =>
    simp only [threadStep] at stepped
    split at stepped
    · rename_i here
      obtain rfl := Option.some.inj stepped
      exact .workReturns here
    · cases stepped

end World

/-- The steps of the scheduler, one case for each kind. -/
inductive TpbMoves (env : Blocks) (w : World α τ μ) : Action α τ μ → World α τ μ → Prop
  | thread {b : BlockId} {d : BlockDetail} {g : GrBlock} {a : ThreadAction α τ} {w' : World α τ μ}
      (detail : w.heap.detail b = some d) (block : (env b).grBlock = some g)
      (moves : w.Moves b d g a w') : TpbMoves env w (.thread b a) w'
  | post (b : BlockId) (msg : μ) : TpbMoves env w (.post b msg) (w.post b msg)
  | spuriousWake {b : BlockId} {side : Side} {notified : Bool}
      (here : w.phase b = .asleep side notified) :
      TpbMoves env w (.spuriousWake b) (w.testInner b side)

variable {e : Action α τ μ}

theorem tpbStep_moves (stepped : tpbStep env w e = some w') : TpbMoves env w e w' := by
  cases e with
  | thread b a =>
    simp only [tpbStep] at stepped
    split at stepped
    · rename_i detail block
      exact .thread detail block (World.threadStep_moves stepped)
    · cases stepped
  | post b msg =>
    obtain rfl := Option.some.inj stepped
    exact .post b msg
  | spuriousWake b =>
    simp only [tpbStep] at stepped
    split at stepped
    · rename_i here
      obtain rfl := Option.some.inj stepped
      exact .spuriousWake here
    · cases stepped

theorem TpbMoves.own (moves : TpbMoves env w e w') (own : e.owner = some b) :
    ∃ d g a, w.heap.detail b = some d ∧ (env b).grBlock = some g ∧ e = .thread b a ∧
      w.Moves b d g a w' := by
  cases moves with
  | thread detail block moves =>
    obtain rfl := Option.some.inj own
    exact ⟨_, _, _, detail, block, rfl, moves⟩
  | post => cases own
  | spuriousWake => cases own

/-! ## Wiring -/

namespace Heap

variable {h h' : Heap α τ}

/-- The pointers of the details and the blocks at the buffers are the same. -/
structure SameWires (h h' : Heap α τ) : Prop where
  ports : ∀ b, (h'.detail b).map (fun d => (d.input, d.output)) =
    (h.detail b).map fun d => (d.input, d.output)
  wires : ∀ id, (h'.buffer id).wires = (h.buffer id).wires

theorem SameWires.refl (h : Heap α τ) : SameWires h h := ⟨fun _ => rfl, fun _ => rfl⟩

theorem SameWires.trans {h'' : Heap α τ} (first : SameWires h h') (second : SameWires h' h'') :
    SameWires h h'' :=
  ⟨fun b => (second.ports b).trans (first.ports b), fun id => (second.wires id).trans (first.wires id)⟩

theorem SameWires.symm (same : SameWires h h') : SameWires h' h :=
  ⟨fun b => (same.ports b).symm, fun id => (same.wires id).symm⟩

theorem Quiet.sameWires (quiet : Quiet h h') : SameWires h h' :=
  ⟨fun b => by rw [quiet.detail], quiet.wires⟩

theorem setDone_sameWires {d : BlockDetail} {done : Bool} (detail : h.detail b = some d)
    (set : h.setDone b d done = .ok h') : SameWires h h' := by
  obtain ⟨details, -, wires, -⟩ := setDone_ok set
  refine ⟨?_, wires⟩
  intro c
  rw [details]
  by_cases same : c = b
  · rw [same, Function.update_self, detail]
    rfl
  · rw [Function.update_of_ne same]

theorem SameWires.detail (same : SameWires h h') {d' : BlockDetail} (detail : h'.detail b = some d') :
    ∃ d, h.detail b = some d ∧ d.input = d'.input ∧ d.output = d'.output := by
  have ports := same.ports b
  rw [detail, Option.map_some, eq_comm, Option.map_eq_some_iff] at ports
  obtain ⟨d, before, both⟩ := ports
  exact ⟨d, before, (Prod.mk.inj both).1, (Prod.mk.inj both).2⟩

/-- Inputs are not null, and a buffer knows the blocks that write and read it. -/
structure Wired (env : Blocks) (h : Heap α τ) : Prop where
  blocks : ∀ b d, h.detail b = some d → (env b).grBlock.isSome = true
  inputs : ∀ b d, h.detail b = some d → none ∉ d.input
  writer : ∀ b d id, h.detail b = some d → id ∈ d.output → (h.buffer id).wires.1 = b
  reader : ∀ b d p, h.detail b = some d → some p ∈ d.input →
    (p.ident, b) ∈ (h.buffer p.buffer).wires.2

theorem Wired.sameWires (wired : h.Wired env) (same : SameWires h h') : h'.Wired env := by
  refine ⟨?_, ?_, ?_, ?_⟩
  · intro b d' detail
    obtain ⟨d, before, -, -⟩ := same.detail detail
    exact wired.blocks b d before
  · intro b d' detail
    obtain ⟨d, before, input, -⟩ := same.detail detail
    rw [← input]
    exact wired.inputs b d before
  · intro b d' id detail member
    obtain ⟨d, before, -, output⟩ := same.detail detail
    rw [same.wires]
    exact wired.writer b d id before (output ▸ member)
  · intro b d' p detail member
    obtain ⟨d, before, input, -⟩ := same.detail detail
    rw [same.wires]
    exact wired.reader b d p before (input ▸ member)

end Heap

theorem Flowgraph.SetUp.wired [Zero α] {granularity : Nat} {fg : Flowgraph} {h : Heap α τ}
    (valid : fg.Valid env) (ready : fg.SetUp env granularity h) : h.Wired env := by
  have used : ∀ b d, h.detail b = some d → b ∈ fg.calcUsedBlocks := by
    intro b d detail
    by_contra unused
    have none := ready.unused b unused
    rw [Heap.ports, detail] at none
    cases none
  have port : ∀ b d (i : Nat) p, h.detail b = some d → d.input[i]? = some p →
      h.inputAt ⟨b, i⟩ = p := by
    intro b d i p detail there
    rw [Heap.inputAt, if_neg (by dsimp only; omega), detail, Option.bind_some,
      Int.toNat_natCast, there, Option.join_some]
  refine ⟨fun b d detail => ready.blocks b (used b d detail), ?_, ?_, ?_⟩
  · intro b d detail null
    obtain ⟨i, inside, there⟩ := List.mem_iff_getElem.mp null
    have ports := (ready.detailed b (used b d detail)).ports
    rw [Heap.ports, detail, Option.map_some, Option.some.injEq, Prod.mk.injEq] at ports
    obtain ⟨e, member, dst⟩ := valid.input_iff.mp
      (show 0 ≤ (i : Int) ∧ (i : Int) < fg.ninputs b by omega)
    obtain ⟨p, held, -⟩ := ready.serves.wired e member
    rw [dst, port b d i none detail (by rw [List.getElem?_eq_getElem inside, there])] at held
    cases held
  · intro b d id detail member
    obtain ⟨i, inside, there⟩ := List.mem_iff_getElem.mp member
    obtain ⟨-, made, allocated, same⟩ := (ready.detailed b (used b d detail)).made i id (by
      rw [Heap.outputAt, if_neg (by dsimp only; omega), detail, Option.bind_some,
        Int.toNat_natCast, List.getElem?_eq_getElem inside, there])
    obtain ⟨_, _, _, _, -, -, rfl⟩ := allocateBuffer_ok allocated
    rw [same]
    rfl
  · intro b d p detail member
    obtain ⟨i, inside, there⟩ := List.mem_iff_getElem.mp member
    obtain ⟨r, found, link, -⟩ := ready.fresh _ p
      (port b d i (some p) detail (by rw [List.getElem?_eq_getElem inside, there]))
    have ident : r.ident = p.ident := by
      simpa using List.find?_some (p := fun r : BufferReader => r.ident == p.ident) found
    refine List.mem_map.mpr ⟨r, List.mem_of_find?_eq_some found, ?_⟩
    rw [ident, link]

namespace World

variable {d : BlockDetail} {g : GrBlock}

theorem settle_ok {produced : Bool} {result : Int} (settled : w.settle b d produced result = some w') :
    ∃ phase, w' = w.goto b phase ∧ (phase = .wereDone ∨ (∃ n, phase = .producing d.output n) ∨
      (∃ left, phase = .notifying left false ∧ w.heap.notifyNeighbors d = .ok left) ∨
      produced = false ∧ ∃ left, phase = .notifying left false ∧
        w.heap.notifyUpstream d = .ok left) := by
  unfold settle at settled
  split at settled
  · obtain rfl := Option.some.inj settled
    exact ⟨_, rfl, Or.inl rfl⟩
  split at settled
  · obtain rfl := Option.some.inj settled
    exact ⟨_, rfl, Or.inr (Or.inl ⟨_, rfl⟩)⟩
  split at settled
  · obtain ⟨left, targets, rfl⟩ := notify_ok settled
    exact ⟨_, rfl, Or.inr (Or.inr (Or.inl ⟨left, rfl, targets⟩))⟩
  rename_i idle
  split at settled
  · obtain rfl := Option.some.inj settled
    exact ⟨_, rfl, Or.inl rfl⟩
  · obtain ⟨left, targets, rfl⟩ := notify_ok settled
    exact ⟨_, rfl, Or.inr (Or.inr (Or.inr ⟨by simpa using idle, left, rfl, targets⟩))⟩

theorem workReturns_eq (start : List Nat) (produced : Bool) (result : Int) :
    ∃ phase, w.workReturns b d g start produced result = w.goto b phase ∧
      (phase = .wereDone ∨ ∃ windows, phase = .propagating windows [] produced result) := by
  unfold workReturns
  split
  · exact ⟨_, rfl, Or.inr ⟨[], rfl⟩⟩
  split
  · exact ⟨_, rfl, Or.inl rfl⟩
  · exact ⟨_, rfl, Or.inr ⟨_, rfl⟩⟩

theorem quiet_askSpace (h : Heap α τ) (id : BufferId) :
    Heap.Quiet h (h.mapBuffer id fun buffer => buffer.spaceAvailable.2) :=
  Heap.quiet_mapBuffer h id (fun b => b.spaceAvailable_bufsize)
    (fun b => by obtain ⟨_, _, same⟩ := b.spaceAvailable_snd; rw [same])
    fun b => by obtain ⟨_, _, same⟩ := b.spaceAvailable_snd; rw [same]; rfl

theorem Moves.sameWires {a : ThreadAction α τ} (detail : w.heap.detail b = some d)
    (moves : w.Moves b d g a w') : w.heap.SameWires w'.heap := by
  cases moves with
  | askSpace => exact (quiet_askSpace _ _).sameWires
  | call _ called => exact (Heap.quiet_workCall called).sameWires
  | workReturns =>
    obtain ⟨phase, same, -⟩ := workReturns_eq (w := w) (b := b) (d := d) (g := g) _ _ _
    rw [same]
    exact Heap.SameWires.refl _
  | addTag => exact (Heap.quiet_addItemTag _ _ _).sameWires
  | settle _ settled =>
    obtain ⟨_, rfl, -⟩ := settle_ok settled
    exact Heap.SameWires.refl _
  | produce => exact (Heap.quiet_produce _ _ _).sameWires
  | markDone _ marked => exact Heap.setDone_sameWires detail marked
  | tell =>
    rw [setChanged, notifyOne_heap, mapTpb_heap]
    exact Heap.SameWires.refl _
  | block | nonePending =>
    obtain ⟨_, same, -⟩ := testOuter_eq (w := w) (b := b) _
    rw [same]
    exact Heap.SameWires.refl _
  | wake =>
    obtain ⟨_, same, -⟩ := testInner_eq (w := w) (b := b) _
    rw [same]
    exact Heap.SameWires.refl _
  | handleMessage | noMessage | clear | decide | collect | ready | told | handlePending =>
    exact Heap.SameWires.refl _

end World

theorem TpbMoves.sameWires (moves : TpbMoves env w e w') : w.heap.SameWires w'.heap := by
  cases moves with
  | thread detail _ moves => exact moves.sameWires detail
  | post b msg =>
    rw [World.post, World.notifyOne_heap, World.notifyOne_heap, World.mapTpb_heap]
    exact Heap.SameWires.refl _
  | spuriousWake =>
    obtain ⟨_, same, -⟩ := World.testInner_eq (w := w) _
    rw [same]
    exact Heap.SameWires.refl _

end GnuRadio
