import Mathlib.Algebra.Group.Nat.Defs
import GnuRadio.Misc.LinkedList
import GnuRadio.Misc.Trace

/-!
# Message queues

`gr_msg_queue` links the messages themselves: `d_next` of a message is the one
behind it. The queues here share the messages. Threads call the operations; a
critical section is one step, and a thread that waits for a condition has no step
until it holds.
-/

namespace GnuRadio

/-- A message, by its address. -/
abbrev MsgId := Nat

/-- A queue, by its address. -/
abbrev QueueId := Nat

/-- `gr_msg_queue` (`gr_msg_queue.h`). -/
structure MsgQueue where
  head : Option MsgId
  tail : Option MsgId
  count : UInt32
  limit : UInt32

/-- The calls of a thread. -/
inductive MsgCall where
  | insertTail (queue : QueueId) (msg : MsgId)
  | deleteHead (queue : QueueId)
  | deleteHeadNowait (queue : QueueId)
  | flush (queue : QueueId)
  deriving DecidableEq, Repr

/-- The `d_next` of every message, the queues, and the call each thread is in, before its next
critical section. -/
structure MsgWorld where
  next : MsgId → Option MsgId
  queue : QueueId → MsgQueue
  phase : Nat → Option MsgCall

namespace MsgWorld

/-- `full_p` (`gr_msg_queue.h:81`). -/
def fullP (w : MsgWorld) (q : QueueId) : Bool :=
  (w.queue q).limit != 0 && (w.queue q).count ≥ (w.queue q).limit

/-- The critical section of `insert_tail` (`gr_msg_queue.cc:52-69`), which waits while the queue
is full. -/
def insertTail (w : MsgWorld) (q : QueueId) (msg : MsgId) : Option MsgWorld :=
  if w.fullP q then none
  else match (w.queue q).tail with
    | none => some { w with
        next := Function.update w.next msg none
        queue := Function.update w.queue q { w.queue q with
          head := some msg
          tail := some msg
          count := (w.queue q).count + 1 } }
    | some last => some { w with
        next := Function.update (Function.update w.next last (some msg)) msg none
        queue := Function.update w.queue q { w.queue q with
          tail := some msg
          count := (w.queue q).count + 1 } }

/-- What `delete_head` and `delete_head_nowait` do with a head `m`
(`gr_msg_queue.cc:81-91`, `gr_msg_queue.cc:105-115`). -/
def deleteHead (w : MsgWorld) (q : QueueId) (m : MsgId) : MsgWorld :=
  let head := w.next m
  { w with
    next := Function.update w.next m none
    queue := Function.update w.queue q { w.queue q with
      head := head
      tail := if head.isNone then none else (w.queue q).tail
      count := (w.queue q).count - 1 } }

/-- The thread enters a call, or leaves it. -/
def goto (w : MsgWorld) (t : Nat) (phase : Option MsgCall) : MsgWorld :=
  { w with phase := Function.update w.phase t phase }

@[simp] theorem goto_phase (w : MsgWorld) (t : Nat) (phase : Option MsgCall) :
    (w.goto t phase).phase t = phase := by
  unfold goto
  exact Function.update_self t phase w.phase

end MsgWorld

/-- A thread makes a call, or does its next critical section. -/
inductive MsgAction where
  | call (thread : Nat) (call : MsgCall)
  | enter (thread : Nat)

/-- A step of a thread. The test of `insert_tail` at its call is made without the mutex, and
throws `invalid_argument` (`gr_msg_queue.cc:49-50`). -/
def msgStep (w : MsgWorld) : MsgAction → Option MsgWorld
  | .call t c =>
      match w.phase t, c with
      | some _, _ => none
      | none, .insertTail _ msg =>
          if (w.next msg).isSome then some w else some (w.goto t (some c))
      | none, _ => some (w.goto t (some c))
  | .enter t =>
      match w.phase t with
      | none => none
      | some (.insertTail q msg) => (w.insertTail q msg).map (·.goto t none)
      | some (.deleteHead q) =>
          match (w.queue q).head with
          | none => none
          | some m => some ((w.deleteHead q m).goto t none)
      | some (.deleteHeadNowait q) =>
          match (w.queue q).head with
          | none => some (w.goto t none)
          | some m => some ((w.deleteHead q m).goto t none)
      -- `flush` calls `delete_head_nowait` until it returns 0
      | some (.flush q) =>
          match (w.queue q).head with
          | none => some (w.goto t none)
          | some m => some (w.deleteHead q m)

/-- Empty queues, and messages that are on none. -/
def MsgWorld.start (limits : QueueId → UInt32) : MsgWorld where
  next := fun _ => none
  queue := fun q => ⟨none, none, 0, limits q⟩
  phase := fun _ => none

/-- The message inserted into a queue by a step. -/
def insertedAt (q : QueueId) (w : MsgWorld) : MsgAction → List MsgId
  | .call _ _ => []
  | .enter t =>
      match w.phase t with
      | some (.insertTail q' msg) => if q' = q then [msg] else []
      | _ => []

/-- The message handed out or flushed from a queue by a step. -/
def removedAt (q : QueueId) (w : MsgWorld) : MsgAction → List MsgId
  | .call _ _ => []
  | .enter t =>
      match w.phase t with
      | some (.deleteHead q') | some (.deleteHeadNowait q') | some (.flush q') =>
          if q' = q then (w.queue q).head.toList else []
      | _ => []

/-! ## The queues as lists -/

/-- The queues hold these messages. -/
structure MsgWorld.Holds (limits : QueueId → UInt32) (w : MsgWorld)
    (contents : QueueId → List MsgId) : Prop where
  linked : ∀ q, Linked w.next (w.queue q).head (contents q)
  tail : ∀ q, (w.queue q).tail = (contents q).getLast?
  count : ∀ q, (w.queue q).count = UInt32.ofNat (contents q).length
  limit : ∀ q, (w.queue q).limit = limits q
  bounded : ∀ q, limits q ≠ 0 → (contents q).length ≤ (limits q).toNat
  apart : ∀ q q' m, m ∈ contents q → m ∈ contents q' → q = q'
  free : ∀ m, (∀ q, m ∉ contents q) → w.next m = none

namespace MsgWorld

variable {limits : QueueId → UInt32} {w w' : MsgWorld} {contents : QueueId → List MsgId}

theorem holds_start : Holds limits (start limits) fun _ => [] where
  linked _ := rfl
  tail _ := rfl
  count _ := rfl
  limit _ := rfl
  bounded _ _ := Nat.zero_le _
  apart _ _ _ member := absurd member List.not_mem_nil
  free _ _ := rfl

theorem Holds.goto (holds : Holds limits w contents) (t : Nat) (phase : Option MsgCall) :
    Holds limits (w.goto t phase) contents :=
  ⟨holds.linked, holds.tail, holds.count, holds.limit, holds.bounded, holds.apart, holds.free⟩

variable {q : QueueId}

section

variable (holds : Holds limits w contents)
include holds

theorem Holds.room (notFull : w.fullP q = false) (limited : limits q ≠ 0) :
    (contents q).length + 1 ≤ (limits q).toNat := by
  have most := holds.bounded q limited
  have fits := (limits q).toNat_lt
  rw [fullP, holds.limit, bne_iff_ne.mpr limited, Bool.true_and, decide_eq_false_iff_not,
    holds.count, ge_iff_le, UInt32.le_iff_toNat_le, UInt32.toNat_ofNat',
    Nat.mod_eq_of_lt (by omega)] at notFull
  omega

theorem Holds.update {d : MsgQueue} {next : MsgId → Option MsgId} {l : List MsgId}
    (linked : Linked next d.head l)
    (others : ∀ q', q' ≠ q → Linked next (w.queue q').head (contents q'))
    (tail : d.tail = l.getLast?) (count : d.count = UInt32.ofNat l.length)
    (limit : d.limit = limits q) (bounded : limits q ≠ 0 → l.length ≤ (limits q).toNat)
    (apart : ∀ m ∈ l, ∀ q', q' ≠ q → m ∉ contents q')
    (free : ∀ m, m ∉ l → (∀ q', q' ≠ q → m ∉ contents q') → next m = none) :
    Holds limits ⟨next, Function.update w.queue q d, w.phase⟩ (Function.update contents q l) := by
  have change : ∀ P : QueueId → MsgQueue → List MsgId → Prop, P q d l →
      (∀ q', q' ≠ q → P q' (w.queue q') (contents q')) → ∀ q',
      P q' (Function.update w.queue q d q') (Function.update contents q l q') := by
    intro P here elsewhere q'
    by_cases same : q' = q
    · rw [same, Function.update_self, Function.update_self]
      exact here
    · rw [Function.update_of_ne same, Function.update_of_ne same]
      exact elsewhere q' same
  refine ⟨?_, ?_, ?_, ?_, ?_, ?_, ?_⟩
  · exact change (fun _ d l => Linked next d.head l) linked others
  · exact change (fun _ d l => d.tail = l.getLast?) tail fun q' _ => holds.tail q'
  · exact change (fun _ d l => d.count = UInt32.ofNat l.length) count fun q' _ => holds.count q'
  · exact change (fun q d _ => d.limit = limits q) limit fun q' _ => holds.limit q'
  · exact change (fun q _ l => limits q ≠ 0 → l.length ≤ (limits q).toNat) bounded
      fun q' _ => holds.bounded q'
  · intro q₁ q₂ m first second
    by_cases one : q₁ = q <;> by_cases two : q₂ = q
    · exact one.trans two.symm
    · rw [one, Function.update_self] at first
      rw [Function.update_of_ne two] at second
      exact absurd second (apart m first q₂ two)
    · rw [two, Function.update_self] at second
      rw [Function.update_of_ne one] at first
      exact absurd first (apart m second q₁ one)
    · rw [Function.update_of_ne one] at first
      rw [Function.update_of_ne two] at second
      exact holds.apart q₁ q₂ m first second
  · intro m outside
    refine free m ?_ fun q' other => ?_
    · have here := outside q
      rwa [Function.update_self] at here
    · have there := outside q'
      rwa [Function.update_of_ne other] at there

theorem Holds.insertTail {msg : MsgId} (outside : ∀ q', msg ∉ contents q')
    (inserted : w.insertTail q msg = some w') :
    Holds limits w' (Function.update contents q (contents q ++ [msg])) := by
  unfold MsgWorld.insertTail at inserted
  split at inserted
  · cases inserted
  rename_i notFull
  have room := fun limited => holds.room ((Bool.not_eq_true _).mp notFull) limited
  have count : (w.queue q).count + 1 = UInt32.ofNat (contents q ++ [msg]).length := by
    rw [holds.count, List.length_append, List.length_singleton, UInt32.ofNat_add]
    rfl
  have bounded : limits q ≠ 0 → (contents q ++ [msg]).length ≤ (limits q).toNat := by
    rw [List.length_append, List.length_singleton]
    exact room
  have apart : ∀ m ∈ contents q ++ [msg], ∀ q', q' ≠ q → m ∉ contents q' := by
    intro m member q' other there
    rcases List.mem_append.mp member with old | new
    · exact other (holds.apart q' q m there old)
    · rw [List.mem_singleton.mp new] at there
      exact outside q' there
  have free : ∀ m, m ∉ contents q ++ [msg] → (∀ q', q' ≠ q → m ∉ contents q') →
      w.next m = none := by
    intro m here elsewhere
    refine holds.free m fun q' => ?_
    by_cases same : q' = q
    · rw [same]
      exact fun old => here (List.mem_append_left [msg] old)
    · exact elsewhere q' same
  have last : some msg = (contents q ++ [msg]).getLast? := List.getLast?_concat.symm
  have tail := holds.tail q
  split at inserted
  · rename_i noTail
    obtain rfl := Option.some.inj inserted
    have empty : contents q = [] := List.getLast?_eq_none_iff.mp (tail.symm.trans noTail)
    refine holds.update ?_ ?_ last count (holds.limit q) bounded apart ?_
    · rw [empty]
      refine ⟨rfl, ?_⟩
      rw [Linked, Function.update_self]
    · exact fun q' _ => (holds.linked q').update (outside q') none
    · intro m here elsewhere
      rw [Function.update_of_ne]
      · exact free m here elsewhere
      · rintro rfl
        exact here (List.mem_append_right _ (List.mem_singleton_self _))
  · rename_i v someTail
    obtain rfl := Option.some.inj inserted
    obtain ⟨front, split⟩ := List.getLast?_eq_some_iff.mp (tail.symm.trans someTail)
    have inside : v ∈ contents q := by
      rw [split]
      exact List.mem_append_right _ (List.mem_singleton_self _)
    refine holds.update ?_ ?_ last count (holds.limit q) bounded apart ?_
    · have chain := holds.linked q
      have new := outside q
      rw [split] at chain new ⊢
      exact chain.concat new
    · intro q' other
      have elsewhere : v ∉ contents q' := fun there => other (holds.apart q' q v there inside)
      exact ((holds.linked q').update elsewhere (some msg)).update (outside q') none
    · intro m here elsewhere
      rw [Function.update_of_ne, Function.update_of_ne]
      · exact free m here elsewhere
      · rintro rfl
        exact here (List.mem_append_left _ inside)
      · rintro rfl
        exact here (List.mem_append_right _ (List.mem_singleton_self _))

theorem Holds.deleteHead {m : MsgId}
    (head : (w.queue q).head = some m) : ∃ rest, contents q = m :: rest ∧
      Holds limits (w.deleteHead q m) (Function.update contents q rest) := by
  have linked := holds.linked q
  have tail := holds.tail q
  have count := holds.count q
  have bounded := holds.bounded q
  have nodup := linked.nodup
  cases list : contents q with
  | nil =>
    rw [list] at linked
    exact absurd (head.symm.trans linked) (by simp)
  | cons v rest =>
    rw [list] at linked tail count bounded nodup
    obtain rfl := Option.some.inj (head.symm.trans linked.1)
    have inside : m ∈ contents q := by
      rw [list]
      exact List.mem_cons_self
    have behind := (List.nodup_cons.mp nodup).1
    refine ⟨rest, rfl, holds.update (linked.2.update behind none) ?_ ?_ ?_ (holds.limit q) ?_ ?_ ?_⟩
    · intro q' other
      exact (holds.linked q').update (fun there => other (holds.apart q' q m there inside)) none
    · rw [linked.2.head_eq, tail]
      cases rest with
      | nil => rfl
      | cons u rest => exact List.getLast?_cons_cons
    · rw [List.length_cons, UInt32.ofNat_add] at count
      change (w.queue q).count - 1 = _
      rw [count]
      exact UInt32.add_sub_cancel _ 1
    · exact fun limited => Nat.le_of_succ_le (bounded limited)
    · intro u member q' other there
      have here : u ∈ contents q := by
        rw [list]
        exact List.mem_cons_of_mem m member
      exact other (holds.apart q' q u there here)
    · intro u here elsewhere
      by_cases same : u = m
      · rw [same, Function.update_self]
      · rw [Function.update_of_ne same]
        refine holds.free u fun q' => ?_
        by_cases own : q' = q
        · rw [own, list]
          exact fun member => (List.mem_cons.mp member).elim same here
        · exact elsewhere q' own

theorem Holds.accepts {t : Nat} {q : QueueId} {msg : MsgId} (outside : ∀ q', msg ∉ contents q')
    (idle : w.phase t = none) :
    msgStep w (.call t (.insertTail q msg)) = some (w.goto t (some (.insertTail q msg))) := by
  simp only [msgStep, idle, holds.free msg outside, Option.isSome_none, Bool.false_eq_true, if_false]

end

/-! ## Runs -/

/-- A message that is inserted is on no queue. -/
def InsertsFree (w : MsgWorld) : MsgAction → Prop
  | .call _ _ => True
  | .enter t =>
      match w.phase t with
      | some (.insertTail _ msg) => ∀ q l, Linked w.next (w.queue q).head l → msg ∉ l
      | _ => True

/-- A message is inserted into a queue without a limit only while it has less than
`2 ^ 32 - 1` messages. -/
def InsertsCounted (w : MsgWorld) : MsgAction → Prop
  | .call _ _ => True
  | .enter t =>
      match w.phase t with
      | some (.insertTail q _) => (w.queue q).limit = 0 → (w.queue q).count.toNat + 1 < 2 ^ 32
      | _ => True

theorem Holds.take (holds : Holds limits w contents) {t : Nat}
    (outcome : ((w.queue q).head = none ∧ ∃ phase, w' = w.goto t phase) ∨
      ∃ m phase, (w.queue q).head = some m ∧ w' = (w.deleteHead q m).goto t phase) :
    ∃ contents', Holds limits w' contents' ∧ ∀ q',
      (if q = q' then (w.queue q').head.toList else []) ++ contents' q' = contents q' ++ [] := by
  rcases outcome with ⟨head, phase, rfl⟩ | ⟨m, phase, head, rfl⟩
  · refine ⟨contents, holds.goto t phase, fun q' => ?_⟩
    split
    · rename_i same
      rw [← same, head, Option.toList_none, List.nil_append, List.append_nil]
    · rw [List.nil_append, List.append_nil]
  · obtain ⟨rest, list, after⟩ := holds.deleteHead head
    refine ⟨_, after.goto t phase, fun q' => ?_⟩
    rw [List.append_nil]
    by_cases same : q = q'
    · rw [← same, if_pos rfl, head, Function.update_self, list]
      rfl
    · rw [if_neg same, Function.update_of_ne (Ne.symm same)]
      rfl

theorem Holds.step (holds : Holds limits w contents) {a : MsgAction} (free : InsertsFree w a)
    (stepped : msgStep w a = some w') : ∃ contents', Holds limits w' contents' ∧
      ∀ q, removedAt q w a ++ contents' q = contents q ++ insertedAt q w a := by
  have same : ∀ q, contents q = contents q ++ [] := fun q => (List.append_nil _).symm
  cases a with
  | call t c =>
    simp only [msgStep] at stepped
    split at stepped
    · cases stepped
    · split at stepped
      · cases stepped
        exact ⟨contents, holds, same⟩
      · cases stepped
        exact ⟨contents, holds.goto t _, same⟩
    · cases stepped
      exact ⟨contents, holds.goto t _, same⟩
  | enter t =>
    simp only [msgStep] at stepped
    simp only [InsertsFree] at free
    simp only [removedAt, insertedAt]
    cases phase : w.phase t with
    | none =>
      rw [phase] at stepped
      cases stepped
    | some c =>
      rw [phase] at stepped free
      cases c with
      | insertTail q msg =>
        obtain ⟨u, inserted, rfl⟩ := Option.map_eq_some_iff.mp stepped
        refine ⟨_, (holds.insertTail (fun q' => free q' _ (holds.linked q')) inserted).goto t none,
          fun q' => ?_⟩
        simp only [List.nil_append]
        by_cases here : q = q'
        · rw [← here, if_pos rfl, Function.update_self]
        · rw [if_neg here, Function.update_of_ne (Ne.symm here), List.append_nil]
      | deleteHead q =>
        dsimp only at stepped ⊢
        apply holds.take
        cases head : (w.queue q).head with
        | none =>
          rw [head] at stepped
          cases stepped
        | some m =>
          rw [head] at stepped
          exact Or.inr ⟨m, none, rfl, (Option.some.inj stepped).symm⟩
      | deleteHeadNowait q =>
        dsimp only at stepped ⊢
        apply holds.take
        cases head : (w.queue q).head with
        | none =>
          rw [head] at stepped
          exact Or.inl ⟨rfl, none, (Option.some.inj stepped).symm⟩
        | some m =>
          rw [head] at stepped
          exact Or.inr ⟨m, none, rfl, (Option.some.inj stepped).symm⟩
      | flush q =>
        dsimp only at stepped ⊢
        apply holds.take
        cases head : (w.queue q).head with
        | none =>
          rw [head] at stepped
          exact Or.inl ⟨rfl, none, (Option.some.inj stepped).symm⟩
        | some m =>
          rw [head] at stepped
          have stays : (w.deleteHead q m).goto t (w.phase t) = w.deleteHead q m := by
            unfold MsgWorld.goto
            congr 1
            exact Function.update_eq_self t _
          exact Or.inr ⟨m, w.phase t, rfl, (Option.some.inj stepped).symm.trans stays.symm⟩

theorem Holds.few (before : Holds limits w contents) {contents' : QueueId → List MsgId}
    (after : Holds limits w' contents') {e : MsgAction} (counted : InsertsCounted w e)
    (moved : removedAt q w e ++ contents' q = contents q ++ insertedAt q w e)
    (few : (contents q).length < 2 ^ 32) : (contents' q).length < 2 ^ 32 := by
  by_cases unlimited : limits q = 0
  · have lengths := congrArg List.length moved
    simp only [List.length_append] at lengths
    cases e with
    | call t c =>
      rw [insertedAt, List.length_nil] at lengths
      omega
    | enter t =>
      simp only [InsertsCounted] at counted
      simp only [insertedAt] at lengths
      split at lengths
      · rename_i q' msg phase
        rw [phase] at counted
        split at lengths
        · rename_i same
          have room := counted (by rw [same, before.limit, unlimited])
          rw [same, before.count, UInt32.toNat_ofNat', Nat.mod_eq_of_lt few] at room
          rw [List.length_singleton] at lengths
          omega
        · rw [List.length_nil] at lengths
          omega
      · rw [List.length_nil] at lengths
        omega
  · exact Nat.lt_of_le_of_lt (after.bounded q unlimited) (limits q).toNat_lt

theorem Holds.run (limits : QueueId → UInt32) {actions : List MsgAction}
    (free : Throughout InsertsFree msgStep (start limits) actions)
    (counted : Throughout InsertsCounted msgStep (start limits) actions)
    (reached : run msgStep (start limits) actions = some w) : ∃ contents, Holds limits w contents ∧
      (∀ q, (contents q).length < 2 ^ 32) ∧
      ∀ q, observed (removedAt q) msgStep (start limits) actions ++ contents q =
        observed (insertedAt q) msgStep (start limits) actions := by
  refine run_history (fun es w => ∃ contents, Holds limits w contents ∧
    (∀ q, (contents q).length < 2 ^ 32) ∧
    ∀ q, observed (removedAt q) msgStep (start limits) es ++ contents q =
      observed (insertedAt q) msgStep (start limits) es) ?_ ?_ (free.and counted) reached
  · exact ⟨_, holds_start, fun _ => Nat.two_pow_pos 32, fun _ => rfl⟩
  · rintro es t a u before ⟨contents, holds, few, order⟩ met stepped
    obtain ⟨contents', after, moved⟩ := holds.step met.1 stepped
    refine ⟨contents', after, fun q => holds.few after met.2 (moved q) (few q), fun q => ?_⟩
    rw [observed_append before, observed_append before, observed_singleton, observed_singleton,
      List.append_assoc, moved, ← order q, List.append_assoc]

end MsgWorld

open MsgWorld in
/-- **A message queue is a bounded FIFO.** In every run in which a message that is inserted is on no
queue, the messages that left a queue are the first that entered it, the others are on it in order,
`count()` says how many, and a limit is kept. -/
theorem msg_queue_fifo (limits : QueueId → UInt32) {actions : List MsgAction} {w : MsgWorld}
    (free : Throughout InsertsFree msgStep (start limits) actions)
    (counted : Throughout InsertsCounted msgStep (start limits) actions)
    (reached : run msgStep (start limits) actions = some w) (q : QueueId) :
    ∃ l, Linked w.next (w.queue q).head l ∧
      observed (removedAt q) msgStep (start limits) actions ++ l =
        observed (insertedAt q) msgStep (start limits) actions ∧
      (w.queue q).count.toNat = l.length ∧
      ((w.queue q).head = none ↔ l = []) ∧ ((w.queue q).tail = none ↔ l = []) ∧
      (w.queue q).limit = limits q ∧ (limits q ≠ 0 → (w.queue q).count ≤ limits q) := by
  obtain ⟨contents, holds, few, order⟩ := Holds.run limits free counted reached
  have count : (w.queue q).count.toNat = (contents q).length := by
    rw [holds.count, UInt32.toNat_ofNat', Nat.mod_eq_of_lt (few q)]
  refine ⟨contents q, holds.linked q, order q, count, (holds.linked q).head_eq_none_iff, ?_,
    holds.limit q, fun limited => ?_⟩
  · rw [holds.tail, List.getLast?_eq_none_iff]
  · rw [UInt32.le_iff_toNat_le, count]
    exact holds.bounded q limited

namespace MsgWorld

instance (w : MsgWorld) : DecidablePred (InsertsCounted w)
  | .call _ _ => isTrue trivial
  | .enter t =>
      match phase : w.phase t with
      | some (.insertTail q _) =>
          decidable_of_iff ((w.queue q).limit = 0 → (w.queue q).count.toNat + 1 < 2 ^ 32)
            (by simp only [InsertsCounted, phase])
      | some (.deleteHead _) => isTrue (by simp only [InsertsCounted, phase])
      | some (.deleteHeadNowait _) => isTrue (by simp only [InsertsCounted, phase])
      | some (.flush _) => isTrue (by simp only [InsertsCounted, phase])
      | none => isTrue (by simp only [InsertsCounted, phase])

theorem insertsFree_of_empty {w : MsgWorld} (empty : ∀ q, (w.queue q).head = none)
    (e : MsgAction) : InsertsFree w e := by
  cases e with
  | call t c => trivial
  | enter t =>
    simp only [InsertsFree]
    split
    · intro q l linked
      rw [linked.head_eq_none_iff.mp (empty q)]
      exact List.not_mem_nil
    · trivial

/-- A second message waits until the first one has been taken. -/
def handover : List MsgAction :=
  [.call 0 (.insertTail 0 7), .enter 0, .call 0 (.insertTail 0 8), .call 1 (.deleteHead 0),
    .enter 1, .enter 0]

theorem handover_free : Throughout InsertsFree msgStep (start fun _ => 1) handover := by
  refine ⟨trivial, fun w first => ⟨?_, fun w second => ⟨trivial, fun w third => ⟨trivial,
    fun w fourth => ⟨?_, fun w fifth => ⟨?_, fun w last => trivial⟩⟩⟩⟩⟩⟩
  · cases first
    exact insertsFree_of_empty (fun _ => rfl) _
  · cases first
    cases second
    cases third
    cases fourth
    trivial
  · cases first
    cases second
    cases third
    cases fourth
    cases fifth
    refine insertsFree_of_empty (fun q => ?_) _
    simp [MsgWorld.goto, MsgWorld.deleteHead, start]

end MsgWorld

open MsgWorld in
theorem msg_queue_fifo_handover :
    ∃ w, run msgStep (start fun _ => 1) handover = some w ∧ ∃ l, l.length = 1 ∧
      observed (removedAt 0) msgStep (start fun _ => 1) handover ++ l =
        observed (insertedAt 0) msgStep (start fun _ => 1) handover := by
  refine ⟨_, rfl, ?_⟩
  obtain ⟨l, -, order, count, -⟩ :=
    msg_queue_fifo (fun _ => 1) handover_free (by decide) rfl 0
  exact ⟨l, count.symm, order⟩

namespace MsgWorld

/-- Messages `0` to `n - 1`, inserted into the first queue by one thread. -/
def insertions : Nat → List MsgAction
  | 0 => []
  | n + 1 => insertions n ++ [.call 0 (.insertTail 0 n), .enter 0]

theorem insertions_run (n : Nat) : ∃ w, run msgStep (start fun _ => 0) (insertions n) = some w ∧
    Throughout InsertsFree msgStep (start fun _ => 0) (insertions n) ∧ w.phase 0 = none ∧
    Holds (fun _ => 0) w (Function.update (fun _ => []) 0 (List.range n)) := by
  induction n with
  | zero =>
    refine ⟨_, rfl, trivial, rfl, ?_⟩
    rw [List.range_zero, Function.update_eq_self_iff.mpr rfl]
    exact holds_start
  | succ n ih =>
    obtain ⟨w, before, free, idle, holds⟩ := ih
    have outside : ∀ q : QueueId, n ∉ Function.update (fun _ => []) 0 (List.range n) q := by
      intro q
      by_cases first : q = 0
      · rw [first, Function.update_self]
        exact fun member => Nat.lt_irrefl n (List.mem_range.mp member)
      · rw [Function.update_of_ne first]
        exact List.not_mem_nil
    have called := @Holds.accepts _ _ _ holds 0 0 n outside idle
    have waiting := holds.goto 0 (some (.insertTail 0 n))
    have phase : (w.goto 0 (some (.insertTail 0 n))).phase 0 = some (.insertTail 0 n) :=
      goto_phase w 0 _
    generalize w.goto 0 (some (.insertTail 0 n)) = v at called waiting phase
    have open' : v.fullP 0 = false := by
      rw [fullP, waiting.limit]
      rfl
    obtain ⟨u, inserted⟩ : ∃ u, v.insertTail 0 n = some u := by
      unfold MsgWorld.insertTail
      rw [open', if_neg Bool.false_ne_true]
      split
      · exact ⟨_, rfl⟩
      · exact ⟨_, rfl⟩
    have entered : msgStep v (.enter 0) = some (u.goto 0 none) := by
      simp only [msgStep, phase, inserted, Option.map_some]
    refine ⟨u.goto 0 none, ?_, ?_, ?_, ?_⟩
    · exact run_append.mpr ⟨w, before, run_cons.mpr ⟨v, called, run_cons.mpr ⟨_, entered, rfl⟩⟩⟩
    · refine free.extend before ⟨trivial, fun x next => ⟨?_, fun _ _ => trivial⟩⟩
      obtain rfl := Option.some.inj (called.symm.trans next)
      simp only [InsertsFree, phase]
      intro q l linked
      rw [linked.unique (waiting.linked q)]
      exact outside q
    · exact goto_phase u 0 none
    · have after := (waiting.insertTail outside inserted).goto 0 none
      rwa [Function.update_self, Function.update_idem, ← List.range_succ] at after

theorem insertions_count {n : Nat} {c : UInt32} (wrapped : UInt32.ofNat n = c) :
    ∃ w, run msgStep (start fun _ => 0) (insertions n) = some w ∧
      Throughout InsertsFree msgStep (start fun _ => 0) (insertions n) ∧
      ∃ l, Linked w.next (w.queue 0).head l ∧ l.length = n ∧ (w.queue 0).count = c := by
  obtain ⟨w, reached, free, -, holds⟩ := insertions_run n
  refine ⟨w, reached, free, _, holds.linked 0, ?_, ?_⟩
  · rw [Function.update_self, List.length_range]
  · rw [holds.count, Function.update_self, List.length_range, wrapped]

end MsgWorld

open MsgWorld in
/-- `d_count` is an `unsigned int`: after `2 ^ 32` insertions into a queue without a limit it is
0, with all the messages there. -/
theorem msg_queue_count_wraps :
    ∃ w, run msgStep (start fun _ => 0) (insertions (2 ^ 32)) = some w ∧
      Throughout InsertsFree msgStep (start fun _ => 0) (insertions (2 ^ 32)) ∧
      ∃ l, Linked w.next (w.queue 0).head l ∧ l.length = 2 ^ 32 ∧ (w.queue 0).count = 0 :=
  insertions_count rfl

end GnuRadio

/-!
## Inserting a message that is on a queue

`insert_tail` takes a message for queued when its `d_next` is not null. The last
message of a queue has none behind it, and a message that another thread is about
to insert has none yet. Any other message on a queue is refused.
-/

namespace GnuRadio

namespace MsgWorld

variable {limits : QueueId → UInt32} {w w' : MsgWorld} {contents : QueueId → List MsgId}

theorem goto_phase_of_ne {t t' : Nat} {phase : Option MsgCall} (other : t' ≠ t) :
    (w.goto t phase).phase t' = w.phase t' := by
  unfold goto
  exact Function.update_of_ne other phase w.phase

/-- `insert_tail` is not called on the last message of a queue, nor on a message that another
thread is inserting. -/
def InsertsDetectable (w : MsgWorld) : MsgAction → Prop
  | .call _ (.insertTail _ msg) =>
      (∀ q, (w.queue q).tail ≠ some msg) ∧ ∀ t q, w.phase t ≠ some (.insertTail q msg)
  | _ => True

/-- The messages between the test of `insert_tail` and its critical section are on no queue, and
each is inserted by one thread. -/
structure Pending (w : MsgWorld) (contents : QueueId → List MsgId) : Prop where
  outside : ∀ t q msg, w.phase t = some (.insertTail q msg) → ∀ q', msg ∉ contents q'
  once : ∀ t t' q q' msg, w.phase t = some (.insertTail q msg) →
    w.phase t' = some (.insertTail q' msg) → t = t'

theorem Holds.refuses_iff (holds : Holds limits w contents) {t : Nat} {q q' : QueueId} {msg : MsgId}
    (idle : w.phase t = none) (queued : msg ∈ contents q') :
    msgStep w (.call t (.insertTail q msg)) = some w ↔ (contents q').getLast? ≠ some msg := by
  rw [ne_eq, ← (holds.linked q').next_eq_none_iff queued]
  simp only [msgStep, idle]
  split
  · rename_i linked
    simp [Option.ne_none_iff_isSome.mpr linked]
  · rename_i last
    rw [Option.not_isSome_iff_eq_none] at last
    simp only [last, not_true_eq_false, iff_false]
    intro same
    have phase := congrArg (fun w => w.phase t) (Option.some.inj same)
    rw [goto_phase, idle] at phase
    cases phase

theorem Pending.free (pending : Pending w contents) (holds : Holds limits w contents)
    (a : MsgAction) : InsertsFree w a := by
  cases a with
  | call t c => trivial
  | enter t =>
    simp only [InsertsFree]
    split
    · rename_i q msg phase
      intro q' l linked
      rw [linked.unique (holds.linked q')]
      exact pending.outside t q msg phase q'
    · trivial

theorem Pending.leave (pending : Pending w contents) {contents' : QueueId → List MsgId}
    (phases : ∀ t c, w'.phase t = some c → w.phase t = some c)
    (others : ∀ t q msg q', w'.phase t = some (.insertTail q msg) → msg ∈ contents' q' →
      msg ∈ contents q') : Pending w' contents' := by
  constructor
  · intro t q msg phase q' member
    exact pending.outside t q msg (phases t _ phase) q' (others t q msg q' phase member)
  · intro t t' q q' msg phase phase'
    exact pending.once t t' q q' msg (phases t _ phase) (phases t' _ phase')

theorem Pending.call (pending : Pending w contents) {t : Nat} {c : MsgCall}
    (outside : ∀ q msg, c = .insertTail q msg → ∀ q', msg ∉ contents q')
    (alone : ∀ q msg, c = .insertTail q msg → ∀ t' q', w.phase t' ≠ some (.insertTail q' msg)) :
    Pending (w.goto t (some c)) contents := by
  have cases : ∀ t' c', (w.goto t (some c)).phase t' = some c' →
      t' = t ∧ c' = c ∨ w.phase t' = some c' := by
    intro t' c' phase
    by_cases same : t' = t
    · rw [same, goto_phase] at phase
      exact .inl ⟨same, (Option.some.inj phase).symm⟩
    · rw [goto_phase_of_ne same] at phase
      exact .inr phase
  constructor
  · intro t' q msg phase q'
    rcases cases t' _ phase with ⟨-, own⟩ | before
    · exact outside q msg own.symm q'
    · exact pending.outside t' q msg before q'
  · intro t₁ t₂ q₁ q₂ msg phase₁ phase₂
    rcases cases t₁ _ phase₁ with ⟨same₁, own₁⟩ | before₁
    · rcases cases t₂ _ phase₂ with ⟨same₂, -⟩ | before₂
      · exact same₁.trans same₂.symm
      · exact absurd before₂ (alone q₁ msg own₁.symm t₂ q₂)
    · rcases cases t₂ _ phase₂ with ⟨-, own₂⟩ | before₂
      · exact absurd before₁ (alone q₂ msg own₂.symm t₁ q₁)
      · exact pending.once t₁ t₂ q₁ q₂ msg before₁ before₂

theorem enter_phases {t : Nat} (stepped : msgStep w (.enter t) = some w') :
    (∀ t' c, w'.phase t' = some c → w.phase t' = some c) ∧
      ∀ q msg, w.phase t = some (.insertTail q msg) → w'.phase t = none := by
  have left : ∀ v : MsgWorld, v.phase = w.phase →
      ∀ t' c, (v.goto t none).phase t' = some c → w.phase t' = some c := by
    intro v same t' c phase
    by_cases own : t' = t
    · rw [own, goto_phase] at phase
      cases phase
    · rwa [goto_phase_of_ne own, same] at phase
  simp only [msgStep] at stepped
  cases phase : w.phase t with
  | none =>
    rw [phase] at stepped
    cases stepped
  | some c =>
    rw [phase] at stepped
    cases c with
    | insertTail q msg =>
      obtain ⟨u, inserted, rfl⟩ := Option.map_eq_some_iff.mp stepped
      have same : u.phase = w.phase := by
        unfold MsgWorld.insertTail at inserted
        split at inserted
        · cases inserted
        · split at inserted
          · exact (Option.some.inj inserted) ▸ rfl
          · exact (Option.some.inj inserted) ▸ rfl
      exact ⟨left u same, fun _ _ _ => goto_phase u t none⟩
    | deleteHead q =>
      dsimp only at stepped
      split at stepped
      · cases stepped
      · cases stepped
        exact ⟨left _ rfl, by simp⟩
    | deleteHeadNowait q =>
      dsimp only at stepped
      split at stepped
      · cases stepped
        exact ⟨left _ rfl, by simp⟩
      · cases stepped
        exact ⟨left _ rfl, by simp⟩
    | flush q =>
      dsimp only at stepped
      split at stepped
      · cases stepped
        exact ⟨left _ rfl, by simp⟩
      · cases stepped
        exact ⟨fun _ _ same => same, by simp⟩

theorem Pending.step (pending : Pending w contents) (holds : Holds limits w contents)
    {contents' : QueueId → List MsgId} {a : MsgAction} (detectable : InsertsDetectable w a)
    (stepped : msgStep w a = some w')
    (moved : ∀ q, removedAt q w a ++ contents' q = contents q ++ insertedAt q w a) :
    Pending w' contents' := by
  cases a with
  | enter t =>
    obtain ⟨phases, left⟩ := enter_phases stepped
    refine pending.leave phases ?_
    intro t' q msg q' phase member
    have inside : msg ∈ contents q' ++ insertedAt q' w (.enter t) :=
      moved q' ▸ List.mem_append_right _ member
    rcases List.mem_append.mp inside with old | new
    · exact old
    · simp only [insertedAt] at new
      split at new
      · rename_i q₀ msg₀ own
        split at new
        · obtain rfl := List.mem_singleton.mp new
          have same := pending.once t' t q q₀ msg (phases t' _ phase) own
          rw [same, left q₀ msg own] at phase
          cases phase
        · cases new
      · cases new
  | call t c =>
    have same : ∀ q', contents' q' = contents q' := by
      intro q'
      have kept := moved q'
      rwa [removedAt, insertedAt, List.nil_append, List.append_nil] at kept
    obtain rfl := funext same
    simp only [msgStep] at stepped
    split at stepped
    · cases stepped
    · rename_i q msg idle
      split at stepped
      · cases stepped
        exact pending
      · rename_i last
        cases stepped
        rw [Option.not_isSome_iff_eq_none] at last
        refine pending.call ?_ ?_
        · rintro q₁ msg₁ ⟨⟩ q' queued
          have tail := ((holds.linked q').next_eq_none_iff queued).mp last
          exact detectable.1 q' ((holds.tail q').trans tail)
        · rintro q₁ msg₁ ⟨⟩
          exact detectable.2
    · rename_i other
      cases stepped
      refine pending.call ?_ ?_
      · intro q msg insert
        exact absurd insert (other q msg)
      · intro q msg insert
        exact absurd insert (other q msg)

end MsgWorld

open MsgWorld in
/-- **A queued message is refused.** In every run in which `insert_tail` is not called on the last
message of a queue nor on one that another thread is inserting, the queues are disjoint finite
lists, `count()` is their length, and a queued message is refused exactly when it is not the last
one. -/
theorem insert_tail_refuses_queued (limits : QueueId → UInt32) {actions : List MsgAction}
    {w : MsgWorld} (detectable : Throughout InsertsDetectable msgStep (start limits) actions)
    (counted : Throughout InsertsCounted msgStep (start limits) actions)
    (reached : run msgStep (start limits) actions = some w) :
    ∃ contents : QueueId → List MsgId,
      (∀ q, Linked w.next (w.queue q).head (contents q) ∧
        (w.queue q).tail = (contents q).getLast? ∧
        (w.queue q).count.toNat = (contents q).length) ∧
      (∀ q q' m, m ∈ contents q → m ∈ contents q' → q = q') ∧
      ∀ t q q' msg, w.phase t = none → msg ∈ contents q' →
        (msgStep w (.call t (.insertTail q msg)) = some w ↔
          (contents q').getLast? ≠ some msg) := by
  obtain ⟨contents, holds, -, few⟩ := run_invariant_of
    (fun w => ∃ contents, Holds limits w contents ∧ Pending w contents ∧
      ∀ q, (contents q).length < 2 ^ 32)
    (by
      rintro w a w' ⟨contents, holds, pending, few⟩ ⟨detect, count⟩ stepped
      obtain ⟨contents', after, moved⟩ := holds.step (pending.free holds a) stepped
      exact ⟨contents', after, pending.step holds detect stepped moved,
        fun q => holds.few after count (moved q) (few q)⟩)
    ⟨_, holds_start, ⟨by rintro t q msg ⟨⟩, by rintro t t' q q' msg ⟨⟩⟩, fun _ => Nat.two_pow_pos 32⟩
    (detectable.and counted) reached
  refine ⟨contents, fun q => ⟨holds.linked q, holds.tail q, ?_⟩, holds.apart, ?_⟩
  · rw [holds.count, UInt32.toNat_ofNat', Nat.mod_eq_of_lt (few q)]
  · exact fun t q q' msg idle queued => holds.refuses_iff idle queued

open MsgWorld in
/-- The only message of a queue is inserted again: nothing is thrown, and `count()` is 2 for a list
of one. -/
theorem insert_tail_relinks_last :
    ∃ w w', run msgStep (start fun _ => 0) [.call 0 (.insertTail 0 7), .enter 0] = some w ∧
      Linked w.next (w.queue 0).head [7] ∧ msgStep w (.call 0 (.insertTail 0 7)) ≠ some w ∧
      run msgStep w [.call 0 (.insertTail 0 7), .enter 0] = some w' ∧
      Linked w'.next (w'.queue 0).head [7] ∧ (w'.queue 0).count = 2 := by
  refine ⟨_, _, rfl, ⟨rfl, rfl⟩, ?_, rfl, ⟨rfl, rfl⟩, rfl⟩
  intro same
  have phase := congrArg (fun w => w.phase 0) (Option.some.inj same)
  cases phase

namespace MsgWorld

/-- Two messages are inserted into one queue. -/
def twoInsertions : List MsgAction :=
  [.call 0 (.insertTail 0 7), .enter 0, .call 0 (.insertTail 0 8), .enter 0]

theorem twoInsertions_detectable :
    Throughout InsertsDetectable msgStep (start fun _ => 0) twoInsertions := by
  refine ⟨⟨by simp [start], by simp [start]⟩, fun w first => ⟨trivial, fun w second => ⟨⟨?_, ?_⟩,
    fun w third => ⟨trivial, fun w last => trivial⟩⟩⟩⟩
  · cases first
    cases second
    intro q
    by_cases here : q = 0
    · simp [here, MsgWorld.goto]
    · simp [here, MsgWorld.goto, start]
  · cases first
    cases second
    intro t q
    by_cases own : t = 0
    · simp [own]
    · rw [goto_phase_of_ne own]
      simp [own, MsgWorld.goto, start]

end MsgWorld

open MsgWorld in
/-- The first of two messages is refused. -/
theorem insert_tail_refuses_first :
    ∃ w, run msgStep (start fun _ => 0) twoInsertions = some w ∧
      Linked w.next (w.queue 0).head [7, 8] ∧
      msgStep w (.call 1 (.insertTail 0 7)) = some w := by
  obtain ⟨w, reached, linked, idle⟩ : ∃ w, run msgStep (start fun _ => 0) twoInsertions = some w ∧
      Linked w.next (w.queue 0).head [7, 8] ∧ w.phase 1 = none :=
    ⟨_, rfl, ⟨rfl, rfl, rfl⟩, rfl⟩
  obtain ⟨contents, lists, -, refused⟩ :=
    insert_tail_refuses_queued (fun _ => 0) twoInsertions_detectable (by decide) reached
  have two := (lists 0).1.unique linked
  refine ⟨w, reached, linked, (refused 1 0 0 7 idle ?_).mpr ?_⟩
  · simp [two]
  · simp [two]

end GnuRadio
