import GnuRadio.Misc.Trace

/-!
# The life cycle of a top block

`gr_top_block_impl` starts a scheduler for the flattened graph, stops it and waits for it.
`unlock` replaces it by one for the changed graph (`gr_top_block_impl.cc`). One thread calls
`start`, `stop` and `wait`, which takes no mutex, and another one `lock` and `unlock`. An access
to the state or to the scheduler pointer is one step, and so is what is done with `d_mutex` to
the lock count, which no other place accesses.
-/

namespace GnuRadio.LifeCycle

/-- `tb_state`. -/
inductive TbState where
  | idle
  | running
  deriving DecidableEq

/-- A scheduler: its threads run, are asked to stop, or are over. -/
inductive Scheduler where
  | running
  | stopping
  | finished
  deriving DecidableEq

/-- The two threads. -/
inductive Who where
  | user
  | reconf
  deriving DecidableEq

/-- The calls that take `d_mutex`. -/
inductive Locking where
  | start
  | lock
  | unlock
  deriving DecidableEq

/-- Where a thread is. `restarting` says that `stop` or `wait` was called by `restart`. -/
inductive Place where
  /-- Its last call has returned. -/
  | returned
  /-- Its last call has raised. -/
  | raised
  /-- It waits for `d_mutex`. -/
  | entering (call : Locking)
  | startState
  | startCount
  /-- It makes a flat flowgraph, in `start` or in `restart`. -/
  | flatten
  | make
  /-- It has made a scheduler. -/
  | assign (k : Nat)
  | setRunning
  | stopTest (restarting : Bool)
  | stopCall (restarting : Bool)
  | waitTest (restarting : Bool)
  | waitRead (restarting : Bool)
  /-- It waits for a scheduler. -/
  | waitOn (restarting : Bool) (k : Nat)
  /-- It has waited for a scheduler, if there was one. -/
  | setIdle (restarting : Bool) (k : Option Nat)
  | lockCount
  | unlockCount
  | unlockState
  deriving DecidableEq

/-- No call is in progress. -/
def Place.ended : Place → Bool
  | returned | raised => true
  | _ => false

/-- `restart` is in progress. -/
def Place.restarting : Place → Bool
  | stopTest r | stopCall r | waitTest r | waitRead r | waitOn r _ | setIdle r _ => r
  | _ => false

/-- A `gr_top_block_impl` with the schedulers it has made, and its threads. The bounds of the
`int` lock count are left out. -/
structure TopBlock where
  d_state : TbState
  d_lock_count : Int
  d_scheduler : Option Nat
  d_mutex : Option Who
  schedulers : List Scheduler
  place : Who → Place

namespace TopBlock

/-- `gr_top_block_impl::gr_top_block_impl` (`gr_top_block_impl.cc:79-83`). -/
def initial : TopBlock where
  d_state := .idle
  d_lock_count := 0
  d_scheduler := none
  d_mutex := none
  schedulers := []
  place _ := .returned

/-- A thread goes on. -/
def goTo (s : TopBlock) (p : Place) (w : Who) : TopBlock :=
  { s with place := Function.update s.place w p }

/-- A call lets go of `d_mutex` and ends. -/
def leave (s : TopBlock) (p : Place) (w : Who) : TopBlock := { s with d_mutex := none }.goTo p w

/-- `gr_scheduler::stop`: the threads of a scheduler are interrupted. -/
def interrupt (s : TopBlock) (k : Nat) : TopBlock :=
  { s with
    schedulers := s.schedulers.modify k fun x => if x = .running then Scheduler.stopping else x }

/-- `d_scheduler = …`: the scheduler that is replaced is destroyed, which interrupts it. -/
def setScheduler (s : TopBlock) (k : Nat) : TopBlock :=
  match s.d_scheduler with
  | none => { s with d_scheduler := some k }
  | some old => { s.interrupt old with d_scheduler := some k }

/-- The threads of a scheduler are not over. -/
def Running (s : TopBlock) (k : Nat) : Prop :=
  ∃ x, s.schedulers[k]? = some x ∧ x ≠ .finished

instance (s : TopBlock) (k : Nat) : Decidable (s.Running k) :=
  match got : s.schedulers[k]? with
  | none => isFalse fun ⟨x, same, _⟩ => by rw [got] at same; cases same
  | some x => decidable_of_iff (x ≠ .finished)
      ⟨fun live => ⟨x, got, live⟩, fun ⟨y, same, live⟩ =>
        Option.some.inj (same.symm.trans got) ▸ live⟩

/-- What follows `d_mutex`. -/
def entered : Locking → Place
  | .start => .startState
  | .lock => .lockCount
  | .unlock => .unlockCount

/-- The next step of a thread that is in a call. In `flatten`, `ok` says that the flattened graph
is valid. -/
def advance (s : TopBlock) (w : Who) (ok : Bool) : Option TopBlock :=
  match s.place w with
  | .returned | .raised => none
  | .entering call =>
      if s.d_mutex = none then some ({ s with d_mutex := some w }.goTo (entered call) w) else none
  -- `start` (`gr_top_block_impl.cc:90-110`)
  | .startState => some (if s.d_state = .idle then s.goTo .startCount w else s.leave .raised w)
  | .startCount => some (if 0 < s.d_lock_count then s.leave .raised w else s.goTo .flatten w)
  -- `start`, and `restart` (`gr_top_block_impl.cc:160-170`) after its `wait`
  | .flatten => some (if ok then s.goTo .make w else s.leave .raised w)
  | .make =>
      some ({ s with schedulers := s.schedulers ++ [Scheduler.running] }.goTo
        (.assign s.schedulers.length) w)
  | .assign k => some ((s.setScheduler k).goTo .setRunning w)
  | .setRunning => some ({ s with d_state := .running }.leave .returned w)
  -- `stop` (`gr_top_block_impl.cc:112-117`)
  | .stopTest restarting =>
      if s.d_scheduler.isSome then some (s.goTo (.stopCall restarting) w)
      else some (s.goTo (if restarting then .waitTest true else .returned) w)
  | .stopCall restarting =>
      s.d_scheduler.map fun k =>
        (s.interrupt k).goTo (if restarting then .waitTest true else .returned) w
  -- `wait` (`gr_top_block_impl.cc:120-127`)
  | .waitTest restarting =>
      if s.d_scheduler.isSome then some (s.goTo (.waitRead restarting) w)
      else some (s.goTo (.setIdle restarting none) w)
  | .waitRead restarting => s.d_scheduler.map fun k => s.goTo (.waitOn restarting k) w
  | .waitOn restarting k =>
      if s.Running k then none else some (s.goTo (.setIdle restarting (some k)) w)
  | .setIdle restarting _ =>
      some ({ s with d_state := .idle }.goTo (if restarting then .flatten else .returned) w)
  -- `lock` (`gr_top_block_impl.cc:131-136`)
  | .lockCount => some ({ s with d_lock_count := s.d_lock_count + 1 }.leave .returned w)
  -- `unlock` (`gr_top_block_impl.cc:138-153`)
  | .unlockCount =>
      if s.d_lock_count ≤ 0 then some ({ s with d_lock_count := 0 }.leave .raised w)
      else if 0 < s.d_lock_count - 1 then
        some ({ s with d_lock_count := s.d_lock_count - 1 }.leave .returned w)
      else some ({ s with d_lock_count := s.d_lock_count - 1 }.goTo .unlockState w)
  | .unlockState =>
      some (if s.d_state = .idle then s.leave .returned w else s.goTo (.stopTest true) w)

/-- A thread that is in no call makes one. -/
def call (s : TopBlock) (w : Who) (p : Place) : Option TopBlock :=
  if (s.place w).ended then some (s.goTo p w) else none

/-- The threads of a scheduler come to their end, because it was stopped or its graph finished. -/
def exit (s : TopBlock) (k : Nat) : Option TopBlock :=
  if s.Running k then some { s with schedulers := s.schedulers.set k .finished } else none

end TopBlock

/-- What happens next. -/
inductive Act where
  | start
  | stop
  | wait
  | lock
  | unlock
  | advance (w : Who) (ok : Bool)
  | exit (k : Nat)
  deriving DecidableEq

open TopBlock

/-- One step of the user, a thread or the scheduler. -/
def step (s : TopBlock) : Act → Option TopBlock
  | .start => s.call .user (.entering .start)
  | .stop => s.call .user (.stopTest false)
  | .wait => s.call .user (.waitTest false)
  | .lock => s.call .reconf (.entering .lock)
  | .unlock => s.call .reconf (.entering .unlock)
  | .advance w ok => s.advance w ok
  | .exit k => s.exit k

/-- The scheduler that `d_scheduler` points to is over, if there is one. -/
def Settled (s : TopBlock) : Prop := ∀ k, s.d_scheduler = some k → ¬ s.Running k

instance (s : TopBlock) : Decidable (Settled s) :=
  match current : s.d_scheduler with
  | none => isTrue fun k same => by rw [current] at same; cases same
  | some k => decidable_of_iff (¬ s.Running k)
      ⟨fun ended j same => Option.some.inj (current.symm.trans same) ▸ ended,
        fun settled => settled k current⟩

/-- When the idle state is set in a call of `wait`, the scheduler that was waited for is still the
current one, or the one that has replaced it is over as well. -/
def Calm (s : TopBlock) : Act → Prop
  | .advance .user _ =>
      match s.place .user with
      | .setIdle _ k => s.d_scheduler = k ∨ Settled s
      | _ => True
  | _ => True

instance (s : TopBlock) : DecidablePred (Calm s) := fun a => by
  unfold Calm
  split <;> try infer_instance
  split <;> infer_instance

/-- In a state that says it is idle, with no call in progress, no scheduler runs. -/
def IdleIsQuiet (s : TopBlock) : Prop :=
  s.d_state = .idle → (s.place .user).ended → (s.place .reconf).ended → ∀ k, ¬ s.Running k

/-- What a step has to do. -/
structure StepRight (s : TopBlock) (a : Act) (t : TopBlock) : Prop where
  /-- `wait` returns when the current scheduler is over. -/
  wait : ∀ ok k, a = .advance .user ok → s.place .user = .setIdle false k → Settled t
  /-- `start` makes a scheduler when none runs. -/
  start : ∀ ok, a = .advance .user ok → s.place .user = .make → ∀ k, ¬ s.Running k
  /-- The outermost `unlock` looks at the state, -/
  outermost : ∀ ok, a = .advance .reconf ok → s.place .reconf = .unlockCount →
    (t.place .reconf = .unlockState ↔ s.d_lock_count = 1)
  /-- and a restart begins exactly when the state is then `RUNNING`. -/
  restart : ((s.place .reconf).restarting = false ∧ (t.place .reconf).restarting = true) ↔
    ((∃ ok, a = .advance .reconf ok) ∧ s.place .reconf = .unlockState ∧ s.d_state = .running)
  /-- An unpaired `unlock` raises, and changes nothing else. -/
  unpaired : ∀ ok, a = .advance .reconf ok → s.place .reconf = .unlockCount → s.d_lock_count ≤ 0 →
    t = s.leave .raised .reconf

/-! ## The invariant -/

/-- Where a thread has `d_mutex`. -/
def Place.critical : Place → Bool
  | startState | startCount | flatten | make | assign _ | setRunning | lockCount | unlockCount
  | unlockState => true
  | stopTest r | stopCall r | waitTest r | waitRead r | waitOn r _ | setIdle r _ => r
  | _ => false

/-- Where a thread is not about to replace the scheduler or to set `RUNNING`. -/
def Place.steady : Place → Bool
  | assign _ | setRunning => false
  | _ => true

/-- Where a thread can be, with the calls that it makes. -/
def Place.fits : Who → Place → Bool
  | .user, entering call => call = .start
  | .user, lockCount | .user, unlockCount | .user, unlockState => false
  | .user, p => !p.restarting
  | .reconf, entering call => call ≠ .start
  | .reconf, startState | .reconf, startCount => false
  | .reconf, stopTest r | .reconf, stopCall r | .reconf, waitTest r | .reconf, waitRead r
  | .reconf, waitOn r _ | .reconf, setIdle r _ => r
  | .reconf, _ => true

/-- What a thread knows of the schedulers. -/
def PlaceOk (s : TopBlock) : Place → Prop
  | .startCount | .flatten | .make => Settled s
  | .assign k => Settled s ∧ k < s.schedulers.length
  | .waitOn restarting k =>
      k < s.schedulers.length ∧ (restarting → s.d_scheduler = some k)
  | .setIdle restarting k =>
      (∀ j, k = some j → j < s.schedulers.length ∧ ¬ s.Running j) ∧
        (restarting → s.d_scheduler = k)
  | _ => True

/-- What every calm step keeps. A scheduler that runs is the current one or about to become it,
and while the current one runs the state is `RUNNING` or about to become so. -/
structure Inv (s : TopBlock) : Prop where
  count : 0 ≤ s.d_lock_count
  mutex : ∀ w, (s.place w).critical → s.d_mutex = some w
  known : ∀ k, s.d_scheduler = some k → k < s.schedulers.length
  live : ∀ k, s.Running k → s.d_scheduler = some k ∨ ∃ w, s.place w = .assign k
  current : Settled s ∨ s.d_state = .running ∨ ∃ w, s.place w = .setRunning
  places : ∀ w, PlaceOk s (s.place w)

variable {s t : TopBlock} {w : Who} {p : Place}

@[simp] theorem goTo_self (s : TopBlock) (p : Place) (w : Who) : (s.goTo p w).place w = p :=
  Function.update_self ..

theorem goTo_other {v : Who} (other : v ≠ w) (s : TopBlock) (p : Place) :
    (s.goTo p w).place v = s.place v := Function.update_of_ne other ..

theorem Inv.move (inv : Inv s) {m : Option Who} {st : TbState} {c : Int}
    (leaves : ∀ k, s.place w ≠ .assign k) (count : 0 ≤ c) (own : p.critical → m = some w)
    (others : ∀ v, v ≠ w → (s.place v).critical → m = some v) (ok : PlaceOk s p)
    (current : Settled s ∨ st = .running ∨ p = .setRunning ∨
      ∃ v, v ≠ w ∧ s.place v = .setRunning) :
    Inv ({ s with d_mutex := m, d_state := st, d_lock_count := c }.goTo p w) := by
  refine ⟨count, ?_, inv.known, ?_, ?_, ?_⟩
  · intro v critical
    by_cases same : v = w
    · subst same
      rw [goTo_self] at critical
      exact own critical
    · rw [goTo_other same] at critical
      exact others v same critical
  · intro k running
    rcases inv.live k running with now | ⟨v, soon⟩
    · exact .inl now
    · refine .inr ⟨v, ?_⟩
      rw [goTo_other (by rintro rfl; exact leaves k soon)]
      exact soon
  · rcases current with settled | running | own | ⟨v, other, soon⟩
    · exact .inl settled
    · exact .inr (.inl running)
    · exact .inr (.inr ⟨w, (goTo_self ..).trans own⟩)
    · exact .inr (.inr ⟨v, (goTo_other other ..).trans soon⟩)
  · intro v
    by_cases same : v = w
    · subst same
      rw [goTo_self]
      exact ok
    · rw [goTo_other same]
      exact inv.places v

theorem Inv.alone (inv : Inv s) (critical : (s.place w).critical) {v : Who} (other : v ≠ w) :
    (s.place v).critical = false := by
  by_contra both
  rw [Bool.not_eq_false] at both
  exact other (Option.some.inj ((inv.mutex v both).symm.trans (inv.mutex w critical)))

theorem not_assign (steady : (s.place w).steady) (k : Nat) : s.place w ≠ .assign k := by
  intro at_
  rw [at_] at steady
  cases steady

theorem Inv.current_stays (inv : Inv s) (steady : (s.place w).steady) (p : Place) :
    Settled s ∨ s.d_state = .running ∨ p = .setRunning ∨ ∃ v, v ≠ w ∧ s.place v = .setRunning := by
  rcases inv.current with settled | running | ⟨v, soon⟩
  · exact .inl settled
  · exact .inr (.inl running)
  · refine .inr (.inr (.inr ⟨v, ?_, soon⟩))
    rintro rfl
    rw [soon] at steady
    cases steady

theorem Inv.goTo (inv : Inv s) (steady : (s.place w).steady)
    (own : p.critical → (s.place w).critical) (ok : PlaceOk s p) : Inv (s.goTo p w) :=
  inv.move (not_assign steady) inv.count (fun critical => inv.mutex w (own critical))
    (fun v _ => inv.mutex v) ok (inv.current_stays steady p)

theorem Inv.leave (inv : Inv s) (critical : (s.place w).critical) (steady : (s.place w).steady)
    (ended : p.ended) {c : Int} (count : 0 ≤ c) :
    Inv ({ s with d_lock_count := c }.leave p w) := by
  have outside : p.critical = false ∧ PlaceOk s p := by
    cases p <;> first | exact ⟨rfl, trivial⟩ | cases ended
  refine inv.move (not_assign steady) count (fun inside => ?_) (fun v other inside => ?_) outside.2
    (inv.current_stays steady p)
  · rw [outside.1] at inside
    cases inside
  · rw [inv.alone critical other] at inside
    cases inside

/-- A place stays right when schedulers are added and end, and the current one is replaced by none
that the place relies on. -/
theorem PlaceOk.mono (ok : PlaceOk s p)
    (known : ∀ k, s.d_scheduler = some k → k < s.schedulers.length)
    (length : s.schedulers.length ≤ t.schedulers.length)
    (fewer : ∀ k < s.schedulers.length, t.Running k → s.Running k)
    (same : p.critical → t.d_scheduler = s.d_scheduler) : PlaceOk t p := by
  have settles : p.critical → Settled s → Settled t := by
    intro critical settled k current running
    rw [same critical] at current
    exact settled k current (fewer k (known k current) running)
  cases p with
  | startCount | flatten | make => exact settles rfl ok
  | assign k => exact ⟨settles rfl ok.1, Nat.lt_of_lt_of_le ok.2 length⟩
  | waitOn restarting k =>
    exact ⟨Nat.lt_of_lt_of_le ok.1 length, fun restarts => (same restarts).trans (ok.2 restarts)⟩
  | setIdle restarting k =>
    refine ⟨fun j inside => ?_, fun restarts => (same restarts).trans (ok.2 restarts)⟩
    obtain ⟨known, ended⟩ := ok.1 j inside
    exact ⟨Nat.lt_of_lt_of_le known length, fun running => ended (fewer j known running)⟩
  | _ => trivial

theorem Inv.fewer (inv : Inv s) {schedulers : List Scheduler}
    (length : schedulers.length = s.schedulers.length)
    (fewer : ∀ k, { s with schedulers := schedulers }.Running k → s.Running k) :
    Inv { s with schedulers := schedulers } := by
  have settles : Settled s → Settled { s with schedulers := schedulers } :=
    fun settled k current running => settled k current (fewer k running)
  refine ⟨inv.count, inv.mutex, ?_, fun k running => inv.live k (fewer k running), ?_, ?_⟩
  · intro k current
    rw [length]
    exact inv.known k current
  · rcases inv.current with settled | soon
    · exact .inl (settles settled)
    · exact .inr soon
  · exact fun w => (inv.places w).mono inv.known (Nat.le_of_eq length.symm) (fun k _ => fewer k)
      fun _ => rfl

theorem interrupt_running (s : TopBlock) (k j : Nat) : (s.interrupt k).Running j ↔ s.Running j := by
  unfold TopBlock.Running TopBlock.interrupt
  simp only [List.getElem?_modify, Option.map_eq_map, Option.map_eq_some_iff]
  constructor
  · rintro ⟨x, ⟨y, got, rfl⟩, live⟩
    refine ⟨y, got, ?_⟩
    rintro rfl
    exact live (by split <;> rfl)
  · rintro ⟨y, got, live⟩
    refine ⟨_, ⟨y, got, rfl⟩, ?_⟩
    split
    · split
      · simp
      · exact live
    · exact live

theorem Inv.interrupt (inv : Inv s) (k : Nat) : Inv (s.interrupt k) :=
  inv.fewer (List.length_modify ..) fun j running => (interrupt_running s k j).mp running

variable {k : Nat}

theorem Inv.exit (inv : Inv s) (stepped : s.exit k = some t) : Inv t := by
  unfold TopBlock.exit at stepped
  split at stepped
  · cases stepped
    refine inv.fewer (List.length_set ..) fun j running => ?_
    obtain ⟨x, got, live⟩ := running
    rw [List.getElem?_set] at got
    split at got
    · split at got
      · cases got
        exact absurd rfl live
      · cases got
    · exact ⟨x, got, live⟩
  · cases stepped

theorem append_running (old : k < s.schedulers.length) (x : Scheduler) (w : Who) (p : Place) :
    ({ s with schedulers := s.schedulers ++ [x] }.goTo p w).Running k ↔ s.Running k := by
  unfold TopBlock.Running TopBlock.goTo
  simp only [List.getElem?_append_left old]

theorem Inv.make (inv : Inv s) (at_ : s.place w = .make) :
    Inv ({ s with schedulers := s.schedulers ++ [Scheduler.running] }.goTo
      (.assign s.schedulers.length) w) := by
  have critical : (s.place w).critical := by
    rw [at_]
    rfl
  have settled : Settled s := by
    have ok := inv.places w
    rwa [at_] at ok
  have settles : Settled ({ s with schedulers := s.schedulers ++ [Scheduler.running] }.goTo
      (.assign s.schedulers.length) w) := fun k current running =>
    settled k current ((append_running (inv.known k current) _ _ _).mp running)
  refine ⟨inv.count, ?_, ?_, ?_, .inl settles, ?_⟩
  · intro v inside
    by_cases same : v = w
    · subst same
      exact inv.mutex v critical
    · rw [goTo_other same] at inside
      exact inv.mutex v inside
  · intro k current
    have known := inv.known k current
    simp only [TopBlock.goTo, List.length_append]
    omega
  · intro k running
    by_cases old : k < s.schedulers.length
    · rcases inv.live k ((append_running old _ _ _).mp running) with now | ⟨v, soon⟩
      · exact .inl now
      · refine .inr ⟨v, ?_⟩
        rw [goTo_other (by rintro rfl; rw [at_] at soon; cases soon)]
        exact soon
    · obtain ⟨x, got, _⟩ := running
      have inside := (List.getElem?_eq_some_iff.mp got).1
      simp only [TopBlock.goTo, List.length_append, List.length_singleton] at inside
      obtain rfl : k = s.schedulers.length := by omega
      exact .inr ⟨w, goTo_self ..⟩
  · intro v
    by_cases same : v = w
    · subst same
      rw [goTo_self]
      refine ⟨settles, ?_⟩
      simp [TopBlock.goTo]
    · rw [goTo_other same]
      exact (inv.places v).mono inv.known (by simp [TopBlock.goTo])
        (fun k old => (append_running old _ _ _).mp) fun _ => rfl

theorem Inv.current_next (inv : Inv s) (at_ : s.place w = .assign k) :
    Inv ({ s with d_scheduler := some k }.goTo .setRunning w) := by
  have critical : (s.place w).critical := by
    rw [at_]
    rfl
  obtain ⟨settled, made⟩ : Settled s ∧ k < s.schedulers.length := by
    have ok := inv.places w
    rwa [at_] at ok
  refine ⟨inv.count, ?_, ?_, ?_, .inr (.inr ⟨w, goTo_self ..⟩), ?_⟩
  · intro v inside
    by_cases same : v = w
    · subst same
      exact inv.mutex v critical
    · rw [goTo_other same] at inside
      exact inv.mutex v inside
  · intro j current
    cases current
    exact made
  · intro j running
    rcases inv.live j running with old | ⟨v, soon⟩
    · exact absurd running (settled j old)
    · left
      by_cases same : v = w
      · subst same
        rw [at_] at soon
        cases soon
        rfl
      · have outside := inv.alone critical same
        rw [soon] at outside
        cases outside
  · intro v
    by_cases same : v = w
    · subst same
      rw [goTo_self]
      trivial
    · rw [goTo_other same]
      refine (inv.places v).mono inv.known (Nat.le_refl _) (fun _ _ => id) fun inside => ?_
      rw [inv.alone critical same] at inside
      cases inside

theorem Inv.assign (inv : Inv s) (at_ : s.place w = .assign k) :
    Inv ((s.setScheduler k).goTo .setRunning w) := by
  unfold TopBlock.setScheduler
  split
  · exact inv.current_next at_
  · exact (inv.interrupt _).current_next at_

theorem Inv.setRunning (inv : Inv s) (at_ : s.place w = .setRunning) :
    Inv ({ s with d_state := .running }.leave .returned w) := by
  have critical : (s.place w).critical := by
    rw [at_]
    rfl
  refine inv.move (fun k => by simp [at_]) inv.count (fun inside => by cases inside)
    (fun v other inside => ?_) trivial (.inr (.inl rfl))
  rw [inv.alone critical other] at inside
  cases inside

/-- The current scheduler is over when the state is set to `IDLE`. -/
theorem Inv.settled_at_setIdle (inv : Inv s) {restarting : Bool} {k : Option Nat}
    (at_ : s.place w = .setIdle restarting k)
    (calm : restarting = false → s.d_scheduler = k ∨ Settled s) : Settled s := by
  have ok := inv.places w
  rw [at_] at ok
  have same : s.d_scheduler = k ∨ Settled s := by
    cases restarting with
    | true => exact .inl (ok.2 rfl)
    | false => exact calm rfl
  rcases same with same | settled
  · intro j current
    exact (ok.1 j (same.symm.trans current)).2
  · exact settled

theorem Inv.setIdle (inv : Inv s) {restarting : Bool} {k : Option Nat}
    (at_ : s.place w = .setIdle restarting k)
    (calm : restarting = false → s.d_scheduler = k ∨ Settled s) :
    Inv ({ s with d_state := .idle }.goTo (if restarting then .flatten else .returned) w) := by
  have settled := inv.settled_at_setIdle at_ calm
  refine inv.move (fun k => by simp [at_]) inv.count (fun inside => ?_) (fun v _ => inv.mutex v) ?_
    (.inl settled)
  · cases restarting with
    | true => exact inv.mutex w (by rw [at_]; rfl)
    | false => cases inside
  · cases restarting with
    | true => exact settled
    | false => trivial

theorem Inv.initial : Inv .initial where
  count := by decide
  mutex w inside := by cases inside
  known k current := by cases current
  live k running := by
    obtain ⟨x, got, _⟩ := running
    cases got
  current := .inl fun k current => by cases current
  places w := trivial

attribute [local simp] Place.fits Place.restarting

/-- A restart begins when the outermost `unlock` finds the state `RUNNING`. -/
theorem advance_goes {ok : Bool} (stepped : s.advance w ok = some t) :
    ∃ p, t.place = Function.update s.place w p ∧
      ((s.place w).fits w → p.fits w) ∧
      ((s.place w).restarting = false ∧ p.restarting = true ↔
        s.place w = .unlockState ∧ s.d_state = .running) := by
  unfold TopBlock.advance at stepped
  cases at_ : s.place w with
  | returned | raised => simp only [at_] at stepped; cases stepped
  | entering call =>
    simp only [at_, Option.ite_none_right_eq_some, Option.some.injEq] at stepped
    obtain ⟨_, rfl⟩ := stepped
    refine ⟨entered call, rfl, ?_, ?_⟩
    · cases w <;> cases call <;> simp [entered]
    · cases call <;> simp [entered]
  | startState | startCount | flatten | make | setRunning | lockCount =>
    simp only [at_, Option.some.injEq] at stepped
    subst stepped
    first
      | exact ⟨_, rfl, by cases w <;> simp, by simp⟩
      | split <;> exact ⟨_, rfl, by cases w <;> simp, by simp⟩
  | assign k =>
    simp only [at_, Option.some.injEq] at stepped
    subst stepped
    have same : (s.setScheduler k).place = s.place := by
      unfold TopBlock.setScheduler
      split <;> rfl
    refine ⟨.setRunning, ?_, by cases w <;> simp, by simp⟩
    rw [TopBlock.goTo, same]
  | stopTest restarting | waitTest restarting =>
    simp only [at_] at stepped
    split at stepped <;> cases stepped <;> cases restarting <;>
      exact ⟨_, rfl, by cases w <;> simp, by simp⟩
  | stopCall restarting | waitRead restarting =>
    simp only [at_, Option.map_eq_some_iff] at stepped
    obtain ⟨k, _, rfl⟩ := stepped
    cases restarting <;> exact ⟨_, rfl, by cases w <;> simp, by simp⟩
  | waitOn restarting k =>
    simp only [at_, Option.ite_none_left_eq_some, Option.some.injEq] at stepped
    obtain ⟨_, rfl⟩ := stepped
    exact ⟨_, rfl, by cases w <;> simp, by simp⟩
  | setIdle restarting k =>
    simp only [at_, Option.some.injEq] at stepped
    subst stepped
    cases restarting <;> exact ⟨_, rfl, by cases w <;> simp, by simp⟩
  | unlockCount =>
    simp only [at_] at stepped
    split at stepped
    · cases stepped
      exact ⟨_, rfl, by cases w <;> simp, by simp⟩
    · split at stepped <;> cases stepped <;> exact ⟨_, rfl, by cases w <;> simp, by simp⟩
  | unlockState =>
    simp only [at_, Option.some.injEq] at stepped
    subst stepped
    split
    · rename_i idle
      exact ⟨_, rfl, by cases w <;> simp, by simp [idle]⟩
    · rename_i running
      have state : s.d_state = .running := by
        cases state : s.d_state with
        | idle => exact absurd state running
        | running => rfl
      exact ⟨_, rfl, by cases w <;> simp, by simp [state]⟩

theorem Inv.entered (inv : Inv s) {call : Locking} (at_ : s.place w = .entering call)
    (free : s.d_mutex = none) : Inv ({ s with d_mutex := some w }.goTo (entered call) w) := by
  have steady : (s.place w).steady := by rw [at_]; rfl
  refine inv.move (not_assign steady) inv.count (fun _ => rfl) (fun v _ inside => ?_) ?_
    (inv.current_stays steady _)
  · cases free.symm.trans (inv.mutex v inside)
  · cases call <;> trivial

theorem Inv.startState (inv : Inv s) (at_ : s.place w = .startState) :
    Inv (if s.d_state = .idle then s.goTo .startCount w else s.leave .raised w) := by
  have critical : (s.place w).critical := by rw [at_]; rfl
  have steady : (s.place w).steady := by rw [at_]; rfl
  split
  · rename_i idle
    refine inv.goTo steady (fun _ => critical) ?_
    -- No other thread is about to set `RUNNING`, since this one has the mutex.
    rcases inv.current_stays steady .startCount with settled | running | own | ⟨v, other, soon⟩
    · exact settled
    · cases idle.symm.trans running
    · cases own
    · have outside := inv.alone critical other
      rw [soon] at outside
      cases outside
  · exact inv.leave critical steady rfl inv.count

/-- What `start` and `restart` look at before they make a scheduler. -/
theorem Inv.ready (inv : Inv s) (at_ : s.place w = .startCount ∨ s.place w = .flatten) :
    Inv (s.leave .raised w) ∧ Inv (s.goTo .flatten w) ∧ Inv (s.goTo .make w) := by
  have settled : Settled s ∧ (s.place w).critical ∧ (s.place w).steady := by
    have ok := inv.places w
    rcases at_ with at_ | at_
    all_goals
      rw [at_] at ok ⊢
      exact ⟨ok, rfl, rfl⟩
  obtain ⟨settled, critical, steady⟩ := settled
  exact ⟨inv.leave critical steady rfl inv.count, inv.goTo steady (fun _ => critical) settled,
    inv.goTo steady (fun _ => critical) settled⟩

theorem Inv.stop (inv : Inv s) {restarting : Bool}
    (at_ : s.place w = .stopTest restarting ∨ s.place w = .stopCall restarting) :
    Inv (s.goTo (.stopCall restarting) w) ∧
      Inv (s.goTo (if restarting then .waitTest true else .returned) w) := by
  have steady : (s.place w).steady ∧ (s.place w).critical = restarting := by
    rcases at_ with at_ | at_ <;> rw [at_] <;> exact ⟨rfl, rfl⟩
  obtain ⟨steady, critical⟩ := steady
  refine ⟨inv.goTo steady critical.trans trivial, ?_⟩
  cases restarting with
  | true => exact inv.goTo steady (fun _ => critical) trivial
  | false => exact inv.goTo steady (fun inside => by cases inside) trivial

/-- `wait` goes on to a place that it knows enough for. -/
theorem Inv.wait (inv : Inv s) {restarting : Bool} {k : Nat}
    (at_ : s.place w = .waitTest restarting ∨ s.place w = .waitRead restarting ∨
      s.place w = .waitOn restarting k)
    (own : p.critical = restarting) (ok : PlaceOk s p) : Inv (s.goTo p w) := by
  rcases at_ with at_ | at_ | at_
  all_goals exact inv.goTo (by rw [at_]; rfl) (fun inside => by rw [at_, ← inside, own]; rfl) ok

theorem Inv.advance_wait (inv : Inv s) {restarting ok : Bool} {k : Nat}
    (at_ : s.place w = .waitTest restarting ∨ s.place w = .waitRead restarting ∨
      s.place w = .waitOn restarting k) (stepped : s.advance w ok = some t) : Inv t := by
  unfold TopBlock.advance at stepped
  have go := fun p => inv.wait (p := p) at_
  rcases at_ with at_ | at_ | at_
  · simp only [at_] at stepped
    split at stepped
    · cases stepped
      exact go _ rfl trivial
    · rename_i none
      cases stepped
      exact go _ rfl ⟨fun j same => (by cases same), fun _ => by simpa using none⟩
  · simp only [at_, Option.map_eq_some_iff] at stepped
    obtain ⟨k, current, rfl⟩ := stepped
    exact go _ rfl ⟨inv.known k current, fun _ => current⟩
  · simp only [at_, Option.ite_none_left_eq_some, Option.some.injEq] at stepped
    obtain ⟨ended, rfl⟩ := stepped
    have known := inv.places w
    rw [at_] at known
    refine go _ rfl ⟨?_, known.2⟩
    intro j same
    cases same
    exact ⟨known.1, ended⟩

theorem Inv.advance_unlock (inv : Inv s) {ok : Bool}
    (at_ : s.place w = .unlockCount ∨ s.place w = .unlockState)
    (stepped : s.advance w ok = some t) : Inv t := by
  unfold TopBlock.advance at stepped
  have critical : (s.place w).critical := by rcases at_ with at_ | at_ <;> rw [at_] <;> rfl
  have steady : (s.place w).steady := by rcases at_ with at_ | at_ <;> rw [at_] <;> rfl
  rcases at_ with at_ | at_
  · simp only [at_] at stepped
    split at stepped
    · cases stepped
      exact inv.leave critical steady rfl (Int.le_refl 0)
    · split at stepped
      · cases stepped
        exact inv.leave critical steady rfl (by omega)
      · cases stepped
        exact inv.move (not_assign steady) (by omega) (fun _ => inv.mutex w critical)
          (fun v _ => inv.mutex v) trivial (inv.current_stays steady _)
  · simp only [at_, Option.some.injEq] at stepped
    subst stepped
    split
    · exact inv.leave critical steady rfl inv.count
    · exact inv.goTo steady (fun _ => critical) trivial

theorem Inv.advance (inv : Inv s) {ok : Bool} (fits : (s.place w).fits w)
    (calm : Calm s (.advance w ok)) (stepped : s.advance w ok = some t) : Inv t := by
  have next := stepped
  unfold TopBlock.advance at next
  cases at_ : s.place w with
  | returned | raised => simp only [at_] at next; cases next
  | entering call =>
    simp only [at_, Option.ite_none_right_eq_some, Option.some.injEq] at next
    obtain ⟨free, rfl⟩ := next
    exact inv.entered at_ free
  | waitTest restarting => exact inv.advance_wait (k := 0) (.inl at_) stepped
  | waitRead restarting => exact inv.advance_wait (k := 0) (.inr (.inl at_)) stepped
  | waitOn restarting k => exact inv.advance_wait (.inr (.inr at_)) stepped
  | unlockCount => exact inv.advance_unlock (.inl at_) stepped
  | unlockState => exact inv.advance_unlock (.inr at_) stepped
  | stopTest restarting =>
    simp only [at_] at next
    split at next
    · cases next
      exact (inv.stop (.inl at_)).1
    · cases next
      exact (inv.stop (.inl at_)).2
  | stopCall restarting =>
    simp only [at_, Option.map_eq_some_iff] at next
    obtain ⟨k, _, rfl⟩ := next
    exact ((inv.interrupt k).stop (.inr at_)).2
  | startState =>
    simp only [at_, Option.some.injEq] at next
    exact next ▸ inv.startState at_
  | startCount =>
    simp only [at_, Option.some.injEq] at next
    subst next
    split
    · exact (inv.ready (.inl at_)).1
    · exact (inv.ready (.inl at_)).2.1
  | flatten =>
    simp only [at_, Option.some.injEq] at next
    subst next
    split
    · exact (inv.ready (.inr at_)).2.2
    · exact (inv.ready (.inr at_)).1
  | make =>
    simp only [at_, Option.some.injEq] at next
    exact next ▸ inv.make at_
  | assign k =>
    simp only [at_, Option.some.injEq] at next
    exact next ▸ inv.assign at_
  | setRunning =>
    simp only [at_, Option.some.injEq] at next
    exact next ▸ inv.setRunning at_
  | setIdle restarting k =>
    simp only [at_, Option.some.injEq] at next
    subst next
    refine inv.setIdle at_ fun alone => ?_
    rw [at_, alone] at fits
    cases w with
    | user => simpa only [Calm, at_] using calm
    | reconf => cases fits
  | lockCount =>
    simp only [at_, Option.some.injEq] at next
    subst next
    have count := inv.count
    exact inv.leave (by rw [at_]; rfl) (by rw [at_]; rfl) rfl (by omega)

theorem Inv.call (inv : Inv s) (stepped : s.call w p = some t) (outside : p.critical = false)
    (ok : PlaceOk s p) : Inv t := by
  simp only [TopBlock.call, Option.ite_none_right_eq_some, Option.some.injEq] at stepped
  obtain ⟨ended, rfl⟩ := stepped
  refine inv.goTo ?_ (fun inside => ?_) ok
  · cases at_ : s.place w <;> first | rfl | (rw [at_] at ended; cases ended)
  · rw [outside] at inside
    cases inside

/-- Each thread is in the calls that it makes. -/
def Fits (s : TopBlock) : Prop := ∀ w, (s.place w).fits w

theorem Fits.goTo (fits : Fits s) (own : p.fits w) (there : t.place = Function.update s.place w p) :
    Fits t := by
  intro v
  rw [there]
  by_cases same : v = w
  · subst same
    rw [Function.update_self]
    exact own
  · rw [Function.update_of_ne same]
    exact fits v

theorem call_goes (stepped : s.call w p = some t) : t.place = Function.update s.place w p := by
  simp only [TopBlock.call, Option.ite_none_right_eq_some, Option.some.injEq] at stepped
  obtain ⟨_, rfl⟩ := stepped
  rfl

theorem exit_goes (stepped : s.exit k = some t) : t.place = s.place := by
  simp only [TopBlock.exit, Option.ite_none_right_eq_some, Option.some.injEq] at stepped
  obtain ⟨_, rfl⟩ := stepped
  rfl

theorem Fits.next {a : Act} (fits : Fits s) (stepped : step s a = some t) : Fits t := by
  cases a with
  | start | stop | wait | lock | unlock => exact fits.goTo (by rfl) (call_goes stepped)
  | advance w ok =>
    obtain ⟨p, there, own, _⟩ := advance_goes stepped
    exact fits.goTo (own (fits w)) there
  | exit k =>
    intro w
    rw [exit_goes stepped]
    exact fits w

theorem Inv.next {a : Act} (inv : Inv s) (fits : Fits s) (calm : Calm s a)
    (stepped : step s a = some t) : Inv t := by
  cases a with
  | start | stop | wait | lock | unlock => exact inv.call stepped rfl trivial
  | advance w ok => exact inv.advance (fits w) calm stepped
  | exit k => exact inv.exit stepped

/-! ## The life cycle -/

theorem Inv.idleIsQuiet (inv : Inv s) : IdleIsQuiet s := by
  intro idle userOver reconfOver k running
  have ended : ∀ w, (s.place w).ended := by
    intro w
    cases w with
    | user => exact userOver
    | reconf => exact reconfOver
  rcases inv.live k running with current | ⟨w, soon⟩
  · rcases inv.current with settled | active | ⟨w, soon⟩
    · exact settled k current running
    · rw [idle] at active
      cases active
    · have none := ended w
      rw [soon] at none
      cases none
  · have none := ended w
    rw [soon] at none
    cases none

theorem Inv.make_alone (inv : Inv s) (at_ : s.place w = .make) (k : Nat) : ¬ s.Running k := by
  intro running
  have settled := inv.places w
  rw [at_] at settled
  rcases inv.live k running with current | ⟨v, soon⟩
  · exact settled k current running
  · have other : v ≠ w := by
      rintro rfl
      rw [at_] at soon
      cases soon
    have outside := inv.alone (w := w) (by rw [at_]; rfl) other
    rw [soon] at outside
    cases outside

theorem Inv.stepRight {a : Act} (inv : Inv s) (calm : Calm s a) (stepped : step s a = some t) :
    StepRight s a t where
  wait := by
    rintro ok k rfl at_
    have settled := inv.settled_at_setIdle at_ fun _ => by simpa only [Calm, at_] using calm
    simp only [step, TopBlock.advance, at_, Option.some.injEq] at stepped
    subst stepped
    exact settled
  start := by
    rintro ok rfl at_ k
    exact inv.make_alone at_ k
  outermost := by
    rintro ok rfl at_
    have count := inv.count
    simp only [step, TopBlock.advance, at_] at stepped
    split at stepped
    · cases stepped
      simp [TopBlock.leave]
      omega
    · split at stepped
      · cases stepped
        simp [TopBlock.leave]
        omega
      · cases stepped
        simp
        omega
  restart := by
    have others : ∀ {v p}, v = .user → t.place = Function.update s.place v p →
        ¬ ((s.place .reconf).restarting = false ∧ (t.place .reconf).restarting = true) := by
      rintro v p rfl there ⟨before, after⟩
      rw [there, Function.update_of_ne (by decide), before] at after
      cases after
    cases a with
    | advance w ok =>
      obtain ⟨p, there, _, restarts⟩ := advance_goes stepped
      cases w with
      | user =>
        refine iff_of_false (others rfl there) ?_
        rintro ⟨⟨_, none⟩, _⟩
        cases none
      | reconf =>
        rw [there, Function.update_self, restarts]
        simp
    | start | stop | wait =>
      refine iff_of_false (others rfl (call_goes stepped)) ?_
      rintro ⟨⟨_, none⟩, _⟩
      cases none
    | lock | unlock =>
      refine iff_of_false ?_ ?_
      · rintro ⟨_, after⟩
        rw [call_goes stepped, Function.update_self] at after
        cases after
      · rintro ⟨⟨_, none⟩, _⟩
        cases none
    | exit k =>
      refine iff_of_false ?_ ?_
      · rintro ⟨before, after⟩
        rw [exit_goes stepped, before] at after
        cases after
      · rintro ⟨⟨_, none⟩, _⟩
        cases none
  unpaired := by
    rintro ok rfl at_ none
    have count : s.d_lock_count = 0 := Int.le_antisymm none inv.count
    simp only [step, TopBlock.advance, at_, if_pos none, Option.some.injEq] at stepped
    rw [← stepped, ← count]

/-- In each run in which no `wait` of the user sets the idle state over a scheduler that replaced
the one it waited for, the life cycle is right: no scheduler runs in an idle top block, `wait`
returns when the current one is over, `start` makes no second one, the outermost `unlock` restarts
exactly when it finds `RUNNING`, and an unpaired one raises. -/
theorem life_cycle {acts : List Act} (calm : Throughout Calm step .initial acts)
    (reached : run step .initial acts = some s) :
    IdleIsQuiet s ∧ ∀ a t, Calm s a → step s a = some t → StepRight s a t := by
  have kept : Inv s ∧ Fits s :=
    run_invariant_of (fun s => Inv s ∧ Fits s)
      (fun _ _ _ kept calm stepped => ⟨kept.1.next kept.2 calm stepped, kept.2.next stepped⟩)
      ⟨.initial, fun w => by cases w <;> rfl⟩ calm reached
  exact ⟨kept.1.idleIsQuiet, fun a t calm stepped => kept.1.stepRight calm stepped⟩

/-- The user starts the graph, which is changed once, and waits for its end. -/
def restarted : List Act :=
  .start :: List.replicate 7 (.advance .user true) ++
  .lock :: List.replicate 2 (.advance .reconf true) ++
  .unlock :: List.replicate 7 (.advance .reconf true) ++
  .exit 0 :: List.replicate 6 (.advance .reconf true) ++
  .wait :: List.replicate 2 (.advance .user true) ++
  .exit 1 :: List.replicate 2 (.advance .user true)

theorem restarted_life_cycle : ∃ s, run step .initial restarted = some s ∧
    IdleIsQuiet s ∧ ∀ a t, Calm s a → step s a = some t → StepRight s a t := by
  have reached : (run step .initial restarted).isSome := by decide
  obtain ⟨s, ran⟩ := Option.isSome_iff_exists.mp reached
  exact ⟨s, ran, life_cycle (by decide) ran⟩

/-- The user waits for the first scheduler while the graph is changed. -/
def replaced : List Act :=
  .start :: List.replicate 7 (.advance .user true) ++
  .wait :: List.replicate 2 (.advance .user true) ++
  .lock :: List.replicate 2 (.advance .reconf true) ++
  .unlock :: List.replicate 7 (.advance .reconf true) ++
  .exit 0 :: List.replicate 6 (.advance .reconf true) ++
  List.replicate 2 (.advance .user true)

/-- Then the first scheduler's end makes the state `IDLE` while the second scheduler runs. -/
theorem replaced_not_quiet : ∃ s, run step .initial replaced = some s ∧ ¬ IdleIsQuiet s := by
  have reached : ((run step .initial replaced).map fun s =>
      (s.d_state, s.place .user, s.place .reconf, s.schedulers)) =
        some (.idle, .returned, .returned, [.finished, .running]) := by decide
  obtain ⟨s, ran, last⟩ := Option.map_eq_some_iff.mp reached
  simp only [Prod.mk.injEq] at last
  obtain ⟨idle, user, reconf, schedulers⟩ := last
  refine ⟨s, ran, fun quiet => quiet idle (by rw [user]; rfl) (by rw [reconf]; rfl) 1 ?_⟩
  exact ⟨.running, by rw [schedulers]; rfl, by decide⟩

end GnuRadio.LifeCycle
