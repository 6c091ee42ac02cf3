import GnuRadio.Misc.Parties
import GnuRadio.Usrp2.HostRx

/-!
# The accounts of received frames

A step of a thread of the user moves a frame, or a lock, or nothing. Each of these
keeps the accounts, as long as no frame is dropped: `rx_samples` drops one without
a fixed header, and `stop_rx_streaming` those still in the ring.
-/

namespace GnuRadio.Usrp2

/-- The thread does not wait for a reply. -/
def UserState.Calm (u : UserState) : Prop := u ≠ .startWait ∧ u ≠ .stopWait

/-- The background thread has the mutex. -/
def BgState.Busy : BgState → Prop
  | .locked _ | .counting _ | .keeping _ => True
  | _ => False

/-- The frame that may be enqueued. -/
def BgState.pending : BgState → Option EthFrame
  | .handling p | .locking p | .locked p => some p
  | _ => none

/-- The frame that has been enqueued and will be reported. -/
def BgState.taken : BgState → Option EthFrame
  | .counting p | .keeping p => some p
  | _ => none

namespace HostRx

/-- Who has the mutex, and which rings have frames. -/
structure Locks (s : HostRx) : Prop where
  channels : ∀ c, c ≠ 0 → s.d_channel_rings c = none
  current : ∀ rp, s.d_channel_rings 0 = some rp → rp < s.rings.length
  orphans : ∀ rp, s.d_channel_rings 0 ≠ some rp → (s.ring rp).frames = []
  starting : ∀ t, s.users[t]? = some .startWait →
    s.d_channel_rings_mutex = some (.user t) ∧ s.d_channel_rings 0 = none
  stopping : ∀ t, s.users[t]? = some .stopWait → s.d_channel_rings_mutex = some (.user t)
  busy : s.bg.Busy → s.d_channel_rings_mutex = some .bg

/-- Where the frames are. -/
structure Books (s : HostRx) : Prop where
  count : (s.d_num_enqueued.toNat + s.uncounted) % 2 ^ 32 = s.outstanding.length % 2 ^ 32
  nonzero : s.bg = .waiting → s.d_num_enqueued ≠ 0
  ledger : ∀ p, (s.unreleased ++ s.released).count p = s.enqueued.count p
  once : ∀ p, s.enqueued.count p ≤ 1
  known : ∀ p ∈ s.enqueued, p.base < s.received
  pending : ∀ p, s.bg.pending = some p → p.base < s.received ∧ ∀ q ∈ s.enqueued, q.base ≠ p.base
  kept : ∀ p ∈ s.kept, p ∈ s.enqueued
  taken : ∀ p, s.bg.taken = some p → p ∈ s.enqueued

/-- What a step of thread `t` in the state `u` does. -/
inductive UserEffect (s : HostRx) (t : Nat) (u : UserState) : HostRx → Prop
  /-- The thread goes on, and may set `d_dont_enqueue`. -/
  | move (u' : UserState) (b : Bool) : u'.Calm → u'.holds = u.holds → u'.handles = u.handles →
      UserEffect s t u ({ s with d_dont_enqueue := b }.setUser t u')
  /-- It takes a frame from a ring. -/
  | take (rp : Nat) (p : EthFrame) (s₁ : HostRx) (u' : UserState) : s.dequeue rp = some (p, s₁) →
      u.handles = [] → u'.Calm → u'.holds = [p] → u'.handles = [p] →
      UserEffect s t u (s₁.setUser t u')
  | release (p : EthFrame) (u' : UserState) : u.holds = [p] → u'.Calm → u'.holds = [] →
      u'.handles = u.handles → UserEffect s t u ((s.releaseFrame p).setUser t u')
  /-- It counts the frame off. -/
  | countOff (p : EthFrame) (u' : UserState) : u.holds = [] → u.handles = [p] → u'.Calm →
      u'.handles = [] → UserEffect s t u (s.decEnqueued.setUser t u')
  | startLocked : u.handles = [] → s.d_channel_rings_mutex = none → s.d_channel_rings 0 = none →
      UserEffect s t u ({ s with
        d_channel_rings_mutex := some (.user t)
        d_dont_enqueue := false }.setUser t .startWait)
  | stopLocked : u.handles = [] → s.d_channel_rings_mutex = none →
      UserEffect s t u ({ s with d_channel_rings_mutex := some (.user t) }.setUser t .stopWait)
  /-- The reply to the command that starts the stream. -/
  | started : u = .startWait → UserEffect s t u ({ s with
      rings := s.rings ++ [HostRing.mk s.max_frames []]
      d_channel_rings := Function.update s.d_channel_rings 0 (some s.rings.length) }.unlock.setUser
        t .idle)
  | refused : u = .startWait →
      UserEffect s t u ({ s with d_dont_enqueue := true }.unlock.setUser t .idle)
  | stopped : u = .stopWait → s.ringFrames = [] → UserEffect s t u ({ s with
      d_channel_rings := Function.update s.d_channel_rings 0 none
      stats := { s.stats with d_rx_seqno := -1 } }.unlock.setUser t .idle)

variable {s s' : HostRx} {t : Nat} {u u' : UserState}

theorem holds_of_handles (handles : u.handles = []) : u.holds = [] := by
  cases u <;> simp_all [UserState.holds, UserState.handles]

theorem lock_eq {owner : MutexOwner} (locked : s.lock owner = some s') :
    s.d_channel_rings_mutex = none ∧ s' = { s with d_channel_rings_mutex := some owner } := by
  unfold lock at locked
  split at locked
  · exact ⟨‹_›, (Option.some.inj locked).symm⟩
  · cases locked

theorem UserEffect.moved (calm : u'.Calm) (holds : u'.holds = u.holds)
    (handles : u'.handles = u.handles) : UserEffect s t u (s.setUser t u') :=
  .move u' s.d_dont_enqueue calm holds handles

theorem afterFlush_calm (stopping : Bool) : (afterFlush stopping).Calm := by
  cases stopping <;> simp [afterFlush, UserState.Calm]

theorem afterFlush_handles (stopping : Bool) : (afterFlush stopping).handles = [] := by
  cases stopping <;> rfl

variable {rp : Nat} {p pkt : EthFrame} {stats : RxStats} {bg : BgState} {kept : List EthFrame}

theorem dequeue_eq (taken : s.dequeue rp = some (p, s')) :
    ∃ rest, (s.ring rp).frames = p :: rest ∧
      s' = { s with rings := s.rings.set rp { s.ring rp with frames := rest } } := by
  unfold dequeue HostRing.dequeue at taken
  cases frames : (s.ring rp).frames with
  | nil => simp [frames] at taken
  | cons q rest =>
    simp only [frames, Option.map_some, Option.some.injEq, Prod.mk.injEq] at taken
    obtain ⟨rfl, rfl⟩ := taken
    exact ⟨rest, rfl, rfl⟩

theorem dequeue_head (taken : s.dequeue rp = some (p, s')) : p ∈ (s.ring rp).frames.head? := by
  obtain ⟨rest, frames, -⟩ := dequeue_eq taken
  rw [frames]
  rfl

theorem parse_of_le (whole : sizeofFixedHdr ≤ p.len) : parseRxMetadata p ≠ .ok none := by
  unfold parseRxMetadata
  rw [if_neg (not_lt.mpr whole)]
  dsimp only
  split <;> simp

theorem userStep_effect (clean : s.Clean (.user t)) (here : s.users[t]? = some u)
    (stepped : s.userStep t u = some s') : UserEffect s t u s' := by
  cases u with
  | startLock =>
    obtain ⟨s₁, locked, rfl⟩ := Option.map_eq_some_iff.mp stepped
    obtain ⟨free, rfl⟩ := lock_eq locked
    dsimp only
    cases streaming : s.d_channel_rings 0 with
    | some rp =>
      have unlocked : { s with d_channel_rings_mutex := some (.user t) }.unlock = s := by
        rw [unlock, ← free]
      rw [Option.isSome_some, if_pos rfl, unlocked]
      exact .moved ⟨by simp, by simp⟩ rfl rfl
    | none => exact .startLocked rfl free streaming
  | flushStart stopping =>
    simp only [userStep] at stepped
    split at stepped
    · cases stepped
      have handles := afterFlush_handles stopping
      exact .moved (afterFlush_calm stopping) (holds_of_handles handles) handles
    · cases stepped
      exact .moved ⟨by simp, by simp⟩ rfl rfl
  | flushLoop rp stopping =>
    simp only [userStep] at stepped
    split at stepped
    · cases stepped
      have handles := afterFlush_handles stopping
      exact .moved (afterFlush_calm stopping) (holds_of_handles handles) handles
    · rename_i p s₁ taken
      cases stepped
      exact .take rp p s₁ _ taken rfl ⟨by simp, by simp⟩ rfl rfl
  | flushHolding rp p stopping =>
    cases stepped
    exact .release p _ rfl ⟨by simp, by simp⟩ rfl rfl
  | flushReleased rp p stopping =>
    cases stepped
    exact .countOff p _ rfl rfl ⟨by simp, by simp⟩ rfl
  | stopLock =>
    obtain ⟨s₁, locked, rfl⟩ := Option.map_eq_some_iff.mp stepped
    obtain ⟨free, rfl⟩ := lock_eq locked
    exact .stopLocked rfl free
  | rxWait rp =>
    simp only [userStep] at stepped
    split at stepped
    · cases stepped
    · cases stepped
      exact .moved ⟨by simp, by simp⟩ rfl rfl
  | rxLoop rp =>
    simp only [userStep] at stepped
    split at stepped
    · cases stepped
      exact .moved ⟨by simp, by simp⟩ rfl rfl
    · rename_i p s₁ taken
      have whole := clean rp here p (dequeue_head taken)
      split at stepped
      · cases stepped
      · rename_i short
        exact absurd short (parse_of_le whole)
      · cases stepped
        exact .take rp p s₁ _ taken rfl ⟨by simp, by simp⟩ rfl rfl
  | rxReleased rp p want_more =>
    cases stepped
    cases want_more
    · exact .countOff p .idle rfl rfl ⟨by simp, by simp⟩ rfl
    · exact .countOff p (.rxLoop rp) rfl rfl ⟨by simp, by simp⟩ rfl
  | _ => cases stepped

theorem reply_effect {success : Bool} (clean : s.Clean (.reply t success))
    (here : s.users[t]? = some u) (stepped : s.reply t success u = some s') :
    UserEffect s t u s' := by
  cases u with
  | startWait =>
    cases success <;> cases stepped
    · exact .refused rfl
    · exact .started rfl
  | stopWait =>
    cases stepped
    exact .stopped rfl (clean here)
  | _ => cases stepped

theorem handled_effect {want_more : Bool} (stepped : s.handled t want_more u = some s') :
    UserEffect s t u s' := by
  cases u with
  | rxHandling rp p nitems md =>
    cases stepped
    exact .release p _ rfl ⟨by simp, by simp⟩ rfl rfl
  | _ => cases stepped

theorem enter_effect (here : s.users[t]? = some .idle) (call : HostCall) :
    UserEffect s t .idle (s.enter t call) := by
  have stays : UserEffect s t .idle s := by
    obtain ⟨inside, value⟩ := List.getElem?_eq_some_iff.mp here
    have same : s.users.set t .idle = s.users := by
      rw [← value, List.set_getElem_self]
    have moved : UserEffect s t .idle (s.setUser t .idle) := .moved ⟨by simp, by simp⟩ rfl rfl
    rwa [setUser, same] at moved
  cases call with
  | startRxStreaming channel =>
    simp only [enter]
    split
    · exact stays
    · exact .moved ⟨by simp, by simp⟩ rfl rfl
  | stopRxStreaming channel =>
    simp only [enter]
    split
    · exact stays
    · exact .move (.flushStart true) true ⟨by simp, by simp⟩ rfl rfl
  | rxSamples channel =>
    simp only [enter]
    split
    · exact stays
    · split
      · exact stays
      · exact .moved ⟨by simp, by simp⟩ rfl rfl
  | flushRxSamples channel =>
    simp only [enter]
    split
    · exact stays
    · exact .moved ⟨by simp, by simp⟩ rfl rfl

/-! ## What a step keeps -/

@[simp] theorem setUser_bg : (s.setUser t u).bg = s.bg := rfl

theorem Locks.setUser (locks : s.Locks) (calm : u'.Calm) : (s.setUser t u').Locks where
  channels := locks.channels
  current := locks.current
  orphans := locks.orphans
  starting i waits := by
    rcases getElem?_set_cases waits with ⟨same, -⟩ | ⟨-, old⟩
    · exact absurd same.symm calm.1
    · exact locks.starting i old
  stopping i waits := by
    rcases getElem?_set_cases waits with ⟨same, -⟩ | ⟨-, old⟩
    · exact absurd same.symm calm.2
    · exact locks.stopping i old
  busy := locks.busy

theorem Locks.dequeue (locks : s.Locks) (taken : s.dequeue rp = some (p, s')) :
    s'.Locks ∧ s.d_channel_rings 0 = some rp := by
  obtain ⟨rest, frames, rfl⟩ := dequeue_eq taken
  have current : s.d_channel_rings 0 = some rp := by
    by_contra orphan
    rw [locks.orphans rp orphan] at frames
    cases frames
  refine ⟨⟨locks.channels, ?_, ?_, locks.starting, locks.stopping, locks.busy⟩, current⟩
  · intro r here
    rw [List.length_set]
    exact locks.current r here
  · intro r orphan
    have other : rp ≠ r := fun same => orphan (same ▸ current)
    have empty := locks.orphans r orphan
    rw [ring, List.getD_eq_getElem?_getD] at empty ⊢
    rwa [List.getElem?_set_ne other]

theorem Locks.alone (locks : s.Locks) (owner : s.d_channel_rings_mutex = some (.user t)) :
    (∀ i : Nat, i ≠ t → s.users[i]? ≠ some .startWait ∧ s.users[i]? ≠ some .stopWait) ∧ ¬s.bg.Busy := by
  refine ⟨fun i other => ⟨fun waits => ?_, fun waits => ?_⟩, fun busy => ?_⟩
  · have same := owner.symm.trans (locks.starting i waits).1
    cases same
    exact other rfl
  · have same := owner.symm.trans (locks.stopping i waits)
    cases same
    exact other rfl
  · have same := owner.symm.trans (locks.busy busy)
    cases same

theorem Locks.unowned (locks : s.Locks) (free : s.d_channel_rings_mutex = none) :
    (∀ i : Nat, s.users[i]? ≠ some UserState.startWait ∧ s.users[i]? ≠ some UserState.stopWait) ∧
      ¬s.bg.Busy := by
  refine ⟨fun i => ⟨fun waits => ?_, fun waits => ?_⟩, fun busy => ?_⟩
  · cases free.symm.trans (locks.starting i waits).1
  · cases free.symm.trans (locks.stopping i waits)
  · cases free.symm.trans (locks.busy busy)

theorem Locks.let_go {rings : List HostRing} {channel_rings : UInt32 → Option Nat} {b : Bool}
    (locks : s.Locks) (owner : s.d_channel_rings_mutex = some (.user t))
    (channels : ∀ c, c ≠ 0 → channel_rings c = none)
    (current : ∀ rp, channel_rings 0 = some rp → rp < rings.length)
    (orphans : ∀ rp, channel_rings 0 ≠ some rp → (rings.getD rp ⟨0, []⟩).frames = []) :
    ({ s with
      rings := rings
      d_channel_rings := channel_rings
      d_dont_enqueue := b
      stats := stats }.unlock.setUser t .idle).Locks := by
  have ⟨others, notBusy⟩ := locks.alone owner
  refine ⟨channels, current, orphans, fun i waits => ?_, fun i waits => ?_,
    fun busy => absurd busy notBusy⟩
  · rcases getElem?_set_cases waits with ⟨same, -⟩ | ⟨other, old⟩
    · cases same
    · exact absurd old (others i other).1
  · rcases getElem?_set_cases waits with ⟨same, -⟩ | ⟨other, old⟩
    · cases same
    · exact absurd old (others i other).2

theorem UserEffect.locks (effect : UserEffect s t u s') (here : s.users[t]? = some u)
    (locks : s.Locks) : s'.Locks := by
  cases effect with
  | move u' b calm _ _ =>
    have still : { s with d_dont_enqueue := b }.Locks := { locks with }
    exact still.setUser calm
  | take rp p s₁ u' taken _ calm _ _ => exact (locks.dequeue taken).1.setUser calm
  | release p u' _ calm _ _ =>
    have still : (s.releaseFrame p).Locks := { locks with }
    exact still.setUser calm
  | countOff p u' _ _ calm _ =>
    have still : s.decEnqueued.Locks := { locks with
      busy := by
        unfold decEnqueued
        dsimp only
        split
        · exact False.elim
        · exact locks.busy }
    exact still.setUser calm
  | startLocked _ free silent =>
    have ⟨others, notBusy⟩ := locks.unowned free
    refine ⟨locks.channels, locks.current, locks.orphans, fun i waits => ?_, fun i waits => ?_,
      fun busy => absurd busy notBusy⟩
    · rcases getElem?_set_cases waits with ⟨-, rfl⟩ | ⟨-, old⟩
      · exact ⟨rfl, silent⟩
      · exact absurd old (others i).1
    · rcases getElem?_set_cases waits with ⟨same, -⟩ | ⟨-, old⟩
      · cases same
      · exact absurd old (others i).2
  | stopLocked _ free =>
    have ⟨others, notBusy⟩ := locks.unowned free
    refine ⟨locks.channels, locks.current, locks.orphans, fun i waits => ?_, fun i waits => ?_,
      fun busy => absurd busy notBusy⟩
    · rcases getElem?_set_cases waits with ⟨same, -⟩ | ⟨-, old⟩
      · cases same
      · exact absurd old (others i).1
    · rcases getElem?_set_cases waits with ⟨-, rfl⟩ | ⟨-, old⟩
      · rfl
      · exact absurd old (others i).2
  | started starts =>
    have ⟨owner, silent⟩ := locks.starting t (starts ▸ here)
    refine locks.let_go owner ?_ ?_ ?_
    · intro c other
      rw [Function.update_of_ne other]
      exact locks.channels c other
    · intro rp same
      rw [Function.update_self] at same
      rw [← Option.some.inj same, List.length_append]
      exact Nat.lt_succ_self _
    · intro rp other
      have old := locks.orphans rp (by simp [silent])
      rw [ring, List.getD_eq_getElem?_getD] at old
      rw [List.getD_eq_getElem?_getD, List.getElem?_append]
      split
      · exact old
      · rename_i beyond
        have later : rp - s.rings.length ≠ 0 := by
          intro zero
          rw [Function.update_self] at other
          exact other (congrArg some (by omega))
        rw [List.getElem?_eq_none (Nat.one_le_iff_ne_zero.mpr later)]
        rfl
  | refused starts =>
    have owner := (locks.starting t (starts ▸ here)).1
    exact locks.let_go owner locks.channels locks.current locks.orphans
  | stopped stops empty =>
    refine locks.let_go (locks.stopping t (stops ▸ here)) ?_ ?_ ?_
    · intro c other
      rw [Function.update_of_ne other]
      exact locks.channels c other
    · intro rp same
      rw [Function.update_self] at same
      cases same
    · intro rp _
      by_cases current : s.d_channel_rings 0 = some rp
      · rwa [ringFrames, current] at empty
      · exact locks.orphans rp current

theorem outstanding_setUser (here : s.users[t]? = some u) (u' : UserState) :
    (s.setUser t u').outstanding.length + u.handles.length =
      s.outstanding.length + u'.handles.length := by
  have change := length_flatMap_set UserState.handles here u'
  have ring : (s.setUser t u').ringFrames = s.ringFrames := rfl
  have users : (s.setUser t u').users = s.users.set t u' := rfl
  simp only [outstanding, List.length_append, ring, users]
  omega

theorem unreleased_setUser (here : s.users[t]? = some u) (u' : UserState) (p : EthFrame) :
    (s.setUser t u').unreleased.count p + u.holds.count p =
      s.unreleased.count p + u'.holds.count p := by
  have change := count_flatMap_set UserState.holds here u' p
  have ring : (s.setUser t u').ringFrames = s.ringFrames := rfl
  have users : (s.setUser t u').users = s.users.set t u' := rfl
  simp only [unreleased, List.count_append, ring, users]
  omega

theorem ringFrames_dequeue (locks : s.Locks) (taken : s.dequeue rp = some (p, s')) :
    s.ringFrames = p :: s'.ringFrames := by
  have current := (locks.dequeue taken).2
  obtain ⟨rest, frames, rfl⟩ := dequeue_eq taken
  have inside := locks.current rp current
  rw [ringFrames, ringFrames, current]
  simp [ring, List.getD_eq_getElem?_getD, inside] at frames ⊢
  exact frames

theorem Books.of_frames (books : s.Books) (enqueued : s'.enqueued = s.enqueued)
    (kept : s'.kept = s.kept) (received : s'.received = s.received)
    (bg : s'.bg.pending = s.bg.pending ∧ s'.bg.taken = s.bg.taken)
    (count : (s'.d_num_enqueued.toNat + s'.uncounted) % 2 ^ 32 = s'.outstanding.length % 2 ^ 32)
    (nonzero : s'.bg = .waiting → s'.d_num_enqueued ≠ 0)
    (ledger : ∀ p, (s'.unreleased ++ s'.released).count p = s.enqueued.count p) : s'.Books where
  count := count
  nonzero := nonzero
  ledger := enqueued ▸ ledger
  once := enqueued ▸ books.once
  known := enqueued ▸ received ▸ books.known
  pending := enqueued ▸ received ▸ bg.1 ▸ books.pending
  kept := enqueued ▸ kept ▸ books.kept
  taken := enqueued ▸ bg.2 ▸ books.taken

theorem decEnqueued_bg : s.decEnqueued.bg.pending = s.bg.pending ∧
    s.decEnqueued.bg.taken = s.bg.taken ∧ s.decEnqueued.uncounted = s.uncounted := by
  unfold uncounted decEnqueued
  dsimp only
  split
  · rename_i both
    rw [both.2]
    exact ⟨rfl, rfl, rfl⟩
  · exact ⟨rfl, rfl, rfl⟩

theorem Books.moved {s₁ : HostRx} (books : s.Books) (users : s₁.users = s.users)
    (ring : s₁.ringFrames = s.ringFrames)
    (same : s₁.enqueued = s.enqueued ∧ s₁.kept = s.kept ∧ s₁.released = s.released ∧
      s₁.received = s.received ∧ s₁.bg = s.bg ∧ s₁.d_num_enqueued = s.d_num_enqueued)
    (here : s.users[t]? = some u) (holds : u'.holds = u.holds) (handles : u'.handles = u.handles) :
    (s₁.setUser t u').Books := by
  obtain ⟨enqueued, kept, released, received, bg, count⟩ := same
  have here₁ : s₁.users[t]? = some u := users ▸ here
  have uncounted : (s₁.setUser t u').uncounted = s.uncounted := by
    simp only [HostRx.uncounted, setUser_bg, bg]
  have lengths := outstanding_setUser here₁ u'
  have length : s₁.outstanding.length = s.outstanding.length := by
    rw [outstanding, outstanding, ring, users]
  rw [handles, length] at lengths
  refine books.of_frames enqueued kept received ⟨congrArg _ bg, congrArg _ bg⟩ ?_ ?_ fun p => ?_
  · rw [uncounted, Nat.add_right_cancel lengths, ← books.count]
    exact congrArg (fun n : UInt32 => (n.toNat + s.uncounted) % 2 ^ 32) count
  · rw [setUser_bg, bg]
    exact fun waits => count.symm ▸ books.nonzero waits
  · have counts := unreleased_setUser here₁ u' p
    have before : s₁.unreleased = s.unreleased := by
      rw [unreleased, unreleased, ring, users]
    rw [holds, before] at counts
    have released' : (s₁.setUser t u').released = s.released := released
    rw [← books.ledger p, List.count_append, List.count_append, Nat.add_right_cancel counts,
      released']

theorem UserEffect.books (effect : UserEffect s t u s') (here : s.users[t]? = some u)
    (locks : s.Locks) (books : s.Books) : s'.Books := by
  cases effect with
  | move u' b _ holds handles =>
    exact books.moved rfl rfl ⟨rfl, rfl, rfl, rfl, rfl, rfl⟩ here holds handles
  | take rp p s₁ u' taken handles _ holds' handles' =>
    have frames := ringFrames_dequeue locks taken
    obtain ⟨rest, -, rfl⟩ := dequeue_eq taken
    let s₁ := { s with rings := s.rings.set rp { s.ring rp with frames := rest } }
    have outstanding : s.outstanding = p :: s₁.outstanding := by
      rw [HostRx.outstanding, frames]
      rfl
    have unreleased : s.unreleased = p :: s₁.unreleased := by
      rw [HostRx.unreleased, frames]
      rfl
    refine books.of_frames rfl rfl rfl ⟨rfl, rfl⟩ ?_ books.nonzero fun q => ?_
    · have lengths := @outstanding_setUser s₁ t u here u'
      have before := books.count
      rw [outstanding, List.length_cons] at before
      rw [handles, handles', List.length_nil, List.length_singleton, Nat.add_zero] at lengths
      rw [lengths]
      exact before
    · have counts := @unreleased_setUser s₁ t u here u' q
      have before := books.ledger q
      rw [unreleased, List.count_append, ← List.singleton_append, List.count_append] at before
      rw [holds_of_handles handles, holds', List.count_nil, Nat.add_zero] at counts
      rw [List.count_append, counts, ← before]
      change s₁.unreleased.count q + _ + s.released.count q = _
      omega
  | release p u' holds _ holds' handles =>
    have same : (s.releaseFrame p).outstanding = s.outstanding ∧
        (s.releaseFrame p).unreleased = s.unreleased := ⟨rfl, rfl⟩
    refine books.of_frames rfl rfl rfl ⟨rfl, rfl⟩ ?_ books.nonzero fun q => ?_
    · have lengths := @outstanding_setUser (s.releaseFrame p) t u here u'
      rw [handles, same.1] at lengths
      rw [Nat.add_right_cancel lengths]
      exact books.count
    · have counts := @unreleased_setUser (s.releaseFrame p) t u here u' q
      have before := books.ledger q
      have released : ((s.releaseFrame p).setUser t u').released = s.released ++ [p] := rfl
      rw [holds, holds', same.2, List.count_nil, Nat.add_zero] at counts
      rw [List.count_append] at before
      rw [List.count_append, released, List.count_append, ← before, ← counts]
      omega
  | countOff p u' holds handles _ handles' =>
    have same : s.decEnqueued.outstanding = s.outstanding ∧
        s.decEnqueued.unreleased = s.unreleased := ⟨rfl, rfl⟩
    have ⟨pending, taken, uncounted⟩ := @decEnqueued_bg s
    refine books.of_frames rfl rfl rfl ⟨pending, taken⟩ ?_ ?_ fun q => ?_
    · have lengths := @outstanding_setUser s.decEnqueued t u here u'
      have before := books.count
      have unchanged : (s.decEnqueued.setUser t u').uncounted = s.uncounted := uncounted
      have number : (s.decEnqueued.setUser t u').d_num_enqueued = s.d_num_enqueued - 1 := rfl
      rw [handles, handles', same.1, List.length_nil, List.length_singleton] at lengths
      rw [unchanged, number, UInt32.toNat_sub]
      have one : (1 : UInt32).toNat = 1 := rfl
      omega
    · intro waits zero
      rw [setUser_bg, decEnqueued] at waits
      dsimp only at waits
      split at waits
      · cases waits
      · rename_i other
        exact other ⟨zero, waits⟩
    · have counts := @unreleased_setUser s.decEnqueued t u here u' q
      rw [holds, holds_of_handles handles', same.2] at counts
      rw [← books.ledger q, List.count_append, List.count_append, Nat.add_right_cancel counts]
      rfl
  | startLocked handles _ _ =>
    exact books.moved rfl rfl ⟨rfl, rfl, rfl, rfl, rfl, rfl⟩ here (holds_of_handles handles).symm
      handles.symm
  | stopLocked handles _ =>
    exact books.moved rfl rfl ⟨rfl, rfl, rfl, rfl, rfl, rfl⟩ here (holds_of_handles handles).symm
      handles.symm
  | started starts =>
    subst starts
    have silent := (locks.starting t here).2
    refine books.moved rfl ?_ ⟨rfl, rfl, rfl, rfl, rfl, rfl⟩ here rfl rfl
    simp [ringFrames, unlock, silent, ring, List.getD_eq_getElem?_getD]
  | refused starts =>
    subst starts
    exact books.moved rfl rfl ⟨rfl, rfl, rfl, rfl, rfl, rfl⟩ here rfl rfl
  | stopped stops empty =>
    subst stops
    refine books.moved rfl ?_ ⟨rfl, rfl, rfl, rfl, rfl, rfl⟩ here rfl rfl
    rw [empty]
    simp [ringFrames, unlock]

/-! ## The background thread -/

theorem Locks.background {received : Nat} {count : UInt32} (locks : s.Locks)
    (busy : bg.Busy → s.d_channel_rings_mutex = some .bg) :
    { s with
      bg := bg
      received := received
      d_num_enqueued := count
      stats := stats
      kept := kept }.Locks :=
  { locks with busy := busy }

theorem Locks.bg_unlock (locks : s.Locks) (busy : s.bg.Busy) :
    { s.unlock with kept := kept, bg := .rxFrames }.Locks := by
  have owner := locks.busy busy
  refine { locks with
    starting := fun i waits => ?_
    stopping := fun i waits => ?_
    busy := by simp [BgState.Busy] }
  · cases owner.symm.trans (locks.starting i waits).1
  · cases owner.symm.trans (locks.stopping i waits)

theorem ring_enqueue {ring : HostRing} (enqueued : (s.ring rp).enqueue pkt = some ring) :
    ring.frames = (s.ring rp).frames ++ [pkt] := by
  unfold HostRing.enqueue at enqueued
  split at enqueued
  · cases enqueued
  · cases enqueued
    rfl

theorem Locks.channel_zero (locks : s.Locks) {chan : UInt32}
    (current : s.d_channel_rings chan = some rp) : s.d_channel_rings 0 = some rp := by
  by_cases zero : chan = 0
  · exact zero ▸ current
  · cases (locks.channels chan zero).symm.trans current

theorem ringFrames_set (locks : s.Locks) (current : s.d_channel_rings 0 = some rp)
    (ring : HostRing) : { s with rings := s.rings.set rp ring }.ringFrames = ring.frames := by
  have inside := locks.current rp current
  simp [ringFrames, current, HostRx.ring, List.getD_eq_getElem?_getD, inside]

theorem background_locks (locks : s.Locks) (stepped : s.background = some s') : s'.Locks := by
  unfold HostRx.background at stepped
  cases here : s.bg with
  | rxFrames =>
    rw [here] at stepped
    cases stepped
    exact locks.background (by simp [BgState.Busy])
  | handling pkt =>
    rw [here] at stepped
    cases stepped
    exact locks.background (by simp [BgState.Busy])
  | locking pkt =>
    rw [here] at stepped
    obtain ⟨s₁, locked, rfl⟩ := Option.map_eq_some_iff.mp stepped
    obtain ⟨free, rfl⟩ := lock_eq locked
    have others := (locks.unowned free).1
    exact { locks with
      starting := fun i waits => absurd waits (others i).1
      stopping := fun i waits => absurd waits (others i).2
      busy := fun _ => rfl }
  | locked pkt =>
    rw [here] at stepped
    cases stepped
    have busy : s.bg.Busy := here ▸ trivial
    unfold enqueuePacket
    split
    · exact locks.bg_unlock busy
    · rename_i rp current
      split
      · exact locks.bg_unlock busy
      · have zero := locks.channel_zero current
        refine { locks with
          current := fun r here => ?_
          orphans := fun r orphan => ?_
          busy := fun _ => locks.busy busy }
        · rw [List.length_set]
          exact locks.current r here
        · have other : rp ≠ r := fun same => orphan (same ▸ zero)
          have empty := locks.orphans r orphan
          rw [HostRx.ring, List.getD_eq_getElem?_getD] at empty ⊢
          rwa [List.getElem?_set_ne other]
  | counting pkt =>
    rw [here] at stepped
    cases stepped
    exact locks.background fun _ => locks.busy (here ▸ trivial)
  | keeping pkt =>
    rw [here] at stepped
    cases stepped
    exact locks.bg_unlock (here ▸ trivial)
  | checking =>
    rw [here] at stepped
    cases stepped
    refine locks.background ?_
    split <;> exact False.elim
  | waiting =>
    rw [here] at stepped
    cases stepped
    exact locks.background (by simp [BgState.Busy])

theorem Books.goes_on {owner : Option MutexOwner} (books : s.Books)
    (uncounted : { s with bg := bg }.uncounted = s.uncounted)
    (nonzero : bg = .waiting → s.d_num_enqueued ≠ 0)
    (pending : ∀ p, bg.pending = some p → s.bg.pending = some p)
    (taken : ∀ p, bg.taken = some p → s.bg.taken = some p) :
    { s with bg := bg, stats := stats, d_channel_rings_mutex := owner }.Books :=
  { books with
    count := by
      have before := books.count
      rw [← uncounted] at before
      exact before
    nonzero := nonzero
    pending := fun p waits => books.pending p (pending p waits)
    taken := fun p waits => books.taken p (taken p waits) }

theorem enqueuePacket_books (locks : s.Locks) (books : s.Books) (here : s.bg = .locked pkt) :
    (s.enqueuePacket pkt).Books := by
  have ⟨known, other⟩ := books.pending pkt (here ▸ rfl)
  have uncounted : s.uncounted = 0 := by rw [HostRx.uncounted, here]
  have released : { s.unlock with bg := .rxFrames }.Books :=
    books.goes_on uncounted.symm (by simp) (by simp [BgState.pending])
      (by simp [BgState.taken])
  unfold enqueuePacket
  split
  · exact released
  · rename_i rp current
    split
    · exact released
    · rename_i ring enqueued
      have zero := locks.channel_zero current
      have frames := ringFrames_set locks zero ring
      rw [ring_enqueue enqueued] at frames
      have old : s.ringFrames = (s.ring rp).frames := by rw [ringFrames, zero]
      have fresh : pkt ∉ s.enqueued := fun mem => other pkt mem rfl
      refine
        { count := ?_
          nonzero := by simp
          ledger := fun p => ?_
          once := fun p => ?_
          known := fun p mem => ?_
          pending := by simp [BgState.pending]
          kept := fun p mem => List.mem_append_left _ (books.kept p mem)
          taken := fun p same => ?_ }
      · have before := books.count
        rw [uncounted, outstanding, old, List.length_append] at before
        change (s.d_num_enqueued.toNat + 1) % 2 ^ 32 =
          (({ s with rings := s.rings.set rp ring } : HostRx).ringFrames ++
            s.users.flatMap UserState.handles).length % 2 ^ 32
        rw [frames, List.length_append, List.length_append, List.length_singleton]
        omega
      · have before := books.ledger p
        rw [unreleased, old, List.count_append, List.count_append] at before
        change (({ s with rings := s.rings.set rp ring } : HostRx).ringFrames ++
          s.users.flatMap UserState.holds ++ s.released).count p = _
        rw [frames, List.count_append, List.count_append, List.count_append, List.count_append,
          ← before]
        omega
      · have before := books.once p
        rw [List.count_append, List.count_singleton]
        split
        · rename_i same
          rw [eq_of_beq same] at fresh
          rw [List.count_eq_zero_of_not_mem fresh]
        · exact before
      · rcases List.mem_append.mp mem with old | new
        · exact books.known p old
        · rw [List.mem_singleton.mp new]
          exact known
      · cases same
        exact List.mem_append_right _ (List.mem_singleton_self _)

theorem count_books (books : s.Books) (here : s.bg = .counting pkt) :
    { s.incEnqueued with bg := .keeping pkt }.Books :=
  { books with
    count := by
      have before := books.count
      have uncounted : s.uncounted = 1 := by rw [HostRx.uncounted, here]
      have number : s.incEnqueued.d_num_enqueued.toNat = (s.d_num_enqueued.toNat + 1) % 2 ^ 32 :=
        UInt32.toNat_add _ _
      rw [uncounted] at before
      change (s.incEnqueued.d_num_enqueued.toNat + 0) % 2 ^ 32 = s.outstanding.length % 2 ^ 32
      rw [number, Nat.add_zero, Nat.mod_mod, before]
    nonzero := by simp
    pending := by simp [BgState.pending]
    taken := fun p same => books.taken p (here ▸ same) }

theorem keep_books (books : s.Books) (here : s.bg = .keeping pkt) :
    { s.unlock with kept := s.kept ++ [pkt], bg := .rxFrames }.Books :=
  { books with
    count := by
      have before := books.count
      have uncounted : s.uncounted = 0 := by rw [HostRx.uncounted, here]
      rw [uncounted] at before
      exact before
    nonzero := by simp
    pending := by simp [BgState.pending]
    kept := fun p mem => by
      rcases List.mem_append.mp mem with old | new
      · exact books.kept p old
      · rw [List.mem_singleton.mp new]
        exact books.taken pkt (here ▸ rfl)
    taken := by simp [BgState.taken] }

theorem background_books (locks : s.Locks) (books : s.Books)
    (stepped : s.background = some s') : s'.Books := by
  unfold HostRx.background at stepped
  cases here : s.bg with
  | rxFrames =>
    rw [here] at stepped
    cases stepped
    exact books.goes_on (by simp [uncounted, here]) (by simp) (by simp [BgState.pending])
      (by simp [BgState.taken])
  | handling pkt =>
    rw [here] at stepped
    cases stepped
    exact books.goes_on (by simp [uncounted, here]) (by simp) (fun p same => here ▸ same)
      (by simp [BgState.taken])
  | locking pkt =>
    rw [here] at stepped
    obtain ⟨s₁, locked, rfl⟩ := Option.map_eq_some_iff.mp stepped
    obtain ⟨free, rfl⟩ := lock_eq locked
    exact books.goes_on (by simp [uncounted, here]) (by simp) (fun p same => here ▸ same)
      (by simp [BgState.taken])
  | locked pkt =>
    rw [here] at stepped
    cases stepped
    exact enqueuePacket_books locks books here
  | counting pkt =>
    rw [here] at stepped
    cases stepped
    exact count_books books here
  | keeping pkt =>
    rw [here] at stepped
    cases stepped
    exact keep_books books here
  | checking =>
    rw [here] at stepped
    cases stepped
    by_cases more : 0 < s.d_num_enqueued
    · rw [if_pos more]
      have nonzero : s.d_num_enqueued ≠ 0 := fun zero => by
        rw [zero] at more
        exact absurd more (by decide)
      exact books.goes_on (by simp [uncounted, here]) (fun _ => nonzero)
        (by simp [BgState.pending]) (by simp [BgState.taken])
    · rw [if_neg more]
      exact books.goes_on (by simp [uncounted, here]) (by simp) (by simp [BgState.pending])
        (by simp [BgState.taken])
  | waiting =>
    rw [here] at stepped
    cases stepped
    exact books.goes_on (by simp [uncounted, here]) (by simp) (by simp [BgState.pending])
      (by simp [BgState.taken])

theorem Books.received (books : s.Books) : { s with received := s.received + 1 }.Books :=
  { books with
    known := fun p mem => Nat.lt_succ_of_lt (books.known p mem)
    pending := fun p waits => ⟨Nat.lt_succ_of_lt (books.pending p waits).1, (books.pending p waits).2⟩ }

theorem frame_books (books : s.Books) (here : s.bg = .rxFrames) (base : pkt.base = s.received) :
    ({ s with received := s.received + 1 }.handlePacket pkt).Books := by
  have before := books.received
  unfold handlePacket
  split
  · exact before
  · split
    · exact before
    · exact { before with
        count := by
          have count := books.count
          have uncounted : s.uncounted = 0 := by rw [HostRx.uncounted, here]
          rw [uncounted] at count
          exact count
        nonzero := by simp
        pending := fun p waits => by
          cases waits
          exact ⟨base ▸ Nat.lt_succ_self _, fun q mem => base ▸ (books.known q mem).ne⟩
        taken := by simp [BgState.taken] }

theorem frame_locks (locks : s.Locks) (here : s.bg = .rxFrames) :
    ({ s with received := s.received + 1 }.handlePacket pkt).Locks := by
  have idle : ¬s.bg.Busy := fun busy => by rw [here] at busy; exact busy
  unfold handlePacket
  split
  · exact locks.background fun busy => absurd busy idle
  · split
    · exact locks.background fun busy => absurd busy idle
    · exact locks.background (by simp [BgState.Busy])

/-! ## Runs -/

theorem step_kept {a : HostAction} (sound : s.Locks ∧ s.Books) (clean : s.Clean a)
    (stepped : hostStep s a = some s') : s'.Locks ∧ s'.Books := by
  have ⟨locks, books⟩ := sound
  have kept {t : Nat} {u : UserState} (here : s.users[t]? = some u)
      (effect : UserEffect s t u s') : s'.Locks ∧ s'.Books :=
    ⟨effect.locks here locks, effect.books here locks books⟩
  cases a with
  | frame seqno word0 timestamp len =>
    simp only [hostStep] at stepped
    split at stepped
    · rename_i here
      cases stepped
      exact ⟨frame_locks locks here, frame_books books here rfl⟩
    · cases stepped
  | background => exact ⟨background_locks locks stepped, background_books locks books stepped⟩
  | call t call =>
    simp only [hostStep] at stepped
    split at stepped
    · rename_i here
      cases stepped
      exact kept here (enter_effect here call)
    · cases stepped
  | user t =>
    obtain ⟨u, here, goes⟩ := Option.bind_eq_some_iff.mp stepped
    exact kept here (userStep_effect clean here goes)
  | reply t success =>
    obtain ⟨u, here, goes⟩ := Option.bind_eq_some_iff.mp stepped
    exact kept here (reply_effect clean here goes)
  | handler t want_more =>
    obtain ⟨u, here, goes⟩ := Option.bind_eq_some_iff.mp stepped
    exact kept here (handled_effect goes)

theorem initial_idle {max_frames n i : Nat} (here : (initial max_frames n).users[i]? = some u) :
    u = .idle :=
  List.eq_of_mem_replicate (List.mem_of_getElem? here)

theorem initial_kept (max_frames n : Nat) :
    (initial max_frames n).Locks ∧ (initial max_frames n).Books := by
  let s₀ := initial max_frames n
  refine ⟨⟨fun _ _ => rfl, by simp [initial], fun _ _ => rfl, fun i waits => ?_,
    fun i waits => ?_, by simp [initial, BgState.Busy]⟩,
    ⟨?_, by simp [initial], fun p => ?_, fun p => Nat.zero_le _, by simp [initial],
      by simp [initial, BgState.pending], by simp [initial], by simp [initial, BgState.taken]⟩⟩
  · cases initial_idle waits
  · cases initial_idle waits
  · simp [initial, outstanding, ringFrames, uncounted, UserState.handles]
  · have none : s₀.users.flatMap UserState.holds = [] :=
      List.flatMap_eq_nil_iff.mpr fun u mem => by rw [List.eq_of_mem_replicate mem]; rfl
    rw [unreleased, none]
    rfl

theorem Books.accounted (books : s.Books) : s.Accounted where
  count := by
    have before := books.count
    refine UInt32.toNat_inj.mp ?_
    rw [UInt32.toNat_add, UInt32.toNat_ofNat', UInt32.toNat_ofNat', Nat.add_mod_mod]
    exact before
  once p mem := by
    have enqueued := List.count_pos_iff.mpr (books.kept p mem)
    rw [books.ledger p]
    exact Nat.le_antisymm (books.once p) enqueued
  waits waiting none := by
    have count := books.count
    have uncounted : s.uncounted = 0 := by rw [HostRx.uncounted, waiting]
    have small := s.d_num_enqueued.toNat_lt
    rw [uncounted, none, Nat.add_zero, Nat.mod_eq_of_lt small] at count
    exact books.nonzero waiting (UInt32.toNat_inj.mp count)

/-- As long as `rx_samples` finds a fixed header in every frame and `stop_rx_streaming` lets go of
empty rings only, the accounts are right after every step. -/
theorem accounted_of_clean {max_frames n : Nat} {actions : List HostAction}
    (clean : Throughout Clean hostStep (initial max_frames n) actions)
    (reached : run hostStep (initial max_frames n) actions = some s) : s.Accounted :=
  (run_invariant_of (fun s : HostRx => s.Locks ∧ s.Books) (fun _ _ _ => step_kept)
    (initial_kept max_frames n) clean reached).2.accounted

/-- The background thread takes a data frame of channel 0 and reports it. -/
def takeFrame (len : Nat) : List HostAction :=
  .frame 0 0 0 len :: List.replicate 5 .background

def startStream : List HostAction :=
  [.call 0 (.startRxStreaming 0), .user 0, .reply 0 true]

/-- A frame is received, looked at and released while the background thread waits, another is
flushed, and the stream is stopped. -/
def stoppedRun : List HostAction :=
  startStream ++ takeFrame 12 ++ [.background, .background, .call 0 (.rxSamples 0), .user 0,
    .user 0, .handler 0 false, .user 0, .background] ++ takeFrame 8 ++
    [.call 0 (.stopRxStreaming 0), .user 0, .user 0, .user 0, .user 0, .user 0, .user 0,
    .reply 0 true]

theorem accounted_of_clean_stopped : ∃ s, run hostStep (initial 8 1) stoppedRun = some s ∧
    s.kept.length = 2 ∧ s.Accounted := by
  have run : (run hostStep (initial 8 1) stoppedRun).map (·.kept.length) = some 2 := by
    decide +kernel
  obtain ⟨s, reached, kept⟩ := Option.map_eq_some_iff.mp run
  exact ⟨s, reached, kept, accounted_of_clean (by decide +kernel) reached⟩

/-- The frame is too short for a fixed header: `rx_samples` drops it, and the background thread
waits for it. -/
def droppedRun : List HostAction :=
  startStream ++ takeFrame 4 ++
    [.call 0 (.rxSamples 0), .user 0, .user 0, .background, .background]

/-- The frame is enqueued after `stop_rx_streaming` has flushed the ring, and goes with the ring. -/
def resetRun : List HostAction :=
  startStream ++ [.frame 0 0 0 12, .background, .call 0 (.stopRxStreaming 0), .user 0, .user 0,
    .background, .background, .background, .background, .user 0, .reply 0 true, .background,
    .background]

theorem waiting_unaccounted {actions : List HostAction}
    (ends : (run hostStep (initial 8 1) actions).map (fun s => (s.bg, s.outstanding)) =
      some (.waiting, [])) : ∃ s, run hostStep (initial 8 1) actions = some s ∧ ¬s.Accounted := by
  obtain ⟨s, reached, waits⟩ := Option.map_eq_some_iff.mp ends
  have ⟨waiting, nothing⟩ := Prod.mk.inj waits
  exact ⟨s, reached, fun accounted => accounted.waits waiting nothing⟩

theorem dropped_frames_unaccounted :
    (∃ s, run hostStep (initial 8 1) droppedRun = some s ∧ ¬s.Accounted) ∧
      ∃ s, run hostStep (initial 8 1) resetRun = some s ∧ ¬s.Accounted :=
  ⟨waiting_unaccounted (by decide +kernel), waiting_unaccounted (by decide +kernel)⟩

end HostRx

end GnuRadio.Usrp2
