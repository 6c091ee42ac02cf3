import GnuRadio.Misc.Fairness
import GnuRadio.Runtime.TpbThreadBody
import Mathlib.Data.Prod.Lex

/-!
# No lost wake-up

A thread clears its flags before it looks at its buffers, and every thread that
has produced or consumed something notifies the neighbours it did this for before
it starts over. So a neighbour's progress since a thread last cleared its flags
has set the flag of the thread, or its notification is still to come.
-/

namespace GnuRadio

variable {α τ μ : Type} {env : Blocks} {w w' : World α τ μ} {b u : BlockId} {side : Side}

namespace Heap

variable {h h' : Heap α τ}

/-- Block `u` writes a buffer that block `b` reads. -/
def Feeds (h : Heap α τ) (u b : BlockId) : Prop :=
  ∃ du db p, h.detail u = some du ∧ h.detail b = some db ∧ some p ∈ db.input ∧
    p.buffer ∈ du.output

/-- The neighbours of block `b`: upstream at its input side, downstream at its output side. -/
def Neighbour (h : Heap α τ) (side : Side) (u b : BlockId) : Prop :=
  match side with
  | .input => h.Feeds u b
  | .output => h.Feeds b u

theorem Feeds.sameWires (feeds : h.Feeds u b) (same : SameWires h h') : h'.Feeds u b := by
  obtain ⟨du, db, p, writer, reader, input, output⟩ := feeds
  obtain ⟨du', writer', -, outputs⟩ := same.symm.detail writer
  obtain ⟨db', reader', inputs, -⟩ := same.symm.detail reader
  exact ⟨du', db', p, writer', reader', inputs ▸ input, outputs ▸ output⟩

theorem Neighbour.sameWires (next : h.Neighbour side u b) (same : SameWires h h') :
    h'.Neighbour side u b := by
  cases side with
  | input => exact Feeds.sameWires next same
  | output => exact Feeds.sameWires next same

variable {d : BlockDetail} {left : List (Side × BlockId)}

theorem mem_notifyDownstream (wired : h.Wired env) (feeds : h.Feeds u b)
    (detail : h.detail u = some d) : (Side.input, b) ∈ h.notifyDownstream d := by
  obtain ⟨du, db, p, writer, reader, input, output⟩ := feeds
  rw [detail] at writer
  obtain rfl := Option.some.inj writer
  obtain ⟨r, member, same⟩ := List.mem_map.mp (wired.reader b db p reader input)
  refine List.mem_flatMap.mpr ⟨p.buffer, output, List.mem_map.mpr ⟨r, member, ?_⟩⟩
  rw [(Prod.mk.inj same).2]

theorem mem_notifyUpstream (wired : h.Wired env) (feeds : h.Feeds b u)
    (detail : h.detail u = some d) (targets : h.notifyUpstream d = .ok left) :
    (Side.output, b) ∈ left := by
  obtain ⟨db, du, p, writer, reader, input, output⟩ := feeds
  rw [detail] at reader
  obtain rfl := Option.some.inj reader
  obtain ⟨target, member, told⟩ := mapM_mem targets input
  rw [← Except.ok.inj told] at member
  rwa [← wired.writer b db p.buffer writer output]

theorem mem_notifyNeighbors (wired : h.Wired env) (next : h.Neighbour side u b)
    (detail : h.detail u = some d) (targets : h.notifyNeighbors d = .ok left) :
    (side, b) ∈ left := by
  obtain ⟨upstream, found, same⟩ := bind_ok.mp targets
  obtain rfl := pure_ok.mp same
  cases side with
  | input => exact List.mem_append_left _ (mem_notifyDownstream wired next detail)
  | output => exact List.mem_append_right _ (mem_notifyUpstream wired next detail found)

theorem notifyUpstream_total (wired : h.Wired env) (detail : h.detail b = some d) :
    ∃ left, h.notifyUpstream d = .ok left := by
  apply mapM_total
  intro p member
  cases p with
  | none => exact absurd member (wired.inputs b d detail)
  | some p => exact ⟨_, rfl⟩

theorem notifyNeighbors_total (wired : h.Wired env) (detail : h.detail b = some d) :
    ∃ left, h.notifyNeighbors d = .ok left := by
  obtain ⟨left, upstream⟩ := notifyUpstream_total wired detail
  exact ⟨_, bind_ok.mpr ⟨left, upstream, rfl⟩⟩

end Heap

namespace World

/-! ## Progress and its notification -/

/-- The thread of a block produces items, or consumes some, in a step: progress for its
neighbours on whose input, or output, side this is. -/
def Progresses (w : World α τ μ) (u : BlockId) (side : Side) : ThreadAction α τ → Prop
  | .advance => side = .input ∧ ∃ id left n, w.phase u = .producing (id :: left) n
  | .call (.produce _ n) => side = .input ∧ 0 < n
  | .call (.consume _ n) => side = .output ∧ 0 < n
  | .call (.consumeEach n) => side = .output ∧ 0 < n
  | _ => False

/-- The thread of a block clears its flags in a step. -/
def Clears (w : World α τ μ) (b : BlockId) (e : Action α τ μ) : Prop :=
  w.phase b = .clearing ∧ ∃ a, e = .thread b a

/-- The thread of `u` is in an iteration at whose end it notifies `b` on a side, and has not
done so yet. -/
def Pending (w : World α τ μ) (u : BlockId) (side : Side) (b : BlockId) : Prop :=
  match w.phase u with
  | .working _ produced => side = .input → produced = true
  | .propagating _ _ produced _ => side = .input → produced = true
  | .producing _ _ => True
  | .wereDone => True
  | .notifying left _ => (side, b) ∈ left
  | _ => False

/-- A thread in `wait` that has not been notified has nothing to see. -/
def SleepsUntold (w : World α τ μ) : Prop :=
  ∀ b side, w.phase b = .asleep side false → (w.tpb b).changed side = false

/-! ## What one step does to the threads and flags -/

variable {c : BlockId} {d : BlockDetail} {g : GrBlock} {a : ThreadAction α τ} {e : Action α τ μ}

theorem Moves.phase_other (moves : w.Moves b d g a w') (other : c ≠ b) : w'.phase c = w.phase c ∨
    ∃ on notified, w.phase c = .asleep on notified ∧ w'.phase c = .asleep on true := by
  cases moves with
  | handleMessage | handlePending | askSpace => exact Or.inl rfl
  | noMessage | clear | decide | call | addTag | collect | produce | ready | markDone | told =>
    exact Or.inl (goto_phase_of_ne _ other)
  | workReturns =>
    obtain ⟨phase, same, -⟩ := workReturns_eq (w := w) (b := b) (d := d) (g := g) _ _ _
    rw [same]
    exact Or.inl (goto_phase_of_ne _ other)
  | settle _ settled =>
    obtain ⟨_, rfl, -⟩ := settle_ok settled
    exact Or.inl (goto_phase_of_ne _ other)
  | @tell on told left last here =>
    have before : ((w.goto b (.notifying left last)).mapTpb told (·.setChanged on)).phase c =
        w.phase c := goto_phase_of_ne _ other
    rw [setChanged, ← before]
    exact notifyOne_phase on
  | block | nonePending =>
    obtain ⟨_, same, -⟩ := testOuter_eq (w := w) (b := b) _
    rw [same]
    exact Or.inl (goto_phase_of_ne _ other)
  | wake =>
    obtain ⟨_, same, -⟩ := testInner_eq (w := w) (b := b) _
    rw [same]
    exact Or.inl (goto_phase_of_ne _ other)

theorem phase_awake (moves : TpbMoves env w e w') (other : e.owner ≠ some c)
    (awake : ∀ on notified, w.phase c ≠ .asleep on notified) : w'.phase c = w.phase c := by
  cases moves with
  | thread _ _ moves =>
    refine (moves.phase_other fun same => other (congrArg some same.symm)).resolve_right ?_
    rintro ⟨on, notified, sleeps, -⟩
    exact awake on notified sleeps
  | post b msg =>
    have first : (((w.mapTpb b (·.insertTail msg)).notifyOne b .input).phase c) = w.phase c := by
      refine (notifyOne_phase _).resolve_right ?_
      rintro ⟨on, notified, sleeps, -⟩
      exact awake on notified sleeps
    refine Eq.trans ((notifyOne_phase (w := (w.mapTpb b (·.insertTail msg)).notifyOne b .input)
      Side.output).resolve_right ?_) first
    rintro ⟨on, notified, sleeps, -⟩
    exact awake on notified (first.symm.trans sleeps)
  | @spuriousWake b on notified here =>
    obtain ⟨_, same, -⟩ := testInner_eq (w := w) (b := b) on
    rw [same]
    refine goto_phase_of_ne _ ?_
    rintro rfl
    exact awake on notified here

variable {f : TpbDetail μ → TpbDetail μ} {on : Side} {after : List (Action α τ μ)}

theorem mapTpb_changed (kept : ∀ t : TpbDetail μ, t.changed side = true → (f t).changed side = true)
    (flag : (w.tpb c).changed side = true) : ((w.mapTpb b f).tpb c).changed side = true := by
  by_cases same : c = b
  · subst same
    rw [mapTpb_tpb_self]
    exact kept _ flag
  · rwa [mapTpb_tpb_of_ne _ same]

theorem Moves.changed (moves : w.Moves b d g a w') (stays : w.phase c = .clearing → c ≠ b)
    (flag : (w.tpb c).changed side = true) : (w'.tpb c).changed side = true := by
  cases moves with
  | handleMessage | handlePending => exact mapTpb_changed (fun t => by cases side <;> exact id) flag
  | askSpace | noMessage | decide | call | addTag | collect | produce | ready | markDone | told =>
    exact flag
  | clear here =>
    rw [goto_tpb, mapTpb_tpb_of_ne]
    · exact flag
    · rintro rfl
      exact stays here rfl
  | workReturns =>
    obtain ⟨phase, same, -⟩ := workReturns_eq (w := w) (b := b) (d := d) (g := g) _ _ _
    rw [same]
    exact flag
  | settle _ settled =>
    obtain ⟨_, rfl, -⟩ := settle_ok settled
    exact flag
  | tell =>
    rw [setChanged, notifyOne_tpb]
    exact mapTpb_changed (fun t => t.setChanged_changed) flag
  | block | nonePending =>
    obtain ⟨_, same, -⟩ := testOuter_eq (w := w) (b := b) _
    rw [same]
    exact flag
  | wake =>
    obtain ⟨_, same, -⟩ := testInner_eq (w := w) (b := b) _
    rw [same]
    exact flag

theorem changed_step (moves : TpbMoves env w e w') (stays : ¬ w.Clears c e)
    (flag : (w.tpb c).changed side = true) : (w'.tpb c).changed side = true := by
  cases moves with
  | @thread b _ _ a _ _ _ moves =>
    refine moves.changed ?_ flag
    rintro here rfl
    exact stays ⟨here, a, rfl⟩
  | post b msg =>
    rw [post, notifyOne_tpb, notifyOne_tpb]
    exact mapTpb_changed (fun t => by rw [TpbDetail.insertTail_changed]; exact id) flag
  | spuriousWake =>
    obtain ⟨_, same, -⟩ := testInner_eq (w := w) _
    rw [same]
    exact flag

theorem Pending.own (pending : w.Pending u side b) (wired : w.heap.Wired env)
    (next : w.heap.Neighbour side u b) (detail : w.heap.detail u = some d)
    (moves : w.Moves u d g a w') : (w'.tpb b).changed side = true ∨ w'.Pending u side b := by
  unfold Pending at pending ⊢
  cases moves with
  | handleMessage here | noMessage here | clear here | askSpace here | decide here | told here
  | block here | wake here | handlePending here | nonePending here =>
    rw [here] at pending
    cases pending
  | call here =>
    rw [here] at pending
    right
    rw [goto_phase_self]
    exact fun input => by rw [pending input, Bool.true_or]
  | workReturns here =>
    rw [here] at pending
    right
    obtain ⟨phase, same, rfl | ⟨windows, rfl⟩⟩ :=
      workReturns_eq (w := w) (b := u) (d := d) (g := g) _ _ _
    · rw [same, goto_phase_self]
      trivial
    · rw [same, goto_phase_self]
      exact pending
  | addTag here | collect here =>
    rw [here] at pending
    right
    rw [goto_phase_self]
    exact pending
  | settle here settled =>
    rw [here] at pending
    right
    obtain ⟨phase, rfl, rfl | ⟨n, rfl⟩ | ⟨left, rfl, targets⟩ | ⟨idle, left, rfl, targets⟩⟩ :=
      settle_ok settled
    · rw [goto_phase_self]
      trivial
    · rw [goto_phase_self]
      trivial
    · rw [goto_phase_self]
      exact Heap.mem_notifyNeighbors wired next detail targets
    · rw [goto_phase_self]
      -- nothing was produced, so only upstream neighbours are concerned
      cases side with
      | input => rw [idle] at pending; cases pending rfl
      | output => exact Heap.mem_notifyUpstream wired next detail targets
  | produce here =>
    right
    rw [goto_phase_self]
    trivial
  | ready here targets =>
    right
    rw [goto_phase_self]
    exact Heap.mem_notifyNeighbors wired next detail targets
  | markDone here marked targets =>
    right
    rw [goto_phase_self]
    have same := Heap.setDone_sameWires detail marked
    obtain ⟨d', detail', input, output⟩ := same.symm.detail detail
    refine Heap.mem_notifyNeighbors (wired.sameWires same) (next.sameWires same) detail' ?_
    rw [← targets, Heap.notifyNeighbors, Heap.notifyNeighbors, Heap.notifyUpstream,
      Heap.notifyUpstream, Heap.notifyDownstream, Heap.notifyDownstream, input, output]
  | @tell on told left last here =>
    rw [here] at pending
    rcases List.mem_cons.mp pending with now | later
    · obtain ⟨rfl, rfl⟩ := Prod.mk.inj now
      left
      rw [setChanged, notifyOne_tpb, mapTpb_tpb_self]
      exact TpbDetail.setChanged_self _ _
    · right
      have phase : ((w.goto u (.notifying left last)).setChanged told on).phase u =
          .notifying left last := by
        refine ((notifyOne_phase on).resolve_right ?_).trans (goto_phase_self _)
        rintro ⟨_, _, sleeps, -⟩
        rw [mapTpb_phase, goto_phase_self] at sleeps
        cases sleeps
      rw [phase]
      exact later

theorem Pending.awake (pending : w.Pending u side b) (on : Side) (notified : Bool) :
    w.phase u ≠ .asleep on notified := by
  intro sleeps
  unfold Pending at pending
  rw [sleeps] at pending
  exact pending

theorem Pending.step (pending : w.Pending u side b) (wired : w.heap.Wired env)
    (next : w.heap.Neighbour side u b) (moves : TpbMoves env w e w') :
    (w'.tpb b).changed side = true ∨ w'.Pending u side b := by
  by_cases own : e.owner = some u
  · obtain ⟨_, _, _, detail, -, -, moves⟩ := moves.own own
    exact pending.own wired next detail moves
  · right
    have same := phase_awake moves own pending.awake
    unfold Pending at pending ⊢
    rwa [same]

theorem Progresses.pending (progresses : w.Progresses u side a) (moves : w.Moves u d g a w') :
    w'.Pending u side b := by
  unfold Pending
  cases moves with
  | @call start produced more c heap here called =>
    rw [goto_phase_self]
    rintro rfl
    cases c with
    | produce which n =>
      have some : 0 < n := progresses.2
      simp only [Heap.workCall, some, if_true] at called
      split at called
      · obtain ⟨-, rfl⟩ := Prod.mk.inj (Except.ok.inj called)
        exact Bool.or_true _
      · cases called
    | consume which n => cases progresses.1
    | consumeEach n => cases progresses.1
    | addItemTag which t => cases progresses
    | write which items => cases progresses
  | produce here =>
    rw [goto_phase_self]
    trivial
  | handleMessage here | noMessage here | clear here | addTag here | collect here | settle here
  | ready here | markDone here | tell here | told here | block here | wake here
  | handlePending here | nonePending here =>
    obtain ⟨-, id, left, n, producing⟩ := progresses
    rw [here] at producing
    cases producing
  | askSpace | decide | workReturns => cases progresses

/-! ## Threads that sleep -/

section

variable (untold : w.SleepsUntold)
include untold

theorem SleepsUntold.goto {phase : Phase τ}
    (fine : ∀ side, phase = .asleep side false → (w.tpb c).changed side = false) :
    (w.goto c phase).SleepsUntold := by
  intro b side sleeps
  by_cases same : b = c
  · subst same
    rw [goto_phase_self] at sleeps
    exact fine side sleeps
  · rw [goto_phase_of_ne _ same] at sleeps
    exact untold b side sleeps

theorem SleepsUntold.mapTpb (kept : ∀ t side, t.changed side = false → (f t).changed side = false) :
    (w.mapTpb c f).SleepsUntold := by
  intro b side sleeps
  by_cases same : b = c
  · subst same
    rw [mapTpb_tpb_self]
    exact kept _ _ (untold b side sleeps)
  · rw [mapTpb_tpb_of_ne _ same]
    exact untold b side sleeps

theorem SleepsUntold.notifyOne : (w.notifyOne c on).SleepsUntold := by
  intro b side sleeps
  rw [notifyOne_tpb]
  rcases notifyOne_phase (w := w) (b := c) (c := b) on with same | ⟨_, _, -, told⟩
  · exact untold b side (same ▸ sleeps)
  · rw [sleeps] at told
    cases told

theorem SleepsUntold.setChanged : (w.setChanged c on).SleepsUntold := by
  intro b side sleeps
  rw [World.setChanged, notifyOne_tpb]
  have before : w.phase b = .asleep side false := by
    rcases notifyOne_phase (w := w.mapTpb c (·.setChanged on)) (b := c) (c := b) on with
      same | ⟨_, _, -, told⟩
    · exact same.symm.trans sleeps
    · rw [World.setChanged, told] at sleeps
      cases sleeps
  by_cases same : b = c
  · subst same
    rw [mapTpb_tpb_self]
    have other : on ≠ side := by
      rintro rfl
      cases notifyOne_self sleeps
    cases on <;> cases side
    · exact absurd rfl other
    · exact untold b .output before
    · exact untold b .input before
    · exact absurd rfl other
  · rw [mapTpb_tpb_of_ne _ same]
    exact untold b side before

theorem SleepsUntold.testInner : (w.testInner c on).SleepsUntold := by
  obtain ⟨phase, same, rfl | ⟨rfl, quiet⟩⟩ := testInner_eq (w := w) (b := c) on
  · rw [same]
    exact untold.goto fun _ asleep => by cases asleep
  · rw [same]
    refine untold.goto fun side asleep => ?_
    obtain ⟨rfl, -⟩ := Phase.asleep.inj asleep
    exact quiet

theorem SleepsUntold.testOuter : (w.testOuter c on).SleepsUntold := by
  unfold World.testOuter
  split
  · exact untold.goto fun _ asleep => by cases asleep
  · exact untold.testInner

theorem SleepsUntold.step (moves : TpbMoves env w e w') : w'.SleepsUntold := by
  cases moves with
  | thread _ _ moves =>
    cases moves with
    | handleMessage | handlePending => exact untold.mapTpb fun t side => by cases side <;> exact id
    | askSpace => exact untold
    | clear =>
      exact (untold.mapTpb fun t side _ => t.clearChanged_changed side).goto
        fun _ asleep => by cases asleep
    | noMessage | addTag | collect | produce | ready | markDone | call =>
      exact SleepsUntold.goto (w := { w with heap := _ }) untold fun _ asleep => by cases asleep
    | @decide verdict _ =>
      exact untold.goto fun _ asleep => by cases verdict <;> cases asleep
    | @told last _ => exact untold.goto fun _ asleep => by cases last <;> cases asleep
    | workReturns =>
      obtain ⟨phase, same, rfl | ⟨_, rfl⟩⟩ := workReturns_eq (w := w) _ _ _
      · rw [same]
        exact untold.goto fun _ asleep => by cases asleep
      · rw [same]
        exact untold.goto fun _ asleep => by cases asleep
    | settle _ settled =>
      obtain ⟨phase, rfl, rfl | ⟨n, rfl⟩ | ⟨left, rfl, -⟩ | ⟨-, left, rfl, -⟩⟩ := settle_ok settled
      all_goals exact untold.goto fun _ asleep => by cases asleep
    | tell => exact (untold.goto fun _ asleep => by cases asleep).setChanged
    | block | nonePending => exact untold.testOuter
    | wake => exact untold.testInner
  | post b msg =>
    exact ((untold.mapTpb fun t side quiet => by
      rwa [TpbDetail.insertTail_changed]).notifyOne).notifyOne
  | spuriousWake => exact untold.testInner

end

/-! ## Every run -/

theorem changed_run (flag : (w.tpb b).changed side = true)
    (stays : Throughout (fun w e => ¬ w.Clears b e) (tpbStep env) w after)
    (reached : run (tpbStep env) w after = some w') : (w'.tpb b).changed side = true :=
  run_invariant_of (fun w => (w.tpb b).changed side = true)
    (fun _ _ _ flag stays stepped => changed_step (tpbStep_moves stepped) stays flag) flag stays reached

theorem pending_throughout (wired : w.heap.Wired env) (next : w.heap.Neighbour side u b)
    (told : (w.tpb b).changed side = true ∨ w.Pending u side b)
    (stays : Throughout (fun w e => ¬ w.Clears b e) (tpbStep env) w after)
    (reached : run (tpbStep env) w after = some w') (quiet : (w'.tpb b).changed side = false) :
    Throughout (fun w _ => w.Pending u side b) (tpbStep env) w after ∧ w'.Pending u side b := by
  induction after generalizing w with
  | nil =>
    cases reached
    refine ⟨trivial, told.resolve_left fun flag => ?_⟩
    rw [flag] at quiet
    cases quiet
  | cons e after ih =>
    have pending : w.Pending u side b := by
      refine told.resolve_left fun flag => ?_
      rw [changed_run flag stays reached] at quiet
      cases quiet
    obtain ⟨t, stepped, rest⟩ := run_cons.mp reached
    have moves := tpbStep_moves stepped
    have wired' := wired.sameWires moves.sameWires
    have next' := next.sameWires moves.sameWires
    obtain ⟨throughout, last⟩ :=
      ih wired' next' (pending.step wired next moves) (stays.2 t stepped) rest
    refine ⟨⟨pending, ?_⟩, last⟩
    intro t' stepped'
    obtain rfl := Option.some.inj (stepped.symm.trans stepped')
    exact throughout

/-! ## Every fair execution -/

/-- The thread of a block is in `general_work`. -/
def Working (w : World α τ μ) (u : BlockId) : Prop :=
  ∃ start produced, w.phase u = .working start produced

/-- The thread of a block waits on the condition variable of a side. -/
def Asleep (w : World α τ μ) (b : BlockId) (side : Side) : Prop :=
  ∃ notified, w.phase b = .asleep side notified

/-- What a thread that has returned from `general_work` has still to do before it is through
with its notifications. -/
def stepsLeft : Phase τ → ℕ ×ₗ ℕ
  | .propagating windows pending _ _ => toLex (4 + windows.length, pending.length)
  | .producing left _ => toLex (3, left.length)
  | .wereDone => toLex (2, 0)
  | .notifying left _ => toLex (1, left.length)
  | _ => toLex (0, 0)

theorem Pending.enabled (pending : w.Pending u side b) (idle : ¬ w.Working u)
    (wired : w.heap.Wired env) (next : w.heap.Neighbour side u b) :
    Enabled (tpbStep env) Action.owner w u := by
  obtain ⟨d, detail⟩ : ∃ d, w.heap.detail u = some d := by
    cases side with
    | input =>
      obtain ⟨du, _, _, detail, -⟩ := next
      exact ⟨du, detail⟩
    | output =>
      obtain ⟨_, du, _, -, detail, -⟩ := next
      exact ⟨du, detail⟩
  obtain ⟨g, block⟩ := Option.isSome_iff_exists.mp (wired.blocks u d detail)
  refine ⟨.thread u .advance, rfl, ?_⟩
  have told : ∀ h : Heap α τ, ∀ v : World α τ μ, ∀ last, h.SameWires w.heap →
      (v.notify u (h.notifyNeighbors d) last).isSome = true := by
    intro h v last same
    obtain ⟨d', detail', input, output⟩ := same.detail detail
    obtain ⟨left, targets⟩ := Heap.notifyNeighbors_total (wired.sameWires same.symm) detail'
    have targets : h.notifyNeighbors d = .ok left := by
      rw [← targets, Heap.notifyNeighbors, Heap.notifyNeighbors, Heap.notifyUpstream,
        Heap.notifyUpstream, Heap.notifyDownstream, Heap.notifyDownstream, input, output]
    rw [notify, targets]
    rfl
  unfold Pending at pending
  simp only [tpbStep, detail, block, threadStep, advance]
  cases here : w.phase u with
  | working start produced => exact absurd ⟨start, produced, here⟩ idle
  | propagating windows tags produced result =>
    cases tags with
    | cons first tags => rfl
    | nil =>
      cases windows with
      | cons first windows => rfl
      | nil =>
        dsimp only
        unfold settle
        split
        · rfl
        split
        · rfl
        split
        · exact told w.heap w false (Heap.SameWires.refl _)
        split
        · rfl
        · obtain ⟨left, targets⟩ := Heap.notifyUpstream_total wired detail
          rw [notify, targets]
          rfl
  | producing left n =>
    cases left with
    | cons id left => rfl
    | nil => exact told w.heap w false (Heap.SameWires.refl _)
  | wereDone =>
    obtain ⟨heap, marked⟩ : ∃ heap, w.heap.setDone u d true = .ok heap := by
      obtain ⟨heap, marked, -⟩ := foldlM_total (f := Heap.setReaderDone (α := α) (τ := τ) true)
        (l := d.input) (fun _ => True) (by
          intro h p member _
          cases p with
          | none => exact absurd member (wired.inputs u d detail)
          | some p => exact ⟨_, rfl, trivial⟩) trivial
      exact ⟨heap, marked⟩
    dsimp only
    rw [marked]
    exact told heap _ true (Heap.setDone_sameWires detail marked).symm
  | notifying left last =>
    cases left with
    | cons first left => rfl
    | nil => rfl
  | messages | clearing | looking | blocked | asleep | draining | finished =>
    rw [here] at pending
    cases pending

theorem Moves.stepsLeft_lt (moves : w.Moves u d g a w') (pending : w.Pending u side b)
    (idle : ¬ w.Working u) :
    ¬ w'.Working u ∧ stepsLeft (w'.phase u) < stepsLeft (w.phase u) := by
  have reaches : ∀ (v : World α τ μ) (phase : Phase τ),
      (∀ start produced, phase ≠ .working start produced) →
      stepsLeft phase < stepsLeft (w.phase u) →
      ¬ (v.goto u phase).Working u ∧ stepsLeft ((v.goto u phase).phase u) <
        stepsLeft (w.phase u) := by
    intro v phase out less
    rw [goto_phase_self]
    refine ⟨?_, less⟩
    rintro ⟨start, produced, here⟩
    rw [goto_phase_self] at here
    exact out start produced here
  have lex : ∀ {m n k l : ℕ}, m < n ∨ m = n ∧ k < l → toLex (m, k) < toLex (n, l) :=
    fun less => Prod.Lex.toLex_lt_toLex.mpr less
  unfold Pending at pending
  cases moves with
  | handleMessage here | noMessage here | clear here | askSpace here | decide here
  | block here | wake here | handlePending here | nonePending here | told here =>
    rw [here] at pending
    cases pending
  | call here | workReturns here => exact absurd ⟨_, _, here⟩ idle
  | addTag here =>
    refine reaches _ _ (fun _ _ same => by cases same) ?_
    rw [here]
    exact lex (Or.inr ⟨rfl, by simp⟩)
  | collect here =>
    refine reaches _ _ (fun _ _ same => by cases same) ?_
    rw [here]
    exact lex (Or.inl (by simp))
  | settle here settled =>
    obtain ⟨phase, rfl, rfl | ⟨n, rfl⟩ | ⟨left, rfl, -⟩ | ⟨-, left, rfl, -⟩⟩ := settle_ok settled
    all_goals
      refine reaches _ _ (fun _ _ same => by cases same) ?_
      rw [here]
      exact lex (Or.inl (by simp))
  | produce here =>
    refine reaches _ _ (fun _ _ same => by cases same) ?_
    rw [here]
    exact lex (Or.inr ⟨rfl, by simp⟩)
  | ready here =>
    refine reaches _ _ (fun _ _ same => by cases same) ?_
    rw [here]
    exact lex (Or.inl (by simp))
  | markDone here =>
    refine reaches _ _ (fun _ _ same => by cases same) ?_
    rw [here]
    exact lex (Or.inl (by simp))
  | @tell on told left last here =>
    have phase : ((w.goto u (.notifying left last)).setChanged told on).phase u =
        .notifying left last := by
      refine ((notifyOne_phase on).resolve_right ?_).trans (goto_phase_self _)
      rintro ⟨_, _, sleeps, -⟩
      rw [mapTpb_phase, goto_phase_self] at sleeps
      cases sleeps
    rw [phase, here]
    refine ⟨?_, lex (Or.inr ⟨rfl, by simp⟩)⟩
    rintro ⟨_, _, working⟩
    rw [phase] at working
    cases working

/-- Every call of `general_work` returns. -/
def WorkReturns (x : Execution (tpbStep (α := α) (τ := τ) (μ := μ) env)) : Prop :=
  ∀ u n, (x.state n).Working u → ∃ m ≥ n, ¬ (x.state m).Working u

variable {x : Execution (tpbStep (α := α) (τ := τ) (μ := μ) env)}

theorem Pending.eventually {n : Nat} (fair : x.Fair Action.owner) (returns : WorkReturns x)
    (wired : (x.state n).heap.Wired env) (next : (x.state n).heap.Neighbour side u b)
    (pending : (x.state n).Pending u side b) :
    ∃ m ≥ n, ((x.state m).tpb b).changed side = true := by
  by_contra never
  push Not at never
  have kept : ∀ (w : World α τ μ) e w',
      (w.heap.Wired env ∧ w.heap.Neighbour side u b ∧ w.Pending u side b) →
      tpbStep env w e = some w' → (w'.tpb b).changed side = true ∨
        (w'.heap.Wired env ∧ w'.heap.Neighbour side u b ∧ w'.Pending u side b) := by
    rintro w e w' ⟨wired, next, pending⟩ stepped
    have moves := tpbStep_moves stepped
    exact (pending.step wired next moves).imp_right fun pending =>
      ⟨wired.sameWires moves.sameWires, next.sameWires moves.sameWires, pending⟩
  have always := x.always_until _ _ kept ⟨wired, next, pending⟩ never
  obtain ⟨k, later, idle⟩ : ∃ k ≥ n, ¬ (x.state k).Working u := by
    by_cases working : (x.state n).Working u
    · exact returns u n working
    · exact ⟨n, le_rfl, working⟩
  obtain ⟨m, after, flag⟩ := Execution.eventually_of_rank fair (p := u) (n := k)
    (fun w => (w.heap.Wired env ∧ w.heap.Neighbour side u b ∧ w.Pending u side b) ∧ ¬ w.Working u)
    (fun w => (w.tpb b).changed side = true) (fun w => stepsLeft (w.phase u))
    (fun w ⟨⟨wired, next, pending⟩, idle⟩ => pending.enabled idle wired next)
    (by
      rintro w e w' ⟨⟨wired, next, pending⟩, idle⟩ stepped own
      refine (kept w e w' ⟨wired, next, pending⟩ stepped).imp_right fun still => ?_
      obtain ⟨_, _, _, -, -, -, moves⟩ := (tpbStep_moves stepped).own own
      obtain ⟨out, less⟩ := moves.stepsLeft_lt pending idle
      exact ⟨⟨still, out⟩, less⟩)
    (by
      rintro w e w' ⟨⟨wired, next, pending⟩, idle⟩ stepped other
      refine (kept w e w' ⟨wired, next, pending⟩ stepped).imp_right fun still => ?_
      have same := phase_awake (tpbStep_moves stepped) other pending.awake
      refine ⟨⟨still, ?_⟩, by rw [same]⟩
      rintro ⟨start, produced, here⟩
      exact idle ⟨start, produced, same.symm.trans here⟩) ⟨always k later, idle⟩
  exact never m (by omega) flag

theorem Asleep.enabled (asleep : w.Asleep b side) (untold : w.SleepsUntold)
    (flag : (w.tpb b).changed side = true) (detail : w.heap.detail b = some d)
    (wired : w.heap.Wired env) : Enabled (tpbStep env) Action.owner w b := by
  obtain ⟨g, block⟩ := Option.isSome_iff_exists.mp (wired.blocks b d detail)
  obtain ⟨notified, here⟩ := asleep
  have told : notified = true := by
    cases notified with
    | true => rfl
    | false => rw [untold b side here] at flag; cases flag
  refine ⟨.thread b .advance, rfl, ?_⟩
  simp only [tpbStep, detail, block, threadStep, advance, here, told]
  rfl

theorem Asleep.wakes (asleep : w.Asleep b side) (flag : (w.tpb b).changed side = true)
    (moves : w.Moves b d g a w') : ¬ w'.Asleep b side := by
  obtain ⟨notified, sleeps⟩ := asleep
  cases moves with
  | @wake on here =>
    rw [here, Phase.asleep.injEq] at sleeps
    obtain ⟨rfl, -⟩ := sleeps
    rintro ⟨_, still⟩
    obtain ⟨phase, same, rfl | ⟨rfl, quiet⟩⟩ := testInner_eq (w := w) (b := b) on
    · rw [same, goto_phase_self] at still
      cases still
    · rw [flag] at quiet
      cases quiet
  | handleMessage here | noMessage here | clear here | askSpace here | decide here | call here
  | workReturns here | addTag here | collect here | settle here | produce here | ready here
  | markDone here | tell here | told here | block here | handlePending here | nonePending here =>
    rw [here] at sleeps
    cases sleeps

/-- A thread that was notified, or is going to be, does not sleep forever. -/
theorem Asleep.eventually {m : Nat} (fair : x.Fair Action.owner) (returns : WorkReturns x)
    (wired : ∀ n, (x.state n).heap.Wired env) (untold : ∀ n, (x.state n).SleepsUntold)
    (next : ∀ n ≥ m, (x.state n).heap.Neighbour side u b)
    (told : ((x.state m).tpb b).changed side = true ∨ (x.state m).Pending u side b)
    (asleep : (x.state m).Asleep b side) : ∃ l ≥ m, ¬ (x.state l).Asleep b side := by
  by_contra forever
  push Not at forever
  obtain ⟨k, later, flag⟩ : ∃ k ≥ m, ((x.state k).tpb b).changed side = true := by
    rcases told with flag | pending
    · exact ⟨m, le_rfl, flag⟩
    · exact pending.eventually fair returns (wired m) (next m le_rfl)
  have flags : ∀ l ≥ k, ((x.state l).tpb b).changed side = true := by
    intro l after
    induction l, after using Nat.le_induction with
    | base => exact flag
    | succ l after ih =>
      have step := x.next l
      cases action : x.action l with
      | none =>
        rw [action] at step
        dsimp only at step
        rwa [step]
      | some e =>
        rw [action] at step
        refine changed_step (tpbStep_moves step) ?_ ih
        rintro ⟨clearing, -⟩
        obtain ⟨notified, here⟩ := forever l (by omega)
        rw [here] at clearing
        cases clearing
  have detail : ∀ n ≥ m, ∃ d, (x.state n).heap.detail b = some d := by
    intro n after
    cases side with
    | input =>
      obtain ⟨_, db, _, -, detail, -⟩ := next n after
      exact ⟨db, detail⟩
    | output =>
      obtain ⟨db, _, _, detail, -⟩ := next n after
      exact ⟨db, detail⟩
  obtain ⟨l, after, e, action, own⟩ := fair b k fun l after => by
    obtain ⟨d, here⟩ := detail l (by omega)
    exact (forever l (by omega)).enabled (untold l) (flags l after) here (wired l)
  have step := x.next l
  rw [action] at step
  obtain ⟨_, _, _, -, -, -, moves⟩ := (tpbStep_moves step).own own
  exact (forever l (by omega)).wakes (flags l after) moves (forever (l + 1) (by omega))

end World

/-- No lost wake-up. As long as the flag of a thread is not set, the progress of a neighbour has its
notification pending. In a fair execution, a thread that is asleep while a neighbour has made
progress is not asleep forever. -/
theorem no_lost_wakeup [Zero α] {granularity : Nat} {fg : Flowgraph} {h₀ : Heap α τ}
    (valid : fg.Valid env)
    (setup : fg.setupConnections env granularity (Heap.empty : Heap α τ) = .ok h₀) :
    (∀ (before after : List (Action α τ μ)) (w₁ w₂ w : World α τ μ) u a side b,
      run (tpbStep env) (.start h₀) before = some w₁ →
      tpbStep env w₁ (.thread u a) = some w₂ → run (tpbStep env) w₂ after = some w →
      w₁.heap.Neighbour side u b → w₁.Progresses u side a →
      Throughout (fun w e => ¬ w.Clears b e) (tpbStep env) w₂ after →
      (w.tpb b).changed side = false →
      Throughout (fun w _ => w.Pending u side b) (tpbStep env) w₂ after ∧ w.Pending u side b) ∧
    ∀ x : Execution (tpbStep (α := α) (τ := τ) (μ := μ) env), x.state 0 = .start h₀ →
      x.Fair Action.owner → World.WorkReturns x → ∀ n m u a side b,
      x.action n = some (.thread u a) → (x.state n).heap.Neighbour side u b →
      (x.state n).Progresses u side a →
      (∀ k e, n < k → k < m → x.action k = some e → ¬ (x.state k).Clears b e) →
      n < m → (x.state m).Asleep b side → ∃ l ≥ m, ¬ (x.state l).Asleep b side := by
  have wired := (Flowgraph.setupConnections_ok valid setup).wired valid
  constructor
  · intro before after w₁ w₂ w u a side b first step rest next progresses stays quiet
    have wired₁ := run_invariant (fun w : World α τ μ => w.heap.Wired env)
      (fun _ _ _ wired step => wired.sameWires (tpbStep_moves step).sameWires) wired first
    have moves := tpbStep_moves step
    have same := moves.sameWires
    cases moves with
    | thread _ _ moved =>
      exact World.pending_throughout (wired₁.sameWires same) (next.sameWires same)
        (Or.inr (progresses.pending moved)) stays rest quiet
  · intro x start fair returns n m u a side b action next progresses stays later asleep
    have wired : ∀ n, (x.state n).heap.Wired env := fun n => x.always (fun w => w.heap.Wired env)
      (fun _ _ _ wired step => wired.sameWires (tpbStep_moves step).sameWires)
      (n := 0) (by rw [start]; exact wired) n (Nat.zero_le n)
    have untold : ∀ n, (x.state n).SleepsUntold := fun n => x.always World.SleepsUntold
      (fun _ _ _ untold step => untold.step (tpbStep_moves step))
      (n := 0) (by rw [start]; exact fun _ _ asleep => by cases asleep) n (Nat.zero_le n)
    have neighbour : ∀ k ≥ n, (x.state k).heap.Neighbour side u b :=
      x.always (fun w => w.heap.Neighbour side u b)
        (fun _ _ _ next step => next.sameWires (tpbStep_moves step).sameWires) next
    have told : ∀ k ≥ n + 1, k ≤ m →
        ((x.state k).tpb b).changed side = true ∨ (x.state k).Pending u side b := by
      intro k after
      induction k, after using Nat.le_induction with
      | base =>
        intro _
        have step := x.next n
        rw [action] at step
        cases tpbStep_moves step with
        | thread _ _ moved => exact Or.inr (progresses.pending moved)
      | succ k after ih =>
        intro inside
        have step := x.next k
        cases act : x.action k with
        | none =>
          rw [act] at step
          dsimp only at step
          rw [step]
          exact ih (by omega)
        | some e =>
          rw [act] at step
          have moves := tpbStep_moves step
          rcases ih (by omega) with flag | pending
          · exact Or.inl (World.changed_step moves (stays k e (by omega) (by omega) act) flag)
          · exact pending.step (wired k) (neighbour k (by omega)) moves
    exact World.Asleep.eventually fair returns wired untold
      (fun k after => neighbour k (by omega)) (told m (by omega) le_rfl) asleep

/-! ## A source and a sink -/

theorem phase_without_detail {actions : List (Action α τ μ)} {h : Heap α τ}
    (reached : run (tpbStep env) (.start h) actions = some w) (none : h.detail b = none) :
    w.phase b = .messages := by
  have both := run_invariant (fun w : World α τ μ => h.SameWires w.heap ∧ w.phase b = .messages) (by
    rintro w e w' ⟨same, here⟩ stepped
    have moves := tpbStep_moves stepped
    refine ⟨same.trans moves.sameWires, ?_⟩
    rw [← here]
    refine World.phase_awake moves ?_ fun _ _ asleep => by rw [here] at asleep; cases asleep
    intro own
    obtain ⟨d, _, _, detail, -⟩ := moves.own own
    obtain ⟨d', before, -⟩ := same.detail detail
    rw [none] at before
    cases before) ⟨Heap.SameWires.refl h, rfl⟩ reached
  exact both.2

/-- A source 0 and a sink 1. -/
def pipeBlocks : Blocks := fun b =>
  let plain := GrBlock.initial
  if b = 0 then BasicBlock.leaf "source" 0 1 plain 4 sizeofFloat_pos
  else BasicBlock.leaf "sink" 1 0 plain 4 sizeofFloat_pos

/-- The source is connected to the sink. -/
def pipe : Flowgraph := ⟨[0, 1], [⟨⟨0, 0⟩, ⟨1, 0⟩⟩]⟩

theorem pipe_valid : pipe.Valid pipeBlocks where
  built := .validate (Flowgraph.Built.empty.connectAll pipe.edges rfl) rfl
  validated := rfl

/-- Steps of a thread where there is only one. -/
def advances (b : BlockId) (n : Nat) : List (Action Nat Unit Unit) :=
  List.replicate n (.thread b .advance)

/-- The sink finds nothing and goes to sleep, then the source writes an item. -/
def sinkSleeps : List (Action Nat Unit Unit) :=
  advances 1 2 ++ [.thread 1 (.decide .blkdIn)] ++ advances 1 1 ++ advances 0 2 ++
    [.thread 0 (.decide .callWork), .thread 0 (.call (.write 0 [7])),
      .thread 0 (.workReturns 1)] ++ advances 0 1

/-- The source publishes the item, notifies the sink and ends; the sink consumes the item and
ends. -/
def sinkWakes : List (Action Nat Unit Unit) :=
  advances 0 6 ++ [.thread 0 (.decide .callWork), .thread 0 (.workReturns workDone)] ++
    advances 0 4 ++ advances 1 4 ++
    [.thread 1 (.decide .callWork), .thread 1 (.call (.consume 0 1)), .thread 1 (.workReturns 1)] ++
    advances 1 6 ++ [.thread 1 (.decide .wereDone)] ++ advances 1 3

/-- The item is published while the sink is asleep: its notification is pending then, and in the
execution that follows the sink does not stay asleep. -/
theorem no_lost_wakeup_pipe : ∃ (h₀ : Heap Nat Unit) (w : World Nat Unit Unit)
    (x : Execution (tpbStep (α := Nat) (τ := Unit) (μ := Unit) pipeBlocks)),
    pipe.setupConnections pipeBlocks 4096 Heap.empty = .ok h₀ ∧ x.state 0 = .start h₀ ∧
    x.Fair Action.owner ∧ World.WorkReturns x ∧ x.state 11 = w ∧ w.Asleep 1 .input ∧
    (w.tpb 1).changed .input = false ∧ w.Pending 0 .input 1 ∧
    ∃ l ≥ 11, ¬ (x.state l).Asleep 1 .input := by
  have evaluated : ((pipe.setupConnections (α := Nat) (τ := Unit) pipeBlocks 4096
      Heap.empty).toOption.any fun h₀ =>
        (run (tpbStep pipeBlocks) (.start h₀) sinkSleeps).any fun w₁ =>
          decide (w₁.heap.detail 0 = some ⟨[], [0], false⟩ ∧
            w₁.heap.detail 1 = some ⟨[some ⟨0, 0⟩], [], false⟩ ∧
            w₁.phase 0 = .producing [0] 1) &&
          (tpbStep pipeBlocks w₁ (.thread 0 .advance)).any fun w =>
            decide ((w.tpb 1).changed .input = false ∧ w.phase 1 = .asleep .input false) &&
            (run (tpbStep pipeBlocks) w sinkWakes.tail).any fun t =>
              decide (t.phase 0 = .finished ∧ t.phase 1 = .finished)) = true := by
    decide +kernel
  simp only [Option.any_eq_true, toOption_some, Bool.and_eq_true, decide_eq_true_iff] at evaluated
  obtain ⟨h₀, setup, w₁, first, ⟨source, sink, producing⟩, w, step, ⟨quiet, sleeps⟩, t, rest,
    ended⟩ := evaluated
  have reached : run (tpbStep pipeBlocks) (.start h₀) (sinkSleeps ++ sinkWakes) = some t :=
    run_append.mpr ⟨w₁, first, run_cons.mpr ⟨w, step, rest⟩⟩
  have next : w₁.heap.Neighbour .input 0 1 :=
    ⟨_, _, ⟨0, 0⟩, source, sink, List.mem_singleton_self _, List.mem_singleton_self _⟩
  have progresses : w₁.Progresses 0 .input (.advance : ThreadAction Nat Unit) :=
    ⟨rfl, 0, [], 1, producing⟩
  -- no thread is left that could do anything
  have blank : ∀ b, b ≠ 0 → b ≠ 1 → h₀.detail b = none := by
    intro b notSource notSink
    have used : pipe.calcUsedBlocks = [0, 1] := by decide +kernel
    have ports := (Flowgraph.setupConnections_ok pipe_valid setup).unused b (by
      rw [used]
      simp [notSource, notSink])
    exact Option.map_eq_none_iff.mp ports
  have idle : ∀ b, t.phase b = .finished ∨ h₀.detail b = none := by
    intro b
    by_cases isSource : b = 0
    · exact Or.inl (isSource ▸ ended.1)
    by_cases isSink : b = 1
    · exact Or.inl (isSink ▸ ended.2)
    · exact Or.inr (blank b isSource isSink)
  have same : h₀.SameWires t.heap := run_invariant (fun w : World Nat Unit Unit =>
    h₀.SameWires w.heap) (fun _ _ _ same step => same.trans (tpbStep_moves step).sameWires)
    (Heap.SameWires.refl h₀) reached
  have stuck : ∀ b, ¬ Enabled (tpbStep pipeBlocks) Action.owner t b := by
    rintro b ⟨e, own, enabled⟩
    obtain ⟨t', step⟩ := Option.isSome_iff_exists.mp enabled
    obtain ⟨d, _, _, detail, -, -, moves⟩ := (tpbStep_moves step).own own
    rcases idle b with finished | none
    · cases moves with
      | handleMessage here | noMessage here | clear here | askSpace here | decide here | call here
      | workReturns here | addTag here | collect here | settle here | produce here | ready here
      | markDone here | tell here | told here | block here | wake here | handlePending here
      | nonePending here =>
        rw [finished] at here
        cases here
    · obtain ⟨d', before, -⟩ := same.detail detail
      rw [none] at before
      cases before
  have returns : World.WorkReturns (Execution.ofRun reached) := by
    intro u n _
    refine ⟨max n (sinkSleeps ++ sinkWakes).length, le_max_left _ _, ?_⟩
    rw [Execution.ofRun_end reached (le_max_right _ _)]
    rintro ⟨start, produced, working⟩
    rcases idle u with finished | none
    · rw [finished] at working
      cases working
    · rw [phase_without_detail reached none] at working
      cases working
  have before : (Execution.ofRun reached).state 10 = w₁ := by
    change (run (tpbStep pipeBlocks) (World.start h₀) sinkSleeps).getD _ = w₁
    rw [first, Option.getD_some]
  have now : (Execution.ofRun reached).state 11 = w := by
    have taken : run (tpbStep pipeBlocks) (World.start h₀)
        (sinkSleeps ++ [.thread 0 .advance]) = some w :=
      run_append.mpr ⟨w₁, first, run_cons.mpr ⟨w, step, rfl⟩⟩
    change (run (tpbStep pipeBlocks) (World.start h₀)
      (sinkSleeps ++ [.thread 0 .advance])).getD _ = w
    rw [taken, Option.getD_some]
  have result := no_lost_wakeup (μ := Unit) pipe_valid setup
  refine ⟨h₀, w, Execution.ofRun reached, setup, rfl, Execution.ofRun_fair reached stuck, returns,
    now, ⟨false, sleeps⟩, quiet, ?_, ?_⟩
  · exact (result.1 sinkSleeps [] w₁ w w 0 .advance .input 1 first step rfl next progresses trivial
      quiet).2
  · refine result.2 _ rfl (Execution.ofRun_fair reached stuck) returns 10 11 0 .advance .input 1 rfl
      ?_ ?_ ?_ (by decide) ?_
    · rw [before]
      exact next
    · rw [before]
      exact progresses
    · intro k e low high
      omega
    · rw [now]
      exact ⟨false, sleeps⟩

end GnuRadio
