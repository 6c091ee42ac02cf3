import GnuRadio.Runtime.Buffer
import Mathlib.Data.List.Induction

/-!
# The burst tagger

`gr_burst_tagger` copies its first input, and tags the items at which the trigger on its second
input changes between positive and not positive.
-/

namespace GnuRadio

/-- The value of a tag: a boolean, a time, which is a tuple of whole seconds and a fraction, or
something else. -/
inductive TagValue
  | bool (value : Bool)
  | time
  | other
  deriving DecidableEq, Repr

/-- The key of a tag, and its value. -/
structure TagBody where
  key : String
  value : TagValue
  deriving DecidableEq, Repr

/-- `gr_burst_tagger` (`gr_burst_tagger.h:40-43`). Its key is the symbol `burst`. -/
structure BurstTagger where
  itemsize : Nat
  state : Bool
  deriving DecidableEq, Repr

/-- The tag of a change at an item (`gr_burst_tagger.cc:69-70`, `76-77`). -/
def burstTag (offset : Nat) (value : Bool) : Tag TagBody := ⟨offset, ⟨"burst", .bool value⟩⟩

namespace BurstTagger

/-- A turn of the loop of `work` (`gr_burst_tagger.cc:65-80`): the state, and the tags so far. -/
def turn (nitemsWritten : Nat) (trigger : Nat → Int) (s : Bool × List (Tag TagBody)) (i : Nat) :
    Bool × List (Tag TagBody) :=
  if trigger i > 0 then
    if s.1 = false then (true, s.2 ++ [burstTag (nitemsWritten + i) true]) else s
  else
    if s.1 = true then (false, s.2 ++ [burstTag (nitemsWritten + i) false]) else s

/-- `work` (`gr_burst_tagger.cc:54-83`): the block, the bytes that it puts out, and its tags. -/
def work (d : BurstTagger) (nitemsWritten noutputItems : Nat) (signal : Nat → UInt8)
    (trigger : Nat → Int) : BurstTagger × List UInt8 × List (Tag TagBody) :=
  let out := (List.range (noutputItems * d.itemsize)).map signal
  let s := (List.range noutputItems).foldl (turn nitemsWritten trigger) (d.state, [])
  ({ d with state := s.1 }, out, s.2)

/-- The block on its streams: how many items it has written, their bytes, and their tags. -/
structure Session where
  tagger : BurstTagger
  nitemsWritten : Nat
  out : List UInt8
  tags : List (Tag TagBody)
  deriving DecidableEq, Repr

/-- One call of `work`, on the items that come next. -/
def Session.call (signal : Nat → UInt8) (trigger : Nat → Int) (s : Session) (noutputItems : Nat) :
    Session :=
  let (tagger, out, tags) := s.tagger.work s.nitemsWritten noutputItems
    (fun i => signal (s.nitemsWritten * s.tagger.itemsize + i))
    (fun i => trigger (s.nitemsWritten + i))
  ⟨tagger, s.nitemsWritten + noutputItems, s.out ++ out, s.tags ++ tags⟩

/-- The session behind calls of these sizes. -/
def session (itemsize : Nat) (signal : Nat → UInt8) (trigger : Nat → Int) (calls : List Nat) :
    Session :=
  calls.foldl (Session.call signal trigger) ⟨⟨itemsize, false⟩, 0, [], []⟩

/-- Whether the trigger is positive at an item. -/
def high (trigger : Nat → Int) (i : Nat) : Bool := trigger i > 0

/-- Whether it is positive at the item before; there is none before the first. -/
def before (trigger : Nat → Int) (i : Nat) : Bool := decide (0 < i) && high trigger (i - 1)

/-- The tag of an item at which the trigger changes. -/
def change (trigger : Nat → Int) (i : Nat) : Option (Tag TagBody) :=
  if high trigger i = before trigger i then none else some (burstTag i (high trigger i))

/-- The tags of the first items of a stream. -/
def changes (trigger : Nat → Int) (start count : Nat) : List (Tag TagBody) :=
  (List.range' start count).filterMap (change trigger)

variable {trigger : Nat → Int} {signal : Nat → UInt8}

theorem before_succ (n : Nat) : before trigger (n + 1) = high trigger n := by
  simp [before]

theorem changes_succ (start count : Nat) : changes trigger start (count + 1) =
    changes trigger start count ++ (change trigger (start + count)).toList := by
  rw [changes, List.range'_concat, List.filterMap_append, Nat.one_mul]
  congr 1

theorem changes_append (start count more : Nat) : changes trigger start (count + more) =
    changes trigger start count ++ changes trigger (start + count) more := by
  rw [changes, changes, changes, ← List.filterMap_append, List.range'_append_1]

theorem turn_eq (written i : Nat) (tags : List (Tag TagBody)) :
    turn written (fun i => trigger (written + i)) (before trigger (written + i), tags) i =
      (high trigger (written + i), tags ++ (change trigger (written + i)).toList) := by
  unfold turn change
  cases now : high trigger (written + i) with
  | true =>
    have positive : trigger (written + i) > 0 := of_decide_eq_true now
    rw [if_pos positive]
    cases before trigger (written + i) <;> simp
  | false =>
    have not : ¬trigger (written + i) > 0 := of_decide_eq_false now
    rw [if_neg not]
    cases before trigger (written + i) <;> simp

theorem turns_eq (trigger : Nat → Int) (written n : Nat) :
    (List.range n).foldl (turn written fun i => trigger (written + i))
        (before trigger written, []) =
      (before trigger (written + n), changes trigger written n) := by
  induction n with
  | zero => rfl
  | succ n ih =>
    rw [List.range_succ, List.foldl_append, ih, List.foldl_cons, List.foldl_nil, turn_eq,
      changes_succ, ← Nat.add_assoc, before_succ]

/-- What is known of a session. -/
structure Tagged (itemsize : Nat) (signal : Nat → UInt8) (trigger : Nat → Int) (s : Session) :
    Prop where
  size : s.tagger.itemsize = itemsize
  state : s.tagger.state = before trigger s.nitemsWritten
  out : s.out = (List.range (s.nitemsWritten * itemsize)).map signal
  tags : s.tags = changes trigger 0 s.nitemsWritten

theorem Tagged.call {itemsize : Nat} {s : Session} (tagged : Tagged itemsize signal trigger s)
    (n : Nat) : Tagged itemsize signal trigger (s.call signal trigger n) := by
  have turns := turns_eq trigger s.nitemsWritten n
  rw [← tagged.state] at turns
  refine ⟨tagged.size, ?_, ?_, ?_⟩
  · exact congrArg Prod.fst turns
  · have bytes : (s.nitemsWritten + n) * itemsize =
        s.nitemsWritten * itemsize + n * itemsize := Nat.add_mul ..
    rw [Session.call, work, tagged.size]
    dsimp only
    rw [tagged.out, bytes, List.range_add, List.map_append, List.map_map]
    rfl
  · rw [Session.call, work]
    dsimp only
    rw [turns, tagged.tags, changes_append, Nat.zero_add]

theorem tagged_session (itemsize : Nat) (signal : Nat → UInt8) (trigger : Nat → Int)
    (calls : List Nat) :
    Tagged itemsize signal trigger (session itemsize signal trigger calls) := by
  induction calls using List.reverseRecOn with
  | nil => exact ⟨rfl, rfl, by simp [session], rfl⟩
  | append_singleton calls n ih =>
    rw [session, List.foldl_append]
    exact ih.call n

/-! ## The next change -/

theorem changes_cons (start count : Nat) : changes trigger start (count + 1) =
    (change trigger start).toList ++ changes trigger (start + 1) count := by
  rw [changes, List.range'_succ, List.filterMap_cons]
  cases change trigger start <;> rfl

theorem changes_cases {level : Bool} {start : Nat} (here : before trigger start = level)
    (count : Nat) :
    (changes trigger start count = [] ∧
      ∀ i, start ≤ i → i < start + count → high trigger i = level) ∨
    ∃ c, start ≤ c ∧ c < start + count ∧ (∀ i, start ≤ i → i < c → high trigger i = level) ∧
      high trigger c = !level ∧ changes trigger start count =
        burstTag c (!level) :: changes trigger (c + 1) (start + count - (c + 1)) := by
  induction count generalizing start with
  | zero =>
    left
    refine ⟨rfl, fun i low high => ?_⟩
    omega
  | succ count ih =>
    have ends : start + 1 + count = start + (count + 1) := by omega
    rw [changes_cons]
    by_cases same : high trigger start = level
    · have none : change trigger start = none := if_pos (same.trans here.symm)
      have since : ∀ i, start ≤ i → (start + 1 ≤ i → high trigger i = level) →
          high trigger i = level := by
        intro i low later
        rcases Nat.lt_or_eq_of_le low with less | rfl
        · exact later less
        · exact same
      rw [none, Option.toList_none, List.nil_append]
      rcases ih ((before_succ start).trans same) with ⟨empty, stays⟩ |
        ⟨c, low, less, stays, flips, split⟩
      · exact Or.inl ⟨empty, fun i low less => since i low (fun later => stays i later (by omega))⟩
      · rw [ends] at less split
        exact Or.inr ⟨c, by omega, less,
          fun i low less => since i low (fun later => stays i later less), flips, split⟩
    · have flips : high trigger start = !level := by
        cases level <;> simpa using same
      have tagged : change trigger start = some (burstTag start (!level)) := by
        rw [change, here, if_neg same, flips]
      right
      refine ⟨start, Nat.le_refl _, by omega, fun i low less => by omega, flips, ?_⟩
      rw [tagged, Option.toList_some, List.singleton_append]
      congr 2
      omega

end BurstTagger

end GnuRadio
