import GnuRadio.Misc.Trace
import Mathlib.Data.List.TakeDrop

/-!
# Bounded queue with one writer and many readers

Every reader `i` sees the stream `prior i ++ stream`: a private beginning and
then everything pushed. It takes items from the front of what it has not seen
yet, its pending items. A push is enabled when it leaves no reader with more
than `capacity` pending items.
-/

namespace GnuRadio

variable {α ι : Type}

/-- The stream pushed so far and what each reader has taken of it. -/
structure BroadcastQueue (α ι : Type) where
  stream : List α
  taken : ι → List α

namespace BroadcastQueue

/-- The actions of the writer and of the readers. -/
inductive Op (α ι : Type) where
  | push (items : List α)
  | take (reader : ι) (count : Nat)

/-- What reader `i` has still to take. -/
def pending (prior : ι → List α) (q : BroadcastQueue α ι) (i : ι) : List α :=
  (prior i ++ q.stream).drop (q.taken i).length

/-- The writer appends items. -/
def push (q : BroadcastQueue α ι) (items : List α) : BroadcastQueue α ι :=
  { q with stream := q.stream ++ items }

/-- Reader `i` takes its first `count` pending items. -/
def take [DecidableEq ι] (prior : ι → List α) (q : BroadcastQueue α ι) (i : ι) (count : Nat) :
    BroadcastQueue α ι :=
  let items := (q.pending prior i).take count
  { q with taken := Function.update q.taken i (q.taken i ++ items) }

/-- One action, enabled under the bounds above for the readers in `readers`. -/
def step [DecidableEq ι] (capacity : Nat) (readers : List ι) (prior : ι → List α)
    (q : BroadcastQueue α ι) : Op α ι → Option (BroadcastQueue α ι)
  | .push items =>
      if ∀ i ∈ readers, (q.pending prior i).length + items.length ≤ capacity then
        some (q.push items)
      else none
  | .take i count =>
      if i ∈ readers ∧ count ≤ (q.pending prior i).length then some (q.take prior i count)
      else none

def empty : BroadcastQueue α ι := ⟨[], fun _ => []⟩

/-- A reader has taken a beginning of its stream and the rest is pending. -/
def InOrder (prior : ι → List α) (q : BroadcastQueue α ι) : Prop :=
  ∀ i, q.taken i ++ q.pending prior i = prior i ++ q.stream

theorem inOrder_empty (prior : ι → List α) : (empty : BroadcastQueue α ι).InOrder prior := by
  intro i
  simp [empty, pending]

variable {prior : ι → List α} {q : BroadcastQueue α ι}

theorem InOrder.length (ordered : q.InOrder prior) (i : ι) :
    (q.taken i).length + (q.pending prior i).length = (prior i).length + q.stream.length := by
  have := congrArg List.length (ordered i)
  simpa using this

theorem pending_push (ordered : q.InOrder prior) (items : List α) (i : ι) :
    (q.push items).pending prior i = q.pending prior i ++ items := by
  have short : (q.taken i).length ≤ (prior i ++ q.stream).length := by
    have := ordered.length i
    simp only [List.length_append]
    omega
  simp only [pending, push, ← List.append_assoc]
  exact List.drop_append_of_le_length short

theorem pending_take [DecidableEq ι] (i j : ι) (count : Nat)
    (enough : count ≤ (q.pending prior i).length) :
    (q.take prior i count).pending prior j =
      if j = i then (q.pending prior i).drop count else q.pending prior j := by
  by_cases same : j = i
  · subst same
    simp only [take, pending, Function.update_self, List.length_append, List.length_take,
      if_true, List.drop_drop]
    rw [Nat.min_eq_left (by simpa [pending] using enough)]
  · simp [take, pending, same]

theorem step_inOrder [DecidableEq ι] {capacity : Nat} {readers : List ι}
    {q' : BroadcastQueue α ι} {op : Op α ι} (ordered : q.InOrder prior)
    (stepped : step capacity readers prior q op = some q') : q'.InOrder prior := by
  intro j
  cases op with
  | push items =>
    simp only [step, Option.ite_none_right_eq_some, Option.some.injEq] at stepped
    obtain ⟨-, rfl⟩ := stepped
    rw [pending_push ordered, ← List.append_assoc]
    change q.taken j ++ q.pending prior j ++ items = prior j ++ (q.stream ++ items)
    rw [ordered j, List.append_assoc]
  | take i count =>
    simp only [step, Option.ite_none_right_eq_some, Option.some.injEq] at stepped
    obtain ⟨⟨-, enough⟩, rfl⟩ := stepped
    rw [pending_take i j count enough]
    by_cases same : j = i
    · subst same
      simpa [take] using ordered j
    · simpa [take, same] using ordered j

theorem InOrder.taken_isPrefix (ordered : q.InOrder prior) (i : ι) :
    q.taken i <+: prior i ++ q.stream :=
  ⟨_, ordered i⟩

end BroadcastQueue

end GnuRadio
