import GnuRadio.Usrp2.BufferPool
import Mathlib.Data.Fin.VecNotation
import Mathlib.Data.Fintype.Option
import Mathlib.Tactic.FinCases

/-!
# Three buffers in a ring

One packet comes in at a time, and packets leave for two destinations. What happens to the
buffers, without the words and the arrays of the machine that uses them.
-/

namespace GnuRadio.Usrp2

/-- What a buffer is used for, and where its packet goes. -/
inductive Cell where
  | empty
  | filling
  | full (dst : Fin 2)
  | emptying (dst : Fin 2)
  deriving DecidableEq

/-- The three buffers. -/
abbrev Cells := Fin 3 → Cell

/-- The report about a buffer: none, or that its transfer is over, with the answer of the inspector
about the packet that came in. -/
abbrev Report := Option (Option (Fin 2))

namespace Cells

/-- The cells with these contents. -/
def of (x y z : Cell) : Cells
  | 0 => x
  | 1 => y
  | 2 => z

theorem eq_of (cells : Cells) : cells = of (cells 0) (cells 1) (cells 2) := by
  funext i
  fin_cases i <;> rfl

local instance (p : Fin 2 → Prop) [DecidablePred p] : Decidable (∀ dst, p dst) :=
  decidable_of_iff (p 0 ∧ p 1) (by simp [Fin.forall_fin_succ])

local instance (p : Fin 3 → Prop) [DecidablePred p] : Decidable (∀ i, p i) :=
  decidable_of_iff (p 0 ∧ p 1 ∧ p 2) (by simp [Fin.forall_fin_succ])

local instance (p : Fin 3 → Prop) [DecidablePred p] : Decidable (∃ i, p i) :=
  decidable_of_iff (p 0 ∨ p 1 ∨ p 2) (by simp [Fin.exists_fin_succ])

/-- A packet leaves for this destination. -/
def Busy (cells : Cells) (dst : Fin 2) : Prop := ∃ i, cells i = .emptying dst

def Receives (cells : Cells) : Prop := ∃ i, cells i = .filling

/-- A packet comes in while there is an empty buffer. -/
def Open (cells : Cells) : Prop := (∃ i, cells i = .empty) → cells.Receives

instance (cells : Cells) (dst : Fin 2) : Decidable (cells.Busy dst) :=
  inferInstanceAs (Decidable (∃ i, cells i = .emptying dst))

instance (cells : Cells) : Decidable cells.Receives :=
  inferInstanceAs (Decidable (∃ i, cells i = .filling))

instance (cells : Cells) : Decidable cells.Open :=
  inferInstanceAs (Decidable ((∃ i, cells i = .empty) → cells.Receives))

/-- A buffer has been filled for `dst`. -/
def fill (cells : Cells) (i : Fin 3) (dst : Fin 2) : Cells :=
  let cells : Cells :=
    if cells (i + 1) = .empty then Function.update cells (i + 1) .filling else cells
  Function.update cells i (if cells.Busy dst then .full dst else .emptying dst)

/-- `dst` is done with a buffer. -/
def drain (cells : Cells) (i : Fin 3) (dst : Fin 2) : Cells :=
  let cells : Cells := Function.update cells i (if cells.Receives then .empty else .filling)
  if cells (i + 1) = .full dst then Function.update cells (i + 1) (.emptying dst)
  else if cells (i + 1 + 1) = .full dst then Function.update cells (i + 1 + 1) (.emptying dst)
  else cells

@[simp] theorem add_one_ne : ∀ i : Fin 3, i + 1 ≠ i ∧ i ≠ i + 1 ∧ i + 1 + 1 ≠ i ∧ i ≠ i + 1 + 1 ∧
    i + 1 + 1 ≠ i + 1 ∧ i + 1 ≠ i + 1 + 1 := by
  decide

section

variable (cells : Cells) (i : Fin 3) (dst : Fin 2)

theorem fill_this : cells.fill i dst i = if cells.Busy dst then .full dst else .emptying dst := by
  have same : cells (i + 1) = .empty →
      (Busy (Function.update cells (i + 1) .filling) dst ↔ cells.Busy dst) := by
    intro empty
    apply exists_congr
    intro j
    by_cases this : j = i + 1
    · simp [this, empty]
    · simp [this]
  rw [fill, Function.update_self]
  split
  · rename_i empty
    simp only [same empty]
  · rfl

theorem fill_next : cells.fill i dst (i + 1) =
    if cells (i + 1) = .empty then .filling else cells (i + 1) := by
  rw [fill, Function.update_of_ne (by simp)]
  split <;> simp

theorem fill_last : cells.fill i dst (i + 1 + 1) = cells (i + 1 + 1) := by
  rw [fill, Function.update_of_ne (by simp)]
  split <;> simp

theorem drain_this :
    cells.drain i dst i = if cells.Receives then .empty else .filling := by
  simp only [drain]
  split_ifs <;> simp

theorem drain_next : cells.drain i dst (i + 1) =
    if cells (i + 1) = .full dst then .emptying dst else cells (i + 1) := by
  simp [drain]
  split_ifs <;> simp

theorem drain_last : cells.drain i dst (i + 1 + 1) =
    if cells (i + 1) ≠ .full dst ∧ cells (i + 1 + 1) = .full dst then .emptying dst
    else cells (i + 1 + 1) := by
  simp [drain]
  split_ifs <;> simp_all

end

/-- What follows from the report about a buffer. -/
def report (r : Fin 3 → Report) (cells : Cells) (i : Fin 3) : Cells :=
  match r i with
  | none => cells
  | some answer =>
    match cells i with
    | .filling =>
      match answer with
      | none => cells
      | some dst => cells.fill i dst
    | .emptying dst => cells.drain i dst
    | _ => cells

/-- The buffer holds a packet for `dst`. -/
def holds (cells : Cells) (dst : Fin 2) (i : Fin 3) : Bool :=
  cells i == .full dst || cells i == .emptying dst

/-- The buffers with packets for `dst`, in the order in which they are sent: from the one that is
sent on around the ring. -/
def queue (cells : Cells) (dst : Fin 2) : List (Fin 3) :=
  match ([0, 1, 2] : List (Fin 3)).find? fun i => cells i == .emptying dst with
  | none => []
  | some i => [i, i + 1, i + 1 + 1].filter (cells.holds dst)

/-- No more than one packet comes in, or leaves for the same destination, and packets wait only for
a destination that is busy. -/
def Valid (cells : Cells) : Prop :=
  (∀ i j, cells i = .filling → cells j = .filling → i = j) ∧
    (∀ dst i j, cells i = .emptying dst → cells j = .emptying dst → i = j) ∧
    ∀ dst i, cells i = .full dst → cells.Busy dst

instance (cells : Cells) : Decidable cells.Valid :=
  inferInstanceAs (Decidable (_ ∧ _ ∧ _))

/-- The buffer is in a transfer. -/
def Moves (cells : Cells) (i : Fin 3) : Prop := cells i = .filling ∨ ∃ dst, cells i = .emptying dst

instance (cells : Cells) (i : Fin 3) : Decidable (cells.Moves i) :=
  inferInstanceAs (Decidable (_ ∨ _))

/-! A ring has finitely many states, and what one report does is checked on each. -/

instance (p : Cell → Prop) [DecidablePred p] : Decidable (∀ cell, p cell) :=
  decidable_of_iff (p .empty ∧ p .filling ∧ (∀ dst, p (.full dst)) ∧ ∀ dst, p (.emptying dst)) <| by
    constructor
    · rintro ⟨empty, filling, full, emptying⟩ cell
      cases cell with
      | empty => exact empty
      | filling => exact filling
      | full dst => exact full dst
      | emptying dst => exact emptying dst
    · intro all
      exact ⟨all _, all _, fun _ => all _, fun _ => all _⟩

theorem drain_of : ∀ x y z : Cell, (of x y z).Valid → ∀ i dst, of x y z i = .emptying dst →
    ((of x y z).drain i dst).Valid ∧ ((of x y z).drain i dst).Receives ∧
    (of x y z).queue dst = i :: ((of x y z).drain i dst).queue dst ∧
    (∀ other, other ≠ dst → ((of x y z).drain i dst).queue other = (of x y z).queue other) ∧
    (∀ j, j ≠ i → (of x y z).Moves j → (of x y z).drain i dst j = of x y z j) ∧
    (∀ j other, (of x y z).drain i dst j = .full other → of x y z j = .full other) ∧
    ((of x y z).Receives →
      ∀ j, (of x y z).drain i dst j = .empty ↔ of x y z j = .empty ∨ j = i) ∧
    ∀ other, ((of x y z).drain i dst).Busy other ↔ if other = dst then
      of x y z (i + 1) = .full dst ∨ of x y z (i + 1 + 1) = .full dst else (of x y z).Busy other := by
  decide +kernel

theorem queue_of : ∀ x y z : Cell, (of x y z).Valid → ∀ dst, ((of x y z).queue dst).Nodup ∧
    ∀ i, i ∈ (of x y z).queue dst ↔ (of x y z).holds dst i = true := by
  decide +kernel

theorem fill_of : ∀ x y z : Cell, (of x y z).Valid → ∀ i, of x y z i = .filling → ∀ dst,
    ((of x y z).fill i dst).Valid ∧
    (of x y z (i + 1) ≠ .full dst →
      ((of x y z).fill i dst).queue dst = (of x y z).queue dst ++ [i]) ∧
    (∀ other, other ≠ dst → ((of x y z).fill i dst).queue other = (of x y z).queue other) ∧
    (∀ j, j ≠ i → (of x y z).Moves j → (of x y z).fill i dst j = of x y z j) ∧
    ((of x y z (i + 1 + 1) = .empty → of x y z (i + 1) = .empty) →
      ((of x y z).fill i dst).Open) ∧
    (((of x y z).fill i dst).Receives ↔ of x y z (i + 1) = .empty) ∧
    ∀ other, ((of x y z).fill i dst).Busy other ↔ (of x y z).Busy other ∨ other = dst := by
  decide +kernel

/-! ## What a report does -/

/-- What changes when a packet has left. -/
structure Drains (cells next : Cells) (i : Fin 3) (dst : Fin 2) : Prop where
  valid : next.Valid
  receives : next.Receives
  queue : cells.queue dst = i :: next.queue dst
  others : ∀ other, other ≠ dst → next.queue other = cells.queue other
  moves : ∀ j, j ≠ i → cells.Moves j → next j = cells j
  full : ∀ j other, next j = .full other → cells j = .full other
  empty : cells.Receives → ∀ j, next j = .empty ↔ cells j = .empty ∨ j = i
  busy : ∀ other, next.Busy other ↔ if other = dst then
    cells (i + 1) = .full dst ∨ cells (i + 1 + 1) = .full dst else cells.Busy other

variable {cells next : Cells} {i f : Fin 3} {dst : Fin 2} {before behind : List (Fin 3)}

theorem drain_spec (valid : cells.Valid) (leaves : cells i = .emptying dst) :
    Drains cells (cells.drain i dst) i dst := by
  rw [cells.eq_of] at valid leaves ⊢
  obtain ⟨a, b, c, d, e, f, g, h⟩ := drain_of _ _ _ valid i dst leaves
  exact ⟨a, b, c, d, e, f, g, h⟩

theorem nodup_queue (valid : cells.Valid) (dst : Fin 2) : (cells.queue dst).Nodup := by
  rw [cells.eq_of] at valid ⊢
  exact (queue_of _ _ _ valid dst).1

theorem mem_queue (valid : cells.Valid) :
    i ∈ cells.queue dst ↔ cells i = .full dst ∨ cells i = .emptying dst := by
  rw [cells.eq_of] at valid ⊢
  rw [(queue_of _ _ _ valid dst).2, holds, Bool.or_eq_true, beq_iff_eq, beq_iff_eq]

/-- What changes when a packet comes in. -/
structure Fills (cells next : Cells) (i : Fin 3) (dst : Fin 2) : Prop where
  valid : next.Valid
  queue : cells (i + 1) ≠ .full dst → next.queue dst = cells.queue dst ++ [i]
  others : ∀ other, other ≠ dst → next.queue other = cells.queue other
  moves : ∀ j, j ≠ i → cells.Moves j → next j = cells j
  opens : (cells (i + 1 + 1) = .empty → cells (i + 1) = .empty) → next.Open
  receives : next.Receives ↔ cells (i + 1) = .empty
  busy : ∀ other, next.Busy other ↔ cells.Busy other ∨ other = dst

theorem fill_spec (valid : cells.Valid) (comes : cells i = .filling) (dst : Fin 2) :
    Fills cells (cells.fill i dst) i dst := by
  rw [cells.eq_of] at valid comes ⊢
  obtain ⟨a, b, c, d, e, f, g⟩ := fill_of _ _ _ valid i comes dst
  exact ⟨a, b, c, d, e, f, g⟩

variable {r : Fin 3 → Report}

/-- What follows from the reports about some buffers, one after the other. -/
def reports (r : Fin 3 → Report) (cells : Cells) (is : List (Fin 3)) : Cells :=
  is.foldl (report r) cells

/-- The buffers of a list that are done sending to `dst`. -/
def departing (cells : Cells) (r : Fin 3 → Report) (dst : Fin 2) (is : List (Fin 3)) :
    List (Fin 3) :=
  is.filter fun i => (r i).isSome && cells i == .emptying dst

/-- What changes when packets have left, and none has come in. -/
structure Drained (cells next : Cells) (r : Fin 3 → Report) (is : List (Fin 3)) : Prop where
  valid : next.Valid
  queue : ∀ dst, cells.queue dst = cells.departing r dst is ++ next.queue dst
  opens : cells.Open → next.Open
  receives : (∃ i ∈ is, (r i).isSome = true) → next.Receives
  moves : ∀ j, (j ∈ is → (r j).isSome = false) → cells.Moves j → next j = cells j
  full : ∀ j dst, next j = .full dst → cells j = .full dst
  empty : cells.Receives → ∀ j, next j = .empty ↔ cells j = .empty ∨ j ∈ is ∧ (r j).isSome = true

theorem Receives.keep (receives : cells.Receives)
    (kept : ∀ j, cells j = .filling → next j = cells j) : next.Receives := by
  obtain ⟨j, filling⟩ := receives
  exact ⟨j, (kept j filling).trans filling⟩

theorem reports_drained {cells : Cells} (valid : cells.Valid) {is : List (Fin 3)}
    (distinct : is.Nodup)
    (leave : ∀ i ∈ is, (r i).isSome = true → ∃ dst, cells i = .emptying dst) :
    Drained cells (reports r cells is) r is := by
  induction is generalizing cells with
  | nil =>
    exact ⟨valid, fun _ => rfl, id, by simp, fun _ _ _ => rfl, fun _ _ => id, by simp [reports]⟩
  | cons i is ih =>
    obtain ⟨fresh, distinct⟩ := List.nodup_cons.mp distinct
    cases some : r i with
    | none =>
      have same : reports r cells (i :: is) = reports r cells is := by
        simp [reports, report, some]
      have rest := ih valid distinct fun j member => leave j (List.mem_cons_of_mem i member)
      rw [same]
      refine ⟨rest.valid, ?_, rest.opens, ?_, ?_, rest.full, ?_⟩
      · intro dst
        rw [departing, List.filter_cons_of_neg (by simp [some])]
        exact rest.queue dst
      · rintro ⟨j, member, ended⟩
        obtain rfl | member := List.mem_cons.mp member
        · simp [some] at ended
        · exact rest.receives ⟨j, member, ended⟩
      · intro j silent
        exact rest.moves j fun member => silent (List.mem_cons_of_mem i member)
      · intro receives j
        rw [rest.empty receives]
        simp only [List.mem_cons]
        constructor
        · rintro (empty | ⟨member, ended⟩)
          · exact .inl empty
          · exact .inr ⟨.inr member, ended⟩
        · rintro (empty | ⟨rfl | member, ended⟩)
          · exact .inl empty
          · simp [some] at ended
          · exact .inr ⟨member, ended⟩
    | some answer =>
      obtain ⟨dst, emptying⟩ := leave i List.mem_cons_self (by simp [some])
      have drains := drain_spec valid emptying
      have same : reports r cells (i :: is) = reports r (cells.drain i dst) is := by
        simp [reports, report, some, emptying]
      have kept : ∀ j ∈ is, (r j).isSome = true → cells.drain i dst j = cells j := by
        intro j member ended
        apply drains.moves
        · rintro rfl
          exact fresh member
        · exact .inr (leave j (List.mem_cons_of_mem i member) ended)
      have rest := ih drains.valid distinct fun j member ended => by
        rw [kept j member ended]
        exact leave j (List.mem_cons_of_mem i member) ended
      have still : ∀ other, (cells.drain i dst).departing r other is = cells.departing r other is := by
        intro other
        apply List.filter_congr
        intro j member
        cases ended : (r j).isSome with
        | false => rfl
        | true => rw [kept j member ended]
      rw [same]
      refine ⟨rest.valid, ?_, fun _ => rest.opens fun _ => drains.receives, ?_, ?_, ?_, ?_⟩
      · intro other
        by_cases this : other = dst
        · subst this
          rw [drains.queue, rest.queue, still]
          conv_rhs => rw [departing, List.filter_cons_of_pos (by simp [some, emptying])]
          rfl
        · rw [← drains.others other this, rest.queue, still]
          conv_rhs => rw [departing, List.filter_cons_of_neg
            (by simp [emptying, Ne.symm this])]
          rfl
      · intro _
        apply drains.receives.keep
        intro j filling
        apply rest.moves j _ (.inl filling)
        intro member
        by_contra silent
        have ended : (r j).isSome = true := by rwa [Bool.not_eq_false] at silent
        rw [kept j member ended] at filling
        obtain ⟨other, leaving⟩ := leave j (List.mem_cons_of_mem i member) ended
        cases filling.symm.trans leaving
      · intro j silent moves
        have differs : j ≠ i := by
          rintro rfl
          simpa [some] using silent List.mem_cons_self
        have first := drains.moves j differs moves
        rw [← first]
        apply rest.moves j fun member => silent (List.mem_cons_of_mem i member)
        rwa [Moves, first]
      · intro j other full
        exact drains.full j other (rest.full j other full)
      · intro receives j
        rw [rest.empty drains.receives, drains.empty receives, List.mem_cons]
        constructor
        · rintro ((empty | rfl) | ⟨member, ended⟩)
          · exact .inl empty
          · exact .inr ⟨.inl rfl, by simp [some]⟩
          · exact .inr ⟨.inr member, ended⟩
        · rintro (empty | ⟨rfl | member, ended⟩)
          · exact .inl (.inl empty)
          · exact .inl (.inr rfl)
          · exact .inr ⟨member, ended⟩

/-! ## What a status does -/

def all : List (Fin 3) := [0, 1, 2]

/-- The buffers that were filled with a packet for `dst`. -/
def arriving (cells : Cells) (r : Fin 3 → Report) (dst : Fin 2) (is : List (Fin 3)) :
    List (Fin 3) :=
  is.filter fun i => r i == some (some dst) && cells i == .filling

/-- Only transfers are over. -/
def Sound (cells : Cells) (r : Fin 3 → Report) : Prop :=
  ∀ i, (r i).isSome = true → cells.Moves i

/-- The buffer is empty when the report about buffer `f` is read. -/
def Free (cells : Cells) (r : Fin 3 → Report) (f i : Fin 3) : Prop :=
  cells i = .empty ∨ (r i).isSome = true ∧ i < f

/-- When a packet comes in, the next buffer does not wait for the same destination, and the next
buffer is empty if any is. -/
def Clean (cells : Cells) (r : Fin 3 → Report) : Prop :=
  ∀ f, cells f = .filling → ∀ dst, r f = some (some dst) →
    (cells (f + 1) = .full dst → (r (f + 1 + 1)).isSome = true ∧ f + 1 + 1 < f) ∧
    (cells.Free r f (f + 1 + 1) →
      cells.Free r f (f + 1) ∨ (r (f + 1)).isSome = true ∧ f < f + 1)

/-- What changes when packets have left and come in. -/
structure Settled (cells next : Cells) (r : Fin 3 → Report) : Prop where
  valid : next.Valid
  opens : next.Open
  queue : ∀ dst, ∃ kept, cells.queue dst = cells.departing r dst all ++ kept ∧
    next.queue dst = kept ++ cells.arriving r dst all

theorem around : ∀ i j : Fin 3, j = i ∨ j = i + 1 ∨ j = i + 1 + 1 := by decide

theorem all_split : ∀ f : Fin 3, ∃ before behind, all = before ++ f :: behind ∧ before.Nodup ∧
    behind.Nodup ∧ (∀ i, i ∈ before ↔ i < f) ∧ ∀ i, i ∈ behind ↔ f < i := by
  intro f
  refine ⟨all.filter (· < f), all.filter (f < ·), ?_⟩
  revert f
  decide

/-- The buffer that a packet came in to. -/
structure Takes (cells next : Cells) (f : Fin 3) (answer : Option (Fin 2)) : Prop where
  valid : next.Valid
  queue : ∀ dst, next.queue dst = cells.queue dst ++ if answer = some dst then [f] else []
  moves : ∀ j, j ≠ f → cells.Moves j → next j = cells j

theorem takes_none (valid : cells.Valid) (f : Fin 3) : Takes cells cells f none :=
  ⟨valid, fun _ => by simp, fun _ _ _ => rfl⟩

theorem Fills.takes (fills : Fills cells next f dst) (order : cells (f + 1) ≠ .full dst) :
    Takes cells next f (some dst) := by
  refine ⟨fills.valid, ?_, fills.moves⟩
  intro other
  by_cases same : dst = other
  · subst same
    simp [fills.queue order]
  · simp [same, fills.others other (Ne.symm same)]

theorem Sound.emptying (sound : cells.Sound r) (valid : cells.Valid) (comes : cells f = .filling)
    (other : i ≠ f) (ended : (r i).isSome = true) : ∃ dst, cells i = .emptying dst := by
  obtain filling | emptying := sound i ended
  · exact absurd (valid.1 i f filling comes) other
  · exact emptying

theorem departing_congr {is : List (Fin 3)}
    (same : ∀ i ∈ is, (r i).isSome = true → next i = cells i) (dst : Fin 2) :
    next.departing r dst is = cells.departing r dst is := by
  apply List.filter_congr
  intro i member
  cases ended : (r i).isSome with
  | false => rfl
  | true => rw [same i member ended]

theorem departing_split (comes : cells f = .filling) (split : all = before ++ f :: behind)
    (dst : Fin 2) :
    cells.departing r dst all =
      cells.departing r dst before ++ cells.departing r dst behind := by
  rw [split, departing, List.filter_append, List.filter_cons_of_neg (by simp [comes])]
  rfl

theorem arriving_one (valid : cells.Valid) (comes : cells f = .filling) (dst : Fin 2) :
    cells.arriving r dst all = if r f = some (some dst) then [f] else [] := by
  have others : ∀ i, i ≠ f → ¬(r i == some (some dst) && cells i == .filling) = true := by
    intro i other
    simp only [Bool.and_eq_true, beq_iff_eq, not_and]
    intro _ filling
    exact other (valid.1 i f filling comes)
  obtain ⟨before, behind, split, -, -, below, above⟩ := all_split f
  have nothing : ∀ is : List (Fin 3), f ∉ is →
      (is.filter fun i => r i == some (some dst) && cells i == .filling) = [] := by
    intro is absent
    apply List.filter_eq_nil_iff.mpr
    intro i member
    apply others
    rintro rfl
    exact absent member
  rw [split, arriving, List.filter_append, nothing before (by simp [below]), List.filter_cons,
    nothing behind (by simp [above])]
  simp [comes]

theorem Takes.settled {mid : Cells} {answer : Option (Fin 2)} (comes : cells f = .filling)
    (ended : r f = some answer) (valid : cells.Valid) (sound : cells.Sound r)
    (split : all = before ++ f :: behind) (distinct : behind.Nodup)
    (apart : ∀ i ∈ behind, i ∉ before ∧ i ≠ f) (first : Drained cells mid r before)
    (takes : Takes mid next f answer) (opens : next.Open ∨ ∃ j ∈ behind, (r j).isSome = true) :
    Settled cells (reports r next behind) r := by
  have leave : ∀ i ∈ behind, (r i).isSome = true → mid i = cells i ∧ next i = cells i ∧
      ∃ dst, cells i = .emptying dst := by
    intro i member ended
    obtain ⟨fresh, other⟩ := apart i member
    have emptying := sound.emptying valid comes other ended
    have same := first.moves i (fun member => absurd member fresh) (.inr emptying)
    refine ⟨same, ?_, emptying⟩
    rw [takes.moves i other, same]
    rw [Moves, same]
    exact .inr emptying
  have behindMid : Drained mid (reports r mid behind) r behind := by
    apply reports_drained first.valid distinct
    intro i member ended
    obtain ⟨same, -, emptying⟩ := leave i member ended
    rwa [same]
  have behindNext : Drained next (reports r next behind) r behind := by
    apply reports_drained takes.valid distinct
    intro i member ended
    obtain ⟨-, same, emptying⟩ := leave i member ended
    rwa [same]
  refine ⟨behindNext.valid, ?_, ?_⟩
  · obtain opens | ended := opens
    · exact behindNext.opens opens
    · intro _
      exact behindNext.receives ended
  · intro dst
    refine ⟨(reports r mid behind).queue dst, ?_, ?_⟩
    · rw [first.queue, behindMid.queue, departing_split comes split, List.append_assoc,
        departing_congr fun i member ended => (leave i member ended).1]
    · have both := takes.queue dst
      rw [behindMid.queue, behindNext.queue, List.append_assoc,
        departing_congr fun i member ended => (leave i member ended).1,
        departing_congr fun i member ended => (leave i member ended).2.1] at both
      rw [List.append_cancel_left both, arriving_one valid comes, ended]
      simp

/-- **One status.** What has left was first in its queue, and the packet that came in is the last.
-/
theorem settled_of_clean (valid : cells.Valid) (opens : cells.Open) (sound : cells.Sound r)
    (clean : cells.Clean r) : Settled cells (reports r cells all) r := by
  by_cases quiet : ∀ f, cells f = .filling → r f = none
  · have leave : ∀ i, (r i).isSome = true → ∃ dst, cells i = .emptying dst := by
      intro i ended
      obtain filling | emptying := sound i ended
      · simp [quiet i filling] at ended
      · exact emptying
    have drained := @reports_drained r _ valid all (by decide)
      fun i _ ended => leave i ended
    refine ⟨drained.valid, drained.opens opens, ?_⟩
    intro dst
    refine ⟨_, drained.queue dst, ?_⟩
    have none : cells.arriving r dst all = [] := by
      apply List.filter_eq_nil_iff.mpr
      intro i _
      simp only [Bool.and_eq_true, beq_iff_eq, not_and]
      intro some filling
      simp [quiet i filling] at some
    rw [none, List.append_nil]
  · push Not at quiet
    obtain ⟨f, comes, ended⟩ := quiet
    obtain ⟨answer, ended⟩ := Option.ne_none_iff_exists'.mp ended
    obtain ⟨before, behind, split, apart, distinct, below, above⟩ := all_split f
    have first : Drained cells (reports r cells before) r before := by
      apply reports_drained valid apart
      intro i member ended
      apply sound.emptying valid comes _ ended
      rintro rfl
      exact lt_irrefl i ((below i).mp member)
    have here : reports r cells before f = .filling := by
      rw [first.moves f _ (.inl comes), comes]
      intro member
      exact absurd ((below f).mp member) (lt_irrefl f)
    have whole : reports r cells all = reports r (report r (reports r cells before) f) behind := by
      rw [split, reports, List.foldl_append]
      rfl
    have outside : ∀ i ∈ behind, i ∉ before ∧ i ≠ f := by
      intro i member
      rw [above] at member
      rw [below]
      exact ⟨not_lt_of_gt member, ne_of_gt member⟩
    rw [whole, report, ended, here]
    cases answer with
    | none =>
      apply (takes_none first.valid f).settled comes ended valid sound split distinct outside first
      exact .inl (first.opens opens)
    | some dst =>
      obtain ⟨order, room⟩ := clean f comes dst ended
      have receives : cells.Receives := ⟨f, comes⟩
      have fills := fill_spec first.valid here dst
      have free : ∀ i, reports r cells before i = .empty ↔ cells.Free r f i := by
        intro i
        rw [first.empty receives, below, Free, and_comm]
      have inOrder : reports r cells before (f + 1) ≠ .full dst := by
        intro full
        obtain ⟨ended, early⟩ := order (first.full _ _ full)
        obtain ⟨e, leaving⟩ := first.valid.2.2 dst (f + 1) full
        obtain rfl | rfl | rfl := around f e
        · cases here.symm.trans leaving
        · cases full.symm.trans leaving
        · cases ((free _).mpr (.inr ⟨ended, early⟩)).symm.trans leaving
      apply (fills.takes inOrder).settled comes ended valid sound split distinct outside first
      by_cases last : cells.Free r f (f + 1 + 1)
      · obtain next | ⟨ended, late⟩ := room last
        · exact .inl (fills.opens fun _ => (free _).mpr next)
        · exact .inr ⟨f + 1, (above _).mpr late, ended⟩
      · exact .inl (fills.opens fun empty => absurd ((free _).mp empty) last)

end Cells

end GnuRadio.Usrp2
