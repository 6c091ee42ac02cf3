import GnuRadio.Misc.BroadcastQueue
import GnuRadio.Runtime.Buffer

/-!
# A `gr_buffer` is a bounded broadcast queue

One writer and any number of readers use a buffer in any order. Every run of the
buffer is matched by a run of the abstract queue of capacity `d_bufsize - 1`.
-/

namespace GnuRadio

variable {α τ : Type}

/-! ## Index arithmetic without wrap -/

theorem bmod_int {x : Int} (low : -2147483648 ≤ x) (high : x ≤ 2147483647) :
    x.bmod (2 ^ 32) = x := by
  rw [Int.bmod_def]
  split <;> omega

variable {n a b : Nat}

theorem indexAdd_eq (size : n ≤ intMax) (ha : a < n) (hb : b ≤ n) :
    indexAdd n a b = (a + b) % n := by
  have fits : (a + b) % 2 ^ 32 = a + b := Nat.mod_eq_of_lt (by unfold intMax at size; omega)
  have cell := Ring.cell_add (n := n) (k := a) (m := b) (by omega) hb
  rw [Nat.mod_eq_of_lt ha] at cell
  unfold indexAdd
  dsimp only
  rw [fits, cell]

theorem indexSub_eq (size : n ≤ intMax) (ha : a < n) (hb : b < n) :
    indexSub n a b = if a < b then a + n - b else a - b := by
  unfold intMax at size
  unfold indexSub
  dsimp only
  rw [bmod_int (x := (a : Int) - b) (by omega) (by omega)]
  by_cases below : a < b
  · rw [if_pos (show (a : Int) - b < 0 by omega), if_pos below, bmod_int (by omega) (by omega)]
    omega
  · rw [if_neg (show ¬ (a : Int) - b < 0 by omega), if_neg below]
    omega

theorem indexSub_lt (size : n ≤ intMax) (ha : a < n) (hb : b ≤ n) : indexSub n a b < n := by
  rcases Nat.lt_or_eq_of_le hb with short | rfl
  · rw [indexSub_eq size ha short]
    split <;> omega
  · unfold intMax at size
    unfold indexSub
    dsimp only
    rw [bmod_int (x := (a : Int) - b) (by omega) (by omega), if_pos (by omega),
      bmod_int (by omega) (by omega)]
    omega

namespace Buffer

/-! ## What a reader has in front of it -/

/-- When the writer is at position `w`, reader `r` has the items `held` in front
of it: they lie in the cells up to the writer's. -/
structure Holds (b : Buffer α τ) (w : Nat) (r : BufferReader) (held : List α) : Prop where
  short : held.length < b.bufsize
  started : held.length ≤ w
  readIndex : r.readIndex = (w - held.length) % b.bufsize
  cells : ∀ k (h : k < held.length), b.base ((w - held.length + k) % b.bufsize) = held[k]

variable {b : Buffer α τ} {w n : Nat} {r : BufferReader} {held : List α}

theorem Holds.readIndex_lt (holds : b.Holds w r held) : r.readIndex < b.bufsize := by
  rw [holds.readIndex]
  exact Nat.mod_lt _ b.bufsize_pos

theorem Holds.itemsAvailable (holds : b.Holds w r held) (writer : b.writeIndex = w % b.bufsize) :
    b.itemsAvailable r = held.length := by
  have short := holds.short
  have started := holds.started
  have distance := Ring.cell_distance (n := b.bufsize) (r := w - held.length) (w := w)
    (by omega) (by omega)
  unfold Buffer.itemsAvailable
  rw [holds.readIndex, writer, indexSub_eq b.bufsize_le (Nat.mod_lt _ b.bufsize_pos)
    (Nat.mod_lt _ b.bufsize_pos), distance]
  omega

theorem Holds.itemsAt (holds : b.Holds w r held) (enough : n ≤ held.length) :
    b.itemsAt r n = held.take n := by
  apply List.ext_getElem
  · simp [Buffer.itemsAt, enough]
  · intro k inside _
    simp only [Buffer.itemsAt, List.length_map, List.length_range] at inside
    simp only [Buffer.itemsAt, List.getElem_map, List.getElem_range, List.getElem_take]
    rw [holds.readIndex, Nat.mod_add_mod]
    exact holds.cells k (by omega)

/-- A reader put behind the writer of an unwritten buffer has the cells between in front of it. -/
theorem holds_behind {preload : Nat} (fits : preload < b.bufsize)
    (behind : r.readIndex = indexSub b.bufsize 0 preload) :
    b.Holds b.bufsize r (b.itemsAt r preload) := by
  have start : r.readIndex = (b.bufsize - preload) % b.bufsize := by
    rw [behind, indexSub_eq b.bufsize_le b.bufsize_pos fits]
    split
    · rw [Nat.mod_eq_of_lt (by omega)]
      omega
    · rw [show preload = 0 by omega]
      simp
  have length : (b.itemsAt r preload).length = preload := by simp [Buffer.itemsAt]
  refine ⟨by rw [length]; exact fits, by rw [length]; omega, by rw [length]; exact start, ?_⟩
  intro k inside
  rw [length]
  simp [Buffer.itemsAt, start]

theorem Holds.read (holds : b.Holds w r held) (enough : n ≤ held.length) :
    b.Holds w (r.updateReadPointer b.bufsize n) (held.drop n) := by
  have short := holds.short
  have started := holds.started
  refine ⟨by simp; omega, by simp; omega, ?_, ?_⟩
  · simp only [BufferReader.updateReadPointer, List.length_drop]
    rw [indexAdd_eq b.bufsize_le holds.readIndex_lt (by omega), holds.readIndex,
      Nat.mod_add_mod]
    congr 1
    omega
  · intro k inside
    simp only [List.length_drop] at inside
    simp only [List.length_drop, List.getElem_drop]
    rw [← holds.cells (n + k) (by omega)]
    congr 2
    omega

theorem Holds.write (holds : b.Holds w r held) (writer : b.writeIndex = w % b.bufsize)
    {items : List α} (room : held.length + items.length < b.bufsize) :
    ((b.writeItems items).updateWritePointer items.length).Holds (w + items.length) r
      (held ++ items) := by
  have started := holds.started
  have behind : w + items.length - (held ++ items).length = w - held.length := by
    simp only [List.length_append]
    omega
  refine ⟨by simpa using room, by simp; omega, ?_, ?_⟩
  · rw [behind]
    exact holds.readIndex
  · intro k inside
    rw [behind]
    simp only [List.length_append] at inside
    change Ring.store b.bufsize b.base b.writeIndex items _ = _
    rw [writer, Ring.store_mod]
    by_cases old : k < held.length
    · rw [Ring.store_outside, List.getElem_append_left old, ← holds.cells k old]
      · rfl
      · intro j later
        simp only [updateWritePointer_bufsize, writeItems_bufsize]
        exact Ring.cell_ne (by omega) (by omega)
    · rw [List.getElem_append_right (by omega), ← Ring.store_inside b.bufsize b.base w items
        (by omega) (k - held.length) (by omega)]
      congr 2
      omega

theorem Holds.congr {c : Buffer α τ} (holds : b.Holds w r held) (size : c.bufsize = b.bufsize)
    (base : c.base = b.base) : c.Holds w r held := by
  refine ⟨?_, holds.started, ?_, ?_⟩
  · rw [size]; exact holds.short
  · rw [size]; exact holds.readIndex
  · rw [size, base]; exact holds.cells

/-! ## The free space -/

theorem foldl_max_eq (f : BufferReader → Nat) (most : Nat) (rest : List BufferReader) :
    rest.foldl (fun most r => max most (f r)) most =
      max most ((rest.map f).foldr max 0) := by
  induction rest generalizing most with
  | nil => simp
  | cons r rest ih => simp [ih, max_assoc]

/-- The space for the writer: all cells but one, less the items of the reader that has most. -/
theorem spaceAvailable_fst (b : Buffer α τ) :
    b.spaceAvailable.1 = b.bufsize - 1 - (b.readers.map b.itemsAvailable).foldr max 0 := by
  unfold spaceAvailable
  split
  · rename_i none
    simp [none]
  · rename_i first rest some
    simp only [mostData, foldl_max_eq, some, List.map_cons, List.foldr_cons]
    omega

theorem le_foldr_max {l : List Nat} {m : Nat} (member : m ∈ l) : m ≤ l.foldr max 0 := by
  induction l with
  | nil => simp at member
  | cons x xs ih =>
    simp only [List.foldr_cons]
    rcases List.mem_cons.mp member with rfl | member
    · exact le_max_left _ _
    · exact (ih member).trans (le_max_right _ _)

theorem itemsAvailable_add_le (member : r ∈ b.readers) (offered : n ≤ b.spaceAvailable.1)
    (short : b.itemsAvailable r < b.bufsize) : b.itemsAvailable r + n < b.bufsize := by
  rw [spaceAvailable_fst] at offered
  have := le_foldr_max (List.mem_map_of_mem (f := b.itemsAvailable) member)
  omega

theorem reader?_some {ident : Nat} (found : b.reader? ident = some r) :
    r ∈ b.readers ∧ r.ident = ident := by
  refine ⟨List.mem_of_find?_eq_some found, ?_⟩
  simpa using List.find?_some found

end Buffer

/-! ## One writer and many readers at work -/

/-- The actions of the users of a buffer. -/
inductive BufferOp (α : Type) where
  | write (items : List α)
  | read (ident n : Nat)

/-- A buffer together with what was written to it and what each reader took. -/
structure BufferSession (α τ : Type) where
  buf : Buffer α τ
  written : List α
  taken : Nat → List α

namespace BufferSession

/-- Attach readers with the given preloads, `ident` counting up. -/
def attach (b : Buffer α τ) (link : Nat → BlockId) (ident : Nat) :
    List Nat → Except CppException (Buffer α τ)
  | [] => .ok b
  | preload :: preloads => do
      let b ← b.addReader ident preload (link ident)
      attach b link (ident + 1) preloads

/-- A fresh buffer with its readers attached, before the first write. -/
def start [Zero α] (n : Nat) (pos : 0 < n) (le : n ≤ intMax) (writer : BlockId)
    (link : Nat → BlockId) (preloads : List Nat) : Except CppException (BufferSession α τ) := do
  let b ← attach (Buffer.ofSize n pos le writer) link 0 preloads
  return ⟨b, [], fun _ => []⟩

/-- The writer asks for the free space, stores no more items than that and moves
the write pointer; a reader takes no more items than it has available. -/
def step (s : BufferSession α τ) : BufferOp α → Option (BufferSession α τ)
  | .write items =>
      let (space, b) := s.buf.spaceAvailable
      if items.length ≤ space then
        some ⟨(b.writeItems items).updateWritePointer items.length, s.written ++ items, s.taken⟩
      else none
  | .read ident n =>
      match s.buf.reader? ident with
      | none => none
      | some r =>
          if n ≤ s.buf.itemsAvailable r then
            let items := s.buf.itemsAt r n
            some ⟨s.buf.updateReadPointer ident n, s.written,
              Function.update s.taken ident (s.taken ident ++ items)⟩
          else none

/-- The zero items a reader finds in front of everything written. -/
def zeros [Zero α] (preloads : List Nat) (ident : Nat) : List α :=
  List.replicate (preloads.getD ident 0) 0

/-- The position of the writer, a full turn ahead of the number of items written
so that preloaded readers start at positions of their own. -/
def writer (s : BufferSession α τ) : Nat := s.buf.bufsize + s.written.length

/-- The buffer stores the state `q` of the abstract queue. -/
structure Refines [Zero α] (n : Nat) (preloads : List Nat) (s : BufferSession α τ)
    (q : BroadcastQueue α Nat) : Prop where
  size : s.buf.bufsize = n
  stream : q.stream = s.written
  taken : q.taken = s.taken
  writeIndex : s.buf.writeIndex = s.writer % s.buf.bufsize
  idents : s.buf.readers.map BufferReader.ident = List.range preloads.length
  holds : ∀ r ∈ s.buf.readers, s.buf.Holds s.writer r (q.pending (zeros preloads) r.ident)

/-- The abstract action of a buffer action. -/
def abstractOp : BufferOp α → BroadcastQueue.Op α Nat
  | .write items => .push items
  | .read ident n => .take ident n

variable [Zero α] {n : Nat} {preloads : List Nat} {s : BufferSession α τ}
  {q : BroadcastQueue α Nat}

variable {r : BufferReader} {t : BufferSession α τ} {b : Buffer α τ}

section

variable (refines : Refines n preloads s q)
include refines

theorem Refines.available (member : r ∈ s.buf.readers) :
    s.buf.itemsAvailable r = (q.pending (zeros preloads) r.ident).length :=
  (refines.holds r member).itemsAvailable refines.writeIndex

theorem Refines.writeIndex_lt : s.buf.writeIndex < s.buf.bufsize := by
  rw [refines.writeIndex]
  exact Nat.mod_lt _ s.buf.bufsize_pos

theorem write_simulated (ordered : q.InOrder (zeros preloads)) {items : List α}
    (stepped : s.step (.write items) = some t) :
    ∃ p, q.step (n - 1) (List.range preloads.length) (zeros preloads) (.push items) = some p ∧
      Refines n preloads t p := by
  simp only [step, Option.ite_none_right_eq_some, Option.some.injEq] at stepped
  obtain ⟨offered, rfl⟩ := stepped
  have room : ∀ r ∈ s.buf.readers,
      (q.pending (zeros preloads) r.ident).length + items.length < s.buf.bufsize := by
    intro r member
    rw [← refines.available member]
    exact Buffer.itemsAvailable_add_le member offered
      (by rw [refines.available member]; exact (refines.holds r member).short)
  refine ⟨q.push items, ?_, ?_⟩
  · simp only [BroadcastQueue.step, Option.ite_none_right_eq_some, and_true]
    intro ident inside
    rw [← refines.idents] at inside
    obtain ⟨r, member, rfl⟩ := List.mem_map.mp inside
    have := room r member
    have := refines.size
    omega
  · refine ⟨by simpa using refines.size, ?_, refines.taken, ?_, by simpa using refines.idents, ?_⟩
    · simp [BroadcastQueue.push, refines.stream]
    · have few : items.length ≤ s.buf.bufsize := by
        rw [Buffer.spaceAvailable_fst] at offered
        omega
      simp only [Buffer.updateWritePointer_writeIndex, Buffer.writeItems_writeIndex,
        Buffer.writeItems_bufsize, Buffer.updateWritePointer_bufsize,
        Buffer.spaceAvailable_bufsize, Buffer.spaceAvailable_writeIndex, writer]
      rw [indexAdd_eq s.buf.bufsize_le refines.writeIndex_lt few, refines.writeIndex,
        Nat.mod_add_mod, List.length_append, writer, Nat.add_assoc]
    · intro r member
      simp only [Buffer.updateWritePointer_readers, Buffer.writeItems_readers,
        Buffer.spaceAvailable_readers] at member
      rw [BroadcastQueue.pending_push ordered]
      have held := (refines.holds r member).congr (c := s.buf.spaceAvailable.2)
        (by simp) (by simp)
      have wrote := held.write (by simpa using refines.writeIndex)
        (by simpa using room r member)
      simpa [writer, Nat.add_assoc] using wrote

theorem read_simulated {ident count : Nat} (stepped : s.step (.read ident count) = some t) :
    ∃ p, q.step (n - 1) (List.range preloads.length) (zeros preloads) (.take ident count) =
      some p ∧ Refines n preloads t p := by
  simp only [step] at stepped
  split at stepped
  · cases stepped
  rename_i r found
  obtain ⟨member, rfl⟩ := Buffer.reader?_some found
  rw [Option.ite_none_right_eq_some, refines.available member, Option.some.injEq] at stepped
  obtain ⟨enough, rfl⟩ := stepped
  refine ⟨q.take (zeros preloads) r.ident count, ?_, ?_⟩
  · simp only [BroadcastQueue.step, Option.ite_none_right_eq_some, and_true]
    refine ⟨?_, enough⟩
    rw [← refines.idents]
    exact List.mem_map_of_mem member
  · refine ⟨refines.size, refines.stream, ?_, refines.writeIndex, ?_, ?_⟩
    · simp only [BroadcastQueue.take, refines.taken]
      rw [(refines.holds r member).itemsAt enough]
    · rw [← refines.idents]
      simp only [Buffer.updateReadPointer, List.map_map]
      apply List.map_congr_left
      intro other _
      simp only [Function.comp_apply]
      split <;> rfl
    · intro moved inside
      obtain ⟨other, present, rfl⟩ := List.mem_map.mp inside
      have held := refines.holds other present
      by_cases same : other.ident = r.ident
      · rw [if_pos same, BroadcastQueue.pending_take _ _ _ enough,
          if_pos (show (other.updateReadPointer _ _).ident = r.ident from same)]
        rw [same] at held
        exact (held.read enough).congr rfl rfl
      · rw [if_neg same, BroadcastQueue.pending_take _ _ _ enough, if_neg same]
        exact held.congr rfl rfl

theorem step_simulated (ordered : q.InOrder (zeros preloads)) {op : BufferOp α}
    (stepped : s.step op = some t) :
    ∃ p, q.step (n - 1) (List.range preloads.length) (zeros preloads) (abstractOp op) = some p ∧
      Refines n preloads t p := by
  cases op with
  | write items => exact write_simulated refines ordered stepped
  | read ident count => exact read_simulated refines stepped

end

theorem holds_fresh {preload : Nat} (fits : preload < b.bufsize) (cleared : ∀ c, b.base c = 0)
    (behind : r.readIndex = indexSub b.bufsize 0 preload) :
    b.Holds b.bufsize r (List.replicate preload 0) := by
  have zeros : b.itemsAt r preload = List.replicate preload 0 := by
    rw [List.eq_replicate_iff]
    simp [Buffer.itemsAt, cleared]
  rw [← zeros]
  exact Buffer.holds_behind fits behind

/-- Readers of an unwritten buffer find their preload in front of them. -/
theorem attach_ok (cleared : ∀ c, b.base c = 0) (unwritten : b.writeIndex = 0)
    (link : Nat → BlockId) (all preloads : List Nat) (ident : Nat)
    (split : all.drop ident = preloads) (fits : ∀ p ∈ all, p < b.bufsize)
    (idents : b.readers.map BufferReader.ident = List.range ident)
    (holds : ∀ r ∈ b.readers, b.Holds b.bufsize r (zeros all r.ident)) :
    ∃ c, attach b link ident preloads = .ok c ∧ c.base = b.base ∧ c.writeIndex = 0 ∧
      c.bufsize = b.bufsize ∧
      c.readers.map BufferReader.ident = List.range (ident + preloads.length) ∧
      ∀ r ∈ c.readers, c.Holds c.bufsize r (zeros all r.ident) := by
  induction preloads generalizing b ident with
  | nil => exact ⟨b, rfl, rfl, unwritten, rfl, by simpa using idents, holds⟩
  | cons p ps ih =>
    have inside : ident < all.length := by
      by_contra outside
      rw [List.drop_eq_nil_of_le (by omega)] at split
      cases split
    have here : all[ident] = p ∧ all.drop (ident + 1) = ps := by
      rw [List.drop_eq_getElem_cons inside] at split
      exact ⟨(List.cons.inj split).1, (List.cons.inj split).2⟩
    have small : p < b.bufsize := here.1 ▸ fits _ (List.getElem_mem inside)
    have below : indexSub b.bufsize 0 p < b.bufsize := by
      rw [indexSub_eq b.bufsize_le b.bufsize_pos small]
      split <;> omega
    have added : b.addReader ident p (link ident) =
        .ok { b with readers := b.readers ++ [⟨ident, indexSub b.bufsize 0 p, 0, link ident⟩] } := by
      simp [Buffer.addReader, unwritten, below]
    obtain ⟨c, attached, base, written, size, named, held⟩ := ih
      (b := { b with readers := b.readers ++ [⟨ident, indexSub b.bufsize 0 p, 0, link ident⟩] })
      cleared unwritten (ident + 1) here.2 fits
      (by simp [idents, List.range_succ])
      (by
        intro r member
        rcases List.mem_append.mp member with old | new
        · exact (holds r old).congr rfl rfl
        · obtain rfl := List.mem_singleton.mp new
          have preload : zeros all ident = List.replicate p (0 : α) := by
            simp [zeros, inside, here.1]
          rw [preload]
          exact holds_fresh small cleared rfl)
    refine ⟨c, ?_, base, written, size, ?_, held⟩
    · simpa [attach, added, bind, Except.bind] using attached
    · rw [named, List.length_cons]
      congr 1
      omega

theorem start_refines (pos : 0 < n) (le : n ≤ intMax) (writer : BlockId) (link : Nat → BlockId)
    (fits : ∀ p ∈ preloads, p < n) :
    ∃ s : BufferSession α τ, start n pos le writer link preloads = .ok s ∧
      Refines n preloads s BroadcastQueue.empty := by
  obtain ⟨b, attached, -, written, size, idents, holds⟩ :=
    attach_ok (b := (Buffer.ofSize n pos le writer : Buffer α τ)) (fun _ => rfl) rfl link preloads
      preloads 0 rfl fits rfl (by intro r member; cases member)
  refine ⟨⟨b, [], fun _ => []⟩, ?_, ?_⟩
  · simp [start, attached, bind, Except.bind, pure, Except.pure]
  · refine ⟨size, rfl, rfl, ?_, by simpa using idents, ?_⟩
    · simp [BufferSession.writer, written]
    · intro r member
      have held := holds r member
      simpa [BufferSession.writer, BroadcastQueue.pending, BroadcastQueue.empty] using held

theorem run_simulated (pos : 0 < n) (le : n ≤ intMax) (writer : BlockId) (link : Nat → BlockId)
    (fits : ∀ p ∈ preloads, p < n) {ops : List (BufferOp α)} {s₀ : BufferSession α τ}
    (started : start n pos le writer link preloads = .ok s₀) (reached : run step s₀ ops = some s) :
    ∃ q, q.InOrder (zeros preloads) ∧ Refines n preloads s q := by
  obtain ⟨s₁, same, refines⟩ := start_refines (α := α) (τ := τ) pos le writer link fits
  obtain rfl : s₁ = s₀ := Except.ok.inj (same.symm.trans started)
  obtain ⟨q, -, ordered, related⟩ := run_simulates
    (fun s q => q.InOrder (zeros preloads) ∧ Refines n preloads s q) abstractOp
    (by
      rintro t op u a ⟨ordered, related⟩ stepped
      obtain ⟨p, abstract, next⟩ := step_simulated related ordered stepped
      exact ⟨p, abstract, BroadcastQueue.step_inOrder ordered abstract, next⟩)
    ⟨BroadcastQueue.inOrder_empty _, refines⟩ reached
  exact ⟨q, ordered, related⟩

/-- The items a reader has not taken yet, its preload included. -/
def backlog (preloads : List Nat) (s : BufferSession α τ) (ident : Nat) : Nat :=
  preloads.getD ident 0 + s.written.length - (s.taken ident).length

/-- What the users of a buffer rely on: each reader gets its zeros and then the written stream in
order, and the two counts the buffer reports are exact. -/
structure Faithful (n : Nat) (preloads : List Nat) (s : BufferSession α τ) : Prop where
  bufsize : s.buf.bufsize = n
  writeIndex_lt : s.buf.writeIndex < n
  space : s.buf.spaceAvailable.1 =
    n - 1 - ((List.range preloads.length).map (s.backlog preloads)).foldr max 0
  reader : ∀ ident < preloads.length, ∃ r, s.buf.reader? ident = some r ∧ r.readIndex < n ∧
    s.taken ident <+: zeros preloads ident ++ s.written ∧
    s.buf.itemsAvailable r = s.backlog preloads ident ∧
    s.buf.itemsAt r (s.buf.itemsAvailable r) =
      (zeros preloads ident ++ s.written).drop (s.taken ident).length

theorem Refines.backlog (refines : Refines n preloads s q) (ordered : q.InOrder (zeros preloads))
    (ident : Nat) : (q.pending (zeros preloads) ident).length = s.backlog preloads ident := by
  have := ordered.length ident
  rw [refines.taken, refines.stream, zeros, List.length_replicate] at this
  unfold BufferSession.backlog
  omega

theorem Refines.faithful (refines : Refines n preloads s q) (ordered : q.InOrder (zeros preloads)) :
    Faithful n preloads s := by
  refine ⟨refines.size, refines.size ▸ refines.writeIndex_lt, ?_, ?_⟩
  · rw [Buffer.spaceAvailable_fst, refines.size, ← refines.idents, List.map_map]
    congr 2
    apply List.map_congr_left
    intro r member
    rw [refines.available member, refines.backlog ordered, Function.comp_apply]
  · intro ident inside
    have named : ident ∈ s.buf.readers.map BufferReader.ident := by
      rw [refines.idents]
      exact List.mem_range.mpr inside
    obtain ⟨r, found⟩ : ∃ r, s.buf.reader? ident = some r := by
      rw [← Option.isSome_iff_exists, Buffer.reader?, List.find?_isSome]
      obtain ⟨r, member, same⟩ := List.mem_map.mp named
      exact ⟨r, member, by simpa using same⟩
    obtain ⟨member, rfl⟩ := Buffer.reader?_some found
    have held := refines.holds r member
    refine ⟨r, found, refines.size ▸ held.readIndex_lt, ?_, ?_, ?_⟩
    · rw [← refines.taken, ← refines.stream]
      exact ordered.taken_isPrefix r.ident
    · rw [refines.available member, refines.backlog ordered]
    · rw [refines.available member, held.itemsAt le_rfl, List.take_length,
        BroadcastQueue.pending, refines.stream, refines.taken]

/-- A buffer whose readers were attached before the first write is a bounded
broadcast FIFO under every interleaving of its users. -/
theorem buffer_fifo (pos : 0 < n) (le : n ≤ intMax) (writer : BlockId) (link : Nat → BlockId)
    (fits : ∀ p ∈ preloads, p < n) :
    ∃ s₀ : BufferSession α τ, start n pos le writer link preloads = .ok s₀ ∧
      ∀ ops s, run step s₀ ops = some s → Faithful n preloads s := by
  obtain ⟨s₀, started, -⟩ := start_refines (α := α) (τ := τ) pos le writer link fits
  refine ⟨s₀, started, ?_⟩
  intro ops s reached
  obtain ⟨q, ordered, refines⟩ := run_simulated pos le writer link fits started reached
  exact refines.faithful ordered

/-- Two readers of a buffer of four items, one with a preload of two, while the writer wraps. -/
theorem buffer_fifo_four : ∃ s₀ s : BufferSession Nat Unit,
    start 4 (by decide) (by decide) 0 (fun i => i + 1) [0, 2] = .ok s₀ ∧
    run step s₀ [.write [7], .read 1 2, .write [8, 9], .read 0 2] = some s ∧
    Faithful 4 [0, 2] s := by
  obtain ⟨s₀, started, faithful⟩ :=
    @buffer_fifo Nat Unit _ 4 [0, 2] (by decide) (by decide) 0 (fun i => i + 1) (by decide)
  have enabled : ((start (α := Nat) (τ := Unit) 4 (by decide) (by decide) 0 (fun i => i + 1)
      [0, 2]).toOption.bind fun s =>
        run step s [.write [7], .read 1 2, .write [8, 9], .read 0 2]).isSome := by
    decide +kernel
  rw [started] at enabled
  obtain ⟨s, reached⟩ := Option.isSome_iff_exists.mp enabled
  exact ⟨s₀, s, started, reached, faithful _ s reached⟩

end BufferSession

end GnuRadio
