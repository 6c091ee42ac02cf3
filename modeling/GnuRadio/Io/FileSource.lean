import Mathlib.Data.List.GetD
import Mathlib.Tactic.Ring

/-!
# The file source

`gr_file_source::work` reads until its output is full. Where `fread` returns nothing it stops, or
with the repeat flag it goes back to the beginning of the file and tries again.
-/

namespace GnuRadio

/-- An item, as the bytes of the file that make it up. -/
abbrev FileItem := List UInt8

/-- A `gr_file_source` (`gr_file_source.cc:52-70`) with its open file: what the file contains and
    where the next byte is read. -/
structure GrFileSource where
  content : List UInt8
  position : ℕ := 0
  d_itemsize : ℕ
  d_repeat : Bool
  deriving DecidableEq, Repr

/-- What a call of `work` returns, and the items at its output. -/
structure FileWork where
  ret : Int
  items : List FileItem
  deriving DecidableEq, Repr

namespace GrFileSource

/-- The whole items from byte `position` on. -/
def itemsFrom (src : GrFileSource) (count : ℕ) : List FileItem :=
  (List.range count).map fun k =>
    (src.content.drop (src.position + k * src.d_itemsize)).take src.d_itemsize

/-- `fread`: as many whole items as there are. A last part of an item is read as well, but it is
    not counted, and no bytes are read where an item has none. -/
def fread (src : GrFileSource) (size : ℕ) : List FileItem × GrFileSource :=
  let left := src.content.length - src.position
  (src.itemsFrom (min size (left / src.d_itemsize)),
    { src with position := src.position + min (size * src.d_itemsize) left })

/-- `fseek (d_fp, 0, SEEK_SET)`. -/
def rewind (src : GrFileSource) : GrFileSource := { src with position := 0 }

/-- The loop of `work` (`gr_file_source.cc:94-117`), which may read for ever: what is left of
    `size` when it ends, and what was read. -/
def readLoop : ℕ → GrFileSource → ℕ → List FileItem → Option (ℕ × List FileItem × GrFileSource)
  | 0, _, _, _ => none
  | fuel + 1, src, size, o =>
      if size = 0 then some (size, o, src)
      else
        let (items, src) := src.fread size
        let size := size - items.length
        let o := o ++ items
        if size = 0 then some (size, o, src)
        -- a short read: try again
        else if 0 < items.length then readLoop fuel src size o
        else if !src.d_repeat then some (size, o, src)
        else readLoop fuel src.rewind size o

/-- `work` (`gr_file_source.cc:85-126`). -/
def work (fuel : ℕ) (src : GrFileSource) (noutputItems : ℕ) :
    Option (FileWork × GrFileSource) := do
  let (size, items, src) ← src.readLoop fuel noutputItems []
  if 0 < size then
    if size = noutputItems then return (⟨-1, items⟩, src)
    else return (⟨noutputItems - size, items⟩, src)
  else return (⟨noutputItems, items⟩, src)

/-- One call of `work` after another. -/
def works (fuel : ℕ) (src : GrFileSource) : List ℕ → Option (List FileWork × GrFileSource)
  | [] => some ([], src)
  | noutputItems :: calls => do
      let (result, src) ← src.work fuel noutputItems
      let (results, src) ← src.works fuel calls
      return (result :: results, src)

end GrFileSource

/-! ## What a file source is for -/

/-- The whole items of a file. -/
def wholeItems (content : List UInt8) (itemsize : ℕ) : List FileItem :=
  (List.range (content.length / itemsize)).map fun k => (content.drop (k * itemsize)).take itemsize

/-- The items that are due behind the first `p` of the stream: those of the file in order, or
    those of the file over and over. -/
def itemsDue (items : List FileItem) (repeats : Bool) (p count : ℕ) : List FileItem :=
  if repeats && !items.isEmpty then
    (List.range count).map fun j => items.getD ((p + j) % items.length) []
  else (items.drop p).take count

/-- The answer to a call: how many items, or the done code where some were wanted and none came. -/
def fileAnswer (noutputItems : ℕ) (items : List FileItem) : FileWork :=
  ⟨if 0 < noutputItems ∧ items = [] then -1 else items.length, items⟩

/-- The answers to calls, from item `p` of the stream on. -/
def fileAnswers (items : List FileItem) (repeats : Bool) : ℕ → List ℕ → List FileWork
  | _, [] => []
  | p, noutputItems :: calls =>
      fileAnswer noutputItems (itemsDue items repeats p noutputItems) ::
        fileAnswers items repeats (p + noutputItems) calls

theorem itemsDue_add (items : List FileItem) (repeats : Bool) (p m n : ℕ) :
    itemsDue items repeats p (m + n) =
      itemsDue items repeats p m ++ itemsDue items repeats (p + m) n := by
  unfold itemsDue
  split
  · rw [List.range_add, List.map_append, List.map_map]
    simp only [Function.comp_def, Nat.add_assoc]
  · rw [List.take_add, List.drop_drop]

theorem flatMap_fileAnswers (items : List FileItem) (repeats : Bool) (p : ℕ) (calls : List ℕ) :
    (fileAnswers items repeats p calls).flatMap FileWork.items =
      itemsDue items repeats p calls.sum := by
  induction calls generalizing p with
  | nil =>
    unfold itemsDue
    split <;> simp [fileAnswers]
  | cons noutputItems calls ih =>
    rw [fileAnswers, List.flatMap_cons, ih, List.sum_cons, itemsDue_add]
    rfl

namespace GrFileSource

variable {content : List UInt8} {itemsize p q position size : ℕ} {repeats : Bool}

/-! ## Reading -/

/-- `q` whole items have been read since the beginning of the file, and maybe the last part of an
    item behind all of them. -/
def Place (content : List UInt8) (itemsize q position : ℕ) : Prop :=
  position = q * itemsize ∧ q ≤ content.length / itemsize ∨
    position = content.length ∧ q = content.length / itemsize

theorem length_wholeItems (content : List UInt8) (itemsize : ℕ) :
    (wholeItems content itemsize).length = content.length / itemsize := by
  rw [wholeItems, List.length_map, List.length_range]

theorem take_drop_wholeItems (content : List UInt8) (itemsize q size : ℕ) :
    ((wholeItems content itemsize).drop q).take size =
      (List.range (min size (content.length / itemsize - q))).map fun k =>
        (content.drop (q * itemsize + k * itemsize)).take itemsize := by
  refine List.ext_getElem (by simp [wholeItems]) fun k inside _ => ?_
  simp [wholeItems, Nat.add_mul]

theorem place_read (within : q ≤ content.length / itemsize) (size : ℕ) :
    Place content itemsize (min (q + size) (content.length / itemsize))
      (q * itemsize + min (size * itemsize) (content.length - q * itemsize)) := by
  rcases Nat.eq_zero_or_pos itemsize with rfl | some
  · exact Or.inl ⟨by simp, Nat.min_le_right ..⟩
  · have before : q * itemsize ≤ content.length := (Nat.le_div_iff_mul_le some).mp within
    have sum : (q + size) * itemsize = q * itemsize + size * itemsize := Nat.add_mul ..
    rcases Nat.le_total (size * itemsize) (content.length - q * itemsize) with inside | beyond
    · have whole : q + size ≤ content.length / itemsize :=
        (Nat.le_div_iff_mul_le some).mpr (by omega)
      exact Or.inl ⟨by rw [Nat.min_eq_left inside, Nat.min_eq_left whole, sum], Nat.min_le_right ..⟩
    · have last : content.length / itemsize ≤ q + size :=
        Nat.div_le_of_le_mul (by rw [Nat.mul_comm, sum]; omega)
      exact Or.inr ⟨by rw [Nat.min_eq_right beyond]; omega, Nat.min_eq_right last⟩

theorem fread_place (place : Place content itemsize q position) (repeats : Bool) (size : ℕ) :
    ∃ position', fread ⟨content, position, itemsize, repeats⟩ size =
        (((wholeItems content itemsize).drop q).take size,
          ⟨content, position', itemsize, repeats⟩) ∧
      Place content itemsize (min (q + size) (content.length / itemsize)) position' := by
  refine ⟨_, Prod.ext ?_ rfl, ?_⟩
  · rw [take_drop_wholeItems]
    rcases place with ⟨rfl, within⟩ | ⟨rfl, rfl⟩
    · have left : (content.length - q * itemsize) / itemsize = content.length / itemsize - q := by
        rw [Nat.mul_comm, Nat.sub_mul_div]
      simp only [fread, itemsFrom, left]
    · simp [fread, itemsFrom]
  · rcases place with ⟨rfl, within⟩ | ⟨rfl, rfl⟩
    · exact place_read within size
    · exact Or.inr ⟨by simp, by simp⟩

/-! ## The loop -/

section Rounds

variable (fuel : ℕ) {src src' : GrFileSource} {items : List FileItem}
  (read : src.fread size = (items, src')) (wanted : 0 < size) (o : List FileItem)

include read wanted

theorem readLoop_full (full : items.length = size) :
    src.readLoop (fuel + 1) size o = some (0, o ++ items, src') := by
  rw [readLoop, if_neg wanted.ne', read]
  simp [full]

theorem readLoop_short (some : 0 < items.length) (short : items.length < size) :
    src.readLoop (fuel + 1) size o =
      src'.readLoop fuel (size - items.length) (o ++ items) := by
  have left : size - items.length ≠ 0 := by omega
  rw [readLoop, if_neg wanted.ne', read]
  simp [left, some]

theorem readLoop_nothing (none : items = []) :
    src.readLoop (fuel + 1) size o =
      if src'.d_repeat then src'.rewind.readLoop fuel size o else some (size, o, src') := by
  rw [readLoop, if_neg wanted.ne', read, none]
  cases repeating : src'.d_repeat <;> simp [wanted.ne', repeating]

end Rounds

theorem Place.le (place : Place content itemsize q position) : q ≤ content.length / itemsize := by
  rcases place with ⟨-, within⟩ | ⟨-, rfl⟩
  · exact within
  · exact le_rfl

theorem length_read (content : List UInt8) (itemsize q size : ℕ) :
    (((wholeItems content itemsize).drop q).take size).length =
      min size (content.length / itemsize - q) := by
  rw [List.length_take, List.length_drop, length_wholeItems]

theorem fread_end (place : Place content itemsize (content.length / itemsize) position)
    (repeats : Bool) (size : ℕ) : ∃ position',
      fread ⟨content, position, itemsize, repeats⟩ size =
        ([], ⟨content, position', itemsize, repeats⟩) ∧
      Place content itemsize (content.length / itemsize) position' := by
  obtain ⟨position', read, place'⟩ := fread_place place repeats size
  rw [List.drop_eq_nil_of_le (length_wholeItems content itemsize).le, List.take_nil] at read
  rw [Nat.min_eq_right (Nat.le_add_right ..)] at place'
  exact ⟨position', read, place'⟩

theorem readLoop_once (place : Place content itemsize q position) (size : ℕ) (o : List FileItem) :
    ∃ fuel left position', readLoop fuel ⟨content, position, itemsize, false⟩ size o =
        some (left, o ++ ((wholeItems content itemsize).drop q).take size,
          ⟨content, position', itemsize, false⟩) ∧
      left + (((wholeItems content itemsize).drop q).take size).length = size ∧
      Place content itemsize (min (q + size) (content.length / itemsize)) position' := by
  have within := place.le
  rcases Nat.eq_zero_or_pos size with rfl | wanted
  · refine ⟨1, 0, position, by simp [readLoop], by simp, ?_⟩
    rwa [Nat.add_zero, Nat.min_eq_left within]
  · obtain ⟨position₁, read, place₁⟩ := fread_place place false size
    have length := length_read content itemsize q size
    generalize ((wholeItems content itemsize).drop q).take size = items at read length ⊢
    rcases Nat.lt_or_ge items.length size with short | full
    · have last : min (q + size) (content.length / itemsize) = content.length / itemsize := by
        omega
      rw [last] at place₁ ⊢
      rcases Nat.eq_zero_or_pos items.length with none | some
      · have empty := List.length_eq_zero_iff.mp none
        refine ⟨1, size, position₁, ?_, by omega, place₁⟩
        rw [readLoop_nothing 0 read wanted o empty, empty, List.append_nil]
        rfl
      · obtain ⟨position₂, read₂, place₂⟩ := fread_end place₁ false (size - items.length)
        refine ⟨2, size - items.length, position₂, ?_, by omega, place₂⟩
        rw [readLoop_short 1 read wanted o some short,
          readLoop_nothing 0 read₂ (Nat.sub_pos_of_lt short) _ rfl]
        rfl
    · exact ⟨1, 0, position₁, readLoop_full 0 read wanted o (by omega), by omega, place₁⟩

variable {items : List FileItem} {fuel noutputItems fuel' : ℕ} {src src' : GrFileSource}
  {calls : List ℕ} {results : List FileWork}

theorem itemsDue_inside (repeats : Bool) {count : ℕ} (inside : q + count ≤ items.length) :
    itemsDue items repeats q count = (items.drop q).take count := by
  unfold itemsDue
  split
  · refine List.ext_getElem (by simp; omega) fun j here _ => ?_
    rw [List.length_map, List.length_range] at here
    have place : (q + j) % items.length = q + j := Nat.mod_eq_of_lt (by omega)
    have inside : q + j < items.length := by omega
    simp only [List.getElem_map, List.getElem_range, place, List.getD_eq_getElem _ _ inside,
      List.getElem_take, List.getElem_drop]
  · rfl

theorem itemsDue_turn (some : 0 < items.length) (same : p % items.length = q % items.length)
    (count : ℕ) : itemsDue items true p count = itemsDue items true q count := by
  have filled : (true && !items.isEmpty) = true := by
    cases items with
    | nil => cases some
    | cons item items => rfl
  rw [itemsDue, itemsDue, if_pos filled, if_pos filled]
  refine List.map_congr_left fun j _ => ?_
  rw [Nat.add_mod p, Nat.add_mod q, same]

theorem readLoop_repeat (nonempty : 0 < content.length / itemsize)
    (place : Place content itemsize q position) (size : ℕ) (o : List FileItem) :
    ∃ fuel position' q', readLoop fuel ⟨content, position, itemsize, true⟩ size o =
        some (0, o ++ itemsDue (wholeItems content itemsize) true q size,
          ⟨content, position', itemsize, true⟩) ∧
      Place content itemsize q' position' ∧
      q' % (content.length / itemsize) = (q + size) % (content.length / itemsize) := by
  have count := length_wholeItems content itemsize
  have filled : 0 < (wholeItems content itemsize).length := count ▸ nonempty
  induction size using Nat.strong_induction_on generalizing q position o with
  | _ size ih =>
    rcases Nat.eq_zero_or_pos size with rfl | wanted
    · exact ⟨1, position, q, by simp [readLoop, itemsDue], place, rfl⟩
    · -- somewhere in front of the last item something is read
      have fresh : ∀ {q position : ℕ} (o : List FileItem), q < content.length / itemsize →
          Place content itemsize q position → ∃ fuel position' q',
            readLoop fuel ⟨content, position, itemsize, true⟩ size o =
              some (0, o ++ itemsDue (wholeItems content itemsize) true q size,
                ⟨content, position', itemsize, true⟩) ∧
            Place content itemsize q' position' ∧
            q' % (content.length / itemsize) = (q + size) % (content.length / itemsize) := by
        intro q position o inside place
        obtain ⟨position₁, read, place₁⟩ := fread_place place true size
        have length := length_read content itemsize q size
        rcases Nat.lt_or_ge (content.length / itemsize - q) size with short | full
        · have last : min (q + size) (content.length / itemsize) = content.length / itemsize := by
            omega
          have items : itemsDue (wholeItems content itemsize) true q
              (content.length / itemsize - q) =
                ((wholeItems content itemsize).drop q).take size := by
            rw [itemsDue_inside true (by omega), List.take_of_length_le (by simp [count]),
              List.take_of_length_le (by rw [List.length_drop, count]; omega)]
          rw [last] at place₁
          obtain ⟨fuel, position₂, q₂, looped, place₂, turn⟩ :=
            ih (size - (content.length / itemsize - q)) (by omega) place₁
              (o ++ ((wholeItems content itemsize).drop q).take size)
          refine ⟨fuel + 1, position₂, q₂, ?_, place₂, turn.trans (congrArg (· % _) (by omega))⟩
          have whole : size = content.length / itemsize - q +
              (size - (content.length / itemsize - q)) := by omega
          have next : q + (content.length / itemsize - q) = content.length / itemsize := by omega
          rw [readLoop_short fuel read wanted o (by omega) (by omega), length,
            Nat.min_eq_right short.le, looped, List.append_assoc, ← items]
          conv_rhs => rw [whole, itemsDue_add, next]
        · refine ⟨1, position₁, q + size, ?_, ?_, rfl⟩
          · rw [readLoop_full 0 read wanted o (by omega), itemsDue_inside true (by omega)]
          · rwa [Nat.min_eq_left (by omega)] at place₁
      rcases Nat.lt_or_ge q (content.length / itemsize) with inside | beyond
      · exact fresh o inside place
      · obtain rfl : q = content.length / itemsize := Nat.le_antisymm place.le beyond
        obtain ⟨position₁, read, -⟩ := fread_end place true size
        obtain ⟨fuel, position₂, q₂, looped, place₂, turn⟩ :=
          fresh o nonempty (Or.inl ⟨(Nat.zero_mul _).symm, Nat.zero_le _⟩)
        refine ⟨fuel + 1, position₂, q₂, ?_, place₂, turn.trans (by simp)⟩
        rw [readLoop_nothing fuel read wanted o rfl, if_pos rfl,
          itemsDue_turn filled (q := 0) (by rw [count, Nat.mod_self, Nat.zero_mod])]
        exact looped

theorem readLoop_forever (none : content.length / itemsize = 0) (wanted : 0 < size) (fuel : ℕ)
    (o : List FileItem) (position : ℕ) :
    readLoop fuel ⟨content, position, itemsize, true⟩ size o = Option.none := by
  induction fuel generalizing position with
  | zero => rfl
  | succ fuel ih =>
    have empty : (fread ⟨content, position, itemsize, true⟩ size).1 = [] := by
      have left : (content.length - position) / itemsize = 0 :=
        Nat.le_zero.mp (none ▸ Nat.div_le_div_right (Nat.sub_le ..))
      simp [fread, itemsFrom, left]
    rw [readLoop_nothing fuel rfl wanted o empty, if_pos rfl]
    exact ih 0

theorem readLoop_mono {fuel fuel' : ℕ} (more : fuel ≤ fuel') {src : GrFileSource}
    {o : List FileItem} {result : ℕ × List FileItem × GrFileSource}
    (ended : src.readLoop fuel size o = some result) :
    src.readLoop fuel' size o = some result := by
  induction fuel generalizing fuel' src size o with
  | zero => cases ended
  | succ fuel ih =>
    cases fuel' with
    | zero => cases more
    | succ fuel' =>
      have rest := fun (src : GrFileSource) size o =>
        @ih size fuel' (Nat.le_of_succ_le_succ more) src o
      rw [readLoop] at ended ⊢
      split
      · rwa [if_pos ‹_›] at ended
      · rw [if_neg ‹_›] at ended
        dsimp only at ended ⊢
        split
        · rwa [if_pos ‹_›] at ended
        · rw [if_neg ‹_›] at ended
          split
          · rw [if_pos ‹_›] at ended
            exact rest _ _ _ ended
          · rw [if_neg ‹_›] at ended
            split
            · rwa [if_pos ‹_›] at ended
            · rw [if_neg ‹_›] at ended
              exact rest _ _ _ ended

/-! ## Calls -/

/-- Item `p` of the stream is the next one. -/
def Reached (content : List UInt8) (itemsize : ℕ) (repeats : Bool) (p : ℕ) (src : GrFileSource) :
    Prop :=
  ∃ q position, src = ⟨content, position, itemsize, repeats⟩ ∧
    Place content itemsize q position ∧
    if repeats then q % (content.length / itemsize) = p % (content.length / itemsize)
    else q = min p (content.length / itemsize)

/-- A call ends with an answer if it is not made to look for an item for ever. -/
def Answers (content : List UInt8) (itemsize : ℕ) (repeats : Bool) (noutputItems : ℕ) : Prop :=
  repeats = false ∨ 0 < content.length / itemsize ∨ noutputItems = 0

theorem work_loop {left : ℕ} (looped : src.readLoop fuel noutputItems [] = some (left, items, src'))
    (length : left + items.length = noutputItems) :
    src.work fuel noutputItems = some (fileAnswer noutputItems items, src') := by
  have answer : src.work fuel noutputItems =
      if 0 < left then
        if left = noutputItems then some (⟨-1, items⟩, src')
        else some (⟨noutputItems - left, items⟩, src')
      else some (⟨noutputItems, items⟩, src') := by
    rw [work, looped]
    rfl
  rw [answer, fileAnswer]
  split
  · split
    · have empty : items = [] := List.length_eq_zero_iff.mp (by omega)
      rw [if_pos ⟨by omega, empty⟩]
    · have read : items ≠ [] := by
        rintro rfl
        exact absurd length ‹_›
      rw [if_neg fun done => read done.2]
      have count : (noutputItems : ℤ) - left = items.length := by omega
      rw [count]
  · have count : noutputItems = items.length := by omega
    rw [if_neg, ← count]
    rintro ⟨wanted, rfl⟩
    exact absurd count wanted.ne'

theorem work_reached (reached : Reached content itemsize repeats p src)
    (answers : Answers content itemsize repeats noutputItems) :
    ∃ fuel src', src.work fuel noutputItems = some (fileAnswer noutputItems
        (itemsDue (wholeItems content itemsize) repeats p noutputItems), src') ∧
      Reached content itemsize repeats (p + noutputItems) src' := by
  obtain ⟨q, position, rfl, place, turn⟩ := reached
  have count := length_wholeItems content itemsize
  cases repeats with
  | false =>
    obtain ⟨fuel, left, position', looped, length, place'⟩ :=
      readLoop_once place noutputItems []
    have next : q = min p (content.length / itemsize) := turn
    have due : ((wholeItems content itemsize).drop q).take noutputItems =
        itemsDue (wholeItems content itemsize) false p noutputItems := by
      rw [itemsDue, if_neg (by simp), next]
      rcases Nat.le_total p (content.length / itemsize) with within | beyond
      · rw [Nat.min_eq_left within]
      · rw [Nat.min_eq_right beyond, List.drop_eq_nil_of_le count.le,
          List.drop_eq_nil_of_le (count ▸ beyond)]
    rw [List.nil_append] at looped
    refine ⟨fuel, _, due ▸ work_loop looped length, _, position', rfl, place', ?_⟩
    rw [if_neg Bool.false_ne_true]
    omega
  | true =>
    rcases answers with once | some | rfl
    · cases once
    · obtain ⟨fuel, position', q', looped, place', turn'⟩ :=
        readLoop_repeat some place noutputItems []
      have due : itemsDue (wholeItems content itemsize) true q noutputItems =
          itemsDue (wholeItems content itemsize) true p noutputItems :=
        itemsDue_turn (count ▸ some) (count ▸ turn) noutputItems
      have length : (itemsDue (wholeItems content itemsize) true p noutputItems).length =
          noutputItems := by
        have filled : (true && !(wholeItems content itemsize).isEmpty) = true := by
          simpa [← List.length_eq_zero_iff, count] using some.ne'
        rw [itemsDue, if_pos filled, List.length_map, List.length_range]
      rw [List.nil_append, due] at looped
      refine ⟨fuel, _, work_loop looped (by rw [length, Nat.zero_add]), q', position', rfl,
        place', ?_⟩
      rw [if_pos rfl] at turn ⊢
      rw [turn', Nat.add_mod, turn, ← Nat.add_mod]
    · have none : itemsDue (wholeItems content itemsize) true p 0 = [] := by simp [itemsDue]
      refine ⟨1, ⟨content, position, itemsize, true⟩, ?_, q, position, rfl, place, turn⟩
      rw [none]
      rfl

theorem work_mono (more : fuel ≤ fuel') {result : FileWork × GrFileSource}
    (returned : src.work fuel noutputItems = some result) :
    src.work fuel' noutputItems = some result := by
  obtain ⟨r, looped, rest⟩ := Option.bind_eq_some_iff.mp returned
  exact Option.bind_eq_some_iff.mpr ⟨r, readLoop_mono more looped, rest⟩

theorem works_cons :
    src.works fuel (noutputItems :: calls) = some (results, src') ↔
      ∃ result src₁ rest, src.work fuel noutputItems = some (result, src₁) ∧
        src₁.works fuel calls = some (rest, src') ∧ results = result :: rest := by
  constructor
  · intro returned
    obtain ⟨⟨result, src₁⟩, first, returned⟩ := Option.bind_eq_some_iff.mp returned
    obtain ⟨⟨rest, src₂⟩, others, same⟩ := Option.bind_eq_some_iff.mp returned
    cases Option.some.inj same
    exact ⟨result, src₁, rest, first, others, rfl⟩
  · rintro ⟨result, src₁, rest, first, others, rfl⟩
    exact Option.bind_eq_some_iff.mpr ⟨_, first, Option.bind_eq_some_iff.mpr ⟨_, others, rfl⟩⟩

theorem works_mono (more : fuel ≤ fuel') (returned : src.works fuel calls = some (results, src')) :
    src.works fuel' calls = some (results, src') := by
  induction calls generalizing src results with
  | nil => exact returned
  | cons noutputItems calls ih =>
    obtain ⟨result, src₁, rest, first, others, rfl⟩ := works_cons.mp returned
    exact works_cons.mpr ⟨result, src₁, rest, work_mono more first, ih others, rfl⟩

theorem works_reached (reached : Reached content itemsize repeats p src)
    (answers : ∀ n ∈ calls, Answers content itemsize repeats n) :
    ∃ fuel src', src.works fuel calls =
        some (fileAnswers (wholeItems content itemsize) repeats p calls, src') ∧
      Reached content itemsize repeats (p + calls.sum) src' := by
  induction calls generalizing p src with
  | nil => exact ⟨0, src, rfl, reached⟩
  | cons noutputItems calls ih =>
    obtain ⟨fuel₁, src₁, first, reached₁⟩ :=
      work_reached reached (answers noutputItems List.mem_cons_self)
    obtain ⟨fuel₂, src₂, others, reached₂⟩ :=
      ih reached₁ fun n member => answers n (List.mem_cons_of_mem _ member)
    refine ⟨max fuel₁ fuel₂, src₂, works_cons.mpr ⟨_, src₁, _,
      work_mono (Nat.le_max_left ..) first, works_mono (Nat.le_max_right ..) others, rfl⟩, ?_⟩
    rwa [List.sum_cons, ← Nat.add_assoc]

theorem zero_of_works (none : content.length / itemsize = 0)
    (returned : works fuel ⟨content, position, itemsize, true⟩ calls = some (results, src')) :
    ∀ n ∈ calls, n = 0 := by
  induction calls generalizing results with
  | nil => exact fun n member => absurd member List.not_mem_nil
  | cons noutputItems calls ih =>
    obtain ⟨result, src₁, rest, first, others, -⟩ := works_cons.mp returned
    obtain ⟨⟨left, items, src₂⟩, looped, ended⟩ := Option.bind_eq_some_iff.mp first
    rcases Nat.eq_zero_or_pos noutputItems with rfl | wanted
    · cases fuel with
      | zero => cases looped
      | succ fuel =>
        cases Option.some.inj looped
        cases Option.some.inj ended
        exact List.forall_mem_cons.mpr ⟨rfl, ih others⟩
    · rw [readLoop_forever none wanted] at looped
      cases looped

/-- The source of a file that was just opened. -/
def opened (content : List UInt8) (itemsize : ℕ) (repeats : Bool) : GrFileSource :=
  { content := content, d_itemsize := itemsize, d_repeat := repeats }

/-- All calls end, and their answers are those that are due, just when the file is read once, or
    holds a whole item, or nothing is asked for. -/
theorem works_iff (content : List UInt8) (itemsize : ℕ) (repeats : Bool) (calls : List ℕ) :
    (∃ fuel results src', (opened content itemsize repeats).works fuel calls =
        some (results, src') ∧
      results = fileAnswers (wholeItems content itemsize) repeats 0 calls ∧
      results.flatMap FileWork.items =
        itemsDue (wholeItems content itemsize) repeats 0 calls.sum) ↔
      repeats = false ∨ wholeItems content itemsize ≠ [] ∨ ∀ n ∈ calls, n = 0 := by
  have count := length_wholeItems content itemsize
  have filled : wholeItems content itemsize ≠ [] ↔ 0 < content.length / itemsize := by
    rw [← List.length_pos_iff, count]
  rw [filled]
  constructor
  · rintro ⟨fuel, results, src', returned, -⟩
    cases repeats with
    | false => exact Or.inl rfl
    | true =>
      rcases Nat.eq_zero_or_pos (content.length / itemsize) with none | some
      · exact Or.inr (Or.inr (zero_of_works none returned))
      · exact Or.inr (Or.inl some)
  · intro condition
    have answers : ∀ n ∈ calls, Answers content itemsize repeats n := by
      intro n member
      rcases condition with once | some | nothing
      · exact Or.inl once
      · exact Or.inr (Or.inl some)
      · exact Or.inr (Or.inr (nothing n member))
    have reached : Reached content itemsize repeats 0 (opened content itemsize repeats) := by
      refine ⟨0, 0, rfl, Or.inl ⟨(Nat.zero_mul _).symm, Nat.zero_le _⟩, ?_⟩
      split
      · rfl
      · exact (Nat.zero_min _).symm
    obtain ⟨fuel, src', returned, -⟩ := works_reached reached answers
    exact ⟨fuel, _, src', returned, rfl, flatMap_fileAnswers _ repeats 0 calls⟩

/-- Two items and a half, over and over. -/
example : ((opened [1, 2, 3, 4, 5] 2 true).works 9 [3, 2]).map Prod.fst =
    some [⟨3, [[1, 2], [3, 4], [1, 2]]⟩, ⟨2, [[3, 4], [1, 2]]⟩] := by rfl

/-- Three bytes are no item of four. -/
theorem works_forever :
    ¬ ∃ fuel answers, (opened [1, 2, 3] 4 true).works fuel [1] = some answers := by
  rintro ⟨fuel, answers, ended⟩
  have none : ([1, 2, 3] : List UInt8).length / 4 = 0 := rfl
  rw [works, work, opened, readLoop_forever none Nat.one_pos fuel [] 0] at ended
  cases ended

end GrFileSource

end GnuRadio
