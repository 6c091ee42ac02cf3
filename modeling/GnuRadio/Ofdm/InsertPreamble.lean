import GnuRadio.Misc.Except
import GnuRadio.Runtime.Types
import Mathlib.Data.List.Induction
import Mathlib.Data.List.TakeWhile

/-!
# Preamble insertion

`gr_ofdm_insert_preamble` puts preamble symbols in front of every flagged symbol. A call may stop
anywhere, and the next one takes up where it stopped.
-/

namespace GnuRadio

/-- `state_t` (`gr_ofdm_insert_preamble.h:74-79`). -/
inductive InsertPreambleState where
  | idle
  | preamble
  | firstPayload
  | payload
  deriving DecidableEq, Repr

/-- `gr_ofdm_insert_preamble` (`gr_ofdm_insert_preamble.h:81-85`); a symbol is a vector of samples,
and a flag a byte. -/
structure OfdmInsertPreamble (γ : Type) where
  fftLength : Nat
  preamble : List (List γ)
  state : InsertPreambleState
  nsymbolsOutput : Nat
  pendingFlag : UInt8
  deriving DecidableEq, Repr

namespace OfdmInsertPreamble

variable {γ : Type}

/-- `enter_idle` (`gr_ofdm_insert_preamble.cc:161-167`). -/
def enterIdle (d : OfdmInsertPreamble γ) : OfdmInsertPreamble γ :=
  { d with
    state := .idle
    nsymbolsOutput := 0
    pendingFlag := 0 }

/-- `enter_preamble` (`gr_ofdm_insert_preamble.cc:169-175`). -/
def enterPreamble (d : OfdmInsertPreamble γ) : OfdmInsertPreamble γ :=
  { d with
    state := .preamble
    nsymbolsOutput := 0
    pendingFlag := 1 }

/-- `enter_first_payload` (`gr_ofdm_insert_preamble.cc:177-181`). -/
def enterFirstPayload (d : OfdmInsertPreamble γ) : OfdmInsertPreamble γ :=
  { d with state := .firstPayload }

/-- `enter_payload` (`gr_ofdm_insert_preamble.cc:183-187`). -/
def enterPayload (d : OfdmInsertPreamble γ) : OfdmInsertPreamble γ := { d with state := .payload }

/-- The constructor (`gr_ofdm_insert_preamble.cc:40-64`). -/
def construct (fftLength : Nat) (preamble : List (List γ)) :
    Except CppException (OfdmInsertPreamble γ) :=
  if preamble.all (·.length == fftLength) then
    .ok (enterIdle ⟨fftLength, preamble, .idle, 0, 0⟩)
  else
    .error (.invalidArgument "gr_ofdm_insert_preamble: invalid length for preamble symbol")

/-- What a turn of the loop does: the symbol and flag that it puts out, and whether it takes the
input symbol. -/
structure Turn (γ : Type) where
  block : OfdmInsertPreamble γ
  out : Option (List γ × UInt8)
  taken : Bool

/-- `write_out_flag` (`gr_ofdm_insert_preamble.cc:90-94`): the flag goes out with a symbol. -/
def writeOut (d : OfdmInsertPreamble γ) (symbol : List γ) : OfdmInsertPreamble γ × List γ × UInt8 :=
  ({ d with pendingFlag := 0 }, symbol, d.pendingFlag)

/-- Whether a flag is set. -/
def flagged (flag : UInt8) : Bool := flag &&& 0x1 ≠ 0

/-- A turn of the loop of `general_work` (`gr_ofdm_insert_preamble.cc:97-155`), at an input symbol
and its flag. -/
def turn (d : OfdmInsertPreamble γ) (symbol : List γ) (flag : UInt8) :
    Except CppException (Turn γ) :=
  match d.state with
  | .idle =>
    if flagged flag then .ok ⟨d.enterPreamble, none, false⟩
    else .ok ⟨d, none, true⟩
  | .preamble =>
    if flagged flag then
      if inside : d.nsymbolsOutput < d.preamble.length then
        let (d', item) := d.writeOut d.preamble[d.nsymbolsOutput]
        .ok ⟨{ d' with nsymbolsOutput := d'.nsymbolsOutput + 1 }, some item, false⟩
      else .ok ⟨d.enterFirstPayload, none, false⟩
    else .error .assertFailed
  | .firstPayload =>
    let (d', item) := d.writeOut symbol
    .ok ⟨d'.enterPayload, some item, true⟩
  | .payload =>
    if flagged flag then .ok ⟨d.enterPreamble, none, false⟩
    else
      let (d', item) := d.writeOut symbol
      .ok ⟨d', some item, true⟩

/-- How many turns a block can take without a symbol moving. -/
def rank (d : OfdmInsertPreamble γ) : Nat :=
  match d.state with
  | .firstPayload => 0
  | .preamble => 1
  | .idle => 2
  | .payload => 2

theorem rank_le (d : OfdmInsertPreamble γ) : d.rank ≤ 2 := by
  unfold rank
  split <;> decide

variable {symbol : List γ} {flag : UInt8} {t : Turn γ} {item : List γ × UInt8}

theorem turn_moves {d : OfdmInsertPreamble γ} (turned : d.turn symbol flag = .ok t) :
    t.out ≠ none ∨ t.taken = true ∨ t.block.rank < d.rank := by
  unfold turn at turned
  cases here : d.state with
  | idle =>
    simp only [here] at turned
    split at turned
    · cases turned
      exact Or.inr (Or.inr (by simp [rank, here, enterPreamble]))
    · cases turned
      exact Or.inr (Or.inl rfl)
  | preamble =>
    simp only [here] at turned
    split at turned
    · split at turned
      · cases turned
        exact Or.inl (by simp [writeOut])
      · cases turned
        exact Or.inr (Or.inr (by simp [rank, here, enterFirstPayload]))
    · cases turned
  | firstPayload =>
    simp only [here] at turned
    cases turned
    exact Or.inr (Or.inl rfl)
  | payload =>
    simp only [here] at turned
    split at turned
    · cases turned
      exact Or.inr (Or.inr (by simp [rank, here, enterPreamble]))
    · cases turned
      exact Or.inr (Or.inl rfl)

/-- How many symbols a turn puts out. -/
def Turn.no (t : Turn γ) : Nat := t.out.toList.length

/-- How many symbols a turn takes. -/
def Turn.ni (t : Turn γ) : Nat := if t.taken then 1 else 0

theorem Turn.no_le (t : Turn γ) : t.no ≤ 1 := by
  unfold no
  cases t.out <;> simp

theorem Turn.ni_le (t : Turn γ) : t.ni ≤ 1 := by
  unfold ni
  split <;> decide

theorem turn_less {d : OfdmInsertPreamble γ}
    (turned : d.turn symbol flag = .ok t) (room rest : Nat) :
    3 * (room + 1 - t.no + (rest + 1 - t.ni)) + t.block.rank <
      3 * (room + 1 + (rest + 1)) + d.rank := by
  have bound := t.block.rank_le
  have puts := t.no_le
  have takes := t.ni_le
  rcases turn_moves turned with out | taken | closer
  · have one : t.no = 1 := by
      unfold Turn.no
      cases put : t.out with
      | none => exact absurd put out
      | some item => rfl
    omega
  · have one : t.ni = 1 := if_pos taken
    omega
  · omega

/-- The loop of `general_work`, with room for so many symbols: what it puts out, and how many
symbols it takes. -/
def loop (d : OfdmInsertPreamble γ) (room : Nat) (input : List (List γ × UInt8)) :
    Except CppException (OfdmInsertPreamble γ × List (List γ × UInt8) × Nat) :=
  match room, input with
  | 0, _ => .ok (d, [], 0)
  | _ + 1, [] => .ok (d, [], 0)
  | room + 1, item :: rest =>
    match _turned : d.turn item.1 item.2 with
    | .error e => .error e
    | .ok t =>
      match loop t.block (room + 1 - t.no) ((item :: rest).drop t.ni) with
      | .error e => .error e
      | .ok (d, out, ni) => .ok (d, t.out.toList ++ out, t.ni + ni)
termination_by 3 * (room + input.length) + d.rank
decreasing_by
  rw [List.length_drop]
  exact turn_less _turned room rest.length

/-- `general_work` (`gr_ofdm_insert_preamble.cc:70-159`) on the items of both inputs. -/
def generalWork (d : OfdmInsertPreamble γ) (noutputItems : Nat) (inSym : List (List γ))
    (inFlag : List UInt8) :
    Except CppException (OfdmInsertPreamble γ × List (List γ × UInt8) × Nat) :=
  d.loop noutputItems (inSym.zip inFlag)

/-! ## A block at work on its streams -/

/-- How many symbols the block has taken, and what it has put out. -/
structure Session (γ : Type) where
  block : OfdmInsertPreamble γ
  consumed : Nat
  out : List (List γ × UInt8)

/-- The space and the items that are offered to a call. -/
structure Call where
  noutputItems : Nat
  ninputItems : Nat × Nat

/-- A call of `general_work`, with `consume_each`. -/
def call (symbols : List (List γ)) (flags : List UInt8) (s : Session γ) (c : Call) :
    Except CppException (Session γ) := do
  let (block, out, ni) ← s.block.generalWork c.noutputItems
    ((symbols.drop s.consumed).take c.ninputItems.1) ((flags.drop s.consumed).take c.ninputItems.2)
  pure ⟨block, s.consumed + ni, s.out ++ out⟩

/-- How many symbols a call has before it, with their flags. -/
def offered (symbols : List (List γ)) (flags : List UInt8) (s : Session γ) (c : Call) : Nat :=
  min ((symbols.drop s.consumed).take c.ninputItems.1).length
    ((flags.drop s.consumed).take c.ninputItems.2).length

/-! ## What is put out -/

/-- The preamble, its first symbol flagged. -/
def heading : List (List γ) → List (List γ × UInt8)
  | [] => []
  | first :: rest => (first, 1) :: rest.map (·, 0)

/-- What an input symbol of a frame becomes. -/
def framed (preamble : List (List γ)) (item : List γ × UInt8) : List (List γ × UInt8) :=
  if flagged item.2 then heading preamble ++ [(item.1, 0)] else [(item.1, 0)]

/-- What a stream becomes: nothing up to the first flag, and a preamble in front of each flagged
symbol. -/
def inserted (preamble : List (List γ)) (stream : List (List γ × UInt8)) :
    List (List γ × UInt8) :=
  (stream.dropWhile fun item => !flagged item.2).flatMap (framed preamble)

theorem inserted_concat (preamble : List (List γ)) (stream : List (List γ × UInt8))
    (item : List γ × UInt8) :
    inserted preamble (stream ++ [item]) = inserted preamble stream ++
      if (stream ++ [item]).any fun item => flagged item.2 then framed preamble item
      else [] := by
  unfold inserted
  by_cases started : ∃ first ∈ stream, flagged first.2 = true
  · have some : stream.dropWhile (fun item => !flagged item.2) ≠ [] := by
      intro none
      obtain ⟨first, member, flag⟩ := started
      simpa [flag] using List.dropWhile_eq_nil_iff.mp none first member
    have any : (stream ++ [item]).any (fun item => flagged item.2) = true := by
      obtain ⟨first, member, flag⟩ := started
      exact List.any_eq_true.mpr ⟨first, List.mem_append_left _ member, flag⟩
    rw [List.dropWhile_append, if_neg (by simpa using some), List.flatMap_append,
      List.flatMap_singleton, if_pos any]
  · have none : stream.dropWhile (fun item => !flagged item.2) = [] := by
      apply List.dropWhile_eq_nil_iff.mpr
      intro first member
      simpa using fun flag => started ⟨first, member, flag⟩
    have same : (stream ++ [item]).any (fun item => flagged item.2) = flagged item.2 := by
      have clear : stream.any (fun item => flagged item.2) = false := by
        rw [List.any_eq_false]
        exact fun first member flag => started ⟨first, member, flag⟩
      rw [List.any_append, clear, Bool.false_or, List.any_cons, List.any_nil, Bool.or_false]
    rw [List.dropWhile_append, none, if_pos List.isEmpty_nil, List.flatMap_nil, List.nil_append,
      same]
    cases flag : flagged item.2 with
    | true => simp [flag]
    | false => simp [flag]

theorem length_heading (preamble : List (List γ)) :
    (heading preamble).length = preamble.length := by
  cases preamble <;> simp [heading]

theorem getElem_heading (preamble : List (List γ)) {n : Nat} (inside : n < preamble.length) :
    (heading preamble)[n]? = some (preamble[n], if n = 0 then 1 else 0) := by
  cases preamble with
  | nil => cases inside
  | cons first rest =>
    cases n with
    | zero => rfl
    | succ n =>
      have within : n < rest.length := Nat.lt_of_succ_lt_succ inside
      simp [heading, within]

/-! ## The invariant -/

/-- The next symbol is flagged. -/
def NextFlagged (stream : List (List γ × UInt8)) (consumed : Nat) : Prop :=
  ∃ item, stream[consumed]? = some item ∧ flagged item.2 = true

/-- A frame has begun with the symbols taken. -/
def begun (stream : List (List γ × UInt8)) (consumed : Nat) : Bool :=
  (stream.take consumed).any fun item => flagged item.2

/-- Where a block stands that has taken so many symbols of the stream. -/
def Standing (preamble : List (List γ)) (stream : List (List γ × UInt8)) (consumed : Nat)
    (out : List (List γ × UInt8)) (d : OfdmInsertPreamble γ) : Prop :=
  match d.state with
  | .idle => begun stream consumed = false ∧ out = inserted preamble (stream.take consumed) ∧
      d.pendingFlag = 0
  | .preamble => NextFlagged stream consumed ∧
      out = inserted preamble (stream.take consumed) ++
        (heading preamble).take d.nsymbolsOutput ∧
      d.nsymbolsOutput ≤ preamble.length ∧
      d.pendingFlag = if d.nsymbolsOutput = 0 then 1 else 0
  | .firstPayload => NextFlagged stream consumed ∧
      out = inserted preamble (stream.take consumed) ++ heading preamble ∧ d.pendingFlag = 0
  | .payload => begun stream consumed = true ∧
      out = inserted preamble (stream.take consumed) ∧ d.pendingFlag = 0

/-- The preamble and where the block stands. -/
structure Inserting (preamble : List (List γ)) (stream : List (List γ × UInt8)) (consumed : Nat)
    (out : List (List γ × UInt8)) (d : OfdmInsertPreamble γ) : Prop where
  same : d.preamble = preamble
  standing : Standing preamble stream consumed out d

variable {preamble : List (List γ)} {stream : List (List γ × UInt8)} {consumed : Nat}
  {out : List (List γ × UInt8)} {d : OfdmInsertPreamble γ}

theorem take_succ (next : stream[consumed]? = some item) :
    stream.take (consumed + 1) = stream.take consumed ++ [item] := by
  rw [List.take_add_one, next]
  rfl

theorem Inserting.turn (inserting : Inserting preamble stream consumed out d)
    (nonempty : preamble ≠ []) (next : stream[consumed]? = some item) :
    ∃ t, d.turn item.1 item.2 = .ok t ∧ Inserting preamble stream
      (consumed + t.ni) (out ++ t.out.toList) t.block := by
  obtain ⟨same, standing⟩ := inserting
  subst same
  have taken : inserted d.preamble (stream.take (consumed + 1)) =
      inserted d.preamble (stream.take consumed) ++
        if begun stream (consumed + 1) then framed d.preamble item else [] := by
    rw [begun, take_succ next, inserted_concat]
  have now : begun stream (consumed + 1) = (begun stream consumed || flagged item.2) := by
    rw [begun, take_succ next, List.any_append, begun, List.any_cons, List.any_nil, Bool.or_false]
  unfold Standing at standing
  unfold OfdmInsertPreamble.turn
  cases here : d.state with
  | idle =>
    rw [here] at standing
    obtain ⟨quiet, rfl, clear⟩ := standing
    cases flag : flagged item.2 with
    | true =>
      refine ⟨_, rfl, rfl, ?_⟩
      exact ⟨⟨item, next, flag⟩, by simp [enterPreamble, Turn.ni], Nat.zero_le _, rfl⟩
    | false =>
      refine ⟨_, rfl, rfl, ?_⟩
      rw [quiet, flag] at now
      simp only [Standing, here, Turn.ni, if_pos, taken, now]
      exact ⟨rfl, by simp, clear⟩
  | preamble =>
    rw [here] at standing
    obtain ⟨pending, rfl, inside, flag⟩ := standing
    obtain ⟨item', also, set⟩ := pending
    obtain rfl := Option.some.inj (next.symm.trans also)
    dsimp only
    rw [if_pos set]
    by_cases more : d.nsymbolsOutput < d.preamble.length
    · rw [dif_pos more]
      refine ⟨_, rfl, rfl, ?_⟩
      have first := getElem_heading d.preamble more
      simp only [writeOut, Standing, here]
      refine ⟨⟨item, next, set⟩, ?_, more, rfl⟩
      rw [List.take_add_one, first, flag, List.append_assoc]
      rfl
    · rw [dif_neg more]
      refine ⟨_, rfl, rfl, ?_⟩
      have last : d.nsymbolsOutput = d.preamble.length :=
        Nat.le_antisymm inside (Nat.le_of_not_lt more)
      have positive : d.preamble.length ≠ 0 := mt List.eq_nil_of_length_eq_zero nonempty
      have whole : (heading d.preamble).take d.nsymbolsOutput = heading d.preamble := by
        rw [last, ← length_heading, List.take_length]
      rw [last, if_neg positive] at flag
      exact ⟨⟨item, next, set⟩, by simp [whole, Turn.ni], flag⟩
  | firstPayload =>
    rw [here] at standing
    obtain ⟨⟨item', also, set⟩, rfl, clear⟩ := standing
    obtain rfl := Option.some.inj (next.symm.trans also)
    refine ⟨_, rfl, rfl, ?_⟩
    rw [set, Bool.or_true] at now
    simp only [Standing, enterPayload, Turn.ni, if_pos, taken, now, framed, set]
    exact ⟨trivial, by simp [clear], trivial⟩
  | payload =>
    rw [here] at standing
    obtain ⟨begun', rfl, clear⟩ := standing
    cases flag : flagged item.2 with
    | true =>
      refine ⟨_, rfl, rfl, ?_⟩
      exact ⟨⟨item, next, flag⟩, by simp [enterPreamble, Turn.ni], Nat.zero_le _, rfl⟩
    | false =>
      refine ⟨_, rfl, rfl, ?_⟩
      rw [begun', Bool.true_or] at now
      simp only [Standing, here, Turn.ni, if_pos, taken, now, framed, flag]
      exact ⟨trivial, by simp [clear], trivial⟩

theorem front_cons {α : Type} {stream rest : List α} {item : α} {n : Nat}
    (items : (stream.drop consumed).take n = item :: rest) :
    stream[consumed]? = some item ∧ ∀ k ≤ 1,
      (stream.drop (consumed + k)).take (n - k) = (item :: rest).drop k := by
  constructor
  · have first := congrArg (·[0]?) items
    cases n with
    | zero => cases items
    | succ n => simpa using first
  · intro k _
    rw [← items, List.drop_take, List.drop_drop]

/-- The loop stops only when there is no room or no symbol left. -/
theorem Inserting.loop (inserting : Inserting preamble stream consumed out d)
    (nonempty : preamble ≠ []) (room n : Nat) :
    ∃ d' more ni, d.loop room ((stream.drop consumed).take n) = .ok (d', more, ni) ∧
      Inserting preamble stream (consumed + ni) (out ++ more) d' ∧ more.length ≤ room ∧
      ni ≤ ((stream.drop consumed).take n).length ∧
      (more.length = room ∨ ni = ((stream.drop consumed).take n).length) := by
  obtain ⟨m, measure⟩ : ∃ m, m = 3 * (room + ((stream.drop consumed).take n).length) + d.rank :=
    ⟨_, rfl⟩
  induction m using Nat.strong_induction_on generalizing consumed out d room n with
  | _ m ih =>
    cases room with
    | zero =>
      refine ⟨d, [], 0, by rw [OfdmInsertPreamble.loop], ?_, Nat.le_refl 0, Nat.zero_le _,
        Or.inl rfl⟩
      simpa using inserting
    | succ room =>
      cases items : (stream.drop consumed).take n with
      | nil =>
        refine ⟨d, [], 0, by rw [OfdmInsertPreamble.loop], ?_, Nat.zero_le _, Nat.le_refl 0,
          Or.inr rfl⟩
        simpa using inserting
      | cons item rest =>
        obtain ⟨next, behind⟩ := front_cons items
        obtain ⟨t, turned, kept⟩ := inserting.turn nonempty next
        have less := turn_less turned room rest.length
        have left := behind t.ni t.ni_le
        have puts := t.no_le
        have takes := t.ni_le
        have count : ((item :: rest).drop t.ni).length = rest.length + 1 - t.ni := by
          rw [List.length_drop, List.length_cons]
        rw [items, List.length_cons] at measure
        obtain ⟨d', more, ni, looped, kept', room', ni', stops⟩ := ih _ (measure ▸ less) kept
          (room + 1 - t.no) (n - t.ni) (by rw [left, count])
        rw [left] at looped ni' stops
        refine ⟨d', t.out.toList ++ more, t.ni + ni, ?_, ?_, ?_, ?_, ?_⟩
        · rw [OfdmInsertPreamble.loop]
          split
          · rename_i failed
            rw [turned] at failed
            cases failed
          · rename_i also
            obtain rfl := Except.ok.inj (turned.symm.trans also)
            rw [looped]
        · rw [← Nat.add_assoc, ← List.append_assoc]
          exact kept'
        · rw [List.length_append, ← Turn.no]
          omega
        · rw [List.length_cons]
          omega
        · rw [List.length_append, List.length_cons, ← Turn.no]
          omega

/-! ## Runs -/

/-- What a block has put out when it has taken so many symbols: their frames, and as much of the
next preamble as there was room for, when the next symbol is flagged. -/
structure Delivered (preamble : List (List γ)) (stream : List (List γ × UInt8)) (s : Session γ) :
    Prop where
  frames : ∃ k, s.out = inserted preamble (stream.take s.consumed) ++ (heading preamble).take k ∧
    (0 < k → NextFlagged stream s.consumed)
  beginning : s.out <+: inserted preamble stream

theorem inserted_prefix (preamble : List (List γ)) (stream more : List (List γ × UInt8)) :
    inserted preamble stream <+: inserted preamble (stream ++ more) := by
  induction more using List.reverseRecOn with
  | nil => simp
  | append_singleton more item ih =>
    rw [← List.append_assoc, inserted_concat]
    exact ih.trans (List.prefix_append _ _)

theorem delivered {s : Session γ} {k : Nat}
    (out : s.out = inserted preamble (stream.take s.consumed) ++ (heading preamble).take k)
    (flag : 0 < k → NextFlagged stream s.consumed) : Delivered preamble stream s := by
  refine ⟨⟨k, out, flag⟩, ?_⟩
  rw [out]
  rcases Nat.eq_zero_or_pos k with rfl | some
  · have whole := inserted_prefix preamble (stream.take s.consumed) (stream.drop s.consumed)
    rw [List.take_append_drop] at whole
    simpa using whole
  · obtain ⟨item, next, set⟩ := flag some
    have whole := inserted_prefix preamble (stream.take (s.consumed + 1))
      (stream.drop (s.consumed + 1))
    rw [List.take_append_drop, take_succ next, inserted_concat, if_pos (by simp [set]), framed,
      if_pos set, ← List.append_assoc] at whole
    refine List.IsPrefix.trans ?_ ((List.prefix_append _ _).trans whole)
    exact (List.prefix_append_right_inj _).mpr (List.take_prefix _ _)

theorem Inserting.delivered {s : Session γ}
    (inserting : Inserting preamble stream s.consumed s.out s.block) :
    Delivered preamble stream s := by
  have standing := inserting.standing
  unfold Standing at standing
  cases here : s.block.state with
  | idle =>
    rw [here] at standing
    exact OfdmInsertPreamble.delivered (k := 0) (by simpa using standing.2.1) (by simp)
  | preamble =>
    rw [here] at standing
    exact OfdmInsertPreamble.delivered standing.2.1 fun _ => standing.1
  | firstPayload =>
    rw [here] at standing
    exact OfdmInsertPreamble.delivered (k := (heading preamble).length)
      (by simpa using standing.2.1) fun _ => standing.1
  | payload =>
    rw [here] at standing
    exact OfdmInsertPreamble.delivered (k := 0) (by simpa using standing.2.1) (by simp)

theorem construct_ok {fftLength : Nat} (made : construct fftLength preamble = .ok d)
    (stream : List (List γ × UInt8)) : Inserting preamble stream 0 [] d := by
  unfold construct at made
  split at made
  · obtain rfl := Except.ok.inj made
    exact ⟨rfl, rfl, rfl, rfl⟩
  · cases made

theorem zip_take {α β : Type} (as : List α) (bs : List β) (m n : Nat) :
    (as.take m).zip (bs.take n) = (as.zip bs).take (min m n) := by
  induction as generalizing bs m n with
  | nil => simp
  | cons a as ih =>
    cases bs with
    | nil => simp
    | cons b bs =>
      cases m with
      | zero => simp
      | succ m =>
        cases n with
        | zero => simp
        | succ n => simp [ih, Nat.succ_min_succ]

theorem Inserting.call {s : Session γ} {symbols : List (List γ)} {flags : List UInt8}
    (inserting : Inserting preamble (symbols.zip flags) s.consumed s.out s.block)
    (nonempty : preamble ≠ []) (c : Call) :
    ∃ block ni more, OfdmInsertPreamble.call symbols flags s c =
        .ok ⟨block, s.consumed + ni, s.out ++ more⟩ ∧
      Inserting preamble (symbols.zip flags) (s.consumed + ni) (s.out ++ more) block ∧
      more.length ≤ c.noutputItems ∧ ni ≤ offered symbols flags s c ∧
      (more.length = c.noutputItems ∨ ni = offered symbols flags s c) := by
  obtain ⟨block, more, ni, looped, kept, room, within, stops⟩ :=
    inserting.loop nonempty c.noutputItems (min c.ninputItems.1 c.ninputItems.2)
  have items : ((symbols.drop s.consumed).take c.ninputItems.1).zip
      ((flags.drop s.consumed).take c.ninputItems.2) =
        ((symbols.zip flags).drop s.consumed).take (min c.ninputItems.1 c.ninputItems.2) := by
    rw [zip_take, List.zip_eq_zipWith, List.zip_eq_zipWith, List.drop_zipWith]
  have count : (((symbols.zip flags).drop s.consumed).take
      (min c.ninputItems.1 c.ninputItems.2)).length = offered symbols flags s c := by
    rw [← items, List.length_zip]
    rfl
  rw [count] at within stops
  refine ⟨block, ni, more, ?_, kept, room, within, stops⟩
  rw [OfdmInsertPreamble.call, generalWork, items, looped]
  rfl

/-- **Every flagged symbol gets its preamble, over any calls.** -/
theorem inserts_preambles {fftLength : Nat} (made : construct fftLength preamble = .ok d)
    (nonempty : preamble ≠ []) (symbols : List (List γ)) (flags : List UInt8)
    (calls : List Call) :
    ∃ s, calls.foldlM (call symbols flags) ⟨d, 0, []⟩ = .ok s ∧
      Delivered preamble (symbols.zip flags) s ∧
      ∀ c, ∃ block ni more,
        call symbols flags s c = .ok ⟨block, s.consumed + ni, s.out ++ more⟩ ∧
        more.length ≤ c.noutputItems ∧ ni ≤ offered symbols flags s c ∧
        (more.length = c.noutputItems ∨ ni = offered symbols flags s c) := by
  obtain ⟨s, reached, inserting⟩ : ∃ s, calls.foldlM (call symbols flags) ⟨d, 0, []⟩ = .ok s ∧
      Inserting preamble (symbols.zip flags) s.consumed s.out s.block := by
    refine foldlM_total (fun s : Session γ =>
      Inserting preamble (symbols.zip flags) s.consumed s.out s.block) ?_ (construct_ok made _)
    intro s c _ inserting
    obtain ⟨block, ni, more, called, kept, -⟩ := inserting.call nonempty c
    exact ⟨_, called, kept⟩
  refine ⟨s, reached, inserting.delivered, fun c => ?_⟩
  obtain ⟨block, ni, more, called, -, room, within, stops⟩ := inserting.call nonempty c
  exact ⟨block, ni, more, called, room, within, stops⟩

/-- Two frames, the first of one symbol, over calls that stop within the preambles. -/
theorem inserts_two_preambles : ∃ s : Session Nat,
    [⟨1, 3, 3⟩, ⟨3, 2, 5⟩, ⟨9, 1, 1⟩].foldlM (call [[10], [11], [12]] [0, 1, 1])
      ⟨⟨1, [[1], [2]], .idle, 0, 0⟩, 0, []⟩ = .ok s ∧ s.consumed = 3 ∧
    s.out = [([1], 1), ([2], 0), ([11], 0), ([1], 1), ([2], 0), ([12], 0)] ∧
    Delivered [[1], [2]] [([10], 0), ([11], 1), ([12], 1)] s := by
  have made : construct 1 [[1], [2]] =
    .ok (⟨1, [[1], [2]], .idle, 0, 0⟩ : OfdmInsertPreamble Nat) := rfl
  obtain ⟨s, reached, delivered, -⟩ := inserts_preambles made (by simp) [[10], [11], [12]] [0, 1, 1]
    [⟨1, 3, 3⟩, ⟨3, 2, 5⟩, ⟨9, 1, 1⟩]
  have evaluated : (Except.map (fun s : Session Nat => (s.consumed, s.out))
      ([⟨1, 3, 3⟩, ⟨3, 2, 5⟩, ⟨9, 1, 1⟩].foldlM (call [[10], [11], [12]] [0, 1, 1])
        ⟨⟨1, [[1], [2]], .idle, 0, 0⟩, 0, []⟩)).toOption =
      some (3, [([1], 1), ([2], 0), ([11], 0), ([1], 1), ([2], 0), ([12], 0)]) := by
    decide +kernel
  rw [reached] at evaluated
  obtain ⟨consumed, out⟩ := Prod.mk.inj (Option.some.inj evaluated)
  exact ⟨s, reached, consumed, out, delivered⟩

end OfdmInsertPreamble

end GnuRadio
