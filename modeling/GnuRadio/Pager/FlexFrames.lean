import Mathlib.Data.List.Basic
import Mathlib.Data.List.Induction
import GnuRadio.Packet.CountBits

/-!
# FLEX synchronisation

`pager_flex_sync` finds frames in a stream of symbols that come several times a bit. It looks for a
sync word in ten registers, one for each place in a bit, takes the centre of the places at which it
sees one, and from there on counts bits until the data of the frame is over.
-/

namespace GnuRadio

/-- `flex_mode_t` (`pageri_flex_modes.h:30-36`). -/
structure FlexMode where
  sync : BitVec 32
  baud : ℕ
  levels : ℕ
  deriving DecidableEq

/-- `flex_modes` (`pageri_flex_modes.cc:25-32`). -/
def flexModes : List FlexMode :=
  [⟨0x870C78F3#32, 1600, 2⟩, ⟨0xB0684F97#32, 1600, 4⟩, ⟨0xDEA0215F#32, 3200, 4⟩,
    ⟨0x4C7CB383#32, 3200, 4⟩]

/-- `FLEX_SYNC_MARKER` (`pageri_flex_modes.h:28`). -/
def flexSyncMarker : BitVec 32 := 0xA6C6AAAA#32

/-- `pageri_reverse_bits8` (`pageri_util.cc:29-37`). -/
def pageriReverseBits8 (val : BitVec 8) : BitVec 8 :=
  ((val.setWidth 64 * 0x0202020202#64 &&& 0x010884422010#64) % 1023#64).setWidth 8

/-- `state_t`. -/
inductive FlexState where
  | idle
  | syncing
  | sync1
  | sync2
  | data
  deriving DecidableEq

/-- What is written to the four outputs. -/
@[ext] structure FlexPhases where
  phase_a : List (BitVec 8)
  phase_b : List (BitVec 8)
  phase_c : List (BitVec 8)
  phase_d : List (BitVec 8)
  deriving DecidableEq

namespace FlexPhases

def none : FlexPhases := ⟨[], [], [], []⟩

def append (p q : FlexPhases) : FlexPhases where
  phase_a := p.phase_a ++ q.phase_a
  phase_b := p.phase_b ++ q.phase_b
  phase_c := p.phase_c ++ q.phase_c
  phase_d := p.phase_d ++ q.phase_d

instance : Append FlexPhases := ⟨append⟩

/-- There are `n` items on each output. -/
structure Uniform (p : FlexPhases) (n : ℕ) : Prop where
  a : p.phase_a.length = n
  b : p.phase_b.length = n
  c : p.phase_c.length = n
  d : p.phase_d.length = n

theorem append_def (p q : FlexPhases) : p ++ q = p.append q := rfl

@[simp] theorem append_none (p : FlexPhases) : p ++ none = p := by
  rw [append_def]
  ext1 <;> exact List.append_nil _

@[simp] theorem none_append (p : FlexPhases) : none ++ p = p := rfl

theorem append_assoc (p q r : FlexPhases) : p ++ q ++ r = p ++ (q ++ r) := by
  simp only [append_def]
  ext1 <;> exact List.append_assoc _ _ _

theorem uniform_none : none.Uniform 0 := ⟨rfl, rfl, rfl, rfl⟩

theorem Uniform.append {p q : FlexPhases} {m n : ℕ} (first : p.Uniform m) (second : q.Uniform n) :
    (p ++ q).Uniform (m + n) := by
  refine ⟨?_, ?_, ?_, ?_⟩
  · exact List.length_append.trans (congrArg₂ _ first.a second.a)
  · exact List.length_append.trans (congrArg₂ _ first.b second.b)
  · exact List.length_append.trans (congrArg₂ _ first.c second.c)
  · exact List.length_append.trans (congrArg₂ _ first.d second.d)

end FlexPhases

/-- `pager_flex_sync` (`pager_flex_sync.h:38-95`). -/
structure PagerFlexSync where
  d_state : FlexState
  d_index : ℤ
  d_start : ℤ
  d_center : ℤ
  d_end : ℤ
  d_count : ℤ
  d_mode : Fin flexModes.length
  d_baudrate : ℤ
  d_levels : ℤ
  d_spb : ℤ
  d_hibit : Bool
  d_fiw : BitVec 32
  d_frame : ℤ
  d_cycle : ℤ
  d_unknown1 : ℤ
  d_unknown2 : ℤ
  d_bit_a : BitVec 8
  d_bit_b : BitVec 8
  d_bit_c : BitVec 8
  d_bit_d : BitVec 8
  d_sync : List (BitVec 64)

/-- A condition as an `unsigned char`. -/
def charOf (b : Bool) : BitVec 8 := if b then 1#8 else 0#8

/-- The bit that both encodings have, and the second one of four levels. -/
def highBit (sym : BitVec 8) : BitVec 8 := charOf (sym < 2#8)

def lowBit (sym : BitVec 8) : BitVec 8 := charOf (sym = 0#8 || sym = 3#8)

namespace PagerFlexSync

/-- `index_avg` (`pager_flex_sync.cc:62-69`). -/
def indexAvg (s : PagerFlexSync) (start stop : ℤ) : ℤ :=
  if start < stop then (stop + start).tdiv 2
  else ((stop + start).tdiv 2 + s.d_spb.tdiv 2).tmod s.d_spb

/-- `test_sync` (`pager_flex_sync.cc:71-110`). -/
def testSync (s : PagerFlexSync) (sym : BitVec 8) : Bool × PagerFlexSync :=
  let index := s.d_index.toNat
  let val : BitVec 64 := s.d_sync.getD index 0#64 <<< 1 ||| (highBit sym).setWidth 64
  let s := { s with d_sync := s.d_sync.set index val }
  let marker : BitVec 32 := ((val &&& 0x0000FFFFFFFF0000#64) >>> 16).setWidth 32
  if grCountBits32 ⟨marker ^^^ flexSyncMarker⟩ < 4 then
    let code : BitVec 32 :=
      ((val &&& 0xFFFF000000000000#64) >>> 32 ||| val &&& 0x000000000000FFFF#64).setWidth 32
    match flexModes.findFinIdx? fun mode => grCountBits32 ⟨code ^^^ mode.sync⟩ < 4 with
    | some i => (true, { s with d_mode := i })
    | .none => (false, s)
  else (false, s)

/-- `enter_idle` (`pager_flex_sync.cc:112-130`). -/
def enterIdle (s : PagerFlexSync) : PagerFlexSync :=
  { s with
    d_state := .idle
    d_index := 0
    d_start := 0
    d_center := 0
    d_end := 0
    d_count := 0
    d_mode := ⟨0, by decide⟩
    d_baudrate := 1600
    d_levels := 2
    d_spb := 10
    d_bit_a := 0#8
    d_bit_b := 0#8
    d_bit_c := 0#8
    d_bit_d := 0#8
    d_hibit := false }

/-- `enter_syncing` (`pager_flex_sync.cc:132-136`). -/
def enterSyncing (s : PagerFlexSync) : PagerFlexSync :=
  { s with d_start := s.d_index, d_state := .syncing }

/-- `enter_sync1` (`pager_flex_sync.cc:138-144`). -/
def enterSync1 (s : PagerFlexSync) : PagerFlexSync :=
  { s with
    d_state := .sync1
    d_end := s.d_index
    d_center := s.indexAvg s.d_start s.d_index
    d_count := 0 }

/-- `enter_sync2` (`pager_flex_sync.cc:146-164`). -/
def enterSync2 (s : PagerFlexSync) : PagerFlexSync :=
  let s := { s with
    d_state := .sync2
    d_count := 0
    d_baudrate := (flexModes.get s.d_mode).baud
    d_levels := (flexModes.get s.d_mode).levels
    d_spb := (16000 : ℤ).tdiv (flexModes.get s.d_mode).baud }
  if s.d_baudrate = 3200 then
    { s with
      d_center := s.d_center.tdiv 2
      d_index := s.d_index.tdiv 2 - s.d_spb.tdiv 2
      d_count := -1 }
  else s

/-- `enter_data` (`pager_flex_sync.cc:166-170`). -/
def enterData (s : PagerFlexSync) : PagerFlexSync := { s with d_state := .data, d_count := 0 }

/-- `parse_fiw` (`pager_flex_sync.cc:172-192`). -/
def parseFiw (s : PagerFlexSync) : PagerFlexSync :=
  { s with
    d_unknown2 :=
      (pageriReverseBits8 ((s.d_fiw.sshiftRight 24 &&& 0xF0#32).setWidth 8)).toNat
    d_cycle := (pageriReverseBits8 ((s.d_fiw.sshiftRight 20 &&& 0xF0#32).setWidth 8)).toNat
    d_frame := (pageriReverseBits8 ((s.d_fiw.sshiftRight 16 &&& 0xFE#32).setWidth 8)).toNat
    d_unknown1 := (s.d_fiw.sshiftRight 11 &&& 0x3F#32).toInt }

/-- The bits as they are written to the outputs. -/
def phases (s : PagerFlexSync) : FlexPhases := ⟨[s.d_bit_a], [s.d_bit_b], [s.d_bit_c], [s.d_bit_d]⟩

/-- `output_symbol` (`pager_flex_sync.cc:194-259`): the number of bits and what is written. -/
def outputSymbol (s : PagerFlexSync) (sym : BitVec 8) : PagerFlexSync × ℕ × FlexPhases :=
  if s.d_baudrate = 1600 then
    let s := { s with
      d_bit_a := highBit sym
      d_bit_b := if s.d_levels = 4 then lowBit sym else s.d_bit_b }
    (s, 1, s.phases)
  else if !s.d_hibit then
    ({ s with
      d_bit_a := highBit sym
      d_bit_b := if s.d_levels = 4 then lowBit sym else s.d_bit_b
      d_hibit := true }, 0, .none)
  else
    let s := { s with
      d_bit_c := highBit sym
      d_bit_d := if s.d_levels = 4 then lowBit sym else s.d_bit_d
      d_hibit := false }
    (s, 1, s.phases)

/-- The `switch` over the state. `pageri_bch3221` leaves the word as it is. -/
def advance (s : PagerFlexSync) (sym : BitVec 8) : PagerFlexSync × ℕ × FlexPhases :=
  match s.d_state with
  | .idle =>
      match s.testSync sym with
      | (true, s) => (s.enterSyncing, 0, .none)
      | (false, s) => (s, 0, .none)
  | .syncing =>
      match s.testSync sym with
      | (true, s) => (s, 0, .none)
      | (false, s) => (s.enterSync1, 0, .none)
  | .sync1 =>
      if s.d_index = s.d_center then
        let s := { s with
          d_fiw := s.d_fiw <<< 1 ||| (charOf (1#8 < sym)).setWidth 32
          d_count := s.d_count + 1 }
        if s.d_count = 48 then (s.parseFiw.enterSync2, 0, .none) else (s, 0, .none)
      else (s, 0, .none)
  | .sync2 =>
      if s.d_index = s.d_center then
        let s := { s with d_count := s.d_count + 1 }
        if s.d_count = s.d_baudrate.tdiv 40 then (s.enterData, 0, .none) else (s, 0, .none)
      else (s, 0, .none)
  | .data =>
      if s.d_index = s.d_center then
        match s.outputSymbol sym with
        | (s, bits, written) =>
          let s := { s with d_count := s.d_count + 1 }
          if s.d_count = (s.d_baudrate * 1760).tdiv 1000 then (s.enterIdle, bits, written)
          else (s, bits, written)
      else (s, 0, .none)

/-- A round of the loop of `general_work` (`pager_flex_sync.cc:276-335`). -/
def receive (s : PagerFlexSync) (sym : BitVec 8) : PagerFlexSync × ℕ × FlexPhases :=
  advance { s with d_index := (s.d_index + 1).tmod s.d_spb } sym

/-- The loop of `general_work`, with what was consumed, produced and written so far. -/
def workLoop (noutput_items : ℕ) :
    List (BitVec 8) → PagerFlexSync → ℕ → ℕ → FlexPhases → PagerFlexSync × ℕ × ℕ × FlexPhases
  | [], s, i, j, written => (s, i, j, written)
  | sym :: input, s, i, j, written =>
      if j < noutput_items then
        let r := s.receive sym
        workLoop noutput_items input r.1 (i + 1) (j + r.2.1) (written ++ r.2.2)
      else (s, i, j, written)

/-- `general_work` (`pager_flex_sync.cc:261-340`): the number of items that are consumed, the number
that is returned and what is written to the outputs. -/
def generalWork (s : PagerFlexSync) (noutput_items : ℕ) (input : List (BitVec 8)) :
    PagerFlexSync × ℕ × ℕ × FlexPhases :=
  workLoop noutput_items input s 0 0 .none

/-- `pager_flex_sync` (`pager_flex_sync.cc:44-52`). `d_fiw` is not set, and what is read of it are
the bits that were shifted into it. -/
def new (d_fiw : BitVec 32) : PagerFlexSync :=
  enterIdle
    { d_state := .idle, d_index := 0, d_start := 0, d_center := 0, d_end := 0, d_count := 0
      d_mode := ⟨0, by decide⟩, d_baudrate := 0, d_levels := 0, d_spb := 0, d_hibit := false
      d_fiw, d_frame := 0, d_cycle := 0, d_unknown1 := 0, d_unknown2 := 0
      d_bit_a := 0#8, d_bit_b := 0#8, d_bit_c := 0#8, d_bit_d := 0#8
      d_sync := List.replicate 10 0#64 }

end PagerFlexSync

/-!
## Frames of the FLEX synchronisation

From the symbol that enters the data state on, the centre of a bit comes at every `d_spb`-th symbol,
and each of these writes or completes a bit of every phase. When the last of them has come the
synchronisation is as it was at the beginning.
-/

namespace FlexMode

/-- The symbols that come for each symbol of the data. -/
def spb (mode : FlexMode) : ℕ := 16000 / mode.baud

/-- The symbols of the data of a frame, 1760 ms. -/
def symbols (mode : FlexMode) : ℕ := mode.baud * 1760 / 1000

/-- The symbols for one item of the outputs. -/
def perItem (mode : FlexMode) : ℕ := mode.baud / 1600

/-- The second bit of a symbol, with four levels. -/
def second (mode : FlexMode) (sym : BitVec 8) : BitVec 8 :=
  if mode.levels = 4 then lowBit sym else 0#8

/-- The first `n` items for the symbols of a frame. At 1600 baud each symbol is an item of phases A
and B, at 3200 baud they are items of A and B, and of C and D, by turns. -/
def items (mode : FlexMode) (symbol : ℕ → BitVec 8) (n : ℕ) : FlexPhases :=
  if mode.baud = 1600 then
    { phase_a := (List.range n).map fun i => highBit (symbol i)
      phase_b := (List.range n).map fun i => mode.second (symbol i)
      phase_c := List.replicate n 0#8
      phase_d := List.replicate n 0#8 }
  else
    { phase_a := (List.range n).map fun i => highBit (symbol (2 * i))
      phase_b := (List.range n).map fun i => mode.second (symbol (2 * i))
      phase_c := (List.range n).map fun i => highBit (symbol (2 * i + 1))
      phase_d := (List.range n).map fun i => mode.second (symbol (2 * i + 1)) }

theorem items_zero (mode : FlexMode) (symbol : ℕ → BitVec 8) : mode.items symbol 0 = .none := by
  rw [items]
  split <;> rfl

theorem uniform_items (mode : FlexMode) (symbol : ℕ → BitVec 8) (n : ℕ) :
    (mode.items symbol n).Uniform n := by
  rw [items]
  split
  · exact ⟨by simp, by simp, by simp, by simp⟩
  · exact ⟨by simp, by simp, by simp, by simp⟩

theorem items_succ (mode : FlexMode) (symbol : ℕ → BitVec 8) (n : ℕ) :
    mode.items symbol (n + 1) = mode.items symbol n ++ (if mode.baud = 1600 then
      ⟨[highBit (symbol n)], [mode.second (symbol n)], [0#8], [0#8]⟩
    else ⟨[highBit (symbol (2 * n))], [mode.second (symbol (2 * n))],
      [highBit (symbol (2 * n + 1))], [mode.second (symbol (2 * n + 1))]⟩) := by
  rw [items, items]
  split
  · simp only [List.range_succ, List.map_append, List.map_singleton, List.replicate_succ',
      FlexPhases.append_def, FlexPhases.append]
  · simp only [List.range_succ, List.map_append, List.map_singleton,
      FlexPhases.append_def, FlexPhases.append]

end FlexMode

theorem flexModes_rates (mode : Fin flexModes.length) :
    (flexModes.get mode).baud = 1600 ∧ (flexModes.get mode).spb = 10 ∧
        (flexModes.get mode).symbols = 2816 ∧ (flexModes.get mode).perItem = 1 ∨
      (flexModes.get mode).baud = 3200 ∧ (flexModes.get mode).spb = 5 ∧
        (flexModes.get mode).symbols = 5632 ∧ (flexModes.get mode).perItem = 2 := by
  revert mode
  decide

namespace PagerFlexSync

/-! ## The bits of a frame -/

/-- The bits when `m` symbols of the data were received. -/
structure Bits (mode : FlexMode) (symbol : ℕ → BitVec 8) (m : ℕ) (s : PagerFlexSync) : Prop where
  baudrate : s.d_baudrate = mode.baud
  levels : s.d_levels = mode.levels
  hibit : s.d_hibit = decide (mode.baud ≠ 1600 ∧ m % 2 = 1)
  second : mode.levels ≠ 4 → s.d_bit_b = 0#8 ∧ s.d_bit_d = 0#8
  unused : mode.baud = 1600 → s.d_bit_c = 0#8 ∧ s.d_bit_d = 0#8
  half : mode.baud ≠ 1600 → m % 2 = 1 →
    s.d_bit_a = highBit (symbol (m - 1)) ∧ s.d_bit_b = mode.second (symbol (m - 1))

/-- What `output_symbol` leaves as it is. -/
structure SameCounters (s t : PagerFlexSync) : Prop where
  state : t.d_state = s.d_state
  index : t.d_index = s.d_index
  center : t.d_center = s.d_center
  count : t.d_count = s.d_count
  mode : t.d_mode = s.d_mode
  baudrate : t.d_baudrate = s.d_baudrate
  levels : t.d_levels = s.d_levels
  spb : t.d_spb = s.d_spb

theorem outputSymbol_same (s : PagerFlexSync) (sym : BitVec 8) :
    s.SameCounters (s.outputSymbol sym).1 := by
  rw [outputSymbol]
  split
  · exact ⟨rfl, rfl, rfl, rfl, rfl, rfl, rfl, rfl⟩
  · split <;> exact ⟨rfl, rfl, rfl, rfl, rfl, rfl, rfl, rfl⟩

theorem outputSymbol_uniform (s : PagerFlexSync) (sym : BitVec 8) :
    (s.outputSymbol sym).2.1 ≤ 1 ∧ (s.outputSymbol sym).2.2.Uniform (s.outputSymbol sym).2.1 := by
  rw [outputSymbol]
  split
  · exact ⟨Nat.le_refl 1, rfl, rfl, rfl, rfl⟩
  · split
    · exact ⟨Nat.zero_le 1, rfl, rfl, rfl, rfl⟩
    · exact ⟨Nat.le_refl 1, rfl, rfl, rfl, rfl⟩

variable {mode : FlexMode} {symbol : ℕ → BitVec 8} {s : PagerFlexSync} {sym : BitVec 8}

theorem second_eq {levels : ℤ} (same : levels = mode.levels) {bit : BitVec 8}
    (unset : mode.levels ≠ 4 → bit = 0#8) (sym : BitVec 8) :
    (if levels = 4 then lowBit sym else bit) = mode.second sym := by
  rw [FlexMode.second, same]
  by_cases four : mode.levels = 4
  · rw [if_pos four, if_pos (by exact_mod_cast four)]
  · rw [if_neg four, if_neg (by exact_mod_cast four), unset four]

theorem Bits.outputSymbol {m : ℕ} (bits : Bits mode symbol m s)
    (rate : mode.baud = 1600 ∧ mode.perItem = 1 ∨ mode.baud = 3200 ∧ mode.perItem = 2) :
    Bits mode symbol (m + 1) (s.outputSymbol (symbol m)).1 ∧
      mode.items symbol ((m + 1) / mode.perItem) =
        mode.items symbol (m / mode.perItem) ++ (s.outputSymbol (symbol m)).2.2 := by
  have keepsB := second_eq bits.levels (fun two => (bits.second two).1) (symbol m)
  have keepsD := second_eq bits.levels (fun two => (bits.second two).2) (symbol m)
  have zero : mode.levels ≠ 4 → mode.second (symbol m) = 0#8 := fun two => if_neg two
  rw [PagerFlexSync.outputSymbol]
  rcases rate with ⟨slow, per⟩ | ⟨fast, per⟩
  · rw [if_pos (by rw [bits.baudrate, slow]; rfl), per, Nat.div_one, Nat.div_one,
      FlexMode.items_succ, if_pos slow]
    dsimp only [phases]
    rw [keepsB, (bits.unused slow).1, (bits.unused slow).2]
    refine ⟨⟨bits.baudrate, bits.levels, ?_, ?_, fun _ => ⟨rfl, rfl⟩, ?_⟩, rfl⟩
    · rw [bits.hibit, decide_eq_false (by omega), decide_eq_false (by omega)]
    · exact fun two => ⟨zero two, rfl⟩
    · exact fun other => absurd slow other
  · have other : mode.baud ≠ 1600 := by omega
    have rate : s.d_baudrate ≠ 1600 := by
      rw [bits.baudrate]
      omega
    rw [if_neg rate, per]
    by_cases odd : m % 2 = 1
    · have hibit : s.d_hibit = true := by
        rw [bits.hibit]
        exact decide_eq_true ⟨other, odd⟩
      obtain ⟨first, second⟩ := bits.half other odd
      have pair : (m + 1) / 2 = m / 2 + 1 := by omega
      have low : 2 * (m / 2) = m - 1 := by omega
      have high : m - 1 + 1 = m := by omega
      rw [if_neg (by rw [hibit]; decide), pair, FlexMode.items_succ, if_neg other, low, high]
      dsimp only [phases]
      rw [keepsD, first, second]
      refine ⟨⟨bits.baudrate, bits.levels, ?_, ?_, ?_, ?_⟩, rfl⟩
      · exact (decide_eq_false (by omega)).symm
      · exact fun two => ⟨(if_neg two : _), zero two⟩
      · exact fun slow => absurd slow other
      · exact fun _ even => by omega
    · have hibit : s.d_hibit = false := by
        rw [bits.hibit]
        exact decide_eq_false (by omega)
      have same : (m + 1) / 2 = m / 2 := by omega
      rw [if_pos (by rw [hibit]; rfl), same]
      dsimp only
      rw [keepsB]
      refine ⟨⟨bits.baudrate, bits.levels, ?_, ?_, ?_, ?_⟩, (FlexPhases.append_none _).symm⟩
      · exact (decide_eq_true ⟨other, by omega⟩).symm
      · exact fun two => ⟨zero two, (bits.second two).2⟩
      · exact fun slow => absurd slow other
      · exact fun _ _ => ⟨rfl, rfl⟩

/-! ## Before the data -/

/-- The rate is that of the mode and the centre is in a bit. -/
structure InMode (s : PagerFlexSync) : Prop where
  baudrate : s.d_baudrate = (flexModes.get s.d_mode).baud
  levels : s.d_levels = (flexModes.get s.d_mode).levels
  spb : s.d_spb = (flexModes.get s.d_mode).spb
  center : 0 ≤ s.d_center ∧ s.d_center < s.d_spb

/-- Nothing of a frame is left in the bits. -/
structure Cleared (s : PagerFlexSync) : Prop where
  hibit : s.d_hibit = false
  a : s.d_bit_a = 0#8
  b : s.d_bit_b = 0#8
  c : s.d_bit_c = 0#8
  d : s.d_bit_d = 0#8

/-- The place in a bit at 1600 baud. -/
structure Searching (s : PagerFlexSync) : Prop where
  spb : s.d_spb = 10
  index : 0 ≤ s.d_index ∧ s.d_index < 10

/-- What every state outside the data of a frame keeps. -/
inductive Ready (s : PagerFlexSync) : Prop where
  | idle (state : s.d_state = .idle) (cleared : s.Cleared) (searching : s.Searching)
  | syncing (state : s.d_state = .syncing) (cleared : s.Cleared) (searching : s.Searching)
      (start : 0 ≤ s.d_start ∧ s.d_start < 10)
  | sync1 (state : s.d_state = .sync1) (cleared : s.Cleared) (searching : s.Searching)
      (center : 0 ≤ s.d_center ∧ s.d_center < 10)
  | sync2 (state : s.d_state = .sync2) (cleared : s.Cleared) (inMode : s.InMode)
  | data (state : s.d_state = .data)

/-- The first symbol of the data comes a bit later. -/
structure Entered (s : PagerFlexSync) : Prop where
  state : s.d_state = .data
  count : s.d_count = 0
  index : s.d_index = s.d_center
  inMode : s.InMode
  cleared : s.Cleared

theorem testSync_same (s : PagerFlexSync) (sym : BitVec 8) :
    ∃ found d_mode d_sync, s.testSync sym = (found, { s with d_mode, d_sync }) := by
  rw [testSync]
  dsimp only
  split
  · split
    · exact ⟨_, _, _, rfl⟩
    · exact ⟨_, s.d_mode, _, rfl⟩
  · exact ⟨_, s.d_mode, _, rfl⟩

theorem ready_enterIdle (s : PagerFlexSync) : s.enterIdle.Ready :=
  .idle rfl ⟨rfl, rfl, rfl, rfl, rfl⟩ ⟨rfl, Int.le_refl 0, Int.ofNat_lt.mpr (by decide : 0 < 10)⟩

theorem indexAvg_inside (spb : s.d_spb = 10) {start stop : ℤ} (first : 0 ≤ start ∧ start < 10)
    (last : 0 ≤ stop ∧ stop < 10) : 0 ≤ s.indexAvg start stop ∧ s.indexAvg start stop < 10 := by
  have half : (10 : ℤ).tdiv 2 = 5 := rfl
  rw [indexAvg, spb, half]
  split
  · rw [Int.tdiv_eq_ediv_of_nonneg (by omega)]
    omega
  · rw [Int.tdiv_eq_ediv_of_nonneg (by omega), Int.tmod_eq_emod_of_nonneg (by omega)]
    omega

theorem enterSync2_state (s : PagerFlexSync) : s.enterSync2.d_state = .sync2 := by
  rw [enterSync2]
  dsimp only
  split <;> rfl

theorem enterSync2_cleared (cleared : s.Cleared) : s.enterSync2.Cleared := by
  rw [enterSync2]
  dsimp only
  split <;> exact ⟨cleared.1, cleared.2, cleared.3, cleared.4, cleared.5⟩

theorem enterSync2_inMode (center : 0 ≤ s.d_center ∧ s.d_center < 10) : s.enterSync2.InMode := by
  have spb : (16000 : ℤ).tdiv (flexModes.get s.d_mode).baud = (flexModes.get s.d_mode).spb := by
    rw [FlexMode.spb, Int.tdiv_eq_ediv_of_nonneg (by decide)]
    rfl
  rw [enterSync2]
  dsimp only
  rw [spb]
  rcases flexModes_rates s.d_mode with ⟨baud, ten, -, -⟩ | ⟨baud, five, -, -⟩
  · rw [if_neg (by omega)]
    refine ⟨rfl, rfl, rfl, ?_⟩
    dsimp only
    omega
  · rw [if_pos (by omega), Int.tdiv_eq_ediv_of_nonneg center.1]
    refine ⟨rfl, rfl, rfl, ?_⟩
    dsimp only
    omega

theorem Searching.tick (searching : s.Searching) :
    Searching { s with d_index := (s.d_index + 1).tmod s.d_spb } := by
  obtain ⟨spb, least, most⟩ := searching
  refine ⟨spb, ?_⟩
  dsimp only
  rw [spb, Int.tmod_eq_emod_of_nonneg (by omega)]
  omega

theorem Ready.tick (ready : s.Ready) :
    Ready { s with d_index := (s.d_index + 1).tmod s.d_spb } := by
  cases ready with
  | idle state cleared searching =>
    exact .idle state ⟨cleared.1, cleared.2, cleared.3, cleared.4, cleared.5⟩ searching.tick
  | syncing state cleared searching start =>
    exact .syncing state ⟨cleared.1, cleared.2, cleared.3, cleared.4, cleared.5⟩ searching.tick
      start
  | sync1 state cleared searching center =>
    exact .sync1 state ⟨cleared.1, cleared.2, cleared.3, cleared.4, cleared.5⟩ searching.tick center
  | sync2 state cleared inMode =>
    exact .sync2 state ⟨cleared.1, cleared.2, cleared.3, cleared.4, cleared.5⟩
      ⟨inMode.1, inMode.2, inMode.3, inMode.4⟩
  | data state => exact .data state

theorem advance_silent (outside : s.d_state ≠ .data) (sym : BitVec 8) :
    (s.advance sym).2 = (0, .none) := by
  rw [advance]
  cases state : s.d_state with
  | idle =>
    dsimp only
    split <;> rfl
  | syncing =>
    dsimp only
    split <;> rfl
  | sync1 =>
    dsimp only
    split
    · split <;> rfl
    · rfl
  | sync2 =>
    dsimp only
    split
    · split <;> rfl
    · rfl
  | data => exact absurd state outside

theorem receive_silent (outside : s.d_state ≠ .data) (sym : BitVec 8) :
    (s.receive sym).2 = (0, .none) :=
  advance_silent (s := { s with d_index := (s.d_index + 1).tmod s.d_spb }) outside sym

/-- The data is entered as it should. -/
structure Outside (s t : PagerFlexSync) : Prop where
  ready : t.Ready
  enters : t.d_state = .data → t.Entered ∧ t.d_mode = s.d_mode

theorem Ready.advance (ready : s.Ready) (outside : s.d_state ≠ .data) (sym : BitVec 8) :
    s.Outside (s.advance sym).1 := by
  have other : ∀ {t : PagerFlexSync} {state : FlexState}, t.d_state = state → state ≠ .data →
      t.d_state = .data → t.Entered ∧ t.d_mode = s.d_mode := by
    intro t state here apart there
    exact absurd (here.symm.trans there) apart
  cases ready with
  | idle state cleared searching =>
    obtain ⟨hibit, a, b, c, d⟩ := cleared
    obtain ⟨spb, index⟩ := searching
    obtain ⟨found, d_mode, d_sync, tested⟩ := s.testSync_same sym
    rw [PagerFlexSync.advance, state, tested]
    cases found with
    | true =>
      exact ⟨.syncing rfl ⟨hibit, a, b, c, d⟩ ⟨spb, index⟩ index,
        other rfl FlexState.noConfusion⟩
    | false =>
      exact ⟨.idle state ⟨hibit, a, b, c, d⟩ ⟨spb, index⟩, other state FlexState.noConfusion⟩
  | syncing state cleared searching start =>
    obtain ⟨hibit, a, b, c, d⟩ := cleared
    obtain ⟨spb, index⟩ := searching
    obtain ⟨found, d_mode, d_sync, tested⟩ := s.testSync_same sym
    rw [PagerFlexSync.advance, state, tested]
    cases found with
    | true =>
      exact ⟨.syncing state ⟨hibit, a, b, c, d⟩ ⟨spb, index⟩ start,
        other state FlexState.noConfusion⟩
    | false =>
      exact ⟨.sync1 rfl ⟨hibit, a, b, c, d⟩ ⟨spb, index⟩ (indexAvg_inside spb start index),
        other rfl FlexState.noConfusion⟩
  | sync1 state cleared searching center =>
    obtain ⟨hibit, a, b, c, d⟩ := cleared
    obtain ⟨spb, index⟩ := searching
    rw [PagerFlexSync.advance, state]
    dsimp only
    split
    · split
      · refine ⟨.sync2 (enterSync2_state _) (enterSync2_cleared ⟨hibit, a, b, c, d⟩)
          (enterSync2_inMode center), other (enterSync2_state _) FlexState.noConfusion⟩
      · exact ⟨.sync1 rfl ⟨hibit, a, b, c, d⟩ ⟨spb, index⟩ center,
          other rfl FlexState.noConfusion⟩
    · exact ⟨.sync1 state ⟨hibit, a, b, c, d⟩ ⟨spb, index⟩ center,
        other state FlexState.noConfusion⟩
  | sync2 state cleared inMode =>
    obtain ⟨hibit, a, b, c, d⟩ := cleared
    obtain ⟨baudrate, levels, spb, center⟩ := inMode
    rw [PagerFlexSync.advance, state]
    dsimp only
    split
    · split
      · next here _ =>
        exact ⟨.data rfl, fun _ => ⟨⟨rfl, rfl, here, ⟨baudrate, levels, spb, center⟩,
          ⟨hibit, a, b, c, d⟩⟩, rfl⟩⟩
      · exact ⟨.sync2 rfl ⟨hibit, a, b, c, d⟩ ⟨baudrate, levels, spb, center⟩,
          other rfl FlexState.noConfusion⟩
    · exact ⟨.sync2 state ⟨hibit, a, b, c, d⟩ ⟨baudrate, levels, spb, center⟩,
        other state FlexState.noConfusion⟩
  | data state => exact absurd state outside

/-! ## The data -/

/-- The state when `q` symbols have come since the data was entered. -/
structure InFrame (mode : Fin flexModes.length) (symbol : ℕ → BitVec 8) (q : ℕ)
    (s : PagerFlexSync) : Prop where
  state : s.d_state = .data
  sameMode : s.d_mode = mode
  spb : s.d_spb = (flexModes.get mode).spb
  center : 0 ≤ s.d_center ∧ s.d_center < (flexModes.get mode).spb
  index : s.d_index = (s.d_center + q) % (flexModes.get mode).spb
  count : s.d_count = (q / (flexModes.get mode).spb : ℕ)
  bits : Bits (flexModes.get mode) symbol (q / (flexModes.get mode).spb) s

theorem Entered.inFrame (entered : s.Entered) (symbol : ℕ → BitVec 8) :
    InFrame s.d_mode symbol 0 s := by
  obtain ⟨state, count, index, ⟨baudrate, levels, spb, center⟩, cleared⟩ := entered
  rw [spb] at center
  refine ⟨state, rfl, spb, center, ?_, ?_, ?_⟩
  · rw [index, Nat.cast_zero, add_zero, Int.emod_eq_of_lt center.1 center.2]
  · rw [count, Nat.zero_div]
    rfl
  · rw [Nat.zero_div]
    refine ⟨baudrate, levels, ?_, fun _ => ⟨cleared.b, cleared.d⟩, fun _ => ⟨cleared.c, cleared.d⟩,
      fun _ odd => absurd odd (by decide)⟩
    rw [cleared.hibit, decide_eq_false]
    exact fun both => absurd both.2 (by decide)

theorem place_succ {index center : ℤ} {q p : ℕ} (rate : p = 10 ∨ p = 5)
    (inside : 0 ≤ center ∧ center < p) (place : index = (center + q) % p) :
    (index + 1).tmod p = (center + (q + 1 : ℕ)) % p ∧
      ((index + 1).tmod p = center ↔ (q + 1) % p = 0) := by
  rcases rate with rfl | rfl
  · rw [Int.tmod_eq_emod_of_nonneg (by omega)]
    omega
  · rw [Int.tmod_eq_emod_of_nonneg (by omega)]
    omega

theorem advance_data {t : PagerFlexSync} {written : ℕ × FlexPhases} (state : s.d_state = .data)
    (output : s.outputSymbol sym = (t, written)) :
    s.advance sym =
      if s.d_index = s.d_center then
        (if t.d_count + 1 = (t.d_baudrate * 1760).tdiv 1000 then
          enterIdle { t with d_count := t.d_count + 1 }
        else { t with d_count := t.d_count + 1 }, written)
      else (s, 0, .none) := by
  rw [advance, state]
  dsimp only
  rw [output]
  dsimp only
  split
  · split <;> rfl
  · rfl

theorem InFrame.receive {mode : Fin flexModes.length} {q : ℕ} (frame : InFrame mode symbol q s)
    (data : (q + 1) % (flexModes.get mode).spb = 0 → sym = symbol (q / (flexModes.get mode).spb)) :
    (flexModes.get mode).items symbol
          ((q + 1) / (flexModes.get mode).spb / (flexModes.get mode).perItem) =
        (flexModes.get mode).items symbol
            (q / (flexModes.get mode).spb / (flexModes.get mode).perItem) ++
          (s.receive sym).2.2 ∧
      (q + 1 ≠ (flexModes.get mode).spb * (flexModes.get mode).symbols →
        InFrame mode symbol (q + 1) (s.receive sym).1) ∧
      (q + 1 = (flexModes.get mode).spb * (flexModes.get mode).symbols →
        (s.receive sym).1.enterIdle = (s.receive sym).1) := by
  have rates := flexModes_rates mode
  obtain ⟨state, sameMode, spb, center, index, count, bits⟩ := frame
  obtain ⟨place, hit⟩ := place_succ (by omega) center index
  rw [PagerFlexSync.receive]
  rw [← spb] at place hit
  have ticked : ∃ t, t = { s with d_index := (s.d_index + 1).tmod s.d_spb } := ⟨_, rfl⟩
  obtain ⟨t, same⟩ := ticked
  have bits : Bits (flexModes.get mode) symbol (q / (flexModes.get mode).spb) t := by
    rw [same]
    exact ⟨bits.1, bits.2, bits.3, bits.4, bits.5, bits.6⟩
  have tState : t.d_state = .data := by rw [same]; exact state
  have tMode : t.d_mode = mode := by rw [same]; exact sameMode
  have tSpb : t.d_spb = (flexModes.get mode).spb := by rw [same]; exact spb
  have tCenter : t.d_center = s.d_center := by rw [same]
  have tCount : t.d_count = (q / (flexModes.get mode).spb : ℕ) := by rw [same]; exact count
  have tIndex : t.d_index = (s.d_index + 1).tmod s.d_spb := by rw [same]
  rw [← tCenter] at center place hit
  rw [← tIndex] at place hit
  rw [spb] at place
  rcases output : t.outputSymbol sym with ⟨u, written⟩
  rw [← same, advance_data tState output]
  by_cases here : (q + 1) % (flexModes.get mode).spb = 0
  · have next : (q + 1) / (flexModes.get mode).spb = q / (flexModes.get mode).spb + 1 := by
      rw [Nat.succ_div, if_pos (Nat.dvd_of_mod_eq_zero here)]
    obtain ⟨more, items⟩ := bits.outputSymbol (by omega)
    have kept := t.outputSymbol_same sym
    rw [← data here, output] at more items
    rw [output] at kept
    dsimp only at more items kept
    rw [if_pos (hit.mpr here), next]
    have finished : u.d_count + 1 = (u.d_baudrate * 1760).tdiv 1000 ↔
        q + 1 = (flexModes.get mode).spb * (flexModes.get mode).symbols := by
      have whole := Nat.div_add_mod (q + 1) (flexModes.get mode).spb
      rw [here, next] at whole
      rw [kept.count, kept.baudrate, tCount, bits.baudrate,
        Int.tdiv_eq_ediv_of_nonneg (by omega)]
      generalize q / (flexModes.get mode).spb = m at whole
      rcases rates with ⟨baud, spb, symbols, -⟩ | ⟨baud, spb, symbols, -⟩
      · rw [spb] at whole
        rw [baud, spb, symbols]
        omega
      · rw [spb] at whole
        rw [baud, spb, symbols]
        omega
    refine ⟨items, ?_, ?_⟩
    · intro goes
      rw [if_neg (fun ends => goes (finished.mp ends))]
      refine ⟨kept.state.trans tState, kept.mode.trans tMode, kept.spb.trans tSpb, ?_, ?_, ?_, ?_⟩
      · dsimp only
        rw [kept.center]
        exact center
      · dsimp only
        rw [kept.center, kept.index]
        exact place
      · dsimp only
        rw [kept.count, tCount, next]
        rfl
      · rw [next]
        exact ⟨more.1, more.2, more.3, more.4, more.5, more.6⟩
    · intro ends
      rw [if_pos (finished.mpr ends)]
      rfl
  · have next : (q + 1) / (flexModes.get mode).spb = q / (flexModes.get mode).spb := by
      rw [Nat.succ_div, if_neg (fun divides => here (Nat.mod_eq_zero_of_dvd divides)), add_zero]
    rw [if_neg (fun same => here (hit.mp same)), next]
    refine ⟨(FlexPhases.append_none _).symm, ?_, ?_⟩
    · intro _
      exact ⟨tState, tMode, tSpb, center, place, tCount.trans (by rw [next]), next ▸ bits⟩
    · intro ends
      rw [ends, Nat.mul_mod_right] at here
      exact absurd rfl here

/-! ## A stream -/

/-- The symbols are received one after another. -/
def receiveAll (s : PagerFlexSync) : List (BitVec 8) → PagerFlexSync × FlexPhases
  | [] => (s, .none)
  | sym :: input =>
      let r := s.receive sym
      let rest := receiveAll r.1 input
      (rest.1, r.2.2 ++ rest.2)

theorem receiveAll_append (s : PagerFlexSync) (xs ys : List (BitVec 8)) :
    s.receiveAll (xs ++ ys) = (((s.receiveAll xs).1.receiveAll ys).1,
      (s.receiveAll xs).2 ++ ((s.receiveAll xs).1.receiveAll ys).2) := by
  induction xs generalizing s with
  | nil => rfl
  | cons sym xs ih =>
    rw [List.cons_append, receiveAll, receiveAll, ih]
    dsimp only
    rw [FlexPhases.append_assoc]

theorem receive_uniform (s : PagerFlexSync) (sym : BitVec 8) :
    (s.receive sym).2.1 ≤ 1 ∧ (s.receive sym).2.2.Uniform (s.receive sym).2.1 := by
  rw [receive]
  generalize ({ s with d_index := (s.d_index + 1).tmod s.d_spb } : PagerFlexSync) = t
  by_cases state : t.d_state = .data
  · obtain ⟨most, uniform⟩ := t.outputSymbol_uniform sym
    rcases output : t.outputSymbol sym with ⟨u, written⟩
    rw [output] at most uniform
    rw [advance_data state output]
    split
    · exact ⟨most, uniform⟩
    · exact ⟨Nat.zero_le 1, FlexPhases.uniform_none⟩
  · rw [advance_silent state sym]
    exact ⟨Nat.zero_le 1, FlexPhases.uniform_none⟩

theorem workLoop_spec (noutput_items : ℕ) (input : List (BitVec 8)) (s : PagerFlexSync)
    {i j : ℕ} {written : FlexPhases} (most : j ≤ noutput_items) (uniform : written.Uniform j) :
    ∃ m j', m ≤ input.length ∧ j' ≤ noutput_items ∧
      workLoop noutput_items input s i j written = ((s.receiveAll (input.take m)).1, i + m, j',
        written ++ (s.receiveAll (input.take m)).2) ∧
      (written ++ (s.receiveAll (input.take m)).2).Uniform j' := by
  induction input generalizing s i j written with
  | nil =>
    refine ⟨0, j, Nat.le_refl 0, most, ?_, ?_⟩
    · rw [List.take_zero, receiveAll, FlexPhases.append_none]
      rfl
    · rw [List.take_zero, receiveAll, FlexPhases.append_none]
      exact uniform
  | cons sym input ih =>
    rw [workLoop]
    by_cases room : j < noutput_items
    · rw [if_pos room]
      obtain ⟨one, items⟩ := s.receive_uniform sym
      obtain ⟨m, j', inside, fits, result, whole⟩ :=
        ih (s.receive sym).1 (i := i + 1) (by omega) (uniform.append items)
      rw [FlexPhases.append_assoc] at result whole
      refine ⟨m + 1, j', Nat.succ_le_succ inside, fits, ?_, ?_⟩
      · dsimp only
        rw [result, List.take_succ_cons, receiveAll, Nat.add_assoc, Nat.add_comm 1 m]
      · rw [List.take_succ_cons, receiveAll]
        exact whole
    · rw [if_neg room]
      refine ⟨0, j, Nat.zero_le _, most, ?_, ?_⟩
      · rw [List.take_zero, receiveAll, FlexPhases.append_none]
        rfl
      · rw [List.take_zero, receiveAll, FlexPhases.append_none]
        exact uniform

theorem Ready.receive (ready : s.Ready) (sym : BitVec 8) : (s.receive sym).1.Ready := by
  have ticked := ready.tick
  rw [PagerFlexSync.receive]
  generalize ({ s with d_index := (s.d_index + 1).tmod s.d_spb } : PagerFlexSync) = t at ticked ⊢
  by_cases state : t.d_state = .data
  · have kept := (t.outputSymbol_same sym).state
    rcases output : t.outputSymbol sym with ⟨u, written⟩
    rw [output] at kept
    rw [advance_data state output]
    split
    · dsimp only
      split
      · exact ready_enterIdle _
      · exact .data (kept.trans state)
    · exact ticked
  · exact (ticked.advance state sym).ready

/-! ## Frames and calls -/

section

variable (d_fiw : BitVec 32) (xs : List (BitVec 8))

/-- The synchronisation after the first `k` symbols, and what was written until then. -/
def after (k : ℕ) : PagerFlexSync := ((new d_fiw).receiveAll (xs.take k)).1

def written (k : ℕ) : FlexPhases := ((new d_fiw).receiveAll (xs.take k)).2

/-- Symbol `i` of the data that symbol `t` enters: they come at the rate of the mode. -/
def dataSymbol (mode : FlexMode) (t i : ℕ) : BitVec 8 := xs.getD (t + mode.spb * (i + 1)) 0#8

/-- The data that symbol `t` enters. As long as it lasts what is written are its items, and when its
last symbol has come these are a whole frame and the synchronisation is idle again. -/
structure WholeFrame (t : ℕ) (mode : FlexMode) : Prop where
  during : ∀ k, t < k → k ≤ t + mode.spb * mode.symbols → k ≤ xs.length →
    (after d_fiw xs k).d_state = .data ∧ written d_fiw xs k = written d_fiw xs (t + 1) ++
      mode.items (dataSymbol xs mode t) ((k - 1 - t) / mode.spb / mode.perItem)
  complete : ∀ k, k = t + mode.spb * mode.symbols + 1 → k ≤ xs.length →
    (after d_fiw xs k).enterIdle = after d_fiw xs k ∧
      (mode.items (dataSymbol xs mode t) 2816).Uniform 2816 ∧
      written d_fiw xs k = written d_fiw xs (t + 1) ++ mode.items (dataSymbol xs mode t) 2816

/-- Only the data of frames is written. -/
structure WholeFrames : Prop where
  silent : ∀ k < xs.length, (after d_fiw xs k).d_state ≠ .data →
    written d_fiw xs (k + 1) = written d_fiw xs k
  frames : ∀ t < xs.length, (after d_fiw xs t).d_state ≠ .data →
    (after d_fiw xs (t + 1)).d_state = .data →
    WholeFrame d_fiw xs t (flexModes.get (after d_fiw xs t).d_mode)

/-- The synchronisation between calls of `general_work`, the symbols that were consumed and what the
calls returned and wrote. -/
structure Calls where
  sync : PagerFlexSync
  consumed : ℕ
  returned : List (ℕ × FlexPhases)

/-- A call that is offered some of the symbols behind those that were consumed, with room for some
items. -/
def call (r : Calls) (ninput_items noutput_items : ℕ) : Calls :=
  let w := r.sync.generalWork noutput_items ((xs.drop r.consumed).take ninput_items)
  ⟨w.1, r.consumed + w.2.1, r.returned ++ [(w.2.2.1, w.2.2.2)]⟩

def calls (cs : List (ℕ × ℕ)) : Calls :=
  cs.foldl (fun r c => call xs r c.1 c.2) ⟨new d_fiw, 0, []⟩

/-- Calls do what the symbols do that they consume, and return as many items as there are on each
output, not more than there is room for. -/
structure Split (cs : List (ℕ × ℕ)) (r : Calls) : Prop where
  consumed : r.consumed ≤ xs.length
  sync : r.sync = after d_fiw xs r.consumed
  outputs : (r.returned.map Prod.snd).foldl (· ++ ·) .none = written d_fiw xs r.consumed
  length : r.returned.length = cs.length
  bounded : ∀ p ∈ cs.zip r.returned, p.2.1 ≤ p.1.2 ∧ p.2.2.Uniform p.2.1

theorem after_add (k n : ℕ) : after d_fiw xs (k + n) =
      ((after d_fiw xs k).receiveAll ((xs.drop k).take n)).1 ∧
    written d_fiw xs (k + n) = written d_fiw xs k ++
      ((after d_fiw xs k).receiveAll ((xs.drop k).take n)).2 := by
  rw [after, written, List.take_add, receiveAll_append]
  exact ⟨rfl, rfl⟩

variable {xs}

theorem after_succ {k : ℕ} (inside : k < xs.length) :
    after d_fiw xs (k + 1) = ((after d_fiw xs k).receive xs[k]).1 ∧
      written d_fiw xs (k + 1) = written d_fiw xs k ++
        ((after d_fiw xs k).receive xs[k]).2.2 := by
  have one : (xs.drop k).take 1 = [xs[k]] := by
    rw [List.drop_eq_getElem_cons inside, List.take_succ_cons, List.take_zero]
  obtain ⟨state, items⟩ := after_add d_fiw xs k 1
  rw [one, receiveAll, receiveAll, FlexPhases.append_none] at items
  rw [one] at state
  exact ⟨state, items⟩

theorem ready_after {k : ℕ} (inside : k ≤ xs.length) : (after d_fiw xs k).Ready := by
  induction k with
  | zero => exact ready_enterIdle _
  | succ k ih =>
    rw [(after_succ d_fiw inside).1]
    exact (ih (by omega)).receive _

variable {d_fiw}

theorem dataSymbol_eq {mode : FlexMode} {t q : ℕ} (inside : t + 1 + q < xs.length)
    (here : (q + 1) % mode.spb = 0) : xs[t + 1 + q] = dataSymbol xs mode t (q / mode.spb) := by
  have divides := Nat.dvd_of_mod_eq_zero here
  have next : (q + 1) / mode.spb = q / mode.spb + 1 := by
    rw [Nat.succ_div, if_pos divides]
  have place : t + mode.spb * (q / mode.spb + 1) = t + 1 + q := by
    rw [← next, Nat.mul_div_cancel' divides]
    omega
  rw [dataSymbol, place, List.getD_eq_getElem?_getD, List.getElem?_eq_getElem inside,
    Option.getD_some]

theorem inFrame_after {t : ℕ} {mode : Fin flexModes.length}
    (entered : (after d_fiw xs (t + 1)).Entered) (same : (after d_fiw xs (t + 1)).d_mode = mode)
    {q : ℕ} (before : q < (flexModes.get mode).spb * (flexModes.get mode).symbols)
    (inside : t + 1 + q ≤ xs.length) :
    InFrame mode (dataSymbol xs (flexModes.get mode) t) q (after d_fiw xs (t + 1 + q)) ∧
      written d_fiw xs (t + 1 + q) = written d_fiw xs (t + 1) ++
        (flexModes.get mode).items (dataSymbol xs (flexModes.get mode) t)
          (q / (flexModes.get mode).spb / (flexModes.get mode).perItem) := by
  subst same
  induction q with
  | zero =>
    refine ⟨entered.inFrame _, ?_⟩
    rw [Nat.zero_div, Nat.zero_div, FlexMode.items_zero, FlexPhases.append_none]
  | succ q ih =>
    obtain ⟨frame, items⟩ := ih (by omega) (by omega)
    have here : t + 1 + q < xs.length := by omega
    obtain ⟨state, wrote⟩ := after_succ d_fiw here
    obtain ⟨more, goes, _⟩ := frame.receive (dataSymbol_eq here)
    rw [← Nat.add_assoc, state, wrote, items, more, FlexPhases.append_assoc]
    exact ⟨goes (by omega), rfl⟩

theorem wholeFrame {t : ℕ} (inside : t < xs.length) (outside : (after d_fiw xs t).d_state ≠ .data)
    (enters : (after d_fiw xs (t + 1)).d_state = .data) :
    WholeFrame d_fiw xs t (flexModes.get (after d_fiw xs t).d_mode) := by
  have next := (after_succ d_fiw inside).1
  have ready := (ready_after d_fiw (Nat.le_of_lt inside)).tick
  obtain ⟨entered, mode⟩ := (ready.advance outside xs[t]).enters (by
    rw [next] at enters
    exact enters)
  change ((after d_fiw xs t).receive xs[t]).1.Entered at entered
  change ((after d_fiw xs t).receive xs[t]).1.d_mode = (after d_fiw xs t).d_mode at mode
  rw [← next] at entered mode
  generalize (after d_fiw xs t).d_mode = detected at mode ⊢
  have rates := flexModes_rates detected
  refine ⟨?_, ?_⟩
  · intro k later before short
    obtain ⟨q, rfl⟩ := Nat.exists_eq_add_of_le later
    obtain ⟨frame, items⟩ := inFrame_after entered mode (q := q) (by omega) short
    have passed : t.succ + q - 1 - t = q := by omega
    rw [passed]
    exact ⟨frame.state, items⟩
  · intro k last short
    have positive : 0 < (flexModes.get detected).spb * (flexModes.get detected).symbols :=
      Nat.mul_pos (by omega) (by omega)
    obtain ⟨q, count⟩ := Nat.exists_eq_add_of_lt positive
    rw [Nat.zero_add] at count
    have here : t + 1 + q < xs.length := by omega
    obtain ⟨frame, items⟩ := inFrame_after entered mode (q := q) (by omega) (by omega)
    obtain ⟨state, wrote⟩ := after_succ d_fiw here
    obtain ⟨more, _, ends⟩ := frame.receive (dataSymbol_eq here)
    have whole : (q + 1) / (flexModes.get detected).spb / (flexModes.get detected).perItem =
        2816 := by
      rw [← count, Nat.mul_div_cancel_left _ (by omega)]
      rcases rates with ⟨-, -, symbols, per⟩ | ⟨-, -, symbols, per⟩
      · rw [symbols, per]
      · rw [symbols, per]
    have there : k = t + 1 + q + 1 := by omega
    rw [whole] at more
    rw [there, state, wrote, items, FlexPhases.append_assoc, ← more]
    exact ⟨ends count.symm, FlexMode.uniform_items _ _ _, rfl⟩

theorem wholeFrames : WholeFrames d_fiw xs := by
  refine ⟨?_, fun t inside outside enters => wholeFrame inside outside enters⟩
  intro k inside outside
  obtain ⟨_, wrote⟩ := after_succ d_fiw inside
  rw [wrote, receive_silent outside, FlexPhases.append_none]

theorem split_call {cs : List (ℕ × ℕ)} {r : Calls} (split : Split d_fiw xs cs r) (c : ℕ × ℕ) :
    Split d_fiw xs (cs ++ [c]) (call xs r c.1 c.2) := by
  obtain ⟨consumed, sync, outputs, length, bounded⟩ := split
  obtain ⟨m, j, most, fits, result, uniform⟩ := workLoop_spec c.2
    ((xs.drop r.consumed).take c.1) r.sync (i := 0) (Nat.zero_le _) FlexPhases.uniform_none
  rw [FlexPhases.none_append, Nat.zero_add] at result
  rw [FlexPhases.none_append] at uniform
  rw [List.length_take, List.length_drop] at most
  rw [call, generalWork, result]
  rw [List.take_take, Nat.min_eq_left (by omega), sync] at uniform ⊢
  obtain ⟨state, wrote⟩ := after_add d_fiw xs r.consumed m
  refine ⟨by dsimp only; omega, state.symm, ?_, ?_, ?_⟩
  · dsimp only
    rw [List.map_append, List.foldl_append, outputs, wrote]
    rfl
  · dsimp only
    rw [List.length_append, List.length_append, length]
    rfl
  · intro p member
    rw [List.zip_append length.symm] at member
    rcases List.mem_append.mp member with before | last
    · exact bounded p before
    · rw [List.mem_singleton.mp last]
      exact ⟨fits, uniform⟩

theorem split_calls (cs : List (ℕ × ℕ)) : Split d_fiw xs cs (calls d_fiw xs cs) := by
  induction cs using List.reverseRecOn with
  | nil => exact ⟨Nat.zero_le _, rfl, rfl, rfl, fun p member => absurd member List.not_mem_nil⟩
  | append_singleton cs c ih =>
    rw [calls, List.foldl_append]
    exact split_call ih c

end

/-- Whatever is received and however it is split into calls, the synchronisation writes the data of
whole frames. -/
theorem writes_whole_frames (d_fiw : BitVec 32) (xs : List (BitVec 8)) (cs : List (ℕ × ℕ)) :
    Split d_fiw xs cs (calls d_fiw xs cs) ∧ WholeFrames d_fiw xs :=
  ⟨split_calls cs, wholeFrames⟩

end PagerFlexSync

end GnuRadio
