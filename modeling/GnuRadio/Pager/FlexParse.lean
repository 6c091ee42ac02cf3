import GnuRadio.Misc.Except
import GnuRadio.Runtime.Types
import Mathlib.Data.Int.Notation
import Mathlib.Data.List.Basic

/-!
# FLEX page parsing

`pager_flex_parse` reads the pages of a frame of 88 data words: a block information word, the
addresses, for each address a vector word, and the messages that the vectors point to. All of
it comes from the radio channel.
-/

namespace GnuRadio

/-- `d_datawords`, 88 of `gr_int32`. -/
abbrev FlexFrame := Fin 88 → BitVec 32

/-- `page_type_t` (`pageri_flex_modes.h:44-54`). -/
inductive PageType where
  | secure
  | unknown
  | tone
  | standardNumeric
  | specialNumeric
  | alphanumeric
  | binary
  | numberedNumeric
  deriving DecidableEq, Repr

/-- A page that is put into the queue, without the frequency before it and the padding of the
capcode. -/
structure FlexMessage where
  capcode : ℤ
  desc : String
  text : List UInt8
  deriving DecidableEq, Repr

namespace PageType

/-- The cast of three bits. -/
def ofBits : ℕ → PageType
  | 0 => secure
  | 1 => unknown
  | 2 => tone
  | 3 => standardNumeric
  | 4 => specialNumeric
  | 5 => alphanumeric
  | 6 => binary
  | _ => numberedNumeric

/-- `flex_page_desc` (`pageri_flex_modes.cc:38-48`). -/
def desc : PageType → String
  | secure => "ENC"
  | unknown => "UNK"
  | tone => "TON"
  | standardNumeric => "NUM"
  | specialNumeric => "SPN"
  | alphanumeric => "ALN"
  | binary => "BIN"
  | numberedNumeric => "NNM"

/-- `is_alphanumeric_page` (`pageri_flex_modes.h:56-60`). -/
def isAlphanumericPage (type : PageType) : Bool := type = alphanumeric || type = secure

/-- `is_numeric_page` (`pageri_flex_modes.h:62-67`). -/
def isNumericPage (type : PageType) : Bool :=
  type = standardNumeric || type = specialNumeric || type = numberedNumeric

/-- `is_tone_page` (`pageri_flex_modes.h:69-72`). -/
def isTonePage (type : PageType) : Bool := type = tone

end PageType

namespace FlexParse

/-- `d_datawords[i]`. -/
def dataword (frame : FlexFrame) (i : ℕ) : Except CppException (BitVec 32) :=
  if inside : i < 88 then .ok (frame ⟨i, inside⟩) else .error .undefinedBehaviour

/-- `(word >> shift) & mask`. -/
def field (word : BitVec 32) (shift : ℕ) (mask : BitVec 32) : ℕ :=
  (word.sshiftRight shift &&& mask).toNat

/-- `flex_bcd` (`pageri_flex_modes.cc:36`). -/
def flexBcd (digit : ℕ) : UInt8 :=
  (("0123456789 U -][".toList.map fun c => c.toNat.toUInt8).getD digit 0)

/-- `parse_capcode` (`pager_flex_parse.cc:73-83`): `d_laddr` and `d_capcode`. The shift and the
sums of `int`s wrap around. -/
def parseCapcode (aw1 aw2 : BitVec 32) : Bool × ℤ :=
  let d_laddr := decide (aw1.toInt < 0x8001) || decide (aw1.toInt > 0x1E0000) ||
    decide (aw1.toInt > 0x1E7FFE)
  if d_laddr then
    (d_laddr, (aw1 + ((aw2 ^^^ 0x1FFFFF#32) <<< 15) + 0x1F9000#32).toInt)
  else
    (d_laddr, (aw1 - 0x8000#32).toInt)

/-- A character that is not the fill. -/
def put (payload : List UInt8) (ch : ℕ) : List UInt8 :=
  if ch ≠ 3 then payload ++ [ch.toUInt8] else payload

/-- `parse_alphanumeric` (`pager_flex_parse.cc:156-194`). -/
def parseAlphanumeric (frame : FlexFrame) (d_laddr : Bool) (mw1 : ℕ) (mw2 : ℤ) (j : ℕ) :
    Except CppException (List UInt8) := do
  let header ← dataword frame (if d_laddr then j + 1 else mw1)
  let frag := field header 11 3
  let first := if d_laddr then mw1 else mw1 + 1
  let last := if d_laddr then mw2 - 1 else mw2
  (List.range' first (last + 1 - first).toNat).foldlM (fun payload i => do
    let dw ← dataword frame i
    let payload := if first < i ∨ frag ≠ 3 then put payload (field dw 0 0x7F) else payload
    let payload := put payload (field dw 7 0x7F)
    return put payload (field dw 14 0x7F)) []

/-- The locals of `parse_numeric`. -/
structure Digits where
  dw : BitVec 32
  digit : ℕ
  count : ℕ
  payload : List UInt8

/-- A bit of a data word goes into the digit. -/
def shiftDigit (s : Digits) : Digits :=
  let digit := s.digit >>> 1 &&& 0x0F
  let digit := if s.dw &&& 1 ≠ 0 then digit ^^^ 0x08 else digit
  if s.count - 1 = 0 then
    { dw := s.dw.sshiftRight 1
      digit := digit
      count := 4
      payload := if digit ≠ 0x0C then s.payload ++ [flexBcd digit] else s.payload }
  else
    { s with dw := s.dw.sshiftRight 1, digit := digit, count := s.count - 1 }

/-- `parse_numeric` (`pager_flex_parse.cc:196-240`). -/
def parseNumeric (frame : FlexFrame) (d_type : PageType) (d_laddr : Bool) (mw1 mw2 j : ℕ) :
    Except CppException (List UInt8) := do
  let dw ← dataword frame (if d_laddr then j + 1 else mw1)
  let first := if d_laddr then mw1 else mw1 + 1
  let last := if d_laddr then mw2 else mw2 + 1
  let start : Digits := {
    dw := dw
    digit := 0
    count := if d_type = .numberedNumeric then 14 else 6
    payload := [] }
  let s ← (List.range' first (last + 1 - first)).foldlM (fun s i => do
    let s := (List.range 21).foldl (fun s _ => shiftDigit s) s
    let dw ← dataword frame i
    return { s with dw := dw }) start
  return s.payload

/-- `d_type`, `mw1` and `mw2` of a vector word (`pager_flex_parse.cc:116-123`). -/
def vectorType (viw : BitVec 32) : PageType := PageType.ofBits (field viw 4 7)

def vectorFirst (viw : BitVec 32) : ℕ := field viw 7 0x7F

def vectorLast (viw : BitVec 32) : ℕ :=
  let len := field viw 14 0x7F
  vectorFirst viw + if (vectorType viw).isNumericPage then len &&& 7 else len

/-- The dispatch on the type; the other pages have no text (`pager_flex_parse.cc:141-148`). -/
def parseText (frame : FlexFrame) (d_type : PageType) (d_laddr : Bool) (mw1 mw2 j : ℕ) :
    Except CppException (List UInt8) :=
  if d_type.isAlphanumericPage then parseAlphanumeric frame d_laddr mw1 (mw2 - 1) j
  else if d_type.isNumericPage then parseNumeric frame d_type d_laddr mw1 mw2 j
  else .ok []

/-- What `parse_data` does with the vector word of an address (`pager_flex_parse.cc:115-152`). -/
def parseVector (frame : FlexFrame) (d_laddr : Bool) (d_capcode : ℤ) (j : ℕ) :
    Except CppException (Option FlexMessage) := do
  let viw ← dataword frame j
  let d_type := vectorType viw
  if vectorFirst viw = 0 ∧ vectorLast viw = 0 then
    return none
  let mw1 := if d_type.isTonePage then 0 else vectorFirst viw
  let mw2 := if d_type.isTonePage then 0 else vectorLast viw
  if 87 < mw1 ∨ 87 < mw2 then
    return none
  let text ← parseText frame d_type d_laddr mw1 mw2 j
  return some { capcode := d_capcode, desc := d_type.desc, text := text }

/-- A round of the loop over the addresses (`pager_flex_parse.cc:102-153`): whether the address
took the next word too, and its message. -/
def parsePage (frame : FlexFrame) (voffset aoffset i : ℕ) :
    Except CppException (Bool × Option FlexMessage) := do
  let j := voffset + i - aoffset
  let aw1 ← dataword frame i
  if aw1 = 0 ∨ aw1 = 0x1FFFFF#32 then
    return (false, none)
  let aw2 ← dataword frame (i + 1)
  let (d_laddr, d_capcode) := parseCapcode aw1 aw2
  if d_capcode < 0 then
    return (d_laddr, none)
  let message ← parseVector frame d_laddr d_capcode j
  return (d_laddr, message)

/-- The loop over the addresses from `i` on. Every message comes with the index of its address
word. -/
def parsePages (frame : FlexFrame) (voffset aoffset i : ℕ) :
    Except CppException (List (ℕ × FlexMessage)) :=
  if i < voffset then
    match parsePage frame voffset aoffset i with
    | .error e => .error e
    | .ok (d_laddr, message) => do
        let rest ← parsePages frame voffset aoffset (if d_laddr then i + 2 else i + 1)
        return (message.toList.map fun m => (i, m)) ++ rest
  else
    .ok []
termination_by voffset - i
decreasing_by split <;> omega

/-- The fields of the block information word. -/
def voffset (frame : FlexFrame) : ℕ := field (frame 0) 10 0x3F

def aoffset (frame : FlexFrame) : ℕ := field (frame 0) 8 3 + 1

/-- `parse_data` (`pager_flex_parse.cc:85-154`). -/
def parseData (frame : FlexFrame) : Except CppException (List (ℕ × FlexMessage)) :=
  if frame 0 = 0 ∨ frame 0 = 0x1FFFFF#32 then .ok []
  else parsePages frame (voffset frame) (aoffset frame) (aoffset frame)

/-! ## What a page reads -/

/-- A word of the frame, where there is one. -/
def word (frame : FlexFrame) (i : ℕ) : BitVec 32 := if inside : i < 88 then frame ⟨i, inside⟩ else 0

/-- An idle word is no address. -/
def Idle (frame : FlexFrame) (i : ℕ) : Prop := word frame i = 0 ∨ word frame i = 0x1FFFFF#32

instance (frame : FlexFrame) (i : ℕ) : Decidable (Idle frame i) :=
  inferInstanceAs (Decidable (_ ∨ _))

/-- `parse_capcode` of the address at `i`. -/
def capcodeAt (frame : FlexFrame) (i : ℕ) : Bool × ℤ :=
  parseCapcode (word frame i) (word frame (i + 1))

/-- The indexes of the addresses from `i` on; a long address takes two words. -/
def addresses (frame : FlexFrame) (voffset i : ℕ) : List ℕ :=
  if i < voffset then
    i :: addresses frame voffset (if ¬ Idle frame i ∧ (capcodeAt frame i).1 then i + 2 else i + 1)
  else
    []
termination_by voffset - i
decreasing_by split <;> omega

/-- The vector word at `j` is in the frame, and so is what a page needs of it: a long address
has a second vector word, and a numeric page reads one word more than it has. -/
structure VectorInside (frame : FlexFrame) (d_laddr : Bool) (j : ℕ) : Prop where
  vector : j < 88
  second : vectorLast (word frame j) ≠ 0 → vectorLast (word frame j) ≤ 87 → d_laddr →
    (vectorType (word frame j)).isAlphanumericPage ∨ (vectorType (word frame j)).isNumericPage →
      j + 1 < 88
  numeric : vectorLast (word frame j) ≠ 0 → vectorLast (word frame j) ≤ 87 → ¬ d_laddr →
    (vectorType (word frame j)).isNumericPage → vectorLast (word frame j) + 1 < 88

/-- What the page of the address at `i` reads is in the frame. -/
def PageInside (frame : FlexFrame) (voffset aoffset i : ℕ) : Prop :=
  ¬ Idle frame i → 0 ≤ (capcodeAt frame i).2 →
    VectorInside frame (capcodeAt frame i).1 (voffset + i - aoffset)

/-- What the pages of a frame read is in the frame. -/
def FrameInside (frame : FlexFrame) : Prop :=
  ¬ Idle frame 0 → ∀ i ∈ addresses frame (voffset frame) (aoffset frame),
    PageInside frame (voffset frame) (aoffset frame) i

/-- No access leaves the frame, and each message comes from an address word of its own. -/
def StaysInside (frame : FlexFrame) : Prop :=
  ∃ messages, parseData frame = .ok messages ∧ (messages.map Prod.fst).Nodup ∧
    ∀ m ∈ messages, aoffset frame ≤ m.1 ∧ m.1 < voffset frame

theorem field_le (w : BitVec 32) (shift : ℕ) (mask : BitVec 32) :
    field w shift mask ≤ mask.toNat := by
  rw [field, BitVec.toNat_and]
  exact Nat.and_le_right

variable {frame : FlexFrame}

variable {i mw1 j : ℕ} {d_laddr : Bool} {d_type : PageType}

theorem dataword_inside (inside : i < 88) : dataword frame i = .ok (word frame i) := by
  rw [dataword, word, dif_pos inside, dif_pos inside]

theorem inside_of_dataword {w : BitVec 32} (read : dataword frame i = .ok w) : i < 88 := by
  rw [dataword] at read
  split at read
  · assumption
  · cases read

theorem parseAlphanumeric_iff {mw2 : ℤ} (last : mw2 < 88) :
    (∃ text, parseAlphanumeric frame d_laddr mw1 mw2 j = .ok text) ↔
      (if d_laddr then j + 1 else mw1) < 88 := by
  constructor
  · rintro ⟨text, parsed⟩
    obtain ⟨header, read, -⟩ := bind_ok.mp parsed
    exact inside_of_dataword read
  · intro inside
    rw [parseAlphanumeric, dataword_inside inside, ok_bind]
    refine foldlM_returns (fun payload i member => ?_) []
    have within : i < 88 := by
      rw [List.mem_range'_1] at member
      split at member <;> omega
    exact ⟨_, by rw [dataword_inside within]; rfl⟩

theorem parseNumeric_iff {mw2 : ℕ} (first : mw1 ≤ mw2)
    (last : mw2 < 88) : (∃ text, parseNumeric frame d_type d_laddr mw1 mw2 j = .ok text) ↔
      (d_laddr → j + 1 < 88) ∧ (¬ d_laddr → mw2 + 1 < 88) := by
  constructor
  · rintro ⟨text, parsed⟩
    obtain ⟨dw, read, rest⟩ := bind_ok.mp parsed
    obtain ⟨s, looped, -⟩ := bind_ok.mp rest
    have header := inside_of_dataword read
    cases d_laddr with
    | true => exact ⟨fun _ => header, fun short => absurd rfl short⟩
    | false =>
      refine ⟨fun long => Bool.noConfusion long, fun _ => ?_⟩
      have member : mw2 + 1 ∈ List.range' (mw1 + 1) (mw2 + 1 + 1 - (mw1 + 1)) := by
        rw [List.mem_range'_1]
        omega
      obtain ⟨u, v, round⟩ := foldlM_mem looped member
      obtain ⟨dw, read, -⟩ := bind_ok.mp round
      exact inside_of_dataword read
  · rintro ⟨long, short⟩
    have header : (if d_laddr then j + 1 else mw1) < 88 := by
      split
      · exact long ‹_›
      · omega
    rw [parseNumeric, dataword_inside header, ok_bind]
    obtain ⟨s, looped⟩ := foldlM_returns (f := fun (s : Digits) i => do
      let s := (List.range 21).foldl (fun s _ => shiftDigit s) s
      let dw ← dataword frame i
      return { s with dw := dw })
      (l := List.range' (if d_laddr then mw1 else mw1 + 1)
        ((if d_laddr then mw2 else mw2 + 1) + 1 - if d_laddr then mw1 else mw1 + 1))
      (fun s i member => by
        have within : i < 88 := by
          rw [List.mem_range'_1] at member
          cases d_laddr with
          | true => simp at member; omega
          | false =>
            have after := short Bool.false_ne_true
            simp at member
            omega
        exact ⟨_, by rw [dataword_inside within]; rfl⟩)
      { dw := word frame (if d_laddr then j + 1 else mw1)
        digit := 0
        count := if d_type = .numberedNumeric then 14 else 6
        payload := [] }
    exact ⟨s.payload, by dsimp only at looped ⊢; rw [looped]; rfl⟩

theorem parseText_iff {mw2 : ℕ} (first : mw1 ≤ mw2)
    (last : mw2 ≤ 87) : (∃ text, parseText frame d_type d_laddr mw1 mw2 j = .ok text) ↔
      (d_laddr → d_type.isAlphanumericPage ∨ d_type.isNumericPage → j + 1 < 88) ∧
        (¬ d_laddr → d_type.isNumericPage → mw2 + 1 < 88) := by
  have apart : d_type.isAlphanumericPage → ¬ d_type.isNumericPage := by
    cases d_type <;> decide
  rw [parseText]
  by_cases alphanumeric : d_type.isAlphanumericPage
  · rw [if_pos alphanumeric, parseAlphanumeric_iff (by omega)]
    have other := apart alphanumeric
    cases d_laddr with
    | true => simp [alphanumeric]
    | false => simp [other]; omega
  · rw [if_neg alphanumeric]
    by_cases numeric : d_type.isNumericPage
    · rw [if_pos numeric, parseNumeric_iff first (by omega)]
      simp [numeric]
    · simp [numeric, alphanumeric]

theorem parseVector_iff {d_capcode : ℤ} :
    (∃ message, parseVector frame d_laddr d_capcode j = .ok message) ↔
      VectorInside frame d_laddr j := by
  by_cases vector : j < 88
  · have first : vectorFirst (word frame j) ≤ vectorLast (word frame j) := Nat.le_add_right _ _
    have tone : (vectorType (word frame j)).isTonePage →
        ¬ (vectorType (word frame j)).isAlphanumericPage ∧
          ¬ (vectorType (word frame j)).isNumericPage := by
      cases vectorType (word frame j) <;> decide
    rw [parseVector, dataword_inside vector, ok_bind]
    dsimp only
    by_cases empty : vectorFirst (word frame j) = 0 ∧ vectorLast (word frame j) = 0
    · rw [if_pos empty]
      exact iff_of_true ⟨none, rfl⟩
        ⟨vector, fun some => absurd empty.2 some, fun some => absurd empty.2 some⟩
    · rw [if_neg empty]
      have text : ∀ {mw1 mw2}, (∃ message, (do
          let text ← parseText frame (vectorType (word frame j)) d_laddr mw1 mw2 j
          pure (some { capcode := d_capcode, desc := (vectorType (word frame j)).desc, text := text }) :
            Except CppException (Option FlexMessage)) = .ok message) ↔
          ∃ text, parseText frame (vectorType (word frame j)) d_laddr mw1 mw2 j = .ok text := by
        intro mw1 mw2
        constructor
        · rintro ⟨message, parsed⟩
          obtain ⟨text, read, -⟩ := bind_ok.mp parsed
          exact ⟨text, read⟩
        · rintro ⟨text, read⟩
          exact ⟨_, by rw [read]; rfl⟩
      by_cases single : (vectorType (word frame j)).isTonePage
      · rw [if_pos single, if_pos single, if_neg (by decide), text,
          parseText_iff (Nat.le_refl 0) (by decide)]
        have neither := tone single
        exact iff_of_true ⟨fun _ either => by simp [neither] at either, fun _ numeric =>
          absurd numeric neither.2⟩ ⟨vector, fun _ _ _ either => by simp [neither] at either,
            fun _ _ _ numeric => absurd numeric neither.2⟩
      · rw [if_neg single, if_neg single]
        by_cases far : 87 < vectorLast (word frame j)
        · rw [if_pos (Or.inr far)]
          exact iff_of_true ⟨none, rfl⟩ ⟨vector, fun _ near => absurd near (Nat.not_le.mpr far),
            fun _ near => absurd near (Nat.not_le.mpr far)⟩
        · rw [if_neg (by omega), text, parseText_iff first (Nat.not_lt.mp far)]
          have some : vectorLast (word frame j) ≠ 0 := by omega
          exact ⟨fun ⟨second, numeric⟩ => ⟨vector, fun _ _ => second, fun _ _ => numeric⟩,
            fun inside => ⟨inside.second some (Nat.not_lt.mp far),
              inside.numeric some (Nat.not_lt.mp far)⟩⟩
  · refine iff_of_false (fun ⟨message, parsed⟩ => ?_) fun inside => vector inside.vector
    obtain ⟨viw, read, -⟩ := bind_ok.mp parsed
    exact vector (inside_of_dataword read)

theorem parsePage_eq {voffset aoffset : ℕ} (inside : i + 1 < 88) :
    parsePage frame voffset aoffset i =
      if Idle frame i then .ok (false, none)
      else if (capcodeAt frame i).2 < 0 then .ok ((capcodeAt frame i).1, none)
      else do
        let message ← parseVector frame (capcodeAt frame i).1 (capcodeAt frame i).2
          (voffset + i - aoffset)
        return ((capcodeAt frame i).1, message) := by
  rw [parsePage, dataword_inside (by omega), ok_bind, dataword_inside inside]
  rfl

theorem parsePage_iff {voffset aoffset : ℕ} (inside : i + 1 < 88) :
    (∃ r, parsePage frame voffset aoffset i = .ok r) ↔ PageInside frame voffset aoffset i := by
  rw [parsePage_eq inside]
  by_cases idle : Idle frame i
  · rw [if_pos idle]
    exact iff_of_true ⟨_, rfl⟩ fun active => absurd idle active
  · rw [if_neg idle]
    by_cases invalid : (capcodeAt frame i).2 < 0
    · rw [if_pos invalid]
      exact iff_of_true ⟨_, rfl⟩ fun _ valid => absurd invalid (Int.not_lt.mpr valid)
    · rw [if_neg invalid]
      constructor
      · rintro ⟨r, parsed⟩ _ _
        obtain ⟨message, read, -⟩ := bind_ok.mp parsed
        exact parseVector_iff.mp ⟨message, read⟩
      · intro page
        obtain ⟨message, read⟩ := parseVector_iff.mpr (page idle (Int.not_lt.mp invalid))
        exact ⟨_, by rw [read]; rfl⟩

theorem parsePage_long {voffset aoffset : ℕ} (inside : i + 1 < 88) {r : Bool × Option FlexMessage}
    (parsed : parsePage frame voffset aoffset i = .ok r) :
    r.1 ↔ ¬ Idle frame i ∧ (capcodeAt frame i).1 := by
  rw [parsePage_eq inside] at parsed
  by_cases idle : Idle frame i
  · rw [if_pos idle] at parsed
    cases parsed
    simp [idle]
  · rw [if_neg idle] at parsed
    by_cases invalid : (capcodeAt frame i).2 < 0
    · rw [if_pos invalid] at parsed
      cases parsed
      simp [idle]
    · rw [if_neg invalid] at parsed
      obtain ⟨message, -, returned⟩ := bind_ok.mp parsed
      cases returned
      simp [idle]

theorem parsePages_iff {voffset aoffset : ℕ} (small : voffset ≤ 63) (i : ℕ) :
    (∃ r, parsePages frame voffset aoffset i = .ok r) ↔
      ∀ k ∈ addresses frame voffset i, PageInside frame voffset aoffset k := by
  fun_induction addresses frame voffset i with
  | case1 i less ih =>
    have inside : i + 1 < 88 := by omega
    simp only [dite_eq_ite] at ih
    rw [parsePages, if_pos less, List.forall_mem_cons, ← parsePage_iff inside, ← ih]
    cases page : parsePage frame voffset aoffset i with
    | error e => simp
    | ok r =>
      have next : (if r.1 then i + 2 else i + 1) =
          if ¬ Idle frame i ∧ (capcodeAt frame i).1 then i + 2 else i + 1 :=
        if_congr (parsePage_long inside page) rfl rfl
      dsimp only
      rw [next]
      constructor
      · rintro ⟨all, parsed⟩
        obtain ⟨rest, read, -⟩ := bind_ok.mp parsed
        exact ⟨⟨r, rfl⟩, rest, read⟩
      · rintro ⟨-, rest, read⟩
        exact ⟨_, by rw [read]; rfl⟩
  | case2 i past =>
    rw [parsePages, if_neg past]
    simp

theorem parsePages_messages {voffset aoffset : ℕ} {messages : List (ℕ × FlexMessage)}
    (parsed : parsePages frame voffset aoffset i = .ok messages) :
    (messages.map Prod.fst).Nodup ∧ ∀ m ∈ messages, i ≤ m.1 ∧ m.1 < voffset := by
  fun_induction parsePages frame voffset aoffset i generalizing messages with
  | case1 i less e page => cases parsed
  | case2 i less d_laddr message page ih =>
    obtain ⟨rest, read, returned⟩ := bind_ok.mp parsed
    cases returned
    obtain ⟨apart, inside⟩ := ih read
    have later : ∀ m ∈ rest, i < m.1 ∧ m.1 < voffset := by
      intro m member
      have place := inside m member
      split at place <;> omega
    cases message with
    | none => exact ⟨by simpa using apart, fun m member => by
        have place := later m (by simpa using member)
        omega⟩
    | some message =>
      constructor
      · have fresh : i ∉ rest.map Prod.fst := by
          intro member
          obtain ⟨m, there, same⟩ := List.mem_map.mp member
          have place := later m there
          omega
        simpa using ⟨fun message' member => fresh (List.mem_map.mpr ⟨_, member, rfl⟩), apart⟩
      · intro m member
        rcases List.mem_append.mp member with first | other
        · obtain rfl : m = (i, message) := by simpa using first
          exact ⟨Nat.le_refl i, less⟩
        · have place := later m other
          omega
  | case3 i past =>
    cases parsed
    simp

/-- Parsing stays inside the frame just when its vector words do, and the words that the pages
of these read; then each message has an address word of its own. -/
theorem stays_inside_iff (frame : FlexFrame) : StaysInside frame ↔ FrameInside frame := by
  have first : word frame 0 = frame 0 := rfl
  have small : voffset frame ≤ 63 := field_le _ _ _
  rw [StaysInside, FrameInside, parseData]
  by_cases idle : Idle frame 0
  · have empty : frame 0 = 0 ∨ frame 0 = 0x1FFFFF#32 := idle
    rw [if_pos empty]
    exact iff_of_true ⟨[], rfl, by simp, by simp⟩ fun active => absurd idle active
  · have some : ¬ (frame 0 = 0 ∨ frame 0 = 0x1FFFFF#32) := idle
    rw [if_neg some]
    constructor
    · rintro ⟨messages, parsed, -⟩ _
      exact (parsePages_iff small _).mp ⟨messages, parsed⟩
    · intro inside
      obtain ⟨messages, parsed⟩ := (parsePages_iff small _).mpr (inside idle)
      exact ⟨messages, parsed, parsePages_messages parsed⟩

/-- A frame with 62 address words, of which the one at 26 is the first that is not idle. -/
def fullFrame : FlexFrame := fun i =>
  if i = 0 then 0xFC00#32 else if i = 26 then 0x10000#32 else 0

/-- Its vector word would be the one at 88. -/
theorem full_frame_leaves : parseData fullFrame = .error .undefinedBehaviour ∧
    ¬ StaysInside fullFrame := by
  have parsed : parseData fullFrame = .error .undefinedBehaviour := by decide +kernel
  refine ⟨parsed, fun ⟨messages, returned, _⟩ => ?_⟩
  rw [parsed] at returned
  cases returned

end FlexParse

end GnuRadio
