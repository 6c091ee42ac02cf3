import GnuRadio.Runtime.BufferFifo
import Mathlib.Data.List.Basic
import Mathlib.Data.List.GetD
import Mathlib.Tactic.IntervalCases

/-!
# The carrier maps of the OFDM transmitter and receiver

The constructors of `gr_ofdm_mapper_bcv` and `gr_ofdm_frame_sink` write the carriers down as
a string of hex digits, one bit a carrier, and number the bits that are set: the mapper in the
whole FFT, the sink in the band that `gr_ofdm_frame_acquisition` cuts out of it.
-/

namespace GnuRadio

namespace OfdmCarriers

/-- `abc[n]`. -/
def abc (n : ℕ) : Char :=
  ['0', '1', '2', '3', '4', '5', '6', '7', '8', '9', 'a', 'b', 'c', 'd', 'e', 'f'].getD n '0'

/-- The value of a hex digit. -/
def hexDigit (c : Char) : Option ℕ :=
  if '0' ≤ c ∧ c ≤ '9' then some (c.toNat - 48)
  else if 'a' ≤ c ∧ c ≤ 'f' then some (c.toNat - 87)
  else if 'A' ≤ c ∧ c ≤ 'F' then some (c.toNat - 55)
  else none

def isSpace (c : Char) : Bool := c = ' ' ∨ '\t' ≤ c ∧ c ≤ '\r'

/-- The digits up to the first character that is none. -/
def hexNumber (n : ℕ) : List Char → ℕ
  | c :: s => match hexDigit c with
    | some d => hexNumber (16 * n + d) s
    | none => n
  | [] => n

/-- Without the `0x` before a digit. -/
def afterPrefix : List Char → List Char
  | '0' :: x :: d :: s =>
      if (x = 'x' ∨ x = 'X') ∧ (hexDigit d).isSome then d :: s else '0' :: x :: d :: s
  | s => s

/-- `strtol` of the characters from its first argument on, in base 16. -/
def strtol (s : List Char) : ℤ :=
  match s.dropWhile isSpace with
  | '-' :: s => max (-(hexNumber 0 (afterPrefix s))) (-9223372036854775808)
  | '+' :: s => min (hexNumber 0 (afterPrefix s)) 9223372036854775807
  | s => min (hexNumber 0 (afterPrefix s)) 9223372036854775807

/-- The loop that puts an `f` on both sides. -/
def widen (carriers : List Char) (diff : ℤ) : List Char × ℤ :=
  if 7 < diff then widen ('f' :: carriers ++ ['f']) (diff - 8) else (carriers, diff)
termination_by diff.toNat

/-- The string of the carriers and `diff_left` (`gr_ofdm_mapper_bcv.cc:65-94`,
`gr_ofdm_frame_sink.cc:206-237`): `diff` is an `int`, and its half is rounded up exactly. -/
def carrierString (occupied_carriers : ℕ) : List Char × ℤ :=
  let carriers := ['F', 'E', '7', 'F']
  let diff := ((occupied_carriers : ℤ) - 4 * carriers.length).bmod (2 ^ 32)
  let (carriers, diff) := widen carriers diff
  if 0 < diff then
    let diff_left := (diff + 1) / 2
    let diff_right := diff - diff_left
    (abc ((1 <<< diff_left.toNat) - 1) :: carriers ++
      [abc (0xF ^^^ ((1 <<< diff_right.toNat) - 1))], diff_left)
  else
    (carriers, 0)

/-- The `j` for which `(strtol(&c, NULL, 16) >> (3-j)) & 0x1` is set. `c` is one character on the
stack, and `strtol` reads on into what is behind it then. -/
def bits (c : Char) (behind : ℕ → List Char) : List ℕ :=
  (List.range 4).filter fun j => strtol (c :: behind j) >>> (3 - j) % 2 ≠ 0

/-- `carriers[i]`: behind the string are its terminator and then whatever the memory holds. -/
def carrierAt (carriers : List Char) (beyond : ℕ → Char) (i : ℕ) : Char :=
  if i < carriers.length then carriers.getD i '\x00'
  else if i = carriers.length then '\x00'
  else beyond i

/-- The check of a stream's item size, which is an `int` (`gr_io_signature.cc:83-86`). -/
def itemSizeFits (items : ℕ) : Bool := 1 ≤ (8 * (items : ℤ)).bmod (2 ^ 32)

/-- The map that the constructor of the mapper builds (`gr_ofdm_mapper_bcv.cc:59-114`), with the
memory behind `c` in each turn of its loops. -/
def mapperMap (behind : ℕ → ℕ → List Char) (occupied_carriers fft_length : UInt32) :
    Except CppException (List ℤ) :=
  if ¬ itemSizeFits fft_length.toNat then
    .error (.invalidArgument "gr_io_signature(3)")
  else if ¬ occupied_carriers ≤ fft_length then
    .error (.invalidArgument "gr_ofdm_mapper_bcv: occupied carriers must be <= fft_length")
  else
    let (carriers, _) := carrierString occupied_carriers.toNat
    -- a `size_t` that becomes an `int`
    let diff := ((((fft_length.toNat / 4 : ℕ) : ℤ) - carriers.length) % 2 ^ 64 / 2).bmod (2 ^ 32)
    let d_subcarrier_map := (List.range carriers.length).flatMap fun (i : ℕ) =>
      (bits (carriers.getD i '\x00') (behind i)).map fun (j : ℕ) =>
        (4 * ((i : ℤ) + diff) + j).bmod (2 ^ 32)
    if occupied_carriers.toNat < d_subcarrier_map.length then
      .error (.invalidArgument
        "gr_ofdm_mapper_bcv: subcarriers allocated exceeds size of occupied carriers")
    else
      .ok d_subcarrier_map

/-- The map that the constructor of the sink builds (`gr_ofdm_frame_sink.cc:198-256`). -/
def sinkMap (behind : ℕ → ℕ → List Char) (beyond : ℕ → Char) (occupied_carriers : UInt32) :
    Except CppException (List ℤ) :=
  if ¬ itemSizeFits occupied_carriers.toNat then
    .error (.invalidArgument "gr_io_signature(3)")
  else
    let (carriers, diff_left) := carrierString occupied_carriers.toNat
    let d_subcarrier_map :=
      (List.range (occupied_carriers.toNat / 4 + diff_left.toNat)).flatMap fun (i : ℕ) =>
        (bits (carrierAt carriers beyond i) (behind i)).map fun (j : ℕ) =>
          (4 * (i : ℤ) + j - diff_left).bmod (2 ^ 32)
    if occupied_carriers.toNat < d_subcarrier_map.length then
      .error (.invalidArgument
        "gr_ofdm_mapper_bcv: subcarriers allocated exceeds size of occupied carriers")
    else
      .ok d_subcarrier_map

/-- `zeros_on_left` (`gr_ofdm_frame_acquisition.cc:183-184`): `unoccupied_carriers` is an
`int`. -/
def zerosOnLeft (occupied_carriers fft_length : UInt32) : ℤ :=
  let unoccupied_carriers := ((fft_length.toNat : ℤ) - occupied_carriers.toNat).bmod (2 ^ 32)
  (unoccupied_carriers + 1) / 2

/-- Transmitter and receiver use the same carriers, and all of them are in the FFT and in the
band. -/
structure Agree (occupied_carriers fft_length : UInt32) (mapper sink : List ℤ) : Prop where
  size : mapper.length = sink.length
  same : ∀ k (inside : k < mapper.length) (within : k < sink.length),
    mapper[k] - zerosOnLeft occupied_carriers fft_length = sink[k]
  mapper_inside : ∀ m ∈ mapper, 0 ≤ m ∧ m < fft_length.toNat
  sink_inside : ∀ s ∈ sink, 0 ≤ s ∧ s < occupied_carriers.toNat

/-! ## The string -/

/-- The digits without those for what is left. -/
def middle (q : ℕ) : List Char := List.replicate q 'f' ++ ['F', 'E', '7', 'F'] ++ List.replicate q 'f'

@[simp] theorem length_middle (q : ℕ) : (middle q).length = 2 * q + 4 := by
  simp [middle]
  omega

theorem middle_succ (q : ℕ) : 'f' :: middle q ++ ['f'] = middle (q + 1) := by
  have left : 'f' :: List.replicate q 'f' = List.replicate (q + 1) 'f' := List.replicate_succ.symm
  have right : List.replicate q 'f' ++ ['f'] = List.replicate (q + 1) 'f' :=
    List.replicate_succ'.symm
  rw [middle, middle, ← left, List.cons_append, List.cons_append, List.append_assoc, right, left]
  rfl

theorem widen_middle (q rounds : ℕ) {rest : ℤ} (low : rest ≤ 7) (high : 0 ≤ rest) :
    widen (middle q) (8 * rounds + rest) = (middle (q + rounds), rest) := by
  induction rounds generalizing q with
  | zero => rw [widen, if_neg (by simp; omega)]; simp
  | succ rounds ih =>
    have less : 8 * ((rounds + 1 : ℕ) : ℤ) + rest - 8 = 8 * (rounds : ℤ) + rest := by omega
    rw [widen, if_pos (by omega), middle_succ, less, ih]
    congr 2
    omega

/-- The string and `diff_left`, with `8 * q + r` carriers more than the first sixteen. -/
def stringFor (q r : ℕ) : List Char × ℤ :=
  if 0 < r then
    (abc ((1 <<< ((r + 1) / 2)) - 1) :: middle q ++ [abc (0xF ^^^ ((1 <<< (r - (r + 1) / 2)) - 1))],
      ((r + 1) / 2 : ℕ))
  else (middle q, 0)

theorem carrierString_eq {q r : ℕ} (rest : r < 8) (fits : 8 * q + r < 2 ^ 31) :
    carrierString (16 + 8 * q + r) = stringFor q r := by
  have diff : (((16 + 8 * q + r : ℕ) : ℤ) - 4 * (['F', 'E', '7', 'F'].length : ℕ)).bmod (2 ^ 32) =
      8 * (q : ℤ) + r := by
    simp only [List.length_cons, List.length_nil]
    rw [bmod_int (by omega) (by omega)]
    omega
  have start : (['F', 'E', '7', 'F'] : List Char) = middle 0 := rfl
  have left : (((r : ℤ) + 1) / 2) = ((r + 1) / 2 : ℕ) := by omega
  have right : ((r : ℤ) - ((r + 1) / 2 : ℕ)).toNat = r - (r + 1) / 2 := by omega
  rw [carrierString, diff, start, widen_middle 0 q (by omega) (by omega), Nat.zero_add, stringFor]
  dsimp only
  by_cases some : 0 < r
  · rw [if_pos some, if_pos (by omega), left, right, Int.toNat_natCast]
  · rw [if_neg some, if_neg (by omega)]

/-! ## The bits set -/

/-- No hex digit stands behind `c` in any turn. -/
def Quiet (behind : ℕ → ℕ → List Char) : Prop := ∀ i j, ∀ c ∈ (behind i j).head?, hexDigit c = none

/-- The digits of the strings. -/
def plainDigits : List Char := ['1', '3', '7', '8', 'c', 'e', 'f', 'E', 'F']

/-- The bits of a digit by itself. -/
def digitBits (c : Char) : List ℕ :=
  (List.range 4).filter fun j => (((hexDigit c).getD 0 : ℕ) : ℤ) >>> (3 - j) % 2 ≠ 0

/-- `strtol` stops behind a digit that no other follows. -/
theorem strtol_digit {c : Char} {behind : List Char} (plain : c ∈ plainDigits)
    (quiet : ∀ d ∈ behind.head?, hexDigit d = none) : strtol (c :: behind) = (hexDigit c).getD 0 := by
  have digit : plainDigits.all fun c => isSpace c = false ∧ c ≠ '-' ∧ c ≠ '+' ∧ c ≠ '0' ∧
      hexDigit c = some ((hexDigit c).getD 0) ∧ (hexDigit c).getD 0 < 16 := by decide
  obtain ⟨visible, minus, plus, zero, value, small⟩ :=
    of_decide_eq_true (List.all_eq_true.mp digit c plain)
  have stops : hexNumber 0 (c :: behind) = (hexDigit c).getD 0 := by
    rw [hexNumber, value]
    cases behind with
    | nil => simp [hexNumber]
    | cons next behind => simp [hexNumber, quiet next rfl]
  have whole : afterPrefix (c :: behind) = c :: behind := by
    unfold afterPrefix
    split
    · rename_i same
      exact absurd (List.cons.inj same).1 zero
    · rfl
  unfold strtol
  rw [List.dropWhile_cons_of_neg (by simp [visible])]
  split
  · rename_i same
    exact absurd (List.cons.inj same).1 minus
  · rename_i same
    exact absurd (List.cons.inj same).1 plus
  · rw [whole, stops]
    omega

theorem bits_digit {c : Char} {behind : ℕ → List Char} (plain : c ∈ plainDigits)
    (quiet : ∀ j, ∀ d ∈ (behind j).head?, hexDigit d = none) : bits c behind = digitBits c := by
  refine List.filter_congr fun j _ => ?_
  rw [strtol_digit plain (quiet j)]

/-- The terminator of the string has no bits. -/
theorem bits_nul (behind : ℕ → List Char) : bits '\x00' behind = [] := by
  refine List.filter_eq_nil_iff.mpr fun j _ => ?_
  have none : strtol ('\x00' :: behind j) = 0 := rfl
  simp [none]

theorem plain_string (q : ℕ) {r : ℕ} (rest : r < 8) : ∀ c ∈ (stringFor q r).1, c ∈ plainDigits := by
  have inner : ∀ c ∈ middle q, c ∈ plainDigits := by
    intro c member
    simp only [middle, List.mem_append, List.mem_replicate, List.mem_cons, List.not_mem_nil,
      or_false] at member
    rcases member with (⟨-, rfl⟩ | rfl | rfl | rfl | rfl) | ⟨-, rfl⟩ <;> decide
  have ends : ∀ r < 8, 0 < r → abc ((1 <<< ((r + 1) / 2)) - 1) ∈ plainDigits ∧
      abc (0xF ^^^ ((1 <<< (r - (r + 1) / 2)) - 1)) ∈ plainDigits := by decide
  unfold stringFor
  split
  · rename_i some
    intro c member
    rcases List.mem_append.mp member with front | back
    · rcases List.mem_cons.mp front with rfl | within
      · exact (ends r rest some).1
      · exact inner c within
    · rw [List.mem_singleton.mp back]
      exact (ends r rest some).2
  · exact inner

/-- The bits set in the first `n` places, numbered through. -/
def spotsOf (set : ℕ → List ℕ) (n : ℕ) : List ℕ :=
  (List.range n).flatMap fun i => (set i).map fun j => 4 * i + j

/-- The bits set in the first `n` digits, numbered through. -/
def spots (digit : ℕ → Char) (n : ℕ) : List ℕ := spotsOf (fun i => digitBits (digit i)) n

variable {set : ℕ → List ℕ} {digit : ℕ → Char} {n p : ℕ}

theorem spots_map {f : ℕ → ℕ → ℤ} {g : ℕ → ℤ} (same : ∀ i j, f i j = g (4 * i + j)) :
    ((List.range n).flatMap fun i => (set i).map (f i)) = (spotsOf set n).map g := by
  simp only [spotsOf, List.map_flatMap, List.map_map]
  refine List.flatMap_congr fun i _ => List.map_congr_left fun j _ => same i j

theorem mem_bits {c : Char} {j : ℕ} (set : j ∈ digitBits c) : j < 4 :=
  List.mem_range.mp (List.mem_filter.mp set).1

theorem mem_spots : p ∈ spots digit n ↔ p / 4 < n ∧ p % 4 ∈ digitBits (digit (p / 4)) := by
  simp only [spots, spotsOf, List.mem_flatMap, List.mem_range, List.mem_map]
  constructor
  · rintro ⟨i, inside, j, set, rfl⟩
    have small := mem_bits set
    have digit_eq : (4 * i + j) / 4 = i := by omega
    have bit_eq : (4 * i + j) % 4 = j := by omega
    rw [digit_eq, bit_eq]
    exact ⟨inside, set⟩
  · rintro ⟨inside, set⟩
    exact ⟨p / 4, inside, p % 4, set, Nat.div_add_mod p 4⟩

theorem spots_head {rest : List ℕ} (some : 0 < n) (first : set 0 = p :: rest) :
    ∃ more, spotsOf set n = p :: more := by
  obtain ⟨m, rfl⟩ : ∃ m, n = m + 1 := ⟨n - 1, by omega⟩
  rw [spotsOf, List.range_succ_eq_map, List.flatMap_cons, first, List.map_cons, Nat.mul_zero,
    Nat.zero_add]
  exact ⟨_, rfl⟩

theorem spots_congr {other : ℕ → List ℕ} (same : ∀ i < n, set i = other i) :
    spotsOf set n = spotsOf other n := by
  refine List.flatMap_congr fun i member => ?_
  rw [same i (List.mem_range.mp member)]

theorem spots_succ (blank : set n = []) : spotsOf set (n + 1) = spotsOf set n := by
  rw [spotsOf, List.range_succ, List.flatMap_append, List.flatMap_singleton, blank, List.map_nil,
    List.append_nil]
  rfl

/-- In the string every character is read as the digit it is. -/
theorem string_bits {behind : ℕ → ℕ → List Char} (quiet : Quiet behind) {q r i : ℕ} (rest : r < 8)
    (inside : i < (stringFor q r).1.length) : bits ((stringFor q r).1.getD i '\x00') (behind i) =
      digitBits ((stringFor q r).1.getD i '\x00') := by
  refine bits_digit ?_ (quiet i)
  rw [List.getD_eq_getElem _ _ inside]
  exact plain_string q rest _ (List.getElem_mem inside)

theorem bits_middle (q : ℕ) : digitBits ((middle q).getD 0 '\x00') = [0, 1, 2, 3] ∧
    digitBits ((middle q).getD (2 * q + 3) '\x00') = [0, 1, 2, 3] := by
  cases q with
  | zero => decide
  | succ q =>
    rw [← middle_succ]
    refine ⟨by show digitBits 'f' = _; decide, ?_⟩
    have last : 2 * (q + 1) + 3 = ('f' :: middle q).length := by
      rw [List.length_cons, length_middle]
      omega
    rw [List.getD_append_right _ _ _ _ last.ge, last, Nat.sub_self]
    decide

theorem length_stringFor (q r : ℕ) :
    (stringFor q r).1.length = 2 * q + 4 + if 0 < r then 2 else 0 := by
  unfold stringFor
  split <;> simp

theorem bits_first (q : ℕ) {r : ℕ} (rest : r < 8) : ∃ more,
    digitBits ((stringFor q r).1.getD 0 '\x00') = (4 - (r + 1) / 2) % 4 :: more := by
  by_cases some : 0 < r
  · have first : (stringFor q r).1.getD 0 '\x00' = abc ((1 <<< ((r + 1) / 2)) - 1) := by
      rw [stringFor, if_pos some]
      rfl
    have digits : ∀ r < 8, 0 < r → (digitBits (abc ((1 <<< ((r + 1) / 2)) - 1))).head? =
        Option.some ((4 - (r + 1) / 2) % 4) := by decide
    rw [first]
    exact List.head?_eq_some_iff.mp (digits r rest some)
  · rw [stringFor, if_neg some, Nat.eq_zero_of_not_pos some]
    exact ⟨_, (bits_middle q).1⟩

theorem last_spot (q : ℕ) {r : ℕ} (even : r = 0 ∨ r = 4) :
    8 * q + 15 + r / 4 * 6 ∈ spots ((stringFor q r).1.getD · '\x00') (stringFor q r).1.length := by
  rw [mem_spots, length_stringFor]
  rcases even with rfl | rfl
  · have digit : (8 * q + 15 + 0 / 4 * 6) / 4 = 2 * q + 3 := by omega
    have bit : (8 * q + 15 + 0 / 4 * 6) % 4 = 3 := by omega
    rw [digit, bit]
    refine ⟨by simp, ?_⟩
    show 3 ∈ digitBits ((middle q).getD (2 * q + 3) '\x00')
    rw [(bits_middle q).2]
    decide
  · have digit : (8 * q + 15 + 4 / 4 * 6) / 4 = ('3' :: middle q).length := by
      rw [List.length_cons, length_middle]
      omega
    have bit : (8 * q + 15 + 4 / 4 * 6) % 4 = 1 := by omega
    rw [digit, bit]
    refine ⟨by simp, ?_⟩
    show 1 ∈ digitBits (('3' :: middle q ++ ['c']).getD ('3' :: middle q).length '\x00')
    rw [List.getD_append_right _ _ _ _ le_rfl, Nat.sub_self]
    decide

theorem spot_inside (q : ℕ) {r : ℕ} (even : r = 0 ∨ r = 4)
    (set : p ∈ spots ((stringFor q r).1.getD · '\x00') (stringFor q r).1.length) :
    r / 2 ≤ p ∧ p < r / 2 + (16 + 8 * q + r) := by
  rw [mem_spots, length_stringFor] at set
  obtain ⟨within, bit⟩ := set
  rcases even with rfl | rfl
  · exact ⟨Nat.zero_le p, by simp at within; omega⟩
  · rw [if_pos (by decide)] at within
    constructor
    · -- the first digit is a 3
      by_contra early
      have digit : p / 4 = 0 := by omega
      have small : p % 4 < 2 := by omega
      rw [digit] at bit
      have three : p % 4 ∈ digitBits '3' := bit
      have only : ∀ j < 2, j ∉ digitBits '3' := by decide
      exact only _ small three
    · -- the last digit is a c
      by_contra late
      have digit : p / 4 = ('3' :: middle q).length := by
        rw [List.length_cons, length_middle]
        omega
      have large : 2 ≤ p % 4 ∧ p % 4 < 4 := by omega
      rw [digit] at bit
      have twelve : p % 4 ∈
          digitBits (('3' :: middle q ++ ['c']).getD ('3' :: middle q).length '\x00') :=
        bit
      rw [List.getD_append_right _ _ _ _ le_rfl, Nat.sub_self] at twelve
      have only : ∀ j < 4, 2 ≤ j → j ∉ digitBits 'c' := by decide
      exact only _ large.2 large.1 twelve

/-! ## The maps -/

theorem bmod_cases (x : ℤ) : ∃ turns : ℤ, x.bmod (2 ^ 32) = x - 4294967296 * turns ∧
    -2147483648 ≤ x.bmod (2 ^ 32) ∧ x.bmod (2 ^ 32) < 2147483648 := by
  rw [Int.bmod_def]
  split
  · exact ⟨x / 4294967296, by omega, by omega, by omega⟩
  · exact ⟨x / 4294967296 + 1, by omega, by omega, by omega⟩

theorem mapperMap_le {behind : ℕ → ℕ → List Char} {occupied fft : UInt32} {mapper : List ℤ}
    (made : mapperMap behind occupied fft = .ok mapper) : occupied.toNat ≤ fft.toNat := by
  rw [mapperMap] at made
  split at made
  · cases made
  · split at made
    · cases made
    · exact UInt32.le_iff_toNat_le.mp (not_not.mp ‹¬ ¬ occupied ≤ fft›)

theorem mapperMap_ok {behind : ℕ → ℕ → List Char} (quiet : Quiet behind) {occupied fft : UInt32}
    {mapper : List ℤ} {q r : ℕ}
    (string : carrierString occupied.toNat = stringFor q r) (rest : r < 8)
    (short : 2 * q + 6 ≤ 2 ^ 30) (made : mapperMap behind occupied fft = .ok mapper) :
      mapper = (spots ((stringFor q r).1.getD · '\x00') (stringFor q r).1.length).map fun p : ℕ =>
        (4 * ((fft.toNat / 8 : ℕ) - ((q + 2 + (r + 7) / 8 : ℕ) : ℤ)) + p).bmod (2 ^ 32) := by
  have below := fft.toNat_lt
  have diff : ((((fft.toNat / 4 : ℕ) : ℤ) - (stringFor q r).1.length) % 2 ^ 64 / 2).bmod (2 ^ 32) =
      (fft.toNat / 8 : ℕ) - ((q + 2 + (r + 7) / 8 : ℕ) : ℤ) := by
    obtain ⟨turns, wrapped, low, high⟩ := bmod_cases
      ((((fft.toNat / 4 : ℕ) : ℤ) - (stringFor q r).1.length) % 2 ^ 64 / 2)
    rw [length_stringFor] at wrapped low high ⊢
    by_cases some : 0 < r
    · rw [if_pos some] at wrapped low high ⊢
      omega
    · rw [if_neg some] at wrapped low high ⊢
      omega
  rw [mapperMap, string] at made
  dsimp only at made
  split at made
  · cases made
  · split at made
    · cases made
    · split at made
      · cases made
      · rw [← Except.ok.inj made, diff, spots, ← spots_congr fun i within =>
          string_bits quiet rest within]
        exact spots_map fun i j => by congr 1; push_cast; ring

theorem sinkMap_ok {behind : ℕ → ℕ → List Char} {occupied : UInt32} {beyond : ℕ → Char}
    {sink : List ℤ} {q r : ℕ}
    (string : carrierString occupied.toNat = stringFor q r)
    (made : sinkMap behind beyond occupied = .ok sink) :
    sink = (spotsOf (fun i => bits (carrierAt (stringFor q r).1 beyond i) (behind i))
      (occupied.toNat / 4 + (r + 1) / 2)).map fun p : ℕ =>
        ((p : ℤ) - ((r + 1) / 2 : ℕ)).bmod (2 ^ 32) := by
  have diff_left : (stringFor q r).2 = ((r + 1) / 2 : ℕ) := by
    unfold stringFor
    split
    · rfl
    · show (0 : ℤ) = ((r + 1) / 2 : ℕ)
      omega
  rw [sinkMap, string] at made
  dsimp only at made
  rw [diff_left, Int.toNat_natCast] at made
  split at made
  · cases made
  · split at made
    · cases made
    · rw [← Except.ok.inj made]
      exact spots_map fun i j => by congr 1

theorem Agree.head {occupied fft : UInt32} {mapper sink more rest : List ℤ} {m s : ℤ}
    (agree : Agree occupied fft mapper sink) (first : mapper = m :: more) (other : sink = s :: rest) :
    m - zerosOnLeft occupied fft = s ∧ 0 ≤ s := by
  subst first other
  exact ⟨agree.same 0 (by simp) (by simp), (agree.sink_inside s (by simp)).1⟩

variable {behind behind' : ℕ → ℕ → List Char} {occupied fft : UInt32} {beyond : ℕ → Char}
  {mapper sink : List ℤ} {q r : ℕ}

theorem heads (quiet : Quiet behind) (quiet' : Quiet behind')
    (string : carrierString occupied.toNat = stringFor q r) (rest : r < 8)
    (short : 2 * q + 6 ≤ 2 ^ 30) (some : 16 ≤ occupied.toNat)
    (mapperOk : mapperMap behind occupied fft = .ok mapper)
    (sinkOk : sinkMap behind' beyond occupied = .ok sink)
    (agree : Agree occupied fft mapper sink) :
    (4 * ((fft.toNat / 8 : ℕ) - ((q + 2 + (r + 7) / 8 : ℕ) : ℤ)) +
      ((4 - (r + 1) / 2) % 4 : ℕ)).bmod (2 ^ 32) - zerosOnLeft occupied fft =
        (((4 - (r + 1) / 2) % 4 : ℕ) : ℤ) - ((r + 1) / 2 : ℕ) ∧
      (r + 1) / 2 ≤ (4 - (r + 1) / 2) % 4 := by
  have mapper_eq := mapperMap_ok quiet string rest short mapperOk
  have sink_eq := sinkMap_ok string sinkOk
  obtain ⟨others, first⟩ := bits_first q rest
  have length : 0 < (stringFor q r).1.length := by
    rw [length_stringFor]
    omega
  obtain ⟨more, mapper_spots⟩ : ∃ more, spots ((stringFor q r).1.getD · '\x00')
      (stringFor q r).1.length = (4 - (r + 1) / 2) % 4 :: more := spots_head length first
  have first' : bits (carrierAt (stringFor q r).1 beyond 0) (behind' 0) =
      (4 - (r + 1) / 2) % 4 :: others := by
    rw [carrierAt, if_pos length, string_bits quiet' rest length, first]
  have digits : 0 < occupied.toNat / 4 + (r + 1) / 2 :=
    Nat.add_pos_left (Nat.div_pos (by omega) (by decide)) _
  obtain ⟨more', sink_spots⟩ : ∃ more, spotsOf
      (fun i => bits (carrierAt (stringFor q r).1 beyond i) (behind' i))
      (occupied.toNat / 4 + (r + 1) / 2) = (4 - (r + 1) / 2) % 4 :: more :=
    spots_head digits first'
  rw [mapper_spots, List.map_cons] at mapper_eq
  rw [sink_spots, List.map_cons] at sink_eq
  obtain ⟨same, inside⟩ := agree.head mapper_eq sink_eq
  have small : ((((4 - (r + 1) / 2) % 4 : ℕ) : ℤ) - ((r + 1) / 2 : ℕ)).bmod (2 ^ 32) =
      (((4 - (r + 1) / 2) % 4 : ℕ) : ℤ) - ((r + 1) / 2 : ℕ) := bmod_int (by omega) (by omega)
  rw [small] at same inside
  exact ⟨same, by omega⟩

theorem not_agree_of_huge (quiet : Quiet behind) (quiet' : Quiet behind')
    (huge : 2 ^ 31 + 16 ≤ occupied.toNat)
    (mapperOk : mapperMap behind occupied fft = .ok mapper)
    (sinkOk : sinkMap behind' beyond occupied = .ok sink) :
    ¬ Agree occupied fft mapper sink := by
  intro agree
  have below := occupied.toNat_lt
  have fft_below := fft.toNat_lt
  have string : carrierString occupied.toNat = stringFor 0 0 := by
    have diff : ((occupied.toNat : ℤ) - 4 * (['F', 'E', '7', 'F'].length : ℕ)).bmod (2 ^ 32) ≤ 0 := by
      obtain ⟨turns, wrapped, low, high⟩ := bmod_cases ((occupied.toNat : ℤ) - 4 * ((4 : ℕ) : ℤ))
      show ((occupied.toNat : ℤ) - 4 * ((4 : ℕ) : ℤ)).bmod (2 ^ 32) ≤ 0
      omega
    rw [carrierString, widen, if_neg (by omega)]
    dsimp only
    rw [if_neg (by omega)]
    rfl
  have le := mapperMap_le mapperOk
  obtain ⟨same, -⟩ := heads quiet quiet' string (by decide) (by decide) (by omega) mapperOk sinkOk agree
  rw [zerosOnLeft] at same
  obtain ⟨turns, wrapped, low, high⟩ := bmod_cases ((fft.toNat : ℤ) - occupied.toNat)
  obtain ⟨turns', wrapped', low', high'⟩ := bmod_cases (4 * ((fft.toNat / 8 : ℕ) -
    ((0 + 2 + (0 + 7) / 8 : ℕ) : ℤ)) + ((4 - (0 + 1) / 2) % 4 : ℕ))
  omega

/-- The sizes for which the maps agree: the FFT a multiple of eight and the carriers one of four,
and no index or padding larger than an `int`. -/
def Regular (occupied fft : UInt32) : Prop :=
  fft.toNat % 8 = 0 ∧ occupied.toNat % 4 = 0 ∧ fft.toNat + occupied.toNat ≤ 2 ^ 32 ∧
    fft.toNat < occupied.toNat + 2 ^ 31

theorem regular_of_agree (quiet : Quiet behind) (quiet' : Quiet behind')
    (some : 16 ≤ occupied.toNat)
    (mapperOk : mapperMap behind occupied fft = .ok mapper)
    (sinkOk : sinkMap behind' beyond occupied = .ok sink)
    (agree : Agree occupied fft mapper sink) : Regular occupied fft := by
  have fft_below := fft.toNat_lt
  by_cases huge : 2 ^ 31 + 16 ≤ occupied.toNat
  · exact absurd agree (not_agree_of_huge quiet quiet' huge mapperOk sinkOk)
  obtain ⟨q, r, rest, occupied_eq⟩ : ∃ q r, r < 8 ∧ occupied.toNat = 16 + 8 * q + r :=
    ⟨(occupied.toNat - 16) / 8, (occupied.toNat - 16) % 8, Nat.mod_lt _ (by decide), by omega⟩
  have string : carrierString occupied.toNat = stringFor q r := by
    rw [occupied_eq]
    exact carrierString_eq rest (by omega)
  have short : 2 * q + 6 ≤ 2 ^ 30 := by omega
  have le := mapperMap_le mapperOk
  have mapper_eq := mapperMap_ok quiet string rest short mapperOk
  obtain ⟨same, inside⟩ := heads quiet quiet' string rest short some mapperOk sinkOk agree
  rw [zerosOnLeft] at same
  obtain ⟨turns, wrapped, low, high⟩ := bmod_cases ((fft.toNat : ℤ) - occupied.toNat)
  obtain ⟨turns', wrapped', low', high'⟩ := bmod_cases (4 * ((fft.toNat / 8 : ℕ) -
    ((q + 2 + (r + 7) / 8 : ℕ) : ℤ)) + ((4 - (r + 1) / 2) % 4 : ℕ))
  have even : r = 0 ∨ r = 4 := by
    interval_cases r <;> omega
  have whole : fft.toNat % 8 = 0 := by
    rcases even with rfl | rfl <;> omega
  have near : fft.toNat < occupied.toNat + 2 ^ 31 := by
    rcases even with rfl | rfl <;> omega
  refine ⟨whole, by omega, ?_, near⟩
  -- the last carrier would have a negative index
  have last := (agree.mapper_inside _ (mapper_eq ▸ List.mem_map_of_mem (last_spot q even))).1
  obtain ⟨turns₂, wrapped₂, low₂, high₂⟩ := bmod_cases (4 * ((fft.toNat / 8 : ℕ) -
    ((q + 2 + (r + 7) / 8 : ℕ) : ℤ)) + (8 * q + 15 + r / 4 * 6 : ℕ))
  rcases even with rfl | rfl <;> omega

theorem agree_of_regular (quiet : Quiet behind) (quiet' : Quiet behind')
    (some : 16 ≤ occupied.toNat)
    (mapperOk : mapperMap behind occupied fft = .ok mapper)
    (sinkOk : sinkMap behind' beyond occupied = .ok sink)
    (regular : Regular occupied fft) : Agree occupied fft mapper sink := by
  obtain ⟨whole, quarter, total, near⟩ := regular
  obtain ⟨q, r, even, occupied_eq⟩ : ∃ q r, (r = 0 ∨ r = 4) ∧ occupied.toNat = 16 + 8 * q + r :=
    ⟨(occupied.toNat - 16) / 8, (occupied.toNat - 16) % 8, by omega, by omega⟩
  have rest : r < 8 := by omega
  have le := mapperMap_le mapperOk
  have string : carrierString occupied.toNat = stringFor q r := by
    rw [occupied_eq]
    exact carrierString_eq rest (by omega)
  have short : 2 * q + 6 ≤ 2 ^ 30 := by omega
  have mapper_eq := mapperMap_ok quiet string rest short mapperOk
  have sink_eq := sinkMap_ok string sinkOk
  have length := length_stringFor q r
  have padding : zerosOnLeft occupied fft = ((fft.toNat - occupied.toNat) / 2 : ℕ) := by
    rw [zerosOnLeft, bmod_int (by omega) (by omega)]
    omega
  -- the digits behind the string that the sink reads have no bits
  have digits : spotsOf (fun i => bits (carrierAt (stringFor q r).1 beyond i) (behind' i))
      (occupied.toNat / 4 + (r + 1) / 2) =
      spots ((stringFor q r).1.getD · '\x00') (stringFor q r).1.length := by
    have same : spotsOf (fun i => bits (carrierAt (stringFor q r).1 beyond i) (behind' i))
        (stringFor q r).1.length =
        spots ((stringFor q r).1.getD · '\x00') (stringFor q r).1.length :=
      spots_congr fun i within => by rw [carrierAt, if_pos within, string_bits quiet' rest within]
    rw [← same]
    rcases even with rfl | rfl
    · have all : occupied.toNat / 4 + (0 + 1) / 2 = (stringFor q 0).1.length := by
        rw [if_neg (by decide)] at length
        omega
      rw [all]
    · have one : occupied.toNat / 4 + (4 + 1) / 2 = (stringFor q 4).1.length + 1 := by
        rw [if_pos (by decide)] at length
        omega
      rw [one, spots_succ]
      rw [carrierAt, if_neg (Nat.lt_irrefl _), if_pos rfl, bits_nul]
  rw [digits] at sink_eq
  have mapper_index : ∀ p ∈ spots ((stringFor q r).1.getD · '\x00') (stringFor q r).1.length,
      (4 * ((fft.toNat / 8 : ℕ) - ((q + 2 + (r + 7) / 8 : ℕ) : ℤ)) + p).bmod (2 ^ 32) =
        ((fft.toNat - occupied.toNat) / 2 + p - r / 2 : ℕ) := by
    intro p set
    have inside := spot_inside q even set
    rw [bmod_int]
    all_goals rcases even with rfl | rfl <;> omega
  have sink_index : ∀ p ∈ spots ((stringFor q r).1.getD · '\x00') (stringFor q r).1.length,
      ((p : ℤ) - ((r + 1) / 2 : ℕ)).bmod (2 ^ 32) = (p - r / 2 : ℕ) := by
    intro p set
    have inside := spot_inside q even set
    rw [bmod_int]
    all_goals rcases even with rfl | rfl <;> omega
  rw [List.map_congr_left mapper_index] at mapper_eq
  rw [List.map_congr_left sink_index] at sink_eq
  subst mapper_eq sink_eq
  refine ⟨by rw [List.length_map, List.length_map], fun k within other => ?_, fun m member => ?_,
    fun s member => ?_⟩
  · rw [List.length_map] at within
    have inside := spot_inside q even (List.getElem_mem within)
    rw [List.getElem_map, List.getElem_map, padding]
    omega
  · obtain ⟨p, set, rfl⟩ := List.mem_map.mp member
    have inside := spot_inside q even set
    omega
  · obtain ⟨p, set, rfl⟩ := List.mem_map.mp member
    have inside := spot_inside q even set
    omega

/-- Wherever both blocks can be made and `strtol` finds no digit behind the one it is given, they use
the same carriers just for the regular sizes. -/
theorem carriers_agree_iff (quiet : Quiet behind) (quiet' : Quiet behind')
    (some : 16 ≤ occupied.toNat)
    (mapperOk : mapperMap behind occupied fft = .ok mapper)
    (sinkOk : sinkMap behind' beyond occupied = .ok sink) :
    Agree occupied fft mapper sink ↔ Regular occupied fft :=
  ⟨regular_of_agree quiet quiet' some mapperOk sinkOk,
    agree_of_regular quiet quiet' some mapperOk sinkOk⟩

/-- The map of sixteen carriers. -/
def sixteen : List ℤ := [0, 1, 2, 3, 4, 5, 6, 9, 10, 11, 12, 13, 14, 15]

/-- Memory without digits. -/
def zeros : ℕ → ℕ → List Char := fun _ _ => ['\x00']

theorem zeros_quiet : Quiet zeros := by
  intro i j c member
  obtain rfl := Option.some.inj member
  decide

theorem carriers_agree_sixteen : mapperMap zeros 16 16 = .ok sixteen ∧
    sinkMap zeros (fun _ => '\x00') 16 = .ok sixteen ∧ Agree 16 16 sixteen sixteen := by
  have mapperOk : mapperMap zeros 16 16 = .ok sixteen := by decide +kernel
  have sinkOk : sinkMap zeros (fun _ => '\x00') 16 = .ok sixteen := by decide +kernel
  refine ⟨mapperOk, sinkOk,
    (carriers_agree_iff zeros_quiet zeros_quiet (by decide) mapperOk sinkOk).mpr ?_⟩
  exact ⟨by decide, by decide, by decide, by decide⟩

/-- In an FFT of length 20 the sixteen carriers begin at 0, and the receiver's band at 2. -/
theorem carriers_of_twenty : mapperMap zeros 16 20 = .ok sixteen ∧
    sinkMap zeros (fun _ => '\x00') 16 = .ok sixteen ∧ zerosOnLeft 16 20 = 2 ∧
      ¬ Agree 16 20 sixteen sixteen := by
  refine ⟨by decide +kernel, by decide +kernel, by decide +kernel, fun agree => ?_⟩
  have first := agree.same 0 (by decide) (by decide)
  revert first
  decide +kernel

/-- A digit behind `c` in the first turn is read as one more digit of the carriers. -/
example : mapperMap (fun i _ => if i = 0 then ['1'] else []) 16 16 ≠ mapperMap zeros 16 16 := by
  decide +kernel

end OfdmCarriers

end GnuRadio
