import GnuRadio.Misc.Bits
import GnuRadio.Misc.Except
import GnuRadio.Misc.Trace
import GnuRadio.Runtime.Types
import Mathlib.Data.List.Basic

/-!
# The HRPT deframer

`noaa_hrpt_deframer` asks for room in multiples of six, the words of a sync pattern. A pattern may
still come after some words of the same call, and 11090 words, a frame, are no multiple of six.
-/

namespace GnuRadio

/-- `ST_IDLE` and `ST_SYNCED` (`noaa_hrpt_deframer.cc:33-34`). -/
inductive NoaaHrptState where
  | idle
  | synced
  deriving DecidableEq

/-- `noaa_hrpt_deframer` (`noaa_hrpt_deframer.h:39-45`). -/
structure NoaaHrptDeframer where
  d_state : NoaaHrptState
  d_mid_bit : Bool
  d_last_bit : Bool
  d_bit_count : ℕ
  d_word_count : ℕ
  d_shifter : BitVec 64
  d_word : BitVec 16

namespace NoaaHrptDeframer

/-- `HRPT_SYNC1` to `HRPT_SYNC6` (`noaa_hrpt.h:26-31`). -/
def hrptSync : List (BitVec 16) := [0x0284, 0x016F, 0x035C, 0x019D, 0x020F, 0x0095]

/-- `HRPT_MINOR_FRAME_SYNC` (`noaa_hrpt.h:33`). -/
def hrptMinorFrameSync : BitVec 64 := 0x0A116FD719D83C95

/-- The constructor (`noaa_hrpt_deframer.cc:42-51`) leaves four members as it finds them. -/
def make (d_bit_count d_word_count : ℕ) (d_shifter : BitVec 64) (d_word : BitVec 16) :
    NoaaHrptDeframer where
  d_state := .idle
  d_mid_bit := true
  d_last_bit := false
  d_bit_count := d_bit_count
  d_word_count := d_word_count
  d_shifter := d_shifter
  d_word := d_word

/-- `enter_idle` (`noaa_hrpt_deframer.cc:53-57`). -/
def enterIdle (s : NoaaHrptDeframer) : NoaaHrptDeframer := { s with d_state := .idle }

/-- `enter_synced` (`noaa_hrpt_deframer.cc:59-66`): ten bits make a word, and of the 11090 words of
    a frame six are the sync words. -/
def enterSynced (s : NoaaHrptDeframer) : NoaaHrptDeframer :=
  { s with d_state := .synced, d_bit_count := 10, d_word_count := 11090 - 6, d_word := 0 }

/-- `d_shifter` with a bit more. -/
def shifted (s : NoaaHrptDeframer) (bit : Bool) : BitVec 64 :=
  (s.d_shifter <<< 1) ||| (BitVec.ofBool bit).setWidth 64

/-- One round of the loop of `general_work` (`noaa_hrpt_deframer.cc:80-121`): the words written and
    the block after. -/
def receive (s : NoaaHrptDeframer) (bit : Bool) : List (BitVec 16) × NoaaHrptDeframer :=
  let diff := bit ^^ s.d_last_bit
  let next := { s with d_last_bit := bit }
  if s.d_mid_bit && (diff || s.d_state = .synced) then
    let next := { next with d_mid_bit := false }
    match s.d_state with
    | .idle =>
        let next := { next with d_shifter := s.shifted bit }
        if next.d_shifter &&& 0x0FFFFFFFFFFFFFFF = hrptMinorFrameSync then
          (hrptSync, next.enterSynced)
        else ([], next)
    | .synced =>
        let word := (s.d_word <<< 1) ||| (BitVec.ofBool bit).setWidth 16
        if s.d_bit_count - 1 = 0 then
          let next := { next with
            d_word := 0, d_bit_count := 10, d_word_count := s.d_word_count - 1 }
          ([word], if next.d_word_count = 0 then next.enterIdle else next)
        else ([], { next with d_word := word, d_bit_count := s.d_bit_count - 1 })
  else ([], { next with d_mid_bit := true })

/-- The loop of `general_work`: the number of bits read, the words written and the block after. A
    word beyond the buffer is written all the same. -/
def loop (noutput_items : ℕ) (s : NoaaHrptDeframer) (out : List (BitVec 16)) (i : ℕ) :
    List Bool → Except CppException (ℕ × List (BitVec 16) × NoaaHrptDeframer)
  | [] => .ok (i, out, s)
  | bit :: bits =>
      if out.length < noutput_items then
        let (words, next) := s.receive bit
        if out.length + words.length ≤ noutput_items then
          loop noutput_items next (out ++ words) (i + 1) bits
        else .error .undefinedBehaviour
      else .ok (i, out, s)

/-- `general_work` (`noaa_hrpt_deframer.cc:68-126`). -/
def generalWork (s : NoaaHrptDeframer) (input : List Bool) (noutput_items : ℕ) :
    Except CppException (ℕ × List (BitVec 16) × NoaaHrptDeframer) :=
  s.loop noutput_items [] 0 input

/-! ## What there is to deframe -/

/-- The bit completes a sync pattern that the block waits for. -/
def Completes (s : NoaaHrptDeframer) (bit : Bool) : Prop :=
  s.d_state = .idle ∧ s.d_mid_bit = true ∧ bit ≠ s.d_last_bit ∧
    s.shifted bit &&& 0x0FFFFFFFFFFFFFFF = hrptMinorFrameSync

instance (s : NoaaHrptDeframer) (bit : Bool) : Decidable (s.Completes bit) :=
  inferInstanceAs (Decidable (_ ∧ _ ∧ _ ∧ _))

/-- The words that the frame under way still has to come. -/
def owed (s : NoaaHrptDeframer) : ℕ := if s.d_state = .synced then s.d_word_count else 0

/-- The sync patterns that the bits complete. -/
def syncCount (s : NoaaHrptDeframer) : List Bool → ℕ
  | [] => 0
  | bit :: bits => (if s.Completes bit then 1 else 0) + (s.receive bit).2.syncCount bits

/-- Each sync pattern that the bits of a call complete finds room for its six words, or the call is
    over before it. -/
def Room (s : NoaaHrptDeframer) (written : ℕ) (input : List Bool) (noutput_items : ℕ) : Prop :=
  ∀ k < s.syncCount input, written + s.owed + 11090 * k + 6 ≤ noutput_items ∨
    noutput_items ≤ written + s.owed + 11090 * k

/-- What the first bits of a stream give when nothing bounds the output. -/
def received (block : NoaaHrptDeframer) (bits : ℕ → Bool) : ℕ → List (BitVec 16) × NoaaHrptDeframer
  | 0 => ([], block)
  | n + 1 =>
      let (out, s) := received block bits n
      (out ++ (s.receive (bits n)).1, (s.receive (bits n)).2)

/-- Where the first bits complete a sync pattern. -/
def syncs (block : NoaaHrptDeframer) (bits : ℕ → Bool) (n : ℕ) : List ℕ :=
  (List.range n).filter fun p => (block.received bits p).2.Completes (bits p)

/-- Ten of the alternate bits after position `p`, most significant bit first. -/
def frameWord (bits : ℕ → Bool) (p k : ℕ) : BitVec 16 :=
  BitVec.ofNat 16 (ofBits ((List.range 10).map fun i => bits (p + 2 * (10 * k + i + 1))))

/-- The frame whose sync pattern bit `p` completes. -/
def frame (bits : ℕ → Bool) (p : ℕ) : List (BitVec 16) :=
  hrptSync ++ (List.range 11084).map (frameWord bits p)

/-- The block, the number of bits consumed and the words written. -/
structure Session where
  block : NoaaHrptDeframer
  consumed : ℕ
  out : List (BitVec 16)

/-- The bits that a call is given. -/
def Session.input (bits : ℕ → Bool) (s : Session) (ninput_items : ℕ) : List Bool :=
  (List.range' s.consumed ninput_items).map bits

/-- A call with its `ninput_items` and `noutput_items`. -/
def serve (bits : ℕ → Bool) (s : Session) (call : ℕ × ℕ) : Option Session :=
  match s.block.generalWork (s.input bits call.1) call.2 with
  | .ok (i, words, block) => some ⟨block, s.consumed + i, s.out ++ words⟩
  | .error _ => none

/-! ## One bit -/

variable {s block : NoaaHrptDeframer} {bit : Bool} {bits : ℕ → Bool}

theorem receive_completes (completes : s.Completes bit) :
    s.receive bit = (hrptSync, { s with
      d_state := .synced, d_mid_bit := false, d_last_bit := bit, d_bit_count := 10,
      d_word_count := 11084, d_shifter := s.shifted bit, d_word := 0 }) := by
  obtain ⟨idle, mid, differs, pattern⟩ := completes
  have diff : (bit ^^ s.d_last_bit) = true := by simpa using differs
  simp only [receive, idle, mid, diff, Bool.true_or, Bool.and_self, if_true, pattern, enterSynced]

theorem receive_idle (idle : s.d_state = .idle) (rest : ¬ s.Completes bit) :
    (s.receive bit).1 = [] ∧ (s.receive bit).2.d_state = .idle := by
  by_cases accepts : s.d_mid_bit = true ∧ bit ≠ s.d_last_bit
  · have diff : (bit ^^ s.d_last_bit) = true := by simpa using accepts.2
    have pattern : ¬ s.shifted bit &&& 0x0FFFFFFFFFFFFFFF = hrptMinorFrameSync :=
      fun found => rest ⟨idle, accepts.1, accepts.2, found⟩
    simp only [receive, idle, accepts.1, diff, Bool.true_or, Bool.and_self, if_true,
      if_neg pattern, and_self]
  · have waits : (s.d_mid_bit && (bit ^^ s.d_last_bit)) = false := by simpa using accepts
    simp [receive, idle, waits]

theorem receive_synced (synced : s.d_state = .synced) :
    s.receive bit =
      if s.d_mid_bit then
        let word := (s.d_word <<< 1) ||| (BitVec.ofBool bit).setWidth 16
        if s.d_bit_count - 1 = 0 then
          ([word], { s with
            d_state := if s.d_word_count - 1 = 0 then .idle else .synced
            d_mid_bit := false, d_last_bit := bit, d_bit_count := 10,
            d_word_count := s.d_word_count - 1, d_word := 0 })
        else ([], { s with
          d_mid_bit := false, d_last_bit := bit, d_word := word, d_bit_count := s.d_bit_count - 1 })
      else ([], { s with d_mid_bit := true, d_last_bit := bit }) := by
  cases mid : s.d_mid_bit with
  | false => simp [receive, mid]
  | true =>
    simp only [receive, mid, synced, decide_true, Bool.or_true, Bool.and_self, if_true]
    split
    · split <;> simp_all [enterIdle]
    · rfl

/-! ## The room of a call -/

/-- A frame under way still has a word to come. -/
def Counting (s : NoaaHrptDeframer) : Prop := s.d_state = .synced → 0 < s.d_word_count

theorem counting_completes (completes : s.Completes bit) :
    (s.receive bit).2.Counting ∧ (s.receive bit).2.owed = 11084 := by
  rw [receive_completes completes]
  exact ⟨fun _ => by simp, rfl⟩

theorem counting_rest (counting : s.Counting) (rest : ¬ s.Completes bit) :
    (s.receive bit).2.Counting ∧ (s.receive bit).1.length ≤ 1 ∧
      (s.receive bit).1.length + (s.receive bit).2.owed = s.owed := by
  cases state : s.d_state with
  | idle =>
    obtain ⟨nothing, idle⟩ := receive_idle state rest
    simp [Counting, owed, nothing, idle, state]
  | synced =>
    have more := counting state
    rw [receive_synced state]
    split
    · dsimp only
      split
      · by_cases last : s.d_word_count - 1 = 0
        · simp [Counting, owed, last, state]
          omega
        · simp [Counting, owed, last, state]
          omega
      · exact ⟨fun _ => more, Nat.zero_le 1, by simp [owed, state]⟩
    · exact ⟨fun _ => more, Nat.zero_le 1, by simp [owed, state]⟩

theorem counting_receive (counting : s.Counting) (bit : Bool) : (s.receive bit).2.Counting := by
  by_cases completes : s.Completes bit
  · exact (counting_completes completes).1
  · exact (counting_rest counting completes).1

theorem loop_iff (counting : s.Counting) (noutput_items : ℕ) (out : List (BitVec 16)) (i : ℕ)
    (input : List Bool) :
    (∃ r, s.loop noutput_items out i input = .ok r) ↔ s.Room out.length input noutput_items := by
  induction input generalizing s out i with
  | nil => exact ⟨fun _ k more => absurd more (Nat.not_lt_zero k), fun _ => ⟨_, rfl⟩⟩
  | cons bit input ih =>
    have counting' := counting_receive counting bit
    rw [loop]
    split
    next space =>
      dsimp only
      by_cases completes : s.Completes bit
      · have idle : s.owed = 0 := if_neg (by simp [completes.1])
        have six : (s.receive bit).1.length = 6 := by rw [receive_completes completes]; rfl
        have after := (counting_completes completes).2
        have counts : s.syncCount (bit :: input) = 1 + (s.receive bit).2.syncCount input := by
          rw [syncCount, if_pos completes]
        rw [six]
        constructor
        · intro ok k more
          split at ok
          next room =>
            cases k with
            | zero => exact .inl (by omega)
            | succ k =>
              have rest := (ih counting' _ _).mp ok k (by omega)
              rw [List.length_append, six, after] at rest
              omega
          next => exact absurd ok (by simp)
        · intro room
          have first := room 0 (by omega)
          rw [if_pos (by omega)]
          refine (ih counting' _ _).mpr fun k more => ?_
          have later := room (k + 1) (by omega)
          rw [List.length_append, six, after]
          omega
      · obtain ⟨-, one, less⟩ := counting_rest counting completes
        have counts : s.syncCount (bit :: input) = (s.receive bit).2.syncCount input := by
          rw [syncCount, if_neg completes, Nat.zero_add]
        rw [if_pos (by omega), ih counting', Room, Room, counts, List.length_append,
          Nat.add_assoc out.length, less]
    next full =>
      exact ⟨fun _ k _ => .inr (by omega), fun _ => ⟨_, rfl⟩⟩

/-! ## Frames -/

theorem received_succ (block : NoaaHrptDeframer) (bits : ℕ → Bool) (n : ℕ) :
    block.received bits (n + 1) =
      ((block.received bits n).1 ++ ((block.received bits n).2.receive (bits n)).1,
        ((block.received bits n).2.receive (bits n)).2) := rfl

theorem syncs_succ (block : NoaaHrptDeframer) (bits : ℕ → Bool) (n : ℕ) :
    block.syncs bits (n + 1) = block.syncs bits n ++
      if (block.received bits n).2.Completes (bits n) then [n] else [] := by
  rw [syncs, List.range_succ, List.filter_append, ← syncs, List.filter_cons, List.filter_nil]
  simp only [decide_eq_true_eq]

/-- The block `t` bits after a sync pattern. -/
def inFrame (bits : ℕ → Bool) (p t : ℕ) (shifter : BitVec 64) : NoaaHrptDeframer where
  d_state := if t < 221680 then .synced else .idle
  d_mid_bit := t % 2 = 1
  d_last_bit := bits (p + t)
  d_bit_count := 10 - t / 2 % 10
  d_word_count := 11084 - t / 20
  d_shifter := shifter
  d_word := BitVec.ofNat 16
    (ofBits ((List.range (t / 2 % 10)).map fun i => bits (p + 2 * (10 * (t / 20) + i + 1))))

theorem shift_word (v : ℕ) (bit : Bool) :
    ((BitVec.ofNat 16 v) <<< 1) ||| (BitVec.ofBool bit).setWidth 16 =
      BitVec.ofNat 16 (2 * v + bit.toNat) := by
  have small : bit.toNat < 2 := Bool.toNat_lt bit
  have shifted := shiftLeft_or_bit 15 (v % 2 ^ 16) small
  apply BitVec.eq_of_toNat_eq
  simp only [BitVec.toNat_or, BitVec.toNat_shiftLeft, BitVec.toNat_ofNat, BitVec.toNat_setWidth,
    BitVec.toNat_ofBool]
  rw [Nat.mod_eq_of_lt (show bit.toNat < 2 ^ 16 by omega), shifted]
  omega

theorem receive_inFrame (bits : ℕ → Bool) (p : ℕ) {t : ℕ} (inside : t < 221680)
    (shifter : BitVec 64) :
    (inFrame bits p t shifter).receive (bits (p + t + 1)) =
      (if (t + 1) % 20 = 0 then [frameWord bits p (t / 20)] else [],
        inFrame bits p (t + 1) shifter) := by
  have synced : (inFrame bits p t shifter).d_state = .synced := if_pos inside
  have word : (inFrame bits p t shifter).d_word <<< 1 |||
        (BitVec.ofBool (bits (p + t + 1))).setWidth 16 =
      BitVec.ofNat 16 (ofBits (((List.range (t / 2 % 10)).map fun i =>
        bits (p + 2 * (10 * (t / 20) + i + 1))) ++ [bits (p + t + 1)])) := by
    rw [ofBits_concat]
    exact shift_word _ _
  rw [receive_synced synced]
  dsimp only
  rw [word]
  by_cases mid : t % 2 = 1
  · have place : p + t + 1 = p + 2 * (10 * (t / 20) + t / 2 % 10 + 1) := by omega
    have more : ((List.range (t / 2 % 10)).map fun i =>
          bits (p + 2 * (10 * (t / 20) + i + 1))) ++ [bits (p + t + 1)] =
        (List.range (t / 2 % 10 + 1)).map fun i => bits (p + 2 * (10 * (t / 20) + i + 1)) := by
      rw [List.range_succ, List.map_append, List.map_singleton, ← place]
    rw [more, if_pos (by simpa [inFrame] using mid)]
    have odd : decide ((t + 1) % 2 = 1) = false := by simp; omega
    by_cases last : t / 2 % 10 = 9
    · have whole : (t + 1) / 2 % 10 = 0 := by omega
      have count : 11084 - t / 20 - 1 = 11084 - (t + 1) / 20 := by omega
      have state : (if 11084 - (t + 1) / 20 = 0 then NoaaHrptState.idle else .synced) =
          if t + 1 < 221680 then .synced else .idle := by split <;> split <;> first | rfl | omega
      rw [if_pos (by simp [inFrame, last]), if_pos (show (t + 1) % 20 = 0 by omega), last]
      refine Prod.ext rfl ?_
      simp only [inFrame, odd, whole, count, state, Nat.add_assoc, List.range_zero, List.map_nil]
      rfl
    · have next : (t + 1) / 2 % 10 = t / 2 % 10 + 1 := by omega
      have count : (t + 1) / 20 = t / 20 := by omega
      have bitCount : 10 - t / 2 % 10 - 1 = 10 - (t / 2 % 10 + 1) := by omega
      have state : t + 1 < 221680 := by omega
      rw [if_neg (by simp [inFrame]; omega), if_neg (show ¬ (t + 1) % 20 = 0 by omega)]
      simp only [inFrame, odd, next, count, bitCount, if_pos state, if_pos inside, Nat.add_assoc]
  · have even : decide ((t + 1) % 2 = 1) = true := by simp; omega
    have half : (t + 1) / 2 = t / 2 := by omega
    have count : (t + 1) / 20 = t / 20 := by omega
    have state : t + 1 < 221680 := by omega
    rw [if_neg (by simpa [inFrame] using mid), if_neg (show ¬ (t + 1) % 20 = 0 by omega)]
    simp only [inFrame, even, half, count, if_pos state, if_pos inside, Nat.add_assoc]

theorem take_frame (bits : ℕ → Bool) (p : ℕ) {k : ℕ} (inside : k < 11084) :
    (frame bits p).take (6 + (k + 1)) = (frame bits p).take (6 + k) ++ [frameWord bits p k] := by
  have found : (frame bits p)[6 + k]? = some (frameWord bits p k) := by
    rw [frame, List.getElem?_append_right (Nat.le_add_right 6 k), List.getElem?_map,
      show 6 + k - hrptSync.length = k from Nat.add_sub_cancel_left 6 k, List.getElem?_range inside]
    rfl
  rw [← Nat.add_assoc, List.take_add_one, found]
  rfl

theorem take_frame_whole (bits : ℕ → Bool) (p : ℕ) {k : ℕ} (whole : 11084 ≤ k) :
    (frame bits p).take (6 + k) = frame bits p :=
  List.take_of_length_le (by simp [frame, hrptSync]; omega)

theorem received_frame {p : ℕ} (completes : (block.received bits p).2.Completes (bits p)) {t : ℕ}
    (inside : t ≤ 221680) :
    block.received bits (p + 1 + t) =
      ((block.received bits p).1 ++ (frame bits p).take (6 + t / 20),
        inFrame bits p t ((block.received bits p).2.shifted (bits p))) := by
  induction t with
  | zero =>
    rw [Nat.add_zero, received_succ, receive_completes completes]
    rfl
  | succ t ih =>
    rw [← Nat.add_assoc, received_succ, ih (by omega), Nat.add_right_comm p 1 t]
    dsimp only
    rw [receive_inFrame bits p (by omega)]
    split
    next whole =>
      have count : (t + 1) / 20 = t / 20 + 1 := by omega
      rw [count, take_frame bits p (by omega), List.append_assoc]
    next =>
      have count : (t + 1) / 20 = t / 20 := by omega
      rw [count, List.append_nil]

/-- The block waits for a sync pattern, and what it wrote is whole frames. -/
structure Between (block : NoaaHrptDeframer) (bits : ℕ → Bool) (n : ℕ) : Prop where
  idle : (block.received bits n).2.d_state = .idle
  out : (block.received bits n).1 = (block.syncs bits n).flatMap (frame bits)
  before : ∀ p ∈ block.syncs bits n, p + 221680 < n
  apart : (block.syncs bits n).Pairwise fun p q => p + 221680 < q

/-- The block is within a frame. -/
def Within (block : NoaaHrptDeframer) (bits : ℕ → Bool) (n : ℕ) : Prop :=
  ∃ p t, n = p + 1 + t ∧ t < 221680 ∧ block.Between bits p ∧
    (block.received bits p).2.Completes (bits p) ∧ block.syncs bits n = block.syncs bits p ++ [p]

theorem Between.concat {p : ℕ} (between : block.Between bits p) :
    (block.syncs bits p ++ [p]).Pairwise fun p q => p + 221680 < q :=
  List.pairwise_append.mpr ⟨between.apart, List.pairwise_singleton _ _, fun q member r last => by
    rw [List.mem_singleton.mp last]
    exact between.before q member⟩

theorem between_or_within (idle : block.d_state = .idle) (bits : ℕ → Bool) (n : ℕ) :
    block.Between bits n ∨ block.Within bits n := by
  induction n with
  | zero => exact .inl ⟨idle, rfl, by simp [syncs], by simp [syncs]⟩
  | succ n ih =>
    have grows := syncs_succ block bits n
    obtain between | ⟨p, t, rfl, inside, between, completes, known⟩ := ih
    · by_cases completes : (block.received bits n).2.Completes (bits n)
      · rw [if_pos completes] at grows
        exact .inr ⟨n, 0, rfl, by omega, between, completes, grows⟩
      · obtain ⟨nothing, idle'⟩ := receive_idle between.idle completes
        rw [if_neg completes, List.append_nil] at grows
        refine .inl ⟨idle', ?_, fun p member => ?_, grows ▸ between.apart⟩
        · rw [received_succ, nothing, List.append_nil, between.out, grows]
        · exact (between.before p (grows ▸ member)).trans (Nat.lt_succ_self n)
    · have now := received_frame completes inside.le
      have busy : ¬ (block.received bits (p + 1 + t)).2.Completes (bits (p + 1 + t)) := by
        rw [now]
        exact fun again => absurd ((if_pos inside).symm.trans again.1) (by decide)
      rw [if_neg busy, List.append_nil, known] at grows
      rcases Nat.lt_or_ge (t + 1) 221680 with more | last
      · exact .inr ⟨p, t + 1, rfl, more, between, completes, grows⟩
      · have after := received_frame completes (show t + 1 ≤ 221680 by omega)
        refine .inl ⟨?_, ?_, fun q member => ?_, grows ▸ between.concat⟩
        · rw [Nat.add_assoc, after]
          exact if_neg (by omega)
        · rw [Nat.add_assoc, after, ← Nat.add_assoc, grows, List.flatMap_append, ← between.out,
            List.flatMap_singleton]
          dsimp only
          rw [take_frame_whole bits p (by omega)]
        · rw [grows, List.mem_append, List.mem_singleton] at member
          obtain earlier | rfl := member
          · have before := between.before q earlier
            omega
          · omega

theorem received_framed (idle : block.d_state = .idle) (bits : ℕ → Bool) (n : ℕ) :
    (block.received bits n).1 =
        (block.syncs bits n).flatMap (fun p => (frame bits p).take (6 + (n - 1 - p) / 20)) ∧
      (block.syncs bits n).Pairwise fun p q => p + 221680 < q := by
  have whole : ∀ {p}, block.Between bits p → p ≤ n →
      (block.syncs bits p).flatMap (fun p => (frame bits p).take (6 + (n - 1 - p) / 20)) =
        (block.syncs bits p).flatMap (frame bits) := by
    intro p between earlier
    refine List.flatMap_congr fun q member => take_frame_whole bits q ?_
    have before := between.before q member
    omega
  obtain between | ⟨p, t, rfl, inside, between, completes, known⟩ := between_or_within idle bits n
  · exact ⟨by rw [whole between le_rfl, between.out], between.apart⟩
  · have count : p + 1 + t - 1 - p = t := by omega
    rw [known, received_frame completes inside.le, List.flatMap_append, whole between (by omega),
      ← between.out, List.flatMap_singleton, count]
    exact ⟨rfl, between.concat⟩

/-! ## Calls -/

theorem loop_received {noutput_items c n i : ℕ} {out : List (BitVec 16)}
    {r : ℕ × List (BitVec 16) × NoaaHrptDeframer}
    (ok : (block.received bits c).2.loop noutput_items out i ((List.range' c n).map bits) = .ok r) :
    ∃ m new, r = (i + m, out ++ new, (block.received bits (c + m)).2) ∧
      (block.received bits (c + m)).1 = (block.received bits c).1 ++ new := by
  induction n generalizing c out i with
  | zero =>
    cases ok
    exact ⟨0, [], by simp, by simp⟩
  | succ n ih =>
    rw [List.range'_succ, List.map_cons, loop] at ok
    split at ok
    · dsimp only at ok
      split at ok
      · obtain ⟨m, new, rfl, written⟩ := ih (c := c + 1) ok
        have next : c + (m + 1) = c + 1 + m := by omega
        rw [received_succ, List.append_assoc] at written
        exact ⟨m + 1, _, by rw [next, List.append_assoc, Nat.add_assoc, Nat.add_comm 1 m],
          next ▸ written⟩
      · cases ok
    · cases ok
      exact ⟨0, [], by simp, by simp⟩

/-- The block has received the bits consumed, and what it had written is out. -/
def Received (block : NoaaHrptDeframer) (bits : ℕ → Bool) (s : Session) : Prop :=
  (s.out, s.block) = block.received bits s.consumed ∧ s.block.Counting

theorem counting_received (counting : block.Counting) (bits : ℕ → Bool) (n : ℕ) :
    (block.received bits n).2.Counting := by
  induction n with
  | zero => exact counting
  | succ n ih => exact counting_receive ih (bits n)

theorem serve_received (counting : block.Counting) (s : Session) (call : ℕ × ℕ) (t : Session)
    (received : block.Received bits s) (served : serve bits s call = some t) :
    block.Received bits t := by
  obtain ⟨same, -⟩ := received
  unfold serve at served
  split at served
  next i words b ok =>
    have before : s.block = (block.received bits s.consumed).2 := congrArg Prod.snd same
    rw [generalWork, Session.input, before] at ok
    obtain ⟨m, new, found, written⟩ := loop_received ok
    cases found
    cases served
    refine ⟨Prod.ext ?_ ?_, counting_received counting bits _⟩
    · dsimp only
      rw [Nat.zero_add, written, ← same, List.nil_append]
    · dsimp only
      rw [Nat.zero_add]
  next => cases served

/-- The sync patterns of a call find room. -/
def Fits (bits : ℕ → Bool) (s : Session) (call : ℕ × ℕ) : Prop :=
  s.block.Room 0 (s.input bits call.1) call.2

theorem serve_iff {s : Session} (counting : s.block.Counting) (call : ℕ × ℕ) :
    (∃ t, serve bits s call = some t) ↔ Fits bits s call := by
  refine Iff.trans ?_ (loop_iff counting call.2 [] 0 _)
  rw [serve, generalWork]
  cases ran : s.block.loop call.2 [] 0 (s.input bits call.1) with
  | error => simp
  | ok => simp

theorem run_iff (counting : block.Counting) {s : Session} (received : block.Received bits s)
    (calls : List (ℕ × ℕ)) :
    (∃ t, run (serve bits) s calls = some t) ↔ Throughout (Fits bits) (serve bits) s calls := by
  induction calls generalizing s with
  | nil => exact ⟨fun _ => trivial, fun _ => ⟨s, rfl⟩⟩
  | cons call calls ih =>
    constructor
    · rintro ⟨t, ran⟩
      obtain ⟨u, first, rest⟩ := run_cons.mp ran
      refine ⟨(serve_iff received.2 call).mp ⟨u, first⟩, fun v next => ?_⟩
      obtain rfl := Option.some.inj (first.symm.trans next)
      exact (ih (serve_received counting s call u received first)).mp ⟨t, rest⟩
    · intro met
      obtain ⟨u, first⟩ := (serve_iff received.2 call).mpr met.1
      obtain ⟨t, rest⟩ := (ih (serve_received counting s call u received first)).mpr
        (met.2 u first)
      exact ⟨t, run_cons.mpr ⟨u, first, rest⟩⟩

def start (block : NoaaHrptDeframer) : Session := ⟨block, 0, []⟩

/-- No call writes beyond its buffer exactly where every sync pattern finds room in its call, and
    then what is written are frames, whatever the calls. -/
theorem deframes_iff (d_bit_count d_word_count : ℕ) (d_word : BitVec 16) (bits : ℕ → Bool)
    (calls : List (ℕ × ℕ)) :
    let block := make d_bit_count d_word_count 0 d_word
    (∃ s, run (serve bits) (start block) calls = some s ∧
      s.out = (block.syncs bits s.consumed).flatMap
        (fun p => (frame bits p).take (6 + (s.consumed - 1 - p) / 20)) ∧
      (block.syncs bits s.consumed).Pairwise fun p q => p + 221680 < q) ↔
    Throughout (Fits bits) (serve bits) (start block) calls := by
  intro block
  have counting : block.Counting := fun synced => by cases synced
  have initial : block.Received bits (start block) := ⟨rfl, counting⟩
  rw [← run_iff counting initial calls]
  refine ⟨fun ⟨s, ran, _⟩ => ⟨s, ran⟩, fun ⟨s, ran⟩ => ⟨s, ran, ?_⟩⟩
  have received := run_invariant (block.Received bits) (serve_received counting) initial ran
  have written : s.out = (block.received bits s.consumed).1 := congrArg Prod.fst received.1
  rw [written]
  exact received_framed rfl bits s.consumed

/-! ## A second frame right after the first -/

/-- Two frames, the data of the first all zero. -/
def twoFrames (n : ℕ) : Bool :=
  let r := n % 221800
  r < 120 && (hrptMinorFrameSync.getLsbD (59 - r / 2) == (r % 2 == 1))

theorem syncCount_range' (block : NoaaHrptDeframer) (bits : ℕ → Bool) (c n : ℕ) :
    (block.received bits c).2.syncCount ((List.range' c n).map bits) =
      (List.range' c n).countP fun p => (block.received bits p).2.Completes (bits p) := by
  induction n generalizing c with
  | zero => rfl
  | succ n ih =>
    rw [List.range'_succ, List.map_cons, syncCount, List.countP_cons, Nat.add_comm]
    simp only [decide_eq_true_eq]
    exact congrArg (· + _) (ih (c + 1))

theorem received_add (block : NoaaHrptDeframer) (bits : ℕ → Bool) (m n : ℕ) :
    (block.received bits (m + n)).2 =
      ((block.received bits m).2.received (fun k => bits (m + k)) n).2 := by
  induction n with
  | zero => rfl
  | succ n ih => rw [← Nat.add_assoc, received_succ, received_succ, ih]

set_option maxRecDepth 20000 in
theorem twoFrames_first : ((make 0 0 0 0).received twoFrames 119).2.Completes (twoFrames 119) := by
  decide

set_option maxRecDepth 20000 in
theorem twoFrames_second :
    ((make 0 0 0 0).received twoFrames 221919).2.Completes (twoFrames 221919) := by
  have shifter : ((make 0 0 0 0).received twoFrames 119).2.shifted (twoFrames 119) =
    hrptMinorFrameSync := by decide
  have after := received_frame twoFrames_first (show 221680 ≤ 221680 from le_rfl)
  have period : (fun k => twoFrames (119 + 1 + 221680 + k)) = twoFrames := by
    funext k
    simp [twoFrames]
  rw [show 221919 = 119 + 1 + 221680 + 119 from rfl, received_add, period, after, shifter]
  decide

theorem deframes_overflow : ¬ ∃ s, run (serve twoFrames) (start (make 0 0 0 0))
    [(221920, 6 * 1849)] = some s := by
  rintro ⟨s, ran⟩
  have counting : (make 0 0 0 0).Counting := fun synced => by cases synced
  have fits := ((run_iff counting ⟨rfl, counting⟩ _).mp ⟨s, ran⟩).1
  have split : List.range' 0 221920 = List.range' 0 120 ++ List.range' 120 221800 :=
    (@List.range'_append_1 0 120 221800).symm
  have count : 1 < (make 0 0 0 0).syncCount ((List.range' 0 221920).map twoFrames) := by
    have first : 0 < (List.range' 0 120).countP fun p =>
        ((make 0 0 0 0).received twoFrames p).2.Completes (twoFrames p) :=
      List.countP_pos_iff.mpr ⟨119, by simp, decide_eq_true twoFrames_first⟩
    have second : 0 < (List.range' 120 221800).countP fun p =>
        ((make 0 0 0 0).received twoFrames p).2.Completes (twoFrames p) :=
      List.countP_pos_iff.mpr ⟨221919, by simp, decide_eq_true twoFrames_second⟩
    have counted := syncCount_range' (make 0 0 0 0) twoFrames 0 221920
    rw [split, List.countP_append, ← split] at counted
    exact lt_of_lt_of_eq (by omega) counted.symm
  have room := fits 1 count
  have idle : (start (make 0 0 0 0)).block.owed = 0 := rfl
  rw [idle] at room
  omega

end NoaaHrptDeframer

end GnuRadio
