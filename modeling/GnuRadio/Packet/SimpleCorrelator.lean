import GnuRadio.Misc.BitWindow
import GnuRadio.Misc.Except
import GnuRadio.Packet.CountBits
import GnuRadio.Runtime.Types
import Mathlib.Data.Nat.Digits.Defs

/-!
# The simple correlator

`gr_simple_correlator` looks for a synchronisation word in samples that come eight to a bit, takes
the bits of a frame behind it, and hands out the payload at the frame's last bit. The samples are
of any type that has the operations the block uses.
-/

namespace GnuRadio

/-- `GRSF_SYNC` (`gr_simple_framer_sync.h:42`). -/
def grsfSync : UInt64 := 0xacdda4e2f28c20fc

/-- The arithmetic on `float` that the block does. -/
structure FloatOps (φ : Type) where
  zero : φ
  add : φ → φ → φ
  sub : φ → φ → φ
  ge : φ → φ → Bool
  /-- `x * 0.5`. -/
  half : φ → φ
  /-- `std::max(-1.0, std::min(1.0, x * (1.0/AVG_PERIOD)))`. -/
  clampedMean : φ → φ

/-- `state_t` (`gr_simple_correlator.h:43`). -/
inductive CorrelatorState where
  | looking
  | underThreshold
  | locked
  deriving DecidableEq, Repr

/-- `gr_simple_correlator` (`gr_simple_correlator.h:45-59`). An index into the samples of a bit and
one into `avgbuf` are below their bounds by their types. -/
structure SimpleCorrelator (φ : Type) where
  payloadBytesize : Nat
  state : CorrelatorState
  osi : Fin 8
  transitionOsi : Fin 8
  centerOsi : Fin 8
  shiftReg : Vector UInt64 8
  bblen : Nat
  bitbuf : List UInt8
  bbi : Nat
  avbi : Fin 512
  avgbuf : Vector φ 512
  avg : φ
  accum : φ
  deriving DecidableEq

namespace SimpleCorrelator

variable {φ : Type} (ops : FloatOps φ)

local instance : NeZero 8 := ⟨by decide⟩

/-- `add_index` (`gr_simple_correlator.h:80-87`); what it asserts is the type of the result. -/
def addIndex (a b : Fin 8) : Fin 8 :=
  let t := a.val + b.val
  ⟨if t ≥ 8 then t - 8 else t, by split <;> omega⟩

/-- `sub_index` (`gr_simple_correlator.h:89-96`). -/
def subIndex (a b : Fin 8) : Fin 8 :=
  ⟨if a.val < b.val then a.val + 8 - b.val else a.val - b.val, by split <;> omega⟩

/-- `slice` (`gr_simple_correlator.h:69-72`). -/
def slice (d : SimpleCorrelator φ) (x : φ) : UInt8 := if ops.ge x d.avg then 1 else 0

/-- `enter_looking` (`gr_simple_correlator.cc:77-92`). -/
def enterLooking (d : SimpleCorrelator φ) : SimpleCorrelator φ :=
  { d with
    state := .looking
    shiftReg := Vector.replicate 8 0
    osi := 0
    avbi := 0
    avg := ops.half d.avg
    accum := ops.zero
    avgbuf := Vector.replicate 512 ops.zero }

/-- `enter_under_threshold` (`gr_simple_correlator.cc:94-101`). -/
def enterUnderThreshold (d : SimpleCorrelator φ) : SimpleCorrelator φ :=
  { d with
    state := .underThreshold
    transitionOsi := d.osi }

/-- `enter_locked` (`gr_simple_correlator.cc:103-116`). -/
def enterLocked (d : SimpleCorrelator φ) : SimpleCorrelator φ :=
  let delta := subIndex d.osi d.transitionOsi
  let centerOsi := addIndex d.transitionOsi ⟨delta.val / 2, by omega⟩
  { d with
    state := .locked
    centerOsi := addIndex centerOsi 3
    bbi := 0
    avg := ops.clampedMean d.accum }

/-- The members as the constructor sets them (`gr_simple_correlator.cc:49-64`). Those that it does
not initialise are written before they are read. -/
def initial (payloadBytesize bblen : Nat) : SimpleCorrelator φ :=
  enterLooking ops {
    payloadBytesize := payloadBytesize
    state := .looking
    osi := 0
    transitionOsi := 0
    centerOsi := 0
    shiftReg := Vector.replicate 8 0
    bblen := bblen
    bitbuf := List.replicate bblen 0
    bbi := 0
    avbi := 0
    avgbuf := Vector.replicate 512 ops.zero
    avg := ops.zero
    accum := ops.zero }

/-- The constructor (`gr_simple_correlator.cc:45-66`). -/
def construct (payloadBytesize : Nat) : Except CppException (SimpleCorrelator φ) := do
  let bblen ← asInt ((payloadBytesize + 1) * 8 : Nat)
  pure (initial ops payloadBytesize bblen.toNat)

/-- `packit` (`gr_simple_correlator.cc:118-132`). -/
def packit (bitbuf : List UInt8) (bitcount : Nat) : List UInt8 :=
  (List.range ((bitcount + 7) / 8)).map fun j =>
    let i := 8 * j
    let t := bitbuf.getD (i + 0) 0 &&& 0x1
    let t := (t <<< 1) ||| (bitbuf.getD (i + 1) 0 &&& 0x1)
    let t := (t <<< 1) ||| (bitbuf.getD (i + 2) 0 &&& 0x1)
    let t := (t <<< 1) ||| (bitbuf.getD (i + 3) 0 &&& 0x1)
    let t := (t <<< 1) ||| (bitbuf.getD (i + 4) 0 &&& 0x1)
    let t := (t <<< 1) ||| (bitbuf.getD (i + 5) 0 &&& 0x1)
    let t := (t <<< 1) ||| (bitbuf.getD (i + 6) 0 &&& 0x1)
    (t <<< 1) ||| (bitbuf.getD (i + 7) 0 &&& 0x1)

/-- `update_avg` (`gr_simple_correlator.cc:134-141`). -/
def updateAvg (d : SimpleCorrelator φ) (x : φ) : SimpleCorrelator φ :=
  let accum := ops.sub d.accum (d.avgbuf.get d.avbi)
  { d with
    avgbuf := d.avgbuf.set d.avbi.val x d.avbi.isLt
    accum := ops.add accum x
    avbi := ⟨(d.avbi.val + 1) &&& (512 - 1), Nat.and_lt_two_pow _ (by decide : 512 - 1 < 2 ^ 9)⟩ }

/-- `d_bitbuf[d_bbi] = decision` and the step of `d_bbi` (`gr_simple_correlator.cc:183-184`). -/
def takeBit (d : SimpleCorrelator φ) (decision : UInt8) : SimpleCorrelator φ :=
  { d with
    bitbuf := d.bitbuf.set d.bbi decision
    bbi := d.bbi + 1 }

/-- A sample while the block is locked (`gr_simple_correlator.cc:175-196`): the last bit of a frame
gives its payload. -/
def locked (d : SimpleCorrelator φ) (x : φ) : SimpleCorrelator φ × Option (List UInt8) :=
  if d.osi = d.centerOsi then
    let decision := d.slice ops x
    let d := d.takeBit decision
    if d.bbi ≥ d.bblen then
      let pktbuf := packit d.bitbuf d.bbi
      (d.enterLooking ops, some ((pktbuf.drop 1).take d.payloadBytesize))
    else (d, none)
  else (d, none)

/-- A sample enters the average and its phase's register (`gr_simple_correlator.cc:200-202`). -/
def shiftIn (d : SimpleCorrelator φ) (x : φ) : SimpleCorrelator φ :=
  let d := d.updateAvg ops x
  let decision := d.slice ops x
  { d with
    shiftReg := d.shiftReg.set d.osi.val ((d.shiftReg.get d.osi <<< 1) ||| decision.toUInt64)
      d.osi.isLt }

/-- A sample while the block is not locked (`gr_simple_correlator.cc:198-217`). -/
def unlocked (d : SimpleCorrelator φ) (x : φ) : SimpleCorrelator φ :=
  let d := d.shiftIn ops x
  let hammingDist := (grCountBits64 (d.shiftReg.get d.osi ^^^ grsfSync)).toNat
  if d.state = .looking ∧ hammingDist ≤ 3 then d.enterUnderThreshold
  else if d.state = .underThreshold ∧ hammingDist > 3 then d.enterLocked ops
  else d

/-- `d_osi = add_index (d_osi, 1)` (`gr_simple_correlator.cc:226`). -/
def next (d : SimpleCorrelator φ) : SimpleCorrelator φ := { d with osi := addIndex d.osi 1 }

/-- The body of the loop of `general_work` (`gr_simple_correlator.cc:165-228`): the next state, and
the payload when it returns. -/
def turn (d : SimpleCorrelator φ) (x : φ) : SimpleCorrelator φ × Option (List UInt8) :=
  match d.state with
  | .locked =>
    match d.locked ops x with
    | (d, some payload) => (d, some payload)
    | (d, none) => (d.next, none)
  | .looking | .underThreshold => ((d.unlocked ops x).next, none)

/-- What a call of `general_work` does: what it writes, consumes and returns. -/
structure Work (φ : Type) where
  correlator : SimpleCorrelator φ
  out : List UInt8
  consumed : Nat
  ret : Nat
  deriving DecidableEq

/-- The loop of `general_work` at sample `n`, with so many left. -/
def loop (input : Nat → φ) : Nat → Nat → SimpleCorrelator φ → Work φ
  | 0, n, d => ⟨d, [], n, 0⟩
  | left + 1, n, d =>
    match d.turn ops (input n) with
    | (d, some payload) => ⟨d, payload, n + 1, d.payloadBytesize⟩
    | (d, none) => loop input left (n + 1) d

/-- `general_work` (`gr_simple_correlator.cc:144-232`). It does not look at `noutput_items`. -/
def generalWork (d : SimpleCorrelator φ) (_noutputItems nin : Nat) (input : Nat → φ) : Work φ :=
  loop ops input nin 0 d

/-- The space of a call: so many items of input, and room for so many bytes. -/
structure Offer where
  nin : Nat
  noutputItems : Nat
  deriving DecidableEq, Repr

/-- The block on its stream, what it has consumed and put out. -/
structure Session (φ : Type) where
  correlator : SimpleCorrelator φ
  consumed : Nat
  out : List UInt8
  deriving DecidableEq

def Session.work (xs : Nat → φ) (s : Session φ) (offer : Offer) : Work φ :=
  s.correlator.generalWork ops offer.noutputItems offer.nin fun i => xs (s.consumed + i)

/-- One call of `general_work`. -/
def Session.call (xs : Nat → φ) (s : Session φ) (offer : Offer) : Session φ :=
  let w := s.work ops xs offer
  ⟨w.correlator, s.consumed + w.consumed, s.out ++ w.out⟩

/-- The session behind the calls with these offers. -/
def session (d : SimpleCorrelator φ) (xs : Nat → φ) (offers : List Offer) : Session φ :=
  offers.foldl (fun s offer => s.call ops xs offer) ⟨d, 0, []⟩

/-- A call stays within its space. -/
structure StaysInside (offer : Offer) (w : Work φ) : Prop where
  writes : w.out.length ≤ offer.noutputItems
  returns : w.ret ≤ offer.noutputItems
  consumes : w.consumed ≤ offer.nin

/-! ## The frames of a stream -/

/-- The decision about the bit `k` bits before sample `i`; a stream has zeros before it. -/
def heard (avg : φ) (xs : Nat → φ) (i k : Nat) : Bool :=
  decide (8 * k ≤ i) && ops.ge (xs (i - 8 * k)) avg

/-- The last 64 decisions at a sample differ from the synchronisation word in three at most. -/
def inSync (avg : φ) (xs : Nat → φ) (i : Nat) : Bool :=
  (List.range 64).countP (fun k => heard ops avg xs i k ^^ grsfSync.toNat.testBit k) ≤ 3

/-- The first sample that is in sync, and the first one behind it that is not. -/
def lock (avg : φ) (xs : Nat → φ) (n : Nat) : Option (Nat × Nat) := do
  let first ← (List.range n).find? (inSync ops avg xs)
  let last ← (List.range' first (n - first)).find? fun i => !inSync ops avg xs i
  some (first, last)

/-- The sample of the first bit: within the bit behind `last`, at the place that is three samples
later than halfway from `first` to `last`. -/
def firstBit (first last : Nat) : Nat :=
  last + 8 - (last + 8 - (first + (last - first) % 8 / 2 + 3)) % 8

/-- The sum of the last 512 samples, as it is accumulated. -/
def windowSum (xs : Nat → φ) : Nat → φ
  | 0 => ops.zero
  | n + 1 =>
    let leaves := if n < 512 then ops.zero else xs (n - 512)
    ops.add (ops.sub (windowSum xs n) leaves) (xs n)

/-- Byte `m` of a stream of bits, the first bit being its highest. -/
def byteAt (bits : Nat → Bool) (m : Nat) : UInt8 :=
  UInt8.ofNat (Nat.ofDigits 2 ((List.range 8).map fun k => (bits (8 * m + (7 - k))).toNat))

/-- A frame that was accepted: its payload, the average behind it, and how many samples it takes
with all that was skipped before it. -/
structure Frame (φ : Type) where
  payload : List UInt8
  avg : φ
  length : Nat

/-- The frame behind a lock: a number byte and the payload. -/
def frameAt (p : Nat) (xs : Nat → φ) (first last : Nat) : Frame φ :=
  let start := firstBit first last
  let avg := ops.clampedMean (windowSum ops xs (last + 1))
  { payload := (List.range p).map fun m =>
      byteAt (fun i => ops.ge (xs (start + 8 * i)) avg) (m + 1)
    avg := ops.half avg
    length := start + 8 * (8 * (p + 1) - 1) + 1 }

/-- The first frame within the first `n` samples. -/
def frame (p : Nat) (avg : φ) (xs : Nat → φ) (n : Nat) : Option (Frame φ) := do
  let (first, last) ← lock ops avg xs n
  let f := frameAt ops p xs first last
  if f.length ≤ n then some f else none

variable {f : Frame φ} {first last m : Nat}

theorem frame_length {p n : Nat} {avg : φ} {xs : Nat → φ} (found : frame ops p avg xs n = some f) :
    0 < f.length ∧ f.length ≤ n := by
  obtain ⟨lock, -, rest⟩ := Option.bind_eq_some_iff.mp found
  dsimp only at rest
  split at rest
  · rename_i fits
    cases rest
    exact ⟨Nat.succ_pos _, fits⟩
  · cases rest

/-- The payloads of the frames in the first `n` samples. -/
def frames (p : Nat) (avg : φ) (xs : Nat → φ) (n : Nat) : List (List UInt8) :=
  match found : frame ops p avg xs n with
  | none => []
  | some f =>
    have := frame_length ops found
    f.payload :: frames p f.avg (fun i => xs (f.length + i)) (n - f.length)
termination_by n

/-! ## Frames in longer prefixes -/

/-- A stream is in sync from `first` up to `last`, and not before. -/
structure Locks (avg : φ) (xs : Nat → φ) (first last : Nat) : Prop where
  before : ∀ i < first, inSync ops avg xs i = false
  within : ∀ i, first ≤ i → i < last → inSync ops avg xs i = true
  less : first < last
  ends : inSync ops avg xs last = false

variable {ops} {p : Nat} {avg : φ} {xs : Nat → φ}

theorem lock_eq_some {n : Nat} :
    lock ops avg xs n = some (first, last) ↔ Locks ops avg xs first last ∧ last < n := by
  unfold lock
  constructor
  · intro found
    obtain ⟨i, start, rest⟩ := Option.bind_eq_some_iff.mp found
    obtain ⟨j, stop, same⟩ := Option.bind_eq_some_iff.mp rest
    cases same
    obtain ⟨good, inside, before⟩ := List.find?_range_eq_some.mp start
    obtain ⟨bad, member, within⟩ := List.find?_range'_eq_some.mp stop
    have least := (List.mem_range'_1.mp member).1
    have most := (List.mem_range'_1.mp member).2
    have bad : inSync ops avg xs last = false := by simpa using bad
    refine ⟨⟨?_, ?_, ?_, bad⟩, by have := List.mem_range.mp inside; omega⟩
    · intro i less
      simpa using before i less
    · intro i low high
      simpa using within i low high
    · rcases Nat.lt_or_eq_of_le least with less | rfl
      · exact less
      · rw [good] at bad
        cases bad
  · rintro ⟨locks, inside⟩
    have start : (List.range n).find? (inSync ops avg xs) = some first := by
      refine List.find?_range_eq_some.mpr ⟨locks.within first (Nat.le_refl _) locks.less, ?_, ?_⟩
      · have := locks.less
        exact List.mem_range.mpr (by omega)
      · intro i less
        simp [locks.before i less]
    have stop : (List.range' first (n - first)).find? (fun i => !inSync ops avg xs i) =
        some last := by
      refine List.find?_range'_eq_some.mpr ⟨by simp [locks.ends], ?_, ?_⟩
      · have := locks.less
        exact List.mem_range'_1.mpr (by omega)
      · intro i low high
        simp [locks.within i low high]
    exact Option.bind_eq_some_iff.mpr
      ⟨first, start, Option.bind_eq_some_iff.mpr ⟨last, stop, rfl⟩⟩

theorem lock_eq_none_of_looking {n : Nat} (before : ∀ i < n, inSync ops avg xs i = false) :
    lock ops avg xs n = none := by
  cases found : lock ops avg xs n with
  | none => rfl
  | some pair =>
    obtain ⟨locks, inside⟩ := Iff.mp lock_eq_some found
    have good := locks.within pair.1 (Nat.le_refl _) locks.less
    have less := locks.less
    rw [before pair.1 (by omega)] at good
    cases good

theorem lock_eq_none_of_under {n : Nat} (before : ∀ i < first, inSync ops avg xs i = false)
    (within : ∀ i, first ≤ i → i < n → inSync ops avg xs i = true) : lock ops avg xs n = none := by
  cases found : lock ops avg xs n with
  | none => rfl
  | some pair =>
    obtain ⟨locks, inside⟩ := Iff.mp lock_eq_some found
    have good := locks.within pair.1 (Nat.le_refl _) locks.less
    have ends := locks.ends
    have less := locks.less
    by_cases early : pair.2 < first
    · rw [before pair.1 (by omega)] at good
      cases good
    · rw [within pair.2 (by omega) inside] at ends
      cases ends

theorem last_lt_firstBit (less : first < last) :
    last < firstBit first last ∧ firstBit first last ≤ last + 8 := by
  unfold firstBit
  omega

theorem firstBit_mod (less : first < last) :
    firstBit first last % 8 = (first + (last - first) % 8 / 2 + 3) % 8 := by
  have half : (last - first) % 8 / 2 ≤ last - first :=
    Nat.le_trans (Nat.div_le_self _ 2) (Nat.mod_le _ 8)
  unfold firstBit
  generalize (last - first) % 8 / 2 = delta at half ⊢
  omega

theorem frame_eq_some {n : Nat} :
    frame ops p avg xs n = some f ↔
      ∃ first last, Locks ops avg xs first last ∧ f = frameAt ops p xs first last ∧
        f.length ≤ n := by
  unfold frame
  constructor
  · intro found
    obtain ⟨pair, locked, rest⟩ := Option.bind_eq_some_iff.mp found
    dsimp only at rest
    split at rest
    · rename_i fits
      cases rest
      exact ⟨pair.1, pair.2, (Iff.mp lock_eq_some locked).1, rfl, fits⟩
    · cases rest
  · rintro ⟨first, last, locks, rfl, fits⟩
    have bound := last_lt_firstBit locks.less
    have inside : last < n := by
      dsimp only [frameAt] at fits
      omega
    exact Option.bind_eq_some_iff.mpr
      ⟨(first, last), Iff.mpr lock_eq_some ⟨locks, inside⟩, if_pos fits⟩

theorem frame_mono {n : Nat} (found : frame ops p avg xs n = some f) (more : n ≤ m) :
    frame ops p avg xs m = some f := by
  obtain ⟨first, last, locks, same, fits⟩ := Iff.mp frame_eq_some found
  exact Iff.mpr frame_eq_some ⟨first, last, locks, same, Nat.le_trans fits more⟩

theorem frames_eq_nil {n : Nat} (none : frame ops p avg xs n = none) :
    frames ops p avg xs n = [] := by
  rw [frames]
  split
  · rfl
  · rename_i f found
    rw [none] at found
    cases found

theorem frames_zero : frames ops p avg xs 0 = [] := by
  apply frames_eq_nil
  cases found : frame ops p avg xs 0 with
  | none => rfl
  | some f =>
    have bounds := frame_length ops found
    omega

theorem frames_eq_cons {n : Nat} (found : frame ops p avg xs n = some f) :
    frames ops p avg xs n =
      f.payload :: frames ops p f.avg (fun i => xs (f.length + i)) (n - f.length) := by
  rw [frames]
  split
  · rename_i none
    rw [none] at found
    cases found
  · rename_i g same
    obtain rfl := Option.some.inj (same.symm.trans found)
    rfl

theorem frames_mono {n : Nat} (more : n ≤ m) : frames ops p avg xs n <+: frames ops p avg xs m := by
  induction n using Nat.strong_induction_on generalizing m avg xs with
  | h n ih =>
    cases found : frame ops p avg xs n with
    | none =>
      rw [frames_eq_nil found]
      exact List.nil_prefix
    | some f =>
      have bounds := frame_length ops found
      rw [frames_eq_cons found, frames_eq_cons (frame_mono found more)]
      exact List.prefix_cons_inj _ |>.mpr (ih (n - f.length) (by omega) (by omega))

theorem length_of_mem_frames {n : Nat} {payload : List UInt8}
    (member : payload ∈ frames ops p avg xs n) : payload.length = p := by
  induction n using Nat.strong_induction_on generalizing avg xs with
  | h n ih =>
    cases found : frame ops p avg xs n with
    | none =>
      rw [frames_eq_nil found] at member
      cases member
    | some f =>
      have bounds := frame_length ops found
      rw [frames_eq_cons found] at member
      rcases List.mem_cons.mp member with rfl | later
      · obtain ⟨first, last, -, rfl, -⟩ := Iff.mp frame_eq_some found
        simp [frameAt]
      · exact ih (n - f.length) (by omega) later

/-! ## The block within a frame -/

theorem addIndex_val (a b : Fin 8) : (addIndex a b).val = (a.val + b.val) % 8 := by
  unfold addIndex
  dsimp only
  split <;> omega

theorem subIndex_val (a b : Fin 8) : (subIndex a b).val = (a.val + 8 - b.val) % 8 := by
  unfold subIndex
  dsimp only
  split <;> omega

/-- What the constructor sets once and for all. -/
structure Configured (p : Nat) (d : SimpleCorrelator φ) : Prop where
  payloadBytesize : d.payloadBytesize = p
  bblen : d.bblen = 8 * (p + 1)
  bitbuf : d.bitbuf.length = d.bblen

/-- The registers and the accumulators behind `n` samples, while the block is not locked. -/
structure Listening (ops : FloatOps φ) (avg : φ) (xs : Nat → φ) (n : Nat)
    (d : SimpleCorrelator φ) : Prop where
  average : d.avg = avg
  osi : d.osi.val = n % 8
  shiftReg : ∀ i, n ≤ i → i < n + 8 → ∀ phase : Fin 8, phase.val = i % 8 → ∀ k < 63,
    (d.shiftReg.get phase).toNat.testBit k = heard ops avg xs i (k + 1)
  avbi : d.avbi.val = n % 512
  avgbuf : ∀ i, n ≤ i → i < n + 512 → ∀ place : Fin 512, place.val = i % 512 →
    d.avgbuf.get place = if i < 512 then ops.zero else xs (i - 512)
  accum : d.accum = windowSum ops xs n

/-- The block behind `n` samples of a frame that is not complete. -/
inductive InFrame (ops : FloatOps φ) (avg : φ) (xs : Nat → φ) (n : Nat) (d : SimpleCorrelator φ) :
    Prop where
  | looking (listening : Listening ops avg xs n d) (state : d.state = .looking)
      (before : ∀ i < n, inSync ops avg xs i = false)
  | underThreshold (first : Nat) (listening : Listening ops avg xs n d)
      (state : d.state = .underThreshold) (less : first < n)
      (transition : d.transitionOsi.val = first % 8)
      (before : ∀ i < first, inSync ops avg xs i = false)
      (within : ∀ i, first ≤ i → i < n → inSync ops avg xs i = true)
  | locked (first last : Nat) (state : d.state = .locked) (locks : Locks ops avg xs first last)
      (less : last < n) (osi : d.osi.val = n % 8)
      (center : d.centerOsi.val = firstBit first last % 8)
      (average : d.avg = ops.clampedMean (windowSum ops xs (last + 1)))
      (least : n ≤ firstBit first last + 8 * d.bbi)
      (most : firstBit first last + 8 * d.bbi < n + 8) (room : d.bbi < d.bblen)
      (bits : ∀ i < d.bbi,
        d.bitbuf.getD i 0 = if ops.ge (xs (firstBit first last + 8 * i)) d.avg then 1 else 0)

variable {d : SimpleCorrelator φ} {n : Nat}

theorem inFrame_enterLooking (d : SimpleCorrelator φ) (xs : Nat → φ)
    (average : ops.half d.avg = avg) : InFrame ops avg xs 0 (d.enterLooking ops) := by
  refine .looking ⟨average, rfl, ?_, rfl, ?_, rfl⟩ rfl (by intro i less; cases less)
  · intro i _ below phase _ k _
    have empty : ((d.enterLooking ops).shiftReg.get phase) = 0 := by
      simp [enterLooking, Vector.get]
    have early : ¬8 * (k + 1) ≤ i := by omega
    rw [empty, heard, decide_eq_false early]
    exact Nat.zero_testBit k
  · intro i _ below place _
    have early : i < 512 := by omega
    rw [if_pos early]
    simp [enterLooking, Vector.get]

theorem Configured.enterLooking (configured : Configured p d) :
    Configured p (d.enterLooking ops) :=
  ⟨configured.payloadBytesize, configured.bblen, configured.bitbuf⟩

theorem testBit_enter {r : UInt64} {decision : Bool} {i k : Nat} (fits : k < 64)
    (past : ∀ k < 63, r.toNat.testBit k = heard ops avg xs i (k + 1))
    (same : decision = ops.ge (xs i) avg) :
    ((r <<< 1) ||| UInt8.toUInt64 (if decision then 1 else 0)).toNat.testBit k =
      heard ops avg xs i k := by
  have one : (1 : UInt64).toNat % 64 = 1 := rfl
  have bit : (UInt8.toUInt64 (if decision then 1 else 0)).toNat = decision.toNat := by
    cases decision <;> rfl
  rw [UInt64.toNat_or, UInt64.toNat_shiftLeft, one, bit, Nat.testBit_or, Nat.testBit_mod_two_pow,
    Nat.testBit_shiftLeft, decide_eq_true fits, Bool.true_and]
  cases k with
  | zero => cases decision <;> simp [heard, ← same]
  | succ k =>
    rw [Nat.add_sub_cancel, past k (by omega)]
    have none : decision.toNat.testBit (k + 1) = false := by
      cases decision <;> simp [Nat.testBit_succ]
    simp [none]

theorem heard_succ (i k : Nat) : heard ops avg xs (i + 8) (k + 1) = heard ops avg xs i k := by
  have later : (8 * (k + 1) ≤ i + 8) = (8 * k ≤ i) := by
    rw [eq_iff_iff]
    omega
  have place : i + 8 - 8 * (k + 1) = i - 8 * k := by omega
  unfold heard
  simp only [later, place]

theorem vector_get_set {α : Type} (v : Vector α m) (place i : Fin m) (x : α) :
    (v.set place.val x place.isLt).get i = if place.val = i.val then x else v.get i := by
  exact Vector.getElem_set place.isLt i.isLt

theorem Listening.enter (listening : Listening ops avg xs n d) {e : SimpleCorrelator φ}
    (average : e.avg = d.avg) (shiftReg : e.shiftReg = (d.shiftIn ops (xs n)).shiftReg)
    (avgbuf : e.avgbuf = (d.shiftIn ops (xs n)).avgbuf)
    (avbi : e.avbi = (d.shiftIn ops (xs n)).avbi) (accum : e.accum = (d.shiftIn ops (xs n)).accum)
    (osi : e.osi = addIndex d.osi 1) : Listening ops avg xs (n + 1) e := by
  refine ⟨average.trans listening.average, ?_, ?_, ?_, ?_, ?_⟩
  · have one : (1 : Fin 8).val = 1 := rfl
    rw [osi, addIndex_val, listening.osi, one]
    omega
  · intro i low high phase same k fits
    have here := listening.osi
    rw [shiftReg]
    have entering := vector_get_set d.shiftReg d.osi phase
      ((d.shiftReg.get d.osi <<< 1) ||| (d.slice ops (xs n)).toUInt64)
    refine (congrArg (fun r : UInt64 => r.toNat.testBit k) entering).trans ?_
    by_cases entered : d.osi.val = phase.val
    · obtain rfl : i = n + 8 := by omega
      rw [if_pos entered, heard_succ]
      exact testBit_enter (Nat.lt_succ_of_lt fits)
        (listening.shiftReg n (Nat.le_refl _) (by omega) d.osi here)
        (congrArg (ops.ge (xs n)) listening.average)
    · rw [if_neg entered]
      exact listening.shiftReg i (by omega) (by omega) phase same k fits
  · rw [avbi]
    refine (Nat.and_two_pow_sub_one_eq_mod _ 9).trans ?_
    rw [listening.avbi]
    omega
  · intro i low high place same
    have here := listening.avbi
    rw [avgbuf]
    refine (vector_get_set _ d.avbi place _).trans ?_
    by_cases entered : d.avbi.val = place.val
    · obtain rfl : i = n + 512 := by omega
      rw [if_pos entered, if_neg (by omega), Nat.add_sub_cancel]
    · rw [if_neg entered]
      exact listening.avgbuf i (by omega) (by omega) place same
  · have leaves := listening.avgbuf n (Nat.le_refl _) (by omega) d.avbi listening.avbi
    rw [accum, windowSum, ← leaves, ← listening.accum]
    rfl

theorem hammingDist_le (listening : Listening ops avg xs n d) :
    (grCountBits64 ((d.shiftIn ops (xs n)).shiftReg.get d.osi ^^^ grsfSync)).toNat ≤ 3 ↔
      inSync ops avg xs n = true := by
  have entered := vector_get_set d.shiftReg d.osi d.osi
    ((d.shiftReg.get d.osi <<< 1) ||| (d.slice ops (xs n)).toUInt64)
  rw [if_pos rfl] at entered
  have same : (d.shiftIn ops (xs n)).shiftReg.get d.osi =
      (d.shiftReg.get d.osi <<< 1) ||| (d.slice ops (xs n)).toUInt64 := entered
  rw [same, toNat_grCountBits64, inSync, decide_eq_true_iff]
  generalize entered : (d.shiftReg.get d.osi <<< 1) ||| (d.slice ops (xs n)).toUInt64 = r
  have places : ∀ k ∈ List.range 64, (r ^^^ grsfSync).toNat.testBit k = true ↔
      (heard ops avg xs n k ^^ grsfSync.toNat.testBit k) = true := by
    intro k member
    rw [← entered]
    have shown := testBit_enter (List.mem_range.mp member)
      (listening.shiftReg n (Nat.le_refl _) (by omega) d.osi listening.osi)
      (congrArg (ops.ge (xs n)) listening.average)
    rw [UInt64.toNat_xor, Nat.testBit_xor, ← shown]
    rfl
  rw [List.countP_congr places]

theorem inFrame_enterLocked (configured : Configured p d) (osi : d.osi.val = n % 8)
    (accum : d.accum = windowSum ops xs (n + 1)) (transition : d.transitionOsi.val = first % 8)
    (locks : Locks ops avg xs first n) : InFrame ops avg xs (n + 1) (d.enterLocked ops).next := by
  have less := locks.less
  have bounds := last_lt_firstBit less
  have delta : (subIndex d.osi d.transitionOsi).val = (n - first) % 8 := by
    rw [subIndex_val, osi, transition]
    omega
  have three : (3 : Fin 8).val = 3 := rfl
  have one : (1 : Fin 8).val = 1 := rfl
  refine .locked first n rfl locks (Nat.lt_succ_self n) ?_ ?_ ?_ ?_ ?_ ?_ ?_
  · refine (addIndex_val _ _).trans ?_
    rw [one]
    change (d.osi.val + 1) % 8 = _
    omega
  · refine (addIndex_val _ _).trans ?_
    rw [addIndex_val, three, transition, firstBit_mod less]
    dsimp only
    rw [delta]
    generalize (n - first) % 8 / 2 = half
    omega
  · exact congrArg ops.clampedMean accum
  · change n + 1 ≤ firstBit first n + 8 * 0
    omega
  · change firstBit first n + 8 * 0 < n + 1 + 8
    omega
  · change 0 < d.bblen
    rw [configured.bblen]
    omega
  · intro i none
    cases none

theorem InFrame.unlocked (inFrame : InFrame ops avg xs n d) (configured : Configured p d)
    (state : d.state ≠ .locked) :
    InFrame ops avg xs (n + 1) (d.unlocked ops (xs n)).next ∧
      Configured p (d.unlocked ops (xs n)).next := by
  cases inFrame with
  | looking listening here before =>
    have close := hammingDist_le listening
    have kept : (d.shiftIn ops (xs n)).state = .looking := here
    by_cases good : inSync ops avg xs n = true
    · have step : d.unlocked ops (xs n) = (d.shiftIn ops (xs n)).enterUnderThreshold :=
        if_pos ⟨kept, close.mpr good⟩
      rw [step]
      refine ⟨.underThreshold n (listening.enter rfl rfl rfl rfl rfl rfl) rfl (Nat.lt_succ_self n)
        listening.osi before ?_, ⟨configured.1, configured.2, configured.3⟩⟩
      intro i low high
      obtain rfl : i = n := by omega
      exact good
    · have step : d.unlocked ops (xs n) = d.shiftIn ops (xs n) := by
        refine (if_neg (fun met => good (close.mp met.2))).trans (if_neg (fun met => ?_))
        rw [kept] at met
        cases met.1
      rw [step]
      refine ⟨.looking (listening.enter rfl rfl rfl rfl rfl rfl) here ?_,
        ⟨configured.1, configured.2, configured.3⟩⟩
      intro i less
      rcases Nat.lt_or_eq_of_le (Nat.le_of_lt_succ less) with earlier | rfl
      · exact before i earlier
      · exact Bool.eq_false_iff.mpr good
  | underThreshold first listening here less transition before within =>
    have close := hammingDist_le listening
    have kept : (d.shiftIn ops (xs n)).state = .underThreshold := here
    have notLooking : ¬((d.shiftIn ops (xs n)).state = .looking ∧
        (grCountBits64 ((d.shiftIn ops (xs n)).shiftReg.get d.osi ^^^ grsfSync)).toNat ≤ 3) := by
      intro met
      rw [kept] at met
      cases met.1
    by_cases good : inSync ops avg xs n = true
    · have step : d.unlocked ops (xs n) = d.shiftIn ops (xs n) :=
        (if_neg notLooking).trans
          (if_neg (fun met => Nat.not_lt.mpr (close.mpr good) met.2))
      rw [step]
      refine ⟨.underThreshold first (listening.enter rfl rfl rfl rfl rfl rfl) here (by omega)
        transition before ?_, ⟨configured.1, configured.2, configured.3⟩⟩
      intro i low high
      rcases Nat.lt_or_eq_of_le (Nat.le_of_lt_succ high) with earlier | rfl
      · exact within i low earlier
      · exact good
    · have step : d.unlocked ops (xs n) = (d.shiftIn ops (xs n)).enterLocked ops :=
        (if_neg notLooking).trans
          (if_pos ⟨kept, Nat.lt_of_not_le (fun near => good (close.mp near))⟩)
      rw [step]
      have entered : Listening ops avg xs (n + 1) (d.shiftIn ops (xs n)).next :=
        listening.enter rfl rfl rfl rfl rfl rfl
      have shifted : Configured p (d.shiftIn ops (xs n)) :=
        ⟨configured.1, configured.2, configured.3⟩
      exact ⟨inFrame_enterLocked shifted listening.osi entered.accum transition
        ⟨before, within, less, Bool.eq_false_iff.mpr good⟩,
        ⟨configured.1, configured.2, configured.3⟩⟩
  | locked first last here => exact absurd here state

/-! ## The end of a frame -/

theorem pack_bits (b₀ b₁ b₂ b₃ b₄ b₅ b₆ b₇ : Bool) :
    (let bit (b : Bool) : UInt8 := (if b then 1 else 0) &&& 0x1
    let t := bit b₀
    let t := (t <<< 1) ||| bit b₁
    let t := (t <<< 1) ||| bit b₂
    let t := (t <<< 1) ||| bit b₃
    let t := (t <<< 1) ||| bit b₄
    let t := (t <<< 1) ||| bit b₅
    let t := (t <<< 1) ||| bit b₆
    (t <<< 1) ||| bit b₇) =
      UInt8.ofNat (Nat.ofDigits 2 ([b₇, b₆, b₅, b₄, b₃, b₂, b₁, b₀].map Bool.toNat)) := by
  revert b₀ b₁ b₂ b₃ b₄ b₅ b₆ b₇
  decide +kernel

theorem packit_payload {bitbuf : List UInt8} {bits : Nat → Bool}
    (taken : ∀ i < 8 * (p + 1), bitbuf.getD i 0 = if bits i then 1 else 0) :
    ((packit bitbuf (8 * (p + 1))).drop 1).take p =
      (List.range p).map fun m => byteAt bits (m + 1) := by
  have count : (8 * (p + 1) + 7) / 8 = p + 1 := by omega
  have size : ((packit bitbuf (8 * (p + 1))).drop 1).length = p := by
    simp [packit, count]
  rw [List.take_of_length_le (Nat.le_of_eq size)]
  apply List.ext_getElem
  · rw [size, List.length_map, List.length_range]
  · intro m inside _
    have below : m < p := by rwa [size] at inside
    have packed := pack_bits (bits (8 * (m + 1) + 0)) (bits (8 * (m + 1) + 1))
      (bits (8 * (m + 1) + 2)) (bits (8 * (m + 1) + 3)) (bits (8 * (m + 1) + 4))
      (bits (8 * (m + 1) + 5)) (bits (8 * (m + 1) + 6)) (bits (8 * (m + 1) + 7))
    simp only [packit, List.getElem_drop, List.getElem_map, List.getElem_range, Nat.add_comm 1 m]
    rw [taken _ (by omega), taken _ (by omega), taken _ (by omega), taken _ (by omega),
      taken _ (by omega), taken _ (by omega), taken _ (by omega), taken _ (by omega)]
    exact packed

theorem InFrame.frame_eq_none (inFrame : InFrame ops avg xs n d) (configured : Configured p d) :
    frame ops p avg xs n = none := by
  cases inFrame with
  | looking listening here before => rw [frame, lock_eq_none_of_looking before]; rfl
  | underThreshold first listening here less transition before within =>
    rw [frame, lock_eq_none_of_under before within]
    rfl
  | locked first last here locks less osi center average least most room bits =>
    rw [frame, Iff.mpr lock_eq_some ⟨locks, less⟩]
    rw [configured.bblen] at room
    refine if_neg (fun fits => ?_)
    have length : (frameAt ops p xs first last).length =
      firstBit first last + 8 * (8 * (p + 1) - 1) + 1 := rfl
    omega

theorem InFrame.locked_cases (inFrame : InFrame ops avg xs n d) (configured : Configured p d)
    (state : d.state = .locked) :
    (∃ e, d.locked ops (xs n) = (e, none) ∧ InFrame ops avg xs (n + 1) e.next ∧
      Configured p e.next) ∨
    ∃ e f, d.locked ops (xs n) = (e, some f.payload) ∧ frame ops p avg xs (n + 1) = some f ∧
      f.length = n + 1 ∧ (∀ zs, InFrame ops f.avg zs 0 e) ∧ Configured p e := by
  cases inFrame with
  | looking listening here => rw [here] at state; cases state
  | underThreshold first listening here => rw [here] at state; cases state
  | locked first last here locks less osi center average least most room bits =>
    have moved : (addIndex d.osi 1).val = (n + 1) % 8 := by
      have one : (1 : Fin 8).val = 1 := rfl
      rw [addIndex_val, osi, one]
      omega
    by_cases bit : d.osi = d.centerOsi
    · have same := congrArg Fin.val bit
      have place : n = firstBit first last + 8 * d.bbi := by
        rw [osi, center] at same
        omega
      have fits : d.bbi < d.bitbuf.length := configured.bitbuf ▸ room
      have taken : ∀ i < d.bbi + 1, (d.takeBit (d.slice ops (xs n))).bitbuf.getD i 0 =
          if ops.ge (xs (firstBit first last + 8 * i)) d.avg then 1 else 0 := by
        intro i below
        rcases Nat.lt_or_eq_of_le (Nat.le_of_lt_succ below) with earlier | rfl
        · rw [← bits i earlier]
          simp [takeBit, List.getD_eq_getElem?_getD, List.getElem?_set_ne (Nat.ne_of_gt earlier)]
        · rw [← place]
          simp [takeBit, List.getD_eq_getElem?_getD, fits, slice]
      have stored : Configured p (d.takeBit (d.slice ops (xs n))) :=
        ⟨configured.payloadBytesize, configured.bblen,
          (List.length_set ..).trans configured.bitbuf⟩
      by_cases full : d.bbi + 1 ≥ d.bblen
      · right
        have bblen := configured.bblen
        have count : d.bbi + 1 = 8 * (p + 1) := by omega
        have length : (frameAt ops p xs first last).length = n + 1 := by
          change firstBit first last + 8 * (8 * (p + 1) - 1) + 1 = n + 1
          omega
        have payload : (frameAt ops p xs first last).payload =
            ((packit (d.takeBit (d.slice ops (xs n))).bitbuf (d.bbi + 1)).drop 1).take p := by
          rw [count] at taken ⊢
          rw [packit_payload taken, average]
          rfl
        have again : (frameAt ops p xs first last).avg = ops.half d.avg :=
          congrArg ops.half average.symm
        refine ⟨(d.takeBit (d.slice ops (xs n))).enterLooking ops, frameAt ops p xs first last,
          ?_, Iff.mpr frame_eq_some ⟨first, last, locks, rfl, Nat.le_of_eq length⟩, length, ?_,
          stored.enterLooking⟩
        · rw [payload, ← configured.payloadBytesize]
          exact (if_pos bit).trans (if_pos full)
        · intro zs
          exact inFrame_enterLooking (d.takeBit (d.slice ops (xs n))) zs again.symm
      · left
        refine ⟨d.takeBit (d.slice ops (xs n)), (if_pos bit).trans (if_neg full), ?_,
          ⟨stored.1, stored.2, stored.3⟩⟩
        refine .locked first last here locks (by omega) moved center average ?_ ?_
          (Nat.lt_of_not_le full) taken
        · change n + 1 ≤ firstBit first last + 8 * (d.bbi + 1)
          omega
        · change firstBit first last + 8 * (d.bbi + 1) < n + 1 + 8
          omega
    · left
      have other : d.osi.val ≠ d.centerOsi.val := fun same => bit (Fin.ext same)
      rw [osi, center] at other
      refine ⟨d, if_neg bit, ?_, ⟨configured.1, configured.2, configured.3⟩⟩
      refine .locked first last here locks (by omega) moved center average ?_ ?_ room bits
      · change n + 1 ≤ firstBit first last + 8 * d.bbi
        omega
      · change firstBit first last + 8 * d.bbi < n + 1 + 8
        omega

theorem InFrame.turn (inFrame : InFrame ops avg xs n d) (configured : Configured p d) :
    (∃ e, d.turn ops (xs n) = (e, none) ∧ InFrame ops avg xs (n + 1) e ∧ Configured p e) ∨
    ∃ e f, d.turn ops (xs n) = (e, some f.payload) ∧ frame ops p avg xs (n + 1) = some f ∧
      f.length = n + 1 ∧ (∀ zs, InFrame ops f.avg zs 0 e) ∧ Configured p e := by
  cases state : d.state with
  | looking =>
    obtain ⟨kept, still⟩ := inFrame.unlocked configured (by rw [state]; decide)
    exact Or.inl ⟨_, by rw [SimpleCorrelator.turn, state], kept, still⟩
  | underThreshold =>
    obtain ⟨kept, still⟩ := inFrame.unlocked configured (by rw [state]; decide)
    exact Or.inl ⟨_, by rw [SimpleCorrelator.turn, state], kept, still⟩
  | locked =>
    rcases inFrame.locked_cases configured state with ⟨e, step, kept, still⟩ |
      ⟨e, f, step, found, length, afresh, still⟩
    · refine Or.inl ⟨e.next, ?_, kept, still⟩
      rw [SimpleCorrelator.turn, state]
      dsimp only
      rw [step]
    · refine Or.inr ⟨e, f, ?_, found, length, afresh, still⟩
      rw [SimpleCorrelator.turn, state]
      dsimp only
      rw [step]

/-! ## The block on its stream -/

/-- The block behind `n` samples of a stream: it is within the frame that the frames behind it
start at. -/
def Follows (ops : FloatOps φ) (p : Nat) (avg : φ) (xs : Nat → φ) (n : Nat)
    (d : SimpleCorrelator φ) : Prop :=
  ∃ start here, start ≤ n ∧ InFrame ops here (fun i => xs (start + i)) (n - start) d ∧
    Configured p d ∧ ∃ past, ∀ m, start ≤ m →
      frames ops p avg xs m = past ++ frames ops p here (fun i => xs (start + i)) (m - start)

theorem Follows.turn (follows : Follows ops p avg xs n d) :
    (∃ e, d.turn ops (xs n) = (e, none) ∧ Follows ops p avg xs (n + 1) e ∧
      frames ops p avg xs (n + 1) = frames ops p avg xs n) ∨
    ∃ e payload, d.turn ops (xs n) = (e, some payload) ∧ Follows ops p avg xs (n + 1) e ∧
      frames ops p avg xs (n + 1) = frames ops p avg xs n ++ [payload] ∧ payload.length = p ∧
      e.payloadBytesize = p := by
  obtain ⟨start, here, inside, inFrame, configured, past, before⟩ := follows
  have place : start + (n - start) = n := Nat.add_sub_cancel' inside
  have count : n + 1 - start = n - start + 1 := by omega
  have now : frames ops p avg xs n = past := by
    rw [before n inside, frames_eq_nil (inFrame.frame_eq_none configured), List.append_nil]
  rcases inFrame.turn configured with ⟨e, step, kept, still⟩ |
    ⟨e, f, step, found, length, afresh, still⟩
  · left
    rw [place] at step
    refine ⟨e, step, ⟨start, here, by omega, by rwa [count], still, past, before⟩, ?_⟩
    rw [now, before (n + 1) (by omega), count, frames_eq_nil (kept.frame_eq_none still),
      List.append_nil]
  · right
    rw [place] at step
    have ends : ∀ m, n + 1 ≤ m → frames ops p avg xs m = (past ++ [f.payload]) ++
        frames ops p f.avg (fun i => xs (n + 1 + i)) (m - (n + 1)) := by
      intro m later
      have rest : m - start - f.length = m - (n + 1) := by omega
      have shift : (fun i => xs (start + (f.length + i))) = fun i => xs (n + 1 + i) := by
        funext i
        congr 1
        omega
      rw [before m (by omega), frames_eq_cons (frame_mono found (by omega)), rest, shift,
        List.append_assoc, List.singleton_append]
    refine ⟨e, f.payload, step, ⟨n + 1, f.avg, Nat.le_refl _, ?_, still, _, ends⟩, ?_, ?_,
      still.payloadBytesize⟩
    · rw [Nat.sub_self]
      exact afresh _
    · rw [ends (n + 1) (Nat.le_refl _), now, Nat.sub_self,
        frames_eq_nil ((afresh _).frame_eq_none still), List.append_nil]
    · have member : f.payload ∈ frames ops p here (fun i => xs (start + i)) (n - start + 1) := by
        rw [frames_eq_cons found]
        exact List.mem_cons_self
      exact length_of_mem_frames member

theorem follows_construct (ok : construct ops p = .ok d) (xs : Nat → φ) :
    Follows ops p (ops.half ops.zero) xs 0 d := by
  obtain ⟨bblen, fits, rest⟩ := bind_ok.mp ok
  obtain ⟨rfl, -, -⟩ := asInt_ok fits
  obtain rfl := pure_ok.mp rest
  refine ⟨0, ops.half ops.zero, Nat.le_refl 0, inFrame_enterLooking _ _ rfl, ⟨rfl, ?_, ?_⟩, [], ?_⟩
  · exact Nat.mul_comm _ _
  · exact List.length_replicate
  · intro m _
    simp

theorem Follows.loop {start : Nat} {input : Nat → φ} (same : ∀ i, input i = xs (start + i))
    (left n : Nat) (follows : Follows ops p avg xs (start + n) d) :
    ∃ w, SimpleCorrelator.loop ops input left n d = w ∧
      Follows ops p avg xs (start + w.consumed) w.correlator ∧ w.consumed ≤ n + left ∧
      ((w.consumed = n + left ∧ w.out = [] ∧ w.ret = 0 ∧
        frames ops p avg xs (start + w.consumed) = frames ops p avg xs (start + n)) ∨
      ∃ payload, w.out = payload ∧ payload.length = p ∧ w.ret = p ∧
        frames ops p avg xs (start + w.consumed) =
          frames ops p avg xs (start + n) ++ [payload]) := by
  induction left generalizing n d with
  | zero =>
    exact ⟨_, rfl, follows, Nat.le_refl _, Or.inl ⟨rfl, rfl, rfl, rfl⟩⟩
  | succ left ih =>
    rw [SimpleCorrelator.loop, same]
    rcases follows.turn with ⟨e, step, kept, frames_eq⟩ |
      ⟨e, payload, step, kept, frames_eq, length, size⟩
    · rw [step]
      dsimp only
      obtain ⟨w, looped, follows, within, ends⟩ := ih (n + 1) kept
      refine ⟨w, looped, follows, by omega, ?_⟩
      rw [← frames_eq]
      have count : n + 1 + left = n + (left + 1) := by omega
      rwa [count] at ends
    · rw [step]
      exact ⟨_, rfl, kept, by dsimp only; omega, Or.inr ⟨payload, rfl, length, size, frames_eq⟩⟩

/-- Whether a frame ends among the next samples that a call is offered. -/
def FrameEnds (ops : FloatOps φ) (p : Nat) (xs : Nat → φ) (consumed nin : Nat) : Prop :=
  (frames ops p (ops.half ops.zero) xs consumed).length <
    (frames ops p (ops.half ops.zero) xs (consumed + nin)).length

/-- What is known of a session: the block follows its stream, and the payloads have come out. -/
structure Delivered (ops : FloatOps φ) (p : Nat) (xs : Nat → φ) (s : Session φ) : Prop where
  follows : Follows ops p (ops.half ops.zero) xs s.consumed s.correlator
  out : s.out = (frames ops p (ops.half ops.zero) xs s.consumed).flatten

theorem Delivered.call {s : Session φ} (delivered : Delivered ops p xs s) (offer : Offer) :
    Delivered ops p xs (s.call ops xs offer) ∧
      (StaysInside offer (s.work ops xs offer) ↔
        (FrameEnds ops p xs s.consumed offer.nin → p ≤ offer.noutputItems)) := by
  obtain ⟨w, looped, follows, within, ends⟩ :=
    Follows.loop (fun i => rfl) offer.nin 0 delivered.follows
  rw [Nat.zero_add] at within ends
  rw [Nat.add_zero] at ends
  have work : s.work ops xs offer = w := looped
  rw [Session.call, work]
  rcases ends with ⟨all, out, ret, frames_eq⟩ | ⟨payload, out, length, ret, frames_eq⟩
  · refine ⟨⟨follows, ?_⟩, ?_⟩
    · dsimp only
      rw [frames_eq, out, List.append_nil, delivered.out]
    · constructor
      · intro _ frameEnds
        rw [FrameEnds, ← all, frames_eq] at frameEnds
        exact absurd frameEnds (Nat.lt_irrefl _)
      · intro _
        exact ⟨by rw [out]; exact Nat.zero_le _, by rw [ret]; exact Nat.zero_le _, within⟩
  · refine ⟨⟨follows, ?_⟩, ?_⟩
    · dsimp only
      rw [frames_eq, out, List.flatten_append, List.flatten_singleton, delivered.out]
    · have more : (frames ops p (ops.half ops.zero) xs (s.consumed + w.consumed)).length ≤
          (frames ops p (ops.half ops.zero) xs (s.consumed + offer.nin)).length :=
        (frames_mono (Nat.add_le_add_left within s.consumed)).length_le
      rw [frames_eq, List.length_append, List.length_singleton] at more
      constructor
      · intro inside _
        exact ret ▸ inside.returns
      · intro room
        have fits := room more
        exact ⟨by rw [out, length]; exact fits, by rw [ret]; exact fits, within⟩

theorem session_append (d : SimpleCorrelator φ) (xs : Nat → φ) (offers : List Offer)
    (offer : Offer) :
    session ops d xs (offers ++ [offer]) = (session ops d xs offers).call ops xs offer := by
  rw [session, List.foldl_append]
  rfl

theorem delivered_session (ok : construct ops p = .ok d) (xs : Nat → φ) (offers : List Offer) :
    Delivered ops p xs (session ops d xs offers) := by
  induction offers using List.reverseRecOn with
  | nil =>
    refine ⟨follows_construct ok xs, ?_⟩
    change [] = (frames ops p (ops.half ops.zero) xs 0).flatten
    rw [frames_zero]
    rfl
  | append_singleton offers offer ih =>
    rw [session_append]
    exact (ih.call offer).1

/-- **Every call of a run stays within its space, and the payloads come out, just when no frame
ends in a call with less room than a payload.** -/
theorem delivers_payloads_iff {d : SimpleCorrelator φ} (ok : construct ops p = .ok d) (xs : Nat → φ)
    (offers : List Offer) :
    ((∀ before offer after, offers = before ++ offer :: after →
        StaysInside offer ((session ops d xs before).work ops xs offer)) ∧
      (∀ payload ∈ frames ops p (ops.half ops.zero) xs (session ops d xs offers).consumed,
        payload.length = p) ∧
      (session ops d xs offers).out =
        (frames ops p (ops.half ops.zero) xs (session ops d xs offers).consumed).flatten) ↔
    ∀ before offer after, offers = before ++ offer :: after →
      FrameEnds ops p xs (session ops d xs before).consumed offer.nin → p ≤ offer.noutputItems := by
  constructor
  · rintro ⟨inside, -, -⟩ before offer after split
    exact ((delivered_session ok xs before).call offer).2.mp (inside before offer after split)
  · intro room
    have delivered := delivered_session ok xs offers
    refine ⟨?_, fun payload member => length_of_mem_frames member, delivered.out⟩
    intro before offer after split
    exact ((delivered_session ok xs before).call offer).2.mpr (room before offer after split)

/-! ## A frame of two bytes -/

/-- Numbers in units of 1/1024. -/
def fixedPoint : FloatOps Int where
  zero := 0
  add := (· + ·)
  sub := (· - ·)
  ge x avg := decide (avg ≤ x)
  half x := x / 2
  clampedMean x := max (-1024) (min 1024 (x / 512))

/-- The synchronisation word in the first phase, -1 in the others, and a frame behind it. -/
def framedSamples (i : Nat) : Int :=
  if i < 512 then if i % 8 = 0 ∧ grsfSync.toNat.testBit (63 - i / 8) then 1024 else -1024
  else if i % 3 = 0 then 1024 else -1024

/-- The frame in two calls. -/
def frameCalls (room : Nat) : List Offer := [⟨300, room⟩, ⟨400, room⟩]

/-- The block for payloads of two bytes, and its session. -/
def frameSession (room : Nat) : Session Int :=
  session fixedPoint (initial fixedPoint 2 24) framedSamples (frameCalls room)

/-- Two calls with room for the payload, which comes out. -/
theorem delivers_two_bytes :
    (frameSession 2).out.length = 2 ∧ (frameSession 2).out =
      (frames fixedPoint 2 (fixedPoint.half fixedPoint.zero) framedSamples
        (frameSession 2).consumed).flatten := by
  have made : construct fixedPoint 2 = .ok (initial fixedPoint 2 24) := rfl
  have room : ∀ before offer after, frameCalls 2 = before ++ offer :: after →
      FrameEnds fixedPoint 2 framedSamples
        (session fixedPoint (initial fixedPoint 2 24) framedSamples before).consumed offer.nin →
      2 ≤ offer.noutputItems := by
    intro before offer after split _
    have member : offer ∈ frameCalls 2 := by
      rw [split]
      exact List.mem_append_right before List.mem_cons_self
    rcases List.mem_cons.mp member with rfl | member
    · decide
    · rw [List.mem_singleton.mp member]
  exact ⟨by decide +kernel, ((delivers_payloads_iff made framedSamples _).mpr room).2.2⟩

/-- The same calls with room for one byte: two are written and returned. -/
theorem returns_beyond_space :
    construct fixedPoint 2 = .ok (initial fixedPoint 2 24) ∧
    ¬∀ before offer after, frameCalls 1 = before ++ offer :: after →
      StaysInside offer ((session fixedPoint (initial fixedPoint 2 24) framedSamples before).work
        fixedPoint framedSamples offer) := by
  refine ⟨rfl, fun inside => ?_⟩
  have ret : ((session fixedPoint (initial fixedPoint 2 24) framedSamples [⟨300, 1⟩]).work
      fixedPoint framedSamples ⟨400, 1⟩).ret = 2 := by decide +kernel
  have bound := (inside [⟨300, 1⟩] ⟨400, 1⟩ [] rfl).returns
  rw [ret] at bound
  exact absurd bound (by decide)

end SimpleCorrelator

end GnuRadio
