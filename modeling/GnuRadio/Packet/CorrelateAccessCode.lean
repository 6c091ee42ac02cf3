import GnuRadio.Misc.BitWindow
import GnuRadio.Misc.Mealy
import GnuRadio.Packet.CountBits
import GnuRadio.Runtime.Types

/-!
# Correlation with an access code

`gr_correlate_access_code_bb` delays a stream of bits by 64 and marks the first bit behind each
place where an access code was seen with few wrong bits.
-/

namespace GnuRadio

/-- How the constructor of `gr_correlate_access_code_bb` ends when it does not return. -/
inductive AccessCodeException where
  | outOfRange (what : String)
  /-- A shift by the width of the word. -/
  | undefinedBehaviour
  deriving DecidableEq, Repr

/-- `gr_correlate_access_code_bb` (`gr_correlate_access_code_bb.h:60-67`). -/
structure CorrelateAccessCodeBb where
  accessCode : UInt64
  dataReg : UInt64
  flagReg : UInt64
  flagBit : UInt64
  mask : UInt64
  threshold : UInt32
  deriving DecidableEq, Repr

namespace CorrelateAccessCodeBb

/-- `set_access_code` (`gr_correlate_access_code_bb.cc:63-86`). A code is one byte for each bit. -/
def setAccessCode (d : CorrelateAccessCodeBb) (accessCode : List UInt8) :
    Except AccessCodeException (Bool × CorrelateAccessCodeBb) :=
  let len := accessCode.length
  if len > 64 then .ok (false, d)
  else if len = 0 then .error .undefinedBehaviour
  else
    let shift := UInt64.ofNat (64 - len)
    .ok (true, { d with
      mask := (~~~(0 : UInt64) >>> shift) <<< shift
      flagBit := 1 <<< shift
      accessCode := (List.range 64).foldl (fun (word : UInt64) i =>
        if i < len then (word <<< 1) ||| (accessCode.getD i 0 &&& 1).toUInt64 else word <<< 1) 0 })

/-- The constructor (`gr_correlate_access_code_bb.cc:43-57`). -/
def construct (accessCode : List UInt8) (threshold : Int) :
    Except AccessCodeException CorrelateAccessCodeBb := do
  let d : CorrelateAccessCodeBb := {
    accessCode := 0
    dataReg := 0
    flagReg := 0
    flagBit := 0
    mask := 0
    threshold := UInt32.ofInt threshold }
  let (set, d) ← d.setAccessCode accessCode
  if set then pure d else throw (.outOfRange "access_code is > 64 bits")

/-- `out[i]` (`gr_correlate_access_code_bb.cc:99-103`). -/
def outputItem (d : CorrelateAccessCodeBb) : UInt8 :=
  let t : UInt32 := 0
  let t := t ||| (((d.dataReg >>> 63) &&& 0x1) <<< 0).toUInt32
  let t := t ||| (((d.flagReg >>> 63) &&& 0x1) <<< 1).toUInt32
  t.toUInt8

/-- `new_flag` (`gr_correlate_access_code_bb.cc:105-114`). -/
def newFlag (d : CorrelateAccessCodeBb) : Bool :=
  let wrongBits := (d.dataReg ^^^ d.accessCode) &&& d.mask
  let nwrong := grCountBits64 wrongBits
  nwrong ≤ d.threshold

/-- What is shifted in behind an item (`gr_correlate_access_code_bb.cc:125-130`). -/
def shiftIn (d : CorrelateAccessCodeBb) (item : UInt8) : CorrelateAccessCodeBb :=
  let newFlag := d.newFlag
  let d := { d with dataReg := (d.dataReg <<< 1) ||| (item &&& 0x1).toUInt64 }
  let d := { d with flagReg := d.flagReg <<< 1 }
  if newFlag then { d with flagReg := d.flagReg ||| d.flagBit } else d

/-- The loop of `work` as a machine: an item goes out before the one at its place is read. -/
def machine : Mealy CorrelateAccessCodeBb UInt8 UInt8 := ⟨shiftIn, fun d _ => d.outputItem⟩

/-- `work` (`gr_correlate_access_code_bb.cc:88-133`) on the items of a call. -/
def work (d : CorrelateAccessCodeBb) (input : List UInt8) : List UInt8 × CorrelateAccessCodeBb :=
  (machine.outputs d input, machine.after d input)

/-- What calls of `work` put out, one after the other. -/
def calls (d : CorrelateAccessCodeBb) : List (List UInt8) → List UInt8
  | [] => []
  | input :: inputs => (d.work input).1 ++ (d.work input).2.calls inputs

theorem calls_eq (d : CorrelateAccessCodeBb) (inputs : List (List UInt8)) :
    d.calls inputs = machine.outputs d inputs.flatten := by
  induction inputs generalizing d with
  | nil => rfl
  | cons input inputs ih => simp [calls, work, ih, Mealy.outputs_append]

end CorrelateAccessCodeBb

/-! ## Codes and streams -/

/-- In how many places bits differ. -/
def bitErrors (seen code : List Bool) : ℕ := (List.zipWith (· ^^ ·) seen code).count true

/-- The `len` bits before bit `m` of a stream that zeros come before. -/
def bitsBefore (len m : ℕ) (stream : List Bool) : List Bool :=
  ((List.replicate len false ++ stream).drop m).take len

/-- An output item: the data bit and the flag. -/
def dataAndFlag (data flag : Bool) : UInt8 := UInt8.ofNat (data.toNat + 2 * flag.toNat)

theorem bitErrors_eq {seen code : List Bool} (same : seen.length = code.length) :
    bitErrors seen code =
      (List.range code.length).countP fun j => seen.getD j false ^^ code.getD j false := by
  induction seen generalizing code with
  | nil =>
    obtain rfl := List.eq_nil_of_length_eq_zero same.symm
    rfl
  | cons s seen ih =>
    cases code with
    | nil => cases same
    | cons c code =>
      have rest := ih (Nat.succ.inj same)
      rw [bitErrors] at rest ⊢
      rw [List.zipWith_cons_cons, List.count_cons, rest, List.length_cons,
        List.range_succ_eq_map, List.countP_cons, List.countP_map]
      simp [Function.comp_def]

theorem length_bitsBefore {len m : ℕ} {stream : List Bool} (inside : m ≤ stream.length) :
    (bitsBefore len m stream).length = len := by
  simp [bitsBefore]
  omega

theorem getD_bitsBefore {len m j : ℕ} {stream : List Bool} (within : j < len) :
    (bitsBefore len m stream).getD j false =
      if m + j < len then false else stream.getD (m + j - len) false := by
  simp only [bitsBefore, List.getD_eq_getElem?_getD, List.getElem?_take_of_lt within,
    List.getElem?_drop, List.getElem?_append, List.length_replicate, List.getElem?_replicate]
  split <;> simp

namespace CorrelateAccessCodeBb

/-! ## The registers -/

/-- Whether the code was seen, with at most `t` errors, in the oldest of the last 64 bits. -/
def matched (code : List Bool) (t : ℕ) (past : List Bool) : Bool :=
  bitErrors ((List.range code.length).map fun j => past.getD (63 - j) false) code ≤ t

/-- The flags that have entered, newest first. -/
def flags (code : List Bool) (t : ℕ) : List Bool → List Bool
  | [] => []
  | _ :: past => matched code t past :: flags code t past

theorem getD_flags {code : List Bool} {t k : ℕ} {past : List Bool} (inside : k < past.length) :
    (flags code t past).getD k false = matched code t (past.drop (k + 1)) := by
  induction past generalizing k with
  | nil => cases inside
  | cons bit past ih =>
    cases k with
    | zero => rfl
    | succ k => simpa [flags] using ih (Nat.lt_of_succ_lt_succ inside)

/-- A correlator that has taken these bits, newest first. -/
structure HasTaken (code : List Bool) (t : ℕ) (past : List Bool) (d : CorrelateAccessCodeBb) :
    Prop where
  data : LeftWindow 64 0 past d.dataReg.toNat
  flagged : LeftWindow 64 (64 - code.length) (flags code t past) d.flagReg.toNat
  coded : ∀ j < code.length, d.accessCode.toNat.testBit (63 - j) = code.getD j false
  mask : ∀ k < 64, d.mask.toNat.testBit k = decide (64 - code.length ≤ k)
  flagBit : d.flagBit.toNat = 1 <<< (64 - code.length)
  threshold : d.threshold.toNat = t

variable {code past : List Bool} {t : ℕ} {d : CorrelateAccessCodeBb}

theorem HasTaken.newFlag (taken : HasTaken code t past d) (fits : code.length ≤ 64) :
    d.newFlag = matched code t past := by
  have places : ∀ j < 64,
      ((d.dataReg ^^^ d.accessCode) &&& d.mask).toNat.testBit (63 - j) =
        (decide (j < code.length) && (past.getD (63 - j) false ^^ code.getD j false)) := by
    intro j inside
    have shown : d.dataReg.toNat.testBit (63 - j) = past.getD (63 - j) false := by
      simpa using taken.data.shows (63 - j) (by omega)
    have masked : decide (64 - code.length ≤ 63 - j) = decide (j < code.length) := by
      rw [decide_eq_decide]
      omega
    rw [UInt64.toNat_and, UInt64.toNat_xor, Nat.testBit_and, Nat.testBit_xor, shown,
      taken.mask _ (by omega), masked, Bool.and_comm]
    by_cases within : j < code.length
    · rw [taken.coded j within]
    · simp [within]
  have reversed : (List.range 64).countP
      ((d.dataReg ^^^ d.accessCode) &&& d.mask).toNat.testBit =
        (List.range 64).countP fun j =>
          decide (j < code.length) && (past.getD (63 - j) false ^^ code.getD j false) := by
    have backwards : (List.range 64).reverse = (List.range 64).map (63 - ·) := by decide
    rw [← List.countP_reverse, backwards, List.countP_map]
    apply List.countP_congr
    intro j member
    rw [Function.comp_apply, places j (List.mem_range.mp member)]
  obtain ⟨rest, split⟩ := Nat.exists_eq_add_of_le fits
  have counted : (List.range 64).countP
      ((d.dataReg ^^^ d.accessCode) &&& d.mask).toNat.testBit =
        bitErrors ((List.range code.length).map fun j => past.getD (63 - j) false) code := by
    have beyond : ((List.range rest).map (code.length + ·)).countP (fun j =>
        decide (j < code.length) && (past.getD (63 - j) false ^^ code.getD j false)) = 0 := by
      rw [List.countP_map, List.countP_eq_zero]
      simp
    rw [reversed, split, List.range_add, List.countP_append, beyond, Nat.add_zero,
      bitErrors_eq (by simp)]
    apply List.countP_congr
    intro j member
    have within := List.mem_range.mp member
    simp [within]
  unfold CorrelateAccessCodeBb.newFlag matched
  dsimp only
  rw [decide_eq_decide, UInt32.le_iff_toNat_le, toNat_grCountBits64, counted, taken.threshold]

theorem HasTaken.shiftIn (taken : HasTaken code t past d) (some : 0 < code.length)
    (fits : code.length ≤ 64) (item : UInt8) :
    HasTaken code t (lsb item :: past) (d.shiftIn item) := by
  have flag := taken.newFlag fits
  have data : LeftWindow 64 0 (lsb item :: past)
      ((d.dataReg <<< 1) ||| (item &&& 0x1).toUInt64).toNat := by
    have entered := taken.data.enter (lsb item) (by decide)
    rw [UInt64.toNat_or, UInt64.toNat_shiftLeft, UInt8.toNat_toUInt64, toNat_and_one]
    simpa using entered
  unfold CorrelateAccessCodeBb.shiftIn
  dsimp only
  cases seen : d.newFlag with
  | true =>
    rw [if_pos rfl]
    refine ⟨data, ?_, taken.coded, taken.mask, taken.flagBit, taken.threshold⟩
    have entered := taken.flagged.enter true (by omega)
    rw [flags, ← flag, seen, UInt64.toNat_or, UInt64.toNat_shiftLeft, taken.flagBit]
    simpa using entered
  | false =>
    rw [if_neg Bool.false_ne_true]
    refine ⟨data, ?_, taken.coded, taken.mask, taken.flagBit, taken.threshold⟩
    have entered := taken.flagged.enter_false (by omega)
    rw [flags, ← flag, seen, UInt64.toNat_shiftLeft]
    simpa using entered

theorem topBit_eq (word : UInt64) :
    (word >>> 63) &&& 0x1 = if word.toNat.testBit 63 then 1 else 0 := by
  have bit : ((word >>> 63) &&& 0x1).toNat = (word.toNat.testBit 63).toNat := by
    rw [UInt64.toNat_and, Nat.toNat_testBit]
    exact (Nat.and_one_is_mod _).trans (congrArg (· % 2) (Nat.shiftRight_eq_div_pow _ _))
  apply UInt64.toNat_inj.mp
  rw [bit]
  cases word.toNat.testBit 63 with
  | false => rfl
  | true => rfl

theorem outputItem_eq (d : CorrelateAccessCodeBb) :
    d.outputItem = dataAndFlag (d.dataReg.toNat.testBit 63) (d.flagReg.toNat.testBit 63) := by
  unfold outputItem
  rw [topBit_eq, topBit_eq]
  cases d.dataReg.toNat.testBit 63 with
  | false => cases d.flagReg.toNat.testBit 63 <;> rfl
  | true => cases d.flagReg.toNat.testBit 63 <;> rfl

theorem HasTaken.outputItem (taken : HasTaken code t past d) (some : 0 < code.length)
    (fits : code.length ≤ 64) (many : 64 ≤ past.length) :
    d.outputItem = dataAndFlag (past.getD 63 false) (matched code t (past.drop code.length)) := by
  have data : d.dataReg.toNat.testBit 63 = past.getD 63 false := by
    simpa using taken.data.shows 63 (by decide)
  have flag := taken.flagged.shows (code.length - 1) (by omega)
  have place : 64 - code.length + (code.length - 1) = 63 := by omega
  have age : code.length - 1 + 1 = code.length := by omega
  dsimp only at flag
  rw [place, getD_flags (by omega), age] at flag
  rw [outputItem_eq, data, flag]

theorem HasTaken.after (taken : HasTaken code t past d) (some : 0 < code.length)
    (fits : code.length ≤ 64) (items : List UInt8) :
    HasTaken code t ((items.map lsb).reverse ++ past) (machine.after d items) := by
  induction items generalizing past d with
  | nil => exact taken
  | cons item items ih =>
    have rest := ih (taken.shiftIn some fits item)
    rw [List.map_cons, List.reverse_cons, List.append_assoc]
    exact rest

/-! ## The constructor -/

theorem leftWindow_accessCode (accessCode : List UInt8) (n : ℕ) :
    LeftWindow 64 0 ((List.range n).map fun i => (accessCode.map lsb).getD i false).reverse
      ((List.range n).foldl (fun (word : UInt64) i =>
        if i < accessCode.length then (word <<< 1) ||| (accessCode.getD i 0 &&& 1).toUInt64
        else word <<< 1) 0).toNat := by
  induction n with
  | zero => exact LeftWindow.zero
  | succ n ih =>
    rw [List.range_succ, List.map_append, List.reverse_append, List.foldl_append]
    simp only [List.map_singleton, List.reverse_singleton, List.singleton_append,
      List.foldl_cons, List.foldl_nil]
    split
    · rename_i inside
      have entered := ih.enter (lsb (accessCode.getD n 0)) (by decide)
      have bit : (accessCode.map lsb).getD n false = lsb (accessCode.getD n 0) := by
        simp [inside]
      rw [bit, UInt64.toNat_or, UInt64.toNat_shiftLeft, UInt8.toNat_toUInt64, toNat_and_one]
      simpa using entered
    · rename_i outside
      have entered := ih.enter_false (by decide)
      have bit : (accessCode.map lsb).getD n false = false := by
        simp [Nat.le_of_not_lt outside]
      rw [bit, UInt64.toNat_shiftLeft]
      simpa using entered

theorem construct_eq {accessCode : List UInt8} {threshold : Int} (some : accessCode ≠ [])
    (fits : accessCode.length ≤ 64) (least : 0 ≤ threshold) (most : threshold ≤ intMax) :
    ∃ d, construct accessCode threshold = .ok d ∧
      HasTaken (accessCode.map lsb) threshold.toNat [] d := by
  have positive : 0 < accessCode.length := List.length_pos_iff.mpr some
  have shift : (UInt64.ofNat (64 - accessCode.length)).toNat % 64 = 64 - accessCode.length := by
    rw [UInt64.toNat_ofNat']
    omega
  have within : ¬accessCode.length > 64 := Nat.not_lt.mpr fits
  have entered : ¬accessCode.length = 0 := Nat.ne_of_gt positive
  refine ⟨{
    accessCode := (List.range 64).foldl (fun (word : UInt64) i =>
      if i < accessCode.length then (word <<< 1) ||| (accessCode.getD i 0 &&& 1).toUInt64
      else word <<< 1) 0
    dataReg := 0
    flagReg := 0
    flagBit := 1 <<< UInt64.ofNat (64 - accessCode.length)
    mask := (~~~(0 : UInt64) >>> UInt64.ofNat (64 - accessCode.length)) <<<
      UInt64.ofNat (64 - accessCode.length)
    threshold := UInt32.ofInt threshold }, ?_, ?_⟩
  · unfold construct setAccessCode
    dsimp only
    rw [if_neg within, if_neg entered]
    rfl
  · refine ⟨LeftWindow.zero, LeftWindow.zero, ?_, ?_, ?_, ?_⟩
    · intro j inside
      rw [List.length_map] at inside
      have shown := (leftWindow_accessCode accessCode 64).shows (63 - j) (by omega)
      have place : 64 - 1 - (63 - j) = j := by omega
      have low : j < 64 := by omega
      dsimp only at shown
      rw [Nat.zero_add, List.getD_eq_getElem?_getD, List.getElem?_reverse (by simp; omega),
        List.length_map, List.length_range, place] at shown
      rw [shown]
      simp [low]
    · intro k inside
      have ones : (~~~(0 : UInt64)).toNat = 2 ^ 64 - 1 := rfl
      rw [UInt64.toNat_shiftLeft, UInt64.toNat_shiftRight, shift, ones, List.length_map,
        Nat.testBit_mod_two_pow, Nat.testBit_shiftLeft, Nat.testBit_shiftRight,
        Nat.testBit_two_pow_sub_one]
      by_cases high : 64 - accessCode.length ≤ k
      · have same : 64 - accessCode.length + (k - (64 - accessCode.length)) = k := by omega
        simp [high, same, inside]
      · simp [high]
    · have below : 1 <<< (64 - accessCode.length) < 2 ^ 64 := by
        rw [Nat.one_shiftLeft]
        exact Nat.pow_lt_pow_right (by decide) (by omega)
      rw [UInt64.toNat_shiftLeft, shift, List.length_map]
      exact Nat.mod_eq_of_lt below
    · rw [UInt32.ofInt, UInt32.toNat_ofNat']
      unfold intMax at most
      omega

theorem getD_reverse_take {stream : List Bool} {n q : ℕ} (inside : n ≤ stream.length)
    (young : q < n) : (stream.take n).reverse.getD q false = stream.getD (n - 1 - q) false := by
  rw [List.getD_eq_getElem?_getD, List.getElem?_reverse (by simp; omega), List.length_take,
    Nat.min_eq_left inside, List.getElem?_take_of_lt (by omega), List.getD_eq_getElem?_getD]

theorem oldest_eq {stream : List Bool} {len m : ℕ} (fits : len ≤ 64)
    (inside : 64 + m ≤ stream.length) :
    ((List.range len).map fun j =>
      ((stream.take (64 + m)).reverse.drop len).getD (63 - j) false) =
        bitsBefore len m stream := by
  apply List.ext_getElem
  · simp [length_bitsBefore (show m ≤ stream.length by omega)]
  · intro j low high
    have within : j < len := by simpa using low
    have shown : (bitsBefore len m stream)[j] = (bitsBefore len m stream).getD j false := by
      simp [high]
    rw [shown, getD_bitsBefore within, List.getElem_map, List.getElem_range,
      List.getD_eq_getElem?_getD, List.getElem?_drop, ← List.getD_eq_getElem?_getD]
    split
    · rename_i early
      apply List.getD_eq_default
      simp
      omega
    · rename_i late
      have place : 64 + m - 1 - (len + (63 - j)) = m + j - len := by omega
      rw [getD_reverse_take inside (by omega), place]

/-- **The data bits come 64 items late, and the flag is on the first bit behind a code.** -/
theorem flag_behind_code {accessCode : List UInt8} {threshold : Int} (some : accessCode ≠ [])
    (fits : accessCode.length ≤ 64) (least : 0 ≤ threshold) (most : threshold ≤ intMax) :
    ∃ d, construct accessCode threshold = .ok d ∧ ∀ (inputs : List (List UInt8)) (m : ℕ),
      64 + m < inputs.flatten.length →
        (d.calls inputs)[64 + m]? = Option.some (dataAndFlag
          ((inputs.flatten.map lsb).getD m false)
          (bitErrors (bitsBefore accessCode.length m (inputs.flatten.map lsb))
            (accessCode.map lsb) ≤ threshold.toNat)) := by
  obtain ⟨d, made, fresh⟩ := construct_eq some fits least most
  refine ⟨d, made, fun inputs m inside => ?_⟩
  have positive : 0 < (accessCode.map lsb).length := by
    simpa using List.length_pos_iff.mpr some
  have narrow : (accessCode.map lsb).length ≤ 64 := by simpa using fits
  have enough : 64 + m ≤ (inputs.flatten.map lsb).length := by
    rw [List.length_map]
    exact Nat.le_of_lt inside
  have taken := fresh.after positive narrow (inputs.flatten.take (64 + m))
  rw [List.append_nil, List.map_take] at taken
  have many : 64 ≤ ((inputs.flatten.map lsb).take (64 + m)).reverse.length := by
    rw [List.length_reverse, List.length_take]
    omega
  have puts := taken.outputItem positive narrow many
  have age : 64 + m - 1 - 63 = m := by omega
  rw [getD_reverse_take enough (by omega), age, matched, List.length_map,
    oldest_eq fits enough] at puts
  rw [calls_eq, Mealy.getElem?_outputs, List.getElem?_eq_getElem inside, Option.map_some, ← puts]
  rfl

/-- The code `101`, seen in the first three bits, flags the fourth. -/
theorem flag_behind_101 : ∃ d, construct [0x31, 0x30, 0x31] 0 = .ok d ∧
    (d.calls [[1, 0], 1 :: 1 :: List.replicate 64 0])[64 + 3]? =
      Option.some (dataAndFlag true true) := by
  have code : ([0x31, 0x30, 0x31] : List UInt8) ≠ [] := by decide
  obtain ⟨d, made, flagged⟩ := flag_behind_code code (by decide) (Int.le_refl 0) (by decide)
  exact ⟨d, made, flagged _ 3 (by decide)⟩

end CorrelateAccessCodeBb

end GnuRadio
