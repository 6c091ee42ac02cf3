import GnuRadio.Runtime.Types
import Mathlib.Algebra.Field.Rat
import Mathlib.Data.UInt

/-!
# Packets and segments

The items that flow between the blocks carry their data and a `plinfo`, which says where in the two
fields they belong.
-/

namespace GnuRadio

/-! ## `plinfo` -/

/-- `plinfo` (`atsc_types.h:36-139`). -/
structure Plinfo where
  flags : UInt16
  segno : UInt16
  deriving DecidableEq, Repr

def atscDsegsPerField : Nat := 312

def atscMpegRsEncodedLength : Nat := 207

def atscDataSegmentLength : Nat := 832

namespace Plinfo

def flRegularSeg : UInt16 := 0x0001
def flFieldSync1 : UInt16 := 0x0002
def flFieldSync2 : UInt16 := 0x0004
def flFirstRegularSeg : UInt16 := 0x0008
def flField2 : UInt16 := 0x0010
def flTransportError : UInt16 := 0x0020

def fieldSync1P (x : Plinfo) : Bool := x.flags &&& flFieldSync1 != 0
def fieldSync2P (x : Plinfo) : Bool := x.flags &&& flFieldSync2 != 0
def fieldSyncP (x : Plinfo) : Bool := x.fieldSync1P || x.fieldSync2P
def regularSegP (x : Plinfo) : Bool := x.flags &&& flRegularSeg != 0
def inField2P (x : Plinfo) : Bool := x.flags &&& flField2 != 0
def firstRegularSegP (x : Plinfo) : Bool := x.flags &&& flFirstRegularSeg != 0

/-- `set_regular_seg` (`atsc_types.h:72-83`). -/
def setRegularSeg (field2 : Bool) (segno : Int) : Except CppException Plinfo :=
  if ¬(0 ≤ segno ∧ segno < atscDsegsPerField) then .error .assertFailed
  else .ok {
    segno := UInt16.ofNat segno.toNat
    flags := flRegularSeg ||| (if segno = 0 then flFirstRegularSeg else 0) |||
      (if segno ≥ atscDsegsPerField then flTransportError else 0) |||
      (if field2 then flField2 else 0) }

/-- `plinfo::delay` (`plinfo.cc:26-46`). -/
def delay (x : Plinfo) (nsegsOfDelay : Int) : Except CppException Plinfo :=
  if !x.regularSegP then .error .assertFailed
  else if nsegsOfDelay < 0 then .error .assertFailed
  else
    let s : Int := x.segno.toNat
    let s := if x.inField2P then s + atscDsegsPerField else s
    let s := s - nsegsOfDelay
    let s := if s < 0 then s + 2 * atscDsegsPerField else s
    if ¬(0 ≤ s ∧ s < 2 * atscDsegsPerField) then .error .assertFailed
    else if s < atscDsegsPerField then setRegularSeg false s
    else setRegularSeg true (s - atscDsegsPerField)

/-- `plinfo::sanity_check` (`plinfo.cc:48-58`). -/
def sanityCheck (x : Plinfo) : Except CppException Unit :=
  if x.segno.toNat < atscDsegsPerField ∧ x.flags &&& ~~~0x3f = 0 ∧
    (x.regularSegP ^^ x.fieldSyncP) ∧ (x.segno != 0 ^^ x.firstRegularSegP) then .ok ()
  else .error .assertFailed

/-- The pipeline info of the segment at a position in the two fields, counted round. -/
def segment (s : Nat) : Plinfo where
  segno := UInt16.ofNat (s % 312)
  flags := flRegularSeg ||| (if s % 312 = 0 then flFirstRegularSeg else 0) |||
    (if 312 ≤ s % 624 then flField2 else 0)

theorem segment_add_624 (s : Nat) : segment (s + 624) = segment s := by
  have halves : (s + 624) % 312 = s % 312 := by omega
  simp only [segment, halves, Nat.add_mod_right]

@[simp] theorem segno_segment (s : Nat) : (segment s).segno.toNat = s % 312 := by
  simp only [segment, UInt16.toNat_ofNat']
  omega

@[simp] theorem regularSegP_segment (s : Nat) : (segment s).regularSegP = true := by
  simp only [regularSegP, segment]
  split <;> split <;> decide

@[simp] theorem fieldSyncP_segment (s : Nat) : (segment s).fieldSyncP = false := by
  simp only [fieldSyncP, fieldSync1P, fieldSync2P, segment]
  split <;> split <;> decide

@[simp] theorem inField2P_segment (s : Nat) :
    (segment s).inField2P = decide (312 ≤ s % 624) := by
  simp only [inField2P, segment]
  split <;> split <;> simp [*] <;> decide

@[simp] theorem firstRegularSegP_segment (s : Nat) :
    (segment s).firstRegularSegP = decide (s % 312 = 0) := by
  simp only [firstRegularSegP, segment]
  split <;> split <;> simp [*] <;> decide

theorem setRegularSeg_segment (s : Nat) :
    setRegularSeg (decide (312 ≤ s % 624)) (s % 312 : Nat) = .ok (segment s) := by
  have inside : (0 : Int) ≤ (s % 312 : Nat) ∧ ((s % 312 : Nat) : Int) < atscDsegsPerField := by
    unfold atscDsegsPerField
    omega
  have regular : ¬ ((s % 312 : Nat) : Int) ≥ atscDsegsPerField := by omega
  rw [setRegularSeg, if_neg (not_not.mpr inside), if_neg regular]
  simp only [segment, Int.toNat_natCast, Int.natCast_eq_zero, decide_eq_true_eq, UInt16.or_zero]

theorem sanityCheck_segment (s : Nat) : sanityCheck (segment s) = .ok () := by
  have flags : (segment s).flags &&& ~~~0x3f = 0 := by
    simp only [segment]
    split <;> split <;> decide
  have first : ((segment s).segno != 0) = !decide (s % 312 = 0) := by
    have same : (segment s).segno = 0 ↔ s % 312 = 0 := by
      rw [← UInt16.toNat_inj, segno_segment, UInt16.toNat_zero]
    by_cases zero : s % 312 = 0
    · simp [same.mpr zero, zero]
    · simp [mt same.mp zero, zero]
  have small : s % 312 < atscDsegsPerField := Nat.mod_lt s (by decide)
  rw [sanityCheck, if_pos]
  rw [segno_segment, regularSegP_segment, fieldSyncP_segment, firstRegularSegP_segment, first]
  refine ⟨small, flags, rfl, ?_⟩
  cases decide (s % 312 = 0) <;> rfl

theorem delay_segment (s : Nat) {d e : Nat} (round : d + e = 624) :
    (segment s).delay d = .ok (segment (s + e)) := by
  have position : (if (segment s).inField2P = true then
      ((segment s).segno.toNat : Int) + atscDsegsPerField else (segment s).segno.toNat) =
      (s % 624 : Nat) := by
    rw [segno_segment, inField2P_segment, atscDsegsPerField]
    split
    · rename_i second
      have := of_decide_eq_true second
      omega
    · rename_i first
      have := of_decide_eq_false (Bool.eq_false_of_not_eq_true first)
      omega
  have moved : (if ((s % 624 : Nat) : Int) - d < 0 then
      ((s % 624 : Nat) : Int) - d + 2 * atscDsegsPerField else ((s % 624 : Nat) : Int) - d) =
      ((s + e) % 624 : Nat) := by
    rw [atscDsegsPerField]
    split <;> omega
  have inside : (0 : Int) ≤ ((s + e) % 624 : Nat) ∧
      (((s + e) % 624 : Nat) : Int) < 2 * atscDsegsPerField := by
    rw [atscDsegsPerField]
    omega
  have set := setRegularSeg_segment (s + e)
  rw [delay, regularSegP_segment, if_neg (by decide), if_neg (by omega)]
  simp only [position, moved]
  rw [if_neg (not_not.mpr inside)]
  by_cases first : (s + e) % 624 < 312
  · have here : (((s + e) % 624 : Nat) : Int) < atscDsegsPerField := by
      rw [atscDsegsPerField]
      omega
    have same : (s + e) % 312 = (s + e) % 624 := by omega
    have half : decide (312 ≤ (s + e) % 624) = false := decide_eq_false (by omega)
    rw [half, same] at set
    rw [if_pos here, set]
  · have here : ¬ (((s + e) % 624 : Nat) : Int) < atscDsegsPerField := by
      rw [atscDsegsPerField]
      omega
    have same : (((s + e) % 624 : Nat) : Int) - atscDsegsPerField = ((s + e) % 312 : Nat) := by
      rw [atscDsegsPerField]
      omega
    have half : decide (312 ≤ (s + e) % 624) = true := decide_eq_true (by omega)
    rw [half] at set
    rw [if_neg here, same, set]

theorem delay_ok {x : Plinfo} (regular : x.regularSegP = true) (sane : x.sanityCheck = .ok ())
    {d : Nat} (most : d ≤ 624) : ∃ y, x.delay d = .ok y := by
  have small : x.segno.toNat < 312 := by
    unfold sanityCheck at sane
    split at sane
    · rename_i checked
      exact checked.1
    · cases sane
  have set : ∀ (field2 : Bool) (s : Int), 0 ≤ s → s < 312 → ∃ y, setRegularSeg field2 s = .ok y :=
    fun field2 s low high => ⟨_, if_neg (not_not.mpr ⟨low, high⟩)⟩
  obtain ⟨p, position, inside⟩ : ∃ p : Int,
      (if x.inField2P then (x.segno.toNat : Int) + 312 else x.segno.toNat) = p ∧ 0 ≤ p ∧ p < 624 := by
    refine ⟨_, rfl, ?_⟩
    split <;> omega
  rw [delay, regular, if_neg (by decide), if_neg (by omega)]
  simp only [atscDsegsPerField, Nat.cast_ofNat, position]
  obtain ⟨q, moved, within⟩ : ∃ q : Int,
      (if p - d < 0 then p - d + 2 * 312 else p - d) = q ∧ 0 ≤ q ∧ q < 2 * 312 := by
    refine ⟨_, rfl, ?_⟩
    split <;> omega
  simp only [moved]
  rw [if_neg (not_not.mpr within)]
  split
  · rename_i first
    exact set false q within.1 first
  · exact set true (q - 312) (by omega) (by omega)

end Plinfo

/-! ## Items -/

/-- `atsc_mpeg_packet_rs_encoded` (`atsc_types.h:177-192`), less its padding. -/
structure AtscMpegPacketRsEncoded where
  pli : Plinfo
  data : List UInt8
  length_eq : data.length = atscMpegRsEncodedLength

/-- `atsc_data_segment` (`atsc_types.h:195-212`), less its padding. -/
structure AtscDataSegment where
  pli : Plinfo
  data : List (Fin 8)
  length_eq : data.length = atscDataSegmentLength

/-- `atsc_soft_data_segment` (`atsc_types.h:214-235`), less its padding. -/
structure AtscSoftDataSegment where
  pli : Plinfo
  data : List ℚ
  length_eq : data.length = atscDataSegmentLength

/-!
## The PN sequences of the field sync

The tables of `atsci_pnXXX.cc`.
-/

def atscPn511 : List UInt8 := [
  0, 0, 0, 0, 0, 0, 0, 1, 0, 1, 1, 1, 1, 1, 1, 1, 1, 1, 0, 0, 1, 0, 1, 0, 1, 0, 1, 0, 1, 1, 1, 0,
  0, 1, 1, 0, 0, 1, 1, 0, 1, 0, 0, 0, 1, 0, 0, 0, 1, 0, 0, 1, 1, 1, 1, 0, 0, 0, 0, 1, 1, 1, 0, 1,
  0, 1, 1, 1, 1, 1, 0, 1, 0, 0, 1, 1, 0, 1, 0, 1, 0, 0, 1, 1, 1, 0, 1, 1, 0, 0, 1, 1, 1, 0, 1, 0,
  0, 1, 0, 0, 0, 1, 0, 1, 1, 0, 0, 0, 1, 1, 1, 1, 0, 0, 1, 0, 0, 0, 0, 1, 0, 1, 0, 0, 0, 1, 1, 1,
  1, 1, 0, 0, 1, 1, 1, 1, 0, 1, 0, 1, 0, 0, 0, 1, 0, 1, 0, 0, 1, 1, 0, 0, 0, 0, 1, 1, 0, 0, 0, 1,
  0, 0, 0, 0, 0, 1, 0, 0, 0, 0, 1, 1, 1, 1, 1, 1, 0, 0, 0, 0, 0, 1, 0, 1, 0, 1, 0, 0, 0, 0, 0, 0,
  1, 1, 0, 0, 1, 1, 1, 1, 1, 1, 1, 0, 1, 1, 1, 0, 1, 0, 1, 0, 1, 0, 0, 1, 0, 1, 1, 0, 0, 1, 1, 0,
  0, 0, 1, 1, 0, 1, 1, 1, 0, 1, 1, 1, 1, 0, 1, 1, 0, 1, 0, 0, 1, 0, 1, 0, 0, 1, 0, 0, 1, 1, 1, 0,
  0, 1, 1, 1, 0, 0, 0, 1, 0, 1, 1, 1, 0, 1, 0, 0, 0, 0, 1, 1, 0, 1, 0, 0, 1, 1, 1, 1, 1, 0, 1, 1,
  0, 0, 0, 1, 0, 1, 0, 1, 1, 0, 1, 1, 1, 1, 0, 0, 1, 1, 0, 1, 1, 0, 1, 0, 1, 1, 1, 0, 1, 1, 0, 1,
  1, 0, 0, 1, 0, 1, 1, 0, 1, 1, 0, 1, 1, 1, 0, 0, 1, 0, 0, 1, 0, 0, 1, 0, 1, 1, 1, 0, 0, 0, 1, 1,
  1, 0, 0, 1, 0, 1, 1, 1, 1, 0, 1, 0, 0, 0, 1, 1, 0, 1, 0, 1, 1, 0, 0, 0, 0, 1, 0, 0, 1, 1, 0, 1,
  1, 1, 1, 1, 0, 0, 0, 1, 0, 0, 1, 0, 1, 0, 1, 1, 1, 1, 0, 0, 0, 1, 1, 0, 0, 1, 0, 1, 0, 0, 0, 0,
  1, 0, 0, 0, 1, 1, 0, 0, 0, 0, 0, 1, 1, 1, 1, 0, 1, 1, 1, 1, 1, 1, 0, 1, 0, 1, 1, 0, 1, 0, 1, 0,
  1, 1, 0, 0, 1, 0, 0, 1, 1, 0, 0, 1, 0, 0, 0, 1, 1, 1, 0, 1, 1, 1, 0, 0, 0, 0, 1, 0, 1, 1, 0, 1,
  0, 0, 0, 0, 0, 1, 1, 0, 1, 1, 0, 0, 0, 0, 0, 0, 1, 0, 0, 1, 0, 0, 0, 0, 0, 0, 0, 1, 1, 1, 0]

def atscPn63 : List UInt8 := [
  1, 1, 1, 0, 0, 1, 0, 0, 1, 0, 1, 1, 0, 1, 1, 1, 0, 1, 1, 0, 0, 1, 1, 0, 1, 0, 1, 0, 1, 1, 1, 1,
  1, 1, 0, 0, 0, 0, 0, 1, 0, 0, 0, 0, 1, 1, 0, 0, 0, 1, 0, 1, 0, 0, 1, 1, 1, 1, 0, 1, 0, 0, 0]

theorem length_atscPn511 : atscPn511.length = 511 := by decide +kernel

theorem length_atscPn63 : atscPn63.length = 63 := by decide

end GnuRadio
