import GnuRadio.Misc.BitWindow
import GnuRadio.Misc.Mealy
import GnuRadio.Runtime.Types

/-!
# The self-synchronising scrambler

`gri_lfsr` is a Fibonacci shift register. A scrambler feeds each input bit, added to a parity of
the register, back into it; a descrambler feeds what it receives into a register of its own. The
channel carries the scrambler's register, so the two registers agree as soon as the descrambler's
seed has left it.
-/

namespace GnuRadio

/-- `gri_lfsr` (`gri_lfsr.h:86-90`). -/
structure GriLfsr where
  shiftRegister : UInt32
  mask : UInt32
  seed : UInt32
  shiftRegisterLength : UInt32
  deriving DecidableEq, Repr

namespace GriLfsr

/-- `popCount` (`gri_lfsr.h:92-98`). -/
def popCount (x : UInt32) : UInt32 :=
  let r : UInt32 := x - ((x >>> 1) &&& (0o33333333333 : UInt32)) -
    ((x >>> 2) &&& (0o11111111111 : UInt32))
  ((r + (r >>> 3)) &&& (0o30707070707 : UInt32)) % 63

/-- The constructor (`gri_lfsr.h:102-110`). -/
def construct (mask seed regLen : UInt32) : Except CppException GriLfsr :=
  if regLen > 31 then .error (.invalidArgument "reg_len must be <= 31")
  else .ok { shiftRegister := seed, mask := mask, seed := seed, shiftRegisterLength := regLen }

/-- The register moves on, and a bit enters at its end (`gri_lfsr.h:115`, `122`, `129`). -/
def shiftIn (lfsr : GriLfsr) (newbit : UInt8) : GriLfsr :=
  { lfsr with
    shiftRegister := (lfsr.shiftRegister >>> 1) ||| (newbit.toUInt32 <<< lfsr.shiftRegisterLength) }

/-- `next_bit_scramble` (`gri_lfsr.h:119-124`). -/
def nextBitScramble (lfsr : GriLfsr) (input : UInt8) : UInt8 × GriLfsr :=
  let output := (lfsr.shiftRegister &&& 1).toUInt8
  let newbit :=
    ((popCount (lfsr.shiftRegister &&& lfsr.mask) % 2) ^^^ (input &&& 1).toUInt32).toUInt8
  (output, lfsr.shiftIn newbit)

/-- `next_bit_descramble` (`gri_lfsr.h:126-131`). -/
def nextBitDescramble (lfsr : GriLfsr) (input : UInt8) : UInt8 × GriLfsr :=
  let output :=
    ((popCount (lfsr.shiftRegister &&& lfsr.mask) % 2) ^^^ (input &&& 1).toUInt32).toUInt8
  let newbit := input &&& 1
  (output, lfsr.shiftIn newbit)

/-- One call after the other of `next_bit_scramble`. -/
def scrambler : Mealy GriLfsr UInt8 UInt8 :=
  ⟨fun lfsr input => (lfsr.nextBitScramble input).2,
    fun lfsr input => (lfsr.nextBitScramble input).1⟩

/-- One call after the other of `next_bit_descramble`. -/
def descrambler : Mealy GriLfsr UInt8 UInt8 :=
  ⟨fun lfsr input => (lfsr.nextBitDescramble input).2,
    fun lfsr input => (lfsr.nextBitDescramble input).1⟩

/-! ## One bit -/

/-- The byte that holds a bit. -/
def byteOf (bit : Bool) : UInt8 := UInt8.ofNat bit.toNat

theorem toNat_byteOf (bit : Bool) : (byteOf bit).toNat = bit.toNat := by
  cases bit <;> rfl

@[simp] theorem lsb_byteOf (bit : Bool) : lsb (byteOf bit) = bit := by
  cases bit <;> rfl

theorem and_one_eq (byte : UInt8) : byte &&& 1 = byteOf (lsb byte) := by
  apply UInt8.toNat_inj.mp
  rw [toNat_and_one, toNat_byteOf]

/-- The parity that is fed back. -/
def parity (lfsr : GriLfsr) : Bool :=
  (popCount (lfsr.shiftRegister &&& lfsr.mask)).toNat.testBit 0

theorem parity_xor (lfsr : GriLfsr) (input : UInt8) :
    ((popCount (lfsr.shiftRegister &&& lfsr.mask) % 2) ^^^ (input &&& 1).toUInt32).toUInt8 =
      byteOf (lfsr.parity ^^ lsb input) := by
  have low : popCount (lfsr.shiftRegister &&& lfsr.mask) % 2 = (byteOf lfsr.parity).toUInt32 := by
    apply UInt32.toNat_inj.mp
    rw [UInt32.toNat_mod, UInt8.toNat_toUInt32, toNat_byteOf, parity, Nat.toNat_testBit, pow_zero,
      Nat.div_one]
    rfl
  rw [low, and_one_eq]
  cases lfsr.parity <;> cases lsb input <;> rfl

theorem output_eq (lfsr : GriLfsr) :
    (lfsr.shiftRegister &&& 1).toUInt8 = byteOf (lfsr.shiftRegister.toNat.testBit 0) := by
  apply UInt8.toNat_inj.mp
  have one : (lfsr.shiftRegister &&& 1).toNat = lfsr.shiftRegister.toNat % 2 := by
    rw [UInt32.toNat_and]
    exact Nat.and_one_is_mod _
  rw [UInt32.toNat_toUInt8, one, toNat_byteOf, Nat.toNat_testBit, pow_zero, Nat.div_one]
  omega

/-- A register of length `L` that these bits have entered, newest first. -/
structure HasTaken (mask : UInt32) (L : ℕ) (past : List Bool) (lfsr : GriLfsr) : Prop where
  register : RightWindow L past lfsr.shiftRegister.toNat
  mask : lfsr.mask = mask
  length : lfsr.shiftRegisterLength.toNat = L

variable {mask : UInt32} {L : ℕ} {past past' : List Bool} {lfsr lfsr' : GriLfsr}

theorem HasTaken.shiftIn (taken : HasTaken mask L past lfsr) (short : L ≤ 31) (bit : Bool) :
    HasTaken mask L (bit :: past) (lfsr.shiftIn (byteOf bit)) := by
  refine ⟨?_, taken.mask, taken.length⟩
  have entered := taken.register.enter bit
  have small : bit.toNat <<< L < 2 ^ 32 := by
    have low := Bool.toNat_le bit
    have power : 2 ^ L ≤ 2 ^ 31 := Nat.pow_le_pow_right (by decide) short
    have most : bit.toNat * 2 ^ L ≤ 1 * 2 ^ 31 := Nat.mul_le_mul low power
    rw [Nat.shiftLeft_eq]
    omega
  have word : (lfsr.shiftIn (byteOf bit)).shiftRegister.toNat =
      (lfsr.shiftRegister.toNat >>> 1) ||| bit.toNat <<< L := by
    rw [GriLfsr.shiftIn, UInt32.toNat_or, UInt32.toNat_shiftRight, UInt32.toNat_shiftLeft,
      UInt8.toNat_toUInt32, toNat_byteOf, taken.length, Nat.mod_eq_of_lt (show L < 32 by omega),
      Nat.mod_eq_of_lt small]
    rfl
  rwa [word]

theorem HasTaken.parity_eq (taken : HasTaken mask L past lfsr)
    (taken' : HasTaken mask L past' lfsr')
    (same : ∀ k ≤ L, past.getD k false = past'.getD k false) : lfsr.parity = lfsr'.parity := by
  have registers := taken.register.ext taken'.register same
  rw [parity, parity, taken.mask, taken'.mask, UInt32.toNat_inj.mp registers]

theorem construct_eq (mask : UInt32) {seed regLen : UInt32} (short : regLen.toNat ≤ 31)
    (below : seed.toNat < 2 ^ (regLen.toNat + 1)) :
    ∃ lfsr, construct mask seed regLen = .ok lfsr ∧
      HasTaken mask regLen.toNat (bitsOf (regLen.toNat + 1) seed.toNat) lfsr := by
  refine ⟨_, if_neg ?_, RightWindow.seed below, rfl, rfl⟩
  rw [gt_iff_lt, UInt32.lt_iff_toNat_lt, Nat.not_lt]
  exact short

/-! ## Streams -/

/-- The bits that a scrambler feeds back, one for each input. -/
def feedback : Mealy GriLfsr UInt8 Bool :=
  ⟨scrambler.next, fun lfsr input => lfsr.parity ^^ lsb input⟩

theorem HasTaken.scramble (taken : HasTaken mask L past lfsr) (short : L ≤ 31)
    (inputs : List UInt8) :
    HasTaken mask L ((feedback.outputs lfsr inputs).reverse ++ past)
      (scrambler.after lfsr inputs) := by
  induction inputs generalizing past lfsr with
  | nil => exact taken
  | cons input inputs ih =>
    have next : scrambler.next lfsr input = lfsr.shiftIn (byteOf (lfsr.parity ^^ lsb input)) :=
      congrArg lfsr.shiftIn (lfsr.parity_xor input)
    have first := taken.shiftIn short (lfsr.parity ^^ lsb input)
    rw [← next] at first
    rw [Mealy.outputs_cons, List.reverse_cons, List.append_assoc, Mealy.after_cons]
    exact ih first

theorem HasTaken.descramble (taken : HasTaken mask L past lfsr) (short : L ≤ 31)
    (inputs : List UInt8) :
    HasTaken mask L ((inputs.map lsb).reverse ++ past) (descrambler.after lfsr inputs) := by
  induction inputs generalizing past lfsr with
  | nil => exact taken
  | cons input inputs ih =>
    have next : descrambler.next lfsr input = lfsr.shiftIn (byteOf (lsb input)) :=
      congrArg lfsr.shiftIn (and_one_eq input)
    have first := taken.shiftIn short (lsb input)
    rw [← next] at first
    rw [List.map_cons, List.reverse_cons, List.append_assoc, Mealy.after_cons]
    exact ih first

theorem HasTaken.sends (taken : HasTaken mask L past lfsr) (short : L ≤ 31) (inputs : List UInt8)
    (u : ℕ) (inside : u < inputs.length) :
    (scrambler.outputs lfsr inputs)[u]? = some (byteOf
      ((((feedback.outputs lfsr inputs).take u).reverse ++ past).getD L false)) := by
  have register := (taken.scramble short (inputs.take u)).register.shows L (Nat.lt_succ_self L)
  dsimp only at register
  have early : feedback.outputs lfsr (inputs.take u) = (feedback.outputs lfsr inputs).take u := by
    have split := feedback.outputs_append lfsr (inputs.take u) (inputs.drop u)
    rw [List.take_append_drop] at split
    rw [split, List.take_left' (by simp; omega)]
  rw [Nat.sub_self, early] at register
  rw [Mealy.getElem?_outputs, List.getElem?_eq_getElem inside, Option.map_some, ← register]
  exact congrArg some (output_eq _)

theorem getElem?_descrambler (lfsr : GriLfsr) (inputs : List UInt8) (u : ℕ)
    (inside : u < inputs.length) :
    (descrambler.outputs lfsr inputs)[u]? = some (byteOf
      ((descrambler.after lfsr (inputs.take u)).parity ^^ lsb inputs[u])) := by
  rw [Mealy.getElem?_outputs, List.getElem?_eq_getElem inside, Option.map_some]
  exact congrArg some (parity_xor _ _)

theorem getD_entered (bits past : List Bool) {u j k : ℕ} (inside : u + j ≤ bits.length) :
    ((bits.take (u + j)).reverse ++ past).getD (j + k) false =
      ((bits.take u).reverse ++ past).getD k false := by
  have newest : ((bits.drop u).take j).reverse.length = j := by
    simp
    omega
  rw [List.take_add, List.reverse_append, List.append_assoc, List.getD_append_right _ _ _ _
    (by omega), newest, Nat.add_sub_cancel_left]

theorem getD_received (bits past : List Bool) {u : ℕ} (inside : u ≤ bits.length) (k : ℕ) :
    ((bits.take u).reverse ++ past).getD k false =
      if k < u then bits.getD (u - 1 - k) false else past.getD (k - u) false := by
  have length : (bits.take u).reverse.length = u := by simp [inside]
  split
  · rename_i young
    rw [List.getD_append _ _ _ _ (by omega), List.getD_eq_getElem?_getD,
      List.getElem?_reverse (by simpa using ⟨young, Nat.lt_of_lt_of_le young inside⟩),
      List.length_take, Nat.min_eq_left inside, List.getElem?_take_of_lt (by omega),
      List.getD_eq_getElem?_getD]
  · rename_i old
    rw [List.getD_append_right _ _ _ _ (by omega), length]

variable {past₁ past₂ flips : List Bool} {scrambling descrambling : GriLfsr} {channel : List UInt8}

theorem parity_descrambler (short : L ≤ 31) (taken₁ : HasTaken mask L past₁ scrambling)
    (taken₂ : HasTaken mask L past₂ descrambling) (inputs : List UInt8) (v : ℕ)
    (inside : v + (L + 1) ≤ inputs.length) :
    (descrambler.after descrambling
      ((scrambler.outputs scrambling inputs).take (v + (L + 1)))).parity =
        (scrambler.after scrambling (inputs.take v)).parity := by
  have received := taken₂.descramble short
    ((scrambler.outputs scrambling inputs).take (v + (L + 1)))
  have fed := taken₁.scramble short (inputs.take v)
  have early : feedback.outputs scrambling (inputs.take v) =
      (feedback.outputs scrambling inputs).take v := by
    have split := feedback.outputs_append scrambling (inputs.take v) (inputs.drop v)
    rw [List.take_append_drop] at split
    rw [split, List.take_left' (by simp; omega)]
  rw [early] at fed
  rw [List.map_take] at received
  apply received.parity_eq fed
  intro k young
  have place : v + (L + 1) - 1 - k = v + (L - k) := by omega
  have age : L - k + k = L := by omega
  have sent := taken₁.sends short inputs (v + (L - k)) (by omega)
  have kept := getD_entered (feedback.outputs scrambling inputs) past₁ (u := v) (j := L - k)
    (k := k) (by simp; omega)
  rw [age] at kept
  rw [getD_received _ _ (by simp; omega), if_pos (by omega), place, List.getD_eq_getElem?_getD,
    List.getElem?_map, sent, kept, Option.map_some, Option.getD_some, lsb_byteOf]

theorem descramble_scramble (short : L ≤ 31) (taken₁ : HasTaken mask L past₁ scrambling)
    (taken₂ : HasTaken mask L past₂ descrambling) (inputs : List UInt8) (v : ℕ)
    (inside : v + (L + 1) < inputs.length) :
    (descrambler.outputs descrambling (scrambler.outputs scrambling inputs))[v + (L + 1)]? =
      some (inputs.getD v 0 &&& 1) := by
  have sent := taken₁.sends short inputs (v + (L + 1)) inside
  have place : v + (L + 1) = v + 1 + L := by omega
  have kept := getD_entered (feedback.outputs scrambling inputs) past₁ (u := v + 1) (j := L)
    (k := 0) (by simp; omega)
  have within : v < inputs.length := by omega
  have first : ((feedback.outputs scrambling inputs).take (v + 1)).reverse ++ past₁ =
      ((scrambler.after scrambling (inputs.take v)).parity ^^ lsb inputs[v]) ::
        (((feedback.outputs scrambling inputs).take v).reverse ++ past₁) := by
    have entered : (feedback.outputs scrambling inputs)[v]? =
        some ((scrambler.after scrambling (inputs.take v)).parity ^^ lsb inputs[v]) := by
      rw [Mealy.getElem?_outputs, List.getElem?_eq_getElem within]
      rfl
    rw [List.take_add_one, entered, List.reverse_append]
    rfl
  rw [first, List.getD_cons_zero, Nat.add_zero L, ← place] at kept
  rw [kept] at sent
  have length : v + (L + 1) < (scrambler.outputs scrambling inputs).length := by simpa using inside
  rw [List.getElem?_eq_getElem length] at sent
  rw [getElem?_descrambler _ _ _ length, Option.some.inj sent, lsb_byteOf,
    parity_descrambler short taken₁ taken₂ inputs v (by omega), List.getD_eq_getElem _ _ within,
    and_one_eq, ← Bool.xor_assoc, Bool.xor_self, Bool.false_xor]

theorem HasTaken.depends (taken : HasTaken mask L past lfsr) (short : L ≤ 31)
    {channel' : List UInt8} (same : channel.length = channel'.length) (u : ℕ)
    (agree : ∀ v, u - (L + 1) ≤ v → v ≤ u →
      (channel.map lsb).getD v false = (channel'.map lsb).getD v false) :
    (descrambler.outputs lfsr channel)[u]? = (descrambler.outputs lfsr channel')[u]? := by
  by_cases inside : u < channel.length
  · have one := taken.descramble short (channel.take u)
    have other := taken.descramble short (channel'.take u)
    rw [List.map_take] at one other
    have parities := one.parity_eq other fun k young => by
      rw [getD_received _ _ (by simp; omega), getD_received _ _ (by simp; omega)]
      split
      · exact agree _ (by omega) (by omega)
      · rfl
    have now := agree u (Nat.sub_le _ _) (Nat.le_refl u)
    rw [List.getD_eq_getElem _ _ (by simpa using inside),
      List.getD_eq_getElem _ _ (by simpa [← same] using inside), List.getElem_map,
      List.getElem_map] at now
    rw [getElem?_descrambler _ _ _ inside, getElem?_descrambler _ _ _ (same ▸ inside), parities,
      now]
  · rw [List.getElem?_eq_none (by simp; omega), List.getElem?_eq_none (by simp; omega)]

/-- A channel that flips some bits. -/
def flipBits (channel : List UInt8) (flips : List Bool) : List UInt8 :=
  List.zipWith (fun byte flip => byte ^^^ byteOf flip) channel flips

theorem length_flipBits (same : flips.length = channel.length) :
    (flipBits channel flips).length = channel.length := by
  simp [flipBits, same]

theorem getD_flipBits
    (same : flips.length = channel.length) {v : ℕ} (kept : flips[v]? ≠ some true) :
    ((flipBits channel flips).map lsb).getD v false = (channel.map lsb).getD v false := by
  by_cases inside : v < channel.length
  · have within : v < flips.length := same ▸ inside
    have bit : flips[v] = false := by
      rw [List.getElem?_eq_getElem within] at kept
      simpa using kept
    have held : v < (flipBits channel flips).length := length_flipBits same ▸ inside
    have same' : (flipBits channel flips)[v] = channel[v] := by
      simp [flipBits, bit, byteOf]
    rw [List.getD_eq_getElem _ _ (by simpa using held),
      List.getD_eq_getElem _ _ (by simpa using inside), List.getElem_map, List.getElem_map, same']
  · rw [List.getD_eq_default _ _ (by simp [length_flipBits same]; omega),
      List.getD_eq_default _ _ (by simp; omega)]

/-- **The scrambler is self-synchronising.** -/
theorem self_synchronising (mask : UInt32) {seed₁ seed₂ regLen : UInt32}
    (short : regLen.toNat ≤ 31)
    (below₁ : seed₁.toNat < 2 ^ (regLen.toNat + 1))
    (below₂ : seed₂.toNat < 2 ^ (regLen.toNat + 1)) :
    ∃ scrambling descrambling, construct mask seed₁ regLen = .ok scrambling ∧
      construct mask seed₂ regLen = .ok descrambling ∧
      (∀ (inputs : List UInt8) (u : ℕ), regLen.toNat + 1 ≤ u → u < inputs.length →
        (descrambler.outputs descrambling (scrambler.outputs scrambling inputs))[u]? =
          some (inputs.getD (u - (regLen.toNat + 1)) 0 &&& 1)) ∧
      ∀ (channel : List UInt8) (flips : List Bool) (u : ℕ), flips.length = channel.length →
        (descrambler.outputs descrambling (flipBits channel flips))[u]? ≠
          (descrambler.outputs descrambling channel)[u]? →
        ∃ v, u - (regLen.toNat + 1) ≤ v ∧ v ≤ u ∧ flips[v]? = some true := by
  obtain ⟨scrambling, made₁, taken₁⟩ := construct_eq mask short below₁
  obtain ⟨descrambling, made₂, taken₂⟩ := construct_eq mask short below₂
  refine ⟨scrambling, descrambling, made₁, made₂, ?_, ?_⟩
  · intro inputs u late inside
    obtain ⟨v, rfl⟩ := Nat.exists_eq_add_of_le' late
    rw [Nat.add_sub_cancel]
    exact descramble_scramble short taken₁ taken₂ inputs v inside
  · intro channel flips u same changed
    by_contra none
    apply changed
    apply taken₂.depends short (length_flipBits same)
    intro v least most
    exact getD_flipBits same fun flipped => none ⟨v, least, most, flipped⟩

/-- A register of three bits, with different seeds. -/
theorem self_synchronising_three :
    ∃ scrambling descrambling, construct 0b101 0b011 2 = .ok scrambling ∧
      construct 0b101 0b110 2 = .ok descrambling ∧
      (descrambler.outputs descrambling (scrambler.outputs scrambling [1, 0, 1, 1, 0]))[4]? =
        some 0 := by
  obtain ⟨scrambling, descrambling, made₁, made₂, synchronised, -⟩ :=
    self_synchronising 0b101 (show (2 : UInt32).toNat ≤ 31 by decide)
      (show (0b011 : UInt32).toNat < 2 ^ 3 by decide)
      (show (0b110 : UInt32).toNat < 2 ^ 3 by decide)
  exact ⟨scrambling, descrambling, made₁, made₂, synchronised [1, 0, 1, 1, 0] 4 (by decide)
    (by decide)⟩

end GriLfsr

end GnuRadio
