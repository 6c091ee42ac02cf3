import GnuRadio.Pmt.ReadBack

/-!
# The encoding is canonical

A value without reals, complex numbers and symbols was read from its own byte form. So
`pmt_serialize` writes the bytes again that were read, unless the least number of 32 bits is among
them: the reader takes it, and the range test of the writer does not.
-/

namespace GnuRadio

open Program Streambuf

/-- The values without reals, complex numbers and symbols. -/
def Plain : Pmt → Prop
  | .symbol _ => False
  | .real _ => False
  | .complex _ _ => False
  | .pair car cdr => Plain car ∧ Plain cdr
  | _ => True

/-- The bytes got between two states of a stream. -/
def consumed (sb t : Streambuf) : List UInt8 := (sb.bytes.drop sb.next).take (t.next - sb.next)

/-- No number among these bytes is `80 00 00 00`: behind a tag `03` the next four bytes are a
number, and any other tag stands alone. -/
def NoMinimum : List UInt8 → Prop
  | [] => True
  | tag :: rest =>
    if tag.toNat = pstInt32 then rest.take 4 ≠ [0x80, 0, 0, 0] ∧ NoMinimum (rest.drop 4)
    else NoMinimum rest
termination_by bytes => bytes.length
decreasing_by
  · simp only [List.length_drop, List.length_cons]
    omega
  · exact Nat.lt_succ_self _

/-- What has been read as `v` is the byte form of `v`. -/
def ReadFrom (sb : Streambuf) (bytes : List UInt8) (t : Streambuf) : Prop :=
  (∃ l, sb.ahead = bytes ++ l) ∧ t = sb.advance bytes.length

variable {sb t : Streambuf} {bytes : List UInt8} {n : Nat}

theorem ReadFrom.append {u : Streambuf} {more : List UInt8} (first : ReadFrom sb bytes t)
    (rest : ReadFrom t more u) : ReadFrom sb (bytes ++ more) u := by
  obtain ⟨⟨l, ahead⟩, rfl⟩ := first
  obtain ⟨⟨m, after⟩, rfl⟩ := rest
  rw [ahead_advance, ahead, List.drop_left] at after
  refine ⟨⟨m, ?_⟩, ?_⟩
  · rw [ahead, after, List.append_assoc]
  · rw [advance_advance, List.length_append]

theorem ReadFrom.consumed (read : ReadFrom sb bytes t) : consumed sb t = bytes := by
  obtain ⟨⟨l, ahead⟩, rfl⟩ := read
  have length : (sb.advance bytes.length).next - sb.next = bytes.length :=
    Nat.add_sub_cancel_left ..
  rw [GnuRadio.consumed, length, ← Streambuf.ahead, ahead, List.take_left]

/-! ## Numbers -/

theorem bigEndian_mul_add (n k i : Nat) : bigEndian n (k * 256 ^ n + i) = bigEndian n i := by
  induction n generalizing k with
  | zero => rfl
  | succ n ih =>
    have tail : k * 256 ^ (n + 1) + i = k * 256 * 256 ^ n + i := by
      rw [Nat.pow_succ]
      ring
    have head : (k * 256 * 256 ^ n + i) >>> (8 * n) = k * 256 + i >>> (8 * n) := by
      rw [Nat.shiftRight_eq_div_pow, Nat.shiftRight_eq_div_pow, Nat.pow_mul, Nat.add_comm,
        Nat.add_mul_div_right _ _ (Nat.pow_pos (by norm_num)), Nat.add_comm]
    have byte : UInt8.ofNat (k * 256 + i >>> (8 * n)) = UInt8.ofNat (i >>> (8 * n)) := by
      apply UInt8.toNat_inj.mp
      simp
    rw [bigEndian, bigEndian, tail, ih, head, byte]

theorem exists_bigEndian (bytes : List UInt8) :
    ∃ i < 256 ^ bytes.length, bytes = bigEndian bytes.length i := by
  induction bytes with
  | nil => exact ⟨0, Nat.one_pos, rfl⟩
  | cons c l ih =>
    obtain ⟨i, below, form⟩ := ih
    have small := c.toNat_lt
    have head : (c.toNat * 256 ^ l.length + i) >>> (8 * l.length) = c.toNat := by
      rw [Nat.shiftRight_eq_div_pow, Nat.pow_mul, Nat.add_comm,
        Nat.add_mul_div_right _ _ (Nat.pow_pos (by norm_num)), Nat.div_eq_of_lt below, Nat.zero_add]
    refine ⟨c.toNat * 256 ^ l.length + i, ?_, ?_⟩
    · rw [List.length_cons, Nat.pow_succ']
      calc
        c.toNat * 256 ^ l.length + i < (c.toNat + 1) * 256 ^ l.length := by
          rw [Nat.succ_mul]
          exact Nat.add_lt_add_left below _
        _ ≤ 256 * 256 ^ l.length := Nat.mul_le_mul_right _ small
    · rw [List.length_cons, bigEndian, bigEndian_mul_add, head, ← form, UInt8.ofNat_toNat]

theorem deserializeUntagged_length {acc v : Nat}
    (done : Returns (deserializeUntagged n acc) sb (v, true) t) : n ≤ sb.ahead.length := by
  induction n generalizing acc sb with
  | zero => exact Nat.zero_le _
  | succ n ih =>
    cases ahead : sb.ahead with
    | nil =>
      have failed := (deserializeUntagged_short done).2 ahead
      exact absurd failed (by decide)
    | cons c l =>
      rw [deserializeUntagged] at done
      obtain ⟨d, u, first, rest⟩ := returns_bind.mp done
      obtain ⟨rfl, rfl⟩ := (sbumpc_returns ahead).unique first
      split at rest
      · rename_i last
        subst last
        exact Nat.le_add_left 1 l.length
      · have more := ih rest
        rw [ahead_advance, ahead] at more
        exact Nat.succ_le_succ more

theorem deserializeUntagged_exact {v : Nat} (some : n ≠ 0)
    (done : Returns (deserializeUntagged n 0) sb (v, true) t) :
    v < 256 ^ n ∧ ReadFrom sb (bigEndian n v) t := by
  have long := deserializeUntagged_length done
  obtain ⟨i, below, form⟩ := exists_bigEndian (sb.ahead.take n)
  have length : (sb.ahead.take n).length = n := by simpa using long
  rw [length] at below form
  have ahead : sb.ahead = bigEndian n i ++ sb.ahead.drop n := by
    rw [← form, List.take_append_drop]
  obtain ⟨value, rfl⟩ := (@deserializeUntagged_returns n i 0 _ _ some ahead).unique done
  have same : i = v := by
    have read := (Prod.mk.inj value).1
    rwa [Nat.zero_mul, Nat.zero_add, Nat.mod_eq_of_lt below] at read
  subst same
  exact ⟨below, ⟨_, ahead⟩, by rw [length_bigEndian]⟩

/-! ## Values -/

/-- The values that are read: numbers fit 32 bits. -/
inductive Canonical : Pmt → Prop
  | bool (value : Bool) : Canonical (.bool value)
  | null : Canonical .null
  | integer (value : Int64) (above : -2147483648 ≤ value.toInt) (below : value.toInt < 2147483648) :
      Canonical (.integer value)
  | pair (car cdr : Pmt) (first : Canonical car) (rest : Canonical cdr) : Canonical (.pair car cdr)

theorem chain_ne_eof {cells : List Pmt} {car cdr : Pmt} : chain (car :: cells) cdr ≠ .eof := by
  induction cells generalizing car cdr with
  | nil => exact Pmt.noConfusion
  | cons c cells ih => exact ih

theorem pmtFromLong_bytes {u32 : Nat} (below : u32 < 256 ^ 4) :
    Canonical (pmtFromLong ((u32 : Int).bmod (2 ^ 32))) ∧
      wireBytes (pmtFromLong ((u32 : Int).bmod (2 ^ 32))) = 0x03 :: bigEndian 4 u32 := by
  have range : -2147483648 ≤ (u32 : Int).bmod (2 ^ 32) ∧ (u32 : Int).bmod (2 ^ 32) < 2147483648 := by
    rw [Int.bmod_def]
    omega
  have value : (Int64.ofInt ((u32 : Int).bmod (2 ^ 32))).toInt = (u32 : Int).bmod (2 ^ 32) := by
    apply Int64.toInt_ofInt_of_le
    · exact le_trans (by norm_num) range.1
    · exact lt_of_lt_of_le range.2 (by norm_num)
  refine ⟨.integer _ ?_ ?_, ?_⟩
  · rw [value]
    exact range.1
  · rw [value]
    exact range.2
  have again : (((u32 : Int).bmod (2 ^ 32)) % 2 ^ 32).toNat = u32 := by
    rw [Int.bmod_def]
    omega
  rw [pmtFromLong, wireBytes, value, again]

/-- `pmt_deserialize` returns a plain value from its byte form. -/
def ReadsBack (fuel : Nat) : Prop :=
  ∀ sb y t, Returns (deserialize fuel) sb y t →
    (y = .eof → sb.ahead = [] ∧ t.ahead = []) ∧
      (y ≠ .eof → Plain y → Canonical y ∧ ReadFrom sb (wireBytes y) t)

/-- `parse_pair` adds at least a cell, which it reads from the byte forms of its two parts. -/
def ReadsBackPair (fuel : Nat) : Prop :=
  ∀ sb cells y t, Returns (parsePair fuel cells) sb y t →
    ∃ car cdr, y = chain (car :: cells) cdr ∧ (Plain car → Plain cdr →
      Canonical car ∧ Canonical cdr ∧ ReadFrom sb (wireBytes car ++ wireBytes cdr) t)

theorem parsePair_exact {fuel : Nat} (value : ReadsBack fuel) (pair : ReadsBackPair fuel) :
    ReadsBackPair (fuel + 1) := by
  intro sb cells y t done
  rw [parsePair] at done
  obtain ⟨car, u, first, done⟩ := returns_bind.mp done
  obtain ⟨⟨tag, ok⟩, w, second, done⟩ := returns_bind.mp done
  dsimp only at done
  cases ok with
  | false => exact absurd done not_returns_throw
  | true =>
    obtain ⟨below, tagRead⟩ := deserializeUntagged_exact Nat.one_ne_zero second
    have some : u.ahead ≠ [] := fun none =>
      absurd ((deserializeUntagged_short second).2 none) (by decide)
    have car_ne : car ≠ .eof := fun last => some ((value sb car u first).1 last).2
    have carExact := (value sb car u first).2 car_ne
    rw [if_neg (by decide)] at done
    by_cases more : tag = pstPair
    · -- the next cell is read in another round
      rw [if_pos more] at done
      obtain ⟨car', cdr', rfl, rest⟩ := pair w (car :: cells) y t done
      refine ⟨car, .pair car' cdr', rfl, fun plain plainRest => ?_⟩
      obtain ⟨canonical, read⟩ := carExact plain
      obtain ⟨canonical', canonicalRest, readRest⟩ := rest plainRest.1 plainRest.2
      subst more
      exact ⟨canonical, .pair car' cdr' canonical' canonicalRest,
        read.append (tagRead.append readRest)⟩
    rw [if_neg more] at done
    by_cases last : tag = pstNull
    · rw [if_pos last] at done
      obtain ⟨rfl, rfl⟩ := returns_pure.mp done
      refine ⟨car, .null, rfl, fun plain _ => ?_⟩
      obtain ⟨canonical, read⟩ := carExact plain
      subst last
      exact ⟨canonical, .null, read.append tagRead⟩
    · -- the tag is pushed back
      rw [if_neg last] at done
      obtain ⟨-, rfl⟩ := tagRead
      obtain ⟨_, u', back, done⟩ := returns_bind.mp done
      obtain ⟨-, rfl⟩ := (sungetc_returns u).unique back
      obtain ⟨cdr, t', third, done⟩ := returns_bind.mp done
      obtain ⟨rfl, rfl⟩ := returns_pure.mp done
      have cdr_ne : cdr ≠ .eof := fun last => some ((value u cdr t' third).1 last).1
      refine ⟨car, cdr, rfl, fun plain plainRest => ?_⟩
      obtain ⟨canonical, read⟩ := carExact plain
      obtain ⟨canonicalRest, readRest⟩ := (value u cdr t' third).2 cdr_ne plainRest
      exact ⟨canonical, canonicalRest, read.append readRest⟩

theorem deserialize_exact {fuel : Nat} (pair : ReadsBackPair fuel) : ReadsBack (fuel + 1) := by
  intro sb y t done
  obtain ⟨⟨tag, ok⟩, u, first, read⟩ := deserialize_cases done
  cases ok with
  | false =>
    cases read
    refine ⟨fun _ => ⟨?_, (deserializeUntagged_short first).1 rfl⟩, fun ne => absurd rfl ne⟩
    cases ahead : sb.ahead with
    | nil => rfl
    | cons c l =>
      have read := ((deserializeUntaggedU8_returns ahead).unique first).1
      exact absurd (congrArg Prod.snd read).symm Bool.false_ne_true
  | true =>
    obtain ⟨-, tagRead⟩ := deserializeUntagged_exact Nat.one_ne_zero first
    cases read with
    | true => exact ⟨Pmt.noConfusion, fun _ _ => ⟨.bool true, tagRead⟩⟩
    | false => exact ⟨Pmt.noConfusion, fun _ _ => ⟨.bool false, tagRead⟩⟩
    | null => exact ⟨Pmt.noConfusion, fun _ _ => ⟨.null, tagRead⟩⟩
    | symbol | double => exact ⟨Pmt.noConfusion, fun _ => False.elim⟩
    | int32 number =>
      obtain ⟨small, read⟩ := deserializeUntagged_exact (n := 4) (by decide) number
      obtain ⟨canonical, form⟩ := pmtFromLong_bytes small
      refine ⟨Pmt.noConfusion, fun _ _ => ⟨canonical, ?_⟩⟩
      rw [form]
      exact tagRead.append read
    | pair rest =>
      obtain ⟨car, cdr, rfl, parts⟩ := pair u [] y t rest
      refine ⟨fun last => absurd last chain_ne_eof, fun _ plain => ?_⟩
      obtain ⟨canonical, canonicalRest, read⟩ := parts plain.1 plain.2
      exact ⟨.pair car cdr canonical canonicalRest, tagRead.append read⟩

theorem reads_back (fuel : Nat) : ReadsBack fuel ∧ ReadsBackPair fuel := by
  induction fuel with
  | zero =>
    constructor
    · intro sb y t done
      rw [deserialize] at done
      exact absurd done not_returns_throw
    · intro sb cells y t done
      rw [parsePair] at done
      exact absurd done not_returns_throw
  | succ fuel ih => exact ⟨deserialize_exact ih.2, parsePair_exact ih.1 ih.2⟩

/-! ## The least number -/

theorem bigEndian_injective {i j : Nat} (some : n ≠ 0) (first : i < 256 ^ n) (second : j < 256 ^ n)
    (same : bigEndian n i = bigEndian n j) : i = j := by
  have one := @deserializeUntagged_returns n i 0 ⟨bigEndian n i, 0, none⟩ [] some (by simp [ahead])
  have other := @deserializeUntagged_returns n j 0 ⟨bigEndian n i, 0, none⟩ [] some
    (by simp [ahead, same])
  have value := congrArg Prod.fst (one.unique other).1
  simpa [Nat.mod_eq_of_lt first, Nat.mod_eq_of_lt second] using value

theorem noMinimum_tag {tag : UInt8} {rest : List UInt8} (other : tag.toNat ≠ pstInt32) :
    NoMinimum (tag :: rest) ↔ NoMinimum rest := by
  rw [NoMinimum, if_neg other]

theorem noMinimum_wireBytes {v : Pmt} (canonical : Canonical v) (l : List UInt8) :
    NoMinimum (wireBytes v ++ l) ↔ Stored v ∧ NoMinimum l := by
  induction canonical generalizing l with
  | bool value =>
    have stored := Stored.bool value
    cases value with
    | true =>
      rw [wireBytes, List.singleton_append, noMinimum_tag (by decide)]
      exact ⟨fun rest => ⟨stored, rest⟩, And.right⟩
    | false =>
      rw [wireBytes, List.singleton_append, noMinimum_tag (by decide)]
      exact ⟨fun rest => ⟨stored, rest⟩, And.right⟩
  | null =>
    rw [wireBytes, List.singleton_append, noMinimum_tag (by decide)]
    exact ⟨fun rest => ⟨.null, rest⟩, And.right⟩
  | integer value above below =>
    have least : bigEndian 4 (value.toInt % 2 ^ 32).toNat = [0x80, 0, 0, 0] ↔
        value.toInt = -2147483648 := by
      have form : ([0x80, 0, 0, 0] : List UInt8) = bigEndian 4 2147483648 := by decide
      rw [form]
      constructor
      · intro same
        have number := bigEndian_injective (by decide) (by omega) (by norm_num) same
        omega
      · intro minimum
        rw [minimum]
        rfl
    have taken : (bigEndian 4 (value.toInt % 2 ^ 32).toNat ++ l).take 4 =
        bigEndian 4 (value.toInt % 2 ^ 32).toNat := List.take_left' (length_bigEndian 4 _)
    have dropped : (bigEndian 4 (value.toInt % 2 ^ 32).toNat ++ l).drop 4 = l :=
      List.drop_left' (length_bigEndian 4 _)
    rw [wireBytes, List.cons_append, NoMinimum, if_pos (by decide), taken, dropped, Ne, least]
    constructor
    · rintro ⟨other, rest⟩
      exact ⟨.integer value (by omega) below, rest⟩
    · rintro ⟨stored, rest⟩
      cases stored with
      | integer _ more _ => exact ⟨by omega, rest⟩
  | pair car cdr _ _ first second =>
    rw [wireBytes, List.cons_append, noMinimum_tag (by decide), List.append_assoc, first, second]
    constructor
    · rintro ⟨stored, storedRest, rest⟩
      exact ⟨.pair car cdr stored storedRest, rest⟩
    · rintro ⟨stored, rest⟩
      cases stored with
      | pair _ _ one two => exact ⟨one, two, rest⟩

/-- What `pmt_deserialize` returned, `pmt_serialize` writes with the bytes it was read from. -/
def WrittenBack (x : Pmt) (sb t : Streambuf) : Prop :=
  ∃ written, Returns (pmtSerialize x) .empty true written ∧ written.bytes = consumed sb t

/-- A plain value that was read, with any fuel, is written with the bytes it was read from exactly
when the least number of 32 bits is not among them. -/
theorem pmt_canonical_iff (fuel : Nat) (sb t : Streambuf) (x : Pmt)
    (read : Returns (deserialize fuel) sb x t) (notEof : x ≠ .eof) (plain : Plain x) :
    WrittenBack x sb t ↔ NoMinimum (consumed sb t) := by
  obtain ⟨canonical, form⟩ := ((reads_back fuel).1 sb x t read).2 notEof plain
  have whole := noMinimum_wireBytes canonical []
  rw [List.append_nil] at whole
  rw [form.consumed, whole]
  constructor
  · intro ⟨written, done, _⟩
    exact ⟨(pmtSerialize_put done).2 ((deserialize_readable fuel).1 read), by simp [NoMinimum]⟩
  · intro ⟨stored, _⟩
    refine ⟨_, pmtSerialize_returns stored rfl, ?_⟩
    rw [form.consumed]
    rfl

/-- A list of two numbers with a dotted tail. -/
theorem pmt_canonical_dotted : WrittenBack
    (.pair (.integer 1) (.pair (.integer (-2147483647)) (.bool true)))
    ⟨[7, 3, 0, 0, 0, 1, 7, 3, 0x80, 0, 0, 1, 0, 0x2a], 0, none⟩
    ⟨[7, 3, 0, 0, 0, 1, 7, 3, 0x80, 0, 0, 1, 0, 0x2a], 13, none⟩ := by
  have stored : Stored (.pair (.integer 1) (.pair (.integer (-2147483647)) (.bool true))) :=
    .pair _ _ (.integer 1 (by decide) (by decide))
      (.pair _ _ (.integer (-2147483647) (by decide) (by decide)) (.bool true))
  have read := (reads_of_stored stored).1
    ⟨[7, 3, 0, 0, 0, 1, 7, 3, 0x80, 0, 0, 1, 0, 0x2a], 0, none⟩ [0x2a] 27 (by decide) (by decide)
  refine (pmt_canonical_iff 27 _ _ _ read Pmt.noConfusion ⟨trivial, trivial, trivial⟩).mpr ?_
  show NoMinimum [7, 3, 0, 0, 0, 1, 7, 3, 0x80, 0, 0, 1, 0]
  simp [NoMinimum, pstInt32]

/-- The reader takes the bytes `03 80 00 00 00`, the writer throws. -/
theorem least_number_not_written : ¬ ∀ sb t x, Returns pmtDeserialize sb x t → x ≠ .eof → Plain x →
    WrittenBack x sb t := by
  intro always
  have read : Returns pmtDeserialize ⟨[3, 0x80, 0, 0, 0], 0, none⟩ (.integer (-2147483648))
      ⟨[3, 0x80, 0, 0, 0], 5, none⟩ := by
    refine Returns.bind (Returns.get _) ?_
    show Returns (deserialize (10 + 1)) _ _ _
    rw [deserialize]
    refine Returns.bind (deserializeUntaggedU8_returns (c := 3) (l := [0x80, 0, 0, 0]) rfl) ?_
    refine Returns.bind (deserializeUntagged_returns (n := 4) (i := 2147483648) (l := [])
      (by decide) (by decide)) ?_
    exact Returns.pure _ _
  have written := always _ _ _ read Pmt.noConfusion trivial
  obtain ⟨out, done, -⟩ := written
  rw [pmtSerialize, if_pos (by decide)] at done
  exact not_returns_throw done

end GnuRadio
