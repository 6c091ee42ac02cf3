import GnuRadio.Pmt.RoundTrip

/-!
# What is read back

The writer accepts more than the reader gives back: a real goes through a
`float`, the imaginary part of a complex number is never read, and a symbol is
read into a buffer of 1024 bytes. `Preserved` is what is left.
-/

namespace GnuRadio

open Program Streambuf

/-- The values written without loss: no complex number, no symbol longer than the buffer of
the reader, and only reals that are `float`s. -/
def Preserved : Pmt → Prop
  | .symbol name => name.length ≤ tmpbufSize
  | .real x => throughFloat x = x
  | .complex _ _ => False
  | .pair car cdr => Preserved car ∧ Preserved cdr
  | _ => True

/-- The values `pmt_deserialize` can return. -/
def Readable : Pmt → Prop
  | .symbol name => name.length ≤ tmpbufSize
  | .complex _ _ => False
  | .pair car cdr => Readable car ∧ Readable cdr
  | _ => True

/-! ## The writer -/

variable {sb t : Streambuf} {ok : Bool} {n i : Nat} {y x : Pmt}

theorem sputc_cases {c : UInt8} (done : Returns (sputc c) sb ok t) :
    (sb.room.any (· ≤ sb.bytes.length) = true ∧ ok = false ∧ t = sb) ∨
      (sb.room.any (· ≤ sb.bytes.length) = false ∧ ok = true ∧ t = sb.put [c]) := by
  obtain ⟨s, u, got, rest⟩ := returns_bind.mp done
  obtain ⟨rfl, rfl⟩ := (Returns.get sb).unique got
  cases full : sb.room.any (· ≤ sb.bytes.length) with
  | true =>
    rw [full, if_pos rfl] at rest
    obtain ⟨rfl, rfl⟩ := returns_pure.mp rest
    exact Or.inl ⟨rfl, rfl, rfl⟩
  | false =>
    rw [full, if_neg Bool.false_ne_true] at rest
    obtain ⟨_, u, put, rest⟩ := returns_bind.mp rest
    obtain ⟨-, rfl⟩ := (Returns.set _ _).unique put
    obtain ⟨rfl, rfl⟩ := returns_pure.mp rest
    exact Or.inr ⟨rfl, rfl, rfl⟩

theorem serializeUntagged_full (full : sb.room.any (· ≤ sb.bytes.length) = true)
    (done : Returns (serializeUntagged (n + 1) i) sb ok t) : ok = false := by
  induction n with
  | zero =>
    obtain ⟨put, u, first, rest⟩ := returns_bind.mp done
    rw [if_pos rfl] at rest
    obtain ⟨rfl, rfl⟩ := returns_pure.mp rest
    rcases sputc_cases first with ⟨-, failed, -⟩ | ⟨space, -, -⟩
    · exact failed
    · exact absurd (full.symm.trans space) (by decide)
  | succ n ih =>
    obtain ⟨put, u, first, rest⟩ := returns_bind.mp done
    rw [if_neg (Nat.succ_ne_zero n)] at rest
    rcases sputc_cases first with ⟨-, -, rfl⟩ | ⟨space, -, -⟩
    · exact ih rest
    · exact absurd (full.symm.trans space) (by decide)

theorem serializeUntagged_put (done : Returns (serializeUntagged n i) sb true t) :
    t = sb.put (bigEndian n i) := by
  induction n generalizing sb with
  | zero =>
    obtain ⟨-, rfl⟩ := returns_pure.mp done
    simp [put, bigEndian]
  | succ n ih =>
    obtain ⟨ok, u, first, rest⟩ := returns_bind.mp done
    rcases sputc_cases first with ⟨full, rfl, rfl⟩ | ⟨space, rfl, rfl⟩
    · exact absurd (serializeUntagged_full full done) (by decide)
    · split at rest
      · rename_i last
        obtain ⟨-, rfl⟩ := returns_pure.mp rest
        rw [last]
        rfl
      · rw [ih rest, put_put]
        rfl

theorem serializeUntaggedU8_put (done : Returns (serializeUntaggedU8 i) sb true t) :
    t = sb.put [UInt8.ofNat i] :=
  serializeUntagged_put done

theorem serializeBytes_put {l : List UInt8}
    (done : Returns (l.foldlM (fun ok c => do
      let put ← serializeUntaggedU8 c.toNat
      return ok && put) ok) sb true t) : ok = true ∧ t = sb.put l := by
  induction l generalizing ok sb with
  | nil =>
    obtain ⟨rfl, rfl⟩ := returns_pure.mp done
    simp [put]
  | cons c l ih =>
    rw [List.foldlM_cons] at done
    obtain ⟨both, u, first, rest⟩ := returns_bind.mp done
    obtain ⟨here, v, byte, joined⟩ := returns_bind.mp first
    obtain ⟨rfl, rfl⟩ := returns_pure.mp joined
    obtain ⟨all, rfl⟩ := ih rest
    obtain ⟨rfl, rfl⟩ := Bool.and_eq_true_iff.mp all
    rw [serializeUntaggedU8_put byte, put_put]
    simp

/-- Where `pmt_serialize` returns true it has put the byte form of stored objects. -/
theorem pmtSerialize_put {v : Pmt} (done : Returns (pmtSerialize v) sb true t) :
    t = sb.put (wireBytes v) ∧ (Readable v → Stored v) := by
  induction v using pmtSerialize.induct generalizing sb t with
  | case1 => exact ⟨serializeUntaggedU8_put done, fun _ => .bool true⟩
  | case2 => exact ⟨serializeUntaggedU8_put done, fun _ => .bool false⟩
  | case3 => exact ⟨serializeUntaggedU8_put done, fun _ => .null⟩
  | case4 name =>
    rw [pmtSerialize] at done
    obtain ⟨tag, u, first, rest⟩ := returns_bind.mp done
    obtain ⟨length, v, second, rest⟩ := returns_bind.mp rest
    obtain ⟨all, rfl⟩ := serializeBytes_put rest
    obtain ⟨rfl, rfl⟩ := Bool.and_eq_true_iff.mp all
    rw [serializeUntagged_put second, serializeUntaggedU8_put first, put_put, put_put]
    exact ⟨rfl, fun short => .symbol name short⟩
  | case5 car cdr first rest =>
    rw [pmtSerialize] at done
    obtain ⟨tag, u, one, done⟩ := returns_bind.mp done
    obtain ⟨inner, w, two, done⟩ := returns_bind.mp done
    split at done
    · rename_i all
      obtain ⟨rfl, rfl⟩ := Bool.and_eq_true_iff.mp all
      obtain ⟨rfl, headStored⟩ := first two
      obtain ⟨rfl, tailStored⟩ := rest done
      rw [serializeUntaggedU8_put one, put_put, put_put]
      exact ⟨rfl, fun readable =>
        .pair car cdr (headStored readable.1) (tailStored readable.2)⟩
    · exact absurd (returns_pure.mp done).1 (by decide)
  | case6 =>
    rw [pmtSerialize] at done
    obtain ⟨tag, u, one, rest⟩ := returns_bind.mp done
    obtain ⟨inner, w, two, last⟩ := returns_bind.mp rest
    split at last
    · rename_i all
      obtain ⟨rfl, rfl⟩ := Bool.and_eq_true_iff.mp all
      rw [serializeUntaggedU8_put last, serializeUntaggedU8_put two, serializeUntaggedU8_put one,
        put_put, put_put]
      exact ⟨rfl, fun _ => .eof⟩
    · exact absurd (returns_pure.mp last).1 (by decide)
  | case7 i wide =>
    rw [pmtSerialize, if_pos wide] at done
    exact absurd done not_returns_throw
  | case8 i fits =>
    rw [pmtSerialize, if_neg fits] at done
    obtain ⟨tag, u, one, done⟩ := returns_bind.mp done
    obtain ⟨number, w, two, done⟩ := returns_bind.mp done
    obtain ⟨all, rfl⟩ := returns_pure.mp done
    obtain ⟨rfl, rfl⟩ := Bool.and_eq_true_iff.mp all
    rw [serializeUntagged_put two, serializeUntaggedU8_put one, put_put]
    exact ⟨rfl, fun _ => .integer i (by omega) (by omega)⟩
  | case9 x =>
    rw [pmtSerialize] at done
    obtain ⟨tag, u, one, done⟩ := returns_bind.mp done
    obtain ⟨number, w, two, done⟩ := returns_bind.mp done
    obtain ⟨all, rfl⟩ := returns_pure.mp done
    obtain ⟨rfl, rfl⟩ := Bool.and_eq_true_iff.mp all
    rw [serializeUntagged_put two, serializeUntaggedU8_put one, put_put]
    exact ⟨rfl, fun _ => .real x⟩
  | case10 re im =>
    rw [pmtSerialize] at done
    obtain ⟨tag, u, one, done⟩ := returns_bind.mp done
    obtain ⟨real, w, two, done⟩ := returns_bind.mp done
    obtain ⟨imag, z, three, done⟩ := returns_bind.mp done
    obtain ⟨all, rfl⟩ := returns_pure.mp done
    obtain ⟨both, rfl⟩ := Bool.and_eq_true_iff.mp all
    obtain ⟨rfl, rfl⟩ := Bool.and_eq_true_iff.mp both
    rw [serializeUntagged_put three, serializeUntagged_put two, serializeUntaggedU8_put one,
      put_put, put_put]
    exact ⟨rfl, fun readable => readable.elim⟩
  | case11 items => exact absurd done not_returns_throw
  | case12 size elements => exact absurd done not_returns_throw
  | case13 i => exact absurd done not_returns_throw
  | case14 items => exact absurd done not_returns_throw
  | case15 => exact absurd done not_returns_throw

/-! ## The reader -/

theorem sbumpc_cases {c : Option UInt8} (done : Returns sbumpc sb c t) :
    (sb.ahead = [] ∧ c = none ∧ t = sb) ∨ c.isSome := by
  cases ahead : sb.ahead with
  | nil =>
    obtain ⟨rfl, rfl⟩ := (sbumpc_eof ahead).unique done
    exact Or.inl ⟨rfl, rfl, rfl⟩
  | cons a l =>
    obtain ⟨rfl, rfl⟩ := (sbumpc_returns ahead).unique done
    exact Or.inr rfl

/-- Reading a number fails exactly where it ends at the end of the stream. -/
theorem deserializeUntagged_short {acc v : Nat}
    (done : Returns (deserializeUntagged (n + 1) acc) sb (v, ok) t) :
    (ok = false → t.ahead = []) ∧ (sb.ahead = [] → ok = false) := by
  induction n generalizing acc sb with
  | zero =>
    obtain ⟨c, u, first, rest⟩ := returns_bind.mp done
    rw [if_pos rfl] at rest
    obtain ⟨same, rfl⟩ := returns_pure.mp rest
    obtain ⟨-, rfl⟩ := Prod.mk.inj same
    rcases sbumpc_cases first with ⟨ahead, rfl, rfl⟩ | got
    · exact ⟨fun _ => ahead, fun _ => rfl⟩
    · refine ⟨fun none => absurd (got.symm.trans none) (by decide), fun ahead => ?_⟩
      rw [((sbumpc_eof ahead).unique first).1.symm] at got
      exact absurd got (by decide)
  | succ n ih =>
    obtain ⟨c, u, first, rest⟩ := returns_bind.mp done
    rw [if_neg (Nat.succ_ne_zero n)] at rest
    obtain ⟨stops, fails⟩ := ih rest
    refine ⟨stops, fun ahead => fails ?_⟩
    rw [← ((sbumpc_eof ahead).unique first).2, ahead]

theorem readable_chain {cells : List Pmt} {expr : Pmt} (each : ∀ c ∈ cells, Readable c)
    (last : Readable expr) : Readable (chain cells expr) := by
  induction cells generalizing expr with
  | nil => exact last
  | cons c cells ih =>
    exact ih (fun d member => each d (List.mem_cons_of_mem c member))
      ⟨each c List.mem_cons_self, last⟩

/-- What `pmt_deserialize` has returned, after it read a tag up to `u`. -/
inductive Deserialized (fuel : Nat) (u : Streambuf) : Nat × Bool → Pmt → Streambuf → Prop
  | eof (tag : Nat) : Deserialized fuel u (tag, false) .eof u
  | true : Deserialized fuel u (pstTrue, true) (.bool true) u
  | false : Deserialized fuel u (pstFalse, true) (.bool false) u
  | null : Deserialized fuel u (pstNull, true) .null u
  | symbol (name : List UInt8) (short : name.length ≤ tmpbufSize) (t : Streambuf) :
      Deserialized fuel u (pstSymbol, true) (.symbol name) t
  | int32 {n : Nat} {t : Streambuf} (number : Returns deserializeUntaggedU32 u (n, true) t) :
      Deserialized fuel u (pstInt32, true) (pmtFromLong ((n : Int).bmod (2 ^ 32))) t
  | pair {y : Pmt} {t : Streambuf} (rest : Returns (parsePair fuel []) u y t) :
      Deserialized fuel u (pstPair, true) y t
  | double (n : Nat) (t : Streambuf) :
      Deserialized fuel u (pstDouble, true) (.real (UInt64.ofNat n)) t

theorem readNumber_number {number : Program Streambuf PmtException (Nat × Bool)}
    (make : Nat → Pmt)
    (done : Returns (do
      let (n, ok) ← number
      if !ok then malformedInput else return make n) sb y t) :
    ∃ n, y = make n ∧ Returns number sb (n, true) t := by
  obtain ⟨⟨n, ok⟩, u, first, rest⟩ := returns_bind.mp done
  dsimp only at rest
  cases ok with
  | false => exact absurd rest not_returns_throw
  | true =>
    obtain ⟨rfl, rfl⟩ := returns_pure.mp rest
    exact ⟨n, rfl, first⟩

/-- The first number of a complex one ends the call, or the stream. -/
theorem readComplex_fails :
    ¬ Returns (do
      let (r, ok) ← deserializeUntaggedF64
      if ok then throw .undefinedBehaviour
      else do
        let (i, ok) ← deserializeUntaggedF64
        if !ok then malformedInput else return .complex (UInt64.ofNat r) (UInt64.ofNat i))
      sb y t := by
  intro done
  obtain ⟨⟨r, ok⟩, u, first, rest⟩ := returns_bind.mp done
  obtain ⟨failed, rest⟩ := returns_ite_throw.mp rest
  obtain rfl := Bool.eq_false_of_not_eq_true failed
  obtain ⟨⟨i, ok⟩, w, second, rest⟩ := returns_bind.mp rest
  rw [(deserializeUntagged_short second).2 ((deserializeUntagged_short first).1 rfl)] at rest
  exact absurd rest not_returns_throw

theorem deserialize_cases (done : Returns (deserialize (fuel + 1)) sb y t) :
    ∃ head u, Returns deserializeUntaggedU8 sb head u ∧ Deserialized fuel u head y t := by
  rw [deserialize] at done
  obtain ⟨⟨tag, ok⟩, u, first, done⟩ := returns_bind.mp done
  refine ⟨_, u, first, ?_⟩
  cases ok with
  | false =>
    obtain ⟨rfl, rfl⟩ := returns_pure.mp done
    exact .eof tag
  | true =>
    obtain ⟨-, done⟩ := (returns_ite.mp done).resolve_left fun absent => Bool.false_ne_true absent.1
    rcases returns_ite.mp done with ⟨rfl, done⟩ | ⟨-, done⟩
    · obtain ⟨rfl, rfl⟩ := returns_pure.mp done
      exact .true
    rcases returns_ite.mp done with ⟨rfl, done⟩ | ⟨-, done⟩
    · obtain ⟨rfl, rfl⟩ := returns_pure.mp done
      exact .false
    rcases returns_ite.mp done with ⟨rfl, done⟩ | ⟨-, done⟩
    · obtain ⟨rfl, rfl⟩ := returns_pure.mp done
      exact .null
    rcases returns_ite.mp done with ⟨rfl, done⟩ | ⟨-, done⟩
    · obtain ⟨⟨u16, ok⟩, v, -, done⟩ := returns_bind.mp done
      obtain ⟨-, done⟩ := returns_ite_throw.mp done
      obtain ⟨fits, done⟩ := returns_ite_throw.mp done
      obtain ⟨tmpbuf, w, -, done⟩ := returns_bind.mp done
      obtain ⟨whole, done⟩ := returns_ite_throw.mp done
      obtain ⟨rfl, rfl⟩ := returns_pure.mp done
      have length : tmpbuf.length = u16 := not_not.mp whole
      exact .symbol tmpbuf (by omega) w
    rcases returns_ite.mp done with ⟨rfl, done⟩ | ⟨-, done⟩
    · obtain ⟨n, rfl, number⟩ := readNumber_number (fun n =>
        pmtFromLong ((n : Int).bmod (2 ^ 32))) done
      exact .int32 number
    rcases returns_ite.mp done with ⟨rfl, done⟩ | ⟨-, done⟩
    · exact .pair done
    rcases returns_ite.mp done with ⟨rfl, done⟩ | ⟨-, done⟩
    · obtain ⟨n, rfl, -⟩ := readNumber_number (fun n => .real (UInt64.ofNat n)) done
      exact .double n t
    rcases returns_ite.mp done with ⟨rfl, done⟩ | ⟨-, done⟩
    · exact absurd done readComplex_fails
    rcases returns_ite.mp done with ⟨-, done⟩ | ⟨-, done⟩ <;> exact absurd done not_returns_throw

theorem deserialize_readable (fuel : Nat) :
    (∀ {sb y t}, Returns (deserialize fuel) sb y t → Readable y) ∧
    ∀ {cells sb y t}, (∀ c ∈ cells, Readable c) → Returns (parsePair fuel cells) sb y t →
      Readable y := by
  induction fuel with
  | zero =>
    constructor
    · intro sb y t done
      rw [deserialize] at done
      exact absurd done not_returns_throw
    · intro cells sb y t _ done
      rw [parsePair] at done
      exact absurd done not_returns_throw
  | succ fuel ih =>
    obtain ⟨value, pair⟩ := ih
    constructor
    · intro sb y t done
      obtain ⟨head, u, -, read⟩ := deserialize_cases done
      cases read with
      | symbol name short => exact short
      | pair rest => exact pair (fun c none => absurd none List.not_mem_nil) rest
      | eof | true | false | null | int32 | double => trivial
    · intro cells sb y t each done
      rw [parsePair] at done
      obtain ⟨expr, u, first, done⟩ := returns_bind.mp done
      have more : ∀ c ∈ expr :: cells, Readable c := by
        intro c member
        rcases List.mem_cons.mp member with rfl | member
        · exact value first
        · exact each c member
      obtain ⟨⟨tag, ok⟩, w, -, done⟩ := returns_bind.mp done
      obtain ⟨-, done⟩ := returns_ite_throw.mp done
      rcases returns_ite.mp done with ⟨-, done⟩ | ⟨-, done⟩
      · exact pair more done
      rcases returns_ite.mp done with ⟨-, done⟩ | ⟨-, done⟩
      · obtain ⟨rfl, -⟩ := returns_pure.mp done
        exact readable_chain more trivial
      · obtain ⟨_, z, -, done⟩ := returns_bind.mp done
        obtain ⟨cdr, z', second, done⟩ := returns_bind.mp done
        obtain ⟨rfl, -⟩ := returns_pure.mp done
        exact readable_chain more (value second)

/-! ## Equality -/

theorem readable_of_equal (equal : pmtEqual y x = true) (readable : Readable y) : Readable x := by
  induction x using pmtSerialize.induct generalizing y with
  | case4 name =>
    cases y <;> simp only [pmtEqual, Bool.false_eq_true, beq_iff_eq] at equal
    subst equal
    exact readable
  | case5 car cdr first rest =>
    cases y with
    | pair a b =>
      rw [pmtEqual, Bool.and_eq_true] at equal
      exact ⟨first equal.1 readable.1, rest equal.2 readable.2⟩
    | eof =>
      cases car <;> cases cdr <;> simp only [pmtEqual, Bool.false_eq_true] at equal
      exact ⟨trivial, trivial⟩
    | _ => simp only [pmtEqual, Bool.false_eq_true] at equal
  | case10 re im =>
    cases y <;> simp only [pmtEqual, Bool.false_eq_true] at equal
    exact readable
  | _ => trivial

theorem narrow_equal_iff (stored : Stored x) : pmtEqual (narrow x) x = true ↔ Preserved x := by
  induction stored with
  | bool value => simp [narrow, pmtEqual, Preserved]
  | null => simp [narrow, pmtEqual, Preserved]
  | symbol name short => simpa [narrow, pmtEqual, Preserved, tmpbufSize] using short
  | integer value above below => simp [narrow, pmtEqual, Preserved]
  | real value => simp [narrow, pmtEqual, Preserved]
  | eof => simp [narrow, pmtEqual, Preserved]
  | pair car cdr _ _ first rest =>
    rw [narrow, pmtEqual, Bool.and_eq_true, first, rest, Preserved]

theorem Preserved.readable (preserved : Preserved x) : Readable x := by
  induction x using pmtSerialize.induct with
  | case4 name => exact preserved
  | case5 car cdr first rest => exact ⟨first preserved.1, rest preserved.2⟩
  | case10 re im => exact preserved
  | _ => trivial

/-- An object that `pmt_serialize` wrote to a stream without error is read back, from exactly
the bytes written and with anything behind them, if and only if it is preserved. -/
theorem pmt_read_back_iff (x : Pmt) (sb written : Streambuf) (after : List UInt8)
    (accepted : Returns (pmtSerialize x) sb true written) :
    (∃ y, Returns pmtDeserialize ⟨written.bytes ++ after, sb.bytes.length, written.room⟩ y
        ⟨written.bytes ++ after, written.bytes.length, written.room⟩ ∧ pmtEqual y x = true) ↔
      Preserved x := by
  obtain ⟨rfl, storable⟩ := pmtSerialize_put accepted
  have read : Stored x → Returns pmtDeserialize
      ⟨(sb.put (wireBytes x)).bytes ++ after, sb.bytes.length, sb.room⟩ (narrow x)
      ⟨(sb.put (wireBytes x)).bytes ++ after, (sb.put (wireBytes x)).bytes.length, sb.room⟩ := by
    intro stored
    have bytes : (Streambuf.mk ((sb.put (wireBytes x)).bytes ++ after) sb.bytes.length
        sb.room).ahead = wireBytes x ++ after := by
      simp [ahead, put]
    have here := pmtDeserialize_stored stored bytes
    simpa [advance, put] using here
  constructor
  · rintro ⟨y, here, equal⟩
    obtain ⟨_, _, got, inner⟩ := returns_bind.mp here
    have stored := storable (readable_of_equal equal ((deserialize_readable _).1 inner))
    obtain ⟨rfl, -⟩ := here.unique (read stored)
    exact (narrow_equal_iff stored).mp equal
  · intro preserved
    have stored := storable preserved.readable
    exact ⟨narrow x, read stored, (narrow_equal_iff stored).mpr preserved⟩

/-- The pair of the real 0.5 and a symbol. -/
theorem pmt_read_back_iff_half : ∃ y written,
    Returns (pmtSerialize (.pair (.real 0x3fe0000000000000) (.symbol [0x61]))) .empty true written ∧
    Returns pmtDeserialize written y { written with next := written.bytes.length } ∧
    pmtEqual y (.pair (.real 0x3fe0000000000000) (.symbol [0x61])) = true := by
  have grows : Streambuf.empty.room = none := rfl
  have accepted := pmtSerialize_returns
    (.pair _ _ (.real 0x3fe0000000000000) (.symbol [0x61] (by decide))) grows
  have fits : throughFloat 0x3fe0000000000000 = 0x3fe0000000000000 := by decide
  have short : [(0x61 : UInt8)].length ≤ tmpbufSize := by decide
  obtain ⟨y, read, equal⟩ := (pmt_read_back_iff _ _ _ [] accepted).mpr ⟨fits, short⟩
  rw [List.append_nil] at read
  exact ⟨y, _, accepted, read, equal⟩

/-- The real 0.1 comes back as 0.10000000149011612. -/
theorem real_not_read_back : ∃ written,
    Returns (pmtSerialize (.real 0x3fb999999999999a)) .empty true written ∧
    ∀ y t, Returns pmtDeserialize written y t → pmtEqual y (.real 0x3fb999999999999a) = false := by
  refine ⟨_, pmtSerialize_returns (.real 0x3fb999999999999a) rfl, ?_⟩
  intro y t read
  have value := @pmtDeserialize_stored _ (.real 0x3fb999999999999a)
    (Streambuf.empty.put (wireBytes (.real 0x3fb999999999999a))) [] (List.append_nil _).symm
  obtain ⟨rfl, -⟩ := value.unique read
  decide

end GnuRadio
