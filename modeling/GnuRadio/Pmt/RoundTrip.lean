import GnuRadio.Pmt.Serialize
import Mathlib.Tactic.Ring
import Mathlib.Tactic.NormNum

/-!
# The wire round trip

`wireBytes` is the byte form of a value. `pmt_serialize` appends it to the
stream, and `pmt_deserialize` started in front of it returns the value and stops
right behind it. The two sides meet at a pair: the writer goes down the `cdr` by
a jump, the reader collects cells until the `cdr` is no pair.
-/

namespace GnuRadio

open Program Streambuf

/-- The values the round trip is about: `#t`, `#f`, nil, short symbols, numbers of 32 bits
and pairs of such values. -/
inductive Wire : Pmt → Prop
  | bool (value : Bool) : Wire (.bool value)
  | null : Wire .null
  | symbol (name : List UInt8) (short : name.length ≤ 1024) : Wire (.symbol name)
  | integer (value : Int64) (above : -2147483648 < value.toInt) (below : value.toInt < 2147483648) :
      Wire (.integer value)
  | pair (car cdr : Pmt) (first : Wire car) (rest : Wire cdr) : Wire (.pair car cdr)

/-- The low `n` bytes of a number, most significant first. -/
def bigEndian : Nat → Nat → List UInt8
  | 0, _ => []
  | n + 1, i => UInt8.ofNat (i >>> (8 * n)) :: bigEndian n i

/-- The byte form of a value. -/
def wireBytes : Pmt → List UInt8
  | .bool true => [0x00]
  | .bool false => [0x01]
  | .symbol name => 0x02 :: (bigEndian 2 name.length ++ name)
  | .integer i => 0x03 :: bigEndian 4 (i.toInt % 2 ^ 32).toNat
  | .real x => 0x04 :: bigEndian 8 (throughFloat x).toNat
  | .complex re im => 0x05 :: (bigEndian 8 re.toNat ++ bigEndian 8 im.toNat)
  | .null => [0x06]
  | .pair car cdr => 0x07 :: (wireBytes car ++ wireBytes cdr)
  | .eof => [0x07, 0x06, 0x06]
  | _ => []

/-- The values that can be read back in some form: no complex number, and symbols that fit
into the buffer of the reader. -/
inductive Stored : Pmt → Prop
  | bool (value : Bool) : Stored (.bool value)
  | null : Stored .null
  | symbol (name : List UInt8) (short : name.length ≤ 1024) : Stored (.symbol name)
  | integer (value : Int64) (above : -2147483648 < value.toInt) (below : value.toInt < 2147483648) :
      Stored (.integer value)
  | real (value : UInt64) : Stored (.real value)
  | eof : Stored .eof
  | pair (car cdr : Pmt) (first : Stored car) (rest : Stored cdr) : Stored (.pair car cdr)

/-- What is read from the byte form: reals have been through a `float`, and the object
`PMT_EOF` is a new pair. -/
def narrow : Pmt → Pmt
  | .real x => .real (throughFloat x)
  | .eof => .pair .null .null
  | .pair car cdr => .pair (narrow car) (narrow cdr)
  | v => v

variable {v : Pmt} {sb : Streambuf} {c : UInt8} {l : List UInt8}

theorem stored_of_wire (wire : Wire v) : Stored v ∧ narrow v = v := by
  induction wire with
  | bool value => exact ⟨.bool value, rfl⟩
  | null => exact ⟨.null, rfl⟩
  | symbol name short => exact ⟨.symbol name short, rfl⟩
  | integer value above below => exact ⟨.integer value above below, rfl⟩
  | pair car cdr _ _ first rest =>
    exact ⟨.pair car cdr first.1 rest.1, by rw [narrow, first.2, rest.2]⟩

@[simp] theorem length_bigEndian (n i : Nat) : (bigEndian n i).length = n := by
  induction n with
  | zero => rfl
  | succ n ih => rw [bigEndian, List.length_cons, ih]

/-! ## Writing -/

namespace Streambuf

/-- A stream that grows with these bytes. -/
def put (sb : Streambuf) (l : List UInt8) : Streambuf := { sb with bytes := sb.bytes ++ l }

@[simp] theorem put_put (sb : Streambuf) (l m : List UInt8) : (sb.put l).put m = sb.put (l ++ m) := by
  simp [put]

theorem sputc_returns {sb : Streambuf} (grows : sb.room = none) (c : UInt8) :
    Returns (sputc c) sb true (sb.put [c]) := by
  refine Returns.bind (Returns.get sb) ?_
  rw [if_neg (by simp [grows])]
  exact Returns.bind (Returns.set _ _) (Returns.pure _ _)

end Streambuf

theorem serializeUntagged_returns (grows : sb.room = none) (n i : Nat) :
    Returns (serializeUntagged n i) sb true (sb.put (bigEndian n i)) := by
  induction n generalizing sb with
  | zero =>
    have same : sb.put [] = sb := by simp [put]
    rw [serializeUntagged, bigEndian, same]
    exact Returns.pure _ _
  | succ n ih =>
    refine Returns.bind (sputc_returns grows _) ?_
    split
    · rename_i last
      subst last
      exact Returns.pure _ _
    · have rest := @ih (sb.put [UInt8.ofNat (i >>> (8 * n))]) grows
      rwa [put_put] at rest

theorem serializeUntaggedU8_returns (grows : sb.room = none) (i : Nat) :
    Returns (serializeUntaggedU8 i) sb true (sb.put [UInt8.ofNat i]) :=
  serializeUntagged_returns grows 1 i

/-- `pmt_serialize` appends the byte form. -/
theorem pmtSerialize_returns (stored : Stored v) (grows : sb.room = none) :
    Returns (pmtSerialize v) sb true (sb.put (wireBytes v)) := by
  induction stored generalizing sb with
  | bool value => cases value <;> exact serializeUntaggedU8_returns grows _
  | null => exact serializeUntaggedU8_returns grows _
  | symbol name short =>
    rw [pmtSerialize]
    refine Returns.bind (serializeUntaggedU8_returns grows _) ?_
    refine Returns.bind (serializeUntagged_returns (n := 2) (by exact grows) _) ?_
    have bytes : ∀ (l : List UInt8) (sb : Streambuf), sb.room = none →
        Returns (l.foldlM (fun ok c => do
          let put ← serializeUntaggedU8 c.toNat
          return ok && put) true) sb true (sb.put l) := by
      intro l
      induction l with
      | nil =>
        intro sb _
        have same : sb.put [] = sb := by simp [put]
        rw [same]
        exact Returns.pure _ _
      | cons c l ih =>
        intro sb grows
        rw [List.foldlM_cons]
        refine Returns.bind (Returns.bind (serializeUntaggedU8_returns grows _) (Returns.pure _ _)) ?_
        have rest := ih (sb.put [UInt8.ofNat c.toNat]) grows
        rw [put_put] at rest
        simpa using rest
    have all := bytes name _ (show ((sb.put [UInt8.ofNat pstSymbol]).put
      (bigEndian 2 name.length)).room = none from grows)
    simpa [wireBytes, pstSymbol] using all
  | integer value above below =>
    rw [pmtSerialize, if_neg (by omega)]
    refine Returns.bind (serializeUntaggedU8_returns grows _) ?_
    refine Returns.bind (serializeUntagged_returns (n := 4) (by exact grows) _) ?_
    rw [put_put]
    exact Returns.pure _ _
  | real value =>
    rw [pmtSerialize]
    refine Returns.bind (serializeUntaggedU8_returns grows _) ?_
    refine Returns.bind (serializeUntagged_returns (n := 8) (by exact grows) _) ?_
    rw [put_put]
    exact Returns.pure _ _
  | eof =>
    rw [pmtSerialize]
    refine Returns.bind (serializeUntaggedU8_returns grows _) ?_
    refine Returns.bind (serializeUntaggedU8_returns (by exact grows) _) ?_
    have last := serializeUntaggedU8_returns
      (show ((sb.put [UInt8.ofNat pstPair]).put [UInt8.ofNat pstNull]).room = none from grows) pstNull
    simpa [wireBytes, pstPair, pstNull] using last
  | pair car cdr _ _ first rest =>
    rw [pmtSerialize]
    refine Returns.bind (serializeUntaggedU8_returns grows _) ?_
    refine Returns.bind (first (by exact grows)) ?_
    have last := @rest ((sb.put [UInt8.ofNat pstPair]).put (wireBytes car)) grows
    rw [put_put, put_put] at last
    simpa [wireBytes, pstPair] using last

/-! ## Reading -/

namespace Streambuf

/-- The bytes still to be got. -/
def ahead (sb : Streambuf) : List UInt8 := sb.bytes.drop sb.next

/-- A stream of which `n` further bytes have been got. -/
def advance (sb : Streambuf) (n : Nat) : Streambuf := { sb with next := sb.next + n }

@[simp] theorem advance_advance (sb : Streambuf) (m n : Nat) :
    (sb.advance m).advance n = sb.advance (m + n) := by
  simp [advance, Nat.add_assoc]

@[simp] theorem ahead_advance (sb : Streambuf) (n : Nat) :
    (sb.advance n).ahead = sb.ahead.drop n := by
  simp [ahead, advance]

variable {sb : Streambuf} {l : List UInt8}

theorem sbumpc_returns {c : UInt8} (ahead : sb.ahead = c :: l) :
    Returns sbumpc sb (some c) (sb.advance 1) := by
  refine Returns.bind (Returns.get sb) ?_
  have head : sb.bytes[sb.next]? = some c := by
    rw [← List.head?_drop, ← Streambuf.ahead, ahead, List.head?_cons]
  rw [head]
  exact Returns.bind (Returns.set _ _) (Returns.pure _ _)

theorem sbumpc_eof (ahead : sb.ahead = []) : Returns sbumpc sb none sb := by
  refine Returns.bind (Returns.get sb) ?_
  have head : sb.bytes[sb.next]? = none := by
    rw [← List.head?_drop, ← Streambuf.ahead, ahead, List.head?_nil]
  rw [head]
  exact Returns.pure _ _

theorem sgetn_returns {s : List UInt8} (ahead : sb.ahead = s ++ l) :
    Returns (sgetn s.length) sb s (sb.advance s.length) := by
  have got : (sb.bytes.drop sb.next).take s.length = s := by
    rw [← Streambuf.ahead, ahead, List.take_left]
  refine Returns.bind (Returns.get sb) ?_
  dsimp only
  rw [got]
  exact Returns.bind (Returns.set _ _) (Returns.pure _ _)

theorem sungetc_returns (sb : Streambuf) : Returns sungetc (sb.advance 1) ⟨⟩ sb :=
  Returns.change _ _

end Streambuf

theorem deserializeUntagged_returns {n i acc : Nat} {sb : Streambuf} {l : List UInt8}
    (some : n ≠ 0) (ahead : sb.ahead = bigEndian n i ++ l) :
    Returns (deserializeUntagged n acc) sb (acc * 256 ^ n + i % 256 ^ n, true) (sb.advance n) := by
  induction n generalizing acc sb with
  | zero => exact absurd rfl some
  | succ n ih =>
    rw [deserializeUntagged]
    refine Returns.bind (sbumpc_returns ahead) ?_
    have digit : acc <<< 8 ||| lowByte (Option.some (UInt8.ofNat (i >>> (8 * n)))) =
        acc * 256 + i / 256 ^ n % 256 := by
      rw [lowByte, UInt8.toNat_ofNat', Nat.shiftRight_eq_div_pow, Nat.pow_mul,
        ← Nat.shiftLeft_add_eq_or_of_lt (Nat.mod_lt _ (by norm_num)), Nat.shiftLeft_eq]
    rw [digit]
    by_cases last : n = 0
    · subst last
      rw [if_pos rfl]
      simp only [Nat.zero_add, Nat.pow_zero, Nat.div_one, Nat.pow_one, Option.isSome_some]
      exact Returns.pure _ _
    · rw [if_neg last]
      have digits : (sb.advance 1).ahead = bigEndian n i ++ l := by
        rw [ahead_advance, ahead]
        rfl
      have rest := @ih (acc * 256 + i / 256 ^ n % 256) (sb.advance 1) last digits
      rw [advance_advance, Nat.add_comm 1 n] at rest
      have whole : (acc * 256 + i / 256 ^ n % 256) * 256 ^ n + i % 256 ^ n =
          acc * 256 ^ (n + 1) + i % 256 ^ (n + 1) := by
        rw [Nat.mod_pow_succ]
        ring
      rwa [whole] at rest

theorem deserializeUntaggedU8_returns (ahead : sb.ahead = c :: l) :
    Returns deserializeUntaggedU8 sb (c.toNat, true) (sb.advance 1) := by
  have same : bigEndian 1 c.toNat ++ l = c :: l := by
    simp [bigEndian]
  have read := @deserializeUntagged_returns 1 c.toNat 0 _ _ Nat.one_ne_zero
    (ahead.trans same.symm)
  simpa [deserializeUntaggedU8, Nat.mod_eq_of_lt c.toNat_lt] using read

/-- `pmt_deserialize` in front of the byte form of `v` reads it and stops behind it. -/
def Reads (v : Pmt) : Prop :=
  ∀ sb l fuel, sb.ahead = wireBytes v ++ l → 2 * (wireBytes v).length + 1 ≤ fuel →
    Returns (deserialize fuel) sb (narrow v) (sb.advance (wireBytes v).length)

/-- `parse_pair` in front of `car` and `cdr` adds them to the cells. -/
def ReadsPair (car cdr : Pmt) : Prop :=
  ∀ sb l cells fuel, sb.ahead = wireBytes car ++ (wireBytes cdr ++ l) →
    2 * ((wireBytes car).length + (wireBytes cdr).length) + 2 ≤ fuel →
    Returns (parsePair fuel cells) sb (chain (narrow car :: cells) (narrow cdr))
      (sb.advance ((wireBytes car).length + (wireBytes cdr).length))

theorem parsePair_round {car : Pmt} (first : Reads car) {u : Streambuf} {cells : List Pmt}
    {fuel : Nat} {result : Pmt}
    (ahead : sb.ahead = wireBytes car ++ c :: l) (enough : 2 * (wireBytes car).length + 1 ≤ fuel)
    (rest : Returns (if c.toNat = pstPair then parsePair fuel (narrow car :: cells)
      else if c.toNat = pstNull then return chain (narrow car :: cells) .null
      else do
        sungetc
        let cdr ← deserialize fuel
        return chain (narrow car :: cells) cdr)
      (sb.advance ((wireBytes car).length + 1)) result u) :
    Returns (parsePair (fuel + 1) cells) sb result u := by
  rw [parsePair]
  refine Returns.bind (first sb _ fuel ahead enough) ?_
  refine Returns.bind (deserializeUntaggedU8_returns (c := c) (l := l) ?_) ?_
  · rw [ahead_advance, ahead, List.drop_left]
  · rw [advance_advance]
    exact rest

theorem readsPair_atom {car : Pmt} {bytes : List UInt8} (self : Reads v) (first : Reads car)
    (form : wireBytes v = c :: bytes) (noPair : c.toNat ≠ pstPair) (noNull : c.toNat ≠ pstNull) :
    ReadsPair car v := by
  intro sb l cells fuel ahead enough
  obtain ⟨fuel, rfl⟩ : ∃ n, fuel = n + 1 := ⟨fuel - 1, by omega⟩
  refine parsePair_round (c := c) (l := bytes ++ l) first ?_ (by omega) ?_
  · rw [ahead, form, List.cons_append]
  · rw [if_neg noPair, if_neg noNull, ← advance_advance]
    refine Returns.bind (sungetc_returns _) ?_
    have read := self (sb.advance (wireBytes car).length) l fuel
      (by rw [ahead_advance, ahead, List.drop_left]) (by omega)
    rw [advance_advance] at read
    exact Returns.bind read (Returns.pure _ _)

theorem reads_tag (form : wireBytes v = [c])
    (done : ∀ fuel sb, Returns deserializeUntaggedU8 sb (c.toNat, true) (sb.advance 1) →
      Returns (deserialize (fuel + 1)) sb (narrow v) (sb.advance 1)) : Reads v := by
  intro sb l fuel ahead enough
  obtain ⟨fuel, rfl⟩ : ∃ n, fuel = n + 1 := ⟨fuel - 1, by omega⟩
  rw [form] at ahead ⊢
  exact done fuel sb (deserializeUntaggedU8_returns ahead)

theorem reads_symbol {name : List UInt8} (short : name.length ≤ 1024) : Reads (.symbol name) := by
  intro sb l fuel ahead enough
  obtain ⟨fuel, rfl⟩ : ∃ n, fuel = n + 1 := ⟨fuel - 1, by omega⟩
  rw [wireBytes, List.cons_append, List.append_assoc] at ahead
  rw [deserialize]
  refine Returns.bind (deserializeUntaggedU8_returns ahead) ?_
  refine Returns.bind (deserializeUntagged_returns (n := 2) (i := name.length) (by decide)
    (by rw [ahead_advance, ahead]; rfl)) ?_
  have length : 0 * 256 ^ 2 + name.length % 256 ^ 2 = name.length := by omega
  have fits : ¬ tmpbufSize < name.length := by
    unfold tmpbufSize
    omega
  dsimp only
  rw [length, if_neg (by decide), if_neg fits]
  refine Returns.bind (sgetn_returns (l := l) ?_) ?_
  · rw [ahead_advance, ahead_advance, ahead]
    rfl
  · rw [if_neg (not_not.mpr rfl)]
    have stop : ((sb.advance 1).advance 2).advance name.length =
        sb.advance (wireBytes (.symbol name)).length := by
      simp only [advance_advance, wireBytes, List.length_cons, List.length_append,
        length_bigEndian]
      congr 1
      omega
    rw [stop]
    exact Returns.pure _ _

theorem reads_integer {value : Int64} (above : -2147483648 < value.toInt)
    (below : value.toInt < 2147483648) : Reads (.integer value) := by
  intro sb l fuel ahead enough
  obtain ⟨fuel, rfl⟩ : ∃ n, fuel = n + 1 := ⟨fuel - 1, by omega⟩
  rw [wireBytes, List.cons_append] at ahead
  rw [deserialize]
  refine Returns.bind (deserializeUntaggedU8_returns ahead) ?_
  refine Returns.bind (deserializeUntagged_returns (n := 4) (by decide)
    (by rw [ahead_advance, ahead]; rfl)) ?_
  have number : ((0 * 256 ^ 4 + (value.toInt % 2 ^ 32).toNat % 256 ^ 4 : Nat) : Int).bmod (2 ^ 32) =
      value.toInt := by
    rw [Int.bmod_def]
    omega
  dsimp only
  rw [number, if_neg (by decide), pmtFromLong, Int64.ofInt_toInt, advance_advance, wireBytes,
    List.length_cons, length_bigEndian]
  exact Returns.pure _ _

theorem reads_real (value : UInt64) : Reads (.real value) := by
  intro sb l fuel ahead enough
  obtain ⟨fuel, rfl⟩ : ∃ n, fuel = n + 1 := ⟨fuel - 1, by omega⟩
  rw [wireBytes, List.cons_append] at ahead
  rw [deserialize]
  refine Returns.bind (deserializeUntaggedU8_returns ahead) ?_
  refine Returns.bind (deserializeUntagged_returns (n := 8) (by decide)
    (by rw [ahead_advance, ahead]; rfl)) ?_
  have number : 0 * 256 ^ 8 + (throughFloat value).toNat % 256 ^ 8 = (throughFloat value).toNat := by
    have bound := (throughFloat value).toNat_lt
    omega
  dsimp only
  rw [number, if_neg (by decide), UInt64.ofNat_toNat, advance_advance, wireBytes, List.length_cons,
    length_bigEndian]
  exact Returns.pure _ _

theorem reads_pair {x y : Pmt} (form : wireBytes v = 0x07 :: (wireBytes x ++ wireBytes y))
    (value : narrow v = .pair (narrow x) (narrow y)) (first : Reads x)
    (rest : ∀ car, Reads car → ReadsPair car y) : Reads v ∧ ∀ car, Reads car → ReadsPair car v := by
  have inner := rest x first
  constructor
  · intro sb l fuel ahead enough
    obtain ⟨fuel, rfl⟩ : ∃ n, fuel = n + 1 := ⟨fuel - 1, by omega⟩
    rw [form, List.cons_append, List.append_assoc] at ahead
    rw [deserialize, value]
    refine Returns.bind (deserializeUntaggedU8_returns ahead) ?_
    simp only [form, List.length_cons, List.length_append] at enough ⊢
    have read := inner (sb.advance 1) l [] fuel (by rw [ahead_advance, ahead]; rfl) (by omega)
    rw [advance_advance, Nat.add_comm 1] at read
    exact read
  · intro car head sb l cells fuel ahead enough
    obtain ⟨fuel, rfl⟩ : ∃ n, fuel = n + 1 := ⟨fuel - 1, by omega⟩
    rw [form, List.cons_append, List.append_assoc] at ahead
    rw [value]
    simp only [form, List.length_cons, List.length_append] at enough ⊢
    refine parsePair_round head ahead (by omega) ?_
    rw [if_pos (show (7 : UInt8).toNat = pstPair from rfl)]
    have read := inner (sb.advance ((wireBytes car).length + 1)) l (narrow car :: cells) fuel
      (by rw [ahead_advance, ahead, ← List.drop_drop, List.drop_left]; rfl) (by omega)
    rw [advance_advance] at read
    have stop : (wireBytes car).length + 1 + ((wireBytes x).length + (wireBytes y).length) =
        (wireBytes car).length + ((wireBytes x).length + (wireBytes y).length + 1) := by
      omega
    rwa [stop] at read

theorem reads_null : Reads .null ∧ ∀ car, Reads car → ReadsPair car .null := by
  refine ⟨reads_tag rfl fun fuel sb read => Returns.bind read (Returns.pure _ _), ?_⟩
  intro car first sb l cells fuel ahead enough
  obtain ⟨fuel, rfl⟩ : ∃ n, fuel = n + 1 := ⟨fuel - 1, by omega⟩
  exact parsePair_round first ahead (by omega) (Returns.pure _ _)

theorem reads_of_stored (stored : Stored v) : Reads v ∧ ∀ car, Reads car → ReadsPair car v := by
  induction stored with
  | bool value =>
    have self : Reads (.bool value) := by
      cases value
      · exact reads_tag rfl fun fuel sb read => Returns.bind read (Returns.pure _ _)
      · exact reads_tag rfl fun fuel sb read => Returns.bind read (Returns.pure _ _)
    refine ⟨self, fun car first => ?_⟩
    cases value <;> exact readsPair_atom self first rfl (by decide) (by decide)
  | null => exact reads_null
  | symbol name short =>
    have self := reads_symbol short
    exact ⟨self, fun car first => readsPair_atom self first rfl (by decide) (by decide)⟩
  | integer value above below =>
    have self := reads_integer above below
    exact ⟨self, fun car first => readsPair_atom self first rfl (by decide) (by decide)⟩
  | real value =>
    have self := reads_real value
    exact ⟨self, fun car first => readsPair_atom self first rfl (by decide) (by decide)⟩
  | eof => exact reads_pair rfl rfl reads_null.1 reads_null.2
  | pair x y _ _ first rest => exact reads_pair rfl rfl first.1 rest.2

theorem pmtDeserialize_stored {v : Pmt} (stored : Stored v) {sb : Streambuf} {l : List UInt8}
    (ahead : sb.ahead = wireBytes v ++ l) :
    Returns pmtDeserialize sb (narrow v) (sb.advance (wireBytes v).length) := by
  refine Returns.bind (Returns.get sb) ?_
  apply (reads_of_stored stored).1 sb l _ ahead
  have length := congrArg List.length ahead
  rw [Streambuf.ahead, List.length_drop, List.length_append] at length
  omega

/-! ## Sequences -/

/-- `pmt_serialize` of one value after another. -/
def serializeAll (vs : List Pmt) : Program Streambuf PmtException (List Bool) :=
  vs.mapM pmtSerialize

/-- `pmt_deserialize`, `n` times. -/
def deserializeN : Nat → Program Streambuf PmtException (List Pmt)
  | 0 => return []
  | n + 1 => do
      let v ← pmtDeserialize
      let vs ← deserializeN n
      return v :: vs

theorem serializeAll_returns {vs : List Pmt} (wire : ∀ v ∈ vs, Wire v) {sb : Streambuf}
    (grows : sb.room = none) :
    Returns (serializeAll vs) sb (vs.map fun _ => true) (sb.put (vs.flatMap wireBytes)) := by
  induction vs generalizing sb with
  | nil =>
    have same : sb.put [] = sb := by simp [put]
    rw [serializeAll, List.mapM_nil, List.flatMap_nil, same]
    exact Returns.pure _ _
  | cons v vs ih =>
    rw [serializeAll, List.mapM_cons, List.flatMap_cons, ← put_put]
    have first := pmtSerialize_returns (stored_of_wire (wire v List.mem_cons_self)).1 grows
    have rest := @ih (fun w member => wire w (List.mem_cons_of_mem v member))
      (sb.put (wireBytes v)) grows
    exact Returns.bind first (Returns.bind rest (Returns.pure _ _))

theorem pmtDeserialize_returns (wire : Wire v) (ahead : sb.ahead = wireBytes v ++ l) :
    Returns pmtDeserialize sb v (sb.advance (wireBytes v).length) := by
  obtain ⟨stored, same⟩ := stored_of_wire wire
  have read := pmtDeserialize_stored stored ahead
  rwa [same] at read

theorem pmtDeserialize_eof (ahead : sb.ahead = []) : Returns pmtDeserialize sb .eof sb := by
  refine Returns.bind (Returns.get sb) ?_
  rw [deserialize]
  exact Returns.bind (Returns.bind (sbumpc_eof ahead) (Returns.pure _ _)) (Returns.pure _ _)

theorem deserializeN_returns {vs : List Pmt} (wire : ∀ v ∈ vs, Wire v)
    (ahead : sb.ahead = vs.flatMap wireBytes ++ l) :
    Returns (deserializeN vs.length) sb vs (sb.advance (vs.flatMap wireBytes).length) := by
  induction vs generalizing sb with
  | nil => exact Returns.pure _ _
  | cons v vs ih =>
    rw [List.flatMap_cons, List.append_assoc] at ahead
    have first := pmtDeserialize_returns (wire v List.mem_cons_self) ahead
    have behind : (sb.advance (wireBytes v).length).ahead = vs.flatMap wireBytes ++ l := by
      rw [ahead_advance, ahead, List.drop_left]
    have rest := ih (fun w member => wire w (List.mem_cons_of_mem v member)) behind
    rw [advance_advance] at rest
    rw [List.flatMap_cons, List.length_append]
    exact Returns.bind first (Returns.bind rest (Returns.pure _ _))

/-- The wire round trip: the values written one after another to an empty stream are read back in
their order, and then the end of the stream is found. -/
theorem pmt_wire_round_trip (vs : List Pmt) (wire : ∀ v ∈ vs, Wire v) :
    ∃ sb, Returns (serializeAll vs) .empty (vs.map fun _ => true) sb ∧
    (∀ before v after, vs = before ++ v :: after → ∃ written written' read read',
      Returns (serializeAll before) .empty (before.map fun _ => true) written ∧
      Returns (pmtSerialize v) written true written' ∧
      Returns (deserializeN before.length) sb before read ∧
      Returns pmtDeserialize read v read' ∧
      read.next = written.bytes.length ∧ read'.next = written'.bytes.length) ∧
    ∃ last, Returns (deserializeN vs.length) sb vs last ∧ Returns pmtDeserialize last .eof last := by
  have bytes : (Streambuf.empty.put (vs.flatMap wireBytes)).ahead = vs.flatMap wireBytes := rfl
  refine ⟨Streambuf.empty.put (vs.flatMap wireBytes), serializeAll_returns wire rfl, ?_, ?_⟩
  · rintro before v after rfl
    have early : ∀ w ∈ before, Wire w := fun w member => wire w (by simp [member])
    have here : Wire v := wire v (by simp)
    rw [List.flatMap_append, List.flatMap_cons] at bytes
    have read := deserializeN_returns early bytes
    have next := pmtDeserialize_returns here (l := after.flatMap wireBytes)
      (by rw [ahead_advance, bytes, List.drop_left])
    rw [List.flatMap_append, List.flatMap_cons]
    refine ⟨_, _, _, _, serializeAll_returns early rfl,
      pmtSerialize_returns (stored_of_wire here).1 rfl, read, next,
      ?_, ?_⟩
    · simp [Streambuf.empty, put, advance]
    · simp [Streambuf.empty, put, advance]
  · have read := deserializeN_returns wire (l := []) (bytes.trans (List.append_nil _).symm)
    refine ⟨_, read, pmtDeserialize_eof ?_⟩
    rw [ahead_advance, bytes, List.drop_length]

/-- A list of two symbols, then a number and a dotted pair. -/
theorem pmt_wire_round_trip_list : ∃ sb,
    Returns (serializeAll [.pair (.symbol [0x61]) (.pair (.symbol [0x62]) .null),
      .integer (-123456789), .pair .null (.bool true)]) .empty [true, true, true] sb ∧
    ∃ last, Returns (deserializeN 3) sb [.pair (.symbol [0x61]) (.pair (.symbol [0x62]) .null),
      .integer (-123456789), .pair .null (.bool true)] last ∧
      Returns pmtDeserialize last .eof last := by
  obtain ⟨sb, written, -, read⟩ := pmt_wire_round_trip
    [.pair (.symbol [0x61]) (.pair (.symbol [0x62]) .null), .integer (-123456789),
      .pair .null (.bool true)]
    (by
      simp only [List.mem_cons, List.not_mem_nil, or_false, forall_eq_or_imp, forall_eq]
      exact ⟨.pair _ _ (.symbol _ (by decide)) (.pair _ _ (.symbol _ (by decide)) .null),
        .integer _ (by decide) (by decide), .pair _ _ .null (.bool true)⟩)
  exact ⟨sb, written, read⟩

end GnuRadio
