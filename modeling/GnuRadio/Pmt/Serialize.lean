import GnuRadio.Misc.Program
import Mathlib.Algebra.Group.Int.Defs
import Mathlib.Algebra.Group.Nat.Defs

/-!
# PMT values on the wire

Polymorphic values and their byte-serial form (`pmt.cc`, `pmt_serialize.cc`).
Both directions work on a `std::streambuf`.
-/

namespace GnuRadio

/-- A finite PMT object. The two booleans, `PMT_NIL` and `PMT_EOF` are single objects,
and symbols are interned by their name, so these are equal exactly when they are one
object. A `double` is its bit pattern. -/
inductive Pmt where
  | bool (value : Bool)
  | symbol (name : List UInt8)
  /-- A `long`. -/
  | integer (value : Int64)
  | uint64 (value : UInt64)
  | real (value : UInt64)
  | complex (real imag : UInt64)
  | null
  | pair (car cdr : Pmt)
  /-- `PMT_EOF` is `pmt_cons(PMT_NIL, PMT_NIL)`, known by its address (`pmt.cc:163`). -/
  | eof
  | tuple (items : List Pmt)
  | vector (items : List Pmt)
  | uniformVector (sizeofItem : Nat) (elements : List UInt8)
  /-- A `boost::any`. -/
  | any

/-- What `pmt_serialize` and `pmt_deserialize` throw; `what()` is made of the message and
the object. -/
inductive PmtException where
  | exception (msg : String) (obj : Pmt)
  | notimplemented (msg : String) (obj : Pmt)
  /-- A variable is read that was never set. -/
  | undefinedBehaviour
  /-- The bound on the recursion of the model was too small. -/
  | outOfFuel

mutual

/-- `pmt_equal` (`pmt.cc:1005-1060`), with reals compared as bit patterns. Uniform vectors of
one length are equal, whatever `memcmp` says. An object of `boost::any` is equal to itself
only, and it has no identity here. -/
def pmtEqual : Pmt → Pmt → Bool
  | .bool a, .bool b => a == b
  | .symbol a, .symbol b => a == b
  | .integer a, .integer b => a == b
  | .uint64 a, .uint64 b => a == b
  | .real a, .real b => a == b
  | .complex a b, .complex c d => a == c && b == d
  | .null, .null => true
  | .pair a b, .pair c d => pmtEqual a c && pmtEqual b d
  | .eof, .eof => true
  | .eof, .pair .null .null => true
  | .pair .null .null, .eof => true
  | .vector xs, .vector ys => pmtEqualAll xs ys
  | .tuple xs, .tuple ys => pmtEqualAll xs ys
  | .uniformVector n xs, .uniformVector m ys => xs.length / n == ys.length / m
  | _, _ => false

def pmtEqualAll : List Pmt → List Pmt → Bool
  | [], [] => true
  | x :: xs, y :: ys => pmtEqual x y && pmtEqualAll xs ys
  | _, _ => false

end

/-! ## The stream -/

/-- A `std::streambuf`: the bytes put so far, how many have been got, and how many there is
room for; a `std::stringbuf` grows as needed. -/
structure Streambuf where
  bytes : List UInt8
  next : Nat
  room : Option Nat

namespace Streambuf

/-- An empty `std::stringbuf`. -/
def empty : Streambuf := ⟨[], 0, none⟩

/-- `sputc`; whether it did not return `eof`. -/
def sputc (c : UInt8) : Program Streambuf PmtException Bool := do
  let sb ← get
  if sb.room.any (· ≤ sb.bytes.length) then return false
  else do
    set { sb with bytes := sb.bytes ++ [c] }
    return true

/-- `sbumpc`; `none` is `eof`. -/
def sbumpc : Program Streambuf PmtException (Option UInt8) := do
  let sb ← get
  match sb.bytes[sb.next]? with
  | none => return none
  | some c => do
      set { sb with next := sb.next + 1 }
      return some c

def sungetc : Program Streambuf PmtException Unit :=
  modify fun sb => { sb with next := sb.next - 1 }

/-- `sgetn`; the bytes that could be got. -/
def sgetn (n : Nat) : Program Streambuf PmtException (List UInt8) := do
  let sb ← get
  let got := (sb.bytes.drop sb.next).take n
  set { sb with next := sb.next + got.length }
  return got

end Streambuf

open Streambuf

/-! ## Untagged numbers -/

/-- The low `n` bytes of a number, most significant first; the result is that of the last
`sputc`. -/
def serializeUntagged : Nat → Nat → Program Streambuf PmtException Bool
  | 0, _ => return true
  | n + 1, i => do
      let ok ← sputc (UInt8.ofNat (i >>> (8 * n)))
      if n = 0 then return ok else serializeUntagged n i

/-- `serialize_untagged_u8` (`pmt_serialize.cc:38-42`). -/
def serializeUntaggedU8 (i : Nat) : Program Streambuf PmtException Bool := serializeUntagged 1 i

/-- `serialize_untagged_u16` (`pmt_serialize.cc:45-50`). -/
def serializeUntaggedU16 (i : Nat) : Program Streambuf PmtException Bool := serializeUntagged 2 i

/-- `serialize_untagged_u32` (`pmt_serialize.cc:53-60`). -/
def serializeUntaggedU32 (i : Nat) : Program Streambuf PmtException Bool := serializeUntagged 4 i

/-- `serialize_untagged_f64` (`pmt_serialize.cc:62-79`). -/
def serializeUntaggedF64 (i : UInt64) : Program Streambuf PmtException Bool :=
  serializeUntagged 8 i.toNat

/-- `t & 0xff`; `eof` is `-1`. -/
def lowByte : Option UInt8 → Nat
  | none => 0xff
  | some c => c.toNat

/-- `n` further bytes of a number of which `i` has been read; whether the last `sbumpc` did
not return `eof`. -/
def deserializeUntagged : Nat → Nat → Program Streambuf PmtException (Nat × Bool)
  | 0, i => return (i, true)
  | n + 1, i => do
      let t ← sbumpc
      let i := i <<< 8 ||| lowByte t
      if n = 0 then return (i, t.isSome) else deserializeUntagged n i

/-- `deserialize_untagged_u8` (`pmt_serialize.cc:104-115`). -/
def deserializeUntaggedU8 : Program Streambuf PmtException (Nat × Bool) := deserializeUntagged 1 0

/-- `deserialize_untagged_u16` (`pmt_serialize.cc:118-132`). -/
def deserializeUntaggedU16 : Program Streambuf PmtException (Nat × Bool) := deserializeUntagged 2 0

/-- `deserialize_untagged_u32` (`pmt_serialize.cc:135-153`). -/
def deserializeUntaggedU32 : Program Streambuf PmtException (Nat × Bool) := deserializeUntagged 4 0

/-- `deserialize_untagged_f64` (`pmt_serialize.cc:186-218`). -/
def deserializeUntaggedF64 : Program Streambuf PmtException (Nat × Bool) := deserializeUntagged 8 0

/-! ## Tags (`pmt-serial-tags.scm`) -/

def pstTrue : Nat := 0x00
def pstFalse : Nat := 0x01
def pstSymbol : Nat := 0x02
def pstInt32 : Nat := 0x03
def pstDouble : Nat := 0x04
def pstComplex : Nat := 0x05
def pstNull : Nat := 0x06
def pstPair : Nat := 0x07
def pstVector : Nat := 0x08
def pstDict : Nat := 0x09
def pstUniformVector : Nat := 0x0a
def pstComment : Nat := 0x3b

/-! ## Writing -/

/-- The quotient rounded to the nearest integer, ties to even. -/
def divRoundEven (n d : Nat) : Nat :=
  let q := n / d
  let r := n % d
  if 2 * r < d then q
  else if d < 2 * r then q + 1
  else if q % 2 = 0 then q else q + 1

/-- A `double` assigned to a `float` and widened again, on bit patterns. -/
def throughFloat (bits : UInt64) : UInt64 :=
  let sign := bits.toNat / 2 ^ 63 * 2 ^ 63
  let e := bits.toNat / 2 ^ 52 % 2 ^ 11
  let m := bits.toNat % 2 ^ 52
  let infinity := 0x7ff * 2 ^ 52
  if e = 0x7ff then
    -- a NaN keeps the upper half of its payload and becomes quiet
    if m = 0 then bits else UInt64.ofNat (sign + infinity + (m / 2 ^ 29 * 2 ^ 29 ||| 2 ^ 51))
  else
    let dropped := 29 + (897 - e)
    let m := if e = 0 then 0 else divRoundEven (2 ^ 52 + m) (2 ^ dropped) * 2 ^ dropped
    if m = 0 then UInt64.ofNat sign
    else
      let magnitude := e * 2 ^ 52 + (m - 2 ^ 52)
      UInt64.ofNat (sign + if magnitude < 1151 * 2 ^ 52 then magnitude else infinity)

/-- `pmt_serialize` (`pmt_serialize.cc:226-303`). The dictionaries of `pmt_is_dict` are the
null object and pairs, so the case for them is never reached. -/
def pmtSerialize : Pmt → Program Streambuf PmtException Bool
  | .bool true => serializeUntaggedU8 pstTrue
  | .bool false => serializeUntaggedU8 pstFalse
  | .null => serializeUntaggedU8 pstNull
  | .symbol s => do
      let ok ← serializeUntaggedU8 pstSymbol
      let put ← serializeUntaggedU16 s.length
      s.foldlM (fun ok c => do
        let put ← serializeUntaggedU8 c.toNat
        return ok && put) (ok && put)
  | .pair car cdr => do
      let ok ← serializeUntaggedU8 pstPair
      let put ← pmtSerialize car
      if ok && put then pmtSerialize cdr else return false
  | .eof => do
      let ok ← serializeUntaggedU8 pstPair
      let put ← serializeUntaggedU8 pstNull
      if ok && put then serializeUntaggedU8 pstNull else return false
  | .integer i =>
      if i.toInt < -2147483647 ∨ i.toInt > 2147483647 then
        throw (.notimplemented "pmt_serialize (64-bit integers)" (.integer i))
      else do
        let ok ← serializeUntaggedU8 pstInt32
        let put ← serializeUntaggedU32 (i.toInt % 2 ^ 32).toNat
        return ok && put
  | .real x => do
      let ok ← serializeUntaggedU8 pstDouble
      let put ← serializeUntaggedF64 (throughFloat x)
      return ok && put
  | .complex re im => do
      let ok ← serializeUntaggedU8 pstComplex
      let putRe ← serializeUntaggedF64 re
      let putIm ← serializeUntaggedF64 im
      return ok && putRe && putIm
  | .vector items => throw (.notimplemented "pmt_serialize (vector)" (.vector items))
  | .uniformVector size elements =>
      throw (.notimplemented "pmt_serialize (uniform-vector)" (.uniformVector size elements))
  | .uint64 i => throw (.notimplemented "pmt_serialize (?)" (.uint64 i))
  | .tuple items => throw (.notimplemented "pmt_serialize (?)" (.tuple items))
  | .any => throw (.notimplemented "pmt_serialize (?)" .any)

/-! ## Reading -/

/-- `throw pmt_exception("pmt_deserialize: malformed input stream", PMT_F)`. -/
def malformedInput {α : Type} : Program Streambuf PmtException α :=
  throw (.exception "pmt_deserialize: malformed input stream" (.bool false))

/-- `sizeof(tmpbuf)` (`pmt_serialize.cc:320`). -/
def tmpbufSize : Nat := 1024

/-- `pmt_from_long` of a number read as `uint32_t`, or of a tag. -/
def pmtFromLong (i : Int) : Pmt := .integer (Int64.ofInt i)

/-- The cells made so far, last one first, with `expr` as the `cdr` of the last. -/
def chain (cells : List Pmt) (expr : Pmt) : Pmt := cells.foldl (fun cdr car => .pair car cdr) expr

mutual

/-- `pmt_deserialize` (`pmt_serialize.cc:311-380`). After the real part of a complex number
was read its imaginary part is not (`pmt_serialize.cc:358`). -/
def deserialize : Nat → Program Streambuf PmtException Pmt
  | 0 => throw .outOfFuel
  | fuel + 1 => do
      let (tag, ok) ← deserializeUntaggedU8
      if !ok then return .eof
      else if tag = pstTrue then return .bool true
      else if tag = pstFalse then return .bool false
      else if tag = pstNull then return .null
      else if tag = pstSymbol then do
        let (u16, ok) ← deserializeUntaggedU16
        if !ok then malformedInput
        else if tmpbufSize < u16 then
          throw (.notimplemented "pmt_deserialize: very long symbol" (.bool false))
        else do
          let tmpbuf ← sgetn u16
          if tmpbuf.length ≠ u16 then malformedInput else return .symbol tmpbuf
      else if tag = pstInt32 then do
        let (u32, ok) ← deserializeUntaggedU32
        if !ok then malformedInput else return pmtFromLong ((u32 : Int).bmod (2 ^ 32))
      else if tag = pstPair then parsePair fuel []
      else if tag = pstDouble then do
        let (f64, ok) ← deserializeUntaggedF64
        if !ok then malformedInput else return .real (UInt64.ofNat f64)
      else if tag = pstComplex then do
        let (r, ok) ← deserializeUntaggedF64
        if ok then throw .undefinedBehaviour
        else do
          let (i, ok) ← deserializeUntaggedF64
          if !ok then malformedInput else return .complex (UInt64.ofNat r) (UInt64.ofNat i)
      else if tag = pstVector ∨ tag = pstDict ∨ tag = pstUniformVector ∨ tag = pstComment then
        throw (.notimplemented "pmt_deserialize: tag value = " (pmtFromLong tag))
      else
        throw (.exception "pmt_deserialize: malformed input stream, tag value = "
          (pmtFromLong tag))

/-- `parse_pair` (`pmt_serialize.cc:408-452`): the loop, after the cells of `cells`. -/
def parsePair : Nat → List Pmt → Program Streambuf PmtException Pmt
  | 0, _ => throw .outOfFuel
  | fuel + 1, cells => do
      let expr ← deserialize fuel
      let (tag, ok) ← deserializeUntaggedU8
      if !ok then malformedInput
      else if tag = pstPair then parsePair fuel (expr :: cells)
      else if tag = pstNull then return chain (expr :: cells) .null
      else do
        sungetc
        let cdr ← deserialize fuel
        return chain (expr :: cells) cdr

end

/-- `pmt_deserialize` with fuel for all the bytes there are. -/
def pmtDeserialize : Program Streambuf PmtException Pmt := do
  let sb ← get
  deserialize (2 * (sb.bytes.length - sb.next) + 1)

end GnuRadio
