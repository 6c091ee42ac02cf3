import GnuRadio.Runtime.Types
import GnuRadio.Misc.Except
import Mathlib.Algebra.Order.Ring.Int

/-!
# The circular log file

`gr_circular_file` writes into a buffer of fixed size, round and round, and reads it from where the
next byte would go, the oldest one first. What is copied always lies inside the buffer: the copies
ask for the proof. The one thing that can go wrong is the sum of two positions, which has to be an
`int`.
-/

namespace GnuRadio

/-- `HEADER_SIZE` (`gr_circular_file.cc:44`). -/
def headerSize : Int := 4096

/-- `gr_circular_file` (`gr_circular_file.h:41-45`), with the header fields that change or are read
again. That `d_buffer` has the size and that the position is inside, the constructor asserts. -/
structure GrCircularFile where
  bufferSize : Nat
  bufferCurrent : Nat
  buffer : List UInt8
  bytesRead : Nat
  int : bufferSize ≤ intMax
  length : buffer.length = bufferSize
  inside : bufferCurrent < bufferSize
  bounded : bytesRead ≤ bufferSize

namespace GrCircularFile

/-- `memcpy` to the buffer. -/
def copyTo (buffer : List UInt8) (offset : Nat) (data : List UInt8)
    (_ : offset + data.length ≤ buffer.length) : List UInt8 :=
  buffer.take offset ++ data ++ buffer.drop (offset + data.length)

/-- `memcpy` from the buffer. -/
def copyFrom (buffer : List UInt8) (offset n : Nat) (_ : offset + n ≤ buffer.length) :
    List UInt8 :=
  (buffer.drop offset).take n

@[simp] theorem length_copyTo {buffer data : List UInt8} {offset : Nat}
    (fits : offset + data.length ≤ buffer.length) :
    (copyTo buffer offset data fits).length = buffer.length := by
  simp [copyTo]
  omega

/-- The constructor of a writable file (`gr_circular_file.cc:53-137`), when the file can be opened
and mapped. A call of `exit` ends it as an error does. -/
def construct (size : Int) : Except CppException GrCircularFile :=
  match fits : asInt (size + headerSize) with
  | .error e => .error e
  | .ok mappedSize =>
    if mappedSize < 0 then .error (.runtimeError "ftruncate")
    else if mappedSize < headerSize then
      .error (.runtimeError "file too small to be circular buffer")
    else if size < 0 then
      .error (.runtimeError "gr_circular_buffer: size must be > 0 when writable")
    else if positive : 0 < size then
      .ok {
        bufferSize := size.toNat
        bufferCurrent := 0
        buffer := List.replicate size.toNat 0
        bytesRead := 0
        int := by
          have int := (asInt_ok fits).2.2
          unfold headerSize at int
          unfold intMax
          omega
        length := List.length_replicate
        inside := by omega
        bounded := Nat.zero_le _ }
    else .error .assertFailed

/-- One turn of the loop of `write`: as many bytes as fit up to the end of the buffer. -/
def writeTurn (file : GrCircularFile) (data : List UInt8) : GrCircularFile :=
  let n := min data.length (file.bufferSize - file.bufferCurrent)
  let bufferCurrent := file.bufferCurrent + n
  have inside := file.inside
  have length := file.length
  { file with
    buffer := copyTo file.buffer file.bufferCurrent (data.take n)
      (by rw [List.length_take]; omega)
    bufferCurrent := if bufferCurrent ≥ file.bufferSize then 0 else bufferCurrent
    length := by rw [length_copyTo, length]
    inside := by split <;> omega }

/-- `write` (`gr_circular_file.cc:150-171`). -/
def write (file : GrCircularFile) (data : List UInt8) : GrCircularFile :=
  if 0 < data.length then
    let n := min data.length (file.bufferSize - file.bufferCurrent)
    (file.writeTurn data).write (data.drop n)
  else file
termination_by data.length
decreasing_by
  have := file.inside
  rw [List.length_drop]
  omega

/-- The pointer has moved on by `n` bytes. -/
def advance (file : GrCircularFile) (n : Nat) (fits : file.bytesRead + n ≤ file.bufferSize) :
    GrCircularFile :=
  { file with bytesRead := file.bytesRead + n, bounded := fits }

variable {file : GrCircularFile} {n : Nat} {nbytes : Int}

@[simp] theorem bytesRead_advance (fits : file.bytesRead + n ≤ file.bufferSize) :
    (file.advance n fits).bytesRead = file.bytesRead + n := rfl

@[simp] theorem bufferSize_advance (fits : file.bytesRead + n ≤ file.bufferSize) :
    (file.advance n fits).bufferSize = file.bufferSize := rfl

@[simp] theorem bufferCurrent_advance (fits : file.bytesRead + n ≤ file.bufferSize) :
    (file.advance n fits).bufferCurrent = file.bufferCurrent := rfl

theorem advance_advance {m k : Nat} (whole : m + n = k)
    (first : file.bytesRead + m ≤ file.bufferSize)
    (later : (file.advance m first).bytesRead + n ≤ file.bufferSize)
    (both : file.bytesRead + k ≤ file.bufferSize) :
    (file.advance m first).advance n later = file.advance k both := by
  subst whole
  simp [advance, Nat.add_assoc]

/-- The loop of `read`. -/
def readLoop (file : GrCircularFile) (nbytes : Nat)
    (fits : file.bytesRead + nbytes ≤ file.bufferSize) :
    Except CppException (List UInt8 × GrCircularFile) :=
  if 0 < nbytes then
    match asInt (file.bufferCurrent + file.bytesRead) with
    | .error e => .error e
    | .ok position =>
      let offset := position.toNat % file.bufferSize
      let n := min nbytes (file.bufferSize - offset)
      have : offset < file.bufferSize := Nat.mod_lt _ (Nat.zero_lt_of_lt file.inside)
      let data := copyFrom file.buffer offset n (by rw [file.length]; omega)
      match readLoop (file.advance n (by omega)) (nbytes - n)
          (by rw [bytesRead_advance, bufferSize_advance]; omega) with
      | .error e => .error e
      | .ok (rest, file) => .ok (data ++ rest, file)
  else .ok ([], file)
termination_by nbytes
decreasing_by
  have : position.toNat % file.bufferSize < file.bufferSize :=
    Nat.mod_lt _ (Nat.zero_lt_of_lt file.inside)
  omega

/-- How many bytes a call of `read` asks for, as it bounds them (`gr_circular_file.cc:181`). -/
def asked (file : GrCircularFile) (nbytes : Int) : Nat :=
  (min nbytes (file.bufferSize - file.bytesRead : Nat)).toNat

theorem asked_fits (file : GrCircularFile) (nbytes : Int) :
    file.bytesRead + file.asked nbytes ≤ file.bufferSize := by
  have := file.bounded
  unfold asked
  omega

/-- `read` (`gr_circular_file.cc:173-193`): the bytes it copies, as many as it returns. -/
def read (file : GrCircularFile) (nbytes : Int) :
    Except CppException (List UInt8 × GrCircularFile) :=
  file.readLoop (file.asked nbytes) (file.asked_fits nbytes)

/-- `reset_read_pointer` (`gr_circular_file.cc:195-199`). -/
def resetReadPointer (file : GrCircularFile) : GrCircularFile :=
  { file with bytesRead := 0, bounded := Nat.zero_le _ }

/-- The calls of a file. -/
inductive Call where
  | write (data : List UInt8)
  | read (nbytes : Int)
  | resetReadPointer
  deriving DecidableEq, Repr

def call (file : GrCircularFile) : Call → Except CppException (List UInt8 × GrCircularFile)
  | .write data => .ok ([], file.write data)
  | .read nbytes => file.read nbytes
  | .resetReadPointer => .ok ([], file.resetReadPointer)

/-- Calls one after the other, and all the bytes they hand out. -/
def calls (file : GrCircularFile) : List Call → Except CppException (List UInt8 × GrCircularFile)
  | [] => .ok ([], file)
  | c :: cs => do
    let (bytes, file) ← file.call c
    let (more, file) ← file.calls cs
    pure (bytes ++ more, file)

/-! ## The log -/

/-- The last `size` bytes of a log that starts as zeros. -/
def lastBytes (size : Nat) (written : List UInt8) : List UInt8 :=
  (List.replicate size 0 ++ written).drop written.length

def written : List Call → List UInt8
  | [] => []
  | .write data :: cs => data ++ written cs
  | _ :: cs => written cs

/-- No call has read since the pointer was reset last, or at all: `unread` says so of the calls
before. -/
def unread : Bool → List Call → Bool
  | u, [] => u
  | u, .write _ :: cs => unread u cs
  | _, .read _ :: cs => unread false cs
  | _, .resetReadPointer :: cs => unread true cs

/-- The bytes of the buffer, oldest first. -/
def contents (file : GrCircularFile) : List UInt8 :=
  file.buffer.drop file.bufferCurrent ++ file.buffer.take file.bufferCurrent

@[simp] theorem length_contents (file : GrCircularFile) :
    file.contents.length = file.bufferSize := by
  have := file.length
  have := file.inside
  simp [contents]
  omega

/-! ## Writes -/

theorem contents_writeTurn (file : GrCircularFile) (data : List UInt8) :
    (file.writeTurn data).contents =
      file.contents.drop (min data.length (file.bufferSize - file.bufferCurrent)) ++
        data.take (min data.length (file.bufferSize - file.bufferCurrent)) := by
  have length := file.length
  have inside := file.inside
  have count : (data.take (min data.length (file.bufferSize - file.bufferCurrent))).length =
      min data.length (file.bufferSize - file.bufferCurrent) := by simp
  have front : (file.buffer.take file.bufferCurrent).length = file.bufferCurrent := by
    simp
    omega
  simp only [contents, writeTurn, copyTo, count]
  generalize least : min data.length (file.bufferSize - file.bufferCurrent) = n at count ⊢
  split
  · rename_i full
    have whole : file.buffer.length ≤ file.bufferCurrent + n := by omega
    have back : (file.buffer.drop file.bufferCurrent).length = n := by
      simp
      omega
    rw [List.drop_zero, List.take_zero, List.append_nil, List.drop_eq_nil_of_le whole,
      List.append_nil, ← back, List.drop_left]
  · rename_i within
    have whole : (file.buffer.take file.bufferCurrent ++ data.take n).length =
        file.bufferCurrent + n := by rw [List.length_append, front, count]
    rw [← whole, List.drop_left, List.take_left, whole,
      List.drop_append_of_le_length (by simp; omega), List.drop_drop, List.append_assoc]

theorem contents_write (file : GrCircularFile) (data : List UInt8) :
    (file.write data).contents = (file.contents ++ data).drop data.length := by
  fun_induction write file data with
  | case1 file data some n ih =>
    have inside := file.inside
    have first : n ≤ file.contents.length := by
      rw [length_contents]
      omega
    have rest : data.length = n + (data.drop n).length := by
      rw [List.length_drop]
      omega
    have turn : (file.writeTurn data).contents = file.contents.drop n ++ data.take n :=
      contents_writeTurn file data
    rw [ih, turn, List.append_assoc, List.take_append_drop, rest, ← List.drop_drop,
      List.drop_append_of_le_length first]
  | case2 file data none =>
    have empty : data = [] := List.eq_nil_of_length_eq_zero (by omega)
    simp [empty]

@[simp] theorem bufferSize_write (file : GrCircularFile) (data : List UInt8) :
    (file.write data).bufferSize = file.bufferSize := by
  fun_induction write file data with
  | case1 file data some n ih => exact ih
  | case2 file data none => rfl

@[simp] theorem bytesRead_write (file : GrCircularFile) (data : List UInt8) :
    (file.write data).bytesRead = file.bytesRead := by
  fun_induction write file data with
  | case1 file data some n ih => exact ih
  | case2 file data none => rfl

theorem bufferCurrent_write (file : GrCircularFile) (data : List UInt8) :
    (file.write data).bufferCurrent = (file.bufferCurrent + data.length) % file.bufferSize := by
  fun_induction write file data with
  | case1 file data some n ih =>
    have inside := file.inside
    have rest : data.length = n + (data.drop n).length := by
      rw [List.length_drop]
      omega
    have turn : (file.writeTurn data).bufferCurrent =
        if file.bufferCurrent + n ≥ file.bufferSize then 0 else file.bufferCurrent + n := rfl
    have same : (file.writeTurn data).bufferSize = file.bufferSize := rfl
    rw [ih, turn, same, rest, ← Nat.add_assoc]
    split
    · rename_i full
      have whole : file.bufferCurrent + n = file.bufferSize := by omega
      rw [whole, Nat.add_mod_left, Nat.zero_add]
    · rfl
  | case2 file data none =>
    have empty : data = [] := List.eq_nil_of_length_eq_zero (by omega)
    simp [empty, Nat.mod_eq_of_lt file.inside]

/-! ## Reads -/

/-- The calls that a position below `2 ^ 31` lets through. -/
def ReadFits (file : GrCircularFile) (nbytes : Int) : Prop :=
  0 < file.asked nbytes → file.bufferCurrent + file.bytesRead ≤ intMax

theorem copyFrom_eq (file : GrCircularFile) (fits : file.bytesRead + n ≤ file.bufferSize)
    (room : n ≤ file.bufferSize - (file.bufferCurrent + file.bytesRead) % file.bufferSize) :
    (file.buffer.drop ((file.bufferCurrent + file.bytesRead) % file.bufferSize)).take n =
      (file.contents.drop file.bytesRead).take n := by
  have length := file.length
  have inside := file.inside
  have back : (file.buffer.drop file.bufferCurrent).length =
      file.bufferSize - file.bufferCurrent := by rw [List.length_drop, length]
  by_cases before : file.bufferCurrent + file.bytesRead < file.bufferSize
  · rw [Nat.mod_eq_of_lt before] at room ⊢
    rw [contents, List.drop_append_of_le_length (by omega), List.drop_drop,
      List.take_append_of_le_length (by rw [List.length_drop, length]; exact room)]
  · have around : (file.bufferCurrent + file.bytesRead) % file.bufferSize =
        file.bytesRead - (file.bufferSize - file.bufferCurrent) := by
      rw [Nat.mod_eq_sub_mod (by omega), Nat.mod_eq_of_lt (by omega)]
      omega
    have gone : (file.buffer.drop file.bufferCurrent).drop file.bytesRead = [] :=
      List.drop_eq_nil_of_le (by omega)
    rw [around, contents, List.drop_append, back, gone, List.nil_append, List.drop_take,
      List.take_take, Nat.min_eq_left (by omega)]

@[simp] theorem contents_resetReadPointer (file : GrCircularFile) :
    file.resetReadPointer.contents = file.contents := rfl

@[simp] theorem contents_advance (fits : file.bytesRead + n ≤ file.bufferSize) :
    (file.advance n fits).contents = file.contents := rfl

theorem readLoop_turn (file : GrCircularFile) {nbytes : Nat}
    (fits : file.bytesRead + nbytes ≤ file.bufferSize) (some : 0 < nbytes)
    (small : file.bufferCurrent + file.bytesRead ≤ intMax)
    (least : n = min nbytes
      (file.bufferSize - (file.bufferCurrent + file.bytesRead) % file.bufferSize)) :
    file.readLoop nbytes fits =
      ((file.advance n (by omega)).readLoop (nbytes - n)
        (by rw [bytesRead_advance, bufferSize_advance]; omega)).map fun (rest, file') =>
          ((file.contents.drop file.bytesRead).take n ++ rest, file') := by
  have room := Nat.mod_lt (file.bufferCurrent + file.bytesRead) (Nat.zero_lt_of_lt file.inside)
  subst least
  have chunk := copyFrom_eq file (n := min nbytes
    (file.bufferSize - (file.bufferCurrent + file.bytesRead) % file.bufferSize))
    (by omega) (by omega)
  rw [readLoop, if_pos some, ← Int.natCast_add, asInt_natCast small]
  simp only [Int.toNat_natCast, copyFrom, chunk]
  split
  · rename_i failed
    rw [failed]
    rfl
  · rename_i goes
    rw [goes]
    rfl

/-- The loop hands out the bytes behind those that have been read. -/
theorem readLoop_eq (file : GrCircularFile) (nbytes : Nat)
    (fits : file.bytesRead + nbytes ≤ file.bufferSize) :
    file.readLoop nbytes fits =
      if 0 < nbytes ∧ intMax < file.bufferCurrent + file.bytesRead then .error .undefinedBehaviour
      else .ok ((file.contents.drop file.bytesRead).take nbytes, file.advance nbytes fits) := by
  induction nbytes using Nat.strong_induction_on generalizing file with
  | _ nbytes ih =>
    have inside := file.inside
    have int := file.int
    by_cases some : 0 < nbytes
    · by_cases small : file.bufferCurrent + file.bytesRead ≤ intMax
      · obtain ⟨n, least⟩ : ∃ n, n = min nbytes
            (file.bufferSize - (file.bufferCurrent + file.bytesRead) % file.bufferSize) := ⟨_, rfl⟩
        have room := Nat.mod_lt (file.bufferCurrent + file.bytesRead)
          (Nat.zero_lt_of_lt inside)
        have goes : ¬(0 < nbytes ∧ intMax < file.bufferCurrent + file.bytesRead) := by omega
        -- a second turn starts at the buffer's start, a third one is never made
        have last : ¬(0 < nbytes - n ∧ intMax < file.bufferCurrent + (file.bytesRead + n)) := by
          by_cases before : file.bufferCurrent + file.bytesRead < file.bufferSize
          · rw [Nat.mod_eq_of_lt before] at least
            omega
          · rw [Nat.mod_eq_sub_mod (by omega), Nat.mod_eq_of_lt (by omega)] at least
            omega
        have whole : n + (nbytes - n) = nbytes := by omega
        have rest := (ih (nbytes - n) (by omega) (file.advance n (by omega))
          (by rw [bytesRead_advance, bufferSize_advance]; omega)).trans (if_neg last)
        rw [readLoop_turn file fits some small least, rest, if_neg goes]
        simp only [Except.map, contents_advance, bytesRead_advance, ← List.drop_drop]
        rw [← List.take_add, whole]
        exact congrArg Except.ok (Prod.ext rfl (advance_advance whole _ _ _))
      · have beyond := Nat.lt_of_not_le small
        rw [readLoop, if_pos some, ← Int.natCast_add, asInt_natCast_error beyond,
          if_pos ⟨some, beyond⟩]
    · obtain rfl : nbytes = 0 := by omega
      rw [readLoop, if_neg some, if_neg fun both => some both.1, List.take_zero]
      rfl

theorem read_eq (file : GrCircularFile) (nbytes : Int) :
    file.read nbytes =
      if 0 < file.asked nbytes ∧ intMax < file.bufferCurrent + file.bytesRead then
        .error .undefinedBehaviour
      else .ok ((file.contents.drop file.bytesRead).take (file.asked nbytes),
        file.advance (file.asked nbytes) (file.asked_fits nbytes)) :=
  file.readLoop_eq _ _

theorem read_error (fails : ¬file.ReadFits nbytes) :
    file.read nbytes = .error .undefinedBehaviour := by
  rw [read_eq, if_pos]
  unfold ReadFits at fails
  omega

theorem read_ok (fits : file.ReadFits nbytes) :
    file.read nbytes = .ok ((file.contents.drop file.bytesRead).take (file.asked nbytes),
      file.advance (file.asked nbytes) (file.asked_fits nbytes)) := by
  rw [read_eq, if_neg]
  unfold ReadFits at fits
  omega

/-! ## Calls -/

/-- The condition under which a call returns. -/
def CallFits (file : GrCircularFile) : Call → Prop
  | .read nbytes => file.ReadFits nbytes
  | _ => True

/-- The calls meet it, each in the state it is made in. -/
def CallsFit (file : GrCircularFile) : List Call → Prop
  | [] => True
  | c :: cs => file.CallFits c ∧ ∀ bytes file', file.call c = .ok (bytes, file') → file'.CallsFit cs

/-- A file that holds the end of a log, when nothing has been read since the reset if `fresh`. -/
structure Logs (size : Nat) (log : List UInt8) (fresh : Bool) (file : GrCircularFile) : Prop where
  sized : file.bufferSize = size
  holds : file.contents = lastBytes size log
  untouched : fresh = true → file.bytesRead = 0

variable {c : Call} {file' : GrCircularFile} {bytes : List UInt8} {cs : List Call}

theorem call_ok (fits : file.CallFits c) : ∃ bytes file', file.call c = .ok (bytes, file') := by
  cases c with
  | write data => exact ⟨_, _, rfl⟩
  | read nbytes => exact ⟨_, _, read_ok fits⟩
  | resetReadPointer => exact ⟨_, _, rfl⟩

theorem call_fits (returns : file.call c = .ok (bytes, file')) : file.CallFits c := by
  cases c with
  | write data => trivial
  | read nbytes =>
    by_contra fails
    rw [call, read_error fails] at returns
    cases returns
  | resetReadPointer => trivial

theorem calls_cons_ok {last : GrCircularFile} :
    file.calls (c :: cs) = .ok (bytes, last) ↔ ∃ first mid more,
      file.call c = .ok (first, mid) ∧ mid.calls cs = .ok (more, last) ∧ first ++ more = bytes := by
  constructor
  · intro returns
    obtain ⟨⟨first, mid⟩, called, rest⟩ := bind_ok.mp returns
    obtain ⟨⟨more, last'⟩, later, same⟩ := bind_ok.mp rest
    obtain ⟨rfl, rfl⟩ := Prod.mk.inj (pure_ok.mp same)
    exact ⟨first, mid, more, called, later, rfl⟩
  · rintro ⟨first, mid, more, called, later, rfl⟩
    rw [calls, called]
    exact bind_ok.mpr ⟨_, rfl, bind_ok.mpr ⟨_, later, rfl⟩⟩

theorem calls_ok_iff (file : GrCircularFile) (cs : List Call) :
    (∃ bytes file', file.calls cs = .ok (bytes, file')) ↔ file.CallsFit cs := by
  induction cs generalizing file with
  | nil => exact ⟨fun _ => trivial, fun _ => ⟨[], file, rfl⟩⟩
  | cons c cs ih =>
    constructor
    · rintro ⟨bytes, file', returns⟩
      obtain ⟨first, mid, more, called, later, -⟩ := calls_cons_ok.mp returns
      refine ⟨call_fits called, fun bytes' mid' also => ?_⟩
      rw [called] at also
      obtain ⟨rfl, rfl⟩ := Prod.mk.inj (Except.ok.inj also)
      exact (ih mid).mp ⟨more, file', later⟩
    · rintro ⟨fits, rest⟩
      obtain ⟨bytes, mid, called⟩ := call_ok fits
      obtain ⟨more, last, later⟩ := (ih mid).mpr (rest bytes mid called)
      exact ⟨bytes ++ more, last, calls_cons_ok.mpr ⟨bytes, mid, more, called, later, rfl⟩⟩

theorem lastBytes_append (size : Nat) (log data : List UInt8) :
    (lastBytes size log ++ data).drop data.length = lastBytes size (log ++ data) := by
  have front : log.length ≤ (List.replicate size (0 : UInt8) ++ log).length := by simp
  rw [lastBytes, lastBytes, ← List.append_assoc, List.length_append, ← List.drop_drop,
    List.drop_append_of_le_length front]

theorem construct_ok {size : Int} (made : construct size = .ok file) :
    Logs size.toNat [] true file ∧ file.bufferCurrent = 0 := by
  unfold construct at made
  split at made
  · cases made
  · split at made
    · cases made
    · split at made
      · cases made
      · split at made
        · cases made
        · split at made
          · cases made
            refine ⟨⟨rfl, ?_, fun _ => rfl⟩, rfl⟩
            simp [contents, lastBytes]
          · cases made

theorem Logs.call {size : Nat} {log : List UInt8} {fresh : Bool} {file file' : GrCircularFile}
    (logs : Logs size log fresh file) {c : Call} {bytes : List UInt8}
    (returns : file.call c = .ok (bytes, file')) :
    Logs size (log ++ written [c]) (unread fresh [c]) file' := by
  cases c with
  | write data =>
    obtain ⟨-, rfl⟩ := Prod.mk.inj (Except.ok.inj returns)
    refine ⟨by rw [bufferSize_write, logs.sized], ?_, fun still => ?_⟩
    · rw [contents_write, logs.holds, lastBytes_append, written, written, List.append_nil]
    · rw [bytesRead_write, logs.untouched still]
  | read nbytes =>
    have fits : file.ReadFits nbytes := call_fits returns
    rw [GrCircularFile.call, read_ok fits] at returns
    obtain ⟨-, rfl⟩ := Prod.mk.inj (Except.ok.inj returns)
    refine ⟨logs.sized, ?_, fun still => by cases still⟩
    simpa [written] using logs.holds
  | resetReadPointer =>
    obtain ⟨-, rfl⟩ := Prod.mk.inj (Except.ok.inj returns)
    refine ⟨logs.sized, ?_, fun _ => rfl⟩
    simpa [written] using logs.holds

theorem written_cons (c : Call) (cs : List Call) :
    written (c :: cs) = written [c] ++ written cs := by
  cases c <;> simp [written]

theorem unread_cons (fresh : Bool) (c : Call) (cs : List Call) :
    unread fresh (c :: cs) = unread (unread fresh [c]) cs := by
  cases c <;> rfl

theorem Logs.calls {size : Nat} {log : List UInt8} {fresh : Bool} (logs : Logs size log fresh file)
    (returns : file.calls cs = .ok (bytes, file')) :
    Logs size (log ++ written cs) (unread fresh cs) file' := by
  induction cs generalizing file log fresh bytes with
  | nil =>
    obtain ⟨-, rfl⟩ := Prod.mk.inj (Except.ok.inj returns)
    rwa [written, List.append_nil, unread]
  | cons c cs ih =>
    obtain ⟨first, mid, more, called, later, -⟩ := calls_cons_ok.mp returns
    rw [written_cons, ← List.append_assoc, unread_cons]
    exact ih (logs.call called) later

/-- How many bytes reads ask for. -/
def askedBy (asks : List Int) : Nat := (asks.map Int.toNat).sum

theorem calls_reads {asks : List Int} (returns : file.calls (asks.map .read) = .ok (bytes, file')) :
    bytes = (file.contents.drop file.bytesRead).take (askedBy asks) := by
  induction asks generalizing file bytes with
  | nil =>
    obtain ⟨rfl, -⟩ := Prod.mk.inj (Except.ok.inj returns)
    rw [askedBy, List.map_nil, List.sum_nil, List.take_zero]
  | cons ask asks ih =>
    obtain ⟨first, mid, more, called, later, rfl⟩ := calls_cons_ok.mp returns
    have goes : file.read ask = .ok (first, mid) := called
    rw [read_ok (call_fits called)] at goes
    obtain ⟨rfl, rfl⟩ := Prod.mk.inj (Except.ok.inj goes)
    have bounded := file.bounded
    have enough : (file.contents.drop file.bytesRead).length =
        file.bufferSize - file.bytesRead := by rw [List.length_drop, length_contents]
    have total : askedBy (ask :: asks) = ask.toNat + askedBy asks := by simp [askedBy]
    rw [ih later, contents_advance, bytesRead_advance, ← List.drop_drop, ← List.take_add, total]
    -- when the read was cut short nothing is left
    by_cases cut : ask.toNat ≤ file.bufferSize - file.bytesRead
    · have whole : file.asked ask = ask.toNat := by
        unfold asked
        omega
      rw [whole]
    · have whole : file.asked ask = file.bufferSize - file.bytesRead := by
        unfold asked
        omega
      rw [whole, List.take_of_length_le (by omega), List.take_of_length_le (by omega)]

theorem callsFit_append {before after : List Call} :
    file.CallsFit (before ++ after) ↔ file.CallsFit before ∧
      ∀ bytes file', file.calls before = .ok (bytes, file') → file'.CallsFit after := by
  induction before generalizing file with
  | nil =>
    constructor
    · intro fits
      refine ⟨trivial, fun bytes file' returns => ?_⟩
      obtain ⟨-, rfl⟩ := Prod.mk.inj (Except.ok.inj returns)
      exact fits
    · intro fits
      exact fits.2 [] file rfl
  | cons c before ih =>
    constructor
    · rintro ⟨now, rest⟩
      refine ⟨⟨now, fun bytes mid called => (ih.mp (rest bytes mid called)).1⟩, ?_⟩
      intro bytes last returns
      obtain ⟨first, mid, more, called, later, -⟩ := calls_cons_ok.mp returns
      exact (ih.mp (rest first mid called)).2 more last later
    · rintro ⟨⟨now, rest⟩, fits⟩
      refine ⟨now, fun bytes mid called => ih.mpr ⟨rest bytes mid called, ?_⟩⟩
      intro more last later
      exact fits (bytes ++ more) last (calls_cons_ok.mpr ⟨bytes, mid, more, called, later, rfl⟩)

theorem bufferSize_call (returns : file.call c = .ok (bytes, file')) :
    file'.bufferSize = file.bufferSize := by
  cases c with
  | write data =>
    obtain ⟨-, rfl⟩ := Prod.mk.inj (Except.ok.inj returns)
    exact bufferSize_write file data
  | read nbytes =>
    have fits : file.ReadFits nbytes := call_fits returns
    rw [call, read_ok fits] at returns
    obtain ⟨-, rfl⟩ := Prod.mk.inj (Except.ok.inj returns)
    rfl
  | resetReadPointer =>
    obtain ⟨-, rfl⟩ := Prod.mk.inj (Except.ok.inj returns)
    rfl

theorem callsFit_of_small (small : file.bufferSize ≤ 2 ^ 30) (cs : List Call) :
    file.CallsFit cs := by
  induction cs generalizing file with
  | nil => trivial
  | cons c cs ih =>
    constructor
    · cases c with
      | read nbytes =>
        intro some
        have inside := file.inside
        have bounded := file.bounded
        unfold intMax
        omega
      | write data => trivial
      | resetReadPointer => trivial
    · intro bytes mid called
      exact ih (by rw [bufferSize_call called]; exact small)

theorem construct_total {size : Int} (some : 0 < size) (most : size + 4096 ≤ intMax) :
    ∃ file, construct size = .ok file := by
  have int : asInt (size + headerSize) = .ok (size + headerSize) := by
    unfold intMax at most
    unfold headerSize
    exact if_pos ⟨by omega, by omega⟩
  unfold construct
  split
  · rename_i fails
    rw [int] at fails
    cases fails
  · rename_i mappedSize fits
    rw [int] at fits
    cases fits
    unfold headerSize
    rw [if_neg (by omega), if_neg (by omega), if_neg (by omega), dif_pos some]
    exact ⟨_, rfl⟩

/-- **Reads hand out the last bytes of the log, oldest first, just when no sum of the two positions
is beyond `int`.** -/
theorem reads_last_bytes {size : Int} {file : GrCircularFile} (made : construct size = .ok file)
    {before : List Call} (fresh : unread true before = true) (asks : List Int) :
    (∃ skipped mid bytes last, file.calls before = .ok (skipped, mid) ∧
      mid.calls (asks.map .read) = .ok (bytes, last) ∧
      bytes = (lastBytes size.toNat (written before)).take (askedBy asks)) ↔
        file.CallsFit (before ++ asks.map .read) := by
  have logs := (construct_ok made).1
  rw [callsFit_append, ← calls_ok_iff]
  constructor
  · rintro ⟨skipped, mid, bytes, last, first, later, -⟩
    refine ⟨⟨skipped, mid, first⟩, fun skipped' mid' first' => ?_⟩
    rw [first] at first'
    obtain ⟨-, rfl⟩ := Prod.mk.inj (Except.ok.inj first')
    exact (calls_ok_iff mid _).mp ⟨bytes, last, later⟩
  · rintro ⟨⟨skipped, mid, first⟩, fits⟩
    obtain ⟨bytes, last, later⟩ := (calls_ok_iff mid _).mpr (fits skipped mid first)
    have kept := logs.calls first
    rw [List.nil_append, fresh] at kept
    refine ⟨skipped, mid, bytes, last, first, later, ?_⟩
    rw [calls_reads later, kept.holds, kept.untouched rfl, List.drop_zero]

/-- Five bytes in a file of three, read in two calls. -/
theorem reads_last_three : ∃ file, construct 3 = .ok file ∧ ∃ skipped mid bytes last,
    file.calls [.write [1, 2, 3, 4, 5]] = .ok (skipped, mid) ∧
      mid.calls [.read 2, .read 5] = .ok (bytes, last) ∧ bytes = [3, 4, 5] := by
  obtain ⟨file, made⟩ := construct_total (show (0 : Int) < 3 by decide) (by decide)
  refine ⟨file, made, ?_⟩
  have small : file.bufferSize ≤ 2 ^ 30 := by
    rw [(construct_ok made).1.sized]
    decide
  exact (reads_last_bytes made (show unread true [.write [1, 2, 3, 4, 5]] = true from rfl)
    [2, 5]).mpr (callsFit_of_small small _)

/-- In a file of a gigabyte and a byte that is full up to a byte, the last byte cannot be read. -/
theorem reads_beyond_int : ∃ file, construct 1073741825 = .ok file ∧
    ∀ out, file.calls [.write (List.replicate 1073741824 0), .read 1073741824, .read 1] ≠
      .ok out := by
  obtain ⟨file, made⟩ := construct_total (show (0 : Int) < 1073741825 by decide) (by decide)
  refine ⟨file, made, ?_⟩
  rintro ⟨bytes, last⟩ returns
  obtain ⟨logs, start⟩ := construct_ok made
  have size : file.bufferSize = 1073741825 := logs.sized
  have fits := (calls_ok_iff file _).mp ⟨bytes, last, returns⟩
  obtain ⟨now, rest⟩ := fits.2 _ _ rfl
  have current : (file.write (List.replicate 1073741824 0)).bufferCurrent = 1073741824 := by
    rw [bufferCurrent_write, start, size, List.length_replicate]
  have first : (file.write (List.replicate 1073741824 0)).asked 1073741824 = 1073741824 := by
    rw [asked, bufferSize_write, bytesRead_write, size, logs.untouched rfl]
    rfl
  have left : 0 < ((file.write (List.replicate 1073741824 0)).advance _
      (asked_fits _ 1073741824)).asked 1 := by
    rw [asked, bufferSize_advance, bytesRead_advance, first, bufferSize_write, bytesRead_write,
      size, logs.untouched rfl]
    decide
  have sum := (rest _ _ (read_ok now)).1 left
  rw [bufferCurrent_advance, bytesRead_advance, first, current, bytesRead_write,
    logs.untouched rfl] at sum
  unfold intMax at sum
  omega

end GrCircularFile

end GnuRadio
