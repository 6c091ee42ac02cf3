import GnuRadio.Misc.LittleEndian
import GnuRadio.Runtime.Types

/-!
# WAV files

`gri_wavfile.cc` reads the header of a WAV file, whatever the file is, and writes files
of its own, whose lengths it fills in at the end.
-/

namespace GnuRadio

/-! ## Files -/

/-- A `FILE` without I/O errors: its bytes, the position and the end-of-file indicator. -/
structure WavFile where
  bytes : List UInt8
  pos : Nat
  eof : Bool
  deriving DecidableEq, Repr

namespace WavFile

/-- `fread` of some bytes: what was read, and the file behind it. -/
def fread (fp : WavFile) (size : Nat) : List UInt8 × WavFile :=
  let read := (fp.bytes.drop fp.pos).take size
  (read, { fp with pos := fp.pos + read.length, eof := fp.eof || decide (read.length < size) })

/-- `fseek(fp, offset, SEEK_CUR)`, which may go past the end. -/
def fseekCur (fp : WavFile) (offset : Nat) : WavFile :=
  { fp with
    pos := fp.pos + offset
    eof := false }

/-- `fseek(fp, offset, SEEK_SET)`. -/
def fseekSet (fp : WavFile) (offset : Nat) : WavFile :=
  { fp with
    pos := offset
    eof := false }

/-- `fwrite` inside the file or at its end. -/
def fwrite (fp : WavFile) (data : List UInt8) : WavFile :=
  { fp with
    bytes := fp.bytes.take fp.pos ++ data ++ fp.bytes.drop (fp.pos + data.length)
    pos := fp.pos + data.length }

end WavFile

/-- What a variable or an array holds after bytes were read into it: the old ones stay where
nothing was read. -/
def overwrite (old read : List UInt8) : List UInt8 := read ++ old.drop read.length

/-- `strncmp` against a text without a NUL, as a condition: the first bytes differ. -/
def strncmp (str text : List UInt8) (n : Nat) : Bool := str.take n != text.take n

def riff : List UInt8 := [0x52, 0x49, 0x46, 0x46]

def waveFmt : List UInt8 := [0x57, 0x41, 0x56, 0x45, 0x66, 0x6d, 0x74, 0x20]

/-- `"data"`. -/
def dataId : List UInt8 := [0x64, 0x61, 0x74, 0x61]

def validCompressionType : Nat := 1

/-! ## Reading a header -/

/-- What the variables of `gri_wavheader_parse` hold before anything is read into them. -/
structure WavLocals where
  fmtHdrSkip : Vector UInt8 4
  compressionType : Vector UInt8 2
  nchans : Vector UInt8 2
  sampleRate : Vector UInt8 4
  bitsPerSample : Vector UInt8 2
  chunkSize : Vector UInt8 4

/-- The results of `gri_wavheader_parse`. -/
structure WavHeader where
  sampleRate : Nat
  nchans : Nat
  bytesPerSample : Nat
  firstSamplePos : Int
  samplesPerChan : Nat
  deriving DecidableEq, Repr

/-- `gri_wavheader_parse` (`gri_wavfile.cc:135-222`), where a `long` has 64 bits: `none` when it
returns false. `file_size`, `avg_bytes_per_sec` and `block_align` are read and not used. -/
def griWavheaderParse (locals : WavLocals) (fp : WavFile) :
    Except CppException (Option WavHeader) :=
  let strBuf : List UInt8 := List.replicate 8 0
  let (read, fp) := fp.fread 4
  let strBuf := overwrite strBuf read
  if read.length ≠ 4 ∨ strncmp strBuf riff 4 ∨ fp.eof then .ok none
  else
    let (_, fp) := fp.fread 4
    let (read, fp) := fp.fread 8
    let strBuf := overwrite strBuf read
    if read.length ≠ 8 ∨ strncmp strBuf waveFmt 8 ∨ fp.eof then .ok none
    else
      let (read, fp) := fp.fread 4
      let fmtHdrSkip := ofBytesLE (overwrite locals.fmtHdrSkip.toList read)
      let (read, fp) := fp.fread 2
      let compressionType := ofBytesLE (overwrite locals.compressionType.toList read)
      if compressionType ≠ validCompressionType then .ok none
      else
        let (read, fp) := fp.fread 2
        let nchans := ofBytesLE (overwrite locals.nchans.toList read)
        let (read, fp) := fp.fread 4
        let sampleRate := ofBytesLE (overwrite locals.sampleRate.toList read)
        let (_, fp) := fp.fread 4
        let (_, fp) := fp.fread 2
        let (read, fp) := fp.fread 2
        let bitsPerSample := ofBytesLE (overwrite locals.bitsPerSample.toList read)
        if bitsPerSample ≠ 8 ∧ bitsPerSample ≠ 16 then .ok none
        else
          -- `fmt_hdr_skip` is unsigned: a field below 16 leads far past the end
          let fmtHdrSkip := (fmtHdrSkip + 2 ^ 32 - 16) % 2 ^ 32
          let fp := if fmtHdrSkip ≠ 0 then fp.fseekCur fmtHdrSkip else fp
          let (read, fp) := fp.fread 4
          let strBuf := overwrite strBuf read
          if strncmp strBuf dataId 4 then .ok none
          else
            let (read, fp) := fp.fread 4
            let chunkSize := ofBytesLE (overwrite locals.chunkSize.toList read)
            let bytesPerSample := bitsPerSample / 8
            if bytesPerSample * nchans = 0 then .error .undefinedBehaviour
            else .ok (some {
              sampleRate
              nchans
              bytesPerSample
              firstSamplePos := (fp.pos : Int).bmod (2 ^ 32)
              samplesPerChan := chunkSize / (bytesPerSample * nchans) })

/-! ## Writing a file -/

/-- `memcpy(wav_hdr + pos, data, ..)`. -/
def patch (hdr : List UInt8) (pos : Nat) (data : List UInt8) : List UInt8 :=
  hdr.take pos ++ data ++ hdr.drop (pos + data.length)

/-- `gri_wavheader_write` (`gri_wavfile.cc:235-269`). -/
def griWavheaderWrite (fp : WavFile) (sampleRate nchans bytesPerSample : Nat) : WavFile :=
  let wavHdr := riff ++ List.replicate 4 0 ++ waveFmt ++ List.replicate 20 0 ++ dataId ++
    List.replicate 4 0
  let blockAlign := bytesPerSample * nchans % 2 ^ 16
  let avgBytes := sampleRate * blockAlign
  let bitsPerSample := bytesPerSample * 8
  let wavHdr := patch wavHdr 16 [0x10]
  let wavHdr := patch wavHdr 20 [0x01]
  let wavHdr := patch wavHdr 22 (bytesLE 2 nchans)
  let wavHdr := patch wavHdr 24 (bytesLE 4 sampleRate)
  let wavHdr := patch wavHdr 28 (bytesLE 4 avgBytes)
  let wavHdr := patch wavHdr 32 (bytesLE 2 blockAlign)
  let wavHdr := patch wavHdr 34 (bytesLE 2 bitsPerSample)
  fp.fwrite wavHdr

/-- `gri_wav_write_sample` (`gri_wavfile.cc:272-288`). -/
def griWavWriteSample (fp : WavFile) (sample : UInt16) (bytesPerSample : Nat) : WavFile :=
  if bytesPerSample = 1 then fp.fwrite (bytesLE 1 sample.toNat)
  else fp.fwrite ((bytesLE 2 sample.toNat).take bytesPerSample)

/-- `gri_wavheader_complete` (`gri_wavfile.cc:291-311`). -/
def griWavheaderComplete (fp : WavFile) (byteCount : Nat) : WavFile :=
  let fp := (fp.fseekSet 40).fwrite (bytesLE 4 byteCount)
  (fp.fseekSet 4).fwrite (bytesLE 4 (byteCount + 36))

/-! ## What a header is -/

def slice (bytes : List UInt8) (pos size : Nat) : List UInt8 := (bytes.drop pos).take size

/-- The number in a field. -/
def wavField (bytes : List UInt8) (pos size : Nat) : Nat := ofBytesLE (slice bytes pos size)

/-- Where `"data"` has to be, behind a format chunk whose length the header says. -/
def dataPos (bytes : List UInt8) : Nat := 36 + (wavField bytes 16 4 + 2 ^ 32 - 16) % 2 ^ 32

/-- The file has a header up to `"data"` that passes the checks of `gri_wavheader_parse`. -/
structure HasHeader (bytes : List UInt8) : Prop where
  riff : slice bytes 0 4 = riff
  waveFmt : slice bytes 8 8 = waveFmt
  compression : wavField bytes 20 2 = validCompressionType
  bits : wavField bytes 34 2 = 8 ∨ wavField bytes 34 2 = 16
  data : slice bytes (dataPos bytes) 4 = dataId

/-- The length of the data chunk, when the file holds it. -/
def dataChunkLength (bytes : List UInt8) : Option Nat :=
  let length := slice bytes (dataPos bytes + 4) 4
  if length.length = 4 then some (ofBytesLE length) else none

instance (bytes : List UInt8) : Decidable (HasHeader bytes) :=
  decidable_of_iff (slice bytes 0 4 = GnuRadio.riff ∧ slice bytes 8 8 = GnuRadio.waveFmt ∧
    wavField bytes 20 2 = validCompressionType ∧
    (wavField bytes 34 2 = 8 ∨ wavField bytes 34 2 = 16) ∧
    slice bytes (dataPos bytes) 4 = dataId)
    ⟨fun ⟨a, b, c, d, e⟩ => ⟨a, b, c, d, e⟩, fun ⟨a, b, c, d, e⟩ => ⟨a, b, c, d, e⟩⟩

theorem length_slice (bytes : List UInt8) (pos size : Nat) :
    (slice bytes pos size).length = min size (bytes.length - pos) := by
  rw [slice, List.length_take, List.length_drop]

variable {old read strBuf bytes : List UInt8}

theorem overwrite_eq (whole : old.length ≤ read.length) : overwrite old read = read := by
  rw [overwrite, List.drop_eq_nil_of_le whole, List.append_nil]

namespace WavFile

/-- A file of which so many bytes were asked for, and read as far as there are any. -/
def readTo (bytes : List UInt8) (pos : Nat) : WavFile :=
  ⟨bytes, min pos bytes.length, decide (bytes.length < pos)⟩

theorem fread_readTo (bytes : List UInt8) (pos size : Nat) :
    (readTo bytes pos).fread size = (slice bytes pos size, readTo bytes (pos + size)) := by
  have read : (bytes.drop (min pos bytes.length)).take size = slice bytes pos size := by
    obtain inside | outside := le_total pos bytes.length
    · rw [min_eq_left inside]
      rfl
    · rw [min_eq_right outside, slice, List.drop_eq_nil_of_le outside,
        List.drop_eq_nil_of_le le_rfl]
  rw [fread, readTo, readTo]
  dsimp only
  rw [read, length_slice]
  congr 2
  · omega
  · rw [Bool.eq_iff_iff, Bool.or_eq_true, decide_eq_true_eq, decide_eq_true_eq, decide_eq_true_eq]
    omega

theorem fread_behind (bytes : List UInt8) (skip : Nat) :
    ((if skip ≠ 0 then (readTo bytes 36).fseekCur skip else readTo bytes 36).fread 4).1 =
      slice bytes (36 + skip) 4 := by
  have all : (bytes.drop (min 36 bytes.length + skip)).take 4 = slice bytes (36 + skip) 4 := by
    obtain inside | outside := le_total 36 bytes.length
    · rw [min_eq_left inside]
      rfl
    · rw [slice, List.drop_eq_nil_of_le (by omega), List.drop_eq_nil_of_le (by omega)]
  split
  · exact all
  · rename_i zero
    rw [not_not] at zero
    subst zero
    exact all

theorem fread_length {bytes : List UInt8} {skip : Nat}
    (whole : (slice bytes (36 + skip) 4).length = 4) :
    ((if skip ≠ 0 then (readTo bytes 36).fseekCur skip else readTo bytes 36).fread 4).2.fread 4 =
      (slice bytes (36 + skip + 4) 4,
        ⟨bytes, 36 + skip + 4 + (slice bytes (36 + skip + 4) 4).length,
          decide ((slice bytes (36 + skip + 4) 4).length < 4)⟩) := by
  have inside := length_slice bytes (36 + skip) 4
  have read : (bytes.drop (36 + skip)).take 4 = slice bytes (36 + skip) 4 := rfl
  split
  · simp only [fseekCur, readTo, fread, min_eq_left (show 36 ≤ bytes.length by omega), read, whole]
    simp [slice]
  · rename_i zero
    rw [not_not] at zero
    subst zero
    rw [fread_readTo, fread_readTo, readTo, length_slice]
    simp
    omega

end WavFile

theorem strncmp_kept (old : strncmp strBuf waveFmt 8 = false) (short : read.length < 4) :
    strncmp (overwrite strBuf read) dataId 4 = true := by
  rw [strncmp, bne_eq_false_iff_eq] at old
  have kept : strBuf[3]? = some 0x45 := by
    have third := congrArg (fun bytes : List UInt8 => bytes[3]?) old
    simpa [waveFmt, List.getElem?_take] using third
  rw [strncmp, bne_iff_ne]
  intro equal
  have third := congrArg (fun bytes : List UInt8 => bytes[3]?) equal
  have there : (overwrite strBuf read)[3]? = strBuf[3]? := by
    rw [overwrite, List.getElem?_append_right (by omega), List.getElem?_drop]
    congr 1
    omega
  simp [there, kept, dataId] at third

theorem slice_whole {pos : Nat} (old : strncmp strBuf waveFmt 8 = false)
    (data : strncmp (overwrite strBuf (slice bytes pos 4)) dataId 4 = false) :
    (slice bytes pos 4).length = 4 := by
  by_contra other
  have short : (slice bytes pos 4).length ≤ 4 := List.length_take_le 4 (bytes.drop pos)
  rw [strncmp_kept old (lt_of_le_of_ne short other)] at data
  cases data

open WavFile

theorem strncmp_whole {text : List UInt8} {n : Nat} (whole : read.length = n)
    (length : text.length = n) : strncmp (overwrite old read) text n = false ↔ read = text := by
  rw [strncmp, bne_eq_false_iff_eq, overwrite, List.take_left' whole, ← length, List.take_length]

/-- The results for a header. -/
def wavResults (locals : WavLocals) (bytes : List UInt8) : WavHeader where
  sampleRate := wavField bytes 24 4
  nchans := wavField bytes 22 2
  bytesPerSample := wavField bytes 34 2 / 8
  firstSamplePos := ((dataPos bytes + 4 + (slice bytes (dataPos bytes + 4) 4).length : Nat) :
    Int).bmod (2 ^ 32)
  samplesPerChan :=
    ofBytesLE (overwrite locals.chunkSize.toList (slice bytes (dataPos bytes + 4) 4)) /
      (wavField bytes 34 2 / 8 * wavField bytes 22 2)

theorem HasHeader.long (header : HasHeader bytes) : 36 ≤ bytes.length := by
  have four : (slice bytes (dataPos bytes) 4).length = 4 := by
    rw [header.data]
    rfl
  rw [length_slice] at four
  have far : 36 ≤ dataPos bytes := Nat.le_add_right _ _
  omega

theorem field_whole (long : 36 ≤ bytes.length) {size : Nat} (old : Vector UInt8 size) (pos : Nat)
    (inside : pos + size ≤ 36) :
    ofBytesLE (overwrite old.toList (slice bytes pos size)) = wavField bytes pos size := by
  rw [overwrite_eq, wavField]
  rw [length_slice, Vector.length_toList]
  omega

theorem griWavheaderParse_eq (locals : WavLocals) (bytes : List UInt8) :
    griWavheaderParse locals ⟨bytes, 0, false⟩ =
      if HasHeader bytes then
        if wavField bytes 22 2 = 0 then .error .undefinedBehaviour
        else .ok (some (wavResults locals bytes))
      else .ok none := by
  have start : (⟨bytes, 0, false⟩ : WavFile) = readTo bytes 0 := by simp [readTo]
  have place : 36 + (wavField bytes 16 4 + 2 ^ 32 - 16) % 2 ^ 32 = dataPos bytes := rfl
  rw [start, griWavheaderParse]
  simp only [fread_readTo, Nat.zero_add, Nat.reduceAdd, fread_behind]
  by_cases header : HasHeader bytes
  · rw [if_pos header]
    have long := header.long
    have first : ¬((slice bytes 0 4).length ≠ 4 ∨
        strncmp (overwrite (List.replicate 8 0) (slice bytes 0 4)) riff 4 = true ∨
        (readTo bytes 4).eof = true) := by
      have same : strncmp (overwrite (List.replicate 8 0) riff) riff 4 = false :=
        (strncmp_whole rfl rfl).mpr rfl
      rw [header.riff, same]
      simp [readTo, riff]
      omega
    have second : ¬((slice bytes 8 8).length ≠ 8 ∨
        strncmp (overwrite (overwrite (List.replicate 8 0) (slice bytes 0 4)) (slice bytes 8 8))
          waveFmt 8 = true ∨ (readTo bytes 16).eof = true) := by
      have same (old : List UInt8) : strncmp (overwrite old waveFmt) waveFmt 8 = false :=
        (strncmp_whole rfl rfl).mpr rfl
      rw [header.waveFmt, same]
      simp [readTo, waveFmt]
      omega
    have found (old : List UInt8) : ¬strncmp (overwrite old dataId) dataId 4 = true := by
      rw [Bool.not_eq_true]
      exact (strncmp_whole rfl rfl).mpr rfl
    have bits : ¬(wavField bytes 34 2 ≠ 8 ∧ wavField bytes 34 2 ≠ 16) := by
      rintro ⟨notEight, notSixteen⟩
      exact header.bits.elim notEight notSixteen
    rw [if_neg first, if_neg second]
    simp only [field_whole long locals.fmtHdrSkip 16 (by decide),
      field_whole long locals.compressionType 20 (by decide),
      field_whole long locals.nchans 22 (by decide),
      field_whole long locals.sampleRate 24 (by decide),
      field_whole long locals.bitsPerSample 34 (by decide), place]
    rw [fread_length (by rw [place, header.data]; rfl), place, header.data,
      if_neg (not_not.mpr header.compression), if_neg bits, if_neg (found _)]
    have bytesPerSample : wavField bytes 34 2 / 8 ≠ 0 := by
      obtain eight | sixteen := header.bits
      · simp [eight]
      · simp [sixteen]
    simp only [mul_eq_zero, bytesPerSample, false_or]
    rfl
  · rw [if_neg header]
    split
    · rfl
    rename_i first
    split
    · rfl
    rename_i second
    split
    · rfl
    rename_i compression
    split
    · rfl
    rename_i bits
    split
    · rfl
    rename_i data
    -- every check was passed, so the file has a header
    exfalso
    apply header
    simp only [not_or, not_not, Bool.not_eq_true] at first second data
    have whole := slice_whole second.2.1 data
    have long : 36 ≤ bytes.length := by
      rw [length_slice] at whole
      omega
    simp only [field_whole long locals.fmtHdrSkip 16 (by decide),
      field_whole long locals.compressionType 20 (by decide),
      field_whole long locals.bitsPerSample 34 (by decide), place] at compression bits data whole
    exact {
      riff := (strncmp_whole first.1 rfl).mp first.2.1
      waveFmt := (strncmp_whole second.1 rfl).mp second.2.1
      compression := by simpa using compression
      bits := by omega
      data := (strncmp_whole whole rfl).mp data }

/-! ## What the results say -/

/-- The results agree with the file. -/
structure WavHeader.Describes (header : WavHeader) (bytes : List UInt8) : Prop where
  nchans : 1 ≤ header.nchans
  bytesPerSample : header.bytesPerSample = 1 ∨ header.bytesPerSample = 2
  samplesPerChan : ∃ length, dataChunkLength bytes = some length ∧
    header.samplesPerChan = length / (header.bytesPerSample * header.nchans)

/-- Whatever the variables hold, the parser returns, and what it returns agrees with the file. -/
def ParsesSoundly (bytes : List UInt8) : Prop :=
  ∀ locals, ∃ result, griWavheaderParse locals ⟨bytes, 0, false⟩ = .ok result ∧
    ∀ header, result = some header → header.Describes bytes

theorem dataChunkLength_eq (whole : dataPos bytes + 8 ≤ bytes.length) :
    dataChunkLength bytes = some (ofBytesLE (slice bytes (dataPos bytes + 4) 4)) := by
  rw [dataChunkLength]
  apply if_pos
  rw [length_slice]
  omega

theorem long_of_dataChunkLength {length : Nat} (known : dataChunkLength bytes = some length) :
    dataPos bytes + 8 ≤ bytes.length := by
  rw [dataChunkLength] at known
  split at known
  · rename_i four
    rw [length_slice] at four
    omega
  · cases known

theorem wavResults_describes (locals : WavLocals) (header : HasHeader bytes)
    (nchans : wavField bytes 22 2 ≠ 0) (whole : dataPos bytes + 8 ≤ bytes.length) :
    (wavResults locals bytes).Describes bytes where
  nchans := Nat.one_le_iff_ne_zero.mpr nchans
  bytesPerSample := by
    apply header.bits.imp
    · intro eight
      rw [wavResults, eight]
    · intro sixteen
      rw [wavResults, sixteen]
  samplesPerChan := by
    refine ⟨_, dataChunkLength_eq whole, ?_⟩
    rw [wavResults, overwrite_eq]
    rw [length_slice, Vector.length_toList]
    omega

theorem parsesSoundly_iff (bytes : List UInt8) :
    ParsesSoundly bytes ↔
      (HasHeader bytes → wavField bytes 22 2 ≠ 0 ∧ dataPos bytes + 8 ≤ bytes.length) := by
  constructor
  · intro sound header
    obtain ⟨result, parsed, describes⟩ := sound
      ⟨.replicate 4 0, .replicate 2 0, .replicate 2 0, .replicate 4 0, .replicate 2 0,
        .replicate 4 0⟩
    rw [griWavheaderParse_eq, if_pos header] at parsed
    split at parsed
    · cases parsed
    · rename_i nchans
      obtain ⟨length, known, -⟩ := (describes _ (Except.ok.inj parsed).symm).samplesPerChan
      exact ⟨nchans, long_of_dataChunkLength known⟩
  · intro condition locals
    refine ⟨if HasHeader bytes then some (wavResults locals bytes) else none, ?_, ?_⟩
    · rw [griWavheaderParse_eq]
      split
      · rename_i header
        rw [if_neg (condition header).1]
      · rfl
    · intro results found
      split at found
      · rename_i header
        rw [← Option.some.inj found]
        exact wavResults_describes locals header (condition header).1 (condition header).2
      · cases found

/-! ## What the writer writes -/

def sampleBytes (bytesPerSample : Nat) (sample : UInt16) : List UInt8 :=
  if bytesPerSample = 1 then bytesLE 1 sample.toNat
  else (bytesLE 2 sample.toNat).take bytesPerSample

/-- A whole file: the header, the samples, and then the lengths. -/
def wavFile (sampleRate nchans bytesPerSample : Nat) (samples : List UInt16) : WavFile :=
  griWavheaderComplete
    (samples.foldl (griWavWriteSample · · bytesPerSample)
      (griWavheaderWrite ⟨[], 0, false⟩ sampleRate nchans bytesPerSample))
    (samples.length * bytesPerSample)

/-- The bytes of a file with two lengths filled in and some data. -/
def wavBytes (sampleRate nchans bytesPerSample fileSize byteCount : Nat) (data : List UInt8) :
    List UInt8 :=
  [riff, bytesLE 4 fileSize, waveFmt, bytesLE 4 16, bytesLE 2 validCompressionType,
    bytesLE 2 nchans, bytesLE 4 sampleRate,
    bytesLE 4 (sampleRate * (bytesPerSample * nchans % 2 ^ 16)),
    bytesLE 2 (bytesPerSample * nchans % 2 ^ 16), bytesLE 2 (bytesPerSample * 8), dataId,
    bytesLE 4 byteCount, data].flatten

theorem wavBytes_append (sampleRate nchans bytesPerSample fileSize byteCount : Nat)
    (data more : List UInt8) :
    wavBytes sampleRate nchans bytesPerSample fileSize byteCount data ++ more =
      wavBytes sampleRate nchans bytesPerSample fileSize byteCount (data ++ more) := by
  simp [wavBytes]

theorem griWavheaderWrite_new (sampleRate nchans bytesPerSample : Nat) :
    griWavheaderWrite ⟨[], 0, false⟩ sampleRate nchans bytesPerSample =
      ⟨wavBytes sampleRate nchans bytesPerSample 0 0 [],
        (wavBytes sampleRate nchans bytesPerSample 0 0 []).length, false⟩ := by
  simp [griWavheaderWrite, patch, fwrite, wavBytes, riff, waveFmt, dataId, bytesLE,
    List.replicate, validCompressionType]

theorem griWavheaderComplete_bytes (sampleRate nchans bytesPerSample pos byteCount : Nat)
    (eof : Bool) (data : List UInt8) :
    (griWavheaderComplete ⟨wavBytes sampleRate nchans bytesPerSample 0 0 data, pos, eof⟩
        byteCount).bytes =
      wavBytes sampleRate nchans bytesPerSample (byteCount + 36) byteCount data := by
  simp [griWavheaderComplete, fwrite, fseekSet, wavBytes, riff, waveFmt, dataId, bytesLE]

theorem WavFile.fwrite_end (bytes data : List UInt8) (eof : Bool) :
    fwrite ⟨bytes, bytes.length, eof⟩ data =
      ⟨bytes ++ data, (bytes ++ data).length, eof⟩ := by
  rw [fwrite, List.take_length, List.drop_eq_nil_of_le (Nat.le_add_right _ _), List.append_nil,
    List.length_append]

theorem griWavWriteSample_end (bytes : List UInt8) (eof : Bool) (sample : UInt16)
    (bytesPerSample : Nat) :
    griWavWriteSample ⟨bytes, bytes.length, eof⟩ sample bytesPerSample =
      ⟨bytes ++ sampleBytes bytesPerSample sample,
        (bytes ++ sampleBytes bytesPerSample sample).length, eof⟩ := by
  rw [griWavWriteSample, sampleBytes]
  split
  · apply fwrite_end
  · apply fwrite_end

theorem foldl_griWavWriteSample (bytesPerSample : Nat) (samples : List UInt16)
    (bytes : List UInt8) (eof : Bool) :
    samples.foldl (griWavWriteSample · · bytesPerSample) ⟨bytes, bytes.length, eof⟩ =
      ⟨bytes ++ samples.flatMap (sampleBytes bytesPerSample),
        (bytes ++ samples.flatMap (sampleBytes bytesPerSample)).length, eof⟩ := by
  induction samples generalizing bytes with
  | nil => rw [List.foldl_nil, List.flatMap_nil, List.append_nil]
  | cons sample samples ih =>
    rw [List.foldl_cons, griWavWriteSample_end, ih, List.flatMap_cons, List.append_assoc]

theorem wavFile_bytes (sampleRate nchans bytesPerSample : Nat) (samples : List UInt16) :
    (wavFile sampleRate nchans bytesPerSample samples).bytes =
      wavBytes sampleRate nchans bytesPerSample (samples.length * bytesPerSample + 36)
        (samples.length * bytesPerSample) (samples.flatMap (sampleBytes bytesPerSample)) := by
  rw [wavFile, griWavheaderWrite_new, foldl_griWavWriteSample, wavBytes_append, List.nil_append,
    griWavheaderComplete_bytes]

theorem griWavheaderParse_wavFile (locals : WavLocals)
    {sampleRate nchans bytesPerSample frames : Nat} {samples : List UInt16}
    (rate : sampleRate < 2 ^ 32) (channels : 1 ≤ nchans ∧ nchans ≤ 65535)
    (bits : bytesPerSample = 1 ∨ bytesPerSample = 2) (whole : samples.length = frames * nchans)
    (total : samples.length * bytesPerSample < 2 ^ 31) :
    griWavheaderParse locals
        ⟨(wavFile sampleRate nchans bytesPerSample samples).bytes, 0, false⟩ =
      .ok (some ⟨sampleRate, nchans, bytesPerSample, 44, frames⟩) := by
  rw [wavFile_bytes]
  generalize length : samples.length * bytesPerSample = byteCount
  rw [length] at total
  generalize samples.flatMap (sampleBytes bytesPerSample) = data
  generalize file : wavBytes sampleRate nchans bytesPerSample (byteCount + 36) byteCount data =
    bytes
  have place : dataPos bytes = 36 := by
    have fmtSize : wavField bytes 16 4 = 16 := by
      rw [← file]
      rfl
    rw [dataPos, fmtSize]
    norm_num
  have channelField : wavField bytes 22 2 = nchans := by
    have field : slice bytes 22 2 = bytesLE 2 nchans := by
      rw [← file]
      rfl
    rw [wavField, field, ofBytesLE_bytesLE]
    omega
  have rateField : wavField bytes 24 4 = sampleRate := by
    have field : slice bytes 24 4 = bytesLE 4 sampleRate := by
      rw [← file]
      rfl
    rw [wavField, field, ofBytesLE_bytesLE]
    omega
  have bitsField : wavField bytes 34 2 = bytesPerSample * 8 := by
    have field : slice bytes 34 2 = bytesLE 2 (bytesPerSample * 8) := by
      rw [← file]
      rfl
    rw [wavField, field, ofBytesLE_bytesLE]
    omega
  have lengthField : slice bytes 40 4 = bytesLE 4 byteCount := by
    rw [← file]
    rfl
  have header : HasHeader bytes := {
    riff := by rw [← file]; rfl
    waveFmt := by rw [← file]; rfl
    compression := by rw [← file]; rfl
    bits := by omega
    data := by rw [place, ← file]; rfl }
  have bytesPerSample_eq : bytesPerSample * 8 / 8 = bytesPerSample :=
    Nat.mul_div_cancel _ (by decide)
  have chunkSize : ofBytesLE (overwrite locals.chunkSize.toList (bytesLE 4 byteCount)) =
      frames * nchans * bytesPerSample := by
    rw [overwrite_eq (by simp), ofBytesLE_bytesLE, ← whole, length]
    omega
  have samplesPerChan : frames * nchans * bytesPerSample / (bytesPerSample * nchans) = frames := by
    rw [mul_assoc, mul_comm nchans]
    apply Nat.mul_div_cancel
    apply Nat.mul_pos
    · omega
    · omega
  have pos : ((36 + 4 + (bytesLE 4 byteCount).length : Nat) : Int).bmod (2 ^ 32) = 44 := by
    rw [length_bytesLE]
    decide
  rw [griWavheaderParse_eq, if_pos header, if_neg (by omega), wavResults, place, channelField,
    rateField, bitsField, lengthField, bytesPerSample_eq, chunkSize, samplesPerChan, pos]

/-- **WAV headers.** Parsing goes well exactly when a header names at least one channel and is
followed by a length, and every file that was written is parsed as it was meant. -/
theorem wav_headers (bytes : List UInt8) :
    (ParsesSoundly bytes ↔
      (HasHeader bytes → wavField bytes 22 2 ≠ 0 ∧ dataPos bytes + 8 ≤ bytes.length)) ∧
    ∀ (locals : WavLocals) (sampleRate nchans bytesPerSample frames : Nat)
      (samples : List UInt16), sampleRate < 2 ^ 32 → 1 ≤ nchans ∧ nchans ≤ 65535 →
      (bytesPerSample = 1 ∨ bytesPerSample = 2) → samples.length = frames * nchans →
      samples.length * bytesPerSample < 2 ^ 31 →
      griWavheaderParse locals
          ⟨(wavFile sampleRate nchans bytesPerSample samples).bytes, 0, false⟩ =
        .ok (some ⟨sampleRate, nchans, bytesPerSample, 44, frames⟩) := by
  constructor
  · apply parsesSoundly_iff
  · intro locals sampleRate nchans bytesPerSample frames samples rate channels bits whole total
    exact griWavheaderParse_wavFile locals rate channels bits whole total

/-- Two frames of stereo at 8 kHz are read back. -/
theorem wav_headers_stereo :
    griWavheaderParse ⟨.replicate 4 0, .replicate 2 0, .replicate 2 0, .replicate 4 0,
        .replicate 2 0, .replicate 4 0⟩ ⟨(wavFile 8000 2 2 [1, 2, 3, 4]).bytes, 0, false⟩ =
      .ok (some ⟨8000, 2, 2, 44, 2⟩) :=
  (wav_headers []).2 _ _ _ _ _ _ (by decide) (by decide) (by decide) (by decide) (by decide)

/-- A file without channels is divided by zero. -/
theorem no_channels_divides :
    griWavheaderParse ⟨.replicate 4 0, .replicate 2 0, .replicate 2 0, .replicate 4 0,
        .replicate 2 0, .replicate 4 0⟩ ⟨wavBytes 8000 0 2 36 0 [], 0, false⟩ =
      .error .undefinedBehaviour ∧
    ¬ParsesSoundly (wavBytes 8000 0 2 36 0 []) := by
  have header : HasHeader (wavBytes 8000 0 2 36 0 []) := by decide +kernel
  have none : wavField (wavBytes 8000 0 2 36 0 []) 22 2 = 0 := by decide
  constructor
  · rw [griWavheaderParse_eq, if_pos header, if_pos none]
  · rw [parsesSoundly_iff]
    intro sound
    exact (sound header).1 none

end GnuRadio
