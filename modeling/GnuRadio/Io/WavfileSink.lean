import GnuRadio.Io.WavFile
import GnuRadio.Misc.Trace

/-!
# The WAV file sink

`gr_wavfile_sink` writes a header when a file is opened, and the samples and the
lengths later: the next `work` switches to the new file, and only then takes over
the sample width that was set in the meantime. A file keeps the header it was
opened with.
-/

namespace GnuRadio

/-- A file the sink has opened under a name, with the samples written to it and the width of each.
Different names are those of different files. -/
structure SinkFile where
  name : String
  file : WavFile
  writes : List (UInt16 × Nat)
  deriving DecidableEq, Repr

/-- `gri_wav_write_sample` on a file of the sink. -/
def SinkFile.write (f : SinkFile) (sample : UInt16) (bytesPerSample : Nat) : SinkFile :=
  ⟨f.name, griWavWriteSample f.file sample bytesPerSample, f.writes ++ [(sample, bytesPerSample)]⟩

/-- What `O_TRUNC` leaves of a file when one of that name is opened: it is empty, and it is written
to where it was. -/
def SinkFile.truncate (filename : String) (f : SinkFile) : SinkFile :=
  if f.name = filename then { f with file := { f.file with bytes := [] } } else f

/-- The range and the factors of `convert_to_short`. -/
structure SampleScale where
  maxSampleVal : Int
  minSampleVal : Int
  normalizeFac : Int
  normalizeShift : Int
  deriving DecidableEq, Repr

/-- The data of a `gr_wavfile_sink` (`gr_wavfile_sink.h:66-78`). -/
structure WavfileSink where
  sampleRate : UInt32
  nchans : Int
  sampleCount : UInt32
  bytesPerSample : Nat
  bytesPerSampleNew : Nat
  scale : SampleScale
  fp : Option SinkFile
  newFp : Option SinkFile
  updated : Bool
  deriving DecidableEq, Repr

/-- How the two system calls of `open` end. -/
inductive OpenOutcome where
  | opened
  | openFails
  | fdopenFails
  deriving DecidableEq, Repr

namespace WavfileSink

/-! ## The calls -/

/-- `gr_wavfile_sink::open` (`gr_wavfile_sink.cc:105-140`): what it returns, the sink it leaves, and
the files it closes. The file of that name is truncated, also when the sink has it open. When the
new file of the sink is opened again, it is not closed. -/
def openFile (s : WavfileSink) (filename : String) :
    OpenOutcome → Bool × WavfileSink × List SinkFile
  | .openFails => (false, s, [])
  | .fdopenFails =>
      (false, { s with
        fp := s.fp.map (·.truncate filename)
        newFp := none }, (s.newFp.map (·.truncate filename)).toList)
  | .opened =>
      let header := griWavheaderWrite ⟨[], 0, false⟩ s.sampleRate.toNat (s.nchans % 2 ^ 32).toNat
        s.bytesPerSampleNew
      (true, { s with
        fp := s.fp.map (·.truncate filename)
        newFp := some ⟨filename, header, []⟩
        updated := true }, s.newFp.toList.filter (·.name ≠ filename))

/-- `gr_wavfile_sink::close_wav` (`gr_wavfile_sink.cc:154-162`) on the file that is open. -/
def closeWav (s : WavfileSink) (f : SinkFile) : SinkFile :=
  let byteCount := s.sampleCount.toNat * s.bytesPerSample % 2 ^ 32
  { f with file := griWavheaderComplete f.file byteCount }

/-- `gr_wavfile_sink::close` (`gr_wavfile_sink.cc:143-152`). -/
def close (s : WavfileSink) : WavfileSink × List SinkFile :=
  match s.fp with
  | none => (s, [])
  | some f => ({ s with fp := none }, [s.closeWav f])

/-- The files that the destructor closes (`gr_wavfile_sink.cc:165-172`). -/
def destructor (s : WavfileSink) : List SinkFile := s.newFp.toList ++ s.close.2

/-- The scale for a width, and the old one for a width that is not supported
(`gr_wavfile_sink.cc:267-277`). -/
def scaleFor (bytesPerSample : Nat) (old : SampleScale) : SampleScale :=
  if bytesPerSample = 1 then ⟨255, 0, 255 / 2, 1⟩
  else if bytesPerSample = 2 then ⟨32767, -32768, 32767, 0⟩
  else old

/-- `gr_wavfile_sink::do_update` (`gr_wavfile_sink.cc:250-280`). -/
def doUpdate (s : WavfileSink) : WavfileSink × List SinkFile :=
  if ¬s.updated then (s, [])
  else
    ({ s with
        fp := s.newFp
        newFp := none
        sampleCount := 0
        bytesPerSample := s.bytesPerSampleNew
        scale := scaleFor s.bytesPerSampleNew s.scale
        updated := false },
      s.close.2)

/-- One round of the inner loop of `work` (`gr_wavfile_sink.cc:202-209`). -/
def writeSample (s : WavfileSink) (f : SinkFile) (sample : UInt16) : WavfileSink :=
  { s with
    fp := some (f.write sample s.bytesPerSample)
    sampleCount := s.sampleCount + 1 }

/-- The loops of `work` over the samples in the order in which they are converted, up to one
whose conversion throws. -/
def writeSamples (s : WavfileSink) (f : SinkFile) : List (Option UInt16) → WavfileSink
  | [] => s
  | none :: _ => s
  | some sample :: rest =>
      writeSamples (s.writeSample f sample) (f.write sample s.bytesPerSample) rest

variable {α : Type}

/-- The samples of all frames, with zeros for the channels without an input. -/
def samples (convert : SampleScale → α → Option UInt16) (s : WavfileSink) (noutputItems : Nat)
    (nInChans : Nat) (input : Nat → Nat → α) : List (Option UInt16) :=
  (List.range noutputItems).flatMap fun nwritten =>
    (List.range s.nchans.toNat).map fun chan =>
      if chan < nInChans then convert s.scale (input chan nwritten) else some 0

/-- `gr_wavfile_sink::work` (`gr_wavfile_sink.cc:175-214`). `convert` is `convert_to_short`, which
throws on a float that `iround` does not take. -/
def work (convert : SampleScale → α → Option UInt16) (s : WavfileSink) (noutputItems : Nat)
    (nInChans : Nat) (input : Nat → Nat → α) : WavfileSink × List SinkFile :=
  let (s, closed) := s.doUpdate
  match s.fp with
  | none => (s, closed)
  | some f => (s.writeSamples f (s.samples convert noutputItems nInChans input), closed)

/-- `gr_wavfile_sink::set_bits_per_sample` (`gr_wavfile_sink.cc:232-239`). -/
def setBitsPerSample (s : WavfileSink) (bitsPerSample : Int) : WavfileSink :=
  if bitsPerSample = 8 ∨ bitsPerSample = 16 then
    { s with bytesPerSampleNew := (bitsPerSample / 8).toNat }
  else s

/-- `gr_wavfile_sink::set_sample_rate` (`gr_wavfile_sink.cc:242-247`). -/
def setSampleRate (s : WavfileSink) (sampleRate : UInt32) : WavfileSink :=
  { s with sampleRate }

/-- The constructor (`gr_wavfile_sink.cc:68-102`). -/
def make (filename : String) (nChannels : Int) (sampleRate : UInt32) (bitsPerSample : Int)
    (outcome : OpenOutcome) : Except CppException WavfileSink :=
  if nChannels ≠ -1 ∧ nChannels < 1 then .error (.invalidArgument "gr_io_signature(1)")
  else if bitsPerSample ≠ 8 ∧ bitsPerSample ≠ 16 then
    .error (.runtimeError "Invalid bits per sample (supports 8 and 16)")
  else
    let bytes := (bitsPerSample / 8).toNat
    let scale := if bitsPerSample = 8 then ⟨0xFF, 0, 0xFF / 2, 1⟩ else ⟨0x7FFF, -0x7FFF, 0x7FFF, 0⟩
    let s : WavfileSink := ⟨sampleRate, nChannels, 0, bytes, bytes, scale, none, none, false⟩
    match s.openFile filename outcome with
    | (true, s, _) => .ok s
    | (false, _, _) => .error (.runtimeError "can't open file")

end WavfileSink

/-- The calls on a sink. -/
inductive SinkCall (α : Type) where
  | openFile (filename : String) (outcome : OpenOutcome)
  | close
  | setSampleRate (sampleRate : UInt32)
  | setBitsPerSample (bitsPerSample : Int)
  | work (noutputItems nInChans : Nat) (input : Nat → Nat → α)

namespace WavfileSink

variable {α : Type}

/-- What a call leaves, and the files it closes. -/
def call (convert : SampleScale → α → Option UInt16) (s : WavfileSink) :
    SinkCall α → WavfileSink × List SinkFile
  | .openFile filename outcome => (s.openFile filename outcome).2
  | .close => s.close
  | .setSampleRate sampleRate => (s.setSampleRate sampleRate, [])
  | .setBitsPerSample bitsPerSample => (s.setBitsPerSample bitsPerSample, [])
  | .work noutputItems nInChans input => s.work convert noutputItems nInChans input

/-- A call as a step of the sink. -/
def step (convert : SampleScale → α → Option UInt16) (s : WavfileSink) (c : SinkCall α) :
    Option WavfileSink := some (s.call convert c).1

/-- The files closed by a call. -/
def closedBy (convert : SampleScale → α → Option UInt16) (s : WavfileSink) (c : SinkCall α) :
    List SinkFile := (s.call convert c).2

end WavfileSink

/-! ## What a header says -/

/-- The bytes of the samples written to a file. -/
def SinkFile.sampleBytes (f : SinkFile) : List UInt8 :=
  f.writes.flatMap fun write => GnuRadio.sampleBytes write.2 write.1

/-- The header of a file says how wide its samples are and how many bytes they take, and they are
behind it. -/
structure SinkFile.Described (f : SinkFile) : Prop where
  bits : ∀ write ∈ f.writes, wavField f.file.bytes 34 2 = 8 * write.2
  length : wavField f.file.bytes 40 4 = f.sampleBytes.length
  data : f.file.bytes.drop 44 = f.sampleBytes

instance (f : SinkFile) : Decidable f.Described :=
  decidable_of_iff ((∀ write ∈ f.writes, wavField f.file.bytes 34 2 = 8 * write.2) ∧
    wavField f.file.bytes 40 4 = f.sampleBytes.length ∧ f.file.bytes.drop 44 = f.sampleBytes)
    ⟨fun ⟨bits, length, data⟩ => ⟨bits, length, data⟩,
      fun ⟨bits, length, data⟩ => ⟨bits, length, data⟩⟩

end GnuRadio

/-!
## Headers of the files a sink closes

While the width that a file is opened with is still the pending one when `work`
switches to it, the header of a file is right from its opening on. The lengths
are filled in when it is closed.
-/

namespace GnuRadio

/-- The widths that the sink supports. -/
def SampleWidth (bytesPerSample : Nat) : Prop := bytesPerSample = 1 ∨ bytesPerSample = 2

namespace SinkFile

variable {f : SinkFile} {width : Nat}

/-- The file has a header for a width without lengths, and all its samples have that width. -/
structure Headed (f : SinkFile) (width : Nat) : Prop where
  supported : SampleWidth width
  widths : ∀ write ∈ f.writes, write.2 = width
  file : ∃ sampleRate nchans, f.file = ⟨wavBytes sampleRate nchans width 0 0 f.sampleBytes,
    (wavBytes sampleRate nchans width 0 0 f.sampleBytes).length, false⟩

theorem wavField_bits (sampleRate nchans fileSize byteCount : Nat) (data : List UInt8)
    (supported : SampleWidth width) :
    wavField (wavBytes sampleRate nchans width fileSize byteCount data) 34 2 = 8 * width := by
  have field : slice (wavBytes sampleRate nchans width fileSize byteCount data) 34 2 =
      bytesLE 2 (width * 8) := rfl
  rw [wavField, field, ofBytesLE_bytesLE]
  rcases supported with rfl | rfl
  · rfl
  · rfl

theorem wavField_length (sampleRate nchans fileSize : Nat) {byteCount : Nat} (data : List UInt8)
    (fits : byteCount < 2 ^ 32) :
    wavField (wavBytes sampleRate nchans width fileSize byteCount data) 40 4 = byteCount := by
  have field : slice (wavBytes sampleRate nchans width fileSize byteCount data) 40 4 =
      bytesLE 4 byteCount := rfl
  rw [wavField, field, ofBytesLE_bytesLE]
  exact Nat.mod_eq_of_lt fits

theorem drop_wavBytes (sampleRate nchans fileSize byteCount : Nat) (data : List UInt8) :
    (wavBytes sampleRate nchans width fileSize byteCount data).drop 44 = data := by
  rw [← List.nil_append data, ← wavBytes_append]
  exact List.drop_left' rfl

theorem Headed.bits (headed : f.Headed width) : wavField f.file.bytes 34 2 = 8 * width := by
  obtain ⟨sampleRate, nchans, same⟩ := headed.file
  rw [same]
  exact wavField_bits sampleRate nchans 0 0 _ headed.supported

theorem Headed.length_sampleBytes (headed : f.Headed width) :
    f.sampleBytes.length = f.writes.length * width := by
  have each : ∀ write ∈ f.writes, (GnuRadio.sampleBytes write.2 write.1).length = width := by
    intro write member
    rw [headed.widths write member, GnuRadio.sampleBytes]
    rcases headed.supported with rfl | rfl
    · rfl
    · rfl
  rw [SinkFile.sampleBytes, List.length_flatMap, List.map_congr_left each, List.map_const',
    List.sum_replicate_nat]

theorem headed_new (name : String) (sampleRate nchans : Nat) (supported : SampleWidth width) :
    Headed ⟨name, griWavheaderWrite ⟨[], 0, false⟩ sampleRate nchans width, []⟩ width := by
  refine ⟨supported, ?_, sampleRate, nchans, ?_⟩
  · intro write member
    cases member
  · exact griWavheaderWrite_new sampleRate nchans width

theorem Headed.write (headed : f.Headed width) (sample : UInt16) :
    (f.write sample width).Headed width := by
  obtain ⟨sampleRate, nchans, same⟩ := headed.file
  refine ⟨headed.supported, ?_, sampleRate, nchans, ?_⟩
  · intro write member
    rcases List.mem_append.mp member with old | new
    · exact headed.widths write old
    · rw [List.mem_singleton.mp new]
  · have bytes : (f.write sample width).sampleBytes =
        f.sampleBytes ++ GnuRadio.sampleBytes width sample := by
      simp [SinkFile.sampleBytes, SinkFile.write]
    rw [bytes, ← wavBytes_append, SinkFile.write, same]
    exact griWavWriteSample_end _ false sample width

theorem Headed.complete (headed : f.Headed width) (fits : f.writes.length * width < 2 ^ 32) :
    SinkFile.Described
      { f with file := griWavheaderComplete f.file (f.writes.length * width) } := by
  obtain ⟨sampleRate, nchans, same⟩ := headed.file
  have bytes : (griWavheaderComplete f.file (f.writes.length * width)).bytes =
      wavBytes sampleRate nchans width (f.writes.length * width + 36) (f.writes.length * width)
        f.sampleBytes := by
    rw [same, griWavheaderComplete_bytes]
  refine ⟨?_, ?_, ?_⟩
  · intro write member
    rw [bytes, wavField_bits sampleRate nchans _ _ _ headed.supported,
      headed.widths write member]
  · rw [bytes, wavField_length sampleRate nchans _ _ fits]
    exact headed.length_sampleBytes.symm
  · rw [bytes]
    exact drop_wavBytes sampleRate nchans _ _ f.sampleBytes

theorem Headed.unused (headed : f.Headed width) (unused : f.writes = []) : f.Described := by
  obtain ⟨sampleRate, nchans, same⟩ := headed.file
  have none : f.sampleBytes = [] := by rw [SinkFile.sampleBytes, unused, List.flatMap_nil]
  refine ⟨?_, ?_, ?_⟩
  · rw [unused]
    simp
  · rw [same, none]
    exact wavField_length sampleRate nchans 0 [] (Nat.two_pow_pos 32)
  · rw [same, none]
    rfl

end SinkFile

namespace WavfileSink

variable {α : Type} {convert : SampleScale → α → Option UInt16} {s : WavfileSink}

/-- The file that the next `work` writes to. -/
def target (s : WavfileSink) : Option SinkFile := if s.updated then s.newFp else s.fp

/-- The width with which it writes. -/
def targetWidth (s : WavfileSink) : Nat :=
  if s.updated then s.bytesPerSampleNew else s.bytesPerSample

/-- When `work` switches to a file the pending width is the one that the file was opened with, and
no file takes `2 ^ 32` bytes of samples. The file that is written to is not opened again, nor is the
new one by an `open` that fails after truncating it. -/
def Steady (s : WavfileSink) : SinkCall α → Prop
  | .openFile filename outcome =>
      (outcome ≠ .openFails → ∀ f, s.fp = some f → f.name ≠ filename) ∧
      (outcome = .fdopenFails → ∀ f, s.newFp = some f → f.name ≠ filename)
  | .work noutputItems _ _ =>
      (s.updated → ∀ f, s.newFp = some f →
        wavField f.file.bytes 34 2 = 8 * s.bytesPerSampleNew) ∧
      ∀ f, s.target = some f →
        (f.writes.length + noutputItems * s.nchans.toNat) * s.targetWidth < 2 ^ 32
  | _ => True

/-- The open file has a header for the width that is written, and its samples are counted; nothing
is in the new one yet. -/
structure Sound (s : WavfileSink) : Prop where
  supported : SampleWidth s.bytesPerSampleNew
  headed : ∀ f, s.fp = some f → f.Headed s.bytesPerSample
  counted : ∀ f, s.fp = some f → s.sampleCount = UInt32.ofNat f.writes.length
  fits : ∀ f, s.fp = some f → f.writes.length * s.bytesPerSample < 2 ^ 32
  new_headed : ∀ f, s.newFp = some f → ∃ width, f.Headed width
  unused : ∀ f, s.newFp = some f → f.writes = []

theorem Sound.new_described (sound : Sound s) : ∀ f ∈ s.newFp.toList, f.Described := by
  intro f member
  have pending := Option.mem_toList.mp member
  obtain ⟨width, headed⟩ := sound.new_headed f pending
  exact headed.unused (sound.unused f pending)

theorem Sound.close_described (sound : Sound s) : ∀ f ∈ s.close.2, f.Described := by
  unfold close
  cases open' : s.fp with
  | none =>
    intro f member
    cases member
  | some f =>
    intro g member
    have headed := sound.headed f open'
    have fits := sound.fits f open'
    have small : f.writes.length < 2 ^ 32 := by
      rcases headed.supported with same | same
      all_goals
        rw [same] at fits
        omega
    have byteCount : s.sampleCount.toNat * s.bytesPerSample % 2 ^ 32 =
        f.writes.length * s.bytesPerSample := by
      rw [sound.counted f open', UInt32.toNat_ofNat', Nat.mod_eq_of_lt small,
        Nat.mod_eq_of_lt fits]
    rw [List.mem_singleton.mp member, closeWav, byteCount]
    exact headed.complete fits

theorem Sound.close (sound : Sound s) : Sound s.close.1 := by
  unfold WavfileSink.close
  cases open' : s.fp with
  | none => exact sound
  | some f =>
    refine ⟨sound.supported, ?_, ?_, ?_, sound.new_headed, sound.unused⟩
    all_goals
      intro g member
      cases member

/-- Files of other names are not truncated. -/
theorem truncate_others {filename : String} {fp : Option SinkFile}
    (other : ∀ f, fp = some f → f.name ≠ filename) : fp.map (·.truncate filename) = fp := by
  cases fp with
  | none => rfl
  | some f => exact congrArg some (if_neg (other f rfl))

theorem Sound.openFile (sound : Sound s) {filename : String} {outcome : OpenOutcome}
    (other : outcome ≠ .openFails → ∀ f, s.fp = some f → f.name ≠ filename) :
    Sound (s.openFile filename outcome).2.1 := by
  cases outcome with
  | openFails => exact sound
  | fdopenFails =>
    rw [WavfileSink.openFile, truncate_others (other (by decide))]
    refine ⟨sound.supported, sound.headed, sound.counted, sound.fits, ?_, ?_⟩
    all_goals
      intro g member
      cases member
  | opened =>
    rw [WavfileSink.openFile, truncate_others (other (by decide))]
    refine ⟨sound.supported, sound.headed, sound.counted, sound.fits, ?_, ?_⟩
    · rintro f ⟨⟩
      exact ⟨_, SinkFile.headed_new _ _ _ sound.supported⟩
    · rintro f ⟨⟩
      rfl

theorem openFile_described (sound : Sound s) {filename : String} {outcome : OpenOutcome}
    (other : outcome = .fdopenFails → ∀ f, s.newFp = some f → f.name ≠ filename) :
    ∀ f ∈ (s.openFile filename outcome).2.2, f.Described := by
  cases outcome with
  | openFails =>
    intro f member
    cases member
  | fdopenFails =>
    rw [WavfileSink.openFile, truncate_others (other rfl)]
    exact sound.new_described
  | opened => exact fun f member => sound.new_described f (List.mem_of_mem_filter member)

theorem Sound.doUpdate (sound : Sound s)
    (kept : s.updated → ∀ f, s.newFp = some f →
      wavField f.file.bytes 34 2 = 8 * s.bytesPerSampleNew) : Sound s.doUpdate.1 := by
  unfold WavfileSink.doUpdate
  split
  · exact sound
  · rename_i updated
    rw [not_not] at updated
    refine ⟨sound.supported, ?_, ?_, ?_, ?_, ?_⟩
    · intro f pending
      obtain ⟨width, headed⟩ := sound.new_headed f pending
      have same : width = s.bytesPerSampleNew := by
        have bits := headed.bits.symm.trans (kept updated f pending)
        omega
      exact same ▸ headed
    · intro f pending
      rw [sound.unused f pending]
      rfl
    · intro f pending
      rw [sound.unused f pending, List.length_nil, Nat.zero_mul]
      exact Nat.two_pow_pos 32
    · rintro f ⟨⟩
    · rintro f ⟨⟩

theorem doUpdate_fp (s : WavfileSink) : s.doUpdate.1.fp = s.target := by
  unfold WavfileSink.doUpdate target
  cases s.updated <;> rfl

theorem doUpdate_width (s : WavfileSink) : s.doUpdate.1.bytesPerSample = s.targetWidth := by
  unfold WavfileSink.doUpdate targetWidth
  cases s.updated <;> rfl

theorem doUpdate_nchans (s : WavfileSink) : s.doUpdate.1.nchans = s.nchans := by
  unfold WavfileSink.doUpdate
  split <;> rfl

theorem doUpdate_described (sound : Sound s) : ∀ f ∈ s.doUpdate.2, f.Described := by
  unfold WavfileSink.doUpdate
  split
  · intro f member
    cases member
  · exact sound.close_described

theorem Sound.writeSample (sound : Sound s) {f : SinkFile} (open' : s.fp = some f)
    (sample : UInt16) (fits : (f.writes.length + 1) * s.bytesPerSample < 2 ^ 32) :
    Sound (s.writeSample f sample) := by
  refine ⟨sound.supported, ?_, ?_, ?_, sound.new_headed, sound.unused⟩
  · rintro g ⟨⟩
    exact (sound.headed f open').write sample
  · rintro g ⟨⟩
    rw [WavfileSink.writeSample, sound.counted f open', SinkFile.write, List.length_append,
      List.length_singleton, UInt32.ofNat_add]
    rfl
  · rintro g ⟨⟩
    rw [SinkFile.write, List.length_append]
    exact fits

theorem Sound.writeSamples (sound : Sound s) {f : SinkFile} (open' : s.fp = some f)
    {samples : List (Option UInt16)}
    (fits : (f.writes.length + samples.length) * s.bytesPerSample < 2 ^ 32) :
    Sound (s.writeSamples f samples) := by
  induction samples generalizing s f with
  | nil => exact sound
  | cons sample samples ih =>
    cases sample with
    | none => exact sound
    | some sample =>
      rw [List.length_cons] at fits
      have one : (f.writes.length + 1) * s.bytesPerSample < 2 ^ 32 :=
        lt_of_le_of_lt (Nat.mul_le_mul_right _ (by omega)) fits
      refine ih (sound.writeSample open' sample one) rfl ?_
      rw [SinkFile.write, List.length_append, List.length_singleton]
      rwa [Nat.add_assoc, Nat.add_comm 1]

theorem length_samples (noutputItems nInChans : Nat) (input : Nat → Nat → α) :
    (s.samples convert noutputItems nInChans input).length =
      noutputItems * s.nchans.toNat := by
  simp [samples, List.length_flatMap]

theorem Sound.call (sound : Sound s) {c : SinkCall α} (steady : Steady s c) :
    Sound (s.call convert c).1 ∧ ∀ f ∈ (s.call convert c).2, f.Described := by
  cases c with
  | openFile filename outcome =>
    exact ⟨sound.openFile steady.1, openFile_described sound steady.2⟩
  | close => exact ⟨sound.close, sound.close_described⟩
  | setSampleRate sampleRate =>
    refine ⟨?_, fun f member => by cases member⟩
    exact ⟨sound.supported, sound.headed, sound.counted, sound.fits, sound.new_headed,
      sound.unused⟩
  | setBitsPerSample bitsPerSample =>
    refine ⟨?_, fun f member => by cases member⟩
    change Sound (s.setBitsPerSample bitsPerSample)
    unfold setBitsPerSample
    split
    · rename_i valid
      refine ⟨?_, sound.headed, sound.counted, sound.fits, sound.new_headed, sound.unused⟩
      rcases valid with rfl | rfl
      · exact .inl rfl
      · exact .inr rfl
    · exact sound
  | work noutputItems nInChans input =>
    obtain ⟨kept, room⟩ := steady
    have switched := sound.doUpdate kept
    have described := doUpdate_described sound
    change Sound (s.work convert noutputItems nInChans input).1 ∧
      ∀ f ∈ (s.work convert noutputItems nInChans input).2, f.Described
    unfold work
    rw [← doUpdate_fp, ← doUpdate_width, ← doUpdate_nchans] at room
    generalize s.doUpdate = after at switched described room ⊢
    obtain ⟨t, closed⟩ := after
    dsimp only at switched described room ⊢
    cases open' : t.fp with
    | none => exact ⟨switched, described⟩
    | some f =>
      refine ⟨switched.writeSamples open' ?_, described⟩
      rw [length_samples]
      exact room f open'

theorem sound_make {filename : String} {nChannels : Int} {sampleRate : UInt32}
    {bitsPerSample : Int} {outcome : OpenOutcome}
    (made : make filename nChannels sampleRate bitsPerSample outcome = .ok s) : Sound s := by
  unfold make at made
  split at made
  · cases made
  split at made
  · cases made
  rename_i valid
  have supported : SampleWidth (bitsPerSample / 8).toNat := by
    rw [not_and_or, not_not, not_not] at valid
    rcases valid with rfl | rfl
    · exact .inl rfl
    · exact .inr rfl
  cases outcome with
  | openFails => cases made
  | fdopenFails => cases made
  | opened =>
    cases made
    refine @Sound.openFile _ ?_ filename .opened ?_
    · refine ⟨supported, ?_, ?_, ?_, ?_, ?_⟩
      all_goals rintro f ⟨⟩
    · rintro - f ⟨⟩

end WavfileSink

open WavfileSink in
/-- **Headers of WAV files.** When the pending width is that of the new file whenever `work`
switches to it, no file takes `2 ^ 32` bytes and none is opened while it is written to, every file
that is closed is described by its header. -/
theorem wavfile_sink_described {α : Type} (convert : SampleScale → α → Option UInt16)
    {filename : String} {nChannels bitsPerSample : Int} {sampleRate : UInt32}
    {outcome : OpenOutcome} {start s : WavfileSink}
    (made : make filename nChannels sampleRate bitsPerSample outcome = .ok start)
    {calls : List (SinkCall α)} (steady : Throughout Steady (step convert) start calls)
    (reached : run (step convert) start calls = some s) :
    ∀ f ∈ observed (closedBy convert) (step convert) start calls ++ s.destructor, f.Described := by
  obtain ⟨sound, closed⟩ := run_history
    (fun es t => Sound t ∧ ∀ f ∈ observed (closedBy convert) (step convert) start es, f.Described)
    ⟨sound_make made, fun f member => by cases member⟩
    (by
      rintro es t c u before ⟨sound, closed⟩ steady stepped
      obtain ⟨after, described⟩ := sound.call steady
      obtain rfl := Option.some.inj stepped
      refine ⟨after, ?_⟩
      intro f member
      rw [observed_append before, observed_singleton] at member
      rcases List.mem_append.mp member with old | new
      · exact closed f old
      · exact described f new)
    steady reached
  intro f member
  rcases List.mem_append.mp member with old | last
  · exact closed f old
  · rcases List.mem_append.mp last with new | current
    · exact sound.new_described f new
    · exact sound.close_described f current

namespace WavfileSink

/-- `convert_to_short` of 0.0. -/
def silence (scale : SampleScale) (_ : Unit) : Option UInt16 :=
  some (UInt16.ofNat (scale.normalizeShift * scale.normalizeFac).toNat)

/-- A sink for 16 bits is set to 8 bits before the first `work`: the header says 16, and the sample
has one byte. -/
theorem wavfile_sink_stale_header :
    ∃ start f, make "a.wav" 1 8000 16 .opened = .ok start ∧
      f ∈ observed (closedBy silence) (step silence) start
        [.setBitsPerSample 8, .work 1 1 fun _ _ => (), .close] ∧
      wavField f.file.bytes 34 2 = 16 ∧ f.writes = [(127, 1)] ∧ ¬f.Described :=
  ⟨_, _, rfl, List.mem_singleton_self _, rfl, rfl, by decide⟩

/-- A file that is opened again while it is written to loses its header. -/
example : ¬∀ f ∈ observed (closedBy silence) (step silence)
    ((make "a.wav" 1 8000 16 .opened).toOption.getD ⟨0, 0, 0, 0, 0, ⟨0, 0, 0, 0⟩, none, none, false⟩)
    [.work 1 1 fun _ _ => (), .openFile "a.wav" .opened, .close], f.Described := by decide

end WavfileSink

open WavfileSink in
/-- Three samples of 8 bits in a file that was opened again behind the change. -/
theorem wavfile_sink_described_reopened :
    ∃ start s, make "a.wav" 1 8000 16 .opened = .ok start ∧
      run (step silence) start [.setBitsPerSample 8, .openFile "a.wav" .opened,
        .work 3 1 fun _ _ => ()] = some s ∧
      s.destructor.length = 1 ∧ ∀ f ∈ s.destructor, f.Described := by
  obtain ⟨start, made⟩ : ∃ start, make "a.wav" 1 8000 16 .opened = .ok start := ⟨_, rfl⟩
  have calls : ∃ s, run (step silence) start [.setBitsPerSample 8, .openFile "a.wav" .opened,
      .work 3 1 fun _ _ => ()] = some s ∧ s.destructor.length = 1 := by
    cases made
    exact ⟨_, rfl, rfl⟩
  obtain ⟨s, reached, one⟩ := calls
  refine ⟨start, s, made, reached, one, ?_⟩
  intro f member
  refine wavfile_sink_described silence made ?_ reached f (List.mem_append_right _ member)
  cases made
  refine ⟨trivial, fun t first => ⟨⟨?_, fun same => by cases same⟩, fun u second =>
    ⟨⟨?_, ?_⟩, fun _ _ => trivial⟩⟩⟩
  · cases first
    rintro - f ⟨⟩
  · cases first
    cases second
    rintro - f ⟨⟩
    rfl
  · cases first
    cases second
    rintro f ⟨⟩
    decide

end GnuRadio
