import GnuRadio.Misc.Double
import GnuRadio.Misc.Rounding

/-!
# The oscilloscope

`gr_oscope_guts` writes the samples of its channels into circular buffers, waits for a trigger and
then until the trigger instant is half way in the buffers, and sends a record of what they hold.
-/

namespace GnuRadio

/-- `OUTPUT_RECORD_SIZE` (`gr_oscope_guts.cc:33`). -/
def outputRecordSize : ℕ := 2048

/-- `MAX_CHANNELS` (`gr_oscope_guts.h:47`). -/
def maxChannels : ℕ := 8

/-- `wrap_bi`, `incr_bi` and `decr_bi` (`gr_oscope_guts.cc:35-51`). -/
def wrapBi (buffer_index : BitVec 32) : BitVec 32 :=
  buffer_index &&& (BitVec.ofNat 32 outputRecordSize - 1#32)

def incrBi (buffer_index : BitVec 32) : BitVec 32 := wrapBi (buffer_index + 1#32)

def decrBi (buffer_index : BitVec 32) : BitVec 32 := wrapBi (buffer_index - 1#32)

/-- `gr_trigger_mode` and `gr_trigger_slope` (`gr_trigger_mode.h:25-35`). -/
inductive GrTriggerMode where
  | free
  | auto
  | norm
  | stripchart
  deriving DecidableEq

/-- `gr_trigger_slope`. -/
inductive GrTriggerSlope where
  | pos
  | neg
  deriving DecidableEq

/-- `scope_state`. -/
inductive ScopeState where
  | holdOff
  | lookForTrigger
  | postTrigger
  deriving DecidableEq

/-- A message: its two arguments, a record for each channel and the trigger offset. -/
structure OscopeMessage where
  arg1 : ℕ
  arg2 : ℕ
  records : List (List ℚ)
  trigger_off : ℚ

/-- `gr_oscope_guts` (`gr_oscope_guts.h:45-86`), with the indices into the buffers and the messages
so far. A buffer has its values at the indices from 0 on; the others are the memory around it. The
counters have no bounds, also where `(int) rint` of a rate sets them. -/
structure GrOscopeGuts where
  d_nchannels : ℕ
  d_trigger_mode : GrTriggerMode
  d_trigger_slope : GrTriggerSlope
  d_trigger_channel : ℕ
  d_sample_rate : ℚ
  d_update_rate : ℚ
  d_trigger_level : ℚ
  d_obi : BitVec 32
  d_buffer : ℕ → ℤ → ℚ
  d_state : ScopeState
  d_decimator_count : ℤ
  d_decimator_count_init : ℤ
  d_hold_off_count : ℤ
  d_hold_off_count_init : ℤ
  d_pre_trigger_count : ℤ
  d_post_trigger_count : ℤ
  d_post_trigger_count_init : ℤ
  d_trigger_off : ℚ
  indices : List ℤ
  sent : List OscopeMessage

namespace GrOscopeGuts

/-! ## States -/

/-- `enter_hold_off` (`gr_oscope_guts.cc:156-161`). -/
def enterHoldOff (s : GrOscopeGuts) : GrOscopeGuts :=
  { s with d_state := .holdOff, d_hold_off_count := s.d_hold_off_count_init }

/-- `enter_look_for_trigger` (`gr_oscope_guts.cc:163-168`). -/
def enterLookForTrigger (s : GrOscopeGuts) : GrOscopeGuts :=
  { s with d_pre_trigger_count := 0, d_state := .lookForTrigger }

/-- `enter_post_trigger` (`gr_oscope_guts.cc:170-178`). -/
def enterPostTrigger (s : GrOscopeGuts) : GrOscopeGuts :=
  let s := { s with d_state := .postTrigger, d_post_trigger_count := s.d_post_trigger_count_init }
  if 1 / 2 < s.d_trigger_off then { s with d_trigger_off := s.d_trigger_off - 1 }
  else { s with d_post_trigger_count := s.d_post_trigger_count - 1 }

/-! ## Buffers -/

/-- `d_buffer[ch][j] = v`. -/
def store (s : GrOscopeGuts) (ch : ℕ) (j : ℤ) (v : ℚ) : GrOscopeGuts :=
  { s with
    d_buffer := fun c i => if c = ch ∧ i = j then v else s.d_buffer c i
    indices := s.indices ++ [j] }

/-- Indices that are read. -/
def touch (s : GrOscopeGuts) (js : List ℤ) : GrOscopeGuts := { s with indices := s.indices ++ js }

/-- `found_trigger` from `case gr_TRIG_MODE_NORM` on. -/
def foundCrossing (s : GrOscopeGuts) (prev_sample new_sample : ℚ) : Bool × GrOscopeGuts :=
  let missed : Bool :=
    match s.d_trigger_slope with
    | .pos => new_sample < s.d_trigger_level || s.d_trigger_level ≤ prev_sample
    | .neg => s.d_trigger_level < new_sample || prev_sample ≤ s.d_trigger_level
  if missed then (false, s)
  else
    (true, { s with
      d_trigger_off := (s.d_trigger_level - prev_sample) / (new_sample - prev_sample) })

/-- `found_trigger` (`gr_oscope_guts.cc:183-219`). -/
def foundTrigger (s : GrOscopeGuts) : Bool × GrOscopeGuts :=
  let prev_sample := s.d_buffer s.d_trigger_channel (decrBi s.d_obi).toInt
  let new_sample := s.d_buffer s.d_trigger_channel s.d_obi.toInt
  let s := s.touch [(decrBi s.d_obi).toInt, s.d_obi.toInt]
  match s.d_trigger_mode with
  | .auto =>
      let s := { s with d_pre_trigger_count := s.d_pre_trigger_count + 1 }
      if (outputRecordSize : ℤ) / 2 < s.d_pre_trigger_count then (true, s)
      else s.foundCrossing prev_sample new_sample
  | .norm => s.foundCrossing prev_sample new_sample
  | .free => (true, { s with d_trigger_off := 0 })
  -- `assert (0)`; `process_sample` does not come here in this mode
  | .stripchart => (false, s)

/-- The index that entry `i` of a record is read at. -/
def recordIndex (s : GrOscopeGuts) (i : ℕ) : ℤ :=
  (wrapBi (s.d_obi + 1#32 + BitVec.ofNat 32 i)).toInt

def outputRecords (s : GrOscopeGuts) : OscopeMessage where
  arg1 := s.d_nchannels
  arg2 := outputRecordSize
  records := (List.range s.d_nchannels).map fun ch =>
    (List.range outputRecordSize).map fun i : ℕ => s.d_buffer ch (s.recordIndex i)
  trigger_off := s.d_trigger_off

/-- `write_output_records` (`gr_oscope_guts.cc:224-251`). -/
def writeOutputRecords (s : GrOscopeGuts) (full_p : Bool) : GrOscopeGuts :=
  if full_p then s
  else
    { s.touch ((List.range s.d_nchannels).flatMap fun _ =>
        (List.range outputRecordSize).map s.recordIndex) with
      sent := s.sent ++ [s.outputRecords] }

/-! ## Samples -/

/-- The loop that copies the sample into the buffers. -/
def copyData (s : GrOscopeGuts) (channel_data : ℕ → ℚ) : GrOscopeGuts :=
  (List.range s.d_nchannels).foldl (fun s i => s.store i s.d_obi.toInt (channel_data i)) s

/-- The `switch` over `d_state`. -/
def advance (s : GrOscopeGuts) (full_p : Bool) : GrOscopeGuts :=
  match s.d_state with
  | .holdOff =>
      let s := { s with d_hold_off_count := s.d_hold_off_count - 1 }
      if s.d_hold_off_count ≤ 0 then s.enterLookForTrigger else s
  | .lookForTrigger =>
      match s.foundTrigger with
      | (true, s) => s.enterPostTrigger
      | (false, s) => s
  | .postTrigger =>
      let s := { s with d_post_trigger_count := s.d_post_trigger_count - 1 }
      if s.d_post_trigger_count ≤ 0 then (s.writeOutputRecords full_p).enterHoldOff else s

/-- The loop that shifts the buffer of a channel by one. -/
def shiftBuffer (s : GrOscopeGuts) (ch : ℕ) : GrOscopeGuts :=
  (List.range outputRecordSize).reverse.foldl (fun s (j : ℕ) =>
    (s.touch [(j : ℤ) - 1]).store ch j (s.d_buffer ch ((j : ℤ) - 1))) s

/-- The branch of `process_sample` for a strip chart. -/
def shiftData (s : GrOscopeGuts) (channel_data : ℕ → ℚ) : GrOscopeGuts :=
  (List.range s.d_nchannels).foldl (fun s i => (s.shiftBuffer i).store i 0 (channel_data i)) s

/-- `process_sample` (`gr_oscope_guts.cc:98-150`); `full_p` is what the queue says. -/
def processSample (s : GrOscopeGuts) (channel_data : ℕ → ℚ) (full_p : Bool) : GrOscopeGuts :=
  let s := { s with d_decimator_count := s.d_decimator_count - 1 }
  if 0 < s.d_decimator_count then s
  else
    let s := { s with d_decimator_count := s.d_decimator_count_init }
    if s.d_trigger_mode ≠ .stripchart then
      let s := (s.copyData channel_data).advance full_p
      { s with d_obi := incrBi s.d_obi }
    else (s.shiftData channel_data).writeOutputRecords full_p

/-! ## Settings -/

/-- `update_rate_or_decimation_changed` (`gr_oscope_guts.cc:281-286`). -/
def updateRateOrDecimationChanged (s : GrOscopeGuts) : GrOscopeGuts :=
  { s with
    d_hold_off_count_init :=
      roundEven (s.d_sample_rate / s.d_update_rate / s.d_decimator_count_init) }

/-- `gr_oscope_guts` (`gr_oscope_guts.cc:53-83`). The memory around the buffers and the trigger
offset are not set. -/
def new (sample_rate : ℚ) (memory : ℕ → ℤ → ℚ) (trigger_off : ℚ) : GrOscopeGuts :=
  updateRateOrDecimationChanged <| enterHoldOff
    { d_nchannels := 1
      d_trigger_mode := .auto
      d_trigger_slope := .pos
      d_trigger_channel := 0
      d_sample_rate := sample_rate
      d_update_rate := 20
      d_trigger_level := 0
      d_obi := 0#32
      d_buffer := fun ch j => if 0 ≤ j ∧ j < outputRecordSize then 0 else memory ch j
      d_state := .holdOff
      d_decimator_count := 0
      d_decimator_count_init := 1
      d_hold_off_count := 0
      d_hold_off_count_init := outputRecordSize / 2 - 1
      d_pre_trigger_count := 0
      d_post_trigger_count := 0
      d_post_trigger_count_init := outputRecordSize / 2
      d_trigger_off := trigger_off
      indices := []
      sent := [] }

end GrOscopeGuts

/-- A call of a manipulator. -/
inductive OscopeSetting where
  | updateRate (update_rate : ℚ)
  | decimationCount (decimator_count : ℤ)
  | sampleRate (sample_rate : ℚ)
  | triggerChannel (channel : ℤ)
  | triggerMode (mode : GrTriggerMode)
  | triggerSlope (slope : GrTriggerSlope)
  | triggerLevel (trigger_level : ℚ)
  | triggerLevelAuto
  | numChannels (nchannels : ℤ)

namespace GrOscopeGuts

/-- `set_update_rate` (`gr_oscope_guts.cc:255-261`). -/
def setUpdateRate (s : GrOscopeGuts) (update_rate : ℚ) : GrOscopeGuts :=
  updateRateOrDecimationChanged
    { s with d_update_rate := min (max (1 / 10) update_rate) s.d_sample_rate }

/-- `set_trigger_level` (`gr_oscope_guts.cc:315-321`). -/
def setTriggerLevel (s : GrOscopeGuts) (trigger_level : ℚ) : GrOscopeGuts :=
  enterLookForTrigger { s with d_trigger_level := trigger_level }

/-- `set_trigger_level_auto` (`gr_oscope_guts.cc:323-336`). -/
def setTriggerLevelAuto (s : GrOscopeGuts) : GrOscopeGuts :=
  let samples : List ℚ :=
    (List.range outputRecordSize).map fun i : ℕ => s.d_buffer s.d_trigger_channel i
  let first := s.d_buffer s.d_trigger_channel 0
  let min_v := samples.tail.foldl min first
  let max_v := samples.tail.foldl max first
  (s.touch ((List.range outputRecordSize).map fun i : ℕ => (i : ℤ))).setTriggerLevel
    ((min_v + max_v) * (1 / 2))

/-- The manipulators (`gr_oscope_guts.cc:255-346`). -/
def set (s : GrOscopeGuts) : OscopeSetting → GrOscopeGuts
  | .updateRate update_rate => s.setUpdateRate update_rate
  | .decimationCount decimator_count =>
      updateRateOrDecimationChanged { s with d_decimator_count_init := max 1 decimator_count }
  | .sampleRate sample_rate =>
      setUpdateRate { s with d_sample_rate := sample_rate } s.d_update_rate
  | .triggerChannel channel =>
      if 0 ≤ channel ∧ channel < s.d_nchannels then
        enterLookForTrigger { s with d_trigger_channel := channel.toNat }
      else s
  | .triggerMode mode => enterLookForTrigger { s with d_trigger_mode := mode }
  | .triggerSlope slope => enterLookForTrigger { s with d_trigger_slope := slope }
  | .triggerLevel trigger_level => s.setTriggerLevel trigger_level
  | .triggerLevelAuto => s.setTriggerLevelAuto
  | .numChannels nchannels =>
      if 0 < nchannels ∧ nchannels ≤ maxChannels then { s with d_nchannels := nchannels.toNat }
      else s

end GrOscopeGuts

end GnuRadio
