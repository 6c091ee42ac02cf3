import GnuRadio.Io.OscopeGuts

/-!
# The records of the oscilloscope

Between samples the buffers hold the last decimated samples, and a scope that waits for the end of
a record knows at which sample it began to. A step keeps both, and sends a record that is a window
of the signal with the crossing in its middle.
-/

namespace GnuRadio

theorem toInt_wrapBi (x : BitVec 32) : (wrapBi x).toInt = ((x.toNat % 2048 : ℕ) : ℤ) := by
  have low : (wrapBi x).toNat = x.toNat % 2048 :=
    toNat_and_low x (p := BitVec.ofNat 32 outputRecordSize) (k := 11) rfl
  have small := Nat.mod_lt x.toNat (show 0 < 2048 by decide)
  rw [BitVec.toInt_eq_toNat_of_lt (by omega), low]

namespace GrOscopeGuts

/-! ## What a sample does -/

/-- The settings are kept. -/
structure Same (s t : GrOscopeGuts) : Prop where
  nchannels : t.d_nchannels = s.d_nchannels
  mode : t.d_trigger_mode = s.d_trigger_mode
  slope : t.d_trigger_slope = s.d_trigger_slope
  channel : t.d_trigger_channel = s.d_trigger_channel
  level : t.d_trigger_level = s.d_trigger_level
  decimation : t.d_decimator_count_init = s.d_decimator_count_init
  post : t.d_post_trigger_count_init = s.d_post_trigger_count_init

variable {s t u : GrOscopeGuts} {prev_sample new_sample : ℚ}

theorem Same.trans (first : s.Same t) (second : t.Same u) : s.Same u where
  nchannels := second.nchannels.trans first.nchannels
  mode := second.mode.trans first.mode
  slope := second.slope.trans first.slope
  channel := second.channel.trans first.channel
  level := second.level.trans first.level
  decimation := second.decimation.trans first.decimation
  post := second.post.trans first.post

theorem copyData_eq (s : GrOscopeGuts) (channel_data : ℕ → ℚ) :
    s.copyData channel_data = { s with
      d_buffer := fun c i => if c < s.d_nchannels ∧ i = s.d_obi.toInt then channel_data c
        else s.d_buffer c i
      indices := s.indices ++ List.replicate s.d_nchannels s.d_obi.toInt } := by
  have loop : ∀ n, (List.range n).foldl (fun s i => s.store i s.d_obi.toInt (channel_data i)) s =
      { s with
        d_buffer := fun c i => if c < n ∧ i = s.d_obi.toInt then channel_data c
          else s.d_buffer c i
        indices := s.indices ++ List.replicate n s.d_obi.toInt } := by
    intro n
    induction n with
    | zero => simp
    | succ n ih =>
      rw [List.range_succ, List.foldl_append, ih, List.foldl_cons, List.foldl_nil, store]
      dsimp only
      rw [List.append_assoc, ← List.replicate_succ']
      congr 1
      funext c i
      by_cases here : c = n ∧ i = s.d_obi.toInt
      · rw [if_pos here, if_pos ⟨by omega, here.2⟩, here.1]
      · rw [if_neg here]
        by_cases before : c < n ∧ i = s.d_obi.toInt
        · rw [if_pos before, if_pos ⟨by omega, before.2⟩]
        · rw [if_neg before, if_neg (by omega)]
  exact loop s.d_nchannels

/-- The value of the trigger channel at the crossing is one of the level. -/
def Crosses (slope : GrTriggerSlope) (level prev_sample new_sample : ℚ) : Prop :=
  match slope with
  | .pos => prev_sample < level ∧ level ≤ new_sample
  | .neg => level < prev_sample ∧ new_sample ≤ level

theorem crossing_between {slope : GrTriggerSlope} {level : ℚ}
    (crosses : Crosses slope level prev_sample new_sample) :
    0 < (level - prev_sample) / (new_sample - prev_sample) ∧
      (level - prev_sample) / (new_sample - prev_sample) ≤ 1 := by
  cases slope with
  | pos =>
    obtain ⟨low, high⟩ := crosses
    have rise : 0 < new_sample - prev_sample := by linarith
    exact ⟨div_pos (by linarith) rise, (div_le_one rise).mpr (by linarith)⟩
  | neg =>
    obtain ⟨high, low⟩ := crosses
    have fall : 0 < prev_sample - new_sample := by linarith
    rw [← neg_sub prev_sample level, ← neg_sub prev_sample new_sample, neg_div_neg_eq]
    exact ⟨div_pos (by linarith) fall, (div_le_one fall).mpr (by linarith)⟩

theorem foundCrossing_eq (s : GrOscopeGuts) (prev_sample new_sample : ℚ) :
    (s.foundCrossing prev_sample new_sample = (false, s)) ∨
      Crosses s.d_trigger_slope s.d_trigger_level prev_sample new_sample ∧
        s.foundCrossing prev_sample new_sample = (true, { s with
          d_trigger_off := (s.d_trigger_level - prev_sample) / (new_sample - prev_sample) }) := by
  rw [foundCrossing]
  cases slope : s.d_trigger_slope with
  | pos =>
    by_cases missed : new_sample < s.d_trigger_level ∨ s.d_trigger_level ≤ prev_sample
    · left
      rw [if_pos (by simpa using missed)]
    · right
      rw [if_neg (by simpa using missed)]
      rw [not_or, not_lt, not_le] at missed
      exact ⟨⟨missed.2, missed.1⟩, rfl⟩
  | neg =>
    by_cases missed : s.d_trigger_level < new_sample ∨ prev_sample ≤ s.d_trigger_level
    · left
      rw [if_pos (by simpa using missed)]
    · right
      rw [if_neg (by simpa using missed)]
      rw [not_or, not_lt, not_le] at missed
      exact ⟨⟨missed.2, missed.1⟩, rfl⟩

/-- What the `switch` over the state leaves as it is. The indices that it reads are in the buffers
when the next one to write is. -/
structure Frame (s t : GrOscopeGuts) : Prop where
  same : s.Same t
  buffer : t.d_buffer = s.d_buffer
  obi : t.d_obi = s.d_obi
  decimator : t.d_decimator_count = s.d_decimator_count
  indices : ∃ js, t.indices = s.indices ++ js ∧
    (s.d_obi.toNat < 2048 → ∀ j ∈ js, 0 ≤ j ∧ j < outputRecordSize)

theorem Frame.trans (first : s.Frame t) (second : t.Frame u) : s.Frame u := by
  obtain ⟨js, after, inside⟩ := first.indices
  obtain ⟨ks, later, within⟩ := second.indices
  refine ⟨first.same.trans second.same, second.buffer.trans first.buffer,
    second.obi.trans first.obi, second.decimator.trans first.decimator, js ++ ks, ?_, ?_⟩
  · rw [later, after, List.append_assoc]
  · intro small j member
    rcases List.mem_append.mp member with here | there
    · exact inside small j here
    · exact within (first.obi ▸ small) j there

theorem Frame.of_same {state : ScopeState} {hold_off pre post : ℤ} {off : ℚ}
    {sent : List OscopeMessage} : s.Frame { s with
      d_state := state
      d_hold_off_count := hold_off
      d_pre_trigger_count := pre
      d_post_trigger_count := post
      d_trigger_off := off
      sent := sent } := by
  refine ⟨⟨rfl, rfl, rfl, rfl, rfl, rfl, rfl⟩, rfl, rfl, rfl, [], (List.append_nil _).symm, ?_⟩
  intro _ j member
  cases member

theorem frame_holdOff (s : GrOscopeGuts) : s.Frame s.enterHoldOff :=
  Frame.of_same

theorem frame_lookForTrigger (s : GrOscopeGuts) : s.Frame s.enterLookForTrigger :=
  Frame.of_same

theorem frame_postTrigger (s : GrOscopeGuts) : s.Frame s.enterPostTrigger := by
  rw [enterPostTrigger]
  dsimp only
  split <;> exact Frame.of_same

theorem frame_foundCrossing (s : GrOscopeGuts) (prev_sample new_sample : ℚ) :
    s.Frame (s.foundCrossing prev_sample new_sample).2 := by
  rcases s.foundCrossing_eq prev_sample new_sample with missed | ⟨-, found⟩
  · rw [missed]
    exact Frame.of_same
  · rw [found]
    exact Frame.of_same

theorem wrapBi_inside (x : BitVec 32) :
    0 ≤ (wrapBi x).toInt ∧ (wrapBi x).toInt < outputRecordSize := by
  have size : (outputRecordSize : ℤ) = 2048 := rfl
  rw [toInt_wrapBi]
  omega

theorem frame_touch {js : List ℤ}
    (inside : s.d_obi.toNat < 2048 → ∀ j ∈ js, 0 ≤ j ∧ j < outputRecordSize) :
    s.Frame (s.touch js) :=
  ⟨⟨rfl, rfl, rfl, rfl, rfl, rfl, rfl⟩, rfl, rfl, rfl, js, rfl, inside⟩

theorem frame_foundTrigger (s : GrOscopeGuts) : s.Frame s.foundTrigger.2 := by
  have size : (outputRecordSize : ℤ) = 2048 := rfl
  have touched : s.Frame (s.touch [(decrBi s.d_obi).toInt, s.d_obi.toInt]) := by
    refine frame_touch fun small j member => ?_
    rcases List.mem_cons.mp member with prev | new
    · rw [prev]
      exact wrapBi_inside _
    · rw [List.mem_singleton.mp new, BitVec.toInt_eq_toNat_of_lt (by omega)]
      omega
  rw [foundTrigger]
  dsimp only
  generalize s.touch [(decrBi s.d_obi).toInt, s.d_obi.toInt] = t at touched ⊢
  refine touched.trans ?_
  split
  · split
    · exact Frame.of_same
    · refine Frame.trans ?_ (frame_foundCrossing _ _ _)
      exact Frame.of_same
  · exact frame_foundCrossing _ _ _
  · exact Frame.of_same
  · exact Frame.of_same

theorem frame_writeOutputRecords (s : GrOscopeGuts) (full_p : Bool) :
    s.Frame (s.writeOutputRecords full_p) := by
  rw [writeOutputRecords]
  cases full_p with
  | true => exact Frame.of_same
  | false =>
    refine ⟨⟨rfl, rfl, rfl, rfl, rfl, rfl, rfl⟩, rfl, rfl, rfl, _, rfl, ?_⟩
    intro _ j member
    obtain ⟨_, _, member⟩ := List.mem_flatMap.mp member
    obtain ⟨i, _, rfl⟩ := List.mem_map.mp member
    exact wrapBi_inside _

theorem frame_advance (s : GrOscopeGuts) (full_p : Bool) : s.Frame (s.advance full_p) := by
  rw [advance]
  cases s.d_state with
  | holdOff =>
    dsimp only
    split
    · refine Frame.trans ?_ (frame_lookForTrigger _)
      exact Frame.of_same
    · exact Frame.of_same
  | lookForTrigger =>
    dsimp only
    have found := s.frame_foundTrigger
    split
    · next t triggered =>
      rw [triggered] at found
      exact found.trans (frame_postTrigger t)
    · next t triggered =>
      rw [triggered] at found
      exact found
  | postTrigger =>
    dsimp only
    split
    · refine Frame.trans ?_ ((frame_writeOutputRecords _ full_p).trans (frame_holdOff _))
      exact Frame.of_same
    · exact Frame.of_same

/-! ## What a state does -/

theorem advance_holdOff (state : s.d_state = .holdOff) (full_p : Bool) :
    (s.advance full_p).d_state ≠ .postTrigger ∧ (s.advance full_p).sent = s.sent := by
  rw [advance, state]
  dsimp only
  split <;> exact ⟨ScopeState.noConfusion, rfl⟩

/-- Why a scope stops to look for a trigger, with the offset and the count that it waits with. -/
def Triggers (s : GrOscopeGuts) (pre_trigger_count : ℤ) (prev_sample new_sample off : ℚ)
    (count : ℤ) : Prop :=
  s.d_trigger_mode = .free ∨
    s.d_trigger_mode = .auto ∧ outputRecordSize / 2 ≤ pre_trigger_count ∨
    Crosses s.d_trigger_slope s.d_trigger_level prev_sample new_sample ∧ |off| ≤ 1 / 2 ∧
      (s.d_trigger_level - prev_sample) / (new_sample - prev_sample) = count - 1023 + off

theorem Triggers.of_same (same : s.Same t) {pre_trigger_count : ℤ} {off : ℚ} {count : ℤ}
    (triggers : t.Triggers pre_trigger_count prev_sample new_sample off count) :
    s.Triggers pre_trigger_count prev_sample new_sample off count := by
  rw [Triggers, same.mode, same.slope, same.level] at triggers
  exact triggers

theorem enterPostTrigger_spec (post : s.d_post_trigger_count_init = outputRecordSize / 2) :
    s.enterPostTrigger.d_state = .postTrigger ∧ s.enterPostTrigger.sent = s.sent ∧
      1 ≤ s.enterPostTrigger.d_post_trigger_count ∧
      (0 < s.d_trigger_off → s.d_trigger_off ≤ 1 → |s.enterPostTrigger.d_trigger_off| ≤ 1 / 2 ∧
        s.d_trigger_off =
          s.enterPostTrigger.d_post_trigger_count - 1023 + s.enterPostTrigger.d_trigger_off) := by
  have half : (outputRecordSize : ℤ) / 2 = 1024 := rfl
  rw [half] at post
  rw [enterPostTrigger]
  dsimp only
  by_cases behind : 1 / 2 < s.d_trigger_off
  · rw [if_pos behind]
    dsimp only
    rw [post]
    refine ⟨rfl, rfl, by decide, fun _ most => ⟨abs_le.mpr ⟨by linarith, by linarith⟩, ?_⟩⟩
    push_cast
    ring
  · rw [if_neg behind]
    dsimp only
    rw [post]
    refine ⟨rfl, rfl, by decide, fun least _ => ⟨abs_le.mpr ⟨by linarith, by linarith⟩, ?_⟩⟩
    push_cast
    ring

theorem foundCrossing_spec (s : GrOscopeGuts) (prev_sample new_sample : ℚ) :
    (s.foundCrossing prev_sample new_sample).2.d_state = s.d_state ∧
      (s.foundCrossing prev_sample new_sample).2.sent = s.sent ∧
      ((s.foundCrossing prev_sample new_sample).1 = true →
        Crosses s.d_trigger_slope s.d_trigger_level prev_sample new_sample ∧
          (s.foundCrossing prev_sample new_sample).2.d_trigger_off =
            (s.d_trigger_level - prev_sample) / (new_sample - prev_sample)) := by
  rcases s.foundCrossing_eq prev_sample new_sample with missed | ⟨crosses, found⟩
  · rw [missed]
    exact ⟨rfl, rfl, fun found => absurd found Bool.false_ne_true⟩
  · rw [found]
    exact ⟨rfl, rfl, fun _ => ⟨crosses, rfl⟩⟩

theorem foundTrigger_spec (s : GrOscopeGuts) :
    let prev_sample := s.d_buffer s.d_trigger_channel (decrBi s.d_obi).toInt
    let new_sample := s.d_buffer s.d_trigger_channel s.d_obi.toInt
    s.foundTrigger.2.d_state = s.d_state ∧ s.foundTrigger.2.sent = s.sent ∧
      (s.foundTrigger.1 = true → s.d_trigger_mode = .free ∨
        s.d_trigger_mode = .auto ∧ outputRecordSize / 2 ≤ s.d_pre_trigger_count ∨
        Crosses s.d_trigger_slope s.d_trigger_level prev_sample new_sample ∧
          s.foundTrigger.2.d_trigger_off =
            (s.d_trigger_level - prev_sample) / (new_sample - prev_sample)) := by
  intro prev_sample new_sample
  rw [foundTrigger]
  dsimp only
  split
  · next mode =>
    split
    · next long =>
      have size : (outputRecordSize : ℤ) = 2048 := rfl
      refine ⟨rfl, rfl, fun _ => Or.inr (Or.inl ⟨mode, ?_⟩)⟩
      change (outputRecordSize : ℤ) / 2 < s.d_pre_trigger_count + 1 at long
      omega
    · obtain ⟨state, sent, found⟩ := foundCrossing_spec
        { s.touch [(decrBi s.d_obi).toInt, s.d_obi.toInt] with
          d_pre_trigger_count := s.d_pre_trigger_count + 1 } prev_sample new_sample
      exact ⟨state, sent, fun triggered => Or.inr (Or.inr (found triggered))⟩
  · obtain ⟨state, sent, found⟩ := foundCrossing_spec
      (s.touch [(decrBi s.d_obi).toInt, s.d_obi.toInt]) prev_sample new_sample
    exact ⟨state, sent, fun triggered => Or.inr (Or.inr (found triggered))⟩
  · next mode => exact ⟨rfl, rfl, fun _ => Or.inl mode⟩
  · exact ⟨rfl, rfl, fun found => absurd found Bool.false_ne_true⟩

theorem advance_lookForTrigger (state : s.d_state = .lookForTrigger)
    (post : s.d_post_trigger_count_init = outputRecordSize / 2) (full_p : Bool) :
    (s.advance full_p).sent = s.sent ∧ ((s.advance full_p).d_state = .postTrigger →
      1 ≤ (s.advance full_p).d_post_trigger_count ∧
        s.Triggers s.d_pre_trigger_count (s.d_buffer s.d_trigger_channel (decrBi s.d_obi).toInt)
          (s.d_buffer s.d_trigger_channel s.d_obi.toInt) (s.advance full_p).d_trigger_off
          (s.advance full_p).d_post_trigger_count) := by
  obtain ⟨stays, sent, found⟩ := s.foundTrigger_spec
  have frame := s.frame_foundTrigger
  rw [advance, state]
  dsimp only
  rcases search : s.foundTrigger with ⟨triggered, t⟩
  rw [search] at stays sent found frame
  dsimp only at stays sent found frame
  cases triggered with
  | false =>
    refine ⟨sent, fun waits => ?_⟩
    rw [stays, state] at waits
    cases waits
  | true =>
    obtain ⟨_, kept, least, near⟩ := t.enterPostTrigger_spec (frame.same.post.trans post)
    refine ⟨kept.trans sent, fun _ => ⟨least, ?_⟩⟩
    rcases found rfl with free | timeout | ⟨crosses, off⟩
    · exact Or.inl free
    · exact Or.inr (Or.inl timeout)
    · obtain ⟨positive, most⟩ := crossing_between crosses
      rw [← off] at positive most
      obtain ⟨half, place⟩ := near positive most
      exact Or.inr (Or.inr ⟨crosses, half, off.symm.trans place⟩)

theorem advance_postTrigger (state : s.d_state = .postTrigger) (full_p : Bool) :
    (1 < s.d_post_trigger_count → (s.advance full_p).d_state = .postTrigger ∧
      (s.advance full_p).d_post_trigger_count = s.d_post_trigger_count - 1 ∧
      (s.advance full_p).d_trigger_off = s.d_trigger_off ∧ (s.advance full_p).sent = s.sent) ∧
    (s.d_post_trigger_count ≤ 1 → (s.advance full_p).d_state = .holdOff ∧
      (s.advance full_p).sent = s.sent ++ if full_p then [] else [s.outputRecords]) := by
  rw [advance, state]
  dsimp only
  constructor
  · intro more
    rw [if_neg (by omega)]
    exact ⟨rfl, rfl, rfl, rfl⟩
  · intro last
    rw [if_pos (by omega)]
    refine ⟨rfl, ?_⟩
    cases full_p with
    | true => exact (List.append_nil _).symm
    | false => rfl

/-! ## A run -/

/-- Samples with what the queue says when they come. -/
abbrev OscopeInputs := List ((ℕ → ℚ) × Bool)

/-- The samples are processed one after another. -/
def run (s : GrOscopeGuts) (inputs : OscopeInputs) : GrOscopeGuts :=
  inputs.foldl (fun s input => s.processSample input.1 input.2) s

section

variable (s₀ : GrOscopeGuts) (inputs : OscopeInputs)

/-- The scope after the first `k` samples. -/
def after (k : ℕ) : GrOscopeGuts := s₀.run (inputs.take k)

def decimation : ℕ := s₀.d_decimator_count_init.toNat

/-- The decimated samples of a channel, with zeros before the start. -/
def signal (ch : ℕ) (m : ℤ) : ℚ :=
  if ch < s₀.d_nchannels ∧ 0 ≤ m then
    (inputs[m.toNat * s₀.decimation]?.map Prod.fst).getD (fun _ => 0) ch
  else 0

/-- The samples of the trigger channel. -/
def triggerSignal (m : ℤ) : ℚ := s₀.signal inputs s₀.d_trigger_channel m

/-- The scope begins with sample `j` to wait, and still waits when sample `k` comes. -/
def StartedAt (j k : ℕ) : Prop :=
  (s₀.after inputs j).d_state = .lookForTrigger ∧
    ∀ i, j < i → i ≤ k → (s₀.after inputs i).d_state = .postTrigger

/-- Where the trigger channel crosses the level, between the decimated samples `n - 1` and `n`. -/
def crossingPoint (n : ℤ) : ℚ :=
  (n - 1 : ℤ) + (s₀.d_trigger_level - s₀.triggerSignal inputs (n - 1)) /
    (s₀.triggerSignal inputs n - s₀.triggerSignal inputs (n - 1))

/-- A message sent with the decimated sample `n` holds the last samples of every channel in order.
It was started by no crossing, in free running mode or after too many samples without one, or by a
crossing in the middle of the record. -/
structure TrueRecord (n : ℕ) (r : OscopeMessage) : Prop where
  arg1 : r.arg1 = s₀.d_nchannels
  arg2 : r.arg2 = outputRecordSize
  records : r.records = (List.range s₀.d_nchannels).map fun ch =>
    (List.range outputRecordSize).map fun i : ℕ => s₀.signal inputs ch ((n : ℤ) - 2047 + i)
  started : ∃ m : ℕ, s₀.StartedAt inputs (m * s₀.decimation) (n * s₀.decimation) ∧
    (s₀.d_trigger_mode = .free ∨
      s₀.d_trigger_mode = .auto ∧
        outputRecordSize / 2 ≤ (s₀.after inputs (m * s₀.decimation)).d_pre_trigger_count ∨
      Crosses s₀.d_trigger_slope s₀.d_trigger_level (s₀.triggerSignal inputs (m - 1))
          (s₀.triggerSignal inputs m) ∧
        s₀.crossingPoint inputs m - (n - 2047 : ℤ) = 1023 + r.trigger_off ∧
        |r.trigger_off| ≤ 1 / 2)

/-- The indices are in the buffers, and what a sample sends are windows of the signal. -/
structure TrueWindows : Prop where
  inside : ∀ j ∈ (s₀.run inputs).indices, 0 ≤ j ∧ j < outputRecordSize
  records : ∀ k < inputs.length, ∃ rs,
    (s₀.after inputs (k + 1)).sent = (s₀.after inputs k).sent ++ rs ∧
      ∀ r ∈ rs, ∃ n, k = n * s₀.decimation ∧ s₀.TrueRecord inputs n r

/-- A scope that was set up and has not processed a sample. -/
structure SetUp (s : GrOscopeGuts) : Prop where
  nchannels : 0 < s.d_nchannels
  decimation : 0 < s.d_decimator_count_init
  decimator : s.d_decimator_count = 0
  post : s.d_post_trigger_count_init = outputRecordSize / 2
  obi : s.d_obi = 0#32
  empty : ∀ ch (j : ℤ), 0 ≤ j → j < outputRecordSize → s.d_buffer ch j = 0
  state : s.d_state ≠ .postTrigger
  indices : ∀ j ∈ s.indices, 0 ≤ j ∧ j < outputRecordSize

/-- The buffers hold the last samples when sample `n` comes, -/
structure Window (n : ℕ) (s : GrOscopeGuts) : Prop where
  same : s₀.Same s
  obi : s.d_obi.toNat = n % 2048
  held : ∀ ch (m : ℤ), (n : ℤ) - 2048 ≤ m → m < n →
    s.d_buffer ch (m % 2048) = s₀.signal inputs ch m

/-- and when it was copied into them. -/
structure Filled (n : ℕ) (s : GrOscopeGuts) : Prop where
  same : s₀.Same s
  obi : s.d_obi.toNat = n % 2048
  held : ∀ ch (m : ℤ), (n : ℤ) - 2047 ≤ m → m ≤ n →
    s.d_buffer ch (m % 2048) = s₀.signal inputs ch m

/-- The state after `k` samples of which `n` were not left out by the decimation. -/
structure Tracks (k n : ℕ) (s : GrOscopeGuts) : Prop extends Window s₀ inputs n s where
  phase : ∃ r : ℕ, k + s₀.decimation = n * s₀.decimation + r ∧ 1 ≤ r ∧ r ≤ s₀.decimation ∧
    max s.d_decimator_count 1 = s₀.decimation + 1 - r
  indices : ∀ j ∈ s.indices, 0 ≤ j ∧ j < outputRecordSize
  waits : s.d_state = .postTrigger → 1 ≤ s.d_post_trigger_count ∧
    ∃ m : ℕ, s₀.StartedAt inputs (m * s₀.decimation) k ∧
      s₀.Triggers (s₀.after inputs (m * s₀.decimation)).d_pre_trigger_count
        (s₀.triggerSignal inputs (m - 1)) (s₀.triggerSignal inputs m) s.d_trigger_off
        (s.d_post_trigger_count + n - m - 1)

variable {s₀ inputs}

variable {k n : ℕ} {s : GrOscopeGuts}

theorem after_succ (inside : k < inputs.length) : s₀.after inputs (k + 1) =
    (s₀.after inputs k).processSample inputs[k].1 inputs[k].2 := by
  rw [after, run, List.take_succ_eq_append_getElem inside, List.foldl_append]
  rfl

theorem SetUp.tracks (setUp : s₀.SetUp) : s₀.Tracks inputs 0 0 (s₀.after inputs 0) := by
  have positive := setUp.decimation
  have size : (outputRecordSize : ℤ) = 2048 := rfl
  refine ⟨⟨⟨rfl, rfl, rfl, rfl, rfl, rfl, rfl⟩, ?_, ?_⟩, ⟨s₀.decimation, ?_⟩, setUp.indices, ?_⟩
  · exact congrArg BitVec.toNat setUp.obi
  · intro ch m _ before
    rw [signal, if_neg (by omega)]
    exact setUp.empty ch (m % 2048) (by omega) (by omega)
  · have count : (s₀.after inputs 0).d_decimator_count = 0 := setUp.decimator
    rw [count, GrOscopeGuts.decimation]
    omega
  · intro waits
    exact absurd waits setUp.state

/-- What a sample does to the scope after the samples before it. -/
structure Steps (s₀ : GrOscopeGuts) (inputs : OscopeInputs) (k : ℕ) : Prop where
  tracks : ∃ n, s₀.Tracks inputs (k + 1) n (s₀.after inputs (k + 1))
  records : ∃ rs, (s₀.after inputs (k + 1)).sent = (s₀.after inputs k).sent ++ rs ∧
    ∀ r ∈ rs, ∃ n, k = n * s₀.decimation ∧ s₀.TrueRecord inputs n r

theorem StartedAt.succ {j : ℕ} (started : s₀.StartedAt inputs j k)
    (waits : (s₀.after inputs (k + 1)).d_state = .postTrigger) : s₀.StartedAt inputs j (k + 1) := by
  refine ⟨started.1, fun i later before => ?_⟩
  rcases Nat.lt_or_eq_of_le before with earlier | last
  · exact started.2 i later (by omega)
  · rw [last]
    exact waits

theorem Tracks.skip (tracks : s₀.Tracks inputs k n (s₀.after inputs k)) (inside : k < inputs.length)
    (skipped : 1 < (s₀.after inputs k).d_decimator_count) : s₀.Steps inputs k := by
  have next : s₀.after inputs (k + 1) = { s₀.after inputs k with
      d_decimator_count := (s₀.after inputs k).d_decimator_count - 1 } := by
    rw [after_succ inside, processSample]
    dsimp only
    rw [if_pos (by omega)]
  refine ⟨⟨n, ?_⟩, [], ?_, ?_⟩
  · have waits : (s₀.after inputs (k + 1)).d_state = (s₀.after inputs k).d_state := by rw [next]
    obtain ⟨r, place, least, most, count⟩ := tracks.phase
    have started := tracks.waits
    rw [next] at waits ⊢
    refine ⟨⟨tracks.same.trans ⟨rfl, rfl, rfl, rfl, rfl, rfl, rfl⟩, tracks.obi, tracks.held⟩,
      ⟨r + 1, ?_⟩, tracks.indices, ?_⟩
    · dsimp only
      omega
    · intro state
      obtain ⟨positive, m, started, triggered⟩ := tracks.waits state
      refine ⟨positive, m, started.succ ?_, triggered⟩
      rw [next]
      exact state
  · rw [next, List.append_nil]
  · intro r member
    cases member

theorem toInt_obi (obi : s.d_obi.toNat = n % 2048) : s.d_obi.toInt = (n : ℤ) % 2048 := by
  rw [BitVec.toInt_eq_toNat_of_lt (by omega), obi]
  omega

theorem Window.copyData (window : s₀.Window inputs n s) (inside : k < inputs.length)
    (here : k = n * s₀.decimation) : s₀.Filled inputs n (s.copyData inputs[k].1) := by
  have index := toInt_obi window.obi
  rw [copyData_eq]
  refine ⟨window.same.trans ⟨rfl, rfl, rfl, rfl, rfl, rfl, rfl⟩, window.obi, ?_⟩
  intro ch m least most
  dsimp only
  rw [index, window.same.nchannels]
  by_cases last : m = n
  · by_cases channel : ch < s₀.d_nchannels
    · rw [if_pos ⟨channel, by rw [last]⟩, last, signal, if_pos ⟨channel, by omega⟩,
        Int.toNat_natCast, ← here, List.getElem?_eq_getElem inside]
      rfl
    · have back : (n : ℤ) % 2048 = ((n : ℤ) - 2048) % 2048 := by omega
      rw [if_neg (fun both => channel both.1), last, back, window.held ch _ (by omega) (by omega),
        signal, signal, if_neg (fun both => channel both.1), if_neg (fun both => channel both.1)]
  · rw [if_neg (by omega)]
    exact window.held ch m (by omega) (by omega)

namespace Filled

variable {n : ℕ} {s t : GrOscopeGuts} (filled : s₀.Filled inputs n s)

include filled

theorem frame (kept : s.Frame t) : s₀.Filled inputs n t := by
  refine ⟨filled.same.trans kept.same, ?_, ?_⟩
  · rw [kept.obi]
    exact filled.obi
  · rw [kept.buffer]
    exact filled.held

theorem window : s₀.Window inputs (n + 1) { s with d_obi := incrBi s.d_obi } := by
  refine ⟨filled.same.trans ⟨rfl, rfl, rfl, rfl, rfl, rfl, rfl⟩, ?_, ?_⟩
  · have low : (wrapBi (s.d_obi + 1#32)).toNat = (s.d_obi + 1#32).toNat % 2048 :=
      toNat_and_low _ (p := BitVec.ofNat 32 outputRecordSize) (k := 11) rfl
    have obi := filled.obi
    dsimp only
    rw [incrBi, low, BitVec.toNat_add, obi, show (1#32).toNat = 1 from rfl]
    omega
  · intro ch m least before
    exact filled.held ch m (by omega) (by omega)

theorem samples : s.d_buffer s.d_trigger_channel (decrBi s.d_obi).toInt =
      s₀.triggerSignal inputs (n - 1) ∧
    s.d_buffer s.d_trigger_channel s.d_obi.toInt = s₀.triggerSignal inputs n := by
  have obi := filled.obi
  have prev : (decrBi s.d_obi).toInt = ((n : ℤ) - 1) % 2048 := by
    rw [decrBi, toInt_wrapBi, BitVec.toNat_sub, show (1#32).toNat = 1 from rfl, obi]
    omega
  rw [prev, toInt_obi obi, filled.same.channel]
  exact ⟨filled.held _ _ (by omega) (by omega), filled.held _ _ (by omega) (by omega)⟩

theorem records : s.outputRecords.records = (List.range s₀.d_nchannels).map fun ch =>
    (List.range outputRecordSize).map fun i : ℕ => s₀.signal inputs ch ((n : ℤ) - 2047 + i) := by
  have obi := filled.obi
  dsimp only [outputRecords]
  rw [filled.same.nchannels]
  apply List.map_congr_left
  intro ch _
  apply List.map_congr_left
  intro i member
  have inside : i < 2048 := List.mem_range.mp member
  have index : s.recordIndex i = ((n : ℤ) - 2047 + i) % 2048 := by
    rw [recordIndex, toInt_wrapBi, BitVec.toNat_add, BitVec.toNat_add, obi,
      show (1#32).toNat = 1 from rfl, BitVec.toNat_ofNat]
    omega
  rw [index]
  exact filled.held ch _ (by omega) (by omega)

end Filled

theorem Filled.trueRecord (filled : s₀.Filled inputs n s)
    (last : s.d_post_trigger_count = 1) {m : ℕ}
    (started : s₀.StartedAt inputs (m * s₀.decimation) (n * s₀.decimation))
    (triggers : s₀.Triggers (s₀.after inputs (m * s₀.decimation)).d_pre_trigger_count
      (s₀.triggerSignal inputs (m - 1)) (s₀.triggerSignal inputs m) s.d_trigger_off
      (s.d_post_trigger_count + n - m - 1)) : s₀.TrueRecord inputs n s.outputRecords := by
  refine ⟨filled.same.nchannels, rfl, filled.records, m, started, ?_⟩
  rcases triggers with free | timeout | ⟨crosses, half, place⟩
  · exact Or.inl free
  · exact Or.inr (Or.inl timeout)
  · refine Or.inr (Or.inr ⟨crosses, ?_, half⟩)
    rw [crossingPoint, place, last]
    change _ = 1023 + s.d_trigger_off
    push_cast
    ring

/-- The scope when a sample was copied into its buffers: it differs in nothing else. -/
structure Copied (s₀ : GrOscopeGuts) (inputs : OscopeInputs) (k n : ℕ) (w : GrOscopeGuts) :
    Prop where
  filled : s₀.Filled inputs n w
  decimator : w.d_decimator_count = s₀.d_decimator_count_init
  state : w.d_state = (s₀.after inputs k).d_state
  pre : w.d_pre_trigger_count = (s₀.after inputs k).d_pre_trigger_count
  post : w.d_post_trigger_count = (s₀.after inputs k).d_post_trigger_count
  off : w.d_trigger_off = (s₀.after inputs k).d_trigger_off
  sent : w.sent = (s₀.after inputs k).sent
  indices : ∀ j ∈ w.indices, 0 ≤ j ∧ j < outputRecordSize

theorem Tracks.copied (mode : s₀.d_trigger_mode ≠ .stripchart)
    (tracks : s₀.Tracks inputs k n (s₀.after inputs k)) (inside : k < inputs.length)
    (here : k = n * s₀.decimation) (due : (s₀.after inputs k).d_decimator_count ≤ 1) :
    ∃ w, s₀.Copied inputs k n w ∧ s₀.after inputs (k + 1) =
      { w.advance inputs[k].2 with d_obi := incrBi (w.advance inputs[k].2).d_obi } := by
  have next : s₀.after inputs (k + 1) = { (copyData
        { s₀.after inputs k with d_decimator_count := s₀.d_decimator_count_init }
        inputs[k].1).advance inputs[k].2 with
      d_obi := incrBi ((copyData
        { s₀.after inputs k with d_decimator_count := s₀.d_decimator_count_init }
        inputs[k].1).advance inputs[k].2).d_obi } := by
    rw [after_succ inside, processSample]
    dsimp only
    rw [if_neg (by omega), if_pos (by rw [tracks.same.mode]; exact mode), tracks.same.decimation]
  refine ⟨_, ?_, next⟩
  have window : s₀.Window inputs n
      { s₀.after inputs k with d_decimator_count := s₀.d_decimator_count_init } :=
    ⟨tracks.same.trans ⟨rfl, rfl, rfl, rfl, rfl, rfl, rfl⟩, tracks.obi, tracks.held⟩
  refine ⟨window.copyData inside here, ?_, ?_, ?_, ?_, ?_, ?_, ?_⟩
  all_goals rw [copyData_eq]
  intro j member
  rcases List.mem_append.mp member with before | new
  · exact tracks.indices j before
  · have obi := toInt_obi tracks.obi
    have size : (outputRecordSize : ℤ) = 2048 := rfl
    rw [List.eq_of_mem_replicate new]
    dsimp only
    omega

theorem Tracks.tick (mode : s₀.d_trigger_mode ≠ .stripchart) (setUp : s₀.SetUp)
    (tracks : s₀.Tracks inputs k n (s₀.after inputs k)) (inside : k < inputs.length)
    (due : (s₀.after inputs k).d_decimator_count ≤ 1) : s₀.Steps inputs k := by
  obtain ⟨r, place, least, most, count⟩ := tracks.phase
  have here : k = n * s₀.decimation := by omega
  have rounds : (n + 1) * s₀.decimation = n * s₀.decimation + s₀.decimation := Nat.succ_mul _ _
  have positive : (s₀.decimation : ℤ) = s₀.d_decimator_count_init :=
    Int.toNat_of_nonneg (le_of_lt setUp.decimation)
  obtain ⟨w, copied, next⟩ := tracks.copied mode inside here due
  have frame := frame_advance w inputs[k].2
  have filled := copied.filled.frame frame
  have post : w.d_post_trigger_count_init = outputRecordSize / 2 :=
    copied.filled.same.post.trans setUp.post
  -- what every state keeps
  have kept : ∀ rs, (w.advance inputs[k].2).sent = w.sent ++ rs →
      (∀ r ∈ rs, ∃ n, k = n * s₀.decimation ∧ s₀.TrueRecord inputs n r) →
      ((w.advance inputs[k].2).d_state = .postTrigger →
        1 ≤ (w.advance inputs[k].2).d_post_trigger_count ∧
        ∃ m : ℕ, s₀.StartedAt inputs (m * s₀.decimation) (k + 1) ∧
          s₀.Triggers (s₀.after inputs (m * s₀.decimation)).d_pre_trigger_count
            (s₀.triggerSignal inputs (m - 1)) (s₀.triggerSignal inputs m)
            (w.advance inputs[k].2).d_trigger_off
            ((w.advance inputs[k].2).d_post_trigger_count + n - m)) → s₀.Steps inputs k := by
    intro rs sent true waits
    refine ⟨⟨n + 1, ?_⟩, rs, ?_, true⟩
    · rw [next]
      refine ⟨filled.window, ⟨1, by omega, Nat.le_refl 1, by omega, ?_⟩, ?_, ?_⟩
      · change max (w.advance inputs[k].2).d_decimator_count 1 = _
        rw [frame.decimator, copied.decimator]
        omega
      · obtain ⟨js, indices, within⟩ := frame.indices
        have small := copied.filled.obi
        intro j member
        change j ∈ (w.advance inputs[k].2).indices at member
        rw [indices] at member
        rcases List.mem_append.mp member with before | read
        · exact copied.indices j before
        · exact within (by omega) j read
      · intro state
        obtain ⟨least, m, started, triggers⟩ := waits state
        refine ⟨least, m, started, ?_⟩
        have same : (w.advance inputs[k].2).d_post_trigger_count + n - m =
            (w.advance inputs[k].2).d_post_trigger_count + (n + 1 : ℕ) - m - 1 := by
          push_cast
          ring
        rw [same] at triggers
        exact triggers
    · rw [next]
      dsimp only
      rw [sent, copied.sent]
  have stateNext : (s₀.after inputs (k + 1)).d_state = (w.advance inputs[k].2).d_state := by
    rw [next]
  cases state : w.d_state with
  | holdOff =>
    obtain ⟨idle, sent⟩ := advance_holdOff state inputs[k].2
    refine kept [] (by rw [sent, List.append_nil]) ?_ (fun waits => absurd waits idle)
    intro r member
    cases member
  | lookForTrigger =>
    obtain ⟨sent, triggered⟩ := advance_lookForTrigger state post inputs[k].2
    refine kept [] (by rw [sent, List.append_nil]) ?_ ?_
    · intro r member
      cases member
    · intro waits
      obtain ⟨least, triggers⟩ := triggered waits
      obtain ⟨prev, new⟩ := copied.filled.samples
      have triggers := triggers.of_same copied.filled.same
      rw [prev, new, copied.pre] at triggers
      refine ⟨least, n, ⟨?_, ?_⟩, ?_⟩
      · rw [← here, ← copied.state]
        exact state
      · intro i later before
        obtain rfl : i = k + 1 := by omega
        rw [stateNext]
        exact waits
      · rw [← here, add_sub_cancel_right]
        exact triggers
  | postTrigger =>
    obtain ⟨least, m, started, triggers⟩ := tracks.waits (copied.state ▸ state)
    obtain ⟨goes, ends⟩ := advance_postTrigger state inputs[k].2
    by_cases more : 1 < w.d_post_trigger_count
    · obtain ⟨waits, post, off, sent⟩ := goes more
      refine kept [] (by rw [sent, List.append_nil]) ?_ ?_
      · intro r member
        cases member
      · intro _
        refine ⟨by omega, m, started.succ (stateNext.trans waits), ?_⟩
        have same : (w.advance inputs[k].2).d_post_trigger_count + n - m =
            (s₀.after inputs k).d_post_trigger_count + n - m - 1 := by
          rw [post, copied.post]
          ring
        rw [off, same, copied.off]
        exact triggers
    · obtain ⟨idle, sent⟩ := ends (by omega)
      refine kept _ sent ?_ ?_
      · intro r member
        have record : r = w.outputRecords := by
          cases full : inputs[k].2 with
          | true =>
            rw [full] at member
            cases member
          | false =>
            rw [full] at member
            exact List.mem_singleton.mp member
        rw [record]
        rw [← copied.off, ← copied.post] at triggers
        have least := copied.post ▸ least
        exact ⟨n, here, copied.filled.trueRecord (by omega) (here ▸ started) triggers⟩
      · intro waits
        rw [idle] at waits
        cases waits

theorem tracks_after (mode : s₀.d_trigger_mode ≠ .stripchart) (setUp : s₀.SetUp)
    (inside : k ≤ inputs.length) : ∃ n, s₀.Tracks inputs k n (s₀.after inputs k) := by
  induction k with
  | zero => exact ⟨0, setUp.tracks⟩
  | succ k ih =>
    obtain ⟨n, tracks⟩ := ih (by omega)
    by_cases skipped : 1 < (s₀.after inputs k).d_decimator_count
    · exact (tracks.skip inside skipped).tracks
    · exact (tracks.tick mode setUp inside (by omega)).tracks

theorem SetUp.trueWindows (setUp : s₀.SetUp) (mode : s₀.d_trigger_mode ≠ .stripchart) :
    s₀.TrueWindows inputs := by
  refine ⟨?_, ?_⟩
  · obtain ⟨n, tracks⟩ := tracks_after mode setUp (Nat.le_refl inputs.length)
    have indices := tracks.indices
    rw [after, List.take_length] at indices
    exact indices
  · intro k inside
    obtain ⟨n, tracks⟩ := tracks_after mode setUp (le_of_lt inside)
    by_cases skipped : 1 < (s₀.after inputs k).d_decimator_count
    · exact (tracks.skip inside skipped).records
    · exact (tracks.tick mode setUp inside (by omega)).records

end

/-! ## The strip chart -/

theorem shift_indices (ch : ℕ) (l : List ℕ) (s : GrOscopeGuts) :
    (∀ j ∈ s.indices, j ∈ (l.foldl (fun s (j : ℕ) =>
      (s.touch [(j : ℤ) - 1]).store ch j (s.d_buffer ch ((j : ℤ) - 1))) s).indices) ∧
    ∀ i ∈ l, (i : ℤ) - 1 ∈ (l.foldl (fun s (j : ℕ) =>
      (s.touch [(j : ℤ) - 1]).store ch j (s.d_buffer ch ((j : ℤ) - 1))) s).indices := by
  induction l generalizing s with
  | nil =>
    refine ⟨fun j member => member, ?_⟩
    intro i member
    cases member
  | cons i l ih =>
    obtain ⟨kept, joined⟩ := ih ((s.touch [(i : ℤ) - 1]).store ch i (s.d_buffer ch ((i : ℤ) - 1)))
    rw [List.foldl_cons]
    refine ⟨fun j member => kept j ?_, ?_⟩
    · exact List.mem_append_left _ (List.mem_append_left _ member)
    · intro j member
      rcases List.mem_cons.mp member with first | later
      · apply kept
        rw [first]
        exact List.mem_append_left _ (List.mem_append_right _ List.mem_cons_self)
      · exact joined j later

theorem shiftData_indices (channel_data : ℕ → ℚ) (l : List ℕ) (s : GrOscopeGuts) :
    (∀ j ∈ s.indices, j ∈ (l.foldl (fun s i =>
      (s.shiftBuffer i).store i 0 (channel_data i)) s).indices) ∧
    (l ≠ [] → -1 ∈ (l.foldl (fun s i =>
      (s.shiftBuffer i).store i 0 (channel_data i)) s).indices) := by
  induction l generalizing s with
  | nil => exact ⟨fun j member => member, fun more => absurd rfl more⟩
  | cons i l ih =>
    obtain ⟨kept, _⟩ := ih ((s.shiftBuffer i).store i 0 (channel_data i))
    obtain ⟨before, joined⟩ := shift_indices i (List.range outputRecordSize).reverse s
    rw [List.foldl_cons]
    refine ⟨fun j member => kept j (List.mem_append_left _ (before j member)), fun _ => ?_⟩
    have first := joined 0 (List.mem_reverse.mpr (List.mem_range.mpr (by decide)))
    exact kept (-1) (List.mem_append_left _ first)

theorem processSample_indices (s : GrOscopeGuts) (channel_data : ℕ → ℚ) (full_p : Bool) {j : ℤ}
    (member : j ∈ s.indices) : j ∈ (s.processSample channel_data full_p).indices := by
  rw [processSample]
  dsimp only
  split
  · exact member
  · split
    · obtain ⟨js, indices, _⟩ := (frame_advance (copyData
        { s with d_decimator_count := s.d_decimator_count_init } channel_data) full_p).indices
      dsimp only
      rw [indices, copyData_eq]
      exact List.mem_append_left _ (List.mem_append_left _ member)
    · obtain ⟨js, indices, _⟩ := (frame_writeOutputRecords (shiftData
        { s with d_decimator_count := s.d_decimator_count_init } channel_data) full_p).indices
      rw [indices]
      exact List.mem_append_left _ ((shiftData_indices channel_data _ _).1 j member)

theorem run_indices (s : GrOscopeGuts) (inputs : OscopeInputs) {j : ℤ} (member : j ∈ s.indices) :
    j ∈ (s.run inputs).indices := by
  induction inputs generalizing s with
  | nil => exact member
  | cons input inputs ih => exact ih _ (processSample_indices s input.1 input.2 member)

theorem SetUp.stripchart (setUp : s.SetUp) (mode : s.d_trigger_mode = .stripchart)
    {inputs : OscopeInputs} (given : inputs ≠ []) : ¬s.TrueWindows inputs := by
  intro windows
  cases inputs with
  | nil => exact given rfl
  | cons input inputs =>
    have before : -1 ∈ (s.processSample input.1 input.2).indices := by
      rw [processSample]
      dsimp only
      rw [if_neg (by rw [setUp.decimator]; decide), if_neg (not_not_intro mode)]
      obtain ⟨js, indices, _⟩ := (frame_writeOutputRecords (shiftData
        { s with d_decimator_count := s.d_decimator_count_init } input.1) input.2).indices
      rw [indices]
      refine List.mem_append_left _ ((shiftData_indices input.1 _ _).2 ?_)
      rw [Ne, List.range_eq_nil]
      exact Nat.ne_of_gt setUp.nchannels
    obtain ⟨positive, _⟩ := windows.inside (-1) (run_indices _ inputs before)
    exact absurd positive (by decide)

/-! ## Settings -/

theorem setUp_new (sample_rate : ℚ) (memory : ℕ → ℤ → ℚ) (trigger_off : ℚ) :
    (new sample_rate memory trigger_off).SetUp where
  nchannels := Nat.one_pos
  decimation := Int.one_pos
  decimator := rfl
  post := rfl
  obi := rfl
  empty := fun _ _ least most => if_pos ⟨least, most⟩
  state := ScopeState.noConfusion
  indices := fun _ member => absurd member List.not_mem_nil

theorem SetUp.lookForTrigger (setUp : s.SetUp) : s.enterLookForTrigger.SetUp :=
  ⟨setUp.nchannels, setUp.decimation, setUp.decimator, setUp.post, setUp.obi, setUp.empty,
    ScopeState.noConfusion, setUp.indices⟩

theorem SetUp.set (setUp : s.SetUp) (setting : OscopeSetting) : (s.set setting).SetUp := by
  obtain ⟨nchannels, decimation, decimator, post, obi, empty, state, indices⟩ := setUp
  cases setting with
  | updateRate => exact ⟨nchannels, decimation, decimator, post, obi, empty, state, indices⟩
  | decimationCount =>
    exact ⟨nchannels, lt_of_lt_of_le Int.one_pos (le_max_left _ _), decimator, post, obi, empty,
      state, indices⟩
  | sampleRate => exact ⟨nchannels, decimation, decimator, post, obi, empty, state, indices⟩
  | triggerChannel channel =>
    rw [GrOscopeGuts.set]
    split
    · exact lookForTrigger ⟨nchannels, decimation, decimator, post, obi, empty, state, indices⟩
    · exact ⟨nchannels, decimation, decimator, post, obi, empty, state, indices⟩
  | triggerMode =>
    exact lookForTrigger ⟨nchannels, decimation, decimator, post, obi, empty, state, indices⟩
  | triggerSlope =>
    exact lookForTrigger ⟨nchannels, decimation, decimator, post, obi, empty, state, indices⟩
  | triggerLevel =>
    exact lookForTrigger ⟨nchannels, decimation, decimator, post, obi, empty, state, indices⟩
  | triggerLevelAuto =>
    refine lookForTrigger ⟨nchannels, decimation, decimator, post, obi, empty, state, ?_⟩
    intro j member
    rcases List.mem_append.mp member with before | read
    · exact indices j before
    · obtain ⟨i, inside, rfl⟩ := List.mem_map.mp read
      have small := List.mem_range.mp inside
      omega
  | numChannels channels =>
    rw [GrOscopeGuts.set]
    split
    · exact ⟨by dsimp only; omega, decimation, decimator, post, obi, empty, state, indices⟩
    · exact ⟨nchannels, decimation, decimator, post, obi, empty, state, indices⟩

theorem SetUp.settings (setUp : s.SetUp) (settings : List OscopeSetting) :
    (settings.foldl GrOscopeGuts.set s).SetUp := by
  induction settings generalizing s with
  | nil => exact setUp
  | cons setting settings ih => exact ih (setUp.set setting)

/-- Whatever the scope is set to, its records are windows of the signal with the crossing in their
middle, and its indices are in the buffers, exactly if it is no strip chart. -/
theorem records_true_iff (sample_rate : ℚ) (memory : ℕ → ℤ → ℚ) (trigger_off : ℚ)
    (settings : List OscopeSetting) (inputs : OscopeInputs) :
    (settings.foldl GrOscopeGuts.set (new sample_rate memory trigger_off)).TrueWindows inputs ↔
      (settings.foldl GrOscopeGuts.set (new sample_rate memory trigger_off)).d_trigger_mode ≠
        .stripchart ∨ inputs = [] := by
  have setUp := (setUp_new sample_rate memory trigger_off).settings settings
  constructor
  · intro windows
    by_contra neither
    rw [not_or, not_not] at neither
    exact setUp.stripchart neither.1 neither.2 windows
  · rintro (mode | rfl)
    · exact setUp.trueWindows mode
    · refine ⟨setUp.indices, ?_⟩
      intro k inside
      cases inside

/-- A strip chart of a single sample. -/
theorem stripchart_outside :
    ¬((new 1000 (fun _ _ => 0) 0).set (.triggerMode .stripchart)).TrueWindows
      [(fun _ => 1, false)] :=
  ((setUp_new 1000 _ 0).set _).stripchart rfl (by decide)

end GrOscopeGuts

end GnuRadio
