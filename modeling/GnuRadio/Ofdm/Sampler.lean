import GnuRadio.Misc.Except
import GnuRadio.Runtime.Types
import Mathlib.Algebra.Ring.Nat
import Mathlib.Data.Nat.Find
import Mathlib.Tactic.ByContra

/-!
# The OFDM sampler

`gr_ofdm_sampler` looks for a trigger within the next symbol and cuts a vector of samples out of
its input. It writes down which items of its inputs it reads, so that they can be compared with the
number of items that its `forecast` asks for.
-/

namespace GnuRadio

/-- `state_t` (`gr_ofdm_sampler.h:52`). -/
inductive SamplerState where
  | noSig
  | preamble
  | frame
  deriving DecidableEq, Repr

/-- `gr_ofdm_sampler` (`gr_ofdm_sampler.h:54-58`). -/
structure OfdmSampler where
  state : SamplerState
  timeoutMax : UInt32
  timeout : UInt32
  fftLength : UInt32
  symbolLength : UInt32
  deriving DecidableEq, Repr

namespace OfdmSampler

/-- The constructor (`gr_ofdm_sampler.cc:40-49`). The sizes of its items, a vector of complex
numbers and one of bytes, have to be positive `int`s (larger ones, which the source cuts, are
errors). It leaves `d_timeout` as it finds it. -/
def construct (memory fftLength symbolLength timeout : UInt32) :
    Except CppException OfdmSampler := do
  let size₁ ← asInt (8 * fftLength.toNat)
  let size₂ ← asInt fftLength.toNat
  if size₁ < 1 ∨ size₂ < 1 then throw (.invalidArgument "gr_io_signature(3)")
  pure {
    state := .noSig
    timeoutMax := timeout
    timeout := memory
    fftLength := fftLength
    symbolLength := symbolLength }

/-- `forecast` (`gr_ofdm_sampler.cc:51-60`): the items it asks for on each input. -/
def forecast (d : OfdmSampler) (_noutputItems : Nat) : Except CppException Int :=
  asInt (d.symbolLength + d.fftLength).toNat

/-- The search for a trigger (`gr_ofdm_sampler.cc:83-90`): where it ends, whether one was found, and
the items it reads. It has an end within as many turns as there are indices, or none. -/
def search (limit : UInt32) (trigger : Nat → UInt8) :
    Nat → UInt32 → List Nat → Option (Bool × UInt32 × List Nat)
  | 0, _, _ => none
  | turns + 1, index, read =>
    if index ≤ limit then
      if trigger index.toNat ≠ 0 then some (true, index, read ++ [index.toNat])
      else search limit trigger turns (index + 1) (read ++ [index.toNat])
    else some (false, index, read)

/-- What a call of `general_work` does: the items that it reads of the two inputs, the samples that
it writes, the flag of the item, how many items it consumes and how many it returns. -/
structure Work (γ : Type) where
  sampler : OfdmSampler
  readInput : List Nat
  readTrigger : List Nat
  out : List γ
  outsig : UInt8
  consumed : Nat
  ret : Nat
  deriving DecidableEq

variable {γ : Type}

/-- The end of `general_work`, in the state behind the search (`gr_ofdm_sampler.cc:92-132`). A loop
up to the last index has no end. -/
def finish (d : OfdmSampler) (input : Nat → γ) (index : UInt32) (readTrigger : List Nat)
    (outsig : UInt8) : Option (Work γ) :=
  match d.state with
  | .preamble =>
    if index = 0xffffffff then none
    else
      let first := index - d.fftLength + 1
      let read := List.range' first.toNat (index.toNat + 1 - first.toNat)
      some {
        sampler := { d with
          timeout := d.timeoutMax
          state := .frame }
        readInput := read
        readTrigger
        out := read.map input
        outsig
        consumed := (index - d.fftLength + 1).toNat
        ret := 1 }
  | .frame =>
    let pos := d.symbolLength
    let read := List.range' pos.toNat ((d.symbolLength + d.fftLength).toNat - pos.toNat)
    some {
      sampler := { d with
        state := if d.timeout = 0 then .noSig else d.state
        timeout := d.timeout - 1 }
      readInput := read
      readTrigger
      out := read.map input
      outsig
      consumed := d.symbolLength.toNat
      ret := 1 }
  | .noSig =>
    some {
      sampler := d
      readInput := []
      readTrigger
      out := []
      outsig
      consumed := (index - d.fftLength).toNat
      ret := 0 }

/-- `general_work` (`gr_ofdm_sampler.cc:63-133`) on what lies behind the pointers to the inputs. -/
def generalWork (d : OfdmSampler) (input : Nat → γ) (trigger : Nat → UInt8) : Option (Work γ) :=
  if d.state = .preamble then d.finish input d.fftLength [] 0
  else
    match search (d.symbolLength + d.fftLength) trigger (2 ^ 32) d.fftLength [] with
    | none => none
    | some (true, index, read) => { d with state := .preamble }.finish input index read 1
    | some (false, index, read) => d.finish input index read 0

/-- A call that was given `n` items on each input and room for `noutputItems` vectors stays within
them, and makes progress. -/
structure StaysInside (n noutputItems fftLength : Nat) (w : Work γ) : Prop where
  input : ∀ i ∈ w.readInput, i < n
  trigger : ∀ i ∈ w.readTrigger, i < n
  output : w.out.length ≤ noutputItems * fftLength
  returns : w.ret ≤ noutputItems
  consumes : w.consumed ≤ n
  progress : 1 ≤ w.consumed

/-! ## The search -/

variable {index limit : UInt32} {trigger : Nat → UInt8} {readTrigger : List Nat}
  {noutputItems : Nat} {input : Nat → γ} {w : Work γ}

theorem toNat_succ (less : index.toNat < limit.toNat) : (index + 1).toNat = index.toNat + 1 := by
  have top := limit.toNat_lt
  have one : (1 : UInt32).toNat = 1 := rfl
  rw [UInt32.toNat_add, one, Nat.mod_eq_of_lt (by omega)]

theorem search_found (read : List Nat) (turns : Nat) {j : Nat} (first : index.toNat ≤ j)
    (last : j ≤ limit.toNat) (set : trigger j ≠ 0)
    (clear : ∀ i, index.toNat ≤ i → i < j → trigger i = 0) (enough : j - index.toNat < turns) :
    search limit trigger turns index read =
      some (true, UInt32.ofNat j, read ++ List.range' index.toNat (j + 1 - index.toNat)) := by
  induction turns generalizing index read with
  | zero => cases enough
  | succ turns ih =>
    have within : index ≤ limit := UInt32.le_iff_toNat_le.mpr (Nat.le_trans first last)
    have count : j + 1 - index.toNat = (j - index.toNat) + 1 := by omega
    have rest : j + 1 - (index.toNat + 1) = j - index.toNat := by omega
    rw [search, if_pos within]
    rcases Nat.lt_or_eq_of_le first with later | here
    · have next := toNat_succ (Nat.lt_of_lt_of_le later last)
      have zero := clear index.toNat (Nat.le_refl _) later
      have found := ih (read ++ [index.toNat]) (show (index + 1).toNat ≤ j by omega)
        (fun i low => clear i (by omega)) (by omega)
      rw [if_neg (fun nonzero => nonzero zero), found, next,
        List.append_assoc, rest, count, List.range'_succ, List.singleton_append]
    · rw [here, if_pos set, Nat.add_sub_cancel_left, ← here, UInt32.ofNat_toNat]
      rfl

theorem search_none (index : UInt32) (read : List Nat) (turns : Nat)
    (first : index.toNat ≤ limit.toNat + 1) (below : limit.toNat + 1 < 2 ^ 32)
    (clear : ∀ i, index.toNat ≤ i → i ≤ limit.toNat → trigger i = 0)
    (enough : limit.toNat + 1 - index.toNat < turns) :
    ∃ last, search limit trigger turns index read = some (false, last,
      read ++ List.range' index.toNat (limit.toNat + 1 - index.toNat)) := by
  induction turns generalizing index read with
  | zero => cases enough
  | succ turns ih =>
    rw [search]
    by_cases within : index.toNat ≤ limit.toNat
    · have one : (1 : UInt32).toNat = 1 := rfl
      have next : (index + 1).toNat = index.toNat + 1 := by
        rw [UInt32.toNat_add, one, Nat.mod_eq_of_lt (by omega)]
      have count : limit.toNat + 1 - index.toNat = (limit.toNat - index.toNat) + 1 := by omega
      have rest : limit.toNat + 1 - (index.toNat + 1) = limit.toNat - index.toNat := by omega
      have zero := clear index.toNat (Nat.le_refl _) within
      obtain ⟨last, ends⟩ := ih (index + 1) (read ++ [index.toNat]) (by omega)
        (fun i low => clear i (by omega)) (by omega)
      refine ⟨last, ?_⟩
      rw [if_pos (UInt32.le_iff_toNat_le.mpr within), if_neg (fun nonzero => nonzero zero), ends,
        next, List.append_assoc, rest, count, List.range'_succ, List.singleton_append]
    · have none : limit.toNat + 1 - index.toNat = 0 := by omega
      refine ⟨index, ?_⟩
      rw [if_neg (fun less => within (UInt32.le_iff_toNat_le.mp less)), none, List.range'_zero,
        List.append_nil]

/-! ## One call -/

variable {d : OfdmSampler}

theorem toNat_limit (d : OfdmSampler) (fits : d.symbolLength.toNat + d.fftLength.toNat < 2 ^ 32) :
    (d.symbolLength + d.fftLength).toNat = d.symbolLength.toNat + d.fftLength.toNat := by
  rw [UInt32.toNat_add, Nat.mod_eq_of_lt fits]

theorem finish_preamble (input : Nat → γ) (outsig : UInt8) {n j : Nat} (here : d.state = .preamble)
    (first : d.fftLength.toNat ≤ j) (positive : 1 ≤ d.fftLength.toNat) (inside : j < n)
    (small : n < 2 ^ 31) (room : 0 < noutputItems) (read : ∀ i ∈ readTrigger, i < n) :
    ∃ w, d.finish input (UInt32.ofNat j) readTrigger outsig = some w ∧
      StaysInside n noutputItems d.fftLength.toNat w := by
  have index : (UInt32.ofNat j).toNat = j := by
    rw [UInt32.toNat_ofNat']
    omega
  have bound : UInt32.ofNat j ≠ 0xffffffff := by
    intro equal
    have top := congrArg UInt32.toNat equal
    rw [index] at top
    have value : (0xffffffff : UInt32).toNat = 2 ^ 32 - 1 := rfl
    omega
  have back : (UInt32.ofNat j - d.fftLength).toNat = j - d.fftLength.toNat := by
    rw [UInt32.toNat_sub_of_le _ _ (UInt32.le_iff_toNat_le.mpr (by rw [index]; exact first)), index]
  have start : (UInt32.ofNat j - d.fftLength + 1).toNat = j - d.fftLength.toNat + 1 := by
    have one : (1 : UInt32).toNat = 1 := rfl
    rw [UInt32.toNat_add, back, one, Nat.mod_eq_of_lt (by omega)]
  have count : j + 1 - (j - d.fftLength.toNat + 1) = d.fftLength.toNat := by omega
  refine ⟨_, by rw [finish, here]; exact if_neg bound, ?_⟩
  rw [start, index, count]
  constructor
  · intro i member
    have within := (List.mem_range'_1.mp member).2
    omega
  · exact read
  · rw [List.length_map, List.length_range']
    exact Nat.le_mul_of_pos_left _ room
  · exact room
  · dsimp only
    omega
  · dsimp only
    omega

theorem readTrigger_finish {outsig : UInt8}
    (ends : d.finish input index readTrigger outsig = some w) : w.readTrigger = readTrigger := by
  unfold finish at ends
  split at ends
  · split at ends
    · cases ends
    · cases ends
      rfl
  · cases ends
    rfl
  · cases ends
    rfl

theorem construct_ok {memory fftLength symbolLength timeout : UInt32} {made : OfdmSampler}
    (ok : construct memory fftLength symbolLength timeout = .ok made) :
    1 ≤ fftLength.toNat ∧ 8 * fftLength.toNat ≤ intMax := by
  obtain ⟨size₁, fits₁, rest⟩ := bind_ok.mp ok
  obtain ⟨size₂, fits₂, rest⟩ := bind_ok.mp rest
  obtain ⟨rfl, -, most⟩ := asInt_ok fits₁
  obtain ⟨rfl, -, -⟩ := asInt_ok fits₂
  unfold intMax
  by_cases bad : (8 * fftLength.toNat : Int) < 1 ∨ (fftLength.toNat : Int) < 1
  · rw [if_pos bad] at rest
    cases rest
  · omega

theorem search_beyond {first : UInt32}
    (below : first.toNat ≤ limit.toNat) (small : limit.toNat < 2 ^ 31)
    (clear : ∀ j, first.toNat ≤ j → j < limit.toNat → trigger j = 0) :
    ∃ found index read, search limit trigger (2 ^ 32) first [] = some (found, index, read) ∧
      limit.toNat ∈ read := by
  by_cases set : trigger limit.toNat = 0
  · have all : ∀ i, first.toNat ≤ i → i ≤ limit.toNat → trigger i = 0 := by
      intro i low high
      rcases Nat.lt_or_eq_of_le high with inside | rfl
      · exact clear i low inside
      · exact set
    obtain ⟨last, ends⟩ :=
      search_none first [] (2 ^ 32) (Nat.le_succ_of_le below) (by omega) all (by omega)
    refine ⟨_, _, _, ends, ?_⟩
    rw [List.nil_append, List.mem_range'_1]
    omega
  · refine ⟨_, _, _, search_found [] (2 ^ 32) below (Nat.le_refl _) set clear (by omega), ?_⟩
    rw [List.nil_append, List.mem_range'_1]
    omega

theorem staysInside_wrapped (positive : 1 ≤ d.fftLength.toNat)
    (small : 8 * d.fftLength.toNat ≤ 2147483647)
    (wraps : 2 ^ 32 ≤ d.symbolLength.toNat + d.fftLength.toNat)
    (works : d.generalWork input trigger = some w) :
    ¬StaysInside (d.symbolLength + d.fftLength).toNat noutputItems d.fftLength.toNat w := by
  intro inside
  have word := d.symbolLength.toNat_lt
  have limit : (d.symbolLength + d.fftLength).toNat =
      d.symbolLength.toNat + d.fftLength.toNat - 2 ^ 32 := by
    rw [UInt32.toNat_add, Nat.mod_eq_sub_mod wraps, Nat.mod_eq_of_lt (by omega)]
  rw [limit] at inside
  have beyond : ¬d.fftLength ≤ d.symbolLength + d.fftLength := by
    rw [UInt32.le_iff_toNat_le, limit]
    omega
  have none : search (d.symbolLength + d.fftLength) trigger (2 ^ 32) d.fftLength [] =
      some (false, d.fftLength, []) := by
    have turns : 2 ^ 32 = 4294967295 + 1 := rfl
    rw [turns, search, if_neg beyond]
  unfold generalWork at works
  rw [none] at works
  cases start : d.state with
  | preamble =>
    have bound : d.fftLength ≠ 0xffffffff := by
      intro equal
      rw [equal] at small
      revert small
      decide
    have first : (d.fftLength - d.fftLength + 1).toNat = 1 := by
      rw [UInt32.sub_self]
      rfl
    rw [if_pos start, finish, start] at works
    simp only [if_neg bound, first] at works
    obtain rfl := Option.some.inj works
    have last := inside.input d.fftLength.toNat (List.mem_range'_1.mpr ⟨positive, by omega⟩)
    omega
  | frame =>
    rw [if_neg (by rw [start]; decide)] at works
    dsimp only at works
    rw [finish, start] at works
    cases works
    have most := inside.consumes
    dsimp only at most
    omega
  | noSig =>
    rw [if_neg (by rw [start]; decide)] at works
    dsimp only at works
    rw [finish, start] at works
    cases works
    have least := inside.progress
    dsimp only at least
    rw [UInt32.sub_self] at least
    cases least

/-- **A call that is given what `forecast` asks for stays inside and makes progress just when a
trigger ends its search before the last turn, or there is no search.** -/
theorem staysInside_iff {memory timeoutMax : UInt32} {made d : OfdmSampler} {noutputItems : Nat}
    (ok : construct memory d.fftLength d.symbolLength timeoutMax = .ok made)
    (long : d.fftLength ≤ d.symbolLength) (room : 0 < noutputItems) (input : Nat → γ)
    (trigger : Nat → UInt8) :
    (∃ n w, d.forecast noutputItems = .ok n ∧ d.generalWork input trigger = some w ∧
      StaysInside n.toNat noutputItems d.fftLength.toNat w) ↔
        d.symbolLength.toNat + d.fftLength.toNat < 2 ^ 31 ∧
          (d.state = .preamble ∨ ∃ j, d.fftLength.toNat ≤ j ∧
            j < d.symbolLength.toNat + d.fftLength.toNat ∧ trigger j ≠ 0) := by
  obtain ⟨positive, small⟩ := construct_ok ok
  have longer := UInt32.le_iff_toNat_le.mp long
  unfold intMax at small
  constructor
  · rintro ⟨n, w, asked, works, inside⟩
    obtain ⟨rfl, -, most⟩ := asInt_ok asked
    rw [Int.toNat_natCast] at inside
    have whole : d.symbolLength.toNat + d.fftLength.toNat < 2 ^ 32 := by
      by_contra wraps
      exact absurd inside (staysInside_wrapped positive small (Nat.le_of_not_lt wraps) works)
    rw [toNat_limit d whole] at inside most
    refine ⟨by omega, ?_⟩
    by_cases start : d.state = .preamble
    · exact Or.inl start
    · right
      by_contra none
      have clear : ∀ j, d.fftLength.toNat ≤ j → j < (d.symbolLength + d.fftLength).toNat →
          trigger j = 0 := by
        intro j low high
        by_contra set
        rw [toNat_limit d whole] at high
        exact none ⟨j, low, high, set⟩
      obtain ⟨found, index, read, searched, member⟩ := search_beyond
        (by rw [toNat_limit d whole]; omega) (by rw [toNat_limit d whole]; omega) clear
      rw [toNat_limit d whole] at member
      have reads : w.readTrigger = read := by
        rw [generalWork, if_neg start, searched] at works
        cases found with
        | true => exact readTrigger_finish works
        | false => exact readTrigger_finish works
      have bound := inside.trigger _ (reads ▸ member)
      omega
  · rintro ⟨fits, found⟩
    have limit := toNat_limit d (by omega)
    have asked : d.forecast noutputItems =
        .ok ((d.symbolLength.toNat + d.fftLength.toNat : Nat) : Int) := by
      rw [forecast, limit]
      exact if_pos ⟨by omega, by omega⟩
    by_cases start : d.state = .preamble
    · have none : ∀ i ∈ ([] : List Nat), i < d.symbolLength.toNat + d.fftLength.toNat := by
        intro i member
        cases member
      obtain ⟨w, works, inside⟩ := finish_preamble input 0 start (Nat.le_refl _) positive
        (show d.fftLength.toNat < d.symbolLength.toNat + d.fftLength.toNat by omega) fits room none
      rw [UInt32.ofNat_toNat] at works
      exact ⟨_, w, asked, by rw [generalWork, if_pos start, works], inside⟩
    · have some : ∃ j, d.fftLength.toNat ≤ j ∧
          j < d.symbolLength.toNat + d.fftLength.toNat ∧ trigger j ≠ 0 :=
        found.resolve_left start
      obtain ⟨low, high, set⟩ := Nat.find_spec some
      have clear : ∀ i, d.fftLength.toNat ≤ i → i < Nat.find some → trigger i = 0 := by
        intro i least less
        by_contra earlier
        exact Nat.find_min some less ⟨least, by omega, earlier⟩
      have within : Nat.find some ≤ (d.symbolLength + d.fftLength).toNat := by
        rw [limit]
        omega
      have searched : search (d.symbolLength + d.fftLength) trigger (2 ^ 32) d.fftLength [] = _ :=
        search_found [] (2 ^ 32) low within set clear (by omega)
      have read : ∀ i ∈ [] ++ List.range' d.fftLength.toNat
          (Nat.find some + 1 - d.fftLength.toNat),
          i < d.symbolLength.toNat + d.fftLength.toNat := by
        intro i member
        rw [List.nil_append, List.mem_range'_1] at member
        omega
      have here : ({ d with state := .preamble } : OfdmSampler).state = .preamble := rfl
      obtain ⟨w, works, inside⟩ := finish_preamble input 1 here low positive high fits room read
      refine ⟨_, w, asked, ?_, inside⟩
      rw [generalWork, if_neg start, searched]
      exact works

/-- A trigger at the first index that is looked at. -/
theorem staysInside_trigger :
    ∃ n w, (OfdmSampler.mk .noSig 4 0 1 1).forecast 2 = .ok n ∧
      (OfdmSampler.mk .noSig 4 0 1 1).generalWork (fun i => i) (fun i => if i = 1 then 1 else 0) =
        some w ∧ StaysInside n.toNat 2 1 w :=
  (staysInside_iff (d := OfdmSampler.mk .noSig 4 0 1 1)
    (show construct 0 1 1 4 = .ok (OfdmSampler.mk .noSig 4 0 1 1) from rfl) (by decide) (by decide)
    (fun i => i) (fun i => if i = 1 then 1 else 0)).mpr
    ⟨by decide, Or.inr ⟨1, by decide, by decide, by decide⟩⟩

/-- Symbols of one sample and no trigger: the third of two flags is read. -/
theorem reads_behind_forecast :
    construct 0 1 1 4 = .ok (OfdmSampler.mk .noSig 4 0 1 1) ∧
      ¬∃ n w, (OfdmSampler.mk .noSig 4 0 1 1).forecast 2 = .ok n ∧
        (OfdmSampler.mk .noSig 4 0 1 1).generalWork (fun i => i) (fun _ => 0) = some w ∧
        StaysInside n.toNat 2 1 w := by
  constructor
  · rfl
  · rintro ⟨n, w, asked, works, inside⟩
    have two : n = 2 := by
      cases asked
      rfl
    have read : w.readTrigger = [1, 2] := by
      cases works
      rfl
    have bound := inside.trigger 2 (by rw [read]; decide)
    rw [two] at bound
    exact absurd bound (by decide)

end OfdmSampler

end GnuRadio
