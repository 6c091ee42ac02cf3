import GnuRadio.Misc.Double
import GnuRadio.Runtime.Types

/-!
# Blocks and their signatures

What the runtime reads of a block: the data of `gr_basic_block`, and for a leaf
of the hierarchy the data and virtual functions of `gr_block`. A block that is
not a `gr_block` is a hierarchical one.
-/

namespace GnuRadio

/-- `gr_io_signature`; the constructor checks are its invariant (`gr_io_signature.cc:77-97`). -/
structure IoSignature where
  minStreams : Int
  /-- `IO_INFINITE` is `-1`. -/
  maxStreams : Int
  sizeofStreamItems : List Int
  min_nonneg : 0 ≤ minStreams
  min_le : maxStreams = -1 ∨ minStreams ≤ maxStreams
  items_ne : sizeofStreamItems ≠ []
  items_pos : maxStreams ≠ 0 → ∀ size ∈ sizeofStreamItems, 1 ≤ size

/-- `gr_io_signature::sizeof_stream_item` (`gr_io_signature.cc:103-111`): the last
size stands for all further streams. -/
def IoSignature.sizeofStreamItem (sig : IoSignature) (index : Int) : Except CppException Int :=
  if index < 0 then .error (.invalidArgument "gr_io_signature::sizeof_stream_item")
  else .ok (sig.sizeofStreamItems.getD
    (min index.toNat (sig.sizeofStreamItems.length - 1)) 0)

/-- `gr_make_io_signature(streams, streams, size)` (`gr_io_signature.cc:38-45`). -/
def IoSignature.fixed (streams size : Nat) (pos : 0 < size) : IoSignature where
  minStreams := streams
  maxStreams := streams
  sizeofStreamItems := [size]
  min_nonneg := Int.natCast_nonneg streams
  min_le := Or.inr le_rfl
  items_ne := List.cons_ne_nil _ _
  items_pos := by
    intro _ item member
    obtain rfl := List.mem_singleton.mp member
    omega

/-- `gr_block::tag_propagation_policy_t`. -/
inductive TagPropagationPolicy where
  | dont
  | allToAll
  | oneToOne
  deriving DecidableEq, Repr

/-- The data and virtual functions of a `gr_block`. `set_output_multiple` takes an
`int` and refuses one below 1, `set_relative_rate` refuses a negative rate
(`gr_block.cc:73-89`).
`forecast n i` is `ninput_items_required[i]` after `forecast(n, ...)`. -/
structure GrBlock where
  outputMultiple : Nat
  relativeRate : ℚ
  history : Nat
  fixedRate : Bool
  fixedRateNinputToNoutput : Int → Int
  forecast : Nat → Nat → Int
  tagPropagationPolicy : TagPropagationPolicy
  outputMultiple_pos : 0 < outputMultiple
  outputMultiple_le : outputMultiple ≤ intMax
  relativeRate_nonneg : 0 ≤ relativeRate

/-- `noutput_items * decimation + history - 1`, computed on `unsigned int`s and
returned as an `int`: `fixed_rate_noutput_to_ninput` of `gr_sync_decimator`
(`gr_sync_decimator.cc:46-50`), and with decimation 1 that of `gr_sync_block`
(`gr_sync_block.cc:47-51`) and the forecast of `gr_block` (`gr_block.cc:51-56`). -/
def fixedRateNoutputToNinput (decimation history noutputItems : Nat) : Int :=
  ((noutputItems * decimation + history : Int) - 1).bmod (2 ^ 32)

/-- `std::max(0, ninput_items - (int)history() + 1) / decimation()`:
`fixed_rate_ninput_to_noutput` of `gr_sync_decimator` (`gr_sync_decimator.cc:52-56`),
and with decimation 1 that of `gr_sync_block` (`gr_sync_block.cc:53-57`). -/
def fixedRateNinputToNoutput (decimation history : Nat) (ninputItems : Int) : Int :=
  max 0 (ninputItems - history + 1) / decimation

/-- A `gr_block` that overrides nothing (`gr_block.cc:32-42`). -/
def GrBlock.plain (history outputMultiple : Nat) (pos : 0 < outputMultiple)
    (le : outputMultiple ≤ intMax) : GrBlock where
  outputMultiple := outputMultiple
  relativeRate := 1
  history := history
  fixedRate := false
  fixedRateNinputToNoutput := fun _ => 0
  forecast := fun noutputItems _ => fixedRateNoutputToNinput 1 history noutputItems
  tagPropagationPolicy := .allToAll
  outputMultiple_pos := pos
  outputMultiple_le := le
  relativeRate_nonneg := zero_le_one

theorem one_le_intMax : 1 ≤ intMax := by decide

/-- Such a block with the history and output multiple the constructor gives it. -/
def GrBlock.initial : GrBlock := GrBlock.plain 1 1 Nat.one_pos one_le_intMax

/-- A `gr_sync_decimator` (`gr_sync_decimator.h`, `gr_sync_decimator.cc`). -/
def GrBlock.syncDecimator (decimation history outputMultiple : Nat) (pos : 0 < outputMultiple)
    (le : outputMultiple ≤ intMax) : GrBlock :=
  { GrBlock.plain history outputMultiple pos le with
    relativeRate := Double.div 1 decimation
    fixedRate := true
    fixedRateNinputToNoutput := GnuRadio.fixedRateNinputToNoutput decimation history
    forecast := fun noutputItems _ => fixedRateNoutputToNinput decimation history noutputItems
    relativeRate_nonneg := Double.round_nonneg (by positivity) }

/-- `gr_basic_block`. `grBlock` is the result of `cast_to_block_sptr`: `none` for a
hierarchical block. -/
structure BasicBlock where
  name : String
  inputSignature : IoSignature
  outputSignature : IoSignature
  checkTopology : Int → Int → Bool
  grBlock : Option GrBlock

/-- A leaf block with fixed numbers of ports and the default `check_topology`. -/
def BasicBlock.leaf (name : String) (ninputs noutputs : Nat) (grBlock : GrBlock) (size : Nat)
    (pos : 0 < size) : BasicBlock where
  name := name
  inputSignature := IoSignature.fixed ninputs size pos
  outputSignature := IoSignature.fixed noutputs size pos
  checkTopology := fun _ _ => true
  grBlock := some grBlock

theorem sizeofFloat_pos : 0 < 4 := by decide

/-- A hierarchical block with fixed numbers of ports. -/
def BasicBlock.hier (name : String) (ninputs noutputs size : Nat) (pos : 0 < size) : BasicBlock where
  name := name
  inputSignature := IoSignature.fixed ninputs size pos
  outputSignature := IoSignature.fixed noutputs size pos
  checkTopology := fun _ _ => true
  grBlock := none

/-- The blocks of a program, by `unique_id`. -/
abbrev Blocks := BlockId → BasicBlock

end GnuRadio
