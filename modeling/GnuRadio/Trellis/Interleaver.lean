import GnuRadio.Trellis.Siso

/-!
# Interleavers and arrays of metrics

The iterative decoders keep their metrics in flat arrays, one row for each step,
and move rows between the steps of the two codes.
-/

namespace GnuRadio

/-- `interleaver` (`interleaver.h:31-48`), with tables that undo each other. -/
structure Interleaver where
  K : Nat
  INTER : List Nat
  DEINTER : List Nat
  inter_length : INTER.length = K
  deinter_length : DEINTER.length = K
  inter_lt : ∀ i ∈ INTER, i < K
  deinter_inter : ∀ i < K, DEINTER.getD (INTER.getD i 0) 0 = i

theorem unit_length : [0].length = 1 := rfl

theorem unit_lt : ∀ i ∈ [0], i < 1 := by decide

theorem unit_inverse : ∀ i < 1, [0].getD ([0].getD i 0) 0 = i := by decide

/-- The interleaver of one step. -/
def Interleaver.unit : Interleaver :=
  ⟨1, [0], [0], unit_length, unit_length, unit_lt, unit_inverse⟩

/-- `memcpy` of `n` metrics from place `j` of `src` to place `i` of `dst`. -/
def memcpy (dst : List ℚ) (i : Nat) (src : List ℚ) (j n : Nat) : List ℚ :=
  (List.range n).foldl (fun dst m => dst.set (i + m) (src.getD (j + m) 0)) dst

/-- The hard decisions (`core_algorithms.cc:878-888`, `core_algorithms.cc:1056-1066`,
`core_algorithms.cc:1194-1202`): the first input with the least metric below `INF`. -/
def hardDecisions {To : Type} (cast : Nat → To) (posti : List ℚ) (I blocklength : Nat) : List To :=
  (List.range blocklength).map fun k =>
    cast (leastAt INF (fun i => posti.getD (k * I + i) 0) I).2

end GnuRadio
