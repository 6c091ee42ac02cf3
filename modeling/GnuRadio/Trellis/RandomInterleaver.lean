import Mathlib.Algebra.Order.Ring.Int
import Mathlib.Data.List.Forall2
import GnuRadio.Trellis.QuicksortIndex
import GnuRadio.Misc.Except
import GnuRadio.Runtime.Types

/-!
# Random interleavers

A random interleaver sorts random keys and takes the places that they had. Its two tables undo each
other, whatever the keys are.
-/

namespace GnuRadio

/-- A vector with another element at a place. -/
def vectorPut {α : Type} (v : List α) (i : Int) (a : α) : Option (List α) :=
  if 0 ≤ i ∧ i < v.length then some (v.set i.toNat a) else none

/-- `d_DEINTER[d_INTER[i]] = i`. -/
def deinterRound (INTER DEINTER : List Int) (i : ℕ) : Option (List Int) :=
  (vectorAt INTER i).bind fun place => vectorPut DEINTER place i

/-- The loop that generates the `DEINTER` table (`interleaver.cc:117-119`). -/
def deinterTable (K : ℕ) (INTER : List Int) : Option (List Int) :=
  (List.range K).foldlM (deinterRound INTER) (List.replicate K 0)

/-- The keys and the indices before they are sorted (`interleaver.cc:109-113`), with the values that
`rand` returns. -/
def randomKeys (K : ℕ) (rand : ℕ → Int) : Keyed Int :=
  ⟨(List.range K).map rand, (List.range K).map fun i : ℕ => (i : Int)⟩

/-- `interleaver::interleaver (int K, int seed)` (`interleaver.cc:102-120`). The seed only
decides what `rand` returns. -/
def randomInterleaver (K : ℕ) (rand : ℕ → Int) : Option (List Int × List Int) := do
  let v ← (randomKeys K rand).quicksortIndex 0 (K - 1)
  let DEINTER ← deinterTable K v.index
  return (v.index, DEINTER)

/-- Tables of `K` places that undo each other. -/
structure InverseTables (K : ℕ) (INTER DEINTER : List Int) : Prop where
  inter_length : INTER.length = K
  deinter_length : DEINTER.length = K
  forward : ∀ i < K, ∃ j < K, vectorAt INTER i = some (j : Int) ∧
    vectorAt DEINTER j = some (i : Int)
  backward : ∀ j < K, ∃ i < K, vectorAt DEINTER j = some (i : Int) ∧
    vectorAt INTER i = some (j : Int)

theorem vectorPut_spec {α : Type} {v : List α} {i : Int} (least : 0 ≤ i) (most : i < v.length)
    (a : α) : ∃ v', vectorPut v i a = some v' ∧ v'.length = v.length ∧
      ∀ k, vectorAt v' k = if k = i then some a else vectorAt v k := by
  refine ⟨v.set i.toNat a, if_pos ⟨least, most⟩, List.length_set, fun k => ?_⟩
  have inside : i.toNat < v.length := by omega
  by_cases low : 0 ≤ k
  · rw [vectorAt, if_pos low, List.getElem?_set]
    by_cases here : k = i
    · rw [if_pos here, if_pos (by rw [here]), if_pos inside]
    · rw [if_neg here, if_neg (by omega), vectorAt, if_pos low]
  · rw [if_neg (by omega), vectorAt, vectorAt, if_neg low, if_neg low]

theorem deinterTable_spec {K : ℕ} {INTER : List Int} {σ : Equiv.Perm Int}
    (within : FixesOutside 0 (K - 1) σ) (inter : ∀ i : ℕ, i < K → vectorAt INTER i = some (σ i)) :
    ∃ DEINTER, deinterTable K INTER = some DEINTER ∧ DEINTER.length = K ∧
      ∀ i : ℕ, i < K → vectorAt DEINTER (σ i) = some (i : Int) := by
  have general : ∀ m ≤ K, ∃ DEINTER,
      (List.range m).foldlM (deinterRound INTER) (List.replicate K 0) = some DEINTER ∧
      DEINTER.length = K ∧ ∀ i : ℕ, i < m → vectorAt DEINTER (σ i) = some (i : Int) := by
    intro m
    induction m with
    | zero => exact fun _ => ⟨_, rfl, List.length_replicate, fun i less => absurd less (by omega)⟩
    | succ m ih =>
      intro more
      obtain ⟨table, built, length, known⟩ := ih (Nat.le_of_succ_le more)
      obtain ⟨least, most⟩ := within.inside (k := m) (by omega) (by omega)
      obtain ⟨table', put, length', places⟩ :=
        vectorPut_spec (v := table) least (by omega) (m : Int)
      refine ⟨table', ?_, length'.trans length, fun i less => ?_⟩
      · rw [List.range_succ, List.foldlM_append, built, Option.bind_eq_bind, Option.bind_some,
          List.foldlM_cons, deinterRound, inter m more, Option.bind_some, put]
        rfl
      · rw [places]
        by_cases last : i = m
        · rw [if_pos (by rw [last]), last]
        · rw [if_neg (fun same => last (by exact_mod_cast σ.injective same))]
          exact known i (by omega)
  exact general K le_rfl

theorem vectorAt_map_range {α : Type} {f : ℕ → α} {K i : ℕ} (inside : i < K) :
    vectorAt ((List.range K).map f) i = some (f i) := by
  rw [vectorAt_natCast, List.getElem?_map, List.getElem?_range inside, Option.map_some]

/-- The keys are in order, and every index is still with its key. -/
structure SortedKeys (K : ℕ) (rand : ℕ → Int) (v : Keyed Int) : Prop where
  ascending : Ascending v.p 0 (K - 1)
  paired : ∀ i < K, ∃ j < K, vectorAt v.index i = some (j : Int) ∧ vectorAt v.p i = some (rand j)

/-- Whatever `rand` returns, the tables undo each other. -/
theorem randomInterleaver_spec (K : ℕ) (rand : ℕ → Int) :
    ∃ v DEINTER, (randomKeys K rand).quicksortIndex 0 (K - 1) = some v ∧ SortedKeys K rand v ∧
      randomInterleaver K rand = some (v.index, DEINTER) ∧ InverseTables K v.index DEINTER := by
  have length : (randomKeys K rand).p.length = K := by simp [randomKeys]
  have length' : (randomKeys K rand).index.length = K := by simp [randomKeys]
  obtain ⟨v, sorted, ⟨σ, within, keys, indices⟩, ascending⟩ := Keyed.quicksortIndex_spec
    (v := randomKeys K rand) 0 (K - 1) (length'.trans length.symm) le_rfl
    (by rw [length]; omega)
  have image : ∀ i : ℕ, i < K → ∃ j : ℕ, j < K ∧ σ i = (j : Int) := by
    intro i less
    obtain ⟨least, most⟩ := within.inside (k := i) (by omega) (by omega)
    exact ⟨(σ i).toNat, by omega, by omega⟩
  have inter : ∀ i : ℕ, i < K → vectorAt v.index i = some (σ i) := by
    intro i less
    obtain ⟨j, inside, same⟩ := image i less
    rw [indices.2, same, randomKeys, vectorAt_map_range inside]
  obtain ⟨DEINTER, built, deinter_length, inverse⟩ := deinterTable_spec within inter
  have inter_length : v.index.length = K := indices.1.trans length'
  refine ⟨v, DEINTER, sorted, ⟨ascending, ?_⟩, ?_, inter_length, deinter_length, ?_, ?_⟩
  · intro i less
    obtain ⟨j, inside, same⟩ := image i less
    refine ⟨j, inside, same ▸ inter i less, ?_⟩
    rw [keys.2, same, randomKeys, vectorAt_map_range inside]
  · rw [randomInterleaver, sorted, Option.bind_eq_bind, Option.bind_some, built]
    rfl
  · intro i less
    obtain ⟨j, inside, same⟩ := image i less
    exact ⟨j, inside, same ▸ inter i less, same ▸ inverse i less⟩
  · intro j less
    have back : FixesOutside 0 (K - 1) σ⁻¹ := within.inv
    obtain ⟨least, most⟩ := back.inside (k := j) (by omega) (by omega)
    obtain ⟨i, same⟩ := Int.eq_ofNat_of_zero_le least
    have there : σ i = j := by rw [← same]; exact σ.apply_symm_apply j
    refine ⟨i, by omega, ?_, ?_⟩
    · rw [← there]
      exact inverse i (by omega)
    · rw [inter i (by omega), there]

/-!
## Permutation of blocks of symbols

`trellis_permutation` takes packets of `K` blocks apart and puts the blocks in the order of a table.
Bytes are copied, so that what the items are makes no difference.
-/

/-- `trellis_permutation` (`trellis_permutation.h:44-47`). No packet is empty. -/
structure TrellisPermutation where
  d_K : ℕ
  d_TABLE : List Int
  d_SYMS_PER_BLOCK : ℕ
  d_NBYTES_INOUT : ℕ
  symbols : 0 < d_K * d_SYMS_PER_BLOCK

namespace TrellisPermutation

variable {K B M i packets NBYTES_INOUT : ℕ} {SYMS_PER_BLOCK : Int} {x y inp out : List UInt8}
  {d : TrellisPermutation} {streams : List (List UInt8)}

theorem symbols_of_multiple (multiple : ¬K * SYMS_PER_BLOCK < 1) :
    0 < K * SYMS_PER_BLOCK.toNat := by
  have left : 0 < K := by
    refine Nat.pos_of_ne_zero fun none => multiple ?_
    rw [none, Int.natCast_zero, Int.zero_mul]
    decide
  have right : 0 < SYMS_PER_BLOCK := by
    by_contra none
    have least := mul_nonpos_of_nonneg_of_nonpos (Int.natCast_nonneg K) (not_lt.mp none)
    omega
  exact Nat.mul_pos left (by omega)

/-- The item size of the streams, which is an `int`. -/
def sizeofStreamItem (NBYTES_INOUT : ℕ) : Int := (NBYTES_INOUT : Int).bmod (2 ^ 32)

/-- The constructor (`trellis_permutation.cc:38-49`). -/
def make (K : ℕ) (TABLE : List Int) (SYMS_PER_BLOCK : Int) (NBYTES_INOUT : ℕ) :
    Except CppException TrellisPermutation :=
  if sizeofStreamItem NBYTES_INOUT < 1 then .error (.invalidArgument "gr_io_signature(3)")
  else asInt (K * SYMS_PER_BLOCK) >>= fun _ =>
    if multiple : K * SYMS_PER_BLOCK < 1 then
      .error (.invalidArgument "gr_block::set_output_multiple")
    else .ok ⟨K, TABLE, SYMS_PER_BLOCK.toNat, NBYTES_INOUT, symbols_of_multiple multiple⟩

/-- `memcpy` from a place of one buffer to a place of another one. -/
def copyBytes (out : List UInt8) (place : ℕ) (inp : List UInt8) (source : Int) (n : ℕ) :
    Except CppException (List UInt8) :=
  if 0 ≤ source ∧ source.toNat + n ≤ inp.length ∧ place + n ≤ out.length then
    .ok (out.take place ++ (inp.drop source.toNat).take n ++ out.drop (place + n))
  else .error .undefinedBehaviour

def blockBytes (d : TrellisPermutation) : ℕ := d.d_SYMS_PER_BLOCK * d.d_NBYTES_INOUT

/-- What is copied for block `i` (`trellis_permutation.cc:68-77`). -/
def copyBlock (d : TrellisPermutation) (inp out : List UInt8) (i : ℕ) :
    Except CppException (List UInt8) :=
  let i0 := d.d_K * (i / d.d_K)
  let j0 := i % d.d_K
  match vectorAt d.d_TABLE j0 with
  | none => .error .undefinedBehaviour
  | some k0 =>
      copyBytes out (i * d.blockBytes) inp ((i0 + k0) * d.d_SYMS_PER_BLOCK * d.d_NBYTES_INOUT)
        (d.d_NBYTES_INOUT * d.d_SYMS_PER_BLOCK)

/-- `work` on one stream (`trellis_permutation.cc:66-79`). -/
def workStream (d : TrellisPermutation) (noutputItems : ℕ) (inp out : List UInt8) :
    Except CppException (List UInt8) :=
  (List.range (noutputItems / d.d_SYMS_PER_BLOCK)).foldlM (d.copyBlock inp) out

/-- `work` (`trellis_permutation.cc:53-82`), with what the buffers hold. -/
def work (d : TrellisPermutation) (noutputItems : ℕ)
    (inputItems outputItems : List (List UInt8)) : Except CppException (List (List UInt8)) :=
  if inputItems.length ≠ outputItems.length then .error .assertFailed
  else if noutputItems % d.d_K ≠ 0 then .error .assertFailed
  else (inputItems.zip outputItems).mapM fun (inp, out) => d.workStream noutputItems inp out

/-! ## Blocks of bytes -/

/-- Block `i` of a stream with blocks of `B` bytes. -/
def block (B : ℕ) (x : List UInt8) (i : ℕ) : List UInt8 := (x.drop (i * B)).take B

theorem ext_block (length : x.length = M * B) (length' : y.length = M * B)
    (same : ∀ i < M, block B x i = block B y i) : x = y := by
  refine List.ext_getElem? fun p => ?_
  rcases lt_or_ge p (M * B) with inside | beyond
  · have positive : 0 < B := Nat.pos_of_mul_pos_left (Nat.zero_lt_of_lt inside)
    have small : p / B < M := (Nat.div_lt_iff_lt_mul positive).mpr inside
    have rest : p % B < B := Nat.mod_lt p positive
    have place : p / B * B + p % B = p := Nat.div_add_mod' p B
    have one := congrArg (fun l => l[p % B]?) (same (p / B) small)
    simpa only [block, List.getElem?_take, if_pos rest, List.getElem?_drop, place] using one
  · rw [List.getElem?_eq_none (length.le.trans beyond), List.getElem?_eq_none
      (length'.le.trans beyond)]

theorem block_append_left (length : x.length = M * B) (inside : i < M) :
    block B (x ++ y) i = block B x i := by
  have most : (i + 1) * B ≤ M * B := Nat.mul_le_mul_right B inside
  rw [Nat.succ_mul] at most
  rw [block, block, List.drop_append_of_le_length (by omega), List.take_append_of_le_length]
  rw [List.length_drop]
  omega

theorem block_append_right (length : x.length = M * B) :
    block B (x ++ y) (M + i) = block B y i := by
  rw [block, block, Nat.add_mul, ← length, List.drop_append, List.drop_eq_nil_of_le (by omega),
    List.nil_append]
  congr 2
  omega

theorem block_take (inside : i < M) : block B (x.take (M * B)) i = block B x i := by
  have most : (i + 1) * B ≤ M * B := Nat.mul_le_mul_right B inside
  rw [Nat.succ_mul] at most
  rw [block, block, List.drop_take, List.take_take]
  congr 1
  omega

theorem block_drop : block B (x.drop (M * B)) i = block B x (M + i) := by
  rw [block, block, List.drop_drop, Nat.add_mul]

theorem copyBytes_spec (source : ℕ) (length : inp.length = M * B) (length' : out.length = M * B)
    (inside : i < M) (inside' : source < M) :
    ∃ out', copyBytes out (i * B) inp (source * B : ℕ) B = .ok out' ∧ out'.length = M * B ∧
      ∀ k, block B out' k = if k = i then block B inp source else block B out k := by
  have most : (i + 1) * B ≤ M * B := Nat.mul_le_mul_right B inside
  have most' : (source + 1) * B ≤ M * B := Nat.mul_le_mul_right B inside'
  rw [Nat.succ_mul] at most most'
  have copied : (block B inp source).length = B := by
    rw [block, List.length_take, List.length_drop]
    omega
  have front : (out.take (i * B)).length = i * B := by
    rw [List.length_take]
    omega
  have both : (out.take (i * B) ++ block B inp source).length = (i + 1) * B := by
    rw [List.length_append, front, copied, Nat.succ_mul]
  refine ⟨out.take (i * B) ++ block B inp source ++ out.drop ((i + 1) * B), ?_, ?_, ?_⟩
  · rw [copyBytes, if_pos ⟨Int.natCast_nonneg _, by rw [Int.toNat_natCast]; omega, by omega⟩,
      Int.toNat_natCast, Nat.succ_mul, block]
  · rw [List.length_append, both, List.length_drop, Nat.succ_mul]
    omega
  · intro k
    rcases lt_trichotomy k i with before | rfl | after
    · rw [if_neg before.ne, block_append_left both (by omega), block_append_left front before,
        block_take before]
    · rw [if_pos rfl, block_append_left both (Nat.lt_succ_self k)]
      have last := block_append_right (B := B) (i := 0) (y := block B inp source) front
      rw [Nat.add_zero] at last
      rw [last, block, Nat.zero_mul, List.drop_zero, List.take_of_length_le copied.le]
    · rw [if_neg after.ne']
      obtain ⟨r, rfl⟩ := Nat.exists_eq_add_of_le (Nat.succ_le_of_lt after)
      rw [block_append_right both, block_drop]

/-! ## What is put out -/

/-- Packet after packet, the block at place `j` of a packet is the one that was at the place of the
table. -/
structure Permuted (K B : ℕ) (TABLE : List Int) (packets : ℕ) (x y : List UInt8) : Prop where
  inLength : x.length = packets * K * B
  outLength : y.length = packets * K * B
  blocks : ∀ q < packets, ∀ j < K, ∀ k < K, vectorAt TABLE j = some (k : Int) →
    block B y (q * K + j) = block B x (q * K + k)

/-- Every place of the table has a place of a packet. -/
def Places (K : ℕ) (TABLE : List Int) : Prop :=
  ∀ j < K, ∃ k < K, vectorAt TABLE j = some (k : Int)

theorem copyBlock_spec {k : ℕ} (length : inp.length = packets * d.d_K * d.blockBytes)
    (length' : out.length = packets * d.d_K * d.blockBytes) (inside : i < packets * d.d_K)
    (small : k < d.d_K) (there : vectorAt d.d_TABLE (i % d.d_K : ℕ) = some (k : Int)) :
    ∃ out', d.copyBlock inp out i = .ok out' ∧ out'.length = packets * d.d_K * d.blockBytes ∧
      ∀ p, block d.blockBytes out' p =
        if p = i then block d.blockBytes inp (i / d.d_K * d.d_K + k)
        else block d.blockBytes out p := by
  have packet : i / d.d_K < packets := (Nat.div_lt_iff_lt_mul (by omega)).mpr inside
  have most : (i / d.d_K + 1) * d.d_K ≤ packets * d.d_K := Nat.mul_le_mul_right d.d_K packet
  rw [Nat.succ_mul] at most
  obtain ⟨out', copied, rest⟩ := copyBytes_spec (i / d.d_K * d.d_K + k) length length'
    inside (by omega)
  refine ⟨out', ?_, rest⟩
  have source : (((d.d_K * (i / d.d_K) : ℕ) : Int) + k) * d.d_SYMS_PER_BLOCK * d.d_NBYTES_INOUT =
      ((i / d.d_K * d.d_K + k) * d.blockBytes : ℕ) := by
    rw [blockBytes, ← Nat.mul_assoc, Nat.mul_comm d.d_K]
    push_cast
    rfl
  simp only [copyBlock, there]
  rw [source, Nat.mul_comm d.d_NBYTES_INOUT]
  exact copied

theorem workStream_spec (places : Places d.d_K d.d_TABLE)
    (length : inp.length = packets * d.d_K * d.blockBytes)
    (length' : out.length = packets * d.d_K * d.blockBytes) :
    ∃ out', d.workStream (packets * d.d_K * d.d_SYMS_PER_BLOCK) inp out = .ok out' ∧
      Permuted d.d_K d.blockBytes d.d_TABLE packets inp out' := by
  have positive : 0 < d.d_K := Nat.pos_of_mul_pos_right d.symbols
  have positive' : 0 < d.d_SYMS_PER_BLOCK := Nat.pos_of_mul_pos_left d.symbols
  have rounds : ∀ n ≤ packets * d.d_K, ∃ out',
      (List.range n).foldlM (d.copyBlock inp) out = .ok out' ∧
      out'.length = packets * d.d_K * d.blockBytes ∧
      ∀ i < n, ∀ k < d.d_K, vectorAt d.d_TABLE (i % d.d_K : ℕ) = some (k : Int) →
        block d.blockBytes out' i = block d.blockBytes inp (i / d.d_K * d.d_K + k) := by
    intro n
    induction n with
    | zero => exact fun _ => ⟨out, rfl, length', fun i less => absurd less (Nat.not_lt_zero i)⟩
    | succ n ih =>
      intro more
      obtain ⟨u, looped, same, known⟩ := ih (Nat.le_of_succ_le more)
      obtain ⟨k, small, there⟩ := places (n % d.d_K) (Nat.mod_lt n positive)
      obtain ⟨v, copied, same', blocks⟩ := copyBlock_spec length same more small there
      refine ⟨v, ?_, same', fun i less k' small' there' => ?_⟩
      · rw [List.range_succ]
        exact foldlM_append_ok.mpr ⟨u, looped, foldlM_singleton_ok.mpr copied⟩
      · rw [blocks]
        by_cases last : i = n
        · subst last
          obtain rfl : k = k' := by exact_mod_cast Option.some.inj (there.symm.trans there')
          rw [if_pos rfl]
        · rw [if_neg last]
          exact known i (by omega) k' small' there'
  obtain ⟨out', looped, same, known⟩ := rounds _ le_rfl
  refine ⟨out', ?_, length, same, fun q packet j inside k small there => ?_⟩
  · rw [workStream, Nat.mul_div_cancel _ positive', looped]
  · have most : (q + 1) * d.d_K ≤ packets * d.d_K := Nat.mul_le_mul_right d.d_K packet
    rw [Nat.succ_mul] at most
    have place : (q * d.d_K + j) % d.d_K = j := by
      rw [Nat.mul_add_mod', Nat.mod_eq_of_lt inside]
    have packet' : (q * d.d_K + j) / d.d_K = q := by
      rw [Nat.mul_comm, Nat.mul_add_div positive, Nat.div_eq_of_lt inside, Nat.add_zero]
    have one := known (q * d.d_K + j) (by omega) k small (by rw [place, there])
    rwa [packet'] at one

namespace Permuted

variable {K B : ℕ} {TABLE : List Int}

variable {packets : ℕ} {x y : List UInt8}

theorem append {packets' : ℕ} {x' y' : List UInt8} (first : Permuted K B TABLE packets x y)
    (second : Permuted K B TABLE packets' x' y') :
    Permuted K B TABLE (packets + packets') (x ++ x') (y ++ y') := by
  refine ⟨?_, ?_, fun q packet j inside k small there => ?_⟩
  · rw [List.length_append, first.inLength, second.inLength, Nat.add_mul, Nat.add_mul]
  · rw [List.length_append, first.outLength, second.outLength, Nat.add_mul, Nat.add_mul]
  · rcases lt_or_ge q packets with before | after
    · have most : (q + 1) * K ≤ packets * K := Nat.mul_le_mul_right K before
      rw [Nat.succ_mul] at most
      rw [block_append_left first.outLength (by omega), block_append_left first.inLength (by omega)]
      exact first.blocks q before j inside k small there
    · obtain ⟨r, rfl⟩ := Nat.exists_eq_add_of_le after
      rw [Nat.add_mul, Nat.add_assoc, Nat.add_assoc, block_append_right first.outLength,
        block_append_right first.inLength]
      exact second.blocks r (by omega) j inside k small there

theorem undo {INTER DEINTER : List Int} (tables : InverseTables K INTER DEINTER) {z : List UInt8}
    (first : Permuted K B INTER packets x y) (second : Permuted K B DEINTER packets y z) :
    z = x := by
  refine ext_block second.outLength first.inLength fun i inside => ?_
  have positive : 0 < K := Nat.pos_of_mul_pos_left (Nat.zero_lt_of_lt inside)
  have packet : i / K < packets := (Nat.div_lt_iff_lt_mul positive).mpr inside
  have rest : i % K < K := Nat.mod_lt i positive
  obtain ⟨k, small, there, back⟩ := tables.backward (i % K) rest
  have one := second.blocks (i / K) packet (i % K) rest k small there
  rw [first.blocks (i / K) packet k small (i % K) rest back, Nat.div_add_mod'] at one
  exact one

end Permuted

/-! ## Runs -/

/-- A call of `work`: how many times the output multiple it is for, and what its output buffers
hold before. -/
structure Call where
  packets : ℕ
  held : ℕ → ℕ → UInt8

/-- The output buffers of a call. -/
def Call.buffers (c : Call) (nstreams bytes : ℕ) : List (List UInt8) :=
  (List.range nstreams).map fun m => (List.range bytes).map (c.held m)

/-- What the calls put out, one after another, for streams that are read in turn. -/
def runCalls (d : TrellisPermutation) : List (List UInt8) → List Call →
    Except CppException (List (List UInt8))
  | streams, [] => .ok (streams.map fun _ => [])
  | streams, c :: calls => do
      let noutputItems := c.packets * d.d_K * d.d_SYMS_PER_BLOCK
      let bytes := noutputItems * d.d_NBYTES_INOUT
      let produced ← d.work noutputItems (streams.map (List.take bytes))
        (c.buffers streams.length bytes)
      let rest ← runCalls d (streams.map (List.drop bytes)) calls
      return List.zipWith (· ++ ·) produced rest

/-- The packets of all calls. -/
def packetsOf (calls : List Call) : ℕ := (calls.map Call.packets).sum

theorem mapM_zip_forall₂ {α β γ ε : Type} {f : α × β → Except ε γ} {R : α → γ → Prop} {l : List α}
    {m : List β} (same : l.length = m.length)
    (each : ∀ a ∈ l, ∀ b ∈ m, ∃ c, f (a, b) = .ok c ∧ R a c) :
    ∃ r, (l.zip m).mapM f = .ok r ∧ List.Forall₂ R l r := by
  induction l generalizing m with
  | nil => exact ⟨[], rfl, List.Forall₂.nil⟩
  | cons a l ih =>
    cases m with
    | nil => cases same
    | cons b m =>
      obtain ⟨c, first, related⟩ := each a List.mem_cons_self b List.mem_cons_self
      obtain ⟨r, rest, others⟩ := ih (Nat.succ.inj same) fun a' inside b' inside' =>
        each a' (List.mem_cons_of_mem a inside) b' (List.mem_cons_of_mem b inside')
      refine ⟨c :: r, ?_, List.Forall₂.cons related others⟩
      rw [List.zip_cons_cons, List.mapM_cons, first, ok_bind, rest, ok_bind]
      rfl

theorem work_spec (places : Places d.d_K d.d_TABLE) (packets : ℕ)
    (inputItems outputItems : List (List UInt8)) (same : inputItems.length = outputItems.length)
    (lengths : ∀ x ∈ inputItems, x.length = packets * d.d_K * d.blockBytes)
    (lengths' : ∀ x ∈ outputItems, x.length = packets * d.d_K * d.blockBytes) :
    ∃ produced, d.work (packets * d.d_K * d.d_SYMS_PER_BLOCK) inputItems outputItems =
        .ok produced ∧
      List.Forall₂ (Permuted d.d_K d.blockBytes d.d_TABLE packets) inputItems produced := by
  have multiple : packets * d.d_K * d.d_SYMS_PER_BLOCK % d.d_K = 0 := by
    rw [Nat.mul_right_comm, Nat.mul_mod_left]
  rw [work, if_neg (not_not.mpr same), if_neg (not_not.mpr multiple)]
  exact mapM_zip_forall₂ same fun x inside y inside' =>
    workStream_spec places (lengths x inside) (lengths' y inside')

theorem forall₂_append {packets' : ℕ} {TABLE : List Int} {n : ℕ} {produced rest : List (List UInt8)}
    (first : List.Forall₂ (Permuted K B TABLE packets) (streams.map (List.take n)) produced)
    (second : List.Forall₂ (Permuted K B TABLE packets') (streams.map (List.drop n)) rest) :
    List.Forall₂ (Permuted K B TABLE (packets + packets')) streams
      (List.zipWith (· ++ ·) produced rest) := by
  induction streams generalizing produced rest with
  | nil =>
    cases first
    cases second
    exact List.Forall₂.nil
  | cons x streams ih =>
    rcases first with _ | ⟨one, others⟩
    rcases second with _ | ⟨one', others'⟩
    have joined := one.append one'
    rw [List.take_append_drop] at joined
    exact List.Forall₂.cons joined (ih others others')

theorem runCalls_spec (places : Places d.d_K d.d_TABLE) {calls : List Call}
    (lengths : ∀ x ∈ streams, x.length = packetsOf calls * d.d_K * d.blockBytes) :
    ∃ outs, d.runCalls streams calls = .ok outs ∧
      List.Forall₂ (Permuted d.d_K d.blockBytes d.d_TABLE (packetsOf calls)) streams outs := by
  induction calls generalizing streams with
  | nil =>
    refine ⟨_, rfl, List.forall₂_map_right_iff.mpr (List.forall₂_same.mpr fun x inside => ?_)⟩
    have none := lengths x inside
    rw [packetsOf, List.map_nil, List.sum_nil, Nat.zero_mul, Nat.zero_mul] at none
    obtain rfl := List.eq_nil_of_length_eq_zero none
    exact ⟨none.trans (by simp [packetsOf]), by simp [packetsOf],
      fun q packet => absurd packet (by simp [packetsOf])⟩
  | cons c calls ih =>
    have total : packetsOf (c :: calls) = c.packets + packetsOf calls := by
      rw [packetsOf, List.map_cons, List.sum_cons, packetsOf]
    have bytes : c.packets * d.d_K * d.d_SYMS_PER_BLOCK * d.d_NBYTES_INOUT =
        c.packets * d.d_K * d.blockBytes := Nat.mul_assoc _ _ _
    rw [total] at lengths ⊢
    simp only [Nat.add_mul] at lengths
    obtain ⟨produced, worked, permuted⟩ := work_spec places c.packets
      (streams.map (List.take (c.packets * d.d_K * d.blockBytes)))
      (c.buffers streams.length (c.packets * d.d_K * d.blockBytes))
      (by simp [Call.buffers]) (by
        intro x inside
        obtain ⟨y, there, rfl⟩ := List.mem_map.mp inside
        rw [List.length_take, lengths y there]
        omega) (by
        intro x inside
        obtain ⟨m, -, rfl⟩ := List.mem_map.mp inside
        rw [List.length_map, List.length_range])
    have lengths' : ∀ x ∈ streams.map (List.drop (c.packets * d.d_K * d.blockBytes)),
        x.length = packetsOf calls * d.d_K * d.blockBytes := by
      intro x inside
      obtain ⟨y, there, rfl⟩ := List.mem_map.mp inside
      rw [List.length_drop, lengths y there]
      omega
    obtain ⟨rest, ran, permuted'⟩ := ih lengths'
    refine ⟨_, ?_, forall₂_append permuted permuted'⟩
    simp only [runCalls, bytes, worked, ran, ok_bind]
    rfl

/-! ## An interleaver and its inverse -/

/-- The parameters that the constructor takes. From `2 ^ 32` bytes on the item size is cut to an
`int`, and the packets here stay whole. -/
def Accepted (K : ℕ) (SYMS_PER_BLOCK : Int) (NBYTES_INOUT : ℕ) : Prop :=
  1 ≤ sizeofStreamItem NBYTES_INOUT ∧ 1 ≤ K * SYMS_PER_BLOCK ∧
    K * SYMS_PER_BLOCK ≤ 2147483647

theorem make_ok (accepted : Accepted K SYMS_PER_BLOCK NBYTES_INOUT) :
    ∃ symbols, ∀ TABLE, make K TABLE SYMS_PER_BLOCK NBYTES_INOUT =
      .ok ⟨K, TABLE, SYMS_PER_BLOCK.toNat, NBYTES_INOUT, symbols⟩ := by
  obtain ⟨item, least, most⟩ := accepted
  refine ⟨symbols_of_multiple (not_lt.mpr least), fun TABLE => ?_⟩
  have fits : asInt (K * SYMS_PER_BLOCK) = .ok (K * SYMS_PER_BLOCK) := if_pos ⟨by omega, most⟩
  rw [make, if_neg (not_lt.mpr item), fits, ok_bind, dif_neg (not_lt.mpr least)]

theorem make_error (refused : ¬Accepted K SYMS_PER_BLOCK NBYTES_INOUT) :
    ∃ e, ∀ TABLE, make K TABLE SYMS_PER_BLOCK NBYTES_INOUT = .error e := by
  by_cases item : sizeofStreamItem NBYTES_INOUT < 1
  · exact ⟨_, fun TABLE => if_pos item⟩
  · by_cases range : -2147483648 ≤ K * SYMS_PER_BLOCK ∧ K * SYMS_PER_BLOCK ≤ 2147483647
    · have fits : asInt (K * SYMS_PER_BLOCK) = .ok (K * SYMS_PER_BLOCK) := if_pos range
      have multiple : K * SYMS_PER_BLOCK < 1 := by
        by_contra most
        exact refused ⟨not_lt.mp item, not_lt.mp most, range.2⟩
      refine ⟨.invalidArgument "gr_block::set_output_multiple", fun TABLE => ?_⟩
      rw [make, if_neg item, fits, ok_bind, dif_pos multiple]
    · have fits : asInt (K * SYMS_PER_BLOCK) = .error .undefinedBehaviour := if_neg range
      refine ⟨.undefinedBehaviour, fun TABLE => ?_⟩
      rw [make, if_neg item, fits]
      rfl

/-- What goes through the one block and then through the other one comes out as it was, for any
number of streams, however the two cut them into calls. -/
def Undoes (p q : TrellisPermutation) : Prop :=
  ∀ (streams : List (List UInt8)) (calls calls' : List Call),
    packetsOf calls' = packetsOf calls →
    (∀ x ∈ streams, x.length = packetsOf calls * p.d_K * p.blockBytes) →
    ∃ permuted, p.runCalls streams calls = .ok permuted ∧ q.runCalls permuted calls' = .ok streams

theorem forall₂_undo {INTER DEINTER : List Int} (tables : InverseTables K INTER DEINTER)
    {x y z : List (List UInt8)} (first : List.Forall₂ (Permuted K B INTER packets) x y)
    (second : List.Forall₂ (Permuted K B DEINTER packets) y z) : z = x := by
  induction first generalizing z with
  | nil =>
    cases second
    rfl
  | cons one _ ih =>
    rcases second with _ | ⟨back, rest⟩
    rw [one.undo tables back, ih rest]

theorem undoes {p q : TrellisPermutation} (sameK : q.d_K = p.d_K)
    (sameBytes : q.blockBytes = p.blockBytes) (tables : InverseTables p.d_K p.d_TABLE q.d_TABLE) :
    Undoes p q := by
  intro streams calls calls' total lengths
  have places : Places p.d_K p.d_TABLE := fun j inside =>
    (tables.forward j inside).imp fun k known => ⟨known.1, known.2.1⟩
  have places' : Places q.d_K q.d_TABLE := fun j inside => by
    rw [sameK] at inside ⊢
    exact (tables.backward j inside).imp fun k known => ⟨known.1, known.2.1⟩
  obtain ⟨permuted, ran, related⟩ := runCalls_spec places lengths
  have lengths' : ∀ y ∈ permuted, y.length = packetsOf calls' * q.d_K * q.blockBytes := by
    intro y inside
    obtain ⟨i, bound, rfl⟩ := List.mem_iff_getElem.mp inside
    rw [sameK, sameBytes, total]
    exact (related.get (by rw [related.length_eq]; exact bound) bound).outLength
  obtain ⟨back, ran', related'⟩ := runCalls_spec places' lengths'
  rw [sameK, sameBytes, total] at related'
  exact ⟨permuted, ran, by rw [ran', forall₂_undo tables related related']⟩

/-- A random interleaver exists whatever `rand` returns, its tables undo each other, and the blocks
with the two tables undo each other on every stream. -/
theorem randomInterleaver_undone (K : ℕ) (rand : ℕ → Int) :
    ∃ v DEINTER, (randomKeys K rand).quicksortIndex 0 (K - 1) = some v ∧ SortedKeys K rand v ∧
      randomInterleaver K rand = some (v.index, DEINTER) ∧ InverseTables K v.index DEINTER ∧
      ∀ (SYMS_PER_BLOCK : Int) (NBYTES_INOUT : ℕ),
        (Accepted K SYMS_PER_BLOCK NBYTES_INOUT →
          ∃ p q, make K v.index SYMS_PER_BLOCK NBYTES_INOUT = .ok p ∧
            make K DEINTER SYMS_PER_BLOCK NBYTES_INOUT = .ok q ∧ Undoes p q) ∧
        (¬Accepted K SYMS_PER_BLOCK NBYTES_INOUT →
          ∃ e, make K v.index SYMS_PER_BLOCK NBYTES_INOUT = .error e ∧
            make K DEINTER SYMS_PER_BLOCK NBYTES_INOUT = .error e) := by
  obtain ⟨v, DEINTER, sorted, keys, built, tables⟩ := randomInterleaver_spec K rand
  refine ⟨v, DEINTER, sorted, keys, built, tables, fun S N => ⟨fun accepted => ?_,
    fun refused => ?_⟩⟩
  · obtain ⟨symbols, made⟩ := make_ok accepted
    exact ⟨_, _, made v.index, made DEINTER, undoes rfl rfl tables⟩
  · obtain ⟨e, thrown⟩ := make_error refused
    exact ⟨e, thrown v.index, thrown DEINTER⟩

/-- The keys 3, 1, 2: tables (1, 2, 0) and (2, 0, 1). -/
example : randomInterleaver 3 (fun i => [3, 1, 2].getD i 0) = some ([1, 2, 0], [2, 0, 1]) := by
  decide +kernel

end TrellisPermutation

end GnuRadio
