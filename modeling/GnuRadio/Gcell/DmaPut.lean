import GnuRadio.Misc.Rounding
import GnuRadio.Runtime.Types
import Mathlib.Data.List.Nodup

/-!
# Copying out the arguments of a job

An SPU writes an argument back to the effective address it belongs to by single DMA transfers, and
must not write outside it. The MFC moves 1, 2, 4 or 8 bytes that are naturally aligned, or
multiples of 16 bytes.
-/

namespace GnuRadio

/-- `MFC_MAX_DMA_SIZE`, what the MFC moves at most by one transfer. -/
def mfcMaxDmaSize : ℕ := 16384

/-- A call of `mfc_put`. -/
structure MfcPut where
  ls : BitVec 32
  ea : BitVec 64
  size : BitVec 32
  deriving DecidableEq

namespace MfcPut

/-- What the MFC can do. -/
def Legal (t : MfcPut) : Prop :=
  (t.size.toNat ∈ [1, 2, 4, 8] ∧ t.ls.toNat % t.size.toNat = 0 ∧ t.ea.toNat % t.size.toNat = 0) ∨
    (t.size.toNat % 16 = 0 ∧ t.size.toNat ≤ mfcMaxDmaSize ∧ t.ls.toNat % 16 = 0 ∧
      t.ea.toNat % 16 = 0)

instance (t : MfcPut) : Decidable t.Legal := by
  unfold Legal
  infer_instance

/-- The bytes that are moved, with their local and their effective addresses. -/
def bytes (t : MfcPut) : List (BitVec 32 × BitVec 64) :=
  (List.range t.size.toNat).map fun k => (t.ls + BitVec.ofNat 32 k, t.ea + BitVec.ofNat 64 k)

end MfcPut

/-- The bytes of a buffer, with their local and their effective addresses. -/
def dmaSpan (ea : BitVec 64) (ls : BitVec 32) (len : ℕ) : List (BitVec 32 × BitVec 64) :=
  (List.range len).map fun k => (ls + BitVec.ofNat 32 k, ea + BitVec.ofNat 64 k)

/-- The transfers move each byte of the buffer once, and nothing else. -/
structure DmaCovers (ea : BitVec 64) (ls : BitVec 32) (len : ℕ) (puts : List MfcPut) : Prop where
  legal : ∀ t ∈ puts, t.Legal
  disjoint : puts.Pairwise fun s t => ∀ a ∈ s.bytes, ∀ b ∈ t.bytes, a.1 ≠ b.1 ∧ a.2 ≠ b.2
  union : puts.flatMap MfcPut.bytes = dmaSpan ea ls len

/-! ## Short buffers -/

/-- `make_mask` (`gc_main.c:233-237`). -/
def makeMask (nbits : ℕ) : BitVec 32 := ~~~((~~~0#32) <<< nbits)

/-- `d_and_c` (`gc_main.c:245-261`) of `2 ^ log2` bytes: the offsets and lengths of its transfers.
A single bit is there or not. -/
def dAndC (dc_work : BitVec 32) : ℕ → ℕ → List (ℕ × ℕ)
  | 0, offset =>
      let mask := makeMask 1 <<< offset
      if mask &&& dc_work = mask then [(offset, 1)] else []
  | log2 + 1, offset =>
      let mask := makeMask (2 ^ (log2 + 1)) <<< offset
      let t := mask &&& dc_work
      if t = 0#32 then []
      else if t = mask then [(offset, 2 ^ (log2 + 1))]
      else dAndC dc_work log2 offset ++ dAndC dc_work log2 (offset + 2 ^ log2)

/-- The offsets and lengths of the transfers for `len` bytes from an alignment on. -/
def slowPieces (len alignment : ℕ) : List (ℕ × ℕ) :=
  let dc_work := makeMask len <<< alignment
  dAndC dc_work 3 0 ++ dAndC dc_work 3 8 ++ dAndC dc_work 3 16

/-- `handle_slow_and_tedious_dma` (`gc_main.c:265-281`). -/
def handleSlowAndTediousDma (ea : BitVec 64) (ls : BitVec 32) (len : ℕ) : List MfcPut :=
  let dc_ls_base := roundDnWord ls 8#32
  let dc_ea_base := roundDnWord ea 8#64
  (slowPieces len (ls &&& 7#32).toNat).map fun (offset, len) =>
    ⟨dc_ls_base + BitVec.ofNat 32 offset, dc_ea_base + BitVec.ofNat 64 offset, BitVec.ofNat 32 len⟩

/-! ## Long buffers -/

/-- The variables of the copy out, with the transfers so far. -/
structure CopyOut where
  ea : BitVec 64
  ls : BitVec 32
  len : BitVec 32
  puts : List MfcPut

namespace CopyOut

/-- A transfer of `n` bytes, an `int`, and the addresses behind it. -/
def put (s : CopyOut) (n : Int) : CopyOut :=
  { s with
    ea := s.ea + BitVec.ofInt 64 n
    ls := s.ls + BitVec.ofInt 32 n
    puts := s.puts ++ [⟨s.ls, s.ea, BitVec.ofInt 32 n⟩] }

/-- A transfer of `n` bytes that are taken off the length. -/
def piece (n : ℕ) (s : CopyOut) : CopyOut :=
  { s.put n with len := s.len - BitVec.ofNat 32 n }

/-- A transfer before the multiple of 16, by a bit of the address. -/
def pre (n : ℕ) (s : CopyOut) : CopyOut :=
  if s.ea &&& BitVec.ofNat 64 n ≠ 0#64 then s.piece n else s

/-- A transfer behind the multiple of 16, by the length that is left. -/
def post (n : ℕ) (s : CopyOut) : CopyOut := if BitVec.ofNat 32 n ≤ s.len then s.piece n else s

/-- The multiple of 16. `aligned_len` is an `int`. -/
def aligned (aligned_len : Int) (s : CopyOut) : CopyOut :=
  if aligned_len = 0 then s
  else
    let dma_len := min aligned_len mfcMaxDmaSize
    aligned (aligned_len - dma_len) (s.put dma_len)
termination_by aligned_len.natAbs
decreasing_by
  unfold mfcMaxDmaSize
  omega

/-- The addresses are multiples of 16. -/
def OnBoundary (s : CopyOut) : Prop := s.ea &&& 0xf#64 = 0#64 ∧ s.ls &&& 0xf#32 = 0#32

instance (s : CopyOut) : Decidable s.OnBoundary := by
  unfold OnBoundary
  infer_instance

end CopyOut

/-- The copy out of an argument (`gc_main.c:445-550`): the calls of `mfc_put` one after another. -/
def copyOut (ea : BitVec 64) (ls len : BitVec 32) : Except CppException (List MfcPut) :=
  if len = 0#32 then .ok []
  else if len < 16#32 then .ok (handleSlowAndTediousDma ea ls len.toNat)
  else
    let s : CopyOut := ⟨ea, ls, len, []⟩
    let s := if ea &&& 0xf#64 ≠ 0#64 then (((s.pre 1).pre 2).pre 4).pre 8 else s
    if ¬s.OnBoundary then .error .assertFailed
    else
      let aligned_len := (roundDnWord s.len 16#32).toInt
      let s := CopyOut.aligned aligned_len { s with len := s.len &&& (16#32 - 1#32) }
      if ¬s.OnBoundary then .error .assertFailed
      else
        let s := if s.len ≠ 0#32 then (((s.post 8).post 4).post 2).post 1 else s
        if s.len ≠ 0#32 then .error .assertFailed
        else .ok s.puts

/-! ## Bytes -/

theorem dmaSpan_add (ea : BitVec 64) (ls : BitVec 32) (m n : ℕ) : dmaSpan ea ls (m + n) =
    dmaSpan ea ls m ++ dmaSpan (ea + BitVec.ofNat 64 m) (ls + BitVec.ofNat 32 m) n := by
  rw [dmaSpan, List.range_add, List.map_append, List.map_map]
  congr 1
  refine List.map_congr_left fun k _ => ?_
  rw [Function.comp, BitVec.ofNat_add, BitVec.ofNat_add, BitVec.add_assoc, BitVec.add_assoc]

variable {n len : ℕ} {ea : BitVec 64} {ls : BitVec 32} {puts : List MfcPut}

theorem MfcPut.bytes_eq_dmaSpan (ea : BitVec 64) (ls : BitVec 32) (small : n < 2 ^ 32) :
    (⟨ls, ea, BitVec.ofNat 32 n⟩ : MfcPut).bytes = dmaSpan ea ls n := by
  rw [bytes, BitVec.toNat_ofNat, Nat.mod_eq_of_lt small, dmaSpan]

theorem dmaSpan_nodup (ea : BitVec 64) (ls : BitVec 32) (small : len < 2 ^ 32) :
    ((dmaSpan ea ls len).map Prod.fst).Nodup ∧ ((dmaSpan ea ls len).map Prod.snd).Nodup := by
  rw [dmaSpan, List.map_map, List.map_map]
  constructor
  · refine List.Nodup.map_on (fun j here k there same => ?_) List.nodup_range
    rw [List.mem_range] at here there
    have offsets := (BitVec.add_right_inj ls).mp same
    rw [← BitVec.toNat_inj, BitVec.toNat_ofNat, BitVec.toNat_ofNat, Nat.mod_eq_of_lt (by omega),
      Nat.mod_eq_of_lt (by omega)] at offsets
    exact offsets
  · refine List.Nodup.map_on (fun j here k there same => ?_) List.nodup_range
    rw [List.mem_range] at here there
    have offsets := (BitVec.add_right_inj ea).mp same
    rw [← BitVec.toNat_inj, BitVec.toNat_ofNat, BitVec.toNat_ofNat, Nat.mod_eq_of_lt (by omega),
      Nat.mod_eq_of_lt (by omega)] at offsets
    exact offsets

theorem disjoint_of_union (small : len < 2 ^ 32)
    (union : puts.flatMap MfcPut.bytes = dmaSpan ea ls len) :
    puts.Pairwise fun s t => ∀ a ∈ s.bytes, ∀ b ∈ t.bytes, a.1 ≠ b.1 ∧ a.2 ≠ b.2 := by
  obtain ⟨locals, effectives⟩ := dmaSpan_nodup ea ls small
  rw [← union, List.map_flatMap, List.nodup_flatMap] at locals effectives
  refine (locals.2.and effectives.2).imp fun both a here b there => ⟨fun same => ?_, fun same => ?_⟩
  · exact both.1 (List.mem_map_of_mem here) (same ▸ List.mem_map_of_mem there)
  · exact both.2 (List.mem_map_of_mem here) (same ▸ List.mem_map_of_mem there)

theorem size_dvd (size : n ∈ [1, 2, 4, 8]) : n ∣ 8 := by
  simp only [List.mem_cons, List.not_mem_nil, or_false] at size
  rcases size with rfl | rfl | rfl | rfl <;> decide

theorem legal_piece (size : n ∈ [1, 2, 4, 8]) (locals : ls.toNat % n = 0)
    (effectives : ea.toNat % n = 0) : (⟨ls, ea, BitVec.ofNat 32 n⟩ : MfcPut).Legal := by
  have small : (BitVec.ofNat 32 n).toNat = n := by
    rw [BitVec.toNat_ofNat]
    have bound := Nat.le_of_dvd (by decide) (size_dvd size)
    exact Nat.mod_eq_of_lt (by omega)
  left
  rw [small]
  exact ⟨size, locals, effectives⟩

theorem not_legal {t : MfcPut} (large : 2 ^ 31 ≤ t.size.toNat) : ¬t.Legal := by
  rintro (small | whole)
  · have size := Nat.le_of_dvd (by decide) (size_dvd small.1)
    omega
  · have limit : mfcMaxDmaSize = 16384 := rfl
    have size := whole.2.1
    omega

/-! ## Short buffers are covered -/

theorem slowPieces_spec : ∀ len < 16, ∀ alignment < 8,
    (∀ p ∈ slowPieces len alignment, p.2 ∈ [1, 2, 4, 8] ∧ p.1 % p.2 = 0) ∧
      (slowPieces len alignment).flatMap (fun p => List.range' p.1 p.2) =
        List.range' alignment len := by
  decide +kernel

theorem roundDn_add_low {w : ℕ} (x p : BitVec w) {k : ℕ} (power : p.toNat = 2 ^ k) :
    roundDnWord x p + BitVec.ofNat w (x.toNat % p.toNat) = x := by
  rw [← toNat_and_low x power, BitVec.ofNat_toNat, BitVec.setWidth_eq, BitVec.add_comm, roundDnWord]
  exact and_add_and_not x (p - 1#w)

theorem dmaSpan_offset (ea : BitVec 64) (ls : BitVec 32) (offset len : ℕ) :
    dmaSpan (ea + BitVec.ofNat 64 offset) (ls + BitVec.ofNat 32 offset) len =
      (List.range' offset len).map fun k => (ls + BitVec.ofNat 32 k, ea + BitVec.ofNat 64 k) := by
  rw [List.range'_eq_map_range, List.map_map, dmaSpan]
  refine List.map_congr_left fun k _ => ?_
  rw [Function.comp, BitVec.ofNat_add, BitVec.ofNat_add, BitVec.add_assoc, BitVec.add_assoc]

theorem handleSlow_covers (matching : ls.toNat % 16 = ea.toNat % 16) (short : len < 16) :
    DmaCovers ea ls len (handleSlowAndTediousDma ea ls len) := by
  have low : (ls &&& 7#32).toNat = ls.toNat % 8 := toNat_and_low (p := 8#32) (k := 3) ls rfl
  have same : ls.toNat % 8 = ea.toNat % 8 := by omega
  have lsBase : roundDnWord ls 8#32 + BitVec.ofNat 32 (ls.toNat % 8) = ls :=
    roundDn_add_low ls 8#32 (k := 3) rfl
  have eaBase : roundDnWord ea 8#64 + BitVec.ofNat 64 (ls.toNat % 8) = ea := by
    rw [same]
    exact roundDn_add_low ea 8#64 (k := 3) rfl
  obtain ⟨aligned, whole⟩ := slowPieces_spec len short (ls.toNat % 8) (Nat.mod_lt _ (by decide))
  have union : (handleSlowAndTediousDma ea ls len).flatMap MfcPut.bytes = dmaSpan ea ls len := by
    rw [handleSlowAndTediousDma, low, List.flatMap_map]
    have pieces : ∀ p ∈ slowPieces len (ls.toNat % 8), MfcPut.bytes
        ⟨roundDnWord ls 8#32 + BitVec.ofNat 32 p.1, roundDnWord ea 8#64 + BitVec.ofNat 64 p.1,
          BitVec.ofNat 32 p.2⟩ = (List.range' p.1 p.2).map fun k =>
            (roundDnWord ls 8#32 + BitVec.ofNat 32 k, roundDnWord ea 8#64 + BitVec.ofNat 64 k) := by
      intro p inside
      have size : p.2 < 2 ^ 32 := by
        have sizes := (aligned p inside).1
        simp only [List.mem_cons, List.not_mem_nil, or_false] at sizes
        omega
      rw [MfcPut.bytes_eq_dmaSpan _ _ size, dmaSpan_offset]
    calc (slowPieces len (ls.toNat % 8)).flatMap (fun p => MfcPut.bytes _)
        = (slowPieces len (ls.toNat % 8)).flatMap (fun p => (List.range' p.1 p.2).map fun k =>
            (roundDnWord ls 8#32 + BitVec.ofNat 32 k, roundDnWord ea 8#64 + BitVec.ofNat 64 k)) :=
          List.flatMap_congr pieces
      _ = dmaSpan ea ls len := by
          rw [← List.map_flatMap, whole, ← dmaSpan_offset, lsBase, eaBase]
  refine ⟨fun t member => ?_, disjoint_of_union (by omega) union, union⟩
  rw [handleSlowAndTediousDma, low] at member
  obtain ⟨p, inside, rfl⟩ := List.mem_map.mp member
  obtain ⟨size, offset⟩ := aligned p inside
  have eight := size_dvd size
  have locals : (roundDnWord ls 8#32).toNat % p.2 = 0 := by
    rw [toNat_roundDnWord (k := 3) ls rfl]
    exact Nat.mod_eq_zero_of_dvd (Nat.dvd_trans eight (Nat.dvd_sub_mod _))
  have effectives : (roundDnWord ea 8#64).toNat % p.2 = 0 := by
    rw [toNat_roundDnWord (k := 3) ea rfl]
    exact Nat.mod_eq_zero_of_dvd (Nat.dvd_trans eight (Nat.dvd_sub_mod _))
  refine legal_piece size ?_ ?_
  · rw [toNat_add_mod _ _ (Nat.dvd_trans eight (by decide)), Nat.add_mod, locals, offset,
      Nat.zero_add, Nat.zero_mod]
  · rw [toNat_add_mod _ _ (Nat.dvd_trans eight (by decide)), Nat.add_mod, effectives, offset,
      Nat.zero_add, Nat.zero_mod]

namespace CopyOut

/-! ## Long buffers are covered -/

/-- The first `k` bytes of the buffer are moved. -/
structure Along (ea : BitVec 64) (ls : BitVec 32) (k : ℕ) (s : CopyOut) : Prop where
  effective : s.ea = ea + BitVec.ofNat 64 k
  locals : s.ls = ls + BitVec.ofNat 32 k
  legal : ∀ t ∈ s.puts, t.Legal
  union : s.puts.flatMap MfcPut.bytes = dmaSpan ea ls k

variable {ea : BitVec 64} {ls : BitVec 32} {k n : ℕ} {s : CopyOut}

theorem Along.put (along : Along ea ls k s) (small : n < 2 ^ 32)
    (legal : (⟨s.ls, s.ea, BitVec.ofNat 32 n⟩ : MfcPut).Legal) : Along ea ls (k + n) (s.put n) where
  effective := by
    change s.ea + BitVec.ofInt 64 n = _
    rw [along.effective, BitVec.ofInt_natCast, BitVec.ofNat_add, BitVec.add_assoc]
  locals := by
    change s.ls + BitVec.ofInt 32 n = _
    rw [along.locals, BitVec.ofInt_natCast, BitVec.ofNat_add, BitVec.add_assoc]
  legal := by
    rw [CopyOut.put, BitVec.ofInt_natCast]
    intro t member
    rcases List.mem_append.mp member with old | new
    · exact along.legal t old
    · rw [List.mem_singleton.mp new]
      exact legal
  union := by
    rw [CopyOut.put, BitVec.ofInt_natCast, BitVec.ofInt_natCast, List.flatMap_append, along.union,
      dmaSpan_add, List.flatMap_singleton, MfcPut.bytes_eq_dmaSpan _ _ small, along.effective,
      along.locals]

theorem Along.piece (along : Along ea ls k s) (matching : ls.toNat % 16 = ea.toNat % 16)
    (size : n ∈ [1, 2, 4, 8]) (aligned : (ea.toNat + k) % n = 0) :
    Along ea ls (k + n) (s.piece n) := by
  have eight := size_dvd size
  have small : n ≤ 8 := Nat.le_of_dvd (by decide) eight
  have sixteen : n ∣ 16 := Nat.dvd_trans eight (by decide)
  have same : (ls.toNat + k) % n = (ea.toNat + k) % n := by
    rw [Nat.add_mod, Nat.add_mod ea.toNat, ← Nat.mod_mod_of_dvd ls.toNat sixteen, matching,
      Nat.mod_mod_of_dvd _ sixteen]
  have moved := along.put (n := n) (by omega) (legal_piece size
    (by rw [along.locals, toNat_add_mod _ _ (Nat.dvd_trans eight (by decide)), same, aligned])
    (by rw [along.effective, toNat_add_mod _ _ (Nat.dvd_trans eight (by decide)), aligned]))
  exact ⟨moved.effective, moved.locals, moved.legal, moved.union⟩

theorem length_piece (enough : n ≤ s.len.toNat) : (s.piece n).len.toNat = s.len.toNat - n := by
  have bound := s.len.isLt
  change (s.len - BitVec.ofNat 32 n).toNat = _
  rw [BitVec.toNat_sub_of_le, BitVec.toNat_ofNat, Nat.mod_eq_of_lt (by omega)]
  rw [BitVec.le_def, BitVec.toNat_ofNat, Nat.mod_eq_of_lt (by omega)]
  exact enough

theorem Along.pre (along : Along ea ls k s) (matching : ls.toNat % 16 = ea.toNat % 16)
    (size : n ∈ [1, 2, 4, 8]) (aligned : (ea.toNat + k) % n = 0) {len : ℕ}
    (left : s.len.toNat + k = len) (room : n ≤ s.len.toNat) :
    ∃ k', k' ≤ k + n ∧ Along ea ls k' (s.pre n) ∧ (ea.toNat + k') % (2 * n) = 0 ∧
      (s.pre n).len.toNat + k' = len := by
  have sizes := size
  simp only [List.mem_cons, List.not_mem_nil, or_false] at sizes
  have bit : s.ea &&& BitVec.ofNat 64 n ≠ 0#64 ↔ (ea.toNat + k) % (2 * n) ≠ 0 := by
    have divides : 2 * n ∣ 2 ^ 64 := by
      rcases sizes with rfl | rfl | rfl | rfl <;> decide
    obtain ⟨j, power⟩ : ∃ j, (BitVec.ofNat 64 n).toNat = 2 ^ j := by
      rcases sizes with rfl | rfl | rfl | rfl
      · exact ⟨0, rfl⟩
      · exact ⟨1, rfl⟩
      · exact ⟨2, rfl⟩
      · exact ⟨3, rfl⟩
    have value : (BitVec.ofNat 64 n).toNat = n := by
      rw [BitVec.toNat_ofNat, Nat.mod_eq_of_lt (by omega)]
    rw [and_power_ne_zero power, value, along.effective]
    have wrapped := toNat_add_mod ea k divides
    generalize (ea + BitVec.ofNat 64 k).toNat = address at wrapped
    rcases sizes with rfl | rfl | rfl | rfl <;> omega
  rw [CopyOut.pre]
  by_cases even : (ea.toNat + k) % (2 * n) = 0
  · rw [if_neg (fun set => bit.mp set even)]
    exact ⟨k, Nat.le_add_right k n, along, even, left⟩
  · rw [if_pos (bit.mpr even)]
    refine ⟨k + n, Nat.le_refl _, along.piece matching size aligned, ?_, ?_⟩
    · rcases sizes with rfl | rfl | rfl | rfl <;> omega
    · rw [length_piece room]
      omega

theorem Along.post (along : Along ea ls k s) (matching : ls.toNat % 16 = ea.toNat % 16)
    (size : n ∈ [1, 2, 4, 8]) (aligned : (ea.toNat + k) % n = 0) {len : ℕ}
    (left : s.len.toNat + k = len) (short : s.len.toNat < 2 * n) :
    ∃ k', Along ea ls k' (s.post n) ∧ (ea.toNat + k') % n = 0 ∧
      (s.post n).len.toNat + k' = len ∧ (s.post n).len.toNat < n := by
  have bound : n ≤ 8 := Nat.le_of_dvd (by decide) (size_dvd size)
  have fits : BitVec.ofNat 32 n ≤ s.len ↔ n ≤ s.len.toNat := by
    rw [BitVec.le_def, BitVec.toNat_ofNat, Nat.mod_eq_of_lt (by omega)]
  rw [CopyOut.post]
  by_cases enough : n ≤ s.len.toNat
  · rw [if_pos (fits.mpr enough)]
    refine ⟨k + n, along.piece matching size aligned, ?_, ?_, ?_⟩
    · rw [← Nat.add_assoc, Nat.add_mod_right, aligned]
    · rw [length_piece enough]
      omega
    · rw [length_piece enough]
      omega
  · rw [if_neg (fun le => enough (fits.mp le))]
    exact ⟨k, along, aligned, left, Nat.lt_of_not_le enough⟩

theorem Along.aligned (along : Along ea ls k s) (matching : ls.toNat % 16 = ea.toNat % 16)
    (boundary : (ea.toNat + k) % 16 = 0) {m : ℕ} (whole : m % 16 = 0) :
    Along ea ls (k + m) (CopyOut.aligned m s) ∧ (CopyOut.aligned m s).len = s.len := by
  induction m using Nat.strongRecOn generalizing k s with
  | ind m ih =>
    rw [CopyOut.aligned]
    by_cases done : m = 0
    · subst done
      exact ⟨along, rfl⟩
    · have some : (m : Int) ≠ 0 := by omega
      have size : min (m : Int) mfcMaxDmaSize = (min m mfcMaxDmaSize : ℕ) := by omega
      have rest : (m : Int) - (min m mfcMaxDmaSize : ℕ) = (m - min m mfcMaxDmaSize : ℕ) := by omega
      have limit : mfcMaxDmaSize = 16384 := rfl
      have piece : min m mfcMaxDmaSize % 16 = 0 := by omega
      have value : (BitVec.ofNat 32 (min m mfcMaxDmaSize)).toNat = min m mfcMaxDmaSize := by
        rw [BitVec.toNat_ofNat, Nat.mod_eq_of_lt (by omega)]
      have legal : (⟨s.ls, s.ea, BitVec.ofNat 32 (min m mfcMaxDmaSize)⟩ : MfcPut).Legal := by
        right
        dsimp only
        rw [value, along.locals, along.effective, toNat_add_mod _ _ (by decide),
          toNat_add_mod _ _ (by decide)]
        omega
      obtain ⟨after, kept⟩ := ih (m - min m mfcMaxDmaSize) (by omega)
        (along.put (by omega) legal) (by omega) (by omega)
      have total : k + min m mfcMaxDmaSize + (m - min m mfcMaxDmaSize) = k + m := by omega
      rw [total] at after
      rw [if_neg some, size]
      dsimp only
      rw [rest]
      exact ⟨after, kept⟩

end CopyOut

/-! ## The copy out -/

/-- The bytes before the multiple of 16. -/
def preLen (ea : BitVec 64) : ℕ := (16 - ea.toNat % 16) % 16

namespace CopyOut

variable {ea : BitVec 64} {ls : BitVec 32} {k : ℕ} {s : CopyOut}

theorem Along.pres (along : Along ea ls 0 s) (matching : ls.toNat % 16 = ea.toNat % 16)
    (long : 16 ≤ s.len.toNat) :
    Along ea ls (preLen ea) ((((s.pre 1).pre 2).pre 4).pre 8) ∧
      ((((s.pre 1).pre 2).pre 4).pre 8).len.toNat + preLen ea = s.len.toNat := by
  obtain ⟨k₁, bound₁, along₁, even₁, left₁⟩ :=
    along.pre matching (by decide) (Nat.mod_one _) (Nat.add_zero _) (by omega)
  obtain ⟨k₂, bound₂, along₂, even₂, left₂⟩ :=
    along₁.pre matching (by decide) even₁ left₁ (by omega)
  obtain ⟨k₄, bound₄, along₄, even₄, left₄⟩ :=
    along₂.pre matching (by decide) even₂ left₂ (by omega)
  obtain ⟨k₈, bound₈, along₈, even₈, left₈⟩ :=
    along₄.pre matching (by decide) even₄ left₄ (by omega)
  have place : k₈ = preLen ea := by
    rw [preLen]
    omega
  subst place
  exact ⟨along₈, left₈⟩

theorem Along.posts (along : Along ea ls k s) (matching : ls.toNat % 16 = ea.toNat % 16)
    (boundary : (ea.toNat + k) % 16 = 0) (short : s.len.toNat < 16) :
    Along ea ls (k + s.len.toNat) ((((s.post 8).post 4).post 2).post 1) ∧
      ((((s.post 8).post 4).post 2).post 1).len = 0#32 := by
  obtain ⟨k₈, along₈, even₈, left₈, short₈⟩ :=
    along.post (n := 8) matching (by decide) (by omega) (Nat.add_comm _ _) short
  obtain ⟨k₄, along₄, even₄, left₄, short₄⟩ :=
    along₈.post (n := 4) matching (by decide) (by omega) left₈ short₈
  obtain ⟨k₂, along₂, even₂, left₂, short₂⟩ :=
    along₄.post (n := 2) matching (by decide) (by omega) left₄ short₄
  obtain ⟨k₁, along₁, even₁, left₁, short₁⟩ :=
    along₂.post (n := 1) matching (by decide) (by omega) left₂ short₂
  have none : ((((s.post 8).post 4).post 2).post 1).len.toNat = 0 := by omega
  have whole : k₁ = k + s.len.toNat := by omega
  subst whole
  exact ⟨along₁, BitVec.eq_of_toNat_eq none⟩

theorem Along.onBoundary (along : Along ea ls k s) (matching : ls.toNat % 16 = ea.toNat % 16)
    (boundary : (ea.toNat + k) % 16 = 0) : s.OnBoundary := by
  have effective : (s.ea &&& 0xf#64).toNat = s.ea.toNat % 16 :=
    toNat_and_low (p := 16#64) (k := 4) s.ea rfl
  have locals : (s.ls &&& 0xf#32).toNat = s.ls.toNat % 16 :=
    toNat_and_low (p := 16#32) (k := 4) s.ls rfl
  rw [along.effective, toNat_add_mod _ _ (by decide), boundary, ← along.effective] at effective
  rw [along.locals, toNat_add_mod _ _ (by decide), ← along.locals] at locals
  constructor
  · exact BitVec.eq_of_toNat_eq effective
  · refine BitVec.eq_of_toNat_eq (locals.trans ?_)
    rw [BitVec.toNat_zero]
    omega

theorem start_pres (matching : ls.toNat % 16 = ea.toNat % 16) {len : BitVec 32}
    (long : 16 ≤ len.toNat)
    (stepped : s = if ea &&& 0xf#64 ≠ 0#64 then
      ((((⟨ea, ls, len, []⟩ : CopyOut).pre 1).pre 2).pre 4).pre 8 else ⟨ea, ls, len, []⟩) :
    Along ea ls (preLen ea) s ∧ s.len.toNat + preLen ea = len.toNat := by
  have start : Along ea ls 0 ⟨ea, ls, len, []⟩ :=
    { effective := (BitVec.add_zero ea).symm
      locals := (BitVec.add_zero ls).symm
      legal := fun t member => absurd member List.not_mem_nil
      union := rfl }
  have low : (ea &&& 0xf#64).toNat = ea.toNat % 16 :=
    toNat_and_low (p := 16#64) (k := 4) ea rfl
  split at stepped
  · subst stepped
    exact start.pres matching long
  · rename_i even
    subst stepped
    rw [not_not] at even
    rw [even, BitVec.toNat_zero] at low
    have none : preLen ea = 0 := by
      rw [preLen]
      omega
    rw [none]
    exact ⟨start, Nat.add_zero _⟩

theorem Along.rest (along : Along ea ls k s) (matching : ls.toNat % 16 = ea.toNat % 16)
    (boundary : (ea.toNat + k) % 16 = 0) (short : s.len.toNat < 16) {last : CopyOut}
    (stepped : last = if s.len ≠ 0#32 then (((s.post 8).post 4).post 2).post 1 else s) :
    Along ea ls (k + s.len.toNat) last ∧ last.len = 0#32 := by
  split at stepped
  · subst stepped
    exact along.posts matching boundary short
  · rename_i none
    subst stepped
    rw [not_not] at none
    refine ⟨?_, none⟩
    rw [none]
    exact along

theorem mem_post {n : ℕ} {t : MfcPut} (member : t ∈ s.puts) : t ∈ (s.post n).puts := by
  rw [CopyOut.post]
  split
  · exact List.mem_append_left _ member
  · exact member

end CopyOut

theorem copyOut_long {len : BitVec 32} (matching : ls.toNat % 16 = ea.toNat % 16)
    (long : 16 ≤ len.toNat) (fits : len.toNat - preLen ea < 2 ^ 31) :
    ∃ puts, copyOut ea ls len = .ok puts ∧ DmaCovers ea ls len.toNat puts := by
  have some : len ≠ 0#32 := by
    rintro rfl
    exact absurd long (by decide)
  have enough : ¬len < 16#32 := by
    rw [BitVec.lt_def]
    exact not_lt.mpr long
  obtain ⟨along, left⟩ := CopyOut.start_pres matching long rfl
  rw [copyOut, if_neg some, if_neg enough]
  dsimp only
  generalize (if ea &&& 0xf#64 ≠ 0#64 then
    ((((⟨ea, ls, len, []⟩ : CopyOut).pre 1).pre 2).pre 4).pre 8 else ⟨ea, ls, len, []⟩) = s
    at along left ⊢
  have boundary : (ea.toNat + preLen ea) % 16 = 0 := by
    rw [preLen]
    omega
  have middle : (roundDnWord s.len 16#32).toInt = (s.len.toNat - s.len.toNat % 16 : ℕ) := by
    have value : (roundDnWord s.len 16#32).toNat = s.len.toNat - s.len.toNat % 16 :=
      toNat_roundDnWord (k := 4) s.len rfl
    rw [BitVec.toInt_eq_toNat_of_lt (by omega), value]
  have rest : (s.len &&& (16#32 - 1#32)).toNat = s.len.toNat % 16 :=
    toNat_and_low (p := 16#32) (k := 4) s.len rfl
  have cut : CopyOut.Along ea ls (preLen ea) { s with len := s.len &&& (16#32 - 1#32) } :=
    ⟨along.effective, along.locals, along.legal, along.union⟩
  obtain ⟨moved, kept⟩ := cut.aligned matching boundary
    (show (s.len.toNat - s.len.toNat % 16) % 16 = 0 by omega)
  have again : (ea.toNat + (preLen ea + (s.len.toNat - s.len.toNat % 16))) % 16 = 0 := by omega
  rw [if_neg (not_not.mpr (along.onBoundary matching boundary)), middle,
    if_neg (not_not.mpr (moved.onBoundary matching again))]
  generalize CopyOut.aligned ((s.len.toNat - s.len.toNat % 16 : ℕ) : Int)
    { s with len := s.len &&& (16#32 - 1#32) } = m at moved kept ⊢
  have length : m.len.toNat = s.len.toNat % 16 := by
    rw [kept]
    exact rest
  obtain ⟨covered, empty⟩ := moved.rest matching again (by omega) rfl
  have total : preLen ea + (s.len.toNat - s.len.toNat % 16) + m.len.toNat = len.toNat := by omega
  rw [total] at covered
  generalize (if m.len ≠ 0#32 then (((m.post 8).post 4).post 2).post 1 else m) = last
    at covered empty ⊢
  rw [if_neg (not_not.mpr empty)]
  exact ⟨last.puts, rfl, covered.legal, disjoint_of_union len.isLt covered.union, covered.union⟩

theorem copyOut_beyond {len : BitVec 32} (matching : ls.toNat % 16 = ea.toNat % 16)
    (beyond : 2 ^ 31 ≤ len.toNat - preLen ea) (copied : copyOut ea ls len = .ok puts) :
    ∃ t ∈ puts, 2 ^ 31 ≤ t.size.toNat := by
  have some : len ≠ 0#32 := by
    rintro rfl
    exact absurd beyond (by simp)
  have enough : ¬len < 16#32 := by
    rw [BitVec.lt_def]
    have sixteen : (16#32).toNat = 16 := rfl
    omega
  obtain ⟨along, left⟩ := CopyOut.start_pres matching (show 16 ≤ len.toNat by omega) rfl
  rw [copyOut, if_neg some, if_neg enough] at copied
  dsimp only at copied
  generalize (if ea &&& 0xf#64 ≠ 0#64 then
    ((((⟨ea, ls, len, []⟩ : CopyOut).pre 1).pre 2).pre 4).pre 8 else ⟨ea, ls, len, []⟩) = s
    at along left copied
  have value : (roundDnWord s.len 16#32).toNat = s.len.toNat - s.len.toNat % 16 :=
    toNat_roundDnWord (k := 4) s.len rfl
  have large : 2 ^ 31 ≤ (roundDnWord s.len 16#32).toNat := by omega
  have negative : (roundDnWord s.len 16#32).toInt < 0 := by
    rw [BitVec.toInt_eq_toNat_cond, if_neg (by omega)]
    have bound := (roundDnWord s.len 16#32).isLt
    omega
  have once : CopyOut.aligned (roundDnWord s.len 16#32).toInt
      { s with len := s.len &&& (16#32 - 1#32) } =
        CopyOut.put { s with len := s.len &&& (16#32 - 1#32) } (roundDnWord s.len 16#32).toInt := by
    have all : min (roundDnWord s.len 16#32).toInt (mfcMaxDmaSize : Int) =
        (roundDnWord s.len 16#32).toInt := by
      omega
    rw [CopyOut.aligned, if_neg (by omega), all]
    dsimp only
    rw [Int.sub_self, CopyOut.aligned, if_pos rfl]
  rw [once] at copied
  have member : (⟨s.ls, s.ea, roundDnWord s.len 16#32⟩ : MfcPut) ∈
      (CopyOut.put { s with len := s.len &&& (16#32 - 1#32) }
        (roundDnWord s.len 16#32).toInt).puts := by
    rw [CopyOut.put, BitVec.ofInt_toInt]
    exact List.mem_append_right _ (List.mem_singleton_self _)
  generalize CopyOut.put { s with len := s.len &&& (16#32 - 1#32) }
    (roundDnWord s.len 16#32).toInt = m at member copied
  by_cases before : s.OnBoundary
  · by_cases behind : m.OnBoundary
    · rw [if_neg (not_not.mpr before), if_neg (not_not.mpr behind)] at copied
      have last : (⟨s.ls, s.ea, roundDnWord s.len 16#32⟩ : MfcPut) ∈
          (if m.len ≠ 0#32 then (((m.post 8).post 4).post 2).post 1 else m).puts := by
        split
        · exact CopyOut.mem_post (CopyOut.mem_post (CopyOut.mem_post (CopyOut.mem_post member)))
        · exact member
      generalize (if m.len ≠ 0#32 then (((m.post 8).post 4).post 2).post 1 else m) = final
        at last copied
      by_cases done : final.len ≠ 0#32
      · rw [if_pos done] at copied
        cases copied
      · rw [if_neg done] at copied
        obtain rfl := Except.ok.inj copied
        exact ⟨_, last, large⟩
    · rw [if_neg (not_not.mpr before), if_pos behind] at copied
      cases copied
  · rw [if_pos before] at copied
    cases copied

/-- The transfers cover the buffer exactly, unless the middle of it does not fit an `int`. -/
theorem copyOut_covers_iff {ea : BitVec 64} {ls : BitVec 32} (len : BitVec 32)
    (matching : ls.toNat % 16 = ea.toNat % 16) :
    (∃ puts, copyOut ea ls len = .ok puts ∧ DmaCovers ea ls len.toNat puts) ↔
      len.toNat - preLen ea < 2 ^ 31 := by
  constructor
  · rintro ⟨puts, copied, covers⟩
    by_contra beyond
    obtain ⟨t, member, large⟩ := copyOut_beyond matching (not_lt.mp beyond) copied
    exact not_legal large (covers.legal t member)
  · intro fits
    rcases Nat.lt_or_ge len.toNat 16 with short | long
    · by_cases none : len = 0#32
      · subst none
        exact ⟨[], rfl, fun t member => absurd member List.not_mem_nil, List.Pairwise.nil, rfl⟩
      · have less : len < 16#32 := BitVec.lt_def.mpr short
        refine ⟨handleSlowAndTediousDma ea ls len.toNat, ?_, handleSlow_covers matching short⟩
        rw [copyOut, if_neg none, if_pos less]
    · exact copyOut_long matching long fits

/-- A buffer of a hundred bytes that begins at an odd address. -/
theorem copyOut_covers_hundred :
    (∃ puts, copyOut 0x1003#64 0x83#32 100#32 = .ok puts ∧
      DmaCovers 0x1003#64 0x83#32 (100#32).toNat puts) ↔
        (100#32).toNat - preLen 0x1003#64 < 2 ^ 31 :=
  copyOut_covers_iff 100#32 (by decide)

/-- A length that the size check of the SPU rounds up to nothing. -/
theorem copyOut_one_transfer : (0xffffff81#32).toNat % 16 = 1 ∧
    ¬∃ puts, copyOut 0x1000#64 0x80#32 0xffffff81#32 = .ok puts ∧
      DmaCovers 0x1000#64 0x80#32 (0xffffff81#32).toNat puts := by
  refine ⟨by decide, ?_⟩
  rintro ⟨puts, copied, covers⟩
  obtain ⟨t, member, large⟩ := copyOut_beyond (by decide) (by decide) copied
  exact not_legal large (covers.legal t member)

end GnuRadio
