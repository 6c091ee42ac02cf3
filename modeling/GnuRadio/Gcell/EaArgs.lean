import GnuRadio.Gcell.DmaPut
import GnuRadio.Misc.Except
import Mathlib.Data.List.Induction

/-!
# Fetching the arguments of a job

A job has arguments in effective memory. `submit_job` checks them, and the SPU gives each a place in
its buffers and builds the list of a single DMA command that fetches all of those it has to get.
-/

namespace GnuRadio

/-- `MAX_ARGS_EA` (`gc_job_desc.h:78`). -/
def maxArgsEa : ℕ := 8

/-- `CACHE_LINE_SIZE` (`gc_spu_config.h:26`). -/
def cacheLineSize : ℕ := 128

/-- `GC_SPU_BUFSIZE` (`gc_spu_config.h:28-34`). -/
def gcSpuBufsize : ℕ := 40 * 1024 + maxArgsEa * cacheLineSize

/-- `NELMS` (`gc_main.c:301-303`). -/
def nelms : ℕ := max maxArgsEa ((gcSpuBufsize + mfcMaxDmaSize - 1) / mfcMaxDmaSize)

/-- `GCJD_DMA_GET` and `GCJD_DMA_PUT` (`gc_job_desc.h:134-135`). -/
def gcjdDmaGet : BitVec 32 := 1#32

def gcjdDmaPut : BitVec 32 := 2#32

/-- `gc_job_ea_arg_t` (`gc_job_desc.h:141-163`) as it is submitted. -/
structure GcJobEaArg where
  ea_addr : BitVec 64
  direction : BitVec 32
  get_size : BitVec 32
  put_size : BitVec 32
  deriving DecidableEq

/-- The statuses of a job that `check_ea_args` sets. -/
inductive GcJobStatus where
  | badNEa
  | badDirection
  | badEah
  deriving DecidableEq

/-- `check_ea_args` (`gc_job_manager_impl.cc:497-532`), with `direction_union`. -/
def checkEaArgs (args : List GcJobEaArg) : Except GcJobStatus (BitVec 32) :=
  if maxArgsEa < args.length then .error .badNEa
  else if args.any fun arg => arg.direction ≠ gcjdDmaGet ∧ arg.direction ≠ gcjdDmaPut then
    .error .badDirection
  else
    match args with
    | [] => .ok 0#32
    | first :: others =>
      if others.any fun arg => arg.ea_addr >>> 32 ≠ first.ea_addr >>> 32 then .error .badEah
      else .ok (args.foldl (fun dir_union arg => dir_union ||| arg.direction) 0#32)

/-- `mfc_list_element_t`. -/
structure MfcListElement where
  size : ℕ
  eal : BitVec 32
  deriving DecidableEq

/-- `mfc_getl`: where a byte behind the local address comes from. The elements are fetched one after
another, all from the 4 GB that the high half of the address names. -/
structure MfcGetl where
  source : BitVec 64 → List MfcListElement → ℕ → Option (BitVec 64)
  first : ∀ ea e list k, k < e.size → e.size ≤ mfcMaxDmaSize → e.eal.toNat + k < 2 ^ 32 →
    source ea (e :: list) k =
      some (BitVec.ofNat 64 (ea.toNat / 2 ^ 32 * 2 ^ 32 + (e.eal.toNat + k)))
  next : ∀ ea e list k, e.size % 16 = 0 → e.size ≤ mfcMaxDmaSize →
    source ea (e :: list) (e.size + k) = source ea list k
  area : ∀ ea list k a, source ea list k = some a → a.toNat / 2 ^ 32 = ea.toNat / 2 ^ 32

/-- The buffers of the SPU: `_gci_getbuf[0]` and `_gci_putbuf[pb_idx]`. -/
inductive LsBuffer where
  | getbuf
  | putbuf
  deriving DecidableEq

/-- A local address: both buffers begin on a cache line. -/
structure LsAddr where
  buffer : LsBuffer
  offset : BitVec 32
  deriving DecidableEq

/-- The variables of `process_job`, with the addresses that the arguments were given. -/
structure EaAssign where
  dma_get_list : List MfcListElement
  get_t : BitVec 32
  total_get_dma_len : BitVec 32
  put_t : BitVec 32
  total_put_alloc : BitVec 32
  ls_addr : List LsAddr

/-- How `process_job` ends when it does not run the job. -/
inductive EaStop where
  | argsTooLong
  | assertFailed
  deriving DecidableEq

/-- The elements of the get list for an argument (`gc_main.c:381-388`), in as many turns as it takes
at most. -/
def getPieces : ℕ → ℕ → BitVec 64 → List MfcListElement
  | 0, _, _ => []
  | turns + 1, dma_len, ea_base =>
      if dma_len = 0 then []
      else
        let n := min dma_len mfcMaxDmaSize
        ⟨n, ea_base.setWidth 32⟩ :: getPieces turns (dma_len - n) (ea_base + BitVec.ofNat 64 n)

/-- `offset` of an argument: where it begins in its cache line. -/
def GcJobEaArg.offset (arg : GcJobEaArg) : BitVec 32 :=
  (arg.ea_addr &&& (BitVec.ofNat 64 cacheLineSize - 1#64)).setWidth 32

/-- `ea_base` of an argument. -/
def GcJobEaArg.eaBase (arg : GcJobEaArg) : BitVec 64 :=
  roundDnWord arg.ea_addr (BitVec.ofNat 64 cacheLineSize)

/-- A round of the loop over the arguments (`gc_main.c:347-424`). -/
def assignArg (s : EaAssign) (arg : GcJobEaArg) : Except EaStop EaAssign :=
  if arg.direction = gcjdDmaGet then
    let dma_len := roundUpWord (arg.get_size + arg.offset) (BitVec.ofNat 32 cacheLineSize)
    let total_get_dma_len := s.total_get_dma_len + dma_len
    if gcSpuBufsize < total_get_dma_len.toNat then .error .argsTooLong
    else .ok { s with
      dma_get_list := s.dma_get_list ++ getPieces dma_len.toNat dma_len.toNat arg.eaBase
      get_t := s.get_t + dma_len
      total_get_dma_len
      ls_addr := s.ls_addr ++ [⟨.getbuf, s.get_t + arg.offset⟩] }
  else if arg.direction = gcjdDmaPut then
    let ls_alloc_len := roundUpWord (arg.put_size + arg.offset) (BitVec.ofNat 32 cacheLineSize)
    let total_put_alloc := s.total_put_alloc + ls_alloc_len
    if gcSpuBufsize < total_put_alloc.toNat then .error .argsTooLong
    else if arg.ea_addr.setWidth 32 &&& 0x7f#32 ≠ (s.put_t + arg.offset) &&& 0x7f#32 ∨
        arg.eaBase &&& 0x7f#64 ≠ 0#64 ∨ s.put_t &&& 0x7f#32 ≠ 0#32 then .error .assertFailed
    else .ok { s with
      put_t := s.put_t + ls_alloc_len
      total_put_alloc
      ls_addr := s.ls_addr ++ [⟨.putbuf, s.put_t + arg.offset⟩] }
  else .error .assertFailed

/-- What the loop does before the get list is handed to `mfc_getl`. -/
def assignArgs (args : List GcJobEaArg) : Except EaStop EaAssign :=
  args.foldlM assignArg ⟨[], 0#32, 0#32, 0#32, 0#32, []⟩

namespace GcJobEaArg

/-- The buffer and the number of bytes of an argument. -/
def buffer (arg : GcJobEaArg) : LsBuffer :=
  if arg.direction = gcjdDmaGet then .getbuf else .putbuf

def size (arg : GcJobEaArg) : ℕ :=
  if arg.direction = gcjdDmaGet then arg.get_size.toNat else arg.put_size.toNat

/-- The bytes of the cache lines that an argument touches. -/
def lines (arg : GcJobEaArg) : ℕ :=
  (arg.size + arg.ea_addr.toNat % cacheLineSize + cacheLineSize - 1) / cacheLineSize * cacheLineSize

/-- The number of pieces in which an argument is fetched. -/
def pieceCount (arg : GcJobEaArg) : ℕ :=
  if arg.direction = gcjdDmaGet then (arg.lines + mfcMaxDmaSize - 1) / mfcMaxDmaSize else 0

end GcJobEaArg

/-- `common_ea` (`gc_main.c:342`). -/
def commonEa (args : List GcJobEaArg) : BitVec 64 := (args.head?.map GcJobEaArg.ea_addr).getD 0#64

/-- The job function finds its arguments where it is told, and nothing is written elsewhere. -/
structure EaFetched (mfc : MfcGetl) (args : List GcJobEaArg) (s : EaAssign) : Prop where
  elements : s.dma_get_list.length ≤ nelms
  sizes : ∀ e ∈ s.dma_get_list, e.size ≤ mfcMaxDmaSize
  assigned : s.ls_addr.length = args.length
  inside : ∀ p ∈ args.zip s.ls_addr,
    p.2.buffer = p.1.buffer ∧ p.2.offset.toNat + p.1.size ≤ gcSpuBufsize
  disjoint : (args.zip s.ls_addr).Pairwise fun p q => p.2.buffer = q.2.buffer →
    p.2.offset.toNat + p.1.size ≤ q.2.offset.toNat ∨ q.2.offset.toNat + q.1.size ≤ p.2.offset.toNat
  fetched : ∀ p ∈ args.zip s.ls_addr, p.1.direction = gcjdDmaGet → ∀ k < p.1.size,
    mfc.source (commonEa args) s.dma_get_list (p.2.offset.toNat + k) =
      some (p.1.ea_addr + BitVec.ofNat 64 k)

/-- The arguments fit the tables of the SPU: none is longer than a buffer, there are not too many
pieces, and none that is fetched crosses a boundary of 4 GB. -/
structure EaFits (args : List GcJobEaArg) : Prop where
  sizes : ∀ arg ∈ args, arg.size ≤ gcSpuBufsize
  pieces : (args.map GcJobEaArg.pieceCount).sum ≤ nelms
  area : ∀ arg ∈ args, arg.direction = gcjdDmaGet →
    arg.ea_addr.toNat % 2 ^ 32 + arg.size ≤ 2 ^ 32

/-! ## Pieces -/

variable {turns dma_len : ℕ} {s t : EaAssign} {arg : GcJobEaArg} {args : List GcJobEaArg}
  {ea : BitVec 64} {stop : EaStop}

theorem length_getPieces (enough : dma_len ≤ turns) (ea_base : BitVec 64) :
    (getPieces turns dma_len ea_base).length = (dma_len + mfcMaxDmaSize - 1) / mfcMaxDmaSize := by
  have limit : mfcMaxDmaSize = 16384 := rfl
  induction turns generalizing dma_len ea_base with
  | zero =>
    obtain rfl : dma_len = 0 := by omega
    rfl
  | succ turns ih =>
    rw [getPieces]
    by_cases none : dma_len = 0
    · subst none
      rfl
    · rw [if_neg none, List.length_cons, ih (by omega), limit]
      omega

theorem getPieces_sizes (whole : dma_len % 16 = 0) (ea_base : BitVec 64) :
    ∀ e ∈ getPieces turns dma_len ea_base, e.size % 16 = 0 ∧ e.size ≤ mfcMaxDmaSize := by
  have limit : mfcMaxDmaSize = 16384 := rfl
  induction turns generalizing dma_len ea_base with
  | zero =>
    intro e member
    cases member
  | succ turns ih =>
    rw [getPieces]
    by_cases none : dma_len = 0
    · rw [if_pos none]
      intro e member
      cases member
    · rw [if_neg none]
      intro e member
      rcases List.mem_cons.mp member with first | later
      · rw [first]
        dsimp only
        omega
      · exact ih (by omega) _ e later

theorem getPieces_sum (enough : dma_len ≤ turns) (ea_base : BitVec 64) :
    ((getPieces turns dma_len ea_base).map MfcListElement.size).sum = dma_len := by
  have limit : mfcMaxDmaSize = 16384 := rfl
  induction turns generalizing dma_len ea_base with
  | zero =>
    obtain rfl : dma_len = 0 := by omega
    rfl
  | succ turns ih =>
    rw [getPieces]
    by_cases none : dma_len = 0
    · rw [if_pos none, none]
      rfl
    · rw [if_neg none, List.map_cons, List.sum_cons, ih (by omega)]
      dsimp only
      omega

namespace MfcGetl

variable (mfc : MfcGetl)

theorem source_skip (ea : BitVec 64) {list : List MfcListElement}
    (sizes : ∀ e ∈ list, e.size % 16 = 0 ∧ e.size ≤ mfcMaxDmaSize) (rest : List MfcListElement)
    (k : ℕ) : mfc.source ea (list ++ rest) ((list.map MfcListElement.size).sum + k) =
      mfc.source ea rest k := by
  induction list with
  | nil => rw [List.nil_append, List.map_nil, List.sum_nil, Nat.zero_add]
  | cons e list ih =>
    obtain ⟨whole, small⟩ := sizes e List.mem_cons_self
    rw [List.cons_append, List.map_cons, List.sum_cons, Nat.add_assoc, mfc.next _ _ _ _ whole small,
      ih fun e member => sizes e (List.mem_cons_of_mem _ member)]

theorem source_getPieces (ea : BitVec 64) {turns dma_len : ℕ} (enough : dma_len ≤ turns)
    (whole : dma_len % 16 = 0) (ea_base : BitVec 64) (rest : List MfcListElement) {k : ℕ}
    (inside : k < dma_len) (area : ea_base.toNat % 2 ^ 32 + k < 2 ^ 32) :
    mfc.source ea (getPieces turns dma_len ea_base ++ rest) k =
      some (BitVec.ofNat 64 (ea.toNat / 2 ^ 32 * 2 ^ 32 + (ea_base.toNat % 2 ^ 32 + k))) := by
  have limit : mfcMaxDmaSize = 16384 := rfl
  induction turns generalizing dma_len ea_base k with
  | zero => omega
  | succ turns ih =>
    have none : dma_len ≠ 0 := by omega
    have low : (ea_base.setWidth 32).toNat = ea_base.toNat % 2 ^ 32 := BitVec.toNat_setWidth ..
    rw [getPieces, if_neg none]
    dsimp only
    rw [List.cons_append]
    by_cases first : k < min dma_len mfcMaxDmaSize
    · rw [mfc.first _ _ _ _ first (Nat.min_le_right _ _) (by rw [low]; exact area), low]
    · obtain ⟨later, rfl⟩ := Nat.exists_eq_add_of_le (Nat.le_of_not_lt first)
      have base : (ea_base + BitVec.ofNat 64 (min dma_len mfcMaxDmaSize)).toNat % 2 ^ 32 =
          ea_base.toNat % 2 ^ 32 + min dma_len mfcMaxDmaSize := by
        rw [toNat_add_mod _ _ (by decide)]
        omega
      have after := mfc.next ea ⟨min dma_len mfcMaxDmaSize, ea_base.setWidth 32⟩
        (getPieces turns (dma_len - min dma_len mfcMaxDmaSize)
          (ea_base + BitVec.ofNat 64 (min dma_len mfcMaxDmaSize)) ++ rest) later
        (by dsimp only; omega) (Nat.min_le_right _ _)
      rw [after, ih (by omega) (by omega) _ (by omega) (by rw [base]; omega), base, Nat.add_assoc]

end MfcGetl

/-! ## The lengths of an argument -/

namespace GcJobEaArg

variable (arg : GcJobEaArg)

theorem line_lt : arg.ea_addr.toNat % cacheLineSize < 128 := Nat.mod_lt _ (by decide)

theorem toNat_offset : arg.offset.toNat = arg.ea_addr.toNat % cacheLineSize := by
  have low := toNat_and_low arg.ea_addr (p := 128#64) (k := 7) rfl
  rw [offset, BitVec.toNat_setWidth]
  rw [show (128#64).toNat = cacheLineSize from rfl] at low
  have inside := arg.line_lt
  rw [show BitVec.ofNat 64 cacheLineSize = 128#64 from rfl, low, Nat.mod_eq_of_lt (by omega)]

theorem toNat_eaBase :
    arg.eaBase.toNat = arg.ea_addr.toNat - arg.ea_addr.toNat % cacheLineSize :=
  toNat_roundDnWord arg.ea_addr (p := BitVec.ofNat 64 cacheLineSize) (k := 7) rfl

theorem toNat_alloc {size : BitVec 32} (small : size.toNat ≤ gcSpuBufsize) :
    (roundUpWord (size + arg.offset) (BitVec.ofNat 32 cacheLineSize)).toNat =
      (size.toNat + arg.ea_addr.toNat % cacheLineSize + cacheLineSize - 1) / cacheLineSize *
        cacheLineSize := by
  have line : cacheLineSize = 128 := rfl
  have buffer : gcSpuBufsize = 41984 := rfl
  have inside := arg.line_lt
  have sum : (size + arg.offset).toNat = size.toNat + arg.ea_addr.toNat % cacheLineSize := by
    rw [BitVec.toNat_add, toNat_offset, Nat.mod_eq_of_lt (by omega)]
  have lineWord : (BitVec.ofNat 32 cacheLineSize).toNat = cacheLineSize := rfl
  rw [toNat_roundUpWord _ (k := 7) rfl, sum, lineWord]
  rw [sum, lineWord, line]
  rw [line] at inside
  omega

theorem alloc_mod (size : BitVec 32) :
    (roundUpWord (size + arg.offset) (BitVec.ofNat 32 cacheLineSize)).toNat % cacheLineSize =
      0 := by
  have lineWord : (BitVec.ofNat 32 cacheLineSize).toNat = 128 := rfl
  have line : cacheLineSize = 128 := rfl
  rw [roundUpWord, toNat_roundDnWord _ (k := 7) rfl, lineWord, line]
  omega

theorem lines_mod : arg.lines % cacheLineSize = 0 := Nat.mul_mod_left _ _

theorem size_lines : arg.size + arg.ea_addr.toNat % cacheLineSize ≤ arg.lines := by
  have line : cacheLineSize = 128 := rfl
  rw [lines, line]
  omega

end GcJobEaArg

/-! ## The places of the arguments -/

namespace EaAssign

/-- Where the next argument goes in a buffer. -/
def next (s : EaAssign) : LsBuffer → BitVec 32
  | .getbuf => s.get_t
  | .putbuf => s.put_t

/-- The lengths in the buffers are those that are checked. -/
structure Counted (s : EaAssign) : Prop where
  get_total : s.total_get_dma_len = s.get_t
  put_total : s.total_put_alloc = s.put_t
  fits : ∀ b, (s.next b).toNat ≤ gcSpuBufsize

/-- What a round does for an argument that is not longer than a buffer. -/
structure Assigned (s : EaAssign) (arg : GcJobEaArg) (t : EaAssign) : Prop where
  counted : t.Counted
  dma_get_list : t.dma_get_list = s.dma_get_list ++
    if arg.direction = gcjdDmaGet then getPieces arg.lines arg.lines arg.eaBase else []
  ls_addr : t.ls_addr = s.ls_addr ++ [⟨arg.buffer, s.next arg.buffer + arg.offset⟩]
  next : ∀ b, (t.next b).toNat =
    (s.next b).toNat + if b = arg.buffer then arg.lines else 0

end EaAssign

open EaAssign

theorem assignArg_ok (counted : s.Counted) (small : arg.size ≤ gcSpuBufsize)
    (done : assignArg s arg = .ok t) : s.Assigned arg t := by
  have buffer : gcSpuBufsize = 41984 := rfl
  have getFits : s.get_t.toNat ≤ gcSpuBufsize := counted.fits .getbuf
  have putFits : s.put_t.toNat ≤ gcSpuBufsize := counted.fits .putbuf
  have linesSmall : arg.lines ≤ gcSpuBufsize + 254 := by
    have line : cacheLineSize = 128 := rfl
    have inside := arg.line_lt
    rw [GcJobEaArg.lines, line]
    rw [line] at inside
    omega
  by_cases get : arg.direction = gcjdDmaGet
  · have getSize : arg.size = arg.get_size.toNat := if_pos get
    have isGet : arg.buffer = .getbuf := if_pos get
    have alloc := arg.toNat_alloc (getSize ▸ small)
    rw [← getSize] at alloc
    change _ = arg.lines at alloc
    rw [assignArg, if_pos get] at done
    dsimp only at done
    generalize roundUpWord (arg.get_size + arg.offset) (BitVec.ofNat 32 cacheLineSize) = dma_len
      at alloc done
    have sum : (s.get_t + dma_len).toNat = s.get_t.toNat + arg.lines := by
      rw [BitVec.toNat_add, alloc, Nat.mod_eq_of_lt (by omega)]
    rw [counted.get_total] at done
    by_cases long : gcSpuBufsize < (s.get_t + dma_len).toNat
    · rw [if_pos long] at done
      cases done
    · rw [if_neg long] at done
      obtain rfl := Except.ok.inj done
      refine ⟨⟨rfl, counted.put_total, ?_⟩, ?_, ?_, ?_⟩
      · intro b
        cases b with
        | getbuf => exact Nat.le_of_not_lt long
        | putbuf => exact putFits
      · rw [if_pos get, alloc]
      · rw [isGet]
        rfl
      · intro b
        rw [isGet]
        cases b with
        | getbuf => exact sum
        | putbuf => rfl
  · have putSize : arg.size = arg.put_size.toNat := if_neg get
    have isPut : arg.buffer = .putbuf := if_neg get
    have alloc := arg.toNat_alloc (putSize ▸ small)
    rw [← putSize] at alloc
    change _ = arg.lines at alloc
    rw [assignArg, if_neg get] at done
    by_cases put : arg.direction = gcjdDmaPut
    · rw [if_pos put] at done
      dsimp only at done
      generalize roundUpWord (arg.put_size + arg.offset) (BitVec.ofNat 32 cacheLineSize) =
        ls_alloc_len at alloc done
      have sum : (s.put_t + ls_alloc_len).toNat = s.put_t.toNat + arg.lines := by
        rw [BitVec.toNat_add, alloc, Nat.mod_eq_of_lt (by omega)]
      rw [counted.put_total] at done
      by_cases long : gcSpuBufsize < (s.put_t + ls_alloc_len).toNat
      · rw [if_pos long] at done
        cases done
      · rw [if_neg long] at done
        split at done
        · cases done
        · obtain rfl := Except.ok.inj done
          refine ⟨⟨counted.get_total, rfl, ?_⟩, ?_, ?_, ?_⟩
          · intro b
            cases b with
            | getbuf => exact getFits
            | putbuf => exact Nat.le_of_not_lt long
          · rw [if_neg get, List.append_nil]
          · rw [isPut]
            rfl
          · intro b
            rw [isPut]
            cases b with
            | getbuf => rfl
            | putbuf => exact sum
    · rw [if_neg put] at done
      cases done

/-- The places of the arguments so far. -/
structure EaPlaced (args : List GcJobEaArg) (s : EaAssign) : Prop where
  counted : s.Counted
  elements : ∀ e ∈ s.dma_get_list, e.size % 16 = 0 ∧ e.size ≤ mfcMaxDmaSize
  fetched : (s.dma_get_list.map MfcListElement.size).sum = (s.next .getbuf).toNat
  pieces : s.dma_get_list.length = (args.map GcJobEaArg.pieceCount).sum
  assigned : s.ls_addr.length = args.length
  inside : ∀ p ∈ args.zip s.ls_addr,
    p.2.buffer = p.1.buffer ∧ p.2.offset.toNat + p.1.size ≤ (s.next p.1.buffer).toNat
  disjoint : (args.zip s.ls_addr).Pairwise fun p q => p.2.buffer = q.2.buffer →
    p.2.offset.toNat + p.1.size ≤ q.2.offset.toNat ∨ q.2.offset.toNat + q.1.size ≤ p.2.offset.toNat

theorem EaPlaced.assignArg (placed : EaPlaced args s) (step : s.Assigned arg t) :
    EaPlaced (args ++ [arg]) t := by
  have buffer : gcSpuBufsize = 41984 := rfl
  have size := arg.size_lines
  have offset := arg.toNat_offset
  have zipped : (args ++ [arg]).zip t.ls_addr = args.zip s.ls_addr ++
      [(arg, ⟨arg.buffer, s.next arg.buffer + arg.offset⟩)] := by
    rw [step.ls_addr, List.zip_append placed.assigned.symm]
    rfl
  have place : (s.next arg.buffer + arg.offset).toNat =
      (s.next arg.buffer).toNat + arg.ea_addr.toNat % cacheLineSize := by
    have fits := placed.counted.fits arg.buffer
    have inside := arg.line_lt
    rw [BitVec.toNat_add, offset, Nat.mod_eq_of_lt (by omega)]
  have grows : (t.next arg.buffer).toNat = (s.next arg.buffer).toNat + arg.lines := by
    rw [step.next, if_pos rfl]
  refine ⟨step.counted, ?_, ?_, ?_, ?_, ?_, ?_⟩
  · intro e member
    rw [step.dma_get_list] at member
    rcases List.mem_append.mp member with before | new
    · exact placed.elements e before
    · by_cases get : arg.direction = gcjdDmaGet
      · rw [if_pos get] at new
        have whole := arg.lines_mod
        rw [show cacheLineSize = 128 from rfl] at whole
        exact getPieces_sizes (by omega) _ e new
      · rw [if_neg get] at new
        cases new
  · rw [step.dma_get_list, List.map_append, List.sum_append, placed.fetched, step.next]
    by_cases get : arg.direction = gcjdDmaGet
    · rw [if_pos get, getPieces_sum (Nat.le_refl _), GcJobEaArg.buffer, if_pos get, if_pos rfl]
    · rw [if_neg get, GcJobEaArg.buffer, if_neg get]
      rfl
  · rw [step.dma_get_list, List.length_append, placed.pieces, List.map_append, List.sum_append]
    by_cases get : arg.direction = gcjdDmaGet
    · rw [if_pos get, length_getPieces (Nat.le_refl _), List.map_singleton, List.sum_singleton,
        GcJobEaArg.pieceCount, if_pos get]
    · rw [if_neg get, List.map_singleton, List.sum_singleton, GcJobEaArg.pieceCount, if_neg get]
      rfl
  · rw [step.ls_addr, List.length_append, List.length_append, placed.assigned]
    rfl
  · intro p member
    rw [zipped] at member
    rcases List.mem_append.mp member with before | new
    · obtain ⟨same, inside⟩ := placed.inside p before
      refine ⟨same, inside.trans ?_⟩
      rw [step.next]
      exact Nat.le_add_right _ _
    · obtain rfl := List.mem_singleton.mp new
      dsimp only
      exact ⟨rfl, by omega⟩
  · rw [zipped, List.pairwise_append]
    refine ⟨placed.disjoint, List.pairwise_singleton _ _, ?_⟩
    intro p before q new same
    obtain rfl := List.mem_singleton.mp new
    obtain ⟨buffer, inside⟩ := placed.inside p before
    dsimp only at same ⊢
    rw [buffer] at same
    rw [same] at inside
    exact Or.inl (by omega)

theorem assignArgs_placed (small : ∀ arg ∈ args, arg.size ≤ gcSpuBufsize)
    (done : assignArgs args = .ok s) : EaPlaced args s := by
  refine foldlM_history EaPlaced ?_ ?_ done
  · refine ⟨⟨rfl, rfl, ?_⟩, ?_, rfl, rfl, rfl, ?_, List.Pairwise.nil⟩
    · intro b
      cases b <;> exact Nat.zero_le _
    · intro e member
      cases member
    · intro p member
      cases member
  · intro before t u arg member placed step
    exact placed.assignArg (assignArg_ok placed.counted (small arg member) step)

/-! ## The bytes that are fetched -/

/-- The bytes of the arguments so far are fetched whatever the list goes on with. -/
def EaSources (mfc : MfcGetl) (ea : BitVec 64) (args : List GcJobEaArg) (s : EaAssign) : Prop :=
  ∀ rest, ∀ p ∈ args.zip s.ls_addr, p.1.direction = gcjdDmaGet → ∀ k < p.1.size,
    mfc.source ea (s.dma_get_list ++ rest) (p.2.offset.toNat + k) =
      some (p.1.ea_addr + BitVec.ofNat 64 k)

theorem source_argument (mfc : MfcGetl) (ea : BitVec 64)
    (common : arg.ea_addr.toNat / 2 ^ 32 = ea.toNat / 2 ^ 32)
    (area : arg.ea_addr.toNat % 2 ^ 32 + arg.size ≤ 2 ^ 32) (rest : List MfcListElement) {k : ℕ}
    (inside : k < arg.size) :
    mfc.source ea (getPieces arg.lines arg.lines arg.eaBase ++ rest)
      (arg.ea_addr.toNat % cacheLineSize + k) = some (arg.ea_addr + BitVec.ofNat 64 k) := by
  have line : cacheLineSize = 128 := rfl
  have whole := arg.lines_mod
  have size := arg.size_lines
  have base := arg.toNat_eaBase
  have bound := arg.ea_addr.isLt
  rw [line] at whole size base ⊢
  have low : arg.eaBase.toNat % 2 ^ 32 + arg.ea_addr.toNat % 128 = arg.ea_addr.toNat % 2 ^ 32 := by
    omega
  rw [mfc.source_getPieces ea (Nat.le_refl _) (by omega) _ rest (by omega) (by omega),
    ← Nat.add_assoc (arg.eaBase.toNat % 2 ^ 32), low, ← common]
  refine congrArg some (BitVec.eq_of_toNat_eq ?_)
  rw [BitVec.toNat_ofNat, BitVec.toNat_add, BitVec.toNat_ofNat, Nat.add_mod_mod]
  congr 1
  omega

theorem EaSources.assignArg {mfc : MfcGetl} (sources : EaSources mfc ea args s)
    (placed : EaPlaced args s) (step : s.Assigned arg t)
    (common : arg.ea_addr.toNat / 2 ^ 32 = ea.toNat / 2 ^ 32)
    (area : arg.direction = gcjdDmaGet → arg.ea_addr.toNat % 2 ^ 32 + arg.size ≤ 2 ^ 32) :
    EaSources mfc ea (args ++ [arg]) t := by
  intro rest p member get k inside
  rw [step.ls_addr, List.zip_append placed.assigned.symm] at member
  rw [step.dma_get_list, List.append_assoc]
  rcases List.mem_append.mp member with before | new
  · exact sources _ p before get k inside
  · obtain rfl := List.mem_singleton.mp new
    dsimp only at get inside ⊢
    have fits := placed.counted.fits .getbuf
    have limit : gcSpuBufsize = 41984 := rfl
    have offset := arg.toNat_offset
    have short := arg.line_lt
    have place : (s.next arg.buffer + arg.offset).toNat + k =
        (s.dma_get_list.map MfcListElement.size).sum +
          (arg.ea_addr.toNat % cacheLineSize + k) := by
      rw [placed.fetched, GcJobEaArg.buffer, if_pos get, BitVec.toNat_add, offset,
        Nat.mod_eq_of_lt (by omega), Nat.add_assoc]
    rw [place, mfc.source_skip ea placed.elements, if_pos get]
    exact source_argument mfc ea common (area get) rest inside

theorem assignArgs_sources (mfc : MfcGetl)
    (small : ∀ arg ∈ args, arg.size ≤ gcSpuBufsize)
    (common : ∀ arg ∈ args, arg.ea_addr.toNat / 2 ^ 32 = ea.toNat / 2 ^ 32)
    (area : ∀ arg ∈ args, arg.direction = gcjdDmaGet →
      arg.ea_addr.toNat % 2 ^ 32 + arg.size ≤ 2 ^ 32)
    (done : assignArgs args = .ok s) : EaSources mfc ea args s := by
  refine (foldlM_history (fun before s => EaPlaced before s ∧ EaSources mfc ea before s)
    ⟨assignArgs_placed (fun arg member => absurd member List.not_mem_nil) rfl, ?_⟩ ?_ done).2
  · intro rest p member
    cases member
  · intro before t u arg member known step
    obtain ⟨placed, sources⟩ := known
    have assigned := assignArg_ok placed.counted (small arg member) step
    exact ⟨placed.assignArg assigned,
      sources.assignArg placed assigned (common arg member) (area arg member)⟩

/-! ## The checks of a job -/

theorem checkEaArgs_ok {dir_union : BitVec 32} (accepted : checkEaArgs args = .ok dir_union) :
    (∀ arg ∈ args, arg.direction = gcjdDmaGet ∨ arg.direction = gcjdDmaPut) ∧
      ∀ arg ∈ args, arg.ea_addr.toNat / 2 ^ 32 = (commonEa args).toNat / 2 ^ 32 := by
  unfold checkEaArgs at accepted
  by_cases many : maxArgsEa < args.length
  · rw [if_pos many] at accepted
    cases accepted
  rw [if_neg many] at accepted
  by_cases wrong : args.any fun arg => arg.direction ≠ gcjdDmaGet ∧ arg.direction ≠ gcjdDmaPut
  · rw [if_pos wrong] at accepted
    cases accepted
  rw [if_neg wrong] at accepted
  refine ⟨?_, ?_⟩
  · intro arg member
    by_contra neither
    apply wrong
    rw [List.any_eq_true]
    refine ⟨arg, member, ?_⟩
    simpa using neither
  · cases args with
    | nil =>
      intro arg member
      cases member
    | cons first others =>
      dsimp only at accepted
      by_cases apart : others.any fun arg => arg.ea_addr >>> 32 ≠ first.ea_addr >>> 32
      · rw [if_pos apart] at accepted
        cases accepted
      · intro arg member
        change _ = first.ea_addr.toNat / 2 ^ 32
        rcases List.mem_cons.mp member with same | other
        · rw [same]
        · by_contra different
          apply apart
          rw [List.any_eq_true]
          refine ⟨arg, other, ?_⟩
          simp only [ne_eq, decide_not, Bool.not_eq_true', decide_eq_false_iff_not]
          intro equal
          have high := congrArg BitVec.toNat equal
          rw [BitVec.toNat_ushiftRight, BitVec.toNat_ushiftRight, Nat.shiftRight_eq_div_pow,
            Nat.shiftRight_eq_div_pow] at high
          exact different high

/-! ## The assertions -/

theorem assignArg_error (direction : arg.direction = gcjdDmaGet ∨ arg.direction = gcjdDmaPut)
    (whole : s.put_t.toNat % cacheLineSize = 0) (failed : assignArg s arg = .error stop) :
    stop = .argsTooLong := by
  rw [assignArg] at failed
  by_cases get : arg.direction = gcjdDmaGet
  · rw [if_pos get] at failed
    dsimp only at failed
    split at failed
    · exact (Except.error.inj failed).symm
    · cases failed
  · have put := direction.resolve_left get
    rw [if_neg get, if_pos put] at failed
    dsimp only at failed
    have line : cacheLineSize = 128 := rfl
    have offset := arg.toNat_offset
    have inside := arg.line_lt
    rw [line] at whole offset
    have local_addr : arg.ea_addr.setWidth 32 &&& 0x7f#32 = (s.put_t + arg.offset) &&& 0x7f#32 := by
      apply BitVec.eq_of_toNat_eq
      rw [show 0x7f#32 = 128#32 - 1#32 from rfl, toNat_and_low _ (k := 7) rfl,
        toNat_and_low _ (k := 7) rfl, BitVec.toNat_add, BitVec.toNat_setWidth, offset,
        show (128#32).toNat = 128 from rfl]
      omega
    have base : arg.eaBase &&& 0x7f#64 = 0#64 := by
      apply BitVec.eq_of_toNat_eq
      rw [show 0x7f#64 = 128#64 - 1#64 from rfl, toNat_and_low _ (k := 7) rfl, arg.toNat_eaBase,
        show (128#64).toNat = 128 from rfl, line, BitVec.toNat_zero]
      omega
    have start : s.put_t &&& 0x7f#32 = 0#32 := by
      apply BitVec.eq_of_toNat_eq
      rw [show 0x7f#32 = 128#32 - 1#32 from rfl, toNat_and_low _ (k := 7) rfl,
        show (128#32).toNat = 128 from rfl, whole, BitVec.toNat_zero]
    split at failed
    · exact (Except.error.inj failed).symm
    · rw [if_neg (by simp only [local_addr, base, start, ne_eq, not_true_eq_false, or_self,
        not_false_eq_true])] at failed
      cases failed

theorem assignArg_whole
    (whole : s.put_t.toNat % cacheLineSize = 0) (done : assignArg s arg = .ok t) :
    t.put_t.toNat % cacheLineSize = 0 := by
  rw [assignArg] at done
  by_cases get : arg.direction = gcjdDmaGet
  · rw [if_pos get] at done
    dsimp only at done
    split at done
    · cases done
    · obtain rfl := Except.ok.inj done
      exact whole
  · rw [if_neg get] at done
    by_cases put : arg.direction = gcjdDmaPut
    · rw [if_pos put] at done
      dsimp only at done
      split at done
      · cases done
      · split at done
        · cases done
        · obtain rfl := Except.ok.inj done
          have lines := arg.alloc_mod arg.put_size
          have line : cacheLineSize = 128 := rfl
          dsimp only
          rw [line] at whole lines ⊢
          rw [BitVec.toNat_add]
          omega
    · rw [if_neg put] at done
      cases done

theorem assignArgs_error
    (directions : ∀ arg ∈ args, arg.direction = gcjdDmaGet ∨ arg.direction = gcjdDmaPut)
    (failed : assignArgs args = .error stop) : stop = .argsTooLong := by
  induction args using List.reverseRecOn generalizing stop with
  | nil => cases failed
  | append_singleton args arg ih =>
    rw [assignArgs, List.foldlM_append] at failed
    cases before : assignArgs args with
    | error e =>
      rw [assignArgs] at before
      rw [before] at failed
      obtain rfl := Except.error.inj failed
      exact ih (fun a member => directions a (List.mem_append_left _ member)) before
    | ok t =>
      have whole : t.put_t.toNat % cacheLineSize = 0 :=
        foldlM_invariant (fun s => s.put_t.toNat % cacheLineSize = 0)
          (fun s t a _ => assignArg_whole) rfl before
      rw [assignArgs] at before
      rw [before, ok_bind, List.foldlM_cons] at failed
      cases last : assignArg t arg with
      | error e =>
        rw [last] at failed
        obtain rfl := Except.error.inj failed
        exact assignArg_error (directions arg (by simp)) whole last
      | ok u =>
        rw [last] at failed
        cases failed

/-! ## The fetch -/

theorem exists_zip {ls_addr : List LsAddr} (assigned : ls_addr.length = args.length)
    (member : arg ∈ args) : ∃ ls, (arg, ls) ∈ args.zip ls_addr := by
  obtain ⟨i, inside, rfl⟩ := List.mem_iff_getElem.mp member
  exact ⟨ls_addr[i], List.mem_iff_getElem.mpr ⟨i, by rw [List.length_zip]; omega, List.getElem_zip⟩⟩

/-- The arguments of a job that is submitted are refused as too long or fetched as the job function
expects them, and that exactly if they fit the tables. -/
theorem ea_fetched_iff (mfc : MfcGetl) {args : List GcJobEaArg} {dir_union : BitVec 32}
    (accepted : checkEaArgs args = .ok dir_union) :
    (∀ stop, assignArgs args = .error stop → stop = .argsTooLong) ∧
      ∀ s, assignArgs args = .ok s → (EaFetched mfc args s ↔ EaFits args) := by
  obtain ⟨directions, common⟩ := checkEaArgs_ok accepted
  refine ⟨fun stop => assignArgs_error directions, ?_⟩
  intro s done
  constructor
  · intro fetched
    have small : ∀ arg ∈ args, arg.size ≤ gcSpuBufsize := by
      intro arg member
      obtain ⟨ls, there⟩ := exists_zip fetched.assigned member
      have inside := (fetched.inside _ there).2
      dsimp only at inside
      omega
    have placed := assignArgs_placed small done
    refine ⟨small, placed.pieces ▸ fetched.elements, ?_⟩
    intro arg member get
    obtain ⟨ls, there⟩ := exists_zip fetched.assigned member
    by_cases empty : arg.size = 0
    · omega
    · have last := fetched.fetched _ there get (arg.size - 1) (by dsimp only; omega)
      have high := mfc.area _ _ _ _ last
      dsimp only at high
      have sizeSmall := small arg member
      have limit : gcSpuBufsize = 41984 := rfl
      have bound := arg.ea_addr.isLt
      rw [← common arg member, BitVec.toNat_add, BitVec.toNat_ofNat,
        Nat.mod_eq_of_lt (show arg.size - 1 < 2 ^ 64 by omega)] at high
      omega
  · intro fits
    have placed := assignArgs_placed fits.sizes done
    have sources := assignArgs_sources mfc fits.sizes common fits.area done
    refine ⟨placed.pieces ▸ fits.pieces, fun e member => (placed.elements e member).2,
      placed.assigned, ?_, placed.disjoint, ?_⟩
    · intro p member
      obtain ⟨buffer, inside⟩ := placed.inside p member
      exact ⟨buffer, inside.trans (placed.counted.fits _)⟩
    · intro p member get k inside
      have source := sources [] p member get k inside
      rwa [List.append_nil] at source

/-! ## A transfer -/

/-- The list transfer of the MFC: each element goes to the quadword behind the one before. -/
def getlSource (ea : BitVec 64) : List MfcListElement → ℕ → Option (BitVec 64)
  | [], _ => none
  | e :: list, k =>
      if k < (e.size + 15) / 16 * 16 then
        if k < e.size ∧ e.eal.toNat + k < 2 ^ 32 then
          some (BitVec.ofNat 64 (ea.toNat / 2 ^ 32 * 2 ^ 32 + (e.eal.toNat + k)))
        else none
      else getlSource ea list (k - (e.size + 15) / 16 * 16)

def getl : MfcGetl where
  source := getlSource
  first := by
    intro ea e list k inside _ area
    rw [getlSource, if_pos (by omega), if_pos ⟨inside, area⟩]
  next := by
    intro ea e list k whole _
    rw [getlSource, if_neg (by omega)]
    congr 1
    omega
  area := by
    intro ea list k a fetched
    induction list generalizing k with
    | nil => cases fetched
    | cons e list ih =>
      rw [getlSource] at fetched
      by_cases here : k < (e.size + 15) / 16 * 16
      · rw [if_pos here] at fetched
        by_cases inside : k < e.size ∧ e.eal.toNat + k < 2 ^ 32
        · rw [if_pos inside] at fetched
          obtain rfl := Option.some.inj fetched
          have bound := ea.isLt
          rw [BitVec.toNat_ofNat]
          omega
        · rw [if_neg inside] at fetched
          cases fetched
      · rw [if_neg here] at fetched
        exact ih _ fetched

/-- An argument to fetch and one to write back, that share a line. -/
def twoArgs : List GcJobEaArg :=
  [⟨0x10040#64, gcjdDmaGet, 100#32, 0#32⟩, ⟨0x100a4#64, gcjdDmaPut, 0#32, 20#32⟩]

theorem ea_fetched_two : (∃ s, assignArgs twoArgs = .ok s ∧ EaFetched getl twoArgs s) ∧
    ∀ stop, assignArgs twoArgs = .error stop → stop = .argsTooLong := by
  obtain ⟨stops, fetched⟩ := ea_fetched_iff getl (show checkEaArgs twoArgs = .ok 3#32 from rfl)
  refine ⟨?_, stops⟩
  cases assigned : assignArgs twoArgs with
  | error stop => cases assigned
  | ok s => exact ⟨s, rfl, (fetched s assigned).mpr ⟨by decide, by decide, by decide⟩⟩

/-- Seven short arguments, and one of a line more than the MFC moves at once. -/
def nineElements : List GcJobEaArg :=
  (List.range 7).map (fun i => ⟨BitVec.ofNat 64 (0x10000 + 128 * i), gcjdDmaGet, 128#32, 0#32⟩) ++
    [⟨0x20000#64, gcjdDmaGet, 16512#32, 0#32⟩]

/-- The list of eight elements is written beyond its end. -/
theorem ea_nine_elements : checkEaArgs nineElements = .ok 1#32 ∧
    ∃ s, assignArgs nineElements = .ok s ∧ ¬EaFetched getl nineElements s ∧
      s.dma_get_list.length = nelms + 1 := by
  have nine : (assignArgs nineElements).map (fun s => s.dma_get_list.length) = .ok 9 := by
    decide +kernel
  cases assigned : assignArgs nineElements with
  | error stop =>
    rw [assigned] at nine
    cases nine
  | ok s =>
    rw [assigned] at nine
    have length : s.dma_get_list.length = 9 := Except.ok.inj nine
    refine ⟨by decide, s, rfl, ?_, length⟩
    intro fetched
    have elements := fetched.elements
    rw [length] at elements
    revert elements
    decide

end GnuRadio
