import GnuRadio.Misc.ByteMemory
import GnuRadio.Misc.Except
import GnuRadio.Misc.LinkedList
import GnuRadio.Misc.Rounding
import GnuRadio.Misc.Trace
import GnuRadio.Runtime.Types
import Mathlib.Data.List.Pairwise

/-!
# The memory pool of PMT

The free blocks of a pool are linked through their own first bytes. A new chunk is cut into items
from its first aligned address on; there has to be room for at least one.
-/

namespace GnuRadio

/-- `pmt_pool` (`pmt_pool.h:36-52`), and the memory. -/
structure PmtPool where
  d_itemsize : UInt64
  d_alignment : UInt64
  d_allocation_size : UInt64
  d_max_items : UInt64
  d_n_items : UInt64
  d_freelist : UInt64
  d_allocations : List UInt64
  memory : ℕ → UInt8

namespace PmtPool

/-- `ROUNDUP` (`pmt_pool.cc:31-35`). -/
def roundup (x stride : UInt64) : Except CppException UInt64 :=
  if stride = 0 then .error .undefinedBehaviour else .ok ((x + stride - 1) / stride * stride)

/-- The constructor (`pmt_pool.cc:37-45`). -/
def construct (itemsize alignment allocation_size max_items : UInt64) (memory : ℕ → UInt8) :
    Except CppException PmtPool := do
  let d_itemsize ← roundup itemsize alignment
  return {
    d_itemsize
    d_alignment := alignment
    d_allocation_size := max allocation_size (16 * itemsize)
    d_max_items := max_items
    d_n_items := 0
    d_freelist := 0
    d_allocations := []
    memory }

/-- Whether `malloc` waits (`pmt_pool.cc:60-63`). -/
def waits (q : PmtPool) : Prop := q.d_max_items ≠ 0 ∧ q.d_n_items ≥ q.d_max_items

/-- The first block of the free list (`pmt_pool.cc:66-69`, `pmt_pool.cc:90-93`). -/
def takeFirst (q : PmtPool) : Except CppException (UInt64 × PmtPool) :=
  if q.d_freelist = 0 then .error .undefinedBehaviour
  else .ok (q.d_freelist, { q with
    d_freelist := readWord q.memory q.d_freelist.toNat
    d_n_items := q.d_n_items + 1 })

/-- How many bytes are allocated for a chunk. -/
def chunkSize (q : PmtPool) : UInt64 := q.d_allocation_size + q.d_alignment - 1

/-- `start` (`pmt_pool.cc:77`). -/
def chunkStart (q : PmtPool) (alloc : UInt64) : UInt64 :=
  (alloc + q.d_alignment - 1) &&& -q.d_alignment

/-- `end` (`pmt_pool.cc:78`). -/
def chunkEnd (q : PmtPool) (alloc : UInt64) : UInt64 :=
  alloc + q.d_allocation_size + q.d_alignment - 1

/-- The loop over the new items, from `p` on (`pmt_pool.cc:83-87`). -/
def linkItems (d_itemsize : UInt64) :
    ℕ → UInt64 → UInt64 → (ℕ → UInt8) → UInt64 × (ℕ → UInt8)
  | 0, _, d_freelist, memory => (d_freelist, memory)
  | n + 1, p, d_freelist, memory =>
      linkItems d_itemsize n (p + d_itemsize) p (writeWord memory p.toNat d_freelist)

/-- A chunk with `n` items for the free list (`pmt_pool.cc:74`, `pmt_pool.cc:81-87`). -/
def linkChunk (q : PmtPool) (alloc : UInt64) (n : ℕ) : PmtPool :=
  let linked := linkItems q.d_itemsize n (q.chunkStart alloc) q.d_freelist q.memory
  { q with
    d_allocations := q.d_allocations ++ [alloc]
    d_freelist := linked.1
    memory := linked.2 }

/-- A new chunk (`pmt_pool.cc:73-87`). `new` returns `alloc`. -/
def addChunk (q : PmtPool) (alloc : UInt64) : Except CppException PmtPool :=
  if q.d_itemsize = 0 then .error .undefinedBehaviour
  else
    let n := (q.chunkEnd alloc - q.chunkStart alloc) / q.d_itemsize
    .ok (q.linkChunk alloc n.toNat)

/-- `malloc` when it need not wait (`pmt_pool.cc:54-94`). `new` returns `alloc`, if it is called. -/
def malloc (q : PmtPool) (alloc : UInt64) : Except CppException (UInt64 × PmtPool) :=
  if q.d_freelist ≠ 0 then q.takeFirst
  else do
    let q ← q.addChunk alloc
    q.takeFirst

/-- `free` (`pmt_pool.cc:96-110`). -/
def free (q : PmtPool) (foo : UInt64) : PmtPool :=
  if foo = 0 then q
  else { q with
    memory := writeWord q.memory foo.toNat q.d_freelist
    d_freelist := foo
    d_n_items := q.d_n_items - 1 }

/-! ## Calls -/

/-- What `new` promises: it does not return null, and the chunk is inside the address space and
apart from those that there are. -/
def Fresh (q : PmtPool) (alloc : UInt64) : Prop :=
  alloc ≠ 0 ∧ alloc.toNat + q.chunkSize.toNat < 2 ^ 64 ∧
    ∀ c ∈ q.d_allocations, Apart q.chunkSize.toNat alloc.toNat c.toNat

instance (q : PmtPool) : Decidable q.waits := inferInstanceAs (Decidable (_ ∧ _))

instance (q : PmtPool) (alloc : UInt64) : Decidable (q.Fresh alloc) :=
  -- the chunks are gone through, not all addresses
  letI := List.decidableBAll (fun c : UInt64 => Apart q.chunkSize.toNat alloc.toNat c.toNat)
    q.d_allocations
  inferInstanceAs (Decidable (_ ∧ _ ∧ _))

/-- `malloc` goes on, and `new` can return `alloc`, if it is called. -/
def Callable (q : PmtPool) (alloc : UInt64) : Prop :=
  ¬ q.waits ∧ (q.d_freelist = 0 → q.Fresh alloc)

instance (q : PmtPool) (alloc : UInt64) : Decidable (q.Callable alloc) :=
  inferInstanceAs (Decidable (_ ∧ _))

end PmtPool

/-- What a program does with a pool. It writes only to blocks that it has. -/
inductive PoolCall where
  | malloc (alloc : UInt64)
  | free (foo : UInt64)
  | write (foo : UInt64) (offset : ℕ) (byte : UInt8)
  deriving DecidableEq

/-- The pool and the blocks that the program has. -/
structure PoolRun where
  pool : PmtPool
  live : List UInt64

/-- A call. One that waits does not happen, and only a live block is freed. -/
def PoolRun.step (w : PoolRun) : PoolCall → Option PoolRun
  | .malloc alloc =>
      if w.pool.Callable alloc then
        match w.pool.malloc alloc with
        | .ok (p, pool) => some ⟨pool, p :: w.live⟩
        | .error _ => none
      else none
  | .free foo => if foo ∈ w.live then some ⟨w.pool.free foo, w.live.erase foo⟩ else none
  | .write foo offset byte =>
      if foo ∈ w.live ∧ offset < w.pool.d_itemsize.toNat then
        some { w with pool := { w.pool with
          memory := Function.update w.pool.memory (foo.toNat + offset) byte } }
      else none

namespace PmtPool

/-! ## Sizes -/

/-- What the constructor makes sure of when an item has room for a pointer. -/
structure Sized (q : PmtPool) (itemsize alignment max_items : UInt64) : Prop where
  d_alignment : q.d_alignment = alignment
  power : ∃ k < 64, alignment.toNat = 2 ^ k
  d_max_items : q.d_max_items = max_items
  room : 8 ≤ q.d_itemsize.toNat
  itemsize : itemsize.toNat ≤ q.d_itemsize.toNat
  aligned : alignment.toNat ∣ q.d_itemsize.toNat

theorem toNat_add_sub_one (x stride : UInt64) :
    (x + stride - 1).toNat = (x.toNat + stride.toNat + (2 ^ 64 - 1)) % 2 ^ 64 := by
  have one : (1 : UInt64).toNat = 1 := rfl
  rw [UInt64.toNat_sub, UInt64.toNat_add, one]
  omega

theorem roundup_spec {x stride : UInt64} {k : ℕ} (fits : k < 64) (power : stride.toNat = 2 ^ k)
    (inside : alignUp x.toNat stride.toNat < 2 ^ 64) :
    ∃ y, roundup x stride = .ok y ∧ y.toNat = alignUp x.toNat stride.toNat := by
  have positive := Nat.two_pow_pos k
  have notZero : stride ≠ 0 := by
    rintro rfl
    exact absurd power (Nat.ne_of_lt positive)
  have divides : stride.toNat ∣ 2 ^ 64 := by
    rw [power]
    exact Nat.pow_dvd_pow 2 fits.le
  have small := add_sub_one_lt divides inside
  have sum : (x + stride - 1).toNat = x.toNat + stride.toNat - 1 := by
    rw [toNat_add_sub_one]
    omega
  refine ⟨_, if_neg notZero, ?_⟩
  rw [UInt64.toNat_mul, UInt64.toNat_div, sum]
  exact Nat.mod_eq_of_lt inside

variable {q : PmtPool} {alloc p v s itemsize alignment max_items : UInt64} {n : ℕ}

theorem toNat_chunkStart {k : ℕ} (fits : k < 64) (power : q.d_alignment.toNat = 2 ^ k)
    (inside : alignUp alloc.toNat q.d_alignment.toNat < 2 ^ 64) :
    (q.chunkStart alloc).toNat = alignUp alloc.toNat q.d_alignment.toNat := by
  have mask : -q.d_alignment.toBitVec = ~~~(q.d_alignment.toBitVec - 1#64) := by
    rw [BitVec.not_eq_neg_add]
    ring
  have rounded : (q.chunkStart alloc).toBitVec =
      roundUpWord alloc.toBitVec q.d_alignment.toBitVec := by
    rw [roundUpWord, roundDnWord, ← mask, ← add_sub_assoc]
    rfl
  have divides : q.d_alignment.toNat ∣ 2 ^ 64 := power ▸ Nat.pow_dvd_pow 2 fits.le
  have numbers := congrArg BitVec.toNat rounded
  rwa [toNat_roundUpWord _ power (add_sub_one_lt divides inside)] at numbers

theorem toNat_chunkEnd (inside : alloc.toNat + q.chunkSize.toNat < 2 ^ 64) :
    (q.chunkEnd alloc).toNat = alloc.toNat + q.chunkSize.toNat := by
  have same : q.chunkEnd alloc = alloc + q.chunkSize := by
    rw [chunkEnd, chunkSize, UInt64.add_assoc, UInt64.sub_eq_add_neg, UInt64.sub_eq_add_neg,
      UInt64.add_assoc]
  rw [same, UInt64.toNat_add, Nat.mod_eq_of_lt inside]

/-! ## The free list -/

/-- What a pointer points to. -/
def pointer (p : UInt64) : Option UInt64 := if p = 0 then none else some p

/-- The item that `d_next` points to. -/
def nextItem (memory : ℕ → UInt8) (p : UInt64) : Option UInt64 := pointer (readWord memory p.toNat)

theorem pointer_of_ne (notNull : p ≠ 0) : pointer p = some p := if_neg notNull

theorem pointer_eq_none : pointer p = none ↔ p = 0 := by
  unfold pointer
  split <;> simp [*]

theorem pointer_eq_some (points : pointer p = some v) : p = v ∧ p ≠ 0 := by
  unfold pointer at points
  split at points
  · cases points
  · exact ⟨Option.some.inj points, ‹_›⟩

/-- The items of a chunk. -/
def itemsFrom (d_itemsize : UInt64) : ℕ → UInt64 → List UInt64
  | 0, _ => []
  | n + 1, p => p :: itemsFrom d_itemsize n (p + d_itemsize)

theorem itemsFrom_ne_nil (positive : 0 < n) : itemsFrom s n p ≠ [] := by
  cases n with
  | zero => cases positive
  | succ n => exact List.cons_ne_nil p _

theorem toNat_add_itemsize (inside : p.toNat + (n + 1) * s.toNat < 2 ^ 64) :
    (p + s).toNat = p.toNat + s.toNat := by
  rw [UInt64.toNat_add]
  refine Nat.mod_eq_of_lt (Nat.lt_of_le_of_lt ?_ inside)
  rw [Nat.succ_mul]
  omega

theorem mem_itemsFrom (inside : p.toNat + n * s.toNat < 2 ^ 64) (member : v ∈ itemsFrom s n p) :
    ∃ i < n, v.toNat = p.toNat + i * s.toNat := by
  induction n generalizing p with
  | zero => cases member
  | succ n ih =>
    have next := toNat_add_itemsize inside
    rw [Nat.succ_mul] at inside
    cases member with
    | head => exact ⟨0, Nat.succ_pos n, by simp⟩
    | tail _ member =>
      obtain ⟨i, less, place⟩ := ih (by omega) member
      refine ⟨i + 1, by omega, ?_⟩
      rw [place, next, Nat.succ_mul]
      omega

theorem linkItems_spec (room : 8 ≤ s.toNat) {d_freelist : UInt64} {memory : ℕ → UInt8}
    {l : List UInt64} (inside : p.toNat + n * s.toNat < 2 ^ 64) (notNull : p ≠ 0)
    (linked : Linked (nextItem memory) (pointer d_freelist) l)
    (below : ∀ v ∈ l, v.toNat + 8 ≤ p.toNat) :
    Linked (nextItem (linkItems s n p d_freelist memory).2)
      (pointer (linkItems s n p d_freelist memory).1) ((itemsFrom s n p).reverse ++ l) := by
  induction n generalizing p d_freelist memory l with
  | zero => exact linked
  | succ n ih =>
    have next := toNat_add_itemsize inside
    rw [Nat.succ_mul] at inside
    have notNull' : p + s ≠ 0 := by
      intro null
      rw [null] at next
      change 0 = p.toNat + s.toNat at next
      omega
    have written : nextItem (writeWord memory p.toNat d_freelist) p = pointer d_freelist := by
      rw [nextItem, readWord_writeWord]
    have kept : Linked (nextItem (writeWord memory p.toNat d_freelist)) (pointer d_freelist) l := by
      refine linked.congr fun v member => ?_
      have before := below v member
      rw [nextItem, nextItem, readWord_congr fun a _ less => writeWord_other (Or.inl (by omega))]
    have longer : Linked (nextItem (writeWord memory p.toNat d_freelist)) (pointer p) (p :: l) :=
      ⟨pointer_of_ne notNull, written ▸ kept⟩
    have rest := ih (by omega) notNull' longer fun v member => by
      cases member with
      | head => omega
      | tail _ member =>
        have before := below v member
        omega
    rw [itemsFrom, List.reverse_cons, List.append_assoc]
    exact rest

/-! ## Items -/

/-- An item of a chunk: it is where items begin, and ends inside the chunk. -/
def Item (q : PmtPool) (v : UInt64) : Prop :=
  ∃ c ∈ q.d_allocations, c ≠ 0 ∧
    (∃ i, v.toNat = alignUp c.toNat q.d_alignment.toNat + i * q.d_itemsize.toNat) ∧
    v.toNat + q.d_itemsize.toNat ≤ c.toNat + q.chunkSize.toNat

/-- No two chunks overlap. -/
def ChunksApart (q : PmtPool) : Prop :=
  q.d_allocations.Pairwise fun c d => Apart q.chunkSize.toNat c.toNat d.toNat

theorem Item.apart (chunksApart : q.ChunksApart) (positive : 0 < q.d_alignment.toNat) {u : UInt64}
    (item : q.Item u) (item' : q.Item v) (other : u ≠ v) :
    Apart q.d_itemsize.toNat u.toNat v.toNat := by
  obtain ⟨c, member, -, ⟨i, place⟩, inside⟩ := item
  obtain ⟨d, member', -, ⟨j, place'⟩, inside'⟩ := item'
  by_cases same : c = d
  · subst same
    have otherPlace : i ≠ j := by
      rintro rfl
      exact other (UInt64.toNat_inj.mp (place.trans place'.symm))
    rw [place, place']
    exact apart_of_ne otherPlace
  · have symmetric : Std.Symm fun a b : UInt64 => Apart q.chunkSize.toNat a.toNat b.toNat :=
      ⟨fun _ _ => Apart.symm⟩
    have chunks := List.Pairwise.forall chunksApart member member' same
    have behind := le_alignUp (x := c.toNat) positive
    have behind' := le_alignUp (x := d.toNat) positive
    unfold Apart at *
    omega

theorem Item.notNull (positive : 0 < q.d_alignment.toNat) (item : q.Item v) : v ≠ 0 := by
  obtain ⟨c, -, notNull, ⟨i, place⟩, -⟩ := item
  rintro rfl
  have behind := le_alignUp (x := c.toNat) positive
  have zero : c.toNat = 0 := by
    change 0 = _ at place
    omega
  exact notNull (UInt64.toNat_inj.mp zero)

/-- A chunk that has room for an item, from its first aligned address on. -/
def Roomy (q : PmtPool) (alloc : UInt64) : Prop :=
  alignUp alloc.toNat q.d_alignment.toNat + q.d_itemsize.toNat ≤ alloc.toNat + q.chunkSize.toNat

theorem chunk_spec (sized : q.Sized itemsize alignment max_items) (fresh : q.Fresh alloc)
    (roomy : q.Roomy alloc) :
    (q.chunkStart alloc).toNat = alignUp alloc.toNat q.d_alignment.toNat ∧
      0 < ((q.chunkEnd alloc - q.chunkStart alloc) / q.d_itemsize).toNat ∧
      (q.chunkStart alloc).toNat +
          ((q.chunkEnd alloc - q.chunkStart alloc) / q.d_itemsize).toNat * q.d_itemsize.toNat ≤
        alloc.toNat + q.chunkSize.toNat := by
  obtain ⟨-, inside, -⟩ := fresh
  obtain ⟨k, fits, power⟩ := sized.power
  have room := sized.room
  unfold Roomy at roomy
  rw [← sized.d_alignment] at power
  have less : alignUp alloc.toNat q.d_alignment.toNat < 2 ^ 64 := by omega
  have start := toNat_chunkStart fits power less
  have stop := toNat_chunkEnd inside
  have order : q.chunkStart alloc ≤ q.chunkEnd alloc := by
    rw [UInt64.le_iff_toNat_le, start, stop]
    omega
  rw [UInt64.toNat_div, UInt64.toNat_sub_of_le _ _ order, start, stop]
  have division := Nat.div_mul_le_self (alloc.toNat + q.chunkSize.toNat -
    alignUp alloc.toNat q.d_alignment.toNat) q.d_itemsize.toNat
  exact ⟨rfl, Nat.div_pos (by omega) (by omega), by omega⟩

/-! ## Runs -/

/-- What is known of a pool and its live blocks. -/
structure Known (itemsize alignment max_items : UInt64) (w : PoolRun) (free : List UInt64) :
    Prop where
  sized : w.pool.Sized itemsize alignment max_items
  linked : Linked (nextItem w.pool.memory) (pointer w.pool.d_freelist) free
  nodup : (w.live ++ free).Nodup
  items : ∀ v ∈ w.live ++ free, w.pool.Item v
  chunksApart : w.pool.ChunksApart
  count : w.pool.d_n_items.toNat = w.live.length
  bounded : max_items ≠ 0 → w.live.length ≤ max_items.toNat

theorem Sized.positive (sized : q.Sized itemsize alignment max_items) :
    0 < q.d_alignment.toNat := by
  obtain ⟨k, -, power⟩ := sized.power
  rw [sized.d_alignment, power]
  exact Nat.two_pow_pos k

namespace Known

variable {itemsize alignment max_items : UInt64} {w : PoolRun} {free : List UInt64}

theorem takeFirst {v : UInt64} (known : Known itemsize alignment max_items w (v :: free))
    (goesOn : ¬ w.pool.waits) :
    ∃ pool, w.pool.takeFirst = .ok (v, pool) ∧
      Known itemsize alignment max_items ⟨pool, v :: w.live⟩ free := by
  obtain ⟨rfl, notNull⟩ := pointer_eq_some known.linked.1
  have moved : (w.pool.d_freelist :: w.live ++ free).Perm (w.live ++ w.pool.d_freelist :: free) :=
    List.perm_middle.symm
  have nodup := moved.nodup_iff.mpr known.nodup
  have items : ∀ u ∈ w.pool.d_freelist :: w.live ++ free, w.pool.Item u := fun u member =>
    known.items u (moved.subset member)
  have few : (w.pool.d_freelist :: w.live).length < 2 ^ 64 :=
    length_lt_of_nodup (List.nodup_append.mp nodup).1 fun u member =>
      (items u (List.mem_append_left free member)).notNull known.sized.positive
  rw [List.length_cons] at few
  have count : (w.pool.d_n_items + 1).toNat = w.live.length + 1 := by
    rw [UInt64.toNat_add, known.count]
    exact Nat.mod_eq_of_lt few
  refine ⟨_, if_neg notNull, { known.sized with }, known.linked.2, nodup, items,
    known.chunksApart, count, fun limited => ?_⟩
  have less : w.pool.d_n_items < w.pool.d_max_items :=
    UInt64.not_le.mp fun full => goesOn ⟨known.sized.d_max_items ▸ limited, full⟩
  rw [UInt64.lt_iff_toNat_lt, known.count, known.sized.d_max_items] at less
  exact less

variable {alloc p : UInt64}

theorem linkChunk {n : ℕ} (known : Known itemsize alignment max_items w [])
    (fresh : w.pool.Fresh alloc)
    (start : (w.pool.chunkStart alloc).toNat = alignUp alloc.toNat w.pool.d_alignment.toNat)
    (whole : (w.pool.chunkStart alloc).toNat + n * w.pool.d_itemsize.toNat ≤
      alloc.toNat + w.pool.chunkSize.toNat) :
    Known itemsize alignment max_items ⟨w.pool.linkChunk alloc n, w.live⟩
      (itemsFrom w.pool.d_itemsize n (w.pool.chunkStart alloc)).reverse := by
  obtain ⟨notNull, inside, apart⟩ := fresh
  have room := known.sized.room
  have behind := le_alignUp (x := alloc.toNat) known.sized.positive
  have startNotNull : w.pool.chunkStart alloc ≠ 0 := by
    intro null
    have positive : alloc.toNat ≠ 0 := fun zero => notNull (UInt64.toNat_inj.mp zero)
    rw [null] at start
    change 0 = _ at start
    omega
  have linked := linkItems_spec room (whole.trans_lt inside) startNotNull known.linked
    fun v member => by cases member
  rw [List.append_nil] at linked
  have items : ∀ v ∈ itemsFrom w.pool.d_itemsize n (w.pool.chunkStart alloc),
      alloc.toNat ≤ v.toNat ∧ v.toNat + w.pool.d_itemsize.toNat ≤
        alloc.toNat + w.pool.chunkSize.toNat ∧
      ∃ i, v.toNat =
        alignUp alloc.toNat w.pool.d_alignment.toNat + i * w.pool.d_itemsize.toNat := by
    intro v member
    obtain ⟨i, less, place⟩ := mem_itemsFrom (whole.trans_lt inside) member
    have next := Nat.mul_le_mul_right w.pool.d_itemsize.toNat (Nat.succ_le_of_lt less)
    rw [Nat.succ_mul] at next
    exact ⟨by omega, by omega, i, by rw [place, start]⟩
  have old : ∀ v ∈ w.live, w.pool.Item v := fun v member =>
    known.items v (List.mem_append_left [] member)
  refine ⟨{ known.sized with }, linked, ?_, ?_, ?_, known.count, known.bounded⟩
  · refine List.nodup_append.mpr ⟨(List.nodup_append.mp known.nodup).1, linked.nodup, ?_⟩
    rintro v member u member' rfl
    obtain ⟨c, allocated, -, ⟨i, place⟩, ends⟩ := old v member
    obtain ⟨begins, ends', -⟩ := items v (List.mem_reverse.mp member')
    have behind' := le_alignUp (x := c.toNat) known.sized.positive
    have chunks := apart c allocated
    unfold Apart at chunks
    omega
  · intro v member
    obtain member | member := List.mem_append.mp member
    · obtain ⟨c, allocated, item⟩ := old v member
      exact ⟨c, List.mem_append_left [alloc] allocated, item⟩
    · obtain ⟨-, ends, place⟩ := items v (List.mem_reverse.mp member)
      exact ⟨alloc, List.mem_append_right _ List.mem_cons_self, notNull, place, ends⟩
  · refine List.pairwise_append.mpr ⟨known.chunksApart, List.pairwise_singleton _ _, ?_⟩
    intro c allocated d single
    obtain rfl := List.mem_singleton.mp single
    exact (apart c allocated).symm

section

variable (known : Known itemsize alignment max_items w free)
include known

theorem malloc (callable : w.pool.Callable alloc)
    (roomy : w.pool.d_freelist = 0 → w.pool.Roomy alloc) :
    ∃ p pool rest, w.pool.malloc alloc = .ok (p, pool) ∧
      Known itemsize alignment max_items ⟨pool, p :: w.live⟩ rest := by
  obtain ⟨goesOn, fresh⟩ := callable
  by_cases null : w.pool.d_freelist = 0
  · have none := known.linked.head_eq_none_iff.mp (pointer_eq_none.mpr null)
    rw [none] at known
    obtain ⟨start, atLeastOne, whole⟩ := chunk_spec known.sized (fresh null) (roomy null)
    have linked := known.linkChunk (fresh null) start whole
    have sizeNotZero : w.pool.d_itemsize ≠ 0 := by
      intro zero
      have room := known.sized.room
      rw [zero] at room
      cases room
    have some : (itemsFrom w.pool.d_itemsize
        ((w.pool.chunkEnd alloc - w.pool.chunkStart alloc) / w.pool.d_itemsize).toNat
        (w.pool.chunkStart alloc)).reverse ≠ [] :=
      List.reverse_ne_nil_iff.mpr (itemsFrom_ne_nil atLeastOne)
    obtain ⟨v, rest, split⟩ := List.exists_cons_of_ne_nil some
    rw [split] at linked
    obtain ⟨pool, taken, known'⟩ := linked.takeFirst goesOn
    refine ⟨v, pool, rest, ?_, known'⟩
    rw [PmtPool.malloc, if_neg (not_not.mpr null), PmtPool.addChunk, if_neg sizeNotZero]
    exact taken
  · obtain ⟨v, rest, rfl⟩ : ∃ v rest, free = v :: rest := by
      refine List.exists_cons_of_ne_nil fun none => null ?_
      exact pointer_eq_none.mp (known.linked.head_eq_none_iff.mpr none)
    obtain ⟨pool, taken, known'⟩ := known.takeFirst goesOn
    refine ⟨v, pool, rest, ?_, known'⟩
    rw [PmtPool.malloc, if_pos null]
    exact taken

theorem nextItem_write {v : UInt64} {memory : ℕ → UInt8} (member : p ∈ w.live) (member' : v ∈ free)
    (same : ∀ a, a < p.toNat ∨ p.toNat + w.pool.d_itemsize.toNat ≤ a → memory a = w.pool.memory a) :
    nextItem memory v = nextItem w.pool.memory v := by
  have other : p ≠ v := (List.nodup_append.mp known.nodup).2.2 p member v member'
  have apart := Item.apart known.chunksApart known.sized.positive
    (known.items p (List.mem_append_left free member))
    (known.items v (List.mem_append_right w.live member')) other
  have room := known.sized.room
  unfold Apart at apart
  rw [nextItem, nextItem, readWord_congr fun a _ _ => same a (by omega)]

theorem freeBlock (member : p ∈ w.live) :
    Known itemsize alignment max_items ⟨w.pool.free p, w.live.erase p⟩ (p :: free) := by
  have moved : (w.live.erase p ++ p :: free).Perm (w.live ++ free) :=
    List.perm_middle.trans ((List.perm_cons_erase member).symm.append_right free)
  have notNull := (known.items p (List.mem_append_left free member)).notNull known.sized.positive
  have written : nextItem (writeWord w.pool.memory p.toNat w.pool.d_freelist) p =
      pointer w.pool.d_freelist := by
    rw [nextItem, readWord_writeWord]
  have room := known.sized.room
  have linked : Linked (nextItem (writeWord w.pool.memory p.toNat w.pool.d_freelist))
      (pointer w.pool.d_freelist) free := by
    refine known.linked.congr fun v member' => known.nextItem_write member member' ?_
    intro a outside
    exact writeWord_other (by omega)
  have length := List.length_erase_of_mem member
  have positive := List.length_pos_of_mem member
  rw [PmtPool.free, if_neg notNull]
  refine ⟨{ known.sized with }, ⟨pointer_of_ne notNull, written ▸ linked⟩,
    moved.nodup_iff.mpr known.nodup, fun v member' => known.items v (moved.subset member'),
    known.chunksApart, ?_, ?_⟩
  · have one : (1 : UInt64).toNat = 1 := rfl
    have less := w.pool.d_n_items.toNat_lt
    have count := known.count
    dsimp only
    rw [UInt64.toNat_sub, one, length]
    omega
  · intro limited
    have bounded := known.bounded limited
    dsimp only
    omega

theorem write {offset : ℕ} {byte : UInt8} (member : p ∈ w.live)
    (inside : offset < w.pool.d_itemsize.toNat) :
    Known itemsize alignment max_items { w with pool := { w.pool with
      memory := Function.update w.pool.memory (p.toNat + offset) byte } } free := by
  have linked : Linked (nextItem (Function.update w.pool.memory (p.toNat + offset) byte))
      (pointer w.pool.d_freelist) free := by
    refine known.linked.congr fun v member' => known.nextItem_write member member' ?_
    intro a outside
    exact Function.update_of_ne (by omega) ..
  exact ⟨{ known.sized with }, linked, known.nodup, known.items, known.chunksApart, known.count,
    known.bounded⟩

theorem step {call : PoolCall} {w' : PoolRun}
    (roomy : ∀ alloc, call = .malloc alloc → w.pool.d_freelist = 0 → w.pool.Roomy alloc)
    (stepped : w.step call = some w') : ∃ free', Known itemsize alignment max_items w' free' := by
  cases call with
  | malloc alloc =>
    rw [PoolRun.step] at stepped
    split at stepped
    · rename_i callable
      obtain ⟨p, pool, rest, returned, known'⟩ := known.malloc callable (roomy alloc rfl)
      rw [returned] at stepped
      obtain rfl := Option.some.inj stepped
      exact ⟨rest, known'⟩
    · cases stepped
  | free foo =>
    rw [PoolRun.step] at stepped
    split at stepped
    · rename_i member
      obtain rfl := Option.some.inj stepped
      exact ⟨foo :: free, known.freeBlock member⟩
    · cases stepped
  | write foo offset byte =>
    rw [PoolRun.step] at stepped
    split at stepped
    · rename_i allowed
      obtain rfl := Option.some.inj stepped
      exact ⟨free, known.write allowed.1 allowed.2⟩
    · cases stepped

end

end Known

/-- A block as `malloc` is to return it while some blocks are live. -/
structure Block (q : PmtPool) (itemsize alignment : UInt64) (live : List UInt64) (p : UInt64) :
    Prop where
  notNull : p ≠ 0
  aligned : alignment.toNat ∣ p.toNat
  inside : ∃ c ∈ q.d_allocations,
    c.toNat ≤ p.toNat ∧ p.toNat + itemsize.toNat ≤ c.toNat + q.chunkSize.toNat
  apart : ∀ v ∈ live, Apart itemsize.toNat p.toNat v.toNat

/-- What is to hold between calls: the free list ends and has no live block, and there are no more
live blocks than the maximum. -/
structure Kept (max_items : UInt64) (w : PoolRun) : Prop where
  freeList : ∃ free, Linked (nextItem w.pool.memory) (pointer w.pool.d_freelist) free ∧
    free.Nodup ∧ ∀ p ∈ free, p ∉ w.live
  bounded : max_items ≠ 0 → w.live.length ≤ max_items.toNat

namespace Known

variable {itemsize alignment max_items : UInt64} {w : PoolRun} {free : List UInt64}

theorem kept (known : Known itemsize alignment max_items w free) : Kept max_items w := by
  obtain ⟨-, nodup, apart⟩ := List.nodup_append.mp known.nodup
  refine ⟨⟨free, known.linked, nodup, fun p member member' => ?_⟩, known.bounded⟩
  exact apart p member' p member rfl

theorem block {p : UInt64} {live : List UInt64} {pool : PmtPool}
    (known : Known itemsize alignment max_items ⟨pool, p :: live⟩ free) :
    pool.Block itemsize alignment live p := by
  have positive := known.sized.positive
  have item := known.items p List.mem_cons_self
  refine ⟨item.notNull positive, ?_, ?_, fun v member => ?_⟩
  · obtain ⟨c, -, -, ⟨i, place⟩, -⟩ := item
    rw [place, known.sized.d_alignment]
    exact Nat.dvd_add (dvd_alignUp ..) (known.sized.aligned.mul_left i)
  · obtain ⟨c, allocated, -, ⟨i, place⟩, ends⟩ := item
    have behind := le_alignUp (x := c.toNat) positive
    have size := known.sized.itemsize
    dsimp only at *
    exact ⟨c, allocated, by omega, by omega⟩
  · have other : p ≠ v := by
      rintro rfl
      exact (List.nodup_cons.mp (List.nodup_append.mp known.nodup).1).1 member
    have item' := known.items v (List.mem_append_left free (List.mem_cons_of_mem p member))
    exact (item.apart known.chunksApart positive item' other).mono known.sized.itemsize

theorem initial (allocation_size : UInt64) (memory : ℕ → UInt8)
    (power : alignment.toNat.isPowerOfTwo)
    (room : 8 ≤ alignUp itemsize.toNat alignment.toNat)
    (inside : alignUp itemsize.toNat alignment.toNat < 2 ^ 64) :
    ∃ q, construct itemsize alignment allocation_size max_items memory = .ok q ∧
      Known itemsize alignment max_items ⟨q, []⟩ [] := by
  obtain ⟨k, power⟩ := power
  have fits : k < 64 := by
    have small := alignment.toNat_lt
    rw [power] at small
    exact (Nat.pow_lt_pow_iff_right (by decide)).mp small
  have positive : 0 < alignment.toNat := by
    rw [power]
    exact Nat.two_pow_pos k
  obtain ⟨d_itemsize, rounded, size⟩ := roundup_spec fits power inside
  refine ⟨_, by rw [construct, rounded]; rfl, ?_⟩
  refine ⟨⟨rfl, ⟨k, fits, power⟩, rfl, ?_, ?_, ?_⟩, rfl, List.nodup_nil, ?_, List.Pairwise.nil, rfl,
    fun _ => Nat.zero_le _⟩
  · exact size ▸ room
  · exact size ▸ le_alignUp positive
  · exact size ▸ dvd_alignUp ..
  · intro v member
    cases member

end Known

/-- A chunk that the call needs has room for an item. -/
def HasRoom (w : PoolRun) (call : PoolCall) : Prop :=
  ∀ alloc, call = .malloc alloc → w.pool.d_freelist = 0 → w.pool.Roomy alloc

/-- While an item has room for a pointer and each new chunk has room for an item, `malloc` returns
blocks as they are to be, and the free list is kept. -/
theorem pool_run {itemsize alignment : UInt64} (allocation_size max_items : UInt64)
    (memory : ℕ → UInt8) (power : alignment.toNat.isPowerOfTwo)
    (room : 8 ≤ alignUp itemsize.toNat alignment.toNat)
    (inside : alignUp itemsize.toNat alignment.toNat < 2 ^ 64) :
    ∃ q, construct itemsize alignment allocation_size max_items memory = .ok q ∧
      ∀ calls w, run PoolRun.step ⟨q, []⟩ calls = some w →
        Throughout HasRoom PoolRun.step ⟨q, []⟩ calls →
        Kept max_items w ∧ ∀ alloc, w.pool.Callable alloc → HasRoom w (.malloc alloc) →
          ∃ p pool, w.pool.malloc alloc = .ok (p, pool) ∧
            pool.Block itemsize alignment w.live p := by
  obtain ⟨q, made, known⟩ := Known.initial allocation_size memory power room inside
  refine ⟨q, made, fun calls w reached met => ?_⟩
  have known' : ∃ free, Known itemsize alignment max_items w free := by
    refine run_history (fun _ w => ∃ free, Known itemsize alignment max_items w free) ⟨[], known⟩ ?_
      met reached
    rintro - w call w' - ⟨free, known⟩ roomy stepped
    exact known.step roomy stepped
  obtain ⟨free, known'⟩ := known'
  refine ⟨known'.kept, fun alloc callable roomy => ?_⟩
  obtain ⟨p, pool, rest, returned, known''⟩ := known'.malloc callable (roomy alloc rfl)
  exact ⟨p, pool, returned, known''.block⟩

/-- Objects of 24 bytes on cache lines. -/
theorem pool_run_cacheLine :
    ∃ q, construct 24 64 4096 0 (fun _ => 0) = .ok q ∧
      ∀ calls w, run PoolRun.step ⟨q, []⟩ calls = some w →
        Throughout HasRoom PoolRun.step ⟨q, []⟩ calls →
        Kept 0 w ∧ ∀ alloc, w.pool.Callable alloc → HasRoom w (.malloc alloc) →
          ∃ p pool, w.pool.malloc alloc = .ok (p, pool) ∧ pool.Block 24 64 w.live p :=
  pool_run 4096 0 (fun _ => 0) ⟨6, rfl⟩ (by decide) (by decide)

/-- A chunk of 79 bytes that begins 48 bytes before an aligned address has no room for 64 more. -/
theorem malloc_null :
    ∃ q, construct 1 64 16 0 (fun _ => 0) = .ok q ∧ q.Callable 4112 ∧
      q.malloc 4112 = .error .undefinedBehaviour :=
  ⟨_, rfl, by decide, rfl⟩

end PmtPool

end GnuRadio
