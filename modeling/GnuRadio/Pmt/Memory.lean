import Mathlib.Data.UInt
import GnuRadio.Misc.Trace

/-!
# PMT objects in memory

Polymorphic values as objects with addresses, and the three ways of comparing them
(`pmt.cc`). Two pointers are equal when they point to one object.
-/

namespace GnuRadio

/-! ## Doubles -/

/-- Whether these bits of a `double` are not a number. -/
def doubleIsNan (bits : UInt64) : Bool :=
  bits.toNat / 2 ^ 52 % 2 ^ 11 == 0x7ff && bits.toNat % 2 ^ 52 != 0

/-- `==` of two `double`s, given by their bits. -/
def doubleEq (a b : UInt64) : Bool :=
  !doubleIsNan a && !doubleIsNan b &&
    (a == b || (a.toNat % 2 ^ 63 == 0 && b.toNat % 2 ^ 63 == 0))

theorem doubleEq_symm {a b : UInt64} (equal : doubleEq a b = true) : doubleEq b a = true := by
  grind [doubleEq]

theorem doubleEq_trans {a b c : UInt64} (first : doubleEq a b = true)
    (second : doubleEq b c = true) : doubleEq a c = true := by
  grind [doubleEq]

/-! ## Objects -/

/-- The types of uniform vectors (`pmt_int.h:61-72`). -/
inductive UniformType where
  | u8 | s8 | u16 | s16 | u32 | s32 | u64 | s64 | f32 | f64 | c32 | c64
deriving DecidableEq

/-- `sizeof` of an element. -/
def UniformType.sizeof : UniformType → Nat
  | .u8 | .s8 => 1
  | .u16 | .s16 => 2
  | .u32 | .s32 | .f32 => 4
  | .u64 | .s64 | .f64 | .c32 => 8
  | .c64 => 16

/-- `pmt_uniform_vector`: the bytes of each element. -/
structure UniformVector where
  type : UniformType
  d_v : List (List UInt8)
  sized : ∀ item ∈ d_v, item.length = type.sizeof
deriving DecidableEq

def UniformVector.length (v : UniformVector) : Nat := v.d_v.length

/-- The number of bytes `uniform_elements` points to, which it writes to its argument. -/
def UniformVector.bytes (v : UniformVector) : Nat := v.length * v.type.sizeof

/-- What an object without parts holds. `pmt_bool` has two objects, `PMT_T` and `PMT_F`. -/
inductive PmtLeaf where
  | bool (value : Bool)
  | symbol (name : List UInt8)
  /-- A `long`. -/
  | integer (value : Int64)
  | uint64 (value : UInt64)
  /-- A `double` is given by its bits. -/
  | real (value : UInt64)
  | complex (re im : UInt64)
  | null
  | uniformVector (v : UniformVector)

/-- There is one object of each boolean, of `PMT_NIL` and of each symbol. -/
def PmtLeaf.Single : PmtLeaf → Prop
  | .bool _ | .symbol _ | .null => True
  | _ => False

/-- A finite object and its parts, each with its address. -/
inductive PmtObject where
  | leaf (address : Nat) (data : PmtLeaf)
  | pair (address : Nat) (car cdr : PmtObject)
  | tuple (address : Nat) (items : List PmtObject)
  | vector (address : Nat) (items : List PmtObject)

/-- `x.get()`. -/
def PmtObject.address : PmtObject → Nat
  | .leaf a _ | .pair a _ _ | .tuple a _ | .vector a _ => a

/-- What an object points to. -/
def PmtObject.parts : PmtObject → List PmtObject
  | .leaf _ _ => []
  | .pair _ car cdr => [car, cdr]
  | .tuple _ items | .vector _ items => items

/-- The objects that exist at one time. -/
structure PmtHeap where
  Alive : PmtObject → Prop
  /-- No two objects have one address. -/
  one : ∀ {x y}, Alive x → Alive y → x.address = y.address → x = y
  parts : ∀ {x}, Alive x → ∀ y ∈ x.parts, Alive y
  single : ∀ {a b data}, data.Single → Alive (.leaf a data) → Alive (.leaf b data) → a = b

/-- A pointer to an object of the heap. -/
def PmtHeap.Pointer (heap : PmtHeap) : Type := { x : PmtObject // heap.Alive x }

/-! ## The comparisons -/

/-- `pmt_eq` (`pmt.cc:957-961`). -/
def pmtEq (x y : PmtObject) : Bool := x.address == y.address

/-- Both are numbers of one type with one value. -/
def PmtLeaf.sameNumber : PmtLeaf → PmtLeaf → Bool
  | .integer a, .integer b => a == b
  | .uint64 a, .uint64 b => a == b
  | .real a, .real b => doubleEq a b
  | .complex a b, .complex c d => doubleEq a c && doubleEq b d
  | _, _ => false

/-- `pmt_eqv` (`pmt.cc:963-982`). -/
def pmtEqv (x y : PmtObject) : Bool :=
  pmtEq x y || match x, y with
    | .leaf _ a, .leaf _ b => a.sameNumber b
    | _, _ => false

/-- The case of two uniform vectors (`pmt.cc:1039-1053`): both ends of the test of `memcmp` return
`true`. -/
def uniformEqual (xv yv : UniformVector) : Bool := if xv.length ≠ yv.length then false else true

mutual

/-- What `pmt_equal` returns (`pmt.cc:1005-1058`) when its calls of `memcmp` return. -/
def pmtEqualObjects (x y : PmtObject) : Bool :=
  pmtEqv x y || match x, y with
    | .pair _ car cdr, .pair _ car' cdr' => pmtEqualObjects car car' && pmtEqualObjects cdr cdr'
    | .vector _ xv, .vector _ yv =>
        if xv.length ≠ yv.length then false else pmtEqualItems xv yv
    | .tuple _ xv, .tuple _ yv =>
        if xv.length ≠ yv.length then false else pmtEqualItems xv yv
    | .leaf _ (.uniformVector xv), .leaf _ (.uniformVector yv) => uniformEqual xv yv
    | _, _ => false

/-- The loop over the elements of two vectors or tuples of one length. -/
def pmtEqualItems : List PmtObject → List PmtObject → Bool
  | x :: xs, y :: ys => if !pmtEqualObjects x y then false else pmtEqualItems xs ys
  | _, _ => true

end

mutual

/-- The uniform vectors whose bytes `pmt_equal` gives to `memcmp`, in the order of the calls. -/
def memcmpCalls (x y : PmtObject) : List (UniformVector × UniformVector) :=
  if pmtEqv x y then [] else match x, y with
    | .pair _ car cdr, .pair _ car' cdr' =>
        memcmpCalls car car' ++ if pmtEqualObjects car car' then memcmpCalls cdr cdr' else []
    | .vector _ xv, .vector _ yv => if xv.length ≠ yv.length then [] else memcmpItems xv yv
    | .tuple _ xv, .tuple _ yv => if xv.length ≠ yv.length then [] else memcmpItems xv yv
    | .leaf _ (.uniformVector xv), .leaf _ (.uniformVector yv) =>
        if xv.length ≠ yv.length then [] else [(xv, yv)]
    | _, _ => []

def memcmpItems : List PmtObject → List PmtObject → List (UniformVector × UniformVector)
  | x :: xs, y :: ys =>
      memcmpCalls x y ++ if !pmtEqualObjects x y then [] else memcmpItems xs ys
  | _, _ => []

end

/-- No call of `memcmp` reads behind a vector. Its third argument, `len_x`, is set by the call of
`uniform_elements` in the first one, and C++ does not say which is evaluated first: `len_x` gives
what is read for it where the first argument sets it to that number. -/
def MemcmpInside (len_x : Nat → Nat) (x y : PmtObject) : Prop :=
  ∀ p ∈ memcmpCalls x y, len_x p.1.bytes ≤ p.1.bytes ∧ len_x p.1.bytes ≤ p.2.bytes

instance (len_x : Nat → Nat) (x y : PmtObject) : Decidable (MemcmpInside len_x x y) :=
  inferInstanceAs (Decidable (∀ _ ∈ _, _))

/-- `pmt_equal` (`pmt.cc:1005-1058`), undefined where `memcmp` reads behind a vector. -/
def pmtEqualInMemory (len_x : Nat → Nat) (x y : PmtObject) : Option Bool :=
  if MemcmpInside len_x x y then some (pmtEqualObjects x y) else none

/-!
## Making PMT objects

The functions that make objects, and the symbol table. Whatever was made before,
no two objects have one address, and there is one object of each symbol.
-/

/-- `hash_string` (`pmt.cc:215-231`). -/
def hashString (s : List UInt8) : UInt32 :=
  s.foldl (fun h c =>
    let h := (h <<< 4) + c.toUInt32
    let g := h &&& 0xf0000000
    if g ≠ 0 then (h ^^^ (g >>> 24)) ^^^ g else h) 0

def symbolHashTableSize : Nat := 701

/-- The place of a name in the table. -/
def symbolHash (name : List UInt8) : Nat := (hashString name).toNat % symbolHashTableSize

/-- A `pmt_symbol` in the table. -/
structure PmtSymbol where
  address : Nat
  name : List UInt8

/-- The objects made so far, and the table with its chains of symbols. -/
structure PmtMemory where
  /-- The address that `new` returns next. -/
  next : Nat
  objects : List PmtObject
  s_symbol_hash_table : List (List PmtSymbol)

namespace PmtMemory

/-- `new`. -/
def allocate (m : PmtMemory) (build : Nat → PmtObject) : PmtObject × PmtMemory :=
  (build m.next, { m with next := m.next + 1, objects := build m.next :: m.objects })

/-- `PMT_T`, `PMT_F`, `PMT_NIL` and `PMT_EOF` (`pmt.cc:160-163`). -/
def initial : PmtMemory where
  next := 4
  objects := [.leaf 0 (.bool true), .leaf 1 (.bool false), .leaf 2 .null,
    .pair 3 (.leaf 2 .null) (.leaf 2 .null)]
  s_symbol_hash_table := List.replicate symbolHashTableSize []

/-- The object at an address. -/
def find (m : PmtMemory) (address : Nat) : Option PmtObject :=
  m.objects.find? (·.address == address)

/-- `pmt_string_to_symbol` (`pmt.cc:238-255`). -/
def pmtStringToSymbol (m : PmtMemory) (name : List UInt8) : PmtObject × PmtMemory :=
  let hash := symbolHash name
  match (m.s_symbol_hash_table.getD hash []).find? (fun sym => name == sym.name) with
  | some sym => (.leaf sym.address (.symbol sym.name), m)
  | none =>
      let (sym, m) := m.allocate (.leaf · (.symbol name))
      (sym, { m with
        s_symbol_hash_table := m.s_symbol_hash_table.modify hash (⟨sym.address, name⟩ :: ·) })

/-- `pmt_from_long` (`pmt.cc:297-301`). -/
def pmtFromLong (m : PmtMemory) (x : Int64) : PmtObject × PmtMemory :=
  m.allocate (.leaf · (.integer x))

def pmtFromUint64 (m : PmtMemory) (x : UInt64) : PmtObject × PmtMemory :=
  m.allocate (.leaf · (.uint64 x))

def pmtFromDouble (m : PmtMemory) (x : UInt64) : PmtObject × PmtMemory :=
  m.allocate (.leaf · (.real x))

def pmtMakeRectangular (m : PmtMemory) (re im : UInt64) : PmtObject × PmtMemory :=
  m.allocate (.leaf · (.complex re im))

/-- `pmt_init_u8vector` and its kin (`unv_template.cc.t`). -/
def pmtInitUniformVector (m : PmtMemory) (v : UniformVector) : PmtObject × PmtMemory :=
  m.allocate (.leaf · (.uniformVector v))

def pmtCons (m : PmtMemory) (x y : PmtObject) : PmtObject × PmtMemory :=
  m.allocate (.pair · x y)

def pmtMakeTuple (m : PmtMemory) (items : List PmtObject) : PmtObject × PmtMemory :=
  m.allocate (.tuple · items)

def pmtMakeVector (m : PmtMemory) (k : Nat) (fill : PmtObject) : PmtObject × PmtMemory :=
  m.allocate (.vector · (List.replicate k fill))

end PmtMemory

/-- A call of one of the functions; objects are given by their addresses. -/
inductive PmtCall where
  | stringToSymbol (name : List UInt8)
  | fromLong (x : Int64)
  | fromUint64 (x : UInt64)
  | fromDouble (x : UInt64)
  | makeRectangular (re im : UInt64)
  | initUniformVector (v : UniformVector)
  | cons (x y : Nat)
  | makeTuple (items : List Nat)
  | makeVector (k fill : Nat)

open PmtMemory in
/-- The object a call returns and the memory after it. -/
def pmtCall (m : PmtMemory) : PmtCall → Option (PmtObject × PmtMemory)
  | .stringToSymbol name => some (pmtStringToSymbol m name)
  | .fromLong x => some (pmtFromLong m x)
  | .fromUint64 x => some (pmtFromUint64 m x)
  | .fromDouble x => some (pmtFromDouble m x)
  | .makeRectangular re im => some (pmtMakeRectangular m re im)
  | .initUniformVector v => some (pmtInitUniformVector m v)
  | .cons x y => do return pmtCons m (← m.find x) (← m.find y)
  | .makeTuple items => do return pmtMakeTuple m (← items.mapM m.find)
  | .makeVector k fill => do return pmtMakeVector m k (← m.find fill)

/-- The memory after a call. -/
def pmtStep (m : PmtMemory) (call : PmtCall) : Option PmtMemory := (pmtCall m call).map Prod.snd

namespace PmtMemory

/-- What holds of the objects after any calls. -/
structure Distinct (m : PmtMemory) : Prop where
  below : ∀ x ∈ m.objects, x.address < m.next
  one : ∀ x ∈ m.objects, ∀ y ∈ m.objects, x.address = y.address → x = y
  parts : ∀ x ∈ m.objects, ∀ y ∈ x.parts, y ∈ m.objects
  single : ∀ a b data, data.Single → .leaf a data ∈ m.objects → .leaf b data ∈ m.objects → a = b

/-- The table has the symbols, each in the chain of its hash, and nothing else. -/
structure Interned (m : PmtMemory) : Prop where
  table : m.s_symbol_hash_table.length = symbolHashTableSize
  listed : ∀ a name, .leaf a (.symbol name) ∈ m.objects →
    ⟨a, name⟩ ∈ m.s_symbol_hash_table.getD (symbolHash name) []
  made : ∀ hash, ∀ sym ∈ m.s_symbol_hash_table.getD hash [],
    .leaf sym.address (.symbol sym.name) ∈ m.objects

variable {m m' : PmtMemory} {name : List UInt8}

theorem initial_distinct : initial.Distinct where
  below := by simp [initial, PmtObject.address]
  one := by simp [initial, PmtObject.address]
  parts := by simp [initial, PmtObject.parts]
  single := by
    intro a b data _ member member'
    simp only [initial, List.mem_cons, PmtObject.leaf.injEq, reduceCtorEq, List.not_mem_nil,
      or_false] at member member'
    grind

theorem initial_interned : initial.Interned where
  table := List.length_replicate
  listed a name member := by simp [initial] at member
  made hash sym member := by
    have none : initial.s_symbol_hash_table.getD hash [] = [] := by
      rw [initial, List.getD_eq_getElem?_getD, List.getElem?_replicate]
      split <;> rfl
    rw [none] at member
    cases member

variable {build : Nat → PmtObject} {sym : PmtSymbol} {x : PmtObject} {call : PmtCall}

theorem Distinct.allocate (distinct : m.Distinct)
    (address : (build m.next).address = m.next) (parts : ∀ y ∈ (build m.next).parts, y ∈ m.objects)
    (fresh : ∀ data, data.Single → build m.next = .leaf m.next data →
      ∀ b, .leaf b data ∉ m.objects) : (m.allocate build).2.Distinct where
  below x member := by
    rcases List.mem_cons.mp member with new | old
    · rw [new, address]
      exact Nat.lt_succ_self m.next
    · exact (distinct.below x old).trans (Nat.lt_succ_self m.next)
  one x member y member' same := by
    rcases List.mem_cons.mp member with new | old <;>
      rcases List.mem_cons.mp member' with new' | old'
    · exact new.trans new'.symm
    · rw [new, address] at same
      exact absurd same (distinct.below y old').ne'
    · rw [new', address] at same
      exact absurd same (distinct.below x old).ne
    · exact distinct.one x old y old' same
  parts x member y member' := by
    rcases List.mem_cons.mp member with rfl | old
    · exact List.mem_cons_of_mem _ (parts y member')
    · exact List.mem_cons_of_mem _ (distinct.parts x old y member')
  single a b data one member member' := by
    have place : ∀ c, .leaf c data = build m.next → c = m.next := by
      rintro c same
      rw [← same] at address
      exact address
    rcases List.mem_cons.mp member with new | old <;>
      rcases List.mem_cons.mp member' with new' | old'
    · rw [place a new, place b new']
    · have first := place a new
      subst first
      exact absurd old' (fresh data one new.symm b)
    · have first := place b new'
      subst first
      exact absurd old (fresh data one new'.symm a)
    · exact distinct.single a b data one old old'

theorem Interned.allocate (interned : m.Interned)
    (other : ∀ a name, build m.next ≠ .leaf a (.symbol name)) : (m.allocate build).2.Interned where
  table := interned.table
  listed a name member := by
    rcases List.mem_cons.mp member with new | old
    · exact absurd new.symm (other a name)
    · exact interned.listed a name old
  made hash sym member := List.mem_cons_of_mem _ (interned.made hash sym member)

theorem found_name {chain : List PmtSymbol}
    (found : chain.find? (fun sym => name == sym.name) = some sym) :
    sym ∈ chain ∧ sym.name = name := by
  have equal := List.find?_some found
  exact ⟨List.mem_of_find?_eq_some found, (beq_iff_eq.mp equal).symm⟩

theorem Interned.fresh (interned : m.Interned)
    (missing : (m.s_symbol_hash_table.getD (symbolHash name) []).find?
      (fun sym => name == sym.name) = none) (a : Nat) : .leaf a (.symbol name) ∉ m.objects := by
  intro member
  have different := List.find?_eq_none.mp missing _ (interned.listed a name member)
  exact different (beq_self_eq_true name)

/-- The chain of a name. -/
def chain (m : PmtMemory) (name : List UInt8) : List PmtSymbol :=
  m.s_symbol_hash_table.getD (symbolHash name) []

theorem stringToSymbol_found
    (found : (m.chain name).find? (fun sym => name == sym.name) = some sym) :
    pmtStringToSymbol m name = (.leaf sym.address (.symbol sym.name), m) := by
  rw [chain] at found
  simp only [pmtStringToSymbol, found]

theorem stringToSymbol_missing
    (missing : (m.chain name).find? (fun sym => name == sym.name) = none) :
    pmtStringToSymbol m name = (.leaf m.next (.symbol name),
      { (m.allocate (.leaf · (.symbol name))).2 with
        s_symbol_hash_table :=
          m.s_symbol_hash_table.modify (symbolHash name) (⟨m.next, name⟩ :: ·) }) := by
  rw [chain] at missing
  simp only [pmtStringToSymbol, missing]
  rfl

theorem stringToSymbol_distinct (distinct : m.Distinct) (interned : m.Interned)
    (name : List UInt8) : (pmtStringToSymbol m name).2.Distinct := by
  cases lookup : (m.chain name).find? (fun sym => name == sym.name) with
  | some sym =>
    rw [stringToSymbol_found lookup]
    exact distinct
  | none =>
    rw [stringToSymbol_missing lookup]
    have made : (m.allocate (.leaf · (.symbol name))).2.Distinct := by
      refine distinct.allocate rfl (fun y member => by cases member) ?_
      rintro data - same b member
      obtain rfl := (PmtObject.leaf.inj same).2
      exact interned.fresh lookup b member
    exact ⟨made.below, made.one, made.parts, made.single⟩

theorem getD_modify {table : List (List PmtSymbol)} {i j : Nat}
    (inside : i < table.length) : (table.modify i (sym :: ·)).getD j [] =
      if i = j then sym :: table.getD j [] else table.getD j [] := by
  rw [List.getD_eq_getElem?_getD, List.getElem?_modify, List.getD_eq_getElem?_getD]
  by_cases same : i = j
  · subst same
    simp [inside]
  · simp [same]

theorem stringToSymbol_interned (interned : m.Interned) (name : List UInt8) :
    (pmtStringToSymbol m name).2.Interned := by
  cases lookup : (m.chain name).find? (fun sym => name == sym.name) with
  | some sym =>
    rw [stringToSymbol_found lookup]
    exact interned
  | none =>
    have place : symbolHash name < m.s_symbol_hash_table.length := by
      rw [interned.table]
      exact Nat.mod_lt _ (by decide)
    rw [stringToSymbol_missing lookup]
    constructor
    · simp [interned.table]
    · intro a other member
      rw [getD_modify place]
      rcases List.mem_cons.mp member with new | old
      · obtain ⟨rfl, same⟩ := PmtObject.leaf.inj new
        obtain rfl := PmtLeaf.symbol.inj same
        simp
      · have known := interned.listed a other old
        split
        · exact List.mem_cons_of_mem _ known
        · exact known
    · intro hash sym member
      rw [getD_modify place] at member
      split at member
      · rcases List.mem_cons.mp member with rfl | old
        · exact List.mem_cons_self
        · exact List.mem_cons_of_mem _ (interned.made hash sym old)
      · exact List.mem_cons_of_mem _ (interned.made hash sym member)

theorem find_mem {address : Nat} (found : m.find address = some x) : x ∈ m.objects :=
  List.mem_of_find?_eq_some found

theorem find_of_mem (distinct : m.Distinct) (member : x ∈ m.objects) :
    m.find x.address = some x := by
  cases found : m.find x.address with
  | none =>
    have different := List.find?_eq_none.mp found x member
    exact absurd (beq_self_eq_true x.address) different
  | some y =>
    have test := List.find?_some (p := fun z : PmtObject => z.address == x.address) found
    have same : y.address = x.address := beq_iff_eq.mp test
    rw [distinct.one y (find_mem found) x member same]

theorem mapM_find {items : List Nat} {parts : List PmtObject}
    (found : items.mapM m.find = some parts) : ∀ x ∈ parts, x ∈ m.objects := by
  induction items generalizing parts with
  | nil =>
    cases found
    exact fun x member => by cases member
  | cons item items ih =>
    simp only [List.mapM_cons, Option.bind_eq_bind, Option.bind_eq_some_iff] at found
    obtain ⟨first, here, rest, there, same⟩ := found
    cases same
    intro x member
    rcases List.mem_cons.mp member with rfl | later
    · exact find_mem here
    · exact ih there x later

/-- What `new` may be given after the parts have been looked up. -/
structure Makes (m : PmtMemory) (build : Nat → PmtObject) : Prop where
  address : (build m.next).address = m.next
  parts : ∀ y ∈ (build m.next).parts, y ∈ m.objects
  many : ∀ a data, data.Single → build m.next ≠ .leaf a data

theorem makes_leaf (m : PmtMemory) {data : PmtLeaf} (many : ¬data.Single) :
    m.Makes (.leaf · data) where
  address := rfl
  parts y member := by cases member
  many a other one same := many ((PmtObject.leaf.inj same).2 ▸ one)

theorem step_cases (stepped : pmtStep m call = some m') :
    (∃ name, m' = (pmtStringToSymbol m name).2) ∨
      ∃ build, m.Makes build ∧ m' = (m.allocate build).2 := by
  obtain ⟨⟨x, m''⟩, called, rfl⟩ := Option.map_eq_some_iff.mp stepped
  cases call with
  | stringToSymbol name =>
    exact Or.inl ⟨name, congrArg Prod.snd (Option.some.inj called).symm⟩
  | fromLong x =>
    cases called
    exact Or.inr ⟨_, makes_leaf m id, rfl⟩
  | fromUint64 x =>
    cases called
    exact Or.inr ⟨_, makes_leaf m id, rfl⟩
  | fromDouble x =>
    cases called
    exact Or.inr ⟨_, makes_leaf m id, rfl⟩
  | makeRectangular re im =>
    cases called
    exact Or.inr ⟨_, makes_leaf m id, rfl⟩
  | initUniformVector v =>
    cases called
    exact Or.inr ⟨_, makes_leaf m id, rfl⟩
  | cons x y =>
    simp only [pmtCall, Option.bind_eq_bind, Option.bind_eq_some_iff] at called
    obtain ⟨car, found, cdr, found', called⟩ := called
    cases called
    refine Or.inr ⟨(.pair · car cdr), ⟨rfl, fun z member => ?_, by simp⟩, rfl⟩
    rcases List.mem_pair.mp member with rfl | rfl
    · exact find_mem found
    · exact find_mem found'
  | makeTuple items =>
    simp only [pmtCall, Option.bind_eq_bind, Option.bind_eq_some_iff] at called
    obtain ⟨parts, found, called⟩ := called
    cases called
    exact Or.inr ⟨(.tuple · parts), ⟨rfl, mapM_find found, by simp⟩, rfl⟩
  | makeVector k fill =>
    simp only [pmtCall, Option.bind_eq_bind, Option.bind_eq_some_iff] at called
    obtain ⟨part, found, called⟩ := called
    cases called
    refine Or.inr ⟨(.vector · (List.replicate k part)), ⟨rfl, fun z member => ?_,
      by simp⟩, rfl⟩
    rw [List.eq_of_mem_replicate member]
    exact find_mem found

theorem step_keeps (distinct : m.Distinct) (interned : m.Interned)
    (stepped : pmtStep m call = some m') : m'.Distinct ∧ m'.Interned := by
  rcases step_cases stepped with ⟨name, rfl⟩ | ⟨build, makes, rfl⟩
  · exact ⟨stringToSymbol_distinct distinct interned name, stringToSymbol_interned interned name⟩
  · constructor
    · exact distinct.allocate makes.address makes.parts
        fun data one same => absurd same (makes.many m.next data one)
    · exact interned.allocate fun a name => makes.many a (.symbol name) trivial

theorem stringToSymbol_made (interned : m.Interned) (name : List UInt8) :
    ∃ a, (pmtStringToSymbol m name).1 = .leaf a (.symbol name) ∧
      .leaf a (.symbol name) ∈ (pmtStringToSymbol m name).2.objects := by
  cases lookup : (m.chain name).find? (fun sym => name == sym.name) with
  | some sym =>
    obtain ⟨listed, rfl⟩ := found_name lookup
    rw [stringToSymbol_found lookup]
    exact ⟨sym.address, rfl, interned.made _ sym listed⟩
  | none =>
    rw [stringToSymbol_missing lookup]
    exact ⟨m.next, rfl, List.mem_cons_self⟩

theorem step_grows (member : x ∈ m.objects) (stepped : pmtStep m call = some m') :
    x ∈ m'.objects := by
  rcases step_cases stepped with ⟨name, rfl⟩ | ⟨build, makes, rfl⟩
  · cases lookup : (m.chain name).find? (fun sym => name == sym.name) with
    | some sym =>
      rw [stringToSymbol_found lookup]
      exact member
    | none =>
      rw [stringToSymbol_missing lookup]
      exact List.mem_cons_of_mem _ member
  · exact List.mem_cons_of_mem _ member

theorem run_keeps {calls : List PmtCall} (reached : run pmtStep initial calls = some m) :
    m.Distinct ∧ m.Interned :=
  run_invariant (fun m => m.Distinct ∧ m.Interned)
    (fun _ _ _ kept stepped => step_keeps kept.1 kept.2 stepped)
    ⟨initial_distinct, initial_interned⟩ reached

/-- The objects of a memory. -/
def heap (m : PmtMemory) (distinct : m.Distinct) : PmtHeap where
  Alive x := x ∈ m.objects
  one member member' := distinct.one _ member _ member'
  parts member := distinct.parts _ member
  single one member member' := distinct.single _ _ _ one member member'

end PmtMemory

end GnuRadio
