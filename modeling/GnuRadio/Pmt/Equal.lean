import GnuRadio.Pmt.Memory

/-!
# Equality of PMT objects

`pmt_equal` walks two objects in parallel. It compares everything but the types and
the elements of uniform vectors, of which only the number of elements counts.
-/

namespace GnuRadio

@[elab_as_elim, induction_eliminator]
theorem PmtObject.induction {motive : PmtObject → Prop} (leaf : ∀ a data, motive (.leaf a data))
    (pair : ∀ a car cdr, motive car → motive cdr → motive (.pair a car cdr))
    (tuple : ∀ a items, (∀ x ∈ items, motive x) → motive (.tuple a items))
    (vector : ∀ a items, (∀ x ∈ items, motive x) → motive (.vector a items)) (x : PmtObject) :
    motive x :=
  @PmtObject.rec motive (fun items => ∀ x ∈ items, motive x)
    leaf pair tuple vector (fun _ member => by cases member)
    (fun x items first rest y member => by
      rcases List.mem_cons.mp member with rfl | member
      · exact first
      · exact rest y member) x

/-! ## Same type, same contents -/

section Alike

variable (uniform : UniformVector → UniformVector → Prop)

/-- Leaves of one type with the same contents. Numbers are compared as numbers, and each is the
same as itself, a NaN too; `uniform` compares uniform vectors. -/
def PmtLeaf.Alike (same : Prop) : PmtLeaf → PmtLeaf → Prop
  | .bool v, .bool w => v = w
  | .symbol v, .symbol w => v = w
  | .integer v, .integer w => v = w
  | .uint64 v, .uint64 w => v = w
  | .real v, .real w => same ∨ doubleEq v w = true
  | .complex v w, .complex v' w' => same ∨ doubleEq v v' = true ∧ doubleEq w w' = true
  | .null, .null => True
  | .uniformVector v, .uniformVector w => uniform v w
  | _, _ => False

mutual

/-- Objects of one type with the same contents, part by part. -/
def Alike : PmtObject → PmtObject → Prop
  | .leaf a x, .leaf b y => x.Alike uniform (a = b) y
  | .pair _ car cdr, .pair _ car' cdr' => Alike car car' ∧ Alike cdr cdr'
  | .tuple _ xs, .tuple _ ys => AlikeItems xs ys
  | .vector _ xs, .vector _ ys => AlikeItems xs ys
  | _, _ => False

def AlikeItems : List PmtObject → List PmtObject → Prop
  | [], [] => True
  | x :: xs, y :: ys => Alike x y ∧ AlikeItems xs ys
  | _, _ => False

end

end Alike

/-- The same type and the same contents. -/
def SameContents : PmtObject → PmtObject → Prop := Alike (· = ·)

/-- Alike apart from uniform vectors. -/
def SameFrame : PmtObject → PmtObject → Prop := Alike fun _ _ => True

mutual

/-- The uniform vectors at corresponding places. -/
def uniformPairs : PmtObject → PmtObject → List (UniformVector × UniformVector)
  | .leaf _ (.uniformVector v), .leaf _ (.uniformVector w) => [(v, w)]
  | .pair _ car cdr, .pair _ car' cdr' => uniformPairs car car' ++ uniformPairs cdr cdr'
  | .tuple _ xs, .tuple _ ys => uniformPairsItems xs ys
  | .vector _ xs, .vector _ ys => uniformPairsItems xs ys
  | _, _ => []

def uniformPairsItems : List PmtObject → List PmtObject → List (UniformVector × UniformVector)
  | x :: xs, y :: ys => uniformPairs x y ++ uniformPairsItems xs ys
  | _, _ => []

end

/-- Objects alike apart from uniform vectors, with uniform vectors of the same lengths, have the
same uniform vectors. -/
def UniformVectorsTell (x y : PmtObject) : Prop :=
  SameFrame x y → (∀ p ∈ uniformPairs x y, p.1.length = p.2.length) →
    ∀ p ∈ uniformPairs x y, p.1 = p.2

variable {uniform : UniformVector → UniformVector → Prop} {heap : PmtHeap} {x y z : PmtObject}
  {xs ys zs : List PmtObject}

example (a b : Nat) : AlikeItems uniform [.leaf a .null] [.leaf b .null] := by
  simp [AlikeItems, Alike, PmtLeaf.Alike]

theorem alikeItems_refl (each : ∀ x ∈ xs, Alike uniform x x) : AlikeItems uniform xs xs := by
  induction xs with
  | nil => trivial
  | cons x xs ih =>
    exact ⟨each x List.mem_cons_self, ih fun y member => each y (List.mem_cons_of_mem x member)⟩

theorem alike_refl (reflexive : ∀ v, uniform v v) (x : PmtObject) : Alike uniform x x := by
  induction x with
  | leaf a data => cases data <;> simp [Alike, PmtLeaf.Alike, reflexive]
  | pair a car cdr first rest => exact ⟨first, rest⟩
  | tuple a items each => exact alikeItems_refl each
  | vector a items each => exact alikeItems_refl each

theorem alikeItems_symm (each : ∀ x ∈ xs, ∀ y, Alike uniform x y → Alike uniform y x)
    (alike : AlikeItems uniform xs ys) : AlikeItems uniform ys xs := by
  induction xs generalizing ys with
  | nil =>
    cases ys with
    | nil => trivial
    | cons y ys => exact alike
  | cons x xs ih =>
    cases ys with
    | nil => exact alike
    | cons y ys =>
      refine ⟨each x List.mem_cons_self y alike.1, ih ?_ alike.2⟩
      exact fun z member => each z (List.mem_cons_of_mem x member)

theorem alike_symm (symmetric : ∀ v w, uniform v w → uniform w v) (x y : PmtObject)
    (alike : Alike uniform x y) : Alike uniform y x := by
  induction x generalizing y with
  | leaf a data =>
    cases y with
    | leaf b other =>
      revert alike
      cases data <;> cases other <;> simp only [Alike, PmtLeaf.Alike, imp_self]
      all_goals grind [doubleEq_symm]
    | _ => exact alike
  | pair a car cdr first rest =>
    cases y with
    | pair b car' cdr' => exact ⟨first car' alike.1, rest cdr' alike.2⟩
    | _ => exact alike
  | tuple a items each =>
    cases y with
    | tuple b items' => exact alikeItems_symm each alike
    | _ => exact alike
  | vector a items each =>
    cases y with
    | vector b items' => exact alikeItems_symm each alike
    | _ => exact alike

theorem alikeItems_trans (each : ∀ x ∈ xs, ∀ y ∈ ys, ∀ z ∈ zs, Alike uniform x y →
    Alike uniform y z → Alike uniform x z) (first : AlikeItems uniform xs ys)
    (second : AlikeItems uniform ys zs) :
    AlikeItems uniform xs zs := by
  induction xs generalizing ys zs with
  | nil =>
    cases ys with
    | nil => exact second
    | cons y ys => exact first.elim
  | cons x xs ih =>
    cases ys with
    | nil => exact first.elim
    | cons y ys =>
      cases zs with
      | nil => exact second.elim
      | cons z zs =>
        refine ⟨each x List.mem_cons_self y List.mem_cons_self z List.mem_cons_self first.1 second.1,
          ih ?_ first.2 second.2⟩
        exact fun x' member y' member' z' member'' => each x' (List.mem_cons_of_mem x member) y'
          (List.mem_cons_of_mem y member') z' (List.mem_cons_of_mem z member'')

variable {a : Nat} {u v : PmtLeaf} {car cdr : PmtObject}

theorem PmtLeaf.alike_trans (transitive : ∀ u v w, uniform u v → uniform v w → uniform u w)
    {b c : Nat} {w : PmtLeaf} (one : a = b → u = v) (one' : b = c → v = w)
    (first : u.Alike uniform (a = b) v) (second : v.Alike uniform (b = c) w) :
    u.Alike uniform (a = c) w := by
  cases u <;> cases v <;> simp only [PmtLeaf.Alike] at first
  all_goals cases w <;> simp only [PmtLeaf.Alike] at second ⊢
  all_goals grind [doubleEq_trans]

theorem PmtHeap.car_alive (alive : heap.Alive (.pair a car cdr)) : heap.Alive car :=
  heap.parts alive car List.mem_cons_self

theorem PmtHeap.cdr_alive (alive : heap.Alive (.pair a car cdr)) : heap.Alive cdr :=
  heap.parts alive cdr (List.mem_cons_of_mem car List.mem_cons_self)

theorem alike_trans (transitive : ∀ u v w, uniform u v → uniform v w → uniform u w)
    (x y z : PmtObject) (aliveX : heap.Alive x) (aliveY : heap.Alive y) (aliveZ : heap.Alive z)
    (first : Alike uniform x y) (second : Alike uniform y z) : Alike uniform x z := by
  induction x generalizing y z with
  | leaf a u =>
    cases y with
    | leaf b v =>
      cases z with
      | leaf c w =>
        have one : a = b → u = v := fun same => (PmtObject.leaf.inj (heap.one aliveX aliveY same)).2
        have one' : b = c → v = w := fun same => (PmtObject.leaf.inj (heap.one aliveY aliveZ same)).2
        exact PmtLeaf.alike_trans transitive one one' first second
      | _ => exact second.elim
    | _ => exact first.elim
  | pair a car cdr ih ih' =>
    cases y with
    | pair b car' cdr' =>
      cases z with
      | pair c car'' cdr'' =>
        constructor
        · exact ih car' car'' (heap.car_alive aliveX) (heap.car_alive aliveY)
            (heap.car_alive aliveZ) first.1 second.1
        · exact ih' cdr' cdr'' (heap.cdr_alive aliveX) (heap.cdr_alive aliveY)
            (heap.cdr_alive aliveZ) first.2 second.2
      | _ => exact second.elim
    | _ => exact first.elim
  | tuple a xs each =>
    cases y with
    | tuple b ys =>
      cases z with
      | tuple c zs =>
        refine alikeItems_trans (fun x member y member' z member'' => ?_) first second
        exact each x member y z (heap.parts aliveX x member) (heap.parts aliveY y member')
          (heap.parts aliveZ z member'')
      | _ => exact second.elim
    | _ => exact first.elim
  | vector a xs each =>
    cases y with
    | vector b ys =>
      cases z with
      | vector c zs =>
        refine alikeItems_trans (fun x member y member' z member'' => ?_) first second
        exact each x member y z (heap.parts aliveX x member) (heap.parts aliveY y member')
          (heap.parts aliveZ z member'')
      | _ => exact second.elim
    | _ => exact first.elim

/-! ## What is compared -/

/-- Of two uniform vectors only the lengths are compared. -/
def SameLength (v w : UniformVector) : Prop := v.length = w.length

theorem uniformEqual_iff (v w : UniformVector) : uniformEqual v w = true ↔ SameLength v w := by
  simp [uniformEqual, SameLength]

theorem eqv_of_eq (equal : pmtEq x y = true) : pmtEqv x y = true := by
  unfold pmtEqv
  rw [equal, Bool.true_or]

theorem equal_of_eqv (equal : pmtEqv x y = true) : pmtEqualObjects x y = true := by
  unfold pmtEqualObjects
  rw [equal, Bool.true_or]

theorem equal_iff_of_ne (alive : heap.Alive x) (alive' : heap.Alive y)
    (different : x.address ≠ y.address →
      (pmtEqualObjects x y = true ↔ Alike SameLength x y)) :
    pmtEqualObjects x y = true ↔ Alike SameLength x y := by
  by_cases same : x.address = y.address
  · obtain rfl := heap.one alive alive' same
    have equal : pmtEqualObjects x x = true := equal_of_eqv (eqv_of_eq (beq_self_eq_true x.address))
    simp only [equal, true_iff]
    exact @alike_refl SameLength (fun _ => rfl) x
  · exact different same

theorem equalItems_iff (each : ∀ x ∈ xs, ∀ y ∈ ys,
      (pmtEqualObjects x y = true ↔ Alike SameLength x y)) :
    (if xs.length ≠ ys.length then false else pmtEqualItems xs ys) = true ↔
      AlikeItems SameLength xs ys := by
  induction xs generalizing ys with
  | nil => cases ys <;> simp [AlikeItems, pmtEqualItems]
  | cons x xs ih =>
    cases ys with
    | nil => simp [AlikeItems]
    | cons y ys =>
      have rest := ih fun x' member y' member' =>
        each x' (List.mem_cons_of_mem x member) y' (List.mem_cons_of_mem y member')
      have first := each x List.mem_cons_self y List.mem_cons_self
      rw [AlikeItems, ← rest, ← first]
      simp only [List.length_cons, pmtEqualItems]
      grind

theorem leaf_equal_iff {b : Nat} (alive : heap.Alive (.leaf a u)) (alive' : heap.Alive (.leaf b v))
    (different : a ≠ b) :
    pmtEqualObjects (.leaf a u) (.leaf b v) = true ↔ u.Alike SameLength (a = b) v := by
  have single : u.Single → u ≠ v := by
    rintro one rfl
    exact different (heap.single one alive alive')
  have other : pmtEq (.leaf a u) (.leaf b v) = false := beq_false_of_ne different
  cases u <;> cases v <;> simp_all [pmtEqualObjects, pmtEqv, PmtLeaf.sameNumber, PmtLeaf.Alike,
    PmtLeaf.Single, uniformEqual_iff]

theorem equal_iff_alike (x y : PmtObject) (alive : heap.Alive x) (alive' : heap.Alive y) :
    pmtEqualObjects x y = true ↔ Alike SameLength x y := by
  induction x generalizing y with
  | leaf a u =>
    refine equal_iff_of_ne alive alive' fun different => ?_
    have other : pmtEq (.leaf a u) y = false := beq_false_of_ne different
    cases y with
    | leaf b v => exact leaf_equal_iff alive alive' different
    | _ => simp [pmtEqualObjects, pmtEqv, other, Alike]
  | pair a car cdr first rest =>
    refine equal_iff_of_ne alive alive' fun different => ?_
    have other : pmtEq (.pair a car cdr) y = false := beq_false_of_ne different
    cases y with
    | pair b car' cdr' =>
      have heads := first car' (heap.car_alive alive) (heap.car_alive alive')
      have tails := rest cdr' (heap.cdr_alive alive) (heap.cdr_alive alive')
      rw [Alike, ← heads, ← tails]
      simp [pmtEqualObjects, pmtEqv, other]
    | _ => simp [pmtEqualObjects, pmtEqv, other, Alike]
  | tuple a xs each =>
    refine equal_iff_of_ne alive alive' fun different => ?_
    have other : pmtEq (.tuple a xs) y = false := beq_false_of_ne different
    cases y with
    | tuple b ys =>
      have items := @equalItems_iff xs ys fun x member y member' =>
        each x member y (heap.parts alive x member) (heap.parts alive' y member')
      rw [Alike, ← items]
      simp [pmtEqualObjects, pmtEqv, other]
    | _ => simp [pmtEqualObjects, pmtEqv, other, Alike]
  | vector a xs each =>
    refine equal_iff_of_ne alive alive' fun different => ?_
    have other : pmtEq (.vector a xs) y = false := beq_false_of_ne different
    cases y with
    | vector b ys =>
      have items := @equalItems_iff xs ys fun x member y member' =>
        each x member y (heap.parts alive x member) (heap.parts alive' y member')
      rw [Alike, ← items]
      simp [pmtEqualObjects, pmtEqv, other]
    | _ => simp [pmtEqualObjects, pmtEqv, other, Alike]

theorem alikeItems_frame (each : ∀ x ∈ xs, ∀ y ∈ ys, (Alike uniform x y ↔
      SameFrame x y ∧ ∀ p ∈ uniformPairs x y, uniform p.1 p.2)) :
    AlikeItems uniform xs ys ↔ AlikeItems (fun _ _ => True) xs ys ∧
      ∀ p ∈ uniformPairsItems xs ys, uniform p.1 p.2 := by
  induction xs generalizing ys with
  | nil => cases ys <;> simp [AlikeItems, uniformPairsItems]
  | cons x xs ih =>
    cases ys with
    | nil => simp [AlikeItems]
    | cons y ys =>
      have rest := ih fun x' member y' member' =>
        each x' (List.mem_cons_of_mem x member) y' (List.mem_cons_of_mem y member')
      have first := each x List.mem_cons_self y List.mem_cons_self
      simp only [AlikeItems, uniformPairsItems, List.forall_mem_append, first, rest, SameFrame]
      exact and_and_and_comm

theorem alike_frame (x y : PmtObject) : Alike uniform x y ↔
    SameFrame x y ∧ ∀ p ∈ uniformPairs x y, uniform p.1 p.2 := by
  induction x generalizing y with
  | leaf a u =>
    cases y with
    | leaf b v => cases u <;> cases v <;> simp [SameFrame, Alike, PmtLeaf.Alike, uniformPairs]
    | _ => simp [SameFrame, Alike]
  | pair a car cdr first rest =>
    cases y with
    | pair b car' cdr' =>
      simp only [Alike, SameFrame, uniformPairs, List.forall_mem_append, first, rest]
      exact and_and_and_comm
    | _ => simp [SameFrame, Alike]
  | tuple a xs each =>
    cases y with
    | tuple b ys => exact alikeItems_frame fun x member y _ => each x member y
    | _ => simp [SameFrame, Alike]
  | vector a xs each =>
    cases y with
    | vector b ys => exact alikeItems_frame fun x member y _ => each x member y
    | _ => simp [SameFrame, Alike]

theorem equal_equivalence (heap : PmtHeap) :
    Equivalence fun x y : heap.Pointer => pmtEqualObjects x.1 y.1 = true where
  refl x := (equal_iff_alike x.1 x.1 x.2 x.2).mpr (@alike_refl SameLength (fun _ => rfl) x.1)
  symm {x y} equal := by
    rw [equal_iff_alike _ _ x.2 y.2] at equal
    rw [equal_iff_alike _ _ y.2 x.2]
    exact alike_symm (fun _ _ => Eq.symm) x.1 y.1 equal
  trans {x y z} first second := by
    rw [equal_iff_alike _ _ x.2 y.2] at first
    rw [equal_iff_alike _ _ y.2 z.2] at second
    rw [equal_iff_alike _ _ x.2 z.2]
    exact alike_trans (fun _ _ _ same same' => same.trans same') x.1 y.1 z.1 x.2 y.2 z.2 first second

/-- The value is that of the comparison, and it is undefined when `memcmp` reads too far. -/
theorem pmtEqual_eq_some {len_x : Nat → Nat} {b : Bool} :
    pmtEqualInMemory len_x x y = some b ↔ MemcmpInside len_x x y ∧ pmtEqualObjects x y = b := by
  rw [pmtEqualInMemory]
  split
  · rename_i reads
    simp [reads]
  · rename_i beyond
    simp [beyond]

/-- Objects that `pmt_eqv` finds equal are not looked into. -/
theorem pmtEqual_of_eqv {len_x : Nat → Nat} (equal : pmtEqv x y = true) :
    pmtEqualInMemory len_x x y = some true := by
  refine pmtEqual_eq_some.mpr ⟨fun p member => ?_, equal_of_eqv equal⟩
  unfold memcmpCalls at member
  rw [if_pos equal] at member
  cases member

/-- What the comparison returns says whether the contents are the same, if uniform vectors tell. -/
theorem equal_iff_contents (alive : heap.Alive x) (alive' : heap.Alive y) :
    (pmtEqualObjects x y = true ↔ SameContents x y) ↔ UniformVectorsTell x y := by
  rw [equal_iff_alike x y alive alive', alike_frame, SameContents, alike_frame, UniformVectorsTell]
  have lengths : (∀ p ∈ uniformPairs x y, p.1 = p.2) →
      ∀ p ∈ uniformPairs x y, SameLength p.1 p.2 := fun same p member =>
    congrArg UniformVector.length (same p member)
  constructor
  · intro agree frame tell
    exact (agree.mp ⟨frame, tell⟩).2
  · intro tell
    exact ⟨fun ⟨frame, same⟩ => ⟨frame, tell frame same⟩, fun ⟨frame, same⟩ =>
      ⟨frame, lengths same⟩⟩

/-- **Equality of PMT values.** `pmt_equal` returns, and says whether two objects have the same type
and contents, if and only if `memcmp` stays inside the uniform vectors it is given and no uniform
vectors of one length stand at corresponding places as the only difference. Where it returns it is
an equivalence. It is coarser than `pmt_eqv`, and this one than `pmt_eq`. -/
theorem pmt_equal_iff (heap : PmtHeap) (len_x : Nat → Nat) :
    (∀ x y : heap.Pointer, (∃ b, pmtEqualInMemory len_x x.1 y.1 = some b ∧
        (b = true ↔ SameContents x.1 y.1)) ↔
      MemcmpInside len_x x.1 y.1 ∧ UniformVectorsTell x.1 y.1) ∧
    ((∀ x y : heap.Pointer, MemcmpInside len_x x.1 y.1) →
      Equivalence fun x y : heap.Pointer => pmtEqualInMemory len_x x.1 y.1 = some true) ∧
    ∀ x y : heap.Pointer, (pmtEq x.1 y.1 = true → pmtEqv x.1 y.1 = true) ∧
      (pmtEqv x.1 y.1 = true → pmtEqualInMemory len_x x.1 y.1 = some true) := by
  refine ⟨fun x y => ?_, fun reads => ?_, fun x y => ⟨eqv_of_eq, pmtEqual_of_eqv⟩⟩
  · rw [← equal_iff_contents x.2 y.2]
    simp only [pmtEqual_eq_some]
    constructor
    · rintro ⟨b, ⟨reads, rfl⟩, agree⟩
      exact ⟨reads, agree⟩
    · rintro ⟨reads, agree⟩
      exact ⟨_, ⟨reads, rfl⟩, agree⟩
  · simp only [pmtEqual_eq_some, reads, true_and]
    exact equal_equivalence heap

/-- Two integers of one value. -/
def fortyTwos : PmtMemory where
  next := 6
  objects := .leaf 5 (.integer 42) :: .leaf 4 (.integer 42) :: PmtMemory.initial.objects
  s_symbol_hash_table := PmtMemory.initial.s_symbol_hash_table

theorem fortyTwos_run :
    run pmtStep PmtMemory.initial [.fromLong 42, .fromLong 42] = some fortyTwos := rfl

theorem pmt_equal_iff_fortyTwos :
    ((∃ b, pmtEqualInMemory id (.leaf 4 (.integer 42)) (.leaf 5 (.integer 42)) = some b ∧
        (b = true ↔ SameContents (.leaf 4 (.integer 42)) (.leaf 5 (.integer 42)))) ↔
      MemcmpInside id (.leaf 4 (.integer 42)) (.leaf 5 (.integer 42)) ∧
        UniformVectorsTell (.leaf 4 (.integer 42)) (.leaf 5 (.integer 42))) ∧
    pmtEqualInMemory id (.leaf 4 (.integer 42)) (.leaf 5 (.integer 42)) = some true := by
  let heap := fortyTwos.heap (PmtMemory.run_keeps fortyTwos_run).1
  let x : heap.Pointer := ⟨.leaf 4 (.integer 42), List.mem_cons_of_mem _ List.mem_cons_self⟩
  let y : heap.Pointer := ⟨.leaf 5 (.integer 42), List.mem_cons_self⟩
  obtain ⟨equal, -, implied⟩ := pmt_equal_iff heap id
  exact ⟨equal x y, (implied x y).2 (by decide)⟩

theorem one_sized {type : UniformType} (small : type.sizeof = 1) (c : UInt8) :
    ∀ item ∈ [[c]], item.length = type.sizeof := by
  intro item member
  rw [List.mem_singleton.mp member, small]
  rfl

/-- A `u8vector` of one element. -/
def u8One (c : UInt8) : UniformVector := ⟨.u8, [[c]], one_sized rfl c⟩

/-- An `s8vector` of one element. -/
def s8One (c : UInt8) : UniformVector := ⟨.s8, [[c]], one_sized rfl c⟩

/-- Uniform vectors of one length are equal, whatever their elements and types. -/
theorem uniform_vectors_equal : ∃ m x y z,
    run pmtStep PmtMemory.initial [.initUniformVector (u8One 1), .initUniformVector (u8One 2),
      .initUniformVector (s8One 1)] = some m ∧
    m.find 4 = some x ∧ m.find 5 = some y ∧ m.find 6 = some z ∧
    pmtEqualInMemory id x y = some true ∧ ¬SameContents x y ∧
    pmtEqualInMemory id x z = some true ∧ ¬SameContents x z := by
  refine ⟨_, .leaf 4 (.uniformVector (u8One 1)), .leaf 5 (.uniformVector (u8One 2)),
    .leaf 6 (.uniformVector (s8One 1)), rfl, rfl, rfl, rfl, by decide, ?_, by decide, ?_⟩
  · have different : u8One 1 ≠ u8One 2 := by decide
    exact different
  · have different : u8One 1 ≠ s8One 1 := by decide
    exact different

end GnuRadio
