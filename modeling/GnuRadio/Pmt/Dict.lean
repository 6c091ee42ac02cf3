import GnuRadio.Misc.EqvMap
import GnuRadio.Misc.Program
import GnuRadio.Pmt.Equal

/-!
# PMT dictionaries

A dictionary is a list of pairs of a key and a value (`pmt.cc:765-848`). Keys are
compared by `pmt_eqv`. Adding and deleting make new pairs and share the rest of
the list with the dictionary there was.
-/

namespace GnuRadio

/-- `pmt_wrong_type`: a message and the object. -/
structure PmtWrongType where
  msg : String
  obj : PmtObject

/-- Code that makes objects. -/
abbrev PmtProgram := Program PmtMemory PmtWrongType

def pmtNil : PmtObject := .leaf 2 .null

def pmtF : PmtObject := .leaf 1 (.bool false)

/-! ## Pairs and lists -/

/-- `pmt_is_null` (`pmt.cc:414-418`). -/
def pmtIsNull (x : PmtObject) : Bool := pmtEq x pmtNil

/-- `pmt_is_pair` (`pmt.cc:420-424`). -/
def pmtIsPair : PmtObject → Bool
  | .pair _ _ _ => true
  | _ => false

/-- `pmt_cons` (`pmt.cc:426-430`). -/
def pmtCons (x y : PmtObject) : PmtProgram PmtObject := do
  let m ← get
  let (pair, m) := m.pmtCons x y
  set m
  return pair

/-- `pmt_car` (`pmt.cc:432-440`). -/
def pmtCar : PmtObject → PmtProgram PmtObject
  | .pair _ car _ => return car
  | pair => throw ⟨"pmt_car: wrong_type ", pair⟩

/-- `pmt_cdr` (`pmt.cc:442-450`). -/
def pmtCdr : PmtObject → PmtProgram PmtObject
  | .pair _ _ cdr => return cdr
  | pair => throw ⟨"pmt_cdr: wrong_type ", pair⟩

/-- `pmt_acons` (`pmt.h:651-655`). -/
def pmtAcons (x y a : PmtObject) : PmtProgram PmtObject := do
  let pair ← pmtCons x y
  pmtCons pair a

/-- `pmt_assv` (`pmt.cc:1113-1135`). -/
def pmtAssv (obj : PmtObject) : PmtObject → PmtObject
  | .pair _ (.pair a car cdr) alist =>
      if pmtEqv obj car then .pair a car cdr else pmtAssv obj alist
  | _ => pmtF

/-- The loop of `pmt_reverse`: the list and its end. -/
def pmtReverseLoop : PmtObject → PmtObject → PmtProgram (PmtObject × PmtObject)
  | .pair _ car cdr, r => do
      let r ← pmtCons car r
      pmtReverseLoop cdr r
  | list, r => return (r, list)

/-- `pmt_reverse` (`pmt.cc:1187-1201`), which `pmt_reverse_x` calls. -/
def pmtReverse (listx : PmtObject) : PmtProgram PmtObject := do
  let (r, list) ← pmtReverseLoop listx pmtNil
  if pmtIsNull list then return r else throw ⟨"pmt_reverse: wrong_type ", listx⟩

/-- The loop of `pmt_map`. -/
def pmtMapLoop (proc : PmtObject → PmtProgram PmtObject) :
    PmtObject → PmtObject → PmtProgram PmtObject
  | .pair _ car cdr, r => do
      let item ← proc car
      let r ← pmtCons item r
      pmtMapLoop proc cdr r
  | _, r => return r

/-- `pmt_map` (`pmt.cc:1174-1185`). -/
def pmtMap (proc : PmtObject → PmtProgram PmtObject) (list : PmtObject) : PmtProgram PmtObject := do
  let r ← pmtMapLoop proc list pmtNil
  pmtReverse r

/-! ## Dictionaries -/

def pmtIsDict (obj : PmtObject) : Bool := pmtIsNull obj || pmtIsPair obj

def pmtMakeDict : PmtObject := pmtNil

/-- `pmt_dict_has_key` (`pmt.cc:819-823`). -/
def pmtDictHasKey (dict key : PmtObject) : Bool := pmtIsPair (pmtAssv key dict)

/-- `pmt_dict_delete` (`pmt.cc:797-807`). -/
def pmtDictDelete (key : PmtObject) : PmtObject → PmtProgram PmtObject
  | .pair a car cdr =>
      if pmtIsNull (.pair a car cdr) then return .pair a car cdr
      else do
        if pmtEqv (← pmtCar car) key then return cdr
        else do
          let rest ← pmtDictDelete key cdr
          pmtCons car rest
  | dict => if pmtIsNull dict then return dict else throw ⟨"pmt_car: wrong_type ", dict⟩

/-- `pmt_dict_add` (`pmt.cc:785-795`). -/
def pmtDictAdd (dict key value : PmtObject) : PmtProgram PmtObject :=
  if pmtIsNull dict then pmtAcons key value pmtNil
  else if pmtDictHasKey dict key then do
    let rest ← pmtDictDelete key dict
    pmtAcons key value rest
  else pmtAcons key value dict

/-- `pmt_dict_ref` (`pmt.cc:809-817`). -/
def pmtDictRef (dict key notFound : PmtObject) : PmtObject :=
  match pmtAssv key dict with
  | .pair _ _ cdr => cdr
  | _ => notFound

/-- `pmt_dict_items` (`pmt.cc:825-832`); the message is that of the source. -/
def pmtDictItems (dict : PmtObject) : PmtProgram PmtObject :=
  if !pmtIsDict dict then throw ⟨"pmt_dict_values: wrong_type ", dict⟩ else return dict

/-- `pmt_dict_keys` (`pmt.cc:834-841`). -/
def pmtDictKeys (dict : PmtObject) : PmtProgram PmtObject :=
  if !pmtIsDict dict then throw ⟨"pmt_dict_keys: wrong_type ", dict⟩ else pmtMap pmtCar dict

/-- `pmt_dict_values` (`pmt.cc:843-850`). -/
def pmtDictValues (dict : PmtObject) : PmtProgram PmtObject :=
  if !pmtIsDict dict then throw ⟨"pmt_dict_keys: wrong_type ", dict⟩ else pmtMap pmtCdr dict

/-! ## Runs -/

/-- The objects, and the dictionary that the last operation returned. -/
structure DictState where
  memory : PmtMemory
  dict : PmtObject

/-- An operation on the dictionary, or any call that makes an object. Objects are given by their
addresses. -/
inductive DictCall where
  | make (call : PmtCall)
  | add (key value : Nat)
  | delete (key : Nat)

/-- The state after a call that returns. -/
def dictStep (s : DictState) : DictCall → Option DictState
  | .make call => (pmtStep s.memory call).map fun memory => { s with memory }
  | .add key value => do
      let key ← s.memory.find key
      let value ← s.memory.find value
      match (pmtDictAdd s.dict key value).exec s.memory with
      | (.ok dict, memory) => some ⟨memory, dict⟩
      | (.error _, _) => none
  | .delete key => do
      let key ← s.memory.find key
      match (pmtDictDelete key s.dict).exec s.memory with
      | (.ok dict, memory) => some ⟨memory, dict⟩
      | (.error _, _) => none

/-- No object but those there always are, and a new dictionary. -/
def dictStart : DictState := ⟨PmtMemory.initial, pmtMakeDict⟩

/-- The operation that a call does on the map. -/
def dictOps (s : DictState) : DictCall → List (MapOp PmtObject PmtObject)
  | .make _ => []
  | .add key value =>
      match s.memory.find key, s.memory.find value with
      | some key, some value => [.put key value]
      | _, _ => []
  | .delete key =>
      match s.memory.find key with
      | some key => [.remove key]
      | none => []

end GnuRadio

/-!
## PMT dictionaries are finite maps

What a dictionary holds as a list of entries, and what the operations do to the
list. No two entries of a dictionary have keys that are equal for `pmt_eqv`, so
that the first entry found is the only one.
-/

namespace GnuRadio

open EqvMap

/-! ## `pmt_eqv` is an equivalence -/

variable {a b : PmtLeaf} {x y list r : PmtObject} {items front : List PmtObject}
  {proc : PmtObject → PmtProgram PmtObject} {part : PmtObject × PmtObject → PmtObject}

theorem PmtLeaf.sameNumber_symm (same : a.sameNumber b = true) : b.sameNumber a = true := by
  unfold PmtLeaf.sameNumber at same ⊢
  split at same
  · exact beq_iff_eq.mpr (beq_iff_eq.mp same).symm
  · exact beq_iff_eq.mpr (beq_iff_eq.mp same).symm
  · exact doubleEq_symm same
  · rw [Bool.and_eq_true] at same ⊢
    exact ⟨doubleEq_symm same.1, doubleEq_symm same.2⟩
  · cases same

theorem PmtLeaf.sameNumber_trans {c : PmtLeaf} (first : a.sameNumber b = true)
    (second : b.sameNumber c = true) : a.sameNumber c = true := by
  unfold PmtLeaf.sameNumber at first
  split at first
  all_goals
    unfold PmtLeaf.sameNumber at second ⊢
    split at second
    all_goals simp_all [Bool.and_eq_true]
  · exact doubleEq_trans first second
  · exact ⟨doubleEq_trans first.1 second.1, doubleEq_trans first.2 second.2⟩

theorem pmtEqv_symm (equal : pmtEqv x y = true) : pmtEqv y x = true := by
  unfold pmtEqv at equal ⊢
  rw [Bool.or_eq_true] at equal ⊢
  rcases equal with same | number
  · left
    unfold pmtEq at same ⊢
    exact beq_iff_eq.mpr (beq_iff_eq.mp same).symm
  · right
    split at number
    · exact PmtLeaf.sameNumber_symm number
    · cases number

theorem pmtEqv_comm (x y : PmtObject) : pmtEqv x y = pmtEqv y x := by
  rw [Bool.eq_iff_iff]
  exact ⟨pmtEqv_symm, pmtEqv_symm⟩

variable {m m' : PmtMemory}

theorem pmtEqv_cases (distinct : m.Distinct) (here : x ∈ m.objects) (there : y ∈ m.objects)
    (equal : pmtEqv x y = true) :
    x = y ∨ ∃ a b u v, x = .leaf a u ∧ y = .leaf b v ∧ u.sameNumber v = true := by
  unfold pmtEqv at equal
  rw [Bool.or_eq_true] at equal
  rcases equal with same | number
  · exact .inl (distinct.one x here y there (beq_iff_eq.mp same))
  · split at number
    · exact .inr ⟨_, _, _, _, rfl, rfl, number⟩
    · cases number

theorem pmtEqv_equivalence (distinct : m.Distinct) :
    EquivalenceOn (fun x => x ∈ m.objects) pmtEqv where
  refl x _ := eqv_of_eq (beq_self_eq_true x.address)
  symm _ _ _ _ := pmtEqv_symm
  trans x y z first second third one two := by
    rcases pmtEqv_cases distinct first second one with rfl | ⟨a, b, u, v, rfl, rfl, number⟩
    · exact two
    · rcases pmtEqv_cases distinct second third two with rfl | ⟨_, c, _, w, same, rfl, number'⟩
      · exact one
      · obtain ⟨-, rfl⟩ := PmtObject.leaf.inj same
        unfold pmtEqv
        rw [Bool.or_eq_true]
        exact .inr (PmtLeaf.sameNumber_trans number number')

/-! ## Making objects -/

/-- The objects are distinct, and `PMT_NIL` is there. -/
structure PmtMemory.Sane (m : PmtMemory) : Prop where
  distinct : m.Distinct
  interned : m.Interned
  nil : pmtNil ∈ m.objects

theorem sane_initial : PmtMemory.initial.Sane where
  distinct := PmtMemory.initial_distinct
  interned := PmtMemory.initial_interned
  nil := by simp [PmtMemory.initial, pmtNil]

/-- The program returns an object, and everything there was is still there. -/
structure Yields (p : PmtProgram PmtObject) (m : PmtMemory) (x : PmtObject) (m' : PmtMemory) :
    Prop where
  returns : p.Returns m x m'
  sane : m'.Sane
  made : x ∈ m'.objects
  kept : ∀ y ∈ m.objects, y ∈ m'.objects

theorem Yields.pure (sane : m.Sane) (there : x ∈ m.objects) : Yields (Pure.pure x) m x m :=
  ⟨Program.Returns.pure x m, sane, there, fun _ member => member⟩

theorem Yields.bind {p : PmtProgram PmtObject} {f : PmtObject → PmtProgram PmtObject}
    {m'' : PmtMemory} (first : Yields p m x m') (rest : Yields (f x) m' y m'') :
    Yields (p >>= f) m y m'' :=
  ⟨first.returns.bind rest.returns, rest.sane, rest.made,
    fun z member => rest.kept z (first.kept z member)⟩

theorem cons_yields (sane : m.Sane) (car : x ∈ m.objects) (cdr : y ∈ m.objects) :
    ∃ a m', Yields (pmtCons x y) m (.pair a x y) m' := by
  refine ⟨m.next, (m.pmtCons x y).2, rfl, ⟨?_, ?_, List.mem_cons_of_mem _ sane.nil⟩,
    List.mem_cons_self, fun z member => List.mem_cons_of_mem _ member⟩
  · refine sane.distinct.allocate rfl ?_ ?_
    · intro z member
      rcases List.mem_pair.mp member with rfl | rfl
      · exact car
      · exact cdr
    · intro data _ same
      cases same
  · apply sane.interned.allocate
    intro a name same
    cases same

theorem acons_yields (sane : m.Sane) {a : PmtObject} (key : x ∈ m.objects) (value : y ∈ m.objects)
    (rest : a ∈ m.objects) : ∃ b c m', Yields (pmtAcons x y a) m (.pair b (.pair c x y) a) m' := by
  obtain ⟨c, m₁, inner⟩ := cons_yields sane key value
  obtain ⟨b, m₂, outer⟩ := cons_yields inner.sane inner.made (inner.kept a rest)
  exact ⟨b, c, m₂, inner.bind outer⟩

/-! ## Lists and dictionaries -/

/-- The object is a proper list of these items. -/
def IsList : PmtObject → List PmtObject → Prop
  | x, [] => x = pmtNil
  | x, item :: items => ∃ a rest, x = .pair a item rest ∧ IsList rest items

theorem isList_nil : IsList pmtNil [] := rfl

theorem IsList.cons {a : Nat} {item rest : PmtObject} {items : List PmtObject}
    (listed : IsList rest items) : IsList (.pair a item rest) (item :: items) :=
  ⟨a, rest, rfl, listed⟩

/-- The object is a proper list of pairs of these keys and values. -/
def Alist : PmtObject → List (PmtObject × PmtObject) → Prop
  | x, [] => x = pmtNil
  | x, entry :: entries =>
      ∃ a b rest, x = .pair a (.pair b entry.1 entry.2) rest ∧ Alist rest entries

variable {dict key value : PmtObject} {entries : List (PmtObject × PmtObject)}

theorem PmtMemory.Sane.parts (sane : m.Sane) {a b : Nat} {rest : PmtObject}
    (there : .pair a (.pair b key value) rest ∈ m.objects) :
    rest ∈ m.objects ∧ .pair b key value ∈ m.objects ∧ key ∈ m.objects ∧ value ∈ m.objects := by
  have pair := sane.distinct.parts _ there (.pair b key value) List.mem_cons_self
  exact ⟨sane.distinct.parts _ there rest (List.mem_cons_of_mem _ List.mem_cons_self), pair,
    sane.distinct.parts _ pair key List.mem_cons_self,
    sane.distinct.parts _ pair value (List.mem_cons_of_mem _ List.mem_cons_self)⟩

theorem pair_not_null (sane : m.Sane) {a : Nat} {car cdr : PmtObject}
    (there : .pair a car cdr ∈ m.objects) : pmtIsNull (.pair a car cdr) = false := by
  rw [Bool.eq_false_iff]
  intro null
  cases sane.distinct.one _ there _ sane.nil (beq_iff_eq.mp null)

theorem Alist.mem (sane : m.Sane) (alist : Alist dict entries) (there : dict ∈ m.objects) :
    ∀ entry ∈ entries, entry.1 ∈ m.objects ∧ entry.2 ∈ m.objects := by
  induction entries generalizing dict with
  | nil =>
    intro entry member
    cases member
  | cons first entries ih =>
    obtain ⟨a, b, rest, rfl, others⟩ := alist
    obtain ⟨behind, -, key, value⟩ := sane.parts there
    intro entry member
    rcases List.mem_cons.mp member with rfl | later
    · exact ⟨key, value⟩
    · exact ih others behind entry later

theorem pmtAssv_eq (alist : Alist dict entries) (key notFound : PmtObject) :
    pmtDictHasKey dict key = (lookup pmtEqv entries key).isSome ∧
      pmtDictRef dict key notFound = (lookup pmtEqv entries key).getD notFound := by
  induction entries generalizing dict with
  | nil =>
    rw [show dict = pmtNil from alist]
    exact ⟨rfl, rfl⟩
  | cons entry entries ih =>
    obtain ⟨a, b, rest, rfl, others⟩ := alist
    rw [lookup_cons, pmtEqv_comm, pmtDictHasKey, pmtDictRef, pmtAssv]
    split
    · exact ⟨rfl, rfl⟩
    · exact ih others

theorem delete_yields (sane : m.Sane) (alist : Alist dict entries) (there : dict ∈ m.objects)
    (key : PmtObject) : ∃ dict' m', Yields (pmtDictDelete key dict) m dict' m' ∧
      Alist dict' (erase pmtEqv entries key) := by
  induction entries generalizing dict with
  | nil =>
    rw [show dict = pmtNil from alist]
    exact ⟨pmtNil, m, .pure sane sane.nil, rfl⟩
  | cons entry entries ih =>
    obtain ⟨a, b, rest, rfl, others⟩ := alist
    obtain ⟨behind, pair, -, -⟩ := sane.parts there
    rw [pmtDictDelete, pair_not_null sane there, if_neg Bool.false_ne_true, pmtCar, pure_bind,
      erase_cons]
    split
    · exact ⟨rest, m, .pure sane behind, others⟩
    · obtain ⟨rest', m₁, deleted, alist'⟩ := ih others behind
      obtain ⟨c, m₂, consed⟩ := cons_yields deleted.sane (deleted.kept _ pair) deleted.made
      exact ⟨_, m₂, deleted.bind consed, c, b, rest', rfl, alist'⟩

theorem add_yields (sane : m.Sane) (alist : Alist dict entries) (there : dict ∈ m.objects)
    (knownKey : key ∈ m.objects) (knownValue : value ∈ m.objects) :
    ∃ dict' m', Yields (pmtDictAdd dict key value) m dict' m' ∧
      Alist dict' ((key, value) :: erase pmtEqv entries key) := by
  have front : ∀ {m rest entries}, m.Sane → Alist rest entries → rest ∈ m.objects →
      key ∈ m.objects → value ∈ m.objects → ∃ dict' m',
        Yields (pmtAcons key value rest) m dict' m' ∧ Alist dict' ((key, value) :: entries) := by
    intro m rest entries sane others behind first second
    obtain ⟨b, c, m', made⟩ := acons_yields sane first second behind
    exact ⟨_, m', made, b, c, rest, rfl, others⟩
  obtain ⟨hasKey, -⟩ := pmtAssv_eq alist key key
  rw [pmtDictAdd]
  split
  · rename_i null
    cases entries with
    | nil => exact front sane rfl sane.nil knownKey knownValue
    | cons entry entries =>
      obtain ⟨a, b, rest, rfl, others⟩ := alist
      rw [pair_not_null sane there] at null
      cases null
  split
  · obtain ⟨rest, m₁, deleted, alist'⟩ := delete_yields sane alist there key
    obtain ⟨dict', m₂, made, alist''⟩ := front deleted.sane alist' deleted.made
      (deleted.kept key knownKey) (deleted.kept value knownValue)
    exact ⟨dict', m₂, deleted.bind made, alist''⟩
  · rename_i missing
    rw [hasKey, Bool.not_eq_true, Option.isSome_eq_false_iff, Option.isNone_iff_eq_none] at missing
    rw [erase_of_lookup_none missing]
    exact front sane alist there knownKey knownValue

/-! ## Keys and values -/

theorem reverseLoop_returns (sane : m.Sane) (listed : IsList list items) (there : list ∈ m.objects)
    (done : IsList r front) (made : r ∈ m.objects) :
    ∃ x m', (pmtReverseLoop list r).Returns m (x, pmtNil) m' ∧ m'.Sane ∧ x ∈ m'.objects ∧
      (∀ y ∈ m.objects, y ∈ m'.objects) ∧ IsList x (items.reverse ++ front) := by
  induction items generalizing list r m front with
  | nil =>
    rw [show list = pmtNil from listed]
    exact ⟨r, m, Program.Returns.pure _ m, sane, made, fun _ member => member, done⟩
  | cons item items ih =>
    obtain ⟨a, rest, rfl, others⟩ := listed
    have inside := sane.distinct.parts _ there item List.mem_cons_self
    have behind := sane.distinct.parts _ there rest (List.mem_cons_of_mem _ List.mem_cons_self)
    obtain ⟨b, m₁, consed⟩ := cons_yields sane inside made
    obtain ⟨x, m₂, looped, sane', made', kept, list'⟩ :=
      ih consed.sane others (consed.kept rest behind) done.cons consed.made
    refine ⟨x, m₂, consed.returns.bind looped, sane', made',
      fun y member => kept y (consed.kept y member), ?_⟩
    rw [List.reverse_cons, List.append_assoc, List.singleton_append]
    exact list'

theorem reverse_yields (sane : m.Sane) (listed : IsList list items) (there : list ∈ m.objects) :
    ∃ x m', Yields (pmtReverse list) m x m' ∧ IsList x items.reverse := by
  obtain ⟨x, m', looped, sane', made, kept, list'⟩ :=
    reverseLoop_returns sane listed there isList_nil sane.nil
  rw [List.append_nil] at list'
  exact ⟨x, m', ⟨looped.bind (Program.Returns.pure x m'), sane', made, kept⟩, list'⟩

theorem mapLoop_yields (takes : ∀ b key value, proc (.pair b key value) = pure (part (key, value)))
    (inside : ∀ entry, part entry = entry.1 ∨ part entry = entry.2) (sane : m.Sane)
    (alist : Alist dict entries) (there : dict ∈ m.objects) (done : IsList r front)
    (made : r ∈ m.objects) : ∃ x m', Yields (pmtMapLoop proc dict r) m x m' ∧
      IsList x ((entries.map part).reverse ++ front) := by
  induction entries generalizing dict r m front with
  | nil =>
    rw [show dict = pmtNil from alist]
    exact ⟨r, m, .pure sane made, done⟩
  | cons entry entries ih =>
    obtain ⟨a, b, rest, rfl, others⟩ := alist
    obtain ⟨behind, -, key, value⟩ := sane.parts there
    have known : part entry ∈ m.objects := by
      rcases inside entry with same | same
      · rw [same]
        exact key
      · rw [same]
        exact value
    obtain ⟨c, m₁, consed⟩ := cons_yields sane known made
    obtain ⟨x, m₂, looped, list'⟩ :=
      ih consed.sane others (consed.kept rest behind) done.cons consed.made
    refine ⟨x, m₂, ?_, ?_⟩
    · rw [pmtMapLoop, takes, pure_bind]
      exact consed.bind looped
    · rw [List.map_cons, List.reverse_cons, List.append_assoc, List.singleton_append]
      exact list'

theorem map_yields (takes : ∀ b key value, proc (.pair b key value) = pure (part (key, value)))
    (inside : ∀ entry, part entry = entry.1 ∨ part entry = entry.2) (sane : m.Sane)
    (alist : Alist dict entries) (there : dict ∈ m.objects) :
    ∃ x m', Yields (pmtMap proc dict) m x m' ∧ IsList x (entries.map part) := by
  obtain ⟨r, m₁, looped, listed⟩ :=
    mapLoop_yields takes inside sane alist there isList_nil sane.nil
  obtain ⟨x, m₂, reversed, list'⟩ := reverse_yields looped.sane listed looped.made
  rw [List.append_nil, List.reverse_reverse] at list'
  exact ⟨x, m₂, looped.bind reversed, list'⟩

theorem isDict (alist : Alist dict entries) : pmtIsDict dict = true := by
  cases entries with
  | nil =>
    rw [show dict = pmtNil from alist]
    rfl
  | cons entry entries =>
    obtain ⟨a, b, rest, rfl, -⟩ := alist
    exact Bool.or_true _

theorem keys_yields (sane : m.Sane) (alist : Alist dict entries) (there : dict ∈ m.objects) :
    ∃ x m', Yields (pmtDictKeys dict) m x m' ∧ IsList x (entries.map Prod.fst) := by
  rw [pmtDictKeys, isDict alist]
  exact map_yields (fun _ _ _ => rfl) (fun _ => .inl rfl) sane alist there

theorem values_yields (sane : m.Sane) (alist : Alist dict entries) (there : dict ∈ m.objects) :
    ∃ x m', Yields (pmtDictValues dict) m x m' ∧ IsList x (entries.map Prod.snd) := by
  rw [pmtDictValues, isDict alist]
  exact map_yields (fun _ _ _ => rfl) (fun _ => .inr rfl) sane alist there

end GnuRadio

/-!
## Runs of dictionary operations

After any operations, and whatever objects are made in between, a dictionary is
the map that the operations make.
-/

namespace GnuRadio

open EqvMap

/-- The entries of the dictionary are what the operations leave, also for keys that are made
later. -/
structure DictRepresents (ops : List (MapOp PmtObject PmtObject)) (s : DictState)
    (entries : List (PmtObject × PmtObject)) : Prop where
  sane : s.memory.Sane
  there : s.dict ∈ s.memory.objects
  alist : Alist s.dict entries
  distinct : Distinct pmtEqv entries
  found : ∀ m : PmtMemory, m.Distinct → (∀ x ∈ s.memory.objects, x ∈ m.objects) →
    ∀ k ∈ m.objects, lookup pmtEqv entries k = live pmtEqv ops k

variable {s t : DictState} {ops : List (MapOp PmtObject PmtObject)}
  {entries : List (PmtObject × PmtObject)}

theorem dictRepresents_start : DictRepresents [] dictStart [] where
  sane := sane_initial
  there := sane_initial.nil
  alist := rfl
  distinct := List.Pairwise.nil
  found _ _ _ _ _ := rfl

variable {m : PmtMemory} {key : PmtObject} {calls : List DictCall}

section

variable (represents : DictRepresents ops s entries)
include represents

theorem DictRepresents.make {call : PmtCall} (stepped : pmtStep s.memory call = some m) :
    DictRepresents ops ⟨m, s.dict⟩ entries := by
  have grows : ∀ x ∈ s.memory.objects, x ∈ m.objects :=
    fun x member => PmtMemory.step_grows member stepped
  obtain ⟨distinct, interned⟩ :=
    PmtMemory.step_keeps represents.sane.distinct represents.sane.interned stepped
  refine ⟨⟨distinct, interned, grows _ represents.sane.nil⟩, grows _ represents.there,
    represents.alist, represents.distinct, ?_⟩
  exact fun m' distinct' later =>
    represents.found m' distinct' fun x member => later x (grows x member)

theorem DictRepresents.lookup_erase (distinct : m.Distinct)
    (later : ∀ x ∈ s.memory.objects, x ∈ m.objects) {k : PmtObject} (known : key ∈ s.memory.objects)
    (inside : k ∈ m.objects) :
    lookup pmtEqv (erase pmtEqv entries key) k =
      if pmtEqv key k then none else live pmtEqv ops k := by
  rw [← represents.found m distinct later k inside]
  refine EqvMap.lookup_erase (pmtEqv_equivalence distinct) represents.distinct ?_
    (later key known) inside
  intro entry member
  exact later _ (represents.alist.mem represents.sane represents.there entry member).1

theorem DictRepresents.delete (known : key ∈ s.memory.objects) :
    ∃ dict' m', Yields (pmtDictDelete key s.dict) s.memory dict' m' ∧
      DictRepresents (ops ++ [.remove key]) ⟨m', dict'⟩ (erase pmtEqv entries key) := by
  obtain ⟨dict', m', deleted, alist⟩ :=
    delete_yields represents.sane represents.alist represents.there key
  refine ⟨dict', m', deleted, deleted.sane, deleted.made, alist,
    represents.distinct.erase key, ?_⟩
  intro m distinct later k inside
  rw [represents.lookup_erase distinct (fun x member => later x (deleted.kept x member)) known
    inside, live_remove]

theorem DictRepresents.add {value : PmtObject} (known : key ∈ s.memory.objects)
    (knownValue : value ∈ s.memory.objects) :
    ∃ dict' m', Yields (pmtDictAdd s.dict key value) s.memory dict' m' ∧
      DictRepresents (ops ++ [.put key value]) ⟨m', dict'⟩
        ((key, value) :: erase pmtEqv entries key) := by
  obtain ⟨dict', m', added, alist⟩ :=
    add_yields represents.sane represents.alist represents.there known knownValue
  refine ⟨dict', m', added, added.sane, added.made, alist, ?_, ?_⟩
  · refine (represents.distinct.erase key).cons ?_ fun _ _ => pmtEqv_symm
    have missing := represents.lookup_erase represents.sane.distinct (fun _ member => member)
      known known
    rwa [if_pos (eqv_of_eq (beq_self_eq_true key.address))] at missing
  · intro m distinct later k inside
    rw [lookup_cons, represents.lookup_erase distinct
      (fun x member => later x (added.kept x member)) known inside, live_put]
    split
    · rfl
    · rfl

theorem DictRepresents.step {call : DictCall} (stepped : dictStep s call = some t) :
    (∃ entries', DictRepresents (ops ++ dictOps s call) t entries') ∧
      ∀ x ∈ s.memory.objects, x ∈ t.memory.objects := by
  cases call with
  | make call =>
    obtain ⟨m, made, rfl⟩ := Option.map_eq_some_iff.mp stepped
    refine ⟨⟨entries, ?_⟩, fun x member => PmtMemory.step_grows member made⟩
    rw [dictOps, List.append_nil]
    exact represents.make made
  | add key value =>
    simp only [dictStep, Option.bind_eq_bind, Option.bind_eq_some_iff] at stepped
    obtain ⟨k, foundKey, v, foundValue, stepped⟩ := stepped
    have known := PmtMemory.find_mem foundKey
    have knownValue := PmtMemory.find_mem foundValue
    simp only [dictOps, foundKey, foundValue]
    obtain ⟨dict', m', added, after⟩ := represents.add known knownValue
    rw [added.returns] at stepped
    cases stepped
    exact ⟨⟨_, after⟩, added.kept⟩
  | delete key =>
    simp only [dictStep, Option.bind_eq_bind, Option.bind_eq_some_iff] at stepped
    obtain ⟨k, foundKey, stepped⟩ := stepped
    have known := PmtMemory.find_mem foundKey
    simp only [dictOps, foundKey]
    obtain ⟨dict', m', deleted, after⟩ := represents.delete known
    rw [deleted.returns] at stepped
    cases stepped
    exact ⟨⟨_, after⟩, deleted.kept⟩

end

theorem dictRepresents_run (reached : run dictStep dictStart calls = some s) :
    ∃ entries, DictRepresents (observed dictOps dictStep dictStart calls) s entries := by
  refine run_history (C := fun _ _ => True)
    (fun es u => ∃ entries, DictRepresents (observed dictOps dictStep dictStart es) u entries)
    ⟨[], dictRepresents_start⟩ ?_ (.of_forall (fun _ _ => trivial) _ _) reached
  rintro es t call u before ⟨entries, represents⟩ - stepped
  rw [observed_append before, observed_singleton]
  exact (represents.step stepped).1

theorem DictRepresents.later (represents : DictRepresents ops s entries)
    (reached : run dictStep s calls = some t) {x : PmtObject} (there : x ∈ s.memory.objects) :
    t.memory.find x.address = some x := by
  obtain ⟨⟨ops', entries', after⟩, kept⟩ := run_invariant
    (fun u => (∃ ops entries, DictRepresents ops u entries) ∧ x ∈ u.memory.objects)
    (by
      rintro u call v ⟨⟨ops', entries', represents⟩, there⟩ stepped
      obtain ⟨⟨entries'', after⟩, grown⟩ := represents.step stepped
      exact ⟨⟨_, entries'', after⟩, grown x there⟩)
    ⟨⟨ops, entries, represents⟩, there⟩ reached
  exact PmtMemory.find_of_mem after.sane.distinct kept

/-- The dictionary of a state is the map that these operations make. -/
structure IsMap (ops : List (MapOp PmtObject PmtObject)) (s : DictState) : Prop where
  /-- Neither operation throws. -/
  returns : ∀ key ∈ s.memory.objects, ∀ value ∈ s.memory.objects,
    (∃ dict' m', (pmtDictAdd s.dict key value).Returns s.memory dict' m') ∧
      ∃ dict' m', (pmtDictDelete key s.dict).Returns s.memory dict' m'
  ref : ∀ k ∈ s.memory.objects, ∀ notFound,
    pmtDictRef s.dict k notFound = (live pmtEqv ops k).getD notFound
  hasKey : ∀ k ∈ s.memory.objects, pmtDictHasKey s.dict k = (live pmtEqv ops k).isSome
  /-- Keys, values and items are those of the same entries in order. -/
  entries : ∃ entries,
    (∃ items, (pmtDictItems s.dict).Returns s.memory items s.memory ∧ Alist items entries) ∧
    (∃ keys m', (pmtDictKeys s.dict).Returns s.memory keys m' ∧
      IsList keys (entries.map Prod.fst)) ∧
    (∃ values m', (pmtDictValues s.dict).Returns s.memory values m' ∧
      IsList values (entries.map Prod.snd)) ∧
    (∀ entry ∈ entries, live pmtEqv ops entry.1 = some entry.2) ∧
    ∀ k ∈ s.memory.objects, (entries.filter fun entry => pmtEqv entry.1 k).length =
      if (live pmtEqv ops k).isSome then 1 else 0
  /-- No later call changes an object there is, and so no dictionary. -/
  kept : ∀ calls t, run dictStep s calls = some t → ∀ x ∈ s.dict :: s.memory.objects,
    t.memory.find x.address = some x

/-- **Dictionaries are finite maps.** A lookup gives what the last operation on the key has left,
each live key is listed once, with its value in the same place, and no earlier dictionary has
changed. -/
theorem pmt_dict_is_map {calls : List DictCall}
    (reached : run dictStep dictStart calls = some s) :
    IsMap (observed dictOps dictStep dictStart calls) s := by
  obtain ⟨entries, represents⟩ := dictRepresents_run reached
  have known := represents.alist.mem represents.sane represents.there
  have found := represents.found s.memory represents.sane.distinct fun _ member => member
  have equivalence := pmtEqv_equivalence represents.sane.distinct
  have inside : ∀ entry ∈ entries, entry.1 ∈ s.memory.objects :=
    fun entry member => (known entry member).1
  refine ⟨?_, ?_, ?_, ⟨entries, ⟨s.dict, ?_, represents.alist⟩, ?_, ?_, ?_, ?_⟩, ?_⟩
  · intro key knownKey value knownValue
    obtain ⟨dict', m', added, -⟩ := represents.add knownKey knownValue
    obtain ⟨dict'', m'', deleted, -⟩ := represents.delete knownKey
    exact ⟨⟨dict', m', added.returns⟩, dict'', m'', deleted.returns⟩
  · intro k member notFound
    rw [(pmtAssv_eq represents.alist k notFound).2, found k member]
  · intro k member
    rw [(pmtAssv_eq represents.alist k k).1, found k member]
  · rw [pmtDictItems, isDict represents.alist]
    exact Program.Returns.pure s.dict s.memory
  · obtain ⟨keys, m', listed, list⟩ :=
      keys_yields represents.sane represents.alist represents.there
    exact ⟨keys, m', listed.returns, list⟩
  · obtain ⟨values, m', listed, list⟩ :=
      values_yields represents.sane represents.alist represents.there
    exact ⟨values, m', listed.returns, list⟩
  · intro entry member
    rw [← found entry.1 (inside entry member)]
    exact lookup_of_mem equivalence represents.distinct inside member
  · intro k member
    rw [← found k member]
    exact length_filter equivalence represents.distinct inside member
  · intro later t ran x member
    rcases List.mem_cons.mp member with rfl | old
    · exact represents.later ran represents.there
    · exact represents.later ran old

/-- A symbol is a key for one number after another. -/
theorem pmt_dict_is_map_symbol : ∃ s, run dictStep dictStart
      [.make (.stringToSymbol [107]), .make (.fromLong 5), .make (.fromLong 6), .add 4 5,
        .add 4 6] = some s ∧
    ∀ notFound, pmtDictRef s.dict (.leaf 4 (.symbol [107])) notFound = .leaf 6 (.integer 6) := by
  obtain ⟨s, reached, place⟩ : ∃ s, run dictStep dictStart
      [.make (.stringToSymbol [107]), .make (.fromLong 5), .make (.fromLong 6), .add 4 5,
        .add 4 6] = some s ∧ s.memory.objects[6]? = some (.leaf 4 (.symbol [107])) := ⟨_, rfl, rfl⟩
  refine ⟨s, reached, ?_⟩
  intro notFound
  rw [(pmt_dict_is_map reached).ref _ (List.mem_of_getElem? place)]
  rfl

end GnuRadio
