import Mathlib.Data.List.Chain
import Mathlib.Data.List.Nodup

/-!
# Doubly linked rings

Nodes that point to the next one and to the one before. `Ring l` says that the nodes of `l` are a
cycle in that order, so that a ring can be begun anywhere. Taking a node out and putting one in are
stated for the list that begins where it is done.
-/

namespace GnuRadio

variable {V : Type}

/-- The pointers of all nodes. -/
structure Links (V : Type) where
  next : V → V
  prev : V → V

namespace Links

/-- The two nodes point to each other. -/
def Joined (s : Links V) (v w : V) : Prop := s.next v = w ∧ s.prev w = v

/-- The nodes of the list are a cycle. -/
structure Ring (s : Links V) (l : List V) : Prop where
  nodup : l.Nodup
  path : l.IsChain s.Joined
  closed : ∀ z ∈ l.getLast?, ∀ h ∈ l.head?, s.Joined z h

theorem ring_nil (s : Links V) : s.Ring [] := by
  refine ⟨List.nodup_nil, List.IsChain.nil, fun z member => ?_⟩
  cases member

variable {s : Links V} {v : V}

theorem ring_singleton (joined : s.Joined v v) : s.Ring [v] := by
  refine ⟨List.nodup_singleton v, List.IsChain.singleton v, fun z last h first => ?_⟩
  obtain rfl := Option.some.inj last
  obtain rfl := Option.some.inj first
  exact joined

theorem path_congr {t : Links V} {l : List V} (path : l.IsChain s.Joined)
    (next : ∀ v ∈ l.dropLast, t.next v = s.next v) (prev : ∀ v ∈ l.tail, t.prev v = s.prev v) :
    l.IsChain t.Joined := by
  induction l with
  | nil => exact List.IsChain.nil
  | cons v l ih =>
    cases l with
    | nil => exact List.IsChain.singleton v
    | cons w l =>
      obtain ⟨joined, rest⟩ := List.isChain_cons_cons.mp path
      refine List.isChain_cons_cons.mpr ⟨⟨?_, ?_⟩, ih rest (fun u member => ?_)
        (fun u member => ?_)⟩
      · rw [next v List.mem_cons_self, joined.1]
      · rw [prev w List.mem_cons_self, joined.2]
      · exact next u (List.mem_cons_of_mem v member)
      · exact prev u (List.mem_cons_of_mem w member)

namespace Ring

variable {s t : Links V} {l : List V}

theorem congr (ring : s.Ring l) (same : ∀ v ∈ l, t.next v = s.next v ∧ t.prev v = s.prev v) :
    t.Ring l := by
  refine ⟨ring.nodup, path_congr ring.path
    (fun v member => (same v (List.dropLast_subset l member)).1)
    (fun v member => (same v (List.mem_of_mem_tail member)).2), fun z last h first => ?_⟩
  have joined := ring.closed z last h first
  exact ⟨(same z (List.mem_of_mem_getLast? last)).1.trans joined.1,
    (same h (List.mem_of_mem_head? first)).2.trans joined.2⟩

theorem rotate (front : List V) {back : List V} (ring : s.Ring (front ++ back)) :
    s.Ring (back ++ front) := by
  cases front with
  | nil => rwa [List.append_nil]
  | cons v front =>
    cases back with
    | nil => rwa [List.append_nil] at ring
    | cons w back =>
      obtain ⟨first, second, between⟩ := List.isChain_append.mp ring.path
      refine ⟨(List.perm_append_comm.nodup_iff).mp ring.nodup,
        List.isChain_append.mpr ⟨second, first, ?_⟩, ?_⟩
      · intro z last h head
        refine ring.closed z ?_ h head
        rw [List.getLast?_append_of_ne_nil _ (List.cons_ne_nil w back)]
        exact last
      · intro z last h head
        rw [List.getLast?_append_of_ne_nil _ (List.cons_ne_nil v front)] at last
        exact between z last h head

end Ring

/-! ## Taking nodes out and putting them in -/

variable [DecidableEq V]

def setNext (s : Links V) (v w : V) : Links V := { s with next := Function.update s.next v w }

def setPrev (s : Links V) (v w : V) : Links V := { s with prev := Function.update s.prev v w }

/-- A node is taken out, and is a ring by itself. -/
def remove (s : Links V) (v : V) : Links V :=
  let s := s.setNext (s.prev v) (s.next v)
  let s := s.setPrev (s.next v) (s.prev v)
  (s.setNext v v).setPrev v v

/-- A node is put in before another one, if there is one. -/
def insertBefore (s : Links V) (v : V) : Option V → Links V
  | some next =>
      let prev := s.prev next
      let s := (s.setNext v next).setPrev v prev
      (s.setNext prev v).setPrev next v
  | none => (s.setPrev v v).setNext v v

theorem remove_eq {z h : V} (next : s.next v = h) (prev : s.prev v = z) :
    s.remove v =
      ⟨Function.update (Function.update s.next z h) v v,
        Function.update (Function.update s.prev h z) v v⟩ := by
  have still : Function.update s.next z h v = h := by
    by_cases same : v = z
    · rw [same, Function.update_self]
    · rw [Function.update_of_ne same, next]
  simp only [Links.remove, setNext, setPrev, next, prev, still]

theorem insertBefore_eq {z h : V} (prev : s.prev h = z) :
    s.insertBefore v (some h) =
      ⟨Function.update (Function.update s.next v h) z v,
        Function.update (Function.update s.prev v z) h v⟩ := by
  simp only [Links.insertBefore, setNext, setPrev, prev]

namespace Ring

variable {s : Links V} {l : List V} {v : V}

theorem remove (ring : s.Ring (v :: l)) : (s.remove v).Ring l ∧ (s.remove v).Ring [v] := by
  cases l with
  | nil =>
    have joined := ring.closed v rfl v rfl
    rw [remove_eq joined.1 joined.2]
    exact ⟨ring_nil _, ring_singleton ⟨Function.update_self .., Function.update_self ..⟩⟩
  | cons h l =>
    obtain ⟨z, last⟩ : ∃ z, (h :: l).getLast? = some z := ⟨_, List.getLast?_cons⟩
    obtain ⟨first, path⟩ := List.isChain_cons_cons.mp ring.path
    have final : s.Joined z v := ring.closed z (by rw [List.getLast?_cons_cons]; exact last) v rfl
    obtain ⟨front, split⟩ := List.getLast?_eq_some_iff.mp last
    obtain ⟨fresh, nodup⟩ := List.nodup_cons.mp ring.nodup
    have inner := nodup
    rw [split, List.nodup_append] at inner
    have notV : ∀ u ∈ h :: l, u ≠ v := fun u member same => fresh (same ▸ member)
    rw [remove_eq first.1 final.2]
    refine ⟨⟨nodup, path_congr path (fun u member => ?_) (fun u member => ?_), ?_⟩,
      ring_singleton ⟨Function.update_self .., Function.update_self ..⟩⟩
    · have member' : u ∈ front := by
        rwa [split, List.dropLast_concat] at member
      have notZ : u ≠ z := inner.2.2 u member' z List.mem_cons_self
      have other := notV u (List.dropLast_subset _ member)
      exact (Function.update_of_ne other ..).trans (Function.update_of_ne notZ ..)
    · have notH : u ≠ h := fun same => (List.nodup_cons.mp nodup).1 (same ▸ member)
      have other := notV u (List.mem_of_mem_tail member)
      exact (Function.update_of_ne other ..).trans (Function.update_of_ne notH ..)
    · intro z' last' h' head
      obtain rfl := Option.some.inj (last.symm.trans last')
      obtain rfl := Option.some.inj head
      have zV := notV z (List.mem_of_mem_getLast? last)
      have hV := notV h List.mem_cons_self
      exact ⟨(Function.update_of_ne zV ..).trans (Function.update_self ..),
        (Function.update_of_ne hV ..).trans (Function.update_self ..)⟩

variable {l' : List V} {h : V}

theorem remove_other (ring : s.Ring (v :: l)) (other : s.Ring l') (apart : ∀ u ∈ l', u ∉ v :: l) :
    (s.remove v).Ring l' := by
  have next : s.next v ∈ v :: l := by
    cases l with
    | nil =>
      rw [(ring.closed v rfl v rfl).1]
      exact List.mem_cons_self
    | cons h l =>
      rw [(List.isChain_cons_cons.mp ring.path).1.1]
      exact List.mem_cons_of_mem v List.mem_cons_self
  have prev : s.prev v ∈ v :: l := by
    obtain ⟨z, last⟩ : ∃ z, (v :: l).getLast? = some z := ⟨_, List.getLast?_cons⟩
    rw [(ring.closed z last v rfl).2]
    exact List.mem_of_mem_getLast? last
  rw [remove_eq rfl rfl]
  refine other.congr fun u member => ?_
  have notV : u ≠ v := fun same => apart u member (same ▸ List.mem_cons_self)
  have notNext : u ≠ s.next v := fun same => apart u member (same ▸ next)
  have notPrev : u ≠ s.prev v := fun same => apart u member (same ▸ prev)
  exact ⟨(Function.update_of_ne notV ..).trans (Function.update_of_ne notPrev ..),
    (Function.update_of_ne notV ..).trans (Function.update_of_ne notNext ..)⟩

theorem link {z : V} (ring : s.Ring (h :: l)) (last : (h :: l).getLast? = some z)
    (fresh : v ∉ h :: l) :
    Links.Ring ⟨Function.update (Function.update s.next v h) z v,
      Function.update (Function.update s.prev v z) h v⟩ (h :: l ++ [v]) := by
  have notV : ∀ u ∈ h :: l, u ≠ v := fun u member same => fresh (same ▸ member)
  have zV := notV z (List.mem_of_mem_getLast? last)
  have hV := notV h List.mem_cons_self
  obtain ⟨front, split⟩ := List.getLast?_eq_some_iff.mp last
  have inner := ring.nodup
  rw [split, List.nodup_append] at inner
  refine ⟨?_, List.isChain_append.mpr ⟨?_, List.IsChain.singleton v, ?_⟩, ?_⟩
  · refine List.nodup_append.mpr ⟨ring.nodup, List.nodup_singleton v, fun u member w single => ?_⟩
    obtain rfl := List.mem_singleton.mp single
    exact notV u member
  · refine path_congr ring.path (fun u member => ?_) (fun u member => ?_)
    · have member' : u ∈ front := by
        rwa [split, List.dropLast_concat] at member
      have notZ : u ≠ z := inner.2.2 u member' z List.mem_cons_self
      have other := notV u (List.dropLast_subset _ member)
      exact (Function.update_of_ne notZ ..).trans (Function.update_of_ne other ..)
    · have notH : u ≠ h := fun same => (List.nodup_cons.mp ring.nodup).1 (same ▸ member)
      have other := notV u (List.mem_of_mem_tail member)
      exact (Function.update_of_ne notH ..).trans (Function.update_of_ne other ..)
  · intro z' last' w head
    obtain rfl := Option.some.inj (last.symm.trans last')
    obtain rfl := Option.some.inj head
    exact ⟨Function.update_self ..,
      (Function.update_of_ne hV.symm ..).trans (Function.update_self ..)⟩
  · intro w last' h' head
    rw [List.getLast?_concat] at last'
    obtain rfl := Option.some.inj last'
    obtain rfl := Option.some.inj head
    exact ⟨(Function.update_of_ne zV.symm ..).trans (Function.update_self ..),
      Function.update_self ..⟩

theorem insertBefore (ring : s.Ring (h :: l)) (fresh : v ∉ h :: l) :
    (s.insertBefore v (some h)).Ring (h :: l ++ [v]) := by
  obtain ⟨z, last⟩ : ∃ z, (h :: l).getLast? = some z := ⟨_, List.getLast?_cons⟩
  rw [insertBefore_eq (ring.closed z last h rfl).2]
  exact ring.link last fresh

theorem insertBefore_other (ring : s.Ring (h :: l)) (other : s.Ring l')
    (apart : ∀ u ∈ l', u ∉ h :: l) (fresh : v ∉ l') : (s.insertBefore v (some h)).Ring l' := by
  obtain ⟨z, last⟩ : ∃ z, (h :: l).getLast? = some z := ⟨_, List.getLast?_cons⟩
  rw [insertBefore_eq (ring.closed z last h rfl).2]
  refine other.congr fun u member => ?_
  have notV : u ≠ v := fun same => fresh (same ▸ member)
  have notH : u ≠ h := fun same => apart u member (same ▸ List.mem_cons_self)
  have notZ : u ≠ z := fun same => apart u member (same ▸ List.mem_of_mem_getLast? last)
  exact ⟨(Function.update_of_ne notZ ..).trans (Function.update_of_ne notV ..),
    (Function.update_of_ne notH ..).trans (Function.update_of_ne notV ..)⟩

end Ring

end Links

end GnuRadio
