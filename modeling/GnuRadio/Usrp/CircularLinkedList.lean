import GnuRadio.Misc.LinkedRing
import GnuRadio.Misc.Trace
import GnuRadio.Runtime.Types
import Mathlib.Data.List.Perm.Basic

/-!
# The node list of a usrp

Nodes go from a ring of available ones to a ring of those in use and back. Both rings are kept well
in every run, but a node is not marked as available again, and an iteration follows only the ring
that the first node is in.
-/

namespace GnuRadio

/-- `circular_linked_list` (`circular_linked_list.h:107-112`). The nodes are numbered. -/
structure CircularLinkedList where
  nodes : Links ℕ
  available : ℕ → Bool
  d_current : Option ℕ
  d_iterate : Option ℕ
  d_available : Option ℕ
  d_inUse : Option ℕ
  d_n_nodes : ℕ
  d_n_used : ℕ

namespace CircularLinkedList

/-- The pointers of the first node (`circular_linked_list.h:127-130`). -/
def firstNode : Links ℕ := ((⟨id, id⟩ : Links ℕ).setNext 0 0).setPrev 0 0

/-- The pointers of the first two nodes (`circular_linked_list.h:132-137`). -/
def secondNode : Links ℕ := (((firstNode.setNext 1 0).setPrev 1 0).setNext 0 1).setPrev 0 1

/-- A round of the loop that makes the others (`circular_linked_list.h:140-149`), with `l_next`. -/
def anotherNode (s : Links ℕ × ℕ) (d_current : ℕ) : Links ℕ × ℕ :=
  ((((s.1.setPrev d_current 0).setNext d_current s.2).setNext 0 d_current).setPrev s.2 d_current,
    d_current)

/-- The pointers after the loop. -/
def makeNodes (n_nodes : ℕ) : Links ℕ :=
  if n_nodes > 1 then
    (((List.range (n_nodes - 2)).map (· + 2)).foldl anotherNode (secondNode, 1)).1
  else firstNode

/-- The constructor (`circular_linked_list.h:117-155`). -/
def construct (n_nodes : ℕ) : Except CppException CircularLinkedList :=
  if n_nodes = 0 then .error (.runtimeError "circular_linked_list(): n_nodes == 0")
  else .ok
    { nodes := makeNodes n_nodes
      available := fun v => v < n_nodes
      d_current := some 0
      d_iterate := none
      d_available := some 0
      d_inUse := none
      d_n_nodes := n_nodes
      d_n_used := 0 }

/-- `num_available` (`circular_linked_list.h:251`). -/
def numAvailable (q : CircularLinkedList) : ℕ := q.d_n_nodes - q.d_n_used

/-- What is done with the available node that was found (`circular_linked_list.h:187-200`). -/
def takeNode (q : CircularLinkedList) (l_node : ℕ) : CircularLinkedList :=
  let d_available := if q.numAvailable = 1 then none else some (q.nodes.next l_node)
  let nodes := q.nodes.remove l_node
  { q with
    nodes := if q.d_inUse = none then nodes else nodes.insertBefore l_node q.d_inUse
    available := Function.update q.available l_node false
    d_available
    d_inUse := if q.d_inUse = none then some l_node else q.d_inUse
    d_n_used := q.d_n_used + 1 }

/-- `find_next_available_node` (`circular_linked_list.h:172-202`). It waits while there is none. -/
def findNextAvailableNode (q : CircularLinkedList) : Option (ℕ × CircularLinkedList) :=
  q.d_available.map fun l_node => (l_node, q.takeNode l_node)

/-- What is done with a node that is given back (`circular_linked_list.h:209-221`). -/
def giveBackNode (q : CircularLinkedList) (l_node : ℕ) : CircularLinkedList :=
  let d_inUse := if q.d_n_used = 1 then none else some (q.nodes.next l_node)
  let nodes := q.nodes.remove l_node
  { q with
    nodes := if q.d_available = none then nodes else nodes.insertBefore l_node q.d_available
    d_available := if q.d_available = none then some l_node else q.d_available
    d_inUse
    d_n_used := q.d_n_used - 1 }

/-- `make_node_available` (`circular_linked_list.h:204-227`). -/
def makeNodeAvailable (q : CircularLinkedList) : Option ℕ → CircularLinkedList
  | none => q
  | some l_node => q.giveBackNode l_node

/-- `iterate_start` (`circular_linked_list.h:229`). -/
def iterateStart (q : CircularLinkedList) : CircularLinkedList :=
  { q with d_iterate := q.d_current }

/-- `iterate_next` (`circular_linked_list.h:231-244`). -/
def iterateNext (q : CircularLinkedList) : Option ℕ × CircularLinkedList :=
  match q.d_iterate with
  | none => (none, q)
  | some l_this =>
      let d_iterate := some (q.nodes.next l_this)
      (some l_this, { q with d_iterate := if d_iterate = q.d_current then none else d_iterate })

/-- The nodes that `iterate_next` returns before `NULL`. -/
def Yields : CircularLinkedList → List ℕ → Prop
  | q, [] => q.iterateNext.1 = none
  | q, v :: l => q.iterateNext.1 = some v ∧ Yields q.iterateNext.2 l

variable {q : CircularLinkedList} {l : List ℕ}

theorem Yields.unique {l' : List ℕ} (yields : q.Yields l) (yields' : q.Yields l') : l = l' := by
  induction l generalizing q l' with
  | nil =>
    cases l' with
    | nil => rfl
    | cons v l' => cases yields.symm.trans yields'.1
  | cons v l ih =>
    cases l' with
    | nil => cases yields.1.symm.trans yields'
    | cons w l' =>
      obtain rfl := Option.some.inj (yields.1.symm.trans yields'.1)
      rw [ih yields.2 yields'.2]

theorem yields_ring {c : ℕ} (ring : q.nodes.Ring (c :: l)) (current : q.d_current = some c) :
    q.iterateStart.Yields (c :: l) := by
  have general : ∀ (back front : List ℕ) (a : ℕ) (u : CircularLinkedList), u.nodes = q.nodes →
      u.d_current = some c → u.d_iterate = some a → c :: l = front ++ a :: back →
      u.Yields (a :: back) := by
    intro back
    induction back with
    | nil =>
      intro front a u nodes current iterate split
      have last : (c :: l).getLast? = some a := by
        rw [split]
        exact List.getLast?_concat
      have next : u.nodes.next a = c := by
        rw [nodes]
        exact (ring.closed a last c rfl).1
      have stepped : u.iterateNext = (some a, { u with d_iterate := none }) := by
        simp only [iterateNext, iterate, next, current, if_true]
      rw [Yields, stepped]
      exact ⟨rfl, rfl⟩
    | cons b back ih =>
      intro front a u nodes current iterate split
      have path := ring.path
      rw [split] at path
      have joined := (List.isChain_cons_cons.mp (List.isChain_append.mp path).2.1).1
      have next : u.nodes.next a = b := by
        rw [nodes]
        exact joined.1
      have other : some b ≠ some c := by
        intro same
        obtain rfl := Option.some.inj same
        have nodup := ring.nodup
        cases front with
        | nil =>
          obtain ⟨rfl, -⟩ := List.cons.inj split
          rw [split] at nodup
          exact (List.nodup_cons.mp nodup).1 List.mem_cons_self
        | cons d front =>
          obtain ⟨rfl, -⟩ := List.cons.inj split
          rw [split] at nodup
          exact (List.nodup_cons.mp nodup).1 (by simp)
      have stepped : u.iterateNext = (some a, { u with d_iterate := some b }) := by
        simp only [iterateNext, iterate, next, current, if_neg other]
      rw [Yields, stepped]
      exact ⟨rfl, ih (front ++ [a]) b _ nodes current rfl (by rw [split]; simp)⟩
  exact general l [] c q.iterateStart rfl current current rfl

/-! ## The two rings -/

/-- The rings of the available nodes and of those in use: together they have every node once. -/
structure Rings (n : ℕ) (q : CircularLinkedList) (free inUse : List ℕ) : Prop where
  d_available : q.d_available = free.head?
  d_inUse : q.d_inUse = inUse.head?
  freeRing : q.nodes.Ring free
  inUseRing : q.nodes.Ring inUse
  all : (free ++ inUse).Perm (List.range n)
  d_n_nodes : q.d_n_nodes = n
  d_n_used : q.d_n_used = inUse.length

/-- What the list is to be: every node in one of the rings and marked so, and all of them visited by
an iteration. -/
def Kept (n : ℕ) (q : CircularLinkedList) : Prop :=
  ∃ free inUse, q.Rings n free inUse ∧ (∀ v ∈ free, q.available v = true) ∧
    (∀ v ∈ inUse, q.available v = false) ∧
    ∃ l, q.iterateStart.Yields l ∧ l.Perm (List.range n)

namespace Rings

variable {n : ℕ} {q : CircularLinkedList} {free inUse : List ℕ}

theorem length (rings : q.Rings n free inUse) : free.length + inUse.length = n := by
  have length := rings.all.length_eq
  rwa [List.length_append, List.length_range] at length

theorem apart (rings : q.Rings n free inUse) : ∀ v ∈ free, v ∉ inUse := by
  have nodup := rings.all.nodup_iff.mpr List.nodup_range
  exact fun v member member' => (List.nodup_append.mp nodup).2.2 v member v member' rfl

theorem find {v : ℕ} (rings : q.Rings n (v :: free) inUse) :
    q.findNextAvailableNode = some (v, q.takeNode v) ∧
      (q.takeNode v).Rings n free (inUse ++ [v]) := by
  have apart := rings.apart
  have length := rings.length
  obtain ⟨rest, alone⟩ := rings.freeRing.remove
  have others := rings.freeRing.remove_other rings.inUseRing fun u member member' =>
    apart u member' member
  have fresh : v ∉ inUse := apart v List.mem_cons_self
  have notFree : v ∉ free := (List.nodup_cons.mp rings.freeRing.nodup).1
  refine ⟨by rw [findNextAvailableNode, rings.d_available]; rfl, ?_⟩
  constructor
  · dsimp only [takeNode]
    rw [numAvailable, rings.d_n_nodes, rings.d_n_used]
    cases free with
    | nil =>
      rw [List.length_singleton] at length
      exact if_pos (by omega)
    | cons w free =>
      rw [List.length_cons, List.length_cons] at length
      rw [if_neg (by omega), (List.isChain_cons_cons.mp rings.freeRing.path).1.1]
      rfl
  · dsimp only [takeNode]
    rw [rings.d_inUse]
    cases inUse <;> rfl
  · dsimp only [takeNode]
    rw [rings.d_inUse]
    cases inUse with
    | nil => exact rest
    | cons h inUse =>
      exact others.insertBefore_other rest
        (fun u member => apart u (List.mem_cons_of_mem v member)) notFree
  · dsimp only [takeNode]
    rw [rings.d_inUse]
    cases inUse with
    | nil => exact alone
    | cons h inUse => exact others.insertBefore fresh
  · have moved : (free ++ (inUse ++ [v])).Perm (v :: free ++ inUse) := by
      rw [← List.append_assoc]
      exact List.perm_append_singleton v _
    exact moved.trans rings.all
  · exact rings.d_n_nodes
  · dsimp only [takeNode]
    rw [List.length_append, List.length_singleton, rings.d_n_used]

theorem make {front back : List ℕ} {v : ℕ} (rings : q.Rings n free (front ++ v :: back)) :
    (q.makeNodeAvailable (some v)).Rings n (free ++ [v]) (back ++ front) := by
  have apart := rings.apart
  have turned : q.nodes.Ring (v :: (back ++ front)) := rings.inUseRing.rotate front
  obtain ⟨rest, alone⟩ := turned.remove
  have inside : ∀ u ∈ v :: (back ++ front), u ∈ front ++ v :: back := by
    intro u member
    simp only [List.mem_cons, List.mem_append] at member ⊢
    tauto
  have others := turned.remove_other rings.freeRing fun u member member' =>
    apart u member (inside u member')
  have fresh : v ∉ free := fun member => apart v member (inside v List.mem_cons_self)
  have notInUse : v ∉ back ++ front := (List.nodup_cons.mp turned.nodup).1
  have used : q.d_n_used = (back ++ front).length + 1 := by
    rw [rings.d_n_used, List.length_append, List.length_append, List.length_cons]
    omega
  constructor
  · dsimp only [makeNodeAvailable, giveBackNode]
    rw [rings.d_available]
    cases free <;> rfl
  · dsimp only [makeNodeAvailable, giveBackNode]
    rw [used]
    generalize back ++ front = left at turned
    cases left with
    | nil => rfl
    | cons w left =>
      rw [if_neg (by simp), (List.isChain_cons_cons.mp turned.path).1.1]
      rfl
  · dsimp only [makeNodeAvailable, giveBackNode]
    rw [rings.d_available]
    cases free with
    | nil => exact alone
    | cons h free => exact others.insertBefore fresh
  · dsimp only [makeNodeAvailable, giveBackNode]
    rw [rings.d_available]
    cases free with
    | nil => exact rest
    | cons h free =>
      exact others.insertBefore_other rest
        (fun u member member' => apart u member' (inside u (List.mem_cons_of_mem v member)))
        notInUse
  · have moved : (free ++ [v] ++ (back ++ front)).Perm (free ++ (front ++ v :: back)) := by
      rw [List.append_assoc]
      refine List.Perm.append_left free ?_
      exact (@List.perm_append_comm ℕ front (v :: back)).symm
    exact moved.trans rings.all
  · exact rings.d_n_nodes
  · dsimp only [makeNodeAvailable, giveBackNode]
    rw [used, Nat.add_sub_cancel]

end Rings

/-! ## The rings of the constructor -/

theorem reverse_range_succ (n : ℕ) :
    (List.range (n + 1)).reverse = n :: (List.range n).reverse := by
  rw [List.range_succ, List.reverse_append]
  rfl

theorem ring_firstNode : firstNode.Ring [0] := Links.ring_singleton ⟨rfl, rfl⟩

theorem ring_secondNode : secondNode.Ring [1, 0] :=
  (ring_firstNode.link (v := 1) rfl (by decide)).rotate [0]

theorem ring_anotherNodes (m : ℕ) :
    let s := ((List.range m).map (· + 2)).foldl anotherNode (secondNode, 1)
    s.2 = m + 1 ∧ s.1.Ring (List.range (m + 2)).reverse := by
  induction m with
  | zero => exact ⟨rfl, ring_secondNode⟩
  | succ m ih =>
    obtain ⟨l_next, ring⟩ := ih
    rw [List.range_succ, List.map_append, List.foldl_append]
    generalize ((List.range m).map (· + 2)).foldl anotherNode (secondNode, 1) = s at l_next ring
    refine ⟨rfl, ?_⟩
    have last : (List.range (m + 2)).reverse.getLast? = some 0 := by
      rw [List.getLast?_reverse, List.range_succ_eq_map]
      rfl
    have fresh : m + 2 ∉ (List.range (m + 2)).reverse := by
      rw [List.mem_reverse, List.mem_range]
      exact Nat.lt_irrefl _
    rw [reverse_range_succ] at ring last fresh
    have put := (ring.link last fresh).rotate ((m + 1) :: (List.range (m + 1)).reverse)
    rw [reverse_range_succ, reverse_range_succ]
    change Links.Ring (anotherNode s (m + 2)).1 _
    rw [anotherNode, l_next]
    exact put

theorem construct_spec {n : ℕ} (positive : 0 < n) :
    ∃ q, construct n = .ok q ∧ q.Rings n (0 :: ((List.range (n - 1)).map (· + 1)).reverse) [] ∧
      q.d_current = some 0 ∧ ∀ v < n, q.available v = true := by
  refine ⟨_, if_neg positive.ne', ?_, rfl, fun v less => decide_eq_true less⟩
  have split : (List.range n).reverse = ((List.range (n - 1)).map (· + 1)).reverse ++ [0] := by
    obtain ⟨m, rfl⟩ : ∃ m, n = m + 1 := ⟨n - 1, by omega⟩
    rw [List.range_succ_eq_map, List.reverse_cons, Nat.add_sub_cancel]
  have ring : (makeNodes n).Ring (List.range n).reverse := by
    unfold makeNodes
    split
    · rename_i more
      have made := (ring_anotherNodes (n - 2)).2
      rwa [Nat.sub_add_cancel more] at made
    · obtain rfl : n = 1 := by omega
      exact ring_firstNode
  rw [split] at ring
  constructor
  · rfl
  · rfl
  · exact ring.rotate _
  · exact Links.ring_nil _
  · rw [List.append_nil]
    have rotated : (0 :: ((List.range (n - 1)).map (· + 1)).reverse).Perm
        (List.range n).reverse := by
      rw [split]
      exact (List.perm_append_singleton 0 _).symm
    exact rotated.trans (List.reverse_perm _)
  · rfl
  · rfl

/-! ## Runs -/

/-- The calls of a program. -/
inductive NodeCall where
  | findNextAvailableNode
  | makeNodeAvailable (l_node : ℕ)
  deriving DecidableEq, Repr

/-- The list and the nodes that the program has. -/
structure NodeRun where
  list : CircularLinkedList
  held : List ℕ

/-- A call. One that waits does not happen, and a node is given back only by one who has it. -/
def NodeRun.step (w : NodeRun) : NodeCall → Option NodeRun
  | .findNextAvailableNode =>
      w.list.findNextAvailableNode.map fun found => ⟨found.2, found.1 :: w.held⟩
  | .makeNodeAvailable l_node =>
      if l_node ∈ w.held then some ⟨w.list.makeNodeAvailable (some l_node), w.held.erase l_node⟩
      else none

/-- How many nodes were taken. -/
def taken (calls : List NodeCall) : ℕ := calls.countP (· = .findNextAvailableNode)

/-- How many were given back. -/
def givenBack (calls : List NodeCall) : ℕ := calls.countP (! · = .findNextAvailableNode)

/-- What is known after some calls. -/
structure Known (n : ℕ) (calls : List NodeCall) (w : NodeRun) (free inUse : List ℕ) : Prop where
  rings : w.list.Rings n free inUse
  held : w.held.Perm inUse
  current : w.list.d_current = some 0
  count : taken calls = givenBack calls + inUse.length
  marked : ∀ v ∈ inUse, w.list.available v = false
  /-- A mark is taken away with the first node, and never put back. -/
  unmarked : (∀ v < n, w.list.available v = true) ↔ taken calls = 0

namespace Known

variable {n : ℕ} {calls : List NodeCall} {w w' : NodeRun} {free inUse : List ℕ}

theorem take {v : ℕ} (known : Known n calls w (v :: free) inUse) :
    Known n (calls ++ [.findNextAvailableNode]) ⟨w.list.takeNode v, v :: w.held⟩ free
      (inUse ++ [v]) := by
  have less : v < n := List.mem_range.mp (known.rings.all.subset List.mem_cons_self)
  refine ⟨known.rings.find.2, ?_, known.current, ?_, ?_, ?_⟩
  · exact (known.held.cons v).trans (List.perm_append_singleton v inUse).symm
  · have count := known.count
    simp only [taken, givenBack, List.countP_append, List.length_append] at count ⊢
    simp
    omega
  · intro u member
    by_cases same : u = v
    · rw [same]
      exact Function.update_self ..
    · have before := (List.mem_append.mp member).resolve_right fun last =>
        same (List.mem_singleton.mp last)
      exact (Function.update_of_ne same ..).trans (known.marked u before)
  · refine iff_of_false (fun all => ?_) (by simp [taken])
    have mark := all v less
    rw [show (w.list.takeNode v).available v = false from Function.update_self ..] at mark
    cases mark

theorem giveBack {v : ℕ} {front back : List ℕ}
    (known : Known n calls w free (front ++ v :: back)) :
    Known n (calls ++ [.makeNodeAvailable v])
      ⟨w.list.makeNodeAvailable (some v), w.held.erase v⟩ (free ++ [v]) (back ++ front) := by
  refine ⟨known.rings.make, ?_, known.current, ?_, ?_, ?_⟩
  · have middle : (front ++ v :: back).Perm (v :: (front ++ back)) := List.perm_middle
    have gone := middle.erase v
    rw [List.erase_cons_head] at gone
    exact ((known.held.erase v).trans gone).trans List.perm_append_comm
  · have count := known.count
    simp only [taken, givenBack, List.countP_append, List.length_append, List.length_cons]
      at count ⊢
    simp
    omega
  · intro u member
    refine known.marked u ?_
    simp only [List.mem_append, List.mem_cons] at member ⊢
    tauto
  · have same : taken (calls ++ [.makeNodeAvailable v]) = taken calls := by
      simp [taken, List.countP_append]
    rw [same]
    exact known.unmarked

theorem step (known : Known n calls w free inUse) {call : NodeCall}
    (stepped : w.step call = some w') :
    ∃ free' inUse', Known n (calls ++ [call]) w' free' inUse' := by
  cases call with
  | findNextAvailableNode =>
    cases free with
    | nil =>
      have waits : w.list.findNextAvailableNode = none := by
        rw [findNextAvailableNode, known.rings.d_available]
        rfl
      rw [NodeRun.step, waits] at stepped
      cases stepped
    | cons v free =>
      rw [NodeRun.step, known.rings.find.1] at stepped
      obtain rfl := Option.some.inj stepped
      exact ⟨free, inUse ++ [v], known.take⟩
  | makeNodeAvailable v =>
    rw [NodeRun.step] at stepped
    split at stepped
    · rename_i has
      obtain rfl := Option.some.inj stepped
      obtain ⟨front, back, rfl⟩ := List.append_of_mem (known.held.mem_iff.mp has)
      exact ⟨free ++ [v], back ++ front, known.giveBack⟩
    · cases stepped

theorem initial (positive : 0 < n) :
    ∃ q, construct n = .ok q ∧ ∃ free, Known n [] ⟨q, []⟩ free [] := by
  obtain ⟨q, made, rings, current, all⟩ := construct_spec positive
  refine ⟨q, made, _, rings, List.Perm.nil, current, rfl, fun v member => ?_, ?_⟩
  · cases member
  · exact iff_of_true all rfl

theorem yields (known : Known n calls w free inUse) {ring : List ℕ}
    (isRing : w.list.nodes.Ring ring) (member : 0 ∈ ring) :
    ∃ l, w.list.iterateStart.Yields l ∧ l.Perm ring := by
  obtain ⟨front, back, rfl⟩ := List.append_of_mem member
  have turned : (0 :: (back ++ front)).Perm (front ++ 0 :: back) :=
    @List.perm_append_comm ℕ (0 :: back) front
  exact ⟨_, yields_ring (isRing.rotate front) known.current, turned⟩

theorem empty_of_all (known : Known n calls w free inUse) (positive : 0 < n) {l : List ℕ}
    (yields : w.list.iterateStart.Yields l) (all : l.Perm (List.range n)) :
    free = [] ∨ inUse = [] := by
  have whole := all.length_eq
  have length := known.rings.length
  rw [List.length_range] at whole
  have member : 0 ∈ free ++ inUse := known.rings.all.mem_iff.mpr (List.mem_range.mpr positive)
  obtain member | member := List.mem_append.mp member
  · obtain ⟨ring, yields', same⟩ := known.yields known.rings.freeRing member
    rw [yields.unique yields', same.length_eq] at whole
    exact Or.inr (List.eq_nil_of_length_eq_zero (by omega))
  · obtain ⟨ring, yields', same⟩ := known.yields known.rings.inUseRing member
    rw [yields.unique yields', same.length_eq] at whole
    exact Or.inl (List.eq_nil_of_length_eq_zero (by omega))

theorem kept (known : Known n calls w free inUse) (positive : 0 < n) :
    w.list.Kept n ↔ taken calls = 0 ∨ taken calls = givenBack calls + n := by
  have length := known.rings.length
  have count := known.count
  constructor
  · rintro ⟨free', inUse', rings', marks, -, l, yields, all⟩
    obtain rfl | rfl := known.empty_of_all positive yields all
    · rw [List.length_nil] at length
      exact Or.inr (by omega)
    · refine Or.inl (known.unmarked.mp fun v less => marks v ?_)
      have none : inUse' = [] :=
        List.eq_nil_of_length_eq_zero (rings'.d_n_used.symm.trans known.rings.d_n_used)
      have everything := rings'.all
      rw [none, List.append_nil] at everything
      exact everything.mem_iff.mpr (List.mem_range.mpr less)
  · intro condition
    have zero := List.mem_range.mpr positive
    have all := known.rings.all
    obtain fresh | full := condition
    · obtain rfl : inUse = [] := List.eq_nil_of_length_eq_zero (by omega)
      rw [List.append_nil] at all
      obtain ⟨l, yields, same⟩ := known.yields known.rings.freeRing (all.mem_iff.mpr zero)
      have marks : ∀ v ∈ free, w.list.available v = true := fun v member =>
        known.unmarked.mpr fresh v (List.mem_range.mp (all.subset member))
      exact ⟨free, [], known.rings, marks, known.marked, l, yields, same.trans all⟩
    · obtain rfl : free = [] := List.eq_nil_of_length_eq_zero (by omega)
      obtain ⟨l, yields, same⟩ := known.yields known.rings.inUseRing (all.mem_iff.mpr zero)
      have marks : ∀ v ∈ ([] : List ℕ), w.list.available v = true := by
        intro v member
        cases member
      exact ⟨[], inUse, known.rings, marks, known.marked, l, yields, same.trans all⟩

end Known

theorem known_of_run {n : ℕ} (positive : 0 < n) (made : construct n = .ok q) {calls : List NodeCall}
    {w : NodeRun} (reached : run NodeRun.step ⟨q, []⟩ calls = some w) :
    ∃ free inUse, Known n calls w free inUse := by
  obtain ⟨q', made', free, known⟩ := Known.initial positive
  obtain rfl := Except.ok.inj (made'.symm.trans made)
  refine run_history (fun calls w => ∃ free inUse, Known n calls w free inUse)
    ⟨free, [], known⟩ ?_ (Throughout.of_forall (fun _ _ => trivial) _ calls) reached
  rintro calls w call w' - ⟨free, inUse, known⟩ - stepped
  exact known.step stepped

/-- In every run the rings are kept, but the nodes are marked and visited as they are to be only
before the first one is taken and while all are in use. -/
theorem kept_iff {n : ℕ} (positive : 0 < n) :
    ∃ q, construct n = .ok q ∧ ∀ calls w, run NodeRun.step ⟨q, []⟩ calls = some w →
      (∃ free inUse, w.list.Rings n free inUse) ∧
        (w.list.Kept n ↔ taken calls = 0 ∨ taken calls = givenBack calls + n) := by
  obtain ⟨q, made, -⟩ := construct_spec positive
  refine ⟨q, made, fun calls w reached => ?_⟩
  obtain ⟨free, inUse, known⟩ := known_of_run positive made reached
  exact ⟨⟨free, inUse, known.rings⟩, known.kept positive⟩

theorem kept_iff_two : ∃ q, construct 2 = .ok q ∧
    ∀ calls w, run NodeRun.step ⟨q, []⟩ calls = some w →
      (∃ free inUse, w.list.Rings 2 free inUse) ∧
        (w.list.Kept 2 ↔ taken calls = 0 ∨ taken calls = givenBack calls + 2) :=
  kept_iff (by decide)

/-- When the first of two nodes is in use, an iteration visits only that one. -/
theorem iterate_one : ∃ q v q', construct 2 = .ok q ∧ q.findNextAvailableNode = some (v, q') ∧
    q'.iterateStart.Yields [v] ∧ ¬ q'.Kept 2 := by
  refine ⟨_, 0, _, rfl, rfl, ⟨rfl, rfl⟩, ?_⟩
  rintro ⟨free, inUse, rings, marks, marks', l, yields, all⟩
  have one : l = [0] := yields.unique ⟨rfl, rfl⟩
  rw [one] at all
  exact absurd all.length_eq (by decide)

end CircularLinkedList

end GnuRadio
