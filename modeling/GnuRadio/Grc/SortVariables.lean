import Mathlib.Data.Char
import Mathlib.Data.List.Lex
import GnuRadio.Grc.ExprUtils
import GnuRadio.Misc.Except
import GnuRadio.Misc.Peeling

/-!
# The order of the variables of a flow graph

`sort_variables` takes away the variables that no expression needs, round after round, and turns the
order around in the end. A variable that is left in every round is on or before a cycle.
-/

namespace GnuRadio

open Peeling

/-- `class graph` (`expr_utils.py:23-50`): for each node the nodes that its edges go to. -/
abbrev Graph (K : Type) := PyDict K (Finset K)

namespace Graph

variable {K : Type} [DecidableEq K]

/-- `add_node` (`expr_utils.py:32-34`). -/
def addNode (g : Graph K) (nodeKey : K) : Graph K :=
  if nodeKey ∈ g then g else g.insert nodeKey ∅

/-- `edges.remove (node_key)` for the edges of all nodes (`expr_utils.py:38-39`). -/
def removeEdgesTo (g : Graph K) (nodeKey : K) : Graph K where
  entries := g.entries.map fun entry => ⟨entry.1, entry.2.erase nodeKey⟩
  nodupKeys := by
    rw [List.NodupKeys, List.keys, List.map_map]
    exact g.nodupKeys

/-- `remove_node` (`expr_utils.py:36-40`). -/
def removeNode (g : Graph K) (nodeKey : K) : Graph K :=
  if nodeKey ∈ g then (g.removeEdgesTo nodeKey).erase nodeKey else g

/-- `add_edge` (`expr_utils.py:42-43`). -/
def addEdge (g : Graph K) (srcNodeKey destNodeKey : K) : Except PyError (Graph K) := do
  let edges ← pyGetItem g srcNodeKey
  return g.insert srcNodeKey (insert destNodeKey edges)

/-- `get_nodes` (`expr_utils.py:48`). -/
def getNodes (g : Graph K) : List K := g.keys

/-- `get_edges` (`expr_utils.py:50`). -/
def getEdges (g : Graph K) (nodeKey : K) : Except PyError (Finset K) := pyGetItem g nodeKey

/-- The nodes without edges (`expr_utils.py:127`). -/
def indepVars (g : Graph K) : List K :=
  g.getNodes.filter fun var => g.getEdges var = .ok ∅

@[simp] theorem keys_removeEdgesTo (g : Graph K) (v : K) : (g.removeEdgesTo v).keys = g.keys := by
  rw [AList.keys, List.keys, removeEdgesTo, List.map_map]
  rfl

theorem keys_removeNode (g : Graph K) (v : K) : (g.removeNode v).keys = g.keys.erase v := by
  unfold removeNode
  split
  · rw [AList.keys_erase, keys_removeEdgesTo]
  · rename_i absent
    rw [List.erase_of_not_mem absent]

theorem keys_foldl_removeNode (vars : List K) (g : Graph K) :
    (vars.foldl removeNode g).keys = g.keys.diff vars := by
  induction vars generalizing g with
  | nil => rw [List.foldl_nil, List.diff_nil]
  | cons v vars ih => rw [List.foldl_cons, ih, keys_removeNode, List.diff_cons]

theorem indepVars_subset (g : Graph K) : g.indepVars ⊆ g.keys := List.filter_subset_self _

theorem length_foldl_removeNode {g : Graph K} {vars : List K} (some : vars ≠ [])
    (inside : vars ⊆ g.keys) : (vars.foldl removeNode g).keys.length < g.keys.length := by
  obtain ⟨v, vars, rfl⟩ := List.exists_cons_of_ne_nil some
  have shorter := (List.diff_sublist (g.keys.erase v) vars).length_le
  have member := inside List.mem_cons_self
  have positive := List.length_pos_of_mem member
  rw [List.length_erase_of_mem member] at shorter
  rw [keys_foldl_removeNode, List.diff_cons]
  omega

end Graph

/-- `get_graph` (`expr_utils.py:101-114`). The order in which a set is gone through makes no
difference. -/
def getGraph (exprs : PyDict Text Text) : Except PyError (Graph Text) :=
  let vars := exprs.keys
  exprs.entries.foldlM (fun g ⟨var, expr⟩ =>
    (vars.filter (· ∈ getVariableDependencies expr vars)).foldlM (fun g dep =>
      if dep ≠ var then g.addEdge dep var else .ok g) g) (vars.foldl Graph.addNode ∅)

/-- The loop (`expr_utils.py:125-134`). -/
def sortRounds (varGraph : Graph Text) (sortedVars : List Text) : Except PyError (List Text) :=
  if varGraph.getNodes = [] then .ok sortedVars.reverse
  else if _some : varGraph.indepVars = [] then
    .error (.exception "circular dependency caught in sort_variables")
  else sortRounds (varGraph.indepVars.foldl Graph.removeNode varGraph)
    (sortedVars ++ varGraph.indepVars.insertionSort (· ≤ ·))
termination_by varGraph.keys.length
decreasing_by exact Graph.length_foldl_removeNode _some varGraph.indepVars_subset

/-- `sort_variables` (`expr_utils.py:116-134`). -/
def sortVariables (exprs : PyDict Text Text) : Except PyError (List Text) := do
  let varGraph ← getGraph exprs
  sortRounds varGraph []

namespace Graph

variable {K : Type} [DecidableEq K] {needs : K → K → Prop}

def HasEdge (g : Graph K) (v w : K) : Prop := ∃ edges, g.lookup v = some edges ∧ w ∈ edges

theorem hasEdge_empty (v w : K) : ¬HasEdge ∅ v w := by
  rintro ⟨edges, known, -⟩
  rw [AList.lookup_empty] at known
  cases known

variable {g : Graph K} {u v : K}

theorem mem_addNode : v ∈ g.addNode u ↔ v ∈ g ∨ v = u := by
  unfold addNode
  split
  · rename_i there
    constructor
    · exact Or.inl
    · rintro (known | rfl)
      · exact known
      · exact there
  · rw [AList.mem_insert]
    exact or_comm

theorem hasEdge_addNode {w : K} : (g.addNode u).HasEdge v w ↔ g.HasEdge v w := by
  unfold addNode
  split
  · exact Iff.rfl
  · rename_i absent
    unfold HasEdge
    by_cases same : v = u
    · subst same
      rw [AList.lookup_insert, AList.lookup_eq_none.mpr absent]
      simp
    · rw [AList.lookup_insert_ne same]

theorem foldl_addNode (vars : List K) (g : Graph K) :
    (∀ v, v ∈ vars.foldl addNode g ↔ v ∈ g ∨ v ∈ vars) ∧
      ∀ v w, (vars.foldl addNode g).HasEdge v w ↔ g.HasEdge v w := by
  induction vars generalizing g with
  | nil => simp
  | cons u vars ih =>
    obtain ⟨nodes, edges⟩ := ih (g.addNode u)
    refine ⟨fun v => ?_, fun v w => ?_⟩
    · rw [List.foldl_cons, nodes, mem_addNode, List.mem_cons, or_assoc]
    · rw [List.foldl_cons, edges, hasEdge_addNode]

theorem addEdge_spec {src : K} (dest : K) (there : src ∈ g) :
    ∃ g', g.addEdge src dest = .ok g' ∧ (∀ v, v ∈ g' ↔ v ∈ g) ∧
      ∀ v w, g'.HasEdge v w ↔ g.HasEdge v w ∨ (v = src ∧ w = dest) := by
  obtain ⟨edges, known⟩ := Option.isSome_iff_exists.mp (AList.lookup_isSome.mpr there)
  refine ⟨g.insert src (insert dest edges), ?_, fun v => ?_, fun v w => ?_⟩
  · rw [addEdge, pyGetItem, known]
    rfl
  · rw [AList.mem_insert]
    constructor
    · rintro (rfl | known)
      · exact there
      · exact known
    · exact Or.inr
  · unfold HasEdge
    by_cases same : v = src
    · subst same
      rw [AList.lookup_insert, known]
      simp [or_comm]
    · rw [AList.lookup_insert_ne same]
      simp [same]

theorem dlookup_map_erase (entries : List (Sigma fun _ : K => Finset K)) (u v : K) :
    (entries.map fun entry =>
        (⟨entry.1, entry.2.erase u⟩ : Sigma fun _ : K => Finset K)).dlookup v =
      (entries.dlookup v).map (·.erase u) := by
  induction entries with
  | nil => rfl
  | cons entry entries ih =>
    obtain ⟨w, edges⟩ := entry
    by_cases same : v = w
    · subst same
      rw [List.map_cons, List.dlookup_cons_eq, List.dlookup_cons_eq, Option.map_some]
    · rw [List.map_cons, List.dlookup_cons_ne _ _ same, List.dlookup_cons_ne _ _ same, ih]

theorem lookup_removeEdgesTo (g : Graph K) (u v : K) :
    (g.removeEdgesTo u).lookup v = (g.lookup v).map (·.erase u) :=
  dlookup_map_erase g.entries u v

theorem mem_removeNode : v ∈ g.removeNode u ↔ v ∈ g ∧ v ≠ u := by
  rw [AList.mem_keys, keys_removeNode, g.keys_nodup.mem_erase_iff, AList.mem_keys, and_comm]

theorem hasEdge_removeNode {w : K} (there : u ∈ g) :
    (g.removeNode u).HasEdge v w ↔ g.HasEdge v w ∧ v ≠ u ∧ w ≠ u := by
  rw [removeNode, if_pos there]
  unfold HasEdge
  by_cases same : v = u
  · subst same
    rw [AList.lookup_erase]
    simp
  · rw [AList.lookup_erase_ne same, lookup_removeEdgesTo]
    constructor
    · rintro ⟨edges, known, member⟩
      obtain ⟨before, first, rfl⟩ := Option.map_eq_some_iff.mp known
      obtain ⟨other, inside⟩ := Finset.mem_erase.mp member
      exact ⟨⟨before, first, inside⟩, same, other⟩
    · rintro ⟨⟨edges, known, member⟩, -, other⟩
      exact ⟨edges.erase u, by rw [known, Option.map_some], Finset.mem_erase.mpr ⟨other, member⟩⟩

/-- The edges of a node go to the nodes that need it. -/
def Shows (needs : K → K → Prop) (g : Graph K) : Prop :=
  ∀ v ∈ g, ∀ w, g.HasEdge v w ↔ needs w v ∧ w ∈ g

theorem Shows.removeNode (shows : Shows needs g) (u : K) : Shows needs (g.removeNode u) := by
  by_cases there : u ∈ g
  · intro v remains w
    have known := mem_removeNode.mp remains
    rw [hasEdge_removeNode there, shows v known.1 w, mem_removeNode, and_assoc]
    constructor
    · rintro ⟨needed, inside, -, other⟩
      exact ⟨needed, inside, other⟩
    · rintro ⟨needed, inside, other⟩
      exact ⟨needed, inside, known.2, other⟩
  · rwa [Graph.removeNode, if_neg there]

theorem Shows.foldl_removeNode (shows : Shows needs g) (vars : List K) :
    Shows needs (vars.foldl Graph.removeNode g) ∧
      ∀ v, v ∈ vars.foldl Graph.removeNode g ↔ v ∈ g ∧ v ∉ vars := by
  induction vars generalizing g with
  | nil => exact ⟨shows, by simp⟩
  | cons u vars ih =>
    obtain ⟨rest, nodes⟩ := ih (shows.removeNode u)
    refine ⟨rest, fun v => ?_⟩
    rw [List.foldl_cons, nodes, mem_removeNode, List.mem_cons, not_or, and_assoc]

theorem mem_indepVars : v ∈ g.indepVars ↔ v ∈ g ∧ ∀ w, ¬g.HasEdge v w := by
  rw [indepVars, List.mem_filter, decide_eq_true_iff, getNodes, ← AList.mem_keys, getEdges,
    pyGetItem]
  refine and_congr_right fun there => ?_
  obtain ⟨edges, known⟩ := Option.isSome_iff_exists.mp (AList.lookup_isSome.mpr there)
  unfold HasEdge
  rw [known]
  simp [Finset.eq_empty_iff_forall_notMem]

end Graph

/-! ## The graph of the variables -/

/-- The variables other than itself that the expression of a variable mentions: each is one of the
pieces of the expression. -/
def Needs (exprs : PyDict Text Text) (var dep : Text) : Prop :=
  dep ≠ var ∧ dep ∈ exprs ∧ ∃ expr, exprs.lookup var = some expr ∧ dep ∈ exprSplit expr

theorem addEdges_spec (var : Text) (deps : List Text) {g : Graph Text} (there : ∀ v ∈ deps, v ∈ g) :
    ∃ g', deps.foldlM (fun g dep => if dep ≠ var then g.addEdge dep var else .ok g) g =
        Except.ok g' ∧
      (∀ v, v ∈ g' ↔ v ∈ g) ∧
      ∀ v w, g'.HasEdge v w ↔ g.HasEdge v w ∨ (w = var ∧ v ∈ deps ∧ v ≠ var) := by
  induction deps generalizing g with
  | nil => exact ⟨g, rfl, fun v => Iff.rfl, by simp⟩
  | cons dep deps ih =>
    by_cases other : dep ≠ var
    · obtain ⟨u, added, nodes, edges⟩ := Graph.addEdge_spec var (there dep List.mem_cons_self)
      obtain ⟨g', rest, nodes', edges'⟩ := ih fun v member =>
        (nodes v).mpr (there v (List.mem_cons_of_mem dep member))
      refine ⟨g', foldlM_cons_ok.mpr ⟨u, by rw [if_pos other, added], rest⟩, fun v => ?_,
        fun v w => ?_⟩
      · rw [nodes', nodes]
      · rw [edges', edges, List.mem_cons]
        constructor
        · rintro ((known | ⟨rfl, rfl⟩) | ⟨rfl, member, apart⟩)
          · exact Or.inl known
          · exact Or.inr ⟨rfl, Or.inl rfl, other⟩
          · exact Or.inr ⟨rfl, Or.inr member, apart⟩
        · rintro (known | ⟨rfl, rfl | member, apart⟩)
          · exact Or.inl (Or.inl known)
          · exact Or.inl (Or.inr ⟨rfl, rfl⟩)
          · exact Or.inr ⟨rfl, member, apart⟩
    · obtain ⟨g', rest, nodes', edges'⟩ := ih fun v member =>
        there v (List.mem_cons_of_mem dep member)
      refine ⟨g', foldlM_cons_ok.mpr ⟨g, by rw [if_neg other], rest⟩, nodes', fun v w => ?_⟩
      rw [edges', List.mem_cons]
      constructor
      · rintro (known | ⟨rfl, member, apart⟩)
        · exact Or.inl known
        · exact Or.inr ⟨rfl, Or.inr member, apart⟩
      · rintro (known | ⟨rfl, rfl | member, apart⟩)
        · exact Or.inl known
        · exact absurd apart other
        · exact Or.inr ⟨rfl, member, apart⟩

theorem getGraph_spec (exprs : PyDict Text Text) :
    ∃ g, getGraph exprs = .ok g ∧ (∀ v, v ∈ g ↔ v ∈ exprs) ∧ g.Shows (Needs exprs) := by
  have general : ∀ (entries : List (Sigma fun _ : Text => Text)) (g : Graph Text),
      (∀ v, v ∈ g ↔ v ∈ exprs) →
      ∃ g', entries.foldlM (fun g ⟨var, expr⟩ =>
          (exprs.keys.filter (· ∈ getVariableDependencies expr exprs.keys)).foldlM (fun g dep =>
            if dep ≠ var then g.addEdge dep var else .ok g) g) g = Except.ok g' ∧
        (∀ v, v ∈ g' ↔ v ∈ exprs) ∧
        ∀ v w, g'.HasEdge v w ↔ g.HasEdge v w ∨ ∃ expr, (⟨w, expr⟩ : Sigma _) ∈ entries ∧
          v ≠ w ∧ v ∈ exprs ∧ v ∈ exprSplit expr := by
    intro entries
    induction entries with
    | nil => exact fun g nodes => ⟨g, rfl, nodes, by simp⟩
    | cons entry entries ih =>
      intro g nodes
      obtain ⟨var, expr⟩ := entry
      obtain ⟨u, added, same, edges⟩ := addEdges_spec var
        (exprs.keys.filter (· ∈ getVariableDependencies expr exprs.keys)) (g := g)
        fun v member => (nodes v).mpr (List.mem_filter.mp member).1
      obtain ⟨g', rest, nodes', edges'⟩ := ih u fun v => (same v).trans (nodes v)
      refine ⟨g', foldlM_cons_ok.mpr ⟨u, added, rest⟩, nodes', fun v w => ?_⟩
      rw [edges', edges]
      simp only [List.mem_filter, decide_eq_true_iff, mem_getVariableDependencies,
        ← AList.mem_keys, List.mem_cons]
      constructor
      · rintro ((known | ⟨rfl, ⟨-, inside, mentioned⟩, other⟩) | ⟨e, member, known⟩)
        · exact Or.inl known
        · exact Or.inr ⟨expr, Or.inl rfl, other, inside, mentioned⟩
        · exact Or.inr ⟨e, Or.inr member, known⟩
      · rintro (known | ⟨e, same | member, other, inside, mentioned⟩)
        · exact Or.inl (Or.inl known)
        · cases same
          exact Or.inl (Or.inr ⟨rfl, ⟨inside, inside, mentioned⟩, other⟩)
        · exact Or.inr ⟨e, member, other, inside, mentioned⟩
  obtain ⟨nodes, edges⟩ := Graph.foldl_addNode exprs.keys ∅
  have start : ∀ v, v ∈ exprs.keys.foldl Graph.addNode ∅ ↔ v ∈ exprs := by
    intro v
    rw [nodes, ← AList.mem_keys]
    simp
  obtain ⟨g, built, nodes', edges'⟩ := general exprs.entries _ start
  refine ⟨g, built, nodes', fun v inside w => ?_⟩
  rw [edges', edges]
  constructor
  · rintro (none | ⟨expr, member, other, there, mentioned⟩)
    · exact absurd none (Graph.hasEdge_empty v w)
    · have known : exprs.lookup w = some expr := AList.mem_lookup_iff.mpr member
      refine ⟨⟨other, there, expr, known, mentioned⟩, (nodes' w).mpr ?_⟩
      exact AList.lookup_isSome.mp (by rw [known]; rfl)
  · rintro ⟨⟨other, there, expr, known, mentioned⟩, -⟩
    exact Or.inr ⟨expr, AList.mem_lookup_iff.mp known, other, there, mentioned⟩

/-! ## The rounds -/

/-- The message of the exception. -/
def circularDependency : PyError := .exception "circular dependency caught in sort_variables"

theorem sortRounds_spec {needs : Text → Text → Prop} {g : Graph Text} {sorted : List Text}
    (shows : g.Shows needs) (peeled : Peeled needs sorted (· ∈ g)) :
    (∃ taken, sortRounds g sorted = .ok taken.reverse ∧ Peeled needs taken (fun _ => False) ∧
      ∀ v, v ∈ taken ↔ v ∈ sorted ∨ v ∈ g) ∨
    (sortRounds g sorted = .error circularDependency ∧ ∃ v, Relation.TransGen needs v v) := by
  fun_induction sortRounds g sorted with
  | case1 g sorted none =>
    have empty : ∀ v, v ∉ g := by
      intro v there
      rw [AList.mem_keys, ← Graph.getNodes, none] at there
      cases there
    refine Or.inl ⟨sorted, rfl, ⟨peeled.nodup, fun _ _ => id, ?_, peeled.ordered⟩, fun v => ?_⟩
    · exact fun a _ b remains => remains.elim
    · simp [empty v]
  | case2 g sorted nodes stuck =>
    have each : ∀ a ∈ g.getNodes, ∃ b ∈ g.getNodes, needs b a := by
      intro a member
      by_contra free
      have alone : a ∈ g.indepVars := by
        refine Graph.mem_indepVars.mpr ⟨member, fun w edge => ?_⟩
        obtain ⟨needed, inside⟩ := (shows a member w).mp edge
        exact free ⟨w, inside, needed⟩
      rw [stuck] at alone
      cases alone
    obtain ⟨v, -, cycle⟩ := exists_cycle nodes each
    exact Or.inr ⟨rfl, v, cycle⟩
  | case3 g sorted nodes layer ih =>
    obtain ⟨shows', rest⟩ := shows.foldl_removeNode g.indepVars
    have members : ∀ v, v ∈ g.indepVars.insertionSort (· ≤ ·) ↔ v ∈ g.indepVars :=
      fun v => (List.perm_insertionSort (· ≤ ·) g.indepVars).mem_iff
    have further : Peeled needs (sorted ++ g.indepVars.insertionSort (· ≤ ·))
        (· ∈ g.indepVars.foldl Graph.removeNode g) := by
      refine peeled.round ?_ ?_ ?_ ?_
      · exact (List.perm_insertionSort (· ≤ ·) g.indepVars).nodup_iff.mpr (g.keys_nodup.filter _)
      · exact fun v member => (Graph.mem_indepVars.mp ((members v).mp member)).1
      · intro v member w inside needed
        obtain ⟨there, free⟩ := Graph.mem_indepVars.mp ((members v).mp member)
        exact free w ((shows v there w).mpr ⟨needed, inside⟩)
      · intro v
        rw [rest, members]
    rcases ih shows' further with ⟨taken, sorted', done, all⟩ | stuck
    · refine Or.inl ⟨taken, sorted', done, fun v => ?_⟩
      rw [all, List.mem_append, members, rest]
      constructor
      · rintro ((before | now) | later)
        · exact Or.inl before
        · exact Or.inr (Graph.mem_indepVars.mp now).1
        · exact Or.inr later.1
      · rintro (before | there)
        · exact Or.inl (Or.inl before)
        · by_cases now : v ∈ g.indepVars
          · exact Or.inl (Or.inr now)
          · exact Or.inr ⟨there, now⟩
    · exact Or.inr stuck

/-- Every variable once, and behind those that its expression mentions. -/
structure VariableOrder (exprs : PyDict Text Text) (out : List Text) : Prop where
  nodup : out.Nodup
  members : ∀ v, v ∈ out ↔ v ∈ exprs
  behind : Behind (Needs exprs) out

/-- The variables are put in order, and when there is no order, because some variable needs itself
in the end, the exception is raised. -/
theorem sortVariables_spec (exprs : PyDict Text Text) :
    (∃ out, sortVariables exprs = .ok out ∧ VariableOrder exprs out ∧
      ¬∃ v, Relation.TransGen (Needs exprs) v v) ∨
    (sortVariables exprs = .error circularDependency ∧
      ∃ v, Relation.TransGen (Needs exprs) v v) := by
  obtain ⟨g, built, nodes, shows⟩ := getGraph_spec exprs
  have sorted : sortVariables exprs = sortRounds g [] := by
    rw [sortVariables, built, ok_bind]
  rw [sorted]
  rcases sortRounds_spec shows (Peeled.nil (· ∈ g)) with ⟨taken, done, peeled, all⟩ | stuck
  · have members : ∀ v, v ∈ taken ↔ v ∈ exprs := by
      intro v
      rw [all, nodes]
      simp
    have behind : Behind (Needs exprs) taken.reverse :=
      peeled.behind (fun v needed => needed.1 rfl) fun v _ w needed => (members w).mpr needed.2.1
    have nodup : taken.reverse.Nodup := List.nodup_reverse.mpr peeled.nodup
    refine Or.inl ⟨taken.reverse, done, ⟨nodup, fun v => ?_, behind⟩, ?_⟩
    · rw [List.mem_reverse, members]
    · rintro ⟨v, cycle⟩
      obtain ⟨w, -, last⟩ := Relation.TransGen.tail'_iff.mp cycle
      exact behind.acyclic nodup (List.mem_reverse.mpr ((members v).mpr last.2.1)) cycle
  · exact Or.inr stuck

/-- The variables of the test of the source (`expr_utils.py:153`). -/
example : sortVariables (List.toAList [⟨['x'], ['1']⟩, ⟨['y'], ['x', '+', '1']⟩,
      ⟨['a'], ['x', '+', 'y']⟩, ⟨['b'], ['y', '+', '1']⟩,
      ⟨['c'], ['a', '+', 'b', '+', 'x', '+', 'y']⟩]) =
    .ok [['x'], ['y'], ['b'], ['a'], ['c']] := by
  decide +kernel

end GnuRadio
