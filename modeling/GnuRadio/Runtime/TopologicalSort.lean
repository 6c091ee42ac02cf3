import GnuRadio.Misc.DepthFirst
import GnuRadio.Runtime.Flowgraph

/-!
# Sorting and partitioning a flowgraph

`gr_flowgraph::topological_sort` and `gr_flowgraph::partition` with the
functions they use (`gr_flowgraph.cc:330-473`). The colours are a member of the
block objects, so they outlive a call and are shared by all flowgraphs; every
call takes the colours it finds and returns the colours it leaves.
-/

namespace GnuRadio.Flowgraph

open DepthFirst Relation

/-- `gr_flowgraph::source_p` (`gr_flowgraph.cc:442-446`). -/
def sourceP (fg : Flowgraph) (block : BlockId) : Bool := (fg.calcUpstreamEdges block).length = 0

/-- `gr_flowgraph::sort_sources_first` (`gr_flowgraph.cc:421-440`). -/
def sortSourcesFirst (fg : Flowgraph) (blocks : List BlockId) : List BlockId :=
  let sources := blocks.filter fg.sourceP
  let nonsources := blocks.filter fun b => !fg.sourceP b
  sources ++ nonsources

/-- Setting every block of a list to `WHITE`. -/
def whiten (blocks : List BlockId) (color : BlockId → Color) : BlockId → Color :=
  fun b => if b ∈ blocks then .white else color b

/-- `gr_flowgraph::topological_dfs_visit` (`gr_flowgraph.cc:448-473`). -/
def topologicalDfsVisit (fg : Flowgraph) (fuel : Nat) (block : BlockId) (s : Search BlockId) :
    Except Failure (Search BlockId) :=
  visit fg.calcDownstreamBlocks fuel block s

/-- The loop of `topological_sort` over the blocks. -/
def visitBlocks (fg : Flowgraph) (fuel : Nat) (blocks : List BlockId) (s : Search BlockId) :
    Except Failure (Search BlockId) :=
  blocks.foldlM (fun s b =>
    if s.color b = .white then fg.topologicalDfsVisit fuel b s else .ok s) s

/-- `gr_flowgraph::topological_sort` (`gr_flowgraph.cc:401-419`). The search is
never deeper than the number of blocks. -/
def topologicalSort (fg : Flowgraph) (blocks : List BlockId) (color : BlockId → Color) :
    Except CppException (List BlockId × (BlockId → Color)) :=
  let tmp := fg.sortSourcesFirst blocks
  let fuel := tmp.length + fg.calcUsedBlocks.length
  match fg.visitBlocks fuel tmp ⟨whiten tmp color, []⟩ with
  | .ok s => .ok (s.output.reverse, s.color)
  | .error .loop => .error (.runtimeError "flow graph has loops!")
  | .error .outOfFuel => .error .undefinedBehaviour

/-- `gr_flowgraph::calc_adjacent_blocks` (`gr_flowgraph.cc:385-399`). -/
def calcAdjacentBlocks (fg : Flowgraph) (block : BlockId) : List BlockId :=
  uniqueVector (fg.edges.flatMap fun e =>
    (if e.src.block = block then [e.dst.block] else []) ++
      if e.dst.block = block then [e.src.block] else [])

/-- `gr_flowgraph::reachable_dfs_visit` (`gr_flowgraph.cc:370-382`). -/
def reachableDfsVisit (fg : Flowgraph) (fuel : Nat) (block : BlockId) (color : BlockId → Color) :
    BlockId → Color :=
  mark fg.calcAdjacentBlocks fuel block color

/-- `gr_flowgraph::calc_reachable_blocks` (`gr_flowgraph.cc:349-367`). -/
def calcReachableBlocks (fg : Flowgraph) (block : BlockId) (blocks : List BlockId)
    (color : BlockId → Color) : List BlockId × (BlockId → Color) :=
  let fuel := blocks.length + fg.calcUsedBlocks.length
  let color := fg.reachableDfsVisit fuel block (whiten blocks color)
  (blocks.filter fun b => color b = .black, color)

/-- The loop of `gr_flowgraph::partition` over the blocks that are left; each
round takes away the blocks of one vector. -/
def partitionLoop (fg : Flowgraph) :
    Nat → List BlockId → (BlockId → Color) → Except CppException (List (List BlockId))
  | _, [], _ => .ok []
  | 0, _ :: _, _ => .error .undefinedBehaviour
  | fuel + 1, block :: rest, color => do
      let (graph, color) := fg.calcReachableBlocks block (block :: rest) color
      if graph = [] then .error .assertFailed
      else
        let (sorted, color) ← fg.topologicalSort graph color
        let vectors ← fg.partitionLoop fuel (graph.foldl List.erase (block :: rest)) color
        return sorted :: vectors

/-- `gr_flowgraph::partition` (`gr_flowgraph.cc:330-347`). -/
def partition (fg : Flowgraph) (color : BlockId → Color) :
    Except CppException (List (List BlockId)) :=
  let blocks := fg.calcUsedBlocks
  fg.partitionLoop blocks.length blocks color

/-! ## The graph of the blocks -/

/-- Some edge leads from block `a` to block `b`. -/
def Feeds (fg : Flowgraph) (a b : BlockId) : Prop :=
  ∃ e ∈ fg.edges, e.src.block = a ∧ e.dst.block = b

/-- The flowgraph contains a directed cycle. -/
def HasCycle (fg : Flowgraph) : Prop := ∃ b, TransGen fg.Feeds b b

/-- Two blocks are connected when the directions of the edges are ignored. -/
def WeaklyConnected (fg : Flowgraph) (a b : BlockId) : Prop := EqvGen fg.Feeds a b

variable {fg : Flowgraph}

variable {b a block : BlockId} {blocks graph : List BlockId}

theorem mem_calcUsedBlocks :
    b ∈ fg.calcUsedBlocks ↔ ∃ e ∈ fg.edges, b = e.src.block ∨ b = e.dst.block := by
  simp [calcUsedBlocks]

theorem mem_calcDownstreamBlocks : b ∈ fg.calcDownstreamBlocks a ↔ fg.Feeds a b := by
  simp [calcDownstreamBlocks, Feeds, and_assoc]

theorem mem_calcAdjacentBlocks : b ∈ fg.calcAdjacentBlocks a ↔ fg.Feeds a b ∨ fg.Feeds b a := by
  simp only [calcAdjacentBlocks, mem_uniqueVector, List.mem_flatMap, List.mem_append, Feeds]
  constructor
  · rintro ⟨e, member, near⟩
    rcases near with near | near
    · split at near
      · exact Or.inl ⟨e, member, ‹_›, (List.mem_singleton.mp near).symm⟩
      · cases near
    · split at near
      · exact Or.inr ⟨e, member, (List.mem_singleton.mp near).symm, ‹_›⟩
      · cases near
  · rintro (⟨e, member, rfl, rfl⟩ | ⟨e, member, rfl, rfl⟩)
    · exact ⟨e, member, Or.inl (by simp)⟩
    · exact ⟨e, member, Or.inr (by simp)⟩

theorem arc_calcDownstreamBlocks : Arc fg.calcDownstreamBlocks = fg.Feeds := by
  funext a b
  exact propext mem_calcDownstreamBlocks

theorem Feeds.used (feeds : fg.Feeds a b) : a ∈ fg.calcUsedBlocks ∧ b ∈ fg.calcUsedBlocks := by
  obtain ⟨e, member, rfl, rfl⟩ := feeds
  exact ⟨mem_calcUsedBlocks.mpr ⟨e, member, Or.inl rfl⟩,
    mem_calcUsedBlocks.mpr ⟨e, member, Or.inr rfl⟩⟩

theorem reaches_iff_weaklyConnected :
    ReflTransGen (Arc fg.calcAdjacentBlocks) a b ↔ fg.WeaklyConnected a b := by
  have : Std.Symm (Arc fg.calcAdjacentBlocks) := by
    constructor
    intro x y near
    exact mem_calcAdjacentBlocks.mpr (mem_calcAdjacentBlocks.mp near).symm
  constructor
  · intro path
    induction path with
    | refl => exact EqvGen.refl a
    | tail _ near ih =>
      rcases mem_calcAdjacentBlocks.mp near with forward | backward
      · exact ih.trans _ _ _ (EqvGen.rel _ _ forward)
      · exact ih.trans _ _ _ ((EqvGen.rel _ _ backward).symm _ _)
  · intro connected
    induction connected with
    | rel x y feeds => exact ReflTransGen.single (mem_calcAdjacentBlocks.mpr (Or.inl feeds))
    | refl x => exact ReflTransGen.refl
    | symm x y _ ih => exact ReflTransGen.stdSymm.symm _ _ ih
    | trans x y z _ _ first second => exact first.trans second

/-! ## Sorting -/

theorem mem_sortSourcesFirst : b ∈ fg.sortSourcesFirst blocks ↔ b ∈ blocks := by
  simp only [sortSourcesFirst, List.mem_append, List.mem_filter]
  cases fg.sourceP b <;> simp

/-- Every edge into a block comes from a block listed before it. -/
def SourcesBefore (fg : Flowgraph) (sorted : List BlockId) : Prop :=
  ∀ front v back, sorted = front ++ v :: back → ∀ u ∈ sorted, fg.Feeds u v → u ∈ front

theorem sourcesBefore_reverse {nodes : List BlockId} {s : Search BlockId}
    (sorted : Sorted fg.calcDownstreamBlocks nodes s) : fg.SourcesBefore s.output.reverse := by
  intro front v back split u listed feeds
  have arc : Arc fg.calcDownstreamBlocks u v := mem_calcDownstreamBlocks.mpr feeds
  have output : s.output = back.reverse ++ v :: front.reverse := by
    have := congrArg List.reverse split
    simpa using this
  have earlier := (sorted.idxOf_lt (List.mem_reverse.mp listed) arc).2
  have nodup := sorted.nodup
  rw [output] at nodup earlier listed
  have absent : v ∉ back.reverse := fun twice =>
    (List.nodup_append'.mp nodup).2.2 twice (List.mem_cons_self ..)
  rw [List.idxOf_append_of_notMem absent, List.idxOf_cons_self] at earlier
  rcases List.mem_append.mp (List.mem_reverse.mp listed) with inBack | inFront
  · rw [List.idxOf_append_of_mem inBack] at earlier
    have := List.idxOf_lt_length_of_mem inBack
    omega
  · rcases List.mem_cons.mp inFront with same | inFront
    · rw [same, List.idxOf_append_of_notMem absent, List.idxOf_cons_self] at earlier
      omega
    · exact List.mem_reverse.mp inFront

/-- What a call of `topological_sort` on `blocks` may return. -/
def Sorts (fg : Flowgraph) (blocks : List BlockId) :
    Except CppException (List BlockId × (BlockId → Color)) → Prop
  | .ok (sorted, _) => sorted.Nodup ∧ (∀ b, b ∈ sorted ↔ b ∈ blocks) ∧ fg.SourcesBefore sorted ∧
      ∀ b ∈ blocks, ¬ TransGen fg.Feeds b b
  | .error e => e = .runtimeError "flow graph has loops!" ∧ ∃ b ∈ blocks, TransGen fg.Feeds b b

theorem topologicalSort_sorts (closed : ∀ a ∈ blocks, ∀ b, fg.Feeds a b → b ∈ blocks)
    (color : BlockId → Color) : fg.Sorts blocks (fg.topologicalSort blocks color) := by
  have known : ∀ b, b ∈ fg.sortSourcesFirst blocks ↔ b ∈ blocks := fun b => mem_sortSourcesFirst
  have blank : ∀ b ∈ fg.sortSourcesFirst blocks,
      whiten (fg.sortSourcesFirst blocks) color b = .white := fun b member => by
    simp [whiten, member]
  have search := visitAll_ends
    (fun a member b arc => (known b).mpr
      (closed a ((known a).mp member) b (mem_calcDownstreamBlocks.mp arc)))
    ((fg.sortSourcesFirst blocks).length + fg.calcUsedBlocks.length)
    (fg.sortSourcesFirst blocks) ⟨whiten (fg.sortSourcesFirst blocks) color, []⟩
    (fun _ member => member) (Nat.le_trans List.countP_le_length (Nat.le_add_right _ _))
    ⟨fun b member => by simp [blank b member], by simp, List.nodup_nil, by simp⟩
    (fun b member => by simp [blank b member])
  have same : fg.visitBlocks ((fg.sortSourcesFirst blocks).length + fg.calcUsedBlocks.length)
      (fg.sortSourcesFirst blocks) ⟨whiten (fg.sortSourcesFirst blocks) color, []⟩ =
    visitAll fg.calcDownstreamBlocks ((fg.sortSourcesFirst blocks).length +
      fg.calcUsedBlocks.length) (fg.sortSourcesFirst blocks)
      ⟨whiten (fg.sortSourcesFirst blocks) color, []⟩ := rfl
  simp only [topologicalSort, same]
  generalize visitAll fg.calcDownstreamBlocks _ _ _ = result at search
  match result, search with
  | .error .loop, ⟨b, member, cycle⟩ =>
    rw [arc_calcDownstreamBlocks] at cycle
    exact ⟨rfl, b, (known b).mp member, cycle⟩
  | .ok s, ⟨sorted, _, done⟩ =>
    have listed : ∀ b, b ∈ s.output ↔ b ∈ blocks := by
      intro b
      rw [← known b]
      exact ⟨sorted.inside b, fun member => (sorted.black b member).mp (done b member)⟩
    refine ⟨List.nodup_reverse.mpr sorted.nodup, by simpa using listed,
      sourcesBefore_reverse sorted, ?_⟩
    intro b member
    rw [← arc_calcDownstreamBlocks]
    exact sorted.acyclic ((listed b).mpr member)

/-! ## Partitioning -/

/-- The blocks next to a block of `blocks` are in `blocks`. -/
def AdjacentClosed (fg : Flowgraph) (blocks : List BlockId) : Prop :=
  ∀ a ∈ blocks, ∀ b, fg.Feeds a b ∨ fg.Feeds b a → b ∈ blocks

theorem mem_calcReachableBlocks (member : block ∈ blocks) (closed : fg.AdjacentClosed blocks)
    (color : BlockId → Color) (b : BlockId) :
    b ∈ (fg.calcReachableBlocks block blocks color).1 ↔
      b ∈ blocks ∧ fg.WeaklyConnected block b := by
  simp only [calcReachableBlocks, List.mem_filter, decide_eq_true_eq, and_congr_right_iff]
  intro inside
  rw [← reaches_iff_weaklyConnected]
  exact mark_iff
    (fun a known c near => closed a known c (mem_calcAdjacentBlocks.mp near)) member
    (fun u known => by simp [whiten, known]) (Nat.le_add_right _ _) inside

theorem mem_foldl_erase {blocks graph : List BlockId} (nodup : blocks.Nodup) {b : BlockId} :
    b ∈ graph.foldl List.erase blocks ↔ b ∈ blocks ∧ b ∉ graph := by
  induction graph generalizing blocks with
  | nil => simp
  | cons g graph ih =>
    rw [List.foldl_cons, ih (nodup.erase g), nodup.mem_erase_iff, List.mem_cons]
    tauto

theorem nodup_foldl_erase (nodup : blocks.Nodup) : (graph.foldl List.erase blocks).Nodup := by
  induction graph generalizing blocks with
  | nil => exact nodup
  | cons g graph ih => exact ih (nodup.erase g)

/-- The vectors into which `blocks` is divided: every block is in one of them, once; each is a
weakly connected component; and every edge comes from a block before. -/
structure IsPartition (fg : Flowgraph) (blocks : List BlockId) (vectors : List (List BlockId)) :
    Prop where
  once : vectors.flatten.Nodup
  mem : ∀ b, b ∈ vectors.flatten ↔ b ∈ blocks
  nonempty : ∀ c ∈ vectors, c ≠ []
  component : ∀ c ∈ vectors, ∀ a ∈ c, ∀ b, b ∈ c ↔ fg.WeaklyConnected a b
  sorted : ∀ c ∈ vectors, ∀ front v back, c = front ++ v :: back → ∀ u, fg.Feeds u v → u ∈ front

/-- What a call of `partition` may return, for the blocks that are left. -/
def Partitions (fg : Flowgraph) (blocks : List BlockId) :
    Except CppException (List (List BlockId)) → Prop
  | .ok vectors => fg.IsPartition blocks vectors ∧ ∀ b ∈ blocks, ¬ TransGen fg.Feeds b b
  | .error e => e = .runtimeError "flow graph has loops!" ∧ ∃ b ∈ blocks, TransGen fg.Feeds b b

theorem AdjacentClosed.of_connected (closed : fg.AdjacentClosed blocks) (member : a ∈ blocks)
    (connected : fg.WeaklyConnected a b) : b ∈ blocks := by
  rw [← reaches_iff_weaklyConnected] at connected
  induction connected with
  | refl => exact member
  | tail _ near ih => exact closed _ ih _ (mem_calcAdjacentBlocks.mp near)

theorem weaklyConnected_of_adjacent (near : fg.Feeds a b ∨ fg.Feeds b a) :
    fg.WeaklyConnected a b := by
  rcases near with forward | backward
  · exact EqvGen.rel _ _ forward
  · exact (EqvGen.rel _ _ backward).symm _ _

theorem isPartition_cons {sorted rest : List BlockId} {vectors : List (List BlockId)}
    (member : block ∈ blocks) (closed : fg.AdjacentClosed blocks)
    (component : ∀ b, b ∈ graph ↔ b ∈ blocks ∧ fg.WeaklyConnected block b)
    (left : ∀ b, b ∈ rest ↔ b ∈ blocks ∧ b ∉ graph) (nodup : sorted.Nodup)
    (same : ∀ b, b ∈ sorted ↔ b ∈ graph) (before : fg.SourcesBefore sorted)
    (others : fg.IsPartition rest vectors) : fg.IsPartition blocks (sorted :: vectors) := by
  have inComponent : ∀ b, b ∈ sorted ↔ fg.WeaklyConnected block b := by
    intro b
    rw [same, component]
    exact ⟨And.right, fun connected => ⟨closed.of_connected member connected, connected⟩⟩
  refine ⟨?_, ?_, ?_, ?_, ?_⟩
  · rw [List.flatten_cons]
    refine List.nodup_append'.mpr ⟨nodup, others.once, ?_⟩
    intro b first second
    exact ((left b).mp ((others.mem b).mp second)).2 ((same b).mp first)
  · intro b
    rw [List.flatten_cons, List.mem_append, same, others.mem, left]
    have inside : b ∈ graph → b ∈ blocks := fun h => ((component b).mp h).1
    tauto
  · intro c listed
    rcases List.mem_cons.mp listed with rfl | later
    · exact List.ne_nil_of_mem ((inComponent block).mpr (EqvGen.refl block))
    · exact others.nonempty c later
  · intro c listed a inside b
    rcases List.mem_cons.mp listed with rfl | later
    · have connected := (inComponent a).mp inside
      rw [inComponent]
      exact ⟨(connected.symm _ _).trans _ _ _, connected.trans _ _ _⟩
    · exact others.component c later a inside b
  · intro c listed front v back split u feeds
    rcases List.mem_cons.mp listed with rfl | later
    · have inV : v ∈ c := split ▸ List.mem_append_right _ (List.mem_cons_self ..)
      refine before front v back split u ((inComponent u).mpr ?_) feeds
      exact ((inComponent v).mp inV).trans _ _ _ (weaklyConnected_of_adjacent (Or.inr feeds))
    · exact others.sorted c later front v back split u feeds

theorem partitionLoop_partitions (fuel : Nat) (blocks : List BlockId) (color : BlockId → Color)
    (enough : blocks.length ≤ fuel) (nodup : blocks.Nodup) (closed : fg.AdjacentClosed blocks) :
    fg.Partitions blocks (fg.partitionLoop fuel blocks color) := by
  induction fuel generalizing blocks color with
  | zero =>
    obtain rfl := List.eq_nil_of_length_eq_zero (Nat.le_zero.mp enough)
    exact ⟨⟨List.nodup_nil, by simp, by simp, by simp, by simp⟩, by simp⟩
  | succ fuel ih =>
    match blocks, enough, nodup, closed with
    | [], _, _, _ => exact ⟨⟨List.nodup_nil, by simp, by simp, by simp, by simp⟩, by simp⟩
    | block :: others, enough, nodup, closed =>
      have member : block ∈ block :: others := List.mem_cons_self ..
      have component := mem_calcReachableBlocks member closed color
      generalize reached : fg.calcReachableBlocks block (block :: others) color = result at component
      obtain ⟨graph, color'⟩ := result
      have found : block ∈ graph := (component block).mpr ⟨member, EqvGen.refl block⟩
      have left := fun b => @mem_foldl_erase _ graph nodup b
      have downstream : ∀ a ∈ graph, ∀ b, fg.Feeds a b → b ∈ graph := by
        intro a inside b feeds
        obtain ⟨known, connected⟩ := (component a).mp inside
        exact (component b).mpr ⟨closed a known b (Or.inl feeds),
          connected.trans _ _ _ (EqvGen.rel _ _ feeds)⟩
      have shorter : (graph.foldl List.erase (block :: others)).length ≤ fuel := by
        have sub : graph.foldl List.erase (block :: others) ⊆ others := by
          intro b inside
          obtain ⟨known, outside⟩ := (left b).mp inside
          rcases List.mem_cons.mp known with rfl | later
          · exact absurd found outside
          · exact later
        have := (nodup_foldl_erase nodup).length_le_of_subset sub
        simp only [List.length_cons] at enough
        omega
      have closedRest : fg.AdjacentClosed (graph.foldl List.erase (block :: others)) := by
        intro a inside b near
        obtain ⟨known, outside⟩ := (left a).mp inside
        refine (left b).mpr ⟨closed a known b near, ?_⟩
        intro inGraph
        refine outside ((component a).mpr ⟨known, ?_⟩)
        exact ((component b).mp inGraph).2.trans _ _ _
          ((weaklyConnected_of_adjacent near).symm _ _)
      have sort := topologicalSort_sorts downstream color'
      simp only [partitionLoop, reached, List.ne_nil_of_mem found, if_false, bind, Except.bind]
      generalize fg.topologicalSort graph color' = outcome at sort
      match outcome, sort with
      | .error e, ⟨what, b, inside, cycle⟩ =>
        exact ⟨what, b, ((component b).mp inside).1, cycle⟩
      | .ok (sorted, color''), ⟨distinct, same, before, acyclic⟩ =>
        have rest := ih _ color'' shorter (nodup_foldl_erase nodup) closedRest
        dsimp only
        generalize fg.partitionLoop fuel _ color'' = final at rest
        match final, rest with
        | .error e, ⟨what, b, inside, cycle⟩ => exact ⟨what, b, ((left b).mp inside).1, cycle⟩
        | .ok vectors, ⟨isPartition, noCycle⟩ =>
          refine ⟨isPartition_cons member closed component left distinct same before
            isPartition, ?_⟩
          intro b known
          by_cases inside : b ∈ graph
          · exact acyclic b inside
          · exact noCycle b ((left b).mpr ⟨known, inside⟩)

theorem used_of_cycle (cycle : TransGen fg.Feeds b b) : b ∈ fg.calcUsedBlocks := by
  cases cycle with
  | single feeds => exact feeds.used.1
  | tail _ feeds => exact feeds.used.2

theorem adjacentClosed_calcUsedBlocks : fg.AdjacentClosed fg.calcUsedBlocks := by
  intro a _ b near
  rcases near with forward | backward
  · exact forward.used.2
  · exact backward.used.1

/-- `partition` divides the used blocks into their weakly connected components, each sorted; it
fails exactly on a directed cycle, whatever colours an earlier call has left. -/
theorem partition_correct (fg : Flowgraph) (color : BlockId → Color) :
    (∀ vectors, fg.partition color = .ok vectors → fg.IsPartition fg.calcUsedBlocks vectors) ∧
    ((∃ vectors, fg.partition color = .ok vectors) ↔ ¬ fg.HasCycle) ∧
    (fg.partition color = .error (.runtimeError "flow graph has loops!") ↔ fg.HasCycle) ∧
    ∀ blocks, (∀ b ∈ fg.calcUsedBlocks, b ∈ blocks) →
      (∀ sorted color', fg.topologicalSort blocks color = .ok (sorted, color') →
        sorted.Nodup ∧ (∀ b, b ∈ sorted ↔ b ∈ blocks) ∧ fg.SourcesBefore sorted) ∧
      ((∃ result, fg.topologicalSort blocks color = .ok result) ↔ ¬ fg.HasCycle) ∧
      (fg.topologicalSort blocks color = .error (.runtimeError "flow graph has loops!") ↔
        fg.HasCycle) := by
  have divided := partitionLoop_partitions fg.calcUsedBlocks.length fg.calcUsedBlocks color le_rfl
    (uniqueVector_nodup _) adjacentClosed_calcUsedBlocks
  change fg.Partitions fg.calcUsedBlocks (fg.partition color) at divided
  refine ⟨?_, ?_, ?_, ?_⟩
  · intro vectors result
    rw [result] at divided
    exact divided.1
  · cases result : fg.partition color with
    | ok vectors =>
      rw [result] at divided
      have acyclic : ¬ fg.HasCycle := fun ⟨b, cycle⟩ => divided.2 b (used_of_cycle cycle) cycle
      simp [acyclic]
    | error e =>
      rw [result] at divided
      obtain ⟨-, b, -, cycle⟩ := divided
      have cyclic : fg.HasCycle := ⟨b, cycle⟩
      simp [cyclic]
  · cases result : fg.partition color with
    | ok vectors =>
      rw [result] at divided
      have acyclic : ¬ fg.HasCycle := fun ⟨b, cycle⟩ => divided.2 b (used_of_cycle cycle) cycle
      simp [acyclic]
    | error e =>
      rw [result] at divided
      obtain ⟨rfl, b, -, cycle⟩ := divided
      have cyclic : fg.HasCycle := ⟨b, cycle⟩
      simp [cyclic]
  · intro blocks covers
    have sort := topologicalSort_sorts
      (fun a _ b feeds => covers b feeds.used.2) color
    cases result : fg.topologicalSort blocks color with
    | ok pair =>
      obtain ⟨sorted, color'⟩ := pair
      rw [result] at sort
      obtain ⟨nodup, same, before, noCycle⟩ := sort
      have acyclic : ¬ fg.HasCycle :=
        fun ⟨b, cycle⟩ => noCycle b (covers b (used_of_cycle cycle)) cycle
      refine ⟨?_, by simp [acyclic], by simp [acyclic]⟩
      intro s c eq
      obtain ⟨rfl, rfl⟩ := Prod.mk.inj (Except.ok.inj eq)
      exact ⟨nodup, same, before⟩
    | error e =>
      rw [result] at sort
      obtain ⟨rfl, b, -, cycle⟩ := sort
      have cyclic : fg.HasCycle := ⟨b, cycle⟩
      simp [cyclic]

/-!
## Where `topological_sort` puts the sources

The blocks are visited with the sources in front, but a search lists its blocks
behind their successors and the list is turned round at the end: what the first
source does not reach ends up in front of it. So all sources come first exactly
when the first of them reaches all blocks that are none.
-/

/-- No source is listed behind a block that is none. -/
def SourcesFirst (fg : Flowgraph) (sorted : List BlockId) : Prop :=
  sorted.Pairwise fun a b => fg.sourceP b = true → fg.sourceP a = true

instance (fg : Flowgraph) (sorted : List BlockId) : Decidable (fg.SourcesFirst sorted) :=
  inferInstanceAs (Decidable (List.Pairwise _ sorted))

/-- What the first of the given sources reaches has all blocks that are no sources. -/
def FirstReachesAll (fg : Flowgraph) (blocks : List BlockId) : Prop :=
  ∀ s, (blocks.filter fg.sourceP).head? = some s →
    ∀ b ∈ blocks, fg.sourceP b = false → ReflTransGen fg.Feeds s b

variable {b s : BlockId} {blocks rest : List BlockId}

theorem sourceP_iff : fg.sourceP b = true ↔ ∀ a, ¬fg.Feeds a b := by
  simp only [sourceP, calcUpstreamEdges, Feeds, List.length_eq_zero_iff, decide_eq_true_eq,
    List.filter_eq_nil_iff, not_exists, not_and]
  exact ⟨fun none a e member _ => none e member, fun none e member => none _ e member rfl⟩

theorem not_sourceP_of_reaches {a : BlockId} (path : ReflTransGen fg.Feeds a b) (other : b ≠ a) :
    fg.sourceP b = false := by
  rcases path.cases_tail with same | ⟨c, -, feeds⟩
  · exact absurd same other
  · rw [Bool.eq_false_iff, ne_eq, sourceP_iff]
    exact fun none => none c feeds

/-- The state in which the loop of `topological_sort` begins. -/
def start (fg : Flowgraph) (blocks : List BlockId) (color : BlockId → Color) : Search BlockId :=
  ⟨whiten (fg.sortSourcesFirst blocks) color, []⟩

theorem start_white {color : BlockId → Color} (member : b ∈ fg.sortSourcesFirst blocks) :
    (fg.start blocks color).color b = .white := by
  simp [start, whiten, member]

theorem sorted_start (blocks : List BlockId) (color : BlockId → Color) :
    Sorted fg.calcDownstreamBlocks (fg.sortSourcesFirst blocks) (fg.start blocks color) :=
  ⟨fun b member => by simp [start, whiten, member], by simp [start], List.nodup_nil,
    by simp [start]⟩

/-- The depth that the loop may reach. -/
def depth (fg : Flowgraph) (blocks : List BlockId) : Nat :=
  (fg.sortSourcesFirst blocks).length + fg.calcUsedBlocks.length

section

variable {blocks : List BlockId} (nodup : blocks.Nodup)
  (closed : ∀ a ∈ blocks, ∀ b, fg.Feeds a b → b ∈ blocks) (acyclic : ¬fg.HasCycle)

include closed acyclic

theorem visitBlocks_ok (vs : List BlockId) (s : Search BlockId)
    (member : ∀ v ∈ vs, v ∈ blocks)
    (sorted : Sorted fg.calcDownstreamBlocks (fg.sortSourcesFirst blocks) s)
    (idle : ∀ v ∈ fg.sortSourcesFirst blocks, s.color v ≠ .grey) :
    ∃ t, fg.visitBlocks (fg.depth blocks) vs s = .ok t ∧
      Sorted fg.calcDownstreamBlocks (fg.sortSourcesFirst blocks) t ∧
      Extends (fg.sortSourcesFirst blocks) s t ∧ ∀ v ∈ vs, v ∈ t.output := by
  have known : ∀ b, b ∈ fg.sortSourcesFirst blocks ↔ b ∈ blocks := fun b => mem_sortSourcesFirst
  have search := visitAll_ends
    (fun a member b arc => (known b).mpr
      (closed a ((known a).mp member) b (mem_calcDownstreamBlocks.mp arc)))
    (fg.depth blocks) vs s
    (fun v listed => (known v).mpr (member v listed))
    (Nat.le_trans List.countP_le_length (Nat.le_add_right _ _)) sorted idle
  change Ends _ _ _ _ (fg.visitBlocks _ vs s) at search
  generalize fg.visitBlocks _ vs s = result at search
  match result, search with
  | .error .loop, ⟨b, _, cycle⟩ =>
    rw [arc_calcDownstreamBlocks] at cycle
    exact absurd ⟨b, cycle⟩ acyclic
  | .ok t, ⟨last, kept, done⟩ =>
    exact ⟨t, rfl, last, kept, fun v listed =>
      (last.black v ((known v).mpr (member v listed))).mp (done v listed)⟩

include nodup

theorem topologicalSort_ok (color : BlockId → Color) :
    ∃ t, fg.visitBlocks (fg.depth blocks) (fg.sortSourcesFirst blocks) (fg.start blocks color) =
        .ok t ∧
      fg.topologicalSort blocks color = .ok (t.output.reverse, t.color) ∧
      t.output.reverse.Perm blocks ∧ fg.SourcesBefore t.output.reverse := by
  obtain ⟨t, visited, sorted, -, done⟩ := visitBlocks_ok closed acyclic
    (fg.sortSourcesFirst blocks) (fg.start blocks color) (fun v => mem_sortSourcesFirst.mp)
    (sorted_start blocks color) (fun v member => by simp [start_white member])
  refine ⟨t, visited, ?_, ?_, sourcesBefore_reverse sorted⟩
  · rw [start, depth] at visited
    rw [topologicalSort, visited]
  · refine (List.reverse_perm _).trans ((List.perm_ext_iff_of_nodup sorted.nodup nodup).mpr ?_)
    intro b
    exact ⟨fun listed => mem_sortSourcesFirst.mp (sorted.inside b listed),
      fun member => done b (mem_sortSourcesFirst.mpr member)⟩

end

theorem visitBlocks_cons {fuel : Nat} {start t : Search BlockId} (white : start.color s = .white)
    (visited : fg.visitBlocks fuel (s :: rest) start = .ok t) :
    ∃ u, visit fg.calcDownstreamBlocks fuel s start = .ok u ∧ fg.visitBlocks fuel rest u = .ok t := by
  obtain ⟨u, first, later⟩ := foldlM_cons_ok.mp visited
  rw [if_pos white] at first
  exact ⟨u, first, later⟩

theorem topologicalSort_first (nodup : blocks.Nodup)
    (closed : ∀ a ∈ blocks, ∀ b, fg.Feeds a b → b ∈ blocks) (acyclic : ¬fg.HasCycle)
    (sources : blocks.filter fg.sourceP = s :: rest) (color : BlockId → Color) :
    ∃ others reached color',
      fg.topologicalSort blocks color = .ok (others ++ s :: reached, color') ∧
      (∀ b, ReflTransGen fg.Feeds s b ↔ b ∈ s :: reached) := by
  obtain ⟨t, visited, sort, -, -⟩ := topologicalSort_ok nodup closed acyclic color
  have order : fg.sortSourcesFirst blocks =
      s :: (rest ++ blocks.filter fun b => !fg.sourceP b) := by
    rw [sortSourcesFirst, sources, List.cons_append]
  have member : s ∈ fg.sortSourcesFirst blocks := by
    rw [order]
    exact List.mem_cons_self
  obtain ⟨t', alone, sorted, kept, done⟩ := visitBlocks_ok closed acyclic [s]
    (fg.start blocks color)
    (fun v single => mem_sortSourcesFirst.mp (List.mem_singleton.mp single ▸ member))
    (sorted_start blocks color) (fun v listed => by simp [start_white listed])
  obtain ⟨u, first, last⟩ := visitBlocks_cons (start_white member) alone
  obtain rfl : u = t' := Except.ok.inj last
  have listed : s ∈ u.output := done s (List.mem_singleton_self s)
  obtain ⟨front, output⟩ := visit_last first
  rw [order] at visited
  obtain ⟨u', first', later⟩ := visitBlocks_cons (start_white member) visited
  obtain rfl : u = u' := Except.ok.inj (first.symm.trans first')
  obtain ⟨t'', later', -, kept', -⟩ := visitBlocks_ok closed acyclic
    (rest ++ blocks.filter fun b => !fg.sourceP b) u
    (fun v inside => mem_sortSourcesFirst.mp (by rw [order]; exact List.mem_cons_of_mem s inside))
    sorted (fun v inside grey => by
      have before := (kept.grey v).mp grey
      rw [start_white inside] at before
      cases before)
  obtain rfl : t'' = t := Except.ok.inj (later'.symm.trans later)
  obtain ⟨extra, whole⟩ := kept'.output
  refine ⟨extra.reverse, front.reverse, t''.color, ?_, ?_⟩
  · rw [sort, ← whole, output, List.reverse_append, List.reverse_append]
    rfl
  · intro b
    have same : b ∈ s :: front.reverse ↔ b ∈ u.output := by simp [output, or_comm]
    rw [same]
    constructor
    · intro path
      rw [← arc_calcDownstreamBlocks] at path
      exact sorted.reaches listed path
    · intro finished
      rcases visit_reaches first b finished with old | path
      · cases old
      · rwa [arc_calcDownstreamBlocks] at path

/-- What `topological_sort` promises: a permutation in which every source of an edge precedes its
destination, and all source blocks come first. -/
def SortsSourcesFirst (fg : Flowgraph) (blocks : List BlockId) (color : BlockId → Color) : Prop :=
  ∃ sorted color', fg.topologicalSort blocks color = .ok (sorted, color') ∧ sorted.Perm blocks ∧
    fg.SourcesBefore sorted ∧ fg.SourcesFirst sorted

/-- **Sources first.** On a flowgraph without cycles, for given blocks that are closed under edges,
`topological_sort` keeps its promise if and only if the first of the given sources reaches all given
blocks that are no sources. -/
theorem topological_sort_sources_first_iff {fg : Flowgraph} {blocks : List BlockId}
    (nodup : blocks.Nodup) (closed : ∀ a ∈ blocks, ∀ b, fg.Feeds a b → b ∈ blocks)
    (acyclic : ¬fg.HasCycle) (color : BlockId → Color) :
    fg.SortsSourcesFirst blocks color ↔ fg.FirstReachesAll blocks := by
  obtain ⟨t, -, sort, perm, before⟩ := topologicalSort_ok nodup closed acyclic color
  have only : fg.SortsSourcesFirst blocks color ↔ fg.SourcesFirst t.output.reverse := by
    constructor
    · rintro ⟨sorted, color', same, -, -, first⟩
      obtain ⟨rfl, rfl⟩ := Prod.mk.inj (Except.ok.inj (sort.symm.trans same))
      exact first
    · intro first
      exact ⟨_, _, sort, perm, before, first⟩
  rw [only]
  cases sources : blocks.filter fg.sourceP with
  | nil =>
    have none : ∀ b ∈ t.output.reverse, ¬fg.sourceP b = true := by
      intro b listed
      exact List.filter_eq_nil_iff.mp sources b (perm.subset listed)
    constructor
    · intro _ s first
      rw [sources] at first
      cases first
    · intro _
      exact List.pairwise_of_forall_mem_list fun a _ b listed source =>
        absurd source (none b listed)
  | cons s rest =>
    obtain ⟨others, reached, color', sort', reaches⟩ :=
      topologicalSort_first nodup closed acyclic sources color
    obtain ⟨whole, -⟩ := Prod.mk.inj (Except.ok.inj (sort.symm.trans sort'))
    have source : fg.sourceP s = true :=
      (List.mem_filter.mp (sources ▸ List.mem_cons_self : s ∈ blocks.filter fg.sourceP)).2
    have distinct := perm.nodup_iff.mpr nodup
    rw [whole] at perm distinct ⊢
    have members : ∀ b, b ∈ blocks ↔ b ∈ others ∨ ReflTransGen fg.Feeds s b := by
      intro b
      rw [← perm.mem_iff, List.mem_append, reaches]
    constructor
    · intro first s' head b member nonsource
      rw [sources] at head
      obtain rfl := Option.some.inj head
      rcases (members b).mp member with other | path
      · have ahead := (List.pairwise_append.mp first).2.2 b other s List.mem_cons_self source
        rw [nonsource] at ahead
        cases ahead
      · exact path
    · intro all
      have ahead : ∀ b ∈ others, fg.sourceP b = true := by
        intro b other
        by_contra nonsource
        have path := all s (by rw [sources]; rfl) b ((members b).mpr (.inl other))
          (by simpa using nonsource)
        exact List.disjoint_of_nodup_append distinct other ((reaches b).mp path)
      have behind : ∀ b ∈ reached, fg.sourceP b = false := by
        intro b inside
        apply not_sourceP_of_reaches ((reaches b).mpr (List.mem_cons_of_mem s inside))
        rintro rfl
        exact (List.nodup_cons.mp (List.nodup_append'.mp distinct).2.1).1 inside
      refine List.pairwise_append.mpr ⟨?_, List.pairwise_cons.mpr ⟨fun _ _ _ => source, ?_⟩, ?_⟩
      · exact List.pairwise_of_forall_mem_list fun a other b _ _ => ahead a other
      · refine List.pairwise_of_forall_mem_list fun a _ b inside found => ?_
        rw [behind b inside] at found
        cases found
      · exact fun a other b _ _ => ahead a other

theorem acyclic_of_upward (upward : ∀ e ∈ fg.edges, e.src.block < e.dst.block) : ¬fg.HasCycle := by
  rintro ⟨b, cycle⟩
  have rising : ∀ {a c}, TransGen fg.Feeds a c → a < c := by
    intro a c path
    induction path with
    | single feeds =>
      obtain ⟨e, member, rfl, rfl⟩ := feeds
      exact upward e member
    | tail _ feeds ih =>
      obtain ⟨e, member, rfl, rfl⟩ := feeds
      exact ih.trans (upward e member)
  exact lt_irrefl b (rising cycle)

/-- Two chains that start with the sources 0 and 1. -/
def twoChains : Flowgraph := ⟨[0, 1, 2, 3], [⟨⟨0, 0⟩, ⟨2, 0⟩⟩, ⟨⟨1, 0⟩, ⟨3, 0⟩⟩]⟩

theorem twoChains_acyclic : ¬twoChains.HasCycle := by
  apply acyclic_of_upward
  intro e member
  rcases List.mem_cons.mp member with rfl | member
  · decide
  · rw [List.mem_singleton.mp member]
    decide

/-- The block behind the second source is listed in front of the first one. -/
theorem topological_sort_nonsource_before_source :
    ¬twoChains.HasCycle ∧
      (twoChains.topologicalSort [0, 1, 2, 3] fun _ => .white).map Prod.fst = .ok [1, 3, 0, 2] ∧
      ¬twoChains.SortsSourcesFirst [0, 1, 2, 3] fun _ => .white := by
  have sort : (twoChains.topologicalSort [0, 1, 2, 3] fun _ => .white).map Prod.fst =
      .ok [1, 3, 0, 2] := by decide +kernel
  refine ⟨twoChains_acyclic, sort, ?_⟩
  rintro ⟨sorted, color', same, -, -, first⟩
  rw [same] at sort
  obtain rfl : sorted = [1, 3, 0, 2] := Except.ok.inj sort
  revert first
  decide +kernel

def oneEdge : Flowgraph := ⟨[0, 1], [⟨⟨0, 0⟩, ⟨1, 0⟩⟩]⟩

/-- A chain keeps its source first. -/
theorem topological_sort_sources_first_chain :
    oneEdge.SortsSourcesFirst [1, 0] fun _ => .white := by
  refine (topological_sort_sources_first_iff (by decide) ?_ ?_ _).mpr ?_
  · rintro a - b ⟨e, member, rfl, rfl⟩
    rw [List.mem_singleton.mp member]
    decide
  · apply acyclic_of_upward
    intro e member
    rw [List.mem_singleton.mp member]
    decide
  · intro s first b member nonsource
    have head : ([1, 0].filter oneEdge.sourceP).head? = some 0 := by decide +kernel
    obtain rfl := Option.some.inj (head.symm.trans first)
    rcases List.mem_cons.mp member with rfl | other
    · exact .single ⟨_, List.mem_singleton_self _, rfl, rfl⟩
    · rw [List.mem_singleton.mp other]

end GnuRadio.Flowgraph
