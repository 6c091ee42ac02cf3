import GnuRadio.Runtime.DisconnectAll

/-!
# Flattening and the order of connections

Which graph a hierarchy flattens to does not depend on the order in which the
edges and single blocks of a detail were connected, nor on the parent links: only
the order of the edges in the flat graph does.
-/

namespace GnuRadio

theorem uniqueVector_congr {β : Type} [LinearOrder β] {v w : List β} (same : ∀ x, x ∈ v ↔ x ∈ w) :
    uniqueVector v = uniqueVector w := by
  have perm : (uniqueVector v).Perm (uniqueVector w) := by
    rw [List.perm_ext_iff_of_nodup (uniqueVector_nodup v) (uniqueVector_nodup w)]
    intro x
    rw [mem_uniqueVector, mem_uniqueVector, same]
  exact perm.eq_of_pairwise (fun a b _ _ below above => absurd below (lt_asymm above))
    (uniqueVector_pairwise v) (uniqueVector_pairwise w)

namespace Hierarchy

variable {env : Blocks} {h h' : Hierarchy}

/-- Two details with the same connections in another order. -/
structure Reordered (d d' : HierDetail) : Prop where
  edges : d'.fg.edges.Perm d.fg.edges
  inputs : d'.inputs = d.inputs
  outputs : d'.outputs = d.outputs
  blocks : d'.blocks.Perm d.blocks

/-- The same blocks are hierarchical, with the same connections in another order. -/
def Similar (h h' : Hierarchy) : Prop :=
  ∀ b, h b = none ∧ h' b = none ∨ ∃ d d', h b = some d ∧ h' b = some d' ∧ Reordered d d'

variable {d d' : HierDetail} {l : List Edge} {sfg out sfg' : Flowgraph}

theorem Reordered.symm (same : Reordered d d') : Reordered d' d :=
  ⟨same.edges.symm, same.inputs.symm, same.outputs.symm, same.blocks.symm⟩

theorem Similar.symm (similar : Similar h h') : Similar h' h := by
  intro b
  obtain ⟨one, two⟩ | ⟨d, d', one, two, same⟩ := similar b
  · exact .inl ⟨two, one⟩
  · exact .inr ⟨d', d, two, one, same.symm⟩

theorem Reordered.of_tables (tables : d.tables = d'.tables) : Reordered d d' := by
  cases d
  cases d'
  cases tables
  exact ⟨.refl _, rfl, rfl, .refl _⟩

theorem Similar.resolveEndpoint (similar : Similar h h') (isInput : Bool) (fuel : Nat)
    (endp : Endpoint) :
    resolveEndpoint env h' isInput fuel endp = resolveEndpoint env h isInput fuel endp := by
  induction fuel generalizing endp with
  | zero => rfl
  | succ fuel ih =>
    rw [Hierarchy.resolveEndpoint, Hierarchy.resolveEndpoint, funext ih]
    obtain ⟨one, two⟩ | ⟨d, d', one, two, same⟩ := similar endp.block
    · rw [one, two]
    · rw [one, two]
      simp only [resolvePort, portTargets, same.inputs, same.outputs]

theorem Similar.flattenEdge (similar : Similar h h') (fuel : Nat) :
    flattenEdge env h' fuel = flattenEdge env h fuel := by
  funext sfg e
  rw [Hierarchy.flattenEdge, Hierarchy.flattenEdge, similar.resolveEndpoint,
    similar.resolveEndpoint]

/-- Both ends of an edge resolve. -/
def Resolvable (env : Blocks) (h : Hierarchy) (fuel : Nat) (e : Edge) : Prop :=
  (∃ srcs, resolveEndpoint env h false fuel e.src = .ok srcs) ∧
    ∃ dsts, resolveEndpoint env h true fuel e.dst = .ok dsts

theorem foldlM_flattenEdge_ok {fuel : Nat} :
    l.foldlM (flattenEdge env h fuel) sfg = .ok out ↔
      (∀ e ∈ l, Resolvable env h fuel e) ∧
        (l.flatMap (expandEdge env h fuel)).foldlM (connectEdge env) sfg = .ok out := by
  have each : ∀ (all : ∀ e ∈ l, Resolvable env h fuel e),
      l.foldlM (flattenEdge env h fuel) sfg =
        (l.flatMap (expandEdge env h fuel)).foldlM (connectEdge env) sfg := by
    intro all
    rw [foldlM_flatMap]
    apply foldlM_congr
    intro s e member
    obtain ⟨⟨srcs, src⟩, dsts, dst⟩ := all e member
    exact flattenEdge_eq src dst s
  constructor
  · intro looped
    have all : ∀ e ∈ l, Resolvable env h fuel e := by
      intro e member
      obtain ⟨s, t, flat⟩ := foldlM_mem looped member
      obtain ⟨srcs, src, flat⟩ := bind_ok.mp flat
      obtain ⟨dsts, dst, -⟩ := bind_ok.mp flat
      exact ⟨⟨srcs, src⟩, dsts, dst⟩
    exact ⟨all, each all ▸ looped⟩
  · rintro ⟨all, looped⟩
    rw [each all]
    exact looped

/-- Two flat graphs with the same edges, each into another port. -/
structure SameGraph (sfg sfg' : Flowgraph) : Prop where
  blocks : sfg'.blocks = sfg.blocks
  edges : sfg'.edges.Perm sfg.edges
  dst_nodup : (sfg.edges.map Edge.dst).Nodup

theorem SameGraph.refl (nodup : (sfg.edges.map Edge.dst).Nodup) : SameGraph sfg sfg :=
  ⟨rfl, .refl _, nodup⟩

theorem SameGraph.connects {l' : List Edge} (same : SameGraph sfg sfg') (perm : l'.Perm l)
    (looped : l.foldlM (connectEdge env) sfg = .ok out) :
    ∃ out', l'.foldlM (connectEdge env) sfg' = .ok out' ∧ SameGraph out out' := by
  obtain ⟨compatible, nodup, rfl⟩ := (foldlM_connectEdge_ok same.dst_nodup).mp looped
  have whole : (sfg'.edges ++ l').Perm (sfg.edges ++ l) := same.edges.append perm
  have start : (sfg'.edges.map Edge.dst).Nodup :=
    ((same.edges.map Edge.dst).nodup_iff).mpr same.dst_nodup
  refine ⟨_, (foldlM_connectEdge_ok start).mpr
    ⟨fun e member => compatible e (perm.mem_iff.mp member), ?_, rfl⟩, ?_⟩
  · exact ((whole.map Edge.dst).nodup_iff).mpr nodup
  · exact ⟨same.blocks, whole, nodup⟩

theorem Reordered.portBlocks (same : Reordered d d') (owner : BlockId) :
    portBlocks env owner d' = portBlocks env owner d := by
  simp only [Hierarchy.portBlocks, same.inputs, same.outputs]

theorem Reordered.children (same : Reordered d d') (ports : List BlockId) :
    uniqueVector (d'.fg.calcUsedBlocks ++ d'.blocks ++ ports) =
      uniqueVector (d.fg.calcUsedBlocks ++ d.blocks ++ ports) := by
  apply uniqueVector_congr
  intro b
  have used : b ∈ d'.fg.calcUsedBlocks ↔ b ∈ d.fg.calcUsedBlocks := by
    simp only [Flowgraph.calcUsedBlocks, mem_uniqueVector, List.mem_flatMap, same.edges.mem_iff]
  simp only [List.mem_append, used, same.blocks.mem_iff]

/-- **Order does not matter.** If one hierarchy flattens, a similar one flattens to the same graph.
-/
theorem Similar.flattenAux (similar : Similar h h') (fuel : Nat) (owner : BlockId)
    (same : SameGraph sfg sfg') (flattened : flattenAux env h fuel owner sfg = .ok out) :
    ∃ out', flattenAux env h' fuel owner sfg' = .ok out' ∧ SameGraph out out' := by
  induction fuel generalizing owner sfg sfg' out with
  | zero => cases flattened
  | succ fuel ih =>
    rw [Hierarchy.flattenAux] at flattened ⊢
    obtain ⟨one, -⟩ | ⟨d, d', one, two, reordered⟩ := similar owner
    · rw [one] at flattened
      cases flattened
    · rw [one] at flattened
      rw [two]
      obtain ⟨mid, edges, flattened⟩ := bind_ok.mp flattened
      obtain ⟨ports, found, children⟩ := bind_ok.mp flattened
      obtain ⟨all, looped⟩ := foldlM_flattenEdge_ok.mp edges
      obtain ⟨mid', looped', sameMid⟩ := same.connects (reordered.edges.flatMap_right _) looped
      have edges' : d'.fg.edges.foldlM (Hierarchy.flattenEdge env h' fuel) sfg' = .ok mid' := by
        rw [similar.flattenEdge]
        exact foldlM_flattenEdge_ok.mpr
          ⟨fun e member => all e (reordered.edges.mem_iff.mp member), looped'⟩
      obtain ⟨out', children', sameOut⟩ := foldlM_related
        (g := fun sfg p => if (h' p).isSome then Hierarchy.flattenAux env h' fuel p sfg else .ok sfg)
        SameGraph (by
          intro s t s' p _ related inner
          obtain ⟨one', two'⟩ | ⟨dp, dp', one', two', -⟩ := similar p
          · rw [one'] at inner
            rw [two']
            cases inner
            exact ⟨t, rfl, related⟩
          · rw [one'] at inner
            rw [two']
            exact ih p related inner) sameMid children
      refine ⟨out', ?_, sameOut⟩
      refine bind_ok.mpr ⟨mid', edges', bind_ok.mpr ⟨ports, ?_, ?_⟩⟩
      · rw [reordered.portBlocks, found]
      · rw [reordered.children]
        exact children'

end Hierarchy

end GnuRadio

/-!
## Disconnecting a block

`disconnect(block)` looks at the single blocks and at the edges of the detail, but
not at the two tables of ports. Behind connections alone it leaves no reference to
a block, and connecting it again gives the same flat graph, as long as the block
is not connected to a port of the hierarchical block itself.
-/

namespace GnuRadio

/-- The edge begins or ends at the block. -/
abbrev Edge.Touches (block : BlockId) (e : Edge) : Prop := e.src.block = block ∨ e.dst.block = block

/-- The block is connected to a port of the hierarchical block itself. -/
def HierDetail.AtPort (d : HierDetail) (block : BlockId) : Prop :=
  (∃ endps ∈ d.inputs, ∃ endp ∈ endps, endp.block = block) ∨
    ∃ endp, some endp ∈ d.outputs ∧ endp.block = block

theorem exists_perm_of_map {α β : Type} {f : α → β} {l : List α} {m : List β}
    (perm : m.Perm (l.map f)) : ∃ l' : List α, l'.Perm l ∧ m = l'.map f := by
  have each : List.Forall₂ (fun b a => b = f a) (l.map f) l := by
    rw [List.forall₂_map_left_iff]
    exact List.forall₂_same.mpr fun _ _ => rfl
  obtain ⟨l', mapped, perm'⟩ := List.perm_comp_forall₂ perm each
  refine ⟨l', perm', ?_⟩
  rw [← List.forall₂_eq_eq_eq, List.forall₂_map_right_iff]
  exact mapped

namespace Hierarchy

variable {env : Blocks} {h h' : Hierarchy} {owner block : BlockId} {d : HierDetail}

/-- The calls that make the connections of a block. -/
def connections (owner block : BlockId) (d : HierDetail) : List Call :=
  (if block ∈ d.blocks then [.connectBlock owner block] else []) ++
    ((d.fg.edges.filter fun e => e.Touches block).map fun e => .connect owner e.src e.dst) ++
    (d.inputs.zipIdx.flatMap fun port =>
      (port.1.filter fun endp => endp.block = block).map fun endp =>
        .connect owner ⟨owner, port.2⟩ endp) ++
    d.outputs.zipIdx.flatMap fun port =>
      (port.1.toList.filter fun endp => endp.block = block).map fun endp =>
        .connect owner endp ⟨owner, port.2⟩

/-- A call that connects. -/
def Call.Connects : Call → Prop
  | .connectBlock _ _ => True
  | .connect _ _ _ => True
  | .disconnectBlock _ _ => False
  | .disconnect _ _ _ => False

/-- What connections leave in a detail. -/
structure Wellwired (env : Blocks) (owner : BlockId) (d : HierDetail) : Prop where
  inner : ∀ e ∈ d.fg.edges, ¬e.Touches owner
  different : ∀ e ∈ d.fg.edges, e.src.block ≠ e.dst.block
  compatible : ∀ e ∈ d.fg.edges, Compatible env e
  dst_nodup : (d.fg.edges.map Edge.dst).Nodup
  single : d.blocks.Nodup
  portless : ∀ b ∈ d.blocks, (env b).inputSignature.maxStreams = 0 ∧
    (env b).outputSignature.maxStreams = 0

theorem wellwired_make {topBlock : Bool} (made : HierDetail.make env owner topBlock = .ok d) :
    Wellwired env owner d := by
  obtain ⟨-, -, rfl⟩ := make_ok made
  refine ⟨?_, ?_, ?_, List.nodup_nil, List.nodup_nil, ?_⟩
  all_goals
    intro x member
    cases member

theorem Wellwired.of_tables {d' : HierDetail} (wired : Wellwired env owner d)
    (tables : d'.tables = d.tables) : Wellwired env owner d' := by
  cases d
  cases d'
  cases tables
  exact ⟨wired.inner, wired.different, wired.compatible, wired.dst_nodup, wired.single,
    wired.portless⟩

variable {fg : Flowgraph} {src dst : Endpoint} {edges : List Edge} {touched : List BlockId}
  {left : HierDetail}

theorem Wellwired.edge (wired : Wellwired env owner d) (notSrc : src.block ≠ owner)
    (notDst : dst.block ≠ owner) (different : src.block ≠ dst.block)
    (connected : connectEdge env d.fg ⟨src, dst⟩ = .ok fg) :
    Wellwired env owner { d with fg := fg } := by
  obtain ⟨compatible, nodup, rfl⟩ :=
    (foldlM_connectEdge_ok wired.dst_nodup).mp (foldlM_singleton_ok.mpr connected)
  refine ⟨?_, ?_, ?_, nodup, wired.single, wired.portless⟩
  all_goals
    intro e member
    rcases List.mem_append.mp member with old | new
  · exact wired.inner e old
  · rw [List.mem_singleton.mp new]
    rintro (same | same)
    · exact notSrc same
    · exact notDst same
  · exact wired.different e old
  · rw [List.mem_singleton.mp new]
    exact different
  · exact wired.compatible e old
  · exact compatible e new

theorem Wellwired.untouched (wired : Wellwired env owner d) (single : block ∈ d.blocks) :
    ∀ e ∈ d.fg.edges, ¬e.Touches block := by
  obtain ⟨noInput, noOutput⟩ := wired.portless block single
  intro e member
  obtain ⟨srcPort, dstPort, -⟩ := wired.compatible e member
  rintro (rfl | rfl)
  · unfold Flowgraph.checkValidPort at srcPort
    rw [noOutput] at srcPort
    split at srcPort
    · cases srcPort
    · rw [if_pos ⟨by decide, by omega⟩] at srcPort
      cases srcPort
  · unfold Flowgraph.checkValidPort at dstPort
    rw [noInput] at dstPort
    split at dstPort
    · cases dstPort
    · rw [if_pos ⟨by decide, by omega⟩] at dstPort
      cases dstPort

/-! ## Connections -/

theorem connectBlock_returns (detail : h owner = some d) (new : block ∉ d.blocks)
    (noInput : (env block).inputSignature.maxStreams = 0)
    (noOutput : (env block).outputSignature.maxStreams = 0) :
    ∃ h', (connectBlock env owner block).Returns h () h' ∧
      Changes h h' owner (some owner) [block] d { d with blocks := d.blocks ++ [block] } := by
  refine ⟨_, ?_, detail, rfl, rfl, rfl⟩
  refine (returns_getDetail.mpr ⟨detail, rfl⟩).bind ?_
  rw [if_neg new, if_neg (by simp [noInput, noOutput])]
  refine (returns_setParent.mpr rfl).bind ?_
  refine (returns_getDetail.mpr ⟨relink_owner.trans detail, rfl⟩).bind ?_
  exact returns_setDetail.mpr rfl

theorem connect_returns (detail : h owner = some d) (notSrc : src.block ≠ owner)
    (notDst : dst.block ≠ owner) (different : src.block ≠ dst.block)
    (connected : connectEdge env d.fg ⟨src, dst⟩ = .ok fg) :
    ∃ h', (connect env owner src dst).Returns h () h' ∧
      Changes h h' owner (some owner) [src.block, dst.block] d { d with fg := fg } := by
  refine ⟨_, ?_, detail, rfl, rfl, rfl⟩
  rw [connect, if_neg different]
  refine (returns_setParent.mpr rfl).bind ?_
  refine (returns_setParent.mpr rfl).bind ?_
  rw [relink_relink, connectTables, if_neg notSrc, if_neg notDst]
  refine (returns_getDetail.mpr ⟨relink_owner.trans detail, rfl⟩).bind ?_
  refine (Program.returns_ofExcept.mpr ⟨connected, rfl⟩).bind ?_
  exact returns_setDetail.mpr rfl

theorem run_connects (detail : h owner = some d) (inner : ∀ e ∈ edges, ¬e.Touches owner)
    (different : ∀ e ∈ edges, e.src.block ≠ e.dst.block)
    (connected : edges.foldlM (connectEdge env) d.fg = .ok fg) :
    ∃ h', run (call env) h (edges.map fun e => .connect owner e.src e.dst) = some h' ∧
      Changes h h' owner (some owner) (endBlocks edges) d { d with fg := fg } := by
  induction edges generalizing h d with
  | nil =>
    obtain rfl := pure_ok.mp connected
    refine ⟨h, rfl, detail, ?_, rfl, rfl⟩
    rw [endBlocks, List.flatMap_nil, relink_nil, ← detail, Function.update_eq_self]
  | cons e edges ih =>
    obtain ⟨mid, first, rest⟩ := foldlM_cons_ok.mp connected
    have outside := inner e List.mem_cons_self
    rw [not_or] at outside
    obtain ⟨s, one, changes⟩ :=
      connect_returns detail outside.1 outside.2 (different e List.mem_cons_self) first
    obtain ⟨h', others, restChanges⟩ := ih changes.own
      (fun e' member => inner e' (List.mem_cons_of_mem e member))
      (fun e' member => different e' (List.mem_cons_of_mem e member)) rest
    exact ⟨h', run_cons.mpr ⟨s, call_some.mpr one, others⟩, changes.trans restChanges⟩

theorem Changes.other_tables {b : BlockId} {parent : Option BlockId}
    (changes : Changes h h' owner parent touched d left) (other : b ≠ owner) :
    (h' b).map HierDetail.tables = (h b).map HierDetail.tables := by
  rw [changes.after, Function.update_of_ne other, relink]
  split
  · rw [Option.map_map]
    rfl
  · rfl

theorem wellwired_call {c : Call} (connects : c.Connects)
    (wired : ∃ d, h owner = some d ∧ Wellwired env owner d) (called : call env h c = some h') :
    ∃ d, h' owner = some d ∧ Wellwired env owner d := by
  have elsewhere : ∀ {o parent touched d₁ left}, Changes h h' o parent touched d₁ left →
      owner ≠ o → ∃ d, h' owner = some d ∧ Wellwired env owner d := by
    intro o parent touched d₁ left changes other
    obtain ⟨d, detail, wired⟩ := wired
    have same := changes.other_tables other
    rw [detail, Option.map_some, Option.map_eq_some_iff] at same
    obtain ⟨d', detail', tables⟩ := same
    exact ⟨d', detail', wired.of_tables tables⟩
  have returned := call_some.mp called
  obtain ⟨d, detail, wellwired⟩ := wired
  cases c with
  | connectBlock o b =>
    obtain ⟨d₁, changes, new, noInput, noOutput⟩ := changes_connectBlock returned
    by_cases own : owner = o
    · subst own
      obtain rfl := Option.some.inj (detail.symm.trans changes.detail)
      refine ⟨_, changes.own, wellwired.inner, wellwired.different, wellwired.compatible,
        wellwired.dst_nodup, ?_, ?_⟩
      · exact (List.concat_eq_append ▸ wellwired.single.concat new)
      · intro b' member
        rcases List.mem_append.mp member with old | last
        · exact wellwired.portless b' old
        · rw [List.mem_singleton.mp last]
          exact ⟨noInput, noOutput⟩
    · exact elsewhere changes own
  | connect o src dst =>
    obtain ⟨d₁, left, changes, blocks, edges, -⟩ := changes_connect returned
    by_cases own : owner = o
    · subst own
      obtain rfl := Option.some.inj (detail.symm.trans changes.detail)
      have inGraph : Wellwired env owner { d with fg := left.fg } := by
        rcases edges with same | ⟨notSrc, notDst, different, connected⟩
        · rw [same]
          exact wellwired
        · exact wellwired.edge notSrc notDst different connected
      refine ⟨left, changes.own, inGraph.inner, inGraph.different, inGraph.compatible,
        inGraph.dst_nodup, ?_, ?_⟩
      · rw [blocks]
        exact wellwired.single
      · rw [blocks]
        exact wellwired.portless
    · exact elsewhere changes own
  | disconnectBlock o b => exact connects.elim
  | disconnect o src dst => exact connects.elim

/-! ## Disconnecting -/

/-- The detail without a block among the single blocks and the edges. -/
def purge (block : BlockId) (d : HierDetail) : HierDetail :=
  { d with
    fg := { d.fg with edges := d.fg.edges.filter fun e => ¬e.Touches block }
    blocks := d.blocks.filter fun b => b ≠ block }

theorem foldl_without (inner : ∀ e ∈ edges, ¬e.Touches owner) :
    edges.foldl (HierDetail.without owner) d =
      { d with fg := { d.fg with edges := d.fg.edges.diff edges } } := by
  induction edges generalizing d with
  | nil => rfl
  | cons e edges ih =>
    have outside := inner e List.mem_cons_self
    rw [not_or] at outside
    rw [List.foldl_cons, ih fun e' member => inner e' (List.mem_cons_of_mem e member),
      HierDetail.without, if_neg outside.1, if_neg outside.2, List.diff_cons]

theorem returns_disconnectBlock (detail : h owner = some d) (wired : Wellwired env owner d)
    (returned : (disconnectBlock env owner block).Returns h () h') :
    ∃ touched, Changes h h' owner none touched d (purge block d) := by
  obtain ⟨d', detail', returned⟩ := returns_withDetail.mp returned
  obtain rfl := Option.some.inj (detail.symm.trans detail')
  split at returned
  · rename_i single
    obtain ⟨_, t, stored, cleared⟩ := Program.returns_bind.mp returned
    have whole : purge block d = { d with blocks := d.blocks.erase block } := by
      rw [purge, wired.single.erase_eq_filter, List.filter_eq_self.mpr]
      · congr 1
        apply List.filter_congr
        intro b _
        rw [Bool.eq_iff_iff]
        simp
      · intro e member
        exact decide_eq_true (wired.untouched single e member)
    rw [whole]
    exact ⟨_, changes_clearSingleton detail stored cleared rfl rfl⟩
  · rename_i notSingle
    dsimp only at returned
    split at returned
    · exact absurd returned Program.not_returns_throw
    · obtain ⟨changes, -, -⟩ := changes_disconnects detail returned
      have edges : d.fg.edges.diff (d.fg.edges.filter fun e => e.Touches block) =
          d.fg.edges.filter fun e => ¬e.Touches block := by
        rw [(List.Nodup.of_map _ wired.dst_nodup).sdiff_eq_filter]
        apply List.filter_congr
        intro e member
        simp [member]
      have blocks : (d.blocks.filter fun b => b ≠ block) = d.blocks := by
        rw [List.filter_eq_self]
        intro b member
        exact decide_eq_true fun same => notSingle (same ▸ member)
      rw [foldl_without fun e member => wired.inner e (List.mem_of_mem_filter member), edges]
        at changes
      rw [purge, blocks]
      exact ⟨_, changes⟩

/-- Each of two hierarchies flattens when the other does, to the same graph. -/
def FlattensAlike (env : Blocks) (h h' : Hierarchy) : Prop :=
  ∀ fuel top,
    (∀ out, flattenAux env h fuel top .empty = .ok out →
      ∃ out', flattenAux env h' fuel top .empty = .ok out' ∧ SameGraph out out') ∧
    ∀ out', flattenAux env h' fuel top .empty = .ok out' →
      ∃ out, flattenAux env h fuel top .empty = .ok out ∧ SameGraph out' out

theorem Similar.flattensAlike (similar : Similar h h') : FlattensAlike env h h' := by
  have start : SameGraph .empty .empty := .refl List.nodup_nil
  intro fuel top
  exact ⟨fun out flattened => similar.flattenAux fuel top start flattened,
    fun out' flattened => similar.symm.flattenAux fuel top start flattened⟩

theorem Similar.of_changes {h'' : Hierarchy} {p p' : Option BlockId} {touched' : List BlockId}
    {left' : HierDetail} (first : Changes h h' owner p touched d left)
    (second : Changes h' h'' owner p' touched' left left') (same : Reordered d left') :
    Similar h h'' := by
  intro b
  by_cases own : b = owner
  · rw [own]
    exact .inr ⟨d, left', first.detail, second.own, same⟩
  · have tables := (second.other_tables own).trans (first.other_tables own)
    cases before : h b with
    | none =>
      rw [before, Option.map_none, Option.map_eq_none_iff] at tables
      exact .inl ⟨rfl, tables⟩
    | some db =>
      rw [before, Option.map_some, Option.map_eq_some_iff] at tables
      obtain ⟨db', after, tables⟩ := tables
      exact .inr ⟨db, db', rfl, after, .of_tables tables.symm⟩

theorem connections_eq (inner : ¬d.AtPort block) :
    connections owner block d =
      (if block ∈ d.blocks then [.connectBlock owner block] else []) ++
        (d.fg.edges.filter fun e => e.Touches block).map fun e => .connect owner e.src e.dst := by
  unfold HierDetail.AtPort at inner
  rw [not_or] at inner
  have inputs : (d.inputs.zipIdx.flatMap fun port =>
      (port.1.filter fun endp => endp.block = block).map fun endp =>
        Call.connect owner ⟨owner, port.2⟩ endp) = [] := by
    rw [List.flatMap_eq_nil_iff]
    rintro ⟨endps, i⟩ member
    rw [List.map_eq_nil_iff, List.filter_eq_nil_iff]
    intro endp inside same
    exact inner.1 ⟨endps, List.fst_mem_of_mem_zipIdx member, endp, inside, of_decide_eq_true same⟩
  have outputs : (d.outputs.zipIdx.flatMap fun port =>
      (port.1.toList.filter fun endp => endp.block = block).map fun endp =>
        Call.connect owner endp ⟨owner, port.2⟩) = [] := by
    rw [List.flatMap_eq_nil_iff]
    rintro ⟨output, i⟩ member
    rw [List.map_eq_nil_iff, List.filter_eq_nil_iff]
    intro endp inside same
    obtain rfl := Option.mem_toList.mp inside
    exact inner.2 ⟨endp, List.fst_mem_of_mem_zipIdx member, of_decide_eq_true same⟩
  rw [connections, inputs, outputs, List.append_nil, List.append_nil]

theorem reconnect {calls : List Call} (detail : h' owner = some (purge block d))
    (wired : Wellwired env owner d) (inner : ¬d.AtPort block)
    (perm : calls.Perm (connections owner block d)) :
    ∃ h'' touched left, run (call env) h' calls = some h'' ∧
      Changes h' h'' owner (some owner) touched (purge block d) left ∧ Reordered d left := by
  rw [connections_eq inner] at perm
  by_cases single : block ∈ d.blocks
  · obtain ⟨noInput, noOutput⟩ := wired.portless block single
    have noEdges : d.fg.edges.filter (fun e => e.Touches block) = [] := by
      rw [List.filter_eq_nil_iff]
      intro e member touches
      exact wired.untouched single e member (of_decide_eq_true touches)
    rw [if_pos single, noEdges, List.map_nil, List.append_nil, List.perm_singleton] at perm
    subst perm
    have new : block ∉ (purge block d).blocks := by
      intro member
      simpa using List.of_mem_filter member
    obtain ⟨h'', returned, changes⟩ := connectBlock_returns detail new noInput noOutput
    refine ⟨h'', _, _, run_cons.mpr ⟨h'', call_some.mpr returned, rfl⟩, changes, ?_, rfl, rfl, ?_⟩
    · have whole := List.filter_append_perm (fun e : Edge => e.Touches block) d.fg.edges
      rw [noEdges, List.nil_append] at whole
      simpa [purge] using whole
    · have whole := List.perm_cons_erase single
      rw [wired.single.erase_eq_filter] at whole
      refine (List.perm_append_singleton block _).trans ?_
      refine List.Perm.trans (.of_eq ?_) whole.symm
      refine congrArg (block :: ·) (List.filter_congr ?_)
      intro b _
      rw [Bool.eq_iff_iff]
      simp
  · rw [if_neg single, List.nil_append] at perm
    obtain ⟨edges, reordered, rfl⟩ := exists_perm_of_map perm
    have old : ∀ e ∈ edges, e ∈ d.fg.edges :=
      fun e member => List.mem_of_mem_filter (reordered.mem_iff.mp member)
    have whole : ((purge block d).fg.edges ++ edges).Perm d.fg.edges := by
      refine (List.Perm.append_left _ reordered).trans (List.perm_append_comm.trans ?_)
      have split := List.filter_append_perm (fun e : Edge => e.Touches block) d.fg.edges
      simpa [purge] using split
    have nodup : (((purge block d).fg.edges ++ edges).map Edge.dst).Nodup :=
      ((whole.map Edge.dst).nodup_iff).mpr wired.dst_nodup
    have start : ((purge block d).fg.edges.map Edge.dst).Nodup := by
      rw [List.map_append] at nodup
      exact nodup.of_append_left
    obtain ⟨h'', ran, changes⟩ := run_connects detail
      (fun e member => wired.inner e (old e member))
      (fun e member => wired.different e (old e member))
      ((foldlM_connectEdge_ok start).mpr
        ⟨fun e member => wired.compatible e (old e member), nodup, rfl⟩)
    refine ⟨h'', _, _, ran, changes, whole, rfl, rfl, ?_⟩
    refine .of_eq (List.filter_eq_self.mpr ?_)
    intro b member
    exact decide_eq_true fun same => single (same ▸ member)

/-- What disconnecting a block should leave: no reference to it, all other connections, and the
same flat graph when its connections are made again. -/
structure Purged (env : Blocks) (owner block : BlockId) (d d' : HierDetail) (h h' : Hierarchy) :
    Prop where
  no_single : block ∉ d'.blocks
  no_edge : ∀ e ∈ d'.fg.edges, ¬e.Touches block
  no_port : ¬d'.AtPort block
  blocks_kept : d'.blocks = d.blocks.filter fun b => b ≠ block
  graph_kept : d'.fg = { d.fg with edges := d.fg.edges.filter fun e => ¬e.Touches block }
  inputs_kept : d'.inputs = d.inputs.map (List.filter fun endp => endp.block ≠ block)
  outputs_kept : d'.outputs = d.outputs.map (Option.filter fun endp => endp.block ≠ block)
  others_kept : ∀ b ≠ owner, (h' b).map HierDetail.tables = (h b).map HierDetail.tables
  reconnected : ∀ calls : List Call, calls.Perm (connections owner block d) →
    ∃ h'', run (call env) h' calls = some h'' ∧ FlattensAlike env h h''

theorem ports_kept (inner : ¬d.AtPort block) :
    d.inputs = d.inputs.map (List.filter fun endp => endp.block ≠ block) ∧
      d.outputs = d.outputs.map (Option.filter fun endp => endp.block ≠ block) := by
  unfold HierDetail.AtPort at inner
  rw [not_or] at inner
  constructor
  · conv_lhs => rw [← List.map_id d.inputs]
    apply List.map_congr_left
    intro endps member
    refine (List.filter_eq_self.mpr ?_).symm
    intro endp inside
    exact decide_eq_true fun same => inner.1 ⟨endps, member, endp, inside, same⟩
  · conv_lhs => rw [← List.map_id d.outputs]
    apply List.map_congr_left
    intro output member
    cases output with
    | none => rfl
    | some endp =>
      have other : endp.block ≠ block := fun same => inner.2 ⟨endp, member, same⟩
      rw [id_eq, Option.filter_some, if_pos (decide_eq_true other)]

/-- **No reference is left.** Behind any connections, disconnecting a block does what it should if
and only if the block was not connected to a port of the hierarchical block itself. -/
theorem disconnect_block_purges_iff {h₀ : Hierarchy} {calls : List Call} {topBlock : Bool}
    {fresh d' : HierDetail} (made : HierDetail.make env owner topBlock = .ok fresh)
    (start : h₀ owner = some fresh) (connects : ∀ c ∈ calls, c.Connects)
    (reached : run (call env) h₀ calls = some h) (detail : h owner = some d)
    (returned : (disconnectBlock env owner block).Returns h () h') (after : h' owner = some d') :
    Purged env owner block d d' h h' ↔ ¬d.AtPort block := by
  have wired : Wellwired env owner d := by
    have along : Throughout (fun _ c => c.Connects) (call env) h₀ calls :=
      .of_mem (fun c member _ => connects c member) h₀
    obtain ⟨d₁, detail₁, wired⟩ := run_invariant_of
      (fun h => ∃ d, h owner = some d ∧ Wellwired env owner d)
      (fun _ _ _ wired connects called => wellwired_call connects wired called)
      ⟨fresh, start, wellwired_make made⟩ along reached
    rw [detail] at detail₁
    obtain rfl := Option.some.inj detail₁
    exact wired
  obtain ⟨touched, changes⟩ := returns_disconnectBlock detail wired returned
  obtain rfl := Option.some.inj (changes.own.symm.trans after)
  constructor
  · intro purged
    exact purged.no_port
  · intro inner
    obtain ⟨inputs, outputs⟩ := ports_kept inner
    refine ⟨?_, ?_, inner, rfl, rfl, inputs, outputs, fun b => changes.other_tables, ?_⟩
    · intro member
      simpa using List.of_mem_filter member
    · intro e member
      exact of_decide_eq_true (List.mem_filter.mp member).2
    · intro calls perm
      obtain ⟨h'', touched', left, ran, again, same⟩ := reconnect changes.own wired inner perm
      exact ⟨h'', ran, (Similar.of_changes changes again same).flattensAlike⟩

/-- A source is connected to a sink and to the output of the hierarchical block, and disconnected.
The edge is gone, but the source still is what the output stands for. -/
theorem disconnect_block_leaves_output :
    ∃ h h' d d', run (call smallBlocks) smallHierarchy
        [.connect 1 ⟨3, 0⟩ ⟨1, 0⟩, .connect 1 ⟨3, 0⟩ ⟨2, 0⟩] = some h ∧ h 1 = some d ∧
      (disconnectBlock smallBlocks 1 3).Returns h () h' ∧ h' 1 = some d' ∧
      d'.outputs = [some ⟨3, 0⟩] ∧ ¬Purged smallBlocks 1 3 d d' h h' := by
  refine ⟨_, _, _, _, rfl, rfl, rfl, rfl, rfl, ?_⟩
  intro purged
  exact purged.no_port (.inr ⟨⟨3, 0⟩, List.mem_singleton_self _, rfl⟩)

/-- A source connected to a sink alone is disconnected without a trace. -/
theorem disconnect_block_purges_source :
    ∃ h h' d d', run (call smallBlocks) smallHierarchy [.connect 0 ⟨3, 0⟩ ⟨2, 0⟩] = some h ∧
      h 0 = some d ∧ (disconnectBlock smallBlocks 0 3).Returns h () h' ∧ h' 0 = some d' ∧
      Purged smallBlocks 0 3 d d' h h' := by
  obtain ⟨fresh, made, start⟩ : ∃ fresh, HierDetail.make smallBlocks 0 true = .ok fresh ∧
      smallHierarchy 0 = some fresh := ⟨_, rfl, rfl⟩
  obtain ⟨h, h', d, d', reached, detail, returned, after, inputs, outputs⟩ : ∃ h h' d d',
      run (call smallBlocks) smallHierarchy [.connect 0 ⟨3, 0⟩ ⟨2, 0⟩] = some h ∧ h 0 = some d ∧
        (disconnectBlock smallBlocks 0 3).Returns h () h' ∧ h' 0 = some d' ∧
        d.inputs = [] ∧ d.outputs = [] := ⟨_, _, _, _, rfl, rfl, rfl, rfl, rfl, rfl⟩
  refine ⟨h, h', d, d', reached, detail, returned, after, ?_⟩
  refine (disconnect_block_purges_iff made start ?_ reached detail returned after).mpr ?_
  · intro c member
    rw [List.mem_singleton.mp member]
    trivial
  · unfold HierDetail.AtPort
    simp [inputs, outputs]

end Hierarchy

end GnuRadio
