import GnuRadio.Runtime.HierBlock2Detail

/-!
# Flattening computes the resolved edges

Resolving an endpoint follows the port tables of the hierarchical blocks until a
leaf is met. `expand` lists the resolved edges of a block and of the blocks
nested in it, in the order in which `flatten_aux` connects them; the checks of
`gr_flowgraph::connect` then decide whether flattening succeeds.
-/

namespace GnuRadio

variable {env : Blocks} {h : Hierarchy} {rank : BlockId → Nat}

/-- The endpoints inside a hierarchical block that one of its ports stands for. -/
def HierDetail.targets (d : HierDetail) (isInput : Bool) (port : Int) : List Endpoint :=
  if port < 0 then []
  else if isInput then d.inputs.getD port.toNat []
  else (d.outputs.getD port.toNat none).toList

/-- All blocks a detail refers to. -/
def HierDetail.members (d : HierDetail) : List BlockId :=
  d.fg.calcUsedBlocks ++ d.blocks ++
    (d.inputs.flatMap (·.map Endpoint.block) ++
      (d.outputs.map Option.toList).flatMap (·.map Endpoint.block))

namespace Hierarchy

/-! ## Following the port tables -/

/-- A `gr_block`. -/
abbrev Leaf (env : Blocks) (b : BlockId) : Prop := (env b).grBlock.isSome = true

/-- The endpoints met on the way from an endpoint to the leaves it stands for. -/
inductive Met (env : Blocks) (h : Hierarchy) (isInput : Bool) : Endpoint → Endpoint → Prop
  | here (endp : Endpoint) : Met env h isInput endp endp
  | inside {endp next last : Endpoint} {d : HierDetail} (hier : ¬ Leaf env endp.block)
      (detail : h endp.block = some d) (target : next ∈ d.targets isInput endp.port)
      (rest : Met env h isInput next last) : Met env h isInput endp last

/-- A leaf endpoint that an endpoint stands for. -/
def Resolves (env : Blocks) (h : Hierarchy) (isInput : Bool) (endp leaf : Endpoint) : Prop :=
  Leaf env leaf.block ∧ Met env h isInput endp leaf

/-- The endpoint is one of a leaf, or of an existing port of a hierarchical block that is
connected inside. -/
def Exists (env : Blocks) (h : Hierarchy) (isInput : Bool) (endp : Endpoint) : Prop :=
  Leaf env endp.block ∨ ∃ d, h endp.block = some d ∧ d.targets isInput endp.port ≠ []

/-- The nesting is finite: the blocks a detail refers to have a smaller rank than its owner. -/
def Nesting (h : Hierarchy) (rank : BlockId → Nat) : Prop :=
  ∀ b d c, h b = some d → c ∈ d.members → rank c < rank b

variable {d : HierDetail} {isInput : Bool} {port : Int} {e : Edge} {endp : Endpoint}
  {owner : BlockId} {l : List Endpoint} {fuel : Nat} {direction : String}
  {table : List (List Endpoint)} {sfg fg' : Flowgraph}

theorem mem_members_of_target {next : Endpoint} (target : next ∈ d.targets isInput port) :
    next.block ∈ d.members := by
  unfold HierDetail.targets at target
  unfold HierDetail.members
  split at target
  · cases target
  split at target
  · refine List.mem_append_right _ (List.mem_append_left _ ?_)
    rw [List.getD_eq_getElem?_getD] at target
    cases there : d.inputs[port.toNat]? with
    | none => rw [there] at target; cases target
    | some l =>
      rw [there, Option.getD_some] at target
      exact List.mem_flatMap.mpr ⟨l, List.mem_of_getElem? there, List.mem_map_of_mem target⟩
  · refine List.mem_append_right _ (List.mem_append_right _ ?_)
    rw [List.getD_eq_getElem?_getD] at target
    cases there : d.outputs[port.toNat]? with
    | none => rw [there] at target; cases target
    | some endp =>
      rw [there, Option.getD_some, Option.mem_toList] at target
      refine List.mem_flatMap.mpr ⟨_, List.mem_map_of_mem (List.mem_of_getElem? there), ?_⟩
      rw [target]
      exact List.mem_singleton_self _

theorem mem_members_of_edge (member : e ∈ d.fg.edges) :
    e.src.block ∈ d.members ∧ e.dst.block ∈ d.members :=
  ⟨List.mem_append_left _ (List.mem_append_left _ (Flowgraph.src_used member)),
    List.mem_append_left _ (List.mem_append_left _ (Flowgraph.dst_used member))⟩

/-- The leaf endpoints an endpoint stands for, in the order of the tables. -/
def leaves (env : Blocks) (h : Hierarchy) (isInput : Bool) : Nat → Endpoint → List Endpoint
  | 0, _ => []
  | fuel + 1, endp =>
      if Leaf env endp.block then [endp]
      else match h endp.block with
        | none => []
        | some d => (d.targets isInput endp.port).flatMap (leaves env h isInput fuel)

theorem mem_leaves (nested : Nesting h rank) (fuel : Nat) {leaf : Endpoint}
    (enough : rank endp.block < fuel) :
    leaf ∈ leaves env h isInput fuel endp ↔ Resolves env h isInput endp leaf := by
  induction fuel generalizing endp with
  | zero => omega
  | succ fuel ih =>
    unfold leaves
    by_cases isLeaf : Leaf env endp.block
    · rw [if_pos isLeaf, List.mem_singleton]
      constructor
      · rintro rfl
        exact ⟨isLeaf, .here _⟩
      · rintro ⟨-, met⟩
        cases met with
        | here => rfl
        | inside hier _ _ _ => exact absurd isLeaf hier
    · rw [if_neg isLeaf]
      cases detail : h endp.block with
      | none =>
        simp only [List.not_mem_nil, false_iff]
        rintro ⟨last, met⟩
        cases met with
        | here => exact isLeaf last
        | inside _ detail' _ _ => rw [detail] at detail'; cases detail'
      | some d =>
        simp only [List.mem_flatMap]
        constructor
        · rintro ⟨next, target, found⟩
          have below := nested _ d _ detail (mem_members_of_target target)
          obtain ⟨last, met⟩ := (ih (by omega)).mp found
          exact ⟨last, .inside isLeaf detail target met⟩
        · rintro ⟨last, met⟩
          cases met with
          | here => exact absurd last isLeaf
          | inside _ detail' target rest =>
            rw [detail] at detail'
            obtain rfl := Option.some.inj detail'
            have below := nested _ d _ detail (mem_members_of_target target)
            exact ⟨_, target, (ih (by omega)).mpr ⟨last, rest⟩⟩

theorem portTargets_ok : portTargets env owner d port isInput = .ok l ↔
      l = d.targets isInput port ∧ l ≠ [] := by
  unfold portTargets HierDetail.targets
  by_cases input : isInput = true
  · rw [if_pos input, if_pos input]
    split
    · rename_i outside
      have none : (if port < 0 then [] else d.inputs.getD port.toNat []) = [] := by
        split
        · rfl
        · rw [List.getD_eq_getElem?_getD, List.getElem?_eq_none (by omega), Option.getD_none]
      rw [none]
      simp
    · rename_i inside
      rw [if_neg (by omega)]
      split
      · rename_i empty
        rw [empty]
        simp
      · rename_i endps some
        constructor
        · rintro ⟨⟩
          exact ⟨rfl, some⟩
        · rintro ⟨rfl, -⟩
          rfl
  · rw [if_neg input, if_neg input]
    split
    · rename_i outside
      have none : (if port < 0 then [] else (d.outputs.getD port.toNat none).toList) = [] := by
        split
        · rfl
        · rw [List.getD_eq_getElem?_getD, List.getElem?_eq_none (by omega), Option.getD_none]
          rfl
      rw [none]
      simp
    · rename_i inside
      rw [if_neg (by omega)]
      split
      · rename_i empty
        rw [empty]
        simp
      · rename_i endp there
        rw [there, Option.toList_some, Except.ok.injEq]
        constructor
        · rintro rfl
          exact ⟨rfl, List.cons_ne_nil _ _⟩
        · rintro ⟨rfl, -⟩
          rfl

theorem resolvePort_ok {resolve : Endpoint → Except CppException (List Endpoint)} :
    resolvePort env resolve owner d port isInput = .ok l ↔
      d.targets isInput port ≠ [] ∧ l ≠ [] ∧
        ∃ results, (d.targets isInput port).mapM resolve = .ok results ∧ l = results.flatten := by
  constructor
  · intro resolved
    obtain ⟨endps, found, resolved⟩ := bind_ok.mp resolved
    obtain ⟨rfl, some⟩ := portTargets_ok.mp found
    obtain ⟨results, each, resolved⟩ := bind_ok.mp resolved
    refine ⟨some, ?_⟩
    split at resolved
    · cases resolved
    · rename_i nonempty
      obtain rfl := Except.ok.inj resolved
      exact ⟨nonempty, results, each, rfl⟩
  · rintro ⟨some, nonempty, results, each, rfl⟩
    refine bind_ok.mpr ⟨_, portTargets_ok.mpr ⟨rfl, some⟩, bind_ok.mpr ⟨results, each, ?_⟩⟩
    split
    · rename_i empty
      exact absurd empty nonempty
    · rfl

theorem resolveEndpoint_ok (resolved : resolveEndpoint env h isInput fuel endp = .ok l) :
    l = leaves env h isInput fuel endp ∧ l ≠ [] ∧
      ∀ x, Met env h isInput endp x → Exists env h isInput x := by
  induction fuel generalizing endp l with
  | zero => cases resolved
  | succ fuel ih =>
    unfold resolveEndpoint at resolved
    unfold leaves
    by_cases isLeaf : Leaf env endp.block
    · rw [if_pos isLeaf] at resolved ⊢
      obtain rfl := Except.ok.inj resolved
      refine ⟨rfl, List.cons_ne_nil _ _, ?_⟩
      intro x met
      cases met with
      | here => exact Or.inl isLeaf
      | inside hier _ _ _ => exact absurd isLeaf hier
    · rw [if_neg isLeaf] at resolved ⊢
      cases detail : h endp.block with
      | none => rw [detail] at resolved; cases resolved
      | some d =>
        rw [detail] at resolved
        obtain ⟨some, nonempty, results, each, rfl⟩ := resolvePort_ok.mp resolved
        refine ⟨?_, nonempty, ?_⟩
        · dsimp only
          rw [List.flatMap_def]
          exact congrArg List.flatten (mapM_eq_map each fun next _ l found => (ih found).1)
        · intro x met
          cases met with
          | here => exact Or.inr ⟨d, detail, some⟩
          | inside _ detail' target rest =>
            rw [detail] at detail'
            obtain rfl := Option.some.inj detail'
            obtain ⟨l, -, found⟩ := mapM_mem each target
            exact (ih found).2.2 x rest

theorem resolveEndpoint_total (nested : Nesting h rank) (fuel : Nat)
    (enough : rank endp.block < fuel)
    (exist : ∀ x, Met env h isInput endp x → Exists env h isInput x) :
    ∃ l, resolveEndpoint env h isInput fuel endp = .ok l := by
  induction fuel generalizing endp with
  | zero => omega
  | succ fuel ih =>
    unfold resolveEndpoint
    by_cases isLeaf : Leaf env endp.block
    · rw [if_pos isLeaf]
      exact ⟨_, rfl⟩
    · rw [if_neg isLeaf]
      obtain ⟨d, detail, some⟩ := (exist endp (.here endp)).resolve_left isLeaf
      rw [detail]
      obtain ⟨results, each⟩ := mapM_total (l := d.targets isInput endp.port)
        (f := resolveEndpoint env h isInput fuel) (by
          intro next target
          have below := nested _ d _ detail (mem_members_of_target target)
          exact ih (by omega) fun x met => exist x (.inside isLeaf detail target met))
      refine ⟨results.flatten, resolvePort_ok.mpr ⟨some, ?_, results, each, rfl⟩⟩
      obtain ⟨next, rest, targets⟩ := List.exists_cons_of_ne_nil some
      obtain ⟨l, member, found⟩ := mapM_mem each (targets ▸ List.mem_cons_self)
      obtain ⟨x, inside⟩ := List.exists_mem_of_ne_nil l (resolveEndpoint_ok found).2.1
      exact List.ne_nil_of_mem (List.mem_flatten.mpr ⟨l, member, inside⟩)

/-! ## The edges that are connected -/

/-- `gr_flowgraph::connect` of an edge. -/
def connectEdge (env : Blocks) (sfg : Flowgraph) (e : Edge) : Except CppException Flowgraph :=
  sfg.connect env e.src e.dst

/-- The resolved pairs of one edge. -/
def expandEdge (env : Blocks) (h : Hierarchy) (fuel : Nat) (e : Edge) : List Edge :=
  (leaves env h false fuel e.src).flatMap fun s =>
    (leaves env h true fuel e.dst).map fun d => ⟨s, d⟩

/-- The resolved pairs of all edges of a block and of the blocks nested in it. -/
def expand (env : Blocks) (h : Hierarchy) : Nat → BlockId → List Edge
  | 0, _ => []
  | fuel + 1, owner =>
      match h owner with
      | none => []
      | some d => d.fg.edges.flatMap (expandEdge env h fuel) ++
          (uniqueVector d.members).flatMap fun p =>
            if (h p).isSome then expand env h fuel p else []

/-- A hierarchical block nested in another one, or that one itself. -/
inductive Nested (h : Hierarchy) : BlockId → BlockId → Prop
  | here (b : BlockId) : Nested h b b
  | inside {b c last : BlockId} {d : HierDetail} (detail : h b = some d) (member : c ∈ d.members)
      (hier : (h c).isSome = true) (rest : Nested h c last) : Nested h b last

/-- All ports of the hierarchical blocks nested in `top` are connected inside. -/
def PortsConnected (h : Hierarchy) (top : BlockId) : Prop :=
  ∀ b d, Nested h top b → h b = some d → [] ∉ d.inputs ∧ none ∉ d.outputs

/-- All ports that resolving the edges of the blocks nested in `top` comes to exist. -/
def PortsExist (env : Blocks) (h : Hierarchy) (top : BlockId) : Prop :=
  ∀ b d e, Nested h top b → h b = some d → e ∈ d.fg.edges →
    (∀ x, Met env h false e.src x → Exists env h false x) ∧
    ∀ x, Met env h true e.dst x → Exists env h true x

theorem flattenEdge_eq {srcs dsts : List Endpoint}
    (src : resolveEndpoint env h false fuel e.src = .ok srcs)
    (dst : resolveEndpoint env h true fuel e.dst = .ok dsts) (sfg : Flowgraph) :
    flattenEdge env h fuel sfg e = (expandEdge env h fuel e).foldlM (connectEdge env) sfg := by
  unfold flattenEdge expandEdge
  rw [src, dst, ← (resolveEndpoint_ok src).1, ← (resolveEndpoint_ok dst).1, foldlM_flatMap]
  simp only [List.foldlM_map]
  rfl

theorem connectedBlocks_ok {port : List Endpoint × Nat}
    {l : List BlockId} : connectedBlocks env owner direction port = .ok l ↔
      port.1 ≠ [] ∧ l = port.1.map Endpoint.block := by
  unfold connectedBlocks
  split
  · rename_i empty
    simp [empty]
  · rename_i some
    rw [Except.ok.injEq]
    exact ⟨fun same => ⟨some, same.symm⟩, fun both => both.2.symm⟩

theorem mapM_connectedBlocks_ok {r : List (List BlockId)}
    (found : table.zipIdx.mapM (connectedBlocks env owner direction) = .ok r) :
    r.flatten = table.flatMap (·.map Endpoint.block) ∧ [] ∉ table := by
  constructor
  · rw [mapM_eq_map (g := fun port => port.1.map Endpoint.block) found
      fun port _ l same => (connectedBlocks_ok.mp same).2, List.flatMap_def]
    conv_rhs => rw [← List.zipIdx_map_fst 0 table]
    rw [List.map_map]
    rfl
  · intro empty
    obtain ⟨i, inside, same⟩ := List.mem_iff_getElem.mp empty
    have member : ([], i) ∈ table.zipIdx := by
      rw [List.mem_zipIdx_iff_getElem?, ← same]
      exact List.getElem?_eq_getElem inside
    obtain ⟨l, -, found⟩ := mapM_mem found member
    exact (connectedBlocks_ok.mp found).1 rfl

theorem mapM_connectedBlocks_total (connected : [] ∉ table) :
    ∃ r, table.zipIdx.mapM (connectedBlocks env owner direction) = .ok r := by
  apply mapM_total
  rintro ⟨endps, i⟩ member
  refine ⟨_, connectedBlocks_ok.mpr ⟨?_, rfl⟩⟩
  rintro rfl
  exact connected (List.mem_of_getElem? (List.mem_zipIdx_iff_getElem?.mp member))

theorem nil_mem_map_toList {l : List (Option Endpoint)} : [] ∈ l.map Option.toList ↔ none ∈ l := by
  simp

theorem portBlocks_ok {ports : List BlockId} (found : portBlocks env owner d = .ok ports) :
    d.fg.calcUsedBlocks ++ d.blocks ++ ports = d.members ∧ [] ∉ d.inputs ∧ none ∉ d.outputs := by
  obtain ⟨inputs, eachInput, found⟩ := bind_ok.mp found
  obtain ⟨outputs, eachOutput, same⟩ := bind_ok.mp found
  obtain rfl := pure_ok.mp same
  obtain ⟨ins, noInput⟩ := mapM_connectedBlocks_ok eachInput
  obtain ⟨outs, noOutput⟩ := mapM_connectedBlocks_ok eachOutput
  refine ⟨?_, noInput, fun empty => noOutput (nil_mem_map_toList.mpr empty)⟩
  rw [ins, outs, HierDetail.members]

theorem portBlocks_total (inputs : [] ∉ d.inputs) (outputs : none ∉ d.outputs) :
    ∃ ports, portBlocks env owner d = .ok ports := by
  obtain ⟨ins, eachInput⟩ := mapM_connectedBlocks_total inputs
  obtain ⟨outs, eachOutput⟩ :=
    mapM_connectedBlocks_total fun empty => outputs (nil_mem_map_toList.mp empty)
  exact ⟨_, bind_ok.mpr ⟨ins, eachInput, bind_ok.mpr ⟨outs, eachOutput, rfl⟩⟩⟩

/-- Flattening connects the expanded edges one after another. -/
theorem flattenAux_eq (nested : Nesting h rank) (fuel : Nat) (enough : rank owner < fuel)
    (hier : (h owner).isSome = true) (connected : PortsConnected h owner)
    (exist : PortsExist env h owner) (sfg : Flowgraph) :
    flattenAux env h fuel owner sfg = (expand env h fuel owner).foldlM (connectEdge env) sfg := by
  induction fuel generalizing owner sfg with
  | zero => omega
  | succ fuel ih =>
    obtain ⟨d, detail⟩ := Option.isSome_iff_exists.mp hier
    have edges : ∀ sfg, ∀ e ∈ d.fg.edges, flattenEdge env h fuel sfg e =
        (expandEdge env h fuel e).foldlM (connectEdge env) sfg := by
      intro sfg e member
      obtain ⟨src, dst⟩ := exist owner d e (.here owner) detail member
      have inside := mem_members_of_edge member
      have srcBelow := nested owner d _ detail inside.1
      have dstBelow := nested owner d _ detail inside.2
      obtain ⟨srcs, srcResolved⟩ := resolveEndpoint_total nested fuel (by omega) src
      obtain ⟨dsts, dstResolved⟩ := resolveEndpoint_total nested fuel (by omega) dst
      exact flattenEdge_eq srcResolved dstResolved sfg
    have children : ∀ sfg, ∀ p ∈ uniqueVector d.members,
        (if (h p).isSome then flattenAux env h fuel p sfg else .ok sfg) =
          (if (h p).isSome then expand env h fuel p else []).foldlM (connectEdge env) sfg := by
      intro sfg p member
      rw [mem_uniqueVector] at member
      split
      · rename_i child
        have below := nested owner d p detail member
        exact ih (by omega) child
          (fun b d' inner => connected b d' (.inside detail member child inner))
          (fun b d' e inner => exist b d' e (.inside detail member child inner)) sfg
      · rfl
    obtain ⟨ports, found⟩ := portBlocks_total
      (connected owner d (.here owner) detail).1 (connected owner d (.here owner) detail).2
    unfold flattenAux expand
    rw [detail]
    dsimp only
    rw [List.foldlM_append, foldlM_flatMap, ← foldlM_congr edges]
    congr 1
    funext sfg
    rw [found, foldlM_flatMap, ← foldlM_congr children, ← (portBlocks_ok found).1]
    rfl

theorem portsExist_of_flattenAux (flattened : flattenAux env h fuel owner sfg = .ok fg') :
    PortsExist env h owner := by
  induction fuel generalizing owner sfg fg' with
  | zero => cases flattened
  | succ fuel ih =>
    unfold flattenAux at flattened
    split at flattened
    · cases flattened
    · rename_i d detail
      obtain ⟨mid, edges, flattened⟩ := bind_ok.mp flattened
      obtain ⟨ports, found, children⟩ := bind_ok.mp flattened
      rw [(portBlocks_ok found).1] at children
      intro b d' e inner detail' member
      cases inner with
      | here =>
        rw [detail] at detail'
        obtain rfl := Option.some.inj detail'
        obtain ⟨s, t, flat⟩ := foldlM_mem edges member
        obtain ⟨srcs, src, flat⟩ := bind_ok.mp flat
        obtain ⟨dsts, dst, -⟩ := bind_ok.mp flat
        exact ⟨(resolveEndpoint_ok src).2.2, (resolveEndpoint_ok dst).2.2⟩
      | inside detail₀ child hier rest =>
        rw [detail] at detail₀
        obtain rfl := Option.some.inj detail₀
        obtain ⟨s, t, flat⟩ := foldlM_mem children (mem_uniqueVector.mpr child)
        rw [if_pos hier] at flat
        exact ih flat b d' e rest detail' member

/-! ## The checks of `connect` -/

/-- The ports of a resolved pair are valid and have the same item size. -/
def Compatible (env : Blocks) (e : Edge) : Prop :=
  Flowgraph.checkValidPort (env e.src.block).outputSignature e.src.port = .ok () ∧
  Flowgraph.checkValidPort (env e.dst.block).inputSignature e.dst.port = .ok () ∧
  Flowgraph.checkTypeMatch env e.src e.dst = .ok ()

theorem connectEdge_ok :
    connectEdge env sfg e = .ok fg' ↔ Compatible env e ∧ e.dst ∉ sfg.edges.map Edge.dst ∧
      fg' = { sfg with edges := sfg.edges ++ [e] } := by
  constructor
  · intro connected
    obtain ⟨_, srcPort, connected⟩ := bind_ok.mp connected
    obtain ⟨_, dstPort, connected⟩ := bind_ok.mp connected
    obtain ⟨_, unused, connected⟩ := bind_ok.mp connected
    obtain ⟨_, types, connected⟩ := bind_ok.mp connected
    exact ⟨⟨srcPort, dstPort, types⟩, Flowgraph.checkDstNotUsed_ok unused,
      (pure_ok.mp connected).symm⟩
  · rintro ⟨⟨srcPort, dstPort, types⟩, unused, rfl⟩
    refine bind_ok.mpr ⟨(), srcPort, bind_ok.mpr ⟨(), dstPort, bind_ok.mpr ⟨(), ?_,
      bind_ok.mpr ⟨(), types, rfl⟩⟩⟩⟩
    unfold Flowgraph.checkDstNotUsed
    have none : sfg.edges.find? (fun e' => e'.dst = e.dst) = none := by
      rw [List.find?_eq_none]
      intro e' member
      have other : e'.dst ≠ e.dst := fun same => unused (same ▸ List.mem_map_of_mem member)
      simpa using other
    rw [none]

theorem foldlM_connectEdge_ok {l : List Edge} (start : (sfg.edges.map Edge.dst).Nodup) :
    l.foldlM (connectEdge env) sfg = .ok fg' ↔ (∀ e ∈ l, Compatible env e) ∧
      ((sfg.edges ++ l).map Edge.dst).Nodup ∧ fg' = { sfg with edges := sfg.edges ++ l } := by
  induction l generalizing sfg with
  | nil =>
    simp only [List.foldlM_nil, List.append_nil]
    rw [pure_ok]
    exact ⟨fun same => ⟨by simp, start, same.symm⟩, fun all => all.2.2.symm⟩
  | cons e l ih =>
    rw [foldlM_cons_ok]
    constructor
    · rintro ⟨mid, first, rest⟩
      obtain ⟨compatible, unused, rfl⟩ := connectEdge_ok.mp first
      have distinct : ((sfg.edges ++ [e]).map Edge.dst).Nodup := by
        rw [List.map_append, List.nodup_append]
        refine ⟨start, List.nodup_singleton _, ?_⟩
        intro a old b new
        obtain rfl := List.mem_singleton.mp new
        rintro rfl
        exact unused old
      obtain ⟨others, nodup, rfl⟩ := (ih distinct).mp rest
      rw [List.append_assoc, List.singleton_append] at nodup
      refine ⟨?_, nodup, ?_⟩
      · intro e' member
        rcases List.mem_cons.mp member with rfl | member
        · exact compatible
        · exact others e' member
      · simp
    · rintro ⟨compatible, nodup, rfl⟩
      have split : sfg.edges ++ e :: l = (sfg.edges ++ [e]) ++ l := by simp
      rw [split] at nodup
      have distinct : ((sfg.edges ++ [e]).map Edge.dst).Nodup := by
        rw [List.map_append] at nodup
        exact nodup.of_append_left
      have unused : e.dst ∉ sfg.edges.map Edge.dst := by
        rw [List.map_append, List.nodup_append] at distinct
        exact fun old => distinct.2.2 _ old _ List.mem_cons_self rfl
      refine ⟨_, connectEdge_ok.mpr ⟨compatible e List.mem_cons_self, unused, rfl⟩, ?_⟩
      refine (ih distinct).mpr
        ⟨fun e' member => compatible e' (List.mem_cons_of_mem e member), nodup, ?_⟩
      rw [split]

/-! ## What flattening throws -/

/-- A standard exception with a message. -/
def Thrown (e : CppException) : Prop :=
  (∃ what, e = .invalidArgument what) ∨ ∃ what, e = .runtimeError what

theorem raises_invalidArgument {α : Type} (what : String) :
    Raises Thrown (.error (.invalidArgument what) : Except CppException α) :=
  raises_error (Or.inl ⟨what, rfl⟩)

theorem raises_runtimeError {α : Type} (what : String) :
    Raises Thrown (.error (.runtimeError what) : Except CppException α) :=
  raises_error (Or.inr ⟨what, rfl⟩)

theorem raises_connect (sfg : Flowgraph) (src dst : Endpoint) :
    Raises Thrown (sfg.connect env src dst) := by
  have port : ∀ sig p, Raises Thrown (Flowgraph.checkValidPort sig p) := by
    intro sig p
    unfold Flowgraph.checkValidPort
    split
    · exact raises_invalidArgument _
    · split
      · exact raises_invalidArgument _
      · exact raises_ok _ _
  have size : ∀ (sig : IoSignature) i, Raises Thrown (sig.sizeofStreamItem i) := by
    intro sig i
    unfold IoSignature.sizeofStreamItem
    split
    · exact raises_invalidArgument _
    · exact raises_ok _ _
  have unused : Raises Thrown (sfg.checkDstNotUsed env dst) := by
    unfold Flowgraph.checkDstNotUsed
    split
    · exact raises_invalidArgument _
    · exact raises_ok _ _
  have types : Raises Thrown (Flowgraph.checkTypeMatch env src dst) := by
    refine raises_bind (size _ _) fun a _ => raises_bind (size _ _) fun b _ => ?_
    split
    · exact raises_invalidArgument _
    · exact raises_ok _ _
  exact raises_bind (port _ _) fun _ _ => raises_bind (port _ _) fun _ _ =>
    raises_bind unused fun _ _ => raises_bind types fun _ _ => raises_ok _ _

theorem raises_portTargets : Raises Thrown (portTargets env owner d port isInput) := by
  unfold portTargets
  split
  · split
    · exact raises_runtimeError _
    · split
      · exact raises_runtimeError _
      · exact raises_ok _ _
  · split
    · exact raises_runtimeError _
    · split
      · exact raises_runtimeError _
      · exact raises_ok _ _

theorem raises_resolveEndpoint (nested : Nesting h rank) (fuel : Nat)
    (enough : rank endp.block < fuel) :
    Raises Thrown (resolveEndpoint env h isInput fuel endp) := by
  induction fuel generalizing endp with
  | zero => omega
  | succ fuel ih =>
    unfold resolveEndpoint
    split
    · exact raises_ok _ _
    · split
      · exact raises_runtimeError _
      · rename_i d detail
        refine raises_bind raises_portTargets fun endps found => ?_
        obtain ⟨rfl, -⟩ := portTargets_ok.mp found
        refine raises_bind (raises_mapM fun next target => ?_) fun results _ => ?_
        · have below := nested _ d _ detail (mem_members_of_target target)
          exact ih (by omega)
        · split
          · exact raises_runtimeError _
          · exact raises_ok _ _

theorem raises_flattenAux (nested : Nesting h rank) (fuel : Nat) (enough : rank owner < fuel)
    (hier : (h owner).isSome = true) (sfg : Flowgraph) :
    Raises Thrown (flattenAux env h fuel owner sfg) := by
  induction fuel generalizing owner sfg with
  | zero => omega
  | succ fuel ih =>
    obtain ⟨d, detail⟩ := Option.isSome_iff_exists.mp hier
    unfold flattenAux
    rw [detail]
    dsimp only
    have edge : ∀ sfg, ∀ e ∈ d.fg.edges, Raises Thrown (flattenEdge env h fuel sfg e) := by
      intro sfg e member
      have inside := mem_members_of_edge member
      have srcBelow := nested owner d _ detail inside.1
      have dstBelow := nested owner d _ detail inside.2
      refine raises_bind (raises_resolveEndpoint nested fuel (by omega)) fun srcs _ => ?_
      refine raises_bind (raises_resolveEndpoint nested fuel (by omega)) fun dsts _ => ?_
      exact raises_foldlM (fun sfg s _ => raises_foldlM (fun sfg t _ => raises_connect _ _ _) sfg) sfg
    have port : ∀ direction p, Raises Thrown (connectedBlocks env owner direction p) := by
      intro direction p
      unfold connectedBlocks
      split
      · exact raises_runtimeError _
      · exact raises_ok _ _
    have ports : Raises Thrown (portBlocks env owner d) :=
      raises_bind (raises_mapM fun p _ => port _ p) fun _ _ =>
        raises_bind (raises_mapM fun p _ => port _ p) fun _ _ => raises_ok _ _
    refine raises_bind (raises_foldlM edge sfg) fun mid _ => raises_bind ports fun bs found => ?_
    rw [(portBlocks_ok found).1]
    refine raises_foldlM (fun sfg p member => ?_) mid
    split
    · rename_i child
      have below := nested owner d p detail (mem_uniqueVector.mp member)
      exact ih (by omega) child sfg
    · exact raises_ok _ _

/-! ## The flat flowgraph -/

/-- An edge of a block nested in `top`, with both ends resolved to leaves. -/
def Wired (env : Blocks) (h : Hierarchy) (top : BlockId) (e : Edge) : Prop :=
  ∃ b d e₀, Nested h top b ∧ h b = some d ∧ e₀ ∈ d.fg.edges ∧
    Resolves env h false e₀.src e.src ∧ Resolves env h true e₀.dst e.dst

theorem mem_expand (nested : Nesting h rank) (fuel : Nat) (enough : rank owner < fuel) :
    e ∈ expand env h fuel owner ↔ Wired env h owner e := by
  induction fuel generalizing owner with
  | zero => omega
  | succ fuel ih =>
    unfold expand
    cases detail : h owner with
    | none =>
      simp only [List.not_mem_nil, false_iff]
      rintro ⟨b, d, e₀, inner, detail', -⟩
      cases inner with
      | here => rw [detail] at detail'; cases detail'
      | inside detail₀ _ _ _ => rw [detail] at detail₀; cases detail₀
    | some d =>
      have edge : ∀ e₀ ∈ d.fg.edges, (e ∈ expandEdge env h fuel e₀ ↔
          Resolves env h false e₀.src e.src ∧ Resolves env h true e₀.dst e.dst) := by
        intro e₀ member
        have inside := mem_members_of_edge member
        have srcBelow := nested owner d _ detail inside.1
        have dstBelow := nested owner d _ detail inside.2
        rw [← mem_leaves nested fuel (by omega), ← mem_leaves nested fuel (by omega)]
        simp only [expandEdge, List.mem_flatMap, List.mem_map]
        constructor
        · rintro ⟨s, src, t, dst, rfl⟩
          exact ⟨src, dst⟩
        · rintro ⟨src, dst⟩
          exact ⟨e.src, src, e.dst, dst, rfl⟩
      simp only [List.mem_append, List.mem_flatMap, mem_uniqueVector]
      constructor
      · rintro (⟨e₀, member, found⟩ | ⟨p, member, found⟩)
        · obtain ⟨src, dst⟩ := (edge e₀ member).mp found
          exact ⟨owner, d, e₀, .here owner, detail, member, src, dst⟩
        · split at found
          · rename_i hier
            have below := nested owner d p detail member
            obtain ⟨b, d', e₀, inner, rest⟩ := (ih (by omega)).mp found
            exact ⟨b, d', e₀, .inside detail member hier inner, rest⟩
          · cases found
      · rintro ⟨b, d', e₀, inner, detail', member, src, dst⟩
        cases inner with
        | here =>
          rw [detail] at detail'
          obtain rfl := Option.some.inj detail'
          exact Or.inl ⟨e₀, member, (edge e₀ member).mpr ⟨src, dst⟩⟩
        | inside detail₀ child hier rest =>
          rw [detail] at detail₀
          obtain rfl := Option.some.inj detail₀
          have below := nested owner d _ detail child
          refine Or.inr ⟨_, child, ?_⟩
          rw [if_pos hier]
          exact (ih (by omega)).mpr ⟨b, d', e₀, rest, detail', member, src, dst⟩

/-- Flattening yields the resolved edges, each once, or throws: it succeeds exactly when all ports
it comes to exist, all resolved pairs are compatible, and no leaf input is used twice. -/
theorem flatten_correct (nested : Nesting h rank) {fuel : Nat} {top : BlockId}
    (enough : rank top < fuel) (hier : (h top).isSome = true) (connected : PortsConnected h top) :
    ((∃ fg', flattenAux env h fuel top .empty = .ok fg') ↔
      PortsExist env h top ∧ (∀ e, Wired env h top e → Compatible env e) ∧
        ((expand env h fuel top).map Edge.dst).Nodup) ∧
    (∀ fg', flattenAux env h fuel top .empty = .ok fg' →
      (∀ e, e ∈ fg'.edges ↔ Wired env h top e) ∧ fg'.edges.Nodup ∧
        (fg'.edges.map Edge.dst).Nodup) ∧
    ∀ err, flattenAux env h fuel top .empty = .error err → Thrown err := by
  have start : (Flowgraph.empty.edges.map Edge.dst).Nodup := List.nodup_nil
  have whole : ∀ fg', flattenAux env h fuel top .empty = .ok fg' ↔ PortsExist env h top ∧
      (∀ e, Wired env h top e → Compatible env e) ∧
      ((expand env h fuel top).map Edge.dst).Nodup ∧
      fg' = { Flowgraph.empty with edges := expand env h fuel top } := by
    intro fg'
    simp only [← mem_expand nested fuel enough]
    constructor
    · intro flattened
      have exist := portsExist_of_flattenAux flattened
      rw [flattenAux_eq nested fuel enough hier connected exist,
        foldlM_connectEdge_ok start] at flattened
      exact ⟨exist, flattened⟩
    · rintro ⟨exist, rest⟩
      rw [flattenAux_eq nested fuel enough hier connected exist, foldlM_connectEdge_ok start]
      exact rest
  refine ⟨⟨?_, ?_⟩, ?_, fun err thrown => raises_flattenAux nested fuel enough hier _ err thrown⟩
  · rintro ⟨fg', flattened⟩
    obtain ⟨exist, compatible, nodup, -⟩ := (whole fg').mp flattened
    exact ⟨exist, compatible, nodup⟩
  · rintro ⟨exist, compatible, nodup⟩
    exact ⟨_, (whole _).mpr ⟨exist, compatible, nodup, rfl⟩⟩
  · intro fg' flattened
    obtain ⟨-, -, nodup, rfl⟩ := (whole fg').mp flattened
    exact ⟨fun e => mem_expand nested fuel enough, nodup.of_map _, nodup⟩

/-! ## A sink behind a hierarchical input -/

/-- A sink with one input of items of this size. -/
def sinkOf (size : Nat) (pos : 0 < size) : BasicBlock :=
  BasicBlock.leaf "sink" 1 0 GrBlock.initial size pos

/-- A top block 0, a source 1 of 4-byte items, a hierarchical block 2 with one input for them
and a sink 3. -/
def tapBlocks (sink : BasicBlock) : Blocks := fun b =>
  if b = 0 then BasicBlock.hier "top" 0 0 4 sizeofFloat_pos
  else if b = 1 then
    BasicBlock.leaf "source" 0 1 GrBlock.initial 4 sizeofFloat_pos
  else if b = 2 then BasicBlock.hier "hier" 1 0 4 sizeofFloat_pos
  else sink

/-- The details of the two hierarchical blocks when nothing is connected. -/
def tapHierarchy (sink : BasicBlock) : Hierarchy := fun b =>
  if b = 0 ∨ b = 2 then (HierDetail.make (tapBlocks sink) b (b = 0)).toOption else none

/-- The sink is connected to the input of the hierarchical block, and that to the source. -/
def tapConnects (sink : BasicBlock) : HierProgram Unit := do
  connect (tapBlocks sink) 2 ⟨2, 0⟩ ⟨3, 0⟩
  connect (tapBlocks sink) 0 ⟨1, 0⟩ ⟨2, 0⟩

/-- The details after that. -/
def tapConnected : Hierarchy := fun b =>
  if b = 0 then some ⟨true, none, ⟨[], [⟨⟨1, 0⟩, ⟨2, 0⟩⟩]⟩, [], [], []⟩
  else if b = 2 then some ⟨false, some 0, .empty, [[⟨3, 0⟩]], [], []⟩
  else none

/-- How deep the blocks of the example are nested. -/
def tapRank (b : BlockId) : Nat := if b = 0 then 2 else if b = 2 then 1 else 0

theorem tapConnects_returns (sink : BasicBlock) :
    Program.Returns (tapConnects sink) (tapHierarchy sink) () tapConnected := by
  refine Prod.ext rfl ?_
  funext b
  by_cases top : b = 0
  · subst top
    rfl
  by_cases hier : b = 2
  · subst hier
    rfl
  have none : tapConnected b = none := by rw [tapConnected, if_neg top, if_neg hier]
  change Function.update (Function.update (Function.update (tapHierarchy sink) 2 _) 2 _) 0 _ b =
    tapConnected b
  rw [none, Function.update_of_ne top, Function.update_of_ne hier, Function.update_of_ne hier,
    tapHierarchy, if_neg (by simp [top, hier])]

theorem tapConnected_some {b : BlockId} (detail : tapConnected b = some d) :
    (∀ c ∈ d.members, tapRank c < tapRank b) ∧ [] ∉ d.inputs ∧ none ∉ d.outputs := by
  unfold tapConnected at detail
  split at detail
  · rename_i top
    subst top
    obtain rfl := Option.some.inj detail
    decide +kernel
  · split at detail
    · rename_i hier
      subst hier
      obtain rfl := Option.some.inj detail
      decide +kernel
    · cases detail

/-- Both connections are accepted and all ports are connected, but flattening throws. -/
theorem flatten_itemsize_mismatch :
    Program.Returns (tapConnects (sinkOf 8 (by decide))) (tapHierarchy (sinkOf 8 (by decide))) ()
      tapConnected ∧
    Nesting tapConnected tapRank ∧ (tapConnected 0).isSome = true ∧ PortsConnected tapConnected 0 ∧
    flattenAux (tapBlocks (sinkOf 8 (by decide))) tapConnected 3 0 .empty =
      .error (.invalidArgument "itemsize mismatch: source(1):0 using 4, sink(3):0 using 8") :=
  ⟨tapConnects_returns _, fun _ _ c detail => (tapConnected_some detail).1 c, rfl,
    fun _ _ _ detail => (tapConnected_some detail).2, by decide +kernel⟩

/-- With a sink of 4-byte items the source is connected to the sink. -/
theorem flatten_correct_tap :
    flattenAux (tapBlocks (sinkOf 4 sizeofFloat_pos)) tapConnected 3 0 .empty =
      .ok ⟨[], [⟨⟨1, 0⟩, ⟨3, 0⟩⟩]⟩ ∧
    (∀ e, e ∈ [(⟨⟨1, 0⟩, ⟨3, 0⟩⟩ : Edge)] ↔
      Wired (tapBlocks (sinkOf 4 sizeofFloat_pos)) tapConnected 0 e) := by
  have flattened : flattenAux (tapBlocks (sinkOf 4 sizeofFloat_pos)) tapConnected 3 0 .empty =
      .ok ⟨[], [⟨⟨1, 0⟩, ⟨3, 0⟩⟩]⟩ := by decide +kernel
  exact ⟨flattened, ((flatten_correct (fun _ _ c detail => (tapConnected_some detail).1 c)
    (by decide) rfl fun _ _ _ detail => (tapConnected_some detail).2).2.1 _ flattened).1⟩

end Hierarchy

end GnuRadio
