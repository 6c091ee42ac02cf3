import GnuRadio.Runtime.ParentLinks

/-!
# Calls that throw and the parent links

`connect` and `disconnect` set the parents of both blocks before anything is
checked, and do not set them back when a check throws. Everything else is checked
before it is changed.
-/

namespace GnuRadio.Hierarchy

variable {env : Blocks} {h h' : Hierarchy}

theorem readOnly_getDetail (b : BlockId) : (getDetail b).ReadOnly := by
  refine Program.readOnly_get.bind ?_
  intro h
  split
  · exact Program.readOnly_throw _
  · exact Program.readOnly_pure _

theorem atomic_connectInput (owner : BlockId) (port : Int) (endp : Endpoint) :
    (connectInput env owner port endp).Atomic := by
  refine (readOnly_getDetail owner).bind_atomic ?_
  intro d
  split
  · exact (Program.readOnly_throw _).atomic
  · dsimp only
    split
    · exact (Program.readOnly_throw _).atomic
    · exact Program.atomic_modify _

theorem atomic_connectOutput (owner : BlockId) (port : Int) (endp : Endpoint) :
    (connectOutput env owner port endp).Atomic := by
  refine (readOnly_getDetail owner).bind_atomic ?_
  intro d
  split
  · exact (Program.readOnly_throw _).atomic
  · split
    · exact (Program.readOnly_throw _).atomic
    · exact Program.atomic_modify _

theorem atomic_disconnectInput (owner : BlockId) (port : Int) (endp : Endpoint) :
    (disconnectInput env owner port endp).Atomic := by
  refine (readOnly_getDetail owner).bind_atomic ?_
  intro d
  split
  · exact (Program.readOnly_throw _).atomic
  · dsimp only
    split
    · exact Program.atomic_modify _
    · exact (Program.readOnly_throw _).atomic

theorem atomic_disconnectOutput (owner : BlockId) (port : Int) (endp : Endpoint) :
    (disconnectOutput env owner port endp).Atomic := by
  refine (readOnly_getDetail owner).bind_atomic ?_
  intro d
  split
  · exact (Program.readOnly_throw _).atomic
  · split
    · exact (Program.readOnly_throw _).atomic
    · exact Program.atomic_modify _

theorem atomic_fg (owner : BlockId) (f : Flowgraph → Except CppException Flowgraph) :
    Program.Atomic (do
      let d ← getDetail owner
      let fg ← MonadExcept.ofExcept (f d.fg)
      setDetail owner { d with fg := fg }) := by
  refine (readOnly_getDetail owner).bind_atomic ?_
  intro d
  refine (Program.readOnly_ofExcept _).bind_atomic ?_
  intro fg
  exact Program.atomic_modify _

/-- The two calls on a source and a destination port. -/
inductive PortCall where
  | connect
  | disconnect
  deriving DecidableEq, Repr

def PortCall.program (env : Blocks) (owner : BlockId) (src dst : Endpoint) :
    PortCall → HierProgram Unit
  | .connect => Hierarchy.connect env owner src dst
  | .disconnect => Hierarchy.disconnect env owner src dst

/-- The parent that a call gives to both blocks. -/
def PortCall.parent (owner : BlockId) : PortCall → Option BlockId
  | .connect => some owner
  | .disconnect => none

/-- The part of a call that follows the change of the links. -/
def PortCall.tables (env : Blocks) (owner : BlockId) (src dst : Endpoint) :
    PortCall → HierProgram Unit
  | .connect => connectTables env owner src dst
  | .disconnect => disconnectTables env owner src dst

theorem PortCall.atomic_tables (call : PortCall) (owner : BlockId) (src dst : Endpoint) :
    (call.tables env owner src dst).Atomic := by
  cases call with
  | connect =>
    rw [PortCall.tables, connectTables]
    split
    · split
      · exact (Program.readOnly_throw _).atomic
      · exact atomic_connectInput owner src.port dst
    split
    · split
      · exact (Program.readOnly_throw _).atomic
      · exact atomic_connectOutput owner dst.port src
    · exact atomic_fg owner fun fg => fg.connect env src dst
  | disconnect =>
    rw [PortCall.tables, disconnectTables]
    split
    · exact atomic_disconnectInput owner src.port dst
    split
    · exact atomic_disconnectOutput owner dst.port src
    · exact atomic_fg owner fun fg => fg.disconnect env src dst

variable {src dst : Endpoint} {owner : BlockId}

theorem PortCall.program_eq (call : PortCall) (owner : BlockId)
    (different : src.block ≠ dst.block) :
    call.program env owner src dst =
      (do
        setParent owner (call.parent owner) src.block
        setParent owner (call.parent owner) dst.block
        call.tables env owner src dst) := by
  cases call with
  | connect => exact if_neg different
  | disconnect => exact if_neg different

theorem relink_relink {parent : Option BlockId} {one two : List BlockId} :
    relink (relink h owner parent one) owner parent two = relink h owner parent (one ++ two) := by
  funext b
  unfold relink
  simp only [List.mem_append]
  by_cases itself : b = owner
  · simp [itself]
  by_cases first : b ∈ one
  · cases h b <;> simp [first, itself]
  · simp [first]

theorem PortCall.raised (call : PortCall) {e : CppException}
    (thrown : (call.program env owner src dst).exec h = (.error e, h')) :
    h' = if src.block = dst.block then h
      else relink h owner (call.parent owner) [src.block, dst.block] := by
  split
  · rename_i same
    cases call with
    | connect =>
      rw [PortCall.program, Hierarchy.connect, if_pos same] at thrown
      exact (Prod.mk.inj thrown).2.symm
    | disconnect =>
      rw [PortCall.program, Hierarchy.disconnect, if_pos same] at thrown
      exact (Prod.mk.inj thrown).2.symm
  · rename_i different
    rw [call.program_eq owner different, Program.exec_bind, returns_setParent.mpr rfl] at thrown
    dsimp only at thrown
    rw [Program.exec_bind, returns_setParent.mpr rfl, relink_relink] at thrown
    exact call.atomic_tables owner src dst _ _ _ thrown

/-- What a call should leave alone when it throws: the tables of the detail, and the parents of the
two blocks. -/
structure Kept (h h' : Hierarchy) (owner : BlockId) (src dst : Endpoint) : Prop where
  fg : (h' owner).map HierDetail.fg = (h owner).map HierDetail.fg
  inputs : (h' owner).map HierDetail.inputs = (h owner).map HierDetail.inputs
  outputs : (h' owner).map HierDetail.outputs = (h owner).map HierDetail.outputs
  blocks : (h' owner).map HierDetail.blocks = (h owner).map HierDetail.blocks
  src_parent : (h' src.block).map HierDetail.parent = (h src.block).map HierDetail.parent
  dst_parent : (h' dst.block).map HierDetail.parent = (h dst.block).map HierDetail.parent

/-- The block is the owner, or not hierarchical, or has this parent already. -/
def HasParent (h : Hierarchy) (owner : BlockId) (parent : Option BlockId) (b : BlockId) : Prop :=
  b = owner ∨ ∀ d, h b = some d → d.parent = parent

theorem relink_kept_iff {owner b : BlockId} {parent : Option BlockId} {touched : List BlockId}
    (member : b ∈ touched) :
    (relink h owner parent touched b).map HierDetail.parent = (h b).map HierDetail.parent ↔
      HasParent h owner parent b := by
  unfold relink HasParent
  by_cases itself : b = owner
  · simp [itself]
  · rw [if_pos ⟨member, itself⟩]
    cases h b with
    | none => simp
    | some d => simp [itself, eq_comm]

/-- **On error.** A call that throws leaves everything as it was if and only if it is on one block,
or the parents of both blocks are already those that the call sets. -/
theorem port_call_kept_iff (call : PortCall) {owner : BlockId} {src dst : Endpoint}
    {e : CppException} (thrown : (call.program env owner src dst).exec h = (.error e, h')) :
    Kept h h' owner src dst ↔ src.block = dst.block ∨
      HasParent h owner (call.parent owner) src.block ∧
        HasParent h owner (call.parent owner) dst.block := by
  have left := call.raised thrown
  by_cases same : src.block = dst.block
  · rw [if_pos same] at left
    subst left
    simp only [same, true_or, iff_true]
    exact ⟨rfl, rfl, rfl, rfl, rfl, rfl⟩
  · rw [if_neg same] at left
    subst left
    simp only [same, false_or]
    have srcParent := @relink_kept_iff h owner src.block (call.parent owner) _
      (List.mem_cons_self : src.block ∈ [src.block, dst.block])
    have dstParent := @relink_kept_iff h owner dst.block (call.parent owner) _
      (List.mem_cons_of_mem _ (List.mem_singleton_self _) : dst.block ∈ [src.block, dst.block])
    constructor
    · intro kept
      exact ⟨srcParent.mp kept.src_parent, dstParent.mp kept.dst_parent⟩
    · rintro ⟨srcHas, dstHas⟩
      refine ⟨?_, ?_, ?_, ?_, srcParent.mpr srcHas, dstParent.mpr dstHas⟩
      all_goals rw [relink_owner]

/-! ## Calls that throw -/

/-- A top block 0, a hierarchical block 1 with an output, a sink 2 and a source 3. -/
def smallBlocks : Blocks := fun b =>
  if b = 0 then BasicBlock.hier "top" 0 0 4 sizeofFloat_pos
  else if b = 1 then BasicBlock.hier "hier" 0 1 4 sizeofFloat_pos
  else if b = 2 then BasicBlock.leaf "sink" 1 0 GrBlock.initial 4 sizeofFloat_pos
  else BasicBlock.leaf "source" 0 1 GrBlock.initial 4 sizeofFloat_pos

/-- The details of the two hierarchical blocks when nothing is connected. -/
def smallHierarchy : Hierarchy := fun b =>
  if b ≤ 1 then (HierDetail.make smallBlocks b (b = 0)).toOption else none

/-- There is no output 5, but the parent of the hierarchical block was set. -/
theorem connect_sets_parent_and_throws :
    ∃ what h', (PortCall.connect.program smallBlocks 0 ⟨1, 5⟩ ⟨2, 0⟩).exec smallHierarchy =
        (.error (.invalidArgument what), h') ∧
      ¬Kept smallHierarchy h' 0 ⟨1, 5⟩ ⟨2, 0⟩ := by
  refine ⟨_, _, rfl, ?_⟩
  intro kept
  have parent := kept.src_parent
  revert parent
  decide

/-- Between two leaves nothing is changed. -/
theorem port_call_kept_leaves :
    ∃ e h', (PortCall.connect.program smallBlocks 0 ⟨3, 5⟩ ⟨2, 0⟩).exec smallHierarchy =
        (.error e, h') ∧
      Kept smallHierarchy h' 0 ⟨3, 5⟩ ⟨2, 0⟩ := by
  obtain ⟨e, h', thrown⟩ : ∃ e h', (PortCall.connect.program smallBlocks 0 ⟨3, 5⟩ ⟨2, 0⟩).exec
      smallHierarchy = (.error e, h') := ⟨_, _, rfl⟩
  refine ⟨e, h', thrown, (port_call_kept_iff .connect thrown).mpr (.inr ⟨.inr ?_, .inr ?_⟩)⟩
  all_goals
    intro d detail
    cases detail

end GnuRadio.Hierarchy

/-!
## Calls behind `disconnect_all`

`disconnect_all` clears the port tables with the connections, and the constructor
is the only place that gives them a size. What a detail does depends on nothing
but the tables of the details, so a block without ports is as new behind the call,
and every other block is not.
-/

namespace GnuRadio

/-- The tables of a detail alone. -/
def HierDetail.tables (d : HierDetail) : HierDetail := { d with topBlock := false, parent := none }

namespace Hierarchy

open Program

/-- The same blocks are hierarchical, with the same tables. -/
def SameTables (h h' : Hierarchy) : Prop :=
  ∀ b, (h b).map HierDetail.tables = (h' b).map HierDetail.tables

variable {env : Blocks} {h h' : Hierarchy}

theorem SameTables.cases (same : SameTables h h') (b : BlockId) :
    h b = none ∧ h' b = none ∨
      ∃ d d', h b = some d ∧ h' b = some d' ∧ d.tables = d'.tables := by
  have here := same b
  cases one : h b with
  | none =>
    rw [one, Option.map_none, eq_comm, Option.map_eq_none_iff] at here
    exact .inl ⟨rfl, here⟩
  | some d =>
    rw [one, Option.map_some, eq_comm, Option.map_eq_some_iff] at here
    obtain ⟨d', two, tables⟩ := here
    exact .inr ⟨d, d', rfl, two, tables.symm⟩

variable {d d' : HierDetail} {owner : BlockId} {topBlock : Bool}

theorem SameTables.update (same : SameTables h h') (b : BlockId) (tables : d.tables = d'.tables) :
    SameTables (Function.update h b (some d)) (Function.update h' b (some d')) := by
  intro c
  by_cases here : c = b
  · rw [here, Function.update_self, Function.update_self, Option.map_some, Option.map_some, tables]
  · rw [Function.update_of_ne here, Function.update_of_ne here]
    exact same c

theorem coupled_getDetail (b : BlockId) :
    Coupled SameTables (fun d d' => d.tables = d'.tables) (getDetail b) (getDetail b) := by
  refine Coupled.get.bind ?_
  intro h h' same
  obtain ⟨one, two⟩ | ⟨d, d', one, two, tables⟩ := same.cases b
  · rw [one, two]
    exact Coupled.throw _ _
  · rw [one, two]
    exact Coupled.pure tables

theorem coupled_setDetail (b : BlockId) (tables : d.tables = d'.tables) :
    Coupled SameTables Eq (setDetail b d) (setDetail b d') :=
  fun _ _ same => ⟨.ok rfl, same.update b tables⟩

theorem coupled_setParent (owner block : BlockId) (parent : Option BlockId) :
    Coupled SameTables Eq (setParent owner parent block) (setParent owner parent block) := by
  refine Coupled.get.bind ?_
  intro h h' same
  obtain ⟨one, two⟩ | ⟨d, d', one, two, tables⟩ := same.cases block
  · rw [one, two]
    exact Coupled.pure rfl
  · rw [one, two]
    refine Coupled.ite (fun _ => Coupled.pure rfl) fun _ => coupled_setDetail block ?_
    exact tables

theorem coupled_withDetail {α : Type} (b : BlockId) {f : HierDetail → HierProgram α}
    (each : ∀ top top' parent parent' fg inputs outputs blocks, Coupled SameTables Eq
      (f ⟨top, parent, fg, inputs, outputs, blocks⟩)
      (f ⟨top', parent', fg, inputs, outputs, blocks⟩)) :
    Coupled SameTables Eq (getDetail b >>= f) (getDetail b >>= f) := by
  refine (coupled_getDetail b).bind ?_
  rintro ⟨top, parent, fg, inputs, outputs, blocks⟩ ⟨top', parent', fg', inputs', outputs', blocks'⟩
    tables
  cases tables
  exact each top top' parent parent' fg inputs outputs blocks

theorem coupled_connectBlock (owner block : BlockId) :
    Coupled SameTables Eq (connectBlock env owner block) (connectBlock env owner block) := by
  apply coupled_withDetail
  intro top top' parent parent' fg inputs outputs blocks
  refine Coupled.ite (fun _ => Coupled.throw _ _) fun _ => ?_
  refine Coupled.ite (fun _ => Coupled.throw _ _) fun _ => ?_
  refine (coupled_setParent owner block (some owner)).bind fun _ _ _ => ?_
  apply coupled_withDetail
  intros
  exact coupled_setDetail owner rfl

theorem coupled_connectInput (owner : BlockId) (port : Int) (endp : Endpoint) :
    Coupled SameTables Eq (connectInput env owner port endp) (connectInput env owner port endp) := by
  apply coupled_withDetail
  intros
  refine Coupled.ite (fun _ => Coupled.throw _ _) fun _ => ?_
  refine Coupled.ite (fun _ => Coupled.throw _ _) fun _ => ?_
  exact coupled_setDetail owner rfl

theorem coupled_connectOutput (owner : BlockId) (port : Int) (endp : Endpoint) :
    Coupled SameTables Eq (connectOutput env owner port endp)
      (connectOutput env owner port endp) := by
  apply coupled_withDetail
  intro top top' parent parent' fg inputs outputs blocks
  refine Coupled.ite (fun _ => Coupled.throw _ _) fun _ => ?_
  dsimp only
  cases outputs.getD port.toNat none with
  | some other => exact Coupled.throw _ _
  | none => exact coupled_setDetail owner rfl

theorem coupled_fg (owner : BlockId) (f : Flowgraph → Except CppException Flowgraph) :
    Coupled SameTables Eq
      (do
        let d ← getDetail owner
        let fg ← MonadExcept.ofExcept (f d.fg)
        setDetail owner { d with fg := fg })
      (do
        let d ← getDetail owner
        let fg ← MonadExcept.ofExcept (f d.fg)
        setDetail owner { d with fg := fg }) := by
  apply coupled_withDetail
  intros
  refine (Coupled.ofExcept _).bind ?_
  rintro fg _ rfl
  exact coupled_setDetail owner rfl

theorem coupled_connect (owner : BlockId) (src dst : Endpoint) :
    Coupled SameTables Eq (connect env owner src dst) (connect env owner src dst) := by
  refine Coupled.ite (fun _ => Coupled.throw _ _) fun _ => ?_
  refine (coupled_setParent owner src.block (some owner)).bind fun _ _ _ => ?_
  refine (coupled_setParent owner dst.block (some owner)).bind fun _ _ _ => ?_
  refine Coupled.ite (fun _ => ?_) fun _ => Coupled.ite (fun _ => ?_) fun _ => ?_
  · exact Coupled.ite (fun _ => Coupled.throw _ _) fun _ => coupled_connectInput owner src.port dst
  · exact Coupled.ite (fun _ => Coupled.throw _ _) fun _ => coupled_connectOutput owner dst.port src
  · exact coupled_fg owner fun fg => fg.connect env src dst

theorem coupled_disconnectInput (owner : BlockId) (port : Int) (endp : Endpoint) :
    Coupled SameTables Eq (disconnectInput env owner port endp)
      (disconnectInput env owner port endp) := by
  apply coupled_withDetail
  intros
  refine Coupled.ite (fun _ => Coupled.throw _ _) fun _ => ?_
  refine Coupled.ite (fun _ => ?_) fun _ => Coupled.throw _ _
  exact coupled_setDetail owner rfl

theorem coupled_disconnectOutput (owner : BlockId) (port : Int) (endp : Endpoint) :
    Coupled SameTables Eq (disconnectOutput env owner port endp)
      (disconnectOutput env owner port endp) := by
  apply coupled_withDetail
  intros
  refine Coupled.ite (fun _ => Coupled.throw _ _) fun _ => ?_
  refine Coupled.ite (fun _ => Coupled.throw _ _) fun _ => ?_
  exact coupled_setDetail owner rfl

theorem coupled_disconnect (owner : BlockId) (src dst : Endpoint) :
    Coupled SameTables Eq (disconnect env owner src dst) (disconnect env owner src dst) := by
  refine Coupled.ite (fun _ => Coupled.throw _ _) fun _ => ?_
  refine (coupled_setParent owner src.block none).bind fun _ _ _ => ?_
  refine (coupled_setParent owner dst.block none).bind fun _ _ _ => ?_
  refine Coupled.ite (fun _ => ?_) fun _ => Coupled.ite (fun _ => ?_) fun _ => ?_
  · exact coupled_disconnectInput owner src.port dst
  · exact coupled_disconnectOutput owner dst.port src
  · exact coupled_fg owner fun fg => fg.disconnect env src dst

theorem coupled_disconnectBlock (owner block : BlockId) :
    Coupled SameTables Eq (disconnectBlock env owner block) (disconnectBlock env owner block) := by
  apply coupled_withDetail
  intro top top' parent parent' fg inputs outputs blocks
  refine Coupled.ite (fun _ => ?_) fun _ => ?_
  · refine Coupled.bind (coupled_setDetail owner ?_) fun _ _ _ => ?_
    · rfl
    · refine Coupled.ite (fun _ => Coupled.pure rfl) fun _ => ?_
      apply coupled_withDetail
      intros
      exact coupled_setDetail block rfl
  · refine Coupled.ite (fun _ => Coupled.throw _ _) fun _ => ?_
    exact Coupled.forM _ fun e _ => coupled_disconnect owner e.src e.dst

theorem coupled_disconnectAll (owner : BlockId) :
    Coupled SameTables Eq (disconnectAll owner) (disconnectAll owner) := by
  apply coupled_withDetail
  intros
  exact coupled_setDetail owner rfl

/-! ## Flattening -/

theorem SameTables.resolveEndpoint (same : SameTables h h') (isInput : Bool) (fuel : Nat)
    (endp : Endpoint) :
    resolveEndpoint env h isInput fuel endp = resolveEndpoint env h' isInput fuel endp := by
  induction fuel generalizing endp with
  | zero => rfl
  | succ fuel ih =>
    rw [Hierarchy.resolveEndpoint, Hierarchy.resolveEndpoint, funext ih]
    obtain ⟨one, two⟩ | ⟨d, d', one, two, tables⟩ := same.cases endp.block
    · rw [one, two]
    · rw [one, two]
      cases d
      cases d'
      cases tables
      rfl

theorem SameTables.flattenEdge (same : SameTables h h') (fuel : Nat) :
    flattenEdge env h fuel = flattenEdge env h' fuel := by
  funext sfg e
  rw [Hierarchy.flattenEdge, Hierarchy.flattenEdge, same.resolveEndpoint, same.resolveEndpoint]

theorem SameTables.flattenAux (same : SameTables h h') (fuel : Nat) (owner : BlockId)
    (sfg : Flowgraph) : flattenAux env h fuel owner sfg = flattenAux env h' fuel owner sfg := by
  induction fuel generalizing owner sfg with
  | zero => rfl
  | succ fuel ih =>
    have inner : (fun (sfg : Flowgraph) (p : BlockId) =>
          if (h p).isSome then Hierarchy.flattenAux env h fuel p sfg else .ok sfg) =
        fun sfg p => if (h' p).isSome then Hierarchy.flattenAux env h' fuel p sfg else .ok sfg := by
      funext sfg p
      obtain ⟨one, two⟩ | ⟨d, d', one, two, -⟩ := same.cases p
      · rw [one, two]
        rfl
      · rw [one, two, ih]
        rfl
    rw [Hierarchy.flattenAux, Hierarchy.flattenAux, inner, same.flattenEdge]
    obtain ⟨one, two⟩ | ⟨d, d', one, two, tables⟩ := same.cases owner
    · rw [one, two]
    · rw [one, two]
      cases d
      cases d'
      cases tables
      rfl

/-! ## Calls on one block -/

/-- The calls on a hierarchical block. -/
inductive DetailCall where
  | connectBlock (block : BlockId)
  | connect (src dst : Endpoint)
  | disconnectBlock (block : BlockId)
  | disconnect (src dst : Endpoint)
  | disconnectAll
  | flatten
  deriving DecidableEq, Repr

/-- The code of a call. Flattening returns a graph. -/
def DetailCall.program (env : Blocks) (fuel : Nat) (owner : BlockId) :
    DetailCall → HierProgram (Option Flowgraph)
  | .connectBlock block => do
      Hierarchy.connectBlock env owner block
      return none
  | .connect src dst => do
      Hierarchy.connect env owner src dst
      return none
  | .disconnectBlock block => do
      Hierarchy.disconnectBlock env owner block
      return none
  | .disconnect src dst => do
      Hierarchy.disconnect env owner src dst
      return none
  | .disconnectAll => do
      Hierarchy.disconnectAll owner
      return none
  | .flatten => do
      let h ← get
      let fg ← MonadExcept.ofExcept (Hierarchy.flattenAux env h fuel owner .empty)
      return some fg

/-- The results of calls one after the other, those that throw included. -/
def results (env : Blocks) (fuel : Nat) (owner : BlockId) (h : Hierarchy) :
    List DetailCall → List (Except CppException (Option Flowgraph))
  | [] => []
  | c :: calls =>
    ((c.program env fuel owner).exec h).1 ::
      results env fuel owner ((c.program env fuel owner).exec h).2 calls

theorem coupled_call (fuel : Nat) (owner : BlockId) (c : DetailCall) :
    Coupled SameTables Eq (c.program env fuel owner) (c.program env fuel owner) := by
  cases c with
  | connectBlock block =>
    exact (coupled_connectBlock owner block).bind fun _ _ _ => Coupled.pure rfl
  | connect src dst => exact (coupled_connect owner src dst).bind fun _ _ _ => Coupled.pure rfl
  | disconnectBlock block =>
    exact (coupled_disconnectBlock owner block).bind fun _ _ _ => Coupled.pure rfl
  | disconnect src dst => exact (coupled_disconnect owner src dst).bind fun _ _ _ => Coupled.pure rfl
  | disconnectAll => exact (coupled_disconnectAll owner).bind fun _ _ _ => Coupled.pure rfl
  | flatten =>
    refine Coupled.get.bind fun h h' same => ?_
    rw [same.flattenAux]
    refine (Coupled.ofExcept _).bind ?_
    rintro fg _ rfl
    exact Coupled.pure rfl

theorem SameTables.results (same : SameTables h h') (fuel : Nat) (owner : BlockId)
    (calls : List DetailCall) :
    results env fuel owner h calls = results env fuel owner h' calls := by
  induction calls generalizing h h' with
  | nil => rfl
  | cons c calls ih =>
    obtain ⟨agree, left⟩ := @coupled_call env fuel owner c h h' same
    rw [Hierarchy.results, Hierarchy.results, ih left, agree.eq]

theorem results_flatten (fuel : Nat) (owner : BlockId) (h : Hierarchy) :
    results env fuel owner h [.flatten] = [(flattenAux env h fuel owner .empty).map some] := by
  simp only [results, DetailCall.program, exec_bind, exec_get, exec_ofExcept]
  cases flattenAux env h fuel owner .empty <;> rfl

/-! ## As new -/

theorem returns_disconnectAll (returned : (disconnectAll owner).Returns h () h') :
    ∃ d, h owner = some d ∧ h' = Function.update h owner
      (some { d with fg := d.fg.clear, blocks := [], inputs := [], outputs := [] }) := by
  obtain ⟨d, s, got, returned⟩ := Program.returns_bind.mp returned
  obtain ⟨detail, rfl⟩ := returns_getDetail.mp got
  exact ⟨d, detail, returns_setDetail.mp returned⟩

theorem make_ok (made : HierDetail.make env owner topBlock = .ok d) :
    0 ≤ (env owner).inputSignature.maxStreams ∧ 0 ≤ (env owner).outputSignature.maxStreams ∧
      d = ⟨topBlock, none, .empty,
        List.replicate (env owner).inputSignature.maxStreams.toNat [],
        List.replicate (env owner).outputSignature.maxStreams.toNat none, []⟩ := by
  unfold HierDetail.make at made
  dsimp only at made
  split at made
  · cases made
  · rename_i fixed
    have inputs := (env owner).inputSignature.min_nonneg
    have outputs := (env owner).outputSignature.min_nonneg
    cases made
    exact ⟨by omega, by omega, rfl⟩

theorem flatten_fresh {fuel : Nat} (made : HierDetail.make env owner topBlock = .ok d)
    (detail : h owner = some d)
    (ports : (env owner).inputSignature.maxStreams ≠ 0 ∨ (env owner).outputSignature.maxStreams ≠ 0)
    (fg : Flowgraph) : flattenAux env h (fuel + 1) owner .empty ≠ .ok fg := by
  obtain ⟨someInputs, someOutputs, rfl⟩ := make_ok made
  intro flattened
  rw [flattenAux, detail] at flattened
  obtain ⟨_, -, flattened⟩ := bind_ok.mp flattened
  obtain ⟨ports', connected, -⟩ := bind_ok.mp flattened
  obtain ⟨-, inputs, outputs⟩ := portBlocks_ok connected
  rcases ports with input | output
  · exact inputs (List.mem_replicate.mpr ⟨by omega, rfl⟩)
  · exact outputs (List.mem_replicate.mpr ⟨by omega, rfl⟩)

/-- **As new.** Behind `disconnect_all` all calls have the results they have on a newly constructed
block if and only if the block has no ports. -/
theorem disconnect_all_fresh_iff {owner : BlockId} {topBlock : Bool} {fresh : HierDetail}
    (made : HierDetail.make env owner topBlock = .ok fresh)
    (returned : (disconnectAll owner).Returns h () h') :
    (∀ fuel calls, results env fuel owner h' calls =
      results env fuel owner (Function.update h owner (some fresh)) calls) ↔
    (env owner).inputSignature.maxStreams = 0 ∧ (env owner).outputSignature.maxStreams = 0 := by
  obtain ⟨d, -, rfl⟩ := returns_disconnectAll returned
  constructor
  · intro alike
    by_contra ports
    have alike := alike 1 [.flatten]
    have cleared : flattenAux env (Function.update h owner
        (some { d with fg := d.fg.clear, blocks := [], inputs := [], outputs := [] })) 1 owner
        .empty = .ok .empty := by
      rw [flattenAux, Function.update_self]
      rfl
    have connected : ∀ fg, flattenAux env (Function.update h owner (some fresh)) 1 owner .empty ≠
        .ok fg := flatten_fresh made (Function.update_self ..) (by omega)
    rw [results_flatten, results_flatten, cleared, List.cons.injEq] at alike
    cases flattened : flattenAux env (Function.update h owner (some fresh)) 1 owner .empty with
    | error e =>
      rw [flattened] at alike
      cases alike.1
    | ok fg =>
      rw [flattened] at alike
      cases alike.1
      exact connected _ flattened
  · rintro ⟨noInputs, noOutputs⟩ fuel calls
    obtain ⟨-, -, rfl⟩ := make_ok made
    rw [noInputs, noOutputs]
    apply SameTables.results
    intro b
    by_cases itself : b = owner
    · rw [itself, Function.update_self, Function.update_self]
      rfl
    · rw [Function.update_of_ne itself, Function.update_of_ne itself]

/-- A source is connected to the output of a hierarchical block, and all connections are removed:
the source cannot be connected again. -/
theorem disconnect_all_loses_ports :
    ∃ fresh h₁ h₂, HierDetail.make smallBlocks 1 false = .ok fresh ∧
      smallHierarchy 1 = some fresh ∧
      (connect smallBlocks 1 ⟨3, 0⟩ ⟨1, 0⟩).Returns smallHierarchy () h₁ ∧
      (disconnectAll 1).Returns h₁ () h₂ ∧
      results smallBlocks 1 1 h₂ [.connect ⟨3, 0⟩ ⟨1, 0⟩] =
        [.error (.invalidArgument "output port 0 out of range for source(3)")] ∧
      results smallBlocks 1 1 (Function.update h₁ 1 (some fresh)) [.connect ⟨3, 0⟩ ⟨1, 0⟩] =
        [.ok none] :=
  ⟨_, _, _, rfl, rfl, rfl, rfl, by decide +kernel, by decide +kernel⟩

/-- A top block without ports is as new. -/
theorem disconnect_all_fresh_top :
    ∃ fresh h', HierDetail.make smallBlocks 0 true = .ok fresh ∧
      (disconnectAll 0).Returns smallHierarchy () h' ∧
      ∀ fuel calls, results smallBlocks fuel 0 h' calls =
        results smallBlocks fuel 0 (Function.update smallHierarchy 0 (some fresh)) calls := by
  obtain ⟨fresh, made⟩ : ∃ fresh, HierDetail.make smallBlocks 0 true = .ok fresh := ⟨_, rfl⟩
  obtain ⟨h', returned⟩ : ∃ h', (disconnectAll 0).Returns smallHierarchy () h' := ⟨_, rfl⟩
  exact ⟨fresh, h', made, returned, (disconnect_all_fresh_iff made returned).mpr ⟨rfl, rfl⟩⟩

end Hierarchy

end GnuRadio
