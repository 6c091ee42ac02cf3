import GnuRadio.Misc.Except
import GnuRadio.Runtime.Block
import Mathlib.Data.List.Sort

/-!
# `gr_flowgraph`

Endpoints, edges and the checked operations on a flowgraph
(`gr_flowgraph.h`, `gr_flowgraph.cc`). Sorting and partitioning are in
`GnuRadio.Runtime.TopologicalSort`.
-/

namespace GnuRadio

/-- `gr_endpoint`, a port of a block. -/
@[ext] structure Endpoint where
  block : BlockId
  port : Int
  deriving DecidableEq, Repr

/-- `gr_edge`. -/
structure Edge where
  src : Endpoint
  dst : Endpoint
  deriving DecidableEq, Repr

/-- The data of a `gr_flowgraph`. -/
structure Flowgraph where
  blocks : List BlockId
  edges : List Edge
  deriving DecidableEq, Repr

/-- `std::unique_copy`: of equal neighbours only the first is kept. -/
def uniqueCopy {β : Type} [DecidableEq β] : List β → List β
  | [] => []
  | [x] => [x]
  | x :: y :: rest => if x = y then uniqueCopy (y :: rest) else x :: uniqueCopy (y :: rest)

/-- `unique_vector` (`gr_flowgraph.cc:54-64`). -/
def uniqueVector {β : Type} [LinearOrder β] (v : List β) : List β :=
  uniqueCopy (v.insertionSort (· ≤ ·))

/-- How a block is printed (`gr_basic_block.h:163-167`). -/
def Blocks.print (env : Blocks) (b : BlockId) : String :=
  (env b).name ++ "(" ++ toString b ++ ")"

/-- `gr_endpoint` as messages show it. -/
def Endpoint.print (env : Blocks) (e : Endpoint) : String :=
  env.print e.block ++ ":" ++ toString e.port

def Edge.print (env : Blocks) (e : Edge) : String :=
  e.src.print env ++ "->" ++ e.dst.print env

namespace Flowgraph

/-- `gr_make_flowgraph`. -/
def empty : Flowgraph := ⟨[], []⟩

/-- `gr_flowgraph::check_valid_port` (`gr_flowgraph.cc:131-150`). -/
def checkValidPort (sig : IoSignature) (port : Int) : Except CppException Unit :=
  if port < 0 then
    .error (.invalidArgument ("negative port number " ++ toString port ++ " is invalid"))
  else if sig.maxStreams ≠ -1 ∧ port ≥ sig.maxStreams then
    .error (.invalidArgument ("port number " ++ toString port ++ " exceeds max of " ++
      if sig.maxStreams = 0 then "(none)" else toString (sig.maxStreams - 1)))
  else .ok ()

/-- `gr_flowgraph::check_dst_not_used` (`gr_flowgraph.cc:152-162`). -/
def checkDstNotUsed (env : Blocks) (fg : Flowgraph) (dst : Endpoint) : Except CppException Unit :=
  match fg.edges.find? fun e => e.dst = dst with
  | some e =>
      .error (.invalidArgument ("destination already in use by edge " ++ e.print env))
  | none => .ok ()

/-- `gr_flowgraph::check_type_match` (`gr_flowgraph.cc:164-176`). -/
def checkTypeMatch (env : Blocks) (src dst : Endpoint) : Except CppException Unit := do
  let srcSize ← (env src.block).outputSignature.sizeofStreamItem src.port
  let dstSize ← (env dst.block).inputSignature.sizeofStreamItem dst.port
  if srcSize ≠ dstSize then
    .error (.invalidArgument ("itemsize mismatch: " ++ src.print env ++ " using " ++
      toString srcSize ++ ", " ++ dst.print env ++ " using " ++ toString dstSize))
  else .ok ()

/-- `gr_flowgraph::connect` (`gr_flowgraph.cc:66-76`). -/
def connect (env : Blocks) (fg : Flowgraph) (src dst : Endpoint) :
    Except CppException Flowgraph := do
  checkValidPort (env src.block).outputSignature src.port
  checkValidPort (env dst.block).inputSignature dst.port
  fg.checkDstNotUsed env dst
  checkTypeMatch env src dst
  return { fg with edges := fg.edges ++ [⟨src, dst⟩] }

/-- `gr_flowgraph::disconnect` (`gr_flowgraph.cc:78-91`). -/
def disconnect (env : Blocks) (fg : Flowgraph) (src dst : Endpoint) :
    Except CppException Flowgraph :=
  if (⟨src, dst⟩ : Edge) ∈ fg.edges then .ok { fg with edges := fg.edges.erase ⟨src, dst⟩ }
  else .error (.invalidArgument
    ("cannot disconnect edge " ++ (⟨src, dst⟩ : Edge).print env ++ ", not found"))

/-- `gr_flowgraph::clear`. -/
def clear (_fg : Flowgraph) : Flowgraph := ⟨[], []⟩

/-- `gr_flowgraph::calc_used_blocks` (`gr_flowgraph.cc:178-190`). -/
def calcUsedBlocks (fg : Flowgraph) : List BlockId :=
  uniqueVector (fg.edges.flatMap fun e => [e.src.block, e.dst.block])

/-- `gr_flowgraph::calc_connections` (`gr_flowgraph.cc:209-226`). -/
def calcConnections (fg : Flowgraph) (block : BlockId) (checkInputs : Bool) : List Edge :=
  fg.edges.filter fun e => if checkInputs then e.dst.block = block else e.src.block = block

/-- `gr_flowgraph::calc_used_ports` (`gr_flowgraph.cc:192-207`). -/
def calcUsedPorts (fg : Flowgraph) (block : BlockId) (checkInputs : Bool) : List Int :=
  uniqueVector ((fg.calcConnections block checkInputs).map fun e =>
    if checkInputs then e.dst.port else e.src.port)

/-- `gr_flowgraph::check_contiguity` (`gr_flowgraph.cc:228-269`). -/
def checkContiguity (env : Blocks) (block : BlockId) (usedPorts : List Int) (checkInputs : Bool) :
    Except CppException Unit :=
  let sig := if checkInputs then (env block).inputSignature else (env block).outputSignature
  let nports : Int := usedPorts.length
  if nports = 0 ∧ sig.minStreams = 0 then .ok ()
  else if nports < sig.minStreams then
    .error (.runtimeError (env.print block ++ ": insufficient connected " ++
      (if checkInputs then "input ports " else "output ports ") ++ "(" ++
      toString sig.minStreams ++ " needed, " ++ toString nports ++ " connected)"))
  else if nports > sig.maxStreams ∧ sig.maxStreams ≠ -1 then
    .error (.runtimeError (env.print block ++ ": too many connected " ++
      (if checkInputs then "input ports " else "output ports ") ++ "(" ++
      toString sig.maxStreams ++ " allowed, " ++ toString nports ++ " connected)"))
  else if usedPorts.getLast? ≠ some (nports - 1) then
    match (List.range usedPorts.length).find? fun (i : Nat) =>
        usedPorts[i]? ≠ some (i : Int) with
    | some i => .error (.runtimeError (env.print block ++ ": missing connection " ++
        (if checkInputs then "to input port " else "from output port ") ++ toString i))
    | none => .ok ()
  else .ok ()

/-- The checks of `validate` on one block (`gr_flowgraph.cc:98-120`). -/
def validateBlock (env : Blocks) (fg : Flowgraph) (block : BlockId) : Except CppException Unit := do
  let inputs := fg.calcUsedPorts block true
  checkContiguity env block inputs true
  let outputs := fg.calcUsedPorts block false
  checkContiguity env block outputs false
  if (env block).checkTopology inputs.length outputs.length then .ok ()
  else .error (.runtimeError ("check topology failed on " ++ env.print block ++
    " using ninputs=" ++ toString inputs.length ++ ", noutputs=" ++ toString outputs.length))

/-- `gr_flowgraph::validate` (`gr_flowgraph.cc:93-121`). -/
def validate (env : Blocks) (fg : Flowgraph) : Except CppException Flowgraph := do
  let fg := { fg with blocks := fg.calcUsedBlocks }
  fg.blocks.forM (fg.validateBlock env)
  return fg

/-- `gr_flowgraph::calc_downstream_blocks(block, port)` (`gr_flowgraph.cc:271-281`). -/
def calcDownstreamBlocksOf (fg : Flowgraph) (block : BlockId) (port : Int) : List BlockId :=
  uniqueVector ((fg.edges.filter fun e => e.src = ⟨block, port⟩).map fun e => e.dst.block)

/-- `gr_flowgraph::calc_downstream_blocks(block)` (`gr_flowgraph.cc:283-293`). -/
def calcDownstreamBlocks (fg : Flowgraph) (block : BlockId) : List BlockId :=
  uniqueVector ((fg.edges.filter fun e => e.src.block = block).map fun e => e.dst.block)

/-- `gr_flowgraph::calc_upstream_edges` (`gr_flowgraph.cc:295-305`). -/
def calcUpstreamEdges (fg : Flowgraph) (block : BlockId) : List Edge :=
  fg.edges.filter fun e => e.dst.block = block

/-- `gr_flowgraph::has_block_p` (`gr_flowgraph.cc:307-313`). -/
def hasBlockP (fg : Flowgraph) (block : BlockId) : Bool := block ∈ fg.blocks

/-- `gr_flowgraph::calc_upstream_edge` (`gr_flowgraph.cc:315-328`); `none` is the
default edge between null blocks. -/
def calcUpstreamEdge (fg : Flowgraph) (block : BlockId) (port : Int) : Option Edge :=
  fg.edges.find? fun e => e.dst = ⟨block, port⟩

end Flowgraph

/-! ## Sorted vectors without repetition -/

section UniqueVector

variable {β : Type}

theorem mem_uniqueCopy [DecidableEq β] {l : List β} {x : β} : x ∈ uniqueCopy l ↔ x ∈ l := by
  fun_induction uniqueCopy l with
  | case1 => rfl
  | case2 => rfl
  | case3 y rest ih => simp [ih]
  | case4 y z rest different ih => simp [ih]

theorem uniqueCopy_pairwise [LinearOrder β] {l : List β} (sorted : l.Pairwise (· ≤ ·)) :
    (uniqueCopy l).Pairwise (· < ·) := by
  fun_induction uniqueCopy l with
  | case1 => exact List.Pairwise.nil
  | case2 => exact List.pairwise_singleton _ _
  | case3 y rest ih => exact ih sorted.of_cons
  | case4 y z rest different ih =>
    refine List.pairwise_cons.mpr ⟨?_, ih sorted.of_cons⟩
    intro u member
    have least := List.rel_of_pairwise_cons sorted (List.mem_cons_self (a := z) (l := rest))
    have below : z ≤ u := by
      rcases List.mem_cons.mp (mem_uniqueCopy.mp member) with rfl | later
      · exact le_rfl
      · exact List.rel_of_pairwise_cons sorted.of_cons later
    exact lt_of_lt_of_le (lt_of_le_of_ne least different) below

variable [LinearOrder β]

@[simp] theorem mem_uniqueVector {v : List β} {x : β} : x ∈ uniqueVector v ↔ x ∈ v := by
  rw [uniqueVector, mem_uniqueCopy, (List.perm_insertionSort (· ≤ ·) v).mem_iff]

theorem uniqueVector_pairwise (v : List β) : (uniqueVector v).Pairwise (· < ·) :=
  uniqueCopy_pairwise (List.pairwise_insertionSort (· ≤ ·) v)

theorem uniqueVector_nodup (v : List β) : (uniqueVector v).Nodup :=
  (uniqueVector_pairwise v).imp fun below => ne_of_lt below

end UniqueVector

/-! ## Valid flowgraphs -/

namespace Flowgraph

/-- The flowgraphs the checked operations can build. -/
inductive Built (env : Blocks) : Flowgraph → Prop
  | empty : Built env empty
  | connect {fg fg' : Flowgraph} {src dst : Endpoint} (built : Built env fg)
      (connected : fg.connect env src dst = .ok fg') : Built env fg'
  | disconnect {fg fg' : Flowgraph} {src dst : Endpoint} (built : Built env fg)
      (disconnected : fg.disconnect env src dst = .ok fg') : Built env fg'
  | validate {fg fg' : Flowgraph} (built : Built env fg)
      (validated : fg.validate env = .ok fg') : Built env fg'

/-- A flowgraph that was built and has passed `validate`. -/
structure Valid (env : Blocks) (fg : Flowgraph) : Prop where
  built : Built env fg
  validated : fg.validate env = .ok fg

variable {env : Blocks} {fg fg' : Flowgraph}

theorem Built.connectAll (edges : List Edge) (built : Built env fg)
    (connected : edges.foldlM (fun fg e => fg.connect env e.src e.dst) fg = .ok fg') :
    Built env fg' := by
  induction edges generalizing fg with
  | nil =>
    cases connected
    exact built
  | cons e edges ih =>
    obtain ⟨mid, first, rest⟩ := foldlM_cons_ok.mp connected
    exact ih (built.connect first) rest

/-- What `check_valid_port` and `check_dst_not_used` ensure of all edges together. -/
structure PortsUsedOnce (fg : Flowgraph) : Prop where
  src_nonneg : ∀ e ∈ fg.edges, 0 ≤ e.src.port
  dst_nonneg : ∀ e ∈ fg.edges, 0 ≤ e.dst.port
  dst_nodup : (fg.edges.map Edge.dst).Nodup

variable {port : Int} {dst src : Endpoint} {ports : List Int} {block : BlockId} {checkInputs : Bool}
  {e : Edge}

theorem checkValidPort_ok {sig : IoSignature} (checked : checkValidPort sig port = .ok ()) :
    0 ≤ port := by
  unfold checkValidPort at checked
  split at checked
  · cases checked
  · omega

theorem checkDstNotUsed_ok (checked : fg.checkDstNotUsed env dst = .ok ()) :
    dst ∉ fg.edges.map Edge.dst := by
  unfold checkDstNotUsed at checked
  split at checked
  · cases checked
  · rename_i unused
    simpa [List.find?_eq_none] using unused

theorem connect_ok (connected : fg.connect env src dst = .ok fg') :
    0 ≤ src.port ∧ 0 ≤ dst.port ∧ dst ∉ fg.edges.map Edge.dst ∧
      fg' = { fg with edges := fg.edges ++ [⟨src, dst⟩] } := by
  obtain ⟨_, srcPort, connected⟩ := bind_ok.mp connected
  obtain ⟨_, dstPort, connected⟩ := bind_ok.mp connected
  obtain ⟨_, unused, connected⟩ := bind_ok.mp connected
  obtain ⟨_, -, connected⟩ := bind_ok.mp connected
  exact ⟨checkValidPort_ok srcPort, checkValidPort_ok dstPort, checkDstNotUsed_ok unused,
    (pure_ok.mp connected).symm⟩

theorem validate_ok (validated : fg.validate env = .ok fg') :
    fg' = { fg with blocks := fg.calcUsedBlocks } ∧
      fg.calcUsedBlocks.forM (fg'.validateBlock env) = .ok () := by
  obtain ⟨_, checked, same⟩ := bind_ok.mp validated
  obtain rfl := pure_ok.mp same
  exact ⟨rfl, checked⟩

theorem PortsUsedOnce.append (once : fg.PortsUsedOnce) (srcPort : 0 ≤ src.port)
    (dstPort : 0 ≤ dst.port) (unused : dst ∉ fg.edges.map Edge.dst) :
    PortsUsedOnce { fg with edges := fg.edges ++ [⟨src, dst⟩] } := by
  refine ⟨?_, ?_, ?_⟩
  · intro e member
    rcases List.mem_append.mp member with old | new
    · exact once.src_nonneg e old
    · obtain rfl := List.mem_singleton.mp new
      exact srcPort
  · intro e member
    rcases List.mem_append.mp member with old | new
    · exact once.dst_nonneg e old
    · obtain rfl := List.mem_singleton.mp new
      exact dstPort
  · rw [List.map_append, List.nodup_append]
    refine ⟨once.dst_nodup, List.nodup_singleton _, ?_⟩
    intro a old b new
    obtain rfl := List.mem_singleton.mp new
    rintro rfl
    exact unused old

theorem PortsUsedOnce.erase (once : fg.PortsUsedOnce) (e : Edge) :
    PortsUsedOnce { fg with edges := fg.edges.erase e } :=
  ⟨fun e' member => once.src_nonneg e' (List.mem_of_mem_erase member),
    fun e' member => once.dst_nonneg e' (List.mem_of_mem_erase member),
    once.dst_nodup.sublist ((List.erase_sublist ..).map _)⟩

theorem portsUsedOnce_empty : PortsUsedOnce .empty :=
  ⟨fun _ member => absurd member List.not_mem_nil, fun _ member => absurd member List.not_mem_nil,
    List.nodup_nil⟩

theorem Built.portsUsedOnce (built : Built env fg) : fg.PortsUsedOnce := by
  induction built with
  | empty => exact portsUsedOnce_empty
  | connect _ connected ih =>
    obtain ⟨srcPort, dstPort, unused, rfl⟩ := connect_ok connected
    exact ih.append srcPort dstPort unused
  | disconnect _ disconnected ih =>
    unfold Flowgraph.disconnect at disconnected
    split at disconnected
    · obtain rfl := Except.ok.inj disconnected
      exact ih.erase _
    · cases disconnected
  | validate _ validated ih =>
    obtain ⟨rfl, -⟩ := validate_ok validated
    exact ⟨ih.src_nonneg, ih.dst_nonneg, ih.dst_nodup⟩

theorem counts_of_last (sorted : ports.Pairwise (· < ·)) (nonneg : ∀ p ∈ ports, 0 ≤ p)
    (last : ports.getLast? = some ((ports.length : Int) - 1)) :
    ∀ i (h : i < ports.length), ports[i] = i := by
  have increasing : ∀ i j, (h : i + j < ports.length) → ports[i] + j ≤ ports[i + j] := by
    intro i j
    induction j with
    | zero => intro _; simp
    | succ j ih =>
      intro inside
      have before := ih (by omega)
      have step := List.pairwise_iff_getElem.mp sorted (i + j) (i + (j + 1)) (by omega) inside
        (by omega)
      push_cast
      omega
  intro i inside
  have low := increasing 0 i (by omega)
  have high := increasing i (ports.length - 1 - i) (by omega)
  have first := nonneg _ (List.getElem_mem (show 0 < ports.length by omega))
  rw [List.getLast?_eq_getElem?, List.getElem?_eq_getElem (by omega)] at last
  have last := Option.some.inj last
  simp only [show i + (ports.length - 1 - i) = ports.length - 1 by omega, last, Nat.zero_add]
    at high low
  omega

theorem checkContiguity_ok (sorted : ports.Pairwise (· < ·)) (nonneg : ∀ p ∈ ports, 0 ≤ p)
    (checked : checkContiguity env block ports checkInputs = .ok ()) :
    ∀ i (h : i < ports.length), ports[i] = i := by
  intro i inside
  unfold checkContiguity at checked
  generalize (if checkInputs then _ else _ : IoSignature) = sig at checked
  dsimp only at checked
  split at checked
  · omega
  split at checked
  · cases checked
  split at checked
  · cases checked
  split at checked
  · split at checked
    · cases checked
    · rename_i complete
      rw [List.find?_eq_none] at complete
      have here := complete i (List.mem_range.mpr inside)
      rw [List.getElem?_eq_getElem inside] at here
      simpa using here
  · rename_i last
    exact counts_of_last sorted nonneg (not_not.mp last) i inside

theorem mem_calcUsedPorts :
    port ∈ fg.calcUsedPorts block checkInputs ↔
      ∃ e ∈ fg.edges, (if checkInputs then e.dst else e.src) = ⟨block, port⟩ := by
  cases checkInputs <;>
    simp [calcUsedPorts, calcConnections, Endpoint.ext_iff, and_assoc]

/-- `calc_used_ports(block, true).size()`. -/
def ninputs (fg : Flowgraph) (block : BlockId) : Nat := (fg.calcUsedPorts block true).length

/-- `calc_used_ports(block, false).size()`. -/
def noutputs (fg : Flowgraph) (block : BlockId) : Nat := (fg.calcUsedPorts block false).length

theorem forM_ok {ε β : Type} {f : β → Except ε Unit} {l : List β} (looped : l.forM f = .ok ()) :
    ∀ x ∈ l, f x = .ok () := by
  induction l with
  | nil => simp
  | cons y l ih =>
    obtain ⟨_, first, rest⟩ := bind_ok.mp looped
    intro x member
    rcases List.mem_cons.mp member with rfl | member
    · exact first
    · exact ih rest x member

theorem Built.usedPort_nonneg (built : Built env fg)
    (used : port ∈ fg.calcUsedPorts block checkInputs) : 0 ≤ port := by
  obtain ⟨e, member, same⟩ := mem_calcUsedPorts.mp used
  cases checkInputs
  · have := built.portsUsedOnce.src_nonneg e member
    rwa [show e.src = ⟨block, port⟩ from same] at this
  · have := built.portsUsedOnce.dst_nonneg e member
    rwa [show e.dst = ⟨block, port⟩ from same] at this

theorem src_used (member : e ∈ fg.edges) : e.src.block ∈ fg.calcUsedBlocks := by
  simp only [calcUsedBlocks, mem_uniqueVector, List.mem_flatMap]
  exact ⟨e, member, List.mem_cons_self⟩

theorem dst_used (member : e ∈ fg.edges) : e.dst.block ∈ fg.calcUsedBlocks := by
  simp only [calcUsedBlocks, mem_uniqueVector, List.mem_flatMap]
  exact ⟨e, member, List.mem_cons_of_mem _ List.mem_cons_self⟩

section

variable (valid : Valid env fg)
include valid

theorem Valid.usedPorts (block : BlockId) (checkInputs : Bool) :
    ∀ i (h : i < (fg.calcUsedPorts block checkInputs).length),
      (fg.calcUsedPorts block checkInputs)[i] = i := by
  intro i inside
  obtain ⟨e, member, same⟩ := mem_calcUsedPorts.mp (List.getElem_mem inside)
  have used : block ∈ fg.calcUsedBlocks := by
    cases checkInputs
    · rw [show block = e.src.block from (congrArg Endpoint.block same).symm]
      exact src_used member
    · rw [show block = e.dst.block from (congrArg Endpoint.block same).symm]
      exact dst_used member
  have checked := forM_ok (validate_ok valid.validated).2 block used
  obtain ⟨_, inputs, checked⟩ := bind_ok.mp checked
  obtain ⟨_, outputs, -⟩ := bind_ok.mp checked
  cases checkInputs
  · exact checkContiguity_ok (uniqueVector_pairwise _)
      (fun p => valid.built.usedPort_nonneg) outputs i inside
  · exact checkContiguity_ok (uniqueVector_pairwise _)
      (fun p => valid.built.usedPort_nonneg) inputs i inside

theorem Valid.mem_usedPorts : port ∈ fg.calcUsedPorts block checkInputs ↔
      0 ≤ port ∧ port < (fg.calcUsedPorts block checkInputs).length := by
  constructor
  · intro used
    obtain ⟨i, inside, same⟩ := List.mem_iff_getElem.mp used
    rw [valid.usedPorts block checkInputs i inside] at same
    omega
  · rintro ⟨nonneg, inside⟩
    have same := valid.usedPorts block checkInputs port.toNat (by omega)
    rw [Int.toNat_of_nonneg nonneg] at same
    exact List.mem_of_getElem same

theorem Valid.blocks_eq : fg.blocks = fg.calcUsedBlocks :=
  congrArg Flowgraph.blocks (validate_ok valid.validated).1

theorem Valid.input_iff :
    (0 ≤ port ∧ port < fg.ninputs block) ↔ ∃ e ∈ fg.edges, e.dst = ⟨block, port⟩ :=
  valid.mem_usedPorts.symm.trans mem_calcUsedPorts

theorem Valid.dst_input (member : e ∈ fg.edges) :
    0 ≤ e.dst.port ∧ e.dst.port < fg.ninputs e.dst.block :=
  valid.input_iff.mpr ⟨e, member, rfl⟩

theorem Valid.output_iff :
    (0 ≤ port ∧ port < fg.noutputs block) ↔ ∃ e ∈ fg.edges, e.src = ⟨block, port⟩ :=
  valid.mem_usedPorts.symm.trans mem_calcUsedPorts

theorem Valid.dst_inj {e' : Edge} (member : e ∈ fg.edges) (member' : e' ∈ fg.edges)
    (same : e.dst = e'.dst) : e = e' :=
  List.inj_on_of_nodup_map valid.built.portsUsedOnce.dst_nodup member member' same

theorem Valid.calcUpstreamEdge_iff :
    fg.calcUpstreamEdge block port = some e ↔ e ∈ fg.edges ∧ e.dst = ⟨block, port⟩ := by
  constructor
  · intro found
    exact ⟨List.mem_of_find?_eq_some found, by simpa using List.find?_some found⟩
  · rintro ⟨member, same⟩
    have some : (fg.calcUpstreamEdge block port).isSome := by
      rw [calcUpstreamEdge, List.find?_isSome]
      exact ⟨e, member, by simpa using same⟩
    obtain ⟨other, found⟩ := Option.isSome_iff_exists.mp some
    have present := List.mem_of_find?_eq_some found
    have there : other.dst = ⟨block, port⟩ := by simpa using List.find?_some found
    rw [found, valid.dst_inj present member (there.trans same.symm)]

end

end Flowgraph

end GnuRadio
