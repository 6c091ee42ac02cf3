import GnuRadio.Misc.Program
import GnuRadio.Runtime.Flowgraph

/-!
# `gr_hier_block2_detail`

A hierarchical block keeps the edges between the blocks inside it in a flowgraph,
and its own ports in two tables (`gr_hier_block2_detail.h`,
`gr_hier_block2_detail.cc`). The details of all hierarchical blocks are changed
by calls that may throw after a part of their effect. Flattening replaces the
ports of hierarchical blocks by the leaf ports they stand for.
-/

namespace GnuRadio

/-- The data of a `gr_hier_block2_detail`. A detail is known by its owner. -/
structure HierDetail where
  /-- Whether the owner is a `gr_top_block`. -/
  topBlock : Bool
  /-- The owner of `d_parent_detail`. -/
  parent : Option BlockId
  fg : Flowgraph
  inputs : List (List Endpoint)
  /-- `none` is the endpoint of no block. -/
  outputs : List (Option Endpoint)
  blocks : List BlockId
  deriving DecidableEq, Repr

/-- The details of all hierarchical blocks: `none` when `cast_to_hier_block2_sptr` is null. -/
abbrev Hierarchy := BlockId → Option HierDetail

/-- Code that changes details. -/
abbrev HierProgram := Program Hierarchy CppException

/-- The constructor of `gr_hier_block2_detail` (`gr_hier_block2_detail.cc:34-57`). -/
def HierDetail.make (env : Blocks) (owner : BlockId) (topBlock : Bool) :
    Except CppException HierDetail :=
  let inputs := (env owner).inputSignature
  let outputs := (env owner).outputSignature
  if inputs.maxStreams = -1 ∨ outputs.maxStreams = -1 ∨ inputs.minStreams ≠ inputs.maxStreams ∨
      outputs.minStreams ≠ outputs.maxStreams then
    .error (.runtimeError ("Hierarchical blocks do not yet support arbitrary or variable numbers " ++
      "of inputs or outputs (" ++ (env owner).name ++ ")"))
  else .ok
    { topBlock := topBlock
      parent := none
      fg := .empty
      inputs := List.replicate inputs.maxStreams.toNat []
      outputs := List.replicate outputs.maxStreams.toNat none
      blocks := [] }

namespace Hierarchy

/-! ## Access to the details -/

/-- The detail of a block that is hierarchical. -/
def getDetail (b : BlockId) : HierProgram HierDetail := do
  let h ← get
  match h b with
  | none => throw .undefinedBehaviour
  | some d => return d

/-- Storing the detail of a block. -/
def setDetail (b : BlockId) (d : HierDetail) : HierProgram Unit :=
  modify fun h => Function.update h b (some d)

/-- Setting or clearing `d_parent_detail` of a hierarchical block that is not `d_owner`
itself; any other block is left alone. -/
def setParent (owner : BlockId) (parent : Option BlockId) (block : BlockId) : HierProgram Unit := do
  let h ← get
  match h block with
  | none => return
  | some d => if block = owner then return else setDetail block { d with parent := parent }

/-! ## Connecting -/

/-- `gr_hier_block2_detail::connect(block)` (`gr_hier_block2_detail.cc:64-92`). -/
def connectBlock (env : Blocks) (owner block : BlockId) : HierProgram Unit := do
  let d ← getDetail owner
  if block ∈ d.blocks then
    throw (.invalidArgument ("Block " ++ env.print block ++ " already connected."))
  else if (env block).inputSignature.maxStreams ≠ 0 ∨ (env block).outputSignature.maxStreams ≠ 0 then
    throw (.invalidArgument
      ("Block " ++ env.print block ++ " must not have any input or output ports"))
  else do
    setParent owner (some owner) block
    let d ← getDetail owner
    setDetail owner { d with blocks := d.blocks ++ [block] }

/-- `gr_hier_block2_detail::connect_input` (`gr_hier_block2_detail.cc:225-245`). -/
def connectInput (env : Blocks) (owner : BlockId) (myPort : Int) (endp : Endpoint) :
    HierProgram Unit := do
  let d ← getDetail owner
  if myPort < 0 ∨ myPort ≥ d.inputs.length then
    throw (.invalidArgument
      ("input port " ++ toString myPort ++ " out of range for " ++ env.print endp.block))
  else
    let endps := d.inputs.getD myPort.toNat []
    if endp ∈ endps then
      throw (.invalidArgument
        ("external input port " ++ toString myPort ++ " already wired to " ++ endp.print env))
    else setDetail owner { d with inputs := d.inputs.set myPort.toNat (endps ++ [endp]) }

/-- `gr_hier_block2_detail::connect_output` (`gr_hier_block2_detail.cc:247-264`). -/
def connectOutput (env : Blocks) (owner : BlockId) (myPort : Int) (endp : Endpoint) :
    HierProgram Unit := do
  let d ← getDetail owner
  if myPort < 0 ∨ myPort ≥ d.outputs.length then
    throw (.invalidArgument
      ("output port " ++ toString myPort ++ " out of range for " ++ env.print endp.block))
  else match d.outputs.getD myPort.toNat none with
    | some other => throw (.invalidArgument ("external output port " ++ toString myPort ++
        " already connected from " ++ other.print env))
    | none => setDetail owner { d with outputs := d.outputs.set myPort.toNat (some endp) }

/-- The range check of `connect` on a port of the hierarchical block itself. -/
def outOfRange (maxPort port : Int) : Bool := maxPort ≠ -1 && port ≥ maxPort || port < 0

/-- The tables that `connect` changes, when it has set the parents
(`gr_hier_block2_detail.cc:118-141`). -/
def connectTables (env : Blocks) (owner : BlockId) (src dst : Endpoint) : HierProgram Unit :=
  if src.block = owner then
    if outOfRange (env src.block).inputSignature.maxStreams src.port then
      throw (.invalidArgument ("source port " ++ toString src.port ++ " out of range for " ++
        env.print src.block))
    else connectInput env owner src.port dst
  else if dst.block = owner then
    if outOfRange (env dst.block).outputSignature.maxStreams dst.port then
      throw (.invalidArgument ("destination port " ++ toString dst.port ++ " out of range for " ++
        env.print dst.block))
    else connectOutput env owner dst.port src
  else do
    let d ← getDetail owner
    let fg ← MonadExcept.ofExcept (d.fg.connect env src dst)
    setDetail owner { d with fg := fg }

/-- `gr_hier_block2_detail::connect(src, src_port, dst, dst_port)`
(`gr_hier_block2_detail.cc:94-144`). -/
def connect (env : Blocks) (owner : BlockId) (src dst : Endpoint) : HierProgram Unit :=
  if src.block = dst.block then
    throw (.invalidArgument "connect: src and destination blocks cannot be the same")
  else do
    setParent owner (some owner) src.block
    setParent owner (some owner) dst.block
    connectTables env owner src dst

/-! ## Disconnecting -/

/-- `gr_hier_block2_detail::disconnect_input` (`gr_hier_block2_detail.cc:266-286`). -/
def disconnectInput (env : Blocks) (owner : BlockId) (myPort : Int) (endp : Endpoint) :
    HierProgram Unit := do
  let d ← getDetail owner
  if myPort < 0 ∨ myPort ≥ d.inputs.length then
    throw (.invalidArgument
      ("input port number " ++ toString myPort ++ " out of range for " ++ env.print endp.block))
  else
    let endps := d.inputs.getD myPort.toNat []
    if endp ∈ endps then
      setDetail owner { d with inputs := d.inputs.set myPort.toNat (endps.erase endp) }
    else throw (.invalidArgument
      ("external input port " ++ toString myPort ++ " not connected to " ++ endp.print env))

/-- `gr_hier_block2_detail::disconnect_output` (`gr_hier_block2_detail.cc:288-305`); only the
block is compared. -/
def disconnectOutput (env : Blocks) (owner : BlockId) (myPort : Int) (endp : Endpoint) :
    HierProgram Unit := do
  let d ← getDetail owner
  if myPort < 0 ∨ myPort ≥ d.outputs.length then
    throw (.invalidArgument
      ("output port number " ++ toString myPort ++ " out of range for " ++ env.print endp.block))
  else if (d.outputs.getD myPort.toNat none).map Endpoint.block ≠ some endp.block then
    throw (.invalidArgument ("block " ++ env.print endp.block ++ " not assigned to output " ++
      toString myPort ++ ", can't disconnect"))
  else setDetail owner { d with outputs := d.outputs.set myPort.toNat none }

/-- The tables that `disconnect` changes, when it has cleared the parents
(`gr_hier_block2_detail.cc:215-222`). -/
def disconnectTables (env : Blocks) (owner : BlockId) (src dst : Endpoint) : HierProgram Unit :=
  if src.block = owner then disconnectInput env owner src.port dst
  else if dst.block = owner then disconnectOutput env owner dst.port src
  else do
    let d ← getDetail owner
    let fg ← MonadExcept.ofExcept (d.fg.disconnect env src dst)
    setDetail owner { d with fg := fg }

/-- `gr_hier_block2_detail::disconnect(src, src_port, dst, dst_port)`
(`gr_hier_block2_detail.cc:189-223`). -/
def disconnect (env : Blocks) (owner : BlockId) (src dst : Endpoint) : HierProgram Unit :=
  if src.block = dst.block then
    throw (.invalidArgument "disconnect: source and destination blocks cannot be the same")
  else do
    setParent owner none src.block
    setParent owner none dst.block
    disconnectTables env owner src dst

/-- Clearing the parent of a singleton block (`gr_hier_block2_detail.cc:154-159`): the test is
on the block, not on the result of the cast. -/
def clearSingleton (owner block : BlockId) : HierProgram Unit :=
  if block = owner then return
  else do
    let d ← getDetail block
    setDetail block { d with parent := none }

/-- `gr_hier_block2_detail::disconnect(block)` (`gr_hier_block2_detail.cc:146-187`). -/
def disconnectBlock (env : Blocks) (owner block : BlockId) : HierProgram Unit := do
  let d ← getDetail owner
  if block ∈ d.blocks then do
    setDetail owner { d with blocks := d.blocks.erase block }
    clearSingleton owner block
  else
    let edges := d.fg.edges.filter fun e => e.src.block = block ∨ e.dst.block = block
    if edges = [] then
      throw (.invalidArgument ("cannot disconnect block " ++ env.print block ++ ", not found"))
    else edges.forM fun e => disconnect env owner e.src e.dst

/-- `gr_hier_block2_detail::disconnect_all` (`gr_hier_block2_detail.cc:363-370`). -/
def disconnectAll (owner : BlockId) : HierProgram Unit := do
  let d ← getDetail owner
  setDetail owner { d with fg := d.fg.clear, blocks := [], inputs := [], outputs := [] }

/-! ## Flattening -/

/-- The range and connection checks of `resolve_port` (`gr_hier_block2_detail.cc:318-351`):
the endpoints inside the block that one of its ports stands for. -/
def portTargets (env : Blocks) (owner : BlockId) (d : HierDetail) (port : Int) (isInput : Bool) :
    Except CppException (List Endpoint) :=
  if isInput then
    if port < 0 ∨ port ≥ d.inputs.length then
      .error (.runtimeError ("resolve_port: input " ++ toString port ++ " is out of range"))
    else match d.inputs.getD port.toNat [] with
      | [] => .error (.runtimeError ("hierarchical block '" ++ (env owner).name ++ "' input " ++
          toString port ++ " is not connected internally"))
      | endps => .ok endps
  else
    if port < 0 ∨ port ≥ d.outputs.length then
      .error (.runtimeError ("resolve_port: output " ++ toString port ++ " is out of range"))
    else match d.outputs.getD port.toNat none with
      | none => .error (.runtimeError ("hierarchical block '" ++ (env owner).name ++ "' output " ++
          toString port ++ " is not connected internally"))
      | some endp => .ok [endp]

/-- `resolve_port` (`gr_hier_block2_detail.cc:307-361`) over the resolution of endpoints. -/
def resolvePort (env : Blocks) (resolve : Endpoint → Except CppException (List Endpoint))
    (owner : BlockId) (d : HierDetail) (port : Int) (isInput : Bool) :
    Except CppException (List Endpoint) := do
  let endps ← portTargets env owner d port isInput
  let results ← endps.mapM resolve
  match results.flatten with
  | [] => .error (.runtimeError ("unable to resolve " ++
      (if isInput then "input port " else "output port ") ++ toString port))
  | result => .ok result

/-- `resolve_endpoint` (`gr_hier_block2_detail.cc:372-402`); the recursion goes down the
nesting. -/
def resolveEndpoint (env : Blocks) (h : Hierarchy) (isInput : Bool) :
    Nat → Endpoint → Except CppException (List Endpoint)
  | 0, _ => .error .undefinedBehaviour
  | fuel + 1, endp =>
      if (env endp.block).grBlock.isSome then .ok [endp]
      else match h endp.block with
        | none => .error (.runtimeError ("unable to resolve" ++
            (if isInput then " input " else " output ") ++ "endpoint " ++ endp.print env))
        | some d => resolvePort env (resolveEndpoint env h isInput fuel) endp.block d endp.port isInput

/-- One edge of a detail: every resolved source is connected to every resolved destination
(`gr_hier_block2_detail.cc:414-429`). -/
def flattenEdge (env : Blocks) (h : Hierarchy) (fuel : Nat) (sfg : Flowgraph) (e : Edge) :
    Except CppException Flowgraph := do
  let srcEndps ← resolveEndpoint env h false fuel e.src
  let dstEndps ← resolveEndpoint env h true fuel e.dst
  srcEndps.foldlM (fun sfg s => dstEndps.foldlM (fun sfg d => sfg.connect env s d) sfg) sfg

/-- The blocks one port of a hierarchical block is connected to. -/
def connectedBlocks (env : Blocks) (owner : BlockId) (direction : String)
    (port : List Endpoint × Nat) : Except CppException (List BlockId) :=
  if port.1 = [] then
    .error (.runtimeError ("In hierarchical block " ++ (env owner).name ++ ", " ++ direction ++
      " " ++ toString port.2 ++ " is not connected internally"))
  else .ok (port.1.map Endpoint.block)

/-- The blocks of the port tables (`gr_hier_block2_detail.cc:438-460`). -/
def portBlocks (env : Blocks) (owner : BlockId) (d : HierDetail) :
    Except CppException (List BlockId) := do
  let inputs ← d.inputs.zipIdx.mapM (connectedBlocks env owner "input")
  let outputs ← (d.outputs.map Option.toList).zipIdx.mapM (connectedBlocks env owner "output")
  return inputs.flatten ++ outputs.flatten

/-- `flatten_aux` (`gr_hier_block2_detail.cc:401-474`). -/
def flattenAux (env : Blocks) (h : Hierarchy) : Nat → BlockId → Flowgraph →
    Except CppException Flowgraph
  | 0, _, _ => .error .undefinedBehaviour
  | fuel + 1, owner, sfg =>
      match h owner with
      | none => .error .undefinedBehaviour
      | some d => do
          let sfg ← d.fg.edges.foldlM (flattenEdge env h fuel) sfg
          let ports ← portBlocks env owner d
          let blocks := uniqueVector (d.fg.calcUsedBlocks ++ d.blocks ++ ports)
          blocks.foldlM (fun sfg p =>
            if (h p).isSome then flattenAux env h fuel p sfg else .ok sfg) sfg

/-! ## Locking -/

/-- `gr_hier_block2_detail::lock` (and `unlock`, which is the same walk): the block whose own lock
is reached (`gr_hier_block2_detail.cc:476-498`). The virtual function of any block but a top block
calls the detail again (`gr_hier_block2.cc:102-112`). -/
def detailLock (h : Hierarchy) : Nat → BlockId → Option BlockId
  | 0, _ => none
  | fuel + 1, b =>
      match h b with
      | none => none
      | some d =>
          match d.parent with
          | some parent => detailLock h fuel parent
          | none => if d.topBlock then some b else detailLock h fuel b

/-- `lock` of a hierarchical block. -/
def lock (h : Hierarchy) (fuel : Nat) (b : BlockId) : Option BlockId :=
  match h b with
  | none => none
  | some d => if d.topBlock then some b else detailLock h fuel b

end Hierarchy

end GnuRadio
