import GnuRadio.Misc.Program
import GnuRadio.Runtime.Flowgraph

/-!
# Calls on a flowgraph

The calls of a program on one `gr_flowgraph`, in any order, those that throw
included. A call that throws leaves the edges as they were, and `validate` accepts
exactly the graphs whose used ports count up from 0 within the signatures.
-/

namespace GnuRadio

namespace Flowgraph

/-- The calls. -/
inductive Call where
  | connect (src dst : Endpoint)
  | disconnect (src dst : Endpoint)
  | clear
  | validate
  deriving DecidableEq, Repr

/-- The code of a call, in the order of its statements (`gr_flowgraph.cc:66-128`). -/
def Call.program (env : Blocks) : Call → Program Flowgraph CppException Unit
  | .connect src dst => do
      MonadExcept.ofExcept (checkValidPort (env src.block).outputSignature src.port)
      MonadExcept.ofExcept (checkValidPort (env dst.block).inputSignature dst.port)
      let fg ← get
      MonadExcept.ofExcept (fg.checkDstNotUsed env dst)
      MonadExcept.ofExcept (checkTypeMatch env src dst)
      modify fun fg => { fg with edges := fg.edges ++ [⟨src, dst⟩] }
  | .disconnect src dst => do
      let fg ← get
      let fg ← MonadExcept.ofExcept (fg.disconnect env src dst)
      set fg
  | .clear => modify Flowgraph.clear
  | .validate => do
      modify fun fg => { fg with blocks := fg.calcUsedBlocks }
      let fg ← get
      MonadExcept.ofExcept (fg.blocks.forM (fg.validateBlock env))

/-- The outcome of a call, and the flowgraph it leaves. -/
def call (env : Blocks) (fg : Flowgraph) (c : Call) : Except CppException Unit × Flowgraph :=
  (c.program env).exec fg

/-- The flowgraph behind some calls, whether they threw or not. -/
def after (env : Blocks) (calls : List Call) : Flowgraph :=
  calls.foldl (fun fg c => (call env fg c).2) .empty

/-! ## Connecting -/

/-- The port is not negative and within the signature. -/
def WithinSignature (sig : IoSignature) (port : Int) : Prop :=
  0 ≤ port ∧ (sig.maxStreams = -1 ∨ port < sig.maxStreams)

/-- What `connect` demands. -/
structure Connectable (env : Blocks) (fg : Flowgraph) (src dst : Endpoint) : Prop where
  src_port : WithinSignature (env src.block).outputSignature src.port
  dst_port : WithinSignature (env dst.block).inputSignature dst.port
  sizes : (env src.block).outputSignature.sizeofStreamItem src.port =
    (env dst.block).inputSignature.sizeofStreamItem dst.port
  unused : dst ∉ fg.edges.map Edge.dst

variable {env : Blocks} {fg : Flowgraph}

theorem checkValidPort_cases (sig : IoSignature) (port : Int) :
    WithinSignature sig port ∧ checkValidPort sig port = .ok () ∨
      ¬WithinSignature sig port ∧
        ∃ what, checkValidPort sig port = .error (.invalidArgument what) := by
  unfold checkValidPort WithinSignature
  by_cases negative : port < 0
  · rw [if_pos negative]
    exact .inr ⟨fun within => by omega, _, rfl⟩
  · rw [if_neg negative]
    by_cases beyond : sig.maxStreams ≠ -1 ∧ port ≥ sig.maxStreams
    · rw [if_pos beyond]
      exact .inr ⟨fun within => by omega, _, rfl⟩
    · rw [if_neg beyond]
      exact .inl ⟨by omega, rfl⟩

theorem checkDstNotUsed_cases (env : Blocks) (fg : Flowgraph) (dst : Endpoint) :
    dst ∉ fg.edges.map Edge.dst ∧ fg.checkDstNotUsed env dst = .ok () ∨
      dst ∈ fg.edges.map Edge.dst ∧
        ∃ what, fg.checkDstNotUsed env dst = .error (.invalidArgument what) := by
  unfold checkDstNotUsed
  cases found : fg.edges.find? fun e => e.dst = dst with
  | none => exact .inl ⟨by simpa [List.find?_eq_none] using found, rfl⟩
  | some e =>
    have same : e.dst = dst := by simpa using List.find?_some found
    exact .inr ⟨same ▸ List.mem_map_of_mem (List.mem_of_find?_eq_some found), _, rfl⟩

theorem sizeofStreamItem_ok {sig : IoSignature} {port : Int} (within : WithinSignature sig port) :
    ∃ size, sig.sizeofStreamItem port = .ok size :=
  ⟨_, if_neg (not_lt.mpr within.1)⟩

theorem checkTypeMatch_cases {src dst : Endpoint}
    (srcPort : WithinSignature (env src.block).outputSignature src.port)
    (dstPort : WithinSignature (env dst.block).inputSignature dst.port) :
    (env src.block).outputSignature.sizeofStreamItem src.port =
        (env dst.block).inputSignature.sizeofStreamItem dst.port ∧
      checkTypeMatch env src dst = .ok () ∨
    (env src.block).outputSignature.sizeofStreamItem src.port ≠
        (env dst.block).inputSignature.sizeofStreamItem dst.port ∧
      ∃ what, checkTypeMatch env src dst = .error (.invalidArgument what) := by
  obtain ⟨srcSize, given⟩ := sizeofStreamItem_ok srcPort
  obtain ⟨dstSize, taken⟩ := sizeofStreamItem_ok dstPort
  rw [checkTypeMatch, given, taken, ok_bind, ok_bind]
  by_cases same : srcSize = dstSize
  · rw [if_neg (not_not.mpr same)]
    exact .inl ⟨congrArg Except.ok same, rfl⟩
  · rw [if_pos same]
    exact .inr ⟨fun both => same (Except.ok.inj both), _, rfl⟩

theorem call_connect (env : Blocks) (fg : Flowgraph) (src dst : Endpoint) :
    Connectable env fg src dst ∧
      call env fg (.connect src dst) = (.ok (), { fg with edges := fg.edges ++ [⟨src, dst⟩] }) ∨
    ¬Connectable env fg src dst ∧
      ∃ what, call env fg (.connect src dst) = (.error (.invalidArgument what), fg) := by
  simp only [call, Call.program, Program.exec_bind, Program.exec_ofExcept, Program.exec_get,
    Program.exec_modify]
  obtain ⟨srcPort, checked⟩ | ⟨bad, what, checked⟩ :=
    checkValidPort_cases (env src.block).outputSignature src.port
  · obtain ⟨dstPort, checked'⟩ | ⟨bad, what, checked'⟩ :=
      checkValidPort_cases (env dst.block).inputSignature dst.port
    · obtain ⟨unused, free⟩ | ⟨used, what, free⟩ := checkDstNotUsed_cases env fg dst
      · obtain ⟨sizes, agree⟩ | ⟨differ, what, agree⟩ := checkTypeMatch_cases srcPort dstPort
        · exact .inl ⟨⟨srcPort, dstPort, sizes, unused⟩, by simp only [checked, checked', free, agree]⟩
        · refine .inr ⟨fun can => differ can.sizes, what, ?_⟩
          simp only [checked, checked', free, agree]
      · refine .inr ⟨fun can => can.unused used, what, ?_⟩
        simp only [checked, checked', free]
    · refine .inr ⟨fun can => bad can.dst_port, what, ?_⟩
      simp only [checked, checked']
  · refine .inr ⟨fun can => bad can.src_port, what, ?_⟩
    simp only [checked]

theorem call_disconnect (env : Blocks) (fg : Flowgraph) (src dst : Endpoint) :
    ⟨src, dst⟩ ∈ fg.edges ∧
      call env fg (.disconnect src dst) =
        (.ok (), { fg with edges := fg.edges.erase ⟨src, dst⟩ }) ∨
    ⟨src, dst⟩ ∉ fg.edges ∧
      ∃ what, call env fg (.disconnect src dst) = (.error (.invalidArgument what), fg) := by
  simp only [call, Call.program, Program.exec_bind, Program.exec_ofExcept, Program.exec_get]
  unfold disconnect
  by_cases present : (⟨src, dst⟩ : Edge) ∈ fg.edges
  · rw [if_pos present]
    exact .inl ⟨present, rfl⟩
  · rw [if_neg present]
    exact .inr ⟨present, _, rfl⟩

theorem call_validate (env : Blocks) (fg : Flowgraph) :
    call env fg .validate =
      ((fg.calcUsedBlocks.forM (validateBlock env { fg with blocks := fg.calcUsedBlocks })),
        { fg with blocks := fg.calcUsedBlocks }) := by
  simp only [call, Call.program, Program.exec_bind, Program.exec_ofExcept, Program.exec_get,
    Program.exec_modify]

/-! ## Graphs that calls can build -/

theorem portsUsedOnce_call (once : fg.PortsUsedOnce) (c : Call) :
    (call env fg c).2.PortsUsedOnce := by
  cases c with
  | connect src dst =>
    obtain ⟨can, done⟩ | ⟨-, what, done⟩ := call_connect env fg src dst
    · rw [done]
      exact once.append can.src_port.1 can.dst_port.1 can.unused
    · rw [done]
      exact once
  | disconnect src dst =>
    obtain ⟨-, done⟩ | ⟨-, what, done⟩ := call_disconnect env fg src dst
    · rw [done]
      exact once.erase _
    · rw [done]
      exact once
  | clear => exact portsUsedOnce_empty
  | validate =>
    rw [call_validate]
    exact ⟨once.src_nonneg, once.dst_nonneg, once.dst_nodup⟩

theorem portsUsedOnce_after (env : Blocks) (calls : List Call) :
    (after env calls).PortsUsedOnce := by
  refine List.foldlRecOn calls _ portsUsedOnce_empty ?_
  intro fg once c _
  exact portsUsedOnce_call once c

/-! ## Valid graphs -/

/-- The used ports of a block on one side are exactly `0, …, n - 1`. -/
def UsesPorts (fg : Flowgraph) (block : BlockId) (checkInputs : Bool) (n : Nat) : Prop :=
  ∀ port : Int, (∃ e ∈ fg.edges, (if checkInputs then e.dst else e.src) = ⟨block, port⟩) ↔
    0 ≤ port ∧ port < n

/-- The number of streams is within the signature. -/
def StreamsWithin (sig : IoSignature) (n : Nat) : Prop :=
  sig.minStreams ≤ n ∧ (sig.maxStreams = -1 ∨ n ≤ sig.maxStreams)

/-- What `validate` demands of a block. -/
def ValidBlock (env : Blocks) (fg : Flowgraph) (block : BlockId) : Prop :=
  ∃ ninputs noutputs,
    fg.UsesPorts block true ninputs ∧ StreamsWithin (env block).inputSignature ninputs ∧
    fg.UsesPorts block false noutputs ∧ StreamsWithin (env block).outputSignature noutputs ∧
    (env block).checkTopology ninputs noutputs = true

/-- Ports that count up from 0. -/
def CountUp (ports : List Int) : Prop := ∀ i (h : i < ports.length), ports[i] = i

theorem countUp_iff {ports : List Int} (sorted : ports.Pairwise (· < ·)) (n : Nat) :
    CountUp ports ∧ ports.length = n ↔ ∀ port : Int, port ∈ ports ↔ 0 ≤ port ∧ port < n := by
  constructor
  · rintro ⟨counts, rfl⟩ port
    constructor
    · intro member
      obtain ⟨i, inside, rfl⟩ := List.mem_iff_getElem.mp member
      rw [counts i inside]
      omega
    · rintro ⟨nonneg, inside⟩
      have same := counts port.toNat (by omega)
      rw [Int.toNat_of_nonneg nonneg] at same
      exact List.mem_of_getElem same
  · intro members
    have numbers : ((List.range n).map Int.ofNat).Pairwise (· < ·) :=
      List.pairwise_map.mpr (List.pairwise_lt_range.imp fun below => Int.ofNat_lt.mpr below)
    have perm : ports.Perm ((List.range n).map Int.ofNat) := by
      refine (List.perm_ext_iff_of_nodup (sorted.imp ne_of_lt) (numbers.imp ne_of_lt)).mpr ?_
      intro port
      rw [members, List.mem_map]
      constructor
      · rintro ⟨nonneg, inside⟩
        exact ⟨port.toNat, List.mem_range.mpr (by omega), Int.toNat_of_nonneg nonneg⟩
      · rintro ⟨i, inside, rfl⟩
        have inside := List.mem_range.mp inside
        simp only [Int.ofNat_eq_natCast]
        omega
    have same : ports = (List.range n).map Int.ofNat :=
      perm.eq_of_pairwise (fun a b _ _ below above => absurd below (lt_asymm above)) sorted numbers
    rw [same]
    exact ⟨fun i inside => by simp, by simp⟩

theorem checkContiguity_iff {block : BlockId} {ports : List Int} {checkInputs : Bool}
    (sorted : ports.Pairwise (· < ·)) (nonneg : ∀ p ∈ ports, 0 ≤ p) :
    checkContiguity env block ports checkInputs = .ok () ↔
      StreamsWithin (if checkInputs then (env block).inputSignature
        else (env block).outputSignature) ports.length ∧ CountUp ports := by
  constructor
  · intro checked
    refine ⟨?_, checkContiguity_ok sorted nonneg checked⟩
    unfold checkContiguity at checked
    generalize (if checkInputs then _ else _ : IoSignature) = sig at checked ⊢
    have bounds := sig.min_le
    have low := sig.min_nonneg
    unfold StreamsWithin
    dsimp only at checked
    split at checked
    · omega
    split at checked
    · cases checked
    split at checked
    · cases checked
    · omega
  · rintro ⟨within, counts⟩
    unfold checkContiguity
    generalize (if checkInputs then _ else _ : IoSignature) = sig at within ⊢
    obtain ⟨enough, room⟩ := within
    dsimp only
    split
    · rfl
    · rename_i some
      rw [if_neg (not_lt.mpr enough), if_neg (by omega), if_neg]
      have length : 0 < ports.length := by
        have low := sig.min_nonneg
        omega
      rw [not_not, List.getLast?_eq_getElem?, List.getElem?_eq_getElem (by omega),
        counts _ (by omega)]
      congr 1
      omega

theorem usesPorts_iff (block : BlockId) (checkInputs : Bool) (n : Nat) :
    fg.UsesPorts block checkInputs n ↔
      CountUp (fg.calcUsedPorts block checkInputs) ∧
        (fg.calcUsedPorts block checkInputs).length = n := by
  rw [calcUsedPorts, countUp_iff (uniqueVector_pairwise _), ← calcUsedPorts]
  exact forall_congr' fun port => iff_congr mem_calcUsedPorts.symm Iff.rfl

theorem validateBlock_iff (once : fg.PortsUsedOnce) (block : BlockId) :
    fg.validateBlock env block = .ok () ↔ ValidBlock env fg block := by
  have nonneg : ∀ checkInputs, ∀ p ∈ fg.calcUsedPorts block checkInputs, 0 ≤ p := by
    intro checkInputs p used
    obtain ⟨e, member, same⟩ := mem_calcUsedPorts.mp used
    cases checkInputs with
    | false =>
      have port := once.src_nonneg e member
      rwa [show e.src = ⟨block, p⟩ from same] at port
    | true =>
      have port := once.dst_nonneg e member
      rwa [show e.dst = ⟨block, p⟩ from same] at port
  have checked := fun checkInputs => @checkContiguity_iff env block _ checkInputs
    (uniqueVector_pairwise _) (nonneg checkInputs)
  unfold validateBlock ValidBlock
  simp only [usesPorts_iff]
  constructor
  · intro accepted
    obtain ⟨_, inputs, accepted⟩ := bind_ok.mp accepted
    obtain ⟨_, outputs, accepted⟩ := bind_ok.mp accepted
    obtain ⟨inputsWithin, inputsCount⟩ := (checked true).mp inputs
    obtain ⟨outputsWithin, outputsCount⟩ := (checked false).mp outputs
    refine ⟨_, _, ⟨inputsCount, rfl⟩, inputsWithin, ⟨outputsCount, rfl⟩, outputsWithin, ?_⟩
    split at accepted
    · assumption
    · cases accepted
  · rintro ⟨_, _, ⟨inputsCount, rfl⟩, inputsWithin, ⟨outputsCount, rfl⟩, outputsWithin, topology⟩
    refine bind_ok.mpr ⟨(), (checked true).mpr ⟨inputsWithin, inputsCount⟩, ?_⟩
    refine bind_ok.mpr ⟨(), (checked false).mpr ⟨outputsWithin, outputsCount⟩, ?_⟩
    exact if_pos topology

theorem forM_iff {ε β : Type} {f : β → Except ε Unit} {l : List β} :
    l.forM f = .ok () ↔ ∀ x ∈ l, f x = .ok () := by
  refine ⟨forM_ok, ?_⟩
  intro each
  induction l with
  | nil => rfl
  | cons x l ih =>
    refine bind_ok.mpr ⟨(), each x List.mem_cons_self, ?_⟩
    exact ih fun y member => each y (List.mem_cons_of_mem x member)

theorem call_validate_iff (once : fg.PortsUsedOnce) :
    (call env fg .validate).1 = .ok () ↔ ∀ block ∈ fg.calcUsedBlocks, ValidBlock env fg block := by
  have stored : PortsUsedOnce { fg with blocks := fg.calcUsedBlocks } :=
    ⟨once.src_nonneg, once.dst_nonneg, once.dst_nodup⟩
  rw [call_validate, forM_iff]
  exact forall₂_congr fun block _ => validateBlock_iff stored block

theorem used_iff {block : BlockId} :
    block ∈ fg.calcUsedBlocks ↔ ∃ e ∈ fg.edges, e.src.block = block ∨ e.dst.block = block := by
  simp [calcUsedBlocks, eq_comm]

end Flowgraph

open Flowgraph

/-- **Checked and atomic.** Behind any calls, `connect` adds exactly the edge if it may and else
throws and changes nothing; so does `disconnect`; destinations are distinct; and `validate` returns
exactly for the graphs whose blocks use the ports from 0 on, as many as they allow. -/
theorem flowgraph_calls_checked (env : Blocks) (calls : List Flowgraph.Call) :
    let fg := after env calls
    (∀ src dst,
      (Connectable env fg src dst → Flowgraph.call env fg (.connect src dst) =
        (.ok (), { fg with edges := fg.edges ++ [⟨src, dst⟩] })) ∧
      (¬Connectable env fg src dst →
        ∃ what, Flowgraph.call env fg (.connect src dst) = (.error (.invalidArgument what), fg))) ∧
    (∀ src dst,
      (⟨src, dst⟩ ∈ fg.edges → Flowgraph.call env fg (.disconnect src dst) =
        (.ok (), { fg with edges := fg.edges.filter (· ≠ ⟨src, dst⟩) })) ∧
      (⟨src, dst⟩ ∉ fg.edges →
        ∃ what, Flowgraph.call env fg (.disconnect src dst) = (.error (.invalidArgument what), fg))) ∧
    (fg.edges.map Edge.dst).Nodup ∧
    ((Flowgraph.call env fg .validate).1 = .ok () ↔
      ∀ block, (∃ e ∈ fg.edges, e.src.block = block ∨ e.dst.block = block) →
        ValidBlock env fg block) := by
  intro fg
  have once : fg.PortsUsedOnce := portsUsedOnce_after env calls
  refine ⟨?_, ?_, once.dst_nodup, ?_⟩
  · intro src dst
    obtain ⟨can, done⟩ | ⟨cannot, failed⟩ := call_connect env fg src dst
    · exact ⟨fun _ => done, fun cannot => absurd can cannot⟩
    · exact ⟨fun can => absurd can cannot, fun _ => failed⟩
  · intro src dst
    obtain ⟨present, done⟩ | ⟨absent, failed⟩ := call_disconnect env fg src dst
    · refine ⟨fun _ => ?_, fun absent => absurd present absent⟩
      rw [done, once.dst_nodup.of_map.erase_eq_filter]
      simp only [ne_eq, decide_not]
      rfl
    · exact ⟨fun present => absurd present absent, fun _ => failed⟩
  · rw [call_validate_iff once]
    exact forall_congr' fun block => imp_congr_left used_iff

end GnuRadio
