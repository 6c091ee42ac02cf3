import GnuRadio.Runtime.SetupConnections

/-!
# Reconfiguration

`merge_connections` keeps the details that exist, with the ports and buffers
they have. Whenever it returns, the edges are served by the right readers and
the edges that stay keep theirs. That it returns, and that the details fit the
new flowgraph, is so exactly when no kept block changes its number of ports and
every kept buffer is large enough already.
-/

namespace GnuRadio

variable {α τ : Type} {h h' h₀ : Heap α τ} {env : Blocks} {granularity : Nat}
  {old fg : Flowgraph} {E : Edge → Prop}

namespace Flowgraph

/-! ## The steps of a merge -/

theorem Progress.mergeOldEdges {l : List Edge} (progress : Progress env h₀ h E)
    (looped : l.foldlM (fg.mergeOldEdge env) h = .ok h') :
    Progress env h₀ h' (fun e => E e ∧ ∀ o ∈ l, o ∉ fg.edges → e.dst ≠ o.dst) ∧
      ∀ dst, (∀ o ∈ l, o ∉ fg.edges → dst ≠ o.dst) → h'.inputAt dst = h.inputAt dst := by
  induction l generalizing h E with
  | nil =>
    obtain rfl := Except.ok.inj looped
    exact ⟨progress.congr (by simp), fun _ _ => rfl⟩
  | cons o l ih =>
    obtain ⟨mid, first, rest⟩ := foldlM_cons_ok.mp looped
    unfold mergeOldEdge at first
    split at first
    · rename_i stays
      obtain rfl := Except.ok.inj first
      obtain ⟨last, elsewhere⟩ := ih progress rest
      refine ⟨last.congr ?_, ?_⟩
      · intro e
        simp [stays]
      · intro dst other
        exact elsewhere dst fun o' later => other o' (List.mem_cons_of_mem o later)
    · rename_i goes
      split at first
      · cases first
      obtain ⟨wired, grows, ports, inputs, outputs⟩ :=
        Heap.clearInput_ok progress.wellWired first
      have next : Progress env h₀ mid (fun e => E e ∧ e.dst ≠ o.dst) := by
        refine ⟨wired, progress.grows.trans grows, ports.trans progress.ports,
          outputs.trans progress.outputs, progress.serves.clear inputs outputs fun _ => Iff.rfl,
          ?_, ?_⟩
        · intro dst p held new
          rw [inputs, Function.update_apply] at held
          split at held
          · cases held
          · exact progress.preload dst p held new
        · intro dst p held new
          have held' := held
          rw [inputs, Function.update_apply] at held
          split at held
          · cases held
          · exact progress.fresh_grows grows held held' new
      obtain ⟨last, elsewhere⟩ := ih next rest
      refine ⟨last.congr ?_, ?_⟩
      · intro e
        simp only [List.mem_cons, forall_eq_or_imp, goes, not_false_eq_true, forall_const,
          and_assoc]
      · intro dst other
        rw [elsewhere dst fun o' later => other o' (List.mem_cons_of_mem o later), inputs,
          Function.update_of_ne (other o List.mem_cons_self goes)]

/-- The edges of both flowgraphs that are served keep their readers. -/
def KeepsServed (old fg : Flowgraph) (h h' : Heap α τ) : Prop :=
  ∀ e ∈ old.edges, e ∈ fg.edges → ∀ p, h.inputAt e.dst = some p →
    h.outputAt e.src = some p.buffer → h'.inputAt e.dst = some p

theorem KeepsServed.trans {mid : Heap α τ} (first : KeepsServed old fg h mid)
    (second : KeepsServed old fg mid h') (outputs : mid.outputAt = h.outputAt) :
    KeepsServed old fg h h' := by
  intro e there stays p held feeds
  refine second e there stays p (first e there stays p held feeds) ?_
  rw [outputs]
  exact feeds

variable {block p b : BlockId} {reader : Option ReaderPtr} {g : GrBlock} {l : List BlockId}
  {h₁ : Heap α τ}

theorem input_ok {which : Int} (read : h.input block which = .ok reader) :
    h.inputAt ⟨block, which⟩ = reader := by
  unfold Heap.input at read
  unfold Heap.inputAt
  dsimp only
  split at read
  · cases read
  · rename_i d detail
    split at read
    · rename_i range
      rw [if_neg (not_lt.mpr range.1), detail, Option.bind_some, ← Except.ok.inj read,
        List.getD_eq_getElem?_getD]
      cases d.input[which.toNat]? <;> rfl
    · cases read

theorem oldReader_ok {i : Nat} (read : oldReader h block i = .ok reader) :
    h.inputAt ⟨block, i⟩ = reader := by
  unfold oldReader at read
  split at read
  · cases read
  · rename_i d detail
    split at read
    · exact input_ok read
    · rename_i beyond
      rw [← Except.ok.inj read, Heap.inputAt, detail, Option.bind_some,
        List.getElem?_eq_none (by simpa using beyond), Option.join_none, ite_self]

theorem Progress.mergeInput {p : BlockId} {g : GrBlock} {i : Nat} (valid : fg.Valid env)
    (progress : Progress env h₀ h E) (inside : ∀ e, E e → e ∈ fg.edges)
    (block : (env p).grBlock = some g) (merged : fg.mergeInput env p g h i = .ok h') :
    Progress env h₀ h' (fun e => E e ∨ (e ∈ fg.edges ∧ e.dst = ⟨p, i⟩)) ∧
      KeepsServed old fg h h' := by
  unfold Flowgraph.mergeInput at merged
  split at merged
  · cases merged
  · rename_i edge found
    obtain ⟨member, here⟩ := valid.calcUpstreamEdge_iff.mp found
    have only : ∀ e, (e ∈ fg.edges ∧ e.dst = ⟨p, i⟩) ↔ e = edge := by
      intro e
      constructor
      · rintro ⟨there, same⟩
        exact valid.dst_inj there member (same.trans here.symm)
      · rintro rfl
        exact ⟨member, here⟩
    split at merged
    · cases merged
    obtain ⟨srcBuffer, source, merged⟩ := bind_ok.mp merged
    obtain ⟨reader, read, merged⟩ := bind_ok.mp merged
    have source := output_ok.mp source
    have held := oldReader_ok read
    rw [← here] at held
    split at merged
    · rename_i matched
      obtain rfl := Except.ok.inj merged
      obtain ⟨q, rfl, buffer⟩ := Option.map_eq_some_iff.mp matched
      refine ⟨⟨progress.wellWired, progress.grows, progress.ports, progress.outputs, ⟨?_, ?_⟩,
        progress.preload, progress.fresh⟩, fun _ _ _ _ same _ => same⟩
      · rintro e (served | new)
        · exact progress.serves.wired e served
        · obtain rfl := (only e).mp new
          exact ⟨q, held, by rw [buffer]; exact source⟩
      · intro dst r there
        obtain ⟨e, served, same⟩ := progress.serves.only dst r there
        exact ⟨e, Or.inl served, same⟩
    · rename_i unmatched
      rw [← show edge.dst.block = p from congrArg Endpoint.block here] at merged block
      rw [← show edge.dst.port = i from congrArg Endpoint.port here] at merged
      obtain ⟨next, inputs⟩ := progress.connect block source merged
        fun e served same => valid.dst_inj (inside e served) member same
      refine ⟨next.congr fun e => by rw [only], ?_⟩
      intro e _ there r held' feeds
      rw [inputs, Function.update_of_ne]
      · exact held'
      · intro same
        obtain rfl := valid.dst_inj there member same
        apply unmatched
        rw [← held, held', Option.map_some]
        exact feeds.symm.trans source

theorem Progress.mergeInputs {l : List Nat} (valid : fg.Valid env) (progress : Progress env h₀ h E)
    (inside : ∀ e, E e → e ∈ fg.edges) (block : (env p).grBlock = some g)
    (looped : l.foldlM (fg.mergeInput env p g) h = .ok h') :
    Progress env h₀ h' (fun e => E e ∨ (e ∈ fg.edges ∧ ∃ i ∈ l, e.dst = ⟨p, (i : Nat)⟩)) ∧
      KeepsServed old fg h h' := by
  induction l generalizing h E with
  | nil =>
    obtain rfl := Except.ok.inj looped
    exact ⟨progress.congr (by simp), fun _ _ _ _ same _ => same⟩
  | cons i l ih =>
    obtain ⟨mid, first, rest⟩ := foldlM_cons_ok.mp looped
    obtain ⟨next, kept⟩ := progress.mergeInput valid inside block first
    have inside' : ∀ e, E e ∨ (e ∈ fg.edges ∧ e.dst = ⟨p, i⟩) → e ∈ fg.edges := by
      rintro e (served | new)
      · exact inside e served
      · exact new.1
    obtain ⟨last, kept'⟩ := ih next inside' rest
    refine ⟨last.congr ?_, kept.trans kept' (next.outputs.trans progress.outputs.symm)⟩
    intro e
    simp only [List.mem_cons, exists_eq_or_imp]
    tauto

theorem Progress.mergeBlock (validOld : old.Valid env) (valid : fg.Valid env)
    (progress : Progress env h₀ h E) (inside : ∀ e, E e → e ∈ fg.edges)
    (merged : fg.mergeBlock env old h p = .ok h') :
    Progress env h₀ h' (fun e => E e ∨ fg.Into p e) ∧ KeepsServed old fg h h' := by
  unfold Flowgraph.mergeBlock at merged
  split at merged
  · cases merged
  rename_i g block
  split at merged
  · obtain ⟨next, kept⟩ := progress.mergeInputs valid inside block merged
    refine ⟨next.congr ?_, kept⟩
    intro e
    refine or_congr_right (and_congr_right fun member => ?_)
    constructor
    · rintro rfl
      obtain ⟨low, high⟩ := valid.dst_input member
      refine ⟨e.dst.port.toNat, List.mem_range.mpr ?_, ?_⟩
      · unfold ninputs at high
        omega
      · rw [Int.toNat_of_nonneg low]
    · rintro ⟨i, -, same⟩
      rw [same]
  · rename_i new
    obtain ⟨next, elsewhere⟩ := progress.connectBlockInputs valid inside merged
    refine ⟨next, ?_⟩
    intro e there _ r held _
    rw [elsewhere]
    · exact held
    · rintro rfl
      apply new
      rw [hasBlockP, validOld.blocks_eq, decide_eq_true_iff]
      exact dst_used there

theorem Progress.mergeBlocks (validOld : old.Valid env) (valid : fg.Valid env)
    (progress : Progress env h₀ h E) (inside : ∀ e, E e → e ∈ fg.edges)
    (looped : l.foldlM (fg.mergeBlock env old) h = .ok h') :
    Progress env h₀ h' (fun e => E e ∨ ∃ p ∈ l, fg.Into p e) ∧ KeepsServed old fg h h' := by
  induction l generalizing h E with
  | nil =>
    obtain rfl := Except.ok.inj looped
    exact ⟨progress.congr (by simp), fun _ _ _ _ same _ => same⟩
  | cons p l ih =>
    obtain ⟨mid, first, rest⟩ := foldlM_cons_ok.mp looped
    obtain ⟨next, kept⟩ := progress.mergeBlock validOld valid inside first
    have inside' : ∀ e, E e ∨ fg.Into p e → e ∈ fg.edges := by
      rintro e (served | into)
      · exact inside e served
      · exact into.1
    obtain ⟨last, kept'⟩ := ih next inside' rest
    refine ⟨last.congr ?_, kept.trans kept' (next.outputs.trans progress.outputs.symm)⟩
    intro e
    simp only [List.mem_cons, exists_eq_or_imp, or_assoc]

theorem Placed.mergeOldEdges {n : Nat} {l : List Edge} (placed : Placed env n h)
    (looped : l.foldlM (fg.mergeOldEdge env) h = .ok h') : Placed env n h' := by
  refine foldlM_invariant (Placed env n) ?_ placed looped
  intro s t o _ before next
  unfold mergeOldEdge at next
  split at next
  · obtain rfl := Except.ok.inj next
    exact before
  · split at next
    · cases next
    · exact before.setInput next

theorem Placed.mergeInput {n : Nat} {p : BlockId} {g : GrBlock} {i : Nat}
    (placed : Placed env n h) (block : (env p).grBlock = some g)
    (merged : fg.mergeInput env p g h i = .ok h') : Placed env n h' := by
  unfold Flowgraph.mergeInput at merged
  split at merged
  · cases merged
  split at merged
  · cases merged
  obtain ⟨srcBuffer, -, merged⟩ := bind_ok.mp merged
  obtain ⟨reader, -, merged⟩ := bind_ok.mp merged
  split at merged
  · obtain rfl := Except.ok.inj merged
    exact placed
  · exact placed.connectInput block merged

theorem Placed.mergeBlocks {n : Nat} (placed : Placed env n h)
    (looped : l.foldlM (fg.mergeBlock env old) h = .ok h') : Placed env n h' := by
  refine foldlM_invariant (Placed env n) ?_ placed looped
  intro s t p _ before next
  unfold mergeBlock at next
  split at next
  · cases next
  rename_i g block
  split at next
  · exact foldlM_invariant (Placed env n) (fun _ _ _ _ before next =>
      before.mergeInput block next) before next
  · exact before.connectBlockInputs next

/-! ## A running flowgraph -/

/-- What running a flowgraph leaves as it is: it moves items and indices and marks
things as done, but makes and drops no pointers. -/
structure SameWiring (h h' : Heap α τ) : Prop where
  nbuffers : h'.nbuffers = h.nbuffers
  nreaders : h'.nreaders = h.nreaders
  detail : ∀ b, (h'.detail b).map (fun d => (d.input, d.output)) =
    (h.detail b).map fun d => (d.input, d.output)
  bufsize : ∀ id, (h'.buffer id).bufsize = (h.buffer id).bufsize
  idents : ∀ id, h'.idents id = h.idents id
  writer : ∀ e id, h.outputAt e = some id → (h.buffer id).writeIndex < (h.buffer id).bufsize →
    (h'.buffer id).writeIndex < (h'.buffer id).bufsize

theorem SameWiring.refl (h : Heap α τ) : SameWiring h h :=
  ⟨rfl, rfl, fun _ => rfl, fun _ => rfl, fun _ => rfl, fun _ _ _ => id⟩

/-- A flowgraph that was set up and may have run since. -/
structure Running (env : Blocks) (fg : Flowgraph) (h : Heap α τ) : Prop where
  wellWired : h.WellWired none
  serves : h.Serves (· ∈ fg.edges)
  blocks : ∀ p ∈ fg.calcUsedBlocks, (env p).grBlock.isSome
  ports : ∀ p ∈ fg.calcUsedBlocks, h.ports p = some (fg.ninputs p, fg.noutputs p)
  unused : ∀ b ∉ fg.calcUsedBlocks, h.ports b = none
  writer : ∀ e id, h.outputAt e = some id → (h.buffer id).writeIndex < (h.buffer id).bufsize

theorem SetUp.writer [Zero α] (setUp : SetUp env granularity fg h) {e : Endpoint} {id : BufferId}
    (there : h.outputAt e = some id) : (h.buffer id).writeIndex < (h.buffer id).bufsize := by
  have used : e.block ∈ fg.calcUsedBlocks := by
    by_contra unused
    have blank := setUp.unused e.block unused
    unfold Heap.ports at blank
    rw [Heap.outputAt, Option.map_eq_none_iff.mp blank] at there
    split at there <;> cases there
  obtain ⟨-, buffer, allocated, same⟩ := (setUp.detailed _ used).made e.port id there
  obtain ⟨_, _, pos, _, _, _, rfl⟩ := allocateBuffer_ok allocated
  rw [same]
  exact pos

theorem SetUp.running [Zero α] (setUp : SetUp env granularity fg h) (same : SameWiring h h') :
    Running env fg h' := by
  have inputs : h'.inputAt = h.inputAt := by
    funext e
    have detail := same.detail e.block
    unfold Heap.inputAt
    cases after : h'.detail e.block <;> cases before : h.detail e.block <;>
      simp_all
  have outputs : h'.outputAt = h.outputAt := by
    funext e
    have detail := same.detail e.block
    unfold Heap.outputAt
    cases after : h'.detail e.block <;> cases before : h.detail e.block <;>
      simp_all
  have ports : h'.ports = h.ports := by
    funext b
    have detail := same.detail b
    unfold Heap.ports
    cases after : h'.detail b <;> cases before : h.detail b <;>
      simp_all
  refine ⟨setUp.wellWired.congr inputs outputs (funext same.idents) same.nbuffers same.nreaders,
    ⟨?_, ?_⟩, setUp.blocks, ?_, ?_, ?_⟩
  · rw [inputs, outputs]
    exact setUp.serves.wired
  · rw [inputs]
    exact setUp.serves.only
  · rw [ports]
    exact fun p used => (setUp.detailed p used).ports
  · rw [ports]
    exact setUp.unused
  · rw [outputs]
    exact fun e id there => same.writer e id there (setUp.writer there)

/-! ## What a merge achieves -/

/-- The heap `h'` is wired for the flowgraph `fg`, and the edges it has in common with
`old` lost nothing since `h`. -/
structure Reconfigured (env : Blocks) (old fg : Flowgraph) (h h' : Heap α τ) : Prop where
  /-- Every block has a detail with its numbers of inputs and outputs. -/
  ports : ∀ b ∈ fg.calcUsedBlocks, h'.ports b = some (fg.ninputs b, fg.noutputs b)
  /-- Every input reads the buffer of the output its edge comes from. -/
  inputs : ∀ e ∈ fg.edges, ∃ p, h'.inputAt e.dst = some p ∧ h'.outputAt e.src = some p.buffer ∧
    (h'.readerAt p).isSome
  /-- An edge that stays keeps its reader, and its buffer keeps its items. -/
  kept : ∀ e ∈ old.edges, e ∈ fg.edges → ∃ p, h.inputAt e.dst = some p ∧
    h'.inputAt e.dst = some p ∧ h'.readerAt p = h.readerAt p ∧
    h'.buffer p.buffer = { h.buffer p.buffer with readers := (h'.buffer p.buffer).readers }
  /-- Every reader of a buffer of the two flowgraphs is the one of an edge. -/
  readers : ∀ src id, src.block ∈ old.calcUsedBlocks ∨ src.block ∈ fg.calcUsedBlocks →
    h'.outputAt src = some id → ∀ r ∈ (h'.buffer id).readers, ∃ e ∈ fg.edges,
      h'.outputAt e.src = some id ∧ h'.inputAt e.dst = some ⟨id, r.ident⟩
  /-- Every output buffer has the size `allocate_buffer` asks for. -/
  sizes : ∀ b ∈ fg.calcUsedBlocks, ∀ port id, h'.outputAt ⟨b, port⟩ = some id →
    ∃ nitems, fg.bufferItems env b port = .ok nitems ∧ nitems ≤ (h'.buffer id).bufsize

/-- The condition for a merge: blocks of both flowgraphs keep their numbers of ports and have large
enough buffers; the others have no detail of an earlier flowgraph, and buffers can be made for
them; and the destinations of new edges have a history. -/
structure CanMerge [Zero α] (env : Blocks) (granularity : Nat) (old fg : Flowgraph)
    (h : Heap α τ) : Prop where
  ninputs : ∀ b ∈ old.calcUsedBlocks, b ∈ fg.calcUsedBlocks → fg.ninputs b = old.ninputs b
  noutputs : ∀ b ∈ old.calcUsedBlocks, b ∈ fg.calcUsedBlocks → fg.noutputs b = old.noutputs b
  sizes : ∀ b ∈ old.calcUsedBlocks, b ∈ fg.calcUsedBlocks → ∀ port id,
    h.outputAt ⟨b, port⟩ = some id →
    ∃ nitems, fg.bufferItems env b port = .ok nitems ∧ nitems ≤ (h.buffer id).bufsize
  blank : ∀ b ∈ fg.calcUsedBlocks, b ∉ old.calcUsedBlocks → h.detail b = none
  fresh : ∀ b ∈ fg.calcUsedBlocks, b ∉ old.calcUsedBlocks → ∀ i < fg.noutputs b,
    ∃ buffer : Buffer α τ, fg.allocateBuffer env granularity b i = .ok buffer
  history : ∀ e ∈ fg.edges, e ∉ old.edges →
    ∃ g, (env e.dst.block).grBlock = some g ∧ 0 ≤ g.preload

theorem mergeConnections_stages [Zero α] (validOld : old.Valid env) (valid : fg.Valid env)
    (wired : h.WellWired none) (serves : h.Serves (· ∈ old.edges))
    (merged : fg.mergeConnections env granularity old h = .ok h') :
    ∃ h₁, DetailsMerged env granularity fg h h₁ fg.calcUsedBlocks ∧
      Progress env h₁ h' (· ∈ fg.edges) ∧ KeepsServed old fg h₁ h' ∧
      Placed env h₁.nreaders h' := by
  obtain ⟨h₁, details, merged⟩ := bind_ok.mp merged
  obtain ⟨h₂, cleared, merged⟩ := bind_ok.mp merged
  rw [valid.blocks_eq] at details merged
  have first := mergeDetails_ok wired details
  obtain ⟨second, elsewhere⟩ :=
    (Progress.refl first.wellWired (first.serves serves)).mergeOldEdges cleared
  have stays : ∀ e, (e ∈ old.edges ∧ ∀ o ∈ old.edges, o ∉ fg.edges → e.dst ≠ o.dst) →
      e ∈ fg.edges := by
    rintro e ⟨member, other⟩
    by_contra gone
    exact other e member gone rfl
  obtain ⟨third, kept⟩ := second.mergeBlocks validOld valid stays merged
  refine ⟨h₁, first, third.congr ?_, KeepsServed.trans ?_ kept second.outputs, ?_⟩
  · intro e
    constructor
    · exact fun member => Or.inr ⟨e.dst.block, dst_used member, member, rfl⟩
    · rintro (served | ⟨_, _, into⟩)
      · exact stays e served
      · exact into.1
  · intro e there member p held _
    rw [elsewhere]
    · exact held
    · intro o other gone same
      exact gone (validOld.dst_inj there other same ▸ member)
  · apply Placed.mergeBlocks _ merged
    apply Placed.mergeOldEdges _ cleared
    exact placed_of_wellWired first.wellWired

theorem mergeConnections_ok [Zero α] (validOld : old.Valid env) (valid : fg.Valid env)
    (running : Running env old h) (merged : fg.mergeConnections env granularity old h = .ok h') :
    ∃ h₁, DetailsMerged env granularity fg h h₁ fg.calcUsedBlocks ∧
      Progress env h₁ h' (· ∈ fg.edges) ∧ KeepsServed old fg h₁ h' := by
  obtain ⟨h₁, first, progress, kept, -⟩ :=
    mergeConnections_stages validOld valid running.wellWired running.serves merged
  exact ⟨h₁, first, progress, kept⟩

theorem Running.used_of_detail (running : Running env old h) (detail : h.detail b ≠ none) :
    b ∈ old.calcUsedBlocks := by
  by_contra unused
  have := running.unused b unused
  unfold Heap.ports at this
  exact detail (Option.map_eq_none_iff.mp this)

theorem Running.detail_of_used (running : Running env old h) (used : b ∈ old.calcUsedBlocks) :
    h.detail b ≠ none := by
  intro none
  have := running.ports b used
  rw [Heap.ports, none] at this
  cases this

/-- A merge that returns serves the new edges, keeps the readers that stay and drops all others. -/
theorem Progress.reconfigured [Zero α] (running : Running env old h)
    (first : DetailsMerged env granularity fg h h₁ fg.calcUsedBlocks)
    (progress : Progress env h₁ h' (· ∈ fg.edges)) (kept : KeepsServed old fg h₁ h')
    (can : CanMerge env granularity old fg h) : Reconfigured env old fg h h' := by
  have grows := first.grows.trans progress.grows
  refine ⟨?_, ?_, ?_, ?_, ?_⟩
  · intro b used
    rw [progress.ports]
    by_cases blank : h.detail b = none
    · exact (first.detailed b used blank).ports
    · have before := running.used_of_detail blank
      rw [can.ninputs b before used, can.noutputs b before used]
      exact first.grows.ports b _ (running.ports b before)
  · intro e member
    obtain ⟨p, held, feeds⟩ := progress.serves.wired e member
    refine ⟨p, held, feeds, ?_⟩
    obtain ⟨r, inside, same⟩ := List.mem_map.mp (progress.wellWired.input_reader _ _ held)
    rw [Heap.readerAt, Buffer.reader?, List.find?_isSome]
    exact ⟨r, inside, by simpa using same⟩
  · intro e there member
    obtain ⟨p, held, feeds⟩ := running.serves.wired e there
    have after := kept e there member p (by rw [first.inputs, held])
      (first.grows.outputs _ _ feeds)
    have lt := running.wellWired.idents_lt _ _ (running.wellWired.input_reader _ _ held)
    exact ⟨p, held, after, (grows.inputs _ _ after lt.2).2, grows.buffer _ lt.1⟩
  · intro src id _ _ r member
    obtain ⟨dst, held⟩ := (progress.wellWired.held id r.ident
      (List.mem_map_of_mem member)).resolve_right (by simp)
    obtain ⟨e, there, rfl⟩ := progress.serves.only dst _ held
    obtain ⟨p, held', feeds⟩ := progress.serves.wired e there
    obtain rfl := Option.some.inj (held'.symm.trans held)
    exact ⟨e, there, feeds, held⟩
  · intro b used port id there
    rw [progress.outputs] at there
    by_cases blank : h.detail b = none
    · obtain ⟨inside, buffer, allocated, same⟩ := (first.detailed b used blank).made port id there
      obtain ⟨nitems, n, pos, le, chosen, enough, rfl⟩ := allocateBuffer_ok allocated
      refine ⟨nitems, chosen, ?_⟩
      rw [progress.grows.buffer id inside, same]
      exact enough
    · have before := running.used_of_detail blank
      have there := first.grows.outputAt_of_ports (running.ports b before) there
      obtain ⟨nitems, chosen, enough⟩ := can.sizes b before used port id there
      refine ⟨nitems, chosen, ?_⟩
      rw [grows.buffer id (running.wellWired.output_lt _ _ there)]
      exact enough

theorem Reconfigured.canMerge [Zero α] (running : Running env old h)
    (first : DetailsMerged env granularity fg h h₁ fg.calcUsedBlocks)
    (progress : Progress env h₁ h' (· ∈ fg.edges)) (done : Reconfigured env old fg h h') :
    CanMerge env granularity old fg h := by
  have grows := first.grows.trans progress.grows
  have ports : ∀ b ∈ old.calcUsedBlocks, b ∈ fg.calcUsedBlocks →
      (fg.ninputs b, fg.noutputs b) = (old.ninputs b, old.noutputs b) := by
    intro b before used
    exact Option.some.inj ((done.ports b used).symm.trans
      (grows.ports b _ (running.ports b before)))
  have blank : ∀ b ∉ old.calcUsedBlocks, h.detail b = none := fun b new =>
    Option.map_eq_none_iff.mp (running.unused b new)
  refine ⟨fun b before used => congrArg Prod.fst (ports b before used),
    fun b before used => congrArg Prod.snd (ports b before used), ?_, fun b _ => blank b, ?_, ?_⟩
  · intro b before used port id there
    obtain ⟨nitems, chosen, enough⟩ := done.sizes b used port id (grows.outputs _ _ there)
    refine ⟨nitems, chosen, ?_⟩
    rw [grows.buffer id (running.wellWired.output_lt _ _ there)] at enough
    exact enough
  · intro b used new i inside
    have detailed := first.detailed b used (blank b new)
    obtain ⟨id, there⟩ := (Heap.outputAt_iff detailed.ports).mpr
      ⟨Int.natCast_nonneg i, by exact_mod_cast inside⟩
    obtain ⟨-, buffer, allocated, -⟩ := detailed.made _ id there
    exact ⟨buffer, allocated⟩
  · intro e member new
    obtain ⟨p, held, feeds, -⟩ := done.inputs e member
    by_cases fresh : h₁.nreaders ≤ p.ident
    · exact progress.preload _ p held fresh
    · -- an old reader at this input can only be the one of the same edge
      exfalso
      obtain ⟨held₁, -⟩ := progress.grows.inputs _ p held (not_le.mp fresh)
      rw [first.inputs] at held₁
      obtain ⟨o, there, same⟩ := running.serves.only _ p held₁
      obtain ⟨q, held', feeds'⟩ := running.serves.wired o there
      rw [same] at held'
      obtain rfl := Option.some.inj (held'.symm.trans held₁)
      have src := progress.wellWired.output_inj _ _ _ (grows.outputs _ _ feeds') feeds
      apply new
      rwa [show e = o by
        obtain ⟨_, _⟩ := e
        obtain ⟨_, _⟩ := o
        simp only at same src
        rw [same, src]]

/-! ## A merge under the condition returns -/

theorem assignDetail_total [Zero α] (block : (env p).grBlock.isSome)
    (blank : h.detail p = none)
    (fresh : ∀ i < fg.noutputs p,
      ∃ buffer : Buffer α τ, fg.allocateBuffer env granularity p i = .ok buffer) :
    ∃ h', fg.assignDetail env granularity h p = .ok h' := by
  obtain ⟨⟨output, mid⟩, looped, -⟩ := foldlM_total (l := List.range (fg.noutputs p))
    (f := fg.allocateOutput env granularity p) (s := (([] : List BufferId), h)) (fun _ => True)
    (by
      intro s i member _
      obtain ⟨buffer, allocated⟩ := fresh i (List.mem_range.mp member)
      exact ⟨_, bind_ok.mpr ⟨buffer, allocated, rfl⟩, trivial⟩)
    trivial
  have made := allocateOutputs_ok _ looped
  obtain ⟨g, block⟩ := Option.isSome_iff_exists.mp block
  obtain ⟨h', set⟩ : ∃ h', mid.setDetail p ⟨List.replicate (fg.ninputs p) none, output, false⟩ =
      .ok h' := by
    simp only [Heap.setDetail, made.detail, blank, List.foldlM_nil]
    exact ⟨_, rfl⟩
  refine ⟨h', bind_ok.mpr ⟨(⟨List.replicate (fg.ninputs p) none, output, false⟩, mid),
    bind_ok.mpr ⟨(output, mid), looped, rfl⟩, ?_⟩⟩
  simp only [block]
  exact set

theorem mergeDetails_total [Zero α] (running : Running env old h)
    (flat : ∀ b ∈ fg.calcUsedBlocks, (env b).grBlock.isSome)
    (can : CanMerge env granularity old fg h) :
    ∃ h₁, fg.calcUsedBlocks.foldlM (fg.mergeDetail env granularity) h = .ok h₁ := by
  obtain ⟨h₁, looped, -⟩ := foldlM_total (l := fg.calcUsedBlocks) (s := h)
    (f := fg.mergeDetail env granularity) (fun s => ∀ b, h.detail b ≠ none → s.detail b ≠ none)
    (by
      intro s p used kept
      obtain ⟨g, block⟩ := Option.isSome_iff_exists.mp (flat p used)
      obtain ⟨t, merged⟩ : ∃ t, fg.mergeDetail env granularity s p = .ok t := by
        unfold mergeDetail
        rw [block]
        cases detail : s.detail p with
        | some d => exact ⟨s, rfl⟩
        | none =>
          have blank : h.detail p = none := by
            by_contra present
            exact kept p present detail
          exact assignDetail_total (flat p used) detail
            (can.fresh p used fun before => running.detail_of_used before blank)
      refine ⟨t, merged, ?_⟩
      intro b present
      obtain ⟨-, ⟨-, rfl⟩ | ⟨blank, assigned⟩⟩ := mergeDetail_ok merged
      · exact kept b present
      · rw [assigned.others b]
        · exact kept b present
        · rintro rfl
          exact kept b present blank)
    (fun _ present => present)
  exact ⟨h₁, looped⟩

/-- The heap has all that the flowgraph needs to connect its edges. -/
structure Ready (env : Blocks) (fg : Flowgraph) (h : Heap α τ) : Prop where
  blocks : ∀ b ∈ fg.calcUsedBlocks, (env b).grBlock.isSome
  ports : ∀ b ∈ fg.calcUsedBlocks, h.ports b = some (fg.ninputs b, fg.noutputs b)
  room : ∀ e ∈ fg.edges, ∃ id, h.outputAt e.src = some id ∧ id < h.nbuffers ∧
    (h.buffer id).writeIndex < (h.buffer id).bufsize ∧
    ∀ g, (env e.dst.block).grBlock = some g → g.preload ≤ (h.buffer id).bufsize

theorem Ready.progress (ready : Ready env fg h₀) (progress : Progress env h₀ h E) :
    Ready env fg h := by
  refine ⟨ready.blocks, ?_, ?_⟩
  · rw [progress.ports]
    exact ready.ports
  · intro e member
    obtain ⟨id, there, inside, writer, fits⟩ := ready.room e member
    refine ⟨id, by rw [progress.outputs, there], inside.trans_le progress.grows.nbuffers, ?_⟩
    rw [progress.grows.buffer id inside]
    exact ⟨writer, fits⟩

theorem CanMerge.ready [Zero α] (valid : fg.Valid env) (running : Running env old h)
    (flat : ∀ b ∈ fg.calcUsedBlocks, (env b).grBlock.isSome)
    (can : CanMerge env granularity old fg h)
    (first : DetailsMerged env granularity fg h h₁ fg.calcUsedBlocks) : Ready env fg h₁ := by
  have ports : ∀ b ∈ fg.calcUsedBlocks, h₁.ports b = some (fg.ninputs b, fg.noutputs b) := by
    intro b used
    by_cases blank : h.detail b = none
    · exact (first.detailed b used blank).ports
    · have before := running.used_of_detail blank
      rw [can.ninputs b before used, can.noutputs b before used]
      exact first.grows.ports b _ (running.ports b before)
  refine ⟨flat, ports, ?_⟩
  intro e member
  have used := src_used member
  obtain ⟨id, there⟩ := (Heap.outputAt_iff (ports _ used)).mpr
    (valid.output_iff.mpr ⟨e, member, rfl⟩)
  refine ⟨id, there, first.wellWired.output_lt _ _ there, ?_⟩
  by_cases blank : h.detail e.src.block = none
  · obtain ⟨-, buffer, allocated, same⟩ := (first.detailed _ used blank).made _ id there
    obtain ⟨nitems, n, pos, le, chosen, enough, rfl⟩ := allocateBuffer_ok allocated
    rw [same]
    exact ⟨pos, fun g block => (preload_lt member block chosen).le.trans enough⟩
  · have before := running.used_of_detail blank
    have there := first.grows.outputAt_of_ports (running.ports _ before) there
    obtain ⟨nitems, chosen, enough⟩ := can.sizes _ before used _ id there
    rw [first.grows.buffer id (running.wellWired.output_lt _ _ there)]
    exact ⟨running.writer _ _ there, fun g block => (preload_lt member block chosen).le.trans enough⟩

theorem mergeOldEdges_total {l : List Edge} (validOld : old.Valid env)
    (running : Running env old h) (grows : Heap.Extends h h₀) (progress : Progress env h₀ h₀ E)
    (listed : ∀ o ∈ l, o ∈ old.edges) : ∃ h', l.foldlM (fg.mergeOldEdge env) h₀ = .ok h' := by
  obtain ⟨h', looped, -⟩ := foldlM_total (l := l) (s := h₀) (f := fg.mergeOldEdge env)
    (fun s => ∃ E, Progress env h₀ s E)
    (by
      rintro s o member ⟨E, progress⟩
      obtain ⟨t, merged⟩ : ∃ t, fg.mergeOldEdge env s o = .ok t := by
        unfold mergeOldEdge
        split
        · exact ⟨s, rfl⟩
        · have there := listed o member
          have used := dst_used there
          obtain ⟨g, block⟩ := Option.isSome_iff_exists.mp (running.blocks _ used)
          obtain ⟨low, high⟩ := validOld.dst_input there
          have ports : s.ports o.dst.block =
              some (old.ninputs o.dst.block, old.noutputs o.dst.block) := by
            rw [progress.ports]
            exact grows.ports _ _ (running.ports _ used)
          rw [block]
          exact Heap.setInput_total progress.wellWired ports low high
      exact ⟨t, merged, _, (progress.mergeOldEdges (foldlM_singleton_ok.mpr merged)).1⟩)
    ⟨E, progress⟩
  exact ⟨h', looped⟩

theorem connectEdge_total {e : Edge} (valid : fg.Valid env) (ready : Ready env fg h₀)
    (progress : Progress env h₀ h E) (member : e ∈ fg.edges)
    (block : (env e.dst.block).grBlock = some g) (nonneg : 0 ≤ g.preload) :
    ∃ id, h.outputAt e.src = some id ∧
      ∃ h', h.connectInput e.dst.block e.dst.port id g.preload = .ok h' := by
  obtain ⟨id, there, inside, writer, fits⟩ := (ready.progress progress).room e member
  obtain ⟨low, high⟩ := valid.dst_input member
  exact ⟨id, there, Heap.connectInput_total progress.wellWired inside
    ((ready.progress progress).ports _ (dst_used member)) low high nonneg (fits g block) writer⟩

theorem connectBlockInputs_total (valid : fg.Valid env) (ready : Ready env fg h₀)
    (progress : Progress env h₀ h E) (inside : ∀ e, E e → e ∈ fg.edges)
    (used : p ∈ fg.calcUsedBlocks)
    (history : ∀ e, fg.Into p e → ∃ g, (env e.dst.block).grBlock = some g ∧ 0 ≤ g.preload) :
    ∃ h', fg.connectBlockInputs env h p = .ok h' := by
  obtain ⟨g, block⟩ := Option.isSome_iff_exists.mp (ready.blocks p used)
  obtain ⟨h', looped, -⟩ := foldlM_total (l := fg.calcUpstreamEdges p) (s := h)
    (f := connectEdge env g) (fun s => ∃ E, Progress env h₀ s E ∧ ∀ e, E e → e ∈ fg.edges)
    (by
      rintro s e member ⟨E, progress, inside⟩
      obtain ⟨there, here⟩ := mem_calcUpstreamEdges.mp member
      obtain ⟨g', block', nonneg⟩ := history e ⟨there, here⟩
      obtain rfl : g' = g := Option.some.inj (block'.symm.trans (by rw [here, block]))
      obtain ⟨id, feeds, t, connected⟩ :=
        connectEdge_total valid ready progress there block' nonneg
      obtain ⟨src, source⟩ := Option.isSome_iff_exists.mp (ready.blocks _ (src_used there))
      have stepped : connectEdge env g' s e = .ok t := by
        unfold connectEdge
        rw [source]
        exact bind_ok.mpr ⟨id, output_ok.mpr feeds, connected⟩
      refine ⟨t, stepped, _, (progress.connectEdge block' stepped
        fun e' old same => valid.dst_inj (inside e' old) there same).1, ?_⟩
      rintro e' (old | rfl)
      · exact inside e' old
      · exact there)
    ⟨E, progress, inside⟩
  refine ⟨h', ?_⟩
  unfold connectBlockInputs
  rw [block]
  exact looped

theorem mergeInput_total {i : Nat} (valid : fg.Valid env)
    (ready : Ready env fg h₀) (progress : Progress env h₀ h E)
    (served : ∀ e ∈ old.edges, e ∈ fg.edges → E e)
    (history : ∀ e ∈ fg.edges, e ∉ old.edges →
      ∃ g, (env e.dst.block).grBlock = some g ∧ 0 ≤ g.preload)
    (used : p ∈ fg.calcUsedBlocks) (block : (env p).grBlock = some g) (inside : i < fg.ninputs p) :
    ∃ h', fg.mergeInput env p g h i = .ok h' := by
  obtain ⟨e, member, here⟩ := valid.input_iff.mp
    ⟨Int.natCast_nonneg i, by exact_mod_cast inside⟩
  obtain ⟨src, source⟩ := Option.isSome_iff_exists.mp (ready.blocks _ (src_used member))
  obtain ⟨id, feeds, -, -, -⟩ := (ready.progress progress).room e member
  obtain ⟨reader, read⟩ : ∃ reader, oldReader h p i = .ok reader := by
    have ports := (ready.progress progress).ports p used
    unfold Heap.ports at ports
    unfold oldReader
    cases detail : h.detail p with
    | none => rw [detail] at ports; cases ports
    | some d =>
      dsimp only
      split
      · rename_i below
        have range : (0 : Int) ≤ i ∧ (i : Int) < d.input.length := ⟨by omega, by omega⟩
        simp only [Heap.input, detail, range, and_self, if_true]
        exact ⟨_, rfl⟩
      · exact ⟨none, rfl⟩
  unfold mergeInput
  simp only [valid.calcUpstreamEdge_iff.mpr ⟨member, here⟩, source]
  suffices rest : ∃ h', (if reader.map ReaderPtr.buffer = some id then .ok h
      else h.connectInput p i id g.preload) = .ok h' by
    obtain ⟨h', rest⟩ := rest
    exact ⟨h', bind_ok.mpr ⟨id, output_ok.mpr feeds, bind_ok.mpr ⟨reader, read, rest⟩⟩⟩
  split
  · exact ⟨h, rfl⟩
  · rename_i unmatched
    by_cases stays : e ∈ old.edges
    · -- an edge that stays has its reader already
      obtain ⟨q, held, feeds'⟩ := progress.serves.wired e (served e stays member)
      rw [here, oldReader_ok read] at held
      rw [held] at unmatched
      exact absurd (feeds'.symm.trans feeds) unmatched
    · obtain ⟨g', block', nonneg⟩ := history e member stays
      obtain ⟨id', feeds', connected⟩ :=
        connectEdge_total valid ready progress member block' nonneg
      obtain rfl := Option.some.inj (feeds.symm.trans feeds')
      have target : e.dst.block = p := congrArg Endpoint.block here
      have port : e.dst.port = i := congrArg Endpoint.port here
      obtain rfl : g' = g := Option.some.inj (block'.symm.trans (by rw [target, block]))
      rw [target, port] at connected
      exact connected

theorem mergeBlocks_total (validOld : old.Valid env) (valid : fg.Valid env)
    (ready : Ready env fg h₀) (progress : Progress env h₀ h E)
    (inside : ∀ e, E e → e ∈ fg.edges) (served : ∀ e ∈ old.edges, e ∈ fg.edges → E e)
    (history : ∀ e ∈ fg.edges, e ∉ old.edges →
      ∃ g, (env e.dst.block).grBlock = some g ∧ 0 ≤ g.preload)
    (listed : ∀ p ∈ l, p ∈ fg.calcUsedBlocks) :
    ∃ h', l.foldlM (fg.mergeBlock env old) h = .ok h' := by
  obtain ⟨h', looped, -⟩ := foldlM_total (l := l) (s := h) (f := fg.mergeBlock env old)
    (fun s => ∃ E, Progress env h₀ s E ∧ (∀ e, E e → e ∈ fg.edges) ∧
      ∀ e ∈ old.edges, e ∈ fg.edges → E e)
    (by
      rintro s p member ⟨E, progress, inside, served⟩
      have used := listed p member
      obtain ⟨g, block⟩ := Option.isSome_iff_exists.mp (ready.blocks p used)
      obtain ⟨t, merged⟩ : ∃ t, fg.mergeBlock env old s p = .ok t := by
        unfold mergeBlock
        rw [block]
        dsimp only
        split
        · obtain ⟨t, looped, -⟩ := foldlM_total (l := List.range (fg.ninputs p)) (s := s)
            (f := fg.mergeInput env p g) (fun s => ∃ E, Progress env h₀ s E ∧
              (∀ e, E e → e ∈ fg.edges) ∧ ∀ e ∈ old.edges, e ∈ fg.edges → E e)
            (by
              rintro s i below ⟨E, progress, inside, served⟩
              obtain ⟨t, merged⟩ := mergeInput_total valid ready progress served history used block
                (List.mem_range.mp below)
              refine ⟨t, merged, _,
                (@Progress.mergeInput _ _ _ _ _ _ old _ _ _ _ _ valid progress inside block
                  merged).1, ?_, ?_⟩
              · rintro e (before | new)
                · exact inside e before
                · exact new.1
              · exact fun e there stays => Or.inl (served e there stays))
            ⟨E, progress, inside, served⟩
          exact ⟨t, looped⟩
        · rename_i new
          apply connectBlockInputs_total valid ready progress inside used
          intro e into
          apply history e into.1
          intro there
          apply new
          rw [hasBlockP, validOld.blocks_eq, decide_eq_true_iff, ← into.2]
          exact dst_used there
      refine ⟨t, merged, _, (progress.mergeBlock validOld valid inside merged).1, ?_, ?_⟩
      · rintro e (before | into)
        · exact inside e before
        · exact into.1
      · exact fun e there stays => Or.inl (served e there stays))
    ⟨E, progress, inside, served⟩
  exact ⟨h', looped⟩

theorem mergeConnections_total [Zero α] (validOld : old.Valid env) (valid : fg.Valid env)
    (running : Running env old h) (flat : ∀ b ∈ fg.calcUsedBlocks, (env b).grBlock.isSome)
    (can : CanMerge env granularity old fg h) :
    ∃ h', fg.mergeConnections env granularity old h = .ok h' := by
  obtain ⟨h₁, details⟩ := mergeDetails_total running flat can
  have first := mergeDetails_ok running.wellWired details
  have ready := can.ready valid running flat first
  have start : Progress env h₁ h₁ (· ∈ old.edges) :=
    .refl first.wellWired (first.serves running.serves)
  obtain ⟨h₂, cleared⟩ := mergeOldEdges_total validOld running first.grows start
    (l := old.edges) fun _ => id
  obtain ⟨second, -⟩ := start.mergeOldEdges cleared
  obtain ⟨h', merged⟩ := mergeBlocks_total validOld valid ready second
    (by
      rintro e ⟨member, other⟩
      by_contra gone
      exact other e member gone rfl)
    (by
      refine fun e there stays => ⟨there, fun o other gone same => ?_⟩
      exact gone (validOld.dst_inj there other same ▸ stays))
    can.history (l := fg.calcUsedBlocks) fun _ => id
  refine ⟨h', bind_ok.mpr ⟨h₁, ?_, bind_ok.mpr ⟨h₂, cleared, ?_⟩⟩⟩
  · rw [valid.blocks_eq]
    exact details
  · rw [valid.blocks_eq]
    exact merged

/-- A merge reconfigures a running flowgraph of which nothing else is left exactly when the blocks
it keeps keep their numbers of ports and have large enough buffers. -/
theorem Running.reconfigured_iff [Zero α] (validOld : old.Valid env) (valid : fg.Valid env)
    (flat : ∀ b ∈ fg.calcUsedBlocks, (env b).grBlock.isSome) (running : Running env old h) :
    (∃ h', fg.mergeConnections env granularity old h = .ok h' ∧ Reconfigured env old fg h h') ↔
      CanMerge env granularity old fg h := by
  constructor
  · rintro ⟨h', merged, done⟩
    obtain ⟨h₁, first, progress, -⟩ := mergeConnections_ok validOld valid running merged
    exact done.canMerge running first progress
  · intro can
    obtain ⟨h', merged⟩ := mergeConnections_total validOld valid running flat can
    obtain ⟨h₁, first, progress, kept⟩ := mergeConnections_ok validOld valid running merged
    exact ⟨h', merged, progress.reconfigured running first kept can⟩

end Flowgraph

end GnuRadio
