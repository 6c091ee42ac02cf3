import GnuRadio.Runtime.FlatFlowgraph

/-!
# What `setup_connections` leaves behind

Every used block has a detail with its numbers of ports, every output a buffer
of its own of the chosen size, and every edge a reader on the buffer of its
source. The steps are followed one by one, in the form `merge_connections`
needs them too.
-/

namespace GnuRadio

variable {α τ : Type} [Zero α] {h h' : Heap α τ} {env : Blocks} {granularity : Nat}
  {fg : Flowgraph}

namespace Flowgraph

/-! ## Giving a block a detail -/

/-- The buffers made so far for the outputs of a block. -/
structure OutputsMade (env : Blocks) (granularity : Nat) (fg : Flowgraph) (block : BlockId)
    (n : Nat) (h : Heap α τ) (output : List BufferId) (h' : Heap α τ) : Prop where
  detail : h'.detail = h.detail
  nreaders : h'.nreaders = h.nreaders
  nbuffers : h.nbuffers ≤ h'.nbuffers
  buffer : ∀ id < h.nbuffers, h'.buffer id = h.buffer id
  idents : ∀ id, h.nbuffers ≤ id → id < h'.nbuffers → h'.idents id = []
  beyond : ∀ id, h'.nbuffers ≤ id → h'.buffer id = h.buffer id
  length : output.length = n
  range : ∀ id ∈ output, h.nbuffers ≤ id ∧ id < h'.nbuffers
  nodup : output.Nodup
  made : ∀ (i : Nat) id, output[i]? = some id →
    fg.allocateBuffer env granularity block i = .ok (h'.buffer id)

variable {block p : BlockId} {n : Nat} {output : List BufferId} {e : Edge} {g : GrBlock}
  {which : Int} {id : BufferId} {l : List BlockId}

theorem allocateOutput_ok {output' : List BufferId} {mid : Heap α τ}
    (before : OutputsMade env granularity fg block n h output mid)
    (stepped : fg.allocateOutput env granularity block (output, mid) n = .ok (output', h')) :
    OutputsMade env granularity fg block (n + 1) h output' h' := by
  obtain ⟨b, allocated, same⟩ := bind_ok.mp stepped
  obtain ⟨rfl, rfl⟩ := Prod.mk.inj (pure_ok.mp same)
  have other : ∀ {id}, id < mid.nbuffers → id ≠ mid.nbuffers := fun inside => Nat.ne_of_lt inside
  have fresh : b.readers = [] := by
    obtain ⟨_, _, _, _, _, _, rfl⟩ := allocateBuffer_ok allocated
    rfl
  refine ⟨before.detail, before.nreaders, before.nbuffers.trans (Nat.le_succ _), ?_, ?_, ?_, ?_, ?_,
    ?_, ?_⟩
  · intro id inside
    rw [← before.buffer id inside]
    exact Function.update_of_ne (other (inside.trans_le before.nbuffers)) ..
  · intro id low high
    simp only [Heap.idents] at high ⊢
    rcases Nat.lt_succ_iff_lt_or_eq.mp high with inside | rfl
    · rw [Function.update_of_ne (other inside)]
      exact before.idents id low inside
    · rw [Function.update_self, fresh, List.map_nil]
  · intro id above
    simp only at above ⊢
    rw [Function.update_of_ne (Nat.ne_of_gt above)]
    exact before.beyond id (Nat.le_of_succ_le above)
  · simp [before.length]
  · intro id member
    simp only at member ⊢
    rcases List.mem_append.mp member with old | new
    · exact ⟨(before.range id old).1, Nat.lt_succ_of_lt (before.range id old).2⟩
    · obtain rfl := List.mem_singleton.mp new
      exact ⟨before.nbuffers, Nat.lt_succ_self _⟩
  · rw [List.nodup_append]
    refine ⟨before.nodup, List.nodup_singleton _, ?_⟩
    intro id old id' new
    rw [List.mem_singleton.mp new]
    exact other (before.range id old).2
  · intro i id there
    simp only at there ⊢
    rw [List.getElem?_append] at there
    split at there
    · have inside := (before.range id (List.mem_of_getElem? there)).2
      rw [Function.update_of_ne (other inside)]
      exact before.made i id there
    · rename_i beyond
      rw [before.length] at beyond there
      obtain ⟨last, rfl⟩ : i - n = 0 ∧ mid.nbuffers = id := by
        rcases List.getElem?_eq_some_iff.mp there with ⟨inside, same⟩
        rw [List.length_singleton] at inside
        refine ⟨by omega, ?_⟩
        simpa [show i - n = 0 by omega] using same
      rw [Function.update_self, show i = n by omega]
      exact allocated

theorem allocateOutputs_ok (n : Nat)
    (looped : (List.range n).foldlM (fg.allocateOutput env granularity block) ([], h) =
      .ok (output, h')) : OutputsMade env granularity fg block n h output h' := by
  induction n generalizing output h' with
  | zero =>
    obtain ⟨rfl, rfl⟩ := Prod.mk.inj (Except.ok.inj looped)
    refine ⟨rfl, rfl, le_rfl, fun _ _ => rfl, ?_, fun _ _ => rfl, rfl, by simp, List.nodup_nil,
      by simp⟩
    intro id low high
    omega
  | succ n ih =>
    rw [List.range_succ, foldlM_append_ok] at looped
    obtain ⟨⟨output₁, h₁⟩, first, last⟩ := looped
    exact allocateOutput_ok (ih first) (foldlM_singleton_ok.mp last)

/-- The effect of giving a block without a detail one for its ports in `fg`. -/
structure DetailAssigned (env : Blocks) (granularity : Nat) (fg : Flowgraph) (h h' : Heap α τ)
    (p : BlockId) : Prop where
  wellWired : h.WellWired none → h'.WellWired none
  grows : h.WellWired none → Heap.Extends h h'
  inputs : h'.inputAt = h.inputAt
  outputs : ∀ e, e.block ≠ p → h'.outputAt e = h.outputAt e
  ports : h'.ports p = some (fg.ninputs p, fg.noutputs p)
  others : ∀ b, b ≠ p → h'.detail b = h.detail b
  made : ∀ e id, e.block = p → h'.outputAt e = some id → h.nbuffers ≤ id ∧ id < h'.nbuffers ∧
    fg.allocateBuffer env granularity p e.port = .ok (h'.buffer id)

omit [Zero α] in
theorem setDetail_ok {d : BlockDetail} (blank : h.detail p = none)
    (set : h.setDetail p d = .ok h') :
    h' = { h with detail := Function.update h.detail p (some d) } := by
  simp only [Heap.setDetail, blank, List.foldlM_nil] at set
  exact (pure_ok.mp set).symm

omit [Zero α] in
theorem inputAt_newDetail
    (blank : h.detail p = none)
    (detail : h'.detail = Function.update h.detail p (some ⟨List.replicate n none, output, false⟩)) :
    h'.inputAt = h.inputAt := by
  funext e
  unfold Heap.inputAt
  rw [detail]
  by_cases here : e.block = p
  · rw [here, Function.update_self, blank, Option.bind_none, Option.bind_some,
      List.getElem?_replicate]
    split_ifs <;> rfl
  · rw [Function.update_of_ne here]

omit [Zero α] in
theorem outputAt_newDetail {input : List (Option ReaderPtr)}
    (detail : h'.detail = Function.update h.detail p (some ⟨input, output, false⟩)) (e : Endpoint) :
    h'.outputAt e = if e.block = p then (if e.port < 0 then none else output[e.port.toNat]?)
      else h.outputAt e := by
  unfold Heap.outputAt
  rw [detail]
  by_cases here : e.block = p
  · rw [if_pos here, here, Function.update_self, Option.bind_some]
  · rw [if_neg here, Function.update_of_ne here]

variable {mid : Heap α τ} {m : Nat}

/-- The buffers that are made have no readers. -/
theorem OutputsMade.idents_eq (made : OutputsMade env granularity fg p n h output mid)
    (wired : h.WellWired none) : mid.idents = h.idents := by
  have none_above : ∀ id, h.nbuffers ≤ id → h.idents id = [] := by
    intro id above
    rw [List.eq_nil_iff_forall_not_mem]
    intro i member
    exact absurd (wired.idents_lt id i member).1 (not_lt.mpr above)
  funext id
  by_cases old : id < h.nbuffers
  · unfold Heap.idents
    rw [made.buffer id old]
  · have above := not_lt.mp old
    rw [none_above id above]
    by_cases new : id < mid.nbuffers
    · exact made.idents id above new
    · rw [← none_above id above]
      unfold Heap.idents
      rw [made.beyond id (not_lt.mp new)]

section NewDetail

variable (made : OutputsMade env granularity fg p n h output mid) (blank : h.detail p = none)
  (detail : h'.detail = Function.update h.detail p (some ⟨List.replicate m none, output, false⟩))
  (rest : h' = { mid with detail := h'.detail })
include made detail rest

/-- The outputs of a new detail are the buffers that were made for it. -/
theorem newDetail_at {e : Endpoint} {id : BufferId} (same : e.block = p)
    (there : h'.outputAt e = some id) :
    0 ≤ e.port ∧ output[e.port.toNat]? = some id ∧ h.nbuffers ≤ id ∧ id < h'.nbuffers := by
  rw [outputAt_newDetail detail, if_pos same] at there
  split at there
  · cases there
  · rw [congrArg Heap.nbuffers rest]
    exact ⟨by omega, there, made.range id (List.mem_of_getElem? there)⟩

include blank

theorem newDetail_wellWired (wired : h.WellWired none) : h'.WellWired none := by
  have here : ∀ e id, e.block = p → h'.outputAt e = some id → _ := fun e id =>
    newDetail_at made detail rest
  have elsewhere : ∀ e, e.block ≠ p → h'.outputAt e = h.outputAt e := fun e other =>
    (outputAt_newDetail detail e).trans (if_neg other)
  have grown : h.nbuffers ≤ h'.nbuffers := congrArg Heap.nbuffers rest ▸ made.nbuffers
  have nreaders : h'.nreaders = h.nreaders := (congrArg Heap.nreaders rest).trans made.nreaders
  have idents : h'.idents = h.idents := by
    rw [← made.idents_eq wired, rest]
    rfl
  constructor
  all_goals try simp only [inputAt_newDetail blank detail, idents, nreaders]
  · intro e id there
    by_cases same : e.block = p
    · exact (here e id same there).2.2.2
    · rw [elsewhere e same] at there
      exact (wired.output_lt e id there).trans_le grown
  · intro e e' id there there'
    by_cases same : e.block = p <;> by_cases same' : e'.block = p
    · obtain ⟨low, at_, -⟩ := here e id same there
      obtain ⟨low', at_', -⟩ := here e' id same' there'
      have port := (List.getElem?_inj (List.getElem?_eq_some_iff.mp at_).1 made.nodup).mp
        (at_.trans at_'.symm)
      exact Endpoint.ext (same.trans same'.symm) (by omega)
    · rw [elsewhere e' same'] at there'
      exact absurd (wired.output_lt e' id there') (not_lt.mpr (here e id same there).2.2.1)
    · rw [elsewhere e same] at there
      exact absurd (wired.output_lt e id there) (not_lt.mpr (here e' id same' there').2.2.1)
    · rw [elsewhere e same] at there
      rw [elsewhere e' same'] at there'
      exact wired.output_inj e e' id there there'
  · exact wired.input_reader
  · exact wired.input_inj
  · exact wired.held
  · exact wired.loose_reader
  · exact wired.loose_free
  · exact fun id i member => ⟨(wired.idents_lt id i member).1.trans_le grown,
      (wired.idents_lt id i member).2⟩
  · exact wired.idents_nodup

theorem newDetail_extends (wired : h.WellWired none) : Heap.Extends h h' := by
  have buffer : ∀ id < h.nbuffers, h'.buffer id = h.buffer id := fun id inside => by
    rw [rest, made.buffer id inside]
  refine ⟨congrArg Heap.nbuffers rest ▸ made.nbuffers,
    ((congrArg Heap.nreaders rest).trans made.nreaders).ge, ?_, ?_, fun id inside => ?_, ?_⟩
  · intro b n there
    have other : b ≠ p := by
      rintro rfl
      rw [Heap.ports, blank] at there
      cases there
    rw [Heap.ports, detail, Function.update_of_ne other]
    exact there
  · intro e id there
    have other : e.block ≠ p := by
      rintro rfl
      rw [Heap.outputAt, blank] at there
      split at there <;> cases there
    rw [outputAt_newDetail detail, if_neg other]
    exact there
  · rw [buffer id inside]
  · intro e q held _
    rw [inputAt_newDetail blank detail] at held
    refine ⟨held, ?_⟩
    unfold Heap.readerAt
    rw [buffer _ (wired.idents_lt _ _ (wired.input_reader e q held)).1]

end NewDetail

theorem assignDetail_ok (blank : h.detail p = none)
    (assigned : fg.assignDetail env granularity h p = .ok h') :
    (env p).grBlock.isSome ∧ DetailAssigned env granularity fg h h' p := by
  obtain ⟨⟨d, _⟩, allocated, assigned⟩ := bind_ok.mp assigned
  obtain ⟨⟨output, mid⟩, looped, same⟩ := bind_ok.mp allocated
  obtain ⟨rfl, rfl⟩ := Prod.mk.inj (pure_ok.mp same)
  have made := allocateOutputs_ok _ looped
  cases block : (env p).grBlock with
  | none => rw [block] at assigned; cases assigned
  | some g =>
    rw [block] at assigned
    have set := setDetail_ok (by rw [made.detail, blank]) assigned
    rw [made.detail] at set
    have detail : h'.detail = Function.update h.detail p
        (some ⟨List.replicate (fg.ninputs p) none, output, false⟩) := congrArg Heap.detail set
    have rest : h' = { mid with detail := h'.detail } := by rw [set]
    refine ⟨rfl, newDetail_wellWired made blank detail rest,
      newDetail_extends made blank detail rest, inputAt_newDetail blank detail,
      fun e other => ?_, ?_, fun b other => ?_, ?_⟩
    · rw [outputAt_newDetail detail, if_neg other]
    · rw [Heap.ports, detail, Function.update_self, Option.map_some, List.length_replicate,
        made.length]
      rfl
    · rw [detail, Function.update_of_ne other]
    · intro e id same there
      obtain ⟨nonneg, at_, low, high⟩ := newDetail_at made detail rest same there
      have allocated := made.made _ _ at_
      rw [Int.toNat_of_nonneg nonneg] at allocated
      exact ⟨low, high, by rw [set]; exact allocated⟩

theorem preload_lt {nitems : Int} (member : e ∈ fg.edges)
    (block : (env e.dst.block).grBlock = some g)
    (chosen : fg.bufferItems env e.src.block e.src.port = .ok nitems) : g.preload < nitems := by
  have fed : e.dst.block ∈ fg.calcDownstreamBlocksOf e.src.block e.src.port := by
    rw [calcDownstreamBlocksOf, mem_uniqueVector]
    exact List.mem_map_of_mem (List.mem_filter.mpr ⟨member, by simp⟩)
  obtain ⟨d, needed, same, items, least⟩ := (bufferItems_ge chosen).2 _ fed
  obtain rfl : g = d := Option.some.inj (block.symm.trans same)
  have rate : ((0 : Nat) : ℚ) * (1 - 2 * Double.unit) ≤ Double.div 1 g.relativeRate := by
    rw [Nat.cast_zero, zero_mul]
    exact Double.round_nonneg (div_nonneg zero_le_one g.relativeRate_nonneg)
  obtain ⟨lower, nonneg, -, history⟩ := downstreamItems_lower rate items
  unfold intMax at history
  unfold GrBlock.preload
  rw [bmod_int (by omega) (by omega)]
  simp only [Nat.cast_zero, zero_mul, zero_add] at lower
  omega

/-! ## One edge -/

/-- What wiring keeps, seen from the heap `h₀` it began with: the edges in `E` are
served, and the readers made since then had a preload and have read nothing. -/
structure Progress (env : Blocks) (h₀ h : Heap α τ) (E : Edge → Prop) : Prop where
  wellWired : h.WellWired none
  grows : Heap.Extends h₀ h
  ports : h.ports = h₀.ports
  outputs : h.outputAt = h₀.outputAt
  serves : h.Serves E
  preload : ∀ dst p, h.inputAt dst = some p → h₀.nreaders ≤ p.ident →
    ∃ g, (env dst.block).grBlock = some g ∧ 0 ≤ g.preload
  fresh : ∀ dst p, h.inputAt dst = some p → h₀.nreaders ≤ p.ident →
    ∃ r, h.readerAt p = some r ∧ r.link = dst.block ∧ r.absReadOffset = 0

/-- Every reader whose address is not below `n` is still where its block's history put it. -/
def Placed (env : Blocks) (n : Nat) (h : Heap α τ) : Prop :=
  ∀ id, ∀ r ∈ (h.buffer id).readers, n ≤ r.ident →
    ∃ g, (env r.link).grBlock = some g ∧ Heap.Attached (h.buffer id) g.preload r

omit [Zero α] in
theorem placed_of_wellWired (wired : h.WellWired none) : Placed env h.nreaders h := by
  intro id r member new
  exact absurd (wired.idents_lt id _ (List.mem_map_of_mem member)).2 (not_lt.mpr new)

omit [Zero α] in
theorem Placed.setInput {reader : Option ReaderPtr} (placed : Placed env n h)
    (set : h.setInput block which reader = .ok h') : Placed env n h' := by
  have effect := Heap.setInput_ok set
  intro id r member new
  rw [effect.readers] at member
  have before : r ∈ (h.buffer id).readers := by
    unfold Heap.remaining at member
    split at member
    · exact member
    · split at member
      · exact List.mem_of_mem_eraseP member
      · exact member
  obtain ⟨g, block, attached⟩ := placed id r before new
  refine ⟨g, block, attached.congr ?_ ?_⟩
  · rw [effect.same.buffer]
  · rw [effect.same.buffer]

omit [Zero α] in
theorem Placed.connectInput (placed : Placed env n h) (known : (env block).grBlock = some g)
    (connected : h.connectInput block which id g.preload = .ok h') : Placed env n h' := by
  obtain ⟨⟨p, mid⟩, added, set⟩ := bind_ok.mp connected
  refine Placed.setInput ?_ set
  obtain ⟨-, effect⟩ := Heap.addReader_ok added
  obtain ⟨new, attached, link, readers⟩ := Heap.addReader_attached added
  have keep : ∀ c (g : GrBlock) r, Heap.Attached (h.buffer c) g.preload r →
      Heap.Attached (mid.buffer c) g.preload r := by
    intro c g r attached
    refine attached.congr ?_ ?_
    · rw [effect.buffer]
    · rw [effect.buffer]
  intro c r member later
  by_cases here : c = id
  · subst here
    rw [readers] at member
    rcases List.mem_append.mp member with old | last
    · obtain ⟨g, block, before⟩ := placed c r old later
      exact ⟨g, block, keep c g r before⟩
    · obtain rfl := List.mem_singleton.mp last
      exact ⟨g, by rw [link, known], keep c g r attached⟩
  · rw [effect.others c here] at member
    obtain ⟨g, block, before⟩ := placed c r member later
    exact ⟨g, block, keep c g r before⟩

omit [Zero α] in
theorem Placed.connectBlockInputs (placed : Placed env n h)
    (connected : fg.connectBlockInputs env h p = .ok h') : Placed env n h' := by
  unfold Flowgraph.connectBlockInputs at connected
  split at connected
  · cases connected
  rename_i g block
  refine foldlM_invariant (Placed env n) ?_ placed connected
  intro s t e member before next
  unfold connectEdge at next
  split at next
  · cases next
  · obtain ⟨id, -, next⟩ := bind_ok.mp next
    have into : e.dst.block = p := by
      unfold calcUpstreamEdges at member
      simpa using (List.mem_filter.mp member).2
    rw [into] at next
    exact before.connectInput block next

variable {h₀ : Heap α τ} {E F : Edge → Prop}

omit [Zero α] in
theorem Progress.refl (wired : h.WellWired none) (serves : h.Serves E) : Progress env h h E := by
  refine ⟨wired, Heap.Extends.refl h, rfl, rfl, serves, ?_, ?_⟩
  all_goals
    intro dst p held new
    exact absurd (wired.idents_lt _ _ (wired.input_reader dst p held)).2 (not_lt.mpr new)

omit [Zero α] in
theorem Progress.fresh_grows {dst : Endpoint} {p : ReaderPtr} (progress : Progress env h₀ h E)
    (grows : Heap.Extends h h') (held : h.inputAt dst = some p) (held' : h'.inputAt dst = some p)
    (new : h₀.nreaders ≤ p.ident) :
    ∃ r, h'.readerAt p = some r ∧ r.link = dst.block ∧ r.absReadOffset = 0 := by
  have old := progress.wellWired.idents_lt _ _ (progress.wellWired.input_reader dst p held)
  rw [(grows.inputs dst p held' old.2).2]
  exact progress.fresh dst p held new

omit [Zero α] in
theorem Progress.congr (progress : Progress env h₀ h E) (same : ∀ e, F e ↔ E e) :
    Progress env h₀ h F :=
  { progress with serves := progress.serves.congr same }

omit [Zero α] in
theorem output_ok : h.output block which = .ok id ↔ h.outputAt ⟨block, which⟩ = some id := by
  unfold Heap.output Heap.outputAt
  dsimp only
  cases h.detail block with
  | none => simp
  | some d =>
    by_cases negative : which < 0
    · simp [negative, not_le.mpr negative]
    · by_cases inside : which.toNat < d.output.length
      · have range : 0 ≤ which ∧ which < d.output.length := ⟨by omega, by omega⟩
        simp [negative, range, inside]
      · have range : ¬ (0 ≤ which ∧ which < d.output.length) := by omega
        simp [negative, range, inside]

omit [Zero α] in
theorem Progress.connect (progress : Progress env h₀ h E)
    (block : (env e.dst.block).grBlock = some g) (source : h.outputAt e.src = some id)
    (connected : h.connectInput e.dst.block e.dst.port id g.preload = .ok h')
    (alone : ∀ e', E e' → e'.dst = e.dst → e' = e) :
    Progress env h₀ h' (fun e' => E e' ∨ e' = e) ∧
      h'.inputAt = Function.update h.inputAt e.dst (some ⟨id, h.nreaders⟩) := by
  obtain ⟨nonneg, wired, grows, ports, inputs, outputs⟩ := Heap.connectInput_ok progress.wellWired
    (progress.wellWired.output_lt _ _ source) connected
  refine ⟨⟨wired, progress.grows.trans grows, ports.trans progress.ports,
    outputs.trans progress.outputs,
    progress.serves.connect inputs outputs source alone fun _ => Iff.rfl, ?_, ?_⟩, inputs⟩
  · intro dst q held new
    rw [inputs, Function.update_apply] at held
    split at held
    · rename_i here
      exact ⟨g, by rw [here]; exact block, nonneg⟩
    · exact progress.preload dst q held new
  · intro dst q held new
    have held' := held
    rw [inputs, Function.update_apply] at held
    split at held
    · rename_i here
      obtain rfl := Option.some.inj held
      rw [here]
      exact Heap.connectInput_readerAt progress.wellWired
        (progress.wellWired.output_lt _ _ source) connected
    · exact progress.fresh_grows grows held held' new

omit [Zero α] in
theorem Progress.connectEdge (progress : Progress env h₀ h E)
    (block : (env e.dst.block).grBlock = some g) (connected : connectEdge env g h e = .ok h')
    (alone : ∀ e', E e' → e'.dst = e.dst → e' = e) :
    Progress env h₀ h' (fun e' => E e' ∨ e' = e) ∧
      ∀ dst, dst ≠ e.dst → h'.inputAt dst = h.inputAt dst := by
  unfold Flowgraph.connectEdge at connected
  split at connected
  · cases connected
  · obtain ⟨id, source, connected⟩ := bind_ok.mp connected
    obtain ⟨next, inputs⟩ := progress.connect block (output_ok.mp source) connected alone
    refine ⟨next, ?_⟩
    intro dst other
    rw [inputs, Function.update_of_ne other]

omit [Zero α] in
theorem Progress.connectEdges {l : List Edge} (valid : fg.Valid env)
    (progress : Progress env h₀ h E) (inside : ∀ e, E e → e ∈ fg.edges)
    (listed : ∀ e ∈ l, e ∈ fg.edges ∧ (env e.dst.block).grBlock = some g)
    (looped : l.foldlM (Flowgraph.connectEdge env g) h = .ok h') :
    Progress env h₀ h' (fun e => E e ∨ e ∈ l) ∧
      ∀ dst, (∀ e ∈ l, dst ≠ e.dst) → h'.inputAt dst = h.inputAt dst := by
  induction l generalizing h E with
  | nil =>
    obtain rfl := Except.ok.inj looped
    exact ⟨progress.congr (by simp), fun _ _ => rfl⟩
  | cons e l ih =>
    obtain ⟨mid, first, rest⟩ := foldlM_cons_ok.mp looped
    obtain ⟨member, block⟩ := listed e List.mem_cons_self
    obtain ⟨next, elsewhere⟩ := progress.connectEdge block first
      fun e' old same => valid.dst_inj (inside e' old) member same
    have inside' : ∀ e', E e' ∨ e' = e → e' ∈ fg.edges := by
      rintro e' (old | rfl)
      · exact inside e' old
      · exact member
    obtain ⟨last, elsewhere'⟩ := ih next inside'
      (fun e' later => listed e' (List.mem_cons_of_mem e later)) rest
    refine ⟨last.congr fun e' => by simp only [List.mem_cons, or_assoc], ?_⟩
    intro dst other
    rw [elsewhere' dst fun e' later => other e' (List.mem_cons_of_mem e later),
      elsewhere dst (other e List.mem_cons_self)]

/-- The edges into a block. -/
def Into (fg : Flowgraph) (p : BlockId) (e : Edge) : Prop := e ∈ fg.edges ∧ e.dst.block = p

theorem mem_calcUpstreamEdges : e ∈ fg.calcUpstreamEdges p ↔ fg.Into p e := by
  simp [calcUpstreamEdges, Into]

omit [Zero α] in
theorem Progress.connectBlockInputs (valid : fg.Valid env) (progress : Progress env h₀ h E)
    (inside : ∀ e, E e → e ∈ fg.edges) (connected : fg.connectBlockInputs env h p = .ok h') :
    Progress env h₀ h' (fun e => E e ∨ fg.Into p e) ∧
      ∀ dst, dst.block ≠ p → h'.inputAt dst = h.inputAt dst := by
  unfold Flowgraph.connectBlockInputs at connected
  split at connected
  · cases connected
  · rename_i g block
    have listed : ∀ e ∈ fg.calcUpstreamEdges p,
        e ∈ fg.edges ∧ (env e.dst.block).grBlock = some g := by
      intro e member
      obtain ⟨inside, here⟩ := mem_calcUpstreamEdges.mp member
      exact ⟨inside, by rw [here, block]⟩
    obtain ⟨next, elsewhere⟩ := progress.connectEdges valid inside listed connected
    refine ⟨next.congr fun e => by rw [mem_calcUpstreamEdges], ?_⟩
    intro dst other
    apply elsewhere
    rintro e member rfl
    exact other (mem_calcUpstreamEdges.mp member).2

/-- Block `p` has the detail `fg` gives it. -/
structure Detailed (env : Blocks) (granularity : Nat) (fg : Flowgraph) (h : Heap α τ)
    (p : BlockId) : Prop where
  ports : h.ports p = some (fg.ninputs p, fg.noutputs p)
  made : ∀ port id, h.outputAt ⟨p, port⟩ = some id → id < h.nbuffers ∧
    ∃ b, fg.allocateBuffer env granularity p port = .ok b ∧
      h.buffer id = { b with readers := (h.buffer id).readers }

theorem DetailAssigned.detailed (assigned : DetailAssigned env granularity fg h h' p) :
    Detailed env granularity fg h' p := by
  refine ⟨assigned.ports, ?_⟩
  intro port id there
  obtain ⟨-, inside, allocated⟩ := assigned.made _ id rfl there
  exact ⟨inside, _, allocated, rfl⟩

theorem Detailed.grows (detailed : Detailed env granularity fg h p) (grows : Heap.Extends h h') :
    Detailed env granularity fg h' p := by
  have ports := grows.ports p _ detailed.ports
  refine ⟨ports, ?_⟩
  intro port id there
  obtain ⟨inside, b, allocated, same⟩ :=
    detailed.made port id (grows.outputAt_of_ports detailed.ports there)
  refine ⟨inside.trans_le grows.nbuffers, b, allocated, ?_⟩
  rw [grows.buffer id inside, same]

/-- The first loop of `merge_connections`: every block without a detail is given one. -/
structure DetailsMerged (env : Blocks) (granularity : Nat) (fg : Flowgraph) (h h' : Heap α τ)
    (l : List BlockId) : Prop where
  wellWired : h'.WellWired none
  grows : Heap.Extends h h'
  inputs : h'.inputAt = h.inputAt
  blocks : ∀ p ∈ l, (env p).grBlock.isSome
  kept : ∀ b, h.detail b ≠ none ∨ b ∉ l → h'.detail b = h.detail b
  detailed : ∀ p ∈ l, h.detail p = none → Detailed env granularity fg h' p

omit [Zero α] in
theorem DetailsMerged.serves [Zero α] (merged : DetailsMerged env granularity fg h h' l)
    (serves : h.Serves E) : h'.Serves E := by
  refine ⟨?_, ?_⟩
  · intro e member
    obtain ⟨q, held, source⟩ := serves.wired e member
    exact ⟨q, by rw [merged.inputs, held], merged.grows.outputs _ _ source⟩
  · rw [merged.inputs]
    exact serves.only

theorem mergeDetail_ok (merged : fg.mergeDetail env granularity h p = .ok h') :
    (env p).grBlock.isSome ∧ ((h.detail p ≠ none ∧ h' = h) ∨
      (h.detail p = none ∧ DetailAssigned env granularity fg h h' p)) := by
  unfold mergeDetail at merged
  split at merged
  · cases merged
  · rename_i g d block detail
    refine ⟨by simp [block], Or.inl ⟨by simp [detail], (Except.ok.inj merged).symm⟩⟩
  · rename_i g block blank
    obtain ⟨isSome, assigned⟩ := assignDetail_ok blank merged
    exact ⟨isSome, Or.inr ⟨blank, assigned⟩⟩

theorem mergeDetails_ok (wired : h.WellWired none)
    (looped : l.foldlM (fg.mergeDetail env granularity) h = .ok h') :
    DetailsMerged env granularity fg h h' l := by
  induction l generalizing h with
  | nil =>
    obtain rfl := Except.ok.inj looped
    exact ⟨wired, Heap.Extends.refl h, rfl, by simp, fun _ _ => rfl, by simp⟩
  | cons p l ih =>
    obtain ⟨mid, first, rest⟩ := foldlM_cons_ok.mp looped
    obtain ⟨block, ⟨present, rfl⟩ | ⟨blank, assigned⟩⟩ := mergeDetail_ok first
    · have merged := ih wired rest
      refine ⟨merged.wellWired, merged.grows, merged.inputs, ?_, ?_, ?_⟩
      · intro q member
        rcases List.mem_cons.mp member with rfl | member
        · exact block
        · exact merged.blocks q member
      · intro b old
        apply merged.kept
        by_cases same : b = p
        · subst same
          exact Or.inl present
        · simpa [same] using old
      · intro q member none
        rcases List.mem_cons.mp member with rfl | member
        · exact absurd none present
        · exact merged.detailed q member none
    · have merged := ih (assigned.wellWired wired) rest
      refine ⟨merged.wellWired, (assigned.grows wired).trans merged.grows,
        merged.inputs.trans assigned.inputs, ?_, ?_, ?_⟩
      · intro q member
        rcases List.mem_cons.mp member with rfl | member
        · exact block
        · exact merged.blocks q member
      · intro b old
        have other : b ≠ p := by
          rintro rfl
          rcases old with old | old
          · exact old blank
          · exact old List.mem_cons_self
        rw [merged.kept b, assigned.others b other]
        rw [assigned.others b other]
        simpa [other] using old
      · intro q member none
        by_cases same : q = p
        · subst same
          exact assigned.detailed.grows merged.grows
        · refine merged.detailed q ?_ (by rw [assigned.others q same]; exact none)
          exact (List.mem_cons.mp member).resolve_left same

/-! ## Setup -/

theorem mergeDetails_of_assignDetails (nodup : l.Nodup) (blank : ∀ p ∈ l, h.detail p = none)
    (looped : l.foldlM (fg.assignDetail env granularity) h = .ok h') :
    l.foldlM (fg.mergeDetail env granularity) h = .ok h' := by
  induction l generalizing h with
  | nil => exact looped
  | cons p l ih =>
    obtain ⟨mid, first, rest⟩ := foldlM_cons_ok.mp looped
    have none := blank p List.mem_cons_self
    obtain ⟨block, assigned⟩ := assignDetail_ok none first
    obtain ⟨g, block⟩ := Option.isSome_iff_exists.mp block
    refine foldlM_cons_ok.mpr ⟨mid, ?_, ih nodup.of_cons ?_ rest⟩
    · unfold mergeDetail
      rw [block, none]
      exact first
    · intro q member
      have other : q ≠ p := by
        rintro rfl
        exact (List.nodup_cons.mp nodup).1 member
      rw [assigned.others q other]
      exact blank q (List.mem_cons_of_mem p member)

theorem wellWired_empty : (Heap.empty : Heap α τ).WellWired none := by
  constructor <;> simp [Heap.empty, Heap.outputAt, Heap.inputAt, Heap.idents, Buffer.ofSize]

omit [Zero α] in
theorem Progress.connectBlocks (valid : fg.Valid env) (progress : Progress env h₀ h E)
    (inside : ∀ e, E e → e ∈ fg.edges) (looped : l.foldlM (fg.connectBlockInputs env) h = .ok h') :
    Progress env h₀ h' (fun e => E e ∨ ∃ p ∈ l, fg.Into p e) := by
  induction l generalizing h E with
  | nil =>
    obtain rfl := Except.ok.inj looped
    exact progress.congr (by simp)
  | cons p l ih =>
    obtain ⟨mid, first, rest⟩ := foldlM_cons_ok.mp looped
    refine (ih (progress.connectBlockInputs valid inside first).1 ?_ rest).congr ?_
    · rintro e (old | into)
      · exact inside e old
      · exact into.1
    · intro e
      simp only [List.mem_cons, exists_eq_or_imp, or_assoc]

/-- What `setup_connections` leaves behind. -/
structure SetUp (env : Blocks) (granularity : Nat) (fg : Flowgraph) (h : Heap α τ) : Prop where
  wellWired : h.WellWired none
  serves : h.Serves (· ∈ fg.edges)
  blocks : ∀ p ∈ fg.calcUsedBlocks, (env p).grBlock.isSome
  detailed : ∀ p ∈ fg.calcUsedBlocks, Detailed env granularity fg h p
  unused : ∀ b ∉ fg.calcUsedBlocks, h.ports b = none
  fresh : ∀ dst p, h.inputAt dst = some p →
    ∃ r, h.readerAt p = some r ∧ r.link = dst.block ∧ r.absReadOffset = 0

theorem setupConnections_of_blank {start : Heap α τ} (valid : fg.Valid env)
    (wired : start.WellWired none) (blank : ∀ b, start.detail b = none)
    (setup : fg.setupConnections env granularity start = .ok h) : SetUp env granularity fg h := by
  have loose : ∀ dst, start.inputAt dst = none := by
    intro dst
    rw [Heap.inputAt, blank]
    exact ite_self none
  obtain ⟨mid, assigned, connected⟩ := bind_ok.mp setup
  have merged := mergeDetails_ok wired
    (mergeDetails_of_assignDetails (uniqueVector_nodup _) (fun b _ => blank b) assigned)
  have idle : mid.Serves fun _ => False := by
    apply merged.serves
    exact ⟨fun _ => False.elim, by simp [loose]⟩
  have progress := (Progress.refl merged.wellWired idle).connectBlocks valid
    (fun _ => False.elim) connected
  refine ⟨progress.wellWired, progress.serves.congr ?_, merged.blocks, ?_, ?_, ?_⟩
  · intro e
    simp only [false_or]
    constructor
    · exact fun member => ⟨e.dst.block, dst_used member, member, rfl⟩
    · rintro ⟨_, _, into⟩
      exact into.1
  · intro p used
    exact (merged.detailed p used (blank p)).grows progress.grows
  · intro b unused
    rw [progress.ports, Heap.ports, merged.kept b (Or.inr unused), blank, Option.map_none]
  · intro dst p held
    refine progress.fresh dst p held (not_lt.mp fun old => ?_)
    have before := (progress.grows.inputs dst p held old).1
    rw [merged.inputs, loose] at before
    cases before

/-- Setting up a flowgraph of blocks that have never run. -/
theorem setupConnections_ok (valid : fg.Valid env)
    (setup : fg.setupConnections env granularity (Heap.empty : Heap α τ) = .ok h) :
    SetUp env granularity fg h :=
  setupConnections_of_blank valid wellWired_empty (fun _ => rfl) setup

end Flowgraph

end GnuRadio
