import GnuRadio.Runtime.TagOffsets
import GnuRadio.Runtime.TagWindows

/-!
# Tags are propagated once

A block that copies its tags to all its outputs adds every tag of the items it has
consumed to each output once, and a reader finds there, when its window comes to
them, all tags that were put. Both rest on an order of steps of different threads.
-/

namespace GnuRadio

variable {α τ μ : Type} {env : Blocks} {w w' : World α τ μ} {b c : BlockId} {id : BufferId}

namespace Heap

variable {h h' : Heap α τ}

/-- Every reader of a buffer belongs to one block, and a block writes different buffers. -/
structure Plumbed (env : Blocks) (h : Heap α τ) : Prop where
  wired : h.Wired env
  readers : ∀ id, ((h.buffer id).wires.2.map Prod.fst).Nodup
  outputs : ∀ c, (h.outputs c).Nodup

theorem Plumbed.sameWires (plumbed : h.Plumbed env) (same : SameWires h h') : h'.Plumbed env where
  wired := plumbed.wired.sameWires same
  readers id := by
    rw [same.wires]
    exact plumbed.readers id
  outputs c := by
    rw [same.outputs]
    exact plumbed.outputs c

theorem Plumbed.readerAt (plumbed : h.Plumbed env) {d : BlockDetail} {port : Nat} {p : ReaderPtr}
    (detail : h.detail b = some d) (held : d.input[port]? = some (some p)) :
    ∃ r, h.readerAt p = some r := by
  obtain ⟨r, present, same⟩ := List.mem_map.mp
    (plumbed.wired.reader b d p detail (List.mem_of_getElem? held))
  rw [← Option.isSome_iff_exists, Heap.readerAt, Buffer.reader?, List.find?_isSome]
  exact ⟨r, present, by simp [(Prod.mk.inj same).1]⟩

end Heap

namespace World

variable {e : Action α τ μ} {i : Inlet}

/-! ## The tags of a block -/

/-- The tags a step of the thread of a block adds to a buffer in `propagate_tags`. -/
def propagates (w : World α τ μ) (b : BlockId) (id : BufferId) : Action α τ μ → List (Tag τ)
  | .thread c .advance => if c = b then w.puts id (.thread c .advance) else []
  | _ => []

/-- The tags a block has read in `propagate_tags` and has still to add to a buffer. -/
def pendingFor (w : World α τ μ) (b : BlockId) (id : BufferId) : List (Tag τ) :=
  match w.phase b with
  | .propagating _ pending _ _ => (pending.filter fun x => x.1 = id).map Prod.snd
  | _ => []

/-- The tags of the inputs of a block that it has not added to an output yet. -/
def waiting (w : World α τ μ) (b : BlockId) (id : BufferId) : List (Tag τ) :=
  w.pendingFor b id ++ (w.heap.inlets b).flatMap fun i =>
    (w.heap.buffer i.ptr.buffer).itemTags.filter fun t => w.mark i ≤ t.offset

/-- A step that keeps the tags of a block in order: items are published after their tags have been
added and consumed after that, inputs get no tags where it has looked or published, no tags are
pruned in an open window, and no offset runs over 64 bits. -/
structure TagsSafe (w : World α τ μ) (b : BlockId) (e : Action α τ μ) : Prop where
  fits : ∀ id ∈ w.heap.around b,
    (w.heap.buffer id).absWriteOffset + w.publishes id e < 2 ^ 64 ∧
      ∀ x ∈ (w.heap.buffer id).progress, x.2 + w.consumes ⟨id, x.1⟩ e < 2 ^ 64
  published : ∀ id ∈ w.heap.outputs b, 0 < w.publishes id e → ∀ t ∈ w.waiting b id,
    (w.heap.buffer id).absWriteOffset + w.publishes id e ≤ t.offset
  consumed : ∀ id ∈ w.heap.outputs b, ∀ x ∈ (w.heap.buffer id).progress,
    x.2 + w.consumes ⟨id, x.1⟩ e ≤ (w.heap.buffer id).absWriteOffset
  tagged : ∀ i ∈ w.heap.inlets b, ∀ t ∈ w.puts i.ptr.buffer e, w.mark i ≤ t.offset ∧
    ∀ id ∈ w.heap.outputs b, (w.heap.buffer id).absWriteOffset ≤ t.offset
  pruned : ∀ id ∈ w.heap.around b, ∀ limit ∈ w.prunesTo id e, ∀ i ∈ w.heap.inletsFrom id,
    ∀ start ∈ w.openFrom i, limit ≤ start

instance (w : World α τ μ) (b : BlockId) (e : Action α τ μ) : Decidable (w.TagsSafe b e) :=
  have parts : (_ ∧ _ ∧ _ ∧ _ ∧ _) ↔ w.TagsSafe b e :=
    ⟨fun all => ⟨all.1, all.2.1, all.2.2.1, all.2.2.2.1, all.2.2.2.2⟩,
      fun safe => ⟨safe.fits, safe.published, safe.consumed, safe.tagged, safe.pruned⟩⟩
  decidable_of_iff _ parts

/-- The tags a run has put into a buffer. -/
def putBy (env : Blocks) (w₀ : World α τ μ) (es : List (Action α τ μ)) (id : BufferId) :
    List (Tag τ) :=
  observed (fun w e => w.puts id e) (tpbStep env) w₀ es

/-- The tags a block has added to a buffer in the `propagate_tags` of a run. -/
def propagatedBy (env : Blocks) (w₀ : World α τ μ) (es : List (Action α τ μ)) (b : BlockId)
    (id : BufferId) : List (Tag τ) :=
  observed (fun w e => w.propagates b id e) (tpbStep env) w₀ es

/-- The tags of a block after a run. -/
structure TagsOnce (env : Blocks) (w₀ : World α τ μ) (es : List (Action α τ μ)) (w : World α τ μ)
    (b : BlockId) : Prop where
  /-- Between two iterations, each output has got every tag of the items consumed once. -/
  once : (w.phase b).Closed → ∀ id ∈ w.heap.outputs b,
    (propagatedBy env w₀ es b id).Perm ((w.heap.inlets b).flatMap fun i =>
      (putBy env w₀ es i.ptr.buffer).filter fun t => t.offset < w.heap.itemsRead i.ptr)
  /-- Each output has got every tag below the mark of one of its readers once. -/
  inTime : ∀ id ∈ w.heap.outputs b, ∀ i ∈ w.heap.inletsFrom id,
    ((propagatedBy env w₀ es b id).filter fun t => t.offset < w.mark i).Perm
      ((w.heap.inlets b).flatMap fun j =>
        (putBy env w₀ es j.ptr.buffer).filter fun t => t.offset < w.mark i)
  /-- A buffer still has every tag from the mark of one of its readers on. -/
  kept : ∀ id ∈ w.heap.around b, ∀ i ∈ w.heap.inletsFrom id,
    Retained Tag.offset (putBy env w₀ es id) (w.heap.buffer id).itemTags (w.mark i)

/-! ## What one step preserves -/

theorem consumes_other (plumbed : w.heap.Plumbed env) (member : i ∈ w.heap.inlets i.block)
    (other : e.owner ≠ some i.block) : w.consumes i.ptr e = 0 := by
  have apart : ∀ c d, w.heap.detail c = some d → some i.ptr ∈ d.input → c = i.block := by
    intro c d detail held
    obtain ⟨-, d', detail', held'⟩ := Heap.mem_inlets.mp member
    have one := plumbed.wired.reader c d i.ptr detail held
    have two := plumbed.wired.reader i.block d' i.ptr detail' (List.mem_of_getElem? held')
    have same := List.inj_on_of_nodup_map (plumbed.readers i.ptr.buffer) one two rfl
    exact (Prod.mk.inj same).2
  cases e with
  | thread c a =>
    have away : c ≠ i.block := fun same => other (congrArg some same)
    cases a with
    | call call =>
      cases call with
      | consume which n =>
        rw [consumes, if_neg]
        intro held
        unfold Heap.inputAt at held
        split at held
        · cases held
        · obtain ⟨d, detail, there⟩ := Option.bind_eq_some_iff.mp held
          exact away (apart c d detail (List.mem_of_getElem? (Option.join_eq_some_iff.mp there)))
      | consumeEach n =>
        rw [consumes]
        cases detail : w.heap.detail c with
        | none => exact Nat.zero_mul _
        | some d =>
          have none : d.input.count (some i.ptr) = 0 :=
            List.count_eq_zero.mpr fun held => away (apart c d detail held)
          simp [none]
      | produce | addItemTag | write => rfl
    | advance | askSpace | decide | workReturns => rfl
  | post | spuriousWake => rfl

theorem publishes_of_puts {t : Tag τ} {other : BufferId} (put : t ∈ w.puts id e) :
    w.publishes other e = 0 := by
  cases e with
  | thread c a =>
    cases a with
    | advance =>
      unfold puts at put
      dsimp only at put
      split at put
      · rename_i here
        simp [publishes, here]
      · cases put
    | call call =>
      cases call with
      | addItemTag => rfl
      | consume | consumeEach | produce | write => cases put
    | askSpace | decide | workReturns => cases put
  | post | spuriousWake => cases put

theorem prunesTo_eq {limit : Nat} (prunes : w.prunesTo id e = some limit) :
    limit = (w.heap.buffer id).lastMinItemsRead := by
  unfold prunesTo at prunes
  split at prunes
  · split at prunes
    · unfold Buffer.pruneLimit at prunes
      split at prunes
      · cases prunes
      · split at prunes
        · exact (Option.some.inj prunes).symm
        · cases prunes
    · cases prunes
  · cases prunes

theorem mem_around (member : i ∈ w.heap.inlets b) : i.ptr.buffer ∈ w.heap.around b :=
  List.mem_append_left _ (List.mem_map_of_mem member)

theorem inletsFrom_self (plumbed : w.heap.Plumbed env) (member : i ∈ w.heap.inlets b) :
    i ∈ w.heap.inletsFrom i.ptr.buffer := by
  obtain ⟨rfl, -⟩ := Heap.mem_inlets.mp member
  exact (Heap.mem_inletsFrom plumbed.wired).mpr ⟨member, rfl⟩

theorem pendingFor_closed (closed : (w.phase b).Closed) : w.pendingFor b id = [] := by
  unfold pendingFor
  split
  · rename_i here
    rw [here] at closed
    exact closed.elim
  · rfl

variable {d : BlockDetail} {start : Nat}

/-- A step adds the first tag that is pending, reads the tags of a window, or does neither. -/
theorem Moves.pending {g : GrBlock} {a : ThreadAction α τ} (moves : w.Moves b d g a w')
    (policy : g.tagPropagationPolicy = .allToAll) (source : d.output ≠ []) :
    ((∀ i ∈ w.heap.inlets b, ¬ w.Passes i d g a) ∧ ∀ id,
      w.propagates b id (.thread b a : Action α τ μ) ++ w'.pendingFor b id = w.pendingFor b id) ∨
    ∃ which start windows produced result, a = .advance ∧
      w.phase b = .propagating ((which, start) :: windows) [] produced result ∧
      w' = w.goto b (.propagating windows (w.heap.pendingTags g d which start) produced result) := by
  have idle : (∀ id, w.pendingFor b id = []) → (∀ id, w'.pendingFor b id = []) →
      (∀ i ∈ w.heap.inlets b, ¬ w.Passes i d g a) →
      (∀ id, w.propagates b id (.thread b a : Action α τ μ) = []) →
      (∀ i ∈ w.heap.inlets b, ¬ w.Passes i d g a) ∧ ∀ id,
        w.propagates b id (.thread b a : Action α τ μ) ++ w'.pendingFor b id =
          w.pendingFor b id := by
    intro before after stays none
    refine ⟨stays, fun id => ?_⟩
    rw [none id, before id, after id]
    rfl
  have closed : (w.phase b).Closed → a ≠ .decide .callWork → (∀ result, a ≠ .workReturns result) →
      (∀ i ∈ w.heap.inlets b, ¬ w.Passes i d g a) ∧ ∀ id,
        w.propagates b id (.thread b a : Action α τ μ) ++ w'.pendingFor b id =
          w.pendingFor b id := by
    intro before opens returns
    refine idle (fun _ => pendingFor_closed before)
      (fun _ => pendingFor_closed (moves.closed before opens)) ?_ ?_
    · intro i member passes
      obtain ⟨rfl, -⟩ := Heap.mem_inlets.mp member
      cases a with
      | advance =>
        obtain ⟨start, windows, produced, result, here⟩ := passes
        rw [here] at before
        exact before.elim
      | workReturns result => exact returns result rfl
      | askSpace | decide | call => exact passes
    · intro id
      cases a with
      | advance =>
        simp only [propagates, if_true, puts]
        split
        · rename_i here
          rw [here] at before
          exact before.elim
        · rfl
      | askSpace | decide | call | workReturns => rfl
  cases moves with
  | handleMessage here | noMessage here | clear here | askSpace here | produce here | ready here
  | markDone here | tell here | told here | block here | wake here | handlePending here
  | nonePending here => exact Or.inl (closed (by simp [here, Phase.Closed]) (by simp) (by simp))
  | @decide verdict here =>
    left
    cases verdict with
    | blkdIn | blkdOut | wereDone =>
      exact closed (by simp [here, Phase.Closed]) (by simp) (by simp)
    | callWork =>
      exact idle (by simp [pendingFor, here]) (by simp [pendingFor, Verdict.phase])
        (fun _ _ passes => passes) fun _ => rfl
  | call here =>
    exact Or.inl (idle (by simp [pendingFor, here]) (by simp [pendingFor])
      (fun _ _ passes => passes) fun _ => rfl)
  | @workReturns start produced result here =>
    left
    refine idle (by simp [pendingFor, here]) ?_ ?_ fun _ => rfl
    · obtain ⟨phase, same, rfl | ⟨windows, rfl⟩⟩ :=
        workReturns_eq (w := w) (b := b) (d := d) (g := g) start produced result
      all_goals simp [same, pendingFor]
    · rintro i - (sink | other)
      · exact source sink
      · exact other policy
  | @addTag windows target t pending produced result here =>
    left
    constructor
    · rintro i member ⟨start, windows', produced', result', window⟩
      obtain ⟨rfl, -⟩ := Heap.mem_inlets.mp member
      rw [here] at window
      cases window
    · intro id
      by_cases same : target = id <;> simp [propagates, puts, pendingFor, here, same]
  | @collect windows which start produced result here =>
    exact Or.inr ⟨which, start, windows, produced, result, rfl, here, rfl⟩
  | settle here settled =>
    left
    refine idle (by simp [pendingFor, here]) ?_ ?_ (by simp [propagates, puts, here])
    · obtain ⟨phase, rfl, rfl | ⟨n, rfl⟩ | ⟨left, rfl, -⟩ | ⟨-, left, rfl, -⟩⟩ := settle_ok settled
      all_goals simp [pendingFor]
    · rintro i member ⟨start, windows, produced', result', window⟩
      obtain ⟨rfl, -⟩ := Heap.mem_inlets.mp member
      rw [here] at window
      cases window

section Step

variable (plumbed : w.heap.Plumbed env) (safe : w.TagsSafe b e) (moves : TpbMoves env w e w')

include safe moves

theorem least_step
    (least : ∀ x ∈ (w.heap.buffer id).progress, (w.heap.buffer id).lastMinItemsRead ≤ x.2)
    (near : id ∈ w.heap.around b) :
    ∀ x ∈ (w'.heap.buffer id).progress, (w'.heap.buffer id).lastMinItemsRead ≤ x.2 := by
  have changes := moves.changes id
  rw [changes.progress (safe.fits id near).2]
  intro x member
  obtain ⟨y, there, rfl⟩ := List.mem_map.mp member
  refine le_trans ?_ (Nat.le_add_right _ _)
  by_cases prunes : w.prunesTo id e = none
  · rw [changes.unpruned prunes]
    exact least y there
  · exact changes.pruned prunes y there

theorem readers_step (output : id ∈ w.heap.outputs b) :
    ∀ x ∈ (w'.heap.buffer id).progress, x.2 ≤ (w'.heap.buffer id).absWriteOffset := by
  have near : id ∈ w.heap.around b := List.mem_append_right _ output
  have changes := moves.changes id
  rw [changes.progress (safe.fits id near).2, changes.written (safe.fits id near).1]
  intro x member
  obtain ⟨y, there, rfl⟩ := List.mem_map.mp member
  exact (safe.consumed id output y there).trans (Nat.le_add_right _ _)

include plumbed

theorem itemsRead_step (near : id ∈ w.heap.around b) (member : i ∈ w.heap.inletsFrom id) :
    w'.heap.itemsRead i.ptr = w.heap.itemsRead i.ptr + w.consumes i.ptr e := by
  obtain ⟨inlet, rfl⟩ := (Heap.mem_inletsFrom plumbed.wired).mp member
  obtain ⟨-, d, detail, held⟩ := Heap.mem_inlets.mp inlet
  refine Heap.itemsRead_changes (moves.changes i.ptr.buffer) (safe.fits _ near).2 ?_
  have there := plumbed.wired.reader i.block d i.ptr detail (List.mem_of_getElem? held)
  obtain ⟨r, present, same⟩ := List.mem_map.mp there
  exact List.mem_map.mpr ⟨r, present, (Prod.mk.inj same).1⟩

/-- A mark stays, or its window is over and all that was read has been looked at. -/
theorem mark_step (near : id ∈ w.heap.around b) (member : i ∈ w.heap.inletsFrom id)
    (ok : w.WindowOk i) : w'.WindowOk i ∧ (w'.mark i = w.mark i ∨
      ∃ d g a, e = .thread i.block a ∧ w.heap.detail i.block = some d ∧
        (env i.block).grBlock = some g ∧ w.Passes i d g a ∧
        w'.mark i = w.heap.itemsRead i.ptr) := by
  have inlet := ((Heap.mem_inletsFrom plumbed.wired).mp member).1
  have reads := itemsRead_step plumbed safe moves near member
  by_cases own : e.owner = some i.block
  · obtain ⟨d, g, a, detail, block, rfl, moved⟩ := moves.own own
    obtain ⟨ok', same | ⟨passes, marked⟩⟩ := moved.windows detail inlet ok reads
    · exact ⟨ok', Or.inl same⟩
    · exact ⟨ok', Or.inr ⟨d, g, a, rfl, detail, block, passes, marked⟩⟩
  · rw [consumes_other plumbed inlet own] at reads
    obtain ⟨ok', same⟩ := windows_other moves own ok reads
    exact ⟨ok', Or.inl same⟩

theorem mark_le_step (near : id ∈ w.heap.around b) (member : i ∈ w.heap.inletsFrom id)
    (ok : w.WindowOk i) : w.mark i ≤ w'.mark i := by
  obtain ⟨-, same | ⟨_, _, _, -, -, -, -, marked⟩⟩ := mark_step plumbed safe moves near member ok
  · exact same.symm.le
  · rw [marked]
    exact ok.mark_le

theorem kept_step (near : id ∈ w.heap.around b) (member : i ∈ w.heap.inletsFrom id)
    (ok : w.WindowOk i) {put : List (Tag τ)}
    (least : ∀ x ∈ (w.heap.buffer id).progress, (w.heap.buffer id).lastMinItemsRead ≤ x.2)
    (kept : Retained Tag.offset put (w.heap.buffer id).itemTags (w.mark i)) :
    Retained Tag.offset (put ++ w.puts id e) (w'.heap.buffer id).itemTags (w'.mark i) := by
  refine Retained.advance ?_ (mark_le_step plumbed safe moves near member ok)
  rw [(moves.changes id).tags]
  apply Retained.append
  cases prunes : w.prunesTo id e with
  | none => exact kept
  | some limit =>
    have low : limit ≤ w.mark i := by
      unfold mark
      cases opened : w.openFrom i with
      | some start => exact safe.pruned id near limit prunes i member start opened
      | none =>
        obtain ⟨inlet, rfl⟩ := (Heap.mem_inletsFrom plumbed.wired).mp member
        obtain ⟨-, d, detail, held⟩ := Heap.mem_inlets.mp inlet
        obtain ⟨r, found⟩ := plumbed.readerAt detail held
        have there : (r.ident, r.absReadOffset) ∈ (w.heap.buffer i.ptr.buffer).progress :=
          List.mem_map_of_mem (List.mem_of_find?_eq_some found)
        rw [prunesTo_eq prunes, Option.getD_none, Heap.itemsRead, found]
        exact least _ there
    exact kept.drop fun t _ below => below.trans_le low

end Step

/-! ## What a block with `TPP_ALL_TO_ALL` preserves -/

theorem pendingTags_for {h : Heap α τ} {g : GrBlock} (policy : g.tagPropagationPolicy = .allToAll)
    (rate : g.relativeRate = 1) (nodup : d.output.Nodup) (output : id ∈ d.output)
    (which start : Nat) :
    ((h.pendingTags g d which start).filter fun x => x.1 = id).map Prod.snd =
      h.tagsInRange start (h.nitemsReadAt d which) (d.input.getD which none) := by
  simp only [Heap.pendingTags, policy, rate, if_true]
  induction h.tagsInRange start (h.nitemsReadAt d which) (d.input.getD which none) with
  | nil => rfl
  | cons t tags ih =>
    have own : ((d.output.map fun id => (id, t)).filter fun x => x.1 = id).map Prod.snd = [t] := by
      rw [List.filter_map, List.map_map]
      change (d.output.filter fun x => x = id).map (fun _ => t) = [t]
      rw [List.filter_eq, List.count_eq_one_of_mem nodup output]
      rfl
    rw [List.flatMap_cons, List.filter_append, List.map_append, own, ih]
    rfl

theorem inlet_of_read {which stop : Nat} {t : Tag τ} (detail : w.heap.detail b = some d)
    (read : t ∈ w.heap.tagsInRange start stop (d.input.getD which none)) :
    ∃ i ∈ w.heap.inlets b, i.port = which := by
  cases there : d.input.getD which none with
  | none =>
    rw [there] at read
    cases read
  | some p =>
    refine ⟨⟨b, which, p⟩, Heap.mem_inlets.mpr ⟨rfl, d, detail, ?_⟩, rfl⟩
    rw [List.getD_eq_getElem?_getD] at there
    cases held : d.input[which]? with
    | none =>
      rw [held] at there
      cases there
    | some p' =>
      rw [held] at there
      exact congrArg some there

theorem tagsInRange_eq {windows : List (Nat × Nat)} {produced : Bool} {result : Int}
    (detail : w.heap.detail b = some d) (member : i ∈ w.heap.inlets b)
    (here : w.phase b = .propagating ((i.port, start) :: windows) [] produced result) :
    w.heap.tagsInRange start (w.heap.nitemsReadAt d i.port) (d.input.getD i.port none) =
      (w.heap.buffer i.ptr.buffer).itemTags.filter fun t =>
        w.mark i ≤ t.offset ∧ t.offset < w.heap.itemsRead i.ptr := by
  obtain ⟨rfl, d', detail', held⟩ := Heap.mem_inlets.mp member
  obtain rfl := Option.some.inj (detail.symm.trans detail')
  have opened : w.mark i = start := by
    rw [mark, openFrom_propagating here]
    simp
  rw [List.getD_eq_getElem?_getD, held, Option.getD_some, Heap.nitemsReadAt_eq held, opened]
  rfl

section AllToAll

variable {d : BlockDetail} {g : GrBlock} (plumbed : w.heap.Plumbed env) (safe : w.TagsSafe b e)
  (moves : TpbMoves env w e w') (block : (env b).grBlock = some g)
  (policy : g.tagPropagationPolicy = .allToAll) (rate : g.relativeRate = 1)
  (windows : ∀ i ∈ w.heap.inlets b, w.WindowOk i) (output : id ∈ w.heap.outputs b)

include plumbed safe moves block policy windows output

theorem pending_step :
    ((∀ i ∈ w.heap.inlets b, w'.mark i = w.mark i) ∧
      w.propagates b id e ++ w'.pendingFor b id = w.pendingFor b id) ∨
    ∃ d which start windows produced result, w.heap.detail b = some d ∧ e = .thread b .advance ∧
      w.phase b = .propagating ((which, start) :: windows) [] produced result ∧
      w' = w.goto b (.propagating windows (w.heap.pendingTags g d which start) produced result) := by
  have marks := fun i (member : i ∈ w.heap.inlets b) =>
    (mark_step plumbed safe moves (mem_around member) (inletsFrom_self plumbed member)
      (windows i member)).2
  by_cases own : e.owner = some b
  · obtain ⟨d, g', a, detail, block', rfl, moved⟩ := moves.own own
    obtain rfl := Option.some.inj (block.symm.trans block')
    have source : d.output ≠ [] := by
      rintro sink
      rw [Heap.outputs, detail, Option.elim_some, sink] at output
      cases output
    rcases moved.pending (μ := μ) policy source with ⟨stays, same⟩ |
      ⟨which, start, windows, produced, result, rfl, here, there⟩
    · refine Or.inl ⟨fun i member => ?_, same id⟩
      obtain ⟨block, -⟩ := Heap.mem_inlets.mp member
      refine (marks i member).resolve_right ?_
      rintro ⟨d', g'', a', act, detail', block'', passes, -⟩
      rw [block] at detail' block''
      obtain ⟨-, rfl⟩ := Action.thread.inj act
      obtain rfl := Option.some.inj (detail.symm.trans detail')
      obtain rfl := Option.some.inj (block'.symm.trans block'')
      exact stays i member passes
    · exact Or.inr ⟨d, which, start, windows, produced, result, detail, rfl, here, there⟩
  · left
    constructor
    · intro i member
      obtain ⟨rfl, -⟩ := Heap.mem_inlets.mp member
      refine (marks i member).resolve_right ?_
      rintro ⟨d, g', a, rfl, -⟩
      exact own rfl
    · have none : w.propagates b id e = [] := by
        cases e with
        | thread c a =>
          cases a with
          | advance => exact if_neg fun same => own (congrArg some same)
          | askSpace | decide | call | workReturns => rfl
        | post | spuriousWake => rfl
      rw [none, List.nil_append]
      rcases phase_other moves own with same | ⟨before, after⟩
      · rw [pendingFor, pendingFor, same]
      · rw [pendingFor_closed before, pendingFor_closed after]

theorem mem_waiting_step (rate : g.relativeRate = 1) {t : Tag τ} (waits : t ∈ w'.waiting b id) :
    t ∈ w.waiting b id ∨ ∃ i ∈ w.heap.inlets b, t ∈ w.puts i.ptr.buffer e := by
  rcases List.mem_append.mp waits with pending | tagged
  · left
    rcases pending_step plumbed safe moves block policy windows output with ⟨-, same⟩ |
      ⟨d, which, start, left, produced, result, detail, rfl, here, rfl⟩
    · refine List.mem_append_left _ ?_
      rw [← same]
      exact List.mem_append_right _ pending
    · refine List.mem_append_right _ ?_
      obtain ⟨d', g', a, detail', block', -, -⟩ := moves.own rfl
      rw [Heap.outputs, detail, Option.elim_some] at output
      have nodup := plumbed.outputs b
      rw [Heap.outputs, detail, Option.elim_some] at nodup
      simp only [pendingFor, goto_phase_self] at pending
      rw [pendingTags_for policy rate nodup output] at pending
      obtain ⟨i, member, rfl⟩ := inlet_of_read detail pending
      rw [tagsInRange_eq detail member here, List.mem_filter, decide_eq_true_eq] at pending
      refine List.mem_flatMap.mpr ⟨i, member, ?_⟩
      exact List.mem_filter.mpr ⟨pending.1, decide_eq_true pending.2.1⟩
  · rw [moves.sameWires.inlets] at tagged
    obtain ⟨i, member, there⟩ := List.mem_flatMap.mp tagged
    obtain ⟨there, above⟩ := List.mem_filter.mp there
    rw [decide_eq_true_eq] at above
    have less := mark_le_step plumbed safe moves (mem_around member)
      (inletsFrom_self plumbed member) (windows i member)
    rw [(moves.changes i.ptr.buffer).tags] at there
    rcases List.mem_append.mp there with old | new
    · refine Or.inl (List.mem_append_right _ (List.mem_flatMap.mpr ⟨i, member, ?_⟩))
      refine List.mem_filter.mpr ⟨?_, decide_eq_true (less.trans above)⟩
      cases limit : w.prunesTo i.ptr.buffer e with
      | none =>
        rw [limit] at old
        exact old
      | some limit' =>
        rw [limit] at old
        exact List.mem_of_mem_filter old
    · exact Or.inr ⟨i, member, new⟩

theorem waiting_step (rate : g.relativeRate = 1)
    (waiting : ∀ t ∈ w.waiting b id, (w.heap.buffer id).absWriteOffset ≤ t.offset) :
    ∀ t ∈ w'.waiting b id, (w'.heap.buffer id).absWriteOffset ≤ t.offset := by
  intro t waits
  rw [(moves.changes id).written (safe.fits id (List.mem_append_right _ output)).1]
  rcases mem_waiting_step plumbed safe moves block policy windows output rate waits with
    before | ⟨i, member, put⟩
  · by_cases publishes : 0 < w.publishes id e
    · exact safe.published id output publishes t before
    · rw [Nat.eq_zero_of_not_pos publishes]
      exact waiting t before
  · rw [publishes_of_puts put]
    exact (safe.tagged i member t put).2 id output

theorem once_step (rate : g.relativeRate = 1) {put : BufferId → List (Tag τ)}
    {propagated : List (Tag τ)}
    (kept : ∀ i ∈ w.heap.inlets b, Retained Tag.offset (put i.ptr.buffer)
      (w.heap.buffer i.ptr.buffer).itemTags (w.mark i))
    (once : (propagated ++ w.pendingFor b id).Perm ((w.heap.inlets b).flatMap fun i =>
      (put i.ptr.buffer).filter fun t => t.offset < w.mark i)) :
    ((propagated ++ w.propagates b id e) ++ w'.pendingFor b id).Perm
      ((w.heap.inlets b).flatMap fun i =>
        (put i.ptr.buffer ++ w.puts i.ptr.buffer e).filter fun t => t.offset < w'.mark i) := by
  rcases pending_step plumbed safe moves block policy windows output with ⟨marks, same⟩ |
    ⟨d, which, start, left, produced, result, detail, rfl, here, rfl⟩
  · rw [List.append_assoc, same]
    refine once.trans (List.Perm.of_eq (List.flatMap_congr fun i member => ?_))
    have none : (w.puts i.ptr.buffer e).filter (fun t => t.offset < w.mark i) = [] := by
      apply List.filter_eq_nil_iff.mpr
      intro t member'
      simpa using (safe.tagged i member t member').1
    rw [marks i member, List.filter_append, none, List.append_nil]
  · have idle : w.pendingFor b id = [] := by simp [pendingFor, here]
    have quiet : ∀ other, w.puts other (.thread b .advance : Action α τ μ) = [] := by
      simp [puts, here]
    have added : w.propagates b id (.thread b .advance : Action α τ μ) = [] := by
      rw [propagates, if_pos rfl, quiet]
    have nodup := plumbed.outputs b
    rw [Heap.outputs, detail, Option.elim_some] at output nodup
    simp only [quiet, added, List.append_nil, pendingFor, goto_phase_self]
    rw [pendingTags_for policy rate nodup output]
    rw [idle, List.append_nil] at once
    have marks : ∀ i ∈ w.heap.inlets b, (w.goto b (.propagating left
        (w.heap.pendingTags g d which start) produced result)).mark i =
        if i.port = which then w.heap.itemsRead i.ptr else w.mark i := by
      intro i member
      obtain ⟨rfl, -⟩ := Heap.mem_inlets.mp member
      exact (mark_collect here (windows i member) _).2
    by_cases present : ∃ i ∈ w.heap.inlets b, i.port = which
    · obtain ⟨i, member, rfl⟩ := present
      rw [tagsInRange_eq detail member here]
      refine (once.append_right _).trans ?_
      refine (flatMap_grown (w.heap.inlets_nodup b) member ?_ ?_).symm
      · intro j inlet other
        rw [marks j inlet, if_neg fun same => other (Heap.inlets_ports inlet member same)]
      · rw [marks i member, if_pos rfl, (kept i member).window]
        exact filter_lt_perm _ (windows i member).mark_le
    · have empty : w.heap.tagsInRange start (w.heap.nitemsReadAt d which)
          (d.input.getD which none) = [] := by
        apply List.eq_nil_iff_forall_not_mem.mpr
        exact fun t read => present (inlet_of_read detail read)
      rw [empty, List.append_nil]
      refine once.trans (List.Perm.of_eq (List.flatMap_congr fun i member => ?_))
      rw [marks i member, if_neg fun same => present ⟨i, member, same⟩]

end AllToAll

/-! ## Every run -/

/-- What every run keeps as long as its steps are safe for the tags of a block. -/
structure TagState (env : Blocks) (w₀ : World α τ μ) (es : List (Action α τ μ)) (w : World α τ μ)
    (b : BlockId) : Prop where
  plumbed : w.heap.Plumbed env
  windows : ∀ id ∈ w.heap.around b, ∀ i ∈ w.heap.inletsFrom id, w.WindowOk i
  least : ∀ id ∈ w.heap.around b, ∀ x ∈ (w.heap.buffer id).progress,
    (w.heap.buffer id).lastMinItemsRead ≤ x.2
  kept : ∀ id ∈ w.heap.around b, ∀ i ∈ w.heap.inletsFrom id,
    Retained Tag.offset (putBy env w₀ es id) (w.heap.buffer id).itemTags (w.mark i)
  readers : ∀ id ∈ w.heap.outputs b, ∀ x ∈ (w.heap.buffer id).progress,
    x.2 ≤ (w.heap.buffer id).absWriteOffset
  waiting : ∀ id ∈ w.heap.outputs b, ∀ t ∈ w.waiting b id,
    (w.heap.buffer id).absWriteOffset ≤ t.offset
  once : ∀ id ∈ w.heap.outputs b, (propagatedBy env w₀ es b id ++ w.pendingFor b id).Perm
    ((w.heap.inlets b).flatMap fun i =>
      (putBy env w₀ es i.ptr.buffer).filter fun t => t.offset < w.mark i)

variable {w₀ : World α τ μ} {es : List (Action α τ μ)} {g : GrBlock}

theorem TagState.step (state : TagState env w₀ es w b) (safe : w.TagsSafe b e)
    (reached : run (tpbStep env) w₀ es = some w) (stepped : tpbStep env w e = some w')
    (block : (env b).grBlock = some g) (policy : g.tagPropagationPolicy = .allToAll)
    (rate : g.relativeRate = 1) : TagState env w₀ (es ++ [e]) w' b := by
  have moves := tpbStep_moves stepped
  have same := moves.sameWires
  have plumbed := state.plumbed
  have put : ∀ id, putBy env w₀ (es ++ [e]) id = putBy env w₀ es id ++ w.puts id e := by
    intro id
    rw [putBy, observed_append reached, observed_singleton]
    rfl
  have propagated : ∀ id, propagatedBy env w₀ (es ++ [e]) b id =
      propagatedBy env w₀ es b id ++ w.propagates b id e := by
    intro id
    rw [propagatedBy, observed_append reached, observed_singleton]
    rfl
  have own : ∀ i ∈ w.heap.inlets b, w.WindowOk i := fun i member =>
    state.windows _ (mem_around member) i (inletsFrom_self plumbed member)
  constructor
  · exact plumbed.sameWires same
  · simp only [same.around, same.inletsFrom]
    exact fun id near i member =>
      (mark_step plumbed safe moves near member (state.windows id near i member)).1
  · simp only [same.around]
    exact fun id near => least_step safe moves (state.least id near) near
  · simp only [same.around, same.inletsFrom, put]
    exact fun id near i member => kept_step plumbed safe moves near member
      (state.windows id near i member) (state.least id near) (state.kept id near i member)
  · simp only [same.outputs]
    exact fun id output => readers_step safe moves output
  · simp only [same.outputs]
    exact fun id output => waiting_step plumbed safe moves block policy own output rate
      (state.waiting id output)
  · simp only [same.outputs, same.inlets, put, propagated]
    intro id output
    refine once_step plumbed safe moves block policy own output rate ?_ (state.once id output)
    exact fun i member => state.kept _ (mem_around member) i (inletsFrom_self plumbed member)

theorem TagState.tagsOnce (state : TagState env w₀ es w b) : TagsOnce env w₀ es w b := by
  have plumbed := state.plumbed
  refine ⟨?_, ?_, state.kept⟩
  · intro closed id output
    have once := state.once id output
    rw [pendingFor_closed closed, List.append_nil] at once
    refine once.trans (List.Perm.of_eq (List.flatMap_congr fun i member => ?_))
    obtain ⟨rfl, -⟩ := Heap.mem_inlets.mp member
    rw [mark, openFrom_closed closed]
    rfl
  · intro id output i member
    obtain ⟨inlet, rfl⟩ := (Heap.mem_inletsFrom plumbed.wired).mp member
    obtain ⟨-, d, detail, held⟩ := Heap.mem_inlets.mp inlet
    have near : i.ptr.buffer ∈ w.heap.around b := List.mem_append_right _ output
    -- the reader is behind what was published, and that is behind what waits
    have behind : w.mark i ≤ (w.heap.buffer i.ptr.buffer).absWriteOffset := by
      refine (state.windows _ near i member).mark_le.trans ?_
      obtain ⟨r, found⟩ := plumbed.readerAt detail held
      rw [Heap.itemsRead, found]
      exact state.readers _ output _
        (List.mem_map_of_mem (List.mem_of_find?_eq_some found))
    have ahead : ∀ t ∈ w.waiting b i.ptr.buffer, ¬ t.offset < w.mark i := fun t waits =>
      not_lt.mpr (behind.trans (state.waiting _ output t waits))
    have none : (w.pendingFor b i.ptr.buffer).filter (fun t => t.offset < w.mark i) = [] := by
      apply List.filter_eq_nil_iff.mpr
      intro t pending
      simpa using ahead t (List.mem_append_left _ pending)
    have once := (state.once _ output).filter fun t => t.offset < w.mark i
    rw [List.filter_append, none, List.append_nil, List.filter_flatMap] at once
    refine once.trans (List.Perm.of_eq (List.flatMap_congr fun j input => ?_))
    rw [List.filter_filter]
    apply List.filter_congr
    intro t there
    rw [Bool.and_eq_left_iff_imp]
    intro below
    rw [decide_eq_true_eq] at below ⊢
    by_contra above
    have kept := (state.kept _ (mem_around input) j (inletsFrom_self plumbed input)).mem there
      (not_lt.mp above)
    refine ahead t (List.mem_append_right _ (List.mem_flatMap.mpr ⟨j, input, ?_⟩)) below
    exact List.mem_filter.mpr ⟨kept, decide_eq_true (not_lt.mp above)⟩

end World

/-! ## A flowgraph that was set up -/

namespace Flowgraph

variable [Zero α] {granularity : Nat} {fg : Flowgraph} {h : Heap α τ}

theorem SetUp.plumbed (valid : fg.Valid env) (ready : fg.SetUp env granularity h) :
    h.Plumbed env where
  wired := ready.wired valid
  readers id := by
    rw [Buffer.wires, List.map_map]
    exact ready.wellWired.idents_nodup id
  outputs c := by
    unfold Heap.outputs
    cases detail : h.detail c with
    | none => exact List.nodup_nil
    | some d =>
      have port : ∀ (m : Nat) (inside : m < d.output.length),
          h.outputAt ⟨c, m⟩ = some d.output[m] := by
        intro m inside
        rw [Heap.outputAt, if_neg (by dsimp only; omega), detail, Option.bind_some,
          Int.toNat_natCast, List.getElem?_eq_getElem inside]
      refine List.nodup_iff_injective_getElem.mpr ?_
      rintro ⟨m, left⟩ ⟨n, right⟩ same
      dsimp only at same
      have both := ready.wellWired.output_inj ⟨c, m⟩ ⟨c, n⟩ _ (port m left) (same ▸ port n right)
      rw [Endpoint.mk.injEq] at both
      exact Fin.ext (by simpa using both.2)

theorem SetUp.around (ready : fg.SetUp env granularity h)
    (near : id ∈ h.around b) : (h.buffer id).itemTags = [] ∧ (h.buffer id).lastMinItemsRead = 0 ∧
      ∀ x ∈ (h.buffer id).progress, x.2 = 0 := by
  obtain ⟨src, there⟩ : ∃ src, h.outputAt src = some id := by
    rcases List.mem_append.mp near with input | output
    · obtain ⟨i, inlet, rfl⟩ := List.mem_map.mp input
      obtain ⟨-, d, detail, held⟩ := Heap.mem_inlets.mp inlet
      have held : h.inputAt ⟨b, i.port⟩ = some i.ptr := by
        rw [Heap.inputAt, if_neg (by dsimp only; omega), detail, Option.bind_some,
          Int.toNat_natCast, held, Option.join_some]
      obtain ⟨e, member, dst⟩ := ready.serves.only _ _ held
      obtain ⟨p, held', source⟩ := ready.serves.wired e member
      rw [dst, held] at held'
      obtain rfl := Option.some.inj held'
      exact ⟨e.src, source⟩
    · unfold Heap.outputs at output
      cases detail : h.detail b with
      | none =>
        rw [detail] at output
        cases output
      | some d =>
        rw [detail, Option.elim_some] at output
        obtain ⟨m, inside, rfl⟩ := List.mem_iff_getElem.mp output
        refine ⟨⟨b, m⟩, ?_⟩
        rw [Heap.outputAt, if_neg (by dsimp only; omega), detail, Option.bind_some,
          Int.toNat_natCast, List.getElem?_eq_getElem inside]
  have used : src.block ∈ fg.calcUsedBlocks := by
    by_contra unused
    have none := ready.unused src.block unused
    rw [Heap.ports, Option.map_eq_none_iff] at none
    unfold Heap.outputAt at there
    rw [none] at there
    split at there <;> cases there
  obtain ⟨-, made, allocated, same⟩ := (ready.detailed src.block used).made src.port id there
  obtain ⟨_, _, _, _, _, _, rfl⟩ := allocateBuffer_ok allocated
  refine ⟨?_, ?_, ?_⟩
  · rw [same]
    rfl
  · rw [same]
    rfl
  · intro x member
    obtain ⟨r, present, rfl⟩ := List.mem_map.mp member
    obtain ⟨dst, held⟩ := (ready.wellWired.held id r.ident
      (List.mem_map_of_mem present)).resolve_right (by simp)
    obtain ⟨r', found, -, start⟩ := ready.fresh dst _ held
    rw [LiveFlowgraph.readerAt_of_mem ready.wellWired present] at found
    obtain rfl := Option.some.inj found
    exact start

theorem SetUp.tagState (valid : fg.Valid env) (ready : fg.SetUp env granularity h) :
    World.TagState (μ := μ) env (.start h) [] (.start h) b := by
  have plumbed := ready.plumbed valid
  have untagged : ∀ i ∈ h.inlets b, (h.buffer i.ptr.buffer).itemTags = [] := fun i member =>
    (ready.around (World.mem_around (w := (World.start h : World α τ μ)) member)).1
  constructor
  · exact plumbed
  · exact fun id near i member => World.windowOk_closed trivial
  · exact fun id near x member =>
      le_of_eq_of_le (ready.around near).2.1 (Nat.zero_le x.2)
  · intro id near i member
    rw [Retained, show ((World.start h : World α τ μ).heap.buffer id).itemTags = [] from
      (ready.around near).1]
    rfl
  · intro id output x member
    exact le_of_eq_of_le ((ready.around (List.mem_append_right _ output)).2.2 x member)
      (Nat.zero_le _)
  · intro id output t waits
    rcases List.mem_append.mp waits with pending | tagged
    · cases pending
    · obtain ⟨i, member, there⟩ := List.mem_flatMap.mp tagged
      have there := List.mem_of_mem_filter there
      rw [show (World.start h : World α τ μ).heap = h from rfl, untagged i member] at there
      cases there
  · intro id output
    simp [World.propagatedBy, World.putBy, World.pendingFor, World.start, observed]

end Flowgraph

/-- As long as all steps are safe for the tags of a block with `TPP_ALL_TO_ALL` and the relative
rate 1, each of its outputs has got every tag of the items it has consumed once, in time for every
reader, and no tag is pruned before its readers have looked at it. -/
theorem tags_propagated_once [Zero α] {granularity : Nat} {fg : Flowgraph} {h₀ : Heap α τ}
    {g : GrBlock} (valid : fg.Valid env)
    (setup : fg.setupConnections env granularity (Heap.empty : Heap α τ) = .ok h₀)
    (block : (env b).grBlock = some g) (policy : g.tagPropagationPolicy = .allToAll)
    (rate : g.relativeRate = 1) (es : List (Action α τ μ))
    (safe : Throughout (fun w e => w.TagsSafe b e) (tpbStep env) (.start h₀) es)
    (reached : run (tpbStep env) (.start h₀) es = some w) :
    World.TagsOnce env (.start h₀) es w b := by
  have ready := Flowgraph.setupConnections_ok valid setup
  have state := run_history (fun es w => World.TagState env (.start h₀) es w b)
    (ready.tagState valid)
    (fun es t e u before state safe stepped => state.step safe before stepped block policy rate)
    safe reached
  exact state.tagsOnce

/-! ## Two blocks between a source and a sink -/

/-- A source 0, the blocks 1 and 2, and a sink 3. -/
def relayBlocks : Blocks := fun b =>
  let plain := GrBlock.initial
  if b = 0 then BasicBlock.leaf "source" 0 1 plain 4 sizeofFloat_pos
  else if b = 3 then BasicBlock.leaf "sink" 1 0 plain 4 sizeofFloat_pos
  else BasicBlock.leaf "copy" 1 1 plain 4 sizeofFloat_pos

/-- Each block feeds the next one. -/
def relay : Flowgraph :=
  ⟨[0, 1, 2, 3], [⟨⟨0, 0⟩, ⟨1, 0⟩⟩, ⟨⟨1, 0⟩, ⟨2, 0⟩⟩, ⟨⟨2, 0⟩, ⟨3, 0⟩⟩]⟩

theorem relay_valid : relay.Valid relayBlocks where
  built := .validate (Flowgraph.Built.empty.connectAll relay.edges rfl) rfl
  validated := rfl

/-- A block calls `general_work`, and what happens there. -/
def works (b : BlockId) (calls : List (WorkCall Nat Unit)) : List (Action Nat Unit Unit) :=
  advances b 2 ++ [.thread b (.decide .callWork)] ++ calls.map fun c => .thread b (.call c)

/-- The source publishes an item with a tag. -/
def sourceTags : List (Action Nat Unit Unit) :=
  works 0 [.write 0 [7], .addItemTag 0 ⟨0, ()⟩] ++ [.thread 0 (.workReturns 1)] ++ advances 0 2

/-- Block 1 publishes the item in `general_work`, and block 2 looks for its tags before block 1 has
returned. -/
def producesEarly : List (Action Nat Unit Unit) :=
  sourceTags ++ works 1 [.consume 0 1, .produce 0 1] ++
    works 2 [.consume 0 1] ++ [.thread 2 (.workReturns 1)] ++ advances 2 1

/-- Block 1 returns the number of items, which are published after their tags have been added. -/
def producesLate : List (Action Nat Unit Unit) :=
  sourceTags ++ works 1 [.consume 0 1] ++ [.thread 1 (.workReturns 1)] ++ advances 1 4 ++
    works 2 [.consume 0 1] ++ [.thread 2 (.workReturns 1)] ++ advances 2 1

/-- Block 2 has looked for the tags of the first item, and the tag the source has put there has not
been added: it will not see it any more. -/
theorem producesEarly_tags_late : ∃ (h₀ : Heap Nat Unit) (w : World Nat Unit Unit),
    relay.setupConnections relayBlocks 4096 Heap.empty = .ok h₀ ∧
    run (tpbStep relayBlocks) (.start h₀) producesEarly = some w ∧
    (relayBlocks 1).grBlock = some GrBlock.initial ∧
    GrBlock.initial.tagPropagationPolicy = .allToAll ∧ GrBlock.initial.relativeRate = 1 ∧
    ¬ World.TagsOnce relayBlocks (.start h₀) producesEarly w 1 := by
  have evaluated : ((relay.setupConnections (α := Nat) (τ := Unit) relayBlocks 4096
      Heap.empty).toOption.any fun h₀ =>
        (run (tpbStep relayBlocks) (.start h₀) producesEarly).any fun w =>
          decide (w.heap.outputs 1 = [1] ∧ w.heap.inlets 1 = [⟨1, 0, ⟨0, 0⟩⟩] ∧
            (⟨2, 0, ⟨1, 1⟩⟩ : Inlet) ∈ w.heap.inletsFrom 1 ∧ w.mark ⟨2, 0, ⟨1, 1⟩⟩ = 1 ∧
            World.propagatedBy relayBlocks (.start h₀) producesEarly 1 1 = [] ∧
            World.putBy relayBlocks (.start h₀) producesEarly 0 = [⟨0, ()⟩])) = true := by
    decide +kernel
  simp only [Option.any_eq_true, toOption_some, decide_eq_true_iff] at evaluated
  obtain ⟨h₀, setup, w, reached, outputs, inlets, reader, looked, added, put⟩ := evaluated
  refine ⟨h₀, w, setup, reached, rfl, rfl, rfl, ?_⟩
  intro once
  have inTime := once.inTime 1 (by rw [outputs]; exact List.mem_singleton_self 1) _ reader
  rw [looked, added, inlets, List.flatMap_singleton, put] at inTime
  exact absurd inTime.length_eq (by decide)

/-- Block 2 finds the tag when its window comes to the first item. -/
theorem producesLate_tags_once : ∃ (h₀ : Heap Nat Unit) (w : World Nat Unit Unit),
    relay.setupConnections relayBlocks 4096 Heap.empty = .ok h₀ ∧
    run (tpbStep relayBlocks) (.start h₀) producesLate = some w ∧
    w.pendingFor 2 2 = [⟨0, ()⟩] ∧
    World.TagsOnce relayBlocks (.start h₀) producesLate w 1 := by
  have evaluated : ((relay.setupConnections (α := Nat) (τ := Unit) relayBlocks 4096
      Heap.empty).toOption.any fun h₀ =>
        (run (tpbStep relayBlocks) (.start h₀) producesLate).any fun w =>
          decide (w.pendingFor 2 2 = [⟨0, ()⟩] ∧ Throughout (fun w e => w.TagsSafe 1 e)
            (tpbStep relayBlocks) (.start h₀) producesLate)) = true := by
    decide +kernel
  simp only [Option.any_eq_true, toOption_some, decide_eq_true_iff] at evaluated
  obtain ⟨h₀, setup, w, reached, found, safe⟩ := evaluated
  exact ⟨h₀, w, setup, reached, found,
    tags_propagated_once relay_valid setup rfl rfl rfl producesLate safe reached⟩

end GnuRadio
