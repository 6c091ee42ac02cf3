import Mathlib.Data.List.GetD
import GnuRadio.Runtime.MergeConnections

/-!
# Reconfiguration after earlier flowgraphs

Blocks keep the details of flowgraphs that ran before. `setup_connections` gives its own
blocks new details, whose pointers lead to new buffers, so that what earlier
flowgraphs left behind plays no part until a merge brings one of their blocks back: its
old detail is then reused. The heap is compared with one that knows nothing of the
earlier flowgraphs.
-/

namespace GnuRadio

variable {α τ : Type} {S : BlockId → Prop} {n : Nat} {h h' v v' : Heap α τ} {env : Blocks}
  {granularity : Nat} {old fg : Flowgraph}

namespace Heap

/-- The heaps have the same details of the blocks in `S` and the same buffers from `n` on. The
details of these blocks point to buffers from `n` on, those of others to buffers before. -/
structure AgreeOn (S : BlockId → Prop) (n : Nat) (h v : Heap α τ) : Prop where
  le : n ≤ h.nbuffers
  nbuffers : h.nbuffers = v.nbuffers
  nreaders : h.nreaders = v.nreaders
  detail : ∀ b, S b → h.detail b = v.detail b
  buffer : ∀ id, n ≤ id → h.buffer id = v.buffer id
  inputs : ∀ b d p, S b → h.detail b = some d → some p ∈ d.input → n ≤ p.buffer
  outputs : ∀ b d id, S b → h.detail b = some d → id ∈ d.output → n ≤ id
  stale : ∀ b d p, ¬S b → h.detail b = some d ∨ v.detail b = some d → some p ∈ d.input →
    p.buffer < n

/-- No pointer leads to a buffer that is still to be made, and that has no readers. -/
structure Allocated (h : Heap α τ) : Prop where
  inputs : ∀ b d p, h.detail b = some d → some p ∈ d.input → p.buffer < h.nbuffers
  readers : ∀ id, h.nbuffers ≤ id → (h.buffer id).readers = []

/-- The heap without its details and readers. -/
def blank (h : Heap α τ) : Heap α τ :=
  { h with
    detail := fun _ => none
    buffer := fun id => { h.buffer id with readers := [] } }

theorem blank_wellWired (h : Heap α τ) : h.blank.WellWired none := by
  constructor <;> simp [blank, outputAt, inputAt, idents]

theorem Allocated.agree_blank (allocated : h.Allocated) :
    AgreeOn (fun _ => False) h.nbuffers h h.blank := by
  refine ⟨le_rfl, rfl, rfl, fun _ => False.elim, fun id above => ?_, fun _ _ _ => False.elim,
    fun _ _ _ => False.elim, ?_⟩
  · have none := allocated.readers id above
    unfold blank
    dsimp only
    rw [← none]
  · rintro b d p - (detail | impossible) member
    · exact allocated.inputs b d p detail member
    · cases impossible

/-- If the first call returns, so does the second, with a heap that agrees. -/
def Tracks (S : BlockId → Prop) (n : Nat) (x y : Except CppException (Heap α τ)) : Prop :=
  ∀ h', x = .ok h' → ∃ v', y = .ok v' ∧ AgreeOn S n h' v'

namespace Tracks

variable {β : Type} {x y : Except CppException (Heap α τ)}

theorem ok (agree : AgreeOn S n h v) : Tracks S n (.ok h) (.ok v) :=
  fun _ same => ⟨v, rfl, Except.ok.inj same ▸ agree⟩

theorem error {e : CppException} : Tracks S n (.error e) y :=
  fun _ impossible => by cases impossible

/-- Both calls read the same. -/
theorem read {r : Except CppException β} {f g : β → Except CppException (Heap α τ)}
    (rest : ∀ a, r = .ok a → Tracks S n (f a) (g a)) : Tracks S n (r >>= f) (r >>= g) := by
  intro h' returned
  obtain ⟨a, first, returned⟩ := bind_ok.mp returned
  obtain ⟨v', returned', agree⟩ := rest a first h' returned
  exact ⟨v', bind_ok.mpr ⟨a, first, returned'⟩, agree⟩

theorem bind {f g : Heap α τ → Except CppException (Heap α τ)} (first : Tracks S n x y)
    (rest : ∀ h v, AgreeOn S n h v → Tracks S n (f h) (g v)) : Tracks S n (x >>= f) (y >>= g) := by
  intro h' returned
  obtain ⟨mid, begun, returned⟩ := bind_ok.mp returned
  obtain ⟨midv, begun', agree⟩ := first mid begun
  obtain ⟨v', returned', agree'⟩ := rest mid midv agree h' returned
  exact ⟨v', bind_ok.mpr ⟨midv, begun', returned'⟩, agree'⟩

theorem foldlM {l : List β} {f g : Heap α τ → β → Except CppException (Heap α τ)}
    (each : ∀ s t, ∀ a ∈ l, AgreeOn S n s t → Tracks S n (f s a) (g t a)) (agree : AgreeOn S n h v) :
    Tracks S n (l.foldlM f h) (l.foldlM g v) :=
  fun _ => foldlM_related (AgreeOn S n)
    (fun s t s' a member agree => each s t a member agree s') agree

end Tracks

namespace AgreeOn

variable (agree : AgreeOn S n h v)
include agree

theorem symm : AgreeOn S n v h where
  le := agree.nbuffers ▸ agree.le
  nbuffers := agree.nbuffers.symm
  nreaders := agree.nreaders.symm
  detail b inside := (agree.detail b inside).symm
  buffer id above := (agree.buffer id above).symm
  inputs b d p inside detail := agree.inputs b d p inside ((agree.detail b inside).trans detail)
  outputs b d id inside detail := agree.outputs b d id inside ((agree.detail b inside).trans detail)
  stale b d p outside detail := agree.stale b d p outside detail.symm

theorem congr {T : BlockId → Prop} (same : ∀ b, T b ↔ S b) : AgreeOn T n h v := by
  rwa [show T = S from funext fun b => propext (same b)]

variable {block p : BlockId} {which : Int} {id : BufferId} {reader : Option ReaderPtr}
  {d : BlockDetail} {q : ReaderPtr}

/-- A change to one buffer. -/
theorem setBuffer (id : BufferId) (b : Buffer α τ) :
    AgreeOn S n { h with buffer := Function.update h.buffer id b }
      { v with buffer := Function.update v.buffer id b } :=
  { agree with
    buffer := fun id' above => by simp only [Function.update_apply, agree.buffer id' above] }

/-- A change to a buffer of earlier flowgraphs. -/
theorem setBuffer_below (below : id < n) (b : Buffer α τ) :
    AgreeOn S n { h with buffer := Function.update h.buffer id b } v :=
  { agree with
    buffer := fun id' above => by
      dsimp only
      rw [Function.update_of_ne (below.trans_le above).ne', agree.buffer id' above] }

/-- A detail with pointers to the buffers from `n` on. -/
theorem setDetail (inputs : ∀ q, some q ∈ d.input → n ≤ q.buffer)
    (outputs : ∀ id ∈ d.output, n ≤ id) :
    AgreeOn (fun b => S b ∨ b = p) n { h with detail := Function.update h.detail p (some d) }
      { v with detail := Function.update v.detail p (some d) } := by
  refine ⟨agree.le, agree.nbuffers, agree.nreaders, ?_, agree.buffer, ?_, ?_, ?_⟩
  · intro b inside
    simp only [Function.update_apply]
    split
    · rfl
    · rename_i other
      exact agree.detail b (inside.resolve_right other)
  · intro b d' q inside detail member
    simp only [Function.update_apply] at detail
    split at detail
    · obtain rfl := Option.some.inj detail
      exact inputs q member
    · rename_i other
      exact agree.inputs b d' q (inside.resolve_right other) detail member
  · intro b d' id inside detail member
    simp only [Function.update_apply] at detail
    split at detail
    · obtain rfl := Option.some.inj detail
      exact outputs id member
    · rename_i other
      exact agree.outputs b d' id (inside.resolve_right other) detail member
  · intro b d' q outside detail member
    obtain ⟨outside, other⟩ := not_or.mp outside
    simp only [Function.update_of_ne other] at detail
    exact agree.stale b d' q outside detail member

theorem output (inside : S block) : h.output block which = v.output block which := by
  unfold Heap.output
  rw [agree.detail block inside]

theorem output_ge (inside : S block) (read : h.output block which = .ok id) : n ≤ id := by
  unfold Heap.output at read
  split at read
  · cases read
  · rename_i d detail
    split at read
    · obtain rfl := Except.ok.inj read
      refine agree.outputs block d _ inside detail ?_
      rw [List.getD_eq_getElem _ _ (by omega)]
      exact List.getElem_mem _
    · cases read

theorem dropReader (above : n ≤ q.buffer) : Tracks S n (h.dropReader q) (v.dropReader q) := by
  unfold Heap.dropReader
  rw [agree.buffer q.buffer above]
  exact .read fun b _ => .ok (agree.setBuffer q.buffer b)

theorem release (above : ∀ q, reader = some q → n ≤ q.buffer) :
    Tracks S n (h.release reader) (v.release reader) := by
  cases reader with
  | none => exact .ok agree
  | some q => exact agree.dropReader (above q rfl)

theorem release_below (below : ∀ q, reader = some q → q.buffer < n)
    (released : h.release reader = .ok h') : AgreeOn S n h' v ∧ h'.detail = h.detail := by
  cases reader with
  | none => exact Except.ok.inj released ▸ ⟨agree, rfl⟩
  | some q =>
    obtain ⟨b, -, same⟩ := bind_ok.mp released
    obtain rfl := pure_ok.mp same
    exact ⟨agree.setBuffer_below (below q rfl) b, rfl⟩

theorem setInput (inside : S block) (above : ∀ q, reader = some q → n ≤ q.buffer) :
    Tracks S n (h.setInput block which reader) (v.setInput block which reader) := by
  unfold Heap.setInput
  rw [← agree.detail block inside]
  cases detail : h.detail block with
  | none => exact .error
  | some d =>
    have kept : ∀ q, some q ∈ d.input → n ≤ q.buffer :=
      fun q => agree.inputs block d q inside detail
    dsimp only
    split
    · have next := agree.setDetail (p := block)
        (d := { d with input := d.input.set which.toNat reader })
        (fun q member => by
          rcases List.mem_or_eq_of_mem_set member with old | new
          · exact kept q old
          · exact above q new.symm)
        fun id => agree.outputs block d id inside detail
      refine (next.congr fun b => ⟨Or.inl, fun either =>
        either.elim id fun here => here ▸ inside⟩).release fun q held => kept q ?_
      rw [List.getD_eq_getElem _ _ (by omega)] at held
      exact held ▸ List.getElem_mem _
    · exact .error

theorem connectInput (inside : S block) (above : n ≤ id)
    (nzeroPreload : Int) : Tracks S n (h.connectInput block which id nzeroPreload)
      (v.connectInput block which id nzeroPreload) := by
  simp only [Heap.connectInput, Heap.addReader, bind_assoc, pure_bind, agree.buffer id above,
    agree.nreaders]
  refine .read fun b _ => setInput ?_ inside fun q same => Option.some.inj same ▸ above
  exact { agree.setBuffer id b with nreaders := rfl }

end AgreeOn

end Heap

namespace Flowgraph

open Heap

/-! ## Wiring -/

variable {p : BlockId} {g : GrBlock} {e : Edge}

theorem connectEdge_tracks (agree : AgreeOn S n h v) (src : S e.src.block) (dst : S e.dst.block) :
    Tracks S n (connectEdge env g h e) (connectEdge env g v e) := by
  unfold connectEdge
  split
  · exact .error
  · rw [agree.output src]
    exact .read fun id source => agree.connectInput dst
      (agree.output_ge src ((agree.output src).trans source)) _

theorem connectBlockInputs_tracks (covers : ∀ b ∈ fg.calcUsedBlocks, S b) (agree : AgreeOn S n h v) :
    Tracks S n (fg.connectBlockInputs env h p) (fg.connectBlockInputs env v p) := by
  unfold connectBlockInputs
  split
  · exact .error
  · refine .foldlM (fun s t e member agree => ?_) agree
    have there := (mem_calcUpstreamEdges.mp member).1
    exact connectEdge_tracks agree (covers _ (src_used there)) (covers _ (dst_used there))

/-! ## Setting up -/

/-- Heaps that agree while the buffers in `output` are made for a block. -/
structure Making (S : BlockId → Prop) (n : Nat) (h v : Heap α τ) (s t : List BufferId × Heap α τ) :
    Prop where
  output : s.1 = t.1
  above : ∀ id ∈ s.1, n ≤ id
  agree : AgreeOn S n s.2 t.2
  kept : s.2.detail = h.detail
  kept' : t.2.detail = v.detail

theorem allocateOutput_making [Zero α] {s t s' : List BufferId × Heap α τ} {i : Nat}
    (making : Making S n h v s t) (made : fg.allocateOutput env granularity p s i = .ok s') :
    ∃ t', fg.allocateOutput env granularity p t i = .ok t' ∧ Making S n h v s' t' := by
  obtain ⟨b, chosen, same⟩ := bind_ok.mp made
  obtain rfl := pure_ok.mp same
  have wider := making.agree.setBuffer s.2.nbuffers b
  have next := making.agree.nbuffers
  refine ⟨(t.1 ++ [t.2.nbuffers], (t.2.newBuffer b).2), bind_ok.mpr ⟨b, chosen, rfl⟩, ?_, ?_, ?_,
    making.kept, making.kept'⟩
  · rw [making.output, next]
  · intro id member
    rcases List.mem_append.mp member with before | last
    · exact making.above id before
    · exact List.mem_singleton.mp last ▸ making.agree.le
  · exact { wider with
      le := making.agree.le.trans (Nat.le_succ _)
      nbuffers := congrArg Nat.succ next
      buffer := by
        unfold newBuffer
        dsimp only
        rw [← next]
        exact wider.buffer }

/-- A block that is given a detail joins the others; what its earlier detail held is released. -/
theorem assignDetail_agree [Zero α] (agree : AgreeOn S n h v) (blank : v.detail p = none)
    (earlier : ∀ d q, h.detail p = some d → some q ∈ d.input → q.buffer < n)
    (assigned : fg.assignDetail env granularity h p = .ok h') :
    ∃ v', fg.assignDetail env granularity v p = .ok v' ∧ AgreeOn (fun b => S b ∨ b = p) n h' v' ∧
      ∀ b, b ≠ p → v'.detail b = v.detail b := by
  obtain ⟨⟨d, _⟩, allocated, assigned⟩ := bind_ok.mp assigned
  obtain ⟨⟨output, mid⟩, looped, same⟩ := bind_ok.mp allocated
  obtain ⟨rfl, rfl⟩ := Prod.mk.inj (pure_ok.mp same)
  have begun : Making S n h v ([], h) ([], v) := ⟨rfl, by simp, agree, rfl, rfl⟩
  obtain ⟨⟨output', midv⟩, looped', same, above, next, kept, kept'⟩ := foldlM_related
    (f := fg.allocateOutput env granularity p) (g := fg.allocateOutput env granularity p)
    (Making S n h v) (fun _ _ _ _ _ making made => allocateOutput_making making made) begun looped
  obtain rfl : output = output' := same
  dsimp only at next kept kept' above assigned
  let d : BlockDetail := ⟨List.replicate (fg.calcUsedPorts p true).length none, output, false⟩
  have joined := next.setDetail (p := p) (d := d)
    (fun q member => absurd (List.eq_of_mem_replicate member) (Option.some_ne_none q)) above
  cases block : (env p).grBlock with
  | none =>
    rw [block] at assigned
    cases assigned
  | some g =>
    rw [block] at assigned
    refine ⟨{ midv with detail := Function.update midv.detail p (some d) }, ?_, ?_, ?_⟩
    · refine bind_ok.mpr ⟨(d, midv), bind_ok.mpr ⟨(output, midv), looped', rfl⟩, ?_⟩
      simp only [block, Heap.setDetail, kept', blank, List.foldlM_nil]
      rfl
    · refine foldlM_invariant (fun s => AgreeOn (fun b => S b ∨ b = p) n s
        { midv with detail := Function.update midv.detail p (some d) }) ?_ joined assigned
      intro s t reader member agree' released
      refine (agree'.release_below (fun q held => ?_) released).1
      subst held
      split at member
      · cases member
      · rename_i d' detail
        exact earlier d' q (by rw [← kept, detail]) member
    · intro b other
      dsimp only
      rw [Function.update_of_ne other, kept']

theorem assignDetails_agree [Zero α] {l : List BlockId} (nodup : l.Nodup)
    (new : ∀ p ∈ l, ¬S p ∧ v.detail p = none) (agree : AgreeOn S n h v)
    (looped : l.foldlM (fg.assignDetail env granularity) h = .ok h') :
    ∃ v', l.foldlM (fg.assignDetail env granularity) v = .ok v' ∧
      AgreeOn (fun b => S b ∨ b ∈ l) n h' v' := by
  induction l generalizing S h v with
  | nil => exact ⟨v, rfl, Except.ok.inj looped ▸ agree.congr fun b => by simp⟩
  | cons p l ih =>
    obtain ⟨mid, assigned, rest⟩ := foldlM_cons_ok.mp looped
    have ⟨outside, blank⟩ := new p List.mem_cons_self
    obtain ⟨midv, assigned', next, others⟩ := assignDetail_agree agree blank
      (fun d q detail => agree.stale p d q outside (Or.inl detail)) assigned
    have ⟨apart, nodup⟩ := List.nodup_cons.mp nodup
    have new' : ∀ q ∈ l, ¬(S q ∨ q = p) ∧ midv.detail q = none := by
      intro q member
      have other : q ≠ p := fun same => apart (same ▸ member)
      have ⟨outside, blank⟩ := new q (List.mem_cons_of_mem p member)
      exact ⟨not_or.mpr ⟨outside, other⟩, by rw [others q other, blank]⟩
    obtain ⟨v', looped', last⟩ := ih nodup new' next rest
    refine ⟨v', foldlM_cons_ok.mpr ⟨midv, assigned', looped'⟩, last.congr fun b => ?_⟩
    rw [List.mem_cons, or_assoc]

/-- A flowgraph is set up as it would be if nothing had run before. -/
theorem setupConnections_agree [Zero α] {start : Heap α τ} (allocated : start.Allocated)
    (setup : fg.setupConnections env granularity start = .ok h) :
    ∃ v, fg.setupConnections env granularity start.blank = .ok v ∧
      AgreeOn (· ∈ fg.calcUsedBlocks) start.nbuffers h v := by
  obtain ⟨mid, assigned, connected⟩ := bind_ok.mp setup
  obtain ⟨midv, assigned', agree⟩ := assignDetails_agree (uniqueVector_nodup _)
    (fun p _ => ⟨id, rfl⟩) allocated.agree_blank assigned
  have wired : Tracks (· ∈ fg.calcUsedBlocks) start.nbuffers
      (fg.calcUsedBlocks.foldlM (fg.connectBlockInputs env) mid)
      (fg.calcUsedBlocks.foldlM (fg.connectBlockInputs env) midv) :=
    .foldlM (fun _ _ _ _ agree => connectBlockInputs_tracks (fun _ => id) agree)
      (agree.congr fun b => Iff.of_eq (false_or _).symm)
  obtain ⟨v, connected', last⟩ := wired h connected
  exact ⟨v, bind_ok.mpr ⟨midv, assigned', connected'⟩, last⟩

/-! ## Merging -/

theorem mergeDetail_tracks [Zero α] (inside : S p) (agree : AgreeOn S n h v) :
    Tracks S n (fg.mergeDetail env granularity h p) (fg.mergeDetail env granularity v p) := by
  unfold mergeDetail
  rw [← agree.detail p inside]
  split
  · exact .error
  · exact .ok agree
  · rename_i none
    intro h' merged
    obtain ⟨v', assigned, next, -⟩ := assignDetail_agree agree
      ((agree.detail p inside).symm.trans none)
      (fun d q detail => by rw [none] at detail; cases detail) merged
    exact ⟨v', assigned, next.congr fun b =>
      ⟨Or.inl, fun either => either.elim id fun here => here ▸ inside⟩⟩

theorem mergeOldEdge_tracks (dst : S e.dst.block) (agree : AgreeOn S n h v) :
    Tracks S n (fg.mergeOldEdge env h e) (fg.mergeOldEdge env v e) := by
  unfold mergeOldEdge
  split
  · exact .ok agree
  · split
    · exact .error
    · exact agree.setInput dst fun q impossible => by cases impossible

theorem mergeInput_tracks {i : Nat} (valid : fg.Valid env) (covers : ∀ b ∈ fg.calcUsedBlocks, S b)
    (inside : S p) (agree : AgreeOn S n h v) :
    Tracks S n (fg.mergeInput env p g h i) (fg.mergeInput env p g v i) := by
  have same : oldReader h p i = oldReader v p i := by
    unfold oldReader Heap.input
    rw [agree.detail p inside]
  unfold mergeInput
  split
  · exact .error
  · rename_i edge found
    have src := covers _ (src_used (valid.calcUpstreamEdge_iff.mp found).1)
    split
    · exact .error
    · rw [agree.output src, same]
      refine .read fun srcBuffer source => .read fun reader _ => ?_
      split
      · exact .ok agree
      · exact agree.connectInput inside
          (agree.output_ge src ((agree.output src).trans source)) _

theorem mergeBlock_tracks (valid : fg.Valid env) (covers : ∀ b ∈ fg.calcUsedBlocks, S b)
    (inside : S p) (agree : AgreeOn S n h v) :
    Tracks S n (fg.mergeBlock env old h p) (fg.mergeBlock env old v p) := by
  unfold mergeBlock
  split
  · exact .error
  · split
    · exact .foldlM (fun _ _ _ _ agree => mergeInput_tracks valid covers inside agree) agree
    · exact connectBlockInputs_tracks covers agree

theorem mergeConnections_tracks [Zero α] (valid : fg.Valid env)
    (covers : ∀ b ∈ fg.calcUsedBlocks, S b) (coversOld : ∀ b ∈ old.calcUsedBlocks, S b)
    (agree : AgreeOn S n h v) : Tracks S n (fg.mergeConnections env granularity old h)
      (fg.mergeConnections env granularity old v) := by
  have known : ∀ b ∈ fg.blocks, S b := fun b member => covers b (valid.blocks_eq ▸ member)
  refine .bind (.foldlM (fun _ _ p member => mergeDetail_tracks (known p member)) agree)
    fun h v agree => .bind (.foldlM (fun _ _ e member => ?_) agree)
      fun h v agree => .foldlM (fun _ _ p member => ?_) agree
  · exact mergeOldEdge_tracks (coversOld _ (dst_used member))
  · exact mergeBlock_tracks valid covers (known p member)

/-! ## The condition of a merge -/

end Flowgraph

namespace Heap.AgreeOn

variable {e : Endpoint} {id : BufferId} {q : ReaderPtr}

variable (agree : AgreeOn S n h v)
include agree

theorem outputAt (inside : S e.block) : h.outputAt e = v.outputAt e := by
  unfold Heap.outputAt
  rw [agree.detail e.block inside]

theorem inputAt (inside : S e.block) : h.inputAt e = v.inputAt e := by
  unfold Heap.inputAt
  rw [agree.detail e.block inside]

theorem outputAt_ge (inside : S e.block) (there : h.outputAt e = some id) : n ≤ id :=
  agree.output_ge inside (Flowgraph.output_ok.mpr there)

theorem readerAt (above : n ≤ q.buffer) : h.readerAt q = v.readerAt q := by
  unfold Heap.readerAt
  rw [agree.buffer q.buffer above]

end Heap.AgreeOn

namespace Flowgraph

open Heap

theorem CanMerge.agree [Zero α] (covers : ∀ b ∈ fg.calcUsedBlocks, S b) (agree : AgreeOn S n h v)
    (can : CanMerge env granularity old fg h) : CanMerge env granularity old fg v where
  ninputs := can.ninputs
  noutputs := can.noutputs
  sizes b before used port id there := by
    have inside := covers b used
    rw [← agree.outputAt inside] at there
    rw [← agree.buffer id (agree.outputAt_ge inside there)]
    exact can.sizes b before used port id there
  blank b used new := (agree.detail b (covers b used)).symm.trans (can.blank b used new)
  fresh := can.fresh
  history := can.history

theorem Reconfigured.agree (covers : ∀ b ∈ fg.calcUsedBlocks, S b)
    (coversOld : ∀ b ∈ old.calcUsedBlocks, S b) (before : AgreeOn S n h v) (after : AgreeOn S n h' v')
    (done : Reconfigured env old fg h h') : Reconfigured env old fg v v' := by
  have src : ∀ e ∈ fg.edges, S e.src.block := fun e member => covers _ (src_used member)
  have dst : ∀ e ∈ fg.edges, S e.dst.block := fun e member => covers _ (dst_used member)
  refine ⟨?_, ?_, ?_, ?_, ?_⟩
  · intro b used
    rw [Heap.ports, ← after.detail b (covers b used)]
    exact done.ports b used
  · intro e member
    obtain ⟨p, held, feeds, found⟩ := done.inputs e member
    rw [after.readerAt (after.outputAt_ge (src e member) feeds)] at found
    rw [after.inputAt (dst e member)] at held
    rw [after.outputAt (src e member)] at feeds
    exact ⟨p, held, feeds, found⟩
  · intro e there member
    obtain ⟨p, held, held', reader, buffer⟩ := done.kept e there member
    obtain ⟨q, same, feeds, -⟩ := done.inputs e member
    obtain rfl : p = q := Option.some.inj (held'.symm.trans same)
    have above := after.outputAt_ge (src e member) feeds
    rw [before.inputAt (dst e member)] at held
    rw [after.inputAt (dst e member)] at held'
    rw [before.readerAt above, after.readerAt above] at reader
    rw [before.buffer _ above, after.buffer _ above] at buffer
    exact ⟨p, held, held', reader, buffer⟩
  · intro e id known there r member
    have inside : S e.block := known.elim (coversOld _) (covers _)
    rw [← after.outputAt inside] at there
    rw [← after.buffer id (after.outputAt_ge inside there)] at member
    obtain ⟨e, stays, feeds, held⟩ := done.readers e id known there r member
    rw [after.outputAt (src e stays)] at feeds
    rw [after.inputAt (dst e stays)] at held
    exact ⟨e, stays, feeds, held⟩
  · intro b used port id there
    have inside := covers b used
    rw [← after.outputAt inside] at there
    rw [← after.buffer id (after.outputAt_ge inside there)]
    exact done.sizes b used port id there

/-! ## Running -/

variable {start h₀ v₀ : Heap α τ} {b : BlockId} {d : BlockDetail}

theorem SameWiring.detail_some (same : SameWiring h₀ h) (detail : h.detail b = some d) :
    ∃ d₀, h₀.detail b = some d₀ ∧ d₀.input = d.input ∧ d₀.output = d.output := by
  have pair := same.detail b
  rw [detail] at pair
  obtain ⟨d₀, before, ports⟩ := Option.map_eq_some_iff.mp pair.symm
  exact ⟨d₀, before, congrArg Prod.fst ports, congrArg Prod.snd ports⟩

/-- What a running heap has of the blocks in `T` and the buffers from `n` on; the rest is that of
`v₀`. -/
def within (T : BlockId → Prop) [DecidablePred T] (n : Nat) (h v₀ : Heap α τ) : Heap α τ :=
  { h with
    detail := fun b => if T b then h.detail b else none
    buffer := fun id => if n ≤ id then h.buffer id else v₀.buffer id }

section Within

variable {T : BlockId → Prop} [DecidablePred T]

theorem within_detail (b : BlockId) :
    (within T n h v₀).detail b = if T b then h.detail b else none := rfl

theorem within_buffer (id : BufferId) :
    (within T n h v₀).buffer id = if n ≤ id then h.buffer id else v₀.buffer id := rfl

variable (agree : AgreeOn S n h₀ v₀) (more : ∀ b, S b → T b)
  (blank : ∀ b, T b → ¬S b → h.detail b = none) (same : SameWiring h₀ h)
include agree more blank same

theorem agree_within : AgreeOn T n h (within T n h v₀) := by
  have known : ∀ b d, T b → h.detail b = some d → S b := by
    intro b d inside detail
    by_contra outside
    rw [blank b inside outside] at detail
    cases detail
  refine ⟨same.nbuffers ▸ agree.le, rfl, rfl, fun b inside => (if_pos inside).symm,
    fun id above => (if_pos above).symm, ?_, ?_, ?_⟩
  · intro b d q inside detail member
    obtain ⟨d₀, before, inputs, -⟩ := same.detail_some detail
    exact agree.inputs b d₀ q (known b d inside detail) before (inputs ▸ member)
  · intro b d id inside detail member
    obtain ⟨d₀, before, -, outputs⟩ := same.detail_some detail
    exact agree.outputs b d₀ id (known b d inside detail) before (outputs ▸ member)
  · rintro b d q outside (detail | impossible) member
    · obtain ⟨d₀, before, inputs, -⟩ := same.detail_some detail
      exact agree.stale b d₀ q (outside ∘ more b) (Or.inl before) (inputs ▸ member)
    · rw [within_detail, if_neg outside] at impossible
      cases impossible

theorem sameWiring_within (unused : ∀ b, ¬S b → v₀.detail b = none) :
    SameWiring v₀ (within T n h v₀) := by
  refine ⟨same.nbuffers.trans agree.nbuffers, same.nreaders.trans agree.nreaders, ?_, ?_, ?_, ?_⟩
  · intro b
    rw [within_detail]
    by_cases inside : S b
    · rw [if_pos (more b inside), ← agree.detail b inside]
      exact same.detail b
    · rw [unused b inside]
      split
      · rename_i added
        rw [blank b added inside]
      · rfl
  · intro id
    by_cases above : n ≤ id
    · rw [within_buffer, if_pos above, ← agree.buffer id above]
      exact same.bufsize id
    · rw [within_buffer, if_neg above]
  · intro id
    by_cases above : n ≤ id
    · rw [Heap.idents, Heap.idents, within_buffer, if_pos above, ← agree.buffer id above]
      exact same.idents id
    · rw [Heap.idents, Heap.idents, within_buffer, if_neg above]
  · intro e id there valid
    have inside : S e.block := by
      by_contra outside
      rw [Heap.outputAt, unused _ outside] at there
      split at there <;> cases there
    rw [← agree.outputAt inside] at there
    have above := agree.outputAt_ge inside there
    rw [← agree.buffer id above] at valid
    rw [within_buffer, if_pos above]
    exact same.writer e id there valid

end Within

/-- After `setup_connections` and a run another flowgraph may be set up. -/
theorem setupConnections_allocated [Zero α] (validOld : old.Valid env)
    (allocated : start.Allocated) (setup : old.setupConnections env granularity start = .ok h₀)
    (same : SameWiring h₀ h) : h.Allocated := by
  obtain ⟨v₀, setup', agree⟩ := setupConnections_agree allocated setup
  have wired := (setupConnections_of_blank validOld start.blank_wellWired (fun _ => rfl)
    setup').wellWired
  constructor
  · intro b d q detail member
    rw [same.nbuffers]
    obtain ⟨d₀, before, inputs, -⟩ := same.detail_some detail
    rw [← inputs] at member
    by_cases inside : b ∈ old.calcUsedBlocks
    · obtain ⟨i, below, here⟩ := List.mem_iff_getElem.mp member
      have held : v₀.inputAt ⟨b, i⟩ = some q := by
        rw [← agree.inputAt inside, Heap.inputAt, if_neg (Int.natCast_nonneg i).not_gt, before]
        simp [below, here]
      exact agree.nbuffers ▸ (wired.idents_lt _ _ (wired.input_reader _ _ held)).1
    · exact (agree.stale b d₀ q inside (Or.inl before) member).trans_le agree.le
  · intro id above
    rw [same.nbuffers] at above
    have empty : h₀.idents id = [] := by
      rw [Heap.idents, agree.buffer id (agree.le.trans above)]
      refine List.eq_nil_iff_forall_not_mem.mpr fun i member => ?_
      exact absurd (wired.idents_lt id i member).1 (not_lt.mpr (agree.nbuffers ▸ above))
    rw [← same.idents id] at empty
    exact List.map_eq_nil_iff.mp empty

/-- **Reconfiguration.** A merge reconfigures a flowgraph that was set up, whatever ran before, and
has run since, when the blocks it keeps keep their numbers of ports and have large enough buffers
and the others have no detail of an earlier flowgraph. If they have none, it does so only then. -/
theorem reconfigured_iff_canMerge [Zero α] (validOld : old.Valid env) (valid : fg.Valid env)
    (flat : ∀ b ∈ fg.calcUsedBlocks, (env b).grBlock.isSome) (allocated : start.Allocated)
    (setup : old.setupConnections env granularity start = .ok h₀) (same : SameWiring h₀ h) :
    (CanMerge env granularity old fg h →
      ∃ h', fg.mergeConnections env granularity old h = .ok h' ∧ Reconfigured env old fg h h') ∧
    ((∀ b ∈ fg.calcUsedBlocks, b ∉ old.calcUsedBlocks → h.detail b = none) →
      (∃ h', fg.mergeConnections env granularity old h = .ok h' ∧ Reconfigured env old fg h h') →
      CanMerge env granularity old fg h) := by
  obtain ⟨v₀, setup', agree⟩ := setupConnections_agree allocated setup
  have ready := setupConnections_of_blank validOld start.blank_wellWired (fun _ => rfl) setup'
  have unused : ∀ b ∉ old.calcUsedBlocks, v₀.detail b = none := fun b outside =>
    Option.map_eq_none_iff.mp (ready.unused b outside)
  let T := fun b => b ∈ old.calcUsedBlocks ∨ b ∈ fg.calcUsedBlocks
  let v := within T start.nbuffers h v₀
  have covers : ∀ b ∈ fg.calcUsedBlocks, T b := fun _ => Or.inr
  have coversOld : ∀ b ∈ old.calcUsedBlocks, T b := fun _ => Or.inl
  have both : (∀ b ∈ fg.calcUsedBlocks, b ∉ old.calcUsedBlocks → h.detail b = none) →
      ((∃ h', fg.mergeConnections env granularity old h = .ok h' ∧
        Reconfigured env old fg h h') ↔ CanMerge env granularity old fg h) := by
    intro blank
    have blank : ∀ b, T b → b ∉ old.calcUsedBlocks → h.detail b = none := fun b known outside =>
      blank b (known.resolve_left outside) outside
    have known : AgreeOn T start.nbuffers h v := agree_within agree coversOld blank same
    have running : Running env old v :=
      ready.running (sameWiring_within agree coversOld blank same unused)
    rw [show CanMerge env granularity old fg h ↔ CanMerge env granularity old fg v from
      ⟨CanMerge.agree covers known, CanMerge.agree covers known.symm⟩,
      ← running.reconfigured_iff validOld valid flat]
    constructor
    · rintro ⟨h', merged, done⟩
      obtain ⟨v', merged', after⟩ :=
        mergeConnections_tracks valid covers coversOld known h' merged
      exact ⟨v', merged', done.agree covers coversOld known after⟩
    · rintro ⟨v', merged, done⟩
      obtain ⟨h', merged', after⟩ :=
        mergeConnections_tracks valid covers coversOld known.symm v' merged
      exact ⟨h', merged', done.agree covers coversOld known.symm after⟩
  exact ⟨fun can => (both can.blank).mpr can, fun blank => (both blank).mp⟩

/-! ## A mixer that gains an input -/

/-- Sources, and as block 1 a sink with one input or more. -/
def mixerBlocks : Blocks := fun b =>
  let source := BasicBlock.leaf "source" 0 1 .initial 4 sizeofFloat_pos
  if b = 1 then
    { source with
      name := "mixer"
      inputSignature := { IoSignature.fixed 1 4 sizeofFloat_pos with
        maxStreams := -1
        min_le := Or.inl rfl
        items_pos := by
          intro _ item member
          obtain rfl := List.mem_singleton.mp member
          decide }
      outputSignature := IoSignature.fixed 0 4 sizeofFloat_pos }
  else source

/-- One source is connected to the mixer. -/
def oneSource : Flowgraph := ⟨[0, 1], [⟨⟨0, 0⟩, ⟨1, 0⟩⟩]⟩

/-- A second source is connected as well. -/
def twoSources : Flowgraph := ⟨[0, 1, 2], [⟨⟨0, 0⟩, ⟨1, 0⟩⟩, ⟨⟨2, 0⟩, ⟨1, 1⟩⟩]⟩

theorem oneSource_valid : oneSource.Valid mixerBlocks where
  built := .validate (Built.empty.connectAll oneSource.edges rfl) rfl
  validated := rfl

theorem twoSources_valid : twoSources.Valid mixerBlocks where
  built := .validate (Built.empty.connectAll twoSources.edges rfl) rfl
  validated := rfl

/-- The mixer keeps a detail with one input, so the second cannot be set. -/
theorem merge_gained_input : oneSource.Valid mixerBlocks ∧ twoSources.Valid mixerBlocks ∧
    ∃ h₀ : Heap Nat Unit,
    oneSource.setupConnections mixerBlocks 4096 Heap.empty = .ok h₀ ∧ SameWiring h₀ h₀ ∧
    ¬ ∃ h', twoSources.mergeConnections mixerBlocks 4096 oneSource h₀ = .ok h' ∧
      Reconfigured mixerBlocks oneSource twoSources h₀ h' := by
  refine ⟨oneSource_valid, twoSources_valid, ?_⟩
  have returns : (oneSource.setupConnections (α := Nat) (τ := Unit) mixerBlocks 4096
      Heap.empty).isOk = true := by decide +kernel
  have raises : ((oneSource.setupConnections (α := Nat) (τ := Unit) mixerBlocks 4096
      Heap.empty).bind fun h =>
        twoSources.mergeConnections mixerBlocks 4096 oneSource h).isOk = false := by
    decide +kernel
  cases setup : oneSource.setupConnections (α := Nat) (τ := Unit) mixerBlocks 4096 Heap.empty with
  | error e => rw [setup] at returns; cases returns
  | ok h₀ =>
    refine ⟨h₀, rfl, .refl h₀, ?_⟩
    rintro ⟨h', merged, -⟩
    rw [setup] at raises
    change (twoSources.mergeConnections mixerBlocks 4096 oneSource h₀).isOk = false at raises
    rw [merged] at raises
    cases raises

theorem allocated_empty : (Heap.empty : Heap Nat Unit).Allocated :=
  ⟨fun _ _ _ impossible => (by cases impossible), fun _ _ => rfl⟩

/-- The condition at the mixer that gains an input when its flowgraph is started a second time. -/
theorem reconfigured_iff_canMerge_mixer : ∃ start h₀ : Heap Nat Unit,
    oneSource.setupConnections mixerBlocks 4096 Heap.empty = .ok start ∧
    oneSource.setupConnections mixerBlocks 4096 start = .ok h₀ ∧
    (CanMerge mixerBlocks 4096 oneSource twoSources h₀ →
      ∃ h', twoSources.mergeConnections mixerBlocks 4096 oneSource h₀ = .ok h' ∧
        Reconfigured mixerBlocks oneSource twoSources h₀ h') ∧
    ((∀ b ∈ twoSources.calcUsedBlocks, b ∉ oneSource.calcUsedBlocks → h₀.detail b = none) →
      (∃ h', twoSources.mergeConnections mixerBlocks 4096 oneSource h₀ = .ok h' ∧
        Reconfigured mixerBlocks oneSource twoSources h₀ h') →
      CanMerge mixerBlocks 4096 oneSource twoSources h₀) := by
  have returns : ((oneSource.setupConnections (α := Nat) (τ := Unit) mixerBlocks 4096
      Heap.empty).bind fun h =>
        oneSource.setupConnections mixerBlocks 4096 h).isOk = true := by decide +kernel
  cases setup : oneSource.setupConnections (α := Nat) (τ := Unit) mixerBlocks 4096 Heap.empty with
  | error e => rw [setup] at returns; cases returns
  | ok start =>
    rw [setup] at returns
    cases again : oneSource.setupConnections mixerBlocks 4096 start with
    | error e =>
      change (oneSource.setupConnections mixerBlocks 4096 start).isOk = true at returns
      rw [again] at returns
      cases returns
    | ok h₀ =>
      have allocated : start.Allocated :=
        setupConnections_allocated oneSource_valid allocated_empty setup (.refl start)
      exact ⟨start, h₀, rfl, again, reconfigured_iff_canMerge oneSource_valid twoSources_valid
        (by decide +kernel) allocated again (.refl h₀)⟩

end Flowgraph

end GnuRadio
