import GnuRadio.Misc.Retention
import GnuRadio.Runtime.WakeUp

/-!
# What a step does to tags and offsets

Seen from one buffer a step of the scheduler puts tags into it, prunes it, publishes
items or consumes some. Seen from one input of a block it moves the mark up to which
`propagate_tags` has looked at it.
-/

namespace GnuRadio

variable {α τ μ : Type} {env : Blocks} {w w' : World α τ μ} {b c : BlockId} {id : BufferId}

/-! ## Buffers -/

namespace Buffer

/-- Each reader with its `nitems_read`. -/
def progress (b : Buffer α τ) : List (Nat × Nat) :=
  b.readers.map fun r => (r.ident, r.absReadOffset)

/-- The offset to which `space_available` prunes the tags, if it does. -/
def pruneLimit (b : Buffer α τ) : Option Nat :=
  match b.readers with
  | [] => none
  | first :: rest =>
      if minItemsRead first rest ≠ b.lastMinItemsRead then some b.lastMinItemsRead else none

/-- The tags that pruning leaves. -/
def keptTags (b : Buffer α τ) : Option Nat → List (Tag τ)
  | none => b.itemTags
  | some limit => b.itemTags.filter fun t => limit ≤ t.offset

/-- From `b` to `b'` tags were pruned, others put, items were published and, by each reader,
consumed, without running over 64 bits. -/
structure Changes (b b' : Buffer α τ) (limit : Option Nat) (put : List (Tag τ)) (published : Nat)
    (consumed : Nat → Nat) : Prop where
  tags : b'.itemTags = b.keptTags limit ++ put
  written : b.absWriteOffset + published < 2 ^ 64 →
    b'.absWriteOffset = b.absWriteOffset + published
  progress : (∀ x ∈ b.progress, x.2 + consumed x.1 < 2 ^ 64) →
    b'.progress = b.progress.map fun x => (x.1, x.2 + consumed x.1)
  unpruned : limit = none → b'.lastMinItemsRead = b.lastMinItemsRead
  pruned : limit ≠ none → ∀ x ∈ b.progress, b'.lastMinItemsRead ≤ x.2

variable {b b' : Buffer α τ}

theorem changes_same (tags : b'.itemTags = b.itemTags) (written : b'.absWriteOffset = b.absWriteOffset)
    (readers : b'.readers = b.readers) (pruned : b'.lastMinItemsRead = b.lastMinItemsRead) :
    b.Changes b' none [] 0 fun _ => 0 where
  tags := by rw [tags, keptTags, List.append_nil]
  written _ := written
  progress _ := by simp [Buffer.progress, readers]
  unpruned _ := pruned
  pruned some := absurd rfl some

theorem changes_addItemTag (b : Buffer α τ) (t : Tag τ) :
    b.Changes (b.addItemTag t) none [t] 0 fun _ => 0 where
  tags := rfl
  written _ := rfl
  progress _ := by simp [Buffer.progress, addItemTag]
  unpruned _ := rfl
  pruned some := absurd rfl some

theorem changes_updateWritePointer (b : Buffer α τ) (n : Nat) :
    b.Changes (b.updateWritePointer n) none [] n fun _ => 0 where
  tags := (List.append_nil _).symm
  written fits := Nat.mod_eq_of_lt fits
  progress _ := by simp [Buffer.progress]
  unpruned _ := rfl
  pruned some := absurd rfl some

theorem changes_updateReadPointer (b : Buffer α τ) (ident n : Nat) :
    b.Changes (b.updateReadPointer ident n) none [] 0 fun i => if i = ident then n else 0 where
  tags := (List.append_nil _).symm
  written _ := rfl
  progress fits := by
    rw [Buffer.progress, Buffer.progress, updateReadPointer, List.map_map, List.map_map]
    apply List.map_congr_left
    intro r member
    have fit := fits (r.ident, r.absReadOffset) (List.mem_map.mpr ⟨r, member, rfl⟩)
    by_cases same : r.ident = ident
    · simp only [same, if_true] at fit
      have whole : (r.absReadOffset + n) % 2 ^ 64 = r.absReadOffset + n := Nat.mod_eq_of_lt fit
      simpa [same, BufferReader.updateReadPointer] using whole
    · simp [same]
  unpruned _ := rfl
  pruned some := absurd rfl some

theorem pruneLoop_eq (limit : Nat) {fuel : Nat} {tags : List (Tag τ)} (enough : tags.length ≤ fuel) :
    pruneLoop limit fuel tags = tags.filter fun t => limit ≤ t.offset := by
  induction fuel generalizing tags with
  | zero =>
    rw [List.length_eq_zero_iff.mp (Nat.le_zero.mp enough)]
    rfl
  | succ fuel ih =>
    rw [pruneLoop]
    split
    · rename_i found
      obtain ⟨t, member, low⟩ := List.any_eq_true.mp found
      obtain ⟨u, front, back, -, below, split, rest⟩ :=
        List.exists_of_eraseP (p := fun t : Tag τ => decide (t.offset < limit)) member low
      have short : (tags.eraseP fun t => decide (t.offset < limit)).length ≤ fuel := by
        rw [rest]
        rw [split] at enough
        simp only [List.length_append, List.length_cons] at enough ⊢
        omega
      rw [ih short, rest, split]
      have first : ¬ limit ≤ u.offset := by simpa using below
      simp [first]
    · rename_i none
      symm
      apply List.filter_eq_self.mpr
      intro t member
      simp only [List.any_eq_true, decide_eq_true_eq, not_exists, not_and, not_lt] at none
      exact decide_eq_true (none t member)

theorem minItemsRead_le (first : BufferReader) (rest : List BufferReader) :
    ∀ r ∈ first :: rest, minItemsRead first rest ≤ r.absReadOffset := by
  have least : ∀ (l : List BufferReader) (m : Nat),
      let least := l.foldl (fun least r => min least r.absReadOffset) m
      least ≤ m ∧ ∀ r ∈ l, least ≤ r.absReadOffset := by
    intro l
    induction l with
    | nil => simp
    | cons r l ih =>
      intro m
      obtain ⟨below, each⟩ := ih (min m r.absReadOffset)
      refine ⟨below.trans (Nat.min_le_left ..), ?_⟩
      intro r' member
      rcases List.mem_cons.mp member with rfl | later
      · exact below.trans (Nat.min_le_right ..)
      · exact each r' later
  obtain ⟨below, each⟩ := least rest first.absReadOffset
  intro r member
  rcases List.mem_cons.mp member with rfl | later
  · exact below
  · exact each r later

theorem changes_spaceAvailable (b : Buffer α τ) :
    b.Changes b.spaceAvailable.2 b.pruneLimit [] 0 fun _ => 0 := by
  unfold spaceAvailable pruneLimit
  cases readers : b.readers with
  | nil => exact changes_same rfl rfl rfl rfl
  | cons first rest =>
    dsimp only
    split
    · refine ⟨?_, fun _ => rfl, fun _ => by simp [Buffer.progress, pruneTags], by simp, ?_⟩
      · rw [List.append_nil]
        exact pruneLoop_eq _ le_rfl
      · intro _ x member
        obtain ⟨r, there, rfl⟩ := List.mem_map.mp member
        rw [readers] at there
        exact minItemsRead_le first rest r there
    · exact changes_same rfl rfl rfl rfl

theorem Changes.trans {b'' : Buffer α τ} {consumed more : Nat → Nat}
    (first : b.Changes b' none [] 0 consumed) (second : b'.Changes b'' none [] 0 more) :
    b.Changes b'' none [] 0 fun i => consumed i + more i where
  tags := by
    have same := first.tags
    rw [List.append_nil] at same
    rw [second.tags, keptTags, same]
  written fits := by
    have same := first.written fits
    rw [second.written (by rw [same]; exact fits), same]
  progress fits := by
    have early := first.progress fun x member =>
      (Nat.add_le_add_left (Nat.le_add_right _ _) _).trans_lt (fits x member)
    rw [second.progress, early, List.map_map]
    · apply List.map_congr_left
      intro x _
      simp [Nat.add_assoc]
    · intro x member
      rw [early] at member
      obtain ⟨y, there, rfl⟩ := List.mem_map.mp member
      have fit := fits y there
      rwa [← Nat.add_assoc] at fit
  unpruned _ := (second.unpruned rfl).trans (first.unpruned rfl)
  pruned some := absurd rfl some

/-- What a step makes of a buffer. -/
structure Effect (α τ : Type) where
  limit : Option Nat := none
  put : List (Tag τ) := []
  stored : List α := []
  published : Nat := 0
  consumed : Nat → Nat := fun _ => 0

/-- A buffer is changed by one call, or several readers consume. -/
inductive Evolves : Buffer α τ → Buffer α τ → Effect α τ → Prop
  | done (b : Buffer α τ) (done : Bool) : Evolves b (b.setDone done) {}
  | ask (b : Buffer α τ) : Evolves b b.spaceAvailable.2 { limit := b.pruneLimit }
  | tag (b : Buffer α τ) (t : Tag τ) : Evolves b (b.addItemTag t) { put := [t] }
  | store (b : Buffer α τ) (items : List α) : Evolves b (b.writeItems items) { stored := items }
  | publish (b : Buffer α τ) (n : Nat) : Evolves b (b.updateWritePointer n) { published := n }
  | consume (b : Buffer α τ) (ident n : Nat) :
      Evolves b (b.updateReadPointer ident n) { consumed := fun i => if i = ident then n else 0 }
  | both {b b' b'' : Buffer α τ} {consumed more : Nat → Nat} (first : Evolves b b' { consumed })
      (second : Evolves b' b'' { consumed := more }) :
      Evolves b b'' { consumed := fun i => consumed i + more i }

theorem Evolves.refl (b : Buffer α τ) : b.Evolves b {} := .done b b.done

theorem Evolves.changes {effect : Effect α τ} (evolves : b.Evolves b' effect) :
    b.Changes b' effect.limit effect.put effect.published effect.consumed := by
  induction evolves with
  | done | store => exact changes_same rfl rfl rfl rfl
  | ask => exact changes_spaceAvailable _
  | tag => exact changes_addItemTag _ _
  | publish => exact changes_updateWritePointer _ _
  | consume => exact changes_updateReadPointer _ _ _
  | both _ _ first second => exact first.trans second

end Buffer

/-! ## What a step does to a buffer -/

namespace Heap

variable {h h' : Heap α τ}

theorem evolves_mapBuffer (h : Heap α τ) (target : BufferId) (f : Buffer α τ → Buffer α τ)
    {effect seen : Buffer.Effect α τ}
    (evolves : (h.buffer target).Evolves (f (h.buffer target)) effect)
    (here : seen = if target = id then effect else {}) :
    (h.buffer id).Evolves ((h.mapBuffer target f).buffer id) seen := by
  by_cases same : target = id
  · subst same
    simpa [mapBuffer, here] using evolves
  · simp only [here, if_neg same, mapBuffer, Function.update_of_ne (Ne.symm same)]
    exact .refl _

theorem evolves_consumeAt {n : Nat} {p : ReaderPtr} (consumed : h.consumeAt n (some p) = .ok h')
    (id : BufferId) :
    (h.buffer id).Evolves (h'.buffer id) { consumed := fun i => if p = ⟨id, i⟩ then n else 0 } := by
  obtain rfl := Except.ok.inj consumed
  obtain ⟨target, ident⟩ := p
  refine evolves_mapBuffer h target _ (.consume _ ident n) ?_
  by_cases same : target = id
  · simp [same, eq_comm]
  · simp [same]

theorem evolves_consumeEach {n : Nat} {ptrs : List (Option ReaderPtr)}
    (each : ptrs.foldlM (fun h p => h.consumeAt n p) h = .ok h') (id : BufferId) :
    (h.buffer id).Evolves (h'.buffer id)
      { consumed := fun i => ptrs.count (some ⟨id, i⟩) * n } := by
  induction ptrs generalizing h with
  | nil =>
    obtain rfl := Except.ok.inj each
    simpa using Buffer.Evolves.refl (h.buffer id)
  | cons p ptrs ih =>
    obtain ⟨mid, first, rest⟩ := foldlM_cons_ok.mp each
    cases p with
    | none => cases first
    | some p =>
      have counted : (fun i => (some p :: ptrs).count (some ⟨id, i⟩) * n) =
          fun i => (if p = ⟨id, i⟩ then n else 0) + ptrs.count (some ⟨id, i⟩) * n := by
        funext i
        rw [List.count_cons, Nat.add_mul, Nat.add_comm]
        by_cases same : p = ⟨id, i⟩ <;> simp [same]
      rw [counted]
      exact (evolves_consumeAt first id).both (ih rest)

theorem evolves_setDone {d : BlockDetail} {done : Bool} (set : h.setDone b d done = .ok h')
    (id : BufferId) : (h.buffer id).Evolves (h'.buffer id) {} := by
  have mark : ∀ {g : Heap α τ} (target), (h.buffer id).Evolves (g.buffer id) {} →
      (h.buffer id).Evolves ((g.mapBuffer target fun b => b.setDone done).buffer id) {} :=
    fun target before => before.both (evolves_mapBuffer _ target _ (.done _ done) (ite_self _).symm)
  refine foldlM_invariant (fun g : Heap α τ => (h.buffer id).Evolves (g.buffer id) {}) ?_ ?_ set
  · intro g g' p _ before marked
    cases p with
    | none => cases marked
    | some p =>
      obtain rfl := Except.ok.inj marked
      exact mark p.buffer before
  · exact List.foldlRecOn (motive := fun g : Heap α τ => (h.buffer id).Evolves (g.buffer id) {}) _ _
      (.refl _) fun _ before target _ => mark target before

end Heap

namespace World

/-- The tags a step puts into a buffer. -/
def puts (w : World α τ μ) (id : BufferId) : Action α τ μ → List (Tag τ)
  | .thread c .advance =>
      match w.phase c with
      | .propagating _ ((target, t) :: _) _ _ => if target = id then [t] else []
      | _ => []
  | .thread c (.call (.addItemTag which t)) =>
      if w.heap.outputAt ⟨c, which⟩ = some id then [t] else []
  | _ => []

/-- The number of items a step publishes in a buffer. -/
def publishes (w : World α τ μ) (id : BufferId) : Action α τ μ → Nat
  | .thread c .advance =>
      match w.phase c with
      | .producing (target :: _) n => if target = id then n else 0
      | _ => 0
  | .thread c (.call (.produce which n)) =>
      if w.heap.outputAt ⟨c, which⟩ = some id then n.toNat else 0
  | _ => 0

/-- The number of items a step consumes through a reader. -/
def consumes (w : World α τ μ) (p : ReaderPtr) : Action α τ μ → Nat
  | .thread c (.call (.consume which n)) =>
      if w.heap.inputAt ⟨c, which⟩ = some p then n.toNat else 0
  | .thread c (.call (.consumeEach n)) =>
      ((w.heap.detail c).elim 0 fun d => d.input.count (some p)) * n.toNat
  | _ => 0

/-- The offset to which a step prunes the tags of a buffer, if it does. -/
def prunesTo (w : World α τ μ) (id : BufferId) : Action α τ μ → Option Nat
  | .thread c (.askSpace which) =>
      if w.heap.outputAt ⟨c, which⟩ = some id then (w.heap.buffer id).pruneLimit else none
  | _ => none

/-- The items a step stores in a buffer. -/
def stores (w : World α τ μ) (id : BufferId) : Action α τ μ → List α
  | .thread c (.call (.write which items)) =>
      if w.heap.outputAt ⟨c, which⟩ = some id then items else []
  | _ => []

/-- What a step makes of a buffer. -/
def effect (w : World α τ μ) (id : BufferId) (e : Action α τ μ) : Buffer.Effect α τ where
  limit := w.prunesTo id e
  put := w.puts id e
  stored := w.stores id e
  published := w.publishes id e
  consumed i := w.consumes ⟨id, i⟩ e

variable {d : BlockDetail} {g : GrBlock}

theorem evolves_idle {e : Action α τ μ} (same : w'.heap.buffer id = w.heap.buffer id)
    (effect : w.effect id e = {}) :
    (w.heap.buffer id).Evolves (w'.heap.buffer id) (w.effect id e) := by
  rw [effect, same]
  exact .refl _

theorem evolves_call {c : WorkCall α τ} {heap : Heap α τ} {more : Bool}
    (detail : w.heap.detail b = some d) (called : w.heap.workCall d c = .ok (heap, more)) :
    (w.heap.buffer id).Evolves (heap.buffer id) (w.effect id (.thread b (.call c))) := by
  have port : ∀ {which : Int}, 0 ≤ which ∧ which < d.output.length →
      ∀ target, w.heap.outputAt ⟨b, which⟩ = some target ↔ d.output.getD which.toNat 0 = target := by
    intro which inside target
    have low : ¬ which < 0 := by omega
    have high : which.toNat < d.output.length := by omega
    simp [Heap.outputAt, low, detail, high]
  cases c with
  | consume which n =>
    simp only [Heap.workCall] at called
    split at called
    · split at called
      · rename_i inside
        obtain ⟨mid, consumed, same⟩ := bind_ok.mp called
        obtain ⟨rfl, -⟩ := Prod.mk.inj (pure_ok.mp same)
        have low : ¬ which < 0 := by omega
        have high : which.toNat < d.input.length := by omega
        cases there : d.input.getD which.toNat none with
        | none =>
          rw [there] at consumed
          cases consumed
        | some p =>
          rw [there] at consumed
          have held : w.heap.inputAt ⟨b, which⟩ = some p := by
            simp only [List.getD_eq_getElem?_getD, List.getElem?_eq_getElem high,
              Option.getD_some] at there
            simp [Heap.inputAt, low, detail, high, there]
          simpa [effect, prunesTo, puts, stores, publishes, consumes, held] using
            Heap.evolves_consumeAt consumed id
      · cases called
    · obtain ⟨rfl, -⟩ := Prod.mk.inj (Except.ok.inj called)
      have zero : n.toNat = 0 := by omega
      refine evolves_idle (Eq.refl (w.heap.buffer id)) ?_
      simp [effect, prunesTo, puts, stores, publishes, consumes, zero]
  | consumeEach n =>
    simp only [Heap.workCall] at called
    split at called
    · obtain ⟨mid, consumed, same⟩ := bind_ok.mp called
      obtain ⟨rfl, -⟩ := Prod.mk.inj (pure_ok.mp same)
      simpa [effect, prunesTo, puts, stores, publishes, consumes, detail] using
        Heap.evolves_consumeEach consumed id
    · obtain ⟨rfl, -⟩ := Prod.mk.inj (Except.ok.inj called)
      have zero : n.toNat = 0 := by omega
      refine evolves_idle (Eq.refl (w.heap.buffer id)) ?_
      simp [effect, prunesTo, puts, stores, publishes, consumes, zero]
  | produce which n =>
    simp only [Heap.workCall] at called
    split at called
    · split at called
      · rename_i inside
        obtain ⟨rfl, -⟩ := Prod.mk.inj (Except.ok.inj called)
        refine Heap.evolves_mapBuffer w.heap _ _ (.publish _ n.toNat) ?_
        simp only [effect, prunesTo, puts, stores, publishes, consumes, port inside]
        split <;> rfl
      · cases called
    · obtain ⟨rfl, -⟩ := Prod.mk.inj (Except.ok.inj called)
      have zero : n.toNat = 0 := by omega
      refine evolves_idle (Eq.refl (w.heap.buffer id)) ?_
      simp [effect, prunesTo, puts, stores, publishes, consumes, zero]
  | addItemTag which t =>
    simp only [Heap.workCall] at called
    split at called
    · rename_i inside
      obtain ⟨rfl, -⟩ := Prod.mk.inj (Except.ok.inj called)
      refine Heap.evolves_mapBuffer w.heap _ _ (.tag _ t) ?_
      simp only [effect, prunesTo, puts, stores, publishes, consumes, port inside]
      split <;> rfl
    · cases called
  | write which items =>
    simp only [Heap.workCall] at called
    split at called
    · rename_i inside
      obtain ⟨rfl, -⟩ := Prod.mk.inj (Except.ok.inj called)
      refine Heap.evolves_mapBuffer w.heap _ _ (.store _ items) ?_
      simp only [effect, prunesTo, puts, stores, publishes, consumes, port inside]
      split <;> rfl
    · cases called

theorem Moves.evolves {a : ThreadAction α τ} (detail : w.heap.detail b = some d)
    (moves : w.Moves b d g a w') (id : BufferId) :
    (w.heap.buffer id).Evolves (w'.heap.buffer id) (w.effect id (.thread b a)) := by
  have idle : w'.heap = w.heap → a = .advance →
      (∀ windows target t pending produced result,
        w.phase b ≠ .propagating windows ((target, t) :: pending) produced result) →
      (∀ target left n, w.phase b ≠ .producing (target :: left) n) →
      (w.heap.buffer id).Evolves (w'.heap.buffer id) (w.effect id (.thread b a)) := by
    rintro same rfl puts produces
    apply evolves_idle (by rw [same])
    simp only [effect, World.puts, World.publishes]
    rfl
  cases moves with
  | @askSpace which target here output =>
    have low : ¬ (which : Int) < 0 := by omega
    have there : w.heap.outputAt ⟨b, which⟩ = some id ↔ target = id := by
      simp [Heap.outputAt, low, detail, output]
    refine Heap.evolves_mapBuffer w.heap target (fun b => b.spaceAvailable.2) (.ask _) ?_
    simp only [effect, prunesTo, World.puts, stores, publishes, consumes, there]
    split
    · rename_i same
      rw [same]
    · rfl
  | decide => exact evolves_idle rfl rfl
  | call here called => exact evolves_call detail called
  | workReturns =>
    obtain ⟨phase, same, -⟩ := workReturns_eq (w := w) (b := b) (d := d) (g := g) _ _ _
    rw [same]
    exact evolves_idle rfl rfl
  | @addTag windows target t pending produced result here =>
    refine Heap.evolves_mapBuffer w.heap target (fun b => b.addItemTag t) (.tag _ t) ?_
    simp only [effect, prunesTo, World.puts, stores, publishes, consumes, here]
    split <;> rfl
  | @produce target left n here =>
    refine Heap.evolves_mapBuffer w.heap target (fun b => b.updateWritePointer n) (.publish _ n) ?_
    simp only [effect, prunesTo, World.puts, stores, publishes, consumes, here]
    split <;> rfl
  | markDone here marked =>
    simpa [effect, prunesTo, World.puts, stores, publishes, consumes, here] using
      Heap.evolves_setDone marked id
  | settle here settled =>
    obtain ⟨_, rfl, -⟩ := settle_ok settled
    exact idle rfl rfl (by simp [here]) (by simp [here])
  | tell here =>
    exact idle (by rw [setChanged, notifyOne_heap, mapTpb_heap, goto_heap]) rfl (by simp [here])
      (by simp [here])
  | block here | nonePending here =>
    obtain ⟨_, same, -⟩ := testOuter_eq (w := w) (b := b) _
    exact idle (by rw [same, goto_heap]) rfl (by simp [here]) (by simp [here])
  | wake here =>
    obtain ⟨_, same, -⟩ := testInner_eq (w := w) (b := b) _
    exact idle (by rw [same, goto_heap]) rfl (by simp [here]) (by simp [here])
  | handleMessage here | noMessage here | clear here | collect here | ready here | told here
  | handlePending here => exact idle rfl rfl (by simp [here]) (by simp [here])

end World

theorem TpbMoves.evolves {e : Action α τ μ} (moves : TpbMoves env w e w') (id : BufferId) :
    (w.heap.buffer id).Evolves (w'.heap.buffer id) (w.effect id e) := by
  cases moves with
  | thread detail _ moves => exact moves.evolves detail id
  | post b msg =>
    rw [World.post, World.notifyOne_heap, World.notifyOne_heap, World.mapTpb_heap]
    exact World.evolves_idle rfl rfl
  | spuriousWake =>
    obtain ⟨_, same, -⟩ := World.testInner_eq (w := w) _
    rw [same]
    exact World.evolves_idle rfl rfl

theorem TpbMoves.changes {e : Action α τ μ} (moves : TpbMoves env w e w') (id : BufferId) :
    (w.heap.buffer id).Changes (w'.heap.buffer id) (w.prunesTo id e) (w.puts id e)
      (w.publishes id e) fun i => w.consumes ⟨id, i⟩ e :=
  (moves.evolves id).changes

end GnuRadio
