import GnuRadio.Runtime.TagSteps

/-!
# The windows of `propagate_tags`

An iteration of a block looks, at each input, at the tags from where `nitems_read`
stood before `general_work` to where it stands after. The mark of an input is the
offset up to which the block has looked at it: where the open window starts, and
`nitems_read` when none is open.
-/

namespace GnuRadio

variable {α τ μ : Type} {env : Blocks} {w w' : World α τ μ} {b c : BlockId} {id : BufferId}

/-- An input of a block with the reader it reads through. -/
structure Inlet where
  block : BlockId
  port : Nat
  ptr : ReaderPtr
  deriving DecidableEq, Repr

/-! ## The inputs of the blocks -/

namespace Heap

variable {h h' : Heap α τ} {i j : Inlet}

def inlets (h : Heap α τ) (c : BlockId) : List Inlet :=
  match h.detail c with
  | none => []
  | some d => d.input.zipIdx.filterMap fun (p, port) => p.map fun ptr => ⟨c, port, ptr⟩

/-- The inputs that read a buffer. -/
def inletsFrom (h : Heap α τ) (id : BufferId) : List Inlet :=
  (h.buffer id).wires.2.flatMap fun (ident, link) =>
    (h.inlets link).filter fun i => i.ptr = ⟨id, ident⟩

def outputs (h : Heap α τ) (c : BlockId) : List BufferId :=
  (h.detail c).elim [] BlockDetail.output

/-- The buffers on both sides of a block. -/
def around (h : Heap α τ) (c : BlockId) : List BufferId :=
  (h.inlets c).map (·.ptr.buffer) ++ h.outputs c

/-- `nitems_read` of a reader. -/
def itemsRead (h : Heap α τ) (p : ReaderPtr) : Nat :=
  (h.readerAt p).elim 0 BufferReader.absReadOffset

theorem mem_inlets : i ∈ h.inlets c ↔
    i.block = c ∧ ∃ d, h.detail c = some d ∧ d.input[i.port]? = some (some i.ptr) := by
  unfold inlets
  cases detail : h.detail c with
  | none => simp
  | some d =>
    simp only [List.mem_filterMap, Prod.exists, List.mem_zipIdx_iff_getElem?,
      Option.map_eq_some_iff, Option.some.injEq]
    constructor
    · rintro ⟨p, port, there, ptr, rfl, rfl⟩
      exact ⟨rfl, d, rfl, there⟩
    · rintro ⟨rfl, d', rfl, there⟩
      exact ⟨_, _, there, _, rfl, rfl⟩

theorem inlets_ports (member : i ∈ h.inlets c) (also : j ∈ h.inlets c) (same : i.port = j.port) :
    i = j := by
  obtain ⟨rfl, d, detail, held⟩ := mem_inlets.mp member
  obtain ⟨block, d', detail', held'⟩ := mem_inlets.mp also
  obtain rfl := Option.some.inj (detail.symm.trans detail')
  rw [← same, held] at held'
  cases i
  cases j
  simp_all

theorem inlets_nodup (h : Heap α τ) (c : BlockId) : (h.inlets c).Nodup := by
  unfold inlets
  cases h.detail c with
  | none => exact List.nodup_nil
  | some d =>
    apply List.Nodup.filterMap
    · rintro ⟨p, m⟩ ⟨q, n⟩ k left right
      simp only [Option.mem_def, Option.map_eq_some_iff] at left right
      obtain ⟨ptr, rfl, rfl⟩ := left
      obtain ⟨ptr', rfl, same⟩ := right
      cases same
      rfl
    · exact List.Nodup.of_map Prod.snd (by rw [List.zipIdx_map_snd]; exact List.nodup_range')

theorem mem_inletsFrom (wired : h.Wired env) :
    i ∈ h.inletsFrom id ↔ i ∈ h.inlets i.block ∧ i.ptr.buffer = id := by
  simp only [inletsFrom, List.mem_flatMap, List.mem_filter, decide_eq_true_eq, Prod.exists]
  constructor
  · rintro ⟨ident, link, -, member, same⟩
    have block := (mem_inlets.mp member).1
    rw [same, block]
    exact ⟨member, rfl⟩
  · rintro ⟨member, rfl⟩
    obtain ⟨-, d, detail, held⟩ := mem_inlets.mp member
    exact ⟨_, _, wired.reader i.block d i.ptr detail (List.mem_of_getElem? held), member, rfl⟩

theorem SameWires.inlets (same : SameWires h h') (c : BlockId) : h'.inlets c = h.inlets c := by
  have ports := same.ports c
  unfold Heap.inlets
  cases before : h.detail c <;> cases after : h'.detail c <;> simp_all

theorem SameWires.inletsFrom (same : SameWires h h') (id : BufferId) :
    h'.inletsFrom id = h.inletsFrom id := by
  unfold Heap.inletsFrom
  rw [same.wires]
  simp only [same.inlets]

theorem SameWires.outputs (same : SameWires h h') (c : BlockId) : h'.outputs c = h.outputs c := by
  have ports := same.ports c
  unfold Heap.outputs
  cases before : h.detail c <;> cases after : h'.detail c <;> simp_all

theorem SameWires.around (same : SameWires h h') (c : BlockId) : h'.around c = h.around c := by
  rw [Heap.around, Heap.around, same.inlets, same.outputs]

theorem nitemsReadAt_eq {d : BlockDetail} (held : d.input[i.port]? = some (some i.ptr)) :
    h.nitemsReadAt d i.port = h.itemsRead i.ptr := by
  simp only [nitemsReadAt, nitemsRead, List.getD_eq_getElem?_getD, List.getElem?_map, held,
    Option.map_some, Option.bind_some, Option.getD_some, itemsRead]
  cases h.readerAt i.ptr <;> rfl

theorem itemsRead_eq (h : Heap α τ) (p : ReaderPtr) :
    h.itemsRead p = ((h.buffer p.buffer).progress.lookup p.ident).getD 0 := by
  unfold itemsRead readerAt Buffer.reader? Buffer.progress
  induction (h.buffer p.buffer).readers with
  | nil => rfl
  | cons r readers ih =>
    by_cases same : r.ident = p.ident
    · simp [same]
    · have other : (p.ident == r.ident) = false := beq_false_of_ne (Ne.symm same)
      simpa [List.find?_cons, List.lookup_cons, same, other] using ih

theorem itemsRead_changes {p : ReaderPtr} {limit : Option Nat} {put : List (Tag τ)}
    {published : Nat} {consumed : Nat → Nat}
    (changes : (h.buffer p.buffer).Changes (h'.buffer p.buffer) limit put published consumed)
    (fits : ∀ x ∈ (h.buffer p.buffer).progress, x.2 + consumed x.1 < 2 ^ 64)
    (there : p.ident ∈ h.idents p.buffer) :
    h'.itemsRead p = h.itemsRead p + consumed p.ident := by
  rw [itemsRead_eq, itemsRead_eq, changes.progress fits]
  have found : ∀ l : List (Nat × Nat), p.ident ∈ l.map Prod.fst →
      ((l.map fun x => (x.1, x.2 + consumed x.1)).lookup p.ident).getD 0 =
        (l.lookup p.ident).getD 0 + consumed p.ident := by
    intro l
    induction l with
    | nil => simp
    | cons x l ih =>
      obtain ⟨ident, read⟩ := x
      intro member
      by_cases same : p.ident = ident
      · simp [same]
      · have later : p.ident ∈ l.map Prod.fst := by simpa [same] using member
        have other : (p.ident == ident) = false := beq_false_of_ne same
        simpa [List.lookup_cons, other] using ih later
  apply found
  simpa [Buffer.progress, idents] using there

end Heap

/-! ## Marks -/

/-- No window is open: the thread is neither in `general_work` nor in `propagate_tags`. -/
def Phase.Closed : Phase τ → Prop
  | .working _ _ => False
  | .propagating _ _ _ _ => False
  | _ => True

namespace World

variable {d : BlockDetail} {g : GrBlock} {a : ThreadAction α τ} {i : Inlet}

/-- The offset where the open window of an input starts. -/
def openFrom (w : World α τ μ) (i : Inlet) : Option Nat :=
  match w.phase i.block with
  | .working start _ => start[i.port]?
  | .propagating windows _ _ _ => windows.lookup i.port
  | _ => none

/-- The offset up to which a block has looked at an input for tags. -/
def mark (w : World α τ μ) (i : Inlet) : Nat :=
  (w.openFrom i).getD (w.heap.itemsRead i.ptr)

/-- A window starts at a number of items that have been read, and there is one for an input. -/
structure WindowOk (w : World α τ μ) (i : Inlet) : Prop where
  opened : ∀ start produced, w.phase i.block = .working start produced → i.port < start.length
  once : ∀ windows pending produced result,
    w.phase i.block = .propagating windows pending produced result →
    (windows.map Prod.fst).Nodup
  read : ∀ start, w.openFrom i = some start → start ≤ w.heap.itemsRead i.ptr

theorem WindowOk.mark_le (ok : w.WindowOk i) : w.mark i ≤ w.heap.itemsRead i.ptr := by
  unfold mark
  cases found : w.openFrom i with
  | none => exact le_rfl
  | some start => exact ok.read start found

theorem openFrom_closed (closed : (w.phase i.block).Closed) : w.openFrom i = none := by
  unfold openFrom
  split
  · rename_i here
    rw [here] at closed
    exact closed.elim
  · rename_i here
    rw [here] at closed
    exact closed.elim
  · rfl

theorem windowOk_closed (closed : (w.phase i.block).Closed) : w.WindowOk i where
  opened start produced here := by
    rw [here] at closed
    exact closed.elim
  once windows pending produced result here := by
    rw [here] at closed
    exact closed.elim
  read start found := by
    rw [openFrom_closed closed] at found
    cases found

section Open

variable {start : List Nat} {windows : List (Nat × Nat)} {pending : List (BufferId × Tag τ)}
  {produced : Bool} {result : Int}

theorem openFrom_working (here : w.phase i.block = .working start produced) :
    w.openFrom i = start[i.port]? := by
  rw [openFrom, here]

theorem openFrom_propagating (here : w.phase i.block = .propagating windows pending produced result) :
    w.openFrom i = windows.lookup i.port := by
  rw [openFrom, here]

theorem windowOk_working (here : w.phase i.block = .working start produced)
    (inside : i.port < start.length)
    (read : ∀ first, start[i.port]? = some first → first ≤ w.heap.itemsRead i.ptr) :
    w.WindowOk i where
  opened start' produced' working := by
    rw [here] at working
    obtain ⟨rfl, -⟩ := Phase.working.inj working
    exact inside
  once windows pending produced' result propagating := by
    rw [here] at propagating
    cases propagating
  read first found := by
    rw [openFrom_working here] at found
    exact read first found

theorem windowOk_propagating
    (here : w.phase i.block = .propagating windows pending produced result)
    (nodup : (windows.map Prod.fst).Nodup)
    (read : ∀ first, windows.lookup i.port = some first → first ≤ w.heap.itemsRead i.ptr) :
    w.WindowOk i where
  opened start produced' working := by
    rw [here] at working
    cases working
  once windows' pending' produced' result' propagating := by
    rw [here] at propagating
    obtain ⟨rfl, -⟩ := Phase.propagating.inj propagating
    exact nodup
  read first found := by
    rw [openFrom_propagating here] at found
    exact read first found

theorem mark_collect {which first : Nat}
    (here : w.phase i.block = .propagating ((which, first) :: windows) [] produced result)
    (ok : w.WindowOk i) (pending : List (BufferId × Tag τ)) :
    let w' := w.goto i.block (.propagating windows pending produced result)
    w'.WindowOk i ∧ w'.mark i = if i.port = which then w.heap.itemsRead i.ptr else w.mark i := by
  have apart := ok.once _ _ _ _ here
  rw [List.map_cons, List.nodup_cons] at apart
  have propagating := goto_phase_self (w := w) (b := i.block)
    (.propagating windows pending produced result)
  by_cases same : i.port = which
  · subst same
    have unlisted : windows.lookup i.port = none := by
      rw [List.lookup_eq_none_iff]
      intro x later
      exact bne_iff_ne.mpr fun equal => apart.1 (List.mem_map.mpr ⟨x, later, equal.symm⟩)
    refine ⟨windowOk_propagating propagating apart.2 (by simp [unlisted]), ?_⟩
    rw [if_pos rfl, mark, openFrom_propagating propagating, unlisted]
    rfl
  · have opened : w.openFrom i = windows.lookup i.port := by
      rw [openFrom_propagating here, List.lookup_cons, beq_false_of_ne same]
    refine ⟨windowOk_propagating propagating apart.2 ?_, ?_⟩
    · exact fun first found => ok.read first (opened.trans found)
    · rw [if_neg same, mark, mark, opened, openFrom_propagating propagating]
      rfl

end Open

/-- With this step of its block the window of an input is over. -/
def Passes (w : World α τ μ) (i : Inlet) (d : BlockDetail) (g : GrBlock) :
    ThreadAction α τ → Prop
  | .advance => ∃ start windows produced result,
      w.phase i.block = .propagating ((i.port, start) :: windows) [] produced result
  | .workReturns _ => d.output = [] ∨ g.tagPropagationPolicy ≠ .allToAll
  | _ => False

theorem windowOk_idle (none : w.openFrom i = none) (closed : (w'.phase i.block).Closed)
    (reads : w'.heap.itemsRead i.ptr = w.heap.itemsRead i.ptr) :
    w'.WindowOk i ∧ w'.mark i = w.mark i := by
  refine ⟨windowOk_closed closed, ?_⟩
  rw [mark, mark, openFrom_closed closed, none]
  exact reads

theorem lookup_zipIdx (start : List Nat) (port : Nat) :
    (start.zipIdx.map fun (first, which) => (which, first)).lookup port = start[port]? := by
  have from_ : ∀ (l : List Nat) (m : Nat), m ≤ port →
      ((l.zipIdx m).map fun (first, which) => (which, first)).lookup port = l[port - m]? := by
    intro l
    induction l with
    | nil => simp
    | cons x l ih =>
      intro m low
      rw [List.zipIdx_cons, List.map_cons, List.lookup_cons]
      by_cases here : port = m
      · simp [here]
      · have other : (port == m) = false := beq_false_of_ne here
        rw [other]
        dsimp only
        rw [ih (m + 1) (by omega), show port - m = (port - (m + 1)) + 1 by omega,
          List.getElem?_cons_succ]
  simpa using from_ start 0 (Nat.zero_le _)

theorem Moves.closed (moves : w.Moves c d g a w') (before : (w.phase c).Closed)
    (other : a ≠ .decide .callWork) : (w'.phase c).Closed := by
  cases moves with
  | handleMessage | askSpace | handlePending => exact before
  | noMessage | clear | produce | ready | markDone =>
    rw [goto_phase_self]
    trivial
  | @decide verdict =>
    rw [goto_phase_self]
    cases verdict with
    | callWork => exact absurd rfl other
    | blkdIn | blkdOut | wereDone => trivial
  | told =>
    rw [goto_phase_self]
    split <;> trivial
  | tell =>
    rw [setChanged]
    rcases notifyOne_phase (c := c) _ with same | ⟨on, notified, -, same⟩
    · rw [same, mapTpb_phase, goto_phase_self]
      trivial
    · rw [same]
      trivial
  | block | nonePending =>
    obtain ⟨phase, same, rfl | rfl | ⟨rfl, -⟩⟩ := testOuter_eq (w := w) (b := c) _
    all_goals
      rw [same, goto_phase_self]
      trivial
  | wake =>
    obtain ⟨phase, same, rfl | ⟨rfl, -⟩⟩ := testInner_eq (w := w) (b := c) _
    all_goals
      rw [same, goto_phase_self]
      trivial
  | settle _ settled =>
    obtain ⟨phase, rfl, rfl | ⟨n, rfl⟩ | ⟨left, rfl, -⟩ | ⟨-, left, rfl, -⟩⟩ := settle_ok settled
    all_goals
      rw [goto_phase_self]
      trivial
  | call here | workReturns here | addTag here | collect here =>
    rw [here] at before
    exact before.elim

theorem Moves.windows (detail : w.heap.detail c = some d) (moves : w.Moves c d g a w')
    (member : i ∈ w.heap.inlets c) (ok : w.WindowOk i)
    (reads : w'.heap.itemsRead i.ptr =
      w.heap.itemsRead i.ptr + w.consumes i.ptr (.thread c a : Action α τ μ)) :
    w'.WindowOk i ∧
      (w'.mark i = w.mark i ∨ w.Passes i d g a ∧ w'.mark i = w.heap.itemsRead i.ptr) := by
  obtain ⟨rfl, d', detail', held⟩ := Heap.mem_inlets.mp member
  obtain rfl := Option.some.inj (detail.symm.trans detail')
  have idle : w.openFrom i = none → (w'.phase i.block).Closed →
      w'.heap.itemsRead i.ptr = w.heap.itemsRead i.ptr → w'.WindowOk i ∧
      (w'.mark i = w.mark i ∨ w.Passes i d g a ∧ w'.mark i = w.heap.itemsRead i.ptr) := by
    intro none closed reads
    obtain ⟨ok', same⟩ := windowOk_idle none closed reads
    exact ⟨ok', Or.inl same⟩
  have closed : (w.phase i.block).Closed → w.openFrom i = none := openFrom_closed
  have after := moves.closed
  cases moves with
  | handleMessage here | noMessage here | clear here | askSpace here | produce here | ready here
  | markDone here | tell here | told here | block here | wake here | handlePending here
  | nonePending here =>
    have before : (w.phase i.block).Closed := by simp [here, Phase.Closed]
    exact idle (closed before) (after before (by simp)) reads
  | settle here settled =>
    obtain ⟨phase, rfl, rfl | ⟨n, rfl⟩ | ⟨left, rfl, -⟩ | ⟨-, left, rfl, -⟩⟩ := settle_ok settled
    all_goals exact idle (by simp [openFrom, here]) (by simp [Phase.Closed]) reads
  | @decide verdict here =>
    have before := closed (by simp [here, Phase.Closed])
    cases verdict with
    | blkdIn | blkdOut | wereDone =>
      exact idle before (after (by simp [here, Phase.Closed]) (by simp)) reads
    | callWork =>
      have port : i.port < (w.heap.nitemsRead d).length := by
        rw [Heap.nitemsRead, List.length_map]
        exact (List.getElem?_eq_some_iff.mp held).1
      have first : (w.heap.nitemsRead d)[i.port]? = some (w.heap.itemsRead i.ptr) := by
        rw [← Heap.nitemsReadAt_eq held, Heap.nitemsReadAt, List.getD_eq_getElem?_getD,
          List.getElem?_eq_getElem port, Option.getD_some]
      have working := goto_phase_self (w := w) (b := i.block)
        (.working (w.heap.nitemsRead d) false)
      refine ⟨windowOk_working working port ?_, Or.inl ?_⟩
      · intro start found
        rw [first] at found
        exact (Option.some.inj found).symm.le
      · rw [mark, mark, before]
        dsimp only [Verdict.phase]
        rw [openFrom_working working, first]
        rfl
  | @call start produced more call heap here called =>
    have inside := ok.opened start produced here
    have working := goto_phase_self (w := { w with heap := heap }) (b := i.block)
      (.working start (produced || more))
    refine ⟨windowOk_working working inside ?_, Or.inl ?_⟩
    · intro first found
      rw [reads]
      exact (ok.read first ((openFrom_working here).trans found)).trans (Nat.le_add_right _ _)
    · rw [mark, mark, openFrom_working here, openFrom_working working,
        List.getElem?_eq_getElem inside]
      rfl
  | @workReturns start produced result here =>
    have inside := ok.opened start produced here
    unfold World.workReturns
    split
    · rename_i without
      have propagating := goto_phase_self (w := w) (b := i.block)
        (.propagating [] [] produced result)
      refine ⟨windowOk_propagating propagating List.nodup_nil (by simp), Or.inr ⟨?_, ?_⟩⟩
      · exact without.imp_right fun dont => by simp [dont]
      · rw [mark, openFrom_propagating propagating]
        rfl
    split
    · rename_i mismatch
      have done : ((w.goto i.block .wereDone).phase i.block).Closed := by simp [Phase.Closed]
      refine ⟨windowOk_closed done, Or.inr ⟨Or.inr (by simp [mismatch.1]), ?_⟩⟩
      rw [mark, openFrom_closed done]
      rfl
    · have propagating := goto_phase_self (w := w) (b := i.block)
        (.propagating (start.zipIdx.map fun (first, which) => (which, first)) [] produced result)
      refine ⟨windowOk_propagating propagating ?_ ?_, Or.inl ?_⟩
      · rw [List.map_map]
        change (start.zipIdx.map Prod.snd).Nodup
        rw [List.zipIdx_map_snd]
        exact List.nodup_range'
      · intro first found
        rw [lookup_zipIdx] at found
        exact ok.read first ((openFrom_working here).trans found)
      · dsimp only
        rw [mark, mark, openFrom_working here, openFrom_propagating propagating, lookup_zipIdx,
          List.getElem?_eq_getElem inside]
        rfl
  | @addTag windows target t pending produced result here =>
    have propagating := goto_phase_self
      (w := { w with heap := w.heap.mapBuffer target fun buffer => buffer.addItemTag t })
      (b := i.block) (.propagating windows pending produced result)
    refine ⟨windowOk_propagating propagating (ok.once _ _ _ _ here) ?_, Or.inl ?_⟩
    · intro first found
      rw [reads]
      exact (ok.read first ((openFrom_propagating here).trans found)).trans (Nat.le_add_right _ _)
    · rw [mark, mark, openFrom_propagating here, openFrom_propagating propagating, reads]
      rfl
  | @collect windows which start produced result here =>
    obtain ⟨ok', marked⟩ := mark_collect here ok (w.heap.pendingTags g d which start)
    refine ⟨ok', ?_⟩
    by_cases same : i.port = which
    · subst same
      rw [if_pos rfl] at marked
      exact Or.inr ⟨⟨start, windows, produced, result, here⟩, marked⟩
    · rw [if_neg same] at marked
      exact Or.inl marked

theorem phase_other {e : Action α τ μ} (moves : TpbMoves env w e w') (other : e.owner ≠ some c) :
    w'.phase c = w.phase c ∨ (w.phase c).Closed ∧ (w'.phase c).Closed := by
  by_cases asleep : ∃ on notified, w.phase c = .asleep on notified
  · obtain ⟨on, notified, sleeps⟩ := asleep
    refine Or.inr ⟨by simp [sleeps, Phase.Closed], ?_⟩
    cases moves with
    | thread _ _ moves =>
      rcases moves.phase_other (fun same => other (congrArg some same.symm)) with
        same | ⟨_, _, -, same⟩
      · rw [same, sleeps]
        trivial
      · rw [same]
        trivial
    | post b msg =>
      rw [post]
      rcases notifyOne_phase (c := c) .output with same | ⟨_, _, -, same⟩
      · rw [same]
        rcases notifyOne_phase (c := c) .input with same | ⟨_, _, -, same⟩
        · rw [same, mapTpb_phase, sleeps]
          trivial
        · rw [same]
          trivial
      · rw [same]
        trivial
    | @spuriousWake b on _ here =>
      obtain ⟨phase, same, which⟩ := testInner_eq (w := w) (b := b) on
      rw [same]
      by_cases self : c = b
      · rw [self, goto_phase_self]
        rcases which with rfl | ⟨rfl, -⟩
        · trivial
        · trivial
      · rw [goto_phase_of_ne _ self, sleeps]
        trivial
  · exact Or.inl (phase_awake moves other fun on notified sleeps => asleep ⟨on, notified, sleeps⟩)

theorem windows_other {e : Action α τ μ} (moves : TpbMoves env w e w')
    (other : e.owner ≠ some i.block) (ok : w.WindowOk i)
    (reads : w'.heap.itemsRead i.ptr = w.heap.itemsRead i.ptr) :
    w'.WindowOk i ∧ w'.mark i = w.mark i := by
  rcases phase_other moves other with same | ⟨before, after⟩
  · have opened : w'.openFrom i = w.openFrom i := by rw [openFrom, openFrom, same]
    refine ⟨⟨?_, ?_, ?_⟩, ?_⟩
    · rw [same]
      exact ok.opened
    · rw [same]
      exact ok.once
    · rw [opened, reads]
      exact ok.read
    · rw [mark, mark, opened, reads]
  · exact windowOk_idle (openFrom_closed before) after reads

end World

end GnuRadio
