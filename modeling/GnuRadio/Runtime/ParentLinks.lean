import GnuRadio.Misc.Trace
import GnuRadio.Runtime.Flatten

/-!
# Parent links of hierarchical blocks

`connect` sets the parent of both ends of an edge, `disconnect` clears it for
both. The link of a child is right as long as the child belongs to one detail at
a time and is only disconnected when nothing else in the detail refers to it;
then `lock` finds its way up to the top block.
-/

namespace GnuRadio

variable {env : Blocks} {h h' : Hierarchy}

/-- The tables of a detail without one edge, as `disconnect` leaves them. -/
def HierDetail.without (owner : BlockId) (d : HierDetail) (e : Edge) : HierDetail :=
  if e.src.block = owner then
    let endps := (d.inputs.getD e.src.port.toNat []).erase e.dst
    { d with inputs := d.inputs.set e.src.port.toNat endps }
  else if e.dst.block = owner then { d with outputs := d.outputs.set e.dst.port.toNat none }
  else { d with fg := { d.fg with edges := d.fg.edges.erase e } }

/-- The blocks at the ends of some edges. -/
def endBlocks (edges : List Edge) : List BlockId := edges.flatMap fun e => [e.src.block, e.dst.block]

variable {d : HierDetail} {c : BlockId} {i : Nat} {endp : Endpoint}

theorem HierDetail.mem_members : c ∈ d.members ↔
    c ∈ endBlocks d.fg.edges ∨ c ∈ d.blocks ∨
      (∃ endps ∈ d.inputs, ∃ endp ∈ endps, endp.block = c) ∨
      ∃ endp, some endp ∈ d.outputs ∧ endp.block = c := by
  unfold HierDetail.members Flowgraph.calcUsedBlocks endBlocks
  simp only [List.mem_append, mem_uniqueVector, List.mem_flatMap, List.mem_map,
    exists_exists_and_eq_and, Option.mem_toList, or_assoc]
  refine or_congr_right (or_congr_right (or_congr_right ?_))
  constructor
  · rintro ⟨_, member, endp, rfl, same⟩
    exact ⟨endp, member, same⟩
  · rintro ⟨endp, member, same⟩
    exact ⟨_, member, endp, rfl, same⟩

theorem HierDetail.mem_members_of_input (member : endp ∈ d.inputs.getD i []) :
    endp.block ∈ d.members := by
  have target : endp ∈ d.targets true i := by
    rw [HierDetail.targets, if_neg (by omega), if_pos rfl]
    exact member
  exact Hierarchy.mem_members_of_target target

theorem HierDetail.mem_members_of_output (there : d.outputs.getD i none = some endp) :
    endp.block ∈ d.members := by
  have target : endp ∈ d.targets false i := by
    rw [HierDetail.targets, if_neg (by omega), if_neg (by decide)]
    exact Option.mem_toList.mpr there
  exact Hierarchy.mem_members_of_target target

theorem HierDetail.members_setInput {endps : List Endpoint}
    (member : c ∈ HierDetail.members { d with inputs := d.inputs.set i endps }) :
    c ∈ d.members ∨ ∃ endp ∈ endps, endp.block = c := by
  simp only [mem_members] at member ⊢
  rcases member with edge | single | ⟨l, there, inside⟩ | output
  · exact Or.inl (Or.inl edge)
  · exact Or.inl (Or.inr (Or.inl single))
  · rcases List.mem_or_eq_of_mem_set there with old | rfl
    · exact Or.inl (Or.inr (Or.inr (Or.inl ⟨l, old, inside⟩)))
    · exact Or.inr inside
  · exact Or.inl (Or.inr (Or.inr (Or.inr output)))

theorem HierDetail.members_setOutput {port : Option Endpoint}
    (member : c ∈ HierDetail.members { d with outputs := d.outputs.set i port }) :
    c ∈ d.members ∨ ∃ endp, port = some endp ∧ endp.block = c := by
  simp only [mem_members] at member ⊢
  rcases member with edge | single | input | ⟨endp, there, same⟩
  · exact Or.inl (Or.inl edge)
  · exact Or.inl (Or.inr (Or.inl single))
  · exact Or.inl (Or.inr (Or.inr (Or.inl input)))
  · rcases List.mem_or_eq_of_mem_set there with old | set
    · exact Or.inl (Or.inr (Or.inr (Or.inr ⟨endp, old, same⟩)))
    · exact Or.inr ⟨endp, set.symm, same⟩

theorem HierDetail.members_of {fg : Flowgraph} {blocks : List BlockId}
    (member : c ∈ HierDetail.members { d with fg := fg, blocks := blocks }) :
    c ∈ d.members ∨ c ∈ endBlocks fg.edges ∨ c ∈ blocks := by
  simp only [mem_members] at member ⊢
  rcases member with edge | single | port
  · exact Or.inr (Or.inl edge)
  · exact Or.inr (Or.inr single)
  · exact Or.inl (Or.inr (Or.inr port))

theorem mem_endBlocks {edges : List Edge} :
    c ∈ endBlocks edges ↔ ∃ e ∈ edges, c = e.src.block ∨ c = e.dst.block := by
  simp [endBlocks]

theorem HierDetail.without_members {owner : BlockId} {e : Edge}
    (member : c ∈ (d.without owner e).members) : c ∈ d.members := by
  unfold HierDetail.without at member
  split at member
  · rcases members_setInput member with old | ⟨endp, inside, rfl⟩
    · exact old
    · exact mem_members_of_input (List.mem_of_mem_erase inside)
  split at member
  · rcases members_setOutput member with old | ⟨_, none, -⟩
    · exact old
    · cases none
  · rcases members_of member with old | edge | single
    · exact old
    · obtain ⟨e', there, ends⟩ := mem_endBlocks.mp edge
      exact mem_members.mpr (Or.inl (mem_endBlocks.mpr ⟨e', List.mem_of_mem_erase there, ends⟩))
    · exact mem_members.mpr (Or.inr (Or.inl single))

namespace Hierarchy

/-- The calls that change the connections of a hierarchical block. -/
inductive Call where
  | connectBlock (owner block : BlockId)
  | connect (owner : BlockId) (src dst : Endpoint)
  | disconnectBlock (owner block : BlockId)
  | disconnect (owner : BlockId) (src dst : Endpoint)
  deriving DecidableEq, Repr

/-- The function that a call runs. -/
def Call.program (env : Blocks) : Call → HierProgram Unit
  | .connectBlock owner block => Hierarchy.connectBlock env owner block
  | .connect owner src dst => Hierarchy.connect env owner src dst
  | .disconnectBlock owner block => Hierarchy.disconnectBlock env owner block
  | .disconnect owner src dst => Hierarchy.disconnect env owner src dst

/-- The tables after a call, if it returns. -/
def call (env : Blocks) (h : Hierarchy) (c : Call) : Option Hierarchy :=
  match (c.program env).exec h with
  | (.ok _, h') => some h'
  | (.error _, _) => none

theorem call_some {c : Call} : call env h c = some h' ↔ (c.program env).Returns h () h' := by
  unfold call Program.Returns
  rcases (c.program env).exec h with ⟨e | u, t⟩
  · simp
  · simp

/-- No hierarchical block is connected to anything. -/
def Fresh (env : Blocks) (h : Hierarchy) : Prop :=
  ∀ b d, h b = some d → HierDetail.make env b d.topBlock = .ok d

/-- A hierarchical block may become a child of `owner`: it is no top block, and no other
detail refers to it. -/
def Adoptable (h : Hierarchy) (owner c : BlockId) : Prop :=
  c ≠ owner → ∀ dc, h c = some dc → dc.topBlock = false ∧
    ∀ b d, h b = some d → b ≠ owner → b ≠ c → c ∉ d.members

/-- None of the hierarchical blocks in `cleared` is referred to by the tables that are left. -/
def Released (h : Hierarchy) (owner : BlockId) (cleared : List BlockId) (left : HierDetail) : Prop :=
  ∀ c ∈ cleared, c ≠ owner → (h c).isSome = true → c ∉ left.members

/-- A child belongs to one detail at a time, and is disconnected only when nothing else in the
detail refers to it. -/
def Orderly (h : Hierarchy) : Call → Prop
  | .connectBlock owner block => Adoptable h owner block
  | .connect owner src dst => Adoptable h owner src.block ∧ Adoptable h owner dst.block
  | .disconnect owner src dst => ∀ d, h owner = some d →
      Released h owner (endBlocks [⟨src, dst⟩]) (d.without owner ⟨src, dst⟩)
  | .disconnectBlock owner block => ∀ d, h owner = some d →
      if block ∈ d.blocks then
        Released h owner [block] { d with blocks := d.blocks.erase block }
      else
        let edges := d.fg.edges.filter fun e => e.src.block = block ∨ e.dst.block = block
        Released h owner (endBlocks edges) (edges.foldl (HierDetail.without owner) d)

/-! ## What the calls do -/

/-- The hierarchy with the parents of some blocks other than `owner` set. -/
def relink (h : Hierarchy) (owner : BlockId) (parent : Option BlockId) (touched : List BlockId) :
    Hierarchy := fun b =>
  if b ∈ touched ∧ b ≠ owner then (h b).map fun d => { d with parent := parent } else h b

variable {owner b block c top : BlockId} {d left db' : HierDetail} {parent : Option BlockId}
  {touched one two : List BlockId} {endp src dst : Endpoint}

theorem returns_getDetail : (getDetail b).Returns h d h' ↔ h b = some d ∧ h = h' := by
  unfold getDetail
  rw [Program.returns_bind]
  constructor
  · rintro ⟨s, t, got, rest⟩
    obtain ⟨rfl, rfl⟩ := (Program.Returns.get h).unique got
    cases detail : h b with
    | none => rw [detail] at rest; exact absurd rest Program.not_returns_throw
    | some d' =>
      rw [detail] at rest
      obtain ⟨rfl, rfl⟩ := Program.returns_pure.mp rest
      exact ⟨rfl, rfl⟩
  · rintro ⟨detail, rfl⟩
    refine ⟨h, h, Program.Returns.get h, ?_⟩
    rw [detail]
    exact Program.Returns.pure d h

theorem returns_withDetail {α : Type} {f : HierDetail → HierProgram α} {a : α} :
    (getDetail b >>= f).Returns h a h' ↔ ∃ d, h b = some d ∧ (f d).Returns h a h' := by
  simp only [Program.returns_bind, returns_getDetail, and_assoc, exists_and_left, exists_eq_left']

theorem returns_setDetail :
    (setDetail b d).Returns h () h' ↔ h' = Function.update h b (some d) := by
  constructor
  · intro returned
    exact ((Program.Returns.change _ h).unique returned).2.symm
  · rintro rfl
    exact Program.Returns.change _ h

theorem returns_setParent :
    (setParent owner parent block).Returns h () h' ↔ h' = relink h owner parent [block] := by
  have effect : (setParent owner parent block).Returns h () (relink h owner parent [block]) := by
    refine (Program.Returns.get h).bind ?_
    cases detail : h block with
    | none =>
      have same : relink h owner parent [block] = h := by
        funext b
        unfold relink
        split
        · rename_i touched
          rw [List.mem_singleton.mp touched.1, detail, Option.map_none]
        · rfl
      rw [same]
      exact Program.Returns.pure () h
    | some d =>
      dsimp only
      split
      · rename_i itself
        have same : relink h owner parent [block] = h := by
          funext b
          unfold relink
          rw [if_neg]
          rintro ⟨touched, other⟩
          exact other ((List.mem_singleton.mp touched).trans itself)
        rw [same]
        exact Program.Returns.pure () h
      · rename_i other
        refine returns_setDetail.mpr ?_
        funext b
        unfold relink
        by_cases touched : b = block
        · subst touched
          rw [if_pos ⟨List.mem_singleton_self _, other⟩, Function.update_self, detail,
            Option.map_some]
        · rw [if_neg fun both => touched (List.mem_singleton.mp both.1),
            Function.update_of_ne touched]
  constructor
  · exact fun returned => (returned.unique effect).2
  · rintro rfl
    exact effect

theorem returns_withParent {α : Type} {f : Unit → HierProgram α} {a : α} :
    (setParent owner parent block >>= f).Returns h a h' ↔
      (f ()).Returns (relink h owner parent [block]) a h' := by
  refine ⟨fun returned => ?_, (returns_setParent.mpr rfl).bind⟩
  obtain ⟨_, t, linked, rest⟩ := Program.returns_bind.mp returned
  obtain rfl := returns_setParent.mp linked
  exact rest

theorem relink_owner : relink h owner parent touched owner = h owner :=
  if_neg fun both => both.2 rfl

theorem relink_nil : relink h owner parent [] = h := by
  funext b
  exact if_neg fun both => absurd both.1 List.not_mem_nil

theorem relink_update {d d' : Option HierDetail} :
    Function.update (relink (Function.update (relink h owner parent one) owner d) owner parent two)
      owner d' = Function.update (relink h owner parent (one ++ two)) owner d' := by
  funext b
  by_cases itself : b = owner
  · rw [itself, Function.update_self, Function.update_self]
  · rw [Function.update_of_ne itself, Function.update_of_ne itself]
    unfold relink
    rw [Function.update_of_ne itself]
    simp only [List.mem_append, ne_eq, itself, not_false_iff, and_true]
    by_cases first : b ∈ one
    · cases h b <;> simp [first]
    · simp [first]

/-- A call changes the tables of its owner from those of `d` to those of `left`, and the parents
of the blocks in `touched`. -/
structure Changes (h h' : Hierarchy) (owner : BlockId) (parent : Option BlockId)
    (touched : List BlockId) (d left : HierDetail) : Prop where
  detail : h owner = some d
  after : h' = Function.update (relink h owner parent touched) owner (some left)
  parent : left.parent = d.parent
  topBlock : left.topBlock = d.topBlock

theorem Changes.tables (detail : h owner = some d)
    (stored : (setDetail owner left).Returns h () h') (same : left.parent = d.parent)
    (sameKind : left.topBlock = d.topBlock) : Changes h h' owner parent [] d left :=
  ⟨detail, by rw [relink_nil]; exact returns_setDetail.mp stored, same, sameKind⟩

theorem Changes.relinked (rest : Changes (relink h owner parent one) h' owner parent two d left) :
    Changes h h' owner parent (one ++ two) d left := by
  have detail : h owner = some d := relink_owner.symm.trans rest.detail
  refine ⟨detail, ?_, rest.parent, rest.topBlock⟩
  have same : relink h owner parent one =
      Function.update (relink h owner parent one) owner (some d) := by
    rw [← rest.detail, Function.update_eq_self]
  rw [rest.after, same, relink_update]

theorem Changes.trans {h₀ : Hierarchy} {middle : HierDetail}
    (first : Changes h₀ h owner parent one d middle)
    (second : Changes h h' owner parent two middle left) :
    Changes h₀ h' owner parent (one ++ two) d left := by
  refine ⟨first.detail, ?_, second.parent.trans first.parent,
    second.topBlock.trans first.topBlock⟩
  rw [second.after, first.after, relink_update]

theorem changes_connectBlock (returned : (connectBlock env owner block).Returns h () h') :
    ∃ d, Changes h h' owner (some owner) [block] d { d with blocks := d.blocks ++ [block] } ∧
      block ∉ d.blocks ∧ (env block).inputSignature.maxStreams = 0 ∧
        (env block).outputSignature.maxStreams = 0 := by
  obtain ⟨d, detail, returned⟩ := returns_withDetail.mp returned
  obtain ⟨new, returned⟩ := Program.returns_ite_throw.mp returned
  obtain ⟨portless, returned⟩ := Program.returns_ite_throw.mp returned
  replace returned := returns_withParent.mp returned
  obtain ⟨d', detail', returned⟩ := returns_withDetail.mp returned
  rw [relink_owner, detail] at detail'
  obtain rfl := Option.some.inj detail'
  refine ⟨d, (Changes.tables (relink_owner.trans detail) returned rfl rfl).relinked, new, ?_⟩
  rw [not_or, not_not, not_not] at portless
  exact portless

theorem HierDetail.members_concat
    (member : c ∈ HierDetail.members { d with blocks := d.blocks ++ [block] }) :
    c = block ∨ c ∈ d.members := by
  rcases HierDetail.members_of member with old | edge | single
  · exact Or.inr old
  · exact Or.inr (HierDetail.mem_members.mpr (Or.inl edge))
  · rcases List.mem_append.mp single with old | new
    · exact Or.inr (HierDetail.mem_members.mpr (Or.inr (Or.inl old)))
    · exact Or.inl (List.mem_singleton.mp new)

theorem changes_connectInput {port : Int}
    (returned : (connectInput env owner port endp).Returns h () h') :
    ∃ d left, Changes h h' owner parent [] d left ∧ left.fg = d.fg ∧ left.blocks = d.blocks ∧
      ∀ c ∈ left.members, c = endp.block ∨ c ∈ d.members := by
  obtain ⟨d, detail, returned⟩ := returns_withDetail.mp returned
  split at returned
  · exact absurd returned Program.not_returns_throw
  dsimp only at returned
  split at returned
  · exact absurd returned Program.not_returns_throw
  refine ⟨d, _, Changes.tables detail returned rfl rfl, rfl, rfl, ?_⟩
  intro c member
  rcases HierDetail.members_setInput member with old | ⟨x, inside, rfl⟩
  · exact Or.inr old
  · rcases List.mem_append.mp inside with old | new
    · exact Or.inr (HierDetail.mem_members_of_input old)
    · exact Or.inl (by rw [List.mem_singleton.mp new])

theorem changes_connectOutput {port : Int}
    (returned : (connectOutput env owner port endp).Returns h () h') :
    ∃ d left, Changes h h' owner parent [] d left ∧ left.fg = d.fg ∧ left.blocks = d.blocks ∧
      ∀ c ∈ left.members, c = endp.block ∨ c ∈ d.members := by
  obtain ⟨d, detail, returned⟩ := returns_withDetail.mp returned
  split at returned
  · exact absurd returned Program.not_returns_throw
  split at returned
  · exact absurd returned Program.not_returns_throw
  refine ⟨d, _, Changes.tables detail returned rfl rfl, rfl, rfl, ?_⟩
  intro c member
  rcases HierDetail.members_setOutput member with old | ⟨x, same, rfl⟩
  · exact Or.inr old
  · exact Or.inl (by rw [Option.some.inj same])

theorem changes_connect (returned : (connect env owner src dst).Returns h () h') :
    ∃ d left, Changes h h' owner (some owner) [src.block, dst.block] d left ∧
      left.blocks = d.blocks ∧
      (left.fg = d.fg ∨ src.block ≠ owner ∧ dst.block ≠ owner ∧ src.block ≠ dst.block ∧
        connectEdge env d.fg ⟨src, dst⟩ = .ok left.fg) ∧
      ∀ c ∈ left.members, c ∈ [src.block, dst.block] ∨ c ∈ d.members := by
  unfold connect at returned
  obtain ⟨different, returned⟩ := Program.returns_ite_throw.mp returned
  replace returned := returns_withParent.mp returned
  replace returned := returns_withParent.mp returned
  unfold connectTables at returned
  split at returned
  · split at returned
    · exact absurd returned Program.not_returns_throw
    obtain ⟨d, left, changes, fg, blocks, grown⟩ := changes_connectInput returned
    refine ⟨d, left, changes.relinked.relinked, blocks, .inl fg, ?_⟩
    intro c member
    rcases grown c member with rfl | old
    · exact Or.inl (by simp)
    · exact Or.inr old
  rename_i notSrc
  split at returned
  · split at returned
    · exact absurd returned Program.not_returns_throw
    obtain ⟨d, left, changes, fg, blocks, grown⟩ := changes_connectOutput returned
    refine ⟨d, left, changes.relinked.relinked, blocks, .inl fg, ?_⟩
    intro c member
    rcases grown c member with rfl | old
    · exact Or.inl (by simp)
    · exact Or.inr old
  · rename_i notDst
    obtain ⟨d, detail, returned⟩ := returns_withDetail.mp returned
    obtain ⟨fg, v, connected, returned⟩ := Program.returns_bind.mp returned
    obtain ⟨accepted, rfl⟩ := Program.returns_ofExcept.mp connected
    refine ⟨d, _, (Changes.tables detail returned rfl rfl).relinked.relinked, rfl,
      .inr ⟨notSrc, notDst, different, accepted⟩, ?_⟩
    obtain ⟨-, -, -, rfl⟩ := Flowgraph.connect_ok accepted
    intro c member
    rcases HierDetail.members_of member with old | edge | single
    · exact Or.inr old
    · obtain ⟨e, there, ends⟩ := mem_endBlocks.mp edge
      rcases List.mem_append.mp there with old | new
      · exact Or.inr (HierDetail.mem_members.mpr (Or.inl (mem_endBlocks.mpr ⟨e, old, ends⟩)))
      · obtain rfl := List.mem_singleton.mp new
        exact Or.inl (by simpa using ends)
    · exact Or.inr (HierDetail.mem_members.mpr (Or.inr (Or.inl single)))

theorem changes_disconnect (returned : (disconnect env owner src dst).Returns h () h') :
    ∃ d, Changes h h' owner none [src.block, dst.block] d (d.without owner ⟨src, dst⟩) ∧
      ∀ c ∈ [src.block, dst.block], c ≠ owner → c ∈ d.members := by
  unfold disconnect at returned
  split at returned
  · exact absurd returned Program.not_returns_throw
  replace returned := returns_withParent.mp returned
  replace returned := returns_withParent.mp returned
  unfold disconnectTables at returned
  unfold HierDetail.without
  split at returned
  · rename_i own
    obtain ⟨d, detail, returned⟩ := returns_withDetail.mp returned
    split at returned
    · exact absurd returned Program.not_returns_throw
    dsimp only at returned
    split at returned
    · rename_i wired
      refine ⟨d, ?_, ?_⟩
      · rw [if_pos own]
        exact (Changes.tables detail returned rfl rfl).relinked.relinked
      · intro c member other
        rcases List.mem_pair.mp member with rfl | rfl
        · exact absurd own other
        · exact HierDetail.mem_members_of_input wired
    · exact absurd returned Program.not_returns_throw
  rename_i notSrc
  split at returned
  · rename_i own
    obtain ⟨d, detail, returned⟩ := returns_withDetail.mp returned
    split at returned
    · exact absurd returned Program.not_returns_throw
    split at returned
    · exact absurd returned Program.not_returns_throw
    · rename_i assigned
      obtain ⟨endp, there, same⟩ := Option.map_eq_some_iff.mp (not_not.mp assigned)
      refine ⟨d, ?_, ?_⟩
      · rw [if_neg notSrc, if_pos own]
        exact (Changes.tables detail returned rfl rfl).relinked.relinked
      · intro c member other
        rcases List.mem_pair.mp member with rfl | rfl
        · exact same ▸ HierDetail.mem_members_of_output there
        · exact absurd own other
  · rename_i notDst
    obtain ⟨d, detail, returned⟩ := returns_withDetail.mp returned
    obtain ⟨fg, v, disconnected, returned⟩ := Program.returns_bind.mp returned
    obtain ⟨accepted, rfl⟩ := Program.returns_ofExcept.mp disconnected
    unfold Flowgraph.disconnect at accepted
    split at accepted
    · rename_i present
      obtain rfl := Except.ok.inj accepted
      refine ⟨d, ?_, ?_⟩
      · rw [if_neg notSrc, if_neg notDst]
        exact (Changes.tables detail returned rfl rfl).relinked.relinked
      · intro c member _
        exact HierDetail.mem_members.mpr (Or.inl (mem_endBlocks.mpr
          ⟨_, present, List.mem_pair.mp member⟩))
    · cases accepted

theorem changes_disconnects {edges : List Edge} (detail : h owner = some d)
    (returned : Program.Returns (edges.forM fun e => disconnect env owner e.src e.dst) h () h') :
    Changes h h' owner none (endBlocks edges) d (edges.foldl (HierDetail.without owner) d) ∧
      (∀ c ∈ endBlocks edges, c ≠ owner → c ∈ d.members) ∧
      ∀ c ∈ (edges.foldl (HierDetail.without owner) d).members, c ∈ d.members := by
  induction edges generalizing h d with
  | nil =>
    obtain ⟨-, rfl⟩ := Program.returns_pure.mp returned
    refine ⟨⟨detail, ?_, rfl, rfl⟩, fun c member => absurd member List.not_mem_nil,
      fun c member => member⟩
    rw [endBlocks, List.flatMap_nil, relink_nil, List.foldl_nil, ← detail, Function.update_eq_self]
  | cons e edges ih =>
    obtain ⟨_, s, one, rest⟩ := Program.returns_bind.mp returned
    obtain ⟨d', changes, ends⟩ := changes_disconnect one
    obtain rfl := Option.some.inj (detail.symm.trans changes.detail)
    have detail' : s owner = some (d.without owner e) := by
      rw [changes.after, Function.update_self]
    obtain ⟨restChanges, restEnds, shrunk⟩ := ih detail' rest
    refine ⟨changes.trans restChanges, ?_, ?_⟩
    · intro c member other
      rcases List.mem_append.mp (show c ∈ [e.src.block, e.dst.block] ++ endBlocks edges from member)
        with here | later
      · exact ends c here other
      · exact HierDetail.without_members (restEnds c later other)
    · exact fun c member => HierDetail.without_members (shrunk c member)

theorem changes_clearSingleton {s : Hierarchy} (detail : h owner = some d)
    (stored : (setDetail owner left).Returns h () s)
    (cleared : (clearSingleton owner block).Returns s () h') (same : left.parent = d.parent)
    (sameKind : left.topBlock = d.topBlock) : Changes h h' owner none [block] d left := by
  refine ⟨detail, ?_, same, sameKind⟩
  obtain rfl := returns_setDetail.mp stored
  unfold clearSingleton at cleared
  funext b
  split at cleared
  · rename_i itself
    obtain ⟨-, rfl⟩ := Program.returns_pure.mp cleared
    by_cases own : b = owner
    · rw [own, Function.update_self, Function.update_self]
    · rw [Function.update_of_ne own, Function.update_of_ne own, relink, if_neg]
      exact fun both => own ((List.mem_singleton.mp both.1).trans itself)
  · rename_i other
    obtain ⟨db, child, rest⟩ := returns_withDetail.mp cleared
    obtain rfl := returns_setDetail.mp rest
    rw [Function.update_of_ne other] at child
    by_cases own : b = owner
    · subst own
      rw [Function.update_of_ne (Ne.symm other), Function.update_self, Function.update_self]
    · rw [Function.update_of_ne (a := b) own]
      by_cases itself : b = block
      · subst itself
        rw [Function.update_self, relink, if_pos ⟨List.mem_singleton_self _, own⟩, child,
          Option.map_some]
      · rw [Function.update_of_ne itself, Function.update_of_ne own, relink, if_neg]
        exact fun both => itself (List.mem_singleton.mp both.1)

/-! ## What stays true -/

/-- Every hierarchical block a detail refers to has that detail for its parent. -/
def LinksRight (h : Hierarchy) : Prop :=
  ∀ b d c dc, h b = some d → c ∈ d.members → c ≠ b → h c = some dc → dc.parent = some b

def TopsFree (h : Hierarchy) : Prop := ∀ b d, h b = some d → d.topBlock = true → d.parent = none

/-- The parent of another block was set if it was touched, and nothing else of it changed. -/
theorem Changes.other (changes : Changes h h' owner parent touched d left)
    (other : b ≠ owner) (after : h' b = some db') :
    ∃ db, h b = some db ∧
      db' = if b ∈ touched then { db with parent := parent } else db := by
  rw [changes.after, Function.update_of_ne other, relink] at after
  by_cases inside : b ∈ touched
  · rw [if_pos ⟨inside, other⟩] at after
    obtain ⟨db, before, same⟩ := Option.map_eq_some_iff.mp after
    exact ⟨db, before, by rw [if_pos inside, same]⟩
  · rw [if_neg fun both => inside both.1] at after
    exact ⟨db', after, by rw [if_neg inside]⟩

theorem Changes.own (changes : Changes h h' owner parent touched d left) :
    h' owner = some left := by
  rw [changes.after, Function.update_self]

theorem Changes.members (changes : Changes h h' owner parent touched d left)
    (other : b ≠ owner) (after : h' b = some db') :
    ∃ db, h b = some db ∧ db'.members = db.members ∧ db'.topBlock = db.topBlock := by
  obtain ⟨db, before, rfl⟩ := changes.other other after
  refine ⟨db, before, ?_⟩
  split
  · exact ⟨rfl, rfl⟩
  · exact ⟨rfl, rfl⟩

/-- The links stay right when those of the blocks the owner refers to do, and no other detail refers
to a block whose parent is set. -/
theorem linksRight_changes (right : LinksRight h)
    (changes : Changes h h' owner parent touched d left)
    (owned : ∀ c ∈ left.members, c ≠ owner → ∀ dc, h c = some dc →
      if c ∈ touched then parent = some owner else c ∈ d.members)
    (others : ∀ c ∈ touched, c ≠ owner → ∀ dc, h c = some dc → ∀ b db, h b = some db →
      b ≠ owner → b ≠ c → c ∉ db.members) : LinksRight h' := by
  intro b db' c dc' after member different child
  by_cases own : c = owner
  · subst own
    obtain rfl := Option.some.inj (changes.own.symm.trans child)
    obtain ⟨db, before, same, -⟩ := changes.members (Ne.symm different) after
    rw [changes.parent]
    exact right b db c d before (same ▸ member) different changes.detail
  obtain ⟨dc, childBefore, rfl⟩ := changes.other own child
  by_cases ofOwner : b = owner
  · subst ofOwner
    obtain rfl := Option.some.inj (changes.own.symm.trans after)
    have link := owned c member own dc childBefore
    by_cases inside : c ∈ touched
    · rw [if_pos inside] at link ⊢
      exact link
    · rw [if_neg inside] at link ⊢
      exact right b d c dc changes.detail link different childBefore
  · obtain ⟨db, before, same, -⟩ := changes.members ofOwner after
    rw [same] at member
    rw [if_neg fun inside =>
      others c inside own dc childBefore b db before ofOwner (Ne.symm different) member]
    exact right b db c dc before member different childBefore

theorem topsFree_changes (free : TopsFree h)
    (changes : Changes h h' owner parent touched d left)
    (lower : ∀ c ∈ touched, c ≠ owner → ∀ dc, h c = some dc → dc.topBlock = true → parent = none) :
    TopsFree h' := by
  intro b db' after top
  by_cases own : b = owner
  · subst own
    obtain rfl := Option.some.inj (changes.own.symm.trans after)
    rw [changes.parent]
    exact free b d changes.detail (changes.topBlock.symm.trans top)
  · obtain ⟨db, before, rfl⟩ := changes.other own after
    by_cases inside : b ∈ touched
    · rw [if_pos inside] at top ⊢
      exact lower b inside own db before top
    · rw [if_neg inside] at top ⊢
      exact free b db before top

/-- The links are right, and top blocks have none. -/
structure WellLinked (h : Hierarchy) : Prop where
  right : LinksRight h
  free : TopsFree h

theorem wellLinked_attached (linked : WellLinked h)
    (changes : Changes h h' owner (some owner) touched d left)
    (grown : ∀ c ∈ left.members, c ∈ touched ∨ c ∈ d.members)
    (adoptable : ∀ c ∈ touched, Adoptable h owner c) : WellLinked h' := by
  refine ⟨linksRight_changes linked.right changes (fun c member _ _ _ => ?_)
    (fun c inside other dc child => (adoptable c inside other dc child).2),
    topsFree_changes linked.free changes ?_⟩
  · split
    · rfl
    · exact (grown c member).resolve_left ‹_›
  · intro c inside other dc child top
    rw [(adoptable c inside other dc child).1] at top
    cases top

theorem wellLinked_detached (linked : WellLinked h)
    (changes : Changes h h' owner none touched d left)
    (ends : ∀ c ∈ touched, c ≠ owner → c ∈ d.members) (shrunk : ∀ c ∈ left.members, c ∈ d.members)
    (released : Released h owner touched left) : WellLinked h' := by
  refine ⟨linksRight_changes linked.right changes (fun c member other dc child => ?_) ?_,
    topsFree_changes linked.free changes fun _ _ _ _ _ _ => rfl⟩
  · rw [if_neg fun inside => released c inside other (by rw [child]; rfl) member]
    exact shrunk c member
  · intro c inside other dc child b db before notOwner different member
    have here := linked.right b db c dc before member (Ne.symm different) child
    have there := linked.right owner d c dc changes.detail (ends c inside other) other child
    exact notOwner (Option.some.inj (here.symm.trans there))

theorem wellLinked_disconnectBlock (linked : WellLinked h)
    (orderly : Orderly h (.disconnectBlock owner block))
    (returned : (disconnectBlock env owner block).Returns h () h') : WellLinked h' := by
  obtain ⟨d, detail, returned⟩ := returns_withDetail.mp returned
  have released := orderly d detail
  split at returned
  · rename_i single
    rw [if_pos single] at released
    obtain ⟨_, t, stored, cleared⟩ := Program.returns_bind.mp returned
    refine wellLinked_detached linked (changes_clearSingleton detail stored cleared rfl rfl)
      ?_ ?_ released
    · intro c member _
      rw [List.mem_singleton.mp member]
      exact HierDetail.mem_members.mpr (Or.inr (Or.inl single))
    · intro c member
      rcases HierDetail.members_of member with old | edge | left
      · exact old
      · exact HierDetail.mem_members.mpr (Or.inl edge)
      · exact HierDetail.mem_members.mpr (Or.inr (Or.inl (List.mem_of_mem_erase left)))
  · rename_i notSingle
    rw [if_neg notSingle] at released
    dsimp only at returned
    split at returned
    · exact absurd returned Program.not_returns_throw
    · obtain ⟨changes, ends, shrunk⟩ := changes_disconnects detail returned
      exact wellLinked_detached linked changes ends shrunk released

theorem wellLinked_call {c : Call} (linked : WellLinked h) (orderly : Orderly h c)
    (called : call env h c = some h') : WellLinked h' := by
  have returned := call_some.mp called
  cases c with
  | connectBlock owner block =>
    obtain ⟨d, changes, -⟩ := changes_connectBlock returned
    refine wellLinked_attached linked changes ?_ ?_
    · exact fun c member => (HierDetail.members_concat member).imp_left List.mem_singleton.mpr
    · intro c member
      rw [List.mem_singleton.mp member]
      exact orderly
  | connect owner src dst =>
    obtain ⟨d, left, changes, -, -, grown⟩ := changes_connect returned
    refine wellLinked_attached linked changes grown ?_
    intro c member
    rcases List.mem_pair.mp member with rfl | rfl
    · exact orderly.1
    · exact orderly.2
  | disconnectBlock owner block => exact wellLinked_disconnectBlock linked orderly returned
  | disconnect owner src dst =>
    obtain ⟨d, changes, ends⟩ := changes_disconnect returned
    exact wellLinked_detached linked changes ends (fun c => HierDetail.without_members)
      (orderly d changes.detail)

theorem fresh_members (fresh : Fresh env h) (detail : h b = some d) :
    d.parent = none ∧ ∀ c, c ∉ d.members := by
  have made := fresh b d detail
  unfold HierDetail.make at made
  dsimp only at made
  split at made
  · cases made
  · rw [← Except.ok.inj made]
    refine ⟨rfl, ?_⟩
    intro c member
    rcases HierDetail.mem_members.mp member with edge | single | ⟨l, there, endp, inside, -⟩ |
      ⟨endp, there, -⟩
    · cases edge
    · cases single
    · rw [List.eq_of_mem_replicate there] at inside
      cases inside
    · cases List.eq_of_mem_replicate there

theorem wellLinked_fresh (fresh : Fresh env h) : WellLinked h :=
  ⟨fun _ _ c _ detail member => absurd member ((fresh_members fresh detail).2 c),
    fun _ _ detail _ => (fresh_members fresh detail).1⟩

/-! ## Locking -/

theorem detailLock_nested (right : LinksRight h) (nested : Nested h b c)
    (below : ∃ fuel, detailLock h fuel b = some top) : ∃ fuel, detailLock h fuel c = some top := by
  induction nested with
  | here b => exact below
  | @inside b c last d detail member hier rest ih =>
    apply ih
    by_cases same : c = b
    · rw [same]
      exact below
    · obtain ⟨fuel, walk⟩ := below
      obtain ⟨dc, child⟩ := Option.isSome_iff_exists.mp hier
      refine ⟨fuel + 1, ?_⟩
      rw [detailLock, child]
      dsimp only
      rw [right b d c dc detail member same child]
      exact walk

theorem detailLock_orphan (detail : h b = some d) (orphan : d.parent = none)
    (lower : d.topBlock = false) (fuel : Nat) : detailLock h fuel b = none := by
  induction fuel with
  | zero => rfl
  | succ fuel ih =>
    rw [detailLock, detail]
    dsimp only
    rw [orphan, lower]
    exact ih

theorem lock_nested (linked : WellLinked h) (detail : h top = some d) (isTop : d.topBlock = true)
    (nested : Nested h top b) : ∃ fuel, lock h fuel b = some top := by
  have own : detailLock h 1 top = some top := by
    rw [detailLock, detail]
    dsimp only
    rw [linked.free top d detail isTop, isTop]
    rfl
  obtain ⟨fuel, walk⟩ := detailLock_nested linked.right nested ⟨1, own⟩
  refine ⟨fuel, ?_⟩
  unfold lock
  cases last : h b with
  | none =>
    cases fuel with
    | zero => cases walk
    | succ fuel => rw [detailLock, last] at walk; cases walk
  | some db =>
    dsimp only
    split
    · rename_i ownLock
      cases fuel with
      | zero => cases walk
      | succ fuel =>
        rw [detailLock, last] at walk
        dsimp only at walk
        rw [linked.free b db last ownLock, ownLock] at walk
        exact walk
    · exact walk

/-- As long as a child belongs to one detail at a time and is disconnected only when nothing else in
the detail refers to it, locking a block nested under a top block reaches the top block. -/
theorem lock_reaches_top {h₀ : Hierarchy} {calls : List Call} (fresh : Fresh env h₀)
    (orderly : Throughout Orderly (call env) h₀ calls)
    (reached : run (call env) h₀ calls = some h) :
    (∀ owner d c dc, h owner = some d → c ∈ d.members → c ≠ owner → h c = some dc →
      dc.parent = some owner) ∧
    ∀ top d b, h top = some d → d.topBlock = true → Nested h top b →
      ∃ fuel, lock h fuel b = some top := by
  have linked := run_invariant_of WellLinked (fun _ _ _ => wellLinked_call)
    (wellLinked_fresh fresh) orderly reached
  exact ⟨linked.right, fun top d b => lock_nested linked⟩

/-! ## A child with two inputs -/

/-- A top block 0, a source 1 and a hierarchical block with two inputs. -/
def pairBlocks : Blocks := fun b =>
  if b = 0 then BasicBlock.hier "top" 0 0 4 sizeofFloat_pos
  else if b = 1 then
    BasicBlock.leaf "source" 0 1 GrBlock.initial 4 sizeofFloat_pos
  else BasicBlock.hier "pair" 2 0 4 sizeofFloat_pos

/-- The details of the two hierarchical blocks when nothing is connected. -/
def pairHierarchy : Hierarchy := fun b =>
  if b = 0 then some ⟨true, none, .empty, [], [], []⟩
  else if b = 2 then some ⟨false, none, .empty, [[], []], [], []⟩
  else none

theorem pairHierarchy_fresh : Fresh pairBlocks pairHierarchy := by
  intro b d detail
  unfold pairHierarchy at detail
  split at detail
  · rename_i top
    subst top
    obtain rfl := Option.some.inj detail
    rfl
  · split at detail
    · rename_i pair
      subst pair
      obtain rfl := Option.some.inj detail
      rfl
    · cases detail

/-- Both inputs of the child are connected to the source, then one of them is disconnected. The
other edge is left without a parent link, and locking the child never ends. -/
theorem lock_lost : Fresh pairBlocks pairHierarchy ∧ ∃ h d dc,
    run (call pairBlocks) pairHierarchy [.connect 0 ⟨1, 0⟩ ⟨2, 0⟩, .connect 0 ⟨1, 0⟩ ⟨2, 1⟩,
      .disconnect 0 ⟨1, 0⟩ ⟨2, 0⟩] = some h ∧
    h 0 = some d ∧ d.topBlock = true ∧ d.fg.edges = [⟨⟨1, 0⟩, ⟨2, 1⟩⟩] ∧
    h 2 = some dc ∧ dc.parent = none ∧ Nested h 0 2 ∧ ∀ fuel, lock h fuel 2 = none := by
  refine ⟨pairHierarchy_fresh, ?_⟩
  have evaluated : (run (call pairBlocks) pairHierarchy [.connect 0 ⟨1, 0⟩ ⟨2, 0⟩,
      .connect 0 ⟨1, 0⟩ ⟨2, 1⟩, .disconnect 0 ⟨1, 0⟩ ⟨2, 0⟩]).any (fun h =>
        h 0 = some ⟨true, none, ⟨[], [⟨⟨1, 0⟩, ⟨2, 1⟩⟩]⟩, [], [], []⟩ ∧
        h 2 = some ⟨false, none, .empty, [[], []], [], []⟩) = true := by decide +kernel
  obtain ⟨h, reached, facts⟩ := (Option.any_eq_true _ _).mp evaluated
  obtain ⟨top, child⟩ := of_decide_eq_true facts
  refine ⟨h, _, _, reached, top, rfl, rfl, child, rfl, ?_, ?_⟩
  · exact .inside top (by decide +kernel) (by rw [child]; rfl) (.here 2)
  · intro fuel
    unfold lock
    rw [child]
    exact detailLock_orphan child rfl rfl fuel

/-- Only the top block and the child are hierarchical. -/
def Paired (h : Hierarchy) : Prop := ∀ b d, h b = some d → b ≠ 0 → b = 2 ∧ d.topBlock = false

theorem Paired.changes (paired : Paired h) (changes : Changes h h' 0 parent touched d left) :
    Paired h' := by
  intro b d' after other
  obtain ⟨db, before, -, same⟩ := changes.members other after
  exact same ▸ paired b db before other

theorem Paired.orderly (paired : Paired h) (port : Int) :
    Orderly h (.connect 0 ⟨1, 0⟩ ⟨2, port⟩) := by
  refine ⟨fun other dc detail => ?_, fun other dc detail => ⟨(paired 2 dc detail other).2, ?_⟩⟩
  · exact absurd (paired 1 dc detail other).1 (by decide)
  · intro b d detail notTop notPair
    exact absurd (paired b d detail notTop).1 notPair

/-- Connecting one input of the child, disconnecting it, and connecting the other one: locking the
child reaches the top block. -/
theorem lock_reaches_top_pair : ∃ h,
    run (call pairBlocks) pairHierarchy [.connect 0 ⟨1, 0⟩ ⟨2, 0⟩, .disconnect 0 ⟨1, 0⟩ ⟨2, 0⟩,
      .connect 0 ⟨1, 0⟩ ⟨2, 1⟩] = some h ∧
    ∃ fuel, lock h fuel 2 = some 0 := by
  have evaluated : (run (call pairBlocks) pairHierarchy [.connect 0 ⟨1, 0⟩ ⟨2, 0⟩,
      .disconnect 0 ⟨1, 0⟩ ⟨2, 0⟩, .connect 0 ⟨1, 0⟩ ⟨2, 1⟩]).any (fun h =>
        h 0 = some ⟨true, none, ⟨[], [⟨⟨1, 0⟩, ⟨2, 1⟩⟩]⟩, [], [], []⟩ ∧
        h 2 = some ⟨false, some 0, .empty, [[], []], [], []⟩) = true := by decide +kernel
  obtain ⟨h, reached, facts⟩ := (Option.any_eq_true _ _).mp evaluated
  obtain ⟨top, child⟩ := of_decide_eq_true facts
  have paired : Paired pairHierarchy := by
    intro b d detail notTop
    rw [pairHierarchy, if_neg notTop] at detail
    split at detail
    · rename_i pair
      exact ⟨pair, by rw [← Option.some.inj detail]⟩
    · cases detail
  have orderly : Throughout Orderly (call pairBlocks) pairHierarchy
      [.connect 0 ⟨1, 0⟩ ⟨2, 0⟩, .disconnect 0 ⟨1, 0⟩ ⟨2, 0⟩, .connect 0 ⟨1, 0⟩ ⟨2, 1⟩] := by
    refine ⟨paired.orderly 0, fun h₁ connected => ⟨?_, fun h₂ freed => ⟨?_, fun _ _ => trivial⟩⟩⟩
    · have after : (call pairBlocks pairHierarchy (.connect 0 ⟨1, 0⟩ ⟨2, 0⟩)).map (· 0) =
          some (some ⟨true, none, ⟨[], [⟨⟨1, 0⟩, ⟨2, 0⟩⟩]⟩, [], [], []⟩) := by decide +kernel
      rw [connected] at after
      intro d detail c _ _ _
      obtain rfl := Option.some.inj (detail.symm.trans (Option.some.inj after))
      exact List.not_mem_nil
    · obtain ⟨d, left, first, -⟩ := changes_connect (call_some.mp connected)
      obtain ⟨d', second, -⟩ := changes_disconnect (call_some.mp freed)
      exact ((paired.changes first).changes second).orderly 1
  have reaches := (lock_reaches_top pairHierarchy_fresh orderly reached).2
  exact ⟨h, reached, reaches 0 _ 2 top rfl
    (.inside top (by decide +kernel) (by rw [child]; rfl) (.here 2))⟩

end Hierarchy

end GnuRadio
