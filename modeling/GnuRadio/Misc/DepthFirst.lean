import GnuRadio.Misc.Except
import Mathlib.Data.List.Count
import Mathlib.Data.List.Nodup
import Mathlib.Logic.Relation

/-!
# Depth-first search with colours

Two searches over a graph given by its successor lists. `visit` colours a node
grey while its successors are searched and black when they are done; it appends
finished nodes to an output and fails on meeting a grey node. `mark` only tells
visited nodes from unvisited ones. Both take fuel for the depth of the
recursion; the number of white nodes is always enough.
-/

namespace GnuRadio

/-- The colours of a search. -/
inductive Color where
  | white
  | grey
  | black
  deriving DecidableEq, Repr

namespace DepthFirst

open Relation

variable {V : Type} [DecidableEq V]

/-- The colour of each node and the nodes finished so far. -/
structure Search (V : Type) where
  color : V → Color
  output : List V

/-- Why a search gives up. -/
inductive Failure where
  | loop
  | outOfFuel
  deriving DecidableEq, Repr

/-- Colour one node. -/
def Search.paint (s : Search V) (v : V) (c : Color) : Search V :=
  { s with color := Function.update s.color v c }

/-- A node is done: it turns black and joins the output. -/
def Search.finish (s : Search V) (v : V) : Search V :=
  { s.paint v .black with output := s.output ++ [v] }

/-- What is done with each successor of a node. -/
def examine (recurse : V → Search V → Except Failure (Search V)) (s : Search V) (w : V) :
    Except Failure (Search V) :=
  match s.color w with
  | .white => recurse w s
  | .grey => .error .loop
  | .black => .ok s

/-- Search a node that has not been visited. -/
def visit (succ : V → List V) : Nat → V → Search V → Except Failure (Search V)
  | 0, _, _ => .error .outOfFuel
  | fuel + 1, v, s => do
      let s ← (succ v).foldlM (examine (visit succ fuel)) (s.paint v .grey)
      return s.finish v

/-- Search from a node if it is still white. -/
def visitWhite (succ : V → List V) (fuel : Nat) (s : Search V) (v : V) :
    Except Failure (Search V) :=
  if s.color v = .white then visit succ fuel v s else .ok s

/-- Search from every node of a list that is still white. -/
def visitAll (succ : V → List V) (fuel : Nat) (vs : List V) (s : Search V) :
    Except Failure (Search V) :=
  vs.foldlM (visitWhite succ fuel) s

/-- Colour a node and what can be reached from it black. -/
def mark (adjacent : V → List V) : Nat → V → (V → Color) → V → Color
  | 0, _, color => color
  | fuel + 1, v, color =>
      (adjacent v).foldl
        (fun color w => if color w = .white then mark adjacent fuel w color else color)
        (Function.update color v .black)

/-- `Arc succ a b`: `b` is a successor of `a`. -/
def Arc (succ : V → List V) (a b : V) : Prop := b ∈ succ a

/-! ## Counting the white nodes -/

/-- The white nodes of a list. -/
def whites (color : V → Color) (nodes : List V) : Nat := nodes.countP fun v => color v = .white

omit [DecidableEq V] in
theorem whites_le {color color' : V → Color} {nodes : List V}
    (fewer : ∀ v, color' v = .white → color v = .white) :
    whites color' nodes ≤ whites color nodes := by
  apply List.countP_mono_left
  intro v _ white
  simpa using fewer v (by simpa using white)

variable {color : V → Color} {v : V} {nodes : List V} {s t : Search V}

theorem white_of_update {u : V} {c : Color} (colored : c ≠ .white)
    (still : Function.update color v c u = .white) : u ≠ v ∧ color u = .white := by
  by_cases same : u = v
  · rw [same, Function.update_self] at still
    exact absurd still colored
  · exact ⟨same, by rwa [Function.update_of_ne same] at still⟩

theorem whites_paint {c : Color} (inside : v ∈ nodes) (white : color v = .white)
    (colored : c ≠ .white) : whites (Function.update color v c) nodes < whites color nodes := by
  obtain ⟨front, back, rfl⟩ := List.append_of_mem inside
  have fewer : ∀ u, Function.update color v c u = .white → color u = .white :=
    fun u still => (white_of_update colored still).2
  have before := @whites_le V color _ front fewer
  have after := @whites_le V color _ back fewer
  unfold whites at *
  simp only [List.countP_append, List.countP_cons, Function.update_self, colored, white,
    decide_true, decide_false, if_true, Bool.false_eq_true, if_false]
  omega

/-! ## The search that finishes nodes -/

/-- The output lists exactly the black nodes of `nodes`, once, each behind its
successors. -/
structure Sorted (succ : V → List V) (nodes : List V) (s : Search V) : Prop where
  black : ∀ v ∈ nodes, s.color v = .black ↔ v ∈ s.output
  inside : ∀ v ∈ s.output, v ∈ nodes
  nodup : s.output.Nodup
  behind : ∀ front v back, s.output = front ++ v :: back → ∀ w ∈ succ v, w ∈ front

/-- What a search leaves alone: the grey nodes, the nodes finished before, and
every node outside `nodes`. -/
structure Extends (nodes : List V) (s t : Search V) : Prop where
  output : s.output <+: t.output
  grey : ∀ v, t.color v = .grey ↔ s.color v = .grey
  black : ∀ v, s.color v = .black → t.color v = .black
  outside : ∀ v, v ∉ nodes → t.color v = s.color v

omit [DecidableEq V] in
theorem Extends.refl (nodes : List V) (s : Search V) : Extends nodes s s :=
  ⟨List.prefix_refl _, fun _ => Iff.rfl, fun _ h => h, fun _ _ => rfl⟩

omit [DecidableEq V] in
theorem Extends.trans {u : Search V} (first : Extends nodes s t) (second : Extends nodes t u) :
    Extends nodes s u :=
  ⟨first.output.trans second.output, fun v => (second.grey v).trans (first.grey v),
    fun v h => second.black v (first.black v h),
    fun v out => (second.outside v out).trans (first.outside v out)⟩

omit [DecidableEq V] in
theorem Extends.white (kept : Extends nodes s t) (v : V) (white : t.color v = .white) :
    s.color v = .white := by
  cases before : s.color v with
  | white => rfl
  | grey =>
    rw [(kept.grey v).mpr before] at white
    cases white
  | black =>
    rw [kept.black v before] at white
    cases white

/-- What is known when a search started in `s` ends. -/
def Ends (succ : V → List V) (nodes : List V) (s : Search V) (reached : Search V → Prop) :
    Except Failure (Search V) → Prop
  | .ok t => Sorted succ nodes t ∧ Extends nodes s t ∧ reached t
  | .error .loop => ∃ v ∈ nodes, TransGen (Arc succ) v v
  | .error .outOfFuel => False

/-- Every grey node leads to `v`: the grey nodes are the path of the search. -/
def Path (succ : V → List V) (nodes : List V) (s : Search V) (v : V) : Prop :=
  ∀ u ∈ nodes, s.color u = .grey → ReflTransGen (Arc succ) u v

theorem sorted_finish {succ : V → List V} (sorted : Sorted succ nodes s) (member : v ∈ nodes)
    (unfinished : s.color v ≠ .black) (ready : ∀ w ∈ succ v, w ∈ nodes ∧ s.color w = .black) :
    Sorted succ nodes (s.finish v) := by
  have fresh : v ∉ s.output := fun listed => unfinished ((sorted.black v member).mpr listed)
  refine ⟨?_, ?_, ?_, ?_⟩
  · intro u known
    by_cases same : u = v
    · simp [Search.finish, Search.paint, same]
    · simp [Search.finish, Search.paint, same, sorted.black u known]
  · intro u listed
    rcases List.mem_append.mp listed with old | new
    · exact sorted.inside u old
    · exact List.mem_singleton.mp new ▸ member
  · simp only [Search.finish]
    exact List.nodup_append'.mpr ⟨sorted.nodup, List.nodup_singleton v, by simpa using fresh⟩
  · intro front u back split w arc
    rcases List.eq_nil_or_concat back with rfl | ⟨rest, last, rfl⟩
    · obtain ⟨rfl, same⟩ := List.append_inj' split rfl
      obtain rfl := (List.cons.inj same).1
      exact (sorted.black w (ready w arc).1).mp (ready w arc).2
    · have longer : s.output ++ [v] = (front ++ u :: rest) ++ [last] := by
        simpa [Search.finish] using split
      exact sorted.behind front u rest (List.append_inj' longer rfl).1 w arc

section Visit

variable {succ : V → List V} {nodes : List V}

variable {fuel : Nat} {v : V} {s t : Search V}

theorem examine_ends
    (recurse : ∀ w s, w ∈ nodes → s.color w = .white → whites s.color nodes ≤ fuel →
      Sorted succ nodes s → Path succ nodes s w →
      Ends succ nodes s (fun t => t.color w = .black) (visit succ fuel w s))
    (ws : List V) (arcs : ∀ w ∈ ws, w ∈ nodes ∧ Arc succ v w) (s : Search V)
    (few : whites s.color nodes ≤ fuel) (sorted : Sorted succ nodes s)
    (path : Path succ nodes s v) :
    Ends succ nodes s (fun t => ∀ w ∈ ws, t.color w = .black)
      (ws.foldlM (examine (visit succ fuel)) s) := by
  induction ws generalizing s with
  | nil => exact ⟨sorted, Extends.refl nodes s, by simp⟩
  | cons w ws ih =>
    obtain ⟨inside, arc⟩ := arcs w (by simp)
    have rest := fun t => ih (fun u later => arcs u (List.mem_cons_of_mem w later)) t
    rw [List.foldlM_cons]
    cases color : s.color w with
    | grey =>
      have cycle : TransGen (Arc succ) w w := TransGen.tail' (path w inside color) arc
      simpa [examine, color, bind, Except.bind, Ends] using ⟨w, inside, cycle⟩
    | black =>
      have next := rest s few sorted path
      simp only [examine, color, bind, Except.bind]
      generalize ws.foldlM (examine (visit succ fuel)) s = result at next
      match result, next with
      | .ok t, ⟨sortedEnd, kept, done⟩ =>
        refine ⟨sortedEnd, kept, ?_⟩
        intro u listed
        rcases List.mem_cons.mp listed with rfl | later
        · exact kept.black u color
        · exact done u later
      | .error .loop, cycle => exact cycle
    | white =>
      have first := recurse w s inside color few sorted
        (fun u known grey => (path u known grey).tail arc)
      simp only [examine, color, bind, Except.bind]
      generalize visit succ fuel w s = visited at first
      match visited, first with
      | .error .loop, cycle => exact cycle
      | .ok t, ⟨sortedMid, keptMid, black⟩ =>
        have next := rest t (Nat.le_trans (whites_le keptMid.white) few) sortedMid
          (fun u known grey => path u known ((keptMid.grey u).mp grey))
        dsimp only
        generalize ws.foldlM (examine (visit succ fuel)) t = result at next
        match result, next with
        | .ok e, ⟨sortedEnd, kept, done⟩ =>
          refine ⟨sortedEnd, keptMid.trans kept, ?_⟩
          intro u listed
          rcases List.mem_cons.mp listed with rfl | later
          · exact kept.black u black
          · exact done u later
        | .error .loop, cycle => exact cycle

theorem visit_ends (closed : ∀ v ∈ nodes, ∀ w ∈ succ v, w ∈ nodes) (fuel : Nat) (v : V)
    (s : Search V) (member : v ∈ nodes) (white : s.color v = .white)
    (few : whites s.color nodes ≤ fuel) (sorted : Sorted succ nodes s)
    (path : Path succ nodes s v) :
    Ends succ nodes s (fun t => t.color v = .black) (visit succ fuel v s) := by
  induction fuel generalizing v s with
  | zero =>
    have some := whites_paint (c := .grey) member white (by decide)
    omega
  | succ fuel ih =>
    have fewer : whites (s.paint v .grey).color nodes ≤ fuel := by
      have := whites_paint (c := .grey) member white (by decide)
      simp only [Search.paint]
      omega
    have painted : Sorted succ nodes (s.paint v .grey) := by
      refine ⟨?_, sorted.inside, sorted.nodup, sorted.behind⟩
      intro u known
      by_cases same : u = v
      · have unlisted : v ∉ s.output := fun listed => by
          rw [(sorted.black v member).mpr listed] at white
          cases white
        simp [Search.paint, same, unlisted]
      · simpa [Search.paint, same] using sorted.black u known
    have longer : Path succ nodes (s.paint v .grey) v := by
      intro u known grey
      by_cases same : u = v
      · exact same ▸ ReflTransGen.refl
      · exact path u known (by simpa [Search.paint, same] using grey)
    have loop := examine_ends (fun w t => ih w t) (succ v)
      (fun w arc => ⟨closed v member w arc, arc⟩) (s.paint v .grey) fewer painted longer
    simp only [visit, bind, Except.bind]
    generalize (succ v).foldlM (examine (visit succ fuel)) (s.paint v .grey) = result at loop
    match result, loop with
    | .error .loop, cycle => exact cycle
    | .ok t, ⟨sortedEnd, kept, done⟩ =>
      have grey : t.color v = .grey := (kept.grey v).mpr (by simp [Search.paint])
      refine ⟨sorted_finish sortedEnd member (by simp [grey])
        (fun w arc => ⟨closed v member w arc, done w arc⟩), ⟨?_, ?_, ?_, ?_⟩, ?_⟩
      · exact kept.output.trans (List.prefix_append _ _)
      · intro u
        by_cases same : u = v
        · simp [Search.finish, Search.paint, same, white]
        · simpa [Search.finish, Search.paint, same] using kept.grey u
      · intro u black
        by_cases same : u = v
        · simp [Search.finish, Search.paint, same]
        · simpa [Search.finish, Search.paint, same] using
            kept.black u (by simpa [Search.paint, same] using black)
      · intro u out
        have different : u ≠ v := fun same => out (same ▸ member)
        simpa [Search.finish, Search.paint, different] using kept.outside u out
      · simp [Search.finish, Search.paint]

theorem visitAll_ends (closed : ∀ v ∈ nodes, ∀ w ∈ succ v, w ∈ nodes) (fuel : Nat) (vs : List V)
    (s : Search V) (member : ∀ v ∈ vs, v ∈ nodes) (few : whites s.color nodes ≤ fuel)
    (sorted : Sorted succ nodes s) (idle : ∀ v ∈ nodes, s.color v ≠ .grey) :
    Ends succ nodes s (fun t => ∀ v ∈ vs, t.color v = .black) (visitAll succ fuel vs s) := by
  induction vs generalizing s with
  | nil => exact ⟨sorted, Extends.refl nodes s, by simp⟩
  | cons v vs ih =>
    have inside := member v (by simp)
    have rest := fun t => ih t (fun u later => member u (List.mem_cons_of_mem v later))
    simp only [visitAll, List.foldlM_cons] at rest ⊢
    by_cases white : s.color v = .white
    · have first := visit_ends closed fuel v s inside white few sorted
        (fun u known grey => absurd grey (idle u known))
      simp only [visitWhite, white, if_true, bind, Except.bind]
      generalize visit succ fuel v s = visited at first
      match visited, first with
      | .error .loop, cycle => exact cycle
      | .ok t, ⟨sortedMid, keptMid, black⟩ =>
        have next := rest t (Nat.le_trans (whites_le keptMid.white) few) sortedMid
          (fun u known grey => idle u known ((keptMid.grey u).mp grey))
        dsimp only
        generalize vs.foldlM (visitWhite succ fuel) t = result at next
        match result, next with
        | .ok e, ⟨sortedEnd, kept, done⟩ =>
          refine ⟨sortedEnd, keptMid.trans kept, ?_⟩
          intro u listed
          rcases List.mem_cons.mp listed with rfl | later
          · exact kept.black u black
          · exact done u later
        | .error .loop, cycle => exact cycle
    · have black : s.color v = .black := by
        cases color : s.color v with
        | white => exact absurd color white
        | grey => exact absurd color (idle v inside)
        | black => rfl
      have next := rest s few sorted idle
      simp only [visitWhite, white, if_false, bind, Except.bind]
      generalize vs.foldlM (visitWhite succ fuel) s = result at next
      match result, next with
      | .ok e, ⟨sortedEnd, kept, done⟩ =>
        refine ⟨sortedEnd, kept, ?_⟩
        intro u listed
        rcases List.mem_cons.mp listed with rfl | later
        · exact kept.black u black
        · exact done u later
      | .error .loop, cycle => exact cycle

theorem visit_reaches (visited : visit succ fuel v s = .ok t) :
    ∀ w ∈ t.output, w ∈ s.output ∨ ReflTransGen (Arc succ) v w := by
  induction fuel generalizing v s t with
  | zero => cases visited
  | succ fuel ih =>
    obtain ⟨u, looped, same⟩ := bind_ok.mp visited
    obtain rfl := pure_ok.mp same
    have kept : ∀ w ∈ u.output, w ∈ s.output ∨ ReflTransGen (Arc succ) v w := by
      refine foldlM_invariant (f := examine (visit succ fuel))
        (fun s' => ∀ w ∈ s'.output, w ∈ s.output ∨ ReflTransGen (Arc succ) v w) ?_
        (s := s.paint v .grey) (fun w listed => .inl listed) looped
      intro s₁ s₂ x arc before once w listed
      unfold examine at once
      split at once
      · rcases ih once w listed with old | path
        · exact before w old
        · exact .inr (ReflTransGen.head arc path)
      · cases once
      · cases once
        exact before w listed
    intro w listed
    rcases List.mem_append.mp listed with old | new
    · exact kept w old
    · rw [List.mem_singleton.mp new]
      exact .inr .refl

theorem visit_last (visited : visit succ fuel v s = .ok t) : ∃ front, t.output = front ++ [v] := by
  cases fuel with
  | zero => cases visited
  | succ fuel =>
    obtain ⟨u, -, same⟩ := bind_ok.mp visited
    obtain rfl := pure_ok.mp same
    exact ⟨u.output, rfl⟩

omit [DecidableEq V] in
theorem Sorted.reaches (sorted : Sorted succ nodes s) {w : V} (listed : v ∈ s.output)
    (path : ReflTransGen (Arc succ) v w) : w ∈ s.output := by
  induction path with
  | refl => exact listed
  | tail _ arc ih =>
    obtain ⟨front, back, split⟩ := List.append_of_mem ih
    rw [split]
    exact List.mem_append_left _ (sorted.behind front _ back split _ arc)

theorem Sorted.idxOf_lt (sorted : Sorted succ nodes s) {w : V} (listed : v ∈ s.output)
    (arc : Arc succ v w) : w ∈ s.output ∧ s.output.idxOf w < s.output.idxOf v := by
  obtain ⟨front, back, split⟩ := List.append_of_mem listed
  have earlier := sorted.behind front v back split w arc
  have nodup := sorted.nodup
  rw [split] at nodup ⊢
  have absent : v ∉ front := fun twice =>
    (List.nodup_append'.mp nodup).2.2 twice (List.mem_cons_self ..)
  refine ⟨List.mem_append_left _ earlier, ?_⟩
  rw [List.idxOf_append_of_mem earlier, List.idxOf_append_of_notMem absent, List.idxOf_cons_self]
  have := List.idxOf_lt_length_of_mem earlier
  omega

theorem Sorted.acyclic (sorted : Sorted succ nodes s) (listed : v ∈ s.output) :
    ¬ TransGen (Arc succ) v v := by
  have descends : ∀ w, TransGen (Arc succ) v w →
      w ∈ s.output ∧ s.output.idxOf w < s.output.idxOf v := by
    intro w path
    induction path with
    | single arc => exact sorted.idxOf_lt listed arc
    | tail _ arc ih =>
      obtain ⟨found, below⟩ := sorted.idxOf_lt ih.1 arc
      exact ⟨found, Nat.lt_trans below ih.2⟩
  intro cycle
  exact Nat.lt_irrefl _ (descends v cycle).2

end Visit

/-! ## The search that marks what can be reached -/

section Mark

variable {adjacent : V → List V} {nodes : List V}

/-- A search that marks from `v` blackens white nodes that `v` reaches and
leaves no white node next to one it has blackened. -/
structure Marks (adjacent : V → List V) (v : V) (color color' : V → Color) : Prop where
  change : ∀ u, color' u = color u ∨
    color u = .white ∧ color' u = .black ∧ ReflTransGen (Arc adjacent) v u
  complete : ∀ u, color u = .white → color' u = .black → ∀ w ∈ adjacent u, color' w ≠ .white

variable {v u : V} {color color' : V → Color}

omit [DecidableEq V] in
theorem Marks.white (marks : Marks adjacent v color color') (white : color' u = .white) :
    color u = .white := by
  rcases marks.change u with same | ⟨before, _, _⟩
  · rw [← same, white]
  · exact before

omit [DecidableEq V] in
theorem Marks.black (marks : Marks adjacent v color color') (black : color u = .black) :
    color' u = .black := by
  rcases marks.change u with same | ⟨white, _, _⟩
  · rw [same, black]
  · rw [black] at white
    cases white

theorem mark_loop {fuel : Nat}
    (recurse : ∀ w color, w ∈ nodes → color w = .white → whites color nodes ≤ fuel →
      Marks adjacent w color (mark adjacent fuel w color) ∧ mark adjacent fuel w color w = .black)
    (ws : List V) (arcs : ∀ w ∈ ws, w ∈ nodes ∧ Arc adjacent v w) (color : V → Color)
    (few : whites color nodes ≤ fuel) :
    Marks adjacent v color (ws.foldl (fun color w =>
      if color w = .white then mark adjacent fuel w color else color) color) ∧
    ∀ w ∈ ws, ws.foldl (fun color w =>
      if color w = .white then mark adjacent fuel w color else color) color w ≠ .white := by
  induction ws generalizing color with
  | nil => exact ⟨⟨fun _ => Or.inl rfl, fun u white black => by simp [white] at black⟩, by simp⟩
  | cons w ws ih =>
    obtain ⟨inside, arc⟩ := arcs w (by simp)
    have rest := ih (fun u later => arcs u (List.mem_cons_of_mem w later))
    rw [List.foldl_cons]
    by_cases white : color w = .white
    · obtain ⟨first, black⟩ := recurse w color inside white few
      obtain ⟨next, seen⟩ := rest (mark adjacent fuel w color)
        (Nat.le_trans (whites_le fun u => first.white) few)
      rw [if_pos white]
      refine ⟨⟨?_, ?_⟩, ?_⟩
      · intro u
        rcases next.change u with same | ⟨still, turned, path⟩
        · rcases first.change u with kept | ⟨was, turned, path⟩
          · exact Or.inl (same.trans kept)
          · exact Or.inr ⟨was, same.trans turned, ReflTransGen.head arc path⟩
        · exact Or.inr ⟨first.white still, turned, path⟩
      · intro u was turned x near blank
        cases mid : mark adjacent fuel w color u with
        | white => exact next.complete u mid turned x near blank
        | grey =>
          rcases first.change u with same | ⟨_, now, _⟩
          · rw [mid, was] at same
            cases same
          · rw [mid] at now
            cases now
        | black => exact first.complete u was mid x near (next.white blank)
      · intro u listed
        rcases List.mem_cons.mp listed with rfl | later
        · rw [next.black black]
          decide
        · exact seen u later
    · obtain ⟨next, seen⟩ := rest color few
      rw [if_neg white]
      refine ⟨next, ?_⟩
      intro u listed
      rcases List.mem_cons.mp listed with rfl | later
      · exact fun blank => white (next.white blank)
      · exact seen u later

theorem mark_marks (closed : ∀ v ∈ nodes, ∀ w ∈ adjacent v, w ∈ nodes) (fuel : Nat) (v : V)
    (color : V → Color) (member : v ∈ nodes) (white : color v = .white)
    (few : whites color nodes ≤ fuel) :
    Marks adjacent v color (mark adjacent fuel v color) ∧
      mark adjacent fuel v color v = .black := by
  induction fuel generalizing v color with
  | zero =>
    have := whites_paint (c := .black) member white (by decide)
    omega
  | succ fuel ih =>
    have fewer : whites (Function.update color v .black) nodes ≤ fuel := by
      have := whites_paint (c := .black) member white (by decide)
      omega
    obtain ⟨loop, seen⟩ := mark_loop (fun w color => ih w color) (adjacent v)
      (fun w near => ⟨closed v member w near, near⟩) (Function.update color v .black) fewer
    have done := loop.black (u := v) (by simp)
    simp only [mark]
    refine ⟨⟨?_, ?_⟩, done⟩
    · intro u
      by_cases same : u = v
      · subst same
        exact Or.inr ⟨white, done, ReflTransGen.refl⟩
      · simpa [same] using loop.change u
    · intro u was turned w near
      by_cases same : u = v
      · subst same
        exact seen w near
      · exact loop.complete u (by simpa [same] using was) turned w near

theorem mark_iff (closed : ∀ v ∈ nodes, ∀ w ∈ adjacent v, w ∈ nodes) {fuel : Nat}
    (member : v ∈ nodes) (blank : ∀ u ∈ nodes, color u = .white) (few : nodes.length ≤ fuel)
    (inside : u ∈ nodes) :
    mark adjacent fuel v color u = .black ↔ ReflTransGen (Arc adjacent) v u := by
  obtain ⟨marks, start⟩ := mark_marks closed fuel v color member (blank v member)
    (Nat.le_trans List.countP_le_length few)
  constructor
  · intro black
    rcases marks.change u with same | ⟨_, _, path⟩
    · rw [black, blank u inside] at same
      cases same
    · exact path
  · intro path
    clear inside
    have both : u ∈ nodes ∧ mark adjacent fuel v color u = .black := by
      induction path with
      | refl => exact ⟨member, start⟩
      | @tail b c _ near ih =>
        have known := closed b ih.1 c near
        refine ⟨known, ?_⟩
        have seen := marks.complete b (blank b ih.1) ih.2 c near
        rcases marks.change c with same | ⟨_, black, _⟩
        · exact absurd (same.trans (blank c known)) seen
        · exact black
    exact both.2

end Mark

end DepthFirst

end GnuRadio
