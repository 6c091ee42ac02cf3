import Mathlib.Data.Set.Finite.List

/-!
# Taking away what nothing needs

An order in which everything comes after what it needs is found from behind: whatever is needed by
nothing that is left comes last. When something is left and each of it is needed, there is a cycle.
-/

namespace GnuRadio.Peeling

open Relation

variable {V : Type} {needs : V → V → Prop}

/-- Everything comes after what it needs. -/
def Behind (needs : V → V → Prop) (out : List V) : Prop :=
  ∀ front a back, out = front ++ a :: back → ∀ b, needs a b → b ∈ front

/-- Nothing that is left needs what was taken away, or needs what was taken away after it. -/
structure Peeled (needs : V → V → Prop) (taken : List V) (left : V → Prop) : Prop where
  nodup : taken.Nodup
  apart : ∀ a ∈ taken, ¬left a
  unneeded : ∀ a ∈ taken, ∀ b, left b → ¬needs b a
  ordered : taken.Pairwise fun a b => ¬needs b a

namespace Peeled

theorem nil (left : V → Prop) : Peeled needs [] left := by
  constructor
  · exact List.nodup_nil
  · intro a member
    cases member
  · intro a member
    cases member
  · exact List.Pairwise.nil

theorem round {taken layer : List V} {left left' : V → Prop} (peeled : Peeled needs taken left)
    (nodup : layer.Nodup) (inside : ∀ a ∈ layer, left a)
    (unneeded : ∀ a ∈ layer, ∀ b, left b → ¬needs b a)
    (rest : ∀ a, left' a ↔ left a ∧ a ∉ layer) : Peeled needs (taken ++ layer) left' := by
  constructor
  · refine List.nodup_append.mpr ⟨peeled.nodup, nodup, ?_⟩
    rintro a before b now rfl
    exact peeled.apart a before (inside a now)
  · intro a member remains
    have known := (rest a).mp remains
    rcases List.mem_append.mp member with before | now
    · exact peeled.apart a before known.1
    · exact known.2 now
  · intro a member b remains
    have known := ((rest b).mp remains).1
    rcases List.mem_append.mp member with before | now
    · exact peeled.unneeded a before b known
    · exact unneeded a now b known
  · refine List.pairwise_append.mpr ⟨peeled.ordered, ?_, ?_⟩
    · exact List.pairwise_of_forall_mem_list fun a first b second =>
        unneeded a first b (inside b second)
    · intro a before b now
      exact peeled.unneeded a before b (inside b now)

theorem behind {taken : List V} {left : V → Prop} (peeled : Peeled needs taken left)
    (irreflexive : ∀ a, ¬needs a a) (closed : ∀ a ∈ taken, ∀ b, needs a b → b ∈ taken) :
    Behind needs taken.reverse := by
  intro front a back same b needed
  have ordered : taken.reverse.Pairwise fun a b => ¬needs a b :=
    List.pairwise_reverse.mpr peeled.ordered
  have member : a ∈ taken := by
    rw [← List.mem_reverse, same]
    exact List.mem_append_right front List.mem_cons_self
  have inside : b ∈ front ++ a :: back := by
    rw [← same, List.mem_reverse]
    exact closed a member b needed
  rw [same] at ordered
  rcases List.mem_append.mp inside with before | after
  · exact before
  · rcases List.mem_cons.mp after with rfl | behind
    · exact absurd needed (irreflexive b)
    · have second := (List.pairwise_append.mp ordered).2.1
      exact absurd needed (List.rel_of_pairwise_cons second behind)

end Peeled

theorem Behind.transGen {out : List V} (behind : Behind needs out) {a b : V}
    (path : TransGen needs a b) :
    ∀ front back, out = front ++ a :: back → b ∈ front := by
  induction path with
  | single needed => exact fun front back same => behind front a back same _ needed
  | tail first needed ih =>
    intro front back same
    obtain ⟨one, two, split⟩ := List.append_of_mem (ih front back same)
    have here := behind one _ (two ++ a :: back) (by rw [same, split, List.append_assoc]; rfl) _
      needed
    rw [split]
    exact List.mem_append_left _ here

theorem Behind.acyclic {out : List V} (behind : Behind needs out) (nodup : out.Nodup) {a : V}
    (member : a ∈ out) : ¬TransGen needs a a := by
  intro cycle
  obtain ⟨front, back, same⟩ := List.append_of_mem member
  have before := behind.transGen cycle front back same
  rw [same] at nodup
  exact (List.nodup_append.mp nodup).2.2 a before a List.mem_cons_self rfl

theorem exists_cycle {left : List V} (some : left ≠ [])
    (each : ∀ a ∈ left, ∃ b ∈ left, needs b a) : ∃ a ∈ left, TransGen needs a a := by
  by_contra none
  have irreflexive : Std.Irrefl fun a b : {a // a ∈ left} => TransGen needs a.1 b.1 :=
    ⟨fun a cycle => none ⟨a.1, a.2, cycle⟩⟩
  have transitive : IsTrans {a // a ∈ left} fun a b => TransGen needs a.1 b.1 :=
    ⟨fun a b c first second => first.trans second⟩
  have finite : Finite {a // a ∈ left} := (List.finite_toSet left).to_subtype
  have founded := Finite.wellFounded_of_trans_of_irrefl
    fun a b : {a // a ∈ left} => TransGen needs a.1 b.1
  -- there would always be one more that needs the last one
  have nowhere : ∀ a : {a // a ∈ left}, False := by
    intro a
    induction a using founded.induction with
    | h a ih =>
      obtain ⟨b, member, needed⟩ := each a.1 a.2
      exact ih ⟨b, member⟩ (TransGen.single needed)
  obtain ⟨a, member⟩ := List.exists_mem_of_ne_nil left some
  exact nowhere ⟨a, member⟩

end GnuRadio.Peeling
