import Mathlib.Data.List.Infix

/-!
# Process networks

Every channel carries a growing stream, written by a process that has been shown the streams of
other channels. A process never takes back what more input would not have given, and all that it may
write goes one way. Then the order in which the processes write does not matter: any two runs agree,
and a run in which nothing is left to write has the streams of all others in its own.
-/

namespace GnuRadio

variable {ι κ ω α : Type}

/-- What a process with inputs `ι` may have written at an output `κ` after being shown the
beginnings of its inputs. -/
structure Process (ι κ α : Type) where
  emits : (ι → List α) → κ → List α → Prop
  mono : ∀ {shown more o u}, (∀ i, shown i <+: more i) → emits shown o u → emits more o u
  agree : ∀ {shown o u v}, emits shown o u → emits shown o v → u <+: v ∨ v <+: u

/-- The process that writes a function of its inputs, as far as they are known. -/
def Process.ofFun (f : (ι → List α) → κ → List α)
    (mono : ∀ shown more, (∀ i, shown i <+: more i) → ∀ o, f shown o <+: f more o) :
    Process ι κ α where
  emits shown o u := u <+: f shown o
  mono longer written := written.trans (mono _ _ longer _)
  agree first second := List.prefix_or_prefix_of_prefix first second

/-- Each channel is written by a process that is shown all channels. -/
abbrev Network (ω α : Type) := Process ω ω α

namespace Network

variable {N : Network ω α} {s t : ω → List α}

/-- The streams that any order of writing leads to. -/
inductive Reaches (N : Network ω α) : (ω → List α) → Prop
  | start : Reaches N fun _ => []
  | step {s t : ω → List α} (reached : Reaches N s)
      (written : ∀ c, t c = s c ∨ s c <+: t c ∧ N.emits s c (t c)) : Reaches N t

/-- No process has anything left to write. -/
def Exhausted (N : Network ω α) (s : ω → List α) : Prop := ∀ c u, N.emits s c u → u <+: s c

theorem Reaches.emitted (reached : N.Reaches s) (c : ω) : s c = [] ∨ N.emits s c (s c) := by
  induction reached with
  | start => exact Or.inl rfl
  | @step s t reached written ih =>
    have grows : ∀ d, s d <+: t d := fun d => by
      rcases written d with same | ⟨longer, -⟩
      · rw [same]
      · exact longer
    rcases written c with same | ⟨-, emitted⟩
    · rw [same]
      exact ih.imp_right (N.mono grows)
    · exact Or.inr (N.mono grows emitted)

/-- The streams of two runs never contradict each other. -/
theorem Reaches.agree (first : N.Reaches s) (second : N.Reaches t) (c : ω) :
    s c <+: t c ∨ t c <+: s c := by
  induction first generalizing c with
  | start => exact Or.inl List.nil_prefix
  | @step s s' reached written ih =>
    rcases written c with same | ⟨longer, emitted⟩
    · rw [same]
      exact ih c
    · -- both streams are written by one process that is shown the longer stream of each channel
      let joined : ω → List α := fun d => if (s d).length ≤ (t d).length then t d else s d
      have here : ∀ d, s d <+: joined d ∧ t d <+: joined d := by
        intro d
        simp only [joined]
        split
        · rename_i short
          refine ⟨(ih d).elim id fun other => ?_, List.prefix_rfl⟩
          rw [other.eq_of_length_le short]
        · rename_i long
          refine ⟨List.prefix_rfl, (ih d).elim (fun other => ?_) id⟩
          exact absurd other.length_le long
      rcases second.emitted c with empty | emitted'
      · rw [empty]
        exact Or.inr List.nil_prefix
      · exact N.agree (N.mono (fun d => (here d).1) emitted) (N.mono (fun d => (here d).2) emitted')

theorem Reaches.prefix_exhausted (reached : N.Reaches s) (exhausted : N.Exhausted t) (c : ω) :
    s c <+: t c := by
  induction reached generalizing c with
  | start => exact List.nil_prefix
  | step _ written ih =>
    rcases written c with same | ⟨-, emitted⟩
    · rw [same]
      exact ih c
    · exact exhausted c _ (N.mono ih emitted)

end Network

end GnuRadio
