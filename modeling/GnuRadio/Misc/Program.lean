import Mathlib.Init

/-!
# Programs with a state that may throw

`Program σ ε α` is the meaning of code that changes a state of type `σ` and either
returns an `α` or throws an `ε`; what was changed before an exception stays
changed. `Returns p s a t` says that `p` started in `s` returns `a` and leaves
`t`; the rules below take a run apart along the program text.
-/

namespace GnuRadio

/-- Code with a state and exceptions. -/
abbrev Program (σ ε α : Type) := ExceptT ε (StateM σ) α

namespace Program

variable {σ ε α β : Type}

/-- The outcome of a program and the state it leaves. -/
def exec (p : Program σ ε α) (s : σ) : Except ε α × σ := (ExceptT.run p).run s

/-- Started in `s`, the program returns `a` and leaves `t`. -/
def Returns (p : Program σ ε α) (s : σ) (a : α) (t : σ) : Prop := p.exec s = (.ok a, t)

theorem exec_bind (p : Program σ ε α) (f : α → Program σ ε β) (s : σ) :
    (p >>= f).exec s = match p.exec s with
      | (.ok a, t) => (f a).exec t
      | (.error e, t) => (.error e, t) := by
  change (StateT.run (ExceptT.run p >>= ExceptT.bindCont f) s : Except ε β × σ) = _
  rw [StateT.run_bind]
  change StateT.run (ExceptT.bindCont f (p.exec s).1) (p.exec s).2 = _
  rcases p.exec s with ⟨result, t⟩
  cases result <;> rfl

variable {p : Program σ ε α} {f : α → Program σ ε β} {s t : σ} {a : α}

theorem returns_bind {u : σ} {b : β} :
    Returns (p >>= f) s b u ↔ ∃ a t, Returns p s a t ∧ Returns (f a) t b u := by
  unfold Returns
  rw [exec_bind]
  rcases p.exec s with ⟨e | a, t⟩
  · simp
  · constructor
    · exact fun rest => ⟨a, t, rfl, rest⟩
    · rintro ⟨a', t', same, rest⟩
      cases same
      exact rest

theorem Returns.bind {u : σ} {b : β} (first : Returns p s a t) (rest : Returns (f a) t b u) :
    Returns (p >>= f) s b u :=
  returns_bind.mpr ⟨a, t, first, rest⟩

theorem returns_pure {b : α} : Returns (pure a : Program σ ε α) s b t ↔ a = b ∧ s = t := by
  change ((Except.ok a, s) : Except ε α × σ) = (.ok b, t) ↔ _
  rw [Prod.mk.injEq, Except.ok.injEq]

theorem Returns.pure (a : α) (s : σ) : Returns (Pure.pure a : Program σ ε α) s a s :=
  returns_pure.mpr ⟨rfl, rfl⟩

theorem Returns.get (s : σ) : Returns (MonadState.get : Program σ ε σ) s s s := rfl

theorem Returns.set (s t : σ) : Returns (MonadStateOf.set t : Program σ ε PUnit) s ⟨⟩ t := rfl

theorem Returns.change (f : σ → σ) (s : σ) :
    Returns (modify f : Program σ ε PUnit) s ⟨⟩ (f s) := rfl

theorem not_returns_throw {e : ε} : ¬ Returns (throw e : Program σ ε α) s a t := by
  intro returned
  have outcome : (Except.error e : Except ε α) = .ok a := congrArg Prod.fst returned
  cases outcome

theorem returns_ite {c : Prop} [Decidable c] {q : Program σ ε α} :
    Returns (if c then p else q) s a t ↔ c ∧ Returns p s a t ∨ ¬c ∧ Returns q s a t := by
  split <;> simp [*]

theorem returns_ite_throw {c : Prop} [Decidable c] {e : ε} :
    Returns (if c then throw e else p) s a t ↔ ¬c ∧ Returns p s a t := by
  simp only [returns_ite, not_returns_throw, and_false, false_or]

theorem returns_ofExcept {x : Except ε α} :
    Returns (MonadExcept.ofExcept x : Program σ ε α) s a t ↔ x = .ok a ∧ s = t := by
  cases x with
  | error e =>
    simp only [reduceCtorEq, false_and, iff_false]
    exact not_returns_throw
  | ok b =>
    rw [Except.ok.injEq]
    exact returns_pure

@[simp] theorem exec_pure (a : α) (s : σ) : (pure a : Program σ ε α).exec s = (.ok a, s) := rfl

@[simp] theorem exec_throw (e : ε) (s : σ) :
    (throw e : Program σ ε α).exec s = (.error e, s) := rfl

@[simp] theorem exec_get (s : σ) : (MonadState.get : Program σ ε σ).exec s = (.ok s, s) := rfl

@[simp] theorem exec_set (s t : σ) :
    (MonadStateOf.set t : Program σ ε PUnit).exec s = (.ok ⟨⟩, t) := rfl

@[simp] theorem exec_modify (f : σ → σ) (s : σ) :
    (modify f : Program σ ε PUnit).exec s = (.ok ⟨⟩, f s) := rfl

@[simp] theorem exec_ofExcept (x : Except ε α) (s : σ) :
    (MonadExcept.ofExcept x : Program σ ε α).exec s = (x, s) := by
  cases x <;> rfl

theorem Returns.unique {t' : σ} {a' : α} (one : Returns p s a t) (two : Returns p s a' t') :
    a = a' ∧ t = t' := by
  have same := one.symm.trans two
  rwa [Prod.mk.injEq, Except.ok.injEq] at same

/-! ## Programs that throw before they change anything -/

/-- The program changes nothing. -/
def ReadOnly (p : Program σ ε α) : Prop := ∀ s, (p.exec s).2 = s

/-- When the program throws, the state is as it was. -/
def Atomic (p : Program σ ε α) : Prop := ∀ s e t, p.exec s = (.error e, t) → t = s

theorem ReadOnly.atomic (readOnly : ReadOnly p) : Atomic p := by
  intro s e t thrown
  rw [← readOnly s, thrown]

theorem readOnly_pure (a : α) : ReadOnly (pure a : Program σ ε α) := fun _ => rfl

theorem readOnly_get : ReadOnly (MonadState.get : Program σ ε σ) := fun _ => rfl

theorem readOnly_throw (e : ε) : ReadOnly (throw e : Program σ ε α) := fun _ => rfl

theorem readOnly_ofExcept (x : Except ε α) :
    ReadOnly (MonadExcept.ofExcept x : Program σ ε α) := by
  intro s
  rw [exec_ofExcept]

theorem ReadOnly.bind (readOnly : ReadOnly p) (rest : ∀ a, ReadOnly (f a)) :
    ReadOnly (p >>= f) := by
  intro s
  have same := readOnly s
  rw [exec_bind]
  rcases result : p.exec s with ⟨e | a, t⟩
  · rw [result] at same
    exact same
  · rw [result] at same
    exact (rest a t).trans same

theorem atomic_modify (f : σ → σ) : Atomic (modify f : Program σ ε PUnit) := by
  intro s e t thrown
  cases congrArg Prod.fst thrown

theorem ReadOnly.bind_atomic (readOnly : ReadOnly p) (rest : ∀ a, Atomic (f a)) :
    Atomic (p >>= f) := by
  intro s e u thrown
  have same := readOnly s
  rw [exec_bind] at thrown
  rcases result : p.exec s with ⟨e' | a, t⟩
  · rw [result] at thrown same
    rw [← same, ← (Prod.mk.inj thrown).2]
  · rw [result] at thrown same
    rw [← same]
    exact rest a t e u thrown

end Program

end GnuRadio

/-!
## Two programs side by side

`Coupled R Q p q` says that `p` and `q`, started in states that `R` relates, end
both with an exception, which is the same, or both with results that `Q` relates,
and leave states that `R` relates. The rules follow the text of both programs.
-/

namespace GnuRadio

namespace Program

variable {σ τ ε α β γ δ : Type}

/-- The same exception, or related results. -/
inductive Agree (Q : α → β → Prop) : Except ε α → Except ε β → Prop
  | ok {a : α} {b : β} (related : Q a b) : Agree Q (.ok a) (.ok b)
  | error (e : ε) : Agree Q (.error e) (.error e)

theorem Agree.eq {x y : Except ε α} (agree : Agree Eq x y) : x = y := by
  cases agree with
  | ok same => rw [same]
  | error e => rfl

/-- What two programs do in related states. -/
def Coupled (R : σ → τ → Prop) (Q : α → β → Prop) (p : Program σ ε α) (q : Program τ ε β) : Prop :=
  ∀ s t, R s t → Agree Q (p.exec s).1 (q.exec t).1 ∧ R (p.exec s).2 (q.exec t).2

variable {R : σ → τ → Prop}

variable {Q : α → β → Prop} {p : Program σ ε α} {q : Program τ ε β}

theorem Coupled.pure {a : α} {b : β} (related : Q a b) :
    Coupled R Q (Pure.pure a : Program σ ε α) (Pure.pure b : Program τ ε β) :=
  fun _ _ same => ⟨.ok related, same⟩

theorem Coupled.throw (Q : α → β → Prop) (e : ε) :
    Coupled R Q (MonadExcept.throw e : Program σ ε α) (MonadExcept.throw e : Program τ ε β) :=
  fun _ _ same => ⟨.error e, same⟩

theorem Coupled.ofExcept (x : Except ε α) :
    Coupled R Eq (MonadExcept.ofExcept x : Program σ ε α)
      (MonadExcept.ofExcept x : Program τ ε α) := by
  intro s t same
  rw [exec_ofExcept, exec_ofExcept]
  refine ⟨?_, same⟩
  cases x with
  | error e => exact .error e
  | ok a => exact .ok rfl

theorem Coupled.get : Coupled R R (MonadState.get : Program σ ε σ) (MonadState.get : Program τ ε τ) :=
  fun _ _ same => ⟨.ok same, same⟩

theorem Coupled.bind {Q' : γ → δ → Prop} {f : α → Program σ ε γ} {g : β → Program τ ε δ}
    (first : Coupled R Q p q) (rest : ∀ a b, Q a b → Coupled R Q' (f a) (g b)) :
    Coupled R Q' (p >>= f) (q >>= g) := by
  intro s t same
  obtain ⟨agree, left⟩ := first s t same
  rw [exec_bind, exec_bind]
  rcases one : p.exec s with ⟨x, s'⟩
  rcases two : q.exec t with ⟨y, t'⟩
  rw [one, two] at agree left
  cases agree with
  | error e => exact ⟨.error e, left⟩
  | ok related => exact rest _ _ related s' t' left

theorem Coupled.ite {c : Prop} [Decidable c] {p' : Program σ ε α} {q' : Program τ ε β}
    (yes : c → Coupled R Q p q) (no : ¬c → Coupled R Q p' q') :
    Coupled R Q (if c then p else p') (if c then q else q') := by
  split
  · exact yes ‹_›
  · exact no ‹_›

theorem Coupled.forM {f : γ → Program σ ε PUnit} {g : γ → Program τ ε PUnit} (l : List γ)
    (each : ∀ x ∈ l, Coupled R Eq (f x) (g x)) : Coupled R Eq (l.forM f) (l.forM g) := by
  induction l with
  | nil => exact Coupled.pure rfl
  | cons x l ih =>
    refine (each x List.mem_cons_self).bind ?_
    intro _ _ _
    exact ih fun y member => each y (List.mem_cons_of_mem x member)

end Program

end GnuRadio
