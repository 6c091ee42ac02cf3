/-!
# Calls that may throw

Inversion of the sequencing of `Except` calls, and of loops over a list in which
every round may throw.
-/

namespace GnuRadio

variable {ε α β σ : Type}

variable {x : Except ε α} {a : α} {f : σ → α → Except ε σ} {s t : σ} {l : List α}

theorem bind_ok {f : α → Except ε β} {r : β} : x >>= f = .ok r ↔ ∃ a, x = .ok a ∧ f a = .ok r := by
  cases x with
  | error e => simp [bind, Except.bind]
  | ok a => simp [bind, Except.bind]

theorem ok_bind (a : α) (f : α → Except ε β) : (Except.ok a >>= f) = f a := rfl

theorem pure_ok {b : α} : (pure a : Except ε α) = .ok b ↔ a = b := by
  simp [pure, Except.pure]

theorem toOption_some : x.toOption = some a ↔ x = .ok a := by
  cases x <;> simp [Except.toOption]

theorem foldlM_cons_ok :
    (a :: l).foldlM f s = .ok t ↔ ∃ u, f s a = .ok u ∧ l.foldlM f u = .ok t := by
  rw [List.foldlM_cons, bind_ok]

theorem foldlM_append_ok {m : List α} :
    (l ++ m).foldlM f s = .ok t ↔ ∃ u, l.foldlM f s = .ok u ∧ m.foldlM f u = .ok t := by
  rw [List.foldlM_append, bind_ok]

theorem foldlM_singleton_ok : [a].foldlM f s = .ok t ↔ f s a = .ok t := by
  rw [List.foldlM_cons]
  cases f s a <;> simp [bind, Except.bind, pure, Except.pure]

theorem foldlM_flatMap {f : σ → β → Except ε σ} {g : α → List β} (l : List α) (s : σ) :
    (l.flatMap g).foldlM f s = l.foldlM (fun s a => (g a).foldlM f s) s := by
  induction l generalizing s with
  | nil => rfl
  | cons a l ih =>
    rw [List.flatMap_cons, List.foldlM_append, List.foldlM_cons]
    congr 1
    funext t
    exact ih t

theorem foldlM_congr {g : σ → α → Except ε σ} (same : ∀ s, ∀ a ∈ l, f s a = g s a) (s : σ) :
    l.foldlM f s = l.foldlM g s := by
  induction l generalizing s with
  | nil => rfl
  | cons a l ih =>
    rw [List.foldlM_cons, List.foldlM_cons, same s a List.mem_cons_self]
    congr 1
    funext t
    exact ih (fun s b member => same s b (List.mem_cons_of_mem a member)) t

theorem foldlM_invariant (I : σ → Prop) (kept : ∀ s t, ∀ a ∈ l, I s → f s a = .ok t → I t)
    (initial : I s) (looped : l.foldlM f s = .ok t) : I t := by
  induction l generalizing s with
  | nil => exact Except.ok.inj looped ▸ initial
  | cons a l ih =>
    obtain ⟨u, first, rest⟩ := foldlM_cons_ok.mp looped
    exact ih (fun s t b member => kept s t b (List.mem_cons_of_mem a member))
      (kept s u a List.mem_cons_self initial first) rest

theorem foldlM_history (I : List α → σ → Prop) (initial : I [] s)
    (kept : ∀ done u v, ∀ a ∈ l, I done u → f u a = .ok v → I (done ++ [a]) v)
    (looped : l.foldlM f s = .ok t) : I l t := by
  have general : ∀ (m done : List α) (u : σ), (∀ a ∈ m, a ∈ l) → I done u →
      m.foldlM f u = .ok t → I (done ++ m) t := by
    intro m
    induction m with
    | nil =>
      intro done u _ known rest
      rw [List.append_nil]
      exact Except.ok.inj rest ▸ known
    | cons a m ih =>
      intro done u inside known rest
      obtain ⟨v, first, rest⟩ := foldlM_cons_ok.mp rest
      have next := ih (done ++ [a]) v (fun b member => inside b (List.mem_cons_of_mem a member))
        (kept done u v a (inside a List.mem_cons_self) known first) rest
      rwa [List.append_assoc] at next
  exact general l [] s (fun a member => member) initial looped

theorem foldlM_related {τ : Type} {g : τ → α → Except ε τ} (R : σ → τ → Prop)
    (kept : ∀ s t s', ∀ a ∈ l, R s t → f s a = .ok s' → ∃ t', g t a = .ok t' ∧ R s' t') {s' : σ}
    {t : τ} (initial : R s t) (looped : l.foldlM f s = .ok s') :
    ∃ t', l.foldlM g t = .ok t' ∧ R s' t' := by
  induction l generalizing s t with
  | nil => exact ⟨t, rfl, Except.ok.inj looped ▸ initial⟩
  | cons a l ih =>
    obtain ⟨u, first, rest⟩ := foldlM_cons_ok.mp looped
    obtain ⟨v, first', mid⟩ := kept s t u a List.mem_cons_self initial first
    obtain ⟨t', rest', last⟩ :=
      ih (fun s t s' b member => kept s t s' b (List.mem_cons_of_mem a member)) mid rest
    exact ⟨t', foldlM_cons_ok.mpr ⟨v, first', rest'⟩, last⟩

theorem foldlM_mem (looped : l.foldlM f s = .ok t) (member : a ∈ l) : ∃ u v, f u a = .ok v := by
  induction l generalizing s with
  | nil => cases member
  | cons b l ih =>
    obtain ⟨u, first, rest⟩ := foldlM_cons_ok.mp looped
    rcases List.mem_cons.mp member with rfl | member
    · exact ⟨s, u, first⟩
    · exact ih rest member

theorem foldlM_total (I : σ → Prop) (total : ∀ s, ∀ a ∈ l, I s → ∃ t, f s a = .ok t ∧ I t)
    (initial : I s) : ∃ t, l.foldlM f s = .ok t ∧ I t := by
  induction l generalizing s with
  | nil => exact ⟨s, rfl, initial⟩
  | cons a l ih =>
    obtain ⟨u, first, mid⟩ := total s a List.mem_cons_self initial
    obtain ⟨t, rest, last⟩ := ih (fun s b member => total s b (List.mem_cons_of_mem a member)) mid
    exact ⟨t, foldlM_cons_ok.mpr ⟨u, first, rest⟩, last⟩

theorem foldlM_returns (total : ∀ s, ∀ a ∈ l, ∃ t, f s a = .ok t) (s : σ) :
    ∃ t, l.foldlM f s = .ok t := by
  obtain ⟨t, looped, -⟩ := foldlM_total (fun _ => True) (fun s a member _ =>
    (total s a member).imp fun _ done => ⟨done, trivial⟩) (trivial : (fun _ => True) s)
  exact ⟨t, looped⟩

variable {f : α → Except ε β} {r : List β} {P : ε → Prop}

theorem mapM_ok (mapped : l.mapM f = .ok r) (i : Nat) : r[i]?.map Except.ok = l[i]?.map f := by
  induction l generalizing r i with
  | nil =>
    rw [List.mapM_nil, pure_ok] at mapped
    subst mapped
    rfl
  | cons a l ih =>
    rw [List.mapM_cons] at mapped
    obtain ⟨b, first, mapped⟩ := bind_ok.mp mapped
    obtain ⟨bs, rest, same⟩ := bind_ok.mp mapped
    obtain rfl := pure_ok.mp same
    cases i with
    | zero => simp [first]
    | succ i => simpa using ih rest i

theorem mapM_length (mapped : l.mapM f = .ok r) : r.length = l.length := by
  have each : r.map Except.ok = l.map f := by
    refine List.ext_getElem? fun i => ?_
    rw [List.getElem?_map, List.getElem?_map, mapM_ok mapped i]
  simpa using congrArg List.length each

theorem mapM_bind_pure {γ : Type} (g : β → γ) (l : List α) :
    (l.mapM fun a => do let b ← f a; return g b) = do let bs ← l.mapM f; return bs.map g := by
  induction l with
  | nil => rfl
  | cons a l ih =>
    rw [List.mapM_cons, List.mapM_cons, ih]
    cases f a with
    | error e => rfl
    | ok b => cases l.mapM f <;> rfl

theorem foldlM_bind_pure (g : α → Except ε β) (h : σ → α → β → σ) (l : List α) (s : σ) :
    l.foldlM (fun s a => do let b ← g a; return h s a b) s =
      do let bs ← l.mapM g; return (l.zip bs).foldl (fun s (a, b) => h s a b) s := by
  induction l generalizing s with
  | nil => rfl
  | cons a l ih =>
    rw [List.foldlM_cons, List.mapM_cons]
    cases g a with
    | error e => rfl
    | ok b =>
      have rest := ih (h s a b)
      cases known : l.mapM g with
      | error e => rwa [known] at rest
      | ok bs => rwa [known] at rest

theorem mapM_total (total : ∀ a ∈ l, ∃ b, f a = .ok b) : ∃ r, l.mapM f = .ok r := by
  induction l with
  | nil => exact ⟨[], rfl⟩
  | cons a l ih =>
    obtain ⟨b, first⟩ := total a List.mem_cons_self
    obtain ⟨bs, rest⟩ := ih fun a' member => total a' (List.mem_cons_of_mem a member)
    refine ⟨b :: bs, ?_⟩
    rw [List.mapM_cons]
    exact bind_ok.mpr ⟨b, first, bind_ok.mpr ⟨bs, rest, rfl⟩⟩

theorem mapM_mem (mapped : l.mapM f = .ok r) (member : a ∈ l) : ∃ b ∈ r, f a = .ok b := by
  obtain ⟨i, inside, rfl⟩ := List.mem_iff_getElem.mp member
  have each := mapM_ok mapped i
  rw [List.getElem?_eq_getElem inside, Option.map_some, Option.map_eq_some_iff] at each
  obtain ⟨b, there, same⟩ := each
  exact ⟨b, List.mem_of_getElem? there, same.symm⟩

theorem mem_mapM (mapped : l.mapM f = .ok r) {b : β} (member : b ∈ r) : ∃ a ∈ l, f a = .ok b := by
  obtain ⟨i, inside, rfl⟩ := List.mem_iff_getElem.mp member
  have each := (mapM_ok mapped i).symm
  rw [List.getElem?_eq_getElem inside, Option.map_some, Option.map_eq_some_iff] at each
  obtain ⟨a, there, same⟩ := each
  exact ⟨a, List.mem_of_getElem? there, same⟩

theorem mapM_eq_map {g : α → β} (mapped : l.mapM f = .ok r)
    (same : ∀ a ∈ l, ∀ b, f a = .ok b → b = g a) : r = l.map g := by
  apply List.ext_getElem?
  intro i
  have each := mapM_ok mapped i
  rw [List.getElem?_map]
  cases here : l[i]? with
  | none =>
    rw [here, Option.map_none, Option.map_eq_none_iff] at each
    rw [each, Option.map_none]
  | some a =>
    rw [here, Option.map_some, Option.map_eq_some_iff] at each
    obtain ⟨b, there, result⟩ := each
    rw [there, Option.map_some, same a (List.mem_of_getElem? here) b result.symm]

/-! ## What may be thrown -/

/-- If the call throws, then something of this kind. -/
def Raises (P : ε → Prop) (x : Except ε α) : Prop := ∀ e, x = .error e → P e

theorem raises_ok (P : ε → Prop) (a : α) : Raises P (.ok a : Except ε α) := by
  intro e same
  cases same

theorem raises_error {e : ε} (kind : P e) : Raises P (.error e : Except ε α) := by
  intro e' same
  cases same
  exact kind

theorem raises_bind (first : Raises P x) (rest : ∀ a, x = .ok a → Raises P (f a)) :
    Raises P (x >>= f) := by
  cases x with
  | error e => exact fun e' same => first e' (congrArg Except.error (Except.error.inj same))
  | ok a => exact rest a rfl

theorem raises_foldlM {f : σ → α → Except ε σ} (each : ∀ s, ∀ a ∈ l, Raises P (f s a)) (s : σ) :
    Raises P (l.foldlM f s) := by
  induction l generalizing s with
  | nil => exact raises_ok P s
  | cons a l ih =>
    rw [List.foldlM_cons]
    exact raises_bind (each s a List.mem_cons_self)
      fun t _ => ih (fun s b member => each s b (List.mem_cons_of_mem a member)) t

theorem raises_mapM (each : ∀ a ∈ l, Raises P (f a)) : Raises P (l.mapM f) := by
  induction l with
  | nil => exact raises_ok P []
  | cons a l ih =>
    rw [List.mapM_cons]
    refine raises_bind (each a List.mem_cons_self) fun b _ => ?_
    exact raises_bind (ih fun a' member => each a' (List.mem_cons_of_mem a member))
      fun bs _ => raises_ok P _

/-! ## Loops over an array -/

/-- One call for each place of an array. -/
def sequence : {n : Nat} → (Fin n → Except ε α) → Except ε (Fin n → α)
  | 0, _ => .ok Fin.elim0
  | _ + 1, f => do
      let x ← f 0
      let rest ← sequence fun i => f i.succ
      return Fin.cases x rest

theorem sequence_ok {n : Nat} {f : Fin n → Except ε α} {g : Fin n → α} (each : ∀ i, f i = .ok (g i)) :
    sequence f = .ok g := by
  induction n with
  | zero => exact congrArg Except.ok (funext fun i => i.elim0)
  | succ n ih =>
    rw [sequence, each 0, ok_bind, ih fun i => each i.succ, ok_bind]
    refine congrArg Except.ok (funext fun i => ?_)
    induction i using Fin.cases <;> rfl

end GnuRadio
