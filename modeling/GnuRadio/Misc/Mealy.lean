import Mathlib.Data.Nat.Notation

/-!
# Machines with an output for each input

A machine that reads a word from a state ends in a state and puts out a word of the same
length. One machine steps through blocks of another when each of its inputs stands for a word
of the other's inputs.
-/

namespace GnuRadio

/-- A machine that puts out a symbol with each transition. -/
structure Mealy (σ α β : Type) where
  next : σ → α → σ
  output : σ → α → β

namespace Mealy

variable {σ α β : Type} (M : Mealy σ α β)

def after (s : σ) (us : List α) : σ := us.foldl M.next s

def outputs : σ → List α → List β
  | _, [] => []
  | s, u :: us => M.output s u :: outputs (M.next s u) us

@[simp] theorem after_nil (s : σ) : M.after s [] = s := rfl

@[simp] theorem after_cons (s : σ) (u : α) (us : List α) :
    M.after s (u :: us) = M.after (M.next s u) us := rfl

theorem after_append (s : σ) (us vs : List α) :
    M.after s (us ++ vs) = M.after (M.after s us) vs :=
  List.foldl_append

@[simp] theorem outputs_nil (s : σ) : M.outputs s [] = [] := rfl

@[simp] theorem outputs_cons (s : σ) (u : α) (us : List α) :
    M.outputs s (u :: us) = M.output s u :: M.outputs (M.next s u) us := rfl

theorem outputs_append (s : σ) (us vs : List α) :
    M.outputs s (us ++ vs) = M.outputs s us ++ M.outputs (M.after s us) vs := by
  induction us generalizing s with
  | nil => rfl
  | cons u us ih => simp [ih]

@[simp] theorem length_outputs (s : σ) (us : List α) : (M.outputs s us).length = us.length := by
  induction us generalizing s with
  | nil => rfl
  | cons u us ih => simp [ih]

theorem getElem?_outputs (s : σ) (us : List α) (i : ℕ) :
    (M.outputs s us)[i]? = us[i]?.map (M.output (M.after s (us.take i))) := by
  induction us generalizing s i with
  | nil => simp
  | cons u us ih => cases i <;> simp [ih]

theorem after_mem {S : σ → Prop} {U : α → Prop} (kept : ∀ s u, S s → U u → S (M.next s u)) {s : σ}
    (inside : S s) {us : List α} (valid : ∀ u ∈ us, U u) : S (M.after s us) := by
  induction us generalizing s with
  | nil => exact inside
  | cons u us ih =>
    exact ih (kept s u inside (valid u List.mem_cons_self))
      fun v member => valid v (List.mem_cons_of_mem u member)

section Blocks

variable {τ γ δ : Type} {N : Mealy τ γ δ} {S : τ → Prop} {U : γ → Prop} {state : τ → σ}
  {expand : γ → List α} {unpack : δ → List β}

/-- Each input of `N` stands for a word of inputs of `M`, and its output for a word of outputs. -/
structure Blocks (N : Mealy τ γ δ) (S : τ → Prop) (U : γ → Prop) (state : τ → σ)
    (expand : γ → List α) (unpack : δ → List β) : Prop where
  kept : ∀ t c, S t → U c → S (N.next t c)
  next : ∀ t c, S t → U c → M.after (state t) (expand c) = state (N.next t c)
  output : ∀ t c, S t → U c → M.outputs (state t) (expand c) = unpack (N.output t c)

variable {M}

theorem Blocks.run (blocks : M.Blocks N S U state expand unpack) {t : τ} (inside : S t)
    {cs : List γ} (valid : ∀ c ∈ cs, U c) :
    M.after (state t) (cs.flatMap expand) = state (N.after t cs) ∧
      M.outputs (state t) (cs.flatMap expand) = (N.outputs t cs).flatMap unpack := by
  induction cs generalizing t with
  | nil => exact ⟨rfl, rfl⟩
  | cons c cs ih =>
    have first := valid c List.mem_cons_self
    obtain ⟨ends, puts⟩ := ih (blocks.kept t c inside first)
      fun d member => valid d (List.mem_cons_of_mem c member)
    constructor
    · rw [List.flatMap_cons, after_append, blocks.next t c inside first, ends, after_cons]
    · rw [List.flatMap_cons, outputs_append, blocks.next t c inside first, puts,
        blocks.output t c inside first, outputs_cons, List.flatMap_cons]

end Blocks

end Mealy

end GnuRadio
