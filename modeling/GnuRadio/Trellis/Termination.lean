import GnuRadio.Misc.Relaxation
import GnuRadio.Trellis.Encoder

/-!
# The termination tables

`generate_TM` fills two tables, one entry for each pair of states: how many steps lead from the
first to the second, and the input of the first of them. A column belongs to a final state and is
filled by sweeps over the states, in place.
-/

namespace GnuRadio

/-- `d_TMl` and `d_TMi` (`fsm.h:46-47`), by their flat indices. -/
structure TM where
  TMl : ℕ → ℕ
  TMi : ℕ → ℤ

namespace Fsm

variable (f : Fsm)

/-- The tables before the first column (`fsm.cc:403-411`). -/
def initialTM : TM where
  TMl := fun i => if i / f.S = i % f.S then 0 else f.S
  TMi := fun _ => -1

/-- One state in the loop of `find_es` (`fsm.cc:433-448`). -/
def findEsState (es : ℕ) (state : TM × Bool) (s : ℕ) : TM × Bool :=
  let (tm, done) := state
  if tm.TMl (s * f.S + es) < f.S then (tm, done)
  else
    let (minl, mini) := (List.range f.I).foldl (fun (minl, mini) i =>
      if 1 + tm.TMl (f.next s i * f.S + es) < minl then
        (1 + tm.TMl (f.next s i * f.S + es), (i : ℤ))
      else (minl, mini)) (f.S, -1)
    if mini ≠ -1 then
      (⟨Function.update tm.TMl (s * f.S + es) minl, Function.update tm.TMi (s * f.S + es) mini⟩,
        done)
    else (tm, false)

/-- `find_es` (`fsm.cc:430-452`). -/
def findEs (es : ℕ) (tm : TM) : TM × Bool :=
  (List.range f.S).foldl (f.findEsState es) (tm, true)

/-- The `while` loop of `generate_TM` (`fsm.cc:416-419`), with the attempts that are left. -/
def attempt (es : ℕ) : ℕ → TM → Bool → TM × Bool
  | 0, tm, done => (tm, done)
  | left + 1, tm, done =>
    if done then (tm, done)
    else
      let (tm, done) := f.findEs es tm
      attempt es left tm done

/-- `generate_TM` (`fsm.cc:401-426`). -/
def generateTM : TM :=
  (List.range f.S).foldl (fun tm s => (f.attempt s (f.S - 1) tm false).1) f.initialTM

/-- The entries of a final state. -/
def column (tm : TM) (es : ℕ) : Relaxation.Column where
  len := fun s => tm.TMl (s * f.S + es)
  first := fun s => tm.TMi (s * f.S + es)

variable {f}

/-! ## A column by itself -/

variable {es s other is : ℕ} {tm : TM} {done : Bool}

theorem column_initialTM (below : es < f.S) :
    f.column f.initialTM es = Relaxation.initial f.S es := by
  have pos : 0 < f.S := Nat.zero_lt_of_lt below
  simp only [column, initialTM, Relaxation.initial]
  congr 1
  funext s
  rw [packed_div below, packed_mod below]

theorem same_row {t : ℕ} (below : es < f.S) : t * f.S + es = s * f.S + es ↔ t = s := by
  constructor
  · intro same
    exact Nat.eq_of_mul_eq_mul_right (Nat.zero_lt_of_lt below) (Nat.add_right_cancel same)
  · intro same
    rw [same]

theorem other_column {t : ℕ} (below : es < f.S) (below' : other < f.S) (differ : other ≠ es) :
    t * f.S + other ≠ s * f.S + es := by
  intro same
  have column := congrArg (· % f.S) same
  simp only [packed_mod below, packed_mod below'] at column
  exact differ column

theorem findEsState_eq (es : ℕ) (tm : TM) (done : Bool) (s : ℕ) :
    f.findEsState es (tm, done) s =
      if (f.column tm es).len s < f.S then (tm, done)
      else if (Relaxation.best f.I f.S f.next (f.column tm es) s).2 ≠ -1 then
        (⟨Function.update tm.TMl (s * f.S + es)
            (Relaxation.best f.I f.S f.next (f.column tm es) s).1,
          Function.update tm.TMi (s * f.S + es)
            (Relaxation.best f.I f.S f.next (f.column tm es) s).2⟩, done)
      else (tm, false) :=
  rfl

theorem findEsState_column (below : es < f.S) (tm : TM) (done : Bool) (s : ℕ) :
    f.column (f.findEsState es (tm, done) s).1 es =
      Relaxation.visit f.I f.S f.next (f.column tm es) s := by
  rw [findEsState_eq, Relaxation.visit]
  by_cases set : (f.column tm es).len s < f.S
  · rw [if_pos set, if_pos set]
  · rw [if_neg set, if_neg set]
    cases known : Relaxation.best f.I f.S f.next (f.column tm es) s with
    | mk minl mini =>
      by_cases found : mini ≠ -1
      · simp only [if_pos found]
        simp only [column, Function.update_apply, same_row below]
        congr 1
        · funext t
          rw [Function.update_apply]
        · funext t
          rw [Function.update_apply]
      · simp only [if_neg found]

theorem findEsState_done (success : (f.findEsState es (tm, done) s).2 = true) :
    done = true ∧ (f.column (f.findEsState es (tm, done) s).1 es).len s < f.S := by
  rw [findEsState_eq] at success ⊢
  by_cases set : (f.column tm es).len s < f.S
  · rw [if_pos set] at success ⊢
    exact ⟨success, set⟩
  · rw [if_neg set] at success ⊢
    rcases Relaxation.best_spec f.I f.S f.next (f.column tm es) s with
      ⟨same, -⟩ | ⟨u, -, same, small, -⟩
    · rw [same] at success
      exact absurd success Bool.false_ne_true
    · rw [same] at success ⊢
      have found : (u : ℤ) ≠ -1 := by omega
      rw [if_pos found] at success ⊢
      refine ⟨success, ?_⟩
      simpa [column] using small

theorem findEsState_other (below : es < f.S) (below' : other < f.S) (differ : other ≠ es) (tm : TM)
    (done : Bool) (s : ℕ) :
    f.column (f.findEsState es (tm, done) s).1 other = f.column tm other := by
  have elsewhere := fun t => other_column (s := s) (t := t) below below' differ
  rw [findEsState_eq]
  by_cases set : (f.column tm es).len s < f.S
  · rw [if_pos set]
  · rw [if_neg set]
    split
    · simp [column, elsewhere]
    · rfl

theorem findEs_column (below : es < f.S) (tm : TM) :
    f.column (f.findEs es tm).1 es =
      Relaxation.visits f.I f.S f.next (f.column tm es) f.S := by
  have loop : ∀ (states : List ℕ) (state : TM × Bool),
      f.column (states.foldl (f.findEsState es) state).1 es =
        states.foldl (Relaxation.visit f.I f.S f.next) (f.column state.1 es) := by
    intro states
    induction states with
    | nil => exact fun _ => rfl
    | cons s states ih =>
      intro ⟨tm, done⟩
      rw [List.foldl_cons, ih, findEsState_column below]
      rfl
  exact loop _ _

theorem findEs_other (below : es < f.S) (below' : other < f.S) (differ : other ≠ es) (tm : TM) :
    f.column (f.findEs es tm).1 other = f.column tm other := by
  have loop : ∀ (states : List ℕ) (state : TM × Bool),
      f.column (states.foldl (f.findEsState es) state).1 other = f.column state.1 other := by
    intro states
    induction states with
    | nil => exact fun _ => rfl
    | cons s states ih =>
      intro ⟨tm, done⟩
      rw [List.foldl_cons, ih, findEsState_other below below' differ]
  exact loop _ _

theorem findEs_done (below : es < f.S) (success : (f.findEs es tm).2 = true) :
    ∀ s < f.S, (f.column (f.findEs es tm).1 es).len s < f.S := by
  have loop : ∀ count, ((List.range count).foldl (f.findEsState es) (tm, true)).2 = true →
      ∀ s < count,
        (f.column ((List.range count).foldl (f.findEsState es) (tm, true)).1 es).len s < f.S := by
    intro count
    induction count with
    | zero => exact fun _ s none => absurd none (Nat.not_lt_zero s)
    | succ count ih =>
      intro success s inside
      rw [List.range_succ, List.foldl_append, List.foldl_cons, List.foldl_nil] at success ⊢
      have now := findEsState_done success
      rcases Nat.lt_succ_iff_lt_or_eq.mp inside with earlier | rfl
      · have set := ih now.1 s earlier
        rw [findEsState_column below, (Relaxation.visit_keeps set _).1]
        exact set
      · exact now.2
  exact loop f.S success

theorem attempt_column (below : es < f.S) {left k : ℕ}
    (start : f.column tm es = Relaxation.sweeps f.I f.S f.next es k)
    (full : done = true → ∀ s < f.S, (f.column tm es).len s < f.S) :
    f.column (f.attempt es left tm done).1 es =
      Relaxation.sweeps f.I f.S f.next es (k + left) := by
  induction left generalizing k tm done with
  | zero => exact start
  | succ left ih =>
    rw [attempt]
    split
    · rename_i success
      rw [start] at full ⊢
      exact (Relaxation.sweeps_full (full success) _).symm
    · have next : f.column (f.findEs es tm).1 es =
          Relaxation.sweeps f.I f.S f.next es (k + 1) := by
        rw [findEs_column below, start]
        rfl
      rw [← Nat.add_assoc, Nat.add_right_comm]
      exact ih next (findEs_done below)

theorem attempt_other (below : es < f.S) (below' : other < f.S) (differ : other ≠ es) (left : ℕ)
    (tm : TM) (done : Bool) : f.column (f.attempt es left tm done).1 other = f.column tm other := by
  induction left generalizing tm done with
  | zero => rfl
  | succ left ih =>
    rw [attempt]
    split
    · rfl
    · rw [ih, findEs_other below below' differ]

theorem generateTM_column (below : es < f.S) :
    f.column f.generateTM es = Relaxation.final f.I f.S f.next es := by
  have loop : ∀ count ≤ f.S,
      f.column ((List.range count).foldl (fun tm s => (f.attempt s (f.S - 1) tm false).1)
        f.initialTM) es =
      if es < count then Relaxation.final f.I f.S f.next es else Relaxation.initial f.S es := by
    intro count
    induction count with
    | zero => exact fun _ => column_initialTM below
    | succ count ih =>
      intro within
      have before := ih (Nat.le_of_succ_le within)
      rw [List.range_succ, List.foldl_append, List.foldl_cons, List.foldl_nil]
      by_cases here : es = count
      · subst here
        rw [if_neg (Nat.lt_irrefl es)] at before
        rw [if_pos (Nat.lt_succ_self es), attempt_column (k := 0) below before (by simp)]
        rw [Nat.zero_add]
        rfl
      · have same : es < count + 1 ↔ es < count := by omega
        rw [attempt_other within below here, before]
        simp only [same]
  rw [generateTM, loop f.S le_rfl, if_pos below]

/-! ## Paths of inputs -/

/-- The inputs lead from a state to another one. -/
def Leads (f : Fsm) (us : List ℕ) (is es : ℕ) : Prop :=
  (∀ u ∈ us, u < f.I) ∧ f.machine.after is us = es

theorem steps_iff {n : ℕ} :
    Relaxation.Steps f.I f.next es n is ↔ ∃ us, us.length = n ∧ f.Leads us is es := by
  constructor
  · intro path
    induction path with
    | goal => exact ⟨[], rfl, by simp, rfl⟩
    | @cons n s u edge _ ih =>
      obtain ⟨us, length, inputs, last⟩ := ih
      refine ⟨u :: us, by simp [length], ?_, last⟩
      intro v member
      rcases List.mem_cons.mp member with rfl | later
      · exact edge
      · exact inputs v later
  · rintro ⟨us, rfl, inputs, last⟩
    induction us generalizing is with
    | nil => exact last ▸ .goal
    | cons u us ih =>
      exact .cons (inputs u (List.mem_cons_self ..))
        (ih (fun v later => inputs v (List.mem_cons_of_mem u later)) last)

theorem distance_iff {n : ℕ} : Relaxation.Distance f.I f.next es n is ↔
    IsLeast {n | ∃ us, us.length = n ∧ f.Leads us is es} n := by
  simp only [Relaxation.Distance, steps_iff]
  rfl

/-- An entry of the tables as they are documented (`gr-trellis.xml:329-335`): the minimum number of
steps, `S` when there is none, and the first input of a path with this number of steps. -/
structure ShortestEntry (f : Fsm) (tm : TM) (is es : ℕ) : Prop where
  minimum : (∃ us, f.Leads us is es) →
    IsLeast {n | ∃ us, us.length = n ∧ f.Leads us is es} (tm.TMl (is * f.S + es))
  unreachable : ¬(∃ us, f.Leads us is es) → tm.TMl (is * f.S + es) = f.S
  input : is ≠ es → (∃ us, f.Leads us is es) →
    ∃ u us, tm.TMi (is * f.S + es) = (u : ℕ) ∧ f.Leads (u :: us) is es ∧
      (u :: us).length = tm.TMl (is * f.S + es)

theorem leads_iff : (∃ us, f.Leads us is es) ↔ ∃ n, Relaxation.Steps f.I f.next es n is := by
  simp only [steps_iff]
  constructor
  · intro ⟨us, leads⟩
    exact ⟨us.length, us, rfl, leads⟩
  · intro ⟨_, us, _, leads⟩
    exact ⟨us, leads⟩

theorem generateTM_input (state : is < f.S) (below : es < f.S) (other : is ≠ es)
    (reached : ∃ us, f.Leads us is es) :
    ∃ u us, f.generateTM.TMi (is * f.S + es) = (u : ℕ) ∧ f.Leads (u :: us) is es ∧
      (u :: us).length = f.generateTM.TMl (is * f.S + es) := by
  have pos : 0 < f.S := Nat.zero_lt_of_lt below
  have closed : ∀ s < f.S, ∀ u < f.I, f.next s u < f.S := fun s inside u => next_lt inside
  have sound := Relaxation.sound_sweeps es closed pos (f.S - 1)
  have set := (Relaxation.final_set_iff es closed pos state).mpr (leads_iff.mp reached)
  obtain ⟨u, edge, first, set', length⟩ := sound.edge is state other set
  obtain ⟨us, same, inputs, last⟩ := steps_iff.mp (sound.path _ (next_lt state edge) set')
  have entries := generateTM_column below
  refine ⟨u, us, ?_, ⟨?_, last⟩, ?_⟩
  · exact (congrArg (fun col => col.first is) entries).trans first
  · intro v member
    rcases List.mem_cons.mp member with rfl | later
    · exact edge
    · exact inputs v later
  · have here := (congrArg (fun col => col.len is) entries).trans length
    rw [List.length_cons, same]
    exact (Nat.add_comm _ 1).trans here.symm

theorem generateTM_unreachable (state : is < f.S) (below : es < f.S)
    (unreachable : ¬∃ us, f.Leads us is es) : f.generateTM.TMl (is * f.S + es) = f.S := by
  have pos : 0 < f.S := Nat.zero_lt_of_lt below
  have closed : ∀ s < f.S, ∀ u < f.I, f.next s u < f.S := fun s inside u => next_lt inside
  have sound := Relaxation.sound_sweeps es closed pos (f.S - 1)
  have unset : ¬(Relaxation.final f.I f.S f.next es).len is < f.S := fun set =>
    unreachable (leads_iff.mpr ((Relaxation.final_set_iff es closed pos state).mp set))
  have entry := congrArg (fun col => col.len is) (generateTM_column below)
  exact entry.trans (Nat.le_antisymm (sound.most is) (not_lt.mp unset))

/-- The termination tables are those of shortest paths exactly when every state that reaches a final
state can be settled in time: some first step of a shortest path leads to a state that has its
length when it is first needed. -/
theorem generateTM_shortest_iff (f : Fsm) :
    (∀ is < f.S, ∀ es < f.S, f.ShortestEntry f.generateTM is es) ↔
      ∀ es < f.S, ∀ s < f.S, s ≠ es → (∃ us, f.Leads us s es) →
        Relaxation.InTime f.I f.next es s := by
  have closed : ∀ s < f.S, ∀ u < f.I, f.next s u < f.S := fun s inside u => next_lt inside
  constructor
  · intro entries es below
    have lengths := (Relaxation.distances_iff es closed).mp fun s inside reached => by
      have least := (entries s inside es below).minimum (leads_iff.mpr reached)
      rw [← generateTM_column below]
      exact distance_iff.mpr least
    intro s inside other reached
    exact lengths s inside other (leads_iff.mp reached)
  · intro inTime is state es below
    have lengths := (Relaxation.distances_iff es closed).mpr
      fun s inside other reached => inTime es below s inside other (leads_iff.mpr reached)
    refine ⟨fun reached => ?_, generateTM_unreachable state below,
      generateTM_input state below⟩
    have least := lengths is state (leads_iff.mp reached)
    rw [← generateTM_column below] at least
    exact distance_iff.mp least

/-- State 3 gets its length over state 2, which has a length by then and is farther from state 0
than state 4, which has not. -/
def lateState : Fsm :=
  ofTables 2 5 1 [0, 0, 0, 0, 1, 1, 2, 4, 0, 0] (List.replicate 10 0) rfl rfl (by decide)
    (by decide)

theorem lateState_not_shortest :
    ¬∀ is < lateState.S, ∀ es < lateState.S, lateState.ShortestEntry lateState.generateTM is es := by
  intro entries
  have least := (entries 3 (by decide) 0 (by decide)).minimum ⟨[1, 0], by decide, rfl⟩
  have length : lateState.generateTM.TMl (3 * lateState.S + 0) = 3 := by decide +kernel
  rw [length] at least
  have atMost := least.2 ⟨[1, 0], rfl, by decide, rfl⟩
  exact absurd atMost (by decide)

end Fsm

end GnuRadio
