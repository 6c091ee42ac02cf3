import Mathlib.Algebra.Order.Group.Nat
import Mathlib.Data.Set.Function
import GnuRadio.Runtime.Types
import GnuRadio.Trellis.Encoder

/-!
# Digits

The conversions of `base.cc` between a number and its digits, most significant digit first. The
numbers fit an `unsigned int`.
-/

namespace GnuRadio

/-- The loop of `dec2bases` (`base.cc:55-64`), with a base for each digit: the digits and what is
left of the number. -/
def dec2bases (num : Nat) (bases : List Nat) : List Nat × Nat :=
  bases.foldr (fun base (s, n) => (n % base :: s, n / base)) ([], num)

/-- The loop of `dec2base` (`base.cc:29-37`), with one base for all `l` digits. -/
def dec2base (num base l : Nat) : List Nat := (dec2bases num (List.replicate l base)).1

/-- `bases2dec` (`base.cc:75-82`). -/
def bases2dec (s bases : List Nat) : Nat :=
  (bases.zip s).foldl (fun num (base, digit) => num * base + digit) 0

/-- `base2dec` (`base.cc:45-52`). -/
def base2dec (s : List Nat) (base : Nat) : Nat := s.foldl (fun num digit => num * base + digit) 0

/-! ## Digits with a base each -/

theorem dec2bases_snd (num : Nat) (bases : List Nat) :
    (dec2bases num bases).2 = num / bases.prod := by
  induction bases with
  | nil => simp [dec2bases]
  | cons base bases ih =>
    show (dec2bases num bases).2 / base = _
    rw [ih, Nat.div_div_eq_div_mul, List.prod_cons, Nat.mul_comm]

theorem dec2bases_cons (num base : Nat) (bases : List Nat) : (dec2bases num (base :: bases)).1 =
    num / bases.prod % base :: (dec2bases num bases).1 := by
  rw [← dec2bases_snd]
  rfl

@[simp] theorem length_dec2bases (num : Nat) (bases : List Nat) :
    (dec2bases num bases).1.length = bases.length := by
  induction bases with
  | nil => rfl
  | cons base bases ih => simp [dec2bases_cons, ih]

variable {bases s : List Nat} {base : Nat}

theorem dec2bases_lt (num : Nat) (positive : ∀ base ∈ bases, 0 < base) :
    List.Forall₂ (· < ·) (dec2bases num bases).1 bases := by
  induction bases with
  | nil => exact List.Forall₂.nil
  | cons base bases ih =>
    rw [dec2bases_cons]
    exact List.Forall₂.cons (Nat.mod_lt _ (positive base List.mem_cons_self))
      (ih fun b member => positive b (List.mem_cons_of_mem base member))

theorem dec2bases_add_mul (num k : Nat) (bases : List Nat) :
    (dec2bases (k * bases.prod + num) bases).1 = (dec2bases num bases).1 := by
  induction bases generalizing k with
  | nil => rfl
  | cons base bases ih =>
    rw [dec2bases_cons, dec2bases_cons, List.prod_cons, ← Nat.mul_assoc, ih]
    rcases Nat.eq_zero_or_pos bases.prod with zero | positive
    · simp [zero]
    · rw [Nat.add_comm, Nat.add_mul_div_right _ _ positive, Nat.add_mul_mod_self_right]

theorem bases2dec_append_acc (s bases : List Nat) (num : Nat) (lengths : s.length = bases.length) :
    (bases.zip s).foldl (fun num (base, digit) => num * base + digit) num =
      num * bases.prod + bases2dec s bases := by
  induction bases generalizing s num with
  | nil => simp [bases2dec]
  | cons base bases ih =>
    cases s with
    | nil => cases lengths
    | cons digit s =>
      have rest : s.length = bases.length := Nat.succ_inj.mp lengths
      rw [bases2dec, List.zip_cons_cons, List.foldl_cons, List.foldl_cons, ih s _ rest,
        ih s (0 * base + digit) rest, List.prod_cons, Nat.add_mul, Nat.zero_mul, Nat.zero_add,
        Nat.mul_assoc, Nat.add_assoc]

theorem bases2dec_cons (digit base : Nat) (lengths : s.length = bases.length) :
    bases2dec (digit :: s) (base :: bases) = digit * bases.prod + bases2dec s bases := by
  rw [bases2dec, List.zip_cons_cons, List.foldl_cons, bases2dec_append_acc s bases _ lengths]
  simp

theorem bases2dec_lt (valid : List.Forall₂ (· < ·) s bases) : bases2dec s bases < bases.prod := by
  induction valid with
  | nil => exact Nat.one_pos
  | @cons digit base s bases below rest ih =>
    rw [bases2dec_cons digit base rest.length_eq, List.prod_cons]
    calc
      digit * bases.prod + bases2dec s bases < digit * bases.prod + bases.prod :=
        Nat.add_lt_add_left ih _
      _ = (digit + 1) * bases.prod := (Nat.succ_mul digit bases.prod).symm
      _ ≤ base * bases.prod := Nat.mul_le_mul_right bases.prod below

theorem bases2dec_dec2bases {num : Nat} {bases : List Nat} (fits : num < bases.prod) :
    bases2dec (dec2bases num bases).1 bases = num := by
  suffices whole : ∀ num, bases2dec (dec2bases num bases).1 bases = num % bases.prod by
    rw [whole, Nat.mod_eq_of_lt fits]
  clear fits num
  intro num
  induction bases with
  | nil => simp [dec2bases, bases2dec, Nat.mod_one]
  | cons base bases ih =>
    rw [dec2bases_cons, bases2dec_cons _ _ (length_dec2bases num bases), ih, List.prod_cons,
      Nat.mul_comm base, Nat.mod_mul, Nat.mul_comm, Nat.add_comm]

theorem dec2bases_bases2dec (valid : List.Forall₂ (· < ·) s bases) :
    (dec2bases (bases2dec s bases) bases).1 = s := by
  induction valid with
  | nil => rfl
  | @cons digit base s bases below rest ih =>
    have less := bases2dec_lt rest
    rw [bases2dec_cons digit base rest.length_eq, dec2bases_cons, dec2bases_add_mul, ih,
      Nat.add_comm, Nat.add_mul_div_right _ _ (Nat.zero_lt_of_lt less), Nat.div_eq_of_lt less,
      Nat.zero_add, Nat.mod_eq_of_lt below]

/-! ## Digits with one base -/

theorem base2dec_eq (s : List Nat) (base : Nat) :
    base2dec s base = bases2dec s (List.replicate s.length base) := by
  have loop : ∀ num, s.foldl (fun num digit => num * base + digit) num =
      ((List.replicate s.length base).zip s).foldl
        (fun num (base, digit) => num * base + digit) num := by
    induction s with
    | nil => simp
    | cons digit s ih => simp [List.replicate_succ, ih]
  exact loop 0

theorem forall₂_replicate (below : ∀ digit ∈ s, digit < base) :
    List.Forall₂ (· < ·) s (List.replicate s.length base) := by
  induction s with
  | nil => exact List.Forall₂.nil
  | cons digit s ih =>
    exact List.Forall₂.cons (below digit List.mem_cons_self)
      (ih fun d member => below d (List.mem_cons_of_mem digit member))

@[simp] theorem length_dec2base (num base l : Nat) : (dec2base num base l).length = l := by
  simp [dec2base]

theorem dec2base_lt {num l : Nat} (positive : 0 < base) :
    ∀ digit ∈ dec2base num base l, digit < base := by
  have valid := dec2bases_lt num fun b (member : b ∈ List.replicate l base) =>
    (List.eq_of_mem_replicate member) ▸ positive
  intro digit member
  obtain ⟨i, inside, rfl⟩ := List.mem_iff_getElem.mp member
  have below := valid.get inside (by simpa [dec2base] using inside)
  simpa [dec2base] using below

theorem base2dec_lt {s : List Nat} {base : Nat} (below : ∀ digit ∈ s, digit < base) :
    base2dec s base < base ^ s.length := by
  rw [base2dec_eq]
  simpa using bases2dec_lt (forall₂_replicate below)

theorem base2dec_dec2base {num l : Nat} (fits : num < base ^ l) :
    base2dec (dec2base num base l) base = num := by
  rw [base2dec_eq, length_dec2base, dec2base]
  exact bases2dec_dec2bases (by simpa using fits)

theorem dec2base_base2dec {s : List Nat} {base : Nat} (below : ∀ digit ∈ s, digit < base) :
    dec2base (base2dec s base) base s.length = s := by
  rw [base2dec_eq]
  exact dec2bases_bases2dec (forall₂_replicate below)

/-!
## Machines made of other machines

The radix-`n` machine takes `n` inputs of a machine in one step. Its runs are the runs of the
machine on the digits of its inputs, and the runs of the joint machine are pairs of runs.
-/

/-- The loop over the stages of one transition (`fsm.cc:350-353`): the outputs and the state. -/
def radixStages (FSM : Fsm) (s : Nat) (ii : List Nat) : List Nat × Nat :=
  ii.foldl (fun (oo, ns) u => (oo ++ [FSM.output ns u], FSM.next ns u)) ([], s)

/-- What `fsm::fsm(const fsm &FSM, int n)` writes to `d_NS` and `d_OS` (`fsm.cc:345-356`). -/
def radixNext (FSM : Fsm) (n s i : Nat) : Nat := (radixStages FSM s (dec2base i FSM.I n)).2

@[inherit_doc radixNext]
def radixOutput (FSM : Fsm) (n s i : Nat) : Nat :=
  base2dec (radixStages FSM s (dec2base i FSM.I n)).1 FSM.O

theorem radixStages_eq (FSM : Fsm) (s : Nat) (ii : List Nat) :
    radixStages FSM s ii = (FSM.machine.outputs s ii, FSM.machine.after s ii) := by
  rw [radixStages, ← List.map_id (FSM.machine.outputs s ii)]
  exact @TrellisEncoder.stream_eq Nat id FSM s ii

namespace Fsm

variable {FSM FSM1 FSM2 : Fsm} {s n : Nat} {us : List Nat}

theorem after_lt (state : s < FSM.S) (inputs : ∀ u ∈ us, u < FSM.I) :
    FSM.machine.after s us < FSM.S :=
  @Mealy.after_mem _ _ _ FSM.machine (· < FSM.S) (· < FSM.I) (fun _ _ => next_lt) s state us inputs

theorem outputs_lt (state : s < FSM.S) (inputs : ∀ u ∈ us, u < FSM.I) :
    ∀ o ∈ FSM.machine.outputs s us, o < FSM.O := by
  induction us generalizing s with
  | nil => simp
  | cons u us ih =>
    have input := inputs u List.mem_cons_self
    intro o member
    rcases List.mem_cons.mp member with rfl | later
    · exact output_lt state input
    · exact ih (next_lt state input) (fun v member => inputs v (List.mem_cons_of_mem u member)) o
        later

theorem digits_lt {i : Nat} (input : i < FSM.I ^ n) : ∀ u ∈ dec2base i FSM.I n, u < FSM.I := by
  rcases Nat.eq_zero_or_pos FSM.I with zero | positive
  · cases n with
    | zero => simp [dec2base, dec2bases]
    | succ n => simp [zero] at input
  · exact dec2base_lt positive

theorem radixNext_lt : ∀ s < FSM.S, ∀ i < FSM.I ^ n, radixNext FSM n s i < FSM.S := by
  intro s state i input
  rw [radixNext, radixStages_eq]
  exact after_lt state (digits_lt input)

theorem radixOutput_lt : ∀ s < FSM.S, ∀ i < FSM.I ^ n, radixOutput FSM n s i < FSM.O ^ n := by
  intro s state i input
  have below := base2dec_lt (outputs_lt state (digits_lt input))
  rw [radixOutput, radixStages_eq]
  simpa using below

variable (FSM n) in
/-- The machine of `n` stages. -/
def radix : Fsm :=
  Fsm.ofTables (FSM.I ^ n) FSM.S (FSM.O ^ n) (table FSM.S (FSM.I ^ n) (radixNext FSM n))
    (table FSM.S (FSM.I ^ n) (radixOutput FSM n)) (table_length _ _ _) (table_length _ _ _)
    (table_lt radixNext_lt) (table_lt radixOutput_lt)

/-- What `int` has to hold of a machine: the alphabets, the sizes of `d_NS` and `d_OS` and the size
`d_S*d_S` of the termination tables (`fsm.cc:403-404`). -/
def SizesInt (I S O : Nat) : Prop := I ≤ intMax ∧ S * I ≤ intMax ∧ O ≤ intMax ∧ S * S ≤ intMax

instance (I S O : Nat) : Decidable (SizesInt I S O) := inferInstanceAs (Decidable (_ ∧ _))

variable (FSM n) in
/-- `fsm::fsm(const fsm &FSM, int n)` (`fsm.cc:336-362`). The powers are exact in `double` as far
as `int` can hold them. -/
def radixFsm : Except CppException Fsm :=
  if SizesInt (FSM.I ^ n) FSM.S (FSM.O ^ n) then .ok (FSM.radix n) else .error .undefinedBehaviour

variable (FSM1 FSM2) in
/-- `fsm::fsm(const fsm &FSM1, const fsm &FSM2)` (`fsm.cc:307-329`). -/
def jointFsm : Except CppException Fsm :=
  if SizesInt (FSM1.I * FSM2.I) (FSM1.S * FSM2.S) (FSM1.O * FSM2.O) then .ok (FSM1.joint FSM2)
  else .error .undefinedBehaviour

/-- A joint machine that could be built has the tables of `Fsm.joint`. -/
theorem eq_joint {G : Fsm} (built : FSM1.jointFsm FSM2 = .ok G) : G = FSM1.joint FSM2 := by
  unfold jointFsm at built
  split at built
  · exact (Except.ok.inj built).symm
  · cases built

theorem radix_next {i : Nat} (state : s < FSM.S) (input : i < FSM.I ^ n) :
    (FSM.radix n).next s i = FSM.machine.after s (dec2base i FSM.I n) := by
  show (table _ _ _).getD (s * FSM.I ^ n + i) 0 = _
  rw [table_getD _ state input, radixNext, radixStages_eq]

theorem radix_output {i : Nat} (state : s < FSM.S) (input : i < FSM.I ^ n) :
    (FSM.radix n).output s i =
      base2dec (FSM.machine.outputs s (dec2base i FSM.I n)) FSM.O := by
  show (table _ _ _).getD (s * FSM.I ^ n + i) 0 = _
  rw [table_getD _ state input, radixOutput, radixStages_eq]

theorem radix_blocks : FSM.machine.Blocks (FSM.radix n).machine (· < FSM.S) (· < FSM.I ^ n) id
    (fun u => dec2base u FSM.I n) (fun o => dec2base o FSM.O n) where
  kept s i state input := by
    show (FSM.radix n).next s i < FSM.S
    rw [radix_next state input]
    exact after_lt state (digits_lt input)
  next s i state input := (radix_next state input).symm
  output s i state input := by
    have unpacked := dec2base_base2dec (outputs_lt state (digits_lt input))
    rw [Mealy.length_outputs, length_dec2base] at unpacked
    show _ = dec2base ((FSM.radix n).output s i) FSM.O n
    rw [radix_output state input, unpacked]
    rfl

theorem joint_next_parts {u : Nat} (state : s < FSM1.S * FSM2.S) (input : u < FSM1.I * FSM2.I) :
    (FSM1.joint FSM2).next s u < FSM1.S * FSM2.S ∧
      (FSM1.joint FSM2).next s u / FSM2.S = FSM1.next (s / FSM2.S) (u / FSM2.I) ∧
      (FSM1.joint FSM2).next s u % FSM2.S = FSM2.next (s % FSM2.S) (u % FSM2.I) := by
  have entry : (FSM1.joint FSM2).next s u = jointNext FSM1 FSM2 s u :=
    table_getD (jointNext FSM1 FSM2) state input
  have second := next_lt (parts_lt state).2 (parts_lt input).2
  rw [entry]
  exact ⟨jointNext_lt s state u input, packed_div second, packed_mod second⟩

theorem joint_output_parts {u : Nat} (state : s < FSM1.S * FSM2.S) (input : u < FSM1.I * FSM2.I) :
    (FSM1.joint FSM2).output s u / FSM2.O = FSM1.output (s / FSM2.S) (u / FSM2.I) ∧
      (FSM1.joint FSM2).output s u % FSM2.O = FSM2.output (s % FSM2.S) (u % FSM2.I) := by
  have entry : (FSM1.joint FSM2).output s u = jointOutput FSM1 FSM2 s u :=
    table_getD (jointOutput FSM1 FSM2) state input
  have second := output_lt (parts_lt state).2 (parts_lt input).2
  rw [entry]
  exact ⟨packed_div second, packed_mod second⟩

theorem joint_first : FSM1.machine.Blocks (FSM1.joint FSM2).machine (· < FSM1.S * FSM2.S)
    (· < FSM1.I * FSM2.I) (· / FSM2.S) (fun u => [u / FSM2.I]) (fun o => [o / FSM2.O]) where
  kept _ _ state input := (joint_next_parts state input).1
  next _ _ state input := (joint_next_parts state input).2.1.symm
  output _ _ state input := congrArg (fun o => [o]) (joint_output_parts state input).1.symm

theorem joint_second : FSM2.machine.Blocks (FSM1.joint FSM2).machine (· < FSM1.S * FSM2.S)
    (· < FSM1.I * FSM2.I) (· % FSM2.S) (fun u => [u % FSM2.I]) (fun o => [o % FSM2.O]) where
  kept _ _ state input := (joint_next_parts state input).1
  next _ _ state input := (joint_next_parts state input).2.2.symm
  output _ _ state input := congrArg (fun o => [o]) (joint_output_parts state input).2.symm

/-! ## Words and their digits -/

/-- The word of single inputs that a word of the radix machine stands for. -/
def expand (FSM : Fsm) (n : Nat) (us : List Nat) : List Nat :=
  us.flatMap fun u => dec2base u FSM.I n

theorem expand_cons (u : Nat) (us : List Nat) :
    FSM.expand n (u :: us) = dec2base u FSM.I n ++ FSM.expand n us := by
  rw [expand, List.flatMap_cons]
  rfl

theorem length_expand (us : List Nat) : (FSM.expand n us).length = us.length * n := by
  induction us with
  | nil => simp [expand]
  | cons u us ih =>
    rw [expand_cons, List.length_append, ih, length_dec2base, List.length_cons, Nat.succ_mul,
      Nat.add_comm]

theorem expand_take (us : List Nat) (k : Nat) :
    FSM.expand n (us.take k) = (FSM.expand n us).take (k * n) := by
  induction k generalizing us with
  | zero => simp [expand]
  | succ k ih =>
    cases us with
    | nil => simp [expand]
    | cons u us =>
      rw [List.take_succ_cons, expand_cons, expand_cons, ih,
        show (k + 1) * n = (dec2base u FSM.I n).length + k * n by
          rw [length_dec2base, Nat.succ_mul, Nat.add_comm],
        List.take_length_add_append]

theorem expand_injective {us' : List Nat} (lengths : us.length = us'.length)
    (inputs : ∀ u ∈ us, u < FSM.I ^ n) (inputs' : ∀ u ∈ us', u < FSM.I ^ n)
    (same : FSM.expand n us = FSM.expand n us') : us = us' := by
  induction us generalizing us' with
  | nil => exact (List.length_eq_zero_iff.mp lengths.symm).symm
  | cons u us ih =>
    cases us' with
    | nil => cases lengths
    | cons u' us' =>
      rw [expand_cons, expand_cons] at same
      obtain ⟨first, rest⟩ := List.append_inj same (by rw [length_dec2base, length_dec2base])
      have number := congrArg (base2dec · FSM.I) first
      simp only [base2dec_dec2base (inputs u List.mem_cons_self),
        base2dec_dec2base (inputs' u' List.mem_cons_self)] at number
      rw [number, ih (Nat.succ_inj.mp lengths)
        (fun v member => inputs v (List.mem_cons_of_mem u member))
        (fun v member => inputs' v (List.mem_cons_of_mem u' member)) rest]

theorem expand_surjective {K : Nat} {vs : List Nat} (length : vs.length = K * n)
    (inputs : ∀ v ∈ vs, v < FSM.I) :
    ∃ us : List Nat, us.length = K ∧ (∀ u ∈ us, u < FSM.I ^ n) ∧ FSM.expand n us = vs := by
  induction K generalizing vs with
  | zero =>
    rw [Nat.zero_mul] at length
    exact ⟨[], rfl, by simp, (List.length_eq_zero_iff.mp length).symm⟩
  | succ K ih =>
    rw [Nat.succ_mul] at length
    have block : (vs.take n).length = n := by
      rw [List.length_take]
      omega
    have digits : ∀ v ∈ vs.take n, v < FSM.I := fun v member =>
      inputs v (List.mem_of_mem_take member)
    obtain ⟨us, count, below, rest⟩ := @ih (vs.drop n) (by rw [List.length_drop]; omega)
      fun v member => inputs v (List.mem_of_mem_drop member)
    have first := base2dec_lt digits
    have unpacked := dec2base_base2dec digits
    rw [block] at first unpacked
    refine ⟨base2dec (vs.take n) FSM.I :: us, by rw [List.length_cons, count], ?_, ?_⟩
    · intro u member
      rcases List.mem_cons.mp member with rfl | member
      · exact first
      · exact below u member
    · rw [expand_cons, unpacked, rest, List.take_append_drop]

theorem expand_bijective (K : Nat) :
    Set.BijOn (FSM.expand n) {us | us.length = K ∧ ∀ u ∈ us, u < FSM.I ^ n}
      {vs | vs.length = K * n ∧ ∀ v ∈ vs, v < FSM.I} := by
  refine ⟨fun us inside => ⟨?_, ?_⟩, fun us inside us' inside' same => ?_, fun vs inside => ?_⟩
  · rw [length_expand, inside.1]
  · intro v member
    obtain ⟨u, word, digit⟩ := List.mem_flatMap.mp member
    exact digits_lt (inside.2 u word) v digit
  · exact expand_injective (inside.1.trans inside'.1.symm) inside.2 inside'.2 same
  · obtain ⟨us, count, below, same⟩ := expand_surjective inside.1 inside.2
    exact ⟨us, ⟨count, below⟩, same⟩

/-! ## Runs -/

/-- `G` is `FSM` in steps of `n`: it is in the state that `FSM` reaches on the digits of its inputs,
its outputs pack those of `FSM`, and every word of `FSM` in whole blocks is the word of exactly one
word of `G`. -/
structure RadixOf (FSM : Fsm) (n : Nat) (G : Fsm) : Prop where
  sizes : G.I = FSM.I ^ n ∧ G.S = FSM.S ∧ G.O = FSM.O ^ n
  digits : ∀ u < G.I, (dec2base u FSM.I n).length = n ∧
    (∀ v ∈ dec2base u FSM.I n, v < FSM.I) ∧ base2dec (dec2base u FSM.I n) FSM.I = u
  states : ∀ s < G.S, ∀ us : List Nat, (∀ u ∈ us, u < G.I) → ∀ k,
    G.machine.after s (us.take k) = FSM.machine.after s ((FSM.expand n us).take (k * n))
  outputs : ∀ s < G.S, ∀ us : List Nat, (∀ u ∈ us, u < G.I) → ∀ k < us.length,
    (G.machine.outputs s us)[k]? = some
      (base2dec (((FSM.machine.outputs s (FSM.expand n us)).drop (k * n)).take n) FSM.O)
  words : ∀ K, Set.BijOn (FSM.expand n) {us | us.length = K ∧ ∀ u ∈ us, u < G.I}
    {vs | vs.length = K * n ∧ ∀ v ∈ vs, v < FSM.I}
  predecessors : PredecessorTables G.I G.S G.NS G.PS G.PI

theorem radix_after (state : s < FSM.S) (inputs : ∀ u ∈ us, u < FSM.I ^ n) :
    (FSM.radix n).machine.after s us = FSM.machine.after s (FSM.expand n us) :=
  (radix_blocks.run state inputs).1.symm

theorem expand_append (us vs : List Nat) :
    FSM.expand n (us ++ vs) = FSM.expand n us ++ FSM.expand n vs :=
  List.flatMap_append

theorem radix_output_at (state : s < FSM.S) (inputs : ∀ u ∈ us, u < FSM.I ^ n) {k : Nat}
    (inside : k < us.length) : ((FSM.radix n).machine.outputs s us)[k]? = some
      (base2dec (((FSM.machine.outputs s (FSM.expand n us)).drop (k * n)).take n) FSM.O) := by
  have before : ∀ u ∈ us.take k, u < FSM.I ^ n := fun u member =>
    inputs u (List.mem_of_mem_take member)
  have reached := radix_after state before
  have middle : FSM.machine.after s (FSM.expand n (us.take k)) < FSM.S := by
    rw [← reached]
    exact (FSM.radix n).machine.after_mem radix_blocks.kept state before
  have word : us = us.take k ++ us[k] :: us.drop (k + 1) := by
    rw [List.cons_getElem_drop_succ, List.take_append_drop]
  have count : (FSM.machine.outputs s (FSM.expand n (us.take k))).length = k * n := by
    rw [Mealy.length_outputs, length_expand, List.length_take, Nat.min_eq_left inside.le]
  have block : ((FSM.machine.outputs s (FSM.expand n us)).drop (k * n)).take n =
      FSM.machine.outputs (FSM.machine.after s (FSM.expand n (us.take k)))
        (dec2base us[k] FSM.I n) := by
    conv_lhs => rw [word]
    rw [expand_append, expand_cons, Mealy.outputs_append, Mealy.outputs_append, ← count,
      List.drop_left]
    exact List.take_left' (by simp)
  rw [Mealy.getElem?_outputs, List.getElem?_eq_getElem inside, Option.map_some, reached, block]
  exact congrArg some (radix_output middle (inputs _ (List.getElem_mem inside)))

@[simp] theorem radix_I : (FSM.radix n).I = FSM.I ^ n := rfl

@[simp] theorem radix_S : (FSM.radix n).S = FSM.S := rfl

theorem radixOf_radix : RadixOf FSM n (FSM.radix n) := by
  refine ⟨⟨rfl, rfl, rfl⟩, ?_, ?_, ?_, ?_, (FSM.radix n).predecessors⟩
  · intro u input
    rw [radix_I] at input
    exact ⟨length_dec2base u FSM.I n, digits_lt input, base2dec_dec2base input⟩
  · intro s state us inputs k
    rw [radix_I] at inputs
    rw [radix_S] at state
    rw [radix_after state fun u member => inputs u (List.mem_of_mem_take member), expand_take]
  · intro s state us inputs k inside
    rw [radix_I] at inputs
    rw [radix_S] at state
    exact radix_output_at state inputs inside
  · rw [radix_I]
    exact expand_bijective

/-- `G` is `FSM1` and `FSM2` side by side: the parts of its inputs, states and outputs are a run
of each. -/
structure JointOf (FSM1 FSM2 G : Fsm) : Prop where
  sizes : G.I = FSM1.I * FSM2.I ∧ G.S = FSM1.S * FSM2.S ∧ G.O = FSM1.O * FSM2.O
  states : ∀ s < G.S, ∀ us : List Nat, (∀ u ∈ us, u < G.I) →
    G.machine.after s us / FSM2.S = FSM1.machine.after (s / FSM2.S) (us.map (· / FSM2.I)) ∧
    G.machine.after s us % FSM2.S = FSM2.machine.after (s % FSM2.S) (us.map (· % FSM2.I))
  outputs : ∀ s < G.S, ∀ us : List Nat, (∀ u ∈ us, u < G.I) →
    (G.machine.outputs s us).map (· / FSM2.O) =
      FSM1.machine.outputs (s / FSM2.S) (us.map (· / FSM2.I)) ∧
    (G.machine.outputs s us).map (· % FSM2.O) =
      FSM2.machine.outputs (s % FSM2.S) (us.map (· % FSM2.I))
  predecessors : PredecessorTables G.I G.S G.NS G.PS G.PI

theorem jointOf_joint : JointOf FSM1 FSM2 (FSM1.joint FSM2) := by
  have single : ∀ (f : Nat → Nat) (l : List Nat), (l.flatMap fun x => [f x]) = l.map f := by
    intro f l
    rw [List.map_eq_flatMap]
  refine ⟨⟨rfl, rfl, rfl⟩, ?_, ?_, (FSM1.joint FSM2).predecessors⟩
  · intro s state us inputs
    have first := (joint_first.run state inputs).1
    have second := (joint_second.run state inputs).1
    rw [single] at first second
    exact ⟨first.symm, second.symm⟩
  · intro s state us inputs
    have first := (joint_first.run state inputs).2
    have second := (joint_second.run state inputs).2
    rw [single, single] at first second
    exact ⟨first.symm, second.symm⟩

/-- Machines made of others run as these do: where `int` holds the sizes the constructors build a
machine, and it simulates the ones it was made of. -/
theorem derived_fsms_simulate (FSM1 FSM2 : Fsm) (n : Nat) :
    (SizesInt (FSM1.I ^ n) FSM1.S (FSM1.O ^ n) →
      ∃ G, FSM1.radixFsm n = .ok G ∧ RadixOf FSM1 n G) ∧
    (SizesInt (FSM1.I * FSM2.I) (FSM1.S * FSM2.S) (FSM1.O * FSM2.O) →
      ∃ G, FSM1.jointFsm FSM2 = .ok G ∧ JointOf FSM1 FSM2 G) :=
  ⟨fun fits => ⟨FSM1.radix n, if_pos fits, radixOf_radix⟩,
    fun fits => ⟨FSM1.joint FSM2, if_pos fits, jointOf_joint⟩⟩

/-- Two stages of the accumulator, and the accumulator beside an uncoded bit. -/
theorem derived_fsms_two_stages :
    (∃ G, accumulator.radixFsm 2 = .ok G ∧ RadixOf accumulator 2 G) ∧
      ∃ G, accumulator.jointFsm uncoded = .ok G ∧ JointOf accumulator uncoded G :=
  ⟨(derived_fsms_simulate accumulator uncoded 2).1 (by decide),
    (derived_fsms_simulate accumulator uncoded 2).2 (by decide)⟩

/-- The inputs of 31 stages of a bit are more than `int` can count. -/
theorem no_thirty_one_stages : ¬ ∀ (FSM : Fsm) (n : Nat), 1 ≤ n →
    ∃ G, FSM.radixFsm n = .ok G ∧ RadixOf FSM n G := by
  intro builds
  obtain ⟨G, built, -⟩ := builds accumulator 31 (by decide)
  have refused : accumulator.radixFsm 31 = .error .undefinedBehaviour := if_neg (by decide)
  rw [refused] at built
  cases built

end Fsm

end GnuRadio
