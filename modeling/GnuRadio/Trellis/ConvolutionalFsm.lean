import GnuRadio.Misc.Convolution
import GnuRadio.Misc.ShiftRegister
import GnuRadio.Trellis.RadixFsm
import Mathlib.Algebra.Field.ZMod

/-!
# The machine of a convolutional code

`fsm(k, n, G)` keeps a shift register for each of the `k` input bits. Its state is the number put
together from the registers, and its output the `n` parities of the register contents and the
entering bits, masked with the generators.
-/

namespace GnuRadio

/-- The memory a generator needs (`fsm.cc:133-135`), the floor of the logarithm taken exactly. -/
def mem (g : ℕ) : ℤ := if g ≠ 0 then (g.log2 : ℤ) else -1

/-- The inner loop over the generators of one input (`fsm.cc:132-140`). -/
def rowMem (n : ℕ) (G : List ℕ) (i : ℕ) (maximum : ℤ) : ℤ :=
  (List.range n).foldl (fun maximum j =>
    if mem (G.getD (i * n + j) 0) > maximum then mem (G.getD (i * n + j) 0) else maximum) maximum

/-- `max_mem_x[i]` (`fsm.cc:136-137`). -/
def maxMemX (n : ℕ) (G : List ℕ) (i : ℕ) : ℤ := rowMem n G i (-1)

/-- `max_mem` (`fsm.cc:138-139`). -/
def maxMem (k n : ℕ) (G : List ℕ) : ℤ :=
  (List.range k).foldl (fun maximum i => rowMem n G i maximum) (-1)

section Machine

variable (k n : ℕ) (G : List ℕ)

/-- The length of a register. -/
def memory (i : ℕ) : ℕ := (maxMemX n G i).toNat

/-- `sum_max_mem` (`fsm.cc:147-149`). -/
def sumMaxMem : ℕ := ((List.range k).map (memory n G)).sum

/-- `bases_x` (`fsm.cc:168-170`). -/
def basesX : List ℕ := (List.range k).map fun j => 2 ^ memory n G j

/-- `sx` (`fsm.cc:189`). -/
def sx (s : ℕ) : List ℕ := (dec2bases s (basesX k n G)).1

/-- `tx` (`fsm.cc:203-204`): the registers with the entering bits. -/
def tx (s i : ℕ) : List ℕ :=
  (List.range k).map fun j =>
    (dec2base i 2 k).getD j 0 * (basesX k n G).getD j 0 + (sx k n G s).getD j 0

/-- `d_NS[s*d_I+i]` (`fsm.cc:198-200`). -/
def convNext (s i : ℕ) : ℕ := bases2dec ((tx k n G s i).map (· / 2)) (basesX k n G)

/-- The number of binary digits of the generators and the transitions. -/
def digits : ℕ := (maxMem k n G + 1).toNat

/-- `outb[nn]` (`fsm.cc:212-218`). -/
def outb (s i nn : ℕ) : ℕ :=
  (List.range k).foldl (fun out j =>
    (List.range (digits k n G)).foldl (fun out m =>
      (out + (dec2base (G.getD (j * n + nn) 0) 2 (digits k n G)).getD m 0 *
        (dec2base ((tx k n G s i).getD j 0) 2 (digits k n G)).getD m 0) % 2) out) 0

/-- `d_OS[s*d_I+i]` (`fsm.cc:219`). -/
def convOutput (s i : ℕ) : ℕ := base2dec ((List.range n).map (outb k n G s i)) 2

end Machine

variable {k n : ℕ} {G : List ℕ}

/-! ## Digits of binary words -/

variable {i j s t : ℕ} {us : List ℕ}

theorem dec2base_getD {num l : ℕ} (base : ℕ) (inside : i < l) :
    (dec2base num base l).getD i 0 = num / base ^ (l - 1 - i) % base := by
  induction l generalizing i with
  | zero => exact absurd inside (Nat.not_lt_zero i)
  | succ l ih =>
    have split : dec2base num base (l + 1) = num / base ^ l % base :: dec2base num base l := by
      rw [dec2base, List.replicate_succ, dec2bases_cons, List.prod_replicate]
      rfl
    rw [split]
    cases i with
    | zero => rfl
    | succ i =>
      have place : l + 1 - 1 - (i + 1) = l - 1 - i := by omega
      rw [List.getD_cons_succ, ih (Nat.lt_of_succ_lt_succ inside), place]

theorem dec2base_bit (num l i : ℕ) : (dec2base num 2 l).getD i 0 < 2 := by
  rcases Nat.lt_or_ge i (dec2base num 2 l).length with inside | beyond
  · rw [List.getD_eq_getElem _ _ inside]
    exact dec2base_lt Nat.two_pos _ (List.getElem_mem inside)
  · rw [List.getD_eq_default _ _ beyond]
    exact Nat.two_pos

/-! ## The registers -/

theorem prod_basesX : (basesX k n G).prod = 2 ^ sumMaxMem k n G := by
  rw [basesX, sumMaxMem]
  induction List.range k with
  | nil => rfl
  | cons j rest ih => simp [ih, Nat.pow_add]

theorem basesX_pos : ∀ base ∈ basesX k n G, 0 < base := by
  intro base member
  obtain ⟨j, -, rfl⟩ := List.mem_map.mp member
  exact Nat.two_pow_pos _

@[simp] theorem length_basesX : (basesX k n G).length = k := by simp [basesX]

@[simp] theorem length_tx (s i : ℕ) : (tx k n G s i).length = k := by simp [tx]

theorem basesX_getD (row : j < k) : (basesX k n G).getD j 0 = 2 ^ memory n G j :=
  getD_map_range _ 0 row

theorem sx_lt (s : ℕ) (row : j < k) : (sx k n G s).getD j 0 < 2 ^ memory n G j := by
  have valid := dec2bases_lt s (basesX_pos (k := k) (n := n) (G := G))
  have length : (sx k n G s).length = k := by simp [sx]
  have inside : j < (sx k n G s).length := by rwa [length]
  have below := valid.get (i := j) inside (by simpa using row)
  rw [List.getD_eq_getElem _ _ inside]
  simpa [sx, basesX] using below

theorem tx_getD (row : j < k) : (tx k n G s i).getD j 0 =
    ShiftRegister.entered (memory n G j) ((dec2base i 2 k).getD j 0) ((sx k n G s).getD j 0) := by
  rw [tx, getD_map_range _ 0 row, basesX_getD row]
  rfl

theorem shifted_valid (s i : ℕ) :
    List.Forall₂ (· < ·) ((tx k n G s i).map (· / 2)) (basesX k n G) := by
  rw [List.forall₂_iff_get]
  refine ⟨by simp, fun j row row' => ?_⟩
  have inside : j < k := by simpa using row
  have below := ShiftRegister.entered_lt (dec2base_bit i k j) (sx_lt (n := n) (G := G) s inside)
  rw [← tx_getD inside, List.getD_eq_getElem _ _ (by simpa using inside)] at below
  have half := Nat.div_lt_of_lt_mul (Nat.mul_comm _ 2 ▸ below)
  simpa [basesX] using half

theorem convNext_lt (s i : ℕ) : convNext k n G s i < 2 ^ sumMaxMem k n G := by
  rw [convNext, ← prod_basesX]
  exact bases2dec_lt (shifted_valid s i)

theorem sx_convNext (row : j < k) : (sx k n G (convNext k n G s i)).getD j 0 =
    ShiftRegister.entered (memory n G j) ((dec2base i 2 k).getD j 0) ((sx k n G s).getD j 0) / 2 := by
  have shifted : sx k n G (convNext k n G s i) = (tx k n G s i).map (· / 2) :=
    dec2bases_bases2dec (shifted_valid s i)
  have inside : j < (tx k n G s i).length := by simpa using row
  rw [shifted, ← tx_getD row, List.getD_eq_getElem _ _ (by simpa using inside),
    List.getD_eq_getElem _ _ inside, List.getElem_map]

theorem sx_zero (j : ℕ) : (sx k n G 0).getD j 0 = 0 := by
  rw [sx]
  induction basesX k n G generalizing j with
  | nil => rfl
  | cons base bases ih =>
    rw [dec2bases_cons]
    cases j with
    | zero => simp
    | succ j => exact ih j

/-! ## The outputs -/

theorem outb_lt (s i nn : ℕ) : outb k n G s i nn < 2 := by
  have bit : ∀ (l : List ℕ) (a : ℕ → ℕ) (out : ℕ), out < 2 →
      l.foldl (fun out m => (out + a m) % 2) out < 2 := by
    intro l a
    induction l with
    | nil => exact fun _ below => below
    | cons m l ih => exact fun _ _ => ih _ (Nat.mod_lt _ Nat.two_pos)
  rw [outb]
  refine List.foldlRecOn (motive := (· < 2)) _ _ Nat.two_pos fun out below j _ => ?_
  exact bit _ _ _ below

theorem convOutput_lt (s i : ℕ) : convOutput k n G s i < 2 ^ n := by
  have below := @base2dec_lt ((List.range n).map (outb k n G s i)) 2 fun digit member => by
    obtain ⟨nn, -, rfl⟩ := List.mem_map.mp member
    exact outb_lt s i nn
  simpa [convOutput] using below

theorem convOutput_digit {nn : ℕ} (inside : nn < n) :
    (dec2base (convOutput k n G s i) 2 n).getD nn 0 = outb k n G s i nn := by
  have unpacked := @dec2base_base2dec ((List.range n).map (outb k n G s i)) 2
    fun digit member => by
      obtain ⟨nn, -, rfl⟩ := List.mem_map.mp member
      exact outb_lt s i nn
  rw [List.length_map, List.length_range] at unpacked
  rw [convOutput, unpacked, getD_map_range _ 0 inside]

variable (k n G) in
/-- The machine with these tables. -/
def convMachine : Fsm :=
  Fsm.ofTables (2 ^ k) (2 ^ sumMaxMem k n G) (2 ^ n)
    (table (2 ^ sumMaxMem k n G) (2 ^ k) (convNext k n G))
    (table (2 ^ sumMaxMem k n G) (2 ^ k) (convOutput k n G)) (table_length _ _ _)
    (table_length _ _ _) (table_lt fun s _ i _ => convNext_lt s i)
    (table_lt fun s _ i _ => convOutput_lt s i)

variable (k n G) in
/-- What `int` has to hold: the sizes of the alphabets, of the tables (`fsm.cc:151-153`,
`fsm.cc:175-176`) and of the termination tables (`fsm.cc:403-404`). -/
def SizesFit : Prop :=
  2 ^ k ≤ intMax ∧ 2 ^ n ≤ intMax ∧ 2 ^ k * 2 ^ sumMaxMem k n G ≤ intMax ∧
    2 ^ sumMaxMem k n G * 2 ^ sumMaxMem k n G ≤ intMax

instance : Decidable (SizesFit k n G) := inferInstanceAs (Decidable (_ ∧ _))

variable (k n G) in
/-- `fsm::fsm(int k, int n, const std::vector<int> &G)` (`fsm.cc:125-224`). Reading past `G` and a
register of negative length, from a row of zeros, are undefined. -/
def convFsm : Except CppException Fsm :=
  if k * n ≤ G.length ∧ (∀ i < k, 0 ≤ maxMemX n G i) ∧ SizesFit k n G then .ok (convMachine k n G)
  else .error .undefinedBehaviour

/-! ## The memories -/

theorem rowMem_eq {maximum : ℤ} (least : -1 ≤ maximum) :
    rowMem n G i maximum = max maximum (maxMemX n G i) := by
  have loop : ∀ count, (List.range count).foldl (fun maximum j =>
      if mem (G.getD (i * n + j) 0) > maximum then mem (G.getD (i * n + j) 0) else maximum) maximum =
        max maximum ((List.range count).foldl (fun maximum j =>
          if mem (G.getD (i * n + j) 0) > maximum then mem (G.getD (i * n + j) 0) else maximum)
            (-1)) := by
    intro count
    induction count with
    | zero => exact (max_eq_left least).symm
    | succ count ih =>
      simp only [List.range_succ, List.foldl_append, List.foldl_cons, List.foldl_nil, ih]
      grind
  exact loop n

theorem maxMemX_spec (i : ℕ) : (∀ j < n, mem (G.getD (i * n + j) 0) ≤ maxMemX n G i) ∧
    (maxMemX n G i = -1 ∨ ∃ j < n, mem (G.getD (i * n + j) 0) = maxMemX n G i) := by
  have loop : ∀ count, let maximum := (List.range count).foldl (fun maximum j =>
      if mem (G.getD (i * n + j) 0) > maximum then mem (G.getD (i * n + j) 0) else maximum) (-1)
      (∀ j < count, mem (G.getD (i * n + j) 0) ≤ maximum) ∧
        (maximum = -1 ∨ ∃ j < count, mem (G.getD (i * n + j) 0) = maximum) := by
    intro count
    induction count with
    | zero => simp
    | succ count ih =>
      simp only [List.range_succ, List.foldl_append, List.foldl_cons, List.foldl_nil]
      obtain ⟨largest, attained⟩ := ih
      split
      · rename_i larger
        refine ⟨fun j below => ?_, Or.inr ⟨count, Nat.lt_succ_self count, rfl⟩⟩
        rcases Nat.lt_succ_iff_lt_or_eq.mp below with earlier | rfl
        · exact (largest j earlier).trans larger.le
        · exact le_rfl
      · rename_i smaller
        refine ⟨fun j below => ?_, attained.imp_right fun ⟨j, below, same⟩ =>
          ⟨j, Nat.lt_succ_of_lt below, same⟩⟩
        rcases Nat.lt_succ_iff_lt_or_eq.mp below with earlier | rfl
        · exact largest j earlier
        · exact not_lt.mp smaller
  exact loop n

theorem maxMemX_le (row : i < k) : maxMemX n G i ≤ maxMem k n G := by
  have loop : ∀ count, let maximum := (List.range count).foldl (fun maximum i =>
      rowMem n G i maximum) (-1)
      (∀ i < count, maxMemX n G i ≤ maximum) ∧ -1 ≤ maximum := by
    intro count
    induction count with
    | zero => simp
    | succ count ih =>
      obtain ⟨rows, least⟩ := ih
      simp only [List.range_succ, List.foldl_append, List.foldl_cons, List.foldl_nil]
      rw [rowMem_eq least]
      refine ⟨fun i below => ?_, least.trans (le_max_left _ _)⟩
      rcases Nat.lt_succ_iff_lt_or_eq.mp below with earlier | rfl
      · exact (rows i earlier).trans (le_max_left _ _)
      · exact le_max_right _ _
  exact (loop k).1 i row

theorem memory_lt_digits (row : i < k) (register : 0 ≤ maxMemX n G i) :
    memory n G i + 1 ≤ digits k n G := by
  have most := maxMemX_le (n := n) (G := G) row
  rw [memory, digits]
  omega

/-! ## Sums over bits -/

theorem parity_foldl (a : ℕ → ℕ) (out count : ℕ) :
    (((List.range count).foldl (fun out m => (out + a m) % 2) out : ℕ) : ZMod 2) =
      out + ∑ m ∈ Finset.range count, (a m : ZMod 2) := by
  induction count with
  | zero => simp
  | succ count ih =>
    rw [List.range_succ, List.foldl_append, List.foldl_cons, List.foldl_nil, ZMod.natCast_mod,
      Nat.cast_add, ih, Finset.sum_range_succ, add_assoc]

theorem sum_digits {g word l m : ℕ} (short : m ≤ l) (fits : word < 2 ^ m) :
    ∑ i ∈ Finset.range l,
        (((dec2base g 2 l).getD i 0 * (dec2base word 2 l).getD i 0 : ℕ) : ZMod 2) =
      ∑ d ∈ Finset.range m,
        (((dec2base g 2 m).getD d 0 * (dec2base word 2 m).getD d 0 : ℕ) : ZMod 2) := by
  obtain ⟨e, rfl⟩ := Nat.exists_eq_add_of_le' short
  have tail : ∀ x, ∀ d < m, (dec2base x 2 (e + m)).getD (e + d) 0 = (dec2base x 2 m).getD d 0 := by
    intro x d below
    have place : e + m - 1 - (e + d) = m - 1 - d := by omega
    rw [dec2base_getD 2 (by omega), dec2base_getD 2 below, place]
  have lead : ∀ i < e, (dec2base word 2 (e + m)).getD i 0 = 0 := by
    intro i below
    have small : word < 2 ^ (e + m - 1 - i) :=
      fits.trans_le (Nat.pow_le_pow_right Nat.two_pos (by omega))
    rw [dec2base_getD 2 (by omega), Nat.div_eq_of_lt small]
  rw [Finset.sum_range_add, Finset.sum_eq_zero, zero_add]
  · refine Finset.sum_congr rfl fun d member => ?_
    have below := Finset.mem_range.mp member
    rw [tail g d below, tail word d below]
  · intro i member
    rw [lead i (Finset.mem_range.mp member), Nat.mul_zero, Nat.cast_zero]

theorem outb_sum (registers : ∀ i < k, 0 ≤ maxMemX n G i) (s i nn : ℕ) :
    (outb k n G s i nn : ZMod 2) = ∑ j ∈ Finset.range k, ∑ d ∈ Finset.range (memory n G j + 1),
      (((dec2base (G.getD (j * n + nn) 0) 2 (memory n G j + 1)).getD d 0 *
        (dec2base ((tx k n G s i).getD j 0) 2 (memory n G j + 1)).getD d 0 : ℕ) : ZMod 2) := by
  have loop : ∀ count ≤ k,
      (((List.range count).foldl (fun out j =>
        (List.range (digits k n G)).foldl (fun out m =>
          (out + (dec2base (G.getD (j * n + nn) 0) 2 (digits k n G)).getD m 0 *
            (dec2base ((tx k n G s i).getD j 0) 2 (digits k n G)).getD m 0) % 2) out) 0 : ℕ) :
              ZMod 2) =
      ∑ j ∈ Finset.range count, ∑ d ∈ Finset.range (memory n G j + 1),
        (((dec2base (G.getD (j * n + nn) 0) 2 (memory n G j + 1)).getD d 0 *
          (dec2base ((tx k n G s i).getD j 0) 2 (memory n G j + 1)).getD d 0 : ℕ) : ZMod 2) := by
    intro count
    induction count with
    | zero => exact fun _ => Nat.cast_zero
    | succ count ih =>
      intro row
      have fits := ShiftRegister.entered_lt (dec2base_bit i k count)
        (sx_lt (n := n) (G := G) s row)
      rw [← tx_getD row, ← Nat.pow_succ] at fits
      rw [List.range_succ, List.foldl_append, List.foldl_cons, List.foldl_nil,
        parity_foldl (fun m => (dec2base (G.getD (count * n + nn) 0) 2 (digits k n G)).getD m 0 *
            (dec2base ((tx k n G s i).getD count 0) 2 (digits k n G)).getD m 0),
        ih (Nat.le_of_succ_le row), Finset.sum_range_succ,
        sum_digits (memory_lt_digits row (registers count row)) fits]
  exact loop k le_rfl

/-! ## Runs from state 0 -/

/-- Bit `i` of an input symbol. -/
def inputBit (k i u : ℕ) : ℕ := (dec2base u 2 k).getD i 0

variable (k n G) in
/-- Generator `(i, j)` as a polynomial in `D`, by its coefficients: the binary word of as many digits
as the row has delays, whose first digit is that of `D^0` (`gr-trellis.xml:264-266`: 6, which is
110, is `1 + D`). -/
def generator (i j d : ℕ) : ZMod 2 :=
  ((dec2base (G.getD (i * n + j) 0) 2 (memory n G i + 1)).getD d 0 : ℕ)

variable (k) in
/-- The stream of bit `i` of the inputs. -/
def inputStream (us : List ℕ) (i t : ℕ) : ZMod 2 := (inputBit k i (us.getD t 0) : ℕ)

theorem registers_after {us : List ℕ} (inputs : ∀ u ∈ us, u < 2 ^ k) {j : ℕ} (row : j < k) :
    (convMachine k n G).machine.after 0 us < 2 ^ sumMaxMem k n G ∧
      (sx k n G ((convMachine k n G).machine.after 0 us)).getD j 0 =
        ShiftRegister.content (memory n G j) (us.reverse.map (inputBit k j)) := by
  induction us using List.reverseRecOn with
  | nil => exact ⟨Nat.two_pow_pos _, sx_zero j⟩
  | append_singleton us u ih =>
    obtain ⟨state, held⟩ := ih fun v member => inputs v (List.mem_append_left _ member)
    have input : u < 2 ^ k := inputs u (by simp)
    have next : (convMachine k n G).machine.after 0 (us ++ [u]) =
        convNext k n G ((convMachine k n G).machine.after 0 us) u := by
      rw [Mealy.after_append]
      exact table_getD _ state input
    rw [next, sx_convNext row, held]
    refine ⟨convNext_lt _ _, ?_⟩
    simp [ShiftRegister.content, inputBit]

theorem recent_bits (inside : t < us.length) (f : ℕ → ℕ) (d : ℕ) :
    ((us.take (t + 1)).reverse.map f).getD d 0 = if d < t + 1 then f (us.getD (t - d) 0) else 0 := by
  have length : ((us.take (t + 1)).reverse.map f).length = t + 1 := by simp; omega
  split
  · rename_i recent
    have there : t - d < us.length := by omega
    have whole : min (t + 1) us.length = t + 1 := by omega
    rw [List.getD_eq_getElem _ _ (length.symm ▸ recent)]
    simp [there, whole]
  · rename_i earlier
    exact List.getD_eq_default _ _ (by omega)

theorem transition_digit (inputs : ∀ u ∈ us, u < 2 ^ k) {d : ℕ} (inside : t < us.length)
    (row : j < k) (recent : d < memory n G j + 1) :
    (dec2base ((tx k n G ((convMachine k n G).machine.after 0 (us.take t)) (us.getD t 0)).getD j 0) 2
      (memory n G j + 1)).getD d 0 = if d < t + 1 then inputBit k j (us.getD (t - d) 0) else 0 := by
  have bits : ∀ c ∈ (us.take t).reverse.map (inputBit k j), c < 2 := by
    intro c member
    obtain ⟨u, -, rfl⟩ := List.mem_map.mp member
    exact dec2base_bit u k j
  have held := (@registers_after k n G (us.take t)
    (fun u member => inputs u (List.mem_of_mem_take member)) j row).2
  have place : memory n G j + 1 - 1 - d = memory n G j - d := by omega
  have now : (us.take (t + 1)).reverse.map (inputBit k j) =
      inputBit k j (us.getD t 0) :: (us.take t).reverse.map (inputBit k j) := by
    rw [List.take_succ_eq_append_getElem inside, List.reverse_append,
      List.getD_eq_getElem _ _ inside]
    rfl
  rw [dec2base_getD 2 recent, place, tx_getD row, held, ← recent_bits inside, now]
  exact ShiftRegister.entered_content (dec2base_bit _ k j) bits (Nat.le_of_lt_succ recent)

theorem output_sum (registers : ∀ i < k, 0 ≤ maxMemX n G i) (inputs : ∀ u ∈ us, u < 2 ^ k) {nn : ℕ}
    (inside : t < us.length) (output : nn < n) :
    (((dec2base (((convMachine k n G).machine.outputs 0 us).getD t 0) 2 n).getD nn 0 : ℕ) : ZMod 2) =
      ∑ i ∈ Finset.range k, conv (generator n G i nn) (inputStream k us i) t := by
  have state : (convMachine k n G).machine.after 0 (us.take t) < 2 ^ sumMaxMem k n G :=
    @Fsm.after_lt (convMachine k n G) 0 (us.take t) (Nat.two_pow_pos _)
      fun u member => inputs u (List.mem_of_mem_take member)
  have input : us.getD t 0 < 2 ^ k := by
    rw [List.getD_eq_getElem _ _ inside]
    exact inputs _ (List.getElem_mem inside)
  have now : ((convMachine k n G).machine.outputs 0 us).getD t 0 =
      convOutput k n G ((convMachine k n G).machine.after 0 (us.take t)) (us.getD t 0) := by
    rw [List.getD_eq_getElem?_getD, Mealy.getElem?_outputs, List.getElem?_eq_getElem inside,
      List.getD_eq_getElem _ _ inside]
    exact table_getD _ state (List.getD_eq_getElem _ _ inside ▸ input)
  rw [now, convOutput_digit output, outb_sum registers]
  refine Finset.sum_congr rfl fun j member => ?_
  have row := Finset.mem_range.mp member
  have short : ∀ d, memory n G j + 1 ≤ d → generator n G j nn d = 0 := by
    intro d beyond
    rw [generator, List.getD_eq_default _ _ (by simpa using beyond), Nat.cast_zero]
  rw [conv, firAfter_eq_sum short]
  refine Finset.sum_congr rfl fun d member => ?_
  rw [transition_digit inputs inside row (Finset.mem_range.mp member)]
  split
  · rw [Nat.cast_mul, smul_eq_mul, Nat.add_sub_cancel]
    rfl
  · rw [Nat.mul_zero, Nat.cast_zero]

/-- What a machine for a convolutional code with this matrix has to do. -/
structure ConvolutionalCode (k n : ℕ) (G : List ℕ) (f : Fsm) : Prop where
  inputs : f.I = 2 ^ k
  outputs : f.O = 2 ^ n
  states : f.S = 2 ^ ∑ i ∈ Finset.range k, memory n G i
  /-- The memory of an input is the largest degree of its generators. -/
  degree : ∀ i < k, (∀ j < n, G.getD (i * n + j) 0 < 2 ^ (memory n G i + 1)) ∧
    ∃ j < n, 2 ^ memory n G i ≤ G.getD (i * n + j) 0
  next : ∀ s < f.S, ∀ u < f.I, f.next s u < f.S
  encodes : ∀ us, (∀ u ∈ us, u < f.I) → (f.machine.outputs 0 us).length = us.length ∧
    ∀ t < us.length, (f.machine.outputs 0 us).getD t 0 < f.O ∧ ∀ j < n,
      (((dec2base ((f.machine.outputs 0 us).getD t 0) 2 n).getD j 0 : ℕ) : ZMod 2) =
        ∑ i ∈ Finset.range k, conv (generator n G i j) (inputStream k us i) t

theorem memory_degree (register : 0 ≤ maxMemX n G i) :
    (∀ j < n, G.getD (i * n + j) 0 < 2 ^ (memory n G i + 1)) ∧
      ∃ j < n, 2 ^ memory n G i ≤ G.getD (i * n + j) 0 := by
  obtain ⟨largest, attained⟩ := maxMemX_spec (n := n) (G := G) i
  constructor
  · intro j output
    have most := largest j output
    by_cases zero : G.getD (i * n + j) 0 = 0
    · rw [zero]
      exact Nat.two_pow_pos _
    · rw [mem, if_pos zero] at most
      refine (Nat.log2_lt zero).mp ?_
      rw [memory]
      omega
  · rcases attained with none | ⟨j, output, same⟩
    · omega
    · refine ⟨j, output, ?_⟩
      have nonzero : G.getD (i * n + j) 0 ≠ 0 := by
        intro zero
        rw [mem, if_neg (not_not_intro zero)] at same
        omega
      rw [mem, if_pos nonzero] at same
      have exponent : memory n G i = (G.getD (i * n + j) 0).log2 := by
        rw [memory]
        omega
      rw [exponent]
      exact Nat.log2_self_le nonzero

theorem sumMaxMem_eq : sumMaxMem k n G = ∑ i ∈ Finset.range k, memory n G i := by
  rw [sumMaxMem]
  induction k with
  | zero => rfl
  | succ k ih => simp [List.range_succ, Finset.sum_range_succ, ih]

/-- The constructor builds the machine of the convolutional code, and it does so for every matrix of
positive integers for which `int` holds the sizes. -/
theorem convFsm_encodes (k n : ℕ) (G : List ℕ) :
    (∀ f, convFsm k n G = .ok f → ConvolutionalCode k n G f) ∧
      (0 < n → G.length = k * n → (∀ g ∈ G, 0 < g) → SizesFit k n G →
        ∃ f, convFsm k n G = .ok f) := by
  constructor
  · intro f built
    unfold convFsm at built
    split at built
    · rename_i possible
      obtain ⟨-, registers, -⟩ := possible
      obtain rfl := Except.ok.inj built
      refine ⟨rfl, rfl, congrArg (2 ^ ·) sumMaxMem_eq, fun i row => memory_degree (registers i row),
        fun s state u => Fsm.next_lt state, fun us inputs => ⟨Mealy.length_outputs _ _ _, ?_⟩⟩
      intro t inside
      have there : t < ((convMachine k n G).machine.outputs 0 us).length := by simpa using inside
      refine ⟨?_, fun j output => output_sum registers inputs inside output⟩
      rw [List.getD_eq_getElem _ _ there]
      exact @Fsm.outputs_lt (convMachine k n G) 0 us (Nat.two_pow_pos _) inputs _
        (List.getElem_mem there)
    · cases built
  · intro outputs length positive fits
    refine ⟨convMachine k n G, if_pos ⟨length.ge, fun i row => ?_, fits⟩⟩
    have inside : i * n + 0 < G.length := length ▸ packed_lt row outputs
    have entry := positive _ (List.getElem_mem inside)
    have first := (maxMemX_spec (n := n) (G := G) i).1 0 outputs
    rw [List.getD_eq_getElem _ _ inside, mem, if_pos entry.ne'] at first
    exact (Int.natCast_nonneg _).trans first

/-- The code with generators `1 + D^2` and `1 + D + D^2`. -/
theorem convFsm_encodes_five_seven : ∃ f, convFsm 1 2 [5, 7] = .ok f ∧
    ConvolutionalCode 1 2 [5, 7] f := by
  obtain ⟨f, built⟩ := (convFsm_encodes 1 2 [5, 7]).2 (by decide) rfl (by decide) (by decide)
  exact ⟨f, built, (convFsm_encodes 1 2 [5, 7]).1 f built⟩

/-- With 16 bits of memory `d_S*d_S` is more than `int` holds. -/
theorem no_sixteen_bits_of_memory : ¬ ∀ (k n : ℕ) (G : List ℕ), 0 < n → G.length = k * n →
    (∀ g ∈ G, 0 < g) → ∃ f, convFsm k n G = .ok f ∧ ConvolutionalCode k n G f := by
  intro builds
  obtain ⟨f, built, -⟩ := builds 1 2 [65537, 65537] (by decide) rfl (by decide)
  have refused : convFsm 1 2 [65537, 65537] = .error .undefinedBehaviour := if_neg (by decide)
  rw [refused] at built
  cases built

end GnuRadio
