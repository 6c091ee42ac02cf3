import GnuRadio.Misc.DelayLine
import GnuRadio.Runtime.Types
import Mathlib.Data.UInt

/-!
# The convolutional interleaver

`interleaver_fifo` is a ring of symbols that is always full, so it is a delay
line. `convolutional_interleaver` has one for each bank, of lengths that grow by
one increment from bank to bank; the deinterleaver has them in the opposite
order. The two fifos that a symbol passes have the same length together in every
bank.
-/

namespace GnuRadio

variable {α : Type}

/-! ## `interleaver_fifo` -/

/-- `interleaver_fifo` (`interleaver_fifo.h`). -/
structure InterleaverFifo (α : Type) where
  size : Nat
  position : Nat
  fifo : List α
  length_eq : fifo.length = size
  position_lt : 0 < size → position < size

namespace InterleaverFifo

/-- The constructor (`interleaver_fifo.h:62-68`). -/
def make [Zero α] (size : Nat) : InterleaverFifo α where
  size := size
  position := 0
  fifo := List.replicate size 0
  length_eq := List.length_replicate
  position_lt := id

/-- `stuff` (`interleaver_fifo.h:45-56`): the oldest symbol. -/
def stuff (f : InterleaverFifo α) (input : α) : α × InterleaverFifo α :=
  if none : f.size = 0 then (input, f)
  else
    have inside : f.position < f.fifo.length := by
      rw [f.length_eq]
      exact f.position_lt (Nat.pos_of_ne_zero none)
    (f.fifo[f.position],
      { size := f.size
        position := if f.position + 1 ≥ f.size then 0 else f.position + 1
        fifo := f.fifo.set f.position input
        length_eq := by rw [List.length_set, f.length_eq]
        position_lt := by
          intro positive
          split
          · exact positive
          · omega })

/-- The symbols of the fifo, oldest first. -/
def contents (f : InterleaverFifo α) : List α := f.fifo.drop f.position ++ f.fifo.take f.position

@[simp] theorem contents_make [Zero α] (size : Nat) :
    (make (α := α) size).contents = List.replicate size 0 := by
  simp [contents, make]

theorem stuff_eq (f : InterleaverFifo α) (input : α) :
    (f.stuff input).1 = (shift f.contents input).1 ∧
      (f.stuff input).2.contents = (shift f.contents input).2 := by
  have length := f.length_eq
  unfold stuff
  split
  · rename_i none
    have empty : f.fifo = [] := List.eq_nil_of_length_eq_zero (length.trans none)
    simp [contents, empty, shift]
  · rename_i some
    have inside := f.position_lt (Nat.pos_of_ne_zero some)
    have front : f.contents = f.fifo[f.position] :: (f.fifo.drop (f.position + 1) ++
        f.fifo.take f.position) := by
      rw [contents, List.drop_eq_getElem_cons (by omega), List.cons_append]
    rw [front]
    refine ⟨rfl, ?_⟩
    have cells : f.fifo.set f.position input =
        f.fifo.take f.position ++ input :: f.fifo.drop (f.position + 1) := by
      rw [List.set_eq_take_append_cons_drop, if_pos (by omega)]
    have before : (f.fifo.take f.position).length = f.position := by
      rw [List.length_take, length]
      omega
    simp only [shift, contents, cells]
    split
    · rename_i last
      have behind : f.fifo.drop (f.position + 1) = [] := List.drop_eq_nil_of_le (by omega)
      simp [behind]
    · have stored : (f.fifo.take f.position ++ [input]).length = f.position + 1 := by
        rw [List.length_append, before, List.length_singleton]
      rw [List.append_cons, List.drop_left' stored, List.take_left' stored, List.append_assoc]

end InterleaverFifo

/-! ## `convolutional_interleaver` -/

/-- `convolutional_interleaver` (`convolutional_interleaver.h`); the constructor checks are its
invariant. -/
structure ConvolutionalInterleaver (α : Type) where
  commutator : Nat
  nbanks : Nat
  fifoSizeIncr : Nat
  fifo : List (InterleaverFifo α)
  commutator_lt : commutator < nbanks
  length_eq : fifo.length = nbanks

namespace ConvolutionalInterleaver

/-- The constructor (`convolutional_interleaver.h:71-95`). -/
def make [Zero α] (interleaveP : Bool) (nbanks fifoSizeIncr : Int) :
    Except CppException (ConvolutionalInterleaver α) :=
  if few : nbanks < 1 then .error .assertFailed
  else if fifoSizeIncr < 1 then .error .assertFailed
  -- `i * fifo_size_incr` is an `int`
  else if ∃ i < nbanks.toNat, intMax < i * fifoSizeIncr.toNat then .error .undefinedBehaviour
  else .ok {
    commutator := 0
    nbanks := nbanks.toNat
    fifoSizeIncr := fifoSizeIncr.toNat
    fifo := (List.range nbanks.toNat).map fun i =>
      .make ((if interleaveP then i else nbanks.toNat - 1 - i) * fifoSizeIncr.toNat)
    commutator_lt := by omega
    length_eq := by rw [List.length_map, List.length_range] }

/-- `sync` (`convolutional_interleaver.h:45`). -/
def sync (c : ConvolutionalInterleaver α) : ConvolutionalInterleaver α :=
  { c with
    commutator := 0
    commutator_lt := Nat.zero_lt_of_lt c.commutator_lt }

/-- `end_to_end_delay` (`convolutional_interleaver.h:112-117`). -/
def endToEndDelay (c : ConvolutionalInterleaver α) : Except CppException Int := do
  let m ← asInt (c.nbanks * c.fifoSizeIncr)
  asInt (m * (c.nbanks - 1))

/-- `transform` of one symbol (`convolutional_interleaver.h:51-57`). -/
def transform (c : ConvolutionalInterleaver α) (input : α) : α × ConvolutionalInterleaver α :=
  have inside : c.commutator < c.fifo.length := by
    rw [c.length_eq]
    exact c.commutator_lt
  let stuffed := c.fifo[c.commutator].stuff input
  (stuffed.1,
    { c with
      fifo := c.fifo.set c.commutator stuffed.2
      commutator := if c.commutator + 1 ≥ c.nbanks then 0 else c.commutator + 1
      commutator_lt := by
        have := c.commutator_lt
        split <;> omega
      length_eq := by rw [List.length_set, c.length_eq] })

/-- `transform` of a bunch of symbols (`convolutional_interleaver.h:119-127`). -/
def transformAll (c : ConvolutionalInterleaver α) (input : List α) :
    List α × ConvolutionalInterleaver α := feed transform c input

/-! ## The banks as delay lines -/

/-- What the fifo of a bank holds, oldest first. -/
def line (c : ConvolutionalInterleaver α) (i : Nat) : List α :=
  (c.fifo[i]?.map InterleaverFifo.contents).getD []

theorem transform_commutator (c : ConvolutionalInterleaver α) (x : α) :
    (c.transform x).2.commutator = turnAfter c.nbanks c.commutator := rfl

theorem transform_nbanks (c : ConvolutionalInterleaver α) (x : α) :
    (c.transform x).2.nbanks = c.nbanks := rfl

theorem transform_eq (c : ConvolutionalInterleaver α) (x : α) :
    (c.transform x).1 = (shift (c.line c.commutator) x).1 ∧
      (c.transform x).2.line =
        Function.update c.line c.commutator (shift (c.line c.commutator) x).2 := by
  have inside : c.commutator < c.fifo.length := by
    rw [c.length_eq]
    exact c.commutator_lt
  have here : c.line c.commutator = (c.fifo[c.commutator]).contents := by
    rw [line, List.getElem?_eq_getElem inside]
    rfl
  obtain ⟨output, after⟩ := (c.fifo[c.commutator]).stuff_eq x
  rw [here]
  refine ⟨output, ?_⟩
  funext i
  simp only [line, transform]
  by_cases same : i = c.commutator
  · rw [same, Function.update_self, List.getElem?_set_self inside]
    exact after
  · rw [Function.update_of_ne same, List.getElem?_set_ne (Ne.symm same)]
    rfl

/-- Two interleavers of equally many banks whose commutators stand together, and what both hold
of the stream that passes them. -/
structure Aligned (n k : Nat) (c d : ConvolutionalInterleaver α) (q : List α) : Prop where
  banks : c.nbanks = n
  banks' : d.nbanks = n
  together : d.commutator = c.commutator
  spread : Spread n k c.commutator (fun i => d.line i ++ c.line i) q

theorem Aligned.step {n k : Nat} {c d : ConvolutionalInterleaver α} {q : List α}
    (aligned : Aligned n k c d q) (x : α) :
    (cascade transform transform (c, d) x).1 = (shift q x).1 ∧
      Aligned n k (cascade transform transform (c, d) x).2.1
        (cascade transform transform (c, d) x).2.2 (shift q x).2 := by
  obtain ⟨passed, kept⟩ := c.transform_eq x
  obtain ⟨output, rest⟩ := d.transform_eq (c.transform x).1
  obtain ⟨same, next⟩ := aligned.spread.shift x
  obtain ⟨through, held⟩ := shift_shift (c.line c.commutator) (d.line c.commutator) x
  rw [aligned.together, passed] at output rest
  refine ⟨?_, aligned.banks, aligned.banks', ?_, ?_⟩
  · exact (congrArg (fun y => (d.transform y).1) passed).trans (output.trans (through.trans same))
  · change turnAfter d.nbanks d.commutator = turnAfter c.nbanks c.commutator
    rw [aligned.together, aligned.banks, aligned.banks']
  · change Spread n k (turnAfter c.nbanks c.commutator) (fun i =>
      (d.transform (c.transform x).1).2.line i ++ (c.transform x).2.line i) (shift q x).2
    rw [aligned.banks, kept, passed, rest]
    have lines : (fun i =>
        Function.update d.line c.commutator
            (shift (d.line c.commutator) (shift (c.line c.commutator) x).1).2 i ++
          Function.update c.line c.commutator (shift (c.line c.commutator) x).2 i) =
        Function.update (fun i => d.line i ++ c.line i) c.commutator
          (shift (d.line c.commutator ++ c.line c.commutator) x).2 := by
      funext i
      by_cases here : i = c.commutator
      · rw [here, Function.update_self, Function.update_self, Function.update_self, held]
      · rw [Function.update_of_ne here, Function.update_of_ne here, Function.update_of_ne here]
    rw [lines]
    exact next

variable {n k : Nat} {c d : ConvolutionalInterleaver α}

theorem Aligned.passed {q : List α} (aligned : Aligned n k c d q) (xs : List α) :
    (feed transform d (feed transform c xs).1).1 = (q ++ xs).take xs.length ∧
      Aligned n k (feed transform c xs).2 (feed transform d (feed transform c xs).1).2
        ((q ++ xs).drop xs.length) := by
  have run := feed_simulates (fun s q => Aligned n k s.1 s.2 q)
    (fun s q x aligned => aligned.step x) (s := (c, d)) aligned xs
  rwa [feed_cascade, feed_shift] at run

/-! ## The delay through both -/

/-- The calls to both yield the stream with this delay, however it is divided among them. -/
def PureDelay [Zero α] (c d : ConvolutionalInterleaver α) (delay : Nat) : Prop :=
  ∀ calls calls' : List (List α),
    calls'.flatten = (feed transformAll c calls).1.flatten →
    (feed transformAll d calls').1.flatten = delayed delay calls.flatten

theorem feed_transformAll (c : ConvolutionalInterleaver α) (calls : List (List α)) :
    (feed transformAll c calls).1.flatten = (feed transform c calls.flatten).1 :=
  (feed_feed transform c calls).1

theorem make_ok [Zero α] {interleaveP : Bool} {nbanks fifoSizeIncr : Int}
    (made : make interleaveP nbanks fifoSizeIncr = .ok c) :
    c.commutator = 0 ∧ c.nbanks = nbanks.toNat ∧ c.fifoSizeIncr = fifoSizeIncr.toNat ∧
      ∀ i < nbanks.toNat, c.line i = List.replicate
        ((if interleaveP then i else nbanks.toNat - 1 - i) * fifoSizeIncr.toNat) 0 := by
  unfold make at made
  split at made
  · cases made
  split at made
  · cases made
  split at made
  · cases made
  obtain rfl := Except.ok.inj made
  refine ⟨rfl, rfl, rfl, ?_⟩
  intro i inside
  simp [line, inside]

theorem make_total [Zero α] (interleaveP : Bool) (banks : 1 ≤ n) (incr : 1 ≤ k)
    (fits : n * k * (n - 1) ≤ intMax) :
    ∃ c : ConvolutionalInterleaver α, make interleaveP n k = .ok c := by
  unfold make
  rw [dif_neg (by omega), if_neg (by omega), if_neg]
  · exact ⟨_, rfl⟩
  · rintro ⟨i, inside, wide⟩
    rw [Int.toNat_natCast] at inside wide
    have longest : i * k ≤ n * k * (n - 1) := calc
      i * k ≤ (n - 1) * k := Nat.mul_le_mul_right k (by omega)
      _ ≤ n * ((n - 1) * k) := Nat.le_mul_of_pos_left _ banks
      _ = n * k * (n - 1) := by ring
    omega

theorem aligned_make [Zero α] (banks : 1 ≤ n) (madeC : make true n k = .ok c)
    (madeD : make false n k = .ok d) :
    Aligned n ((n - 1) * k) c d (List.replicate (n * ((n - 1) * k)) 0) := by
  obtain ⟨startC, banksC, -, linesC⟩ := make_ok madeC
  obtain ⟨startD, banksD, -, linesD⟩ := make_ok madeD
  rw [Int.toNat_natCast] at banksC banksD linesC linesD
  refine ⟨banksC, banksD, startD.trans startC.symm, ?_⟩
  rw [startC]
  refine spread_replicate banks _ fun i inside => ?_
  rw [linesC i inside, linesD i inside, if_pos rfl, if_neg Bool.false_ne_true, Int.toNat_natCast,
    List.replicate_append_replicate, ← Nat.add_mul]
  congr 2
  omega

theorem endToEndDelay_ok {delay : Int} (returned : c.endToEndDelay = .ok delay) :
    delay = c.nbanks * c.fifoSizeIncr * (c.nbanks - 1) ∧ delay ≤ intMax := by
  obtain ⟨m, first, rest⟩ := bind_ok.mp returned
  obtain ⟨rfl, -, -⟩ := asInt_ok first
  obtain ⟨rfl, -, most⟩ := asInt_ok rest
  exact ⟨rfl, most⟩

theorem endToEndDelay_total (banks : c.nbanks = n) (incr : c.fifoSizeIncr = k) (some : 1 ≤ n)
    (small : k ≤ intMax) (fits : n * k * (n - 1) ≤ intMax) :
    c.endToEndDelay = .ok (n * k * (n - 1) : Nat) := by
  have product : n * k ≤ intMax := by
    by_cases one : n = 1
    · rwa [one, Nat.one_mul]
    · exact (Nat.le_mul_of_pos_right _ (by omega)).trans fits
  have bound : (intMax : Int) = 2147483647 := rfl
  have cast : ((n : Int) * k) * ((n : Int) - 1) = (n * k * (n - 1) : Nat) := by
    rw [Nat.cast_mul, Nat.cast_mul, Nat.cast_sub some, Nat.cast_one]
  refine bind_ok.mpr ⟨(n : Int) * k, ?_, ?_⟩
  · rw [banks, incr]
    have here : -2147483648 ≤ (n : Int) * k ∧ (n : Int) * k ≤ 2147483647 := by
      rw [← Nat.cast_mul]
      omega
    exact if_pos here
  · rw [banks, cast]
    exact if_pos (by omega)

/-- An interleaver and a deinterleaver started together are a pure delay by what
`end_to_end_delay` returns, if and only if that is an `int`. -/
theorem pure_delay_iff [Zero α] {nbanks fifoSizeIncr : Int} (banks : 1 ≤ nbanks)
    (banksFit : nbanks ≤ intMax) (incr : 1 ≤ fifoSizeIncr) (incrFit : fifoSizeIncr ≤ intMax) :
    (∃ (c d : ConvolutionalInterleaver α) (delay : Int),
      make true nbanks fifoSizeIncr = .ok c ∧ make false nbanks fifoSizeIncr = .ok d ∧
      c.endToEndDelay = .ok delay ∧ d.endToEndDelay = .ok delay ∧ PureDelay c d delay.toNat) ↔
    nbanks * fifoSizeIncr * (nbanks - 1) ≤ intMax := by
  obtain ⟨n, rfl⟩ := Int.eq_ofNat_of_zero_le (show 0 ≤ nbanks by omega)
  obtain ⟨k, rfl⟩ := Int.eq_ofNat_of_zero_le (show 0 ≤ fifoSizeIncr by omega)
  constructor
  · rintro ⟨c, d, delay, madeC, -, returned, -, -⟩
    obtain ⟨-, banksC, incrC, -⟩ := make_ok madeC
    obtain ⟨rfl, fits⟩ := endToEndDelay_ok returned
    rwa [banksC, incrC, Int.toNat_natCast, Int.toNat_natCast] at fits
  · intro fits
    have some : 1 ≤ n := by omega
    have fitsNat : n * k * (n - 1) ≤ intMax := by
      rwa [← Nat.cast_one, ← Nat.cast_sub some, ← Nat.cast_mul, ← Nat.cast_mul, Nat.cast_le] at fits
    obtain ⟨c, madeC⟩ := make_total (α := α) true some (by omega) fitsNat
    obtain ⟨d, madeD⟩ := make_total (α := α) false some (by omega) fitsNat
    obtain ⟨-, banksC, incrC, -⟩ := make_ok madeC
    obtain ⟨-, banksD, incrD, -⟩ := make_ok madeD
    rw [Int.toNat_natCast] at banksC incrC banksD incrD
    refine ⟨c, d, _, madeC, madeD, endToEndDelay_total banksC incrC some (by omega) fitsNat,
      endToEndDelay_total banksD incrD some (by omega) fitsNat, ?_⟩
    intro calls calls' same
    have aligned := aligned_make some madeC madeD
    have order : n * k * (n - 1) = n * ((n - 1) * k) := by ring
    rw [feed_transformAll, same, feed_transformAll, (aligned.passed _).1, Int.toNat_natCast, order,
      delayed]

/-- The two of four banks with fifos that grow by one symbol, the delay being twelve. -/
theorem pure_delay_iff_four : ∃ (c d : ConvolutionalInterleaver UInt8) (delay : Int),
    make true 4 1 = .ok c ∧ make false 4 1 = .ok d ∧
    c.endToEndDelay = .ok delay ∧ d.endToEndDelay = .ok delay ∧ PureDelay c d delay.toNat :=
  (pure_delay_iff (by decide) (by decide) (by decide) (by decide)).mpr (by decide)

/-- With two banks and an increment of `2 ^ 30` the delay of `2 ^ 31` symbols is no `int`. -/
theorem pure_delay_overflows : ¬ ∃ (c d : ConvolutionalInterleaver UInt8) (delay : Int),
    make true 2 (2 ^ 30) = .ok c ∧ make false 2 (2 ^ 30) = .ok d ∧
    c.endToEndDelay = .ok delay ∧ d.endToEndDelay = .ok delay ∧ PureDelay c d delay.toNat := by
  rintro ⟨c, d, delay, made, -, returned, -, -⟩
  obtain ⟨-, banks, incr, -⟩ := make_ok made
  obtain ⟨same, most⟩ := endToEndDelay_ok returned
  rw [banks, incr] at same
  have wide : delay = 2 ^ 31 := same
  rw [wide] at most
  exact absurd most (by decide)

end ConvolutionalInterleaver

end GnuRadio
