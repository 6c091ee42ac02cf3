/-!
# Names shared by the runtime modules

Blocks are known by their `unique_id`: it is given out once for each block
(`gr_basic_block.cc:49`) and it is what `operator<` on block pointers compares
(`gr_basic_block.h`), so it stands for the pointer as well.
-/

namespace GnuRadio

/-- The `unique_id` of a block. -/
abbrev BlockId := Nat

/-- The address of a `gr_buffer`. -/
abbrev BufferId := Nat

/-- How a C++ call of the runtime ends when it does not return. -/
inductive CppException where
  | invalidArgument (what : String)
  | runtimeError (what : String)
  | badAlloc
  /-- A failed `assert`. -/
  | assertFailed
  /-- Arithmetic or a cast outside the range of `int`, a null or dangling pointer. -/
  | undefinedBehaviour
  deriving DecidableEq, Repr

/-- The largest value of `int`. -/
def intMax : Nat := 2147483647

/-- A result that an `int` has to hold. -/
def asInt (x : Int) : Except CppException Int :=
  if -2147483648 ≤ x ∧ x ≤ 2147483647 then .ok x else .error .undefinedBehaviour

theorem asInt_ok {x y : Int} (fits : asInt x = .ok y) :
    y = x ∧ -2147483648 ≤ x ∧ x ≤ 2147483647 := by
  unfold asInt at fits
  split at fits
  · exact ⟨(Except.ok.inj fits).symm, ‹_›⟩
  · cases fits

theorem asInt_natCast {n : Nat} (fits : n ≤ intMax) : asInt n = .ok n := by
  unfold intMax at fits
  exact if_pos ⟨by omega, by omega⟩

theorem asInt_natCast_error {n : Nat} (beyond : intMax < n) :
    asInt n = .error .undefinedBehaviour := by
  unfold intMax at beyond
  exact if_neg (by omega)

end GnuRadio
