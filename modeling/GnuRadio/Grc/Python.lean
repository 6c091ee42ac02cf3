import Mathlib.Data.List.AList

/-!
# What the flow graph editor uses of Python

A `dict` has no order of its own, so that an association list without repeated keys stands for it.
-/

namespace GnuRadio

/-- A `str`. -/
abbrev Text := List Char

instance : LawfulBEq Text := inferInstance

/-- A `dict`. -/
abbrev PyDict (K V : Type) := AList fun _ : K => V

/-- What is raised. -/
inductive PyError where
  | keyError
  /-- `KeyError('Cannot insert, key "%s" already exists')` for the key. -/
  | cannotInsert
  | valueError
  | indexError
  /-- `Exception` with its message. -/
  | exception (message : String)
  deriving DecidableEq, Repr

variable {K V : Type} [DecidableEq K]

/-- `d[key]`. -/
def pyGetItem (d : PyDict K V) (key : K) : Except PyError V :=
  match d.lookup key with
  | some value => .ok value
  | none => .error .keyError

/-- `del d[key]`. -/
def pyDelItem (d : PyDict K V) (key : K) : Except PyError (PyDict K V) :=
  if key ∈ d then .ok (d.erase key) else .error .keyError

/-- `l.index(x)`. -/
def pyIndex (l : List K) (x : K) : Except PyError ℕ :=
  if x ∈ l then .ok (l.idxOf x) else .error .valueError

/-- `l.remove(x)`, which removes the first one. -/
def pyRemove (l : List K) (x : K) : Except PyError (List K) :=
  if x ∈ l then .ok (l.erase x) else .error .valueError

/-- `l.insert(index, x)`, at the end when the index is beyond it. -/
def pyInsert (l : List K) (index : ℕ) (x : K) : List K := l.take index ++ x :: l.drop index

end GnuRadio
