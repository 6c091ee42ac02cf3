import GnuRadio.Misc.LinkedList
import GnuRadio.Pmt.Memory

/-!
# The symbol table

The table as it lies in memory: each place points to the first symbol of a chain,
and each symbol points to the next one (`pmt.cc:209-270`). It refines the table of
`PmtMemory`, where a chain is a list, and so every walk along a chain ends.
-/

namespace GnuRadio

/-- `pmt_symbol` (`pmt_int.h:93-107`). -/
structure SymbolCell where
  d_name : List UInt8
  d_next : Option Nat

/-- `s_symbol_hash_table` and the symbols in memory. A null pointer is `none`. -/
structure SymbolTable where
  /-- The address that `new` returns next. -/
  fresh : Nat
  /-- The symbol at an address; there may be another object. -/
  heap : Nat → Option SymbolCell
  s_symbol_hash_table : Fin symbolHashTableSize → Option Nat

namespace SymbolTable

/-- No symbols yet. `PMT_T`, `PMT_F`, `PMT_NIL` and `PMT_EOF` have the first addresses. -/
def initial : SymbolTable where
  fresh := 4
  heap _ := none
  s_symbol_hash_table _ := none

/-- `hash_string(name) % SYMBOL_HASH_TABLE_SIZE`. -/
def hash (name : List UInt8) : Fin symbolHashTableSize :=
  ⟨symbolHash name, Nat.mod_lt _ (by decide)⟩

variable (w : SymbolTable)

/-- The cell behind a symbol in its chain. -/
def next (sym : Nat) : Option Nat := (w.heap sym).bind SymbolCell.d_next

/-- `new pmt_symbol(name)`. -/
def newSymbol (name : List UInt8) : SymbolTable :=
  { w with
    fresh := w.fresh + 1
    heap := Function.update w.heap w.fresh (some ⟨name, none⟩) }

/-- A cell is linked to another. -/
def setNext (sym : Nat) (next : Option Nat) : SymbolTable :=
  { w with heap := Function.update w.heap sym ((w.heap sym).map ({ · with d_next := next })) }

/-- `s_symbol_hash_table[hash] = sym`. -/
def setHead (hash : Fin symbolHashTableSize) (sym : Nat) : SymbolTable :=
  { w with s_symbol_hash_table := Function.update w.s_symbol_hash_table hash (some sym) }

/-- The loop over a chain (`pmt.cc:242-245`): the symbol of this name, if it is there.
`none` when the loop has not ended after this many rounds. -/
def findSymbol (name : List UInt8) : Nat → Option Nat → Option (Option Nat)
  | _, none => some none
  | 0, some _ => none
  | rounds + 1, some sym => do
      let cell ← w.heap sym
      if name == cell.d_name then return some sym
      findSymbol name rounds cell.d_next

/-- `pmt_string_to_symbol` (`pmt.cc:237-254`). The loop has as many rounds as there are
addresses: when it takes more, it goes round for ever. -/
def pmtStringToSymbol (name : List UInt8) : Option (Nat × SymbolTable) := do
  let place := hash name
  match ← w.findSymbol name w.fresh (w.s_symbol_hash_table place) with
  | some sym => return (sym, w)
  | none =>
      let sym := w.fresh
      let w := w.newSymbol name
      let w := w.setNext sym (w.s_symbol_hash_table place)
      return (sym, w.setHead place sym)

/-- `pmt_symbol_to_string` (`pmt.cc:263-270`). What is thrown has the message and the pointer. -/
def pmtSymbolToString (sym : Nat) : Except (String × Nat) (List UInt8) :=
  match w.heap sym with
  | some cell => .ok cell.d_name
  | none => .error ("pmt_symbol_to_string: wrong_type ", sym)

/-- Calls of `pmt_string_to_symbol`, one after the other, and what they return. -/
def pmtStringsToSymbols (w : SymbolTable) : List (List UInt8) → Option (List Nat × SymbolTable)
  | [] => some ([], w)
  | name :: names => do
      let (sym, w) ← w.pmtStringToSymbol name
      let (syms, w) ← pmtStringsToSymbols w names
      return (sym :: syms, w)

/-! ## One chain -/

/-- These symbols lie at their addresses. -/
def Holds (chain : List PmtSymbol) : Prop :=
  ∀ sym ∈ chain, (w.heap sym.address).map SymbolCell.d_name = some sym.name

variable {w} {chain : List PmtSymbol} {head : Option Nat}

theorem findSymbol_eq (name : List UInt8)
    (linked : Linked w.next head (chain.map PmtSymbol.address))
    (holds : w.Holds chain) {rounds : Nat} (enough : chain.length ≤ rounds) :
    w.findSymbol name rounds head =
      some ((chain.find? (fun sym => name == sym.name)).map PmtSymbol.address) := by
  induction chain generalizing head rounds with
  | nil =>
    obtain rfl : head = none := linked
    rw [findSymbol]
    rfl
  | cons sym chain ih =>
    obtain ⟨rfl, linked⟩ := linked
    cases rounds with
    | zero => simp at enough
    | succ rounds =>
      obtain ⟨cell, here, named⟩ := Option.map_eq_some_iff.mp (holds sym List.mem_cons_self)
      have onward : w.next sym.address = cell.d_next := by rw [next, here, Option.bind_some]
      rw [onward] at linked
      have rest := ih linked (fun other member => holds other (List.mem_cons_of_mem _ member))
        (Nat.le_of_succ_le_succ enough)
      rw [findSymbol, here, List.find?_cons, ← named]
      by_cases equal : name = cell.d_name
      · simp [equal]
      · simp [beq_eq_false_iff_ne.mpr equal, equal, rest]

theorem length_le_fresh (linked : Linked w.next head (chain.map PmtSymbol.address)) {fresh : Nat}
    (below : ∀ sym ∈ chain, sym.address < fresh) : chain.length ≤ fresh := by
  have inside : chain.map PmtSymbol.address ⊆ List.range fresh := by
    intro address member
    obtain ⟨sym, listed, rfl⟩ := List.mem_map.mp member
    exact List.mem_range.mpr (below sym listed)
  have few := (List.subperm_of_subset linked.nodup inside).length_le
  rwa [List.length_map, List.length_range] at few

/-! ## A new symbol -/

/-- The table with a new symbol at the front of its chain. -/
def withSymbol (w : SymbolTable) (name : List UInt8) : SymbolTable :=
  ((w.newSymbol name).setNext w.fresh (w.s_symbol_hash_table (hash name))).setHead (hash name)
    w.fresh

@[simp] theorem withSymbol_fresh (name : List UInt8) :
    (w.withSymbol name).fresh = w.fresh + 1 := rfl

@[simp] theorem withSymbol_table : (w.withSymbol name).s_symbol_hash_table =
    Function.update w.s_symbol_hash_table (hash name) (some w.fresh) := rfl

theorem withSymbol_heap : (w.withSymbol name).heap = Function.update w.heap w.fresh
    (some ⟨name, w.s_symbol_hash_table (hash name)⟩) := by
  simp [withSymbol, newSymbol, setNext, setHead]

theorem withSymbol_next : (w.withSymbol name).next =
    Function.update w.next w.fresh (w.s_symbol_hash_table (hash name)) := by
  funext sym
  rw [next, withSymbol_heap]
  by_cases new : sym = w.fresh
  · subst new
    simp
  · simp [new, next]

theorem Holds.withSymbol (name : List UInt8) (holds : w.Holds chain)
    (below : ∀ sym ∈ chain, sym.address < w.fresh) : (w.withSymbol name).Holds chain := by
  intro sym member
  rw [withSymbol_heap, Function.update_of_ne (below sym member).ne]
  exact holds sym member

theorem withSymbol_linked (name : List UInt8)
    (linked : Linked w.next head (chain.map PmtSymbol.address))
    (below : ∀ sym ∈ chain, sym.address < w.fresh) :
    Linked (w.withSymbol name).next head (chain.map PmtSymbol.address) := by
  rw [withSymbol_next]
  apply linked.update
  intro member
  obtain ⟨sym, listed, same⟩ := List.mem_map.mp member
  exact absurd same (below sym listed).ne

/-! ## The refinement -/

theorem getElem?_eq_iff {α β : Type} {R : α → β → Prop} {l : List α} {k : List β}
    (one : Relator.BiUnique R) (each : List.Forall₂ R l k) (i j : Nat) :
    l[i]? = l[j]? ↔ k[i]? = k[j]? := by
  have related : ∀ i : Nat, Option.Rel R l[i]? k[i]? := by
    induction each with
    | nil => exact fun i => .none
    | cons first _ ih =>
      intro i
      cases i with
      | zero => exact .some first
      | succ i => exact ih i
  have single : Relator.BiUnique (Option.Rel R) := by
    constructor
    · intro a b c first second
      cases first with
      | none => cases second; rfl
      | some first =>
        cases second with
        | some second => rw [one.left first second]
    · intro a b c first second
      cases first with
      | none => cases second; rfl
      | some first =>
        cases second with
        | some second => rw [one.right first second]
  exact Relator.rel_eq single (related i) (related j)

/-- The table in memory has the chains of `m`. -/
structure Refines (w : SymbolTable) (m : PmtMemory) : Prop where
  fresh : w.fresh = m.next
  linked : ∀ place, Linked w.next (w.s_symbol_hash_table place)
    ((m.s_symbol_hash_table.getD place []).map PmtSymbol.address)
  holds : ∀ place : Fin symbolHashTableSize, w.Holds (m.s_symbol_hash_table.getD place [])
  hashed : ∀ place : Fin symbolHashTableSize, ∀ sym ∈ m.s_symbol_hash_table.getD place [],
    hash sym.name = place

variable {m : PmtMemory}

theorem refines_initial : initial.Refines .initial := by
  have empty : ∀ place : Fin symbolHashTableSize,
      PmtMemory.initial.s_symbol_hash_table.getD place [] = [] := by
    intro place
    simp [PmtMemory.initial]
  constructor
  · rfl
  · intro place
    rw [empty]
    rfl
  · intro place sym member
    rw [empty] at member
    cases member
  · intro place sym member
    rw [empty] at member
    cases member

theorem Refines.below (refines : w.Refines m) (distinct : m.Distinct) (interned : m.Interned)
    (place : Nat) : ∀ sym ∈ m.s_symbol_hash_table.getD place [], sym.address < w.fresh := by
  intro sym member
  rw [refines.fresh]
  exact distinct.below _ (interned.made place sym member)

theorem Refines.stringToSymbol (refines : w.Refines m) (distinct : m.Distinct)
    (interned : m.Interned) (name : List UInt8) :
    ∃ w', w.pmtStringToSymbol name = some ((m.pmtStringToSymbol name).1.address, w') ∧
      w'.Refines (m.pmtStringToSymbol name).2 := by
  have below := refines.below distinct interned
  have walk := findSymbol_eq name (refines.linked (hash name)) (refines.holds (hash name))
    (length_le_fresh (refines.linked (hash name)) (below (hash name)))
  cases lookup : (m.chain name).find? (fun sym => name == sym.name) with
  | some sym =>
    have found : w.findSymbol name w.fresh (w.s_symbol_hash_table (hash name)) =
        some (some sym.address) := walk.trans (congrArg (some ∘ Option.map _) lookup)
    rw [PmtMemory.stringToSymbol_found lookup]
    refine ⟨w, ?_, refines⟩
    simp [pmtStringToSymbol, found, PmtObject.address]
  | none =>
    have missing : w.findSymbol name w.fresh (w.s_symbol_hash_table (hash name)) = some none :=
      walk.trans (congrArg (some ∘ Option.map _) lookup)
    have inside : symbolHash name < m.s_symbol_hash_table.length := by
      rw [interned.table]
      exact (hash name).isLt
    rw [PmtMemory.stringToSymbol_missing lookup]
    refine ⟨w.withSymbol name, ?_, ?_, ?_, ?_, ?_⟩
    · simp only [pmtStringToSymbol, missing, PmtObject.address, ← refines.fresh]
      rfl
    · rw [withSymbol_fresh, refines.fresh]
      rfl
    · intro place
      have old := withSymbol_linked name (refines.linked place) (below place)
      rw [PmtMemory.getD_modify inside, withSymbol_table, ← refines.fresh]
      by_cases same : hash name = place
      · subst same
        rw [if_pos (show symbolHash name = hash name from rfl), Function.update_self]
        refine ⟨rfl, ?_⟩
        rw [withSymbol_next, Function.update_self, ← withSymbol_next]
        exact old
      · rw [if_neg (fun equal : symbolHash name = place => same (Fin.ext equal)),
          Function.update_of_ne (Ne.symm same)]
        exact old
    · intro place
      have old := (refines.holds place).withSymbol name (below place)
      rw [PmtMemory.getD_modify inside, ← refines.fresh]
      split
      · intro sym member
        rcases List.mem_cons.mp member with rfl | member
        · rw [withSymbol_heap, Function.update_self]
          rfl
        · exact old sym member
      · exact old
    · intro place sym member
      rw [PmtMemory.getD_modify inside] at member
      split at member
      next same =>
        rcases List.mem_cons.mp member with rfl | member
        · exact Fin.ext same
        · exact refines.hashed place sym member
      next => exact refines.hashed place sym member

theorem Refines.stringsToSymbols (refines : w.Refines m) (distinct : m.Distinct)
    (interned : m.Interned) (names : List (List UInt8)) :
    ∃ syms w' m', w.pmtStringsToSymbols names = some (syms, w') ∧ w'.Refines m' ∧
      m'.Distinct ∧ m'.Interned ∧ (∀ x ∈ m.objects, x ∈ m'.objects) ∧
      List.Forall₂ (fun name sym => .leaf sym (.symbol name) ∈ m'.objects) names syms := by
  induction names generalizing w m with
  | nil => exact ⟨[], w, m, rfl, refines, distinct, interned, fun _ member => member, .nil⟩
  | cons name names ih =>
    obtain ⟨w₁, called, refines₁⟩ := refines.stringToSymbol distinct interned name
    obtain ⟨sym, returned, made⟩ := PmtMemory.stringToSymbol_made interned name
    rw [returned, PmtObject.address] at called
    have stepped : pmtStep m (.stringToSymbol name) = some (m.pmtStringToSymbol name).2 := rfl
    obtain ⟨distinct₁, interned₁⟩ := PmtMemory.step_keeps distinct interned stepped
    obtain ⟨syms, w', m', rest, refines', distinct', interned', kept, each⟩ :=
      ih refines₁ distinct₁ interned₁
    refine ⟨sym :: syms, w', m', ?_, refines', distinct', interned', ?_, ?_⟩
    · simp [pmtStringsToSymbols, called, rest]
    · exact fun x member => kept x (PmtMemory.step_grows member stepped)
    · exact .cons (kept _ made) each

theorem Refines.symbolToString (refines : w.Refines m) (interned : m.Interned) {sym : Nat}
    (made : .leaf sym (.symbol name) ∈ m.objects) : w.pmtSymbolToString sym = .ok name := by
  have listed := interned.listed sym name made
  obtain ⟨cell, here, named⟩ :=
    Option.map_eq_some_iff.mp (refines.holds (hash name) ⟨sym, name⟩ listed)
  rw [pmtSymbolToString, here]
  exact congrArg Except.ok named

theorem Refines.strings (refines : w.Refines m) (interned : m.Interned)
    {names : List (List UInt8)} {syms : List Nat}
    (each : List.Forall₂ (fun name sym => .leaf sym (.symbol name) ∈ m.objects) names syms) :
    syms.map w.pmtSymbolToString = names.map .ok := by
  induction each with
  | nil => rfl
  | cons made _ ih => rw [List.map_cons, List.map_cons, ih, refines.symbolToString interned made]

/-- A chain of the table. -/
structure Chain (w : SymbolTable) (place : Fin symbolHashTableSize) (syms : List Nat)
    (names : List (List UInt8)) : Prop where
  /-- Following the pointers one meets these symbols and then a null pointer. -/
  linked : Linked w.next (w.s_symbol_hash_table place) syms
  acyclic : syms.Nodup
  named : syms.map w.pmtSymbolToString = names.map .ok
  distinct : names.Nodup
  hashed : ∀ name ∈ names, hash name = place

theorem Refines.chained (refines : w.Refines m) (distinct : m.Distinct) (interned : m.Interned)
    (place : Fin symbolHashTableSize) : ∃ syms names, w.Chain place syms names := by
  have made := interned.made place
  have acyclic := (refines.linked place).nodup
  refine ⟨_, (m.s_symbol_hash_table.getD place []).map PmtSymbol.name, refines.linked place,
    acyclic, ?_, ?_, ?_⟩
  · rw [List.map_map, List.map_map]
    apply List.map_congr_left
    intro sym member
    exact refines.symbolToString interned (made sym member)
  · apply List.pairwise_map.mpr
    apply (List.pairwise_map.mp acyclic).imp_of_mem
    intro x y member member' apart same
    have object := made y member'
    rw [← same] at object
    exact apart (distinct.single _ _ (.symbol x.name) trivial (made x member) object)
  · intro name member
    obtain ⟨sym, listed, rfl⟩ := List.mem_map.mp member
    exact refines.hashed place sym listed

end SymbolTable

open SymbolTable in
/-- **Interning of symbols.** Every call returns; two calls return one object just when their names
are equal; and every chain of the table ends, without a cycle and without a name twice. -/
theorem symbol_table_interns (names : List (List UInt8)) :
    ∃ syms w, SymbolTable.initial.pmtStringsToSymbols names = some (syms, w) ∧
      (∀ i j : Nat, syms[i]? = syms[j]? ↔ names[i]? = names[j]?) ∧
      syms.map w.pmtSymbolToString = names.map .ok ∧
      ∀ place, ∃ chain named, w.Chain place chain named := by
  obtain ⟨syms, w, m, returned, refines, distinct, interned, -, each⟩ :=
    refines_initial.stringsToSymbols PmtMemory.initial_distinct PmtMemory.initial_interned names
  refine ⟨syms, w, returned, ?_, ?_, ?_⟩
  · have one : Relator.BiUnique fun name sym => .leaf sym (.symbol name) ∈ m.objects := by
      constructor
      · intro name sym name' made made'
        have same := distinct.one _ made _ made' rfl
        exact PmtLeaf.symbol.inj (PmtObject.leaf.inj same).2
      · intro name sym sym' made made'
        exact distinct.single sym sym' (.symbol name) trivial made made'
    exact fun i j => (getElem?_eq_iff one each i j).symm
  · exact refines.strings interned each
  · exact refines.chained distinct interned

-- Both names have the hash 32.
example : (SymbolTable.initial.pmtStringsToSymbols [[32], [1, 16], [32]]).map Prod.fst =
    some [4, 5, 4] := by
  decide

end GnuRadio
