import Std.Data.ExtTreeMap

/-!
References to cells. A slot is a reference stored inside a cell. A handle is a
reference from outside: it owns an entry on the root list of its cell's heap,
and a ticket names that entry.
-/

namespace HybridHeap

abbrev HeapId := Nat

abbrev EnvId := Nat

/-- The number of an entry on a root list, counted in order of registration. -/
abbrev Ticket := Nat

/-- A cell: the heap it lives in, and its number among all cells ever allocated
in any heap. -/
structure CellId where
  heap : HeapId
  number : Nat
  deriving Repr, DecidableEq, Inhabited

instance : Ord CellId := ⟨compareLex (compareOn CellId.heap) (compareOn CellId.number)⟩

instance : Std.TransOrd CellId :=
  inferInstanceAs (Std.TransCmp (compareLex (compareOn CellId.heap) (compareOn CellId.number)))

instance : Std.LawfulEqOrd CellId where
  eq_of_compare {a b} h := by
    have h' : compareLex (compareOn CellId.heap) (compareOn CellId.number) a b = .eq := h
    simp only [compareLex_eq_eq, compareOn, Std.compare_eq_iff_eq] at h'
    cases a
    cases b
    simp_all

/-- A reference stored in a cell; `none` refers to nothing. -/
abbrev Slot := Option CellId

/-- An entry on a root list together with the cell that it keeps alive. -/
structure Root where
  cell : CellId
  ticket : Ticket
  deriving Repr, DecidableEq, Inhabited

/-- A rooted reference; `none` refers to nothing. -/
abbrev Handle := Option Root

namespace Handle

/-- The cell a handle refers to, without its root. -/
def target (h : Handle) : Slot :=
  h.map Root.cell

end Handle

end HybridHeap
