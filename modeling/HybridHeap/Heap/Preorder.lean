import HybridHeap.Heap.Basic

/-!
The cells that a cell reaches through slots, each once, in depth-first order.
-/

namespace HybridHeap

/-- Visit the cells on the stack, and the children of each before what lies below
it. A visited cell is taken out of the cells still to be visited. -/
def preorder (cells : Std.ExtTreeMap CellId (Linked CellId Cell)) (stack : List CellId) :
    List (CellId × Value Slot) :=
  match stack with
  | [] => []
  | c :: stack =>
    match _h : cells[c]? with
    | none => preorder cells stack
    | some e => (c, e.item.value) :: preorder (cells.erase c) (e.item.value.targets ++ stack)
termination_by (cells.size, stack.length)
decreasing_by
  · exact Prod.Lex.right _ (by simp)
  · have : c ∈ cells := by simp [Std.ExtTreeMap.mem_iff_isSome_getElem?, _h]
    have := size_erase_add_one this
    exact Prod.Lex.left _ _ (by omega)

/-- The cells reachable from `c`, itself first. -/
def Heap.reachable (h : Heap) (c : CellId) : List (CellId × Value Slot) :=
  preorder h.objects.entries [c]

end HybridHeap
