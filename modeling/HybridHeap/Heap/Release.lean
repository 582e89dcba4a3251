import HybridHeap.Heap.Basic

/-!
Giving up references. A cell whose count reaches zero leaves the heap at once,
and the references in its slots are given up with it.
-/

namespace HybridHeap

namespace Reclamation

/-- Give up one reference to each cell on the worklist. The children of a freed
cell go on top of the list, the last one first. -/
def release (r : Reclamation) (work : List CellId) : Reclamation :=
  match work with
  | [] => r
  | c :: work =>
    match r.heap.find? c with
    | none => release (r.map (·.fault (.absentCell c))) work
    | some cell =>
      match cell.count with
      | 0 => release (r.map (·.fault (.countUnderflow c))) work
      | 1 =>
        match _h : r.bury c cell with
        | .error f => release (r.map (·.fault (.link f))) work
        | .ok buried =>
          let freed := buried.map fun h =>
            { h with counters := { h.counters with eagerFrees := h.counters.eagerFrees + 1 } }
          release (freed.report (.freed c)) (cell.value.targets.reverse ++ work)
      | n + 2 =>
        release (r.map (·.modifyCell c fun cell => { cell with count := n + 1 })) work
termination_by (r.heap.objects.size, work.length)
decreasing_by
  · exact Prod.Lex.right _ (by simp)
  · exact Prod.Lex.right _ (by simp)
  · exact Prod.Lex.right _ (by simp)
  · have := size_bury _h
    exact Prod.Lex.left _ _ (by simp only [report, map]; omega)
  · simp only [map, Heap.size_modifyCell]
    exact Prod.Lex.right _ (by simp)

/-- Give up one reference to each cell, each with all that follows from it
before the next. -/
def releaseEach (r : Reclamation) (cells : List CellId) : Reclamation :=
  cells.foldl (fun r c => r.release [c]) r

/-- Give up every reference that writers have queued. -/
def drain (r : Reclamation) : Reclamation :=
  (r.map fun h => { h with deferred := [] }).releaseEach r.heap.deferred

theorem weight_release (r : Reclamation) (work : List CellId) :
    (r.release work).weight = r.weight := by
  fun_induction release r work with
  | case1 => rfl
  | case2 r c work _ ih => rw [ih]; rfl
  | case3 r c work cell _ _ ih => rw [ih]; rfl
  | case4 r c work cell _ _ f _ ih => rw [ih]; rfl
  | case5 r c work cell _ _ buried h freed ih =>
    rw [ih, weight_report, ← weight_bury h]
    rfl
  | case6 r c work cell _ n _ ih => rw [ih, weight_map (Heap.size_modifyCell ..)]

theorem weight_releaseEach (r : Reclamation) (cells : List CellId) :
    (r.releaseEach cells).weight = r.weight := by
  induction cells generalizing r with
  | nil => rfl
  | cons c cells ih => exact (ih (r.release [c])).trans (weight_release r [c])

theorem weight_drain (r : Reclamation) : r.drain.weight = r.weight := by
  rw [drain, weight_releaseEach]
  rfl

end Reclamation

end HybridHeap
