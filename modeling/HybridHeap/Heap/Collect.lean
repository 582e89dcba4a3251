import HybridHeap.Heap.Mark
import HybridHeap.Heap.Release

/-!
Collections: mark what the roots reach, free the rest, and raise the threshold
to one and a half times what is left.
-/

namespace HybridHeap

namespace Reclamation

/-- Move cells to the graveyard in the given order. -/
def buryAll (r : Reclamation) : List (CellId × Cell) → Reclamation
  | [] => r
  | (c, cell) :: cells =>
    match r.bury c cell with
    | .ok r => r.buryAll cells
    | .error f => (r.map (·.fault (.link f))).buryAll cells

/-- Free the unmarked cells, newest first, and clear the mark on the others.
References from freed cells to cells that stay are given up one by one, once
all freed cells are off the heap. Also answers how many cells were freed. -/
def sweep (r : Reclamation) : Reclamation × Nat :=
  let objects := r.heap.objects
  let doomed := objects.toList.filter fun (_, cell) => !cell.marked
  let stays := fun c => (objects.find? c).all Cell.marked
  let survivors := doomed.flatMap fun (_, cell) => cell.value.targets.filter stays
  let cleared := r.map fun h =>
    { h with objects := h.objects.mapItems fun cell => { cell with marked := false } }
  ((cleared.buryAll doomed).releaseEach survivors, doomed.length)

/-- A full collection. -/
def collect (r : Reclamation) : Reclamation :=
  let before := r.heap.objects.length
  let marking := { r.heap with phase := .marking }.mark
  let marked := { r with heap := { marking.heap with phase := .sweeping } }
  let (swept, freed) := marked.sweep
  let settled := (swept.releaseEach marking.pending).drain
  let live := settled.heap.objects.length
  let capacity := max settled.heap.capacity (live + live / 2)
  let finished := settled.map fun h =>
    { h with
      capacity, phase := .idle,
      counters :=
        { h.counters with
          collections := h.counters.collections + 1, swept := h.counters.swept + freed } }
  finished.report (.collected before live freed marking.traced capacity)

/-- Collect if there are more live cells than the threshold allows. -/
def collectIfOver (r : Reclamation) : Reclamation :=
  let live := r.heap.objects.length
  if r.heap.capacity < live then
    (r.report (.triggered live r.heap.capacity)).collect
  else
    r

theorem weight_buryAll (r : Reclamation) (cells : List (CellId × Cell)) :
    (r.buryAll cells).weight = r.weight := by
  induction cells generalizing r with
  | nil => rfl
  | cons p cells ih =>
    simp only [buryAll]
    split
    · rename_i h
      exact (ih _).trans (weight_bury h)
    · exact ih _

theorem weight_sweep (r : Reclamation) : r.sweep.1.weight = r.weight := by
  simp only [sweep]
  rw [weight_releaseEach, weight_buryAll]
  exact weight_map (LinkedMap.size_mapItems ..)

theorem weight_collect (r : Reclamation) : r.collect.weight = r.weight := by
  simp only [collect, weight_report]
  refine (weight_map rfl).trans ?_
  rw [weight_drain, weight_releaseEach, weight_sweep]
  simp [weight]

theorem weight_collectIfOver (r : Reclamation) : r.collectIfOver.weight = r.weight := by
  simp only [collectIfOver]
  split
  · rw [weight_collect, weight_report]
  · rfl

end Reclamation

end HybridHeap
