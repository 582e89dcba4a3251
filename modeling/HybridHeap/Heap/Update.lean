import HybridHeap.Heap.Collect
import HybridHeap.Value.Position

/-!
What users of a heap do to it: place a value in a new cell, drop a root, write
into a cell, collect. Each answers a reclamation, whose graveyard the user has
to empty.
-/

namespace HybridHeap

namespace Heap

/-- A reclamation that has not done anything yet. -/
def start (h : Heap) : Reclamation :=
  { heap := h }

/-- Give up the reference and the root of a handle, then check the threshold. -/
def dropRoot (h : Heap) (r : Root) : Reclamation :=
  let released := ((h.unroot r).start.release [r.cell]).drain
  if h.config.collectOnRelease then released.collectIfOver else released

/-- Give up the reference and the root of a slot whose value was never placed.
The threshold is not checked. -/
def dropAnchor (h : Heap) (r : Root) : Reclamation :=
  ((h.unroot r).start.release [r.cell]).drain

/-- Collect regardless of the threshold. -/
def collectNow (h : Heap) : Reclamation :=
  h.start.drain.collect

/-- Link a cell without references. -/
def link (h : Heap) (c : CellId) (v : Value Slot) : Heap :=
  match h.objects.pushFront c { count := 0, marked := false, value := v } with
  | .ok objects => { h with objects }
  | .error f => h.fault (.link f)

/-- Place a value in the new cell `c`. The cell is rooted before the roots of
the value's own handles go, so that nothing is ever unreachable; then the
threshold is checked. -/
def place (h : Heap) (c : CellId) (v : Value Handle) : Root × Reclamation :=
  let (linked, root) := (h.link c v.placed).register c
  let unrooted := linked.unrootAll v.anchors
  let counted :=
    { unrooted with
      counters := { unrooted.counters with allocations := unrooted.counters.allocations + 1 } }
  let drained := counted.start.drain
  (root, if h.config.collectOnAllocate then drained.collectIfOver else drained)

def retainSlot (h : Heap) : Slot → Heap
  | none => h
  | some c => h.retain c

/-- Queue references to be given up at the end of the write. -/
def defer (h : Heap) (cells : List CellId) : Heap :=
  { h with deferred := h.deferred ++ cells }

/-- Put a value into a cell and queue the references of the value it displaces.
The new value's handles stay rooted until the write is finished. -/
def swap (h : Heap) (c : CellId) (v : Value Handle) : Heap :=
  (h.setValue c v.placed).defer (h.read c).targets

/-- End a write: remove the roots of handles that went into a cell, then give up
what the write displaced. -/
def finishWrite (h : Heap) (anchors : List Root) : Reclamation :=
  (h.unrootAll anchors).start.drain

/-- Let one position of a cell refer to `target`. -/
def write (h : Heap) (c : CellId) (p : Position) (target : Slot) :
    Except AccessError Reclamation :=
  match (h.read c).get p with
  | .error e => .error e
  | .ok displaced =>
    let written := (h.retainSlot target).setValue c ((h.read c).replace p target)
    .ok ((written.defer displaced.toList).finishWrite [])

/-- Let a new last element of a vector refer to `target`. -/
def append (h : Heap) (c : CellId) (target : Slot) : Except AccessError Reclamation :=
  match (h.read c).append target with
  | .error e => .error e
  | .ok v => .ok (((h.retainSlot target).setValue c v).finishWrite [])

theorem weight_dropAnchor (h : Heap) (r : Root) :
    (h.dropAnchor r).weight = h.objects.size := by
  rw [dropAnchor, Reclamation.weight_drain, Reclamation.weight_release]
  simp [Reclamation.weight, start]

theorem weight_dropRoot (h : Heap) (r : Root) : (h.dropRoot r).weight = h.objects.size := by
  simp only [dropRoot]
  split
  · rw [Reclamation.weight_collectIfOver]
    exact weight_dropAnchor h r
  · exact weight_dropAnchor h r

end Heap

end HybridHeap
