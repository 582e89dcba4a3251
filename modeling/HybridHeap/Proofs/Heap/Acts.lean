import HybridHeap.Proofs.Heap.Threshold

/-!
What is done to a heap in one go. After each act the payloads of the cells that it freed
are still to be let go of, which leads to further acts, on this heap or on another one.
-/

namespace HybridHeap

namespace Heap

/-- The work that a write asks of a heap: the write of a value is finished, or a reference is
written or added. -/
inductive Work (h : Heap) : Reclamation → Prop
  | finishWrite (anchors : List Root) : Work h (h.finishWrite anchors)
  | write {c : CellId} {p : Position} {t : Slot} {r : Reclamation}
      (hw : h.write c p t = .ok r) : Work h r
  | append {c : CellId} {t : Slot} {r : Reclamation} (hw : h.append c t = .ok r) : Work h r

/-- One act on a heap, with the cell that it places and with what the heap has done when
it is over. Whether it may be a request to collect is up to `asked`. -/
inductive Act (h : Heap) (asked : Prop) : Option CellId → Reclamation → Prop
  | register (c : CellId) : Act h asked none (h.register c).1.start
  | swap (c : CellId) (v : Value Handle) : Act h asked none (h.swap c v).start
  | place (c : CellId) (v : Value Handle) : Act h asked (some c) (h.place c v).2
  | dropRoot (r : Root) : Act h asked none (h.dropRoot r)
  | dropAnchor (r : Root) : Act h asked none (h.dropAnchor r)
  | work {r : Reclamation} (hw : h.Work r) : Act h asked none r
  | collectNow (ha : asked) : Act h asked none h.collectNow

variable {h : Heap} {r : Reclamation} {asked asked' : Prop} {placed : Option CellId}

theorem Work.changes (hw : h.Work r) : h.Changes r.heap := by
  cases hw with
  | finishWrite anchors => exact h.changes_finishWrite anchors
  | write hw => exact h.changes_write hw
  | append hw => exact h.changes_append hw

theorem Act.mono (ha : h.Act asked placed r) (hi : asked → asked') : h.Act asked' placed r := by
  cases ha with
  | register c => exact .register c
  | swap c v => exact .swap c v
  | place c v => exact .place c v
  | dropRoot r => exact .dropRoot r
  | dropAnchor r => exact .dropAnchor r
  | work hw => exact .work hw
  | collectNow ha => exact .collectNow (hi ha)

/-- Whatever is done to a heap, it heeds the threshold. -/
theorem Act.heeds (ha : h.Act asked placed r) : h.Heeds r.heap := by
  cases ha with
  | register c => exact (h.changes_register c).heeds
  | swap c v => exact (h.changes_swap c v).heeds
  | place c v => exact h.heeds_place c v
  | dropRoot r => exact (h.changes_dropRoot r).heeds
  | dropAnchor r => exact (h.changes_dropAnchor r).heeds
  | work hw => exact hw.changes.heeds
  | collectNow _ => exact h.changes_collectNow.heeds

end Heap

end HybridHeap
