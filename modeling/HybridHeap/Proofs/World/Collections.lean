import HybridHeap.Proofs.World.Moment

/-!
The collections of a run. A collection is asked for, or the threshold is exceeded when
a cell has been placed or a root was dropped, which can also happen in the middle of a
write or of the destruction of an environment. However it is started, the collector finds
the heap ready.
-/

namespace HybridHeap

namespace Moment

/-- `Collection m before after` says that, from the moment `m` on, a collection takes
place on some heap; `before` is what it starts from, and `after` what the heap has done
by the time the payloads of freed cells are let go of. -/
inductive Collection : Moment → Reclamation → Reclamation → Prop
  | requested {w : World} {held : List Holding} {i : HeapId} {h : Heap}
      (hi : w.heap? i = some h) : Collection ⟨w, held, none⟩ h.start.drain h.collectNow
  | placed {w : World} {held : List Holding} {i : HeapId} {h : Heap} {v : Value Handle}
      {c : CellId} {before : Reclamation} (hi : w.heap? i = some h)
      (ho : World.ownsAll i v = true) (hc : c = { heap := i, number := w.nextCell })
      (hb : before = (h.placeOnly c v).2.start.drain) (ht : h.config.collectOnAllocate = true)
      (hover : before.heap.capacity < before.heap.objects.length) :
      Collection ⟨w, v.holdings ++ held, none⟩ before (h.place c v).2
  | dropped {w : World} {held : List Holding} {write : Option Writing} {r : Root} {h : Heap}
      {before : Reclamation} (hi : w.heap? r.cell.heap = some h) (hb : before = h.dropAnchor r)
      (ht : h.config.collectOnRelease = true)
      (hover : before.heap.capacity < before.heap.objects.length) :
      Collection ⟨w, .root r :: held, write⟩ before (h.dropRoot r)

end Moment

namespace Reclamation

/-- Over its threshold a heap is collected. -/
theorem Collectable.exact_collectIfOver {r : Reclamation} {held : List CellId}
    (h : r.Collectable held) (hover : r.heap.capacity < r.heap.objects.length) :
    r.Exact r.collectIfOver := by
  rw [Reclamation.collectIfOver, if_pos hover]
  obtain ⟨hcells, hcounts, hroots, heager, hswept, hcollections, hcapacity, hfreed⟩ :=
    (h.report (.triggered r.heap.objects.length r.heap.capacity)).exact_collect
  exact ⟨hcells, hcounts, hroots, heager, hswept, hcollections, hcapacity, hfreed⟩

end Reclamation

/-- A collection that is asked for finds an empty queue. -/
theorem Heap.Balanced.collectNow_eq {h : Heap} {held : List Root} (hb : h.Balanced held none) :
    h.start.drain = h.start ∧ h.collectNow = h.start.collect ∧
      h.start.Collectable ((countedRoots held none).map Root.cell) := by
  have hd : h.start.heap.deferred = [] := hb.deferred rfl
  have hdrain := Reclamation.drain_of_deferred_nil hd
  exact ⟨hdrain, congrArg Reclamation.collect hdrain, hb.collectable hd⟩

end HybridHeap
