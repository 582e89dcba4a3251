import HybridHeap.Proofs.Heap.Acyclic
import HybridHeap.Proofs.Heap.Orphans

/-!
What heaps do as long as no collection sweeps anything. A root that is dropped takes along
what is in every set that is closed under orphaning, and a value that is placed takes along
nothing.
-/

namespace HybridHeap

/-- A cell that does not live through a cascade was freed by it. -/
theorem Reclamation.Cascade.mem_of_gone {r r' : Reclamation} {freed held held' : List CellId}
    (h : Cascade r r' freed) (hc : r.heap.Counted held) (hc' : r'.heap.Counted held')
    {c : CellId} (hl : r.heap.Live c) (hgone : ¬r'.heap.Live c) : c ∈ freed := by
  by_contra hnot
  obtain ⟨cell, hf⟩ := hl
  have hm : uncounted (c, cell) ∈ r'.heap.cells.map uncounted := by
    rw [h.cells]
    exact List.mem_map_of_mem
      (List.mem_filter.mpr ⟨hc.find?_eq_some_iff.mp hf, decide_eq_true hnot⟩)
  obtain ⟨p, hp, he⟩ := List.mem_map.mp hm
  have hpc : p.1 = c := congrArg Prod.fst he
  exact hgone ⟨p.2, hpc ▸ hc'.find?_eq_some_iff.mpr hp⟩

namespace Heap

theorem live_of_cells {h h' : Heap} {held held' : List CellId} (hc : h.Counted held)
    (hc' : h'.Counted held') (he : h'.cells = h.cells) {c : CellId} (hl : h.Live c) :
    h'.Live c := by
  obtain ⟨cell, hf⟩ := hl
  exact ⟨cell, hc'.find?_eq_some_iff.mpr (he ▸ hc.find?_eq_some_iff.mp hf)⟩

namespace Balanced

variable {h : Heap} {r : Root} {held : List Root} {S : Set CellId} {c : CellId}

/-- What goes with an owned root is in every closed set. -/
theorem mem_of_gone_dropAnchor (hb : h.Balanced (r :: held) none)
    (hS : h.OrphanClosed (held.map Root.cell) S) (hl : h.Live c)
    (hgone : ¬(h.dropAnchor r).heap.Live c) : c ∈ S := by
  obtain ⟨roots, hunroot, -⟩ := hb.listed.unroot
  have hdeferred : (h.unroot r).deferred = [] := by
    rw [hunroot]
    exact hb.deferred rfl
  have hcounted : (h.unroot r).start.heap.Counted ([r.cell] ++ held.map Root.cell) := by
    have hheld := hb.counted
    rw [hb.deferred rfl, List.append_nil, countedRoots_none] at hheld
    exact hheld.congr (h.objects_unroot r)
  have hdrop : h.dropAnchor r = (h.unroot r).start.release [r.cell] := by
    refine Reclamation.drain_of_deferred_nil ?_
    rw [Reclamation.deferred_release]
    exact hdeferred
  obtain ⟨hcount, freed, hcascade, hleast⟩ :=
    Reclamation.cascade_of_pops (s := ((h.unroot r).start, [r.cell]))
      (Reclamation.pops_release _ _) hcounted
  have hlive : (h.unroot r).start.heap.Live c := by
    show (h.unroot r).Live c
    rwa [Live, find?, h.objects_unroot r]
  rw [hdrop] at hgone
  exact hleast.2 ((orphanClosed_congr (h.objects_unroot r)).mpr hS)
    (hcascade.mem_of_gone hcounted hcount hlive hgone)

/-- That a collection may follow makes no difference if it sweeps nothing. -/
theorem mem_of_gone_dropRoot (hb : h.Balanced (r :: held) none)
    (hs : (h.dropRoot r).heap.counters.swept = h.counters.swept)
    (hS : h.OrphanClosed (held.map Root.cell) S) (hl : h.Live c)
    (hgone : ¬(h.dropRoot r).heap.Live c) : c ∈ S := by
  obtain ⟨hb', hd', -⟩ := hb.dropAnchor
  have hend := hb.dropRoot.1
  refine hb.mem_of_gone_dropAnchor hS hl fun hlive => hgone ?_
  refine live_of_cells hb'.counted hend.counted ?_ hlive
  rw [← h.swept_dropAnchor r] at hs
  change Counters.swept (if h.config.collectOnRelease then (h.dropAnchor r).collectIfOver
    else h.dropAnchor r).heap.counters = _ at hs
  show (if h.config.collectOnRelease then (h.dropAnchor r).collectIfOver
    else h.dropAnchor r).heap.cells = _
  split at hs
  · rw [if_pos ‹_›]
    exact ((hb'.collectable hd').spares_of_unswept_ifOver hs).cells
  · rw [if_neg ‹_›]

/-- Placing a value sweeps nothing or only adds the new cell. -/
theorem live_place {v : Value Handle} (hb : h.Balanced (v.anchors ++ held) none)
    (hfresh : ¬h.Live c) (hs : (h.place c v).2.heap.counters.swept = h.counters.swept)
    {d : CellId} (hl : h.Live d) : (h.place c v).2.heap.Live d := by
  obtain ⟨-, hplaced, -, hcells⟩ := hb.placeOnly hfresh
  have hend := (hb.place hfresh).1
  have hd : (h.placeOnly c v).2.start.heap.deferred = [] := hplaced.deferred rfl
  have hlive : (h.placeOnly c v).2.Live d := by
    obtain ⟨cell, hf⟩ := hl
    refine ⟨cell, hplaced.counted.find?_eq_some_iff.mpr ?_⟩
    rw [hcells]
    exact List.mem_cons_of_mem _ (hb.counted.find?_eq_some_iff.mp hf)
  refine live_of_cells hplaced.counted hend.counted ?_ hlive
  have hcounters : (h.placeOnly c v).2.start.heap.counters.swept = h.counters.swept := by
    show (h.placeOnly c v).2.counters.swept = _
    rw [counters_placeOnly]
  rw [place_eq, Reclamation.drain_of_deferred_nil hd] at hs ⊢
  rw [← hcounters] at hs
  dsimp only at hs ⊢
  split at hs
  · rw [if_pos ‹_›]
    have hready := hplaced.collectable (r := (h.placeOnly c v).2.start) hd
    exact (hready.spares_of_unswept_ifOver hs).cells
  · rw [if_neg ‹_›]
    rfl

end Balanced

end Heap

end HybridHeap
