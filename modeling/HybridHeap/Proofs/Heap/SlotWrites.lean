import HybridHeap.Proofs.Heap.Orphans

/-!
What the writer of a slot does to the counts of its heap. The new reference is counted
before the old one is given up, so that only what the old one alone kept goes; and a slot
that gets the reference it has leaves the heap as it was.
-/

namespace HybridHeap

namespace Heap

variable {h : Heap} {held : List Root} {c : CellId} {cell : Cell} {t : Slot} {v : Value Slot}
  {displaced : List CellId}

theorem Balanced.rootTargets_perm (hb : h.Balanced held none) :
    h.rootTargets.Perm (held.map Root.cell) := by
  have hperm := hb.listed.roots.map Prod.snd
  rwa [listedRoots_none, List.map_map] at hperm

theorem orphanClosed_perm {held held' : List CellId} (hp : held.Perm held') (h : Heap)
    (S : Set CellId) : h.OrphanClosed held S ↔ h.OrphanClosed held' S := by
  simp only [OrphanClosed, hp.mem_iff]

/-- Only the values of the cells matter to what is closed. -/
theorem OrphanClosed.of_uncounted {h' : Heap} {refs refs' held : List CellId} {S : Set CellId}
    (hS : h.OrphanClosed held S) (hc : h.Counted refs) (hc' : h'.Counted refs')
    (he : h'.cells.map uncounted = h.cells.map uncounted) : h'.OrphanClosed held S := by
  rintro d ⟨cell, hf⟩ hd hfrom
  obtain ⟨old, hold, -⟩ := find?_of_uncounted hc' hc he.symm hf
  refine hS d ⟨old, hold⟩ hd fun p hp ht => ?_
  obtain ⟨cell', hp', hv, -⟩ := exists_of_uncounted (fun _ hm => he ▸ hm) hp
  exact hfrom (p.1, cell') hp' (hv ▸ ht)

/-- The displaced references are given up, and with them goes exactly what is orphaned. -/
theorem Balanced.cascade_rewrite (hb : h.Balanced held none) (hf : h.find? c = some cell)
    (ht : ∀ d ∈ t, h.Live d)
    (hn : ∀ d, displaced.count d + v.targets.count d =
      t.toList.count d + cell.value.targets.count d) :
    ∃ freed,
      (h.rewritten c v t).start.Cascade (((h.rewritten c v t).defer displaced).finishWrite [])
        freed ∧
      IsLeast {S | (h.rewritten c v t).OrphanClosed h.rootTargets S} {d | d ∈ freed} ∧
      ∀ d, (((h.rewritten c v t).defer displaced).finishWrite []).heap.countOf d +
          displaced.count d +
          (slotTargets ((h.rewritten c v t).cells.filter fun p => p.1 ∈ freed)).count d =
        (h.rewritten c v t).countOf d := by
  have hc := hb.counted_rewritten hf ht hn
  obtain ⟨-, objects, he⟩ := hb.rewritten_eq ht c v
  have hd : (h.rewritten c v t).deferred = [] := by
    rw [he]
    exact hb.deferred rfl
  generalize h.rewritten c v t = h₁ at hc hd ⊢
  have hqueue : (h₁.defer displaced).deferred = displaced := by
    simp [defer, hd]
  have hempty : (h₁.defer displaced).start.map (fun h => { h with deferred := [] }) = h₁.start := by
    simp only [Reclamation.map, start, defer, ← hd]
  have hstart : (h₁.defer displaced).start.heap.Counted
      ((h₁.defer displaced).start.heap.deferred ++ held.map Root.cell) := by
    simp only [start, hqueue]
    exact hc.congr rfl
  obtain ⟨hend, freed, hcascade, hleast⟩ :=
    Reclamation.cascade_drain hstart
  rw [hempty] at hcascade
  refine ⟨freed, hcascade, ?_, hcascade.countOf displaced hc hend⟩
  have hclosed : ∀ S, (h₁.defer displaced).OrphanClosed (held.map Root.cell) S ↔
      h₁.OrphanClosed h.rootTargets S := fun S =>
    (orphanClosed_congr rfl).trans (orphanClosed_perm hb.rootTargets_perm.symm h₁ S)
  simpa only [start, hclosed] using hleast

theorem uncounted_setValue_self (hs : h.objects.Sound) (hf : h.find? c = some cell) :
    (h.setValue c cell.value).cells.map uncounted = h.cells.map uncounted := by
  rw [Heap.setValue, cells_modifyCell hs, List.map_map]
  refine List.map_congr_left fun p hp => ?_
  rw [Function.comp_apply]
  split
  · rename_i hpc
    have hp' : h.find? p.1 = some p.2 := hs.find?_eq_some_iff.mpr hp
    rw [hpc, hf, Option.some.injEq] at hp'
    simp only [uncounted, hp']
  · rfl

/-- A slot that gets the reference it has: what was counted for it is given up again. -/
theorem Balanced.rewrite_self (hb : h.Balanced held none) (hf : h.find? c = some cell)
    (ht : ∀ d ∈ t, h.Live d) :
    ((h.rewritten c cell.value t).defer t.toList).finishWrite [] = h.start := by
  have hn : ∀ d, t.toList.count d + cell.value.targets.count d =
      t.toList.count d + cell.value.targets.count d := fun _ => rfl
  have hc : h.Counted (held.map Root.cell) := by
    have hc := hb.counted
    rwa [hb.deferred rfl, List.append_nil, countedRoots_none] at hc
  obtain ⟨hcells, objects, he⟩ := hb.rewritten_eq ht c cell.value
  have hsame : (h.rewritten c cell.value t).cells.map uncounted = h.cells.map uncounted :=
    hcells.trans (uncounted_setValue_self hc.sound hf)
  -- no reference is missing, so nothing is orphaned
  obtain ⟨freed, hcascade, hleast, -⟩ := hb.cascade_rewrite hf ht hn
  have hempty : h.OrphanClosed h.rootTargets ∅ :=
    (orphanClosed_perm hb.rootTargets_perm h ∅).mpr hc.orphanClosed_empty
  have hnone : freed = [] := List.eq_nil_iff_forall_not_mem.mpr fun d hd =>
    hleast.2 (hempty.of_uncounted hc (hb.counted_rewritten hf ht hn) hsame) hd
  subst hnone
  obtain ⟨hend, -⟩ := hb.rewrite hf ht hn
  change (((h.rewritten c cell.value t).defer t.toList).finishWrite []).heap.Balanced held none
    at hend
  obtain ⟨-, -, ⟨objects', hheap⟩, hleft, hgraveyard, hevents⟩ := hcascade
  generalize ((h.rewritten c cell.value t).defer t.toList).finishWrite [] = rec at *
  have hcount : rec.heap.Counted (held.map Root.cell) := by
    have hc := hend.counted
    rwa [hend.deferred rfl, List.append_nil, countedRoots_none] at hc
  have hobjects : rec.heap.objects = h.objects := by
    refine hcount.sound.ext hc.sound (hc.cells_eq hcount (hleft.trans ?_))
    simpa [start] using hsame
  obtain ⟨heap, graveyard, events⟩ := rec
  simp only at hheap hgraveyard hevents hobjects
  subst hgraveyard hevents hheap
  simp only at hobjects
  subst hobjects
  rw [he]
  rfl

end Heap

end HybridHeap
