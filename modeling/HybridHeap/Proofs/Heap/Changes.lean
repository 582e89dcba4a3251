import Mathlib.Logic.Relation
import HybridHeap.Proofs.Heap.Update

/-!
The changes that heaps are made of. Everything a heap does, but for the placing of a new
cell, is a sequence of `Heap.Change`s: giving up references, marking, sweeping, writing
and the drops of roots. What every change preserves is so preserved by all of these, in
whatever state the heap is; nothing here needs a balance.
-/

namespace HybridHeap

open Relation (ReflTransGen)

namespace Heap

/-- One change of a heap: a check fails, a cell is changed or leaves the heap, the marks
are cleared, the root list or the queue, the phase and the counters become others, or the
threshold is raised. -/
inductive Change : Heap → Heap → Prop
  | fault (h : Heap) (f : Fault) : Change h (h.fault f)
  | modifyCell (h : Heap) (c : CellId) (f : Cell → Cell) : Change h (h.modifyCell c f)
  | remove {h : Heap} {c : CellId} {objects : LinkedMap CellId Cell}
      (hr : h.objects.remove c = .ok objects) : Change h { h with objects }
  | clearMarks (h : Heap) : Change h h.clearMarks
  | relist (h : Heap) (roots : LinkedMap Ticket CellId) (nextTicket : Ticket) :
      Change h { h with roots, nextTicket }
  | turn (h : Heap) (phase : Phase) (deferred : List CellId) (counters : Counters) :
      Change h { h with phase, deferred, counters }
  | raise {h : Heap} {capacity : Nat} (hc : h.capacity ≤ capacity) : Change h { h with capacity }

/-- A sequence of changes. -/
def Changes : Heap → Heap → Prop :=
  ReflTransGen Change

variable {h h' h'' : Heap}

namespace Changes

theorem refl (h : Heap) : h.Changes h :=
  ReflTransGen.refl

theorem single (hc : h.Change h') : h.Changes h' :=
  ReflTransGen.single hc

theorem trans (hc : h.Changes h') (hc' : h'.Changes h'') : h.Changes h'' :=
  ReflTransGen.trans hc hc'

/-- What every change preserves, a sequence of changes does. -/
theorem lift {R : Heap → Heap → Prop} (hrefl : ∀ h, R h h)
    (htrans : ∀ {h h' h''}, R h h' → R h' h'' → R h h'')
    (hstep : ∀ {h h'}, h.Change h' → R h h') (hc : h.Changes h') : R h h' := by
  induction hc with
  | refl => exact hrefl h
  | tail _ hlast ih => exact htrans ih (hstep hlast)

end Changes

/-- A sequence of changes that leaves the root list alone. -/
def Reworks : Heap → Heap → Prop :=
  ReflTransGen fun h h' => h.Change h' ∧ h'.roots = h.roots ∧ h'.nextTicket = h.nextTicket

namespace Reworks

theorem refl (h : Heap) : h.Reworks h :=
  ReflTransGen.refl

theorem single (hc : h.Change h') (hr : h'.roots = h.roots) (ht : h'.nextTicket = h.nextTicket) :
    h.Reworks h' :=
  ReflTransGen.single ⟨hc, hr, ht⟩

theorem trans (hc : h.Reworks h') (hc' : h'.Reworks h'') : h.Reworks h'' :=
  ReflTransGen.trans hc hc'

theorem changes (hc : h.Reworks h') : h.Changes h' :=
  ReflTransGen.mono (fun _ _ hstep => hstep.1) _ _ hc

theorem listed (hc : h.Reworks h') : h'.roots = h.roots ∧ h'.nextTicket = h.nextTicket := by
  induction hc with
  | refl => exact ⟨rfl, rfl⟩
  | tail _ hlast ih => exact ⟨hlast.2.1.trans ih.1, hlast.2.2.trans ih.2⟩

end Reworks

section Cells

variable (h : Heap) (c : CellId)

theorem reworks_fault (f : Fault) : h.Reworks (h.fault f) :=
  .single (.fault h f) rfl rfl

theorem reworks_modifyCell (f : Cell → Cell) : h.Reworks (h.modifyCell c f) :=
  .single (.modifyCell h c f) rfl rfl

theorem reworks_retain : h.Reworks (h.retain c) := by
  unfold retain
  split
  · exact h.reworks_modifyCell c _
  · exact h.reworks_fault _

theorem changes_register : h.Changes (h.register c).1 := by
  have hretain := h.reworks_retain c
  simp only [register]
  split
  · exact hretain.changes.trans (.single (.relist _ _ _))
  · rename_i f _
    exact (hretain.trans (reworks_fault _ (.link f))).changes.trans (.single (.relist _ _ _))

theorem changes_unroot (r : Root) : h.Changes (h.unroot r) := by
  unfold unroot
  split
  · exact .single (.relist h _ h.nextTicket)
  · exact (h.reworks_fault _).changes

theorem changes_unrootAll (rs : List Root) : h.Changes (h.unrootAll rs) := by
  induction rs generalizing h with
  | nil => exact .refl h
  | cons r rs ih => exact (h.changes_unroot r).trans (ih (h.unroot r))

theorem reworks_retainSlot (t : Slot) : h.Reworks (h.retainSlot t) := by
  cases t with
  | none => exact .refl h
  | some c => exact h.reworks_retain c

end Cells

end Heap

namespace Reclamation

variable (r : Reclamation)

theorem reworks_bury {r r' : Reclamation} {c : CellId} {cell : Cell}
    (h : r.bury c cell = .ok r') : r.heap.Reworks r'.heap := by
  unfold bury at h
  split at h
  · rename_i objects hr
    cases h
    exact .single (.remove hr) rfl rfl
  · cases h

theorem reworks_release (work : List CellId) : r.heap.Reworks (r.release work).heap := by
  fun_induction release r work with
  | case1 r => exact .refl r.heap
  | case2 r c work _ ih => exact (r.heap.reworks_fault _).trans ih
  | case3 r c work cell _ _ ih => exact (r.heap.reworks_fault _).trans ih
  | case4 r c work cell _ _ f _ ih => exact (r.heap.reworks_fault _).trans ih
  | case5 r c work cell _ _ buried hb freed ih =>
      have hfreed : buried.heap.Reworks freed.heap := .single (.turn buried.heap _ _ _) rfl rfl
      exact ((reworks_bury hb).trans hfreed).trans ih
  | case6 r c work cell _ n _ ih => exact (r.heap.reworks_modifyCell c _).trans ih

theorem reworks_releaseEach (cells : List CellId) :
    r.heap.Reworks (r.releaseEach cells).heap := by
  induction cells generalizing r with
  | nil => exact .refl r.heap
  | cons c cells ih => exact (r.reworks_release [c]).trans (ih (r.release [c]))

theorem reworks_drain : r.heap.Reworks r.drain.heap := by
  have hempty : r.heap.Reworks (r.map fun h => { h with deferred := [] }).heap :=
    .single (.turn r.heap _ _ _) rfl rfl
  exact hempty.trans (reworks_releaseEach _ _)

theorem reworks_buryAll (cells : List (CellId × Cell)) :
    r.heap.Reworks (r.buryAll cells).heap := by
  induction cells generalizing r with
  | nil => exact .refl r.heap
  | cons p cells ih =>
      simp only [buryAll]
      split
      · rename_i r' hb
        exact (reworks_bury hb).trans (ih r')
      · rename_i f _
        exact (r.heap.reworks_fault (.link f)).trans (ih (r.map (·.fault (.link f))))

end Reclamation

namespace Heap

variable (h : Heap)

theorem reworks_scan (s : MarkStack) : h.Reworks (h.scan s).1 := by
  fun_induction scan h s with
  | case1 h s => exact .refl h
  | case2 h s c s' _ _ ih => exact (h.reworks_fault _).trans ih
  | case3 h s c s' _ cell _ _ ih => exact ih
  | case4 h s c s' _ cell _ _ ih => exact (h.reworks_modifyCell c _).trans ih

theorem reworks_scanQueued (s : MarkStack) (queued : List CellId) :
    h.Reworks (h.scanQueued s queued).1 := by
  induction queued generalizing h s with
  | nil => exact h.reworks_scan s
  | cons c queued ih => exact (h.reworks_scan s).trans (ih _ _)

theorem reworks_mark : h.Reworks h.mark.heap := by
  have hempty : h.Reworks { h with deferred := [] } := .single (.turn h _ _ _) rfl rfl
  have hscan := hempty.trans (reworks_scanQueued { h with deferred := [] }
    (MarkStack.pushAll {} (h.roots.toList.map Prod.snd)) h.deferred)
  simp only [mark]
  split
  · exact hscan
  · exact hscan.trans (reworks_fault _ _)

end Heap

namespace Reclamation

variable (r : Reclamation)

theorem reworks_sweep : r.heap.Reworks r.sweep.1.heap := by
  have hcleared : r.heap.Reworks (r.map Heap.clearMarks).heap :=
    .single (.clearMarks r.heap) rfl rfl
  exact (hcleared.trans (reworks_buryAll _ _)).trans (reworks_releaseEach _ _)

/-- A collection ends with raising the threshold over what is left. -/
theorem reworks_settled : ∃ settled : Heap, r.heap.Reworks settled ∧
    ∃ phase counters, r.collect.heap =
      { settled with
        capacity := max settled.capacity (settled.objects.length + settled.objects.length / 2),
        phase, counters } := by
  have hmarking : r.heap.Reworks { r.heap with phase := .marking } :=
    .single (.turn _ _ _ _) rfl rfl
  have hmarked := hmarking.trans (Heap.reworks_mark _)
  have hsweeping : r.heap.Reworks
      { { r.heap with phase := .marking }.mark.heap with phase := .sweeping } :=
    hmarked.trans (.single (.turn _ _ _ _) rfl rfl)
  have hswept := hsweeping.trans (reworks_sweep
    { r with heap := { { r.heap with phase := .marking }.mark.heap with phase := .sweeping } })
  have hsettled := (hswept.trans (reworks_releaseEach _
    { r.heap with phase := .marking }.mark.pending)).trans (reworks_drain _)
  exact ⟨_, hsettled, _, _, rfl⟩

theorem reworks_collect : r.heap.Reworks r.collect.heap := by
  obtain ⟨settled, hsettled, phase, counters, he⟩ := r.reworks_settled
  have hraised := hsettled.trans (.single (.raise (Nat.le_max_left settled.capacity
    (settled.objects.length + settled.objects.length / 2))) rfl rfl)
  rw [he]
  exact hraised.trans (.single (.turn _ phase settled.deferred counters) rfl rfl)

theorem reworks_collectIfOver : r.heap.Reworks r.collectIfOver.heap := by
  simp only [collectIfOver]
  split
  · exact reworks_collect (r.report _)
  · exact .refl r.heap

end Reclamation

namespace Heap

variable (h : Heap)

theorem reworks_dropAnchor (r : Root) : (h.unroot r).Reworks (h.dropAnchor r).heap :=
  ((h.unroot r).start.reworks_release [r.cell]).trans (Reclamation.reworks_drain _)

theorem reworks_dropRoot (r : Root) : (h.unroot r).Reworks (h.dropRoot r).heap := by
  have hreleased := h.reworks_dropAnchor r
  simp only [dropRoot]
  split
  · exact hreleased.trans (Reclamation.reworks_collectIfOver _)
  · exact hreleased

theorem changes_dropAnchor (r : Root) : h.Changes (h.dropAnchor r).heap :=
  (h.changes_unroot r).trans (h.reworks_dropAnchor r).changes

theorem changes_dropRoot (r : Root) : h.Changes (h.dropRoot r).heap :=
  (h.changes_unroot r).trans (h.reworks_dropRoot r).changes

theorem reworks_collectNow : h.Reworks h.collectNow.heap :=
  h.start.reworks_drain.trans (Reclamation.reworks_collect _)

theorem changes_collectNow : h.Changes h.collectNow.heap :=
  h.reworks_collectNow.changes

theorem reworks_swap (c : CellId) (v : Value Handle) : h.Reworks (h.swap c v) :=
  (h.reworks_modifyCell c fun cell => { cell with value := v.placed }).trans
    (.single (.turn _ _ _ _) rfl rfl)

theorem changes_swap (c : CellId) (v : Value Handle) : h.Changes (h.swap c v) :=
  (h.reworks_swap c v).changes

theorem changes_finishWrite (anchors : List Root) : h.Changes (h.finishWrite anchors).heap :=
  (h.changes_unrootAll anchors).trans (h.unrootAll anchors).start.reworks_drain.changes

/-- The writers that change one reference: they count the new one, change the value, and
give up what was displaced. -/
theorem reworks_rewrite (c : CellId) (t : Slot) (v : Value Slot) (displaced : List CellId) :
    h.Reworks ((((h.retainSlot t).setValue c v).defer displaced).finishWrite []).heap := by
  have hwritten := (h.reworks_retainSlot t).trans
    ((h.retainSlot t).reworks_modifyCell c fun cell => { cell with value := v })
  have hdeferred : ((h.retainSlot t).setValue c v).Reworks
      (((h.retainSlot t).setValue c v).defer displaced) := .single (.turn _ _ _ _) rfl rfl
  -- there are no roots to be taken off the list
  exact (hwritten.trans hdeferred).trans
    ((((h.retainSlot t).setValue c v).defer displaced).unrootAll []).start.reworks_drain

theorem reworks_write {c : CellId} {p : Position} {t : Slot} {r : Reclamation}
    (hw : h.write c p t = .ok r) : h.Reworks r.heap := by
  simp only [write] at hw
  split at hw
  · cases hw
  · rename_i displaced _
    cases hw
    exact h.reworks_rewrite c t ((h.read c).replace p t) displaced.toList

theorem changes_write {c : CellId} {p : Position} {t : Slot} {r : Reclamation}
    (hw : h.write c p t = .ok r) : h.Changes r.heap :=
  (h.reworks_write hw).changes

theorem reworks_append {c : CellId} {t : Slot} {r : Reclamation} (hw : h.append c t = .ok r) :
    h.Reworks r.heap := by
  simp only [append] at hw
  split at hw
  · cases hw
  · rename_i v _
    cases hw
    have happend := h.reworks_rewrite c t v []
    simp only [defer, List.append_nil] at happend
    exact happend

theorem changes_append {c : CellId} {t : Slot} {r : Reclamation} (hw : h.append c t = .ok r) :
    h.Changes r.heap :=
  (h.reworks_append hw).changes

/-- Once the new cell is rooted, the rest of placing a value leaves the tickets alone. -/
theorem reworks_place (c : CellId) (v : Value Handle) :
    (((h.link c v.placed).register c).1.unrootAll v.anchors).Reworks (h.place c v).2.heap := by
  have hcounted : (((h.link c v.placed).register c).1.unrootAll v.anchors).Reworks
      (h.placeOnly c v).2 := .single (.turn _ _ _ _) rfl rfl
  have hdrained := hcounted.trans (h.placeOnly c v).2.start.reworks_drain
  rw [place_eq]
  split
  · exact hdrained.trans (Reclamation.reworks_collectIfOver _)
  · exact hdrained

/-- After the new cell is linked, placing a value is a sequence of changes. -/
theorem changes_place (c : CellId) (v : Value Handle) :
    (h.link c v.placed).Changes (h.place c v).2.heap :=
  ((changes_register (h.link c v.placed) c).trans
    (changes_unrootAll ((h.link c v.placed).register c).1 v.anchors)).trans
      (h.reworks_place c v).changes

end Heap

end HybridHeap
