import HybridHeap.Proofs.Heap.Release

/-!
Heaps with the same contents under another configuration and with another next ticket.
Destruction and collections look at neither: they do the same to both heaps.
-/

namespace HybridHeap

namespace Heap

section Equations

variable {h : Heap} {s s' : MarkStack} {c : CellId} {cell : Cell}

theorem scan_done (hs : s.pop? = none) : h.scan s = (h, s) := by
  rw [scan]
  split
  · rfl
  · simp_all

theorem scan_absent (hs : s.pop? = some (c, s')) (hf : h.find? c = none) :
    h.scan s = (h.fault (.absentCell c)).scan s' := by
  rw [scan]
  split
  · simp_all
  · rename_i c₁ s₁ hs₁
    rw [hs] at hs₁
    cases hs₁
    split
    · rfl
    · simp_all

theorem scan_marked (hs : s.pop? = some (c, s')) (hf : h.find? c = some cell)
    (hm : cell.marked = true) : h.scan s = h.scan s' := by
  rw [scan]
  split
  · simp_all
  · rename_i c₁ s₁ hs₁
    rw [hs] at hs₁
    cases hs₁
    split
    · simp_all
    · simp_all

theorem scan_visit (hs : s.pop? = some (c, s')) (hf : h.find? c = some cell)
    (hm : cell.marked = false) :
    h.scan s = (h.setMark c).scan (s'.pushAll cell.value.targets) := by
  rw [scan]
  split
  · simp_all
  · rename_i c₁ s₁ hs₁
    rw [hs] at hs₁
    cases hs₁
    split
    · simp_all
    · simp_all

end Equations

/-- The heap with the same contents, but for its configuration and its next ticket. -/
def relabeled (h : Heap) (f : Config → Config) (g : Ticket → Ticket) : Heap :=
  { h with config := f h.config, nextTicket := g h.nextTicket }

variable (h : Heap) (f : Config → Config) (g : Ticket → Ticket)

theorem unroot_relabeled (r : Root) :
    (h.relabeled f g).unroot r = (h.unroot r).relabeled f g := by
  have hroots : (h.relabeled f g).roots = h.roots := rfl
  simp only [unroot, hroots]
  cases h.roots.remove r.ticket <;> rfl

theorem scan_relabeled (s : MarkStack) :
    (h.relabeled f g).scan s = ((h.scan s).1.relabeled f g, (h.scan s).2) := by
  fun_induction scan h s with
  | case1 h s hs => exact scan_done hs
  | case2 h s c s' hs hf ih => exact (scan_absent (h := h.relabeled f g) hs hf).trans ih
  | case3 h s c s' hs cell hf hm ih =>
      exact (scan_marked (h := h.relabeled f g) hs hf hm).trans ih
  | case4 h s c s' hs cell hf hm ih =>
      exact (scan_visit (h := h.relabeled f g) hs hf (Bool.eq_false_iff.mpr hm)).trans ih

theorem scanQueued_relabeled (s : MarkStack) (queued : List CellId) :
    (h.relabeled f g).scanQueued s queued =
      ((h.scanQueued s queued).1.relabeled f g, (h.scanQueued s queued).2) := by
  induction queued generalizing h s with
  | nil => exact h.scan_relabeled f g s
  | cons c queued ih =>
      simp only [scanQueued, scan_relabeled]
      exact ih _ _

theorem mark_relabeled :
    (h.relabeled f g).mark = { h.mark with heap := h.mark.heap.relabeled f g } := by
  have hscan := scanQueued_relabeled { h with deferred := [] } f g
    (MarkStack.pushAll {} (h.roots.toList.map Prod.snd)) h.deferred
  change { h.relabeled f g with deferred := [] }.scanQueued
    (MarkStack.pushAll {} ((h.relabeled f g).roots.toList.map Prod.snd))
    (h.relabeled f g).deferred = _ at hscan
  simp only [mark, hscan]
  split <;> rfl

end Heap

namespace Reclamation

/-- A reclamation on the relabeled heap. -/
def relabeled (r : Reclamation) (f : Config → Config) (g : Ticket → Ticket) : Reclamation :=
  r.map fun h => h.relabeled f g

variable (r : Reclamation) (f : Config → Config) (g : Ticket → Ticket)

theorem bury_relabeled (c : CellId) (cell : Cell) :
    (r.relabeled f g).bury c cell = (r.bury c cell).map fun r => r.relabeled f g := by
  have hobjects : (r.relabeled f g).heap.objects = r.heap.objects := rfl
  simp only [bury, hobjects]
  cases r.heap.objects.remove c <;> rfl

theorem release_relabeled (work : List CellId) :
    (r.relabeled f g).release work = (r.release work).relabeled f g := by
  fun_induction release r work with
  | case1 r => rw [release]
  | case2 r c work hf ih => exact (release_absent (r := r.relabeled f g) work hf).trans ih
  | case3 r c work cell hf hn ih =>
      exact (release_underflow (r := r.relabeled f g) work hf hn).trans ih
  | case4 r c work cell hf hn fault hb ih =>
      have hm : (r.relabeled f g).bury c cell = .error fault := by rw [bury_relabeled, hb]; rfl
      exact (release_unlinked (r := r.relabeled f g) work hf hn hm).trans ih
  | case5 r c work cell hf hn buried hb freed ih =>
      have hm : (r.relabeled f g).bury c cell = .ok (buried.relabeled f g) := by
        rw [bury_relabeled, hb]
        rfl
      exact (release_freed (r := r.relabeled f g) work hf hn hm).trans ih
  | case6 r c work cell hf n hn ih =>
      exact (release_lowered (r := r.relabeled f g) work hf hn).trans ih

theorem releaseEach_relabeled (cells : List CellId) :
    (r.relabeled f g).releaseEach cells = (r.releaseEach cells).relabeled f g := by
  induction cells generalizing r with
  | nil => rfl
  | cons c cells ih =>
      simp only [releaseEach, List.foldl_cons] at ih ⊢
      rw [release_relabeled, ih]

theorem drain_relabeled : (r.relabeled f g).drain = r.drain.relabeled f g :=
  releaseEach_relabeled (r.map fun h => { h with deferred := [] }) f g r.heap.deferred

theorem buryAll_relabeled (cells : List (CellId × Cell)) :
    (r.relabeled f g).buryAll cells = (r.buryAll cells).relabeled f g := by
  induction cells generalizing r with
  | nil => rfl
  | cons p cells ih =>
      simp only [buryAll, bury_relabeled]
      cases r.bury p.1 p.2 with
      | ok r' => exact ih r'
      | error fault => exact ih (r.map (·.fault (.link fault)))

theorem sweep_relabeled :
    (r.relabeled f g).sweep = (r.sweep.1.relabeled f g, r.sweep.2) := by
  have hburied := buryAll_relabeled
    (r.map fun h =>
      { h with objects := h.objects.mapItems fun cell => { cell with marked := false } })
    f g (r.heap.objects.toList.filter fun p => !p.2.marked)
  refine Prod.ext ?_ rfl
  exact (congrArg (fun r : Reclamation => r.releaseEach _) hburied).trans
    (releaseEach_relabeled _ f g _)

theorem collect_relabeled : (r.relabeled f g).collect = r.collect.relabeled f g := by
  have hmark : { (r.relabeled f g).heap with phase := .marking }.mark =
      { { r.heap with phase := .marking }.mark with
        heap := { r.heap with phase := .marking }.mark.heap.relabeled f g } :=
    Heap.mark_relabeled { r.heap with phase := .marking } f g
  have hmarked : ∀ h : Heap,
      { r.relabeled f g with heap := { h.relabeled f g with phase := .sweeping } } =
        { r with heap := { h with phase := .sweeping } }.relabeled f g := fun _ => rfl
  simp only [collect, hmark, hmarked, sweep_relabeled, releaseEach_relabeled, drain_relabeled]
  rfl

theorem collectIfOver_relabeled :
    (r.relabeled f g).collectIfOver = r.collectIfOver.relabeled f g := by
  by_cases hover : r.heap.capacity < r.heap.objects.length
  · have hover' : (r.relabeled f g).heap.capacity < (r.relabeled f g).heap.objects.length := hover
    rw [collectIfOver, collectIfOver, if_pos hover', if_pos hover]
    exact collect_relabeled (r.report (.triggered r.heap.objects.length r.heap.capacity)) f g
  · have hover' : ¬(r.relabeled f g).heap.capacity < (r.relabeled f g).heap.objects.length := hover
    rw [collectIfOver, collectIfOver, if_neg hover', if_neg hover]

end Reclamation

namespace Heap

variable (h : Heap) (f : Config → Config) (g : Ticket → Ticket)

theorem dropAnchor_relabeled (r : Root) :
    (h.relabeled f g).dropAnchor r = (h.dropAnchor r).relabeled f g := by
  have hstart : ∀ h : Heap, (h.relabeled f g).start = h.start.relabeled f g := fun _ => rfl
  simp only [dropAnchor, unroot_relabeled, hstart, Reclamation.release_relabeled,
    Reclamation.drain_relabeled]

end Heap

end HybridHeap
