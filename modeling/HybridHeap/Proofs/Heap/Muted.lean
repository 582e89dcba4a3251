import HybridHeap.Proofs.Heap.Relabeled
import HybridHeap.Proofs.Heap.Threshold

/-!
A heap whose drops of roots do not check the threshold. Muting the trigger changes nothing
in what the heap does, except that drops no longer start a collection; and where a heap is
within its threshold, they did not start one before either.
-/

namespace HybridHeap

def Config.muted (c : Config) : Config :=
  { c with collectOnRelease := false }

namespace Heap

/-- The heap with the same contents whose drops do not check the threshold. -/
def muted (h : Heap) : Heap :=
  { h with config := { h.config with collectOnRelease := false } }

@[simp] theorem read_muted (h : Heap) (c : CellId) : h.muted.read c = h.read c := rfl

@[simp] theorem objects_muted (h : Heap) : h.muted.objects = h.objects := rfl

@[simp] theorem roots_muted (h : Heap) : h.muted.roots = h.roots := rfl

@[simp] theorem nextTicket_muted (h : Heap) : h.muted.nextTicket = h.nextTicket := rfl

section Cells

variable (h : Heap) (c : CellId)

theorem retain_muted : h.muted.retain c = (h.retain c).muted := by
  by_cases hc : h.objects.contains c = true
  · have hc' : h.muted.objects.contains c = true := hc
    rw [retain, retain, if_pos hc', if_pos hc]
    rfl
  · have hc' : ¬h.muted.objects.contains c = true := hc
    rw [retain, retain, if_neg hc', if_neg hc]
    rfl

theorem register_muted : h.muted.register c = ((h.register c).1.muted, (h.register c).2) := by
  simp only [register, retain_muted, roots_muted, nextTicket_muted]
  cases (h.retain c).roots.pushFront (h.retain c).nextTicket c <;> rfl

theorem unroot_muted (r : Root) : h.muted.unroot r = (h.unroot r).muted :=
  h.unroot_relabeled Config.muted id r

theorem unrootAll_muted (rs : List Root) : h.muted.unrootAll rs = (h.unrootAll rs).muted := by
  induction rs generalizing h with
  | nil => rfl
  | cons r rs ih =>
      simp only [unrootAll, List.foldl_cons] at ih ⊢
      rw [unroot_muted, ih]

theorem retainSlot_muted (t : Slot) : h.muted.retainSlot t = (h.retainSlot t).muted := by
  cases t with
  | none => rfl
  | some c => exact h.retain_muted c

theorem link_muted (v : Value Slot) : h.muted.link c v = (h.link c v).muted := by
  simp only [link, objects_muted]
  cases h.objects.pushFront c { count := 0, marked := false, value := v } <;> rfl

end Cells

end Heap

namespace Reclamation

/-- A reclamation on the muted heap. -/
def muted (r : Reclamation) : Reclamation :=
  r.map Heap.muted

@[simp] theorem heap_muted (r : Reclamation) : r.muted.heap = r.heap.muted := rfl

@[simp] theorem start_muted (h : Heap) : h.muted.start = h.start.muted := rfl

variable (r : Reclamation)

theorem drain_muted : r.muted.drain = r.drain.muted :=
  r.drain_relabeled Config.muted id

theorem collect_muted : r.muted.collect = r.collect.muted :=
  r.collect_relabeled Config.muted id

theorem collectIfOver_muted : r.muted.collectIfOver = r.collectIfOver.muted :=
  r.collectIfOver_relabeled Config.muted id

/-- Within its threshold a heap is not collected. -/
theorem collectIfOver_of_within {r : Reclamation} (hw : r.heap.Within) : r.collectIfOver = r :=
  if_neg (Nat.not_lt.mpr hw)

end Reclamation

namespace Heap

/-- A heap on which no drop of a root can start a collection: its drops do not check the
threshold, or its allocations do and have kept the heap within it. -/
def Guarded (h : Heap) : Prop :=
  h.config.collectOnRelease = false ∨ h.config.collectOnAllocate = true ∧ h.Within

/-- On a guarded heap a root is dropped like a slot. -/
theorem dropRoot_of_guarded {h : Heap} (hg : h.Guarded) (r : Root) :
    h.dropRoot r = h.dropAnchor r := by
  simp only [dropRoot]
  split
  · rename_i ht
    obtain hoff | ⟨-, hw⟩ := hg
    · rw [hoff] at ht
      cases ht
    · exact Reclamation.collectIfOver_of_within ((h.changes_dropAnchor r).eases.within hw)
  · rfl

section Updates

variable (h : Heap)

theorem dropAnchor_muted (r : Root) : h.muted.dropAnchor r = (h.dropAnchor r).muted :=
  h.dropAnchor_relabeled Config.muted id r

theorem dropRoot_muted {h : Heap} (hg : h.Guarded) (r : Root) :
    h.muted.dropRoot r = (h.dropRoot r).muted := by
  have hmuted : h.muted.Guarded := .inl rfl
  rw [dropRoot_of_guarded hmuted, dropRoot_of_guarded hg, dropAnchor_muted]

theorem collectNow_muted : h.muted.collectNow = h.collectNow.muted := by
  simp only [collectNow, Reclamation.start_muted, Reclamation.drain_muted,
    Reclamation.collect_muted]

theorem place_muted (c : CellId) (v : Value Handle) :
    h.muted.place c v = ((h.place c v).1, (h.place c v).2.muted) := by
  have htrigger : h.muted.config.collectOnAllocate = h.config.collectOnAllocate := rfl
  have hplaced : h.muted.placeOnly c v = ((h.placeOnly c v).1, (h.placeOnly c v).2.muted) := by
    simp only [placeOnly, link_muted, register_muted, unrootAll_muted]
    rfl
  simp only [place_eq, htrigger, hplaced, Reclamation.start_muted, Reclamation.drain_muted,
    Reclamation.collectIfOver_muted]
  split <;> rfl

theorem swap_muted (c : CellId) (v : Value Handle) : h.muted.swap c v = (h.swap c v).muted := rfl

theorem finishWrite_muted (anchors : List Root) :
    h.muted.finishWrite anchors = (h.finishWrite anchors).muted := by
  simp only [finishWrite, unrootAll_muted, Reclamation.start_muted, Reclamation.drain_muted]

theorem write_muted (c : CellId) (p : Position) (t : Slot) :
    h.muted.write c p t = (h.write c p t).map Reclamation.muted := by
  simp only [write, read_muted]
  cases (h.read c).get p with
  | error e => rfl
  | ok displaced =>
      have hwritten := retainSlot_muted h t
      simp only [hwritten]
      exact congrArg Except.ok (finishWrite_muted
        (((h.retainSlot t).setValue c ((h.read c).replace p t)).defer displaced.toList) [])

theorem append_muted (c : CellId) (t : Slot) :
    h.muted.append c t = (h.append c t).map Reclamation.muted := by
  simp only [append, read_muted]
  cases (h.read c).append t with
  | error e => rfl
  | ok v =>
      have hwritten := retainSlot_muted h t
      simp only [hwritten]
      exact congrArg Except.ok (finishWrite_muted ((h.retainSlot t).setValue c v) [])

end Updates

end Heap

end HybridHeap
