import HybridHeap.Proofs.Heap.Changes

/-!
The threshold of a heap. No change but the placing of a cell brings cells, and none lowers
the threshold; a collection ends by raising it over what is left. So a heap is within its
threshold whenever it has just checked it, whatever state it was in before.
-/

namespace HybridHeap

theorem LinkedMap.length_remove {κ α : Type} [Ord κ] [Std.TransOrd κ] [DecidableEq κ]
    {m m' : LinkedMap κ α} {k : κ} (h : m.remove k = .ok m') : m'.length + 1 = m.length := by
  unfold remove at h
  split at h
  · cases h
  · split at h
    · cases h
    · split at h
      · cases h
      · cases h
        dsimp only
        omega

namespace Heap

/-- No more cells are live than the threshold allows. -/
def Within (h : Heap) : Prop :=
  h.objects.length ≤ h.capacity

/-- What becomes of a heap on which nothing is placed: it has no more cells than before and
no lower threshold. -/
structure Eases (h h' : Heap) : Prop where
  config : h'.config = h.config
  live : h'.objects.length ≤ h.objects.length
  capacity : h.capacity ≤ h'.capacity

variable {h h' h'' : Heap}

namespace Eases

theorem refl (h : Heap) : h.Eases h :=
  ⟨rfl, Nat.le_refl _, Nat.le_refl _⟩

theorem trans (he : h.Eases h') (he' : h'.Eases h'') : h.Eases h'' :=
  ⟨he'.config.trans he.config, Nat.le_trans he'.live he.live,
    Nat.le_trans he.capacity he'.capacity⟩

theorem within (he : h.Eases h') (hw : h.Within) : h'.Within :=
  Nat.le_trans he.live (Nat.le_trans hw he.capacity)

end Eases

theorem Change.eases (hc : h.Change h') : h.Eases h' := by
  cases hc with
  | fault f => exact ⟨rfl, Nat.le_refl _, Nat.le_refl _⟩
  | modifyCell c f => exact ⟨rfl, Nat.le_refl _, Nat.le_refl _⟩
  | remove hr =>
      have hlength := LinkedMap.length_remove hr
      exact ⟨rfl, by dsimp only; omega, Nat.le_refl _⟩
  | clearMarks => exact ⟨rfl, Nat.le_refl _, Nat.le_refl _⟩
  | relist roots nextTicket => exact ⟨rfl, Nat.le_refl _, Nat.le_refl _⟩
  | turn phase deferred counters => exact ⟨rfl, Nat.le_refl _, Nat.le_refl _⟩
  | raise hcapacity => exact ⟨rfl, Nat.le_refl _, hcapacity⟩

theorem Changes.eases (hc : h.Changes h') : h.Eases h' :=
  hc.lift Eases.refl Eases.trans Change.eases

end Heap

namespace Reclamation

/-- Whatever is left after a collection is within the threshold. -/
theorem within_collect (r : Reclamation) : r.collect.heap.Within := by
  obtain ⟨settled, -, phase, counters, he⟩ := r.reworks_settled
  rw [he, Heap.Within]
  dsimp only
  omega

/-- A check of the threshold leaves the heap within it. -/
theorem within_collectIfOver (r : Reclamation) : r.collectIfOver.heap.Within := by
  simp only [collectIfOver]
  split
  · exact within_collect _
  · rename_i hle
    exact Nat.not_lt.mp hle

end Reclamation

namespace Heap

/-- A drop of a root checks the threshold after everything it frees is off the heap and
before any payload is let go of. -/
theorem within_dropRoot {h : Heap} (ht : h.config.collectOnRelease = true) (r : Root) :
    (h.dropRoot r).heap.Within := by
  rw [dropRoot, if_pos ht]
  exact Reclamation.within_collectIfOver _

/-- What becomes of a heap whatever is done to it: its tuning stays, and if its allocations
check the threshold, it stays within it. -/
structure Heeds (h h' : Heap) : Prop where
  config : h'.config = h.config
  within : h.config.collectOnAllocate = true → h.Within → h'.Within

variable {h h' : Heap}

theorem Heeds.refl (h : Heap) : h.Heeds h :=
  ⟨rfl, fun _ hw => hw⟩

theorem Heeds.trans {h'' : Heap} (hh : h.Heeds h') (hh' : h'.Heeds h'') : h.Heeds h'' :=
  ⟨hh'.config.trans hh.config, fun ht hw => hh'.within (hh.config ▸ ht) (hh.within ht hw)⟩

theorem Changes.heeds (hc : h.Changes h') : h.Heeds h' :=
  ⟨hc.eases.config, fun _ hw => hc.eases.within hw⟩

/-- Only a placement brings a cell, and it ends with a check. -/
theorem heeds_place (h : Heap) (c : CellId) (v : Value Handle) : h.Heeds (h.place c v).2.heap := by
  have hlinked : (h.link c v.placed).config = h.config := by
    unfold link
    split <;> rfl
  refine ⟨((h.changes_place c v).eases.config).trans hlinked, fun ht _ => ?_⟩
  rw [place_eq, if_pos ht]
  exact Reclamation.within_collectIfOver _

end Heap

end HybridHeap
