import HybridHeap.LinkedMap.Basic

/-!
How the operations of a linked map change the number of its entries: a removal
takes one away, changing items or links does nothing.
-/

namespace HybridHeap

theorem size_erase_add_one {κ β : Type} [Ord κ] [Std.TransOrd κ]
    {t : Std.ExtTreeMap κ β} {k : κ} (h : k ∈ t) : (t.erase k).size + 1 = t.size := by
  have hpos : t.size ≠ 0 := by
    rw [ne_eq, ← Std.ExtTreeMap.eq_empty_iff_size_eq_zero]
    exact Std.ExtTreeMap.ne_empty_of_mem h
  rw [Std.ExtTreeMap.size_erase, if_pos (Std.ExtTreeMap.mem_iff_contains.1 h)]
  omega

namespace LinkedMap

variable {κ α : Type} [Ord κ] [Std.TransOrd κ]

@[simp] theorem size_modify (m : LinkedMap κ α) (k : κ) (f : α → α) :
    (m.modify k f).size = m.size := by
  simp [size, modify, Std.ExtTreeMap.size_modify]

@[simp] theorem size_mapItems (m : LinkedMap κ α) (f : α → α) :
    (m.mapItems f).size = m.size := by
  simp [size, mapItems, Std.ExtTreeMap.size_map]

@[simp] theorem size_relinkNewer (t : Std.ExtTreeMap κ (Linked κ α)) (k o : Option κ) :
    (relinkNewer t k o).size = t.size := by
  cases k <;> simp [relinkNewer, Std.ExtTreeMap.size_modify]

@[simp] theorem size_relinkOlder (t : Std.ExtTreeMap κ (Linked κ α)) (k o : Option κ) :
    (relinkOlder t k o).size = t.size := by
  cases k <;> simp [relinkOlder, Std.ExtTreeMap.size_modify]

theorem size_remove [DecidableEq κ] {m m' : LinkedMap κ α} {k : κ}
    (h : m.remove k = .ok m') : m'.size + 1 = m.size := by
  unfold remove at h
  split at h
  · cases h
  · rename_i e he
    split at h
    · cases h
    · split at h
      · cases h
      · cases h
        have hk : k ∈ m.entries := by
          simp [Std.ExtTreeMap.mem_iff_isSome_getElem?, he]
        simp only [size, size_relinkNewer, size_relinkOlder]
        exact size_erase_add_one hk

end LinkedMap

end HybridHeap
