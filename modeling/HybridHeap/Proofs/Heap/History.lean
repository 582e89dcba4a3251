import HybridHeap.Proofs.Heap.Changes

/-!
What a heap can never do, in whatever state it is: bring back a cell that it does not
have, and forget a fault. `Heap.Precedes` says so of a heap and what becomes of it; it
needs no balance, so the record of faults can be trusted to tell of every check that
has failed.
-/

namespace HybridHeap

namespace LinkedMap

variable {κ α : Type} [Ord κ] [Std.TransOrd κ]

theorem mem_of_relinkNewer {t : Std.ExtTreeMap κ (Linked κ α)} {k newer : Option κ} {j : κ}
    (h : j ∈ relinkNewer t k newer) : j ∈ t := by
  cases k with
  | none => exact h
  | some k => exact Std.ExtTreeMap.mem_modify.mp h

theorem mem_of_relinkOlder {t : Std.ExtTreeMap κ (Linked κ α)} {k older : Option κ} {j : κ}
    (h : j ∈ relinkOlder t k older) : j ∈ t := by
  cases k with
  | none => exact h
  | some k => exact Std.ExtTreeMap.mem_modify.mp h

theorem mem_of_remove [DecidableEq κ] {m m' : LinkedMap κ α} {k j : κ}
    (h : m.remove k = .ok m') (hj : j ∈ m'.entries) : j ∈ m.entries := by
  unfold remove at h
  split at h
  · cases h
  · split at h
    · cases h
    · split at h
      · cases h
      · cases h
        exact Std.ExtTreeMap.mem_of_mem_erase (mem_of_relinkOlder (mem_of_relinkNewer hj))

/-- What is taken out was there and is not there any more. -/
theorem mem_and_not_mem_of_remove [DecidableEq κ] {m m' : LinkedMap κ α} {k : κ}
    (h : m.remove k = .ok m') : k ∈ m.entries ∧ k ∉ m'.entries := by
  unfold remove at h
  split at h
  · cases h
  · rename_i e he
    split at h
    · cases h
    · split at h
      · cases h
      · cases h
        refine ⟨by simp [Std.ExtTreeMap.mem_iff_isSome_getElem?, he], fun hm => ?_⟩
        simpa using mem_of_relinkOlder (mem_of_relinkNewer hm)

theorem mem_of_pushFront [Std.LawfulEqOrd κ] {m m' : LinkedMap κ α} {k j : κ} {a : α}
    (h : m.pushFront k a = .ok m') (hj : j ∈ m'.entries) : j = k ∨ j ∈ m.entries := by
  unfold pushFront at h
  split at h
  · cases h
  · cases h
    rcases Std.ExtTreeMap.mem_insert.mp hj with hj | hj
    · exact .inl (Std.compare_eq_iff_eq.mp hj).symm
    · exact .inr (mem_of_relinkNewer hj)

end LinkedMap

namespace Heap

theorem live_iff_mem {h : Heap} {c : CellId} : h.Live c ↔ c ∈ h.objects.entries := by
  rw [Std.ExtTreeMap.mem_iff_isSome_getElem?, Live, find?, LinkedMap.find?]
  cases h.objects.entries[c]? <;> simp

/-- What becomes of a heap while new cells get numbers from `n` on: no older cell is on it
that was not there before, and the faults on record stay there. -/
structure Precedes (n : Nat) (h h' : Heap) : Prop where
  live : ∀ c, h'.Live c → h.Live c ∨ n ≤ c.number
  faults : h.faults <:+ h'.faults

variable {n : Nat} {h h' h'' : Heap}

namespace Precedes

theorem refl (n : Nat) (h : Heap) : h.Precedes n h :=
  ⟨fun _ hl => .inl hl, List.suffix_rfl⟩

theorem trans (hp : h.Precedes n h') (hp' : h'.Precedes n h'') : h.Precedes n h'' where
  live c hl := (hp'.live c hl).elim (hp.live c) .inr
  faults := hp.faults.trans hp'.faults

/-- Numbers are given out in order. -/
theorem mono {k : Nat} (hp : h.Precedes k h') (hn : n ≤ k) : h.Precedes n h' where
  live c hl := (hp.live c hl).imp id (Nat.le_trans hn)
  faults := hp.faults

/-- A heap with the same cells or fewer of them. -/
theorem of_mem (hm : ∀ c, c ∈ h'.objects.entries → c ∈ h.objects.entries)
    (hf : h'.faults = h.faults) : h.Precedes n h' where
  live c hl := .inl (live_iff_mem.mpr (hm c (live_iff_mem.mp hl)))
  faults := hf ▸ List.suffix_rfl

theorem of_objects (ho : h'.objects = h.objects) (hf : h'.faults = h.faults) : h.Precedes n h' :=
  of_mem (fun _ hc => ho ▸ hc) hf

end Precedes

theorem precedes_fault (n : Nat) (h : Heap) (f : Fault) : h.Precedes n (h.fault f) where
  live _ hl := .inl hl
  faults := List.suffix_cons ..

theorem Change.precedes (hc : h.Change h') : h.Precedes n h' := by
  cases hc with
  | fault f => exact h.precedes_fault n f
  | modifyCell c f => exact .of_mem (fun _ hm => Std.ExtTreeMap.mem_modify.mp hm) rfl
  | remove hr => exact .of_mem (fun _ hm => LinkedMap.mem_of_remove hr hm) rfl
  | clearMarks => exact .of_mem (fun _ hm => Std.ExtTreeMap.mem_map.mp hm) rfl
  | relist roots nextTicket => exact .of_objects rfl rfl
  | turn phase deferred counters => exact .of_objects rfl rfl
  | raise hcapacity => exact .of_objects rfl rfl

theorem Changes.precedes (hc : h.Changes h') : h.Precedes n h' :=
  hc.lift (Precedes.refl n) Precedes.trans Change.precedes

/-- Placing a value brings the new cell. -/
theorem precedes_place {c : CellId} (h : Heap) (hc : n ≤ c.number) (v : Value Handle) :
    h.Precedes n (h.place c v).2.heap := by
  have hlink : h.Precedes n (h.link c v.placed) := by
    unfold link
    split
    · rename_i objects hp
      refine ⟨fun d hd => ?_, List.suffix_rfl⟩
      rcases LinkedMap.mem_of_pushFront hp (live_iff_mem.mp hd) with rfl | hd
      · exact .inr hc
      · exact .inl (live_iff_mem.mpr hd)
    · exact h.precedes_fault n _
  exact hlink.trans (h.changes_place c v).precedes

end Heap

end HybridHeap
