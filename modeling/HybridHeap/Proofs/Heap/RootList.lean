import HybridHeap.Proofs.Heap.Acts

/-!
What becomes of a root list, in whatever state its heap is. An act issues one ticket at most;
nothing comes onto the list but a root with that ticket, and what stays there has the entry
that it had (`Heap.Act.enlists`).
-/

namespace HybridHeap

namespace LinkedMap

variable {κ α : Type} [Ord κ] [Std.TransOrd κ] [Std.LawfulEqOrd κ] [DecidableEq κ]

theorem item_relinkNewer (t : Std.ExtTreeMap κ (Linked κ α)) (k newer : Option κ) (j : κ) :
    ((relinkNewer t k newer)[j]?).map Linked.item = (t[j]?).map Linked.item := by
  rw [getElem?_relinkNewer]
  split
  · rw [Option.map_map]
    rfl
  · rfl

theorem item_relinkOlder (t : Std.ExtTreeMap κ (Linked κ α)) (k older : Option κ) (j : κ) :
    ((relinkOlder t k older)[j]?).map Linked.item = (t[j]?).map Linked.item := by
  rw [getElem?_relinkOlder]
  split
  · rw [Option.map_map]
    rfl
  · rfl

/-- An insertion gives no other key an item. -/
theorem find?_pushFront {m m' : LinkedMap κ α} {k : κ} {a : α} (h : m.pushFront k a = .ok m')
    (j : κ) : m'.find? j = if k = j then some a else m.find? j := by
  unfold pushFront at h
  split at h
  · cases h
  · cases h
    rw [find?, Std.ExtTreeMap.getElem?_insert]
    simp only [Std.compare_eq_iff_eq]
    split
    · rfl
    · exact item_relinkNewer _ _ _ _

/-- A removal changes no other item. -/
theorem find?_remove {m m' : LinkedMap κ α} {k : κ} (h : m.remove k = .ok m') (j : κ) :
    m'.find? j = if k = j then none else m.find? j := by
  unfold remove at h
  split at h
  · cases h
  · split at h
    · cases h
    · split at h
      · cases h
      · cases h
        rw [find?, item_relinkNewer, item_relinkOlder, Std.ExtTreeMap.getElem?_erase]
        simp only [Std.compare_eq_iff_eq]
        split <;> rfl

end LinkedMap

namespace Heap

/-- Between `h` and `h'` tickets were issued, `n` of them, and no other root has come onto the
root list. -/
structure Enlists (n : Nat) (h h' : Heap) : Prop where
  issued : h'.nextTicket = h.nextTicket + n
  entries : ∀ t c, h'.roots.find? t = some c → h.roots.find? t = some c ∨ h.nextTicket ≤ t

variable {h h' h'' : Heap} {n n' : Nat}

namespace Enlists

theorem refl (h : Heap) : h.Enlists 0 h :=
  ⟨rfl, fun _ _ hf => .inl hf⟩

theorem trans (he : h.Enlists n h') (he' : h'.Enlists n' h'') : h.Enlists (n + n') h'' where
  issued := by rw [he'.issued, he.issued, Nat.add_assoc]
  entries t c hf := by
    rcases he'.entries t c hf with hf' | ht
    · exact he.entries t c hf'
    · exact .inr (Nat.le_trans (Nat.le.intro he.issued.symm) ht)

/-- What is listed with an older ticket was listed before. -/
theorem mem_of_lt (he : h.Enlists n h') (hs : h.roots.Sound) (hs' : h'.roots.Sound)
    {p : Ticket × CellId} (hp : p ∈ h'.roots.toList) (hlt : p.1 < h.nextTicket) :
    p ∈ h.roots.toList := by
  have hfind := he.entries p.1 p.2 (hs'.find?_eq_some_iff.mpr hp)
  exact hs.find?_eq_some_iff.mp (hfind.resolve_right (Nat.not_le_of_lt hlt))

end Enlists

theorem Reworks.enlists (hw : h.Reworks h') : h.Enlists 0 h' := by
  obtain ⟨hroots, hticket⟩ := hw.listed
  exact ⟨hticket, fun t c hf => .inl (hroots ▸ hf)⟩

section Acts

variable (h : Heap)

theorem enlists_unroot (r : Root) : h.Enlists 0 (h.unroot r) := by
  unfold unroot
  split
  · rename_i roots hr
    refine ⟨rfl, fun t c hf => .inl ?_⟩
    rw [LinkedMap.find?_remove hr] at hf
    split at hf
    · cases hf
    · exact hf
  · exact (h.reworks_fault _).enlists

theorem enlists_unrootAll (rs : List Root) : h.Enlists 0 (h.unrootAll rs) := by
  induction rs generalizing h with
  | nil => exact .refl h
  | cons r rs ih => exact (h.enlists_unroot r).trans (ih (h.unroot r))

theorem enlists_register (c : CellId) : h.Enlists 1 (h.register c).1 := by
  have hretain := (h.reworks_retain c).enlists
  suffices hpush : (h.retain c).Enlists 1 (h.register c).1 from hretain.trans hpush
  simp only [register]
  split
  · rename_i roots hr
    refine ⟨rfl, fun t d hf => ?_⟩
    rw [LinkedMap.find?_pushFront hr] at hf
    split at hf
    · rename_i ht
      exact .inr (Nat.le_of_eq ht)
    · exact .inl hf
  · exact ⟨rfl, fun t d hf => .inl hf⟩

/-- A new root has the ticket that is next. -/
theorem register_snd (c : CellId) :
    (h.register c).2 = { cell := c, ticket := h.nextTicket } := by
  have hticket : (h.retain c).nextTicket = h.nextTicket := (h.reworks_retain c).listed.2
  simp only [register, hticket]
  split <;> rfl

theorem enlists_link (c : CellId) (v : Value Slot) : h.Enlists 0 (h.link c v) := by
  unfold link
  split
  · exact ⟨rfl, fun t d hf => .inl hf⟩
  · exact (h.reworks_fault _).enlists

theorem enlists_place (c : CellId) (v : Value Handle) : h.Enlists 1 (h.place c v).2.heap :=
  ((((h.enlists_link c v.placed).trans (enlists_register _ c)).trans
    (enlists_unrootAll _ v.anchors))).trans (h.reworks_place c v).enlists

theorem place_root (c : CellId) (v : Value Handle) :
    (h.place c v).1 = { cell := c, ticket := h.nextTicket } := by
  have hroot : (h.place c v).1 = ((h.link c v.placed).register c).2 := rfl
  rw [hroot, register_snd, (h.enlists_link c v.placed).issued, Nat.add_zero]

theorem enlists_dropRoot (r : Root) : h.Enlists 0 (h.dropRoot r).heap :=
  (h.enlists_unroot r).trans (h.reworks_dropRoot r).enlists

theorem enlists_dropAnchor (r : Root) : h.Enlists 0 (h.dropAnchor r).heap :=
  (h.enlists_unroot r).trans (h.reworks_dropAnchor r).enlists

variable {h}

theorem Work.enlists {r : Reclamation} (hw : h.Work r) : h.Enlists 0 r.heap := by
  cases hw with
  | finishWrite anchors =>
      exact (h.enlists_unrootAll anchors).trans
        (h.unrootAll anchors).start.reworks_drain.enlists
  | write hw => exact (h.reworks_write hw).enlists
  | append hw => exact (h.reworks_append hw).enlists

/-- What is done to a heap in one go takes one ticket at most. -/
theorem Act.enlists {asked : Prop} {placed : Option CellId} {r : Reclamation}
    (ha : h.Act asked placed r) : ∃ n ≤ 1, h.Enlists n r.heap := by
  cases ha with
  | register c => exact ⟨1, Nat.le_refl 1, h.enlists_register c⟩
  | swap c v => exact ⟨0, Nat.zero_le 1, (h.reworks_swap c v).enlists⟩
  | place c v => exact ⟨1, Nat.le_refl 1, h.enlists_place c v⟩
  | dropRoot r => exact ⟨0, Nat.zero_le 1, h.enlists_dropRoot r⟩
  | dropAnchor r => exact ⟨0, Nat.zero_le 1, h.enlists_dropAnchor r⟩
  | work hw => exact ⟨0, Nat.zero_le 1, hw.enlists⟩
  | collectNow _ => exact ⟨0, Nat.zero_le 1, h.reworks_collectNow.enlists⟩

end Acts

end Heap

end HybridHeap
