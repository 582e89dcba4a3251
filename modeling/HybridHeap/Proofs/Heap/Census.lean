import HybridHeap.Heap.Update
import HybridHeap.Proofs.Contents

/-!
The census of a heap. Every reference to a cell is counted: those held from outside
the heap, and those in the slots of its live cells. `Heap.Counted` says that the
counts are exactly these, for a given list of references held from outside, and
`Reclamation.Thins` what no reclamation changes while it frees cells.
-/

namespace HybridHeap

/-- The cells that the slots of the given cells refer to. -/
def slotTargets (cells : List (CellId × Cell)) : List CellId :=
  cells.flatMap fun p => p.2.value.targets

@[simp] theorem slotTargets_nil : slotTargets [] = [] := rfl

@[simp] theorem slotTargets_cons (p : CellId × Cell) (cells : List (CellId × Cell)) :
    slotTargets (p :: cells) = p.2.value.targets ++ slotTargets cells := rfl

theorem slotTargets_perm {l l' : List (CellId × Cell)} (h : l.Perm l') :
    (slotTargets l).Perm (slotTargets l') :=
  h.flatMap_right _

theorem mem_slotTargets {l : List (CellId × Cell)} {c : CellId} :
    c ∈ slotTargets l ↔ ∃ p ∈ l, c ∈ p.2.value.targets :=
  List.mem_flatMap

/-- Only values matter to the references that cells hold. -/
theorem slotTargets_map {f : CellId × Cell → CellId × Cell}
    (hf : ∀ p, (f p).2.value = p.2.value) (l : List (CellId × Cell)) :
    slotTargets (l.map f) = slotTargets l := by
  induction l with
  | nil => rfl
  | cons p l ih => rw [List.map_cons, slotTargets_cons, slotTargets_cons, hf, ih]

namespace Heap

/-- The live cells, from the newest to the oldest. -/
def cells (h : Heap) : List (CellId × Cell) :=
  h.objects.toList

/-- A collection of this heap would not raise the threshold, whatever it leaves. -/
def Roomy (h : Heap) : Prop :=
  h.cells.length + h.cells.length / 2 ≤ h.capacity

/-- The count that a cell carries; a cell that is not on the heap has none. -/
def countOf (h : Heap) (c : CellId) : Nat :=
  ((h.find? c).map Cell.count).getD 0

def Live (h : Heap) (c : CellId) : Prop :=
  ∃ cell, h.find? c = some cell

theorem countOf_of_find? {h : Heap} {c : CellId} {cell : Cell} (hc : h.find? c = some cell) :
    h.countOf c = cell.count := by
  simp [countOf, hc]

theorem countOf_of_none {h : Heap} {c : CellId} (hc : h.find? c = none) : h.countOf c = 0 := by
  simp [countOf, hc]

theorem live_of_countOf_pos {h : Heap} {c : CellId} (hc : 0 < h.countOf c) : h.Live c := by
  cases hf : h.find? c with
  | none => simp [countOf_of_none hf] at hc
  | some cell => exact ⟨cell, hf⟩

@[simp] theorem find?_modifyCell (h : Heap) (c d : CellId) (f : Cell → Cell) :
    (h.modifyCell c f).find? d = if d = c then (h.find? d).map f else h.find? d :=
  LinkedMap.find?_modify h.objects c d f

theorem cells_modifyCell {h : Heap} (hs : h.objects.Sound) (c : CellId) (f : Cell → Cell) :
    (h.modifyCell c f).cells = h.cells.map fun p => (p.1, if p.1 = c then f p.2 else p.2) :=
  hs.toList_modify c f

theorem cells_modifyCell_perm {h : Heap} (hs : h.objects.Sound) {c : CellId} {cell : Cell}
    (hf : h.find? c = some cell) (f : Cell → Cell) :
    (h.modifyCell c f).cells.Perm ((c, f cell) :: h.cells.filter fun p => p.1 ≠ c) := by
  rw [cells_modifyCell hs]
  exact map_update_perm hs.nodup (hs.find?_eq_some_iff.mp hf) f

theorem slotTargets_modifyCell {h : Heap} (hs : h.objects.Sound) (c : CellId) {f : Cell → Cell}
    (hf : ∀ cell, (f cell).value = cell.value) :
    slotTargets (h.modifyCell c f).cells = slotTargets h.cells := by
  rw [cells_modifyCell hs]
  refine slotTargets_map (fun p => ?_) _
  dsimp only
  split
  · exact hf p.2
  · rfl

/-- Counts are exact: each cell is referred to as often as it is held from outside
and from the slots of live cells together. -/
structure Counted (h : Heap) (held : List CellId) : Prop where
  sound : h.objects.Sound
  count : ∀ c, h.countOf c = held.count c + (slotTargets h.cells).count c
  positive : ∀ c cell, h.find? c = some cell → 0 < cell.count

namespace Counted

variable {h h' : Heap} {held held' : List CellId} {c d : CellId} {cell : Cell}

theorem perm (hc : h.Counted held) (hp : held.Perm held') : h.Counted held' where
  sound := hc.sound
  count c := by rw [hc.count, hp.count_eq]
  positive := hc.positive

theorem find?_eq_some_iff (hc : h.Counted held) : h.find? c = some cell ↔ (c, cell) ∈ h.cells :=
  hc.sound.find?_eq_some_iff

/-- A heap that differs in nothing but its roots, counters and other data outside
the cells has the same census. -/
theorem congr (hc : h.Counted held) (ho : h'.objects = h.objects) : h'.Counted held := by
  constructor
  · exact ho ▸ hc.sound
  · intro c
    have hcount := hc.count c
    simp only [countOf, find?, cells] at hcount ⊢
    rw [ho, hcount]
  · intro c cell hf
    simp only [find?] at hf
    rw [ho] at hf
    exact hc.positive c cell hf

theorem live_of_mem (hc : h.Counted held) (hm : c ∈ held) : h.Live c := by
  apply live_of_countOf_pos
  rw [hc.count]
  have := List.count_pos_iff.mpr hm
  omega

theorem live_of_slot (hc : h.Counted held) (hm : c ∈ slotTargets h.cells) : h.Live c := by
  apply live_of_countOf_pos
  rw [hc.count]
  have := List.count_pos_iff.mpr hm
  omega

theorem mem_slotTargets_of_find? (hc : h.Counted held) (hf : h.find? c = some cell)
    (hd : d ∈ cell.value.targets) : d ∈ slotTargets h.cells :=
  mem_slotTargets.mpr ⟨(c, cell), hc.find?_eq_some_iff.mp hf, hd⟩

theorem live_of_target (hc : h.Counted held) (hf : h.find? c = some cell)
    (hd : d ∈ cell.value.targets) : h.Live d :=
  hc.live_of_slot (hc.mem_slotTargets_of_find? hf hd)

/-- A change of one cell's count that matches a change of the references held
from outside. -/
theorem recount (hc : h.Counted held) (hf : h.find? c = some cell) {f : Cell → Cell}
    (hv : ∀ cell, (f cell).value = cell.value) (hpos : 0 < (f cell).count)
    (hn : (f cell).count + held.count c = cell.count + held'.count c)
    (hne : ∀ d, d ≠ c → held'.count d = held.count d) :
    (h.modifyCell c f).Counted held' := by
  constructor
  · exact hc.sound.modify c f
  · intro d
    have hcount := hc.count d
    rw [slotTargets_modifyCell hc.sound c hv]
    by_cases hd : d = c
    · subst hd
      rw [countOf_of_find? hf] at hcount
      rw [countOf_of_find? (by rw [find?_modifyCell, if_pos rfl, hf, Option.map_some])]
      omega
    · rw [hne d hd, ← hcount, countOf, countOf, find?_modifyCell, if_neg hd]
  · intro d cell' hd
    rw [find?_modifyCell] at hd
    split at hd
    · rename_i he
      subst he
      rw [hf, Option.map_some] at hd
      cases hd
      exact hpos
    · exact hc.positive d cell' hd

/-- A reference given up is one reference less in the count of its target. -/
theorem lower (hc : h.Counted (c :: held)) (hf : h.find? c = some cell) {n : Nat}
    (hn : cell.count = n + 2) :
    (h.modifyCell c fun cell => { cell with count := n + 1 }).Counted held := by
  refine hc.recount hf (fun _ => rfl) (Nat.succ_pos n) ?_ fun d hd => ?_
  · rw [List.count_cons_self, hn]
    simp only
    omega
  · rw [List.count_cons_of_ne (Ne.symm hd)]

/-- When the last reference to a cell is given up and the cell goes, the references
in its slots are held from outside until they are given up in turn. -/
theorem free (hc : h.Counted (c :: held)) (hf : h.find? c = some cell) (hn : cell.count = 1)
    {objects : LinkedMap CellId Cell} (hs : objects.Sound)
    (ho : objects.toList = h.cells.filter fun p => p.1 ≠ c) :
    { h with objects }.Counted (cell.value.targets ++ held) := by
  have hfind : ∀ d, { h with objects }.find? d = if d = c then none else h.find? d := by
    intro d
    have := hc.sound.find?_of_filter hs (fun d => d ≠ c) ho d
    simp only [find?]
    rw [this]
    by_cases hd : d = c <;> simp [hd]
  have hperm : h.cells.Perm ((c, cell) :: objects.toList) :=
    ho ▸ perm_cons_filter hc.sound.nodup (hc.find?_eq_some_iff.mp hf)
  -- the slots of the cell that goes are the references that are held instead
  have hslots : ∀ d, (slotTargets h.cells).count d =
      cell.value.targets.count d + (slotTargets objects.toList).count d := by
    intro d
    rw [(slotTargets_perm hperm).count_eq d, slotTargets_cons, List.count_append]
  constructor
  · exact hs
  · intro d
    have hcount := hc.count d
    rw [hslots] at hcount
    show _ = _ + (slotTargets objects.toList).count d
    by_cases hd : d = c
    · subst hd
      rw [countOf_of_find? hf, hn, List.count_cons_self] at hcount
      rw [countOf_of_none ((hfind d).trans (if_pos rfl)), List.count_append]
      omega
    · rw [List.count_cons_of_ne (Ne.symm hd)] at hcount
      rw [List.count_append, countOf, hfind, if_neg hd]
      rw [countOf] at hcount
      omega
  · intro d cell' hd
    rw [hfind] at hd
    split at hd
    · cases hd
    · exact hc.positive d cell' hd

end Counted

end Heap

end HybridHeap
