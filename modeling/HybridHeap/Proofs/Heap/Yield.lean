import HybridHeap.Proofs.Heap.Update

/-!
The smallest things that become of a heap while references are given up: one reference to
a cell goes, and the cell with it if it was the last one; one entry goes off the root list;
the queue is taken. On sound maps any two of these commute.
-/

namespace HybridHeap

/-- What is left of an entry after one reference to the cell `c` is given up. -/
def yielded (c : CellId) (p : CellId × Cell) : Option (CellId × Cell) :=
  if p.1 = c then
    if p.2.count = 1 then none else some (p.1, { p.2 with count := p.2.count - 1 })
  else
    some p

theorem yielded_of_ne {c : CellId} {p : CellId × Cell} (h : p.1 ≠ c) : yielded c p = some p :=
  if_neg h

theorem yielded_comm {c d : CellId} (h : c ≠ d) (p : CellId × Cell) :
    (yielded c p).bind (yielded d) = (yielded d p).bind (yielded c) := by
  by_cases hc : p.1 = c
  · have hd : p.1 ≠ d := fun hd => h (hc.symm.trans hd)
    rw [yielded_of_ne hd, Option.bind_some, yielded, if_pos hc]
    split
    · rfl
    · exact yielded_of_ne hd
  · rw [yielded_of_ne hc, Option.bind_some]
    by_cases hd : p.1 = d
    · rw [yielded, if_pos hd]
      split
      · rfl
      · exact (yielded_of_ne (p := (p.1, { p.2 with count := p.2.count - 1 })) hc).symm
    · rw [yielded_of_ne hd, Option.bind_some, yielded_of_ne hc]

namespace Heap

/-- The cell that goes with the next reference to it. -/
def last? (h : Heap) (c : CellId) : Option Cell :=
  (h.find? c).filter fun cell => cell.count = 1

/-- The heap with one reference to a cell less. -/
def yield (h : Heap) (c : CellId) : Heap :=
  match h.last? c, h.objects.remove c with
  | some _, .ok objects =>
    { h with objects, counters := { h.counters with eagerFrees := h.counters.eagerFrees + 1 } }
  | some _, .error _ => h
  | none, _ => h.modifyCell c fun cell => { cell with count := cell.count - 1 }

/-- The heap with one entry less on its root list. -/
def strike (h : Heap) (r : Root) : Heap :=
  if h.roots.find? r.ticket = some r.cell then h.unroot r else h

/-- The heap with an empty queue. -/
def unqueue (h : Heap) : Heap :=
  { h with deferred := [] }

/-- The maps of a heap are sound. -/
structure Sound (h : Heap) : Prop where
  objects : h.objects.Sound
  roots : h.roots.Sound

variable {h : Heap} {c d : CellId} {r s : Root}

section Yield

theorem last?_eq_some {cell : Cell} :
    h.last? c = some cell ↔ h.find? c = some cell ∧ cell.count = 1 := by
  simp [last?, Option.filter_eq_some_iff]

/-- What `yield` does to the cells and the counters. -/
theorem yield_spec (hs : h.objects.Sound) (c : CellId) :
    ∃ objects, objects.Sound ∧ objects.toList = h.objects.toList.filterMap (yielded c) ∧
      h.yield c = { h with
        objects,
        counters := { h.counters with
          eagerFrees := h.counters.eagerFrees + (h.last? c).toList.length } } := by
  cases hl : h.last? c with
  | some cell =>
      obtain ⟨hf, hn⟩ := last?_eq_some.mp hl
      have hm := hs.find?_eq_some_iff.mp hf
      obtain ⟨objects, hr, hs', ht⟩ := hs.remove hm
      refine ⟨objects, hs', ?_, by simp only [yield, hl, hr]; rfl⟩
      rw [ht, ← List.filterMap_eq_filter]
      refine List.filterMap_congr fun p hp => ?_
      by_cases hpc : p.1 = c
      · have hcell : p.2 = cell := eq_of_mem_of_nodup hs.nodup (hpc ▸ hp) hm
        simp [yielded, Option.guard, hpc, hcell, hn]
      · simp [yielded, Option.guard, hpc]
  | none =>
      refine ⟨_, hs.modify c fun cell => { cell with count := cell.count - 1 }, ?_,
        by simp only [yield, hl]; rfl⟩
      rw [hs.toList_modify, ← List.filterMap_eq_map]
      refine List.filterMap_congr fun p hp => ?_
      by_cases hpc : p.1 = c
      · have hf : h.find? c = some p.2 := hs.find?_eq_some_iff.mpr (hpc ▸ hp)
        have hn : p.2.count ≠ 1 := fun hn => by
          rw [last?_eq_some.mpr ⟨hf, hn⟩] at hl
          cases hl
        simp [yielded, hpc, hn]
      · simp [yielded, hpc]

theorem Sound.yield (hs : h.Sound) (c : CellId) : (h.yield c).Sound := by
  obtain ⟨objects, ho, -, he⟩ := yield_spec hs.objects c
  rw [he]
  exact ⟨ho, hs.roots⟩

/-- Other cells do not notice. -/
theorem last?_yield_of_ne (hs : h.objects.Sound) (hd : d ≠ c) :
    (h.yield c).last? d = h.last? d := by
  obtain ⟨objects, ho, ht, he⟩ := yield_spec hs c
  have hfind : (h.yield c).find? d = h.find? d := by
    rw [he]
    refine hs.find?_congr ho fun a => ?_
    rw [ht, List.mem_filterMap]
    constructor
    · rintro ⟨p, hp, hy⟩
      by_cases hpc : p.1 = c
      · rw [yielded, if_pos hpc] at hy
        split at hy
        · cases hy
        · rw [Option.some.injEq, Prod.mk.injEq] at hy
          exact absurd (hy.1.symm.trans hpc) hd
      · rw [yielded_of_ne hpc, Option.some.injEq] at hy
        exact hy ▸ hp
    · exact fun hp => ⟨(d, a), hp, yielded_of_ne hd⟩
  rw [last?, hfind, last?]

theorem yield_comm (hs : h.objects.Sound) (hcd : c ≠ d) :
    (h.yield c).yield d = (h.yield d).yield c := by
  have hlast := last?_yield_of_ne hs (Ne.symm hcd)
  have hlast' := last?_yield_of_ne hs hcd
  obtain ⟨oc, hoc, htc, hec⟩ := yield_spec hs c
  obtain ⟨od, hod, htd, hed⟩ := yield_spec hs d
  obtain ⟨ocd, hocd, htcd, hecd⟩ := yield_spec (h := h.yield c) (by rw [hec]; exact hoc) d
  obtain ⟨odc, hodc, htdc, hedc⟩ := yield_spec (h := h.yield d) (by rw [hed]; exact hod) c
  have hobjects : ocd = odc := by
    refine hocd.ext hodc ?_
    rw [htcd, htdc, hec, hed]
    dsimp only
    rw [htc, htd, List.filterMap_filterMap, List.filterMap_filterMap]
    exact List.filterMap_congr fun p _ => yielded_comm hcd p
  rw [hecd, hedc, hlast, hlast', hec, hed, hobjects]
  simp only [Nat.add_right_comm]

end Yield

section Strike

/-- What `strike` does to the root list. -/
theorem strike_spec (hs : h.roots.Sound) (r : Root) :
    ∃ roots, roots.Sound ∧ roots.toList = h.roots.toList.filter (fun p => p ≠ r.entry) ∧
      h.strike r = { h with roots } := by
  by_cases hf : h.roots.find? r.ticket = some r.cell
  · have hm := hs.find?_eq_some_iff.mp hf
    obtain ⟨roots, hr, hs', ht⟩ := hs.remove hm
    refine ⟨roots, hs', ?_, by rw [strike, if_pos hf, unroot, hr]⟩
    rw [ht]
    refine List.filter_congr fun p hp => ?_
    have hiff : p.1 = r.ticket ↔ p = r.entry := by
      constructor
      · intro hk
        exact Prod.ext hk (eq_of_mem_of_nodup hs.nodup (hk ▸ hp) hm)
      · rintro rfl
        rfl
    exact decide_eq_decide.mpr (not_congr hiff)
  · refine ⟨h.roots, hs, ?_, by rw [strike, if_neg hf]⟩
    refine (List.filter_eq_self.mpr fun p hp => ?_).symm
    rw [decide_eq_true_eq]
    rintro rfl
    exact hf (hs.find?_eq_some_iff.mpr hp)

theorem Sound.strike (hs : h.Sound) (r : Root) : (h.strike r).Sound := by
  obtain ⟨roots, hr, -, he⟩ := strike_spec hs.roots r
  rw [he]
  exact ⟨hs.objects, hr⟩

theorem strike_comm (hs : h.roots.Sound) (r s : Root) :
    (h.strike r).strike s = (h.strike s).strike r := by
  obtain ⟨x, hx, htx, hex⟩ := strike_spec hs r
  obtain ⟨y, hy, hty, hey⟩ := strike_spec hs s
  obtain ⟨xy, hxy, htxy, hexy⟩ := strike_spec (h := h.strike r) (by rw [hex]; exact hx) s
  obtain ⟨yx, hyx, htyx, heyx⟩ := strike_spec (h := h.strike s) (by rw [hey]; exact hy) r
  have hroots : xy = yx := by
    refine hxy.ext hyx ?_
    rw [htxy, htyx, hex, hey]
    dsimp only
    rw [htx, hty, List.filter_filter, List.filter_filter]
    exact List.filter_congr fun p _ => Bool.and_comm _ _
  rw [hexy, heyx, hex, hey, hroots]

end Strike

section Apart

variable (h : Heap) (c : CellId) (r : Root)

theorem yield_roots (roots : LinkedMap Ticket CellId) :
    { h with roots }.yield c = { h.yield c with roots } := by
  have hlast : { h with roots }.last? c = h.last? c := rfl
  simp only [yield, hlast]
  cases h.last? c with
  | none => rfl
  | some cell => cases h.objects.remove c <;> rfl

theorem strike_cells (objects : LinkedMap CellId Cell) (counters : Counters) :
    { h with objects, counters }.strike r = { h.strike r with objects, counters } := by
  simp only [strike, unroot]
  split
  · cases h.roots.remove r.ticket <;> rfl
  · rfl

theorem yield_strike (hs : h.Sound) : (h.yield c).strike r = (h.strike r).yield c := by
  obtain ⟨objects, -, -, hyield⟩ := yield_spec hs.objects c
  obtain ⟨roots, -, -, hstrike⟩ := strike_spec hs.roots r
  rw [hyield, strike_cells, hstrike, yield_roots, hyield]

theorem yield_unqueue : (h.yield c).unqueue = h.unqueue.yield c := by
  have hlast : h.unqueue.last? c = h.last? c := rfl
  simp only [yield, unqueue, hlast] at hlast ⊢
  cases h.last? c with
  | none => rfl
  | some cell => cases h.objects.remove c <;> rfl

theorem strike_unqueue : (h.strike r).unqueue = h.unqueue.strike r := by
  by_cases hf : h.roots.find? r.ticket = some r.cell
  · have hf' : h.unqueue.roots.find? r.ticket = some r.cell := hf
    rw [strike, strike, if_pos hf, if_pos hf']
    simp only [unroot, unqueue]
    cases h.roots.remove r.ticket <;> rfl
  · have hf' : ¬h.unqueue.roots.find? r.ticket = some r.cell := hf
    rw [strike, strike, if_neg hf, if_neg hf']

theorem Sound.unqueue (hs : h.Sound) : h.unqueue.Sound :=
  ⟨hs.objects, hs.roots⟩

end Apart

end Heap

end HybridHeap
