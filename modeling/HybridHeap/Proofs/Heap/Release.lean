import HybridHeap.Proofs.Heap.Census

/-!
Giving up references to counted cells. A release of references that are all counted
never fails a check, and leaves exactly the other references counted
(`Heap.Counted.release`). What it does apart from that is said by
`Reclamation.Thins`: cells go from the heap to the graveyard, and the counts of the
others fall.
-/

namespace HybridHeap

/-- A cell as it lies in the graveyard. -/
def grave (p : CellId × Cell) : Freed :=
  { cell := p.1, value := p.2.value.nulled }

/-- A cell without its count. -/
def uncounted (p : CellId × Cell) : CellId × Cell :=
  (p.1, { p.2 with count := 0 })

/-- Cells that are among others but for their counts have their values and marks. -/
theorem exists_of_uncounted {l l' : List (CellId × Cell)}
    (h : l'.map uncounted ⊆ l.map uncounted) {p : CellId × Cell} (hp : p ∈ l') :
    ∃ cell, (p.1, cell) ∈ l ∧ cell.value = p.2.value ∧ cell.marked = p.2.marked := by
  obtain ⟨⟨c, cell⟩, hq, he⟩ := List.mem_map.mp (h (List.mem_map_of_mem hp))
  simp only [uncounted, Prod.mk.injEq, Cell.mk.injEq, true_and] at he
  obtain ⟨rfl, hmark, hvalue⟩ := he
  exact ⟨cell, hq, hvalue, hmark⟩

namespace Reclamation

/-- The cells on the heap and in the graveyard together, as they are once freed. -/
def population (r : Reclamation) : List Freed :=
  r.heap.cells.map grave ++ r.graveyard

/-- The cells freed since the start of the heap, by a count or by a sweep. -/
def freedCells (r : Reclamation) : Nat :=
  r.heap.counters.eagerFrees + r.heap.counters.swept

/-- `r'` differs from `r` in that cells have left the heap for the graveyard and that
counts have changed; the cells that stay keep their order, their values and their
marks. Cells that were swept are counted, and the threshold does not move while there is
room. -/
structure Thins (r r' : Reclamation) : Prop where
  config : r'.heap.config = r.heap.config
  roots : r'.heap.roots = r.heap.roots
  nextTicket : r'.heap.nextTicket = r.heap.nextTicket
  phase : r'.heap.phase = r.heap.phase
  faults : r'.heap.faults = r.heap.faults
  allocations : r'.heap.counters.allocations = r.heap.counters.allocations
  swept : r.heap.counters.swept ≤ r'.heap.counters.swept
  capacity : r.heap.Roomy → r'.heap.capacity = r.heap.capacity
  cells : (r'.heap.cells.map uncounted).Sublist (r.heap.cells.map uncounted)
  population : r'.population.Perm r.population
  freedCells : r'.freedCells + r.graveyard.length = r.freedCells + r'.graveyard.length

namespace Thins

variable {r r' r'' : Reclamation}

theorem refl (r : Reclamation) : Thins r r :=
  ⟨rfl, rfl, rfl, rfl, rfl, rfl, Nat.le_refl _, fun _ => rfl, .refl _, .refl _, rfl⟩

theorem length_le (h : Thins r r') : r'.heap.cells.length ≤ r.heap.cells.length := by
  have := h.cells.length_le
  rwa [List.length_map, List.length_map] at this

theorem roomy (h : Thins r r') (hr : r.heap.Roomy) : r'.heap.Roomy := by
  have hle := h.length_le
  rw [Heap.Roomy, h.capacity hr]
  rw [Heap.Roomy] at hr
  omega

theorem trans (h : Thins r r') (h' : Thins r' r'') : Thins r r'' where
  config := h'.config.trans h.config
  roots := h'.roots.trans h.roots
  nextTicket := h'.nextTicket.trans h.nextTicket
  phase := h'.phase.trans h.phase
  faults := h'.faults.trans h.faults
  allocations := h'.allocations.trans h.allocations
  swept := Nat.le_trans h.swept h'.swept
  capacity hr := (h'.capacity (h.roomy hr)).trans (h.capacity hr)
  cells := h'.cells.trans h.cells
  population := h'.population.trans h.population
  freedCells := by
    have h₁ := h.freedCells
    have h₂ := h'.freedCells
    omega

/-- A cell that is still on the heap was there before, with the same value. -/
theorem find?_of_find? (h : Thins r r') {held held' : List CellId}
    (hc : r.heap.Counted held) (hc' : r'.heap.Counted held') {c : CellId} {cell : Cell}
    (hf : r'.heap.find? c = some cell) :
    ∃ old, r.heap.find? c = some old ∧ old.value = cell.value ∧ old.marked = cell.marked := by
  obtain ⟨old, hold, he⟩ := exists_of_uncounted h.cells.subset (hc'.find?_eq_some_iff.mp hf)
  exact ⟨old, hc.find?_eq_some_iff.mpr hold, he⟩

theorem map_fst_sublist (h : Thins r r') :
    (r'.heap.cells.map Prod.fst).Sublist (r.heap.cells.map Prod.fst) := by
  have := h.cells.map Prod.fst
  rw [List.map_map, List.map_map] at this
  exact this

end Thins

theorem bury_eq {r : Reclamation} {held : List CellId} (hc : r.heap.Counted held) {c : CellId}
    {cell : Cell} (hf : r.heap.find? c = some cell) :
    ∃ objects, objects.Sound ∧ objects.toList = (r.heap.cells.filter fun p => p.1 ≠ c) ∧
      r.bury c cell = .ok { r with
        heap := { r.heap with objects }, graveyard := grave (c, cell) :: r.graveyard } := by
  obtain ⟨objects, hr, hs, hl⟩ := hc.sound.remove (hc.find?_eq_some_iff.mp hf)
  exact ⟨objects, hs, hl, by simp only [bury, hr]; rfl⟩

/-- The step of a release that frees a cell. -/
theorem thins_free {r : Reclamation} {held : List CellId} (hc : r.heap.Counted held)
    {c : CellId} {cell : Cell} (hf : r.heap.find? c = some cell)
    {objects : LinkedMap CellId Cell}
    (hl : objects.toList = r.heap.cells.filter fun p => p.1 ≠ c) :
    Thins r
      { r with
        heap := { r.heap with
          objects,
          counters := { r.heap.counters with eagerFrees := r.heap.counters.eagerFrees + 1 } },
        graveyard := grave (c, cell) :: r.graveyard,
        events := .freed c :: r.events } where
  config := rfl
  roots := rfl
  nextTicket := rfl
  phase := rfl
  faults := rfl
  allocations := rfl
  swept := Nat.le_refl _
  capacity _ := rfl
  cells := by
    show (objects.toList.map uncounted).Sublist _
    rw [hl]
    exact List.filter_sublist.map _
  population := by
    have hp := perm_cons_filter hc.sound.nodup (hc.find?_eq_some_iff.mp hf)
    show (objects.toList.map grave ++ grave (c, cell) :: r.graveyard).Perm _
    rw [hl]
    exact List.perm_middle.trans ((hp.map grave).symm.append_right _)
  freedCells := by
    simp only [Reclamation.freedCells, List.length_cons]
    omega

/-- The step of a release that lowers a count. -/
theorem thins_modifyCell {r : Reclamation} (hs : r.heap.objects.Sound) (c : CellId)
    {f : Cell → Cell} (hf : ∀ cell, (f cell).value = cell.value ∧ (f cell).marked = cell.marked) :
    Thins r (r.map (·.modifyCell c f)) where
  config := rfl
  roots := rfl
  nextTicket := rfl
  phase := rfl
  faults := rfl
  allocations := rfl
  swept := Nat.le_refl _
  capacity _ := rfl
  cells := by
    show ((r.heap.modifyCell c f).cells.map uncounted).Sublist _
    have he : (r.heap.modifyCell c f).cells.map uncounted = r.heap.cells.map uncounted := by
      rw [Heap.cells_modifyCell hs, List.map_map]
      apply List.map_congr_left
      intro p _
      simp only [Function.comp_apply, uncounted]
      split
      · rw [(hf p.2).1, (hf p.2).2]
      · rfl
    exact he ▸ .refl _
  population := by
    show ((r.heap.modifyCell c f).cells.map grave ++ r.graveyard).Perm _
    rw [Heap.cells_modifyCell hs, List.map_map]
    refine List.Perm.append_right _ (List.Perm.of_eq (List.map_congr_left fun p _ => ?_))
    simp only [Function.comp_apply, grave]
    split
    · rw [(hf p.2).1]
    · rfl
  freedCells := rfl

@[simp] theorem deferred_release (r : Reclamation) (work : List CellId) :
    (r.release work).heap.deferred = r.heap.deferred := by
  fun_induction release r work with
  | case1 => rfl
  | case2 r c work _ ih => exact ih
  | case3 r c work cell _ _ ih => exact ih
  | case4 r c work cell _ _ f _ ih => exact ih
  | case5 r c work cell _ _ buried h freed ih =>
      rw [ih]
      unfold bury at h
      split at h
      · cases h
        rfl
      · cases h
  | case6 r c work cell _ n _ ih => exact ih

section Equations

variable {r : Reclamation} {c : CellId} {cell : Cell} (work : List CellId)

theorem release_absent (hf : r.heap.find? c = none) :
    r.release (c :: work) = (r.map (·.fault (.absentCell c))).release work := by
  rw [release]
  split
  · rfl
  · simp_all

theorem release_underflow (hf : r.heap.find? c = some cell) (hn : cell.count = 0) :
    r.release (c :: work) = (r.map (·.fault (.countUnderflow c))).release work := by
  rw [release]
  simp only [hf, hn]

theorem release_unlinked (hf : r.heap.find? c = some cell) (hn : cell.count = 1) {f : LinkFault}
    (hb : r.bury c cell = .error f) :
    r.release (c :: work) = (r.map (·.fault (.link f))).release work := by
  rw [release]
  simp only [hf, hn]
  split
  · simp_all
  · simp_all

theorem release_freed (hf : r.heap.find? c = some cell) (hn : cell.count = 1)
    {buried : Reclamation} (hb : r.bury c cell = .ok buried) :
    r.release (c :: work) = ((buried.map fun h =>
      { h with counters := { h.counters with eagerFrees := h.counters.eagerFrees + 1 } }).report
        (.freed c)).release (cell.value.targets.reverse ++ work) := by
  rw [release]
  simp only [hf, hn]
  split
  · simp_all
  · simp_all

theorem release_lowered (hf : r.heap.find? c = some cell) {n : Nat} (hn : cell.count = n + 2) :
    r.release (c :: work) =
      (r.map (·.modifyCell c fun cell => { cell with count := n + 1 })).release work := by
  rw [release]
  simp only [hf, hn]

end Equations

end Reclamation

/-- Counted references can be given up: no check fails, and all other references
stay counted. -/
theorem Heap.Counted.release {r : Reclamation} {work held : List CellId}
    (hc : r.heap.Counted (work ++ held)) :
    (r.release work).heap.Counted held ∧ r.Thins (r.release work) := by
  -- what is still to be given up counts as held, so every step finds its cell alive
  fun_induction Reclamation.release r work with
  | case1 r => exact ⟨hc, .refl r⟩
  | case2 r c work hf ih =>
      obtain ⟨cell, hcell⟩ := hc.live_of_mem List.mem_cons_self
      simp [hf] at hcell
  | case3 r c work cell hf hn ih =>
      have := hc.positive c cell hf
      omega
  | case4 r c work cell hf hn f hb ih =>
      obtain ⟨objects, -, -, he⟩ := r.bury_eq hc hf
      rw [he] at hb
      cases hb
  | case5 r c work cell hf hn buried hb freed ih =>
      obtain ⟨objects, hs, hl, he⟩ := r.bury_eq hc hf
      rw [he] at hb
      cases hb
      have hfree := hc.free hf hn hs hl
      have hperm : (cell.value.targets ++ (work ++ held)).Perm
          ((cell.value.targets.reverse ++ work) ++ held) := by
        rw [List.append_assoc]
        exact (List.reverse_perm _).symm.append_right _
      obtain ⟨hcount, hthin⟩ := ih ((hfree.perm hperm).congr rfl)
      exact ⟨hcount, (Reclamation.thins_free hc hf hl).trans hthin⟩
  | case6 r c work cell hf n hn ih =>
      obtain ⟨hcount, hthin⟩ := ih (hc.lower hf hn)
      have hstep := Reclamation.thins_modifyCell hc.sound c
        (f := fun cell => { cell with count := n + 1 }) fun _ => ⟨rfl, rfl⟩
      exact ⟨hcount, hstep.trans hthin⟩

namespace Reclamation

theorem counted_releaseEach {r : Reclamation} {cells held : List CellId}
    (hc : r.heap.Counted (cells ++ held)) :
    (r.releaseEach cells).heap.Counted held ∧ r.Thins (r.releaseEach cells) := by
  induction cells generalizing r with
  | nil => exact ⟨hc, .refl r⟩
  | cons c cells ih =>
      have hfirst : r.heap.Counted ([c] ++ (cells ++ held)) := hc
      obtain ⟨hcount, hthin⟩ := hfirst.release
      obtain ⟨hcount', hthin'⟩ := ih hcount
      exact ⟨hcount', hthin.trans hthin'⟩

@[simp] theorem deferred_releaseEach (r : Reclamation) (cells : List CellId) :
    (r.releaseEach cells).heap.deferred = r.heap.deferred := by
  induction cells generalizing r with
  | nil => rfl
  | cons c cells ih => exact (ih (r.release [c])).trans (deferred_release r [c])

@[simp] theorem deferred_drain (r : Reclamation) : r.drain.heap.deferred = [] := by
  simp [drain, map]

/-- With an empty queue there is nothing to drain. -/
theorem drain_of_deferred_nil {r : Reclamation} (h : r.heap.deferred = []) : r.drain = r := by
  obtain ⟨heap, graveyard, events⟩ := r
  obtain ⟨config, objects, roots, nextTicket, capacity, counters, phase, deferred, faults⟩ := heap
  subst h
  rfl

/-- Draining gives up what is queued. -/
theorem counted_drain {r : Reclamation} {held : List CellId}
    (hc : r.heap.Counted (r.heap.deferred ++ held)) :
    r.drain.heap.Counted held ∧ r.Thins r.drain := by
  have hc' : (r.map fun h => { h with deferred := [] }).heap.Counted (r.heap.deferred ++ held) :=
    hc.congr rfl
  have hempty : r.Thins (r.map fun h => { h with deferred := [] }) :=
    ⟨rfl, rfl, rfl, rfl, rfl, rfl, Nat.le_refl _, fun _ => rfl, .refl _, .refl _, rfl⟩
  obtain ⟨hcount, hthin⟩ := counted_releaseEach hc'
  exact ⟨hcount, hempty.trans hthin⟩

end Reclamation

end HybridHeap
