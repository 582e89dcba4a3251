import Mathlib.Data.List.Permutation
import HybridHeap.Proofs.Session.History
import HybridHeap.Proofs.World.Ledger

/-!
Cells are destroyed once. Over a run each cell that was placed is still there, was freed
by its count, or was swept, and only one of these; the counters of its heap say how many
of each there are. A cell that is gone is not on its heap, not among the roots, in no
slot and behind no handle, and it never will be.
-/

namespace HybridHeap

namespace World.Balanced

variable {w : World} {held : List Holding} {write : Option Writing}

/-- What is owned is alive, also the cell that is being written. -/
theorem live_of_counted (hb : w.Balanced held write) {r : Root}
    (hr : r ∈ countedRoots (heldRoots held ++ w.bound) write) : w.Live r.cell := by
  rcases List.mem_append.mp hr with hr | hr
  · exact hb.live_of_mem hr
  · obtain ⟨wr, hw, rfl⟩ := List.mem_map.mp hr
    obtain ⟨h, hi⟩ := hb.home wr.root (List.mem_append_right _ (List.mem_map_of_mem hw))
    have hheap := hb.heap _ h hi
    rw [Option.mem_toList.mp hw, writeIn_self] at hheap
    obtain ⟨cell, hf, -⟩ := hheap.listed.written wr rfl
    exact ⟨h, hi, cell, hf⟩

theorem live_of_root (hb : w.Balanced held write) {i : HeapId} {h : Heap}
    (hi : w.heap? i = some h) {c : CellId} (hc : c ∈ h.rootTargets) : h.Live c := by
  have hheap := hb.heap i h hi
  rcases hheap.listed.rooted.held_or_slot c hc with hm | ⟨a, -, cell, hf, ht⟩
  · exact hheap.counted.live_of_mem (List.mem_append_left _ hm)
  · exact hheap.counted.live_of_target hf ht

end World.Balanced

/-- A cell that no heap, no root list, no slot and nothing that owns a root knows of. -/
structure World.Absent (w : World) (owned : List Root) (c : CellId) : Prop where
  objects : ∀ i, c ∉ w.idsOf i
  roots : ∀ i h, w.heap? i = some h → c ∉ h.rootTargets
  slots : some c ∉ w.slots
  owned : ∀ r ∈ owned, r.cell ≠ c

/-- Nothing refers to a cell that is not alive. -/
theorem World.Balanced.absent {w : World} {held : List Holding} {write : Option Writing}
    (hb : w.Balanced held write) {c : CellId} (hc : ¬w.Live c) :
    w.Absent (countedRoots (heldRoots held ++ w.bound) write) c := by
  have hlive : ∀ i h, w.heap? i = some h → ¬h.Live c := by
    intro i h hi hl
    obtain ⟨rfl, -⟩ := hb.cells i h hi c hl
    exact hc ⟨h, hi, hl⟩
  constructor
  · intro i hm
    cases hi : w.heap? i with
    | none => simp [World.idsOf, hi] at hm
    | some h => exact hlive i h hi ((World.mem_idsOf hb hi).mp hm)
  · exact fun i h hi hm => hlive i h hi (hb.live_of_root hi hm)
  · intro hm
    obtain ⟨h, cell, hi, hf, -⟩ := hb.referred_of_slot hm
    exact hc ⟨h, hi, cell, hf⟩
  · rintro r hr rfl
    exact hc (hb.live_of_counted hr)

/-- The ledger of a heap at a moment of a run: each cell that was placed is on the heap,
was freed by its count or was swept, once in all; the counters say how many there are of
each; and nothing refers to what is gone. -/
structure Ledger.Exact (l : Ledger) (i : HeapId) (m : Moment) : Prop where
  once : (m.world.idsOf i ++ (l.counted ++ l.swept)).Nodup
  placed : (m.world.idsOf i ++ (l.counted ++ l.swept)).Perm l.placed
  counters : (m.world.countersOf i).allocations = l.placed.length ∧
    (m.world.countersOf i).eagerFrees = l.counted.length ∧
    (m.world.countersOf i).swept = l.swept.length
  gone : ∀ c ∈ l.counted ++ l.swept,
    m.world.Absent (countedRoots (heldRoots m.held ++ m.world.bound) m.write) c

theorem Moment.Run.exact {i : HeapId} {m : Moment} {l : Ledger} (hr : Moment.Run i m l) :
    l.Exact i m where
  once := hr.settled.nodup
  placed := hr.settled.conserved
  counters := ⟨hr.settled.allocations, hr.settled.eagerFrees, hr.settled.swept⟩
  gone c hc := by
    have hb := hr.reachable.balanced
    refine hb.absent ?_
    rintro ⟨h, hi, hl⟩
    obtain ⟨hheap, -⟩ := hr.settled.issued c
      (hr.settled.conserved.mem_iff.mp (List.mem_append_right _ hc))
    subst hheap
    exact hr.settled.not_mem_gone ((World.mem_idsOf hb hi).mpr hl) hc

namespace Session

variable {s : Session}

/-- The counters of a heap say what became of all its cells. -/
theorem Reachable.conserved (hs : s.Reachable) {i : HeapId} {h : Heap}
    (hi : s.world.heap? i = some h) :
    h.counters.allocations = h.objects.length + h.counters.eagerFrees + h.counters.swept := by
  obtain ⟨l, hl⟩ := hs.moment.run i
  have hset := hl.settled
  have hlength := hset.conserved.length_eq
  have hobjects := (hs.moment.balanced.heap i h hi).counted.sound.length_eq
  have hallocations := hset.allocations
  have heager := hset.eagerFrees
  have hswept := hset.swept
  simp only [World.idsOf_of_heap? hi, World.countersOf_of_heap? hi, Ledger.gone, Heap.cells,
    List.length_append, List.length_map] at hlength hallocations heager hswept
  omega

/-- A cell that is gone is gone for the rest of the script. -/
theorem Reachable.absent (hs : s.Reachable) {c : CellId} (hc : c.number < s.world.nextCell)
    (hl : ¬s.world.Live c) {s' : Session} (hlater : s.Leads s') : s'.world.Absent s'.owners c := by
  have hgone : ¬s'.world.Live c := by
    rintro ⟨h', hi', hlive⟩
    refine hlater.precedes.not_live hc (fun h hi hl' => hl ⟨h, hi, hl'⟩) hi' hlive
  have hb := (hlater.reachable hs).moment.balanced
  have habsent := World.Balanced.absent hb hgone
  rw [countedRoots_none] at habsent
  exact ⟨habsent.objects, habsent.roots, habsent.slots, fun r hr =>
    habsent.owned r (s'.owners_perm.mem_iff.mpr hr)⟩

/-- What becomes of the cells of a heap in a script: the counters account for all of them;
a run leads here, and at no moment has any run destroyed a cell twice, be it by its count
or by a sweep; and a cell that is gone is never heard of again. -/
structure DestroysOnce (s : Session) (i : HeapId) (h : Heap) : Prop where
  conserved : h.counters.allocations =
    h.objects.length + h.counters.eagerFrees + h.counters.swept
  recorded : ∃ l, Moment.Run i ⟨s.world, s.holdings, none⟩ l
  exact : ∀ m l, Moment.Run i m l → l.Exact i m
  forever : ∀ c : CellId, c.heap = i → c.number < s.world.nextCell → ¬h.Live c →
    ∀ s', s.Leads s' → s'.world.Absent s'.owners c

theorem destroys_once (hs : s.Reachable) {i : HeapId} {h : Heap}
    (hi : s.world.heap? i = some h) : s.DestroysOnce i h where
  conserved := hs.conserved hi
  recorded := hs.moment.run i
  exact _ _ hl := hl.exact
  forever _ hc hn hl _ hlater := hs.absent hn (fun hlive => hl (hlive.on_heap hc hi)) hlater

/-- A pair is kept. Another one refers to it and to itself, and a chain of two ends at it too;
nothing else refers to these, and in the end the heap is collected. -/
def cleared : Session :=
  let ops : List Op :=
    [.allocate (.pair .null .null) false (some "kept"),
      .allocate (.pair .null (.copy "kept")) false (some "loop"),
      .write "loop" .first "loop",
      .drop "loop",
      .allocate (.pair .null (.copy "kept")) false (some "a"),
      .allocate (.pair (.move "a") .null) false (some "b"),
      .drop "b",
      .collect false]
  ops.foldl (fun s op => (s.performOp 1 op).1) (new [])

/-- The chain is freed by its counts, the pair that refers to itself is swept, and one cell is
left of four. -/
theorem destroys_once_cleared :
    ∃ h, cleared.world.heap? 1 = some h ∧
      h.cells.map (fun p => (p.1.number, p.2.count)) = [(0, 1)] ∧
      h.counters = { allocations := 4, eagerFrees := 2, collections := 1, swept := 1 } ∧
      cleared.DestroysOnce 1 h := by
  have hdone : (cleared.world.heap? 1).map
      (fun h => (h.cells.map fun p => (p.1.number, p.2.count), h.counters)) =
        some ([(0, 1)], { allocations := 4, eagerFrees := 2, collections := 1, swept := 1 }) := by
    cbv
  obtain ⟨h, hi, he⟩ := Option.map_eq_some_iff.mp hdone
  rw [Prod.mk.injEq] at he
  exact ⟨h, hi, he.1, he.2, destroys_once (.foldl (.new _ _) 1 _) hi⟩

end Session

end HybridHeap
