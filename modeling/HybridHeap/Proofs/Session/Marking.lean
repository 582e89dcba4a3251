import Mathlib.Data.List.Permutation
import HybridHeap.Proofs.Heap.Scan
import HybridHeap.Proofs.Session.Reachable

/-!
Marking visits the live graph once (`Heap.marking_visits_once`), whatever the graph and
the roots are. Between operations every heap of a script is in the state from which
marking starts.
-/

namespace HybridHeap

/-- Between operations no reference dangles, no mark is left over and the queue is empty. -/
theorem Session.Reachable.ready_to_mark {s : Session} (hs : s.Reachable) {i : HeapId} {h : Heap}
    (hi : s.world.heap? i = some h) : h.Closed ∧ h.Unmarked ∧ h.deferred = [] := by
  have hb := hs.moment.balanced.heap i h hi
  rw [writeIn_none] at hb
  have hready : h.start.Collectable _ := hb.collectable (hb.deferred rfl)
  exact ⟨hready.rooted.closed hready.counted, hready.unmarked, hready.deferred⟩

namespace Heap

/-- Marking visits the live graph once. No run of the loop takes more turns than are
reported, and the run that marking makes takes just as many; it ends with an empty stack,
having scanned every cell reached once. The marks are on the cells reached, nothing else
has changed, and no reference is left to be given up. -/
structure VisitedOnce (h : Heap) (m : Marking) : Prop where
  bounded : ∀ n seen s, Turns (h, h.rootStack) n seen s → n ≤ m.traced ∧ seen.Nodup
  run : ∃ scanned stack, Turns (h, h.rootStack) m.traced scanned (m.heap, stack) ∧
    stack.cells = [] ∧ stack.size = 0 ∧ scanned.Nodup ∧ ∀ c, c ∈ scanned ↔ h.Reached c
  marked : ∀ c, m.heap.isMarked c = true ↔ h.Reached c
  remarked : Remarked h m.heap
  pending : m.pending = []
  traced : m.traced = h.roots.toList.length +
    (h.reachedCells.map fun p => p.2.value.targets.length).sum
  reported : ∀ r : Reclamation, r.heap = h → ∃ before after swept capacity,
    r.collect.events.head? = some (.collected before after swept m.traced capacity)

theorem marking_visits_once {h : Heap} (hc : h.Closed) (hu : h.Unmarked)
    (hd : h.deferred = []) : h.VisitedOnce h.mark := by
  have htotal := traced_mark hc hu hd
  obtain ⟨n, scanned, hrun, hend, hseen⟩ := seen_scan hc hu
  have hscanning := hseen.scanning
  have hturns := hseen.turns
  rw [hend] at hscanning
  rw [hend, List.length_nil, Nat.add_zero] at hturns
  -- the phase of a collection that marks does not matter
  have hphase : { h with phase := .marking }.mark.traced = h.mark.traced := by
    have hclosed : { h with phase := .marking }.Closed := ⟨hc.sound, hc.roots, hc.slots⟩
    have hcells : { h with phase := .marking }.reachedCells = h.reachedCells :=
      reachedCells_congr rfl rfl
    rw [traced_mark hclosed hu hd, htotal, hcells]
  have hreported : ∀ r : Reclamation, r.heap = h → ∃ before after swept capacity,
      r.collect.events.head? = some (.collected before after swept h.mark.traced capacity) := by
    rintro r rfl
    rw [← hphase]
    exact ⟨_, _, _, _, rfl⟩
  rw [mark_eq_scan hc hu hd, hturns] at htotal hreported ⊢
  exact {
    bounded := by
      intro k seen s hts
      -- whatever turns were made, the loop can be run to its end from there
      obtain ⟨k', later, hts', hend'⟩ := turns_scan s.1 s.2
      have hmid := hts.seen hc (hc.seen_start hu)
      have hfull := (hts.append hts').seen hc (hc.seen_start hu)
      have hk := hfull.turns_eq hc hend'
      have hle : k ≤ n := by
        have := hseen.turns_eq hc hend
        omega
      exact ⟨hle, hmid.nodup⟩
    run := ⟨scanned, _, hrun, hend, hseen.sized.trans (by rw [hend]; rfl), hseen.nodup,
      fun c => by rw [← hseen.marked, hscanning.isMarked_iff]⟩
    marked := hscanning.isMarked_iff
    remarked := hscanning.remarked
    pending := rfl
    traced := htotal
    reported := hreported }

/-- A vector with an empty slot and a pair refer to each other, the vector also to itself,
and it is on the root list twice. -/
theorem marking_visits_once_knot :
    let s := (([.allocate (.vector [.null, .null, .null]) false (some "a"),
      .clone "a" (some "b"), .allocate (.pair (.copy "a") (.copy "a")) false (some "c"),
      .write "a" (.element 0) "a", .write "a" (.element 2) "c"] : List Op).foldl
        (fun s op => (s.performOp 1 op).1) (Session.new []))
    (s.world.heap? 1).map (fun h => h.mark.traced) = some 7 ∧
      ∀ h, s.world.heap? 1 = some h → h.VisitedOnce h.mark := by
  refine ⟨by cbv, fun h hi => ?_⟩
  obtain ⟨hc, hu, hd⟩ := Session.Reachable.ready_to_mark
    (.op (.op (.op (.op (.op (.new [] _) 1 _) 1 _) 1 _) 1 _) 1 _) hi
  exact marking_visits_once hc hu hd

end Heap

end HybridHeap
