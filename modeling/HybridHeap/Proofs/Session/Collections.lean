import Mathlib.Data.List.Permutation
import HybridHeap.Proofs.Session.Reachable
import HybridHeap.Proofs.World.Collections

/-!
Every collection of every run is exact, however it was started and wherever in the course of
an operation it takes place: what the roots reach stays, and what they do not reach goes.
-/

namespace HybridHeap

namespace Moment

/-- Every collection of every run is exact. -/
theorem collection_exact {m : Moment} {before after : Reclamation} (hm : m.Reachable)
    (hc : Collection m before after) : before.Exact after := by
  have hb := hm.balanced
  cases hc with
  | @requested w held i h hi =>
      obtain ⟨hdrain, hcollect, hready⟩ := (World.Balanced.heap hb i h hi).collectNow_eq
      rw [hdrain, hcollect]
      exact hready.exact_collect
  | @placed w held i h v c before hi ho hc hbefore ht hover =>
      subst hbefore
      have hlive : ¬h.Live c := hc ▸ World.Balanced.not_live_next hb hi
      obtain ⟨-, hplaced, -, -⟩ := (World.Balanced.heap_of_value hb hi ho).placeOnly hlive
      have hd : (h.placeOnly c v).2.start.heap.deferred = [] := hplaced.deferred rfl
      rw [Heap.place_eq, if_pos ht]
      rw [Reclamation.drain_of_deferred_nil hd] at hover ⊢
      have hready : (h.placeOnly c v).2.start.Collectable _ := hplaced.collectable hd
      exact hready.exact_collectIfOver hover
  | @dropped w held write r h before hi hbefore ht hover =>
      subst hbefore
      obtain ⟨hdropped, hd, -⟩ := (World.Balanced.heap_of_root hb hi).dropAnchor
      have hready := hdropped.collectable hd
      have hdrop : h.dropRoot r = (h.dropAnchor r).collectIfOver := if_pos ht
      rw [hdrop]
      exact hready.exact_collectIfOver hover

end Moment

namespace Session

/-- A pair in a register, and two pairs that refer to each other and to the first. No
register refers to these any more. -/
def knotted : Session :=
  let ops : List Op :=
    [.allocate (.pair .null .null) false (some "kept"),
      .allocate (.pair .null (.copy "kept")) false (some "g"),
      .allocate (.pair (.copy "g") (.copy "kept")) false (some "h"),
      .write "g" .first "h",
      .drop "g",
      .drop "h"]
  ops.foldl (fun s op => (s.performOp 1 op).1) (new [])

theorem knotted_reachable : knotted.Reachable :=
  .foldl (.new _ _) 1 _

end Session

namespace Moment

/-- The two pairs go, and the one that they refer to loses the two references. -/
theorem collection_exact_knotted :
    ∃ h, Session.knotted.world.heap? 1 = some h ∧
      h.cells.map (fun p => (p.1.number, p.2.count)) = [(2, 1), (1, 1), (0, 3)] ∧
      h.collectNow.heap.cells.map (fun p => (p.1.number, p.2.count)) = [(0, 1)] ∧
      h.collectNow.heap.counters = { allocations := 3, collections := 1, swept := 2 } ∧
      h.start.drain.Exact h.collectNow := by
  have hbefore : (Session.knotted.world.heap? 1).map
      (fun h => h.cells.map fun p => (p.1.number, p.2.count)) =
        some [(2, 1), (1, 1), (0, 3)] := by
    unfold Session.knotted
    cbv
  have hafter : (Session.knotted.world.heap? 1).map
      (fun h => (h.collectNow.heap.cells.map (fun p => (p.1.number, p.2.count)),
        h.collectNow.heap.counters)) =
        some ([(0, 1)], { allocations := 3, collections := 1, swept := 2 }) := by
    unfold Session.knotted
    cbv
  obtain ⟨h, hi, hcells⟩ := Option.map_eq_some_iff.mp hbefore
  rw [hi, Option.map_some, Option.some.injEq, Prod.mk.injEq] at hafter
  exact ⟨h, hi, hcells, hafter.1, hafter.2,
    collection_exact Session.knotted_reachable.moment (.requested hi)⟩

end Moment

end HybridHeap
