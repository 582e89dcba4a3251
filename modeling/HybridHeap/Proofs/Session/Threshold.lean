import Mathlib.Data.List.Permutation
import HybridHeap.Proofs.Session.Reachable
import HybridHeap.Proofs.World.Acts

/-!
The threshold bounds the heaps of a script. A heap whose allocations check it is within it
at every moment, however much of the heap is live. A heap whose drops check it is within it
right after the drop of every root, whoever drops the root and in the middle of whatever.
-/

namespace HybridHeap

namespace World

variable {w w' : World}

/-- `w.Drops chores r w'` says that, while the chores are done with everything that follows
from them, the root `r` is dropped, and that `w'` is the world right after that, before
anything that the drop gives rise to. -/
inductive Drops : World → List Chore → Root → World → Prop
  | here (w : World) (r : Root) (rest : List Chore) :
      Drops w (.dropRoot r :: rest) r (w.doChore (.dropRoot r)).1
  | later {w w' : World} {c : Chore} {rest : List Chore} {r : Root}
      (hd : Drops (w.doChore c).1 ((w.doChore c).2 ++ rest) r w') : Drops w (c :: rest) r w'

namespace Drops

variable {chores : List Chore} {r : Root}

theorem turn (hd : w.Drops chores r w') : HeapsTurn Heap.Changes w w' := by
  induction hd with
  | here w r rest => exact w.turn_doChore _
  | @later w w' c rest r _ ih => exact (w.turn_doChore c).trans Heap.Changes.trans ih

theorem turn_settle (hd : w.Drops chores r w') :
    HeapsTurn Heap.Changes w' (w.settle chores) := by
  induction hd with
  | here w r rest =>
      rw [settle]
      exact World.turn_settle _ _
  | later _ ih =>
      rw [settle]
      exact ih

/-- Right after the drop the heap of the root is within its threshold. -/
theorem within (hd : w.Drops chores r w') {h' : Heap} (hi : w'.heap? r.cell.heap = some h')
    (ht : h'.config.collectOnRelease = true) : h'.Within := by
  induction hd with
  | here w r rest =>
      obtain ⟨h, hbefore, hchanges⟩ := (w.turn_doChore (.dropRoot r)).exists_of_some_right hi
      have hafter : (w.doChore (.dropRoot r)).1.heap? r.cell.heap = some (h.dropRoot r).heap := by
        simp only [doChore, reclaim, hbefore, commit]
        exact heap?_setHeap_self hbefore _
      rw [hafter, Option.some.injEq] at hi
      subst hi
      exact Heap.within_dropRoot (hchanges.eases.config ▸ ht) r
  | later _ ih => exact ih hi

end Drops

end World

namespace Moment

/-- Whatever happens to a world, its heaps heed their thresholds. -/
theorem Step.heeds {m m' : Moment} (hs : Step m m') : World.HeapsTurn Heap.Heeds m.world m'.world :=
  hs.goes.imp Heap.Goes.heeds

/-- A heap whose allocations check the threshold is within it at every moment. -/
theorem Reachable.within {m : Moment} (hm : m.Reachable) {i : HeapId} {h : Heap}
    (hi : m.world.heap? i = some h) (ht : h.config.collectOnAllocate = true) : h.Within := by
  induction hm generalizing h with
  | start configs dropOrder =>
      simp only [World.heap?, World.new, Array.getElem?_map, Option.map_eq_some_iff] at hi
      obtain ⟨config, -, rfl⟩ := hi
      exact Nat.zero_le _
  | step _ hs ih =>
      obtain ⟨h₀, hbefore, hheeds⟩ := hs.heeds.exists_of_some_right hi
      have ht₀ : h₀.config.collectOnAllocate = true := hheeds.config ▸ ht
      exact hheeds.within ht₀ (ih hbefore ht₀)

end Moment

namespace Session

variable {s : Session}

/-- The threshold bounds the heaps. Where allocations check it, a heap is within it between
operations and at every moment in the course of one. Where drops check it, the heap of a
root is within it right after every drop of the root, and again when everything that
follows from the drop is done; this holds in every world and for every list of chores, so
for whatever an operation drops, also when it fails, and for what environments drop when
they are destroyed. -/
structure ThresholdBounds (s : Session) : Prop where
  between : ∀ i h, s.world.heap? i = some h → h.config.collectOnAllocate = true → h.Within
  always : ∀ m : Moment, m.Reachable → ∀ i h, m.world.heap? i = some h →
    h.config.collectOnAllocate = true → h.Within
  dropped : ∀ (w w' : World) (chores : List Chore) (r : Root) (h : Heap),
    w.heap? r.cell.heap = some h → h.config.collectOnRelease = true → w.Drops chores r w' →
    ∃ h', w'.heap? r.cell.heap = some h' ∧ h'.Within
  settled : ∀ (w w' : World) (chores : List Chore) (r : Root) (h : Heap),
    w.heap? r.cell.heap = some h → h.config.collectOnRelease = true → w.Drops chores r w' →
    ∃ h', (w.settle chores).heap? r.cell.heap = some h' ∧ h'.Within

theorem threshold_bounds (hs : s.Reachable) : s.ThresholdBounds := by
  have hdropped : ∀ (w w' : World) (chores : List Chore) (r : Root) (h : Heap),
      w.heap? r.cell.heap = some h → h.config.collectOnRelease = true → w.Drops chores r w' →
      ∃ h', w'.heap? r.cell.heap = some h' ∧ h'.Within := by
    intro w w' chores r h hi ht hd
    obtain ⟨h', hi', hchanges⟩ := hd.turn.exists_of_some hi
    exact ⟨h', hi', hd.within hi' (hchanges.eases.config ▸ ht)⟩
  constructor
  case between => exact fun i h hi ht => hs.moment.within hi ht
  case always => exact fun m hm i h hi ht => hm.within hi ht
  case dropped => exact hdropped
  case settled =>
    intro w w' chores r h hi ht hd
    obtain ⟨h', hi', hwithin⟩ := hdropped w w' chores r h hi ht hd
    obtain ⟨h'', hi'', hchanges⟩ := hd.turn_settle.exists_of_some hi'
    exact ⟨h'', hi'', hchanges.eases.within hwithin⟩

/-- A heap that starts without capacity, after two placements. -/
theorem threshold_bounds_empty :
    let s := (([.allocate (.scalar .null) false (some "a"),
      .allocate (.scalar .null) false (some "b")] : List Op).foldl
        (fun s op => (s.performOp 1 op).1) (new [.own { initialCapacity := 0 }]))
    (s.world.heap? 1).map Heap.stats =
      some { counters := { allocations := 2, collections := 2 }, liveObjects := 2, roots := 2,
             capacity := 3 } ∧ s.ThresholdBounds := by
  refine ⟨?_, threshold_bounds (.op (.op (.new _ _) 1 _) 1 _)⟩
  cbv

end Session

end HybridHeap
