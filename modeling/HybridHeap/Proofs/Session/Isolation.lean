import HybridHeap.Proofs.Session.Accounts
import HybridHeap.Proofs.Session.Checks
import HybridHeap.Proofs.Session.Moves
import HybridHeap.Proofs.World.Aging

/-!
Heaps are isolated. At every moment of a run each heap is closed: its slots and its root list
refer to live cells of its own. Between operations no check has failed, so a heap that is not
worked on and has no new ticket can only have lost entries; and if every handle to its cells
is still there, it has not lost any.
-/

namespace HybridHeap

namespace World

/-- Every heap is closed: its cells, what their slots refer to and what its root list
targets are live cells of that heap. -/
structure Closed (w : World) : Prop where
  cells : ∀ i h, w.heap? i = some h → ∀ c, h.Live c → c.heap = i
  slots : ∀ i h, w.heap? i = some h → ∀ c cell, h.find? c = some cell →
    ∀ d, some d ∈ cell.value.children → d.heap = i ∧ h.Live d
  entries : ∀ i h, w.heap? i = some h → ∀ p ∈ h.roots.toList, p.2.heap = i ∧ h.Live p.2

/-- In the middle of a write too: what is listed but not owned is in a slot of the cell that
is written. -/
theorem Balanced.closed {w : World} {held : List Holding} {write : Option Writing}
    (hb : w.Balanced held write) : w.Closed where
  cells i h hi c hl := (hb.cells i h hi c hl).1
  slots i h hi c cell hf d hd := by
    have hl : h.Live d := (hb.heap i h hi).counted.live_of_target hf
      (List.mem_filterMap.mpr ⟨some d, hd, rfl⟩)
    exact ⟨(hb.cells i h hi d hl).1, hl⟩
  entries i h hi p hp := by
    have hheap := hb.heap i h hi
    have hl : h.Live p.2 := by
      rcases hheap.listed.rooted.2 p.2 (List.mem_map_of_mem hp) with hm | ⟨c, hm, cell, hf, hd⟩
      · exact hheap.counted.live_of_mem (List.mem_append_left _ hm)
      · exact hheap.counted.live_of_target hf hd
    exact ⟨(hb.cells i h hi p.2 hl).1, hl⟩

end World

namespace Session

/-- What spares the heap `j` between two sessions: no ticket is issued, so that no reference
to a cell of it is made or copied, and every handle that there was to one of its cells, in a
register, in a binding or in a value kept off the heaps, is still there. -/
structure Spares (j : HeapId) (s s' : Session) : Prop where
  uncopied : (s'.world.heap? j).map Heap.issued = (s.world.heap? j).map Heap.issued
  kept : rootsIn j s.owners ⊆ rootsIn j s'.owners

/-- What isolates heaps from each other: they are closed at every moment, and what an
operation does not work on and spares is exactly as it was. -/
structure Isolated (s : Session) : Prop where
  moment : Moment.Reachable ⟨s.world, s.holdings, none⟩
  closed : ∀ m, Moment.Reachable m → m.world.Closed
  untouched : ∀ (i : HeapId) (op : Op) (j : HeapId), ¬op.Works s i j →
    Spares j s (s.performOp i op).1 → (s.performOp i op).1.world.heap? j = s.world.heap? j

variable {s s' : Session} {j : HeapId} {h h' : Heap}

theorem Reachable.roots_perm (hs : s.Reachable) (hj : s.world.heap? j = some h) :
    h.roots.toList.Perm ((rootsIn j s.owners).map Root.entry) :=
  ((accounts_exact hs).roots j h hj).1

/-- There are as many entries as handles. -/
theorem Reachable.length_roots (hs : s.Reachable) (hj : s.world.heap? j = some h) :
    h.roots.length = (rootsIn j s.owners).length := by
  have hlisted := (World.Balanced.heap hs.moment.balanced j h hj).listed
  have hlength := (hs.roots_perm hj).length_eq
  rwa [List.length_map, ← hlisted.sound.length_eq] at hlength

/-- No two handles are the same root. -/
theorem Reachable.nodup_owners (hs : s.Reachable) (hj : s.world.heap? j = some h) :
    (rootsIn j s.owners).Nodup := by
  have hnodup := ((hs.roots_perm hj).map Prod.fst).nodup_iff.mp
    ((accounts_exact hs).roots j h hj).2
  rw [List.map_map] at hnodup
  exact hnodup.of_map _

/-- A heap that is spared has not aged. -/
theorem Spares.not_ages (hs : s.Reachable) (hs' : s'.Reachable) (hp : Spares j s s')
    (hj : s.world.heap? j = some h) (hj' : s'.world.heap? j = some h') : ¬h.Ages h' := by
  have hissued : h'.issued = h.issued := by
    have := hp.uncopied
    rwa [hj, hj', Option.map_some, Option.map_some, Option.some.injEq] at this
  have hfaults : h.faults = [] := hs.moment.balanced.checked.faultless j h hj
  have hfaults' : h'.faults = [] := hs'.moment.balanced.checked.faultless j h' hj'
  have hroots : h.roots.length ≤ h'.roots.length := by
    rw [hs.length_roots hj, hs'.length_roots hj']
    exact (List.subperm_of_subset (hs.nodup_owners hj) hp.kept).length_le
  unfold Heap.Ages
  rw [hfaults, hfaults']
  omega

/-- The heaps of every session that a script can reach are isolated. -/
theorem isolated (hs : s.Reachable) : s.Isolated where
  moment := hs.moment
  closed _ hm := World.Balanced.closed hm.balanced
  untouched i op j hw hp := by
    have hmoves : s.Moves { works := op.Works s i, collects := op.Works s i }
        (s.performOp i op).1 := s.moves_performOp i (fun _ h => h) fun _ h => h.works
    have hrests := World.Moves.rests hmoves hw hw
    have hnot : ∀ h h', s.world.heap? j = some h →
        (s.performOp i op).1.world.heap? j = some h' → ¬h.Ages h' :=
      fun _ _ => hp.not_ages hs (hs.op i op)
    generalize (s.performOp i op).1.world.heap? j = a at hrests hnot ⊢
    generalize s.world.heap? j = b at hrests hnot ⊢
    cases hrests with
    | none => rfl
    | some hr =>
        rcases hr with rfl | ha
        · rfl
        · exact absurd ha (hnot _ _ rfl rfl)

/-- Two heaps, each with garbage that only a collection finds, and a pair on the second heap
that is in a register. -/
def neighbours : Session :=
  let garbage (i : HeapId) : List (HeapId × Op) :=
    [(i, .allocate (.pair .null .null) false (some "a")), (i, .write "a" .first "a"),
      (i, .drop "a")]
  let ops := garbage 1 ++ garbage 2 ++ [(2, .allocate (.pair .null .null) false (some "b"))]
  ops.foldl (fun s p => (s.performOp p.1 p.2).1) (.new [.own {}, .own {}])

/-- A collection of the first heap frees its garbage and leaves the second heap alone. -/
theorem isolated_neighbours :
    let collected := (neighbours.performOp 1 (.collect false)).1
    (neighbours.world.heap? 1).map (·.objects.length) = some 1 ∧
      (collected.world.heap? 1).map (·.objects.length) = some 0 ∧
      collected.world.heap? 2 = neighbours.world.heap? 2 ∧ neighbours.Isolated := by
  have hs : neighbours.Reachable :=
    .op (.op (.op (.op (.op (.op (.op (.new _ _) 1 _) 1 _) 1 _) 2 _) 2 _) 2 _) 2 _
  have hkept : rootsIn 2 (neighbours.performOp 1 (.collect false)).1.owners =
      rootsIn 2 neighbours.owners := by
    cbv
  refine ⟨by cbv, by cbv, ?_, isolated hs⟩
  exact (isolated hs).untouched 1 (.collect false) 2 (by simp [Op.Works])
    ⟨by cbv, fun _ hr => hkept ▸ hr⟩

end Session

end HybridHeap
