import Mathlib.Algebra.Group.Nat.Defs
import HybridHeap.Proofs.Session.Destroyed
import HybridHeap.Proofs.Session.Refusals

/-!
The internal checks of the heaps hold. At every moment of every run, also in the middle of
an operation and after one that was refused, no heap has a fault on record, and a fault
would stay on record. What the checks guard is exact: a cell is counted as often as it is
referred to, and the root list is that of the owned roots, so no slot in a cell has a root
of its own unless the cell is being written.
-/

namespace HybridHeap

namespace Moment

/-- The references to a cell: from handles and unplaced values and from the cell's own
writer, from the slots of live cells, and from slots that a writer has displaced. -/
def references (m : Moment) (c : CellId) : Nat :=
  ((countedRoots (heldRoots m.held ++ m.world.bound) m.write).map Root.cell).count c +
    m.world.slots.count (some c) + ((m.world.heap? c.heap).map fun h => h.deferred.count c).getD 0

/-- What the internal checks guard, at one moment. A new reference can be counted as long
as there are fewer than `2 ^ 31` with it. The entries of the root list are those of the
owned roots; while a cell is being written there are also its own root and those of the
handles that went into it, and it stays alive. -/
structure Checked (m : Moment) : Prop where
  faultless : ∀ i h, m.world.heap? i = some h → h.faults = []
  counts : ∀ c h cell, m.world.heap? c.heap = some h → h.find? c = some cell →
    cell.count = m.references c
  room : ∀ c h, m.world.heap? c.heap = some h → m.references c + 1 < 2 ^ 31 →
    h.countOf c < maxRefCount
  entries : ∀ i h, m.world.heap? i = some h → h.roots.toList.Perm
    ((listedRoots (rootsIn i (heldRoots m.held ++ m.world.bound)) (writeIn i m.write)).map
      Root.entry)
  written : ∀ wr ∈ m.write, m.world.Live wr.root.cell

/-- The roots of one heap are counted there. -/
theorem count_countedRoots_rootsIn (c : CellId) (held : List Root) (write : Option Writing) :
    ((countedRoots (rootsIn c.heap held) (writeIn c.heap write)).map Root.cell).count c =
      ((countedRoots held write).map Root.cell).count c := by
  have hwrite : ((writeIn c.heap write).toList.map Writing.root) =
      rootsIn c.heap (write.toList.map Writing.root) := by
    cases write with
    | none => rfl
    | some wr =>
        by_cases hw : wr.root.cell.heap = c.heap
        · rw [writeIn, Option.filter_some_pos (by simpa using hw)]
          simp [rootsIn, hw]
        · rw [writeIn_of_ne wr hw]
          simp [rootsIn, hw]
  rw [countedRoots, countedRoots, hwrite, ← rootsIn_append, count_cell_rootsIn]

theorem Balanced.countOf_eq {m : Moment} (hb : m.Balanced) {c : CellId} {h : Heap}
    (hi : m.world.heap? c.heap = some h) : h.countOf c = m.references c := by
  have hcount := (World.Balanced.heap hb _ h hi).counted.count c
  rw [List.count_append, count_countedRoots_rootsIn,
    ← World.Balanced.count_slots hb hi] at hcount
  rw [hcount, references, hi, Option.map_some, Option.getD_some]
  omega

theorem Balanced.checked {m : Moment} (hb : m.Balanced) : m.Checked where
  faultless i h hi := (World.Balanced.heap hb i h hi).listed.faults
  counts c h cell hi hf := by
    rw [← hb.countOf_eq hi, Heap.countOf_of_find? hf]
  room c h hi hlt := by
    rw [hb.countOf_eq hi, maxRefCount]
    omega
  entries i h hi := (World.Balanced.heap hb i h hi).listed.roots
  written wr hw := World.Balanced.live_of_counted hb
    (List.mem_append_right _ (List.mem_map_of_mem (Option.mem_toList.mpr hw)))

end Moment

namespace Session

/-- No check ever fails: not at any moment of any run, of which this session is one, and
not in the rest of its script, where every fault would stay on record; and what is
refused because a reference crosses from one heap into another is a new cell, a
replacement or the target of a writer. -/
structure Unfailing (s : Session) : Prop where
  moment : Moment.Reachable ⟨s.world, s.holdings, none⟩
  checked : ∀ m, Moment.Reachable m →
    m.Checked ∧ ∀ m', Moment.Step m m' → m.world.Precedes m'.world
  faultless : ∀ s', s.Leads s' →
    s.Precedes s' ∧ ∀ i h, s'.world.heap? i = some h → h.faults = []
  refused : ∀ (i : HeapId) (op : Op), op.Refusable (s.performOp i op).2

theorem unfailing {s : Session} (hs : s.Reachable) : s.Unfailing where
  moment := hs.moment
  checked _ hm := ⟨hm.balanced.checked, fun _ hstep => hstep.precedes⟩
  faultless _ hl := ⟨hl.precedes, (hl.reachable hs).moment.balanced.checked.faultless⟩
  refused i op := s.refusable_performOp i op

/-- A pair on one heap is refused a reference to a cell on another, and the script goes
on. -/
theorem unfailing_foreign :
    let s := ((new [.own {}, .own {}]).performOp 1 (.allocate (.scalar .null) false (some "a"))).1
    let refused := s.performOp 2 (.allocate (.pair (.copy "a") .null) false none)
    refused.2 = .failure (.foreign .inNewCell) ∧ refused.1.Unfailing := by
  refine ⟨?_, unfailing (.op (.op (.new _ _) 1 _) 2 _)⟩
  cbv

end Session

end HybridHeap
