import HybridHeap.Proofs.Mirror.Scopes
import HybridHeap.Proofs.Unmanaged.Growth
import HybridHeap.Proofs.World.Graph

/-!
A store with what is in a world, and nothing else. Every moment is mirrored by its own
snapshot, so that the store that an operation leaves behind says what the operation has
added.
-/

namespace HybridHeap

open Unmanaged (Store)

namespace World

/-- The live cells and the environments of a world. -/
def snapshot (w : World) : Store :=
  { configs := w.heaps.map Heap.config
    cells := .ofList (w.heaps.toList.flatMap Heap.contents)
    scopes := w.envs.map fun _ env => env.bare
    nextCell := w.nextCell
    nextEnv := w.nextEnv }

namespace Balanced

variable {w : World} {held : List Holding} {write : Option Writing} {c : CellId} {v : Value Slot}

/-- No cell is on the heaps twice. -/
theorem pairwise_contents (hb : w.Balanced held write) :
    (w.heaps.toList.flatMap Heap.contents).Pairwise fun p q => ¬compare p.1 q.1 = .eq := by
  rw [List.pairwise_flatMap]
  constructor
  · intro h hh
    obtain ⟨i, hi⟩ := mem_heaps.mp hh
    have hnodup : (h.cells.map Prod.fst).Nodup := (hb.heap i h hi).counted.sound.nodup
    rw [List.Nodup, List.pairwise_map] at hnodup
    rw [Heap.contents, List.pairwise_map]
    exact hnodup.imp fun hne he => hne (Std.compare_eq_iff_eq.mp he)
  · rw [List.pairwise_iff_getElem]
    intro i j hi hj hij p hp q hq he
    -- the cells of a heap carry its number
    have hhome : ∀ {k : HeapId} (hk : k < w.heaps.toList.length) {x : CellId × Value Slot},
        x ∈ Heap.contents w.heaps.toList[k] → x.1.heap = k := by
      intro k hk x hx
      have hheap : w.heap? k = some w.heaps.toList[k] := by
        rw [heap?, ← Array.getElem?_toList]
        exact List.getElem?_eq_getElem hk
      obtain ⟨y, hy, rfl⟩ := List.mem_map.mp hx
      exact (hb.heap_lt hheap (List.mem_map_of_mem hy)).1
    have hsame := congrArg CellId.heap (Std.compare_eq_iff_eq.mp he)
    rw [hhome hi hp, hhome hj hq] at hsame
    exact Nat.ne_of_lt hij hsame

theorem getElem?_snapshot (hb : w.Balanced held write) :
    w.snapshot.cells[c]? = some v ↔ (c, v) ∈ w.heaps.toList.flatMap Heap.contents := by
  constructor
  · intro hf
    have hmem : c ∈ w.snapshot.cells := by
      rw [Std.ExtTreeMap.mem_iff_isSome_getElem?, hf]
      rfl
    rw [snapshot, Std.ExtTreeMap.mem_ofList, List.contains_iff_mem, List.mem_map] at hmem
    obtain ⟨⟨d, u⟩, hm, rfl⟩ := hmem
    have hu : w.snapshot.cells[d]? = some u :=
      Std.ExtTreeMap.getElem?_ofList_of_mem Std.compare_self hb.pairwise_contents hm
    rw [hu, Option.some.injEq] at hf
    exact hf ▸ hm
  · exact Std.ExtTreeMap.getElem?_ofList_of_mem Std.compare_self hb.pairwise_contents

/-- The snapshot has the cells that are alive. -/
theorem live_of_snapshot (hb : w.Balanced held write) (hf : w.snapshot.cells[c]? = some v) :
    ∃ h cell, w.heap? c.heap = some h ∧ h.find? c = some cell ∧ cell.value = v := by
  obtain ⟨h, hh, hm⟩ := List.mem_flatMap.mp (hb.getElem?_snapshot.mp hf)
  obtain ⟨i, hi⟩ := mem_heaps.mp hh
  obtain ⟨p, hp, he⟩ := List.mem_map.mp hm
  cases he
  obtain ⟨hheap, hcell⟩ := hb.heap?_of_mem hi hp
  exact ⟨h, p.2, hheap, hcell, rfl⟩

theorem agrees_snapshot (hb : w.Balanced held write) : w.Agrees w.snapshot where
  configs := rfl
  cells i h hi q hq := by
    refine hb.getElem?_snapshot.mpr (List.mem_flatMap.mpr ⟨h, ?_, hq⟩)
    exact mem_heaps.mpr ⟨i, hi⟩
  scopes e env he := by
    simp [snapshot, he]
  nextCell := rfl
  nextEnv := rfl

/-- What is alive refers to what is alive. -/
theorem closed_snapshot (hb : w.Balanced held write) : w.snapshot.Closed where
  cells c v hf := by
    obtain ⟨h, cell, hi, hcell, rfl⟩ := hb.live_of_snapshot hf
    refine ⟨(hb.cells _ h hi c ⟨cell, hcell⟩).2, fun d hd => ?_, fun e he => ?_⟩
    · exact (hb.cells _ h hi d ((hb.heap _ h hi).counted.live_of_target hcell hd)).2
    · obtain ⟨env, henv⟩ := hb.env_of_closure hi hcell he
      exact (hb.scopes e env henv).1
  scopes e sc he := by
    simp only [snapshot, Std.ExtTreeMap.getElem?_map, Option.map_eq_some_iff] at he
    obtain ⟨env, henv, rfl⟩ := he
    obtain ⟨hlt, hparent, -⟩ := hb.scopes e env henv
    refine ⟨hlt, hparent, fun name s hn d hd => ?_⟩
    cases hd
    rw [getElem?_bare, Option.map_eq_some_iff] at hn
    obtain ⟨handle, hbinding, htarget⟩ := hn
    obtain ⟨r, rfl, rfl⟩ := Option.map_eq_some_iff.mp htarget
    have hroot : r ∈ env.roots := Environment.mem_roots.mpr ⟨name, hbinding⟩
    obtain ⟨h, hi, hl⟩ :=
      hb.live_of_mem (List.mem_append_right _ (mem_bound.mpr ⟨e, env, henv, hroot⟩))
    exact (hb.cells _ h hi _ hl).2

end Balanced

end World

/-- A moment is mirrored by its snapshot. -/
theorem Moment.Reachable.mirrored {m : Moment} (hm : m.Reachable) :
    Mirrored m m.world.snapshot := by
  have hb : m.world.Balanced m.held m.write := hm.balanced
  exact ⟨hm, hb.agrees_snapshot⟩

end HybridHeap
