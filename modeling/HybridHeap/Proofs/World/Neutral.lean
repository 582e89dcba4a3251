import HybridHeap.Proofs.Heap.Relabeled
import HybridHeap.Proofs.World.Muted
import HybridHeap.Proofs.World.Resolution

/-!
A root that is taken and dropped at once. The heap comes out as it went in, but for the
ticket that was used up; and where the drop checks the threshold of a heap that is over it,
what follows is the collection that the same check would have started before.
-/

namespace HybridHeap

namespace LinkedMap

variable {κ α : Type} [Ord κ] [Std.TransOrd κ] [DecidableEq κ] [Std.LawfulEqOrd κ]

/-- Changes that undo each other on the item under a key. -/
theorem Sound.modify_modify {m : LinkedMap κ α} (h : m.Sound) {k : κ} {a : α} {f g : α → α}
    (hk : m.find? k = some a) (hg : g (f a) = a) : (m.modify k f).modify k g = m := by
  refine ((h.modify k f).modify k g).ext h ?_
  rw [(h.modify k f).toList_modify, h.toList_modify, List.map_map]
  have hid : ∀ p ∈ m.toList,
      ((fun p => (p.1, if p.1 = k then g p.2 else p.2)) ∘ fun p => (p.1, if p.1 = k then f p.2
        else p.2)) p = id p := by
    intro p hp
    simp only [Function.comp_apply, id_eq]
    by_cases hpk : p.1 = k
    · have hfound := h.find?_eq_some_iff.mpr hp
      rw [hpk, hk, Option.some.injEq] at hfound
      rw [if_pos hpk, if_pos hpk, ← hfound, hg, hfound]
    · rw [if_neg hpk, if_neg hpk]
  rw [List.map_congr_left hid, List.map_id]

/-- An entry that is put in front and taken out again. -/
theorem Sound.remove_pushFront {m : LinkedMap κ α} (h : m.Sound) {k : κ}
    (hk : k ∉ m.toList.map Prod.fst) (a : α) :
    ∃ m', m.pushFront k a = .ok m' ∧ m'.remove k = .ok m := by
  obtain ⟨m', hpush, hs, hl⟩ := h.pushFront hk a
  have hmem : (k, a) ∈ m'.toList := hl ▸ List.mem_cons_self
  obtain ⟨m'', hremove, hs', hl'⟩ := hs.remove hmem
  have hlist : m''.toList = m.toList := by
    rw [hl', hl, List.filter_cons_of_neg (by simp), List.filter_eq_self]
    intro p hp
    exact decide_eq_true fun he => hk (he ▸ List.mem_map_of_mem hp)
  refine ⟨m', hpush, ?_⟩
  rw [hremove, hs'.ext h hlist]

end LinkedMap

namespace Heap

/-- The heap with the same contents in which one ticket is left out. -/
def skipTicket (h : Heap) : Heap :=
  { h with nextTicket := h.nextTicket + 1 }

theorem start_skipTicket (h : Heap) : h.skipTicket.start = h.start.relabeled id Nat.succ := rfl

variable {h : Heap} {c : CellId}

/-- A reference that is counted and given up again. The count was not zero before, so the
cell stays. -/
theorem Counted.release_retain {held : List CellId} (hc : h.Counted held) (hl : h.Live c) :
    (h.retain c).start.release [c] = h.start := by
  rw [retain_of_live hc.sound hl]
  obtain ⟨cell, hf⟩ := hl
  obtain ⟨n, hn⟩ : ∃ n, cell.count = n + 1 :=
    ⟨cell.count - 1, (Nat.sub_add_cancel (hc.positive c cell hf)).symm⟩
  let raise (cell : Cell) : Cell := { cell with count := cell.count + 1 }
  let lower (cell : Cell) : Cell := { cell with count := n + 1 }
  have hraised : (h.modifyCell c raise).find? c = some (raise cell) := by
    rw [find?_modifyCell, if_pos rfl, hf]
    rfl
  have hundo : (h.objects.modify c raise).modify c lower = h.objects :=
    hc.sound.modify_modify hf (by simp only [raise, lower, ← hn])
  have hlowered : (h.modifyCell c raise).start.release [c] =
      ((h.modifyCell c raise).start.map (·.modifyCell c lower)).release [] :=
    Reclamation.release_lowered [] hraised (congrArg Nat.succ hn)
  rw [hlowered, Reclamation.release]
  simp only [Reclamation.map, start, modifyCell, hundo]

variable {held : List Root}

theorem Balanced.unroot_register (hb : h.Balanced held none) (hl : h.Live c) :
    (h.register c).1.unroot (h.register c).2 = (h.retain c).skipTicket := by
  have hfresh : h.nextTicket ∉ h.roots.toList.map Prod.fst := by
    intro hm
    obtain ⟨p, hp, he⟩ := List.mem_map.mp hm
    exact Nat.ne_of_lt (hb.listed.tickets p hp) he
  obtain ⟨roots, hpush, hremove⟩ := hb.listed.sound.remove_pushFront hfresh c
  rw [retain_of_live hb.counted.sound hl]
  simp only [Heap.register, retain_of_live hb.counted.sound hl, modifyCell, hpush, Heap.unroot,
    hremove, skipTicket]

/-- A root that is registered and let go of leaves the heap as it was. -/
theorem Balanced.dropAnchor_register (hb : h.Balanced held none) (hl : h.Live c) :
    (h.register c).1.dropAnchor (h.register c).2 = h.skipTicket.start := by
  have hcell : (h.register c).2.cell = c := (hb.register hl).1
  have hrelease : (h.retain c).skipTicket.start.release [c] = h.skipTicket.start := by
    rw [start_skipTicket, Reclamation.release_relabeled, hb.counted.release_retain hl]
    rfl
  rw [Heap.dropAnchor, hb.unroot_register hl, hcell, hrelease]
  exact Reclamation.drain_of_deferred_nil (hb.deferred rfl)

/-- Dropping it as a handle adds the check of the threshold. -/
theorem Balanced.dropRoot_register (hb : h.Balanced held none) (hl : h.Live c) :
    (h.register c).1.dropRoot (h.register c).2 =
      if h.config.collectOnRelease then h.skipTicket.start.collectIfOver
      else h.skipTicket.start := by
  obtain ⟨-, -, -, hconfig⟩ := hb.register hl
  rw [← hb.dropAnchor_register hl, ← hconfig]
  rfl

theorem dropRoot_skipTicket (h : Heap) (r : Root) :
    h.skipTicket.dropRoot r = (h.dropRoot r).relabeled id Nat.succ := by
  have hanchor : h.skipTicket.dropAnchor r = (h.dropAnchor r).relabeled id Nat.succ :=
    h.dropAnchor_relabeled id Nat.succ r
  show (if h.config.collectOnRelease then (h.skipTicket.dropAnchor r).collectIfOver
      else h.skipTicket.dropAnchor r) =
    (if h.config.collectOnRelease then (h.dropAnchor r).collectIfOver
      else h.dropAnchor r).relabeled id Nat.succ
  rw [hanchor, Reclamation.collectIfOver_relabeled]
  split <;> rfl

end Heap

namespace World

/-- The world with the same contents in which one ticket of a heap is left out. -/
def skipTicket (w : World) (i : HeapId) : World :=
  { w with heaps := w.heaps.modify i Heap.skipTicket }

/-- The threshold of one heap is found exceeded: the heap is collected, and everything is seen
to that follows. -/
def trigger (w : World) (i : HeapId) : World :=
  w.work i fun h => (h.start.report (.triggered h.objects.length h.capacity)).collect

theorem heap?_skipTicket (w : World) (i j : HeapId) :
    (w.skipTicket i).heap? j = if i = j then (w.heap? j).map Heap.skipTicket else w.heap? j :=
  Array.getElem?_modify

/-- Worlds that agree apart from their heaps, and heap by heap, are equal. -/
theorem ext_heap? {w w' : World} (hh : ∀ i, w.heap? i = w'.heap? i)
    (hrest : { w with heaps := w'.heaps } = w') : w = w' := by
  have hheaps : w.heaps = w'.heaps := Array.ext_getElem? hh
  rw [← hheaps] at hrest
  exact hrest

theorem commit_relabeled (w : World) (i : HeapId) (r : Reclamation) :
    w.commit i (r.relabeled id Nat.succ) =
      ((w.commit i r).1.skipTicket i, (w.commit i r).2) := by
  refine Prod.ext (ext_heap? (fun j => ?_) rfl) rfl
  show (w.setHeap i r.heap.skipTicket).heap? j = ((w.setHeap i r.heap).skipTicket i).heap? j
  rw [heap?_skipTicket, heap?_setHeap, heap?_setHeap]
  split
  · split <;> rfl
  · rfl

theorem commit_skipTicket_of_ne {i j : HeapId} (hij : i ≠ j) (w : World) (r : Reclamation) :
    (w.skipTicket i).commit j r = ((w.commit j r).1.skipTicket i, (w.commit j r).2) := by
  refine Prod.ext (ext_heap? (fun k => ?_) rfl) rfl
  have hsize : (w.skipTicket i).heaps.size = w.heaps.size := Array.size_modify
  show ((w.skipTicket i).setHeap j r.heap).heap? k = ((w.setHeap j r.heap).skipTicket i).heap? k
  rw [heap?_skipTicket, heap?_setHeap, heap?_setHeap, heap?_skipTicket, hsize]
  by_cases hjk : j = k
  · subst hjk
    rw [if_pos rfl, if_pos rfl, if_neg hij]
  · rw [if_neg hjk, if_neg hjk]

/-- Work that does not look at the next ticket. -/
theorem reclaim_skipTicket (w : World) (i j : HeapId) {work : Heap → Reclamation}
    (hw : ∀ h : Heap, work h.skipTicket = (work h).relabeled id Nat.succ) :
    (w.skipTicket i).reclaim j work =
      ((w.reclaim j work).1.skipTicket i, (w.reclaim j work).2) := by
  simp only [reclaim, heap?_skipTicket]
  by_cases hij : i = j
  · subst hij
    rw [if_pos rfl]
    cases hi : w.heap? i with
    | none => rfl
    | some h =>
        have hset : w.skipTicket i = w.setHeap i h.skipTicket := by
          refine ext_heap? (fun j => ?_) rfl
          rw [heap?_skipTicket]
          split
          · rename_i hij
            subst hij
            rw [hi, heap?_setHeap_self hi]
            rfl
          · rename_i hij
            rw [heap?_setHeap_of_ne hij]
        simp only [Option.map_some, hw]
        rw [hset, commit_setHeap, commit_relabeled]
  · rw [if_neg hij]
    cases w.heap? j with
    | none => rfl
    | some h => exact commit_skipTicket_of_ne hij w (work h)

theorem doChore_skipTicket (w : World) (i : HeapId) (c : Chore) :
    (w.skipTicket i).doChore c = ((w.doChore c).1.skipTicket i, (w.doChore c).2) := by
  cases c with
  | dropRoot r => exact w.reclaim_skipTicket i _ fun h => h.dropRoot_skipTicket r
  | dropAnchor r => exact w.reclaim_skipTicket i _ fun h => h.dropAnchor_relabeled id Nat.succ r
  | leave e =>
      have henvs : (w.skipTicket i).envs = w.envs := rfl
      simp only [doChore, leave, henvs]
      split
      · rfl
      · split <;> rfl

/-- Destruction registers no roots, so it does not notice a ticket that was left out. -/
theorem settle_skipTicket (w : World) (i : HeapId) (chores : List Chore) :
    (w.skipTicket i).settle chores = (w.settle chores).skipTicket i := by
  fun_induction settle w chores with
  | case1 w => rw [settle_nil]
  | case2 w c rest ih => rw [settle_cons, doChore_skipTicket, ih]

/-- A new root of a live cell that is dropped at once: the drop finds the heap as it was
before, and starts a collection if its threshold is exceeded. -/
theorem Balanced.drop_root {w : World} {held : List Holding} {c : CellId} {h : Heap}
    (hb : w.Balanced held none) (hi : w.heap? c.heap = some h) (hl : h.Live c) :
    (w.root (some c)).1.drop (w.root (some c)).2 =
      if h.config.collectOnRelease = true ∧ h.capacity < h.objects.length then
        (w.trigger c.heap).skipTicket c.heap
      else w.skipTicket c.heap := by
  have hheap := hb.heap _ h hi
  rw [writeIn_none] at hheap
  have hcell : (h.register c).2.cell = c := (hheap.register hl).1
  have hroot : w.root (some c) =
      (w.setHeap c.heap (h.register c).1, some (h.register c).2) := by
    simp only [World.root, hi]
  have hchore : (w.setHeap c.heap (h.register c).1).doChore (.dropRoot (h.register c).2) =
      w.commit c.heap ((h.register c).1.dropRoot (h.register c).2) := by
    simp only [World.doChore, reclaim, hcell, heap?_setHeap_self hi, commit_setHeap]
  have hstart : w.commit c.heap h.skipTicket.start = (w.skipTicket c.heap, []) := by
    rw [Heap.start_skipTicket, commit_relabeled]
    show ((w.setHeap c.heap h).skipTicket c.heap, _) = _
    rw [setHeap_self hi]
    rfl
  rw [hroot]
  show (w.setHeap c.heap (h.register c).1).settle [.dropRoot (h.register c).2] = _
  rw [settle_cons, hchore, hheap.dropRoot_register hl, List.append_nil]
  by_cases hon : h.config.collectOnRelease = true
  · rw [if_pos hon]
    by_cases hover : h.capacity < h.objects.length
    · have hcollect : h.start.collectIfOver =
          (h.start.report (.triggered h.objects.length h.capacity)).collect := if_pos hover
      rw [if_pos ⟨hon, hover⟩, Heap.start_skipTicket, Reclamation.collectIfOver_relabeled,
        commit_relabeled, settle_skipTicket, hcollect]
      simp only [World.trigger, World.work, hi, World.finish]
    · have hwithin : h.skipTicket.start.collectIfOver = h.skipTicket.start := if_neg hover
      rw [if_neg fun hboth => hover hboth.2, hwithin, hstart, settle_nil]
  · rw [if_neg hon, if_neg fun hboth => hon hboth.1, hstart, settle_nil]

end World

end HybridHeap
