import HybridHeap.Proofs.Heap.Courses
import HybridHeap.Proofs.World.Collections

/-!
Orderly logs. On a heap in balance what a collection gives up is never the last reference to
a cell, so nothing is freed between a trigger and the report of the collection that it
starts, and the cells that a collection has found are those that it leaves and those that
it sweeps.
-/

namespace HybridHeap

/-- A log in which every collection leaves what it does not sweep, and in which every trigger
is followed by the collection that it starts. -/
inductive Orderly : List Event → Prop
  | nil : Orderly []
  | freed (c : CellId) {log : List Event} (ho : Orderly log) : Orderly (.freed c :: log)
  | requested {before left swept : Nat} (hb : left + swept = before) (traced capacity : Nat)
      {log : List Event} (ho : Orderly log) :
      Orderly (.collected before left swept traced capacity :: log)
  | triggered {before left swept limit : Nat} (hover : limit < before)
      (hb : left + swept = before) (traced capacity : Nat) {log : List Event}
      (ho : Orderly log) :
      Orderly (.triggered before limit :: .collected before left swept traced capacity :: log)

namespace Orderly

variable {log log' : List Event}

theorem append (ho : Orderly log) (ho' : Orderly log') : Orderly (log ++ log') := by
  induction ho with
  | nil => exact ho'
  | freed c _ ih => exact .freed c ih
  | requested hb traced capacity _ ih => exact .requested hb traced capacity ih
  | triggered hover hb traced capacity _ ih => exact .triggered hover hb traced capacity ih

theorem flatMap {α : Type} {f : α → List Event} {as : List α} (h : ∀ a ∈ as, Orderly (f a)) :
    Orderly (as.flatMap f) := by
  induction as with
  | nil => exact .nil
  | cons a as ih =>
      rw [List.flatMap_cons]
      exact (h a List.mem_cons_self).append (ih fun b hb => h b (List.mem_cons_of_mem a hb))

theorem map_freed (cs : List CellId) : Orderly (cs.map .freed) := by
  induction cs with
  | nil => exact .nil
  | cons c cs ih => exact .freed c ih

/-- Every cell that a collection has found was left or swept. -/
theorem left_add_swept (ho : Orderly log) {before left swept traced capacity : Nat}
    (hm : .collected before left swept traced capacity ∈ log) : left + swept = before := by
  induction ho with
  | nil => cases hm
  | freed c _ ih => exact ih (List.mem_of_ne_of_mem (by simp) hm)
  | requested hb _ _ _ ih =>
      rcases List.mem_cons.mp hm with he | hm
      · cases he
        exact hb
      · exact ih hm
  | triggered _ hb _ _ _ ih =>
      rcases List.mem_cons.mp (List.mem_of_ne_of_mem (by simp) hm) with he | hm
      · cases he
        exact hb
      · exact ih hm

/-- A trigger is exceeded, and the next event is the collection of all that was live. -/
theorem collected_of_triggered (ho : Orderly log) {pre post : List Event} {live limit : Nat}
    (he : log = pre ++ .triggered live limit :: post) :
    limit < live ∧ ∃ left swept traced capacity later,
      post = .collected live left swept traced capacity :: later := by
  induction ho generalizing pre with
  | nil => simp at he
  | freed c _ ih =>
      cases pre with
      | nil => cases he
      | cons e pre => exact ih (List.cons.inj he).2
  | requested _ _ _ _ ih =>
      cases pre with
      | nil => cases he
      | cons e pre => exact ih (List.cons.inj he).2
  | triggered hover _ traced capacity _ ih =>
      match pre with
      | [] =>
          cases he
          exact ⟨hover, _, _, traced, capacity, _, rfl⟩
      | [_] => simp at he
      | _ :: _ :: pre =>
          exact ih (List.cons.inj (List.cons.inj he).2).2

end Orderly

namespace Reclamation

variable {r : Reclamation} {held : List CellId}

theorem Sheds.orderly {h : Heap} (hs : h.start.Sheds r) : Orderly r.events.reverse := by
  obtain ⟨freed, hs⟩ := hs
  have hes : r.events = freed.map .freed := hs.events.trans (List.append_nil _)
  rw [hes, ← List.map_reverse]
  exact .map_freed _

/-- A collection reports itself only, and every cell that it has found was left or swept. -/
theorem Collectable.events_collect (h : r.Collectable held) :
    ∃ left swept traced capacity, left + swept = r.heap.objects.length ∧
      r.collect.events =
        .collected r.heap.objects.length left swept traced capacity :: r.events := by
  obtain ⟨objects, traced, -, -, he⟩ := collect_eq h.counted h.rooted h.unmarked h.deferred
  have hcells := r.heap.cells_perm.length_eq
  rw [List.length_append] at hcells
  have hlength : r.heap.objects.length = r.heap.cells.length := h.counted.sound.length_eq
  rw [hlength, he]
  exact ⟨_, _, traced, _, hcells.symm, rfl⟩

theorem Collectable.orderly_collect (h : r.Collectable held) (ho : Orderly r.events.reverse) :
    Orderly r.collect.events.reverse := by
  obtain ⟨left, swept, traced, capacity, hb, he⟩ := h.events_collect
  rw [he, List.reverse_cons]
  exact ho.append (.requested hb traced capacity .nil)

theorem Collectable.orderly_collectIfOver (h : r.Collectable held)
    (ho : Orderly r.events.reverse) : Orderly r.collectIfOver.events.reverse := by
  simp only [Reclamation.collectIfOver]
  split
  · rename_i hover
    obtain ⟨left, swept, traced, capacity, hb, he⟩ :=
      (h.report (.triggered r.heap.objects.length r.heap.capacity)).events_collect
    rw [he, Reclamation.report, List.reverse_cons, List.reverse_cons, List.append_assoc]
    exact ho.append (.triggered hover hb traced capacity .nil)
  · exact ho

end Reclamation

namespace Heap

variable {h : Heap} {held : List Root} {write : Option Writing}

theorem Balanced.orderly_dropRoot {r : Root} (hb : h.Balanced (r :: held) write) :
    Orderly (h.dropRoot r).events.reverse := by
  obtain ⟨hdropped, hd, -⟩ := hb.dropAnchor
  have ho := (h.sheds_dropAnchor r).orderly
  simp only [Heap.dropRoot]
  split
  · exact (hdropped.collectable hd).orderly_collectIfOver ho
  · exact ho

theorem Balanced.orderly_place {v : Value Handle} (hb : h.Balanced (v.anchors ++ held) none)
    {c : CellId} (hl : ¬h.Live c) : Orderly (h.place c v).2.events.reverse := by
  obtain ⟨-, hplaced, -, -⟩ := hb.placeOnly hl
  have hd : (h.placeOnly c v).2.start.heap.deferred = [] := hplaced.deferred rfl
  rw [place_eq, Reclamation.drain_of_deferred_nil hd]
  split
  · exact (hplaced.collectable (r := (h.placeOnly c v).2.start) hd).orderly_collectIfOver .nil
  · exact .nil

theorem Balanced.orderly_collectNow (hb : h.Balanced held none) :
    Orderly h.collectNow.events.reverse := by
  obtain ⟨-, hcollect, hready⟩ := hb.collectNow_eq
  rw [hcollect]
  exact hready.orderly_collect .nil

end Heap

namespace World

variable {w : World} {i : HeapId} {h : Heap} {held : List Holding} {write : Option Writing}

theorem orderly_commit (ho : Orderly w.events.reverse) {r : Reclamation}
    (hr : Orderly r.events.reverse) : Orderly (w.commit i r).1.events.reverse := by
  rw [commit, List.reverse_append]
  exact ho.append hr

/-- A chore that is owned leaves the log in order. -/
theorem Balanced.orderly_doChore {c : Chore} (hb : w.Balanced (c.holding :: held) write)
    (ho : Orderly w.events.reverse) : Orderly (w.doChore c).1.events.reverse := by
  cases c with
  | dropRoot r =>
      simp only [World.doChore, reclaim]
      split
      · exact ho
      · rename_i h hi
        exact orderly_commit ho (hb.heap_of_root hi).orderly_dropRoot
  | dropAnchor r =>
      simp only [World.doChore, reclaim]
      split
      · exact ho
      · rename_i h hi
        exact orderly_commit ho (h.sheds_dropAnchor r).orderly
  | leave e =>
      simp only [World.doChore, World.leave]
      split
      · exact ho
      · split <;> exact ho

end World

namespace Moment

/-- Nothing that happens disturbs the log. -/
theorem Step.orderly {m m' : Moment} (hs : Step m m') (hb : m.Balanced)
    (ho : Orderly m.world.events.reverse) : Orderly m'.world.events.reverse := by
  cases hs with
  | permute hp => exact ho
  | chore c => exact World.Balanced.orderly_doChore hb ho
  | root hi hl => exact ho
  | @place w held i h v c hi hv hc =>
      have hlive : ¬h.Live c := hc ▸ World.Balanced.not_live_next hb hi
      have hheap := World.Balanced.heap_of_value hb hi hv
      exact World.orderly_commit (w := { w with nextCell := w.nextCell + 1 }) ho
        (hheap.orderly_place hlive)
  | swap hi hv => exact ho
  | finishWrite hi => exact World.orderly_commit ho (Heap.sheds_finishWrite _ _).orderly
  | write hi hl ht hw =>
      obtain ⟨h₀, -, hsheds⟩ := Heap.sheds_write hw
      exact World.orderly_commit ho hsheds.orderly
  | append hi hl ht hw =>
      obtain ⟨h₀, -, hsheds⟩ := Heap.sheds_append hw
      exact World.orderly_commit ho hsheds.orderly
  | @collectNow w held i h hi =>
      have hheap := World.Balanced.heap hb i h hi
      exact World.orderly_commit ho hheap.orderly_collectNow
  | shareEnv he => exact ho
  | @newEnv w held parent hp => cases parent <;> exact ho
  | rebind he => exact ho
  | forgetEvents => exact .nil

/-- At every moment the events are in order. -/
theorem Reachable.orderly {m : Moment} (hm : m.Reachable) : Orderly m.world.events.reverse := by
  induction hm with
  | start configs dropOrder => exact .nil
  | step hm hs ih => exact hs.orderly hm.balanced ih

end Moment

end HybridHeap
