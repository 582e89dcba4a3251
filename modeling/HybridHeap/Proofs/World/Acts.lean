import HybridHeap.Proofs.Heap.Courses
import HybridHeap.Proofs.World.Changes
import HybridHeap.Proofs.World.History

/-!
The moves of a world as acts on its heaps. A move leaves heaps and events alone, or it is
one act on one heap, which takes the next number if it places a cell, and its events are
those of the act (`World.Move.act`). So every heap of a world goes its course.
-/

namespace HybridHeap

namespace World

variable {P : Permit} {w w' : World}

/-- A move without an act. -/
structure Idles (w w' : World) : Prop where
  heaps : w'.heaps = w.heaps
  nextCell : w'.nextCell = w.nextCell
  events : w'.events = w.events

/-- A move that is an act on the heap `i`, which is `h`. -/
structure Acts (P : Permit) (i : HeapId) (h : Heap) (placed : Option CellId) (r : Reclamation)
    (w w' : World) : Prop where
  heap : w.heap? i = some h
  act : h.Act (P.collects i) placed r
  number : ∀ c ∈ placed, c = { heap := i, number := w.nextCell }
  world : w' = ({ w with nextCell := w.nextCell + placed.toList.length }.commit i r).1

theorem acts_reclaim (w : World) (i : HeapId) {work : Heap → Reclamation}
    (hw : ∀ h : Heap, h.Act (P.collects i) none (work h)) :
    w.Idles (w.reclaim i work).1 ∨ ∃ j h placed r, Acts P j h placed r w (w.reclaim i work).1 := by
  unfold reclaim
  split
  · exact .inl ⟨rfl, rfl, rfl⟩
  · rename_i h hi
    exact .inr ⟨i, h, none, work h, hi, hw h, fun _ hc => (nomatch hc), rfl⟩

theorem Move.act (hm : Move P w w') :
    w.Idles w' ∨ ∃ i h placed r, Acts P i h placed r w w' := by
  have hnone : ∀ {i : HeapId}, ∀ c ∈ (none : Option CellId), c = ⟨i, w.nextCell⟩ :=
    fun _ hc => nomatch hc
  cases hm with
  | chore c =>
      cases c with
      | dropRoot r => exact w.acts_reclaim r.cell.heap fun h => .dropRoot r
      | dropAnchor r => exact w.acts_reclaim r.cell.heap fun h => .dropAnchor r
      | leave e =>
          refine .inl ⟨w.heaps_leave e, ?_, ?_⟩
          all_goals
            simp only [doChore, leave]
            split
            · rfl
            · split <;> rfl
  | @register i h hi c => exact .inr ⟨i, h, none, _, hi, .register c, hnone, rfl⟩
  | @place i h c hi hc v =>
      exact .inr ⟨i, h, some c, _, hi, .place c v, fun d hd => Option.mem_some.mp hd ▸ hc, rfl⟩
  | @store i h _ hi c v => exact .inr ⟨i, h, none, _, hi, .swap c v, hnone, rfl⟩
  | @commit i h r _ hi hw => exact .inr ⟨i, h, none, r, hi, .work hw, hnone, rfl⟩
  | @collectNow i h ha hi => exact .inr ⟨i, h, none, _, hi, .collectNow ha, hnone, rfl⟩
  | scopes envs nextEnv => exact .inl ⟨rfl, rfl, rfl⟩

/-- Whatever happens to a world, its heaps go their courses. -/
theorem Move.goes (hm : Move P w w') : HeapsTurn Heap.Goes w w' := by
  rcases hm.act with hidle | ⟨i, h, placed, r, hi, ha, -, rfl⟩
  · exact .of_heaps Heap.Goes.refl hidle.heaps
  · exact .setHeap Heap.Goes.refl hi ha.goes

theorem Moves.goes (hm : Moves P w w') : HeapsTurn Heap.Goes w w' :=
  hm.lift (fun _ => .of_heaps Heap.Goes.refl rfl)
    (fun hw hw' => hw.trans Heap.Goes.trans hw') Move.goes

end World

namespace Moment

/-- A step leaves the heaps alone, or it is one act on one heap. -/
theorem Step.acts {m m' : Moment} (hs : Step m m') :
    m'.world.heaps = m.world.heaps ∨
      ∃ i h placed r, World.Acts .all i h placed r m.world m'.world := by
  have hmove : World.Move .all m.world m'.world → m'.world.heaps = m.world.heaps ∨
      ∃ i h placed r, World.Acts .all i h placed r m.world m'.world :=
    fun hm => hm.act.imp World.Idles.heaps id
  cases hs with
  | permute hp => exact .inl rfl
  | chore c => exact hmove (.chore _ c)
  | root hi hl => exact hmove (.register hi _)
  | place hi ho hc => exact hmove (.place hi hc _)
  | swap hi ho => exact hmove (.store trivial hi _ _)
  | finishWrite hi => exact hmove (.commit trivial hi (.finishWrite _))
  | write hi hl ht hw => exact hmove (.commit trivial hi (.write hw))
  | append hi hl ht hw => exact hmove (.commit trivial hi (.append hw))
  | collectNow hi => exact hmove (.collectNow trivial hi)
  | shareEnv he => exact .inl rfl
  | @newEnv w held parent hp => exact .inl (by cases parent <;> rfl)
  | rebind he => exact .inl rfl
  | forgetEvents => exact .inl rfl

theorem Step.goes {m m' : Moment} (hs : Step m m') :
    World.HeapsTurn Heap.Goes m.world m'.world := by
  rcases hs.moves with hmoves | hforgotten
  · exact hmoves.goes
  · rw [hforgotten]
    exact .of_heaps Heap.Goes.refl rfl

end Moment

end HybridHeap
