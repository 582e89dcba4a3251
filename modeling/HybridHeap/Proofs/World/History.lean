import HybridHeap.Proofs.Heap.History
import HybridHeap.Proofs.World.Moment
import HybridHeap.Proofs.World.Moves

/-!
What a world can never do, whatever happens to it: bring back a cell that is gone, and
forget a fault. Numbers of cells are given out in order, so a cell that is not alive but
has an older number is gone for good (`World.Precedes.not_live`).
-/

namespace HybridHeap

namespace World

/-- What becomes of a world: numbers of cells go up, and what becomes of each heap has no
older cell that was not there before, and all of its faults. -/
structure Precedes (w w' : World) : Prop where
  nextCell : w.nextCell ≤ w'.nextCell
  heaps : ∀ i h', w'.heap? i = some h' → ∃ h, w.heap? i = some h ∧ h.Precedes w.nextCell h'

variable {w w' w'' : World} {i : HeapId} {h : Heap}

namespace Precedes

theorem refl (w : World) : w.Precedes w :=
  ⟨Nat.le_refl _, fun _ h hi => ⟨h, hi, .refl _ h⟩⟩

theorem trans (hp : w.Precedes w') (hp' : w'.Precedes w'') : w.Precedes w'' where
  nextCell := Nat.le_trans hp.nextCell hp'.nextCell
  heaps i h'' hi'' := by
    obtain ⟨h', hi', hh'⟩ := hp'.heaps i h'' hi''
    obtain ⟨h, hi, hh⟩ := hp.heaps i h' hi'
    exact ⟨h, hi, hh.trans (hh'.mono hp.nextCell)⟩

/-- The environments and the events play no part. -/
theorem of_heaps (hh : w'.heaps = w.heaps) (hn : w'.nextCell = w.nextCell) : w.Precedes w' where
  nextCell := Nat.le_of_eq hn.symm
  heaps i h hi := by
    rw [heap?, hh] at hi
    exact ⟨h, hi, .refl _ h⟩

/-- A cell that was given a number and is gone does not come back. -/
theorem not_live (hp : w.Precedes w') {c : CellId} (hc : c.number < w.nextCell)
    (hl : ∀ h, w.heap? c.heap = some h → ¬h.Live c) {h' : Heap}
    (hi : w'.heap? c.heap = some h') : ¬h'.Live c := by
  intro hl'
  obtain ⟨h, hi, hh⟩ := hp.heaps _ h' hi
  rcases hh.live c hl' with hlive | hnew
  · exact hl h hi hlive
  · omega

end Precedes

/-- Another heap in the place of the heap `i`. -/
theorem precedes_setHeap (hi : w.heap? i = some h) {h' : Heap}
    (hh : h.Precedes w.nextCell h') : w.Precedes (w.setHeap i h') where
  nextCell := Nat.le_refl _
  heaps j k hj := by
    rw [heap?_setHeap] at hj
    split at hj
    · rename_i hij
      split at hj
      · cases hj
        exact ⟨h, hij ▸ hi, hh⟩
      · cases hj
    · exact ⟨k, hj, .refl _ k⟩

theorem precedes_commit (hi : w.heap? i = some h) {r : Reclamation}
    (hh : h.Precedes w.nextCell r.heap) : w.Precedes (w.commit i r).1 :=
  (precedes_setHeap hi hh).trans (.of_heaps rfl rfl)

theorem precedes_reclaim (w : World) (i : HeapId) {work : Heap → Reclamation}
    (hw : ∀ h : Heap, h.Precedes w.nextCell (work h).heap) :
    w.Precedes (w.reclaim i work).1 := by
  unfold reclaim
  split
  · exact .refl w
  · rename_i h hi
    exact precedes_commit hi (hw h)

theorem precedes_doChore (w : World) (c : Chore) : w.Precedes (w.doChore c).1 := by
  cases c with
  | dropRoot r => exact w.precedes_reclaim _ fun h => (h.changes_dropRoot r).precedes
  | dropAnchor r => exact w.precedes_reclaim _ fun h => (h.changes_dropAnchor r).precedes
  | leave e =>
      simp only [doChore, leave]
      split
      · exact .refl w
      · split
        · exact .of_heaps rfl rfl
        · exact .of_heaps rfl rfl

/-- A step that places a value uses the next number. -/
theorem precedes_place (hi : w.heap? i = some h) {c : CellId} (hc : c.number = w.nextCell)
    (v : Value Handle) :
    w.Precedes ({ w with nextCell := w.nextCell + 1 }.commit i (h.place c v).2).1 := by
  have hplace := precedes_commit hi (h.precedes_place (Nat.le_of_eq hc.symm) v)
  exact ⟨Nat.le_succ _, hplace.heaps⟩

theorem Move.precedes {P : Permit} (hm : Move P w w') : w.Precedes w' := by
  cases hm with
  | chore c => exact w.precedes_doChore c
  | register hi c => exact precedes_setHeap hi (Heap.changes_register _ c).precedes
  | place hi hc v => exact precedes_place hi (by rw [hc]) v
  | store _ hi c v => exact precedes_setHeap hi (Heap.changes_swap _ c v).precedes
  | commit _ hi hw => exact precedes_commit hi hw.changes.precedes
  | collectNow _ hi => exact precedes_commit hi (Heap.changes_collectNow _).precedes
  | scopes envs nextEnv => exact .of_heaps rfl rfl

theorem Moves.precedes {P : Permit} (hm : Moves P w w') : w.Precedes w' :=
  hm.lift Precedes.refl Precedes.trans Move.precedes

end World

/-- What happens to a world at a moment is a move, or its events are forgotten. -/
theorem Moment.Step.moves {m m' : Moment} (hs : Step m m') :
    World.Moves .all m.world m'.world ∨ m'.world = { m.world with events := [] } := by
  cases hs with
  | permute hp => exact .inl (.refl _)
  | chore c => exact .inl (.single (.chore _ c))
  | root hi hl => exact .inl (.single (.register hi _))
  | place hi ho hc => exact .inl (.single (.place hi hc _))
  | swap hi ho => exact .inl (.single (.store trivial hi _ _))
  | finishWrite hi => exact .inl (.single (.commit trivial hi (.finishWrite _)))
  | write hi hl ht hw => exact .inl (.single (.commit trivial hi (.write hw)))
  | append hi hl ht hw => exact .inl (.single (.commit trivial hi (.append hw)))
  | collectNow hi => exact .inl (.single (.collectNow trivial hi))
  | shareEnv he => exact .inl (World.moves_shareEnv _ _)
  | newEnv hp => exact .inl (World.moves_newEnv _ _)
  | rebind he => exact .inl (World.moves_rebind _ _ _ _)
  | forgetEvents => exact .inr rfl

/-- Whatever happens to a world, nothing comes back and no fault is forgotten. -/
theorem Moment.Step.precedes {m m' : Moment} (hs : Step m m') : m.world.Precedes m'.world := by
  rcases hs.moves with hmoves | hforgotten
  · exact hmoves.precedes
  · rw [hforgotten]
    exact .of_heaps rfl rfl

end HybridHeap
