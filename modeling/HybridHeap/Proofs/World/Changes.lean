import HybridHeap.Proofs.Heap.Changes
import HybridHeap.Proofs.World.Moment

/-!
What becomes of the heaps of a world. `World.HeapsTurn R` lifts a relation between a heap
and what becomes of it to all heaps of a world; the doing of chores is a sequence of
changes on every heap.
-/

namespace HybridHeap

namespace World

variable {w w' w'' : World} {i : HeapId} {h : Heap} {R : Heap → Heap → Prop}

/-- Every heap of `w` is still there in `w'`, and `R` says what has become of it. -/
def HeapsTurn (R : Heap → Heap → Prop) (w w' : World) : Prop :=
  ∀ i, Option.Rel R (w.heap? i) (w'.heap? i)

/-- One thing after another becomes of a heap. -/
theorem rel_trans {S T : Heap → Heap → Prop} {a b c : Option Heap} (hab : Option.Rel R a b)
    (hbc : Option.Rel S b c) (htrans : ∀ {h h' h''}, R h h' → S h' h'' → T h h'') :
    Option.Rel T a c := by
  cases hab with
  | none =>
      cases hbc
      exact .none
  | some hr =>
      cases hbc with
      | some hr' => exact .some (htrans hr hr')

/-- Another heap in the place of the heap `i`, as seen from the heap `j`. -/
theorem rel_setHeap (hrefl : ∀ h, R h h) (hi : w.heap? i = some h) {h' : Heap} {j : HeapId}
    (hr : i = j → R h h') : Option.Rel R (w.heap? j) ((w.setHeap i h').heap? j) := by
  by_cases hij : i = j
  · subst hij
    rw [hi, heap?_setHeap_self hi]
    exact .some (hr rfl)
  · rw [heap?_setHeap_of_ne hij]
    cases w.heap? j with
    | none => exact .none
    | some k => exact .some (hrefl k)

namespace HeapsTurn

theorem of_heaps (hrefl : ∀ h, R h h) (hh : w'.heaps = w.heaps) : HeapsTurn R w w' := by
  intro i
  rw [heap?, heap?, hh]
  cases w.heaps[i]? with
  | none => exact .none
  | some h => exact .some (hrefl h)

theorem trans (htrans : ∀ {h h' h''}, R h h' → R h' h'' → R h h'') (hw : HeapsTurn R w w')
    (hw' : HeapsTurn R w' w'') : HeapsTurn R w w'' :=
  fun i => rel_trans (hw i) (hw' i) htrans

theorem imp {S : Heap → Heap → Prop} (himp : ∀ {h h'}, R h h' → S h h') (hw : HeapsTurn R w w') :
    HeapsTurn S w w' := by
  intro i
  have hi := hw i
  generalize w.heap? i = a at hi ⊢
  generalize w'.heap? i = b at hi ⊢
  cases hi with
  | none => exact .none
  | some hr => exact .some (himp hr)

/-- Another heap in the place of the heap `i`. -/
theorem setHeap (hrefl : ∀ h, R h h) (hi : w.heap? i = some h) {h' : Heap} (hr : R h h') :
    HeapsTurn R w (w.setHeap i h') :=
  fun _ => rel_setHeap hrefl hi fun _ => hr

theorem commit (hrefl : ∀ h, R h h) (hi : w.heap? i = some h) {r : Reclamation}
    (hr : R h r.heap) : HeapsTurn R w (w.commit i r).1 :=
  setHeap hrefl hi hr

theorem exists_of_some (hw : HeapsTurn R w w') (hi : w.heap? i = some h) :
    ∃ h', w'.heap? i = some h' ∧ R h h' := by
  have hrel := hw i
  rw [hi] at hrel
  generalize w'.heap? i = b at hrel
  cases hrel with
  | some hr => exact ⟨_, rfl, hr⟩

theorem exists_of_some_right (hw : HeapsTurn R w w') {h' : Heap} (hi : w'.heap? i = some h') :
    ∃ h, w.heap? i = some h ∧ R h h' := by
  have hrel := hw i
  rw [hi] at hrel
  generalize w.heap? i = a at hrel
  cases hrel with
  | some hr => exact ⟨_, rfl, hr⟩

end HeapsTurn

theorem heaps_leave (w : World) (e : EnvId) : (w.leave e).1.heaps = w.heaps := by
  unfold leave
  split
  · rfl
  · split <;> rfl

/-- A chore turns heaps by the drops of roots and of anchors only. -/
theorem turn_chore (hrefl : ∀ h, R h h) (hroot : ∀ (h : Heap) r, R h (h.dropRoot r).heap)
    (hanchor : ∀ (h : Heap) r, R h (h.dropAnchor r).heap) (w : World) (c : Chore) :
    HeapsTurn R w (w.doChore c).1 := by
  have hreclaim : ∀ (i : HeapId) (work : Heap → Reclamation), (∀ h, R h (work h).heap) →
      HeapsTurn R w (w.reclaim i work).1 := by
    intro i work hwork
    unfold reclaim
    split
    · exact .of_heaps hrefl rfl
    · rename_i h hi
      exact .commit hrefl hi (hwork h)
  cases c with
  | dropRoot r => exact hreclaim _ _ fun h => hroot h r
  | dropAnchor r => exact hreclaim _ _ fun h => hanchor h r
  | leave e => exact .of_heaps hrefl (w.heaps_leave e)

theorem turn_doChore (w : World) (c : Chore) : HeapsTurn Heap.Changes w (w.doChore c).1 :=
  turn_chore Heap.Changes.refl Heap.changes_dropRoot Heap.changes_dropAnchor w c

theorem turn_settle (w : World) (chores : List Chore) :
    HeapsTurn Heap.Changes w (w.settle chores) := by
  fun_induction settle w chores with
  | case1 w => exact .of_heaps Heap.Changes.refl rfl
  | case2 w c rest ih => exact (w.turn_doChore c).trans Heap.Changes.trans ih

end World

end HybridHeap
