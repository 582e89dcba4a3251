import HybridHeap.Proofs.Heap.History
import HybridHeap.Proofs.Heap.Threshold
import HybridHeap.Proofs.World.Changes
import HybridHeap.Proofs.World.Moves

/-!
A heap that is not worked on does not change unseen. Work on another heap reaches it through
chores, new roots and new cells only, and each of these takes a ticket, takes an entry off
the root list, or puts a fault on record.
-/

namespace HybridHeap

namespace Heap

/-- How many tickets were issued so far. -/
def issued (h : Heap) : Nat :=
  h.nextTicket

/-- Between `h` and `h'` tickets were issued, or else a check has failed, or else entries
were taken off the root list. -/
def Ages (h h' : Heap) : Prop :=
  h.issued < h'.issued ∨ h'.issued = h.issued ∧
    (h.faults.length < h'.faults.length ∨
      h'.faults.length = h.faults.length ∧ h'.roots.length < h.roots.length)

/-- A heap is the same, or has aged. -/
def Rests (h h' : Heap) : Prop :=
  h' = h ∨ h.Ages h'

variable {h h' h'' : Heap}

theorem Ages.trans (ha : h.Ages h') (ha' : h'.Ages h'') : h.Ages h'' := by
  unfold Ages at ha ha' ⊢
  omega

theorem Rests.refl (h : Heap) : h.Rests h :=
  .inl rfl

theorem Rests.trans (hr : h.Rests h') (hr' : h'.Rests h'') : h.Rests h'' := by
  rcases hr with rfl | ha
  · exact hr'
  · rcases hr' with rfl | ha'
    · exact .inr ha
    · exact .inr (ha.trans ha')

theorem Rests.nextTicket_le (hr : h.Rests h') : h.nextTicket ≤ h'.nextTicket := by
  rcases hr with rfl | ha
  · exact Nat.le_refl _
  · rcases ha with hlt | ⟨he, -⟩
    · exact Nat.le_of_lt hlt
    · exact Nat.le_of_eq he.symm

/-- Nothing that leaves the root list alone makes a heap younger. -/
theorem Ages.rework (ha : h.Ages h') (hw : h'.Reworks h'') : h.Ages h'' := by
  obtain ⟨hroots, hticket⟩ := hw.listed
  have hissued : h''.issued = h'.issued := hticket
  have hfaults : h'.faults.length ≤ h''.faults.length :=
    (hw.changes.precedes (n := 0)).faults.length_le
  have hlength : h''.roots.length = h'.roots.length := congrArg LinkedMap.length hroots
  unfold Ages at ha ⊢
  omega

variable (h : Heap)

theorem ages_unroot (r : Root) : h.Ages (h.unroot r) := by
  unfold unroot
  split
  · rename_i roots hr
    have hlength := LinkedMap.length_remove hr
    exact .inr ⟨rfl, .inr ⟨rfl, by dsimp only; omega⟩⟩
  · exact .inr ⟨rfl, .inl (Nat.lt_succ_self _)⟩

theorem ages_dropRoot (r : Root) : h.Ages (h.dropRoot r).heap :=
  (h.ages_unroot r).rework (h.reworks_dropRoot r)

theorem ages_dropAnchor (r : Root) : h.Ages (h.dropAnchor r).heap :=
  (h.ages_unroot r).rework (h.reworks_dropAnchor r)

theorem issued_register (c : CellId) : (h.register c).1.issued = h.issued + 1 := by
  have hretain : (h.retain c).issued = h.issued := (h.reworks_retain c).listed.2
  simp only [register]
  split <;> exact congrArg (· + 1) hretain

theorem ages_register (c : CellId) : h.Ages (h.register c).1 := by
  have hissued := h.issued_register c
  exact .inl (by omega)

theorem issued_unrootAll (rs : List Root) : (h.unrootAll rs).issued = h.issued := by
  induction rs generalizing h with
  | nil => rfl
  | cons r rs ih =>
      have hone : (h.unroot r).issued = h.issued := by
        unfold unroot
        split <;> rfl
      exact (ih (h.unroot r)).trans hone

theorem ages_place (c : CellId) (v : Value Handle) : h.Ages (h.place c v).2.heap := by
  have hlink : (h.link c v.placed).issued = h.issued := by
    unfold link
    split <;> rfl
  have hplace : (h.place c v).2.heap.issued =
      (((h.link c v.placed).register c).1.unrootAll v.anchors).issued :=
    (h.reworks_place c v).listed.2
  rw [issued_unrootAll, issued_register, hlink] at hplace
  exact .inl (by omega)

end Heap

namespace World

variable {P : Permit} {w w' : World} {j : HeapId}

/-- A heap that no move works on or asks to collect is left as it is, or it has aged. -/
theorem Move.rests (hm : Move P w w') (hj : ¬P.works j) (hj' : ¬P.collects j) :
    Option.Rel Heap.Rests (w.heap? j) (w'.heap? j) := by
  have hother : ∀ {i : HeapId}, P.works i → i ≠ j := fun hd hij => hj (hij ▸ hd)
  cases hm with
  | chore c =>
      exact turn_chore Heap.Rests.refl (fun h r => .inr (h.ages_dropRoot r))
        (fun h r => .inr (h.ages_dropAnchor r)) w c j
  | register hi c =>
      exact rel_setHeap Heap.Rests.refl hi fun _ => .inr (Heap.ages_register _ c)
  | place hi _ v =>
      exact rel_setHeap Heap.Rests.refl hi fun _ => .inr (Heap.ages_place _ _ v)
  | store hd hi c v => exact rel_setHeap Heap.Rests.refl hi fun hij => absurd hij (hother hd)
  | commit hd hi _ => exact rel_setHeap Heap.Rests.refl hi fun hij => absurd hij (hother hd)
  | collectNow ha hi =>
      exact rel_setHeap Heap.Rests.refl hi fun hij => absurd (hij ▸ ha) hj'
  | scopes envs nextEnv => exact HeapsTurn.of_heaps (w := w) Heap.Rests.refl rfl j

theorem Moves.rests (hm : Moves P w w') (hj : ¬P.works j) (hj' : ¬P.collects j) :
    Option.Rel Heap.Rests (w.heap? j) (w'.heap? j) :=
  hm.lift (R := fun w w' => Option.Rel Heap.Rests (w.heap? j) (w'.heap? j))
    (fun w => HeapsTurn.of_heaps (w := w) Heap.Rests.refl rfl j)
    (fun hw hw' => rel_trans hw hw' Heap.Rests.trans) fun hone => hone.rests hj hj'

theorem Moves.exists_heap? {h : Heap} (hm : Moves P w w') (hj : ¬P.works j)
    (hj' : ¬P.collects j) (hi : w.heap? j = some h) : ∃ h', w'.heap? j = some h' := by
  have hrel := hm.rests hj hj'
  rw [hi] at hrel
  generalize w'.heap? j = b at hrel
  cases hrel
  exact ⟨_, rfl⟩

end World

end HybridHeap
