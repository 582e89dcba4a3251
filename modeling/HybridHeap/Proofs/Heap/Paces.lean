import Mathlib.Data.List.Basic
import HybridHeap.Heap.Basic

/-!
The pace of collections, read off a record of what a heap has done. Only placements bring
cells, a collection ends with at most as many cells as its record says, and the threshold
moves only then, to one and a half times that number if it is not there already. So after
a collection the heap has to gain more cells than it has room for before the threshold can
start the next one.
-/

namespace HybridHeap

/-- An entry in the record of a heap: a cell was placed, or the heap reports an event. -/
inductive Note
  | placed
  | event (e : Event)
  deriving DecidableEq

/-- The number of cells that a finished collection has left. -/
def Note.left? : Note → Option Nat
  | event (.collected _ after _ _ _) => some after
  | _ => none

/-- The threshold after a collection that has left so many cells. -/
def raised (capacity left : Nat) : Nat :=
  max capacity (left + left / 2)

/-- `Paces n k notes n' k'` says that a heap with at most `n` cells and the threshold `k`
can do what the notes say, and that it has then at most `n'` cells and the threshold
`k'`. -/
inductive Paces : Nat → Nat → List Note → Nat → Nat → Prop
  | nil {n n' : Nat} (k : Nat) (hn : n' ≤ n) : Paces n k [] n' k
  | placed {n k n' k' : Nat} {notes : List Note} (hp : Paces (n + 1) k notes n' k') :
      Paces n k (.placed :: notes) n' k'
  | freed {n k n' k' : Nat} {notes : List Note} (c : CellId) (hp : Paces n k notes n' k') :
      Paces n k (.event (.freed c) :: notes) n' k'
  | triggered {n k live n' k' : Nat} {notes : List Note} (hk : k < live) (hl : live ≤ n)
      (hp : Paces n k notes n' k') : Paces n k (.event (.triggered live k) :: notes) n' k'
  | collected {n k n' k' : Nat} {notes : List Note} (before left swept traced : Nat)
      (hp : Paces left (raised k left) notes n' k') :
      Paces n k (.event (.collected before left swept traced (raised k left)) :: notes) n' k'

namespace Paces

variable {n m k n' k' : Nat} {notes notes' : List Note}

/-- More cells at the start do no harm to a bound. -/
theorem mono (hp : Paces n k notes n' k') (hn : n ≤ m) : Paces m k notes n' k' := by
  induction hp generalizing m with
  | nil k hn' => exact .nil k (Nat.le_trans hn' hn)
  | placed _ ih => exact .placed (ih (Nat.succ_le_succ hn))
  | freed c _ ih => exact .freed c (ih hn)
  | triggered hk hl _ ih => exact .triggered hk (Nat.le_trans hl hn) (ih hn)
  | collected before left swept traced hp => exact .collected before left swept traced hp

theorem append {n₁ k₁ : Nat} (hp : Paces n k notes n₁ k₁) (hp' : Paces n₁ k₁ notes' n' k') :
    Paces n k (notes ++ notes') n' k' := by
  induction hp with
  | nil k hn => exact hp'.mono hn
  | placed _ ih => exact .placed (ih hp')
  | freed c _ ih => exact .freed c (ih hp')
  | triggered hk hl _ ih => exact .triggered hk hl (ih hp')
  | collected before left swept traced _ ih => exact .collected before left swept traced (ih hp')

theorem split (hp : Paces n k (notes ++ notes') n' k') :
    ∃ n₁ k₁, Paces n k notes n₁ k₁ ∧ Paces n₁ k₁ notes' n' k' := by
  induction notes generalizing n k with
  | nil => exact ⟨n, k, .nil k (Nat.le_refl n), hp⟩
  | cons note notes ih =>
      cases hp with
      | placed hp =>
          obtain ⟨n₁, k₁, hfirst, hrest⟩ := ih hp
          exact ⟨n₁, k₁, .placed hfirst, hrest⟩
      | freed c hp =>
          obtain ⟨n₁, k₁, hfirst, hrest⟩ := ih hp
          exact ⟨n₁, k₁, .freed c hfirst, hrest⟩
      | triggered hk hl hp =>
          obtain ⟨n₁, k₁, hfirst, hrest⟩ := ih hp
          exact ⟨n₁, k₁, .triggered hk hl hfirst, hrest⟩
      | collected before left swept traced hp =>
          obtain ⟨n₁, k₁, hfirst, hrest⟩ := ih hp
          exact ⟨n₁, k₁, .collected before left swept traced hfirst, hrest⟩

/-- The threshold is where it was at first, or where the collections have raised it to. -/
theorem capacity_eq (hp : Paces n k notes n' k') :
    k' = (notes.filterMap Note.left?).foldl raised k := by
  induction hp with
  | nil k _ => rfl
  | placed _ ih => exact ih
  | freed c _ ih => exact ih
  | triggered _ _ _ ih => exact ih
  | collected before left swept traced _ ih => exact ih

theorem capacity_le (hp : Paces n k notes n' k') : k ≤ k' := by
  induction hp with
  | nil k _ => exact Nat.le_refl k
  | placed _ ih => exact ih
  | freed c _ ih => exact ih
  | triggered _ _ _ ih => exact ih
  | collected before left swept traced _ ih => exact Nat.le_trans (Nat.le_max_left _ _) ih

/-- Without a collection the threshold stays, and no more cells come than are placed. -/
theorem steady (hp : Paces n k notes n' k') (hnone : notes.filterMap Note.left? = []) :
    k' = k ∧ n' ≤ n + notes.count .placed := by
  induction hp with
  | nil k hn => exact ⟨rfl, Nat.le_add_right_of_le hn⟩
  | placed _ ih =>
      obtain ⟨hk, hn⟩ := ih hnone
      refine ⟨hk, ?_⟩
      rw [List.count_cons_self]
      omega
  | freed c _ ih =>
      obtain ⟨hk, hn⟩ := ih hnone
      exact ⟨hk, by rwa [List.count_cons_of_ne (by simp)]⟩
  | triggered _ _ _ ih =>
      obtain ⟨hk, hn⟩ := ih hnone
      exact ⟨hk, by rwa [List.count_cons_of_ne (by simp)]⟩
  | collected before left swept traced _ _ => cases hnone

/-- Between a collection and a trigger, with no other collection in between, more cells
are placed than the collection has left room for. -/
theorem spaced {before left swept traced capacity live limit : Nat} {mid post : List Note}
    (hp : Paces n k (.event (.collected before left swept traced capacity) ::
      (mid ++ .event (.triggered live limit) :: post)) n' k')
    (hnone : mid.filterMap Note.left? = []) :
    left + left / 2 ≤ capacity ∧ capacity + 1 ≤ left + mid.count .placed := by
  cases hp with
  | collected _ _ _ _ hp =>
      obtain ⟨n₁, k₁, hmid, hpost⟩ := hp.split
      obtain ⟨rfl, hn⟩ := hmid.steady hnone
      cases hpost with
      | triggered hk hl _ =>
          rw [raised] at hk ⊢
          omega

end Paces

end HybridHeap
