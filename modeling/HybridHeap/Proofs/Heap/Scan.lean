import Mathlib.Algebra.GroupWithZero.Nat
import Mathlib.Data.List.Nodup
import HybridHeap.Proofs.Heap.Collect

/-!
The mark loop turn by turn. A turn takes the topmost cell off the stack; the cell is
scanned if it has no mark yet, and passed over otherwise, so that duplicates on the stack
cost a turn but no scan. Every push is one turn, which bounds every run of the loop by the
number of roots and of slots of the cells reached.
-/

namespace HybridHeap

namespace Heap

/-- One turn of the mark loop, and the cell that it scans, if any. -/
inductive Turn : Heap × MarkStack → Option CellId → Heap × MarkStack → Prop
  | absent {h : Heap} {s s' : MarkStack} {c : CellId} (hp : s.pop? = some (c, s'))
      (hf : h.find? c = none) : Turn (h, s) none (h.fault (.absentCell c), s')
  | skip {h : Heap} {s s' : MarkStack} {c : CellId} {cell : Cell} (hp : s.pop? = some (c, s'))
      (hf : h.find? c = some cell) (hm : cell.marked = true) : Turn (h, s) none (h, s')
  | scan {h : Heap} {s s' : MarkStack} {c : CellId} {cell : Cell} (hp : s.pop? = some (c, s'))
      (hf : h.find? c = some cell) (hm : cell.marked = false) :
      Turn (h, s) (some c) (h.setMark c, s'.pushAll cell.value.targets)

/-- Turns one after the other, how many they are, and the cells that they scan, in order. -/
inductive Turns : Heap × MarkStack → Nat → List CellId → Heap × MarkStack → Prop
  | none {s : Heap × MarkStack} : Turns s 0 [] s
  | cons {s s₁ s₂ : Heap × MarkStack} {now : Option CellId} {n : Nat} {later : List CellId}
      (ht : Turn s now s₁) (hts : Turns s₁ n later s₂) : Turns s (n + 1) (now.toList ++ later) s₂

/-- The mark stack as a collection fills it before the loop. -/
def rootStack (h : Heap) : MarkStack :=
  MarkStack.pushAll {} h.rootTargets

/-- A scan is a run of the loop up to an empty stack. -/
theorem turns_scan (h : Heap) (s : MarkStack) :
    ∃ n scanned, Turns (h, s) n scanned (h.scan s) ∧ (h.scan s).2.cells = [] := by
  fun_induction scan h s with
  | case1 h s hs =>
      refine ⟨0, [], .none, ?_⟩
      unfold MarkStack.pop? at hs
      split at hs
      · assumption
      · cases hs
  | case2 h s c s' hs hf ih =>
      obtain ⟨n, scanned, hrun, hend⟩ := ih
      exact ⟨n + 1, _, .cons (.absent hs hf) hrun, hend⟩
  | case3 h s c s' hs cell hf hm ih =>
      obtain ⟨n, scanned, hrun, hend⟩ := ih
      exact ⟨n + 1, _, .cons (.skip hs hf hm) hrun, hend⟩
  | case4 h s c s' hs cell hf hm ih =>
      obtain ⟨n, scanned, hrun, hend⟩ := ih
      exact ⟨n + 1, _, .cons (.scan hs hf (Bool.eq_false_iff.mpr hm)) hrun, hend⟩

theorem Turns.append {s s₁ s₂ : Heap × MarkStack} {n m : Nat} {scanned later : List CellId}
    (h₁ : Turns s n scanned s₁) (h₂ : Turns s₁ m later s₂) :
    Turns s (n + m) (scanned ++ later) s₂ := by
  induction h₁ with
  | none =>
      rw [Nat.zero_add]
      exact h₂
  | cons ht _ ih =>
      rw [List.append_assoc, Nat.add_right_comm]
      exact .cons ht (ih h₂)

/-- How many references the slots of some cells hold together. -/
def slotsOf (h : Heap) (cells : List CellId) : Nat :=
  (cells.map fun c => (h.read c).targets.length).sum

/-- The state of the loop after `n` turns that scanned the given cells. Every push was either taken
off again by a turn or is still on the stack, and every push came from a root or from a
slot of a cell scanned. -/
structure Seen (h₀ : Heap) (s : Heap × MarkStack) (n : Nat) (scanned : List CellId) : Prop where
  scanning : Scanning h₀ s.1 s.2.cells
  sized : s.2.Sized
  nodup : scanned.Nodup
  marked : ∀ c, s.1.isMarked c = true ↔ c ∈ scanned
  turns : s.2.pushed = n + s.2.cells.length
  pushed : s.2.pushed = h₀.rootTargets.length + h₀.slotsOf scanned

end Heap

theorem MarkStack.pushed_pushAll (s : MarkStack) (cs : List CellId) :
    (s.pushAll cs).pushed = s.pushed + cs.length := by
  induction cs generalizing s with
  | nil => rfl
  | cons c cs ih =>
      rw [pushAll, List.foldl_cons, ← pushAll, ih]
      simp only [push, List.length_cons]
      omega

theorem MarkStack.pushed_pop? {s s' : MarkStack} {c : CellId} (h : s.pop? = some (c, s')) :
    s'.pushed = s.pushed := by
  unfold pop? at h
  split at h
  · cases h
  · cases h
    rfl

namespace Heap

variable {h₀ h : Heap} {s s' : Heap × MarkStack} {n k : Nat} {scanned later : List CellId}

theorem not_isMarked (hs : h.objects.Sound) (hu : h.Unmarked) (c : CellId) :
    h.isMarked c = false := by
  rw [isMarked]
  cases hf : h.find? c with
  | none => rfl
  | some cell => exact hu _ (hs.find?_eq_some_iff.mp hf)

/-- Before the first turn the roots are on the stack and nothing is marked. -/
theorem Closed.seen_start (hc : h.Closed) (hu : h.Unmarked) : Seen h (h, h.rootStack) 0 [] := by
  have hcells : h.rootStack.cells = h.rootTargets.reverse := by
    rw [rootStack, MarkStack.cells_pushAll, List.append_nil]
  have hno : ∀ c, h.isMarked c ≠ true := fun c => by simp [not_isMarked hc.sound hu c]
  have hpushed : h.rootStack.pushed = h.rootTargets.length := by
    rw [rootStack, MarkStack.pushed_pushAll, Nat.zero_add]
  constructor
  · rw [hcells]
    exact {
      remarked := .refl hc.sound
      reached_of_isMarked := fun c hm => absurd hm (hno c)
      reached_of_mem := fun c hm => .source (List.mem_reverse.mp hm)
      roots := fun c hm => .inr (List.mem_reverse.mpr hm)
      targets := fun c _ _ hm => absurd hm (hno c) }
  · exact MarkStack.Sized.pushAll (s := {}) rfl _
  · exact List.nodup_nil
  · simp [hno]
  · rw [hcells, hpushed, List.length_reverse, Nat.zero_add]
  · exact hpushed

/-- A cell that is passed over costs a turn. -/
theorem Seen.skip {t t' : MarkStack} {c : CellId} (hs : Seen h₀ (h, t) n scanned)
    (hp : t.pop? = some (c, t')) (hm : h.isMarked c = true) : Seen h₀ (h, t') (n + 1) scanned := by
  obtain ⟨hcells, hsized⟩ := MarkStack.pop?_eq_some hp
  have hscanning := hs.scanning
  have hturns := hs.turns
  have hpushed := hs.pushed
  simp only [hcells, ← MarkStack.pushed_pop? hp, List.length_cons] at hscanning hturns hpushed
  exact {
    scanning := hscanning.skip hm
    sized := hsized hs.sized
    nodup := hs.nodup
    marked := hs.marked
    turns := by
      show t'.pushed = n + 1 + t'.cells.length
      omega
    pushed := hpushed }

/-- A cell that is scanned has not been scanned before, and all that its slots refer to is
pushed. -/
theorem Seen.visit {t t' : MarkStack} {c : CellId} {cell : Cell} (hs : Seen h₀ (h, t) n scanned)
    (hp : t.pop? = some (c, t')) (hf : h.find? c = some cell) (hm : cell.marked = false) :
    Seen h₀ (h.setMark c, t'.pushAll cell.value.targets) (n + 1) (scanned ++ [c]) := by
  obtain ⟨hcells, hsized⟩ := MarkStack.pop?_eq_some hp
  have hscanning := hs.scanning
  have hturns := hs.turns
  have hpushed := hs.pushed
  simp only [hcells, ← MarkStack.pushed_pop? hp, List.length_cons] at hscanning hturns hpushed
  have hfresh : c ∉ scanned := fun hmem => by
    have := (hs.marked c).mpr hmem
    rw [isMarked, hf, Option.any_some, hm] at this
    cases this
  have hread : h₀.read c = cell.value := by
    obtain ⟨old, hold, hvalue⟩ := hscanning.remarked.find?_of_find? hf
    rw [read, hold]
    exact hvalue
  constructor
  case scanning =>
    refine hscanning.visit hf fun d => ?_
    rw [MarkStack.cells_pushAll]
    simp
  case sized => exact (hsized hs.sized).pushAll _
  case nodup =>
    rw [← List.concat_eq_append]
    exact hs.nodup.concat hfresh
  case marked =>
    intro d
    rw [isMarked_setMark ⟨cell, hf⟩, List.mem_append, List.mem_singleton, ← hs.marked]
    simp [or_comm]
  case turns =>
    simp only [MarkStack.pushed_pushAll, MarkStack.cells_pushAll, List.length_append,
      List.length_reverse]
    omega
  case pushed =>
    simp only [MarkStack.pushed_pushAll, slotsOf, List.map_append, List.map_cons, List.map_nil,
      List.sum_append, List.sum_cons, List.sum_nil, hread] at hpushed ⊢
    omega

/-- A turn on a heap without dangling references. -/
theorem Turn.seen {now : Option CellId} (hc : h₀.Closed) (ht : Turn s now s')
    (hs : Seen h₀ s n scanned) : Seen h₀ s' (n + 1) (scanned ++ now.toList) := by
  cases ht with
  | @absent h t t' c hp hf =>
      obtain ⟨hcells, -⟩ := MarkStack.pop?_eq_some hp
      -- a cell on the stack is reached, and what is reached is alive
      have hreach : h₀.Reached c := hs.scanning.reached_of_mem c (hcells ▸ List.mem_cons_self)
      obtain ⟨cell, hcell⟩ := hs.scanning.remarked.live (hc.live_of_reached hreach)
      simp [hf] at hcell
  | skip hp hf hm =>
      rw [Option.toList_none, List.append_nil]
      exact hs.skip hp (by rw [isMarked, hf, Option.any_some, hm])
  | scan hp hf hm => exact hs.visit hp hf hm

/-- Turns preserve what is known about the loop. -/
theorem Turns.seen (hc : h₀.Closed) (hts : Turns s k later s') (hs : Seen h₀ s n scanned) :
    Seen h₀ s' (n + k) (scanned ++ later) := by
  induction hts generalizing n scanned with
  | none =>
      rw [Nat.add_zero, List.append_nil]
      exact hs
  | @cons s s₁ s₂ now k later ht _ ih =>
      have hnext := ih (ht.seen hc hs)
      rw [List.append_assoc, Nat.add_assoc, Nat.add_comm 1 k] at hnext
      exact hnext

/-- At the end of the loop every cell reached has been scanned. -/
theorem Seen.perm (hc : h₀.Closed) (hs : Seen h₀ s n scanned) (he : s.2.cells = []) :
    scanned.Perm (h₀.reachedCells.map Prod.fst) := by
  have hscanning := hs.scanning
  rw [he] at hscanning
  have hdistinct : (h₀.reachedCells.map Prod.fst).Nodup :=
    hc.sound.nodup.sublist (List.filter_sublist.map _)
  refine (List.perm_ext_iff_of_nodup hs.nodup hdistinct).mpr fun c => ?_
  rw [← hs.marked, hscanning.isMarked_iff, List.mem_map]
  constructor
  · intro hr
    obtain ⟨cell, hf⟩ := hc.live_of_reached hr
    exact ⟨(c, cell), mem_reachedCells.mpr ⟨hc.sound.find?_eq_some_iff.mp hf, hr⟩, rfl⟩
  · rintro ⟨p, hp, rfl⟩
    exact (mem_reachedCells.mp hp).2

/-- At the end of the loop there was one turn for each root and for each slot of a cell
reached that is not null. -/
theorem Seen.turns_eq (hc : h₀.Closed) (hs : Seen h₀ s n scanned) (he : s.2.cells = []) :
    n = h₀.rootTargets.length +
      (h₀.reachedCells.map fun p => p.2.value.targets.length).sum := by
  have hturns := hs.turns
  have hslots : h₀.slotsOf scanned =
      (h₀.reachedCells.map fun p => p.2.value.targets.length).sum := by
    rw [slotsOf, ((hs.perm hc he).map _).sum_nat, List.map_map]
    congr 1
    refine List.map_congr_left fun p hp => ?_
    have hf : h₀.find? p.1 = some p.2 :=
      hc.sound.find?_eq_some_iff.mpr (mem_reachedCells.mp hp).1
    rw [Function.comp_apply, read, hf]
  rw [he, List.length_nil, Nat.add_zero, hs.pushed, hslots] at hturns
  exact hturns.symm

section Marking

variable (hc : h.Closed) (hu : h.Unmarked)
include hc hu

/-- The scan that marking makes is a run of the loop from the roots to an empty stack. -/
theorem seen_scan : ∃ n scanned, Turns (h, h.rootStack) n scanned (h.scan h.rootStack) ∧
    (h.scan h.rootStack).2.cells = [] ∧ Seen h (h.scan h.rootStack) n scanned := by
  obtain ⟨n, scanned, hrun, hend⟩ := turns_scan h h.rootStack
  have hseen := hrun.seen hc (hc.seen_start hu)
  rw [Nat.zero_add, List.nil_append] at hseen
  exact ⟨n, scanned, hrun, hend, hseen⟩

theorem mark_eq_scan (hd : h.deferred = []) :
    h.mark =
      { heap := (h.scan h.rootStack).1, pending := [],
        traced := (h.scan h.rootStack).2.pushed } := by
  obtain ⟨n, scanned, -, hend, hseen⟩ := seen_scan hc hu
  have hsize : (h.scan h.rootStack).2.size = 0 := hseen.sized.trans (by rw [hend]; rfl)
  have hempty : { h with deferred := [] } = h := by rw [← hd]
  simp only [mark, hd, hempty, scanQueued]
  exact congrArg (Marking.mk · [] _) (if_pos hsize)

/-- The total reported counts each root once and each slot that is not null of a cell
reached. -/
theorem traced_mark (hd : h.deferred = []) : h.mark.traced = h.roots.toList.length +
    (h.reachedCells.map fun p => p.2.value.targets.length).sum := by
  obtain ⟨n, scanned, -, hend, hseen⟩ := seen_scan hc hu
  have hturns := hseen.turns
  rw [hend, List.length_nil, Nat.add_zero, hseen.turns_eq hc hend, rootTargets,
    List.length_map] at hturns
  rw [mark_eq_scan hc hu hd]
  exact hturns

end Marking

end Heap

end HybridHeap
