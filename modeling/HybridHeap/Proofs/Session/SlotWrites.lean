import HybridHeap.Proofs.Heap.SlotWrites
import HybridHeap.Proofs.Mirror.Cells
import HybridHeap.Proofs.Session.Reachable
import HybridHeap.Proofs.World.Passage

/-!
Writing one slot of a cell. The slot gets its new reference, which is counted, before the
old one is given up; then the closures among the cells that go let go of their environments,
which may free more cells and start collections. All the while nothing is lost that the cell
leads to, and no other slot changes.
-/

namespace HybridHeap

namespace World

variable {w w' : World} {held : List Holding}

/-- The world with the value `v` in the cell `c` and one more reference to `t` counted; what
the old value referred to is still to be given up. -/
def rewritten (w : World) (c : CellId) (v : Value Slot) (t : Slot) : World :=
  w.modifyHeap c.heap fun h => h.rewritten c v t

/-- What a writer does that lets one slot of the cell `c` refer to `t` in place of `s`, where
`v` is the new value, `h` the heap of the cell and `rec` the work of the heap. The new
reference is counted, the old one is given up, and exactly what is orphaned by that goes with
it. From then on until everything that was freed is destroyed, the cell has its new value, all
other contents are as they were, and whatever the cell leads to is alive. -/
structure Written (w : World) (c : CellId) (t s : Slot) (v : Value Slot) (h : Heap)
    (rec : Reclamation) (w' : World) : Prop where
  retained : ∀ d, (h.rewritten c v t).countOf d = h.countOf d + t.toList.count d
  released : ∃ freed,
    (h.rewritten c v t).start.Cascade rec freed ∧
    IsLeast {S | (h.rewritten c v t).OrphanClosed h.rootTargets S} {d | d ∈ freed} ∧
    ∀ d, rec.heap.countOf d + s.toList.count d +
        (slotTargets ((h.rewritten c v t).cells.filter fun p => p.1 ∈ freed)).count d =
      h.countOf d + t.toList.count d
  passed : ∀ w₁, (w.commit c.heap rec).1.Passes rec.payloads w₁ →
    w₁.readCell c = v ∧ (∀ n, n ≠ .cell c → w.Keeps w₁ n) ∧ (∀ d ∈ t, w₁.Live d) ∧
      ∀ n, (w.rewritten c v t).Leads (.cell c) n → w₁.Alive n
  ended : (w.commit c.heap rec).1.Passes rec.payloads w'

section Writes

variable {c : CellId} {h : Heap} {cell : Cell} {s t : Slot} {v : Value Slot} {rec : Reclamation}

theorem rewritten_eq (hi : w.heap? c.heap = some h) :
    w.rewritten c v t = w.setHeap c.heap (h.rewritten c v t) := by
  simp [rewritten, modifyHeap, hi]

/-- Only the cell that is written gets another value. -/
theorem Balanced.keeps_rewritten (hb : w.Balanced held none) (hi : w.heap? c.heap = some h)
    (ht : ∀ d ∈ t, h.Live d) (v : Value Slot) {n : Node} (hn : n ≠ .cell c) :
    w.Keeps (w.rewritten c v t) n := by
  rw [rewritten_eq hi]
  refine keeps_setHeap hi fun d hd cell' hf' => ?_
  subst hd
  have hne : d ≠ c := fun he => hn (congrArg Node.cell he)
  have hheap := hb.heap _ h hi
  rw [writeIn_none] at hheap
  obtain ⟨hc, hcells, -⟩ := hheap.retainSlot ht
  rw [Heap.rewritten, Heap.setValue, Heap.find?_modifyCell, if_neg hne] at hf'
  exact Heap.find?_of_uncounted hc hheap.counted hcells.symm hf'

theorem Balanced.readCell_rewritten (hb : w.Balanced held none) (hi : w.heap? c.heap = some h)
    (hf : h.find? c = some cell) (ht : ∀ d ∈ t, h.Live d) (v : Value Slot) :
    (w.rewritten c v t).Live c ∧ (w.rewritten c v t).readCell c = v := by
  have hheap := hb.heap _ h hi
  rw [writeIn_none] at hheap
  obtain ⟨hc, hcells, -⟩ := hheap.retainSlot ht
  obtain ⟨cell', hf', -⟩ := Heap.find?_of_uncounted hheap.counted hc hcells hf
  have hnew : (h.rewritten c v t).find? c = some { cell' with value := v } := by
    rw [Heap.rewritten, Heap.setValue, Heap.find?_modifyCell, if_pos rfl, hf']
    rfl
  rw [rewritten_eq hi]
  have hself := heap?_setHeap_self hi (h.rewritten c v t)
  exact ⟨⟨_, hself, _, hnew⟩, by simp only [readCell, hself, Heap.read, hnew]⟩

/-- What the work of the heap frees is all that changes in the world that was written. -/
theorem Balanced.keeps_written (hb : w.Balanced held none) (hi : w.heap? c.heap = some h)
    (hf : h.find? c = some cell) (ht : ∀ d ∈ t, h.Live d)
    (hn : ∀ d, s.toList.count d + v.targets.count d =
      t.toList.count d + cell.value.targets.count d)
    (hr : rec = ((h.rewritten c v t).defer s.toList).finishWrite []) (n : Node) :
    (w.rewritten c v t).Keeps (w.commit c.heap rec).1 n := by
  have hheap := hb.heap _ h hi
  rw [writeIn_none] at hheap
  obtain ⟨hbal, hthin, -⟩ := hheap.rewrite hf ht hn
  have hkeeps := keeps_commit (heap?_setHeap_self hi (h.rewritten c v t)) hthin rfl
    (hheap.counted_rewritten hf ht hn) hbal.counted n
  rw [commit_setHeap] at hkeeps
  rw [rewritten_eq hi, hr]
  exact hkeeps

/-- The target of an owned handle that passed the check is alive in the heap. -/
theorem Balanced.live_of_owned {x : Handle} {i : HeapId} (hb : w.Balanced held none)
    (hx : Owned held x) (hi : w.heap? i = some h) (hsame : ∀ d ∈ x.target, d.heap = i) :
    ∀ d ∈ x.target, h.Live d := by
  intro d hd
  have hheap := hsame d hd
  obtain ⟨a, ha, rfl⟩ := Option.map_eq_some_iff.mp hd
  obtain ⟨k, hk, hl⟩ := hb.live (hx a ha)
  rw [hheap, hi, Option.some.injEq] at hk
  exact hk ▸ hl

theorem Balanced.written {r : Root} {x : Handle} (hb : w.Balanced held none)
    (hroot : .root r ∈ held) (hx : Owned held x) (hi : w.heap? r.cell.heap = some h)
    (hf : h.find? r.cell = some cell) (hsame : ∀ d ∈ x.target, d.heap = r.cell.heap)
    (he : v.env? = cell.value.env?)
    (hn : ∀ d, s.toList.count d + v.targets.count d =
      x.target.toList.count d + cell.value.targets.count d)
    (hr : rec = ((h.rewritten r.cell v x.target).defer s.toList).finishWrite []) :
    w.Written r.cell x.target s v h rec (w.finish r.cell.heap rec) := by
  have hheap := hb.heap _ h hi
  rw [writeIn_none] at hheap
  have ht := hb.live_of_owned hx hi hsame
  constructor
  case retained =>
    intro d
    rw [Heap.rewritten, Heap.countOf_setValue, hheap.countOf_retainSlot ht]
  case released =>
    obtain ⟨freed, hcascade, hleast, hcount⟩ := hheap.cascade_rewrite hf ht hn
    rw [← hr] at hcascade hcount
    refine ⟨freed, hcascade, hleast, fun d => ?_⟩
    rw [hcount, Heap.rewritten, Heap.countOf_setValue, hheap.countOf_retainSlot ht]
  case passed =>
    intro w₁ hp
    obtain ⟨hs, held', hb₁⟩ := Balanced.passes hp (hb.rewrite hi hf ht he hn hr)
    have hkeeps : ∀ n, (w.rewritten r.cell v x.target).Keeps w₁ n := fun n =>
      (hb.keeps_written hi hf ht hn hr n).trans (hs.keeps n)
    have hlive : w₁.Live r.cell := hb₁.live (List.mem_append_right _ hroot)
    refine ⟨?_, fun n hne => ?_, fun d hd => ?_, fun n => hb₁.alive_of_leads hkeeps hlive⟩
    · rw [(hkeeps (.cell r.cell)).readCell_eq hlive]
      exact (hb.readCell_rewritten hi hf ht v).2
    · exact (hb.keeps_rewritten hi ht v hne).trans (hkeeps n)
    · obtain ⟨a, ha, rfl⟩ := Option.map_eq_some_iff.mp hd
      exact hb₁.live (List.mem_append_right _ (hx a ha))
  case ended => exact passes_settle _ _

/-- A reclamation that has done nothing changes nothing. -/
theorem finish_start {i : HeapId} (hi : w.heap? i = some h) : w.finish i h.start = w := by
  rw [finish, commit, Heap.start, setHeap_self hi]
  exact settle_nil w

/-- An edit that succeeds: a change of the heap of the cell, with everything that follows. -/
theorem edit_of_ok {x y : Handle}
    {change : Heap → CellId → Slot → Except AccessError Reclamation}
    (hok : (w.edit x y change).2 = .ok ()) :
    ∃ r h rec, x = some r ∧ w.heap? r.cell.heap = some h ∧
      (∀ d ∈ y.target, d.heap = r.cell.heap) ∧ change h r.cell y.target = .ok rec ∧
      (w.edit x y change).1 = w.finish r.cell.heap rec := by
  generalize hout : w.edit x y change = out at hok ⊢
  unfold edit at hout
  split at hout
  · subst hout
    cases hok
  · rename_i c hc
    split at hout
    · rename_i hsame
      split at hout
      · subst hout
        cases hok
      · rename_i h hi
        split at hout
        · subst hout
          cases hok
        · rename_i rec hw
          subst hout
          obtain ⟨r, rfl, rfl⟩ := Option.map_eq_some_iff.mp hc
          refine ⟨r, h, rec, rfl, hi, fun d hd => ?_, hw, rfl⟩
          rwa [hd, Option.all_some, decide_eq_true_eq] at hsame
    · subst hout
      cases hok

theorem Balanced.edit_of_ok {x y : Handle} (hb : w.Balanced held none) (hx : Owned held x)
    {change : Heap → CellId → Slot → Except AccessError Reclamation}
    (hok : (w.edit x y change).2 = .ok ()) :
    ∃ r h cell rec, x = some r ∧ w.heap? r.cell.heap = some h ∧ h.find? r.cell = some cell ∧
      w.readCell r.cell = cell.value ∧ (∀ d ∈ y.target, d.heap = r.cell.heap) ∧
      change h r.cell y.target = .ok rec ∧ (w.edit x y change).1 = w.finish r.cell.heap rec := by
  obtain ⟨r, h, rec, rfl, hi, hrest⟩ := World.edit_of_ok hok
  obtain ⟨k, hk, cell, hf⟩ := hb.live (hx r rfl)
  rw [hi, Option.some.injEq] at hk
  subst hk
  exact ⟨r, h, cell, rec, rfl, hi, hf, by simp only [readCell, hi, Heap.read, hf], hrest⟩

/-- The writers of one slot, whatever the target is. A write that succeeds lets the slot at
its position refer to the target, and a push lets a new last element refer to it; what else
they do is said by `Written`. A slot that has the target already is left as it was, and so is
everything else. -/
theorem slot_written {x y : Handle} (hm : Moment.Reachable ⟨w, held, none⟩)
    (hx : Owned held x) (hy : Owned held y) :
    (∀ p, (w.write x p y).2 = .ok () → ∃ r h rec s v,
      x = some r ∧ w.heap? r.cell.heap = some h ∧ h.write r.cell p y.target = .ok rec ∧
      (w.readCell r.cell).children[p.index]? = some s ∧
      v.children = (w.readCell r.cell).children.set p.index y.target ∧
      v.kind = (w.readCell r.cell).kind ∧
      w.Written r.cell y.target s v h rec (w.write x p y).1 ∧
      (s = y.target → (w.write x p y).1 = w)) ∧
    ((w.push x y).2 = .ok () → ∃ r h rec v,
      x = some r ∧ w.heap? r.cell.heap = some h ∧ h.append r.cell y.target = .ok rec ∧
      v.children = (w.readCell r.cell).children ++ [y.target] ∧
      v.kind = (w.readCell r.cell).kind ∧
      w.Written r.cell y.target none v h rec (w.push x y).1) := by
  have hb : w.Balanced held none := hm.balanced
  constructor
  · intro p hok
    obtain ⟨r, h, cell, rec, rfl, hi, hf, hread, hsame, hw, he⟩ := hb.edit_of_ok hx hok
    obtain ⟨s, hg, hr⟩ := Heap.write_eq_ok hf hw
    obtain ⟨hs, hchildren, hkind⟩ := Value.get_eq_ok hg y.target
    rw [write, he]
    refine ⟨r, h, rec, s, cell.value.replace p y.target, rfl, hi, hw, hread ▸ hs,
      hread ▸ hchildren, hread ▸ hkind, ?_, fun hst => ?_⟩
    · exact hb.written (hx r rfl) hy hi hf hsame (Value.env?_replace _ p y.target)
        (Heap.count_targets_replace hg y.target) hr
    · subst hst
      rw [Value.replace_self hg] at hr
      have hheap := hb.heap _ h hi
      rw [writeIn_none] at hheap
      rw [hr, ← Heap.rewritten, hheap.rewrite_self hf (hb.live_of_owned hy hi hsame),
        finish_start hi]
  · intro hok
    obtain ⟨r, h, cell, rec, rfl, hi, hf, hread, hsame, hw, he⟩ := hb.edit_of_ok hx hok
    obtain ⟨v, hg, hr⟩ := Heap.append_eq_ok hf hw
    obtain ⟨hchildren, henv⟩ := Value.append_eq_ok hg
    rw [push, he]
    refine ⟨r, h, rec, v, rfl, hi, hw, hread ▸ hchildren, hread ▸ Value.kind_append hg, ?_⟩
    refine hb.written (hx r rfl) hy hi hf hsame henv (fun d => ?_) hr
    rw [Option.toList_none, List.count_nil, Nat.zero_add]
    exact Heap.count_targets_append hg d

/-- A pair owns a closure, whose environment binds the only handle to a cell. -/
def owning : Session :=
  let code := Code.lambda { params := ["x"], rest := none, body := .lambda [] none (.var "x") }
  let ops : List Op :=
    [.newScope "e" none,
      .allocate (.closure code "e") false (some "f"),
      .dropScope "e",
      .call "f" [.fresh (.pair .null .null)] (some "a"),
      .allocate (.pair (.move "a") .null) false (some "p")]
  ops.foldl (fun s op => (s.performOp 1 op).1)
    (.new [.own { initialCapacity := 0, collectOnAllocate := false }])

theorem owning_reachable : owning.Reachable :=
  .foldl (.new _ _) 1 _

/-- The pair comes to refer to itself in place of the closure. The closure goes, and when its
environment is destroyed, the drop of the variable frees a cell and starts a collection. -/
theorem slot_written_closure :
    let p : Root := { cell := ⟨1, 3⟩, ticket := 3 }
    let w := owning.world
    owning.handle "p" = some p ∧ (w.write (some p) .first (some p)).2 = .ok () ∧
      ((w.write (some p) .first (some p)).1.heap? 1).map Heap.stats =
        some { counters := { allocations := 4, eagerFrees := 2, collections := 1 },
               liveObjects := 2, roots := 2, capacity := 3 } ∧
      ∃ h rec v, v.children = [some p.cell, none] ∧
        w.Written p.cell (some p.cell) (some ⟨1, 2⟩) v h rec
          (w.write (some p) .first (some p)).1 := by
  intro p w
  have hp : owning.handle "p" = some p := by
    unfold p
    cbv
  have hok : (w.write (some p) .first (some p)).2 = .ok () := by
    unfold w p
    cbv
  have howned : Owned owning.holdings (some p) := hp ▸ owning.owned_handle [] "p"
  have hchildren : (w.readCell p.cell).children = [some ⟨1, 2⟩, none] := by
    unfold w p
    cbv
  refine ⟨hp, hok, by unfold w p; cbv, ?_⟩
  obtain ⟨r, h, rec, s, v, hr, -, -, hs, hv, -, hw, -⟩ :=
    (slot_written owning_reachable.moment howned howned).1 .first hok
  cases hr
  rw [hchildren] at hs hv
  cases hs
  exact ⟨h, rec, v, hv, hw⟩

end Writes

end World

end HybridHeap
