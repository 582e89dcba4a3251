import HybridHeap.Proofs.Mirror.Cells

/-!
Writes to existing cells, in a world and in a store. Replacing a value is the one
operation with chores in the middle: the displaced closure lets go of its environment
while the cell is still being written.
-/

namespace HybridHeap

open Unmanaged (Store)

@[simp] theorem Heap.config_unroot (h : Heap) (r : Root) : (h.unroot r).config = h.config := by
  unfold Heap.unroot
  split <;> rfl

@[simp] theorem Heap.config_unrootAll (h : Heap) (rs : List Root) :
    (h.unrootAll rs).config = h.config := by
  induction rs generalizing h with
  | nil => rfl
  | cons r rs ih => exact (ih (h.unroot r)).trans (h.config_unroot r)

/-- The store takes a new value for a cell as the heap does. -/
theorem getElem?_of_mem_setValue {h : Heap} (hs : h.objects.Sound)
    {cells : Std.ExtTreeMap CellId (Value Slot)} (hcells : ∀ q ∈ h.contents, cells[q.1]? = some q.2)
    (c : CellId) (v : Value Slot) :
    ∀ q ∈ (h.setValue c v).contents, (cells.insert c v)[q.1]? = some q.2 := by
  intro q hq
  rw [Heap.contents, Heap.setValue, Heap.cells_modifyCell hs, List.map_map] at hq
  obtain ⟨p, hp, rfl⟩ := List.mem_map.mp hq
  rw [Std.ExtTreeMap.getElem?_insert, Function.comp_apply]
  by_cases hpc : p.1 = c
  · rw [if_pos (Std.compare_eq_iff_eq.mpr hpc.symm)]
    dsimp only
    rw [if_pos hpc]
  · rw [if_neg (mt Std.compare_eq_iff_eq.mp (Ne.symm hpc))]
    dsimp only
    rw [if_neg hpc]
    exact hcells (p.1, p.2.value) (List.mem_map_of_mem (f := fun p => (p.1, p.2.value)) hp)

theorem getElem?_insert_of_heap_ne {cells : Std.ExtTreeMap CellId (Value Slot)} {c d : CellId}
    (hd : d.heap ≠ c.heap) (v : Value Slot) : (cells.insert c v)[d]? = cells[d]? := by
  rw [Std.ExtTreeMap.getElem?_insert, if_neg]
  rw [Std.compare_eq_iff_eq]
  rintro rfl
  exact hd rfl

namespace Mirrored

variable {w : World} {st : Store} {held held' : List Holding} {write : Option Writing}
  {i : HeapId} {h target : Handle}

theorem finishWrite {wr : Writing} (hm : Mirrored ⟨w, held, some wr⟩ st) :
    Mirrored ⟨w.work wr.root.cell.heap fun h => h.finishWrite wr.anchors,
      .root wr.root :: held, none⟩ st := by
  have hmem : wr.root ∈ countedRoots (heldRoots held ++ w.bound) (some wr) :=
    List.mem_append_right _ List.mem_cons_self
  obtain ⟨heap, hi⟩ := hm.balanced.home wr.root hmem
  have hheap := hm.balanced.heap _ heap hi
  rw [writeIn_self] at hheap
  obtain ⟨-, ht⟩ := hheap.finishWrite
  simp only [World.work, hi]
  refine Mirrored.finish ⟨hm.reached.step (.finishWrite hi), ?_⟩
  refine hm.agrees.commit hm.balanced hi ht (Heap.config_unrootAll ..) (fun q hq => ?_)
    fun d _ => rfl
  refine hm.agrees.cells _ heap hi q ?_
  simpa [Heap.contents, Heap.cells, Heap.start] using hq

/-- Putting a value into a cell. -/
theorem set {v : Value Handle} (hm : Mirrored ⟨w, v.holdings ++ held, none⟩ st)
    (ho : Owned held h) : Performed held (w.set h v) (st.set h.target v.placed) := by
  cases h with
  | none => exact .error hm.discard
  | some r =>
      obtain ⟨l₁, l₂, rfl⟩ := List.append_of_mem (ho r rfl)
      -- the root of the cell goes along with the write
      have hfront : Mirrored ⟨w, .root r :: (v.holdings ++ (l₁ ++ l₂)), none⟩ st := by
        apply hm.permute
        rw [← List.append_assoc, ← List.append_assoc]
        exact List.perm_middle
      simp only [World.set, Store.set, Handle.target, Option.map_some, ownsAll_placed]
      split
      · rename_i hown
        obtain ⟨heap, hi, hlive⟩ := hfront.balanced.live List.mem_cons_self
        have hheap := hfront.balanced.heap _ heap hi
        have hsound := hheap.counted.sound
        have hread : w.readCell r.cell = heap.read r.cell := by
          simp [World.readCell, hi]
        have hswap : w.modifyHeap r.cell.heap (fun h => h.swap r.cell v) =
            w.setHeap r.cell.heap (heap.swap r.cell v) := by
          simp [World.modifyHeap, hi]
        have hswapped : Mirrored ⟨w.setHeap r.cell.heap (heap.swap r.cell v),
            (heap.read r.cell).env?.toList.map .share ++ (l₁ ++ l₂),
            some { root := r, anchors := v.anchors }⟩ (st.put r.cell v.placed) := by
          refine ⟨hfront.reached.step (.swap hi hown), ?_⟩
          have hconfig : (heap.swap r.cell v).config = heap.config := rfl
          refine hm.agrees.setHeap hm.balanced hi hconfig ?_ fun d hd =>
            getElem?_insert_of_heap_ne hd v.placed
          exact getElem?_of_mem_setValue hsound (hm.agrees.cells _ heap hi) r.cell v.placed
        rw [hread, hswap]
        have hsettled : Mirrored ⟨(w.setHeap r.cell.heap (heap.swap r.cell v)).settle
            ((heap.read r.cell).env?.toList.map .leave), l₁ ++ l₂,
            some { root := r, anchors := v.anchors }⟩ (st.put r.cell v.placed) := by
          apply Mirrored.settle
          rw [List.map_map]
          exact hswapped
        exact .ok (a := ()) (hsettled.finishWrite.permute List.perm_middle.symm)
      · exact .error hm.discard

/-- A writer that changes references of a cell but not its environment. -/
theorem rewrite {c : CellId} {heap : Heap} {cell : Cell} (hm : Mirrored ⟨w, held, none⟩ st)
    (hi : w.heap? c.heap = some heap) (hf : heap.find? c = some cell) {t : Slot}
    (ht : ∀ d ∈ t, heap.Live d) {v : Value Slot} {displaced : List CellId}
    (hn : ∀ d, displaced.count d + v.targets.count d =
      t.toList.count d + cell.value.targets.count d)
    {rec : Reclamation}
    (hr : rec = (((heap.retainSlot t).setValue c v).defer displaced).finishWrite [])
    (hs : Moment.Step ⟨w, held, none⟩
      ⟨(w.commit c.heap rec).1, rec.payloads.map Chore.holding ++ held, none⟩) :
    Mirrored ⟨w.finish c.heap rec, held, none⟩ (st.put c v) := by
  have hheap := hm.balanced.heap _ heap hi
  obtain ⟨-, hthin, hcells, hconfig⟩ := hheap.rewrite hf ht hn
  rw [← hr] at hthin
  refine Mirrored.finish ⟨hm.reached.step hs, ?_⟩
  refine hm.agrees.commit hm.balanced hi hthin hconfig (fun q hq => ?_) fun d hd =>
    getElem?_insert_of_heap_ne hd v
  refine getElem?_of_mem_setValue hheap.counted.sound (hm.agrees.cells _ heap hi) c v q ?_
  change q ∈ (((heap.retainSlot t).setValue c v).defer displaced).contents at hq
  rwa [contents_congr hcells] at hq

/-- The checks that all writers make. -/
theorem edit {change : Heap → CellId → Slot → Except AccessError Reclamation}
    {bare : Value Slot → Except AccessError (Value Slot)} (hm : Mirrored ⟨w, held, none⟩ st)
    (ho : Owned held h) (ht : Owned held target)
    (hrefuse : ∀ heap c cell e, heap.find? c = some cell →
      change heap c target.target = .error e → bare cell.value = .error e)
    (hchange : ∀ heap c cell rec, w.heap? c.heap = some heap → heap.find? c = some cell →
      (∀ d ∈ target.target, heap.Live d) → change heap c target.target = .ok rec →
      ∃ v, bare cell.value = .ok v ∧ Mirrored ⟨w.finish c.heap rec, held, none⟩ (st.put c v)) :
    Performed held (w.edit h target change) (st.edit h.target target.target bare) := by
  have hlive := hm.live_of_owned ho
  unfold World.edit Store.edit
  cases htarget : h.target with
  | none => exact .error hm
  | some c =>
      dsimp only
      split
      · rename_i hsame
        obtain ⟨heap, hi, cell, hf⟩ := hlive c htarget
        have hread : st.readCell c = cell.value := by
          rw [← hm.agrees.readCell hm.balanced ⟨heap, hi, cell, hf⟩]
          simp [World.readCell, hi, Heap.read, hf]
        -- the target passed the check, so it is alive in the heap that is written
        have htlive : ∀ d ∈ target.target, heap.Live d := by
          intro d hd
          obtain ⟨k, hk, hkd⟩ := hm.live_of_owned ht d hd
          rw [hd, Option.all_some, decide_eq_true_eq] at hsame
          rw [hsame, hi, Option.some.injEq] at hk
          exact hk ▸ hkd
        rw [hread]
        simp only [hi]
        cases hw : change heap c target.target with
        | error e =>
            rw [hrefuse heap c cell e hf hw]
            exact .error hm
        | ok rec =>
            obtain ⟨v, hv, hm'⟩ := hchange heap c cell rec hi hf htlive hw
            rw [hv]
            exact .ok (a := ()) hm'
      · exact .error hm

/-- Writing one position. -/
theorem writeSlot (hm : Mirrored ⟨w, held, none⟩ st) (ho : Owned held h)
    (ht : Owned held target) (p : Position) :
    Performed held (w.write h p target) (st.write h.target p target.target) := by
  refine hm.edit ho ht (fun heap c cell e hf hw => ?_) fun heap c cell rec hi hf htl hw => ?_
  · simp only [Heap.write, Heap.read, hf] at hw
    cases hg : cell.value.get p with
    | error e' =>
        rw [hg] at hw
        cases hw
        rfl
    | ok displaced =>
        rw [hg] at hw
        cases hw
  · obtain ⟨displaced, hg, hr⟩ := Heap.write_eq_ok hf hw
    refine ⟨cell.value.replace p target.target, by rw [hg]; rfl, ?_⟩
    exact hm.rewrite hi hf htl (Heap.count_targets_replace hg _) hr
      (.write hi ⟨cell, hf⟩ htl hw)

/-- Adding an element to a vector. -/
theorem push (hm : Mirrored ⟨w, held, none⟩ st) (ho : Owned held h) (ht : Owned held target) :
    Performed held (w.push h target) (st.push h.target target.target) := by
  refine hm.edit ho ht (fun heap c cell e hf hw => ?_) fun heap c cell rec hi hf htl hw => ?_
  · simp only [Heap.append, Heap.read, hf] at hw
    cases hg : cell.value.append target.target with
    | error e' =>
        rw [hg] at hw
        cases hw
        rfl
    | ok v =>
        rw [hg] at hw
        cases hw
  · obtain ⟨v, hg, hr⟩ := Heap.append_eq_ok hf hw
    refine ⟨v, hg, hm.rewrite hi hf htl (fun d => ?_) hr (.append hi ⟨cell, hf⟩ htl hw)⟩
    rw [List.count_nil, Nat.zero_add]
    exact Heap.count_targets_append hg d

end Mirrored

end HybridHeap
