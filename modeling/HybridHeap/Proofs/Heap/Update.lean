import HybridHeap.Proofs.Heap.Balance
import HybridHeap.Proofs.Values

/-!
Every use of a heap keeps its balance. Each lemma says what happens to the roots
owned outside the heap, and gives the heap as it is before any cell is freed: apart
from counts it has the cells of the heap before, or one cell more, or one value
replaced.
-/

namespace HybridHeap

namespace Heap

variable {h : Heap} {held : List Root} {write : Option Writing}

section Cells

variable {c : CellId} {cell : Cell} {refs refs' : List CellId}

theorem countOf_setValue (h : Heap) (c : CellId) (v : Value Slot) (d : CellId) :
    (h.setValue c v).countOf d = h.countOf d := by
  rw [countOf, Heap.setValue, find?_modifyCell, countOf]
  split
  · rw [Option.map_map]
    rfl
  · rfl

/-- A new value in a cell, with the references that it brings and those that it
displaces changing places. -/
theorem Counted.setValue (hc : h.Counted refs) (hf : h.find? c = some cell) {v : Value Slot}
    (hn : ∀ d, refs'.count d + v.targets.count d =
      refs.count d + cell.value.targets.count d) :
    (h.setValue c v).Counted refs' := by
  have hperm := perm_cons_filter hc.sound.nodup (hc.find?_eq_some_iff.mp hf)
  -- only the slots of this one cell change
  have hslots : ∀ d, (slotTargets (h.setValue c v).cells).count d +
      cell.value.targets.count d = (slotTargets h.cells).count d + v.targets.count d := by
    intro d
    have hset := cells_modifyCell_perm hc.sound hf fun cell => { cell with value := v }
    rw [Heap.setValue, (slotTargets_perm hset).count_eq, cells, (slotTargets_perm hperm).count_eq,
      slotTargets_cons, slotTargets_cons, List.count_append, List.count_append]
    simp only
    omega
  constructor
  · exact hc.sound.modify c fun cell => { cell with value := v }
  · intro d
    have h₁ := hc.count d
    have h₂ := hslots d
    have h₃ := hn d
    rw [countOf_setValue]
    omega
  · intro d cell' hd
    rw [Heap.setValue, find?_modifyCell] at hd
    split at hd
    · obtain ⟨old, hold, rfl⟩ := Option.map_eq_some_iff.mp hd
      exact hc.positive d old hold
    · exact hc.positive d cell' hd

/-- A new cell takes over references held from outside, and one to it is held. -/
theorem Counted.place {v : Value Slot} (hc : h.Counted (v.targets ++ refs)) (hl : ¬h.Live c)
    {objects : LinkedMap CellId Cell} (hs : objects.Sound)
    (ho : objects.toList = (c, { count := 1, marked := false, value := v }) :: h.cells) :
    { h with objects }.Counted (c :: refs) := by
  have hfind : ∀ d, { h with objects }.find? d =
      if d = c then some { count := 1, marked := false, value := v } else h.find? d :=
    hc.sound.find?_of_cons hs ho
  have hnone : h.find? c = none := by
    cases hf : h.find? c with
    | none => rfl
    | some cell => exact absurd ⟨cell, hf⟩ hl
  constructor
  · exact hs
  · intro d
    show _ = _ + (slotTargets objects.toList).count d
    rw [ho, slotTargets_cons, List.count_append]
    have hcount := hc.count d
    rw [List.count_append] at hcount
    by_cases hd : d = c
    · subst hd
      rw [countOf_of_none hnone] at hcount
      rw [countOf_of_find? ((hfind d).trans (if_pos rfl)), List.count_cons_self]
      simp only
      omega
    · rw [List.count_cons_of_ne (Ne.symm hd), countOf, hfind, if_neg hd]
      rw [countOf] at hcount
      simp only
      omega
  · intro d cell hd
    rw [hfind] at hd
    split at hd
    · cases hd
      exact Nat.one_pos
    · exact hc.positive d cell hd

theorem uncounted_modifyCell (hs : h.objects.Sound) (c : CellId) {f : Cell → Cell}
    (hf : ∀ cell, uncounted (c, f cell) = uncounted (c, cell)) :
    (h.modifyCell c f).cells.map uncounted = h.cells.map uncounted := by
  rw [cells_modifyCell hs, List.map_map]
  apply List.map_congr_left
  intro p _
  have := hf p.2
  simp only [uncounted, Function.comp_apply, Prod.mk.injEq, true_and] at this ⊢
  split
  · exact this
  · rfl

theorem unmarked_of_uncounted {h' : Heap} (hu : h.Unmarked)
    (he : h'.cells.map uncounted = h.cells.map uncounted) : h'.Unmarked := by
  intro p hp
  obtain ⟨old, hold, -, hmark⟩ := exists_of_uncounted (fun _ hm => he ▸ hm) hp
  exact hmark.symm.trans (hu _ hold)

theorem find?_of_uncounted {h' : Heap} (hc : h.Counted refs) (hc' : h'.Counted refs')
    (he : h'.cells.map uncounted = h.cells.map uncounted) (hf : h.find? c = some cell) :
    ∃ cell', h'.find? c = some cell' ∧ cell'.value = cell.value := by
  obtain ⟨cell', hm, hv, -⟩ :=
    exists_of_uncounted (fun _ hm => he ▸ hm) (hc.find?_eq_some_iff.mp hf)
  exact ⟨cell', hc'.find?_eq_some_iff.mpr hm, hv⟩

/-- Up to counts, the cells after a write are those before with one value replaced. -/
theorem uncounted_setValue (hs : h.objects.Sound) (c : CellId) (v : Value Slot) :
    (h.setValue c v).cells.map uncounted = (h.cells.map uncounted).map fun p =>
      (p.1, if p.1 = c then { p.2 with value := v } else p.2) := by
  rw [Heap.setValue, cells_modifyCell hs, List.map_map, List.map_map]
  apply List.map_congr_left
  intro p _
  rw [Function.comp_apply, Function.comp_apply]
  by_cases hp : p.1 = c
  · rw [if_pos hp, if_pos (show (uncounted p).1 = c from hp)]
    rfl
  · rw [if_neg hp, if_neg (show (uncounted p).1 ≠ c from hp)]

theorem unmarked_setValue (hs : h.objects.Sound) (hu : h.Unmarked) (c : CellId) (v : Value Slot) :
    (h.setValue c v).Unmarked := by
  intro p hp
  rw [Heap.setValue, cells_modifyCell hs] at hp
  obtain ⟨q, hq, rfl⟩ := List.mem_map.mp hp
  have hmark := hu q hq
  dsimp only
  split
  · exact hmark
  · exact hmark

end Cells

theorem retain_of_live (hs : h.objects.Sound) {c : CellId} (hl : h.Live c) :
    h.retain c = h.modifyCell c fun cell => { cell with count := cell.count + 1 } := by
  obtain ⟨cell, hf⟩ := hl
  exact if_pos ((hs.contains_iff_mem c).mpr ⟨cell, hs.find?_eq_some_iff.mp hf⟩)

/-- A new root of a live cell. -/
theorem Balanced.register (hb : h.Balanced held write) {c : CellId} (hl : h.Live c) :
    (h.register c).2.cell = c ∧ (h.register c).1.Balanced ((h.register c).2 :: held) write ∧
      (h.register c).1.cells.map uncounted = h.cells.map uncounted ∧
      (h.register c).1.config = h.config := by
  have hretain := retain_of_live hb.counted.sound hl
  obtain ⟨cell, hf⟩ := hl
  have hcells := uncounted_modifyCell hb.counted.sound c
    (f := fun cell => { cell with count := cell.count + 1 }) fun _ => rfl
  have hcounted : (h.modifyCell c fun cell => { cell with count := cell.count + 1 }).Counted
      (c :: ((countedRoots held write).map Root.cell ++ h.deferred)) := by
    refine hb.counted.recount hf (fun _ => rfl) (Nat.succ_pos _) ?_ fun d hd =>
      List.count_cons_of_ne (Ne.symm hd)
    rw [List.count_cons_self]
    simp only
    omega
  have hlisted : (h.modifyCell c fun cell => { cell with count := cell.count + 1 }).Listed
      held write := by
    apply hb.listed.congr (unmarked_of_uncounted hb.listed.unmarked hcells)
    intro wr hw
    obtain ⟨old, hold, ht⟩ := hb.listed.written wr hw
    have hnew : (h.modifyCell c fun cell => { cell with count := cell.count + 1 }).find?
        wr.root.cell = if wr.root.cell = c then some { old with count := old.count + 1 }
          else some old := by
      rw [find?_modifyCell, hold]
      rfl
    split at hnew
    · exact ⟨_, hnew, ht⟩
    · exact ⟨_, hnew, ht⟩
  obtain ⟨roots, hp, hl'⟩ := hlisted.pushRoot c
  have heq : h.register c =
      ({ (h.modifyCell c fun cell => { cell with count := cell.count + 1 }) with
          roots, nextTicket := h.nextTicket + 1 }, { cell := c, ticket := h.nextTicket }) := by
    simp only [Heap.register, hretain]
    simp only [modifyCell] at hp ⊢
    rw [hp]
  rw [heq]
  exact ⟨rfl, ⟨hcounted.congr rfl, hl', hb.deferred⟩, hcells, rfl⟩

/-- Giving up an owned root, before the threshold is checked. -/
theorem Balanced.dropAnchor {r : Root} (hb : h.Balanced (r :: held) write) :
    (h.dropAnchor r).heap.Balanced held write ∧ (h.dropAnchor r).heap.deferred = [] ∧
      (h.unroot r).start.Thins (h.dropAnchor r) := by
  obtain ⟨roots, he, hl⟩ := hb.listed.unroot
  -- off the root list, the root is a reference like those in the queue
  have hc : (h.unroot r).start.heap.Counted
      ([r.cell] ++
        ((h.unroot r).start.heap.deferred ++ (countedRoots held write).map Root.cell)) := by
    rw [he]
    refine Counted.congr (h := h) (hb.counted.perm ?_) rfl
    exact List.perm_append_comm.cons r.cell
  obtain ⟨hc₁, ht₁⟩ := hc.release
  have hdeferred := Reclamation.deferred_release (h.unroot r).start [r.cell]
  rw [← hdeferred] at hc₁
  obtain ⟨hc₂, ht₂⟩ := Reclamation.counted_drain hc₁
  have ht := ht₁.trans ht₂
  have hl₀ : (h.unroot r).start.heap.Listed held write := by
    rw [he]
    exact hl
  exact ⟨hl₀.balanced_of_thins ht hc hc₂ (Reclamation.deferred_drain _),
    Reclamation.deferred_drain _, ht⟩

/-- A check of the threshold keeps a heap in balance. -/
theorem Balanced.collectIfOver {r : Reclamation} (hb : r.heap.Balanced held write)
    (hd : r.heap.deferred = []) :
    r.collectIfOver.heap.Balanced held write ∧ r.Thins r.collectIfOver := by
  obtain ⟨hc, ht, hd'⟩ := (hb.collectable hd).collectIfOver
  exact ⟨hb.listed.balanced_of_thins ht hb.counted hc hd', ht⟩

theorem Balanced.dropRoot {r : Root} (hb : h.Balanced (r :: held) write) :
    (h.dropRoot r).heap.Balanced held write ∧ (h.unroot r).start.Thins (h.dropRoot r) := by
  obtain ⟨hb₁, hd₁, ht₁⟩ := hb.dropAnchor
  show (if h.config.collectOnRelease then (h.dropAnchor r).collectIfOver
    else h.dropAnchor r).heap.Balanced held write ∧ Reclamation.Thins _
      (if h.config.collectOnRelease then (h.dropAnchor r).collectIfOver else h.dropAnchor r)
  split
  · obtain ⟨hb₂, ht₂⟩ := hb₁.collectIfOver hd₁
    exact ⟨hb₂, ht₁.trans ht₂⟩
  · exact ⟨hb₁, ht₁⟩

theorem Balanced.collectNow (hb : h.Balanced held none) :
    h.collectNow.heap.Balanced held none ∧ h.start.Thins h.collectNow := by
  have hd := hb.deferred rfl
  have hdrain : h.start.drain = h.start := Reclamation.drain_of_deferred_nil hd
  have hcol : h.start.Collectable ((countedRoots held none).map Root.cell) := hb.collectable hd
  rw [Heap.collectNow, hdrain]
  exact ⟨hb.listed.balanced_of_thins hcol.thins_collect hb.counted hcol.counted_collect
    hcol.deferred_collect, hcol.thins_collect⟩

/-- A new cell linked and rooted, which is a cell with one reference. -/
theorem Balanced.link_register (hb : h.Balanced held none) {c : CellId} (hl : ¬h.Live c)
    (v : Value Slot) :
    ∃ objects, objects.Sound ∧
      objects.toList = (c, { count := 1, marked := false, value := v }) :: h.cells ∧
      ∃ roots,
        (h.link c v).register c = ({ h with objects, roots, nextTicket := h.nextTicket + 1 },
          { cell := c, ticket := h.nextTicket }) ∧
        { h with objects, roots, nextTicket := h.nextTicket + 1 }.Listed
          ({ cell := c, ticket := h.nextTicket } :: held) none := by
  have hsound := hb.counted.sound
  have hfresh : c ∉ h.objects.toList.map Prod.fst := by
    intro hm
    obtain ⟨p, hp, rfl⟩ := List.mem_map.mp hm
    exact hl ⟨p.2, hsound.find?_eq_some_iff.mpr hp⟩
  -- linked with no count; the root that follows counts it once
  obtain ⟨objects, hpush, hs, ho⟩ := hsound.pushFront hfresh
    { count := 0, marked := false, value := v }
  have hadd : (objects.modify c fun cell => { cell with count := cell.count + 1 }).toList =
      (c, { count := 1, marked := false, value := v }) :: h.cells := by
    rw [hs.toList_modify, ho, List.map_cons, if_pos rfl]
    exact congrArg (_ :: ·) (map_update_of_not_mem hfresh fun cell =>
      { cell with count := cell.count + 1 })
  have hlisted : { h with
      objects := objects.modify c fun cell => { cell with count := cell.count + 1 } }.Listed
        held none := by
    refine hb.listed.congr (fun p hp => ?_) fun wr hw => by cases hw
    rw [hadd] at hp
    rcases List.mem_cons.mp hp with rfl | hp
    · rfl
    · exact hb.listed.unmarked p hp
  obtain ⟨roots, hroots, hlisted'⟩ := hlisted.pushRoot c
  have hcontains : objects.contains c = true :=
    (hs.contains_iff_mem c).mpr ⟨_, ho ▸ List.mem_cons_self⟩
  refine ⟨_, hs.modify c fun cell => { cell with count := cell.count + 1 }, hadd, roots, ?_,
    hlisted'⟩
  simp only [Heap.link, hpush, Heap.register, Heap.retain, hcontains, if_true, modifyCell]
  rw [hroots]

/-- The root of a new cell and the heap with the cell, before the threshold is
checked. -/
def placeOnly (h : Heap) (c : CellId) (v : Value Handle) : Root × Heap :=
  let linked := (h.link c v.placed).register c
  let unrooted := linked.1.unrootAll v.anchors
  (linked.2, { unrooted with
    counters := { unrooted.counters with allocations := unrooted.counters.allocations + 1 } })

theorem place_eq (h : Heap) (c : CellId) (v : Value Handle) :
    h.place c v = ((h.placeOnly c v).1,
      if h.config.collectOnAllocate then (h.placeOnly c v).2.start.drain.collectIfOver
      else (h.placeOnly c v).2.start.drain) := rfl

theorem place_fst (h : Heap) (c : CellId) (v : Value Handle) :
    (h.place c v).1 = (h.placeOnly c v).1 := rfl

/-- Placing a value changes the cells, the roots and the counters of a heap only. The new
root has the next ticket. -/
theorem Balanced.placeOnly_eq {v : Value Handle} (hb : h.Balanced (v.anchors ++ held) none)
    {c : CellId} (hl : ¬h.Live c) :
    ∃ objects roots, objects.Sound ∧
      objects.toList = (c, { count := 1, marked := false, value := v.placed }) :: h.cells ∧
      h.placeOnly c v = ({ cell := c, ticket := h.nextTicket },
        { h with
          objects, roots, nextTicket := h.nextTicket + 1,
          counters := { h.counters with allocations := h.counters.allocations + 1 } }) ∧
      { h with objects, roots, nextTicket := h.nextTicket + 1 }.Listed
        ({ cell := c, ticket := h.nextTicket } :: held) none := by
  obtain ⟨objects, hs, ho, roots, he, hlisted⟩ := hb.link_register hl v.placed
  obtain ⟨roots', hroots', hlisted'⟩ :=
    (hlisted.perm (@List.perm_middle _ _ v.anchors held).symm).unrootAll
  exact ⟨objects, roots', hs, ho, by simp only [Heap.placeOnly, he, hroots'], hlisted'⟩

/-- Placing a value takes over the roots of its handles and gives a root of the new
cell. -/
theorem Balanced.placeOnly {v : Value Handle} (hb : h.Balanced (v.anchors ++ held) none)
    {c : CellId} (hl : ¬h.Live c) :
    (h.placeOnly c v).1.cell = c ∧
      (h.placeOnly c v).2.Balanced ((h.placeOnly c v).1 :: held) none ∧
      (h.placeOnly c v).2.config = h.config ∧
      (h.placeOnly c v).2.cells =
        (c, { count := 1, marked := false, value := v.placed }) :: h.cells := by
  have hd := hb.deferred rfl
  have hc : h.Counted (v.placed.targets ++ held.map Root.cell) := by
    have := hb.counted
    rwa [hd, List.append_nil, countedRoots_none, List.map_append, ← Value.targets_placed] at this
  obtain ⟨objects, roots, hs, ho, hplace, hlisted⟩ := hb.placeOnly_eq hl
  have hcounted := hc.place hl hs ho
  rw [hplace]
  refine ⟨rfl, ⟨?_, { hlisted with }, fun _ => hd⟩, rfl, ho⟩
  rw [countedRoots_none, hd, List.append_nil]
  exact hcounted.congr rfl

theorem Balanced.place {v : Value Handle} (hb : h.Balanced (v.anchors ++ held) none)
    {c : CellId} (hl : ¬h.Live c) :
    (h.place c v).2.heap.Balanced ((h.place c v).1 :: held) none ∧
      (h.placeOnly c v).2.start.Thins (h.place c v).2 := by
  obtain ⟨-, hb', -, -⟩ := hb.placeOnly hl
  have hd := hb'.deferred rfl
  have hdrain : (h.placeOnly c v).2.start.drain = (h.placeOnly c v).2.start :=
    Reclamation.drain_of_deferred_nil hd
  rw [place_eq, hdrain]
  split
  · exact Balanced.collectIfOver (r := (h.placeOnly c v).2.start) hb' hd
  · exact ⟨hb', .refl _⟩

/-- The start of a replacement: the new value is in the cell, and the references it
displaces are in the queue. -/
theorem Balanced.swap {v : Value Handle} {r : Root}
    (hb : h.Balanced (r :: (v.anchors ++ held)) none) :
    (h.swap r.cell v).Balanced held (some { root := r, anchors := v.anchors }) ∧
      ∃ cell, h.find? r.cell = some cell ∧
        (h.swap r.cell v).cells = (h.setValue r.cell v.placed).cells := by
  obtain ⟨cell, hf⟩ := hb.live List.mem_cons_self
  have hd := hb.deferred rfl
  have hread : h.read r.cell = cell.value := by
    simp [Heap.read, hf]
  refine ⟨⟨?_, ?_, fun h' => by cases h'⟩, cell, hf, rfl⟩
  · refine Counted.congr (h := h.setValue r.cell v.placed) (hb.counted.setValue hf fun d => ?_) rfl
    simp only [Heap.swap, Heap.defer, Heap.setValue, modifyCell, hd, hread, countedRoots,
      Value.targets_placed, Option.toList, List.map_append, List.map_cons, List.map_nil,
      List.count_append, List.count_cons, List.count_nil, List.nil_append]
    omega
  · have hl := hb.listed
    refine
      { hl with
        roots := ?_
        written := ?_
        unmarked := unmarked_setValue hb.counted.sound hl.unmarked r.cell v.placed }
    · refine hl.roots.trans (List.Perm.map _ ?_)
      simp only [listedRoots, Option.toList, List.flatMap_cons, List.flatMap_nil, List.append_nil]
      apply (List.perm_append_comm.cons r).trans
      exact List.perm_middle.symm
    · intro wr hw
      cases hw
      refine ⟨{ cell with value := v.placed }, ?_, Value.targets_placed v⟩
      show (h.setValue r.cell v.placed).find? r.cell = _
      rw [Heap.setValue, find?_modifyCell, if_pos rfl, hf]
      rfl

/-- Without the entries of the handles that went into the cell, what is listed is counted,
and what is queued is still to be given up. -/
theorem Balanced.unrootAnchors {wr : Writing} (hb : h.Balanced held (some wr)) :
    (h.unrootAll wr.anchors).Counted (h.deferred ++ (wr.root :: held).map Root.cell) ∧
      (h.unrootAll wr.anchors).Listed (wr.root :: held) none ∧
      ∃ roots, h.unrootAll wr.anchors = { h with roots } := by
  have hl : h.Listed (wr.anchors ++ (wr.root :: held)) none := by
    have hl := hb.listed
    refine { hl with
      roots := hl.roots.trans (List.Perm.map _ ?_)
      written := fun w hw => by cases hw }
    simp only [listedRoots, Option.toList, List.flatMap_cons, List.flatMap_nil, List.append_nil]
    exact List.perm_append_comm.trans List.perm_middle.symm
  obtain ⟨roots, he, hl'⟩ := hl.unrootAll
  rw [he]
  refine ⟨Counted.congr (h := h) (hb.counted.perm ?_) rfl, hl', roots, rfl⟩
  simp only [countedRoots, Option.toList, List.map_append, List.map_cons, List.map_nil]
  refine List.perm_append_comm.trans (List.Perm.append_left _ ?_)
  exact List.perm_append_comm

/-- The end of a write: the entries of the handles that went into the cell leave the
root list, and the queue is emptied. -/
theorem Balanced.finishWrite {wr : Writing} (hb : h.Balanced held (some wr)) :
    (h.finishWrite wr.anchors).heap.Balanced (wr.root :: held) none ∧
      (h.unrootAll wr.anchors).start.Thins (h.finishWrite wr.anchors) := by
  obtain ⟨hc, hl, roots, he⟩ := hb.unrootAnchors
  have hc₀ : (h.unrootAll wr.anchors).start.heap.Counted
      ((h.unrootAll wr.anchors).start.heap.deferred ++ (wr.root :: held).map Root.cell) := by
    rw [he] at hc ⊢
    exact hc
  obtain ⟨hc', ht⟩ := Reclamation.counted_drain hc₀
  have hl₀ : (h.unrootAll wr.anchors).start.heap.Listed (wr.root :: held) none := hl
  refine ⟨hl₀.balanced_of_thins ht hc₀ ?_ (Reclamation.deferred_drain _), ht⟩
  rw [countedRoots_none]
  exact hc'

/-- One more reference in a slot that is not in a cell yet. -/
theorem Balanced.retainSlot (hb : h.Balanced held none) {t : Slot} (ht : ∀ d ∈ t, h.Live d) :
    (h.retainSlot t).Counted (t.toList ++ held.map Root.cell) ∧
      (h.retainSlot t).cells.map uncounted = h.cells.map uncounted ∧
      ∃ objects, h.retainSlot t = { h with objects } := by
  have hd := hb.deferred rfl
  have hc : h.Counted (held.map Root.cell) := by
    have := hb.counted
    rwa [hd, List.append_nil, countedRoots_none] at this
  cases t with
  | none => exact ⟨hc, rfl, h.objects, rfl⟩
  | some d =>
      obtain ⟨cell, hf⟩ := ht d rfl
      have he : h.retainSlot (some d) =
          h.modifyCell d fun cell => { cell with count := cell.count + 1 } :=
        retain_of_live hc.sound (ht d rfl)
      rw [he]
      refine ⟨hc.recount hf (fun _ => rfl) (Nat.succ_pos _) ?_ fun e he => ?_,
        uncounted_modifyCell hc.sound d fun _ => rfl, _, rfl⟩
      · rw [Option.toList, List.singleton_append, List.count_cons_self]
        simp only
        omega
      · rw [Option.toList, List.singleton_append, List.count_cons_of_ne (Ne.symm he)]

theorem Balanced.countOf_retainSlot (hb : h.Balanced held none) {t : Slot}
    (ht : ∀ d ∈ t, h.Live d) (d : CellId) :
    (h.retainSlot t).countOf d = h.countOf d + t.toList.count d := by
  obtain ⟨hc, hcells, -⟩ := hb.retainSlot ht
  have hslots : slotTargets (h.retainSlot t).cells = slotTargets h.cells := by
    rw [← slotTargets_map (f := uncounted) (fun _ => rfl), hcells,
      slotTargets_map (f := uncounted) fun _ => rfl]
  have hcount := hb.counted.count d
  rw [hb.deferred rfl, List.append_nil, countedRoots_none] at hcount
  rw [hc.count, hslots, hcount, List.count_append]
  omega

/-- The heap with the value `v` in the cell `c` and one more reference to `t` counted; what
the old value referred to is still to be given up. -/
def rewritten (h : Heap) (c : CellId) (v : Value Slot) (t : Slot) : Heap :=
  (h.retainSlot t).setValue c v

section Rewrite

variable {c : CellId} {cell : Cell} {t : Slot} {v : Value Slot} {displaced : List CellId}

theorem Balanced.rewritten_eq (hb : h.Balanced held none) (ht : ∀ d ∈ t, h.Live d)
    (c : CellId) (v : Value Slot) :
    (h.rewritten c v t).cells.map uncounted = (h.setValue c v).cells.map uncounted ∧
      ∃ objects, h.rewritten c v t = { h with objects } := by
  obtain ⟨hc, hcells, objects, he⟩ := hb.retainSlot ht
  refine ⟨?_, (h.rewritten c v t).objects, ?_⟩
  · rw [rewritten, uncounted_setValue hc.sound, hcells, uncounted_setValue hb.counted.sound]
  · rw [rewritten, he]
    rfl

/-- The references that the old value had and the new one has not are counted for now. -/
theorem Balanced.counted_rewritten (hb : h.Balanced held none) (hf : h.find? c = some cell)
    (ht : ∀ d ∈ t, h.Live d)
    (hn : ∀ d, displaced.count d + v.targets.count d =
      t.toList.count d + cell.value.targets.count d) :
    (h.rewritten c v t).Counted (displaced ++ held.map Root.cell) := by
  obtain ⟨hc, hcells, -⟩ := hb.retainSlot ht
  obtain ⟨cell', hf', hv⟩ := find?_of_uncounted hb.counted hc hcells hf
  apply hc.setValue hf'
  intro d
  have := hn d
  rw [hv, List.count_append, List.count_append]
  omega

/-- A writer puts a value into a cell that differs from the old one by references to
the target, which are new, and by displaced references, which are given up. -/
theorem Balanced.rewrite (hb : h.Balanced held none) (hf : h.find? c = some cell)
    (ht : ∀ d ∈ t, h.Live d)
    (hn : ∀ d, displaced.count d + v.targets.count d =
      t.toList.count d + cell.value.targets.count d) :
    ((((h.retainSlot t).setValue c v).defer displaced).finishWrite []).heap.Balanced held none ∧
      (((h.retainSlot t).setValue c v).defer displaced).start.Thins
        ((((h.retainSlot t).setValue c v).defer displaced).finishWrite []) ∧
      (((h.retainSlot t).setValue c v).defer displaced).cells.map uncounted =
        (h.setValue c v).cells.map uncounted ∧
      (((h.retainSlot t).setValue c v).defer displaced).config = h.config := by
  have hd := hb.deferred rfl
  have hc₁ := hb.counted_rewritten hf ht hn
  obtain ⟨hcells, objects, he⟩ := hb.rewritten_eq ht c v
  generalize hh : ((h.retainSlot t).setValue c v).defer displaced = h₁
  -- apart from its cells and its queue it is the heap before
  have hsame : h₁ = { h with objects := h₁.objects, deferred := displaced } := by
    rw [← hh, ← rewritten, he]
    simp [Heap.defer, hd]
  have hc₂ : h₁.start.heap.Counted (h₁.start.heap.deferred ++ held.map Root.cell) := by
    have hdef : h₁.start.heap.deferred = displaced := by rw [hsame]; rfl
    rw [hdef]
    exact hc₁.congr (by rw [← hh]; rfl)
  have hcells₁ : h₁.cells.map uncounted = (h.setValue c v).cells.map uncounted := by
    rw [← hh]
    exact hcells
  have hl : h₁.start.heap.Listed held none := by
    have hu : h₁.Unmarked := unmarked_of_uncounted
      (unmarked_setValue hb.counted.sound hb.listed.unmarked c v) hcells₁
    rw [hsame] at hu ⊢
    exact { hb.listed with written := (fun wr hw => by cases hw), unmarked := hu }
  obtain ⟨hc₃, ht₃⟩ := Reclamation.counted_drain hc₂
  rw [← countedRoots_none held] at hc₃
  refine ⟨hl.balanced_of_thins ht₃ hc₂ hc₃ (Reclamation.deferred_drain _), ht₃, hcells₁, ?_⟩
  rw [hsame]

end Rewrite

theorem write_eq_ok {c : CellId} {cell : Cell} (hf : h.find? c = some cell) {p : Position}
    {t : Slot} {r : Reclamation} (hw : h.write c p t = .ok r) :
    ∃ displaced, cell.value.get p = .ok displaced ∧
      r = (((h.retainSlot t).setValue c (cell.value.replace p t)).defer
        displaced.toList).finishWrite [] := by
  have hread : h.read c = cell.value := by
    simp [Heap.read, hf]
  simp only [Heap.write, hread] at hw
  split at hw
  · cases hw
  · rename_i displaced hg
    cases hw
    exact ⟨displaced, hg, rfl⟩

theorem append_eq_ok {c : CellId} {cell : Cell} (hf : h.find? c = some cell) {t : Slot}
    {r : Reclamation} (hw : h.append c t = .ok r) :
    ∃ v, cell.value.append t = .ok v ∧
      r = (((h.retainSlot t).setValue c v).defer []).finishWrite [] := by
  have hread : h.read c = cell.value := by
    simp [Heap.read, hf]
  simp only [Heap.append, hread] at hw
  split at hw
  · cases hw
  · rename_i v hg
    cases hw
    refine ⟨v, hg, ?_⟩
    simp only [Heap.defer, List.append_nil]

/-- Writing one position exchanges the displaced reference for the new one. -/
theorem count_targets_replace {v : Value Slot} {p : Position} {x : Slot} (h : v.get p = .ok x)
    (y : Slot) (d : CellId) :
    x.toList.count d + (v.replace p y).targets.count d =
      y.toList.count d + v.targets.count d := by
  obtain ⟨l₁, l₂, hx, hy⟩ := Value.children_replace h
  simp only [Value.targets, hx, hy y, List.filterMap_append, filterMap_id_cons, List.count_append]
  omega

theorem count_targets_append {v v' : Value Slot} {y : Slot} (h : v.append y = .ok v')
    (d : CellId) : v'.targets.count d = y.toList.count d + v.targets.count d := by
  obtain ⟨hc, -⟩ := Value.append_eq_ok h
  rw [Value.targets, hc, List.filterMap_append, filterMap_id_cons, List.filterMap_nil,
    List.append_nil, List.count_append, Nat.add_comm]
  rfl

end Heap

end HybridHeap
