import Mathlib.Data.List.Basic
import HybridHeap.Proofs.Heap.Mark
import HybridHeap.Proofs.Heap.Release

/-!
A collection keeps what the roots reach and frees everything else
(`Reclamation.Collectable.exact_collect`). Garbage may refer to cells that stay. These
references are given up one by one, and none of them is the last one: a cell that is
reached is held from outside or from the slot of another cell that is reached.
-/

namespace HybridHeap

/-- A cell whose count has fallen by the number of its occurrences in a list. -/
def lowered (given : List CellId) (p : CellId × Cell) : CellId × Cell :=
  (p.1, { p.2 with count := p.2.count - given.count p.1 })

theorem map_lowered_nil (cells : List (CellId × Cell)) : cells.map (lowered []) = cells :=
  List.map_id cells

namespace Heap

open Classical in
/-- The live cells that the roots reach, from the newest to the oldest. -/
noncomputable def reachedCells (h : Heap) : List (CellId × Cell) :=
  h.cells.filter fun p => decide (h.Reached p.1)

open Classical in
/-- The live cells that the roots do not reach, from the newest to the oldest. -/
noncomputable def garbage (h : Heap) : List (CellId × Cell) :=
  h.cells.filter fun p => !decide (h.Reached p.1)

theorem mem_reachedCells {h : Heap} {p : CellId × Cell} :
    p ∈ h.reachedCells ↔ p ∈ h.cells ∧ h.Reached p.1 := by
  simp [reachedCells]

theorem mem_garbage {h : Heap} {p : CellId × Cell} :
    p ∈ h.garbage ↔ p ∈ h.cells ∧ ¬h.Reached p.1 := by
  simp [garbage]

/-- Reachability depends on the cells and the root list only. -/
theorem reached_congr {h h' : Heap} (ho : h'.objects = h.objects) (hr : h'.roots = h.roots)
    (c : CellId) : h'.Reached c ↔ h.Reached c := by
  have hroots : h'.rootTargets = h.rootTargets := by rw [rootTargets, hr, rootTargets]
  have hfind : ∀ d, h'.find? d = h.find? d := fun d => by rw [find?, ho, find?]
  rw [Reached, Reached, hroots]
  constructor
  · exact fun h₁ => h₁.congr fun d cell hf => ⟨cell, hfind d ▸ hf, rfl⟩
  · exact fun h₁ => h₁.congr fun d cell hf => ⟨cell, (hfind d).trans hf, rfl⟩

theorem reachedCells_congr {h h' : Heap} (ho : h'.objects = h.objects) (hr : h'.roots = h.roots) :
    h'.reachedCells = h.reachedCells := by
  rw [reachedCells, reachedCells, cells, ho]
  exact List.filter_congr fun p _ => decide_eq_decide.mpr (reached_congr ho hr p.1)

theorem garbage_congr {h h' : Heap} (ho : h'.objects = h.objects) (hr : h'.roots = h.roots) :
    h'.garbage = h.garbage := by
  rw [garbage, garbage, cells, ho]
  apply List.filter_congr
  intro p _
  rw [decide_eq_decide.mpr (reached_congr ho hr p.1)]

/-- Every live cell is either reached or garbage. -/
theorem cells_perm (h : Heap) : h.cells.Perm (h.reachedCells ++ h.garbage) :=
  (List.filter_append_perm _ _).symm

theorem count_slotTargets_cells (h : Heap) (c : CellId) :
    (slotTargets h.cells).count c =
      (slotTargets h.reachedCells).count c + (slotTargets h.garbage).count c := by
  rw [(slotTargets_perm h.cells_perm).count_eq, slotTargets, List.flatMap_append,
    List.count_append]
  rfl

/-- The root list names everything that is held from outside, and whatever else it
names is in a slot of a cell that is held from outside. -/
structure Rooted (h : Heap) (held : List CellId) : Prop where
  mem_roots : ∀ c ∈ held, c ∈ h.rootTargets
  held_or_slot : ∀ c ∈ h.rootTargets,
    c ∈ held ∨ ∃ a ∈ held, ∃ cell, h.find? a = some cell ∧ c ∈ cell.value.targets

theorem Rooted.closed {h : Heap} {held : List CellId} (hr : h.Rooted held)
    (hc : h.Counted held) : h.Closed where
  sound := hc.sound
  roots c hm := by
    rcases hr.held_or_slot c hm with h' | ⟨a, -, cell, hf, ht⟩
    · exact hc.live_of_mem h'
    · exact hc.live_of_target hf ht
  slots c cell hf d hd := hc.live_of_target hf hd

/-- Where everything is reached there is no garbage. -/
theorem Counted.garbage_of_reached {h : Heap} {held : List CellId} (hc : h.Counted held)
    (hall : ∀ c, h.Live c → h.Reached c) : h.reachedCells = h.cells ∧ h.garbage = [] := by
  have hlive : ∀ p ∈ h.cells, h.Reached p.1 := fun p hp =>
    hall p.1 ⟨p.2, hc.find?_eq_some_iff.mpr hp⟩
  constructor
  · apply List.filter_eq_self.mpr
    intro p hp
    simpa using hlive p hp
  · apply List.filter_eq_nil_iff.mpr
    intro p hp
    simpa using hlive p hp

/-- What is reached stays referred to when the garbage is gone. -/
theorem Rooted.referred_of_reached {h : Heap} {held : List CellId} (hr : h.Rooted held)
    (hc : h.Counted held) {c : CellId} (hreach : h.Reached c) :
    0 < held.count c + (slotTargets h.reachedCells).count c := by
  have hslot : ∀ a cell, h.Reached a → h.find? a = some cell → c ∈ cell.value.targets →
      0 < (slotTargets h.reachedCells).count c := by
    intro a cell ha hf ht
    rw [List.count_pos_iff, mem_slotTargets]
    exact ⟨(a, cell), mem_reachedCells.mpr ⟨hc.find?_eq_some_iff.mp hf, ha⟩, ht⟩
  cases hreach with
  | source hs =>
      rcases hr.held_or_slot c hs with h' | ⟨a, ha, cell, hf, ht⟩
      · have := List.count_pos_iff.mpr h'
        omega
      · have := hslot a cell (.source (hr.mem_roots a ha)) hf ht
        omega
  | slot ha hf ht =>
      have := hslot _ _ ha hf ht
      omega

/-- References from the garbage to a cell that stays are not all of its count. -/
theorem Rooted.lost_lt {h : Heap} {held : List CellId} (hr : h.Rooted held)
    (hc : h.Counted held) {c : CellId} {cell : Cell} (hf : h.find? c = some cell)
    (hreach : h.Reached c) : (slotTargets h.garbage).count c < cell.count := by
  have hcount := hc.count c
  have hpos := hr.referred_of_reached hc hreach
  rw [countOf_of_find? hf, count_slotTargets_cells] at hcount
  omega

end Heap

namespace Reclamation

/-- References that are not the last ones to their targets are given up without
freeing anything. -/
theorem releaseEach_eq {r : Reclamation} (hs : r.heap.objects.Sound) {work : List CellId}
    (hw : ∀ c ∈ work, ∃ cell, r.heap.find? c = some cell ∧ work.count c < cell.count) :
    ∃ objects, objects.Sound ∧ objects.toList = r.heap.cells.map (lowered work) ∧
      r.releaseEach work = { r with heap := { r.heap with objects } } := by
  induction work generalizing r with
  | nil =>
      refine ⟨r.heap.objects, hs, ?_, rfl⟩
      rw [map_lowered_nil]
      rfl
  | cons c work ih =>
      obtain ⟨cell, hf, hlt⟩ := hw c List.mem_cons_self
      rw [List.count_cons_self] at hlt
      -- the release of one reference lowers the count and stops there
      obtain ⟨n, hn⟩ : ∃ n, cell.count = n + 2 := ⟨cell.count - 2, by omega⟩
      have hstep : r.release [c] =
          r.map (·.modifyCell c fun cell => { cell with count := n + 1 }) := by
        rw [release]
        simp only [hf]
        split
        · omega
        · omega
        · rename_i m hm
          rw [release]
          have : m = n := by omega
          rw [this]
      obtain ⟨objects, ho, hl, he⟩ :=
        ih (r := r.map (·.modifyCell c fun cell => { cell with count := n + 1 }))
          (hs.modify c fun cell => { cell with count := n + 1 }) fun d hd => by
        obtain ⟨cell', hf', hlt'⟩ := hw d (List.mem_cons_of_mem c hd)
        by_cases hdc : d = c
        · subst hdc
          refine ⟨{ cell with count := n + 1 }, ?_, ?_⟩
          · simp [map, hf]
          · simp only
            omega
        · rw [List.count_cons_of_ne (Ne.symm hdc)] at hlt'
          exact ⟨cell', by simp [map, hdc, hf'], hlt'⟩
      refine ⟨objects, ho, ?_, ?_⟩
      · rw [hl]
        show ((r.heap.modifyCell c _).cells.map _) = _
        rw [Heap.cells_modifyCell hs, List.map_map]
        apply List.map_congr_left
        intro p hp
        simp only [Function.comp_apply, lowered]
        by_cases hp' : p.1 = c
        · have hcell : r.heap.find? p.1 = some p.2 := hs.find?_eq_some_iff.mpr hp
          rw [hp', hf, Option.some.injEq] at hcell
          rw [if_pos hp', hp', List.count_cons_self, ← hcell, hn]
          simp only [Prod.mk.injEq, Cell.mk.injEq, true_and, and_true]
          omega
        · rw [if_neg hp', List.count_cons_of_ne (Ne.symm hp')]
      · show (r.release [c]).releaseEach work = _
        rw [hstep, he]
        rfl

/-- Burying several cells leaves the others in their order. -/
theorem buryAll_eq {r : Reclamation} (hs : r.heap.objects.Sound) {doomed : List (CellId × Cell)}
    (hd : (doomed.map Prod.fst).Nodup) (hm : ∀ p ∈ doomed, r.heap.Live p.1) :
    ∃ objects, objects.Sound ∧
      objects.toList = (r.heap.cells.filter fun p => p.1 ∉ doomed.map Prod.fst) ∧
      r.buryAll doomed = { r with
        heap := { r.heap with objects },
        graveyard := (doomed.map grave).reverse ++ r.graveyard } := by
  induction doomed generalizing r with
  | nil =>
      exact ⟨r.heap.objects, hs, (List.filter_eq_self.mpr (by simp)).symm, rfl⟩
  | cons p doomed ih =>
      rw [List.map_cons, List.nodup_cons] at hd
      obtain ⟨cell, hf⟩ := hm p List.mem_cons_self
      obtain ⟨objects, hr, ho, hl⟩ := hs.remove (hs.find?_eq_some_iff.mp hf)
      have hb : r.bury p.1 p.2 = .ok { r with
          heap := { r.heap with objects }, graveyard := grave p :: r.graveyard } := by
        simp only [bury, hr]
        rfl
      obtain ⟨objects', ho', hl', he⟩ := ih
          (r := { r with heap := { r.heap with objects }, graveyard := grave p :: r.graveyard })
          ho hd.2 fun q hq => by
        obtain ⟨cell', hf'⟩ := hm q (List.mem_cons_of_mem p hq)
        have hne : q.1 ≠ p.1 := fun h' => hd.1 (h' ▸ List.mem_map_of_mem hq)
        refine ⟨cell', ?_⟩
        have := hs.find?_of_filter ho (fun k => k ≠ p.1) hl q.1
        simpa [Heap.find?, this, hne] using hf'
      refine ⟨objects', ho', ?_, ?_⟩
      · rw [hl']
        show (objects.toList.filter _) = _
        rw [hl, List.filter_filter]
        apply List.filter_congr
        intro q _
        by_cases hq : q.1 = p.1 <;> simp [hq]
      · simp only [buryAll, hb, he]
        simp

end Reclamation

namespace Heap

/-- The heap with all marks cleared, as a sweep leaves it. -/
def clearMarks (h : Heap) : Heap :=
  { h with objects := h.objects.mapItems fun cell => { cell with marked := false } }

theorem sound_clearMarks {h : Heap} (hs : h.objects.Sound) : h.clearMarks.objects.Sound :=
  hs.mapItems fun cell => { cell with marked := false }

/-- Clearing the marks gives back the cells as they were before marking. -/
theorem cells_clearMarks {h₀ h : Heap} (hu : h₀.Unmarked) (hr : Remarked h₀ h) :
    h.clearMarks.cells = h₀.cells := by
  rw [cells, clearMarks, hr.sound.toList_mapItems]
  exact hr.cells.trans hu.map_cells

/-- The cells without a mark are the garbage, marks aside. -/
theorem map_cleared_filter {h₀ h : Heap} (hu : h₀.Unmarked) (hr : Remarked h₀ h)
    (hm : ∀ c, h.isMarked c = true ↔ h₀.Reached c) :
    (h.cells.filter fun p => !p.2.marked).map cleared = h₀.garbage := by
  have hmark : (h.cells.filter fun p => !p.2.marked) =
      h.cells.filter ((fun p => !h.isMarked p.1) ∘ cleared) := by
    apply List.filter_congr
    intro p hp
    rw [← isMarked_of_mem hr.sound hp]
    rfl
  rw [hmark, ← List.filter_map, hr.cells, hu.map_cells, garbage]
  apply List.filter_congr
  intro p _
  rw [Bool.eq_iff_iff]
  simp [← hm]

theorem filter_not_garbage (h : Heap) :
    (h.cells.filter fun p => p.1 ∉ h.garbage.map Prod.fst) = h.reachedCells := by
  apply List.filter_congr
  intro p hp
  rw [decide_eq_decide, List.mem_map]
  constructor
  · intro hn
    by_contra hr
    exact hn ⟨p, mem_garbage.mpr ⟨hp, hr⟩, rfl⟩
  · rintro hr ⟨q, hq, he⟩
    exact (mem_garbage.mp hq).2 (he ▸ hr)

/-- The references from garbage to cells that stay. -/
theorem survivors_eq {h₀ h : Heap} (hc : h₀.Closed) (hr : Remarked h₀ h)
    {doomed : List (CellId × Cell)} (hd : doomed.map cleared = h₀.garbage) :
    (doomed.flatMap fun p => p.2.value.targets.filter fun c =>
        (h.objects.find? c).all Cell.marked) =
      (slotTargets h₀.garbage).filter h.isMarked := by
  have hg : slotTargets h₀.garbage = slotTargets doomed := by
    rw [← hd]
    exact slotTargets_map (f := cleared) (fun _ => rfl) doomed
  have hstay : ∀ c, h₀.Live c → (h.objects.find? c).all Cell.marked = h.isMarked c := by
    intro c hl
    obtain ⟨cell, hf⟩ := hr.live hl
    rw [isMarked, hf]
    simp only [find?] at hf
    rw [hf]
    rfl
  rw [hg, slotTargets, List.filter_flatMap]
  refine List.flatMap_congr fun p hp => List.filter_congr fun c hct => hstay c ?_
  have hpg : cleared p ∈ h₀.garbage := hd ▸ List.mem_map_of_mem hp
  exact hc.slots p.1 _ (hc.sound.find?_eq_some_iff.mpr (mem_garbage.mp hpg).1) c hct

end Heap

namespace Reclamation

/-- Sweeping a heap on which what is reached is marked. -/
theorem sweep_eq {r : Reclamation} {h₀ : Heap} {held : List CellId} (hc : h₀.Counted held)
    (hr : h₀.Rooted held) (hu : h₀.Unmarked) (hm : Heap.Remarked h₀ r.heap)
    (hmark : ∀ c, r.heap.isMarked c = true ↔ h₀.Reached c) :
    ∃ objects, objects.Sound ∧
      objects.toList = h₀.reachedCells.map (lowered (slotTargets h₀.garbage)) ∧
      r.sweep = ({ r with
        heap := { r.heap with objects },
        graveyard := (h₀.garbage.map grave).reverse ++ r.graveyard }, h₀.garbage.length) := by
  have hclosed := hr.closed hc
  have hdoomed := Heap.map_cleared_filter hu hm hmark
  generalize hdef : (r.heap.cells.filter fun p => !p.2.marked) = doomed at hdoomed
  have hkeys : doomed.map Prod.fst = h₀.garbage.map Prod.fst := by
    rw [← hdoomed, List.map_map]
    rfl
  have hgraves : doomed.map grave = h₀.garbage.map grave := by
    rw [← hdoomed, List.map_map]
    rfl
  have hlen : doomed.length = h₀.garbage.length := by
    rw [← hdoomed, List.length_map]
  have hclear := Heap.cells_clearMarks hu hm
  have hdistinct : (doomed.map Prod.fst).Nodup := by
    rw [hkeys]
    exact hc.sound.nodup.sublist (List.filter_sublist.map _)
  have hlive : ∀ p ∈ doomed, r.heap.clearMarks.Live p.1 := by
    intro p hp
    obtain ⟨q, hq, he⟩ := List.mem_map.mp (hkeys ▸ List.mem_map_of_mem (f := Prod.fst) hp)
    have hmem := (Heap.mem_garbage.mp hq).1
    rw [← hclear] at hmem
    exact ⟨q.2, he ▸ (Heap.sound_clearMarks hm.sound).find?_eq_some_iff.mpr hmem⟩
  obtain ⟨objects, ho, hl, hbury⟩ := buryAll_eq (r := r.map Heap.clearMarks)
    (Heap.sound_clearMarks hm.sound) hdistinct hlive
  have hkept : objects.toList = h₀.reachedCells := by
    rw [hl]
    show r.heap.clearMarks.cells.filter _ = _
    rw [hclear, hkeys, Heap.filter_not_garbage]
  -- no reference from the garbage is the last one to a cell that stays
  have hlast : ∀ c ∈ (slotTargets h₀.garbage).filter r.heap.isMarked, ∃ cell,
      { r.heap with objects }.find? c = some cell ∧
        ((slotTargets h₀.garbage).filter r.heap.isMarked).count c < cell.count := by
    intro c hcw
    obtain ⟨-, hcm⟩ := List.mem_filter.mp hcw
    have hreach := (hmark c).mp hcm
    obtain ⟨cell, hf⟩ := hclosed.live_of_reached hreach
    refine ⟨cell, ?_, ?_⟩
    · rw [Heap.find?, ho.find?_eq_some_iff, hkept]
      exact Heap.mem_reachedCells.mpr ⟨hc.find?_eq_some_iff.mp hf, hreach⟩
    · rw [List.count_filter hcm]
      exact hr.lost_lt hc hf hreach
  obtain ⟨lowest, hlow, hlist, hrel⟩ := releaseEach_eq
    (r := { r with
      heap := { r.heap with objects },
      graveyard := (doomed.map grave).reverse ++ r.graveyard }) ho hlast
  refine ⟨lowest, hlow, ?_, ?_⟩
  · rw [hlist]
    show objects.toList.map _ = _
    rw [hkept]
    apply List.map_congr_left
    intro p hp
    have hp' := (hmark p.1).mpr (Heap.mem_reachedCells.mp hp).2
    rw [lowered, lowered, List.count_filter hp']
  · have hsweep : r.sweep = (((r.map Heap.clearMarks).buryAll doomed).releaseEach
        (doomed.flatMap fun p => p.2.value.targets.filter fun c =>
          (r.heap.objects.find? c).all Cell.marked), doomed.length) := by
      rw [← hdef]
      rfl
    rw [hsweep, hbury, Heap.survivors_eq hclosed hm hdoomed, hlen, ← hgraves]
    exact congrArg (·, h₀.garbage.length) hrel

/-- The outcome of a collection: the cells reached stay in their order, each with
as many counts less as the garbage had references to it, and the garbage lies in the
graveyard. -/
theorem collect_eq {r : Reclamation} {held : List CellId} (hc : r.heap.Counted held)
    (hr : r.heap.Rooted held) (hu : r.heap.Unmarked) (hd : r.heap.deferred = []) :
    ∃ objects traced, objects.Sound ∧
      objects.toList = r.heap.reachedCells.map (lowered (slotTargets r.heap.garbage)) ∧
      r.collect =
        { heap := { r.heap with
            objects,
            capacity := max r.heap.capacity
              (r.heap.reachedCells.length + r.heap.reachedCells.length / 2),
            phase := .idle,
            counters := { r.heap.counters with
              collections := r.heap.counters.collections + 1,
              swept := r.heap.counters.swept + r.heap.garbage.length } },
          graveyard := (r.heap.garbage.map grave).reverse ++ r.graveyard,
          events := .collected r.heap.cells.length r.heap.reachedCells.length
            r.heap.garbage.length traced
            (max r.heap.capacity (r.heap.reachedCells.length + r.heap.reachedCells.length / 2))
              :: r.events } := by
  -- phases are invisible to the cells, so the facts on `r.heap` hold in each of them
  obtain ⟨hremark, hmarked, hpending⟩ := Heap.mark_spec (h := { r.heap with phase := .marking })
    (Heap.Rooted.closed ⟨hr.mem_roots, hr.held_or_slot⟩ (hc.congr rfl)) hu hd
  generalize hmark : { r.heap with phase := .marking }.mark = marking at hremark hmarked hpending
  have hsweeping : Heap.Remarked { r.heap with phase := .sweeping }
      { marking.heap with phase := .sweeping } := by
    refine ⟨hc.sound, hremark.sound, ?_, hremark.cells⟩
    rw [hremark.rest]
  have hphase : ∀ c, { r.heap with phase := .marking }.Reached c ↔
      { r.heap with phase := .sweeping }.Reached c := by
    intro c
    refine Heap.reached_congr ?_ ?_ c <;> rfl
  have hcounted : { r.heap with phase := .sweeping }.Counted held := hc.congr rfl
  have hrooted : { r.heap with phase := .sweeping }.Rooted held :=
    ⟨hr.mem_roots, hr.held_or_slot⟩
  obtain ⟨objects, hs, hl, hsweep⟩ := sweep_eq
    (r := { r with heap := { marking.heap with phase := .sweeping } }) hcounted hrooted hu
    hsweeping fun c => (hmarked c).trans (hphase c)
  have hgarbage : { r.heap with phase := .sweeping }.garbage = r.heap.garbage :=
    Heap.garbage_congr (h := r.heap) rfl rfl
  have hreached : { r.heap with phase := .sweeping }.reachedCells = r.heap.reachedCells :=
    Heap.reachedCells_congr (h := r.heap) rfl rfl
  rw [hreached, hgarbage] at hl
  rw [hgarbage] at hsweep
  have hlen : objects.length = r.heap.reachedCells.length := by
    rw [hs.length_eq, hl, List.length_map]
  refine ⟨objects, marking.traced, hs, hl, ?_⟩
  simp only [collect, hmark, hsweep, hpending, releaseEach, List.foldl_nil]
  rw [drain_of_deferred_nil]
  · simp only [map, report, hlen]
    rw [hremark.rest, hc.sound.length_eq]
    rfl
  · rw [hremark.rest]
    exact hd

/-- What a heap has to meet when a collection starts, so that the collection is
exact: its counts are right, its root list names what is held, no mark is left over
and no reference waits to be given up. -/
structure Collectable (r : Reclamation) (held : List CellId) : Prop where
  counted : r.heap.Counted held
  rooted : r.heap.Rooted held
  unmarked : r.heap.Unmarked
  idle : r.heap.phase = .idle
  deferred : r.heap.deferred = []

/-- What a collection does to a heap, up to the payloads of the cells it frees. The cells
that the roots reach stay, in their order and with their values, and each gives up the
references to it from the others. These are in the graveyard, with their slots nulled. -/
structure Exact (r r' : Reclamation) : Prop where
  cells : r'.heap.cells.map (fun p => (p.1, p.2.value)) =
    r.heap.reachedCells.map fun p => (p.1, p.2.value)
  counts : ∀ c, r.heap.Reached c →
    r'.heap.countOf c + (slotTargets r.heap.garbage).count c = r.heap.countOf c
  roots : r'.heap.roots = r.heap.roots
  eagerFrees : r'.heap.counters.eagerFrees = r.heap.counters.eagerFrees
  swept : r'.heap.counters.swept = r.heap.counters.swept + r.heap.garbage.length
  collections : r'.heap.counters.collections = r.heap.counters.collections + 1
  capacity : r'.heap.capacity =
    max r.heap.capacity (r.heap.reachedCells.length + r.heap.reachedCells.length / 2)
  freed : ∃ graves, r'.graveyard = graves ++ r.graveyard ∧
    graves.map Freed.cell = (r.heap.garbage.map Prod.fst).reverse ∧
    ∀ f ∈ graves, ∀ s ∈ f.value.children, s = none

namespace Collectable

variable {r : Reclamation} {held : List CellId}

theorem report (h : r.Collectable held) (e : Event) : (r.report e).Collectable held :=
  ⟨h.counted, h.rooted, h.unmarked, h.idle, h.deferred⟩

/-- The collector is exact. -/
theorem exact_collect (h : r.Collectable held) : r.Exact r.collect := by
  obtain ⟨objects, traced, hs, hl, he⟩ := collect_eq h.counted h.rooted h.unmarked h.deferred
  rw [he]
  refine ⟨?_, fun c hreach => ?_, rfl, rfl, rfl, rfl, rfl, _, rfl, ?_, ?_⟩
  · show objects.toList.map _ = _
    rw [hl, List.map_map]
    rfl
  · obtain ⟨cell, hf⟩ := (h.rooted.closed h.counted).live_of_reached hreach
    have hlost := h.rooted.lost_lt h.counted hf hreach
    have hmem : (c, cell) ∈ r.heap.reachedCells :=
      Heap.mem_reachedCells.mpr ⟨h.counted.find?_eq_some_iff.mp hf, hreach⟩
    have hlow : objects.find? c =
        some { cell with count := cell.count - (slotTargets r.heap.garbage).count c } := by
      rw [hs.find?_eq_some_iff, hl]
      exact List.mem_map_of_mem (f := lowered (slotTargets r.heap.garbage)) hmem
    rw [Heap.countOf_of_find? hf, Heap.countOf, Heap.find?, hlow, Option.map_some,
      Option.getD_some]
    dsimp only
    omega
  · rw [List.map_reverse, List.map_map]
    rfl
  · intro f hf s hs'
    obtain ⟨p, -, rfl⟩ := List.mem_map.mp (List.mem_reverse.mp hf)
    change s ∈ p.2.value.nulled.children at hs'
    rw [Value.nulled, Value.children_map] at hs'
    obtain ⟨x, -, rfl⟩ := List.mem_map.mp hs'
    rfl

/-- Where nothing is garbage, a collection counts and reports itself, may raise the
threshold, and does nothing else. -/
theorem collect_of_reached (h : r.Collectable held)
    (hall : ∀ c, r.heap.Live c → r.heap.Reached c) :
    ∃ traced, r.collect =
      { heap := { r.heap with
          capacity := max r.heap.capacity (r.heap.cells.length + r.heap.cells.length / 2),
          counters := { r.heap.counters with collections := r.heap.counters.collections + 1 } },
        graveyard := r.graveyard,
        events := .collected r.heap.cells.length r.heap.cells.length 0 traced
          (max r.heap.capacity (r.heap.cells.length + r.heap.cells.length / 2)) :: r.events } := by
  obtain ⟨objects, traced, hs, hl, he⟩ := collect_eq h.counted h.rooted h.unmarked h.deferred
  obtain ⟨hreached, hgarbage⟩ := h.counted.garbage_of_reached hall
  rw [hgarbage, hreached, slotTargets_nil, map_lowered_nil] at hl
  have hobjects : objects = r.heap.objects := hs.ext h.counted.sound hl
  refine ⟨traced, ?_⟩
  rw [he, hreached, hgarbage, hobjects, ← h.idle]
  rfl

/-- A collection leaves what is held counted. -/
theorem counted_collect (h : r.Collectable held) : r.collect.heap.Counted held := by
  obtain ⟨objects, traced, hs, hl, he⟩ := collect_eq h.counted h.rooted h.unmarked h.deferred
  rw [he]
  have hfind : ∀ c cell, objects.find? c = some cell →
      ∃ old, r.heap.find? c = some old ∧ r.heap.Reached c ∧
        cell.count = old.count - (slotTargets r.heap.garbage).count c := by
    intro c cell hf
    rw [hs.find?_eq_some_iff, hl] at hf
    obtain ⟨p, hp, hpe⟩ := List.mem_map.mp hf
    obtain ⟨hcells, hreach⟩ := Heap.mem_reachedCells.mp hp
    simp only [lowered, Prod.mk.injEq] at hpe
    obtain ⟨rfl, rfl⟩ := hpe
    exact ⟨p.2, h.counted.find?_eq_some_iff.mpr hcells, hreach, rfl⟩
  constructor
  · exact hs
  · intro c
    show ((objects.find? c).map Cell.count).getD 0 = _ + (slotTargets objects.toList).count c
    rw [hl, slotTargets_map (f := lowered _) fun _ => rfl]
    have hcount := h.counted.count c
    rw [Heap.count_slotTargets_cells] at hcount
    cases hf : objects.find? c with
    | none =>
        -- nothing held and no slot of a cell that stays refers to a cell that went
        have hreach : ¬r.heap.Reached c := by
          intro hreach
          obtain ⟨cell, hcell⟩ := (h.rooted.closed h.counted).live_of_reached hreach
          rw [hs.find?_eq_none_iff, hl] at hf
          refine hf (List.mem_map.mpr ⟨lowered _ (c, cell), List.mem_map_of_mem ?_, rfl⟩)
          exact Heap.mem_reachedCells.mpr ⟨h.counted.find?_eq_some_iff.mp hcell, hreach⟩
        have hheld : held.count c = 0 :=
          List.count_eq_zero.mpr fun hm => hreach (.source (h.rooted.mem_roots c hm))
        have hslots : (slotTargets r.heap.reachedCells).count c = 0 := by
          refine List.count_eq_zero.mpr fun hm => hreach ?_
          obtain ⟨p, hp, ht⟩ := mem_slotTargets.mp hm
          obtain ⟨hcells, hp'⟩ := Heap.mem_reachedCells.mp hp
          exact .slot hp' (h.counted.find?_eq_some_iff.mpr hcells) ht
        simp [hheld, hslots]
    | some cell =>
        obtain ⟨old, hold, -, hlow⟩ := hfind c cell hf
        rw [Heap.countOf_of_find? hold] at hcount
        simp only [Option.map_some, Option.getD_some]
        omega
  · intro c cell hf
    obtain ⟨old, hold, hreach, hlow⟩ := hfind c cell hf
    have := h.rooted.lost_lt h.counted hold hreach
    omega

theorem thins_collect (h : r.Collectable held) : r.Thins r.collect := by
  obtain ⟨objects, traced, hs, hl, he⟩ := collect_eq h.counted h.rooted h.unmarked h.deferred
  rw [he]
  have hlength : r.heap.reachedCells.length ≤ r.heap.cells.length := List.length_filter_le ..
  refine ⟨rfl, rfl, rfl, h.idle.symm, rfl, rfl, Nat.le_add_right .., fun hr => ?_, ?_, ?_, ?_⟩
  · rw [Heap.Roomy] at hr
    dsimp only
    omega
  · show (objects.toList.map uncounted).Sublist _
    rw [hl, List.map_map]
    exact List.filter_sublist.map uncounted
  · show (objects.toList.map grave ++ _).Perm _
    rw [hl, List.map_map, population]
    have hperm : ((r.heap.reachedCells ++ r.heap.garbage).map grave ++ r.graveyard).Perm
        (r.heap.cells.map grave ++ r.graveyard) :=
      ((r.heap.cells_perm.map grave).symm).append_right _
    refine List.Perm.trans ?_ hperm
    rw [List.map_append, List.append_assoc]
    exact ((List.reverse_perm _).append_right _).append_left _
  · simp only [freedCells, List.length_append, List.length_reverse, List.length_map]
    omega

theorem deferred_collect (h : r.Collectable held) : r.collect.heap.deferred = [] := by
  obtain ⟨objects, traced, hs, hl, he⟩ := collect_eq h.counted h.rooted h.unmarked h.deferred
  rw [he]
  exact h.deferred

end Collectable

namespace Thins

variable {r r' : Reclamation}

theorem unmarked (h : r.Thins r') (hu : r.heap.Unmarked) : r'.heap.Unmarked := by
  intro p hp
  obtain ⟨old, hold, -, hmark⟩ := exists_of_uncounted h.cells.subset hp
  exact hmark.symm.trans (hu _ hold)

end Thins

/-- A check of the threshold collects or does nothing. -/
theorem Collectable.collectIfOver {r : Reclamation} {held : List CellId}
    (h : r.Collectable held) :
    r.collectIfOver.heap.Counted held ∧ r.Thins r.collectIfOver ∧
      r.collectIfOver.heap.deferred = [] := by
  unfold Reclamation.collectIfOver
  dsimp only
  split
  · have hr := h.report (.triggered r.heap.objects.length r.heap.capacity)
    have hthin : r.Thins (r.report (.triggered r.heap.objects.length r.heap.capacity)) :=
      ⟨rfl, rfl, rfl, rfl, rfl, rfl, Nat.le_refl _, fun _ => rfl, .refl _, .refl _, rfl⟩
    exact ⟨hr.counted_collect, hthin.trans hr.thins_collect, hr.deferred_collect⟩
  · exact ⟨h.counted, .refl r, h.deferred⟩

end Reclamation

end HybridHeap
