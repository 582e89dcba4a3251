import Mathlib.Data.List.Permutation
import Mathlib.Data.Prod.Lex
import Mathlib.Logic.Relation
import Mathlib.Order.Bounds.Basic
import HybridHeap.Proofs.Heap.Update

/-!
Which cells a release frees. A set of cells is closed under orphaning if it has every cell
that is referred to from its own cells only. A release frees the least such set, where what
is given up no longer counts as a reference, and it does so in whatever order it takes the
references that are still to be given up.
-/

namespace HybridHeap

open Relation (ReflTransGen)

namespace Heap

/-- The set has every live cell that is not among those held from outside and that is
referred to from cells of the set only. -/
def OrphanClosed (h : Heap) (held : List CellId) (S : Set CellId) : Prop :=
  ∀ d, h.Live d → d ∉ held → (∀ p ∈ h.cells, d ∈ p.2.value.targets → p.1 ∈ S) → d ∈ S

/-- What has to go when a reference to `c` is given up: `c` itself if that was the only
reference to it, and every other cell to which all references come from cells that go. -/
structure Orphaning (h : Heap) (held : List CellId) (c : CellId) (S : Set CellId) : Prop where
  target : c ∉ held → c ∉ slotTargets h.cells → c ∈ S
  other : ∀ d, d ≠ c → h.Live d → d ∉ held →
    (∀ p ∈ h.cells, d ∈ p.2.value.targets → p.1 ∈ S) → d ∈ S

section Closures

variable {h h' : Heap} {held : List CellId} {c d : CellId} {cell : Cell} {S F : Set CellId}

/-- Where every cell is referred to nothing has to go. -/
theorem Counted.orphanClosed_empty (hc : h.Counted held) : h.OrphanClosed held ∅ := by
  rintro d ⟨cell, hf⟩ hheld hfrom
  have hslot : d ∉ slotTargets h.cells := fun hs =>
    have ⟨p, hp, ht⟩ := mem_slotTargets.mp hs
    hfrom p hp ht
  have hcount := hc.count d
  rw [countOf_of_find? hf, List.count_eq_zero.mpr hheld, List.count_eq_zero.mpr hslot] at hcount
  have hpos := hc.positive d cell hf
  omega

/-- A heap without one of its cells. -/
theorem find?_of_cells_filter (h' : Heap) (hs : h.objects.Sound) (hs' : h'.objects.Sound)
    (hcells : h'.cells = h.cells.filter fun p => p.1 ≠ c) (d : CellId) :
    h'.find? d = if d = c then none else h.find? d := by
  have := hs.find?_of_filter hs' (fun d => d ≠ c) hcells d
  rw [find?, this]
  by_cases hd : d = c <;> simp [hd, find?]

theorem read_modifyCell (h : Heap) (c d : CellId) {f : Cell → Cell}
    (hf : ∀ cell, (f cell).value = cell.value) : (h.modifyCell c f).read d = h.read d := by
  by_cases hd : d = c
  · rw [read, read, find?_modifyCell, if_pos hd]
    cases h.find? d with
    | none => rfl
    | some cell => exact hf cell
  · rw [read, find?_modifyCell, if_neg hd, read]

theorem orphanClosed_congr (ho : h'.objects = h.objects) :
    h'.OrphanClosed held S ↔ h.OrphanClosed held S := by
  simp only [OrphanClosed, Live, find?, cells, ho]

/-- Counts do not matter to what is closed. -/
theorem orphanClosed_modifyCell (hs : h.objects.Sound) {f : Cell → Cell}
    (hf : ∀ cell, (f cell).value = cell.value) :
    (h.modifyCell c f).OrphanClosed held S ↔ h.OrphanClosed held S := by
  refine forall_congr' fun d => ?_
  have hlive : (h.modifyCell c f).Live d ↔ h.Live d := by
    simp only [Live, find?_modifyCell]
    split
    · cases h.find? d <;> simp
    · exact Iff.rfl
  have hfrom : (∀ p ∈ (h.modifyCell c f).cells, d ∈ p.2.value.targets → p.1 ∈ S) ↔
      ∀ p ∈ h.cells, d ∈ p.2.value.targets → p.1 ∈ S := by
    rw [cells_modifyCell hs, List.forall_mem_map]
    refine forall₂_congr fun p _ => ?_
    split
    · rw [hf]
    · exact Iff.rfl
  rw [hlive, hfrom]

/-- A cell that nothing refers to is in every closed set, and once it has gone the rest of
the set is closed. -/
theorem isLeast_insert (h' : Heap) (hs : h.objects.Sound) (hs' : h'.objects.Sound)
    (hcells : h'.cells = h.cells.filter fun p => p.1 ≠ c) (hlive : h.Live c) (hheld : c ∉ held)
    (hslot : c ∉ slotTargets h.cells) (hF : IsLeast {S | h'.OrphanClosed held S} F) :
    IsLeast {S | h.OrphanClosed held S} (insert c F) := by
  have hfind : ∀ d, d ≠ c → (h'.Live d ↔ h.Live d) := by
    intro d hd
    rw [Live, Live, find?_of_cells_filter h' hs hs' hcells, if_neg hd]
  have hmem : ∀ p, p ∈ h'.cells ↔ p ∈ h.cells ∧ p.1 ≠ c := by simp [hcells]
  constructor
  · intro d hl hd hfrom
    by_cases hdc : d = c
    · exact .inl hdc
    · refine .inr (hF.1 d ((hfind d hdc).mpr hl) hd fun p hp ht => ?_)
      obtain ⟨hp, hpc⟩ := (hmem p).mp hp
      exact (hfrom p hp ht).resolve_left hpc
  · intro S hS
    have hcS : c ∈ S := hS c hlive hheld fun p hp ht =>
      absurd (mem_slotTargets.mpr ⟨p, hp, ht⟩) hslot
    refine Set.insert_subset hcS (hF.2 fun d hl hd hfrom => ?_)
    by_cases hdc : d = c
    · exact hdc ▸ hcS
    · refine hS d ((hfind d hdc).mp hl) hd fun p hp ht => ?_
      by_cases hpc : p.1 = c
      · exact hpc ▸ hcS
      · exact hfrom p ((hmem p).mpr ⟨hp, hpc⟩) ht

/-- For a single reference given up the closed sets may be described from its target on. -/
theorem Counted.isLeast_orphaning (hc : h.Counted (c :: held))
    (hF : IsLeast {S | h.OrphanClosed held S} F) : IsLeast {S | h.Orphaning held c S} F := by
  constructor
  · constructor
    · intro hheld hslot
      exact hF.1 c (hc.live_of_mem List.mem_cons_self) hheld fun p hp ht =>
        absurd (mem_slotTargets.mpr ⟨p, hp, ht⟩) hslot
    · exact fun d _ => hF.1 d
  · intro S hS
    by_cases hother : c ∈ held ∨ c ∈ slotTargets h.cells
    · -- the target stays, and so does everything else
      have hempty : h.OrphanClosed held ∅ := by
        intro d hl hd hfrom
        by_cases hdc : d = c
        · obtain hheld | hslot := hother
          · exact absurd hheld (hdc ▸ hd)
          · obtain ⟨p, hp, ht⟩ := mem_slotTargets.mp hslot
            exact hfrom p hp (hdc ▸ ht)
        · exact hc.orphanClosed_empty d hl (by simp [hdc, hd]) hfrom
      exact (hF.2 hempty).trans (Set.empty_subset S)
    · rw [not_or] at hother
      refine hF.2 fun d hl hd hfrom => ?_
      by_cases hdc : d = c
      · exact hdc ▸ hS.target hother.1 hother.2
      · exact hS.other d hdc hl hd hfrom

/-- Counts are determined by the values of the cells and by what is held. -/
theorem Counted.cells_eq (hc : h.Counted held) (hc' : h'.Counted held)
    (he : h'.cells.map uncounted = h.cells.map uncounted) : h'.cells = h.cells := by
  have hrecount : ∀ {h : Heap}, h.Counted held → h.cells = (h.cells.map uncounted).map fun p =>
      (p.1, { p.2 with count := h.countOf p.1 }) := by
    intro h hc
    rw [List.map_map]
    refine (List.map_id _).symm.trans (List.map_congr_left fun p hp => ?_)
    simp only [Function.comp_apply, uncounted, countOf_of_find? (hc.find?_eq_some_iff.mpr hp), id]
  have hcount : ∀ d, h'.countOf d = h.countOf d := by
    intro d
    rw [hc.count, hc'.count, ← slotTargets_map (f := uncounted) (fun _ => rfl), he,
      slotTargets_map (f := uncounted) fun _ => rfl]
  rw [hrecount hc', hrecount hc, he]
  simp only [hcount]

end Closures

end Heap

namespace Reclamation

/-- Give up one reference. If its target goes, the references in the slots of the target
are still to be given up. -/
def giveUp (r : Reclamation) (c : CellId) : Reclamation × List CellId :=
  match r.heap.find? c with
  | none => (r.map (·.fault (.absentCell c)), [])
  | some cell =>
    match cell.count with
    | 0 => (r.map (·.fault (.countUnderflow c)), [])
    | 1 =>
      match r.bury c cell with
      | .error f => (r.map (·.fault (.link f)), [])
      | .ok buried =>
        let freed := buried.map fun h =>
          { h with counters := { h.counters with eagerFrees := h.counters.eagerFrees + 1 } }
        (freed.report (.freed c), cell.value.targets)
    | n + 2 => (r.map (·.modifyCell c fun cell => { cell with count := n + 1 }), [])

/-- What is left once a cell is freed, given the cells that stay. -/
def withFreed (r : Reclamation) (c : CellId) (cell : Cell) (objects : LinkedMap CellId Cell) :
    Reclamation :=
  { heap := { r.heap with
      objects,
      counters := { r.heap.counters with eagerFrees := r.heap.counters.eagerFrees + 1 } },
    graveyard := grave (c, cell) :: r.graveyard,
    events := .freed c :: r.events }

section WithFreed

variable {r : Reclamation} {c : CellId} {cell : Cell} {objects : LinkedMap CellId Cell}

theorem find?_withFreed (hs : r.heap.objects.Sound) (hs' : objects.Sound)
    (hl : objects.toList = r.heap.cells.filter fun p => p.1 ≠ c) (d : CellId) :
    (r.withFreed c cell objects).heap.find? d = if d = c then none else r.heap.find? d :=
  Heap.find?_of_cells_filter (r.withFreed c cell objects).heap hs hs' hl d

theorem read_withFreed (hs : r.heap.objects.Sound) (hs' : objects.Sound)
    (hl : objects.toList = r.heap.cells.filter fun p => p.1 ≠ c) {d : CellId} (hd : d ≠ c) :
    (r.withFreed c cell objects).heap.read d = r.heap.read d := by
  rw [Heap.read, find?_withFreed hs hs' hl, if_neg hd, Heap.read]

end WithFreed

theorem giveUp_lowered {r : Reclamation} {c : CellId} {cell : Cell}
    (hf : r.heap.find? c = some cell) {n : Nat} (hn : cell.count = n + 2) :
    r.giveUp c = (r.map (·.modifyCell c fun cell => { cell with count := n + 1 }), []) := by
  simp only [giveUp, hf, hn]

theorem giveUp_freed {r : Reclamation} {held : List CellId} (hc : r.heap.Counted held)
    {c : CellId} {cell : Cell} (hf : r.heap.find? c = some cell) (hn : cell.count = 1) :
    ∃ objects, objects.Sound ∧ objects.toList = (r.heap.cells.filter fun p => p.1 ≠ c) ∧
      r.giveUp c = (r.withFreed c cell objects, cell.value.targets) := by
  obtain ⟨objects, hs, hl, hb⟩ := r.bury_eq hc hf
  refine ⟨objects, hs, hl, ?_⟩
  simp only [giveUp, hf, hn, hb]
  rfl

theorem release_cons (r : Reclamation) (c : CellId) (work : List CellId) :
    r.release (c :: work) = (r.giveUp c).1.release ((r.giveUp c).2.reverse ++ work) := by
  unfold giveUp
  split
  · rename_i hf
    exact release_absent work hf
  · rename_i cell hf
    split
    · rename_i hn
      exact release_underflow work hf hn
    · rename_i hn
      split
      · rename_i f hb
        exact release_unlinked work hf hn hb
      · rename_i buried hb
        exact release_freed work hf hn hb
    · rename_i n hn
      exact release_lowered work hf hn

/-- One step of giving up the references of a worklist, which may be taken in any order. -/
inductive Pops : Reclamation × List CellId → Reclamation × List CellId → Prop
  | pop {r : Reclamation} {c : CellId} {work rest work' : List CellId}
      (htake : work.Perm (c :: rest)) (hput : work'.Perm ((r.giveUp c).2 ++ rest)) :
      Pops (r, work) ((r.giveUp c).1, work')

/-- A cell leaves the heap, or the worklist gets shorter. -/
theorem size_giveUp (r : Reclamation) (c : CellId) :
    (r.giveUp c).1.heap.objects.size < r.heap.objects.size ∨
      (r.giveUp c).1.heap.objects.size = r.heap.objects.size ∧ (r.giveUp c).2 = [] := by
  unfold giveUp
  split
  · exact .inr ⟨rfl, rfl⟩
  · split
    · exact .inr ⟨rfl, rfl⟩
    · split
      · exact .inr ⟨rfl, rfl⟩
      · rename_i hb
        have hsize := size_bury hb
        left
        simp only [report, map]
        omega
    · exact .inr ⟨Heap.size_modifyCell .., rfl⟩

/-- No order of taking references goes on forever. -/
theorem wellFounded_pops : WellFounded (flip Pops) := by
  let size (s : Reclamation × List CellId) : ℕ ×ₗ ℕ :=
    toLex (s.1.heap.objects.size, s.2.length)
  refine Subrelation.wf (r := InvImage (· < ·) size) ?_ (InvImage.wf size wellFounded_lt)
  rintro _ _ ⟨htake, hput⟩
  rename_i r c work rest work'
  have hlength := htake.length_eq
  have hlength' := hput.length_eq
  refine Prod.Lex.toLex_lt_toLex.mpr ((size_giveUp r c).imp id fun ⟨hsize, hnil⟩ => ⟨hsize, ?_⟩)
  rw [hnil] at hlength'
  simp only [List.length_cons, List.nil_append] at hlength hlength'
  show work'.length < work.length
  omega

/-- A release is one of the orders. -/
theorem pops_release (r : Reclamation) (work : List CellId) :
    ReflTransGen Pops (r, work) (r.release work, []) := by
  suffices hrun : ∀ s : Reclamation × List CellId, ReflTransGen Pops s (s.1.release s.2, []) from
    hrun (r, work)
  intro s
  induction s using wellFounded_pops.induction with
  | _ s ih =>
      obtain ⟨r, work⟩ := s
      cases work with
      | nil => rw [release]
      | cons c work =>
          have hstep : Pops (r, c :: work) ((r.giveUp c).1, (r.giveUp c).2.reverse ++ work) :=
            .pop (.refl _) ((List.reverse_perm _).append_right _)
          rw [release_cons]
          exact .head hstep (ih _ hstep)

/-- More references may wait on the worklist meanwhile. -/
theorem Pops.frame {s s' : Reclamation × List CellId} (h : Pops s s') (rest : List CellId) :
    Pops (s.1, s.2 ++ rest) (s'.1, s'.2 ++ rest) := by
  cases h with
  | @pop r c work others work' htake hput =>
      have hput' : (work' ++ rest).Perm ((r.giveUp c).2 ++ (others ++ rest)) := by
        rw [← List.append_assoc]
        exact hput.append_right rest
      exact .pop (htake.append_right rest) hput'

/-- Giving up one reference after another is one of the orders, too. -/
theorem pops_releaseEach (r : Reclamation) (cells : List CellId) :
    ReflTransGen Pops (r, cells) (r.releaseEach cells, []) := by
  induction cells generalizing r with
  | nil => exact .refl
  | cons c cells ih =>
      have hfirst : ReflTransGen Pops (r, [c] ++ cells) (r.release [c], [] ++ cells) :=
        (pops_release r [c]).lift (fun s => (s.1, s.2 ++ cells)) fun _ _ h => h.frame cells
      exact hfirst.trans (ih (r.release [c]))

/-- The cells `freed`, the last one first, have gone because their counts reached zero; the
others keep their places, their values and their marks, and nothing else is different. -/
structure Cascade (r r' : Reclamation) (freed : List CellId) : Prop where
  nodup : freed.Nodup
  live : ∀ d ∈ freed, r.heap.Live d
  heap : ∃ objects, r'.heap = { r.heap with
    objects,
    counters := { r.heap.counters with
      eagerFrees := r.heap.counters.eagerFrees + freed.length } }
  cells : r'.heap.cells.map uncounted =
    (r.heap.cells.filter fun p => p.1 ∉ freed).map uncounted
  graveyard : r'.graveyard =
    freed.map (fun d => { cell := d, value := (r.heap.read d).nulled }) ++ r.graveyard
  events : r'.events = freed.map .freed ++ r.events

namespace Cascade

variable {r r' : Reclamation} {freed : List CellId} {c : CellId} {cell : Cell}

theorem refl (r : Reclamation) : Cascade r r [] where
  nodup := .nil
  live := by simp
  heap := ⟨r.heap.objects, rfl⟩
  cells := by rw [List.filter_eq_self.mpr (by simp)]
  graveyard := rfl
  events := rfl

/-- A count is lowered before the cascade. -/
theorem lower (hs : r.heap.objects.Sound) {f : Cell → Cell}
    (hf : ∀ cell, (f cell).value = cell.value ∧ (f cell).marked = cell.marked)
    (h : Cascade (r.map (·.modifyCell c f)) r' freed) : Cascade r r' freed where
  nodup := h.nodup
  live d hd := by
    obtain ⟨cell, hcell⟩ := h.live d hd
    rw [map, Heap.find?_modifyCell] at hcell
    split at hcell
    · obtain ⟨cell, hcell, -⟩ := Option.map_eq_some_iff.mp hcell
      exact ⟨cell, hcell⟩
    · exact ⟨cell, hcell⟩
  heap := h.heap
  cells := by
    rw [h.cells]
    show ((r.heap.modifyCell c f).cells.filter _).map uncounted = _
    rw [Heap.cells_modifyCell hs, List.filter_map, List.map_map]
    refine List.map_congr_left fun p _ => ?_
    simp only [Function.comp_apply, uncounted]
    split
    · rw [(hf p.2).1, (hf p.2).2]
    · rfl
  graveyard := by
    have hread : ∀ d, (r.map (·.modifyCell c f)).heap.read d = r.heap.read d := fun d =>
      r.heap.read_modifyCell c d fun cell => (hf cell).1
    simp only [h.graveyard, hread]
    rfl
  events := h.events

/-- A cell is freed before the cascade. -/
theorem free (hs : r.heap.objects.Sound) (hf : r.heap.find? c = some cell)
    {objects : LinkedMap CellId Cell} (hs' : objects.Sound)
    (hl : objects.toList = r.heap.cells.filter fun p => p.1 ≠ c)
    (h : Cascade (r.withFreed c cell objects) r' freed) : Cascade r r' (freed ++ [c]) := by
  have hlive : ∀ d ∈ freed, r.heap.Live d ∧ d ≠ c := by
    intro d hd
    obtain ⟨cell, hcell⟩ := h.live d hd
    rw [find?_withFreed hs hs' hl] at hcell
    split at hcell
    · cases hcell
    · rename_i hne
      exact ⟨⟨cell, hcell⟩, hne⟩
  constructor
  case nodup =>
    refine List.nodup_append.mpr ⟨h.nodup, List.pairwise_singleton _ c, fun d hd e he => ?_⟩
    exact List.mem_singleton.mp he ▸ (hlive d hd).2
  case live =>
    intro d hd
    rcases List.mem_append.mp hd with hd | hd
    · exact (hlive d hd).1
    · exact ⟨cell, List.mem_singleton.mp hd ▸ hf⟩
  case heap =>
    obtain ⟨objects', he⟩ := h.heap
    refine ⟨objects', he.trans ?_⟩
    rw [List.length_append, List.length_singleton, Nat.add_comm freed.length, ← Nat.add_assoc]
    rfl
  case cells =>
    rw [h.cells]
    show (objects.toList.filter _).map uncounted = _
    rw [hl, List.filter_filter]
    simp [not_or]
  case graveyard =>
    have hgrave : grave (c, cell) = { cell := c, value := (r.heap.read c).nulled } := by
      rw [Heap.read, hf]
      rfl
    have hread : ∀ d ∈ freed, (r.withFreed c cell objects).heap.read d = r.heap.read d :=
      fun d hd => read_withFreed hs hs' hl (hlive d hd).2
    rw [h.graveyard, List.map_append, List.append_assoc, List.map_singleton, ← hgrave]
    congr 1
    exact List.map_congr_left fun d hd => by rw [hread d hd]
  case events =>
    rw [h.events, List.map_append, List.append_assoc]
    rfl

/-- Each cell loses as many references as are given up and as the freed cells had to it. -/
theorem countOf (given : List CellId) {held : List CellId} (hc : r.heap.Counted (given ++ held))
    (hc' : r'.heap.Counted held) (h : Cascade r r' freed) (d : CellId) :
    r'.heap.countOf d + given.count d +
        (slotTargets (r.heap.cells.filter fun p => p.1 ∈ freed)).count d =
      r.heap.countOf d := by
  have hslots : slotTargets r'.heap.cells =
      slotTargets (r.heap.cells.filter fun p => p.1 ∉ freed) := by
    rw [← slotTargets_map (f := uncounted) (fun _ => rfl), h.cells,
      slotTargets_map (f := uncounted) fun _ => rfl]
  have hsplit := (slotTargets_perm
    (List.filter_append_perm (fun p => decide (p.1 ∈ freed)) r.heap.cells)).count_eq d
  have hcount := hc.count d
  have hcount' := hc'.count d
  rw [slotTargets, List.flatMap_append, ← slotTargets, ← slotTargets, List.count_append] at hsplit
  rw [List.count_append] at hcount
  rw [hslots] at hcount'
  simp only [decide_not] at hcount'
  omega

/-- The heap does not depend on the order in which its cells have been freed. -/
theorem heap_eq {r'' : Reclamation} {freed' : List CellId} {held : List CellId}
    (hc : r'.heap.Counted held) (hc' : r''.heap.Counted held) (h : Cascade r r' freed)
    (h' : Cascade r r'' freed') (hsame : ∀ d, d ∈ freed ↔ d ∈ freed') : r'.heap = r''.heap := by
  have hcells : r'.heap.cells = r''.heap.cells := by
    refine hc'.cells_eq hc ?_
    rw [h.cells, h'.cells]
    simp only [hsame]
  have hobjects : r'.heap.objects = r''.heap.objects := hc.sound.ext hc'.sound hcells
  have hlength := ((List.perm_ext_iff_of_nodup h.nodup h'.nodup).mpr hsame).length_eq
  obtain ⟨objects, he⟩ := h.heap
  obtain ⟨objects', he'⟩ := h'.heap
  rw [he, he'] at hobjects ⊢
  rw [hlength]
  exact congrArg (fun objects => { r.heap with
    objects,
    counters := { r.heap.counters with
      eagerFrees := r.heap.counters.eagerFrees + freed'.length } }) hobjects

/-- A freed cell has only null slots in the graveyard. -/
theorem slot_eq_none (h : Cascade r r' freed) {g : Freed} (hg : g ∈ r'.graveyard)
    (hnew : g ∉ r.graveyard) : g.cell ∈ freed ∧ ∀ s ∈ g.value.children, s = none := by
  rw [h.graveyard, List.mem_append] at hg
  obtain ⟨d, hd, rfl⟩ := List.mem_map.mp (hg.resolve_right hnew)
  refine ⟨hd, fun s hs => ?_⟩
  rw [Value.nulled, Value.children_map] at hs
  obtain ⟨-, -, rfl⟩ := List.mem_map.mp hs
  rfl

end Cascade

/-- However the references are taken, a worklist of counted references is given up without
a failing check; the least set that is closed under orphaning goes, and nothing else. -/
theorem cascade_of_pops {s : Reclamation × List CellId} {r' : Reclamation}
    (hrun : ReflTransGen Pops s (r', [])) {held : List CellId}
    (hc : s.1.heap.Counted (s.2 ++ held)) :
    r'.heap.Counted held ∧ ∃ freed, s.1.Cascade r' freed ∧
      IsLeast {S | s.1.heap.OrphanClosed held S} {d | d ∈ freed} := by
  induction hrun using ReflTransGen.head_induction_on with
  | refl => exact ⟨hc, [], .refl r', by simpa using hc.orphanClosed_empty, by simp [lowerBounds]⟩
  | head hstep _ ih =>
      cases hstep with
      | @pop r c work rest work' htake hput =>
          have hc : r.heap.Counted (c :: (rest ++ held)) := hc.perm (htake.append_right held)
          obtain ⟨cell, hf⟩ := hc.live_of_mem List.mem_cons_self
          have hpos := hc.positive c cell hf
          rcases hn : cell.count with _ | _ | n
          · omega
          · -- nothing else refers to the cell
            have hcount := hc.count c
            rw [Heap.countOf_of_find? hf, hn, List.count_cons_self] at hcount
            have hheld : c ∉ held := fun hm => by
              have := List.count_pos_iff.mpr (List.mem_append_right rest hm)
              omega
            have hslot : c ∉ slotTargets r.heap.cells := fun hm => by
              have := List.count_pos_iff.mpr hm
              omega
            obtain ⟨objects, hs, hl, he⟩ := giveUp_freed hc hf hn
            rw [he] at hput ih
            have hperm : (cell.value.targets ++ (rest ++ held)).Perm (work' ++ held) := by
              rw [← List.append_assoc]
              exact hput.symm.append_right held
            obtain ⟨hend, freed, hcascade, hleast⟩ :=
              ih (((hc.free hf hn hs hl).perm hperm).congr rfl)
            refine ⟨hend, freed ++ [c], hcascade.free hc.sound hf hs hl, ?_⟩
            have hinsert := Heap.isLeast_insert (r.withFreed c cell objects).heap
              hc.sound hs hl ⟨cell, hf⟩ hheld hslot hleast
            simpa [Set.insert_def, or_comm] using hinsert
          · rw [giveUp_lowered hf hn] at hput ih
            obtain ⟨hend, freed, hcascade, hleast⟩ :=
              ih ((hc.lower hf hn).perm (hput.symm.append_right held))
            have hclosed : ∀ S, (r.heap.modifyCell c fun cell =>
                { cell with count := n + 1 }).OrphanClosed held S ↔ r.heap.OrphanClosed held S :=
              fun S => Heap.orphanClosed_modifyCell hc.sound fun _ => rfl
            refine ⟨hend, freed, ?_, ?_⟩
            · exact Cascade.lower hc.sound (f := fun cell => { cell with count := n + 1 })
                (fun _ => ⟨rfl, rfl⟩) hcascade
            · simpa only [map, hclosed] using hleast

/-- Giving up what is queued frees the least set that is closed under orphaning. -/
theorem cascade_drain {r : Reclamation} {held : List CellId}
    (hc : r.heap.Counted (r.heap.deferred ++ held)) :
    r.drain.heap.Counted held ∧ ∃ freed,
      (r.map fun h => { h with deferred := [] }).Cascade r.drain freed ∧
      IsLeast {S | r.heap.OrphanClosed held S} {d | d ∈ freed} :=
  cascade_of_pops (s := (r.map fun h => { h with deferred := [] }, r.heap.deferred))
    (pops_releaseEach _ _) (hc.congr rfl)

end Reclamation

namespace Heap

/-- A release frees exactly what is orphaned. In whatever order it takes the references that
are still to be given up, it comes to an end, on the same heap. It has freed the least set of
cells to which nothing but they themselves and what was given up referred; every other cell
loses the references that the freed cells had to it. -/
theorem Counted.release_frees_orphans {r : Reclamation} {c : CellId} {held : List CellId}
    (hc : r.heap.Counted (c :: held)) :
    Acc (flip Reclamation.Pops) (r, [c]) ∧
      ReflTransGen Reclamation.Pops (r, [c]) (r.release [c], []) ∧
      ∀ r', ReflTransGen Reclamation.Pops (r, [c]) (r', []) →
        r'.heap = (r.release [c]).heap ∧ r'.heap.Counted held ∧
        ∃ freed, IsLeast {S | r.heap.Orphaning held c S} {d | d ∈ freed} ∧
          r.Cascade r' freed ∧
          (∀ g ∈ r'.graveyard, g ∉ r.graveyard →
            g.cell ∈ freed ∧ ∀ s ∈ g.value.children, s = none) ∧
          ∀ d, r'.heap.countOf d + [c].count d +
              (slotTargets (r.heap.cells.filter fun p => p.1 ∈ freed)).count d =
            r.heap.countOf d := by
  have hend : ∀ r', ReflTransGen Reclamation.Pops (r, [c]) (r', []) → r'.heap.Counted held ∧
      ∃ freed, r.Cascade r' freed ∧ IsLeast {S | r.heap.Orphaning held c S} {d | d ∈ freed} := by
    intro r' hrun
    obtain ⟨hcount, freed, hcascade, hleast⟩ :=
      Reclamation.cascade_of_pops (s := (r, [c])) hrun hc
    exact ⟨hcount, freed, hcascade, hc.isLeast_orphaning hleast⟩
  have hown := Reclamation.pops_release r [c]
  refine ⟨Reclamation.wellFounded_pops.apply _, hown, fun r' hrun => ?_⟩
  obtain ⟨hcount, freed, hcascade, hleast⟩ := hend r' hrun
  obtain ⟨hcount₀, freed₀, hcascade₀, hleast₀⟩ := hend _ hown
  refine ⟨?_, hcount, freed, hleast, hcascade, fun g hg hnew => hcascade.slot_eq_none hg hnew,
    hcascade.countOf [c] hc hcount⟩
  exact hcascade.heap_eq hcount hcount₀ hcascade₀ fun d =>
    (congrArg (d ∈ ·) (hleast.unique hleast₀)).to_iff

/-- A pair that holds the only reference to another one takes it along. -/
theorem release_frees_orphans_chain :
    let first := (new {}).placeOnly ⟨0, 0⟩ (.pair none none)
    let second := first.2.placeOnly ⟨0, 1⟩ (.pair (some first.1) none)
    second.2.Counted [⟨0, 1⟩] ∧
      (second.2.start.release [⟨0, 1⟩]).events = [.freed ⟨0, 0⟩, .freed ⟨0, 1⟩] ∧
      ∀ r', ReflTransGen Reclamation.Pops (second.2.start, [⟨0, 1⟩]) (r', []) →
        r'.heap = (second.2.start.release [⟨0, 1⟩]).heap := by
  intro first second
  have hb₁ : first.2.Balanced [first.1] none :=
    ((balanced_new {}).placeOnly (v := .pair none none) (by rintro ⟨_, ⟨⟩⟩)).2.1
  have hfresh : first.2.find? ⟨0, 1⟩ = none := by cbv
  have hb₂ : second.2.Balanced [second.1] none :=
    (hb₁.placeOnly (v := .pair (some first.1) none) (by simp [Live, hfresh])).2.1
  have hc : second.2.Counted [⟨0, 1⟩] := hb₂.counted
  exact ⟨hc, by cbv, fun r' hrun =>
    ((hc.release_frees_orphans (r := second.2.start)).2.2 r' hrun).1⟩

end Heap

end HybridHeap
