import HybridHeap.Proofs.Heap.Fates
import HybridHeap.Proofs.Session.Accounts

/-!
The ledger of a heap over a run. Each step enters the cells that are new on the heap
and the cells that are gone from it, those apart that were reported as freed by their
counts. The entries agree with the counters of the heap, and no cell is entered twice
(`Moment.Run.settled`): every cell that was ever placed is still there, was freed by its
count, or was swept, and only one of these.
-/

namespace HybridHeap

theorem pairwise_of_length_le_one {α : Type} {R : α → α → Prop} {l : List α}
    (hl : l.length ≤ 1) : l.Pairwise R := by
  match l with
  | [] => exact .nil
  | [a] => exact List.pairwise_singleton R a
  | _ :: _ :: _ => simp at hl

namespace World

/-- The live cells of a heap, from the newest to the oldest. -/
def idsOf (w : World) (i : HeapId) : List CellId :=
  ((w.heap? i).map fun h => h.cells.map Prod.fst).getD []

def countersOf (w : World) (i : HeapId) : Counters :=
  ((w.heap? i).map Heap.counters).getD {}

variable {w : World} {i : HeapId} {h : Heap}

theorem idsOf_of_heap? (hi : w.heap? i = some h) : w.idsOf i = h.cells.map Prod.fst := by
  simp [idsOf, hi]

theorem countersOf_of_heap? (hi : w.heap? i = some h) : w.countersOf i = h.counters := by
  simp [countersOf, hi]

theorem mem_idsOf {held : List Holding} {write : Option Writing} (hb : w.Balanced held write)
    (hi : w.heap? i = some h) {c : CellId} : c ∈ w.idsOf i ↔ h.Live c := by
  rw [idsOf_of_heap? hi, List.mem_map]
  constructor
  · rintro ⟨p, hp, rfl⟩
    exact ⟨p.2, (hb.heap i h hi).counted.find?_eq_some_iff.mpr hp⟩
  · rintro ⟨cell, hf⟩
    exact ⟨(c, cell), (hb.heap i h hi).counted.find?_eq_some_iff.mp hf, rfl⟩

/-- What a step does to the population of the heap `i`: the cells `placed`, one at most, are
new and come first, the cells `counted` were freed by their counts and reported, and the
cells `swept` were swept. -/
structure Turnover (i : HeapId) (w w' : World) (placed counted swept : List CellId) : Prop where
  ids : (w'.idsOf i ++ (counted ++ swept)).Perm (placed ++ w.idsOf i)
  order : (w'.idsOf i).Sublist (placed ++ w.idsOf i)
  single : placed.length ≤ 1
  fresh : ∀ c ∈ placed, c.heap = i ∧ w.nextCell ≤ c.number ∧ c.number < w'.nextCell
  kept : ∀ c ∈ placed, c ∈ w'.idsOf i
  nextCell : w.nextCell ≤ w'.nextCell
  allocations : (w'.countersOf i).allocations = (w.countersOf i).allocations + placed.length
  eagerFrees : (w'.countersOf i).eagerFrees = (w.countersOf i).eagerFrees + counted.length
  swept : (w'.countersOf i).swept = (w.countersOf i).swept + swept.length
  reported : ∀ c ∈ counted, .freed c ∈ w'.events
  unreported : ∀ c : CellId, c.heap = i → .freed c ∈ w'.events → c ∈ counted ∨ .freed c ∈ w.events

/-- Nothing comes or goes. -/
theorem turnover_still {w' : World} (hids : w'.idsOf i = w.idsOf i)
    (hcounters : w'.countersOf i = w.countersOf i) (hnext : w'.nextCell = w.nextCell)
    (hevents : ∀ c : CellId, c.heap = i → .freed c ∈ w'.events → .freed c ∈ w.events) :
    Turnover i w w' [] [] [] where
  ids := by
    rw [hids]
    exact .of_eq (List.append_nil _)
  order := by
    rw [hids]
    exact .refl _
  single := Nat.zero_le _
  fresh c hc := by cases hc
  kept c hc := by cases hc
  nextCell := Nat.le_of_eq hnext.symm
  allocations := by rw [hcounters]; rfl
  eagerFrees := by rw [hcounters]; rfl
  swept := by rw [hcounters]; rfl
  reported c hc := by cases hc
  unreported c hc he := .inr (hevents c hc he)

/-- Another heap with the same cells and counters. -/
theorem turnover_setHeap {j : HeapId} (hj : w.heap? j = some h) {h' : Heap}
    (hids : h'.cells.map Prod.fst = h.cells.map Prod.fst) (hcounters : h'.counters = h.counters)
    (i : HeapId) : Turnover i w (w.setHeap j h') [] [] [] := by
  by_cases hij : j = i
  · subst hij
    have hself := heap?_setHeap_self hj h'
    refine turnover_still ?_ ?_ rfl fun _ _ he => he
    · rw [idsOf_of_heap? hself, idsOf_of_heap? hj, hids]
    · rw [countersOf_of_heap? hself, countersOf_of_heap? hj, hcounters]
  · have hother := heap?_setHeap_of_ne hij w h'
    refine turnover_still ?_ ?_ rfl fun _ _ he => he
    · rw [idsOf, hother, idsOf]
    · rw [countersOf, hother, countersOf]

/-- The work of the heap `j` on what was `r₀` at its start, the cells `placed` included. -/
theorem turnover_commit {j : HeapId} (placed : List CellId) (hj : w.heap? j = some h)
    {r₀ r : Reclamation} {counted swept : List CellId} {n : Nat} (ht : r₀.Thins r)
    (hf : r₀.Frees r counted swept) (hg : r₀.graveyard = []) (he : r₀.events = [])
    (hids : r₀.heap.cells.map Prod.fst = placed ++ h.cells.map Prod.fst)
    (hcounters : r₀.heap.counters =
      { h.counters with allocations := h.counters.allocations + placed.length })
    (hsingle : placed.length ≤ 1)
    (hfresh : ∀ c ∈ placed, c.heap = j ∧ w.nextCell ≤ c.number ∧ c.number < n)
    (hkept : ∀ c ∈ placed, c ∈ r.heap.cells.map Prod.fst)
    (hnext : w.nextCell ≤ n) (hhome : ∀ c ∈ h.cells.map Prod.fst, c.heap = j) (i : HeapId) :
    ∃ placed counted swept,
      Turnover i w ({ w with nextCell := n }.commit j r).1 placed counted swept := by
  -- what the graveyard holds is what the heap has lost
  have hperm : (r.heap.cells.map Prod.fst ++ (counted ++ swept)).Perm
      (placed ++ h.cells.map Prod.fst) := by
    have hpop := ht.population.map Freed.cell
    have hgrave := hf.graveyard
    simp only [Reclamation.population, hg, List.map_append, List.map_map, List.map_nil,
      List.append_nil] at hpop hgrave
    rw [← hids]
    exact (hgrave.symm.append_left _).trans hpop
  have hevents : reported r.events = counted := by
    rw [hf.events, he]
    exact List.append_nil _
  by_cases hij : j = i
  · subst hij
    have hself : ({ w with nextCell := n }.commit j r).1.heap? j = some r.heap :=
      heap?_setHeap_self (w := w) hj r.heap
    have hheap := idsOf_of_heap? hself
    have hcount := countersOf_of_heap? hself
    refine ⟨placed, counted, swept, ?_⟩
    exact
      { ids := by
          rw [hheap, idsOf_of_heap? hj]
          exact hperm
        order := by
          rw [hheap, idsOf_of_heap? hj, ← hids]
          exact ht.map_fst_sublist
        single := hsingle
        fresh := hfresh
        kept := hheap ▸ hkept
        nextCell := hnext
        allocations := by
          rw [hcount, countersOf_of_heap? hj, ht.allocations, hcounters]
        eagerFrees := by
          rw [hcount, countersOf_of_heap? hj, hf.eagerFrees, hcounters]
        swept := by
          rw [hcount, countersOf_of_heap? hj, hf.swept, hcounters]
        reported := fun c hc =>
          List.mem_append_left _ (mem_reported.mp (hevents ▸ hc))
        unreported := by
          intro c _ hc
          rcases List.mem_append.mp hc with hc | hc
          · exact .inl (hevents ▸ mem_reported.mpr hc)
          · exact .inr hc }
  · have hother : ({ w with nextCell := n }.commit j r).1.heap? i = w.heap? i :=
      heap?_setHeap_of_ne hij w r.heap
    refine ⟨[], [], [], ?_⟩
    exact
      { ids := by
          rw [idsOf, hother, idsOf]
          exact .of_eq (List.append_nil _)
        order := by
          rw [idsOf, hother, idsOf]
          exact .refl _
        single := Nat.zero_le _
        fresh := fun c hc => by cases hc
        kept := fun c hc => by cases hc
        nextCell := hnext
        allocations := by rw [countersOf, hother, countersOf]; rfl
        eagerFrees := by rw [countersOf, hother, countersOf]; rfl
        swept := by rw [countersOf, hother, countersOf]; rfl
        reported := fun c hc => by cases hc
        unreported := by
          intro c hc hm
          rcases List.mem_append.mp hm with hm | hm
          · -- the cells that went are of the heap `j`
            have hmem : c ∈ placed ++ h.cells.map Prod.fst :=
              hperm.mem_iff.mp (List.mem_append_right _ (List.mem_append_left _
                (hevents ▸ mem_reported.mpr hm)))
            rcases List.mem_append.mp hmem with hmem | hmem
            · exact absurd ((hfresh c hmem).1.symm.trans hc) hij
            · exact absurd ((hhome c hmem).symm.trans hc) hij
          · exact .inr hm }

end World

namespace Moment

open World

/-- The work of a heap that only frees cells. -/
theorem turnover_freed {w : World} {held : List Holding} {write : Option Writing} {j : HeapId}
    {h : Heap} (hb : w.Balanced held write) (hj : w.heap? j = some h) {r₀ r : Reclamation}
    {counted swept : List CellId} (ht : r₀.Thins r) (hf : r₀.Frees r counted swept)
    (hg : r₀.graveyard = []) (he : r₀.events = [])
    (hids : r₀.heap.cells.map Prod.fst = h.cells.map Prod.fst)
    (hcounters : r₀.heap.counters = h.counters) (i : HeapId) :
    ∃ placed counted swept, Turnover i w (w.commit j r).1 placed counted swept :=
  turnover_commit (n := w.nextCell) [] hj ht hf hg he hids hcounters (Nat.zero_le 1)
    (fun _ hc => by cases hc) (fun _ hc => by cases hc) (Nat.le_refl _)
    (fun _ hc => (hb.heap_lt hj hc).1) i

/-- What a heap frees when an owned root of it is given up. -/
theorem turnover_unrooted {w : World} {held : List Holding} {write : Option Writing} {r : Root}
    {h : Heap} (hb : w.Balanced (.root r :: held) write) (hi : w.heap? r.cell.heap = some h)
    {rec : Reclamation} (ht : (h.unroot r).start.Thins rec) {counted swept : List CellId}
    (hf : (h.unroot r).start.Frees rec counted swept) (i : HeapId) :
    ∃ placed counted swept,
      Turnover i w (w.commit r.cell.heap rec).1 placed counted swept := by
  refine turnover_freed hb hi ht hf rfl rfl ?_ ?_ i
  · simp [Heap.start, Heap.cells]
  · simp [Heap.start]

/-- What a heap frees when a reference in a cell is replaced. -/
theorem turnover_rewrite {w : World} {held : List Holding} {c : CellId} {h : Heap} {cell : Cell}
    (hb : w.Balanced held none) (hi : w.heap? c.heap = some h) (hfind : h.find? c = some cell)
    {t : Slot} (ht : ∀ d ∈ t, h.Live d) {v : Value Slot} {displaced : List CellId}
    (hn : ∀ d, displaced.count d + v.targets.count d =
      t.toList.count d + cell.value.targets.count d) (i : HeapId) :
    ∃ placed counted swept, Turnover i w
      (w.commit c.heap
        ((((h.retainSlot t).setValue c v).defer displaced).finishWrite [])).1
      placed counted swept := by
  have hheap := hb.heap _ h hi
  obtain ⟨-, hthin, hcells, -⟩ := hheap.rewrite hfind ht hn
  obtain ⟨counted, hf⟩ :=
    (((h.retainSlot t).setValue c v).defer displaced).frees_finishWrite []
  refine turnover_freed hb hi hthin hf rfl rfl ?_ (h.counters_retainSlot t) i
  show (((h.retainSlot t).setValue c v).defer displaced).cells.map Prod.fst = _
  rw [map_fst_congr hcells, map_fst_setValue hheap.counted.sound]

/-- Every step turns over the population of a heap. -/
theorem Step.turnover {m m' : Moment} (hs : Step m m') (hb : m.Balanced) (i : HeapId) :
    ∃ placed counted swept, Turnover i m.world m'.world placed counted swept := by
  cases hs with
  | permute hp => exact ⟨_, _, _, turnover_still rfl rfl rfl fun _ _ he => he⟩
  | @chore w held write c =>
      cases c with
      | dropRoot r =>
          obtain ⟨h, hi, -⟩ := World.Balanced.live hb List.mem_cons_self
          have hheap := World.Balanced.heap_of_root hb hi
          obtain ⟨counted, swept, hf⟩ := hheap.frees_dropRoot
          simp only [World.doChore, reclaim, hi]
          exact turnover_unrooted hb hi hheap.dropRoot.2 hf i
      | dropAnchor r =>
          obtain ⟨h, hi, -⟩ := World.Balanced.live hb List.mem_cons_self
          have hheap := World.Balanced.heap_of_root hb hi
          obtain ⟨counted, hf⟩ := h.frees_dropAnchor r
          simp only [World.doChore, reclaim, hi]
          exact turnover_unrooted hb hi hheap.dropAnchor.2.2 hf i
      | leave e =>
          refine ⟨[], [], [], ?_⟩
          simp only [World.doChore, World.leave]
          split
          · exact turnover_still rfl rfl rfl fun _ _ he => he
          · split <;> exact turnover_still rfl rfl rfl fun _ _ he => he
  | @root w held c h hi hl =>
      obtain ⟨-, -, hcells, -⟩ := (World.Balanced.heap hb _ h hi).register hl
      exact ⟨_, _, _, turnover_setHeap hi (map_fst_congr hcells) (h.counters_register c) i⟩
  | @place w held j h v c hi ho hc =>
      have hheap := World.Balanced.heap_of_value hb hi ho
      have hlive : ¬h.Live c := hc ▸ World.Balanced.not_live_next hb hi
      obtain ⟨hroot, -, -, hcells⟩ := hheap.placeOnly hlive
      obtain ⟨hbal, ht⟩ := hheap.place hlive
      obtain ⟨swept, hf⟩ := hheap.frees_place hlive
      refine turnover_commit (n := w.nextCell + 1) [c] hi ht hf rfl rfl ?_ ?_
        (Nat.le_refl 1) ?_ ?_ (Nat.le_succ _)
        (fun d hd => (World.Balanced.heap_lt hb hi hd).1) i
      · show (h.placeOnly c v).2.cells.map Prod.fst = _
        rw [hcells]
        rfl
      · exact h.counters_placeOnly c v
      · intro d hd
        rw [List.mem_singleton.mp hd, hc]
        exact ⟨rfl, Nat.le_refl _, Nat.lt_succ_self _⟩
      · -- the new cell is rooted, so it outlives a collection at once
        intro d hd
        obtain ⟨cell, hfind⟩ := hbal.live List.mem_cons_self
        rw [Heap.place_fst, hroot] at hfind
        rw [List.mem_singleton.mp hd]
        exact List.mem_map_of_mem (f := Prod.fst) (hbal.counted.find?_eq_some_iff.mp hfind)
  | @swap w held r h v hi ho =>
      have hsound := (World.Balanced.heap hb _ h hi).counted.sound
      have hids : (h.swap r.cell v).cells.map Prod.fst = h.cells.map Prod.fst :=
        map_fst_setValue hsound r.cell v.placed
      exact ⟨_, _, _, turnover_setHeap hi hids rfl i⟩
  | @finishWrite w held wr h hi =>
      have hheap := World.Balanced.heap hb _ h hi
      rw [writeIn_self] at hheap
      obtain ⟨counted, hf⟩ := h.frees_finishWrite wr.anchors
      refine turnover_freed hb hi hheap.finishWrite.2 hf rfl rfl ?_ ?_ i
      · simp [Heap.start, Heap.cells]
      · simp [Heap.start]
  | @write w held c h p t rec hi hl ht hw =>
      obtain ⟨cell, hfind⟩ := hl
      obtain ⟨displaced, hg, rfl⟩ := Heap.write_eq_ok hfind hw
      exact turnover_rewrite hb hi hfind ht (Heap.count_targets_replace hg t) i
  | @append w held c h t rec hi hl ht hw =>
      obtain ⟨cell, hfind⟩ := hl
      obtain ⟨v, hg, rfl⟩ := Heap.append_eq_ok hfind hw
      refine turnover_rewrite hb hi hfind ht (fun d => ?_) i
      rw [List.count_nil, Nat.zero_add]
      exact Heap.count_targets_append hg d
  | @collectNow w held j h hi =>
      have hheap := World.Balanced.heap hb j h hi
      obtain ⟨swept, hf⟩ := hheap.frees_collectNow
      exact turnover_freed hb hi hheap.collectNow.2 hf rfl rfl rfl rfl i
  | shareEnv he => exact ⟨_, _, _, turnover_still rfl rfl rfl fun _ _ he => he⟩
  | @newEnv w held parent hp =>
      cases parent <;> exact ⟨_, _, _, turnover_still rfl rfl rfl fun _ _ he => he⟩
  | rebind he => exact ⟨_, _, _, turnover_still rfl rfl rfl fun _ _ he => he⟩
  | forgetEvents => exact ⟨_, _, _, turnover_still rfl rfl rfl fun _ _ he => by cases he⟩

end Moment

/-- The cells of a heap over a run: all that were placed on it, those of them that were
freed by their counts, and those that were swept. -/
structure Ledger where
  placed : List CellId
  counted : List CellId
  swept : List CellId

namespace Ledger

def blank : Ledger :=
  { placed := [], counted := [], swept := [] }

/-- Enter what is new on the heap `i` and what is gone from it. What is gone was freed by
its count if that was reported, and swept otherwise. -/
def enter (l : Ledger) (i : HeapId) (w w' : World) : Ledger :=
  let gone := (w.idsOf i).filter fun c => c ∉ w'.idsOf i
  { placed := ((w'.idsOf i).filter fun c => c ∉ w.idsOf i) ++ l.placed
    counted := (gone.filter fun c => .freed c ∈ w'.events) ++ l.counted
    swept := (gone.filter fun c => .freed c ∉ w'.events) ++ l.swept }

/-- All that is gone. -/
def gone (l : Ledger) : List CellId :=
  l.counted ++ l.swept

/-- The ledger agrees with the heap `i` of a world: what was placed and is not gone is on
the heap, and the counters say how much was placed and how much is gone in which way. -/
structure Settled (l : Ledger) (i : HeapId) (w : World) : Prop where
  distinct : l.placed.Nodup
  conserved : (w.idsOf i ++ l.gone).Perm l.placed
  issued : ∀ c ∈ l.placed, c.heap = i ∧ c.number < w.nextCell
  reported : ∀ c : CellId, c.heap = i → .freed c ∈ w.events → c ∈ l.counted
  allocations : (w.countersOf i).allocations = l.placed.length
  eagerFrees : (w.countersOf i).eagerFrees = l.counted.length
  swept : (w.countersOf i).swept = l.swept.length

namespace Settled

variable {l : Ledger} {i : HeapId} {w : World}

/-- Nothing is on the heap and gone, and nothing is gone twice. -/
theorem nodup (hl : l.Settled i w) : (w.idsOf i ++ l.gone).Nodup :=
  hl.conserved.nodup_iff.mpr hl.distinct

theorem not_mem_gone (hl : l.Settled i w) {c : CellId} (hc : c ∈ w.idsOf i) : c ∉ l.gone :=
  fun hg => (List.nodup_append.mp hl.nodup).2.2 c hc c hg rfl

theorem lt_nextCell (hl : l.Settled i w) {c : CellId} (hc : c ∈ w.idsOf i) :
    c.number < w.nextCell :=
  (hl.issued c (hl.conserved.mem_iff.mp (List.mem_append_left _ hc))).2

end Settled

end Ledger

namespace World.Turnover

variable {l : Ledger} {i : HeapId} {w w' : World} {placed counted swept : List CellId}

theorem distinct (ht : Turnover i w w' placed counted swept) : placed.Nodup :=
  pairwise_of_length_le_one ht.single

/-- Nothing that a step places was there before. -/
theorem not_mem_idsOf (ht : Turnover i w w' placed counted swept) (hl : l.Settled i w)
    {c : CellId} (hc : c ∈ placed) : c ∉ w.idsOf i := by
  intro hm
  have hnew := (ht.fresh c hc).2.1
  have hold := hl.lt_nextCell hm
  omega

/-- After a step nothing is on the heap and gone, and nothing is gone twice. -/
theorem nodup (ht : Turnover i w w' placed counted swept) (hl : l.Settled i w) :
    (w'.idsOf i ++ (counted ++ swept)).Nodup := by
  apply ht.ids.nodup_iff.mpr
  refine List.nodup_append.mpr ⟨ht.distinct, (List.nodup_append.mp hl.nodup).1, ?_⟩
  rintro c hc d hd rfl
  exact ht.not_mem_idsOf hl hc hd

/-- The cells that are new on the heap are those that the step has placed. -/
theorem perm_placed (ht : Turnover i w w' placed counted swept) (hl : l.Settled i w) :
    ((w'.idsOf i).filter fun c => c ∉ w.idsOf i).Perm placed := by
  have hnew := (List.nodup_append.mp (ht.nodup hl)).1
  rw [List.perm_ext_iff_of_nodup (hnew.filter _) ht.distinct]
  intro c
  rw [List.mem_filter, decide_eq_true_iff]
  constructor
  · rintro ⟨hc, hold⟩
    have hmem := ht.ids.mem_iff.mp (List.mem_append_left _ hc)
    exact (List.mem_append.mp hmem).resolve_right hold
  · exact fun hc => ⟨ht.kept c hc, ht.not_mem_idsOf hl hc⟩

/-- The cells that have left the heap are those that were freed by their counts or
swept. -/
theorem perm_gone (ht : Turnover i w w' placed counted swept) (hl : l.Settled i w) :
    ((w.idsOf i).filter fun c => c ∉ w'.idsOf i).Perm (counted ++ swept) := by
  obtain ⟨-, hgone, hdisjoint⟩ := List.nodup_append.mp (ht.nodup hl)
  have hold := (List.nodup_append.mp hl.nodup).1
  rw [List.perm_ext_iff_of_nodup (hold.filter _) hgone]
  intro c
  rw [List.mem_filter, decide_eq_true_iff]
  constructor
  · rintro ⟨hc, hnew⟩
    have hmem := ht.ids.mem_iff.mpr (List.mem_append_right _ hc)
    exact (List.mem_append.mp hmem).resolve_left hnew
  · intro hc
    refine ⟨?_, fun hnew => hdisjoint c hnew c hc rfl⟩
    have hmem := ht.ids.mem_iff.mp (List.mem_append_right _ hc)
    -- what is placed stays during the step
    refine (List.mem_append.mp hmem).resolve_left fun hp => ?_
    exact hdisjoint c (ht.kept c hp) c hc rfl

/-- Of the cells that have left the heap, those freed by their counts were reported. -/
theorem reported_iff (ht : Turnover i w w' placed counted swept) (hl : l.Settled i w)
    {c : CellId} (hc : c ∈ counted ++ swept) : .freed c ∈ w'.events ↔ c ∈ counted := by
  constructor
  · intro he
    have hold : c ∈ w.idsOf i := by
      have hm := (ht.perm_gone hl).mem_iff.mpr hc
      exact (List.mem_filter.mp hm).1
    have hissued := hl.issued c (hl.conserved.mem_iff.mp (List.mem_append_left _ hold))
    refine (ht.unreported c hissued.1 he).resolve_right fun hbefore => ?_
    -- a cell that was reported before is gone already
    exact hl.not_mem_gone hold
      (List.mem_append_left _ (hl.reported c hissued.1 hbefore))
  · exact ht.reported c

theorem perm_counted (ht : Turnover i w w' placed counted swept) (hl : l.Settled i w) :
    (((w.idsOf i).filter fun c => c ∉ w'.idsOf i).filter fun c => .freed c ∈ w'.events).Perm
      counted := by
  refine ((ht.perm_gone hl).filter _).trans (.of_eq ?_)
  have hgone := (List.nodup_append.mp (ht.nodup hl)).2.1
  rw [List.filter_append, List.filter_eq_self.mpr, List.filter_eq_nil_iff.mpr, List.append_nil]
  · intro c hc
    rw [decide_eq_true_iff, ht.reported_iff hl (List.mem_append_right _ hc)]
    exact fun hm => (List.nodup_append.mp hgone).2.2 c hm c hc rfl
  · intro c hc
    rw [decide_eq_true_iff]
    exact ht.reported c hc

theorem perm_swept (ht : Turnover i w w' placed counted swept) (hl : l.Settled i w) :
    (((w.idsOf i).filter fun c => c ∉ w'.idsOf i).filter fun c => .freed c ∉ w'.events).Perm
      swept := by
  refine ((ht.perm_gone hl).filter _).trans (.of_eq ?_)
  have hgone := (List.nodup_append.mp (ht.nodup hl)).2.1
  rw [List.filter_append, List.filter_eq_nil_iff.mpr, List.filter_eq_self.mpr, List.nil_append]
  · intro c hc
    rw [decide_eq_true_iff, ht.reported_iff hl (List.mem_append_right _ hc)]
    exact fun hm => (List.nodup_append.mp hgone).2.2 c hm c hc rfl
  · intro c hc
    rw [decide_eq_true_iff, not_not]
    exact ht.reported c hc

/-- Entering a step keeps the ledger in agreement with the heap. -/
theorem settled (ht : Turnover i w w' placed counted swept) (hl : l.Settled i w) :
    (l.enter i w w').Settled i w' := by
  have hplaced : (l.enter i w w').placed.Perm (placed ++ l.placed) :=
    (ht.perm_placed hl).append_right _
  have hcounted : (l.enter i w w').counted.Perm (counted ++ l.counted) :=
    (ht.perm_counted hl).append_right _
  have hswept : (l.enter i w w').swept.Perm (swept ++ l.swept) :=
    (ht.perm_swept hl).append_right _
  have hconserved : ∀ c, ((w'.idsOf i).count c + (counted.count c + swept.count c) =
      placed.count c + (w.idsOf i).count c) := by
    intro c
    have h := ht.ids.count_eq c
    rwa [List.count_append, List.count_append, List.count_append] at h
  constructor
  · rw [hplaced.nodup_iff, List.nodup_append]
    refine ⟨ht.distinct, hl.distinct, ?_⟩
    rintro c hc d hd rfl
    have hnew := (ht.fresh c hc).2.1
    have hold := (hl.issued c hd).2
    omega
  · refine List.Perm.trans ?_ hplaced.symm
    rw [List.perm_iff_count]
    intro c
    have h₁ := hl.conserved.count_eq c
    have h₂ := hcounted.count_eq c
    have h₃ := hswept.count_eq c
    have h₄ := hconserved c
    simp only [Ledger.gone, List.count_append] at h₁ h₂ h₃ ⊢
    omega
  · intro c hc
    rcases List.mem_append.mp (hplaced.mem_iff.mp hc) with hc | hc
    · exact ⟨(ht.fresh c hc).1, (ht.fresh c hc).2.2⟩
    · exact ⟨(hl.issued c hc).1, Nat.lt_of_lt_of_le (hl.issued c hc).2 ht.nextCell⟩
  · intro c hc he
    refine hcounted.mem_iff.mpr ?_
    rcases ht.unreported c hc he with hm | hm
    · exact List.mem_append_left _ hm
    · exact List.mem_append_right _ (hl.reported c hc hm)
  · rw [ht.allocations, hl.allocations, hplaced.length_eq, List.length_append, Nat.add_comm]
  · rw [ht.eagerFrees, hl.eagerFrees, hcounted.length_eq, List.length_append, Nat.add_comm]
  · rw [ht.swept, hl.swept, hswept.length_eq, List.length_append, Nat.add_comm]

end World.Turnover

namespace Moment

/-- A run with its ledger of the heap `i`. -/
inductive Run (i : HeapId) : Moment → Ledger → Prop
  | start (configs : Array Config) (dropOrder : EnvId → DropOrder) :
      Run i ⟨World.new configs dropOrder, [], none⟩ .blank
  | step {m m' : Moment} {l : Ledger} (hr : Run i m l) (hs : Step m m') :
      Run i m' (l.enter i m.world m'.world)

variable {i : HeapId} {m : Moment} {l : Ledger}

theorem Run.reachable (hr : Run i m l) : m.Reachable := by
  induction hr with
  | start configs dropOrder => exact .start configs dropOrder
  | step _ hs ih => exact ih.step hs

/-- Every moment is that of a run. -/
theorem Reachable.run (hr : m.Reachable) (i : HeapId) : ∃ l, Run i m l := by
  induction hr with
  | start configs dropOrder => exact ⟨_, .start configs dropOrder⟩
  | step _ hs ih =>
      obtain ⟨l, hl⟩ := ih
      exact ⟨_, hl.step hs⟩

theorem settled_start (configs : Array Config) (dropOrder : EnvId → DropOrder) (i : HeapId) :
    Ledger.blank.Settled i (World.new configs dropOrder) := by
  have hheap : (World.new configs dropOrder).idsOf i = [] ∧
      (World.new configs dropOrder).countersOf i = {} := by
    cases hi : (World.new configs dropOrder).heap? i with
    | none => exact ⟨by simp [World.idsOf, hi], by simp [World.countersOf, hi]⟩
    | some h =>
        rw [World.idsOf_of_heap? hi, World.countersOf_of_heap? hi]
        simp only [World.heap?, World.new, Array.getElem?_map, Option.map_eq_some_iff] at hi
        obtain ⟨config, -, rfl⟩ := hi
        exact ⟨rfl, rfl⟩
  obtain ⟨hids, hcounters⟩ := hheap
  constructor
  · exact .nil
  · rw [hids]
    exact .refl _
  · exact fun c hc => by cases hc
  · exact fun c _ he => by cases he
  · rw [hcounters]
    rfl
  · rw [hcounters]
    rfl
  · rw [hcounters]
    rfl

/-- The ledger agrees with the heap at every moment of every run. -/
theorem Run.settled (hr : Run i m l) : l.Settled i m.world := by
  induction hr with
  | start configs dropOrder => exact settled_start configs dropOrder i
  | step hr hs ih =>
      obtain ⟨placed, counted, swept, ht⟩ := hs.turnover hr.reachable.balanced i
      exact ht.settled ih

end Moment

end HybridHeap
