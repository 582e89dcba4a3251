import Mathlib.Data.List.Permutation
import HybridHeap.Proofs.Heap.Muted
import HybridHeap.Proofs.Session.Reachable
import HybridHeap.Proofs.World.Changes
import HybridHeap.Proofs.World.Listing
import HybridHeap.Proofs.World.Tally

/-!
Allocation. What the handles of a value owned is owned by the slots of the new cell, which is
rooted before the roots of the handles go; only then the threshold is checked. So a collection
that the allocation starts finds everything that the value refers to, and no count differs
from before but by the references of what was reclaimed.
-/

namespace HybridHeap

namespace Heap

variable {h : Heap} {held : List Root} {c : CellId} {v : Value Handle}

/-- A heap that stays within its threshold, or does not check it, is not collected. -/
theorem Balanced.place_of_within (hb : h.Balanced (v.anchors ++ held) none) (hl : ¬h.Live c)
    (hw : h.config.collectOnAllocate = true → h.objects.length < h.capacity) :
    (h.place c v).2 = (h.placeOnly c v).2.start := by
  obtain ⟨-, hplaced, -, -⟩ := hb.placeOnly hl
  obtain ⟨objects, roots, hs, ho, he, -⟩ := hb.placeOnly_eq hl
  have hdrain : (h.placeOnly c v).2.start.drain = (h.placeOnly c v).2.start :=
    Reclamation.drain_of_deferred_nil (hplaced.deferred rfl)
  rw [place_eq, hdrain]
  split
  · rename_i ht
    refine Reclamation.collectIfOver_of_within ?_
    have hlength : objects.length = h.objects.length + 1 := by
      rw [hs.length_eq, ho, List.length_cons, hb.counted.sound.length_eq, Heap.cells]
    rw [he]
    show objects.length ≤ h.capacity
    have := hw ht
    omega
  · rfl

/-- Nothing was allocated on the way from `h` to `h'`. -/
def Unallocated (h h' : Heap) : Prop :=
  h'.counters.allocations = h.counters.allocations

theorem unallocated_refl (h : Heap) : h.Unallocated h := rfl

end Heap

namespace World

variable {w w' : World} {held : List Holding} {write : Option Writing} {i : HeapId} {h : Heap}
  {v : Value Handle}

/-- Chores allocate nothing. -/
theorem Balanced.unallocated_doChore {c : Chore} (hb : w.Balanced (c.holding :: held) write) :
    HeapsTurn Heap.Unallocated w (w.doChore c).1 := by
  cases c with
  | dropRoot r =>
      obtain ⟨h, hi, -⟩ := hb.live List.mem_cons_self
      simp only [World.doChore, reclaim, hi]
      refine .commit Heap.unallocated_refl hi ?_
      rw [Heap.Unallocated, (hb.heap_of_root hi).dropRoot.2.allocations, Heap.start,
        Heap.counters_unroot]
  | dropAnchor r =>
      obtain ⟨h, hi, -⟩ := hb.live List.mem_cons_self
      simp only [World.doChore, reclaim, hi]
      refine .commit Heap.unallocated_refl hi ?_
      rw [Heap.Unallocated, (hb.heap_of_root hi).dropAnchor.2.2.allocations, Heap.start,
        Heap.counters_unroot]
  | leave e => exact .of_heaps Heap.unallocated_refl (w.heaps_leave e)

theorem Balanced.unallocated_settle {chores : List Chore}
    (hb : w.Balanced (chores.map Chore.holding ++ held) write) :
    HeapsTurn Heap.Unallocated w (w.settle chores) := by
  fun_induction World.settle w chores with
  | case1 w => exact .of_heaps Heap.unallocated_refl rfl
  | case2 w c rest ih =>
      refine (hb.unallocated_doChore).trans (fun hr hr' => hr'.trans hr) (ih ?_)
      rw [List.map_append, List.append_assoc]
      exact hb.doChore

/-- The next cell of the heap `i`. -/
abbrev nextOf (w : World) (i : HeapId) : CellId :=
  { heap := i, number := w.nextCell }

/-- The world with the value in the next cell of the heap `i`, before the threshold is
checked. -/
def withCell (w : World) (i : HeapId) (v : Value Handle) : World :=
  { w with nextCell := w.nextCell + 1 }.modifyHeap i fun h =>
    (h.placeOnly (w.nextOf i) v).2

/-- What an allocation of the value `v` on the heap `i` leads to, where `h` is the heap before
it, `r` the root that is answered, and `h'` the heap in the end. -/
structure Allocated (w : World) (i : HeapId) (v : Value Handle) (h : Heap) (r : Root)
    (w' : World) (h' : Heap) : Prop where
  /-- The cell is a new one with the value in it, and its root is the only reference to it. -/
  cell : r.cell = w.nextOf i ∧ ¬w.Live r.cell ∧ w'.Live r.cell ∧
    w'.readCell r.cell = v.placed ∧ h'.countOf r.cell = 1
  /-- The root is the newest. The other entries are old ones in their order, without those of
  the value and of scopes that are gone. -/
  listed : ∃ rest, h'.roots.toList = r.entry :: rest ∧ rest.Sublist h.roots.toList ∧
    (∀ a ∈ v.anchors, a.ticket ∉ rest.map Prod.fst) ∧
    ∀ p ∈ h.roots.toList, p ∉ rest → p ∈ v.anchors.map Root.entry ∨
      ∃ (e : EnvId) (env : Environment), w.envs[e]? = some env ∧ ¬w'.Alive (.scope e) ∧
        p ∈ env.roots.map Root.entry
  /-- Everything is counted as before, less the references of what is gone. -/
  counts : ∀ n, w.Alive n → w'.Alive n →
    w'.tally n + ((w.gone w').flatMap w.refs).count n = w.tally n
  /-- Nothing is gone unless the allocation has started a collection. -/
  reclaimed : w.gone w' ≠ [] →
    h.config.collectOnAllocate = true ∧ h.capacity < h.objects.length + 1
  /-- At any time whatever the cell leads to is alive, and nothing has changed. -/
  passed : ∀ w₁,
    ({ w with nextCell := w.nextCell + 1 }.commit i (h.place r.cell v).2).1.Passes
      (h.place r.cell v).2.payloads w₁ →
    (∀ n, (w.withCell i v).Leads (.cell r.cell) n → w₁.Alive n) ∧
      ∀ n, n ≠ .cell r.cell → w.Keeps w₁ n
  ended : ({ w with nextCell := w.nextCell + 1 }.commit i (h.place r.cell v).2).1.Passes
    (h.place r.cell v).2.payloads w'
  allocations : h'.counters.allocations = h.counters.allocations + 1

section Placing

theorem withCell_eq (hi : w.heap? i = some h) (v : Value Handle) :
    w.withCell i v = { w with nextCell := w.nextCell + 1 }.setHeap i
      (h.placeOnly (w.nextOf i) v).2 := by
  have hnext : { w with nextCell := w.nextCell + 1 }.heap? i = some h := hi
  simp only [withCell, modifyHeap, hnext]

/-- Everything else is in the world with the new cell as it was. -/
theorem Balanced.readCell_withCell (hb : w.Balanced (v.holdings ++ held) none)
    (hi : w.heap? i = some h) (ho : ownsAll i v = true) :
    (w.withCell i v).readCell (w.nextOf i) = v.placed ∧
      (∀ n, w.Alive n → (w.withCell i v).Alive n) ∧
      ∀ n, n ≠ .cell (w.nextOf i) → w.Keeps (w.withCell i v) n := by
  rw [withCell_eq hi]
  generalize hc : w.nextOf i = c
  have hheap := hb.heap_of_value hi ho
  have hlive : ¬h.Live c := hc ▸ hb.not_live_next hi
  obtain ⟨-, hplaced, -, hcells⟩ := hheap.placeOnly hlive
  have hfind : ∀ d, (h.placeOnly c v).2.find? d =
      if d = c then some { count := 1, marked := false, value := v.placed } else h.find? d :=
    hheap.counted.sound.find?_of_cons hplaced.counted.sound hcells
  generalize (h.placeOnly c v).2 = h₀ at hfind ⊢
  have hself : ({ w with nextCell := w.nextCell + 1 }.setHeap i h₀).heap? i = some h₀ :=
    heap?_setHeap_self (w := w) hi h₀
  refine ⟨?_, fun n hn => ?_, fun n hn => ?_⟩
  · have hhome : c.heap = i := hc ▸ rfl
    simp only [readCell, hhome, hself, Heap.read, hfind, if_true]
  · cases n with
    | scope e => exact hn
    | cell d =>
        obtain ⟨k, hk, cell, hf⟩ := hn
        by_cases hd : i = d.heap
        · rw [← hd, hi, Option.some.injEq] at hk
          subst hk
          have hne : d ≠ c := fun he => hlive (he ▸ ⟨cell, hf⟩)
          exact ⟨h₀, hd ▸ hself, cell, by rw [hfind, if_neg hne, hf]⟩
        · exact ⟨k, (heap?_setHeap_of_ne (w := w) hd h₀).trans hk, cell, hf⟩
  · have hkeeps : w.Keeps (w.setHeap i h₀) n := by
      refine keeps_setHeap hi fun d hd cell hf => ⟨cell, ?_, rfl⟩
      rwa [hfind, if_neg fun he => hn (hd.trans (congrArg Node.cell he))] at hf
    cases n with
    | scope e => exact hkeeps
    | cell d => exact hkeeps

variable (hb : w.Balanced (v.holdings ++ held) none) (hi : w.heap? i = some h)
  (ho : ownsAll i v = true)

include hb hi ho

theorem Balanced.withCell : (w.withCell i v).Balanced
    (.root (h.placeOnly (w.nextOf i) v).1 :: held) none := by
  obtain ⟨-, hplaced, -⟩ := (hb.heap_of_value hi ho).placeOnly (hb.not_live_next hi)
  rw [withCell_eq hi]
  exact hb.commit_placed hi ho rfl hplaced (.refl _)

/-- Every world that is passed after the placement has less than the one with the new cell, and
the root is owned in it. -/
theorem Balanced.passes_place
    (hp : ({ w with nextCell := w.nextCell + 1 }.commit i (h.place (w.nextOf i) v).2).1.Passes
      (h.place (w.nextOf i) v).2.payloads w') :
    (∀ n, (w.withCell i v).Keeps w' n) ∧ ∃ held', w'.Balanced
      (held' ++ (.root (h.placeOnly (w.nextOf i) v).1 :: held)) none := by
  have hheap := hb.heap_of_value hi ho
  have hlive := hb.not_live_next hi
  obtain ⟨-, hplaced, -⟩ := hheap.placeOnly hlive
  obtain ⟨hbal, hthin⟩ := hheap.place hlive
  obtain ⟨hs, hb'⟩ := Balanced.passes hp (hb.place hi ho rfl)
  refine ⟨fun n => Keeps.trans ?_ (hs.keeps n), hb'⟩
  have hself : (w.withCell i v).heap? i = some (h.placeOnly (w.nextOf i) v).2 := by
    rw [withCell_eq hi]
    exact heap?_setHeap_self (w := w) hi _
  have hkeeps := keeps_commit hself hthin rfl hplaced.counted hbal.counted n
  rw [withCell_eq hi] at hkeeps ⊢
  rwa [commit_setHeap] at hkeeps

theorem Balanced.settle_of_within
    (hw : h.config.collectOnAllocate = true → h.objects.length < h.capacity) :
    ({ w with nextCell := w.nextCell + 1 }.commit i (h.place (w.nextOf i) v).2).1.settle
      (h.place (w.nextOf i) v).2.payloads = w.withCell i v := by
  rw [(hb.heap_of_value hi ho).place_of_within (hb.not_live_next hi) hw, withCell_eq hi]
  exact settle_nil _

omit hb in
theorem allocate_eq : w.allocate i v =
    (({ w with nextCell := w.nextCell + 1 }.commit i (h.place (w.nextOf i) v).2).1.settle
        (h.place (w.nextOf i) v).2.payloads,
      .ok (some (h.placeOnly (w.nextOf i) v).1)) := by
  rw [allocate, if_pos ho]
  simp only [hi]
  rfl

end Placing

/-- The references of a placed value are those that it owned. -/
theorem refs_placed (v : Value Handle) : v.placed.refs = v.holdings.map Holding.node := by
  rw [Value.refs, Value.targets_placed, Value.env?_placed, Value.holdings, List.map_append,
    List.map_map, List.map_map, List.map_map]
  rfl

section Placed

variable {r : Root} (hb : w.Balanced (v.holdings ++ held) none) (hi : w.heap? i = some h)
  (ho : ownsAll i v = true) (hr : r = (h.placeOnly (w.nextOf i) v).1)
  (hless : ∀ n, (w.withCell i v).Keeps w' n) (hb' : w'.Balanced (.root r :: held) none)

include hb hi ho hr hless hb'

/-- The new cell has the value, and nothing else refers to it. -/
theorem Balanced.cell_of_placed : r.cell = w.nextOf i ∧ ¬w.Live r.cell ∧ w'.Live r.cell ∧
    w'.readCell r.cell = v.placed ∧ w'.tally (.cell r.cell) = 1 := by
  obtain ⟨hcell, hplaced, -, hcells⟩ :=
    (hb.heap_of_value hi ho).placeOnly (hb.not_live_next hi)
  have hr' : r.cell = w.nextOf i := hr ▸ hcell
  have hlive : w'.Live r.cell := hb'.live List.mem_cons_self
  refine ⟨hr', ?_, hlive, ?_, ?_⟩
  · rintro ⟨k, hk, hl⟩
    rw [hr', hi, Option.some.injEq] at hk
    subst hk
    rw [hr'] at hl
    exact hb.not_live_next hi hl
  · rw [(hless (.cell r.cell)).readCell_eq hlive, hr']
    exact (hb.readCell_withCell hi ho).1
  · -- one at first, and no more since
    have hbefore : (w.withCell i v).tally (.cell r.cell) = 1 := by
      have hself : (w.withCell i v).heap? i = some (h.placeOnly (w.nextOf i) v).2 := by
        rw [withCell_eq hi]
        exact heap?_setHeap_self (w := w) hi _
      have hfind := hplaced.counted.find?_eq_some_iff.mpr (hcells ▸ List.mem_cons_self)
      simp only [tally, hr', hself, Option.map_some, Option.getD_some]
      exact Heap.countOf_of_find? hfind
    have hafter := hb'.tally_pos hlive
    have hadd := hb'.tally_add (hr ▸ hb.withCell hi ho)
      (fun n hn => ⟨(hless n).alive hn, (hless n).refs_eq hn⟩) (n := .cell r.cell) hlive
    omega

/-- Of all else that is alive nothing has changed. -/
theorem Balanced.keeps_of_placed {n : Node} (hn : n ≠ .cell r.cell) : w.Keeps w' n := by
  obtain ⟨hr', -⟩ := hb.cell_of_placed hi ho hr hless hb'
  exact ((hb.readCell_withCell hi ho).2.2 n (hr' ▸ hn)).trans (hless n)

/-- Counts are as before, but for the references of what is gone. -/
theorem Balanced.tally_of_placed {n : Node} (hn : w.Alive n) (hn' : w'.Alive n) :
    w'.tally n + ((w.gone w').flatMap w.refs).count n = w.tally n := by
  obtain ⟨hr', hfresh, hlive, hread, -⟩ := hb.cell_of_placed hi ho hr hless hb'
  have htransfer := hb.tally_transfer hb' [.cell r.cell] []
    (List.nodup_singleton _) (fun m hm => List.mem_singleton.mp hm ▸ ⟨hlive, hfresh⟩) .nil
    (fun m hm => by cases hm) (fun m hm hne => ?_) hn hn'
  · have hne : Node.cell r.cell ≠ n := by
      rintro rfl
      exact hfresh hn
    rw [List.flatMap_singleton, List.flatMap_nil, List.flatMap_nil, List.count_nil, refs, hread,
      refs_placed, List.map_append, List.count_append, List.map_cons, Holding.node,
      List.count_cons_of_ne hne] at htransfer
    omega
  · have hkeeps := hb.keeps_of_placed hi ho hr hless hb' (List.mem_singleton.not.mp hne)
    exact ⟨hkeeps.alive hm, fun _ => hkeeps.refs_eq hm⟩

/-- The root of the new cell is the first on the list, and the roots of the value are gone from
it. -/
theorem Balanced.roots_of_placed {h' : Heap} (hi' : w'.heap? i = some h') :
    ∃ rest, h'.roots.toList = r.entry :: rest ∧ rest.Sublist h.roots.toList ∧
      (∀ a ∈ v.anchors, a.ticket ∉ rest.map Prod.fst) ∧
      ∀ p ∈ h.roots.toList, p ∉ rest → p ∈ v.anchors.map Root.entry ∨
        ∃ (e : EnvId) (env : Environment), w.envs[e]? = some env ∧ ¬w'.Alive (.scope e) ∧
          p ∈ env.roots.map Root.entry := by
  obtain ⟨hr', -⟩ := hb.cell_of_placed hi ho hr hless hb'
  obtain ⟨objects, roots, -, -, hplace, -⟩ :=
    (hb.heap_of_value hi ho).placeOnly_eq (hb.not_live_next hi)
  have hticket : r.ticket = h.nextTicket := by rw [hr, hplace]
  exact hb.newest_listed hi ho hb' (fun e => hb.keeps_of_placed hi ho hr hless hb' (by simp))
    (hr' ▸ rfl) (Nat.le_of_eq hticket.symm) hi'

end Placed

section Allocating

variable (hb : w.Balanced (v.holdings ++ held) none) (hi : w.heap? i = some h)
  (ho : ownsAll i v = true)

include hb hi ho

/-- An allocation in its own heap succeeds, and leaves no more than the world with the new cell. -/
theorem Balanced.allocate :
    (w.allocate i v).2 = .ok (some (h.placeOnly (w.nextOf i) v).1) ∧
      (w.allocate i v).1.Balanced (.root (h.placeOnly (w.nextOf i) v).1 :: held) none ∧
      ∀ n, (w.withCell i v).Keeps (w.allocate i v).1 n := by
  obtain ⟨hless, -⟩ := hb.passes_place hi ho (passes_settle _ _)
  rw [allocate_eq hi ho]
  exact ⟨rfl, (hb.place hi ho rfl).settle, hless⟩

/-- An allocation counts one cell on its own heap, and none on any other. -/
theorem Balanced.allocations_allocate {j : HeapId} {k : Heap} (hj : w.heap? j = some k) :
    ∃ k', (w.allocate i v).1.heap? j = some k' ∧
      k'.counters.allocations = k.counters.allocations + if j = i then 1 else 0 := by
  have hplaced := hb.place hi ho rfl
  rw [allocate_eq hi ho]
  have hsettled := hplaced.unallocated_settle
  generalize hw : ({ w with nextCell := w.nextCell + 1 }.commit i
    (h.place (w.nextOf i) v).2).1 = w₁ at hsettled ⊢
  have hcommit : ∃ k₁, w₁.heap? j = some k₁ ∧
      k₁.counters.allocations = k.counters.allocations + if j = i then 1 else 0 := by
    subst hw
    by_cases hij : i = j
    · subst hij
      cases hi.symm.trans hj
      refine ⟨_, heap?_setHeap_self (w := w) hi _, ?_⟩
      rw [if_pos rfl, ((hb.heap_of_value hi ho).place (hb.not_live_next hi)).2.allocations,
        Heap.start, Heap.counters_placeOnly]
    · refine ⟨k, (heap?_setHeap_of_ne (w := w) hij _).trans hj, ?_⟩
      rw [if_neg (Ne.symm hij), Nat.add_zero]
  obtain ⟨k₁, hk₁, hcount⟩ := hcommit
  obtain ⟨k', hk', hsame⟩ := hsettled.exists_of_some hk₁
  exact ⟨k', hk', hsame.trans hcount⟩

end Allocating

/-- An allocation hands over what the value owns without loss, whether it starts a collection
or not. -/
theorem value_allocated (hm : Moment.Reachable ⟨w, v.holdings ++ held, none⟩)
    (ho : ownsAll i v = true) (hi : w.heap? i = some h) :
    ∃ r h', (w.allocate i v).2 = .ok (some r) ∧ (w.allocate i v).1.heap? i = some h' ∧
      Allocated w i v h r (w.allocate i v).1 h' := by
  have hb : w.Balanced (v.holdings ++ held) none := hm.balanced
  have hheap := hb.heap_of_value hi ho
  have hplaced := hb.place hi ho rfl
  have hended := passes_settle ({ w with nextCell := w.nextCell + 1 }.commit i
    (h.place (w.nextOf i) v).2).1 (h.place (w.nextOf i) v).2.payloads
  obtain ⟨h', hi', hallocations⟩ := hplaced.unallocated_settle.exists_of_some
    (heap?_setHeap_self (w := w) hi (h.place (w.nextOf i) v).2.heap)
  have hb' : World.Balanced _ (.root (h.placeOnly (w.nextOf i) v).1 :: held) none :=
    hplaced.settle
  obtain ⟨hless, -⟩ := hb.passes_place hi ho hended
  rw [allocate_eq hi ho]
  generalize hr : (h.placeOnly (w.nextOf i) v).1 = r at hb' ⊢
  generalize hw : World.settle _ (h.place (w.nextOf i) v).2.payloads = w' at hended hi' hb' hless ⊢
  obtain ⟨hcell, hfresh, hlive, hread, hcount⟩ := hb.cell_of_placed hi ho hr.symm hless hb'
  refine ⟨r, h', rfl, hi', ?_⟩
  rw [← hcell] at hended
  constructor
  case cell =>
    have hheap' : r.cell.heap = i := hcell ▸ rfl
    refine ⟨hcell, hfresh, hlive, hread, ?_⟩
    simpa only [tally, hheap', hi', Option.map_some, Option.getD_some] using hcount
  case listed => exact hb.roots_of_placed hi ho hr.symm hless hb' hi'
  case counts => exact fun n hn hn' => hb.tally_of_placed hi ho hr.symm hless hb' hn hn'
  case reclaimed =>
    intro hgone
    by_contra hwithin
    have hw' : w' = w.withCell i v := hw.symm.trans
      (hb.settle_of_within hi ho fun ht => by
        by_contra hover
        exact hwithin ⟨ht, by omega⟩)
    subst hw'
    refine hgone (List.filter_eq_nil_iff.mpr fun n hn => ?_)
    simpa [hb'.mem_nodes] using (hb.readCell_withCell hi ho).2.1 n (hb.mem_nodes.mp hn)
  case passed =>
    intro w₁ hp
    rw [hcell] at hp
    obtain ⟨hless₁, held₁, hb₁⟩ := hb.passes_place hi ho hp
    rw [hr] at hb₁
    have hlive₁ : w₁.Live r.cell := hb₁.live (List.mem_append_right _ List.mem_cons_self)
    refine ⟨fun n => hb₁.alive_of_leads hless₁ hlive₁, fun n hn => ?_⟩
    exact ((hb.readCell_withCell hi ho).2.2 n (hcell ▸ hn)).trans (hless₁ n)
  case ended => exact hended
  case allocations =>
    rw [hallocations, (hheap.place (hb.not_live_next hi)).2.allocations, Heap.start,
      Heap.counters_placeOnly]

/-- Two handles to a cell, which is also bound in the environment of a closure. The closure is
owned by a pair that nothing but itself refers to. -/
def dangling : Session :=
  let code := Code.lambda { params := ["x"], rest := none, body := .lambda [] none (.var "x") }
  let ops : List Op :=
    [.allocate (.pair .null .null) false (some "a"),
      .newScope "e" none,
      .allocate (.closure code "e") false (some "f"),
      .dropScope "e",
      .call "f" [.copy "a"] (some "g"),
      .drop "f",
      .allocate (.pair (.move "g") .null) false (some "p"),
      .write "p" .second "p",
      .drop "p",
      .clone "a" (some "b")]
  ops.foldl (fun s op => (s.performOp 1 op).1) (.new [.own { initialCapacity := 3 }])

theorem dangling_reachable : dangling.Reachable :=
  .foldl (.new _ _) 1 _

/-- Both handles go into a pair. That starts a collection, which sweeps the pair and the closure;
the count of the cell falls from three to two, as its binding is gone. -/
theorem value_allocated_closure :
    let v : Value Handle := .pair (some { cell := ⟨1, 0⟩, ticket := 0 })
      (some { cell := ⟨1, 0⟩, ticket := 5 })
    let w := dangling.world
    dangling.holdings = v.holdings ++ [] ∧ ownsAll 1 v = true ∧
      w.tally (.cell ⟨1, 0⟩) = 3 ∧ (w.allocate 1 v).1.tally (.cell ⟨1, 0⟩) = 2 ∧
      ((w.allocate 1 v).1.heap? 1).map Heap.stats =
        some { counters := { allocations := 5, eagerFrees := 1, collections := 1, swept := 2 },
               liveObjects := 2, roots := 1, capacity := 3 } ∧
      ∃ h r h', w.heap? 1 = some h ∧ (w.allocate 1 v).2 = .ok (some r) ∧
        Allocated w 1 v h r (w.allocate 1 v).1 h' := by
  intro v w
  have hheld : dangling.holdings = v.holdings ++ [] := by
    unfold v
    cbv
  have ho : ownsAll 1 v = true := by
    unfold v
    cbv
  obtain ⟨h, hi⟩ : ∃ h, w.heap? 1 = some h := by
    refine Option.isSome_iff_exists.mp ?_
    unfold w
    cbv
  obtain ⟨r, h', hr, -, hallocated⟩ :=
    value_allocated (hheld ▸ dangling_reachable.moment) ho hi
  refine ⟨hheld, ho, ?_, ?_, ?_, h, r, h', hi, hr, hallocated⟩
  · unfold w
    cbv
  · unfold v w
    cbv
  · unfold v w
    cbv

end World

end HybridHeap
