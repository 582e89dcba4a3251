import Mathlib.Data.List.Permutation
import HybridHeap.Proofs.Session.Reachable
import HybridHeap.Proofs.World.Collections

/-!
Collecting twice. Closures let go of their environments after the sweep that freed
them, and an environment drops the roots of its bindings, so a collection can leave
behind cells that nothing reaches any more. The second collection sweeps these, and
it changes nothing if there are none.
-/

namespace HybridHeap

/-- What the destruction of freed payloads does to a heap: unless it leaves the heap
alone, it takes entries off the root list. -/
structure Heap.Worn (h h' : Heap) : Prop where
  roots : h' = h ∨ h'.roots.toList.length < h.roots.toList.length
  length : h'.cells.length ≤ h.cells.length
  swept : h.counters.swept ≤ h'.counters.swept
  capacity : h.Roomy → h'.capacity = h.capacity

namespace Heap.Worn

variable {h h' h'' : Heap}

theorem refl (h : Heap) : h.Worn h :=
  ⟨.inl rfl, Nat.le_refl _, Nat.le_refl _, fun _ => rfl⟩

theorem roomy (hw : h.Worn h') (hr : h.Roomy) : h'.Roomy := by
  have hle := hw.length
  rw [Heap.Roomy, hw.capacity hr]
  rw [Heap.Roomy] at hr
  omega

theorem trans (hw : h.Worn h') (hw' : h'.Worn h'') : h.Worn h'' where
  roots := by
    rcases hw.roots with rfl | hlt
    · exact hw'.roots
    · rcases hw'.roots with rfl | hlt'
      · exact .inr hlt
      · exact .inr (Nat.lt_trans hlt' hlt)
  length := Nat.le_trans hw'.length hw.length
  swept := Nat.le_trans hw.swept hw'.swept
  capacity hr := (hw'.capacity (hw.roomy hr)).trans (hw.capacity hr)

end Heap.Worn

/-- Giving up an owned root wears the heap. -/
theorem Reclamation.Thins.worn {h : Heap} {r : Root} {held : List Root} {write : Option Writing}
    {r' : Reclamation} (ht : (h.unroot r).start.Thins r') (hl : h.Listed (r :: held) write) :
    h.Worn r'.heap := by
  obtain ⟨roots, he, hl'⟩ := hl.unroot
  rw [he] at ht
  have hbefore : h.roots.toList.length = (listedRoots held write).length + 1 := by
    rw [hl.roots.length_eq, List.length_map]
    rfl
  have hafter : roots.toList.length = (listedRoots held write).length := by
    rw [hl'.roots.length_eq, List.length_map]
  refine ⟨.inr ?_, ht.length_le, ht.swept, ht.capacity⟩
  have hroots : r'.heap.roots = roots := ht.roots
  rw [hroots]
  omega

namespace World.Balanced

variable {w : World} {held : List Holding} {write : Option Writing} {i : HeapId} {h : Heap}

theorem worn_commit (hi : w.heap? i = some h) {j : HeapId} {k : Heap} (hj : w.heap? j = some k)
    {r : Reclamation} (hr : k.Worn r.heap) :
    ∃ h', (w.commit j r).1.heap? i = some h' ∧ h.Worn h' := by
  by_cases hij : i = j
  · subst hij
    rw [hi, Option.some.injEq] at hj
    subst hj
    exact ⟨r.heap, heap?_setHeap_self hi r.heap, hr⟩
  · exact ⟨h, (heap?_setHeap_of_ne (Ne.symm hij) w r.heap).trans hi, .refl h⟩

theorem worn_doChore {c : Chore} (hb : w.Balanced (c.holding :: held) write)
    (hi : w.heap? i = some h) : ∃ h', (w.doChore c).1.heap? i = some h' ∧ h.Worn h' := by
  cases c with
  | dropRoot r =>
      obtain ⟨k, hk, -⟩ := hb.live List.mem_cons_self
      have hheap := hb.heap_of_root hk
      simp only [World.doChore, reclaim, hk]
      exact worn_commit hi hk (hheap.dropRoot.2.worn hheap.listed)
  | dropAnchor r =>
      obtain ⟨k, hk, -⟩ := hb.live List.mem_cons_self
      have hheap := hb.heap_of_root hk
      simp only [World.doChore, reclaim, hk]
      exact worn_commit hi hk (hheap.dropAnchor.2.2.worn hheap.listed)
  | leave e =>
      refine ⟨h, ?_, .refl h⟩
      simp only [World.doChore, World.leave]
      split
      · exact hi
      · split <;> exact hi

/-- Destruction wears the heaps, however far it goes. -/
theorem worn_settle {chores : List Chore}
    (hb : w.Balanced (chores.map Chore.holding ++ held) write) (hi : w.heap? i = some h) :
    ∃ h', (w.settle chores).heap? i = some h' ∧ h.Worn h' := by
  fun_induction World.settle w chores generalizing h with
  | case1 w => exact ⟨h, hi, .refl h⟩
  | case2 w c rest ih =>
      have hb' : (w.doChore c).1.Balanced
          (((w.doChore c).2 ++ rest).map Chore.holding ++ held) write := by
        rw [List.map_append, List.append_assoc]
        exact hb.doChore
      obtain ⟨h₁, hi₁, hw₁⟩ := hb.worn_doChore hi
      obtain ⟨h₂, hi₂, hw₂⟩ := ih hb' hi₁
      exact ⟨h₂, hi₂, hw₁.trans hw₂⟩

/-- A collection that is asked for, and the destruction that follows. -/
theorem worn_collectNow (hb : w.Balanced held none) (hi : w.heap? i = some h) :
    ∃ h', (w.collectNow i).heap? i = some h' ∧ h.collectNow.heap.Worn h' ∧
      (h.collectNow.graveyard = [] → h' = h.collectNow.heap) := by
  have hself : (w.commit i h.collectNow).1.heap? i = some h.collectNow.heap :=
    heap?_setHeap_self hi _
  simp only [World.collectNow, World.work, hi, World.finish]
  obtain ⟨h', hi', hw⟩ := worn_settle (hb.collectNow hi) hself
  refine ⟨h', hi', hw, fun hg => ?_⟩
  have hpayloads : (w.commit i h.collectNow).2 = [] := by
    rw [World.commit, Reclamation.payloads, hg]
    rfl
  change (World.settle _ (w.commit i h.collectNow).2).heap? i = some h' at hi'
  rw [hpayloads, World.settle, hself, Option.some.injEq] at hi'
  exact hi'.symm

end World.Balanced

/-- What a collection leaves is reached from the roots that it leaves. -/
theorem Reclamation.Exact.reached {r r' : Reclamation} (he : r.Exact r')
    (hs : r.heap.objects.Sound) (hs' : r'.heap.objects.Sound) {c : CellId}
    (hl : r'.heap.Live c) : r'.heap.Reached c := by
  have hroots : r'.heap.rootTargets = r.heap.rootTargets := by
    rw [Heap.rootTargets, he.roots, Heap.rootTargets]
  have hkept : ∀ d, r.heap.Reached d → ∀ cell, r.heap.find? d = some cell →
      ∃ cell', r'.heap.find? d = some cell' ∧ cell'.value = cell.value := by
    intro d hd cell hf
    have hmem : (d, cell.value) ∈ r.heap.reachedCells.map fun p => (p.1, p.2.value) :=
      List.mem_map.mpr ⟨(d, cell), Heap.mem_reachedCells.mpr ⟨hs.find?_eq_some_iff.mp hf, hd⟩, rfl⟩
    rw [← he.cells] at hmem
    obtain ⟨p, hp, hpe⟩ := List.mem_map.mp hmem
    simp only [Prod.mk.injEq] at hpe
    obtain ⟨rfl, hv⟩ := hpe
    exact ⟨p.2, hs'.find?_eq_some_iff.mpr hp, hv⟩
  have hreach : ∀ d, r.heap.Reached d → r'.heap.Reached d := by
    intro d hd
    induction hd with
    | source hm => exact .source (hroots ▸ hm)
    | slot ha hf ht ih =>
        obtain ⟨cell', hf', hv⟩ := hkept _ ha _ hf
        exact .slot ih hf' (hv ▸ ht)
  obtain ⟨cell, hf⟩ := hl
  have hmem : (c, cell.value) ∈ r'.heap.cells.map fun p => (p.1, p.2.value) :=
    List.mem_map.mpr ⟨(c, cell), hs'.find?_eq_some_iff.mp hf, rfl⟩
  rw [he.cells] at hmem
  obtain ⟨p, hp, hpe⟩ := List.mem_map.mp hmem
  simp only [Prod.mk.injEq] at hpe
  obtain ⟨rfl, -⟩ := hpe
  exact hreach p.1 (Heap.mem_reachedCells.mp hp).2

/-- A heap that the next collection will leave alone: the roots reach every cell, and the
threshold is high enough for what there is. -/
structure Heap.AtRest (h : Heap) : Prop where
  reached : ∀ c, h.Live c → h.Reached c
  roomy : h.Roomy

/-- The heap with one more collection on the counter. -/
def Heap.tallied (h : Heap) : Heap :=
  { h with counters := { h.counters with collections := h.counters.collections + 1 } }

theorem Heap.AtRest.tallied {h : Heap} (hr : h.AtRest) : h.tallied.AtRest where
  reached c hl := by
    have hobjects : h.tallied.objects = h.objects := rfl
    have hroots : h.tallied.roots = h.roots := rfl
    exact (Heap.reached_congr hobjects hroots c).mpr (hr.reached c hl)
  roomy := hr.roomy

/-- The report of a collection of `h` that frees nothing. -/
def Heap.idleReport (h : Heap) (traced : Nat) : Event :=
  .collected h.cells.length h.cells.length 0 traced h.capacity

/-- A collection of a heap at rest counts and reports itself and does nothing else. -/
theorem Heap.Balanced.collectNow_of_atRest {h : Heap} {held : List Root}
    (hb : h.Balanced held none) (hr : h.AtRest) :
    ∃ traced, h.collectNow = { heap := h.tallied, events := [h.idleReport traced] } := by
  obtain ⟨-, hcollect, hready⟩ := hb.collectNow_eq
  obtain ⟨traced, he⟩ := hready.collect_of_reached hr.reached
  have hcapacity : max h.capacity (h.cells.length + h.cells.length / 2) = h.capacity :=
    Nat.max_eq_left hr.roomy
  refine ⟨traced, ?_⟩
  rw [hcollect, he]
  simp only [Heap.start, hcapacity, Heap.tallied, Heap.idleReport]

/-- The same live cells with the same counts, the same roots and the same threshold, and
nothing freed. -/
structure Heap.Unchanged (h h' : Heap) : Prop where
  cells : h'.cells = h.cells
  roots : h'.roots = h.roots
  capacity : h'.capacity = h.capacity
  eagerFrees : h'.counters.eagerFrees = h.counters.eagerFrees
  swept : h'.counters.swept = h.counters.swept

/-- Collecting a second time changes nothing. -/
def World.CollectsOnce (w : World) (i : HeapId) : Prop :=
  ∀ h₁ h₂, (w.collectNow i).heap? i = some h₁ →
    ((w.collectNow i).collectNow i).heap? i = some h₂ → h₁.Unchanged h₂

section Twice

variable {h h' : Heap} {held : List Root}

/-- After the sweep the threshold is high enough for what is left. -/
theorem Reclamation.Exact.roomy {r r' : Reclamation} (he : r.Exact r') : r'.heap.Roomy := by
  have hlength := congrArg List.length he.cells
  rw [List.length_map, List.length_map] at hlength
  rw [Heap.Roomy, hlength, he.capacity]
  omega

theorem Heap.Balanced.exact_collectNow (hb : h.Balanced held none) :
    h.start.Exact h.collectNow := by
  obtain ⟨-, hcollect, hready⟩ := hb.collectNow_eq
  rw [hcollect]
  exact hready.exact_collect

/-- A collection changes nothing where everything is reached. -/
theorem Heap.Balanced.unchanged_collectNow (hb : h.Balanced held none) (hr : h.Roomy)
    (hall : ∀ c, h.Live c → h.Reached c) :
    h.Unchanged h.collectNow.heap ∧ h.collectNow.graveyard = [] := by
  obtain ⟨traced, he⟩ := hb.collectNow_of_atRest ⟨hall, hr⟩
  rw [he]
  exact ⟨⟨rfl, rfl, rfl, rfl, rfl⟩, rfl⟩

/-- A collection that sweeps something counts it. -/
theorem Heap.Balanced.swept_lt (hb : h.Balanced held none) {c : CellId} (hl : h.Live c)
    (hr : ¬h.Reached c) : h.counters.swept < h.collectNow.heap.counters.swept := by
  obtain ⟨cell, hf⟩ := hl
  have hmem : (c, cell) ∈ h.garbage :=
    Heap.mem_garbage.mpr ⟨hb.counted.find?_eq_some_iff.mp hf, hr⟩
  have hpos := List.length_pos_of_mem hmem
  have hswept : h.collectNow.heap.counters.swept = h.counters.swept + h.garbage.length :=
    hb.exact_collectNow.swept
  omega

end Twice

/-- What a second collection can do to a heap: `h` is the heap before the first one, `h₁`
and `h₂` are what the two leave. The threshold never moves. Nothing else changes if and
only if everything that the first collection left is reached from the roots it left,
which is so if what was destroyed after its sweep has dropped no root. -/
structure SecondCollection (h h₁ h₂ : Heap) : Prop where
  capacity : h₂.capacity = h₁.capacity
  unchanged : h₁.Unchanged h₂ ↔ ∀ c, h₁.Live c → h₁.Reached c
  unchanged_of_roots : h₁.roots = h.roots → h₁.Unchanged h₂

theorem second_collection {w : World} {held : List Holding} {i : HeapId} {h : Heap}
    (hm : Moment.Reachable ⟨w, held, none⟩) (hi : w.heap? i = some h) :
    ∃ h₁ h₂, (w.collectNow i).heap? i = some h₁ ∧
      ((w.collectNow i).collectNow i).heap? i = some h₂ ∧ SecondCollection h h₁ h₂ := by
  have hb : w.Balanced held none := hm.balanced
  have hb₁ : (w.collectNow i).Balanced held none := (hm.collectNow i).balanced
  obtain ⟨h₁, hi₁, hw₁, -⟩ := hb.worn_collectNow hi
  obtain ⟨h₂, hi₂, hw₂, hquiet⟩ := hb₁.worn_collectNow hi₁
  have hheap := hb.heap i h hi
  have hheap₁ := hb₁.heap i h₁ hi₁
  rw [writeIn_none] at hheap hheap₁
  have he := hheap.exact_collectNow
  have hroomy₁ := hw₁.roomy he.roomy
  have ht₂ := hheap₁.collectNow.2
  have hcapacity : h₂.capacity = h₁.capacity :=
    (hw₂.capacity (ht₂.roomy hroomy₁)).trans (ht₂.capacity hroomy₁)
  have hunchanged : (∀ c, h₁.Live c → h₁.Reached c) → h₁.Unchanged h₂ := by
    intro hall
    obtain ⟨hsame, hgraveyard⟩ := hheap₁.unchanged_collectNow hroomy₁ hall
    rw [hquiet hgraveyard]
    exact hsame
  refine ⟨h₁, h₂, hi₁, hi₂, hcapacity, ⟨fun hsame c hl => ?_, hunchanged⟩, fun hroots => ?_⟩
  · by_contra hr
    have hlt := hheap₁.swept_lt hl hr
    have hle := hw₂.swept
    have heq := hsame.swept
    omega
  · apply hunchanged
    intro c hl
    -- the destruction changed the heap only if it took entries off the root list
    rcases hw₁.roots with rfl | hlt
    · exact he.reached hheap.counted.sound hheap.collectNow.1.counted.sound hl
    · have hkept : h.collectNow.heap.roots = h.roots := he.roots
      rw [hroots, hkept] at hlt
      exact absurd hlt (Nat.lt_irrefl _)

namespace Session

/-- A pair refers to itself and to a closure, and the closure's environment binds the
only handle to another pair that refers to itself. There are no other handles. -/
def stranded : Session :=
  let code := Code.lambda { params := ["x"], rest := none, body := .lambda [] none (.var "x") }
  let ops : List Op :=
    [.newScope "e" none,
      .allocate (.closure code "e") false (some "f"),
      .dropScope "e",
      .allocate (.pair .null .null) false (some "q"),
      .write "q" .first "q",
      .call "f" [.move "q"] (some "c"),
      .drop "f",
      .allocate (.pair (.move "c") .null) false (some "p"),
      .write "p" .second "p",
      .drop "p"]
  ops.foldl (fun s op => (s.performOp 1 op).1) (new [])

theorem stranded_reachable : stranded.Reachable :=
  .foldl (.new _ _) 1 _

/-- The first collection frees the closure, and only then the environment drops the root
of the other pair, which is left for the second collection. -/
theorem swept_stranded :
    ((stranded.world.collectNow 1).heap? 1).map (fun h => (h.cells.length, h.counters.swept)) =
        some (1, 2) ∧
      (((stranded.world.collectNow 1).collectNow 1).heap? 1).map
        (fun h => (h.cells.length, h.counters.swept)) = some (0, 3) := by
  constructor <;> cbv

theorem not_collectsOnce_stranded : stranded.Reachable ∧ ¬stranded.world.CollectsOnce 1 := by
  refine ⟨stranded_reachable, fun honce => ?_⟩
  obtain ⟨hfirst, hsecond⟩ := swept_stranded
  obtain ⟨h₁, hi₁, he₁⟩ := Option.map_eq_some_iff.mp hfirst
  obtain ⟨h₂, hi₂, he₂⟩ := Option.map_eq_some_iff.mp hsecond
  rw [Prod.mk.injEq] at he₁ he₂
  have hswept := (honce h₁ h₂ hi₁ hi₂).swept
  omega

/-- Of the three cells the first collection leaves one, which no root reaches, so the second
one changes the heap. -/
theorem second_collection_stranded :
    ∃ h h₁ h₂, stranded.world.heap? 1 = some h ∧
      (stranded.world.collectNow 1).heap? 1 = some h₁ ∧
      ((stranded.world.collectNow 1).collectNow 1).heap? 1 = some h₂ ∧
      h.cells.length = 3 ∧ h₁.cells.length = 1 ∧ h₂.cells.length = 0 ∧
      SecondCollection h h₁ h₂ := by
  have hbefore : (stranded.world.heap? 1).map (fun h => h.cells.length) = some 3 := by
    cbv
  obtain ⟨h, hi, he⟩ := Option.map_eq_some_iff.mp hbefore
  obtain ⟨h₁, h₂, hi₁, hi₂, hsecond⟩ := second_collection stranded_reachable.moment hi
  obtain ⟨hfirst, hthen⟩ := swept_stranded
  rw [hi₁, Option.map_some, Option.some.injEq, Prod.mk.injEq] at hfirst
  rw [hi₂, Option.map_some, Option.some.injEq, Prod.mk.injEq] at hthen
  exact ⟨h, h₁, h₂, hi, hi₁, hi₂, he, hfirst.1, hthen.1, hsecond⟩

end Session

end HybridHeap
