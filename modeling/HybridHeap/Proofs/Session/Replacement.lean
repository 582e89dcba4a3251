import HybridHeap.Proofs.Heap.Orphans
import HybridHeap.Proofs.Session.Reachable
import HybridHeap.Proofs.World.Listing

/-!
Putting a value into a cell. The new value is stored while its handles are still rooted; a
displaced closure then lets go of its environment, which may free cells and start
collections on the way; last the handles of the new value go, and the references of the
old one are given up. At no point of this is anything lost that the new value leads to.
-/

namespace HybridHeap

namespace Heap

variable {h : Heap} {held : List Root} {write : Option Writing}

theorem Balanced.deferred_dropRoot {r : Root} (hb : h.Balanced (r :: held) write) :
    (h.dropRoot r).heap.deferred = [] := by
  obtain ⟨hdropped, hd, -⟩ := hb.dropAnchor
  show (if h.config.collectOnRelease then (h.dropAnchor r).collectIfOver
    else h.dropAnchor r).heap.deferred = []
  split
  · exact (hdropped.collectable hd).collectIfOver.2.2
  · exact hd

/-- Storing a value changes no count: what its handles counted for its slots do. -/
theorem countOf_swap (h : Heap) (c : CellId) (v : Value Handle) (d : CellId) :
    (h.swap c v).countOf d = h.countOf d :=
  h.countOf_setValue c v.placed d

theorem read_of_find?_swap {c : CellId} {v : Value Handle} {cell : Cell}
    (hf : (h.swap c v).find? c = some cell) : cell.value = v.placed := by
  have hswap : (h.swap c v).find? c = (h.setValue c v.placed).find? c := rfl
  rw [hswap, setValue, find?_modifyCell, if_pos rfl] at hf
  obtain ⟨old, -, rfl⟩ := Option.map_eq_some_iff.mp hf
  rfl

theorem find?_unrootAll (h : Heap) (rs : List Root) (d : CellId) :
    (h.unrootAll rs).find? d = h.find? d := by
  rw [find?, objects_unrootAll, find?]

/-- The end of a write gives up each queued reference once, with what follows from it. -/
theorem Balanced.cascade_finishWrite {wr : Writing} (hb : h.Balanced held (some wr)) :
    ∃ freed,
      { h.unrootAll wr.anchors with deferred := [] }.start.Cascade (h.finishWrite wr.anchors)
        freed ∧
      IsLeast {S | h.OrphanClosed ((wr.root :: held).map Root.cell) S} {d | d ∈ freed} ∧
      ∀ d, (h.finishWrite wr.anchors).heap.countOf d + h.deferred.count d +
        (slotTargets (h.cells.filter fun p => p.1 ∈ freed)).count d = h.countOf d := by
  obtain ⟨hc, -, roots, he⟩ := hb.unrootAnchors
  have hobjects : (h.unrootAll wr.anchors).objects = h.objects := objects_unrootAll h wr.anchors
  have hqueue : (h.unrootAll wr.anchors).start.heap.deferred = h.deferred := by rw [he]; rfl
  obtain ⟨hend, freed, hcascade, hleast⟩ :=
    Reclamation.cascade_drain (r := (h.unrootAll wr.anchors).start) (hqueue ▸ hc)
  refine ⟨freed, hcascade, ?_, fun d => ?_⟩
  · have hclosed : ∀ S, (h.unrootAll wr.anchors).start.heap.OrphanClosed
        ((wr.root :: held).map Root.cell) S ↔
          h.OrphanClosed ((wr.root :: held).map Root.cell) S := fun S =>
      orphanClosed_congr hobjects
    simpa only [hclosed] using hleast
  · have hcount := hcascade.countOf h.deferred (hc.congr rfl) hend d
    simp only [Reclamation.map, start, countOf, find?, cells, hobjects] at hcount ⊢
    exact hcount

end Heap

namespace World

/-- No heap has references in its queue. -/
def Drained (w : World) : Prop :=
  ∀ i h, w.heap? i = some h → h.deferred = []

variable {w w' : World} {held : List Holding} {write : Option Writing}

theorem Drained.setHeap (hd : w.Drained) {i : HeapId} {h h' : Heap} (hi : w.heap? i = some h)
    (hh : h'.deferred = []) : (w.setHeap i h').Drained := by
  intro j k hj
  by_cases hij : i = j
  · subst hij
    rw [heap?_setHeap_self hi, Option.some.injEq] at hj
    exact hj ▸ hh
  · exact hd j k ((heap?_setHeap_of_ne hij w h').symm.trans hj)

/-- A chore leaves nothing in the queues. -/
theorem Balanced.drained_doChore {c : Chore} (hb : w.Balanced (c.holding :: held) write)
    (hd : w.Drained) : (w.doChore c).1.Drained := by
  cases c with
  | dropRoot r =>
      obtain ⟨h, hi, -⟩ := hb.live List.mem_cons_self
      simp only [World.doChore, reclaim, hi]
      exact hd.setHeap hi (hb.heap_of_root hi).deferred_dropRoot
  | dropAnchor r =>
      obtain ⟨h, hi, -⟩ := hb.live List.mem_cons_self
      simp only [World.doChore, reclaim, hi]
      exact hd.setHeap hi (hb.heap_of_root hi).dropAnchor.2.1
  | leave e =>
      simp only [World.doChore, World.leave]
      split
      · exact hd
      · split
        · exact hd
        · exact hd

theorem Balanced.drained_settle {chores : List Chore}
    (hb : w.Balanced (chores.map Chore.holding ++ held) write) (hd : w.Drained) :
    (w.settle chores).Drained := by
  fun_induction World.settle w chores with
  | case1 w => exact hd
  | case2 w c rest ih =>
      refine ih ?_ (hb.drained_doChore hd)
      rw [List.map_append, List.append_assoc]
      exact hb.doChore

/-- The end of a write gives up references, and nothing else changes. -/
theorem Balanced.shrinks_finishWrite {wr : Writing} (hb : w.Balanced held (some wr)) {h : Heap}
    (hi : w.heap? wr.root.cell.heap = some h) :
    w.Shrinks (w.commit wr.root.cell.heap (h.finishWrite wr.anchors)).1 := by
  have hheap := hb.heap _ h hi
  rw [writeIn_self] at hheap
  obtain ⟨hbal, ht⟩ := hheap.finishWrite
  obtain ⟨counted, hf⟩ := h.frees_finishWrite wr.anchors
  refine hb.shrinks_commit hi ht (Heap.objects_unrootAll h wr.anchors) hheap.counted hbal.counted
    fun _ => ?_
  rw [hf.swept]
  simp [Heap.start]

/-- The world with the new value in the cell, its handles still rooted. -/
def stored (w : World) (c : CellId) (v : Value Handle) : World :=
  w.modifyHeap c.heap fun h => h.swap c v

/-- The world when a displaced closure has let go of its environment as well. -/
def vacated (w : World) (c : CellId) (v : Value Handle) : World :=
  (w.stored c v).settle ((w.readCell c).env?.toList.map .leave)

/-- The worlds that are passed while a value is put into a cell: from when it is stored
until a displaced closure has let go of its environment, and from when its handles and
the references of the old value have been given up until the end. -/
inductive Replacing (w : World) (c : CellId) (v : Value Handle) : World → Prop
  | vacating {w' : World}
      (hp : (w.stored c v).Passes ((w.readCell c).env?.toList.map .leave) w') :
      Replacing w c v w'
  | finishing {h : Heap} {w' : World} (hi : (w.vacated c v).heap? c.heap = some h)
      (hp : ((w.vacated c v).commit c.heap (h.finishWrite v.anchors)).1.Passes
        (h.finishWrite v.anchors).payloads w') :
      Replacing w c v w'

theorem set_eq (w : World) {r : Root} {v : Value Handle} (ho : ownsAll r.cell.heap v = true) :
    w.set (some r) v =
      ((w.vacated r.cell v).work r.cell.heap fun h => h.finishWrite v.anchors, .ok ()) := by
  simp only [World.set, Handle.target, Option.map_some, ho, if_true]
  rfl

section Replacement

variable {r : Root} {v : Value Handle} {h : Heap}

/-- The cell that is being written is alive. -/
theorem Balanced.live_written {wr : Writing} (hb : w.Balanced held (some wr)) :
    w.Live wr.root.cell := by
  have hmem : wr.root ∈ countedRoots (heldRoots held ++ w.bound) (some wr) :=
    List.mem_append_right _ List.mem_cons_self
  obtain ⟨h, hi⟩ := hb.home wr.root hmem
  have hheap := hb.heap _ h hi
  rw [writeIn_self] at hheap
  obtain ⟨cell, hf, -⟩ := hheap.listed.written wr rfl
  exact ⟨h, hi, cell, hf⟩

theorem stored_eq (hi : w.heap? r.cell.heap = some h) :
    w.stored r.cell v = w.setHeap r.cell.heap (h.swap r.cell v) := by
  simp [stored, modifyHeap, hi]

/-- The moments at which the parts of a replacement are done. -/
theorem reachable_stored (hm : Moment.Reachable ⟨w, .root r :: (v.holdings ++ held), none⟩)
    (ho : ownsAll r.cell.heap v = true) :
    Moment.Reachable ⟨w.stored r.cell v,
      ((w.readCell r.cell).env?.toList.map Chore.leave).map Chore.holding ++ held,
      some { root := r, anchors := v.anchors }⟩ := by
  obtain ⟨h, hi, -⟩ := hm.balanced.live List.mem_cons_self
  have hread : w.readCell r.cell = h.read r.cell := by
    simp [readCell, hi]
  rw [stored_eq hi, hread, List.map_map]
  exact hm.step (.swap hi ho)

theorem reachable_vacated (hm : Moment.Reachable ⟨w, .root r :: (v.holdings ++ held), none⟩)
    (ho : ownsAll r.cell.heap v = true) :
    Moment.Reachable ⟨w.vacated r.cell v, held, some { root := r, anchors := v.anchors }⟩ :=
  (reachable_stored hm ho).settle

theorem reachable_finished (hm : Moment.Reachable ⟨w, .root r :: (v.holdings ++ held), none⟩)
    (ho : ownsAll r.cell.heap v = true) (hi : (w.vacated r.cell v).heap? r.cell.heap = some h) :
    Moment.Reachable ⟨((w.vacated r.cell v).commit r.cell.heap (h.finishWrite v.anchors)).1,
      (h.finishWrite v.anchors).payloads.map Chore.holding ++ (.root r :: held), none⟩ :=
  (reachable_vacated hm ho).step
    (@Moment.Step.finishWrite _ _ { root := r, anchors := v.anchors } h hi)

/-- A closure has no slots: either nothing is queued while the environment of the displaced
value is let go of, or there is none. -/
theorem deferred_vacated (hm : Moment.Reachable ⟨w, .root r :: (v.holdings ++ held), none⟩)
    (ho : ownsAll r.cell.heap v = true) (hi : w.heap? r.cell.heap = some h) {h' : Heap}
    (hi' : (w.vacated r.cell v).heap? r.cell.heap = some h') :
    h'.deferred = (h.read r.cell).targets ∧
      (h' = h.swap r.cell v ∨ (h.read r.cell).targets = []) := by
  have hd : w.Drained := fun i k hk => (World.Balanced.heap hm.balanced i k hk).deferred rfl
  have hqueue : (h.swap r.cell v).deferred = (h.read r.cell).targets := by
    simp [Heap.swap, Heap.defer, Heap.setValue, Heap.modifyCell, hd _ h hi]
  have hread : w.readCell r.cell = h.read r.cell := by
    simp [readCell, hi]
  cases henv : (h.read r.cell).env? with
  | none =>
      rw [vacated, hread, henv, stored_eq hi] at hi'
      rw [Option.toList, List.map_nil, settle, heap?_setHeap_self hi, Option.some.injEq] at hi'
      exact hi' ▸ ⟨hqueue, .inl rfl⟩
  | some e =>
      have htargets : (h.read r.cell).targets = [] := by
        cases hv : h.read r.cell with
        | closure code env => rfl
        | scalar s => simp [hv, Value.env?] at henv
        | pair a b => simp [hv, Value.env?] at henv
        | vector es => simp [hv, Value.env?] at henv
      have hstored : (w.stored r.cell v).Drained := by
        rw [stored_eq hi]
        exact hd.setHeap hi (hqueue.trans htargets)
      have hvacated := (reachable_stored hm ho).balanced.drained_settle hstored
      exact ⟨(hvacated _ h' hi').trans htargets.symm, .inr htargets⟩

/-- Whatever the new value leads to stays alive in every world that is passed. -/
theorem alive_of_replacing (hm : Moment.Reachable ⟨w, .root r :: (v.holdings ++ held), none⟩)
    (ho : ownsAll r.cell.heap v = true) (hp : w.Replacing r.cell v w') :
    (w.stored r.cell v).Shrinks w' ∧
      ∀ n, (w.stored r.cell v).Leads (.cell r.cell) n → w'.Alive n := by
  have hstored := (reachable_stored hm ho).balanced
  cases hp with
  | vacating hp =>
      obtain ⟨hs, held', hb⟩ := Balanced.passes hp hstored
      exact ⟨hs, fun n hn => hs.alive_of_leads (m := .cell r.cell) hb hb.live_written hn⟩
  | @finishing h w' hi hp =>
      obtain ⟨hs, held', hb⟩ := Balanced.passes hp (reachable_finished hm ho hi).balanced
      have hfirst : (w.stored r.cell v).Shrinks (w.vacated r.cell v) := hstored.shrinks_settle
      have hlast := (reachable_vacated hm ho).balanced.shrinks_finishWrite hi
      have hall := (hfirst.trans hlast).trans hs
      have hroot : w'.Live r.cell := hb.live (List.mem_append_right _ List.mem_cons_self)
      exact ⟨hall, fun n hn => hall.alive_of_leads (m := .cell r.cell) hb hroot hn⟩

/-- Once the handles have been placed, their entries are not on the root list. -/
theorem unlisted_of_shrinks (hm : Moment.Reachable ⟨w, .root r :: (v.holdings ++ held), none⟩)
    (ho : ownsAll r.cell.heap v = true) (hs : (w.stored r.cell v).Shrinks w')
    (hb : w'.Balanced (.root r :: held) none) {h' : Heap} (hi' : w'.heap? r.cell.heap = some h') :
    ∀ a ∈ v.anchors, a.ticket ∉ h'.roots.toList.map Prod.fst := by
  intro a ha
  have hbefore : w.Balanced (v.holdings ++ (.root r :: held)) none :=
    World.Balanced.perm hm.balanced List.perm_middle.symm
  obtain ⟨h, hi, -⟩ := hbefore.live (List.mem_append_right _ List.mem_cons_self)
  rw [stored_eq hi] at hs
  have hbound : w'.bound ⊆ w.bound := bound_subset fun e => hs.keeps (.scope e)
  have hhome : a.cell.heap = r.cell.heap := ownsAll_iff.mp ho a ha
  exact hbefore.unlisted hb hbound (List.mem_append_left _ (List.mem_map_of_mem ha)) (hhome ▸ hi')

/-- What putting the value `v` into the cell of `r` does, with `held` owned besides. It
succeeds and leaves the value in the cell, with no entry of its handles on the root list.
Neither storing the value nor removing the entries changes a count, and then each reference
of the old value is given up once, with exactly what is orphaned by that. Whatever the new
value leads to, the cell itself among it, is alive in every world that is passed. -/
structure Replaced (w : World) (r : Root) (v : Value Handle) (held : List Holding) : Prop where
  result : (w.set (some r) v).2 = .ok ()
  live : (w.set (some r) v).1.Live r.cell
  value : (w.set (some r) v).1.readCell r.cell = v.placed
  unlisted : ∀ h, (w.set (some r) v).1.heap? r.cell.heap = some h →
    ∀ a ∈ v.anchors, a.ticket ∉ h.roots.toList.map Prod.fst
  stored : ∀ h, w.heap? r.cell.heap = some h → ∀ d, (h.swap r.cell v).countOf d = h.countOf d
  unrooted : ∀ h, (w.vacated r.cell v).heap? r.cell.heap = some h →
    ∀ d, (h.unrootAll v.anchors).countOf d = h.countOf d
  released : ∀ h h', w.heap? r.cell.heap = some h →
    (w.vacated r.cell v).heap? r.cell.heap = some h' →
    (h' = h.swap r.cell v ∨ (h.read r.cell).targets = []) ∧
    ∃ freed,
      { h'.unrootAll v.anchors with deferred := [] }.start.Cascade (h'.finishWrite v.anchors)
        freed ∧
      IsLeast {S | h'.OrphanClosed ((r :: rootsIn r.cell.heap
        (heldRoots held ++ (w.vacated r.cell v).bound)).map Root.cell) S} {d | d ∈ freed} ∧
      ∀ d, (h'.finishWrite v.anchors).heap.countOf d + (h.read r.cell).targets.count d +
          (slotTargets (h'.cells.filter fun p => p.1 ∈ freed)).count d = h'.countOf d
  kept : ∀ w', w.Replacing r.cell v w' →
    ∀ n, (w.stored r.cell v).Leads (.cell r.cell) n → w'.Alive n
  ended : w.Replacing r.cell v (w.set (some r) v).1

theorem replaced (hm : Moment.Reachable ⟨w, .root r :: (v.holdings ++ held), none⟩)
    (ho : ownsAll r.cell.heap v = true) : w.Replaced r v held := by
  obtain ⟨h, hi, hlive⟩ := hm.balanced.live List.mem_cons_self
  have hvacated := reachable_vacated hm ho
  obtain ⟨h', hi'⟩ := hvacated.balanced.home r
    (List.mem_append_right _ (List.mem_singleton_self r))
  have hset : (w.set (some r) v).1 =
      ((w.vacated r.cell v).commit r.cell.heap (h'.finishWrite v.anchors)).1.settle
        (h'.finishWrite v.anchors).payloads := by
    rw [set_eq w ho]
    simp only [World.work, hi']
    rfl
  have hended : w.Replacing r.cell v (w.set (some r) v).1 :=
    hset ▸ .finishing hi' (passes_settle _ _)
  have hend : Moment.Reachable ⟨(w.set (some r) v).1, .root r :: held, none⟩ :=
    hset ▸ (reachable_finished hm ho hi').settle
  obtain ⟨hshrinks, hkept⟩ := alive_of_replacing hm ho hended
  have hlive' : (w.set (some r) v).1.Live r.cell := hkept _ .refl
  constructor
  case result => rw [set_eq w ho]
  case live => exact hlive'
  case value =>
    obtain ⟨k, hk, cell, hf⟩ := hlive'
    obtain ⟨k₀, cell₀, hk₀, hf₀, hv⟩ := hshrinks.cells _ _ _ hk hf
    rw [stored_eq hi, heap?_setHeap_self hi, Option.some.injEq] at hk₀
    subst hk₀
    rw [readCell, hk]
    simp only [Heap.read, hf, ← hv]
    exact Heap.read_of_find?_swap hf₀
  case unlisted => exact fun k hk => unlisted_of_shrinks hm ho hshrinks hend.balanced hk
  case stored => exact fun k _ d => k.countOf_swap r.cell v d
  case unrooted =>
    intro k _ d
    rw [Heap.countOf, Heap.find?_unrootAll, Heap.countOf]
  case released =>
    intro k k' hk hk'
    obtain ⟨hdeferred, hcases⟩ := deferred_vacated hm ho hk hk'
    have hbal := World.Balanced.heap hvacated.balanced _ k' hk'
    rw [writeIn_self { root := r, anchors := v.anchors }] at hbal
    obtain ⟨freed, hcascade, hleast, hcount⟩ := hbal.cascade_finishWrite
    exact ⟨hcases, freed, hcascade, hleast, hdeferred ▸ hcount⟩
  case kept => exact fun w' hp => (alive_of_replacing hm ho hp).2
  case ended => exact hended

/-- A closure is in two registers, and its environment binds the only handle to a cell. -/
def capturing : Session :=
  let code := Code.lambda { params := ["x"], rest := none, body := .lambda [] none (.var "x") }
  let ops : List Op :=
    [.newScope "e" none,
      .allocate (.closure code "e") false (some "f"),
      .dropScope "e",
      .call "f" [.fresh (.pair .null .null)] (some "a"),
      .clone "a" (some "b"),
      .allocate (.pair .null .null) false (some "c")]
  ops.foldl (fun s op => (s.performOp 1 op).1)
    (.new [.own { initialCapacity := 0, collectOnAllocate := false }])

theorem capturing_reachable : capturing.Reachable :=
  .foldl (.new _ _) 1 _

/-- The closure makes place for a pair that refers to itself. Its environment is destroyed,
and the drop of the variable frees a cell and starts a collection. -/
theorem replaced_closure :
    let r : Root := { cell := ⟨1, 2⟩, ticket := 2 }
    let v : Value Handle := .pair (some { cell := ⟨1, 2⟩, ticket := 3 })
      (some { cell := ⟨1, 3⟩, ticket := 4 })
    let held : List Holding := [.root { cell := ⟨1, 0⟩, ticket := 0 }]
    capturing.holdings = .root r :: (v.holdings ++ held) ∧ ownsAll r.cell.heap v = true ∧
      ((capturing.world.set (some r) v).1.heap? 1).map Heap.stats =
        some { counters := { allocations := 4, eagerFrees := 1, collections := 1 },
               liveObjects := 3, roots := 2, capacity := 4 } ∧
      capturing.world.Replaced r v held := by
  intro r v held
  have hheld : capturing.holdings = .root r :: (v.holdings ++ held) := by
    unfold r v held
    cbv
  have ho : ownsAll r.cell.heap v = true := by
    unfold r v
    cbv
  have hm : Moment.Reachable ⟨capturing.world, .root r :: (v.holdings ++ held), none⟩ :=
    hheld ▸ capturing_reachable.moment
  refine ⟨hheld, ho, ?_, replaced hm ho⟩
  unfold r v
  cbv

end Replacement

end World

end HybridHeap
