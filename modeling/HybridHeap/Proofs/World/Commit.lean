import HybridHeap.Proofs.World.Balance

/-!
The operations of a world on its heaps and environments, each up to the chores that it
leaves. What a heap frees is entered with the heap (`World.Balanced.commit`): the
closures among it give their shares to the chores.
-/

namespace HybridHeap

theorem closures_eq (h : Heap) :
    h.closures = (h.cells.map uncounted).filterMap fun p => p.2.value.env? := by
  rw [List.filterMap_map]
  rfl

theorem closures_congr {h h' : Heap} (he : h'.cells.map uncounted = h.cells.map uncounted) :
    h'.closures = h.closures := by
  rw [closures_eq, he, closures_eq]

theorem map_fst_congr {h h' : Heap} (he : h'.cells.map uncounted = h.cells.map uncounted) :
    h'.cells.map Prod.fst = h.cells.map Prod.fst := by
  have := congrArg (List.map Prod.fst) he
  rwa [List.map_map, List.map_map] at this

/-- A new value brings its share and displaces that of the old one. -/
theorem count_closures_setValue {h : Heap} (hs : h.objects.Sound) {c : CellId} {cell : Cell}
    (hf : h.find? c = some cell) (v : Value Slot) (e : EnvId) :
    (h.setValue c v).closures.count e + cell.value.env?.toList.count e =
      h.closures.count e + v.env?.toList.count e := by
  have hperm := perm_cons_filter hs.nodup (hs.find?_eq_some_iff.mp hf)
  have hset := Heap.cells_modifyCell_perm hs hf fun cell => { cell with value := v }
  rw [Heap.closures, Heap.setValue, (hset.filterMap _).count_eq, Heap.closures, Heap.cells,
    (hperm.filterMap _).count_eq, count_filterMap_cons, count_filterMap_cons]
  simp only
  omega

theorem map_fst_setValue {h : Heap} (hs : h.objects.Sound) (c : CellId) (v : Value Slot) :
    (h.setValue c v).cells.map Prod.fst = h.cells.map Prod.fst := by
  rw [Heap.setValue, Heap.cells_modifyCell hs, List.map_map]
  rfl

/-- The shares that a reclamation leaves to be let go of. -/
theorem heldShares_payloads (r : Reclamation) :
    heldShares (r.payloads.map Chore.holding) =
      r.graveyard.reverse.filterMap fun freed => freed.value.env? := by
  rw [Reclamation.payloads, List.map_map]
  exact heldShares_map_share _

theorem heldRoots_payloads (r : Reclamation) :
    heldRoots (r.payloads.map Chore.holding) = [] := by
  rw [Reclamation.payloads, List.map_map]
  exact heldRoots_map_share _

/-- Closures own shares until they are freed, and leave them in the graveyard. -/
theorem Reclamation.Thins.count_closures {r r' : Reclamation} (ht : r.Thins r')
    (hg : r.graveyard = []) (e : EnvId) :
    (heldShares (r'.payloads.map Chore.holding)).count e + r'.heap.closures.count e =
      r.heap.closures.count e := by
  have hpop : ∀ r : Reclamation, (r.population.filterMap fun freed => freed.value.env?) =
      r.heap.closures ++ r.graveyard.filterMap fun freed => freed.value.env? := by
    intro r
    rw [Reclamation.population, List.filterMap_append, List.filterMap_map, Heap.closures]
    congr 1
    refine congrFun (congrArg List.filterMap ?_) _
    ext1 p
    exact Value.env?_nulled p.2.value
  have hc := (ht.population.filterMap fun freed => freed.value.env?).count_eq e
  rw [hpop, hpop, hg, List.filterMap_nil, List.append_nil, List.count_append] at hc
  rw [heldShares_payloads, List.filterMap_reverse, List.count_reverse]
  omega

/-- The roots of a scope, that of one name in front. -/
theorem Environment.roots_perm_erase (env : Environment) (name : String) :
    env.roots.Perm (((env.bindings[name]?).getD none).toList ++
      (env.bindings.erase name).values.filterMap id) := by
  cases hn : env.bindings[name]? with
  | none =>
      rw [erase_eq_self hn]
      exact .refl _
  | some x =>
      exact ((values_perm_of_getElem? hn).filterMap id).trans (.of_eq (filterMap_id_cons _ _))

theorem Environment.roots_insert_perm (env : Environment) (name : String) (x : Handle) :
    ({ env with bindings := env.bindings.insert name x } : Environment).roots.Perm
      (x.toList ++ (env.bindings.erase name).values.filterMap id) :=
  ((values_insert_perm _ name x).filterMap id).trans (.of_eq (filterMap_id_cons _ _))

namespace World

variable {w : World} {held held' : List Holding} {write write' : Option Writing} {i : HeapId}
  {h : Heap}

theorem Balanced.heap_lt (hb : w.Balanced held write) (hi : w.heap? i = some h) {c : CellId}
    (hc : c ∈ h.cells.map Prod.fst) : c.heap = i ∧ c.number < w.nextCell := by
  obtain ⟨p, hp, rfl⟩ := List.mem_map.mp hc
  exact hb.cells i h hi p.1 ⟨p.2, (hb.heap i h hi).counted.find?_eq_some_iff.mpr hp⟩

/-- The heap of an owned root. -/
theorem Balanced.heap_of_root {r : Root} (hb : w.Balanced (.root r :: held) write)
    (hi : w.heap? r.cell.heap = some h) :
    h.Balanced (r :: rootsIn r.cell.heap (heldRoots held ++ w.bound))
      (writeIn r.cell.heap write) := by
  have hheap := hb.heap _ h hi
  rwa [heldRoots_root, List.cons_append, rootsIn_cons_self] at hheap

theorem ownsAll_iff {v : Value Handle} :
    ownsAll i v = true ↔ ∀ r ∈ v.anchors, r.cell.heap = i := by
  simp [ownsAll, List.all_eq_true]

/-- The heap of the handles in an owned value. -/
theorem Balanced.heap_of_value {v : Value Handle} (hb : w.Balanced (v.holdings ++ held) none)
    (hi : w.heap? i = some h) (ho : ownsAll i v = true) :
    h.Balanced (v.anchors ++ rootsIn i (heldRoots held ++ w.bound)) none := by
  have hheap := hb.heap i h hi
  rwa [heldRoots_append, heldRoots_value, List.append_assoc, rootsIn_append,
    rootsIn_eq_self (ownsAll_iff.mp ho)] at hheap

/-- Entering the outcome of a heap's work: the shares of freed closures are owned by
the chores that are left. -/
theorem Balanced.commit (hb : w.Balanced held write) (hi : w.heap? i = some h)
    {r₀ r : Reclamation} (ht : r₀.Thins r) (hg : r₀.graveyard = [])
    (hbal : r.heap.Balanced (rootsIn i (heldRoots held' ++ w.bound)) (writeIn i write'))
    (hrest : ∀ j, j ≠ i →
      (rootsIn j (heldRoots held)).Perm (rootsIn j (heldRoots held')) ∧
        writeIn j write = writeIn j write')
    (hshares : ∀ e, (heldShares held').count e + r₀.heap.closures.count e =
      (heldShares held).count e + h.closures.count e)
    (hcells : ∀ c ∈ r₀.heap.cells.map Prod.fst, c.heap = i ∧ c.number < w.nextCell) :
    (w.commit i r).1.Balanced (r.payloads.map Chore.holding ++ held') write' := by
  -- the payloads own shares of environments but no roots
  have hset : (w.setHeap i r.heap).Balanced (r.payloads.map Chore.holding ++ held') write' := by
    refine hb.setHeap hi ?_ ?_ (fun e => ?_) ?_
    · rw [heldRoots_append, heldRoots_payloads]
      exact hbal
    · rw [heldRoots_append, heldRoots_payloads]
      exact hrest
    · have h₁ := hshares e
      have h₂ := ht.count_closures hg e
      rw [heldShares_append, List.count_append]
      omega
    · rintro c ⟨cell, hf⟩
      refine hcells c (ht.map_fst_sublist.mem ?_)
      exact List.mem_map_of_mem (hbal.counted.find?_eq_some_iff.mp hf)
  exact ⟨hset.heap, hset.home, hset.cells, hset.scopes, hset.owners⟩

/-- What a heap was before its work is entered does not matter. -/
theorem commit_setHeap (w : World) (i : HeapId) (h : Heap) (rec : Reclamation) :
    (w.setHeap i h).commit i rec = w.commit i rec := by
  rw [commit, setHeap_setHeap]
  rfl

/-- Entering a heap that has given up an owned root, and may have been collected. -/
theorem Balanced.commit_unrooted {r : Root} {rec : Reclamation}
    (hb : w.Balanced (.root r :: held) write) (hi : w.heap? r.cell.heap = some h)
    (hbal : rec.heap.Balanced (rootsIn r.cell.heap (heldRoots held ++ w.bound))
      (writeIn r.cell.heap write))
    (ht : (h.unroot r).start.Thins rec) :
    (w.commit r.cell.heap rec).1.Balanced (rec.payloads.map Chore.holding ++ held) write := by
  refine hb.commit hi ht rfl hbal (fun j hj => ⟨?_, rfl⟩) (fun e => ?_) fun c hc => ?_
  · rw [heldRoots_root, rootsIn_cons_of_ne (Ne.symm hj)]
  · simp [Heap.start, Heap.closures, Heap.cells]
  · apply hb.heap_lt hi
    simpa [Heap.start, Heap.cells] using hc

theorem Balanced.dropAnchor {r : Root} (hb : w.Balanced (.root r :: held) write)
    (hi : w.heap? r.cell.heap = some h) :
    (w.commit r.cell.heap (h.dropAnchor r)).1.Balanced
      ((h.dropAnchor r).payloads.map Chore.holding ++ held) write := by
  obtain ⟨hbal, -, ht⟩ := (hb.heap_of_root hi).dropAnchor
  exact hb.commit_unrooted hi hbal ht

theorem Balanced.dropRoot {r : Root} (hb : w.Balanced (.root r :: held) write)
    (hi : w.heap? r.cell.heap = some h) :
    (w.commit r.cell.heap (h.dropRoot r)).1.Balanced
      ((h.dropRoot r).payloads.map Chore.holding ++ held) write := by
  obtain ⟨hbal, ht⟩ := (hb.heap_of_root hi).dropRoot
  exact hb.commit_unrooted hi hbal ht

theorem Balanced.leave {e : EnvId} (hb : w.Balanced (.share e :: held) write) :
    (w.leave e).1.Balanced ((w.leave e).2.map Chore.holding ++ held) write := by
  obtain ⟨env, he⟩ := hb.env_of_share List.mem_cons_self
  simp only [World.leave, he]
  split
  · rename_i hlast
    exact hb.eraseEnv he hlast
  · rename_i hlast
    simp only [modifyEnv, modify_eq_insert he]
    refine hb.setEnv he rfl ?_ (.refl _) ?_ fun d hd => ?_
    · simp only
      omega
    · rw [heldShares_share, List.count_cons_self]
      simp only [List.map_nil, List.nil_append]
      omega
    · rw [heldShares_share, List.count_cons_of_ne (Ne.symm hd)]
      rfl

/-- A chore can be done at any time. -/
theorem Balanced.doChore {c : Chore} (hb : w.Balanced (c.holding :: held) write) :
    (w.doChore c).1.Balanced ((w.doChore c).2.map Chore.holding ++ held) write := by
  cases c with
  | dropRoot r =>
      obtain ⟨h, hi, -⟩ := hb.live List.mem_cons_self
      simp only [World.doChore, reclaim, hi]
      exact hb.dropRoot hi
  | dropAnchor r =>
      obtain ⟨h, hi, -⟩ := hb.live List.mem_cons_self
      simp only [World.doChore, reclaim, hi]
      exact hb.dropAnchor hi
  | leave e => exact hb.leave

/-- Chores can be done with everything that they give rise to. -/
theorem Balanced.settle {chores : List Chore}
    (hb : w.Balanced (chores.map Chore.holding ++ held) write) :
    (w.settle chores).Balanced held write := by
  fun_induction World.settle w chores with
  | case1 w => exact hb
  | case2 w c rest ih =>
      apply ih
      rw [List.map_append, List.append_assoc]
      exact hb.doChore

/-- A new root of a live cell. -/
theorem Balanced.register {c : CellId} (hb : w.Balanced held none)
    (hi : w.heap? c.heap = some h) (hl : h.Live c) :
    (w.setHeap c.heap (h.register c).1).Balanced (.root (h.register c).2 :: held) none := by
  obtain ⟨hcell, hbal, hcells, -⟩ := (hb.heap _ h hi).register hl
  have hheap : (h.register c).2.cell.heap = c.heap := by rw [hcell]
  refine hb.setHeap hi ?_ (fun j hj => ⟨?_, rfl⟩) (fun e => ?_) fun d hd => ?_
  · rw [heldRoots_root, List.cons_append, ← hheap, rootsIn_cons_self, hheap]
    exact hbal
  · rw [heldRoots_root, rootsIn_cons_of_ne (hheap ▸ Ne.symm hj)]
  · rw [heldShares_root, closures_congr hcells]
  · apply hb.heap_lt hi
    obtain ⟨cell, hf⟩ := hd
    rw [← map_fst_congr hcells]
    exact List.mem_map_of_mem (hbal.counted.find?_eq_some_iff.mp hf)

/-- Numbers may be left out. -/
theorem Balanced.skipNumber (hb : w.Balanced held write) :
    { w with nextCell := w.nextCell + 1 }.Balanced held write where
  heap := hb.heap
  home := hb.home
  cells i h hi c hc := ⟨(hb.cells i h hi c hc).1, Nat.lt_succ_of_lt (hb.cells i h hi c hc).2⟩
  scopes := hb.scopes
  owners := hb.owners

/-- No live cell has the next number. -/
theorem Balanced.not_live_next (hb : w.Balanced held write) (hi : w.heap? i = some h) :
    ¬h.Live { heap := i, number := w.nextCell } :=
  fun hl => Nat.lt_irrefl _ (hb.cells i h hi _ hl).2

/-- A value goes into a new cell, and what it owned is owned by the cell. The heap may have
freed some cells since. -/
theorem Balanced.commit_placed {v : Value Handle} (hb : w.Balanced (v.holdings ++ held) none)
    (hi : w.heap? i = some h) (ho : ownsAll i v = true) {c : CellId}
    (hc : c = { heap := i, number := w.nextCell }) {rec : Reclamation}
    (hbal : rec.heap.Balanced
      ((h.placeOnly c v).1 :: rootsIn i (heldRoots held ++ w.bound)) none)
    (ht : (h.placeOnly c v).2.start.Thins rec) :
    ({ w with nextCell := w.nextCell + 1 }.commit i rec).1.Balanced
      (rec.payloads.map Chore.holding ++ (Holding.root (h.placeOnly c v).1 :: held)) none := by
  have hheap := hb.heap_of_value hi ho
  rw [ownsAll_iff] at ho
  have hlive : ¬h.Live c := hc ▸ hb.not_live_next hi
  obtain ⟨hroot, -, -, hcells⟩ := hheap.placeOnly hlive
  have hroot' : (h.placeOnly c v).1.cell.heap = i := by
    rw [hroot, hc]
  refine hb.skipNumber.commit hi ht rfl ?_ (fun j hj => ⟨?_, rfl⟩) (fun e => ?_) fun d hd => ?_
  · rw [heldRoots_root, List.cons_append, ← hroot', rootsIn_cons_self, hroot']
    exact hbal
  · rw [heldRoots_root, rootsIn_cons_of_ne (hroot' ▸ Ne.symm hj), heldRoots_append,
      heldRoots_value, rootsIn_append, rootsIn_eq_nil ho hj]
    exact .refl _
  · show _ + (h.placeOnly c v).2.closures.count e = _
    rw [Heap.closures, hcells, count_filterMap_cons, Value.env?_placed, heldShares_append,
      heldShares_value, heldShares_root, List.count_append, Heap.closures]
    omega
  · change d ∈ (h.placeOnly c v).2.cells.map Prod.fst at hd
    rw [hcells, List.map_cons] at hd
    rcases List.mem_cons.mp hd with rfl | hd
    · rw [hc]
      exact ⟨rfl, Nat.lt_succ_self _⟩
    · obtain ⟨h₁, h₂⟩ := hb.heap_lt hi hd
      exact ⟨h₁, Nat.lt_succ_of_lt h₂⟩

theorem Balanced.place {v : Value Handle} (hb : w.Balanced (v.holdings ++ held) none)
    (hi : w.heap? i = some h) (ho : ownsAll i v = true) {c : CellId}
    (hc : c = { heap := i, number := w.nextCell }) :
    ({ w with nextCell := w.nextCell + 1 }.commit i (h.place c v).2).1.Balanced
      ((h.place c v).2.payloads.map Chore.holding ++ (Holding.root (h.place c v).1 :: held))
      none := by
  obtain ⟨hbal, ht⟩ := (hb.heap_of_value hi ho).place (hc ▸ hb.not_live_next hi)
  exact hb.commit_placed hi ho hc hbal ht

theorem Balanced.collectNow (hb : w.Balanced held none) (hi : w.heap? i = some h) :
    (w.commit i h.collectNow).1.Balanced (h.collectNow.payloads.map Chore.holding ++ held)
      none := by
  obtain ⟨hbal, ht⟩ := (hb.heap i h hi).collectNow
  exact hb.commit hi ht rfl hbal (fun j hj => ⟨.refl _, rfl⟩) (fun e => rfl) fun c hc =>
    hb.heap_lt hi hc

section Writers

variable {r : Root}

/-- The start of a replacement: what the new value owned and the root of the cell are
kept by the write, and the displaced closure's share is to be let go of. -/
theorem Balanced.swap {v : Value Handle}
    (hb : w.Balanced (.root r :: (v.holdings ++ held)) none) (hi : w.heap? r.cell.heap = some h)
    (ho : ownsAll r.cell.heap v = true) :
    (w.setHeap r.cell.heap (h.swap r.cell v)).Balanced
      ((h.read r.cell).env?.toList.map .share ++ held)
      (some { root := r, anchors := v.anchors }) := by
  rw [ownsAll_iff] at ho
  have hheap := hb.heap_of_root hi
  rw [heldRoots_append, heldRoots_value, List.append_assoc, rootsIn_append,
    rootsIn_eq_self ho] at hheap
  obtain ⟨hbal, cell, hf, hcells⟩ := hheap.swap
  have hread : h.read r.cell = cell.value := by
    simp [Heap.read, hf]
  have hsound := hheap.counted.sound
  refine hb.setHeap hi ?_ (fun j hj => ⟨?_, ?_⟩) (fun e => ?_) fun c hc => ?_
  · rw [heldRoots_append, heldRoots_map_share, List.nil_append,
      writeIn_self { root := r, anchors := v.anchors }]
    exact hbal
  · rw [heldRoots_root, rootsIn_cons_of_ne (Ne.symm hj), heldRoots_append, heldRoots_append,
      heldRoots_value, heldRoots_map_share, List.nil_append, rootsIn_append, rootsIn_eq_nil ho hj]
    exact .refl _
  · rw [writeIn_none, writeIn_of_ne { root := r, anchors := v.anchors } (Ne.symm hj)]
  · have hcount := count_closures_setValue hsound hf v.placed e
    rw [Heap.closures, hcells, ← Heap.closures, hread]
    rw [Value.env?_placed] at hcount
    rw [heldShares_append, heldShares_root, heldShares_append, heldShares_value,
      heldShares_map_share, List.count_append, List.count_append]
    omega
  · apply hb.heap_lt hi
    obtain ⟨cell', hf'⟩ := hc
    have hmem := List.mem_map_of_mem (f := Prod.fst) (hbal.counted.find?_eq_some_iff.mp hf')
    rwa [hcells, map_fst_setValue hsound] at hmem

/-- The end of a write: the root of the cell is given back. -/
theorem Balanced.finishWrite {wr : Writing} (hb : w.Balanced held (some wr))
    (hi : w.heap? wr.root.cell.heap = some h) :
    (w.commit wr.root.cell.heap (h.finishWrite wr.anchors)).1.Balanced
      ((h.finishWrite wr.anchors).payloads.map Chore.holding ++ (.root wr.root :: held)) none := by
  have hheap := hb.heap _ h hi
  rw [writeIn_self] at hheap
  obtain ⟨hbal, ht⟩ := hheap.finishWrite
  refine hb.commit hi ht rfl ?_ (fun j hj => ⟨?_, ?_⟩) (fun e => ?_) fun c hc => ?_
  · rw [heldRoots_root, List.cons_append, rootsIn_cons_self]
    exact hbal
  · rw [heldRoots_root, rootsIn_cons_of_ne (Ne.symm hj)]
  · rw [writeIn_none, writeIn_of_ne wr (Ne.symm hj)]
  · simp [Heap.start, Heap.closures, Heap.cells]
  · apply hb.heap_lt hi
    simpa [Heap.start, Heap.cells] using hc

/-- A writer that changes references of a cell but not its environment. -/
theorem Balanced.rewrite {c : CellId} {cell : Cell} (hb : w.Balanced held none)
    (hi : w.heap? c.heap = some h) (hf : h.find? c = some cell) {t : Slot}
    (ht : ∀ d ∈ t, h.Live d) {v : Value Slot} (he : v.env? = cell.value.env?)
    {displaced : List CellId}
    (hn : ∀ d, displaced.count d + v.targets.count d =
      t.toList.count d + cell.value.targets.count d)
    {rec : Reclamation}
    (hr : rec = (((h.retainSlot t).setValue c v).defer displaced).finishWrite []) :
    (w.commit c.heap rec).1.Balanced (rec.payloads.map Chore.holding ++ held) none := by
  obtain ⟨hbal, hthin, hcells, -⟩ := (hb.heap _ h hi).rewrite hf ht hn
  have hsound := (hb.heap _ h hi).counted.sound
  rw [← hr] at hbal hthin
  refine hb.commit hi hthin rfl hbal (fun j hj => ⟨.refl _, rfl⟩) (fun e => ?_) fun d hd => ?_
  · have hcount := count_closures_setValue hsound hf v e
    rw [he] at hcount
    show _ + (((h.retainSlot t).setValue c v).defer displaced).closures.count e = _
    rw [closures_congr hcells]
    omega
  · apply hb.heap_lt hi
    change d ∈ (((h.retainSlot t).setValue c v).defer displaced).cells.map Prod.fst at hd
    rwa [map_fst_congr hcells, map_fst_setValue hsound] at hd

theorem Balanced.writeSlot {c : CellId} {t : Slot} {p : Position} {rec : Reclamation}
    (hb : w.Balanced held none) (hi : w.heap? c.heap = some h) (hc : h.Live c)
    (ht : ∀ d ∈ t, h.Live d) (hw : h.write c p t = .ok rec) :
    (w.commit c.heap rec).1.Balanced (rec.payloads.map Chore.holding ++ held) none := by
  obtain ⟨cell, hf⟩ := hc
  obtain ⟨displaced, hg, hr⟩ := Heap.write_eq_ok hf hw
  exact hb.rewrite hi hf ht (Value.env?_replace _ p t) (Heap.count_targets_replace hg t) hr

theorem Balanced.append {c : CellId} {t : Slot} {rec : Reclamation}
    (hb : w.Balanced held none) (hi : w.heap? c.heap = some h) (hc : h.Live c)
    (ht : ∀ d ∈ t, h.Live d) (hw : h.append c t = .ok rec) :
    (w.commit c.heap rec).1.Balanced (rec.payloads.map Chore.holding ++ held) none := by
  obtain ⟨cell, hf⟩ := hc
  obtain ⟨v, hg, hr⟩ := Heap.append_eq_ok hf hw
  refine hb.rewrite hi hf ht (Value.append_eq_ok hg).2 (fun d => ?_) hr
  rw [List.count_nil, Nat.zero_add]
  exact Heap.count_targets_append hg d

end Writers

section Scopes

variable {e : EnvId} {env : Environment}

theorem Balanced.shareEnv (hb : w.Balanced held none) (he : w.envs[e]? = some env) :
    (w.shareEnv e).Balanced (.share e :: held) none := by
  simp only [World.shareEnv, modifyEnv, modify_eq_insert he]
  refine hb.setEnv he rfl (Nat.succ_pos _) (.refl _) ?_ fun d hd => ?_
  · rw [heldShares_share, List.count_cons_self]
    simp only
    omega
  · rw [heldShares_share, List.count_cons_of_ne (Ne.symm hd)]

theorem Balanced.envs_next (hb : w.Balanced held write) : w.envs[w.nextEnv]? = none := by
  cases he : w.envs[w.nextEnv]? with
  | none => rfl
  | some env => exact absurd (hb.scopes _ env he).1 (Nat.lt_irrefl _)

/-- A new scope shares its parent and is owned once. -/
theorem Balanced.newEnv (hb : w.Balanced held none) {parent : Option EnvId}
    (hp : ∀ p ∈ parent, ∃ env, w.envs[p]? = some env) :
    (w.newEnv parent).1.Balanced (.share w.nextEnv :: held) none := by
  have hempty : ({ parent, bindings := ∅, owners := 1 } : Environment).roots = [] := rfl
  cases parent with
  | none =>
      refine hb.insertEnv { parent := none, bindings := ∅, owners := 1 } hb.envs_next rfl
        (fun p hp => by cases hp) ?_
      rw [hempty]
      exact .refl _
  | some p =>
      obtain ⟨env, he⟩ := hp p rfl
      have hshared := hb.shareEnv he
      refine hshared.insertEnv { parent := some p, bindings := ∅, owners := 1 }
        hshared.envs_next rfl (fun q hq => ?_) ?_
      · cases hq
        exact (hb.scopes p env he).1
      · rw [hempty]
        exact .refl _

/-- A binding takes over the root of its handle, and the root of the handle that was
bound before is given back. -/
theorem Balanced.rebind {name : String} {h : Handle} (hb : w.Balanced (h.holdings ++ held) none)
    (he : w.envs[e]? = some env) :
    (w.rebind e name h).1.Balanced ((w.rebind e name h).2.holdings ++ held) none := by
  have hnew := env.roots_insert_perm name h
  have hold := env.roots_perm_erase name
  have hprevious : w.localBinding? e name = env.bindings[name]? := by
    simp [localBinding?, he]
  simp only [World.rebind, modifyEnv, modify_eq_insert he, hprevious]
  refine hb.setEnv he rfl (hb.scopes e env he).2.2 ?_ ?_ fun d hd => ?_
  · rw [heldRoots_append, heldRoots_append, heldRoots_holdings, heldRoots_holdings,
      ← List.append_assoc, ← List.append_assoc]
    refine List.Perm.append_right _ ?_
    refine (hold.append_right _).trans (List.Perm.trans ?_ (hnew.append_right _).symm)
    rw [List.append_assoc]
    exact List.perm_append_comm.trans (List.perm_append_comm.append_right _)
  · rw [heldShares_append, heldShares_append, heldShares_holdings, heldShares_holdings]
  · rw [heldShares_append, heldShares_append, heldShares_holdings, heldShares_holdings]

end Scopes

end World

end HybridHeap
