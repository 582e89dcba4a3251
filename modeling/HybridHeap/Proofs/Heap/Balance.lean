import HybridHeap.Proofs.Heap.Collect

/-!
The balance of a heap: what its counts and its root list have to do with the roots
that are owned outside it. Between operations each root owned is counted and has one
entry on the root list. While the value of a cell is being replaced, the entries of
the handles that went into the cell are still there, although the references count as
slots already; `Writing` is the record of such a replacement.
-/

namespace HybridHeap

/-- A cell whose value is being replaced: a root of the cell, and the roots of the
handles in its new value, which are still to be taken off the root list. -/
structure Writing where
  root : Root
  anchors : List Root

namespace Root

/-- The entry of a root on the root list. -/
def entry (r : Root) : Ticket × CellId :=
  (r.ticket, r.cell)

end Root

/-- The roots that are counted: those owned, and that of the cell being written. -/
def countedRoots (held : List Root) (write : Option Writing) : List Root :=
  held ++ write.toList.map Writing.root

/-- The roots that are on the root list. -/
def listedRoots (held : List Root) (write : Option Writing) : List Root :=
  held ++ write.toList.flatMap fun wr => wr.root :: wr.anchors

@[simp] theorem countedRoots_none (held : List Root) : countedRoots held none = held := by
  simp [countedRoots]

@[simp] theorem listedRoots_none (held : List Root) : listedRoots held none = held := by
  simp [listedRoots]

theorem mem_listedRoots_of_mem {held : List Root} {write : Option Writing} {r : Root}
    (h : r ∈ countedRoots held write) : r ∈ listedRoots held write := by
  rcases List.mem_append.mp h with h | h
  · exact List.mem_append_left _ h
  · obtain ⟨wr, hw, rfl⟩ := List.mem_map.mp h
    exact List.mem_append_right _ (List.mem_flatMap.mpr ⟨wr, hw, List.mem_cons_self⟩)

namespace Heap

/-- The root list is that of the roots owned, and the heap is at rest. -/
structure Listed (h : Heap) (held : List Root) (write : Option Writing) : Prop where
  sound : h.roots.Sound
  roots : h.roots.toList.Perm ((listedRoots held write).map Root.entry)
  tickets : ∀ p ∈ h.roots.toList, p.1 < h.nextTicket
  newestFirst : (h.roots.toList.map Prod.fst).Pairwise (· > ·)
  written : ∀ wr ∈ write, ∃ cell, h.find? wr.root.cell = some cell ∧
    cell.value.targets = wr.anchors.map Root.cell
  unmarked : h.Unmarked
  idle : h.phase = .idle
  faults : h.faults = []

/-- A heap in balance with the roots owned outside it. Only a write leaves references
in the queue. -/
structure Balanced (h : Heap) (held : List Root) (write : Option Writing) : Prop where
  counted : h.Counted ((countedRoots held write).map Root.cell ++ h.deferred)
  listed : h.Listed held write
  deferred : write = none → h.deferred = []

namespace Listed

variable {h : Heap} {held held' : List Root} {write : Option Writing} {r : Root}

theorem perm (hl : h.Listed held write) (hp : held.Perm held') : h.Listed held' write :=
  { hl with roots := hl.roots.trans ((hp.append_right _).map _) }

/-- Everything held is on the root list; what else is listed is in a slot of the cell
being written. -/
theorem rooted (hl : h.Listed held write) :
    h.Rooted ((countedRoots held write).map Root.cell) := by
  have hmem : ∀ c, c ∈ h.rootTargets ↔ ∃ r ∈ listedRoots held write, r.cell = c := by
    intro c
    rw [rootTargets, (hl.roots.map Prod.snd).mem_iff, List.map_map, List.mem_map]
    rfl
  constructor
  · intro c hc
    obtain ⟨r, hr, rfl⟩ := List.mem_map.mp hc
    exact (hmem _).mpr ⟨r, mem_listedRoots_of_mem hr, rfl⟩
  · intro c hc
    obtain ⟨r, hr, rfl⟩ := (hmem c).mp hc
    rcases List.mem_append.mp hr with hr | hr
    · exact .inl (List.mem_map_of_mem (List.mem_append_left _ hr))
    · obtain ⟨wr, hw, hr⟩ := List.mem_flatMap.mp hr
      have hroot : wr.root.cell ∈ (countedRoots held write).map Root.cell :=
        List.mem_map_of_mem (List.mem_append_right _ (List.mem_map_of_mem hw))
      rcases List.mem_cons.mp hr with rfl | hr
      · exact .inl hroot
      · obtain ⟨cell, hf, ht⟩ := hl.written wr (Option.mem_toList.mp hw)
        exact .inr ⟨wr.root.cell, hroot, cell, hf, ht ▸ List.mem_map_of_mem hr⟩

theorem mem_entries (hl : h.Listed held write) (hr : r ∈ listedRoots held write) :
    r.entry ∈ h.roots.toList :=
  hl.roots.mem_iff.mpr (List.mem_map_of_mem hr)

/-- No two roots have the same entry. -/
theorem nodup_tickets (hl : h.Listed held write) :
    ((listedRoots held write).map Root.ticket).Nodup := by
  have hperm := hl.roots.map Prod.fst
  rw [List.map_map] at hperm
  exact hperm.nodup_iff.mp hl.sound.nodup

/-- Taking the entry of an owned root off the list. -/
theorem unroot (hl : h.Listed (r :: held) write) :
    ∃ roots, h.unroot r = { h with roots } ∧ { h with roots }.Listed held write := by
  have hr : r.entry ∈ h.roots.toList := hl.mem_entries List.mem_cons_self
  obtain ⟨roots, he, hs, hroots⟩ := hl.sound.remove (k := r.ticket) (a := r.cell) hr
  refine ⟨roots, by simp only [Heap.unroot, he], ?_⟩
  have hperm : (r.entry :: roots.toList).Perm
      (r.entry :: (listedRoots held write).map Root.entry) :=
    (hroots ▸ (perm_cons_filter hl.sound.nodup hr).symm).trans hl.roots
  have hsub : roots.toList.Sublist h.roots.toList := hroots ▸ List.filter_sublist
  exact { hl with
    sound := hs
    roots := hperm.cons_inv
    tickets := fun p hp => hl.tickets p (hsub.mem hp)
    newestFirst := hl.newestFirst.sublist (hsub.map _) }

theorem unrootAll {rs : List Root} (hl : h.Listed (rs ++ held) write) :
    ∃ roots, h.unrootAll rs = { h with roots } ∧ { h with roots }.Listed held write := by
  induction rs generalizing h with
  | nil => exact ⟨h.roots, rfl, hl⟩
  | cons r rs ih =>
      obtain ⟨roots, he, hl'⟩ := hl.unroot
      obtain ⟨roots', he', hl''⟩ := ih hl'
      refine ⟨roots', ?_, hl''⟩
      rw [Heap.unrootAll, List.foldl_cons, he]
      exact he'

/-- A new entry in front of the list. -/
theorem pushRoot (hl : h.Listed held write) (c : CellId) :
    ∃ roots, h.roots.pushFront h.nextTicket c = .ok roots ∧
      { h with roots, nextTicket := h.nextTicket + 1 }.Listed
        ({ cell := c, ticket := h.nextTicket } :: held) write := by
  have hfresh : h.nextTicket ∉ h.roots.toList.map Prod.fst := by
    intro hm
    obtain ⟨p, hp, he⟩ := List.mem_map.mp hm
    exact Nat.ne_of_lt (hl.tickets p hp) he
  obtain ⟨roots, he, hs, hroots⟩ := hl.sound.pushFront hfresh c
  refine ⟨roots, he, { hl with sound := hs, roots := ?_, tickets := ?_, newestFirst := ?_ }⟩
  · rw [hroots]
    exact hl.roots.cons _
  · intro p hp
    rw [hroots] at hp
    rcases List.mem_cons.mp hp with rfl | hp
    · exact Nat.lt_succ_self _
    · exact Nat.lt_succ_of_lt (hl.tickets p hp)
  · rw [hroots, List.map_cons, List.pairwise_cons]
    refine ⟨fun t ht => ?_, hl.newestFirst⟩
    obtain ⟨p, hp, rfl⟩ := List.mem_map.mp ht
    exact hl.tickets p hp

/-- Changes to cells that keep the marks and the value of a cell being written do not
touch the root list. -/
theorem congr (hl : h.Listed held write) {objects : LinkedMap CellId Cell}
    (hu : ∀ p ∈ objects.toList, p.2.marked = false)
    (hw : ∀ wr ∈ write, ∃ cell, objects.find? wr.root.cell = some cell ∧
      cell.value.targets = wr.anchors.map Root.cell) :
    { h with objects }.Listed held write :=
  { hl with written := hw, unmarked := hu }

end Listed

namespace Balanced

variable {h : Heap} {held held' : List Root} {write : Option Writing} {r : Root}

theorem perm (hb : h.Balanced held write) (hp : held.Perm held') : h.Balanced held' write where
  counted := hb.counted.perm (((hp.append_right _).map _).append_right _)
  listed := hb.listed.perm hp
  deferred := hb.deferred

/-- A heap with an empty queue is ready to be collected. -/
theorem collectable {r : Reclamation} (hb : r.heap.Balanced held write)
    (hd : r.heap.deferred = []) :
    r.Collectable ((countedRoots held write).map Root.cell) where
  counted := by
    have := hb.counted
    rwa [hd, List.append_nil] at this
  rooted := hb.listed.rooted
  unmarked := hb.listed.unmarked
  idle := hb.listed.idle
  deferred := hd

theorem live (hb : h.Balanced held write) (hr : r ∈ held) : h.Live r.cell :=
  hb.counted.live_of_mem
    (List.mem_append_left _ (List.mem_map_of_mem (List.mem_append_left _ hr)))

end Balanced

/-- After cells were freed and nothing waits in the queue, a heap is in balance if its
counts are right. -/
theorem Listed.balanced_of_thins {r r' : Reclamation} {held : List Root}
    {write : Option Writing} (hl : r.heap.Listed held write) (ht : r.Thins r')
    {held₀ : List CellId} (hc : r.heap.Counted held₀)
    (hc' : r'.heap.Counted ((countedRoots held write).map Root.cell))
    (hd : r'.heap.deferred = []) : r'.heap.Balanced held write where
  counted := by rwa [hd, List.append_nil]
  listed :=
    { sound := ht.roots ▸ hl.sound
      roots := ht.roots ▸ hl.roots
      tickets := by
        rw [ht.roots, ht.nextTicket]
        exact hl.tickets
      newestFirst := ht.roots ▸ hl.newestFirst
      written := by
        intro wr hw
        obtain ⟨cell, hf, htargets⟩ := hl.written wr hw
        have hmem : wr.root.cell ∈ (countedRoots held write).map Root.cell :=
          List.mem_map_of_mem
            (List.mem_append_right _ (List.mem_map_of_mem (Option.mem_toList.mpr hw)))
        obtain ⟨cell', hf'⟩ := hc'.live_of_mem hmem
        obtain ⟨old, hold, hv, -⟩ := ht.find?_of_find? hc hc' hf'
        rw [hold, Option.some.injEq] at hf
        subst hf
        exact ⟨cell', hf', hv ▸ htargets⟩
      unmarked := ht.unmarked hl.unmarked
      idle := ht.phase.trans hl.idle
      faults := ht.faults.trans hl.faults }
  deferred _ := hd

/-- An empty heap is in balance with nothing. -/
theorem balanced_new (config : Config) : (new config).Balanced [] none where
  counted := ⟨LinkedMap.sound_empty, fun _ => rfl, fun _ _ hf => by cases hf⟩
  listed :=
    { sound := LinkedMap.sound_empty
      roots := .refl _
      tickets := fun _ hp => by cases hp
      newestFirst := .nil
      written := fun _ hw => by cases hw
      unmarked := fun _ hp => by cases hp
      idle := rfl
      faults := rfl }
  deferred _ := rfl

end Heap

end HybridHeap
