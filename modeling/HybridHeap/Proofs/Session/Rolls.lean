import HybridHeap.Proofs.Session.Destroyed
import HybridHeap.Proofs.Session.Order
import HybridHeap.Proofs.World.Rolls

/-!
What the lists of a heap show after every operation of a script: each cell that was allocated and
is not freed, and each root that was registered and is not removed, once and the newest first.
A handle that is moved, and a handle that goes into a value kept off the heaps, has the entry
that it had, in its place among the others.
-/

namespace HybridHeap

namespace Session

variable {s s' : Session} {i : HeapId} {h h' : Heap}

/-- The cells that are listed, the newest first. -/
def listedCells (s : Session) (i : HeapId) : List CellId :=
  (s.objects i).map CellInfo.cell

theorem listedCells_eq (s : Session) (i : HeapId) : s.listedCells i = s.world.idsOf i := by
  unfold listedCells objects World.idsOf
  cases s.world.heap? i with
  | none => rfl
  | some h => exact List.map_map

theorem roots_eq (hi : s.world.heap? i = some h) : s.roots i = h.roots.toList.map Prod.snd := by
  simp only [Session.roots, hi]

theorem Reachable.listed (hs : s.Reachable) (hi : s.world.heap? i = some h) :
    h.Listed (rootsIn i (heldRoots s.holdings ++ s.world.bound)) none :=
  (hs.moment.balanced.heap i h hi).listed

theorem Reachable.cells_newestFirst (hs : s.Reachable) (i : HeapId) :
    ((s.listedCells i).map CellId.number).Pairwise (· > ·) := by
  obtain ⟨l, hl⟩ := hs.moment.run i
  rw [listedCells_eq]
  exact hl.ordered.listed

section Later

/-- Whatever a script does, no root that was not there comes onto a list but new ones. -/
theorem Leads.enlists (hl : s.Leads s') :
    World.HeapsTurn (fun h h' => ∃ n, h.Enlists n h') s.world s'.world :=
  hl.lift (R := World.HeapsTurn fun h h' => ∃ n, h.Enlists n h') World.enlists_trans
    World.Moves.enlists fun _ => .of_heaps (fun h => ⟨0, .refl h⟩) rfl

/-- After a script has gone on, the cells that are still there are listed as they were, behind
those that were allocated since. -/
theorem Leads.cells_kept (hl : s.Leads s') (hs : s.Reachable) (hi : s.world.heap? i = some h) :
    s'.listedCells i = (s'.listedCells i).filter (fun c => s.world.nextCell ≤ c.number) ++
      (s.listedCells i).filter (· ∈ s'.listedCells i) := by
  have hs' := hl.reachable hs
  obtain ⟨h', hi', -⟩ := hl.enlists.exists_of_some hi
  refine eq_newer_append (hs.cells_newestFirst i) (hs'.cells_newestFirst i) ?_ ?_
  · intro c hc
    obtain ⟨l, hrun⟩ := hs.moment.run i
    exact hrun.settled.lt_nextCell (listedCells_eq s i ▸ hc)
  · intro c hc hlt
    rw [listedCells_eq, World.mem_idsOf hs'.moment.balanced hi'] at hc
    rw [listedCells_eq, World.mem_idsOf hs.moment.balanced hi]
    obtain ⟨k, hk, hprec⟩ := hl.precedes.heaps i h' hi'
    cases hi.symm.trans hk
    exact (hprec.live c hc).resolve_right (Nat.not_le_of_lt hlt)

/-- The roots that are still there are listed as they were, behind those that were registered
since. -/
theorem Leads.roots_kept (hl : s.Leads s') (hs : s.Reachable) (hi : s.world.heap? i = some h)
    (hi' : s'.world.heap? i = some h') :
    h'.roots.toList = h'.roots.toList.filter (fun p => h.nextTicket ≤ p.1) ++
      h.roots.toList.filter (· ∈ h'.roots.toList) := by
  have hs' := hl.reachable hs
  obtain ⟨k, hk, n, he⟩ := hl.enlists.exists_of_some hi
  cases hi'.symm.trans hk
  exact eq_newer_append (hs.listed hi).newestFirst (hs'.listed hi').newestFirst
    (hs.listed hi).tickets fun _ => he.mem_of_lt (hs.listed hi).sound (hs'.listed hi').sound

end Later

section Places

/-- Nothing was registered between two sessions, and the entries of the given handles are left,
each in its place among those that are left. -/
def KeepsPlaces (s s' : Session) (xs : List Handle) : Prop :=
  ∀ i h h', s.world.heap? i = some h → s'.world.heap? i = some h' →
    h'.nextTicket = h.nextTicket ∧ h'.roots.toList.Sublist h.roots.toList ∧
      ∀ r, some r ∈ xs → r.cell.heap = i → r.entry ∈ h'.roots.toList

/-- While roots are dropped only, what is still owned keeps its place. -/
theorem Reachable.keepsPlaces (hs : s.Reachable) (hs' : s'.Reachable) {xs : List Handle}
    (hw : World.HeapsTurn (Heap.Enlists 0) s.world s'.world)
    (hx : ∀ r, some r ∈ xs → r ∈ s'.owners) : s.KeepsPlaces s' xs := by
  intro i h h' hi hi'
  obtain ⟨k, hk, he⟩ := hw.exists_of_some hi
  cases hi'.symm.trans hk
  have hissued : h'.nextTicket = h.nextTicket := he.issued
  refine ⟨hissued, ?_, fun r hr hhome => ?_⟩
  · refine sublist_of_newestFirst (hs'.listed hi').newestFirst (hs.listed hi).newestFirst ?_
    intro p hp
    exact he.mem_of_lt (hs.listed hi).sound (hs'.listed hi').sound hp
      (hissued ▸ (hs'.listed hi').tickets p hp)
  · rw [((accounts_exact hs').roots i h' hi').1.mem_iff]
    exact List.mem_map_of_mem (List.mem_filter.mpr ⟨hx r hr, decide_eq_true hhome⟩)

theorem mem_owners_of_register {name : String} {r : Root}
    (hr : s.registers[name]? = some (some r)) : r ∈ s.owners :=
  List.mem_filterMap.mpr ⟨some r, List.mem_append_left _ (List.mem_append_left _
    (mem_values_iff.mpr ⟨name, hr⟩)), rfl⟩

theorem mem_owners_of_kept {name : String} {v : Value Handle} {r : Root}
    (hv : s.held[name]? = some v) (hr : some r ∈ v.children) : r ∈ s.owners :=
  List.mem_filterMap.mpr ⟨some r, List.mem_append_right _
    (List.mem_flatMap.mpr ⟨v, mem_values_iff.mpr ⟨name, hv⟩, hr⟩), rfl⟩

/-- A handle that is moved from one register to another keeps its place. -/
theorem Reachable.moved (hs : s.Reachable) (j : HeapId) (a b : String) :
    (s.performOp j (.move a (some b))).1.handle b = s.handle a ∧
      s.KeepsPlaces (s.performOp j (.move a (some b))).1 [s.handle a] := by
  have hregister : (s.performOp j (.move a (some b))).1.registers[b]? = some (s.handle a) :=
    Std.ExtTreeMap.getElem?_insert_self
  refine ⟨by rw [handle, hregister]; rfl, ?_⟩
  refine hs.keepsPlaces (hs.op j _) (World.enlists_settle _ _) fun r hr => ?_
  rw [List.mem_singleton] at hr
  exact mem_owners_of_register (hregister.trans (congrArg some hr.symm))

/-- Handles that are moved out of different registers are those that were in them. -/
theorem resolveAll_move (s : Session) (i : HeapId) (done : List Handle) (names : List String)
    (hnames : names.Nodup) :
    s.resolveAll i done (names.map .move) =
      (s.withoutAll (names.map .handle), .ok (done.reverse ++ names.map s.handle)) := by
  induction names generalizing s done with
  | nil => simp [resolveAll, withoutAll]
  | cons name names ih =>
      obtain ⟨hname, hnames⟩ := List.nodup_cons.mp hnames
      have hrest : names.map (s.without (.handle name)).handle = names.map s.handle := by
        refine List.map_congr_left fun other hother => ?_
        have hne : name ≠ other := fun he => hname (he ▸ hother)
        simp [handle, without, Std.ExtTreeMap.getElem?_erase, hne]
      have hothers := ih (s.without (.handle name)) (s.handle name :: done) hnames
      rw [hrest, List.reverse_cons, List.append_assoc] at hothers
      rw [List.map_cons, resolveAll, resolve]
      exact hothers

/-- Handles that go into a value kept off the heaps keep their places. -/
theorem Reachable.anchored (hs : s.Reachable) (j : HeapId) (name : String) (as : List String)
    (has : as.Nodup) :
    (s.performOp j (.hold name (.vector (as.map .move)))).1.held[name]? =
        some (.vector (as.map s.handle).toArray) ∧
      s.KeepsPlaces (s.performOp j (.hold name (.vector (as.map .move)))).1 (as.map s.handle) := by
  have hop : (s.performOp j (.hold name (.vector (as.map .move)))).1 =
      (s.withoutAll (as.map .handle)).keep name (.vector (as.map s.handle).toArray) := by
    simp only [performOp, withDraft, build, resolveAll_move s j [] as has]
    rfl
  have hheld : (s.performOp j (.hold name (.vector (as.map .move)))).1.held[name]? =
      some (.vector (as.map s.handle).toArray) := by
    rw [hop, keep]
    split <;> exact Std.ExtTreeMap.getElem?_insert_self
  refine ⟨hheld, hs.keepsPlaces (hs.op j _) ?_ fun r hr => ?_⟩
  · rw [hop, keep, ← world_withoutAll s (as.map .handle)]
    split
    · exact .of_heaps Heap.Enlists.refl rfl
    · exact World.enlists_settle _ _
  · exact mem_owners_of_kept hheld (by simpa [Value.children] using hr)

end Places

/-- The lists of the heap `i`, which is `h`, are exact. They are linked as they read. The cells
that `objects` shows are the live ones: in the order of their placing those that any run up to
here has placed, as many as the counters say, without those that are gone. The root list has the
entries of the roots that are owned: in the order of their registration those that were
registered, one for each ticket, without those that were removed; and `roots` shows their cells.
The statistics have the two lengths. What stays on a list while the script goes on stays in its
order behind what is new, and a handle that is moved or anchored has the root that it had, with
its entry in its place. -/
structure ListsExact (s : Session) (i : HeapId) (h : Heap) : Prop where
  linked : h.objects.Sound ∧ h.roots.Sound
  live : ∀ c, c ∈ s.listedCells i ↔ h.Live c
  cellOrder : ((s.listedCells i).map CellId.number).Pairwise (· > ·)
  placed : ∀ l, Moment.Run i ⟨s.world, s.holdings, none⟩ l →
    (l.placed.map CellId.number).Pairwise (· > ·) ∧
      s.listedCells i = l.placed.filter (· ∉ l.gone) ∧
        h.counters.allocations = l.placed.length ∧
          h.counters.eagerFrees + h.counters.swept = l.gone.length
  shown : s.roots i = h.roots.toList.map Prod.snd
  owned : h.roots.toList.Perm ((rootsIn i s.owners).map Root.entry)
  rootOrder : (h.roots.toList.map Prod.fst).Pairwise (· > ·)
  registered : ∀ l, Moment.Enrols i ⟨s.world, s.holdings, none⟩ l →
    l.registered.map Root.ticket = (List.range h.nextTicket).reverse ∧
      h.roots.toList = (l.registered.filter (· ∉ l.removed)).map Root.entry
  recorded : (∃ l, Moment.Run i ⟨s.world, s.holdings, none⟩ l) ∧
    ∃ l, Moment.Enrols i ⟨s.world, s.holdings, none⟩ l
  lengths : h.stats.liveObjects = (s.objects i).length ∧ h.stats.roots = (s.roots i).length
  cellsKept : ∀ s', s.Leads s' →
    s'.listedCells i = (s'.listedCells i).filter (fun c => s.world.nextCell ≤ c.number) ++
      (s.listedCells i).filter (· ∈ s'.listedCells i)
  rootsKept : ∀ s' h', s.Leads s' → s'.world.heap? i = some h' →
    h'.roots.toList = h'.roots.toList.filter (fun p => h.nextTicket ≤ p.1) ++
      h.roots.toList.filter (· ∈ h'.roots.toList)
  moved : ∀ j a b, (s.performOp j (.move a (some b))).1.handle b = s.handle a ∧
    s.KeepsPlaces (s.performOp j (.move a (some b))).1 [s.handle a]
  anchored : ∀ j name (as : List String), as.Nodup →
    (s.performOp j (.hold name (.vector (as.map .move)))).1.held[name]? =
        some (.vector (as.map s.handle).toArray) ∧
      s.KeepsPlaces (s.performOp j (.hold name (.vector (as.map .move)))).1 (as.map s.handle)

theorem lists_exact (hs : s.Reachable) (hi : s.world.heap? i = some h) : s.ListsExact i h := by
  have hb : s.world.Balanced s.holdings none := hs.moment.balanced
  have hobjects := (hb.heap i h hi).counted.sound
  have hroots := (hs.listed hi).sound
  constructor
  case linked => exact ⟨hobjects, hroots⟩
  case live =>
    intro c
    rw [listedCells_eq]
    exact World.mem_idsOf hb hi
  case cellOrder => exact hs.cells_newestFirst i
  case placed =>
    intro l hl
    have hcounters := World.countersOf_of_heap? hi
    rw [listedCells_eq, Ledger.gone, List.length_append, ← hl.settled.eagerFrees,
      ← hl.settled.swept, ← hl.settled.allocations]
    exact ⟨hl.ordered.placed, hl.idsOf_eq, by rw [hcounters], by rw [hcounters]⟩
  case shown => exact roots_eq hi
  case owned => exact ((accounts_exact hs).roots i h hi).1
  case rootOrder => exact (hs.listed hi).newestFirst
  case registered => exact fun l hl => ⟨hl.settled.tickets h hi, hl.roots_eq hi⟩
  case recorded => exact ⟨hs.moment.run i, hs.moment.enrols i⟩
  case lengths =>
    constructor
    · have hlength : (s.objects i).length = (s.world.idsOf i).length := by
        rw [← listedCells_eq, listedCells, List.length_map]
      rw [hlength, World.idsOf_of_heap? hi, List.length_map]
      exact hobjects.length_eq
    · rw [roots_eq hi, List.length_map]
      exact hroots.length_eq
  case cellsKept => exact fun s' hl => hl.cells_kept hs hi
  case rootsKept => exact fun s' h' hl hi' => hl.roots_kept hs hi hi'
  case moved => exact hs.moved
  case anchored => exact hs.anchored

/-- Cells and roots go from the front, from the back and in between, two loops in one sweep; a
handle is moved, and another one is kept in a value. -/
def interleaved : Session :=
  ([.allocate (.scalar (.boolean true)) false (some "last"),
    .allocate (.pair .null .null) false (some "x"), .write "x" .first "x",
    .allocate (.scalar (.boolean true)) false (some "between"),
    .allocate (.pair .null .null) false (some "y"), .write "y" .first "y",
    .allocate (.scalar (.boolean true)) false (some "kept"),
    .allocate (.scalar (.boolean true)) false (some "first"),
    .drop "first", .drop "x", .drop "y", .drop "last",
    .hold "v" (.vector [.move "kept"]), .move "between" (some "moved"), .collect false,
    .allocate (.scalar (.boolean true)) false (some "new")] : List Op).foldl
      (fun s op => (s.performOp 1 op).1) (new [])

theorem lists_exact_interleaved :
    interleaved.listedCells 1 = [⟨1, 6⟩, ⟨1, 4⟩, ⟨1, 2⟩] ∧
      interleaved.roots 1 = [⟨1, 6⟩, ⟨1, 4⟩, ⟨1, 2⟩] ∧
      ∃ h, interleaved.world.heap? 1 = some h ∧ interleaved.ListsExact 1 h := by
  have hcells : interleaved.listedCells 1 = [⟨1, 6⟩, ⟨1, 4⟩, ⟨1, 2⟩] := by
    unfold interleaved
    cbv
  have hroots : interleaved.roots 1 = [⟨1, 6⟩, ⟨1, 4⟩, ⟨1, 2⟩] := by
    unfold interleaved
    cbv
  have hsome : (interleaved.world.heap? 1).isSome = true := by
    unfold interleaved
    cbv
  obtain ⟨h, hi⟩ := Option.isSome_iff_exists.mp hsome
  exact ⟨hcells, hroots, h, hi, lists_exact (.foldl (.new [] _) 1 _) hi⟩

end Session

end HybridHeap
