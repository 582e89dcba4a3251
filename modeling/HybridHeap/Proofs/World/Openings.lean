import HybridHeap.Proofs.Heap.Courses
import HybridHeap.Proofs.World.Changes
import HybridHeap.Proofs.World.Collections

/-!
The states in which collections start. A collection that is asked for, or that a cell placed
or a root dropped has triggered, finds a heap at rest, however deep it is nested in the
destruction that goes on elsewhere: no mark is left and no reference waits. Every handle has
an entry of its own on the root lists, and these have no other entries.
-/

namespace HybridHeap

@[simp] theorem listedRoots_some (rs : List Root) (wr : Writing) :
    listedRoots rs (some wr) = rs ++ wr.root :: wr.anchors := by
  simp [listedRoots]

/-- Two roots that do not share an entry. -/
def Root.Apart (r r' : Root) : Prop :=
  r.cell.heap = r'.cell.heap → r.ticket ≠ r'.ticket

/-- Roots that are apart on each heap. -/
theorem pairwise_apart {rs : List Root} (h : ∀ i, ((rootsIn i rs).map Root.ticket).Nodup) :
    rs.Pairwise Root.Apart := by
  induction rs with
  | nil => exact .nil
  | cons r rs ih =>
      refine .cons (fun r' hr' hh ht => ?_) (ih fun i => ?_)
      · have hnodup := h r.cell.heap
        rw [rootsIn_cons_self, List.map_cons, List.nodup_cons] at hnodup
        exact hnodup.1 (ht ▸ List.mem_map_of_mem (List.mem_filter.mpr ⟨hr', by simp [hh]⟩))
      · exact (h i).sublist (((List.sublist_cons_self r rs).filter _).map _)

/-- A heap at rest: no cell is marked, no reference is queued, and no collection goes on. -/
structure Heap.Clean (h : Heap) : Prop where
  unmarked : h.Unmarked
  deferred : h.deferred = []
  idle : h.phase = .idle

theorem Heap.Balanced.clean {h : Heap} {held : List Root} {write : Option Writing}
    (hb : h.Balanced held write) (hd : h.deferred = []) : h.Clean :=
  ⟨hb.listed.unmarked, hd, hb.listed.idle⟩

/-- A collection leaves the heap as clean as it was. -/
theorem Reclamation.Collectable.clean_collect {r : Reclamation} {held : List CellId}
    (h : r.Collectable held) : r.collect.heap.Clean :=
  ⟨h.thins_collect.unmarked h.unmarked, h.deferred_collect, h.thins_collect.phase.trans h.idle⟩

namespace World

/-- Every handle that is not null is anchored: its entry is on the root list of its target's
heap and belongs to no other handle. The root lists have no further entries, so none for a
slot of a cell. -/
structure Anchors (w : World) (hs : List Handle) : Prop where
  listed : ∀ r, some r ∈ hs → ∃ h, w.heap? r.cell.heap = some h ∧ r.entry ∈ h.roots.toList
  own : ∀ (j k : Nat) (r r' : Root), hs[j]? = some (some r) → hs[k]? = some (some r') →
    r.cell.heap = r'.cell.heap → r.ticket = r'.ticket → j = k
  entries : ∀ i h, w.heap? i = some h →
    h.roots.toList.Perm ((rootsIn i (hs.filterMap id)).map Root.entry)

variable {w : World} {held : List Holding} {write : Option Writing}

namespace Balanced

/-- The handles that went into a cell refer to cells of its heap. -/
theorem anchors_home {wr : Writing} (hb : w.Balanced held (some wr)) :
    ∀ r ∈ wr.anchors, r.cell.heap = wr.root.cell.heap := by
  intro r hr
  obtain ⟨h, hi⟩ := hb.home wr.root (List.mem_append_right _ List.mem_cons_self)
  have hheap := hb.heap _ h hi
  obtain ⟨cell, hf, ht⟩ := hheap.listed.written wr (by rw [writeIn_self]; rfl)
  have hl := hheap.counted.live_of_target hf (ht ▸ List.mem_map_of_mem hr)
  exact (hb.cells _ h hi _ hl).1

theorem rootsIn_listedRoots (hb : w.Balanced held write) (i : HeapId) (rs : List Root) :
    rootsIn i (listedRoots rs write) = listedRoots (rootsIn i rs) (writeIn i write) := by
  cases write with
  | none => rw [writeIn_none, listedRoots_none, listedRoots_none]
  | some wr =>
      have hhome : ∀ r ∈ wr.root :: wr.anchors, r.cell.heap = wr.root.cell.heap := by
        intro r hr
        rcases List.mem_cons.mp hr with rfl | hr
        · rfl
        · exact hb.anchors_home r hr
      rw [listedRoots_some, rootsIn_append]
      by_cases hi : i = wr.root.cell.heap
      · rw [hi, writeIn_self, listedRoots_some, rootsIn_eq_self hhome]
      · rw [rootsIn_eq_nil hhome hi, writeIn_of_ne wr (Ne.symm hi), listedRoots_none,
          List.append_nil]

theorem home_of_listed (hb : w.Balanced held write) {r : Root}
    (hr : r ∈ listedRoots (heldRoots held ++ w.bound) write) :
    ∃ h, w.heap? r.cell.heap = some h := by
  cases write with
  | none =>
      rw [listedRoots_none] at hr
      exact hb.home r (List.mem_append_left _ hr)
  | some wr =>
      rw [listedRoots_some] at hr
      have hroot := hb.home wr.root (List.mem_append_right _ List.mem_cons_self)
      rcases List.mem_append.mp hr with hr | hr
      · exact hb.home r (List.mem_append_left _ hr)
      · rcases List.mem_cons.mp hr with rfl | hr
        · exact hroot
        · rwa [hb.anchors_home r hr]

/-- The handles that own all the roots that are listed are anchored. -/
theorem anchors (hb : w.Balanced held write) {hs : List Handle}
    (hp : (hs.filterMap id).Perm (listedRoots (heldRoots held ++ w.bound) write)) :
    w.Anchors hs := by
  have hentries : ∀ i h, w.heap? i = some h →
      h.roots.toList.Perm ((rootsIn i (hs.filterMap id)).map Root.entry) := by
    intro i h hi
    have hroots := (hb.heap i h hi).listed.roots
    rw [← hb.rootsIn_listedRoots] at hroots
    exact hroots.trans ((rootsIn_perm i hp.symm).map _)
  have hhome : ∀ r, some r ∈ hs → ∃ h, w.heap? r.cell.heap = some h := fun r hr =>
    hb.home_of_listed (hp.mem_iff.mp (List.mem_filterMap.mpr ⟨some r, hr, rfl⟩))
  have hapart : (hs.filterMap id).Pairwise Root.Apart := by
    apply pairwise_apart
    intro i
    by_cases hi : ∃ h, w.heap? i = some h
    · obtain ⟨h, hi⟩ := hi
      have hperm := (hentries i h hi).map Prod.fst
      rw [List.map_map] at hperm
      exact hperm.nodup_iff.mp (hb.heap i h hi).listed.sound.nodup
    · -- no root is on a heap that there is not
      have hnil : rootsIn i (hs.filterMap id) = [] := by
        refine List.filter_eq_nil_iff.mpr fun r hr hri => hi ?_
        obtain ⟨x, hx, rfl⟩ := List.mem_filterMap.mp hr
        exact of_decide_eq_true hri ▸ hhome r hx
      rw [hnil]
      exact .nil
  rw [List.pairwise_filterMap] at hapart
  constructor
  case listed =>
    intro r hr
    obtain ⟨h, hi⟩ := hhome r hr
    have hmem : r ∈ rootsIn r.cell.heap (hs.filterMap id) :=
      List.mem_filter.mpr ⟨List.mem_filterMap.mpr ⟨some r, hr, rfl⟩, decide_eq_true rfl⟩
    exact ⟨h, hi, (hentries _ h hi).mem_iff.mpr (List.mem_map_of_mem hmem)⟩
  case own =>
    intro j k r r' hj hk hh ht
    obtain ⟨hjlt, hj⟩ := List.getElem?_eq_some_iff.mp hj
    obtain ⟨hklt, hk⟩ := List.getElem?_eq_some_iff.mp hk
    have hpairs := List.pairwise_iff_getElem.mp hapart
    rcases Nat.lt_trichotomy j k with hjk | hjk | hjk
    · exact absurd ht (hpairs j k hjlt hklt hjk r hj r' hk hh)
    · exact hjk
    · exact absurd ht.symm (hpairs k j hklt hjlt hjk r' hk r hj hh.symm)
  case entries => exact hentries

end Balanced

end World

namespace Reclamation

/-- The threshold is found exceeded. -/
def triggered (r : Reclamation) : Reclamation :=
  r.report (.triggered r.heap.objects.length r.heap.capacity)

theorem thins_triggered (r : Reclamation) : r.Thins r.triggered :=
  ⟨rfl, rfl, rfl, rfl, rfl, rfl, Nat.le_refl _, fun _ => rfl, .refl _, .refl _, rfl⟩

theorem Sheds.collections {r r' : Reclamation} (hs : r.Sheds r') :
    r'.heap.counters.collections = r.heap.counters.collections := by
  obtain ⟨freed, hr⟩ := hs
  have hnone : sweeps (freed.map .freed) = [] := by
    rw [sweeps, List.filterMap_map, List.filterMap_eq_nil_iff]
    exact fun _ _ => rfl
  rw [hr.counters, Counters.after, hnone]
  rfl

end Reclamation

namespace Moment

/-- `m.Opens i before mid` says that at the moment `m` something is done to the heap `i` that
starts a collection of it, and that `before` is what the collection is of. The moment at which
it starts is `mid`: the payloads of the cells that were freed until then are still to be let
go of. -/
inductive Opens : Moment → HeapId → Reclamation → Moment → Prop
  | requested {w : World} {held : List Holding} {i : HeapId} {h : Heap} {before : Reclamation}
      (hi : w.heap? i = some h) (hb : before = h.start.drain) :
      Opens ⟨w, held, none⟩ i before
        ⟨(w.commit i before).1, before.payloads.map Chore.holding ++ held, none⟩
  | placed {w : World} {held : List Holding} {i : HeapId} {h : Heap} {v : Value Handle}
      {c : CellId} {counted before : Reclamation} (hi : w.heap? i = some h)
      (ho : World.ownsAll i v = true) (hc : c = { heap := i, number := w.nextCell })
      (hp : counted = (h.placeOnly c v).2.start.drain) (ht : h.config.collectOnAllocate = true)
      (hover : counted.heap.capacity < counted.heap.objects.length)
      (hb : before = counted.triggered) :
      Opens ⟨w, v.holdings ++ held, none⟩ i before
        ⟨({ w with nextCell := w.nextCell + 1 }.commit i before).1,
          before.payloads.map Chore.holding ++ (.root (h.placeOnly c v).1 :: held), none⟩
  | dropped {w : World} {held : List Holding} {write : Option Writing} {r : Root} {h : Heap}
      {released before : Reclamation} (hi : w.heap? r.cell.heap = some h)
      (hr : released = h.dropAnchor r) (ht : h.config.collectOnRelease = true)
      (hover : released.heap.capacity < released.heap.objects.length)
      (hb : before = released.triggered) :
      Opens ⟨w, .root r :: held, write⟩ r.cell.heap before
        ⟨(w.commit r.cell.heap before).1, before.payloads.map Chore.holding ++ held, write⟩

/-- The slots of any value that is held unplaced are anchored, apart from whatever else is
owned. -/
def Anchored (m : Moment) : Prop :=
  ∀ (v : Value Handle) (others : List Holding), m.held.Perm (v.holdings ++ others) →
    m.world.Anchors
      (v.children ++ (listedRoots (heldRoots others ++ m.world.bound) m.write).map some)

/-- Everything is in order for a collection of the heap `i` to start. The other heaps are at
rest as well, up to the queue of one on which a cell is being written. -/
structure Ready (m : Moment) (i : HeapId) (before : Reclamation) : Prop where
  heap : m.world.heap? i = some before.heap
  clean : before.heap.Clean
  others : ∀ j h, m.world.heap? j = some h →
    h.Unmarked ∧ h.phase = .idle ∧ (writeIn j m.write = none → h.deferred = [])
  anchored : m.Anchored

variable {m m' mid : Moment} {i : HeapId} {before : Reclamation}

theorem Balanced.anchored (hb : m.Balanced) : m.Anchored := by
  intro v others hp
  refine World.Balanced.anchors hb ?_
  have hroots := heldRoots_perm hp
  rw [heldRoots_append, heldRoots_value] at hroots
  have hlisted : (listedRoots (heldRoots m.held ++ m.world.bound) m.write).Perm
      (v.anchors ++ listedRoots (heldRoots others ++ m.world.bound) m.write) := by
    rw [listedRoots, listedRoots, ← List.append_assoc, ← List.append_assoc]
    exact (hroots.append_right _).append_right _
  rw [List.filterMap_append, List.filterMap_map]
  refine List.Perm.trans (.of_eq ?_) hlisted.symm
  exact congrArg _ (List.filterMap_some ..)

/-- At a moment in balance a heap with an empty queue is ready to be collected. -/
theorem Balanced.ready (hb : m.Balanced) (hi : m.world.heap? i = some before.heap)
    (hd : before.heap.deferred = []) : m.Ready i before where
  heap := hi
  clean := (World.Balanced.heap hb i _ hi).clean hd
  others j h hj := by
    have hheap := World.Balanced.heap hb j h hj
    exact ⟨hheap.listed.unmarked, hheap.listed.idle, hheap.deferred⟩
  anchored := hb.anchored

/-- Where a collection starts everything is in balance, as it is between the steps of a run, and
the queue is empty. -/
theorem Opens.balanced (ho : m.Opens i before mid) (hb : m.Balanced) :
    mid.Balanced ∧ mid.world.heap? i = some before.heap ∧ before.heap.deferred = [] := by
  cases ho with
  | @requested w held i h before hi hbefore =>
      subst hbefore
      obtain ⟨hdrain, -, -⟩ := (World.Balanced.heap hb i h hi).collectNow_eq
      have hsame : (w.commit i h.start.drain).1 = w ∧ h.start.drain.payloads = [] := by
        rw [hdrain]
        exact ⟨congrArg (fun v : World => { v with events := w.events })
          (World.setHeap_self hi), rfl⟩
      refine ⟨?_, World.heap?_setHeap_self hi _, Reclamation.deferred_drain _⟩
      rw [hsame.1, hsame.2]
      exact hb
  | @placed w held i h v c counted before hi ho hc hp ht hover hbefore =>
      subst hbefore hp
      have hlive : ¬h.Live c := hc ▸ World.Balanced.not_live_next hb hi
      obtain ⟨-, hplaced, -, -⟩ := (World.Balanced.heap_of_value hb hi ho).placeOnly hlive
      have hd : (h.placeOnly c v).2.start.heap.deferred = [] := hplaced.deferred rfl
      rw [Reclamation.drain_of_deferred_nil hd]
      exact ⟨World.Balanced.commit_placed hb hi ho hc hplaced (Reclamation.thins_triggered _),
        World.heap?_setHeap_self hi _, hd⟩
  | @dropped w held write r h released before hi hr ht hover hbefore =>
      subst hbefore hr
      obtain ⟨hdropped, hd, hthins⟩ := (World.Balanced.heap_of_root hb hi).dropAnchor
      exact ⟨World.Balanced.commit_unrooted hb hi hdropped
        (hthins.trans (Reclamation.thins_triggered _)), World.heap?_setHeap_self hi _, hd⟩

/-- So the collection finds everything in order, and leaves its heap clean. -/
theorem Opens.ready (ho : m.Opens i before mid) (hb : m.Balanced) :
    mid.Ready i before ∧ before.collect.heap.Clean := by
  obtain ⟨hmid, hi, hd⟩ := ho.balanced hb
  exact ⟨hmid.ready hi hd,
    ((World.Balanced.heap hmid i _ hi).collectable hd).clean_collect⟩

end Moment

namespace Heap

variable {h h' : Heap}

/-- No collection has been completed in between. -/
def Uncollected (h h' : Heap) : Prop :=
  h'.counters.collections = h.counters.collections

theorem Steady.uncollected (hs : h.Steady h') : h.Uncollected h' :=
  congrArg Counters.collections hs.counters

theorem uncollected_dropAnchor (h : Heap) (r : Root) : h.Uncollected (h.dropAnchor r).heap :=
  (h.sheds_dropAnchor r).collections.trans (h.steady_unroot r).uncollected

theorem Work.uncollected {r : Reclamation} (hw : h.Work r) : h.Uncollected r.heap := by
  cases hw with
  | finishWrite anchors =>
      exact (h.sheds_finishWrite anchors).collections.trans (h.steady_unrootAll anchors).uncollected
  | write hw =>
      obtain ⟨h₀, hsteady, hs⟩ := sheds_write hw
      exact hs.collections.trans hsteady.uncollected
  | append hw =>
      obtain ⟨h₀, hsteady, hs⟩ := sheds_append hw
      exact hs.collections.trans hsteady.uncollected

/-- A collection in the drop of a root is triggered after the release. -/
theorem dropRoot_of_collected {r : Root} (hc : ¬h.Uncollected (h.dropRoot r).heap) :
    h.config.collectOnRelease = true ∧
      (h.dropAnchor r).heap.capacity < (h.dropAnchor r).heap.objects.length ∧
      h.dropRoot r = (h.dropAnchor r).triggered.collect := by
  have hdrop : h.dropRoot r = if h.config.collectOnRelease = true then
      (h.dropAnchor r).collectIfOver else h.dropAnchor r := rfl
  rw [hdrop] at hc ⊢
  by_cases hon : h.config.collectOnRelease = true
  · rw [if_pos hon] at hc ⊢
    by_cases hover : (h.dropAnchor r).heap.capacity < (h.dropAnchor r).heap.objects.length
    · exact ⟨hon, hover, if_pos hover⟩
    · rw [Reclamation.collectIfOver, if_neg hover] at hc
      exact absurd (h.uncollected_dropAnchor r) hc
  · rw [if_neg hon] at hc
    exact absurd (h.uncollected_dropAnchor r) hc

/-- A collection in the placing of a value is triggered when the cell is rooted and counted. -/
theorem place_of_collected {c : CellId} {v : Value Handle}
    (hc : ¬h.Uncollected (h.place c v).2.heap) :
    h.config.collectOnAllocate = true ∧
      (h.placeOnly c v).2.start.drain.heap.capacity <
        (h.placeOnly c v).2.start.drain.heap.objects.length ∧
      (h.place c v).2 = (h.placeOnly c v).2.start.drain.triggered.collect := by
  have huncollected : h.Uncollected (h.placeOnly c v).2.start.drain.heap := by
    rw [Uncollected, (Reclamation.sheds_drain _).collections, start, counters_placeOnly]
  rw [place_eq] at hc ⊢
  by_cases hon : h.config.collectOnAllocate = true
  · rw [if_pos hon] at hc ⊢
    by_cases hover : (h.placeOnly c v).2.start.drain.heap.capacity <
        (h.placeOnly c v).2.start.drain.heap.objects.length
    · exact ⟨hon, hover, if_pos hover⟩
    · rw [Reclamation.collectIfOver, if_neg hover] at hc
      exact absurd huncollected hc
  · rw [if_neg hon] at hc
    exact absurd huncollected hc

end Heap

namespace Moment

/-- The heap that completes a collection is the one that is replaced. -/
theorem of_collected {w : World} {i j : HeapId} {h h' k k' : Heap} (hi : w.heap? i = some h)
    (hj : w.heap? j = some k) (hi' : (w.setHeap j k').heap? i = some h')
    (hc : ¬h.Uncollected h') : j = i ∧ k = h ∧ k' = h' := by
  by_cases hji : j = i
  · subst hji
    rw [World.heap?_setHeap_self hj, Option.some.injEq] at hi'
    rw [hi, Option.some.injEq] at hj
    exact ⟨rfl, hj.symm, hi'⟩
  · rw [World.heap?_setHeap_of_ne hji, hi, Option.some.injEq] at hi'
    subst hi'
    exact absurd rfl hc

/-- Whenever a step completes a collection, the collection was opened, and the heap is as the
collection has left it. -/
theorem Step.opens {m m' : Moment} (hs : Step m m') {i : HeapId} {h h' : Heap}
    (hi : m.world.heap? i = some h) (hi' : m'.world.heap? i = some h')
    (hc : ¬h.Uncollected h') :
    ∃ before mid, m.Opens i before mid ∧ h' = before.collect.heap := by
  have hsame : m'.world.heaps = m.world.heaps → False := by
    intro he
    rw [World.heap?, he, ← World.heap?, hi, Option.some.injEq] at hi'
    subst hi'
    exact hc rfl
  cases hs with
  | permute _ => exact (hsame rfl).elim
  | @chore w held write c =>
      cases c with
      | dropRoot r =>
          simp only [World.doChore, World.reclaim] at hi' hsame
          cases hk : w.heap? r.cell.heap with
          | none =>
              rw [hk] at hsame
              exact (hsame rfl).elim
          | some k =>
              rw [hk] at hi'
              obtain ⟨rfl, rfl, rfl⟩ := of_collected hi hk hi' hc
              obtain ⟨hon, hover, hdrop⟩ := Heap.dropRoot_of_collected hc
              exact ⟨_, _, .dropped hi rfl hon hover rfl, congrArg Reclamation.heap hdrop⟩
      | dropAnchor r =>
          simp only [World.doChore, World.reclaim] at hi' hsame
          cases hk : w.heap? r.cell.heap with
          | none =>
              rw [hk] at hsame
              exact (hsame rfl).elim
          | some k =>
              rw [hk] at hi'
              obtain ⟨rfl, rfl, rfl⟩ := of_collected hi hk hi' hc
              exact absurd (k.uncollected_dropAnchor r) hc
      | leave e => exact (hsame (w.heaps_leave e)).elim
  | @root w held c k hk _ =>
      obtain ⟨rfl, rfl, rfl⟩ := of_collected hi hk hi' hc
      exact absurd (k.steady_register c).uncollected hc
  | @place w held j k v c hk ho hcell =>
      obtain ⟨rfl, rfl, rfl⟩ := of_collected hi hk hi' hc
      obtain ⟨hon, hover, hplace⟩ := Heap.place_of_collected hc
      exact ⟨_, _, .placed hi ho hcell rfl hon hover rfl, congrArg Reclamation.heap hplace⟩
  | @swap w held r k v hk _ =>
      obtain ⟨rfl, rfl, rfl⟩ := of_collected hi hk hi' hc
      exact absurd (k.steady_swap r.cell v).uncollected hc
  | @finishWrite w held wr k hk =>
      obtain ⟨rfl, rfl, rfl⟩ := of_collected hi hk hi' hc
      exact absurd (Heap.Work.finishWrite wr.anchors).uncollected hc
  | @write w held c k p t rec hk _ _ hw =>
      obtain ⟨rfl, rfl, rfl⟩ := of_collected hi hk hi' hc
      exact absurd (Heap.Work.write hw).uncollected hc
  | @append w held c k t rec hk _ _ hw =>
      obtain ⟨rfl, rfl, rfl⟩ := of_collected hi hk hi' hc
      exact absurd (Heap.Work.append hw).uncollected hc
  | @collectNow w held j k hk =>
      obtain ⟨rfl, rfl, rfl⟩ := of_collected hi hk hi' hc
      exact ⟨_, _, .requested hi rfl, rfl⟩
  | shareEnv _ => exact (hsame rfl).elim
  | @newEnv w held parent _ => exact (hsame (by cases parent <;> rfl)).elim
  | rebind _ => exact (hsame rfl).elim
  | forgetEvents => exact (hsame rfl).elim

end Moment

end HybridHeap
