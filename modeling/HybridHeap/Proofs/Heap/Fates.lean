import HybridHeap.Proofs.Heap.Update

/-!
How cells end. A cell goes when its count reaches zero or when a sweep finds it
unmarked. `Reclamation.Frees` tells the two kinds apart: the first are reported by
events and counted as eager frees, the others are counted as swept, and together they
are what the graveyard holds.
-/

namespace HybridHeap

/-- The cell that an event reports as freed because its count reached zero. -/
def Event.freed? : Event → Option CellId
  | freed c => some c
  | _ => none

/-- The cells that were reported as freed, the last one first. -/
def reported (events : List Event) : List CellId :=
  events.filterMap Event.freed?

theorem mem_reported {events : List Event} {c : CellId} :
    c ∈ reported events ↔ .freed c ∈ events := by
  rw [reported, List.mem_filterMap]
  constructor
  · rintro ⟨e, he, hc⟩
    cases e with
    | freed d =>
        cases hc
        exact he
    | triggered live capacity => cases hc
    | collected before after swept traced capacity => cases hc
  · exact fun h => ⟨.freed c, h, rfl⟩

namespace Reclamation

/-- From `r` to `r'` the cells `counted` have gone because their counts reached zero, the
last one first, and the cells `swept` in sweeps. -/
structure Frees (r r' : Reclamation) (counted swept : List CellId) : Prop where
  events : reported r'.events = counted ++ reported r.events
  graveyard : (r'.graveyard.map Freed.cell).Perm
    (counted ++ swept ++ r.graveyard.map Freed.cell)
  eagerFrees : r'.heap.counters.eagerFrees = r.heap.counters.eagerFrees + counted.length
  swept : r'.heap.counters.swept = r.heap.counters.swept + swept.length

namespace Frees

variable {r r' r'' : Reclamation} {counted swept counted' swept' : List CellId}

theorem refl (r : Reclamation) : Frees r r [] [] :=
  ⟨rfl, .refl _, rfl, rfl⟩

theorem trans (h : Frees r r' counted swept) (h' : Frees r' r'' counted' swept') :
    Frees r r'' (counted' ++ counted) (swept' ++ swept) where
  events := by rw [h'.events, h.events, List.append_assoc]
  graveyard := by
    refine h'.graveyard.trans ((h.graveyard.append_left _).trans ?_)
    rw [List.perm_iff_count]
    intro c
    simp only [List.count_append]
    omega
  eagerFrees := by
    rw [h'.eagerFrees, h.eagerFrees, List.length_append]
    omega
  swept := by
    rw [h'.swept, h.swept, List.length_append]
    omega

/-- What does not free anything may be done before. -/
theorem of_map {f : Heap → Heap} (h : Frees (r.map f) r' counted swept)
    (hf : (f r.heap).counters = r.heap.counters) : Frees r r' counted swept where
  events := h.events
  graveyard := h.graveyard
  eagerFrees := by rw [h.eagerFrees, map, hf]
  swept := by rw [h.swept, map, hf]

end Frees

/-- A release frees cells by their counts only. -/
theorem frees_release (r : Reclamation) (work : List CellId) :
    ∃ counted, r.Frees (r.release work) counted [] := by
  fun_induction release r work with
  | case1 r => exact ⟨[], .refl r⟩
  | case2 r c work _ ih =>
      obtain ⟨counted, h⟩ := ih
      exact ⟨counted, h.of_map rfl⟩
  | case3 r c work cell _ _ ih =>
      obtain ⟨counted, h⟩ := ih
      exact ⟨counted, h.of_map rfl⟩
  | case4 r c work cell _ _ f _ ih =>
      obtain ⟨counted, h⟩ := ih
      exact ⟨counted, h.of_map rfl⟩
  | case5 r c work cell _ _ buried hb freed ih =>
      obtain ⟨counted, h⟩ := ih
      have hstep : r.Frees (freed.report (.freed c)) [c] [] := by
        unfold bury at hb
        split at hb
        · cases hb
          exact ⟨rfl, .refl _, rfl, rfl⟩
        · cases hb
      exact ⟨counted ++ [c], hstep.trans h⟩
  | case6 r c work cell _ n _ ih =>
      obtain ⟨counted, h⟩ := ih
      exact ⟨counted, h.of_map rfl⟩

theorem frees_releaseEach (r : Reclamation) (cells : List CellId) :
    ∃ counted, r.Frees (r.releaseEach cells) counted [] := by
  induction cells generalizing r with
  | nil => exact ⟨[], .refl r⟩
  | cons c cells ih =>
      obtain ⟨counted, h⟩ := r.frees_release [c]
      obtain ⟨counted', h'⟩ := ih (r.release [c])
      exact ⟨counted' ++ counted, h.trans h'⟩

theorem frees_drain (r : Reclamation) : ∃ counted, r.Frees r.drain counted [] := by
  obtain ⟨counted, h⟩ :=
    (r.map fun h => { h with deferred := [] }).frees_releaseEach r.heap.deferred
  exact ⟨counted, h.of_map rfl⟩

/-- A collection frees cells by its sweep only. -/
theorem Collectable.frees_collect {r : Reclamation} {held : List CellId}
    (h : r.Collectable held) : ∃ swept, r.Frees r.collect [] swept := by
  obtain ⟨objects, traced, -, -, he⟩ := collect_eq h.counted h.rooted h.unmarked h.deferred
  rw [he]
  refine ⟨(r.heap.garbage.map Prod.fst).reverse, rfl, ?_, rfl, ?_⟩
  · rw [List.map_append, List.map_reverse, List.map_map]
    exact .refl _
  · rw [List.length_reverse, List.length_map]

theorem Collectable.frees_collectIfOver {r : Reclamation} {held : List CellId}
    (h : r.Collectable held) : ∃ swept, r.Frees r.collectIfOver [] swept := by
  unfold Reclamation.collectIfOver
  dsimp only
  split
  · obtain ⟨swept, hs⟩ :=
      (h.report (.triggered r.heap.objects.length r.heap.capacity)).frees_collect
    exact ⟨swept, hs.events, hs.graveyard, hs.eagerFrees, hs.swept⟩
  · exact ⟨[], .refl r⟩

end Reclamation

namespace Heap

@[simp] theorem counters_retain (h : Heap) (c : CellId) : (h.retain c).counters = h.counters := by
  unfold retain
  split <;> rfl

@[simp] theorem counters_register (h : Heap) (c : CellId) :
    (h.register c).1.counters = h.counters := by
  simp only [register]
  split
  · exact counters_retain h c
  · exact counters_retain h c

@[simp] theorem counters_unroot (h : Heap) (r : Root) : (h.unroot r).counters = h.counters := by
  unfold unroot
  split <;> rfl

@[simp] theorem counters_unrootAll (h : Heap) (rs : List Root) :
    (h.unrootAll rs).counters = h.counters := by
  induction rs generalizing h with
  | nil => rfl
  | cons r rs ih => exact (ih (h.unroot r)).trans (counters_unroot h r)

@[simp] theorem counters_retainSlot (h : Heap) (t : Slot) :
    (h.retainSlot t).counters = h.counters := by
  cases t with
  | none => rfl
  | some c => exact counters_retain h c

@[simp] theorem counters_link (h : Heap) (c : CellId) (v : Value Slot) :
    (h.link c v).counters = h.counters := by
  unfold link
  split <;> rfl

@[simp] theorem counters_placeOnly (h : Heap) (c : CellId) (v : Value Handle) :
    (h.placeOnly c v).2.counters =
      { h.counters with allocations := h.counters.allocations + 1 } := by
  simp [placeOnly]

variable {h : Heap} {held : List Root} {write : Option Writing}

theorem frees_dropAnchor (h : Heap) (r : Root) :
    ∃ counted, (h.unroot r).start.Frees (h.dropAnchor r) counted [] := by
  obtain ⟨counted, h₁⟩ := (h.unroot r).start.frees_release [r.cell]
  obtain ⟨counted', h₂⟩ := ((h.unroot r).start.release [r.cell]).frees_drain
  exact ⟨counted' ++ counted, h₁.trans h₂⟩

theorem Balanced.frees_dropRoot {r : Root} (hb : h.Balanced (r :: held) write) :
    ∃ counted swept, (h.unroot r).start.Frees (h.dropRoot r) counted swept := by
  obtain ⟨hb₁, hd₁, -⟩ := hb.dropAnchor
  obtain ⟨counted, h₁⟩ := h.frees_dropAnchor r
  show ∃ counted swept, Reclamation.Frees _
    (if h.config.collectOnRelease then (h.dropAnchor r).collectIfOver else h.dropAnchor r)
    counted swept
  split
  · obtain ⟨swept, h₂⟩ := (hb₁.collectable hd₁).frees_collectIfOver
    exact ⟨_, _, h₁.trans h₂⟩
  · exact ⟨_, _, h₁⟩

theorem Balanced.frees_collectNow (hb : h.Balanced held none) :
    ∃ swept, h.start.Frees h.collectNow [] swept := by
  have hd := hb.deferred rfl
  rw [Heap.collectNow, Reclamation.drain_of_deferred_nil (r := h.start) hd]
  exact (hb.collectable (r := h.start) hd).frees_collect

theorem Balanced.frees_place {v : Value Handle} (hb : h.Balanced (v.anchors ++ held) none)
    {c : CellId} (hl : ¬h.Live c) :
    ∃ swept, (h.placeOnly c v).2.start.Frees (h.place c v).2 [] swept := by
  obtain ⟨-, hb', -, -⟩ := hb.placeOnly hl
  have hd := hb'.deferred rfl
  rw [place_eq, Reclamation.drain_of_deferred_nil (r := (h.placeOnly c v).2.start) hd]
  split
  · exact (hb'.collectable (r := (h.placeOnly c v).2.start) hd).frees_collectIfOver
  · exact ⟨[], .refl _⟩

theorem frees_finishWrite (h : Heap) (anchors : List Root) :
    ∃ counted, (h.unrootAll anchors).start.Frees (h.finishWrite anchors) counted [] :=
  (h.unrootAll anchors).start.frees_drain

end Heap

end HybridHeap
