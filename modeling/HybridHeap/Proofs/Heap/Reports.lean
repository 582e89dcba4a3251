import Mathlib.Algebra.GroupWithZero.Nat
import HybridHeap.Proofs.Heap.Acts
import HybridHeap.Proofs.Heap.Fates
import HybridHeap.Proofs.Heap.History
import HybridHeap.Proofs.Heap.Paces

/-!
What a heap reports is what has happened to it. `r.Reports events r'` says so in any state
of the heap, balanced or not: between `r` and `r'` the counters have moved by the events,
the events pace the threshold, and no cell is reported as freed that was not live before or
that is live afterwards. Releases report freed cells only; a collection reports itself after
whatever it has freed on the way.
-/

namespace HybridHeap

/-- The number of cells that a finished collection has swept. -/
def Event.swept? : Event → Option Nat
  | collected _ _ swept _ _ => some swept
  | _ => none

/-- The numbers of cells that the reported collections have swept. -/
def sweeps (events : List Event) : List Nat :=
  events.filterMap Event.swept?

/-- The counters after some events. -/
def Counters.after (t : Counters) (events : List Event) : Counters :=
  { t with
    eagerFrees := t.eagerFrees + (reported events).length
    collections := t.collections + (sweeps events).length
    swept := t.swept + (sweeps events).sum }

@[simp] theorem reported_append (es es' : List Event) :
    reported (es ++ es') = reported es ++ reported es' :=
  List.filterMap_append

@[simp] theorem sweeps_append (es es' : List Event) :
    sweeps (es ++ es') = sweeps es ++ sweeps es' :=
  List.filterMap_append

theorem reported_reverse (es : List Event) : reported es.reverse = (reported es).reverse :=
  List.filterMap_reverse

theorem sweeps_reverse (es : List Event) : sweeps es.reverse = (sweeps es).reverse :=
  List.filterMap_reverse

theorem Counters.after_after (t : Counters) (es es' : List Event) :
    (t.after es).after es' = t.after (es' ++ es) := by
  simp only [after, reported_append, sweeps_append, List.length_append, List.sum_append]
  congr 1 <;> omega

namespace Heap

/-- Changes that count nothing and leave the threshold alone. -/
structure Steady (h h' : Heap) : Prop where
  changes : h.Changes h'
  capacity : h'.capacity = h.capacity
  counters : h'.counters = h.counters

variable {h h' h'' : Heap}

/-- No change brings a cell. -/
theorem Changes.live (hc : h.Changes h') {c : CellId} (hl : h'.Live c) : h.Live c := by
  have hp := hc.precedes (n := c.number + 1)
  exact (hp.live c hl).resolve_right (Nat.not_succ_le_self _)

namespace Steady

theorem refl (h : Heap) : h.Steady h :=
  ⟨.refl h, rfl, rfl⟩

theorem trans (hs : h.Steady h') (hs' : h'.Steady h'') : h.Steady h'' :=
  ⟨hs.changes.trans hs'.changes, hs'.capacity.trans hs.capacity,
    hs'.counters.trans hs.counters⟩

theorem single (hc : h.Change h') (hcapacity : h'.capacity = h.capacity)
    (hcounters : h'.counters = h.counters) : h.Steady h' :=
  ⟨.single hc, hcapacity, hcounters⟩

end Steady

theorem steady_fault (h : Heap) (f : Fault) : h.Steady (h.fault f) :=
  .single (.fault h f) rfl rfl

theorem steady_modifyCell (h : Heap) (c : CellId) (f : Cell → Cell) :
    h.Steady (h.modifyCell c f) :=
  .single (.modifyCell h c f) rfl rfl

theorem steady_retain (h : Heap) (c : CellId) : h.Steady (h.retain c) := by
  unfold retain
  split
  · exact h.steady_modifyCell c _
  · exact h.steady_fault _

theorem steady_register (h : Heap) (c : CellId) : h.Steady (h.register c).1 := by
  refine ⟨h.changes_register c, ?_, h.counters_register c⟩
  simp only [register]
  split <;> exact (h.steady_retain c).capacity

theorem steady_unroot (h : Heap) (r : Root) : h.Steady (h.unroot r) := by
  refine ⟨h.changes_unroot r, ?_, h.counters_unroot r⟩
  unfold unroot
  split <;> rfl

theorem steady_unrootAll (h : Heap) (rs : List Root) : h.Steady (h.unrootAll rs) := by
  induction rs generalizing h with
  | nil => exact .refl h
  | cons r rs ih => exact (h.steady_unroot r).trans (ih (h.unroot r))

theorem steady_retainSlot (h : Heap) (t : Slot) : h.Steady (h.retainSlot t) := by
  cases t with
  | none => exact .refl h
  | some c => exact h.steady_retain c

theorem steady_defer (h : Heap) (cells : List CellId) : h.Steady (h.defer cells) :=
  .single (.turn h h.phase _ h.counters) rfl rfl

theorem steady_swap (h : Heap) (c : CellId) (v : Value Handle) : h.Steady (h.swap c v) :=
  (h.steady_modifyCell c fun cell => { cell with value := v.placed }).trans (steady_defer _ _)

theorem steady_scan (h : Heap) (s : MarkStack) : h.Steady (h.scan s).1 := by
  fun_induction scan h s with
  | case1 h s => exact .refl h
  | case2 h s c s' _ _ ih => exact (h.steady_fault _).trans ih
  | case3 h s c s' _ cell _ _ ih => exact ih
  | case4 h s c s' _ cell _ _ ih => exact (h.steady_modifyCell c _).trans ih

theorem steady_scanQueued (h : Heap) (s : MarkStack) (queued : List CellId) :
    h.Steady (h.scanQueued s queued).1 := by
  induction queued generalizing h s with
  | nil => exact h.steady_scan s
  | cons c queued ih => exact (h.steady_scan s).trans (ih _ _)

theorem steady_mark (h : Heap) : h.Steady h.mark.heap := by
  have hempty : h.Steady { h with deferred := [] } := .single (.turn h h.phase _ h.counters) rfl rfl
  have hscanned := hempty.trans (steady_scanQueued _
    (MarkStack.pushAll {} (h.roots.toList.map Prod.snd)) h.deferred)
  simp only [mark]
  split
  · exact hscanned
  · exact hscanned.trans (steady_fault _ _)

end Heap

namespace Reclamation

/-- What happens between `r` and `r'` is what the events `es` report, the last one first. -/
structure Reports (r : Reclamation) (es : List Event) (r' : Reclamation) : Prop where
  events : r'.events = es ++ r.events
  counters : r'.heap.counters = r.heap.counters.after es
  changes : r.heap.Changes r'.heap
  paces : Paces r.heap.objects.length r.heap.capacity (es.reverse.map .event)
    r'.heap.objects.length r'.heap.capacity
  nodup : (reported es).Nodup
  freed : ∀ c ∈ reported es, r.heap.Live c ∧ ¬r'.heap.Live c

/-- Between `r` and `r'` cells were freed by their counts, and nothing else is reported. -/
def Sheds (r r' : Reclamation) : Prop :=
  ∃ freed : List CellId, r.Reports (freed.map .freed) r'

/-- Between `r` and `r'` a collection has taken place, which is reported at its end. -/
def Collects (r r' : Reclamation) : Prop :=
  ∃ (freed : List CellId) (swept traced : Nat), r.Reports
    (.collected r.heap.objects.length r'.heap.objects.length swept traced r'.heap.capacity ::
      freed.map .freed) r'

variable {r r' r'' : Reclamation} {es es' : List Event}

theorem Reports.trans (h : r.Reports es r') (h' : r'.Reports es' r'') :
    r.Reports (es' ++ es) r'' where
  events := by rw [h'.events, h.events, List.append_assoc]
  counters := by rw [h'.counters, h.counters, Counters.after_after]
  changes := h.changes.trans h'.changes
  paces := by
    rw [List.reverse_append, List.map_append]
    exact h.paces.append h'.paces
  nodup := by
    rw [reported_append, List.nodup_append]
    refine ⟨h'.nodup, h.nodup, ?_⟩
    rintro c hc _ hc' rfl
    exact (h.freed c hc').2 (h'.freed c hc).1
  freed c hc := by
    rw [reported_append] at hc
    rcases List.mem_append.mp hc with hc | hc
    · exact ⟨h.changes.live (h'.freed c hc).1, (h'.freed c hc).2⟩
    · exact ⟨(h.freed c hc).1, fun hl => (h.freed c hc).2 (h'.changes.live hl)⟩

namespace Sheds

theorem of_steady (hs : r.heap.Steady r'.heap) (he : r'.events = r.events) : r.Sheds r' := by
  refine ⟨[], he, hs.counters, hs.changes, ?_, .nil, fun c hc => by cases hc⟩
  rw [hs.capacity]
  exact .nil _ hs.changes.eases.live

theorem refl (r : Reclamation) : r.Sheds r :=
  of_steady (.refl r.heap) rfl

theorem trans (h : r.Sheds r') (h' : r'.Sheds r'') : r.Sheds r'' := by
  obtain ⟨freed, h⟩ := h
  obtain ⟨freed', h'⟩ := h'
  exact ⟨freed' ++ freed, by simpa only [List.map_append] using h.trans h'⟩

end Sheds

section Steps

theorem sheds_map {f : Heap → Heap} (hs : r.heap.Steady (f r.heap)) : r.Sheds (r.map f) :=
  .of_steady hs rfl

/-- The step of a release that frees a cell reports it. -/
theorem sheds_freed {buried : Reclamation} {c : CellId} {cell : Cell}
    (hb : r.bury c cell = .ok buried) :
    r.Sheds ((buried.map fun h =>
      { h with counters := { h.counters with eagerFrees := h.counters.eagerFrees + 1 } }).report
        (.freed c)) := by
  unfold bury at hb
  split at hb
  · rename_i objects hr
    cases hb
    obtain ⟨hlive, hgone⟩ := LinkedMap.mem_and_not_mem_of_remove hr
    have hlength := LinkedMap.length_remove hr
    refine ⟨[c], rfl, rfl, (Heap.Changes.single (.remove hr)).trans (.single (.turn _ _ _ _)), ?_,
      List.pairwise_singleton _ c, ?_⟩
    · exact .freed c (.nil _ (by simp only [report, map]; omega))
    · intro d hd
      obtain rfl : d = c := List.mem_singleton.mp hd
      exact ⟨Heap.live_iff_mem.mpr hlive, fun hl => hgone (Heap.live_iff_mem.mp hl)⟩
  · cases hb

theorem sheds_release (r : Reclamation) (work : List CellId) : r.Sheds (r.release work) := by
  fun_induction release r work with
  | case1 r => exact .refl r
  | case2 r c work _ ih => exact (sheds_map (r.heap.steady_fault _)).trans ih
  | case3 r c work cell _ _ ih => exact (sheds_map (r.heap.steady_fault _)).trans ih
  | case4 r c work cell _ _ f _ ih => exact (sheds_map (r.heap.steady_fault _)).trans ih
  | case5 r c work cell _ _ buried hb freed ih => exact (sheds_freed hb).trans ih
  | case6 r c work cell _ n _ ih =>
      exact (sheds_map (r.heap.steady_modifyCell c _)).trans ih

theorem sheds_releaseEach (r : Reclamation) (cells : List CellId) :
    r.Sheds (r.releaseEach cells) := by
  induction cells generalizing r with
  | nil => exact .refl r
  | cons c cells ih => exact (r.sheds_release [c]).trans (ih (r.release [c]))

theorem sheds_drain (r : Reclamation) : r.Sheds r.drain := by
  have hempty : r.Sheds (r.map fun h => { h with deferred := [] }) :=
    sheds_map (.single (.turn r.heap r.heap.phase _ r.heap.counters) rfl rfl)
  exact hempty.trans (sheds_releaseEach _ _)

/-- Cells that are swept are not reported one by one. -/
theorem sheds_buryAll (r : Reclamation) (cells : List (CellId × Cell)) :
    r.Sheds (r.buryAll cells) := by
  induction cells generalizing r with
  | nil => exact .refl r
  | cons p cells ih =>
      simp only [buryAll]
      split
      · rename_i r' hb
        refine Sheds.trans ?_ (ih r')
        unfold bury at hb
        split at hb
        · rename_i objects hr
          cases hb
          exact .of_steady (.single (.remove hr) rfl rfl) rfl
        · cases hb
      · rename_i f _
        exact (sheds_map (r.heap.steady_fault (.link f))).trans (ih _)

theorem sheds_sweep (r : Reclamation) : r.Sheds r.sweep.1 := by
  have hcleared : r.Sheds (r.map Heap.clearMarks) :=
    sheds_map (.single (.clearMarks r.heap) rfl rfl)
  exact (hcleared.trans (sheds_buryAll _ _)).trans (sheds_releaseEach _ _)

theorem collects_collect (r : Reclamation) : r.Collects r.collect := by
  have hmarked : r.Sheds { r with
      heap := { { r.heap with phase := .marking }.mark.heap with phase := .sweeping } } := by
    have hphase : r.heap.Steady { r.heap with phase := .marking } :=
      .single (.turn r.heap _ r.heap.deferred r.heap.counters) rfl rfl
    exact .of_steady ((hphase.trans (Heap.steady_mark _)).trans
      (.single (.turn _ _ _ _) rfl rfl)) rfl
  have hswept := hmarked.trans (sheds_sweep _)
  have hreleased :=
    hswept.trans (sheds_releaseEach _ { r.heap with phase := .marking }.mark.pending)
  obtain ⟨freed, hsettled⟩ := hreleased.trans (sheds_drain _)
  generalize hdef : drain _ = settled at hsettled
  -- the threshold is raised over what is left, and then the collection is reported
  have hclosed : ∃ swept traced, settled.Reports
      [.collected r.heap.objects.length r.collect.heap.objects.length swept traced
        r.collect.heap.capacity] r.collect := by
    subst hdef
    refine ⟨_, _, rfl, rfl, ?_, .collected _ _ _ _ (.nil _ (Nat.le_refl _)), .nil,
      fun c hc => by cases hc⟩
    exact (Heap.Changes.single (.raise (Nat.le_max_left _ _))).trans (.single (.turn _ _ _ _))
  obtain ⟨swept, traced, hclosed⟩ := hclosed
  exact ⟨freed, swept, traced, hsettled.trans hclosed⟩

theorem reports_triggered (hover : r.heap.capacity < r.heap.objects.length) :
    r.Reports [.triggered r.heap.objects.length r.heap.capacity]
      (r.report (.triggered r.heap.objects.length r.heap.capacity)) where
  events := rfl
  counters := rfl
  changes := .refl r.heap
  paces := .triggered hover (Nat.le_refl _) (.nil _ (Nat.le_refl _))
  nodup := .nil
  freed c hc := by cases hc

end Steps

end Reclamation

end HybridHeap
