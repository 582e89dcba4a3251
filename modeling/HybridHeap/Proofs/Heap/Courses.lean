import HybridHeap.Proofs.Heap.Reports

/-!
The course of a heap: one act after another, and the record that the acts leave. An act
begins without freeing anything, then gives up references, and may end with a collection,
which is started by the threshold or was asked for (`Heap.Act.outcome`). What is read off
the record of a course is so true of the heap, in whatever state it started.
-/

namespace HybridHeap

/-- What occurs in the reverse of a list and not behind the head is its head. -/
theorem last_of_reverse {α : Type} {a b : α} {l pre post : List α}
    (h : (a :: l).reverse = pre ++ b :: post) (hb : b ∉ l) :
    pre = l.reverse ∧ a = b ∧ post = [] := by
  have hreversed := congrArg List.reverse h
  rw [List.reverse_reverse, List.reverse_append, List.reverse_cons, List.append_assoc,
    List.singleton_append] at hreversed
  cases hpost : post.reverse with
  | nil =>
      rw [hpost, List.nil_append, List.cons.injEq] at hreversed
      exact ⟨by rw [hreversed.2, List.reverse_reverse], hreversed.1,
        List.reverse_eq_nil_iff.mp hpost⟩
  | cons c later =>
      rw [hpost, List.cons_append, List.cons.injEq] at hreversed
      exact absurd (by rw [hreversed.2]; simp) hb

namespace Heap

/-- How an act begins: the new cell is linked, references are counted, and entries go on
or off the root list. -/
structure Begins (h : Heap) (placed : Option CellId) (h₀ : Heap) : Prop where
  capacity : h₀.capacity = h.capacity
  counters : h₀.counters =
    { h.counters with allocations := h.counters.allocations + placed.toList.length }
  size : h₀.objects.length ≤ h.objects.length + placed.toList.length
  live : ∀ c, h₀.Live c → h.Live c ∨ c ∈ placed

/-- How an act on `h` goes on from `h₀`: it frees cells, and then it may collect. -/
inductive Outcome (h : Heap) (asked : Prop) (placed : Option CellId) (h₀ : Heap)
    (r : Reclamation) : Prop
  | shed (hs : h₀.start.Sheds r)
  | triggered {r₁ : Reclamation} (hs : h₀.start.Sheds r₁)
      (hover : r₁.heap.capacity < r₁.heap.objects.length)
      (hc : (r₁.report (.triggered r₁.heap.objects.length r₁.heap.capacity)).Collects r)
  | requested {r₁ : Reclamation} (hs : h₀.start.Sheds r₁) (hc : r₁.Collects r)
      (ha : asked) (hn : placed = none) (he : r = h.collectNow)

variable {h h' h'' h₀ : Heap} {asked : Prop} {placed : Option CellId} {r : Reclamation}

theorem Steady.begins (hs : h.Steady h₀) : h.Begins none h₀ :=
  ⟨hs.capacity, hs.counters, hs.changes.eases.live, fun _ hl => .inl (hs.changes.live hl)⟩

theorem begins_placeOnly (h : Heap) (c : CellId) (v : Value Handle) :
    h.Begins (some c) (h.placeOnly c v).2 := by
  have hrooted : (h.link c v.placed).Steady
      (((h.link c v.placed).register c).1.unrootAll v.anchors) :=
    (steady_register _ c).trans (steady_unrootAll _ _)
  have hlinked : (h.link c v.placed).capacity = h.capacity ∧
      (h.link c v.placed).objects.length ≤ h.objects.length + 1 ∧
      ∀ d, (h.link c v.placed).Live d → h.Live d ∨ d = c := by
    unfold link
    split
    · rename_i objects hp
      refine ⟨rfl, ?_, fun d hd => ?_⟩
      · unfold LinkedMap.pushFront at hp
        split at hp
        · cases hp
        · cases hp
          exact Nat.le_refl _
      · exact (LinkedMap.mem_of_pushFront hp (live_iff_mem.mp hd)).symm.imp live_iff_mem.mpr id
    · exact ⟨rfl, Nat.le_succ _, fun d hd => .inl hd⟩
  obtain ⟨hcapacity, hsize, hlive⟩ := hlinked
  refine ⟨hrooted.capacity.trans hcapacity, h.counters_placeOnly c v,
    Nat.le_trans hrooted.changes.eases.live hsize, fun d hd => ?_⟩
  exact (hlive d (hrooted.changes.live hd)).imp id fun he => congrArg some he.symm

theorem Outcome.collectIfOver {r₁ : Reclamation} (hs : h₀.start.Sheds r₁) :
    Outcome h asked placed h₀ r₁.collectIfOver := by
  simp only [Reclamation.collectIfOver]
  split
  · rename_i hover
    exact .triggered hs hover (Reclamation.collects_collect _)
  · exact .shed hs

theorem sheds_dropAnchor (h : Heap) (r : Root) : (h.unroot r).start.Sheds (h.dropAnchor r) :=
  (Reclamation.sheds_release _ _).trans (Reclamation.sheds_drain _)

theorem sheds_finishWrite (h : Heap) (anchors : List Root) :
    (h.unrootAll anchors).start.Sheds (h.finishWrite anchors) :=
  Reclamation.sheds_drain _

theorem sheds_write {c : CellId} {p : Position} {t : Slot} (hw : h.write c p t = .ok r) :
    ∃ h₀, h.Steady h₀ ∧ h₀.start.Sheds r := by
  simp only [write] at hw
  split at hw
  · cases hw
  · rename_i displaced _
    cases hw
    have hwritten := (h.steady_retainSlot t).trans ((h.retainSlot t).steady_modifyCell c
      fun cell => { cell with value := (h.read c).replace p t })
    exact ⟨_, hwritten.trans (steady_defer _ displaced.toList), sheds_finishWrite _ []⟩

theorem sheds_append {c : CellId} {t : Slot} (hw : h.append c t = .ok r) :
    ∃ h₀, h.Steady h₀ ∧ h₀.start.Sheds r := by
  simp only [append] at hw
  split at hw
  · cases hw
  · rename_i v _
    cases hw
    exact ⟨_, (h.steady_retainSlot t).trans ((h.retainSlot t).steady_modifyCell c
      fun cell => { cell with value := v }), sheds_finishWrite _ []⟩

/-- What an act can do. -/
theorem Act.outcome (ha : h.Act asked placed r) :
    ∃ h₀, h.Begins placed h₀ ∧ Outcome h asked placed h₀ r := by
  cases ha with
  | register c => exact ⟨_, (h.steady_register c).begins, .shed (.refl _)⟩
  | swap c v => exact ⟨_, (h.steady_swap c v).begins, .shed (.refl _)⟩
  | place c v =>
      refine ⟨_, h.begins_placeOnly c v, ?_⟩
      have hs := Reclamation.sheds_drain (h.placeOnly c v).2.start
      rw [place_eq]
      split
      · exact .collectIfOver hs
      · exact .shed hs
  | dropRoot r =>
      refine ⟨_, (h.steady_unroot r).begins, ?_⟩
      have hs := h.sheds_dropAnchor r
      simp only [Heap.dropRoot]
      split
      · exact .collectIfOver hs
      · exact .shed hs
  | dropAnchor r => exact ⟨_, (h.steady_unroot r).begins, .shed (h.sheds_dropAnchor r)⟩
  | work hw =>
      cases hw with
      | finishWrite anchors =>
          exact ⟨_, (h.steady_unrootAll anchors).begins, .shed (h.sheds_finishWrite anchors)⟩
      | write hw =>
          obtain ⟨h₀, hsteady, hs⟩ := sheds_write hw
          exact ⟨h₀, hsteady.begins, .shed hs⟩
      | append hw =>
          obtain ⟨h₀, hsteady, hs⟩ := sheds_append hw
          exact ⟨h₀, hsteady.begins, .shed hs⟩
  | collectNow ha =>
      exact ⟨h, (Steady.refl h).begins,
        .requested (Reclamation.sheds_drain _) (Reclamation.collects_collect _) ha rfl rfl⟩

namespace Outcome

/-- What an act reports is what has happened since its beginning. -/
theorem reports (ho : Outcome h asked placed h₀ r) : h₀.start.Reports r.events r := by
  have hall : ∀ {es}, h₀.start.Reports es r → h₀.start.Reports r.events r := by
    intro es hr
    have he : r.events = es := hr.events.trans (List.append_nil es)
    rwa [he]
  cases ho with
  | shed hs =>
      obtain ⟨freed, hs⟩ := hs
      exact hall hs
  | triggered hs hover hc =>
      obtain ⟨freed, hs⟩ := hs
      obtain ⟨freed', swept, traced, hc⟩ := hc
      exact hall ((hs.trans (Reclamation.reports_triggered hover)).trans hc)
  | requested hs hc _ _ _ =>
      obtain ⟨freed, hs⟩ := hs
      obtain ⟨freed', swept, traced, hc⟩ := hc
      exact hall (hs.trans hc)

/-- A collection is the last thing that an act reports. It was asked for, or was started by
the threshold. -/
theorem of_collected (ho : Outcome h asked placed h₀ r) {before left swept traced capacity : Nat}
    {pre post : List Event}
    (he : r.events.reverse = pre ++ .collected before left swept traced capacity :: post) :
    post = [] ∧ left = r.heap.objects.length ∧ capacity = r.heap.capacity ∧
      (asked ∧ placed = none ∧ r = h.collectNow ∨
        ∃ (earlier : List Event) (live limit : Nat) (freed : List CellId),
          pre = earlier ++ .triggered live limit :: freed.map .freed) := by
  cases ho with
  | shed hs =>
      obtain ⟨freed, hs⟩ := hs
      have hes : r.events = freed.map .freed := hs.events.trans (List.append_nil _)
      have hm : .collected before left swept traced capacity ∈ r.events.reverse := by
        rw [he]
        simp
      simp [hes] at hm
  | @triggered r₁ hs hover hc =>
      obtain ⟨freed, hs⟩ := hs
      obtain ⟨freed', swept', traced', hc⟩ := hc
      have hes := hc.events
      simp only [Reclamation.report, hs.events, start, List.append_nil, List.cons_append] at hes
      rw [hes] at he
      obtain ⟨rfl, hlast, rfl⟩ := last_of_reverse he (by simp)
      cases hlast
      refine ⟨rfl, rfl, rfl, .inr ⟨(freed.map .freed).reverse, r₁.heap.objects.length,
        r₁.heap.capacity, freed'.reverse, ?_⟩⟩
      simp
  | requested hs hc ha hn hr =>
      obtain ⟨freed, hs⟩ := hs
      obtain ⟨freed', swept', traced', hc⟩ := hc
      have hes := hc.events
      simp only [hs.events, start, List.append_nil, List.cons_append] at hes
      rw [hes] at he
      obtain ⟨-, hlast, rfl⟩ := last_of_reverse he (by simp)
      cases hlast
      exact ⟨rfl, rfl, rfl, .inl ⟨ha, hn, hr⟩⟩

end Outcome

end Heap

/-- What an act leaves in the record of a heap. -/
def Reclamation.notes (r : Reclamation) (placed : Option CellId) : List Note :=
  placed.toList.map (fun _ => .placed) ++ r.events.reverse.map .event

namespace Heap

/-- The course of a heap from `h` on, with the record of it, the first note in front. Any act
can follow, a request to collect too. -/
inductive Course (h : Heap) : List Note → Heap → Prop
  | refl : Course h [] h
  | act {notes : List Note} {h' : Heap} {placed : Option CellId} {r : Reclamation}
      (hc : Course h notes h') (ha : h'.Act True placed r) :
      Course h (notes ++ r.notes placed) r.heap

/-- Some course leads from `h` to `h'`. -/
def Goes (h h' : Heap) : Prop :=
  ∃ notes, h.Course notes h'

variable {h h' h'' : Heap} {asked : Prop} {placed : Option CellId} {r : Reclamation}
  {notes notes' : List Note}

/-- The events after a given note of an act are the rest of what it reports. -/
theorem exists_of_notes {e : Event} {pre post : List Note}
    (hn : r.notes placed = pre ++ .event e :: post) :
    ∃ es es', r.events.reverse = es ++ e :: es' ∧ post = es'.map .event := by
  have hevents : ∀ {pre : List Note}, r.events.reverse.map Note.event = pre ++ .event e :: post →
      ∃ es es', r.events.reverse = es ++ e :: es' ∧ post = es'.map .event := by
    intro pre he
    obtain ⟨es, rest, hes, -, hrest⟩ := List.map_eq_append_iff.mp he
    obtain ⟨e', es', rfl, hfirst, hpost⟩ := List.map_eq_cons_iff.mp hrest
    cases hfirst
    exact ⟨es, es', hes, hpost.symm⟩
  cases placed with
  | none => exact hevents hn
  | some c =>
      cases pre with
      | nil => cases hn
      | cons note pre => exact hevents (List.cons.inj hn).2

theorem Act.paces (ha : h.Act asked placed r) :
    Paces h.objects.length h.capacity (r.notes placed) r.heap.objects.length r.heap.capacity := by
  obtain ⟨h₀, hb, ho⟩ := ha.outcome
  have hp := ho.reports.paces
  rw [show h₀.start.heap.capacity = h.capacity from hb.capacity] at hp
  have hsize := hb.size
  cases placed with
  | none => exact hp.mono hsize
  | some c => exact .placed (hp.mono hsize)

theorem left?_length (es : List Event) :
    ((es.reverse.map Note.event).filterMap Note.left?).length = (sweeps es).length := by
  rw [List.map_reverse, List.filterMap_reverse, List.length_reverse, List.filterMap_map]
  induction es with
  | nil => rfl
  | cons e es ih =>
      cases e with
      | freed c => exact ih
      | triggered live capacity => exact ih
      | collected before after swept traced capacity => exact congrArg (· + 1) ih

theorem Act.counters (ha : h.Act asked placed r) :
    r.heap.counters.allocations = h.counters.allocations + (r.notes placed).count .placed ∧
      r.heap.counters.collections =
        h.counters.collections + ((r.notes placed).filterMap Note.left?).length := by
  obtain ⟨h₀, hb, ho⟩ := ha.outcome
  have hcounters := ho.reports.counters
  rw [show h₀.start.heap.counters = _ from hb.counters] at hcounters
  have hevents : (r.events.reverse.map Note.event).count .placed = 0 :=
    List.count_eq_zero.mpr (by simp)
  have hleft := left?_length r.events
  rw [hcounters, Reclamation.notes, List.count_append, hevents, List.filterMap_append,
    List.length_append, hleft]
  cases placed with
  | none => exact ⟨rfl, by simp [Counters.after]⟩
  | some c => exact ⟨rfl, by simp [Counters.after, Note.left?]⟩

namespace Course

theorem single (ha : h.Act asked placed r) : h.Course (r.notes placed) r.heap :=
  .act .refl (ha.mono fun _ => trivial)

theorem trans (hc : h.Course notes h') (hc' : h'.Course notes' h'') :
    h.Course (notes ++ notes') h'' := by
  induction hc' with
  | refl =>
      rw [List.append_nil]
      exact hc
  | act _ ha ih =>
      rw [← List.append_assoc]
      exact ih.act ha

theorem heeds (hc : h.Course notes h') : h.Heeds h' := by
  induction hc with
  | refl => exact .refl h
  | act _ ha ih => exact ih.trans ha.heeds

theorem paces (hc : h.Course notes h') :
    Paces h.objects.length h.capacity notes h'.objects.length h'.capacity := by
  induction hc with
  | refl => exact .nil _ (Nat.le_refl _)
  | act _ ha ih => exact ih.append ha.paces

theorem counters (hc : h.Course notes h') :
    h'.counters.allocations = h.counters.allocations + notes.count .placed ∧
      h'.counters.collections =
        h.counters.collections + (notes.filterMap Note.left?).length := by
  induction hc with
  | refl => exact ⟨rfl, rfl⟩
  | act _ ha ih =>
      obtain ⟨hplaced, hcollected⟩ := ha.counters
      rw [hplaced, hcollected, ih.1, ih.2, List.count_append, List.filterMap_append,
        List.length_append, Nat.add_assoc, Nat.add_assoc]
      exact ⟨rfl, rfl⟩

/-- A collection ends an act, so the heap can be looked at right after it. -/
theorem finished (hc : h.Course notes h') {pre post : List Note}
    {before left swept traced capacity : Nat}
    (hn : notes = pre ++ .event (.collected before left swept traced capacity) :: post) :
    ∃ h₁, h.Course (pre ++ [.event (.collected before left swept traced capacity)]) h₁ ∧
      h₁.Course post h' ∧ h₁.objects.length = left ∧ h₁.capacity = capacity := by
  induction hc generalizing post with
  | refl => simp at hn
  | @act notes h' placed r hc ha ih =>
      have hnow : ∀ {a : List Note},
          r.notes placed = a ++ .event (.collected before left swept traced capacity) :: post →
            post = [] ∧ r.heap.objects.length = left ∧ r.heap.capacity = capacity := by
        intro a ha'
        obtain ⟨es, es', hes, rfl⟩ := exists_of_notes ha'
        obtain ⟨h₀, -, ho⟩ := ha.outcome
        obtain ⟨rfl, rfl, rfl, -⟩ := ho.of_collected hes
        exact ⟨rfl, rfl, rfl⟩
      have hend : post = [] → r.heap.objects.length = left → r.heap.capacity = capacity →
          ∃ h₁, h.Course (pre ++ [.event (.collected before left swept traced capacity)]) h₁ ∧
            h₁.Course post r.heap ∧ h₁.objects.length = left ∧ h₁.capacity = capacity := by
        rintro rfl hleft hcapacity
        rw [← hn]
        exact ⟨r.heap, hc.act ha, .refl, hleft, hcapacity⟩
      rcases List.append_eq_append_iff.mp hn with ⟨a, rfl, hlast⟩ | ⟨a, rfl, hrest⟩
      · obtain ⟨hpost, hleft, hcapacity⟩ := hnow hlast
        exact hend hpost hleft hcapacity
      · cases a with
        | nil =>
            obtain ⟨hpost, hleft, hcapacity⟩ := hnow (a := []) hrest.symm
            exact hend hpost hleft hcapacity
        | cons note a =>
            obtain ⟨rfl, rfl⟩ := List.cons.inj hrest
            obtain ⟨h₁, hfirst, hsecond, hleft, hcapacity⟩ := ih rfl
            exact ⟨h₁, hfirst, hsecond.act ha, hleft, hcapacity⟩

end Course

theorem Goes.refl (h : Heap) : h.Goes h :=
  ⟨[], .refl⟩

theorem Goes.trans (hg : h.Goes h') (hg' : h'.Goes h'') : h.Goes h'' := by
  obtain ⟨notes, hc⟩ := hg
  obtain ⟨notes', hc'⟩ := hg'
  exact ⟨notes ++ notes', hc.trans hc'⟩

theorem Goes.heeds (hg : h.Goes h') : h.Heeds h' := by
  obtain ⟨notes, hc⟩ := hg
  exact hc.heeds

theorem Act.goes (ha : h.Act asked placed r) : h.Goes r.heap :=
  ⟨_, .single ha⟩

/-- What the record of a course says about the threshold. It was raised by the collections
and by nothing else, to one and a half times the number of cells that each of them has left
on the heap. If the next collection after one of them is started by the threshold, then more
cells were placed in between than there was room for. -/
structure Regulated (h : Heap) (notes : List Note) (h' : Heap) : Prop where
  capacity : h'.capacity = (notes.filterMap Note.left?).foldl raised h.capacity
  monotone : h.capacity ≤ h'.capacity
  allocations : h'.counters.allocations = h.counters.allocations + notes.count .placed
  collections : h'.counters.collections =
    h.counters.collections + (notes.filterMap Note.left?).length
  finished : ∀ (pre post : List Note) (before left swept traced capacity : Nat),
    notes = pre ++ .event (.collected before left swept traced capacity) :: post →
    ∃ h₁, h.Course (pre ++ [.event (.collected before left swept traced capacity)]) h₁ ∧
      h₁.Course post h' ∧ h₁.objects.length = left ∧ h₁.capacity = capacity
  spaced : ∀ (pre mid post : List Note) (before left swept traced capacity live limit : Nat),
    notes = pre ++ .event (.collected before left swept traced capacity) ::
      (mid ++ .event (.triggered live limit) :: post) →
    mid.filterMap Note.left? = [] →
    capacity - left + 1 ≤ mid.count .placed ∧ left / 2 + 1 ≤ mid.count .placed

theorem Course.regulated (hc : h.Course notes h') : h.Regulated notes h' where
  capacity := hc.paces.capacity_eq
  monotone := hc.paces.capacity_le
  allocations := hc.counters.1
  collections := hc.counters.2
  finished pre post before left swept traced capacity hn := hc.finished hn
  spaced pre mid post before left swept traced capacity live limit hn hnone := by
    have hp := hc.paces
    rw [hn] at hp
    obtain ⟨n₁, k₁, -, hrest⟩ := hp.split
    obtain ⟨hraised, hplaced⟩ := hrest.spaced hnone
    omega

end Heap

end HybridHeap
