import HybridHeap.Proofs.World.Logs

/-!
One record for all heaps of a world. Every note in it says which heap it is about. The notes
about one heap record the course of that heap, and the events of all notes, in turn, are the
log (`World.Logs.records`). So what a heap has done is a part of what the whole run reports.
-/

namespace HybridHeap

/-- The event that a note tells of. -/
def Note.event? : Note → Option Event
  | placed => none
  | event e => some e

/-- The notes about the heap `i` in a record. -/
def notesOn (i : HeapId) (record : List (HeapId × Note)) : List Note :=
  (record.filter fun p => p.1 = i).map Prod.snd

/-- The events of a record, whatever the heap. -/
def recordedEvents (record : List (HeapId × Note)) : List Event :=
  record.filterMap fun p => p.2.event?

section Notes

variable (record record' : List (HeapId × Note)) (i : HeapId) (notes : List Note)

@[simp]
theorem notesOn_append : notesOn i (record ++ record') = notesOn i record ++ notesOn i record' := by
  rw [notesOn, List.filter_append, List.map_append, notesOn, notesOn]

@[simp]
theorem recordedEvents_append :
    recordedEvents (record ++ record') = recordedEvents record ++ recordedEvents record' :=
  List.filterMap_append

theorem notesOn_self : notesOn i (notes.map (i, ·)) = notes := by
  have hall : ∀ p ∈ notes.map (i, ·), decide (p.1 = i) = true := by
    intro p hp
    obtain ⟨note, -, rfl⟩ := List.mem_map.mp hp
    exact decide_eq_true rfl
  rw [notesOn, List.filter_eq_self.mpr hall, List.map_map]
  exact List.map_id notes

theorem notesOn_of_ne {i j : HeapId} (hij : i ≠ j) : notesOn j (notes.map (i, ·)) = [] := by
  have hnone : ∀ p ∈ notes.map (i, ·), ¬decide (p.1 = j) = true := by
    intro p hp
    obtain ⟨note, -, rfl⟩ := List.mem_map.mp hp
    simpa using hij
  rw [notesOn, List.filter_eq_nil_iff.mpr hnone, List.map_nil]

/-- The events of an act are all that its notes tell of. -/
theorem recordedEvents_notes (r : Reclamation) (placed : Option CellId) :
    recordedEvents ((r.notes placed).map (i, ·)) = r.events.reverse := by
  have hevents : (r.events.reverse.map Note.event).filterMap Note.event? = r.events.reverse := by
    rw [List.filterMap_map]
    exact List.filterMap_some
  rw [recordedEvents, List.filterMap_map]
  show (r.notes placed).filterMap Note.event? = r.events.reverse
  rw [Reclamation.notes, List.filterMap_append, hevents]
  cases placed <;> rfl

end Notes

namespace World

/-- The record of what becomes of the heaps of a world: each of them goes the course that its
notes tell of, and what the world reports on the way are the events on record, as far as they
are not forgotten. -/
structure Records (w : World) (record : List (HeapId × Note)) (w' : World) : Prop where
  events : w'.events.reverse <:+ w.events.reverse ++ recordedEvents record
  course : ∀ i, Option.Rel (fun h h' => h.Course (notesOn i record) h') (w.heap? i) (w'.heap? i)

/-- The record of a world since its heaps were new. It ends with what the world reports, and the
threshold of each heap is what it was at first, or what the collections on record have raised it
to. -/
structure Recorded (w : World) (record : List (HeapId × Note)) : Prop where
  events : w.events.reverse <:+ recordedEvents record
  course : ∀ i h, w.heap? i = some h → (Heap.new h.config).Course (notesOn i record) h
  capacity : ∀ i h, w.heap? i = some h →
    h.capacity = ((notesOn i record).filterMap Note.left?).foldl raised h.config.initialCapacity

variable {P : Permit} {w w' w'' : World} {record record' : List (HeapId × Note)}

namespace Records

/-- Nothing happens to the heaps. -/
theorem of_heaps (hh : w'.heaps = w.heaps) (he : w'.events.reverse <:+ w.events.reverse) :
    w.Records [] w' where
  events := by
    rw [recordedEvents, List.filterMap_nil, List.append_nil]
    exact he
  course i := HeapsTurn.of_heaps (R := fun h h' => h.Course [] h') (fun _ => .refl) hh i

theorem refl (w : World) : w.Records [] w :=
  .of_heaps rfl (List.suffix_refl _)

theorem forget (w : World) : w.Records [] { w with events := [] } :=
  .of_heaps rfl (List.nil_suffix ..)

theorem trans (hr : w.Records record w') (hr' : w'.Records record' w'') :
    w.Records (record ++ record') w'' where
  events := by
    obtain ⟨forgotten, he⟩ := hr.events
    rw [recordedEvents_append, ← List.append_assoc, ← he, List.append_assoc]
    exact hr'.events.trans (List.suffix_append ..)
  course i := by
    rw [notesOn_append]
    exact rel_trans (hr.course i) (hr'.course i) Heap.Course.trans

end Records

/-- A move is on record, with the notes of the act that it is. -/
theorem Move.records (hm : Move P w w') {es : List Event} (he : w'.events = es ++ w.events) :
    ∃ record, recordedEvents record = es.reverse ∧ w.Records record w' := by
  rcases hm.act with hidle | ⟨i, h, placed, r, ha⟩
  · obtain rfl : es = [] := List.append_left_eq_self.mp (he.symm.trans hidle.events)
    exact ⟨[], rfl, .of_heaps hidle.heaps (hidle.events ▸ List.suffix_refl _)⟩
  · obtain rfl := ha.eq_events he
    have hreported : w.events.reverse ++ recordedEvents ((r.notes placed).map (i, ·)) =
        w'.events.reverse := by
      rw [recordedEvents_notes, he, List.reverse_append]
    refine ⟨(r.notes placed).map (i, ·), recordedEvents_notes i r placed, ?_, fun j => ?_⟩
    · exact hreported ▸ List.suffix_refl _
    · by_cases hij : i = j
      · subst hij
        rw [notesOn_self, ha.heap, ha.heap?_self]
        exact .some (.single ha.act)
      · rw [notesOn_of_ne _ hij, ha.heap?_of_ne hij]
        cases w.heap? j with
        | none => exact .none
        | some k => exact .some .refl

/-- What is logged of a sequence of moves is on record. -/
theorem Logs.records {log : List Event} (hl : w.Logs P log w') :
    ∃ record, recordedEvents record = log ∧ w.Records record w' := by
  induction hl with
  | refl => exact ⟨[], rfl, .refl w⟩
  | move _ hm he ih =>
      obtain ⟨record, rfl, hr⟩ := ih
      obtain ⟨record', he', hr'⟩ := hm.records he
      exact ⟨record ++ record', by rw [recordedEvents_append, he'], hr.trans hr'⟩
  | forget _ ih =>
      obtain ⟨record, he, hr⟩ := ih
      have hforgotten := hr.trans (.forget _)
      rw [List.append_nil] at hforgotten
      exact ⟨record, he, hforgotten⟩

theorem Moves.records (hm : Moves P w w') : ∃ record, w.Records record w' := by
  obtain ⟨es, -, hl⟩ := hm.logs
  obtain ⟨record, -, hr⟩ := hl.records
  exact ⟨record, hr⟩

namespace Recorded

theorem new (configs : Array Config) (dropOrder : EnvId → DropOrder) :
    (World.new configs dropOrder).Recorded [] := by
  have hnew : ∀ i h, (World.new configs dropOrder).heap? i = some h → h = Heap.new h.config := by
    intro i h hi
    simp only [heap?, World.new, Array.getElem?_map, Option.map_eq_some_iff] at hi
    obtain ⟨config, -, rfl⟩ := hi
    rfl
  refine ⟨List.suffix_refl _, fun i h hi => ?_, fun i h hi => ?_⟩
  · rw [← hnew i h hi]
    exact .refl
  · exact congrArg Heap.capacity (hnew i h hi)

/-- The record goes on with what becomes of the world. -/
theorem append (hw : w.Recorded record) (hr : w.Records record' w') :
    w'.Recorded (record ++ record') := by
  have hcourse : ∀ i h', w'.heap? i = some h' →
      (Heap.new h'.config).Course (notesOn i (record ++ record')) h' := by
    intro i h' hi'
    have hrel := hr.course i
    rw [hi'] at hrel
    generalize hi : w.heap? i = before at hrel
    cases hrel with
    | @some h _ hc =>
        rw [hc.heeds.config, notesOn_append]
        exact (hw.course i h hi).trans hc
  refine ⟨?_, hcourse, fun i h' hi' => (hcourse i h' hi').regulated.capacity⟩
  obtain ⟨forgotten, he⟩ := hw.events
  rw [recordedEvents_append, ← he, List.append_assoc]
  exact hr.events.trans (List.suffix_append ..)

end Recorded

end World

namespace Moment

theorem Step.records {m m' : Moment} (hs : Step m m') :
    ∃ record, m.world.Records record m'.world := by
  rcases hs.moves with hmoves | hforgotten
  · exact hmoves.records
  · rw [hforgotten]
    exact ⟨[], .forget _⟩

/-- At every moment of a run the world is on record. -/
theorem Reachable.recorded {m : Moment} (hm : m.Reachable) : ∃ record, m.world.Recorded record := by
  induction hm with
  | start configs dropOrder => exact ⟨[], .new configs dropOrder⟩
  | step _ hs ih =>
      obtain ⟨record, hw⟩ := ih
      obtain ⟨record', hr⟩ := hs.records
      exact ⟨record ++ record', hw.append hr⟩

end Moment

end HybridHeap
