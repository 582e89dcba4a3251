import Mathlib.Data.List.Permutation
import HybridHeap.Proofs.Session.History
import HybridHeap.Proofs.Session.Performances
import HybridHeap.Proofs.World.Records

/-!
The thresholds of a script's heaps. One record tells of all heaps, operation by operation, and
its events are what the run reports. From the notes on one heap the record says exactly where
its threshold is and how far apart the collections are that it starts. Nothing else that a
script does comes into it.
-/

namespace HybridHeap

/-- The record of one operation: its events are those that the operation reports. -/
structure Performance.RecordedBy (p : Performance) (record : List (HeapId × Note)) : Prop where
  report : recordedEvents record = p.report
  records : p.session.world.Records record p.after.world

namespace Session

variable {s s' : Session}

theorem Leads.records (hl : s.Leads s') : ∃ record, s.world.Records record s'.world :=
  hl.lift (R := fun w w' => ∃ record, w.Records record w')
    (fun ⟨record, hr⟩ ⟨record', hr'⟩ => ⟨record ++ record', hr.trans hr'⟩)
    World.Moves.records fun w => ⟨[], .forget w⟩

/-- The records of the operations of a run, one after the other, record the run. -/
theorem Performs.records {ps : List Performance} (hp : s.Performs ps s') :
    ∃ records, List.Forall₂ Performance.RecordedBy ps records ∧
      s.world.Records records.flatten s'.world := by
  induction hp with
  | nil s => exact ⟨[], .nil, .refl _⟩
  | @cons p ps s' _ ih =>
      obtain ⟨-, hl⟩ := p.logs (P := .all) (fun _ _ => trivial) fun _ _ => trivial
      obtain ⟨record, he, hr⟩ := hl.records
      obtain ⟨records, hall, hrest⟩ := ih
      exact ⟨record :: records, .cons ⟨he, hr⟩ hall, hr.trans hrest⟩

theorem records_steps (s : Session) (listings : Bool) (done : List Step)
    (commands : List Command) :
    ∃ records, List.Forall₂ Performance.RecordedBy (s.performancesOfSteps commands) records ∧
      s.world.Records records.flatten (s.steps listings done commands).1.world := by
  induction commands generalizing s done with
  | nil =>
      rw [Session.steps]
      exact ⟨[], .nil, .refl _⟩
  | cons command commands ih =>
      obtain ⟨records, hall, hr⟩ :=
        (performs_perform (s.onWorld fun w => { w with events := [] }) command).records
      obtain ⟨records', hall', hr'⟩ :=
        ih (s.step listings command).1 ((s.step listings command).2 :: done)
      refine ⟨records ++ records', List.rel_append hall hall', ?_⟩
      rw [Session.steps, List.flatten_append]
      exact ((World.Records.forget s.world).trans hr).trans hr'

/-- The events of the records are what the operations report, in turn. -/
theorem recordedEvents_flatten {ps : List Performance} {records : List (List (HeapId × Note))}
    (hall : List.Forall₂ Performance.RecordedBy ps records) :
    recordedEvents records.flatten = ps.flatMap Performance.report := by
  induction hall with
  | nil => rfl
  | cons hp _ ih =>
      rw [List.flatten_cons, List.flatMap_cons, recordedEvents_append, hp.report, ih]

/-- The records of the operations `ps`, which lead from one session to another, and the log of
what they report. One after the other they record what becomes of the heaps, and so they continue
the record that there was. -/
structure RunRecorded (s : Session) (ps : List Performance) (log : List Event)
    (records : List (List (HeapId × Note))) (s' : Session) : Prop where
  operations : List.Forall₂ Performance.RecordedBy ps records
  events : recordedEvents records.flatten = log
  whole : s.world.Records records.flatten s'.world
  continues : ∀ record, s.world.Recorded record →
    s'.world.Recorded (record ++ records.flatten)

/-- The thresholds of the heaps of a script. One record tells of all heaps since they were new,
between operations and at every moment in the course of one, and the threshold of each heap is
what it was at first, or what the collections on record have raised it to. The record is empty
when the script begins, and goes on with whatever the script does. For commands it is put
together from the records of their operations, and its events are those of the steps. Whatever
the record of a course is, it regulates the threshold. -/
structure CapacityRegulated (s : Session) : Prop where
  begun : ∀ choices dropOrder, s = new choices dropOrder → s.world.Recorded []
  recorded : ∃ record, s.world.Recorded record
  always : ∀ m : Moment, m.Reachable → ∃ record, m.world.Recorded record
  onward : ∀ s' : Session, s.Leads s' → ∃ record', s.world.Records record' s'.world ∧
    ∀ record, s.world.Recorded record → s'.world.Recorded (record ++ record')
  performed : ∀ (listings : Bool) (commands : List Command), ∃ records,
    s.RunRecorded (s.performancesOfSteps commands)
      ((s.steps listings [] commands).2.flatMap Step.events) records
      (s.steps listings [] commands).1
  regulated : ∀ (h h' : Heap) (notes : List Note), h.Course notes h' → h.Regulated notes h'

theorem capacity_regulated (hs : s.Reachable) : s.CapacityRegulated where
  begun := by
    rintro choices dropOrder rfl
    exact .new _ dropOrder
  recorded := hs.moment.recorded
  always _ hm := hm.recorded
  onward s' hl := by
    obtain ⟨record', hr⟩ := hl.records
    exact ⟨record', hr, fun record hw => hw.append hr⟩
  performed listings commands := by
    obtain ⟨records, hall, hr⟩ := s.records_steps listings [] commands
    obtain ⟨he, -⟩ := s.logs_steps listings [] commands
    refine ⟨records, hall, ?_, hr, fun record hw => hw.append hr⟩
    rw [recordedEvents_flatten hall, he, List.reverse_nil, List.flatMap_nil, List.nil_append]
  regulated _ _ _ hc := hc.regulated

/-- A heap without capacity collects for its first cell and for its second. With the third
it is full, and the fourth makes it collect again. -/
theorem capacity_regulated_empty :
    let s := ((["a", "b", "c", "d"].map fun name =>
      Op.allocate (.scalar .null) false (some name)).foldl
        (fun s op => (s.performOp 1 op).1) (new [.own { initialCapacity := 0 }]))
    (s.world.heap? 1).map Heap.stats =
      some { counters := { allocations := 4, collections := 3 }, liveObjects := 4, roots := 4,
             capacity := 6 } ∧ s.CapacityRegulated := by
  refine ⟨?_, capacity_regulated (.op (.op (.op (.op (.new _ _) 1 _) 1 _) 1 _) 1 _)⟩
  cbv

end Session

end HybridHeap
