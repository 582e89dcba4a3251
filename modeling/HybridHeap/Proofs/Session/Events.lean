import Mathlib.Data.List.Permutation
import HybridHeap.Proofs.Session.History
import HybridHeap.Proofs.Session.Performances
import HybridHeap.Proofs.World.Orderly

/-!
What a script reports accounts for its heaps. The events of the commands of a script, one
command after the other, are the log of all moves that its operations are made of, and they
are in order. A collection that no trigger precedes is reported by an operation that asks for
it.
-/

namespace HybridHeap

/-- What occurs among the values of a list occurs in the value of one of its members. -/
theorem exists_of_flatMap {α β : Type} {f : α → List β} {as : List α} {b : β}
    {pre post : List β} (h : as.flatMap f = pre ++ b :: post) :
    ∃ earlier a later pre' post', as = earlier ++ a :: later ∧ f a = pre' ++ b :: post' ∧
      pre = earlier.flatMap f ++ pre' ∧ post = post' ++ later.flatMap f := by
  induction as generalizing pre with
  | nil => simp at h
  | cons a as ih =>
      rw [List.flatMap_cons] at h
      have hrest : ∀ pre', pre = f a ++ pre' → as.flatMap f = pre' ++ b :: post →
          ∃ earlier a' later pre'' post', a :: as = earlier ++ a' :: later ∧
            f a' = pre'' ++ b :: post' ∧ pre = earlier.flatMap f ++ pre'' ∧
            post = post' ++ later.flatMap f := by
        rintro pre' rfl hrest
        obtain ⟨earlier, a', later, pre'', post', rfl, ha', rfl, rfl⟩ := ih hrest
        exact ⟨a :: earlier, a', later, pre'', post', rfl, ha',
          by rw [List.flatMap_cons, List.append_assoc], rfl⟩
      rcases List.append_eq_append_iff.mp h with
        ⟨pre', hpre, hrest'⟩ | ⟨_ | ⟨b', post'⟩, ha, hrest'⟩
      · exact hrest pre' hpre hrest'
      · exact hrest [] (by rw [ha, List.append_nil, List.append_nil]) hrest'.symm
      · obtain ⟨rfl, rfl⟩ := List.cons.inj hrest'
        exact ⟨[], a, as, pre, post', rfl, ha, rfl, rfl⟩

namespace Session

variable {s s' : Session}

/-- What the steps of a run report is in order. -/
theorem Reachable.orderly_steps (hs : s.Reachable) (listings : Bool) {done : List Step}
    (hdone : ∀ step ∈ done, Orderly step.events) (commands : List Command) :
    Orderly ((s.steps listings done commands).2.flatMap Step.events) := by
  induction commands generalizing s done with
  | nil =>
      rw [Session.steps]
      exact .flatMap fun step hstep => hdone step (List.mem_reverse.mp hstep)
  | cons command commands ih =>
      have hafter : (s.step listings command).1.Reachable := hs.forgetEvents.perform command
      rw [Session.steps]
      refine ih hafter fun step hstep => ?_
      rcases List.mem_cons.mp hstep with rfl | hstep
      · exact Moment.Reachable.orderly hafter.moment
      · exact hdone step hstep

/-- Every cell of a session's world is where its name says. -/
theorem Reachable.numbered (hs : s.Reachable) : s.world.Numbered :=
  fun _ _ hi c hl => hs.moment.balanced.cells _ _ hi c hl

/-- The event `e` of what the operations `ps` report, which comes after `pre` and before `post`,
is the end of a collection that one of them asks for. -/
def AskedFor (ps : List Performance) (pre : List Event) (e : Event) (post : List Event) : Prop :=
  ∃ (earlier : List Performance) (p : Performance) (later : List Performance)
    (pre' post' : List Event), ps = earlier ++ p :: later ∧ p.report = pre' ++ e :: post' ∧
      pre = earlier.flatMap Performance.report ++ pre' ∧
      post = post' ++ later.flatMap Performance.report ∧
      p.session.world.Requested p.permit pre' e post' p.after.world

/-- The log of the operations `ps`, which lead from one session to another, accounts for the
heaps. A cell is logged as freed once for each eager free; the collections and what they have
swept are those of the counters, and each has left what it did not sweep. A trigger is directly
followed by the collection that it starts, and all other collections are asked for by an
operation. If only one heap has counted anything, then the log accounts for that heap. -/
structure EventsAccounted (s : Session) (ps : List Performance) (log : List Event)
    (s' : Session) : Prop where
  reports : log = ps.flatMap Performance.report
  freed : s'.world.total Counters.eagerFrees =
    s.world.total Counters.eagerFrees + (reported log).length
  once : (reported log).Nodup
  collections : s'.world.total Counters.collections =
    s.world.total Counters.collections + (sweeps log).length
  swept : s'.world.total Counters.swept = s.world.total Counters.swept + (sweeps log).sum
  alone : ∀ i h h', s.world.heap? i = some h → s'.world.heap? i = some h' →
    (∀ j k k', j ≠ i → s.world.heap? j = some k → s'.world.heap? j = some k' →
      k'.counters = k.counters) →
    h'.counters.eagerFrees = h.counters.eagerFrees + (reported log).length ∧
      h'.counters.collections = h.counters.collections + (sweeps log).length ∧
      h'.counters.swept = h.counters.swept + (sweeps log).sum
  balance : ∀ before after swept traced capacity : Nat,
    .collected before after swept traced capacity ∈ log → after = before - swept ∧ swept ≤ before
  triggered : ∀ (pre post : List Event) (live limit : Nat),
    log = pre ++ .triggered live limit :: post →
    limit < live ∧ ∃ after swept traced capacity later,
      post = .collected live after swept traced capacity :: later
  requested : ∀ (pre post : List Event) (before after swept traced capacity : Nat),
    log = pre ++ .collected before after swept traced capacity :: post →
    (∃ (earlier : List Event) (live limit : Nat), pre = earlier ++ [.triggered live limit]) ∨
      AskedFor ps pre (.collected before after swept traced capacity) post

theorem events_accounted (hs : s.Reachable) (listings : Bool) (commands : List Command) :
    s.EventsAccounted (s.performancesOfSteps commands)
      ((s.steps listings [] commands).2.flatMap Step.events)
      (s.steps listings [] commands).1 := by
  have hnone : ∀ step ∈ ([] : List Step), Orderly step.events := fun _ hstep => nomatch hstep
  have ho := hs.orderly_steps listings hnone commands
  obtain ⟨he, hl⟩ := s.logs_steps listings [] commands
  rw [List.reverse_nil, List.flatMap_nil, List.nil_append] at he
  rw [← he] at hl
  have ha := hl.accounts hs.numbered
  constructor
  case reports => exact he
  case freed => exact ha.eagerFrees
  case once => exact ha.nodup
  case collections => exact ha.collections
  case swept => exact ha.swept
  case alone => exact fun i h h' hi hi' hrest => ha.alone hl.goes hi hi' hrest
  case balance =>
    intro before after swept traced capacity hm
    have hsum := ho.left_add_swept hm
    omega
  case triggered => exact fun pre post live limit hlog => ho.collected_of_triggered hlog
  case requested =>
    intro pre post before after swept traced capacity hlog
    obtain ⟨earlier, p, later, pre', post', hps, hp, rfl, rfl⟩ := exists_of_flatMap (he ▸ hlog)
    have hlogs := (p.logs (P := p.permit) (fun _ h => h) fun _ h => h).2
    rcases hlogs.of_collected hp with ⟨events, live, limit, freed, rfl⟩ | hrequest
    · -- nothing is freed between the trigger and the report of its collection
      have hcut : earlier.flatMap Performance.report ++
          (events ++ .triggered live limit :: freed.map .freed) =
          (earlier.flatMap Performance.report ++ events) ++
            .triggered live limit :: freed.map .freed := (List.append_assoc ..).symm
      rw [hcut, List.append_assoc, List.cons_append] at hlog
      obtain ⟨-, _, _, _, _, rest, hnext⟩ := ho.collected_of_triggered hlog
      rw [hcut]
      cases freed with
      | nil => exact .inl ⟨_, live, limit, rfl⟩
      | cons c freed => cases hnext
    · exact .inr ⟨earlier, p, later, pre', post', hps, hp, rfl, rfl, hrequest⟩

/-- The second cell exceeds the threshold; the pair goes when it is dropped, and the cell
that it refers to stays through the collection that is requested. -/
theorem events_accounted_pair :
    let s := new [.own { initialCapacity := 1 }]
    let commands : List Command := [.op 0 (.allocate (.scalar .null) false (some "a")),
      .op 0 (.allocate (.pair (.copy "a") .null) false (some "p")), .op 0 (.drop "p"),
      .op 0 (.collect false)]
    let ran := s.steps false [] commands
    ran.2.flatMap Step.events =
        [.triggered 2 1, .collected 2 2 0 3 3, .freed ⟨1, 1⟩, .collected 1 1 0 1 3] ∧
      s.EventsAccounted (s.performancesOfSteps commands) (ran.2.flatMap Step.events) ran.1 := by
  refine ⟨?_, events_accounted (.new _ _) false _⟩
  cbv

end Session

end HybridHeap
