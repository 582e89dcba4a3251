import HybridHeap.Proofs.Session.Moves
import HybridHeap.Proofs.World.Logs

/-!
The operations of a run one by one, each with the session that performs it. A command is
performed operation by operation (`Session.performs_perform`), rounds included, and what is
reported in its course is what its operations report, in turn.
-/

namespace HybridHeap

/-- An operation on the heap `heap` in the course of a run, with the session that performs it. -/
structure Performance where
  session : Session
  heap : HeapId
  op : Op

namespace Performance

/-- The session after the operation. -/
def after (p : Performance) : Session :=
  (p.session.performOp p.heap p.op).1

/-- What the operation reports, the first event in front. -/
def report (p : Performance) : List Event :=
  p.after.world.events.reverse.drop p.session.world.events.length

/-- What the operation may do to the heaps. -/
def permit (p : Performance) : Permit :=
  { works := p.op.Works p.session p.heap, collects := p.op.Asks p.session p.heap }

end Performance

namespace Session

mutual

/-- The operations of a command. -/
def performances (s : Session) : Command → List Performance
  | .op index op => [{ session := s, heap := (s.heaps[index]?).getD sharedHeap, op }]
  | .rounds rounds => s.performancesOfRounds rounds

def performancesOfRounds (s : Session) : List (List Command) → List Performance
  | [] => []
  | round :: rounds =>
    s.performancesOfRound round ++
      (round.foldl (fun s c => (s.perform c).1) s).performancesOfRounds rounds

def performancesOfRound (s : Session) : List Command → List Performance
  | [] => []
  | c :: cs => s.performances c ++ (s.perform c).1.performancesOfRound cs

end

/-- The operations of commands that are steps, each of which starts without events. -/
def performancesOfSteps (s : Session) : List Command → List Performance
  | [] => []
  | c :: cs =>
    let s := s.onWorld fun w => { w with events := [] }
    s.performances c ++ (s.perform c).1.performancesOfSteps cs

/-- From session to session by one operation after the other. -/
inductive Performs : Session → List Performance → Session → Prop
  | nil (s : Session) : Performs s [] s
  | cons {p : Performance} {ps : List Performance} {s' : Session}
      (hp : Performs p.after ps s') : Performs p.session (p :: ps) s'

theorem Performs.append {s s' s'' : Session} {ps ps' : List Performance} (hp : s.Performs ps s')
    (hp' : s'.Performs ps' s'') : s.Performs (ps ++ ps') s'' := by
  induction hp with
  | nil s => exact hp'
  | cons _ ih => exact .cons (ih hp')

/-- What is counted in a round does not matter to the session. -/
theorem performRound_fst (s : Session) (info : RoundsInfo) (commands : List Command) :
    (s.performRound info commands).1 = commands.foldl (fun s c => (s.perform c).1) s := by
  induction commands generalizing s info with
  | nil => rw [performRound, List.foldl_nil]
  | cons command commands ih =>
      rw [performRound, List.foldl_cons]
      generalize s.perform command = out
      obtain ⟨s', answer⟩ := out
      cases answer with
      | failure f => exact ih s' _
      | _ => exact ih s' info

mutual

theorem performs_perform (s : Session) (command : Command) :
    s.Performs (s.performances command) (s.perform command).1 := by
  cases command with
  | op index op =>
      rw [performances, perform]
      exact .cons (p := { session := s, heap := (s.heaps[index]?).getD sharedHeap, op }) (.nil _)
  | rounds rounds =>
      rw [performances, perform]
      exact s.performs_performRounds 0 _ rounds

theorem performs_performRounds (s : Session) (number : Nat) (info : RoundsInfo)
    (rounds : List (List Command)) :
    s.Performs (s.performancesOfRounds rounds) (s.performRounds number info rounds).1 := by
  cases rounds with
  | nil =>
      rw [performancesOfRounds, performRounds]
      exact .nil s
  | cons round rounds =>
      have hround := s.performs_performRound info round
      rw [performancesOfRounds, performRounds, ← s.performRound_fst info round]
      exact hround.append (performs_performRounds _ (number + 1) _ rounds)

theorem performs_performRound (s : Session) (info : RoundsInfo) (commands : List Command) :
    s.Performs (s.performancesOfRound commands) (s.performRound info commands).1 := by
  cases commands with
  | nil =>
      rw [performancesOfRound, performRound]
      exact .nil s
  | cons command commands =>
      have hfirst := s.performs_perform command
      rw [performancesOfRound, performRound]
      generalize s.perform command = out at hfirst ⊢
      obtain ⟨s', answer⟩ := out
      cases answer with
      | failure f => exact hfirst.append (s'.performs_performRound _ commands)
      | _ => exact hfirst.append (s'.performs_performRound info commands)

end

end Session

namespace Performance

/-- What an operation reports is added to the events, and it is the log of the moves that the
operation is made of. -/
theorem logs (p : Performance) {P : Permit}
    (hw : ∀ j, p.op.Works p.session p.heap j → P.works j)
    (ha : ∀ j, p.op.Asks p.session p.heap j → P.collects j) :
    p.after.world.events.reverse = p.session.world.events.reverse ++ p.report ∧
      p.session.world.Logs P p.report p.after.world := by
  have hmoves : World.Moves P p.session.world p.after.world :=
    p.session.moves_performOp p.heap hw ha
  obtain ⟨es, he, hl⟩ := hmoves.logs
  have hreport : p.report = es.reverse := by
    rw [report, he, List.reverse_append]
    exact List.drop_left' List.length_reverse
  rw [hreport, he, List.reverse_append]
  exact ⟨rfl, hl⟩

end Performance

namespace Session

variable {s s' : Session} {ps : List Performance}

theorem Performs.logs (hp : s.Performs ps s') :
    s'.world.events.reverse = s.world.events.reverse ++ ps.flatMap Performance.report ∧
      s.world.Logs .all (ps.flatMap Performance.report) s'.world := by
  induction hp with
  | nil s => exact ⟨(List.append_nil _).symm, .refl⟩
  | @cons p ps s' _ ih =>
      obtain ⟨he, hl⟩ := p.logs (P := .all) (fun _ _ => trivial) fun _ _ => trivial
      obtain ⟨he', hl'⟩ := ih
      rw [List.flatMap_cons]
      exact ⟨by rw [he', he, List.append_assoc], hl.trans hl'⟩

/-- A step reports what the operations of its command report. -/
theorem step_events (s : Session) (listings : Bool) (command : Command) :
    (s.step listings command).2.events =
      ((s.onWorld fun w => { w with events := [] }).performances command).flatMap
        Performance.report :=
  (performs_perform _ command).logs.1

/-- The steps of a run report what its operations report, and their events are logged. -/
theorem logs_steps (s : Session) (listings : Bool) (done : List Step) (commands : List Command) :
    (s.steps listings done commands).2.flatMap Step.events =
        done.reverse.flatMap Step.events ++
          (s.performancesOfSteps commands).flatMap Performance.report ∧
      s.world.Logs .all ((s.performancesOfSteps commands).flatMap Performance.report)
        (s.steps listings done commands).1.world := by
  induction commands generalizing s done with
  | nil =>
      rw [Session.steps]
      exact ⟨(List.append_nil _).symm, .refl⟩
  | cons command commands ih =>
      obtain ⟨he, hl⟩ := ih (s.step listings command).1 ((s.step listings command).2 :: done)
      have hfirst := (performs_perform (s.onWorld fun w => { w with events := [] }) command).logs.2
      rw [Session.steps, performancesOfSteps, List.flatMap_append]
      refine ⟨?_, ((World.Logs.refl.forget (w := s.world)).trans hfirst).trans hl⟩
      rw [List.reverse_cons, List.flatMap_append, List.append_assoc, List.flatMap_singleton,
        step_events] at he
      exact he

end Session

end HybridHeap
