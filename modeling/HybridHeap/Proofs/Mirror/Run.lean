import HybridHeap.Proofs.Mirror.Perform

/-!
Memory management is transparent: what a script can see does not depend on it. The
answers of a run are those of a store that never frees anything, whatever the heaps'
capacities and triggers are and whenever collections take place.
-/

namespace HybridHeap

open Unmanaged (Store)

/-- What rounds report, without the statistics. -/
def RoundsInfo.visible (info : RoundsInfo) : RoundsInfo :=
  { info with collected := [] }

namespace Session

variable {s : Session} {st : Store}

/-- Sessions that own what their registers hold, with reports that look the same. -/
def Reports (p : Session × RoundsInfo) (q : Unmanaged.Session × RoundsInfo) : Prop :=
  ∃ st, q = (p.1.bare st, p.2.visible) ∧ p.1.Mirrors [] st

mutual

theorem Mirrors.perform {s : Session} {st : Store} (hm : s.Mirrors [] st) (command : Command) :
    Answers (s.perform command) ((s.bare st).perform command) := by
  cases command with
  | op index op =>
      rw [Session.perform, Unmanaged.Session.perform]
      exact hm.performOp _ op
  | rounds rounds =>
      obtain ⟨st', he, hm'⟩ :=
        hm.performRounds 0 { failures := 0, first := none, collected := [] } rounds
      rw [Session.perform, Unmanaged.Session.perform]
      exact ⟨st', congrArg (fun q => (q.1, Answer.rounds q.2)) he, hm'⟩

theorem Mirrors.performRounds {s : Session} {st : Store} (hm : s.Mirrors [] st) (number : Nat)
    (info : RoundsInfo) (rounds : List (List Command)) :
    Reports (s.performRounds number info rounds)
      ((s.bare st).performRounds info.visible rounds) := by
  cases rounds with
  | nil =>
      rw [Session.performRounds, Unmanaged.Session.performRounds]
      exact ⟨st, rfl, hm⟩
  | cons round rounds =>
      obtain ⟨st', he, hm'⟩ := hm.performRound info round
      rw [Session.performRounds, Unmanaged.Session.performRounds, he]
      dsimp only
      -- statistics that may be added to the report are not to be seen
      split
      · exact hm'.performRounds (number + 1) _ rounds
      · exact hm'.performRounds (number + 1) _ rounds

theorem Mirrors.performRound {s : Session} {st : Store} (hm : s.Mirrors [] st)
    (info : RoundsInfo) (commands : List Command) :
    Reports (s.performRound info commands)
      ((s.bare st).performRound info.visible commands) := by
  cases commands with
  | nil =>
      rw [Session.performRound, Unmanaged.Session.performRound]
      exact ⟨st, rfl, hm⟩
  | cons command commands =>
      obtain ⟨st', he, hm'⟩ := hm.perform command
      rw [Session.performRound, Unmanaged.Session.performRound, he]
      generalize s.perform command = out at hm' ⊢
      obtain ⟨s', answer⟩ := out
      cases answer with
      | failure f => exact hm'.performRound _ commands
      | _ => exact hm'.performRound info commands

end

/-- A script starts with empty registers, and a store has what empty heaps have. -/
theorem mirrors_new (choices : List HeapChoice) (dropOrder : EnvId → DropOrder) :
    ∃ st, Unmanaged.Session.new choices = (Session.new choices dropOrder).bare st ∧
      (Session.new choices dropOrder).Mirrors [] st := by
  refine ⟨_, ?_, Mirrored.start _ dropOrder⟩
  rfl

/-- Forgetting the events of earlier commands. -/
theorem Mirrors.forgetEvents (hm : s.Mirrors [] st) :
    (s.onWorld fun w => { w with events := [] }).Mirrors [] st :=
  ⟨hm.reached.step .forgetEvents, hm.agrees.configs, hm.agrees.cells, hm.agrees.scopes,
    hm.agrees.nextCell, hm.agrees.nextEnv⟩

theorem Mirrors.steps (hm : s.Mirrors [] st) (listings : Bool) (done : List Step)
    (commands : List Command) :
    (s.steps listings done commands).2.map (fun step => step.answer.visible) =
      done.reverse.map (fun step => step.answer.visible) ++ (s.bare st).answers commands := by
  induction commands generalizing s st done with
  | nil =>
      rw [Session.steps, Unmanaged.Session.answers, List.append_nil]
  | cons command commands ih =>
      obtain ⟨st', he, hm'⟩ := hm.forgetEvents.perform command
      change (s.bare st).perform command = _ at he
      rw [Session.steps, Unmanaged.Session.answers, he]
      refine (ih hm' _).trans ?_
      rw [List.reverse_cons, List.map_append, List.append_assoc]
      rfl

end Session

/-- Every answer of a script, as far as it is about values and not about the state of a
heap, is that of a machine that never frees a cell or a scope and has no counts, roots,
marks or thresholds, whatever the order in which environments drop their variables. -/
theorem answers_eq_unmanaged (script : Script) (dropOrder : EnvId → DropOrder) :
    (script.run dropOrder).steps.map (fun step => step.answer.visible) =
      Unmanaged.answers script := by
  obtain ⟨st, he, hm⟩ := Session.mirrors_new script.heaps dropOrder
  have hsteps := hm.steps script.listings [] script.commands
  rw [List.reverse_nil, List.map_nil, List.nil_append] at hsteps
  rw [Unmanaged.answers, he]
  exact hsteps

end HybridHeap
