import HybridHeap.Script.Perform

/-!
Running a script and reporting on it. When the commands are done, everything the
script still owns is dropped, and then every heap is collected.
-/

namespace HybridHeap

/-- The live cells and the roots of each heap. -/
structure Listing where
  objects : List (List CellInfo)
  roots : List (List CellId)

/-- What is reported after one command, its events from oldest to newest. -/
structure Step where
  answer : Answer
  stats : List Stats
  events : List Event
  listing : Option Listing

/-- The report on a script: its steps, the heaps after the last of them, and the
counters after everything was dropped and after the final collections. -/
structure Report where
  steps : List Step
  listing : Listing
  dropped : List Stats
  collected : List Stats

namespace Session

def listing (s : Session) : Listing :=
  { objects := s.heaps.toList.map s.objects, roots := s.heaps.toList.map s.roots }

/-- Perform one command, with the events of this command only. -/
def step (s : Session) (listings : Bool) (c : Command) : Session × Step :=
  let (s, answer) := (s.onWorld fun w => { w with events := [] }).perform c
  (s,
    { answer, stats := s.stats, events := s.world.events.reverse,
      listing := if listings then some s.listing else none })

/-- Perform commands in order; the steps before them are given from last to first. -/
def steps (s : Session) (listings : Bool) (done : List Step) : List Command → Session × List Step
  | [] => (s, done.reverse)
  | c :: cs =>
    let (s, step) := s.step listings c
    s.steps listings (step :: done) cs

/-- Drop everything: values kept off the heaps, then registers, then scopes, each in
the order of the names. -/
def dropEverything (s : Session) : Session :=
  let world := s.held.values.foldl World.discard s.world
  let world := world.dropAll s.registers.values
  let world := s.scopes.values.foldl World.leaveEnv world
  { s with world, registers := ∅, held := ∅, scopes := ∅ }

def collectEverything (s : Session) : Session :=
  s.onWorld fun w => s.heaps.toList.foldl World.collectNow w

end Session

/-- Run a script from the beginning, with some order in which each environment drops its
variables when it is destroyed. -/
def Script.run (script : Script) (dropOrder : EnvId → DropOrder := fun _ => .byName) : Report :=
  let (ran, steps) := (Session.new script.heaps dropOrder).steps script.listings []
    script.commands
  let dropped := ran.dropEverything
  let collected := dropped.collectEverything
  { steps, listing := ran.listing, dropped := dropped.stats, collected := collected.stats }

end HybridHeap
