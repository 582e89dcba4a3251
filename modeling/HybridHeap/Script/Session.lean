import HybridHeap.Heap.Preorder
import HybridHeap.Script.Answer
import HybridHeap.Script.Op
import HybridHeap.World.Evaluate
import HybridHeap.World.Printed

/-!
The state of a running script: a world and the script's registers. Whatever an
operation takes out of a register it hands over or drops.
-/

namespace HybridHeap

/-- The heap that all programs share comes first in every world. -/
def sharedHeap : HeapId := 0

/-- How many steps one operation may evaluate for, more than any that ends in
practice. -/
def evaluationSteps : Nat := 1000000000000

/-- `heaps` lists the heaps by their place in the script. -/
structure Session where
  world : World
  heaps : Array HeapId
  registers : Std.ExtTreeMap String Handle
  held : Std.ExtTreeMap String (Value Handle)
  scopes : Std.ExtTreeMap String EnvId

namespace Session

/-- A session on the given heaps, or on one heap of the default configuration if
none are given. -/
def new (choices : List HeapChoice) (dropOrder : EnvId → DropOrder := fun _ => .byName) :
    Session :=
  let choices := if choices.isEmpty then [.own {}] else choices
  let (configs, heaps) := choices.foldl
    (fun (configs, heaps) choice =>
      match choice with
      | .own config => (configs.push config, heaps.push configs.size)
      | .shared => (configs, heaps.push sharedHeap))
    (#[{}], #[])
  { world := .new configs dropOrder, heaps, registers := ∅, held := ∅, scopes := ∅ }

def onWorld (s : Session) (f : World → World) : Session :=
  { s with world := f s.world }

/-- Go on with the world of an outcome. -/
def lift {α : Type} (s : Session) (outcome : World × α) : Session × α :=
  ({ s with world := outcome.1 }, outcome.2)

/-- The handle in a register; a register that does not exist reads as null. -/
def handle (s : Session) (name : String) : Handle :=
  (s.registers[name]?).getD none

def take (s : Session) (name : String) : Session × Handle :=
  ({ s with registers := s.registers.erase name }, s.handle name)

/-- Store a handle and drop what the register had before; without a register drop
the handle itself. -/
def store (s : Session) (dest : Option String) (h : Handle) : Session :=
  match dest with
  | none => s.onWorld (·.drop h)
  | some name =>
    let previous := s.handle name
    { s with registers := s.registers.insert name h }.onWorld (·.drop previous)

/-- Store a share of an environment and give up the one that was there. -/
def storeScope (s : Session) (dest : Option String) (e : EnvId) : Session :=
  match dest with
  | none => s.onWorld (·.leaveEnv e)
  | some name =>
    let previous := s.scopes[name]?
    let stored := { s with scopes := s.scopes.insert name e }
    match previous with
    | none => stored
    | some p => stored.onWorld (·.leaveEnv p)

mutual

/-- Obtain a handle. -/
def resolve (s : Session) (i : HeapId) : Operand → Session × Except Failure Handle
  | .null => (s, .ok none)
  | .copy name =>
    let (s, h) := s.lift (s.world.clone (s.handle name))
    (s, .ok h)
  | .move name =>
    let (s, h) := s.take name
    (s, .ok h)
  | .fresh d =>
    match s.build i d with
    | (s, .ok v) => s.lift (s.world.allocate i v)
    | (s, .error f) => (s, .error f)
  | .list items =>
    match s.resolveAll i [] items with
    | (s, .ok hs) => s.lift (s.world.list i hs)
    | (s, .error f) => (s, .error f)

/-- Obtain handles from left to right. On a failure those obtained so far, which
are given from last to first, are dropped in order. -/
def resolveAll (s : Session) (i : HeapId) (done : List Handle) :
    List Operand → Session × Except Failure (List Handle)
  | [] => (s, .ok done.reverse)
  | operand :: operands =>
    match s.resolve i operand with
    | (s, .ok h) => s.resolveAll i (h :: done) operands
    | (s, .error f) => (s.onWorld (·.dropAll done.reverse), .error f)

/-- Build a value off the heap. -/
def build (s : Session) (i : HeapId) : Draft → Session × Except Failure (Value Handle)
  | .scalar v => (s, .ok (.scalar v))
  | .pair first second =>
    match s.resolve i first with
    | (s, .error f) => (s, .error f)
    | (s, .ok a) =>
      match s.resolve i second with
      | (s, .error f) => (s.onWorld (·.drop a), .error f)
      | (s, .ok b) => (s, .ok (.pair a b))
  | .vector items =>
    match s.resolveAll i [] items with
    | (s, .error f) => (s, .error f)
    | (s, .ok hs) => (s, .ok (.vector hs.toArray))
  | .closure code scope =>
    match s.scopes[scope]? with
    | none => (s, .error (.missingScope scope))
    | some e => (s.onWorld (·.shareEnv e), .ok (.closure code e))
  | .held name =>
    ({ s with held := s.held.erase name }, .ok ((s.held[name]?).getD .null))

end

/-- A handle as it is given back. -/
def given (s : Session) (h : Handle) : Given :=
  { cell := h.target, kind := (s.world.read h).kind }

def view (s : Session) (v : Value Slot) : View :=
  { value := v, scope := v.env?.map s.world.printEnv }

/-- Answer with a handle, then store or drop it. -/
def give (s : Session) (dest : Option String) (h : Handle) : Session × Answer :=
  (s.store dest h, .given (s.given h))

/-- Answer with a handle that may not have been obtained. -/
def giveOutcome (dest : Option String) : Session × Except Failure Handle → Session × Answer
  | (s, .ok h) => s.give dest h
  | (s, .error f) => (s, .failure f)

/-- Answer an operation that has no result. -/
def doneOutcome : Session × Except Failure Unit → Session × Answer
  | (s, .ok ()) => (s, .done)
  | (s, .error f) => (s, .failure f)

/-- The sizes and counters of the script's heaps. -/
def stats (s : Session) : List Stats :=
  s.heaps.toList.map fun i => ((s.world.heap? i).map Heap.stats).getD default

def objects (s : Session) (i : HeapId) : List CellInfo :=
  match s.world.heap? i with
  | none => []
  | some h =>
    h.objects.toList.map fun (c, cell) =>
      { cell := c, count := cell.count, kind := cell.value.kind }

def roots (s : Session) (i : HeapId) : List CellId :=
  match s.world.heap? i with
  | none => []
  | some h => h.roots.toList.map Prod.snd

/-- How many collections the script's heaps have completed. -/
def collections (s : Session) : Nat :=
  s.stats.foldl (fun n t => n + t.counters.collections) 0

end Session

end HybridHeap
