import HybridHeap.World.Scopes

/-!
Evaluation, step by step. Arguments are evaluated from left to right and handed over
to the procedure. What is left to do is kept as a stack of frames, and each frame
lets go of what it owns, also when an evaluation fails: an evaluation that ends has
dropped all it took over.
-/

namespace HybridHeap

namespace World

/-- Call a native procedure. The arguments are only looked at. No native insists on them:
missing ones read as null, surplus ones are ignored, and a sum wraps around. A native that
aborts the program instead, for want of an argument or because a sum overflows, has no
outcome and is not among these. -/
def callPrimitive (w : World) (i : HeapId) (p : Primitive) (args : List Handle) :
    World × Except Failure Handle :=
  let arg := fun n => args.getD n none
  match p with
  | .nothing => (w, .ok none)
  | .identity =>
    let (w, h) := w.clone (arg 0)
    (w, .ok h)
  | .add =>
    let sum := args.foldl
      (fun sum h =>
        match w.read h with
        | .scalar (.integer n) => sum + n
        | _ => sum)
      0
    w.allocate i (.integer sum)
  | .cons =>
    let (w, first) := w.clone (arg 0)
    let (w, second) := w.clone (arg 1)
    w.allocate i (.pair first second)
  | .car =>
    match w.get (arg 0) .first with
    | (w, .ok h) => (w, .ok h)
    | (w, .error _) => (w, .ok none)
  | .cdr =>
    match w.get (arg 0) .second with
    | (w, .ok h) => (w, .ok h)
    | (w, .error _) => (w, .ok none)
  | .list =>
    let (w, items) := w.cloneAll args
    w.list i items
  | .vector =>
    let (w, items) := w.cloneAll args
    w.allocate i (.vector items.toArray)
  | .gc => (w.collectNow i, .ok none)

end World

/-- What is left to do around an evaluation: evaluate the arguments for a procedure,
evaluate the further arguments (those obtained so far are given from last to first),
let go of the procedure after a call, or leave the scope of a body. -/
inductive Frame
  | operator (env : EnvId) (args : List Expr)
  | argument (env : EnvId) (procedure : Handle) (done : List Handle) (rest : List Expr)
  | release (procedure : Handle)
  | leave (scope : EnvId)
  deriving Inhabited

/-- Let go of what a frame owns: arguments in order, then their procedure. -/
def Frame.discard (w : World) : Frame → World
  | operator .. => w
  | argument _ procedure done _ => (w.dropAll done.reverse).drop procedure
  | release procedure => w.drop procedure
  | leave scope => w.leaveEnv scope

/-- What an evaluation is about to do: evaluate an expression in a scope, apply a
procedure to arguments that are handed over, or give back an outcome. -/
inductive Task
  | eval (env : EnvId) (e : Expr)
  | apply (procedure : Handle) (args : List Handle)
  | finish (outcome : Except Failure Handle)

/-- Let go of what a task owns. -/
def Task.discard (w : World) : Task → World
  | eval .. => w
  | apply _ args => w.dropAll args
  | finish (.ok h) => w.drop h
  | finish (.error _) => w

/-- An evaluation under way; the innermost frame comes first. -/
structure Evaluation where
  world : World
  task : Task
  frames : List Frame

namespace Evaluation

/-- Evaluate the next argument, or call the procedure if there is none. -/
def proceed (w : World) (env : EnvId) (procedure : Handle) (done : List Handle)
    (rest : List Expr) (frames : List Frame) : Evaluation :=
  match rest with
  | [] =>
    { world := w, task := .apply procedure done.reverse, frames := .release procedure :: frames }
  | e :: rest =>
    { world := w, task := .eval env e, frames := .argument env procedure done rest :: frames }

def stepEval (i : HeapId) (w : World) (env : EnvId) (e : Expr) (frames : List Frame) :
    Evaluation :=
  match e with
  | .int n =>
    let (w, outcome) := w.allocate i (.integer n)
    { world := w, task := .finish outcome, frames }
  | .var name =>
    match w.lookup env name with
    | (w, some h) => { world := w, task := .finish (.ok h), frames }
    | (w, none) => { world := w, task := .finish (.error (.unboundVariable name)), frames }
  | .lambda params rest body =>
    let (w, outcome) :=
      (w.shareEnv env).allocate i (.closure (.lambda { params, rest, body }) env)
    { world := w, task := .finish outcome, frames }
  | .call callee args =>
    { world := w, task := .eval env callee, frames := .operator env args :: frames }

def stepApply (i : HeapId) (w : World) (procedure : Handle) (args : List Handle)
    (frames : List Frame) : Evaluation :=
  match w.read procedure with
  | .scalar (.primitive p) =>
    let (w, outcome) := w.callPrimitive i p args
    { world := w.dropAll args, task := .finish outcome, frames }
  | .closure (.lambda l) env =>
    match w.bind i l.params l.rest args (some env) with
    | (w, .ok scope) => { world := w, task := .eval scope l.body, frames := .leave scope :: frames }
    | (w, .error f) => { world := w, task := .finish (.error f), frames }
  | v => { world := w.dropAll args, task := .finish (.error (.notCallable v.kind)), frames }

/-- Give an outcome to the frame around it. A failure ends the frame. -/
def stepFinish (w : World) (outcome : Except Failure Handle) (frame : Frame)
    (frames : List Frame) : Evaluation :=
  match outcome, frame with
  | .ok h, .operator env args => proceed w env h [] args frames
  | .ok h, .argument env procedure done rest => proceed w env procedure (h :: done) rest frames
  | outcome, frame => { world := frame.discard w, task := .finish outcome, frames }

/-- One step, or the outcome if nothing is left to do. -/
def step (i : HeapId) (s : Evaluation) : Evaluation ⊕ World × Except Failure Handle :=
  match s.task, s.frames with
  | .eval env e, frames => .inl (stepEval i s.world env e frames)
  | .apply procedure args, frames => .inl (stepApply i s.world procedure args frames)
  | .finish outcome, frame :: frames => .inl (stepFinish s.world outcome frame frames)
  | .finish outcome, [] => .inr (s.world, outcome)

/-- Give up: let go of everything, from the inside outwards. -/
def abandon (s : Evaluation) : World :=
  s.frames.foldl Frame.discard (s.task.discard s.world)

/-- Run to the end, with at most so many steps. -/
def run (i : HeapId) : (limit : Nat) → Evaluation → World × Except Failure Handle
  | 0, s => (s.abandon, .error .stepLimit)
  | limit + 1, s =>
    match s.step i with
    | .inl s => run i limit s
    | .inr outcome => outcome

end Evaluation

namespace World

/-- Evaluate an expression in a scope. -/
def eval (w : World) (i : HeapId) (limit : Nat) (env : EnvId) (e : Expr) :
    World × Except Failure Handle :=
  Evaluation.run i limit { world := w, task := .eval env e, frames := [] }

/-- Apply a procedure, which is only looked at, to arguments that are handed over. -/
def apply (w : World) (i : HeapId) (limit : Nat) (procedure : Handle) (args : List Handle) :
    World × Except Failure Handle :=
  Evaluation.run i limit { world := w, task := .apply procedure args, frames := [] }

end World

end HybridHeap
