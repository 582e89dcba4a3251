import HybridHeap.World.Evaluate
import HybridHeap.Proofs.Unmanaged.Store

/-!
Evaluation on a store without memory management. It takes the same steps as evaluation
in a world; a step that only lets go of something does nothing here.
-/

namespace HybridHeap

namespace Unmanaged

namespace Store

/-- Call a native procedure. -/
def callPrimitive (st : Store) (i : HeapId) (p : Primitive) (args : List Slot) :
    Store × Except Failure Slot :=
  let arg := fun n => args.getD n none
  match p with
  | .nothing => (st, .ok none)
  | .identity => (st, .ok (arg 0))
  | .add =>
    let sum := args.foldl
      (fun sum s =>
        match st.read s with
        | .scalar (.integer n) => sum + n
        | _ => sum)
      0
    st.allocate i (.integer sum)
  | .cons => st.allocate i (.pair (arg 0) (arg 1))
  | .car => (st, .ok ((st.get (arg 0) .first).toOption.getD none))
  | .cdr => (st, .ok ((st.get (arg 0) .second).toOption.getD none))
  | .list => st.list i args
  | .vector => st.allocate i (.vector args.toArray)
  | .gc => (st, .ok none)

end Store

/-- What is left to do around an evaluation: evaluate the arguments for a procedure,
evaluate the further arguments, or go on behind a call or a body. -/
inductive Frame
  | operator (env : EnvId) (args : List Expr)
  | argument (env : EnvId) (procedure : Slot) (done : List Slot) (rest : List Expr)
  | back

/-- What an evaluation is about to do. -/
inductive Task
  | eval (env : EnvId) (e : Expr)
  | apply (procedure : Slot) (args : List Slot)
  | finish (outcome : Except Failure Slot)

/-- An evaluation under way; the innermost frame comes first. -/
structure Evaluation where
  store : Store
  task : Task
  frames : List Frame

namespace Evaluation

/-- Evaluate the next argument, or call the procedure if there is none. -/
def proceed (st : Store) (env : EnvId) (procedure : Slot) (done : List Slot) (rest : List Expr)
    (frames : List Frame) : Evaluation :=
  match rest with
  | [] => { store := st, task := .apply procedure done.reverse, frames := .back :: frames }
  | e :: rest =>
    { store := st, task := .eval env e, frames := .argument env procedure done rest :: frames }

def stepEval (i : HeapId) (st : Store) (env : EnvId) (e : Expr) (frames : List Frame) :
    Evaluation :=
  match e with
  | .int n =>
    let (st, outcome) := st.allocate i (.integer n)
    { store := st, task := .finish outcome, frames }
  | .var name =>
    match st.lookup env name with
    | some s => { store := st, task := .finish (.ok s), frames }
    | none => { store := st, task := .finish (.error (.unboundVariable name)), frames }
  | .lambda params rest body =>
    let (st, outcome) := st.allocate i (.closure (.lambda { params, rest, body }) env)
    { store := st, task := .finish outcome, frames }
  | .call callee args =>
    { store := st, task := .eval env callee, frames := .operator env args :: frames }

def stepApply (i : HeapId) (st : Store) (procedure : Slot) (args : List Slot)
    (frames : List Frame) : Evaluation :=
  match st.read procedure with
  | .scalar (.primitive p) =>
    let (st, outcome) := st.callPrimitive i p args
    { store := st, task := .finish outcome, frames }
  | .closure (.lambda l) env =>
    match st.bind i l.params l.rest args (some env) with
    | (st, .ok scope) => { store := st, task := .eval scope l.body, frames := .back :: frames }
    | (st, .error f) => { store := st, task := .finish (.error f), frames }
  | v => { store := st, task := .finish (.error (.notCallable v.kind)), frames }

/-- Give an outcome to the frame around it. A failure ends the frame. -/
def stepFinish (st : Store) (outcome : Except Failure Slot) (frame : Frame)
    (frames : List Frame) : Evaluation :=
  match outcome, frame with
  | .ok s, .operator env args => proceed st env s [] args frames
  | .ok s, .argument env procedure done rest => proceed st env procedure (s :: done) rest frames
  | outcome, _ => { store := st, task := .finish outcome, frames }

/-- One step, or the outcome if nothing is left to do. -/
def step (i : HeapId) (s : Evaluation) : Evaluation ⊕ Store × Except Failure Slot :=
  match s.task, s.frames with
  | .eval env e, frames => .inl (stepEval i s.store env e frames)
  | .apply procedure args, frames => .inl (stepApply i s.store procedure args frames)
  | .finish outcome, frame :: frames => .inl (stepFinish s.store outcome frame frames)
  | .finish outcome, [] => .inr (s.store, outcome)

/-- Run to the end, with at most so many steps. -/
def run (i : HeapId) : (limit : Nat) → Evaluation → Store × Except Failure Slot
  | 0, s => (s.store, .error .stepLimit)
  | limit + 1, s =>
    match s.step i with
    | .inl s => run i limit s
    | .inr outcome => outcome

end Evaluation

namespace Store

/-- Evaluate an expression in a scope. -/
def eval (st : Store) (i : HeapId) (limit : Nat) (env : EnvId) (e : Expr) :
    Store × Except Failure Slot :=
  Evaluation.run i limit { store := st, task := .eval env e, frames := [] }

/-- Apply a procedure to arguments. -/
def apply (st : Store) (i : HeapId) (limit : Nat) (procedure : Slot) (args : List Slot) :
    Store × Except Failure Slot :=
  Evaluation.run i limit { store := st, task := .apply procedure args, frames := [] }

end Store

end Unmanaged

end HybridHeap
