import HybridHeap.World.Cells

/-!
Environments of a world: chains of scopes in which the nearest binding of a name
counts. A parent is always older than its children.
-/

namespace HybridHeap

namespace World

/-- One more owner for an environment. -/
def shareEnv (w : World) (e : EnvId) : World :=
  w.modifyEnv e fun env => { env with owners := env.owners + 1 }

/-- An empty scope with one owner. -/
def newEnv (w : World) (parent : Option EnvId) : World × EnvId :=
  let w := parent.elim w w.shareEnv
  let env := { parent, bindings := ∅, owners := 1 }
  ({ w with envs := w.envs.insert w.nextEnv env, nextEnv := w.nextEnv + 1 }, w.nextEnv)

/-- The handle that a scope itself binds to a name. -/
def localBinding? (w : World) (e : EnvId) (name : String) : Option Handle := do
  let env ← w.envs[e]?
  env.bindings[name]?

/-- Replace the local binding of a name, or add one. The previous handle is not
dropped yet but answered. -/
def rebind (w : World) (e : EnvId) (name : String) (h : Handle) : World × Handle :=
  (w.modifyEnv e fun env => { env with bindings := env.bindings.insert name h },
    (w.localBinding? e name).getD none)

/-- Bind a name in a scope; a previous handle is dropped afterwards. -/
def define (w : World) (e : EnvId) (name : String) (h : Handle) : World :=
  let (w, previous) := w.rebind e name h
  w.drop previous

/-- The nearest scope that binds a name. -/
def nearest (w : World) (name : String) (e : EnvId) : Option EnvId :=
  match w.envs[e]? with
  | none => none
  | some env =>
    if env.bindings.contains name then
      some e
    else
      match env.parent with
      | none => none
      | some p => if p < e then nearest w name p else none
termination_by e

/-- A new root for what a name is bound to. -/
def lookup (w : World) (e : EnvId) (name : String) : World × Option Handle :=
  match (w.nearest name e).bind fun e => w.localBinding? e name with
  | none => (w, none)
  | some h =>
    let (w, h) := w.clone h
    (w, some h)

/-- Bind a name anew in the nearest scope that binds it: a clone of the handle is
stored, the previous handle is dropped, and then the given one. -/
def assign (w : World) (e : EnvId) (name : String) (h : Handle) :
    World × Except Failure Unit :=
  match w.nearest name e with
  | none => (w.drop h, .error (.bind (.unbound name)))
  | some scope =>
    let (w, copy) := w.clone h
    let (w, previous) := w.rebind scope name copy
    ((w.drop previous).drop h, .ok ())

/-- Bind names to handles one after the other. -/
def defineAll (w : World) (e : EnvId) : List (String × Handle) → World
  | [] => w
  | (name, h) :: more => (w.define e name h).defineAll e more

/-- Whether so many arguments fit the parameters. -/
def arity (params : List String) (rest : Option String) (got : Nat) : Except BindError Unit :=
  if got < params.length then
    .error (.insufficientArguments params.length got)
  else if params.length < got ∧ rest = none then
    .error (.redundantArguments params.length got)
  else
    .ok ()

/-- A new scope that binds parameters to arguments, and the rest parameter to the
list of the arguments left over. -/
def bind (w : World) (i : HeapId) (params : List String) (rest : Option String)
    (args : List Handle) (parent : Option EnvId) : World × Except Failure EnvId :=
  match arity params rest args.length with
  | .error e => (w.dropAll args, .error (.bind e))
  | .ok () =>
    let (w, e) := w.newEnv parent
    let w := w.defineAll e (params.zip args)
    match rest with
    | none => (w, .ok e)
    | some name =>
      match w.list i (args.drop params.length) with
      | (w, .ok h) => (w.define e name h, .ok e)
      | (w, .error f) => (w.leaveEnv e, .error f)

end World

end HybridHeap
