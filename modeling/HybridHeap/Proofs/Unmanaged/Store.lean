import HybridHeap.World.Scopes

/-!
A store without memory management: cells and scopes that are never freed. References
to cells are slots wherever they are kept, and nothing is counted, rooted, marked or
bounded by a threshold.
-/

namespace HybridHeap

namespace Unmanaged

/-- A scope of variables. -/
structure Scope where
  parent : Option EnvId
  bindings : Std.ExtTreeMap String Slot

/-- `nextCell` numbers the next cell of any heap. -/
structure Store where
  configs : Array Config
  cells : Std.ExtTreeMap CellId (Value Slot)
  scopes : Std.ExtTreeMap EnvId Scope
  nextCell : Nat
  nextEnv : EnvId

namespace Store

def new (configs : Array Config) : Store :=
  { configs, cells := ∅, scopes := ∅, nextCell := 0, nextEnv := 0 }

def readCell (st : Store) (c : CellId) : Value Slot :=
  (st.cells[c]?).getD .null

/-- The value a slot refers to; a null slot reads as null. -/
def read (st : Store) : Slot → Value Slot
  | some c => st.readCell c
  | none => .null

def put (st : Store) (c : CellId) (v : Value Slot) : Store :=
  { st with cells := st.cells.insert c v }

/-- Whether all references of a value stay inside one heap. -/
def ownsAll (i : HeapId) (v : Value Slot) : Bool :=
  v.targets.all fun c => c.heap = i

/-- A new cell with a value. -/
def allocate (st : Store) (i : HeapId) (v : Value Slot) : Store × Except Failure Slot :=
  if ownsAll i v then
    if i < st.configs.size then
      let c : CellId := { heap := i, number := st.nextCell }
      ({ st with cells := st.cells.insert c v, nextCell := st.nextCell + 1 }, .ok (some c))
    else
      (st, .ok none)
  else
    (st, .error (.foreign .inNewCell))

/-- Put pairs in front of a tail, for items given from last to first. -/
def consAll (st : Store) (i : HeapId) (tail : Slot) : List Slot → Store × Except Failure Slot
  | [] => (st, .ok tail)
  | item :: earlier =>
    match st.allocate i (.pair item tail) with
    | (st, .ok s) => st.consAll i s earlier
    | (st, .error e) => (st, .error e)

def list (st : Store) (i : HeapId) (items : List Slot) : Store × Except Failure Slot :=
  st.consAll i none items.reverse

/-- The reference at a position. -/
def get (st : Store) (s : Slot) (p : Position) : Except Failure Slot :=
  match s with
  | none => .error (.access .nullHandle)
  | some c => ((st.readCell c).get p).mapError .access

/-- The number of elements of a vector. -/
def vectorSize (st : Store) (s : Slot) : Except Failure Nat :=
  match s with
  | none => .error (.access .nullHandle)
  | some c => (st.readCell c).vectorSize.mapError .access

/-- Put a value into an existing cell. -/
def set (st : Store) (s : Slot) (v : Value Slot) : Store × Except Failure Unit :=
  match s with
  | none => (st, .error (.access .nullHandle))
  | some c =>
    if ownsAll c.heap v then
      (st.put c v, .ok ())
    else
      (st, .error (.foreign .inReplacement))

/-- Change one reference of a cell, to one that refers to the target. -/
def edit (st : Store) (s target : Slot)
    (change : Value Slot → Except AccessError (Value Slot)) : Store × Except Failure Unit :=
  match s with
  | none => (st, .error (.access .nullHandle))
  | some c =>
    if target.all fun t => t.heap = c.heap then
      match change (st.readCell c) with
      | .error e => (st, .error (.access e))
      | .ok v => (st.put c v, .ok ())
    else
      (st, .error (.foreign .asTarget))

/-- Let the reference at a position refer to the target. -/
def write (st : Store) (s : Slot) (p : Position) (target : Slot) : Store × Except Failure Unit :=
  st.edit s target fun v => (v.get p).map fun _ => v.replace p target

/-- Add an element to a vector. -/
def push (st : Store) (s target : Slot) : Store × Except Failure Unit :=
  st.edit s target fun v => v.append target

/-- An empty scope. -/
def newScope (st : Store) (parent : Option EnvId) : Store × EnvId :=
  ({ st with
      scopes := st.scopes.insert st.nextEnv { parent, bindings := ∅ },
      nextEnv := st.nextEnv + 1 },
    st.nextEnv)

/-- What a scope itself binds to a name. -/
def localBinding? (st : Store) (e : EnvId) (name : String) : Option Slot := do
  let scope ← st.scopes[e]?
  scope.bindings[name]?

/-- Replace the local binding of a name, or add one. -/
def define (st : Store) (e : EnvId) (name : String) (s : Slot) : Store :=
  { st with
    scopes := st.scopes.modify e fun scope =>
      { scope with bindings := scope.bindings.insert name s } }

/-- The nearest scope that binds a name. -/
def nearest (st : Store) (name : String) (e : EnvId) : Option EnvId :=
  match st.scopes[e]? with
  | none => none
  | some scope =>
    if scope.bindings.contains name then
      some e
    else
      match scope.parent with
      | none => none
      | some p => if p < e then nearest st name p else none
termination_by e

/-- What a name is bound to. -/
def lookup (st : Store) (e : EnvId) (name : String) : Option Slot :=
  (st.nearest name e).bind fun e => st.localBinding? e name

/-- Bind a name anew in the nearest scope that binds it. -/
def assign (st : Store) (e : EnvId) (name : String) (s : Slot) : Store × Except Failure Unit :=
  match st.nearest name e with
  | none => (st, .error (.bind (.unbound name)))
  | some scope => (st.define scope name s, .ok ())

/-- Bind names one after the other. -/
def defineAll (st : Store) (e : EnvId) : List (String × Slot) → Store
  | [] => st
  | (name, s) :: more => (st.define e name s).defineAll e more

/-- A new scope that binds parameters to arguments, and the rest parameter to the
list of the arguments left over. -/
def bind (st : Store) (i : HeapId) (params : List String) (rest : Option String)
    (args : List Slot) (parent : Option EnvId) : Store × Except Failure EnvId :=
  match World.arity params rest args.length with
  | .error e => (st, .error (.bind e))
  | .ok () =>
    let (st, e) := st.newScope parent
    let st := st.defineAll e (params.zip args)
    match rest with
    | none => (st, .ok e)
    | some name =>
      match st.list i (args.drop params.length) with
      | (st, .ok s) => (st.define e name s, .ok e)
      | (st, .error f) => (st, .error f)

end Store

end Unmanaged

end HybridHeap
