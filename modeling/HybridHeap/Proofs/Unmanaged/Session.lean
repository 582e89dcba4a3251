import HybridHeap.Script.Run
import HybridHeap.Proofs.Unmanaged.Evaluate

/-!
Scripts on a store without memory management, and the part of an answer that is about
values rather than about the state of a heap.
-/

namespace HybridHeap

/-- An answer without what diagnoses the heaps: reference counts, statistics and
listings. -/
def Answer.visible : Answer → Answer
  | handle info => handle { info with refCount := none }
  | heap info => heap { info with live := 0, capacity := 0 }
  | objects _ => objects []
  | roots _ => roots []
  | rounds info => rounds { info with collected := [] }
  | answer => answer

namespace Unmanaged

/-- Visit the cells on the stack, and the children of each before what lies below
it. -/
def preorder (cells : Std.ExtTreeMap CellId (Value Slot)) (stack : List CellId) :
    List (CellId × Value Slot) :=
  match stack with
  | [] => []
  | c :: stack =>
    match _h : cells[c]? with
    | none => preorder cells stack
    | some v => (c, v) :: preorder (cells.erase c) (v.targets ++ stack)
termination_by (cells.size, stack.length)
decreasing_by
  · exact Prod.Lex.right _ (by simp)
  · have : c ∈ cells := by simp [Std.ExtTreeMap.mem_iff_isSome_getElem?, _h]
    have := size_erase_add_one this
    exact Prod.Lex.left _ _ (by omega)

def Scope.print (scope : Scope) : String :=
  "Environment \x7b names: [" ++ ", ".intercalate (scope.bindings.keys.map Text.quoted) ++
    "], has_parent: " ++ toString scope.parent.isSome ++ " \x7d"

namespace Store

def printScope (st : Store) (e : EnvId) : String :=
  match st.scopes[e]? with
  | some scope => scope.print
  | none => ""

def scopeInfo (st : Store) (e : EnvId) (name : String) : ScopeInfo :=
  match st.scopes[e]? with
  | none => { size := 0, contains := false, hasParent := false, text := "" }
  | some scope =>
    { size := scope.bindings.size, contains := scope.bindings.contains name,
      hasParent := scope.parent.isSome, text := scope.print }

end Store

/-- A store and the registers of a script. -/
structure Session where
  store : Store
  heaps : Array HeapId
  registers : Std.ExtTreeMap String Slot
  held : Std.ExtTreeMap String (Value Slot)
  scopes : Std.ExtTreeMap String EnvId

namespace Session

/-- A session on the given heaps, or on one heap of the default configuration if
none are given. -/
def new (choices : List HeapChoice) : Session :=
  let choices := if choices.isEmpty then [.own {}] else choices
  let (configs, heaps) := choices.foldl
    (fun (configs, heaps) choice =>
      match choice with
      | .own config => (configs.push config, heaps.push configs.size)
      | .shared => (configs, heaps.push sharedHeap))
    (#[{}], #[])
  { store := .new configs, heaps, registers := ∅, held := ∅, scopes := ∅ }

/-- Go on with the store of an outcome. -/
def lift {α : Type} (s : Session) (outcome : Store × α) : Session × α :=
  ({ s with store := outcome.1 }, outcome.2)

def slot (s : Session) (name : String) : Slot :=
  (s.registers[name]?).getD none

def take (s : Session) (name : String) : Session × Slot :=
  ({ s with registers := s.registers.erase name }, s.slot name)

def assign (s : Session) (dest : Option String) (h : Slot) : Session :=
  match dest with
  | none => s
  | some name => { s with registers := s.registers.insert name h }

def assignScope (s : Session) (dest : Option String) (e : EnvId) : Session :=
  match dest with
  | none => s
  | some name => { s with scopes := s.scopes.insert name e }

mutual

/-- Obtain a reference. -/
def resolve (s : Session) (i : HeapId) : Operand → Session × Except Failure Slot
  | .null => (s, .ok none)
  | .copy name => (s, .ok (s.slot name))
  | .move name =>
    let (s, h) := s.take name
    (s, .ok h)
  | .fresh d =>
    match s.build i d with
    | (s, .ok v) => s.lift (s.store.allocate i v)
    | (s, .error f) => (s, .error f)
  | .list items =>
    match s.resolveAll i [] items with
    | (s, .ok hs) => s.lift (s.store.list i hs)
    | (s, .error f) => (s, .error f)

/-- Obtain references from left to right; those obtained so far are given from last
to first. -/
def resolveAll (s : Session) (i : HeapId) (done : List Slot) :
    List Operand → Session × Except Failure (List Slot)
  | [] => (s, .ok done.reverse)
  | operand :: operands =>
    match s.resolve i operand with
    | (s, .ok h) => s.resolveAll i (h :: done) operands
    | (s, .error f) => (s, .error f)

/-- Build a value. -/
def build (s : Session) (i : HeapId) : Draft → Session × Except Failure (Value Slot)
  | .scalar v => (s, .ok (.scalar v))
  | .pair first second =>
    match s.resolve i first with
    | (s, .error f) => (s, .error f)
    | (s, .ok a) =>
      match s.resolve i second with
      | (s, .error f) => (s, .error f)
      | (s, .ok b) => (s, .ok (.pair a b))
  | .vector items =>
    match s.resolveAll i [] items with
    | (s, .error f) => (s, .error f)
    | (s, .ok hs) => (s, .ok (.vector hs.toArray))
  | .closure code scope =>
    match s.scopes[scope]? with
    | none => (s, .error (.missingScope scope))
    | some e => (s, .ok (.closure code e))
  | .held name =>
    ({ s with held := s.held.erase name }, .ok ((s.held[name]?).getD .null))

end

def given (s : Session) (h : Slot) : Given :=
  { cell := h, kind := (s.store.read h).kind }

def view (s : Session) (v : Value Slot) : View :=
  { value := v, scope := v.env?.map s.store.printScope }

/-- Answer with a reference and keep it in a register. -/
def give (s : Session) (dest : Option String) (h : Slot) : Session × Answer :=
  (s.assign dest h, .given (s.given h))

/-- Answer with a reference that may not have been obtained. -/
def giveOutcome (dest : Option String) : Session × Except Failure Slot → Session × Answer
  | (s, .ok h) => s.give dest h
  | (s, .error f) => (s, .failure f)

/-- Answer an operation that has no result. -/
def doneOutcome : Session × Except Failure Unit → Session × Answer
  | (s, .ok ()) => (s, .done)
  | (s, .error f) => (s, .failure f)

/-- Look at one child of a value. -/
def giveChild (s : Session) (of : String) (index : Nat) (target : String) (dest : Option String) :
    Session × Answer :=
  match (s.store.read (s.slot of)).children[index]? with
  | none => (s, .absent)
  | some child =>
    (s.assign dest child,
      .slot (s.given child) (child = s.slot target) (s.view (s.store.read child)))

/-- Replace one child of a kept value. -/
def putChild (s : Session) (name : String) (index : Nat) (h : Slot) : Session × Answer :=
  let v := (s.held[name]?).getD .null
  match v.children[index]? with
  | some _ => ({ s with held := s.held.insert name (v.setChild index h) }, .flag true)
  | none => ({ s with held := s.held.insert name v }, .flag false)

def handleInfo (s : Session) (of : String) : HandleInfo :=
  let h := s.slot of
  { cell := h, kind := (s.store.read h).kind, refCount := none,
    heap := h.bind fun c => s.heaps.idxOf? c.heap }

def heapInfo (s : Session) (i : HeapId) : HeapInfo :=
  let config := (s.store.configs[i]?).getD default
  { config, phase := .idle, live := 0, capacity := 0,
    text := "Heap \x7b config: " ++ config.print ++ ", phase: " ++ Phase.idle.label ++ ", .. \x7d",
    sameAsFirst := s.heaps[0]? = some i }

def element (s : Session) (of : String) (index : Nat) : Element :=
  match s.store.read (s.slot of) with
  | .vector es =>
    match es[index]? with
    | some slot => .slot slot
    | none => .pastEnd
  | _ => .notAVector

def graph (s : Session) (of : String) : List (CellId × Value Slot) :=
  match s.slot of with
  | none => []
  | some c => preorder s.store.cells [c]

/-- Perform an operation on the scope in a register. Without one the operation fails. -/
def withScope (s : Session) (name : String) (f : EnvId → Session × Answer) : Session × Answer :=
  match s.scopes[name]? with
  | none => (s, .failure (.missingScope name))
  | some e => f e

/-- Perform an operation that may be given a parent for a scope. -/
def withParent (s : Session) (parent : Option String) (f : Option EnvId → Session × Answer) :
    Session × Answer :=
  match parent with
  | none => f none
  | some name => s.withScope name fun e => f (some e)

/-- Keep a scope, if there is one. -/
def giveScope (s : Session) (dest : String) : Option EnvId → Session × Answer
  | none => (s, .flag false)
  | some e => (s.assignScope (some dest) e, .flag true)

/-- Keep a scope that may not have been bound, and show it. -/
def boundOutcome (dest : Option String) : Session × Except Failure EnvId → Session × Answer
  | (s, .ok e) => (s.assignScope dest e, .text (s.store.printScope e))
  | (s, .error f) => (s, .failure f)

/-- Bind arguments in a new scope. -/
def performBind (s : Session) (i : HeapId) (dest : Option String) (params : List String)
    (rest : Option String) (args : List Operand) (parent : Option String) : Session × Answer :=
  match s.resolveAll i [] args with
  | (s, .error f) => (s, .failure f)
  | (s, .ok hs) =>
    s.withParent parent fun p => boundOutcome dest (s.lift (s.store.bind i params rest hs p))

/-- Perform an operation that obtains a reference first. -/
def withOperand (s : Session) (i : HeapId) (operand : Operand)
    (f : Session → Slot → Session × Answer) : Session × Answer :=
  match s.resolve i operand with
  | (s, .error failure) => (s, .failure failure)
  | (s, .ok h) => f s h

/-- Perform an operation that builds a value first. -/
def withDraft (s : Session) (i : HeapId) (draft : Draft)
    (f : Session → Value Slot → Session × Answer) : Session × Answer :=
  match s.build i draft with
  | (s, .error failure) => (s, .failure failure)
  | (s, .ok v) => f s v

/-- Perform an operation on the heap `i`. -/
def performOp (s : Session) (i : HeapId) : Op → Session × Answer
  | .allocate value shared dest =>
    s.withDraft i value fun s v =>
      giveOutcome dest (s.lift (s.store.allocate (if shared then sharedHeap else i) v))
  | .list items dest =>
    match s.resolveAll i [] items with
    | (s, .error f) => (s, .failure f)
    | (s, .ok hs) => giveOutcome dest (s.lift (s.store.list i hs))
  | .clone of dest => s.give dest (s.slot of)
  | .move of dest =>
    let (s, h) := s.take of
    s.give dest h
  | .null dest => s.give dest none
  | .drop of => ((s.take of).1, .flag (s.registers.contains of))
  | .get of position dest => giveOutcome dest (s, s.store.get (s.slot of) position)
  | .length of =>
    match s.store.vectorSize (s.slot of) with
    | .ok n => (s, .number n)
    | .error f => (s, .failure f)
  | .isEmpty of =>
    match s.store.vectorSize (s.slot of) with
    | .ok n => (s, .flag (n = 0))
    | .error f => (s, .failure f)
  | .info of => (s, .handle (s.handleInfo of))
  | .read of => (s, .view (s.view (s.store.read (s.slot of))))
  | .print of => (s, .text (s.store.read (s.slot of)).print)
  | .sameCell a b => (s, .flag (s.slot a = s.slot b))
  | .set of value =>
    s.withDraft i value fun s v => doneOutcome (s.lift (s.store.set (s.slot of) v))
  | .write of position target =>
    doneOutcome (s.lift (s.store.write (s.slot of) position (s.slot target)))
  | .push of target => doneOutcome (s.lift (s.store.push (s.slot of) (s.slot target)))
  | .slots of =>
    let children := (s.store.read (s.slot of)).children
    (s, .slots (children.map fun c => (c, (s.store.read c).kind)))
  | .slot of index target dest => s.giveChild of index target dest
  | .element of index => (s, .element (s.element of index))
  | .graph of => (s, .graph (s.graph of))
  | .hold name value =>
    s.withDraft i value fun s v =>
      ({ s with held := s.held.insert name v }, .view (s.view v))
  | .dropHeld name => ({ s with held := s.held.erase name }, .flag (s.held.contains name))
  | .heldSlots name =>
    match s.held[name]? with
    | none => (s, .absent)
    | some v => (s, .targets v.children)
  | .heldPut name index value => s.withOperand i value fun s h => s.putChild name index h
  | .collect _ => (s, .done)
  | .heap => (s, .heap (s.heapInfo i))
  | .objects => (s, .objects [])
  | .roots => (s, .roots [])
  | .newScope dest parent =>
    s.withParent parent fun p =>
      let (s, e) := s.lift (s.store.newScope p)
      (s.assignScope (some dest) e, .done)
  | .bind dest params rest args parent => s.performBind i dest params rest args parent
  | .define scope name value =>
    s.withOperand i value fun s h =>
      s.withScope scope fun e =>
        let s := { s with store := s.store.define e name h }
        (s, .number (s.store.scopeInfo e name).size)
  | .assign scope name value =>
    s.withOperand i value fun s h =>
      s.withScope scope fun e => doneOutcome (s.lift (s.store.assign e name h))
  | .lookup scope name dest =>
    s.withScope scope fun e =>
      match s.store.lookup e name with
      | some h => s.give dest h
      | none => (s, .absent)
  | .scopeInfo scope name =>
    s.withScope scope fun e => (s, .scope (s.store.scopeInfo e name))
  | .parentScope scope dest =>
    s.withScope scope fun e => s.giveScope dest ((s.store.scopes[e]?).bind Scope.parent)
  | .closureScope of dest => s.giveScope dest (s.store.read (s.slot of)).env?
  | .dropScope scope =>
    ({ s with scopes := s.scopes.erase scope }, .flag (s.scopes.contains scope))
  | .call of args dest =>
    match s.resolveAll i [] args with
    | (s, .error f) => (s, .failure f)
    | (s, .ok hs) => giveOutcome dest (s.lift (s.store.apply i evaluationSteps (s.slot of) hs))
  | .eval scope expr dest =>
    s.withScope scope fun e => giveOutcome dest (s.lift (s.store.eval i evaluationSteps e expr))

mutual

/-- Perform a command. -/
def perform (s : Session) : Command → Session × Answer
  | .op index op => s.performOp ((s.heaps[index]?).getD sharedHeap) op
  | .rounds rounds =>
    let (s, info) := s.performRounds { failures := 0, first := none, collected := [] } rounds
    (s, .rounds info)

/-- Perform rounds one after the other. -/
def performRounds (s : Session) (info : RoundsInfo) :
    List (List Command) → Session × RoundsInfo
  | [] => (s, info)
  | round :: rounds =>
    let (s, info) := s.performRound info round
    s.performRounds info rounds

/-- Perform the commands of one round and count the failures. -/
def performRound (s : Session) (info : RoundsInfo) : List Command → Session × RoundsInfo
  | [] => (s, info)
  | command :: commands =>
    match s.perform command with
    | (s, .failure f) =>
      s.performRound
        { info with failures := info.failures + 1, first := info.first.or (some f) } commands
    | (s, _) => s.performRound info commands

end

/-- Perform commands in order and answer each. -/
def answers (s : Session) : List Command → List Answer
  | [] => []
  | c :: cs => (s.perform c).2 :: (s.perform c).1.answers cs

end Session

/-- The answers to a script on a store without memory management. -/
def answers (script : Script) : List Answer :=
  (Session.new script.heaps).answers script.commands

end Unmanaged

end HybridHeap
