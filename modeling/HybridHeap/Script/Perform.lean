import HybridHeap.Script.Session
import HybridHeap.Value.Printed

/-!
The effect and the answer of every script operation.
-/

namespace HybridHeap

def World.scopeInfo (w : World) (e : EnvId) (name : String) : ScopeInfo :=
  match w.envs[e]? with
  | none => { size := 0, contains := false, hasParent := false, text := "" }
  | some env =>
    { size := env.bindings.size, contains := env.bindings.contains name,
      hasParent := env.parent.isSome, text := env.print }

namespace Session

/-- Look at one child of a value and give a new root for it. -/
def giveChild (s : Session) (of : String) (index : Nat) (target : String) (dest : Option String) :
    Session × Answer :=
  match (s.world.read (s.handle of)).children[index]? with
  | none => (s, .absent)
  | some child =>
    let (s, h) := s.lift (s.world.root child)
    let answer := Answer.slot (s.given h) (child = (s.handle target).target)
      (s.view (s.world.readSlot child))
    (s.store dest h, answer)

/-- Keep a value off the heap; a value kept under the same name is dropped. -/
def keep (s : Session) (name : String) (v : Value Handle) : Session :=
  let previous := s.held[name]?
  let kept := { s with held := s.held.insert name v }
  match previous with
  | none => kept
  | some old => kept.onWorld (·.discard old)

/-- Replace one child of a kept value; without such a child the handle is dropped. -/
def putChild (s : Session) (name : String) (index : Nat) (h : Handle) : Session × Answer :=
  let v := (s.held[name]?).getD .null
  match v.children[index]? with
  | some old =>
    let changed := { s with held := s.held.insert name (v.setChild index h) }
    (changed.onWorld (·.settle (old.toList.map .dropAnchor)), .flag true)
  | none =>
    let kept := { s with held := s.held.insert name v }
    (kept.onWorld (·.drop h), .flag false)

def handleInfo (s : Session) (of : String) : HandleInfo :=
  let h := s.handle of
  { cell := h.target, kind := (s.world.read h).kind, refCount := s.world.refCount h,
    heap := h.bind fun r => s.heaps.idxOf? r.cell.heap }

def heapInfo (s : Session) (i : HeapId) : HeapInfo :=
  let h := (s.world.heap? i).getD default
  { config := h.config, phase := h.phase, live := h.objects.length, capacity := h.capacity,
    text := h.print, sameAsFirst := s.heaps[0]? = some i }

def element (s : Session) (of : String) (index : Nat) : Element :=
  match s.world.read (s.handle of) with
  | .vector es =>
    match es[index]? with
    | some slot => .slot slot
    | none => .pastEnd
  | _ => .notAVector

def graph (s : Session) (of : String) : List (CellId × Value Slot) :=
  match (s.handle of).target with
  | none => []
  | some c => ((s.world.heap? c.heap).map fun h => h.reachable c).getD []

/-- Perform an operation on the environment in a register. Without one the operation fails,
and the handles that are handed over are dropped. -/
def withScope (s : Session) (name : String) (handed : List Handle)
    (f : EnvId → Session × Answer) : Session × Answer :=
  match s.scopes[name]? with
  | none => (s.onWorld (·.dropAll handed), .failure (.missingScope name))
  | some e => f e

/-- Perform an operation that may be given a parent for a scope. -/
def withParent (s : Session) (parent : Option String) (handed : List Handle)
    (f : Option EnvId → Session × Answer) : Session × Answer :=
  match parent with
  | none => f none
  | some name => s.withScope name handed fun e => f (some e)

/-- Store a share of an environment, if there is one. -/
def giveScope (s : Session) (dest : String) : Option EnvId → Session × Answer
  | none => (s, .flag false)
  | some e => ((s.onWorld (·.shareEnv e)).storeScope (some dest) e, .flag true)

/-- Keep a scope that may not have been bound, and show it. -/
def boundOutcome (dest : Option String) : Session × Except Failure EnvId → Session × Answer
  | (s, .ok e) =>
    let answer := Answer.text (s.world.printEnv e)
    (s.storeScope dest e, answer)
  | (s, .error f) => (s, .failure f)

/-- Bind arguments in a new scope. -/
def performBind (s : Session) (i : HeapId) (dest : Option String) (params : List String)
    (rest : Option String) (args : List Operand) (parent : Option String) : Session × Answer :=
  match s.resolveAll i [] args with
  | (s, .error f) => (s, .failure f)
  | (s, .ok hs) =>
    s.withParent parent hs fun p => boundOutcome dest (s.lift (s.world.bind i params rest hs p))

/-- Perform an operation that obtains a handle first. -/
def withOperand (s : Session) (i : HeapId) (operand : Operand)
    (f : Session → Handle → Session × Answer) : Session × Answer :=
  match s.resolve i operand with
  | (s, .error failure) => (s, .failure failure)
  | (s, .ok h) => f s h

/-- Perform an operation that builds a value first. -/
def withDraft (s : Session) (i : HeapId) (draft : Draft)
    (f : Session → Value Handle → Session × Answer) : Session × Answer :=
  match s.build i draft with
  | (s, .error failure) => (s, .failure failure)
  | (s, .ok v) => f s v

/-- Perform an operation on the heap `i`. -/
def performOp (s : Session) (i : HeapId) : Op → Session × Answer
  | .allocate value shared dest =>
    s.withDraft i value fun s v =>
      giveOutcome dest (s.lift (s.world.allocate (if shared then sharedHeap else i) v))
  | .list items dest =>
    match s.resolveAll i [] items with
    | (s, .error f) => (s, .failure f)
    | (s, .ok hs) => giveOutcome dest (s.lift (s.world.list i hs))
  | .clone of dest =>
    let (s, h) := s.lift (s.world.clone (s.handle of))
    s.give dest h
  | .move of dest =>
    let (s, h) := s.take of
    s.give dest h
  | .null dest => s.give dest none
  | .drop of =>
    let existed := s.registers.contains of
    let (s, h) := s.take of
    (s.onWorld (·.drop h), .flag existed)
  | .get of position dest => giveOutcome dest (s.lift (s.world.get (s.handle of) position))
  | .length of =>
    match s.world.vectorSize (s.handle of) with
    | .ok n => (s, .number n)
    | .error f => (s, .failure f)
  | .isEmpty of =>
    match s.world.vectorSize (s.handle of) with
    | .ok n => (s, .flag (n = 0))
    | .error f => (s, .failure f)
  | .info of => (s, .handle (s.handleInfo of))
  | .read of => (s, .view (s.view (s.world.read (s.handle of))))
  | .print of => (s, .text (s.world.read (s.handle of)).print)
  | .sameCell a b => (s, .flag ((s.handle a).target = (s.handle b).target))
  | .set of value =>
    s.withDraft i value fun s v => doneOutcome (s.lift (s.world.set (s.handle of) v))
  | .write of position target =>
    doneOutcome (s.lift (s.world.write (s.handle of) position (s.handle target)))
  | .push of target => doneOutcome (s.lift (s.world.push (s.handle of) (s.handle target)))
  | .slots of =>
    let children := (s.world.read (s.handle of)).children
    (s, .slots (children.map fun c => (c, (s.world.readSlot c).kind)))
  | .slot of index target dest => s.giveChild of index target dest
  | .element of index => (s, .element (s.element of index))
  | .graph of => (s, .graph (s.graph of))
  | .hold name value =>
    s.withDraft i value fun s v =>
      let answer := Answer.view (s.view v.placed)
      (s.keep name v, answer)
  | .dropHeld name =>
    match s.held[name]? with
    | none => (s, .flag false)
    | some v =>
      ({ s with held := s.held.erase name }.onWorld (·.discard v), .flag true)
  | .heldSlots name =>
    match s.held[name]? with
    | none => (s, .absent)
    | some v => (s, .targets v.placed.children)
  | .heldPut name index value => s.withOperand i value fun s h => s.putChild name index h
  | .collect shared => (s.onWorld (·.collectNow (if shared then sharedHeap else i)), .done)
  | .heap => (s, .heap (s.heapInfo i))
  | .objects => (s, .objects (s.objects i))
  | .roots => (s, .roots (s.roots i))
  | .newScope dest parent =>
    s.withParent parent [] fun p =>
      let (s, e) := s.lift (s.world.newEnv p)
      (s.storeScope (some dest) e, .done)
  | .bind dest params rest args parent => s.performBind i dest params rest args parent
  | .define scope name value =>
    s.withOperand i value fun s h =>
      s.withScope scope [h] fun e =>
        let s := s.onWorld (·.define e name h)
        (s, .number (s.world.scopeInfo e name).size)
  | .assign scope name value =>
    s.withOperand i value fun s h =>
      s.withScope scope [h] fun e => doneOutcome (s.lift (s.world.assign e name h))
  | .lookup scope name dest =>
    s.withScope scope [] fun e =>
      match s.lift (s.world.lookup e name) with
      | (s, some h) => s.give dest h
      | (s, none) => (s, .absent)
  | .scopeInfo scope name =>
    s.withScope scope [] fun e => (s, .scope (s.world.scopeInfo e name))
  | .parentScope scope dest =>
    s.withScope scope [] fun e => s.giveScope dest ((s.world.envs[e]?).bind Environment.parent)
  | .closureScope of dest => s.giveScope dest (s.world.read (s.handle of)).env?
  | .dropScope scope =>
    match s.scopes[scope]? with
    | none => (s, .flag false)
    | some e =>
      ({ s with scopes := s.scopes.erase scope }.onWorld (·.leaveEnv e), .flag true)
  | .call of args dest =>
    match s.resolveAll i [] args with
    | (s, .error f) => (s, .failure f)
    | (s, .ok hs) =>
      giveOutcome dest (s.lift (s.world.apply i evaluationSteps (s.handle of) hs))
  | .eval scope expr dest =>
    s.withScope scope [] fun e =>
      giveOutcome dest (s.lift (s.world.eval i evaluationSteps e expr))

mutual

/-- Perform a command. -/
def perform (s : Session) : Command → Session × Answer
  | .op index op => s.performOp ((s.heaps[index]?).getD sharedHeap) op
  | .rounds rounds =>
    let (s, info) := s.performRounds 0 { failures := 0, first := none, collected := [] } rounds
    (s, .rounds { info with collected := info.collected.reverse })

/-- Perform rounds one after the other, the first of them with the given number. -/
def performRounds (s : Session) (number : Nat) (info : RoundsInfo) :
    List (List Command) → Session × RoundsInfo
  | [] => (s, info)
  | round :: rounds =>
    let before := s.collections
    let (s, info) := s.performRound info round
    let info :=
      if s.collections = before then info
      else { info with collected := (number, s.stats) :: info.collected }
    s.performRounds (number + 1) info rounds

/-- Perform the commands of one round and count the failures. -/
def performRound (s : Session) (info : RoundsInfo) : List Command → Session × RoundsInfo
  | [] => (s, info)
  | command :: commands =>
    match s.perform command with
    | (s, .failure f) =>
      s.performRound
        { info with failures := info.failures + 1, first := info.first.or (some f) } commands
    | (s, _) => s.performRound info commands

end

end Session

end HybridHeap
