import HybridHeap.Heap.Update

/-!
A world: several heaps, and the environments that closures share. An environment
binds names to handles and lives outside the heaps; it is destroyed when its
last owner lets go of it.
-/

namespace HybridHeap

/-- A scope of variables. Its owners are closures, inner scopes, and whoever
holds it directly. -/
structure Environment where
  parent : Option EnvId
  bindings : Std.ExtTreeMap String Handle
  owners : Nat

/-- An order in which the variables of an environment are dropped when it is destroyed.
Nothing else is known about it than that no variable is left out. -/
structure DropOrder where
  arrange : List Root → List Root
  perm : ∀ roots, (arrange roots).Perm roots

/-- The order of the names. -/
def DropOrder.byName : DropOrder :=
  { arrange := fun roots => roots, perm := fun roots => .refl roots }

/-- `nextCell` numbers the next cell of any heap. The events are those of all
heaps, newest first. Each environment has its own drop order. -/
structure World where
  heaps : Array Heap
  envs : Std.ExtTreeMap EnvId Environment
  nextCell : Nat
  nextEnv : EnvId
  events : List Event
  dropOrder : EnvId → DropOrder

namespace World

def new (configs : Array Config) (dropOrder : EnvId → DropOrder) : World :=
  { heaps := configs.map Heap.new, envs := ∅, nextCell := 0, nextEnv := 0, events := [],
    dropOrder }

def heap? (w : World) (i : HeapId) : Option Heap :=
  w.heaps[i]?

def setHeap (w : World) (i : HeapId) (h : Heap) : World :=
  { w with heaps := w.heaps.setIfInBounds i h }

def modifyHeap (w : World) (i : HeapId) (f : Heap → Heap) : World :=
  match w.heap? i with
  | none => w
  | some h => w.setHeap i (f h)

def modifyEnv (w : World) (e : EnvId) (f : Environment → Environment) : World :=
  { w with envs := w.envs.modify e f }

/-- The value of a cell; a cell that does not exist reads as null. -/
def readCell (w : World) (c : CellId) : Value Slot :=
  match w.heap? c.heap with
  | some h => h.read c
  | none => .null

/-- The value a slot refers to; a null slot reads as null. -/
def readSlot (w : World) : Slot → Value Slot
  | some c => w.readCell c
  | none => .null

def read (w : World) (h : Handle) : Value Slot :=
  w.readSlot h.target

/-- The number of references to the target of a handle. -/
def refCount (w : World) (h : Handle) : Option Nat := do
  let c ← h.target
  let heap ← w.heap? c.heap
  let cell ← heap.find? c
  return cell.count

/-- The number of live cells of all heaps. -/
def liveCells (w : World) : Nat :=
  w.heaps.toList.foldr (fun h n => h.objects.size + n) 0

end World

end HybridHeap
