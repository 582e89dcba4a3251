import HybridHeap.Heap.Basic
import HybridHeap.Error

/-!
The answers of script operations.
-/

namespace HybridHeap

/-- A handle as it is given back. -/
structure Given where
  cell : Slot
  kind : Kind
  deriving Repr, DecidableEq

/-- A value as it is looked at, with the text of a closure's environment. -/
structure View where
  value : Value Slot
  scope : Option String

structure HandleInfo where
  cell : Slot
  kind : Kind
  refCount : Option Nat
  heap : Option Nat
  deriving Repr, DecidableEq

structure HeapInfo where
  config : Config
  phase : Phase
  live : Nat
  capacity : Nat
  text : String
  sameAsFirst : Bool
  deriving Repr, DecidableEq

structure ScopeInfo where
  size : Nat
  contains : Bool
  hasParent : Bool
  text : String
  deriving Repr, DecidableEq

/-- A live cell in a listing of a heap. -/
structure CellInfo where
  cell : CellId
  count : Nat
  kind : Kind
  deriving Repr, DecidableEq

/-- A look at one element of a value that may not be a vector. -/
inductive Element
  | slot (slot : Slot)
  | pastEnd
  | notAVector
  deriving Repr, DecidableEq

/-- The outcome of repeated rounds: how many operations failed, how the first one
did, and the state of the heaps after each round in which a collection ran. -/
structure RoundsInfo where
  failures : Nat
  first : Option Failure
  collected : List (Nat × List Stats)

inductive Answer
  | done
  | absent
  | failure (f : Failure)
  | given (g : Given)
  | flag (value : Bool)
  | number (value : Nat)
  | text (value : String)
  | handle (info : HandleInfo)
  | view (view : View)
  | slots (children : List (Slot × Kind))
  | slot (given : Given) (refersTo : Bool) (view : View)
  | element (element : Element)
  | graph (cells : List (CellId × Value Slot))
  | targets (cells : List Slot)
  | heap (info : HeapInfo)
  | objects (cells : List CellInfo)
  | roots (cells : List CellId)
  | scope (info : ScopeInfo)
  | rounds (info : RoundsInfo)

end HybridHeap
