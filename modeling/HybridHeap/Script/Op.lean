import HybridHeap.Heap.Basic
import HybridHeap.Value.Position

/-!
Scripts: sequences of operations on heaps, with named registers for handles, for
values kept off the heaps, and for environments.
-/

namespace HybridHeap

mutual

/-- Where a handle that is handed over comes from: a clone of a register, the
register itself, a new cell, or a new list. -/
inductive Operand
  | null
  | copy (register : String)
  | move (register : String)
  | fresh (value : Draft)
  | list (items : List Operand)

/-- A value to be built, or one that was kept off the heap and is now taken. -/
inductive Draft
  | scalar (value : Scalar)
  | pair (first second : Operand)
  | vector (items : List Operand)
  | closure (code : Code) (scope : String)
  | held (name : String)

end

instance : Inhabited Operand := ⟨.null⟩

instance : Inhabited Draft := ⟨.scalar .null⟩

/-- One operation. `of` and `target` name registers that are only looked at, `dest`
names where a handle goes; without it the handle is dropped. -/
inductive Op
  | allocate (value : Draft) (shared : Bool) (dest : Option String)
  | list (items : List Operand) (dest : Option String)
  | clone (of : String) (dest : Option String)
  | move (of : String) (dest : Option String)
  | null (dest : Option String)
  | drop (of : String)
  | get (of : String) (position : Position) (dest : Option String)
  | length (of : String)
  | isEmpty (of : String)
  | info (of : String)
  | read (of : String)
  | print (of : String)
  | sameCell (a b : String)
  | set (of : String) (value : Draft)
  | write (of : String) (position : Position) (target : String)
  | push (of target : String)
  | slots (of : String)
  | slot (of : String) (index : Nat) (target : String) (dest : Option String)
  | element (of : String) (index : Nat)
  | graph (of : String)
  | hold (name : String) (value : Draft)
  | dropHeld (name : String)
  | heldSlots (name : String)
  | heldPut (name : String) (index : Nat) (value : Operand)
  | collect (shared : Bool)
  | heap
  | objects
  | roots
  | newScope (dest : String) (parent : Option String)
  | bind (dest : Option String) (params : List String) (rest : Option String)
      (args : List Operand) (parent : Option String)
  | define (scope name : String) (value : Operand)
  | assign (scope name : String) (value : Operand)
  | lookup (scope name : String) (dest : Option String)
  | scopeInfo (scope name : String)
  | parentScope (scope dest : String)
  | closureScope (of dest : String)
  | dropScope (scope : String)
  | call (of : String) (args : List Operand) (dest : Option String)
  | eval (scope : String) (expr : Expr) (dest : Option String)
  deriving Inhabited

/-- One operation on the heap with the given place in the script's list, or rounds
of commands one after the other. -/
inductive Command
  | op (heap : Nat) (op : Op)
  | rounds (rounds : List (List Command))
  deriving Inhabited

/-- A heap of a script: one of its own, or the one that all programs share. -/
inductive HeapChoice
  | own (config : Config)
  | shared

/-- A script, and whether the heaps are to be listed after each of its commands. -/
structure Script where
  heaps : List HeapChoice
  commands : List Command
  listings : Bool

end HybridHeap
