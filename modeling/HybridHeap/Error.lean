import HybridHeap.Kind

/-!
The ways in which an operation can be refused, and the text of each refusal.
-/

namespace HybridHeap

/-- A reference was used in a way that its target does not allow. -/
inductive AccessError
  | nullHandle
  | notAPair
  | notAVector
  | indexOutOfBounds (index length : Nat)
  deriving Repr, DecidableEq

def AccessError.message : AccessError → String
  | nullHandle => "null handle"
  | notAPair => "value is not a pair"
  | notAVector => "value is not a vector"
  | indexOutOfBounds index length =>
    s!"index {index} out of bounds for vector of length {length}"

/-- Arguments do not fit their parameters, or a name has no binding. -/
inductive BindError
  | insufficientArguments (expected got : Nat)
  | redundantArguments (expected got : Nat)
  | unbound (name : String)
  deriving Repr, DecidableEq

def BindError.message : BindError → String
  | insufficientArguments expected got =>
    s!"insufficient number of arguments: expected {expected}, got {got}"
  | redundantArguments expected got => s!"redundant arguments: expected {expected}, got {got}"
  | unbound name => s!"unbound variable: {name}"

/-- A cell of the given size in bytes could not be had. -/
inductive HeapError
  | outOfMemory (size : Nat)
  deriving Repr, DecidableEq

def HeapError.message : HeapError → String
  | outOfMemory size => s!"out of memory allocating {size} byte heap cell"

/-- A reference crosses from one heap into another: inside a value to be placed,
inside a value that replaces another, or as the target of a writer. -/
inductive ForeignReference
  | inNewCell
  | inReplacement
  | asTarget
  deriving Repr, DecidableEq

def ForeignReference.message : ForeignReference → String
  | inNewCell => "value refers to a cell in another heap"
  | inReplacement => "slot refers to a cell in another heap"
  | asTarget => "handles belong to different heaps"

/-- Everything that can come back instead of a result. The step limit is the bound
on the length of an evaluation; a missing scope is a register of a script that holds no
environment. -/
inductive Failure
  | access (error : AccessError)
  | bind (error : BindError)
  | unboundVariable (name : String)
  | notCallable (kind : Kind)
  | foreign (reference : ForeignReference)
  | stepLimit
  | missingScope (register : String)
  deriving Repr, DecidableEq

def Failure.message : Failure → String
  | access error => error.message
  | bind error => error.message
  | unboundVariable name => (BindError.unbound name).message
  | notCallable kind => kind.name
  | foreign reference => reference.message
  | stepLimit => "evaluation takes too many steps"
  | missingScope register => s!"no env {register}"

end HybridHeap
