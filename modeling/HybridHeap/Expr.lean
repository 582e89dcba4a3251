/-!
Code: the expressions of a small call-by-value language, the lambdas made from
them, the native procedures, and what else a closure may carry as its code.
-/

namespace HybridHeap

inductive Expr
  | int (value : Int64)
  | var (name : String)
  | lambda (params : List String) (rest : Option String) (body : Expr)
  | call (callee : Expr) (args : List Expr)
  deriving Repr, Inhabited

/-- A procedure with positional parameters and, perhaps, a name for the list of
all further arguments. -/
structure Lambda where
  params : List String
  rest : Option String
  body : Expr
  deriving Repr, Inhabited

/-- What a closure runs. The heap never looks at it; only a lambda can be
applied. -/
inductive Code
  | number (value : UInt32)
  | text (value : String)
  | lambda (value : Lambda)
  | sealed
  deriving Repr, Inhabited

/-- The native procedures. -/
inductive Primitive
  | nothing
  | identity
  | add
  | cons
  | car
  | cdr
  | list
  | vector
  | gc
  deriving Repr, DecidableEq, Inhabited

namespace Primitive

def all : List Primitive :=
  [nothing, identity, add, cons, car, cdr, list, vector, gc]

def name : Primitive → String
  | nothing => "nothing"
  | identity => "identity"
  | add => "+"
  | cons => "cons"
  | car => "car"
  | cdr => "cdr"
  | list => "list"
  | vector => "vector"
  | gc => "gc"

def ofName? (name : String) : Option Primitive :=
  all.find? fun p => p.name = name

end Primitive

end HybridHeap
