/-!
The kinds of values. A kind says which shape a value has and whether that shape
holds references to other cells.
-/

namespace HybridHeap

inductive Kind
  | null
  | boolean
  | character
  | integer
  | double
  | string
  | symbol
  | pair
  | vector
  | closure
  | primitive
  deriving Repr, DecidableEq, Inhabited

namespace Kind

/-- All kinds, in the order in which they are numbered. -/
def all : List Kind :=
  [null, boolean, character, integer, double, string, symbol, pair, vector, closure,
    primitive]

/-- The word for a kind in messages. -/
def name : Kind → String
  | null => "null"
  | boolean => "boolean"
  | character => "character"
  | integer => "integer"
  | double => "double"
  | string => "string"
  | symbol => "symbol"
  | pair => "pair"
  | vector => "vector"
  | closure => "closure"
  | primitive => "primitive"

/-- The capitalised word for a kind in diagnostics. -/
def label : Kind → String
  | null => "Null"
  | boolean => "Boolean"
  | character => "Character"
  | integer => "Integer"
  | double => "Double"
  | string => "String"
  | symbol => "Symbol"
  | pair => "Pair"
  | vector => "Vector"
  | closure => "Closure"
  | primitive => "Primitive"

/-- Only pairs and vectors hold references. -/
def isStructural (k : Kind) : Bool :=
  k = pair || k = vector

end Kind

end HybridHeap
