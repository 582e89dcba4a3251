import HybridHeap.Error
import HybridHeap.Value.Basic

/-!
Positions inside values: the two halves of a pair and the elements of a vector,
for reading one reference or replacing it.
-/

namespace HybridHeap

inductive Position
  | first
  | second
  | element (index : Nat)
  deriving Repr, DecidableEq

namespace Value

variable {ρ : Type}

/-- The number of elements of a vector. -/
def vectorSize (v : Value ρ) : Except AccessError Nat :=
  match v with
  | vector es => .ok es.size
  | _ => .error .notAVector

/-- The reference at a position. -/
def get (v : Value ρ) (p : Position) : Except AccessError ρ :=
  match v, p with
  | pair a _, .first => .ok a
  | pair _ b, .second => .ok b
  | _, .first | _, .second => .error .notAPair
  | vector es, .element i =>
    match es[i]? with
    | some e => .ok e
    | none => .error (.indexOutOfBounds i es.size)
  | _, .element _ => .error .notAVector

/-- The value with another reference at a position. -/
def replace (v : Value ρ) (p : Position) (x : ρ) : Value ρ :=
  match v, p with
  | pair _ b, .first => pair x b
  | pair a _, .second => pair a x
  | vector es, .element i => vector (es.setIfInBounds i x)
  | v, _ => v

/-- The vector with one more element at its end. -/
def append (v : Value ρ) (x : ρ) : Except AccessError (Value ρ) :=
  match v with
  | vector es => .ok (vector (es.push x))
  | _ => .error .notAVector

end Value

end HybridHeap
