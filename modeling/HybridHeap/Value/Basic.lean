import HybridHeap.Kind
import HybridHeap.Symbol
import HybridHeap.Expr
import HybridHeap.Reference

/-!
Values. A value is generic in the references it holds: inside a cell they are
slots, before it is placed in one they are handles, each of which keeps its
target rooted.
-/

namespace HybridHeap

/-- The values that refer to nothing. A double is given by its bits. -/
inductive Scalar
  | null
  | boolean (value : Bool)
  | character (value : Char)
  | integer (value : Int64)
  | double (bits : UInt64)
  | string (value : String)
  | symbol (value : Symbol)
  | primitive (value : Primitive)
  deriving DecidableEq, Inhabited

def Scalar.kind : Scalar → Kind
  | null => .null
  | boolean _ => .boolean
  | character _ => .character
  | integer _ => .integer
  | double _ => .double
  | string _ => .string
  | symbol _ => .symbol
  | primitive _ => .primitive

/-- A closure shares its environment with whoever else holds it; the
environment lives outside every heap. -/
inductive Value (ρ : Type)
  | scalar (value : Scalar)
  | pair (first second : ρ)
  | vector (elements : Array ρ)
  | closure (code : Code) (env : EnvId)
  deriving Inhabited

namespace Value

variable {ρ σ : Type}

def null : Value ρ := .scalar .null

def integer (n : Int64) : Value ρ := .scalar (.integer n)

def kind : Value ρ → Kind
  | scalar s => s.kind
  | pair .. => .pair
  | vector _ => .vector
  | closure .. => .closure

/-- The references a value holds, in order: first before second, elements by
index. -/
def children : Value ρ → List ρ
  | pair a b => [a, b]
  | vector es => es.toList
  | _ => []

/-- The environment a closure holds. -/
def env? : Value ρ → Option EnvId
  | closure _ e => some e
  | _ => none

def map (f : ρ → σ) : Value ρ → Value σ
  | scalar s => .scalar s
  | pair a b => .pair (f a) (f b)
  | vector es => .vector (es.map f)
  | closure c e => .closure c e

/-- Replace the child with the given number; a value without such a child is
left alone. -/
def setChild (v : Value ρ) (index : Nat) (child : ρ) : Value ρ :=
  match v, index with
  | pair _ b, 0 => pair child b
  | pair a _, 1 => pair a child
  | vector es, i => vector (es.setIfInBounds i child)
  | v, _ => v

/-- The value with every slot nulled, as a cell has it once it is freed. -/
def nulled (v : Value Slot) : Value Slot :=
  v.map fun _ => none

/-- The cells that the slots of a value refer to, in order. -/
def targets (v : Value Slot) : List CellId :=
  v.children.filterMap id

/-- The roots that the handles of a value own, in order. -/
def anchors (v : Value Handle) : List Root :=
  v.children.filterMap id

/-- The value as a cell holds it, its handles turned into slots. -/
def placed (v : Value Handle) : Value Slot :=
  v.map Handle.target

@[simp] theorem children_map (f : ρ → σ) (v : Value ρ) :
    (v.map f).children = v.children.map f := by
  cases v <;> simp [map, children]

@[simp] theorem kind_map (f : ρ → σ) (v : Value ρ) : (v.map f).kind = v.kind := by
  cases v <;> rfl

@[simp] theorem env?_map (f : ρ → σ) (v : Value ρ) : (v.map f).env? = v.env? := by
  cases v <;> rfl

end Value

end HybridHeap
