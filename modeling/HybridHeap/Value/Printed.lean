import HybridHeap.Decimal.Shortest
import HybridHeap.Text.Quoted
import HybridHeap.Value.Basic

/-!
The diagnostic text of values. Slots show the number of the cell they refer to;
the environment of a closure is not shown.
-/

namespace HybridHeap

/-- Positional notation is used from `10 ^ (-4)` up to below `10 ^ 16`. -/
def positionalExponents : Int × Int := (-4, 15)

/-- Digits with a point after the first `n`, filled up with zeros on either side.
At least one digit stands on each side of the point. -/
def positional (digits : String) (n : Int) : String :=
  if n ≤ 0 then
    "0." ++ String.ofList (List.replicate (-n).toNat '0') ++ digits
  else if digits.length ≤ n.toNat then
    digits ++ String.ofList (List.replicate (n.toNat - digits.length) '0') ++ ".0"
  else
    String.ofList (digits.toList.take n.toNat) ++ "." ++
      String.ofList (digits.toList.drop n.toNat)

/-- Digits with a point after the first, unless it is the only one, and an
exponent. -/
def scientific (digits : String) (exponent : Int) : String :=
  let mantissa :=
    match digits.toList with
    | [] => ""
    | [d] => d.toString
    | d :: ds => d.toString ++ "." ++ String.ofList ds
  mantissa ++ "e" ++ toString exponent

/-- The shortest text that reads back to the double with the given bits. -/
def doubleText (bits : UInt64) : String :=
  let negative := (bits >>> 63) = 1
  let exponent := ((bits >>> 52) &&& 0x7ff).toNat
  let fraction := (bits &&& 0xfffffffffffff).toNat
  let sign := if negative then "-" else ""
  match Decimal.Binary.ofFields? exponent fraction with
  | some b =>
    let (d, k) := b.shortest
    let digits := toString d
    let leading := k + digits.length - 1
    if positionalExponents.1 ≤ leading ∧ leading ≤ positionalExponents.2 then
      sign ++ positional digits (leading + 1)
    else
      sign ++ scientific digits leading
  | none =>
    if exponent = 0 then sign ++ "0.0"
    else if fraction = 0 then sign ++ "inf"
    else "NaN"

def Slot.print : Slot → String
  | none => "Slot(null)"
  | some c => s!"Slot(#{c.number})"

def Primitive.print (p : Primitive) : String :=
  "#<primitive " ++ p.name ++ ">"

def Symbol.print (s : Symbol) : String :=
  "Symbol \x7b name: " ++ Text.quoted s.name ++ " \x7d"

def Scalar.print : Scalar → String
  | null => "Null"
  | boolean b => s!"Boolean({b})"
  | character c => "Character(" ++ Text.quotedChar c ++ ")"
  | integer n => s!"Integer({n.toInt})"
  | double bits => "Double(" ++ doubleText bits ++ ")"
  | string s => "String(" ++ Text.quoted s ++ ")"
  | symbol s => "Symbol(" ++ s.print ++ ")"
  | primitive p => "Primitive(" ++ p.print ++ ")"

def Value.print : Value Slot → String
  | scalar s => s.print
  | pair a b => "Pair(Pair \x7b first: " ++ a.print ++ ", second: " ++ b.print ++ " \x7d)"
  | vector es =>
    "Vector(Vector \x7b elements: [" ++ ", ".intercalate (es.toList.map Slot.print) ++ "] \x7d)"
  | closure .. => "Closure(Closure \x7b env: #env, .. \x7d)"

end HybridHeap
