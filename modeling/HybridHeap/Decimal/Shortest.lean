/-!
The shortest decimal that reads back to a given binary floating-point number:
the coarsest power of ten that has a multiple in the interval of reals rounding
to the number, and of its multiples there the nearest one.
-/

namespace HybridHeap.Decimal

/-- A positive floating-point number, mantissa times a power of two. At the lower
end of a binade the gap to the next smaller number is half as wide. -/
structure Binary where
  mantissa : Nat
  exponent : Int
  narrowBelow : Bool
  deriving Repr, DecidableEq

/-- The number with the given fields of its 64 bits, if it is finite and not zero. -/
def Binary.ofFields? (exponent fraction : Nat) : Option Binary :=
  if exponent = 0x7ff then
    none
  else if exponent = 0 then
    if fraction = 0 then none
    else some { mantissa := fraction, exponent := -1074, narrowBelow := false }
  else
    some
      { mantissa := fraction + 0x10000000000000, exponent := (exponent : Int) - 1075,
        narrowBelow := fraction = 0 ∧ 1 < exponent }

/-- The multiplier of `10 ^ k` that is nearest to the number, among those whose
product rounds to the number; the larger one on a tie. All sides are scaled to
whole numbers: a candidate is multiplied by `unit` and a quarter of the
number's own last place by `quarter`. The ends of the interval round to the
number when its mantissa is even. -/
def Binary.onGrid? (b : Binary) (k : Int) : Option Nat :=
  let unit := Nat.pow 10 k.toNat * Nat.pow 2 (2 - b.exponent).toNat
  let quarter := Nat.pow 10 (-k).toNat * Nat.pow 2 (b.exponent - 2).toNat
  let exact := 4 * b.mantissa * quarter
  let low := (4 * b.mantissa - if b.narrowBelow then 1 else 2) * quarter
  let high := (4 * b.mantissa + 2) * quarter
  let hits := fun d =>
    if b.mantissa % 2 = 0 then decide (low ≤ d * unit) && decide (d * unit ≤ high)
    else decide (low < d * unit) && decide (d * unit < high)
  let below := exact / unit
  let above := below + 1
  if hits below then
    if hits above && decide (above * unit - exact ≤ exact - below * unit) then some above
    else some below
  else if hits above then
    some above
  else
    none

/-- The first grid with a hit, from the given number of steps above `10 ^ (-330)`
downwards. -/
def Binary.search (b : Binary) : Nat → Nat × Int
  | 0 => (0, 0)
  | n + 1 =>
    let k := (n : Int) - 330
    match b.onGrid? k with
    | some d => (d, k)
    | none => b.search n

/-- The shortest decimal, digits times a power of ten. No number is as large as
`10 ^ 310`. -/
def Binary.shortest (b : Binary) : Nat × Int :=
  b.search 641

end HybridHeap.Decimal
