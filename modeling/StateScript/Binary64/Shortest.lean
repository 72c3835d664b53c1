/-
The shortest decimal number that reads back. The reals that round to a number of the format make an
interval around it, its ends included when the significand is even. Among the grids of the powers of
ten, from the coarsest on, the first that has a point in the interval gives the fewest digits; of two
points the nearer is taken, and the even one when both are equally near.
-/
import StateScript.Binary64.Basic

namespace StateScript.Binary64

/-- Compares `a · 10^k` with `b · 2^e` exactly, by moving each negative power to the other side. -/
def compareDecimal (a : Nat) (k : Int) (b : Nat) (e : Int) : Ordering :=
  compare (a * Nat.pow 10 k.toNat * Nat.pow 2 (-e).toNat) (b * Nat.pow 2 e.toNat * Nat.pow 10 (-k).toNat)

/-- The lower end of the interval that rounds to the number, in quarters of its last place. Below a
power of two the numbers of the format are twice as dense. -/
def lowerQuarters (x : Binary64) : Nat :=
  if x.significand = 0x10000000000000 ∧ x.exponent ≠ -1074 then 4 * x.significand - 1 else 4 * x.significand - 2

/-- The upper end of the interval that rounds to the number, in quarters of its last place. -/
def upperQuarters (x : Binary64) : Nat := 4 * x.significand + 2

/-- The decimal number `d · 10^k` rounds to the size of the number. -/
def reads (x : Binary64) (d : Nat) (k : Int) : Bool :=
  let even := x.significand % 2 == 0
  let low := compareDecimal d k x.lowerQuarters (x.exponent - 2)
  let high := compareDecimal d k x.upperQuarters (x.exponent - 2)
  (low == .gt || (low == .eq && even)) && (high == .lt || (high == .eq && even))

/-- The point of the grid `10^k` that rounds to the size of the number, the nearest if there are two. -/
def onGrid? (x : Binary64) (k : Int) : Option Nat :=
  let q := x.numerator * Nat.pow 10 (-k).toNat / (x.denominator * Nat.pow 10 k.toNat)
  match x.reads q k, x.reads (q + 1) k with
  | true, true =>
    match compareDecimal (2 * q + 1) k (2 * x.significand) x.exponent with
    | .lt => some (q + 1)
    | .gt => some q
    | .eq => some (if q % 2 = 0 then q else q + 1)
  | true, false => some q
  | false, true => some (q + 1)
  | false, false => none

/-- A power of ten that is not far above the number: its logarithm by 30103/100000, the logarithm of
two, and two more. -/
def coarsest (x : Binary64) : Int :=
  ((x.significand.log2 : Int) + x.exponent) * 30103 / 100000 + 2

/-- The fewest digits that read back as the size of the number, with the power of ten of the last
one. No grid finer than the twentieth is needed. -/
def shortest (x : Binary64) : Nat × Int :=
  ((List.range 21).findSome? fun (i : Nat) =>
    (x.onGrid? (x.coarsest - (i : Int))).map fun d => (d, x.coarsest - (i : Int))).getD (0, 0)

end StateScript.Binary64
