/-
Finite numbers of binary64, held as a sign, a significand and a power of two, in the one form that
the format gives each. All arithmetic is exact on naturals and integers and is rounded once, to the
nearest number of the format and to the even one of two; a result too large for the format is `none`.
-/

namespace StateScript

/-- The quotient of two naturals, to the nearest whole number and to the even one of two. -/
def roundQuotient (n d : Nat) : Nat :=
  if 2 * (n % d) < d ∨ (2 * (n % d) = d ∧ n / d % 2 = 0) then n / d else n / d + 1

/-- A finite number of binary64: the significand times two to the exponent, with a sign, which zero
has too. The significand has 53 bits, or fewer at the least exponent. -/
structure Binary64 where
  negative : Bool
  significand : Nat
  exponent : Int
  canonical : significand < 0x20000000000000 ∧ -1074 ≤ exponent ∧ exponent ≤ 971 ∧
    (0x10000000000000 ≤ significand ∨ exponent = -1074)
  deriving DecidableEq

namespace Binary64

/-- Zero, of either sign. -/
def zero (negative : Bool) : Binary64 := ⟨negative, 0, -1074, by decide⟩

/-- The number is a zero. -/
def isZero (x : Binary64) : Bool := x.significand = 0

/-- The number with the other sign. -/
def neg (x : Binary64) : Binary64 := { x with negative := !x.negative }

/-- The number of these parts, if the format has it in this form. -/
def ofParts? (negative : Bool) (significand : Nat) (exponent : Int) : Option Binary64 :=
  if h : significand < 0x20000000000000 ∧ -1074 ≤ exponent ∧ exponent ≤ 971 ∧
      (0x10000000000000 ≤ significand ∨ exponent = -1074) then
    some ⟨negative, significand, exponent, h⟩
  else none

/-- The power of two at or below a ratio of positive naturals. -/
def binade (n d : Nat) : Int :=
  let e : Int := (n.log2 : Int) - d.log2
  if n * Nat.pow 2 (-e).toNat < d * Nat.pow 2 e.toNat then e - 1 else e

/-- The ratio rounded to the format. -/
def ofRatio? (negative : Bool) (n d : Nat) : Option Binary64 :=
  if n = 0 then some (zero negative)
  else
    let e := max (binade n d - 52) (-1074)
    let m := roundQuotient (n * Nat.pow 2 (-e).toNat) (d * Nat.pow 2 e.toNat)
    -- rounding up may reach the next power of two
    if m = 0x20000000000000 then ofParts? negative 0x10000000000000 (e + 1) else ofParts? negative m e

/-- The size of the number is the ratio of `numerator` and `denominator`. -/
def numerator (x : Binary64) : Nat := x.significand * Nat.pow 2 x.exponent.toNat

/-- The size of the number is the ratio of `numerator` and `denominator`. -/
def denominator (x : Binary64) : Nat := Nat.pow 2 (-x.exponent).toNat

/-- An integer rounded to the format. -/
def ofInt? (i : Int) : Option Binary64 := ofRatio? (i < 0) i.natAbs 1

/-! ## Arithmetic -/

/-- The number in units of two to an exponent not above its own. -/
def units (x : Binary64) (e : Int) : Int :=
  let size : Int := (x.significand * Nat.pow 2 (x.exponent - e).toNat : Nat)
  if x.negative then -size else size

/-- The rounded sum. A sum of nothing is negative only when both terms are. -/
def add? (x y : Binary64) : Option Binary64 :=
  let e := min x.exponent y.exponent
  let sum := x.units e + y.units e
  if sum = 0 then some (zero (x.negative && y.negative))
  else ofRatio? (sum < 0) (sum.natAbs * Nat.pow 2 e.toNat) (Nat.pow 2 (-e).toNat)

/-- The rounded product. -/
def mul? (x y : Binary64) : Option Binary64 :=
  ofRatio? (x.negative != y.negative) (x.numerator * y.numerator) (x.denominator * y.denominator)

/-- The rounded quotient, by a number other than zero. -/
def div? (x y : Binary64) : Option Binary64 :=
  ofRatio? (x.negative != y.negative) (x.numerator * y.denominator) (x.denominator * y.numerator)

/-- The whole part, toward zero. -/
def truncate (x : Binary64) : Int :=
  let whole : Int := (x.numerator / x.denominator : Nat)
  if x.negative then -whole else whole

/-- The number has no part after the point. -/
def isWhole (x : Binary64) : Bool := x.numerator % x.denominator = 0

/-- Equality of numbers: the two zeros are equal. -/
def same (x y : Binary64) : Bool := x = y || (x.isZero && y.isZero)

/-! ## Decimal numbers -/

/-- The decimal number `digits · 10^exponent` rounded to the format. An exponent far outside the
format is decided without the power: from 10^400 on nothing is finite, and what is below 2^-1080
rounds to zero. -/
def ofDecimal? (negative : Bool) (digits : Nat) (exponent : Int) : Option Binary64 :=
  if digits = 0 then some (zero negative)
  else if 400 < exponent then none
  else if (digits.log2 : Int) + 1 + 3 * exponent < -1080 then some (zero negative)
  else ofRatio? negative (digits * Nat.pow 10 exponent.toNat) (Nat.pow 10 (-exponent).toNat)

/-- The number of the format nearest to a power of ten. -/
def powerOfTen? (n : Nat) : Option Binary64 := ofDecimal? false 1 n

/-- The number times ten to the exponent, by one multiplication or division with a power of ten up
to 10^308, after as many divisions by 10^308 as a smaller exponent asks for. Each step is rounded. -/
def scaleByTens? (x : Binary64) (exponent : Int) : Option Binary64 :=
  if exponent.natAbs ≤ 308 then
    (powerOfTen? exponent.natAbs).bind fun power =>
      if 0 ≤ exponent then x.mul? power else x.div? power
  else if x.isZero then some x
  else if 0 ≤ exponent then none
  else
    (powerOfTen? 308).bind fun power =>
      (x.div? power).bind fun y => scaleByTens? y (exponent + 308)
termination_by exponent.natAbs
decreasing_by omega

/-! ## Small facts -/

@[simp] theorem same_self (x : Binary64) : x.same x = true := by simp [same]

theorem same_comm (x y : Binary64) : x.same y = y.same x := by
  simp [same, Bool.and_comm, eq_comm]

theorem ofParts?_parts {negative : Bool} {m : Nat} {e : Int} {x : Binary64}
    (h : ofParts? negative m e = some x) : x.negative = negative ∧ x.significand = m ∧ x.exponent = e := by
  unfold ofParts? at h
  split at h
  · cases h; exact ⟨rfl, rfl, rfl⟩
  · cases h

end Binary64

end StateScript
