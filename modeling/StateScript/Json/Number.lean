/-
Numbers of JSON values. An integer of 64 bits, signed or unsigned, is kept exact; every other number
is a finite binary64. The two kinds are never equal to each other. A sum is exact while both terms
and the sum are signed integers of 64 bits, and a rounded sum of binary64 otherwise.
-/
import StateScript.Binary64.Shortest
import StateScript.Text.Digit

namespace StateScript

open Text

/-- The integer has 64 bits, signed or unsigned. -/
abbrev FitsWord (i : Int) : Prop := -0x8000000000000000 ≤ i ∧ i < 0x10000000000000000

/-- The integer has 64 bits, one of them the sign. -/
abbrev FitsSigned (i : Int) : Prop := -0x8000000000000000 ≤ i ∧ i < 0x8000000000000000

/-- A number of a JSON value. -/
inductive Number where
  | int (value : Int) (fits : FitsWord value)
  | float (value : Binary64)
  deriving DecidableEq

theorem FitsSigned.fitsWord {i : Int} (h : FitsSigned i) : FitsWord i := by
  exact ⟨h.1, by have := h.2; omega⟩

namespace Number

/-- Equality of numbers: each kind by itself. -/
def same : Number → Number → Bool
  | int i _, int j _ => i = j
  | float x, float y => x.same y
  | _, _ => false

/-- The number as a binary64, rounded if it must be. -/
def toBinary64? : Number → Option Binary64
  | int i _ => Binary64.ofInt? i
  | float x => some x

/-- The number as a signed integer of 64 bits, if it is one. -/
def signed? : Number → Option Int
  | int i _ => if i < 0x8000000000000000 then some i else none
  | float _ => none

/-- The sum of two signed integers, if it is one itself. -/
def exactSum? (a b : Number) : Option Number :=
  match a.signed?, b.signed? with
  | some i, some j => if h : FitsSigned (i + j) then some (int (i + j) h.fitsWord) else none
  | _, _ => none

/-- The sum, exact if it can be; nothing when it is too large for a binary64. -/
def add? (a b : Number) : Option Number :=
  match exactSum? a b with
  | some sum => some sum
  | none =>
    a.toBinary64?.bind fun x => b.toBinary64?.bind fun y => (x.add? y).map float

/-- The whole part, toward zero. -/
def truncate : Number → Int
  | int i _ => i
  | float x => x.truncate

/-! ## Text -/

/-- The digits of a binary64 with the point so many places behind the first digit's front. -/
def placePoint (digits : List Char) (place : Int) : List Char :=
  if place ≤ 0 then '0' :: '.' :: (List.replicate (-place).toNat '0' ++ digits)
  else if digits.length ≤ place then
    digits ++ List.replicate (place.toNat - digits.length) '0' ++ ['.', '0']
  else digits.take place.toNat ++ '.' :: digits.drop place.toNat

/-- The digits of a binary64 with a power of ten: a point behind the first digit, if there are more,
and the exponent always with its sign. -/
def withExponent (digits : List Char) (exponent : Int) : List Char :=
  let mantissa := match digits with
    | first :: second :: rest => first :: '.' :: second :: rest
    | _ => digits
  mantissa ++ 'e' :: (if exponent < 0 then '-' else '+') :: toDigits exponent.natAbs

/-- The text of a binary64: its fewest digits, with a point and at least one digit after it from
10^-5 on and below 10^16, with a power of ten otherwise. -/
def floatText (x : Binary64) : List Char :=
  let size :=
    if x.isZero then ['0', '.', '0']
    else
      let (d, k) := x.shortest
      let digits := toDigits d
      let place : Int := digits.length + k
      if -5 < place ∧ place ≤ 16 then placePoint digits place else withExponent digits (place - 1)
  if x.negative then '-' :: size else size

/-- The text of a number. -/
def text : Number → List Char
  | int i _ => intDigits i
  | float x => floatText x

/-- The text of a number as a key: a whole binary64 below 2^53 is written as the integer it is. -/
def keyText : Number → List Char
  | int i _ => intDigits i
  | float x => if x.isWhole ∧ x.truncate.natAbs < 0x20000000000000 then intDigits x.truncate else floatText x

@[simp] theorem same_self (n : Number) : n.same n = true := by cases n <;> simp [same]

theorem same_comm (m n : Number) : m.same n = n.same m := by
  cases m <;> cases n <;> simp [same, Binary64.same_comm, eq_comm]

end Number

end StateScript
