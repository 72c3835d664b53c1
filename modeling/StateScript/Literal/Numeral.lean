/-
Numerals of literals: an optional sign, digits with an optional point among, before or behind them,
and an optional exponent. Leading zeros do not matter. Digits alone that give a signed integer of 64
bits are that integer, also `-0`; every other numeral is the binary64 nearest to what it says.
-/
import StateScript.Json.Number
import StateScript.Literal.Failure
import StateScript.Text.Taken

namespace StateScript.Literal

open Text

/-- The exponent of a numeral: its letter, its sign if it has one, and its digits. -/
structure Exponent where
  letter : Char
  sign : Option Char
  digits : List Char
  deriving DecidableEq, Repr

/-- A numeral as it is spelled. The fraction is what stands behind a point. -/
structure Numeral where
  sign : Option Char
  whole : List Char
  fraction : Option (List Char)
  exponent : Option Exponent
  deriving DecidableEq, Repr

namespace Numeral

/-- A sign, if there is one. -/
def signPart : (text : List Char) → Reached (Option Char) text
  | '+' :: rest => .first (some '+') '+' rest
  | '-' :: rest => .first (some '-') '-' rest
  | text => .nothing none text

/-- A point and the digits behind it, if there is a point. -/
def fractionPart : (text : List Char) → Reached (Option (List Char)) text
  | '.' :: rest =>
    let digits := run Char.isDigit rest
    ⟨some digits.value, digits.rest, Nat.le_succ_of_le digits.notLonger⟩
  | text => .nothing none text

/-- An exponent, if the letter for it is there. -/
def exponentPart : (text : List Char) → Reached (Option Exponent) text
  | [] => .nothing none []
  | c :: rest =>
    if c = 'e' ∨ c = 'E' then
      let sign := signPart rest
      let digits := run Char.isDigit sign.rest
      ⟨some ⟨c, sign.value, digits.value⟩, digits.rest,
        Nat.le_succ_of_le (Nat.le_trans digits.notLonger sign.notLonger)⟩
    else .nothing none (c :: rest)

theorem fractionPart_shorter {text : List Char} (h : (fractionPart text).value ≠ none) :
    (fractionPart text).rest.length < text.length := by
  unfold fractionPart at h ⊢
  split
  · next rest => exact Nat.lt_succ_of_le (run Char.isDigit rest).notLonger
  · simp [Reached.nothing] at h

theorem exponentPart_shorter {text : List Char} (h : (exponentPart text).value ≠ none) :
    (exponentPart text).rest.length < text.length := by
  match text with
  | [] => simp [exponentPart, Reached.nothing] at h
  | c :: rest =>
    by_cases hc : c = 'e' ∨ c = 'E'
    · have := (run Char.isDigit (signPart rest).rest).notLonger
      have := (signPart rest).notLonger
      simp only [exponentPart, hc, if_true, List.length_cons]
      omega
    · simp [exponentPart, hc, Reached.nothing] at h

/-- The numeral that a text begins with: something beside the sign. -/
def take? (text : List Char) : Option (Taken Numeral text) :=
  let sign := signPart text
  let whole := run Char.isDigit sign.rest
  let fraction := fractionPart whole.rest
  let exponent := exponentPart fraction.rest
  if h : whole.value = [] ∧ fraction.value = none ∧ exponent.value = none then none
  else
    some ⟨⟨sign.value, whole.value, fraction.value, exponent.value⟩, exponent.rest, by
      have hs := sign.notLonger
      have hw := whole.notLonger
      have hf := fraction.notLonger
      have he := exponent.notLonger
      by_cases h1 : whole.value = []
      · by_cases h2 : fraction.value = none
        · have := @exponentPart_shorter fraction.rest fun h3 => h ⟨h1, h2, h3⟩
          exact Nat.lt_of_lt_of_le this (by omega)
        · have := @fractionPart_shorter whole.rest h2
          have : fraction.rest.length < whole.rest.length := this
          omega
      · have := @run_shorter _ sign.rest h1
        have : whole.rest.length < sign.rest.length := this
        omega⟩

/-- The numeral's text without its sign. -/
def unsigned (n : Numeral) : List Char :=
  let point := match n.fraction with
    | some digits => '.' :: digits
    | none => []
  let power := match n.exponent with
    | some e => e.letter :: (e.sign.toList ++ e.digits)
    | none => []
  n.whole ++ point ++ power

/-- The numeral has a minus sign. -/
def isNegative (n : Numeral) : Bool := n.sign = some '-'

/-- The numeral's text, without a plus sign before it. -/
def text (n : Numeral) : List Char := if n.isNegative then '-' :: n.unsigned else n.unsigned

/-- The integer that digits alone write, if it is a signed one of 64 bits. -/
def int? (n : Numeral) : Option Number :=
  let size : Int := ofDigits n.whole
  let value := if n.isNegative then -size else size
  if n.fraction = none ∧ n.exponent = none then
    if h : FitsSigned value then some (.int value h.fitsWord) else none
  else none

/-- The power of ten of a numeral, if its exponent, where it has one, has a digit. -/
def power? (n : Numeral) : Option Int :=
  match n.exponent with
  | none => some 0
  | some e =>
    if e.digits = [] then none
    else if e.sign = some '-' then some (-(ofDigits e.digits : Int))
    else some (ofDigits e.digits)

/-- The number that a numeral writes, or what is wrong with it. -/
def number (n : Numeral) : Except Cause Number :=
  match n.int? with
  | some i => .ok i
  | none =>
    let fraction := n.fraction.getD []
    let digits := n.whole ++ fraction
    match n.power? with
    | none => .error (.badNumber (String.ofList n.text))
    | some power =>
      if digits = [] then .error (.badNumber (String.ofList n.text))
      else
        match Binary64.ofDecimal? n.isNegative (ofDigits digits) (power - fraction.length) with
        | some x => .ok (.float x)
        | none => .error (.infiniteNumber (String.ofList n.text))

end Numeral

/-- The number that a text begins with. A point alone is no number, and has no numeral to show. -/
def number (text : List Char) : Except Failure (Taken Number text) :=
  match Numeral.take? text with
  | none => .error ⟨.emptyNumber, text⟩
  | some numeral =>
    if numeral.value.unsigned = ['.'] then .error ⟨.emptyNumber, text⟩
    else
      match numeral.value.number with
      | .ok n => .ok (numeral.map fun _ => n)
      | .error cause => .error ⟨cause, text⟩

end StateScript.Literal
