/-
Reading JSON text. The grammar is the standard one: blanks are the space, the tab, the line feed and
the carriage return, at most 127 containers nest, and a text holds one value. A repeated key keeps
its place and takes the last value. A numeral without point and exponent that fits 64 bits is an
integer, save `-0`; any other is a binary64, computed from as many digits as 64 bits hold and scaled
by a power of ten, and is refused when it is too large.
-/
import StateScript.Json.Basic
import StateScript.Text.Surrogate
import StateScript.Text.Taken

namespace StateScript.Json.Reader

open Text

/-! ## Marks -/

/-- A blank of JSON text. -/
def isSpace (c : Char) : Bool := c == ' ' || c == '\t' || c == '\n' || c == '\r'

/-- A character that stands next, blanks before it left aside. -/
def mark? (c : Char) (text : List Char) : Option (Taken Unit text) :=
  let blanks := run isSpace text
  (front? c [] () blanks.rest).map blanks.after

/-! ## Strings -/

/-- Four hexadecimal digits. -/
def unit? : (text : List Char) → Option (Taken Nat text)
  | a :: b :: c :: d :: rest => (ofHex? [a, b, c, d]).map fun n => ⟨n, rest, by simp only [List.length_cons]; omega⟩
  | _ => none

/-- A character by number, as one unit or as a surrogate pair. -/
def byNumber? (text : List Char) : Option (Taken Char text) :=
  (unit? text).bind fun first =>
    if isHighSurrogate first.value then
      (front? '\\' ['u'] () first.rest).bind fun mark =>
        (unit? mark.rest).bind fun second =>
          if isLowSurrogate second.value then
            (scalar? (ofSurrogates first.value second.value)).map fun c =>
              first.after (mark.after (second.map fun _ => c))
          else none
    else (scalar? first.value).map fun c => first.map fun _ => c

/-- The character that is written with a backslash before `c`. -/
def named? (c : Char) : Option Char :=
  if c = '"' ∨ c = '\\' ∨ c = '/' then some c
  else if c = 'b' then some '\x08'
  else if c = 'f' then some '\x0c'
  else if c = 'n' then some '\n'
  else if c = 'r' then some '\r'
  else if c = 't' then some '\t'
  else none

/-- What follows a backslash. -/
def escaped? : (text : List Char) → Option (Taken Char text)
  | [] => none
  | c :: rest =>
    if c = 'u' then (byNumber? rest).map (·.behind c)
    else (named? c).map (.first · c rest)

/-- The characters of a string up to its closing quote, which is read off with them. -/
def stringBody? : (text : List Char) → Option (Taken (List Char) text)
  | [] => none
  | c :: rest =>
    if c = '"' then some (.first [] c rest)
    else if c = '\\' then
      (escaped? rest).bind fun d =>
        (stringBody? d.rest).map fun more =>
          (d.after (more.map (d.value :: ·))).behind c
    else if c.toNat < 32 then none
    else (stringBody? rest).map fun more => (more.map (c :: ·)).behind c
termination_by text => text.length
decreasing_by
  · have := d.shorter; simp only [List.length_cons]; omega
  · exact Nat.lt_succ_self _

/-! ## Numerals -/

/-- The parts of a numeral. -/
structure Numeral where
  negative : Bool
  whole : List Char
  fraction : List Char
  exponent : Option Int
  deriving DecidableEq, Repr

/-- A minus sign, if there is one. -/
def minus : (text : List Char) → Reached Bool text
  | '-' :: rest => .first true '-' rest
  | text => .nothing false text

/-- A point with digits after it, if there is a point. -/
def fraction? : (text : List Char) → Option (Reached (List Char) text)
  | '.' :: rest => (run? Char.isDigit rest).map fun digits => digits.reached.behind '.'
  | text => some (.nothing [] text)

/-- The digits of an exponent, with a sign if there is one. -/
def exponentDigits? : (text : List Char) → Option (Taken Int text)
  | '+' :: rest => (run? Char.isDigit rest).map fun digits =>
    (digits.map fun ds => (ofDigits ds : Int)).behind _
  | '-' :: rest => (run? Char.isDigit rest).map fun digits =>
    (digits.map fun ds => -(ofDigits ds : Int)).behind _
  | text => (run? Char.isDigit text).map fun digits => digits.map fun ds => (ofDigits ds : Int)

/-- An exponent, if the letter for it is there. -/
def exponent? : (text : List Char) → Option (Reached (Option Int) text)
  | [] => some (.nothing none [])
  | c :: rest =>
    if c = 'e' ∨ c = 'E' then
      (exponentDigits? rest).map fun e => (e.map some).reached.behind _
    else some (.nothing none (c :: rest))

/-- A numeral. Its whole part has a digit, and begins with a zero only if it is nothing else. -/
def numeral? (text : List Char) : Option (Taken Numeral text) :=
  let sign := minus text
  (run? Char.isDigit sign.rest).bind fun whole =>
    if whole.value.head? = some '0' ∧ whole.value ≠ ['0'] then none
    else
      (fraction? whole.rest).bind fun fraction =>
        (exponent? fraction.rest).map fun exponent =>
          ⟨⟨sign.value, whole.value, fraction.value, exponent.value⟩, exponent.rest, by
            have := sign.notLonger; have := whole.shorter
            have := fraction.notLonger; have := exponent.notLonger
            omega⟩

/-- The leading digits of a numeral that 64 bits hold, as a number, and the power of ten of the last
of them. `full` says that a digit has been dropped. -/
structure Significand where
  digits : Nat
  exponent : Int
  full : Bool

/-- The significand with a further digit of the whole part: a dropped one counts a power of ten. -/
def Significand.withWhole (s : Significand) (c : Char) : Significand :=
  let digits := 10 * s.digits + digitValue c
  if s.full ∨ 0x10000000000000000 ≤ digits then { s with exponent := s.exponent + 1, full := true }
  else { s with digits }

/-- The significand with a further digit of the fraction: a dropped one does not count. -/
def Significand.withFraction (s : Significand) (c : Char) : Significand :=
  let digits := 10 * s.digits + digitValue c
  if s.full ∨ 0x10000000000000000 ≤ digits then { s with full := true }
  else { s with digits, exponent := s.exponent - 1 }

/-- The significand of a numeral. The fraction begins with room, whatever the whole part dropped. -/
def Numeral.significand (n : Numeral) : Significand :=
  let whole := n.whole.foldl Significand.withWhole ⟨0, 0, false⟩
  n.fraction.foldl Significand.withFraction { whole with full := false }

/-- The integer that a numeral without point and exponent writes, if it fits and is not `-0`. -/
def Numeral.int? (n : Numeral) : Option Number :=
  let size : Int := ofDigits n.whole
  let value := if n.negative then -size else size
  if n.fraction = [] ∧ n.exponent = none ∧ ¬ (n.negative ∧ size = 0) then
    if h : FitsWord value then some (.int value h) else none
  else none

/-- The binary64 that a numeral writes, if it is not too large. -/
def Numeral.float? (n : Numeral) : Option Number :=
  let s := n.significand
  (Binary64.ofInt? s.digits).bind fun x =>
    (x.scaleByTens? (s.exponent + n.exponent.getD 0)).map fun y =>
      .float (if n.negative then y.neg else y)

/-- The number that a numeral writes. -/
def Numeral.number? (n : Numeral) : Option Number :=
  match n.int? with
  | some i => some i
  | none => n.float?

/-! ## Values -/

/-- One or more elements up to a closing mark, with commas between them. -/
def elements? {α : Type} (close : Char) (element : (text : List Char) → Option (Taken α text))
    (text : List Char) : Option (Taken (List α) text) :=
  (element text).bind fun first =>
    match mark? ',' first.rest with
    | some comma =>
      (elements? close element comma.rest).map fun more =>
        first.after (comma.after (more.map (first.value :: ·)))
    | none => (mark? close first.rest).map fun closed => first.after (closed.map fun _ => [first.value])
termination_by text.length
decreasing_by exact Nat.lt_trans comma.shorter first.shorter

/-- Elements up to a closing mark, which may be the first. -/
def list? {α : Type} (close : Char) (element : (text : List Char) → Option (Taken α text))
    (text : List Char) : Option (Taken (List α) text) :=
  match mark? close text with
  | some closed => some (closed.map fun _ => [])
  | none => elements? close element text

/-- A member: a key, a colon and a value. -/
def member? (value : (text : List Char) → Option (Taken Json text)) (text : List Char) :
    Option (Taken (String × Json) text) :=
  (mark? '"' text).bind fun opened =>
    (stringBody? opened.rest).bind fun key =>
      (mark? ':' key.rest).bind fun colon =>
        (value colon.rest).map fun v =>
          opened.after (key.after (colon.after (v.map (String.ofList key.value, ·))))

/-- A value without containers, by its first character. -/
def scalarValue? (text : List Char) : Option (Taken Json text) :=
  match text with
  | '"' :: rest => (stringBody? rest).map fun s => (s.map (.string ∘ String.ofList)).behind _
  | 'n' :: rest => front? 'n' ['u', 'l', 'l'] .null ('n' :: rest)
  | 't' :: rest => front? 't' ['r', 'u', 'e'] (.bool true) ('t' :: rest)
  | 'f' :: rest => front? 'f' ['a', 'l', 's', 'e'] (.bool false) ('f' :: rest)
  | text => (numeral? text).bind fun n => n.value.number?.map fun x => n.map fun _ => .number x

/-- A value in which at most `budget` containers nest, blanks before it left aside. -/
def value? (budget : Nat) (text : List Char) : Option (Taken Json text) :=
  let blanks := run isSpace text
  match front? '[' [] () blanks.rest, front? '\x7b' [] () blanks.rest with
  | some opened, _ =>
    match budget with
    | 0 => none
    | budget + 1 =>
      (list? ']' (value? budget) opened.rest).map fun items =>
        blanks.after (opened.after (items.map .array))
  | none, some opened =>
    match budget with
    | 0 => none
    | budget + 1 =>
      (list? '\x7d' (member? (value? budget)) opened.rest).map fun members =>
        blanks.after (opened.after (members.map (.object ∘ Members.ofList)))
  | none, none => (scalarValue? blanks.rest).map blanks.after

end StateScript.Json.Reader

namespace StateScript.Json

/-- The most containers that may nest in JSON text. -/
def maxDepth : Nat := 127

/-- The value that a JSON text holds. -/
def read? (text : List Char) : Option Json :=
  (Reader.value? maxDepth text).bind fun v =>
    if (Text.run Reader.isSpace v.rest).rest = [] then some v.value else none

end StateScript.Json
