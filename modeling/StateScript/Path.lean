/-
Paths: texts that address a place in a state, such as `a.b[0]["c.d"]`. A path is read from the left.
A run of characters other than `.`, `[` and `]` is a segment; so is what stands in brackets, if it is
a number, or a key in double quotes or apostrophes, where a backslash stands before a character that
is meant as itself. Every other character is passed over. A path has at least one segment.
-/
import StateScript.Text.Digit
import StateScript.Text.Letter
import StateScript.Text.Taken

namespace StateScript

open Text

namespace Path

/-- A character of a segment without brackets. -/
def isPlain (c : Char) : Bool := c != '.' && c != '[' && c != ']'

/-- A number in brackets: an optional minus sign, digits of any script, and optionally a point with
digits after it. -/
def isBracketNumber (key : List Char) : Bool :=
  let unsigned := match key with
    | '-' :: rest => rest
    | _ => key
  let whole := unsigned.takeWhile isScriptDigit
  match unsigned.dropWhile isScriptDigit with
  | [] => !whole.isEmpty
  | c :: fraction => !whole.isEmpty && c == '.' && !fraction.isEmpty && fraction.all isScriptDigit

/-- A character that a number in brackets may have. -/
def inBracketNumber (c : Char) : Bool := isScriptDigit c || c == '-' || c == '.'

/-- The number up to a closing bracket, which is read off with it. -/
def numberKey? (text : List Char) : Option (Taken (List Char) text) :=
  let key := text.takeWhile inBracketNumber
  match h : text.dropWhile inBracketNumber with
  | ']' :: rest =>
    if isBracketNumber key then
      some ⟨key, rest, by
        have := (List.dropWhile_sublist inBracketNumber (l := text)).length_le
        rw [h] at this; exact this⟩
    else none
  | _ => none

/-- The key up to the quote mark and a closing bracket, which are read off with it. A backslash gives
its place to the character after it, which may be any but a line feed. -/
def quotedKey? (quote : Char) : (text : List Char) → Option (Taken (List Char) text)
  | [] => none
  | '\\' :: [] => none
  | '\\' :: c :: text =>
    if c = '\n' then none
    else (quotedKey? quote text).map fun key => (key.map (c :: ·)).within (by simp only [List.length_cons]; omega)
  | c :: text =>
    if c = quote then
      match text with
      | ']' :: rest => some ⟨[], rest, by simp only [List.length_cons]; omega⟩
      | _ => none
    else (quotedKey? quote text).map fun key => (key.map (c :: ·)).behind c

/-- The segment in brackets that a text begins with. -/
def bracketKey? : (text : List Char) → Option (Taken (List Char) text)
  | '[' :: '"' :: text => (quotedKey? '"' text).map (·.within (by simp only [List.length_cons]; omega))
  | '[' :: '\'' :: text => (quotedKey? '\'' text).map (·.within (by simp only [List.length_cons]; omega))
  | '[' :: text => (numberKey? text).map (·.behind '[')
  | _ => none

/-- The segments of a path text. -/
def segmentsOf (text : List Char) : List (List Char) :=
  match text with
  | [] => []
  | c :: rest =>
    if isPlain c then (c :: rest.takeWhile isPlain) :: segmentsOf (rest.dropWhile isPlain)
    else
      match bracketKey? (c :: rest) with
      | some key => key.value :: segmentsOf key.rest
      | none => segmentsOf rest
termination_by text.length
decreasing_by
  · have := (List.dropWhile_sublist isPlain (l := rest)).length_le
    simp only [List.length_cons]; omega
  · exact key.shorter
  · exact Nat.lt_succ_self _

end Path

/-- A path text and its segments, of which there is at least one. -/
structure Path where
  text : String
  segments : List String
  nonempty : segments ≠ []
  deriving DecidableEq

/-- The path that a text writes. -/
def Path.ofText? (text : String) : Option Path :=
  let segments := (Path.segmentsOf text.toList).map String.ofList
  if h : segments ≠ [] then some ⟨text, segments, h⟩ else none

/-- The array index that a segment denotes: a run of ASCII digits, of a value that fits 64 bits. -/
def arrayIndex? (segment : String) : Option Nat :=
  let digits := segment.toList
  if digits ≠ [] ∧ digits.all (·.isDigit) ∧ ofDigits digits < 0x10000000000000000 then some (ofDigits digits) else none

end StateScript
