/-
Typing the text of an argument. The first that fits decides: the word `undefined`; JSON text, the
words `true`, `false` and `null` among it; a literal, for a text in braces or in brackets; and the
text itself, without the quote marks it may stand in. Every text is an operand.
-/
import StateScript.Json.Reader
import StateScript.Literal.Reader

namespace StateScript.Operand

open Text

/-- The text begins with one bracket and ends in another. -/
def isBetween (opening closing : Char) (text : List Char) : Bool :=
  text.head? = some opening ∧ text.getLast? = some closing

/-- The text is in braces or in brackets. -/
def isBracketed (text : List Char) : Bool := isBetween '\x7b' '\x7d' text || isBetween '[' ']' text

/-- The value of a literal in braces or in brackets. -/
def literal? (text : List Char) : Option Json :=
  if isBracketed text then (Literal.read text).toOption else none

/-- The operand that a trimmed text gives. -/
def ofTrimmed (text : List Char) : Operand :=
  if text = ['u', 'n', 'd', 'e', 'f', 'i', 'n', 'e', 'd'] then undefined
  else
    match Json.read? text with
    | some json => value json
    | none =>
      match literal? text with
      | some json => value json
      | none => value (.string (String.ofList (unquote text)))

/-- The operand that the text of an argument gives. -/
def ofText (text : List Char) : Operand := ofTrimmed (trim text)

end StateScript.Operand
