/-
Why a text is no literal. A failure is a cause and the text that was left unread when it was found,
from which its place is counted: the bytes of UTF-8 from the beginning of the text.
-/
import StateScript.Text.Position

namespace StateScript.Literal

open Text

/-- What is wrong with a literal. -/
inductive Cause where
  | unterminatedComment
  | unterminatedString
  | unterminatedArray
  | unterminatedObject
  | unexpectedEnd
  | unexpectedCharacter (found : Char)
  | unexpectedWord (word : String)
  | missing (expected : Char) (found : Option Char)
  | missingSeparator (close found : Char)
  | badKey (found : Char)
  | tooDeep (limit : Nat)
  | endInEscape
  | shortEscape
  | badEscape (digits : String)
  | badCodePoint (digits : String)
  | unterminatedCodePoint
  | emptyNumber
  | badNumber (numeral : String)
  | infiniteNumber (numeral : String)
  | undefinedValue
  | trailingText
  deriving DecidableEq, Repr

/-- A cause, and the text left unread. -/
structure Failure where
  cause : Cause
  unread : List Char
  deriving DecidableEq, Repr

/-- The wording of a cause at a place. Not every cause tells its place. -/
def Cause.message (place : Nat) : Cause → String
  | unterminatedComment => "Unterminated comment"
  | unterminatedString => "Unterminated string"
  | unterminatedArray => "Unterminated array"
  | unterminatedObject => "Unterminated object"
  | unexpectedEnd => "Unexpected end of input"
  | unexpectedCharacter found => s!"Unexpected character '{found}' at position {place}"
  | unexpectedWord word => s!"Unexpected identifier '{word}' at position {place}"
  | missing expected (some found) => s!"Expected '{expected}' at position {place}, found '{found}'"
  | missing expected none => s!"Expected '{expected}' at position {place}, found EOF"
  | missingSeparator close found => s!"Expected ',' or '{close}' at position {place}, found '{found}'"
  | badKey found => s!"Invalid object key start '{found}' at position {place}"
  | tooDeep limit => s!"Nesting deeper than {limit} at position {place}"
  | endInEscape => "Unexpected end of input in string escape"
  | shortEscape => "Unexpected end of input in escape"
  | badEscape digits => s!"Invalid hex escape: {digits}"
  | badCodePoint digits => s!"Invalid hex in \\u escape: {digits}"
  | unterminatedCodePoint => "Unterminated \\u\x7b\x7d escape"
  | emptyNumber => s!"Invalid number at position {place}"
  | badNumber numeral => s!"Invalid number '{numeral}' at position {place}"
  | infiniteNumber numeral => s!"Non-finite number '{numeral}' at position {place}"
  | undefinedValue => "Top-level undefined"
  | trailingText => s!"Trailing content at position {place}"

/-- The place of a failure in the text that was read. -/
def Failure.place (failure : Failure) (text : List Char) : Nat := byteCount text - byteCount failure.unread

/-- The wording of a failure to read the text. -/
def Failure.message (failure : Failure) (text : List Char) : String :=
  failure.cause.message (failure.place text)

end StateScript.Literal
