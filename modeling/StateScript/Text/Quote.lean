/-
Quote marks. Three characters quote a text: the double quote, the apostrophe and the backtick.
`unquote` takes one pair of equal marks off a trimmed text and leaves every other text trimmed.
-/
import StateScript.Text.Blank

namespace StateScript.Text

/-- One of the three quote marks. -/
def isQuote (c : Char) : Bool := c == '"' || c == '\'' || c == '\x60'

/-- The text without the one pair of equal quote marks it may stand in. A lone mark is no pair. -/
def stripQuotes : List Char → List Char
  | [] => []
  | q :: inner => if isQuote q ∧ inner.getLast? = some q then inner.dropLast else q :: inner

/-- The trimmed text, without the one pair of equal quote marks it may stand in. -/
def unquote (text : List Char) : List Char := stripQuotes (trim text)

/-- A text in a pair of marks loses just this pair. -/
theorem stripQuotes_pair {q : Char} (hq : isQuote q = true) (inner : List Char) :
    stripQuotes (q :: (inner ++ [q])) = inner := by
  simp [stripQuotes, hq]

theorem not_isQuote_of_isBlank {c : Char} (h : isBlank c = true) : isQuote c = false := by
  have h1 := ne_of_isBlank h (show isBlank '"' = false by decide)
  have h2 := ne_of_isBlank h (show isBlank '\'' = false by decide)
  have h3 := ne_of_isBlank h (show isBlank '\x60' = false by decide)
  simp [isQuote, h1, h2, h3]

end StateScript.Text
