/-
The arguments of a call: the text between its parentheses, cut at the commas that stand outside all
quotes and groups. A backslash takes away the meaning of the next character, inside quotes and out;
a quote ends only at its own mark; the three kinds of brackets are counted apart. Each argument is
trimmed, and a blank last one does not count, so that an empty text has no arguments and a comma at
the end adds none.

The counts of the brackets are integers without a bound here. Counters of 32 bits hold the same counts
in every text of fewer than 2^31 characters (`Nesting.toInt_ofInt_count_past`); in a longer one they may
overflow.
-/
import StateScript.Text.Quote

namespace StateScript.Arguments

open Text

/-- What is open at a place between the parentheses of a call. The counts of the brackets fall below
zero where more are closed than were opened. -/
structure Nesting where
  escaped : Bool := false
  quote : Option Char := none
  parens : Int := 0
  brackets : Int := 0
  braces : Int := 0
  deriving DecidableEq, Repr

namespace Nesting

/-- No quote and no bracket is open. -/
def isClosed (n : Nesting) : Bool :=
  n.quote = none ∧ n.parens = 0 ∧ n.brackets = 0 ∧ n.braces = 0

/-- A comma here stands between two arguments. -/
def atComma (n : Nesting) : Bool := !n.escaped && n.isClosed

/-- What an unescaped character outside quotes opens or closes. -/
def openClose (n : Nesting) (c : Char) : Nesting :=
  if isQuote c then { n with quote := some c }
  else if c = '(' then { n with parens := n.parens + 1 }
  else if c = ')' then { n with parens := n.parens - 1 }
  else if c = '[' then { n with brackets := n.brackets + 1 }
  else if c = ']' then { n with brackets := n.brackets - 1 }
  else if c = '\x7b' then { n with braces := n.braces + 1 }
  else if c = '\x7d' then { n with braces := n.braces - 1 }
  else n

/-- What is open after one character more. -/
def step (n : Nesting) (c : Char) : Nesting :=
  -- an escaped character opens and closes nothing, not even an escape
  if n.escaped then { n with escaped := false }
  else if c = '\\' then { n with escaped := true }
  else
    match n.quote with
    | some q => if c = q then { n with quote := none } else n
    | none => n.openClose c

/-- What is open after a piece of text. -/
def past (n : Nesting) (piece : List Char) : Nesting := piece.foldl step n

end Nesting

/-- The text cut at its separating commas, where `n` is open before it. There is one piece more than
there are such commas. -/
def pieces (n : Nesting) : List Char → List (List Char)
  | [] => [[]]
  | c :: body =>
    if c = ',' ∧ n.atComma then [] :: pieces n body
    else (pieces (n.step c) body).modifyHead (c :: ·)

/-- The pieces trimmed, less the last one if it is blank. -/
def trimmed : List (List Char) → List (List Char)
  | [] => []
  | [last] => if trim last = [] then [] else [trim last]
  | piece :: rest => trim piece :: trimmed rest

/-- The arguments in the text between the parentheses of a call. -/
def split (body : List Char) : List (List Char) := trimmed (pieces {} body)

/-- The text leaves no quote and no bracket open. -/
def isBalanced (body : List Char) : Bool := (({} : Nesting).past body).isClosed

/-- The arguments of a text that leaves nothing open. -/
def splitBalanced? (body : List Char) : Option (List (List Char)) :=
  if isBalanced body then some (split body) else none

/-! ## Pieces -/

theorem pieces_ne_nil (n : Nesting) (body : List Char) : pieces n body ≠ [] := by
  induction body generalizing n with
  | nil => simp [pieces]
  | cons c body ih =>
    rw [pieces]
    split
    · simp
    · intro h
      exact ih (n.step c) (by simpa using h)

/-- The pieces with commas between them are the text. -/
theorem intercalate_pieces (n : Nesting) (body : List Char) : [','].intercalate (pieces n body) = body := by
  induction body generalizing n with
  | nil => rfl
  | cons c body ih =>
    have hne := fun n => pieces_ne_nil n body
    rw [pieces]
    split
    · next h =>
      have := ih n
      cases hp : pieces n body with
      | nil => exact absurd hp (hne n)
      | cons p ps => rw [hp] at this; simp_all [List.intercalate, List.intersperse]
    · have := ih (n.step c)
      cases hp : pieces (n.step c) body with
      | nil => exact absurd hp (hne _)
      | cons p ps =>
        rw [hp] at this
        cases ps <;> simp_all [List.intercalate, List.intersperse]

end StateScript.Arguments
