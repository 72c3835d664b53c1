/-
Literals: JSON with more freedom of spelling. Gaps may hold comments; a string stands in any quote
marks; a key is a string, a word or an unsigned number; a container may have a comma at its end; and
`undefined` may stand for a value: it drops a member and makes an item null. At most 128 containers
nest. What is read is data only, and a text that is no literal is refused with a reason.
-/
import StateScript.Literal.Gap
import StateScript.Literal.Numeral
import StateScript.Literal.Quoted
import StateScript.Operand.Basic
import StateScript.Text.Letter
import StateScript.Text.Quote

namespace StateScript.Literal

open Text

/-- The most containers that may nest in a literal. -/
def maxDepth : Nat := 128

/-- A character that a word may begin with. -/
def isWordStart (c : Char) : Bool := isLetter c || c == '_' || c == '$'

/-- A character that a word may go on with. -/
def isWordPart (c : Char) : Bool := isLetter c || isNumber c || c == '_' || c == '$'

/-- The word that begins with a character. -/
def word (c : Char) (rest : List Char) : Taken (List Char) (c :: rest) :=
  ⟨c :: rest.takeWhile isWordPart, rest.dropWhile isWordPart,
    Nat.lt_succ_of_le (List.dropWhile_sublist isWordPart).length_le⟩

/-- The operand that a word names. -/
def keyword? (word : List Char) : Option Operand :=
  if word = ['t', 'r', 'u', 'e'] then some (.value (.bool true))
  else if word = ['f', 'a', 'l', 's', 'e'] then some (.value (.bool false))
  else if word = ['n', 'u', 'l', 'l'] then some (.value .null)
  else if word = ['u', 'n', 'd', 'e', 'f', 'i', 'n', 'e', 'd'] then some .undefined
  else none

/-- The key that a text begins with. -/
def key : (text : List Char) → Except Failure (Taken String text)
  | [] => .error ⟨.unterminatedObject, []⟩
  | c :: rest =>
    if isQuote c then
      (quoted c rest).map fun s => (s.map String.ofList).behind c
    else if isWordStart c then .ok ((word c rest).map String.ofList)
    else if c.isDigit ∨ c = '.' then
      (number (c :: rest)).map fun n => n.map fun n => String.ofList n.keyText
    else .error ⟨.badKey c, c :: rest⟩

/-- A member: a key, a colon and an operand. -/
def member (operand : (text : List Char) → Except Failure (Taken Operand text)) (text : List Char) :
    Except Failure (Taken (String × Operand) text) := do
  let name ← key text
  let colon ← expect ':' name.rest
  let value ← operand colon.rest
  .ok (name.after (colon.after (value.map (name.value, ·))))

/-- Elements up to a closing mark, with commas between them and perhaps one behind the last. `ended`
tells that the text ends behind an element. -/
def elements {α : Type} (close : Char) (ended : Cause)
    (element : (text : List Char) → Except Failure (Taken α text)) (text : List Char) :
    Except Failure (Taken (List α) text) := do
  let before ← gap text
  match front? close [] () before.rest with
  | some closed => .ok (before.after (closed.map fun _ => []))
  | none =>
    let first ← element before.rest
    let behind ← gap first.rest
    match front? ',' [] () behind.rest with
    | some comma =>
      let more ← elements close ended element comma.rest
      .ok (before.after (first.after (behind.after (comma.after (more.map (first.value :: ·))))))
    | none =>
      match front? close [] () behind.rest with
      | some closed => .ok (before.after (first.after (behind.after (closed.map fun _ => [first.value]))))
      | none =>
        match behind.rest with
        | [] => .error ⟨ended, []⟩
        | c :: rest => .error ⟨.missingSeparator close c, c :: rest⟩
termination_by text.length
decreasing_by
  have := before.notLonger
  have := first.shorter
  have := behind.notLonger
  have := comma.shorter
  omega

/-- The members that have a value. -/
def definedMembers (entries : List (String × Operand)) : List (String × Json) :=
  Members.ofList (entries.filterMap fun (name, operand) => operand.json?.map (name, ·))

/-- An operand other than a container, by its first character. -/
def scalar : (text : List Char) → Except Failure (Taken Operand text)
  | [] => .error ⟨.unexpectedEnd, []⟩
  | c :: rest =>
    if isQuote c then
      (quoted c rest).map fun s => (s.map (.value ∘ .string ∘ String.ofList)).behind c
    else if c = '-' ∨ c = '+' ∨ c = '.' ∨ c.isDigit then
      (number (c :: rest)).map fun n => n.map (.value ∘ .number)
    else if isWordStart c then
      let name := word c rest
      match keyword? name.value with
      | some operand => .ok (name.map fun _ => operand)
      | none => .error ⟨.unexpectedWord (String.ofList name.value), c :: rest⟩
    else .error ⟨.unexpectedCharacter c, c :: rest⟩

/-- An operand in which at most `budget` containers nest, a gap before it left aside. -/
def operand (budget : Nat) (text : List Char) : Except Failure (Taken Operand text) := do
  let before ← gap text
  match front? '\x7b' [] () before.rest, front? '[' [] () before.rest with
  | some opened, _ =>
    match budget with
    | 0 => .error ⟨.tooDeep maxDepth, opened.rest⟩
    | budget + 1 =>
      let entries ← elements '\x7d' .unterminatedObject (member (operand budget)) opened.rest
      .ok (before.after (opened.after (entries.map fun es => .value (.object (definedMembers es)))))
  | none, some opened =>
    match budget with
    | 0 => .error ⟨.tooDeep maxDepth, opened.rest⟩
    | budget + 1 =>
      let items ← elements ']' .unterminatedArray (operand budget) opened.rest
      .ok (before.after (opened.after (items.map fun vs => .value (.array (vs.map Operand.toJson)))))
  | none, none => (scalar before.rest).map before.after

/-- The value of a literal. -/
def read (text : List Char) : Except Failure Json := do
  let whole ← operand maxDepth text
  match whole.value with
  | .undefined => .error ⟨.undefinedValue, whole.rest⟩
  | .value json =>
    let behind ← gap whole.rest
    if behind.rest = [] then .ok json else .error ⟨.trailingText, behind.rest⟩

end StateScript.Literal
