/-
The text of a JSON value. In a string only the double quote, the backslash and the characters below
U+0020 are escaped. Two layouts differ in what they write between the parts of a container: the
compact one nothing, the indented one a line feed and two spaces a level, and a space after a colon.
An empty container is written without a gap in both. Printing a value in front of a rest is the same
as printing it and appending the rest.
-/
import StateScript.Json.Basic

namespace StateScript.Json

open Text

/-- What is written between the parts of a container. -/
structure Layout where
  /-- The gap before an item, or before a closing bracket, at a level. -/
  gap : Nat → List Char
  /-- The mark between a key and its value. -/
  colon : List Char

/-- Nothing between the parts. -/
def Layout.compact : Layout := ⟨fun _ => [], [':']⟩

/-- Each part on a line of its own. -/
def Layout.indented : Layout := ⟨fun level => '\n' :: List.replicate (2 * level) ' ', [':', ' ']⟩

/-- A character as it stands in a string. -/
def escape (c : Char) : List Char :=
  if c = '"' then ['\\', '"']
  else if c = '\\' then ['\\', '\\']
  else if c = '\n' then ['\\', 'n']
  else if c = '\r' then ['\\', 'r']
  else if c = '\t' then ['\\', 't']
  else if c.toNat = 8 then ['\\', 'b']
  else if c.toNat = 12 then ['\\', 'f']
  else if c.toNat < 32 then ['\\', 'u', '0', '0', hexChar (c.toNat / 16), hexChar (c.toNat % 16)]
  else [c]

/-- A string in its quotes, and the rest. -/
def quote (s : String) (rest : List Char) : List Char :=
  '"' :: (s.toList.flatMap escape ++ '"' :: rest)

mutual

/-- A value at a level, and the rest. -/
def print (layout : Layout) (level : Nat) : Json → List Char → List Char
  | null, rest => 'n' :: 'u' :: 'l' :: 'l' :: rest
  | bool true, rest => 't' :: 'r' :: 'u' :: 'e' :: rest
  | bool false, rest => 'f' :: 'a' :: 'l' :: 's' :: 'e' :: rest
  | number n, rest => n.text ++ rest
  | string s, rest => quote s rest
  | array items, rest =>
    let close := if items.isEmpty then [] else layout.gap level
    '[' :: printItems layout (level + 1) items (close ++ ']' :: rest)
  | object members, rest =>
    let close := if members.isEmpty then [] else layout.gap level
    '\x7b' :: printMembers layout (level + 1) members (close ++ '\x7d' :: rest)
termination_by structural v => v

/-- Items with commas between them, and the rest. -/
def printItems (layout : Layout) (level : Nat) : List Json → List Char → List Char
  | [], rest => rest
  | v :: more, rest =>
    let tail := if more.isEmpty then rest else ',' :: printItems layout level more rest
    layout.gap level ++ print layout level v tail
termination_by structural vs => vs

/-- Members with commas between them, and the rest. -/
def printMembers (layout : Layout) (level : Nat) : List (String × Json) → List Char → List Char
  | [], rest => rest
  | (k, v) :: more, rest =>
    let tail := if more.isEmpty then rest else ',' :: printMembers layout level more rest
    layout.gap level ++ quote k (layout.colon ++ print layout level v tail)
termination_by structural ms => ms

end

/-- The text of a value without gaps. -/
def compact (v : Json) : List Char := v.print .compact 0 []

/-- The text of a value, each part on a line of its own. -/
def indented (v : Json) : List Char := v.print .indented 0 []

/-! ## The rest -/

theorem quote_append (s : String) (rest : List Char) : quote s [] ++ rest = quote s rest := by
  simp [quote]

mutual

theorem print_append (layout : Layout) (level : Nat) : ∀ (v : Json) (rest more : List Char),
    print layout level v rest ++ more = print layout level v (rest ++ more)
  | null, _, _ => rfl
  | bool true, _, _ => rfl
  | bool false, _, _ => rfl
  | number _, _, _ => List.append_assoc ..
  | string _, _, _ => by simp [print, quote]
  | array items, rest, more => by simp [print, printItems_append layout (level + 1) items]
  | object members, rest, more => by simp [print, printMembers_append layout (level + 1) members]
termination_by structural v => v

theorem printItems_append (layout : Layout) (level : Nat) : ∀ (vs : List Json) (rest more : List Char),
    printItems layout level vs rest ++ more = printItems layout level vs (rest ++ more)
  | [], _, _ => rfl
  | v :: vs, rest, more => by
    simp only [printItems, List.append_assoc, print_append layout level v]
    split
    · rfl
    · rw [List.cons_append, printItems_append layout level vs]
termination_by structural vs => vs

theorem printMembers_append (layout : Layout) (level : Nat) :
    ∀ (ms : List (String × Json)) (rest more : List Char),
      printMembers layout level ms rest ++ more = printMembers layout level ms (rest ++ more)
  | [], _, _ => rfl
  | (k, v) :: ms, rest, more => by
    simp only [printMembers, quote, List.append_assoc, List.cons_append, print_append layout level v]
    split
    · rfl
    · rw [List.cons_append, printMembers_append layout level ms]
termination_by structural ms => ms

end

end StateScript.Json
