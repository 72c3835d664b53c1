/-
Quoted strings of literals. A string stands in any of the three quote marks and ends at its own one.
A backslash writes a character by name, by two hexadecimal digits after `x`, by four after `u` (two
such escapes for a surrogate pair), or by any number of them in braces after `u`; before a line feed
it writes nothing, and before any other character just that one. A number that is no character
writes the replacement character.
-/
import StateScript.Literal.Failure
import StateScript.Text.Digit
import StateScript.Text.Surrogate
import StateScript.Text.Taken

namespace StateScript.Literal

open Text

/-- The character of a number, or the replacement character. -/
def orReplacement (n : Nat) : Char := (scalar? n).getD '\ufffd'

/-- A number of 32 bits in hexadecimal digits, which a plus sign may stand before. -/
def hexWord? (text : List Char) : Option Nat :=
  let digits := match text with
    | '+' :: rest => rest
    | _ => text
  (ofHex? digits).filter (· < 0x100000000)

/-- The number in so many bytes of hexadecimal digits. -/
def hexEscape (size : Nat) (text : List Char) : Except Failure (Reached Nat text) :=
  match h : splitBytes? size text with
  | none => .error ⟨.shortEscape, text⟩
  | some (digits, rest) =>
    match hexWord? digits with
    | none => .error ⟨.badEscape (String.ofList digits), text⟩
    | some n => .ok ⟨n, rest, by rw [(splitBytes?_eq_some h).1]; simp⟩

/-- A character by its number in braces, the opening one already read. -/
def bracedEscape (text : List Char) : Except Failure (Reached Char text) :=
  let digits := run (· ≠ '\x7d') text
  match front? '\x7d' [] () digits.rest with
  | none => .error ⟨.unterminatedCodePoint, text⟩
  | some close =>
    match hexWord? digits.value with
    | none => .error ⟨.badCodePoint (String.ofList digits.value), text⟩
    | some n => .ok (digits.after (close.map fun _ => orReplacement n)).reached

/-- A character by four digits, or by twice four if the first give a high surrogate and the others,
with a backslash and `u` before them, a low one. -/
def unitEscape (text : List Char) : Except Failure (Reached Char text) := do
  let first ← hexEscape 4 text
  let alone : Reached Char text := ⟨orReplacement first.value, first.rest, first.notLonger⟩
  if isHighSurrogate first.value then
    match front? '\\' ['u'] () first.rest with
    | none => .ok alone
    | some mark =>
      let second ← hexEscape 4 mark.rest
      if isLowSurrogate second.value then
        .ok ⟨orReplacement (ofSurrogates first.value second.value), second.rest, by
          have := first.notLonger; have := mark.shorter; have := second.notLonger; omega⟩
      else .ok alone
  else .ok alone

/-- The character that a backslash and this one write. -/
def named (c : Char) : Char :=
  if c = 'n' then '\n'
  else if c = 'r' then '\r'
  else if c = 't' then '\t'
  else if c = 'b' then '\x08'
  else if c = 'f' then '\x0c'
  else if c = 'v' then '\x0b'
  else if c = '0' then '\x00'
  else c

/-- What follows a backslash: one character, or none at the end of a line. -/
def escaped : (text : List Char) → Except Failure (Taken (List Char) text)
  | [] => .error ⟨.endInEscape, []⟩
  | c :: rest =>
    if c = 'u' then
      match front? '\x7b' [] () rest with
      | some opened =>
        (bracedEscape opened.rest).map fun d => ((d.map ([·])).within opened.notLonger).taken c
      | none => (unitEscape rest).map fun d => (d.map ([·])).taken c
    else if c = 'x' then (hexEscape 2 rest).map fun n => (n.map fun n => [orReplacement n]).taken c
    else if c = '\n' then .ok (.first [] c rest)
    else .ok (.first [named c] c rest)

/-- The characters of a string up to its closing quote mark, which is read off with them. -/
def quoted (quote : Char) : (text : List Char) → Except Failure (Taken (List Char) text)
  | [] => .error ⟨.unterminatedString, []⟩
  | c :: rest =>
    if c = quote then .ok (.first [] c rest)
    else if c = '\\' then do
      let front ← escaped rest
      let more ← quoted quote front.rest
      .ok ((front.after (more.map (front.value ++ ·))).behind c)
    else (quoted quote rest).map fun more => (more.map (c :: ·)).behind c
termination_by text => text.length
decreasing_by
  · have := front.shorter; simp only [List.length_cons]; omega
  · exact Nat.lt_succ_self _

end StateScript.Literal
