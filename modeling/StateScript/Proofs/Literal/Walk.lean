/-
Literals read in place. A walk keeps the whole text and stands at an offset of bytes in it; it moves on by
bytes, by the width of a character, by a count of digits or by what a search found, and whatever it looks at it
cuts out of the text at its offsets. It also counts the containers that are open.

Nothing in these definitions rules a bad step out: a cut behind the end of the text or inside of a character,
halves of a surrogate pair below their range or beyond Unicode, the closing of a container that was never
opened, a round of a loop or a nested value that leaves the walk where it was, and operands nested without a
bound. Each of them is a fault, told apart from the refusal of a text.
-/
import StateScript.Literal.Reader

namespace StateScript.Literal

open Text

/-- A step that a walk must not take. -/
inductive Fault where
  | cut (offset : Nat)
  | underflow (minuend subtrahend : Nat)
  | beyondUnicode (n : Nat)
  | unopened
  | stalled (offset : Nat)
  | overflow
  deriving DecidableEq, Repr

/-- Why a walk stops early: at a fault, or because the text is refused with a message. -/
inductive Halt where
  | fault (fault : Fault)
  | refusal (message : String)
  deriving DecidableEq, Repr

/-- Where a walk stands: the bytes behind it, and the containers that are open. -/
structure Cursor where
  offset : Nat
  depth : Nat
  deriving DecidableEq, Repr

/-- A walk over a text. -/
abbrev Walk (α : Type) := ReaderT (List Char) (StateT Cursor (Except Halt)) α

namespace Walk

/-- The outcome of a walk over the text. -/
def outcome {α : Type} (walk : Walk α) (text : List Char) (cursor : Cursor) : Except Halt (α × Cursor) :=
  (walk.run text).run cursor

def fault {α : Type} (f : Fault) : Walk α := throw (.fault f)

/-- The text is refused at the offset. -/
def refuseAt {α : Type} (offset : Nat) (cause : Cause) : Walk α := throw (.refusal (cause.message offset))

/-- The whole text. -/
def whole : Walk (List Char) := ReaderT.read

/-! ## Offsets -/

def offset : Walk Nat := return (← get).offset

def moveTo (offset : Nat) : Walk Unit := modify fun cursor => { cursor with offset }

def move (bytes : Nat) : Walk Unit := modify fun cursor => { cursor with offset := cursor.offset + bytes }

/-- The text is refused where the walk stands. -/
def refuse {α : Type} (cause : Cause) : Walk α := do refuseAt (← offset) cause

/-- The walk has moved on from an offset. -/
def advanced (start : Nat) : Walk Unit := do
  let now ← offset
  if start < now then pure () else fault (.stalled now)

/-! ## Loops -/

/-- What a round of a loop comes to: a round more, or the end of the loop. -/
inductive Round (σ β : Type) where
  | again (state : σ)
  | done (value : β)

/-- Rounds up to one that ends the loop. It is a fault if a round goes on and the walk has not moved on in it, or
has moved on behind the end of the text. -/
def rounds {σ β : Type} (round : σ → Walk (Round σ β)) (text : List Char) (state : σ) (cursor : Cursor) :
    Except Halt (β × Cursor) :=
  match (round state).outcome text cursor with
  | .error halt => .error halt
  | .ok (.done value, next) => .ok (value, next)
  | .ok (.again state, next) =>
    if byteCount text < next.offset then .error (.fault (.cut next.offset))
    else if next.offset ≤ cursor.offset then .error (.fault (.stalled next.offset))
    else rounds round text state next
termination_by byteCount text - cursor.offset

def loop {σ β : Type} (round : σ → Walk (Round σ β)) (state : σ) : Walk β := fun text cursor =>
  rounds round text state cursor

/-! ## Cuts -/

/-- The two parts of a piece of text. A cut behind its end or inside of a character is a fault. -/
def cut (offset : Nat) (piece : List Char) : Walk (List Char × List Char) :=
  match splitBytes? offset piece with
  | some parts => pure parts
  | none => fault (.cut offset)

/-- What is still to be read. -/
def remaining : Walk (List Char) := return (← cut (← offset) (← whole)).2

/-- What stands between two offsets. It is a fault if they stand in the wrong order. -/
def between (start stop : Nat) : Walk (List Char) := do
  let (front, _) ← cut stop (← whole)
  let (_, piece) ← cut start front
  pure piece

def peekChar : Walk (Option Char) := return (← remaining).head?

/-- The next character, which is passed. -/
def bump : Walk (Option Char) := do
  match ← peekChar with
  | some c =>
    move c.utf8Size
    pure (some c)
  | none => pure none

/-- A byte is passed if the next character is in the class. -/
def passIf (p : Char → Bool) : Walk Bool := do
  if (← peekChar).any p then
    move 1
    pure true
  else pure false

/-- A character in the class is passed, by so many bytes. -/
def passRound (p : Char → Bool) (width : Char → Nat) : Walk (Round Unit Unit) := do
  match ← peekChar with
  | some c =>
    if p c then
      move (width c)
      pure (.again ())
    else pure (.done ())
  | none => pure (.done ())

/-- Characters in the class are passed, each by so many bytes. -/
def passWhile (p : Char → Bool) (width : Char → Nat) : Walk Unit := loop (fun _ => passRound p width) ()

/-- The offset at which a pattern stands first in a text. -/
def find? (pattern : List Char) : List Char → Option Nat
  | [] => none
  | c :: text => if pattern.isPrefixOf (c :: text) then some 0 else (find? pattern text).map (c.utf8Size + ·)

/-! ## Gaps and marks -/

/-- The line is passed, and with it the line feed that ends it. -/
def passLine : Walk Unit := do
  match find? ['\n'] (← remaining) with
  | some n => move (n + 1)
  | none => moveTo (byteCount (← whole))

/-- A comment is passed, from its opening to its end. -/
def passComment : Walk Unit := do
  let (_, body) ← cut 2 (← remaining)
  match find? ['*', '/'] body with
  | some n => move (n + 4)
  | none => refuse .unterminatedComment

/-- Blanks are passed, and a comment behind them. -/
def gapRound : Walk (Round Unit Unit) := do
  passWhile isBlank Char.utf8Size
  if ['/', '/'].isPrefixOf (← remaining) then
    passLine
    pure (.again ())
  else if ['/', '*'].isPrefixOf (← remaining) then
    passComment
    pure (.again ())
  else pure (.done ())

/-- Blanks and comments are passed. -/
def gap : Walk Unit := loop (fun _ => gapRound) ()

/-- The character behind a gap. -/
def peek : Walk (Option Char) := do
  gap
  peekChar

/-- A character behind a gap is passed. -/
def expect (c : Char) : Walk Unit := do
  let found ← peek
  if found = some c then move c.utf8Size else refuse (.missing c found)

/-! ## Strings -/

/-- The number in so many bytes of hexadecimal digits. -/
def hexEscape (size : Nat) : Walk Nat := do
  match splitBytes? size (← remaining) with
  | none => refuse .shortEscape
  | some (digits, _) =>
    match hexWord? digits with
    | none => refuse (.badEscape (String.ofList digits))
    | some n =>
      move size
      pure n

/-- A difference. It is a fault if it is below zero. -/
def minus (a b : Nat) : Walk Nat := if b ≤ a then pure (a - b) else fault (.underflow a b)

/-- The number of a surrogate pair. It is a fault if Unicode has no number so great. -/
def pair (high low : Nat) : Walk Nat := do
  let n := 0x10000 + (← minus high 0xd800) <<< 10 + (← minus low 0xdc00)
  if n ≤ 0x10ffff then pure n else fault (.beyondUnicode n)

/-- A character by its number in braces, the opening one already passed. -/
def bracedEscape : Walk Char := do
  match find? ['\x7d'] (← remaining) with
  | none => refuse .unterminatedCodePoint
  | some n =>
    let (digits, _) ← cut n (← remaining)
    match hexWord? digits with
    | none => refuse (.badCodePoint (String.ofList digits))
    | some code =>
      move (n + 1)
      pure (orReplacement code)

/-- A character by four digits or, for a surrogate pair, by twice four. The walk goes back behind the first
four if the others are not the second half. -/
def unitEscape : Walk Char := do
  let first ← hexEscape 4
  if isHighSurrogate first && ['\\', 'u'].isPrefixOf (← remaining) then
    let saved ← offset
    move 2
    let second ← hexEscape 4
    if isLowSurrogate second then return orReplacement (← pair first second)
    else
      moveTo saved
      pure (orReplacement first)
  else pure (orReplacement first)

/-- What follows a backslash. -/
def escaped : Walk (List Char) := do
  match ← bump with
  | none => refuse .endInEscape
  | some c =>
    if c = 'u' then
      if ← passIf (· == '\x7b') then return [← bracedEscape] else return [← unitEscape]
    else if c = 'x' then return [orReplacement (← hexEscape 2)]
    else if c = '\n' then pure []
    else pure [named c]

/-- What a character in a string stands for, with what follows it if it is a backslash. -/
def written (c : Char) : Walk (List Char) := if c = '\\' then escaped else pure [c]

/-- A character of a string, put behind those read before, or the closing quote mark. -/
def quotedRound (quote : Char) (read : List Char) : Walk (Round (List Char) (List Char)) := do
  match ← bump with
  | none => refuse .unterminatedString
  | some c => if c = quote then pure (.done read) else return .again (read ++ (← written c))

def quoted (quote : Char) : Walk (List Char) := do
  expect quote
  loop (quotedRound quote) []

/-! ## Numbers and words -/

def passDigits : Walk Unit := passWhile Char.isDigit fun _ => 1

def isSign (c : Char) : Bool := c == '+' || c == '-'

/-- A letter that an exponent begins with. -/
def isPower (c : Char) : Bool := c == 'e' || c == 'E'

def passSign : Walk Bool := passIf isSign

def passFraction : Walk Unit := do
  if ← passIf (· == '.') then passDigits

def passExponent : Walk Unit := do
  if ← passIf isPower then
    let _ ← passSign
    passDigits

/-- The number that a numeral cut out of the text writes. -/
def convert (numeral : List Char) : Except Cause Number :=
  match Numeral.take? numeral with
  | none => .error .emptyNumber
  | some taken => taken.value.number

/-- A number: where it ends is found first, and then it is cut out. -/
def number : Walk Number := do
  gap
  let start ← offset
  let _ ← passSign
  let behind ← offset
  passDigits
  passFraction
  passExponent
  let stop ← offset
  let numeral ← between start stop
  let unsigned ← between behind stop
  if unsigned = [] ∨ unsigned = ['.'] then refuseAt start .emptyNumber
  else
    match convert numeral with
    | .ok n => pure n
    | .error cause => refuseAt start cause

def word : Walk (List Char) := do
  let start ← offset
  passWhile isWordPart Char.utf8Size
  between start (← offset)

/-! ## Containers -/

def key : Walk String := do
  match ← peek with
  | none => refuse .unterminatedObject
  | some c =>
    if isQuote c then return String.ofList (← quoted c)
    else if isWordStart c then return String.ofList (← word)
    else if c.isDigit ∨ c = '.' then return String.ofList (← number).keyText
    else refuse (.badKey c)

/-- A container more is open. -/
def enter : Walk Unit := do
  modify fun cursor => { cursor with depth := cursor.depth + 1 }
  if maxDepth < (← get).depth then refuse (.tooDeep maxDepth)

/-- A container less is open. It is a fault if none was. -/
def leave : Walk Unit := do
  match (← get).depth with
  | 0 => fault .unopened
  | depth + 1 => modify fun cursor => { cursor with depth }

/-- The container is left if its closing mark comes next. -/
def closed (close : Char) : Walk Bool := do
  if (← peek) = some close then
    move 1
    leave
    pure true
  else pure false

/-- A comma is passed, which the closing mark may stand for. -/
def separator (close : Char) (ended : Cause) : Walk Unit := do
  match ← peek with
  | none => refuse ended
  | some c =>
    if c = ',' then move 1
    else if c = close then pure ()
    else refuse (.missingSeparator close c)

/-- A value behind which the walk has moved on. -/
def nested {α : Type} (walk : Walk α) : Walk α := do
  let before ← offset
  let value ← walk
  advanced before
  pure value

/-- A member: a key, a colon and an operand. -/
def member (operand : Walk Operand) : Walk (String × Operand) := do
  let name ← key
  expect ':'
  let value ← nested operand
  pure (name, value)

/-- An element and its separator. -/
def separated {α : Type} (close : Char) (ended : Cause) (element : Walk α) : Walk α := do
  let a ← element
  separator close ended
  pure a

/-- The container is left with what was read before, or an element is added to it. -/
def elementsRound {α β : Type} (close : Char) (ended : Cause) (element : Walk α) (add : β → α → β) (read : β) :
    Walk (Round β β) := do
  if ← closed close then pure (.done read) else return .again (add read (← separated close ended element))

/-- The elements of an open container, each added to those read before. -/
def elements {α β : Type} (close : Char) (ended : Cause) (element : Walk α) (add : β → α → β) (read : β) : Walk β :=
  loop (elementsRound close ended element add) read

/-- A member is put to those read before, unless it is undefined. -/
def putDefined (members : List (String × Json)) (entry : String × Operand) : List (String × Json) :=
  match entry.2.json? with
  | some json => Members.put entry.1 json members
  | none => members

/-- An item is added to those read before, as null if it is undefined. -/
def addItem (items : List Json) (value : Operand) : List Json := items ++ [value.toJson]

/-- An operand other than a container, by its first character. -/
def scalar (c : Char) : Walk Operand := do
  if isQuote c then return .value (.string (String.ofList (← quoted c)))
  else if c = '-' ∨ c = '+' ∨ c = '.' ∨ c.isDigit then return .value (.number (← number))
  else if isWordStart c then
    let start ← offset
    let name ← word
    match keyword? name with
    | some operand => pure operand
    | none => refuseAt start (.unexpectedWord (String.ofList name))
  else refuse (.unexpectedCharacter c)

/-- An operand, a gap before it passed. It is a fault if more operands nest than so many. -/
def operand : (calls : Nat) → Walk Operand
  | 0 => fault .overflow
  | calls + 1 => do
    match ← peek with
    | none => refuse .unexpectedEnd
    | some c =>
      if c = '\x7b' then
        expect '\x7b'
        enter
        return .value (.object (← elements '\x7d' .unterminatedObject (member (operand calls)) putDefined []))
      else if c = '[' then
        expect '['
        enter
        return .value (.array (← elements ']' .unterminatedArray (nested (operand calls)) addItem []))
      else scalar c

/-- The literal that a whole text is. -/
def literal : Walk Json := do
  match ← operand (maxDepth + 1) with
  | .undefined => refuse .undefinedValue
  | .value json =>
    gap
    let now ← offset
    if now < byteCount (← whole) then refuse .trailingText else pure json

/-- What reading a text in place from its start comes to. An operand and one in each of the containers that may be
open are as many as may nest. -/
def read (text : List Char) : Except Halt Json := (literal.outcome text ⟨0, 0⟩).map Prod.fst

end Walk

end StateScript.Literal
