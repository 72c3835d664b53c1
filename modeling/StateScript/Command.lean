/-
Commands: a verb and the raw texts of its arguments, as they stand in a script. A command is written
with an underscore and a dot in front, `_.set(...)`.
-/

namespace StateScript

/-- What a command does to the state. `assign` and `insert` are two words for one thing. -/
inductive Verb where
  | set
  | add
  | remove
  | assign
  | insert
  deriving DecidableEq, Repr

namespace Verb

/-- The verbs, in no order that matters: none of their words begins another. -/
def all : List Verb := [set, add, remove, assign, insert]

/-- The word of a verb. -/
def word : Verb → String
  | set => "set"
  | add => "add"
  | remove => "remove"
  | assign => "assign"
  | insert => "insert"

/-- The verb of a word. -/
def ofWord? (word : String) : Option Verb := all.find? (·.word = word)

/-- How a call of the verb begins, up to its opening parenthesis. -/
def opening (verb : Verb) : List Char := '_' :: '.' :: (verb.word.toList ++ ['('])

theorem mem_all (verb : Verb) : verb ∈ all := by cases verb <;> decide

/-- Each word is read as its own verb. -/
theorem ofWord?_word (verb : Verb) : ofWord? verb.word = some verb := by cases verb <;> decide

end Verb

/-- One call of a script: its verb and the texts of its arguments. -/
structure Command where
  verb : Verb
  arguments : List String
  deriving DecidableEq, Repr

/-- The call in one line: the verb and the arguments, with a comma and a space between them. -/
def Command.display (command : Command) : String :=
  "_." ++ command.verb.word ++ "(" ++ ", ".intercalate command.arguments ++ ")"

end StateScript
