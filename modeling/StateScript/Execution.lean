/-
Running commands on a state. The state is an object, the wrapper, and all paths are resolved in the
value under its root key, which is made an empty object if there is none. Commands run in order, each
on what the one before left. A command that fails is reported and skipped; what a failed write has
made on its way stays in the working copy. The outcome is the working copy if any command was
applied, and no change otherwise.
-/
import StateScript.Collection
import StateScript.Extraction
import StateScript.Operand.Coercion
import StateScript.Tree

namespace StateScript

open Text

/-! ## What becomes of a command -/

/-- Why a command fails. -/
inductive CommandError where
  | missingArguments (verb : Verb) (expected found : Nat)
  | invalidPath (path : String)
  | pathConflict (path segment : String)
  | rootNotObject
  | indexOutOfRange (path : String) (index : Nat)
  | numericOverflow (path : String)
  deriving DecidableEq, Repr

/-- The wording of an error. -/
def CommandError.message : CommandError → String
  | missingArguments verb expected found =>
    s!"_.{verb.word}() needs at least {expected} argument(s), got {found}"
  | invalidPath path => s!"invalid path \"{path}\""
  | pathConflict path segment => s!"path \"{path}\": cannot address key \"{segment}\" inside an array"
  | rootNotObject => "state wrapper is not an object"
  | indexOutOfRange path index => s!"path \"{path}\": index {index} is too far past the end of the array"
  | numericOverflow path => s!"path \"{path}\": numeric result is not representable"

/-- What became of a command. A command that ran but has nothing to keep is a `noOp`. -/
inductive Status where
  | applied
  | noOp
  | failed (error : CommandError)
  deriving DecidableEq, Repr

/-- What a command leaves: a tree, and what became of the command. -/
structure Effect where
  tree : Json
  status : Status

/-- A write along a path, as the effect of a command. -/
def Effect.ofWritten (path : Path) (written : Json.Written) : Effect :=
  match written.error? with
  | none => ⟨written.tree, .applied⟩
  | some (.notAnIndex segment) => ⟨written.tree, .failed (.pathConflict path.text segment)⟩
  | some (.tooFar index) => ⟨written.tree, .failed (.indexOutOfRange path.text index)⟩

/-! ## The verbs -/

namespace Path

/-- Writes a value. -/
def write (path : Path) (value root : Json) : Effect := .ofWritten path (root.write path.segments value)

/-- Takes away what is there, if there is anything. -/
def erase (path : Path) (root : Json) : Effect := ⟨(root.erase? path.segments).getD root, .applied⟩

/-- Changes in place what is there, if there is anything. -/
def update (path : Path) (f : Json → Json) (root : Json) : Effect :=
  ⟨(root.update? f path.segments).getD root, .applied⟩

/-- Writes an operand; `undefined` takes away. -/
def set (path : Path) (operand : Operand) (root : Json) : Effect :=
  match operand with
  | .undefined => path.erase root
  | .value json => path.write json root

/-- Adds a number to a number. Anything else, on either side, is left alone. -/
def add (path : Path) (operand : Operand) (root : Json) : Effect :=
  match root.get? path.segments, operand.number? with
  | some (.number n), some delta =>
    match n.add? delta with
    | some sum => path.write (.number sum) root
    | none => ⟨root, .failed (.numericOverflow path.text)⟩
  | _, _ => ⟨root, .noOp⟩

/-- Adds an operand to a collection; where there is no collection, writes it. -/
def assign (path : Path) (operand : Operand) (root : Json) : Effect :=
  if ((root.get? path.segments).any Json.isContainer) then path.update (Json.extended operand) root
  else path.write operand.toJson root

/-- Adds an entry to a collection; where nothing takes one, writes an object of the one member. -/
def assignEntry (path : Path) (key value : Operand) (root : Json) : Effect :=
  match (root.get? path.segments).bind (Json.withEntry? key value) with
  | some collection => path.update (fun _ => collection) root
  | none => path.write (.object [(key.keyText, value.toJson)]) root

/-- Takes an entry out of a collection. -/
def removeEntry (path : Path) (operand : Operand) (root : Json) : Effect :=
  path.update (Json.withoutEntry operand) root

end Path

namespace Command

/-- The command is reported to lack arguments. -/
def lacksArguments (command : Command) (expected : Nat) (tree : Json) : Effect :=
  ⟨tree, .failed (.missingArguments command.verb expected command.arguments.length)⟩

/-- The effect of the command on the tree that its path is resolved in, by its verb and the arguments
behind the path. -/
def onRoot (command : Command) (path : Path) (root : Json) : Effect :=
  match command.verb, (command.arguments.drop 1).map fun raw => Operand.ofText raw.toList with
  | .set, operand :: _ => path.set operand root
  | .add, operand :: _ => path.add operand root
  | .remove, [] => path.erase root
  | .remove, operand :: _ => path.removeEntry operand root
  | .assign, [operand] | .insert, [operand] => path.assign operand root
  | .assign, key :: value :: _ | .insert, key :: value :: _ => path.assignEntry key value root
  -- every verb but `remove` wants an argument behind the path
  | _, [] => command.lacksArguments 2 root

/-- The effect of the command on a state. -/
def onState (rootKey : String) (command : Command) (state : Json) : Effect :=
  match command.arguments with
  | [] => command.lacksArguments 1 state
  | first :: _ =>
    let text := String.ofList (unquote first.toList)
    match Path.ofText? text with
    | none => ⟨state, .failed (.invalidPath text)⟩
    | some path =>
      match state with
      | .object members =>
        -- the root key is made even when the command then fails
        let effect := command.onRoot path ((Members.get? rootKey members).getD (.object []))
        ⟨.object (Members.put rootKey effect.tree members), effect.status⟩
      | _ => ⟨state, .failed .rootNotObject⟩

end Command

/-! ## Runs -/

/-- The key of the tree that paths are resolved in, where no other is given. -/
def defaultRootKey : String := "statData"

/-- A command and what became of it. -/
structure Report where
  command : Command
  status : Status
  deriving DecidableEq, Repr

/-- What a list of commands leaves: the working copy, and a report of each. -/
structure Run where
  state : Json
  reports : List Report

/-- Runs commands in order on a copy of a state. -/
def Run.ofCommands (rootKey : String) : List Command → Json → Run
  | [], state => ⟨state, []⟩
  | command :: rest, state =>
    let effect := command.onState rootKey state
    let more := ofCommands rootKey rest effect.tree
    ⟨more.state, ⟨command, effect.status⟩ :: more.reports⟩

/-- Runs the commands found in a text. -/
def Run.ofText (rootKey : String) (script : List Char) (state : Json) : Run :=
  ofCommands rootKey (Extraction.ofText script).commands state

/-- The result of a run: a changed state, or none. -/
inductive Outcome where
  | changed (state : Json)
  | noChange

deriving instance DecidableEq for Outcome

/-- The working copy, if any command was applied. -/
def Run.outcome (run : Run) : Outcome :=
  if run.reports.any (·.status = .applied) then .changed run.state else .noChange

/-- The new state of an outcome. -/
def Outcome.state? : Outcome → Option Json
  | changed state => some state
  | noChange => none

end StateScript
