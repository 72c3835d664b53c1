/-
The log of a run: a line for each call that was skipped in the text, and then one for each command.
-/
import StateScript.Execution

namespace StateScript

/-- How much a line of the log matters. -/
inductive LogLevel where
  | trace
  | debug
  | warn
  deriving DecidableEq, Repr

/-- The name of a level. -/
def LogLevel.name : LogLevel → String
  | trace => "TRACE"
  | debug => "DEBUG"
  | warn => "WARN"

/-- A line of the log. -/
structure LogLine where
  level : LogLevel
  message : String
  deriving DecidableEq, Repr

/-- The line with its level in front. -/
def LogLine.display (line : LogLine) : String := line.level.name ++ " " ++ line.message

/-- The line of a skipped call. -/
def SkippedCall.logLine (call : SkippedCall) : LogLine := ⟨.trace, call.display⟩

/-- The line of a command. -/
def Report.logLine (report : Report) : LogLine :=
  match report.status with
  | .applied => ⟨.debug, "applied " ++ report.command.display⟩
  | .noOp => ⟨.debug, "no-op " ++ report.command.display⟩
  | .failed error => ⟨.warn, "skipping _." ++ report.command.verb.word ++ "(): " ++ error.message⟩

/-- The log of running the commands found in a text. -/
def logOfText (rootKey : String) (script : List Char) (state : Json) : List LogLine :=
  let found := Extraction.ofText script
  found.skipped.map (·.logLine) ++ (Run.ofCommands rootKey found.commands state).reports.map (·.logLine)

end StateScript
