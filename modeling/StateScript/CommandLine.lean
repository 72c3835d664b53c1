/-
The command line. `apply` runs a script on a state file and prints the new state, `extract` prints
what a script holds. What is read and what is printed are values here: where files and the standard
input come from is left to a `Source`.
-/
import StateScript.Execution
import StateScript.Json.Printer

namespace StateScript.CommandLine

/-- What is asked for. Without a script file the script is the standard input. -/
inductive Request where
  | apply (stateFile : String) (scriptFile : Option String) (rootKey : String) (report : Bool)
  | extract (scriptFile : Option String)
  deriving DecidableEq, Repr

/-! ## Arguments -/

/-- The options that have been given. -/
structure Options where
  state : Option String := none
  script : Option String := none
  root : Option String := none
  report : Bool := false
  deriving DecidableEq, Repr

/-- Reads options into those already given. `--report` may be repeated, an option with a value is given
at most once, and the value may be any word. Two dashes end the options, and nothing stands behind
them. -/
def Options.read? (options : Options) : List String → Option Options
  | [] => some options
  | ["--"] => some options
  | "--report" :: rest => read? { options with report := true } rest
  | "--state" :: value :: rest =>
    if options.state.isSome then none else read? { options with state := some value } rest
  | "--script" :: value :: rest =>
    if options.script.isSome then none else read? { options with script := some value } rest
  | "--root" :: value :: rest =>
    if options.root.isSome then none else read? { options with root := some value } rest
  | _ => none

/-- The request that a command word makes with its options. -/
def Request.ofWords? : List String → Option Request
  | "apply" :: rest =>
    (Options.read? {} rest).bind fun options =>
      options.state.map fun state =>
        .apply state options.script (options.root.getD defaultRootKey) options.report
  | "extract" :: rest =>
    (Options.read? {} rest).bind fun options =>
      if options.state.isSome ∨ options.root.isSome ∨ options.report then none
      else some (.extract options.script)
  | _ => none

/-- The request that the arguments make. No option stands before the command word, but two dashes may,
to end the options there are none of. -/
def Request.ofArguments? : List String → Option Request
  | "--" :: words => ofWords? words
  | words => ofWords? words

/-! ## Answers -/

/-- Where texts are read from: files by name, and the standard input. -/
structure Source (m : Type → Type) where
  file : String → m (Option String)
  input : m (Option String)

/-- What goes to the standard output and the standard error, and the exit code. -/
structure Output where
  code : Nat
  out : String
  err : String
  deriving DecidableEq, Repr

/-- Why a request cannot be met. -/
inductive Failure where
  | unreadableFile (name : String)
  | unreadableInput
  | invalidJson (name : String)
  deriving DecidableEq, Repr

/-- The wording of a failure. -/
def Failure.message : Failure → String
  | unreadableFile name => s!"unable to read '{name}'"
  | unreadableInput => "unable to read script from stdin"
  | invalidJson name => s!"'{name}' is not valid JSON"

/-- The exit code of a failure. -/
def Failure.code : Nat := 2

/-- A JSON value on lines of its own. -/
def printed (v : Json) : String := String.ofList (v.indented ++ ['\n'])

/-- The report of a command in one line. -/
def reportLine (report : Report) : String :=
  let status := match report.status with
    | .applied => "applied"
    | .noOp => "no-op"
    | .failed error => "failed: " ++ error.message
  report.command.display ++ " -> " ++ status ++ "\n"

/-- The answer to `apply`, once all is read. -/
def applied (rootKey : String) (report : Bool) (state : Json) (script : String) : Output :=
  let run := Run.ofText rootKey script.toList state
  let err := if report then "".intercalate (run.reports.map reportLine) else ""
  match run.outcome with
  | .changed state => ⟨0, printed state, err⟩
  | .noChange => ⟨1, "", err⟩

/-- A count as a JSON value; one beyond 64 bits cannot be held and is null. -/
def count (n : Nat) : Json :=
  if h : FitsWord n then .number (.int n h) else .null

/-- A command as a JSON value. -/
def commandJson (command : Command) : Json :=
  .object [("verb", .string command.verb.word), ("args", .array (command.arguments.map .string))]

/-- A skipped call as a JSON value. -/
def skippedJson (call : SkippedCall) : Json :=
  .object [("verb", .string call.verb.word), ("code", .string call.reason.code),
    ("begin", .object [("line", count call.start.line), ("column", count call.start.column),
      ("offset", count call.start.offset)])]

/-- The answer to `extract`, once the script is read. -/
def extracted (script : String) : Output :=
  let found := Extraction.ofText script.toList
  ⟨0, printed (.object [("commands", .array (found.commands.map commandJson)),
    ("skipped", .array (found.skipped.map skippedJson))]), ""⟩

/-! ## Meeting a request -/

variable {m : Type → Type} [Monad m]

/-- Reads a file, or the standard input where no file is named. -/
def readScript (source : Source m) : Option String → m (Except Failure String)
  | some name => do
    match ← source.file name with
    | some text => pure (.ok text)
    | none => pure (.error (.unreadableFile name))
  | none => do
    match ← source.input with
    | some text => pure (.ok text)
    | none => pure (.error .unreadableInput)

/-- Meets a request. The state is read and understood before the script is looked for. -/
def Request.meet (source : Source m) : Request → m (Except Failure Output)
  | .apply stateFile scriptFile rootKey report => do
    match ← source.file stateFile with
    | none => pure (.error (.unreadableFile stateFile))
    | some text =>
      match Json.read? text.toList with
      | none => pure (.error (.invalidJson stateFile))
      | some state =>
        match ← readScript source scriptFile with
        | .ok script => pure (.ok (applied rootKey report state script))
        | .error failure => pure (.error failure)
  | .extract scriptFile => do
    match ← readScript source scriptFile with
    | .ok script => pure (.ok (extracted script))
    | .error failure => pure (.error failure)

end StateScript.CommandLine
