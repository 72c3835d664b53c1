/-
The program: the command line on real files and streams.
-/
import StateScript.CommandLine

open StateScript.CommandLine

/-- The text that an action reads, if it can be read. -/
def readOr (action : IO String) : IO (Option String) := do
  try
    return some (← action)
  catch _ =>
    return none

/-- Files by name, and the standard input. -/
def realSource : Source IO where
  file := fun name => readOr (IO.FS.readFile name)
  input := readOr do (← IO.getStdin).readToEnd

/-- How the program is called. -/
def usage : String :=
  "usage: statescript apply --state F [--script F] [--root K] [--report]\n" ++
  "       statescript extract [--script F]"

def main (args : List String) : IO UInt32 := do
  match Request.ofArguments? args with
  | none =>
    IO.eprintln usage
    return 1
  | some request =>
    match ← request.meet realSource with
    | .error failure =>
      IO.eprintln ("error: " ++ failure.message)
      return UInt32.ofNat Failure.code
    | .ok output =>
      IO.eprint output.err
      IO.print output.out
      return UInt32.ofNat output.code
