import Scriptlet.Command.Run

/-!
# The command

The command itself: it reads the files and the variables that a command line may need, writes what
the command comes to, and talks to the user in a session.
-/

namespace Scriptlet

/-- The error that stands for a failure to read a file. -/
def fileErrorOf : IO.Error → FileError
  | .inappropriateType .. => .isDirectory
  | .permissionDenied .. => .denied
  | .invalidArgument .. => .nameTooLong
  | _ => .missing

/-- Reads a file. -/
def readFile (path : String) : IO (Except FileError (List UInt8)) := do
  try
    return .ok (← IO.FS.readBinFile path).toList
  catch e => return .error (fileErrorOf e)

/-- Talks to the user until the session ends. -/
partial def converse (session : Session) : IO Unit := do
  let stdin ← IO.getStdin
  IO.print session.prompt
  (← IO.getStdout).flush
  let line ← stdin.getLine
  if line.isEmpty then
    IO.print ("\n" ++ Session.farewell)
  else
    let text := if line.endsWith "\n" then (line.dropEnd 1).copy else line
    match session.takeLine text with
    | .error e => throw (IO.userError e.message)
    | .ok none => IO.print Session.farewell
    | .ok (some (next, shown)) =>
      IO.eprint shown.err
      IO.print shown.out
      converse next

/-- The variables that the settings look at. -/
def variableNames : List String :=
  ["WAIXG_CONFIG", "WAIXG_MAX_DEPTH", "WAIXG_VERBOSE", "WAIXG_TRACE"]

/-- The wording of a crash. -/
def crashMessage : Command.Crash → String
  | .load e => e.message
  | .depth e => e.message
  | .meaningless e => e.message
  | .exhausted => "maximum recursion depth exceeded"

/-- The paths that a command line may read. -/
def pathsOf (words : List String) (env : Environment) : List String :=
  match Command.Arguments.parse words with
  | .ok args => (Settings.filePath? args.config env).toList ++ args.source.toList
  | .error _ => []

end Scriptlet

open Scriptlet in
/-- Runs a command line. -/
def main (words : List String) : IO UInt32 := do
  let values ← variableNames.filterMapM fun name => do
    return (← IO.getEnv name).map (name, ·)
  let env : Environment := fun name => values.lookup name
  let contents ← (pathsOf words env).mapM fun path => do return (path, ← readFile path)
  let files : Files := fun path => (contents.lookup path).getD (.error .missing)
  match Command.plan {} words env files with
  | .error e =>
    IO.eprintln (crashMessage e)
    return 1
  | .ok (.finish outcome) =>
    IO.print outcome.out
    IO.eprint outcome.err
    return outcome.status.toUInt32
  | .ok (.converse session) =>
    IO.print Session.greeting
    converse session
    return 0
