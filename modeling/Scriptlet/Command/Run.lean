import Scriptlet.Command.Arguments
import Scriptlet.Session.Loop
import Scriptlet.Settings.Load

/-!
# Running a command line

What a command line does: run a program and show its value, or start a session. A run has a status:
0 if all went well, 1 if the program is at fault, 2 if the command line, a file or the settings
are.
-/

namespace Scriptlet.Command

open Eval (Machine)

/-- How the command is used. -/
def usage : String :=
  "usage: waixg [-h] [-s] [--repl] [--verbose] [--trace] [--max-depth N]\n" ++
  "             [--config PATH] [--dump-ast]\n" ++
  "             [source]\n"

/-- What the command can do. -/
def helpText : String :=
  usage ++
  "\n" ++
  "positional arguments:\n" ++
  "  source         Filename or raw source (with -s)\n" ++
  "\n" ++
  "options:\n" ++
  "  -h, --help     show this help message and exit\n" ++
  "  -s, --string   Interpret source as literal string\n" ++
  "  --repl         Launch the interactive REPL\n" ++
  "  --verbose      Print the parsed AST before evaluating\n" ++
  "  --trace        Trace parse functions on stderr\n" ++
  "  --max-depth N  Maximum nesting of function calls\n" ++
  "  --config PATH  JSON settings file\n" ++
  "  --dump-ast     Print the parsed program\n"

/-- What a command comes to: its status, and what it writes to its two channels. -/
structure Outcome where
  status : Nat
  out : String
  err : String
deriving DecidableEq, Repr

/-- Why a command comes to nothing at all. -/
inductive Crash
  | load (e : Settings.LoadError)
  | depth (e : Eval.DepthError)
  | meaningless (e : Eval.Meaningless)
  | exhausted
deriving DecidableEq, Repr

/-- The ending of the names of source files. -/
def sourceSuffix : String := ".wx"

/-- What is written of the value of a program. -/
def showResult (trace shown : String) (v : Value) : Outcome :=
  match v with
  | .fault _ => ⟨1, shown, trace ++ "[error] >>> " ++ v.inspect ++ "\n"⟩
  | .null => ⟨0, shown, trace⟩
  | v => ⟨0, shown ++ v.inspect ++ "\n", trace⟩

/-- Goes on only if the host has the room. -/
def requireRoom (fits : Bool) : Except Crash Unit := if fits then .ok () else .error .exhausted

/-- Runs a source text. The host needs room to render the tree before there is an evaluator, what is
printed while the program runs, and the value in the end. -/
def runSource (host : Host) (settings : Settings) (dumpAst : Bool) (source : String) :
    Except Crash Outcome := do
  let parsed := Parsed.ofSource source { trace := settings.trace }
  let trace := parsed.traceText
  if !parsed.errors.isEmpty then
    let reports := parsed.errors.map fun d => "[parse error] >>> " ++ d.report ++ "\n"
    return ⟨1, "", trace ++ String.join reports⟩
  let showsTree := dumpAst || settings.verbose
  requireRoom (!showsTree || host.shows parsed.program.frames)
  let maxDepth ← (Eval.checkDepth settings.maxDepth).mapError .depth
  let (result, machine) := Eval.evaluate maxDepth parsed.program Machine.globalScope .initial
  requireRoom (host.printsAll (machine.printed.reverse.map Line.frames))
  match result with
  | .error e => throw (.meaningless e)
  | .ok v =>
    requireRoom (v.type == .null || host.shows v.frames)
    let tree := if showsTree then "[ast] >>> " ++ parsed.program.render ++ "\n" else ""
    return showResult trace (tree ++ machine.output) v

/-- The outcome of an error that is not the program's. -/
def refused (message : String) : Outcome := ⟨2, "", "[error] >>> " ++ message ++ "\n"⟩

/-- Runs a source file. -/
def runFile (host : Host) (settings : Settings) (dumpAst : Bool) (files : Files) (path : String) :
    Except Crash Outcome :=
  if sourceSuffix.toList.isSuffixOf path.toList then
    match files.readText path with
    | .error e => .ok (refused e.message)
    | .ok source => runSource host settings dumpAst source
  else .ok (refused ("Only " ++ sourceSuffix ++ " files are supported."))

/-- The members that the options of a command line set. -/
def optionMembers (args : Arguments) : List (String × Json) :=
  (if args.verbose then [(Settings.Key.verbose.name, .bool true)] else []) ++
  (if args.trace then [(Settings.Key.trace.name, .bool true)] else []) ++
  (args.maxDepth.map (Settings.Key.maxDepth.name, ·)).toList

/-- The settings of a command line. -/
def settingsOf (host : Host) (args : Arguments) (env : Environment) (files : Files) :
    Except Settings.LoadError Settings := do
  let settings ← Settings.load host args.config env files
  ((settings.override (optionMembers args)).mapError .invalid).mapError .config

/-- What a command line comes to: an outcome, or a session. -/
inductive Plan
  | finish (outcome : Outcome)
  | converse (session : Session)

/-- What the arguments of a command line come to. -/
def planArguments (host : Host) (args : Arguments) (env : Environment) (files : Files) :
    Except Crash Plan := do
  match settingsOf host args env files with
  | .error (.config e) => return .finish ⟨2, "", "[config error] >>> " ++ e.message ++ "\n"⟩
  | .error e => throw (.load e)
  | .ok settings =>
    match args.source with
    | some source =>
      if args.repl then return .converse (← (Session.start settings none).mapError .depth)
      else if args.string then return .finish (← runSource host settings args.dumpAst source)
      else return .finish (← runFile host settings args.dumpAst files source)
    | none => return .converse (← (Session.start settings none).mapError .depth)

/-- What the words of a command line come to. -/
def plan (host : Host) (words : List String) (env : Environment) (files : Files) :
    Except Crash Plan :=
  match Arguments.parse words with
  | .error .help => .ok (.finish ⟨0, helpText, ""⟩)
  | .error (.usage e) => .ok (.finish ⟨2, "", usage ++ "waixg: error: " ++ e.message ++ "\n"⟩)
  | .ok args => planArguments host args env files

/-- The lines of a text that is given at once. -/
def linesOf (text : String) : List String :=
  let lines := text.splitOn "\n"
  if lines.getLast? = some "" then lines.dropLast else lines

/-- What a command comes to when its input is given at once. -/
def run (host : Host) (words : List String) (env : Environment) (files : Files)
    (input : String) : Except Crash Outcome := do
  match ← plan host words env files with
  | .finish outcome => return outcome
  | .converse session =>
    let t ← (session.transcript ((linesOf input).map .line)).mapError .meaningless
    return ⟨0, t.out, t.err⟩

end Scriptlet.Command
