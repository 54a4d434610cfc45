import Scriptlet.Eval.Node
import Scriptlet.Parser.Program
import Scriptlet.Session.Input
import Scriptlet.Text.Case

/-!
# Sessions

An interactive session: inputs are evaluated one after another in one global scope, and what they
print or amount to is shown. The session is a machine with one step for each line, so that a loop
that talks to a user and a transcript of given lines are the same thing.
-/

namespace Scriptlet

open Eval (Machine)

/-- The state of a session: its machine, whether trees are shown, and the lines of an unfinished
input. -/
structure Session where
  settings : Settings
  maxDepth : Nat
  machine : Machine
  verbose : Bool
  pending : List String

namespace Session

/-- What is shown on the two channels of output. -/
structure Shown where
  out : String
  err : String
deriving DecidableEq, Repr

/-- The first words of a session. -/
def greeting : String := "WAIXG REPL. Type 'exit' or 'quit' to leave.\n"

/-- The last words of a session. -/
def farewell : String := "Exiting WAIXG REPL.\n"

/-- A new session, if the settings allow one. -/
def start (settings : Settings) (verbose : Option Bool) : Except Eval.DepthError Session := do
  let maxDepth ← Eval.checkDepth settings.maxDepth
  return ⟨settings, maxDepth, .initial, verbose.getD settings.verbose, []⟩

/-- The prompt that the session shows next. -/
def prompt (s : Session) : String := promptAfter s.settings s.pending

/-- Whether the value of a program is shown: null is not, nor is what a final `let` bound. -/
def showsValue (program : Syntax.Node) (v : Value) : Bool :=
  match v, program.statements.getLast? with
  | .null, _ => false
  | _, some (.binding ..) => false
  | _, _ => true

/-- What a session shows of the value of a program. -/
def showValue (program : Syntax.Node) (v : Value) : String :=
  if v.isFault then "[error] >>> " ++ v.inspect ++ "\n"
  else if showsValue program v then v.inspect ++ "\n"
  else ""

/-- Evaluates a program in a session and shows what it prints and amounts to. -/
def evalProgram (s : Session) (program : Syntax.Node) :
    Except Eval.Meaningless (Session × String) :=
  match Eval.evaluate s.maxDepth program Machine.globalScope { s.machine with printed := [] } with
  | (.error e, _) => .error e
  | (.ok v, machine) =>
    let shown := if s.verbose then "[ast] >>> " ++ program.render ++ "\n" else ""
    .ok ({ s with machine := machine }, shown ++ machine.output ++ showValue program v)

/-- Evaluates an input and shows what it prints and amounts to, or what is wrong with it. -/
def evalInput (s : Session) (source : String) : Except Eval.Meaningless (Session × Shown) := do
  let parsed := Parsed.ofSource source { trace := s.settings.trace }
  let err := parsed.traceText
  if parsed.errors.isEmpty then
    let (s, out) ← s.evalProgram parsed.program
    return (s, ⟨out, err⟩)
  else
    let out := parsed.errors.map fun d => "[parse error] >>> " ++ d.report ++ "\n"
    return (s, ⟨String.join out, err⟩)

/-- Takes an input: one of the session's own words, or a source text. -/
def takeInput (s : Session) (source : String) : Except Eval.Meaningless (Session × Shown) :=
  if source == "" then .ok (s, ⟨"", ""⟩)
  else if Text.lower source == "verbose-mode" then
    let verbose := !s.verbose
    .ok ({ s with verbose := verbose },
      ⟨"[mode] >>> Verbose mode " ++ (if verbose then "ON" else "OFF") ++ "\n", ""⟩)
  else s.evalInput source

/-- Takes a line. Gives the session and what is shown, or none if the line leaves the session. -/
def takeLine (s : Session) (line : String) :
    Except Eval.Meaningless (Option (Session × Shown)) := do
  match accept s.pending line with
  | .leave => return none
  | .more lines => return some ({ s with pending := lines }, ⟨"", ""⟩)
  | .source text => return some (← { s with pending := [] }.takeInput text)

/-- One prompt of a session, and what was shown since the one before. -/
structure Turn where
  before : String
  prompt : String
deriving DecidableEq, Repr

/-- A whole session: its prompts with what is shown before each, and what is shown after the
last. -/
structure Transcript where
  turns : List Turn
  after : String
  err : String
deriving DecidableEq, Repr

/-- The session from here on, given what has been shown since the last prompt. -/
def run (s : Session) (before : String) : List Event → Except Eval.Meaningless Transcript
  | [] | .interrupt :: _ => .ok ⟨[⟨before, s.prompt⟩], "\n" ++ farewell, ""⟩
  | .line line :: rest => do
    match ← s.takeLine line with
    | none => return ⟨[⟨before, s.prompt⟩], farewell, ""⟩
    | some (next, shown) =>
      let transcript ← next.run shown.out rest
      return ⟨⟨before, s.prompt⟩ :: transcript.turns, transcript.after,
        shown.err ++ transcript.err⟩

/-- The transcript of a session with the given events. -/
def transcript (s : Session) (events : List Event) : Except Eval.Meaningless Transcript :=
  s.run greeting events

/-- All that a session shows on the first channel, prompts included. -/
def Transcript.out (t : Transcript) : String :=
  String.join (t.turns.map fun turn => turn.before ++ turn.prompt) ++ t.after

end Session

end Scriptlet
