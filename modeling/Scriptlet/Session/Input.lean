import Scriptlet.Session.Delimiters
import Scriptlet.Settings.Basic
import Scriptlet.Text.Blank

/-!
# Inputs of a session

An input is a line, and as many more as it takes to close what it opens. `accept` takes one line;
`readInput` takes lines until there is an input.
-/

namespace Scriptlet.Session

/-- What the user does at a prompt: type a line, or interrupt. Where the list of events ends, so
does the user's side. -/
inductive Event
  | line (text : String)
  | interrupt
deriving DecidableEq, Repr

/-- What a line makes of the lines before it: the wish to leave, an unfinished input, or a whole
one. -/
inductive Accepted
  | leave
  | more (lines : List String)
  | source (text : String)
deriving DecidableEq, Repr

/-- Whether a line is one of the words that leave a session. -/
def isFarewell (line : String) : Bool :=
  Text.strip line == "exit" || Text.strip line == "quit"

/-- Takes a line after the lines of an unfinished input. The words that leave count only at the
start of an input. -/
def accept (pending : List String) (line : String) : Accepted :=
  if isFarewell line && pending.isEmpty then .leave
  else
    let lines := pending ++ [line]
    let text := "\n".intercalate lines
    if openDelimiters text ≤ 0 then .source (Text.strip text) else .more lines

/-- The prompt after the lines of an unfinished input. -/
def promptAfter (settings : Settings) (pending : List String) : String :=
  if pending.isEmpty then settings.prompt else settings.continuationPrompt

/-- How reading an input ends. -/
inductive Reading
  | source (text : String)
  | leave
  | interrupted
  | ended
deriving DecidableEq, Repr

/-- Reads an input, after the lines of an unfinished one. Gives how that ends, the prompts that it
shows and the events that it leaves. -/
def readInput (settings : Settings) (pending : List String) :
    List Event → Reading × List String × List Event
  | [] => (.ended, [promptAfter settings pending], [])
  | .interrupt :: rest => (.interrupted, [promptAfter settings pending], rest)
  | .line text :: rest =>
    match accept pending text with
    | .leave => (.leave, [promptAfter settings pending], rest)
    | .source text => (.source text, [promptAfter settings pending], rest)
    | .more lines =>
      let (reading, prompts, left) := readInput settings lines rest
      (reading, promptAfter settings pending :: prompts, left)

end Scriptlet.Session
