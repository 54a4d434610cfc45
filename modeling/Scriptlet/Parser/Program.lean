import Scriptlet.Parser.Expression
import Scriptlet.Token.Scan

/-!
# Programs

Parsing a whole text. A parse never fails: it gives the tree of the statements that are well
formed, and a diagnostic for each of the others.
-/

namespace Scriptlet

open Syntax (Node)

namespace Parser

/-- A program, for what the limit on nesting leaves. -/
def parseProgram (cfg : Config) : Parser Node := do
  programWith cfg (expression cfg (cfg.maxNesting - (← get).nesting).toNat)

end Parser

/-- What a parse gives: the tree, the diagnostics in the order of the text, and the trace. -/
structure Parsed where
  program : Node
  errors : List Diagnostic
  trace : List Parser.TraceLine

namespace Parsed

/-- Parses a list of tokens. -/
def ofTokens (tokens : List Token) (cfg : Parser.Config) : Parsed :=
  match Parser.parseProgram cfg (Parser.State.ofTokens tokens) with
  | (.ok program, s) => ⟨program, s.errors, s.trace.reverse⟩
  | (.error d, s) => ⟨.program .start [], s.errors ++ [d], s.trace.reverse⟩

/-- Parses a source text. -/
def ofSource (source : String) (cfg : Parser.Config) : Parsed := ofTokens (Token.scan source) cfg

/-- The lines of a trace as text, each ended by a line feed. -/
def traceText (p : Parsed) : String :=
  p.trace.foldl (fun text line => text ++ line.render ++ "\n") ""

end Parsed

end Scriptlet
