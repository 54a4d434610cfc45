import Scriptlet.Diagnostic
import Scriptlet.Syntax.Node

/-!
# The parser's state

Where a parse stands: the current token, the tokens after it, and what the parse counts and
records on its way. After the last token comes the end of the text, for ever.

A parser keeps its state when it fails, so that what follows a failed statement starts where the
statement broke off.

* `State.advance` moves to the next token.
* `State.synchronize` skips the rest of a failed statement.
* `Parser.nested` and `Parser.traced` count and record a rule around its parser, and undo their
  count however that parser ends.
* `Parser.iterate` repeats a step as long as it wants to go on.
-/

namespace Scriptlet.Parser

open Token (Kind)

/-- The rules that a trace shows. -/
inductive Rule
  | letStatement | returnStatement | expressionStatement | block
  | expression | integer | unary | binary | conditional | function | call
deriving DecidableEq, Repr

/-- The name of a rule in a trace. -/
def Rule.name : Rule → String
  | letStatement => "parse_let_statement"
  | returnStatement => "parse_return_statement"
  | expressionStatement => "parse_expression_statement"
  | block => "parse_block_statement"
  | expression => "parse_expression"
  | integer => "parse_integer_literal"
  | unary => "parse_prefix_expression"
  | binary => "parse_infix_expression"
  | conditional => "parse_if_expression"
  | function => "parse_function_literal"
  | call => "parse_call_expression"

/-- A line of a trace: a rule is entered or left, with `level` rules open around it. -/
structure TraceLine where
  level : Nat
  enters : Bool
  rule : Rule
deriving DecidableEq, Repr

/-- The text of a line of a trace, indented by a tab for every open rule. -/
def TraceLine.render (l : TraceLine) : String :=
  String.ofList (List.replicate l.level '\t') ++ (if l.enters then "BEGIN " else "END ") ++
    l.rule.name

/-- What a parse is given beside its tokens: how deep expressions may nest, whether it records a
trace, and the kinds of token that it is not to start or to continue an expression with. -/
structure Config where
  maxNesting : Int := 500
  trace : Bool := false
  notStarting : List Kind := []
  notContinuing : List Kind := []

/-- Where a parse stands. `nesting` is the number of expressions open around the current token,
`braceDepth` that of the opening braces up to and including it, less the closing ones. Trace
lines are kept newest first. -/
structure State where
  cur : Token
  rest : List Token
  errors : List Diagnostic
  nesting : Nat
  braceDepth : Int
  traceLevel : Nat
  trace : List TraceLine

namespace State

/-- What a current token of this kind adds to the brace depth. -/
def braceStep : Kind → Int
  | .lbrace => 1
  | .rbrace => -1
  | _ => 0

/-- The start of a parse: the first token is current. -/
def ofTokens (tokens : List Token) : State where
  cur := tokens.headD (.eofAt .unknown)
  rest := tokens.tail
  errors := []
  nesting := 0
  braceDepth := braceStep (tokens.headD (.eofAt .unknown)).kind
  traceLevel := 0
  trace := []

/-- The token after the current one. -/
def peek (s : State) : Token := s.rest.headD (.eofAt s.cur.pos)

/-- Moves to the next token. -/
def advance (s : State) : State :=
  { s with cur := s.peek, rest := s.rest.tail, braceDepth := s.braceDepth + braceStep s.peek.kind }

/-- Records a diagnostic. -/
def report (s : State) (d : Diagnostic) : State := { s with errors := s.errors ++ [d] }

theorem rest_ne_nil_of_peek (s : State) (h : s.peek.kind ≠ .eof) : s.rest ≠ [] := by
  intro hnil
  simp [peek, hnil, Token.eofAt] at h

theorem length_advance_lt (s : State) (h : s.peek.kind ≠ .eof) :
    s.advance.rest.length < s.rest.length := by
  have := List.length_pos_iff.mpr (s.rest_ne_nil_of_peek h)
  simp only [advance, List.length_tail]
  omega

/-- Moves to the last of the semicolons that come next. -/
def skipSemicolons (s : State) : State :=
  if _h : s.peek.kind = .semicolon then s.advance.skipSemicolons else s
termination_by s.rest.length
decreasing_by exact s.length_advance_lt (by simp [_h])

/-- Whether a failed statement that started at brace depth `depth` ends at the current token: on
a semicolon at that depth, before the brace that closes the enclosing block, on that brace or
beyond it, or at the end of the text. -/
def settled (s : State) (depth : Int) : Bool :=
  s.cur.kind == .eof || s.braceDepth < depth ||
    (s.braceDepth == depth && (s.cur.kind == .semicolon || s.peek.kind == .rbrace)) ||
    s.peek.kind == .eof

/-- Moves to the end of a failed statement that started at brace depth `depth`. -/
def synchronize (depth : Int) (s : State) : State :=
  if _h : s.settled depth then s else s.advance.synchronize depth
termination_by s.rest.length
decreasing_by exact s.length_advance_lt (fun he => _h (by simp [settled, he]))

end State

end Parser

/-- A parser: it changes the state, and gives a result or fails with a diagnostic. -/
abbrev Parser (α : Type) := ExceptT Diagnostic (StateM Parser.State) α

namespace Parser

open Token (Kind)

/-- The current token. -/
def cur : Parser Token := return (← get).cur

/-- The token after the current one. -/
def peek : Parser Token := return (← get).peek

/-- Moves to the next token. -/
def advance : Parser Unit := modify State.advance

/-- Moves to the next token if it is of the given kind, and fails otherwise. -/
def expect (kind : Kind) : Parser Unit := do
  let next ← peek
  if next.kind = kind then advance else throw ⟨.unexpected kind next.kind, next.pos⟩

/-- Runs `p` with one more expression open. -/
def nested {α : Type} (p : Parser α) : Parser α := ExceptT.mk fun s =>
  let (result, s) := p { s with nesting := s.nesting + 1 }
  (result, { s with nesting := s.nesting - 1 })

/-- Runs `p` as the given rule, recording where it is entered and left. -/
def traced {α : Type} (cfg : Config) (rule : Rule) (p : Parser α) : Parser α :=
  if cfg.trace then ExceptT.mk fun s =>
    let (result, s) := p
      { s with traceLevel := s.traceLevel + 1, trace := ⟨s.traceLevel, true, rule⟩ :: s.trace }
    (result,
      { s with
        traceLevel := s.traceLevel - 1, trace := ⟨s.traceLevel - 1, false, rule⟩ :: s.trace })
  else p

/-- Runs `p`; if it fails, records why and moves to the end of the statement, which started at
the current brace depth. -/
def recovering {α : Type} (p : Parser α) : Parser (Option α) := ExceptT.mk fun s =>
  match p s with
  | (.ok a, s') => (.ok (some a), s')
  | (.error d, s') => (.ok none, (s'.report d).synchronize s.braceDepth)

/-- Repeats `step`, which gives `none` when it does not want to go on, at most `bound` times. -/
def iterateUpTo {α : Type} (step : α → Parser (Option α)) : (bound : Nat) → α → Parser α
  | 0, a => pure a
  | bound + 1, a => do
    match ← step a with
    | none => pure a
    | some a => iterateUpTo step bound a

/-- Repeats `step`, which gives `none` when it does not want to go on. A step that goes on moves
over a token, and there is none to go on with at the end of the text: so the number of tokens
left, the current one included, bounds the rounds. -/
def iterate {α : Type} (step : α → Parser (Option α)) (a : α) : Parser α := do
  iterateUpTo step ((← get).rest.length + 1) a

end Scriptlet.Parser
