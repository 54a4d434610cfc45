import Scriptlet.Numeral
import Scriptlet.Parser.Statement
import Scriptlet.Word.Basic

/-!
# Expressions

An expression is what its first token starts, extended to the right for as long as the next token
binds tighter than what the expression is an operand of. `expression` is the parser of expressions
that may hold at most `budget` open expressions, itself included; `parseExpression` is the one for
what the limit on nesting leaves at the current token.
-/

namespace Scriptlet.Parser

open Syntax (Node)
open Token (Kind)

/-- What a token that starts an expression starts. -/
inductive Starter
  | identifier | integer | string | boolean | unary | group | conditional | function

/-- What a token of the given kind starts, if it starts an expression. -/
def starter? : Kind → Option Starter
  | .ident => some .identifier
  | .int => some .integer
  | .string => some .string
  | .trueKey | .falseKey => some .boolean
  | .bang | .minus => some .unary
  | .lparen => some .group
  | .ifKey => some .conditional
  | .function => some .function
  | _ => none

/-- What a token that continues an expression continues it to. -/
inductive Continuer
  | binary | call

/-- What a token of the given kind continues an expression to, if it continues one. -/
def continuer? (kind : Kind) : Option Continuer :=
  if kind.isInfix then some .binary else if kind = .lparen then some .call else none

/-- What a token of the given kind starts under `cfg`. -/
def Config.starter? (cfg : Config) (kind : Kind) : Option Starter :=
  if cfg.notStarting.contains kind then none else Parser.starter? kind

/-- What a token of the given kind continues an expression to under `cfg`. -/
def Config.continuer? (cfg : Config) (kind : Kind) : Option Continuer :=
  if cfg.notContinuing.contains kind then none else Parser.continuer? kind

/-- The current token as an integer. -/
def integer (cfg : Config) : Parser Node := traced cfg .integer do
  let token ← cur
  match Numeral.parse? token.text with
  | some value =>
    if Word.greatest < value then throw ⟨.badInteger token.text, token.pos⟩
    return .integer token.pos value
  | none => throw ⟨.badInteger token.text, token.pos⟩

/-- The current token as a string. -/
def stringLiteral : Parser Node := do
  let token ← cur
  return .string token.pos token.text

/-- The current token as a boolean. -/
def boolean : Parser Node := do
  let token ← cur
  return .boolean token.pos (token.kind == .trueKey)

/-- One more parameter, if a comma comes next. -/
def parametersStep (names : List Node) : Parser (Option (List Node)) := do
  if (← peek).kind ≠ .comma then return none
  advance
  return some (names ++ [← expectName])

/-- The parameters of a function up to the closing parenthesis, with the current token on the
opening one. -/
def parameters : Parser (List Node) := do
  if (← peek).kind = .rparen then
    advance
    return []
  let names ← iterate parametersStep [← expectName]
  expect .rparen
  return names

section

variable (cfg : Config) (expression : Nat → Parser Node)

/-- A prefix operator and its operand. -/
def unary : Parser Node := traced cfg .unary do
  let token ← cur
  advance
  let operand ← expression Kind.prefixPower
  return .unary token.pos token.text operand

/-- An expression in parentheses. -/
def group : Parser Node := do
  advance
  let e ← expression Kind.lowestPower
  expect .rparen
  return e

/-- The block after `else`, if that comes next. -/
def elseBlock : Parser (Option Node) := do
  if (← peek).kind ≠ .elseKey then return none
  advance
  expect .lbrace
  return some (← block cfg expression)

/-- A condition: `if (CONDITION) BLOCK`, with or without `else BLOCK`. -/
def conditional : Parser Node := traced cfg .conditional do
  let token ← cur
  expect .lparen
  advance
  let condition ← expression Kind.lowestPower
  expect .rparen
  expect .lbrace
  let consequence ← block cfg expression
  let alternative ← elseBlock cfg expression
  return .conditional token.pos condition consequence alternative

/-- A function literal: `fn(PARAMETERS) BLOCK`. -/
def functionLiteral : Parser Node := traced cfg .function do
  let token ← cur
  expect .lparen
  let names ← parameters
  expect .lbrace
  let body ← block cfg expression
  return .function token.pos names body

/-- One more argument, if a comma comes next. -/
def argumentsStep (args : List Node) : Parser (Option (List Node)) := do
  if (← peek).kind ≠ .comma then return none
  advance
  advance
  return some (args ++ [← expression Kind.lowestPower])

/-- The arguments of a call up to the closing parenthesis, with the current token on the opening
one. -/
def arguments : Parser (List Node) := do
  if (← peek).kind = .rparen then
    advance
    return []
  advance
  let first ← expression Kind.lowestPower
  let args ← iterate (argumentsStep expression) [first]
  expect .rparen
  return args

/-- An infix operator and its right operand. An operand binds tighter than the operator, so that
operators of one power group to the left. -/
def binary (left : Node) : Parser Node := traced cfg .binary do
  let token ← cur
  advance
  let right ← expression token.kind.power
  return .binary token.pos left token.text right

/-- A call of what is on the left. -/
def call (left : Node) : Parser Node := traced cfg .call do
  let token ← cur
  let args ← arguments expression
  return .call token.pos left args

/-- The expression that the current token starts. -/
def startExpression : Parser Node := do
  let token ← cur
  match cfg.starter? token.kind with
  | some .identifier => identifier
  | some .integer => integer cfg
  | some .string => stringLiteral
  | some .boolean => boolean
  | some .unary => unary cfg expression
  | some .group => group expression
  | some .conditional => conditional cfg expression
  | some .function => functionLiteral cfg expression
  | none => throw ⟨.noExpression token.kind, token.pos⟩

/-- One step of an expression to the right, if the next token binds tighter than `power`. -/
def extendStep (power : Nat) (left : Node) : Parser (Option Node) := do
  let next ← peek
  if next.kind = .semicolon ∨ next.kind.power ≤ power then return none
  match cfg.continuer? next.kind with
  | none => return none
  | some .binary =>
    advance
    return some (← binary cfg expression left)
  | some .call =>
    advance
    return some (← call cfg expression left)

/-- An expression of operators that bind tighter than `power`. -/
def expressionWith (power : Nat) : Parser Node := traced cfg .expression do
  let left ← startExpression cfg expression
  iterate (extendStep cfg expression power) left

end

/-- An expression of operators that bind tighter than `power`, with room for `budget` open
expressions. -/
def expression (cfg : Config) : (budget : Nat) → (power : Nat) → Parser Node
  | 0, _ => do throw ⟨.tooDeep cfg.maxNesting, (← cur).pos⟩
  | budget + 1, power => nested (expressionWith cfg (expression cfg budget) power)

/-- The parser of expressions for what the limit on nesting leaves. -/
def parseExpression (cfg : Config) (power : Nat) : Parser Node := do
  expression cfg (cfg.maxNesting - (← get).nesting).toNat power

end Scriptlet.Parser
