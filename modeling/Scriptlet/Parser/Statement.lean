import Scriptlet.Parser.State

/-!
# Statements

The parsers of statements and blocks, given a parser `expression` of expressions that bind tighter
than a given power. A statement that fails is dropped, and the parse goes on after it.

A parser leaves the current token on the last one that belongs to what it parsed.
-/

namespace Scriptlet.Parser

open Syntax (Node)
open Token (Kind)

/-- The current token as an identifier. -/
def identifier : Parser Node := do
  let token ← cur
  return .identifier token.pos token.text

/-- The next token, which has to be an identifier. -/
def expectName : Parser Node := do
  expect .ident
  identifier

variable (cfg : Config) (expression : Nat → Parser Node)

/-- A binding: `let NAME = EXPRESSION` and any number of semicolons. -/
def letStatement : Parser Node := traced cfg .letStatement do
  let first ← cur
  let name ← expectName
  expect .assign
  advance
  let value ← expression Kind.lowestPower
  modify State.skipSemicolons
  return .binding first.pos name value

/-- A return: `return EXPRESSION` and any number of semicolons. -/
def returnStatement : Parser Node := traced cfg .returnStatement do
  let first ← cur
  advance
  let value ← expression Kind.lowestPower
  modify State.skipSemicolons
  return .returning first.pos value

/-- An expression and at most one semicolon. -/
def expressionStatement : Parser Node := traced cfg .expressionStatement do
  let first ← cur
  let value ← expression Kind.lowestPower
  if (← peek).kind = .semicolon then advance
  return .statement first.pos value

/-- The statement at the current token, or none if it fails. -/
def statement : Parser (Option Node) := recovering do
  match (← cur).kind with
  | .letKey => letStatement cfg expression
  | .returnKey => returnStatement cfg expression
  | _ => expressionStatement cfg expression

/-- One round of a block that was opened at brace depth `depth`: a statement, unless the block
ends here. A failed statement that ran into the closing brace ends the block too. -/
def blockStep (depth : Int) (statements : List Node) : Parser (Option (List Node)) := do
  let kind := (← cur).kind
  if kind = .rbrace ∨ kind = .eof then return none
  match ← statement cfg expression with
  | some s =>
    advance
    return some (statements ++ [s])
  | none =>
    if (← get).braceDepth < depth then return none
    advance
    return some statements

/-- The statements between braces, with the current token on the opening one. -/
def block : Parser Node := traced cfg .block do
  let first ← cur
  let depth := (← get).braceDepth
  advance
  let statements ← iterate (blockStep cfg expression depth) []
  return .block first.pos statements

/-- One round of a program: a statement, unless the text ends here. -/
def programStep (statements : List Node) : Parser (Option (List Node)) := do
  if (← cur).kind = .eof then return none
  let s ← statement cfg expression
  advance
  return some (statements ++ s.toList)

/-- The statements up to the end of the text. -/
def programWith : Parser Node := do
  let statements ← iterate (programStep cfg expression) []
  return .program .start statements

end Scriptlet.Parser
