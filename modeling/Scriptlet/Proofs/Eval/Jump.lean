import Scriptlet.Eval.Node

/-!
# Evaluation in which a return is a jump

A second evaluator, over the same trees and values, in which no value is ever on its way back: a
`return` jumps, with the value that it returns, to the end of the call or of the program around it.
Nothing between the two sees the jump. Faults are values that are passed on, as before.

* `Jump.landing`: the end of a call or a program, where jumps arrive.
* `Jump.node`: the value of a tree, with room for `budget` active nodes.
* `Jump.evaluate`: a whole run.
-/

namespace Scriptlet

/-- A computation that gives a result, or jumps with a value out of the call or the program around
it. -/
abbrev Jump (α : Type) := ExceptT Value Eval α

namespace Jump

open Syntax (Node)
open Eval (Meaningless)

/-- Jumps with a value. -/
def leave {α : Type} (v : Value) : Jump α := throw v

/-- The end of a call or a program: what jumped out of it arrives here. -/
def landing (act : Jump Value) : Eval Value := do
  match ← act.run with
  | .ok v => return v
  | .error v => return v

/-- Runs `act` with one more active node, until it ends or jumps. -/
def nested {α : Type} (act : Jump α) : Jump α := ExceptT.mk (Eval.nested act.run)

/-- Runs statements up to the first fault; `last` is the value of what came before. -/
def statements (walk : Node → Jump Value) (last : Value) : List Node → Jump Value
  | [] => return last
  | s :: ss => do
    let v ← walk s
    if v.isFault then return v
    statements walk v ss

/-- Evaluates arguments from left to right, up to the first fault. -/
def arguments (walk : Node → Jump Value) : List Node → Jump (Except Fault (List Value))
  | [] => return .ok []
  | e :: es => do
    match ← walk e with
    | .fault f => return .error f
    | v =>
      match ← arguments walk es with
      | .ok vs => return .ok (v :: vs)
      | .error f => return .error f

section

variable (maxDepth : Nat) (walk : Node → ScopeId → Jump Value)

/-- The value of a call of `f`. What jumps out of the body of a function arrives where the call
ends. -/
def apply (f : Value) (args : List Value) : Eval Value := do
  match f with
  | .builtin b =>
    let (v, lines) := b.apply args
    Eval.print lines
    return v
  | .function params body scope =>
    if args.length ≠ params.length then
      return .fault (.wrongArity params.length args.length)
    if maxDepth ≤ (← get).depth then
      return .fault (.tooManyCalls maxDepth)
    let inner ← Eval.enclose scope (Eval.bindings params args)
    Eval.called (landing (walk body inner))
  | v => return .fault (.notFunction v.type)

/-- The value of a tree, given how to walk the trees under it. -/
def tree (node : Node) (scope : ScopeId) : Jump Value := do
  match node with
  | .program _ ss => landing (statements (walk · scope) .null ss)
  | .block _ ss => statements (walk · scope) .null ss
  | .statement _ e => walk e scope
  | .binding _ name e =>
    let v ← walk e scope
    if v.isFault then return v
    Eval.bindName scope name v
    return v
  | .returning _ e =>
    let v ← walk e scope
    if v.isFault then return v
    leave v
  | .integer _ n => return .integer n
  | .boolean _ b => return .boolean b
  | .string _ s => return .string s
  | .function _ params body => return .function params body scope
  | .identifier _ name => Eval.evalName scope name
  | .unary _ op e =>
    let v ← walk e scope
    if v.isFault then return v
    return v.unary op
  | .binary _ l op r =>
    let l ← walk l scope
    if l.isFault then return l
    let r ← walk r scope
    if r.isFault then return r
    return .binary op l r
  | .conditional _ c t e =>
    let c ← walk c scope
    if c.isFault then return c
    if c.truthy then walk t scope
    else
      match e with
      | some e => walk e scope
      | none => return .null
  | .call _ f args =>
    let f ← walk f scope
    if f.isFault then return f
    match ← arguments (walk · scope) args with
    | .error fault => return .fault fault
    | .ok args => apply maxDepth walk f args
  | .bare pos => throwThe Meaningless ⟨"node", pos⟩

end

/-- The value of a tree, with room for `budget` active nodes. -/
def node (maxDepth : Nat) : (budget : Nat) → Node → ScopeId → Jump Value
  | 0, _, _ => return .fault (.tooManyNodes (Eval.nestingLimit maxDepth))
  | budget + 1, e, scope => nested (tree maxDepth (node maxDepth budget) e scope)

/-- A whole run, with the room for active nodes that the limit leaves. -/
def evaluate (maxDepth : Nat) (e : Node) (scope : ScopeId) : Eval Value := do
  landing (node maxDepth (Eval.nestingLimit maxDepth - (← get).nesting) e scope)

end Jump

end Scriptlet
