import Scriptlet.Eval.Machine

/-!
# Evaluation

The value of a tree in a scope. Faults and returned values are values like any other; what
receives a fault passes it on at once, and statements end at either.

`evalNode` evaluates with room for `budget` active nodes; `evaluate` with what the limit leaves.
-/

namespace Scriptlet.Eval

open Syntax (Node)

/-- Runs statements until one stops; `last` is the value of what came before. -/
def runStatements (eval : Node → Eval Value) (last : Value) : List Node → Eval Value
  | [] => pure last
  | s :: ss => do
    let v ← eval s
    if v.stops then return v
    runStatements eval v ss

/-- Evaluates arguments from left to right, up to the first fault. -/
def evalArguments (eval : Node → Eval Value) : List Node → Eval (Except Fault (List Value))
  | [] => return .ok []
  | e :: es => do
    match ← eval e with
    | .fault f => return .error f
    | v =>
      match ← evalArguments eval es with
      | .ok vs => return .ok (v :: vs)
      | .error f => return .error f

/-- The value of a name: what the scopes bind it to, or else the builtin function. -/
def evalName (scope : ScopeId) (name : String) : Eval Value := do
  match (← get).heap.find? scope name with
  | some v => return v
  | none =>
    match Builtin.ofName? name with
    | some b => return .builtin b
    | none => return .fault (.unknownName name)

/-- Binds the name that a tree stands for, if it stands for one. -/
def bindName (scope : ScopeId) (name : Node) (v : Value) : Eval Unit :=
  match name.boundName? with
  | some text => bind scope text v
  | none => pure ()

/-- The bindings of the parameters of a function to its arguments. -/
def bindings (params : List Node) (args : List Value) : List (String × Value) :=
  (params.zip args).filterMap fun (param, arg) => param.boundName?.map (·, arg)

section

variable (maxDepth : Nat) (eval : Node → ScopeId → Eval Value)

/-- The value of a call of `f`. A function runs in a new scope inside the one that it was made
in. -/
def applyWith (f : Value) (args : List Value) : Eval Value := do
  match f with
  | .builtin b =>
    let (v, lines) := b.apply args
    print lines
    return v
  | .function params body scope =>
    if args.length ≠ params.length then
      return .fault (.wrongArity params.length args.length)
    if maxDepth ≤ (← get).depth then
      return .fault (.tooManyCalls maxDepth)
    let inner ← enclose scope (bindings params args)
    let v ← called (eval body inner)
    return v.arrived
  | v => return .fault (.notFunction v.type)

/-- The value of a tree, given how to evaluate the trees under it. -/
def evalWith (node : Node) (scope : ScopeId) : Eval Value := do
  match node with
  | .program _ ss =>
    let v ← runStatements (eval · scope) .null ss
    return v.arrived
  | .block _ ss => runStatements (eval · scope) .null ss
  | .statement _ e => eval e scope
  | .binding _ name e =>
    let v ← eval e scope
    if v.isFault then return v
    bindName scope name v
    return v
  | .returning _ e =>
    let v ← eval e scope
    if v.isFault then return v
    return .returning v
  | .integer _ n => return .integer n
  | .boolean _ b => return .boolean b
  | .string _ s => return .string s
  | .function _ params body => return .function params body scope
  | .identifier _ name => evalName scope name
  | .unary _ op e =>
    let v ← eval e scope
    if v.isFault then return v
    return v.unary op
  | .binary _ l op r =>
    let l ← eval l scope
    if l.isFault then return l
    let r ← eval r scope
    if r.isFault then return r
    return .binary op l r
  | .conditional _ c t e =>
    let c ← eval c scope
    if c.isFault then return c
    if c.truthy then eval t scope
    else
      match e with
      | some e => eval e scope
      | none => return .null
  | .call _ f args =>
    let f ← eval f scope
    if f.isFault then return f
    match ← evalArguments (eval · scope) args with
    | .error fault => return .fault fault
    | .ok args => applyWith maxDepth eval f args
  | .bare pos => throw ⟨"node", pos⟩

end

/-- The value of a tree, with room for `budget` active nodes. -/
def evalNode (maxDepth : Nat) : (budget : Nat) → Node → ScopeId → Eval Value
  | 0, _, _ => return .fault (.tooManyNodes (nestingLimit maxDepth))
  | budget + 1, node, scope => nested (evalWith maxDepth (evalNode maxDepth budget) node scope)

/-- The value of a tree, with the room for active nodes that the limit leaves. -/
def evaluate (maxDepth : Nat) (node : Node) (scope : ScopeId) : Eval Value := do
  evalNode maxDepth (nestingLimit maxDepth - (← get).nesting) node scope

/-- The value of a call, with the room for active nodes that the limit leaves. -/
def apply (maxDepth : Nat) (f : Value) (args : List Value) : Eval Value := do
  applyWith maxDepth (evalNode maxDepth (nestingLimit maxDepth - (← get).nesting)) f args

end Scriptlet.Eval
