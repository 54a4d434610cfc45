import Scriptlet.Eval.Node

/-!
# Evaluation that a fault ends at once

A second evaluator, over the same trees and values, in which a fault is no value: what produces
one throws it, and nothing catches it. The depth of calls is passed down and is not part of the
state, so that there is nothing to undo when a run is cut off.

* `Walk.node`: the value of a tree, with room for `budget` active nodes under `depth` calls.
* `Walk.run`: a whole run.
-/

namespace Scriptlet

namespace Walk

/-- What cuts a run off: a fault, or a node that has no meaning. -/
inductive Stop
  | fault (f : Fault)
  | meaningless (e : Eval.Meaningless)
deriving DecidableEq, Repr

/-- What a run reads and changes: the scopes, and the printed lines, newest first. -/
structure World where
  heap : Heap
  printed : List Line
deriving Inhabited

end Walk

/-- A computation that changes the world and gives a result, unless it is cut off. -/
abbrev Walk (α : Type) := ExceptT Walk.Stop (StateM Walk.World) α

namespace Walk

open Syntax (Node)

/-- Cuts the run off with a fault. -/
def abort {α : Type} (f : Fault) : Walk α := throw (.fault f)

/-- The value that an operator or a builtin function came to, unless it is a fault. -/
def produce : Value → Walk Value
  | .fault f => abort f
  | v => return v

/-- Prints lines. -/
def print (lines : List Line) : Walk Unit :=
  modify fun w => { w with printed := lines.reverse ++ w.printed }

/-- Binds the name that a tree stands for, if it stands for one. -/
def bindName (scope : ScopeId) (name : Node) (v : Value) : Walk Unit :=
  match name.boundName? with
  | some text => modify fun w => { w with heap := w.heap.bind scope text v }
  | none => return ()

/-- Makes a new scope inside another, with bindings. -/
def enclose (scope : ScopeId) (bindings : List (String × Value)) : Walk ScopeId :=
  modifyGet fun w =>
    let i := w.heap.nextId
    (i, { w with heap := (w.heap.addInside scope).bindAll i bindings })

/-- Runs statements until one returns; `last` is the value of what came before. -/
def statements (walk : Node → Walk Value) (last : Value) : List Node → Walk Value
  | [] => return last
  | s :: ss => do
    match ← walk s with
    | .returning v => return .returning v
    | v => statements walk v ss

/-- The value of a name. -/
def name (scope : ScopeId) (text : String) : Walk Value := do
  match (← get).heap.find? scope text with
  | some v => return v
  | none =>
    match Builtin.ofName? text with
    | some b => return .builtin b
    | none => abort (.unknownName text)

section

variable (maxDepth depth : Nat) (walk : Nat → Node → ScopeId → Walk Value)

/-- The value of a call of `f` under `depth` other calls. -/
def apply (f : Value) (args : List Value) : Walk Value := do
  match f with
  | .builtin b =>
    let (v, lines) := b.apply args
    print lines
    produce v
  | .function params body scope =>
    if args.length ≠ params.length then
      abort (.wrongArity params.length args.length)
    if maxDepth ≤ depth then
      abort (.tooManyCalls maxDepth)
    let inner ← enclose scope (Eval.bindings params args)
    let v ← walk (depth + 1) body inner
    return v.arrived
  | v => abort (.notFunction v.type)

/-- The value of a tree, given how to walk the trees under it. -/
def tree (node : Node) (scope : ScopeId) : Walk Value := do
  match node with
  | .program _ ss =>
    let v ← statements (walk depth · scope) .null ss
    return v.arrived
  | .block _ ss => statements (walk depth · scope) .null ss
  | .statement _ e => walk depth e scope
  | .binding _ name e =>
    let v ← walk depth e scope
    bindName scope name v
    return v
  | .returning _ e =>
    let v ← walk depth e scope
    return .returning v
  | .integer _ n => return .integer n
  | .boolean _ b => return .boolean b
  | .string _ s => return .string s
  | .function _ params body => return .function params body scope
  | .identifier _ text => name scope text
  | .unary _ op e =>
    let v ← walk depth e scope
    produce (v.unary op)
  | .binary _ l op r =>
    let l ← walk depth l scope
    let r ← walk depth r scope
    produce (.binary op l r)
  | .conditional _ c t e =>
    let c ← walk depth c scope
    if c.truthy then walk depth t scope
    else
      match e with
      | some e => walk depth e scope
      | none => return .null
  | .call _ f args =>
    let f ← walk depth f scope
    let args ← args.mapM (walk depth · scope)
    apply maxDepth depth walk f args
  | .bare pos => throw (.meaningless ⟨"node", pos⟩)

end

/-- The value of a tree, with room for `budget` active nodes under `depth` active calls. -/
def node (maxDepth : Nat) : (budget depth : Nat) → Node → ScopeId → Walk Value
  | 0, _, _, _ => abort (.tooManyNodes (Eval.nestingLimit maxDepth))
  | budget + 1, depth, e, scope => tree maxDepth depth (node maxDepth budget) e scope

/-- A whole run, with no other node or call active. -/
def run (maxDepth : Nat) (e : Node) (scope : ScopeId) : Walk Value :=
  node maxDepth (Eval.nestingLimit maxDepth) 0 e scope

end Walk

end Scriptlet
