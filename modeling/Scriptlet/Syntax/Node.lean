import Scriptlet.Token.Basic

/-!
# Syntax trees

The tree of a program. Every node records the place of the token that it is named after: the
operator of an infix expression, the parenthesis of a call, the first token of all others. Places
take no part in comparing two trees with `Node.same`.
-/

namespace Scriptlet.Syntax

/-- A syntax tree. Any tree may stand under any other, also where a binding or a function has its
names; the parser builds only those of the grammar. A `bare` node has no content and no
meaning. -/
inductive Node
  | program (pos : Pos) (statements : List Node)
  | block (pos : Pos) (statements : List Node)
  | binding (pos : Pos) (name value : Node)
  | returning (pos : Pos) (value : Node)
  | statement (pos : Pos) (expression : Node)
  | identifier (pos : Pos) (name : String)
  | integer (pos : Pos) (value : Int)
  | boolean (pos : Pos) (value : Bool)
  | string (pos : Pos) (value : String)
  | unary (pos : Pos) (operator : String) (operand : Node)
  | binary (pos : Pos) (left : Node) (operator : String) (right : Node)
  | conditional (pos : Pos) (condition consequence : Node) (alternative : Option Node)
  | function (pos : Pos) (parameters : List Node) (body : Node)
  | call (pos : Pos) (callee : Node) (arguments : List Node)
  | bare (pos : Pos)
deriving Repr, Inhabited

namespace Node

/-- The place of a node. -/
def pos : Node → Pos
  | program pos _ | block pos _ | binding pos _ _ | returning pos _ | statement pos _
  | identifier pos _ | integer pos _ | boolean pos _ | string pos _ | unary pos _ _
  | binary pos _ _ _ | conditional pos _ _ _ | function pos _ _ | call pos _ _ | bare pos => pos

/-- The name of the kind of a node. -/
def kind : Node → String
  | program .. => "program"
  | block .. => "block"
  | binding .. => "let"
  | returning .. => "return"
  | statement .. => "expression_statement"
  | identifier .. => "identifier"
  | integer .. => "integer"
  | boolean .. => "boolean"
  | string .. => "string"
  | unary .. => "prefix"
  | binary .. => "infix"
  | conditional .. => "if"
  | function .. => "function"
  | call .. => "call"
  | bare .. => "node"

/-- The statements of a program or a block. -/
def statements : Node → List Node
  | program _ ss | block _ ss => ss
  | _ => []

/-- The name that a tree binds where a name stands: the text of an identifier or of a string. Any
other tree names nothing. -/
def boundName? : Node → Option String
  | identifier _ name => some name
  | string _ text => some text
  | _ => none

mutual

/-- Whether two trees are equal but for their places. -/
def same : Node → Node → Bool
  | program _ ss, program _ ts => sameAll ss ts
  | block _ ss, block _ ts => sameAll ss ts
  | binding _ m a, binding _ n b => same m n && same a b
  | returning _ a, returning _ b => same a b
  | statement _ a, statement _ b => same a b
  | identifier _ m, identifier _ n => m == n
  | integer _ m, integer _ n => m == n
  | boolean _ p, boolean _ q => p == q
  | string _ s, string _ t => s == t
  | unary _ o a, unary _ p b => o == p && same a b
  | binary _ a o c, binary _ b p d => same a b && o == p && same c d
  | conditional _ a c e, conditional _ b d f => same a b && same c d && sameOption e f
  | function _ ms a, function _ ns b => sameAll ms ns && same a b
  | call _ a cs, call _ b ds => same a b && sameAll cs ds
  | bare _, bare _ => true
  | _, _ => false

/-- Whether two lists of trees are equal but for places. -/
def sameAll : List Node → List Node → Bool
  | [], [] => true
  | a :: as, b :: bs => same a b && sameAll as bs
  | _, _ => false

/-- Whether two trees that may be absent are both absent or equal but for places. -/
def sameOption : Option Node → Option Node → Bool
  | none, none => true
  | some a, some b => same a b
  | _, _ => false

end

end Node

end Scriptlet.Syntax
