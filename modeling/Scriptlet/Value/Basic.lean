import Scriptlet.Syntax.Render

/-!
# Values

What a program computes with: integers, booleans, strings, null, functions and the builtin ones.
Two more kinds of value steer a run. A `returning` value is on its way out of the call that
returned it, and a `fault` is a failure on its way out of the whole run.
-/

namespace Scriptlet

open Syntax (Node)

/-- A scope, by its number in the heap. -/
abbrev ScopeId := Nat

/-- The functions that every program can use. -/
inductive Builtin
  | len | puts | type
deriving DecidableEq, Repr

namespace Builtin

/-- The name of a builtin function. -/
def name : Builtin → String
  | len => "len"
  | puts => "puts"
  | type => "type"

/-- The builtin function of a given name. -/
def ofName? : String → Option Builtin
  | "len" => some len
  | "puts" => some puts
  | "type" => some type
  | _ => none

end Builtin

/-- The types of values. -/
inductive ValueType
  | integer | boolean | null | string | returning | fault | function | builtin
deriving DecidableEq, Repr

/-- The name of a type. -/
def ValueType.name : ValueType → String
  | integer => "INTEGER"
  | boolean => "BOOLEAN"
  | null => "NULL"
  | string => "STRING"
  | returning => "RETURN_VALUE"
  | fault => "ERROR"
  | function => "FUNCTION"
  | builtin => "BUILTIN"

/-- Why a run fails. A `custom` fault is one that no rule of the language produces. -/
inductive Fault
  | unknownName (name : String)
  | typeMismatch (left : ValueType) (operator : String) (right : ValueType)
  | unknownUnary (operator : String) (operand : ValueType)
  | unknownBinary (left : ValueType) (operator : String) (right : ValueType)
  | notFunction (type : ValueType)
  | wrongArity (want got : Nat)
  | tooManyCalls (limit : Nat)
  | tooManyNodes (limit : Nat)
  | divisionByZero (left : Int) (operator : String) (right : Int)
  | overflow (left : Int) (operator : String) (right : Int)
  | builtinArity (want got : Nat)
  | noLength (type : ValueType)
  | custom (kind message : String)
deriving DecidableEq, Repr

namespace Fault

/-- The category of a fault. -/
def kind : Fault → String
  | unknownName .. => "identifier-not-found"
  | typeMismatch .. => "type-mismatch"
  | unknownUnary .. => "unknown-operator"
  | unknownBinary .. => "unknown-operator"
  | notFunction .. => "not-a-function"
  | wrongArity .. => "wrong-arity"
  | tooManyCalls .. => "stack-depth-exceeded"
  | tooManyNodes .. => "stack-depth-exceeded"
  | divisionByZero .. => "division-by-zero"
  | overflow .. => "integer-overflow"
  | builtinArity .. => "builtin-argument"
  | noLength .. => "builtin-argument"
  | custom kind _ => kind

/-- The wording of a fault. -/
def message : Fault → String
  | unknownName name => "identifier not found: " ++ name
  | typeMismatch l op r => "type mismatch: " ++ l.name ++ " " ++ op ++ " " ++ r.name
  | unknownUnary op t => "unknown operator: " ++ op ++ t.name
  | unknownBinary l op r => "unknown operator: " ++ l.name ++ " " ++ op ++ " " ++ r.name
  | notFunction t => "not a function: " ++ t.name
  | wrongArity want got =>
    "wrong number of arguments: want=" ++ toString want ++ ", got=" ++ toString got
  | tooManyCalls limit => "stack depth exceeded: " ++ toString limit
  | tooManyNodes limit => "expression nested too deep: " ++ toString limit
  | divisionByZero l op r => "division by zero: " ++ toString l ++ " " ++ op ++ " " ++ toString r
  | overflow l op r => "integer overflow: " ++ toString l ++ " " ++ op ++ " " ++ toString r
  | builtinArity want got =>
    "wrong number of arguments. got=" ++ toString got ++ ", want=" ++ toString want
  | noLength t => "argument to `len` not supported, got " ++ t.name
  | custom _ message => message

end Fault

/-- A line that is printed: its text, and the number of renderings that it takes at once. -/
structure Line where
  text : String
  frames : Nat
deriving DecidableEq, Repr

/-- A value. A function has the scope that it was made in. -/
inductive Value
  | integer (n : Int)
  | boolean (b : Bool)
  | null
  | string (s : String)
  | returning (v : Value)
  | fault (f : Fault)
  | function (parameters : List Node) (body : Node) (scope : ScopeId)
  | builtin (b : Builtin)
deriving Repr, Inhabited

namespace Value

/-- The type of a value. -/
def type : Value → ValueType
  | integer _ => .integer
  | boolean _ => .boolean
  | null => .null
  | string _ => .string
  | returning _ => .returning
  | fault _ => .fault
  | function .. => .function
  | builtin _ => .builtin

/-- The text that a value is shown as. -/
def inspect : Value → String
  | integer n => toString n
  | boolean b => if b then "true" else "false"
  | null => "null"
  | string s => s
  | returning v => v.inspect
  | fault f => "ERROR: " ++ f.message
  | function params body _ =>
    "fn(" ++ ", ".intercalate (Node.renderAll params) ++ ") \x7b\n" ++ body.render ++ "\n\x7d"
  | builtin _ => "builtin function"

/-- The number of renderings that are under way at once where a value is shown. -/
def frames : Value → Nat
  | returning v => 1 + v.frames
  | function params body _ => 1 + max (Node.framesAll params) body.frames
  | _ => 1

/-- The line that a value is printed as. -/
def line (v : Value) : Line := ⟨v.inspect, v.frames⟩

/-- Whether a value counts as true in a condition: all do but null and false. -/
def truthy : Value → Bool
  | null | boolean false => false
  | _ => true

/-- Whether a value is a fault. -/
def isFault : Value → Bool
  | fault _ => true
  | _ => false

/-- Whether a value ends the statements that it arises in. -/
def stops : Value → Bool
  | returning _ | fault _ => true
  | _ => false

/-- The value that arrives at the end of a call: what was returned, or the value itself. -/
def arrived : Value → Value
  | returning v => v
  | v => v

/-- Whether two values that were made apart are the same. Functions never are, and faults are if
they report the same. -/
def same : Value → Value → Bool
  | integer m, integer n => m == n
  | boolean p, boolean q => p == q
  | null, null => true
  | string s, string t => s == t
  | returning v, returning w => same v w
  | fault f, fault g => f.kind == g.kind && f.message == g.message
  | builtin a, builtin b => a == b
  | _, _ => false

end Value

end Scriptlet
