import Scriptlet.Value.Basic
import Scriptlet.Word.Power

/-!
# Operators and builtin functions

What the operators and the builtin functions make of values. Operands of different types never
match; operands of one type have the operators of that type.
-/

namespace Scriptlet

/-- The infix operators. -/
inductive BinaryOp
  | add | sub | mul | div | pow | lt | gt | le | ge | eq | ne
deriving DecidableEq, Repr

namespace BinaryOp

/-- The operator that a text denotes. -/
def ofText? : String → Option BinaryOp
  | "+" => some add
  | "-" => some sub
  | "*" => some mul
  | "/" => some div
  | "^" => some pow
  | "<" => some lt
  | ">" => some gt
  | "<=" => some le
  | ">=" => some ge
  | "==" => some eq
  | "!=" => some ne
  | _ => none

/-- The operator applied to integers. -/
def onIntegers (l r : Int) : BinaryOp → Value
  | add => .integer (Word.wrap (l + r))
  | sub => .integer (Word.wrap (l - r))
  | mul => .integer (Word.wrap (l * r))
  | div =>
    match Word.quotient? l r with
    | some q => .integer (Word.wrap q)
    | none => .fault (.divisionByZero l "/" r)
  | pow =>
    match Word.power l r with
    | .ok n => .integer n
    | .error .divisionByZero => .fault (.divisionByZero l "^" r)
    | .error .overflow => .fault (.overflow l "^" r)
  | lt => .boolean (l < r)
  | gt => .boolean (l > r)
  | le => .boolean (l ≤ r)
  | ge => .boolean (l ≥ r)
  | eq => .boolean (l == r)
  | ne => .boolean (l != r)

/-- The operator applied to booleans, if they have it. -/
def onBooleans? (l r : Bool) : BinaryOp → Option Value
  | eq => some (.boolean (l == r))
  | ne => some (.boolean (l != r))
  | _ => none

/-- The operator applied to strings, if they have it. -/
def onStrings? (l r : String) : BinaryOp → Option Value
  | add => some (.string (l ++ r))
  | eq => some (.boolean (l == r))
  | ne => some (.boolean (l != r))
  | _ => none

end BinaryOp

namespace Value

/-- The value of an infix operator, given as its text, if the two values have it. -/
def binary? (op : String) (l r : Value) : Option Value :=
  match l, r with
  | integer l, integer r => (BinaryOp.ofText? op).map (BinaryOp.onIntegers l r)
  | boolean l, boolean r => (BinaryOp.ofText? op).bind (BinaryOp.onBooleans? l r)
  | string l, string r => (BinaryOp.ofText? op).bind (BinaryOp.onStrings? l r)
  | _, _ => none

/-- The value of an infix operator, given as its text. -/
def binary (op : String) (l r : Value) : Value :=
  match binary? op l r with
  | some v => v
  | none =>
    if l.type = r.type then fault (.unknownBinary l.type op r.type)
    else fault (.typeMismatch l.type op r.type)

/-- What is not true is true, and the other way round. -/
def not (v : Value) : Value := boolean !v.truthy

/-- The negative of an integer. -/
def negative : Value → Value
  | integer n => integer (Word.wrap (-n))
  | v => fault (.unknownUnary "-" v.type)

/-- The value of a prefix operator, given as its text. -/
def unary (op : String) (v : Value) : Value :=
  match op with
  | "!" => v.not
  | "-" => v.negative
  | _ => fault (.unknownUnary op v.type)

end Value

namespace Builtin

/-- The value of a builtin function, and the lines that it prints. -/
def apply : Builtin → List Value → Value × List Line
  | len, [.string s] => (.integer s.length, [])
  | len, [v] => (.fault (.noLength v.type), [])
  | type, [v] => (.string v.type.name, [])
  | puts, args => (.null, args.map Value.line)
  | _, args => (.fault (.builtinArity 1 args.length), [])

end Builtin

end Scriptlet
