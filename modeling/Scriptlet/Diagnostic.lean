import Scriptlet.Text.Quoted
import Scriptlet.Token.Basic

/-!
# Diagnostics

What the parser reports: why a statement was given up, and at which token.
-/

namespace Scriptlet

/-- Why a statement cannot be parsed. -/
inductive Complaint
  | unexpected (expected actual : Token.Kind)
  | noExpression (kind : Token.Kind)
  | badInteger (text : String)
  | tooDeep (limit : Int)
deriving DecidableEq, Repr

namespace Complaint

/-- The wording of a complaint. -/
def message : Complaint → String
  | unexpected expected actual =>
    "expected next token to be " ++ expected.name ++ ", got " ++ actual.name ++ " instead"
  | noExpression kind => "no prefix parse function for " ++ kind.name ++ " found"
  | badInteger text => "could not parse " ++ Text.quoted text ++ " as integer"
  | tooDeep limit => "expression nested deeper than " ++ toString limit ++ " levels"

end Complaint

/-- A complaint and the place of the token that it is about. -/
structure Diagnostic where
  complaint : Complaint
  pos : Pos
deriving DecidableEq, Repr

namespace Diagnostic

/-- The wording of a diagnostic, without its place. -/
def message (d : Diagnostic) : String := d.complaint.message

/-- The wording of a diagnostic with its place, unless its line is unknown. -/
def report (d : Diagnostic) : String :=
  if d.pos.line == 0 then d.message
  else d.message ++ " (line " ++ toString d.pos.line ++ ", col " ++ toString d.pos.column ++ ")"

end Diagnostic

end Scriptlet
