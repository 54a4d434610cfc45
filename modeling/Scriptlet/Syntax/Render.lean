import Scriptlet.Syntax.Node

/-!
# Rendering

A tree written back as source text: every operator in its own parentheses, one blank between
statements, and strings with their quotes and backslashes escaped. For a tree of the grammar,
scanning and parsing the text gives the tree again, provided that a condition brings its own
parentheses and that no statement which starts with a parenthesis follows an expression.
-/

namespace Scriptlet.Syntax

/-- A string as it is written: between quotes, with quotes and backslashes escaped. -/
def renderString (s : String) : String :=
  String.ofList ('"' :: (s.toList.flatMap fun c =>
    if c == '\\' || c == '"' then ['\\', c] else [c]) ++ ['"'])

namespace Node

mutual

/-- The source text of a tree. -/
def render : Node → String
  | program _ ss | block _ ss => " ".intercalate (renderAll ss)
  | binding _ name value => "let " ++ render name ++ " = " ++ render value ++ ";"
  | returning _ value => "return " ++ render value ++ ";"
  | statement _ e => render e
  | identifier _ name => name
  | integer _ n => toString n
  | boolean _ b => if b then "true" else "false"
  | string _ s => renderString s
  | unary _ op e => "(" ++ op ++ render e ++ ")"
  | binary _ l op r => "(" ++ render l ++ " " ++ op ++ " " ++ render r ++ ")"
  | conditional _ c t e =>
    "if " ++ render c ++ " \x7b " ++ render t ++ " \x7d" ++ renderElse e
  | function _ params body =>
    "fn(" ++ ", ".intercalate (renderAll params) ++ ") \x7b " ++ render body ++ " \x7d"
  | call _ f args => render f ++ "(" ++ ", ".intercalate (renderAll args) ++ ")"
  | bare pos =>
    "ASTNode(line=" ++ toString pos.line ++ ", col=" ++ toString pos.column ++ ")"

/-- The source texts of trees. -/
def renderAll : List Node → List String
  | [] => []
  | n :: ns => render n :: renderAll ns

/-- The source text of the `else` part of a condition. -/
def renderElse : Option Node → String
  | none => ""
  | some e => " else \x7b " ++ render e ++ " \x7d"

end

mutual

/-- The number of renderings that are under way at once where a tree is rendered: that of the tree
itself, and those inside it for the part that has the most. -/
def frames : Node → Nat
  | program _ ss | block _ ss => 1 + framesAll ss
  | binding _ name value => 1 + max (frames name) (frames value)
  | returning _ e | statement _ e | unary _ _ e => 1 + frames e
  | binary _ l _ r => 1 + max (frames l) (frames r)
  | conditional _ c t e => 1 + max (frames c) (max (frames t) (framesIn e))
  | function _ params body => 1 + max (framesAll params) (frames body)
  | call _ f args => 1 + max (frames f) (framesAll args)
  | identifier .. | integer .. | boolean .. | string .. => 1
  | bare _ => 2

/-- The number for the trees of a list, which are gone through by a rendering of its own. -/
def framesAll : List Node → Nat
  | [] => 1
  | n :: ns => max (1 + frames n) (framesAll ns)

/-- The number for a tree that may be absent. -/
def framesIn : Option Node → Nat
  | none => 0
  | some n => frames n

end

/-! ## The text of each node -/

variable {pos : Pos} {n l r f c t value body : Node} {op name s : String} {k : Int}
  {ns : List Node} {e : Option Node}

@[simp] theorem render_program : (program pos ns).render = " ".intercalate (renderAll ns) := rfl

@[simp] theorem render_block : (block pos ns).render = " ".intercalate (renderAll ns) := rfl

@[simp] theorem render_binding :
    (binding pos n value).render = "let " ++ n.render ++ " = " ++ value.render ++ ";" := rfl

@[simp] theorem render_returning :
    (returning pos value).render = "return " ++ value.render ++ ";" := rfl

@[simp] theorem render_statement : (statement pos n).render = n.render := rfl

@[simp] theorem render_identifier : (identifier pos name).render = name := rfl

@[simp] theorem render_integer : (integer pos k).render = toString k := rfl

@[simp] theorem render_true : (boolean pos true).render = "true" := rfl

@[simp] theorem render_false : (boolean pos false).render = "false" := rfl

@[simp] theorem render_string : (string pos s).render = renderString s := rfl

@[simp] theorem render_unary : (unary pos op n).render = "(" ++ op ++ n.render ++ ")" := rfl

@[simp] theorem render_binary :
    (binary pos l op r).render = "(" ++ l.render ++ " " ++ op ++ " " ++ r.render ++ ")" := rfl

@[simp] theorem render_conditional : (conditional pos c t e).render =
    "if " ++ c.render ++ " \x7b " ++ t.render ++ " \x7d" ++ renderElse e := rfl

@[simp] theorem render_function : (function pos ns body).render =
    "fn(" ++ ", ".intercalate (renderAll ns) ++ ") \x7b " ++ body.render ++ " \x7d" := rfl

@[simp] theorem render_call : (call pos f ns).render =
    f.render ++ "(" ++ ", ".intercalate (renderAll ns) ++ ")" := rfl

@[simp] theorem renderAll_nil : renderAll [] = [] := rfl

@[simp] theorem renderAll_cons : renderAll (n :: ns) = n.render :: renderAll ns := rfl

@[simp] theorem renderElse_some :
    renderElse (some n) = " else \x7b " ++ n.render ++ " \x7d" := rfl

end Node

end Scriptlet.Syntax
