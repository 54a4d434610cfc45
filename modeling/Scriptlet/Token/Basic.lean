/-!
# Tokens

The smallest units of a source text: their kinds, the kinds' names and binding powers, and the
tokens themselves, a kind with the text it stands for and the place where it starts.
-/

namespace Scriptlet

/-- A place in a source text. Lines and columns of a text that is read from its start count
from 1. -/
structure Pos where
  line : Int
  column : Int
deriving DecidableEq, Repr, Inhabited

namespace Pos

/-- The place of the first character of a text. -/
def start : Pos := ⟨1, 1⟩

/-- The place given to what comes from no text. -/
def unknown : Pos := ⟨0, 0⟩

/-- The place after the character `c` at place `p`. -/
def next (p : Pos) (c : Char) : Pos :=
  if c == '\n' then ⟨p.line + 1, 1⟩ else ⟨p.line, p.column + 1⟩

/-- The place after the characters `cs`, the first of which is at place `p`. -/
def after (p : Pos) (cs : List Char) : Pos := cs.foldl next p

end Pos

namespace Token

/-- What a token is. A source of tokens other than the scanner may also use kinds of its own,
which no rule of the grammar knows. -/
inductive Kind
  | illegal | eof
  | ident | int | string
  | assign | plus | minus | asterisk | slash | hat
  | bang | eq | notEq | lt | gt | ltEq | gtEq
  | comma | semicolon | lparen | rparen | lbrace | rbrace | lbracket | rbracket
  | function | letKey | trueKey | falseKey | ifKey | elseKey | returnKey
  | custom (name : String)
deriving DecidableEq, Repr, Inhabited

namespace Kind

/-- The name of a kind in messages. -/
def name : Kind → String
  | illegal => "ILLEGAL"
  | eof => "EOF"
  | ident => "IDENT"
  | int => "INT"
  | string => "STRING"
  | assign => "ASSIGN"
  | plus => "PLUS"
  | minus => "MINUS"
  | asterisk => "ASTERISK"
  | slash => "SLASH"
  | hat => "HAT"
  | bang => "BANG"
  | eq => "EQ"
  | notEq => "NOT_EQ"
  | lt => "LT"
  | gt => "GT"
  | ltEq => "LTEQ"
  | gtEq => "GTEQ"
  | comma => "COMMA"
  | semicolon => "SEMICOLON"
  | lparen => "LPAREN"
  | rparen => "RPAREN"
  | lbrace => "LBRACE"
  | rbrace => "RBRACE"
  | lbracket => "LBRACKET"
  | rbracket => "RBRACKET"
  | function => "FUNCTION"
  | letKey => "LET"
  | trueKey => "TRUE"
  | falseKey => "FALSE"
  | ifKey => "IF"
  | elseKey => "ELSE"
  | returnKey => "RETURN"
  | custom name => name

/-- The kinds that the scanner produces. -/
def known : List Kind :=
  [illegal, eof, ident, int, string, assign, plus, minus, asterisk, slash, hat, bang, eq, notEq,
    lt, gt, ltEq, gtEq, comma, semicolon, lparen, rparen, lbrace, rbrace, lbracket, rbracket,
    function, letKey, trueKey, falseKey, ifKey, elseKey, returnKey]

/-- The kind of a given name. -/
def ofName (s : String) : Kind := (known.find? (·.name == s)).getD (custom s)

/-- How tightly a token of this kind binds what is on its left: from 2 for the equality
operators to 6 for the power and 8 for a call, and 1 for all that continues no expression. -/
def power : Kind → Nat
  | eq | notEq => 2
  | lt | gt | ltEq | gtEq => 3
  | plus | minus => 4
  | asterisk | slash => 5
  | hat => 6
  | lparen => 8
  | _ => 1

/-- The binding power of what may contain any operator. -/
def lowestPower : Nat := 1

/-- The binding power of a prefix operator, above every infix one and below a call. -/
def prefixPower : Nat := 7

/-- Whether the kind is one of the eleven infix operators. -/
def isInfix : Kind → Bool
  | plus | minus | asterisk | slash | hat | eq | notEq | lt | gt | ltEq | gtEq => true
  | _ => false

end Kind

end Token

/-- A token: its kind, the text that it stands for and the place of its first character. -/
structure Token where
  kind : Token.Kind
  text : String
  pos : Pos
deriving DecidableEq, Repr, Inhabited

namespace Token

/-- The end of the text at place `p`. -/
def eofAt (p : Pos) : Token := ⟨.eof, "", p⟩

/-- How a token is shown. -/
def display (t : Token) : String := "Token(" ++ t.kind.name ++ ", " ++ t.text ++ ")"

end Token

end Scriptlet
