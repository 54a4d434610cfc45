import Scriptlet.Text.Case
import Scriptlet.Token.Basic

/-!
# Lexemes

What a text starts with: layout, a word, a number, a quoted string, an operator, or a character
that belongs to nothing. All of it is said on the list of characters ahead, without places.

* `layoutLength` is the length of the white space and comments that the text starts with.
* `lexeme` is the token that starts with a given character, with the number of characters that it
  takes after that one.
-/

namespace Scriptlet.Token

/-- White space between tokens. -/
def isSpace (c : Char) : Bool := c == ' ' || c == '\t' || c == '\r' || c == '\n'

/-- A character that starts a word. -/
def isLetter (c : Char) : Bool :=
  ('a' ≤ c && c ≤ 'z') || ('A' ≤ c && c ≤ 'Z') || c == '_'

/-- An ASCII digit. -/
def isDigit (c : Char) : Bool := '0' ≤ c && c ≤ '9'

/-- A character that continues a word. -/
def isWordChar (c : Char) : Bool := isLetter c || isDigit c

/-- The number of characters of layout that the text starts with. Layout is white space, and
comments from `#` to the end of the line; `inComment` says that the text starts inside one. -/
def layoutLength (inComment : Bool) : List Char → Nat
  | [] => 0
  | c :: cs =>
    if inComment then 1 + layoutLength (c != '\n') cs
    else if isSpace c then 1 + layoutLength false cs
    else if c == '#' then 1 + layoutLength true cs
    else 0

/-- The keyword that a word is, whatever the case of its letters, or else an identifier. -/
def wordKind (word : String) : Kind :=
  match Text.lower word with
  | "fn" => .function
  | "let" => .letKey
  | "true" => .trueKey
  | "false" => .falseKey
  | "if" => .ifKey
  | "else" => .elseKey
  | "return" => .returnKey
  | _ => .ident

/-- The operators and delimiters of one character. -/
def operator₁ : Char → Option Kind
  | '=' => some .assign
  | '+' => some .plus
  | '-' => some .minus
  | '*' => some .asterisk
  | '/' => some .slash
  | '^' => some .hat
  | '!' => some .bang
  | '<' => some .lt
  | '>' => some .gt
  | ',' => some .comma
  | ';' => some .semicolon
  | '(' => some .lparen
  | ')' => some .rparen
  | '{' => some .lbrace
  | '}' => some .rbrace
  | '[' => some .lbracket
  | ']' => some .rbracket
  | _ => none

/-- The operators of two characters. -/
def operator₂ : Char → Char → Option Kind
  | '=', '=' => some .eq
  | '!', '=' => some .notEq
  | '<', '=' => some .ltEq
  | '>', '=' => some .gtEq
  | _, _ => none

/-- The character that a backslash and `c` stand for in a string, if they are an escape. -/
def escape? : Char → Option Char
  | 'n' => some '\n'
  | 't' => some '\t'
  | 'r' => some '\r'
  | '"' => some '"'
  | '\\' => some '\\'
  | _ => none

/-- What follows an opening quote: the characters it stands for, the number of characters it
takes, the closing quote included, and whether there is a closing quote at all. -/
structure Quotation where
  content : List Char
  length : Nat
  closed : Bool

/-- Puts the characters `cs`, written with `n` characters, before a quotation. -/
def Quotation.prepend (cs : List Char) (n : Nat) (q : Quotation) : Quotation :=
  { q with content := cs ++ q.content, length := n + q.length }

/-- Reads the text after an opening quote. A backslash before a character that makes no escape
with it stands for itself, and so does one at the end of the text. -/
def quotation : List Char → Quotation
  | [] => ⟨[], 0, false⟩
  | '"' :: _ => ⟨[], 1, true⟩
  | '\\' :: e :: cs =>
    match escape? e with
    | some c => (quotation cs).prepend [c] 2
    | none => (quotation cs).prepend ['\\', e] 2
  | c :: cs => (quotation cs).prepend [c] 1

/-- A token without its place, and the number of characters that it takes after its first. -/
structure Lexeme where
  kind : Kind
  text : List Char
  more : Nat

/-- The string that starts with an opening quote before `cs`. One that is never closed is
illegal, and keeps its quote. -/
def stringLexeme (cs : List Char) : Lexeme :=
  let q := quotation cs
  if q.closed then ⟨.string, q.content, q.length⟩ else ⟨.illegal, '"' :: q.content, q.length⟩

/-- The longest operator that `c` starts before `cs`, if it starts one. -/
def operator? (c : Char) (cs : List Char) : Option Lexeme :=
  match cs with
  | d :: _ =>
    match operator₂ c d with
    | some kind => some ⟨kind, [c, d], 1⟩
    | none => (operator₁ c).map (⟨·, [c], 0⟩)
  | [] => (operator₁ c).map (⟨·, [c], 0⟩)

/-- The lexeme that starts with the character `c` before `cs`. -/
def lexeme (c : Char) (cs : List Char) : Lexeme :=
  if isLetter c then
    let word := c :: cs.takeWhile isWordChar
    ⟨wordKind (String.ofList word), word, word.length - 1⟩
  else if isDigit c then
    let number := c :: cs.takeWhile isDigit
    ⟨.int, number, number.length - 1⟩
  else if c == '"' then stringLexeme cs
  else (operator? c cs).getD ⟨.illegal, [c], 0⟩

end Scriptlet.Token
