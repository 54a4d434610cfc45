/-!
# Open delimiters

How many braces and parentheses of a text are still open, strings and comments aside. It tells
whether a line of input ends an input or more lines have to follow.
-/

namespace Scriptlet.Session

/-- What surrounds a character: program text, a comment to the end of the line, or a string, where
the character may be escaped. -/
inductive Region
  | code
  | comment
  | string (escaped : Bool)
deriving DecidableEq, Repr

/-- The number of delimiters that are open, and the region that comes next. -/
structure Balance where
  depth : Int
  region : Region
deriving DecidableEq, Repr

/-- What a character of program text does to the number of open delimiters. -/
def delimiterStep (c : Char) : Int :=
  if c == '{' || c == '(' then 1 else if c == '}' || c == ')' then -1 else 0

/-- The balance after a character. The end of a line ends a comment and is otherwise passed
over. -/
def Balance.next (b : Balance) (c : Char) : Balance :=
  match b.region with
  | .comment => if c == '\n' then { b with region := .code } else b
  | .string escaped =>
    if c == '\n' then b
    else if escaped then { b with region := .string false }
    else if c == '\\' then { b with region := .string true }
    else if c == '"' then { b with region := .code }
    else b
  | .code =>
    if c == '"' then { b with region := .string false }
    else if c == '#' then { b with region := .comment }
    else { b with depth := b.depth + delimiterStep c }

/-- The number of delimiters of a text that are still open. -/
def openDelimiters (text : String) : Int := (text.toList.foldl Balance.next ⟨0, .code⟩).depth

end Scriptlet.Session
