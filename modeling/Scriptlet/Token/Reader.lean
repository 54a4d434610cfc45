import Scriptlet.Token.Scan

/-!
# Readers

A text with a reading head that may stand anywhere: before the start, inside, or beyond the end.
A head at a negative offset reads from the end of the text, as offsets from the end do, and comes
to the start of the text when it reaches offset zero; what it sees ahead of itself until then is
blank.

From offset zero on a reader gives the tokens of a `Cursor` on the rest of the text.
-/

namespace Scriptlet.Token

/-- A text, the offset of the reading head, and the place that the head counts for itself. -/
structure Reader where
  text : List Char
  offset : Int
  pos : Pos

/-- Why a reader cannot go on. -/
inductive ReadError
  | pastEnd (offset line : Int)
  | beforeStart
deriving DecidableEq, Repr

/-- The wording of a read error. -/
def ReadError.message : ReadError → String
  | pastEnd offset line =>
    "Attempted to read past end of source at position=<" ++ toString offset ++ ">, line=<" ++
      toString line ++ ">"
  | beforeStart => "string index out of range"

namespace Reader

/-- Whether the head is at the end of the text or beyond it. -/
def atEnd (r : Reader) : Bool := (r.text.length : Int) ≤ r.offset

/-- The character `k` places after the head, if that is inside the text. -/
def peek (r : Reader) (k : Int) : Option Char :=
  if 0 ≤ r.offset + k then r.text[(r.offset + k).toNat]? else none

/-- Reads the character at the head and moves over it. -/
def advance (r : Reader) : Except ReadError (Char × Reader) :=
  if r.atEnd then .error (.pastEnd r.offset r.pos.line)
  else
    let index := if r.offset < 0 then r.offset + r.text.length else r.offset
    match if index < 0 then none else r.text[index.toNat]? with
    | some c => .ok (c, { r with offset := r.offset + 1, pos := r.pos.next c })
    | none => .error .beforeStart

/-- Moves a head at a negative offset to the start of the text. -/
def enter (r : Reader) : Except ReadError Reader :=
  if 0 ≤ r.offset then .ok r
  else if r.offset + r.text.length < 0 then .error .beforeStart
  else
    let passed := r.text.drop (r.offset + r.text.length).toNat
    .ok { r with offset := 0, pos := r.pos.after passed }

/-- The cursor at the head, which is not before the start. -/
def cursor (r : Reader) : Cursor := ⟨r.text.drop r.offset.toNat, r.pos⟩

/-- Moves the head to a later cursor on the same text. -/
def moveTo (r : Reader) (c : Cursor) : Reader :=
  { r with offset := r.offset + (r.cursor.ahead.length - c.ahead.length : Nat), pos := c.pos }

/-- Moves over white space and comments. -/
def skipLayout (r : Reader) : Except ReadError Reader := do
  let r ← r.enter
  return r.moveTo r.cursor.skipLayout

/-- Moves to the end of the line. -/
def skipLine (r : Reader) : Except ReadError Reader := do
  let r ← r.enter
  return r.moveTo (r.cursor.skip (r.cursor.ahead.takeWhile (· != '\n')).length)

/-- The operator or delimiter right at the head, if there is one. -/
def nextOperator? (r : Reader) : Option (Token × Reader) :=
  if r.offset < 0 then none
  else
    match r.cursor.ahead with
    | [] => none
    | c :: cs =>
      (operator? c cs).map fun lx =>
        (⟨lx.kind, String.ofList lx.text, r.pos⟩, r.moveTo (r.cursor.skip (1 + lx.more)))

/-- Reads the next token. -/
def nextToken (r : Reader) : Except ReadError (Token × Reader) := do
  let r ← r.enter
  return (r.cursor.next.1, r.moveTo r.cursor.next.2)

/-- Reads all tokens up to and including the end of the text. -/
def tokens (r : Reader) : Except ReadError (List Token × Reader) := do
  let r ← r.enter
  return (r.cursor.tokens, r.moveTo (r.cursor.skip r.cursor.ahead.length))

end Reader

end Scriptlet.Token
