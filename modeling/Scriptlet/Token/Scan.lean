import Scriptlet.Token.Lexeme

/-!
# Scanning

Turning a text into tokens, each with its place.

* `Cursor.next` reads one token.
* `Token.scan` reads all of them; the last, and only the last, is the end of the text.
-/

namespace Scriptlet.Token

/-- Where a scan has come to: the characters ahead and the place of the first of them. -/
structure Cursor where
  ahead : List Char
  pos : Pos

namespace Cursor

/-- Moves over `n` characters. -/
def skip (n : Nat) (c : Cursor) : Cursor := ⟨c.ahead.drop n, c.pos.after (c.ahead.take n)⟩

/-- Moves over the layout. -/
def skipLayout (c : Cursor) : Cursor := c.skip (layoutLength false c.ahead)

/-- The token that starts right here, and the cursor after it. With nothing ahead it is the end
of the text, and the cursor stays. -/
def read (c : Cursor) : Token × Cursor :=
  match c.ahead with
  | [] => (eofAt c.pos, c)
  | first :: rest =>
    let lx := lexeme first rest
    (⟨lx.kind, String.ofList lx.text, c.pos⟩, c.skip (1 + lx.more))

/-- The next token, after any layout, and the cursor after it. -/
def next (c : Cursor) : Token × Cursor := c.skipLayout.read

theorem length_skip_le (n : Nat) (c : Cursor) : (c.skip n).ahead.length ≤ c.ahead.length := by
  simp [skip]

theorem length_read_lt (c : Cursor) (h : c.ahead ≠ []) :
    c.read.2.ahead.length < c.ahead.length := by
  unfold read
  split
  · contradiction
  · rename_i first rest heq
    simp only [skip, heq, List.length_drop, List.length_cons]
    omega

theorem length_next_lt (c : Cursor) (h : c.skipLayout.ahead ≠ []) :
    c.next.2.ahead.length < c.ahead.length :=
  Nat.lt_of_lt_of_le (length_read_lt _ h) (length_skip_le _ c)

/-- All tokens from here, up to and including the end of the text. -/
def tokens (c : Cursor) : List Token :=
  match _h : c.skipLayout.ahead with
  | [] => [eofAt c.skipLayout.pos]
  | _ :: _ => c.next.1 :: tokens c.next.2
termination_by c.ahead.length
decreasing_by exact length_next_lt c (by simp [_h])

end Cursor

/-- The tokens of a text, the end of the text included. -/
def scan (source : String) : List Token := (Cursor.mk source.toList .start).tokens

/-- Decoding a literal takes long where tokens are computed, and its characters can be given
instead. -/
theorem scan_of_toList {source : String} {cs : List Char} (h : source.toList = cs) :
    scan source = (Cursor.mk cs .start).tokens := by
  rw [scan, h]

end Scriptlet.Token
