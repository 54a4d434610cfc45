import Scriptlet.Text.Quoted

/-!
# UTF-8

Reading text from bytes. A fault names the bytes that cannot be read: a byte that starts no
character, or the longest start of a character that the next byte does not continue or after which
nothing comes.

`textOfBytes` reads a text file, where a carriage return, alone or before a line feed, ends a line
as a line feed does.
-/

namespace Scriptlet.Text

/-- Why bytes cannot be read as text. -/
inductive Utf8Reason
  | badStart | badContinuation | truncated
deriving DecidableEq, Repr

/-- The wording of a reason. -/
def Utf8Reason.message : Utf8Reason → String
  | badStart => "invalid start byte"
  | badContinuation => "invalid continuation byte"
  | truncated => "unexpected end of data"

/-- The bytes that cannot be read: the offset and the value of the first, and how many. -/
structure Utf8Fault where
  offset : Nat
  first : UInt8
  length : Nat
  reason : Utf8Reason
deriving DecidableEq, Repr

/-- The wording of a fault. -/
def Utf8Fault.message (f : Utf8Fault) : String :=
  let what :=
    if f.length = 1 then
      "byte 0x" ++ String.ofList (hexDigits 2 f.first.toNat) ++ " in position " ++
        toString f.offset
    else
      "bytes in position " ++ toString f.offset ++ "-" ++ toString (f.offset + f.length - 1)
  "'utf-8' codec can't decode " ++ what ++ ": " ++ f.reason.message

/-- What the first byte of a character tells: how many bytes follow, the bounds of the next one,
and the bits that the byte adds to the code point. -/
structure Lead where
  more : Nat
  low : Nat
  high : Nat
  bits : Nat

/-- What a byte tells as the first one of a character, if it can be that. -/
def lead? (b : Nat) : Option Lead :=
  if b < 0x80 then some ⟨0, 0x80, 0xBF, b⟩
  else if b < 0xC2 then none
  else if b < 0xE0 then some ⟨1, 0x80, 0xBF, b - 0xC0⟩
  else if b == 0xE0 then some ⟨2, 0xA0, 0xBF, 0⟩
  else if b == 0xED then some ⟨2, 0x80, 0x9F, b - 0xE0⟩
  else if b < 0xF0 then some ⟨2, 0x80, 0xBF, b - 0xE0⟩
  else if b == 0xF0 then some ⟨3, 0x90, 0xBF, 0⟩
  else if b < 0xF4 then some ⟨3, 0x80, 0xBF, b - 0xF0⟩
  else if b == 0xF4 then some ⟨3, 0x80, 0x8F, b - 0xF0⟩
  else none

/-- Adds the bytes that follow the first one to a code point. A failure gives the number of bytes
that were read and the reason. -/
def pointFrom (lead : Lead) (read : Nat) : List UInt8 → Except (Nat × Utf8Reason) Nat
  | [] => if lead.more = 0 then .ok lead.bits else .error (read, .truncated)
  | b :: bs =>
    if lead.more = 0 then .ok lead.bits
    else if lead.low ≤ b.toNat && b.toNat ≤ lead.high then
      pointFrom ⟨lead.more - 1, 0x80, 0xBF, lead.bits * 64 + (b.toNat - 0x80)⟩ (read + 1) bs
    else .error (read, .badContinuation)

/-- The characters of the bytes, the first of which is at `offset`. -/
def decodeFrom (offset : Nat) : List UInt8 → Except Utf8Fault (List Char)
  | [] => .ok []
  | b :: bs =>
    match lead? b.toNat with
    | none => .error ⟨offset, b, 1, .badStart⟩
    | some lead =>
      match pointFrom lead 1 bs with
      | .error (read, reason) => .error ⟨offset, b, read, reason⟩
      | .ok point => do
        let rest ← decodeFrom (offset + 1 + lead.more) (bs.drop lead.more)
        return Char.ofNat point :: rest
termination_by bytes => bytes.length
decreasing_by
  simp only [List.length_drop, List.length_cons]
  omega

/-- Every end of a line as a line feed. -/
def unifyNewlines : List Char → List Char
  | [] => []
  | '\r' :: '\n' :: cs => '\n' :: unifyNewlines cs
  | '\r' :: cs => '\n' :: unifyNewlines cs
  | c :: cs => c :: unifyNewlines cs

/-- The text of a text file. -/
def textOfBytes (bytes : List UInt8) : Except Utf8Fault String := do
  return String.ofList (unifyNewlines (← decodeFrom 0 bytes))

end Scriptlet.Text
