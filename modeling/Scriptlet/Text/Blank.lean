/-!
# Blank characters

The characters that count as white space around a text: the Unicode white space, and the four
information separators U+001C to U+001F.

* `strip` removes them from both ends of a text.
-/

namespace Scriptlet.Text

/-- Whether the code point `n` is blank. -/
def isBlankPoint (n : Nat) : Bool :=
  (0x09 ≤ n && n ≤ 0x0D) || (0x1C ≤ n && n ≤ 0x20) || n == 0x85 || n == 0xA0 || n == 0x1680 ||
    (0x2000 ≤ n && n ≤ 0x200A) || n == 0x2028 || n == 0x2029 || n == 0x202F || n == 0x205F ||
    n == 0x3000

/-- Whether `c` is blank. -/
def isBlank (c : Char) : Bool := isBlankPoint c.toNat

/-- Drops from both ends of `cs` the characters that satisfy `p`. -/
def trim (p : Char → Bool) (cs : List Char) : List Char :=
  ((cs.dropWhile p).reverse.dropWhile p).reverse

/-- The text without the blanks at its two ends. -/
def strip (s : String) : String := String.ofList (trim isBlank s.toList)

end Scriptlet.Text
