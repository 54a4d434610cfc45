import Scriptlet.Text.Blank
import Scriptlet.Text.Digit

/-!
# Numerals

Reading a whole number from text. A numeral is a sign or none, then decimal digits of any script,
where a single underscore may stand between two digits. Blanks around it are ignored, the
information separators U+001C to U+001F excepted. A numeral of more than `maxDigits` digits is
refused, leading zeros counted and underscores not.
-/

namespace Scriptlet.Numeral

/-- The most digits a numeral may have. -/
def maxDigits : Nat := 4300

/-- Whether `c` may stand around a numeral. -/
def isMargin (c : Char) : Bool :=
  Text.isBlank c && !(0x1C ≤ c.toNat && c.toNat ≤ 0x1F)

/-- The digit values of `cs`, which is digits with single underscores between them. -/
def digits? : List Char → Option (List Nat)
  | [] => none
  | [c] => (Text.digitValue? c).map ([·])
  | c :: '_' :: cs => do
    let d ← Text.digitValue? c
    return d :: (← digits? cs)
  | c :: cs => do
    let d ← Text.digitValue? c
    return d :: (← digits? cs)

/-- The number that the digit values `ds` write, most significant first. -/
def ofDigits (ds : List Nat) : Nat := ds.foldl (fun n d => 10 * n + d) 0

/-- The number that unsigned digits write. -/
def unsigned? (cs : List Char) : Option Nat := do
  let ds ← digits? cs
  if ds.length ≤ maxDigits then some (ofDigits ds) else none

/-- The number that a sign or none and digits write. -/
def signed? : List Char → Option Int
  | '-' :: cs => (unsigned? cs).map fun n => -(n : Int)
  | '+' :: cs => (unsigned? cs).map Int.ofNat
  | cs => (unsigned? cs).map Int.ofNat

/-- The number that the text `s` denotes, if it is a numeral. -/
def parse? (s : String) : Option Int := signed? (Text.trim isMargin s.toList)

end Scriptlet.Numeral
