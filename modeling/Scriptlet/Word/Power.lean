import Scriptlet.Word.Basic
import Scriptlet.Word.Binary64

/-!
# Powers

The power of the language is that of doubles: both operands are rounded to doubles, and the result
is rounded toward zero and wrapped. It is exact only as far as doubles are.
-/

namespace Scriptlet.Word

/-- Why a power has no value. -/
inductive PowerError
  | divisionByZero
  | overflow
deriving DecidableEq, Repr

/-- The power of `l` with exponent `r`. -/
def power (l r : Int) : Except PowerError Int :=
  match toDouble? l, toDouble? r with
  | some x, some y =>
    if l = 0 ∧ r < 0 then .error .divisionByZero
    else
      match truncate? (Float.pow x y) with
      | some n => .ok (wrap n)
      | none => .error .overflow
  | _, _ => .error .overflow

end Scriptlet.Word
