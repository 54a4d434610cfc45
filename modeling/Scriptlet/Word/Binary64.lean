/-!
# Integers and doubles

Conversions between integers and IEEE 754 doubles, on the bits of a double: to the nearest double,
ties to even, and from a double toward zero.
-/

namespace Scriptlet.Word

/-- The number of values of a double's fraction, 2^52. -/
def fractionCount : Nat := 1 <<< 52

/-- The bit of a double's sign. -/
def signBit : Nat := 1 <<< 63

/-- The quotient of `n` by 2^k, rounded to the nearest integer, ties to even. -/
def roundShift (n k : Nat) : Nat :=
  let q := n >>> k
  let twice := 2 * (n - q <<< k)
  if 1 <<< k < twice || (twice == 1 <<< k && q % 2 == 1) then q + 1 else q

/-- The bits of the double nearest to `n`, or none if that is not finite. A significand that
rounds up to 2^53 carries into the exponent, as it should. -/
def doubleBits? (n : Nat) : Option Nat :=
  if n = 0 then some 0
  else
    let exponent := n.log2
    let significand :=
      if exponent ≤ 52 then n <<< (52 - exponent) else roundShift n (exponent - 52)
    let bits := ((exponent + 1023) <<< 52) + (significand - fractionCount)
    if bits < 0x7FF <<< 52 then some bits else none

/-- The double nearest to `n`, or none if that is not finite. -/
def toDouble? (n : Int) : Option Float :=
  (doubleBits? n.natAbs).map fun bits =>
    Float.ofBits (UInt64.ofNat (if n < 0 then signBit + bits else bits))

/-- The integer that the bits of a double denote, rounded toward zero, or none if it is not
finite. -/
def truncateBits? (bits : Nat) : Option Int :=
  let exponent := (bits >>> 52) % 2048
  let fraction := bits % fractionCount
  if exponent = 2047 then none
  else
    let magnitude :=
      if exponent < 1023 then 0
      else if exponent < 1075 then (fractionCount + fraction) >>> (1075 - exponent)
      else (fractionCount + fraction) <<< (exponent - 1075)
    some (if signBit ≤ bits then -(magnitude : Int) else magnitude)

/-- A double rounded toward zero, or none if it is not finite. -/
def truncate? (x : Float) : Option Int := truncateBits? x.toBits.toNat

end Scriptlet.Word
