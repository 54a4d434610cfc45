/-!
# Signed 64-bit arithmetic

Integers of the language are computed exactly and then wrapped into 64 bits, two's complement.
Division rounds toward zero.
-/

namespace Scriptlet.Word

/-- The number of words, 2^64. -/
def modulus : Nat := 0x10000000000000000

/-- The least word, -2^63. -/
def least : Int := -0x8000000000000000

/-- The greatest word, 2^63 - 1. -/
def greatest : Int := 0x7FFFFFFFFFFFFFFF

/-- The word that is congruent to `n` modulo 2^64. -/
def wrap (n : Int) : Int := n.bmod modulus

/-- The quotient rounded toward zero, if the divisor is not zero. -/
def quotient? (l r : Int) : Option Int := if r = 0 then none else some (l.tdiv r)

end Scriptlet.Word
