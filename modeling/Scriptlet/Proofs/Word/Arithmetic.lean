import Mathlib.Data.Int.ModEq
import Scriptlet.Value.Operator

/-!
# The integers of the language are machine words

Integers are computed exactly and then wrapped, and a quotient is rounded toward zero. For operands
that are words this is the arithmetic of a machine with 64-bit words in two's complement, `Int64`.

* `wrap_eq_masked`: wrapping keeps the low 64 bits, and takes the upper half of them for negative.
* `eq_wrap_iff`: the wrapped integer is the only word that is congruent to it.
* `quotient?_eq_signed`: a quotient is that of the sizes, with a sign.
* `Leaves`: a quotient with a remainder that has the sign of the dividend; `Leaves.unique`: there is
  one.
* `Operates`: the operators do what a machine does; `arithmetic_twosComplement`: so it is for all
  words.
-/

namespace Scriptlet.Word

variable {l r m n q q' t t' : Int}

/-! ## Wrapping -/

/-- The integer is a word. -/
def IsWord (n : Int) : Prop := least ≤ n ∧ n ≤ greatest

instance : DecidablePred IsWord := fun n =>
  inferInstanceAs (Decidable (least ≤ n ∧ n ≤ greatest))

/-- **Wrapping masks and subtracts**: the low 64 bits count as they are up to the greatest word, and
2^64 less above it. -/
theorem wrap_eq_masked (n : Int) :
    wrap n = if greatest < n % modulus then n % modulus - modulus else n % modulus := by
  have hmodulus : ((modulus : Int) + 1) / 2 = greatest + 1 := by decide
  unfold wrap
  rw [Int.bmod_eq_emod, hmodulus]
  by_cases hupper : greatest < n % modulus
  · rw [if_pos hupper, if_pos (by omega)]
  · rw [if_neg hupper, if_neg (by omega)]
    exact Int.sub_zero _

theorem isWord_wrap (n : Int) : IsWord (wrap n) := by
  have hpos : (0 : Int) ≤ n % modulus := Int.emod_nonneg n (by decide)
  have hlt : n % (modulus : Int) < modulus := Int.emod_lt_of_pos n (by decide)
  have hbounds : least = greatest + 1 - modulus ∧ (modulus : Int) = 2 * (greatest + 1) := by decide
  rw [wrap_eq_masked]
  unfold IsWord
  split <;> omega

theorem wrap_modEq (n : Int) : wrap n ≡ n [ZMOD modulus] := by
  rw [wrap_eq_masked]
  split
  · exact (Int.sub_emod_right _ _).trans (Int.emod_emod_of_dvd n dvd_rfl)
  · exact Int.emod_emod_of_dvd n dvd_rfl

/-- Two words that are congruent lie less than 2^64 apart, so they are equal. -/
theorem eq_of_modEq (hm : IsWord m) (hn : IsWord n) (h : m ≡ n [ZMOD modulus]) : m = n := by
  have hapart : (n - m).natAbs < (modulus : Int).natAbs := by
    obtain ⟨hm, hm'⟩ := hm
    obtain ⟨hn, hn'⟩ := hn
    have hbounds : greatest - least < modulus := by decide
    omega
  have hzero := Int.eq_zero_of_dvd_of_natAbs_lt_natAbs h.dvd hapart
  omega

/-- **The wrapped integer is the word that is congruent to it**, and the only one. -/
theorem eq_wrap_iff : m = wrap n ↔ IsWord m ∧ m ≡ n [ZMOD modulus] := by
  constructor
  · rintro rfl
    exact ⟨isWord_wrap n, wrap_modEq n⟩
  · rintro ⟨hword, hmod⟩
    exact eq_of_modEq hword (isWord_wrap n) (hmod.trans (wrap_modEq n).symm)

/-! ## Quotients -/

/-- Dividing `l` by `r` gives `q` and leaves `t`, which is less than the divisor and has the sign of
the dividend, unless it is zero. -/
structure Leaves (l r q t : Int) : Prop where
  eq : l = q * r + t
  lt : t.natAbs < r.natAbs
  sign : t = 0 ∨ t.sign = l.sign

theorem leaves_tdiv (l : Int) (h : r ≠ 0) : Leaves l r (l.tdiv r) (l.tmod r) where
  eq := (Int.tdiv_mul_add_tmod l r).symm
  lt := by
    rw [Int.natAbs_tmod]
    exact Nat.mod_lt _ (Int.natAbs_pos.2 h)
  sign := by
    have hsign := Int.sign_tmod l r
    split at hsign
    · exact .inl (Int.sign_eq_zero_iff_zero.1 hsign)
    · exact .inr hsign

/-- A remainder is on the same side of zero as the dividend. -/
theorem Leaves.side (h : Leaves l r q t) : (0 ≤ l → 0 ≤ t) ∧ (l ≤ 0 → t ≤ 0) := by
  rcases h.sign with rfl | hsign
  · exact ⟨fun _ => le_rfl, fun _ => le_rfl⟩
  rcases Int.lt_trichotomy l 0 with hl | rfl | hl
  · rw [Int.sign_eq_neg_one_of_neg hl, Int.sign_eq_neg_one_iff_neg] at hsign
    omega
  · rw [Int.sign_zero, Int.sign_eq_zero_iff_zero] at hsign
    omega
  · rw [Int.sign_eq_one_of_pos hl, Int.sign_eq_one_iff_pos] at hsign
    omega

/-- **There is one quotient.** Two remainders on one side of zero differ by less than the divisor,
and by a multiple of it. -/
theorem Leaves.unique (h : Leaves l r q t) (h' : Leaves l r q' t') : q = q' := by
  have hdiff : (q' - q) * r = t - t' := by
    have heq := h.eq
    have heq' := h'.eq
    rw [Int.sub_mul]
    omega
  have hlt : (t - t').natAbs < r.natAbs := by
    have hsmall := h.lt
    have hsmall' := h'.lt
    have hside := h.side
    have hside' := h'.side
    rcases Int.le_total 0 l with hl | hl
    · omega
    · omega
  have hzero := Int.eq_zero_of_dvd_of_natAbs_lt_natAbs ⟨q' - q, by rw [← hdiff, Int.mul_comm]⟩ hlt
  rw [hzero, Int.mul_eq_zero] at hdiff
  omega

theorem quotient?_of_ne (l : Int) (h : r ≠ 0) : quotient? l r = some (l.tdiv r) := if_neg h

/-- **A quotient is that of the sizes, with a sign**: it is negated where one operand is negative and
the other is not. -/
theorem quotient?_eq_signed (l : Int) (h : r ≠ 0) : quotient? l r =
    some (if decide (l < 0) ≠ decide (r < 0) then -((l.natAbs : Int) / r.natAbs)
      else (l.natAbs : Int) / r.natAbs) := by
  have hsize (n : Int) : (n.natAbs : Int) = if n < 0 then -n else n := by
    split <;> omega
  rw [quotient?_of_ne l h, Int.tdiv_cases, hsize, hsize]
  by_cases hl : l < 0 <;> by_cases hr : r < 0
  · simp [hl, hr, Int.not_le.2 hl, Int.not_le.2 hr]
  · simp [hl, hr, Int.not_le.2 hl, Int.not_lt.1 hr]
  · simp [hl, hr, Int.not_lt.1 hl, Int.not_le.2 hr]
  · simp [hl, hr, Int.not_lt.1 hl, Int.not_lt.1 hr]

/-- **A quotient is rounded toward zero**: it is the one that leaves a remainder. -/
theorem quotient?_eq_some_iff (h : r ≠ 0) : quotient? l r = some q ↔ ∃ t, Leaves l r q t := by
  rw [quotient?_of_ne l h, Option.some.injEq]
  constructor
  · rintro rfl
    exact ⟨l.tmod r, leaves_tdiv l h⟩
  · rintro ⟨t, ht⟩
    exact (leaves_tdiv l h).unique ht

/-! ## Machine words -/

theorem toInt_ofInt (n : Int) : (Int64.ofInt n).toInt = wrap n := Int64.toInt_ofInt

theorem toInt_ofInt_of_isWord (h : IsWord n) : (Int64.ofInt n).toInt = n := by
  rw [toInt_ofInt]
  exact (eq_wrap_iff.2 ⟨h, rfl⟩).symm

theorem ofInt_eq_iff (hl : IsWord l) (hr : IsWord r) : Int64.ofInt l = Int64.ofInt r ↔ l = r := by
  rw [← Int64.toInt_inj, toInt_ofInt_of_isWord hl, toInt_ofInt_of_isWord hr]

/-- The operators make of `l` and `r` what a machine makes of the words `a` and `b`. -/
structure Operates (l r : Int) (a b : Int64) : Prop where
  left : a.toInt = l
  right : b.toInt = r
  add : Value.binary "+" (.integer l) (.integer r) = .integer (a + b).toInt
  sub : Value.binary "-" (.integer l) (.integer r) = .integer (a - b).toInt
  mul : Value.binary "*" (.integer l) (.integer r) = .integer (a * b).toInt
  div : r ≠ 0 → Value.binary "/" (.integer l) (.integer r) = .integer (a / b).toInt
  divZero : r = 0 →
    Value.binary "/" (.integer l) (.integer r) = .fault (.divisionByZero l "/" r)
  lt : Value.binary "<" (.integer l) (.integer r) = .boolean (a < b)
  gt : Value.binary ">" (.integer l) (.integer r) = .boolean (a > b)
  le : Value.binary "<=" (.integer l) (.integer r) = .boolean (a ≤ b)
  ge : Value.binary ">=" (.integer l) (.integer r) = .boolean (a ≥ b)
  eq : Value.binary "==" (.integer l) (.integer r) = .boolean (a == b)
  ne : Value.binary "!=" (.integer l) (.integer r) = .boolean (a != b)
  neg : Value.negative (.integer l) = .integer (-a).toInt

/-- **The operators on words are those of a machine.** Sums, differences and products wrap to the
same word whether they are computed exactly or on words; quotients and comparisons do since the
operands are words. -/
theorem operates_ofInt (hl : IsWord l) (hr : IsWord r) :
    Operates l r (Int64.ofInt l) (Int64.ofInt r) where
  left := toInt_ofInt_of_isWord hl
  right := toInt_ofInt_of_isWord hr
  add := by
    rw [← Int64.ofInt_add, toInt_ofInt]
    rfl
  sub := by
    rw [← Int64.ofInt_sub, toInt_ofInt]
    rfl
  mul := by
    rw [← Int64.ofInt_mul, toInt_ofInt]
    rfl
  div h := by
    have hquotient : Value.binary "/" (.integer l) (.integer r) = .integer (wrap (l.tdiv r)) := by
      simp only [Value.binary, Value.binary?, BinaryOp.ofText?, Option.map_some,
        BinaryOp.onIntegers, quotient?_of_ne l h]
    rw [hquotient, ← Int64.ofInt_tdiv hl.1 hl.2 hr.1 hr.2, toInt_ofInt]
  divZero h := by
    subst h
    rfl
  lt := congrArg Value.boolean (decide_eq_decide.2 (Int64.ofInt_lt_iff_lt hl.1 hl.2 hr.1 hr.2).symm)
  gt := congrArg Value.boolean (decide_eq_decide.2 (Int64.ofInt_lt_iff_lt hr.1 hr.2 hl.1 hl.2).symm)
  le := congrArg Value.boolean (decide_eq_decide.2 (Int64.ofInt_le_iff_le hl.1 hl.2 hr.1 hr.2).symm)
  ge := congrArg Value.boolean (decide_eq_decide.2 (Int64.ofInt_le_iff_le hr.1 hr.2 hl.1 hl.2).symm)
  eq := by
    rw [show (Int64.ofInt l == Int64.ofInt r) = (l == r) from
      decide_eq_decide.2 (ofInt_eq_iff hl hr)]
    rfl
  ne := by
    rw [show (Int64.ofInt l != Int64.ofInt r) = (l != r) from
      congrArg (!·) (decide_eq_decide.2 (ofInt_eq_iff hl hr))]
    rfl
  neg := by
    rw [← Int64.ofInt_neg, toInt_ofInt]
    rfl

/-- **The arithmetic of the language is that of 64-bit words in two's complement.** -/
theorem arithmetic_twosComplement :
    (∀ l r : Int, IsWord l → IsWord r → Operates l r (Int64.ofInt l) (Int64.ofInt r)) ∧
      Value.binary "/" (.integer least) (.integer (-1)) = .integer least ∧
      (∀ n : Int, IsWord (wrap n) ∧ wrap n ≡ n [ZMOD 2 ^ 64] ∧
        ∀ m, IsWord m → m ≡ n [ZMOD 2 ^ 64] → m = wrap n) ∧
      ∀ l r : Int, r ≠ 0 → ∃ q, quotient? l r = some q ∧ ∀ q', (∃ t, Leaves l r q' t) ↔ q' = q := by
  refine ⟨fun l r => operates_ofInt, rfl, fun n => ?_, fun l r h => ?_⟩
  · obtain ⟨hword, hmod⟩ := eq_wrap_iff.1 (rfl : wrap n = wrap n)
    exact ⟨hword, hmod, fun m hm hmn => eq_wrap_iff.2 ⟨hm, hmn⟩⟩
  · refine ⟨l.tdiv r, quotient?_of_ne l h, fun q' => ?_⟩
    rw [← quotient?_eq_some_iff h, quotient?_of_ne l h, Option.some.injEq, eq_comm]

/-- The words at either end, a sum and a product that leave them, a remainder of a negative
dividend. -/
theorem arithmetic_at_bounds :
    Value.binary "+" (.integer greatest) (.integer 1) = .integer least ∧
      Value.binary "*" (.integer least) (.integer least) = .integer 0 ∧
      Value.binary "<" (.integer least) (.integer greatest) = .boolean true ∧
      Value.negative (.integer least) = .integer least ∧
      ∃ q, quotient? (-7) 2 = some q ∧ ∀ q', (∃ t, Leaves (-7) 2 q' t) ↔ q' = q := by
  have hwords := arithmetic_twosComplement.1
  have hsum := hwords greatest 1 (by decide) (by decide)
  have hproduct := hwords least least (by decide) (by decide)
  have hends := hwords least greatest (by decide) (by decide)
  refine ⟨hsum.add.trans ?_, hproduct.mul.trans ?_, hends.lt.trans ?_, hends.neg.trans ?_, ?_⟩
  · exact congrArg Value.integer (by decide)
  · exact congrArg Value.integer (by decide)
  · exact congrArg Value.boolean (by decide)
  · exact congrArg Value.integer (by decide)
  · exact arithmetic_twosComplement.2.2.2 (-7) 2 (by decide)

end Scriptlet.Word
