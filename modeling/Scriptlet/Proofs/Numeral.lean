import Mathlib.Data.Nat.Digits.Lemmas
import Scriptlet.Numeral
import Scriptlet.Token.Lexeme
import Scriptlet.Word.Basic

/-!
# What numerals denote

A text of ASCII digits denotes the number that the digits write, as long as there are not too many
of them. Every word has few enough. Whatever its digits are, a numeral denotes no number that takes
more of them than a numeral may have.

* `parse?_of_digits`: what a text of ASCII digits denotes.
* `parse?_toString`: a word that is not negative is what its decimal digits denote.
* `short_of_parse?`: numerals denote numbers that can be written as numerals.
-/

namespace Scriptlet.Numeral

open Token (isDigit)

variable {c : Char} {cs : List Char}

theorem isDigit_iff : isDigit c ↔ 48 ≤ c.toNat ∧ c.toNat ≤ 57 := by
  simp only [isDigit, Bool.and_eq_true, decide_eq_true_eq, Char.le_def, UInt32.le_iff_toNat_le]
  rfl

theorem digitValue?_of_isDigit (h : isDigit c) : Text.digitValue? c = some (c.toNat - 48) := by
  have hd := isDigit_iff.1 h
  have hz : (fun z => decide (z ≤ c.toNat) && decide (c.toNat < z + 10)) 0x30 = true := by
    simp only [Bool.and_eq_true, decide_eq_true_eq]
    omega
  exact congrArg (Option.map (c.toNat - ·)) (List.find?_cons_of_pos hz)

theorem isMargin_of_isDigit (h : isDigit c) : isMargin c = false := by
  have := isDigit_iff.1 h
  simp only [isMargin, Text.isBlank, Text.isBlankPoint, Bool.and_eq_false_iff, Bool.or_eq_false_iff,
    decide_eq_false_iff_not, beq_eq_false_iff_ne]
  omega

/-- The value of every digit, in a text of digits. -/
theorem digits?_of_digits (hne : cs ≠ []) (h : cs.all isDigit) :
    digits? cs = some (cs.map fun c => c.toNat - 48) := by
  fun_induction digits? cs with
  | case1 => exact absurd rfl hne
  | case2 c =>
    rw [digitValue?_of_isDigit (by simpa using h)]
    rfl
  | case3 c cs ih =>
    -- an underscore is no digit
    simp [isDigit] at h
  | case4 c cs hcs _ ih =>
    rw [List.all_cons, Bool.and_eq_true] at h
    rw [digitValue?_of_isDigit h.1, ih hcs h.2]
    rfl

theorem dropWhile_isMargin (h : cs.all isDigit) : cs.dropWhile isMargin = cs := by
  cases cs with
  | nil => rfl
  | cons c cs =>
    rw [List.all_cons, Bool.and_eq_true] at h
    simp [isMargin_of_isDigit h.1]

theorem trim_of_digits (h : cs.all isDigit) : Text.trim isMargin cs = cs := by
  rw [Text.trim, dropWhile_isMargin h, dropWhile_isMargin (by rwa [List.all_reverse]),
    List.reverse_reverse]

theorem signed?_of_digits (h : cs.all isDigit) : signed? cs = (unsigned? cs).map Int.ofNat := by
  unfold signed?
  split
  · simp [isDigit] at h
  · simp [isDigit] at h
  · rfl

/-- **A text of digits** denotes the number that they write, unless there are too many. -/
theorem parse?_of_digits (hne : cs ≠ []) (h : cs.all isDigit) (hl : cs.length ≤ maxDigits) :
    parse? (String.ofList cs) = some (Nat.ofDigitChars 10 cs 0 : Int) := by
  rw [parse?, String.toList_ofList, trim_of_digits h, signed?_of_digits h, unsigned?,
    digits?_of_digits hne h]
  simp only [Option.bind_eq_bind, Option.bind_some, List.length_map, if_pos hl, Option.map_some]
  rw [ofDigits, List.foldl_map]
  rfl

/-- What a text of digits is read as is the number that they write. -/
theorem eq_of_parse? {n : Int} {s : String} (hne : s.toList ≠ []) (h : s.toList.all isDigit)
    (hn : parse? s = some n) : n = Nat.ofDigitChars 10 s.toList 0 := by
  by_cases hl : s.toList.length ≤ maxDigits
  · have hvalue := parse?_of_digits hne h hl
    rw [String.ofList_toList, hn] at hvalue
    exact Option.some.inj hvalue
  · rw [parse?, trim_of_digits h, signed?_of_digits h, unsigned?, digits?_of_digits hne h] at hn
    simp [hl] at hn

theorem nonneg_of_parse? {n : Int} {s : String} (h : s.toList.all isDigit)
    (hn : parse? s = some n) : 0 ≤ n := by
  rw [parse?, trim_of_digits h, signed?_of_digits h] at hn
  obtain ⟨k, -, rfl⟩ := Option.map_eq_some_iff.1 hn
  exact Int.natCast_nonneg k

theorem toString_eq {n : Int} (h : 0 ≤ n) :
    toString n = String.ofList (Nat.toDigits 10 n.toNat) := by
  obtain ⟨k, rfl⟩ := Int.eq_ofNat_of_zero_le h
  exact Nat.repr_eq_ofList_toDigits

theorem all_isDigit_toDigits (k : Nat) : (Nat.toDigits 10 k).all isDigit := by
  rw [List.all_eq_true]
  intro c hc
  exact Nat.isDigit_of_mem_toDigits (by decide) (by decide) hc

/-- **A word that is not negative is what its decimal digits denote.** -/
theorem parse?_toString {n : Int} (h₀ : 0 ≤ n) (h₁ : n ≤ Word.greatest) :
    parse? (toString n) = some n := by
  have hk : n.toNat < 10 ^ 19 := by
    unfold Word.greatest at h₁
    omega
  have hl := (Nat.length_toDigits_le_iff (by decide) (by decide)).2 hk
  rw [toString_eq h₀, parse?_of_digits Nat.toDigits_ne_nil (all_isDigit_toDigits _)
    (Nat.le_trans hl (by decide)), Nat.ofDigitChars_toDigits (by decide) (by decide),
    Int.toNat_of_nonneg h₀]

/-! ## Digits of any script -/

/-- A number that has no more digits than a numeral may have. -/
def Short (n : Int) : Prop := n.natAbs < 10 ^ maxDigits

theorem Short.neg {n : Int} (h : Short n) : Short (-n) := by rwa [Short, Int.natAbs_neg]

theorem short_ofDigits {ds : List Nat} (hds : ∀ d ∈ ds, d < 10) (hl : ds.length ≤ maxDigits) :
    Short (ofDigits ds) := by
  -- the library's digits start at the least significant one
  have hvalue : ofDigits ds = Nat.ofDigits 10 ds.reverse := by
    rw [Nat.ofDigits_eq_foldr, List.foldr_reverse, ofDigits]
    simp only [Nat.cast_id, Nat.add_comm]
  have hlt : Nat.ofDigits 10 ds.reverse < 10 ^ ds.reverse.length :=
    Nat.ofDigits_lt_base_pow_length (by decide) fun d hd => hds d (List.mem_reverse.1 hd)
  rw [Short, Int.natAbs_natCast, hvalue]
  rw [List.length_reverse] at hlt
  exact Nat.lt_of_lt_of_le hlt (Nat.pow_le_pow_right (by decide) hl)

theorem lt_ten_of_digitValue? {d : Nat} (h : Text.digitValue? c = some d) : d < 10 := by
  obtain ⟨z, hz, rfl⟩ := Option.map_eq_some_iff.1 h
  have hrange := List.find?_some hz
  simp only [Bool.and_eq_true, decide_eq_true_eq] at hrange
  omega

theorem lt_ten_of_digits? {ds : List Nat} (h : digits? cs = some ds) : ∀ d ∈ ds, d < 10 := by
  fun_induction digits? cs generalizing ds with
  | case1 => cases h
  | case2 c =>
    obtain ⟨d, hd, rfl⟩ := Option.map_eq_some_iff.1 h
    exact List.forall_mem_singleton.2 (lt_ten_of_digitValue? hd)
  | case3 c cs ih | case4 c cs _ _ ih =>
    obtain ⟨d, hd, h⟩ := Option.bind_eq_some_iff.1 h
    obtain ⟨ds', hds', h⟩ := Option.bind_eq_some_iff.1 h
    cases h
    exact List.forall_mem_cons.2 ⟨lt_ten_of_digitValue? hd, ih hds'⟩

theorem short_of_unsigned? {n : Nat} (h : unsigned? cs = some n) : Short n := by
  obtain ⟨ds, hds, h⟩ := Option.bind_eq_some_iff.1 h
  obtain ⟨hl, h⟩ := Option.ite_none_right_eq_some.1 h
  cases h
  exact short_ofDigits (lt_ten_of_digits? hds) hl

/-- **Numerals denote short numbers.** -/
theorem short_of_parse? {n : Int} {s : String} (h : parse? s = some n) : Short n := by
  unfold parse? signed? at h
  split at h <;> obtain ⟨k, hk, rfl⟩ := Option.map_eq_some_iff.1 h
  · obtain ⟨j, hj, hk⟩ := Option.bind_eq_some_iff.1 hk
    cases hk
    exact (short_of_unsigned? hj).neg
  · exact short_of_unsigned? hk
  · exact short_of_unsigned? hk

end Scriptlet.Numeral
