import Mathlib.Tactic.SplitIfs
import Scriptlet.Proofs.Run
import Scriptlet.Text.Utf8

/-!
# What is read as text

Bytes are read as the characters that they are the encoding of, and refused if there are none.

* `point_iff`: what is read as one character is its encoding.
* `decodeFrom_eq_ok_iff`: the same for all characters.
-/

namespace Scriptlet.Text

/-- The bytes of characters. -/
def encode (cs : List Char) : List UInt8 := cs.flatMap String.utf8EncodeChar

/-! ## The first byte -/

section Lead

variable {b : Nat}

theorem lead?_ascii (h : b < 0x80) : lead? b = some ⟨0, 0x80, 0xBF, b⟩ := by
  rw [lead?, if_pos h]

theorem lead?_two (h : 0xC2 ≤ b) (h' : b < 0xE0) : lead? b = some ⟨1, 0x80, 0xBF, b - 0xC0⟩ := by
  rw [lead?, if_neg (by omega), if_neg (by omega), if_pos h']

/-- Code points below U+0800 need no third byte, and halves of surrogate pairs have none. -/
theorem lead?_three (h : 0xE0 ≤ b) (h' : b < 0xF0) : lead? b =
    some ⟨2, if b = 0xE0 then 0xA0 else 0x80, if b = 0xED then 0x9F else 0xBF, b - 0xE0⟩ := by
  by_cases hfirst : b = 0xE0
  · rw [hfirst]
    rfl
  by_cases hsurrogate : b = 0xED
  · rw [hsurrogate]
    rfl
  · simp [lead?, hfirst, hsurrogate, h', show ¬ b < 0x80 by omega, show ¬ b < 0xC2 by omega,
      show ¬ b < 0xE0 by omega]

/-- Code points below U+10000 need no fourth byte, and there are none from U+110000 on. -/
theorem lead?_four (h : 0xF0 ≤ b) (h' : b ≤ 0xF4) : lead? b =
    some ⟨3, if b = 0xF0 then 0x90 else 0x80, if b = 0xF4 then 0x8F else 0xBF, b - 0xF0⟩ := by
  by_cases hfirst : b = 0xF0
  · rw [hfirst]
    rfl
  by_cases hlast : b = 0xF4
  · rw [hlast]
    rfl
  · have hne : b ≠ 0xE0 ∧ b ≠ 0xED := by omega
    simp [lead?, hfirst, hlast, hne, show ¬ b < 0x80 by omega, show ¬ b < 0xC2 by omega,
      show ¬ b < 0xE0 by omega, show ¬ b < 0xF0 by omega, show b < 0xF4 by omega]

theorem lead?_none (h : 0x80 ≤ b) (h' : b < 0xC2 ∨ 0xF4 < b) : lead? b = none := by
  rw [lead?, if_neg (by omega)]
  simp only [beq_iff_eq]
  split_ifs <;> first | omega | rfl

end Lead

/-! ## The bytes after it -/

section Point

variable {more low high bits read p : Nat} {bs : List UInt8}

theorem pointFrom_zero (bs : List UInt8) : pointFrom ⟨0, low, high, bits⟩ read bs = .ok bits := by
  cases bs <;> rfl

theorem pointFrom_cons {b : UInt8} (hlow : low ≤ b.toNat) (hhigh : b.toNat ≤ high) :
    pointFrom ⟨more + 1, low, high, bits⟩ read (b :: bs) =
      pointFrom ⟨more, 0x80, 0xBF, bits * 64 + (b.toNat - 0x80)⟩ (read + 1) bs := by
  rw [pointFrom, if_neg (Nat.add_one_ne_zero more), if_pos (by simp [hlow, hhigh])]
  rfl

theorem exists_of_pointFrom (h : pointFrom ⟨more + 1, low, high, bits⟩ read bs = .ok p) :
    ∃ b rest, bs = b :: rest ∧ low ≤ b.toNat ∧ b.toNat ≤ high ∧
      pointFrom ⟨more, 0x80, 0xBF, bits * 64 + (b.toNat - 0x80)⟩ (read + 1) rest = .ok p := by
  cases bs with
  | nil => cases h
  | cons b rest =>
    rw [pointFrom, if_neg (Nat.add_one_ne_zero more)] at h
    split at h
    · rename_i hbounds
      rw [Bool.and_eq_true, decide_eq_true_eq, decide_eq_true_eq] at hbounds
      exact ⟨b, rest, rfl, hbounds.1, hbounds.2, h⟩
    · cases h

end Point

theorem toNat_ofNat_of_isValidChar {p : Nat} (h : p.isValidChar) : (Char.ofNat p).toNat = p := by
  rw [Char.ofNat, dif_pos h]
  rfl

theorem exists_byte {n : Nat} (h : n < 0x100) : ∃ b : UInt8, n = b.toNat :=
  ⟨.ofNat n, (UInt8.toNat_ofNat_of_lt' h).symm⟩

theorem ofNat_eq_of_toNat_eq {b : UInt8} {n : Nat} (h : n = b.toNat) : UInt8.ofNat n = b := by
  rw [h, UInt8.ofNat_toNat]

/-! ## One character -/

section Character

variable {b c d e : UInt8} {p : Nat}

theorem utf8EncodeChar_ascii (h : p < 0x80) (hb : p = b.toNat) :
    String.utf8EncodeChar (Char.ofNat p) = [b] := by
  have hp : (Char.ofNat p).val.toNat = p :=
    toNat_ofNat_of_isValidChar (by unfold Nat.isValidChar; omega)
  simp only [String.utf8EncodeChar, hp]
  rw [if_pos (by omega), ofNat_eq_of_toNat_eq hb]

theorem utf8EncodeChar_two (h : 0x80 ≤ p) (h' : p < 0x800)
    (hb : p / 64 + 192 = b.toNat) (hc : p % 64 + 128 = c.toNat) :
    String.utf8EncodeChar (Char.ofNat p) = [b, c] := by
  have hp : (Char.ofNat p).val.toNat = p :=
    toNat_ofNat_of_isValidChar (by unfold Nat.isValidChar; omega)
  simp only [String.utf8EncodeChar, hp]
  rw [if_neg (by omega), if_pos (by omega), ofNat_eq_of_toNat_eq (b := b) (by omega),
    ofNat_eq_of_toNat_eq hc]

theorem utf8EncodeChar_three (hvalid : p.isValidChar) (h : 0x800 ≤ p) (h' : p < 0x10000)
    (hb : p / 4096 + 224 = b.toNat) (hc : p / 64 % 64 + 128 = c.toNat)
    (hd : p % 64 + 128 = d.toNat) :
    String.utf8EncodeChar (Char.ofNat p) = [b, c, d] := by
  have hp : (Char.ofNat p).val.toNat = p := toNat_ofNat_of_isValidChar hvalid
  simp only [String.utf8EncodeChar, hp]
  rw [if_neg (by omega), if_neg (by omega), if_pos (by omega),
    ofNat_eq_of_toNat_eq (b := b) (by omega), ofNat_eq_of_toNat_eq hc, ofNat_eq_of_toNat_eq hd]

theorem utf8EncodeChar_four (h : 0x10000 ≤ p) (h' : p < 0x110000)
    (hb : p / 262144 + 240 = b.toNat) (hc : p / 4096 % 64 + 128 = c.toNat)
    (hd : p / 64 % 64 + 128 = d.toNat) (he : p % 64 + 128 = e.toNat) :
    String.utf8EncodeChar (Char.ofNat p) = [b, c, d, e] := by
  have hp : (Char.ofNat p).val.toNat = p :=
    toNat_ofNat_of_isValidChar (by unfold Nat.isValidChar; omega)
  simp only [String.utf8EncodeChar, hp]
  rw [if_neg (by omega), if_neg (by omega), if_neg (by omega),
    ofNat_eq_of_toNat_eq (b := b) (by omega), ofNat_eq_of_toNat_eq hc, ofNat_eq_of_toNat_eq hd,
    ofNat_eq_of_toNat_eq he]

end Character

/-- What is read as one character is its encoding. -/
theorem encode_of_point {b : UInt8} {bs : List UInt8} {lead : Lead} {p : Nat}
    (hlead : lead? b.toNat = some lead) (hpoint : pointFrom lead 1 bs = .ok p) :
    String.utf8EncodeChar (Char.ofNat p) ++ bs.drop lead.more = b :: bs := by
  rcases Nat.lt_or_ge b.toNat 0x80 with h | h
  · rw [lead?_ascii h] at hlead
    cases hlead
    rw [pointFrom_zero] at hpoint
    have hp := Except.ok.inj hpoint
    rw [utf8EncodeChar_ascii (b := b) (by omega) hp.symm]
    rfl
  rcases Nat.lt_or_ge b.toNat 0xC2 with h₁ | h₁
  · rw [lead?_none h (.inl h₁)] at hlead
    cases hlead
  rcases Nat.lt_or_ge b.toNat 0xE0 with h₂ | h₂
  · rw [lead?_two h₁ h₂] at hlead
    cases hlead
    obtain ⟨c, rest, rfl, hlow, hhigh, hpoint⟩ := exists_of_pointFrom hpoint
    rw [pointFrom_zero] at hpoint
    have hp := Except.ok.inj hpoint
    rw [utf8EncodeChar_two (b := b) (c := c) (by omega) (by omega) (by omega) (by omega)]
    rfl
  rcases Nat.lt_or_ge b.toNat 0xF0 with h₃ | h₃
  · rw [lead?_three h₂ h₃] at hlead
    cases hlead
    obtain ⟨c, _, rfl, hlow, hhigh, hpoint⟩ := exists_of_pointFrom hpoint
    obtain ⟨d, rest, rfl, hlow', hhigh', hpoint⟩ := exists_of_pointFrom hpoint
    rw [pointFrom_zero] at hpoint
    have hp := Except.ok.inj hpoint
    -- the bounds of the second byte keep out points with a shorter encoding, and surrogates
    have hvalid : p.isValidChar ∧ 0x800 ≤ p ∧ p < 0x10000 := by
      unfold Nat.isValidChar
      split at hlow <;> split at hhigh <;> omega
    obtain ⟨hvalid, h₄, h₅⟩ := hvalid
    have hc : 0x80 ≤ c.toNat ∧ c.toNat < 0xC0 := by
      split at hlow <;> split at hhigh <;> omega
    rw [utf8EncodeChar_three (b := b) (c := c) (d := d) hvalid h₄ h₅ (by omega) (by omega)
      (by omega)]
    rfl
  rcases Nat.lt_or_ge 0xF4 b.toNat with h₄ | h₄
  · rw [lead?_none h (.inr h₄)] at hlead
    cases hlead
  · rw [lead?_four h₃ h₄] at hlead
    cases hlead
    obtain ⟨c, _, rfl, hlow, hhigh, hpoint⟩ := exists_of_pointFrom hpoint
    obtain ⟨d, _, rfl, hlow', hhigh', hpoint⟩ := exists_of_pointFrom hpoint
    obtain ⟨e, rest, rfl, hlow'', hhigh'', hpoint⟩ := exists_of_pointFrom hpoint
    rw [pointFrom_zero] at hpoint
    have hp := Except.ok.inj hpoint
    -- here they keep out points with a shorter encoding, and those past the last one
    have hrange : 0x10000 ≤ p ∧ p < 0x110000 ∧ 0x80 ≤ c.toNat ∧ c.toNat < 0xC0 := by
      split at hlow <;> split at hhigh <;> omega
    obtain ⟨h₅, h₆, hc, hc'⟩ := hrange
    rw [utf8EncodeChar_four (b := b) (c := c) (d := d) (e := e) h₅ h₆ (by omega) (by omega)
      (by omega) (by omega)]
    rfl

/-- The encoding of a character is read as that character, whatever comes behind it. -/
theorem point_of_encode (c : Char) : ∃ b bs lead, String.utf8EncodeChar c = b :: bs ∧
    lead? b.toNat = some lead ∧ bs.length = lead.more ∧
    ∀ rest, pointFrom lead 1 (bs ++ rest) = .ok c.toNat := by
  obtain ⟨p, hvalid, rfl⟩ : ∃ p : Nat, p.isValidChar ∧ Char.ofNat p = c :=
    ⟨c.toNat, c.valid, Char.ofNat_toNat c⟩
  rw [toNat_ofNat_of_isValidChar hvalid]
  -- as many bytes as the code point needs, each with the bits that it is read back to
  have hp := hvalid
  unfold Nat.isValidChar at hp
  rcases Nat.lt_or_ge p 0x80 with h | h
  · obtain ⟨b, hb⟩ := exists_byte (n := p) (by omega)
    refine ⟨b, [], _, utf8EncodeChar_ascii h hb, lead?_ascii (by omega), rfl, fun rest => ?_⟩
    rw [pointFrom_zero, hb]
  rcases Nat.lt_or_ge p 0x800 with h₁ | h₁
  · obtain ⟨b, hb⟩ := exists_byte (n := p / 64 + 192) (by omega)
    obtain ⟨c, hc⟩ := exists_byte (n := p % 64 + 128) (by omega)
    refine ⟨b, [c], _, utf8EncodeChar_two h h₁ hb hc, lead?_two (by omega) (by omega), rfl,
      fun rest => ?_⟩
    rw [List.cons_append, pointFrom_cons (by omega) (by omega), pointFrom_zero]
    exact congrArg _ (by omega)
  rcases Nat.lt_or_ge p 0x10000 with h₂ | h₂
  · obtain ⟨b, hb⟩ := exists_byte (n := p / 4096 + 224) (by omega)
    obtain ⟨c, hc⟩ := exists_byte (n := p / 64 % 64 + 128) (by omega)
    obtain ⟨d, hd⟩ := exists_byte (n := p % 64 + 128) (by omega)
    refine ⟨b, [c, d], _, utf8EncodeChar_three hvalid h₁ h₂ hb hc hd,
      lead?_three (by omega) (by omega), rfl, fun rest => ?_⟩
    rw [List.cons_append, pointFrom_cons (by split <;> omega) (by split <;> omega),
      List.cons_append, pointFrom_cons (by omega) (by omega), pointFrom_zero]
    exact congrArg _ (by omega)
  · obtain ⟨b, hb⟩ := exists_byte (n := p / 262144 + 240) (by omega)
    obtain ⟨c, hc⟩ := exists_byte (n := p / 4096 % 64 + 128) (by omega)
    obtain ⟨d, hd⟩ := exists_byte (n := p / 64 % 64 + 128) (by omega)
    obtain ⟨e, he⟩ := exists_byte (n := p % 64 + 128) (by omega)
    refine ⟨b, [c, d, e], _, utf8EncodeChar_four h₂ (by omega) hb hc hd he,
      lead?_four (by omega) (by omega), rfl, fun rest => ?_⟩
    rw [List.cons_append, pointFrom_cons (by split <;> omega) (by split <;> omega),
      List.cons_append, pointFrom_cons (by omega) (by omega),
      List.cons_append, pointFrom_cons (by omega) (by omega), pointFrom_zero]
    exact congrArg _ (by omega)

/-! ## All characters -/

theorem decodeFrom_encode (offset : Nat) (cs : List Char) :
    decodeFrom offset (encode cs) = .ok cs := by
  induction cs generalizing offset with
  | nil => rw [encode, List.flatMap_nil, decodeFrom]
  | cons c cs ih =>
    obtain ⟨b, bs, lead, hencode, hlead, hlength, hpoint⟩ := point_of_encode c
    rw [encode, List.flatMap_cons, hencode, List.cons_append, decodeFrom, hlead]
    simp only [hpoint]
    rw [← hlength, List.drop_left, ← encode, ih, Char.ofNat_toNat]
    rfl

/-- **What is read as text is the encoding of what is read.** -/
theorem decodeFrom_eq_ok_iff {offset : Nat} {bytes : List UInt8} {cs : List Char} :
    decodeFrom offset bytes = .ok cs ↔ bytes = encode cs := by
  refine ⟨fun h => ?_, fun h => h ▸ decodeFrom_encode offset cs⟩
  fun_induction decodeFrom offset bytes generalizing cs with
  | case1 =>
    cases h
    rfl
  | case2 => cases h
  | case3 => cases h
  | case4 offset b bs lead hlead point hpoint ih =>
    obtain ⟨rest, hrest, h⟩ := exists_of_bind_eq_ok h
    cases h
    rw [encode, List.flatMap_cons, ← encode, ← ih hrest]
    exact (encode_of_point hlead hpoint).symm

theorem textOfBytes_eq_ok_iff {bytes : List UInt8} {text : String} :
    textOfBytes bytes = .ok text ↔
      ∃ cs, bytes = encode cs ∧ String.ofList (unifyNewlines cs) = text := by
  rw [textOfBytes]
  constructor
  · intro h
    obtain ⟨cs, hcs, h⟩ := exists_of_bind_eq_ok h
    cases h
    exact ⟨cs, decodeFrom_eq_ok_iff.1 hcs, rfl⟩
  · rintro ⟨cs, rfl, rfl⟩
    rw [decodeFrom_encode]
    rfl

/-! ## Pieces of lines -/

section Pieces

variable {piece cs : List Char}

theorem eq_nil_of_prefix_newline (hpiece : '\n' ∉ piece) (h : piece <+: '\n' :: cs) :
    piece = [] := by
  rcases List.prefix_cons_iff.1 h with rfl | ⟨t, rfl, -⟩
  · rfl
  · exact absurd List.mem_cons_self hpiece

theorem infix_of_infix_newline (hpiece : '\n' ∉ piece) (h : piece <:+: '\n' :: cs) :
    piece <:+: cs := by
  rcases List.infix_cons_iff.1 h with h | h
  · exact eq_nil_of_prefix_newline hpiece h ▸ List.nil_infix
  · exact h

theorem prefix_of_unifyNewlines (hpiece : '\n' ∉ piece) (h : piece <+: unifyNewlines cs) :
    piece <+: cs := by
  fun_induction unifyNewlines cs generalizing piece with
  | case1 => exact h
  | case2 | case3 => exact eq_nil_of_prefix_newline hpiece h ▸ List.nil_prefix
  | case4 c cs _ _ ih =>
    rcases List.prefix_cons_iff.1 h with rfl | ⟨t, rfl, ht⟩
    · exact List.nil_prefix
    · have hrest := ih (fun hmem => hpiece (List.mem_cons_of_mem _ hmem)) ht
      exact List.cons_prefix_cons.2 ⟨rfl, hrest⟩

/-- What stands in a line of the text stands in the file. -/
theorem infix_of_unifyNewlines (hpiece : '\n' ∉ piece) (h : piece <:+: unifyNewlines cs) :
    piece <:+: cs := by
  fun_induction unifyNewlines cs with
  | case1 => exact h
  | case2 cs ih =>
    have hrest := ih (infix_of_infix_newline hpiece h)
    exact List.infix_cons (List.infix_cons hrest)
  | case3 cs _ ih => exact List.infix_cons (ih (infix_of_infix_newline hpiece h))
  | case4 c cs _ _ ih =>
    rcases List.infix_cons_iff.1 h with h | h
    · rcases List.prefix_cons_iff.1 h with rfl | ⟨t, rfl, ht⟩
      · exact List.nil_infix
      · have hrest := prefix_of_unifyNewlines (fun hmem => hpiece (List.mem_cons_of_mem _ hmem)) ht
        exact (List.cons_prefix_cons.2 ⟨rfl, hrest⟩).isInfix
    · exact List.infix_cons (ih h)

/-- Characters that end no lines are as many in the text as in the file. -/
theorem countP_unifyNewlines {p : Char → Bool} (hreturn : p '\r' = false) (hfeed : p '\n' = false)
    (cs : List Char) : (unifyNewlines cs).countP p = cs.countP p := by
  fun_induction unifyNewlines cs with
  | case1 => rfl
  | case2 cs ih => simp [hreturn, hfeed, ih]
  | case3 cs _ ih => simp [hreturn, hfeed, ih]
  | case4 c cs _ _ ih => simp [List.countP_cons, ih]

theorem unifyNewlines_of_notMem (h : '\r' ∉ cs) : unifyNewlines cs = cs := by
  fun_induction unifyNewlines cs with
  | case1 => rfl
  | case2 | case3 => exact absurd List.mem_cons_self h
  | case4 c cs _ _ ih => rw [ih fun hmem => h (List.mem_cons_of_mem _ hmem)]

end Pieces

end Scriptlet.Text
