import Mathlib.Data.List.Forall2
import Scriptlet.Proofs.Token.Lines
import Scriptlet.Proofs.Token.Written

/-!
# Layout and letter case

White space and whole comments can be put wherever a token begins or ends, and keywords can be
written in other letter case: the tokens of the text stay what they are. Only behind a string that
is never closed nothing can be put, for it would go on over it.

* `isWhole`: white space and comments with the line feeds that end them.
* `Edit`, `reflow`: what is put before a token, and how the token is written.
* `lexeme_of_startsAlike`: a token ends where it did if what follows starts as it did, or with layout.
* `lexemes_reflow`: the tokens stay what they are.
-/

namespace Scriptlet.Token

open List (Forall₂)

/-! ## Edits of a text -/

/-- Whether a text is white space and comments with the line feeds that end them; `inComment` says
that it starts inside a comment. -/
def isWhole (inComment : Bool) : List Char → Bool
  | [] => !inComment
  | c :: cs =>
    if inComment then isWhole (c != '\n') cs
    else if isSpace c then isWhole false cs
    else c == '#' && isWhole true cs

/-- Whether a kind is that of a keyword. -/
def Kind.isKeyword : Kind → Bool
  | function | letKey | trueKey | falseKey | ifKey | elseKey | returnKey => true
  | _ => false

/-- What is changed at one token: `behind` is put where the token before it ends, `ahead` where it
begins itself, and if it is a keyword then it is written as `spelling`, provided that this is the
same word. -/
structure Edit where
  behind : List Char := []
  ahead : List Char := []
  spelling : List Char := []
  behind_isWhole : isWhole false behind = true := by decide
  ahead_isWhole : isWhole false ahead = true := by decide

/-- The word as it is written after an edit: only the letter case of a keyword changes. -/
def Edit.write (e : Edit) (kind : Kind) (word : List Char) : List Char :=
  if kind.isKeyword ∧ e.spelling.map Char.toLower = word.map Char.toLower then e.spelling
  else word

/-- Whether the token at the front of a text is a string that is never closed. -/
def unclosed (c : Char) (cs : List Char) : Bool := c == '"' && (lexeme c cs).kind == .illegal

/-- The text after an edit at each of its tokens, from the first on; the end of the text counts as a
token. Nothing is put behind a string that is never closed. -/
def reflow : List Edit → List Char → List Char
  | [], cs => cs
  | e :: es, cs =>
    let gap := cs.take (layoutLength false cs)
    let shown :=
      match cs.drop (layoutLength false cs) with
      | [] => []
      | c :: rest =>
        let lx := lexeme c rest
        e.write lx.kind (c :: rest.take lx.more) ++
          if unclosed c rest then [] else reflow es (rest.drop lx.more)
    e.behind ++ (gap ++ (e.ahead ++ shown))

/-- A source text after edits. -/
def reflowed (es : List Edit) (source : String) : String :=
  String.ofList (reflow es source.toList)

variable {c d : Char} {cs raw rest rest' gap more : List Char} {inComment : Bool}

/-! ## Layout -/

theorem isWhole_cons (inComment : Bool) (c : Char) (cs : List Char) :
    isWhole inComment (c :: cs) =
      if inComment then isWhole (c != '\n') cs
      else if isSpace c then isWhole false cs
      else c == '#' && isWhole true cs := rfl

/-- Whole layout is layout, and what follows it is read as if it stood alone. -/
theorem layoutLength_whole_append (h : isWhole inComment gap) (more : List Char) :
    layoutLength inComment (gap ++ more) = gap.length + layoutLength false more := by
  induction gap generalizing inComment with
  | nil =>
    cases inComment with
    | true => cases h
    | false => simp
  | cons c gap ih =>
    rw [isWhole_cons] at h
    rw [List.cons_append, layoutLength_cons, List.length_cons]
    split at h
    · rename_i hin
      rw [if_pos hin, ih h]
      omega
    split at h
    · rename_i hin hspace
      rw [if_neg hin, if_pos hspace, ih h]
      omega
    · rename_i hin hspace
      rw [Bool.and_eq_true] at h
      rw [if_neg hin, if_neg hspace, if_pos h.1, ih h.2]
      omega

theorem isWhole_append (h : isWhole inComment gap) (hmore : isWhole false more) :
    isWhole inComment (gap ++ more) := by
  induction gap generalizing inComment with
  | nil =>
    cases inComment with
    | true => cases h
    | false => exact hmore
  | cons c gap ih =>
    rw [isWhole_cons] at h
    rw [List.cons_append, isWhole_cons]
    split at h
    · rename_i hin
      rw [if_pos hin]
      exact ih h
    split at h
    · rename_i hin hspace
      rw [if_neg hin, if_pos hspace]
      exact ih h
    · rename_i hin hspace
      rw [Bool.and_eq_true] at h
      rw [if_neg hin, if_neg hspace, h.1]
      exact ih h.2

/-- The layout before a token is whole. -/
theorem isWhole_of_layoutLength (h : layoutLength inComment (gap ++ c :: cs) = gap.length) :
    isWhole inComment gap := by
  induction gap generalizing inComment with
  | nil =>
    rw [List.nil_append, layoutLength_cons, List.length_nil] at h
    cases inComment with
    | true => simp at h
    | false => rfl
  | cons d gap ih =>
    rw [List.cons_append, layoutLength_cons, List.length_cons] at h
    rw [isWhole_cons]
    split at h
    · rename_i hin
      rw [if_pos hin]
      exact ih (by omega)
    split at h
    · rename_i hin hspace
      rw [if_neg hin, if_pos hspace]
      exact ih (by omega)
    split at h
    · rename_i hin hspace hmark
      rw [if_neg hin, if_neg hspace, hmark]
      exact ih (by omega)
    · omega

/-- Whole layout is layout also inside a comment. -/
theorem layoutLength_whole (h : isWhole inComment gap) :
    layoutLength inComment gap = gap.length ∧ layoutLength true gap = gap.length := by
  refine ⟨by simpa [layoutLength] using layoutLength_whole_append h [], ?_⟩
  induction gap generalizing inComment with
  | nil => rfl
  | cons c gap ih =>
    -- what follows a line feed is whole, in a comment or not
    have hnext : ∃ inComment', isWhole inComment' gap ∧ (c = '\n' → inComment' = false) := by
      rw [isWhole_cons] at h
      split at h
      · exact ⟨_, h, by rintro rfl; rfl⟩
      split at h
      · exact ⟨false, h, fun _ => rfl⟩
      · rename_i hspace
        rw [Bool.and_eq_true] at h
        refine ⟨true, h.2, ?_⟩
        rintro rfl
        exact absurd rfl hspace
    obtain ⟨inComment', hwhole, hline⟩ := hnext
    rw [layoutLength_cons, if_pos rfl, List.length_cons]
    by_cases hc : c = '\n'
    · have hrest := layoutLength_whole_append (hline hc ▸ hwhole) []
      simp only [List.append_nil, layoutLength] at hrest
      have hstate : (c != '\n') = false := by simp [hc]
      rw [hstate]
      omega
    · have hstate : (c != '\n') = true := by simp [hc]
      rw [hstate, ih hwhole]
      omega

/-- Layout up to the end of a text goes on over whole layout. -/
theorem layoutLength_append_whole (h : layoutLength inComment gap = gap.length)
    (hmore : isWhole false more) :
    layoutLength inComment (gap ++ more) = (gap ++ more).length := by
  induction gap generalizing inComment with
  | nil =>
    cases inComment with
    | true => exact (layoutLength_whole hmore).2
    | false => exact (layoutLength_whole hmore).1
  | cons c gap ih =>
    rw [layoutLength_cons, List.length_cons] at h
    rw [List.cons_append, layoutLength_cons, List.length_cons]
    split at h
    · rename_i hin
      rw [if_pos hin, ih (by omega)]
      omega
    split at h
    · rename_i hin hspace
      rw [if_neg hin, if_pos hspace, ih (by omega)]
      omega
    split at h
    · rename_i hin hspace hmark
      rw [if_neg hin, if_neg hspace, if_pos hmark, ih (by omega)]
      omega
    · omega

/-! ## One token -/

/-- One text starts with layout, or like the other: with the same character, or both with letters. -/
def StartsAlike (rest rest' : List Char) : Prop :=
  ∀ d' ∈ rest'.head?, isSpace d' ∨ d' = '#' ∨ ∃ d ∈ rest.head?, d' = d ∨ (isLetter d ∧ isLetter d')

/-- What does not go on with the one text does not go on with the other. -/
theorem StartsAlike.fails {p : Char → Bool} (h : StartsAlike rest rest')
    (hlayout : ∀ d, isSpace d ∨ d = '#' → p d = false)
    (hletter : ∀ d d', isLetter d → isLetter d' → p d = false → p d' = false)
    (hrest : ∀ d ∈ rest.head?, p d = false) : ∀ d' ∈ rest'.head?, p d' = false := by
  intro d' hd'
  rcases h d' hd' with hspace | hmark | ⟨d, hd, rfl | ⟨hl, hl'⟩⟩
  · exact hlayout d' (.inl hspace)
  · exact hlayout d' (.inr hmark)
  · exact hrest d' hd
  · exact hletter d d' hl hl' (hrest d hd)

theorem isWordChar_of_layout (d : Char) (h : isSpace d ∨ d = '#') : isWordChar d = false := by
  rw [← Bool.not_eq_true, isWordChar, Bool.or_eq_true]
  rintro (hletter | hdigit)
  · obtain ⟨hspace, hmark⟩ := isLetter_not_layout hletter
    rcases h with h | h
    · rw [hspace] at h
      cases h
    · exact hmark h
  · obtain ⟨hspace, hmark, -⟩ := isDigit_not_layout hdigit
    rcases h with h | h
    · rw [hspace] at h
      cases h
    · exact hmark h

theorem isDigit_of_isLetter (h : isLetter d) : isDigit d = false := by
  rw [← Bool.not_eq_true]
  intro hdigit
  obtain ⟨-, -, hletter⟩ := isDigit_not_layout hdigit
  rw [hletter] at h
  cases h

/-- What is taken from the front of a text ends where the condition fails. -/
theorem takeWhile_append_eq {p : Char → Bool}
    (h : ((raw ++ rest).takeWhile p).length = raw.length) :
    raw.all p ∧ ∀ d ∈ rest.head?, p d = false := by
  induction raw with
  | nil =>
    have hnone : rest.takeWhile p = [] := List.length_eq_zero_iff.1 h
    refine ⟨rfl, ?_⟩
    rintro d hd
    cases rest with
    | nil => cases hd
    | cons d' rest =>
      cases hd
      by_cases hp : p d = true
      · simp [hp] at hnone
      · simpa using hp
  | cons c raw ih =>
    rw [List.cons_append, List.takeWhile_cons] at h
    split at h
    · rename_i hc
      obtain ⟨hraw, hrest⟩ := ih (by simpa using h)
      rw [List.all_cons, hc, hraw]
      exact ⟨rfl, hrest⟩
    · cases h

theorem quotation_length_pos (h : (quotation cs).closed = true) : 0 < (quotation cs).length := by
  fun_cases quotation cs with
  | case1 => cases h
  | case2 => exact Nat.one_pos
  | case3 => exact Nat.lt_of_lt_of_le Nat.two_pos (Nat.le_add_right _ _)
  | case4 => exact Nat.lt_of_lt_of_le Nat.two_pos (Nat.le_add_right _ _)
  | case5 => exact Nat.lt_of_lt_of_le Nat.one_pos (Nat.le_add_right _ _)

/-- A string that ends before the rest of the text ends without it too. -/
theorem closed_of_length (h : (quotation (raw ++ rest)).closed = true)
    (hlength : (quotation (raw ++ rest)).length = raw.length) : (quotation raw).closed = true := by
  fun_induction quotation raw with
  | case1 =>
    have hpos := quotation_length_pos h
    rw [hlength] at hpos
    cases hpos
  | case2 => rfl
  | case3 e cs c he ih =>
    rw [List.cons_append, List.cons_append, quotation, he] at h hlength
    simp only [Quotation.prepend, List.length_cons] at h hlength ⊢
    exact ih h (by omega)
  | case4 e cs he ih =>
    rw [List.cons_append, List.cons_append, quotation, he] at h hlength
    simp only [Quotation.prepend, List.length_cons] at h hlength ⊢
    exact ih h (by omega)
  | case5 c cs hquote hescape ih =>
    by_cases hback : c = '\\' ∧ cs = []
    · -- a backslash at the end would take the next character with it
      obtain ⟨rfl, rfl⟩ := hback
      cases rest with
      | nil => cases h
      | cons e rest =>
        rw [List.cons_append, List.nil_append, quotation] at hlength
        split at hlength <;> simp only [Quotation.prepend, List.length_singleton] at hlength <;> omega
    · rw [List.cons_append, quotation] at h hlength
      · simp only [Quotation.prepend, List.length_cons] at h hlength ⊢
        exact ih h (by omega)
      all_goals first
        | exact hquote
        | intro e cs' hc hcs
          cases cs with
          | nil => exact hback ⟨hc, rfl⟩
          | cons d cs => exact hescape d cs hc rfl

theorem eq_of_operator₂ (h : (operator₂ c d).isSome) : d = '=' := by
  unfold operator₂ at h
  split at h
  all_goals first | rfl | cases h

theorem operator?_of_head (h : ∀ d ∈ rest.head?, (operator₂ c d).isSome = false) :
    operator? c rest = (operator₁ c).map (⟨·, [c], 0⟩) := by
  cases rest with
  | nil => rfl
  | cons d rest =>
    have hnone : operator₂ c d = none := by simpa using h d rfl
    simp [operator?, hnone]

theorem operator?_of_startsAlike
    (hmore : ((operator? c (raw ++ rest)).getD ⟨.illegal, [c], 0⟩).more = raw.length)
    (h : StartsAlike rest rest') : operator? c (raw ++ rest') = operator? c (raw ++ rest) := by
  cases raw with
  | cons d raw => rfl
  | nil =>
    rw [List.nil_append] at hmore ⊢
    have hrest : ∀ d ∈ rest.head?, (operator₂ c d).isSome = false := by
      intro d hd
      cases rest with
      | nil => cases hd
      | cons d' rest =>
        cases hd
        -- an operator of two characters would take the next one
        cases hop : operator₂ c d with
        | none => rfl
        | some kind => simp [operator?, hop] at hmore
    have hrest' := h.fails (p := fun d => (operator₂ c d).isSome) ?_ ?_ hrest
    · rw [List.nil_append, operator?_of_head hrest, operator?_of_head hrest']
    · intro d hd
      rw [← Bool.not_eq_true]
      intro hsome
      rw [eq_of_operator₂ hsome] at hd
      revert hd
      decide
    · intro d d' _ hd' _
      rw [← Bool.not_eq_true]
      intro hsome
      rw [eq_of_operator₂ hsome] at hd'
      cases hd'

/-- **A token ends where it did** if what follows starts with layout or as it did, unless the token
is a string that is never closed. -/
theorem lexeme_of_startsAlike (hmore : (lexeme c (raw ++ rest)).more = raw.length)
    (hclosed : unclosed c (raw ++ rest) = false) (h : StartsAlike rest rest') :
    lexeme c (raw ++ rest') = lexeme c (raw ++ rest) := by
  by_cases hl : isLetter c = true
  · simp only [lexeme, if_pos hl, List.length_cons, Nat.add_sub_cancel] at hmore ⊢
    obtain ⟨hraw, hrest⟩ := takeWhile_append_eq hmore
    have hrest' := h.fails isWordChar_of_layout
      (fun d _ hd _ hnot => by simp [isWordChar, hd] at hnot) hrest
    rw [takeWhile_append_of_head hraw hrest, takeWhile_append_of_head hraw hrest']
  by_cases hd : isDigit c = true
  · simp only [lexeme, if_neg hl, if_pos hd, List.length_cons, Nat.add_sub_cancel] at hmore ⊢
    obtain ⟨hraw, hrest⟩ := takeWhile_append_eq hmore
    have hrest' := h.fails (fun d hd => (Bool.or_eq_false_iff.1 (isWordChar_of_layout d hd)).2)
      (fun _ d' _ hd' _ => isDigit_of_isLetter hd') hrest
    rw [takeWhile_append_of_head hraw hrest, takeWhile_append_of_head hraw hrest']
  by_cases hq : c = '"'
  · subst hq
    have hlexeme (cs : List Char) : lexeme '"' cs = stringLexeme cs := rfl
    simp only [unclosed, hlexeme, stringLexeme] at hmore hclosed ⊢
    by_cases hc : (quotation (raw ++ rest)).closed = true
    · rw [if_pos hc] at hmore ⊢
      obtain hraw := closed_of_length hc hmore
      rw [(quotation_append raw rest).1 hraw, (quotation_append raw rest').1 hraw, if_pos hraw]
    · simp [hc] at hclosed
  · have hlexeme (cs : List Char) : lexeme c cs = (operator? c cs).getD ⟨.illegal, [c], 0⟩ := by
      simp [lexeme, hl, hd, hq]
    rw [hlexeme] at hmore
    rw [hlexeme, hlexeme, operator?_of_startsAlike hmore h]

/-! ## Keywords -/

/-- Two tokens that differ in the letter case of a keyword at most. -/
def Respelled (x x' : Kind × String) : Prop :=
  x'.1 = x.1 ∧ (x.1.isKeyword = false → x'.2 = x.2)

theorem isLetter_iff : isLetter c ↔
    97 ≤ c.toNat ∧ c.toNat ≤ 122 ∨ 65 ≤ c.toNat ∧ c.toNat ≤ 90 ∨ c.toNat = 95 := by
  have hunderscore : c = '_' ↔ c.toNat = 95 := Char.toNat_inj.symm
  simp only [isLetter, Bool.or_eq_true, Bool.and_eq_true, decide_eq_true_eq, beq_iff_eq,
    hunderscore, Char.le_def, UInt32.le_iff_toNat_le, or_assoc]
  rfl

/-- To make a character small moves capital letters, and nothing else. -/
theorem toNat_toLower (c : Char) :
    c.toLower.toNat = if 65 ≤ c.toNat ∧ c.toNat ≤ 90 then c.toNat + 32 else c.toNat := by
  unfold Char.toLower
  split
  case isTrue h =>
    have hcap : 65 ≤ c.toNat ∧ c.toNat ≤ 90 :=
      ⟨UInt32.le_iff_toNat_le.1 h.1, UInt32.le_iff_toNat_le.1 h.2⟩
    have hadd : (c.val + ('a'.val - 'A'.val)).toNat = (c.toNat + 32) % 2 ^ 32 :=
      UInt32.toNat_add c.val _
    rw [if_pos hcap]
    exact hadd.trans (Nat.mod_eq_of_lt (by omega))
  case isFalse h =>
    have hcap : ¬ (65 ≤ c.toNat ∧ c.toNat ≤ 90) := fun h' =>
      h ⟨UInt32.le_iff_toNat_le.2 h'.1, UInt32.le_iff_toNat_le.2 h'.2⟩
    rw [if_neg hcap]

theorem isLetter_toLower (c : Char) : isLetter c.toLower = isLetter c := by
  rw [Bool.eq_iff_iff, isLetter_iff, isLetter_iff, toNat_toLower]
  split <;> omega

theorem isDigit_toLower (c : Char) : isDigit c.toLower = isDigit c := by
  rw [Bool.eq_iff_iff, Numeral.isDigit_iff, Numeral.isDigit_iff, toNat_toLower]
  split <;> omega

theorem isLetter_of_recased (h : d.toLower = c.toLower) (hc : isLetter c) : isLetter d := by
  rwa [← isLetter_toLower, h, isLetter_toLower]

theorem all_isWordChar_of_recased {raw' : List Char}
    (h : raw'.map Char.toLower = raw.map Char.toLower) (hraw : raw.all isWordChar) :
    raw'.all isWordChar := by
  have hlower (cs : List Char) : (cs.map Char.toLower).all isWordChar = cs.all isWordChar := by
    rw [List.all_map]
    congr 1
    funext d
    simp [isWordChar, isLetter_toLower, isDigit_toLower]
  rwa [← hlower, h, hlower]

theorem wordKind_of_recased {word word' : List Char}
    (h : word'.map Char.toLower = word.map Char.toLower) :
    wordKind (String.ofList word') = wordKind (String.ofList word) := by
  have hlower (cs : List Char) :
      Text.lower (String.ofList cs) = String.ofList (cs.map Char.toLower) := by
    rw [← String.toList_inj]
    simp [Text.lower]
  unfold wordKind
  rw [hlower, hlower, h]

theorem isKeyword_of_isMark {kind : Kind} (h : kind.isMark) : kind.isKeyword = false := by
  cases kind <;> first | rfl | cases h

/-- A keyword is a word. -/
theorem isLetter_of_isKeyword (h : (lexeme c cs).kind.isKeyword) : isLetter c := by
  rcases lexeme_cases c cs with ⟨hc, -⟩ | ⟨-, hx⟩ | ⟨-, hx⟩ | hop | hx
  · exact hc
  · rw [hx] at h
    cases h
  · rw [hx, stringLexeme] at h
    split at h <;> cases h
  · rw [isKeyword_of_isMark (isMark_of_operator? hop)] at h
    cases h
  · rw [hx] at h
    cases h

/-- **What an edit writes is read as the same token**, up to where it ends. -/
theorem lexeme_write (e : Edit) (hstart : isSpace c = false ∧ c ≠ '#')
    (hmore : (lexeme c (raw ++ rest)).more = raw.length) :
    ∃ c' raw', e.write (lexeme c (raw ++ rest)).kind (c :: raw) = c' :: raw' ∧
      (isSpace c' = false ∧ c' ≠ '#') ∧ (c' = c ∨ (isLetter c ∧ isLetter c')) ∧
      (lexeme c' (raw' ++ rest)).more = raw'.length ∧
      Respelled ((lexeme c (raw ++ rest)).kind, String.ofList (lexeme c (raw ++ rest)).text)
        ((lexeme c' (raw' ++ rest)).kind, String.ofList (lexeme c' (raw' ++ rest)).text) := by
  unfold Edit.write
  split
  · rename_i hkeyword
    obtain ⟨hkeyword, hsame⟩ := hkeyword
    have hletter := isLetter_of_isKeyword hkeyword
    cases hspelling : e.spelling with
    | nil =>
      rw [hspelling] at hsame
      cases hsame
    | cons c' raw' =>
      rw [hspelling] at hsame
      obtain ⟨hc', hraw'⟩ := List.cons.inj hsame
      have hletter' := isLetter_of_recased hc' hletter
      simp only [lexeme, if_pos hletter, List.length_cons, Nat.add_sub_cancel] at hmore hkeyword
      obtain ⟨hraw, hrest⟩ := takeWhile_append_eq hmore
      have hword := takeWhile_append_of_head hraw hrest
      have hword' := takeWhile_append_of_head (all_isWordChar_of_recased hraw' hraw) hrest
      rw [hword] at hkeyword
      refine ⟨c', raw', rfl, isLetter_not_layout hletter', .inr ⟨hletter, hletter'⟩, ?_, ?_, ?_⟩
      · simp [lexeme, hletter', hword']
      · simp only [lexeme, if_pos hletter, if_pos hletter', hword, hword']
        exact wordKind_of_recased hsame
      · intro hnot
        simp only [lexeme, if_pos hletter, hword] at hnot
        rw [hkeyword] at hnot
        cases hnot
  · exact ⟨c, raw, rfl, hstart, .inl rfl, hmore, rfl, fun _ => rfl⟩

/-! ## Whole texts -/

theorem startsAlike_whole_append (h : isWhole false gap) (hrest : StartsAlike rest rest') :
    StartsAlike rest (gap ++ rest') := by
  cases gap with
  | nil => exact hrest
  | cons d gap =>
    rintro _ ⟨⟩
    rw [isWhole_cons] at h
    by_cases hspace : isSpace d = true
    · exact .inl hspace
    · rw [if_neg Bool.false_ne_true, if_neg hspace, Bool.and_eq_true, beq_iff_eq] at h
      exact .inr (.inl h.1)

theorem startsAlike_append (gap : List Char) (h : StartsAlike rest rest') :
    StartsAlike (gap ++ rest) (gap ++ rest') := by
  cases gap with
  | nil => exact h
  | cons d gap =>
    rintro _ ⟨⟩
    exact .inr (.inr ⟨d, rfl, .inl rfl⟩)

/-- A string that is never closed leaves nothing behind it. -/
theorem drop_of_unclosed (h : unclosed c cs) : cs.drop (lexeme c cs).more = [] := by
  rw [unclosed, Bool.and_eq_true, beq_iff_eq, beq_iff_eq] at h
  obtain ⟨rfl, hkind⟩ := h
  have hlexeme : lexeme '"' cs = stringLexeme cs := rfl
  rw [hlexeme, stringLexeme] at hkind ⊢
  obtain ⟨-, hopen, -⟩ := quotation_append cs []
  cases hc : (quotation cs).closed with
  | true => simp [hc] at hkind
  | false => simp [hopen hc]

/-- What a text starts with: layout up to its end, or layout and the first character of a token. -/
theorem layout_cases (cs : List Char) :
    layoutLength false cs = cs.length ∨
      ∃ c rest, cs.drop (layoutLength false cs) = c :: rest ∧
        isWhole false (cs.take (layoutLength false cs)) ∧ isSpace c = false ∧ c ≠ '#' := by
  have hle := layoutLength_le false cs
  have hsplit := List.take_append_drop (layoutLength false cs) cs
  cases hdrop : cs.drop (layoutLength false cs) with
  | nil =>
    have hge := List.drop_eq_nil_iff.1 hdrop
    exact .inl (by omega)
  | cons c rest =>
    rw [hdrop] at hsplit
    have hgap : layoutLength false (cs.take (layoutLength false cs) ++ c :: rest) =
        (cs.take (layoutLength false cs)).length := by
      rw [hsplit, List.length_take_of_le hle]
    have hwhole := isWhole_of_layoutLength hgap
    -- behind the layout no more of it is found
    rw [layoutLength_whole_append hwhole, layoutLength_cons] at hgap
    refine .inr ⟨c, rest, rfl, hwhole, ?_, ?_⟩
    · rw [← Bool.not_eq_true]
      intro hspace
      simp [hspace] at hgap
    · rintro rfl
      simp [isSpace] at hgap

/-- **One edit.** Either only layout is ahead, or a token is written and the edits go on behind
it. -/
theorem reflow_cases (e : Edit) (es : List Edit) (cs : List Char) :
    (layoutLength false cs = cs.length ∧ reflow (e :: es) cs = e.behind ++ (cs ++ e.ahead)) ∨
      ∃ gap c raw rest tail, cs = gap ++ c :: (raw ++ rest) ∧
        reflow (e :: es) cs = e.behind ++ (gap ++ (e.ahead ++
          (e.write (lexeme c (raw ++ rest)).kind (c :: raw) ++ tail))) ∧
        isWhole false gap ∧ (isSpace c = false ∧ c ≠ '#') ∧
        (lexeme c (raw ++ rest)).more = raw.length ∧
        (unclosed c (raw ++ rest) = false ∧ tail = reflow es rest ∨ rest = [] ∧ tail = []) := by
  rcases layout_cases cs with hall | ⟨c, after, hdrop, hwhole, hstart⟩
  · refine .inl ⟨hall, ?_⟩
    simp [reflow, hall]
  · right
    have hsplit := List.take_append_drop (layoutLength false cs) cs
    have hafter := List.take_append_drop (lexeme c after).more after
    rw [hdrop] at hsplit
    refine ⟨cs.take (layoutLength false cs), c, after.take (lexeme c after).more,
      after.drop (lexeme c after).more,
      if unclosed c after then [] else reflow es (after.drop (lexeme c after).more),
      ?_, ?_, hwhole, hstart, ?_, ?_⟩
    · rw [hafter, hsplit]
    · rw [reflow, hdrop, hafter]
    · rw [hafter, List.length_take_of_le (lexeme_more_le c after)]
    · rw [hafter]
      by_cases hopen : unclosed c after = true
      · exact .inr ⟨drop_of_unclosed hopen, if_pos hopen⟩
      · exact .inl ⟨by simpa using hopen, if_neg hopen⟩

/-- A text starts after edits as before, or with layout. -/
theorem startsAlike_reflow (es : List Edit) (cs : List Char) : StartsAlike cs (reflow es cs) := by
  cases es with
  | nil => exact fun d hd => .inr (.inr ⟨d, hd, .inl rfl⟩)
  | cons e es =>
    rcases reflow_cases e es cs with
      ⟨-, hnew⟩ | ⟨gap, c, raw, rest, tail, hcs, hnew, -, hstart, hmore, -⟩
    · rw [hnew]
      have hend : StartsAlike [] ([] : List Char) := fun d hd => by cases hd
      have hcs := startsAlike_append cs (startsAlike_whole_append e.ahead_isWhole hend)
      rw [List.append_nil, List.append_nil] at hcs
      exact startsAlike_whole_append e.behind_isWhole hcs
    · obtain ⟨c', raw', hwrite, -, hc', -⟩ := lexeme_write e hstart hmore
      rw [hnew, hwrite, hcs]
      have hword : StartsAlike (c :: (raw ++ rest)) (c' :: raw' ++ tail) := by
        rintro _ ⟨⟩
        exact .inr (.inr ⟨c, rfl, hc'⟩)
      exact startsAlike_whole_append e.behind_isWhole
        (startsAlike_append gap (startsAlike_whole_append e.ahead_isWhole hword))

/-- The first token of a text behind whole layout. -/
theorem lexemes_whole_append (hgap : isWhole false gap) (hstart : isSpace c = false ∧ c ≠ '#')
    (hmore : (lexeme c (raw ++ rest)).more = raw.length) :
    lexemes (gap ++ c :: (raw ++ rest)) =
      ((lexeme c (raw ++ rest)).kind, String.ofList (lexeme c (raw ++ rest)).text) ::
        lexemes rest := by
  have hnone : layoutLength false (c :: (raw ++ rest)) = 0 := by
    simp [layoutLength, hstart]
  have hdrop : (gap ++ c :: (raw ++ rest)).drop
      (layoutLength false (gap ++ c :: (raw ++ rest))) = c :: (raw ++ rest) := by
    rw [layoutLength_whole_append hgap, hnone, Nat.add_zero, List.drop_left]
  rw [lexemes_eq_cons hdrop, hmore, List.drop_left]

/-- **Edits leave the tokens of a text what they are**, but for the letter case of keywords. -/
theorem lexemes_reflow (es : List Edit) (cs : List Char) :
    Forall₂ Respelled (lexemes cs) (lexemes (reflow es cs)) := by
  have hrefl (xs : List (Kind × String)) : Forall₂ Respelled xs xs :=
    List.forall₂_same.2 fun x _ => ⟨rfl, fun _ => rfl⟩
  induction es generalizing cs with
  | nil => exact hrefl _
  | cons e es ih =>
    rcases reflow_cases e es cs with
      ⟨hall, hnew⟩ | ⟨gap, c, raw, rest, tail, hcs, hnew, hgap, hstart, hmore, htail⟩
    · -- only layout, before and after
      have hnew' : layoutLength false (reflow (e :: es) cs) = (reflow (e :: es) cs).length := by
        rw [hnew, layoutLength_whole_append e.behind_isWhole,
          layoutLength_append_whole hall e.ahead_isWhole, ← List.length_append]
      rw [lexemes_eq_nil (List.drop_eq_nil_of_le (Nat.le_of_eq hall.symm)),
        lexemes_eq_nil (List.drop_eq_nil_of_le (Nat.le_of_eq hnew'.symm))]
      exact .nil
    · have hsame : lexeme c (raw ++ tail) = lexeme c (raw ++ rest) ∧
          Forall₂ Respelled (lexemes rest) (lexemes tail) := by
        rcases htail with ⟨hclosed, rfl⟩ | ⟨rfl, rfl⟩
        · exact ⟨lexeme_of_startsAlike hmore hclosed (startsAlike_reflow es rest), ih rest⟩
        · exact ⟨rfl, hrefl _⟩
      obtain ⟨hlexeme, hrest⟩ := hsame
      obtain ⟨c', raw', hwrite, hstart', -, hmore', hrespelled⟩ :=
        lexeme_write e hstart (hlexeme ▸ hmore : (lexeme c (raw ++ tail)).more = raw.length)
      rw [hlexeme] at hwrite hrespelled
      have hlayout : isWhole false (e.behind ++ (gap ++ e.ahead)) :=
        isWhole_append e.behind_isWhole (isWhole_append hgap e.ahead_isWhole)
      have hnew' : reflow (e :: es) cs =
          e.behind ++ (gap ++ e.ahead) ++ c' :: (raw' ++ tail) := by
        rw [hnew, hwrite]
        simp
      rw [hnew', hcs, lexemes_whole_append hgap hstart hmore,
        lexemes_whole_append hlayout hstart' hmore']
      exact .cons hrespelled hrest

end Scriptlet.Token
