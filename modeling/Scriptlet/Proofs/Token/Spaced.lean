import Scriptlet.Proofs.Token.Reflow

/-!
# Tokens with blanks between them

A list of tokens can be written as a text from which a scan reads them back: each token is written
by itself, and a blank stands between two of them. This is so for all lists of names, keywords in
any letter case, numbers, operators, delimiters and strings, whatever the strings hold.

* `Writable`: the tokens that can be written.
* `spelling`, `spaced`: how they are written, one and many.
* `lexemes_spelling`: a token is read up to the blank behind it.
* `map_bare_scan_spaced`: a list of tokens is read back.
-/

namespace Scriptlet.Token

open Syntax (isName operatorKind renderString)

variable {kind : Kind} {text : String} {rest : List Char}

/-! ## Tokens and their spellings -/

/-- The keywords in small letters, and their kinds. -/
def keywordKinds : List (String × Kind) :=
  [("fn", .function), ("let", .letKey), ("true", .trueKey), ("false", .falseKey), ("if", .ifKey),
    ("else", .elseKey), ("return", .returnKey)]

/-- The operators and delimiters, and their kinds. -/
def markKinds : List (String × Kind) :=
  [("=", .assign), ("+", .plus), ("-", .minus), ("*", .asterisk), ("/", .slash), ("^", .hat),
    ("!", .bang), ("==", .eq), ("!=", .notEq), ("<", .lt), (">", .gt), ("<=", .ltEq), (">=", .gtEq),
    (",", .comma), (";", .semicolon), ("(", .lparen), (")", .rparen), ("\x7b", .lbrace),
    ("\x7d", .rbrace), ("[", .lbracket), ("]", .rbracket)]

example : markKinds.length = 21 := rfl

/-- A token that can be written, by its kind and its text. -/
inductive Writable : Kind → String → Prop
  | name {word : String} : isName word → Writable .ident word
  | keyword {word : String} {kind : Kind} : (Text.lower word, kind) ∈ keywordKinds →
      Writable kind word
  | number {digits : String} : digits.toList ≠ [] → digits.toList.all isDigit →
      Writable .int digits
  | mark {text : String} {kind : Kind} : (text, kind) ∈ markKinds → Writable kind text
  | string (text : String) : Writable .string text

/-- How a token is written: a string in its quotes, all else as it is. -/
def spelling (kind : Kind) (text : String) : String :=
  if kind = .string then renderString text else text

/-- Tokens as a text, with a blank between them. -/
def spaced (xs : List (Kind × String)) : String :=
  " ".intercalate (xs.map fun x => spelling x.1 x.2)

/-- A blank, or nothing at all, comes next. -/
def Blank (rest : List Char) : Prop := ∀ c ∈ rest.head?, c = ' '

theorem Blank.parted (h : Blank rest) : Parted rest := by
  intro c hc
  rw [h c hc]
  rfl

/-! ## One token -/

theorem spelling_of_ne (h : kind ≠ .string) : spelling kind text = text := if_neg h

/-- A keyword is a word of its kind in any letter case. -/
theorem wordKind_of_keyword {word : String} (h : (Text.lower word, kind) ∈ keywordKinds) :
    wordKind word = kind := by
  simp only [keywordKinds, List.mem_cons, Prod.mk.injEq, List.not_mem_nil, or_false] at h
  rcases h with ⟨h, rfl⟩ | ⟨h, rfl⟩ | ⟨h, rfl⟩ | ⟨h, rfl⟩ | ⟨h, rfl⟩ | ⟨h, rfl⟩ | ⟨h, rfl⟩
  all_goals simp [wordKind, h]

/-- All characters of a keyword are letters, since they are in small letters. -/
theorem letters_of_keyword {word : String} (h : (Text.lower word, kind) ∈ keywordKinds) :
    word.toList ≠ [] ∧ word.toList.all isLetter := by
  have hsmall : ∀ k ∈ keywordKinds, k.1.toList ≠ [] ∧ k.1.toList.all isLetter := by decide +kernel
  have hlower : (Text.lower word).toList = word.toList.map Char.toLower := by simp [Text.lower]
  obtain ⟨hne, hall⟩ := hsmall _ h
  rw [hlower] at hne hall
  refine ⟨fun hnil => hne (by rw [hnil]; rfl), ?_⟩
  rw [List.all_map] at hall
  simpa [Function.comp_def, isLetter_toLower] using hall

theorem lexemes_recased {word : String} (h : (Text.lower word, kind) ∈ keywordKinds)
    (hrest : Parted rest) : lexemes (word.toList ++ rest) = (kind, word) :: lexemes rest := by
  obtain ⟨hne, hall⟩ := letters_of_keyword h
  obtain ⟨c, cs, hword⟩ := List.exists_cons_of_ne_nil hne
  rw [hword, List.all_cons, Bool.and_eq_true] at hall
  have hcs : cs.all isWordChar := by
    rw [List.all_eq_true] at hall ⊢
    intro d hd
    rw [isWordChar, hall.2 d hd, Bool.true_or]
  have hofList : String.ofList (c :: cs) = word := by rw [← hword, String.ofList_toList]
  rw [hword, lexemes_word hall.1 hcs hrest, hofList, wordKind_of_keyword h]

theorem lexemes_digits {digits : String} (hne : digits.toList ≠ [])
    (hall : digits.toList.all isDigit) (hrest : Parted rest) :
    lexemes (digits.toList ++ rest) = (.int, digits) :: lexemes rest := by
  obtain ⟨c, cs, hdigits⟩ := List.exists_cons_of_ne_nil hne
  rw [hdigits, List.all_cons, Bool.and_eq_true] at hall
  have hofList : String.ofList (c :: cs) = digits := by rw [← hdigits, String.ofList_toList]
  rw [hdigits, lexemes_number hall.1 hall.2 hrest, hofList]

/-- A blank makes no operator longer. -/
theorem operator₂_blank (c : Char) : operator₂ c ' ' = none := by
  cases h : operator₂ c ' ' with
  | none => rfl
  | some kind =>
    have heq : ' ' = '=' := eq_of_operator₂ (by rw [h]; rfl)
    exact absurd heq (by decide)

theorem lexemes_markKind (h : (text, kind) ∈ markKinds) (hrest : Blank rest) :
    lexemes (text.toList ++ rest) = (kind, text) :: lexemes rest := by
  have hkinds : ∀ m ∈ markKinds, operatorKind m.1 = m.2 ∧ m.2 ≠ .illegal := by decide +kernel
  obtain ⟨hkind, hlegal⟩ : operatorKind text = kind ∧ kind ≠ .illegal := hkinds _ h
  have hsome {o : Option Kind} (ho : o.getD .illegal = kind) : o = some kind := by
    cases o with
    | none => exact absurd ho.symm hlegal
    | some k => exact congrArg some ho
  have hofList : String.ofList text.toList = text := String.ofList_toList
  unfold operatorKind at hkind
  split at hkind
  · rename_i c hc
    rw [hc] at hofList ⊢
    have hnext : ∀ d ∈ rest.head?, operator₂ c d = none := by
      intro d hd
      rw [hrest d hd, operator₂_blank]
    rw [List.singleton_append, lexemes_operator₁ (hsome hkind) hnext, hofList]
  · rename_i c d hcd
    rw [hcd] at hofList ⊢
    rw [List.cons_append, List.singleton_append, lexemes_operator₂ (hsome hkind), hofList]
  · exact absurd hkind.symm hlegal

/-- **A token is read up to the blank behind it.** -/
theorem lexemes_spelling (h : Writable kind text) (hrest : Blank rest) :
    lexemes ((spelling kind text).toList ++ rest) = (kind, text) :: lexemes rest := by
  cases h with
  | name hname =>
    rw [spelling_of_ne (by decide)]
    exact Syntax.lexemes_name hname hrest.parted
  | keyword hword =>
    have hkind : ∀ k ∈ keywordKinds, k.2 ≠ .string := by decide
    rw [spelling_of_ne (hkind _ hword)]
    exact lexemes_recased hword hrest.parted
  | number hne hall =>
    rw [spelling_of_ne (by decide)]
    exact lexemes_digits hne hall hrest.parted
  | mark hmark =>
    have hkind : ∀ m ∈ markKinds, m.2 ≠ .string := by decide
    rw [spelling_of_ne (hkind _ hmark)]
    exact lexemes_markKind hmark hrest
  | string => exact lexemes_renderString text rest

/-! ## Lists of tokens -/

theorem toList_spaced_cons_cons (x y : Kind × String) (xs : List (Kind × String)) :
    (spaced (x :: y :: xs)).toList =
      (spelling x.1 x.2).toList ++ ' ' :: (spaced (y :: xs)).toList := by
  simp [spaced, String.intercalate_cons_cons]

theorem lexemes_spaced (xs : List (Kind × String)) (h : ∀ x ∈ xs, Writable x.1 x.2) :
    lexemes (spaced xs).toList = xs := by
  induction xs with
  | nil => exact lexemes_nil
  | cons x xs ih =>
    have hx := h x List.mem_cons_self
    have hxs := ih fun y hy => h y (List.mem_cons_of_mem _ hy)
    cases xs with
    | nil =>
      have hend : Blank [] := by
        rintro c ⟨⟩
      have hlast := lexemes_spelling hx hend
      rw [lexemes_nil, List.append_nil] at hlast
      simpa [spaced] using hlast
    | cons y xs =>
      have hblank : Blank (' ' :: (spaced (y :: xs)).toList) := by
        rintro c ⟨⟩
        rfl
      rw [toList_spaced_cons_cons, lexemes_spelling hx hblank, lexemes_space, hxs]

/-- **Tokens that are written with blanks between them are read back**, and the end of the text
comes behind them. -/
theorem map_bare_scan_spaced (xs : List (Kind × String)) (h : ∀ x ∈ xs, Writable x.1 x.2) :
    (scan (spaced xs)).map bare = xs ++ [(.eof, "")] := by
  rw [map_bare_scan, lexemes_spaced xs h]

/-- Operators that would run together, a keyword in capitals, a name that starts like one, and
strings with quotes, backslashes, a line feed, a comment mark and a brace. -/
def crowdedTokens : List (Kind × String) :=
  [(.bang, "!"), (.assign, "="), (.eq, "=="), (.letKey, "LeT"), (.ident, "letter"), (.int, "007"),
    (.int, "7"), (.string, "\\\""), (.string, "a \\\\\n# \x7b"), (.string, ""), (.lt, "<"),
    (.assign, "=")]

theorem map_bare_scan_crowdedTokens :
    (∀ x ∈ crowdedTokens, Writable x.1 x.2) ∧
      (scan (spaced crowdedTokens)).map bare = crowdedTokens ++ [(.eof, "")] := by
  have hwritable : ∀ x ∈ crowdedTokens, Writable x.1 x.2 := by
    simp only [crowdedTokens, List.forall_mem_cons]
    exact ⟨.mark (by decide), .mark (by decide), .mark (by decide), .keyword (by decide +kernel),
      .name (by decide +kernel), .number (by decide +kernel) (by decide +kernel),
      .number (by decide +kernel) (by decide +kernel), .string _, .string _, .string _,
      .mark (by decide), .mark (by decide), fun _ hx => by cases hx⟩
  exact ⟨hwritable, map_bare_scan_spaced crowdedTokens hwritable⟩

end Scriptlet.Token
