import Scriptlet.Proofs.Syntax.Spelling

/-!
# How the tokens of a text are written

What a scan says about the texts of its tokens: a name is one, a number has digits, an operator or
a delimiter is written in the one way that gives its kind.

* `exists_lexeme_of_mem_scan`: every token but the last was read off the front of some text.
* `Written`: the text of a token agrees with its kind.
* `written_of_mem_scan`: so it is for all tokens of a text.
-/

namespace Scriptlet.Token

open Syntax (isName operatorKind)

variable {c : Char} {cs rest : List Char}

/-- A text that a token of a kind is written with. -/
structure Written (kind : Kind) (text : String) : Prop where
  name : kind = .ident → isName text
  digits : kind = .int → text.toList ≠ [] ∧ text.toList.all isDigit
  mark : kind.isMark → operatorKind text = kind

/-! ## One token at the front of a text -/

theorem exists_lexeme_of_mem_lexemes {x : Kind × String} (hx : x ∈ lexemes cs) :
    ∃ c rest, x = ((lexeme c rest).kind, String.ofList (lexeme c rest).text) := by
  fun_induction lexemes cs with
  | case1 => cases hx
  | case2 cs c rest _ ih =>
    rcases List.mem_cons.1 hx with rfl | hrest
    · exact ⟨c, rest, rfl⟩
    · exact ih hrest

theorem exists_lexeme_of_mem_scan {source : String} {t : Token} (ht : t ∈ scan source) :
    t.kind = .eof ∨
      ∃ c rest, t.kind = (lexeme c rest).kind ∧ t.text = String.ofList (lexeme c rest).text := by
  have hbare := List.mem_map_of_mem (f := bare) ht
  rw [map_bare_scan] at hbare
  rcases List.mem_append.1 hbare with hmem | hend
  · obtain ⟨c, rest, hx⟩ := exists_lexeme_of_mem_lexemes hmem
    exact .inr ⟨c, rest, congrArg Prod.fst hx, congrArg Prod.snd hx⟩
  · exact .inl (congrArg Prod.fst (List.mem_singleton.1 hend))

/-- What a lexeme is: a word, a number, a string, an operator or an illegal character. -/
theorem lexeme_cases (c : Char) (cs : List Char) :
    (isLetter c ∧ lexeme c cs = ⟨wordKind (String.ofList (c :: cs.takeWhile isWordChar)),
        c :: cs.takeWhile isWordChar, (cs.takeWhile isWordChar).length⟩) ∨
      (isDigit c ∧ lexeme c cs =
        ⟨.int, c :: cs.takeWhile isDigit, (cs.takeWhile isDigit).length⟩) ∨
      (c = '"' ∧ lexeme c cs = stringLexeme cs) ∨
      operator? c cs = some (lexeme c cs) ∨
      lexeme c cs = ⟨.illegal, [c], 0⟩ := by
  by_cases hletter : isLetter c = true
  · left
    exact ⟨hletter, by simp [lexeme, hletter]⟩
  by_cases hdigit : isDigit c = true
  · right; left
    exact ⟨hdigit, by simp [lexeme, hletter, hdigit]⟩
  by_cases hquote : c = '"'
  · right; right; left
    subst hquote
    exact ⟨rfl, rfl⟩
  right; right; right
  cases hop : operator? c cs with
  | none =>
    right
    simp [lexeme, hletter, hdigit, hquote, hop]
  | some lx =>
    left
    simp [lexeme, hletter, hdigit, hquote, hop]

/-- A word that is no keyword is a name. -/
theorem isName_of_wordKind (hc : isLetter c)
    (hk : wordKind (String.ofList (c :: cs.takeWhile isWordChar)) = .ident) :
    isName (String.ofList (c :: cs.takeWhile isWordChar)) := by
  have hkeyword : ∀ w : String, wordKind w = .ident → ¬ Text.lower w ∈ Syntax.keywords := by
    intro w hw hmem
    simp only [Syntax.keywords, List.mem_cons, List.not_mem_nil, or_false] at hmem
    rcases hmem with h | h | h | h | h | h | h <;> simp [wordKind, h] at hw
  have hnot := hkeyword _ hk
  simp only [isName, String.toList_ofList, hc, List.all_takeWhile, Bool.and_self, Bool.true_and,
    Bool.not_eq_true', List.contains_eq_mem, decide_eq_false_iff_not]
  exact hnot

/-- An operator or a delimiter is written in the way that gives its kind. -/
theorem operatorKind_of_operator? {lx : Lexeme} (h : operator? c cs = some lx) :
    operatorKind (String.ofList lx.text) = lx.kind := by
  rcases operator?_cases h with ⟨kind, hk, rfl⟩ | ⟨d, ds, kind, -, hk, rfl⟩
  · simp [operatorKind, hk]
  · simp [operatorKind, hk]

/-- A word, a string or an illegal character is no operator, and of these only a word is a
name. -/
theorem written_of_kind {kind : Kind} {text : String} (hmark : kind.isMark = false)
    (hint : kind ≠ .int) (hname : kind = .ident → isName text) : Written kind text := by
  refine ⟨hname, fun h => absurd h hint, fun h => ?_⟩
  rw [hmark] at h
  cases h

theorem wordKind_spec (word : String) : (wordKind word).isMark = false ∧ wordKind word ≠ .int := by
  unfold wordKind
  split <;> decide

theorem written_lexeme (c : Char) (cs : List Char) :
    Written (lexeme c cs).kind (String.ofList (lexeme c cs).text) := by
  rcases lexeme_cases c cs with ⟨hc, hx⟩ | ⟨hc, hx⟩ | ⟨-, hx⟩ | hop | hx
  · rw [hx]
    obtain ⟨hmark, hint⟩ := wordKind_spec (String.ofList (c :: cs.takeWhile isWordChar))
    exact written_of_kind hmark hint (isName_of_wordKind hc)
  · rw [hx]
    refine ⟨by simp, fun _ => ?_, by simp [Kind.isMark]⟩
    rw [String.toList_ofList, List.all_cons, hc]
    exact ⟨List.cons_ne_nil _ _, List.all_takeWhile⟩
  · rw [hx]
    unfold stringLexeme
    dsimp only
    split
    · exact written_of_kind rfl (by simp) (by simp)
    · exact written_of_kind rfl (by simp) (by simp)
  · have hmark := isMark_of_operator? hop
    refine ⟨fun h => ?_, fun h => ?_, fun _ => operatorKind_of_operator? hop⟩
    all_goals
      rw [h] at hmark
      cases hmark
  · rw [hx]
    exact written_of_kind rfl (by simp) (by simp)

/-- **The text of every token agrees with its kind.** -/
theorem written_of_mem_scan {source : String} {t : Token} (ht : t ∈ scan source) :
    Written t.kind t.text := by
  rcases exists_lexeme_of_mem_scan ht with heof | ⟨c, rest, hkind, htext⟩
  · rw [heof]
    exact written_of_kind rfl (by simp) (by simp)
  · rw [hkind, htext]
    exact written_lexeme c rest

end Scriptlet.Token
