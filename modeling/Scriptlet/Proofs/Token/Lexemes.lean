import Scriptlet.Syntax.Render
import Scriptlet.Token.Scan

/-!
# The tokens of a text without their places

What kinds and texts a scan gives, as a function of the characters alone, and how it reads each
sort of token off the front of a text.

* `map_bare_scan`: a scan without its places is `lexemes`, with the end of the text last.
* `scan_eq`: the end of the text is nowhere else.
* `all_isDigit_of_mem_scan`: integers are written with digits.
* `lexemes_word`, `lexemes_number`, `lexemes_renderString`, `lexemes_operator`: one token at the
  front of a text.
-/

namespace Scriptlet.Token

/-- A token without its place. -/
def bare (t : Token) : Kind × String := (t.kind, t.text)

/-- The kinds and texts of the tokens of a text, the end of the text left out. -/
def lexemes (cs : List Char) : List (Kind × String) :=
  match _h : cs.drop (layoutLength false cs) with
  | [] => []
  | c :: rest =>
    ((lexeme c rest).kind, String.ofList (lexeme c rest).text) ::
      lexemes (rest.drop (lexeme c rest).more)
termination_by cs.length
decreasing_by
  have h := congrArg List.length _h
  simp only [List.length_drop, List.length_cons] at h ⊢
  omega

variable {c d : Char} {cs rest : List Char}

theorem lexemes_eq_nil (h : cs.drop (layoutLength false cs) = []) : lexemes cs = [] := by
  rw [lexemes]
  split
  · rfl
  · rename_i heq
    rw [h] at heq
    cases heq

theorem lexemes_eq_cons (h : cs.drop (layoutLength false cs) = c :: rest) :
    lexemes cs = ((lexeme c rest).kind, String.ofList (lexeme c rest).text) ::
      lexemes (rest.drop (lexeme c rest).more) := by
  rw [lexemes]
  split
  · rename_i heq
    rw [h] at heq
    cases heq
  · rename_i heq
    rw [h] at heq
    cases heq
    rfl

theorem map_bare_tokens (c : Cursor) :
    c.tokens.map bare = lexemes c.ahead ++ [(.eof, "")] := by
  fun_induction Cursor.tokens c with
  | case1 c h =>
    rw [lexemes_eq_nil h]
    rfl
  | case2 c first rest h ih =>
    rw [List.map_cons, ih, lexemes_eq_cons h]
    simp [Cursor.next, Cursor.read, h, bare, Cursor.skip, Nat.add_comm 1]

/-- **A scan without its places.** -/
theorem map_bare_scan (source : String) :
    (scan source).map bare = lexemes source.toList ++ [(.eof, "")] :=
  map_bare_tokens _

theorem wordKind_ne_eof (word : String) : wordKind word ≠ .eof := by
  unfold wordKind
  split <;> nofun

/-- Whether a kind is that of an operator or a delimiter. -/
def Kind.isMark : Kind → Bool
  | assign | plus | minus | asterisk | slash | hat | bang | eq | notEq | lt | gt | ltEq | gtEq
  | comma | semicolon | lparen | rparen | lbrace | rbrace | lbracket | rbracket => true
  | _ => false

/-- An operator has one character or two. -/
theorem operator?_cases {lx : Lexeme} (h : operator? c rest = some lx) :
    (∃ kind, operator₁ c = some kind ∧ lx = ⟨kind, [c], 0⟩) ∨
      ∃ d ds kind, rest = d :: ds ∧ operator₂ c d = some kind ∧ lx = ⟨kind, [c, d], 1⟩ := by
  have hone (h : (operator₁ c).map (⟨·, [c], 0⟩) = some lx) :
      ∃ kind, operator₁ c = some kind ∧ lx = ⟨kind, [c], 0⟩ := by
    obtain ⟨kind, hk, rfl⟩ := Option.map_eq_some_iff.1 h
    exact ⟨kind, hk, rfl⟩
  unfold operator? at h
  split at h
  · rename_i d ds
    split at h
    · rename_i kind hk
      cases h
      exact .inr ⟨d, ds, kind, rfl, hk, rfl⟩
    · exact .inl (hone h)
  · exact .inl (hone h)

theorem isMark_of_operator? {lx : Lexeme} (h : operator? c rest = some lx) : lx.kind.isMark := by
  rcases operator?_cases h with ⟨kind, hk, rfl⟩ | ⟨d, ds, kind, -, hk, rfl⟩
  · unfold operator₁ at hk
    split at hk
    all_goals cases hk
    all_goals rfl
  · unfold operator₂ at hk
    split at hk
    all_goals cases hk
    all_goals rfl

theorem lexeme_kind_ne_eof (c : Char) (cs : List Char) : (lexeme c cs).kind ≠ .eof := by
  unfold lexeme
  split
  · exact wordKind_ne_eof _
  split
  · nofun
  split
  · unfold stringLexeme
    dsimp only
    split <;> nofun
  · cases h : operator? c cs with
    | none => nofun
    | some lx =>
      intro hk
      have hmark := isMark_of_operator? h
      rw [show lx.kind = .eof from hk] at hmark
      cases hmark

/-- A number is written with digits. -/
theorem all_isDigit_of_lexeme (hk : (lexeme c cs).kind = .int) :
    (lexeme c cs).text.all isDigit := by
  by_cases hl : isLetter c = true
  · simp only [lexeme, if_pos hl] at hk
    unfold wordKind at hk
    split at hk <;> cases hk
  by_cases hd : isDigit c = true
  · simp only [lexeme, if_neg hl, if_pos hd]
    rw [List.all_cons, hd]
    exact List.all_takeWhile
  by_cases hq : (c == '"') = true
  · simp only [lexeme, if_neg hl, if_neg hd, if_pos hq, stringLexeme] at hk
    split at hk <;> cases hk
  · simp only [lexeme, if_neg hl, if_neg hd, if_neg hq] at hk
    cases h : operator? c cs with
    | none =>
      rw [h] at hk
      cases hk
    | some lx =>
      have hmark := isMark_of_operator? h
      rw [h] at hk
      rw [show lx.kind = .int from hk] at hmark
      cases hmark

theorem kind_ne_eof_of_mem_lexemes {x : Kind × String} (hx : x ∈ lexemes cs) : x.1 ≠ .eof := by
  fun_induction lexemes cs with
  | case1 => cases hx
  | case2 cs c rest _ ih =>
    rcases List.mem_cons.1 hx with rfl | hx
    · exact lexeme_kind_ne_eof c rest
    · exact ih hx

theorem all_isDigit_of_mem_lexemes {x : Kind × String} (hx : x ∈ lexemes cs)
    (hk : x.1 = .int) : x.2.toList.all isDigit := by
  fun_induction lexemes cs with
  | case1 => cases hx
  | case2 cs c rest _ ih =>
    rcases List.mem_cons.1 hx with rfl | hx
    · rw [String.toList_ofList]
      exact all_isDigit_of_lexeme hk
    · exact ih hx

theorem all_isDigit_of_mem_scan {source : String} {t : Token} (ht : t ∈ scan source)
    (hk : t.kind = .int) : t.text.toList.all isDigit := by
  have hbare := List.mem_map_of_mem (f := bare) ht
  rw [map_bare_scan] at hbare
  rcases List.mem_append.1 hbare with hmem | hend
  · exact all_isDigit_of_mem_lexemes hmem hk
  · have hkind : t.kind = .eof := congrArg Prod.fst (List.mem_singleton.1 hend)
    rw [hkind] at hk
    cases hk

/-- **The end of the text comes last in a scan, and only there.** -/
theorem scan_eq (source : String) :
    ∃ us z, scan source = us ++ [z] ∧ us.map bare = lexemes source.toList ∧ z.kind = .eof ∧
      ∀ t ∈ us, t.kind ≠ .eof := by
  obtain ⟨us, zs, hscan, hus, hzs⟩ := List.map_eq_append_iff.1 (map_bare_scan source)
  obtain ⟨z, _, rfl, hz, hnil⟩ := List.map_eq_cons_iff.1 hzs
  rw [List.map_eq_nil_iff.1 hnil] at hscan
  refine ⟨us, z, hscan, hus, congrArg Prod.fst hz, fun t ht => ?_⟩
  exact kind_ne_eof_of_mem_lexemes (hus ▸ List.mem_map_of_mem ht)

theorem lexemes_nil : lexemes [] = [] := lexemes_eq_nil rfl

/-- Texts that differ in the layout before them have the same tokens. -/
theorem lexemes_congr {ds : List Char}
    (h : cs.drop (layoutLength false cs) = ds.drop (layoutLength false ds)) :
    lexemes cs = lexemes ds := by
  cases hd : ds.drop (layoutLength false ds) with
  | nil => rw [lexemes_eq_nil hd, lexemes_eq_nil (h.trans hd)]
  | cons c rest => rw [lexemes_eq_cons hd, lexemes_eq_cons (h.trans hd)]

theorem lexemes_space (cs : List Char) : lexemes (' ' :: cs) = lexemes cs := by
  refine lexemes_congr ?_
  simp [layoutLength, isSpace, Nat.add_comm 1]

/-- The token at the front of a text without layout. -/
theorem lexemes_cons (hs : isSpace c = false) (hc : c ≠ '#') :
    lexemes (c :: cs) = ((lexeme c cs).kind, String.ofList (lexeme c cs).text) ::
      lexemes (cs.drop (lexeme c cs).more) :=
  lexemes_eq_cons (by simp [layoutLength, hs, hc])

/-! ## Words and numbers -/

/-- What does not go on with a word or a number: nothing, or another character. -/
def Parted (cs : List Char) : Prop := ∀ c ∈ cs.head?, isWordChar c = false

theorem takeWhile_append_of_head {p : Char → Bool} (hcs : cs.all p)
    (hr : ∀ c ∈ rest.head?, p c = false) : (cs ++ rest).takeWhile p = cs := by
  have hr : rest.takeWhile p = [] := by
    cases rest with
    | nil => rfl
    | cons c rest => simp [hr c rfl]
  rw [List.takeWhile_append_of_pos (by simpa using hcs), hr, List.append_nil]

theorem isLetter_not_layout (h : isLetter c) : isSpace c = false ∧ c ≠ '#' := by
  refine ⟨?_, ?_⟩
  · rw [← Bool.not_eq_true]
    intro hs
    simp only [isSpace, Bool.or_eq_true, beq_iff_eq] at hs
    rcases hs with ((rfl | rfl) | rfl) | rfl <;> simp [isLetter] at h
  · rintro rfl
    simp [isLetter] at h

theorem isDigit_not_layout (h : isDigit c) :
    isSpace c = false ∧ c ≠ '#' ∧ isLetter c = false := by
  refine ⟨?_, ?_, ?_⟩
  · rw [← Bool.not_eq_true]
    intro hs
    simp only [isSpace, Bool.or_eq_true, beq_iff_eq] at hs
    rcases hs with ((rfl | rfl) | rfl) | rfl <;> simp [isDigit] at h
  · rintro rfl
    simp [isDigit] at h
  · rw [← Bool.not_eq_true]
    intro hl
    simp only [isDigit, isLetter, Bool.and_eq_true, Bool.or_eq_true, decide_eq_true_eq,
      beq_iff_eq, Char.le_def, UInt32.le_iff_toNat_le] at h hl
    rcases hl with (hl | hl) | rfl
    · exact absurd (Nat.le_trans hl.1 h.2) (by decide)
    · exact absurd (Nat.le_trans hl.1 h.2) (by decide)
    · exact absurd h.2 (by decide)

/-- A word is read up to what does not belong to it. -/
theorem lexemes_word (hc : isLetter c) (hcs : cs.all isWordChar) (hr : Parted rest) :
    lexemes (c :: cs ++ rest) =
      (wordKind (String.ofList (c :: cs)), String.ofList (c :: cs)) :: lexemes rest := by
  obtain ⟨hs, hh⟩ := isLetter_not_layout hc
  rw [List.cons_append, lexemes_cons hs hh]
  simp [lexeme, hc, takeWhile_append_of_head hcs hr]

/-- A number is read up to what is no digit. -/
theorem lexemes_number (hc : isDigit c) (hcs : cs.all isDigit) (hr : Parted rest) :
    lexemes (c :: cs ++ rest) = (.int, String.ofList (c :: cs)) :: lexemes rest := by
  obtain ⟨hs, hh, hl⟩ := isDigit_not_layout hc
  have hr (d : Char) (hd : d ∈ rest.head?) : isDigit d = false := by
    have := hr d hd
    simp only [isWordChar, Bool.or_eq_false_iff] at this
    exact this.2
  rw [List.cons_append, lexemes_cons hs hh]
  simp [lexeme, hl, hc, takeWhile_append_of_head hcs hr]

/-! ## Strings -/

/-- Characters with quotes and backslashes escaped. -/
def escaped (cs : List Char) : List Char :=
  cs.flatMap fun c => if c == '\\' || c == '"' then ['\\', c] else [c]

theorem toList_renderString (s : String) :
    (Syntax.renderString s).toList = '"' :: escaped s.toList ++ ['"'] := by
  simp [Syntax.renderString, escaped]

/-- **Reading undoes escaping.** -/
theorem quotation_escaped (cs rest : List Char) :
    quotation (escaped cs ++ '"' :: rest) = ⟨cs, (escaped cs).length + 1, true⟩ := by
  induction cs with
  | nil => rfl
  | cons c cs ih =>
    have he : escaped (c :: cs) =
        (if c == '\\' || c == '"' then ['\\', c] else [c]) ++ escaped cs := List.flatMap_cons
    by_cases hc : c = '\\' ∨ c = '"'
    · have he : escaped (c :: cs) = '\\' :: c :: escaped cs := by simpa [hc] using he
      have hx : escape? c = some c := by rcases hc with rfl | rfl <;> rfl
      rw [he, List.cons_append, List.cons_append, quotation, hx, ih]
      simp only [Quotation.prepend, List.length_cons, List.singleton_append]
      congr 1
      omega
    · have he : escaped (c :: cs) = c :: escaped cs := by simpa [hc] using he
      rw [not_or] at hc
      rw [he, List.cons_append, quotation, ih]
      · simp [Quotation.prepend, Nat.add_comm]
      · exact hc.2
      · exact fun _ _ h => absurd h hc.1

theorem lexemes_renderString (s : String) (rest : List Char) :
    lexemes ((Syntax.renderString s).toList ++ rest) = (.string, s) :: lexemes rest := by
  rw [toList_renderString, List.cons_append, List.cons_append, List.append_assoc,
    List.singleton_append, lexemes_cons (by decide) (by decide)]
  have hx : lexeme '"' (escaped s.toList ++ '"' :: rest) =
      ⟨.string, s.toList, (escaped s.toList).length + 1⟩ := by
    simp [lexeme, isLetter, isDigit, stringLexeme, quotation_escaped]
  rw [hx]
  simp

/-! ## Operators -/

theorem operator₁_char {kind : Kind} (h : operator₁ c = some kind) :
    isSpace c = false ∧ c ≠ '#' ∧ isLetter c = false ∧ isDigit c = false ∧ c ≠ '"' := by
  unfold operator₁ at h
  split at h
  all_goals first | decide | cases h

theorem operator₁_of_operator₂ {kind : Kind} (h : operator₂ c d = some kind) :
    ∃ kind', operator₁ c = some kind' := by
  unfold operator₂ at h
  split at h
  all_goals first | exact ⟨_, rfl⟩ | cases h

theorem lexemes_operator {kind : Kind} {text : List Char} {n : Nat} (hc : (operator₁ c).isSome)
    (h : operator? c rest = some ⟨kind, text, n⟩) :
    lexemes (c :: rest) = (kind, String.ofList text) :: lexemes (rest.drop n) := by
  obtain ⟨kind', hk⟩ := Option.isSome_iff_exists.1 hc
  obtain ⟨hs, hh, hl, hd, hq⟩ := operator₁_char hk
  rw [lexemes_cons hs hh]
  simp [lexeme, hl, hd, hq, h]

/-- An operator of one character, where it and the next make no longer one. -/
theorem lexemes_operator₁ {kind : Kind} (hk : operator₁ c = some kind)
    (hr : ∀ d ∈ rest.head?, operator₂ c d = none) :
    lexemes (c :: rest) = (kind, String.ofList [c]) :: lexemes rest := by
  refine lexemes_operator (by simp [hk]) (n := 0) ?_
  cases rest with
  | nil => simp [operator?, hk]
  | cons d rest => simp [operator?, hr d rfl, hk]

/-- An operator of two characters. -/
theorem lexemes_operator₂ {kind : Kind} (hk : operator₂ c d = some kind) :
    lexemes (c :: d :: rest) = (kind, String.ofList [c, d]) :: lexemes rest := by
  obtain ⟨kind', hc⟩ := operator₁_of_operator₂ hk
  exact lexemes_operator (by simp [hc]) (n := 1) (by simp [operator?, hk])

end Scriptlet.Token
