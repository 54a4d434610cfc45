import Scriptlet.Proofs.Token.Reflow
import Scriptlet.Proofs.Token.Tiling
import Scriptlet.Session.Delimiters

/-!
# Open delimiters and tokens

A text leaves as many delimiters open as its tokens do. There are two ways to go through the
characters of a text: `Balance.next`, which passes over line feeds, and `Balance.advance`, which
takes an escaped line feed in a string for a character like any other, as the scan for tokens does.

* `depth_through`: going through a text with `Balance.advance` counts the delimiters among its
  tokens.
* `foldl_next`: the two ways are the same where no line feed is escaped.
* `openDelimiters_eq`: so the open delimiters of such a text are those of its tokens.
-/

namespace Scriptlet.Session

open Token (Kind lexeme lexemes layoutLength scan)

/-! ## Going through a text -/

/-- Before the first character. -/
def Balance.start : Balance := ⟨0, .code⟩

/-- The balance after a character. In a string, an escaped character is passed over whatever it
is. -/
def Balance.advance (b : Balance) (c : Char) : Balance :=
  if b.region = .string true then { b with region := .string false } else b.next c

/-- The balance after some characters. -/
def Balance.through (b : Balance) (cs : List Char) : Balance := cs.foldl Balance.advance b

/-- Whether one of the characters is a line feed that is escaped in a string. -/
def escapesLineFeed (b : Balance) : List Char → Bool
  | [] => false
  | c :: cs => c == '\n' && b.region == .string true || escapesLineFeed (b.advance c) cs

variable {b : Balance} {c : Char} {cs ds rest : List Char} {d : Int}

@[simp] theorem through_cons : b.through (c :: cs) = (b.advance c).through cs := rfl

@[simp] theorem through_append : b.through (cs ++ ds) = (b.through cs).through ds :=
  List.foldl_append

theorem advance_of_ne (h : b.region ≠ .string true) : b.advance c = b.next c := if_neg h

/-- In a string, only a line feed makes a difference, and only if it is escaped. -/
theorem next_eq_advance (h : c = '\n' → b.region ≠ .string true) : b.next c = b.advance c := by
  obtain ⟨depth, region⟩ := b
  by_cases hregion : region = .string true
  · subst hregion
    have hc : (c == '\n') = false := by
      rw [beq_eq_false_iff_ne]
      intro hc
      exact h hc rfl
    simp [Balance.next, Balance.advance, hc]
  · exact (advance_of_ne hregion).symm

theorem escapesLineFeed_append :
    escapesLineFeed b (cs ++ ds) = (escapesLineFeed b cs || escapesLineFeed (b.through cs) ds) := by
  induction cs generalizing b with
  | nil => rfl
  | cons c cs ih => simp only [List.cons_append, escapesLineFeed, ih, through_cons, Bool.or_assoc]

theorem escapesLineFeed_of_notMem (h : '\n' ∉ cs) : escapesLineFeed b cs = false := by
  induction cs generalizing b with
  | nil => rfl
  | cons c cs ih =>
    obtain ⟨hc, hcs⟩ := not_or.1 (mt List.mem_cons.2 h)
    have hline : (c == '\n') = false := beq_eq_false_iff_ne.2 (Ne.symm hc)
    rw [escapesLineFeed, hline, Bool.false_and, Bool.false_or, ih hcs]

/-- **Where no line feed is escaped, both ways are one.** -/
theorem foldl_next (h : escapesLineFeed b cs = false) : cs.foldl Balance.next b = b.through cs := by
  induction cs generalizing b with
  | nil => rfl
  | cons c cs ih =>
    obtain ⟨hc, hcs⟩ := Bool.or_eq_false_iff.1 h
    have hstep : b.next c = b.advance c := by
      apply next_eq_advance
      rintro rfl hregion
      simp [hregion] at hc
    rw [List.foldl_cons, hstep, ih hcs, through_cons]

/-! ## Characters that open and close nothing -/

/-- A character that neither opens or closes a delimiter nor starts a string or a comment. -/
def Neutral (c : Char) : Prop := c ≠ '"' ∧ c ≠ '#' ∧ delimiterStep c = 0

instance : DecidablePred Neutral := fun c =>
  inferInstanceAs (Decidable (c ≠ '"' ∧ c ≠ '#' ∧ delimiterStep c = 0))

theorem advance_code (hquote : c ≠ '"') (hmark : c ≠ '#') :
    Balance.advance ⟨d, .code⟩ c = ⟨d + delimiterStep c, .code⟩ := by
  simp [Balance.advance, Balance.next, hquote, hmark]

theorem through_neutral (h : ∀ c ∈ cs, Neutral c) :
    Balance.through ⟨d, .code⟩ cs = ⟨d, .code⟩ := by
  induction cs with
  | nil => rfl
  | cons c cs ih =>
    obtain ⟨hquote, hmark, hstep⟩ := h c List.mem_cons_self
    rw [through_cons, advance_code hquote hmark, hstep, Int.add_zero]
    exact ih fun e he => h e (List.mem_cons_of_mem _ he)

/-- Outside program text, no character changes the number of open delimiters. -/
theorem depth_advance (h : Neutral c) : (b.advance c).depth = b.depth := by
  obtain ⟨depth, region⟩ := b
  unfold Balance.advance
  split
  · rfl
  cases region with
  | code =>
    obtain ⟨hquote, hmark, hstep⟩ := h
    simp [Balance.next, hquote, hmark, hstep]
  | comment =>
    simp only [Balance.next]
    split <;> rfl
  | string escaped =>
    simp only [Balance.next]
    split_ifs <;> rfl

theorem depth_through_neutral (h : ∀ c ∈ cs, Neutral c) : (b.through cs).depth = b.depth := by
  induction cs generalizing b with
  | nil => rfl
  | cons c cs ih =>
    rw [through_cons, ih fun e he => h e (List.mem_cons_of_mem _ he)]
    exact depth_advance (h c List.mem_cons_self)

theorem neutral_of_isSpace (h : c ∈ [' ', '\t', '\r', '\n']) : Neutral c := by
  simp only [List.mem_cons, List.not_mem_nil, or_false] at h
  rcases h with rfl | rfl | rfl | rfl <;> decide

/-- A class of characters has only neutral ones if it leaves out six. -/
theorem neutral_of_class {p : Char → Bool} (hc : p c)
    (hp : ['"', '#', '{', '(', '}', ')'].any p = false) : Neutral c := by
  have hne : ∀ e ∈ ['"', '#', '{', '(', '}', ')'], c ≠ e := by
    rintro e he rfl
    rw [List.any_eq_false] at hp
    exact hp c he hc
  simp only [List.forall_mem_cons] at hne
  obtain ⟨hquote, hmark, hlbrace, hlparen, hrbrace, hrparen, -⟩ := hne
  exact ⟨hquote, hmark, by simp [delimiterStep, hlbrace, hlparen, hrbrace, hrparen]⟩

theorem neutral_of_isWordChar (h : Token.isWordChar c) : Neutral c := neutral_of_class h rfl

theorem neutral_of_isDigit (h : Token.isDigit c) : Neutral c := neutral_of_class h rfl

/-! ## Layout -/

theorem through_comment (h : '\n' ∉ cs) : Balance.through ⟨d, .comment⟩ cs = ⟨d, .comment⟩ := by
  induction cs with
  | nil => rfl
  | cons c cs ih =>
    obtain ⟨hc, hcs⟩ := not_or.1 (mt List.mem_cons.2 h)
    have hstep : Balance.advance ⟨d, .comment⟩ c = ⟨d, .comment⟩ := by
      simp [Balance.advance, Balance.next, Ne.symm hc]
    rw [through_cons, hstep, ih hcs]

/-- A line feed that ends a comment is like one of program text. -/
theorem advance_lineFeed :
    Balance.advance ⟨d, .comment⟩ '\n' = Balance.advance ⟨d, .code⟩ '\n' := by
  rw [advance_code (by decide) (by decide), show delimiterStep '\n' = 0 from rfl, Int.add_zero]
  rfl

/-- Layout opens and closes nothing and escapes no line feed, and behind it there is program
text. -/
theorem through_layout {after : List Char} (h : Token.Layout after cs)
    (hafter : ∀ e ∈ after.head?, e ≠ '\n') :
    escapesLineFeed ⟨d, .code⟩ cs = false ∧
      ∃ region, Balance.through ⟨d, .code⟩ cs = ⟨d, region⟩ ∧ (after ≠ [] → region = .code) := by
  induction h with
  | nil => exact ⟨rfl, .code, rfl, fun _ => rfl⟩
  | @space c cs hc _ ih =>
    obtain ⟨hquote, hmark, hstep⟩ := neutral_of_isSpace hc
    have hcode : Balance.advance ⟨d, .code⟩ c = ⟨d, .code⟩ := by
      rw [advance_code hquote hmark, hstep, Int.add_zero]
    rwa [through_cons, escapesLineFeed, hcode, show (Region.code == .string true) = false from rfl,
      Bool.and_false, Bool.false_or]
  | @comment body cs hbody hend _ ih =>
    have hstart : Balance.advance ⟨d, .code⟩ '#' = ⟨d, .comment⟩ := rfl
    have hescape : escapesLineFeed ⟨d, .code⟩ ('#' :: body) = false :=
      escapesLineFeed_of_notMem (by simpa using hbody)
    have hthrough : Balance.through ⟨d, .code⟩ ('#' :: body) = ⟨d, .comment⟩ := by
      rw [through_cons, hstart, through_comment hbody]
    rw [escapesLineFeed_append, hescape, Bool.false_or, through_append, hthrough]
    cases cs with
    | nil =>
      -- the comment goes on up to the end of the text, since no line feed comes after it
      refine ⟨rfl, .comment, rfl, fun hne => ?_⟩
      obtain ⟨e, es, rfl⟩ := List.exists_cons_of_ne_nil hne
      exact absurd (hend e rfl) (hafter e rfl)
    | cons e es =>
      obtain rfl : e = '\n' := hend e rfl
      rw [through_cons, escapesLineFeed, advance_lineFeed]
      exact ih

/-! ## Strings -/

/-- The characters between quotes open and close nothing. -/
theorem through_unescapes {closed : Bool} {content : List Char}
    (h : Token.Unescapes closed cs content) :
    ∃ escaped, Balance.through ⟨d, .string false⟩ cs = ⟨d, .string escaped⟩ ∧
      (closed → escaped = false) := by
  induction h with
  | nil => exact ⟨false, rfl, fun _ => rfl⟩
  | @plain c _ _ hquote hslash _ ih =>
    have hstep : Balance.advance ⟨d, .string false⟩ c = ⟨d, .string false⟩ := by
      simp [Balance.advance, Balance.next, hquote, hslash]
    rwa [through_cons, hstep]
  | escape _ _ ih => exact ih
  | other _ _ ih => exact ih
  | last hopen => exact ⟨true, rfl, fun hclosed => absurd hclosed (by simp [hopen])⟩

/-! ## Tokens -/

/-- Whether a token of a kind opens a delimiter. -/
def opens (kind : Kind) : Bool := kind == .lbrace || kind == .lparen

/-- Whether a token of a kind closes a delimiter. -/
def closes (kind : Kind) : Bool := kind == .rbrace || kind == .rparen

/-- The number of opening braces and parentheses among some tokens. -/
def openers (ts : List Token) : Nat := ts.countP fun t => opens t.kind

/-- The number of closing braces and parentheses among some tokens. -/
def closers (ts : List Token) : Nat := ts.countP fun t => closes t.kind

/-- What a token of a kind does to the number of open delimiters. -/
def weight (kind : Kind) : Int := (if opens kind then 1 else 0) - if closes kind then 1 else 0

theorem weight_of_not_isMark {kind : Kind} (h : kind.isMark = false) : weight kind = 0 := by
  cases kind <;> first | rfl | cases h

theorem weight_of_operator₁ {kind : Kind} (h : Token.operator₁ c = some kind) :
    weight kind = delimiterStep c := by
  unfold Token.operator₁ at h
  split at h
  all_goals cases h
  all_goals rfl

theorem weight_of_operator₂ {e : Char} {kind : Kind} (h : Token.operator₂ c e = some kind) :
    weight kind = 0 ∧ Neutral c ∧ Neutral e := by
  unfold Token.operator₂ at h
  split at h
  all_goals cases h
  all_goals decide

/-- A string opens and closes nothing, and behind its closing quote there is program text. -/
theorem through_string (cs : List Char) :
    ∃ region, Balance.through ⟨d, .code⟩ ('"' :: cs.take (Token.stringLexeme cs).more) =
        ⟨d + weight (Token.stringLexeme cs).kind, region⟩ ∧
      (cs.drop (Token.stringLexeme cs).more ≠ [] → region = .code) := by
  have hstart : Balance.advance ⟨d, .code⟩ '"' = ⟨d, .string false⟩ := rfl
  cases Token.spelled_string cs .start with
  | plain hhead => exact absurd rfl hhead
  | string inner hkind hraw hinner =>
    obtain ⟨escaped, hthrough, hescaped⟩ := through_unescapes (d := d) hinner
    have hweight : weight (Token.stringLexeme cs).kind = 0 := by
      rw [show (Token.stringLexeme cs).kind = .string from hkind]
      rfl
    refine ⟨.code, ?_, fun _ => rfl⟩
    rw [hraw, List.cons_append, through_cons, hstart, through_append, hthrough, hescaped rfl,
      hweight, Int.add_zero]
    rfl
  | unclosed inner content hkind hraw hend _ hinner =>
    obtain ⟨escaped, hthrough, -⟩ := through_unescapes (d := d) hinner
    have hweight : weight (Token.stringLexeme cs).kind = 0 := by
      rw [show (Token.stringLexeme cs).kind = .illegal from hkind]
      rfl
    refine ⟨.string escaped, ?_, fun hne => absurd hend hne⟩
    rw [hraw, through_cons, hstart, hthrough, hweight, Int.add_zero]

/-- A character that belongs to no token is no delimiter. -/
theorem delimiterStep_of_illegal (h : lexeme c cs = ⟨.illegal, [c], 0⟩) : delimiterStep c = 0 := by
  by_contra hstep
  have hc : c = '{' ∨ c = '(' ∨ c = '}' ∨ c = ')' := by
    unfold delimiterStep at hstep
    split_ifs at hstep with hopen hclose
    · simp only [Bool.or_eq_true, beq_iff_eq] at hopen
      exact hopen.elim .inl fun hparen => .inr (.inl hparen)
    · simp only [Bool.or_eq_true, beq_iff_eq] at hclose
      exact .inr (.inr hclose)
    · exact absurd rfl hstep
  have hkind := congrArg Token.Lexeme.kind h
  rcases hc with rfl | rfl | rfl | rfl <;> cases cs <;> cases hkind

/-- **What one token does to the balance**: it opens or closes what its kind says, and behind it
there is program text. -/
theorem through_lexeme (c : Char) (cs : List Char) (hmark : c ≠ '#') :
    ∃ region, Balance.through ⟨d, .code⟩ (c :: cs.take (lexeme c cs).more) =
        ⟨d + weight (lexeme c cs).kind, region⟩ ∧
      (cs.drop (lexeme c cs).more ≠ [] → region = .code) := by
  by_cases hquote : c = '"'
  · subst hquote
    exact through_string cs
  have hplain {raw : List Char} (h : ∀ e ∈ raw, Neutral e) {kind : Kind}
      (hkind : kind.isMark = false) :
      Balance.through ⟨d, .code⟩ raw = ⟨d + weight kind, .code⟩ := by
    rw [through_neutral h, weight_of_not_isMark hkind, Int.add_zero]
  refine ⟨.code, ?_, fun _ => rfl⟩
  rcases Token.lexeme_cases c cs with ⟨hc, hx⟩ | ⟨hc, hx⟩ | ⟨hc, -⟩ | hop | hx
  · rw [hx, Token.take_length_takeWhile]
    apply hplain _ (Token.wordKind_spec _).1
    intro e he
    rcases List.mem_cons.1 he with rfl | he
    · exact neutral_of_isWordChar (by simp [Token.isWordChar, hc])
    · exact neutral_of_isWordChar (List.mem_takeWhile_imp he)
  · rw [hx, Token.take_length_takeWhile]
    apply hplain _ rfl
    intro e he
    rcases List.mem_cons.1 he with rfl | he
    · exact neutral_of_isDigit hc
    · exact neutral_of_isDigit (List.mem_takeWhile_imp he)
  · exact absurd hc hquote
  · rcases Token.operator?_cases hop with ⟨kind, hk, hx⟩ | ⟨e, es, kind, rfl, hk, hx⟩
    · rw [hx, weight_of_operator₁ hk, List.take_zero, through_cons, advance_code hquote hmark]
      rfl
    · obtain ⟨hweight, hc, he⟩ := weight_of_operator₂ hk
      rw [hx, hweight, Int.add_zero, List.take_succ_cons, List.take_zero]
      exact through_neutral (by simp [hc, he])
  · rw [hx, List.take_zero]
    apply hplain _ rfl
    simpa using ⟨hquote, hmark, delimiterStep_of_illegal hx⟩

/-! ## Whole texts -/

/-- The delimiters that some tokens leave open, their places left out. -/
def excess (xs : List (Kind × String)) : Int :=
  xs.countP (fun x => opens x.1) - xs.countP (fun x => closes x.1)

theorem excess_cons (x : Kind × String) (xs : List (Kind × String)) :
    excess (x :: xs) = weight x.1 + excess xs := by
  simp only [excess, weight, List.countP_cons]
  split_ifs <;> push_cast <;> omega

theorem excess_scan (text : String) :
    excess (lexemes text.toList) = openers (scan text) - closers (scan text) := by
  have hcount (p : Kind → Bool) (hp : p .eof = false) :
      (lexemes text.toList).countP (fun x => p x.1) = (scan text).countP (fun t => p t.kind) := by
    have hmap := congrArg (List.countP fun x => p x.1) (Token.map_bare_scan text)
    rw [List.countP_map, List.countP_append] at hmap
    simpa [hp, Token.bare, Function.comp_def] using hmap.symm
  rw [excess, hcount opens rfl, hcount closes rfl]
  rfl

/-- **What a text does up to its first token, and at it**: the layout before the token changes
nothing, and the token opens or closes what its kind says. -/
theorem exists_first (hahead : cs.drop (layoutLength false cs) = c :: rest) :
    ∃ gap, cs = gap ++ (c :: rest.take (lexeme c rest).more ++ rest.drop (lexeme c rest).more) ∧
      Token.isSpace c = false ∧
      (∀ d, escapesLineFeed ⟨d, .code⟩ gap = false ∧
        Balance.through ⟨d, .code⟩ gap = ⟨d, .code⟩) ∧
      ∀ d, ∃ region, Balance.through ⟨d, .code⟩ (c :: rest.take (lexeme c rest).more) =
          ⟨d + weight (lexeme c rest).kind, region⟩ ∧
        (rest.drop (lexeme c rest).more ≠ [] → region = .code) := by
  obtain ⟨hspace, hmark⟩ : Token.isSpace c = false ∧ c ≠ '#' := by
    rcases Token.layout_cases cs with hall | ⟨c', rest', hdrop, -, hstart⟩
    · rw [hall, List.drop_length] at hahead
      cases hahead
    · rw [hahead] at hdrop
      cases hdrop
      exact hstart
  have hline : c ≠ '\n' := by
    rintro rfl
    cases hspace
  have hlayout := Token.layout_take cs
  rw [hahead] at hlayout
  refine ⟨cs.take (layoutLength false cs), ?_, hspace, fun d => ?_,
    fun d => through_lexeme c rest hmark⟩
  · rw [List.cons_append, List.take_append_drop, ← hahead, List.take_append_drop]
  · obtain ⟨hescape, region, hgap, hregion⟩ :=
      through_layout (d := d) hlayout (by simpa using hline)
    rw [hregion (List.cons_ne_nil c rest)] at hgap
    exact ⟨hescape, hgap⟩

/-- **Going through a text counts the delimiters among its tokens.** -/
theorem depth_through (cs : List Char) :
    (Balance.through ⟨d, .code⟩ cs).depth = d + excess (lexemes cs) := by
  fun_induction lexemes cs generalizing d with
  | case1 cs hend =>
    have hlayout := Token.layout_take cs
    rw [hend, List.take_of_length_le (List.drop_eq_nil_iff.1 hend)] at hlayout
    obtain ⟨-, region, hthrough, -⟩ := through_layout (d := d) hlayout (fun _ h => by cases h)
    rw [hthrough]
    exact (Int.add_zero d).symm
  | case2 cs c rest hahead ih =>
    obtain ⟨gap, hsplit, -, hgap, htokens⟩ := exists_first hahead
    obtain ⟨region, htoken, hregion⟩ := htokens d
    rw [hsplit, through_append, (hgap d).2, through_append, htoken, excess_cons, ← Int.add_assoc]
    -- where the text ends with the token, it may end inside a string
    by_cases hend : rest.drop (lexeme c rest).more = []
    · rw [hend, Token.lexemes_nil]
      exact (Int.add_zero _).symm
    · rw [hregion hend]
      exact ih

/-- **A text leaves open what its tokens leave open**, if it escapes no line feed. -/
theorem openDelimiters_eq (text : String) (h : escapesLineFeed .start text.toList = false) :
    openDelimiters text = openers (scan text) - closers (scan text) := by
  have hnext := congrArg Balance.depth (foldl_next h)
  have hthrough := depth_through (d := 0) text.toList
  have hscan := excess_scan text
  unfold openDelimiters
  unfold Balance.start at hnext
  omega

end Scriptlet.Session
