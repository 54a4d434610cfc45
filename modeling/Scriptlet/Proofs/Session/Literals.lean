import Scriptlet.Proofs.Session.Delimiters

/-!
# Open delimiters and string literals

A line feed is escaped only right behind a backslash, and only in a string literal. So the open
delimiters of a text are those of its tokens unless a literal has a line feed right behind a
backslash. All else may be there: literals over many lines or never closed, quotes in comments,
comment marks in literals, characters of no token.

* `literals`: the string literals of a text, as they are written.
* `escapesLineFeed_of_literals`: a line feed is escaped only in one of them.
* `openDelimiters_of_literals`: the main statement.
-/

namespace Scriptlet.Session

open Token (lexeme layoutLength scan)

variable {b : Balance} {c : Char} {cs rest : List Char} {d : Int}

/-- The string literals of a text as they are written, with their quotes. One that is never closed
is the last. -/
def literals (cs : List Char) : List (List Char) :=
  match _h : cs.drop (layoutLength false cs) with
  | [] => []
  | c :: rest =>
    if c == '"' then
      (c :: rest.take (lexeme c rest).more) :: literals (rest.drop (lexeme c rest).more)
    else literals (rest.drop (lexeme c rest).more)
termination_by cs.length
decreasing_by
  all_goals
    have h := congrArg List.length _h
    simp only [List.length_drop, List.length_cons] at h ⊢
    omega

/-! ## Behind a backslash -/

/-- Only a backslash escapes what comes next. -/
theorem region_advance (h : c ≠ '\\') : (b.advance c).region ≠ .string true := by
  obtain ⟨depth, region⟩ := b
  cases region with
  | code =>
    rw [advance_of_ne (by simp), Balance.next]
    split_ifs <;> simp
  | comment =>
    rw [advance_of_ne (by simp), Balance.next]
    split_ifs <;> simp
  | string escaped =>
    cases escaped with
    | true => simp [Balance.advance]
    | false =>
      have hslash : ¬ (c == '\\') = true := by simpa using h
      rw [advance_of_ne (by simp)]
      simp only [Balance.next, Bool.false_eq_true, if_false, if_neg hslash]
      split_ifs <;> simp

/-- Where no backslash is right before a line feed, none is escaped. -/
theorem escapesLineFeed_of_not_infix (h : ¬ ['\\', '\n'] <:+: cs)
    (hb : b.region = .string true → cs.head? ≠ some '\n') : escapesLineFeed b cs = false := by
  induction cs generalizing b with
  | nil => rfl
  | cons c cs ih =>
    rw [escapesLineFeed, Bool.or_eq_false_iff]
    constructor
    · rw [Bool.and_eq_false_iff, beq_eq_false_iff_ne, beq_eq_false_iff_ne]
      by_contra hboth
      simp only [not_or, not_not] at hboth
      exact hb hboth.2 (congrArg some hboth.1)
    · refine ih (fun hcs => h (List.infix_cons hcs)) fun hregion hhead => h ?_
      obtain ⟨more, rfl⟩ : ∃ more, cs = '\n' :: more := by
        cases cs with
        | nil => cases hhead
        | cons e more => exact ⟨more, by rw [Option.some.inj hhead]⟩
      rw [of_not_not fun hc => region_advance hc hregion]
      exact ⟨[], more, rfl⟩

/-! ## Tokens and whole texts -/

/-- A token that is no string is on one line. -/
theorem notMem_lexeme (hquote : c ≠ '"') (hspace : Token.isSpace c = false) :
    '\n' ∉ c :: rest.take (lexeme c rest).more := by
  have hline : '\n' ≠ c := by
    rintro rfl
    cases hspace
  rw [List.mem_cons, not_or]
  refine ⟨hline, ?_⟩
  rcases Token.lexeme_cases c rest with ⟨-, hx⟩ | ⟨-, hx⟩ | ⟨hc, -⟩ | hop | hx
  · rw [hx, Token.take_length_takeWhile]
    intro hmem
    exact absurd (List.mem_takeWhile_imp hmem) (by decide)
  · rw [hx, Token.take_length_takeWhile]
    intro hmem
    exact absurd (List.mem_takeWhile_imp hmem) (by decide)
  · exact absurd hc hquote
  · rcases Token.operator?_cases hop with ⟨kind, -, hx⟩ | ⟨e, es, kind, rfl, hk, hx⟩
    · rw [hx]
      exact List.not_mem_nil
    · rw [hx, List.take_succ_cons, List.take_zero, List.mem_singleton]
      rintro rfl
      exact absurd (Token.eq_of_operator₂ (Option.isSome_of_mem hk)) (by decide)
  · rw [hx]
    exact List.not_mem_nil

/-- A text escapes a line feed only behind its first token, unless this is a string literal with a
line feed right behind a backslash. -/
theorem escapesLineFeed_first (hahead : cs.drop (layoutLength false cs) = c :: rest)
    (hliteral : c = '"' → ¬ ['\\', '\n'] <:+: c :: rest.take (lexeme c rest).more)
    (hrest : ∀ d, escapesLineFeed ⟨d, .code⟩ (rest.drop (lexeme c rest).more) = false) :
    escapesLineFeed ⟨d, .code⟩ cs = false := by
  obtain ⟨gap, hsplit, hspace, hgap, htokens⟩ := exists_first hahead
  obtain ⟨hgapEscape, hgapThrough⟩ := hgap d
  obtain ⟨region, htoken, hregion⟩ := htokens d
  have hescape : escapesLineFeed ⟨d, .code⟩ (c :: rest.take (lexeme c rest).more) = false := by
    by_cases hquote : c = '"'
    · exact escapesLineFeed_of_not_infix (hliteral hquote) (fun hcode => by cases hcode)
    · exact escapesLineFeed_of_notMem (notMem_lexeme hquote hspace)
  rw [hsplit, escapesLineFeed_append, hgapEscape, hgapThrough, Bool.false_or,
    escapesLineFeed_append, hescape, htoken, Bool.false_or]
  by_cases hend : rest.drop (lexeme c rest).more = []
  · rw [hend]
    rfl
  · rw [hregion hend]
    exact hrest _

/-- **A line feed is escaped only in a string literal**, right behind a backslash. -/
theorem escapesLineFeed_of_literals (h : ∀ raw ∈ literals cs, ¬ ['\\', '\n'] <:+: raw) :
    escapesLineFeed ⟨d, .code⟩ cs = false := by
  fun_induction literals cs generalizing d with
  | case1 cs hend =>
    have hlayout := Token.layout_take cs
    rw [hend, List.take_of_length_le (List.drop_eq_nil_iff.1 hend)] at hlayout
    exact (through_layout hlayout (fun _ h => by cases h)).1
  | case2 cs c rest hahead _ ih =>
    refine escapesLineFeed_first hahead (fun _ => h _ List.mem_cons_self) fun d => ?_
    exact ih fun raw hraw => h raw (List.mem_cons_of_mem _ hraw)
  | case3 cs c rest hahead hquote ih =>
    refine escapesLineFeed_first hahead (fun hc => absurd hc ?_) fun d => ih h
    simpa using hquote

/-- **A text leaves open what its tokens leave open**, if no string literal of it has a line feed
right behind a backslash. -/
theorem openDelimiters_of_literals (source : String)
    (h : ∀ raw ∈ literals source.toList, ¬ ['\\', '\n'] <:+: raw) :
    openDelimiters source = openers (scan source) - closers (scan source) := by
  have hescape : escapesLineFeed .start source.toList = false := escapesLineFeed_of_literals h
  exact openDelimiters_eq source hescape

/-- A backslash before the line feed of a comment, a quote in a comment, a literal over two lines
with an escaped quote, a comment mark and a brace, a character of no token, and a literal that is
never closed. -/
def tangledText : String :=
  "\x7b ( # \" ( \\\n \"a \\\" # \x7b\nb\\\\\" ) @ ( \") \x7d \\"

theorem openDelimiters_tangledText :
    (∀ raw ∈ literals tangledText.toList, ¬ ['\\', '\n'] <:+: raw) ∧
      openDelimiters tangledText = openers (scan tangledText) - closers (scan tangledText) ∧
      openDelimiters tangledText = 2 := by
  have hliterals : ∀ raw ∈ literals tangledText.toList, ¬ ['\\', '\n'] <:+: raw := by
    decide +kernel
  exact ⟨hliterals, openDelimiters_of_literals tangledText hliterals, by decide +kernel⟩

end Scriptlet.Session
