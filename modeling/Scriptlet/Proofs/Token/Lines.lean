import Scriptlet.Proofs.Token.Lexemes

/-!
# The tokens of texts one below the other

A line feed ends whatever stands before it: a word, a number, an operator, layout and a comment. Only
a string that is never closed goes on over it. So two texts, one on the lines below the other, have
the tokens of the one and then those of the other.

* `layoutLength_append_line`, `layoutLength_append`: layout ends where it did, or goes on below.
* `lexeme_append_line`: a token ends where it did.
* `lexemes_append_line`: the tokens of the two texts.
-/

namespace Scriptlet.Token

variable {c : Char} {cs below : List Char}

/-! ## Layout -/

theorem layoutLength_cons (inComment : Bool) (c : Char) (cs : List Char) :
    layoutLength inComment (c :: cs) =
      if inComment then 1 + layoutLength (c != '\n') cs
      else if isSpace c then 1 + layoutLength false cs
      else if c == '#' then 1 + layoutLength true cs
      else 0 := rfl

theorem layoutLength_le (inComment : Bool) (cs : List Char) :
    layoutLength inComment cs ≤ cs.length := by
  induction cs generalizing inComment with
  | nil => exact Nat.le_refl 0
  | cons c cs ih =>
    have hin := ih (c != '\n')
    have hspace := ih false
    have hcomment := ih true
    rw [layoutLength_cons, List.length_cons]
    split
    · omega
    split
    · omega
    split <;> omega

/-- Layout that takes a whole text goes on below it: a comment ends with the line. -/
theorem layoutLength_append_line {inComment : Bool}
    (h : layoutLength inComment cs = cs.length) (below : List Char) :
    layoutLength inComment (cs ++ '\n' :: below) =
      cs.length + 1 + layoutLength false below := by
  induction cs generalizing inComment with
  | nil =>
    cases inComment with
    | true => simp [layoutLength]
    | false => simp [layoutLength, isSpace]
  | cons c cs ih =>
    rw [layoutLength_cons, List.length_cons] at h
    rw [List.cons_append, layoutLength_cons, List.length_cons]
    split at h
    · rename_i hin
      rw [if_pos hin, ih (by omega)]
      omega
    split at h
    · rename_i hin hspace
      rw [if_neg hin, if_pos hspace, ih (by omega)]
      omega
    split at h
    · rename_i hin hspace hmark
      rw [if_neg hin, if_neg hspace, if_pos hmark, ih (by omega)]
      omega
    · omega

/-- Layout that ends inside a text ends there, whatever comes after. -/
theorem layoutLength_append {inComment : Bool} (h : layoutLength inComment cs < cs.length)
    (more : List Char) : layoutLength inComment (cs ++ more) = layoutLength inComment cs := by
  induction cs generalizing inComment with
  | nil => cases h
  | cons c cs ih =>
    rw [layoutLength_cons, List.length_cons] at h
    rw [List.cons_append, layoutLength_cons, layoutLength_cons]
    split at h
    · rename_i hin
      rw [if_pos hin, if_pos hin, ih (by omega)]
    split at h
    · rename_i hin hspace
      rw [if_neg hin, if_neg hin, if_pos hspace, if_pos hspace, ih (by omega)]
    split at h
    · rename_i hin hspace hmark
      rw [if_neg hin, if_neg hin, if_neg hspace, if_neg hspace, if_pos hmark, if_pos hmark,
        ih (by omega)]
    · rename_i hin hspace hmark
      simp only [if_neg hin, if_neg hspace, if_neg hmark]

/-! ## One token -/

theorem takeWhile_append_line {p : Char → Bool} (hp : p '\n' = false) (cs below : List Char) :
    (cs ++ '\n' :: below).takeWhile p = cs.takeWhile p := by
  induction cs with
  | nil => simp [hp]
  | cons c cs ih => simp only [List.cons_append, List.takeWhile_cons, ih]

/-- A string that is closed ends on its quote, and one that is not takes the whole text. -/
theorem quotation_append (cs more : List Char) :
    ((quotation cs).closed = true → quotation (cs ++ more) = quotation cs) ∧
      ((quotation cs).closed = false → (quotation cs).length = cs.length) ∧
      (quotation cs).length ≤ cs.length := by
  fun_induction quotation cs with
  | case1 => simp
  | case2 cs => simp [quotation]
  | case3 e cs c he ih =>
    obtain ⟨hclosed, hopen, hle⟩ := ih
    simp only [Quotation.prepend, List.length_cons, List.cons_append]
    refine ⟨fun h => ?_, fun h => ?_, by omega⟩
    · simp only [quotation, he, hclosed h, Quotation.prepend]
      rfl
    · rw [hopen h]
      omega
  | case4 e cs he ih =>
    obtain ⟨hclosed, hopen, hle⟩ := ih
    simp only [Quotation.prepend, List.length_cons, List.cons_append]
    refine ⟨fun h => ?_, fun h => ?_, by omega⟩
    · simp only [quotation, he, hclosed h, Quotation.prepend]
      rfl
    · rw [hopen h]
      omega
  | case5 c cs hquote hescape ih =>
    obtain ⟨hclosed, hopen, hle⟩ := ih
    simp only [Quotation.prepend, List.length_cons, List.cons_append]
    refine ⟨fun h => ?_, fun h => ?_, by omega⟩
    · -- something follows in the text itself, so that a backslash would make an escape with that
      cases cs with
      | nil => cases h
      | cons d cs =>
        rw [List.cons_append, quotation, ← List.cons_append, hclosed h, Quotation.prepend]
        · rfl
        · exact hquote
        · exact fun e cs' hc hcs => hescape d cs hc rfl
    · rw [hopen h]
      omega

theorem operator?_append_line (c : Char) (cs below : List Char) :
    operator? c (cs ++ '\n' :: below) = operator? c cs := by
  cases cs with
  | cons d cs => rfl
  | nil =>
    have hnone : operator₂ c '\n' = none := by
      unfold operator₂
      split <;> simp_all
    simp [operator?, hnone]

/-- **A line feed ends every token** but a string that is never closed. -/
theorem lexeme_append_line (h : (lexeme c cs).kind = .illegal → (lexeme c cs).more < cs.length)
    (below : List Char) : lexeme c (cs ++ '\n' :: below) = lexeme c cs := by
  by_cases hl : isLetter c = true
  · simp only [lexeme, if_pos hl, takeWhile_append_line (p := isWordChar) rfl]
  by_cases hd : isDigit c = true
  · simp only [lexeme, if_neg hl, if_pos hd, takeWhile_append_line (p := isDigit) rfl]
  by_cases hq : (c == '"') = true
  · simp only [lexeme, if_neg hl, if_neg hd, if_pos hq, stringLexeme] at h ⊢
    obtain ⟨hclosed, hopen, -⟩ := quotation_append cs ('\n' :: below)
    by_cases hc : (quotation cs).closed = true
    · rw [hclosed hc]
    · -- a string that is never closed leaves nothing
      simp only [if_neg hc] at h
      have hlength := hopen (by simpa using hc)
      have hlt := h trivial
      omega
  · simp only [lexeme, if_neg hl, if_neg hd, if_neg hq, operator?_append_line]

theorem more_le_of_operator? {lx : Lexeme} (h : operator? c cs = some lx) :
    lx.more ≤ cs.length := by
  rcases operator?_cases h with ⟨kind, -, rfl⟩ | ⟨d, ds, kind, rfl, -, rfl⟩
  · exact Nat.zero_le _
  · exact Nat.le_add_left 1 ds.length

theorem lexeme_more_le (c : Char) (cs : List Char) : (lexeme c cs).more ≤ cs.length := by
  unfold lexeme
  split
  · exact (List.takeWhile_sublist _).length_le
  split
  · exact (List.takeWhile_sublist _).length_le
  split
  · have hle := (quotation_append cs []).2.2
    unfold stringLexeme
    dsimp only
    split <;> exact hle
  · cases hop : operator? c cs with
    | none => exact Nat.zero_le _
    | some lx => exact more_le_of_operator? hop

/-! ## Whole texts -/

/-- **The tokens of a text below another** come after those of the other, unless that ends in a
string that is never closed. -/
theorem lexemes_append_line (h : ∀ x ∈ (lexemes cs).getLast?, x.1 ≠ .illegal)
    (below : List Char) : lexemes (cs ++ '\n' :: below) = lexemes cs ++ lexemes below := by
  fun_induction lexemes cs with
  | case1 cs hnil =>
    have hle := layoutLength_le false cs
    have hge := List.drop_eq_nil_iff.1 hnil
    refine lexemes_congr ?_
    rw [layoutLength_append_line (by omega), ← List.drop_drop, ← List.drop_drop, List.drop_left,
      List.drop_one, List.tail_cons]
  | case2 cs c rest hcons ih =>
    have hlt : layoutLength false cs < cs.length := by
      refine Nat.lt_of_not_le fun hge => ?_
      rw [List.drop_eq_nil_of_le hge] at hcons
      cases hcons
    have hskip : (cs ++ '\n' :: below).drop (layoutLength false (cs ++ '\n' :: below)) =
        c :: (rest ++ '\n' :: below) := by
      rw [layoutLength_append hlt, List.drop_append_of_le_length (by omega), hcons,
        List.cons_append]
    have hhead : lexeme c (rest ++ '\n' :: below) = lexeme c rest := by
      refine lexeme_append_line (fun hkind => Nat.lt_of_not_le fun hge => ?_) below
      -- a token that takes all the rest is the last
      rw [List.drop_eq_nil_of_le hge, lexemes_nil] at h
      exact h _ rfl hkind
    rw [lexemes_eq_cons hskip, hhead, List.drop_append_of_le_length (lexeme_more_le c rest),
      ih ?_, List.cons_append]
    intro x hx
    refine h x ?_
    rw [List.getLast?_cons, Option.mem_def.1 hx]
    rfl

end Scriptlet.Token
