import Scriptlet.Proofs.Token.Lines
import Scriptlet.Token.Reader

/-!
# Scanning one character after the other

A scan looks at the character at the head, and moves over it by a read that fails at the end of the
text. Here the scan is written out that way, read by read. Every read comes after a look that tells
that there is something to read, so none of them fails, and the tokens are the ones of the text.

* `Reader.readWhile`, `passLayout`, `readString`, `readOperator?`, `readToken`: the scan, read by
  read.
* `Reader.ReadsAll`: tokens are read, one after the other, up to the end of the text.
* `between`: a reader inside a text, with what is behind its head and what is ahead.
* `readToken_cursor`: a token is what a cursor reads, and the head is then behind it.
* `readsAll_scan`: so the whole text is read, and no read fails.
-/

namespace Scriptlet

theorem Pos.after_append (p : Pos) (cs ds : List Char) :
    p.after (cs ++ ds) = (p.after cs).after ds := List.foldl_append

namespace Token

/-- An operator is written as it stands in the text. -/
theorem text_of_operator? {c : Char} {cs : List Char} {lx : Lexeme}
    (h : operator? c cs = some lx) : lx.text = c :: cs.take lx.more := by
  rcases operator?_cases h with ⟨kind, -, rfl⟩ | ⟨d, ds, kind, rfl, -, rfl⟩
  · rfl
  · rfl

/-- A comment goes on to the end of its line. -/
theorem layoutLength_comment (cs : List Char) :
    layoutLength true cs = (cs.takeWhile (· != '\n')).length +
      layoutLength false (cs.dropWhile (· != '\n')) := by
  induction cs with
  | nil => rfl
  | cons c cs ih =>
    by_cases hc : c = '\n'
    · subst hc
      simp [layoutLength, isSpace]
    · have hgo : (c != '\n') = true := by simpa using hc
      rw [layoutLength_cons, if_pos rfl, hgo, ih, List.takeWhile_cons_of_pos (p := (· != '\n')) hgo,
        List.dropWhile_cons_of_pos (p := (· != '\n')) hgo, List.length_cons]
      omega

theorem Cursor.skip_skip (c : Cursor) (n m : Nat) : (c.skip n).skip m = c.skip (n + m) := by
  simp [skip, List.take_add, Pos.after_append]

namespace Reader

variable {r r' : Reader} {c : Char}

/-! ## The scan, read by read -/

/-- The number of characters from the head to the end of the text. -/
def remaining (r : Reader) : Nat := (r.text.length - r.offset).toNat

theorem remaining_of_advance (h : r.advance = .ok (c, r')) : r'.remaining < r.remaining := by
  unfold advance at h
  by_cases hend : r.atEnd = true
  · rw [if_pos hend] at h
    cases h
  · rw [if_neg hend] at h
    simp only [atEnd, decide_eq_true_eq] at hend
    dsimp only at h
    generalize (if r.offset < 0 then r.offset + (r.text.length : Int) else r.offset) = index at h
    split at h
    · cases h
      simp only [remaining]
      omega
    · cases h

/-- Reads characters for as long as there are any and the one at the head satisfies `p`. -/
def readWhile (p : Option Char → Bool) (r : Reader) : Except ReadError (List Char × Reader) :=
  if !r.atEnd && p (r.peek 0) then
    match _h : r.advance with
    | .error e => .error e
    | .ok (c, r₁) =>
      match readWhile p r₁ with
      | .error e => .error e
      | .ok (cs, r₂) => .ok (c :: cs, r₂)
  else .ok ([], r)
termination_by r.remaining
decreasing_by exact remaining_of_advance _h

theorem remaining_of_readWhile {p : Option Char → Bool} {cs : List Char}
    (h : r.readWhile p = .ok (cs, r')) : r'.remaining ≤ r.remaining := by
  fun_induction readWhile p r generalizing cs with
  | case1 => cases h
  | case2 => cases h
  | case3 r hgo c r₁ hadvance cs₁ r₂ hread ih =>
    cases h
    exact Nat.le_trans (ih hread) (Nat.le_of_lt (remaining_of_advance hadvance))
  | case4 =>
    cases h
    exact Nat.le_refl _

/-- What reads at least one character has fewer left. -/
theorem remaining_of_readWhile_lt {p : Option Char → Bool} {cs : List Char}
    (hgo : (!r.atEnd && p (r.peek 0)) = true) (h : r.readWhile p = .ok (cs, r')) :
    r'.remaining < r.remaining := by
  rw [readWhile, if_pos hgo] at h
  split at h
  · cases h
  · rename_i hadvance
    split at h
    · cases h
    · rename_i hread
      cases h
      exact Nat.lt_of_le_of_lt (remaining_of_readWhile hread) (remaining_of_advance hadvance)

/-- Moves over white space, and over comments up to the end of their line. Where there is nothing to
look at, that counts as white space. -/
def passLayout (r : Reader) : Except ReadError Reader :=
  if _hend : r.atEnd then .ok r
  else if (r.peek 0).all isSpace then
    match _h : r.advance with
    | .error e => .error e
    | .ok (_, r₁) => passLayout r₁
  else if _hmark : r.peek 0 = some '#' then
    match _h : r.readWhile (· != some '\n') with
    | .error e => .error e
    | .ok (_, r₁) => passLayout r₁
  else .ok r
termination_by r.remaining
decreasing_by
  · exact remaining_of_advance _h
  · exact remaining_of_readWhile_lt (by simp [_hend, _hmark]) _h

theorem passLayout_of_advance (hend : r.atEnd = false) (hspace : (r.peek 0).all isSpace)
    (h : r.advance = .ok (c, r')) : r.passLayout = r'.passLayout := by
  rw [passLayout, dif_neg (by simp [hend]), if_pos hspace]
  split
  · rename_i herror
    rw [h] at herror
    cases herror
  · rename_i hread
    rw [h] at hread
    cases hread
    rfl

theorem passLayout_of_comment {cs : List Char} (hend : r.atEnd = false)
    (hmark : r.peek 0 = some '#') (h : r.readWhile (· != some '\n') = .ok (cs, r')) :
    r.passLayout = r'.passLayout := by
  rw [passLayout, dif_neg (by simp [hend]), if_neg (by simp [hmark, isSpace]), dif_pos hmark]
  split
  · rename_i herror
    rw [h] at herror
    cases herror
  · rename_i hread
    rw [h] at hread
    cases hread
    rfl

/-- Reads a string up to its closing quote, or up to the end of the text if it has none. The head is
behind the opening quote, and `content` is what was read since. -/
def readString (content : List Char) (r : Reader) :
    Except ReadError (Kind × List Char × Reader) :=
  if r.atEnd then .ok (.illegal, '"' :: content, r)
  else
    match _h : r.advance with
    | .error e => .error e
    | .ok (c, r₁) =>
      if c == '"' then .ok (.string, content, r₁)
      else if c == '\\' && !r₁.atEnd then
        match _h₁ : r₁.advance with
        | .error e => .error e
        | .ok (e, r₂) => readString (content ++ ((escape? e).map ([·])).getD ['\\', e]) r₂
      else readString (content ++ [c]) r₁
termination_by r.remaining
decreasing_by
  · exact Nat.lt_trans (remaining_of_advance _h₁) (remaining_of_advance _h)
  · exact remaining_of_advance _h

theorem readString_of_advance {content : List Char} (hend : r.atEnd = false)
    (h : r.advance = .ok (c, r')) :
    r.readString content =
      if c == '"' then .ok (.string, content, r')
      else if c == '\\' && !r'.atEnd then
        match r'.advance with
        | .error e => .error e
        | .ok (e, r₂) => readString (content ++ ((escape? e).map ([·])).getD ['\\', e]) r₂
      else readString (content ++ [c]) r' := by
  rw [readString, if_neg (by simp [hend])]
  split
  · rename_i herror
    rw [h] at herror
    cases herror
  · rename_i hread
    rw [h] at hread
    cases hread
    split
    · rfl
    split
    · split <;> rename_i hnext <;> rw [hnext]
    · rfl

/-- Moves over `n` characters. -/
def advanceBy : Nat → Reader → Except ReadError Reader
  | 0, r => .ok r
  | n + 1, r => do
    let (_, r₁) ← r.advance
    advanceBy n r₁

/-- The longest operator at the head, if there is one. -/
def operatorAhead? (r : Reader) : Option (Kind × List Char) := do
  let c ← r.peek 0
  let long := do
    let d ← r.peek 1
    return (← operator₂ c d, [c, d])
  long <|> (operator₁ c).map (·, [c])

/-- Reads the longest operator at the head, if there is one. -/
def readOperator? (r : Reader) : Except ReadError (Option (Token × Reader)) :=
  match r.operatorAhead? with
  | none => return none
  | some (kind, text) => do
    let r₁ ← r.advanceBy text.length
    return some (⟨kind, String.ofList text, r.pos⟩, r₁)

/-- Reads the token that starts at the head. -/
def readHere (r : Reader) : Except ReadError (Token × Reader) := do
  if r.atEnd then return (eofAt r.pos, r)
  if (r.peek 0).any isLetter then
    let (word, r₁) ← r.readWhile (·.any isWordChar)
    return (⟨wordKind (String.ofList word), String.ofList word, r.pos⟩, r₁)
  if (r.peek 0).any isDigit then
    let (number, r₁) ← r.readWhile (·.any isDigit)
    return (⟨.int, String.ofList number, r.pos⟩, r₁)
  if r.peek 0 = some '"' then
    let (_, r₁) ← r.advance
    let (kind, text, r₂) ← r₁.readString []
    return (⟨kind, String.ofList text, r.pos⟩, r₂)
  match ← r.readOperator? with
  | some read => return read
  | none =>
    let (c, r₁) ← r.advance
    return (⟨.illegal, String.ofList [c], r.pos⟩, r₁)

/-- Reads the next token, after any layout. -/
def readToken (r : Reader) : Except ReadError (Token × Reader) := do
  (← r.passLayout).readHere

/-- Tokens are read one after the other, none of them in vain, up to the end of the text. -/
inductive ReadsAll : Reader → List Token → Reader → Prop
  | last {r r' : Reader} {t : Token} : r.readToken = .ok (t, r') → t.kind = .eof → ReadsAll r [t] r'
  | cons {r r₁ r' : Reader} {t : Token} {ts : List Token} : r.readToken = .ok (t, r₁) →
      t.kind ≠ .eof → ReadsAll r₁ ts r' → ReadsAll r (t :: ts) r'

/-! ## Inside a text -/

/-- The reader behind `before`, with `ahead` to come. -/
def between (before ahead : List Char) (pos : Pos) : Reader :=
  ⟨before ++ ahead, before.length, pos⟩

section

variable (before ahead : List Char) (pos : Pos)

theorem atEnd_between : (between before ahead pos).atEnd = ahead.isEmpty := by
  cases ahead with
  | nil => simp [between, atEnd]
  | cons c cs =>
    simp only [between, atEnd, List.length_append, List.length_cons, List.isEmpty_cons,
      decide_eq_false_iff_not]
    omega

theorem peek_between (k : Nat) : (between before ahead pos).peek k = ahead[k]? := by
  have hindex : ((before.length : Int) + k).toNat = before.length + k := by omega
  simp [between, peek, hindex, List.getElem?_append_right, Int.add_nonneg]

theorem advance_between (c : Char) (cs : List Char) :
    (between before (c :: cs) pos).advance = .ok (c, between (before ++ [c]) cs (pos.next c)) := by
  have hend := atEnd_between before (c :: cs) pos
  have hoffset : ¬ (before.length : Int) < 0 := by omega
  rw [advance, hend]
  simp [between, hoffset]

theorem readWhile_between (p : Char → Bool) {q : Option Char → Bool}
    (hq : ∀ c, q (some c) = p c) :
    (between before ahead pos).readWhile q =
      .ok (ahead.takeWhile p, between (before ++ ahead.takeWhile p) (ahead.dropWhile p)
        (pos.after (ahead.takeWhile p))) := by
  induction ahead generalizing before pos with
  | nil =>
    rw [readWhile, atEnd_between]
    simp [Pos.after]
  | cons c cs ih =>
    have hpeek : (between before (c :: cs) pos).peek 0 = some c := peek_between before _ pos 0
    rw [readWhile, atEnd_between, hpeek, hq]
    by_cases hc : p c = true
    · have hstep := advance_between before pos c cs
      rw [if_pos (by simp [hc])]
      split
      · rename_i herror
        rw [hstep] at herror
        cases herror
      · rename_i hread
        rw [hstep] at hread
        cases hread
        rw [ih]
        simp [hc, Pos.after]
    · rw [if_neg (by simp [hc])]
      simp [hc, Pos.after]

/-- The reader inside a text after `n` more characters. -/
def onward (n : Nat) : Reader :=
  between (before ++ ahead.take n) (ahead.drop n) (pos.after (ahead.take n))

theorem onward_zero : onward before ahead pos 0 = between before ahead pos := by
  simp [onward, Pos.after]

theorem onward_add (n m : Nat) :
    onward before ahead pos (n + m) =
      onward (before ++ ahead.take n) (ahead.drop n) (pos.after (ahead.take n)) m := by
  simp only [onward, List.take_add, List.append_assoc, List.drop_drop, Pos.after_append]

theorem onward_append (cs : List Char) (n : Nat) :
    onward before (cs ++ ahead) pos (cs.length + n) =
      onward (before ++ cs) ahead (pos.after cs) n := by
  rw [onward_add, List.take_left, List.drop_left]

theorem passLayout_between : (between before ahead pos).passLayout =
    .ok (onward before ahead pos (layoutLength false ahead)) := by
  -- a comment is passed at once, so the induction is on the number of characters
  induction hn : ahead.length using Nat.strongRecOn generalizing before ahead pos with
  | ind n ih =>
  cases ahead with
  | nil =>
    have hend : (between before [] pos).atEnd = true := atEnd_between before [] pos
    rw [passLayout, dif_pos hend]
    exact congrArg Except.ok (onward_zero before [] pos).symm
  | cons c cs =>
    have hend : (between before (c :: cs) pos).atEnd = false := atEnd_between before _ pos
    have hpeek : (between before (c :: cs) pos).peek 0 = some c := peek_between before _ pos 0
    rw [List.length_cons] at hn
    by_cases hspace : isSpace c = true
    · rw [passLayout_of_advance hend (by simpa [hpeek] using hspace)
        (advance_between before pos c cs), ih _ (by omega) _ _ _ rfl, layoutLength_cons,
        if_neg Bool.false_ne_true, if_pos hspace]
      exact congrArg Except.ok (onward_append before cs pos [c] _).symm
    by_cases hmark : c = '#'
    · subst hmark
      have hread := readWhile_between before ('#' :: cs) pos (· != '\n')
        (q := (· != some '\n')) (fun _ => rfl)
      have hlength : (cs.dropWhile (· != '\n')).length < n :=
        Nat.lt_of_le_of_lt (List.dropWhile_sublist _).length_le (by omega)
      rw [List.takeWhile_cons_of_pos (by decide), List.dropWhile_cons_of_pos (by decide)] at hread
      rw [passLayout_of_comment hend hpeek hread, ih _ hlength _ _ _ rfl, ← onward_append,
        List.cons_append, List.takeWhile_append_dropWhile, layoutLength_cons,
        if_neg Bool.false_ne_true, if_neg hspace, if_pos (beq_self_eq_true '#'),
        layoutLength_comment cs,
        List.length_cons, ← Nat.add_assoc, Nat.add_comm 1]
    · rw [passLayout, dif_neg (by simp [hend]), hpeek, if_neg (by simpa using hspace),
        dif_neg (by simpa using hmark), layoutLength_cons, if_neg Bool.false_ne_true,
        if_neg hspace, if_neg (by simpa using hmark), onward_zero]

/-- A backslash is read together with what comes after it. -/
theorem readString_escape (content : List Char) (e : Char) (cs : List Char) :
    (between before ('\\' :: e :: cs) pos).readString content =
      (between (before ++ ['\\', e]) cs (pos.after ['\\', e])).readString
        (content ++ ((escape? e).map ([·])).getD ['\\', e]) := by
  have hend : (between before ('\\' :: e :: cs) pos).atEnd = false := atEnd_between before _ pos
  rw [readString_of_advance hend (advance_between before pos '\\' (e :: cs)),
    if_neg (by decide), atEnd_between, if_pos (by simp), advance_between, List.append_assoc]
  rfl

/-- What a string comes to, by what follows its opening quote. -/
theorem readString_between (content : List Char) :
    (between before ahead pos).readString content =
      .ok (if (quotation ahead).closed then .string else .illegal,
        (if (quotation ahead).closed then [] else ['"']) ++ (content ++ (quotation ahead).content),
        onward before ahead pos (quotation ahead).length) := by
  fun_induction quotation ahead generalizing before pos content with
  | case1 =>
    have hend : (between before [] pos).atEnd = true := atEnd_between before [] pos
    rw [readString, if_pos hend, onward_zero]
    simp
  | case2 cs =>
    have hend : (between before ('"' :: cs) pos).atEnd = false := atEnd_between before _ pos
    rw [readString_of_advance hend (advance_between before pos '"' cs),
      if_pos (beq_self_eq_true '"')]
    simp [onward, Pos.after]
  | case3 e cs c he ih =>
    have honward := onward_append before cs pos ['\\', e] (quotation cs).length
    rw [readString_escape, he, ih, ← honward]
    simp only [Quotation.prepend, Option.map_some, Option.getD_some, List.append_assoc]
    rfl
  | case4 e cs he ih =>
    have honward := onward_append before cs pos ['\\', e] (quotation cs).length
    rw [readString_escape, he, ih, ← honward]
    simp only [Quotation.prepend, Option.map_none, Option.getD_none, List.append_assoc]
    rfl
  | case5 c cs hquote hescape ih =>
    have hend : (between before (c :: cs) pos).atEnd = false := atEnd_between before _ pos
    -- a backslash that is read alone is the last character
    have halone : ¬ (c == '\\' && !(between (before ++ [c]) cs (pos.next c)).atEnd) = true := by
      rw [atEnd_between]
      cases cs with
      | nil => simp
      | cons e cs => simpa using fun hc => hescape e cs hc rfl
    have honward := onward_append before cs pos [c] (quotation cs).length
    rw [readString_of_advance hend (advance_between before pos c cs),
      if_neg (by simpa using hquote), if_neg halone, ih]
    simp only [Quotation.prepend, List.append_assoc]
    exact congrArg (fun r => Except.ok (_, _, r)) honward.symm

theorem advanceBy_between {n : Nat} (hn : n ≤ ahead.length) :
    (between before ahead pos).advanceBy n = .ok (onward before ahead pos n) := by
  induction n generalizing before ahead pos with
  | zero => exact congrArg Except.ok (onward_zero before ahead pos).symm
  | succ n ih =>
    cases ahead with
    | nil => cases hn
    | cons c cs =>
      have honward := onward_append before cs pos [c] n
      rw [advanceBy, advance_between, Nat.add_comm n 1]
      exact (ih _ _ _ (Nat.le_of_succ_le_succ hn)).trans (congrArg Except.ok honward.symm)

theorem operatorAhead?_between (c : Char) (cs : List Char) :
    (between before (c :: cs) pos).operatorAhead? =
      (operator? c cs).map fun lx => (lx.kind, lx.text) := by
  have hhere : (between before (c :: cs) pos).peek 0 = some c := peek_between before _ pos 0
  have hnext : (between before (c :: cs) pos).peek 1 = cs[0]? := peek_between before _ pos 1
  rw [operatorAhead?, hhere, hnext]
  cases cs with
  | nil => cases h : operator₁ c <;> simp [operator?, h]
  | cons d cs => cases h : operator₂ c d <;> cases h' : operator₁ c <;> simp [operator?, h, h']

theorem readOperator?_between (c : Char) (cs : List Char) :
    (between before (c :: cs) pos).readOperator? =
      .ok ((operator? c cs).map fun lx =>
        (⟨lx.kind, String.ofList lx.text, pos⟩, onward before (c :: cs) pos (1 + lx.more))) := by
  rw [readOperator?, operatorAhead?_between]
  cases h : operator? c cs with
  | none => rfl
  | some lx =>
    have hmore := more_le_of_operator? h
    have hlength : lx.text.length = 1 + lx.more := by
      rw [text_of_operator? h, List.length_cons, List.length_take_of_le hmore, Nat.add_comm]
    have hmore : 1 + lx.more ≤ (c :: cs).length := by
      rw [List.length_cons]
      omega
    simp only [Option.map_some, hlength, advanceBy_between _ _ _ hmore]
    rfl

theorem onward_takeWhile (p : Char → Bool) :
    between (before ++ ahead.takeWhile p) (ahead.dropWhile p) (pos.after (ahead.takeWhile p)) =
      onward before ahead pos (ahead.takeWhile p).length := by
  have honward := onward_append before (ahead.dropWhile p) pos (ahead.takeWhile p) 0
  rw [List.takeWhile_append_dropWhile, onward_zero] at honward
  exact honward.symm

/-- A token is read off what is ahead. -/
theorem readHere_between (c : Char) (cs : List Char) :
    (between before (c :: cs) pos).readHere =
      .ok (⟨(lexeme c cs).kind, String.ofList (lexeme c cs).text, pos⟩,
        onward before (c :: cs) pos (1 + (lexeme c cs).more)) := by
  have hend : (between before (c :: cs) pos).atEnd = false := atEnd_between before _ pos
  have hpeek : (between before (c :: cs) pos).peek 0 = some c := peek_between before _ pos 0
  have hpos : (between before (c :: cs) pos).pos = pos := rfl
  simp only [readHere, hend, hpeek, hpos, Option.any_some, Option.some.injEq]
  by_cases hletter : isLetter c = true
  · have hword : isWordChar c = true := by simp [isWordChar, hletter]
    have hlexeme : lexeme c cs = ⟨wordKind (String.ofList (c :: cs.takeWhile isWordChar)),
        c :: cs.takeWhile isWordChar, (cs.takeWhile isWordChar).length⟩ := if_pos hletter
    rw [if_neg Bool.false_ne_true, if_pos hletter,
      readWhile_between before (c :: cs) pos isWordChar (fun _ => rfl), onward_takeWhile,
      List.takeWhile_cons_of_pos hword, hlexeme, List.length_cons, Nat.add_comm 1]
    rfl
  by_cases hdigit : isDigit c = true
  · have hlexeme : lexeme c cs =
        ⟨.int, c :: cs.takeWhile isDigit, (cs.takeWhile isDigit).length⟩ :=
      (if_neg hletter).trans (if_pos hdigit)
    rw [if_neg Bool.false_ne_true, if_neg hletter, if_pos hdigit,
      readWhile_between before (c :: cs) pos isDigit (fun _ => rfl), onward_takeWhile,
      List.takeWhile_cons_of_pos hdigit, hlexeme, List.length_cons, Nat.add_comm 1]
    rfl
  by_cases hquote : c = '"'
  · subst hquote
    have honward := onward_append before cs pos ['"'] (quotation cs).length
    have hlexeme : lexeme '"' cs = stringLexeme cs := rfl
    have hread := readString_between (before ++ ['"']) cs (pos.next '"') []
    rw [if_neg Bool.false_ne_true, if_neg hletter, if_neg hdigit, if_pos rfl, advance_between,
      hlexeme, stringLexeme]
    show (do
      let (kind, text, r₂) ← (between (before ++ ['"']) cs (pos.next '"')).readString []
      return (⟨kind, String.ofList text, pos⟩, r₂) : Except ReadError (Token × Reader)) = _
    rw [hread]
    cases (quotation cs).closed with
    | true => exact congrArg (fun r => Except.ok (_, r)) honward.symm
    | false => exact congrArg (fun r => Except.ok (_, r)) honward.symm
  · have hlexeme : lexeme c cs = (operator? c cs).getD ⟨.illegal, [c], 0⟩ :=
      (if_neg hletter).trans ((if_neg hdigit).trans (if_neg (by simpa using hquote)))
    rw [if_neg Bool.false_ne_true, if_neg hletter, if_neg hdigit, if_neg hquote,
      readOperator?_between, advance_between, hlexeme]
    cases operator? c cs with
    | some lx => rfl
    | none => rfl

end

variable (before : List Char)

theorem readHere_cursor (c : Cursor) : ∃ n, c.read.2 = c.skip n ∧
    (between before c.ahead c.pos).readHere = .ok (c.read.1, onward before c.ahead c.pos n) := by
  obtain ⟨ahead, pos⟩ := c
  cases ahead with
  | nil =>
    have hend : (between before [] pos).atEnd = true := atEnd_between before [] pos
    refine ⟨0, rfl, ?_⟩
    rw [readHere, if_pos hend, onward_zero]
    rfl
  | cons c cs => exact ⟨_, rfl, readHere_between before pos c cs⟩

/-- **The next token, read by read**, and the head behind it, are those of the cursor. -/
theorem readToken_cursor (c : Cursor) : ∃ n, c.next.2 = c.skip n ∧
    (between before c.ahead c.pos).readToken = .ok (c.next.1, onward before c.ahead c.pos n) := by
  obtain ⟨m, hcursor, hread⟩ :=
    readHere_cursor (before ++ c.ahead.take (layoutLength false c.ahead)) c.skipLayout
  refine ⟨layoutLength false c.ahead + m, ?_, ?_⟩
  · rw [← Cursor.skip_skip]
    exact hcursor
  · rw [readToken, passLayout_between, onward_add]
    exact hread

theorem readsAll_cursor (c : Cursor) :
    ReadsAll (between before c.ahead c.pos) c.tokens
      (between (before ++ c.ahead) [] (c.pos.after c.ahead)) := by
  fun_induction Cursor.tokens c generalizing before with
  | case1 c hend =>
    obtain ⟨n, hcursor, hread⟩ := readToken_cursor before c
    have hnext : c.next = (eofAt c.skipLayout.pos, c.skipLayout) := by
      simp [Cursor.next, Cursor.read, hend]
    have hdrop : c.ahead.drop n = [] := by
      have hahead := congrArg Cursor.ahead hcursor
      rw [hnext, hend] at hahead
      exact hahead.symm
    rw [hnext, onward, hdrop, List.take_of_length_le (List.drop_eq_nil_iff.1 hdrop)] at hread
    exact .last hread rfl
  | case2 c first rest hahead ih =>
    obtain ⟨n, hcursor, hread⟩ := readToken_cursor before c
    refine .cons hread ?_ ?_
    · simp only [Cursor.next, Cursor.read, hahead]
      exact lexeme_kind_ne_eof first rest
    · have hrest := ih (before ++ c.ahead.take n)
      rw [hcursor] at hrest ⊢
      simpa only [Cursor.skip, onward, List.append_assoc, List.take_append_drop,
        ← Pos.after_append] using hrest

/-- **A text is read up to its end**, token after token, and no read fails. -/
theorem readsAll_scan (source : String) :
    ReadsAll ⟨source.toList, 0, .start⟩ (scan source)
      ⟨source.toList, source.toList.length, Pos.start.after source.toList⟩ := by
  have h := readsAll_cursor [] ⟨source.toList, .start⟩
  simpa [between, scan] using h

/-- The tokens of a reader at the start of a text are those that are read one after the other. -/
theorem tokens_scan (source : String) :
    (Reader.mk source.toList 0 .start).tokens =
      .ok (scan source,
        ⟨source.toList, source.toList.length, Pos.start.after source.toList⟩) := by
  have hmove : (Reader.mk source.toList 0 .start).moveTo
      ((Cursor.mk source.toList .start).skip source.toList.length) =
      ⟨source.toList, source.toList.length, Pos.start.after source.toList⟩ := by
    simp [moveTo, cursor, Cursor.skip]
  exact congrArg (fun r => Except.ok (scan source, r)) hmove

end Reader

end Token

end Scriptlet
