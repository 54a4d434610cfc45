import Mathlib.Data.List.Induction
import Mathlib.Data.List.TakeWhile
import Scriptlet.Proofs.Token.Stepwise
import Scriptlet.Proofs.Token.Written

/-!
# Tokens tile the text

The tokens of a text stand one behind the other, and nothing is between them but white space and
comments. Each of them is written where its place says: lines and columns count from 1, and a line
feed starts a new line also inside a string or at the end of a comment.

* `placeAt`: the place of an offset of a text.
* `Layout`: white space and comments.
* `Unescapes`: what stands between quotes, and what it stands for.
* `Spelled`: how a token is written.
* `Tiles`: tokens that tile a text from some offset on.
* `scan_tiles`: the main statement.
-/

namespace Scriptlet

/-! ## Places -/

/-- The place of the character at offset `n` of a text: a line for every line feed before it, and a
column for every character since the last of them. -/
def placeAt (text : List Char) (n : Nat) : Pos where
  line := 1 + (text.take n).count '\n'
  column := 1 + ((text.take n).reverse.takeWhile (· ≠ '\n')).length

theorem start_after (cs : List Char) : Pos.start.after cs =
    ⟨1 + cs.count '\n', 1 + (cs.reverse.takeWhile (· ≠ '\n')).length⟩ := by
  induction cs using List.reverseRecOn with
  | nil => rfl
  | append_singleton cs c ih =>
    rw [Pos.after_append, ih]
    by_cases hc : c = '\n'
    · subst hc
      simp [Pos.after, Pos.next, Int.add_assoc]
    · simp [Pos.after, Pos.next, hc, Int.add_assoc]

theorem placeAt_append (cs ds : List Char) : placeAt (cs ++ ds) cs.length = Pos.start.after cs := by
  rw [start_after, placeAt, List.take_left]

theorem placeAt_length (cs : List Char) : placeAt cs cs.length = Pos.start.after cs := by
  rw [start_after, placeAt, List.take_length]

namespace Token

variable {c : Char} {cs rest : List Char}

/-! ## Layout -/

/-- White space and comments before `after`. A comment goes on up to a line feed, or up to the end
of the text. -/
inductive Layout (after : List Char) : List Char → Prop
  | nil : Layout after []
  | space {c : Char} {cs : List Char} : c ∈ [' ', '\t', '\r', '\n'] → Layout after cs →
      Layout after (c :: cs)
  | comment {body cs : List Char} : '\n' ∉ body → (∀ d ∈ (cs ++ after).head?, d = '\n') →
      Layout after cs → Layout after ('#' :: body ++ cs)

theorem layout_take (cs : List Char) :
    Layout (cs.drop (layoutLength false cs)) (cs.take (layoutLength false cs)) := by
  -- a comment is taken at once, so the induction is on the number of characters
  induction hn : cs.length using Nat.strongRecOn generalizing cs with
  | ind n ih =>
  cases cs with
  | nil => exact .nil
  | cons c cs =>
    rw [List.length_cons] at hn
    rw [layoutLength_cons, if_neg Bool.false_ne_true]
    split
    · rename_i hspace
      rw [Nat.add_comm 1, List.take_succ_cons, List.drop_succ_cons]
      exact .space (by simpa [isSpace, or_assoc] using hspace) (ih _ (by omega) cs rfl)
    split
    · rename_i hmark
      rw [beq_iff_eq.1 hmark, layoutLength_comment]
      generalize hbody : cs.takeWhile (· != '\n') = body
      generalize hbelow : cs.dropWhile (· != '\n') = below
      have hcs : cs = body ++ below := by
        rw [← hbody, ← hbelow, List.takeWhile_append_dropWhile]
      have hlength : below.length < n := by
        rw [hcs, List.length_append] at hn
        omega
      rw [hcs, Nat.add_comm 1, List.take_succ_cons, List.drop_succ_cons,
        List.take_length_add_append, List.drop_length_add_append]
      refine .comment ?_ ?_ (ih _ hlength below rfl)
      · intro hmem
        rw [← hbody] at hmem
        simpa using List.mem_takeWhile_imp hmem
      · rw [List.take_append_drop, ← hbelow]
        intro d hd
        simpa [Option.mem_def.1 hd] using List.head?_dropWhile_not (· != '\n') cs
    · exact .nil

/-! ## Strings -/

/-- The characters between quotes, and the characters that they stand for. A backslash may end them
only if there is no closing quote. -/
inductive Unescapes (closed : Bool) : List Char → List Char → Prop
  | nil : Unescapes closed [] []
  | plain {c : Char} {raw content : List Char} : c ≠ '"' → c ≠ '\\' →
      Unescapes closed raw content → Unescapes closed (c :: raw) (c :: content)
  | escape {e c : Char} {raw content : List Char} : escape? e = some c →
      Unescapes closed raw content → Unescapes closed ('\\' :: e :: raw) (c :: content)
  | other {e : Char} {raw content : List Char} : escape? e = none →
      Unescapes closed raw content → Unescapes closed ('\\' :: e :: raw) ('\\' :: e :: content)
  | last : closed = false → Unescapes closed ['\\'] ['\\']

/-- A string ends on its closing quote, or goes on to the end of the text. -/
theorem quotation_spec (cs : List Char) :
    ((quotation cs).closed = true → ∃ raw, cs.take (quotation cs).length = raw ++ ['"'] ∧
        Unescapes true raw (quotation cs).content) ∧
      ((quotation cs).closed = false → Unescapes false cs (quotation cs).content) := by
  fun_induction quotation cs with
  | case1 => exact ⟨fun h => (Bool.false_ne_true h).elim, fun _ => .nil⟩
  | case2 cs => exact ⟨fun _ => ⟨[], rfl, .nil⟩, fun h => (Bool.false_ne_true h.symm).elim⟩
  | case3 e cs c he ih =>
    refine ⟨fun hclosed => ?_, fun hopen => .escape he (ih.2 hopen)⟩
    obtain ⟨raw, htake, hraw⟩ := ih.1 hclosed
    refine ⟨'\\' :: e :: raw, ?_, .escape he hraw⟩
    simp [Quotation.prepend, Nat.add_comm 2, htake]
  | case4 e cs he ih =>
    refine ⟨fun hclosed => ?_, fun hopen => .other he (ih.2 hopen)⟩
    obtain ⟨raw, htake, hraw⟩ := ih.1 hclosed
    refine ⟨'\\' :: e :: raw, ?_, .other he hraw⟩
    simp [Quotation.prepend, Nat.add_comm 2, htake]
  | case5 c cs hquote hescape ih =>
    refine ⟨fun hclosed => ?_, fun hopen => ?_⟩
    · obtain ⟨raw, htake, hraw⟩ := ih.1 hclosed
      have hslash : c ≠ '\\' := by
        rintro rfl
        cases cs with
        | nil => cases hclosed
        | cons e cs => exact hescape e cs rfl rfl
      refine ⟨c :: raw, ?_, .plain hquote hslash hraw⟩
      simp [Quotation.prepend, Nat.add_comm 1, htake]
    · by_cases hslash : c = '\\'
      · -- a backslash that makes no escape is the last character
        subst hslash
        cases cs with
        | nil => exact .last rfl
        | cons e cs => exact (hescape e cs rfl rfl).elim
      · exact .plain hquote hslash (ih.2 hopen)

/-! ## Tokens -/

/-- The characters `raw`, with `after` behind them, are how the token is written. A string is
written between quotes, one that is never closed goes on to the end of the text, and all other
tokens are written as they are. -/
inductive Spelled (t : Token) (raw after : List Char) : Prop
  | plain : raw.head? ≠ some '"' → t.kind ≠ .string → t.text.toList = raw → Spelled t raw after
  | string (inner : List Char) : t.kind = .string → raw = '"' :: inner ++ ['"'] →
      Unescapes true inner t.text.toList → Spelled t raw after
  | unclosed (inner content : List Char) : t.kind = .illegal → raw = '"' :: inner → after = [] →
      t.text.toList = '"' :: content → Unescapes false inner content → Spelled t raw after

theorem spelled_string (cs : List Char) (pos : Pos) :
    Spelled ⟨(stringLexeme cs).kind, String.ofList (stringLexeme cs).text, pos⟩
      ('"' :: cs.take (stringLexeme cs).more) (cs.drop (stringLexeme cs).more) := by
  obtain ⟨hclosed, hopen⟩ := quotation_spec cs
  cases h : (quotation cs).closed with
  | true =>
    have hlexeme : stringLexeme cs = ⟨.string, (quotation cs).content, (quotation cs).length⟩ :=
      if_pos h
    obtain ⟨inner, htake, hinner⟩ := hclosed h
    rw [hlexeme]
    refine .string inner rfl ?_ ?_
    · rw [htake, List.cons_append]
    · rwa [String.toList_ofList]
  | false =>
    have hlexeme : stringLexeme cs =
        ⟨.illegal, '"' :: (quotation cs).content, (quotation cs).length⟩ :=
      if_neg (by simp [h])
    have hlength := (quotation_append cs []).2.1 h
    rw [hlexeme, hlength, List.take_length, List.drop_length]
    refine .unclosed cs (quotation cs).content rfl rfl rfl ?_ (hopen h)
    rw [String.toList_ofList]

theorem wordKind_ne_string (word : String) : wordKind word ≠ .string := by
  unfold wordKind
  split <;> decide

theorem take_length_takeWhile (p : Char → Bool) (cs : List Char) :
    cs.take (cs.takeWhile p).length = cs.takeWhile p :=
  (List.prefix_iff_eq_take.1 (List.takeWhile_prefix p)).symm

/-- **A token is written where it is read.** -/
theorem spelled_lexeme (c : Char) (cs : List Char) (pos : Pos) :
    Spelled ⟨(lexeme c cs).kind, String.ofList (lexeme c cs).text, pos⟩
      (c :: cs.take (lexeme c cs).more) (cs.drop (lexeme c cs).more) := by
  by_cases hquote : c = '"'
  · subst hquote
    exact spelled_string cs pos
  have hhead : ∀ ds : List Char, (c :: ds).head? ≠ some '"' := by simpa using hquote
  rcases lexeme_cases c cs with ⟨-, hx⟩ | ⟨-, hx⟩ | ⟨hc, -⟩ | hop | hx
  · rw [hx]
    exact .plain (hhead _) (wordKind_ne_string _)
      (by rw [String.toList_ofList, take_length_takeWhile])
  · rw [hx]
    exact .plain (hhead _) Kind.noConfusion
      (by rw [String.toList_ofList, take_length_takeWhile])
  · exact (hquote hc).elim
  · refine .plain (hhead _) ?_ (by rw [String.toList_ofList, text_of_operator? hop])
    intro hkind
    have hmark := isMark_of_operator? hop
    rw [show (lexeme c cs).kind = .string from hkind] at hmark
    cases hmark
  · rw [hx]
    exact .plain (hhead _) Kind.noConfusion (by rw [String.toList_ofList, List.take_zero])

/-- The tokens tile the text from the offset `o` on: each of them stands behind the one before, with
layout in between, and the end of the text comes last. -/
inductive Tiles (text : List Char) : Nat → List Token → Prop
  | last {o : Nat} : Layout [] (text.drop o) → Tiles text o [eofAt (placeAt text text.length)]
  | cons {o s e : Nat} {t : Token} {ts : List Token} : o ≤ s → s < e → e ≤ text.length →
      Layout (text.drop s) (text.extract o s) → t.kind ≠ .eof →
      Spelled t (text.extract s e) (text.drop e) → t.pos = placeAt text s →
      Tiles text e ts → Tiles text o (t :: ts)

theorem extract_append (as bs cs : List Char) :
    (as ++ bs ++ cs).extract as.length (as ++ bs).length = bs := by
  simp [List.extract]

/-- One more token, with what is behind and what is ahead of it given as lists. -/
theorem Tiles.append {before gap raw behind : List Char} {t : Token} {ts : List Token}
    (hgap : Layout (raw ++ behind) gap) (hraw : raw ≠ []) (hkind : t.kind ≠ .eof)
    (hspelled : Spelled t raw behind) (hpos : t.pos = Pos.start.after (before ++ gap))
    (h : Tiles (before ++ gap ++ raw ++ behind) (before ++ gap ++ raw).length ts) :
    Tiles (before ++ gap ++ raw ++ behind) before.length (t :: ts) := by
  have hlength := List.length_pos_iff.2 hraw
  refine .cons (s := (before ++ gap).length) (e := (before ++ gap ++ raw).length) ?_ ?_ ?_ ?_ hkind
    ?_ ?_ h
  · simp
  · simp only [List.length_append]
    omega
  · simp only [List.length_append]
    omega
  · rw [List.append_assoc _ raw, List.drop_left, extract_append]
    exact hgap
  · rw [List.drop_left, extract_append]
    exact hspelled
  · rw [List.append_assoc _ raw, placeAt_append, hpos]

/-- **What one token takes of the text**: layout, and then how it is written. -/
theorem exists_spelled_next {k : Cursor} (h : k.skipLayout.ahead = c :: rest) :
    ∃ gap raw behind, k.ahead = gap ++ (raw ++ behind) ∧ raw ≠ [] ∧ Layout (raw ++ behind) gap ∧
      k.next.1.kind ≠ .eof ∧ Spelled k.next.1 raw behind ∧ k.next.1.pos = k.pos.after gap ∧
      k.next.2 = ⟨behind, k.pos.after (gap ++ raw)⟩ := by
  have hdrop : k.ahead.drop (layoutLength false k.ahead) = c :: rest := h
  have hlayout := layout_take k.ahead
  have hnext : k.next = (⟨(lexeme c rest).kind, String.ofList (lexeme c rest).text,
      k.skipLayout.pos⟩, k.skipLayout.skip (1 + (lexeme c rest).more)) := by
    simp [Cursor.next, Cursor.read, h]
  have htake :
      c :: rest.take (lexeme c rest).more ++ rest.drop (lexeme c rest).more = c :: rest := by
    rw [List.cons_append, List.take_append_drop]
  refine ⟨k.ahead.take (layoutLength false k.ahead), c :: rest.take (lexeme c rest).more,
    rest.drop (lexeme c rest).more, ?_, List.cons_ne_nil _ _, ?_, ?_, ?_, ?_, ?_⟩
  · rw [htake, ← hdrop, List.take_append_drop]
  · rwa [htake, ← hdrop]
  · rw [hnext]
    exact lexeme_kind_ne_eof c rest
  · rw [hnext]
    exact spelled_lexeme c rest _
  · rw [hnext]
    rfl
  · rw [hnext, Pos.after_append, Cursor.skip, h, Nat.add_comm 1, List.take_succ_cons,
      List.drop_succ_cons]
    rfl

theorem tiles_tokens (before : List Char) (k : Cursor) (hpos : k.pos = Pos.start.after before) :
    Tiles (before ++ k.ahead) before.length k.tokens := by
  fun_induction Cursor.tokens k generalizing before with
  | case1 k hend =>
    have hlayout := layout_take k.ahead
    have hdrop : k.ahead.drop (layoutLength false k.ahead) = [] := hend
    have htake : k.ahead.take (layoutLength false k.ahead) = k.ahead :=
      List.take_of_length_le (List.drop_eq_nil_iff.1 hdrop)
    have hplace : k.skipLayout.pos = placeAt (before ++ k.ahead) (before ++ k.ahead).length := by
      rw [placeAt_length, Pos.after_append, ← hpos, Cursor.skipLayout, Cursor.skip, htake]
    rw [hdrop, htake] at hlayout
    rw [hplace]
    exact .last (by rwa [List.drop_left])
  | case2 k first rest hahead ih =>
    obtain ⟨gap, raw, behind, htext, hraw, hgap, hkind, hspelled, hplace, hnext⟩ :=
      exists_spelled_next hahead
    have hrest := ih (before ++ gap ++ raw) (by simp only [hnext, hpos, Pos.after_append])
    rw [hnext] at hrest ⊢
    rw [htext]
    have happend := Tiles.append hgap hraw hkind hspelled
      (by rw [hplace, Pos.after_append, hpos]) hrest
    simpa only [List.append_assoc] using happend

/-- **Tokens tile the text.** -/
theorem scan_tiles (source : String) :
    (∃ r, Reader.ReadsAll ⟨source.toList, 0, .start⟩ (scan source) r ∧
      (Reader.mk source.toList 0 .start).tokens = .ok (scan source, r)) ∧
    Tiles source.toList 0 (scan source) := by
  refine ⟨⟨_, Reader.readsAll_scan source, Reader.tokens_scan source⟩, ?_⟩
  exact tiles_tokens [] ⟨source.toList, .start⟩ rfl

end Token

end Scriptlet
