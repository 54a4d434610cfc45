import Scriptlet.Proofs.Session.Delimiters
import Scriptlet.Session.Input

/-!
# Whole inputs

A session takes lines until their tokens close what they open, and not one line more.

* `Completes`: the fewest lines that leave nothing open.
* `completes_of_readInput`: these are the lines that an input is made of.
* `openers_le_closers_of_readInput`: the main statement, about tokens. A line feed that is escaped
  in a string is excepted.
* `readInput_escapedLineFeed`: with one, an input may end while parentheses are open.
-/

namespace Scriptlet.Session

open Token (scan)

variable {settings : Settings} {pending lines prompts : List String} {line text : String}
  {left : List Event} {k : Nat}

/-! ## The lines of an input -/

/-- The text of some lines. -/
def joined (lines : List String) : String := "\n".intercalate lines

/-- The first `k` lines, behind those that are pending, are the fewest that leave no delimiter
open. -/
structure Completes (pending lines : List String) (k : Nat) : Prop where
  pos : 1 ≤ k
  le_length : k ≤ lines.length
  closed : openDelimiters (joined (pending ++ lines.take k)) ≤ 0
  unclosed : ∀ j, 1 ≤ j → j < k → 0 < openDelimiters (joined (pending ++ lines.take j))

theorem Completes.first (h : openDelimiters (joined (pending ++ [line])) ≤ 0) :
    Completes pending (line :: lines) 1 where
  pos := le_rfl
  le_length := by simp
  closed := by simpa using h
  unclosed := by
    intro j hpos hlt
    omega

theorem Completes.cons (hopen : 0 < openDelimiters (joined (pending ++ [line])))
    (h : Completes (pending ++ [line]) lines k) : Completes pending (line :: lines) (k + 1) where
  pos := by omega
  le_length := by
    have hle := h.le_length
    simp only [List.length_cons]
    omega
  closed := by simpa using h.closed
  unclosed := by
    intro j hpos hlt
    obtain ⟨i, rfl⟩ : ∃ i, j = i + 1 := ⟨j - 1, by omega⟩
    cases i with
    | zero => simpa using hopen
    | succ i => simpa using h.unclosed (i + 1) (by omega) (by omega)

/-- What a line makes of the lines before it. -/
theorem accept_cases (pending : List String) (line : String) :
    accept pending line = .leave ∨
      (openDelimiters (joined (pending ++ [line])) ≤ 0 ∧
        accept pending line = .source (Text.strip (joined (pending ++ [line])))) ∨
      (0 < openDelimiters (joined (pending ++ [line])) ∧
        accept pending line = .more (pending ++ [line])) := by
  by_cases hleave : (isFarewell line && pending.isEmpty) = true
  · left
    exact if_pos hleave
  right
  by_cases hopen : openDelimiters (joined (pending ++ [line])) ≤ 0
  · left
    refine ⟨hopen, ?_⟩
    unfold accept
    rw [if_neg hleave]
    exact if_pos hopen
  · right
    refine ⟨by omega, ?_⟩
    unfold accept
    rw [if_neg hleave]
    exact if_neg hopen

/-- **An input is made of the fewest lines that leave nothing open.** One prompt is shown for each
of them. -/
theorem completes_of_readInput
    (h : readInput settings pending (lines.map .line) = (.source text, prompts, left)) :
    Completes pending lines prompts.length ∧
      text = Text.strip (joined (pending ++ lines.take prompts.length)) ∧
      left = (lines.drop prompts.length).map .line := by
  induction lines generalizing pending prompts with
  | nil => cases h
  | cons line lines ih =>
    simp only [List.map_cons, readInput] at h
    rcases accept_cases pending line with haccept | ⟨hopen, haccept⟩ | ⟨hopen, haccept⟩
    · rw [haccept] at h
      cases h
    · rw [haccept] at h
      cases h
      exact ⟨.first hopen, by simp, by simp⟩
    · rw [haccept] at h
      simp only [Prod.mk.injEq] at h
      obtain ⟨hreading, rfl, rfl⟩ := h
      obtain ⟨hlines, htext, hleft⟩ := ih (Prod.ext hreading rfl)
      exact ⟨hlines.cons hopen, by simpa using htext, by simpa using hleft⟩

/-! ## Blanks around a text -/

theorem neutral_of_isBlank {c : Char} (h : Text.isBlank c) : Neutral c := neutral_of_class h rfl

theorem exists_trim (p : Char → Bool) (cs : List Char) : ∃ front back,
    cs = front ++ Text.trim p cs ++ back ∧ (∀ c ∈ front, p c) ∧ ∀ c ∈ back, p c := by
  refine ⟨cs.takeWhile p, ((cs.dropWhile p).reverse.takeWhile p).reverse, ?_, ?_, ?_⟩
  · rw [List.append_assoc, Text.trim, ← List.reverse_append, List.takeWhile_append_dropWhile,
      List.reverse_reverse, List.takeWhile_append_dropWhile]
  · intro c hc
    exact List.mem_takeWhile_imp hc
  · intro c hc
    exact List.mem_takeWhile_imp (List.mem_reverse.1 hc)

/-- Blanks around a text leave open what it leaves open. -/
theorem excess_strip (text : String) :
    excess (Token.lexemes (Text.strip text).toList) = excess (Token.lexemes text.toList) := by
  obtain ⟨front, back, hsplit, hfront, hback⟩ := exists_trim Text.isBlank text.toList
  have hwhole := depth_through (d := 0) text.toList
  have hinner := depth_through (d := 0) (Text.trim Text.isBlank text.toList)
  rw [hsplit, through_append, through_append,
    through_neutral fun c hc => neutral_of_isBlank (hfront c hc),
    depth_through_neutral fun c hc => neutral_of_isBlank (hback c hc), ← hsplit] at hwhole
  rw [Text.strip, String.toList_ofList]
  omega

/-! ## Tokens of an input -/

theorem joined_append (lines more : List String) :
    ∃ tail, (joined (lines ++ more)).toList = (joined lines).toList ++ tail := by
  induction lines with
  | nil => exact ⟨_, rfl⟩
  | cons line lines ih =>
    cases lines with
    | nil =>
      cases more with
      | nil => exact ⟨[], by simp⟩
      | cons next more =>
        refine ⟨"\n".toList ++ (joined (next :: more)).toList, ?_⟩
        simp [joined, String.intercalate_cons_cons]
    | cons next lines =>
      obtain ⟨tail, htail⟩ := ih
      refine ⟨tail, ?_⟩
      simp only [List.cons_append, joined, String.intercalate_cons_cons, String.toList_append,
        List.append_assoc] at htail ⊢
      rw [htail]

/-- The first lines escape no line feed if all of them escape none. -/
theorem escapesLineFeed_take {j : Nat} (hle : j ≤ k)
    (h : escapesLineFeed .start (joined (lines.take k)).toList = false) :
    escapesLineFeed .start (joined (lines.take j)).toList = false := by
  obtain ⟨tail, htail⟩ := joined_append (lines.take j) ((lines.take k).drop j)
  have htake : lines.take j ++ (lines.take k).drop j = lines.take k := by
    rw [← Nat.min_eq_left hle, ← List.take_take, Nat.min_eq_left hle, List.take_append_drop]
  rw [htake] at htail
  rw [htail, escapesLineFeed_append, Bool.or_eq_false_iff] at h
  exact h.1

/-- **A session takes whole inputs.** After the last line of an input its tokens close what they
open, and after each line before the last one something is still open. -/
theorem openers_le_closers_of_readInput (settings : Settings) (lines : List String) {text : String}
    {prompts : List String} {left : List Event}
    (hread : readInput settings [] (lines.map .line) = (.source text, prompts, left))
    (hescape : escapesLineFeed .start (joined (lines.take prompts.length)).toList = false) :
    (1 ≤ prompts.length ∧ prompts.length ≤ lines.length ∧
      text = Text.strip (joined (lines.take prompts.length)) ∧
      left = (lines.drop prompts.length).map .line) ∧
    openers (scan text) ≤ closers (scan text) ∧
    ∀ j, 1 ≤ j → j < prompts.length →
      closers (scan (joined (lines.take j))) < openers (scan (joined (lines.take j))) := by
  obtain ⟨hlines, htext, hleft⟩ := completes_of_readInput hread
  refine ⟨⟨hlines.pos, hlines.le_length, htext, hleft⟩, ?_, ?_⟩
  · have hclosed := hlines.closed
    have hblank := excess_strip (joined (lines.take prompts.length))
    rw [List.nil_append, openDelimiters_eq _ hescape, ← excess_scan, ← hblank,
      excess_scan] at hclosed
    rw [htext, List.nil_append]
    omega
  · intro j hpos hlt
    have hopen := hlines.unclosed j hpos hlt
    have hescape' := escapesLineFeed_take (Nat.le_of_lt hlt) hescape
    rw [List.nil_append, openDelimiters_eq _ hescape'] at hopen
    omega

/-- A string that goes over a line end behind an escaped backslash, a quote and a parenthesis in a
comment, and parentheses inside the string. -/
def brokenLines : List String := ["f(\"a\\\\", "(b\", # \" (", "  2)", "3"]

theorem readInput_brokenLines :
    readInput {} [] (brokenLines.map .line) =
        (.source (joined (brokenLines.take 3)), [">> ", ".. ", ".. "], [.line "3"]) ∧
      openers (scan (joined (brokenLines.take 3))) ≤ closers (scan (joined (brokenLines.take 3))) ∧
      closers (scan (joined (brokenLines.take 2))) <
        openers (scan (joined (brokenLines.take 2))) := by
  have hread : readInput {} [] (brokenLines.map .line) =
      (.source (joined (brokenLines.take 3)), [">> ", ".. ", ".. "], [.line "3"]) := by
    decide +kernel
  have h := openers_le_closers_of_readInput {} brokenLines hread (by decide +kernel)
  exact ⟨hread, h.2.1, h.2.2 2 (by decide) (by decide)⟩

/-- A backslash at the end of a line, in a string. -/
def escapedLineFeed : List String := ["(\"\\", "\"(\")", "\"))"]

/-- **An escaped line feed leads astray.** The input ends after two lines, with two parentheses
open. -/
theorem readInput_escapedLineFeed :
    readInput {} [] (escapedLineFeed.map .line) =
        (.source (joined (escapedLineFeed.take 2)), [">> ", ".. "], [.line "\"))"]) ∧
      openers (scan (joined (escapedLineFeed.take 2))) = 2 ∧
      closers (scan (joined (escapedLineFeed.take 2))) = 0 := by
  decide +kernel

end Scriptlet.Session
