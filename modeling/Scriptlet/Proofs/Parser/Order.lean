import Scriptlet.Proofs.Parser.Footing

/-!
# Diagnostics in the order of the text

A parse reports the diagnostics of statements inside a statement while that one is still open, and
does not always move on after a failure. Still its diagnostics come in the order of the text: one
that is at the current token is only made where the parse has just come to that token. And every
statement that fails has started at a token of its own.

* `places_scan`: the tokens of a text are in order.
* `inOrder`: the footing of a parse whose diagnostics are in order, none behind the current token.
* `State.allowance`: the diagnostics so far and the tokens from the current one on. A statement
  leaves no more of the two than there were.
* `errors_inOrder`: the diagnostics are in order, stand at tokens, and are no more than these.
-/

namespace Scriptlet

/-! ## The order of places -/

/-- Places are ordered as they come in a text: line by line, and from left to right. -/
instance : LE Pos := ⟨fun p q => p.line < q.line ∨ p.line = q.line ∧ p.column ≤ q.column⟩

namespace Pos

theorem le_iff {p q : Pos} :
    p ≤ q ↔ p.line < q.line ∨ p.line = q.line ∧ p.column ≤ q.column := Iff.rfl

theorem le_refl (p : Pos) : p ≤ p := .inr ⟨rfl, Int.le_refl _⟩

theorem le_trans {p q r : Pos} (h : p ≤ q) (h' : q ≤ r) : p ≤ r := by
  rw [le_iff] at *
  omega

theorem le_next (p : Pos) (c : Char) : p ≤ p.next c := by
  rw [le_iff, next]
  split
  · exact .inl (Int.lt_succ _)
  · exact .inr ⟨rfl, Int.le_of_lt (Int.lt_succ _)⟩

theorem le_after (p : Pos) (cs : List Char) : p ≤ p.after cs := by
  induction cs generalizing p with
  | nil => exact le_refl p
  | cons c cs ih => exact le_trans (le_next p c) (ih (p.next c))

end Pos

namespace Token

theorem Cursor.pos_read (c : Cursor) : c.read.1.pos = c.pos := by
  unfold read
  split <;> rfl

theorem Cursor.pos_le_read (c : Cursor) : c.pos ≤ c.read.2.pos := by
  unfold read
  split
  · exact Pos.le_refl _
  · exact Pos.le_after _ _

/-- The tokens from a cursor on come in order, and none before the cursor. -/
theorem Cursor.places_tokens (c : Cursor) :
    (c.tokens.map (·.pos)).Pairwise (· ≤ ·) ∧ ∀ p ∈ c.tokens.map (·.pos), c.pos ≤ p := by
  fun_induction Cursor.tokens c with
  | case1 c _ =>
    refine ⟨List.pairwise_singleton _ _, fun p hp => ?_⟩
    rw [List.mem_singleton.1 hp]
    exact Pos.le_after _ _
  | case2 c _ _ _ ih =>
    obtain ⟨hsorted, hbehind⟩ := ih
    have hfirst : c.pos ≤ c.next.1.pos := by
      rw [next, pos_read]
      exact Pos.le_after _ _
    have hnext : c.next.1.pos ≤ c.next.2.pos := by
      rw [next, pos_read]
      exact pos_le_read _
    rw [List.map_cons]
    refine ⟨List.pairwise_cons.2 ⟨fun p hp => Pos.le_trans hnext (hbehind p hp), hsorted⟩, ?_⟩
    intro p hp
    rcases List.mem_cons.1 hp with rfl | hp
    · exact hfirst
    · exact Pos.le_trans (Pos.le_trans hfirst hnext) (hbehind p hp)

/-- **The tokens of a text are in order.** -/
theorem places_scan (source : String) : ((scan source).map (·.pos)).Pairwise (· ≤ ·) :=
  (Cursor.places_tokens _).1

end Token

namespace Parser

open Syntax (Node)
open Token (Kind)

/-! ## Diagnostics in order -/

namespace State

/-- The places of the diagnostics so far, and those of the tokens from the current one on. -/
def places (s : State) : List Pos :=
  s.errors.map (·.pos) ++ s.cur.pos :: s.rest.map (·.pos)

/-- The tokens from the next one on are among those from the current one on; at the end of the text
the current one stays. -/
theorem places_advance (s : State) : s.advance.places.Sublist s.places := by
  unfold places
  refine List.Sublist.append_left ?_ _
  cases hr : s.rest with
  | nil => simp [advance, peek, hr, Token.eofAt]
  | cons t ts => simp [advance, peek, hr]

end State

/-- What is in order stays so if an element is repeated. -/
theorem pairwise_stutter {p : Pos} {as bs : List Pos} (h : (as ++ p :: bs).Pairwise (· ≤ ·)) :
    (as ++ p :: p :: bs).Pairwise (· ≤ ·) := by
  rw [List.pairwise_append, List.pairwise_cons] at h ⊢
  obtain ⟨has, ⟨hp, hbs⟩, hcross⟩ := h
  refine ⟨has, ⟨?_, List.pairwise_cons.2 ⟨hp, hbs⟩⟩, ?_⟩
  · intro q hq
    rcases List.mem_cons.1 hq with rfl | hq
    · exact Pos.le_refl _
    · exact hp q hq
  · intro q hq r hr
    exact hcross q hq r (by simpa using hr)

/-- The diagnostics so far are in order and none is behind the current token; all are at places
of `ps`. -/
def Ordered (ps : List Pos) (s : State) : Prop :=
  s.places.Pairwise (· ≤ ·) ∧ s.places ⊆ ps

variable {ps : List Pos} {s s' : State}

theorem Ordered.sublist (h : Ordered ps s) (hs : s'.places.Sublist s.places) : Ordered ps s' :=
  ⟨h.1.sublist hs, List.Subset.trans hs.subset h.2⟩

/-- A diagnostic at the current token is in order. -/
theorem Ordered.report (h : Ordered ps s) {d : Diagnostic} (hd : d.pos = s.cur.pos) :
    Ordered ps (s.report d) := by
  have hplaces : (s.report d).places =
      s.errors.map (·.pos) ++ s.cur.pos :: s.cur.pos :: s.rest.map (·.pos) := by
    simp [State.places, State.report, hd]
  refine ⟨hplaces ▸ pairwise_stutter h.1, fun p hp => h.2 ?_⟩
  rw [hplaces] at hp
  rw [State.places]
  simpa using hp

/-- The footing of a parse in order: it may fail with a diagnostic that is not behind the next
token. -/
def inOrder (ps : List Pos) : Footing where
  ready := Ordered ps
  start := Ordered ps
  failed d s := Ordered ps (s.report d).advance
  starts h := h
  moved {s} h := h.sublist s.places_advance
  unexpected {s} kind h := by
    have hd : s.peek.pos = s.advance.cur.pos := rfl
    exact h.report (d := ⟨.unexpected kind s.peek.kind, s.peek.pos⟩) hd
  ready_counted _ _ _ h := h
  start_counted _ _ _ h := h
  failed_counted _ _ _ h := h

theorem inOrder_failed_cur (complaint : Complaint) (h : Ordered ps s) :
    (inOrder ps).failed ⟨complaint, s.cur.pos⟩ s :=
  (h.report rfl).sublist (s.report _).places_advance

theorem inOrder_bareStatement (cfg : Config) {e : Nat → Parser Node}
    (he : ∀ power, (inOrder ps).Leads (inOrder ps).start (e power)) :
    (inOrder ps).Recovers (bareStatement cfg e) :=
  (Footing.leads_bareStatement he).recovers fun _ _ h => h

theorem inOrder_expression (cfg : Config) (budget : Nat) : ∀ power,
    (inOrder ps).Leads (inOrder ps).start (expression cfg budget power) := by
  induction budget with
  | zero => exact fun _ _ hs => inOrder_failed_cur _ hs
  | succ budget ih =>
    exact Footing.leads_expression_succ ih (inOrder_bareStatement cfg ih) inOrder_failed_cur

/-- **The diagnostics of tokens in order are in order**, and stand at tokens. -/
theorem ordered_errors (cfg : Config) {t : Token} {ts : List Token}
    (h : ((t :: ts).map (·.pos)).Pairwise (· ≤ ·)) :
    ((Parsed.ofTokens (t :: ts) cfg).errors.map (·.pos)).Pairwise (· ≤ ·) ∧
      (Parsed.ofTokens (t :: ts) cfg).errors.map (·.pos) ⊆ (t :: ts).map (·.pos) := by
  have hstart : Ordered ((t :: ts).map (·.pos)) (State.ofTokens (t :: ts)) :=
    ⟨h, List.Subset.refl _⟩
  obtain ⟨s, hnext, herrors⟩ := Footing.exists_next_ofTokens
    (inOrder_bareStatement cfg (inOrder_expression cfg cfg.maxNesting.toNat)) hstart
  have hsub : (s.errors.map (·.pos)).Sublist s.advance.places := List.sublist_append_left _ _
  rw [← herrors]
  exact ⟨hnext.1.sublist hsub, List.Subset.trans hsub.subset hnext.2⟩

/-! ## The number of diagnostics -/

/-- The diagnostics so far, and the tokens from the current one on. -/
def State.allowance (s : State) : Nat :=
  s.errors.length + (s.cur :: s.rest).countP (·.kind ≠ .eof)

theorem allowance_advance (s : State) :
    s.advance.allowance = s.errors.length + s.rest.countP (·.kind ≠ .eof) := by
  unfold State.allowance
  cases hr : s.rest with
  | nil => simp [State.advance, State.peek, hr, Token.eofAt]
  | cons t ts => simp [State.advance, State.peek, hr]

theorem allowance_eq_advance (h : s.cur.kind ≠ .eof) : s.allowance = s.advance.allowance + 1 := by
  rw [allowance_advance, State.allowance, List.countP_cons_of_pos (by simpa using h)]
  rfl

theorem advance_allowance_le (s : State) : s.advance.allowance ≤ s.allowance := by
  rw [allowance_advance, State.allowance, List.countP_cons]
  omega

/-- The footing of a parse with `n` diagnostics and tokens at most, where the token that an
expression starts at counts no more. -/
def within (n : Nat) : Footing where
  ready s := s.allowance ≤ n
  start s := s.advance.allowance ≤ n
  failed _ s := s.advance.allowance ≤ n
  starts {s} h := Nat.le_trans (advance_allowance_le s) h
  moved h := h
  unexpected _ h := h
  ready_counted _ _ _ h := h
  start_counted _ _ _ h := h
  failed_counted _ _ _ h := h

/-- A statement that fails has its first token to pay for its diagnostic. -/
theorem within_bareStatement (cfg : Config) {e : Nat → Parser Node}
    (he : ∀ n power, (within n).Leads (within n).start (e power)) (n : Nat) :
    (within n).Recovers (bareStatement cfg e) := by
  intro s hs hkind
  have hfirst : s.advance.allowance + 1 ≤ n := allowance_eq_advance hkind ▸ hs
  have hends : (within s.advance.allowance).Ends (bareStatement cfg e s) :=
    Footing.leads_bareStatement (he _) s (Nat.le_refl _)
  rcases h : bareStatement cfg e s with ⟨d | a, s₁⟩
  · rw [h] at hends
    have hfailed : s₁.advance.allowance ≤ s.advance.allowance := hends
    have hreport : (s₁.report d).advance.allowance = s₁.advance.allowance + 1 := by
      rw [allowance_advance, allowance_advance, State.report, List.length_append]
      exact Nat.add_right_comm _ _ _
    show (s₁.report d).advance.allowance ≤ n
    omega
  · rw [h] at hends
    have hgiven : s₁.advance.allowance ≤ s.advance.allowance := hends
    show s₁.advance.allowance ≤ n
    omega

theorem within_expression (cfg : Config) (budget : Nat) : ∀ n power,
    (within n).Leads (within n).start (expression cfg budget power) := by
  induction budget with
  | zero => exact fun _ _ _ hs => hs
  | succ budget ih =>
    intro n
    exact Footing.leads_expression_succ (ih n) (within_bareStatement cfg ih n) fun _ hs => hs

/-- **There are no more diagnostics than tokens** before the end of the text. -/
theorem length_errors_le (cfg : Config) (t : Token) (ts : List Token) :
    (Parsed.ofTokens (t :: ts) cfg).errors.length ≤ (t :: ts).countP (·.kind ≠ .eof) := by
  have hstart : (State.ofTokens (t :: ts)).allowance ≤ (t :: ts).countP (·.kind ≠ .eof) :=
    Nat.le_of_eq (Nat.zero_add _)
  have hstatement := within_bareStatement cfg (within_expression cfg cfg.maxNesting.toNat)
  obtain ⟨s, hnext, herrors⟩ := Footing.exists_next_ofTokens (hstatement _) hstart
  have hallowance : s.advance.allowance ≤ (t :: ts).countP (·.kind ≠ .eof) := hnext
  rw [allowance_advance] at hallowance
  rw [← herrors]
  omega

/-! ## The diagnostics of a text -/

/-- **The diagnostics of a text come in its order**, each of them stands at a token, and there are
no more of them than tokens before the end of the text. -/
theorem errors_inOrder (source : String) (cfg : Config) :
    ((Parsed.ofSource source cfg).errors.map (·.pos)).Pairwise (· ≤ ·) ∧
      (∀ d ∈ (Parsed.ofSource source cfg).errors, ∃ t ∈ Token.scan source, t.pos = d.pos) ∧
      (Parsed.ofSource source cfg).errors.length ≤
        (Token.scan source).countP (·.kind ≠ .eof) := by
  have hplaces := Token.places_scan source
  unfold Parsed.ofSource
  cases hscan : Token.scan source with
  | nil =>
    obtain ⟨us, z, heq, -⟩ := Token.scan_eq source
    rw [hscan] at heq
    cases us <;> cases heq
  | cons t ts =>
    rw [hscan] at hplaces
    obtain ⟨hsorted, hsub⟩ := ordered_errors cfg hplaces
    refine ⟨hsorted, fun d hd => ?_, length_errors_le cfg t ts⟩
    exact List.mem_map.1 (hsub (List.mem_map_of_mem hd))

end Parser

end Scriptlet
