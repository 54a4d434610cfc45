import Scriptlet.Proofs.Parser.Inversion

/-!
# A parse without diagnostics reads what the relation says

For tokens with the end of the text at most at their end, a parser gives a tree without reporting
anything iff the tree and the tokens are related by `Reads`: soundness and completeness, one pair
of lemmas for each parser, given the pair for the parser of the expressions inside.

* `Exact`: the pair for a parser of expressions.
* `exact_expression`: it holds of the parser itself, at every budget.
* `errors_ofTokens_eq_nil_iff`: the same for a whole list of tokens.
-/

namespace Scriptlet.Parser

open Syntax (Node)
open Token (Kind)

/-! ## The tokens in view -/

/-- The tokens before the end of the text. -/
def visible (ts : List Token) : List Token := ts.takeWhile (·.kind ≠ .eof)

/-- The end of the text comes last, if it is there at all. -/
def Ended (ts : List Token) : Prop := ∀ t ∈ ts.dropLast, t.kind ≠ .eof

theorem visible_eq_self {ts : List Token} (h : ∀ t ∈ ts, t.kind ≠ .eof) : visible ts = ts := by
  induction ts with
  | nil => rfl
  | cons t ts ih =>
    rw [List.forall_mem_cons] at h
    simpa [visible, h.1] using ih h.2

theorem visible_append_eof {ts : List Token} {z : Token} (h : ∀ t ∈ ts, t.kind ≠ .eof)
    (hz : z.kind = .eof) : visible (ts ++ [z]) = ts := by
  unfold visible
  rw [List.takeWhile_append_of_pos (by simpa using h)]
  simp [hz]

theorem ended_append {ts : List Token} {z : Token} (h : ∀ t ∈ ts, t.kind ≠ .eof) :
    Ended (ts ++ [z]) := by
  unfold Ended
  rwa [List.dropLast_concat]

namespace State

variable {s s' : State} {t : Token} {ts : List Token}

/-- The tokens from the current one on. -/
def ahead (s : State) : List Token := visible (s.cur :: s.rest)

/-- The tokens after the current one. -/
def after (s : State) : List Token := visible s.rest

/-- A state with the end of the text at most at the end of its tokens. -/
def Tidy (s : State) : Prop := Ended (s.cur :: s.rest)

@[simp] theorem ahead_advance (s : State) : s.advance.ahead = s.after := by
  unfold ahead after advance peek
  cases s.rest with
  | nil => rfl
  | cons t ts => rfl

theorem ahead_eq_cons (h : s.cur.kind ≠ .eof) : s.ahead = s.cur :: s.after := by
  simp [ahead, after, visible, h]

theorem ahead_eq_cons_iff : s.ahead = t :: ts ↔ s.cur = t ∧ t.kind ≠ .eof ∧ s.after = ts := by
  by_cases h : s.cur.kind = .eof
  · simp only [ahead, visible, List.takeWhile_cons, h]
    constructor
    · intro h; cases h
    · rintro ⟨rfl, h', _⟩; exact absurd h h'
  · rw [ahead_eq_cons h]
    constructor
    · intro h'
      obtain ⟨rfl, rfl⟩ := List.cons.inj h'
      exact ⟨rfl, h, rfl⟩
    · rintro ⟨rfl, -, rfl⟩
      rfl

theorem ahead_eq_nil_iff : s.ahead = [] ↔ s.cur.kind = .eof := by
  by_cases h : s.cur.kind = .eof <;> simp [ahead, visible, h]

theorem after_eq_cons (h : s.peek.kind ≠ .eof) : s.after = s.peek :: s.advance.after := by
  rw [← ahead_advance, ahead_eq_cons (s := s.advance) h]
  rfl

theorem after_eq_cons_iff :
    s.after = t :: ts ↔ s.peek = t ∧ t.kind ≠ .eof ∧ s.advance.after = ts := by
  rw [← ahead_advance, ahead_eq_cons_iff]
  rfl

theorem after_eq_nil_iff : s.after = [] ↔ s.peek.kind = .eof := by
  rw [← ahead_advance, ahead_eq_nil_iff]
  rfl

theorem Tidy.advance (h : s.Tidy) : s.advance.Tidy := by
  unfold Tidy Ended State.advance peek at *
  cases hr : s.rest with
  | nil => simp
  | cons t ts =>
    intro u hu
    rw [hr] at h
    exact h u (by simpa using Or.inr hu)

theorem Tidy.rest_eq_nil (h : s.Tidy) (hc : s.cur.kind = .eof) : s.rest = [] := by
  cases hr : s.rest with
  | nil => rfl
  | cons t ts => exact absurd hc (h s.cur (by simp [hr]))

theorem Tidy.after_eq_nil (h : s.Tidy) (hc : s.cur.kind = .eof) : s.after = [] := by
  rw [after, h.rest_eq_nil hc]
  rfl

theorem after_skipSemicolons (s : State) :
    s.skipSemicolons.after = Reads.dropSemicolons s.after := by
  fun_induction State.skipSemicolons s with
  | case1 s h ih =>
    rw [ih, after_eq_cons (s := s) (by rw [h]; decide)]
    simp [Reads.dropSemicolons, h]
  | case2 s h =>
    by_cases he : s.peek.kind = .eof
    · rw [after_eq_nil_iff.2 he]
      rfl
    · rw [after_eq_cons he]
      simp [Reads.dropSemicolons, h]

theorem after_skipSemicolon (s : State) :
    (if s.peek.kind = .semicolon then s.advance else s).after =
      Reads.dropSemicolon s.after := by
  by_cases he : s.peek.kind = .eof
  · rw [if_neg (by rw [he]; decide), after_eq_nil_iff.2 he]
    rfl
  · rw [after_eq_cons he]
    simp only [Reads.dropSemicolon]
    split
    · rfl
    · exact after_eq_cons he

theorem ends_after_iff {power : Nat} :
    Reads.Ends power s.after ↔ ¬ Reads.Continues power s.peek.kind := by
  by_cases he : s.peek.kind = .eof
  · rw [after_eq_nil_iff.2 he, he]
    simp [Reads.Ends, Reads.Continues, Kind.isInfix]
  · rw [after_eq_cons he]
    simp [Reads.Ends]

end State

theorem Moves.tidy {s s' : State} (h : Moves s s') (hs : s.Tidy) : s'.Tidy := by
  induction h with
  | refl => exact hs
  | advance _ ih => exact ih.advance
  | report _ _ ih => exact ih
  | count _ _ _ _ ih => exact ih

/-- A parser of expressions gives without a diagnostic exactly what the relation `E` says, and
what `E` relates begins with a token that starts an expression. -/
structure Exact (expression : Nat → Parser Node) (E : Nat → Reading Node) : Prop where
  sound : ∀ {power : Nat} {s s' : State} {e : Node}, s.Tidy →
    Yields (expression power) s e s' → E power s.ahead s'.after e
  complete : ∀ {power : Nat} {s : State} {r : List Token} {e : Node}, s.Tidy →
    E power s.ahead r e → ∃ s', Yields (expression power) s e s' ∧ s'.after = r
  starts : ∀ {power : Nat} {ts r : List Token} {e : Node}, E power ts r e →
    ∃ t us, ts = t :: us ∧ (starter? t.kind).isSome

/-! ## Parameters -/

theorem sound_moreParameters {s s₁ : State} {ns ns' : List Node}
    (h : Yields (iterate parametersStep ns) s ns' s₁) (hp : s₁.peek.kind = .rparen) :
    ∃ ns₁, ns' = ns ++ ns₁ ∧ Reads.MoreParameters s.after s₁.advance.after ns₁ := by
  refine yields_iterate_induction (P := fun ns s => ∃ ns₁, ns' = ns ++ ns₁ ∧
    Reads.MoreParameters s.after s₁.advance.after ns₁) ?_ ?_ h
  · intro s h
    rcases yields_parametersStep.1 h with ⟨-, -, rfl⟩ | ⟨-, -, h, -⟩
    · refine ⟨[], (List.append_nil _).symm, ?_⟩
      rw [State.after_eq_cons (by rw [hp]; decide)]
      exact .done hp
    · cases h
  · rintro ns ns₀ s s₀ hr ⟨ns₁, rfl, ih⟩
    rcases yields_parametersStep.1 hr with ⟨-, ho, -⟩ | ⟨hk, hn, ho, rfl⟩
    · cases ho
    · cases ho
      refine ⟨_ :: ns₁, List.append_assoc .., ?_⟩
      rw [State.after_eq_cons (by rw [hk]; decide), State.after_eq_cons (by rw [hn]; decide)]
      exact .more hk hn ih

theorem complete_moreParameters {ts r : List Token} {ns₁ : List Node}
    (h : Reads.MoreParameters ts r ns₁) : ∀ {s : State} (ns : List Node), s.after = ts →
      ∃ s₁, Yields (iterate parametersStep ns) s (ns ++ ns₁) s₁ ∧ s₁.peek.kind = .rparen ∧
        s₁.advance.after = r := by
  induction h with
  | done hp =>
    intro s ns hs
    obtain ⟨rfl, -, rfl⟩ := State.after_eq_cons_iff.1 hs
    rw [List.append_nil]
    refine ⟨s, yields_iterate_stop (yields_parametersStep.2 (.inl ⟨?_, rfl, rfl⟩)), hp, rfl⟩
    rw [hp]
    decide
  | more hk hn _ ih =>
    intro s ns hs
    obtain ⟨rfl, -, hs⟩ := State.after_eq_cons_iff.1 hs
    obtain ⟨rfl, -, hs⟩ := State.after_eq_cons_iff.1 hs
    obtain ⟨s₁, h₁, hp, hr⟩ := ih (ns ++ [_]) hs
    rw [List.append_assoc] at h₁
    exact ⟨s₁, yields_iterate_again (yields_parametersStep.2 (.inr ⟨hk, hn, rfl, rfl⟩)) h₁, hp, hr⟩

theorem sound_parameters {s s' : State} {ns : List Node} (h : Yields parameters s ns s') :
    Reads.Parameters s.after s'.after ns := by
  rcases yields_parameters.1 h with ⟨hp, rfl, rfl⟩ | ⟨hn, s₁, h₁, hp, rfl⟩
  · rw [State.after_eq_cons (by rw [hp]; decide)]
    exact .none hp
  · obtain ⟨ns₁, rfl, hm⟩ := sound_moreParameters h₁ hp
    rw [State.after_eq_cons (by rw [hn]; decide)]
    exact .some hn hm

theorem complete_parameters {s : State} {r : List Token} {ns : List Node}
    (h : Reads.Parameters s.after r ns) : ∃ s', Yields parameters s ns s' ∧ s'.after = r := by
  generalize hs : s.after = ts at h
  cases h with
  | none hp =>
    obtain ⟨rfl, -, rfl⟩ := State.after_eq_cons_iff.1 hs
    exact ⟨_, yields_parameters.2 (.inl ⟨hp, rfl, rfl⟩), rfl⟩
  | some hn h =>
    obtain ⟨rfl, -, hs⟩ := State.after_eq_cons_iff.1 hs
    obtain ⟨s₁, h₁, hp, hr⟩ := complete_moreParameters h [_] hs
    exact ⟨_, yields_parameters.2 (.inr ⟨hn, s₁, h₁, hp, rfl⟩), hr⟩

section

variable {cfg : Config} {expression : Nat → Parser Node} {E : Nat → Reading Node}
  [∀ power, Moving (expression power)] (hc : cfg.Plain) (hE : Exact expression E)

/-! ## Statements -/

include hc hE

theorem sound_statement {s s' : State} {n : Node} (hs : s.Tidy)
    (hy : Yields (statement cfg expression) s (some n) s') :
    Reads.Statement E s.ahead s'.after n := by
  obtain ⟨_, hn, h⟩ := yields_statement.1 hy
  cases hn
  split at h
  · rename_i hk
    obtain ⟨hn, ha, v, s₁, hv, rfl, rfl⟩ := (yields_letStatement hc).1 h
    have hv := hE.sound hs.advance.advance.advance hv
    rw [State.ahead_advance] at hv
    rw [State.ahead_eq_cons (by rw [hk]; decide), State.after_eq_cons (by rw [hn]; decide),
      State.after_eq_cons (by rw [ha]; decide), State.after_skipSemicolons]
    exact .binding hk hn ha hv
  · rename_i hk
    obtain ⟨v, s₁, hv, rfl, rfl⟩ := (yields_returnStatement hc).1 h
    have hv := hE.sound hs.advance hv
    rw [State.ahead_advance] at hv
    rw [State.ahead_eq_cons (by rw [hk]; decide), State.after_skipSemicolons]
    exact .returning hk hv
  · rename_i h₁ h₂
    obtain ⟨v, s₁, hv, rfl, rfl⟩ := (yields_expressionStatement hc).1 h
    have hv := hE.sound hs hv
    obtain ⟨t, us, hts, -⟩ := hE.starts hv
    obtain ⟨rfl, -, -⟩ := State.ahead_eq_cons_iff.1 hts
    rw [State.after_skipSemicolon]
    rw [hts] at hv ⊢
    exact .expression h₁ h₂ hv

theorem complete_statement {s : State} {r : List Token} {n : Node} (hs : s.Tidy)
    (h : Reads.Statement E s.ahead r n) :
    ∃ s', Yields (statement cfg expression) s (some n) s' ∧ s'.after = r := by
  generalize hts : s.ahead = ts at h
  cases h with
  | binding hk hn ha hv =>
    obtain ⟨rfl, -, hts⟩ := State.ahead_eq_cons_iff.1 hts
    obtain ⟨rfl, -, hts⟩ := State.after_eq_cons_iff.1 hts
    obtain ⟨rfl, -, hts⟩ := State.after_eq_cons_iff.1 hts
    rw [← hts, ← State.ahead_advance] at hv
    obtain ⟨s₁, hy, rfl⟩ := hE.complete hs.advance.advance.advance hv
    refine ⟨_, yields_statement.2 ⟨_, rfl, ?_⟩, State.after_skipSemicolons s₁⟩
    rw [hk]
    exact (yields_letStatement hc).2 ⟨hn, ha, _, s₁, hy, rfl, rfl⟩
  | returning hk hv =>
    obtain ⟨rfl, -, hts⟩ := State.ahead_eq_cons_iff.1 hts
    rw [← hts, ← State.ahead_advance] at hv
    obtain ⟨s₁, hy, rfl⟩ := hE.complete hs.advance hv
    refine ⟨_, yields_statement.2 ⟨_, rfl, ?_⟩, State.after_skipSemicolons s₁⟩
    rw [hk]
    exact (yields_returnStatement hc).2 ⟨_, s₁, hy, rfl, rfl⟩
  | expression h₁ h₂ hv =>
    rw [← hts] at hv
    obtain ⟨rfl, -, -⟩ := State.ahead_eq_cons_iff.1 hts
    obtain ⟨s₁, hy, rfl⟩ := hE.complete hs hv
    refine ⟨_, yields_statement.2 ⟨_, rfl, ?_⟩, State.after_skipSemicolon s₁⟩
    split
    · contradiction
    · contradiction
    · exact (yields_expressionStatement hc).2 ⟨_, s₁, hy, rfl, rfl⟩

omit hc [∀ power, Moving (expression power)] in
theorem statement_starts {ts r : List Token} {n : Node} (h : Reads.Statement E ts r n) :
    ∃ t us, ts = t :: us ∧ t.kind ≠ .rbrace := by
  cases h with
  | binding hk _ _ _ => exact ⟨_, _, rfl, by rw [hk]; decide⟩
  | returning hk _ => exact ⟨_, _, rfl, by rw [hk]; decide⟩
  | expression _ _ hv =>
    obtain ⟨t, us, hts, hk⟩ := hE.starts hv
    cases hts
    refine ⟨_, _, rfl, fun h => ?_⟩
    rw [h] at hk
    cases hk

/-! ## Blocks -/

theorem sound_body {depth : Int} {s s₁ : State} {ss ss' : List Node} (hs : s.Tidy)
    (h : Yields (iterate (blockStep cfg expression depth) ss) s ss' s₁) :
    ∃ ss₁, ss' = ss ++ ss₁ ∧ Reads.Body E s.ahead s₁.after ss₁ := by
  refine yields_iterate_induction (P := fun ss s => s.Tidy → ∃ ss₁, ss' = ss ++ ss₁ ∧
    Reads.Body E s.ahead s₁.after ss₁) ?_ ?_ h hs
  · intro s hr hs
    rcases yields_blockStep.1 hr with ⟨hk, -, rfl⟩ | ⟨-, _, _, -, ho, -⟩
    · refine ⟨[], (List.append_nil _).symm, ?_⟩
      rcases hk with hk | hk
      · rw [State.ahead_eq_cons (by rw [hk]; decide)]
        exact .closed hk
      · rw [State.ahead_eq_nil_iff.2 hk, hs.after_eq_nil hk]
        exact .unclosed
    · cases ho
  · rintro ss ss₀ s s₀ hr ih hs
    rcases yields_blockStep.1 hr with ⟨-, ho, -⟩ | ⟨-, n, s₂, hn, ho, rfl⟩
    · cases ho
    · cases ho
      obtain ⟨ss₁, rfl, hb⟩ := ih (hn.moves.advance.tidy hs)
      rw [State.ahead_advance] at hb
      exact ⟨n :: ss₁, List.append_assoc .., .cons (sound_statement hc hE hs hn) hb⟩

theorem complete_body {depth : Int} {ts r : List Token} {ss₁ : List Node}
    (h : Reads.Body E ts r ss₁) : ∀ {s : State} (ss : List Node), s.Tidy → s.ahead = ts →
      ∃ s₁, Yields (iterate (blockStep cfg expression depth) ss) s (ss ++ ss₁) s₁ ∧
        s₁.after = r := by
  induction h with
  | closed hk =>
    intro s ss _ hts
    obtain ⟨rfl, -, rfl⟩ := State.ahead_eq_cons_iff.1 hts
    rw [List.append_nil]
    exact ⟨s, yields_iterate_stop (yields_blockStep.2 (.inl ⟨.inl hk, rfl, rfl⟩)), rfl⟩
  | unclosed =>
    intro s ss hs hts
    have hk := State.ahead_eq_nil_iff.1 hts
    rw [List.append_nil]
    exact ⟨s, yields_iterate_stop (yields_blockStep.2 (.inl ⟨.inr hk, rfl, rfl⟩)),
      hs.after_eq_nil hk⟩
  | cons hn _ ih =>
    intro s ss hs hts
    obtain ⟨t, us, rfl, ht⟩ := statement_starts hE hn
    obtain ⟨rfl, he, -⟩ := State.ahead_eq_cons_iff.1 hts
    rw [← hts] at hn
    obtain ⟨s₂, hy, rfl⟩ := complete_statement hc hE hs hn
    -- a statement ends on its last token; the loop moves past it before the next one
    obtain ⟨s₁, h₁, hr⟩ := ih (ss ++ [_]) (hy.moves.advance.tidy hs) (State.ahead_advance s₂)
    rw [List.append_assoc] at h₁
    exact ⟨s₁, yields_iterate_again
      (yields_blockStep.2 (.inr ⟨not_or.2 ⟨ht, he⟩, _, s₂, hy, rfl, rfl⟩)) h₁, hr⟩

theorem sound_block {s s' : State} {n : Node} (hs : s.Tidy)
    (h : Yields (block cfg expression) s n s') :
    ∃ ss, n = .block s.cur.pos ss ∧ Reads.Body E s.after s'.after ss := by
  obtain ⟨ss, rfl, hl⟩ := (yields_block hc).1 h
  obtain ⟨ss₁, rfl, hb⟩ := sound_body hc hE hs.advance hl
  rw [State.ahead_advance] at hb
  exact ⟨_, rfl, hb⟩

theorem complete_block {s : State} {r : List Token} {ss : List Node} (hs : s.Tidy)
    (h : Reads.Body E s.after r ss) :
    ∃ s', Yields (block cfg expression) s (.block s.cur.pos ss) s' ∧ s'.after = r := by
  obtain ⟨s', h', hr⟩ := complete_body hc hE h [] hs.advance (State.ahead_advance s)
  exact ⟨s', (yields_block hc).2 ⟨ss, rfl, h'⟩, hr⟩

theorem sound_elseBlock {s s' : State} {o : Option Node} (hs : s.Tidy)
    (h : Yields (elseBlock cfg expression) s o s') : Reads.Else E s.after s'.after o := by
  rcases yields_elseBlock.1 h with ⟨hk, rfl, rfl⟩ | ⟨hk, hb, b, rfl, hy⟩
  · refine .none fun t ht => ?_
    by_cases he : s'.peek.kind = .eof
    · rw [State.after_eq_nil_iff.2 he] at ht
      cases ht
    · rw [State.after_eq_cons he] at ht
      cases ht
      exact hk
  · obtain ⟨ss, rfl, hd⟩ := sound_block hc hE hs.advance.advance hy
    rw [State.after_eq_cons (by rw [hk]; decide), State.after_eq_cons (by rw [hb]; decide)]
    exact .some hk hb hd

theorem complete_elseBlock {s : State} {r : List Token} {o : Option Node} (hs : s.Tidy)
    (h : Reads.Else E s.after r o) :
    ∃ s', Yields (elseBlock cfg expression) s o s' ∧ s'.after = r := by
  generalize hts : s.after = ts at h
  cases h with
  | none hk =>
    subst hts
    refine ⟨s, yields_elseBlock.2 (.inl ⟨fun h => ?_, rfl, rfl⟩), rfl⟩
    rw [State.after_eq_cons (by rw [h]; decide)] at hk
    exact hk _ rfl h
  | some hk hb h =>
    obtain ⟨rfl, -, hts⟩ := State.after_eq_cons_iff.1 hts
    obtain ⟨rfl, -, rfl⟩ := State.after_eq_cons_iff.1 hts
    obtain ⟨s', hy, hr⟩ := complete_block hc hE hs.advance.advance h
    exact ⟨s', yields_elseBlock.2 (.inr ⟨hk, hb, _, rfl, hy⟩), hr⟩

/-! ## Arguments -/

omit hc

theorem sound_moreArguments {s s₁ : State} {es es' : List Node} (hs : s.Tidy)
    (h : Yields (iterate (argumentsStep expression) es) s es' s₁)
    (hp : s₁.peek.kind = .rparen) :
    ∃ es₁, es' = es ++ es₁ ∧ Reads.MoreArguments E s.after s₁.advance.after es₁ := by
  refine yields_iterate_induction (P := fun es s => s.Tidy → ∃ es₁, es' = es ++ es₁ ∧
    Reads.MoreArguments E s.after s₁.advance.after es₁) ?_ ?_ h hs
  · intro s hr hs
    rcases yields_argumentsStep.1 hr with ⟨-, -, rfl⟩ | ⟨-, _, ho, -⟩
    · refine ⟨[], (List.append_nil _).symm, ?_⟩
      rw [State.after_eq_cons (by rw [hp]; decide)]
      exact .done hp
    · cases ho
  · intro es es₀ s s₀ hr ih hs
    rcases yields_argumentsStep.1 hr with ⟨-, ho, -⟩ | ⟨hk, e, ho, he⟩
    · cases ho
    · cases ho
      obtain ⟨es₁, rfl, hm⟩ := ih (he.moves.tidy hs.advance.advance)
      have he := hE.sound hs.advance.advance he
      rw [State.ahead_advance] at he
      refine ⟨e :: es₁, List.append_assoc .., ?_⟩
      rw [State.after_eq_cons (by rw [hk]; decide)]
      exact .more hk he hm

theorem complete_moreArguments {ts r : List Token} {es₁ : List Node}
    (h : Reads.MoreArguments E ts r es₁) : ∀ {s : State} (es : List Node), s.Tidy → s.after = ts →
      ∃ s₁, Yields (iterate (argumentsStep expression) es) s (es ++ es₁) s₁ ∧
        s₁.peek.kind = .rparen ∧ s₁.advance.after = r := by
  induction h with
  | done hp =>
    intro s es _ hts
    obtain ⟨rfl, -, rfl⟩ := State.after_eq_cons_iff.1 hts
    rw [List.append_nil]
    refine ⟨s, yields_iterate_stop (yields_argumentsStep.2 (.inl ⟨?_, rfl, rfl⟩)), hp, rfl⟩
    rw [hp]
    decide
  | more hk he _ ih =>
    intro s es hs hts
    obtain ⟨rfl, -, hts⟩ := State.after_eq_cons_iff.1 hts
    rw [← hts, ← State.ahead_advance] at he
    obtain ⟨s₂, hy, hm⟩ := hE.complete hs.advance.advance he
    obtain ⟨s₁, h₁, hp, hr⟩ := ih (es ++ [_]) (hy.moves.tidy hs.advance.advance) hm
    rw [List.append_assoc] at h₁
    exact ⟨s₁, yields_iterate_again (yields_argumentsStep.2 (.inr ⟨hk, _, rfl, hy⟩)) h₁, hp, hr⟩

theorem sound_arguments {s s' : State} {es : List Node} (hs : s.Tidy)
    (h : Yields (arguments expression) s es s') : Reads.Arguments E s.after s'.after es := by
  rcases yields_arguments.1 h with ⟨hp, rfl, rfl⟩ | ⟨-, e, s₁, s₂, he, hm, hp, rfl⟩
  · rw [State.after_eq_cons (by rw [hp]; decide)]
    exact .none hp
  · obtain ⟨es₁, rfl, hes⟩ := sound_moreArguments hE (he.moves.tidy hs.advance) hm hp
    have he := hE.sound hs.advance he
    rw [State.ahead_advance] at he
    exact .some he hes

theorem complete_arguments {s : State} {r : List Token} {es : List Node} (hs : s.Tidy)
    (h : Reads.Arguments E s.after r es) :
    ∃ s', Yields (arguments expression) s es s' ∧ s'.after = r := by
  generalize hts : s.after = ts at h
  cases h with
  | none hp =>
    obtain ⟨rfl, -, rfl⟩ := State.after_eq_cons_iff.1 hts
    exact ⟨_, yields_arguments.2 (.inl ⟨hp, rfl, rfl⟩), rfl⟩
  | some he hm =>
    obtain ⟨t, us, rfl, ht⟩ := hE.starts he
    obtain ⟨rfl, -, -⟩ := State.after_eq_cons_iff.1 hts
    have hp : s.peek.kind ≠ .rparen := fun h => by
      rw [h] at ht
      cases ht
    rw [← hts, ← State.ahead_advance] at he
    obtain ⟨s₁, hy, hm'⟩ := hE.complete hs.advance he
    obtain ⟨s₂, h₂, hp₂, hr⟩ :=
      complete_moreArguments hE hm [_] (hy.moves.tidy hs.advance) hm'
    exact ⟨_, yields_arguments.2 (.inr ⟨hp, _, s₁, s₂, hy, h₂, hp₂, rfl⟩), hr⟩

/-! ## Expressions -/

include hc

theorem sound_startExpression {s s' : State} {n : Node} (hs : s.Tidy)
    (hy : Yields (startExpression cfg expression) s n s') : Reads.Start E s.ahead s'.after n := by
  have h := (yields_startExpression hc).1 hy
  have hk : s.cur.kind ≠ .eof := by
    intro hk
    rw [hk] at h
    exact absurd h yields_throw
  rw [State.ahead_eq_cons hk]
  split at h
  · rename_i hk
    obtain ⟨rfl, rfl⟩ := yields_identifier.1 h
    exact .identifier hk
  · rename_i hk
    obtain ⟨v, hv, hle, rfl, rfl⟩ := (yields_integer hc).1 h
    exact .integer hk hv hle
  · rename_i hk
    obtain ⟨rfl, rfl⟩ := yields_stringLiteral.1 h
    exact .string hk
  · rename_i hk
    obtain ⟨rfl, rfl⟩ := yields_boolean.1 h
    exact .boolean (.inl hk)
  · rename_i hk
    obtain ⟨rfl, rfl⟩ := yields_boolean.1 h
    exact .boolean (.inr hk)
  · rename_i hk
    obtain ⟨e, rfl, he⟩ := (yields_unary hc).1 h
    rw [← State.ahead_advance]
    exact .unary (.inl hk) (hE.sound hs.advance he)
  · rename_i hk
    obtain ⟨e, rfl, he⟩ := (yields_unary hc).1 h
    rw [← State.ahead_advance]
    exact .unary (.inr hk) (hE.sound hs.advance he)
  · rename_i hk
    obtain ⟨s₁, he, hp, rfl⟩ := yields_group.1 h
    have he := hE.sound hs.advance he
    rw [State.ahead_advance, State.after_eq_cons (s := s₁) (by rw [hp]; decide)] at he
    exact .group hk he hp
  · rename_i hk
    obtain ⟨hl, c, s₁, hec, hp, hb, t, s₂, ht, a, ha, rfl⟩ := (yields_conditional hc).1 h
    have hs₁ := hec.moves.tidy hs.advance.advance
    obtain ⟨ss, rfl, hss⟩ := sound_block hc hE hs₁.advance.advance ht
    have ha := sound_elseBlock hc hE (ht.moves.tidy hs₁.advance.advance) ha
    have hec := hE.sound hs.advance.advance hec
    rw [State.ahead_advance, State.after_eq_cons (s := s₁) (by rw [hp]; decide),
      State.after_eq_cons (s := s₁.advance) (by rw [hb]; decide)] at hec
    rw [State.after_eq_cons (by rw [hl]; decide)]
    exact .conditional hk hl hec hp hb hss ha
  · rename_i hk
    obtain ⟨hl, ns, s₁, hns, hb, b, hbody, rfl⟩ := (yields_functionLiteral hc).1 h
    obtain ⟨ss, rfl, hss⟩ := sound_block hc hE (hns.moves.advance.tidy hs.advance) hbody
    have hns := sound_parameters hns
    rw [State.after_eq_cons (s := s₁) (by rw [hb]; decide)] at hns
    rw [State.after_eq_cons (by rw [hl]; decide)]
    exact .function hk hl hns hb hss
  · exact absurd h yields_throw

theorem complete_startExpression {s : State} {r : List Token} {n : Node} (hs : s.Tidy)
    (h : Reads.Start E s.ahead r n) :
    ∃ s', Yields (startExpression cfg expression) s n s' ∧ s'.after = r := by
  simp only [yields_startExpression hc]
  generalize hts : s.ahead = ts at h
  cases h with
  | identifier hk =>
    obtain ⟨rfl, -, rfl⟩ := State.ahead_eq_cons_iff.1 hts
    rw [hk]
    exact ⟨s, yields_identifier.2 ⟨rfl, rfl⟩, rfl⟩
  | integer hk hv hle =>
    obtain ⟨rfl, -, rfl⟩ := State.ahead_eq_cons_iff.1 hts
    rw [hk]
    exact ⟨s, (yields_integer hc).2 ⟨_, hv, hle, rfl, rfl⟩, rfl⟩
  | string hk =>
    obtain ⟨rfl, -, rfl⟩ := State.ahead_eq_cons_iff.1 hts
    rw [hk]
    exact ⟨s, yields_stringLiteral.2 ⟨rfl, rfl⟩, rfl⟩
  | boolean hk =>
    obtain ⟨rfl, -, rfl⟩ := State.ahead_eq_cons_iff.1 hts
    refine ⟨s, ?_, rfl⟩
    have hb := yields_boolean.2 (⟨rfl, rfl⟩ : _ ∧ s = s)
    rcases hk with hk | hk
    · simp only [hk] at hb ⊢
      exact hb
    · simp only [hk] at hb ⊢
      exact hb
  | unary hk he =>
    obtain ⟨rfl, -, rfl⟩ := State.ahead_eq_cons_iff.1 hts
    rw [← State.ahead_advance] at he
    obtain ⟨s', hy, hr⟩ := hE.complete hs.advance he
    refine ⟨s', ?_, hr⟩
    have hu := (yields_unary hc).2 ⟨_, rfl, hy⟩
    rcases hk with hk | hk
    · rw [hk]
      exact hu
    · rw [hk]
      exact hu
  | group hk he hp =>
    obtain ⟨rfl, -, rfl⟩ := State.ahead_eq_cons_iff.1 hts
    rw [← State.ahead_advance] at he
    obtain ⟨s₁, hy, hr⟩ := hE.complete hs.advance he
    obtain ⟨rfl, -, rfl⟩ := State.after_eq_cons_iff.1 hr
    rw [hk]
    exact ⟨_, yields_group.2 ⟨s₁, hy, hp, rfl⟩, rfl⟩
  | conditional hk hl hec hp hb hss ha =>
    obtain ⟨rfl, -, hts⟩ := State.ahead_eq_cons_iff.1 hts
    obtain ⟨rfl, -, rfl⟩ := State.after_eq_cons_iff.1 hts
    rw [← State.ahead_advance] at hec
    obtain ⟨s₁, hy, hr⟩ := hE.complete hs.advance.advance hec
    obtain ⟨rfl, -, hr⟩ := State.after_eq_cons_iff.1 hr
    obtain ⟨rfl, -, rfl⟩ := State.after_eq_cons_iff.1 hr
    have hs₁ := hy.moves.tidy hs.advance.advance
    obtain ⟨s₂, ht, rfl⟩ := complete_block hc hE hs₁.advance.advance hss
    obtain ⟨s', ha, hr⟩ := complete_elseBlock hc hE (ht.moves.tidy hs₁.advance.advance) ha
    rw [hk]
    exact ⟨s', (yields_conditional hc).2 ⟨hl, _, s₁, hy, hp, hb, _, s₂, ht, _, ha, rfl⟩, hr⟩
  | function hk hl hns hb hss =>
    obtain ⟨rfl, -, hts⟩ := State.ahead_eq_cons_iff.1 hts
    obtain ⟨rfl, -, rfl⟩ := State.after_eq_cons_iff.1 hts
    obtain ⟨s₁, hy, hr⟩ := complete_parameters hns
    obtain ⟨rfl, -, rfl⟩ := State.after_eq_cons_iff.1 hr
    obtain ⟨s', ht, hr⟩ := complete_block hc hE (hy.moves.advance.tidy hs.advance) hss
    rw [hk]
    exact ⟨s', (yields_functionLiteral hc).2 ⟨hl, _, s₁, hy, hb, _, ht, rfl⟩, hr⟩

theorem sound_extension {power : Nat} {s s' : State} {left e : Node} (hs : s.Tidy)
    (h : Yields (iterate (extendStep cfg expression power) left) s e s') :
    Reads.Extension E power left s.after s'.after e := by
  refine yields_iterate_induction (P := fun left s => s.Tidy →
    Reads.Extension E power left s.after s'.after e) ?_ ?_ h hs
  · intro s hr _
    rcases (yields_extendStep hc).1 hr with ⟨hk, -, rfl⟩ | ⟨-, -, _, ho, -⟩ | ⟨-, -, _, ho, -⟩
    · exact .done (State.ends_after_iff.2 hk)
    · cases ho
    · cases ho
  · intro left left₁ s s₁ hr ih hs
    rcases (yields_extendStep hc).1 hr with ⟨-, ho, -⟩ | ⟨hi, hp, _, ho, hb⟩ | ⟨hl, hp, _, ho, hb⟩
    · cases ho
    · cases ho
      obtain ⟨right, rfl, he⟩ := (yields_binary hc).1 hb
      have ih := ih (he.moves.tidy hs.advance.advance)
      have he := hE.sound hs.advance.advance he
      rw [State.ahead_advance] at he
      rw [State.after_eq_cons (fun h => by rw [h] at hi; cases hi)]
      exact .binary hi hp he ih
    · cases ho
      obtain ⟨args, rfl, ha⟩ := (yields_call hc).1 hb
      have ih := ih (ha.moves.tidy hs.advance)
      rw [State.after_eq_cons (by rw [hl]; decide)]
      exact .call hl hp (sound_arguments hE hs.advance ha) ih

theorem complete_extension {power : Nat} {ts r : List Token} {left e : Node}
    (h : Reads.Extension E power left ts r e) : ∀ {s : State}, s.Tidy → s.after = ts →
      ∃ s', Yields (iterate (extendStep cfg expression power) left) s e s' ∧ s'.after = r := by
  induction h with
  | done hd =>
    rintro s _ rfl
    have hk := State.ends_after_iff.1 hd
    exact ⟨s, yields_iterate_stop ((yields_extendStep hc).2 (.inl ⟨hk, rfl, rfl⟩)), rfl⟩
  | binary hi hp he _ ih =>
    intro s hs hts
    obtain ⟨rfl, -, rfl⟩ := State.after_eq_cons_iff.1 hts
    rw [← State.ahead_advance] at he
    obtain ⟨s₁, hy, hm⟩ := hE.complete hs.advance.advance he
    obtain ⟨s', h', hr⟩ := ih (hy.moves.tidy hs.advance.advance) hm
    exact ⟨s', yields_iterate_again ((yields_extendStep hc).2
      (.inr (.inl ⟨hi, hp, _, rfl, (yields_binary hc).2 ⟨_, rfl, hy⟩⟩))) h', hr⟩
  | call hl hp ha _ ih =>
    intro s hs hts
    obtain ⟨rfl, -, rfl⟩ := State.after_eq_cons_iff.1 hts
    obtain ⟨s₁, hy, hm⟩ := complete_arguments hE hs.advance ha
    obtain ⟨s', h', hr⟩ := ih (hy.moves.tidy hs.advance) hm
    exact ⟨s', yields_iterate_again ((yields_extendStep hc).2
      (.inr (.inr ⟨hl, hp, _, rfl, (yields_call hc).2 ⟨_, rfl, hy⟩⟩))) h', hr⟩

/-! ## Programs -/

theorem sound_program {s s₁ : State} {ss ss' : List Node} (hs : s.Tidy)
    (h : Yields (iterate (programStep cfg expression) ss) s ss' s₁) :
    ∃ ss₁, ss' = ss ++ ss₁ ∧ Reads.Program E s.ahead ss₁ := by
  refine yields_iterate_induction (P := fun ss s => s.Tidy → ∃ ss₁, ss' = ss ++ ss₁ ∧
    Reads.Program E s.ahead ss₁) ?_ ?_ h hs
  · intro s hr hs
    rcases yields_programStep.1 hr with ⟨hk, -, rfl⟩ | ⟨-, _, _, -, ho, -⟩
    · refine ⟨[], (List.append_nil _).symm, ?_⟩
      rw [State.ahead_eq_nil_iff.2 hk]
      exact .nil
    · cases ho
  · rintro ss ss₀ s s₀ hr ih hs
    rcases yields_programStep.1 hr with ⟨-, ho, -⟩ | ⟨-, n, s₂, hn, ho, rfl⟩
    · cases ho
    · cases ho
      obtain ⟨ss₁, rfl, hb⟩ := ih (hn.moves.advance.tidy hs)
      rw [State.ahead_advance] at hb
      exact ⟨n :: ss₁, List.append_assoc .., .cons (sound_statement hc hE hs hn) hb⟩

theorem complete_program {ts : List Token} {ss₁ : List Node} (h : Reads.Program E ts ss₁) :
    ∀ {s : State} (ss : List Node), s.Tidy → s.ahead = ts →
      ∃ s₁, Yields (iterate (programStep cfg expression) ss) s (ss ++ ss₁) s₁ := by
  induction h with
  | nil =>
    intro s ss _ hts
    have hk := State.ahead_eq_nil_iff.1 hts
    rw [List.append_nil]
    exact ⟨s, yields_iterate_stop (yields_programStep.2 (.inl ⟨hk, rfl, rfl⟩))⟩
  | cons hn _ ih =>
    intro s ss hs hts
    obtain ⟨t, us, rfl, -⟩ := statement_starts hE hn
    obtain ⟨rfl, he, -⟩ := State.ahead_eq_cons_iff.1 hts
    rw [← hts] at hn
    obtain ⟨s₂, hy, rfl⟩ := complete_statement hc hE hs hn
    obtain ⟨s₁, h₁⟩ := ih (ss ++ [_]) (hy.moves.advance.tidy hs) (State.ahead_advance s₂)
    rw [List.append_assoc] at h₁
    exact ⟨s₁, yields_iterate_again (yields_programStep.2 (.inr ⟨he, _, s₂, hy, rfl, rfl⟩)) h₁⟩

end

/-! ## The parser itself -/

theorem start_starts {E : Nat → Reading Node} {ts r : List Token} {e : Node}
    (h : Reads.Start E ts r e) : ∃ t us, ts = t :: us ∧ (starter? t.kind).isSome := by
  cases h with
  | identifier hk => exact ⟨_, _, rfl, by rw [hk]; rfl⟩
  | integer hk _ _ => exact ⟨_, _, rfl, by rw [hk]; rfl⟩
  | string hk => exact ⟨_, _, rfl, by rw [hk]; rfl⟩
  | boolean hk => exact ⟨_, _, rfl, by rcases hk with hk | hk <;> rw [hk] <;> rfl⟩
  | unary hk _ => exact ⟨_, _, rfl, by rcases hk with hk | hk <;> rw [hk] <;> rfl⟩
  | group hk _ _ => exact ⟨_, _, rfl, by rw [hk]; rfl⟩
  | conditional hk _ _ _ _ _ _ => exact ⟨_, _, rfl, by rw [hk]; rfl⟩
  | function hk _ _ _ _ => exact ⟨_, _, rfl, by rw [hk]; rfl⟩

/-- **The parser of expressions gives what the relation says**, whatever it has room for. -/
theorem exact_expression {cfg : Config} (hc : cfg.Plain) :
    ∀ budget, Exact (expression cfg budget) (Reads.Expression budget) := by
  intro budget
  induction budget with
  | zero =>
    -- with no room left the parser only reports, and the relation holds of nothing
    refine ⟨fun _ h => ?_, fun _ h => h.elim, fun h => h.elim⟩
    have h := yields_cur_bind.1 h
    exact absurd h yields_throw
  | succ budget ih =>
    refine ⟨fun {power s s' e} hs h => ?_, fun {power s r e} hs h => ?_, fun h => ?_⟩
    · obtain ⟨s₁, hw, rfl⟩ := yields_nested.1 h
      obtain ⟨left, s₂, hl, hx⟩ := (yields_expressionWith hc).1 hw
      have hs' : State.Tidy { s with nesting := s.nesting + 1 } := hs
      have hx := sound_extension hc ih (hl.moves.tidy hs') hx
      have hl := sound_startExpression hc ih hs' hl
      exact ⟨_, left, hl, hx⟩
    · obtain ⟨m, left, hl, hx⟩ := h
      have hs' : State.Tidy { s with nesting := s.nesting + 1 } := hs
      obtain ⟨s₂, hl, hm⟩ := complete_startExpression hc ih hs' hl
      obtain ⟨s₁, hx, hr⟩ := complete_extension hc ih hx (hl.moves.tidy hs') hm
      exact ⟨_, yields_nested.2 ⟨s₁, (yields_expressionWith hc).2 ⟨left, s₂, hl, hx⟩, rfl⟩, hr⟩
    · obtain ⟨m, left, hl, -⟩ := h
      exact start_starts hl

theorem ahead_ofTokens (ts : List Token) : (State.ofTokens ts).ahead = visible ts := by
  cases ts with
  | nil => rfl
  | cons t ts => rfl

theorem tidy_ofTokens {ts : List Token} (h : Ended ts) : (State.ofTokens ts).Tidy := by
  cases ts with
  | nil => intro t ht; cases ht
  | cons t ts => exact h

/-- **A list of tokens has no diagnostics iff the relation says what it stands for**, and that is
then the tree. -/
theorem errors_ofTokens_eq_nil_iff {ts : List Token} {m : Int} {n : Node} (h : Ended ts) :
    (Parsed.ofTokens ts { maxNesting := m }).errors = [] ∧
        (Parsed.ofTokens ts { maxNesting := m }).program = n ↔
      ∃ ss, n = .program .start ss ∧
        Reads.Program (Reads.Expression m.toNat) (visible ts) ss := by
  have hc := Config.plain m
  have hE := exact_expression hc m.toNat
  have hs := tidy_ofTokens h
  -- nothing is active before the first token, so that the whole limit is left
  have hb : (m - ((State.ofTokens ts).nesting : Int)).toNat = m.toNat := by
    show (m - ((0 : Nat) : Int)).toNat = m.toNat
    rw [Int.natCast_zero, Int.sub_zero]
  rw [← ahead_ofTokens]
  have hy : (∃ s', Yields (parseProgram { maxNesting := m }) (State.ofTokens ts) n s') ↔
      ∃ ss, n = .program .start ss ∧
        Reads.Program (Reads.Expression m.toNat) (State.ofTokens ts).ahead ss := by
    unfold parseProgram programWith
    simp only [yields_get_bind, hb, bind_pure_comp, yields_map]
    constructor
    · rintro ⟨s', ss, rfl, hy⟩
      obtain ⟨ss₁, rfl, hp⟩ := sound_program hc hE hs hy
      exact ⟨_, rfl, hp⟩
    · rintro ⟨ss, rfl, hp⟩
      obtain ⟨s', hy⟩ := complete_program hc hE hp [] hs rfl
      exact ⟨s', ss, rfl, hy⟩
  rw [← hy]
  unfold Yields Gives Parsed.ofTokens
  rcases parseProgram { maxNesting := m } (State.ofTokens ts) with ⟨d | n', s'⟩
  · simp
  · constructor
    · rintro ⟨he, rfl⟩
      exact ⟨s', rfl, he⟩
    · rintro ⟨_, heq, he⟩
      cases heq
      exact ⟨he, rfl⟩

end Scriptlet.Parser
