import Scriptlet.Proofs.Parser.Sequence

/-!
# Where expressions start

A parser complains about the current token only where an expression starts there, and about the next
one otherwise. An expression starts at a token that the parse has just moved to: at the first token
of a statement, or behind a token of the rule that it is an operand of. So what holds where the
parse has just moved to a token holds wherever an expression starts, whatever failed before.

* `Footing`: what it takes for an expression to start, and for the parse to fail.
* `Footing.Leads`: a parser that starts on a footing ends on one.
* `leads_bareStatement`, `leads_programWith`: statements do if expressions do, and programs if
  failed statements can be recovered from.
* `ends_expressionWith`: an expression does where the current token starts one.
* `exists_next_ofTokens`: the whole parse does.
-/

namespace Scriptlet.Parser

open Syntax (Node)
open Token (Kind)

/-- What a parse stands on. Where it has just moved to a token it is `ready`, and an expression may
`start` there; where one may start, the parse is ready for the next token. There it may have
`failed` with a complaint about that token. What is counted and recorded beside the tokens and the
diagnostics does not matter. -/
structure Footing where
  ready : State → Prop
  start : State → Prop
  failed : Diagnostic → State → Prop
  starts {s : State} : ready s → start s
  moved {s : State} : start s → ready s.advance
  unexpected {s : State} (kind : Kind) :
    ready s.advance → failed ⟨.unexpected kind s.peek.kind, s.peek.pos⟩ s
  ready_counted {s : State} (nesting traceLevel : Nat) (trace : List TraceLine) :
    ready s → ready { s with nesting, traceLevel, trace }
  start_counted {s : State} (nesting traceLevel : Nat) (trace : List TraceLine) :
    start s → start { s with nesting, traceLevel, trace }
  failed_counted {d : Diagnostic} {s : State} (nesting traceLevel : Nat) (trace : List TraceLine) :
    failed d s → failed d { s with nesting, traceLevel, trace }

namespace Footing

variable (F : Footing)

/-- The parse is ready once it moves to the next token. -/
def next (s : State) : Prop := F.ready s.advance

/-- A parser ends where the parse is ready for the next token, or where it may fail. -/
def Ends {α : Type} : Except Diagnostic α × State → Prop
  | (.ok _, s) => F.next s
  | (.error d, s) => F.failed d s

/-- A parser that ends so from all states with the given property. -/
def Leads (before : State → Prop) {α : Type} (p : Parser α) : Prop :=
  ∀ s, before s → F.Ends (p s)

variable {F} {α β : Type} {before : State → Prop}

/-! ## Parsers without expressions inside -/

theorem next_of_ready {s : State} (h : F.ready s) : F.next s := F.moved (F.starts h)

theorem Leads.start {p : Parser α} (h : F.Leads F.next p) : F.Leads F.start p :=
  fun s hs => h s (F.moved hs)

theorem leads_give (a : α) : F.Leads F.next (pure a) := fun _ h => h

theorem leads_cur : F.Leads F.next cur := fun _ h => h

theorem leads_peek : F.Leads F.next peek := fun _ h => h

theorem leads_advance : F.Leads F.next advance := fun _ h => next_of_ready h

theorem leads_skipSemicolons : F.Leads F.next (modify State.skipSemicolons) := by
  intro s h
  show F.next s.skipSemicolons
  fun_induction State.skipSemicolons s with
  | case1 s _ ih => exact ih (next_of_ready h)
  | case2 s _ => exact h

theorem leads_expect (kind : Kind) : F.Leads F.next (expect kind) := by
  intro s h
  by_cases hpeek : s.peek.kind = kind
  · rw [expect_run_of_peek hpeek]
    exact next_of_ready h
  · rw [expect_run_of_not_peek hpeek]
    exact F.unexpected kind h

theorem Ends.bind {p : Parser α} {f : α → Parser β} {s : State} (hp : F.Ends (p s))
    (hf : ∀ a, F.Leads F.next (f a)) : F.Ends ((p >>= f) s) := by
  rw [bind_run]
  rcases h : p s with ⟨d | a, s₁⟩
  · rw [h] at hp
    exact hp
  · rw [h] at hp
    exact hf a s₁ hp

theorem Leads.bind {p : Parser α} {f : α → Parser β} (hp : F.Leads before p)
    (hf : ∀ a, F.Leads F.next (f a)) : F.Leads before (p >>= f) := fun s hs => (hp s hs).bind hf

theorem Leads.cur_bind {f : Token → Parser β} (hf : ∀ t, F.Leads before (f t)) :
    F.Leads before (cur >>= f) := fun s => hf s.cur s

/-- A parser that counts and records around another ends where that one does. -/
theorem Ends.counted {q p : Parser α} (hq : Counts q p) {s : State}
    (hp : ∀ nesting traceLevel trace, F.Ends (p { s with nesting, traceLevel, trace })) :
    F.Ends (q s) := by
  obtain ⟨n, l, t, n', l', t', hrun⟩ := hq s
  have hends := hp n l t
  rw [hrun]
  rcases h : p { s with nesting := n, traceLevel := l, trace := t } with ⟨d | a, s₁⟩
  · rw [h] at hends
    exact F.failed_counted n' l' t' hends
  · rw [h] at hends
    exact F.ready_counted n' l' t' hends

theorem Leads.counted {q p : Parser α} (hq : Counts q p) (hp : F.Leads F.next p) :
    F.Leads F.next q :=
  fun _ hs => Ends.counted hq fun _ _ _ => hp _ (F.ready_counted _ _ _ hs)

theorem Leads.counted_start {q p : Parser α} (hq : Counts q p) (hp : F.Leads F.start p) :
    F.Leads F.start q :=
  fun _ hs => Ends.counted hq fun _ _ _ => hp _ (F.start_counted _ _ _ hs)

/-- A round of a loop ends where the next one may start, or as the loop does. -/
def EndsRound (F : Footing) (before : State → Prop) : Except Diagnostic (Option α) × State → Prop
  | (.ok (some _), s) => before s
  | (.ok none, s) => F.next s
  | (.error d, s) => F.failed d s

theorem leads_rounds {step : α → Parser (Option α)} [Ending step]
    (hstep : ∀ a s, before s → F.EndsRound before (step a s)) (a : α) :
    F.Leads before (iterate step a) := by
  intro s hs
  refine iterate_induction (P := fun _ s r => before s → F.Ends r) ?_ ?_ ?_ a s hs
  · intro a s s' h hs
    have hround := hstep a s hs
    rw [h] at hround
    exact hround
  · intro a s d s' h hs
    have hround := hstep a s hs
    rw [h] at hround
    exact hround
  · intro a a₁ s s₁ r h ih hs
    have hround := hstep a s hs
    rw [h] at hround
    exact ih hround

theorem leads_iterate {step : α → Parser (Option α)} [Ending step]
    (hstep : ∀ a, F.Leads F.next (step a)) (a : α) : F.Leads F.next (iterate step a) := by
  refine leads_rounds (fun a s hs => ?_) a
  have hends := hstep a s hs
  rcases h : step a s with ⟨d | o, s₁⟩
  · rw [h] at hends
    exact hends
  · rw [h] at hends
    cases o <;> exact hends

theorem leads_identifier : F.Leads F.next identifier := leads_cur.bind fun _ => leads_give _

theorem leads_expectName : F.Leads F.next expectName :=
  (leads_expect _).bind fun _ => leads_identifier

theorem leads_parameters : F.Leads F.next parameters := by
  have hstep : ∀ names, F.Leads F.next (parametersStep names) := by
    intro names
    refine leads_peek.bind fun token => ?_
    split
    · exact leads_give _
    · refine leads_advance.bind fun _ => ?_
      exact leads_expectName.bind fun _ => leads_give _
  refine leads_peek.bind fun token => ?_
  split
  · exact leads_advance.bind fun _ => leads_give _
  · refine leads_expectName.bind fun first => ?_
    refine (leads_iterate hstep _).bind fun names => ?_
    exact (leads_expect _).bind fun _ => leads_give _

/-- An integer may be refused, at the current token. -/
theorem ends_integer {cfg : Config} {s : State} (hnext : F.next s)
    (hinteger : F.failed ⟨.badInteger s.cur.text, s.cur.pos⟩ s) : F.Ends (integer cfg s) := by
  refine Ends.counted (counts_traced cfg .integer _) fun n l t => ?_
  have hfailed := F.failed_counted n l t hinteger
  have hcur : ∀ s, cur s = (.ok s.cur, s) := fun _ => rfl
  rw [bind_run, hcur]
  dsimp only
  cases Numeral.parse? s.cur.text with
  | none => exact hfailed
  | some value =>
    dsimp only
    split
    · exact hfailed
    · exact F.ready_counted n l t hnext

/-! ## Statements -/

section

variable {cfg : Config} {e : Nat → Parser Node} (he : ∀ power, F.Leads F.start (e power))

include he

/-- An operand is ready where the parse has moved to its first token. -/
theorem leads_operand (power : Nat) {k : Node → Parser β} (hk : ∀ n, F.Leads F.next (k n)) :
    F.Leads F.next (advance >>= fun _ => e power >>= k) :=
  fun s hs => (he power).bind hk s.advance (F.starts hs)

theorem leads_letStatement : F.Leads F.next (letStatement cfg e) := by
  refine Leads.counted (counts_traced cfg .letStatement _) ?_
  refine leads_cur.bind fun first => leads_expectName.bind fun name => ?_
  refine (leads_expect _).bind fun _ => leads_operand he _ fun value => ?_
  exact leads_skipSemicolons.bind fun _ => leads_give _

theorem leads_returnStatement : F.Leads F.next (returnStatement cfg e) := by
  refine Leads.counted (counts_traced cfg .returnStatement _) ?_
  refine leads_cur.bind fun first => leads_operand he _ fun value => ?_
  exact leads_skipSemicolons.bind fun _ => leads_give _

/-- An expression that is a statement starts at the first token of the statement. -/
theorem leads_expressionStatement : F.Leads F.start (expressionStatement cfg e) := by
  refine Leads.counted_start (counts_traced cfg .expressionStatement _) ?_
  refine Leads.cur_bind fun first => (he _).bind fun value => leads_peek.bind fun token => ?_
  split
  · exact leads_advance.bind fun _ => leads_give _
  · exact leads_give _

theorem leads_bareStatement : F.Leads F.start (bareStatement cfg e) := by
  refine Leads.cur_bind fun token => ?_
  split
  · exact (leads_letStatement he).start
  · exact (leads_returnStatement he).start
  · exact leads_expressionStatement he

end

/-! ## Blocks and programs -/

/-- A statement that is started at a token ends where the parse is ready for the next one, also if
it fails and its diagnostic is reported. -/
def Recovers (F : Footing) (p : Parser α) : Prop :=
  ∀ s, F.ready s → s.cur.kind ≠ .eof →
    match p s with
    | (.ok _, s₁) => F.next s₁
    | (.error d, s₁) => F.next (s₁.report d)

theorem Leads.recovers {p : Parser α} (hp : F.Leads F.start p)
    (hreported : ∀ d s, F.failed d s → F.next (s.report d)) : F.Recovers p := by
  intro s hs _
  have hends := hp s (F.starts hs)
  rcases h : p s with ⟨d | a, s₁⟩
  · rw [h] at hends
    exact hreported d s₁ hends
  · rw [h] at hends
    exact hends

/-- What is skipped behind a failed statement is moved over. -/
theorem next_synchronize (depth : Int) {s : State} (h : F.next s) :
    F.next (s.synchronize depth) := by
  fun_induction State.synchronize depth s with
  | case1 s _ => exact h
  | case2 s _ ih => exact ih (next_of_ready h)

section

variable {cfg : Config} {e : Nat → Parser Node} (hstatement : F.Recovers (bareStatement cfg e))

include hstatement

theorem endsRound_blockStep (depth : Int) (ss : List Node) {s : State} (hs : F.ready s) :
    F.EndsRound F.ready (blockStep cfg e depth ss s) := by
  rw [blockStep_run]
  split
  · exact next_of_ready hs
  rename_i hkind
  have hends := hstatement s hs fun heof => hkind (.inr heof)
  rcases h : bareStatement cfg e s with ⟨d | n, s₁⟩
  · rw [h] at hends
    -- whether the block is left here or goes on, the parse is ready for the next token
    have hnext := next_synchronize s.braceDepth hends
    dsimp only
    split
    · exact hnext
    · exact hnext
  · rw [h] at hends
    exact hends

theorem endsRound_programStep (ss : List Node) {s : State} (hs : F.ready s) :
    F.EndsRound F.ready (programStep cfg e ss s) := by
  rw [programStep_run]
  split
  · exact next_of_ready hs
  rename_i hkind
  have hends := hstatement s hs hkind
  rcases h : bareStatement cfg e s with ⟨d | n, s₁⟩
  · rw [h] at hends
    exact next_synchronize s.braceDepth hends
  · rw [h] at hends
    exact hends

variable [∀ power, Moving (e power)]

/-- The first statement of a block starts behind its opening brace. -/
theorem leads_block : F.Leads F.next (block cfg e) := by
  refine Leads.counted (counts_block cfg e) fun s hs => ?_
  rw [blockBody_run]
  have hloop : F.Leads F.ready (iterate (blockStep cfg e s.braceDepth) []) :=
    leads_rounds (fun ss _ hs => endsRound_blockStep hstatement s.braceDepth ss hs) []
  exact hloop.bind (fun _ => leads_give _) s.advance hs

theorem leads_programWith : F.Leads F.ready (programWith cfg e) := by
  have hloop : F.Leads F.ready (iterate (programStep cfg e) []) :=
    leads_rounds (fun ss _ hs => endsRound_programStep hstatement ss hs) []
  exact hloop.bind fun _ => leads_give _

end

/-! ## Expressions -/

section

variable {cfg : Config} {e : Nat → Parser Node} (he : ∀ power, F.Leads F.start (e power))

include he

theorem leads_unary : F.Leads F.next (unary cfg e) := by
  refine Leads.counted (counts_traced cfg .unary _) ?_
  exact leads_cur.bind fun token => leads_operand he _ fun _ => leads_give _

theorem leads_binary (left : Node) : F.Leads F.next (binary cfg e left) := by
  refine Leads.counted (counts_traced cfg .binary _) ?_
  exact leads_cur.bind fun token => leads_operand he _ fun _ => leads_give _

theorem leads_group : F.Leads F.next (group e) :=
  leads_operand he _ fun _ => (leads_expect _).bind fun _ => leads_give _

variable (hstatement : F.Recovers (bareStatement cfg e)) [∀ power, Moving (e power)]

include hstatement

omit he in
theorem leads_elseBlock : F.Leads F.next (elseBlock cfg e) := by
  refine leads_peek.bind fun token => ?_
  split
  · exact leads_give _
  · refine leads_advance.bind fun _ => (leads_expect _).bind fun _ => ?_
    exact (leads_block hstatement).bind fun _ => leads_give _

theorem leads_conditional : F.Leads F.next (conditional cfg e) := by
  refine Leads.counted (counts_traced cfg .conditional _) ?_
  refine leads_cur.bind fun token => (leads_expect _).bind fun _ => ?_
  refine leads_operand he _ fun condition => ?_
  refine (leads_expect _).bind fun _ => (leads_expect _).bind fun _ => ?_
  refine (leads_block hstatement).bind fun consequence => ?_
  exact (leads_elseBlock hstatement).bind fun _ => leads_give _

omit he in
theorem leads_functionLiteral : F.Leads F.next (functionLiteral cfg e) := by
  refine Leads.counted (counts_traced cfg .function _) ?_
  refine leads_cur.bind fun token => (leads_expect _).bind fun _ => ?_
  refine leads_parameters.bind fun names => (leads_expect _).bind fun _ => ?_
  exact (leads_block hstatement).bind fun _ => leads_give _

omit hstatement in
theorem leads_arguments : F.Leads F.next (arguments e) := by
  have hstep : ∀ args, F.Leads F.next (argumentsStep e args) := by
    intro args
    refine leads_peek.bind fun token => ?_
    split
    · exact leads_give _
    · exact leads_advance.bind fun _ => leads_operand he _ fun _ => leads_give _
  refine leads_peek.bind fun token => ?_
  split
  · exact leads_advance.bind fun _ => leads_give _
  · refine leads_operand he _ fun first => ?_
    refine (leads_iterate hstep _).bind fun args => ?_
    exact (leads_expect _).bind fun _ => leads_give _

omit hstatement in
theorem leads_call (left : Node) : F.Leads F.next (call cfg e left) := by
  refine Leads.counted (counts_traced cfg .call _) ?_
  exact leads_cur.bind fun token => (leads_arguments he).bind fun _ => leads_give _

omit hstatement in
theorem leads_extendStep (power : Nat) (left : Node) :
    F.Leads F.next (extendStep cfg e power left) := by
  refine leads_peek.bind fun next => ?_
  split
  · exact leads_give _
  split
  · exact leads_give _
  · exact leads_advance.bind fun _ => (leads_binary he left).bind fun _ => leads_give _
  · exact leads_advance.bind fun _ => (leads_call he left).bind fun _ => leads_give _

/-- An expression needs to be ready for what is behind its first token only, unless that token is
refused as an integer. -/
theorem ends_startExpression {s : State} (hnext : F.next s)
    (hinteger : F.failed ⟨.badInteger s.cur.text, s.cur.pos⟩ s)
    (hstart : cfg.starter? s.cur.kind ≠ none) : F.Ends (startExpression cfg e s) := by
  have hcur : cur s = (.ok s.cur, s) := rfl
  rw [startExpression, bind_run, hcur]
  dsimp only
  cases h : cfg.starter? s.cur.kind with
  | none => exact absurd h hstart
  | some starter =>
    cases starter with
    | identifier => exact leads_identifier s hnext
    | integer => exact ends_integer hnext hinteger
    | string => exact (leads_cur.bind fun _ => leads_give _) s hnext
    | boolean => exact (leads_cur.bind fun _ => leads_give _) s hnext
    | unary => exact leads_unary he s hnext
    | group => exact leads_group he s hnext
    | conditional => exact leads_conditional he hstatement s hnext
    | function => exact leads_functionLiteral hstatement s hnext

/-- **An expression ends on a footing** if the expressions inside do, where the current token
starts one. -/
theorem ends_expressionWith (power : Nat) {s : State} (hnext : F.next s)
    (hinteger : F.failed ⟨.badInteger s.cur.text, s.cur.pos⟩ s)
    (hstart : cfg.starter? s.cur.kind ≠ none) : F.Ends (expressionWith cfg e power s) := by
  refine Ends.counted (counts_traced cfg .expression _) fun n l t => ?_
  have hnext' : F.next { s with nesting := n, traceLevel := l, trace := t } :=
    F.ready_counted n l t hnext
  have hfirst := ends_startExpression he hstatement hnext' (F.failed_counted n l t hinteger) hstart
  exact hfirst.bind (leads_iterate (leads_extendStep he power))

end

/-- Where no expression starts, the current token is refused. -/
theorem ends_expressionWith_of_refused {cfg : Config} {e : Nat → Parser Node} (power : Nat)
    {s : State} (hfailed : F.failed ⟨.noExpression s.cur.kind, s.cur.pos⟩ s)
    (hstart : cfg.starter? s.cur.kind = none) : F.Ends (expressionWith cfg e power s) := by
  refine Ends.counted (counts_traced cfg .expression _) fun n l t => ?_
  have hcur : ∀ s, cur s = (.ok s.cur, s) := fun _ => rfl
  rw [bind_run, startExpression, bind_run, hcur]
  dsimp only
  rw [hstart]
  exact F.failed_counted n l t hfailed

/-- **There may be one more expression open** where each token that one starts at may be complained
about. -/
theorem leads_expression_succ {cfg : Config} {budget : Nat}
    (he : ∀ power, F.Leads F.start (expression cfg budget power))
    (hstatement : F.Recovers (bareStatement cfg (expression cfg budget)))
    (hcur : ∀ {s} complaint, F.start s → F.failed ⟨complaint, s.cur.pos⟩ s) (power : Nat) :
    F.Leads F.start (expression cfg (budget + 1) power) := by
  refine Leads.counted_start (counts_nested _) fun s hs => ?_
  by_cases hstart : cfg.starter? s.cur.kind = none
  · exact ends_expressionWith_of_refused power (hcur _ hs) hstart
  · exact ends_expressionWith he hstatement power (F.moved hs) (hcur _ hs) hstart

/-! ## The whole parse -/

/-- **A parse that is ready at its first token ends on a footing**, with all its diagnostics
reported. -/
theorem exists_next_ofTokens {cfg : Config} {ts : List Token}
    (hstatement : F.Recovers (bareStatement cfg (expression cfg cfg.maxNesting.toNat)))
    (hstart : F.ready (State.ofTokens ts)) :
    ∃ s, F.next s ∧ s.errors = (Parsed.ofTokens ts cfg).errors := by
  obtain ⟨s, hrun, herrors⟩ := parseProgram_eq_ok cfg ts
  have hends := leads_programWith hstatement _ hstart
  rw [← parseProgram_ofTokens, hrun] at hends
  exact ⟨s, hends, herrors⟩

end Footing

end Scriptlet.Parser
