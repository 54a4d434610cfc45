import Scriptlet.Proofs.Parser.Loops

/-!
# Properties that parsers inherit

The parsers of expressions are put together in a few ways: one after the other, over a token of a
given kind, for an operand, for a block, repeated. A property that all of these keep holds of
every expression, whatever its depth.

* `Counts`: a parser that runs another and only counts and records around it.
* `Refuses`: a parser that fails on the spot where no expression starts.
* `Compositional`: a property of parsers that is kept by the ways of putting them together.
* `Compositional.holds_expression`: such a property holds of the parser of expressions.
-/

namespace Scriptlet.Parser

open Syntax (Node)
open Token (Kind)

/-- The kinds of token that bound statements: braces, semicolons and the end of the text. -/
def bounding : Kind → Bool
  | .lbrace | .rbrace | .semicolon | .eof => true
  | _ => false

theorem starter?_of_bounding {kind : Kind} (h : bounding kind) : starter? kind = none := by
  cases kind <;> simp_all [bounding, starter?]

theorem bounding_of_continuer? {cfg : Config} {kind : Kind} {c : Continuer}
    (h : cfg.continuer? kind = some c) : bounding kind = false := by
  unfold Config.continuer? at h
  split at h
  · cases h
  · cases kind <;> simp_all [bounding, continuer?, Kind.isInfix]

/-! ## What only counts -/

/-- `q` runs `p`, and changes nothing beside it but what is counted and recorded. -/
def Counts {α : Type} (q p : Parser α) : Prop :=
  ∀ s : State, ∃ nesting traceLevel trace nesting' traceLevel' trace',
    q s = ((p { s with nesting, traceLevel, trace }).1,
      { (p { s with nesting, traceLevel, trace }).2 with
        nesting := nesting', traceLevel := traceLevel', trace := trace' })

theorem counts_nested {α : Type} (p : Parser α) : Counts (nested p) p :=
  fun _ => ⟨_, _, _, _, _, _, rfl⟩

theorem counts_traced {α : Type} (cfg : Config) (rule : Rule) (p : Parser α) :
    Counts (traced cfg rule p) p := by
  intro s
  unfold traced
  split
  · exact ⟨_, _, _, _, _, _, rfl⟩
  · exact ⟨s.nesting, s.traceLevel, s.trace, _, _, _, rfl⟩

/-! ## Where no expression starts -/

/-- A parser that fails on the spot where no expression starts: with a complaint about the kind of
that token, and having moved over none. -/
def Refuses {α : Type} (p : Parser α) : Prop :=
  ∃ complaint : Kind → Complaint,
    (∀ kind, complaint kind = .noExpression kind ∨ ∃ limit, complaint kind = .tooDeep limit) ∧
    ∀ s : State, starter? s.cur.kind = none → ∃ nesting traceLevel trace,
      p s = (.error ⟨complaint s.cur.kind, s.cur.pos⟩, { s with nesting, traceLevel, trace })

theorem Refuses.bind {α β : Type} {p : Parser α} {f : α → Parser β} (hp : Refuses p) :
    Refuses (p >>= f) := by
  obtain ⟨c, hc, hp⟩ := hp
  refine ⟨c, hc, fun s hs => ?_⟩
  obtain ⟨n, l, t, hrun⟩ := hp s hs
  refine ⟨n, l, t, ?_⟩
  rw [bind_run, hrun]

theorem Refuses.counted {α : Type} {q p : Parser α} (hq : Counts q p) (hp : Refuses p) :
    Refuses q := by
  obtain ⟨c, hc, hp⟩ := hp
  refine ⟨c, hc, fun s hs => ?_⟩
  obtain ⟨n, l, t, n', l', t', hrun⟩ := hq s
  obtain ⟨_, _, _, hinside⟩ := hp { s with nesting := n, traceLevel := l, trace := t } hs
  refine ⟨n', l', t', ?_⟩
  rw [hrun, hinside]

theorem refuses_startExpression (cfg : Config) (e : Nat → Parser Node) :
    Refuses (startExpression cfg e) := by
  refine ⟨.noExpression, fun _ => .inl rfl, fun s hs => ?_⟩
  have hstart : cfg.starter? s.cur.kind = none := by
    unfold Config.starter?
    split
    · rfl
    · exact hs
  have hcur : cur s = (.ok s.cur, s) := rfl
  refine ⟨s.nesting, s.traceLevel, s.trace, ?_⟩
  rw [startExpression, bind_run, hcur]
  dsimp only
  rw [hstart]
  rfl

theorem refuses_expression (cfg : Config) (budget power : Nat) :
    Refuses (expression cfg budget power) := by
  cases budget with
  | zero =>
    refine ⟨fun _ => .tooDeep cfg.maxNesting, fun _ => .inr ⟨_, rfl⟩, fun s _ => ?_⟩
    exact ⟨s.nesting, s.traceLevel, s.trace, rfl⟩
  | succ budget =>
    have hstart := refuses_startExpression cfg (expression cfg budget)
    exact (hstart.bind.counted (counts_traced cfg .expression _)).counted (counts_nested _)

/-! ## A token that is expected -/

theorem expect_run_of_peek {kind : Kind} {s : State} (h : s.peek.kind = kind) :
    expect kind s = advance s := by
  have hpeek : peek s = (.ok s.peek, s) := rfl
  rw [expect, bind_run, hpeek]
  dsimp only
  rw [if_pos h]

theorem expect_run_of_not_peek {kind : Kind} {s : State} (h : s.peek.kind ≠ kind) :
    expect kind s = (.error ⟨.unexpected kind s.peek.kind, s.peek.pos⟩, s) := by
  have hpeek : peek s = (.ok s.peek, s) := rfl
  rw [expect, bind_run, hpeek]
  dsimp only
  rw [if_neg h]
  rfl

/-! ## Statements and the rounds of a block -/

/-- A statement, which may fail. -/
def bareStatement (cfg : Config) (e : Nat → Parser Node) : Parser Node := do
  match (← cur).kind with
  | .letKey => letStatement cfg e
  | .returnKey => returnStatement cfg e
  | _ => expressionStatement cfg e

theorem statement_eq_recovering (cfg : Config) (e : Nat → Parser Node) :
    statement cfg e = recovering (bareStatement cfg e) := rfl

instance (cfg : Config) (e : Nat → Parser Node) [∀ power, Moving (e power)] :
    Moving (bareStatement cfg e) := by
  have (token : Token) : Moving (match token.kind with
      | .letKey => letStatement cfg e
      | .returnKey => returnStatement cfg e
      | _ => expressionStatement cfg e) := by
    split <;> infer_instance
  exact inferInstanceAs (Moving (cur >>= _))

theorem bareStatement_run_of_bounding {cfg : Config} {e : Nat → Parser Node} {s : State}
    (h : bounding s.cur.kind) : bareStatement cfg e s = expressionStatement cfg e s := by
  show (match s.cur.kind with
    | .letKey => letStatement cfg e
    | .returnKey => returnStatement cfg e
    | _ => expressionStatement cfg e : Parser Node) s = _
  cases hk : s.cur.kind <;> simp_all [bounding]

theorem refuses_expressionStatement (cfg : Config) {e : Nat → Parser Node}
    (hr : ∀ power, Refuses (e power)) : Refuses (expressionStatement cfg e) := by
  have hbody : Refuses (do
      let first ← cur
      let value ← e Kind.lowestPower
      if (← peek).kind = .semicolon then advance
      return Node.statement first.pos value) := by
    obtain ⟨c, hc, hrun⟩ := hr Kind.lowestPower
    refine ⟨c, hc, fun s hs => ?_⟩
    obtain ⟨n, l, t, hrun⟩ := hrun s hs
    refine ⟨n, l, t, ?_⟩
    show (e Kind.lowestPower >>= _) s = _
    rw [bind_run, hrun]
  exact hbody.counted (counts_traced cfg .expressionStatement _)

/-- A round of a block: it ends at a closing brace, at the end of the text, and after a failed
statement that leaves the block. -/
theorem blockStep_run (cfg : Config) (e : Nat → Parser Node) (depth : Int) (ss : List Node)
    (s : State) :
    blockStep cfg e depth ss s =
      if s.cur.kind = .rbrace ∨ s.cur.kind = .eof then (.ok none, s)
      else match bareStatement cfg e s with
        | (.ok n, s₁) => (.ok (some (ss ++ [n])), s₁.advance)
        | (.error d, s₁) =>
          if ((s₁.report d).synchronize s.braceDepth).braceDepth < depth then
            (.ok none, (s₁.report d).synchronize s.braceDepth)
          else (.ok (some ss), ((s₁.report d).synchronize s.braceDepth).advance) := by
  unfold blockStep
  have hcur : cur s = (.ok s.cur, s) := rfl
  rw [bind_run, hcur]
  dsimp only
  split
  · rfl
  · rw [bind_run, statement_eq_recovering, recovering_run]
    rcases bareStatement cfg e s with ⟨d | n, s₁⟩
    · dsimp only
      rw [bind_run]
      show (if _ then _ else _ : Parser (Option (List Node))) _ = _
      split
      · rfl
      · rfl
    · rfl

/-- A round of a program: it ends at the end of the text only. -/
theorem programStep_run (cfg : Config) (e : Nat → Parser Node) (ss : List Node) (s : State) :
    programStep cfg e ss s =
      if s.cur.kind = .eof then (.ok none, s)
      else match bareStatement cfg e s with
        | (.ok n, s₁) => (.ok (some (ss ++ [n])), s₁.advance)
        | (.error d, s₁) =>
          (.ok (some ss), ((s₁.report d).synchronize s.braceDepth).advance) := by
  unfold programStep
  have hcur : cur s = (.ok s.cur, s) := rfl
  rw [bind_run, hcur]
  dsimp only
  split
  · rfl
  · rw [bind_run, statement_eq_recovering, recovering_run]
    rcases bareStatement cfg e s with ⟨d | n, s₁⟩
    · show (Except.ok (some (ss ++ [])), _) = _
      rw [List.append_nil]
    · rfl

/-- A block without the record of its rule. -/
def blockBody (cfg : Config) (e : Nat → Parser Node) : Parser Node := do
  let first ← cur
  let depth := (← get).braceDepth
  advance
  return .block first.pos (← iterate (blockStep cfg e depth) [])

theorem counts_block (cfg : Config) (e : Nat → Parser Node) :
    Counts (block cfg e) (blockBody cfg e) := counts_traced cfg .block _

theorem blockBody_run (cfg : Config) (e : Nat → Parser Node) (s : State) :
    blockBody cfg e s =
      (iterate (blockStep cfg e s.braceDepth) [] >>= fun ss => pure (.block s.cur.pos ss))
        s.advance := rfl

theorem gives_blockBody {cfg : Config} {e : Nat → Parser Node} {s s' : State} {ss : List Node}
    (h : Gives (iterate (blockStep cfg e s.braceDepth) []) s.advance ss s') :
    Gives (blockBody cfg e) s (.block s.cur.pos ss) s' := by
  unfold Gives
  rw [blockBody_run, bind_run, h]
  rfl

/-- No expression is open before the first token, so that the whole limit is left. -/
theorem parseProgram_ofTokens (cfg : Config) (ts : List Token) :
    parseProgram cfg (State.ofTokens ts) =
      programWith cfg (expression cfg cfg.maxNesting.toNat) (State.ofTokens ts) := by
  have hget : (get : Parser State) (State.ofTokens ts) =
      (.ok (State.ofTokens ts), State.ofTokens ts) := rfl
  have hnesting : (State.ofTokens ts).nesting = 0 := rfl
  rw [parseProgram, bind_run, hget]
  dsimp only
  rw [hnesting, Int.natCast_zero, Int.sub_zero]

/-- A step of an expression over the token ahead, which it expects rather than takes. -/
def extendOver (cfg : Config) (e : Nat → Parser Node) (power : Nat) (left : Node) (next : Token) :
    Parser (Option Node) := do
  if next.kind = .semicolon ∨ next.kind.power ≤ power then return none
  match cfg.continuer? next.kind with
  | none => return none
  | some .binary =>
    expect next.kind
    return some (← binary cfg e left)
  | some .call =>
    expect next.kind
    return some (← call cfg e left)

/-! ## Properties kept by composition -/

/-- A property of parsers that is kept by the ways of putting them together. An operand and a
block are parsed from the token before them, so that the property need not hold of a parser that
starts in the middle of nowhere. -/
structure Compositional (cfg : Config) (C : (α : Type) → Parser α → Prop) : Prop where
  give {α : Type} (a : α) : C α (pure a)
  fail {α : Type} (d : Diagnostic) : C α (throw d)
  current : C Token cur
  next : C Token peek
  seq {α β : Type} {p : Parser α} {f : α → Parser β} :
    C α p → (∀ a, C β (f a)) → C β (p >>= f)
  token {kind : Kind} : bounding kind = false → C Unit (expect kind)
  deeper {p : Parser Node} : C Node p → C Node (nested p)
  rule (r : Rule) {p : Parser Node} : C Node p → C Node (traced cfg r p)
  loop {α : Type} {step : α → Parser (Option α)} [Ending step] :
    (∀ a, C (Option α) (step a)) → ∀ a, C α (iterate step a)
  operand {e : Parser Node} : Refuses e → C Node e → C Node (advance >>= fun _ => e)
  braced {budget : Nat} : (∀ power, C Node (expression cfg budget power)) →
    C Node (expect .lbrace >>= fun _ => block cfg (expression cfg budget))

section

variable {cfg : Config} {C : (α : Type) → Parser α → Prop} (hC : Compositional cfg C)
  {α β : Type}

include hC

theorem Compositional.operand_bind {e : Parser Node} {k : Node → Parser β} (hr : Refuses e)
    (he : C Node e) (hk : ∀ n, C β (k n)) : C β (advance >>= fun _ => e >>= k) := by
  have hassoc : (advance >>= fun _ => e >>= k) = ((advance >>= fun _ => e) >>= k) :=
    (bind_assoc _ _ _).symm
  rw [hassoc]
  exact hC.seq (hC.operand hr he) hk

theorem Compositional.block_bind {budget : Nat} {k : Node → Parser β}
    (he : ∀ power, C Node (expression cfg budget power)) (hk : ∀ n, C β (k n)) :
    C β (expect .lbrace >>= fun _ => block cfg (expression cfg budget) >>= k) := by
  have hassoc : (expect .lbrace >>= fun _ => block cfg (expression cfg budget) >>= k) =
      ((expect .lbrace >>= fun _ => block cfg (expression cfg budget)) >>= k) :=
    (bind_assoc _ _ _).symm
  rw [hassoc]
  exact hC.seq (hC.braced he) hk

/-- What goes on by the next token may be replaced by what does the same before that token. -/
theorem Compositional.peek_bind {f : Token → Parser α} (g : Token → Parser α)
    (hfg : ∀ s : State, f s.peek s = g s.peek s) (hg : ∀ t, C α (g t)) : C α (peek >>= f) := by
  have heq : (peek >>= f) = (peek >>= g) := funext hfg
  rw [heq]
  exact hC.seq hC.next hg

/-- A token that was seen ahead is gone over like one that is expected. -/
theorem Compositional.ahead {kind : Kind} (hkind : bounding kind = false) {p q : Parser α}
    (hp : C α p) (hq : C α q) :
    C α (peek >>= fun t => if t.kind = kind then advance >>= fun _ => p else q) := by
  refine hC.peek_bind
    (fun t => if t.kind = kind then expect kind >>= fun _ => p else q) ?_ fun t => ?_
  · intro s
    split
    · rename_i h
      rw [bind_run, bind_run, expect_run_of_peek h]
    · rfl
  split
  · exact hC.seq (hC.token hkind) fun _ => hp
  · exact hq

/-! ## Expressions -/

theorem Compositional.holds_identifier : C Node identifier := hC.seq hC.current fun _ => hC.give _

theorem Compositional.holds_expectName : C Node expectName :=
  hC.seq (hC.token rfl) fun _ => hC.holds_identifier

theorem Compositional.holds_integer : C Node (integer cfg) := by
  refine hC.rule _ (hC.seq hC.current fun token => ?_)
  split
  · dsimp only
    split
    · exact hC.seq (hC.fail _) fun _ => hC.give _
    · exact hC.give _
  · exact hC.fail _

theorem Compositional.holds_parameters : C (List Node) parameters := by
  have hstep : ∀ names, C _ (parametersStep names) := by
    intro names
    unfold parametersStep
    simp only [ne_eq, ite_not]
    refine hC.ahead rfl ?_ (hC.give _)
    exact hC.seq hC.holds_expectName fun _ => hC.give _
  refine hC.ahead rfl (hC.give _) ?_
  refine hC.seq hC.holds_expectName fun first => ?_
  refine hC.seq (hC.loop hstep _) fun names => ?_
  exact hC.seq (hC.token rfl) fun _ => hC.give _

section

variable {e : Nat → Parser Node} (hr : ∀ power, Refuses (e power))
  (he : ∀ power, C Node (e power))

include hr he

theorem Compositional.holds_unary : C Node (unary cfg e) := by
  refine hC.rule _ (hC.seq hC.current fun token => ?_)
  exact hC.operand_bind (hr _) (he _) fun _ => hC.give _

theorem Compositional.holds_binary (left : Node) : C Node (binary cfg e left) := by
  refine hC.rule _ (hC.seq hC.current fun token => ?_)
  exact hC.operand_bind (hr _) (he _) fun _ => hC.give _

theorem Compositional.holds_group : C Node (group e) := by
  refine hC.operand_bind (hr _) (he _) fun n => ?_
  exact hC.seq (hC.token rfl) fun _ => hC.give _

variable [∀ power, Moving (e power)]

theorem Compositional.holds_arguments : C (List Node) (arguments e) := by
  have hstep : ∀ args, C _ (argumentsStep e args) := by
    intro args
    unfold argumentsStep
    simp only [ne_eq, ite_not]
    refine hC.ahead rfl ?_ (hC.give _)
    exact hC.operand_bind (hr _) (he _) fun _ => hC.give _
  refine hC.ahead rfl (hC.give _) ?_
  refine hC.operand_bind (hr _) (he _) fun first => ?_
  refine hC.seq (hC.loop hstep _) fun args => ?_
  exact hC.seq (hC.token rfl) fun _ => hC.give _

theorem Compositional.holds_call (left : Node) : C Node (call cfg e left) := by
  refine hC.rule _ (hC.seq hC.current fun token => ?_)
  exact hC.seq (hC.holds_arguments hr he) fun _ => hC.give _

theorem Compositional.holds_extendStep (power : Nat) (left : Node) :
    C (Option Node) (extendStep cfg e power left) := by
  refine hC.peek_bind (extendOver cfg e power left) ?_ fun next => ?_
  · intro s
    unfold extendOver
    split
    · rfl
    · rcases cfg.continuer? s.peek.kind with _ | _ | _
      · rfl
      · dsimp only
        rw [bind_run, bind_run, expect_run_of_peek rfl]
      · dsimp only
        rw [bind_run, bind_run, expect_run_of_peek rfl]
  · unfold extendOver
    split
    · exact hC.give _
    · split
      · exact hC.give _
      · rename_i hnext
        refine hC.seq (hC.token (bounding_of_continuer? hnext)) fun _ => ?_
        exact hC.seq (hC.holds_binary hr he left) fun _ => hC.give _
      · rename_i hnext
        refine hC.seq (hC.token (bounding_of_continuer? hnext)) fun _ => ?_
        exact hC.seq (hC.holds_call hr he left) fun _ => hC.give _

end

section

variable {budget : Nat} (he : ∀ power, C Node (expression cfg budget power))

include he

theorem Compositional.holds_elseBlock :
    C (Option Node) (elseBlock cfg (expression cfg budget)) := by
  unfold elseBlock
  simp only [ne_eq, ite_not]
  refine hC.ahead rfl ?_ (hC.give _)
  exact hC.block_bind he fun _ => hC.give _

theorem Compositional.holds_conditional : C Node (conditional cfg (expression cfg budget)) := by
  refine hC.rule _ (hC.seq hC.current fun token => ?_)
  refine hC.seq (hC.token rfl) fun _ => ?_
  refine hC.operand_bind (refuses_expression cfg budget _) (he _) fun condition => ?_
  refine hC.seq (hC.token rfl) fun _ => ?_
  refine hC.block_bind he fun consequence => ?_
  exact hC.seq (hC.holds_elseBlock he) fun _ => hC.give _

theorem Compositional.holds_functionLiteral :
    C Node (functionLiteral cfg (expression cfg budget)) := by
  refine hC.rule _ (hC.seq hC.current fun token => ?_)
  refine hC.seq (hC.token rfl) fun _ => ?_
  refine hC.seq hC.holds_parameters fun names => ?_
  exact hC.block_bind he fun _ => hC.give _

theorem Compositional.holds_startExpression :
    C Node (startExpression cfg (expression cfg budget)) := by
  refine hC.seq hC.current fun token => ?_
  split
  · exact hC.holds_identifier
  · exact hC.holds_integer
  · exact hC.seq hC.current fun _ => hC.give _
  · exact hC.seq hC.current fun _ => hC.give _
  · exact hC.holds_unary (refuses_expression cfg budget) he
  · exact hC.holds_group (refuses_expression cfg budget) he
  · exact hC.holds_conditional he
  · exact hC.holds_functionLiteral he
  · exact hC.fail _

theorem Compositional.holds_expressionWith (power : Nat) :
    C Node (expressionWith cfg (expression cfg budget) power) := by
  refine hC.rule _ (hC.seq (hC.holds_startExpression he) fun left => ?_)
  exact hC.loop (hC.holds_extendStep (refuses_expression cfg budget) he power) left

end

/-- **A property that composition keeps holds of every expression**, by induction on the room for
open expressions. -/
theorem Compositional.holds_expression : ∀ budget power, C Node (expression cfg budget power) := by
  intro budget
  induction budget with
  | zero =>
    intro power
    exact hC.seq hC.current fun _ => hC.fail _
  | succ budget ih =>
    intro power
    exact hC.deeper (hC.holds_expressionWith ih power)

end

end Scriptlet.Parser
